import Promisify.Proofs.Layout

set_option autoImplicit false

/-! # Steps of a parser

What a place between two tokens looks like, and what reading from one place to a later one does: the
nodes contributed are laid out between the two places, and the comments met on the way are added to
those met before. Steps compose (`Step.trans`), so every parser that is put together from steps makes
one step.
-/

namespace Promisify

open Lexer

/-! ## Places -/

/-- Comments of a text, the last one first. -/
structure Tidy (t : Text) (cs : List Span) : Prop where
  nonempty : ∀ c ∈ cs, c.start < c.stop
  borders : ∀ c ∈ cs, t.IsBorder c.start ∧ t.IsBorder c.stop
  ordered : cs.Pairwise fun a b => b.stop ≤ a.start

theorem Tidy.filter {t : Text} {cs : List Span} (h : Tidy t cs) (keep : Span → Bool) :
    Tidy t (cs.filter keep) where
  nonempty := fun c hc => h.nonempty c (List.mem_filter.mp hc).1
  borders := fun c hc => h.borders c (List.mem_filter.mp hc).1
  ordered := h.ordered.sublist List.filter_sublist

/-- New comments behind the old ones. -/
theorem Tidy.append {t : Text} {new old : List Span} (hnew : Tidy t new) (hold : Tidy t old)
    {k : Nat} (hk : ∀ c ∈ new, k ≤ c.start) (hk' : ∀ c ∈ old, c.stop ≤ k) :
    Tidy t (new ++ old) where
  nonempty := by
    intro c hc
    rcases List.mem_append.mp hc with hc | hc
    · exact hnew.nonempty c hc
    · exact hold.nonempty c hc
  borders := by
    intro c hc
    rcases List.mem_append.mp hc with hc | hc
    · exact hnew.borders c hc
    · exact hold.borders c hc
  ordered := by
    rw [List.pairwise_append]
    refine ⟨hnew.ordered, hold.ordered, ?_⟩
    intro a ha b hb
    have h₁ := hk a ha
    have h₂ := hk' b hb
    omega

theorem Tidy.of_skips {t u v : Text} {pos : Nat} {cs : List Span} (h : Skips v pos u cs)
    (ht : t.From pos (u ++ v)) : Tidy t cs.reverse where
  nonempty := fun c hc => (h.bounds.1 c (List.mem_reverse.mp hc)).2.1
  borders := fun c hc => h.isBorder ht c (List.mem_reverse.mp hc)
  ordered := by
    rw [List.pairwise_reverse]
    exact h.bounds.2

/-- A place between two tokens of the text `t`. -/
structure State.Sound (t : Text) (s : State) : Prop where
  gap : t.From s.prevStop s.gap
  here : t.From s.start s.here
  rest : t.From s.stop s.rest
  start_le : s.start ≤ s.stop
  token : s.tok ≠ .eof → s.start < s.stop
  unskipped : triviaUnit s.here = 0
  scanned : ∃ u, scan s.here = ⟨s.tok, u, s.rest⟩ ∧ s.stop = s.start + Text.size u
  /-- The text since the last token is skipped, and its comments are the last ones met. -/
  skips : ∃ u cs old, s.gap = u ++ s.here ∧ s.start = s.prevStop + Text.size u ∧
    Skips s.here s.prevStop u cs ∧ s.comments = cs.reverse ++ old ∧
    ∀ c ∈ old, c.stop ≤ s.prevStop
  tidy : Tidy t s.comments

namespace State.Sound

variable {t : Text} {s : State}

theorem prevStop_le (h : s.Sound t) : s.prevStop ≤ s.start := by
  obtain ⟨u, -, -, -, hstart, -⟩ := h.skips
  omega

theorem comments_cases (h : s.Sound t) : ∀ c ∈ s.comments,
    c.stop ≤ s.prevStop ∨ s.prevStop ≤ c.start ∧ c.stop ≤ s.start := by
  obtain ⟨u, cs, old, -, hstart, hskips, hcomments, hold⟩ := h.skips
  intro c hc
  rw [hcomments] at hc
  rcases List.mem_append.mp hc with hc | hc
  · have := hskips.bounds.1 c (List.mem_reverse.mp hc)
    omega
  · exact Or.inl (hold c hc)

/-- All comments met lie before the next token. -/
theorem comments_le (h : s.Sound t) : ∀ c ∈ s.comments, c.stop ≤ s.start := by
  intro c hc
  have h₁ := h.comments_cases c hc
  have h₂ := h.prevStop_le
  omega

theorem free_prevStop (h : s.Sound t) : t.Free s.comments s.prevStop := by
  refine ⟨h.gap.isBorder, ?_⟩
  intro c hc
  exact (h.comments_cases c hc).imp id And.left

theorem free_start (h : s.Sound t) : t.Free s.comments s.start :=
  ⟨h.here.isBorder, fun c hc => Or.inl (h.comments_le c hc)⟩

/-- No name reaches up to a token when none reaches up to the text skipped in front of it. -/
theorem nameBefore_start (h : s.Sound t) (hprev : t.nameBefore s.prevStop = false)
    (hne : s.here ≠ []) : t.nameBefore s.start = false := by
  obtain ⟨u, cs, old, hgap, hstart, hskips, -⟩ := h.skips
  by_cases hu : u = []
  · rw [hstart, hu]
    exact hprev
  · have hfrom := h.gap
    rw [hgap] at hfrom
    rw [hstart, hfrom.nameBefore hu]
    exact hskips.endsInName_eq h.unskipped hne

/-- The text of punctuation is its spelling. -/
theorem slice?_punct (h : s.Sound t) {x : Punct} {u : Text} (htok : s.tok = .punct x)
    (hu : (u, x) ∈ Punct.table) : t.slice? s.start s.stop = some u := by
  obtain ⟨v, hscan, hstop⟩ := h.scanned
  obtain ⟨happ, -⟩ := scan_cases s.here
  obtain ⟨w, hw, hsize⟩ := h.here
  rw [hscan] at happ
  rw [htok] at hscan
  rw [spelling_unique hu (scan_punct hscan)]
  exact Text.slice?_eq_some_iff.mpr ⟨w, s.rest, by rw [hw, happ, List.append_assoc], hsize, hstop.symm⟩

/-- No name reaches up to the end of punctuation. -/
theorem nameBefore_stop (h : s.Sound t) {x : Punct} (htok : s.tok = .punct x) :
    t.nameBefore s.stop = false := by
  obtain ⟨u, hscan, hstop⟩ := h.scanned
  obtain ⟨happ, hne⟩ := scan_cases s.here
  rw [hscan] at happ hne
  rw [htok] at hscan hne
  have hfrom := h.here
  rw [happ] at hfrom
  rw [hstop, hfrom.nameBefore (hne (by simp))]
  exact endsInName_spelling (scan_punct hscan)

/-- In front of punctuation no name starts behind the last token. -/
theorem nameBehind_prevStop (h : s.Sound t) {x : Punct} (htok : s.tok = .punct x) :
    t.nameBehind s.prevStop = false := by
  obtain ⟨u, cs, old, hgap, -, hskips, -⟩ := h.skips
  rw [h.gap.nameBehind_eq, hgap]
  by_cases hu : u = []
  · obtain ⟨v, hscan, -⟩ := h.scanned
    obtain ⟨happ, hne⟩ := scan_cases s.here
    rw [hscan] at happ hne
    rw [htok] at hscan hne
    rw [hu, List.nil_append, happ, Text.startsInName_append (hne (by simp))]
    exact startsInName_spelling (scan_punct hscan)
  · rw [Text.startsInName_append hu]
    exact hskips.startsInName_eq

/-- It does not matter which tokens could not be read before. -/
theorem withFar (h : s.Sound t) (far : Blocked) : ({ s with far := far }).Sound t :=
  ⟨h.gap, h.here, h.rest, h.start_le, h.token, h.unskipped, h.scanned, h.skips, h.tidy⟩

end State.Sound

/-- Going on after a token, whatever has been read of the text before. -/
theorem State.resume_sound {t gap : Text} {pos : Nat} {s : State} (hgap : t.From pos gap)
    (htidy : Tidy t s.comments) (hold : ∀ c ∈ s.comments, c.stop ≤ pos) :
    (s.resume pos gap).Sound t := by
  obtain ⟨hskips, hstop⟩ := trivia_skips gap pos
  have happ : (trivia gap).1 ++ (trivia gap).2 = gap := Text.munch_append _ _ gap
  have hgap' := hgap
  rw [← happ] at hgap'
  obtain ⟨hscan, htaken⟩ := scan_cases (trivia gap).2
  have hhere := hgap'.append
  refine ⟨hgap, hhere, ?_, Nat.le_add_right _ _, ?_, hstop, ⟨_, rfl, rfl⟩, ?_, ?_⟩
  · rw [hscan] at hhere
    exact hhere.append
  · intro htok
    exact Nat.lt_add_of_pos_right (Text.size_pos (htaken htok))
  · exact ⟨_, _, s.comments, happ.symm, rfl, hskips, rfl, hold⟩
  · refine (Tidy.of_skips hskips hgap').append htidy ?_ hold
    intro c hc
    exact (hskips.bounds.1 c (List.mem_reverse.mp hc)).1

/-! ## Steps -/

/-- Where a step starts: where the last token ended, from where on the step reads, and the comments
met before. -/
structure Place where
  prev : Nat
  pos : Nat
  comments : List Span

/-- The place before the next token. -/
def State.place (s : State) : Place := ⟨s.prevStop, s.start, s.comments⟩

/-- A step from the place `a` to the place `s'` that contributes the nodes `ns`, laid out from the
offset `lo` on. -/
structure Step (t : Text) (lo : Nat) (a : Place) (ns : List Node) (s' : State) : Prop where
  sound : s'.Sound t
  pos_le : a.pos ≤ s'.start
  prev_le : a.prev ≤ s'.prevStop
  comments : ∃ new, s'.comments = new ++ a.comments ∧ ∀ c ∈ new, a.pos ≤ c.start
  laid : Laid t s'.comments lo ns s'.prevStop

namespace Step

variable {t : Text} {lo : Nat} {a b : Place} {s s' s'' : State} {ns ms : List Node}

theorem refl (hs : s.Sound t) (lo : Nat) : Step t lo s.place [] s :=
  ⟨hs, Nat.le_refl _, Nat.le_refl _, ⟨[], rfl, by simp⟩, Laid.nil⟩

/-- The same step with other nodes. -/
theorem withNodes {lo' : Nat} (h : Step t lo a ns s')
    (hl : Laid t s'.comments lo' ms s'.prevStop) : Step t lo' a ms s' :=
  ⟨h.sound, h.pos_le, h.prev_le, h.comments, hl⟩

theorem mem_comments (h : Step t lo a ns s') :
    ∀ c ∈ s'.comments, c ∈ a.comments ∨ a.pos ≤ c.start := by
  obtain ⟨new, hnew, hpos⟩ := h.comments
  intro c hc
  rw [hnew] at hc
  rcases List.mem_append.mp hc with hc | hc
  · exact Or.inr (hpos c hc)
  · exact Or.inl hc

/-- **A step after a step.** The second may start anywhere behind the first. -/
theorem trans (h₁ : Step t lo a ns s') (h₂ : Step t b.pos b ms s'')
    (hc : b.comments = s'.comments) (hprev : s'.prevStop ≤ b.prev) (hpos : s'.prevStop ≤ b.pos)
    (hlo : lo ≤ b.pos) (ha : a.pos ≤ b.pos) : Step t lo a (ns ++ ms) s'' where
  sound := h₂.sound
  pos_le := Nat.le_trans ha h₂.pos_le
  prev_le := Nat.le_trans h₁.prev_le (Nat.le_trans hprev h₂.prev_le)
  comments := by
    obtain ⟨new₁, hnew₁, hpos₁⟩ := h₁.comments
    obtain ⟨new₂, hnew₂, hpos₂⟩ := h₂.comments
    refine ⟨new₂ ++ new₁, ?_, ?_⟩
    · rw [hnew₂, hc, hnew₁, List.append_assoc]
    · intro c hmem
      rcases List.mem_append.mp hmem with hmem | hmem
      · exact Nat.le_trans ha (hpos₂ c hmem)
      · exact hpos₁ c hmem
  laid := by
    have h₃ := h₂.prev_le
    refine (h₁.laid.mono ?_ (Nat.le_refl _) (Nat.le_refl _)).append h₂.laid hpos hlo (by omega)
    intro c hmem
    rw [← hc]
    exact (h₂.mem_comments c hmem).imp id (Nat.le_trans hpos)

/-- A step from where the first one ended. -/
theorem andThen (h₁ : Step t lo a ns s') (h₂ : Step t s'.start s'.place ms s'')
    (hlo : lo ≤ a.pos) : Step t lo a (ns ++ ms) s'' :=
  h₁.trans (b := s'.place) h₂ rfl (Nat.le_refl _) h₁.sound.prevStop_le
    (Nat.le_trans hlo h₁.pos_le) h₁.pos_le

/-- A step whose nodes take the place of those of the first. -/
theorem continued (h₁ : Step t lo a ns s') (h₂ : Step t lo s'.place ms s'') :
    Step t lo a ms s'' := by
  obtain ⟨new₁, hnew₁, hpos₁⟩ := h₁.comments
  obtain ⟨new₂, hnew₂, hpos₂⟩ := h₂.comments
  refine ⟨h₂.sound, Nat.le_trans h₁.pos_le h₂.pos_le, Nat.le_trans h₁.prev_le h₂.prev_le, ?_,
    h₂.laid⟩
  refine ⟨new₂ ++ new₁, ?_, ?_⟩
  · rw [hnew₂, List.append_assoc, ← hnew₁]
    rfl
  · intro c hc
    rcases List.mem_append.mp hc with hc | hc
    · exact Nat.le_trans h₁.pos_le (hpos₂ c hc)
    · exact hpos₁ c hc

theorem withFar (h : Step t lo a ns s') (far : Blocked) :
    Step t lo a ns { s' with far := far } :=
  ⟨h.sound.withFar far, h.pos_le, h.prev_le, h.comments, h.laid⟩

/-- A node around all that was read. -/
theorem node {k : Kind} (h : Step t s.start s.place ns s') (hs : s.Sound t)
    (hlt : s.start < s'.prevStop) (hh : (Node.mk k none s.start s'.prevStop ns).Headed t) :
    Step t s.start s.place [.mk k none s.start s'.prevStop ns] s' := by
  refine h.withNodes (Laid.singleton ?_ (Nat.le_refl _) (Nat.le_refl _))
  exact h.laid.node hlt (hs.free_start.mono h.mem_comments) h.sound.free_prevStop hh

end Step

/-- Going on at an offset behind the comments met before. -/
theorem State.resume_step {t gap : Text} {pos lo : Nat} {s : State} {a : Place}
    (ha : a.comments = s.comments) (htidy : Tidy t s.comments)
    (hold : ∀ c ∈ s.comments, c.stop ≤ pos) (hgap : t.From pos gap) (hpos : a.pos ≤ pos)
    (hprev : a.prev ≤ pos) : Step t lo a [] (s.resume pos gap) := by
  have hsound := State.resume_sound hgap htidy hold
  have hstart := hsound.prevStop_le
  refine ⟨hsound, Nat.le_trans hpos hstart, hprev, ?_, Laid.nil⟩
  rw [ha]
  refine ⟨_, rfl, ?_⟩
  intro c hc
  have := ((trivia_skips gap pos).1.bounds.1 c (List.mem_reverse.mp hc)).1
  exact Nat.le_trans hpos this

/-- Going on after a token read from the next place on. -/
theorem State.Sound.resume {t gap : Text} {pos lo : Nat} {s : State} (hs : s.Sound t)
    (hgap : t.From pos gap) (hpos : s.start ≤ pos) :
    Step t lo s.place [] (s.resume pos gap) := by
  refine State.resume_step rfl hs.tidy ?_ hgap hpos (Nat.le_trans hs.prevStop_le hpos)
  intro c hc
  exact Nat.le_trans (hs.comments_le c hc) hpos

/-- A place in text that is not made of tokens. -/
def Place.raw (pos : Nat) (cs : List Span) : Place := ⟨pos, pos, cs⟩

/-- A step from a place further back. -/
theorem Step.earlier {t : Text} {lo lo' : Nat} {a b : Place} {ns : List Node} {s' : State}
    (h : Step t lo a ns s') (hc : b.comments = a.comments) (hpos : b.pos ≤ a.pos)
    (hprev : b.prev ≤ a.prev) (hlo : lo' ≤ lo) : Step t lo' b ns s' := by
  obtain ⟨new, hnew, hle⟩ := h.comments
  refine ⟨h.sound, Nat.le_trans hpos h.pos_le, Nat.le_trans hprev h.prev_le,
    ⟨new, by rw [hc, hnew], ?_⟩, h.laid.mono (fun c hc => Or.inl hc) hlo (Nat.le_refl _)⟩
  intro c hc
  exact Nat.le_trans hpos (hle c hc)

/-- A node around what was read that ends with the next token, and what follows that token. -/
theorem Step.closed {t : Text} {lo x : Nat} {a : Place} {k : Kind} {ns ms : List Node}
    {s₁ s₂ : State} (h₁ : Step t x a ns s₁)
    (h₂ : Step t s₁.stop (.raw s₁.stop s₁.comments) ms s₂) (hk : k.isPlain = true)
    (hx : x < s₁.stop) (hfree : t.Free s₁.comments x) (hlo : lo ≤ x) :
    Step t lo a (.mk k none x s₁.stop ns :: ms) s₂ := by
  have hle := h₁.sound.start_le
  have hprev := h₁.sound.prevStop_le
  have hprev₂ : s₁.stop ≤ s₂.prevStop := h₂.prev_le
  have hcs : ∀ c ∈ s₂.comments, c ∈ s₁.comments ∨ s₁.stop ≤ c.start := h₂.mem_comments
  have hstop : t.Free s₁.comments s₁.stop := by
    refine ⟨h₁.sound.rest.isBorder, fun c hc => Or.inl ?_⟩
    exact Nat.le_trans (h₁.sound.comments_le c hc) hle
  have hnode : (Node.mk k none x s₁.stop ns).Sound t s₂.comments := by
    refine Laid.node (h₁.laid.mono ?_ (Nat.le_refl _) (Nat.le_trans hprev hle)) hx
      (hfree.mono ?_) (hstop.mono hcs) (Node.headed_of_isPlain hk _ _ _)
    · intro c hc
      exact (hcs c hc).imp id fun hc => by omega
    · intro c hc
      exact (hcs c hc).imp id fun hc => by omega
  have hrow : Laid t s₂.comments lo (.mk k none x s₁.stop ns :: ms) s₂.prevStop :=
    (Laid.singleton hnode hlo (Nat.le_refl s₁.stop)).append h₂.laid (Nat.le_refl _) (by omega)
      hprev₂
  have hpos := h₁.pos_le
  have hboth : Step t x a (ns ++ ms) s₂ :=
    h₁.trans (b := .raw s₁.stop s₁.comments) h₂ rfl (Nat.le_trans hprev hle)
      (Nat.le_trans hprev hle) (Nat.le_of_lt hx) (Nat.le_trans hpos hle)
  exact hboth.withNodes hrow

end Promisify
