import Promisify.Proofs.Steps

set_option autoImplicit false

/-! # Parsers that make steps

A parser `Reads` when it makes a step wherever it succeeds, and `Takes` when that step also goes past
the next token. Every combinator keeps these properties in its own way, so that the proof for a rule
of the grammar has the shape of the rule. A node is built only around a parser that takes something,
so no node is empty.

A parser that looks at the next token first is judged at a place (`ReadsAt`, `TakesAt`).
-/

namespace Promisify

namespace Parser

open Lexer

/-- Where `p` succeeds at `s` it makes a step. -/
def ReadsAt (t : Text) (p : Parser) (s : State) : Prop :=
  ∀ ns s', s.Sound t → p s = .ok ns s' → Step t s.start s.place ns s'

/-- Where `p` succeeds at `s` it makes a step past the next token. -/
def TakesAt (t : Text) (p : Parser) (s : State) : Prop :=
  ∀ ns s', s.Sound t → p s = .ok ns s' → Step t s.start s.place ns s' ∧ s.start < s'.prevStop

/-- `p` makes a step wherever it succeeds. -/
def Reads (t : Text) (p : Parser) : Prop := ∀ s, ReadsAt t p s

/-- `p` makes a step past the next token wherever it succeeds. -/
def Takes (t : Text) (p : Parser) : Prop := ∀ s, TakesAt t p s

variable {t : Text} {p q : Parser} {ps : List Parser} {s : State}

theorem TakesAt.reads (h : TakesAt t p s) : ReadsAt t p s := fun ns s' hs hp => (h ns s' hs hp).1

theorem Takes.reads (h : Takes t p) : Reads t p := fun s => (h s).reads

/-! ## Sequences -/

theorem Reads.nil : Reads t (pass []) := by
  intro s ns s' hs h
  cases h
  exact Step.refl hs _

theorem andThen_eq_ok {ns : List Node} {s' : State} (h : andThen p q s = .ok ns s') :
    ∃ ns₁ s₁ ns₂, p s = .ok ns₁ s₁ ∧ q s₁ = .ok ns₂ s' ∧ ns = ns₁ ++ ns₂ := by
  unfold andThen at h
  split at h
  · next ns₁ s₁ hp =>
      split at h
      · next ns₂ s₂ hq =>
          cases h
          exact ⟨ns₁, s₁, ns₂, hp, hq, rfl⟩
      · cases h
  · cases h

/-- Passing on what was read before is reading it first. -/
theorem andThen_pass {ns : List Node} {s₁ : State} (h : p s = .ok ns s₁) :
    andThen (pass ns) q s₁ = andThen p q s := by
  simp only [andThen, pass, h]

theorem ReadsAt.andThen (hp : ReadsAt t p s) (hq : Reads t q) : ReadsAt t (andThen p q) s := by
  intro ns s' hs h
  obtain ⟨ns₁, s₁, ns₂, h₁, h₂, rfl⟩ := andThen_eq_ok h
  have hstep := hp ns₁ s₁ hs h₁
  exact hstep.andThen (hq s₁ ns₂ s' hstep.sound h₂) (Nat.le_refl _)

theorem Reads.andThen (hp : Reads t p) (hq : Reads t q) : Reads t (andThen p q) :=
  fun s => (hp s).andThen hq

theorem TakesAt.andThen (hp : TakesAt t p s) (hq : Reads t q) : TakesAt t (andThen p q) s := by
  intro ns s' hs h
  refine ⟨hp.reads.andThen hq ns s' hs h, ?_⟩
  obtain ⟨ns₁, s₁, ns₂, h₁, h₂, rfl⟩ := andThen_eq_ok h
  obtain ⟨hstep, hlt⟩ := hp ns₁ s₁ hs h₁
  exact Nat.lt_of_lt_of_le hlt (hq s₁ ns₂ s' hstep.sound h₂).prev_le

theorem Takes.andThen (hp : Takes t p) (hq : Reads t q) : Takes t (andThen p q) :=
  fun s => (hp s).andThen hq

theorem Reads.andTake (hp : Reads t p) (hq : Takes t q) : Takes t (Parser.andThen p q) := by
  intro s ns s' hs h
  refine ⟨hp.andThen hq.reads s ns s' hs h, ?_⟩
  obtain ⟨ns₁, s₁, ns₂, h₁, h₂, rfl⟩ := andThen_eq_ok h
  have hstep := hp s ns₁ s₁ hs h₁
  exact Nat.lt_of_le_of_lt hstep.pos_le (hq s₁ ns₂ s' hstep.sound h₂).2

theorem Reads.cons (hp : Reads t p) (hps : Reads t (all ps)) : Reads t (all (p :: ps)) := by
  cases ps with
  | nil => exact hp
  | cons q qs => exact hp.andThen hps

/-- Nothing is taken by reading nothing. -/
theorem Takes.ne_nil (h : Takes t (all ps)) (hs : s.Sound t) : ps ≠ [] := by
  rintro rfl
  have hlt := (h s [] s hs rfl).2
  have hle := hs.prevStop_le
  omega

/-- A sequence takes something when its first parser does. -/
theorem Takes.first (hp : Takes t p) (hps : Reads t (all ps)) : Takes t (all (p :: ps)) := by
  cases ps with
  | nil => exact hp
  | cons q qs => exact hp.andThen hps

/-- A sequence takes something when a later parser does. -/
theorem Takes.later (hp : Reads t p) (hps : Takes t (all ps)) : Takes t (all (p :: ps)) := by
  intro s ns s' hs h
  cases ps with
  | nil => exact absurd rfl (hps.ne_nil hs)
  | cons q qs => exact hp.andTake hps s ns s' hs h

/-! ## Choices -/

theorem Takes.fail : Takes t fail := by
  intro s ns s' hs h
  cases h

theorem orElse_eq_ok {ns : List Node} {s' : State} (h : orElse p q s = .ok ns s') :
    p s = .ok ns s' ∨ ∃ far, q { s with far := far } = .ok ns s' := by
  unfold orElse at h
  split at h
  · next hp =>
      cases h
      exact Or.inl hp
  · next far hp => exact Or.inr ⟨far, h⟩

theorem Reads.orElse (hp : Reads t p) (hq : Reads t q) : Reads t (orElse p q) := by
  intro s ns s' hs h
  rcases orElse_eq_ok h with h₁ | ⟨far, h₂⟩
  · exact hp s ns s' hs h₁
  · exact hq { s with far := far } ns s' (hs.withFar far) h₂

theorem TakesAt.orElse (hp : TakesAt t p s) (hq : ∀ far, TakesAt t q { s with far := far }) :
    TakesAt t (orElse p q) s := by
  intro ns s' hs h
  rcases orElse_eq_ok h with h₁ | ⟨far, h₂⟩
  · exact hp ns s' hs h₁
  · exact hq far ns s' (hs.withFar far) h₂

theorem Takes.orElse (hp : Takes t p) (hq : Takes t q) : Takes t (orElse p q) :=
  fun s => (hp s).orElse fun _ => hq _

theorem Reads.opt (hp : Reads t p) : Reads t (opt p) := hp.orElse .nil

theorem Reads.many (hp : Reads t p) (fuel : Nat) : Reads t (many p fuel) := by
  induction fuel with
  | zero => exact .nil
  | succ fuel ih =>
      intro s ns s' hs h
      simp only [Parser.many] at h
      split at h
      · next ns₁ s₁ hp₁ =>
          have hstep := hp s ns₁ s₁ hs hp₁
          split at h
          -- the repetition stops where nothing was read
          · cases h
            exact hstep
          · split at h
            · next hp₂ =>
                cases h
                exact hstep.andThen (ih s₁ _ _ hstep.sound hp₂) (Nat.le_refl _)
            · cases h
      · next far _ =>
          cases h
          exact (Step.refl hs _).withFar far

theorem Reads.look {f : State → Parser} (h : ∀ s, ReadsAt t (f s) s) : Reads t (look f) := h

theorem Takes.look {f : State → Parser} (h : ∀ s, TakesAt t (f s) s) : Takes t (look f) := h

/-! ## Nodes -/

theorem node_eq_ok {k : Kind} {ns : List Node} {s' : State} (h : node k p s = .ok ns s') :
    ∃ ms, p s = .ok ms s' ∧ ns = [.mk k none s.start s'.prevStop ms] := by
  unfold node at h
  split at h
  · next ms s₁ hp =>
      cases h
      exact ⟨ms, hp, rfl⟩
  · cases h

/-- A node of a kind that asks something of its children. -/
theorem TakesAt.headed {k : Kind} (hp : TakesAt t p s)
    (hk : ∀ ms s', s.Sound t → p s = .ok ms s' →
      (Node.mk k none s.start s'.prevStop ms).Headed t) :
    TakesAt t (node k p) s := by
  intro ns s' hs h
  obtain ⟨ms, hp', rfl⟩ := node_eq_ok h
  obtain ⟨hstep, hlt⟩ := hp ms s' hs hp'
  exact ⟨hstep.node hs hlt (hk ms s' hs hp'), hlt⟩

theorem TakesAt.node {k : Kind} (hk : k.isPlain = true) (hp : TakesAt t p s) :
    TakesAt t (node k p) s :=
  hp.headed fun _ _ _ _ => Node.headed_of_isPlain hk _ _ _

theorem Takes.node {k : Kind} (hk : k.isPlain = true) (hp : Takes t p) : Takes t (node k p) :=
  fun s => (hp s).node hk

theorem role_eq_ok {f : Field} {ns : List Node} {s' : State} (h : role f p s = .ok ns s') :
    ∃ ms, p s = .ok ms s' ∧ ns = ms.map (Node.withField (some f)) := by
  unfold role at h
  split at h
  · next ms s₁ hp =>
      cases h
      exact ⟨ms, hp, rfl⟩
  · cases h

theorem TakesAt.role {f : Field} (hp : TakesAt t p s) : TakesAt t (role f p) s := by
  intro ns s' hs h
  obtain ⟨ms, hp', rfl⟩ := role_eq_ok h
  obtain ⟨hstep, hlt⟩ := hp ms s' hs hp'
  exact ⟨hstep.withNodes (hstep.laid.withField _), hlt⟩

theorem Takes.role {f : Field} (hp : Takes t p) : Takes t (role f p) := fun s => (hp s).role

/-! ## Tokens -/

theorem step_advance (hs : s.Sound t) (lo : Nat) : Step t lo s.place [] s.advance :=
  hs.resume hs.rest hs.start_le

theorem token_eq_ok {tok : Token} {ns : List Node} {s' : State} (h : token tok s = .ok ns s') :
    ns = [] := by
  unfold token at h
  split at h
  · cases h
    rfl
  · cases h

theorem Reads.token (tok : Token) : Reads t (token tok) := by
  intro s ns s' hs h
  unfold Parser.token at h
  split at h
  · cases h
    exact step_advance hs _
  · cases h

theorem Takes.token {tok : Token} (htok : tok ≠ .eof) : Takes t (token tok) := by
  intro s ns s' hs h
  refine ⟨Reads.token tok s ns s' hs h, ?_⟩
  unfold Parser.token at h
  split at h
  · next heq =>
      cases h
      apply hs.token
      rw [beq_iff_eq.mp heq]
      exact htok
  · cases h

theorem Takes.punct (x : Punct) : Takes t (punct x) := .token (by simp)

theorem Takes.word (w : Word) : Takes t (word w) := .token (by simp)

theorem Reads.punct (x : Punct) : Reads t (punct x) := (Takes.punct x).reads

theorem Reads.word (w : Word) : Reads t (word w) := (Takes.word w).reads

theorem Takes.oneWord (ws : List Word) : Takes t (oneWord ws) := by
  refine .look fun s => ?_
  split
  · next w heq =>
      split
      · rw [heq]
        exact Takes.word w s
      · exact Takes.fail s
  · exact Takes.fail s

/-- Text from the next token on that is read as one node. -/
theorem step_leaf {k : Kind} (hk : k.isPlain = true ∨ k = .optionalChain ∨ k = .typeKeyword)
    (hs : s.Sound t) {pos : Nat} {gap : Text} (hgap : t.From pos gap) (hlt : s.start < pos) :
    Step t s.start s.place [.leaf k s.start pos] (s.resume pos gap) :=
  (hs.resume hgap (Nat.le_of_lt hlt)).node hs hlt (Node.headed_leaf hk _ _)

theorem TakesAt.leaf {k : Kind} (hk : k.isPlain = true) (htok : s.tok ≠ .eof) :
    TakesAt t (leaf k) s := by
  intro ns s' hs h
  cases h
  have hlt := hs.token htok
  exact ⟨step_leaf (Or.inl hk) hs hs.rest hlt, hlt⟩

theorem Takes.name {k : Kind} (hk : k.isPlain = true) : Takes t (name k) := by
  refine .look fun s => ?_
  split
  · next heq => exact .leaf hk (by simp [heq])
  · exact Takes.fail s

theorem Reads.name {k : Kind} (hk : k.isPlain = true) : Reads t (name k) := (Takes.name hk).reads

theorem tokenAs_eq_ok {k : Kind} {tok : Token} {ns : List Node} {s' : State}
    (h : tokenAs k tok s = .ok ns s') : ns = [.leaf k s.start s.stop] := by
  simp only [tokenAs, Parser.look] at h
  split at h
  · cases h
    rfl
  · cases h

theorem Takes.tokenAs {k : Kind} {tok : Token}
    (hk : k.isPlain = true ∨ k = .optionalChain ∨ k = .typeKeyword) (htok : tok ≠ .eof) :
    Takes t (tokenAs k tok) := by
  refine .look fun s => ?_
  split
  · next heq =>
      intro ns s' hs h
      cases h
      have hlt : s.start < s.stop := by
        apply hs.token
        rw [beq_iff_eq.mp heq]
        exact htok
      exact ⟨step_leaf hk hs hs.rest hlt, hlt⟩
  · exact Takes.fail s

theorem Takes.closeAngle : Takes t closeAngle := by
  intro s ns s' hs h
  unfold Parser.closeAngle at h
  split at h
  · next heq =>
      cases h
      exact ⟨step_advance hs _, hs.token (by simp [heq])⟩
  · next rest _ _ hhere =>
      cases h
      have hfrom := hs.here
      rw [hhere] at hfrom
      exact ⟨hs.resume (hfrom.append (u := ['>'])) (Nat.le_add_right _ _),
        Nat.lt_add_of_pos_right (by decide)⟩
  · cases h

/-! ## Lists -/

theorem Takes.commaSep {item : Parser} (h : Takes t item) (fuel : Nat) :
    Takes t (commaSep item fuel) :=
  h.andThen (.many (.andThen (.punct _) h.reads) fuel)

theorem Reads.commaHoles {item : Parser} (h : Reads t item) (fuel : Nat) :
    Reads t (commaHoles item fuel) :=
  h.opt.andThen (.many (.andThen (.punct _) h.opt) fuel)

theorem Reads.commaList {item : Parser} (h : Takes t item) (fuel : Nat) :
    Reads t (commaList item fuel) :=
  .opt (.andThen (h.commaSep fuel).reads (.opt (.punct _)))

/-! ## The end of a statement -/

/-- Stopping somewhere before the next token. -/
theorem step_lineEnd {b : Border} {pos : Nat} {gap : Text} (hs : s.Sound t)
    (h : lineEnd? b s.prevStop s.gap = some (pos, gap)) (lo : Nat) :
    Step t lo s.place [] { s with prevStop := pos, gap := gap } := by
  obtain ⟨u, cs, old, hgap, hstart, hskips, hcomments, hold⟩ := hs.skips
  rw [hgap] at h
  obtain ⟨x, u', cs₁, cs₂, rfl, rfl, hr, hcs₁, hskips'⟩ :=
    (lineEnd?_cut hs.unskipped hskips h).exists_skips
  rw [Prod.mk.injEq] at hr
  obtain ⟨rfl, rfl⟩ := hr
  have hfrom := hs.gap
  rw [hgap, List.append_assoc] at hfrom
  rw [Text.size_append] at hstart
  -- the next token stays the same, and the comments in `x` now lie before the last one
  have hsound : State.Sound t { s with prevStop := s.prevStop + Text.size x, gap := u' ++ s.here } :=
    { gap := hfrom.append
      here := hs.here
      rest := hs.rest
      start_le := hs.start_le
      token := hs.token
      unskipped := hs.unskipped
      scanned := hs.scanned
      tidy := hs.tidy
      skips := by
        refine ⟨u', cs₂, cs₁.reverse ++ old, rfl, ?_, hskips', ?_, ?_⟩
        · show s.start = s.prevStop + Text.size x + Text.size u'
          omega
        · show s.comments = _
          rw [hcomments, List.reverse_append, List.append_assoc]
        · intro c hc
          show c.stop ≤ s.prevStop + Text.size x
          rcases List.mem_append.mp hc with hc | hc
          · exact hcs₁ c (List.mem_reverse.mp hc)
          · have := hold c hc
            omega }
  exact ⟨hsound, Nat.le_refl _, Nat.le_add_right _ _, ⟨[], rfl, by simp⟩, Laid.nil⟩

theorem Reads.semicolon (b : Border) : Reads t (semicolon b) := by
  intro s ns s' hs h
  unfold Parser.semicolon at h
  split at h
  · cases h
    exact step_advance hs _
  · split at h
    · next heq =>
        cases h
        exact step_lineEnd hs heq _
    · cases h

/-! ## Continued nodes -/

/-- Where `p` succeeds after the node `n` it makes a step whose nodes take the place of `n`. -/
def Goes (t : Text) (n : Node) (p : Parser) (s : State) : Prop :=
  ∀ lo ns s', s.Sound t → Laid t s.comments lo [n] s.prevStop → p s = .ok ns s' →
    Step t lo s.place ns s'

variable {n : Node}

theorem Goes.pass : Goes t n (pass [n]) s := by
  intro lo ns s' hs hn h
  cases h
  exact (Step.refl hs lo).withNodes hn

theorem Goes.look {f : State → Parser} (h : Goes t n (f s) s) : Goes t n (look f) s := h

theorem Goes.fail : Goes t n fail s := by
  intro lo ns s' hs hn h
  cases h

theorem Goes.orElse (hp : Goes t n p s) (hq : ∀ far, Goes t n q { s with far := far }) :
    Goes t n (orElse p q) s := by
  intro lo ns s' hs hn h
  rcases orElse_eq_ok h with h₁ | ⟨far, h₂⟩
  · exact hp lo ns s' hs hn h₁
  · exact hq far lo ns s' (hs.withFar far) hn h₂

theorem extend_eq_ok {k : Kind} {left : Node} {ns : List Node} {s' : State}
    (h : extend k left p s = .ok ns s') :
    ∃ ms, p s = .ok ms s' ∧ ns = [.mk k none left.start s'.prevStop (left :: ms)] := by
  unfold extend at h
  split at h
  · next ms s₁ hp =>
      cases h
      exact ⟨ms, hp, rfl⟩
  · cases h

/-- A node around another one and what follows it. -/
theorem Goes.headed {k : Kind} (hp : Reads t p)
    (hk : ∀ ms s', p s = .ok ms s' → (Node.mk k none n.start s'.prevStop (n :: ms)).Headed t) :
    Goes t n (Parser.extend k n p) s := by
  intro lo ns s' hs hn h
  obtain ⟨ms, hp', rfl⟩ := extend_eq_ok h
  have hstep := hp s ms s' hs hp'
  have hsound := hn.sound n (by simp)
  have hin := hn.inside n (by simp)
  have hne := hsound.nonempty
  have hprev := hs.prevStop_le
  have hprev' : s.prevStop ≤ s'.prevStop := hstep.prev_le
  -- the comments met since lie behind the node that is continued
  have hcs : ∀ c ∈ s'.comments, c ∈ s.comments ∨ s.prevStop ≤ c.start := fun c hc =>
    (hstep.mem_comments c hc).imp id (Nat.le_trans hprev)
  have hleft : Laid t s.comments n.start [n] s.prevStop :=
    Laid.singleton hsound (Nat.le_refl _) hin.2
  have hall : Laid t s'.comments n.start (n :: ms) s'.prevStop :=
    (hleft.mono hcs (Nat.le_refl _) (Nat.le_refl _)).append hstep.laid hprev (by omega) hprev'
  have hfree : t.Free s'.comments n.start := by
    refine (hsound.placed n n.mem_preorder_self).start.mono ?_
    intro c hc
    exact (hcs c hc).imp id fun hle => by omega
  refine hstep.withNodes (Laid.singleton ?_ hin.1 (Nat.le_refl _))
  exact hall.node (by omega) hfree hstep.sound.free_prevStop (hk ms s' hp')

/-- **A node that continues another.** -/
theorem Goes.extend {k : Kind} (hk : k.Continues n) (hp : Reads t p) :
    Goes t n (extend k n p) s :=
  .headed hp fun _ _ _ => Node.headed_of_continues hk _ _

/-- The role of the node that is continued does not matter. -/
theorem Goes.withField {f : Option Field} (h : Goes t (n.withField f) p s) : Goes t n p s := by
  intro lo ns s' hs hn hp
  exact h lo ns s' hs (hn.withField f) hp

theorem withNode_eq_ok {f : Node → Parser} {ns : List Node} {s' : State}
    (h : withNode p f s = .ok ns s') : ∃ n s₁, p s = .ok [n] s₁ ∧ f n s₁ = .ok ns s' := by
  unfold withNode at h
  split at h
  · next n s₁ hp => exact ⟨n, s₁, hp, h⟩
  · cases h
  · cases h

theorem TakesAt.withNode {f : Node → Parser} (hp : TakesAt t p s)
    (hf : ∀ n s₁, p s = .ok [n] s₁ → Goes t n (f n) s₁) : TakesAt t (withNode p f) s := by
  intro ns s' hs h
  obtain ⟨n, s₁, h₁, h₂⟩ := withNode_eq_ok h
  obtain ⟨hstep, hlt⟩ := hp [n] s₁ hs h₁
  have hstep' := hf n s₁ h₁ s.start ns s' hstep.sound hstep.laid h₂
  exact ⟨hstep.continued hstep', Nat.lt_of_lt_of_le hlt hstep'.prev_le⟩

theorem Takes.withNode {f : Node → Parser} (hp : Takes t p) (hf : ∀ n s, Goes t n (f n) s) :
    Takes t (withNode p f) :=
  fun s => (hp s).withNode fun n s₁ _ => hf n s₁

theorem Goes.withNode {f : Node → Parser} (hp : Goes t n p s)
    (hf : ∀ m s₁, p s = .ok [m] s₁ → Goes t m (f m) s₁) : Goes t n (withNode p f) s := by
  intro lo ns s' hs hn h
  obtain ⟨m, s₁, h₁, h₂⟩ := withNode_eq_ok h
  have hstep := hp lo [m] s₁ hs hn h₁
  exact hstep.continued (hf m s₁ h₁ lo ns s' hstep.sound hstep.laid h₂)

/-! ## Calls -/

/-- Where `p` succeeds, the arguments it contributes end with the last token it reads. -/
def Closes (p : Parser) : Prop :=
  ∀ s ns s', p s = .ok ns s' →
    (ns.find? fun n => n.field == some .arguments).map Node.stop = some s'.prevStop

/-- `p` contributes no arguments. -/
def Lacks (p : Parser) : Prop :=
  ∀ s ns s', p s = .ok ns s' → ∀ n ∈ ns, (n.field == some .arguments) = false

theorem Closes.role {k : Kind} : Closes (role .arguments (node k p)) := by
  intro s ns s' h
  obtain ⟨ms, h', rfl⟩ := role_eq_ok h
  obtain ⟨ms', -, rfl⟩ := node_eq_ok h'
  rfl

theorem Closes.andThen (hp : Lacks p) (hq : Closes q) : Closes (andThen p q) := by
  intro s ns s' h
  obtain ⟨ns₁, s₁, ns₂, h₁, h₂, rfl⟩ := andThen_eq_ok h
  have hnone : ns₁.find? (fun n => n.field == some .arguments) = none := by
    rw [List.find?_eq_none]
    intro n hn
    rw [hp s ns₁ s₁ h₁ n hn]
    exact Bool.false_ne_true
  rw [List.find?_append, hnone, Option.none_or]
  exact hq s₁ ns₂ s' h₂

theorem Lacks.role {f : Field} (hf : f ≠ .arguments) : Lacks (role f p) := by
  intro s ns s' h n hn
  obtain ⟨ms, -, rfl⟩ := role_eq_ok h
  obtain ⟨m, -, rfl⟩ := List.mem_map.mp hn
  simpa [Node.field_withField] using hf

theorem Lacks.opt (hp : Lacks p) : Lacks (opt p) := by
  intro s ns s' h
  rcases orElse_eq_ok h with h | ⟨far, h⟩
  · exact hp s ns s' h
  · cases h
    simp

theorem Lacks.tokenAs {k : Kind} {tok : Token} : Lacks (tokenAs k tok) := by
  intro s ns s' h n hn
  rw [tokenAs_eq_ok h, List.mem_singleton] at hn
  rw [hn]
  rfl

/-- **A call of the node before it.** -/
theorem Goes.call (hn : n.field = some .function) (hp : Reads t p) (hc : Closes p) :
    Goes t n (Parser.extend .callExpression n p) s :=
  .headed hp fun ms s' h => Node.headed_call hn (hc s ms s' h)

/-! ## Parsers of one node -/

/-- Where `p` succeeds at `s` it contributes one node, which is code, starts at `k` and stops with the last
token read. -/
def SingleAt (p : Parser) (k : Nat) (s : State) : Prop :=
  ∀ ns s', p s = .ok ns s' → ∃ n, ns = [n] ∧ n.isCode = true ∧ n.start = k ∧ n.stop = s'.prevStop

/-- Where `p` succeeds it contributes one node, which is code and reaches from the next token to the last
one read. -/
def Single (p : Parser) : Prop := ∀ s, SingleAt p s.start s

theorem SingleAt.of_ok {k : Nat} {m : Node} {s' : State} (h : SingleAt p k s)
    (hp : p s = .ok [m] s') : m.isCode = true ∧ m.start = k ∧ m.stop = s'.prevStop := by
  obtain ⟨n, hn, hcode⟩ := h [m] s' hp
  rw [List.singleton_inj.mp hn]
  exact hcode

/-- Where `p` succeeds at `s` it takes something, and that is one node of code. -/
structure YieldsAt (t : Text) (p : Parser) (s : State) : Prop where
  takes : TakesAt t p s
  single : SingleAt p s.start s

theorem YieldsAt.fail : YieldsAt t fail s := ⟨Takes.fail s, fun ns s' h => by cases h⟩

theorem YieldsAt.look {f : State → Parser} (h : YieldsAt t (f s) s) : YieldsAt t (look f) s :=
  ⟨h.takes, h.single⟩

theorem YieldsAt.leaf {k : Kind} (hk : k.isPlain = true) (htok : s.tok ≠ .eof) :
    YieldsAt t (leaf k) s := by
  refine ⟨.leaf hk htok, ?_⟩
  intro ns s' h
  cases h
  exact ⟨_, rfl, Node.isCode_of_isPlain hk _ _ _ _, rfl, rfl⟩

theorem YieldsAt.node {k : Kind} (hk : k.isPlain = true) (hp : TakesAt t (node k p) s) :
    YieldsAt t (node k p) s := by
  refine ⟨hp, ?_⟩
  intro ns s' h
  obtain ⟨ms, -, rfl⟩ := node_eq_ok h
  exact ⟨_, rfl, Node.isCode_of_isPlain hk _ _ _ _, rfl, rfl⟩

theorem YieldsAt.around {k : Kind} (hk : k.isPlain = true) (hp : Takes t p) :
    YieldsAt t (Parser.node k p) s := .node hk (hp.node hk s)

/-- After a node of code that stops with the last token, `p` makes a step whose one node takes its place and
starts with it. -/
def Grows (t : Text) (n : Node) (p : Parser) (s : State) : Prop :=
  n.isCode = true → n.stop = s.prevStop → Goes t n p s ∧ SingleAt p n.start s

theorem Grows.pass : Grows t n (pass [n]) s := by
  intro hn hstop
  refine ⟨.pass, ?_⟩
  intro ns s' h
  cases h
  exact ⟨n, rfl, hn, rfl, hstop⟩

theorem Grows.fail : Grows t n fail s := fun _ _ => ⟨.fail, fun ns s' h => by cases h⟩

theorem Grows.look {f : State → Parser} (h : Grows t n (f s) s) : Grows t n (look f) s := h

theorem Grows.extend {k : Kind} (hk : n.isCode = true → k.Continues n) (hp : Reads t p) :
    Grows t n (extend k n p) s := by
  intro hn _
  refine ⟨.extend (hk hn) hp, ?_⟩
  intro ns s' h
  obtain ⟨ms, -, rfl⟩ := extend_eq_ok h
  exact ⟨_, rfl, Node.isCode_of_continues (hk hn) _ _ _ _, rfl, rfl⟩

theorem Grows.call (hn : n.field = some .function) (hp : Reads t p) (hc : Closes p) :
    Grows t n (Parser.extend .callExpression n p) s := by
  intro _ _
  refine ⟨.call hn hp hc, ?_⟩
  intro ns s' h
  obtain ⟨ms, -, rfl⟩ := extend_eq_ok h
  exact ⟨_, rfl, rfl, rfl, rfl⟩

theorem Grows.withField {f : Option Field} (h : Grows t (n.withField f) p s) : Grows t n p s := by
  intro hn hstop
  obtain ⟨hgoes, hsingle⟩ := h (by rw [Node.isCode_withField, hn]) (by rw [Node.stop_withField, hstop])
  rw [Node.start_withField] at hsingle
  exact ⟨hgoes.withField, hsingle⟩

theorem Grows.withNode {f : Node → Parser} (hp : Grows t n p s)
    (hf : ∀ m s₁, Grows t m (f m) s₁) : Grows t n (withNode p f) s := by
  intro hn hstop
  obtain ⟨hgoes, hsingle⟩ := hp hn hstop
  refine ⟨hgoes.withNode fun m s₁ h => ?_, ?_⟩
  · obtain ⟨hm, -, hend⟩ := hsingle.of_ok h
    exact (hf m s₁ hm hend).1
  intro ns s' h
  obtain ⟨m, s₁, h₁, h₂⟩ := withNode_eq_ok h
  obtain ⟨hm, hstart, hend⟩ := hsingle.of_ok h₁
  rw [← hstart]
  exact (hf m s₁ hm hend).2 ns s' h₂

theorem YieldsAt.withNode {f : Node → Parser} (hp : YieldsAt t p s)
    (hf : ∀ m s₁, Grows t m (f m) s₁) : YieldsAt t (withNode p f) s := by
  refine ⟨hp.takes.withNode fun m s₁ h => ?_, ?_⟩
  · obtain ⟨hm, -, hend⟩ := hp.single.of_ok h
    exact (hf m s₁ hm hend).1
  intro ns s' h
  obtain ⟨m, s₁, h₁, h₂⟩ := withNode_eq_ok h
  obtain ⟨hm, hstart, hend⟩ := hp.single.of_ok h₁
  rw [← hstart]
  exact (hf m s₁ hm hend).2 ns s' h₂

/-! ## Nodes between commas -/

/-- Nodes of code with something between them, and in front of each of them something that is no
name. Behind each of them, too, but for one that stops at `hi`. -/
structure SetApart (t : Text) (hi : Nat) (ns : List Node) : Prop where
  code : ∀ n ∈ ns, n.isCode = true
  before : ∀ n ∈ ns, t.nameBefore n.start = false
  behind : ∀ n ∈ ns, n.stop = hi ∨ t.nameBehind n.stop = false
  apart : ns.Pairwise fun a b => a.stop < b.start

theorem punct_eq_ok {x : Punct} {ns : List Node} {s' : State} (h : punct x s = .ok ns s') :
    ns = [] ∧ s.tok = .punct x ∧ s' = s.advance := by
  unfold Parser.punct Parser.token at h
  split at h
  · next heq =>
      cases h
      exact ⟨rfl, beq_iff_eq.mp heq, rfl⟩
  · cases h

/-- After punctuation no name reaches up to the next place. -/
theorem nameBefore_punct {x : Punct} {ns : List Node} {s' : State} (hs : s.Sound t)
    (h : punct x s = .ok ns s') : t.nameBefore s'.prevStop = false := by
  obtain ⟨-, htok, rfl⟩ := punct_eq_ok h
  exact hs.nameBefore_stop htok

/-- What is taken from a place starts with a token. -/
theorem here_ne_nil {ns : List Node} {s' : State} (hs : s.Sound t)
    (hstep : Step t s.start s.place ns s') (hlt : s.start < s'.prevStop) : s.here ≠ [] := by
  intro hnil
  obtain ⟨u, hu, hsize⟩ := hs.here
  rw [hnil, List.append_nil] at hu
  have hle := hstep.sound.gap.isBorder.le_size
  rw [hu] at hle
  omega

theorem SetApart.nil (hi : Nat) : SetApart t hi [] := ⟨by simp, by simp, by simp, List.Pairwise.nil⟩

/-- Where no name follows, nodes are set apart from all that is read later. -/
theorem SetApart.later {hi hi' : Nat} {ns : List Node} (h : SetApart t hi ns)
    (hnext : t.nameBehind hi = false ∨ hi' = hi) : SetApart t hi' ns := by
  refine ⟨h.code, h.before, ?_, h.apart⟩
  intro n hn
  rcases h.behind n hn with hstop | hbehind
  · rcases hnext with hnext | rfl
    · exact Or.inr (by rw [hstop, hnext])
    · exact Or.inl hstop
  · exact Or.inr hbehind

theorem setApart_opt {item : Parser} {ns : List Node} {s' : State} (ht : Takes t item)
    (hi : Single item) (hs : s.Sound t) (hprev : t.nameBefore s.prevStop = false)
    (h : opt item s = .ok ns s') : SetApart t s'.prevStop ns := by
  rcases orElse_eq_ok h with h | ⟨far, h⟩
  · obtain ⟨hstep, hlt⟩ := ht s ns s' hs h
    obtain ⟨n, rfl, hcode, hstart, hstop⟩ := hi s ns s' h
    refine ⟨by simpa using hcode, ?_, by simp [hstop], List.pairwise_singleton _ _⟩
    intro m hm
    rw [List.mem_singleton.mp hm, hstart]
    exact hs.nameBefore_start hprev (here_ne_nil hs hstep hlt)
  · cases h
    exact .nil _

/-- Nodes set apart, and behind them others. -/
theorem SetApart.append {hi : Nat} {ns ms : List Node} (h₁ : SetApart t hi ns) (h₂ : SetApart t hi ms)
    (h : ∀ a ∈ ns, ∀ b ∈ ms, a.stop < b.start) : SetApart t hi (ns ++ ms) where
  code := by
    intro n hn
    rcases List.mem_append.mp hn with hn | hn
    · exact h₁.code n hn
    · exact h₂.code n hn
  before := by
    intro n hn
    rcases List.mem_append.mp hn with hn | hn
    · exact h₁.before n hn
    · exact h₂.before n hn
  behind := by
    intro n hn
    rcases List.mem_append.mp hn with hn | hn
    · exact h₁.behind n hn
    · exact h₂.behind n hn
  apart := List.pairwise_append.mpr ⟨h₁.apart, h₂.apart, h⟩

/-- An item behind a comma. -/
theorem setApart_comma {item : Parser} {ns : List Node} {s' : State} (ht : Takes t item)
    (hi : Single item) (hs : s.Sound t)
    (h : andThen (punct .comma) (opt item) s = .ok ns s') :
    SetApart t s'.prevStop ns ∧ ∀ n ∈ ns, s.start < n.start := by
  obtain ⟨ns₁, s₁, ns₂, h₁, h₂, rfl⟩ := andThen_eq_ok h
  obtain ⟨hstep₁, hlt⟩ := Takes.punct (t := t) _ s ns₁ s₁ hs h₁
  have hprev := hstep₁.sound.prevStop_le
  have hstep₂ := ht.reads.opt s₁ ns₂ s' hstep₁.sound h₂
  rw [(punct_eq_ok h₁).1, List.nil_append]
  refine ⟨setApart_opt ht hi hstep₁.sound (nameBefore_punct hs h₁) h₂, ?_⟩
  intro n hn
  have := (hstep₂.laid.inside n hn).1
  omega

/-- Where items behind commas are read there is a comma, or nothing is read. -/
theorem many_comma_cases {q : Parser} {fuel : Nat} {ns : List Node} {s' : State}
    (h : many (andThen (punct .comma) q) fuel s = .ok ns s') :
    s.tok = .punct .comma ∨ s'.prevStop = s.prevStop := by
  cases fuel with
  | zero =>
      cases h
      exact Or.inr rfl
  | succ fuel =>
      simp only [Parser.many] at h
      split at h
      · next h₁ =>
          obtain ⟨ns₁, s₁, ns₂, hcomma, -⟩ := andThen_eq_ok h₁
          exact Or.inl (punct_eq_ok hcomma).2.1
      · cases h
        exact Or.inr rfl

theorem setApart_commas {item : Parser} (ht : Takes t item) (hi : Single item) (fuel : Nat)
    {s : State} {ns : List Node} {s' : State} (hs : s.Sound t)
    (h : many (andThen (punct .comma) (opt item)) fuel s = .ok ns s') :
    SetApart t s'.prevStop ns ∧ ∀ n ∈ ns, s.start < n.start := by
  induction fuel generalizing s ns with
  | zero =>
      cases h
      exact ⟨.nil _, by simp⟩
  | succ fuel ih =>
      have hreads : Reads t (andThen (punct .comma) (opt item)) := .andThen (.punct _) ht.reads.opt
      simp only [Parser.many] at h
      split at h
      · next ns₁ s₁ h₁ =>
          have hfirst := setApart_comma ht hi hs h₁
          have hstep := hreads s ns₁ s₁ hs h₁
          split at h
          · cases h
            exact hfirst
          · split at h
            · next ns₂ s₂ h₂ =>
                cases h
                obtain ⟨hrest, hbehind⟩ := ih hstep.sound h₂
                have hprev := hstep.sound.prevStop_le
                have hpos : s.start ≤ s₁.start := hstep.pos_le
                have hnext := (many_comma_cases h₂).imp hstep.sound.nameBehind_prevStop id
                refine ⟨(hfirst.1.later hnext).append hrest ?_, ?_⟩
                · intro a ha b hb
                  have h₃ := (hstep.laid.inside a ha).2
                  have h₄ := hbehind b hb
                  omega
                · intro n hn
                  rcases List.mem_append.mp hn with hn | hn
                  · exact hfirst.2 n hn
                  · have := hbehind n hn
                    omega
            · cases h
      · cases h
        exact ⟨.nil _, by simp⟩

/-- **Items between commas are set apart.** -/
theorem setApart_commaHoles {item : Parser} {fuel : Nat} {ns : List Node} {s' : State}
    (ht : Takes t item) (hi : Single item) (hs : s.Sound t)
    (hprev : t.nameBefore s.prevStop = false) (h : commaHoles item fuel s = .ok ns s') :
    SetApart t s'.prevStop ns := by
  obtain ⟨ns₁, s₁, ns₂, h₁, h₂, rfl⟩ := andThen_eq_ok h
  have hstep := ht.reads.opt s ns₁ s₁ hs h₁
  obtain ⟨hrest, hbehind⟩ := setApart_commas ht hi fuel hstep.sound h₂
  have hle := hstep.sound.prevStop_le
  have hnext := (many_comma_cases h₂).imp hstep.sound.nameBehind_prevStop id
  refine ((setApart_opt ht hi hs hprev h₁).later hnext).append hrest ?_
  intro a ha b hb
  have h₃ := (hstep.laid.inside a ha).2
  have h₄ := hbehind b hb
  omega

/-! ## Text that is not made of tokens -/

/-- Where `p` succeeds on the text from an offset on it makes a step from there. -/
def Raw (t : Text) (p : Nat → Text → Parser) : Prop :=
  ∀ pos raw s ns s', t.From pos raw → Tidy t s.comments → (∀ c ∈ s.comments, c.stop ≤ pos) →
    p pos raw s = .ok ns s' → Step t pos (.raw pos s.comments) ns s'

/-- Such text after the next token. -/
theorem Raw.afterToken {p : Nat → Text → Parser} (h : Raw t p) (hs : s.Sound t) {ns : List Node}
    {s' : State} (hp : p s.stop s.rest s = .ok ns s') :
    Step t s.stop (.raw s.stop s.comments) ns s' :=
  h s.stop s.rest s ns s' hs.rest hs.tidy
    (fun c hc => Nat.le_trans (hs.comments_le c hc) hs.start_le) hp

theorem Raw.takesAt {p : Nat → Text → Parser} (h : Raw t p) (htok : s.tok ≠ .eof) :
    TakesAt t (p s.stop s.rest) s := by
  intro ns s' hs hp
  have hstep := h.afterToken hs hp
  have hlt := hs.token htok
  have hprev := hs.prevStop_le
  refine ⟨hstep.earlier rfl hs.start_le ?_ hs.start_le, Nat.lt_of_lt_of_le hlt hstep.prev_le⟩
  exact Nat.le_trans hprev hs.start_le

end Parser

end Promisify
