import Promisify.Proofs.Parsers

set_option autoImplicit false

/-! # Reading from a later start

A statement of a program is read as a text of its own, and its nodes and comments are then counted
from the start of the whole text (`Parser.afresh`). Counting from further back changes nothing about
the layout of a tree, so a parser that is sound for the text from a place on makes a step of the whole
text there.
-/

namespace Promisify

open Lexer

namespace Text

variable {t v w : Text} {k j : Nat}

theorem From.trans (h : t.From k v) (h' : v.From j w) : t.From (k + j) w := by
  obtain ⟨u, rfl, rfl⟩ := h'
  exact h.append

/-- What follows an offset is determined. -/
theorem From.unique (h : t.From k v) (h' : t.From k w) : v = w := by
  obtain ⟨u, rfl, rfl⟩ := h
  obtain ⟨u', hu', hsize⟩ := h'
  obtain ⟨m, rfl, rfl⟩ := exists_append_of_size_le hu' (Nat.le_of_eq hsize.symm)
  rw [size_append] at hsize
  have hm : m = [] := eq_nil_of_size_eq_zero (by omega)
  rw [hm, List.nil_append]

/-- A span of what follows an offset, as a span of the whole text. -/
theorem From.span?_shift (h : t.From k v) (s : Span) : t.span? (s.shift k) = v.span? s := by
  obtain ⟨u, rfl, rfl⟩ := h
  apply Option.ext
  intro m
  rw [span?, span?, slice?_eq_some_iff, slice?_eq_some_iff]
  simp only [Span.shift]
  constructor
  · rintro ⟨x, y, heq, hstart, hstop⟩
    rw [List.append_assoc] at heq
    obtain ⟨z, rfl, rfl⟩ := exists_append_of_size_le heq (by omega)
    rw [size_append] at hstart
    exact ⟨z, y, (List.append_assoc z m y).symm, by omega, by omega⟩
  · rintro ⟨x, y, rfl, hstart, hstop⟩
    refine ⟨u ++ x, y, by simp, ?_, by omega⟩
    rw [size_append]
    omega

theorem From.isBorder_add (h : t.From k v) (hj : v.IsBorder j) : t.IsBorder (k + j) := by
  obtain ⟨u, w, rfl, rfl⟩ := isBorder_iff.mp hj
  exact h.append.isBorder

theorem From.nameBefore_add (h : t.From k v) (hj : v.IsBorder j) (hpos : 0 < j) :
    t.nameBefore (k + j) = v.nameBefore j := by
  obtain ⟨u, w, rfl, rfl⟩ := isBorder_iff.mp hj
  have hu : u ≠ [] := by
    rintro rfl
    exact absurd hpos (by simp)
  rw [h.nameBefore hu, nameBefore_append]

theorem From.nameBehind_add (h : t.From k v) (hj : v.IsBorder j) :
    t.nameBehind (k + j) = v.nameBehind j := by
  obtain ⟨u, w, rfl, rfl⟩ := isBorder_iff.mp hj
  have hw : (u ++ w).From (size u) w := ⟨u, rfl, rfl⟩
  rw [h.append.nameBehind_eq, hw.nameBehind_eq]

end Text

/-! ## Nodes -/

namespace Node

@[simp] theorem kind_shift (k : Nat) (n : Node) : (n.shift k).kind = n.kind := by
  cases n
  rfl

@[simp] theorem field_shift (k : Nat) (n : Node) : (n.shift k).field = n.field := by
  cases n
  rfl

@[simp] theorem start_shift (k : Nat) (n : Node) : (n.shift k).start = k + n.start := by
  cases n
  rfl

@[simp] theorem stop_shift (k : Nat) (n : Node) : (n.shift k).stop = k + n.stop := by
  cases n
  rfl

theorem shiftAll_eq_map (k : Nat) (ns : List Node) : shiftAll k ns = ns.map (shift k) := by
  induction ns with
  | nil => rfl
  | cons n ns ih => rw [shiftAll, ih, List.map_cons]

@[simp] theorem children_shift (k : Nat) (n : Node) :
    (n.shift k).children = n.children.map (shift k) := by
  cases n
  exact shiftAll_eq_map k _

@[simp] theorem isCode_shift (k : Nat) (n : Node) : (n.shift k).isCode = n.isCode := by
  simp only [isCode, isMark, kind_shift]

@[simp] theorem isToken_shift (k : Nat) (n : Node) : (n.shift k).isToken = n.isToken := by
  simp [isToken, isMark]

theorem child?_shift (k : Nat) (n : Node) (f : Field) :
    (n.shift k).child? f = (n.child? f).map (shift k) := by
  simp only [child?, children_shift, List.find?_map]
  congr 2
  funext c
  simp

theorem codeParts_shift (k : Nat) (n : Node) :
    (n.shift k).codeParts = n.codeParts.map (shift k) := by
  simp only [codeParts_eq, children_shift, List.filter_map]
  congr 2
  funext c
  simp

theorem operand?_shift (k : Nat) (n : Node) :
    (n.shift k).operand? = n.operand?.map (shift k) := by
  unfold operand?
  rw [kind_shift]
  split
  · rw [codeParts_shift, List.head?_map]
  · rw [child?_shift]
  · rfl

theorem mem_preorder_shift {k : Nat} {n m : Node} (hm : m ∈ (n.shift k).preorder) :
    ∃ m' ∈ n.preorder, m = m'.shift k := by
  induction n using inductionOn with
  | node n ih =>
      rcases mem_preorder.mp hm with rfl | hm'
      · exact ⟨n, n.mem_preorder_self, rfl⟩
      · obtain ⟨c, hc, hmc⟩ := mem_descendants.mp hm'
        rw [children_shift] at hc
        obtain ⟨d, hd, rfl⟩ := List.mem_map.mp hc
        obtain ⟨m', hm'', rfl⟩ := ih d hd hmc
        exact ⟨m', mem_preorder.mpr (Or.inr (mem_descendants_of_mem hd hm'')), rfl⟩

theorem shift_mem_preorder {k : Nat} {n m : Node} (hm : m ∈ n.preorder) :
    m.shift k ∈ (n.shift k).preorder := by
  induction n using inductionOn with
  | node n ih =>
      rcases mem_preorder.mp hm with rfl | hm'
      · exact mem_preorder_self _
      · obtain ⟨c, hc, hmc⟩ := mem_descendants.mp hm'
        have hchild : c.shift k ∈ (n.shift k).children := by
          rw [children_shift]
          exact List.mem_map.mpr ⟨c, hc, rfl⟩
        exact mem_preorder.mpr (Or.inr (mem_descendants_of_mem hchild (ih c hc hmc)))

theorem map_start_shift {k a : Nat} {x : Option Node} (h : x.map start = some a) :
    (x.map (shift k)).map start = some (k + a) := by
  cases x with
  | none => simp at h
  | some n =>
      simp only [Option.map_some, Option.some.injEq] at h
      simp [h]

theorem map_stop_shift {k a : Nat} {x : Option Node} (h : x.map stop = some a) :
    (x.map (shift k)).map stop = some (k + a) := by
  cases x with
  | none => simp at h
  | some n =>
      simp only [Option.map_some, Option.some.injEq] at h
      simp [h]

theorem Fits.shift {n : Node} (h : n.Fits) (k : Nat) : (n.shift k).Fits where
  nonempty := by
    intro c hc
    rw [children_shift] at hc
    obtain ⟨d, hd, rfl⟩ := List.mem_map.mp hc
    have := h.nonempty d hd
    rw [start_shift, stop_shift]
    omega
  inside := by
    intro c hc
    rw [children_shift] at hc
    obtain ⟨d, hd, rfl⟩ := List.mem_map.mp hc
    have := h.inside d hd
    simp only [start_shift, stop_shift]
    omega
  ordered := by
    rw [children_shift, List.pairwise_map]
    refine h.ordered.imp ?_
    intro a b hab
    rw [start_shift, stop_shift]
    omega
  function := by
    intro hk
    rw [kind_shift] at hk
    rw [child?_shift, start_shift]
    exact map_start_shift (h.function hk)
  object := by
    intro hk
    rw [kind_shift] at hk
    rw [child?_shift, start_shift]
    exact map_start_shift (h.object hk)
  operand := by
    intro o ho c hc hle
    rw [operand?_shift] at ho
    rw [children_shift] at hc
    obtain ⟨o', ho', rfl⟩ := Option.map_eq_some_iff.mp ho
    obtain ⟨d, hd, rfl⟩ := List.mem_map.mp hc
    rw [start_shift, stop_shift] at hle
    rw [isToken_shift]
    exact h.operand o' ho' d hd (by omega)

theorem Edged.shift {n : Node} (h : n.Edged) (k : Nat) : (n.shift k).Edged where
  leading := by
    intro hk
    rw [kind_shift] at hk
    rw [codeParts_shift, List.head?_map, start_shift]
    exact map_start_shift (h.leading hk)
  prefixed := by
    intro hk
    rw [kind_shift] at hk
    obtain ⟨o, ho, hlt⟩ := h.prefixed hk
    refine ⟨o.shift k, by rw [operand?_shift, ho, Option.map_some], ?_⟩
    rw [start_shift, start_shift]
    omega
  closing := by
    intro hk
    rw [kind_shift] at hk
    rw [child?_shift, stop_shift]
    exact map_stop_shift (h.closing hk)
  trailing := by
    intro hk
    rw [kind_shift] at hk
    rw [codeParts_shift, List.pairwise_map]
    simp only [kind_shift]
    exact h.trailing hk

variable {t v : Text} {k : Nat} {cs old : List Span}

/-- Parts that are enclosed in the text from a place on are enclosed in the whole text. -/
theorem Enclosed.shift {n : Node} (ht : t.From k v) (h : n.Enclosed v)
    (hparts : ∀ c ∈ n.codeParts, v.IsBorder c.start ∧ v.IsBorder c.stop)
    (hstop : v.IsBorder n.stop) (hpos : 0 < n.stop) : (n.shift k).Enclosed t where
  parens := by
    have hspan : (n.shift k).span = n.span.shift k := by simp [span, Span.shift]
    rw [hspan, ht.span?_shift]
    exact h.parens
  code := by
    intro c hc
    rw [children_shift] at hc
    obtain ⟨d, hd, rfl⟩ := List.mem_map.mp hc
    rw [isCode_shift, kind_shift]
    exact h.code d hd
  inside := by
    intro c hc
    rw [codeParts_shift] at hc
    obtain ⟨d, hd, rfl⟩ := List.mem_map.mp hc
    obtain ⟨h₁, h₂, h₃⟩ := h.inside d hd
    simp only [start_shift, stop_shift]
    refine ⟨by omega, by omega, ?_⟩
    rw [ht.nameBefore_add (hparts d hd).1 (by omega)]
    exact h₃
  behind := by
    intro c hc
    rw [codeParts_shift] at hc
    obtain ⟨d, hd, rfl⟩ := List.mem_map.mp hc
    rw [stop_shift, ht.nameBehind_add (hparts d hd).2]
    exact h.behind d hd
  apart := by
    rw [codeParts_shift, List.pairwise_map]
    refine h.apart.imp ?_
    intro a b hab
    rw [start_shift, stop_shift]
    omega
  closed := by
    rw [stop_shift, ht.nameBefore_add hstop hpos]
    exact h.closed

end Node

/-! ## Layout -/

variable {t v : Text} {k : Nat} {cs old : List Span}

/-- An offset that is free in the text from a place on, in the whole text with the comments before
that place. -/
theorem Text.Free.shift {j : Nat} (ht : t.From k v) (hold : ∀ c ∈ old, c.stop ≤ k)
    (h : v.Free cs j) : t.Free (cs.map (Span.shift k) ++ old) (k + j) := by
  refine ⟨ht.isBorder_add h.1, ?_⟩
  intro c hc
  rcases List.mem_append.mp hc with hc | hc
  · obtain ⟨d, hd, rfl⟩ := List.mem_map.mp hc
    have := h.2 d hd
    simp only [Span.spares, Span.shift] at this ⊢
    omega
  · exact Or.inl (Nat.le_trans (hold c hc) (Nat.le_add_right k j))

theorem Node.Sound.shift {n : Node} (ht : t.From k v) (hold : ∀ c ∈ old, c.stop ≤ k)
    (h : n.Sound v cs) : (n.shift k).Sound t (cs.map (Span.shift k) ++ old) where
  nonempty := by
    have := h.nonempty
    rw [start_shift, stop_shift]
    omega
  placed := by
    intro m' hm'
    obtain ⟨m, hm, rfl⟩ := mem_preorder_shift hm'
    have hp := h.placed m hm
    refine ⟨hp.fits.shift k, hp.edged.shift k, ?_, ?_, ?_, ?_, ?_⟩
    · intro hk
      rw [kind_shift] at hk
      have hne := (h.of_mem_preorder hm).nonempty
      refine (hp.enclosed hk).shift ht ?_ hp.stop.1 (by omega)
      intro c hc
      have hmem := mem_descendants_of_child (mem_children_of_codeParts hc)
      have hc := h.placed c (preorder_trans hm (mem_preorder.mpr (Or.inr hmem)))
      exact ⟨hc.start.1, hc.stop.1⟩
    · rw [kind_shift]
      exact hp.code
    · intro o' ho' c hc
      rw [operand?_shift] at ho'
      rw [children_shift] at hc
      obtain ⟨o, ho, rfl⟩ := Option.map_eq_some_iff.mp ho'
      obtain ⟨d, hd, rfl⟩ := List.mem_map.mp hc
      have := hp.front o ho d hd
      rw [start_shift, stop_shift]
      omega
    · rw [start_shift]
      exact hp.start.shift ht hold
    · rw [stop_shift]
      exact hp.stop.shift ht hold

theorem Laid.shift {lo hi : Nat} {ns : List Node} (ht : t.From k v) (hold : ∀ c ∈ old, c.stop ≤ k)
    (h : Laid v cs lo ns hi) :
    Laid t (cs.map (Span.shift k) ++ old) k (Node.shiftAll k ns) (k + hi) where
  sound := by
    intro n hn
    rw [Node.shiftAll_eq_map] at hn
    obtain ⟨m, hm, rfl⟩ := List.mem_map.mp hn
    exact (h.sound m hm).shift ht hold
  inside := by
    intro n hn
    rw [Node.shiftAll_eq_map] at hn
    obtain ⟨m, hm, rfl⟩ := List.mem_map.mp hn
    have := h.inside m hm
    rw [Node.start_shift, Node.stop_shift]
    omega
  ordered := by
    rw [Node.shiftAll_eq_map, List.pairwise_map]
    refine h.ordered.imp ?_
    intro a b hab
    rw [Node.start_shift, Node.stop_shift]
    omega

theorem Lexer.Skips.shift {u w : Text} {pos : Nat} (h : Skips w pos u cs) (k : Nat) :
    Skips w (k + pos) u (cs.map (Span.shift k)) := by
  induction h with
  | done pos => exact .done _
  | space hc h ih =>
      rw [← Nat.add_assoc] at ih
      exact .space hc ih
  | @comment pos w u cs hw hc h ih =>
      rw [← Nat.add_assoc] at ih
      have hspan : Span.shift k ⟨pos, pos + Text.size w⟩ = ⟨k + pos, k + pos + Text.size w⟩ := by
        simp [Span.shift, Nat.add_assoc]
      rw [List.map_cons, hspan]
      exact .comment hw hc ih

theorem Tidy.shift (ht : t.From k v) (h : Tidy v cs) : Tidy t (cs.map (Span.shift k)) where
  nonempty := by
    intro c hc
    obtain ⟨d, hd, rfl⟩ := List.mem_map.mp hc
    have := h.nonempty d hd
    simp only [Span.shift]
    omega
  borders := by
    intro c hc
    obtain ⟨d, hd, rfl⟩ := List.mem_map.mp hc
    exact ⟨ht.isBorder_add (h.borders d hd).1, ht.isBorder_add (h.borders d hd).2⟩
  ordered := by
    rw [List.pairwise_map]
    refine h.ordered.imp ?_
    intro a b hab
    simp only [Span.shift]
    omega

/-! ## Places -/

/-- A place of the text from the next token on is a place of the whole text. -/
theorem State.Sound.onward {s s' : State} (hs : s.Sound t) (h : s'.Sound s.here) :
    (s.onward s').Sound t where
  gap := hs.here.trans h.gap
  here := hs.here.trans h.here
  rest := hs.here.trans h.rest
  start_le := Nat.add_le_add_left h.start_le _
  token := fun htok => Nat.add_lt_add_left (h.token htok) _
  unskipped := h.unskipped
  scanned := by
    obtain ⟨u, hscan, hstop⟩ := h.scanned
    refine ⟨u, hscan, ?_⟩
    show s.start + s'.stop = s.start + s'.start + Text.size u
    omega
  skips := by
    obtain ⟨u, cs, old, hgap, hstart, hskips, hcomments, hold⟩ := h.skips
    refine ⟨u, cs.map (Span.shift s.start), old.map (Span.shift s.start) ++ s.comments, hgap, ?_,
      hskips.shift _, ?_, ?_⟩
    · show s.start + s'.start = s.start + s'.prevStop + Text.size u
      omega
    · show s'.comments.map (Span.shift s.start) ++ s.comments = _
      rw [hcomments, List.map_append, List.map_reverse, List.append_assoc]
    · intro c hc
      show c.stop ≤ s.start + s'.prevStop
      rcases List.mem_append.mp hc with hc | hc
      · obtain ⟨d, hd, rfl⟩ := List.mem_map.mp hc
        exact Nat.add_le_add_left (hold d hd) _
      · have := hs.comments_le c hc
        omega
  tidy := by
    refine (h.tidy.shift hs.here).append hs.tidy (k := s.start) ?_ hs.comments_le
    intro c hc
    obtain ⟨d, hd, rfl⟩ := List.mem_map.mp hc
    exact Nat.le_add_right _ _

theorem State.initial_sound (t : Text) : (State.initial t).Sound t :=
  State.resume_sound t.from_zero ⟨by simp, by simp, List.Pairwise.nil⟩ (by simp)

namespace Parser

theorem afresh_eq_ok {p : Text → Parser} {s s'' : State} {ns : List Node}
    (h : afresh p s = .ok ns s'') :
    ∃ ms s', p s.here (State.initial s.here) = .ok ms s' ∧ ns = Node.shiftAll s.start ms ∧
      s'' = s.onward s' := by
  unfold afresh at h
  split at h
  · next ms s' hp =>
      cases h
      exact ⟨ms, s', hp, rfl, rfl⟩
  · cases h

/-- **Reading afresh is a step of the whole text.** -/
theorem Takes.afresh {p : Text → Parser} (hp : ∀ v, Takes v (p v)) : Takes t (afresh p) := by
  intro s ns s'' hs h
  obtain ⟨ms, s', hp', rfl, rfl⟩ := afresh_eq_ok h
  obtain ⟨hstep, hlt⟩ := hp s.here _ ms s' (State.initial_sound s.here) hp'
  refine ⟨⟨hs.onward hstep.sound, Nat.le_add_right _ _, ?_, ?_, ?_⟩, ?_⟩
  · exact Nat.le_trans hs.prevStop_le (Nat.le_add_right _ _)
  · refine ⟨_, rfl, ?_⟩
    intro c hc
    obtain ⟨d, hd, rfl⟩ := List.mem_map.mp hc
    exact Nat.le_add_right _ _
  · exact hstep.laid.shift hs.here hs.comments_le
  · show s.start < s.start + s'.prevStop
    omega

end Parser

end Promisify
