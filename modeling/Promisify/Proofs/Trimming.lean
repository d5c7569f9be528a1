import Promisify.Proofs.Arguments
import Promisify.Proofs.Spacing

set_option autoImplicit false

/-! # Taking the limiting operator out of a pipeline

The limiting operator is the first operator of a pipeline that is a call of `first`, or of `take` with
the number one. Where it is the only operator the pipeline is given up for its source. Otherwise a span
is cut out of the arguments: the operator, and what stands between it and the operator next to it.

The cut keeps away from every other operator, so what is left between the parentheses still holds their
texts, as written and in order (`Text.InOrder`).

Neither side of a cut is empty (`Copied.nonempty`), and no site lies across one. So the plan of a site
fits among the other sites of the file.
-/

namespace Promisify

/-! ## Texts inside a text -/

namespace Text

/-- The texts stand inside a text one after another, with anything between them. -/
inductive InOrder : List Text → Text → Prop
  | nil (gap : Text) : InOrder [] gap
  | cons (gap piece : Text) {pieces : List Text} {rest : Text} (h : InOrder pieces rest) :
      InOrder (piece :: pieces) (gap ++ piece ++ rest)

variable {t u : Text} {xs ys : List Text}

theorem InOrder.prepend (h : InOrder xs t) (u : Text) : InOrder xs (u ++ t) := by
  cases h with
  | nil gap => exact .nil _
  | cons gap piece h =>
      rw [← List.append_assoc, ← List.append_assoc]
      exact .cons (u ++ gap) piece h

theorem InOrder.append (hx : InOrder xs t) (hy : InOrder ys u) : InOrder (xs ++ ys) (t ++ u) := by
  induction hx with
  | nil gap => exact hy.prepend gap
  | cons gap piece h ih =>
      rw [List.append_assoc]
      exact .cons gap piece ih

/-- Spans that follow one another inside a slice stand in it in order. -/
theorem inOrder_of_slice {m : Text} {lo hi : Nat} {spans : List Span} (h : t.slice? lo hi = some m)
    (hin : ∀ s ∈ spans, lo ≤ s.start ∧ s.start ≤ s.stop ∧ s.stop ≤ hi ∧
      t.IsBorder s.start ∧ t.IsBorder s.stop)
    (hord : spans.Pairwise fun r s => r.stop ≤ s.start) :
    InOrder (spans.map fun s => (t.span? s).getD []) m := by
  induction spans generalizing lo m with
  | nil => exact .nil m
  | cons s spans ih =>
      obtain ⟨hfirst, hrest⟩ := List.pairwise_cons.mp hord
      obtain ⟨h₁, h₂, h₃, hstart, hstop⟩ := hin s List.mem_cons_self
      obtain ⟨gap, v, -, hv, rfl⟩ := exists_slice?_split h h₁ (Nat.le_trans h₂ h₃) hstart
      obtain ⟨piece, rest, hpiece, hslice, rfl⟩ := exists_slice?_split hv h₂ h₃ hstop
      have hspan : t.span? s = some piece := hpiece
      rw [List.map_cons, hspan, Option.getD_some, ← List.append_assoc]
      refine .cons gap piece (ih hslice ?_ hrest)
      intro r hr
      exact ⟨hfirst r hr, (hin r (List.mem_cons_of_mem s hr)).2⟩

end Text

namespace SourceFile

variable {f : SourceFile}

/-! ## Limiting operators -/

/-- The operator is a call of the function `name` with the arguments `a`. -/
structure CallOf (f : SourceFile) (op : Node) (name : Text) (a : Node) : Prop where
  kind : op.kind = .callExpression
  function : ∃ k, op.child? .function = some k ∧ k.kind = .identifier ∧ f.textOf k = name
  arguments : op.child? .arguments = some a
  argumentsKind : a.kind = .arguments

/-- The operators that limit a stream: `first` with any arguments, and `take` with nothing but the
number one. -/
inductive Limits (f : SourceFile) (op : Node) : Limit → Prop
  | first {a : Node} (h : f.CallOf op "first".toList a) : Limits f op .first
  | takeOne {a count : Node} (h : f.CallOf op "take".toList a) (ha : a.codeParts = [count])
      (hk : count.kind = .number) (hv : Numeral.value? (f.textOf count) = some Double.one) :
      Limits f op .takeOne

theorem limit?_eq_some_iff {op : Node} {k : Limit} : f.limit? op = some k ↔ f.Limits op k := by
  constructor
  · intro h
    unfold limit? at h
    simp only [Option.bind_eq_bind, Option.bind_eq_some_iff, Option.guard_eq_some'] at h
    obtain ⟨-, hkind, g, hg, -, hgk, a, ha, -, hak, hname⟩ := h
    split at hname
    · next hfirst =>
        cases hname
        exact .first ⟨hkind, ⟨g, hg, hgk, hfirst⟩, ha, hak⟩
    · split at hname
      · next htake =>
          split at hname
          · next count hparts =>
              split at hname
              · next hcount =>
                  cases hname
                  rw [Bool.and_eq_true, decide_eq_true_eq, decide_eq_true_eq] at hcount
                  exact .takeOne ⟨hkind, ⟨g, hg, hgk, htake⟩, ha, hak⟩ hparts hcount.1 hcount.2
              · cases hname
          · cases hname
      · cases hname
  · intro h
    unfold limit?
    cases h with
    | first h =>
        obtain ⟨g, hg, hgk, hname⟩ := h.function
        simp [h.kind, hg, hgk, h.arguments, h.argumentsKind, hname, Vocabulary.first]
    | takeOne h ha hk hv =>
        obtain ⟨g, hg, hgk, hname⟩ := h.function
        simp [h.kind, hg, hgk, h.arguments, h.argumentsKind, hname, Vocabulary.first,
          Vocabulary.take, ha, hk, hv]

/-- The operator that is found limits the stream, and none in front of it does. -/
theorem firstLimit?_limits {ns : List Node} {i : Nat} {l : LimitingOperator}
    (h : f.firstLimit? i ns = some l) :
    f.limit? l.node = some l.limit ∧ ∀ op ∈ ns.take (l.index - i), f.limit? op = none := by
  induction ns generalizing i with
  | nil => simp [firstLimit?] at h
  | cons n ns ih =>
      unfold firstLimit? at h
      split at h
      · next k hk =>
          cases h
          exact ⟨hk, by simp⟩
      · next hk =>
          obtain ⟨hnode, hbefore⟩ := ih h
          have hle := (firstLimit?_eq_some h).1
          refine ⟨hnode, ?_⟩
          rw [show l.index - i = (l.index - (i + 1)) + 1 by omega, List.take_succ_cons]
          intro op hop
          rcases List.mem_cons.mp hop with rfl | hop
          · exact hk
          · exact hbefore op hop

end SourceFile

/-! ## The cut -/

namespace Pipeline

/-- The operators stand in order between the ends of `a`, with something around each of them. -/
structure Listed (t : Text) (a : Node) (p : Pipeline) : Prop where
  nonempty : ∀ x ∈ p.operators, x.start < x.stop
  inside : ∀ x ∈ p.operators, a.start < x.start ∧ x.stop < a.stop
  borders : ∀ x ∈ p.operators, t.IsBorder x.start ∧ t.IsBorder x.stop
  ordered : p.operators.Pairwise fun x y => x.stop < y.start

/-- The span from the limiting operator up to the operator next to it: the one before it or, for the
first operator, the one behind it. -/
inductive Reaches (p : Pipeline) (l : LimitingOperator) : Span → Prop
  | next {x : Node} (hi : l.index = 0) (hx : p.operators[1]? = some x) :
      Reaches p l ⟨l.node.start, x.start⟩
  | previous {x : Node} (hi : l.index ≠ 0) (hx : p.operators[l.index - 1]? = some x) :
      Reaches p l ⟨x.stop, l.node.stop⟩

variable {p : Pipeline} {l : LimitingOperator} {c : Span} {t : Text} {a : Node}

/-- Operators at two places are in order. -/
theorem Listed.before {i j : Nat} {x y : Node} (h : p.Listed t a) (hij : i < j)
    (hx : p.operators[i]? = some x) (hy : p.operators[j]? = some y) : x.stop < y.start := by
  obtain ⟨hi, rfl⟩ := List.getElem?_eq_some_iff.mp hx
  obtain ⟨hj, rfl⟩ := List.getElem?_eq_some_iff.mp hy
  exact List.pairwise_iff_getElem.mp h.ordered i j hi hj hij

namespace Reaches

/-- The cut takes in the whole operator. -/
theorem within (h : p.Reaches l c) (ha : p.Listed t a)
    (hl : p.operators[l.index]? = some l.node) : l.node.span.within c = true := by
  have hnode := ha.nonempty _ (List.mem_of_getElem? hl)
  rw [Span.within_iff]
  cases h with
  | next hi hx =>
      have := ha.before (by omega) hl hx
      simp only [Node.span]
      omega
  | previous hi hx =>
      have := ha.before (by omega) hx hl
      simp only [Node.span]
      omega

theorem forward (h : p.Reaches l c) (ha : p.Listed t a)
    (hl : p.operators[l.index]? = some l.node) : c.start ≤ c.stop := by
  have hin := Span.within_iff.mp (h.within ha hl)
  have hne := ha.nonempty _ (List.mem_of_getElem? hl)
  simp only [Node.span] at hin
  omega

/-- The ends of a cut are borders between the parentheses. -/
theorem bounds (h : p.Reaches l c) (ha : p.Listed t a)
    (hl : p.operators[l.index]? = some l.node) :
    (a.start < c.start ∧ c.stop < a.stop) ∧ t.IsBorder c.start ∧ t.IsBorder c.stop := by
  have hlm := List.mem_of_getElem? hl
  have hlin := ha.inside _ hlm
  cases h with
  | @next x hi hx =>
      have hxm := List.mem_of_getElem? hx
      have hxne := ha.nonempty x hxm
      have hxin := ha.inside x hxm
      exact ⟨⟨hlin.1, by simp only; omega⟩, (ha.borders _ hlm).1, (ha.borders x hxm).1⟩
  | @previous x hi hx =>
      have hxm := List.mem_of_getElem? hx
      have hxne := ha.nonempty x hxm
      have hxin := ha.inside x hxm
      exact ⟨⟨by simp only; omega, hlin.2⟩, (ha.borders x hxm).2, (ha.borders _ hlm).2⟩

/-- The operators in front of the limiting one end in front of the cut. -/
theorem before (h : p.Reaches l c) (ha : p.Listed t a) {i : Nat} {y : Node}
    (hy : p.operators[i]? = some y) (hi : i < l.index) : y.stop ≤ c.start := by
  cases h with
  | next hzero hx => omega
  | @previous x hzero hx =>
      -- the operator is the one in front of the limiting one or comes before that one
      by_cases hlast : i = l.index - 1
      · rw [hlast, hx, Option.some.injEq] at hy
        rw [hy]
      · have hxne := ha.nonempty x (List.mem_of_getElem? hx)
        have hyx := ha.before (show i < l.index - 1 by omega) hy hx
        show y.stop ≤ x.stop
        omega

/-- The operators behind the limiting one start behind the cut. -/
theorem behind (h : p.Reaches l c) (ha : p.Listed t a)
    (hl : p.operators[l.index]? = some l.node) {i : Nat} {y : Node}
    (hy : p.operators[i]? = some y) (hi : l.index < i) : c.stop ≤ y.start := by
  cases h with
  | @next x hzero hx =>
      by_cases hone : i = 1
      · rw [hone, hx, Option.some.injEq] at hy
        rw [hy]
      · have hxne := ha.nonempty x (List.mem_of_getElem? hx)
        have hxy := ha.before (show 1 < i by omega) hx hy
        show x.start ≤ y.start
        omega
  | previous hzero hx => exact Nat.le_of_lt (ha.before hi hl hy)

end Reaches

end Pipeline

/-- What is left of enclosed text around a cut: an opening parenthesis, what stands in front of the
cut and behind it, and a closing parenthesis. -/
theorem Node.Enclosed.around_cut {t : Text} {a : Node} {c : Span} (h : a.Enclosed t)
    (hstart : a.start < c.start) (hc : c.start ≤ c.stop) (hstop : c.stop < a.stop)
    (hb : t.IsBorder c.start ∧ t.IsBorder c.stop) :
    ∃ u v, t.slice? (a.start + 1) c.start = some u ∧ t.slice? a.start c.start = some ('(' :: u) ∧
      t.slice? c.stop (a.stop - 1) = some v ∧ t.slice? c.stop a.stop = some (v ++ [')']) := by
  obtain ⟨w, hw⟩ := h.parens
  obtain ⟨hleft, hright⟩ := Text.slice?_of_append hw rfl
  obtain ⟨x, y, -, -, hsize⟩ := Text.slice?_eq_some_iff.mp hright
  have hend : a.stop - 1 = a.start + Text.size ('(' :: w) := by
    have hone : Text.size [')'] = 1 := by decide
    have hspan : a.span.start = a.start ∧ a.span.stop = a.stop := ⟨rfl, rfl⟩
    omega
  obtain ⟨hopen, hinner⟩ := Text.slice?_of_append (u := ['(']) (v := w) (b := a.start + 1) hleft rfl
  rw [show a.span.start + Text.size ('(' :: w) = a.stop - 1 from hend.symm] at hinner hright
  obtain ⟨u, rest, hu, hrest, -⟩ := Text.exists_slice?_split hinner (by omega) (by omega) hb.1
  obtain ⟨-, v, -, hv, -⟩ := Text.exists_slice?_split hrest hc (by omega) hb.2
  exact ⟨u, v, hu, Text.slice?_append hopen hu, hv, Text.slice?_append hv hright⟩

namespace SourceFile

variable {f : SourceFile} {r k a : Node} {p : Pipeline} {l : LimitingOperator} {c : Span}

/-- With more than one operator, the limiting one is cut out up to the operator next to it. -/
theorem trim_reaches (hp : f.pipeline? r = some p) (hl : p.limiting = some l)
    (hne : p.operators.length ≠ 1) : ∃ c, p.trim = .cut c ∧ p.Reaches l c := by
  obtain ⟨hfirst, hlater⟩ := neighbour_lt hp hl hne
  unfold Pipeline.trim
  simp only [hl, if_neg hne]
  by_cases hzero : l.index = 0
  · have hx := List.getElem?_eq_getElem (hfirst hzero)
    rw [if_pos hzero, hx]
    exact ⟨_, rfl, .next hzero hx⟩
  · have hx := List.getElem?_eq_getElem (hlater hzero)
    rw [if_neg hzero, hx]
    exact ⟨_, rfl, .previous hzero hx⟩

theorem PipelineAt.arguments_mem (h : f.PipelineAt r p k a) (hr : r ∈ f.root.preorder) :
    a ∈ f.root.preorder :=
  Node.preorder_trans hr (Node.mem_preorder.mpr
    (Or.inr (Node.mem_descendants_of_child (Node.mem_children_of_child? h.arguments))))

/-- The operators of a pipeline are listed between its parentheses. -/
theorem PipelineAt.listed (h : f.PipelineAt r p k a) (hwf : f.WellFormed) (hf : f.Spaced)
    (hr : r ∈ f.root.preorder) : p.Listed f.text a := by
  have ham := h.arguments_mem hr
  have henc := hf.enclosed a ham h.argumentsKind
  have hmem : ∀ x ∈ p.operators, x ∈ a.codeParts := fun x hx => h.operators ▸ hx
  refine ⟨?_, ?_, ?_, h.operators ▸ henc.apart⟩
  · intro x hx
    exact (hwf.tree.of_mem_preorder ham).fits.nonempty x (Node.mem_children_of_codeParts (hmem x hx))
  · intro x hx
    obtain ⟨hstart, hstop, -⟩ := henc.inside x (hmem x hx)
    exact ⟨hstart, hstop⟩
  · intro x hx
    have hxc := Node.mem_children_of_codeParts (hmem x hx)
    exact hwf.borders x (Node.preorder_trans ham
      (Node.mem_preorder.mpr (Or.inr (Node.mem_descendants_of_child hxc))))

/-! ## What is left -/

/-- The texts of spans, one after another. -/
def spelled? (f : SourceFile) (spans : List Span) : Option Text :=
  (spans.mapM f.text.span?).map List.flatten

theorem spelled?_pair {x y : Span} {u v : Text} (hx : f.text.span? x = some u)
    (hy : f.text.span? y = some v) : f.spelled? [x, y] = some (u ++ v) := by
  simp [spelled?, hx, hy]

/-- What taking the limiting operator `l` out of the arguments `a` by the cut `c` does. -/
structure Removal (f : SourceFile) (p : Pipeline) (l : LimitingOperator) (a : Node) (c : Span) :
    Prop where
  /-- The cut lies between the parentheses. -/
  parens : ∃ u, f.text.span? a.span = some ('(' :: u ++ [')'])
  inside : a.start < c.start ∧ c.stop < a.stop
  /-- It takes in the operator and reaches up to the operator next to it. -/
  within : l.node.span.within c = true
  reaches : p.Reaches l c
  /-- It has nothing in common with another operator. -/
  apart : ∀ i x, p.operators[i]? = some x → i ≠ l.index → x.span.apart c
  /-- There is another operator, and no operator is empty. -/
  nonempty : p.operators.eraseIdx l.index ≠ [] ∧
    ∀ x ∈ p.operators.eraseIdx l.index, f.textOf x ≠ []
  /-- Between the parentheses the texts of the other operators are left, in order. -/
  kept : ∃ lead inner, f.text.slice? p.call.start a.start = some lead ∧
    f.spelled? [⟨p.call.start, c.start⟩, ⟨c.stop, p.call.stop⟩] =
      some (lead ++ '(' :: inner ++ [')']) ∧
    Text.InOrder ((p.operators.eraseIdx l.index).map f.textOf) inner

theorem textOf_ne_nil {x : Node} (hne : x.start < x.stop)
    (hb : f.text.IsBorder x.start ∧ f.text.IsBorder x.stop) : f.textOf x ≠ [] := by
  obtain ⟨u, hu⟩ := Option.isSome_iff_exists.mp
    (Text.slice?_isSome_iff.mpr ⟨Nat.le_of_lt hne, hb⟩)
  obtain ⟨v, w, -, -, hsize⟩ := Text.slice?_eq_some_iff.mp hu
  have hspan : f.text.span? x.span = some u := hu
  rw [textOf, hspan, Option.getD_some]
  rintro rfl
  rw [Text.size_nil] at hsize
  omega

/-- Some of the operators stand in a slice that they lie in. -/
theorem inOrder_operators {ns : List Node} {m : Text} {lo hi : Nat} (ha : p.Listed f.text a)
    (hns : ns.Sublist p.operators) (h : f.text.slice? lo hi = some m)
    (hin : ∀ x ∈ ns, lo ≤ x.start ∧ x.stop ≤ hi) : Text.InOrder (ns.map f.textOf) m := by
  have hmap : ns.map f.textOf = (ns.map Node.span).map fun s => (f.text.span? s).getD [] := by
    rw [List.map_map]
    rfl
  rw [hmap]
  refine Text.inOrder_of_slice h ?_ ?_
  · intro s hs
    obtain ⟨x, hx, rfl⟩ := List.mem_map.mp hs
    have hxp := hns.subset hx
    exact ⟨(hin x hx).1, Nat.le_of_lt (ha.nonempty x hxp), (hin x hx).2, ha.borders x hxp⟩
  · rw [List.pairwise_map]
    exact (ha.ordered.sublist hns).imp Nat.le_of_lt

/-- In front of the cut and behind it stand all operators but the limiting one. -/
theorem inOrder_around_cut {u v : Text} (ha : p.Listed f.text a)
    (hl : p.operators[l.index]? = some l.node) (hc : p.Reaches l c)
    (hu : f.text.slice? (a.start + 1) c.start = some u)
    (hv : f.text.slice? c.stop (a.stop - 1) = some v) :
    Text.InOrder ((p.operators.eraseIdx l.index).map f.textOf) (u ++ v) := by
  rw [List.eraseIdx_eq_take_drop_succ, List.map_append]
  refine .append (inOrder_operators ha (List.take_sublist _ _) hu ?_)
    (inOrder_operators ha (List.drop_sublist _ _) hv ?_)
  · intro x hx
    obtain ⟨i, hi⟩ := List.mem_iff_getElem?.mp hx
    rw [List.getElem?_take] at hi
    split at hi
    · next hlt => exact ⟨(ha.inside x (List.mem_of_getElem? hi)).1, hc.before ha hi hlt⟩
    · cases hi
  · intro x hx
    obtain ⟨i, hi⟩ := List.mem_iff_getElem?.mp hx
    rw [List.getElem?_drop] at hi
    have hstop := (ha.inside x (List.mem_of_getElem? hi)).2
    exact ⟨hc.behind ha hl hi (by omega), Nat.le_sub_one_of_lt hstop⟩

/-- **A cut up to the operator next to the limiting one removes that operator alone.** -/
theorem PipelineAt.removal (h : f.PipelineAt r p k a) (hwf : f.WellFormed) (hf : f.Spaced)
    (hr : r ∈ f.root.preorder) (hl : p.operators[l.index]? = some l.node)
    (hne : p.operators.length ≠ 1) (hc : p.Reaches l c) : f.Removal p l a c := by
  have ham := h.arguments_mem hr
  have henc := hf.enclosed a ham h.argumentsKind
  have ha := h.listed hwf hf hr
  obtain ⟨⟨hstart, hstop⟩, hborders⟩ := hc.bounds ha hl
  refine ⟨henc.parens, ⟨hstart, hstop⟩, hc.within ha hl, hc, ?_, ⟨?_, ?_⟩, ?_⟩
  · intro i x hx hi
    rcases Nat.lt_or_gt_of_ne hi with hlt | hgt
    · exact Or.inl (hc.before ha hx hlt)
    · exact Or.inr (hc.behind ha hl hx hgt)
  · have hlt : l.index < p.operators.length := (List.getElem?_eq_some_iff.mp hl).1
    rw [← List.length_pos_iff, List.length_eraseIdx_of_lt hlt]
    omega
  · intro x hx
    have hxp := List.mem_of_mem_eraseIdx hx
    exact textOf_ne_nil (ha.nonempty x hxp) (ha.borders x hxp)
  · obtain ⟨u, v, hu, hopen, hv, hclose⟩ := henc.around_cut hstart (hc.forward ha hl) hstop hborders
    -- the call stops with its arguments
    have hend : r.stop = a.stop := by
      have hclosing := (hf.edged r hr).closing h.kind
      rw [h.arguments, Option.map_some, Option.some.injEq] at hclosing
      exact hclosing.symm
    have hra := (hwf.tree.of_mem_preorder hr).fits.inside a (Node.mem_children_of_child? h.arguments)
    obtain ⟨lead, hlead⟩ := Option.isSome_iff_exists.mp (Text.slice?_isSome_iff.mpr
      ⟨hra.1, (hwf.borders r hr).1, (hwf.borders a ham).1⟩)
    have hfront : f.text.span? ⟨r.start, c.start⟩ = some (lead ++ '(' :: u) :=
      Text.slice?_append hlead hopen
    have hback : f.text.span? ⟨c.stop, r.stop⟩ = some (v ++ [')']) := hend ▸ hclose
    rw [h.call]
    refine ⟨lead, u ++ v, hlead, ?_, inOrder_around_cut ha hl hc hu hv⟩
    rw [spelled?_pair hfront hback]
    simp

/-- The operator that limits the stream of a pipeline is the first one that does. -/
theorem limiting_is_first (hp : f.pipeline? r = some p) (hl : p.limiting = some l) :
    p.operators[l.index]? = some l.node ∧ f.Limits l.node l.limit ∧
      ∀ op ∈ p.operators.take l.index, ∀ m, ¬ f.Limits op m := by
  obtain ⟨k, a, hat⟩ := pipeline?_eq_some hp
  have hfirst : f.firstLimit? 0 p.operators = some l := hat.limiting ▸ hl
  obtain ⟨hlimit, hbefore⟩ := firstLimit?_limits hfirst
  refine ⟨(firstLimit?_eq_some hfirst).2, limit?_eq_some_iff.mp hlimit, ?_⟩
  intro op hop m hm
  have hnone := hbefore op hop
  rw [limit?_eq_some_iff.mpr hm] at hnone
  cases hnone

/-- A pipeline whose only operator limits the stream is given up for its source, and no other one. -/
theorem trim_collapses_iff (hp : f.pipeline? r = some p) (hl : p.limiting = some l) :
    p.trim = .collapse ↔ p.operators.length = 1 := by
  constructor
  · intro htrim
    obtain ⟨op, hop, -⟩ := (trim_eq_collapse_iff hp).mp htrim
    rw [hop, List.length_singleton]
  · intro hone
    simp [Pipeline.trim, hl, hone]

/-- Of several operators in a well-formed tree the limiting one is cut out, and the helper is called with
the text in front of the cut and the text behind it. -/
theorem limiting_is_removed (hwf : f.WellFormed) (hsp : f.Spaced) (hr : r ∈ f.root.preorder)
    (hp : f.pipeline? r = some p) (hl : p.limiting = some l) (hne : p.operators.length ≠ 1) :
    ∃ a c, r.child? .arguments = some a ∧ p.operators = a.codeParts ∧
      p.trim = .cut c ∧ f.Removal p l a c ∧ (Shape.pipeline p).argument =
        .ok (.firstValue, [⟨p.call.start, c.start⟩, ⟨c.stop, p.call.stop⟩]) := by
  obtain ⟨k, a, hat⟩ := pipeline?_eq_some hp
  obtain ⟨c, htrim, hc⟩ := trim_reaches hp hl hne
  refine ⟨a, c, hat.arguments, hat.operators, htrim, ?_, by simp [Shape.argument, htrim, Node.span]⟩
  exact hat.removal hwf hsp hr (limiting_is_first hp hl).1 hne hc

/-- **Removing the limiting operator is exact.** It is the first operator that limits the stream. A
pipeline with no other operator is given up for its source. In any other one a span between the
parentheses goes, which takes in the operator and reaches up to the one next to it; what the helper is
called with then holds all other operators in order between its parentheses, and there is at least
one. -/
theorem limiting_operator_is_cut_out {d : Dialect} {t : Text} (h : parse? d t = .ok f)
    (hr : r ∈ f.root.preorder) (hp : f.pipeline? r = some p) (hl : p.limiting = some l) :
    p.operators[l.index]? = some l.node ∧ f.Limits l.node l.limit ∧
    (∀ op ∈ p.operators.take l.index, ∀ m, ¬ f.Limits op m) ∧
    (p.trim = .collapse ↔ p.operators.length = 1) ∧
    (p.operators.length = 1 →
      (Shape.pipeline p).argument = .ok (.firstValue, [p.source.span])) ∧
    (p.operators.length ≠ 1 → ∃ a c, r.child? .arguments = some a ∧ p.operators = a.codeParts ∧
      p.trim = .cut c ∧ f.Removal p l a c ∧ (Shape.pipeline p).argument =
        .ok (.firstValue, [⟨p.call.start, c.start⟩, ⟨c.stop, p.call.stop⟩])) := by
  obtain ⟨hnode, hlimits, hbefore⟩ := limiting_is_first hp hl
  refine ⟨hnode, hlimits, hbefore, trim_collapses_iff hp hl, fun hone => ?_, fun hne => ?_⟩
  · simp [Shape.argument, (trim_collapses_iff hp hl).mpr hone]
  · exact limiting_is_removed (parse?_wellFormed h) (parse?_spaced h) hr hp hl hne

set_option maxRecDepth 100000 in
/-- Of three operators, with a comment, a hole and a comma at the end, the second one goes and the
third, which limits the stream too, stays. -/
theorem first_is_cut_out_before_take :
    ∃ f, parse? .typeScript
        "a.pipe(map(f), /* é */ first(g),, take(1),).toPromise();".toList = .ok f ∧
      ∃ r ∈ f.root.preorder, ∃ p l a, f.pipeline? r = some p ∧ p.limiting = some l ∧
        l.index = 1 ∧ p.operators.length = 3 ∧ f.Limits l.node .first ∧
        p.trim = .cut ⟨13, 32⟩ ∧ f.Removal p l a ⟨13, 32⟩ ∧
        f.spelled? [⟨0, 13⟩, ⟨32, 44⟩] = some "a.pipe(map(f),, take(1),)".toList := by
  obtain ⟨f, hf, hpipelines, hleft⟩ := exists_of_parse
    (d := .typeScript) (t := "a.pipe(map(f), /* é */ first(g),, take(1),).toPromise();".toList)
    (fun f => (f.root.preorder.filterMap fun r => (f.pipeline? r).bind fun p =>
        p.limiting.map fun l => (l.index, l.limit, p.operators.length, p.trim)) =
          [(1, .first, 3, .cut ⟨13, 32⟩)] ∧
      f.spelled? [⟨0, 13⟩, ⟨32, 44⟩] = some "a.pipe(map(f),, take(1),)".toList)
    (by decide +kernel) fun f hP => hP
  have hmem := List.mem_filterMap.mp (hpipelines ▸ List.mem_singleton_self _)
  obtain ⟨r, hr, hpipeline⟩ := hmem
  obtain ⟨p, hp, hlimiting⟩ := Option.bind_eq_some_iff.mp hpipeline
  obtain ⟨l, hl, heq⟩ := Option.map_eq_some_iff.mp hlimiting
  obtain ⟨hindex, hlimit, hlength, htrim⟩ : l.index = 1 ∧ l.limit = .first ∧
      p.operators.length = 3 ∧ p.trim = .cut ⟨13, 32⟩ := by simpa using heq
  obtain ⟨-, hnode, -, -, -, hcut⟩ := limiting_operator_is_cut_out hf hr hp hl
  obtain ⟨a, c, -, -, hc, hremoval, -⟩ := hcut (by omega)
  rw [htrim, Trim.cut.injEq] at hc
  exact ⟨f, hf, r, hr, p, l, a, hp, hl, hindex, hlength, hlimit ▸ hnode, htrim, hc ▸ hremoval, hleft⟩

/-! ## Plans and sites

What is left of a pipeline ends behind the cut, so no copied span is empty. -/

theorem PipelineAt.cut_stop_lt (h : f.PipelineAt r p k a) (hwf : f.WellFormed) (hf : f.Spaced)
    (hr : r ∈ f.root.preorder) (hc : p.trim = .cut c) : c.stop < r.stop := by
  obtain ⟨i, x, y, -, hy, hborders⟩ := h.cut_borders hc
  have hym := List.mem_of_getElem? hy
  have ha := h.listed hwf hf hr
  have hne := ha.nonempty y hym
  have hin := ha.inside y hym
  have hbounds := h.bounds (hwf.tree.of_mem_preorder hr)
  rcases hborders with rfl | rfl
  · show y.start < r.stop
    omega
  · show y.stop < r.stop
    omega

theorem Copied.nonempty {spans : List Span} (hcop : Copied f r spans) (hwf : f.WellFormed)
    (hf : f.Spaced) (hr : r ∈ f.root.preorder) (hne : r.start < r.stop) :
    ∀ x ∈ spans, x.start < x.stop := by
  have hrw := hwf.tree.of_mem_preorder hr
  intro x hx
  cases hcop with
  | whole =>
      rw [List.mem_singleton.mp hx]
      exact hne
  | source hp =>
      rw [List.mem_singleton.mp hx]
      exact (hp.bounds hrw).2.1
  | cut hp hc =>
      have hcb := hp.cut_bounds hrw hc
      have hlt := hp.cut_stop_lt hwf hf hr hc
      simp only [List.mem_cons, List.not_mem_nil, or_false] at hx
      rcases hx with rfl | rfl
      · exact hcb.1
      · exact hlt

theorem plan_nonempty {n : Node} {s : Site} {q : Plan} (hwf : f.WellFormed) (hf : f.Spaced)
    (hn : n ∈ f.root.preorder) (hs : Site.At f n s) (hq : f.plan s = .ok q) :
    ∀ x ∈ q.sources, x.start < x.stop := by
  have hnw := hwf.tree.of_mem_preorder hn
  obtain ⟨-, r, spans, rest, hr, hcop, hsources, hrest⟩ := plan_sources hq
  have hrc := Node.mem_children_of_child? hr
  have hrm := Node.preorder_trans hn (receiver_mem hs hnw hr)
  have hrne := (hs.callee_wellFormed hnw).fits.nonempty r hrc
  have hstart := (hcop.bounds hs hnw hr).1
  intro x hx
  rw [hsources] at hx
  rcases List.mem_append.mp hx with hx | hx
  · obtain ⟨y, hy, rfl⟩ := List.mem_map.mp hx
    have hyne := hcop.nonempty hwf hf hrm hrne y hy
    exact Nat.max_lt.mpr ⟨hyne, (hstart y hy).1⟩
  · rcases hrest with rfl | ⟨b, hb, rfl⟩
    · simp at hx
    · rw [List.mem_singleton.mp hx]
      exact (arguments_bounds hs hnw hr hb).2.1

/-- Of two sites one is at a call below the other one's, or they are apart. -/
theorem sites_below_or_apart (hwf : f.root.WellFormed) {s t : Site} (hs : s ∈ f.sites)
    (ht : t ∈ f.sites) (hne : s ≠ t) :
    t.call ∈ s.call.descendants ∧ t.span.inside s.span ∨ s.span.inside t.span ∨
      t.span.apart s.span := by
  have hsymm : Std.Symm fun s t : Site =>
      (t.call ∈ s.call.descendants ∧ t.span.inside s.span ∨ s.span.stop ≤ t.span.start) ∨
        s.call ∈ t.call.descendants ∧ s.span.inside t.span ∨ t.span.stop ≤ s.span.start :=
    ⟨fun _ _ => Or.symm⟩
  have hpair : f.sites.Pairwise fun s t : Site =>
      (t.call ∈ s.call.descendants ∧ t.span.inside s.span ∨ s.span.stop ≤ t.span.start) ∨
        s.call ∈ t.call.descendants ∧ s.span.inside t.span ∨ t.span.stop ≤ s.span.start :=
    (sites_pairwise hwf).imp fun h => Or.inl (h.imp id And.right)
  rcases hpair.forall hs ht hne with (hbelow | hafter) | ⟨-, habove⟩ | hbefore
  · exact Or.inl hbelow
  · exact Or.inr (Or.inr (Or.inr hafter))
  · exact Or.inr (Or.inl habove)
  · exact Or.inr (Or.inr (Or.inl hbefore))

/-- The spans that the plan of a site copies are not empty, lie strictly inside the site and follow one
another. -/
theorem plan_copies_inside (hwf : f.WellFormed) (hsp : f.Spaced) {s : Site} (hs : s ∈ f.sites) {q : Plan}
    (hq : f.plan s = .ok q) :
    (∀ x ∈ q.sources, x.start < x.stop ∧ x.inside s.span) ∧
      q.sources.Pairwise fun x y => x.stop ≤ y.start := by
  obtain ⟨n, hn, hns⟩ := mem_sites.mp hs
  have hat := siteAt?_eq_some hns
  have hfits := plan_fits hat (hwf.tree.of_mem_preorder hn) hq
  have hspan : q.span = s.span := (plan_sources hq).1
  refine ⟨fun x hx => ⟨?_, hspan ▸ hfits.inside x hx⟩, hfits.ordered⟩
  exact plan_nonempty hwf hsp hn hat hq x hx

/-- No site reaches over the border of a span that the plan of another site copies. -/
theorem plan_clear_of_sites (hwf : f.root.WellFormed) {s o : Site} (hs : s ∈ f.sites) {q : Plan}
    (hq : f.plan s = .ok q) (ho : o ∈ f.sites) (hne : o ≠ s) :
    s.span.inside o.span ∨ o.span.apart s.span ∨ (∃ x ∈ q.sources, o.span.within x = true) ∨
      o.span.inside s.span ∧ ∀ x ∈ q.sources, o.span.apart x := by
  rcases sites_below_or_apart hwf hs ho hne.symm with ⟨hbelow, hin⟩ | habove | hapart
  · -- the other site lies below this one: inside a copied span or apart from each
    obtain ⟨n, hn, hns⟩ := mem_sites.mp hs
    obtain ⟨m, -, hmo⟩ := mem_sites.mp ho
    have hat := siteAt?_eq_some hns
    have hoat := siteAt?_eq_some hmo
    rw [hat.call, hoat.call] at hbelow
    have hclear := plan_clear hat (hwf.of_mem_preorder hn) hq hbelow hoat
    by_cases hcopied : ∃ x ∈ q.sources, o.span.within x = true
    · exact Or.inr (Or.inr (Or.inl hcopied))
    · refine Or.inr (Or.inr (Or.inr ⟨hin, fun x hx => ?_⟩))
      exact (hclear x hx).resolve_left fun hwithin => hcopied ⟨x, hx, hwithin⟩
  · exact Or.inl habove
  · exact Or.inr (Or.inl hapart)

/-- **Plans fit the sites.** The spans that the plan of a site copies are not empty, lie strictly inside
the site and follow one another. Every other site lies around this one or apart from it, inside one
copied span, or inside this one and apart from all that is copied. -/
theorem plan_fits_among_sites {d : Dialect} {t : Text} (h : parse? d t = .ok f) {s : Site}
    (hs : s ∈ f.sites) {q : Plan} (hq : f.plan s = .ok q) :
    (∀ x ∈ q.sources, x.start < x.stop ∧ x.inside s.span) ∧
    (q.sources.Pairwise fun x y => x.stop ≤ y.start) ∧
    ∀ o ∈ f.sites, o ≠ s →
      s.span.inside o.span ∨ o.span.apart s.span ∨ (∃ x ∈ q.sources, o.span.within x = true) ∨
        o.span.inside s.span ∧ ∀ x ∈ q.sources, o.span.apart x := by
  have hwf := parse?_wellFormed h
  obtain ⟨hinside, hordered⟩ := plan_copies_inside hwf (parse?_spaced h) hs hq
  exact ⟨hinside, hordered, fun o ho hne => plan_clear_of_sites hwf.tree hs hq ho hne⟩

set_option maxRecDepth 100000 in
/-- Around the second of five sites lies the first one, inside what its plan copies the third, inside the
operator that is cut out the fourth, and behind it the fifth. -/
theorem plan_fits_among_five_sites :
    ∃ f, parse? .typeScript
        "x.subscribe(() => a.pipe(map(() => b.toPromise()), first(c => c.toPromise())).toPromise(), d.toPromise());".toList
          = .ok f ∧
      f.sites.map Site.span = [⟨0, 105⟩, ⟨18, 89⟩, ⟨35, 48⟩, ⟨62, 75⟩, ⟨91, 104⟩] ∧
      ∃ s ∈ f.sites, ∃ q, f.plan s = .ok q ∧ s.span = ⟨18, 89⟩ ∧
        q.sources = [⟨18, 49⟩, ⟨76, 77⟩] ∧
        (∀ x ∈ q.sources, x.start < x.stop ∧ x.inside s.span) ∧
        (q.sources.Pairwise fun x y => x.stop ≤ y.start) ∧
        ∀ o ∈ f.sites, o ≠ s →
          s.span.inside o.span ∨ o.span.apart s.span ∨
            (∃ x ∈ q.sources, o.span.within x = true) ∨
            o.span.inside s.span ∧ ∀ x ∈ q.sources, o.span.apart x := by
  obtain ⟨f, hf, hspans, hplans⟩ := exists_of_parse
    (d := .typeScript)
    (t := "x.subscribe(() => a.pipe(map(() => b.toPromise()), first(c => c.toPromise())).toPromise(), d.toPromise());".toList)
    (fun f => f.sites.map Site.span = [⟨0, 105⟩, ⟨18, 89⟩, ⟨35, 48⟩, ⟨62, 75⟩, ⟨91, 104⟩] ∧
      (⟨18, 89⟩, some [⟨18, 49⟩, ⟨76, 77⟩]) ∈
        f.sites.map fun s => (s.span, (f.plan s).toOption.map Plan.sources))
    (by decide +kernel) fun f hP => hP
  obtain ⟨s, hs, heq⟩ := List.mem_map.mp hplans
  obtain ⟨hspan, hplan⟩ := Prod.mk.inj heq
  obtain ⟨q, hq, hsources⟩ := Option.map_eq_some_iff.mp hplan
  exact ⟨f, hf, hspans, s, hs, q, toOption_eq_some hq, hspan, hsources,
    plan_fits_among_sites hf hs (toOption_eq_some hq)⟩

end SourceFile

end Promisify
