import Mathlib.Data.List.Pairwise
import Promisify.Site

set_option autoImplicit false

/-! # Well-formed syntax trees

What every tree of a program has in common, whatever the program is: parts are not empty, lie inside
their node, in order and apart; a chain of calls and accesses starts with what is called or
accessed; and only tokens and comments stand in front of the operand of a prefix.

Everything about the bytes of nodes is derived from `WellFormed`. The two facts that later proofs
use most are `mem_preorder_or_apart`, which says where a descendant lies relative to one child, and
`preorder_pairwise`, which says the same of any two nodes of a tree in document order.
-/

namespace Promisify

theorem Span.within_iff {s t : Span} :
    s.within t = true ↔ t.start ≤ s.start ∧ s.stop ≤ t.stop := by
  simp [Span.within]

namespace Node

/-! ## Descendants -/

/-- The nodes below a node, in document order. -/
def descendants (n : Node) : List Node := preorderAll n.children

theorem preorder_eq (n : Node) : n.preorder = n :: n.descendants := by
  cases n
  rfl

theorem mem_preorder {m n : Node} : m ∈ n.preorder ↔ m = n ∨ m ∈ n.descendants := by
  rw [preorder_eq, List.mem_cons]

theorem mem_preorder_self (n : Node) : n ∈ n.preorder := mem_preorder.mpr (Or.inl rfl)

theorem mem_preorderAll {m : Node} {ns : List Node} :
    m ∈ preorderAll ns ↔ ∃ n ∈ ns, m ∈ n.preorder := by
  induction ns with
  | nil => simp [preorderAll]
  | cons n ns ih => simp [preorderAll, ih]

theorem mem_descendants {m n : Node} :
    m ∈ n.descendants ↔ ∃ c ∈ n.children, m ∈ c.preorder := mem_preorderAll

theorem mem_descendants_of_mem {c n m : Node} (hc : c ∈ n.children) (hm : m ∈ c.preorder) :
    m ∈ n.descendants := mem_descendants.mpr ⟨c, hc, hm⟩

theorem mem_descendants_of_child {c n : Node} (hc : c ∈ n.children) : c ∈ n.descendants :=
  mem_descendants_of_mem hc c.mem_preorder_self

/-- Induction over trees: a node may assume the statement for its children. -/
@[elab_as_elim]
theorem inductionOn {motive : Node → Prop}
    (node : ∀ n, (∀ c ∈ n.children, motive c) → motive n) : ∀ n, motive n
  | mk k f a b cs => node (mk k f a b cs) fun c _ => inductionOn node c
termination_by n => sizeOf n
decreasing_by
  have hc : c ∈ cs := by assumption
  have := List.sizeOf_lt_of_mem hc
  simp only [mk.sizeOf_spec]
  omega

theorem preorder_trans {k m n : Node} (hm : m ∈ n.preorder) (hk : k ∈ m.preorder) :
    k ∈ n.preorder := by
  induction n using inductionOn with
  | node n ih =>
      rcases mem_preorder.mp hm with rfl | hm'
      · exact hk
      · obtain ⟨c, hc, hmc⟩ := mem_descendants.mp hm'
        exact mem_preorder.mpr (Or.inr (mem_descendants_of_mem hc (ih c hc hmc)))

theorem mem_children_of_child? {n c : Node} {f : Field} (h : n.child? f = some c) :
    c ∈ n.children := List.mem_of_find?_eq_some h

theorem field_of_child? {n c : Node} {f : Field} (h : n.child? f = some c) :
    c.field = some f := by
  have := List.find?_some h
  simpa using this

theorem mem_children_of_codeParts {n c : Node} (h : c ∈ n.codeParts) : c ∈ n.children :=
  (List.mem_filter.mp h).1

theorem mem_children_of_head? {n c : Node} (h : n.codeParts.head? = some c) : c ∈ n.children :=
  mem_children_of_codeParts (List.mem_of_mem_head? h)

/-- Children in different roles are different. -/
theorem ne_of_fields {n c d : Node} {f g : Field} (hc : n.child? f = some c)
    (hd : n.child? g = some d) (hne : f ≠ g) : c ≠ d := by
  rintro rfl
  have h := (field_of_child? hc).symm.trans (field_of_child? hd)
  exact hne (Option.some.inj h)

/-! ## Well-formed trees -/

/-- A comment or a mark: a node that stands for a single token. -/
def isToken (n : Node) : Bool := (n.kind == .comment || n.isMark) && n.children.isEmpty

/-- The operand of `await` or of a prefix operator. -/
def operand? (n : Node) : Option Node :=
  match n.kind with
  | .awaitExpression => n.codeParts.head?
  | .unaryExpression => n.child? .argument
  | _ => none

/-- How a node and its children share their bytes. -/
structure Fits (n : Node) : Prop where
  /-- No child is empty. -/
  nonempty : ∀ c ∈ n.children, c.start < c.stop
  /-- Every child lies inside the node. -/
  inside : ∀ c ∈ n.children, n.start ≤ c.start ∧ c.stop ≤ n.stop
  /-- The children are in order and apart. -/
  ordered : n.children.Pairwise fun a b => a.stop ≤ b.start
  /-- A call starts with what is called. -/
  function : n.kind = .callExpression → (n.child? .function).map start = some n.start
  /-- An access starts with what is accessed. -/
  object : n.kind = .memberExpression ∨ n.kind = .subscriptExpression →
    (n.child? .object).map start = some n.start
  /-- Only tokens stand in front of an operand. -/
  operand : ∀ o ∈ n.operand?, ∀ c ∈ n.children, c.stop ≤ o.start → c.isToken = true

instance (n : Node) : Decidable n.Fits :=
  decidable_of_iff
    ((∀ c ∈ n.children, c.start < c.stop) ∧
      (∀ c ∈ n.children, n.start ≤ c.start ∧ c.stop ≤ n.stop) ∧
      (n.children.Pairwise fun a b => a.stop ≤ b.start) ∧
      (n.kind = .callExpression → (n.child? .function).map start = some n.start) ∧
      (n.kind = .memberExpression ∨ n.kind = .subscriptExpression →
        (n.child? .object).map start = some n.start) ∧
      ∀ o ∈ n.operand?, ∀ c ∈ n.children, c.stop ≤ o.start → c.isToken = true)
    ⟨fun ⟨h₁, h₂, h₃, h₄, h₅, h₆⟩ => ⟨h₁, h₂, h₃, h₄, h₅, h₆⟩,
      fun ⟨h₁, h₂, h₃, h₄, h₅, h₆⟩ => ⟨h₁, h₂, h₃, h₄, h₅, h₆⟩⟩

/-- Every node of the tree fits its children. -/
def WellFormed (n : Node) : Prop := ∀ m ∈ n.preorder, m.Fits

instance (n : Node) : Decidable n.WellFormed :=
  inferInstanceAs (Decidable (∀ m ∈ n.preorder, m.Fits))

namespace WellFormed

variable {n c m : Node}

theorem fits (h : n.WellFormed) : n.Fits := h n n.mem_preorder_self

theorem of_mem_preorder (h : n.WellFormed) (hm : m ∈ n.preorder) : m.WellFormed :=
  fun _ hk => h _ (preorder_trans hm hk)

theorem of_mem_descendants (h : n.WellFormed) (hm : m ∈ n.descendants) : m.WellFormed :=
  h.of_mem_preorder (mem_preorder.mpr (Or.inr hm))

theorem child (h : n.WellFormed) (hc : c ∈ n.children) : c.WellFormed :=
  h.of_mem_descendants (mem_descendants_of_child hc)

/-- A descendant is not empty and lies inside the node. -/
theorem within (h : n.WellFormed) (hm : m ∈ n.descendants) :
    n.start ≤ m.start ∧ m.start < m.stop ∧ m.stop ≤ n.stop := by
  induction n using inductionOn with
  | node n ih =>
      obtain ⟨c, hc, hmc⟩ := mem_descendants.mp hm
      have hin := h.fits.inside c hc
      rcases mem_preorder.mp hmc with rfl | hmc'
      · exact ⟨hin.1, h.fits.nonempty m hc, hin.2⟩
      · have hm' := ih c hc (h.child hc) hmc'
        omega

/-- A node of the tree lies inside the tree. -/
theorem within_of_mem_preorder (h : n.WellFormed) (hm : m ∈ n.preorder) :
    n.start ≤ m.start ∧ m.stop ≤ n.stop := by
  rcases mem_preorder.mp hm with rfl | hm'
  · exact ⟨Nat.le_refl _, Nat.le_refl _⟩
  · have := h.within hm'
    omega

/-- Two children are the same or apart. -/
theorem eq_or_apart {d : Node} (h : n.WellFormed) (hc : c ∈ n.children) (hd : d ∈ n.children) :
    c = d ∨ c.stop ≤ d.start ∨ d.stop ≤ c.start := by
  by_cases hcd : c = d
  · exact Or.inl hcd
  · have hsymm : Std.Symm fun a b : Node => a.stop ≤ b.start ∨ b.stop ≤ a.start :=
      ⟨fun _ _ => Or.symm⟩
    have hpair : n.children.Pairwise fun a b => a.stop ≤ b.start ∨ b.stop ≤ a.start :=
      h.fits.ordered.imp Or.inl
    exact Or.inr (hpair.forall hc hd hcd)

/-- **Where a descendant lies relative to a child**: below it, before it or after it. -/
theorem mem_preorder_or_apart (h : n.WellFormed) (hc : c ∈ n.children)
    (hm : m ∈ n.descendants) :
    m ∈ c.preorder ∨ m.stop ≤ c.start ∨ c.stop ≤ m.start := by
  obtain ⟨d, hd, hmd⟩ := mem_descendants.mp hm
  have hin := (h.child hd).within_of_mem_preorder hmd
  rcases h.eq_or_apart hd hc with rfl | hdc | hcd
  · exact Or.inl hmd
  · exact Or.inr (Or.inl (by omega))
  · exact Or.inr (Or.inr (by omega))

/-- A descendant lies below the child the node starts with, or after it. -/
theorem mem_preorder_or_after (h : n.WellFormed) (hc : c ∈ n.children)
    (hs : c.start = n.start) (hm : m ∈ n.descendants) :
    m ∈ c.preorder ∨ c.stop ≤ m.start := by
  have hin := h.within hm
  rcases h.mem_preorder_or_apart hc hm with hmc | hbefore | hafter
  · exact Or.inl hmc
  · omega
  · exact Or.inr hafter

end WellFormed

/-- An offset at which a node of the tree starts or stops. -/
def HasBorder (n : Node) (k : Nat) : Prop := ∃ m ∈ n.preorder, k = m.start ∨ k = m.stop

theorem HasBorder.of_mem_preorder {n m : Node} {k : Nat} (h : m.HasBorder k)
    (hm : m ∈ n.preorder) : n.HasBorder k := by
  obtain ⟨x, hx, hk⟩ := h
  exact ⟨x, preorder_trans hm hx, hk⟩

theorem hasBorder_start {n m : Node} (hm : m ∈ n.preorder) : n.HasBorder m.start :=
  ⟨m, hm, Or.inl rfl⟩

theorem hasBorder_stop {n m : Node} (hm : m ∈ n.preorder) : n.HasBorder m.stop :=
  ⟨m, hm, Or.inr rfl⟩

/-! ## Any two nodes of a tree -/

/-- The trees of a list, if the trees themselves are in order and apart. -/
theorem preorderAll_pairwise {ns : List Node} (hwf : ∀ n ∈ ns, n.WellFormed)
    (hord : ns.Pairwise fun a b => a.stop ≤ b.start)
    (ih : ∀ n ∈ ns, n.preorder.Pairwise fun a b => b ∈ a.descendants ∨ a.stop ≤ b.start) :
    (preorderAll ns).Pairwise fun a b => b ∈ a.descendants ∨ a.stop ≤ b.start := by
  induction ns with
  | nil => exact List.Pairwise.nil
  | cons n ns ihs =>
      obtain ⟨hfirst, hrest⟩ := List.pairwise_cons.mp hord
      show (n.preorder ++ preorderAll ns).Pairwise _
      rw [List.pairwise_append]
      refine ⟨ih n (by simp), ihs (fun m hm => hwf m (by simp [hm])) hrest
        (fun m hm => ih m (by simp [hm])), ?_⟩
      intro a ha b hb
      obtain ⟨m, hm, hbm⟩ := mem_preorderAll.mp hb
      have h₁ := (hwf n (by simp)).within_of_mem_preorder ha
      have h₂ := (hwf m (by simp [hm])).within_of_mem_preorder hbm
      have h₃ := hfirst m hm
      exact Or.inr (by omega)

/-- **Two nodes in document order**: the later one is below the earlier one, or after it. -/
theorem WellFormed.preorder_pairwise {n : Node} (h : n.WellFormed) :
    n.preorder.Pairwise fun a b => b ∈ a.descendants ∨ a.stop ≤ b.start := by
  induction n using inductionOn with
  | node n ih =>
      rw [preorder_eq, List.pairwise_cons]
      exact ⟨fun m hm => Or.inl hm, preorderAll_pairwise (fun c hc => h.child hc) h.fits.ordered
        fun c hc => ih c hc (h.child hc)⟩

end Node

/-! ## Files read from a text -/

/-- What holds of the file that a text is read as can be found by evaluation. -/
theorem exists_of_parse {d : Dialect} {t : Text} {Q : SourceFile → Prop}
    (P : SourceFile → Prop) [DecidablePred P]
    (h : ((parse? d t).toOption.any fun f => decide (P f)) = true) (hPQ : ∀ f, P f → Q f) :
    ∃ f, parse? d t = .ok f ∧ Q f := by
  cases hf : parse? d t with
  | error e => simp [hf, Except.toOption] at h
  | ok f =>
      have hP : P f := by simpa [hf, Except.toOption] using h
      exact ⟨f, rfl, hPQ f hP⟩

end Promisify
