import Promisify.Proofs.Tree

set_option autoImplicit false

/-! # Where a chain starts

A chain of calls and accesses starts at its `callStart`, which leaves out a prefix that the grammar
folded into it. A call further down the same chain leaves out the same prefix
(`callStart_of_leftward`), and a call anywhere else in the tree starts behind that prefix
(`callStart_le`).
-/

namespace Promisify

namespace Node

/-! ## Going down the chain -/

theorem weight_le_of_mem {c : Node} {ns : List Node} (hc : c ∈ ns) : c.weight ≤ weightAll ns := by
  induction ns with
  | nil => simp at hc
  | cons n ns ih =>
      rw [weightAll]
      rcases List.mem_cons.mp hc with rfl | hc'
      · omega
      · have := ih hc'
        omega

theorem weight_lt_of_mem_children {c n : Node} (hc : c ∈ n.children) : c.weight < n.weight := by
  cases n with
  | mk k f a b cs =>
      have := weight_le_of_mem (show c ∈ cs from hc)
      rw [weight]
      omega

theorem mem_children_of_leftward? {n m : Node} (h : n.leftward? = some m) : m ∈ n.children := by
  unfold leftward? at h
  split at h
  · exact mem_children_of_child? h
  · exact mem_children_of_child? h
  · exact mem_children_of_child? h
  · exact mem_children_of_head? h
  · simp at h

/-- With fuel for the whole tree, more fuel changes nothing. -/
theorem foldedOperand?_congr (fuel fuel' : Nat) (n : Node) (h : n.weight ≤ fuel)
    (h' : n.weight ≤ fuel') : foldedOperand? fuel n = foldedOperand? fuel' n := by
  induction fuel generalizing fuel' n with
  | zero => cases n; simp [weight] at h
  | succ fuel ih =>
      cases fuel' with
      | zero => cases n; simp [weight] at h'
      | succ fuel' =>
          rw [foldedOperand?, foldedOperand?]
          cases n.prefixedOperand? with
          | some o => rfl
          | none =>
              cases hl : n.leftward? with
              | none => rfl
              | some m =>
                  have hm := weight_lt_of_mem_children (mem_children_of_leftward? hl)
                  simp only
                  rw [ih fuel' m (by omega) (by omega)]

theorem foldedOperand?_weight (n : Node) :
    foldedOperand? n.weight n =
      match n.prefixedOperand? with
      | some o => some o.start
      | none =>
          match n.leftward? with
          | some m => if m.start = n.start then foldedOperand? m.weight m else none
          | none => none := by
  have hw : n.weight = (n.weight - 1) + 1 := by
    cases n
    simp [weight]
  rw [hw, foldedOperand?]
  cases n.prefixedOperand? with
  | some o => rfl
  | none =>
      cases hl : n.leftward? with
      | none => rfl
      | some m =>
          have hm := weight_lt_of_mem_children (mem_children_of_leftward? hl)
          simp only
          rw [foldedOperand?_congr (n.weight - 1) m.weight m (by omega) (Nat.le_refl _)]

theorem callStart_of_prefixed {n o : Node} (h : n.prefixedOperand? = some o) :
    n.callStart = o.start := by
  rw [callStart, foldedOperand?_weight, h]
  rfl

/-- A node further down the chain starts where the chain does. -/
theorem callStart_of_leftward {n m : Node} (h : n.prefixedOperand? = none)
    (hm : n.leftward? = some m) (hs : m.start = n.start) : n.callStart = m.callStart := by
  rw [callStart, callStart, foldedOperand?_weight, h, hm]
  simp only [hs, if_true]

/-- Where the chain ends no prefix is left out. -/
theorem callStart_of_end {n : Node} (h : n.prefixedOperand? = none)
    (hm : ∀ m, n.leftward? = some m → m.start ≠ n.start) : n.callStart = n.start := by
  rw [callStart, foldedOperand?_weight, h]
  cases hl : n.leftward? with
  | none => rfl
  | some m => simp [hm m hl]

/-- The three ways a chain can go on at a node. -/
theorem callStart_cases (n : Node) :
    (∃ o, n.prefixedOperand? = some o ∧ n.callStart = o.start) ∨
    (∃ m, n.leftward? = some m ∧ m.start = n.start ∧ n.callStart = m.callStart) ∨
    n.callStart = n.start := by
  cases hp : n.prefixedOperand? with
  | some o => exact Or.inl ⟨o, rfl, callStart_of_prefixed hp⟩
  | none =>
      by_cases hl : ∃ m, n.leftward? = some m ∧ m.start = n.start
      · obtain ⟨m, hm, hs⟩ := hl
        exact Or.inr (Or.inl ⟨m, hm, hs, callStart_of_leftward hp hm hs⟩)
      · refine Or.inr (Or.inr (callStart_of_end hp ?_))
        intro m hm hs
        exact hl ⟨m, hm, hs⟩

/-! ## Folded prefixes -/

theorem mem_children_of_operand? {n o : Node} (h : n.operand? = some o) : o ∈ n.children := by
  unfold operand? at h
  split at h
  · exact mem_children_of_head? h
  · exact mem_children_of_child? h
  · simp at h

theorem kind_of_operand? {n o : Node} (h : n.operand? = some o) :
    n.kind = .awaitExpression ∨ n.kind = .unaryExpression := by
  unfold operand? at h
  split at h
  · exact Or.inl ‹_›
  · exact Or.inr ‹_›
  · simp at h

/-- A folded prefix is the function of a call with type arguments. -/
theorem prefixedOperand?_eq_some {n o : Node} (h : n.prefixedOperand? = some o) :
    n.kind = .callExpression ∧ (n.child? .typeArguments).isSome ∧
      ∃ f, n.child? .function = some f ∧ f.operand? = some o := by
  unfold prefixedOperand? at h
  split at h
  · rename_i hc
    simp only [Bool.and_eq_true, beq_iff_eq] at hc
    obtain ⟨f, hf, ho⟩ := Option.bind_eq_some_iff.mp h
    refine ⟨hc.1, hc.2, f, hf, ?_⟩
    unfold operand?
    exact ho
  · simp at h

/-- A call below `await` or a prefix operator is below or after its operand. -/
theorem WellFormed.operand_le {n o b : Node} (h : n.WellFormed) (ho : n.operand? = some o)
    (hb : b ∈ n.descendants) (hbk : b.kind = .callExpression) : o.start ≤ b.start := by
  obtain ⟨c, hc, hbc⟩ := mem_descendants.mp hb
  have hin := (h.child hc).within_of_mem_preorder hbc
  rcases h.eq_or_apart hc (mem_children_of_operand? ho) with rfl | hco | hoc
  · exact hin.1
  · -- a token in front of the operand has nothing below it and is no call
    have htok := h.fits.operand o ho c hc hco
    simp only [isToken, isMark, Bool.and_eq_true, Bool.or_eq_true, beq_iff_eq,
      List.isEmpty_iff] at htok
    rcases mem_preorder.mp hbc with rfl | hbd
    · rw [hbk] at htok
      simp at htok
    · rw [descendants, htok.2] at hbd
      simp [preorderAll] at hbd
  · have := h.fits.nonempty o (mem_children_of_operand? ho)
    omega

/-- The operand of a folded prefix is a descendant, and no call below the node starts before
it. -/
theorem WellFormed.prefixed {n o : Node} (h : n.WellFormed) (ho : n.prefixedOperand? = some o) :
    o ∈ n.descendants ∧
      ∀ b ∈ n.descendants, b.kind = .callExpression → o.start ≤ b.start := by
  obtain ⟨hk, -, f, hf, hfo⟩ := prefixedOperand?_eq_some ho
  have hfc := mem_children_of_child? hf
  have hoc := mem_children_of_operand? hfo
  have hof := (h.child hfc).within (mem_descendants_of_child hoc)
  refine ⟨mem_descendants_of_mem hfc (mem_preorder.mpr (Or.inr (mem_descendants_of_child hoc))),
    ?_⟩
  intro b hb hbk
  have hstart : f.start = n.start := by
    have := h.fits.function hk
    rw [hf] at this
    exact Option.some.inj this
  rcases h.mem_preorder_or_after hfc hstart hb with hbf | hafter
  · rcases mem_preorder.mp hbf with rfl | hbf'
    · rcases kind_of_operand? hfo with hk' | hk' <;> simp [hk'] at hbk
    · exact (h.child hfc).operand_le hfo hbf' hbk
  · omega

/-! ## The start of a chain and the calls below it -/

/-- A chain starts inside its node. -/
theorem WellFormed.callStart_bounds {n : Node} (h : n.WellFormed) (hne : n.start < n.stop) :
    n.start ≤ n.callStart ∧ n.callStart < n.stop := by
  induction n using inductionOn with
  | node n ih =>
      rcases n.callStart_cases with ⟨o, ho, heq⟩ | ⟨m, hm, hs, heq⟩ | heq
      · have := h.within (h.prefixed ho).1
        omega
      · have hmc := mem_children_of_leftward? hm
        have hin := h.fits.inside m hmc
        have := ih m hmc (h.child hmc) (h.fits.nonempty m hmc)
        omega
      · omega

/-- A chain starts where a node starts. -/
theorem WellFormed.exists_callStart {n : Node} (h : n.WellFormed) :
    ∃ m ∈ n.preorder, n.callStart = m.start := by
  induction n using inductionOn with
  | node n ih =>
      rcases n.callStart_cases with ⟨o, ho, heq⟩ | ⟨m, hm, hs, heq⟩ | heq
      · exact ⟨o, mem_preorder.mpr (Or.inr (h.prefixed ho).1), heq⟩
      · have hmc := mem_children_of_leftward? hm
        obtain ⟨k, hk, hks⟩ := ih m hmc (h.child hmc)
        exact ⟨k, mem_preorder.mpr (Or.inr (mem_descendants_of_mem hmc hk)), heq.trans hks⟩
      · exact ⟨n, n.mem_preorder_self, heq⟩

/-- **No call of a tree starts before the tree's chain does.** Calls on the chain leave out the same
prefix; all others lie behind it. -/
theorem WellFormed.callStart_le {n b : Node} (h : n.WellFormed) (hne : n.start < n.stop)
    (hb : b ∈ n.preorder) (hbk : b.kind = .callExpression) : n.callStart ≤ b.callStart := by
  induction n using inductionOn with
  | node n ih =>
      rcases mem_preorder.mp hb with rfl | hbd
      · exact Nat.le_refl _
      have hbw := h.within hbd
      have hbs := ((h.of_mem_descendants hbd).callStart_bounds hbw.2.1).1
      rcases n.callStart_cases with ⟨o, ho, heq⟩ | ⟨m, hm, hs, heq⟩ | heq
      · have := (h.prefixed ho).2 b hbd hbk
        omega
      · have hmc := mem_children_of_leftward? hm
        have hmne := h.fits.nonempty m hmc
        rcases h.mem_preorder_or_after hmc hs hbd with hbm | hafter
        · rw [heq]
          exact ih m hmc (h.child hmc) hmne hbm
        · have := ((h.child hmc).callStart_bounds hmne).2
          omega
      · omega

end Node

end Promisify
