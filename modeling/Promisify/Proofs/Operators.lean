import Promisify.Proofs.Conversion
import Promisify.Proofs.Parsing

set_option autoImplicit false

/-! # Operators around a site

Type arguments bind weaker than most operators, so an operator written in front of a chain may end up
inside it, on the left edge of the tree of the chain. Of these operators the call of a helper leaves
out the first one only, and only when it is a prefix that is called with type arguments.
-/

namespace Promisify

namespace Node

variable {n m o c : Node}

/-! ## The left edge of an expression -/

/-- The next node down the left edge of an expression: what is called or accessed, or the first
operand. -/
def inward? (n : Node) : Option Node :=
  match n.kind with
  | .callExpression => n.child? .function
  | .memberExpression | .subscriptExpression => n.child? .object
  | .nonNullExpression | .awaitExpression | .binaryExpression => n.codeParts.head?
  | .unaryExpression => n.child? .argument
  | _ => none

/-- The left edge of an expression from the node on, at most `fuel` nodes of it. -/
def edgeFrom : Nat → Node → List Node
  | 0, _ => []
  | fuel + 1, n => n :: (n.inward?.map (edgeFrom fuel)).getD []

/-- The nodes down the left edge of an expression. -/
def leftEdge (n : Node) : List Node := edgeFrom n.weight n

/-- `await` or a prefix operator with its operand. -/
def isPrefix (n : Node) : Bool := n.kind == .awaitExpression || n.kind == .unaryExpression

/-- An operation with `await`, a prefix operator or a binary operator. -/
def isOperation (n : Node) : Bool := n.isPrefix || n.kind == .binaryExpression

/-- The operations down the left edge of an expression, the outermost first. -/
def operations (n : Node) : List Node := n.leftEdge.filter isOperation

/-- `c` calls the prefix operation `o` with type arguments. -/
structure CallsPrefix (c o : Node) : Prop where
  call : c.kind = .callExpression
  generic : (c.child? .typeArguments).isSome = true
  function : c.child? .function = some o
  isPrefix : o.isPrefix = true

theorem mem_children_of_inward? (h : n.inward? = some m) : m ∈ n.children := by
  unfold inward? at h
  split at h
  · exact mem_children_of_child? h
  · exact mem_children_of_child? h
  · exact mem_children_of_child? h
  · exact mem_children_of_head? h
  · exact mem_children_of_head? h
  · exact mem_children_of_head? h
  · exact mem_children_of_child? h
  · simp at h

/-- With fuel for the whole tree, more fuel changes nothing. -/
theorem edgeFrom_congr (fuel fuel' : Nat) (n : Node) (h : n.weight ≤ fuel)
    (h' : n.weight ≤ fuel') : edgeFrom fuel n = edgeFrom fuel' n := by
  induction fuel generalizing fuel' n with
  | zero => cases n; simp [weight] at h
  | succ fuel ih =>
      cases fuel' with
      | zero => cases n; simp [weight] at h'
      | succ fuel' =>
          rw [edgeFrom, edgeFrom]
          cases hm : n.inward? with
          | none => rfl
          | some m =>
              have hlt := weight_lt_of_mem_children (mem_children_of_inward? hm)
              rw [Option.map_some, Option.map_some, ih fuel' m (by omega) (by omega)]

theorem leftEdge_of_inward? (h : n.inward? = some m) : n.leftEdge = n :: m.leftEdge := by
  have hlt := weight_lt_of_mem_children (mem_children_of_inward? h)
  have hw : n.weight = (n.weight - 1) + 1 := by omega
  rw [leftEdge, hw, edgeFrom, h, Option.map_some, Option.getD_some,
    edgeFrom_congr (n.weight - 1) m.weight m (by omega) (Nat.le_refl _), leftEdge]

theorem leftEdge_of_end (h : n.inward? = none) : n.leftEdge = [n] := by
  have hw : n.weight = (n.weight - 1) + 1 := by
    cases n
    simp [weight]
  rw [leftEdge, hw, edgeFrom, h]
  rfl

theorem mem_preorder_of_leftEdge (h : m ∈ n.leftEdge) : m ∈ n.preorder := by
  induction n using inductionOn with
  | node n ih =>
      cases hk : n.inward? with
      | none =>
          rw [leftEdge_of_end hk] at h
          rw [List.mem_singleton.mp h]
          exact n.mem_preorder_self
      | some k =>
          have hc := mem_children_of_inward? hk
          rw [leftEdge_of_inward? hk] at h
          rcases List.mem_cons.mp h with rfl | h
          · exact m.mem_preorder_self
          · exact mem_preorder.mpr (Or.inr (mem_descendants_of_mem hc (ih k hc h)))

theorem weight_le_of_mem_preorder (h : m ∈ n.preorder) : m.weight ≤ n.weight := by
  induction n using inductionOn with
  | node n ih =>
      rcases mem_preorder.mp h with rfl | h
      · exact Nat.le_refl _
      · obtain ⟨k, hk, hm⟩ := mem_descendants.mp h
        exact Nat.le_of_lt (Nat.lt_of_le_of_lt (ih k hk hm) (weight_lt_of_mem_children hk))

/-- The trees get smaller down the left edge. -/
theorem leftEdge_shrinks (n : Node) : n.leftEdge.Pairwise fun a b => b.weight < a.weight := by
  induction n using inductionOn with
  | node n ih =>
      cases hk : n.inward? with
      | none =>
          rw [leftEdge_of_end hk]
          exact List.pairwise_singleton _ _
      | some k =>
          have hc := mem_children_of_inward? hk
          rw [leftEdge_of_inward? hk]
          refine List.pairwise_cons.mpr ⟨?_, ih k hc⟩
          intro m hm
          exact Nat.lt_of_le_of_lt (weight_le_of_mem_preorder (mem_preorder_of_leftEdge hm))
            (weight_lt_of_mem_children hc)

/-! ## Operations on the left edge -/

theorem inward?_of_leftward? (h : n.leftward? = some m) :
    n.inward? = some m ∧ n.isOperation = false := by
  unfold leftward? at h
  unfold inward? isOperation isPrefix
  split at h <;> simp_all

theorem operations_of_leftward? (h : n.leftward? = some m) : n.operations = m.operations := by
  obtain ⟨hin, hop⟩ := inward?_of_leftward? h
  rw [operations, leftEdge_of_inward? hin, List.filter_cons, hop]
  rfl

theorem operations_of_operand? (h : n.operand? = some o) :
    n.operations = n :: o.operations := by
  have hin : n.inward? = some o ∧ n.isOperation = true := by
    unfold operand? at h
    unfold inward? isOperation isPrefix
    split at h <;> simp_all
  rw [operations, leftEdge_of_inward? hin.1, List.filter_cons, hin.2]
  rfl

theorem mem_leftEdge_of_operations (h : o ∈ n.operations) : o ∈ n.leftEdge :=
  (List.mem_filter.mp h).1

/-- A chain starts with the next node down its left edge. -/
theorem WellFormed.start_of_leftward? (h : n.WellFormed) (hn : n.Edged)
    (hm : n.leftward? = some m) : m.start = n.start := by
  have hfits := h.fits
  unfold leftward? at hm
  split at hm
  · next hk => simpa [hm] using hfits.function hk
  · next hk => simpa [hm] using hfits.object (Or.inl hk)
  · next hk => simpa [hm] using hfits.object (Or.inr hk)
  · next hk => simpa [hm] using hn.leading (Or.inl hk)
  · simp at hm

/-- A prefix that is called with type arguments is left out of the chain. -/
theorem CallsPrefix.prefixedOperand? (h : c.CallsPrefix o) (ho : o.Edged) :
    ∃ k, c.prefixedOperand? = some k ∧ o.operand? = some k ∧ o.start < k.start := by
  have hk : o.kind = .awaitExpression ∨ o.kind = .unaryExpression := by
    simpa [Node.isPrefix] using h.isPrefix
  obtain ⟨k, hk', hlt⟩ := ho.prefixed hk
  refine ⟨k, ?_, hk', hlt⟩
  unfold Node.prefixedOperand?
  rw [h.call, h.generic, h.function]
  exact hk'

theorem callsPrefix_of_prefixedOperand? (h : n.prefixedOperand? = some m) :
    ∃ f, n.CallsPrefix f ∧ f.operand? = some m := by
  obtain ⟨hcall, hgeneric, f, hf, hm⟩ := prefixedOperand?_eq_some h
  refine ⟨f, ⟨hcall, hgeneric, hf, ?_⟩, hm⟩
  rcases kind_of_operand? hm with hk | hk <;> simp [isPrefix, hk]

theorem mem_leftEdge_self (n : Node) : n ∈ n.leftEdge := by
  cases hk : n.inward? with
  | none => simp [leftEdge_of_end hk]
  | some k => simp [leftEdge_of_inward? hk]

/-- Where a chain ends, an operation goes on, or the edge ends too. -/
theorem head?_operations_of_end (h : n.leftward? = none) (ho : o ∈ n.operations) :
    n.operations.head? = some n := by
  cases hop : n.isOperation with
  | true =>
      cases hk : n.inward? with
      | none => simp [operations, leftEdge_of_end hk, hop]
      | some k => simp [operations, leftEdge_of_inward? hk, hop]
  | false =>
      have hend : n.inward? = none := by
        unfold leftward? at h
        unfold isOperation isPrefix at hop
        unfold inward?
        split at h <;> simp_all
      rw [operations, leftEdge_of_end hend, List.filter_cons, hop] at ho
      simp at ho

theorem WellFormed.start_le_of_operations (h : n.WellFormed) (ho : o ∈ n.operations) :
    n.start ≤ o.start :=
  (h.within_of_mem_preorder (mem_preorder_of_leftEdge (mem_leftEdge_of_operations ho))).1

/-- **The operation that a chain leaves out.** Of the operations down its left edge a chain starts
behind one at most: the outermost, when it is a prefix called with type arguments. -/
theorem WellFormed.start_lt_callStart_iff (h : n.WellFormed) (hedge : ∀ m ∈ n.preorder, m.Edged)
    (ho : o ∈ n.operations) :
    o.start < n.callStart ↔
      n.operations.head? = some o ∧ ∃ c ∈ n.leftEdge, c.CallsPrefix o := by
  induction n using inductionOn with
  | node n ih =>
      have hbelow : ∀ k ∈ n.children, ∀ m ∈ k.preorder, m.Edged := fun k hk m hm =>
        hedge m (mem_preorder.mpr (Or.inr (mem_descendants_of_mem hk hm)))
      cases hp : n.prefixedOperand? with
      | some k =>
          -- the chain starts with the operand of the prefix
          obtain ⟨f, hf, hk⟩ := callsPrefix_of_prefixedOperand? hp
          have hfc := mem_children_of_child? hf.function
          obtain ⟨k', hp', -, hlt⟩ := hf.prefixedOperand? (hbelow f hfc f f.mem_preorder_self)
          obtain rfl : k = k' := Option.some.inj (hp.symm.trans hp')
          have hl : n.leftward? = some f := by
            unfold leftward?
            rw [hf.call]
            exact hf.function
          have hops : n.operations = f :: k.operations := by
            rw [operations_of_leftward? hl, operations_of_operand? hk]
          rw [callStart_of_prefixed hp, hops, List.head?_cons]
          rw [hops] at ho
          rcases List.mem_cons.mp ho with rfl | ho
          · exact iff_of_true hlt ⟨rfl, n, n.mem_leftEdge_self, hf⟩
          · have hle := ((h.child hfc).child (mem_children_of_operand? hk)).start_le_of_operations ho
            refine iff_of_false (Nat.not_lt.mpr hle) ?_
            rintro ⟨heq, -⟩
            rw [Option.some.inj heq] at hlt
            omega
      | none =>
          cases hm : n.leftward? with
          | some m =>
              have hmc := mem_children_of_leftward? hm
              have hstart := h.start_of_leftward? (hedge n n.mem_preorder_self) hm
              have hops := operations_of_leftward? hm
              have hcut : ¬ n.CallsPrefix o := by
                intro hn
                have hoc := mem_children_of_child? hn.function
                obtain ⟨k, hk, -⟩ := hn.prefixedOperand? (hbelow o hoc o o.mem_preorder_self)
                rw [hp] at hk
                simp at hk
              rw [hops] at ho
              rw [callStart_of_leftward hp hm hstart, hops,
                leftEdge_of_inward? (inward?_of_leftward? hm).1,
                ih m hmc (h.child hmc) (hbelow m hmc) ho]
              simp [hcut]
          | none =>
              have hstart : n.callStart = n.start := callStart_of_end hp (by simp [hm])
              rw [hstart]
              refine iff_of_false (Nat.not_lt.mpr (h.start_le_of_operations ho)) ?_
              rintro ⟨heq, c, hc, hco⟩
              rw [head?_operations_of_end hm ho, Option.some.injEq] at heq
              subst heq
              -- no node of the edge is below itself
              have hlt := weight_lt_of_mem_children (mem_children_of_child? hco.function)
              have hle := weight_le_of_mem_preorder (mem_preorder_of_leftEdge hc)
              omega

/-- All operations are left out when there is none, or one only and the chain starts behind it. -/
theorem WellFormed.forall_start_lt_iff (h : n.WellFormed) (hedge : ∀ m ∈ n.preorder, m.Edged) :
    (∀ o ∈ n.operations, o.start < n.callStart) ↔
      n.operations = [] ∨ ∃ c ∈ n.leftEdge, ∃ o, c.CallsPrefix o ∧ n.operations = [o] := by
  have hiff := fun o => h.start_lt_callStart_iff hedge (o := o)
  have hshrinks : n.operations.Pairwise fun a b => b.weight < a.weight :=
    n.leftEdge_shrinks.sublist List.filter_sublist
  constructor
  · intro hall
    cases hops : n.operations with
    | nil => exact Or.inl rfl
    | cons o os =>
        rw [hops] at hall hiff hshrinks
        obtain ⟨-, c, hc, hco⟩ := (hiff o List.mem_cons_self).mp (hall o List.mem_cons_self)
        refine Or.inr ⟨c, hc, o, hco, ?_⟩
        cases os with
        | nil => rfl
        | cons k ks =>
            -- the second operation would be the outermost, too
            have hk : k ∈ o :: k :: ks := List.mem_cons_of_mem o List.mem_cons_self
            obtain ⟨heq, -⟩ := (hiff k hk).mp (hall k hk)
            have hlt := (List.pairwise_cons.mp hshrinks).1 k List.mem_cons_self
            rw [Option.some.inj heq] at hlt
            omega
  · rintro (hnone | ⟨c, hc, o, hco, hone⟩) k hk
    · rw [hnone] at hk
      simp at hk
    · refine (hiff k hk).mpr ?_
      rw [hone, List.mem_singleton] at hk
      rw [hone, hk]
      exact ⟨rfl, c, hc, hco⟩

end Node

/-! ## Operations and helpers -/

namespace SourceFile

/-- **Which operations stay outside a helper.** Of the operations down the left edge of a site's
call only the outermost can start before the site, and it does when it is `await` or a prefix
operator that is called with type arguments. So all of them stay outside the helper exactly when
there is none, or one only and that is so called. -/
theorem operations_stay_outside_iff {d : Dialect} {t : Text} {f : SourceFile}
    (h : parse? d t = .ok f) {s : Site} (hs : s ∈ f.sites) :
    (∀ o ∈ s.call.operations, o.start < s.start ↔
      s.call.operations.head? = some o ∧ ∃ c ∈ s.call.leftEdge, c.CallsPrefix o) ∧
    ((∀ o ∈ s.call.operations, o.start < s.start) ↔
      s.call.operations = [] ∨
        ∃ c ∈ s.call.leftEdge, ∃ o, c.CallsPrefix o ∧ s.call.operations = [o]) := by
  obtain ⟨n, hn, hns⟩ := mem_sites.mp hs
  have hat := siteAt?_eq_some hns
  have hwf : n.WellFormed := (parse?_wellFormed h).tree.of_mem_preorder hn
  have hedge : ∀ m ∈ n.preorder, m.Edged := fun m hm =>
    parse?_edged h m (Node.preorder_trans hn hm)
  rw [hat.start, hat.call]
  exact ⟨fun o ho => hwf.start_lt_callStart_iff hedge ho, hwf.forall_start_lt_iff hedge⟩

set_option maxRecDepth 100000 in
/-- Two prefixes, of which the inner one ends up in the argument, and a single one that does not. -/
theorem operations_around_generic_calls :
    ∃ f, parse? .typeScript
        "!await a.f<T>().toPromise(), await b.g<U>(c)!.pipe(take(1)).toPromise();".toList = .ok f ∧
      ∃ s ∈ f.sites, ∃ s' ∈ f.sites,
        (s.start = 1 ∧ s.call.operations.map Node.start = [0, 1] ∧
          ¬ ∃ c ∈ s.call.leftEdge, ∃ o, c.CallsPrefix o ∧ s.call.operations = [o]) ∧
        s'.start = 35 ∧ s'.call.operations.map Node.start = [29] ∧
          ∃ c ∈ s'.call.leftEdge, ∃ o, c.CallsPrefix o ∧ s'.call.operations = [o] := by
  obtain ⟨f, hf, hsites⟩ := exists_of_parse
    (d := .typeScript)
    (t := "!await a.f<T>().toPromise(), await b.g<U>(c)!.pipe(take(1)).toPromise();".toList)
    (fun f => (f.sites.map fun s => (s.start, s.call.operations.map Node.start)) =
      [(1, [0, 1]), (35, [29])])
    (by decide +kernel) fun f hP => hP
  obtain ⟨s, rest, hs, hfirst, hrest⟩ := List.map_eq_cons_iff.mp hsites
  obtain ⟨s', rest', hs', hsecond, -⟩ := List.map_eq_cons_iff.mp hrest
  obtain ⟨hstart, hops⟩ := Prod.mk.inj hfirst
  obtain ⟨hstart', hops'⟩ := Prod.mk.inj hsecond
  have hmem : s ∈ f.sites := by simp [hs]
  have hmem' : s' ∈ f.sites := by simp [hs, hs']
  refine ⟨f, hf, s, hmem, s', hmem', ⟨hstart, hops, ?_⟩, hstart', hops', ?_⟩
  · intro hcalls
    have hin : 1 ∈ s.call.operations.map Node.start := by simp [hops]
    obtain ⟨o, ho, hone⟩ := List.mem_map.mp hin
    have hlt := (operations_stay_outside_iff hf hmem).2.mpr (Or.inr hcalls) o ho
    omega
  · refine ((operations_stay_outside_iff hf hmem').2.mp ?_).resolve_left ?_
    · intro o ho
      have hin := List.mem_map_of_mem (f := Node.start) ho
      rw [hops', List.mem_singleton] at hin
      omega
    · intro hnone
      simp [hnone] at hops'

set_option maxRecDepth 100000 in
/-- A binary operation that the call of the helper takes in. -/
theorem binary_operation_moves_inside :
    ∃ f, parse? .typeScript "b - x.f<A>().toPromise();\n".toList = .ok f ∧
      (∃ s ∈ f.sites, (∃ p, f.plan s = .ok p) ∧
        ∃ o ∈ s.call.operations, o.kind = .binaryExpression ∧ ¬ o.start < s.start) ∧
      f.conversion?.map Conversion.text = some "lastValueFrom(b - x.f<A>());\n".toList := by
  refine exists_of_parse
    (fun f => (f.sites.map fun s => (s.start, (f.plan s).toOption.isSome,
        s.call.operations.map fun o => (o.kind, o.start))) =
          [(0, true, [(.binaryExpression, 0)])] ∧
      f.conversion?.map Conversion.text = some "lastValueFrom(b - x.f<A>());\n".toList)
    (by decide +kernel) ?_
  rintro f ⟨hsites, htext⟩
  obtain ⟨s, rest, hs, hsite, -⟩ := List.map_eq_cons_iff.mp hsites
  obtain ⟨hstart, hplan, hops⟩ : s.start = 0 ∧ (f.plan s).toOption.isSome = true ∧
      (s.call.operations.map fun o => (o.kind, o.start)) = [(.binaryExpression, 0)] := by
    simpa using hsite
  obtain ⟨o, os, ho, hkind, -⟩ := List.map_eq_cons_iff.mp hops
  obtain ⟨p, hp⟩ := Option.isSome_iff_exists.mp hplan
  refine ⟨⟨s, by simp [hs], ⟨p, toOption_eq_some hp⟩, o, by simp [ho], ?_⟩, htext⟩
  obtain ⟨hbinary, hzero⟩ := Prod.mk.inj hkind
  exact ⟨hbinary, by omega⟩

end SourceFile

end Promisify
