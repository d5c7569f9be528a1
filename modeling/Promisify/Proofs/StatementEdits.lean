import Promisify.Proofs.Pruning

set_option autoImplicit false

/-! # The edits of imports, statement by statement

The edits that make the imports of a file fit are recorded by purpose: first what is added, then what is
pruned. Here they are sorted by the statement they are made at. What is added goes to one statement, and
pruning an import stays between its start and the start of the next statement; so the edits of
one statement after another are the edits in the order in which they are taken.
-/

namespace Promisify

namespace SourceFile

variable {f : SourceFile} {n : Node} {d : ImportDecl} {required : NameSet}

/-- The edits that prune the import at a node. -/
def pruningAt (f : SourceFile) (n : Node) : List Edit :=
  match f.importDecl? n with
  | some d =>
      if d.moduleName == Vocabulary.operators then (f.pruneDecl f.unusedOperators d).edits else []
  | none => []

/-- Where the statement starts that missing names are added at. -/
def additionPlace (f : SourceFile) : Nat :=
  match f.target? with
  | some (d, _) => d.node.start
  | none => f.anchor

/-- The edits that add names at a node. -/
def additionsAt (f : SourceFile) (required : NameSet) (n : Node) : List Edit :=
  if n.start = f.additionPlace then (f.additions required).edits else []

/-- The edits that make the imports fit, as far as they are made at a node. -/
def editsAt (f : SourceFile) (required : NameSet) (n : Node) : List Edit :=
  f.additionsAt required n ++ f.pruningAt n

/-! ## Pruning at a statement -/

theorem pruningAt_of_operators (hd : f.importDecl? n = some d) (hm : d.moduleName = Vocabulary.operators) :
    f.pruningAt n = (f.pruneDecl f.unusedOperators d).edits := by
  simp [pruningAt, hd, hm]

theorem pruningAt_eq_nil (h : ∀ d, f.importDecl? n = some d → d.moduleName ≠ Vocabulary.operators) :
    f.pruningAt n = [] := by
  unfold pruningAt
  split
  · next d hd => rw [if_neg (by simpa using h d hd)]
  · rfl

/-- An import is a statement of a kind of its own. -/
theorem isStatement_of_importDecl? (hd : f.importDecl? n = some d) : n.kind.isStatement = true := by
  rw [(importDecl?_eq_some hd).kind]
  rfl

/-- The prunings are those at the statements. -/
theorem flatMap_pruningAt (f : SourceFile) :
    f.statements.flatMap f.pruningAt = f.prunings.flatMap ImportChange.edits := by
  rw [prunings_edits, importsFrom, imports, statements]
  induction f.root.children with
  | nil => rfl
  | cons n ns ih =>
      cases hd : f.importDecl? n with
      | none =>
          have hnone : f.pruningAt n = [] := pruningAt_eq_nil (by simp [hd])
          rw [List.filterMap_cons_none hd, ← ih, List.filter_cons]
          split
          · rw [List.flatMap_cons, hnone, List.nil_append]
          · rfl
      | some d =>
          rw [List.filterMap_cons_some hd, List.filter_cons, if_pos (isStatement_of_importDecl? hd),
            List.flatMap_cons, ih]
          by_cases hm : d.moduleName = Vocabulary.operators
          · rw [List.filter_cons_of_pos (by simpa using hm), List.flatMap_cons,
              pruningAt_of_operators hd hm]
          · rw [List.filter_cons_of_neg (by simpa using hm), pruningAt_eq_nil, List.nil_append]
            intro e he
            rw [hd] at he
            cases he
            exact hm

/-! ## Adding at a statement -/

/-- How names are added at a statement: to the braces of an import, or with an import in front of it. -/
inductive AddsAt (f : SourceFile) (required : NameSet) (n : Node) : List Edit → Prop
  | nothing (h : f.missing required = []) : AddsAt f required n []
  | extended {d : ImportDecl} {b : Node} (h : f.missing required ≠ []) (ht : f.target? = some (d, b))
      (hd : f.importDecl? n = some d) (hm : d.moduleName = Vocabulary.streams)
      (htype : d.typeOnly = false) (hb : d.named = some b) :
      AddsAt f required n [extension d b (f.missing required)]
  | inserted (h : f.missing required ≠ []) (ht : f.target? = none) : AddsAt f required n
      [.insertion n.start (f.importLayout.statement Vocabulary.streams (f.missing required))]

theorem mem_statements_of_mem_importsFrom {moduleName : Text} (h : d ∈ f.importsFrom moduleName) :
    ∃ n ∈ f.statements, f.importDecl? n = some d ∧ d.node = n ∧ d.moduleName = moduleName := by
  obtain ⟨hd, hm⟩ := List.mem_filter.mp h
  obtain ⟨n, hn, hd⟩ := List.mem_filterMap.mp hd
  have hat := importDecl?_eq_some hd
  exact ⟨n, hat.mem_statements hn, hd, hat.node, by simpa using hm⟩

/-- A new import goes in front of an import of operators or of the first statement. -/
theorem exists_anchor (hne : f.statements ≠ []) : ∃ n ∈ f.statements, n.start = f.anchor ∧
    ((∃ d, f.importDecl? n = some d ∧ d.moduleName = Vocabulary.operators) ∨
      f.statements.head? = some n) := by
  unfold anchor
  cases hops : f.importsFrom Vocabulary.operators with
  | cons d ds =>
      obtain ⟨n, hn, hd, hnode, hm⟩ := mem_statements_of_mem_importsFrom
        (show d ∈ f.importsFrom Vocabulary.operators by rw [hops]; exact List.mem_cons_self)
      exact ⟨n, hn, by rw [← hnode], Or.inl ⟨d, hd, hm⟩⟩
  | nil =>
      obtain ⟨n, ns, hns⟩ := List.exists_cons_of_ne_nil hne
      have hfirst : f.firstStatement? = some n.start := by
        have hhead : f.root.children.find? (fun n => n.kind.isStatement) = some n := by
          rw [← List.head?_filter]
          exact congrArg List.head? hns
        rw [firstStatement?]
        show Option.map _ (f.root.children.find? fun n => n.kind.isStatement) = _
        rw [hhead]
        rfl
      rw [hns]
      exact ⟨n, List.mem_cons_self, by rw [hfirst]; rfl, Or.inr rfl⟩

/-- **What is added is added at one statement.** -/
theorem exists_addsAt (required : NameSet) (hne : f.statements ≠ []) : ∃ n ∈ f.statements,
    n.start = f.additionPlace ∧ AddsAt f required n (f.additions required).edits := by
  have hcase := (f.additions_cases required).1
  generalize (f.additions required).edits = es at hcase
  unfold additionPlace
  cases ht : f.target? with
  | some target =>
      obtain ⟨d, b⟩ := target
      obtain ⟨hd, htype, hb⟩ := target?_eq_some ht
      obtain ⟨n, hn, hdecl, hnode, hm⟩ := mem_statements_of_mem_importsFrom hd
      refine ⟨n, hn, by rw [← hnode], ?_⟩
      cases hcase with
      | nothing hmissing => exact .nothing hmissing
      | extended hmissing ht' =>
          cases ht.symm.trans ht'
          exact .extended hmissing ht hdecl hm htype hb
      | inserted _ ht' => cases ht.symm.trans ht'
  | none =>
      obtain ⟨n, hn, hplace, -⟩ := exists_anchor hne
      refine ⟨n, hn, hplace, ?_⟩
      cases hcase with
      | nothing hmissing => exact .nothing hmissing
      | extended _ ht' => cases ht.symm.trans ht'
      | inserted hmissing _ =>
          rw [← hplace]
          exact .inserted hmissing ht

/-! ## Edits stay at their statement -/

/-- The edit stays between the start of a statement and the start of the next one. -/
structure StaysAt (f : SourceFile) (n : Node) (e : Edit) : Prop where
  start : n.start ≤ e.span.start
  ordered : e.span.start ≤ e.span.stop
  stop : e.span.stop ≤ f.pastLineBreak n.stop
  borders : f.text.IsBorder e.span.start ∧ f.text.IsBorder e.span.stop

theorem AddsAt.staysAt {es : List Edit} (h : AddsAt f required n es) (hf : f.Importable)
    (hn : n ∈ f.statements) : ∀ e ∈ es, StaysAt f n e ∧ e.span.stop ≤ n.stop := by
  have hchild : n ∈ f.root.children := (List.mem_filter.mp hn).1
  have hwf := hf.wellFormed.tree.child hchild
  have hpast := f.le_pastLineBreak n.stop
  have hborder : ∀ m ∈ n.preorder, f.text.IsBorder m.start ∧ f.text.IsBorder m.stop := fun m hm =>
    hf.wellFormed.borders m (Node.preorder_trans
      (Node.mem_preorder.mpr (.inr (Node.mem_descendants_of_child hchild))) hm)
  intro e he
  cases h with
  | nothing => cases he
  | @extended d b _ _ hd _ _ hb =>
      rw [List.mem_singleton.mp he]
      have hat := importDecl?_eq_some hd
      obtain ⟨hbn, hstart, hlt, hstop⟩ := hat.braces_within hwf hb
      unfold extension
      cases hlast : d.names.getLast? with
      | some last =>
          obtain ⟨hmem, hbounds⟩ := hat.name_within hwf (List.mem_of_getLast? hlast)
          have hin := hbounds b hb
          refine ⟨⟨?_, Nat.le_refl _, ?_, (hborder _ hmem).2, (hborder _ hmem).2⟩, ?_⟩
          · show n.start ≤ last.node.stop
            omega
          · show last.node.stop ≤ f.pastLineBreak n.stop
            omega
          · show last.node.stop ≤ n.stop
            omega
      | none =>
          refine ⟨⟨hstart, Nat.le_of_lt hlt, ?_, hborder b hbn⟩, hstop⟩
          show b.stop ≤ f.pastLineBreak n.stop
          omega
  | inserted =>
      rw [List.mem_singleton.mp he]
      have hlt := hf.wellFormed.tree.fits.nonempty n hchild
      have hends := (hborder n n.mem_preorder_self).1
      refine ⟨⟨Nat.le_refl _, Nat.le_refl _, ?_, hends, hends⟩, Nat.le_of_lt hlt⟩
      show n.start ≤ f.pastLineBreak n.stop
      omega

/-- Names are added behind the start of an import. -/
theorem start_lt_extension (hf : f.Importable) (hn : n ∈ f.statements) {b : Node}
    (hd : f.importDecl? n = some d) (hb : d.named = some b) (names : List Text) :
    n.start < (extension d b names).span.stop := by
  have hwf := hf.wellFormed.tree.child (List.mem_filter.mp hn).1
  have hat := importDecl?_eq_some hd
  obtain ⟨-, hstart, hlt, -⟩ := hat.braces_within hwf hb
  unfold extension
  cases hlast : d.names.getLast? with
  | some last =>
      have hin := (hat.name_within hwf (List.mem_of_getLast? hlast)).2 b hb
      show n.start < last.node.stop
      omega
  | none =>
      show n.start < b.stop
      omega

theorem pruningAt_staysAt (hf : f.Importable) (hn : n ∈ f.statements) :
    ((f.pruningAt n).Pairwise fun a b => a.span.stop ≤ b.span.start) ∧
      ∀ e ∈ f.pruningAt n, StaysAt f n e ∧ e.span.start < e.span.stop := by
  have hchild : n ∈ f.root.children := (List.mem_filter.mp hn).1
  unfold pruningAt
  split
  · next d hd =>
      split
      · obtain ⟨hpair, hbounds⟩ := (importDecl?_eq_some hd).prune_bounds hchild hf
        refine ⟨hpair, ?_⟩
        intro e he
        obtain ⟨-, hstart, hlt, hstop, hborders⟩ := hbounds e he
        exact ⟨⟨hstart, Nat.le_of_lt hlt, hstop, hborders⟩, hlt⟩
      · exact ⟨List.Pairwise.nil, by simp⟩
  · exact ⟨List.Pairwise.nil, by simp⟩

theorem statements_pairwise (hf : f.Importable) :
    f.statements.Pairwise fun a b => a.start < a.stop ∧ a.stop ≤ b.start := by
  have hordered : f.root.children.Pairwise fun a b => a.start < a.stop ∧ a.stop ≤ b.start := by
    refine hf.wellFormed.tree.fits.ordered.imp_of_mem ?_
    intro a b ha _ hab
    exact ⟨hf.wellFormed.tree.fits.nonempty a ha, hab⟩
  exact hordered.sublist List.filter_sublist

/-- A statement is known by its start. -/
theorem eq_of_start (hf : f.Importable) {m : Node} (hm : m ∈ f.statements) (hn : n ∈ f.statements)
    (h : m.start = n.start) : m = n := by
  by_contra hne
  have happart : f.statements.Pairwise fun a b => a.start ≠ b.start :=
    (statements_pairwise hf).imp fun hab heq => by omega
  have hsymm : Std.Symm fun a b : Node => a.start ≠ b.start := ⟨fun _ _ h => h.symm⟩
  exact happart.forall hm hn hne h

/-- What is added at a statement. -/
theorem additionsAt_cases (required : NameSet) (hf : f.Importable) (hn : n ∈ f.statements) :
    (n.start ≠ f.additionPlace ∧ f.additionsAt required n = []) ∨
      n.start = f.additionPlace ∧ AddsAt f required n (f.additionsAt required n) := by
  by_cases hplace : n.start = f.additionPlace
  · obtain ⟨m, hm, hmplace, hadds⟩ := exists_addsAt required (List.ne_nil_of_mem hn)
    rw [eq_of_start hf hm hn (hmplace.trans hplace.symm)] at hadds
    rw [additionsAt, if_pos hplace]
    exact Or.inr ⟨hplace, hadds⟩
  · exact Or.inl ⟨hplace, if_neg hplace⟩

/-- The edits at one statement come in order. -/
theorem editsAt_staysAt (required : NameSet) (hf : f.Importable) (hn : n ∈ f.statements) :
    ((f.editsAt required n).Pairwise fun a b => a.span.stop ≤ b.span.start) ∧
      ∀ e ∈ f.editsAt required n, StaysAt f n e := by
  obtain ⟨hpair, hprune⟩ := pruningAt_staysAt hf hn
  unfold editsAt
  rcases additionsAt_cases required hf hn with ⟨-, hnone⟩ | ⟨-, hadds⟩
  · rw [hnone, List.nil_append]
    exact ⟨hpair, fun e he => (hprune e he).1⟩
  · have hstays := hadds.staysAt hf hn
    generalize f.additionsAt required n = es at hadds hstays ⊢
    refine ⟨?_, ?_⟩
    · cases hadds with
      | nothing => exact hpair
      | @extended d b _ _ hd hm =>
          rw [pruningAt_eq_nil, List.append_nil]
          · exact List.pairwise_singleton _ _
          · intro e he
            cases hd.symm.trans he
            rw [hm]
            decide
      | inserted =>
          refine List.pairwise_cons.mpr ⟨?_, hpair⟩
          intro e he
          exact (hprune e he).1.start
    · intro e he
      rcases List.mem_append.mp he with he | he
      · exact (hstays e he).1
      · exact (hprune e he).1

/-- The edits at one statement after another come in order. -/
theorem editsAt_pairwise (required : NameSet) (hf : f.Importable) :
    (f.statements.flatMap (f.editsAt required)).Pairwise fun a b => a.span.stop ≤ b.span.start := by
  rw [List.pairwise_flatMap]
  refine ⟨fun n hn => (editsAt_staysAt required hf hn).1, ?_⟩
  refine (statements_pairwise hf).imp_of_mem ?_
  intro m n hm hn hmn a ha b hb
  calc a.span.stop
    _ ≤ f.pastLineBreak m.stop := ((editsAt_staysAt required hf hm).2 a ha).stop
    _ ≤ n.start := pastLineBreak_le hmn.2 (hf.solid n hn)
    _ ≤ b.span.start := ((editsAt_staysAt required hf hn).2 b hb).start

/-! ## Edits in the order in which they are taken -/

/-- Where the additions stand among the edits of the statements. -/
theorem exists_editsAt_eq (required : NameSet) (hf : f.Importable) (hne : f.statements ≠ []) :
    ∃ as bs, f.prunings.flatMap ImportChange.edits = as ++ bs ∧
      f.statements.flatMap (f.editsAt required) = as ++ ((f.additions required).edits ++ bs) := by
  obtain ⟨n, hn, hplace, -⟩ := exists_addsAt required hne
  obtain ⟨ms, ns, hns⟩ := List.append_of_mem hn
  have hpair := statements_pairwise hf
  rw [hns, List.pairwise_append, List.pairwise_cons] at hpair
  obtain ⟨-, ⟨hbehind, -⟩, hfront⟩ := hpair
  have hother : ∀ m, m.start ≠ n.start → f.editsAt required m = f.pruningAt m := by
    intro m hm
    rw [editsAt, additionsAt, if_neg (by rw [← hplace]; exact hm), List.nil_append]
  have hms : ms.flatMap (f.editsAt required) = ms.flatMap f.pruningAt := by
    refine List.flatMap_congr fun m hm => hother m ?_
    have := hfront m hm n List.mem_cons_self
    omega
  have hns' : ns.flatMap (f.editsAt required) = ns.flatMap f.pruningAt := by
    refine List.flatMap_congr fun m hm => hother m ?_
    have := hbehind m hm
    omega
  refine ⟨ms.flatMap f.pruningAt, f.pruningAt n ++ ns.flatMap f.pruningAt, ?_, ?_⟩
  · rw [← flatMap_pruningAt, hns, List.flatMap_append, List.flatMap_cons]
  · rw [hns, List.flatMap_append, List.flatMap_cons, hms, hns', editsAt, additionsAt, if_pos hplace,
      List.append_assoc]

/-- **The edits are taken statement by statement.** -/
theorem sorted_importChange (required : NameSet) (hf : f.Importable) (hne : f.statements ≠ []) :
    Edits.sorted (f.importChange required).edits = f.statements.flatMap (f.editsAt required) := by
  obtain ⟨as, bs, hprunings, hedits⟩ := exists_editsAt_eq required hf hne
  have hpair := editsAt_pairwise required hf
  have hord : ∀ e ∈ f.statements.flatMap (f.editsAt required), e.span.start ≤ e.span.stop := by
    intro e he
    obtain ⟨n, hn, he⟩ := List.mem_flatMap.mp he
    exact ((editsAt_staysAt required hf hn).2 e he).ordered
  have hprunes := mem_prunings hf
  rw [hprunings] at hprunes
  rw [importChange_edits, hprunings]
  rw [hedits] at hpair hord ⊢
  have hcase := (f.additions_cases required).1
  generalize (f.additions required).edits = es at hcase hpair hord ⊢
  have hsingle : ∀ e : Edit, (as ++ ([e] ++ bs)).Pairwise (fun a b => a.span.stop ≤ b.span.start) →
      (∀ a ∈ as ++ ([e] ++ bs), a.span.start ≤ a.span.stop) →
      Edits.sorted ([e] ++ (as ++ bs)) = as ++ ([e] ++ bs) := fun e hpair hord =>
    Edits.sorted_cons_append hord (fun a ha => (hprunes a (List.mem_append_left bs ha)).2.1) hpair
  cases hcase with
  | nothing => exact Edits.sorted_of_apart hord hpair
  | extended => exact hsingle _ hpair hord
  | inserted => exact hsingle _ hpair hord

/-- Edits that turn the text into another one, statement by statement. -/
theorem applied?_of_patched (hf : f.Importable) (hne : f.statements ≠ []) {o : Text}
    (h : Patched 0 f.text (f.statements.flatMap (f.editsAt required)) o) :
    (f.importChange required).edits.applied? f.text = some o := by
  rw [Edits.applied?, sorted_importChange required hf hne]
  exact h.applyFrom_eq f.text.from_zero

/-- **The edits can all be applied.** -/
theorem exists_patched_editsAt (required : NameSet) (hf : f.Importable) :
    ∃ o, Patched 0 f.text (f.statements.flatMap (f.editsAt required)) o := by
  refine exists_patched f.text.from_zero ?_ (editsAt_pairwise required hf)
  intro e he
  obtain ⟨n, hn, he⟩ := List.mem_flatMap.mp he
  have hstays := (editsAt_staysAt required hf hn).2 e he
  exact ⟨Nat.zero_le _, hstays.ordered, hstays.borders⟩

end SourceFile

end Promisify
