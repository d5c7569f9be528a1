import Promisify.Proofs.EditSets
import Promisify.Proofs.StatementEdits

set_option autoImplicit false

/-! # What the edits of imports leave alone

The edits that make the imports of a file fit are all taken, and each of them stays inside the import it is
made at, but for the line break behind an import that is deleted and for a new import that is put in
between. So the text between the imports of the two modules is copied as it stands (`Framed`).

Inside an import that loses some of its names and keeps others, the names that are kept are copied with the
separator in front of them, and the first of them moves to the place of the first name
(`SourceFile.textWithout`).
-/

namespace Promisify

namespace SourceFile

variable {f : SourceFile} {n : Node} {d : ImportDecl} {required : NameSet} {unused : List Text}

/-! ## Stretches of a file -/

/-- The text between two offsets. -/
def between (f : SourceFile) (a b : Nat) : Text := (f.text.slice? a b).getD []

section Stretches

variable {a b c : Nat}

theorem slice?_between (hab : a ≤ b) (ha : f.text.IsBorder a) (hb : f.text.IsBorder b) :
    f.text.slice? a b = some (f.between a b) := by
  obtain ⟨m, hm⟩ := Option.isSome_iff_exists.mp (Text.slice?_isSome_iff.mpr ⟨hab, ha, hb⟩)
  rw [between, hm]
  rfl

theorem add_size_between (hab : a ≤ b) (ha : f.text.IsBorder a) (hb : f.text.IsBorder b) :
    a + Text.size (f.between a b) = b := by
  obtain ⟨-, -, -, -, hsize⟩ := Text.slice?_eq_some_iff.mp (slice?_between hab ha hb)
  exact hsize

theorem between_append (hab : a ≤ b) (hbc : b ≤ c) (ha : f.text.IsBorder a) (hb : f.text.IsBorder b)
    (hc : f.text.IsBorder c) : f.between a b ++ f.between b c = f.between a c := by
  have happend := Text.slice?_append (slice?_between hab ha hb) (slice?_between hbc hb hc)
  rw [slice?_between (Nat.le_trans hab hbc) ha hc] at happend
  exact (Option.some.inj happend).symm

end Stretches

/-! ## Cutting names out of an import -/

/-- The names behind the first one of a list that stay, each with the text in front of it up to the name
before it. -/
def laterNames (f : SourceFile) (unused : List Text) (names : List ImportedName) : Text :=
  ((names.zip names.tail).filter fun p => !unused.contains p.2.imported).flatMap fun p =>
    f.between p.1.node.stop p.2.node.start ++ f.textOf p.2.node

/-- The text of an import without the unused names in its braces, where a name stays: up to the first name
it is the text of the import, then comes the first name that stays, then the others that stay, and
behind the last name the text of the import again. -/
def textWithout (f : SourceFile) (unused : List Text) (d : ImportDecl) : Text :=
  match d.names, d.names.dropWhile fun x => unused.contains x.imported with
  | x :: xs, first :: later =>
      f.between d.node.start x.node.start ++ f.textOf first.node ++
        f.laterNames unused (first :: later) ++
          f.between ((x :: xs).getLast (List.cons_ne_nil x xs)).node.stop d.node.stop
  | _, _ => f.textOf d.node

/-- Names that follow one another, with their ends on borders of the text. -/
structure NamesInRow (f : SourceFile) (names : List ImportedName) : Prop where
  forward : ∀ x ∈ names, x.node.start ≤ x.node.stop
  borders : ∀ x ∈ names, f.text.IsBorder x.node.start ∧ f.text.IsBorder x.node.stop
  ordered : names.Pairwise fun x y => x.node.stop ≤ y.node.start

namespace NamesInRow

variable {x y : ImportedName} {names : List ImportedName}

theorem tail (h : NamesInRow f (x :: names)) : NamesInRow f names :=
  ⟨fun y hy => h.forward y (List.mem_cons_of_mem x hy),
    fun y hy => h.borders y (List.mem_cons_of_mem x hy), h.ordered.of_cons⟩

/-- The last name stands behind the first one, or is it. -/
theorem stop_le_last (h : NamesInRow f (x :: names)) :
    x.node.stop ≤ ((x :: names).getLast (List.cons_ne_nil _ _)).node.stop := by
  have hlast := List.getLast_mem (List.cons_ne_nil x names)
  rcases List.mem_cons.mp hlast with heq | hmem
  · rw [heq]
  · have hafter := (List.pairwise_cons.mp h.ordered).1 _ hmem
    have hforward := h.forward _ hlast
    omega

theorem last_border (h : NamesInRow f (x :: names)) :
    f.text.IsBorder ((x :: names).getLast (List.cons_ne_nil _ _)).node.stop :=
  (h.borders _ (List.getLast_mem _)).2

/-- Behind a name that stays, a name goes with the separator in front of it. -/
theorem patched_later (h : NamesInRow f (x :: names)) :
    Patched x.node.stop
      (f.between x.node.stop ((x :: names).getLast (List.cons_ne_nil _ _)).node.stop)
      (Edits.cuts (some x.node.span) true
        (names.map fun y => (y.node.span, unused.contains y.imported)))
      (f.laterNames unused (x :: names)) := by
  -- whether a name stays or goes, the next stretch starts where it stops
  induction names generalizing x with
  | nil =>
      have hborder := (h.borders x List.mem_cons_self).2
      have hnone : f.between x.node.stop x.node.stop = [] := by
        apply Text.eq_nil_of_size_eq_zero
        have := add_size_between (Nat.le_refl _) hborder hborder
        omega
      show Patched x.node.stop (f.between x.node.stop x.node.stop) [] []
      rw [hnone]
      exact .done _ _
  | cons y names ih =>
      have hrest := ih h.tail
      have hx := (h.borders x List.mem_cons_self).2
      obtain ⟨hstart, hstop⟩ := h.tail.borders y List.mem_cons_self
      have hxy := (List.pairwise_cons.mp h.ordered).1 y List.mem_cons_self
      have hforward := h.tail.forward y List.mem_cons_self
      have hsize := add_size_between (Nat.le_trans hxy hforward) hx hstop
      have hlast : (x :: y :: names).getLast (List.cons_ne_nil _ _) =
          (y :: names).getLast (List.cons_ne_nil _ _) := List.getLast_cons _
      rw [hlast, List.map_cons,
        ← between_append (Nat.le_trans hxy hforward) h.tail.stop_le_last hx hstop h.tail.last_border]
      cases hgone : unused.contains y.imported with
      | false =>
          have hlater : f.laterNames unused (x :: y :: names) =
              f.between x.node.stop y.node.stop ++ f.laterNames unused (y :: names) := by
            rw [← between_append hxy hforward hx hstart hstop]
            simp only [laterNames, List.tail_cons, List.zip_cons_cons]
            rw [List.filter_cons_of_pos (by simp only [hgone, Bool.not_false])]
            rfl
          rw [hlater, Edits.cuts_kept]
          refine Patched.prepend _ ?_
          rw [hsize]
          exact hrest
      | true =>
          have hlater : f.laterNames unused (x :: y :: names) = f.laterNames unused (y :: names) := by
            simp only [laterNames, List.tail_cons, List.zip_cons_cons]
            rw [List.filter_cons_of_neg (by simp only [hgone, Bool.not_true, Bool.false_eq_true,
              not_false_eq_true])]
          rw [hlater, Edits.cuts_behind]
          have hcut := Patched.cut (f.between x.node.stop y.node.stop) (by rw [hsize]; exact hrest)
          rw [hsize] at hcut
          exact hcut

/-- When the first name stays, nothing goes in front of it. -/
theorem patched_kept {first : ImportedName} {later : List ImportedName} (previous : Option Span)
    (h : NamesInRow f (x :: names)) (hstays : unused.contains x.imported = false)
    (hfirst : (x :: names).dropWhile (fun y => unused.contains y.imported) = first :: later) :
    Patched x.node.start
      (f.between x.node.start ((x :: names).getLast (List.cons_ne_nil _ _)).node.stop)
      (Edits.cuts previous false
        ((x :: names).map fun y => (y.node.span, unused.contains y.imported)))
      (f.textOf first.node ++ f.laterNames unused (first :: later)) := by
  simp only [List.dropWhile_cons, hstays, Bool.false_eq_true, if_false] at hfirst
  obtain ⟨rfl, rfl⟩ := List.cons.inj hfirst
  have hforward := h.forward x List.mem_cons_self
  obtain ⟨hstart, hstop⟩ := h.borders x List.mem_cons_self
  rw [List.map_cons, hstays, Edits.cuts_kept,
    ← between_append hforward h.stop_le_last hstart hstop h.last_border]
  refine Patched.prepend (f.textOf x.node) ?_
  rw [show x.node.start + Text.size (f.textOf x.node) = x.node.stop from
    add_size_between hforward hstart hstop]
  exact h.patched_later

/-- In front of the first name that stays, a name goes with the separator behind it. -/
theorem patched_names {first : ImportedName} {later : List ImportedName} (previous : Option Span)
    (h : NamesInRow f (x :: names))
    (hfirst : (x :: names).dropWhile (fun y => unused.contains y.imported) = first :: later) :
    Patched x.node.start
      (f.between x.node.start ((x :: names).getLast (List.cons_ne_nil _ _)).node.stop)
      (Edits.cuts previous false
        ((x :: names).map fun y => (y.node.span, unused.contains y.imported)))
      (f.textOf first.node ++ f.laterNames unused (first :: later)) := by
  -- up to the first name that stays, the next stretch starts where the next name starts
  induction names generalizing x previous with
  | nil =>
      cases hgone : unused.contains x.imported with
      | true =>
          simp only [List.dropWhile_cons, hgone, if_true, List.dropWhile_nil, reduceCtorEq] at hfirst
      | false => exact h.patched_kept previous hgone hfirst
  | cons y names ih =>
      cases hgone : unused.contains x.imported with
      | true =>
          have hrest := ih (some x.node.span) h.tail
            (by simpa only [List.dropWhile_cons, hgone, if_true] using hfirst)
          have hx := (h.borders x List.mem_cons_self).1
          have hy := (h.tail.borders y List.mem_cons_self).1
          have hxy : x.node.start ≤ y.node.start := Nat.le_trans (h.forward x List.mem_cons_self)
            ((List.pairwise_cons.mp h.ordered).1 y List.mem_cons_self)
          have hylast := Nat.le_trans (h.tail.forward y List.mem_cons_self) h.tail.stop_le_last
          have hsize := add_size_between hxy hx hy
          have hlast : (x :: y :: names).getLast (List.cons_ne_nil _ _) =
              (y :: names).getLast (List.cons_ne_nil _ _) := List.getLast_cons _
          rw [hlast, ← between_append hxy hylast hx hy h.tail.last_border, List.map_cons, List.map_cons,
            hgone, Edits.cuts_front]
          have hcut := Patched.cut (f.between x.node.start y.node.start) (by rw [hsize]; exact hrest)
          rw [hsize] at hcut
          exact hcut
      | false => exact h.patched_kept previous hgone hfirst

end NamesInRow

namespace ImportAt

/-- The ends of the nodes of an import are borders. -/
theorem borders (hn : n ∈ f.root.children) (hf : f.Importable) {m : Node} (hm : m ∈ n.preorder) :
    f.text.IsBorder m.start ∧ f.text.IsBorder m.stop :=
  hf.wellFormed.borders m (Node.preorder_trans
    (Node.mem_preorder.mpr (.inr (Node.mem_descendants_of_child hn))) hm)

theorem namesInRow (h : f.ImportAt n d) (hn : n ∈ f.root.children) (hf : f.Importable) :
    NamesInRow f d.names where
  forward := by
    intro x hx
    obtain ⟨b, hb, -⟩ := h.exists_braces hx
    exact Nat.le_of_lt ((h.name_within (hf.wellFormed.tree.child hn) hx).2 b hb).2.1
  borders := fun x hx => borders hn hf (h.name_within (hf.wellFormed.tree.child hn) hx).1
  ordered := h.names_pairwise (hf.wellFormed.tree.child hn)

/-- A name stands inside its import. -/
theorem name_inside (h : f.ImportAt n d) (hwf : n.WellFormed) {x : ImportedName} (hx : x ∈ d.names) :
    n.start ≤ x.node.start ∧ x.node.stop ≤ n.stop :=
  hwf.within_of_mem_preorder (h.name_within hwf hx).1

/-- **What cutting names out leaves of an import.** -/
theorem patched_textWithout (h : f.ImportAt n d) (hn : n ∈ f.root.children) (hf : f.Importable)
    (hkept : ∃ x ∈ d.names, unused.contains x.imported = false) :
    Patched n.start (f.textOf n) (cutNames unused none false d.names) (f.textWithout unused d) := by
  have hrow := h.namesInRow hn hf
  have hinside : ∀ x ∈ d.names, n.start ≤ x.node.start ∧ x.node.stop ≤ n.stop := fun x hx =>
    h.name_inside (hf.wellFormed.tree.child hn) hx
  have hends := borders hn hf n.mem_preorder_self
  obtain ⟨y, hy, hstays⟩ := hkept
  have hne : d.names.dropWhile (fun x => unused.contains x.imported) ≠ [] := by
    intro hnone
    have hall := List.dropWhile_eq_nil_iff.mp hnone y hy
    rw [hstays] at hall
    cases hall
  rw [cutNames_eq, textWithout, h.node]
  cases hnames : d.names with
  | nil =>
      rw [hnames] at hy
      cases hy
  | cons x xs =>
      rw [hnames] at hrow hinside hne
      obtain ⟨first, later, hfirst⟩ := List.exists_cons_of_ne_nil hne
      rw [hfirst]
      have hpatched := hrow.patched_names none hfirst
      -- the text up to the first name, the names, and the text behind the last one
      have hxb := (hrow.borders x List.mem_cons_self).1
      have hlb := hrow.last_border
      have hx := (hinside x List.mem_cons_self).1
      have hxl := Nat.le_trans (hrow.forward x List.mem_cons_self) hrow.stop_le_last
      have hl := (hinside _ (List.getLast_mem (List.cons_ne_nil x xs))).2
      have htext : f.textOf n = f.between n.start x.node.start ++
          (f.between x.node.start ((x :: xs).getLast (List.cons_ne_nil _ _)).node.stop ++
            f.between ((x :: xs).getLast (List.cons_ne_nil _ _)).node.stop n.stop) := by
        rw [between_append hxl hl hxb hlb hends.2, between_append hx (by omega) hends.1 hxb hends.2]
        rfl
      show Patched _ _ _ (f.between n.start x.node.start ++ f.textOf first.node ++
        f.laterNames unused (first :: later) ++ _)
      rw [htext, List.append_assoc, List.append_assoc, ← List.append_assoc (f.textOf first.node)]
      refine Patched.prepend _ (Patched.followed ?_ _)
      rw [add_size_between hx hends.1 hxb]
      exact hpatched

/-- An import that loses some of its names and keeps others has them cut out. -/
theorem pruneDecl_edits (h : f.ImportAt n d) (hgone : ∃ x ∈ d.names, unused.contains x.imported = true)
    (hkept : ∃ x ∈ d.names, unused.contains x.imported = false) :
    (f.pruneDecl unused d).edits = cutNames unused none false d.names := by
  obtain ⟨y, hy, hygone⟩ := hgone
  obtain ⟨x, hx, hxstays⟩ := hkept
  have hcase := (pruneDecl_cases unused h).1
  generalize (f.pruneDecl unused d).edits = es at hcase
  cases hcase with
  | untouched hnone =>
      have hmem := mem_removed.mpr ⟨hy, hygone⟩
      rw [hnone] at hmem
      cases hmem
  | names => rfl
  | braces _ hall =>
      rw [hall x hx] at hxstays
      cases hxstays
  | all _ hall =>
      rw [hall x hx] at hxstays
      cases hxstays

end ImportAt

/-- Edits at other statements lie in front of a statement or behind it, as the statements do. -/
theorem editsAt_around (required : NameSet) (hf : f.Importable) {ms ns : List Node}
    (hns : f.statements = ms ++ n :: ns) :
    (∀ e ∈ ms.flatMap (f.editsAt required), e.span.stop ≤ n.start) ∧
      ∀ e ∈ ns.flatMap (f.editsAt required), n.stop ≤ e.span.start := by
  have hmem : ∀ m ∈ ms ++ n :: ns, m ∈ f.statements := by
    rw [hns]
    exact fun m hm => hm
  have hpair := statements_pairwise hf
  rw [hns, List.pairwise_append, List.pairwise_cons] at hpair
  obtain ⟨-, ⟨hbehind, -⟩, hfront⟩ := hpair
  constructor
  · intro e he
    obtain ⟨m, hm, he⟩ := List.mem_flatMap.mp he
    have hstays := (editsAt_staysAt required hf (hmem m (List.mem_append_left _ hm))).2 e he
    have hmn := (hfront m hm n List.mem_cons_self).2
    exact Nat.le_trans hstays.stop (pastLineBreak_le hmn (hf.solid n (hmem n (by simp))))
  · intro e he
    obtain ⟨m, hm, he⟩ := List.mem_flatMap.mp he
    have hstays := (editsAt_staysAt required hf (hmem m (by simp [hm]))).2 e he
    exact Nat.le_trans (hbehind m hm).2 hstays.start

/-- Names are not added inside an import of operators. -/
theorem additionsAt_before (required : NameSet) (hf : f.Importable) (hn : n ∈ f.statements)
    (hd : f.importDecl? n = some d) (hm : d.moduleName = Vocabulary.operators) :
    ∀ e ∈ f.additionsAt required n, e.span.stop ≤ n.start := by
  intro e he
  rcases additionsAt_cases required hf hn with ⟨-, hnone⟩ | ⟨-, hadds⟩
  · rw [hnone] at he
    cases he
  · generalize f.additionsAt required n = es at hadds he
    cases hadds with
    | nothing => cases he
    | extended _ _ hd' hm' =>
        cases hd.symm.trans hd'
        rw [hm] at hm'
        exact absurd hm' (by decide)
    | inserted =>
        rw [List.mem_singleton.mp he]
        exact Nat.le_refl _

/-- The edits in front of an import of operators, those that prune it and those behind it. -/
theorem exists_edits_around (required : NameSet) (hf : f.Importable) (hn : n ∈ f.statements)
    (hd : f.importDecl? n = some d) (hm : d.moduleName = Vocabulary.operators) :
    ∃ before behind, Edits.sorted (f.importChange required).edits = before ++ (f.pruningAt n ++ behind) ∧
      (∀ e ∈ before, e.span.stop ≤ n.start) ∧ ∀ e ∈ behind, n.stop ≤ e.span.start := by
  obtain ⟨ms, ns, hns⟩ := List.append_of_mem hn
  obtain ⟨hfront, hback⟩ := editsAt_around required hf hns
  refine ⟨ms.flatMap (f.editsAt required) ++ f.additionsAt required n, ns.flatMap (f.editsAt required),
    ?_, ?_, hback⟩
  · rw [sorted_importChange required hf (List.ne_nil_of_mem hn), hns, List.flatMap_append,
      List.flatMap_cons, editsAt]
    simp only [List.append_assoc]
  · intro e he
    rcases List.mem_append.mp he with he | he
    · exact hfront e he
    · exact additionsAt_before required hf hn hd hm e he

/-- The text of a file around a statement. -/
theorem exists_around (hf : f.Importable) (hn : n ∈ f.root.children) :
    ∃ u w, f.text = u ++ (f.textOf n ++ w) ∧ Text.size u = n.start ∧
      n.start + Text.size (f.textOf n) = n.stop := by
  have hends := ImportAt.borders hn hf n.mem_preorder_self
  have hlt := hf.wellFormed.tree.fits.nonempty n hn
  obtain ⟨u, w, htext, hu, hsize⟩ := Text.slice?_eq_some_iff.mp
    (slice?_between (Nat.le_of_lt hlt) hends.1 hends.2)
  exact ⟨u, w, by rw [htext, List.append_assoc]; rfl, hu, hsize⟩

/-- The edits of an import that loses some of its names and keeps others stand between those in front of
it and those behind it, and leave the names that stay. -/
theorem Importable.cuts_names (hf : f.Importable) (required : NameSet)
    (hd : d ∈ f.importsFrom Vocabulary.operators)
    (hgone : ∃ x ∈ d.names, f.unusedOperators.contains x.imported = true)
    (hkept : ∃ x ∈ d.names, f.unusedOperators.contains x.imported = false) :
    ∃ u w before inside behind front back,
      f.text = u ++ (f.textOf d.node ++ w) ∧ Text.size u = d.node.start ∧
      d.node.start + Text.size (f.textOf d.node) = d.node.stop ∧
      Edits.sorted (f.importChange required).edits = before ++ (inside ++ behind) ∧
      (∀ e ∈ before, e.span.stop ≤ d.node.start) ∧ (∀ e ∈ behind, d.node.stop ≤ e.span.start) ∧
      Edits.applied? before u = some front ∧ Edits.applyFrom f.text d.node.stop behind = some back ∧
      (f.importChange required).edits.applied? f.text =
        some (front ++ (f.textWithout f.unusedOperators d ++ back)) := by
  obtain ⟨n, hn, hdecl, hnode, hm⟩ := mem_statements_of_mem_importsFrom hd
  have hat := importDecl?_eq_some hdecl
  have hchild : n ∈ f.root.children := (List.mem_filter.mp hn).1
  obtain ⟨u, w, htext, hu, hsize⟩ := exists_around hf hchild
  have hfrom : f.text.From n.stop w := by
    rw [← hsize]
    exact Text.From.append ⟨u, htext, hu⟩
  have hcuts : f.pruningAt n = cutNames f.unusedOperators none false d.names := by
    rw [pruningAt_of_operators hdecl hm, hat.pruneDecl_edits hgone hkept]
  have hinside := hat.patched_textWithout hchild hf hkept
  rw [← hcuts] at hinside
  obtain ⟨before, behind, hsorted, hbefore, hbehind⟩ := exists_edits_around required hf hn hdecl hm
  obtain ⟨o, ho⟩ := exists_patched_editsAt required hf
  have happlied := applied?_of_patched hf (List.ne_nil_of_mem hn) ho
  rw [← sorted_importChange required hf (List.ne_nil_of_mem hn), hsorted, htext] at ho
  -- in front of the import, the import, behind it
  obtain ⟨front, z, back, rfl, hpre, hz, hpost⟩ := ho.around
    (by rw [hu, Nat.zero_add]; exact hbefore)
    (by rw [hu, Nat.zero_add]; exact fun e he => ⟨(hinside.bounds e he).1, (hinside.bounds e he).2.2⟩)
    (by rw [hu, Nat.zero_add, hsize]; exact hbehind)
  rw [hu, Nat.zero_add] at hz hpost
  rw [hsize] at hpost
  have hcut : z = f.textWithout f.unusedOperators d :=
    hz.unique hinside (⟨u, rfl, hu⟩ : Text.From (u ++ f.textOf n) n.start (f.textOf n))
  rw [hcut] at happlied
  rw [hnode]
  exact ⟨u, w, before, _, behind, front, back, htext, hu, hsize, hsorted, hbefore, hbehind,
    hpre.applied?_eq, hpost.applyFrom_eq hfrom, happlied⟩

/-- **Names are cut out of an import exactly.** The edits in front of an import that loses some of its names
and keeps others, and those behind it, change the text in front of it and behind it. Between the two
the names that stay are left in their order, each with the separator in front of it, the first one in the
place of the first name; the text up to the first name and the text behind the last one stay. -/
theorem names_are_cut_out {dialect : Dialect} {t : Text} (h : parse? dialect t = .ok f)
    (required : NameSet) (hd : d ∈ f.importsFrom Vocabulary.operators)
    (hgone : ∃ x ∈ d.names, f.unusedOperators.contains x.imported = true)
    (hkept : ∃ x ∈ d.names, f.unusedOperators.contains x.imported = false) :
    ∃ u w before inside behind front back,
      t = u ++ (f.textOf d.node ++ w) ∧ Text.size u = d.node.start ∧
      d.node.start + Text.size (f.textOf d.node) = d.node.stop ∧
      Edits.sorted (f.importChange required).edits = before ++ (inside ++ behind) ∧
      (∀ e ∈ before, e.span.stop ≤ d.node.start) ∧ (∀ e ∈ behind, d.node.stop ≤ e.span.start) ∧
      Edits.applied? before u = some front ∧ Edits.applyFrom t d.node.stop behind = some back ∧
      (f.importChange required).edits.applied? t =
        some (front ++ (f.textWithout f.unusedOperators d ++ back)) := by
  rw [← parse?_text h]
  exact (parse?_importable h).cuts_names required hd hgone hkept

set_option maxRecDepth 100000 in
/-- Two of four names go, behind an import that goes altogether. -/
theorem two_of_four_names_are_cut_out :
    ∃ f, parse? .typeScript ("import \x7b take \x7d from 'rxjs/operators'\nimport \x7b\n  first, // é\n"
        ++ "  map, take as t,\n  tap,\n\x7d from 'rxjs/operators'\n").toList = .ok f ∧
      ∃ d ∈ f.importsFrom Vocabulary.operators, d.names.length = 4 ∧
        (∃ x ∈ d.names, f.unusedOperators.contains x.imported = true) ∧
        (∃ x ∈ d.names, f.unusedOperators.contains x.imported = false) ∧
        f.textWithout f.unusedOperators d =
          "import \x7b\n  map,\n  tap,\n\x7d from 'rxjs/operators'".toList ∧
        ∃ front back, (f.importChange (.ofList [Vocabulary.lastValueFrom])).edits.applied? f.text =
          some (front ++ (f.textWithout f.unusedOperators d ++ back)) := by
  obtain ⟨f, hf, d, hd, hlength, hgone, hkept, htext⟩ : ∃ f, parse? .typeScript
        ("import \x7b take \x7d from 'rxjs/operators'\nimport \x7b\n  first, // é\n"
          ++ "  map, take as t,\n  tap,\n\x7d from 'rxjs/operators'\n").toList = .ok f ∧
      ∃ d ∈ f.importsFrom Vocabulary.operators, d.names.length = 4 ∧
        (∃ x ∈ d.names, f.unusedOperators.contains x.imported = true) ∧
        (∃ x ∈ d.names, f.unusedOperators.contains x.imported = false) ∧
        f.textWithout f.unusedOperators d =
          "import \x7b\n  map,\n  tap,\n\x7d from 'rxjs/operators'".toList :=
    exists_of_parse _ (by decide +kernel) fun _ h => h
  obtain ⟨-, -, -, -, -, front, back, -, -, -, -, -, -, -, -, hout⟩ :=
    names_are_cut_out hf (.ofList [Vocabulary.lastValueFrom]) hd hgone hkept
  rw [← parse?_text hf] at hout
  exact ⟨f, hf, d, hd, hlength, hgone, hkept, htext, front, back, hout⟩

/-! ## The imports that edits are made at -/

/-- The imports from the module of the helpers and from that of the operators. -/
def fitted (f : SourceFile) : List ImportDecl :=
  f.imports.filter fun d =>
    d.moduleName == Vocabulary.streams || d.moduleName == Vocabulary.operators

/-- The import of one of the two modules at a node. -/
def fittedAt? (f : SourceFile) (n : Node) : Option ImportDecl :=
  (f.importDecl? n).filter fun d =>
    d.moduleName == Vocabulary.streams || d.moduleName == Vocabulary.operators

theorem fittedAt?_eq_some : f.fittedAt? n = some d ↔ f.importDecl? n = some d ∧
    (d.moduleName = Vocabulary.streams ∨ d.moduleName = Vocabulary.operators) := by
  rw [fittedAt?, Option.filter_eq_some_iff]
  simp

theorem fitted_eq (f : SourceFile) : f.fitted = f.statements.filterMap f.fittedAt? := by
  rw [fitted, imports, List.filter_filterMap, statements, List.filterMap_filter]
  refine List.filterMap_congr ?_
  intro n _
  split
  · rfl
  · next hkind =>
      -- what is no statement is no import
      cases hd : f.importDecl? n with
      | none => rfl
      | some d => exact absurd (isStatement_of_importDecl? hd) hkind

/-- Names are added to an import, or there are none to add: no import is put in. -/
def Extends (f : SourceFile) (required : NameSet) : Prop :=
  f.missing required = [] ∨ f.target? ≠ none

theorem Extends.additionsAt_cases (h : f.Extends required) (hf : f.Importable) (hn : n ∈ f.statements) :
    f.additionsAt required n = [] ∨ ∃ d, f.importDecl? n = some d ∧
      d.moduleName = Vocabulary.streams := by
  rcases SourceFile.additionsAt_cases required hf hn with ⟨-, hnone⟩ | ⟨-, hadds⟩
  · exact Or.inl hnone
  · generalize f.additionsAt required n = es at hadds ⊢
    cases hadds with
    | nothing => exact Or.inl rfl
    | extended _ _ hd hm => exact Or.inr ⟨_, hd, hm⟩
    | inserted hmissing ht => exact absurd h (not_or.mpr ⟨hmissing, not_not.mpr ht⟩)

/-- Statements that are no imports of the two modules have no edits. -/
theorem Extends.editsAt_eq_nil (h : f.Extends required) (hf : f.Importable) (hn : n ∈ f.statements)
    (hnone : f.fittedAt? n = none) : f.editsAt required n = [] := by
  have hother : ∀ d, f.importDecl? n = some d →
      d.moduleName ≠ Vocabulary.streams ∧ d.moduleName ≠ Vocabulary.operators := by
    intro d hd
    rw [fittedAt?, hd] at hnone
    simpa [Option.filter] using hnone
  rw [editsAt, pruningAt_eq_nil fun d hd => (hother d hd).2, List.append_nil]
  rcases h.additionsAt_cases hf hn with hnil | ⟨d, hd, hm⟩
  · exact hnil
  · exact absurd hm (hother d hd).1

/-- Edits at an import end inside it, unless they delete it with its line break. -/
theorem Extends.editsAt_inside (h : f.Extends required) (hf : f.Importable) (hn : n ∈ f.statements)
    (hd : f.importDecl? n = some d) : (∀ e ∈ f.editsAt required n, e.span.stop ≤ n.stop) ∨
      (d.moduleName = Vocabulary.operators ∧
        (∀ x ∈ d.names, f.unusedOperators.contains x.imported = true) ∧
        f.editsAt required n = [.deletion ⟨n.start, f.pastLineBreak n.stop⟩]) := by
  have hchild : n ∈ f.root.children := (List.mem_filter.mp hn).1
  have hat := importDecl?_eq_some hd
  by_cases hm : d.moduleName = Vocabulary.operators
  · have hadditions : f.additionsAt required n = [] := by
      rcases h.additionsAt_cases hf hn with hnil | ⟨c, hc, hmc⟩
      · exact hnil
      · cases hd.symm.trans hc
        rw [hm] at hmc
        exact absurd hmc (by decide)
    have hcase := (pruneDecl_cases f.unusedOperators hat).1
    rw [editsAt, hadditions, List.nil_append, pruningAt_of_operators hd hm]
    generalize (f.pruneDecl f.unusedOperators d).edits = es at hcase
    cases hcase with
    | untouched => exact Or.inl (by simp)
    | names _ hkept =>
        obtain ⟨-, -, -, -, hsize⟩ := exists_around hf hchild
        refine Or.inl fun e he => ?_
        rw [← hsize]
        exact ((hat.patched_textWithout hchild hf hkept).bounds e he).2.2
    | @braces b o _ _ hb ho =>
        refine Or.inl fun e he => ?_
        rw [List.mem_singleton.mp he]
        exact (hat.braces_within (hf.wellFormed.tree.child hchild) hb).2.2.2
    | all _ hall => exact Or.inr ⟨hm, hall, by rw [hat.node]⟩
  · refine Or.inl fun e he => ?_
    have hprune : f.pruningAt n = [] := pruningAt_eq_nil fun c hc => by
      cases hd.symm.trans hc
      exact hm
    rw [editsAt, hprune, List.append_nil] at he
    rcases SourceFile.additionsAt_cases required hf hn with ⟨-, hnone⟩ | ⟨-, hadds⟩
    · rw [hnone] at he
      cases he
    · exact (hadds.staysAt hf hn e he).2

/-! ## The text between the imports -/

/-- The text `v` of a file at the offset `pos`, in which the imports `ds` stand, has become `r`, and nothing
but the imports has changed: what is between them is copied, but for the line break behind an import of
operators that is deleted because none of its names is used. -/
inductive Framed (f : SourceFile) : Nat → Text → List ImportDecl → Text → Prop
  | copied (pos : Nat) (v : Text) : Framed f pos v [] v
  | edited {pos : Nat} {d : ImportDecl} {ds : List ImportDecl} (gap old new : Text) {v r : Text}
      (hspan : d.node.span = ⟨pos + Text.size gap, pos + Text.size gap + Text.size old⟩)
      (h : Framed f d.node.stop v ds r) :
      Framed f pos (gap ++ (old ++ v)) (d :: ds) (gap ++ (new ++ r))
  | deleted {pos : Nat} {d : ImportDecl} {ds : List ImportDecl} (gap old lineBreak : Text) {v r : Text}
      (hspan : d.node.span = ⟨pos + Text.size gap, pos + Text.size gap + Text.size old⟩)
      (hm : d.moduleName = Vocabulary.operators)
      (hall : ∀ x ∈ d.names, f.unusedOperators.contains x.imported = true)
      (hbreak : lineBreak = [] ∨ lineBreak = ['\n'] ∨ lineBreak = ['\r', '\n'])
      (hpast : d.node.stop + Text.size lineBreak = f.pastLineBreak d.node.stop)
      (h : Framed f (f.pastLineBreak d.node.stop) v ds r) :
      Framed f pos (gap ++ (old ++ (lineBreak ++ v))) (d :: ds) (gap ++ r)

theorem exists_split_at {pos k : Nat} {v : Text} (hv : f.text.From pos v) (hk : f.text.IsBorder k)
    (hle : pos ≤ k) : ∃ u w, v = u ++ w ∧ pos + Text.size u = k := by
  obtain ⟨x, hx, rfl⟩ := hv
  obtain ⟨y, w, hy, rfl⟩ := Text.isBorder_iff.mp hk
  obtain ⟨u, rfl, rfl⟩ := Text.exists_append_of_size_le (hx.symm.trans hy) hle
  exact ⟨u, w, rfl, (Text.size_append x u).symm⟩

/-- The line break behind an offset. -/
theorem exists_lineBreak {k : Nat} {v : Text} (hv : f.text.From k v) : ∃ b w, v = b ++ w ∧
    (b = [] ∨ b = ['\n'] ∨ b = ['\r', '\n']) ∧ k + Text.size b = f.pastLineBreak k := by
  obtain ⟨x, hx, hk⟩ := hv
  have hsplit : f.text.splitAt? k = some (x, v) := Text.splitAt?_eq_some_iff.mpr ⟨hx, hk⟩
  rcases f.pastLineBreak_cases k with hpast | ⟨p, hp, w, hw, hpast⟩ | ⟨p, hp, w, hw, hpast⟩
  · exact ⟨[], v, rfl, Or.inl rfl, hpast.symm⟩
  · cases hsplit.symm.trans hp
    exact ⟨['\n'], w, hw, Or.inr (Or.inl rfl), hpast.symm⟩
  · cases hsplit.symm.trans hp
    exact ⟨['\r', '\n'], w, hw, Or.inr (Or.inr rfl), hpast.symm⟩

namespace Framed

variable {pos : Nat} {v r : Text} {ds : List ImportDecl} {es rest : List Edit}

/-- The text in front of an import and the import, where the edits of the import stay inside it. -/
theorem next_edited (hv : f.text.From pos v) (hends : f.text.IsBorder d.node.start ∧
      f.text.IsBorder d.node.stop) (hpos : pos ≤ d.node.start) (hd : d.node.start ≤ d.node.stop)
    (hr : Patched pos v (es ++ rest) r)
    (hes : ∀ e ∈ es, d.node.start ≤ e.span.start ∧ e.span.stop ≤ d.node.stop)
    (hrest : ∀ e ∈ rest, d.node.stop ≤ e.span.start)
    (hnext : ∀ w z, f.text.From d.node.stop w → Patched d.node.stop w rest z →
      Framed f d.node.stop w ds z) : Framed f pos v (d :: ds) r := by
  obtain ⟨gap, v', rfl, hgap⟩ := exists_split_at hv hends.1 hpos
  have hv' : f.text.From d.node.start v' := hgap ▸ hv.append
  obtain ⟨old, w, rfl, hold⟩ := exists_split_at hv' hends.2 hd
  have hr' : Patched pos (gap ++ (old ++ w)) ([] ++ (es ++ rest)) r := hr
  obtain ⟨x, new, z, rfl, hx, -, hz⟩ := hr'.around (by simp) (by rw [hgap, hold]; exact hes)
    (by rw [hgap, hold]; exact hrest)
  cases hx
  rw [hgap, hold] at hz
  exact .edited gap old new (by rw [hgap, hold]; rfl) (hnext w z (hold ▸ hv'.append) hz)

/-- The text in front of an import and the import, where it is deleted with its line break. -/
theorem next_deleted (hv : f.text.From pos v) (hends : f.text.IsBorder d.node.start ∧
      f.text.IsBorder d.node.stop) (hpos : pos ≤ d.node.start) (hd : d.node.start ≤ d.node.stop)
    (hm : d.moduleName = Vocabulary.operators)
    (hall : ∀ x ∈ d.names, f.unusedOperators.contains x.imported = true)
    (hr : Patched pos v
      ([.deletion ⟨d.node.start, f.pastLineBreak d.node.stop⟩] ++ rest) r)
    (hrest : ∀ e ∈ rest, f.pastLineBreak d.node.stop ≤ e.span.start)
    (hnext : ∀ w z, f.text.From (f.pastLineBreak d.node.stop) w →
      Patched (f.pastLineBreak d.node.stop) w rest z → Framed f (f.pastLineBreak d.node.stop) w ds z) :
    Framed f pos v (d :: ds) r := by
  obtain ⟨gap, v', rfl, hgap⟩ := exists_split_at hv hends.1 hpos
  have hv' : f.text.From d.node.start v' := hgap ▸ hv.append
  obtain ⟨old, v'', rfl, hold⟩ := exists_split_at hv' hends.2 hd
  have hv'' : f.text.From d.node.stop v'' := hold ▸ hv'.append
  obtain ⟨b, w, rfl, hbreak, hpast⟩ := exists_lineBreak hv''
  have hgone : d.node.start + Text.size (old ++ b) = f.pastLineBreak d.node.stop := by
    rw [Text.size_append, ← Nat.add_assoc, hold, hpast]
  rw [← List.append_assoc old] at hr
  have hr' : Patched pos (gap ++ (old ++ b ++ w))
      ([] ++ ([.deletion ⟨d.node.start, f.pastLineBreak d.node.stop⟩] ++ rest)) r := hr
  obtain ⟨x, y, z, rfl, hx, hy, hz⟩ := hr'.around (by simp)
    (by rw [hgap, hgone]; simp [Edit.deletion]) (by rw [hgap, hgone]; exact hrest)
  cases hx
  rw [hgap] at hy
  rw [hgap, hgone] at hz
  -- nothing is left of the import
  have hnil : y = [] := by
    have hcut := Patched.cut (old ++ b) (.done (d.node.start + Text.size (old ++ b)) [])
    rw [List.append_nil, hgone] at hcut
    obtain ⟨x, -, hx⟩ := hv'
    exact hy.unique hcut (⟨x, rfl, hx⟩ : Text.From (x ++ (old ++ b)) d.node.start (old ++ b))
  rw [hnil, List.nil_append]
  exact .deleted gap old b (by rw [hgap, hold]; rfl) hm hall hbreak hpast
    (hnext w z (hpast ▸ hv''.append) hz)

end Framed

/-- **The text between the imports is copied**, where no import is put in. -/
theorem Extends.framed (h : f.Extends required) (hf : f.Importable) {ns : List Node}
    (hns : ns <:+ f.statements) {pos : Nat} {v r : Text} (hv : f.text.From pos v)
    (hpos : ∀ n ∈ ns, pos ≤ n.start)
    (hr : Patched pos v (ns.flatMap (f.editsAt required)) r) :
    Framed f pos v (ns.filterMap f.fittedAt?) r := by
  -- on the statements that are left; the text of other statements becomes part of the next gap
  induction ns generalizing pos v r with
  | nil =>
      cases hr
      exact .copied pos v
  | cons n ns ih =>
      have hn : n ∈ f.statements := hns.mem List.mem_cons_self
      have hchild : n ∈ f.root.children := (List.mem_filter.mp hn).1
      have hns' : ns <:+ f.statements := (List.suffix_cons n ns).trans hns
      -- the next statement starts behind the line break
      have hnext : ∀ m ∈ ns, f.pastLineBreak n.stop ≤ m.start := by
        intro m hm
        have hpair := (statements_pairwise hf).sublist hns.sublist
        exact pastLineBreak_le ((List.pairwise_cons.mp hpair).1 m hm).2 (hf.solid m (hns'.mem hm))
      have hrest : ∀ e ∈ ns.flatMap (f.editsAt required), f.pastLineBreak n.stop ≤ e.span.start := by
        intro e he
        obtain ⟨m, hm, he⟩ := List.mem_flatMap.mp he
        exact Nat.le_trans (hnext m hm) ((editsAt_staysAt required hf (hns'.mem hm)).2 e he).start
      have hpast := f.le_pastLineBreak n.stop
      rw [List.flatMap_cons] at hr
      cases hd : f.fittedAt? n with
      | none =>
          rw [List.filterMap_cons_none hd]
          rw [h.editsAt_eq_nil hf hn hd, List.nil_append] at hr
          exact ih hns' hv (fun m hm => hpos m (List.mem_cons_of_mem n hm)) hr
      | some d =>
          rw [List.filterMap_cons_some hd]
          have hdecl := (fittedAt?_eq_some.mp hd).1
          obtain rfl : d.node = n := (importDecl?_eq_some hdecl).node
          have hends := ImportAt.borders hchild hf d.node.mem_preorder_self
          have hlt := hf.wellFormed.tree.fits.nonempty d.node hchild
          have hfront := hpos d.node List.mem_cons_self
          rcases h.editsAt_inside hf hn hdecl with hinside | ⟨hm, hall, hdeletion⟩
          · refine Framed.next_edited hv hends hfront (Nat.le_of_lt hlt) hr ?_ ?_ ?_
            · exact fun e he => ⟨((editsAt_staysAt required hf hn).2 e he).start, hinside e he⟩
            · exact fun e he => Nat.le_trans hpast (hrest e he)
            · exact fun w z hw hz => ih hns' hw (fun m hm => Nat.le_trans hpast (hnext m hm)) hz
          · rw [hdeletion] at hr
            exact Framed.next_deleted hv hends hfront (Nat.le_of_lt hlt) hm hall hr hrest
              fun w z hw hz => ih hns' hw hnext hz

/-! ## All edits together -/

/-- The import that is put in for names that are missing, if there is one. -/
def newImport (f : SourceFile) (required : NameSet) : Text :=
  match f.missing required, f.target? with
  | name :: names, none => f.importLayout.statement Vocabulary.streams (name :: names)
  | _, _ => []

theorem newImport_of_extends (h : f.Extends required) : f.newImport required = [] := by
  unfold newImport
  split
  · next hmissing htarget =>
      refine absurd h (not_or.mpr ⟨?_, not_not.mpr htarget⟩)
      rw [hmissing]
      exact List.cons_ne_nil _ _
  · rfl

/-- Where no import is put in, the edits are taken statement by statement, if there are any. -/
theorem Extends.sorted_eq (h : f.Extends required) (hf : f.Importable) :
    Edits.sorted (f.importChange required).edits = f.statements.flatMap (f.editsAt required) := by
  by_cases hne : f.statements = []
  · -- without statements there are no imports
    have hnone : f.fitted = [] := by rw [fitted_eq, hne]; rfl
    have hfrom : ∀ d ∈ f.importsFrom Vocabulary.streams, d ∈ f.fitted := by
      intro d hd
      obtain ⟨hd, hm⟩ := List.mem_filter.mp hd
      exact List.mem_filter.mpr ⟨hd, by rw [hm]; rfl⟩
    have htarget : f.target? = none := by
      cases ht : f.target? with
      | none => rfl
      | some p =>
          have hmem := hfrom p.1 (target?_eq_some ht).1
          rw [hnone] at hmem
          cases hmem
    have hmissing : f.missing required = [] := h.resolve_right (not_not.mpr htarget)
    rw [importChange_edits, ← flatMap_pruningAt, hne, additions, hmissing]
    rfl
  · exact sorted_importChange required hf hne

/-- Where no import is put in, the edits leave the text between the imports alone. -/
theorem Extends.exists_framed (h : f.Extends required) (hf : f.Importable) :
    ∃ o, Patched 0 f.text (Edits.sorted (f.importChange required).edits) o ∧
      Framed f 0 f.text f.fitted o := by
  obtain ⟨o, ho⟩ := exists_patched_editsAt required hf
  refine ⟨o, by rw [h.sorted_eq hf]; exact ho, ?_⟩
  rw [fitted_eq]
  exact h.framed hf (List.suffix_refl _) f.text.from_zero (fun _ _ => Nat.zero_le _) ho

theorem anchor_isBorder (hf : f.Importable) : f.text.IsBorder f.anchor := by
  rcases f.anchor_cases with hanchor | ⟨n, hn, hanchor⟩
  · rw [hanchor]
    exact f.text.isBorder_zero
  · rw [hanchor]
    exact (ImportAt.borders hn hf n.mem_preorder_self).1

/-- A new import comes in front of everything that is pruned. -/
theorem anchor_le_prunings (hf : f.Importable) :
    ∀ e ∈ f.prunings.flatMap ImportChange.edits, f.anchor ≤ e.span.start := by
  rw [prunings_edits]
  intro e he
  obtain ⟨d, hd, he⟩ := List.mem_flatMap.mp he
  obtain ⟨-, n, hn, hat⟩ := mem_importsFrom hd
  have hstart := ((hat.prune_bounds hn hf).2 e he).2.1
  refine Nat.le_trans ?_ hstart
  rw [← hat.node]
  have hpair := importsFrom_pairwise hf Vocabulary.operators
  unfold anchor
  split
  · next c cs hcs =>
      rw [hcs] at hd hpair
      rcases List.mem_cons.mp hd with rfl | hd
      · exact Nat.le_refl _
      · have hcd := (List.pairwise_cons.mp hpair).1 d hd
        have hpast := f.le_pastLineBreak c.node.stop
        obtain ⟨-, m, hm, hcat⟩ := mem_importsFrom (hcs ▸ List.mem_cons_self : c ∈ f.importsFrom _)
        have hlt := hf.wellFormed.tree.fits.nonempty m hm
        rw [← hcat.node] at hlt
        omega
  · next hnone =>
      rw [hnone] at hd
      cases hd

/-- A new import is put in front of what the other edits leave. -/
theorem exists_framed_inserted (hf : f.Importable) (hmissing : f.missing required ≠ [])
    (ht : f.target? = none) :
    ∃ a b, Patched 0 f.text (f.importChange required).edits (a ++ (f.newImport required ++ b)) ∧
      Framed f 0 f.text f.fitted (a ++ b) ∧ f.text.slice? 0 f.anchor = some a := by
  -- without names to add only the prunings are left
  have hempty : f.Extends .empty := Or.inl rfl
  obtain ⟨o, ho, hframed⟩ := hempty.exists_framed hf
  have hprunings : Edits.sorted (f.importChange .empty).edits = f.prunings.flatMap ImportChange.edits := by
    have hadditions : (f.additions .empty).edits = [] := rfl
    rw [importChange_edits, hadditions, List.nil_append]
    exact Edits.sorted_of_apart (fun e he => Nat.le_of_lt (mem_prunings hf e he).2.1) (prunings_pairwise hf)
  rw [hprunings] at ho
  obtain ⟨a, w, htext, ha⟩ := Text.isBorder_iff.mp (anchor_isBorder hf)
  have hslice : f.text.slice? 0 f.anchor = some a :=
    Text.slice?_eq_some_iff.mpr ⟨[], w, htext, rfl, by rw [Nat.zero_add, ha]⟩
  obtain ⟨name, names, hnames⟩ := List.exists_cons_of_ne_nil hmissing
  have hedits : (f.importChange required).edits =
      .insertion f.anchor (f.newImport required) :: f.prunings.flatMap ImportChange.edits := by
    rw [importChange_edits, additions, newImport, hnames, ht]
    rfl
  rw [htext] at ho
  have ho' : Patched 0 (a ++ w) ([] ++ f.prunings.flatMap ImportChange.edits) o := ho
  obtain ⟨x, b, rfl, hx, hb⟩ := ho'.split (by simp)
    (by rw [ha, Nat.zero_add]; exact anchor_le_prunings hf)
  cases hx
  refine ⟨a, b, ?_, hframed, hslice⟩
  rw [hedits, htext]
  refine Patched.prepend a ?_
  rw [ha, Nat.zero_add] at hb ⊢
  exact .edit [] [] rfl hb

/-- All edits of the imports in order make an output that leaves the text outside the imports of the two
modules as it is, around an import that is put in. -/
theorem Importable.exists_patched_framed (hf : f.Importable) (required : NameSet) :
    ∃ a b,
      Patched 0 f.text (Edits.sorted (f.importChange required).edits) (a ++ (f.newImport required ++ b)) ∧
      Framed f 0 f.text f.fitted (a ++ b) ∧
      (f.newImport required ≠ [] → f.text.slice? 0 f.anchor = some a) := by
  by_cases hext : f.Extends required
  · obtain ⟨o, ho, hframed⟩ := hext.exists_framed hf
    rw [newImport_of_extends hext]
    exact ⟨o, [], by simpa using ho, by simpa using hframed, fun hne => absurd rfl hne⟩
  · obtain ⟨hmissing, ht⟩ := not_or.mp hext
    obtain ⟨a, b, hab, hframed, hslice⟩ := exists_framed_inserted hf hmissing (not_not.mp ht)
    exact ⟨a, b, by rw [hab.sorted_eq]; exact hab, hframed, fun _ => hslice⟩

/-- **The edits of imports fit together.** All of them are taken, none fails, and the text outside the imports
of the two modules stays, but for the line break behind an import that is deleted. An import that is
put in stands where the first import of operators or the first statement was. -/
theorem import_edits_fit_together {dialect : Dialect} {t : Text} (h : parse? dialect t = .ok f)
    (required : NameSet) :
    (Edits.kept (f.importChange required).edits).Perm (f.importChange required).edits ∧
    Edits.dropped (f.importChange required).edits t = [] ∧
    ∃ a b, (f.importChange required).edits.applied? t = some (a ++ (f.newImport required ++ b)) ∧
      Framed f 0 t f.fitted (a ++ b) ∧
      (f.newImport required ≠ [] → t.slice? 0 f.anchor = some a) := by
  obtain ⟨a, b, hab, hframed, hslice⟩ := (parse?_importable h).exists_patched_framed required
  rw [parse?_text h] at hab hframed hslice
  refine ⟨?_, hab.droppedFrom_eq t.from_zero, a, b, hab.applyFrom_eq t.from_zero, hframed, hslice⟩
  rw [Edits.kept, ← Edits.sorted_eq_mergeSort, hab.taken_eq, Edits.sorted_eq_mergeSort]
  exact List.mergeSort_perm _ _

set_option maxRecDepth 100000 in
/-- An import goes with its line break, one loses a name and one is put in. -/
theorem import_goes_with_its_line_break :
    ∃ f, parse? .typeScript ("#!/usr/bin/env node\r\n\"é\"\r\nimport { take } from 'rxjs/operators'\r\n\r\n"
        ++ "import { first, map } from 'rxjs/operators'\r\nmap(a)").toList = .ok f ∧
      f.fitted.length = 2 ∧
      f.newImport (.ofList [Vocabulary.lastValueFrom]) = "import { lastValueFrom } from 'rxjs'\r\n".toList ∧
      Edits.dropped (f.importChange (.ofList [Vocabulary.lastValueFrom])).edits f.text = [] ∧
      (f.importChange (.ofList [Vocabulary.lastValueFrom])).edits.applied? f.text =
        some ("#!/usr/bin/env node\r\n\"é\"\r\n".toList ++
          ("import { lastValueFrom } from 'rxjs'\r\n".toList ++
            "\r\nimport { map } from 'rxjs/operators'\r\nmap(a)".toList)) ∧
      Framed f 0 f.text f.fitted ("#!/usr/bin/env node\r\n\"é\"\r\n".toList ++
        "\r\nimport { map } from 'rxjs/operators'\r\nmap(a)".toList) := by
  obtain ⟨f, hf, hlength, hnew, hslice, hout⟩ : ∃ f, parse? .typeScript
        ("#!/usr/bin/env node\r\n\"é\"\r\nimport { take } from 'rxjs/operators'\r\n\r\n"
          ++ "import { first, map } from 'rxjs/operators'\r\nmap(a)").toList = .ok f ∧
      f.fitted.length = 2 ∧
      f.newImport (.ofList [Vocabulary.lastValueFrom]) = "import { lastValueFrom } from 'rxjs'\r\n".toList ∧
      f.text.slice? 0 f.anchor = some "#!/usr/bin/env node\r\n\"é\"\r\n".toList ∧
      (f.importChange (.ofList [Vocabulary.lastValueFrom])).edits.applied? f.text =
        some ("#!/usr/bin/env node\r\n\"é\"\r\n".toList ++
          ("import { lastValueFrom } from 'rxjs'\r\n".toList ++
            "\r\nimport { map } from 'rxjs/operators'\r\nmap(a)".toList)) :=
    exists_of_parse _ (by decide +kernel) fun _ h => h
  obtain ⟨-, hdropped, a, b, hab, hframed, ha⟩ :=
    import_edits_fit_together hf (.ofList [Vocabulary.lastValueFrom])
  rw [← parse?_text hf] at hdropped hab hframed ha
  have hfront := Option.some.inj (hslice.symm.trans (ha (by rw [hnew]; simp)))
  rw [hout, hnew, ← hfront] at hab
  have hback := List.append_cancel_left (List.append_cancel_left (Option.some.inj hab))
  rw [← hfront, ← hback] at hframed
  exact ⟨f, hf, hlength, hnew, hdropped, hout, hframed⟩

end SourceFile

end Promisify
