import Promisify.Proofs.Edits
import Promisify.Proofs.ImportTrees

set_option autoImplicit false

/-! # Pruning imports

Names that are no longer called are deleted from the imports of operators. The deletions of one import
lie inside it, up to its line break, in order and apart, and so do those of all imports together. A name
lies inside a deletion exactly when it is to be removed (`prunes_iff`): a removed name goes with one of
the separators next to it, and no other name is touched.
-/

namespace Promisify

/-! ## Cutting names out of a list -/

/-- The deletions that remove some of the names at given spans, as `SourceFile.cutNames` finds them. -/
def Edits.cuts (previous : Option Span) (kept : Bool) : List (Span × Bool) → List Edit
  | [] => []
  | (s, removed) :: rest =>
      if removed then
        (if kept then
          match previous with
          | some p => [.deletion ⟨p.stop, s.stop⟩]
          | none => []
        else
          match rest with
          | (next, _) :: _ => [.deletion ⟨s.start, next.start⟩]
          | [] => []) ++ cuts (some s) kept rest
      else cuts (some s) true rest

namespace Edits

variable {previous : Option Span} {kept : Bool} {p s s' : Span} {rest : List (Span × Bool)}

theorem cuts_kept : cuts previous kept ((s, false) :: rest) = cuts (some s) true rest := by
  rw [cuts.eq_def]
  rfl

theorem cuts_behind :
    cuts (some p) true ((s, true) :: rest) = .deletion ⟨p.stop, s.stop⟩ :: cuts (some s) true rest := by
  rw [cuts.eq_def]
  rfl

theorem cuts_front {r : Bool} : cuts previous false ((s, true) :: (s', r) :: rest) =
    .deletion ⟨s.start, s'.start⟩ :: cuts (some s) false ((s', r) :: rest) := by
  rw [cuts.eq_def]
  rfl

end Edits

/-- Where names are cut depends only on where they stand and which of them go. -/
theorem SourceFile.cutNames_eq (unused : List Text) (previous : Option ImportedName) (kept : Bool)
    (names : List ImportedName) : cutNames unused previous kept names =
      Edits.cuts (previous.map fun n => n.node.span) kept
        (names.map fun n => (n.node.span, unused.contains n.imported)) := by
  induction names generalizing previous kept with
  | nil => rfl
  | cons n names ih =>
      rw [cutNames.eq_def, List.map_cons, Edits.cuts.eq_def]
      simp only [ih]
      by_cases hn : unused.contains n.imported = true
      · rw [if_pos hn, if_pos hn]
        congr 1
        cases kept with
        | true => cases previous <;> rfl
        | false => cases names <;> rfl
      · rw [if_neg hn, if_neg hn]
        rfl

namespace Edits

variable {previous : Option Span} {kept : Bool} {items : List (Span × Bool)} {e : Edit}

/-- As long as no name is kept, the name before the list does not matter. -/
theorem cuts_unkept : cuts previous false items = cuts none false items := by
  rw [cuts.eq_def, cuts.eq_def]
  rcases items with _ | ⟨⟨s, removed⟩, rest⟩ <;> rfl

/-- A cut reaches from a border of one name to the same border of the next one, and of the two the
name inside it is removed. -/
theorem mem_cuts (h : e ∈ cuts previous kept items) :
    ∃ as x y bs, (previous.map fun p => (p, false)).toList ++ items = as ++ x :: y :: bs ∧
      ((y.2 = true ∧ e = .deletion ⟨x.1.stop, y.1.stop⟩) ∨
        (x.2 = true ∧ e = .deletion ⟨x.1.start, y.1.start⟩)) := by
  induction items generalizing previous kept with
  | nil => simp [cuts] at h
  | cons item rest ih =>
      obtain ⟨s, removed⟩ := item
      -- a cut further on reaches between names further on, of which the first may be this one
      have hlater : ∀ {kept}, e ∈ cuts (some s) kept rest →
          ∃ as x y bs, (previous.map fun p => (p, false)).toList ++ (s, removed) :: rest =
            as ++ x :: y :: bs ∧ ((y.2 = true ∧ e = .deletion ⟨x.1.stop, y.1.stop⟩) ∨
              (x.2 = true ∧ e = .deletion ⟨x.1.start, y.1.start⟩)) := by
        intro kept he
        obtain ⟨as, x, y, bs, heq, hcut⟩ := ih he
        cases as with
        | nil =>
            obtain ⟨rfl, rfl⟩ := List.cons.inj (show (s, false) :: rest = x :: y :: bs from heq)
            refine ⟨_, (s, removed), y, bs, rfl, Or.inl ?_⟩
            simpa using hcut
        | cons a as =>
            obtain ⟨rfl, rfl⟩ := List.cons.inj (show (s, false) :: rest = a :: (as ++ x :: y :: bs) from heq)
            exact ⟨(previous.map fun p => (p, false)).toList ++ (s, removed) :: as, x, y, bs,
              by simp, hcut⟩
      cases removed with
      | false =>
          rw [cuts_kept] at h
          exact hlater h
      | true =>
          rw [cuts.eq_def] at h
          simp only [if_true] at h
          rcases List.mem_append.mp h with h | h
          · cases kept with
            | true =>
                cases previous with
                | none => simp at h
                | some p => exact ⟨[], (p, false), (s, true), rest, rfl, Or.inl ⟨rfl, by simpa using h⟩⟩
            | false =>
                cases rest with
                | nil => simp at h
                | cons next rest =>
                    exact ⟨_, (s, true), next, rest, rfl, Or.inr ⟨rfl, by simpa using h⟩⟩
          · exact hlater h

/-- Names that follow one another, none of them empty. -/
structure InRow (items : List (Span × Bool)) : Prop where
  nonempty : ∀ x ∈ items, x.1.start < x.1.stop
  ordered : items.Pairwise fun x y => x.1.stop ≤ y.1.start

theorem InRow.tail {item : Span × Bool} (h : InRow (item :: items)) : InRow items :=
  ⟨fun x hx => h.nonempty x (List.mem_cons_of_mem item hx), h.ordered.of_cons⟩

/-- A cut of names in a row: it is not empty, its ends are ends of names, and a name that stays lies
apart from it. -/
theorem InRow.mem_cuts (h : InRow items) (he : e ∈ cuts none false items) :
    e.text = [] ∧ e.span.start < e.span.stop ∧
      (∃ x ∈ items, ∃ y ∈ items, e.span = ⟨x.1.stop, y.1.stop⟩ ∨ e.span = ⟨x.1.start, y.1.start⟩) ∧
      ∀ z ∈ items, z.2 = false → z.1.apart e.span := by
  obtain ⟨as, x, y, bs, heq, hcut⟩ := Edits.mem_cuts he
  rw [Option.map_none, Option.toList_none, List.nil_append] at heq
  subst heq
  have hx := h.nonempty x (by simp)
  have hy := h.nonempty y (by simp)
  obtain ⟨-, hxy, hleft⟩ := List.pairwise_append.mp h.ordered
  obtain ⟨hfirst, hyb⟩ := List.pairwise_cons.mp hxy
  have hnext := hfirst y (by simp)
  have hafter : ∀ z ∈ bs, y.1.stop ≤ z.1.start := (List.pairwise_cons.mp hyb).1
  have hbefore : ∀ z ∈ as, z.1.stop ≤ x.1.start := fun z hz => hleft z hz x (by simp)
  have hwhere : ∀ z ∈ as ++ x :: y :: bs, z ∈ as ∨ z = x ∨ z = y ∨ z ∈ bs := by simp
  rcases hcut with ⟨hflag, rfl⟩ | ⟨hflag, rfl⟩
  · refine ⟨rfl, show x.1.stop < y.1.stop by omega, ⟨x, by simp, y, by simp, Or.inl rfl⟩, ?_⟩
    intro z hz hz2
    show z.1.stop ≤ x.1.stop ∨ y.1.stop ≤ z.1.start
    rcases hwhere z hz with hz | rfl | rfl | hz
    · have := hbefore z hz
      omega
    · exact Or.inl (Nat.le_refl _)
    · rw [hflag] at hz2
      cases hz2
    · exact Or.inr (hafter z hz)
  · refine ⟨rfl, show x.1.start < y.1.start by omega, ⟨x, by simp, y, by simp, Or.inr rfl⟩, ?_⟩
    intro z hz hz2
    show z.1.stop ≤ x.1.start ∨ y.1.start ≤ z.1.start
    rcases hwhere z hz with hz | rfl | rfl | hz
    · exact Or.inl (hbefore z hz)
    · rw [hflag] at hz2
      cases hz2
    · exact Or.inr (Nat.le_refl _)
    · have := hafter z hz
      omega

/-- Cuts start behind the name before the list. -/
theorem InRow.start_of_mem_cuts {p : Span} {removed : Bool} (h : InRow ((p, removed) :: items))
    (he : e ∈ cuts (some p) kept items) : p.stop ≤ e.span.start := by
  obtain ⟨as, x, y, bs, heq, hcut⟩ := Edits.mem_cuts he
  have hfirst := (List.pairwise_cons.mp h.ordered).1
  cases as with
  | nil =>
      obtain ⟨rfl, rfl⟩ := List.cons.inj (show (p, false) :: items = x :: y :: bs from heq)
      rcases hcut with ⟨-, rfl⟩ | ⟨hflag, -⟩
      · exact Nat.le_refl _
      · cases hflag
  | cons a as =>
      obtain ⟨rfl, rfl⟩ := List.cons.inj (show (p, false) :: items = a :: (as ++ x :: y :: bs) from heq)
      have hx := hfirst x (by simp)
      have hne := h.nonempty x (by simp)
      simp only at hx
      rcases hcut with ⟨-, rfl⟩ | ⟨-, rfl⟩
      · show p.stop ≤ x.1.stop
        omega
      · exact hx

/-- Cuts come in order. -/
theorem InRow.cuts_pairwise (h : InRow items)
    (hprevious : ∀ p ∈ previous, ∀ x ∈ items, p.stop ≤ x.1.start) :
    (cuts previous kept items).Pairwise fun a b => a.span.stop ≤ b.span.start := by
  induction items generalizing previous kept with
  | nil => exact List.Pairwise.nil
  | cons item rest ih =>
      obtain ⟨s, removed⟩ := item
      have hrest : ∀ {kept}, (cuts (some s) kept rest).Pairwise
          fun a b => a.span.stop ≤ b.span.start := by
        intro kept
        refine ih h.tail ?_
        rintro p ⟨⟩ x hx
        exact (List.pairwise_cons.mp h.ordered).1 x hx
      cases removed with
      | false =>
          rw [cuts_kept]
          exact hrest
      | true =>
          cases kept with
          | true =>
              cases previous with
              | none => exact hrest
              | some p =>
                  rw [cuts_behind, List.pairwise_cons]
                  exact ⟨fun b hb => h.start_of_mem_cuts hb, hrest⟩
          | false =>
              rcases rest with _ | ⟨⟨s', removed'⟩, rest⟩
              · exact List.Pairwise.nil
              · rw [cuts_front, List.pairwise_cons]
                refine ⟨?_, hrest⟩
                intro b hb
                rw [cuts_unkept] at hb
                -- cuts up to the first name that stays start at the names themselves
                obtain ⟨-, -, ⟨x, hx, y, -, hspan⟩, -⟩ := h.tail.mem_cuts hb
                have hstart : s'.start ≤ x.1.start := by
                  rcases List.mem_cons.mp hx with rfl | hx
                  · exact Nat.le_refl _
                  · have hs' := h.tail.nonempty (s', removed') (by simp)
                    have hsx := (List.pairwise_cons.mp h.tail.ordered).1 x hx
                    simp only at hs' hsx
                    omega
                have hxne := h.tail.nonempty x hx
                show s'.start ≤ b.span.start
                rcases hspan with hspan | hspan <;> rw [hspan] <;> simp only <;> omega

/-- A name that is removed lies inside a cut, when some name before it or in the list stays. -/
theorem InRow.exists_cut (h : InRow items) (hprevious : ∀ p ∈ previous, ∀ x ∈ items, p.stop ≤ x.1.start)
    (hkept : kept = true → previous.isSome = true)
    (hstays : kept = true ∨ ∃ y ∈ items, y.2 = false) {x : Span × Bool} (hx : x ∈ items)
    (hremoved : x.2 = true) : ∃ e ∈ cuts previous kept items, x.1.within e.span = true := by
  induction items generalizing previous kept with
  | nil => cases hx
  | cons item rest ih =>
      obtain ⟨s, removed⟩ := item
      have hfirst := (List.pairwise_cons.mp h.ordered).1
      have hlater : ∀ {kept}, (kept = true ∨ ∃ y ∈ rest, y.2 = false) → x ∈ rest →
          ∃ e ∈ cuts (some s) kept rest, x.1.within e.span = true := by
        intro kept hstays hx
        refine ih h.tail ?_ (fun _ => rfl) hstays hx
        rintro p ⟨⟩ y hy
        exact hfirst y hy
      cases removed with
      | false =>
          have hx' : x ∈ rest := by
            rcases List.mem_cons.mp hx with rfl | hx
            · cases hremoved
            · exact hx
          rw [cuts_kept]
          exact hlater (Or.inl rfl) hx'
      | true =>
          have hstays' : kept = true ∨ ∃ y ∈ rest, y.2 = false := by
            refine hstays.imp id ?_
            rintro ⟨y, hy, hy2⟩
            rcases List.mem_cons.mp hy with rfl | hy
            · cases hy2
            · exact ⟨y, hy, hy2⟩
          cases kept with
          | true =>
              obtain ⟨p, rfl⟩ := Option.isSome_iff_exists.mp (hkept rfl)
              rw [cuts_behind]
              rcases List.mem_cons.mp hx with rfl | hx
              · refine ⟨_, List.mem_cons_self, Span.within_iff.mpr ⟨?_, Nat.le_refl _⟩⟩
                exact hprevious p rfl _ List.mem_cons_self
              · obtain ⟨e, he, hin⟩ := hlater hstays' hx
                exact ⟨e, List.mem_cons_of_mem _ he, hin⟩
          | false =>
              obtain ⟨y, hy, hy2⟩ : ∃ y ∈ rest, y.2 = false := by simpa using hstays'
              rcases rest with _ | ⟨⟨s', removed'⟩, rest⟩
              · cases hy
              · rw [cuts_front]
                rcases List.mem_cons.mp hx with rfl | hx
                · refine ⟨_, List.mem_cons_self, Span.within_iff.mpr ⟨Nat.le_refl _, ?_⟩⟩
                  exact hfirst _ List.mem_cons_self
                · obtain ⟨e, he, hin⟩ := hlater hstays' hx
                  exact ⟨e, List.mem_cons_of_mem _ he, hin⟩

end Edits

/-! ## The deletions of one import -/

namespace SourceFile

variable {f : SourceFile} {n : Node} {d : ImportDecl} {unused : List Text}

/-- The names of an import that are to be removed. -/
def removed (unused : List Text) (d : ImportDecl) : List ImportedName :=
  d.names.filter fun x => unused.contains x.imported

/-- Whether a deletion of the list covers the name. -/
def Prunes (es : List Edit) (x : ImportedName) : Prop :=
  ∃ e ∈ es, e.text = [] ∧ x.node.span.within e.span = true

/-- How an import is pruned: not at all, by cutting names out of its braces, by deleting the braces
with all names, or by deleting all of it. -/
inductive PruneCase (f : SourceFile) (unused : List Text) (d : ImportDecl) : List Edit → Prop
  | untouched (h : removed unused d = []) : PruneCase f unused d []
  | names (hsome : removed unused d ≠ []) (hkept : ∃ x ∈ d.names, unused.contains x.imported = false) :
      PruneCase f unused d (cutNames unused none false d.names)
  | braces {b o : Node} (hsome : removed unused d ≠ [])
      (hall : ∀ x ∈ d.names, unused.contains x.imported = true) (hb : d.named = some b)
      (ho : d.otherBinding = some o) : PruneCase f unused d [.deletion ⟨o.stop, b.stop⟩]
  | all (hsome : removed unused d ≠ []) (hall : ∀ x ∈ d.names, unused.contains x.imported = true) :
      PruneCase f unused d [.deletion ⟨d.node.start, f.pastLineBreak d.node.stop⟩]

theorem pruneDecl_cases (unused : List Text) (h : f.ImportAt n d) :
    PruneCase f unused d (f.pruneDecl unused d).edits ∧
    (f.pruneDecl unused d).counts.added = 0 ∧
    (f.pruneDecl unused d).counts.pruned = (removed unused d).length := by
  unfold pruneDecl
  rw [show (d.names.filter fun n => unused.contains n.imported) = removed unused d from rfl]
  cases hb : d.named with
  | none =>
      have hnone : removed unused d = [] := by
        rw [removed, h.names, hb]
        rfl
      rw [hnone]
      exact ⟨.untouched hnone, rfl, rfl⟩
  | some b =>
      by_cases hnone : removed unused d = []
      · rw [hnone]
        exact ⟨.untouched hnone, rfl, rfl⟩
      · dsimp only
        rw [if_neg (by rw [List.isEmpty_iff]; exact hnone)]
        by_cases hkept : ∃ x ∈ d.names, unused.contains x.imported = false
        · obtain ⟨x, hx, hstays⟩ := hkept
          have hstay : (d.names.filter fun n => !unused.contains n.imported).isEmpty = false := by
            rw [List.isEmpty_eq_false_iff]
            exact List.ne_nil_of_mem (List.mem_filter.mpr ⟨hx, by rw [hstays]; rfl⟩)
          rw [if_pos (by rw [hstay]; rfl)]
          exact ⟨.names hnone ⟨x, hx, hstays⟩, rfl, rfl⟩
        · have hall : ∀ x ∈ d.names, unused.contains x.imported = true := by simpa using hkept
          have hstay : (d.names.filter fun n => !unused.contains n.imported).isEmpty = true := by
            rw [List.isEmpty_iff, List.filter_eq_nil_iff]
            intro x hx
            rw [hall x hx]
            exact Bool.false_ne_true
          rw [if_neg (by rw [hstay]; exact Bool.false_ne_true)]
          cases ho : d.otherBinding with
          | none => exact ⟨.all hnone hall, rfl, rfl⟩
          | some o => exact ⟨.braces hnone hall hb ho, rfl, rfl⟩

/-- The names of an import with their spans and whether they go. -/
def nameItems (unused : List Text) (d : ImportDecl) : List (Span × Bool) :=
  d.names.map fun x => (x.node.span, unused.contains x.imported)

theorem ImportAt.inRow (h : f.ImportAt n d) (unused : List Text) (hwf : n.WellFormed) :
    Edits.InRow (nameItems unused d) where
  nonempty := by
    intro x hx
    obtain ⟨y, hy, rfl⟩ := List.mem_map.mp hx
    obtain ⟨b, hb, -⟩ := h.exists_braces hy
    exact ((h.name_within hwf hy).2 b hb).2.1
  ordered := by
    rw [nameItems, List.pairwise_map]
    exact h.names_pairwise hwf

/-- **What pruning one import deletes**: text of the import and its line break, in order and apart. -/
theorem ImportAt.prune_bounds (h : f.ImportAt n d) (hn : n ∈ f.root.children) (hf : f.Importable) :
    ((f.pruneDecl unused d).edits.Pairwise fun a b => a.span.stop ≤ b.span.start) ∧
    ∀ e ∈ (f.pruneDecl unused d).edits, e.text = [] ∧ n.start ≤ e.span.start ∧
      e.span.start < e.span.stop ∧ e.span.stop ≤ f.pastLineBreak n.stop ∧
      f.text.IsBorder e.span.start ∧ f.text.IsBorder e.span.stop := by
  have hwf := hf.wellFormed.tree.child hn
  have hnroot := Node.mem_preorder.mpr (.inr (Node.mem_descendants_of_child hn))
  have hborder : ∀ m ∈ n.preorder, f.text.IsBorder m.start ∧ f.text.IsBorder m.stop :=
    fun m hm => hf.wellFormed.borders m (Node.preorder_trans hnroot hm)
  have hpast := f.le_pastLineBreak n.stop
  have hcase := (pruneDecl_cases unused h).1
  generalize (f.pruneDecl unused d).edits = es at hcase ⊢
  cases hcase with
  | untouched => exact ⟨List.Pairwise.nil, by simp⟩
  | names =>
      have hrow := h.inRow unused hwf
      rw [cutNames_eq]
      refine ⟨hrow.cuts_pairwise (by simp), ?_⟩
      intro e he
      obtain ⟨htext, hlt, ⟨x, hx, y, hy, hspan⟩, -⟩ := hrow.mem_cuts he
      have hitem : ∀ x ∈ nameItems unused d, f.text.IsBorder x.1.start ∧ f.text.IsBorder x.1.stop ∧
          n.start ≤ x.1.start ∧ x.1.start < x.1.stop ∧ x.1.stop ≤ n.stop := by
        intro x hx
        obtain ⟨z, hz, rfl⟩ := List.mem_map.mp hx
        obtain ⟨b, hb, -⟩ := h.exists_braces hz
        obtain ⟨hzn, hbounds⟩ := h.name_within hwf hz
        have hin := hbounds b hb
        have hbin := h.braces_within hwf hb
        refine ⟨(hborder _ hzn).1, (hborder _ hzn).2, ?_⟩
        show n.start ≤ z.node.start ∧ z.node.start < z.node.stop ∧ z.node.stop ≤ n.stop
        omega
      have h₁ := hitem x hx
      have h₂ := hitem y hy
      rcases hspan with hspan | hspan
      · rw [hspan] at hlt ⊢
        exact ⟨htext, by simp only; omega, hlt, by simp only; omega, h₁.2.1, h₂.2.1⟩
      · rw [hspan] at hlt ⊢
        exact ⟨htext, by simp only; omega, hlt, by simp only; omega, h₁.1, h₂.1⟩
  | @braces b o _ _ hb ho =>
      refine ⟨List.pairwise_singleton _ _, ?_⟩
      intro e he
      rw [List.mem_singleton.mp he]
      obtain ⟨hon, hno, hob⟩ := h.binding_before hn hf hb ho
      obtain ⟨hbn, -, hlt, hbstop⟩ := h.braces_within hwf hb
      refine ⟨rfl, Nat.le_of_lt hno, ?_, ?_, (hborder o hon).2, (hborder b hbn).2⟩
      · show o.stop < b.stop
        omega
      · show b.stop ≤ f.pastLineBreak n.stop
        omega
  | all =>
      refine ⟨List.pairwise_singleton _ _, ?_⟩
      intro e he
      rw [List.mem_singleton.mp he, h.node]
      have hlt := hf.wellFormed.tree.fits.nonempty n hn
      have hends := hborder n n.mem_preorder_self
      refine ⟨rfl, Nat.le_refl _, ?_, Nat.le_refl _, hends.1, isBorder_pastLineBreak hends.2⟩
      show n.start < f.pastLineBreak n.stop
      omega

theorem mem_removed {x : ImportedName} :
    x ∈ removed unused d ↔ x ∈ d.names ∧ unused.contains x.imported = true := List.mem_filter

/-- A name of an import lies inside a deletion exactly when it is to be removed. -/
theorem ImportAt.prunes_iff (h : f.ImportAt n d) (hn : n ∈ f.root.children) (hf : f.Importable)
    {x : ImportedName} (hx : x ∈ d.names) :
    Prunes (f.pruneDecl unused d).edits x ↔ unused.contains x.imported = true := by
  have hwf := hf.wellFormed.tree.child hn
  obtain ⟨b, hb, -⟩ := h.exists_braces hx
  have hxb := (h.name_within hwf hx).2 b hb
  have hcase := (pruneDecl_cases unused h).1
  generalize (f.pruneDecl unused d).edits = es at hcase ⊢
  cases hcase with
  | untouched hnone =>
      constructor
      · rintro ⟨e, he, -⟩
        cases he
      · intro hremoved
        have hmem := mem_removed.mpr ⟨hx, hremoved⟩
        rw [hnone] at hmem
        cases hmem
  | names _ hkept =>
      have hrow := h.inRow unused hwf
      have hitem : (x.node.span, unused.contains x.imported) ∈ nameItems unused d :=
        List.mem_map_of_mem hx
      rw [cutNames_eq]
      constructor
      · rintro ⟨e, he, -, hin⟩
        by_contra hstays
        have hapart := (hrow.mem_cuts he).2.2.2 _ hitem (by simpa using hstays)
        have hle := Span.within_iff.mp hin
        unfold Span.apart at hapart
        simp only [Node.span] at hapart hle
        omega
      · intro hremoved
        obtain ⟨y, hy, hstays⟩ := hkept
        have hfront : ∀ p ∈ (none : Option Span), ∀ z ∈ nameItems unused d, p.stop ≤ z.1.start := by
          simp
        have hnone : false = true → (none : Option Span).isSome = true := Bool.noConfusion
        obtain ⟨e, he, hin⟩ := hrow.exists_cut hfront hnone
          (Or.inr ⟨_, List.mem_map_of_mem hy, hstays⟩) hitem hremoved
        exact ⟨e, he, (hrow.mem_cuts he).1, hin⟩
  | @braces b' o _ hall hb' ho =>
      rw [hb, Option.some.injEq] at hb'
      subst hb'
      have hob := (h.binding_before hn hf hb ho).2.2
      refine ⟨fun _ => hall x hx, fun _ => ⟨_, List.mem_singleton_self _, rfl, ?_⟩⟩
      exact Span.within_iff.mpr ⟨show o.stop ≤ x.node.start by omega, hxb.2.2⟩
  | all _ hall =>
      have hin := hwf.within_of_mem_preorder (h.name_within hwf hx).1
      have hpast := f.le_pastLineBreak n.stop
      refine ⟨fun _ => hall x hx, fun _ => ⟨_, List.mem_singleton_self _, rfl, ?_⟩⟩
      rw [h.node]
      exact Span.within_iff.mpr ⟨hin.1, Nat.le_trans hin.2 hpast⟩

/-! ## The deletions of all imports -/

/-- The names of operators that are imported and that nothing calls. -/
def staleNames (f : SourceFile) : List ImportedName :=
  (f.importsFrom Vocabulary.operators).flatMap fun d => d.names.filter fun x =>
    Vocabulary.limitingOperators.contains x.imported && f.callCount x.imported == 0

theorem unusedOperators_contains (f : SourceFile) (name : Text) :
    f.unusedOperators.contains name =
      (Vocabulary.limitingOperators.contains name && f.callCount name == 0) := by
  rw [Bool.eq_iff_iff]
  simp [unusedOperators]

theorem staleNames_eq (f : SourceFile) :
    f.staleNames = (f.importsFrom Vocabulary.operators).flatMap (removed f.unusedOperators) := by
  unfold staleNames removed
  simp only [unusedOperators_contains]

theorem mem_importsFrom {moduleName : Text} (h : d ∈ f.importsFrom moduleName) :
    d.moduleName = moduleName ∧ ∃ n ∈ f.root.children, f.ImportAt n d := by
  obtain ⟨hd, hm⟩ := List.mem_filter.mp h
  exact ⟨by simpa using hm, mem_imports hd⟩

theorem prunings_edits (f : SourceFile) : f.prunings.flatMap ImportChange.edits =
    (f.importsFrom Vocabulary.operators).flatMap fun d => (f.pruneDecl f.unusedOperators d).edits := by
  rw [prunings, List.flatMap_map]

/-- The line break behind an import comes before the next import. -/
theorem importsFrom_pairwise (hf : f.Importable) (moduleName : Text) :
    (f.importsFrom moduleName).Pairwise fun a b => f.pastLineBreak a.node.stop ≤ b.node.start := by
  have hpair : (f.importsFrom moduleName).Pairwise fun a b => a.node.stop ≤ b.node.start :=
    (imports_pairwise hf.wellFormed.tree).sublist List.filter_sublist
  refine hpair.imp_of_mem ?_
  intro c d _ hd hcd
  obtain ⟨-, n, hn, hat⟩ := mem_importsFrom hd
  refine pastLineBreak_le hcd ?_
  rw [hat.node]
  exact hf.solid n (hat.mem_statements hn)

/-- The deletions of all imports come in order and apart. -/
theorem prunings_pairwise (hf : f.Importable) :
    (f.prunings.flatMap ImportChange.edits).Pairwise fun a b => a.span.stop ≤ b.span.start := by
  rw [prunings_edits, List.pairwise_flatMap]
  constructor
  · intro d hd
    obtain ⟨-, n, hn, hat⟩ := mem_importsFrom hd
    exact (hat.prune_bounds hn hf).1
  · refine (importsFrom_pairwise hf _).imp_of_mem ?_
    intro c d hc hd hcd x hx y hy
    obtain ⟨-, m, hm, hcat⟩ := mem_importsFrom hc
    obtain ⟨-, n, hn, hdat⟩ := mem_importsFrom hd
    have hxb := (hcat.prune_bounds hm hf).2 x hx
    have hyb := (hdat.prune_bounds hn hf).2 y hy
    rw [hcat.node, hdat.node] at hcd
    omega

theorem mem_prunings (hf : f.Importable) : ∀ e ∈ f.prunings.flatMap ImportChange.edits,
    e.text = [] ∧ e.span.start < e.span.stop ∧
      f.text.IsBorder e.span.start ∧ f.text.IsBorder e.span.stop := by
  rw [prunings_edits]
  intro e he
  obtain ⟨d, hd, he⟩ := List.mem_flatMap.mp he
  obtain ⟨-, n, hn, hat⟩ := mem_importsFrom hd
  obtain ⟨htext, -, hlt, -, hstart, hstop⟩ := (hat.prune_bounds hn hf).2 e he
  exact ⟨htext, hlt, hstart, hstop⟩

/-- **A name goes exactly when it is stale**: no deletion of another import reaches it. -/
theorem prunes_iff (hf : f.Importable) (hd : d ∈ f.importsFrom Vocabulary.operators)
    {x : ImportedName} (hx : x ∈ d.names) : Prunes (f.prunings.flatMap ImportChange.edits) x ↔
      Vocabulary.limitingOperators.contains x.imported = true ∧ f.callCount x.imported = 0 := by
  obtain ⟨-, n, hn, hat⟩ := mem_importsFrom hd
  have hwf := hf.wellFormed.tree.child hn
  have hstale : (Vocabulary.limitingOperators.contains x.imported = true ∧
      f.callCount x.imported = 0) ↔ f.unusedOperators.contains x.imported = true := by
    rw [unusedOperators_contains, Bool.and_eq_true, beq_iff_eq]
  rw [hstale, ← hat.prunes_iff hn hf hx, prunings_edits]
  constructor
  · rintro ⟨e, he, htext, hin⟩
    obtain ⟨c, hc, he⟩ := List.mem_flatMap.mp he
    obtain ⟨-, m, hm, hcat⟩ := mem_importsFrom hc
    have hle := Span.within_iff.mp hin
    simp only [Node.span] at hle
    obtain ⟨b, hb, -⟩ := hat.exists_braces hx
    obtain ⟨hxn, hxb⟩ := hat.name_within hwf hx
    have hxin := hwf.within_of_mem_preorder hxn
    have hxne := (hxb b hb).2.1
    have hbounds := (hcat.prune_bounds hm hf).2 e he
    have hsymm : Std.Symm fun a b : ImportDecl => f.pastLineBreak a.node.stop ≤ b.node.start ∨
        f.pastLineBreak b.node.stop ≤ a.node.start := ⟨fun _ _ => Or.symm⟩
    have hpair : (f.importsFrom Vocabulary.operators).Pairwise fun a b =>
        f.pastLineBreak a.node.stop ≤ b.node.start ∨ f.pastLineBreak b.node.stop ≤ a.node.start :=
      (importsFrom_pairwise hf _).imp Or.inl
    by_cases hcd : c = d
    · rw [hcd] at he
      exact ⟨e, he, htext, hin⟩
    · have hpast := f.le_pastLineBreak n.stop
      have happart := hpair.forall hc hd hcd
      rw [hcat.node, hat.node] at happart
      omega
  · rintro ⟨e, he, htext, hin⟩
    exact ⟨e, List.mem_flatMap.mpr ⟨d, hd, he⟩, htext, hin⟩

/-! ## Pruning among all changes -/

theorem importChange_edits (f : SourceFile) (required : NameSet) :
    (f.importChange required).edits =
      (f.additions required).edits ++ f.prunings.flatMap ImportChange.edits := by
  simp [importChange]

/-- How missing names are added: to the braces of an import, or with an import of their own. -/
inductive AddCase (f : SourceFile) (required : NameSet) : List Edit → Prop
  | nothing (h : f.missing required = []) : AddCase f required []
  | extended {d : ImportDecl} {b : Node} (h : f.missing required ≠ [])
      (ht : f.target? = some (d, b)) : AddCase f required [extension d b (f.missing required)]
  | inserted (h : f.missing required ≠ []) (ht : f.target? = none) : AddCase f required
      [.insertion f.anchor (f.importLayout.statement Vocabulary.streams (f.missing required))]

theorem additions_cases (f : SourceFile) (required : NameSet) :
    AddCase f required (f.additions required).edits ∧
      (f.additions required).counts = ⟨(f.missing required).length, 0, 0⟩ := by
  unfold additions
  cases hmissing : f.missing required with
  | nil => exact ⟨.nothing hmissing, rfl⟩
  | cons name names =>
      have hne : f.missing required ≠ [] := by
        rw [hmissing]
        exact List.cons_ne_nil _ _
      cases htarget : f.target? with
      | none =>
          have hcase := AddCase.inserted hne htarget
          rw [hmissing] at hcase
          exact ⟨hcase, rfl⟩
      | some p =>
          have hcase := AddCase.extended hne htarget
          rw [hmissing] at hcase
          exact ⟨hcase, rfl⟩

/-- The import that names are added to has braces and imports values from the module of the helpers. -/
theorem target?_eq_some {b : Node} (h : f.target? = some (d, b)) :
    d ∈ f.importsFrom Vocabulary.streams ∧ d.typeOnly = false ∧ d.named = some b := by
  obtain ⟨c, hc, hcd⟩ := List.exists_of_findSome?_eq_some h
  cases htype : c.typeOnly with
  | true => simp [htype] at hcd
  | false =>
      simp only [htype, Bool.false_eq_true, if_false, Option.map_eq_some_iff, Prod.mk.injEq] at hcd
      obtain ⟨b', hb', rfl, rfl⟩ := hcd
      exact ⟨hc, htype, hb'⟩

theorem importLayout_lineBreak (f : SourceFile) : f.importLayout.lineBreak = f.text.lineBreak := by
  unfold importLayout
  cases f.imports <;> rfl

theorem importLayout_quote (f : SourceFile) :
    f.importLayout.quote = '"' ∨ f.importLayout.quote = '\'' := by
  unfold importLayout
  cases f.imports with
  | nil => exact Or.inl rfl
  | cons first rest =>
      dsimp only
      split
      · exact Or.inr rfl
      · exact Or.inl rfl

/-- A new import goes in front of a child of the program, or to the start of the file. -/
theorem anchor_cases (f : SourceFile) : f.anchor = 0 ∨ ∃ n ∈ f.root.children, f.anchor = n.start := by
  unfold anchor
  split
  · next d ds hd =>
      obtain ⟨-, n, hn, hat⟩ := mem_importsFrom (hd ▸ List.mem_cons_self : d ∈ f.importsFrom _)
      exact Or.inr ⟨n, hn, by rw [hat.node]⟩
  · cases hfirst : f.firstStatement? with
    | none => exact Or.inl rfl
    | some k =>
        obtain ⟨n, hn, rfl⟩ := Option.map_eq_some_iff.mp hfirst
        exact Or.inr ⟨n, List.mem_of_find?_eq_some hn, rfl⟩

/-- Adding names deletes nothing. -/
theorem text_of_mem_additions {required : NameSet} {e : Edit} (h : e ∈ (f.additions required).edits) :
    e.text ≠ [] := by
  have hcase := (f.additions_cases required).1
  generalize (f.additions required).edits = es at hcase h
  cases hcase with
  | nothing => cases h
  | @extended d b hne _ =>
      rw [List.mem_singleton.mp h, extension]
      cases d.names.getLast? with
      | none => exact List.cons_ne_nil _ _
      | some last =>
          obtain ⟨name, names, hnames⟩ := List.exists_cons_of_ne_nil hne
          rw [hnames]
          exact List.cons_ne_nil _ _
  | inserted =>
      rw [List.mem_singleton.mp h]
      exact List.cons_ne_nil _ _

instance (es : List Edit) (x : ImportedName) : Decidable (Prunes es x) :=
  inferInstanceAs (Decidable (∃ e ∈ es, e.text = [] ∧ x.node.span.within e.span = true))

theorem prunes_importChange_iff (required : NameSet) (x : ImportedName) :
    Prunes (f.importChange required).edits x ↔ Prunes (f.prunings.flatMap ImportChange.edits) x := by
  rw [importChange_edits]
  constructor
  · rintro ⟨e, he, htext, hin⟩
    rcases List.mem_append.mp he with he | he
    · exact absurd htext (text_of_mem_additions he)
    · exact ⟨e, he, htext, hin⟩
  · rintro ⟨e, he, htext, hin⟩
    exact ⟨e, List.mem_append_right _ he, htext, hin⟩

theorem callCount_eq_zero_iff {name : Text} :
    f.callCount name = 0 ↔ ∀ call ∈ f.root.preorder, f.callsName name call = false := by
  rw [callCount, List.length_eq_zero_iff, List.filter_eq_nil_iff]
  simp only [Bool.not_eq_true]

/-- **A pruned name is called nowhere.** An imported name of an operator is pruned exactly when it is
the name of a limiting operator and no call calls it by that name. The name in the file does not
matter, and neither do calls into which a prefix was folded. -/
theorem pruned_name_is_called_nowhere {dialect : Dialect} {t : Text} (h : parse? dialect t = .ok f)
    (required : NameSet) (hd : d ∈ f.importsFrom Vocabulary.operators) {x : ImportedName}
    (hx : x ∈ d.names) :
    (Prunes (f.importChange required).edits x ↔
      Vocabulary.limitingOperators.contains x.imported = true ∧ f.callCount x.imported = 0) ∧
    (Prunes (f.importChange required).edits x → ∀ call ∈ f.root.preorder,
      call.kind = .callExpression → call.prefixedOperand? = none → ∀ callee,
        call.callee? = some callee → callee.kind = .identifier →
          f.textOf callee ≠ x.imported ∧
            (x.localName = x.imported → f.textOf callee ≠ x.localName)) := by
  have hiff := (prunes_importChange_iff required x).trans (prunes_iff (parse?_importable h) hd hx)
  refine ⟨hiff, ?_⟩
  intro hprunes call hcall hkind hfree callee hcallee hbare
  have hnone := callCount_eq_zero_iff.mp (hiff.mp hprunes).2 call hcall
  have hfunction : call.child? .function = some callee := by
    rw [Node.callee?, hfree] at hcallee
    exact hcallee
  have hne : f.textOf callee ≠ x.imported := by
    simpa [callsName, hkind, hfunction, hbare] using hnone
  exact ⟨hne, fun hlocal => hlocal ▸ hne⟩

set_option maxRecDepth 100000 in
/-- Of two operators one is still called. -/
theorem uncalled_operator_is_pruned :
    ∃ f, parse? .typeScript
        "import { first, take } from 'rxjs/operators'\na.pipe(take(2), first);\n".toList = .ok f ∧
      ∃ d ∈ f.importsFrom Vocabulary.operators, ∃ x ∈ d.names, ∃ y ∈ d.names,
        Prunes (f.importChange .empty).edits x ∧ ¬ Prunes (f.importChange .empty).edits y ∧
        ∀ call ∈ f.root.preorder, call.kind = .callExpression → call.prefixedOperand? = none →
          ∀ callee, call.callee? = some callee → callee.kind = .identifier →
            f.textOf callee ≠ x.imported := by
  obtain ⟨f, hf, d, hd, x, hx, y, hy, hxc, hyc⟩ : ∃ f, parse? .typeScript
        "import { first, take } from 'rxjs/operators'\na.pipe(take(2), first);\n".toList = .ok f ∧
      ∃ d ∈ f.importsFrom Vocabulary.operators, ∃ x ∈ d.names, ∃ y ∈ d.names,
        (Vocabulary.limitingOperators.contains x.imported = true ∧ f.callCount x.imported = 0) ∧
        ¬ (Vocabulary.limitingOperators.contains y.imported = true ∧ f.callCount y.imported = 0) :=
    exists_of_parse _ (by decide +kernel) fun _ h => h
  obtain ⟨hiff, hcalls⟩ := pruned_name_is_called_nowhere hf .empty hd hx
  have hiff' := (pruned_name_is_called_nowhere hf .empty hd hy).1
  refine ⟨f, hf, d, hd, x, hx, y, hy, hiff.mpr hxc, fun h => hyc (hiff'.mp h), ?_⟩
  intro call hcall hkind hfree callee hcallee hbare
  exact (hcalls (hiff.mpr hxc) call hcall hkind hfree callee hcallee hbare).1

set_option maxRecDepth 100000 in
/-- A name that is called by another name in the file is pruned all the same. -/
theorem renamed_operator_is_pruned :
    ∃ f, parse? .typeScript
        "import { take as once } from \"rxjs/operators\";\nonce(1);\n".toList = .ok f ∧
      ∃ d ∈ f.importsFrom Vocabulary.operators, ∃ x ∈ d.names,
        Prunes (f.importChange .empty).edits x ∧ ∃ call ∈ f.root.preorder,
          call.kind = .callExpression ∧
            (call.callee?.any fun callee => f.textOf callee == x.localName) = true := by
  refine exists_of_parse
    (fun f => ∃ d ∈ f.importsFrom Vocabulary.operators, ∃ x ∈ d.names,
      Prunes (f.importChange .empty).edits x ∧ ∃ call ∈ f.root.preorder,
        call.kind = .callExpression ∧
          (call.callee?.any fun callee => f.textOf callee == x.localName) = true)
    (by decide +kernel) fun _ h => h

end SourceFile

end Promisify
