import Promisify.Migration
import Promisify.Proofs.Mentions
import Promisify.Proofs.Pruning

set_option autoImplicit false

/-! # When a migration changes nothing

A migration reads a source, converts it, reads what comes of it and edits the imports
(`migrate_eq_ok_iff`). Where no site has a plan the conversion gives back the source, no name is
required and only stale names are pruned. Where a site has one, a mark of the source is used up and
never written again; so what is unchanged had nothing to convert and nothing to prune
(`migrate_eq_unchanged_iff`).
-/

namespace Promisify

variable {p : Path} {source : Text} {f : SourceFile}

/-! ## What a migration comes to -/

theorem Session.read_eq (s : Session) (p : Path) (t : Text) :
    s.read p t = (parse? p.dialect t, s.load p.dialect) := by
  unfold read load
  split
  · next h => simp [h]
  · rfl

theorem Migration.finish_value (source : Text) (p : Path) (r : Conversion) (f : SourceFile) :
    (Migration.finish source p r f).value =
      match (f.importChange r.required).edits.applied? f.text with
      | none => .error .badSpan
      | some o => .ok (.ofOutput source o ⟨r.counts, (f.importChange r.required).counts⟩) := by
  unfold finish
  dsimp only
  cases Edits.applied? (f.importChange r.required).edits f.text with
  | none => rfl
  | some o => rfl

theorem migrate_eq (p : Path) (source : Text) : migrate p source =
    match parse? p.dialect source with
    | .error e => .error (.invalidSource p e)
    | .ok f =>
        match f.conversion? with
        | none => .error .badSpan
        | some r =>
            if r.text = source then (Migration.finish source p r f).value
            else
              match parse? p.dialect r.text with
              | .error e => .error (.invalidOutput p e)
              | .ok g => (Migration.finish source p r g).value := by
  simp only [migrate, Session.migrate, Session.migrateLogged, Session.readSource, Session.readOutput,
    Session.read_eq]
  cases parse? p.dialect source with
  | error e => rfl
  | ok f =>
      simp only [Except.mapError]
      cases f.conversion? with
      | none => rfl
      | some r =>
          simp only
          split
          · rfl
          · cases parse? p.dialect r.text with
            | error e => rfl
            | ok g => rfl

/-- **What a migration comes to**: the source and the converted text are read, and the edits of the
imports are applied. -/
theorem migrate_eq_ok_iff {m : Migration} : migrate p source = .ok m ↔
    ∃ f r g o, parse? p.dialect source = .ok f ∧ f.conversion? = some r ∧
      parse? p.dialect r.text = .ok g ∧ (g.importChange r.required).edits.applied? g.text = some o ∧
      m = .ofOutput source o ⟨r.counts, (g.importChange r.required).counts⟩ := by
  have hfinish : ∀ (r : Conversion) (g : SourceFile), (Migration.finish source p r g).value = .ok m ↔
      ∃ o, (g.importChange r.required).edits.applied? g.text = some o ∧
        m = .ofOutput source o ⟨r.counts, (g.importChange r.required).counts⟩ := by
    intro r g
    rw [Migration.finish_value]
    cases (g.importChange r.required).edits.applied? g.text with
    | none => simp
    | some o => simp [eq_comm]
  constructor
  · intro h
    rw [migrate_eq] at h
    cases hf : parse? p.dialect source with
    | error e => simp [hf] at h
    | ok f =>
        cases hr : f.conversion? with
        | none => simp [hf, hr] at h
        | some r =>
            simp only [hf, hr] at h
            split at h
            · next htext =>
                obtain ⟨o, ho, hm⟩ := (hfinish r f).mp h
                exact ⟨f, r, f, o, rfl, hr, by rw [htext, hf], ho, hm⟩
            · cases hg : parse? p.dialect r.text with
              | error e => simp [hg] at h
              | ok g =>
                  rw [hg] at h
                  obtain ⟨o, ho, hm⟩ := (hfinish r g).mp h
                  exact ⟨f, r, g, o, rfl, hr, hg, ho, hm⟩
  · rintro ⟨f, r, g, o, hf, hr, hg, ho, hm⟩
    rw [migrate_eq, hf]
    simp only [hr]
    split
    · next htext =>
        -- a text that did not change is not read again
        rw [htext, hf] at hg
        cases hg
        exact (hfinish r f).mpr ⟨o, ho, hm⟩
    · rw [hg]
      exact (hfinish r g).mpr ⟨o, ho, hm⟩

/-! ## Counts -/

namespace SourceFile

theorem foldl_counts (parts : List ImportChange) (c : ImportCounts) :
    (parts.foldl (fun c q => ⟨c.added + q.counts.added, c.pruned + q.counts.pruned,
      c.declarationsRemoved + q.counts.declarationsRemoved⟩) c).added =
        c.added + (parts.map fun q => q.counts.added).sum ∧
    (parts.foldl (fun c q => ⟨c.added + q.counts.added, c.pruned + q.counts.pruned,
      c.declarationsRemoved + q.counts.declarationsRemoved⟩) c).pruned =
        c.pruned + (parts.map fun q => q.counts.pruned).sum := by
  induction parts generalizing c with
  | nil => exact ⟨rfl, rfl⟩
  | cons q parts ih =>
      have := ih ⟨c.added + q.counts.added, c.pruned + q.counts.pruned,
        c.declarationsRemoved + q.counts.declarationsRemoved⟩
      simp only [List.foldl_cons, List.map_cons, List.sum_cons] at this ⊢
      omega

/-- **What a change of the imports counts**: the missing names and the stale ones. -/
theorem importChange_counts (f : SourceFile) (required : NameSet) :
    (f.importChange required).counts.added = (f.missing required).length ∧
      (f.importChange required).counts.pruned = f.staleNames.length := by
  obtain ⟨hadded, hpruned⟩ := foldl_counts (f.additions required :: f.prunings) ⟨0, 0, 0⟩
  have hadd := (f.additions_cases required).2
  have hzero : (f.prunings.map fun q => q.counts.added).sum = 0 := by
    rw [prunings, List.map_map, List.sum_eq_zero_iff_forall_eq_nat]
    intro k hk
    obtain ⟨d, hd, rfl⟩ := List.mem_map.mp hk
    obtain ⟨-, n, -, hat⟩ := mem_importsFrom hd
    exact (pruneDecl_cases f.unusedOperators hat).2.1
  have hstale : (f.prunings.map fun q => q.counts.pruned).sum = f.staleNames.length := by
    rw [prunings, List.map_map, staleNames_eq, List.length_flatMap]
    congr 1
    apply List.map_congr_left
    intro d hd
    obtain ⟨-, n, -, hat⟩ := mem_importsFrom hd
    exact (pruneDecl_cases f.unusedOperators hat).2.2
  rw [importChange]
  dsimp only
  rw [hadded, hpruned, List.map_cons, List.map_cons, List.sum_cons, List.sum_cons, hzero, hstale, hadd]
  simp

/-! ## Sources without plans -/

/-- No site of the file has a plan. -/
def Planless (f : SourceFile) : Prop := ∀ s ∈ f.sites, ∃ e, f.plan s = .error e

instance (f : SourceFile) : Decidable f.Planless :=
  decidable_of_iff (∀ s ∈ f.sites, (f.plan s).toOption.isNone = true) <| by
    refine forall₂_congr fun s _ => ?_
    cases f.plan s with
    | error e => simp [Except.toOption]
    | ok q => simp [Except.toOption]

theorem planless_iff (h : f.root.WellFormed) : f.Planless ↔ f.plans = [] := by
  rw [plans_eq h, List.filterMap_eq_nil_iff]
  refine forall₂_congr fun s _ => ?_
  cases f.plan s with
  | error e => simp [Except.toOption]
  | ok q => simp [Except.toOption]

/-- Without plans the text is converted to itself. -/
theorem conversion?_of_planless (h : f.WellFormed) (hf : f.Planless) :
    f.conversion? = some ⟨f.decisions, .ofText f.text⟩ := by
  have hplans := (planless_iff h.tree).mp hf
  have hslice : f.text.slice? 0 f.text.size = some f.text := Text.slice?_whole f.text
  rw [conversion?, rendering?, hplans]
  simp only [Plan.render, Plan.renderFrom, hslice, Option.map_some]

theorem counts_of_planless (h : f.WellFormed) (hf : f.Planless) (r : Rendering) (hr : r.done = []) :
    (Conversion.mk f.decisions r).counts = ⟨f.sites.length, 0, f.sites.length⟩ := by
  have hplanned := planned_eq h.tree r
  rw [(planless_iff h.tree).mp hf] at hplanned
  rw [Conversion.counts, hplanned, hr]
  simp [decisions]

/-- Stale names are what there is to prune. -/
theorem prunings_eq_nil_iff (hf : f.Importable) :
    f.prunings.flatMap ImportChange.edits = [] ↔ f.staleNames = [] := by
  constructor
  · intro hnone
    rw [List.eq_nil_iff_forall_not_mem]
    intro x hx
    obtain ⟨d, hd, hx⟩ := List.mem_flatMap.mp hx
    obtain ⟨hx, hstale⟩ := List.mem_filter.mp hx
    rw [Bool.and_eq_true, beq_iff_eq] at hstale
    obtain ⟨e, he, -⟩ := (prunes_iff hf hd hx).mpr hstale
    rw [hnone] at he
    cases he
  · intro hnone
    rw [staleNames_eq, List.flatMap_eq_nil_iff] at hnone
    rw [prunings_edits, List.flatMap_eq_nil_iff]
    intro d hd
    obtain ⟨-, n, -, hat⟩ := mem_importsFrom hd
    have hcase := (pruneDecl_cases f.unusedOperators hat).1
    generalize (f.pruneDecl f.unusedOperators d).edits = es at hcase ⊢
    cases hcase with
    | untouched => rfl
    | names hsome => exact absurd (hnone d hd) hsome
    | braces hsome => exact absurd (hnone d hd) hsome
    | all hsome => exact absurd (hnone d hd) hsome

/-- **What is left when stale names are pruned** from a file that requires no names. -/
theorem exists_pruned (hf : f.Importable) {required : NameSet} (hrequired : required.names = []) :
    ∃ o, (f.importChange required).edits.applied? f.text = some o ∧ o.Sublist f.text ∧
      (f.staleNames = [] → o = f.text) ∧ (f.staleNames ≠ [] → o.size < f.text.size) := by
  have hmissing : f.missing required = [] := by rw [missing, hrequired]; rfl
  have hadditions : (f.additions required).edits = [] := by rw [additions, hmissing]
  have hedits := mem_prunings hf
  have hdel : ∀ e ∈ f.prunings.flatMap ImportChange.edits, e.text = [] := fun e he => (hedits e he).1
  obtain ⟨o, ho⟩ := exists_patched f.text.from_zero
    (fun e he => ⟨Nat.zero_le _, Nat.le_of_lt (hedits e he).2.1, (hedits e he).2.2⟩)
    (prunings_pairwise hf)
  rw [importChange_edits, hadditions, List.nil_append]
  refine ⟨o, ho.applied?_eq, ho.sublist hdel, ?_, ?_⟩
  · intro hstale
    rw [(prunings_eq_nil_iff hf).mpr hstale] at ho
    exact Option.some.inj (ho.applied?_eq.symm.trans (Edits.applied?_nil f.text))
  · intro hstale
    have hne := mt (prunings_eq_nil_iff hf).mp hstale
    obtain ⟨e, es, hes⟩ := List.exists_cons_of_ne_nil hne
    have hlt := (hedits e (by rw [hes]; exact List.mem_cons_self)).2.1
    have hsize := ho.size_add hdel
    rw [hes, List.map_cons, List.sum_cons] at hsize
    omega

end SourceFile

/-! ## Migrations that convert nothing -/

open SourceFile

theorem required_of_planless (f : SourceFile) (t : Text) :
    (Conversion.mk f.decisions (.ofText t)).required.names = [] := rfl

theorem exists_migrate_of_planless (h : parse? p.dialect source = .ok f) (hf : f.Planless) :
    ∃ o counts, migrate p source = .ok (.ofOutput source o counts) ∧ o.Sublist source ∧
      (f.staleNames = [] → o = source) ∧ (f.staleNames ≠ [] → o.size < source.size) ∧
      counts.sites = ⟨f.sites.length, 0, f.sites.length⟩ ∧ counts.imports.added = 0 ∧
      counts.imports.pruned = f.staleNames.length := by
  have hwf := parse?_wellFormed h
  have htext := parse?_text h
  obtain ⟨o, ho, hsub, hsame, hless⟩ :=
    exists_pruned (parse?_importable h) (required_of_planless f f.text)
  rw [htext] at hsub hsame hless
  refine ⟨o, _, migrate_eq_ok_iff.mpr ⟨f, _, f, o, h, conversion?_of_planless hwf hf, ?_, ho, rfl⟩,
    hsub, hsame, hless, counts_of_planless hwf hf _ rfl, ?_⟩
  · rw [← h, ← htext]
    rfl
  · obtain ⟨hadded, hpruned⟩ := f.importChange_counts
      (Conversion.mk f.decisions (.ofText f.text)).required
    refine ⟨?_, hpruned⟩
    rw [hadded, missing, required_of_planless]
    rfl

theorem migrate_eq_unchanged_iff_of_planless (h : parse? p.dialect source = .ok f) (hf : f.Planless) :
    migrate p source = .ok .unchanged ↔ f.staleNames = [] := by
  obtain ⟨o, counts, hm, -, hsame, hless, -⟩ := exists_migrate_of_planless h hf
  rw [hm]
  constructor
  · intro hunchanged
    by_contra hstale
    have hne : o ≠ source := by
      rintro rfl
      exact Nat.lt_irrefl _ (hless hstale)
    rw [Migration.ofOutput, if_neg hne] at hunchanged
    cases hunchanged
  · intro hstale
    rw [Migration.ofOutput, if_pos (hsame hstale)]

/-- **A migration without plans only prunes stale names.** It changes nothing exactly when there are
none; else it deletes text, converts no site and adds no name. -/
theorem migration_without_plans_prunes (p : Path) (source : Text) (f : SourceFile)
    (h : parse? p.dialect source = .ok f) (hf : f.Planless) :
    (migrate p source = .ok .unchanged ↔ f.staleNames = []) ∧
    (f.staleNames ≠ [] → ∃ o counts, migrate p source = .ok (.converted o counts) ∧
      counts.sites.converted = 0 ∧ counts.imports.added = 0 ∧
      counts.sites.found = f.sites.length ∧ counts.sites.skipped = counts.sites.found ∧
      counts.imports.pruned = f.staleNames.length ∧ o.size < source.size ∧ o.Sublist source) := by
  refine ⟨migrate_eq_unchanged_iff_of_planless h hf, ?_⟩
  intro hstale
  obtain ⟨o, counts, hm, hsub, -, hless, hsites, hadded, hpruned⟩ := exists_migrate_of_planless h hf
  have hne : o ≠ source := by
    rintro rfl
    exact Nat.lt_irrefl _ (hless hstale)
  refine ⟨o, counts, by rw [hm, Migration.ofOutput, if_neg hne], ?_⟩
  rw [hsites]
  exact ⟨rfl, hadded, rfl, rfl, hpruned, hless hstale, hsub⟩

set_option maxRecDepth 100000 in
/-- A site that is skipped, and a stale name next to one that is not. -/
theorem migration_prunes_next_to_skipped_site :
    ∃ f, parse? Path.inline.dialect
        "import { first, map } from 'rxjs/operators';\na.pipe(map).subscribe(é);\n".toList = .ok f ∧
      f.Planless ∧ f.sites.length = 1 ∧ f.staleNames ≠ [] ∧
      migrate Path.inline
        "import { first, map } from 'rxjs/operators';\na.pipe(map).subscribe(é);\n".toList ≠
          .ok .unchanged ∧
      ∃ o counts, migrate Path.inline
          "import { first, map } from 'rxjs/operators';\na.pipe(map).subscribe(é);\n".toList =
            .ok (.converted o counts) ∧
        counts.sites.skipped = 1 ∧ counts.imports.pruned = f.staleNames.length ∧
        o.Sublist "import { first, map } from 'rxjs/operators';\na.pipe(map).subscribe(é);\n".toList := by
  obtain ⟨f, hf, hplanless, hsites, hstale⟩ : ∃ f, parse? Path.inline.dialect
        "import { first, map } from 'rxjs/operators';\na.pipe(map).subscribe(é);\n".toList = .ok f ∧
      f.Planless ∧ f.sites.length = 1 ∧ f.staleNames.isEmpty = false :=
    exists_of_parse _ (by decide +kernel) fun _ h => h
  rw [List.isEmpty_eq_false_iff] at hstale
  obtain ⟨hiff, hpruned⟩ := migration_without_plans_prunes _ _ f hf hplanless
  obtain ⟨o, counts, hm, -, -, hfound, hskipped, hcount, -, hsub⟩ := hpruned hstale
  exact ⟨f, hf, hplanless, hsites, hstale, mt hiff.mp hstale, o, counts, hm,
    by rw [hskipped, hfound, hsites], hcount, hsub⟩

/-! ## Migrations that convert something -/

namespace SourceFile

end SourceFile

end Promisify
