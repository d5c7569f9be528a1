import Promisify.Proofs.Schedules

set_option autoImplicit false

/-! # Runs

A run that ends with an error has changed nothing; any other run is a schedule of a crew and changes the
files that its report counts as migrated, and no others. So what holds of all schedules holds of a
run: with no two paths to the same file it leaves what every other schedule leaves, and a dry run says
what a run would write.
-/

namespace Promisify

variable {t u : FileTree} {limit : Option Nat} {c d : Config} {inputs files : List Path} {p : Path}

namespace FileTree

/-! ## The files of a run -/

theorem contributions_congr (h : ∀ input, t.contributed? d input = t.contributed? c input)
    (inputs : List Path) : t.contributions d inputs = t.contributions c inputs := by
  induction inputs with
  | nil => rfl
  | cons input inputs ih => simp only [contributions, h, ih]

/-- The files of a run depend on two settings only. -/
theorem collect_congr (c d : Config) (inputs : List Path) (hextensions : d.extensions = c.extensions)
    (hexclude : d.excludeDirs = c.excludeDirs) :
    t.collect d inputs = t.collect c inputs := by
  have hpicks : d.picks = c.picks := by
    funext p
    simp only [Config.picks, hextensions]
  have hskips : d.skips = c.skips := by
    funext name
    simp only [Config.skips, hexclude]
  have hcontributed : ∀ input, t.contributed? d input = t.contributed? c input := by
    intro input
    simp only [contributed?, candidates, hpicks, hskips]
  rw [collect, collect, contributions_congr hcontributed]

/-! ## How a run ends -/

/-- A run does not start: its configuration cannot be used, an input is missing, or the workers cannot be
started. -/
def Refuses (t : FileTree) (limit : Option Nat) (c : Config) (inputs : List Path) (e : RunError) : Prop :=
  (∃ problem, c.check = .error problem ∧ e = .config problem) ∨
    (c.check = .ok () ∧ t.collect c inputs = .error e) ∨
    ∃ files fault, c.check = .ok () ∧ t.collect c inputs = .ok files ∧
      c.startWorkers limit = .error fault ∧ e = .threadPool fault

theorem run_of_refuses {e : RunError} (h : t.Refuses limit c inputs e) :
    (t.run limit c inputs).outcome = .error e ∧ (t.run limit c inputs).tree = t := by
  rcases h with ⟨problem, hcheck, rfl⟩ | ⟨hcheck, hcollect⟩ | ⟨files, fault, hcheck, hcollect, hstart, rfl⟩
  · simp only [run, hcheck, and_self]
  · simp only [run, hcheck, hcollect, and_self]
  · simp only [run, hcheck, hcollect, hstart, and_self]

/-- A run starts with these files. -/
structure Starts (t : FileTree) (limit : Option Nat) (c : Config) (inputs files : List Path) : Prop where
  check : c.check = .ok ()
  collect : t.collect c inputs = .ok files
  workers : c.startWorkers limit = .ok ()

theorem refuses_or_starts (t : FileTree) (limit : Option Nat) (c : Config) (inputs : List Path) :
    (∃ e, t.Refuses limit c inputs e) ∨ ∃ files, t.Starts limit c inputs files := by
  cases hcheck : c.check with
  | error problem => exact Or.inl ⟨.config problem, Or.inl ⟨problem, hcheck, rfl⟩⟩
  | ok _ =>
      cases hcollect : t.collect c inputs with
      | error e => exact Or.inl ⟨e, Or.inr (Or.inl ⟨hcheck, hcollect⟩)⟩
      | ok files =>
          cases hstart : c.startWorkers limit with
          | error fault =>
              exact Or.inl ⟨.threadPool fault, Or.inr (Or.inr ⟨files, fault, hcheck, hcollect, hstart, rfl⟩)⟩
          | ok _ => exact Or.inr ⟨files, hcheck, hcollect, hstart⟩

/-- **A run that starts is a schedule.** -/
theorem Starts.schedule (h : t.Starts limit c inputs files) :
    ∃ k, Crew.Reaches c (.start t (fun _ => .fresh) files) k ∧ k.Finished ∧
      (t.run limit c inputs).outcome = .ok (.ofResults k.results c.dryRun 0) ∧
      (t.run limit c inputs).tree = k.tree := by
  obtain ⟨hcheck, hcollect, hstart⟩ := h
  obtain ⟨k, hreaches, hfinished, hresults, htree⟩ := Crew.exists_schedule t .fresh c files
  refine ⟨k, hreaches, hfinished, ?_, ?_⟩
  · simp only [run, hcheck, hcollect, hstart, hresults]
  · simp only [run, hcheck, hcollect, hstart, htree]

/-- A dry run leaves the tree as it was. -/
theorem run_dry (t : FileTree) (limit : Option Nat) (inputs : List Path) (hdry : c.dryRun = true) :
    (t.run limit c inputs).tree = t := by
  rcases t.refuses_or_starts limit c inputs with ⟨e, hrefuses⟩ | ⟨files, hstarts⟩
  · exact (run_of_refuses hrefuses).2
  · obtain ⟨k, hreaches, -, -, htree⟩ := hstarts.schedule
    exact htree.trans (hreaches.accounted.dry hdry)

end FileTree

/-! ## Runs change what they report -/

/-- A report counts each of the files once and names them in their order. -/
structure Report.Covers (r : Report) (files : List Path) : Prop where
  length : r.files = files.length
  sum : r.files = r.ok + r.unmodified + r.errors.length
  errors : (r.errors.map Prod.fst).Sublist files
  printed : (r.printed.map Prod.fst).Sublist files

namespace FileTree

/-- A folder with files of every kind, and a file next to it. -/
def mixedFolder : FileTree where
  files := [
    (["src".toList, "a.ts".toList], .text "a.pipe(first()).subscribe(b);\n".toList),
    (["src".toList, "b.tsx".toList], .text "x.toPromise();\n".toList),
    (["src".toList, "c.ts".toList], .binary [255]),
    (["src".toList, "d.ts".toList], .text "x.toPromise(;\n".toList),
    (["src".toList, "e.ts".toList], .text "let e = 1;\n".toList),
    (["notes.txt".toList], .text "x.toPromise();\n".toList)]
  folders := []
  here := []

/-- The same folder with a file that cannot be written and one that cannot be read. -/
def guardedFolder : FileTree :=
  { mixedFolder with
    unreadable := [["src".toList, "e.ts".toList]]
    unwritable := [["src".toList, "b.tsx".toList]] }

/-- The folder with the files. -/
def mixedInput : Path := ⟨"src".toList⟩

/-- **All schedules leave the same**, whatever the workers have read before, when no two paths lead to
the same file: each file has the result and the text that it has when it is handled alone, also when
it cannot be written, and a run that can start its workers has that report and leaves that tree,
with any number of workers. Every schedule can be carried on to its end. -/
theorem schedules_leave_the_same (hfiles : t.collect c inputs = .ok files) (happart : t.Apart files)
    (sessions : Nat → Session) (k : Crew) (hreaches : Crew.Reaches c (.start t sessions files) k) :
    (∃ k', Crew.Reaches c k k' ∧ k'.Finished) ∧
    (k.Finished →
      k.results = files.map (fun p => (t.migrateFile .fresh c p).result) ∧
      t.SamePlaces k.tree ∧
      (∀ p ∈ files, ∀ l, t.locate p = .ok l →
        k.tree.file? l = (t.migrateFile .fresh c p).tree.file? l) ∧
      (∀ l, (∀ p ∈ files, t.locate p ≠ .ok l) → k.tree.file? l = t.file? l) ∧
      ∀ jobs limit, Config.check { c with jobs := jobs } = .ok () →
        (Config.startWorkers { c with jobs := jobs } limit = .ok () →
          (t.run limit { c with jobs := jobs } inputs).outcome =
            .ok (.ofResults k.results c.dryRun 0) ∧
          (t.run limit { c with jobs := jobs } inputs).tree = k.tree) ∧
        ∀ fault, Config.startWorkers { c with jobs := jobs } limit = .error fault →
          (t.run limit { c with jobs := jobs } inputs).outcome = .error (.threadPool fault) ∧
          (t.run limit { c with jobs := jobs } inputs).tree = t) := by
  have haccounted := hreaches.accounted
  have hundisturbed := hreaches.undisturbed happart
  refine ⟨Crew.exists_finished c k, fun hk => ⟨hundisturbed.results_eq haccounted hk,
    haccounted.places, ?_, ?_, ?_⟩⟩
  · intro p hp l hl
    obtain ⟨r, hr⟩ := haccounted.exists_finished hk hp
    exact hundisturbed.file?_eq haccounted happart hr hl
  · intro l hl
    by_contra hne
    obtain ⟨p, r, hp, hlocate, -⟩ := haccounted.changed hne
    refine hl p ?_ hlocate
    rw [← haccounted.paths]
    exact List.mem_map_of_mem hp
  · intro jobs limit hcheck
    have hcollect := (collect_congr c { c with jobs := jobs } inputs rfl rfl).trans hfiles
    refine ⟨fun hstart => ?_, fun fault hstart =>
      run_of_refuses (Or.inr (Or.inr ⟨files, fault, hcheck, hcollect, hstart, rfl⟩))⟩
    obtain ⟨k', hreaches', hk', houtcome, htree⟩ := Starts.schedule ⟨hcheck, hcollect, hstart⟩
    have haccounted' := hreaches'.accounted
    have hundisturbed' := hreaches'.undisturbed happart
    have hresults : k'.results = k.results := by
      rw [hundisturbed'.results_eq haccounted' hk', hundisturbed.results_eq haccounted hk]
      simp only [migrateFile, migrateRead_result]
      rfl
    refine ⟨by rw [houtcome, hresults], htree.trans ?_⟩
    rw [hundisturbed'.tree_eq haccounted' hk', hundisturbed.tree_eq haccounted hk]
    rfl

set_option maxRecDepth 100000 in
/-- Two workers with a session that has read the other dialect before: both have a file open at once,
and then carry on to the end in some order. One of the files cannot be written. -/
theorem two_workers_leave_the_same :
    ∃ k₁ k₂ : Crew,
      Crew.Reaches .initial (.start guardedFolder (fun _ => ⟨some .tsx⟩)
        [⟨"src/a.ts".toList⟩, ⟨"src/b.tsx".toList⟩]) k₁ ∧
      k₁.stages = [
        (⟨"src/a.ts".toList⟩, .opened 0 (guardedFolder.read ⟨"src/a.ts".toList⟩)),
        (⟨"src/b.tsx".toList⟩, .opened 1 (guardedFolder.read ⟨"src/b.tsx".toList⟩))] ∧
      Crew.Reaches .initial k₁ k₂ ∧ k₂.Finished ∧
      (k₂.results.map FileResult.status) = [.ok ⟨⟨1, 1, 0⟩, ⟨1, 0, 0⟩⟩,
        .failed "write failed: Permission denied (os error 13)".toList] ∧
      k₂.tree.file? ["src".toList, "a.ts".toList] =
        some (.text "import { firstValueFrom } from \"rxjs\";\nfirstValueFrom(a).then(b);\n".toList) ∧
      k₂.tree.file? ["src".toList, "b.tsx".toList] = some (.text "x.toPromise();\n".toList) ∧
      (guardedFolder.run none { Config.initial with jobs := some 2 }
        [⟨"src/a.ts".toList⟩, ⟨"src/b.tsx".toList⟩]).tree = k₂.tree := by
  have hfiles : guardedFolder.collect .initial [⟨"src/a.ts".toList⟩, ⟨"src/b.tsx".toList⟩] =
      .ok [⟨"src/a.ts".toList⟩, ⟨"src/b.tsx".toList⟩] := by decide +kernel
  have happart : guardedFolder.Apart [⟨"src/a.ts".toList⟩, ⟨"src/b.tsx".toList⟩] := by decide +kernel
  have hopened := Crew.reaches_opened_both .initial guardedFolder (fun _ => ⟨some .tsx⟩)
    ⟨"src/a.ts".toList⟩ ⟨"src/b.tsx".toList⟩
  obtain ⟨k₂, hreaches, hfinished⟩ := Crew.exists_finished .initial _
  obtain ⟨-, hsame⟩ :=
    schedules_leave_the_same hfiles happart (fun _ => ⟨some .tsx⟩) k₂ (hopened.trans hreaches)
  obtain ⟨hresults, -, htexts, -, hrun⟩ := hsame hfinished
  refine ⟨_, k₂, hopened, rfl, hreaches, hfinished, ?_, ?_, ?_, ?_⟩
  · rw [hresults]
    decide +kernel
  · rw [htexts ⟨"src/a.ts".toList⟩ (by decide) ["src".toList, "a.ts".toList] (by decide +kernel)]
    decide +kernel
  · rw [htexts ⟨"src/b.tsx".toList⟩ (by decide) ["src".toList, "b.tsx".toList] (by decide +kernel)]
    decide +kernel
  · exact ((hrun (some 2) none (by decide)).1 rfl).2

/-! ## Dry runs -/

/-- The text of a file in `u`, if the file reads otherwise there than in `t`. -/
def change? (t u : FileTree) (p : Path) : Option (Path × Text) :=
  match u.read p with
  | .ok (_, text) => if u.read p = t.read p then none else some (p, text)
  | .error _ => none

/-- The files that read otherwise in `u` than in `t`, each with its text in `u`. -/
def changes (t u : FileTree) (files : List Path) : List (Path × Text) :=
  files.filterMap (t.change? u)

/-- Every one of the files can be written. -/
def Writable (t : FileTree) (files : List Path) : Prop :=
  ∀ p ∈ files, ∀ l, t.locate p = .ok l → l ∉ t.unwritable

theorem change?_of_read_eq (h : u.read p = t.read p) : t.change? u p = none := by
  rw [change?, h]
  split
  · exact if_pos rfl
  · rfl

/-- A file has changed when there is a new text for it: migrating never gives back the text itself. -/
theorem change?_eq (hplaces : t.SamePlaces u)
    (hfile : ∀ l, t.locate p = .ok l →
      u.file? l = (t.writeAll (revision? t c p (t.read p)).toList).file? l) :
    t.change? u p = (revision? t c p (t.read p)).map fun w => (p, w.2) := by
  cases hrevision : revision? t c p (t.read p) with
  | none =>
      rw [hrevision] at hfile
      exact change?_of_read_eq (hplaces.read hfile)
  | some w =>
      obtain ⟨source, counts, hread, hm, -⟩ := revision?_eq_some_iff.mp hrevision
      obtain ⟨hl, -, hreadable⟩ := read_eq_ok_iff.mp hread
      have hnew : u.read p = .ok (w.1, w.2) := by
        refine read_eq_ok_iff.mpr ⟨(hplaces.locate p).trans hl, ?_, by rw [hplaces.unreadable]; exact hreadable⟩
        rw [hfile w.1 hl, hrevision]
        simp [file?_put]
      have hne : u.read p ≠ t.read p := by
        rw [hnew, hread]
        intro heq
        cases heq
        exact ne_source_of_converted hm rfl
      rw [change?, hnew]
      rw [hnew] at hne
      exact if_neg hne

/-- A run in which no two paths lead to the same file: what comes of each file is settled by what was
there before the run. -/
theorem Starts.of_apart (h : t.Starts limit c inputs files) (happart : t.Apart files) :
    (t.run limit c inputs).outcome = .ok (.ofResults (files.map fun p =>
      ⟨p, .ofRead t c p (t.read p), if c.print then (revision? t c p (t.read p)).map Prod.snd else none⟩)
      c.dryRun 0) ∧
    (c.dryRun = false → t.changes (t.run limit c inputs).tree files =
      files.filterMap fun p => (revision? t c p (t.read p)).map fun w => (p, w.2)) := by
  obtain ⟨k, hreaches, hk, houtcome, htree⟩ := h.schedule
  have haccounted := hreaches.accounted
  have hundisturbed := hreaches.undisturbed happart
  refine ⟨?_, fun hdry => ?_⟩
  · rw [houtcome, hundisturbed.results_eq haccounted hk]
    simp only [migrateFile, migrateRead_result]
  · rw [htree]
    refine List.filterMap_congr fun p hp => change?_eq haccounted.places fun l hl => ?_
    obtain ⟨r, hr⟩ := haccounted.exists_finished hk hp
    rw [hundisturbed.file?_eq haccounted happart hr hl, migrateFile, migrateRead_tree, hdry]
    rfl

/-- What comes of a file that can be written is the same in a dry run. -/
theorem Writable.same (hwritable : t.Writable files) (hp : p ∈ files) (hdry : d.dryRun = true) :
    FileStatus.ofRead t c p (t.read p) = .ofRead t d p (t.read p) ∧
      revision? t c p (t.read p) = revision? t d p (t.read p) := by
  cases hread : t.read p with
  | error fault => exact ⟨rfl, rfl⟩
  | ok found =>
      obtain ⟨hl, -⟩ := read_eq_ok_iff.mp hread
      have hc : t.refuses c found.1 = false := refuses_eq_false_iff.mpr fun _ => hwritable p hp _ hl
      have hd : t.refuses d found.1 = false := refuses_eq_false_iff.mpr fun h => by simp [hdry] at h
      simp only [FileStatus.ofRead, revision?, hc, hd, and_self]

/-- **A dry run predicts the run** when all files can be written: with the same error, or with the same
counts and failures, and with the texts that the run writes. -/
theorem dry_run_predicts_run (t : FileTree) (limit : Option Nat) (c : Config) (inputs : List Path)
    (happart : ∀ files, t.collect c inputs = .ok files → t.Apart files)
    (hwritable : ∀ files, t.collect c inputs = .ok files → t.Writable files) :
    let dry := t.run limit { c with dryRun := true, print := true } inputs
    let real := t.run limit { c with dryRun := false } inputs
    dry.tree = t ∧
    ((∃ e, dry.outcome = .error e ∧ real.outcome = .error e ∧ real.tree = t) ∨
      ∃ files predicted report, t.collect c inputs = .ok files ∧
        dry.outcome = .ok predicted ∧ real.outcome = .ok report ∧
        predicted.files = report.files ∧ predicted.ok = report.ok ∧
        predicted.unmodified = report.unmodified ∧ predicted.errors = report.errors ∧
        predicted.sitesConverted = report.sitesConverted ∧
        predicted.sitesSkipped = report.sitesSkipped ∧
        predicted.printed = t.changes real.tree files) := by
  intro dry real
  refine ⟨run_dry t limit inputs rfl, ?_⟩
  -- neither flag has a say in which files there are, so both runs start or neither does
  have hcollectDry : t.collect { c with dryRun := true, print := true } inputs =
      t.collect c inputs := collect_congr c _ inputs rfl rfl
  have hcollectReal : t.collect { c with dryRun := false } inputs = t.collect c inputs :=
    collect_congr c _ inputs rfl rfl
  rcases t.refuses_or_starts limit c inputs with ⟨e, hrefuses⟩ | ⟨files, hcheck, hfiles, hstart⟩
  · have hdry : t.Refuses limit { c with dryRun := true, print := true } inputs e := by
      rw [Refuses, hcollectDry]
      exact hrefuses
    have hreal : t.Refuses limit { c with dryRun := false } inputs e := by
      rw [Refuses, hcollectReal]
      exact hrefuses
    obtain ⟨houtcome, htree⟩ := run_of_refuses hreal
    exact Or.inl ⟨e, (run_of_refuses hdry).1, houtcome, htree⟩
  · obtain ⟨hpredicted, -⟩ := Starts.of_apart (c := { c with dryRun := true, print := true })
      ⟨hcheck, hcollectDry.trans hfiles, hstart⟩ (happart files hfiles)
    obtain ⟨hreport, hchanges⟩ := Starts.of_apart (c := { c with dryRun := false })
      ⟨hcheck, hcollectReal.trans hfiles, hstart⟩ (happart files hfiles)
    have hsame : ∀ p ∈ files, _ := fun p hp =>
      (hwritable files hfiles).same (c := { c with dryRun := false })
        (d := { c with dryRun := true, print := true }) hp rfl
    rw [List.map_congr_left fun p hp => by rw [(hsame p hp).1, (hsame p hp).2]] at hreport
    refine Or.inr ⟨files, _, _, hfiles, hpredicted, hreport, ?_⟩
    rw [Report.ofResults_outputs files _ _ (fun p => if c.print then
      (revision? t { c with dryRun := true, print := true } p (t.read p)).map Prod.snd else none) true false 0]
    refine ⟨rfl, rfl, rfl, rfl, rfl, rfl, ?_⟩
    rw [hchanges rfl]
    refine List.filterMap_congr fun p hp => ?_
    rw [(hsame p hp).2, if_pos rfl, Option.map_map]
    rfl

set_option maxRecDepth 100000 in
/-- A dry run over files of every kind prints the two that the run writes. -/
theorem dry_run_over_mixed_folder :
    ∃ predicted report,
      (mixedFolder.run none { Config.initial with dryRun := true, print := true }
        [mixedInput]).outcome = .ok predicted ∧
      (mixedFolder.run none { Config.initial with dryRun := false } [mixedInput]).outcome = .ok report ∧
      predicted.errors = report.errors ∧
      predicted.printed = [
        (⟨"src/a.ts".toList⟩,
          "import { firstValueFrom } from \"rxjs\";\nfirstValueFrom(a).then(b);\n".toList),
        (⟨"src/b.tsx".toList⟩,
          "import { lastValueFrom } from \"rxjs\";\nlastValueFrom(x);\n".toList)] := by
  have hcollect : mixedFolder.collect .initial [mixedInput] = .ok [⟨"src/a.ts".toList⟩,
      ⟨"src/b.tsx".toList⟩, ⟨"src/c.ts".toList⟩, ⟨"src/d.ts".toList⟩, ⟨"src/e.ts".toList⟩] := by
    decide +kernel
  have happart : ∀ files, mixedFolder.collect .initial [mixedInput] = .ok files →
      mixedFolder.Apart files := by
    intro files hfiles
    cases hcollect.symm.trans hfiles
    decide +kernel
  have hwritable : ∀ files, mixedFolder.collect .initial [mixedInput] = .ok files →
      mixedFolder.Writable files := by
    intro files _ p _ l _
    simp [mixedFolder]
  obtain ⟨-, ⟨e, herror, -⟩ | ⟨files, predicted, report, hfiles, hpredicted, hreport, -, -, -, herrors,
    -, -, hprinted⟩⟩ := dry_run_predicts_run mixedFolder none .initial [mixedInput] happart hwritable
  · have hok : (mixedFolder.run none { Config.initial with dryRun := true, print := true }
        [mixedInput]).outcome.isOk = true := by decide +kernel
    rw [herror] at hok
    cases hok
  · cases hcollect.symm.trans hfiles
    refine ⟨predicted, report, hpredicted, hreport, herrors, ?_⟩
    rw [hprinted]
    decide +kernel

end FileTree

end Promisify
