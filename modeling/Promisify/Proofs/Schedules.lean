import Mathlib.Logic.Function.Basic
import Mathlib.Logic.Relation
import Promisify.Proofs.Handling

set_option autoImplicit false

/-! # Workers

The files of a run are shared out among workers. Each worker has a session of its own and takes one
file at a time: it reads the file in one step, and migrates it and writes it back in another. Between
the two, other workers may take steps of theirs. `Crew.Step` allows every order of these steps and
every way to share out the files; the results are kept in the order of the files.

A step of a worker changes nothing but the file that it writes (`Accounted`), and when no two paths
lead to the same file, what a worker reads is what was there before the run (`Undisturbed`). So all
schedules leave the same results and the same tree as handling the files one after another.
-/

namespace Promisify

/-- No two of the paths lead to the same location. -/
def FileTree.Apart (t : FileTree) (files : List Path) : Prop :=
  (files.filterMap fun p => (t.locate p).toOption).Nodup

instance (t : FileTree) (files : List Path) : Decidable (t.Apart files) :=
  inferInstanceAs (Decidable (List.Nodup _))

theorem FileTree.Apart.locate_ne {t : FileTree} {before after : List Path} {p q : Path} {l : Location}
    (h : t.Apart (before ++ p :: after)) (hp : t.locate p = .ok l) (hq : q ∈ before ++ after) :
    t.locate q ≠ .ok l := by
  intro hl
  have hsome : (fun p => (t.locate p).toOption) p = some l := by
    simp only [hp, Except.toOption]
  rw [Apart, List.filterMap_append, List.filterMap_cons_some (f := fun p => (t.locate p).toOption) hsome,
    List.nodup_middle, ← List.filterMap_append, List.nodup_cons] at h
  exact h.1 (List.mem_filterMap.mpr ⟨q, hq, by rw [hl]; rfl⟩)

/-! ## Crews -/

/-- How far a file has come. -/
inductive Stage where
  | waiting
  /-- A worker has read it. -/
  | opened (worker : Nat) (read : Except Fault (Location × Text))
  | finished (result : FileResult)

namespace Stage

/-- The result of a file that is finished. -/
def result? : Stage → Option FileResult
  | finished r => some r
  | _ => none

/-- The number of steps left to take. -/
def work : Stage → Nat
  | waiting => 2
  | opened _ _ => 1
  | finished _ => 0

end Stage

/-- Workers at a run: the tree that they share, the session of each of them, and the files in their
order with how far they have come. -/
structure Crew where
  tree : FileTree
  sessions : Nat → Session
  stages : List (Path × Stage)

namespace Crew

/-- A crew before its first step. -/
def start (t : FileTree) (sessions : Nat → Session) (files : List Path) : Crew :=
  ⟨t, sessions, files.map fun p => (p, .waiting)⟩

/-- The worker has no file at hand. -/
def Idle (k : Crew) (worker : Nat) : Prop := ∀ p read, (p, Stage.opened worker read) ∉ k.stages

/-- The results there are, in the order of the files. -/
def results (k : Crew) : List FileResult := k.stages.filterMap fun e => e.2.result?

/-- All files are finished. -/
def Finished (k : Crew) : Prop := ∀ e ∈ k.stages, ∃ r, e.2 = .finished r

/-- One step: an idle worker reads a file that waits, or a worker migrates the file it has read and
writes it back. -/
inductive Step (c : Config) : Crew → Crew → Prop
  | opens {k : Crew} {worker : Nat} {p : Path} {before after : List (Path × Stage)}
      (idle : k.Idle worker) (here : k.stages = before ++ (p, .waiting) :: after) :
      Step c k { k with stages := before ++ (p, .opened worker (k.tree.read p)) :: after }
  | finishes {k : Crew} {worker : Nat} {read : Except Fault (Location × Text)} {p : Path}
      {before after : List (Path × Stage)}
      (here : k.stages = before ++ (p, .opened worker read) :: after) :
      Step c k {
        tree := (k.tree.migrateRead (k.sessions worker) c p read).tree
        sessions := Function.update k.sessions worker
          (k.tree.migrateRead (k.sessions worker) c p read).session
        stages := before ++
          (p, .finished (k.tree.migrateRead (k.sessions worker) c p read).result) :: after }

/-- The second crew comes of the first in some number of steps. -/
def Reaches (c : Config) : Crew → Crew → Prop := Relation.ReflTransGen (Step c)

variable {c : Config} {k k' : Crew} {t : FileTree} {files : List Path}

/-! ## Schedules come to an end -/

/-- The number of steps left to take. -/
def work (k : Crew) : Nat := (k.stages.map fun e => e.2.work).sum

theorem Step.work_lt (h : Step c k k') : k'.work < k.work := by
  cases h with
  | opens idle here =>
      simp only [work, here, List.map_append, List.map_cons, List.sum_append, List.sum_cons, Stage.work]
      omega
  | finishes here =>
      simp only [work, here, List.map_append, List.map_cons, List.sum_append, List.sum_cons, Stage.work]
      omega

/-- No schedule goes on forever. -/
theorem step_wellFounded (c : Config) : WellFounded fun k' k : Crew => Step c k k' :=
  Subrelation.wf Step.work_lt (measure work).wf

/-- As long as a file is not finished there is a step to take. -/
theorem exists_step (c : Config) (h : ¬ k.Finished) : ∃ k', Step c k k' := by
  unfold Finished at h
  push Not at h
  obtain ⟨⟨p, stage⟩, he, hstage⟩ := h
  by_cases hopened : ∃ worker p read, (p, Stage.opened worker read) ∈ k.stages
  · obtain ⟨worker, p, read, hmem⟩ := hopened
    obtain ⟨before, after, here⟩ := List.append_of_mem hmem
    exact ⟨_, .finishes here⟩
  · -- every worker is idle, so the first one can take the file
    have hidle : k.Idle 0 := fun p read hmem => hopened ⟨0, p, read, hmem⟩
    cases stage with
    | waiting =>
        obtain ⟨before, after, here⟩ := List.append_of_mem he
        exact ⟨_, .opens hidle here⟩
    | opened worker read => exact absurd ⟨worker, p, read, he⟩ hopened
    | finished r => exact absurd rfl (hstage r)

/-- A crew can always carry on until all files are finished. -/
theorem exists_finished (c : Config) (k : Crew) : ∃ k', Reaches c k k' ∧ k'.Finished := by
  induction k using (step_wellFounded c).induction with
  | _ k ih =>
      by_cases hk : k.Finished
      · exact ⟨k, .refl, hk⟩
      · obtain ⟨k', hstep⟩ := exists_step c hk
        obtain ⟨k'', hreaches, hfinished⟩ := ih k' hstep
        exact ⟨k'', .head hstep hreaches, hfinished⟩

/-- Two workers can have a file open at the same time. -/
theorem reaches_opened_both (c : Config) (t : FileTree) (sessions : Nat → Session) (a b : Path) :
    Reaches c (start t sessions [a, b])
      ⟨t, sessions, [(a, .opened 0 (t.read a)), (b, .opened 1 (t.read b))]⟩ := by
  have hsecond : (start t sessions [a, b]).stages = [(a, .waiting)] ++ (b, .waiting) :: [] := rfl
  have hfirst : (⟨t, sessions, [(a, .waiting), (b, .opened 1 (t.read b))]⟩ : Crew).stages =
      [] ++ (a, .waiting) :: [(b, .opened 1 (t.read b))] := rfl
  refine .tail (.single (Step.opens ?_ hsecond)) (.opens ?_ hfirst)
  · intro p read hmem
    simp [start] at hmem
  · intro p read hmem
    simp at hmem

/-! ## What a schedule can change -/

/-- The file at a location is what the results say: as it was in `t`, and then no path that leads there
has a result that says it was migrated; or what came of migrating what was read through such a path. -/
def Settled (t : FileTree) (k : Crew) (l : Location) : Prop :=
  (k.tree.file? l = t.file? l ∧
      ∀ p r, (p, .finished r) ∈ k.stages → t.locate p = .ok l → ∀ counts, r.status ≠ .ok counts) ∨
    ∃ p r, (p, .finished r) ∈ k.stages ∧ t.locate p = .ok l ∧ ∃ source text counts,
      r.status = .ok counts ∧ migrate p source = .ok (.converted text counts) ∧
        k.tree.file? l = some (.text text)

/-- What holds of a crew at any time, also when several paths lead to one file: no file or folder has
come or gone, and every file is what the results say. -/
structure Accounted (t : FileTree) (c : Config) (files : List Path) (k : Crew) : Prop where
  paths : k.stages.map Prod.fst = files
  places : t.SamePlaces k.tree
  dry : c.dryRun = true → k.tree = t
  opened : ∀ {p worker l source}, (p, .opened worker (.ok (l, source))) ∈ k.stages →
    t.locate p = .ok l ∧ (t.file? l).isSome = true
  named : ∀ {p r}, (p, .finished r) ∈ k.stages → r.path = p
  settled : c.dryRun = false → ∀ l, k.Settled t l

theorem accounted_start (t : FileTree) (c : Config) (sessions : Nat → Session) (files : List Path) :
    Accounted t c files (start t sessions files) where
  paths := by
    rw [start, List.map_map]
    exact List.map_id files
  places := .refl t
  dry := fun _ => rfl
  opened := by
    intro p worker l source h
    simp [start] at h
  named := by
    intro p r h
    simp [start] at h
  settled := by
    refine fun _ l => Or.inl ⟨rfl, fun p r h => ?_⟩
    simp [start] at h

/-- A file that differs from what it was has a result that says so. -/
theorem Accounted.changed (h : Accounted t c files k) {l : Location} (hl : k.tree.file? l ≠ t.file? l) :
    ∃ p r, (p, .finished r) ∈ k.stages ∧ t.locate p = .ok l ∧ ∃ counts, r.status = .ok counts := by
  cases hdry : c.dryRun with
  | true =>
      rw [h.dry hdry] at hl
      exact absurd rfl hl
  | false =>
      rcases h.settled hdry l with ⟨hsame, -⟩ | ⟨p, r, hp, hlocate, -, -, counts, hstatus, -⟩
      · exact absurd hsame hl
      · exact ⟨p, r, hp, hlocate, counts, hstatus⟩

/-- The stages are those of the file at hand and those of the other files. -/
theorem mem_stages_iff {e x : Path × Stage} {before after : List (Path × Stage)} :
    e ∈ before ++ x :: after ↔ e = x ∨ e ∈ before ++ after := by
  rw [List.perm_middle.mem_iff, List.mem_cons]

theorem mem_of_here {x : Path × Stage} {before after : List (Path × Stage)}
    (here : k.stages = before ++ x :: after) : x ∈ k.stages := by
  rw [here]
  exact mem_stages_iff.mpr (Or.inl rfl)

theorem mem_of_others {e x : Path × Stage} {before after : List (Path × Stage)}
    (here : k.stages = before ++ x :: after) (h : e ∈ before ++ after) : e ∈ k.stages := by
  rw [here]
  exact mem_stages_iff.mpr (Or.inr h)

/-- What was finished before a step is finished after it. -/
theorem finished_mem {p q : Path} {r : FileResult} {stage stage' : Stage} {before after : List (Path × Stage)}
    (here : k.stages = before ++ (p, stage) :: after) (h : (q, .finished r) ∈ k.stages)
    (hstage : stage ≠ .finished r) : (q, .finished r) ∈ before ++ (p, stage') :: after := by
  rw [here] at h
  rcases mem_stages_iff.mp h with heq | h
  · exact absurd (Prod.mk.inj heq).2.symm hstage
  · exact mem_stages_iff.mpr (Or.inr h)

theorem Accounted.opens (h : Accounted t c files k) {worker : Nat} {p : Path}
    {before after : List (Path × Stage)} (here : k.stages = before ++ (p, .waiting) :: after) :
    Accounted t c files
      { k with stages := before ++ (p, .opened worker (k.tree.read p)) :: after } where
  paths := by
    rw [← h.paths, here]
    simp
  places := h.places
  dry := h.dry
  opened := by
    intro q w l source hq
    rcases mem_stages_iff.mp hq with heq | hq
    · -- the file just read is there, and where the path led from the start
      simp only [Prod.mk.injEq, Stage.opened.injEq] at heq
      obtain ⟨rfl, -, hread⟩ := heq
      obtain ⟨hl, hfile, -⟩ := FileTree.read_eq_ok_iff.mp hread.symm
      rw [h.places.locate] at hl
      exact ⟨hl, by rw [← h.places.file, hfile]; rfl⟩
    · exact h.opened (mem_of_others here hq)
  named := by
    intro q r hq
    rcases mem_stages_iff.mp hq with heq | hq
    · cases heq
    · exact h.named (mem_of_others here hq)
  settled := by
    intro hdry l
    rcases h.settled hdry l with ⟨hsame, hnone⟩ | ⟨q, r, hq, hrest⟩
    · refine Or.inl ⟨hsame, ?_⟩
      intro q r hq
      rcases mem_stages_iff.mp hq with heq | hq
      · cases heq
      · exact hnone q r (mem_of_others here hq)
    · exact Or.inr ⟨q, r, finished_mem here hq (by simp), hrest⟩

theorem Accounted.finishes (h : Accounted t c files k) {worker : Nat} {p : Path}
    {read : Except Fault (Location × Text)} {before after : List (Path × Stage)} {s : Session}
    {sessions : Nat → Session} (here : k.stages = before ++ (p, .opened worker read) :: after) :
    Accounted t c files {
      tree := (k.tree.migrateRead s c p read).tree
      sessions := sessions
      stages := before ++ (p, .finished (k.tree.migrateRead s c p read).result) :: after } := by
  have hplaces : t.SamePlaces (k.tree.migrateRead s c p read).tree := by
    rcases k.tree.migrateRead_cases s c p read with ⟨htree, -⟩ | ⟨l, _, _, _, -, rfl, -, -, htree⟩
    · rw [htree]
      exact h.places
    · have hfile := (h.opened (mem_of_here here)).2
      rw [← h.places.file] at hfile
      rw [htree]
      exact h.places.trans (.put hfile _)
  refine ⟨?_, hplaces, ?_, ?_, ?_, ?_⟩
  · rw [← h.paths, here]
    simp
  · intro hdry
    rw [FileTree.migrateRead_tree, hdry]
    exact h.dry hdry
  · intro q w l source hq
    rcases mem_stages_iff.mp hq with heq | hq
    · cases heq
    · exact h.opened (mem_of_others here hq)
  · intro q r hq
    rcases mem_stages_iff.mp hq with heq | hq
    · cases heq
      rw [FileTree.migrateRead_result]
    · exact h.named (mem_of_others here hq)
  · intro hdry l
    -- a file other than the one just finished is as it was before the step
    have hkeeps : (k.tree.migrateRead s c p read).tree.file? l = k.tree.file? l →
        (t.locate p = .ok l → ∀ counts, (k.tree.migrateRead s c p read).result.status ≠ .ok counts) →
        Settled t ⟨(k.tree.migrateRead s c p read).tree, sessions,
          before ++ (p, .finished (k.tree.migrateRead s c p read).result) :: after⟩ l := by
      intro hfile hstatus
      rcases h.settled hdry l with ⟨hsame, hnone⟩ | ⟨q, r, hq, hrest⟩
      · refine Or.inl ⟨hfile.trans hsame, ?_⟩
        intro q r hq
        rcases mem_stages_iff.mp hq with heq | hq
        · cases heq
          exact hstatus
        · exact hnone q r (mem_of_others here hq)
      · refine Or.inr ⟨q, r, finished_mem here hq (by simp), ?_⟩
        rw [hfile]
        exact hrest
    rcases k.tree.migrateRead_cases s c p read with
      ⟨htree, hstatus⟩ | ⟨m, source, text, counts, -, rfl, hm, hstatus, htree⟩
    · exact hkeeps (by rw [htree]) fun _ => hstatus hdry
    · have hlocate := (h.opened (mem_of_here here)).1
      by_cases hlm : l = m
      · subst hlm
        refine Or.inr ⟨p, _, mem_stages_iff.mpr (Or.inl rfl), hlocate, source, text, counts, hstatus, hm, ?_⟩
        rw [htree, FileTree.file?_put, if_pos rfl]
      · refine hkeeps (by rw [htree, FileTree.file?_put, if_neg hlm]) fun hl => ?_
        rw [hlocate] at hl
        exact absurd (Except.ok.inj hl).symm hlm

/-- **One step changes nothing but the file that it reports.** -/
theorem Accounted.step (h : Accounted t c files k) (hstep : Step c k k') :
    Accounted t c files k' := by
  cases hstep with
  | opens idle here => exact h.opens here
  | finishes here => exact h.finishes here

/-- **A schedule changes nothing but the files that it reports.** -/
theorem Reaches.accounted {sessions : Nat → Session} (h : Reaches c (start t sessions files) k) :
    Accounted t c files k := by
  induction h with
  | refl => exact accounted_start t c sessions files
  | tail _ hstep ih => exact ih.step hstep

theorem Accounted.exists_finished (h : Accounted t c files k) (hk : k.Finished) {p : Path}
    (hp : p ∈ files) : ∃ r, (p, .finished r) ∈ k.stages := by
  rw [← h.paths] at hp
  obtain ⟨⟨_, stage⟩, he, rfl⟩ := List.mem_map.mp hp
  obtain ⟨r, rfl⟩ := hk _ he
  exact ⟨r, he⟩

/-- The new texts of the files that are finished, taken from what was there before the run. -/
def revised (t : FileTree) (c : Config) (stages : List (Path × Stage)) : List (Location × Text) :=
  stages.filterMap fun e => e.2.result?.bind fun _ => revision? t c e.1 (t.read e.1)

theorem revised_append (t : FileTree) (c : Config) (stages stages' : List (Path × Stage)) :
    revised t c (stages ++ stages') = revised t c stages ++ revised t c stages' :=
  List.filterMap_append

theorem revised_unfinished (t : FileTree) (c : Config) (p : Path) {stage : Stage} (h : stage.result? = none)
    (before after : List (Path × Stage)) :
    revised t c (before ++ (p, stage) :: after) = revised t c (before ++ after) := by
  rw [revised_append, revised_append, revised, revised, revised, List.filterMap_cons_none]
  rw [h]
  rfl

theorem revised_finished (t : FileTree) (c : Config) (p : Path) (r : FileResult)
    (before after : List (Path × Stage)) :
    revised t c (before ++ (p, .finished r) :: after) =
      revised t c before ++ (revision? t c p (t.read p)).toList ++ revised t c after := by
  rw [revised_append, List.append_assoc]
  congr 1
  cases hrevision : revision? t c p (t.read p) with
  | none => exact List.filterMap_cons_none hrevision
  | some w => exact List.filterMap_cons_some hrevision

/-- A new text belongs to one of the files. -/
theorem mem_revised {stages : List (Path × Stage)} {w : Location × Text} (h : w ∈ revised t c stages) :
    (∃ q ∈ stages.map Prod.fst, t.locate q = .ok w.1) ∧ (t.file? w.1).isSome = true := by
  obtain ⟨e, he, hw⟩ := List.mem_filterMap.mp h
  obtain ⟨r, -, hw⟩ := Option.bind_eq_some_iff.mp hw
  obtain ⟨hl, hfile⟩ := file_of_revision? hw
  exact ⟨⟨e.1, List.mem_map_of_mem he, hl⟩, hfile⟩

/-- What holds of a crew when no two paths lead to the same file: files were read as they were before
the run, results are those of the files handled alone, and the tree is the one before the run with the
new texts of the finished files, in the order of the files. -/
structure Undisturbed (t : FileTree) (c : Config) (k : Crew) : Prop where
  opened : ∀ {p worker read}, (p, .opened worker read) ∈ k.stages → read = t.read p
  finished : ∀ {p r}, (p, .finished r) ∈ k.stages → r = (t.migrateFile .fresh c p).result
  tree : k.tree = if c.dryRun then t else t.writeAll (revised t c k.stages)

theorem undisturbed_start (t : FileTree) (c : Config) (sessions : Nat → Session) (files : List Path) :
    Undisturbed t c (start t sessions files) where
  opened := by
    intro p worker read h
    simp [start] at h
  finished := by
    intro p r h
    simp [start] at h
  tree := by
    have hnone : revised t c (start t sessions files).stages = [] := by
      rw [revised, start, List.filterMap_map, List.filterMap_eq_nil_iff]
      exact fun p _ => rfl
    rw [hnone]
    exact (ite_self t).symm

namespace Undisturbed

variable {worker : Nat} {p : Path} {before after : List (Path × Stage)} {stage : Stage} {l : Location}

/-- The new texts of the other files do not go where `p` leads. -/
theorem revised_ne (c : Config) (happart : t.Apart ((before ++ (p, stage) :: after).map Prod.fst))
    (hp : t.locate p = .ok l) : ∀ w ∈ revised t c (before ++ after), w.1 ≠ l := by
  intro w hw heq
  obtain ⟨⟨q, hq, hl⟩, -⟩ := mem_revised hw
  rw [List.map_append, List.map_cons] at happart
  rw [List.map_append] at hq
  exact happart.locate_ne hp hq (heq ▸ hl)

/-- A file that waits is still as it was. -/
theorem read_eq (h : Undisturbed t c k) (haccounted : Accounted t c files k) (happart : t.Apart files)
    (here : k.stages = before ++ (p, .waiting) :: after) : k.tree.read p = t.read p := by
  refine haccounted.places.read fun l hl => ?_
  rw [h.tree]
  split
  · rfl
  · rw [← haccounted.paths, here] at happart
    rw [here, revised_unfinished t c p rfl]
    exact FileTree.file?_writeAll_of_ne t (revised_ne c happart hl)

theorem opens (h : Undisturbed t c k) (haccounted : Accounted t c files k) (happart : t.Apart files)
    (here : k.stages = before ++ (p, .waiting) :: after) :
    Undisturbed t c { k with stages := before ++ (p, .opened worker (k.tree.read p)) :: after } where
  opened := by
    intro q w read hq
    rcases mem_stages_iff.mp hq with heq | hq
    · -- other workers may have written since the run began, but not to this file
      simp only [Prod.mk.injEq, Stage.opened.injEq] at heq
      obtain ⟨rfl, -, rfl⟩ := heq
      exact h.read_eq haccounted happart here
    · exact h.opened (mem_of_others here hq)
  finished := by
    intro q r hq
    rcases mem_stages_iff.mp hq with heq | hq
    · cases heq
    · exact h.finished (mem_of_others here hq)
  tree := by
    rw [revised_unfinished t c p rfl, h.tree, here, revised_unfinished t c p rfl]

/-- The file just finished takes its place among the new texts. -/
theorem write_eq (c : Config) (happart : t.Apart ((before ++ (p, stage) :: after).map Prod.fst)) :
    (t.writeAll (revised t c (before ++ after))).writeAll (revision? t c p (t.read p)).toList =
      t.writeAll (revised t c before ++ (revision? t c p (t.read p)).toList ++ revised t c after) := by
  rw [revised_append]
  cases hrevision : revision? t c p (t.read p) with
  | none => simp
  | some w =>
      obtain ⟨hl, hfile⟩ := file_of_revision? hrevision
      have hne := revised_ne c happart hl
      have hplaces : t.SamePlaces (t.writeAll (revised t c before)) :=
        .writeAll fun v hv => (mem_revised hv).2
      have hthere : ((t.writeAll (revised t c before)).file? w.1).isSome = true := by
        rw [hplaces.file]
        exact hfile
      -- the write is last; it moves in front of those of the files behind `p`
      rw [revised_append] at hne
      simp only [Option.toList_some, FileTree.writeAll_append, FileTree.writeAll_cons,
        FileTree.writeAll_nil]
      exact FileTree.put_writeAll (.text w.2) hthere fun v hv => hne v (List.mem_append_right _ hv)

theorem finishes (h : Undisturbed t c k) (haccounted : Accounted t c files k) (happart : t.Apart files)
    {read : Except Fault (Location × Text)} {s : Session} {sessions : Nat → Session}
    (here : k.stages = before ++ (p, .opened worker read) :: after) :
    Undisturbed t c {
      tree := (k.tree.migrateRead s c p read).tree
      sessions := sessions
      stages := before ++ (p, .finished (k.tree.migrateRead s c p read).result) :: after } := by
  have hread : read = t.read p := h.opened (mem_of_here here)
  subst hread
  refine ⟨?_, ?_, ?_⟩
  · intro q w read hq
    rcases mem_stages_iff.mp hq with heq | hq
    · cases heq
    · exact h.opened (mem_of_others here hq)
  · intro q r hq
    rcases mem_stages_iff.mp hq with heq | hq
    · cases heq
      rw [FileTree.migrateFile, FileTree.migrateRead_result, FileTree.migrateRead_result,
        haccounted.places.ofRead, haccounted.places.revision?]
    · exact h.finished (mem_of_others here hq)
  · rw [← haccounted.paths, here] at happart
    rw [revised_finished, FileTree.migrateRead_tree, haccounted.places.revision?, h.tree, here,
      revised_unfinished t c p rfl]
    split
    · rfl
    · exact write_eq c happart

/-- **One step goes unnoticed by the other workers.** -/
theorem step (h : Undisturbed t c k) (haccounted : Accounted t c files k) (happart : t.Apart files)
    (hstep : Step c k k') : Undisturbed t c k' := by
  cases hstep with
  | opens idle here => exact h.opens haccounted happart here
  | finishes here => exact h.finishes haccounted happart here

/-- The results of a crew that is finished. -/
theorem results_eq (h : Undisturbed t c k) (haccounted : Accounted t c files k) (hk : k.Finished) :
    k.results = files.map fun p => (t.migrateFile .fresh c p).result := by
  have hall : ∀ e ∈ k.stages, e.2.result? = some (t.migrateFile .fresh c e.1).result := by
    rintro ⟨p, stage⟩ he
    obtain ⟨r, rfl⟩ := hk _ he
    rw [h.finished he]
    rfl
  rw [results, List.filterMap_congr hall, List.filterMap_eq_map', ← haccounted.paths, List.map_map]
  rfl

/-- The tree that a crew leaves when it is finished. -/
theorem tree_eq (h : Undisturbed t c k) (haccounted : Accounted t c files k) (hk : k.Finished) :
    k.tree = if c.dryRun then t else
      t.writeAll (files.filterMap fun p => revision? t c p (t.read p)) := by
  have hall : ∀ e ∈ k.stages, (e.2.result?.bind fun _ => revision? t c e.1 (t.read e.1)) =
      revision? t c e.1 (t.read e.1) := by
    rintro ⟨p, stage⟩ he
    obtain ⟨r, rfl⟩ := hk _ he
    rfl
  rw [h.tree, revised, List.filterMap_congr hall, ← haccounted.paths, List.filterMap_map]
  rfl

/-- A file that is finished holds what it holds when it is handled alone. -/
theorem file?_eq (h : Undisturbed t c k) (haccounted : Accounted t c files k) (happart : t.Apart files)
    {r : FileResult} (hp : (p, .finished r) ∈ k.stages) (hl : t.locate p = .ok l) :
    k.tree.file? l = (t.migrateFile .fresh c p).tree.file? l := by
  obtain ⟨before, after, here⟩ := List.append_of_mem hp
  rw [← haccounted.paths, here] at happart
  have hne := revised_ne c happart hl
  rw [h.tree, here, FileTree.migrateFile, FileTree.migrateRead_tree]
  split
  · rfl
  · rw [revised_finished, ← write_eq c happart]
    cases hrevision : revision? t c p (t.read p) with
    | none => exact FileTree.file?_writeAll_of_ne t hne
    | some w =>
        obtain ⟨hw, -⟩ := file_of_revision? hrevision
        cases hl.symm.trans hw
        simp only [Option.toList_some, FileTree.writeAll_cons, FileTree.writeAll_nil,
          FileTree.file?_put, if_pos]

end Undisturbed

/-- **A schedule goes unnoticed by each of its workers** when no two paths lead to the same file. -/
theorem Reaches.undisturbed {sessions : Nat → Session} (h : Reaches c (start t sessions files) k)
    (happart : t.Apart files) : Undisturbed t c k := by
  induction h with
  | refl => exact undisturbed_start t c sessions files
  | tail hreaches hstep ih => exact ih.step (Reaches.accounted hreaches) happart hstep

/-! ## One after another -/

/-- **Handling files one after another is a schedule**: that of a single worker. -/
theorem reaches_migrateFiles (c : Config) (files : List Path) (t : FileTree) (sessions : Nat → Session)
    (done : List (Path × Stage)) (hdone : ∀ p read, (p, Stage.opened 0 read) ∉ done) :
    ∃ sessions', Reaches c ⟨t, sessions, done ++ files.map fun p => (p, .waiting)⟩
      ⟨(t.migrateFiles (sessions 0) c files).tree, sessions',
        done ++ (t.migrateFiles (sessions 0) c files).results.map fun r => (r.path, .finished r)⟩ := by
  induction files generalizing t sessions done with
  | nil => exact ⟨sessions, .refl⟩
  | cons p ps ih =>
      -- the files before `p` are done and those after it wait, so the worker is free to take it
      have hidle : Idle ⟨t, sessions, done ++ (p :: ps).map fun p => (p, Stage.waiting)⟩ 0 := by
        intro q read hq
        rcases List.mem_append.mp hq with hq | hq
        · exact hdone q read hq
        · simp at hq
      have hopens : Step c _ ⟨t, sessions,
          done ++ (p, .opened 0 (t.read p)) :: ps.map fun p => (p, .waiting)⟩ := .opens hidle rfl
      have hfinishes := Step.finishes (c := c) (k := ⟨t, sessions,
        done ++ (p, .opened 0 (t.read p)) :: ps.map fun p => (p, .waiting)⟩) rfl
      have hnext := ih (t.migrateFile (sessions 0) c p).tree
        (Function.update sessions 0 (t.migrateFile (sessions 0) c p).session)
        (done ++ [(p, .finished (t.migrateFile (sessions 0) c p).result)])
        (by
          intro q read hq
          rcases List.mem_append.mp hq with hq | hq
          · exact hdone q read hq
          · simp at hq)
      have hpath : (t.migrateFile (sessions 0) c p).result.path = p := by
        rw [FileTree.migrateFile, FileTree.migrateRead_result]
      rw [Function.update_self, List.append_assoc, List.append_assoc] at hnext
      obtain ⟨sessions', hnext⟩ := hnext
      refine ⟨sessions', .head hopens (.head hfinishes ?_)⟩
      simp only [FileTree.migrateFiles, List.map_cons, hpath]
      exact hnext

/-- The schedule of a single worker, from its start to its end. -/
theorem exists_schedule (t : FileTree) (s : Session) (c : Config) (files : List Path) :
    ∃ k, Reaches c (start t (fun _ => s) files) k ∧ k.Finished ∧
      k.results = (t.migrateFiles s c files).results ∧ k.tree = (t.migrateFiles s c files).tree := by
  obtain ⟨sessions', h⟩ := reaches_migrateFiles c files t (fun _ => s) [] (by simp)
  refine ⟨_, h, ?_, ?_, rfl⟩
  · intro e he
    obtain ⟨r, -, rfl⟩ := List.mem_map.mp he
    exact ⟨r, rfl⟩
  · rw [results, List.nil_append, List.filterMap_map]
    exact List.filterMap_some

end Crew

end Promisify
