import Promisify.Batch
import Promisify.Proofs.FileTrees
import Promisify.Proofs.Migrations

set_option autoImplicit false

/-! # What comes of a file

What comes of a file is settled by what was read and by whether the file can be written: its status by
`FileStatus.ofRead` and the text it is given by `revision?`. Neither depends on the session in which it
is migrated, nor on what other files hold; the configuration only says whether the new text is
written and kept for printing (`migrateRead_result`, `migrateRead_tree`).
-/

namespace Promisify

/-! ## One file -/

/-- What was migrated before has no effect on a migration. -/
theorem Session.migrateLogged_value (s : Session) (p : Path) (source : Text) :
    (s.migrateLogged p source).1.value = Promisify.migrate p source := by
  simp only [Promisify.migrate, Session.migrate, Session.migrateLogged, Session.readSource, Session.readOutput,
    Session.read_eq]
  cases parse? p.dialect source with
  | error e => rfl
  | ok f =>
      simp only [Except.mapError]
      cases f.conversion? with
      | none => rfl
      | some r =>
          simp only
          split
          · rfl
          · cases parse? p.dialect r.text with
            | error e => rfl
            | ok g => rfl

theorem ne_source_of_converted {p : Path} {source text : Text} {counts : MigrationCounts}
    (h : migrate p source = .ok (.converted text counts)) : text ≠ source := by
  obtain ⟨f, r, g, o, -, -, -, -, hm⟩ := migrate_eq_ok_iff.mp h
  rw [Migration.ofOutput] at hm
  split at hm
  · cases hm
  · next hne =>
      cases hm
      exact hne

/-- What comes of a file, given what comes of its text, when nothing keeps the text from being
written. -/
def FileStatus.ofMigration : Except MigrationError Migration → FileStatus
  | .ok .unchanged => .unmodified
  | .ok (.converted _ counts) => .ok counts
  | .error e =>
      .failed (if e.isInputError then e.message else "internal error: ".toList ++ e.message)

/-- The text that a migration leaves, if it is a new one. -/
def newText? : Except MigrationError Migration → Option Text
  | .ok .unchanged => none
  | .ok (.converted text _) => some text
  | .error _ => none

/-- Whether a file refuses to be given a new text; a dry run gives it none. -/
def FileTree.refuses (t : FileTree) (c : Config) (l : Location) : Bool :=
  !c.dryRun && t.unwritable.contains l

/-- What comes of a file, once it was read. -/
def FileStatus.ofRead (t : FileTree) (c : Config) (p : Path) :
    Except Fault (Location × Text) → FileStatus
  | .error fault => .failed ("read failed: ".toList ++ fault.message)
  | .ok (l, source) =>
      if (newText? (migrate p source)).isSome && t.refuses c l then
        .failed ("write failed: ".toList ++ Fault.denied.message)
      else .ofMigration (migrate p source)

/-- The new text of a file that was read, with its location, when there is one and it is not
refused. -/
def revision? (t : FileTree) (c : Config) (p : Path) :
    Except Fault (Location × Text) → Option (Location × Text)
  | .error _ => none
  | .ok (l, source) =>
      if t.refuses c l then none else (newText? (migrate p source)).map fun text => (l, text)

variable {t u : FileTree} {c : Config} {p : Path} {read : Except Fault (Location × Text)} {l : Location}
  {source text : Text} {m : Except MigrationError Migration} {counts : MigrationCounts}

theorem FileTree.refuses_eq_false_iff :
    t.refuses c l = false ↔ (c.dryRun = false → l ∉ t.unwritable) := by
  cases hdry : c.dryRun <;> simp [refuses, hdry]

/-- A file that is written holds the text; one that refuses it stays. -/
theorem FileTree.write_eq (t : FileTree) (hdry : c.dryRun = false) (l : Location) (text : Text) :
    t.write l text = if t.refuses c l then .error .denied else .ok (t.put l (.text text)) := by
  rw [write, refuses, hdry]
  rfl

theorem FileTree.SamePlaces.refuses (h : t.SamePlaces u) (c : Config) (l : Location) :
    u.refuses c l = t.refuses c l := by
  rw [FileTree.refuses, FileTree.refuses, h.unwritable]

theorem FileTree.SamePlaces.ofRead (h : t.SamePlaces u) (c : Config) (p : Path)
    (read : Except Fault (Location × Text)) : FileStatus.ofRead u c p read = .ofRead t c p read := by
  cases read with
  | error fault => rfl
  | ok found => rw [FileStatus.ofRead, FileStatus.ofRead, h.refuses]

theorem FileTree.SamePlaces.revision? (h : t.SamePlaces u) (c : Config) (p : Path)
    (read : Except Fault (Location × Text)) :
    Promisify.revision? u c p read = Promisify.revision? t c p read := by
  cases read with
  | error fault => rfl
  | ok found => rw [Promisify.revision?, Promisify.revision?, h.refuses]

theorem FileStatus.ofMigration_eq_ok_iff :
    FileStatus.ofMigration m = .ok counts ↔ ∃ text, m = .ok (.converted text counts) := by
  constructor
  · intro h
    match m, h with
    | .ok (.converted text _), rfl => exact ⟨text, rfl⟩
  · rintro ⟨text, rfl⟩
    rfl

theorem newText?_eq_some_iff : newText? m = some text ↔ ∃ counts, m = .ok (.converted text counts) := by
  constructor
  · intro h
    match m, h with
    | .ok (.converted _ counts), rfl => exact ⟨counts, rfl⟩
  · rintro ⟨counts, rfl⟩
    rfl

theorem FileStatus.ofRead_eq_ok_iff : FileStatus.ofRead t c p read = .ok counts ↔
    ∃ l source text, read = .ok (l, source) ∧ migrate p source = .ok (.converted text counts) ∧
      t.refuses c l = false := by
  constructor
  · intro h
    cases read with
    | error fault => cases h
    | ok found =>
        rw [ofRead] at h
        split at h
        · cases h
        · next hwritten =>
            obtain ⟨text, hm⟩ := ofMigration_eq_ok_iff.mp h
            refine ⟨found.1, found.2, text, rfl, hm, ?_⟩
            rw [hm] at hwritten
            simpa [newText?] using hwritten
  · rintro ⟨l, source, text, rfl, hm, hwritten⟩
    rw [ofRead, hm, hwritten, Bool.and_false]
    rfl

theorem revision?_eq_some_iff : revision? t c p read = some (l, text) ↔
    ∃ source counts, read = .ok (l, source) ∧ migrate p source = .ok (.converted text counts) ∧
      t.refuses c l = false := by
  constructor
  · intro h
    cases read with
    | error fault => cases h
    | ok found =>
        rw [revision?] at h
        split at h
        · cases h
        · next hwritten =>
            obtain ⟨text', hm, heq⟩ := Option.map_eq_some_iff.mp h
            cases heq
            obtain ⟨counts, hm⟩ := newText?_eq_some_iff.mp hm
            exact ⟨found.2, counts, rfl, hm, by simpa using hwritten⟩
  · rintro ⟨source, counts, rfl, hm, hwritten⟩
    rw [revision?, hwritten, if_neg Bool.false_ne_true]
    exact Option.map_eq_some_iff.mpr ⟨text, newText?_eq_some_iff.mpr ⟨counts, hm⟩, rfl⟩

/-- A new text is that of a file which is there. -/
theorem file_of_revision? (h : revision? t c p (t.read p) = some (l, text)) :
    t.locate p = .ok l ∧ (t.file? l).isSome = true := by
  obtain ⟨source, counts, hread, -⟩ := revision?_eq_some_iff.mp h
  obtain ⟨hl, hfile, -⟩ := FileTree.read_eq_ok_iff.mp hread
  exact ⟨hl, by rw [hfile]; rfl⟩

namespace FileTree

/-- **What comes of a file is settled by what was read** and by whether the file can be written: its
result, ... -/
theorem migrateRead_result (t : FileTree) (s : Session) (c : Config) (p : Path)
    (read : Except Fault (Location × Text)) :
    (t.migrateRead s c p read).result =
      ⟨p, .ofRead t c p read, if c.print then (revision? t c p read).map Prod.snd else none⟩ := by
  cases read with
  | error fault => simp only [migrateRead, failed, FileStatus.ofRead, revision?, Option.map_none, ite_self]
  | ok found =>
      obtain ⟨l, source⟩ := found
      rw [migrateRead, FileStatus.ofRead, revision?, ← s.migrateLogged_value p source]
      dsimp only
      cases (s.migrateLogged p source).1.value with
      | error e =>
          simp only [FileStatus.ofMigration, newText?, Option.map_none, ite_self, Option.isSome_none,
            Bool.false_and]
          split
          · rfl
          · rfl
      | ok m =>
          cases m with
          | unchanged => simp [FileStatus.ofMigration, newText?]
          | converted text counts =>
              cases hdry : c.dryRun with
              | true => simp [refuses, hdry, newText?, FileStatus.ofMigration]
              | false =>
                  simp only [Bool.false_eq_true, if_false, t.write_eq hdry]
                  cases t.refuses c l with
                  | true => simp [failed, newText?]
                  | false => simp [newText?, FileStatus.ofMigration]

/-- ... and what is written. -/
theorem migrateRead_tree (t : FileTree) (s : Session) (c : Config) (p : Path)
    (read : Except Fault (Location × Text)) :
    (t.migrateRead s c p read).tree =
      if c.dryRun then t else t.writeAll (revision? t c p read).toList := by
  cases read with
  | error fault => exact (ite_self t).symm
  | ok found =>
      obtain ⟨l, source⟩ := found
      rw [migrateRead, revision?, ← s.migrateLogged_value p source]
      dsimp only
      cases (s.migrateLogged p source).1.value with
      | error e =>
          simp only [newText?, Option.map_none, Option.toList_none, writeAll_nil, ite_self]
          split
          · rfl
          · rfl
      | ok m =>
          cases m with
          | unchanged => simp [newText?]
          | converted text counts =>
              cases hdry : c.dryRun with
              | true => rfl
              | false =>
                  simp only [Bool.false_eq_true, if_false, t.write_eq hdry]
                  cases t.refuses c l with
                  | true => simp [failed]
                  | false => simp [newText?]

/-- Handling a file leaves the tree as it is, or gives the file that was read its new text. -/
theorem migrateRead_cases (t : FileTree) (s : Session) (c : Config) (p : Path)
    (read : Except Fault (Location × Text)) :
    ((t.migrateRead s c p read).tree = t ∧
        (c.dryRun = false → ∀ counts, (t.migrateRead s c p read).result.status ≠ .ok counts)) ∨
      ∃ l source text counts, c.dryRun = false ∧ read = .ok (l, source) ∧
        migrate p source = .ok (.converted text counts) ∧
        (t.migrateRead s c p read).result.status = .ok counts ∧
        (t.migrateRead s c p read).tree = t.put l (.text text) := by
  rw [migrateRead_tree, migrateRead_result]
  cases hdry : c.dryRun with
  | true => exact Or.inl ⟨rfl, by simp⟩
  | false =>
      by_cases hok : ∃ counts, FileStatus.ofRead t c p read = .ok counts
      · obtain ⟨counts, hok⟩ := hok
        obtain ⟨l, source, text, hread, hm, hwritten⟩ := FileStatus.ofRead_eq_ok_iff.mp hok
        have hrevision : revision? t c p read = some (l, text) :=
          revision?_eq_some_iff.mpr ⟨source, counts, hread, hm, hwritten⟩
        exact Or.inr ⟨l, source, text, counts, rfl, hread, hm, hok, by rw [hrevision]; rfl⟩
      · refine Or.inl ⟨?_, fun _ counts hcounts => hok ⟨counts, hcounts⟩⟩
        cases hrevision : revision? t c p read with
        | none => rfl
        | some w =>
            obtain ⟨source, counts, hread, hm, hwritten⟩ := revision?_eq_some_iff.mp hrevision
            exact absurd ⟨counts, FileStatus.ofRead_eq_ok_iff.mpr ⟨w.1, source, w.2, hread, hm, hwritten⟩⟩ hok

end FileTree

/-! ## Reports -/

namespace Report

/-- The counts and failures of a report do not depend on what is to be printed. -/
theorem ofResults_outputs (files : List Path) (status : Path → FileStatus)
    (output output' : Path → Option Text) (dryRun dryRun' : Bool) (elapsedMs : Nat) :
    ofResults (files.map fun p => ⟨p, status p, output p⟩) dryRun elapsedMs =
      { ofResults (files.map fun p => ⟨p, status p, output' p⟩) dryRun' elapsedMs with
        dryRun := dryRun
        printed := files.filterMap fun p => (output p).map fun text => (p, text) } := by
  simp only [ofResults, total, List.length_map, List.filterMap_map, List.filter_map]
  rfl

end Report

end Promisify
