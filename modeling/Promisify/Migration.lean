import Promisify.Path
import Promisify.ImportChange
import Promisify.Render

set_option autoImplicit false

/-! # Migrating a file

A file is read, its sites are replaced, the new text is read again and its imports are made to
fit. The outcome is a new text with counts, or that there is nothing to change.
-/

namespace Promisify

/-- Why a file cannot be migrated. -/
inductive MigrationError where
  /-- The grammar cannot be loaded. -/
  | noGrammar (message : Text)
  /-- Reading gives no tree. -/
  | noTree (path : Path)
  /-- The source does not parse. -/
  | invalidSource (path : Path) (point : Point)
  /-- The text with the sites replaced does not parse. -/
  | invalidOutput (path : Path) (point : Point)
  /-- A span does not fit the text it is taken from. -/
  | badSpan
  deriving DecidableEq, Repr

namespace MigrationError

/-- A line and a column as they are shown, counted from one. -/
def place (p : Point) : Text := Text.ofNat (p.row + 1) ++ ':' :: Text.ofNat (p.column + 1)

/-- The text shown for an error. -/
def message : MigrationError → Text
  | noGrammar m => "parser initialisation failed: ".toList ++ m
  | noTree p => "parser produced no tree for ".toList ++ p.text
  | invalidSource p pt => "syntax error in ".toList ++ p.text ++ " at ".toList ++ place pt
  | invalidOutput p pt =>
      "rewrite of ".toList ++ p.text ++ " produced invalid syntax at ".toList ++ place pt
  | badSpan => "span outside the text".toList

/-- Whether the file is to blame. -/
def isInputError : MigrationError → Bool
  | noTree _ => true
  | invalidSource _ _ => true
  | _ => false

/-- Where the error is. -/
def point? : MigrationError → Option Point
  | invalidSource _ p => some p
  | invalidOutput _ p => some p
  | _ => none

end MigrationError

/-- The counts of a migrated file. -/
structure MigrationCounts where
  sites : SiteCounts
  imports : ImportCounts
  deriving DecidableEq, Repr, Inhabited

/-- What comes of migrating a file. -/
inductive Migration where
  | unchanged
  | converted (text : Text) (counts : MigrationCounts)
  deriving DecidableEq, Repr

/-- The text after the migration of `source`. -/
def Migration.textOr (source : Text) : Migration → Text
  | unchanged => source
  | converted t _ => t

/-! ## Reading in a session -/

/-- What stays between files read one after another: the dialect whose grammar is loaded. -/
structure Session where
  loaded : Option Dialect
  deriving DecidableEq, Repr

namespace Session

/-- A session in which nothing was read. -/
def fresh : Session := ⟨none⟩

/-- The session with the grammar of a dialect loaded. -/
def load (s : Session) (d : Dialect) : Session := if s.loaded = some d then s else ⟨some d⟩

/-- Reads a text with the grammar that is loaded once that of the path's dialect is asked
for. -/
def read (s : Session) (p : Path) (t : Text) : Except Point SourceFile × Session :=
  let ready := s.load p.dialect
  (parse? (ready.loaded.getD p.dialect) t, ready)

/-- Reads a source. -/
def readSource (s : Session) (p : Path) (t : Text) : Except MigrationError SourceFile × Session :=
  let r := s.read p t
  (r.1.mapError (.invalidSource p), r.2)

/-- Reads a text that the migration wrote itself. -/
def readOutput (s : Session) (p : Path) (t : Text) : Except MigrationError SourceFile × Session :=
  let r := s.read p t
  (r.1.mapError (.invalidOutput p), r.2)

end Session

/-! ## Migrating -/

namespace Migration

/-- What is reported at the end of a migration. -/
def closingEvent (p : Path) : Migration → Event
  | unchanged => ⟨.debug, "unchanged".toList, [("path".toList, p.text)]⟩
  | converted _ c =>
      ⟨.info, "rewrote file".toList, [("path".toList, p.text),
        ("rewritten".toList, Text.ofNat c.sites.converted),
        ("skipped".toList, Text.ofNat c.sites.skipped)]⟩

/-- The migration of `source` to `output`. -/
def ofOutput (source output : Text) (counts : MigrationCounts) : Migration :=
  if output = source then unchanged else converted output counts

/-- Makes the imports of a file fit, whose sites `r` replaced in `source`. -/
def finish (source : Text) (p : Path) (r : Conversion) (f : SourceFile) :
    Logged (Except MigrationError Migration) :=
  let fit := f.importChange r.required
  let events := r.events source ++ fit.events ++ fit.edits.events f.text
  match fit.edits.applied? f.text with
  | none => ⟨.error .badSpan, events⟩
  | some output =>
      let m := ofOutput source output ⟨r.counts, fit.counts⟩
      ⟨.ok m, events ++ [m.closingEvent p]⟩

end Migration

namespace Session

/-- Migrates a source in a session, with what is reported on the way. -/
def migrateLogged (s : Session) (p : Path) (source : Text) :
    Logged (Except MigrationError Migration) × Session :=
  match s.readSource p source with
  | (.error e, s) => (⟨.error e, []⟩, s)
  | (.ok f, s) =>
      match f.conversion? with
      | none => (⟨.error .badSpan, []⟩, s)
      | some r =>
          if r.text = source then (Migration.finish source p r f, s)
          else
            match s.readOutput p r.text with
            | (.error e, s) => (⟨.error e, r.events source⟩, s)
            | (.ok g, s) => (Migration.finish source p r g, s)

/-- Migrates a source in a session. -/
def migrate (s : Session) (p : Path) (source : Text) :
    Except MigrationError Migration × Session :=
  let r := s.migrateLogged p source
  (r.1.value, r.2)

/-- Migrates sources one after another in one session. -/
def migrateAll (s : Session) : List (Path × Text) → List (Logged (Except MigrationError Migration))
  | [] => []
  | (p, t) :: files =>
      let r := s.migrateLogged p t
      r.1 :: migrateAll r.2 files

end Session

/-- Migrates a source. -/
def migrate (p : Path) (source : Text) : Except MigrationError Migration :=
  (Session.fresh.migrate p source).1

/-- Migrates a source and then what comes of it, `times` times in all, up to the first error. -/
def migrateTimes (p : Path) : Nat → Text → List (Logged (Except MigrationError Migration))
  | 0, _ => []
  | times + 1, source =>
      let r := (Session.fresh.migrateLogged p source).1
      r :: match r.value with
        | .error _ => []
        | .ok m => migrateTimes p times (m.textOr source)

end Promisify
