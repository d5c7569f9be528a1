import Promisify.Discovery
import Promisify.Report

set_option autoImplicit false

/-! # Runs over many files

Each file of a run is read, migrated and written back when it changed. A file that fails is
reported and the run goes on.
-/

namespace Promisify

/-- What handling one file leaves behind. -/
structure Handled where
  result : FileResult
  events : List Event
  session : Session
  tree : FileTree

namespace FileTree

/-- The result of a file that failed, with the events before it. -/
def failed (t : FileTree) (s : Session) (p : Path) (events : List Event) (message : Text) :
    Handled :=
  ⟨⟨p, .failed message, none⟩, events ++ [⟨.warn, message, [("path".toList, p.text)]⟩], s, t⟩

/-- Migrates a file that was read and writes it back when it changed. -/
def migrateRead (t : FileTree) (s : Session) (c : Config) (p : Path) :
    Except Fault (Location × Text) → Handled
  | .error fault => t.failed s p [] ("read failed: ".toList ++ fault.message)
  | .ok (l, source) =>
      let (logged, s) := s.migrateLogged p source
      match logged.value with
      | .ok .unchanged => ⟨⟨p, .unmodified, none⟩, logged.events, s, t⟩
      | .ok (.converted text counts) =>
          match if c.dryRun then .ok t else t.write l text with
          | .error fault => t.failed s p logged.events ("write failed: ".toList ++ fault.message)
          | .ok t' =>
              ⟨⟨p, .ok counts, if c.print then some text else none⟩, logged.events, s, t'⟩
      | .error e =>
          if e.isInputError then t.failed s p logged.events e.message
          else
            t.failed s p
              (logged.events ++ [⟨.error,
                "engine failure, file left untouched: ".toList ++ e.message,
                [("path".toList, p.text)]⟩])
              ("internal error: ".toList ++ e.message)

/-- Migrates one file and writes it back when it changed. -/
def migrateFile (t : FileTree) (s : Session) (c : Config) (p : Path) : Handled :=
  t.migrateRead s c p (t.read p)

/-- What handling files one after another leaves behind. -/
structure Pass where
  results : List FileResult
  events : List Event
  tree : FileTree

/-- Migrates files one after another. -/
def migrateFiles (t : FileTree) (s : Session) (c : Config) : List Path → Pass
  | [] => ⟨[], [], t⟩
  | p :: ps =>
      let h := t.migrateFile s c p
      let rest := migrateFiles h.tree h.session c ps
      ⟨h.result :: rest.results, h.events ++ rest.events, rest.tree⟩

/-- What a run leaves behind. The events of its files are kept apart from its own: they happen
on its workers. -/
structure Run where
  outcome : Except RunError Report
  events : List Event
  workerEvents : List Event
  tree : FileTree

/-- All events of a run in the order they happen: those of the workers come before the one that
closes the run. -/
def Run.timeline (r : Run) : List Event :=
  r.events.dropLast ++ r.workerEvents ++ r.events.getLast?.toList

/-- What is reported once a run has its files. -/
def startEvent (files : List Path) : Event :=
  ⟨.info, "processing ".toList ++ Text.ofNat files.length ++ " file(s)".toList, []⟩

/-- What is reported at the end of a run. -/
def endEvent (r : Report) : Event :=
  ⟨.info, "run finished".toList, [("ok".toList, Text.ofNat r.ok),
    ("unmodified".toList, Text.ofNat r.unmodified),
    ("errors".toList, Text.ofNat r.errors.length)]⟩

/-- Migrates every file that the inputs stand for; `limit` is how many threads can be started, if
that is bounded. -/
def run (t : FileTree) (limit : Option Nat) (c : Config) (inputs : List Path) : Run :=
  match c.check with
  | .error e => ⟨.error (.config e), [], [], t⟩
  | .ok () =>
      match t.collect c inputs with
      | .error e => ⟨.error e, t.collectEvents c inputs, [], t⟩
      | .ok files =>
          let started := t.collectEvents c inputs ++ [startEvent files]
          match c.startWorkers limit with
          | .error fault => ⟨.error (.threadPool fault), started, [], t⟩
          | .ok () =>
              let pass := t.migrateFiles .fresh c files
              let report := Report.ofResults pass.results c.dryRun 0
              ⟨.ok report, started ++ [endEvent report], pass.events, pass.tree⟩

end FileTree

end Promisify
