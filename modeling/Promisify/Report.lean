import Promisify.Event
import Promisify.Migration

set_option autoImplicit false

/-! # Reports

What came of each file of a run, and the summary of all of them as text and as JSON.
-/

namespace Promisify

/-- What came of one file. -/
inductive FileStatus where
  /-- It was migrated. -/
  | ok (counts : MigrationCounts)
  | unmodified
  | failed (message : Text)
  deriving DecidableEq, Repr

/-- A file with what came of it. -/
structure FileResult where
  path : Path
  status : FileStatus
  /-- The new text, if it is to be printed. -/
  output : Option Text
  deriving DecidableEq, Repr

/-- The summary of a run. -/
structure Report where
  files : Nat
  ok : Nat
  unmodified : Nat
  /-- The files that failed, each with its message. -/
  errors : List (Path × Text)
  sitesConverted : Nat
  sitesSkipped : Nat
  dryRun : Bool
  elapsedMs : Nat
  /-- The new texts to print. -/
  printed : List (Path × Text)
  deriving DecidableEq, Repr

namespace FileResult

/-- The counts of a file that was migrated. -/
def counts? (r : FileResult) : Option MigrationCounts :=
  match r.status with
  | .ok c => some c
  | _ => none

/-- The path and message of a file that failed. -/
def failure? (r : FileResult) : Option (Path × Text) :=
  match r.status with
  | .failed m => some (r.path, m)
  | _ => none

/-- The path and new text of a file that is to be printed. -/
def printed? (r : FileResult) : Option (Path × Text) := r.output.map fun t => (r.path, t)

end FileResult

namespace Report

/-- The sum of one count over all files that were migrated. -/
def total (count : MigrationCounts → Nat) (results : List FileResult) : Nat :=
  ((results.filterMap FileResult.counts?).map count).foldr (· + ·) 0

/-- The summary of results. -/
def ofResults (results : List FileResult) (dryRun : Bool) (elapsedMs : Nat) : Report where
  files := results.length
  ok := (results.filterMap FileResult.counts?).length
  unmodified := (results.filter fun r => r.status = .unmodified).length
  errors := results.filterMap FileResult.failure?
  sitesConverted := total (fun c => c.sites.converted) results
  sitesSkipped := total (fun c => c.sites.skipped) results
  dryRun := dryRun
  elapsedMs := elapsedMs
  printed := results.filterMap FileResult.printed?

/-- Whether no file failed. -/
def succeeded (r : Report) : Bool := r.errors.isEmpty

/-- The summary for people. -/
def text (r : Report) : Text :=
  r.errors.flatMap (fun e => " ERR ".toList ++ e.1.text ++ ' ' :: e.2 ++ ['\n'])
    ++ "Results:\n".toList
    ++ Text.ofNat r.errors.length ++ " errors\n".toList
    ++ Text.ofNat r.unmodified ++ " unmodified\n".toList
    ++ Text.ofNat r.ok ++ " ok\n".toList
    ++ Text.ofNat r.sitesConverted ++ " call(s) rewritten, ".toList
    ++ Text.ofNat r.sitesSkipped ++ " left as written\n".toList
    ++ (if r.dryRun then "Dry run: no files were written\n".toList else [])
    ++ "Time elapsed: ".toList ++ Text.ofNat r.elapsedMs ++ "ms\n".toList

/-! ## JSON -/

/-- A character inside a JSON string. -/
def jsonChar (c : Char) : Text :=
  if c = '"' then ['\\', '"']
  else if c = '\\' then ['\\', '\\']
  else if c = '\n' then ['\\', 'n']
  else if c = '\r' then ['\\', 'r']
  else if c = '\t' then ['\\', 't']
  else if c.toNat = 8 then ['\\', 'b']
  else if c.toNat = 12 then ['\\', 'f']
  else if c.toNat < 32 then
    ['\\', 'u', '0', '0', Nat.digitChar (c.toNat / 16), Nat.digitChar (c.toNat % 16)]
  else [c]

/-- A JSON string. -/
def jsonString (t : Text) : Text := '"' :: t.flatMap jsonChar ++ ['"']

/-- A member of a JSON object, on its own line. -/
def jsonMember (indent : Nat) (key : String) (value : Text) : Text :=
  List.replicate indent ' ' ++ jsonString key.toList ++ ": ".toList ++ value

/-- Lines with a comma after each but the last. -/
def jsonLines (lines : List Text) : Text := Text.join ",\n".toList lines

/-- One failed file as a JSON object. -/
def jsonFailure (e : Path × Text) : Text :=
  "    \x7b\n".toList
    ++ jsonLines [jsonMember 6 "path" (jsonString e.1.text), jsonMember 6 "message" (jsonString e.2)]
    ++ "\n    \x7d".toList

/-- The failed files as a JSON array. -/
def jsonFailures (errors : List (Path × Text)) : Text :=
  if errors.isEmpty then "[]".toList
  else "[\n".toList ++ jsonLines (errors.map jsonFailure) ++ "\n  ]".toList

/-- The summary as JSON. -/
def json (r : Report) : Text :=
  "\x7b\n".toList ++ jsonLines [
    jsonMember 2 "files" (Text.ofNat r.files),
    jsonMember 2 "ok" (Text.ofNat r.ok),
    jsonMember 2 "unmodified" (Text.ofNat r.unmodified),
    jsonMember 2 "errors" (jsonFailures r.errors),
    jsonMember 2 "sites_rewritten" (Text.ofNat r.sitesConverted),
    jsonMember 2 "sites_skipped" (Text.ofNat r.sitesSkipped),
    jsonMember 2 "dry_run" (if r.dryRun then "true".toList else "false".toList),
    jsonMember 2 "elapsed_ms" (Text.ofNat r.elapsedMs)] ++ "\n\x7d".toList

end Report

end Promisify
