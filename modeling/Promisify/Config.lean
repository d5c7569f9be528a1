import Promisify.FileTree
import Promisify.Settings

set_option autoImplicit false

/-! # Configuration of a run

A configuration says which files of a folder are picked up, which folders are left out, and what is
done with the new texts. It starts from `Config.initial` and is changed by settings, each of which
may be made once; `check` refuses one that cannot be used.
-/

namespace Promisify

/-- What a run picks up and what it does with the result. -/
structure Config where
  /-- The extensions of the files that are picked up in folders. -/
  extensions : List Text
  /-- The names of folders that are not entered. -/
  excludeDirs : List Text
  /-- Whether files are left unwritten. -/
  dryRun : Bool
  /-- Whether new texts are kept for printing. -/
  print : Bool
  /-- The number of workers, if it is fixed. -/
  jobs : Option Nat
  deriving DecidableEq, Repr

/-- Why a configuration cannot be used. -/
inductive ConfigError where
  /-- The file cannot be read. -/
  | unreadable (path : Path) (fault : Fault)
  /-- The file holds no settings. -/
  | malformed (path : Path)
  /-- The settings make no sense. -/
  | invalid (problem : Text)
  deriving DecidableEq, Repr

/-- What is wrong with a text that holds no settings. -/
def ConfigError.malformedReason : Text := "TOML parse error".toList

/-- The text shown for an error. -/
def ConfigError.message : ConfigError → Text
  | unreadable p f => "io error reading ".toList ++ p.text ++ ": ".toList ++ f.message
  | malformed p => "invalid config ".toList ++ p.text ++ ": ".toList ++ malformedReason
  | invalid problem => "invalid config: ".toList ++ problem

namespace Config

/-- The configuration without any settings. -/
def initial : Config where
  extensions := ["ts".toList, "tsx".toList, "mts".toList, "cts".toList]
  excludeDirs := ["node_modules".toList, "dist".toList, ".git".toList]
  dryRun := false
  print := false
  jobs := none

/-! ## Settings -/

/-- The texts of a list of texts. -/
def texts? : List Setting → Option (List Text)
  | [] => some []
  | .text t :: ss => (texts? ss).map (t :: ·)
  | _ :: _ => none

/-- The configuration with one setting; a key that names none and a value of the wrong kind
have no result. -/
def set? (c : Config) (key : Text) (value : Setting) : Option Config :=
  if key = "extensions".toList then
    match value with
    | .list items => (texts? items).map fun ts => { c with extensions := ts }
    | _ => none
  else if key = "exclude_dirs".toList then
    match value with
    | .list items => (texts? items).map fun ts => { c with excludeDirs := ts }
    | _ => none
  else if key = "dry_run".toList then
    match value with
    | .bool b => some { c with dryRun := b }
    | _ => none
  else if key = "print".toList then
    match value with
    | .bool b => some { c with print := b }
    | _ => none
  else if key = "jobs".toList then
    match value with
    | .absent => some { c with jobs := none }
    | .integer n => if 0 ≤ n && n < Int.pow 2 64 then some { c with jobs := some n.toNat } else none
    | _ => none
  else none

/-- The configuration with settings made one after another; no key is set twice. -/
def setAll? (c : Config) (seen : List Text) : List (Text × Setting) → Option Config
  | [] => some c
  | (key, value) :: rest =>
      if seen.contains key then none
      else (c.set? key value).bind fun c => c.setAll? (key :: seen) rest

/-- The configuration that settings make. -/
def ofSettings? (settings : List (Text × Setting)) : Option Config := initial.setAll? [] settings

/-! ## Use -/

/-- The first thing that makes a configuration unusable. -/
def problem? (c : Config) : Option Text :=
  if c.jobs = some 0 then some "jobs must be at least 1".toList
  else if c.extensions.isEmpty then some "extensions must not be empty".toList
  else none

/-- Checks that a configuration can be used. -/
def check (c : Config) : Except ConfigError Unit :=
  match c.problem? with
  | some problem => .error (.invalid problem)
  | none => .ok ()

/-- The configuration in a file of a tree. -/
def load (t : FileTree) (p : Path) : Except ConfigError Config := do
  match t.read p with
  | .error f => .error (.unreadable p f)
  | .ok (_, text) =>
      match (Settings.read? text).bind ofSettings? with
      | none => .error (.malformed p)
      | some c =>
          c.check
          return c

/-- The configuration with other extensions, given with or without dots in front. -/
def setExtensions (c : Config) (extensions : List Text) : Config :=
  { c with extensions := extensions.map (List.dropWhile (· == '.')) }

/-- Whether a file in a folder is picked up. -/
def picks (c : Config) (p : Path) : Bool :=
  match p.extension? with
  | some e => c.extensions.contains e
  | none => false

/-- Whether folders with a name are not entered. -/
def skips (c : Config) (name : Text) : Bool := c.excludeDirs.contains name

/-- The most workers that are started, whatever their number is fixed to. -/
def mostWorkers : Nat := 65535

/-- Starts the workers when their number is fixed; `limit` is how many threads can be started, if
that is bounded. -/
def startWorkers (c : Config) (limit : Option Nat) : Except Fault Unit :=
  match c.jobs, limit with
  | some jobs, some most => if min jobs mostWorkers ≤ most then .ok () else .error .exhausted
  | _, _ => .ok ()

end Config

end Promisify
