import Promisify.Batch

set_option autoImplicit false

/-! # Command line

Arguments are read from left to right. What is shown and the exit code follow from the options and
the outcome of the run.
-/

namespace Promisify

/-- What the arguments ask for. -/
structure Options where
  paths : List Path
  dry : Bool
  print : Bool
  json : Bool
  jobs : Option Nat
  config : Option Path
  verbosity : Nat
  deriving DecidableEq, Repr

/-- How the arguments are understood. -/
inductive Invocation where
  | run (o : Options)
  | version
  | help
  /-- The arguments make no sense. -/
  | misuse
  deriving DecidableEq, Repr

namespace Options

/-- No arguments. -/
def none : Options := ⟨[], false, false, false, Option.none, Option.none, 0⟩

/-- An option that is given once at most and takes a value. -/
inductive Valued where
  | jobs
  | config
  deriving DecidableEq, Repr

/-- A flag. -/
inductive Flag where
  | dry
  | print
  | json
  | verbose
  | version
  | help
  deriving DecidableEq, Repr

/-- The flag with a long name. -/
def longFlag? (name : Text) : Option Flag :=
  [("dry", Flag.dry), ("print", .print), ("json", .json), ("verbose", .verbose),
    ("version", .version), ("help", .help)].findSome? fun f =>
      if f.1.toList = name then some f.2 else Option.none

/-- The option with a long name. -/
def longValued? (name : Text) : Option Valued :=
  if name = "jobs".toList then some .jobs
  else if name = "config".toList then some .config
  else Option.none

/-- The flag with a letter. -/
def shortFlag? : Char → Option Flag
  | 'v' => some .verbose
  | 'V' => some .version
  | 'h' => some .help
  | _ => Option.none

/-- The number a text writes in decimal digits, below `2 ^ 64`. -/
def number? (t : Text) : Option Nat :=
  let digits := match t with
    | '+' :: cs => cs
    | cs => cs
  if digits.isEmpty || digits.any fun c => !c.isDigit then Option.none
  else
    let n := digits.foldl (fun n c => n * 10 + (c.toNat - '0'.toNat)) 0
    if n < Nat.pow 2 64 then some n else Option.none

/-- The options with a path; an empty one makes no sense. -/
def addPath? (o : Options) (t : Text) : Option Options :=
  if t.isEmpty then Option.none else some { o with paths := o.paths ++ [⟨t⟩] }

/-- The options with the value of an option. -/
def setValue? (o : Options) : Valued → Text → Option Options
  | .jobs, t =>
      if o.jobs.isSome then Option.none
      else (number? t).map fun n => { o with jobs := some n }
  | .config, t =>
      if o.config.isSome || t.isEmpty then Option.none else some { o with config := some ⟨t⟩ }

/-- The options with a flag, or what the flag asks for instead. Only the flag that adds to the
verbosity can be repeated. -/
def setFlag (o : Options) : Flag → Except Invocation Options
  | .dry => if o.dry then .error .misuse else .ok { o with dry := true }
  | .print => if o.print then .error .misuse else .ok { o with print := true }
  | .json => if o.json then .error .misuse else .ok { o with json := true }
  | .verbose => .ok { o with verbosity := o.verbosity + 1 }
  | .version => .error .version
  | .help => .error .help

/-- Misuse unless there are options. -/
def orMisuse : Option Options → Except Invocation Options
  | some o => .ok o
  | Option.none => .error .misuse

/-- The options with letters after one dash. The letter of an option takes the rest of the
letters as its value, or waits for the next argument when there are none. -/
def setLetters (o : Options) : Text → Except Invocation (Options × Option Valued)
  | [] => .ok (o, Option.none)
  | c :: cs =>
      if c = 'j' then
        match cs with
        | [] => .ok (o, some .jobs)
        | '=' :: value => (orMisuse (o.setValue? .jobs value)).map fun o => (o, Option.none)
        | value => (orMisuse (o.setValue? .jobs value)).map fun o => (o, Option.none)
      else
        match shortFlag? c with
        | some f => (o.setFlag f).bind fun o => o.setLetters cs
        | Option.none => .error .misuse

/-- The options with what follows two dashes. -/
def setLong (o : Options) (t : Text) : Except Invocation (Options × Option Valued) :=
  let name := t.takeWhile (· != '=')
  match t.dropWhile (· != '='), longFlag? name, longValued? name with
  | [], some f, _ => (o.setFlag f).map fun o => (o, Option.none)
  | [], _, some v => .ok (o, some v)
  | _ :: value, _, some v => (orMisuse (o.setValue? v value)).map fun o => (o, Option.none)
  | _, _, _ => .error .misuse

/-- The options with paths. -/
def addPaths (o : Options) : List Text → Except Invocation Options
  | [] => .ok o
  | t :: ts => (orMisuse (o.addPath? t)).bind fun o => o.addPaths ts

/-- The options with arguments, while `waiting` still needs its value. -/
def addArgs (o : Options) (waiting : Option Valued) : List Text → Except Invocation Options
  | [] => if waiting.isSome then .error .misuse else .ok o
  | arg :: args =>
      match arg, waiting with
      | '-' :: _ :: _, some _ => .error .misuse
      | ['-', '-'], Option.none => o.addPaths args
      | '-' :: '-' :: long, Option.none =>
          (o.setLong long).bind fun r => r.1.addArgs r.2 args
      | '-' :: c :: cs, Option.none =>
          (o.setLetters (c :: cs)).bind fun r => r.1.addArgs r.2 args
      | value, some v => (orMisuse (o.setValue? v value)).bind fun o => o.addArgs Option.none args
      | path, Option.none => (orMisuse (o.addPath? path)).bind fun o => o.addArgs Option.none args

end Options

/-- What the arguments ask for. At least one path is needed. -/
def Invocation.ofArgs (args : List Text) : Invocation :=
  match Options.none.addArgs none args with
  | .error i => i
  | .ok o => if o.paths.isEmpty then .misuse else .run o

/-! ## Outcome -/

/-- Why a run was given up: what was being done, and the causes from the outermost in. -/
structure Complaint where
  context : Text
  causes : List Text
  deriving DecidableEq, Repr

namespace Complaint

/-- A configuration file could not be loaded. -/
def ofConfig (p : Path) (e : ConfigError) : Complaint :=
  ⟨"loading config ".toList ++ p.text, e.message :: match e with
    | .unreadable _ f => [f.message]
    | .malformed _ => [ConfigError.malformedReason]
    | .invalid _ => []⟩

/-- The run as a whole failed. -/
def ofRun (e : RunError) : Complaint :=
  ⟨"migration run failed".toList, e.message :: match e with
    | .config c => [c.message]
    | .missingInput _ => []
    | .threadPool fault => [fault.message, fault.message]⟩

/-- A text with its later lines moved in by blanks. -/
def indented (blanks : Nat) (t : Text) : Text :=
  t.flatMap fun c => if c = '\n' then '\n' :: List.replicate blanks ' ' else [c]

/-- The causes with their numbers, the first being `n`. -/
def numbered (n : Nat) : List Text → Text
  | [] => []
  | cause :: causes =>
      let number := Text.ofNat n
      '\n' :: List.replicate (5 - number.length) ' ' ++ number ++ ": ".toList
        ++ indented 7 cause ++ numbered (n + 1) causes

/-- What is shown of a complaint. -/
def text (c : Complaint) : Text :=
  let causes := match c.causes with
    | [] => []
    | [cause] => "\n\nCaused by:\n    ".toList ++ indented 4 cause
    | many => "\n\nCaused by:".toList ++ numbered 0 many
  "Error: ".toList ++ c.context ++ causes ++ ['\n']

end Complaint

/-- What a run of the command leaves behind. -/
structure Finished where
  outcome : Except Complaint Report
  events : List Event
  tree : FileTree

/-- What a command leaves: its exit code and what it shows. -/
structure Exit where
  code : Nat
  output : Text
  errors : Text
  deriving DecidableEq, Repr

namespace Options

/-- The configuration that the options ask for. -/
def configuration (o : Options) (t : FileTree) : Except Complaint Config := do
  let base ← match o.config with
    | some p => (Config.load t p).mapError (Complaint.ofConfig p)
    | Option.none => .ok Config.initial
  return { base with
    dryRun := base.dryRun || o.dry
    print := base.print || o.print
    jobs := o.jobs.orElse fun _ => base.jobs }

/-- Runs what the options ask for. -/
def run (o : Options) (t : FileTree) (limit : Option Nat) : Finished :=
  match o.configuration t with
  | .error e => ⟨.error e, [], t⟩
  | .ok c =>
      let done := t.run limit c o.paths
      ⟨done.outcome.mapError Complaint.ofRun, done.timeline, done.tree⟩

/-- The events that are shown: warnings and errors, and more with each step of verbosity. -/
def shown (o : Options) (events : List Event) : List Event :=
  events.filter fun e =>
    match e.severity with
    | .debug => 2 ≤ o.verbosity
    | .info => 1 ≤ o.verbosity
    | .warn => true
    | .error => true

/-- What is shown after a run. -/
def exit (o : Options) : Except Complaint Report → Exit
  | .error c => ⟨1, [], c.text⟩
  | .ok r =>
      let printed := r.printed.flatMap fun p => "// ".toList ++ p.1.text ++ '\n' :: p.2
      let code := if r.succeeded then 0 else 1
      if o.json then ⟨code, printed ++ r.json ++ ['\n'], []⟩ else ⟨code, printed, r.text⟩

end Options

namespace Invocation

/-- The name and version of the command. -/
def versionText : Text := "rxmigrate 0.1.0\n".toList

/-- How the command is called. -/
def usageText : Text := "Usage: rxmigrate [OPTIONS] <PATH>...\n".toList

/-- What the command does and the arguments it takes. -/
def helpText : Text :=
  "Replace deprecated RxJS toPromise() calls with firstValueFrom/lastValueFrom\n\n".toList
    ++ usageText
    ++ "\nArguments:\n".toList
    ++ "  <PATH>...  Files or directories to transform\n".toList
    ++ "\nOptions:\n".toList
    ++ "      --dry              Transform without writing files\n".toList
    ++ "      --print            Print rewritten sources to stdout\n".toList
    ++ "  -j, --jobs <jobs>      Number of worker threads\n".toList
    ++ "      --config <config>  TOML configuration file\n".toList
    ++ "      --json             Output the summary as JSON\n".toList
    ++ "  -v, --verbose...       Increase log verbosity (-v info, -vv debug)\n".toList
    ++ "  -h, --help             Print help\n".toList
    ++ "  -V, --version          Print version\n".toList

/-- Does what the arguments ask for; `elapsedMs` is shown as the time it took. -/
def execute (i : Invocation) (t : FileTree) (limit : Option Nat) (elapsedMs : Nat) :
    Exit × FileTree :=
  match i with
  | version => (⟨0, versionText, []⟩, t)
  | help => (⟨0, helpText, []⟩, t)
  | misuse => (⟨2, [], usageText⟩, t)
  | run o =>
      let done := o.run t limit
      (o.exit (done.outcome.map fun r => { r with elapsedMs := elapsedMs }), done.tree)

end Invocation

end Promisify
