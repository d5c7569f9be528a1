import Promisify.Config
import Promisify.Event
import Promisify.Sorting

set_option autoImplicit false

/-! # Finding the files of a run

An input that is a file is taken as it is. An input that is a folder stands for the files below it
with an accepted extension, except those in folders that are not entered, in the order of their
paths. A path that was found before is left out.
-/

namespace Promisify

/-- Why a run stops before it handles any file. -/
inductive RunError where
  | config (e : ConfigError)
  /-- The input is neither a file nor a folder. -/
  | missingInput (path : Path)
  /-- The workers cannot be started. -/
  | threadPool (fault : Fault)
  deriving DecidableEq, Repr

/-- The text shown for an error. -/
def RunError.message : RunError → Text
  | config e => "configuration error: ".toList ++ e.message
  | missingInput p => "input does not exist or is not a file/dir: ".toList ++ p.text
  | threadPool fault => "thread pool error: ".toList ++ fault.message

namespace Path

/-- Whether a path may stand before another one in ascending order. -/
def before (p q : Path) : Bool := !q.lt p

/-- The paths in ascending order. -/
def sorted (ps : List Path) : List Path := sortedBy Path.before ps

/-- The paths without those that are the same as one before them or as one in `seen`. -/
def distinct (seen : List Path) : List Path → List Path
  | [] => []
  | p :: ps => if seen.any p.same then distinct seen ps else p :: distinct (p :: seen) ps

end Path

namespace FileTree

variable (t : FileTree) (c : Config)

/-- The paths of the files found in a folder, whose path is `input`. -/
def candidates (input : Path) (l : Location) : List Path :=
  let entered := (t.filesBelow l).filter fun names => !names.dropLast.any c.skips
  Path.sorted ((entered.map fun names => names.foldl Path.join input).filter c.picks)

/-- The paths that an input stands for; there are none when it is missing. -/
def contributed? (input : Path) : Option (List Path) :=
  match t.locate input with
  | .error _ => none
  | .ok l =>
      if (t.file? l).isSome then some [input]
      else if t.isFolder l then some (t.candidates c input l)
      else none

/-- The paths that the inputs stand for, with repetitions, or the first input that is
missing. -/
def contributions : List Path → Except Path (List Path)
  | [] => .ok []
  | p :: ps =>
      match t.contributed? c p with
      | none => .error p
      | some found =>
          match contributions ps with
          | .error q => .error q
          | .ok rest => .ok (found ++ rest)

/-- The files of a run. -/
def collect (inputs : List Path) : Except RunError (List Path) :=
  match t.contributions c inputs with
  | .error p => .error (.missingInput p)
  | .ok ps => .ok (Path.distinct [] ps)

/-- What is reported while the files are found. -/
def collectEvents : List Path → List Event
  | [] => []
  | p :: ps =>
      match t.contributed? c p with
      | none => []
      | some found =>
          if t.hasFolder p then
            ⟨.debug, Text.ofNat found.length ++ " candidate file(s) under ".toList ++ p.text, []⟩
              :: collectEvents ps
          else collectEvents ps

end FileTree

end Promisify
