import Promisify.Path

set_option autoImplicit false

/-! # Trees of files

The files a run can see, as a table from locations to contents. A location is the list of names
that leads to a file from the root; a folder is there when a file or a named folder lies in it. A
path is followed name by name, from the root or from the folder the run is in. A file may refuse to
be read or to be written.
-/

namespace Promisify

/-- The names that lead to a file or folder from the root. -/
abbrev Location := List Text

/-- What a file holds. -/
inductive Content where
  | text (t : Text)
  /-- Bytes that are not UTF-8. -/
  | binary (bytes : List UInt8)
  deriving DecidableEq, Repr

/-- Why something is refused to a run: mostly why a file cannot be read or written. -/
inductive Fault where
  | notFound
  /-- A name before the last one is that of a file. -/
  | notFolder
  | isFolder
  /-- The bytes are not UTF-8. -/
  | notText
  /-- The file refuses to be read or written. -/
  | denied
  /-- No more threads can be started. -/
  | exhausted
  deriving DecidableEq, Repr

/-- The text shown for a fault. -/
def Fault.message : Fault → Text
  | notFound => "No such file or directory (os error 2)".toList
  | notFolder => "Not a directory (os error 20)".toList
  | isFolder => "Is a directory (os error 21)".toList
  | notText => "stream did not contain valid UTF-8".toList
  | denied => "Permission denied (os error 13)".toList
  | exhausted => "Resource temporarily unavailable (os error 11)".toList

/-- Files and folders, and the folder that paths start from. -/
structure FileTree where
  files : List (Location × Content)
  folders : List Location
  here : Location
  /-- Where files cannot be read. -/
  unreadable : List Location := []
  /-- Where files cannot be written. -/
  unwritable : List Location := []
  deriving DecidableEq, Repr

namespace FileTree

/-- A tree with nothing in it. -/
def empty : FileTree where
  files := []
  folders := []
  here := []

/-- The content of the file at a location. -/
def file? (t : FileTree) (l : Location) : Option Content := t.files.lookup l

/-- Whether there is a folder at a location. -/
def isFolder (t : FileTree) (l : Location) : Bool :=
  l.isEmpty || l.isPrefixOf t.here || t.folders.any l.isPrefixOf
    || t.files.any fun f => l.isPrefixOf f.1.dropLast

/-- The table with the entry of one location replaced, or added when there is none. -/
def putFile (l : Location) (c : Content) : List (Location × Content) → List (Location × Content)
  | [] => [(l, c)]
  | f :: fs => if f.1 = l then (l, c) :: fs else f :: putFile l c fs

/-- The tree with a file written. -/
def put (t : FileTree) (l : Location) (c : Content) : FileTree :=
  { t with files := putFile l c t.files }

/-- The tree with a folder made. -/
def makeFolder (t : FileTree) (l : Location) : FileTree := { t with folders := t.folders ++ [l] }

/-- Follows the pieces of a path from a location. Every piece, also an empty one at the end,
needs a folder to be looked up in. -/
def follow (t : FileTree) (l : Location) : List Text → Except Fault Location
  | [] => .ok l
  | p :: ps =>
      if t.isFolder l then
        match p with
        | [] => t.follow l ps
        | ['.'] => t.follow l ps
        | ['.', '.'] => t.follow l.dropLast ps
        | name => t.follow (l ++ [name]) ps
      else if (t.file? l).isSome then .error .notFolder
      else .error .notFound

/-- The location a path leads to; there may be nothing at it. -/
def locate (t : FileTree) (p : Path) : Except Fault Location :=
  match p.text with
  | [] => .error .notFound
  | '/' :: rest => t.follow [] (Path.pieces rest)
  | text => t.follow t.here (Path.pieces text)

/-- Whether a path leads to a folder. -/
def hasFolder (t : FileTree) (p : Path) : Bool :=
  match t.locate p with
  | .ok l => t.isFolder l
  | .error _ => false

/-- The location and the text of the file a path leads to. -/
def read (t : FileTree) (p : Path) : Except Fault (Location × Text) :=
  match t.locate p with
  | .error e => .error e
  | .ok l =>
      match t.file? l with
      | none => if t.isFolder l then .error .isFolder else .error .notFound
      | some content =>
          if t.unreadable.contains l then .error .denied
          else
            match content with
            | .text s => .ok (l, s)
            | .binary _ => .error .notText

/-- Gives the file at a location a new text. -/
def write (t : FileTree) (l : Location) (text : Text) : Except Fault FileTree :=
  if t.unwritable.contains l then .error .denied else .ok (t.put l (.text text))

/-- What is left of a location below another one. -/
def below? : Location → Location → Option Location
  | [], l => some l
  | _ :: _, [] => none
  | a :: as, b :: bs => if a = b then below? as bs else none

/-- The names that lead from a folder to each file in it. -/
def filesBelow (t : FileTree) (l : Location) : List Location :=
  t.files.filterMap fun f => below? l f.1

end FileTree

end Promisify
