import Promisify.CommandLine

set_option autoImplicit false

/-! # The command

Takes a picture of the files on disk that a run can look at, runs on the picture, and writes the
files that changed.
-/

namespace Promisify

/-- The names that lead from the root to the folder the command is in. -/
def currentLocation : IO Location := do
  return (Path.pieces (toString (← IO.currentDir)).toList).filter fun p => !p.isEmpty

/-- The path of a location on disk. -/
def diskPath (l : Location) : String := String.ofList ('/' :: Text.join ['/'] l)

/-- Whether a file on disk can be opened. -/
def opens (l : Location) (mode : IO.FS.Mode) : IO Bool := do
  try
    let _ ← IO.FS.Handle.mk (diskPath l) mode
    return true
  catch _ => return false

/-- The tree with the file at a location on disk. -/
def loadFile (t : FileTree) (l : Location) : IO FileTree := do
  let t := if ← opens l .append then t else { t with unwritable := l :: t.unwritable }
  if ← opens l .read then
    let bytes ← IO.FS.readBinFile (diskPath l)
    match String.fromUTF8? bytes with
    | some s => return t.put l (.text s.toList)
    | none => return t.put l (.binary bytes.toList)
  else return { t.put l (.binary []) with unreadable := l :: t.unreadable }

/-- The tree with the files below a folder on disk that a run picks up. -/
partial def loadFolder (t : FileTree) (c : Config) (l : Location) : IO FileTree := do
  let mut t := t.makeFolder l
  let root ← IO.currentDir
  for entry in ← (root / diskPath l).readDir do
    let name := entry.fileName.toList
    let inner := l ++ [name]
    if ← entry.path.isDir then
      if !c.skips name then
        t ← loadFolder t c inner
    else if c.picks ⟨name⟩ then
      t ← loadFile t inner
  return t

/-- The tree with the folders that the pieces of a path pass through, and the location they lead
to. -/
def loadPieces (t : FileTree) (l : Location) : List Text → IO (FileTree × Location)
  | [] => return (t, l)
  | p :: ps => do
      let root ← IO.currentDir
      let t := if ← (root / diskPath l).isDir then t.makeFolder l else t
      match p with
      | [] => loadPieces t l ps
      | ['.'] => loadPieces t l ps
      | ['.', '.'] => loadPieces t l.dropLast ps
      | name => loadPieces t (l ++ [name]) ps

/-- The tree with what a path leads to on disk. -/
def loadPath (t : FileTree) (c : Config) (p : Path) : IO FileTree := do
  let start := if p.isAbsolute then [] else t.here
  let (t, l) ← loadPieces t start (Path.pieces p.text)
  let root ← IO.currentDir
  let target := root / diskPath l
  if ← target.isDir then loadFolder t c l
  else if ← target.pathExists then loadFile t l
  else return t

/-- The tree of what a run with some options can look at. -/
def loadTree (o : Options) : IO FileTree := do
  let mut t := { FileTree.empty with here := ← currentLocation }
  if let some p := o.config then
    t ← loadPath t { Config.initial with extensions := [] } p
  match o.configuration t with
  | .error _ => return t
  | .ok c =>
      for p in o.paths do
        t ← loadPath t c p
      return t

/-- Writes the files of a tree that differ from another one. -/
def saveTree (before after : FileTree) : IO Unit := do
  for (l, content) in after.files do
    if before.file? l ≠ some content then
      match content with
      | .text t => IO.FS.writeFile (diskPath l) (String.ofList t)
      | .binary bytes => IO.FS.writeBinFile (diskPath l) ⟨bytes.toArray⟩

/-- Shows what a command leaves and gives its exit code. -/
def showExit (e : Exit) : IO UInt32 := do
  IO.print (String.ofList e.output)
  IO.eprint (String.ofList e.errors)
  return e.code.toUInt32

end Promisify

open Promisify in
/-- Runs the command with its arguments. -/
def main (args : List String) : IO UInt32 := do
  match Invocation.ofArgs (args.map String.toList) with
  | .run o =>
      let start ← IO.monoMsNow
      let before ← loadTree o
      let done := o.run before none
      saveTree before done.tree
      for e in o.shown done.events do
        IO.eprint (String.ofList e.line)
      let stop ← IO.monoMsNow
      showExit (o.exit (done.outcome.map fun r => { r with elapsedMs := stop - start }))
  | i => showExit (i.execute .empty none 0).1
