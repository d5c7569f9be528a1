import Promisify.Edit
import Promisify.Event
import Promisify.Import
import Promisify.NameSet

set_option autoImplicit false

/-! # Making the imports fit

After the sites are replaced the file may lack imports of the helpers and may import operators
that nothing calls any more. Both are put right by edits of the import statements.
-/

namespace Promisify

/-! ## The style of a file -/

/-- Whether a character is white space. -/
def Text.isWhite (c : Char) : Bool :=
  let n := c.toNat
  (9 ≤ n && n ≤ 13) || n == 32 || n == 0x85 || n == 0xA0 || n == 0x1680
    || (0x2000 ≤ n && n ≤ 0x200A) || n == 0x2028 || n == 0x2029 || n == 0x202F
    || n == 0x205F || n == 0x3000

/-- The text without the white space at its end. -/
def Text.trimEnd (t : Text) : Text := (t.reverse.dropWhile Text.isWhite).reverse

/-- The line break of a text: that of its first line. `previous` is the character before. -/
def Text.lineBreakFrom (previous : Option Char) : Text → Text
  | [] => ['\n']
  | c :: cs =>
      if c = '\n' then if previous = some '\r' then ['\r', '\n'] else ['\n']
      else lineBreakFrom (some c) cs

/-- The line break of a text: that of its first line. -/
def Text.lineBreak (t : Text) : Text := t.lineBreakFrom none

/-- How a file writes its imports. -/
structure ImportLayout where
  quote : Char
  semicolon : Bool
  lineBreak : Text
  deriving DecidableEq, Repr

/-- The style of the first import; double quotes and a semicolon when there is none. -/
def SourceFile.importLayout (f : SourceFile) : ImportLayout :=
  match f.imports with
  | [] => ⟨'"', true, f.text.lineBreak⟩
  | first :: _ =>
      let quote := match f.textOf first.source with
        | '\'' :: _ => '\''
        | _ => '"'
      ⟨quote, (f.textOf first.node).trimEnd.endsWith ';', f.text.lineBreak⟩

/-- An import of `names` from `moduleName`, with its line break. -/
def ImportLayout.statement (s : ImportLayout) (moduleName : Text) (names : List Text) : Text :=
  "import \x7b ".toList ++ Text.join ", ".toList names ++ " \x7d from ".toList
    ++ [s.quote] ++ moduleName ++ [s.quote] ++ (if s.semicolon then [';'] else []) ++ s.lineBreak

/-! ## Adding names -/

/-- Counts of names added, names removed and imports removed. -/
structure ImportCounts where
  added : Nat
  pruned : Nat
  declarationsRemoved : Nat
  deriving DecidableEq, Repr, Inhabited

/-- Edits of the imports, with what they amount to. -/
structure ImportChange where
  edits : Edits
  counts : ImportCounts
  events : List Event

namespace SourceFile

variable (f : SourceFile)

/-- The imports from a module. -/
def importsFrom (moduleName : Text) : List ImportDecl :=
  f.imports.filter fun d => d.moduleName == moduleName

/-- The names that no import from the module of the helpers provides. -/
def missing (required : NameSet) : List Text :=
  required.names.filter fun n => !((f.importsFrom Vocabulary.streams).any fun d => d.imports n)

/-- The import that missing names are added to: the first one of values that has braces. -/
def target? : Option (ImportDecl × Node) :=
  (f.importsFrom Vocabulary.streams).findSome? fun d =>
    if d.typeOnly then none else d.named.map fun braces => (d, braces)

/-- The edit that adds names to an import. -/
def extension (d : ImportDecl) (braces : Node) (names : List Text) : Edit :=
  match d.names.getLast? with
  | some last => .insertion last.node.stop (names.flatMap fun n => ", ".toList ++ n)
  | none =>
      ⟨braces.span, "\x7b ".toList ++ Text.join ", ".toList names ++ " \x7d".toList⟩

/-- Where a new import goes: before the first import of operators, else before the first
statement. -/
def anchor : Nat :=
  match f.importsFrom Vocabulary.operators with
  | d :: _ => d.node.start
  | [] => f.firstStatement?.getD 0

/-- The edits that make the required names available. -/
def additions (required : NameSet) : ImportChange :=
  match f.missing required with
  | [] => ⟨[], ⟨0, 0, 0⟩, []⟩
  | n :: ns =>
      let names := n :: ns
      let counts : ImportCounts := ⟨names.length, 0, 0⟩
      match f.target? with
      | some (d, braces) =>
          ⟨[extension d braces names], counts, [⟨.debug, "adding ".toList
            ++ Text.quotedList names ++ " to existing rxjs import".toList, []⟩]⟩
      | none =>
          ⟨[.insertion f.anchor (f.importLayout.statement Vocabulary.streams names)], counts,
            [⟨.debug, "inserting new rxjs import for ".toList ++ Text.quotedList names,
              [("anchor".toList, Text.ofNat f.anchor)]⟩]⟩

/-! ## Pruning names -/

/-- The limiting operators that the file calls nowhere. -/
def unusedOperators : List Text :=
  Vocabulary.limitingOperators.filter fun op => f.callCount op == 0

/-- The offset past the line break at `n`, if there is one. -/
def pastLineBreak (n : Nat) : Nat :=
  match f.text.splitAt? n with
  | some (_, '\r' :: '\n' :: _) => n + 2
  | some (_, '\n' :: _) => n + 1
  | _ => n

/-- The deletions that remove names from braces. `previous` is the name before the list, `kept`
whether a name before it is kept: then a removed name takes the separator before it, else the
one after it. -/
def cutNames (unused : List Text) (previous : Option ImportedName) (kept : Bool) :
    List ImportedName → List Edit
  | [] => []
  | n :: ns =>
      if unused.contains n.imported then
        let cut : List Edit :=
          if kept then
            match previous with
            | some p => [.deletion ⟨p.node.stop, n.node.stop⟩]
            | none => []
          else
            match ns with
            | next :: _ => [.deletion ⟨n.node.start, next.node.start⟩]
            | [] => []
        cut ++ cutNames unused (some n) kept ns
      else cutNames unused (some n) true ns

/-- The edits that remove unused operators from one import. An import left with nothing is
deleted with its line break; one that binds another name keeps that name. -/
def pruneDecl (unused : List Text) (d : ImportDecl) : ImportChange :=
  let removed := d.names.filter fun n => unused.contains n.imported
  let kept := d.names.filter fun n => !unused.contains n.imported
  match d.named with
  | none => ⟨[], ⟨0, 0, 0⟩, []⟩
  | some braces =>
      if removed.isEmpty then ⟨[], ⟨0, 0, 0⟩, []⟩
      else
        let events : List Event := [⟨.debug, "pruning ".toList
          ++ Text.quotedList (removed.map ImportedName.imported)
          ++ " from rxjs/operators import".toList, []⟩]
        if !kept.isEmpty then
          ⟨cutNames unused none false d.names, ⟨0, removed.length, 0⟩, events⟩
        else
          match d.otherBinding with
          | some binding =>
              ⟨[.deletion ⟨binding.stop, braces.stop⟩], ⟨0, removed.length, 0⟩, events⟩
          | none =>
              ⟨[.deletion ⟨d.node.start, f.pastLineBreak d.node.stop⟩], ⟨0, removed.length, 1⟩, events⟩

/-- The edits that remove unused operators from all imports of operators. -/
def prunings : List ImportChange :=
  (f.importsFrom Vocabulary.operators).map (f.pruneDecl f.unusedOperators)

/-- The edits that make the imports fit the file, given the names it requires. -/
def importChange (required : NameSet) : ImportChange :=
  let parts := f.additions required :: f.prunings
  { edits := parts.flatMap ImportChange.edits
    counts := parts.foldl (fun c p => ⟨c.added + p.counts.added, c.pruned + p.counts.pruned,
      c.declarationsRemoved + p.counts.declarationsRemoved⟩) ⟨0, 0, 0⟩
    events := parts.flatMap ImportChange.events }

end SourceFile

end Promisify
