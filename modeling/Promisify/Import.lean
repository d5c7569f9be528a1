import Promisify.Syntax.Source
import Promisify.Vocabulary

set_option autoImplicit false

/-! # Imports of a file

An import statement as far as the migration looks at it: the module, the names in its braces with
the names they go by in the file, and whether it imports anything besides.
-/

namespace Promisify

/-- One name in the braces of an import. -/
structure ImportedName where
  node : Node
  /-- The name in the module. -/
  imported : Text
  /-- The name in the file. -/
  localName : Text

/-- An import from a module. -/
structure ImportDecl where
  node : Node
  /-- The string that names the module. -/
  source : Node
  /-- The module. -/
  moduleName : Text
  /-- Whether only types are imported. -/
  typeOnly : Bool
  /-- The name bound to the default or to the whole module. -/
  otherBinding : Option Node
  /-- The names in braces, with the braces. -/
  named : Option Node
  /-- The names in braces, in order. -/
  names : List ImportedName

/-- Whether a name of the module is imported. -/
def ImportDecl.imports (d : ImportDecl) (name : Text) : Bool :=
  d.names.any fun n => n.imported == name

/-- A text without the quotes around it, if there are any. -/
def Text.withoutQuotes (t : Text) : Text :=
  match t with
  | q :: rest =>
      if (q == '"' || q == '\'') && rest.getLast? == some q then rest.dropLast else t
  | [] => t

namespace SourceFile

variable (f : SourceFile)

/-- The name at a node of an import's braces. -/
def importedName? (n : Node) : Option ImportedName := do
  guard (n.kind = .importSpecifier)
  let name ← n.child? .name
  let imported := (f.textOf name).withoutQuotes
  let localName := match n.child? .localName with
    | some given => f.textOf given
    | none => imported
  return ⟨n, imported, localName⟩

/-- The last child of one of the kinds. -/
def lastOf (kinds : List Kind) (n : Node) : Option Node :=
  (n.children.filter fun c => kinds.contains c.kind).getLast?

/-- The import at a node; an import that names no module this way is none. -/
def importDecl? (n : Node) : Option ImportDecl := do
  guard (n.kind = .importStatement)
  let source ← n.child? .source
  let clause := lastOf [.importClause] n
  let named := clause.bind (lastOf [.namedImports])
  let names := match named with
    | some braces => braces.children.filterMap f.importedName?
    | none => []
  return {
    node := n
    source := source
    moduleName := (f.textOf source).withoutQuotes
    typeOnly := n.children.any fun c => c.kind == .typeKeyword
    otherBinding := clause.bind (lastOf [.identifier, .namespaceImport])
    named := named
    names := names }

/-- The imports of a file, in order. -/
def imports : List ImportDecl := f.root.children.filterMap f.importDecl?

/-- Whether a node is a call of the bare name `name`. -/
def callsName (name : Text) (n : Node) : Bool :=
  n.kind == .callExpression && (match n.child? .function with
    | some callee => callee.kind == .identifier && f.textOf callee == name
    | none => false)

/-- The number of calls of the bare name `name`. -/
def callCount (name : Text) : Nat := (f.root.preorder.filter (f.callsName name)).length

/-- Where the first statement starts. -/
def firstStatement? : Option Nat :=
  (f.root.children.find? fun n => !(n.kind == .comment || n.kind == .hashBangLine)).map
    Node.start

end SourceFile

end Promisify
