import Promisify.Text

set_option autoImplicit false

/-! # Concrete syntax trees

A tree has a kind, the bytes it covers and its children in source order. A child that its parent
refers to by role carries that role as its `field`. Punctuation has no node of its own, except
the two marks that later passes ask for: `?.` and the keyword `type` of an import.
-/

namespace Promisify

/-- What a node stands for. -/
inductive Kind where
  -- files
  | program | hashBangLine | comment
  -- names and literals
  | identifier | propertyIdentifier | privatePropertyIdentifier | this | super | importCallee
  | literal | number | string | regex | templateString | templateSubstitution
  -- compound expressions
  | object | pair | shorthandProperty | shorthandDefault | spread | methodDefinition | array
  | parenthesized | functionExpression | arrowFunction | classExpression
  | callExpression | memberExpression | subscriptExpression | nonNullExpression
  | newExpression | metaProperty | unaryExpression | updateExpression | awaitExpression
  | binaryExpression | ternaryExpression | assignmentExpression | yieldExpression
  | sequenceExpression | asExpression | satisfiesExpression | typeAssertion
  | instantiationExpression
  | arguments | typeArguments | optionalChain | computedPropertyName
  | jsxElement | jsxText | jsxExpression | jsxAttribute | jsxName
  -- patterns and parameters
  | objectPattern | arrayPattern | restPattern | assignmentPattern | pairPattern
  | formalParameters | parameter | typeParameters | typeParameter
  -- statements
  | statementBlock | expressionStatement | emptyStatement | variableDeclaration
  | variableDeclarator | ifStatement | forStatement | forInStatement | whileStatement
  | doStatement | switchStatement | switchCase | tryStatement | catchClause | withStatement
  | breakStatement | continueStatement | returnStatement | throwStatement
  | debuggerStatement | labeledStatement
  -- declarations
  | functionDeclaration | functionSignature | classDeclaration | classBody | fieldDefinition
  | staticBlock | indexSignature | decorator
  | interfaceDeclaration | typeAlias | enumDeclaration | enumMember | moduleDeclaration
  | ambientDeclaration
  -- modules
  | importStatement | typeKeyword | importClause | namespaceImport | namedImports
  | importSpecifier | importRequire | importAttribute
  | exportStatement | exportClause | exportSpecifier | namespaceExport
  -- types
  | typeMark | typeReference | typeQuery | functionType | objectType | tupleType
  | templateType | compoundType | propertySignature
  deriving DecidableEq, Repr, Inhabited

/-- The role of a node in its parent. -/
inductive Field where
  | function | object | property | arguments | typeArguments | argument
  | source | name | localName
  deriving DecidableEq, Repr

/-- A syntax tree over the bytes `start .. stop` of a text. -/
inductive Node where
  | mk (kind : Kind) (field : Option Field) (start stop : Nat) (children : List Node)
  deriving Repr

namespace Node

instance : Inhabited Node := ⟨mk .program none 0 0 []⟩

/-- What the node stands for. -/
def kind : Node → Kind
  | mk k _ _ _ _ => k

/-- The role the node has in its parent. -/
def field : Node → Option Field
  | mk _ f _ _ _ => f

/-- The first byte of the node. -/
def start : Node → Nat
  | mk _ _ a _ _ => a

/-- The byte after the last one of the node. -/
def stop : Node → Nat
  | mk _ _ _ b _ => b

/-- The children in source order. -/
def children : Node → List Node
  | mk _ _ _ _ cs => cs

/-- The bytes the node covers. -/
def span (n : Node) : Span := ⟨n.start, n.stop⟩

/-- The same tree in another role. -/
def withField (f : Option Field) : Node → Node
  | mk k _ a b cs => mk k f a b cs

/-- A node without children. -/
def leaf (k : Kind) (start stop : Nat) : Node := mk k none start stop []

/-- The first child in the role `f`. -/
def child? (n : Node) (f : Field) : Option Node :=
  n.children.find? fun c => c.field == some f

/-- A mark stands for a single token that is kept in the tree. -/
def isMark (n : Node) : Bool := n.kind == .optionalChain || n.kind == .typeKeyword

/-- The children that are code: neither comments nor marks. -/
def codeParts (n : Node) : List Node :=
  n.children.filter fun c => !(c.kind == .comment) && !c.isMark

/-- Whether a member access or a call is written with `?.`. -/
def isOptional (n : Node) : Bool := n.children.any fun c => c.kind == .optionalChain

mutual

/-- The node and all its descendants, each before its children, in document order. -/
def preorder : Node → List Node
  | mk k f a b cs => mk k f a b cs :: preorderAll cs

/-- The descendants of a list of trees, in document order. -/
def preorderAll : List Node → List Node
  | [] => []
  | n :: ns => preorder n ++ preorderAll ns

end

mutual

/-- The same tree with its bytes counted from `k` bytes further back. -/
def shift (k : Nat) : Node → Node
  | mk kind f a b cs => mk kind f (k + a) (k + b) (shiftAll k cs)

/-- The same trees with their bytes counted from `k` bytes further back. -/
def shiftAll (k : Nat) : List Node → List Node
  | [] => []
  | n :: ns => shift k n :: shiftAll k ns

end

mutual

/-- The tree with a comment added at its place: in the innermost node that covers it. -/
def addComment (c : Span) : Node → Node
  | mk k f a b cs => mk k f a b (addCommentAmong c cs)

/-- The children with a comment added at its place. -/
def addCommentAmong (c : Span) : List Node → List Node
  | [] => [leaf .comment c.start c.stop]
  | n :: ns =>
      if c.within n.span then addComment c n :: ns
      else if c.stop ≤ n.start then leaf .comment c.start c.stop :: n :: ns
      else n :: addCommentAmong c ns

end

/-- The operand of a prefix that the grammar bound tighter than a call.

With type arguments, `await a.f<T>()` and `!a.f<T>()` read as a call of `await a.f` and of
`!a.f`. For such a call this is `a.f`; the prefix applies to the whole call and to all that is
chained after it. -/
def prefixedOperand? (call : Node) : Option Node :=
  if call.kind == .callExpression && (call.child? .typeArguments).isSome then
    (call.child? .function).bind fun f =>
      match f.kind with
      | .awaitExpression => f.codeParts.head?
      | .unaryExpression => f.child? .argument
      | _ => none
  else none

/-- What a call calls: its function, with a misbound prefix taken off. -/
def callee? (call : Node) : Option Node :=
  match call.prefixedOperand? with
  | some operand => some operand
  | none => call.child? .function

end Node

end Promisify
