import Promisify.Syntax.Source
import Promisify.Vocabulary

set_option autoImplicit false

/-! # Sites

A site is a call of `toPromise` or `subscribe` on some receiver. What the call looks like beyond
the name of its callee is decided later.
-/

namespace Promisify

/-- The call a site ends with. -/
inductive Terminal where
  | toPromise
  | subscribe
  deriving DecidableEq, Repr

namespace Terminal

/-- The member that is called. -/
def member : Terminal → Text
  | toPromise => Vocabulary.toPromise
  | subscribe => Vocabulary.subscribe

/-- The terminal with a given member. -/
def ofMember? (t : Text) : Option Terminal :=
  if t = Vocabulary.toPromise then some toPromise
  else if t = Vocabulary.subscribe then some subscribe
  else none

end Terminal

/-- A call of a terminal. -/
structure Site where
  /-- The whole call. -/
  call : Node
  /-- The member access that is called. -/
  callee : Node
  terminal : Terminal
  /-- The first byte of the call proper, after a prefix that the grammar folded into it. -/
  start : Nat

namespace Site

/-- The bytes a replacement covers. -/
def span (s : Site) : Span := ⟨s.start, s.call.stop⟩

/-- The expression the terminal is called on. -/
def receiver? (s : Site) : Option Node := s.callee.child? .object

/-- The type arguments of the call. -/
def typeArguments? (s : Site) : Option Node := s.call.child? .typeArguments

/-- The arguments of the call, in parentheses or as a template. -/
def arguments? (s : Site) : Option Node := s.call.child? .arguments

end Site

namespace Node

/-- The next node down the left edge of a chain of calls and accesses. -/
def leftward? (n : Node) : Option Node :=
  match n.kind with
  | .callExpression => n.child? .function
  | .memberExpression | .subscriptExpression => n.child? .object
  | .nonNullExpression => n.codeParts.head?
  | _ => none

mutual

/-- The number of nodes of a tree. -/
def weight : Node → Nat
  | mk _ _ _ _ cs => weightAll cs + 1

/-- The number of nodes of a list of trees. -/
def weightAll : List Node → Nat
  | [] => 0
  | n :: ns => weight n + weightAll ns

end

/-- Where the operand starts of a prefix that was folded into the left edge of the chain, if
there is one at most `fuel` steps down. -/
def foldedOperand? : Nat → Node → Option Nat
  | 0, _ => none
  | fuel + 1, n =>
      match n.prefixedOperand? with
      | some operand => some operand.start
      | none =>
          match n.leftward? with
          | some next => if next.start = n.start then foldedOperand? fuel next else none
          | none => none

/-- Where a call starts once a prefix folded into its chain is left out: in
`await a.f<T>().pipe(…).toPromise()` the chain starts at `a`. -/
def callStart (call : Node) : Nat := (foldedOperand? call.weight call).getD call.start

end Node

namespace SourceFile

/-- The site at a node, if it is one. -/
def siteAt? (f : SourceFile) (n : Node) : Option Site :=
  if n.kind = .callExpression then do
    let callee ← n.callee?
    guard (callee.kind = .memberExpression)
    let property ← callee.child? .property
    guard (property.kind = .propertyIdentifier)
    let terminal ← Terminal.ofMember? (f.textOf property)
    return ⟨n, callee, terminal, n.callStart⟩
  else none

/-- The sites of a file in document order. -/
def sites (f : SourceFile) : List Site := f.root.preorder.filterMap f.siteAt?

end SourceFile

end Promisify
