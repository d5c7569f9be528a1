import Promisify.Numeral
import Promisify.Site

set_option autoImplicit false

/-! # What a site's receiver looks like

The receiver of a site is a pipeline `source.pipe(op, …)`, or some other expression that is taken
as it stands, or the site is left alone. In a pipeline the first operator that limits the stream
to one value is found; removing it leaves the rest of the pipeline as written.
-/

namespace Promisify

/-- Why a site is left alone. -/
inductive Obstacle where
  | optionalChain
  | taggedTemplate
  | superReceiver
  | missingNode
  deriving DecidableEq, Repr

/-- The reason in words. -/
def Obstacle.reason : Obstacle → Text
  | optionalChain => "optional chaining".toList
  | taggedTemplate => "tagged template call".toList
  | superReceiver => "super receiver".toList
  | missingNode => "missing receiver or arguments".toList

/-- The operators that limit a stream to one value. -/
inductive Limit where
  | takeOne
  | first
  deriving DecidableEq, Repr

/-- The first limiting operator of a pipeline. -/
structure LimitingOperator where
  index : Nat
  node : Node
  limit : Limit

/-- A call of `pipe`. -/
structure Pipeline where
  /-- The whole call. -/
  call : Node
  /-- The stream that is piped. -/
  source : Node
  /-- The operators in order. -/
  operators : List Node
  limiting : Option LimitingOperator

/-- What removing the limiting operator does to a pipeline. -/
inductive Trim where
  /-- There is none to remove. -/
  | unchanged
  /-- It is the only operator: the source is left. -/
  | collapse
  /-- These bytes go: the operator and the separator next to it. -/
  | cut (span : Span)
  deriving DecidableEq, Repr

/-- How to remove the limiting operator. The separator before it goes with it; the first operator
takes the separator after it. -/
def Pipeline.trim (p : Pipeline) : Trim :=
  match p.limiting with
  | none => .unchanged
  | some l =>
      if p.operators.length = 1 then .collapse
      else if l.index = 0 then
        match p.operators[1]? with
        | some next => .cut ⟨l.node.start, next.start⟩
        | none => .collapse
      else
        match p.operators[l.index - 1]? with
        | some previous => .cut ⟨previous.stop, l.node.stop⟩
        | none => .collapse

/-- What a site looks like. -/
inductive Shape where
  | pipeline (p : Pipeline)
  | chain (receiver : Node)
  | unrecognized (o : Obstacle)

namespace SourceFile

variable (f : SourceFile)

/-- Which limiting operator a node is: `first` with any arguments, or `take` with a single
argument that is the literal one. -/
def limit? (operator : Node) : Option Limit := do
  guard (operator.kind = .callExpression)
  let function ← operator.child? .function
  guard (function.kind = .identifier)
  let arguments ← operator.child? .arguments
  guard (arguments.kind = .arguments)
  let name := f.textOf function
  if name = Vocabulary.first then some .first
  else if name = Vocabulary.take then
    match arguments.codeParts with
    | [count] =>
        if count.kind = .number && Numeral.value? (f.textOf count) = some Double.one
        then some .takeOne else none
    | _ => none
  else none

/-- The first limiting operator of a list whose first operator has the index `i`. -/
def firstLimit? (i : Nat) : List Node → Option LimitingOperator
  | [] => none
  | n :: ns =>
      match f.limit? n with
      | some l => some ⟨i, n, l⟩
      | none => firstLimit? (i + 1) ns

/-- The pipeline a receiver is, if it is one. -/
def pipeline? (receiver : Node) : Option Pipeline := do
  guard (receiver.kind = .callExpression && !receiver.isOptional)
  let callee ← receiver.callee?
  guard (callee.kind = .memberExpression && !callee.isOptional)
  let property ← callee.child? .property
  guard (f.textOf property = Vocabulary.pipe)
  let source ← callee.child? .object
  let arguments ← receiver.child? .arguments
  guard (arguments.kind = .arguments)
  let operators := arguments.codeParts
  return ⟨receiver, source, operators, f.firstLimit? 0 operators⟩

/-- What a site looks like. -/
def shape (s : Site) : Shape :=
  if s.callee.isOptional || s.call.isOptional then .unrecognized .optionalChain
  else
    match s.arguments? with
    | none => .unrecognized .missingNode
    | some arguments =>
        if arguments.kind ≠ .arguments then .unrecognized .taggedTemplate
        else
          match s.receiver? with
          | none => .unrecognized .missingNode
          | some receiver =>
              if receiver.kind = .super then .unrecognized .superReceiver
              else
                match f.pipeline? receiver with
                | some p => .pipeline p
                | none => .chain receiver

end SourceFile

end Promisify
