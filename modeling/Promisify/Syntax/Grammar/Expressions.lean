import Promisify.Syntax.Grammar.Members

set_option autoImplicit false

/-! # Expressions

An expression is read from left to right: first its head (`head`), then whatever continues it
(`tail`), as far as its `Operand` allows. Three points need care.

* A call with type arguments competes with the operator `<`, so operators that bind tighter than
  `<` take their operand first and the call forms around them.
* A postfix `!`, `as` and `satisfies` bind weaker than every prefix and binary operator.
* An assignment takes the nearest name, member or pattern on its left, whatever stands before.
-/

namespace Promisify

namespace Grammar

open Lexer (Border)
open Promisify.Parser

variable (g : Grammar)

/-- The level of a binary operator. -/
def binaryLevel? : Token → Option Level
  | .punct .questionQuestion => some .ternary
  | .punct .barBar => some .logicalOr
  | .punct .ampAmp => some .logicalAnd
  | .punct .bar => some .bitOr
  | .punct .caret => some .bitXor
  | .punct .amp => some .bitAnd
  | .punct .eq | .punct .ne | .punct .eqq | .punct .nee => some .equality
  | .punct .lt | .punct .gt | .punct .le | .punct .ge | .word .kIn | .word .kInstanceof =>
      some .relation
  | .punct .shl | .punct .shr | .punct .ushr => some .shift
  | .punct .plus | .punct .minus => some .additive
  | .punct .star | .punct .slash | .punct .percent => some .multiplicative
  | .punct .starStar => some .power
  | _ => none

/-- Whether a token is an assignment operator other than `=`. -/
def isUpdateOperator : Token → Bool
  | .punct p => [Punct.plusAssign, .minusAssign, .starAssign, .slashAssign, .percentAssign,
      .starStarAssign, .shlAssign, .shrAssign, .ushrAssign, .ampAssign, .barAssign,
      .caretAssign, .ampAmpAssign, .barBarAssign, .questionQuestionAssign].contains p
  | _ => false

/-- Whether an expression can be assigned to. -/
def isTarget (n : Node) : Bool :=
  [Kind.identifier, .memberExpression, .subscriptExpression, .nonNullExpression,
    .parenthesized, .object, .array].contains n.kind

/-- Whether a token can start an expression. -/
def startsExpression : Token → Bool
  | .word .kIn | .word .kInstanceof => false
  | .word _ | .privateName | .number | .string => true
  | .punct p => [Punct.lparen, .lbracket, .lbrace, .lt, .plus, .minus, .bang, .tilde, .plusPlus,
      .minusMinus, .slash, .slashAssign, .backquote, .atSign].contains p
  | _ => false

/-! ## Heads -/

/-- A prefix operator with its operand. -/
def unary (c : Operand) : Parser := look fun s =>
  node .unaryExpression (all [token s.tok, role .argument (g.expr c.afterSign)])

/-- `await` with its operand. A postfix `!` belongs to the operand. -/
def awaiting (c : Operand) : Parser :=
  node .awaitExpression (all
    [word .kAwait, g.expr { c.afterSign with loose := true }])

/-- `++` or `--` before its operand. -/
def leadingUpdate (c : Operand) : Parser := look fun s =>
  node .updateExpression (all [token s.tok, role .argument (g.expr c.afterSign)])

/-- `yield`, with an operand if there is one. -/
def yielding (c : Operand) : Parser :=
  node .yieldExpression (andThen (word .kYield) (look fun s =>
    if s.tok == .punct .star then andThen (punct .star) (g.expr c.rest)
    else if startsExpression s.tok && !atLineEnd c.border s then g.expr c.rest
    else pass []))

/-- The body of an arrow function: statements in braces, or an expression. -/
def arrowBody (c : Operand) : Parser := look fun s =>
  let value := g.expr c.rest
  if s.tok == .punct .lbrace then orElse g.block value else value

/-- The head of an arrow function with its parameters in parentheses, up to the arrow. -/
def arrowHead (c : Operand) : Parser :=
  let result := node .typeMark (andThen (punct .colon) (g.returnType .inner))
  all [opt g.typeParameters, g.parameters, if c.annotated then opt result else pass [],
    punct .arrow]

/-- An arrow function if its head can be read, else `other`. -/
def arrowOr (c : Operand) (head other : Parser) : Parser := fun s =>
  match head s with
  | .ok ns s' =>
      match g.arrowBody c s' with
      | .ok ms s'' => .ok [.mk .arrowFunction none s.start s''.prevStop (ns ++ ms)] s''
      | .stuck far => .stuck far
  | .stuck far => other { s with far := far }

/-- An arrow function whose only parameter is a name, up to the arrow. -/
def nameHead : Parser := andThen (name .identifier) (punct .arrow)

/-- An expression that starts with the word `async`. -/
def asyncHead (c : Operand) : Parser := look fun s =>
  match s.advance.tok with
  | .word .kFunction => g.functionExpression
  | .punct .arrow => g.arrowOr c nameHead fail
  | .word _ => g.arrowOr c (andThen (word .kAsync) nameHead) (leaf .identifier)
  | .punct .lparen | .punct .lt =>
      g.arrowOr c (andThen (word .kAsync) (g.arrowHead c)) (leaf .identifier)
  | _ => leaf .identifier

/-- An expression in parentheses. -/
def parenthesized : Parser :=
  node .parenthesized (all
    [punct .lparen, g.sequence .whole, opt (g.typeMark .inner), punct .rparen])

/-- A regular expression. -/
def regex : Parser := fun s =>
  match Lexer.scanRegex? s.here with
  | some (taken, rest) =>
      .ok [.leaf .regex s.start (s.start + Text.size taken)] (s.retake taken rest)
  | none => .stuck (s.blocked false)

/-- A type assertion in angle brackets. -/
def assertion (c : Operand) : Parser :=
  node .typeAssertion (all
    [g.typeArguments, g.expr { c with level := .unary, generic := true, loose := false }])

/-- An expression that starts with `<`. -/
def angleHead (c : Operand) : Parser :=
  g.arrowOr c (g.arrowHead c) (match g.dialect with
    | .typeScript => g.assertion c
    | .tsx => g.read .element)

/-- The word `import` as a callee, or `import.meta`. -/
def importHead : Parser := look fun s =>
  match s.advance.tok with
  | .punct .dot => node .metaProperty (all
      [word .kImport, punct .dot, name .propertyIdentifier])
  | .punct .lparen => leaf .importCallee
  | _ => fail

/-- Expressions that start with no operator. -/
def primary (c : Operand) : Parser := look fun s =>
  match s.tok with
  | .word .kThis => leaf .this
  | .word .kSuper => leaf .super
  | .word .kTrue | .word .kFalse | .word .kNull | .word .kUndefined => leaf .literal
  | .word .kFunction => g.functionExpression
  | .word .kClass => g.classRule .classExpression
  | .word .kImport => importHead
  | .word .kAsync => g.asyncHead c
  | .word _ => g.arrowOr c nameHead (leaf .identifier)
  | .privateName =>
      if s.advance.tok == .word .kIn then leaf .privatePropertyIdentifier else fail
  | .number => leaf .number
  | .string => leaf .string
  | .punct .lparen => g.arrowOr c (g.arrowHead c) g.parenthesized
  | .punct .lbracket => node .array
      (all [punct .lbracket, commaHoles g.argument g.fuel, punct .rbracket])
  | .punct .lbrace => g.object
  | .punct .backquote => g.templateString
  | .punct .slash | .punct .slashAssign => regex
  | .punct .lt => g.angleHead c
  | .punct .atSign => g.classRule .classExpression
  | _ => fail

/-! ## What continues an expression -/

/-- An index in brackets. -/
def subscript (n : Node) : Parser :=
  extend .subscriptExpression (n.withField (some .object))
    (all [punct .lbracket, g.sequence .whole, punct .rbracket])

/-- A template applied to an expression. -/
def taggedTemplate (n : Node) : Parser :=
  extend .callExpression (n.withField (some .function)) (role .arguments g.templateString)

/-- A member, an index or a call after `?.`. -/
def optionalAccess (n : Node) : Parser := look fun s =>
  let mark := tokenAs .optionalChain (.punct .questionDot)
  match s.advance.tok with
  | .punct .lparen => extend .callExpression (n.withField (some .function))
      (all [mark, role .arguments g.arguments])
  | .punct .lt => extend .callExpression (n.withField (some .function))
      (all [mark, role .typeArguments g.typeArguments, role .arguments g.arguments])
  | .punct .lbracket => extend .subscriptExpression (n.withField (some .object))
      (all [mark, punct .lbracket, g.sequence .whole, punct .rbracket])
  | _ => extend .memberExpression (n.withField (some .object))
      (all [mark, role .property property])

/-- Members, indices and templates after what `new` constructs. -/
def constructorTail : Nat → Node → Parser
  | 0, n => pass [n]
  | fuel + 1, n => look fun s =>
      match s.tok with
      | .punct .dot => withNode (memberAccess n) (constructorTail fuel)
      | .punct .lbracket => withNode (g.subscript n) (constructorTail fuel)
      | .punct .backquote => withNode (g.taggedTemplate n) (constructorTail fuel)
      | .punct .questionDot =>
          match s.advance.tok with
          | .punct .lparen | .punct .lt => pass [n]
          | _ => withNode (g.optionalAccess n) (constructorTail fuel)
      | _ => pass [n]

/-- Whether a token can start an expression that starts with no operator. -/
def startsPrimary : Token → Bool
  | .word _ | .number | .string => true
  | .punct p => [Punct.lparen, .lbracket, .lbrace, .slash, .slashAssign, .backquote,
      .atSign].contains p
  | _ => false

/-- `new` with what it constructs; a name when it constructs nothing. Type arguments are read
only where they cannot be operands of `<` and `>`. -/
def construction (c : Operand) : Parser := look fun s =>
  match s.advance.tok with
  | .punct .dot => node .metaProperty (all [word .kNew, punct .dot, name .propertyIdentifier])
  | next =>
      if !startsPrimary next then leaf .identifier
      else
      let target := g.primary { c with border := .inner }
      let types : Parser := fun s =>
        match g.typeArguments s with
        | .ok ns s' =>
            if s'.tok == .punct .lparen || !startsExpression s'.tok then .ok ns s'
            else .ok [] { s with far := s'.far }
        | .stuck far => .ok [] { s with far := far }
      node .newExpression (all
        [word .kNew, withNode target (g.constructorTail g.fuel),
         look fun s => if s.tok == .punct .lt then types else pass [],
         look fun s => if s.tok == .punct .lparen then role .arguments g.arguments else pass []])

/-- The head of an expression: prefix operators and what starts with none. -/
def head (c : Operand) : Parser := look fun s =>
  match s.tok with
  | .punct .bang | .punct .tilde | .punct .plus | .punct .minus
  | .word .kTypeof | .word .kVoid | .word .kDelete => g.unary c
  | .punct .plusPlus | .punct .minusMinus => g.leadingUpdate c
  | .word .kAwait => g.awaiting c
  | .word .kYield => g.yielding c
  | .word .kNew => g.construction c
  | _ => g.primary c

/-- The two branches of a conditional expression. Parameters of an arrow function in the first
branch have a return type only if a colon is left for the second branch. -/
def branches (c : Operand) : Parser :=
  let rest : Parser := andThen (punct .colon) (g.expr { c.rest with level := .ternary })
  andThen (punct .question) (fun s =>
    let first (a : Bool) : Parser := g.expr { Operand.whole with annotated := a }
    match first true s with
    | .ok ns s' =>
        if s'.tok == .punct .colon then andThen (pass ns) rest s'
        else andThen (first false) rest { s with far := s'.blocked false }
    | .stuck far => .stuck far)

/-- Whether a token can follow what a class extends. -/
def followsHeritage : Token → Bool
  | .punct .lbrace | .word .kImplements => true
  | _ => false

/-- Continues `n` at `<`. With type arguments and arguments it is called; with type arguments
before a token that starts no expression it is instantiated; else `<` is an operator, which
`binary` reads. Type arguments of what a class extends are left to the class. -/
def genericTail (c : Operand) (n : Node) (more : Parser → Parser) (binary : Parser) : Parser :=
  fun s =>
  match g.typeArguments s with
  | .ok ns s' =>
      let types := pass (ns.map (Node.withField (some .typeArguments)))
      if s'.tok == .punct .lparen then
        more (extend .callExpression (n.withField (some .function))
          (andThen types (role .arguments g.arguments))) s'
      else if c.extended && followsHeritage s'.tok then .ok [n] { s with far := s'.far }
      else if startsExpression s'.tok then binary { s with far := s'.far }
      else more (extend .instantiationExpression n types) s'
  | .stuck far => binary { s with far := far }

/-- Continues the expression `n` as far as `c` allows. -/
def tail (c : Operand) : Nat → Node → Parser
  | 0, n => pass [n]
  | fuel + 1, n => look fun s =>
      let more (p : Parser) : Parser := withNode p (tail c fuel)
      let binary : Parser :=
        match binaryLevel? s.tok with
        | some l =>
            if c.level ≤ l then
              more (extend .binaryExpression n
                (andThen (token s.tok) (g.expr (c.afterBinary l))))
            else pass [n]
        | none => pass [n]
      if atLineEnd c.border s then pass [n]
      else
        match s.tok with
        | .punct .dot => more (memberAccess n)
        | .punct .questionDot => more (g.optionalAccess n)
        | .punct .lbracket => more (g.subscript n)
        | .punct .lparen => more (g.call n)
        | .punct .backquote => more (g.taggedTemplate n)
        | .punct .bang =>
            if c.loose then more (extend .nonNullExpression n (punct .bang)) else pass [n]
        | .punct .plusPlus | .punct .minusMinus =>
            more (extend .updateExpression n (token s.tok))
        | .punct .lt =>
            if c.generic then g.genericTail c n more binary else binary
        | .punct .assign =>
            if isTarget n then
              extend .assignmentExpression n
                (andThen (punct .assign) (g.expr c.rest))
            else pass [n]
        | .punct .question =>
            if c.level ≤ .ternary then more (extend .ternaryExpression n (g.branches c))
            else pass [n]
        | .word .kAs =>
            if c.loose then
              more (extend .asExpression n (andThen (word .kAs) (g.read (.type c.border))))
            else pass [n]
        | .word .kSatisfies =>
            if c.loose then
              more (extend .satisfiesExpression n
                (andThen (word .kSatisfies) (g.read (.type c.border))))
            else pass [n]
        | _ =>
            if isUpdateOperator s.tok then
              if isTarget n then
                extend .assignmentExpression n
                  (andThen (token s.tok) (g.expr c.rest))
              else pass [n]
            else binary

/-- An expression. -/
def expressionRule (c : Operand) : Parser := withNode (g.head c) (g.tail c g.fuel)

end Grammar

end Promisify
