import Promisify.Dialect
import Promisify.Syntax.Parser

set_option autoImplicit false

/-! # The recursive parts of the grammar

Five kinds of phrase contain each other: expressions, types, statements, binding patterns and
elements. A phrase is asked for by its `Goal`; a rule of the grammar reaches other phrases only
through the `Grammar` it is given, so each rule is a plain definition and the knot is tied once.
-/

namespace Promisify

open Lexer (Border)

/-- Binding strength of operators: a larger number binds tighter. -/
abbrev Level := Nat

namespace Level

def assign : Level := 0
def ternary : Level := 1
def logicalOr : Level := 2
def logicalAnd : Level := 3
def bitOr : Level := 4
def bitXor : Level := 5
def bitAnd : Level := 6
def equality : Level := 7
def relation : Level := 8
def shift : Level := 9
def additive : Level := 10
def multiplicative : Level := 11
def power : Level := 12
def unary : Level := 13

end Level

/-- Where an expression stands, as far as it decides how far the expression reaches. -/
structure Operand where
  /-- Operators that bind weaker than this belong to an enclosing expression. -/
  level : Level
  /-- Whether a call with type arguments may form here. After a prefix operator and after an
  operator that binds tighter than `<` it forms around that operator instead. -/
  generic : Bool
  /-- Whether `!`, `as` and `satisfies` may follow here. After a prefix operator and after a
  binary operator they apply to the whole operation instead. -/
  loose : Bool
  /-- Whether the end of a line may end the statement here. -/
  border : Border
  /-- Whether the parameters of an arrow function may be followed by a return type. -/
  annotated : Bool
  /-- Whether the expression is what a class extends, which the body of the class follows. -/
  extended : Bool
  deriving DecidableEq, Repr

/-- An expression on its own, inside brackets of some kind. -/
def Operand.whole : Operand := ⟨.assign, true, true, .inner, true, false⟩

/-- An expression on its own that may end a statement. -/
def Operand.last : Operand := ⟨.assign, true, true, .value, true, false⟩

/-- The operand of a prefix operator. -/
def Operand.afterSign (c : Operand) : Operand :=
  { c with level := .unary, generic := false, loose := false }

/-- The right operand of a binary operator. -/
def Operand.afterBinary (c : Operand) (l : Level) : Operand :=
  { c with
    level := if l == .power then .power else l + 1
    generic := decide (l ≤ .relation)
    loose := false }

/-- Everything up to the end of the expression. -/
def Operand.rest (c : Operand) : Operand :=
  { c with level := .assign, generic := true, loose := true }

/-- The phrases that contain each other. -/
inductive Goal where
  | expression (c : Operand)
  | type (b : Border)
  | statement
  | binding
  | element
  deriving DecidableEq, Repr

/-- Access to the phrases inside a phrase. -/
structure Grammar where
  /-- How deep phrases may still nest, and how long lists may get. -/
  fuel : Nat
  dialect : Dialect
  read : Goal → Parser

namespace Grammar

open Promisify.Parser

variable (g : Grammar)

/-- One expression. -/
def expr (c : Operand) : Parser := g.read (.expression c)

/-- One expression inside brackets. -/
def inner : Parser := g.expr .whole

/-- A type inside brackets. -/
def type : Parser := g.read (.type .inner)

/-- A statement. -/
def statement : Parser := g.read .statement

/-- A name or a destructuring pattern. -/
def binding : Parser := g.read .binding

/-- As often as possible. -/
def star (p : Parser) : Parser := many p g.fuel

/-- Expressions separated by commas, as one node. -/
def sequence (c : Operand) : Parser :=
  withNode (g.expr c) fun first => look fun s =>
    if s.tok == .punct .comma && !atLineEnd c.border s then
      extend .sequenceExpression first
        (andThen (punct .comma)
          (andThen (g.expr c) (g.star (andThen (punct .comma) (g.expr c)))))
    else pass [first]

/-- A condition in parentheses. -/
def condition : Parser :=
  node .parenthesized (all [punct .lparen, g.sequence .whole, punct .rparen])

/-- Statements in braces. -/
def block : Parser :=
  node .statementBlock (all [punct .lbrace, g.star g.statement, punct .rbrace])

/-- A type after a colon. -/
def typeMark (b : Border) : Parser :=
  node .typeMark (andThen (punct .colon) (g.read (.type b)))

/-- An expression after an equals sign. -/
def initializer (c : Operand) : Parser := andThen (punct .assign) (g.expr c)

/-- Types in angle brackets. -/
def typeArguments : Parser :=
  node .typeArguments
    (all [punct .lt, commaSep g.type g.fuel, opt (punct .comma), closeAngle])

/-- Type parameters in angle brackets. -/
def typeParameters : Parser :=
  let one := node .typeParameter (all
    [look fun s => match s.tok, s.advance.tok with
       | .word .kConst, .word _ => word .kConst
       | _, _ => pass [],
     name .identifier, opt (all [word .kExtends, g.type]), opt (all [punct .assign, g.type])])
  node .typeParameters
    (all [punct .lt, commaSep one g.fuel, opt (punct .comma), closeAngle])

/-- An argument: an expression or a spread. -/
def argument : Parser := look fun s =>
  if s.tok == .punct .ellipsis then node .spread (andThen (punct .ellipsis) g.inner)
  else g.inner

/-- Arguments in parentheses. An argument may be missing. -/
def arguments : Parser :=
  node .arguments
    (all [punct .lparen, commaHoles g.argument g.fuel, punct .rparen])

/-- The text of a template from the offset `pos` on, `raw` being the text there; `inside` reads
what stands in a substitution. -/
def templateRest (inside : Parser) : Nat → Nat → Text → Parser
  | 0, _, _ => fail
  | fuel + 1, pos, raw => fun s =>
      let (chars, after) := Text.munch Lexer.templateUnit 0 raw
      let here := pos + Text.size chars
      match after with
      | '`' :: rest => .ok [] (s.resume (here + 1) rest)
      | '$' :: '\x7b' :: rest =>
          match inside (s.resume (here + 2) rest) with
          | .ok ns s' =>
              if s'.tok == .punct .rbrace then
                match templateRest inside fuel s'.stop s'.rest s' with
                | .ok ms s'' =>
                    .ok (.mk .templateSubstitution none here s'.stop ns :: ms) s''
                | .stuck far => .stuck far
              else .stuck (s'.blocked false)
          | .stuck far => .stuck far
      | _ => .stuck (s.blocked false)

/-- A template from its opening backquote on. -/
def template (k : Kind) (inside : Parser) : Parser :=
  node k (look fun s =>
    if s.tok == .punct .backquote then templateRest inside g.fuel s.stop s.rest else fail)

/-- A template whose substitutions hold expressions. -/
def templateString : Parser := g.template .templateString (g.sequence .whole)

/-- The name of a property: a word, a string, a number or an expression in brackets. -/
def propertyName : Parser := look fun s =>
  match s.tok with
  | .word _ => leaf .propertyIdentifier
  | .privateName => leaf .privatePropertyIdentifier
  | .string => leaf .string
  | .number => leaf .number
  | .punct .lbracket =>
      node .computedPropertyName (all [punct .lbracket, g.inner, punct .rbracket])
  | _ => fail

/-- The name of a member. -/
def property : Parser :=
  orElse (name .propertyIdentifier) (tokenAs .privatePropertyIdentifier .privateName)

/-- A member after a dot. -/
def memberAccess (n : Node) : Parser :=
  extend .memberExpression (n.withField (some .object))
    (all [punct .dot, role .property property])

/-- A call. -/
def call (n : Node) : Parser :=
  extend .callExpression (n.withField (some .function)) (role .arguments g.arguments)

/-- Names after dots, each a member of what stands before. -/
def memberNames : Nat → Node → Parser
  | 0, n => pass [n]
  | fuel + 1, n => look fun s =>
      if s.tok == .punct .dot then
        withNode (extend .memberExpression (n.withField (some .object))
          (all [punct .dot, role .property (name .propertyIdentifier)])) (memberNames fuel)
      else pass [n]

/-- A decorator: names joined by dots, called or not, or an expression in parentheses. -/
def decorator : Parser :=
  let call (n : Node) : Parser := extend .callExpression (n.withField (some .function))
    (all [opt (role .typeArguments g.typeArguments), role .arguments g.arguments])
  node .decorator (all [punct .atSign, look fun s =>
    match s.tok with
    | .punct .lparen => g.condition
    | _ => withNode (withNode (name .identifier) (memberNames g.fuel)) fun n => look fun s =>
        match s.tok with
        | .punct .lparen => call n
        | .punct .lt => orElse (call n) (pass [n])
        | _ => pass [n]])

/-- A parameter of a function: decorators, modifiers, a binding, and a type and a default if
there are any. -/
def parameter : Parser :=
  let modifier := look fun s =>
    match s.tok, s.advance.tok with
    | .word w, .word _ | .word w, .punct .lbrace | .word w, .punct .lbracket =>
        if [Word.kPublic, .kPrivate, .kProtected, .kOverride, .kReadonly].contains w
        then token s.tok else fail
    | _, _ => fail
  node .parameter (all
    [g.star g.decorator, g.star modifier,
     look fun s => match s.tok with
       | .punct .ellipsis => node .restPattern (andThen (punct .ellipsis) g.binding)
       | _ => g.binding,
     opt (punct .question), opt (g.typeMark .inner), opt (g.initializer .whole)])

/-- Parameters in parentheses. -/
def parameters : Parser :=
  node .formalParameters
    (all [punct .lparen, commaList g.parameter g.fuel, punct .rparen])

/-- What stands after the colon of a function's head: a type, a type predicate or an
assertion. -/
def returnType (b : Border) : Parser := look fun s =>
  let type := g.read (.type b)
  let subject := name .identifier
  match s.tok, s.advance.tok with
  | .word .kAsserts, .word w =>
      if w == .kIs then node .typeReference (all [subject, word .kIs, type])
      else node .typeReference (all [word .kAsserts, subject, opt (all [word .kIs, type])])
  | .word _, .word .kIs => node .typeReference (all [subject, word .kIs, type])
  | _, _ => type

/-- Type parameters, parameters and a return type. -/
def signature (b : Border) : Parser :=
  all [opt g.typeParameters, g.parameters,
    opt (node .typeMark (andThen (punct .colon) (g.returnType b)))]

end Grammar

end Promisify
