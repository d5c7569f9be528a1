import Promisify.Syntax.Grammar.Types

set_option autoImplicit false

/-! # Functions, classes and members

Parameters and bodies of functions, and the members of classes and objects. A member starts with
modifiers that are also good names, so each modifier is decided by the token after it.
-/

namespace Promisify

namespace Grammar

open Lexer (Border)
open Promisify.Parser

variable (g : Grammar)

/-- A function from the word `function` on. A declaration has a name, and may have no body. -/
def functionExpression : Parser :=
  node .functionExpression (all
    [opt (word .kAsync), word .kFunction, opt (punct .star), opt (name .identifier),
     g.signature .inner, g.block])

/-- A function declaration, or the signature of one when it has no body. -/
def functionDeclaration : Parser :=
  node .functionDeclaration (all
    [opt (word .kAsync), word .kFunction, opt (punct .star), name .identifier,
     g.signature .signature,
     look fun s => if s.tok == .punct .lbrace then g.block else semicolon .signature])

/-! ## Members -/

/-- Whether a token can start the name of a property. -/
def startsPropertyName : Token → Bool
  | .word _ | .privateName | .string | .number | .punct .lbracket => true
  | _ => false

/-- Reads one of the modifiers `ws` if the name of a member, or the star of a generator,
follows. -/
def modifier (ws : List Word) : Parser := look fun s =>
  match s.tok with
  | .word w =>
      let next := s.advance.tok
      if ws.contains w && (startsPropertyName next || next == .punct .star)
      then token s.tok else fail
  | _ => fail

/-- Whether a token is a modifier, or the star of a generator, that `next` follows as the name
of a member. -/
def marksMethod (tok next : Token) : Bool :=
  match tok with
  | .punct .star => true
  | .word w => startsMethod.contains w && (startsPropertyName next || next == .punct .star)
  | _ => false
where
  /-- The modifiers of the methods of an object. -/
  startsMethod : List Word := [.kAsync, .kGet, .kSet, .kStatic, .kPublic, .kPrivate,
    .kProtected, .kReadonly, .kOverride]

/-- A member of an object. A modifier or a star makes it a method. -/
def objectMember : Parser :=
  let value := g.inner
  let signature := all [opt (punct .question), g.signature .inner, g.block]
  look fun s =>
    if s.tok == .punct .ellipsis then node .spread (andThen (punct .ellipsis) value)
    else if marksMethod s.tok s.advance.tok then
      node .methodDefinition (all [g.star (modifier marksMethod.startsMethod),
        opt (punct .star), g.propertyName, signature])
    else
      withNode g.propertyName fun key => look fun s =>
        match s.tok with
        | .punct .lparen | .punct .lt | .punct .question =>
            extend .methodDefinition key signature
        | .punct .colon => extend .pair key (andThen (punct .colon) value)
        | .punct .assign =>
            if key.kind == .propertyIdentifier then
              extend .shorthandDefault key (andThen (punct .assign) value)
            else fail
        | _ =>
            if key.kind == .propertyIdentifier then extend .shorthandProperty key (pass [])
            else fail

/-- Members in braces. A member with a default makes the braces a pattern, which must then be
assigned to. -/
def object : Parser :=
  withNode (node .object
    (all [punct .lbrace, commaHoles g.objectMember g.fuel, punct .rbrace])) fun n => look fun s =>
      if n.children.any fun c => c.kind == .shorthandDefault then
        match s.tok with
        | .punct .assign | .punct .comma | .punct .rbrace | .punct .rbracket
        | .word .kOf | .word .kIn => pass [n]
        | _ => fail
      else pass [n]

/-- What follows the head of a method in a class: its body, or the end of a signature. -/
def methodEnd : Parser := look fun s =>
  if s.tok == .punct .lbrace then andThen g.block (opt (semicolon .bare))
  else orElse (punct .comma) (semicolon .signature)

/-- What follows the name of a field in a class. -/
def fieldEnd : Parser :=
  andThen (opt (g.typeMark .bare)) (look fun s =>
    if s.tok == .punct .assign then
      andThen (g.initializer .last) (orElse (punct .comma) (semicolon .value))
    else orElse (punct .comma) (semicolon .bare))

/-- A member of a class. -/
def classMember : Parser :=
  let modifiers := g.star (modifier [.kPublic, .kPrivate, .kProtected, .kStatic, .kOverride,
    .kReadonly, .kAbstract, .kDeclare, .kAccessor])
  let method := all [g.signature .signature, g.methodEnd]
  let marked := all [g.star (modifier [.kAsync, .kGet, .kSet]), opt (punct .star),
    g.propertyName, opt (punct .question), method]
  let plain := all [g.propertyName, opt (orElse (punct .question) (punct .bang)), look fun s =>
      match s.tok with
      | .punct .lparen | .punct .lt => if atLineEnd .bare s then g.fieldEnd else method
      | _ => g.fieldEnd]
  let named := look fun s => if marksMethod s.tok s.advance.tok then marked else plain
  let index := all [g.indexKey, g.mappedTypeMark .bare,
    orElse (punct .comma) (semicolon .bare)]
  look fun s =>
    match s.tok, s.advance.tok with
    | .punct .semi, _ => punct .semi
    | .word .kStatic, .punct .lbrace => node .staticBlock (all [word .kStatic, g.block])
    | _, _ => node .fieldDefinition (all [g.star g.decorator, modifiers, look fun s =>
        if s.tok == .punct .lbracket then orElse index named else named])

/-- The members of a class in braces. -/
def classBody : Parser :=
  node .classBody (all [punct .lbrace, g.star g.classMember, punct .rbrace])

/-- What a class extends and implements. -/
def heritage : Parser :=
  let base := andThen (g.expr { Operand.whole with extended := true }) (opt g.typeArguments)
  andThen (opt (andThen (word .kExtends) (commaSep base g.fuel)))
    (opt (andThen (word .kImplements) (commaSep g.type g.fuel)))

/-- A class from its decorators on, as a node of kind `k`. -/
def classRule (k : Kind) : Parser :=
  node k (all [g.star g.decorator, opt (word .kAbstract), word .kClass,
    look fun s => match s.tok with
      | .word .kExtends | .word .kImplements => pass []
      | .word _ => name .identifier
      | _ => pass [],
    opt g.typeParameters, g.heritage, g.classBody])

end Grammar

end Promisify
