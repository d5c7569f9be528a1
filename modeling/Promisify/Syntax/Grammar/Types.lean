import Promisify.Syntax.Grammar.Basic

set_option autoImplicit false

/-! # Types

Types are read so that what follows them is found; of the tree only the calls in them matter
later. A type at the end of a statement stops where the line ends the statement, so that a
bracket on the next line starts a new one.
-/

namespace Promisify

namespace Grammar

open Lexer (Border)
open Promisify.Parser

variable (g : Grammar)

/-- Names joined by dots, with type arguments if there are any. -/
def typeReference : Parser :=
  node .typeReference (all
    [name .identifier, g.star (all [punct .dot, name .identifier]), opt g.typeArguments])

/-- The callee `import` with its argument. -/
def importCall : Parser :=
  node .callExpression (all
    [role .function (tokenAs .importCallee (.word .kImport)), role .arguments g.arguments])

/-- A member after `?.`: a name, or a string or number in brackets. -/
def optionalMember (n : Node) : Parser := look fun s =>
  let mark := tokenAs .optionalChain (.punct .questionDot)
  match s.advance.tok with
  | .punct .lbracket => extend .subscriptExpression (n.withField (some .object))
      (all [mark, punct .lbracket, orElse (tokenAs .string .string) (tokenAs .number .number),
        punct .rbracket])
  | _ => extend .memberExpression (n.withField (some .object))
      (all [mark, role .property property])

/-- Continues what a type asks the type of: with members, if `chained` also after `?.`, and with calls
of anything but a call and `this`. Parentheses on the next line do not belong to a type that may end a
statement. -/
def queryTail (b : Border) (chained : Bool) : Nat → Node → Parser
  | 0, n => pass [n]
  | fuel + 1, n => look fun s =>
      let more (p : Parser) : Parser := withNode p (queryTail b chained fuel)
      match s.tok with
      | .punct .dot => more (memberAccess n)
      | .punct .questionDot => if chained then more (optionalMember n) else pass [n]
      | .punct .lparen =>
          if n.kind == .callExpression || n.kind == .this || atLineEnd b s then pass [n]
          else more (g.call n)
      | _ => pass [n]

/-- A module's type, with members and type arguments if there are any. -/
def importType (b : Border) : Parser :=
  node .typeReference (all
    [withNode g.importCall (g.queryTail b false g.fuel), opt g.typeArguments])

/-- The type of a name, of `this` or of a module, with members and type arguments if there are any. -/
def typeQuery (b : Border) : Parser :=
  let head := look fun s =>
    match s.tok with
    | .word .kImport => g.importCall
    | .word .kThis => leaf .this
    | _ => name .identifier
  node .typeQuery (all
    [word .kTypeof, withNode head (g.queryTail b true g.fuel), opt g.typeArguments])

/-- The head of a method or property in an object type, up to its name. -/
def memberModifiers : Parser :=
  let sign := look fun s =>
    match s.tok, s.advance.tok with
    | .punct .minus, .word .kReadonly | .punct .plus, .word .kReadonly =>
        all [token s.tok, word .kReadonly]
    | _, _ => fail
  let modifier := look fun s =>
    match s.tok with
    | .word w =>
        if [Word.kReadonly, .kGet, .kSet, .kStatic, .kAsync, .kPublic, .kPrivate,
            .kProtected].contains w then
          match s.advance.tok with
          | .word _ | .string | .number | .privateName | .punct .lbracket => token s.tok
          | _ => fail
        else fail
    | _ => sign
  g.star modifier

/-- A key in brackets: the key of an index signature or of a mapped type. -/
def indexKey : Parser :=
  all [punct .lbracket, name .identifier, look fun s =>
    match s.tok with
    | .punct .colon => andThen (punct .colon) g.type
    | _ => all [word .kIn, g.type, opt (all [word .kAs, g.type])],
    punct .rbracket]

/-- The type of a mapped member; a sign before the colon adds or removes optionality. -/
def mappedTypeMark (b : Border) : Parser :=
  all [opt (all [opt (orElse (punct .minus) (punct .plus)), punct .question]), g.typeMark b]

/-- One member of an object type. -/
def typeMember : Parser :=
  let b := Border.bare
  let named := all [g.propertyName, opt (punct .question), look fun s =>
    match s.tok with
    | .punct .lparen | .punct .lt => if atLineEnd b s then pass [] else g.signature b
    | .punct .colon => g.typeMark b
    | _ => pass []]
  node .propertySignature (look fun s =>
    match s.tok, s.advance.tok with
    | .punct .lparen, _ | .punct .lt, _ => g.signature b
    | .word .kNew, .punct .lparen | .word .kNew, .punct .lt => all [word .kNew, g.signature b]
    | .word .kExport, .word _ => g.statement
    | _, _ => all [g.memberModifiers, look fun s =>
        match s.tok with
        | .punct .lbracket => orElse (all [g.indexKey, g.mappedTypeMark b]) named
        | _ => named])

/-- Members in braces, separated by commas, semicolons or line ends. -/
def objectType : Parser :=
  let separator := orElse (punct .comma) (semicolon .bare)
  node .objectType (all
    [punct .lbrace, opt (orElse (punct .comma) (punct .semi)),
     opt (all [g.typeMember, g.star (all [separator, g.typeMember]), opt separator]),
     punct .rbrace])

/-- One member of a tuple type, with a label or without. -/
def tupleMember : Parser :=
  let labelled := all [name .identifier, opt (punct .question), g.typeMark .inner]
  let plain := all [g.type, opt (punct .question)]
  all [opt (punct .ellipsis), look fun s =>
    match s.tok, s.advance.tok with
    | .word _, .punct .colon | .word _, .punct .question => orElse labelled plain
    | _, _ => plain]

/-- Members in brackets. -/
def tupleType : Parser :=
  node .tupleType (all [punct .lbracket, commaList g.tupleMember g.fuel, punct .rbracket])

/-- A function or constructor type. -/
def functionType (b : Border) : Parser :=
  node .functionType (all
    [opt (word .kAbstract), opt (word .kNew), opt g.typeParameters, g.parameters,
     punct .arrow, g.returnType b])

/-- A type in parentheses. -/
def parenthesizedType : Parser := all [punct .lparen, g.type, punct .rparen]

/-- A type without operators. -/
def primaryType (b : Border) : Parser := look fun s =>
  match s.tok with
  | .word .kTypeof => g.typeQuery b
  | .word .kImport => g.importType b
  | .word .kNew => g.functionType b
  | .word .kAbstract => orElse (g.functionType b) g.typeReference
  | .word _ => g.typeReference
  | .number => leaf .number
  | .string => leaf .string
  | .punct .minus => all [punct .minus, tokenAs .number .number]
  | .punct .plus => all [punct .plus, tokenAs .number .number]
  | .punct .star => punct .star
  | .punct .lt => g.functionType b
  | .punct .lparen => orElse (g.functionType b) g.parenthesizedType
  | .punct .lbrace => g.objectType
  | .punct .lbracket => g.tupleType
  | .punct .backquote => g.template .templateType g.type
  | _ => fail

/-- Brackets after a type: an array type or the type of a member. -/
def typeIndex (b : Border) : Parser := look fun s =>
  if s.tok == .punct .lbracket && !atLineEnd b s then
    all [punct .lbracket, opt g.type, punct .rbracket]
  else fail

/-- A type with its brackets and the words before it. -/
def typeOperand (b : Border) : Nat → Parser
  | 0 => fail
  | fuel + 1 => look fun s =>
      let plain := all [g.primaryType b, g.star (g.typeIndex b)]
      let after : Parser := all [token s.tok, typeOperand b fuel]
      match s.tok with
      | .word .kKeyof | .word .kReadonly | .word .kUnique => orElse after plain
      | .word .kInfer =>
          orElse (all [word .kInfer, name .identifier,
            opt (all [word .kExtends, typeOperand b fuel,
              look fun s => if s.tok == .punct .question then fail else pass []])]) plain
      | .punct .question => after
      | _ => plain

/-- Types joined by `|` and `&`. -/
def compoundType (b : Border) : Parser :=
  let operator := orElse (punct .bar) (punct .amp)
  node .compoundType (all
    [opt operator, g.typeOperand b g.fuel, g.star (all [operator, g.typeOperand b g.fuel])])

/-- A type. -/
def typeRule (b : Border) : Parser :=
  let conditional := all
    [word .kExtends, g.type, punct .question, g.type, punct .colon, g.read (.type b)]
  withNode (g.compoundType b) fun left => look fun s =>
    if s.tok == .word .kExtends && !atLineEnd b s then
      orElse (extend .compoundType left conditional) (pass [left])
    else pass [left]

end Grammar

end Promisify
