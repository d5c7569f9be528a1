import Promisify.Syntax.Grammar.Elements

set_option autoImplicit false

/-! # Statements and declarations

A statement ends with a semicolon, or where a line or block ends it. Which words start a
statement is decided by the words themselves and the token after them, so no statement is read
twice.
-/

namespace Promisify

namespace Grammar

open Lexer (Border)
open Promisify.Parser

variable (g : Grammar)

/-! ## Patterns -/

/-- A binding with a default if there is one. -/
def bindingElement : Parser :=
  node .assignmentPattern (all
    [look fun s => match s.tok with
       | .punct .ellipsis => node .restPattern (andThen (punct .ellipsis) g.binding)
       | _ => g.binding,
     opt (g.initializer .whole)])

/-- A property of an object pattern. -/
def propertyPattern : Parser := look fun s =>
  if s.tok == .punct .ellipsis then
    node .restPattern (andThen (punct .ellipsis) g.binding)
  else
    node .pairPattern (all [g.propertyName, look fun s =>
      match s.tok with
      | .punct .colon => andThen (punct .colon) g.bindingElement
      | .punct .assign => g.initializer .whole
      | _ => pass []])

/-- A name or a destructuring pattern. -/
def bindingRule : Parser := look fun s =>
  match s.tok with
  | .word _ => leaf .identifier
  | .punct .lbrace => node .objectPattern
      (all [punct .lbrace, commaHoles g.propertyPattern g.fuel, punct .rbrace])
  | .punct .lbracket => node .arrayPattern
      (all [punct .lbracket, commaHoles g.bindingElement g.fuel, punct .rbracket])
  | _ => fail

/-! ## Variables -/

/-- A variable with its type and initial value, if there are any. -/
def declarator : Parser :=
  node .variableDeclarator (all
    [g.binding, opt (punct .bang), opt (g.typeMark .bare), opt (g.initializer .last)])

/-- Variables after `var`, `let` or `const`. -/
def variableList : Parser :=
  node .variableDeclaration (all
    [oneWord [.kVar, .kLet, .kConst], commaSep g.declarator g.fuel,
     orElse (semicolon .value) (semicolon .bare)])

/-! ## Control -/

/-- A condition and a statement. -/
def ifStatement : Parser :=
  node .ifStatement (all
    [word .kIf, g.condition, g.statement, look fun s =>
      if s.tok == .word .kElse then all [word .kElse, g.statement] else pass []])

/-- What a loop over values binds or assigns, up to `in` or `of`. -/
def forInTarget : Parser :=
  let declared := all [oneWord [.kVar, .kLet, .kConst], g.binding]
  let assigned := g.expr { Operand.whole with level := .unary + 1 }
  all [look fun s => match s.tok, s.advance.tok with
      | .word .kVar, _ | .word .kConst, _ => declared
      | .word .kLet, .word .kOf | .word .kLet, .word .kIn => assigned
      | .word .kLet, _ => declared
      | _, _ => assigned,
    oneWord [.kIn, .kOf]]

/-- The three parts of a counting loop. -/
def forHeader : Parser :=
  let part := opt (g.sequence .whole)
  all [look fun s => match s.tok with
      | .word .kVar | .word .kLet | .word .kConst =>
          node .variableDeclaration (all [oneWord [.kVar, .kLet, .kConst], commaSep
            (node .variableDeclarator (all
              [g.binding, opt (g.typeMark .inner), opt (g.initializer .whole)])) g.fuel])
      | _ => part,
    punct .semi, part, punct .semi, part]

/-- A loop. -/
def forStatement : Parser := fun s =>
  let opening := all [word .kFor, opt (word .kAwait), punct .lparen]
  let close := all [punct .rparen, g.statement]
  match opening s with
  | .ok _ t =>
      match g.forInTarget t with
      | .ok ns t' =>
          match all [g.sequence .whole, close] t' with
          | .ok ms t'' => .ok [.mk .forInStatement none s.start t''.prevStop (ns ++ ms)] t''
          | .stuck far => .stuck far
      | .stuck far =>
          match all [g.forHeader, close] { t with far := far } with
          | .ok ms t'' => .ok [.mk .forStatement none s.start t''.prevStop ms] t''
          | .stuck far => .stuck far
  | .stuck far => .stuck far

/-- A loop with its condition first. -/
def whileStatement : Parser :=
  node .whileStatement (all [word .kWhile, g.condition, g.statement])

/-- A loop with its condition last. -/
def doStatement : Parser :=
  node .doStatement (all
    [word .kDo, g.statement, word .kWhile, g.condition, opt (semicolon .bare)])

/-- The cases of a switch; a case ends where the next one starts. -/
def switchStatement : Parser :=
  let body := g.star (look fun s => match s.tok with
    | .word .kCase | .word .kDefault => fail
    | _ => g.statement)
  let one := node .switchCase (look fun s => match s.tok with
    | .word .kCase => all [word .kCase, g.sequence .whole, punct .colon, body]
    | .word .kDefault => all [word .kDefault, punct .colon, body]
    | _ => fail)
  node .switchStatement (all
    [word .kSwitch, g.condition, punct .lbrace, g.star one, punct .rbrace])

/-- A block with what handles its failure and what follows it, if there is any. -/
def tryStatement : Parser :=
  let handler := node .catchClause (all
    [word .kCatch,
     opt (all [punct .lparen, g.binding, opt (g.typeMark .inner), punct .rparen]), g.block])
  let finalizer := all [word .kFinally, g.block]
  node .tryStatement (all [word .kTry, g.block,
    look fun s => if s.tok == .word .kCatch then handler else pass [],
    look fun s => if s.tok == .word .kFinally then finalizer else pass []])

/-- A jump to a label, or out of the innermost loop. -/
def jump (k : Kind) (w : Word) : Parser :=
  node k (all [word w, look fun s =>
    match s.tok with
    | .word _ => if atLineEnd .bare s then pass [] else name .identifier
    | _ => pass [], semicolon .bare])

/-- A word, an expression if there is one, and the end of the statement. -/
def returnStatement : Parser :=
  node .returnStatement (all [word .kReturn, look fun s =>
    if startsExpression s.tok && !atLineEnd .bare s then
      andThen (g.sequence .last) (semicolon .value)
    else semicolon .bare])

/-- An expression as a statement. -/
def expressionStatement : Parser :=
  node .expressionStatement (all [g.sequence .last, semicolon .value])

/-! ## Declarations -/

/-- An interface. -/
def interfaceDeclaration : Parser :=
  node .interfaceDeclaration (all
    [word .kInterface, name .identifier, opt g.typeParameters,
     opt (all [word .kExtends, commaSep g.type g.fuel]), g.objectType])

/-- A name for a type. -/
def typeAlias : Parser :=
  node .typeAlias (all
    [word .kType, name .identifier, opt g.typeParameters, punct .assign,
     g.read (.type .bare), semicolon .bare])

/-- An enumeration. -/
def enumDeclaration : Parser :=
  let member := node .enumMember (all [g.propertyName, opt (g.initializer .whole)])
  node .enumDeclaration (all
    [opt (word .kConst), word .kEnum, name .identifier, punct .lbrace,
     commaList member g.fuel, punct .rbrace])

/-- A module or namespace, with its statements if they are given. -/
def moduleDeclaration : Parser :=
  node .moduleDeclaration (all
    [oneWord [.kModule, .kNamespace],
     orElse (tokenAs .string .string)
       (all [name .identifier, g.star (all [punct .dot, name .identifier])]),
     look fun s => if s.tok == .punct .lbrace then g.block else opt (semicolon .bare)])

/-- A class declaration. -/
def classDeclaration : Parser := g.classRule .classDeclaration

/-- Whether a word and the token after it start a declaration. -/
def startsDeclaration (w : Word) (next : Token) : Bool :=
  let isWord := match next with
    | .word _ => true
    | _ => false
  match w with
  | .kVar | .kConst | .kFunction | .kClass | .kEnum | .kInterface | .kAbstract => true
  | .kLet => isWord || next == .punct .lbrace || next == .punct .lbracket
  | .kAsync => next == .word .kFunction
  | .kType | .kNamespace | .kDeclare => isWord
  | .kModule => isWord || next == .string
  | _ => false

/-- A declaration that starts with the word `w`, other than one after `declare`. -/
def plainDeclaration (w : Word) (next : Token) : Parser :=
  match w with
  | .kFunction | .kAsync =>
      match next with
      | .punct .lparen => g.expressionStatement
      | _ => g.functionDeclaration
  | .kClass | .kAbstract => g.classDeclaration
  | .kConst => if next == .word .kEnum then g.enumDeclaration else g.variableList
  | .kEnum => g.enumDeclaration
  | .kType => g.typeAlias
  | .kInterface => g.interfaceDeclaration
  | .kModule | .kNamespace => g.moduleDeclaration
  | _ => g.variableList

/-- What stands after `declare`: a declaration, or statements for all modules. -/
def declared : Parser := look fun s =>
  match s.tok, s.advance.tok with
  | .word .kGlobal, .punct .lbrace => all [word .kGlobal, g.block]
  | .word w, next => if startsDeclaration w next then g.plainDeclaration w next else fail
  | _, _ => fail

/-- A declaration that starts with the word `w`. -/
def declaration (w : Word) (next : Token) : Parser :=
  match w with
  | .kDeclare =>
      orElse (node .ambientDeclaration (andThen (word .kDeclare) g.declared))
        g.expressionStatement
  | _ => g.plainDeclaration w next

/-! ## Modules -/

/-- A name of an import or export: a word or a string. -/
def exportedName : Parser := orElse (name .identifier) (tokenAs .string .string)

/-- What is imported or exported is called there and, after `as`, here. -/
def specifierNames (k : Kind) : Parser :=
  let given := role .localName (if k == .importSpecifier then name .identifier else exportedName)
  look fun s => match s.tok with
    | .string =>
        let rest := all [word .kAs, given]
        andThen (role .name exportedName) (if k == .importSpecifier then rest else opt rest)
    | _ => all [role .name (name .identifier), opt (all [word .kAs, given])]

/-- Whether a name in braces starts with a modifier: a leading `type` is one unless it is itself
the name. -/
def startsMarked (s : State) : Bool :=
  match s.tok, s.advance.tok with
  | .word .kType, .word .kAs =>
      match s.advance.advance.tok with
      | .word .kAs =>
          match s.advance.advance.advance.tok with
          | .word _ => true
          | _ => false
      | .word _ => false
      | _ => true
  | .word .kType, .word _ | .word .kType, .string | .word .kTypeof, .word _ => true
  | _, _ => false

/-- The names of one import or export. -/
def specifier (k : Kind) : Parser :=
  node k (look fun s =>
    if startsMarked s then all [oneWord [.kType, .kTypeof], specifierNames k]
    else specifierNames k)

/-- Names in braces. -/
def specifiers (k one : Kind) : Parser :=
  node k (all [punct .lbrace, commaList (specifier one) g.fuel, punct .rbrace])

/-- A name for the whole module, or names in braces. -/
def importGroup : Parser := look fun s =>
  if s.tok == .punct .star then
    node .namespaceImport (all [punct .star, word .kAs, name .identifier])
  else g.specifiers .namedImports .importSpecifier

/-- What an import binds. -/
def importClause : Parser :=
  node .importClause (look fun s => match s.tok with
    | .word _ => all [name .identifier, opt (all [punct .comma, g.importGroup])]
    | _ => g.importGroup)

/-- Attributes of an import. -/
def importAttribute : Parser := look fun s =>
  match s.tok, s.advance.tok with
  | .word .kWith, .punct .lbrace | .word .kAssert, .punct .lbrace =>
      if atLineEnd .bare s then pass []
      else node .importAttribute (andThen (token s.tok) g.object)
  | _, _ => pass []

/-- The module an import or export names, after `from`. -/
def fromClause : Parser := andThen (word .kFrom) (role .source (tokenAs .string .string))

/-- A name for a module or for a member of a namespace. -/
def importEquals : Parser :=
  let path := all [name .identifier, g.star (all [punct .dot, name .identifier])]
  let required := all [word .kRequire, punct .lparen, tokenAs .string .string, punct .rparen]
  node .importRequire (all [name .identifier, punct .assign, look fun s =>
    match s.tok, s.advance.tok with
    | .word .kRequire, .punct .lparen => required
    | _, _ => path])

/-- What stands between `import` and the end of the statement, as the next tokens show. -/
def importBody (s : State) : Parser :=
  let mark := tokenAs .typeKeyword (.word .kType)
  let bound := all [g.importClause, fromClause]
  match s.tok, s.advance.tok with
  | .string, _ => role .source (leaf .string)
  | .word _, .punct .assign => g.importEquals
  | .word .kType, .word .kFrom =>
      match s.advance.advance.tok with
      | .word .kFrom => all [mark, bound]
      | _ => bound
  | .word .kType, .punct .comma => bound
  | .word .kType, .word _ =>
      if s.advance.advance.tok == .punct .assign then all [mark, g.importEquals]
      else all [mark, bound]
  | .word .kType, _ => all [mark, bound]
  | .word .kTypeof, .punct .lbrace | .word .kTypeof, .word .other =>
      all [word .kTypeof, bound]
  | _, _ => bound

/-- An import. -/
def importStatement : Parser :=
  node .importStatement (all
    [word .kImport, look g.importBody, g.importAttribute, semicolon .bare])

/-- An export. -/
def exportStatement : Parser :=
  let clause := g.specifiers .exportClause .exportSpecifier
  let source := look fun s => if s.tok == .word .kFrom then fromClause else pass []
  let everything := all [punct .star,
    opt (node .namespaceExport (all [word .kAs, exportedName])), fromClause]
  node .exportStatement (all [g.star g.decorator, word .kExport, look fun s =>
    match s.tok, s.advance.tok with
    | .punct .star, _ => all [everything, g.importAttribute, semicolon .bare]
    | .punct .lbrace, _ => all [clause, source, g.importAttribute, semicolon .bare]
    | .word .kType, .punct .lbrace =>
        all [word .kType, clause, source, g.importAttribute, semicolon .bare]
    | .word .kImport, _ => all [word .kImport, g.importEquals, semicolon .bare]
    | .punct .assign, _ => all [punct .assign, g.expr .last, semicolon .value]
    | .word .kAs, .word .kNamespace =>
        all [word .kAs, word .kNamespace, name .identifier, semicolon .bare]
    | .word .kDefault, _ => all [word .kDefault, look fun s =>
        match s.tok, s.advance.tok with
        | .word .kClass, .word .kExtends | .word .kClass, .word .kImplements =>
            g.classDeclaration
        | .word .kClass, .word _ | .word .kAbstract, .word .kClass | .punct .atSign, _ =>
            g.classDeclaration
        | .word .kClass, _ => g.classDeclaration
        | .word .kFunction, .word _ => g.functionDeclaration
        | .word .kAsync, .word .kFunction =>
            orElse g.functionDeclaration (all [g.expr .last, semicolon .value])
        | .word .kInterface, .word _ => g.interfaceDeclaration
        | .word .kEnum, .word _ => g.enumDeclaration
        | _, _ => all [g.expr .last, semicolon .value]]
    | .punct .atSign, _ => g.classDeclaration
    | .word w, next => if startsDeclaration w next then g.declaration w next else fail
    | _, _ => fail])

/-! ## Statements -/

/-- A class, or the export of one, after its decorators. -/
def decorated : Parser := fun s =>
  match g.star g.decorator s with
  | .ok _ t => if t.tok == .word .kExport then g.exportStatement s else g.classDeclaration s
  | .stuck far => .stuck far

/-- Whether a token can follow `export`. -/
def startsExport : Token → Bool
  | .word _ => true
  | .punct p => [Punct.star, .lbrace, .assign, .atSign].contains p
  | _ => false

/-- A statement that starts with the word `w`, `next` being the token after it. -/
def wordStatement (w : Word) (next : Token) : Parser :=
  match w with
  | .kIf => g.ifStatement
  | .kFor => g.forStatement
  | .kWhile => g.whileStatement
  | .kDo => g.doStatement
  | .kSwitch => g.switchStatement
  | .kTry => g.tryStatement
  | .kWith => node .withStatement (all [word .kWith, g.condition, g.statement])
  | .kBreak => jump .breakStatement .kBreak
  | .kContinue => jump .continueStatement .kContinue
  | .kReturn => g.returnStatement
  | .kThrow => node .throwStatement (all [word .kThrow, g.sequence .last, semicolon .value])
  | .kDebugger => node .debuggerStatement (all [word .kDebugger, semicolon .bare])
  | .kImport =>
      if next == .punct .lparen || next == .punct .dot then g.expressionStatement
      else g.importStatement
  | .kExport => if startsExport next then g.exportStatement else g.expressionStatement
  | _ =>
      if startsDeclaration w next then g.declaration w next else g.expressionStatement

/-- A statement. -/
def statementRule : Parser := look fun s =>
  match s.tok with
  | .punct .lbrace => orElse g.block g.expressionStatement
  | .punct .semi => node .emptyStatement (punct .semi)
  | .punct .atSign => g.decorated
  | .word w =>
      let next := s.advance.tok
      if next == .punct .colon then
        node .labeledStatement (all [name .identifier, punct .colon, g.statement])
      else g.wordStatement w next
  | _ => g.expressionStatement

end Grammar

end Promisify
