import Promisify.Text

set_option autoImplicit false

/-! # Tokens

The tokens of TypeScript: words, private names, numbers, strings and punctuation. A word that
the grammar gives a meaning somewhere is told apart here (`Word`); whether it has that meaning
at a place is for the grammar to decide, so every word can also be a name.
-/

namespace Promisify

/-- The words that have a meaning somewhere in the grammar; all others are `other`. -/
inductive Word where
  | kAbstract | kAccessor | kAs | kAssert | kAsserts | kAsync | kAwait | kBreak | kCase
  | kCatch | kClass | kConst | kContinue | kDebugger | kDeclare | kDefault | kDelete | kDo
  | kElse | kEnum | kExport | kExtends | kFalse | kFinally | kFor | kFrom | kFunction | kGet
  | kGlobal | kIf | kImplements | kImport | kIn | kInfer | kInstanceof | kInterface | kIs
  | kKeyof | kLet | kModule | kNamespace | kNew | kNull | kOf | kOverride | kPrivate
  | kProtected | kPublic | kReadonly | kRequire | kReturn | kSatisfies | kSet | kStatic
  | kSuper | kSwitch | kThis | kThrow | kTrue | kTry | kType | kTypeof | kUndefined | kUnique
  | kVar | kVoid | kWhile | kWith | kYield | other
  deriving DecidableEq, Repr, Inhabited

/-- The spelling of every word with a meaning. -/
def Word.table : List (Text × Word) :=
  [("abstract".toList, .kAbstract), ("accessor".toList, .kAccessor), ("as".toList, .kAs),
   ("assert".toList, .kAssert), ("asserts".toList, .kAsserts), ("async".toList, .kAsync),
   ("await".toList, .kAwait), ("break".toList, .kBreak), ("case".toList, .kCase),
   ("catch".toList, .kCatch), ("class".toList, .kClass), ("const".toList, .kConst),
   ("continue".toList, .kContinue), ("debugger".toList, .kDebugger),
   ("declare".toList, .kDeclare), ("default".toList, .kDefault), ("delete".toList, .kDelete),
   ("do".toList, .kDo), ("else".toList, .kElse), ("enum".toList, .kEnum),
   ("export".toList, .kExport), ("extends".toList, .kExtends), ("false".toList, .kFalse),
   ("finally".toList, .kFinally), ("for".toList, .kFor), ("from".toList, .kFrom),
   ("function".toList, .kFunction), ("get".toList, .kGet), ("global".toList, .kGlobal),
   ("if".toList, .kIf), ("implements".toList, .kImplements), ("import".toList, .kImport),
   ("in".toList, .kIn), ("infer".toList, .kInfer), ("instanceof".toList, .kInstanceof),
   ("interface".toList, .kInterface), ("is".toList, .kIs), ("keyof".toList, .kKeyof),
   ("let".toList, .kLet), ("module".toList, .kModule), ("namespace".toList, .kNamespace),
   ("new".toList, .kNew), ("null".toList, .kNull), ("of".toList, .kOf),
   ("override".toList, .kOverride), ("private".toList, .kPrivate),
   ("protected".toList, .kProtected), ("public".toList, .kPublic),
   ("readonly".toList, .kReadonly), ("require".toList, .kRequire), ("return".toList, .kReturn),
   ("satisfies".toList, .kSatisfies), ("set".toList, .kSet), ("static".toList, .kStatic),
   ("super".toList, .kSuper), ("switch".toList, .kSwitch), ("this".toList, .kThis),
   ("throw".toList, .kThrow), ("true".toList, .kTrue), ("try".toList, .kTry),
   ("type".toList, .kType), ("typeof".toList, .kTypeof), ("undefined".toList, .kUndefined),
   ("unique".toList, .kUnique), ("var".toList, .kVar), ("void".toList, .kVoid),
   ("while".toList, .kWhile), ("with".toList, .kWith), ("yield".toList, .kYield)]

/-- The word spelled by a text. -/
def Word.ofText (t : Text) : Word := ((Word.table.lookup t).getD .other)

/-- Punctuation. -/
inductive Punct where
  | lbrace | rbrace | lparen | rparen | lbracket | rbracket
  | dot | ellipsis | semi | comma | colon | question | questionDot | arrow | atSign | backquote
  | lt | gt | le | ge | eq | ne | eqq | nee
  | plus | minus | star | slash | percent | starStar | plusPlus | minusMinus
  | shl | shr | ushr | amp | bar | caret | bang | tilde | ampAmp | barBar | questionQuestion
  | assign | plusAssign | minusAssign | starAssign | slashAssign | percentAssign
  | starStarAssign | shlAssign | shrAssign | ushrAssign | ampAssign | barAssign
  | caretAssign | ampAmpAssign | barBarAssign | questionQuestionAssign
  deriving DecidableEq, Repr, Inhabited

/-- The spelling of punctuation; where one spelling begins another, the longer comes first. -/
def Punct.table : List (Text × Punct) :=
  [("(".toList, .lparen), (")".toList, .rparen), ("\x7b".toList, .lbrace), ("\x7d".toList, .rbrace),
   ("[".toList, .lbracket), ("]".toList, .rbracket), ("...".toList, .ellipsis),
   (".".toList, .dot), (";".toList, .semi), (",".toList, .comma), (":".toList, .colon),
   ("=>".toList, .arrow), ("===".toList, .eqq), ("==".toList, .eq), ("=".toList, .assign),
   ("??=".toList, .questionQuestionAssign), ("??".toList, .questionQuestion),
   ("?.".toList, .questionDot), ("?".toList, .question),
   ("<<=".toList, .shlAssign), ("<<".toList, .shl), ("<=".toList, .le), ("<".toList, .lt),
   (">>>=".toList, .ushrAssign), (">>>".toList, .ushr), (">>=".toList, .shrAssign),
   (">>".toList, .shr), (">=".toList, .ge), (">".toList, .gt),
   ("!==".toList, .nee), ("!=".toList, .ne), ("!".toList, .bang),
   ("&&=".toList, .ampAmpAssign), ("&&".toList, .ampAmp), ("&=".toList, .ampAssign),
   ("&".toList, .amp), ("||=".toList, .barBarAssign), ("||".toList, .barBar),
   ("|=".toList, .barAssign), ("|".toList, .bar), ("+=".toList, .plusAssign),
   ("++".toList, .plusPlus), ("+".toList, .plus), ("-=".toList, .minusAssign),
   ("--".toList, .minusMinus), ("-".toList, .minus), ("**=".toList, .starStarAssign),
   ("**".toList, .starStar), ("*=".toList, .starAssign), ("*".toList, .star),
   ("/=".toList, .slashAssign), ("/".toList, .slash), ("%=".toList, .percentAssign),
   ("%".toList, .percent), ("^=".toList, .caretAssign), ("^".toList, .caret),
   ("~".toList, .tilde), ("@".toList, .atSign), ("`".toList, .backquote)]

/-- A token. `unknown` is text that starts no token. -/
inductive Token where
  | word (w : Word)
  | privateName
  | number
  | string
  | punct (p : Punct)
  | eof
  | unknown
  deriving DecidableEq, Repr, Inhabited

end Promisify
