import Promisify.Syntax.Token

set_option autoImplicit false

/-! # Scanning

`scan` reads the token at the head of a text; `trivia` reads the white space and comments
before it. Both take the longest match. A slash is always read as punctuation here: where an
expression may start, the grammar reads a regular expression instead (`scanRegex`).
-/

namespace Promisify

namespace Lexer

open Text

/-! ## Character classes -/

/-- White space that separates tokens: the Unicode white space characters, the byte order mark,
the word joiner and the zero width space. -/
def isSpace (c : Char) : Bool :=
  let n := c.toNat
  (9 ≤ n && n ≤ 13) || n == 32 || n == 0x85 || n == 0xA0 || n == 0x1680
    || (0x2000 ≤ n && n ≤ 0x200B) || n == 0x2028 || n == 0x2029 || n == 0x202F
    || n == 0x205F || n == 0x2060 || n == 0x3000 || n == 0xFEFF

/-- White space in the sense of the end of a statement: ASCII only. -/
def isBlank (c : Char) : Bool := (9 ≤ c.toNat && c.toNat ≤ 13) || c == ' '

/-- A character that can stand inside a name. -/
def isNamePart (c : Char) : Bool :=
  let n := c.toNat
  if n < 128 then
    (97 ≤ n && n ≤ 122) || (65 ≤ n && n ≤ 90) || (48 ≤ n && n ≤ 57) || n == 95 || n == 36
      || n == 127
  else !isSpace c

/-- A character that can start a name. -/
def isNameStart (c : Char) : Bool := isNamePart c && !c.isDigit

/-- A hexadecimal digit. -/
def isHex (c : Char) : Bool :=
  c.isDigit || ('a' ≤ c && c ≤ 'f') || ('A' ≤ c && c ≤ 'F')

/-- An octal digit. -/
def isOctal (c : Char) : Bool := '0' ≤ c && c ≤ '7'

/-- A binary digit. -/
def isBinary (c : Char) : Bool := c == '0' || c == '1'

/-! ## Names and escapes -/

/-- Characters of a `\u` escape after the backslash: `u` and four hexadecimal digits, or `u` and
hexadecimal digits in braces; zero when it is neither. -/
def unicodeEscapeWidth : Text → Nat
  | 'u' :: '\x7b' :: cs =>
      let digits := (cs.takeWhile isHex).length
      if digits = 0 then 0 else if cs[digits]? = some '\x7d' then digits + 3 else 0
  | 'u' :: a :: b :: c :: d :: _ =>
      if isHex a && isHex b && isHex c && isHex d then 5 else 0
  | _ => 0

/-- Characters of the unit of a name at the head of a text. -/
def nameUnit (ok : Char → Bool) : Text → Nat
  | '\\' :: cs =>
      match unicodeEscapeWidth cs with
      | 0 => 0
      | n + 1 => n + 2
  | c :: _ => if ok c then 1 else 0
  | [] => 0

/-- The name at the head of a text, with what follows it. -/
def scanName (t : Text) : Text × Text :=
  match nameUnit isNameStart t with
  | 0 => ([], t)
  | _ + 1 => munch (nameUnit isNamePart) 0 t

/-- Characters of an escape after the backslash; zero when it is malformed. -/
def escapeWidth : Text → Nat
  | [] => 0
  | 'x' :: a :: b :: _ => if isHex a && isHex b then 3 else 0
  | 'x' :: _ => 0
  | 'u' :: cs => unicodeEscapeWidth ('u' :: cs)
  | '\r' :: '\n' :: _ => 2
  | _ :: _ => 1

/-- Characters of the unit of a quoted string at the head of a text. -/
def stringUnit (quote : Char) : Text → Nat
  | [] => 0
  | '\\' :: cs =>
      match escapeWidth cs with
      | 0 => 0
      | n + 1 => n + 2
  | c :: _ => if c == quote || c == '\r' || c == '\n' then 0 else 1

/-- The rest of a string after its opening quote, and what follows its closing one. -/
def scanString? (quote : Char) (t : Text) : Option (Text × Text) :=
  match munch (stringUnit quote) 0 t with
  | (body, c :: rest) => if c == quote then some (body ++ [c], rest) else none
  | (_, []) => none

/-- Characters of the unit of a template's text at the head of a text; a backquote and the
opening of a substitution end it. -/
def templateUnit : Text → Nat
  | [] => 0
  | '`' :: _ => 0
  | '$' :: '\x7b' :: _ => 0
  | '\\' :: cs =>
      match escapeWidth cs with
      | 0 => 0
      | n + 1 => n + 2
  | _ :: _ => 1

/-! ## Comments and white space -/

/-- Whether a character ends a line comment. -/
def endsLine (c : Char) : Bool :=
  c == '\n' || c == '\r' || c.toNat == 0x2028 || c.toNat == 0x2029

/-- Characters of a block comment after its opening, up to and including its close; zero when
it is never closed. -/
def blockRest : Text → Nat
  | [] => 0
  | '*' :: '/' :: _ => 2
  | _ :: cs =>
      match blockRest cs with
      | 0 => 0
      | n + 1 => n + 2

/-- Characters of the comment at the head of a text, zero when there is none. -/
def commentWidth : Text → Nat
  | '/' :: '/' :: cs => 2 + (cs.takeWhile fun c => !endsLine c).length
  | '/' :: '*' :: cs =>
      match blockRest cs with
      | 0 => 0
      | n + 1 => n + 3
  | _ => 0

/-- Characters of the white space character or comment at the head of a text. -/
def triviaUnit : Text → Nat
  | [] => 0
  | c :: cs => if isSpace c then 1 else commentWidth (c :: cs)

/-- The white space and comments at the head of a text, and what follows them. -/
def trivia (t : Text) : Text × Text := munch triviaUnit 0 t

/-- The comments of a stretch of white space and comments that starts at the offset `pos`.
`pending` characters of the comment being read are still to come. -/
def commentSpans (pos pending : Nat) (opened : Nat) : Text → List Span
  | [] => []
  | c :: cs =>
      match pending with
      | k + 2 => commentSpans (pos + c.utf8Size) (k + 1) opened cs
      | 1 => ⟨opened, pos + c.utf8Size⟩ :: commentSpans (pos + c.utf8Size) 0 0 cs
      | 0 =>
          match commentWidth (c :: cs) with
          | k + 1 => commentSpans (pos + c.utf8Size) k pos cs
          | 0 => commentSpans (pos + c.utf8Size) 0 0 cs

/-! ## Numbers -/

/-- Characters of a run of digits with single `_` between them; `sep` tells whether a digit has
just been read. -/
def digitsWidth (ok : Char → Bool) (sep : Bool) : Text → Nat
  | [] => 0
  | '_' :: c :: cs =>
      if sep && ok c then
        match digitsWidth ok true (c :: cs) with
        | 0 => 0
        | n + 1 => n + 2
      else 0
  | c :: cs => if ok c then digitsWidth ok true cs + 1 else 0

/-- Characters of an exponent: a letter, an optional sign and digits. -/
def exponentWidth : Text → Nat
  | e :: s :: cs =>
      if e == 'e' || e == 'E' then
        if s == '+' || s == '-' then
          match digitsWidth Char.isDigit false cs with
          | 0 => 0
          | n + 1 => n + 3
        else
          match digitsWidth Char.isDigit false (s :: cs) with
          | 0 => 0
          | n + 1 => n + 2
      else 0
  | _ => 0

/-- Characters of the prefixed literal `0x`, `0o` or `0b` at the head of a text. -/
def prefixedWidth : Text → Nat
  | '0' :: p :: cs =>
      let digits :=
        if p == 'x' || p == 'X' then digitsWidth isHex false cs
        else if p == 'o' || p == 'O' then digitsWidth isOctal false cs
        else if p == 'b' || p == 'B' then digitsWidth isBinary false cs
        else 0
      if digits = 0 then 0 else digits + 2
  | _ => 0

/-- Whether digits can be the integer part of a fraction: a zero, or digits of which the first,
or the one after a leading zero, is not zero. -/
def isIntegerPart : Text → Bool
  | ['0'] => true
  | '0' :: c :: _ => c.isDigit && c != '0'
  | c :: _ => c.isDigit
  | [] => false

/-- Characters of the decimal literal at the head of a text. -/
def decimalWidth (t : Text) : Nat :=
  match t with
  | '.' :: cs =>
      match digitsWidth Char.isDigit false cs with
      | 0 => 0
      | n + 1 => n + 2 + exponentWidth (cs.drop (n + 1))
  | _ =>
      let whole := digitsWidth Char.isDigit false t
      if isIntegerPart (t.take whole) then
        match t.drop whole with
        | '.' :: cs =>
            let frac := digitsWidth Char.isDigit false cs
            whole + 1 + frac + exponentWidth (cs.drop frac)
        | cs => whole + exponentWidth cs
      else whole

/-- Characters of the numeric literal at the head of a text. A literal with a fraction or an
exponent takes no suffix `n`. -/
def numberWidth (t : Text) : Nat :=
  let whole := match prefixedWidth t with
    | 0 => digitsWidth Char.isDigit false t
    | n + 1 => n + 1
  if whole ≠ 0 && t[whole]? = some 'n' then whole + 1
  else max whole (decimalWidth t)

/-! ## Regular expressions -/

/-- Characters of the unit of a regular expression at the head of a text; a class in brackets
is one unit. -/
def regexUnit : Text → Nat
  | [] => 0
  | '\\' :: c :: _ => if c == '\n' then 0 else 2
  | '[' :: cs =>
      let body := munch (fun t => match t with
        | [] => 0
        | '\\' :: c :: _ => if c == '\n' then 0 else 2
        | c :: _ => if c == ']' || c == '\n' || c == '\\' then 0 else 1) 0 cs
      match body with
      | (inner, ']' :: _) => inner.length + 2
      | _ => 0
  | c :: _ => if c == '/' || c == '\n' || c == '\\' then 0 else 1

/-- The regular expression whose opening slash heads a text, and what follows its flags. -/
def scanRegex? : Text → Option (Text × Text)
  | '/' :: cs =>
      match munch regexUnit 0 cs with
      | ([], _) => none
      | (body, '/' :: rest) =>
          let flags := rest.takeWhile Char.isLower
          some ('/' :: body ++ '/' :: flags, rest.dropWhile Char.isLower)
      | _ => none
  | _ => none

/-! ## Tokens -/

/-- The punctuation at the head of a text, and what follows it. -/
def scanPunct (table : List (Text × Punct)) (t : Text) : Option (Punct × Text) :=
  match table with
  | [] => none
  | (spelling, p) :: more =>
      match after? spelling t with
      | some rest => some (p, rest)
      | none => scanPunct more t

/-- A token with the text it covers and the text after it. -/
structure Scanned where
  token : Token
  taken : Text
  rest : Text

/-- The token at the head of a text that starts with neither white space nor a comment. -/
def scan (t : Text) : Scanned :=
  match t with
  | [] => ⟨.eof, [], []⟩
  | c :: cs =>
      if isNameStart c || c == '\\' then
        match scanName t with
        | ([], _) => ⟨.unknown, [c], cs⟩
        | (name, rest) => ⟨.word (Word.ofText name), name, rest⟩
      else if c.isDigit || (c == '.' && (cs.head?.map Char.isDigit).getD false) then
        let n := numberWidth t
        ⟨.number, t.take n, t.drop n⟩
      else if c == '"' || c == '\'' then
        match scanString? c cs with
        | some (body, rest) => ⟨.string, c :: body, rest⟩
        | none => ⟨.unknown, [c], cs⟩
      else if c == '#' then
        match scanName cs with
        | ([], _) => ⟨.unknown, [c], cs⟩
        | (name, rest) => ⟨.privateName, c :: name, rest⟩
      else
        match scanPunct Punct.table t with
        | some (.questionDot, d :: rest) =>
            if d.isDigit then ⟨.punct .question, [c], cs⟩
            else ⟨.punct .questionDot, ['?', '.'], d :: rest⟩
        | some (p, rest) => ⟨.punct p, t.take (t.length - rest.length), rest⟩
        | none => ⟨.unknown, [c], cs⟩

/-! ## Where a statement may end without a semicolon -/

/-- What has just been read where a statement could end; it decides which next characters
continue the statement on a new line. -/
inductive Border where
  /-- Inside a statement: nothing ends here. -/
  | inner
  /-- After an expression: a parenthesis or bracket on the next line continues it. -/
  | value
  /-- After anything else. -/
  | bare
  /-- After the head of a function: a body may follow on the next line. -/
  | signature
  deriving DecidableEq, Repr

/-- Blanks and comments, as skipped when looking for the first character of the next line. A
slash that opens no comment has no result. `pending` characters are still to be skipped. -/
def nextLineHead (pending : Nat) : Text → Option Text
  | [] => some []
  | c :: cs =>
      match pending with
      | k + 1 => nextLineHead k cs
      | 0 =>
          if isBlank c then nextLineHead 0 cs
          else if c == '/' then
            match cs with
            | '/' :: ds => nextLineHead (1 + (ds.takeWhile (· != '\n')).length) cs
            | '*' :: ds =>
                match blockRest ds with
                | 0 => nextLineHead (ds.length + 1) cs
                | k + 1 => nextLineHead (k + 2) cs
            | _ => none
          else some (c :: cs)

/-- Whether a new line that starts with this text starts a new statement. -/
def startsStatement (b : Border) : Text → Bool
  | [] => true
  | '+' :: cs => cs.head? == some '+'
  | '-' :: cs => cs.head? == some '-'
  | '!' :: cs => !(cs.head? == some '=')
  | 'i' :: 'n' :: cs =>
      if !((cs.head?.map Char.isAlpha).getD false) then false
      else match after? "stanceof".toList cs with
        | none => true
        | some rest => (rest.head?.map Char.isAlpha).getD false
  | '(' :: _ => !(b == .value)
  | '[' :: _ => !(b == .value)
  | '\x7b' :: _ => !(b == .signature)
  | c :: _ => !(("`,.;*%><=?^|&/:".toList).contains c)

/-- Whether a statement ends before a closing brace: not when a colon follows the brace, unless
an expression has just been read. -/
def endsBeforeBrace (b : Border) (afterBrace : Text) : Bool :=
  match afterBrace.dropWhile isBlank with
  | ':' :: _ => b == .value
  | _ => true

/-- The place after the offset `pos` where a statement ends without a semicolon, with the text
from there. Comments on the same line belong to the statement. `pending` characters of such a
comment are still to be skipped; `at?` is where blanks after the last comment begin. -/
def lineEndFrom (b : Border) (pos pending : Nat) (stop : Nat × Text) : Text → Option (Nat × Text)
  | [] => some stop
  | c :: cs =>
      let next := pos + c.utf8Size
      match pending with
      | k + 2 => lineEndFrom b next (k + 1) stop cs
      | 1 => lineEndFrom b next 0 (next, cs) cs
      | 0 =>
          if c == '\n' then
            match nextLineHead 0 cs with
            | some t => if startsStatement b t then some stop else none
            | none => none
          else if isBlank c then lineEndFrom b next 0 stop cs
          else if c == '\x7d' then if endsBeforeBrace b cs then some stop else none
          else
            -- other white space runs up to the next token; only a comment gives another chance
            match trivia (c :: cs) with
            | (skipped, _) =>
                let spaces := skipped.takeWhile isSpace
                match commentWidth (skipped.drop spaces.length) with
                | 0 => none
                | n + 1 => lineEndFrom b next (spaces.length + n) stop cs

/-- Where a statement whose last token ends at `pos` ends without a semicolon, given the text
after that token. -/
def lineEnd? (b : Border) (pos : Nat) (gap : Text) : Option (Nat × Text) :=
  if b == .inner then none else lineEndFrom b pos 0 (pos, gap) gap

end Lexer

end Promisify
