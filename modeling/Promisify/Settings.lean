import Promisify.Text

set_option autoImplicit false

/-! # Settings in TOML

Reads the part of TOML that settings are written in: one `key = value` a line, where a value is a
truth value, an integer, a string or an array of such values. Tables, dotted keys, fractions and
dates set nothing here, so a text with one of them has no reading.
-/

namespace Promisify

/-- The value of a setting. -/
inductive Setting where
  /-- No value. -/
  | absent
  | bool (b : Bool)
  | integer (n : Int)
  | text (t : Text)
  | list (items : List Setting)
  /-- A value that no setting can have. -/
  | other

namespace Settings

/-- What was read, and the rest of the text. -/
abbrev Read (α : Type) := Option (α × Text)

/-! ## Lines and blanks -/

/-- A blank inside a line. -/
def isBlank (c : Char) : Bool := c == ' ' || c == '\t'

/-- A character that may stand in a comment or a string. -/
def isPlain (c : Char) : Bool := c == '\t' || (0x20 ≤ c.toNat && c.toNat ≠ 0x7F)

/-- The text past the blanks at its front. -/
def skipBlanks (t : Text) : Text := t.dropWhile isBlank

/-- The text past the line break at its front. -/
def lineBreak? : Text → Option Text
  | '\n' :: cs => some cs
  | '\r' :: '\n' :: cs => some cs
  | _ => none

/-- The text past the blanks and the comment at its front. -/
def skipComment (t : Text) : Text :=
  match skipBlanks t with
  | '#' :: cs => cs.dropWhile isPlain
  | cs => cs

/-- The text past the end of a line: blanks, a comment, then a line break or the end. -/
def lineEnd? (t : Text) : Option Text :=
  match skipComment t with
  | [] => some []
  | cs => lineBreak? cs

/-- The text past blanks, comments and line breaks. -/
def skipLines : Nat → Text → Text
  | 0, t => t
  | fuel + 1, t =>
      match lineBreak? (skipComment t) with
      | some rest => skipLines fuel rest
      | none => skipComment t

/-! ## Strings -/

/-- The value of a hexadecimal digit. -/
def hexDigit? (c : Char) : Option Nat :=
  if '0' ≤ c && c ≤ '9' then some (c.toNat - '0'.toNat)
  else if 'a' ≤ c && c ≤ 'f' then some (c.toNat - 'a'.toNat + 10)
  else if 'A' ≤ c && c ≤ 'F' then some (c.toNat - 'A'.toNat + 10)
  else none

/-- The number written in the next `count` hexadecimal digits. -/
def hexNumber? (acc : Nat) : Nat → Text → Read Nat
  | 0, cs => some (acc, cs)
  | _ + 1, [] => none
  | count + 1, c :: cs => (hexDigit? c).bind fun d => hexNumber? (acc * 16 + d) count cs

/-- The character with a number, if it is that of one. -/
def charOf? (r : Nat × Text) : Read Char :=
  if r.1.isValidChar then some (Char.ofNat r.1, r.2) else none

/-- The character that an escape stands for, after its backslash. -/
def escape? : Text → Read Char
  | 'b' :: cs => some ('\x08', cs)
  | 't' :: cs => some ('\t', cs)
  | 'n' :: cs => some ('\n', cs)
  | 'f' :: cs => some ('\x0c', cs)
  | 'r' :: cs => some ('\r', cs)
  | '"' :: cs => some ('"', cs)
  | '\\' :: cs => some ('\\', cs)
  | 'u' :: cs => (hexNumber? 0 4 cs).bind charOf?
  | 'U' :: cs => (hexNumber? 0 8 cs).bind charOf?
  | _ => none

/-- Puts a character in front of what was read. -/
def push (c : Char) (r : Read Text) : Read Text := r.map fun p => (c :: p.1, p.2)

/-- The rest of a string on one line, up to its quote. -/
def string? (quote : Char) : Nat → Text → Read Text
  | 0, _ => none
  | _ + 1, [] => none
  | fuel + 1, c :: cs =>
      if c = quote then some ([], cs)
      else if c = '\\' && quote = '"' then
        (escape? cs).bind fun e => push e.1 (string? quote fuel e.2)
      else if isPlain c then push c (string? quote fuel cs)
      else none

/-- The text past blanks and line breaks. -/
def skipSpace : Nat → Text → Text
  | 0, t => t
  | fuel + 1, t =>
      match lineBreak? (skipBlanks t) with
      | some rest => skipSpace fuel rest
      | none => skipBlanks t

/-- The rest of a string on several lines, up to three quotes. Of more quotes than three the
first two at most belong to the string. -/
def longString? (quote : Char) : Nat → Text → Read Text
  | 0, _ => none
  | fuel + 1, t =>
      let quotes := (t.takeWhile (· == quote)).length
      if 3 ≤ quotes then
        let inside := min (quotes - 3) 2
        some (List.replicate inside quote, t.drop (inside + 3))
      else
        match t with
        | [] => none
        | c :: cs =>
            match lineBreak? t with
            | some rest => push '\n' (longString? quote fuel rest)
            | none =>
                if c = '\\' && quote = '"' then
                  match lineBreak? (skipBlanks cs) with
                  | some rest => longString? quote fuel (skipSpace fuel rest)
                  | none => (escape? cs).bind fun e => push e.1 (longString? quote fuel e.2)
                else if isPlain c then push c (longString? quote fuel cs)
                else none

/-- The text past a line break at its front, if there is one. -/
def dropLineBreak (t : Text) : Text := (lineBreak? t).getD t

/-- A string at the front of a text. -/
def quoted? (fuel : Nat) : Text → Read Text
  | '"' :: '"' :: '"' :: cs => longString? '"' fuel (dropLineBreak cs)
  | '\'' :: '\'' :: '\'' :: cs => longString? '\'' fuel (dropLineBreak cs)
  | '"' :: cs => string? '"' fuel cs
  | '\'' :: cs => string? '\'' fuel cs
  | _ => none

/-! ## Numbers -/

/-- The value of a digit below `base`. -/
def digit? (base : Nat) (c : Char) : Option Nat :=
  (hexDigit? c).bind fun d => if d < base then some d else none

/-- The number written by digits with single underscores between them. -/
def digits? (base acc : Nat) : Text → Option Nat
  | [] => none
  | [c] => (digit? base c).map fun d => acc * base + d
  | c :: '_' :: cs => (digit? base c).bind fun d => digits? base (acc * base + d) cs
  | c :: d :: cs => (digit? base c).bind fun v => digits? base (acc * base + v) (d :: cs)

/-- The number written by decimal digits; a zero stands at the front of no other digit. -/
def decimal? : Text → Option Nat
  | ['0'] => some 0
  | '0' :: _ => none
  | cs => digits? 10 0 cs

/-- The integer a word writes, if it fits in 64 bits with a sign. -/
def integer? (word : Text) : Option Int :=
  let limited (n : Int) : Option Int :=
    if -(Int.pow 2 63) ≤ n && n < Int.pow 2 63 then some n else none
  match word with
  | '0' :: 'x' :: cs => (digits? 16 0 cs).bind fun n => limited n
  | '0' :: 'o' :: cs => (digits? 8 0 cs).bind fun n => limited n
  | '0' :: 'b' :: cs => (digits? 2 0 cs).bind fun n => limited n
  | '-' :: cs => (decimal? cs).bind fun n => limited (-(n : Int))
  | '+' :: cs => (decimal? cs).bind fun n => limited n
  | cs => (decimal? cs).bind fun n => limited n

/-- A character of a number, a date or a word. -/
def isWordChar (c : Char) : Bool :=
  c.isAlphanum || c == '_' || c == '+' || c == '-' || c == '.' || c == ':'

/-- The value that a word stands for. -/
def wordValue? (word : Text) : Option Setting :=
  if word = "true".toList then some (.bool true)
  else if word = "false".toList then some (.bool false)
  else (integer? word).map .integer

/-! ## Values -/

mutual

/-- A value at the front of a text. -/
def value? : Nat → Text → Read Setting
  | 0, _ => none
  | fuel + 1, t =>
      match t with
      | '[' :: cs => (items? fuel (skipLines fuel cs)).map fun r => (.list r.1, r.2)
      | c :: cs =>
          if c = '"' || c = '\'' then (quoted? fuel t).map fun r => (.text r.1, r.2)
          else
            (wordValue? ((c :: cs).takeWhile isWordChar)).map fun v =>
              (v, (c :: cs).dropWhile isWordChar)
      | [] => none

/-- The items of an array up to its bracket. -/
def items? : Nat → Text → Option (List Setting × Text)
  | 0, _ => none
  | fuel + 1, t =>
      match t with
      | ']' :: cs => some ([], cs)
      | _ => do
          let (v, rest) ← value? fuel t
          match skipLines fuel rest with
          | ',' :: more =>
              let (vs, rest) ← items? fuel (skipLines fuel more)
              return (v :: vs, rest)
          | ']' :: more => return ([v], more)
          | _ => none

end

/-- A character of a key without quotes. -/
def isKeyChar (c : Char) : Bool := c.isAlphanum || c == '_' || c == '-'

/-- A key at the front of a text. -/
def key? (fuel : Nat) (t : Text) : Read Text :=
  match t with
  | '"' :: cs => string? '"' fuel cs
  | '\'' :: cs => string? '\'' fuel cs
  | _ =>
      let word := t.takeWhile isKeyChar
      if word.isEmpty then none else some (word, t.dropWhile isKeyChar)

/-- A key with its value at the front of a text. -/
def entry? (fuel : Nat) (t : Text) : Option ((Text × Setting) × Text) := do
  let (key, rest) ← key? fuel t
  match skipBlanks rest with
  | '=' :: more =>
      let (v, rest) ← value? fuel (skipBlanks more)
      return ((key, v), rest)
  | _ => none

/-- The settings of the lines of a text. -/
def lines? : Nat → Text → Option (List (Text × Setting))
  | 0, _ => none
  | fuel + 1, t =>
      match skipLines fuel t with
      | [] => some []
      | rest => do
          let (e, more) ← entry? fuel rest
          let next ← lineEnd? more
          let es ← lines? fuel next
          return e :: es

/-- The text past a mark of the byte order at its front. -/
def skipMark : Text → Text
  | c :: cs => if c.toNat = 0xFEFF then cs else c :: cs
  | [] => []

/-- The settings written in a text. -/
def read? (t : Text) : Option (List (Text × Setting)) :=
  lines? (2 * t.length + 4) (skipMark t)

end Settings

end Promisify
