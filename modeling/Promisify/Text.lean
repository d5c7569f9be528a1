set_option autoImplicit false

/-! # Text addressed by byte offsets

A text is the list of its characters. Every offset in this library counts bytes of the UTF-8
form, so an offset can lie past the end of a text or inside a character. Cutting a text at such
an offset has no result: `splitAt?` and `slice?` are `none` there.
-/

namespace Promisify

/-- A text, as its characters. -/
abbrev Text := List Char

/-- The bytes from `start` up to but not including `stop`. -/
structure Span where
  start : Nat
  stop : Nat
  deriving DecidableEq, Repr, Inhabited

/-- The same bytes, counted from `k` bytes further back. -/
def Span.shift (k : Nat) (s : Span) : Span := ⟨k + s.start, k + s.stop⟩

/-- `s` lies inside `t`. -/
def Span.within (s t : Span) : Bool := t.start ≤ s.start && s.stop ≤ t.stop

/-- A line and a column, both counted from zero; the column counts bytes. -/
structure Point where
  row : Nat
  column : Nat
  deriving DecidableEq, Repr, Inhabited

namespace Text

/-- The number of bytes of the UTF-8 form. -/
def size : Text → Nat
  | [] => 0
  | c :: cs => c.utf8Size + size cs

/-- The text before and the text from the byte offset `n`. There is no such pair when `n` lies
past the end or inside a character. -/
def splitAt? : Nat → Text → Option (Text × Text)
  | 0, cs => some ([], cs)
  | _ + 1, [] => none
  | n + 1, c :: cs =>
      if c.utf8Size ≤ n + 1 then
        (splitAt? (n + 1 - c.utf8Size) cs).map fun p => (c :: p.1, p.2)
      else none

/-- The text between two byte offsets. There is none when the offsets are reversed, lie past
the end or lie inside a character. -/
def slice? (t : Text) (start stop : Nat) : Option Text :=
  if start ≤ stop then
    (splitAt? start t).bind fun p => (splitAt? (stop - start) p.2).map Prod.fst
  else none

/-- The text of a span. -/
def span? (t : Text) (s : Span) : Option Text := slice? t s.start s.stop

/-- What follows `lead` when the text starts with it. -/
def after? : Text → Text → Option Text
  | [], cs => some cs
  | _ :: _, [] => none
  | l :: ls, c :: cs => if l = c then after? ls cs else none

/-- Whether the text ends with `c`. -/
def endsWith (c : Char) (t : Text) : Bool := t.getLast? == some c

/-- The line and column after reading `n` bytes from the point `p`. An offset inside a
character belongs to the character before it. -/
def pointFrom (p : Point) : Nat → Text → Point
  | 0, _ => p
  | _ + 1, [] => p
  | n + 1, c :: cs =>
      let next := if c = '\n' then ⟨p.row + 1, 0⟩ else ⟨p.row, p.column + c.utf8Size⟩
      pointFrom next (n + 1 - c.utf8Size) cs

/-- The line and column of the byte offset `n`. -/
def pointAt (t : Text) (n : Nat) : Point := pointFrom ⟨0, 0⟩ n t

/-- Reads units off the front of a text. `width` says how many characters the unit at the head
takes, zero meaning that no unit starts there; `pending` characters of the unit being read are
still to come. -/
def munch (width : Text → Nat) (pending : Nat) : Text → Text × Text
  | [] => ([], [])
  | c :: cs =>
      match pending with
      | k + 1 =>
          let p := munch width k cs
          (c :: p.1, p.2)
      | 0 =>
          match width (c :: cs) with
          | 0 => ([], c :: cs)
          | k + 1 =>
              let p := munch width k cs
              (c :: p.1, p.2)

/-- The texts joined with `sep` between neighbours. -/
def join (sep : Text) : List Text → Text
  | [] => []
  | [t] => t
  | t :: u :: ts => t ++ sep ++ join sep (u :: ts)

end Text

end Promisify
