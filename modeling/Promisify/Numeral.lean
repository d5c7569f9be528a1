import Promisify.Text

set_option autoImplicit false

/-! # Values of numeric literals

The value of a literal is a double: the exact value rounded to the nearest one, a tie going to
the one with an even significand. Doubles are written as their 64 bits.
-/

namespace Promisify

/-- A double: the bits of a number or an infinity, or no number at all. -/
inductive Double where
  | bits (b : Nat)
  | nan
  deriving DecidableEq, Repr

namespace Double

/-- The bits of the sign, of the implicit leading digit, of infinity. -/
def signBit : Nat := Nat.pow 2 63
def hiddenBit : Nat := Nat.pow 2 52
def infinity : Nat := 0x7FF * Nat.pow 2 52

/-- The number one. -/
def one : Double := .bits (0x3FF * Nat.pow 2 52)

/-- The quotient `num / den` rounded to a whole number, a tie going to the even one. -/
def roundQuotient (num den : Nat) : Nat :=
  let q := num / den
  let r := num % den
  if 2 * r < den then q
  else if den < 2 * r then q + 1
  else if q % 2 = 0 then q else q + 1

/-- The exponent `e` of the unit in the last place of a number `num / den` that is not zero, so
that the number has at most 53 digits in front of that place. -/
def lastPlace (num den : Nat) : Int :=
  let e : Int := (num.log2 : Int) - (den.log2 : Int) - 52
  let shifted := if 0 ≤ e then num < Nat.pow 2 52 * (den * Nat.pow 2 e.toNat)
    else num * Nat.pow 2 (-e).toNat < Nat.pow 2 52 * den
  max (if shifted then e - 1 else e) (-1074)

/-- The bits of the double nearest to `num / den`. -/
def nearest (num den : Nat) : Nat :=
  if num = 0 then 0
  else
    let e := lastPlace num den
    let m := if 0 ≤ e then roundQuotient num (den * Nat.pow 2 e.toNat)
      else roundQuotient (num * Nat.pow 2 (-e).toNat) den
    -- a significand that rounds up to the next power of two carries into the exponent
    let bits := (e + 1074).toNat * hiddenBit + m
    min bits infinity

/-- The bits of the double nearest to `digits * 10 ^ exponent`. A number that is not zero is
beyond every double when its exponent is large, and rounds to zero when its exponent is far
below the negative of its number of digits. -/
def ofDecimal (digits : Nat) (exponent : Int) : Nat :=
  if digits = 0 then 0
  else if 400 < exponent then infinity
  else if exponent + digits.log2 < -400 then 0
  else if 0 ≤ exponent then nearest (digits * Nat.pow 10 exponent.toNat) 1
  else nearest digits (Nat.pow 10 (-exponent).toNat)

end Double

namespace Numeral

/-- The value of a digit, in any base up to sixteen. -/
def digitValue? (c : Char) : Option Nat :=
  let n := c.toNat
  if 48 ≤ n && n ≤ 57 then some (n - 48)
  else if 97 ≤ n && n ≤ 102 then some (n - 87)
  else if 65 ≤ n && n ≤ 70 then some (n - 55)
  else none

/-- The value of digits in a base, read on from `acc`. -/
def digitsFrom? (base acc : Nat) : Text → Option Nat
  | [] => some acc
  | c :: cs =>
      match digitValue? c with
      | some d => if d < base then digitsFrom? base (acc * base + d) cs else none
      | none => none

/-- The value of a text of digits in a base; there must be one. -/
def digits? (base : Nat) (t : Text) : Option Nat :=
  if t.isEmpty then none else digitsFrom? base 0 t

/-- The value of digits after a prefix such as `0x`: one leading `+` is allowed, and the value
must fit into 64 bits. -/
def unsigned? (base : Nat) (t : Text) : Option Nat :=
  let body := match t with
    | '+' :: cs => cs
    | cs => cs
  (digits? base body).bind fun n => if n < Nat.pow 2 64 then some n else none

/-- An exponent with its sign, or zero when there is none. -/
def exponent? : Text → Option Int
  | [] => some 0
  | 'e' :: '-' :: cs => (digits? 10 cs).map fun n => -(n : Int)
  | 'e' :: '+' :: cs => (digits? 10 cs).map fun n => (n : Int)
  | 'e' :: cs => (digits? 10 cs).map fun n => (n : Int)
  | _ => none

/-- The bits of a decimal number without a sign, in lower case. -/
def decimal? (t : Text) : Option Nat :=
  let whole := t.takeWhile Char.isDigit
  let (frac, tail) := match t.dropWhile Char.isDigit with
    | '.' :: cs => (cs.takeWhile Char.isDigit, cs.dropWhile Char.isDigit)
    | cs => ([], cs)
  do
    let digits ← digits? 10 (whole ++ frac)
    let exponent ← exponent? tail
    return Double.ofDecimal digits (exponent - frac.length)

/-- The bits of a decimal number or the name of an infinity, or no number, without a sign. -/
def magnitude? (t : Text) : Option Double :=
  if t = "nan".toList then some .nan
  else if t = "inf".toList || t = "infinity".toList then some (.bits Double.infinity)
  else (decimal? t).map .bits

/-- A number in base ten with an optional sign, in lower case. -/
def float? : Text → Option Double
  | '-' :: cs => (magnitude? cs).map fun
      | .bits b => .bits (b + Double.signBit)
      | .nan => .nan
  | '+' :: cs => magnitude? cs
  | cs => magnitude? cs

/-- The value of a numeric literal. A literal with the suffix `n` has none. -/
def value? (literal : Text) : Option Double :=
  if literal.endsWith 'n' then none
  else
    let lower := (literal.filter (· != '_')).map Char.toLower
    let radix (base : Nat) (rest : Text) : Option Double :=
      (unsigned? base rest).map fun n => .bits (Double.nearest n 1)
    match lower with
    | '0' :: 'x' :: rest => radix 16 rest
    | '0' :: 'o' :: rest => radix 8 rest
    | '0' :: 'b' :: rest => radix 2 rest
    | _ => float? lower

end Numeral

end Promisify
