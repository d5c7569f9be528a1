import Mathlib.Data.Nat.Digits.Defs
import Promisify.Proofs.Doubles
import Promisify.Proofs.Trimming

set_option autoImplicit false

/-! # Numeric literals

A literal is built from its digits (`Numeral.Literal`), so that there is nothing but well-formed ones: a
prefix and digits of its base, or a decimal number with a point and an exponent. Digits may have
separators between them, and letters may be in either case. Its value is exact, a rational number.

Reading first takes out the separators and the upper case. What is left is read as digits of a base
(`Numeral.value?_prefixed`), or as digits with a power of ten (`Numeral.value?_decimal`), and both are
rounded. So a literal is read as one exactly when its value is near enough to one.
-/

namespace Promisify

namespace Numeral

/-! ## Digits -/

/-- A digit of a base. Those from ten on are letters, in either case. -/
structure Digit (base : Nat) where
  value : Fin base
  upper : Bool
  deriving DecidableEq, Repr

namespace Digit

/-- The digit in lower case. -/
def lower {base : Nat} (d : Digit base) : Char := Nat.digitChar d.value

/-- The digit as it is written. -/
def char {base : Nat} (d : Digit base) : Char := if d.upper then d.lower.toUpper else d.lower

variable {base : Nat} (d : Digit base)

theorem toLower_char (hbase : base ≤ 16) : d.char.toLower = d.lower := by
  have h : ∀ (n : Fin 16) (upper : Bool),
      (if upper then (Nat.digitChar n).toUpper else Nat.digitChar n).toLower = Nat.digitChar n := by
    decide
  exact h (d.value.castLE hbase) d.upper

theorem char_ne_separator (hbase : base ≤ 16) : d.char ≠ '_' := by
  have h : ∀ (n : Fin 16) (upper : Bool),
      (if upper then (Nat.digitChar n).toUpper else Nat.digitChar n) ≠ '_' := by decide
  exact h (d.value.castLE hbase) d.upper

theorem digitValue?_lower (hbase : base ≤ 16) : digitValue? d.lower = some d.value.val := by
  have h : ∀ n : Fin 16, digitValue? (Nat.digitChar n) = some n.val := by decide
  exact h (d.value.castLE hbase)

theorem lower_ne_suffix (hbase : base ≤ 16) : d.lower ≠ 'n' := by
  have h : ∀ n : Fin 16, Nat.digitChar n ≠ 'n' := by decide
  exact h (d.value.castLE hbase)

theorem isDigit_lower (d : Digit 10) : d.lower.isDigit = true := by
  have h : ∀ n : Fin 10, (Nat.digitChar n).isDigit = true := by decide
  exact h d.value

end Digit

/-- Digits of a base, with a separator in front of some of those behind the first. -/
structure Digits (base : Nat) where
  first : Digit base
  rest : List (Bool × Digit base)
  deriving DecidableEq, Repr

/-- The number that digits in a row stand for, the last one counting ones. -/
def positional {base : Nat} (ds : List (Digit base)) : Nat :=
  Nat.ofDigits base (ds.map fun d => d.value.val).reverse

theorem positional_append {base : Nat} (ds es : List (Digit base)) :
    positional (ds ++ es) = positional ds * base ^ es.length + positional es := by
  simp only [positional, List.map_append, List.reverse_append, Nat.ofDigits_append, List.length_reverse,
    List.length_map]
  ring

/-- Further digits as they are written, each with or without a separator in front. -/
def separated {base : Nat} : List (Bool × Digit base) → Text
  | [] => []
  | (true, d) :: ds => '_' :: d.char :: separated ds
  | (false, d) :: ds => d.char :: separated ds

namespace Digits

variable {base : Nat} (ds : Digits base)

/-- The digits without their separators. -/
def all : List (Digit base) := ds.first :: ds.rest.map Prod.snd

/-- The digits as they are written. -/
def text : Text := ds.first.char :: separated ds.rest

/-- The number that the digits stand for. -/
def value : Nat := positional ds.all

theorem all_ne_nil : ds.all ≠ [] := List.cons_ne_nil _ _

end Digits

/-- What is left of a literal without its separators, in lower case. -/
def plain (t : Text) : Text := (t.filter (· != '_')).map Char.toLower

theorem plain_append (t u : Text) : plain (t ++ u) = plain t ++ plain u := by simp [plain]

theorem plain_cons_digit {base : Nat} (d : Digit base) (hbase : base ≤ 16) (t : Text) :
    plain (d.char :: t) = d.lower :: plain t := by
  simp [plain, d.char_ne_separator hbase, d.toLower_char hbase]

theorem plain_cons_separator (t : Text) : plain ('_' :: t) = plain t := by simp [plain]

theorem plain_digits {base : Nat} (ds : Digits base) (hbase : base ≤ 16) :
    plain ds.text = ds.all.map Digit.lower := by
  have hrest : ∀ rest : List (Bool × Digit base),
      plain (separated rest) = (rest.map Prod.snd).map Digit.lower := by
    intro rest
    induction rest with
    | nil => rfl
    | cons d rest ih =>
        obtain ⟨marked, d⟩ := d
        cases marked with
        | true => rw [separated, plain_cons_separator, plain_cons_digit d hbase, ih]; rfl
        | false => rw [separated, plain_cons_digit d hbase, ih]; rfl
  rw [Digits.text, plain_cons_digit _ hbase, hrest]
  rfl

/-- Reading digits on from `acc` puts them behind it. -/
theorem digitsFrom?_map {base : Nat} (hbase : base ≤ 16) (acc : Nat) (ds : List (Digit base)) :
    digitsFrom? base acc (ds.map Digit.lower) = some (acc * base ^ ds.length + positional ds) := by
  induction ds generalizing acc with
  | nil => simp [digitsFrom?, positional]
  | cons d ds ih =>
      simp only [List.map_cons, digitsFrom?, d.digitValue?_lower hbase, if_pos d.value.isLt, ih]
      simp only [positional, List.map_cons, List.reverse_cons, Nat.ofDigits_append, Nat.ofDigits_singleton,
        List.length_reverse, List.length_map, List.length_cons]
      congr 1
      ring

theorem digits?_map {base : Nat} (hbase : base ≤ 16) {ds : List (Digit base)} (hds : ds ≠ []) :
    digits? base (ds.map Digit.lower) = some (positional ds) := by
  rw [digits?, if_neg (by simp [hds]), digitsFrom?_map hbase]
  simp

/-! ## Literals -/

/-- The bases that a prefix stands for. -/
inductive Radix where
  | binary
  | octal
  | hexadecimal
  deriving DecidableEq, Repr

namespace Radix

/-- The number of digits there are. -/
def base : Radix → Nat
  | binary => 2
  | octal => 8
  | hexadecimal => 16

/-- The letter behind the zero of the prefix. -/
def letter : Radix → Char
  | binary => 'b'
  | octal => 'o'
  | hexadecimal => 'x'

theorem base_le (r : Radix) : r.base ≤ 16 := by cases r <;> decide

end Radix

/-- The sign of an exponent. -/
inductive Sign where
  | absent
  | plus
  | minus
  deriving DecidableEq, Repr

/-- The sign as it is written. -/
def Sign.text : Sign → Text
  | absent => []
  | plus => ['+']
  | minus => ['-']

/-- The power of ten behind a decimal number. -/
structure Exponent where
  upper : Bool
  sign : Sign
  digits : Digits 10
  deriving DecidableEq, Repr

namespace Exponent

/-- The exponent as it is written. -/
def text (e : Exponent) : Text := (if e.upper then 'E' else 'e') :: (e.sign.text ++ e.digits.text)

def value (e : Exponent) : Int := if e.sign = .minus then -e.digits.value else e.digits.value

end Exponent

/-- A decimal number without an exponent: `1`, then `1.` or `1.5`, and `.5`. -/
inductive Decimal where
  | whole (w : Digits 10)
  | point (w : Digits 10) (f : Option (Digits 10))
  | fraction (f : Digits 10)
  deriving DecidableEq, Repr

namespace Decimal

/-- The number as it is written. -/
def text : Decimal → Text
  | whole w => w.text
  | point w none => w.text ++ ['.']
  | point w (some f) => w.text ++ '.' :: f.text
  | fraction f => '.' :: f.text

/-- The fraction that digits behind the point stand for. -/
def part (f : Digits 10) : ℚ := f.value / 10 ^ f.all.length

/-- The exact value. -/
def value : Decimal → ℚ
  | whole w => w.value
  | point w none => w.value
  | point w (some f) => w.value + part f
  | fraction f => part f

end Decimal

/-- A numeric literal, without the suffix of whole numbers of any size. -/
inductive Literal where
  | prefixed (r : Radix) (upper : Bool) (digits : Digits r.base)
  | decimal (d : Decimal) (e : Option Exponent)

namespace Literal

/-- The literal as it is written. -/
def text : Literal → Text
  | prefixed r upper digits => '0' :: (if upper then r.letter.toUpper else r.letter) :: digits.text
  | decimal d none => d.text
  | decimal d (some e) => d.text ++ e.text

/-- The exact value. -/
def value : Literal → ℚ
  | prefixed _ _ digits => digits.value
  | decimal d none => d.value
  | decimal d (some e) => d.value * 10 ^ e.value

end Literal

/-! ## Reading decimal numbers -/

theorem exponent?_digit {c : Char} {t : Text} {n : Nat} (hc : c.isDigit = true)
    (h : digits? 10 (c :: t) = some n) : exponent? ('e' :: c :: t) = some (n : Int) := by
  unfold exponent?
  split
  · next heq => cases heq
  · next heq =>
      cases heq
      exact absurd hc (by decide)
  · next heq =>
      cases heq
      exact absurd hc (by decide)
  · next heq =>
      cases heq
      rw [h]
      rfl
  · next hother => exact absurd rfl (hother _)

theorem plain_exponent (e : Exponent) :
    plain e.text = 'e' :: (e.sign.text ++ e.digits.all.map Digit.lower) := by
  obtain ⟨upper, sign, digits⟩ := e
  have hhead : plain [if upper then 'E' else 'e'] = ['e'] := by cases upper <;> rfl
  have hsign : plain sign.text = sign.text := by cases sign <;> rfl
  show plain ([if upper then 'E' else 'e'] ++ (sign.text ++ digits.text)) = _
  rw [plain_append, plain_append, hhead, hsign, plain_digits _ (by decide)]
  rfl

theorem exponent?_plain (e : Exponent) : exponent? (plain e.text) = some e.value := by
  have hdigits : digits? 10 (e.digits.all.map Digit.lower) = some e.digits.value :=
    digits?_map (by decide) e.digits.all_ne_nil
  rw [plain_exponent, Exponent.value]
  cases e.sign with
  | absent => exact exponent?_digit e.digits.first.isDigit_lower hdigits
  | plus => simp [exponent?, Sign.text, hdigits]
  | minus => simp [exponent?, Sign.text, hdigits]

theorem all_isDigit (ds : List (Digit 10)) : ∀ c ∈ ds.map Digit.lower, c.isDigit = true := by
  intro c hc
  obtain ⟨d, -, rfl⟩ := List.mem_map.mp hc
  exact d.isDigit_lower

/-- The digits behind a decimal point, if there is one, and what follows them. -/
def behindPoint : Text → Text × Text
  | '.' :: cs => (cs.takeWhile Char.isDigit, cs.dropWhile Char.isDigit)
  | cs => ([], cs)

theorem decimal?_eq (t : Text) : decimal? t =
    (digits? 10 (t.takeWhile Char.isDigit ++ (behindPoint (t.dropWhile Char.isDigit)).1)).bind fun n =>
      (exponent? (behindPoint (t.dropWhile Char.isDigit)).2).map fun e =>
        Double.ofDecimal n (e - (behindPoint (t.dropWhile Char.isDigit)).1.length) := by
  unfold decimal?
  generalize t.dropWhile Char.isDigit = u
  split
  · next frac tail h =>
      have hpoint : behindPoint u = (frac, tail) := h
      rw [hpoint]
      dsimp only
      cases digits? 10 (t.takeWhile Char.isDigit ++ frac) with
      | none => rfl
      | some n => cases exponent? tail <;> rfl

/-- The text goes on with an exponent or ends. -/
def Ends (t : Text) : Prop := t = [] ∨ ∃ u, t = 'e' :: u

theorem Ends.takeWhile_eq {t : Text} (h : Ends t) : t.takeWhile Char.isDigit = [] := by
  rcases h with rfl | ⟨u, rfl⟩
  · rfl
  · rfl

theorem Ends.dropWhile_eq {t : Text} (h : Ends t) : t.dropWhile Char.isDigit = t := by
  rcases h with rfl | ⟨u, rfl⟩
  · rfl
  · rfl

theorem decimal?_whole {w : List (Digit 10)} (hw : w ≠ []) {t : Text} (ht : Ends t) :
    decimal? (w.map Digit.lower ++ t) = (exponent? t).map fun e => Double.ofDecimal (positional w) e := by
  have hpoint : behindPoint t = ([], t) := by
    rcases ht with rfl | ⟨u, rfl⟩
    · rfl
    · rfl
  rw [decimal?_eq, List.takeWhile_append_of_pos (all_isDigit w),
    List.dropWhile_append_of_pos (all_isDigit w), ht.takeWhile_eq, ht.dropWhile_eq, hpoint,
    List.append_nil, List.append_nil, digits?_map (by decide) hw]
  simp

theorem decimal?_point {w f : List (Digit 10)} (hwf : w ++ f ≠ []) {t : Text} (ht : Ends t) :
    decimal? (w.map Digit.lower ++ '.' :: (f.map Digit.lower ++ t)) =
      (exponent? t).map fun e => Double.ofDecimal (positional (w ++ f)) (e - f.length) := by
  have hdot : ∀ u : Text, ('.' :: u).takeWhile Char.isDigit = [] ∧
      ('.' :: u).dropWhile Char.isDigit = '.' :: u := fun u => ⟨rfl, rfl⟩
  have hpoint : behindPoint ('.' :: (f.map Digit.lower ++ t)) = (f.map Digit.lower, t) := by
    rw [behindPoint, List.takeWhile_append_of_pos (all_isDigit f),
      List.dropWhile_append_of_pos (all_isDigit f), ht.takeWhile_eq, ht.dropWhile_eq, List.append_nil]
  rw [decimal?_eq, List.takeWhile_append_of_pos (all_isDigit w),
    List.dropWhile_append_of_pos (all_isDigit w), (hdot _).1, (hdot _).2, hpoint,
    List.append_nil, ← List.map_append, digits?_map (by decide) hwf]
  simp

namespace Decimal

/-- The digits in front of the point. -/
def front : Decimal → List (Digit 10)
  | whole w => w.all
  | point w _ => w.all
  | fraction _ => []

/-- The digits behind the point. -/
def back : Decimal → List (Digit 10)
  | whole _ => []
  | point _ none => []
  | point _ (some f) => f.all
  | fraction f => f.all

theorem front_back_ne_nil (d : Decimal) : d.front ++ d.back ≠ [] := by
  cases d with
  | whole w => simp [front, w.all_ne_nil]
  | point w f => simp [front, w.all_ne_nil]
  | fraction f => simp [back, f.all_ne_nil]

/-- A number is its digits, with a point before those behind it. Only a whole number can do without. -/
theorem plain_text (d : Decimal) :
    plain d.text = d.front.map Digit.lower ∧ d.back = [] ∨
      plain d.text = d.front.map Digit.lower ++ '.' :: d.back.map Digit.lower := by
  have hpoint : plain ['.'] = ['.'] := rfl
  have hdigits : ∀ ds : Digits 10, plain ds.text = ds.all.map Digit.lower :=
    fun ds => plain_digits ds (by decide)
  cases d with
  | whole w => exact Or.inl ⟨hdigits w, rfl⟩
  | point w f =>
      right
      cases f with
      | none =>
          rw [text, plain_append, hpoint, hdigits]
          rfl
      | some f =>
          rw [text, List.append_cons, plain_append, plain_append, hpoint, hdigits, hdigits,
            List.append_assoc]
          rfl
  | fraction f =>
      right
      rw [text, ← List.singleton_append, plain_append, hpoint, hdigits]
      rfl

theorem value_eq (d : Decimal) :
    d.value = positional (d.front ++ d.back) / 10 ^ d.back.length := by
  cases d with
  | whole w => simp [value, front, back, Digits.value]
  | point w f =>
      cases f with
      | none => simp [value, front, back, Digits.value]
      | some f =>
          rw [positional_append]
          simp only [value, part, front, back, Digits.value]
          push_cast
          field_simp
  | fraction f => simp [value, part, front, back, Digits.value]

/-- The number is read with all its digits, and the point shifts the exponent. -/
theorem decimal?_plain (d : Decimal) {t : Text} (ht : Ends t) : decimal? (plain d.text ++ t) =
    (exponent? t).map fun e =>
      Double.ofDecimal (positional (d.front ++ d.back)) (e - d.back.length) := by
  have hne := d.front_back_ne_nil
  rcases d.plain_text with ⟨htext, hback⟩ | htext
  · rw [hback, List.append_nil] at hne
    rw [htext, hback, decimal?_whole hne ht]
    simp
  · rw [htext, List.append_assoc, List.cons_append]
    exact decimal?_point hne ht

end Decimal

/-! ## Reading literals -/

/-- The characters of decimal numbers in lower case. -/
def IsDecimalChar (c : Char) : Prop := c.isDigit = true ∨ c = '.' ∨ c = 'e' ∨ c = '+' ∨ c = '-'

instance (c : Char) : Decidable (IsDecimalChar c) := inferInstanceAs (Decidable (_ ∨ _))

theorem isDecimalChar_digits (ds : List (Digit 10)) : ∀ c ∈ ds.map Digit.lower, IsDecimalChar c :=
  fun c hc => Or.inl (all_isDigit ds c hc)

theorem Decimal.isDecimalChar (d : Decimal) : ∀ c ∈ plain d.text, IsDecimalChar c := by
  rcases d.plain_text with ⟨htext, -⟩ | htext
  · rw [htext]
    exact isDecimalChar_digits d.front
  · rw [htext, List.forall_mem_append, List.forall_mem_cons]
    exact ⟨isDecimalChar_digits d.front, by decide, isDecimalChar_digits d.back⟩

theorem Exponent.isDecimalChar (e : Exponent) : ∀ c ∈ plain e.text, IsDecimalChar c := by
  have hsign : ∀ c ∈ e.sign.text, IsDecimalChar c := by
    cases e.sign <;> simp [Sign.text, IsDecimalChar]
  rw [plain_exponent, List.forall_mem_cons, List.forall_mem_append]
  exact ⟨by decide, hsign, isDecimalChar_digits _⟩

/-- A suffix is still there without separators and in lower case. -/
theorem suffix_mem_plain {t : Text} (h : t.endsWith 'n' = true) : 'n' ∈ plain t := by
  rw [Text.endsWith, beq_iff_eq] at h
  have hmem := List.mem_of_getLast? h
  exact List.mem_map.mpr ⟨'n', List.mem_filter.mpr ⟨hmem, by decide⟩, by decide⟩

theorem value?_of_decimal {t : Text} (h : ∀ c ∈ plain t, IsDecimalChar c) :
    value? t = float? (plain t) := by
  have hsuffix : ¬ t.endsWith 'n' = true := fun hends =>
    absurd (h _ (suffix_mem_plain hends)) (by decide)
  unfold value?
  rw [if_neg hsuffix]
  dsimp only
  rw [← plain]
  generalize plain t = u at h
  -- the letter of a prefix would be a character of the number
  split
  · exact absurd (h 'x' (by simp)) (by decide)
  · exact absurd (h 'o' (by simp)) (by decide)
  · exact absurd (h 'b' (by simp)) (by decide)
  · rfl

/-- A text that begins with a digit or a point has no sign and is no name. -/
theorem float?_eq {c : Char} {t : Text} (hc : c.isDigit = true ∨ c = '.') :
    float? (c :: t) = (decimal? (c :: t)).map .bits := by
  have hother : c ≠ '-' ∧ c ≠ '+' ∧ c ≠ 'n' ∧ c ≠ 'i' := by
    refine ⟨?_, ?_, ?_, ?_⟩ <;> rintro rfl <;> exact absurd hc (by decide)
  have hmagnitude : magnitude? (c :: t) = (decimal? (c :: t)).map .bits := by
    simp [magnitude?, hother]
  unfold float?
  split
  · next heq =>
      cases heq
      exact absurd rfl hother.1
  · next heq =>
      cases heq
      exact absurd rfl hother.2.1
  · exact hmagnitude

theorem Decimal.exists_head (d : Decimal) :
    ∃ c t, plain d.text = c :: t ∧ (c.isDigit = true ∨ c = '.') := by
  cases hfront : d.front with
  | nil =>
      rcases d.plain_text with ⟨-, hback⟩ | htext
      · exact absurd (by rw [hfront, hback]; rfl) d.front_back_ne_nil
      · rw [htext, hfront]
        exact ⟨'.', _, rfl, Or.inr rfl⟩
  | cons a front =>
      rcases d.plain_text with ⟨htext, -⟩ | htext
      · rw [htext, hfront]
        exact ⟨a.lower, _, rfl, Or.inl a.isDigit_lower⟩
      · rw [htext, hfront]
        exact ⟨a.lower, _, rfl, Or.inl a.isDigit_lower⟩

/-- **The value of a decimal literal** is that of its digits and its power of ten. -/
theorem value?_decimal (d : Decimal) (e : Option Exponent) :
    ∃ (n : Nat) (k : Int), value? (Literal.decimal d e).text = some (.bits (Double.ofDecimal n k)) ∧
      (Literal.decimal d e).value = n * 10 ^ k := by
  obtain ⟨c, t, hhead, hc⟩ := d.exists_head
  have hten : (10 : ℚ) ≠ 0 := by norm_num
  -- the literal is its number followed by what is written of the exponent
  obtain ⟨u, k, htext, hends, hexponent, hchars, hvalue⟩ : ∃ u k,
      plain (Literal.decimal d e).text = plain d.text ++ u ∧ Ends u ∧ exponent? u = some k ∧
      (∀ c ∈ u, IsDecimalChar c) ∧ (Literal.decimal d e).value = d.value * 10 ^ k := by
    cases e with
    | none => exact ⟨[], 0, by simp [Literal.text], Or.inl rfl, rfl, by simp, by simp [Literal.value]⟩
    | some e =>
        exact ⟨plain e.text, e.value, plain_append _ _, Or.inr ⟨_, plain_exponent e⟩, exponent?_plain e,
          e.isDecimalChar, rfl⟩
  refine ⟨positional (d.front ++ d.back), k - d.back.length, ?_, ?_⟩
  · have hall : ∀ c ∈ plain (Literal.decimal d e).text, IsDecimalChar c := by
      rw [htext]
      exact List.forall_mem_append.mpr ⟨d.isDecimalChar, hchars⟩
    rw [value?_of_decimal hall, htext]
    have hread := d.decimal?_plain hends
    rw [hhead, List.cons_append] at hread ⊢
    rw [float?_eq hc, hread, hexponent]
    rfl
  · rw [hvalue, d.value_eq, zpow_sub₀ hten, zpow_natCast]
    ring

theorem unsigned?_map {base : Nat} (hbase : base ≤ 16) {ds : List (Digit base)} (hds : ds ≠ []) :
    unsigned? base (ds.map Digit.lower) =
      if positional ds < 2 ^ 64 then some (positional ds) else none := by
  -- a plus sign in front would be passed over, but no digit is one
  have hplus : ∀ t, ds.map Digit.lower ≠ '+' :: t := by
    intro t heq
    have hmem : '+' ∈ ds.map Digit.lower := by simp [heq]
    obtain ⟨d, -, hd⟩ := List.mem_map.mp hmem
    exact absurd (d.digitValue?_lower hbase) (by simp [hd, digitValue?])
  have hdigits := digits?_map hbase hds
  unfold unsigned?
  generalize ds.map Digit.lower = t at hplus hdigits
  split
  · next cs => exact absurd rfl (hplus cs)
  · dsimp only
    rw [hdigits]
    rfl

/-- **The value of a literal with a prefix** is that of its digits, if it fits into 64 bits. -/
theorem value?_prefixed (r : Radix) (upper : Bool) (digits : Digits r.base) :
    value? (Literal.prefixed r upper digits).text =
      if digits.value < 2 ^ 64 then some (.bits (Double.nearest digits.value 1)) else none := by
  have hplain : plain (Literal.prefixed r upper digits).text =
      '0' :: r.letter :: digits.all.map Digit.lower := by
    have hhead : plain ['0', if upper then r.letter.toUpper else r.letter] = ['0', r.letter] := by
      cases r <;> cases upper <;> decide
    show plain (['0', if upper then r.letter.toUpper else r.letter] ++ digits.text) = _
    rw [plain_append, hhead, plain_digits digits r.base_le]
    rfl
  have hsuffix : ¬ (Literal.prefixed r upper digits).text.endsWith 'n' = true := by
    intro hends
    have hmem := suffix_mem_plain hends
    rw [hplain, List.mem_cons, List.mem_cons, List.mem_map] at hmem
    rcases hmem with hzero | hletter | ⟨d, -, hd⟩
    · exact absurd hzero (by decide)
    · cases r <;> exact absurd hletter (by decide)
    · exact d.lower_ne_suffix r.base_le hd
  have hread : value? (Literal.prefixed r upper digits).text =
      (unsigned? r.base (digits.all.map Digit.lower)).map fun n => .bits (Double.nearest n 1) := by
    unfold value?
    rw [if_neg hsuffix]
    dsimp only
    rw [← plain, hplain]
    cases r <;> rfl
  rw [hread, unsigned?_map r.base_le digits.all_ne_nil]
  show (if digits.value < 2 ^ 64 then some digits.value else none).map _ = _
  split <;> rfl

/-! ## Literals that count as one -/

namespace Literal

/-- The literal as it is written, with the suffix of whole numbers of any size or without. -/
def written (l : Literal) (suffixed : Bool) : Text := if suffixed then l.text ++ ['n'] else l.text

/-- A literal with a prefix counts as one when it is one. A decimal literal counts as one up to half the
distance to the next double on either side. -/
def CountsAsOne : Literal → Prop
  | prefixed r upper digits => (prefixed r upper digits).value = 1
  | decimal d e => 1 - 1 / 2 ^ 54 ≤ (decimal d e).value ∧ (decimal d e).value ≤ 1 + 1 / 2 ^ 53

instance : DecidablePred CountsAsOne
  | prefixed _ _ _ => inferInstanceAs (Decidable (_ = _))
  | decimal _ _ => inferInstanceAs (Decidable (_ ∧ _))

theorem value?_suffixed (l : Literal) : value? (l.written true) = none := by
  have hends : (l.text ++ ['n']).endsWith 'n' = true := by simp [Text.endsWith]
  rw [written, if_pos rfl, value?, if_pos hends]

theorem value?_text_eq_one_iff (l : Literal) : value? l.text = some .one ↔ l.CountsAsOne := by
  cases l with
  | prefixed r upper digits =>
      rw [value?_prefixed, CountsAsOne, value]
      by_cases hfits : digits.value < 2 ^ 64
      · rw [if_pos hfits, Option.some.injEq, Double.nearest_eq_one_iff _ Nat.one_pos, Nat.cast_one, div_one,
          Double.nearOne_natCast_iff, Nat.cast_eq_one]
      · rw [if_neg hfits]
        refine iff_of_false (by simp) ?_
        intro hone
        have : digits.value = 1 := by exact_mod_cast hone
        omega
  | decimal d e =>
      obtain ⟨n, k, hread, hvalue⟩ := value?_decimal d e
      rw [hread, Option.some.injEq, Double.ofDecimal_eq_one_iff, CountsAsOne, hvalue, Double.NearOne]

theorem value?_written_eq_one_iff (l : Literal) (suffixed : Bool) :
    value? (l.written suffixed) = some .one ↔ suffixed = false ∧ l.CountsAsOne := by
  cases suffixed with
  | true => simp [value?_suffixed]
  | false => simp [written, value?_text_eq_one_iff]

theorem value?_eq_none_of_large {r : Radix} {upper : Bool} {digits : Digits r.base}
    (h : 2 ^ 64 ≤ digits.value) (suffixed : Bool) :
    value? ((prefixed r upper digits).written suffixed) = none := by
  cases suffixed with
  | true => exact value?_suffixed _
  | false =>
      rw [written, if_neg (by simp), value?_prefixed, if_neg (by omega)]

end Literal

end Numeral

namespace SourceFile

/-- A call of `take` with one number limits a stream exactly when the number is read as one. -/
theorem CallOf.takeOne_iff {f : SourceFile} {op a count : Node} (h : f.CallOf op "take".toList a)
    (ha : a.codeParts = [count]) (hk : count.kind = .number) :
    f.limit? op = some .takeOne ↔ Numeral.value? (f.textOf count) = some Double.one := by
  rw [limit?_eq_some_iff]
  constructor
  · rintro (_ | ⟨hcall, hparts, -, hv⟩)
    cases h.arguments.symm.trans hcall.arguments
    cases ha.symm.trans hparts
    exact hv
  · exact fun hv => .takeOne h ha hk hv

end SourceFile

namespace Numeral

/-- **A literal is read as one exactly when it counts as one.** It must not have a suffix; with a prefix its
value is one, and in base ten its value is one or so near that one is the double for it. A literal with a
prefix that does not fit into 64 bits has no value. So a call of `take` with one literal limits a stream to
one value exactly when the literal counts as one. -/
theorem literal_counts_as_one_iff (l : Literal) (suffixed : Bool) :
    (value? (l.written suffixed) = some .one ↔ suffixed = false ∧ l.CountsAsOne) ∧
    (∀ r upper digits, l = .prefixed r upper digits → 2 ^ 64 ≤ digits.value →
      value? (l.written suffixed) = none) ∧
    ∀ (f : SourceFile) (op a count : Node), f.CallOf op "take".toList a → a.codeParts = [count] →
      count.kind = .number → f.textOf count = l.written suffixed →
      (f.limit? op = some .takeOne ↔ suffixed = false ∧ l.CountsAsOne) := by
  refine ⟨l.value?_written_eq_one_iff suffixed, ?_, ?_⟩
  · rintro r upper digits rfl hlarge
    exact Literal.value?_eq_none_of_large hlarge suffixed
  · intro f op a count hcall hparts hk htext
    rw [hcall.takeOne_iff hparts hk, htext, l.value?_written_eq_one_iff suffixed]

/-- One and half the distance to the next double, with a separator among its digits. -/
def halfWay : Literal :=
  .decimal (.point ⟨⟨1, false⟩, []⟩ (some ⟨⟨0, false⟩, (true, ⟨0, false⟩) ::
    ([0, 0, 0, 0, 0, 0, 0, 0, 0, 0, 0, 0, 0, 1, 1, 1, 0, 2, 2, 3, 0, 2, 4, 6, 2, 5, 1, 5, 6, 5, 4, 0, 4,
      2, 3, 6, 3, 1, 6, 6, 8, 0, 9, 0, 8, 2, 0, 3, 1, 2, 5].map fun n => (false, ⟨n, false⟩))⟩)) none

/-- The first whole number that does not fit into 64 bits, with an upper case prefix. -/
def tooLarge : Literal :=
  .prefixed .hexadecimal true
    ⟨⟨(1 : Fin 16), false⟩, (List.range 16).map fun n => (n % 4 == 0, ⟨(0 : Fin 16), false⟩)⟩

set_option maxRecDepth 100000 in
/-- At half the distance to the next double a literal still counts as one, but not with a suffix. -/
theorem half_way_literal_limits :
    halfWay.value = 1 + 1 / 2 ^ 53 ∧ halfWay.CountsAsOne ∧
      value? "1.0_0000000000000011102230246251565404236316680908203125".toList = some .one ∧
      value? "1.0_0000000000000011102230246251565404236316680908203125n".toList ≠ some .one ∧
      value? "0X1_0000_0000_0000_0000".toList = none ∧
      ∃ f, parse? .typeScript
          "take(1.0_0000000000000011102230246251565404236316680908203125);".toList = .ok f ∧
        ∃ op ∈ f.root.preorder, f.limit? op = some .takeOne := by
  have hcounts : halfWay.CountsAsOne := by decide +kernel
  obtain ⟨hread, -, hlimit⟩ := literal_counts_as_one_iff halfWay false
  obtain ⟨hsuffixed, -, -⟩ := literal_counts_as_one_iff halfWay true
  obtain ⟨-, hlarge, -⟩ := literal_counts_as_one_iff tooLarge false
  obtain ⟨f, hf, hcalls⟩ := exists_of_parse (d := .typeScript)
    (t := "take(1.0_0000000000000011102230246251565404236316680908203125);".toList)
    (fun f => (f.root.preorder.filterMap fun op => (op.child? .function).bind fun k =>
      (op.child? .arguments).map fun a => (op.kind :: k.kind :: a.kind :: a.codeParts.map Node.kind,
        f.textOf k :: a.codeParts.map f.textOf)) =
      [([.callExpression, .identifier, .arguments, .number], ["take".toList, halfWay.written false])])
    (by decide +kernel) fun f hP => hP
  obtain ⟨op, hop, hcall⟩ := List.mem_filterMap.mp (hcalls ▸ List.mem_singleton_self _)
  obtain ⟨k, hk, hcall⟩ := Option.bind_eq_some_iff.mp hcall
  obtain ⟨a, ha, hcall⟩ := Option.map_eq_some_iff.mp hcall
  simp only [Prod.mk.injEq, List.cons.injEq] at hcall
  obtain ⟨⟨hkind, hkkind, hakind, hkinds⟩, hname, htexts⟩ := hcall
  obtain ⟨count, hcount, hnumber⟩ := List.map_eq_singleton_iff.mp hkinds
  have htext : f.textOf count = halfWay.written false := by
    rw [hcount] at htexts
    exact (List.cons.inj htexts).1
  refine ⟨by decide +kernel, hcounts, hread.mpr ⟨rfl, hcounts⟩, ?_, ?_, f, hf, op, hop, ?_⟩
  · exact fun h => absurd (hsuffixed.mp h).1 (by decide)
  · exact hlarge .hexadecimal true _ rfl (by decide +kernel)
  · exact (hlimit f op a count ⟨hkind, ⟨k, hk, hkkind, hname⟩, ha, hakind⟩ hcount hnumber htext).mpr
      ⟨rfl, hcounts⟩

end Numeral

end Promisify
