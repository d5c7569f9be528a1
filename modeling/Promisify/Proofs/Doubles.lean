import Mathlib.Data.Rat.Cast.Order
import Mathlib.Algebra.Order.Field.Power
import Mathlib.Tactic.Linarith
import Mathlib.Tactic.NormNum
import Mathlib.Tactic.FieldSimp
import Mathlib.Tactic.Positivity
import Mathlib.Tactic.Ring
import Promisify.Numeral

set_option autoImplicit false

/-! # Rounding to one

Which quotients have the double one as their nearest. The last place of a quotient is found from the
leading powers of two (`lastPlace_spec`), and the digits in front of it are rounded, a tie going to the even
number (`significand_eq_iff`). Below one the places are half as wide as above, so the numbers that are
rounded to one reach half as far down as they reach up (`nearest_eq_one_iff`); both borders are ties, and
one is even.
-/

namespace Promisify

namespace Double

variable {num den q : Nat}

/-! ## Whole numbers -/

theorem roundQuotient_bounds (num den : Nat) :
    num / den ≤ roundQuotient num den ∧ roundQuotient num den ≤ num / den + 1 := by
  unfold roundQuotient
  dsimp only
  split
  · omega
  · split
    · omega
    · split <;> omega

/-- A quotient is rounded to an even number when it is at most one half away. -/
theorem roundQuotient_eq_iff (hden : 0 < den) (hq : q % 2 = 0) :
    roundQuotient num den = q ↔ 2 * (den * q) ≤ 2 * num + den ∧ 2 * num ≤ 2 * (den * q) + den := by
  have hsplit : den * (num / den) + num % den = num := Nat.div_add_mod num den
  have hlt : num % den < den := Nat.mod_lt num hden
  unfold roundQuotient
  dsimp only
  generalize num / den = k at *
  generalize num % den = r at *
  subst hsplit
  constructor
  · intro h
    have hcases : q = k ∧ 2 * r ≤ den ∨ q = k + 1 ∧ den ≤ 2 * r := by
      -- in a tie the even one of `k` and `k + 1` is `q`
      split at h
      · omega
      · split at h
        · omega
        · split at h <;> omega
    rcases hcases with ⟨rfl, hr⟩ | ⟨rfl, hr⟩
    · omega
    · rw [Nat.mul_add]
      omega
  · rintro ⟨hlow, hhigh⟩
    -- only `k` and `k + 1` are near enough
    have hle : k ≤ q := by
      by_contra hcon
      have hmul : den * (q + 1) ≤ den * k := Nat.mul_le_mul_left den (by omega)
      rw [Nat.mul_add] at hmul
      omega
    have hge : q ≤ k + 1 := by
      by_contra hcon
      have hmul : den * (k + 2) ≤ den * q := Nat.mul_le_mul_left den (by omega)
      rw [Nat.mul_add] at hmul
      omega
    have hcases : q = k ∨ q = k + 1 := by omega
    rcases hcases with rfl | rfl
    · split
      · rfl
      · rw [if_neg (by omega)]
    · rw [Nat.mul_add] at hlow hhigh
      rw [if_neg (by omega)]
      split
      · rfl
      · rw [if_neg (by omega)]

theorem roundQuotient_eq_iff_rat (hden : 0 < den) (hq : q % 2 = 0) :
    roundQuotient num den = q ↔ (q : ℚ) - 1 / 2 ≤ num / den ∧ (num / den : ℚ) ≤ q + 1 / 2 := by
  have hpos : (0 : ℚ) < den := by exact_mod_cast hden
  rw [roundQuotient_eq_iff hden hq, le_div_iff₀ hpos, div_le_iff₀ hpos]
  have hlow : 2 * (den * q) ≤ 2 * num + den ↔ ((q : ℚ) - 1 / 2) * den ≤ num := by
    rw [← Nat.cast_le (α := ℚ)]
    push_cast
    constructor <;> intro h <;> linarith
  have hhigh : 2 * num ≤ 2 * (den * q) + den ↔ (num : ℚ) ≤ (q + 1 / 2) * den := by
    rw [← Nat.cast_le (α := ℚ)]
    push_cast
    constructor <;> intro h <;> linarith
  rw [hlow, hhigh]

theorem le_roundQuotient (hden : 0 < den) {n : Nat} (h : (n : ℚ) ≤ num / den) :
    n ≤ roundQuotient num den := by
  have hpos : (0 : ℚ) < den := by exact_mod_cast hden
  rw [le_div_iff₀ hpos] at h
  have hmul : n * den ≤ num := by exact_mod_cast h
  have := (Nat.le_div_iff_mul_le hden).mpr hmul
  have := (roundQuotient_bounds num den).1
  omega

theorem roundQuotient_le (hden : 0 < den) {n : Nat} (h : (num / den : ℚ) < n) :
    roundQuotient num den ≤ n := by
  have hpos : (0 : ℚ) < den := by exact_mod_cast hden
  rw [div_lt_iff₀ hpos] at h
  have hmul : num < n * den := by exact_mod_cast h
  have := (Nat.div_lt_iff_lt_mul hden).mpr hmul
  have := (roundQuotient_bounds num den).2
  omega

/-! ## Places -/

/-- The digits of `num / den` in front of the place `e`, as a whole number. -/
def significand (num den : Nat) (e : Int) : Nat :=
  if 0 ≤ e then roundQuotient num (den * Nat.pow 2 e.toNat)
  else roundQuotient (num * Nat.pow 2 (-e).toNat) den

/-- They are the quotient in units of that place, rounded. -/
theorem exists_significand (num : Nat) (hden : 0 < den) (e : Int) : ∃ a b : Nat, 0 < b ∧
    significand num den e = roundQuotient a b ∧ (a / b : ℚ) = num / den / 2 ^ e := by
  unfold significand
  by_cases he : 0 ≤ e
  · refine ⟨num, den * Nat.pow 2 e.toNat, Nat.mul_pos hden (Nat.pow_pos (by omega)), if_pos he, ?_⟩
    obtain ⟨n, rfl⟩ := Int.eq_ofNat_of_zero_le he
    rw [Int.toNat_natCast, Nat.pow_eq, zpow_natCast]
    push_cast
    rw [div_div]
  · refine ⟨num * Nat.pow 2 (-e).toNat, den, hden, if_neg he, ?_⟩
    obtain ⟨n, hn⟩ := Int.eq_ofNat_of_zero_le (show 0 ≤ -e by omega)
    have he' : e = -(n : Int) := by omega
    rw [he', neg_neg, Int.toNat_natCast, Nat.pow_eq, zpow_neg, zpow_natCast, div_inv_eq_mul]
    push_cast
    rw [div_mul_eq_mul_div]

theorem lt_place_iff (num : Nat) (hden : 0 < den) (e : Int) :
    (if 0 ≤ e then num < Nat.pow 2 52 * (den * Nat.pow 2 e.toNat)
      else num * Nat.pow 2 (-e).toNat < Nat.pow 2 52 * den) ↔ (num / den : ℚ) < 2 ^ 52 * 2 ^ e := by
  have hpos : (0 : ℚ) < den := by exact_mod_cast hden
  rw [div_lt_iff₀ hpos]
  by_cases he : 0 ≤ e
  · obtain ⟨n, rfl⟩ := Int.eq_ofNat_of_zero_le he
    rw [if_pos he, Int.toNat_natCast, Nat.pow_eq, Nat.pow_eq, zpow_natCast, ← Nat.cast_lt (α := ℚ)]
    push_cast
    constructor <;> intro h <;> linarith
  · obtain ⟨n, hn⟩ := Int.eq_ofNat_of_zero_le (show 0 ≤ -e by omega)
    have he' : e = -(n : Int) := by omega
    have htwo : (0 : ℚ) < 2 ^ n := by positivity
    rw [if_neg he, he', neg_neg, Int.toNat_natCast, Nat.pow_eq, Nat.pow_eq, zpow_neg, zpow_natCast,
      ← Nat.cast_lt (α := ℚ)]
    push_cast
    rw [← lt_div_iff₀ htwo, div_eq_mul_inv]
    constructor <;> intro h <;> linarith

/-- The quotient lies within a factor of two of the quotient of the leading powers of two. -/
theorem log2_bounds (hnum : 0 < num) (hden : 0 < den) :
    (2 : ℚ) ^ ((num.log2 : Int) - den.log2 - 1) ≤ num / den ∧
      (num / den : ℚ) < 2 ^ ((num.log2 : Int) - den.log2 + 1) := by
  have hpos : (0 : ℚ) < den := by exact_mod_cast hden
  have hnum₁ : ((2 : ℚ) ^ num.log2) ≤ num := by
    exact_mod_cast Nat.log2_self_le (by omega : num ≠ 0)
  have hnum₂ : (num : ℚ) < 2 ^ (num.log2 + 1) := by exact_mod_cast Nat.lt_log2_self
  have hden₁ : ((2 : ℚ) ^ den.log2) ≤ den := by
    exact_mod_cast Nat.log2_self_le (by omega : den ≠ 0)
  have hden₂ : (den : ℚ) < 2 ^ (den.log2 + 1) := by exact_mod_cast Nat.lt_log2_self
  rw [le_div_iff₀ hpos, div_lt_iff₀ hpos]
  constructor
  · calc (2 : ℚ) ^ ((num.log2 : Int) - den.log2 - 1) * den
        ≤ 2 ^ ((num.log2 : Int) - den.log2 - 1) * 2 ^ (den.log2 + 1) := by gcongr
      _ = 2 ^ num.log2 := by
        rw [← zpow_natCast, ← zpow_natCast, ← zpow_add₀ two_ne_zero]
        push_cast
        ring_nf
      _ ≤ num := hnum₁
  · calc (num : ℚ) < 2 ^ (num.log2 + 1) := hnum₂
      _ = 2 ^ ((num.log2 : Int) - den.log2 + 1) * 2 ^ den.log2 := by
        rw [← zpow_natCast, ← zpow_natCast, ← zpow_add₀ two_ne_zero]
        push_cast
        ring_nf
      _ ≤ 2 ^ ((num.log2 : Int) - den.log2 + 1) * den := by gcongr

/-- **The last place of a quotient** has at most 53 digits in front of it, and no fewer unless it is the last
place of all. -/
theorem lastPlace_spec (hnum : 0 < num) (hden : 0 < den) :
    -1074 ≤ lastPlace num den ∧ (num / den : ℚ) < 2 ^ 53 * 2 ^ lastPlace num den ∧
      (lastPlace num den = -1074 ∨ 2 ^ 52 * 2 ^ lastPlace num den ≤ (num / den : ℚ)) := by
  obtain ⟨hlow, hhigh⟩ := log2_bounds hnum hden
  have hpow : ∀ (n : Nat) (k : Int), (2 : ℚ) ^ n * 2 ^ k = 2 ^ ((n : Int) + k) := by
    intro n k
    rw [← zpow_natCast, zpow_add₀ two_ne_zero]
  -- the place before it is held at the last place of all
  obtain ⟨e, he, hlt, hle⟩ : ∃ e : Int, lastPlace num den = max e (-1074) ∧
      (num / den : ℚ) < 2 ^ 53 * 2 ^ e ∧ 2 ^ 52 * 2 ^ e ≤ (num / den : ℚ) := by
    have hshift := lt_place_iff num hden ((num.log2 : Int) - den.log2 - 52)
    unfold lastPlace
    dsimp only
    by_cases h : (num / den : ℚ) < 2 ^ 52 * 2 ^ ((num.log2 : Int) - den.log2 - 52)
    · -- what follows the leading power of two is less in `num` than in `den`
      rw [if_pos (hshift.mpr h)]
      refine ⟨_, rfl, ?_, ?_⟩
      · rw [hpow] at h ⊢
        convert h using 2
        push_cast
        ring
      · rw [hpow]
        convert hlow using 2
        push_cast
        ring
    · rw [if_neg (mt hshift.mp h)]
      refine ⟨_, rfl, ?_, not_lt.mp h⟩
      rw [hpow]
      convert hhigh using 2
      push_cast
      ring
  rw [he]
  refine ⟨le_max_right _ _, ?_, ?_⟩
  · refine hlt.trans_le ?_
    have := zpow_le_zpow_right₀ (one_le_two (α := ℚ)) (le_max_left e (-1074))
    linarith
  · rcases le_total e (-1074) with hcap | hcap
    · exact Or.inl (max_eq_right hcap)
    · rw [max_eq_left hcap]
      exact Or.inr hle

theorem significand_eq_iff (num : Nat) (hden : 0 < den) (e : Int) (hq : q % 2 = 0) :
    significand num den e = q ↔
      (q - 1 / 2) * 2 ^ e ≤ (num / den : ℚ) ∧ (num / den : ℚ) ≤ (q + 1 / 2) * 2 ^ e := by
  obtain ⟨a, b, hb, heq, hab⟩ := exists_significand num hden e
  have hpos : (0 : ℚ) < 2 ^ e := by positivity
  rw [heq, roundQuotient_eq_iff_rat hb hq, hab, le_div_iff₀ hpos, div_le_iff₀ hpos]

theorem significand_bounds (hnum : 0 < num) (hden : 0 < den) :
    significand num den (lastPlace num den) ≤ 2 ^ 53 ∧
      (lastPlace num den = -1074 ∨ 2 ^ 52 ≤ significand num den (lastPlace num den)) := by
  obtain ⟨-, hlt, hle⟩ := lastPlace_spec hnum hden
  obtain ⟨a, b, hb, heq, hab⟩ := exists_significand num hden (lastPlace num den)
  have hpos : (0 : ℚ) < 2 ^ lastPlace num den := by positivity
  rw [heq]
  constructor
  · apply roundQuotient_le hb
    rw [hab, div_lt_iff₀ hpos]
    exact_mod_cast hlt
  · refine hle.imp_right fun hle => ?_
    apply le_roundQuotient hb
    rw [hab, le_div_iff₀ hpos]
    exact_mod_cast hle

theorem nearest_eq (hnum : 0 < num) (den : Nat) : nearest num den =
    min ((lastPlace num den + 1074).toNat * 2 ^ 52 + significand num den (lastPlace num den))
      (2047 * 2 ^ 52) := by
  unfold nearest
  rw [if_neg (by omega)]
  rfl

/-! ## One -/

/-- The numbers from which no double is nearer than one. -/
def NearOne (x : ℚ) : Prop := 1 - 1 / 2 ^ 54 ≤ x ∧ x ≤ 1 + 1 / 2 ^ 53

/-- Of the whole numbers only one itself is so near. -/
theorem nearOne_natCast_iff (n : Nat) : NearOne n ↔ n = 1 := by
  constructor
  · rintro ⟨hlow, hhigh⟩
    have hpos : (0 : ℚ) < n := by linarith
    have htwo : (n : ℚ) < 2 := by linarith
    norm_cast at hpos htwo
    omega
  · rintro rfl
    constructor <;> norm_num

/-- **Quotients that are rounded to one.** -/
theorem nearest_eq_one_iff (num : Nat) (hden : 0 < den) :
    bits (nearest num den) = one ↔ NearOne (num / den) := by
  have hone : bits (nearest num den) = one ↔ nearest num den = 1023 * 2 ^ 52 := by
    simp [one]
  rw [hone, NearOne]
  rcases Nat.eq_zero_or_pos num with rfl | hnum
  · have hzero : nearest 0 den = 0 := if_pos rfl
    rw [hzero]
    norm_num
  · rw [nearest_eq hnum]
    obtain ⟨hmin, hlt, hle⟩ := lastPlace_spec hnum hden
    obtain ⟨hsmall, hlarge⟩ := significand_bounds hnum hden
    have hhalf := significand_eq_iff num hden (lastPlace num den) (q := 2 ^ 53) (by norm_num)
    have hwhole := significand_eq_iff num hden (lastPlace num den) (q := 2 ^ 52) (by norm_num)
    generalize significand num den (lastPlace num den) = m at *
    generalize lastPlace num den = e at *
    generalize (num / den : ℚ) = x at *
    have hcases : e ≤ -54 ∨ e = -53 ∨ e = -52 ∨ -51 ≤ e := by omega
    rcases hcases with he | rfl | rfl | he
    · -- below one half
      have hplace : (2 : ℚ) ^ e ≤ 1 / 2 ^ 54 := by
        have hpow := zpow_le_zpow_right₀ (one_le_two (α := ℚ)) he
        norm_num at hpow ⊢
        exact hpow
      refine iff_of_false (by omega) ?_
      rintro ⟨hlow, -⟩
      linarith
    · -- from one half up to one: all digits are ones, and they are rounded up
      have hplace : (2 : ℚ) ^ (-53 : Int) = 1 / 2 ^ 53 := by norm_num
      have hbits : min ((-53 + 1074 : Int).toNat * 2 ^ 52 + m) (2047 * 2 ^ 52) = 1023 * 2 ^ 52 ↔
          m = 2 ^ 53 := by omega
      rw [hbits, hhalf, hplace]
      rw [hplace] at hlt
      push_cast
      constructor
      · rintro ⟨hlow, -⟩
        constructor <;> linarith
      · rintro ⟨hlow, -⟩
        constructor <;> linarith
    · -- from one up to two: all digits behind the first are zeros
      have hplace : (2 : ℚ) ^ (-52 : Int) = 1 / 2 ^ 52 := by norm_num
      have hbits : min ((-52 + 1074 : Int).toNat * 2 ^ 52 + m) (2047 * 2 ^ 52) = 1023 * 2 ^ 52 ↔
          m = 2 ^ 52 := by omega
      have hle := hle.resolve_left (by omega)
      rw [hbits, hwhole, hplace]
      rw [hplace] at hle
      push_cast
      constructor
      · rintro ⟨-, hhigh⟩
        constructor <;> linarith
      · rintro ⟨-, hhigh⟩
        constructor <;> linarith
    · -- from two on
      have hplace : 1 / 2 ^ 51 ≤ (2 : ℚ) ^ e := by
        have hpow := zpow_le_zpow_right₀ (one_le_two (α := ℚ)) he
        norm_num at hpow ⊢
        exact hpow
      have hle := hle.resolve_left (by omega)
      refine iff_of_false (by omega) ?_
      rintro ⟨-, hhigh⟩
      linarith

theorem not_nearOne_of_large {digits : Nat} {exponent : Int} (hdigits : digits ≠ 0) (h : 0 < exponent) :
    ¬ NearOne (digits * 10 ^ exponent) := by
  rintro ⟨-, hhigh⟩
  have hone : (1 : ℚ) ≤ digits := by exact_mod_cast Nat.pos_of_ne_zero hdigits
  have hten : (10 : ℚ) ^ (1 : Int) ≤ 10 ^ exponent :=
    zpow_le_zpow_right₀ (by norm_num) (by omega)
  have hprod : (1 : ℚ) * 10 ^ (1 : Int) ≤ digits * 10 ^ exponent := by gcongr
  norm_num at hprod hhigh
  linarith

theorem not_nearOne_of_small {digits : Nat} {exponent : Int} (h : exponent + digits.log2 < -1) :
    ¬ NearOne (digits * 10 ^ exponent) := by
  rintro ⟨hlow, -⟩
  have hdigits : (digits : ℚ) ≤ 2 ^ (digits.log2 + 1) := by
    exact_mod_cast (Nat.lt_log2_self (n := digits)).le
  have hprod : (digits * 10 ^ exponent : ℚ) ≤ 10 ^ (-1 : Int) := by
    calc (digits * 10 ^ exponent : ℚ) ≤ 2 ^ (digits.log2 + 1) * 10 ^ exponent := by gcongr
      _ ≤ 10 ^ (digits.log2 + 1) * 10 ^ exponent := by
        gcongr
        norm_num
      _ = 10 ^ (((digits.log2 + 1 : Nat) : Int) + exponent) := by
        rw [zpow_add₀ (by norm_num), zpow_natCast]
      _ ≤ 10 ^ (-1 : Int) := zpow_le_zpow_right₀ (by norm_num) (by omega)
  norm_num at hprod hlow
  linarith

/-- **Decimal numbers that are rounded to one**, however many digits they have and however far the exponent
shifts them. -/
theorem ofDecimal_eq_one_iff (digits : Nat) (exponent : Int) :
    bits (ofDecimal digits exponent) = one ↔ NearOne (digits * 10 ^ exponent) := by
  unfold ofDecimal
  split
  · next h =>
      rw [h]
      norm_num [one, NearOne]
  · next h =>
      split
      · next he => exact iff_of_false (by decide) (not_nearOne_of_large h (by omega))
      · split
        · next he => exact iff_of_false (by decide) (not_nearOne_of_small (by omega))
        · split
          · next he =>
              obtain ⟨n, rfl⟩ := Int.eq_ofNat_of_zero_le he
              rw [nearest_eq_one_iff _ Nat.one_pos, Int.toNat_natCast, Nat.pow_eq, zpow_natCast]
              push_cast
              rw [div_one]
          · next he =>
              obtain ⟨n, hn⟩ := Int.eq_ofNat_of_zero_le (show 0 ≤ -exponent by omega)
              have hexponent : exponent = -(n : Int) := by omega
              rw [hexponent, neg_neg, Int.toNat_natCast, Nat.pow_eq,
                nearest_eq_one_iff _ (Nat.pow_pos (by omega)), zpow_neg, zpow_natCast, ← div_eq_mul_inv]
              push_cast
              rfl

end Double

end Promisify
