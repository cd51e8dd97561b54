import AssetPack.Double.Shortest
import AssetPack.Json
import AssetPack.Proofs.Decimal
import Mathlib.Algebra.Order.Field.Power
import Mathlib.Tactic.FieldSimp
import Mathlib.Tactic.Linarith
import Mathlib.Tactic.NormNum
import Mathlib.Tactic.Positivity
import Mathlib.Tactic.Ring

/-!
# Doubles are their own nearest

Every finite double is the nearest double of its own value, in whatever fraction or decimal the value
is given. So the exact decimal of a double is read back, and with it whatever stands for it in
its written form; and every integer of up to fifty-three bits is a double.
-/
namespace AssetPack

/-!
## Numbers by their value

A decimal and a finite double stand for a rational number each, the double apart from its sign. The
fractions that the rounding works on have that value, and trimming zeros does not change it.
-/

/-- A whole number counted in powers of `base`, as numerator and denominator. -/
theorem scaled_value {base : Nat} (hbase : 0 < base) (n : Nat) (e : Int) {num den : Nat}
    (h : (if 0 ≤ e then (n * Nat.pow base e.toNat, 1) else (n, Nat.pow base (-e).toNat)) = (num, den)) :
    0 < den ∧ (num : ℚ) / den = n * (base : ℚ) ^ e := by
  split at h
  · obtain ⟨k, rfl⟩ := Int.eq_ofNat_of_zero_le ‹0 ≤ e›
    cases h
    refine ⟨Nat.one_pos, ?_⟩
    rw [Int.toNat_natCast, zpow_natCast]
    push_cast [Nat.pow_eq]
    rw [div_one]
  · obtain ⟨k, rfl⟩ : ∃ k : Nat, e = -(k : Int) := ⟨(-e).toNat, by omega⟩
    cases h
    refine ⟨Nat.pow_pos hbase, ?_⟩
    rw [neg_neg, Int.toNat_natCast, zpow_neg, zpow_natCast]
    push_cast [Nat.pow_eq]
    rw [div_eq_mul_inv]

namespace Decimal

/-- The number that a decimal stands for. -/
def value (d : Decimal) : ℚ := d.coefficient * (10 : ℚ) ^ d.exponent

theorem fraction_value (d : Decimal) : 0 < d.fraction.2 ∧ (d.fraction.1 : ℚ) / d.fraction.2 = d.value :=
  scaled_value (by decide) d.coefficient d.exponent rfl

/-- Zeros at either end do not change the value. -/
theorem value_ofParts (whole fraction : List Char) (exponent : Int) :
    (ofParts whole fraction exponent).value =
      Nat.ofDigitChars 10 (whole ++ fraction) 0 * (10 : ℚ) ^ (exponent - fraction.length) := by
  rcases split_zeros (whole ++ fraction) with ⟨n, hall⟩ | ⟨front, digits, back, hall, hne, hfirst, hlast⟩
  · rw [ofParts_zeros exponent hall, hall, Nat.ofDigitChars_replicate_zero]
    simp [value, coefficient]
  · have hlength := congrArg List.length hall
    simp only [List.length_append, List.length_replicate] at hlength
    have hexp : (whole.length : ℤ) - front + exponent - digits.length =
        back + (exponent - fraction.length) := by omega
    rw [ofParts_eq exponent hall hne hfirst hlast, hall, Nat.ofDigitChars_append, Nat.ofDigitChars_append,
      Nat.ofDigitChars_replicate_zero, Nat.ofDigitChars_replicate_zero, Nat.mul_zero]
    simp only [value, coefficient, Decimal.exponent]
    rw [hexp, zpow_add₀ (by norm_num), zpow_natCast]
    push_cast
    ring

theorem value_ofNat (n : Nat) (exponent : Int) : (ofNat n exponent).value = n * (10 : ℚ) ^ exponent := by
  rw [ofNat, value_ofParts, List.append_nil, Nat.ofDigitChars_ten_toDigits]
  simp

/-- Digits that do not begin with a zero tell the size of their number. -/
theorem coefficient_bounds {first : Char} {rest : List Char} (hdigits : ∀ c ∈ first :: rest, c.isDigit)
    (hfirst : first ≠ '0') : 10 ^ rest.length ≤ Nat.ofDigitChars 10 (first :: rest) 0 ∧
      Nat.ofDigitChars 10 (first :: rest) 0 < 10 ^ (rest.length + 1) := by
  have hdigit {c : Char} (hc : c.isDigit) : c.toNat - '0'.toNat ≤ 9 := by
    have := (Char.isDigit_iff_toNat.mp hc).2
    have h9 : '9'.toNat = 57 := rfl
    have h0 : '0'.toNat = 48 := rfl
    omega
  have hlt (digits : List Char) (h : ∀ c ∈ digits, c.isDigit) :
      Nat.ofDigitChars 10 digits 0 < 10 ^ digits.length := by
    induction digits with
    | nil => exact Nat.one_pos
    | cons c digits ih =>
      have hc := hdigit (h c List.mem_cons_self)
      have hrest := ih fun c hc => h c (List.mem_cons_of_mem _ hc)
      rw [Nat.ofDigitChars_cons, Nat.ofDigitChars_eq_ofDigitChars_zero, List.length_cons, pow_succ]
      nlinarith
  have hpos : 1 ≤ first.toNat - '0'.toNat := by
    have hge := (Char.isDigit_iff_toNat.mp (hdigits first List.mem_cons_self)).1
    have hne : first.toNat ≠ '0'.toNat := fun h => hfirst (Char.toNat_inj.mp h)
    omega
  refine ⟨?_, hlt (first :: rest) hdigits⟩
  rw [Nat.ofDigitChars_cons, Nat.ofDigitChars_eq_ofDigitChars_zero]
  nlinarith [Nat.pow_pos (n := rest.length) (show 0 < 10 by decide)]

/-- The point of a normal decimal tells its size. -/
theorem Normal.bounds {d : Decimal} (h : d.Normal) (hne : d.digits ≠ []) :
    (10 : ℚ) ^ (d.point - 1) ≤ d.value ∧ d.value < (10 : ℚ) ^ d.point := by
  obtain ⟨digits, point⟩ := d
  cases digits with
  | nil => exact (hne rfl).elim
  | cons first rest =>
    have hfirst : first ≠ '0' := by simpa using h.first
    obtain ⟨hlow, hhigh⟩ := coefficient_bounds h.digit hfirst
    have hlow' : (10 : ℚ) ^ rest.length ≤ Nat.ofDigitChars 10 (first :: rest) 0 := by exact_mod_cast hlow
    have hhigh' : (Nat.ofDigitChars 10 (first :: rest) 0 : ℚ) < 10 ^ (rest.length + 1) := by
      exact_mod_cast hhigh
    have hpos : (0 : ℚ) < 10 ^ (point - (rest.length + 1)) := by positivity
    have hleft : (10 : ℚ) ^ (point - 1) = 10 ^ rest.length * 10 ^ (point - (rest.length + 1)) := by
      rw [← zpow_natCast, ← zpow_add₀ (by norm_num)]
      congr 1
      omega
    have hright : (10 : ℚ) ^ point = 10 ^ (rest.length + 1) * 10 ^ (point - (rest.length + 1)) := by
      rw [← zpow_natCast, ← zpow_add₀ (by norm_num)]
      congr 1
      push_cast
      omega
    simp only [value, coefficient, Decimal.exponent, List.length_cons, Nat.cast_add, Nat.cast_one]
    rw [hleft, hright]
    exact ⟨mul_le_mul_of_nonneg_right hlow' hpos.le, mul_lt_mul_of_pos_right hhigh' hpos⟩

end Decimal

namespace Double

/-! ## Fields -/

theorem signUnit_eq : signUnit = 9223372036854775808 := rfl

theorem fractionCount_eq : fractionCount = 4503599627370496 := rfl

theorem infinite_eq : infinite = 9218868437227405312 := rfl

theorem toNat_ofMagnitude {magnitude : Nat} (h : magnitude < signUnit) (negative : Bool) :
    (ofMagnitude negative magnitude).bits.toNat = magnitude + if negative then signUnit else 0 := by
  rw [signUnit_eq] at h ⊢
  rw [ofMagnitude, signUnit_eq, UInt64.toNat_ofNat']
  refine Nat.mod_eq_of_lt ?_
  split <;> omega

theorem magnitude_ofMagnitude {magnitude : Nat} (h : magnitude < signUnit) (negative : Bool) :
    (ofMagnitude negative magnitude).magnitude = magnitude := by
  rw [Double.magnitude, toNat_ofMagnitude h]
  rw [signUnit_eq] at h ⊢
  split <;> omega

theorem negative_ofMagnitude {magnitude : Nat} (h : magnitude < signUnit) (negative : Bool) :
    (ofMagnitude negative magnitude).negative = negative := by
  rw [Double.negative, toNat_ofMagnitude h]
  rw [signUnit_eq] at h ⊢
  cases negative
  · simpa using h
  · simp

/-- A double is its sign and its magnitude. -/
theorem ofMagnitude_magnitude (d : Double) : ofMagnitude d.negative d.magnitude = d := by
  have hlt := d.bits.toNat_lt
  have hbits : d.magnitude + (if d.negative then signUnit else 0) = d.bits.toNat := by
    simp only [magnitude, negative, signUnit_eq]
    by_cases h : 9223372036854775808 ≤ d.bits.toNat
    · simp only [h, decide_true, if_true]
      omega
    · simp only [h, decide_false, Bool.false_eq_true, if_false]
      omega
  rw [ofMagnitude, hbits, UInt64.ofNat_toNat]

/-! ## Values -/

/-- The number a finite double stands for, its sign apart. -/
def absolute (d : Double) : ℚ := d.significand * (2 : ℚ) ^ d.scale

theorem fraction_absolute (d : Double) :
    0 < d.fraction.2 ∧ (d.fraction.1 : ℚ) / d.fraction.2 = d.absolute :=
  scaled_value (by decide) d.significand d.scale rfl

theorem scale_bounds {d : Double} (h : d.isFinite) : -1074 ≤ d.scale ∧ d.scale ≤ 971 := by
  have hfinite : d.magnitude < infinite := by simpa [isFinite] using h
  rw [infinite_eq] at hfinite
  simp only [scale, fractionCount_eq]
  omega

theorem significand_lt (d : Double) : d.significand < 2 ^ 53 := by
  unfold significand
  rw [fractionCount_eq]
  split <;> omega

/-- The magnitude is put together from scale and significand. -/
theorem magnitude_eq (d : Double) : (d.scale + 1074).toNat * fractionCount + d.significand = d.magnitude := by
  have hfc := fractionCount_eq
  simp only [scale, significand]
  split
  · rename_i h
    have hdiv : d.magnitude / fractionCount = 0 := Nat.div_eq_of_lt h
    rw [hdiv]
    simp
  · rename_i h
    have hdiv : 1 ≤ d.magnitude / fractionCount := (Nat.one_le_div_iff (by omega)).mpr (by omega)
    have hscale : ((max (d.magnitude / fractionCount) 1 : Nat) - 1075 + 1074 : Int).toNat =
        d.magnitude / fractionCount - 1 := by omega
    have hall := Nat.div_add_mod d.magnitude fractionCount
    rw [hscale, Nat.sub_one_mul]
    have hle := Nat.le_mul_of_pos_left fractionCount hdiv
    rw [Nat.mul_comm] at hall
    omega

/-- The significand of a number with less than the least scale is as large as it can be. -/
theorem significand_ge {d : Double} (h : -1074 < d.scale) : 2 ^ 52 ≤ d.significand := by
  have hfc := fractionCount_eq
  have hlarge : ¬d.magnitude < fractionCount := by
    intro hlt
    have hdiv : d.magnitude / fractionCount = 0 := Nat.div_eq_of_lt hlt
    simp only [scale, hdiv] at h
    omega
  simp only [significand, hlarge, if_false]
  omega

/-! ## Rounding -/

theorem roundHalfEven_mul (n : Nat) {den : Nat} (h : 0 < den) : roundHalfEven (n * den) den = n := by
  unfold roundHalfEven
  simp only [Nat.mul_mod_left, Nat.mul_div_cancel n h, Nat.mul_zero, h, if_true]

/-- A power of two against a fraction. -/
theorem two_zpow_le_iff (num : Nat) {den : Nat} (hden : 0 < den) (e : Int) :
    (if 0 ≤ e then den * Nat.pow 2 e.toNat ≤ num else den ≤ num * Nat.pow 2 (-e).toNat) ↔
      (2 : ℚ) ^ e ≤ (num : ℚ) / den := by
  have hq : (0 : ℚ) < den := by exact_mod_cast hden
  rw [le_div_iff₀ hq]
  split
  · obtain ⟨k, rfl⟩ := Int.eq_ofNat_of_zero_le ‹0 ≤ e›
    rw [Int.toNat_natCast, zpow_natCast, mul_comm den]
    exact_mod_cast Iff.rfl
  · obtain ⟨k, rfl⟩ : ∃ k : Nat, e = -(k : Int) := ⟨(-e).toNat, by omega⟩
    rw [neg_neg, Int.toNat_natCast, zpow_neg, zpow_natCast, inv_mul_le_iff₀ (by positivity), mul_comm num]
    exact_mod_cast Iff.rfl

/-- The fraction lies between two powers of two. -/
theorem binaryExponent_spec {num den : Nat} (hnum : 0 < num) (hden : 0 < den) :
    (2 : ℚ) ^ binaryExponent num den ≤ (num : ℚ) / den ∧
      (num : ℚ) / den < (2 : ℚ) ^ (binaryExponent num den + 1) := by
  have hq : (0 : ℚ) < den := by exact_mod_cast hden
  have hnum₁ : (2 : ℚ) ^ (num.log2 : ℤ) ≤ num := by exact_mod_cast Nat.log2_self_le hnum.ne'
  have hnum₂ : (num : ℚ) < (2 : ℚ) ^ (num.log2 + 1 : ℤ) := by exact_mod_cast Nat.lt_log2_self
  have hden₁ : (2 : ℚ) ^ (den.log2 : ℤ) ≤ den := by exact_mod_cast Nat.log2_self_le hden.ne'
  have hden₂ : (den : ℚ) < (2 : ℚ) ^ (den.log2 + 1 : ℤ) := by exact_mod_cast Nat.lt_log2_self
  have hlow : (2 : ℚ) ^ ((num.log2 : ℤ) - den.log2 - 1) ≤ (num : ℚ) / den := by
    rw [le_div_iff₀ hq]
    calc (2 : ℚ) ^ ((num.log2 : ℤ) - den.log2 - 1) * den
        ≤ 2 ^ ((num.log2 : ℤ) - den.log2 - 1) * 2 ^ (den.log2 + 1 : ℤ) := by gcongr
      _ = 2 ^ (num.log2 : ℤ) := by
          rw [← zpow_add₀ (by norm_num)]
          congr 1
          ring
      _ ≤ num := hnum₁
  have hhigh : (num : ℚ) / den < (2 : ℚ) ^ ((num.log2 : ℤ) - den.log2 + 1) := by
    rw [div_lt_iff₀ hq]
    calc (num : ℚ) < 2 ^ (num.log2 + 1 : ℤ) := hnum₂
      _ = 2 ^ ((num.log2 : ℤ) - den.log2 + 1) * 2 ^ (den.log2 : ℤ) := by
          rw [← zpow_add₀ (by norm_num)]
          congr 1
          ring
      _ ≤ 2 ^ ((num.log2 : ℤ) - den.log2 + 1) * den := by gcongr
  have heq : binaryExponent num den = if (2 : ℚ) ^ ((num.log2 : ℤ) - den.log2) ≤ (num : ℚ) / den
      then (num.log2 : ℤ) - den.log2 else (num.log2 : ℤ) - den.log2 - 1 :=
    if_congr (two_zpow_le_iff num hden _) rfl rfl
  rw [heq]
  split
  · exact ⟨‹_›, hhigh⟩
  · rw [sub_add_cancel]
    exact ⟨hlow, not_le.mp ‹_›⟩

section
variable {num den : Nat} {d : Double}

theorem num_of_absolute (hden : 0 < den) (h : (num : ℚ) / den = d.absolute) :
    (num : ℚ) = d.significand * (2 : ℚ) ^ d.scale * den := by
  have hq : (0 : ℚ) < den := by exact_mod_cast hden
  rw [← absolute, ← h, div_mul_cancel₀ _ hq.ne']

/-- Only zero has no significand. -/
theorem magnitude_of_zero (hden : 0 < den) (hfinite : d.isFinite) (h : ((0 : Nat) : ℚ) / den = d.absolute) :
    d.magnitude = 0 := by
  have hq : (0 : ℚ) < den := by exact_mod_cast hden
  have hnum := num_of_absolute hden h
  have hsignificand : d.significand = 0 := by
    rw [Nat.cast_zero] at hnum
    have hpos : (0 : ℚ) < (2 : ℚ) ^ d.scale * den := by positivity
    rw [mul_assoc] at hnum
    exact_mod_cast (mul_eq_zero.mp hnum.symm).resolve_right hpos.ne'
  have hleast : ¬-1074 < d.scale := by
    intro hlt
    have := significand_ge hlt
    omega
  obtain ⟨hscale, _⟩ := scale_bounds hfinite
  have hscale : d.scale = -1074 := by omega
  have hmagnitude := magnitude_eq d
  rw [hscale, hsignificand] at hmagnitude
  rw [← hmagnitude]
  simp

/-- The fraction lies where the double has its scale. -/
theorem unit_of_absolute (hden : 0 < den) (hfinite : d.isFinite) (h : (num : ℚ) / den = d.absolute)
    (hzero : num ≠ 0) : max (binaryExponent num den - 52) (-1074) = d.scale := by
  obtain ⟨hscale, _⟩ := scale_bounds hfinite
  obtain ⟨hlow, hhigh⟩ := binaryExponent_spec (Nat.pos_of_ne_zero hzero) hden
  rw [h, absolute] at hlow hhigh
  have hpos : (0 : ℚ) < (2 : ℚ) ^ d.scale := by positivity
  have hlt : (d.significand : ℚ) < 2 ^ (53 : ℤ) := by exact_mod_cast significand_lt d
  have hbelow : binaryExponent num den < d.scale + 53 := by
    refine (zpow_lt_zpow_iff_right₀ (by norm_num : (1 : ℚ) < 2)).mp (lt_of_le_of_lt hlow ?_)
    rw [zpow_add₀ (by norm_num), mul_comm]
    exact mul_lt_mul_of_pos_left hlt hpos
  by_cases hleast : -1074 < d.scale
  · have hge : (2 : ℚ) ^ (52 : ℤ) ≤ d.significand := by exact_mod_cast significand_ge hleast
    have habove : d.scale + 52 < binaryExponent num den + 1 := by
      refine (zpow_lt_zpow_iff_right₀ (by norm_num : (1 : ℚ) < 2)).mp (lt_of_le_of_lt ?_ hhigh)
      rw [zpow_add₀ (by norm_num), mul_comm]
      exact mul_le_mul_of_nonneg_right hge hpos.le
    omega
  · omega

/-- Counted in that unit it is a whole number, so nothing is rounded. -/
theorem count_of_absolute (hden : 0 < den) (h : (num : ℚ) / den = d.absolute) :
    (if 0 ≤ d.scale then roundHalfEven num (den * Nat.pow 2 d.scale.toNat)
      else roundHalfEven (num * Nat.pow 2 (-d.scale).toNat) den) = d.significand := by
  have hnum := num_of_absolute hden h
  split
  · obtain ⟨k, hk⟩ := Int.eq_ofNat_of_zero_le ‹0 ≤ d.scale›
    rw [hk, Int.toNat_natCast]
    have hall : num = d.significand * (den * Nat.pow 2 k) := by
      rw [hk, zpow_natCast] at hnum
      have : (num : ℚ) = d.significand * (den * 2 ^ k) := by rw [hnum]; ring
      exact_mod_cast this
    rw [hall]
    exact roundHalfEven_mul _ (Nat.mul_pos hden (Nat.pow_pos (by decide)))
  · obtain ⟨k, hk⟩ : ∃ k : Nat, d.scale = -(k : Int) := ⟨(-d.scale).toNat, by omega⟩
    rw [hk, neg_neg, Int.toNat_natCast]
    rw [hk, zpow_neg, zpow_natCast] at hnum
    have hall : num * Nat.pow 2 k = d.significand * den := by
      have hpow : ((2 : ℚ) ^ k)⁻¹ * 2 ^ k = 1 := inv_mul_cancel₀ (by positivity)
      have : (num : ℚ) * 2 ^ k = d.significand * den := by
        calc (num : ℚ) * 2 ^ k = d.significand * (((2 : ℚ) ^ k)⁻¹ * 2 ^ k) * den := by rw [hnum]; ring
          _ = d.significand * den := by rw [hpow, mul_one]
      exact_mod_cast this
    rw [hall]
    exact roundHalfEven_mul _ hden

/-- A fraction that has the value of a double is rounded to that double. -/
theorem nearestMagnitude_of_absolute (hden : 0 < den) (hfinite : d.isFinite)
    (h : (num : ℚ) / den = d.absolute) : nearestMagnitude num den = d.magnitude := by
  by_cases hzero : num = 0
  · rw [nearestMagnitude, if_pos hzero]
    rw [hzero] at h
    exact (magnitude_of_zero hden hfinite h).symm
  · have hmagnitude := magnitude_eq d
    have hlarge : d.magnitude < infinite := by simpa [isFinite] using hfinite
    rw [nearestMagnitude, if_neg hzero]
    simp only [unit_of_absolute hden hfinite h hzero, count_of_absolute hden h, hmagnitude]
    omega

end

/-- The least number above zero in powers of ten. -/
theorem least_le_absolute {d : Double} (hpos : 0 < d.absolute) (hfinite : d.isFinite) :
    (10 : ℚ) ^ (-324 : ℤ) ≤ d.absolute := by
  have hsignificand : (1 : ℚ) ≤ d.significand := by
    have hne : d.significand ≠ 0 := by
      intro hzero
      rw [absolute, hzero, Nat.cast_zero, zero_mul] at hpos
      exact lt_irrefl 0 hpos
    exact_mod_cast Nat.one_le_iff_ne_zero.mpr hne
  have hscale : (2 : ℚ) ^ (-1074 : ℤ) ≤ 2 ^ d.scale :=
    zpow_le_zpow_right₀ (by norm_num) (scale_bounds hfinite).1
  have hpowers : (2 : ℚ) ^ 1074 ≤ 10 ^ 324 := by
    have : 2 ^ 1074 ≤ 10 ^ 324 := by decide +kernel
    exact_mod_cast this
  calc (10 : ℚ) ^ (-324 : ℤ) ≤ 2 ^ (-1074 : ℤ) := by
        rw [zpow_neg, zpow_neg]
        exact inv_anti₀ (by positivity) hpowers
    _ ≤ 2 ^ d.scale := hscale
    _ ≤ d.significand * 2 ^ d.scale := le_mul_of_one_le_left (by positivity) hsignificand

/-- The largest finite numbers in powers of ten. -/
theorem absolute_lt_largest {d : Double} (hfinite : d.isFinite) : d.absolute < (10 : ℚ) ^ (309 : ℤ) := by
  have hsignificand : (d.significand : ℚ) < 2 ^ (53 : ℤ) := by exact_mod_cast significand_lt d
  have hscale : (2 : ℚ) ^ d.scale ≤ 2 ^ (971 : ℤ) :=
    zpow_le_zpow_right₀ (by norm_num) (scale_bounds hfinite).2
  have hpowers : (2 : ℚ) ^ 1024 ≤ 10 ^ 309 := by
    have : 2 ^ 1024 ≤ 10 ^ 309 := by decide +kernel
    exact_mod_cast this
  calc d.absolute < 2 ^ (53 : ℤ) * 2 ^ d.scale := mul_lt_mul_of_pos_right hsignificand (by positivity)
    _ ≤ 2 ^ (53 : ℤ) * 2 ^ (971 : ℤ) := by gcongr
    _ = 2 ^ (1024 : ℤ) := by rw [← zpow_add₀ (by norm_num)]; rfl
    _ ≤ 10 ^ (309 : ℤ) := hpowers

/-- A normal decimal that has the value of a double is read as that double. -/
theorem ofDecimal_of_value {c : Decimal} (hnormal : c.Normal) {d : Double} (hfinite : d.isFinite)
    (h : c.value = d.absolute) : ofDecimal d.negative c = d := by
  obtain ⟨hden, hfraction⟩ := c.fraction_value
  have hmagnitude := nearestMagnitude_of_absolute hden hfinite (hfraction.trans h)
  have hpoint : -330 ≤ c.point ∧ c.point ≤ 310 := by
    by_cases hne : c.digits = []
    · have := hnormal.zero hne
      omega
    · obtain ⟨hlow, hhigh⟩ := hnormal.bounds hne
      rw [h] at hlow hhigh
      have hten : (1 : ℚ) < 10 := by norm_num
      constructor
      · have hsmall := lt_of_le_of_lt (least_le_absolute (lt_of_lt_of_le (by positivity) hlow) hfinite) hhigh
        have := (zpow_lt_zpow_iff_right₀ hten).mp hsmall
        omega
      · have hlarge := lt_of_le_of_lt hlow (absolute_lt_largest hfinite)
        have := (zpow_lt_zpow_iff_right₀ hten).mp hlarge
        omega
  rw [ofDecimal, if_neg (by omega), if_neg (by omega), hmagnitude, ofMagnitude_magnitude]

/-! ## Written doubles -/

theorem value_exact (d : Double) : d.exact.value = d.absolute := by
  unfold exact absolute
  split
  · obtain ⟨k, hk⟩ := Int.eq_ofNat_of_zero_le ‹0 ≤ d.scale›
    rw [Decimal.value_ofNat, hk, Int.toNat_natCast, zpow_natCast, zpow_zero, mul_one]
    push_cast [Nat.pow_eq]
    rfl
  · obtain ⟨k, hk⟩ : ∃ k : Nat, d.scale = -(k : Int) := ⟨(-d.scale).toNat, by omega⟩
    rw [Decimal.value_ofNat, hk, neg_neg, Int.toNat_natCast, zpow_neg, zpow_neg, zpow_natCast, zpow_natCast]
    push_cast [Nat.pow_eq]
    have hten : (10 : ℚ) ^ k = 2 ^ k * 5 ^ k := by rw [← mul_pow]; norm_num
    rw [hten]
    field_simp

theorem normal_exact (d : Double) : d.exact.Normal := by
  unfold exact
  split <;> exact Decimal.normal_ofNat _ _

/-- The neighbour that is taken on a grid is normal and read back. -/
theorem ofDecimal_of_onGrid? {d : Double} {tie : Tie} {grid : Int} {num den : Nat} {c : Decimal}
    (h : d.onGrid? tie grid num den = some c) : c.Normal ∧ ofDecimal d.negative c = d := by
  have hpick {below above : Decimal} {p : Prop} [Decidable p] (hbelow : below.Normal)
      (habove : above.Normal)
      (h : (if ofDecimal d.negative below = d then
          if ofDecimal d.negative above = d ∧ p then some above else some below
        else if ofDecimal d.negative above = d then some above else none) = some c) :
      c.Normal ∧ ofDecimal d.negative c = d := by
    split at h
    · split at h
      · rename_i hboth
        cases h
        exact ⟨habove, hboth.1⟩
      · cases h
        exact ⟨hbelow, ‹_›⟩
    · split at h
      · cases h
        exact ⟨habove, ‹_›⟩
      · cases h
  unfold onGrid? at h
  simp only [beq_iff_eq] at h
  split at h <;> exact hpick (Decimal.normal_ofNat _ _) (Decimal.normal_ofNat _ _) h

/-- What is written of a finite double is normal and read back. -/
theorem ofDecimal_shortest {d : Double} (hfinite : d.isFinite) (tie : Tie) :
    (d.shortest tie).Normal ∧ ofDecimal d.negative (d.shortest tie) = d := by
  unfold shortest
  split
  · rename_i hzero
    have hmagnitude : d.magnitude = 0 := by simpa [isZero] using hzero
    have hnormal : (Decimal.mk [] 0).Normal := ⟨by simp, by simp, by simp, fun _ => rfl⟩
    refine ⟨hnormal, ofDecimal_of_value hnormal hfinite ?_⟩
    have hsignificand : d.significand = 0 := by
      rw [significand, hmagnitude, fractionCount_eq]
      rfl
    rw [absolute, hsignificand]
    simp [Decimal.value, Decimal.coefficient]
  · cases hfind : (List.range 17).findSome? fun n =>
        d.onGrid? tie (decimalPoint d.fraction.1 d.fraction.2 - (n + 1 : Nat)) d.fraction.1 d.fraction.2 with
    | none =>
      simp only [hfind, Option.getD_none]
      exact ⟨normal_exact d, ofDecimal_of_value (normal_exact d) hfinite (value_exact d)⟩
    | some c =>
      simp only [hfind, Option.getD_some]
      obtain ⟨n, _, hgrid⟩ := List.exists_of_findSome?_eq_some hfind
      exact ofDecimal_of_onGrid? hgrid

end Double

/-!
## Numbers in text

The text of a finite double is read back as that double, and the text of an integer of thirty-two bits
as the double that stands for it.
-/
namespace Double

theorem digit_toLower {c : Char} (h : c.isDigit) : c.toLower = c := by
  have hall : ∀ n : Fin 58, 48 ≤ n.val → (Char.ofNat n).toLower = Char.ofNat n := by decide
  obtain ⟨hlow, hhigh⟩ := Char.isDigit_iff_toNat.mp h
  have hlt : c.toNat < 58 := Nat.lt_succ_of_le hhigh
  have hdigit := hall ⟨c.toNat, hlt⟩ hlow
  rwa [Char.ofNat_toNat] at hdigit

/-- A numeral is not one of the words for special numbers, whatever its sign. -/
theorem read?_numeral {text : List Char} {d : Decimal} (hread : Decimal.read? text = some d)
    (hhead : ∃ c rest, text = c :: rest ∧ c.isDigit) (negative : Bool) :
    Double.read? ((if negative then ['-'] else []) ++ text) = some (ofDecimal negative d) := by
  obtain ⟨c, rest, rfl, hc⟩ := hhead
  have hsign : Text.splitSign ((if negative then ['-'] else []) ++ c :: rest) = (negative, c :: rest) := by
    cases negative with
    | true => rfl
    | false =>
      have hminus : c ≠ '-' := by rintro rfl; exact absurd hc (by decide)
      have hplus : c ≠ '+' := by rintro rfl; exact absurd hc (by decide)
      simp [Text.splitSign, hminus, hplus]
  have hlower : c.toLower = c := digit_toLower hc
  have hword {word : String} {first : Char} {others : List Char} (hw : word.toList = first :: others)
      (hfirst : ¬first.isDigit) : String.ofList ((c :: rest).map Char.toLower) ≠ word := by
    intro heq
    have := congrArg String.toList heq
    rw [String.toList_ofList, hw, List.map_cons, hlower] at this
    cases this
    exact hfirst hc
  have hinf : String.ofList ((c :: rest).map Char.toLower) ≠ "inf" := hword rfl (by decide)
  have hinfinity : String.ofList ((c :: rest).map Char.toLower) ≠ "infinity" := hword rfl (by decide)
  have hnan : String.ofList ((c :: rest).map Char.toLower) ≠ "nan" := hword rfl (by decide)
  simp only [Double.read?, hsign, hinf, hinfinity, hnan, or_self, if_false, hread, Option.map_some]

/-- The text of a finite number. -/
theorem toList_text {d : Double} (hfinite : d.isFinite) : d.text.toList =
    (if d.negative then ['-'] else []) ++ (d.shortest .up).toChars false := by
  have hlt : d.magnitude < infinite := by simpa [isFinite] using hfinite
  have hnan : d.isNaN = false := by simp [isNaN]; omega
  have hinf : d.isInfinite = false := by simp [isInfinite]; omega
  simp only [Double.text, toText, hnan, hinf, Bool.false_eq_true, if_false, String.toList_append,
    String.toList_ofList]
  cases d.negative <;> rfl

/-- The text of a finite number is read back. -/
theorem read?_text {d : Double} (hfinite : d.isFinite) : Double.read? d.text.toList = some d := by
  obtain ⟨hnormal, hback⟩ := ofDecimal_shortest hfinite .up
  rw [toList_text hfinite, read?_numeral (Decimal.read?_toChars false hnormal)
    (Decimal.toChars_head false hnormal), hback]

theorem isNumeral_text {d : Double} (hfinite : d.isFinite) : Json.IsNumeral d.text.toList := by
  rw [toList_text hfinite]
  exact Decimal.isNumeral_toChars false d.negative (ofDecimal_shortest hfinite .up).1

/-! ### Integers -/

/-- Every whole number of up to fifty-three bits is a double of either sign. -/
theorem exists_absolute_eq {n : Nat} (h : n < 2 ^ 53) (negative : Bool) :
    ∃ d : Double, d.isFinite ∧ d.negative = negative ∧ d.absolute = n := by
  have hmake {magnitude : Nat} (hlt : magnitude < infinite) (significand : Nat) (scale : Int)
      (hsignificand : (ofMagnitude negative magnitude).significand = significand)
      (hscale : (ofMagnitude negative magnitude).scale = scale)
      (hvalue : (significand : ℚ) * 2 ^ scale = n) :
      ∃ d : Double, d.isFinite ∧ d.negative = negative ∧ d.absolute = n := by
    have hsign : magnitude < signUnit := by
      rw [infinite_eq] at hlt
      rw [signUnit_eq]
      omega
    refine ⟨ofMagnitude negative magnitude, ?_, negative_ofMagnitude hsign negative, ?_⟩
    · simpa [isFinite, magnitude_ofMagnitude hsign] using hlt
    · rw [absolute, hsignificand, hscale, hvalue]
  by_cases hzero : n = 0
  · have hmagnitude : (ofMagnitude negative 0).magnitude = 0 := magnitude_ofMagnitude (by decide) negative
    have hsignificand : (ofMagnitude negative 0).significand = 0 := by
      rw [significand, hmagnitude, fractionCount_eq]
      rfl
    exact hmake (by decide) 0 _ hsignificand rfl (by rw [hzero]; simp)
  · -- the significand is the number moved up to fifty-three bits
    have hlog : n.log2 < 53 := (Nat.log2_lt hzero).mpr h
    have hlow : 2 ^ 52 ≤ n * 2 ^ (52 - n.log2) := by
      calc 2 ^ 52 = 2 ^ n.log2 * 2 ^ (52 - n.log2) := by rw [← pow_add]; congr 1; omega
        _ ≤ n * 2 ^ (52 - n.log2) := Nat.mul_le_mul_right _ (Nat.log2_self_le hzero)
    have hhigh : n * 2 ^ (52 - n.log2) < 2 ^ 53 := by
      calc n * 2 ^ (52 - n.log2) < 2 ^ (n.log2 + 1) * 2 ^ (52 - n.log2) :=
            Nat.mul_lt_mul_of_pos_right Nat.lt_log2_self (Nat.two_pow_pos _)
        _ = 2 ^ 53 := by rw [← pow_add]; congr 1; omega
    have hvalue : ((n * 2 ^ (52 - n.log2) : Nat) : ℚ) * 2 ^ ((n.log2 : ℤ) - 52) = n := by
      have hexp : ((52 - n.log2 : Nat) : ℤ) + ((n.log2 : ℤ) - 52) = 0 := by omega
      push_cast
      rw [mul_assoc, ← zpow_natCast, ← zpow_add₀ (by norm_num), hexp, zpow_zero, mul_one]
    generalize n * 2 ^ (52 - n.log2) = word at hlow hhigh hvalue
    have hlt : (n.log2 + 1022) * fractionCount + word < infinite := by
      rw [fractionCount_eq, infinite_eq]
      omega
    have hmagnitude : (ofMagnitude negative ((n.log2 + 1022) * fractionCount + word)).magnitude =
        (n.log2 + 1022) * fractionCount + word := by
      refine magnitude_ofMagnitude ?_ negative
      rw [infinite_eq] at hlt
      rw [signUnit_eq]
      omega
    refine hmake hlt word (n.log2 - 52) ?_ ?_ hvalue
    · rw [significand, hmagnitude, fractionCount_eq]
      split <;> omega
    · rw [scale, hmagnitude, fractionCount_eq]
      omega

/-- A double that stands for a whole number. -/
theorem toInt?_of_absolute {d : Double} (hfinite : d.isFinite) {n : Nat} (h : d.absolute = n) :
    d.toInt? = some (if d.negative then -(n : Int) else n) := by
  obtain ⟨hden, hfraction⟩ := d.fraction_absolute
  have hq : (d.fraction.2 : ℚ) ≠ 0 := by exact_mod_cast hden.ne'
  have hnum : d.fraction.1 = n * d.fraction.2 := by
    rw [h, div_eq_iff hq] at hfraction
    exact_mod_cast hfraction
  have hmod : d.fraction.1 % d.fraction.2 = 0 := by rw [hnum, Nat.mul_mod_left]
  have hdiv : d.fraction.1 / d.fraction.2 = n := by rw [hnum, Nat.mul_div_cancel n hden]
  simp only [toInt?, hfinite, hmod, hdiv, and_self, if_true]

end Double

/-- The text of an integer is read as that integer. -/
theorem Json.numberValue_int (n : Int32) : Json.numberValue (toString n.toInt) = .int n := by
  have hlow := n.le_toInt
  have hhigh := n.toInt_lt
  obtain ⟨d, hfinite, hnegative, habsolute⟩ :=
    Double.exists_absolute_eq (by omega : n.toInt.natAbs < 2 ^ 53) (n.toInt < 0)
  have hdigits := Decimal.digits_toDigits n.toInt.natAbs
  have hread : Decimal.read? (Nat.toDigits 10 n.toInt.natAbs) = some (Decimal.ofNat n.toInt.natAbs 0) := by
    have hend : ∀ c ∈ ([] : List Char).head?, ¬c.isDigit ∧ c ≠ '.' := by simp
    have hwhole := Decimal.read?_whole hdigits hend
    rwa [List.append_nil] at hwhole
  have hvalue : (Decimal.ofNat n.toInt.natAbs 0).value = d.absolute := by
    rw [Decimal.value_ofNat, zpow_zero, mul_one, habsolute]
  have hback := Double.ofDecimal_of_value (Decimal.normal_ofNat _ _) hfinite hvalue
  have hhead : ∃ c rest, Nat.toDigits 10 n.toInt.natAbs = c :: rest ∧ c.isDigit := by
    cases hlist : Nat.toDigits 10 n.toInt.natAbs with
    | nil => exact (hdigits.nonempty hlist).elim
    | cons c rest => exact ⟨c, rest, rfl, hdigits.digit c (hlist ▸ List.mem_cons_self)⟩
  have hdouble : Double.read? (toString n.toInt).toList = some d := by
    have hnumeral := Double.read?_numeral hread hhead d.negative
    rw [hback, hnegative] at hnumeral
    rw [Decimal.toList_toString_int]
    simpa only [decide_eq_true_eq] using hnumeral
  have hint : d.toInt? = some n.toInt := by
    rw [Double.toInt?_of_absolute hfinite habsolute, hnegative]
    simp only [decide_eq_true_eq, Option.some.injEq]
    split <;> omega
  have hint32 : d.toInt32? = some n := by
    have hmin : Int32.minValue.toInt = -2147483648 := rfl
    have hmax : Int32.maxValue.toInt = 2147483647 := rfl
    simp only [Double.toInt32?, hint, hmin, hmax]
    rw [if_pos (by omega), Int32.ofInt_toInt]
  simp only [Json.numberValue, hdouble, hint32]

theorem Json.isNumeral_int (n : Int) : Json.IsNumeral (toString n).toList := by
  have hsign : (if n < 0 then ['-'] else []) = [] ∨ (if n < 0 then ['-'] else []) = ['-'] := by
    split
    · exact .inr rfl
    · exact .inl rfl
  have hnumeral : Json.IsNumeral ((if n < 0 then ['-'] else []) ++ Nat.toDigits 10 n.natAbs ++ [] ++ []) :=
    .mk hsign (Decimal.digits_toDigits _) .none .none
  rw [Decimal.toList_toString_int]
  simpa only [List.append_nil] using hnumeral

/-- The text of a finite double that is no such integer is read as that double. -/
theorem Json.numberValue_text {d : Double} (hfinite : d.isFinite) (hint : d.toInt32? = none) :
    Json.numberValue d.text = .double d := by
  simp only [Json.numberValue, Double.read?_text hfinite, hint]

end AssetPack
