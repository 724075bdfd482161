import Mathlib.Data.Rat.Defs
import Mathlib.Data.Rat.Lemmas
import Mathlib.Data.Rat.Cast.Order
import Mathlib.Data.Nat.Size
import Mathlib.Algebra.Order.Field.Basic
import Mathlib.Algebra.Order.Field.Power
import Mathlib.Tactic.Linarith
import Mathlib.Tactic.Positivity
import Mathlib.Tactic.NormNum
import Mathlib.Tactic.FieldSimp
import Mathlib.Tactic.Ring

/-!
# Finite binary64 numbers

A finite double is a sign, a significand of at most 53 bits and an exponent; it denotes the exact
dyadic rational. Integers are converted by some rounding that is monotone and exact on what can
be represented; nothing else is asked of it.
-/

/-- A finite double; a zero keeps its sign. -/
structure Binary64 where
  negative : Bool
  significand : Nat
  exponent : Int
  significand_lt : significand < 2 ^ 53
  exponent_ge : -1074 ≤ exponent
  exponent_le : exponent ≤ 971

namespace Binary64

def value (x : Binary64) : ℚ :=
  (if x.negative then -1 else 1) * x.significand * 2 ^ x.exponent

theorem abs_value (x : Binary64) : |x.value| = x.significand * 2 ^ x.exponent := by
  have hsign : |(if x.negative then -1 else 1 : ℚ)| = 1 := by
    cases x.negative <;> simp
  have hpow : (0 : ℚ) < 2 ^ x.exponent := by positivity
  rw [value, abs_mul, abs_mul, hsign, one_mul, Nat.abs_cast, abs_of_pos hpow]

/-- A rational that some double denotes. -/
def Representable (q : ℚ) : Prop :=
  ∃ x : Binary64, x.value = q

/-- A double that is not an integer is small. -/
theorem abs_value_lt_of_den_ne_one {x : Binary64} (h : x.value.den ≠ 1) : |x.value| < 2 ^ 53 := by
  have hexponent : x.exponent < 0 := by
    by_contra hge
    apply h
    obtain ⟨n, hn⟩ := Int.eq_ofNat_of_zero_le (not_lt.mp hge)
    have hint : x.value = (((if x.negative then -1 else 1) * x.significand * 2 ^ n : Int) : ℚ) := by
      rw [value, hn]
      cases x.negative <;> push_cast <;> simp
    rw [hint]
    exact Rat.den_intCast _
  have hsignificand : (x.significand : ℚ) < 2 ^ 53 := by exact_mod_cast x.significand_lt
  have hpow : (2 : ℚ) ^ x.exponent ≤ 1 := zpow_le_one_of_nonpos₀ (by norm_num) hexponent.le
  rw [abs_value]
  calc (x.significand : ℚ) * 2 ^ x.exponent ≤ x.significand * 1 := by gcongr
    _ < 2 ^ 53 := by simpa using hsignificand

variable {n : Int}

theorem representable_of_lt (h : n.natAbs < 2 ^ 53) : Representable n := by
  refine ⟨⟨decide (n < 0), n.natAbs, 0, h, by omega, by omega⟩, ?_⟩
  rw [value, zpow_zero, mul_one]
  rcases lt_or_ge n 0 with hneg | hpos
  · have habs : (n.natAbs : ℚ) = -n := by
      rw [Nat.cast_natAbs, abs_of_neg hneg, Int.cast_neg]
    simp [hneg, habs]
  · have habs : (n.natAbs : ℚ) = n := by
      rw [Nat.cast_natAbs, abs_of_nonneg hpos]
    simp [not_lt.mpr hpos, habs]

theorem representable_two_pow (negative : Bool) {k : Nat} (h : k ≤ 971) :
    Representable (((if negative then -1 else 1) * 2 ^ k : Int) : ℚ) := by
  refine ⟨⟨negative, 1, k, by norm_num, by omega, by omega⟩, ?_⟩
  rw [value]
  cases negative <;> simp

structure Conversion where
  convert : Int → Binary64
  -- both laws are about the integers of 64 bits, the only ones that are converted
  monotone : ∀ m n : Int, -2 ^ 63 ≤ m → m ≤ n → n ≤ 2 ^ 64 →
    (convert m).value ≤ (convert n).value
  exact : ∀ n : Int, -2 ^ 63 ≤ n → n ≤ 2 ^ 64 → Representable n → (convert n).value = n

variable (conversion : Conversion)

/-- The converted integer lies on the same side of a small number that is not an integer. -/
theorem Conversion.compare_small {q : ℚ} (hlow : -2 ^ 63 ≤ n) (hhigh : n ≤ 2 ^ 64)
    (hq : |q| < 2 ^ 53) (hden : q.den ≠ 1) :
    ((conversion.convert n).value < q ↔ (n : ℚ) < q) ∧
      (q < (conversion.convert n).value ↔ q < (n : ℚ)) := by
  have hpow := conversion.exact (2 ^ 53) (by norm_num) (by norm_num) (by
    simpa using @representable_two_pow false 53 (by norm_num))
  have hneg := conversion.exact (-2 ^ 53) (by norm_num) (by norm_num) (by
    simpa using @representable_two_pow true 53 (by norm_num))
  obtain ⟨hql, hqr⟩ := abs_lt.mp hq
  have hne : (n : ℚ) ≠ q := by
    rintro rfl
    exact hden (Rat.den_intCast n)
  rcases lt_trichotomy n.natAbs (2 ^ 53) with hsmall | heq | hbig
  · rw [conversion.exact n hlow hhigh (representable_of_lt hsmall)]
    exact ⟨Iff.rfl, Iff.rfl⟩
  all_goals
    rcases le_or_gt 0 n with hsign | hsign
    · have hge : (2 : Int) ^ 53 ≤ n := by omega
      have hmono := conversion.monotone (2 ^ 53) n (by norm_num) hge hhigh
      rw [hpow] at hmono
      have hcast : (2 : ℚ) ^ 53 ≤ n := by exact_mod_cast hge
      push_cast at hmono
      constructor
      · constructor <;> intro h <;> linarith
      · constructor <;> intro h <;> linarith
    · have hle : n ≤ -2 ^ 53 := by omega
      have hmono := conversion.monotone n (-2 ^ 53) hlow hle (by norm_num)
      rw [hneg] at hmono
      have hcast : (n : ℚ) ≤ -2 ^ 53 := by exact_mod_cast hle
      push_cast at hmono
      constructor
      · constructor <;> intro h <;> linarith
      · constructor <;> intro h <;> linarith

/-- The converted integer stays within the range of 64 bits. -/
theorem Conversion.bounds (hlow : -2 ^ 63 ≤ n) (hhigh : n ≤ 2 ^ 64) :
    -2 ^ 63 ≤ (conversion.convert n).value ∧ (conversion.convert n).value ≤ 2 ^ 64 := by
  have hpow := conversion.exact (2 ^ 64) (by norm_num) (by norm_num) (by
    simpa using @representable_two_pow false 64 (by norm_num))
  have hneg := conversion.exact (-2 ^ 63) (by norm_num) (by norm_num) (by
    simpa using @representable_two_pow true 63 (by norm_num))
  have hleft := conversion.monotone (-2 ^ 63) n le_rfl hlow hhigh
  have hright := conversion.monotone n (2 ^ 64) hlow hhigh le_rfl
  rw [hneg] at hleft
  rw [hpow] at hright
  push_cast at hleft hright
  exact ⟨hleft, hright⟩

/-- The bits beyond the first 53. -/
def excess (a : Nat) : Nat :=
  a.size - 53

/-- The first 53 bits in place. -/
def truncated (a : Nat) : Nat :=
  a / 2 ^ excess a * 2 ^ excess a

theorem leading_lt (a : Nat) : a / 2 ^ excess a < 2 ^ 53 := by
  rw [Nat.div_lt_iff_lt_mul (by positivity), ← pow_add]
  calc a < 2 ^ a.size := a.lt_size_self
    _ ≤ 2 ^ (53 + excess a) := Nat.pow_le_pow_right (by norm_num) (by unfold excess; omega)

variable {a : Nat}

theorem truncated_mono {b : Nat} (h : a ≤ b) : truncated a ≤ truncated b := by
  have hsize : a.size ≤ b.size := Nat.size_le_size h
  by_cases hsame : excess a = excess b
  · unfold truncated
    rw [hsame]
    exact Nat.mul_le_mul_right _ (Nat.div_le_div_right h)
  · -- the leading bit of the longer number is kept
    have hlong : 53 < b.size ∧ a.size < b.size := by
      unfold excess at hsame
      omega
    have hlead : 2 ^ (b.size - 1) ≤ b := Nat.lt_size.mp (by omega)
    have hsplit : 2 ^ (b.size - 1) = 2 ^ 52 * 2 ^ excess b := by
      rw [← pow_add]
      congr 1
      unfold excess
      omega
    calc truncated a ≤ a := Nat.div_mul_le_self _ _
      _ ≤ 2 ^ a.size := a.lt_size_self.le
      _ ≤ 2 ^ (b.size - 1) := Nat.pow_le_pow_right (by norm_num) (by omega)
      _ = 2 ^ 52 * 2 ^ excess b := hsplit
      _ ≤ truncated b := by
        refine Nat.mul_le_mul_right _ ?_
        rw [Nat.le_div_iff_mul_le (by positivity), ← hsplit]
        exact hlead

theorem truncated_of_lt (h : a < 2 ^ 53) : truncated a = a := by
  have hsize : a.size ≤ 53 := Nat.size_le.mpr h
  have hnone : excess a = 0 := by
    unfold excess
    omega
  simp [truncated, hnone]

theorem truncated_mul_two_pow {m : Nat} (k : Nat) (h : m < 2 ^ 53) :
    truncated (m * 2 ^ k) = m * 2 ^ k := by
  have hsize : (m * 2 ^ k).size ≤ 53 + k := by
    rw [Nat.size_le, pow_add]
    exact Nat.mul_lt_mul_of_pos_right h (by positivity)
  have hexcess : excess (m * 2 ^ k) ≤ k := by
    unfold excess
    omega
  exact Nat.div_mul_cancel (Dvd.dvd.mul_left (Nat.pow_dvd_pow 2 hexcess) m)

theorem truncated_of_representable (h : Representable n) :
    truncated n.natAbs = n.natAbs := by
  obtain ⟨x, hx⟩ := h
  have habs : (n.natAbs : ℚ) = x.significand * 2 ^ x.exponent := by
    rw [← abs_value, hx, Nat.cast_natAbs, Int.cast_abs]
  rcases le_total 0 x.exponent with hpos | hneg
  · obtain ⟨k, hk⟩ := Int.eq_ofNat_of_zero_le hpos
    have hnat : n.natAbs = x.significand * 2 ^ k := by
      rw [hk] at habs
      exact_mod_cast habs
    rw [hnat]
    exact truncated_mul_two_pow k x.significand_lt
  · have hpow : (2 : ℚ) ^ x.exponent ≤ 1 := zpow_le_one_of_nonpos₀ (by norm_num) hneg
    have hle : (n.natAbs : ℚ) ≤ x.significand := by
      calc (n.natAbs : ℚ) = x.significand * 2 ^ x.exponent := habs
        _ ≤ x.significand * 1 := by gcongr
        _ = x.significand := mul_one _
    exact truncated_of_lt (lt_of_le_of_lt (by exact_mod_cast hle) x.significand_lt)

/-- The integer rounded toward zero. -/
def truncate (n : Int) : Binary64 where
  negative := decide (n < 0)
  significand := n.natAbs / 2 ^ excess n.natAbs
  exponent := min (excess n.natAbs) 971
  significand_lt := leading_lt n.natAbs
  exponent_ge := by omega
  exponent_le := by omega

theorem truncate_value (hlow : -2 ^ 63 ≤ n) (hhigh : n ≤ 2 ^ 64) :
    (truncate n).value = ((n.sign * truncated n.natAbs : Int) : ℚ) := by
  have hsize : n.natAbs.size ≤ 65 := Nat.size_le.mpr (by omega)
  have hexponent : (truncate n).exponent = (excess n.natAbs : Int) := by
    show min (excess n.natAbs : Int) 971 = _
    unfold excess
    omega
  have hmagnitude : ((truncate n).significand : ℚ) * 2 ^ excess n.natAbs = truncated n.natAbs := by
    simp [truncate, truncated]
  rw [value, hexponent, zpow_natCast, mul_assoc, hmagnitude, Int.cast_mul, Int.cast_natCast]
  rcases lt_trichotomy n 0 with hneg | rfl | hpos
  · simp [truncate, hneg, Int.sign_eq_neg_one_of_neg hneg]
  · simp [truncated]
  · simp [truncate, not_lt.mpr hpos.le, Int.sign_eq_one_of_pos hpos]

theorem sign_mul_truncated_mono {m : Int} (h : m ≤ n) :
    m.sign * truncated m.natAbs ≤ n.sign * truncated n.natAbs := by
  rcases lt_trichotomy m 0 with hm | rfl | hm
  · rw [Int.sign_eq_neg_one_of_neg hm]
    rcases lt_or_ge n 0 with hn | hn
    · have hmono : truncated n.natAbs ≤ truncated m.natAbs := truncated_mono (by omega)
      rw [Int.sign_eq_neg_one_of_neg hn]
      omega
    · have hsign : 0 ≤ n.sign * truncated n.natAbs :=
        mul_nonneg (Int.sign_nonneg_iff.mpr hn) (Int.natCast_nonneg _)
      omega
  · rw [Int.sign_zero, zero_mul]
    exact mul_nonneg (Int.sign_nonneg_iff.mpr h) (Int.natCast_nonneg _)
  · have hmono : truncated m.natAbs ≤ truncated n.natAbs := truncated_mono (by omega)
    rw [Int.sign_eq_one_of_pos hm, Int.sign_eq_one_of_pos (lt_of_lt_of_le hm h)]
    omega

def Conversion.truncating : Conversion where
  convert := truncate
  monotone := by
    intro m n hlow hle hhigh
    rw [truncate_value hlow (hle.trans hhigh), truncate_value (hlow.trans hle) hhigh]
    exact_mod_cast sign_mul_truncated_mono hle
  exact := by
    intro n hlow hhigh hrepresentable
    rw [truncate_value hlow hhigh, truncated_of_representable hrepresentable, Int.sign_mul_natAbs]

end Binary64
