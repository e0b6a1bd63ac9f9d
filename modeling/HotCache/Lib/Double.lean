import Mathlib.Tactic
import Mathlib.Data.Int.Log

/-! Binary floating point as rounded rational arithmetic: `p` bits of precision, and the exponent of the
last place is at least `emin`. Numbers too large for the format are not rounded to infinity here. -/

namespace Double

/-- The nearest integer; of two the even one. -/
def roundEven (q : ℚ) : ℤ :=
  if Int.fract q < 1 / 2 then ⌊q⌋
  else if 1 / 2 < Int.fract q then ⌊q⌋ + 1
  else if ⌊q⌋ % 2 = 0 then ⌊q⌋
  else ⌊q⌋ + 1

/-- The exponent of the last place of a number of the size of `q`. -/
def lastPlace (p : ℕ) (emin : ℤ) (q : ℚ) : ℤ := max (Int.log 2 |q| - p + 1) emin

def round (p : ℕ) (emin : ℤ) (q : ℚ) : ℚ :=
  roundEven (q / 2 ^ lastPlace p emin q) * 2 ^ lastPlace p emin q

def toDouble : ℚ → ℚ := round 53 (-1074)

/-- The conversion to an integer drops the fraction. -/
def truncate (q : ℚ) : ℤ := q.num.tdiv q.den

def Fits (p : ℕ) (emin : ℤ) (q : ℚ) : Prop := ∃ m e : ℤ, |m| < 2 ^ p ∧ emin ≤ e ∧ q = m * 2 ^ e

variable {p : ℕ} {emin : ℤ} {q : ℚ}

theorem roundEven_intCast (n : ℤ) : roundEven n = n := by
  rw [roundEven, Int.fract_intCast, if_pos (by norm_num), Int.floor_intCast]

/-- The last place of a number of the format is not above the one it is written with. -/
theorem lastPlace_le {m e : ℤ} (hm : |m| < 2 ^ p) (he : emin ≤ e) (hne : m ≠ 0) :
    lastPlace p emin (m * 2 ^ e) ≤ e := by
  have hpos : (0 : ℚ) < |(m : ℚ) * 2 ^ e| := by positivity
  have hlt : |(m : ℚ) * 2 ^ e| < 2 ^ ((p : ℤ) + e) := by
    have hcast : |(m : ℚ)| < 2 ^ p := by exact_mod_cast hm
    rw [abs_mul, abs_of_pos (show (0 : ℚ) < 2 ^ e by positivity), zpow_add₀ two_ne_zero, zpow_natCast]
    exact mul_lt_mul_of_pos_right hcast (by positivity)
  have hlog := (Int.zpow_log_le_self one_lt_two hpos).trans_lt hlt
  have hexp : Int.log 2 |(m : ℚ) * 2 ^ e| < p + e := by
    apply (zpow_lt_zpow_iff_right₀ (show (1 : ℚ) < 2 by norm_num)).mp
    exact_mod_cast hlog
  rw [lastPlace, max_le_iff]
  exact ⟨by omega, he⟩

/-- An exact result that the format has is the result. -/
theorem round_of_fits (h : Fits p emin q) : round p emin q = q := by
  obtain ⟨m, e, hm, he, rfl⟩ := h
  rcases eq_or_ne m 0 with rfl | hne
  · have hzero := roundEven_intCast 0
    simp only [Int.cast_zero] at hzero
    simp [round, hzero]
  · obtain ⟨d, hd⟩ := Int.eq_ofNat_of_zero_le (sub_nonneg.mpr (lastPlace_le hm he hne))
    have hsplit : (m : ℚ) * 2 ^ e = ((m * 2 ^ d : ℤ) : ℚ) * 2 ^ lastPlace p emin (m * 2 ^ e) := by
      have hexp : e = d + lastPlace p emin (m * 2 ^ e) := by omega
      generalize lastPlace p emin (m * 2 ^ e) = l at hexp
      rw [hexp, zpow_add₀ two_ne_zero, zpow_natCast]
      push_cast
      ring
    have hquot : (m : ℚ) * 2 ^ e / 2 ^ lastPlace p emin (m * 2 ^ e) = ((m * 2 ^ d : ℤ) : ℚ) :=
      (div_eq_iff (by positivity)).mpr hsplit
    rw [round, hquot, roundEven_intCast, ← hsplit]

theorem fits_div (n k : ℕ) (hn : n < 2 ^ p) (hk : emin ≤ -k) : Fits p emin (n / 2 ^ k) := by
  refine ⟨n, -k, ?_, hk, ?_⟩
  · rw [Nat.abs_cast]
    exact_mod_cast hn
  · rw [zpow_neg, zpow_natCast, div_eq_mul_inv, Int.cast_natCast]

theorem toDouble_div {n : ℕ} (k : ℕ) (hn : n < 2 ^ 53) (hk : k ≤ 1074) :
    toDouble (n / 2 ^ k) = n / 2 ^ k :=
  round_of_fits (fits_div n k hn (by omega))

theorem toDouble_natCast {n : ℕ} (hn : n < 2 ^ 53) : toDouble n = n := by
  have h := toDouble_div 0 hn (by decide)
  rwa [pow_zero, div_one] at h

theorem truncate_of_nonneg (h : 0 ≤ q) : truncate q = ⌊q⌋ := by
  rw [truncate, Int.tdiv_eq_ediv_of_nonneg (Rat.num_nonneg.mpr h), Rat.floor_def']

example : toDouble (1 / 10) = 3602879701896397 / 2 ^ 55 := by decide +kernel

end Double
