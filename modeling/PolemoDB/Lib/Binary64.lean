import Mathlib.Data.Int.Log
import Mathlib.Data.Rat.Floor
import Mathlib.Tactic.Positivity

/-!
# Rounding of positive rationals to binary64

A positive rational is rounded to a 53-bit significand, ties to even, with an unbounded
exponent.  This is the IEEE double operation wherever the result is a normal number.

Principal results:

* `roundBinary64_mono` — rounding is monotone, also across a change of exponent;
* `le_roundBinary64` / `roundBinary64_le` — a representable bound survives the rounding.
-/

namespace PolemoDB.Lib

open Int

/-- Round to the nearest integer, ties to even. -/
def roundHalfEven (q : ℚ) : ℤ :=
  if q - ⌊q⌋ < 1 / 2 then ⌊q⌋
  else if 1 / 2 < q - ⌊q⌋ then ⌊q⌋ + 1
  else if ⌊q⌋ % 2 = 0 then ⌊q⌋ else ⌊q⌋ + 1

/-- Exponent of the last significand bit of `q`. -/
def ulpExp (q : ℚ) : ℤ := log 2 q - 52

/-- Round a positive rational to a 53-bit significand. -/
def roundBinary64 (q : ℚ) : ℚ := roundHalfEven (q / 2 ^ ulpExp q) * 2 ^ ulpExp q

/-! ## Rounding to an integer -/

theorem floor_le_roundHalfEven (q : ℚ) : ⌊q⌋ ≤ roundHalfEven q := by
  unfold roundHalfEven
  split
  · exact le_refl _
  · split
    · omega
    · split <;> omega

theorem roundHalfEven_le (q : ℚ) : roundHalfEven q ≤ ⌊q⌋ + 1 := by
  unfold roundHalfEven
  split
  · omega
  · split
    · omega
    · split <;> omega

theorem roundHalfEven_intCast (n : ℤ) : roundHalfEven (n : ℚ) = n := by
  unfold roundHalfEven
  simp

variable {q : ℚ} {n : ℕ}

theorem roundHalfEven_mono {p : ℚ} (h : p ≤ q) : roundHalfEven p ≤ roundHalfEven q := by
  have hf : ⌊p⌋ ≤ ⌊q⌋ := floor_le_floor h
  by_cases hlt : ⌊p⌋ < ⌊q⌋
  · have h1 := roundHalfEven_le p
    have h2 := floor_le_roundHalfEven q
    omega
  -- same integer part: the three branches are ordered by the fractional part
  have heq : ⌊p⌋ = ⌊q⌋ := by omega
  unfold roundHalfEven
  rw [heq]
  have hfr : p - ⌊q⌋ ≤ q - ⌊q⌋ := by linarith
  by_cases h1 : q - ⌊q⌋ < 1 / 2
  · rw [if_pos h1, if_pos (lt_of_le_of_lt hfr h1)]
  by_cases h2 : 1 / 2 < q - ⌊q⌋
  · split
    · omega
    · split
      · omega
      · split <;> omega
  · rw [if_neg h2, if_neg (not_lt.2 (hfr.trans (not_lt.1 h2)))]
    split <;> split <;> omega

theorem le_roundHalfEven {n : ℤ} (h : (n : ℚ) ≤ q) : n ≤ roundHalfEven q := by
  have := roundHalfEven_mono h
  rwa [roundHalfEven_intCast] at this

theorem roundHalfEven_le_of_le {n : ℤ} (h : q ≤ n) : roundHalfEven q ≤ n := by
  have := roundHalfEven_mono h
  rwa [roundHalfEven_intCast] at this

/-! ## Rounding to 53 bits -/

theorem two_zpow_pos (k : ℤ) : (0 : ℚ) < 2 ^ k := zpow_pos (by norm_num) k

theorem zpow_log_le (hq : 0 < q) : (2 : ℚ) ^ log 2 q ≤ q := by
  simpa using zpow_log_le_self (R := ℚ) (b := 2) (by norm_num) hq

theorem lt_zpow_log_succ (q : ℚ) : q < (2 : ℚ) ^ (log 2 q + 1) := by
  simpa using lt_zpow_succ_log_self (R := ℚ) (b := 2) (by norm_num) q

theorem roundBinary64_binade (hq : 0 < q) :
    (2 : ℚ) ^ log 2 q ≤ roundBinary64 q ∧ roundBinary64 q ≤ 2 ^ (log 2 q + 1) := by
  have hu := two_zpow_pos (ulpExp q)
  have hlo : (2 : ℚ) ^ log 2 q = ((2 ^ 52 : ℤ) : ℚ) * 2 ^ ulpExp q := by
    rw [show log 2 q = 52 + ulpExp q by unfold ulpExp; omega, zpow_add₀ (by norm_num)]
    norm_num
  have hhi : (2 : ℚ) ^ (log 2 q + 1) = ((2 ^ 53 : ℤ) : ℚ) * 2 ^ ulpExp q := by
    rw [show log 2 q + 1 = 53 + ulpExp q by unfold ulpExp; omega, zpow_add₀ (by norm_num)]
    norm_num
  constructor
  · rw [hlo]
    have h := zpow_log_le hq
    rw [hlo] at h
    have hz : (2 ^ 52 : ℤ) ≤ roundHalfEven (q / 2 ^ ulpExp q) :=
      le_roundHalfEven ((le_div_iff₀ hu).2 h)
    exact mul_le_mul_of_nonneg_right (by exact_mod_cast hz) hu.le
  rw [hhi]
  have h := (lt_zpow_log_succ q).le
  rw [hhi] at h
  have hz : roundHalfEven (q / 2 ^ ulpExp q) ≤ (2 ^ 53 : ℤ) :=
    roundHalfEven_le_of_le ((div_le_iff₀ hu).2 h)
  exact mul_le_mul_of_nonneg_right (by exact_mod_cast hz) hu.le

theorem roundBinary64_mono {p : ℚ} (hp : 0 < p) (h : p ≤ q) :
    roundBinary64 p ≤ roundBinary64 q := by
  have hq : 0 < q := lt_of_lt_of_le hp h
  have hlog : log 2 p ≤ log 2 q := log_mono_right hp h
  by_cases hlt : log 2 p < log 2 q
  · -- different binades: the power of two between them separates the results
    calc roundBinary64 p ≤ 2 ^ (log 2 p + 1) := (roundBinary64_binade hp).2
      _ ≤ 2 ^ log 2 q := zpow_le_zpow_right₀ (by norm_num) (by omega)
      _ ≤ roundBinary64 q := (roundBinary64_binade hq).1
  have heq : ulpExp p = ulpExp q := by unfold ulpExp; omega
  have hu := two_zpow_pos (ulpExp q)
  unfold roundBinary64
  rw [heq]
  have hm : roundHalfEven (p / 2 ^ ulpExp q) ≤ roundHalfEven (q / 2 ^ ulpExp q) :=
    roundHalfEven_mono (by gcongr)
  exact mul_le_mul_of_nonneg_right (by exact_mod_cast hm) hu.le

theorem log_natCast_mul_zpow_le (hn : 0 < n) (hn' : n < 2 ^ 53) (k : ℤ) :
    log 2 ((n : ℚ) * 2 ^ k) ≤ 52 + k := by
  have hpos : (0 : ℚ) < n * 2 ^ k := mul_pos (by exact_mod_cast hn) (two_zpow_pos k)
  have hlt : (n : ℚ) * 2 ^ k < (2 : ℚ) ^ (53 + k) := by
    rw [zpow_add₀ (by norm_num)]
    have : (n : ℚ) < 2 ^ (53 : ℤ) := by exact_mod_cast hn'
    exact mul_lt_mul_of_pos_right this (two_zpow_pos k)
  have := (lt_zpow_iff_log_lt (R := ℚ) (b := 2) (by norm_num) (x := 53 + k) hpos).1
    (by simpa using hlt)
  omega

/-- **Numbers with a 53-bit significand are left unchanged.** -/
theorem roundBinary64_exact (hn : 0 < n) (hn' : n < 2 ^ 53) (k : ℤ) :
    roundBinary64 ((n : ℚ) * 2 ^ k) = n * 2 ^ k := by
  have hle := log_natCast_mul_zpow_le hn hn' k
  obtain ⟨d, hd⟩ : ∃ d : ℕ, k = ulpExp ((n : ℚ) * 2 ^ k) + d := by
    refine ⟨(k - ulpExp ((n : ℚ) * 2 ^ k)).toNat, ?_⟩
    unfold ulpExp
    omega
  have hu := two_zpow_pos (ulpExp ((n : ℚ) * 2 ^ k))
  have hint : (n : ℚ) * 2 ^ k / 2 ^ ulpExp ((n : ℚ) * 2 ^ k) = ((n * 2 ^ d : ℤ) : ℚ) := by
    rw [div_eq_iff hu.ne']
    calc (n : ℚ) * 2 ^ k = n * 2 ^ (ulpExp ((n : ℚ) * 2 ^ k) + d) := by rw [← hd]
      _ = _ := by rw [zpow_add₀ (by norm_num)]; push_cast; rw [zpow_natCast]; ring
  unfold roundBinary64
  rw [hint, roundHalfEven_intCast, ← hint, div_mul_cancel₀ _ hu.ne']

theorem le_roundBinary64 {k : ℤ} (hn : 0 < n) (hn' : n < 2 ^ 53)
    (h : (n : ℚ) * 2 ^ k ≤ q) : (n : ℚ) * 2 ^ k ≤ roundBinary64 q := by
  have hpos : (0 : ℚ) < n * 2 ^ k := mul_pos (by exact_mod_cast hn) (two_zpow_pos k)
  have := roundBinary64_mono hpos h
  rwa [roundBinary64_exact hn hn'] at this

theorem roundBinary64_le {k : ℤ} (hn : 0 < n) (hn' : n < 2 ^ 53) (hq : 0 < q)
    (h : q ≤ (n : ℚ) * 2 ^ k) : roundBinary64 q ≤ (n : ℚ) * 2 ^ k := by
  have := roundBinary64_mono hq h
  rwa [roundBinary64_exact hn hn'] at this

end PolemoDB.Lib
