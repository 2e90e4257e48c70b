import Mathlib.Algebra.BigOperators.Group.List.Basic
import Mathlib.Algebra.Order.Group.Nat
import Mathlib.Data.List.Induction

/-!
# Mixed radix enumeration

A number below the product of the bases is read as one digit per base, the first base being the
least significant: the order in which repeated division enumerates a product of finite lists.
-/

namespace PolemoDB.Lib

open List Nat

/-- The digits that repeated division yields. -/
def radixDigits : List ℕ → ℕ → List ℕ
  | [], _ => []
  | b :: bs, i => i % b :: radixDigits bs (i / b)

/-- The number with the given digits. -/
def ofRadixDigits : List ℕ → List ℕ → ℕ
  | b :: bs, d :: ds => d + b * ofRadixDigits bs ds
  | _, _ => 0

/-- Every digit is below its base. -/
def DigitsBelow : List ℕ → List ℕ → Prop
  | [], [] => True
  | b :: bs, d :: ds => d < b ∧ DigitsBelow bs ds
  | _, _ => False

variable (bs : List ℕ)

/-- **Every choice of digits is enumerated**, below the product of the bases. -/
theorem radixDigits_ofRadixDigits {ds : List ℕ} (h : DigitsBelow bs ds) :
    ofRadixDigits bs ds < bs.prod ∧ radixDigits bs (ofRadixDigits bs ds) = ds := by
  induction bs generalizing ds with
  | nil =>
    cases ds with
    | nil => exact ⟨one_pos, rfl⟩
    | cons d ds => exact h.elim
  | cons b bs ih =>
    cases ds with
    | nil => exact h.elim
    | cons d ds =>
      obtain ⟨hd, hds⟩ := h
      obtain ⟨hlt, heq⟩ := ih hds
      have hb : 0 < b := by omega
      refine ⟨?_, ?_⟩
      · calc d + b * ofRadixDigits bs ds < b + b * ofRadixDigits bs ds := by omega
          _ = b * (ofRadixDigits bs ds + 1) := by rw [mul_succ, add_comm]
          _ ≤ b * bs.prod := mul_le_mul_left b hlt
      · rw [ofRadixDigits, radixDigits, add_mul_mod_self_left, mod_eq_of_lt hd,
          add_mul_div_left d _ hb, div_eq_of_lt hd, zero_add, heq]

theorem digitsBelow_radixDigits : ∀ i, (∀ b ∈ bs, 0 < b) → DigitsBelow bs (radixDigits bs i) := by
  induction bs with
  | nil => exact fun _ _ => trivial
  | cons b bs ih =>
    intro i h
    exact ⟨mod_lt i (h b mem_cons_self), ih _ fun c hc => h c (mem_cons_of_mem _ hc)⟩

theorem digitsBelow_single : ∀ {k b : ℕ}, (∀ c ∈ bs, 0 < c) → bs[k]? = some b →
    2 ≤ b → DigitsBelow bs (List.replicate k 0 ++ 1 :: List.replicate (bs.length - k - 1) 0) := by
  induction bs with
  | nil => exact fun _ hk => absurd hk (by simp)
  | cons c bs ih =>
    intro k b hpos hk hb
    have hrest := fun d hd => hpos d (mem_cons_of_mem c hd)
    cases k with
    | zero =>
      obtain rfl : c = b := by simpa using hk
      refine ⟨hb, ?_⟩
      clear ih hk hpos
      induction bs with
      | nil => trivial
      | cons d bs ih => exact ⟨hrest d mem_cons_self, ih fun e he => hrest e (mem_cons_of_mem _ he)⟩
    | succ k =>
      refine ⟨hpos c mem_cons_self, ?_⟩
      rw [length_cons, Nat.add_sub_add_right]
      exact ih hrest (by simpa using hk) hb

/-- **A digit stays zero** until the numbers reach the product of the bases before it. -/
theorem radixDigits_eq_zero : ∀ {k i : ℕ}, k < bs.length → i < (bs.take k).prod →
    (radixDigits bs i)[k]? = some 0 := by
  induction bs with
  | nil => exact fun hk => absurd hk (not_lt_zero _)
  | cons b bs ih =>
    intro k i hk hi
    cases k with
    | zero =>
      rw [take_zero, prod_nil] at hi
      obtain rfl : i = 0 := by omega
      simp [radixDigits]
    | succ k => exact ih (Nat.lt_of_succ_lt_succ hk) (Nat.div_lt_of_lt_mul hi)

/-- If the product of bases that are at most `m` exceeds `m * t`, some base of two or more digits
comes after a product of at least `t`. -/
theorem exists_base_after {m t : ℕ} (hm : 2 ≤ m) (ht : 1 ≤ t) (bs : List ℕ) (hbs : ∀ b ∈ bs, b ≤ m)
    (hprod : m * t ≤ bs.prod) : ∃ k b, bs[k]? = some b ∧ 2 ≤ b ∧ t ≤ (bs.take k).prod := by
  induction bs using reverseRecOn with
  | nil =>
    rw [prod_nil] at hprod
    have : m * 1 ≤ m * t := mul_le_mul_left m ht
    omega
  | append_singleton bs b ih =>
    rw [prod_append, prod_singleton] at hprod
    by_cases hb : 2 ≤ b
    · refine ⟨bs.length, b, by simp, hb, ?_⟩
      rw [take_left]
      have hbm : b ≤ m := hbs b (by simp)
      have h : m * t ≤ m * bs.prod := hprod.trans (by rw [mul_comm]; exact mul_le_mul_right _ hbm)
      exact Nat.le_of_mul_le_mul_left h (by omega)
    -- the last base has one digit and changes nothing
    have hpos : 0 < m * t := Nat.mul_pos (by omega) (by omega)
    obtain rfl : b = 1 := by
      rcases Nat.eq_zero_or_pos b with rfl | hb0
      · omega
      · omega
    obtain ⟨k, c, hk, hc, hle⟩ := ih (fun c hc => hbs c (by simp [hc])) (by simpa using hprod)
    have hlt : k < bs.length := by
      by_contra hge
      rw [getElem?_eq_none (by omega)] at hk
      exact absurd hk (by simp)
    refine ⟨k, c, by rw [getElem?_append_left hlt]; exact hk, hc, ?_⟩
    rw [take_append_of_le_length hlt.le]
    exact hle

end PolemoDB.Lib
