import Mathlib.Data.List.Range
import Mathlib.Data.Nat.Bitwise
import Mathlib.Tactic.Ring

/-!
# Bit sequences packed least significant bit first

A list of `w`-bit words read as one bit sequence: bit `i` is bit `i % w`, counted from the least
significant one, of word `i / w`.  `onesFrom ws k` lists the positions of the set bits from `k` on.

Principal results: `lsbAt_append_right`, `lsbAt_setBit` (ORing one mask into one word sets one bit),
and `onesFrom_step`, `ones_cons`, `ones_append` (how the set positions are found bit by bit and word
by word).
-/

namespace PolemoDB.Lib

open List Nat

variable {w : Nat} (ws : List (BitVec w))

/-- Bit `i` of the sequence held by `ws`; words past the end read as zero. -/
def lsbAt (i : Nat) : Bool := (ws.getD (i / w) 0).getLsbD (i % w)

theorem lsbAt_cons_lt (x : BitVec w) (ws : List (BitVec w)) {i : Nat} (h : i < w) :
    lsbAt (x :: ws) i = x.getLsbD i := by
  unfold lsbAt
  rw [div_eq_of_lt h, mod_eq_of_lt h]
  rfl

theorem lsbAt_append_zeros (n i : Nat) : lsbAt (ws ++ List.replicate n 0) i = lsbAt ws i := by
  unfold lsbAt
  rw [getD_eq_getElem?_getD, getD_eq_getElem?_getD, getElem?_append]
  by_cases h : i / w < ws.length
  · rw [if_pos h]
  · rw [if_neg h, getElem?_eq_none (not_lt.mp h), getElem?_replicate]
    split <;> rfl

/-- Set bit `p` of the sequence. -/
def setBit (p : Nat) : List (BitVec w) :=
  ws.set (p / w) (ws.getD (p / w) 0 ||| 1#w <<< (p % w))

@[simp] theorem setBit_length (p : Nat) : (setBit ws p).length = ws.length := by
  simp [setBit]

section Bits

variable (hw : 0 < w)

include hw

theorem lsbAt_of_length_le {ws : List (BitVec w)} {i : Nat} (h : w * ws.length ≤ i) :
    lsbAt ws i = false := by
  unfold lsbAt
  have : ws.length ≤ i / w := (le_div_iff_mul_le hw).mpr (by rw [mul_comm]; exact h)
  rw [getD_eq_getElem?_getD, getElem?_eq_none this]
  simp

theorem lsbAt_append_right (ws vs : List (BitVec w)) (i : Nat) :
    lsbAt (ws ++ vs) (w * ws.length + i) = lsbAt vs i := by
  unfold lsbAt
  rw [getD_eq_getElem?_getD, getD_eq_getElem?_getD, mul_add_div hw, mul_add_mod,
    getElem?_append_right (Nat.le_add_right _ _), Nat.add_sub_cancel_left]

theorem lsbAt_cons_add (x : BitVec w) (ws : List (BitVec w)) (i : Nat) :
    lsbAt (x :: ws) (w + i) = lsbAt ws i := by
  have := lsbAt_append_right hw [x] ws i
  simpa using this

theorem lsbAt_setBit {ws : List (BitVec w)} {p : Nat} (hp : p < w * ws.length) (i : Nat) :
    lsbAt (setBit ws p) i = (lsbAt ws i || decide (i = p)) := by
  have hlen : p / w < ws.length := (div_lt_iff_lt_mul hw).mpr (by rw [mul_comm]; exact hp)
  unfold lsbAt setBit
  rw [getD_eq_getElem?_getD, getElem?_set]
  by_cases hk : p / w = i / w
  · rw [if_pos hk, if_pos hlen, Option.getD_some, BitVec.getLsbD_or, BitVec.getLsbD_shiftLeft,
      BitVec.getLsbD_one, hk]
    have heq : i = p ↔ i % w = p % w := by
      constructor
      · rintro rfl; rfl
      · intro h
        rw [← div_add_mod i w, ← div_add_mod p w, hk, h]
    congr 1
    by_cases h : i % w = p % w
    · simp [heq, h, mod_lt p hw]
      exact hw
    simp only [heq, h, decide_false]
    by_cases hlt : i % w < p % w
    · simp [hlt]
    · have : i % w - p % w ≠ 0 := by omega
      simp [this]
  · rw [if_neg hk]
    have : i ≠ p := by rintro rfl; exact hk rfl
    simp [this]

end Bits

/-! ## Positions of the set bits -/

/-- The positions of the set bits from `k` on, in increasing order. -/
def onesFrom (ws : List (BitVec w)) (k : Nat) : List Nat :=
  (List.range' k (w * ws.length - k)).filter (lsbAt ws)

/-- The positions of all set bits, in increasing order. -/
def ones (ws : List (BitVec w)) : List Nat := onesFrom ws 0

variable {ws : List (BitVec w)} {k : Nat}

theorem onesFrom_step (h : k < w * ws.length) :
    onesFrom ws k = if lsbAt ws k then k :: onesFrom ws (k + 1) else onesFrom ws (k + 1) := by
  unfold onesFrom
  rw [show w * ws.length - k = (w * ws.length - (k + 1)) + 1 by omega, range'_succ, filter_cons]

theorem onesFrom_of_le (h : w * ws.length ≤ k) : onesFrom ws k = [] := by
  unfold onesFrom
  rw [Nat.sub_eq_zero_of_le h]
  rfl

theorem onesFrom_eq_cons {x : Nat} (hk : k ≤ x) (hlt : x < w * ws.length) (hx : lsbAt ws x = true)
    (hnot : ∀ j, k ≤ j → j < x → lsbAt ws j = false) :
    onesFrom ws k = x :: onesFrom ws (x + 1) := by
  unfold onesFrom
  rw [show w * ws.length - k = (x - k) + (w * ws.length - (x + 1) + 1) by omega, ← range'_append_1,
    filter_append, show k + (x - k) = x by omega, range'_succ, filter_cons_of_pos hx,
    filter_eq_nil_iff.mpr, nil_append]
  intro j hj
  rw [mem_range'_1] at hj
  rw [hnot j hj.1 (by omega)]
  exact Bool.false_ne_true

theorem onesFrom_eq_nil (hnot : ∀ j, k ≤ j → lsbAt ws j = false) : onesFrom ws k = [] := by
  refine filter_eq_nil_iff.mpr fun j hj => ?_
  rw [hnot j (mem_range'_1.mp hj).1]
  exact Bool.false_ne_true

theorem onesFrom_cons (hw : 0 < w) (x : BitVec w) (ws : List (BitVec w)) :
    onesFrom (x :: ws) w = (ones ws).map (w + ·) := by
  unfold ones onesFrom
  rw [length_cons, Nat.mul_succ, Nat.add_sub_cancel, Nat.sub_zero, ← range_eq_range',
    range'_eq_map_range, filter_map]
  congr 1
  apply filter_congr
  intro i _
  exact lsbAt_cons_add hw x ws i

theorem ones_cons (hw : 0 < w) (x : BitVec w) (ws : List (BitVec w)) :
    ones (x :: ws) = (List.range w).filter x.getLsbD ++ (ones ws).map (w + ·) := by
  rw [← onesFrom_cons hw x ws]
  unfold ones onesFrom
  rw [length_cons, Nat.mul_succ, Nat.add_sub_cancel, Nat.sub_zero, Nat.add_comm,
    ← range'_append_1, filter_append, zero_add, range_eq_range']
  congr 1
  apply filter_congr
  intro i hi
  rw [mem_range'_1] at hi
  exact lsbAt_cons_lt x ws (by omega)

theorem ones_append (hw : 0 < w) (ws vs : List (BitVec w)) :
    ones (ws ++ vs) = ones ws ++ (ones vs).map (w * ws.length + ·) := by
  induction ws with
  | nil => simp [ones, onesFrom]
  | cons x ws ih =>
    rw [cons_append, ones_cons hw, ones_cons hw, ih, map_append, map_map, append_assoc]
    congr 2
    apply map_congr_left
    intro p _
    simp only [Function.comp_apply, length_cons]
    ring

theorem mem_ones (hw : 0 < w) {i : Nat} : i ∈ ones ws ↔ lsbAt ws i = true := by
  unfold ones onesFrom
  rw [mem_filter, mem_range'_1]
  refine ⟨fun h => h.2, fun h => ⟨⟨by omega, ?_⟩, h⟩⟩
  by_contra hc
  rw [lsbAt_of_length_le hw (by omega)] at h
  cases h

end PolemoDB.Lib
