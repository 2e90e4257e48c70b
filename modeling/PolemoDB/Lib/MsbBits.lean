import Mathlib.Data.List.Basic
import Mathlib.Data.Nat.Bitwise

/-!
# Bit sequences packed most significant bit first

A list of `w`-bit words read as one bit sequence: bit `i` is bit `i % w`, counted from the most
significant one, of word `i / w`.

Principal results: `bitAt_set` and `bitAt_setBit` (what a word update does to the sequence),
`bitAt_append_left` (a longer memory has the same bits), and `foldl_msbBits_eq` (shifting the bits
of a value in, one at a time, gives the value back).
-/

namespace PolemoDB.Lib

open List

variable {w : Nat}

/-- Bit `i` of the sequence held by `ws`; words past the end read as zero. -/
def bitAt (ws : List (BitVec w)) (i : Nat) : Bool := (ws.getD (i / w) 0).getMsbD (i % w)

/-- The word with only bit `r` (from the most significant one) set. -/
def msbMask (w r : Nat) : BitVec w := 1#w <<< (w - 1 - r)

theorem getMsbD_msbMask {r : Nat} (hr : r < w) (i : Nat) :
    (msbMask w r).getMsbD i = decide (i = r) := by
  unfold msbMask
  by_cases h : i = r
  · subst h; simp; omega
  · have : ¬ (i + (w - 1 - r) = w - 1) := by omega
    simp [this, h]

theorem and_msbMask_ne_zero (c : BitVec w) {r : Nat} (hr : r < w) :
    decide (c &&& msbMask w r ≠ 0) = c.getMsbD r := by
  by_cases h : c.getMsbD r = true
  · rw [h]
    apply decide_eq_true
    intro hz
    have hb := congrArg (fun x : BitVec w => x.getMsbD r) hz
    simp [BitVec.getMsbD_and, getMsbD_msbMask hr, h] at hb
  simp only [Bool.not_eq_true] at h
  rw [h]
  apply decide_eq_false
  rw [not_not]
  apply BitVec.eq_of_getMsbD_eq
  intro i _
  rw [BitVec.getMsbD_and, getMsbD_msbMask hr]
  by_cases hi : i = r
  · subst hi; simp [h]
  · simp [hi]

variable {n i : Nat} {ws : List (BitVec w)}

theorem and_one_shiftLeft_ne_zero (v : BitVec w) (hn : n < w) :
    decide (v &&& 1#w <<< n ≠ 0) = v.getLsbD n := by
  have h := and_msbMask_ne_zero v (show w - 1 - n < w by omega)
  unfold msbMask at h
  rw [show w - 1 - (w - 1 - n) = n by omega] at h
  rw [h, BitVec.getMsbD_eq_getLsbD, show w - 1 - (w - 1 - n) = n by omega]
  simp; omega

theorem bitAt_set (ws : List (BitVec w)) (k : Nat) (x : BitVec w) (i : Nat) : bitAt (ws.set k x) i =
      if i / w = k ∧ k < ws.length then x.getMsbD (i % w) else bitAt ws i := by
  unfold bitAt
  by_cases hk : k = i / w
  · subst hk
    by_cases hl : i / w < ws.length
    · simp [hl]
    · simp [hl]
  · have : ¬ (i / w = k) := fun h => hk h.symm
    simp [hk, this]

theorem bitAt_setBit {p : Nat} (hp : p / w < ws.length) (hw : 0 < w) (i : Nat) :
    bitAt (ws.set (p / w) (ws.getD (p / w) 0 ||| msbMask w (p % w))) i =
    (bitAt ws i || decide (i = p)) := by
  have hr : p % w < w := Nat.mod_lt _ hw
  rw [bitAt_set]
  by_cases hk : i / w = p / w
  · rw [if_pos ⟨hk, hp⟩, BitVec.getMsbD_or, getMsbD_msbMask hr]
    unfold bitAt
    rw [hk]
    have : (i % w = p % w) ↔ i = p := by
      constructor
      · intro h
        rw [← Nat.div_add_mod i w, ← Nat.div_add_mod p w, hk, h]
      · rintro rfl; rfl
    simp [this]
  · rw [if_neg (fun h => hk h.1)]
    have : i ≠ p := by rintro rfl; exact hk rfl
    simp [this]

theorem bitAt_append_left {vs : List (BitVec w)} (h : i / w < ws.length) :
    bitAt (ws ++ vs) i = bitAt ws i := by
  unfold bitAt
  rw [getD_eq_getElem?_getD, getD_eq_getElem?_getD, getElem?_append_left h]

theorem bitAt_cons_lt (x : BitVec w) (ws : List (BitVec w)) (h : i < w) :
    bitAt (x :: ws) i = x.getMsbD i := by
  unfold bitAt
  rw [Nat.div_eq_of_lt h, Nat.mod_eq_of_lt h]
  rfl

theorem bitAt_cons_add (hw : 0 < w) (x : BitVec w) (ws : List (BitVec w)) (i : Nat) :
    bitAt (x :: ws) (w + i) = bitAt ws i := by
  unfold bitAt
  rw [Nat.add_div_left i hw, Nat.add_mod_left]
  rfl

theorem bitAt_take (h : i / w < n) : bitAt (ws.take n) i = bitAt ws i := by
  unfold bitAt
  rw [getD_eq_getElem?_getD, getD_eq_getElem?_getD, getElem?_take_of_lt h]

theorem bitAt_replicate_zero (n i : Nat) : bitAt (replicate n (0 : BitVec w)) i = false := by
  unfold bitAt
  rw [getD_eq_getElem?_getD, getElem?_replicate]
  split <;> simp

/-! ## The bits of a value -/

variable {v : Nat}

/-- The low `n` bits of `x`, most significant first. -/
def msbBits : Nat → BitVec v → List Bool
  | 0, _ => []
  | n + 1, x => x.getLsbD n :: msbBits n x

@[simp] theorem msbBits_length (n : Nat) (x : BitVec v) : (msbBits n x).length = n := by
  induction n with
  | zero => rfl
  | succ n ih => simp [msbBits, ih]

/-- Shift one bit into an accumulator from the right. -/
def shiftIn (acc : BitVec v) (b : Bool) : BitVec v := (acc <<< 1) ||| (if b then 1 else 0)

theorem getLsbD_shiftIn (acc : BitVec v) (b : Bool) (i : Nat) (hi : i < v) :
    (shiftIn acc b).getLsbD i = if i = 0 then b else acc.getLsbD (i - 1) := by
  unfold shiftIn
  rw [BitVec.getLsbD_or, BitVec.getLsbD_shiftLeft]
  by_cases h : i = 0
  · subst h
    cases b <;> simp [hi]
  · cases b <;> simp [hi, h]

theorem getLsbD_foldl_msbBits (x : BitVec v) : ∀ (n : Nat) (acc : BitVec v) (i : Nat), i < v →
      ((msbBits n x).foldl shiftIn acc).getLsbD i =
        if i < n then x.getLsbD i else acc.getLsbD (i - n)
  | 0, acc, i, _ => by simp [msbBits]
  | n + 1, acc, i, hi => by
    simp only [msbBits, foldl_cons]
    rw [getLsbD_foldl_msbBits x n _ i hi]
    by_cases h : i < n
    · simp [h, show i < n + 1 by omega]
    rw [if_neg h, getLsbD_shiftIn _ _ _ (by omega)]
    by_cases h' : i = n
    · subst h'; simp
    · rw [if_neg (by omega), if_neg (by omega)]
      congr 1

/-- **Reading back the low `n` bits of `x` gives `x` when nothing lies above them.** -/
theorem foldl_msbBits_eq {x : BitVec v} (hx : ∀ i, n ≤ i → x.getLsbD i = false) :
    (msbBits n x).foldl shiftIn 0 = x := by
  apply BitVec.eq_of_getLsbD_eq
  intro i hi
  rw [getLsbD_foldl_msbBits x n 0 i hi]
  split
  · rfl
  · rw [hx i (by omega)]; simp

theorem getLsbD_of_toNat_lt {x : BitVec v} (h : x.toNat < 2 ^ n) (i : Nat) (hi : n ≤ i) :
    x.getLsbD i = false := by
  have : x.toNat < 2 ^ i := lt_of_lt_of_le h (Nat.pow_le_pow_right (by decide) hi)
  rw [BitVec.getLsbD, Nat.testBit_lt_two_pow this]

end PolemoDB.Lib
