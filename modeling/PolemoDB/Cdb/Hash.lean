import Mathlib.Data.Int.ConditionallyCompleteOrder
import PolemoDB.Lib.Binary64

/-!
# Reduction of a hash value to a segment (`cdb/cdbhash.c`)

* `jumpConsistentHash` — the loop of `jump_consistent_hash`, with the `uint64` generator, the
  `double` quotient and product rounded to 53 bits, and the conversion of the product to `int64`.
* `cdbhashreduce` — the three reductions (`REDUCE_BITMASK`, `REDUCE_LAZYMOD`,
  `REDUCE_JUMP_HASH`) over the `CdbHash` that `makeCdbHash` builds.

Principal results: `lt_nextJump` (the jump sequence is strictly increasing and never leaves
`int64`), `jumpConsistentHash_consistent` (range, and the effect of one more segment), and
`cdbhashreduce_lt` (every reduction names an existing segment).
-/

namespace PolemoDB.Cdb

open PolemoDB.Lib

/-! ## The jump sequence -/

variable (key : UInt64)

/-- `(double)(1LL << 31) / (double)((key >> 33) + 1)`. -/
def jumpRatio : ℚ := roundBinary64 ((2 ^ 31 : ℚ) / ((key >>> 33).toNat + 1))

/-- The generator step `key * 2862933555777941757ULL + 1`. -/
def jumpKey : UInt64 := key * 2862933555777941757 + 1

/-- `(int64) ((b + 1) * ratio)`: the product is a `double`, its conversion truncates. -/
def nextJump (b : ℤ) : ℤ :=
  Int.bmod ⌊roundBinary64 (((b + 1 : ℤ) : ℚ) * jumpRatio key)⌋ (2 ^ 64)

theorem shift33_lt : (key >>> 33).toNat < 2 ^ 31 := by
  have h := key.toNat_lt
  rw [UInt64.toNat_shiftRight, Nat.shiftRight_eq_div_pow]
  simp only [UInt64.reduceToNat, Nat.reduceMod]
  omega

/-- The quotient lies in `[1, 2^31]`, whatever the key. -/
theorem jumpRatio_bounds : 1 ≤ jumpRatio key ∧ jumpRatio key ≤ 2 ^ 31 := by
  have hs : ((key >>> 33).toNat : ℚ) + 1 ≤ 2 ^ 31 := by exact_mod_cast shift33_lt key
  have hpos : (0 : ℚ) < ((key >>> 33).toNat : ℚ) + 1 := by positivity
  have hq : (0 : ℚ) < 2 ^ 31 / (((key >>> 33).toNat : ℚ) + 1) := by positivity
  unfold jumpRatio
  constructor
  · have h := le_roundBinary64 (n := 1) (k := 0) (q := 2 ^ 31 / (((key >>> 33).toNat : ℚ) + 1))
      (by norm_num) (by norm_num) (by rw [le_div_iff₀ hpos]; simpa using hs)
    simpa using h
  have h := roundBinary64_le (n := 1) (k := 31) (by norm_num) (by norm_num) hq (by
      rw [div_le_iff₀ hpos]
      norm_num)
  simpa using h

variable {b : ℤ} {n : Int32} (key : UInt64)

/-- **The jump sequence is strictly increasing and stays inside `int64`.** -/
theorem lt_nextJump (hb : 0 ≤ b) (hb' : b < 2 ^ 31) :
    b < nextJump key b ∧ nextJump key b ≤ 2 ^ 62 := by
  obtain ⟨hr1, hr2⟩ := jumpRatio_bounds key
  obtain ⟨m, hm⟩ : ∃ m : ℕ, b + 1 = m := ⟨(b + 1).toNat, by omega⟩
  have hm0 : 0 < m := by omega
  have hmle : m ≤ 2 ^ 31 := by omega
  have hmq : (0 : ℚ) < m := by exact_mod_cast hm0
  have hmq' : (m : ℚ) ≤ 2 ^ 31 := by exact_mod_cast hmle
  have hlo : (m : ℚ) ≤ roundBinary64 (m * jumpRatio key) := by
    have h := le_roundBinary64 (n := m) (k := 0) (q := m * jumpRatio key) hm0 (by omega)
      (by simpa using le_mul_of_one_le_right hmq.le hr1)
    simpa using h
  have hhi : roundBinary64 (m * jumpRatio key) ≤ 2 ^ 62 := by
    have h := roundBinary64_le (n := 1) (k := 62) (q := m * jumpRatio key)
      (by norm_num) (by norm_num) (by positivity)
      (by
        calc (m : ℚ) * jumpRatio key ≤ 2 ^ 31 * 2 ^ 31 := by gcongr
          _ = _ := by norm_num)
    simpa using h
  have hf1 : (m : ℤ) ≤ ⌊roundBinary64 (m * jumpRatio key)⌋ := Int.le_floor.2 (by simpa using hlo)
  have hf2 : ⌊roundBinary64 (m * jumpRatio key)⌋ ≤ 2 ^ 62 := by
    have := Int.floor_le_floor hhi
    have h62 : ⌊(2 ^ 62 : ℚ)⌋ = 2 ^ 62 := by
      rw [show (2 ^ 62 : ℚ) = ((2 ^ 62 : ℤ) : ℚ) by norm_num, Int.floor_intCast]
    rwa [h62] at this
  unfold nextJump
  rw [show (((b + 1 : ℤ) : ℚ)) = m by rw [hm]; simp]
  -- the product fits `int64`, so the conversion is the identity on it
  rw [Int.bmod_eq_of_le (by omega) (by omega)]
  omega

/-! ## `jump_consistent_hash` -/

/-- The `while (j < num_segments)` loop; `j` starts at 0 and only grows. -/
def jumpLoop (num_segments : Int32) (key : UInt64) (b j : ℤ) (hj : 0 ≤ j) : ℤ :=
  if h : j < num_segments.toInt then
    jumpLoop num_segments (jumpKey key) j (nextJump (jumpKey key) j)
      (hj.trans (lt_nextJump (jumpKey key) hj (h.trans num_segments.toInt_lt)).1.le)
  else b
termination_by (num_segments.toInt - j).toNat
decreasing_by
  have := (lt_nextJump (jumpKey key) hj (h.trans num_segments.toInt_lt)).1
  omega

def jumpConsistentHash (num_segments : Int32) : Int32 :=
  Int32.ofInt (jumpLoop num_segments key (-1) 0 (le_refl 0))

theorem jumpLoop_step {key : UInt64} {j : ℤ} {hj : 0 ≤ j} (h : j < n.toInt) :
    jumpLoop n key b j hj = jumpLoop n (jumpKey key) j (nextJump (jumpKey key) j)
      (hj.trans (lt_nextJump (jumpKey key) hj (h.trans n.toInt_lt)).1.le) := by
  rw [jumpLoop, dif_pos h]

theorem jumpLoop_exit {key : UInt64} {j : ℤ} {hj : 0 ≤ j} (h : ¬ j < n.toInt) :
    jumpLoop n key b j hj = b := by
  rw [jumpLoop, dif_neg h]

/-- The value the loop ends with is its last position below `num_segments`. -/
theorem jumpLoop_range (n : Int32) (key : UInt64) (b j : ℤ) (hj : 0 ≤ j)
    (hb : j < n.toInt ∨ (0 ≤ b ∧ b < n.toInt)) :
    0 ≤ jumpLoop n key b j hj ∧ jumpLoop n key b j hj < n.toInt := by
  induction key, b, j, hj using jumpLoop.induct n with
  | case1 key b j hj h ih =>
    rw [jumpLoop_step h]
    exact ih (.inr ⟨hj, h⟩)
  | case2 key b j hj h =>
    rw [jumpLoop_exit h]
    rcases hb with hb | hb
    · exact absurd hb h
    · exact hb

/-- **One more segment**: from the same loop state, the run with the larger bound ends where the
smaller one does, or on the new segment. -/
theorem jumpLoop_succ {n' : Int32} (hn : n'.toInt = n.toInt + 1) (key : UInt64) (b j : ℤ)
    (hj : 0 ≤ j) : jumpLoop n' key b j hj = jumpLoop n key b j hj ∨
    jumpLoop n' key b j hj = n.toInt := by
  induction key, b, j, hj using jumpLoop.induct n with
  | case1 key b j hj h ih =>
    -- both loops continue, with the same next state
    rw [jumpLoop_step h, jumpLoop_step (n := n') (by omega)]
    exact ih
  | case2 key b j hj h =>
    rw [jumpLoop_exit h]
    by_cases h' : j < n'.toInt
    · -- `j = n`: only the larger run steps, and its next jump is beyond `n + 1`
      have hjn : j = n.toInt := by omega
      have hlt := (lt_nextJump (jumpKey key) hj (h'.trans n'.toInt_lt)).1
      rw [jumpLoop_step h', jumpLoop_exit (by omega)]
      exact .inr hjn
    · exact .inl (jumpLoop_exit h')

theorem jumpLoop_expansion {m : Int32} {k : ℕ} (hm : m.toInt = n.toInt + k) (hn : 0 ≤ n.toInt)
    (key : UInt64) : jumpLoop m key (-1) 0 le_rfl = jumpLoop n key (-1) 0 le_rfl ∨
    n.toInt ≤ jumpLoop m key (-1) 0 le_rfl := by
  induction k generalizing m with
  | zero =>
    obtain rfl : m = n := Int32.toInt_inj.1 (by omega)
    exact .inl rfl
  | succ k ih =>
    have hlt := m.toInt_lt
    have hk : (Int32.ofInt (n.toInt + k)).toInt = n.toInt + k :=
      Int32.toInt_ofInt_of_le (by omega) (by omega)
    rcases jumpLoop_succ (show m.toInt = _ + 1 by rw [hk]; omega) key (-1) 0 le_rfl with h | h
    · rw [h]
      exact ih hk
    · omega

theorem jumpConsistentHash_toInt (hn : 1 ≤ n.toInt) :
    (jumpConsistentHash key n).toInt = jumpLoop n key (-1) 0 (le_refl 0) := by
  have h := jumpLoop_range n key (-1) 0 (le_refl 0) (.inl (by omega))
  have hlt := n.toInt_lt
  exact Int32.toInt_ofInt_of_le (by omega) (by omega)

theorem jumpConsistentHash_range (hn : 1 ≤ n.toInt) :
    0 ≤ (jumpConsistentHash key n).toInt ∧ (jumpConsistentHash key n).toInt < n.toInt := by
  rw [jumpConsistentHash_toInt key hn]
  exact jumpLoop_range n key (-1) 0 (le_refl 0) (.inl (by omega))

/-- **Range and consistency of the jump hash**: for every key and `n ≥ 1` segments the loop ends
on an existing segment, and adding one segment either keeps the row or moves it to the new one. -/
theorem jumpConsistentHash_consistent (key : UInt64) (n : Int32) (hn : 1 ≤ n.toInt) :
    (0 ≤ (jumpConsistentHash key n).toInt ∧ (jumpConsistentHash key n).toInt < n.toInt) ∧
    ∀ n' : Int32, n'.toInt = n.toInt + 1 →
      jumpConsistentHash key n' = jumpConsistentHash key n ∨ jumpConsistentHash key n' = n := by
  refine ⟨jumpConsistentHash_range key hn, ?_⟩
  intro n' hn'
  rcases jumpLoop_succ hn' key (-1) 0 (le_refl 0) with h | h
  · left
    unfold jumpConsistentHash
    rw [h]
  · right
    apply Int32.toInt_inj.1
    rw [jumpConsistentHash_toInt key (by omega), h]

theorem jumpConsistentHash_consistent_two : (1 : ℤ) ≤ (2 : Int32).toInt ∧
    ((0 ≤ (jumpConsistentHash 7 2).toInt ∧ (jumpConsistentHash 7 2).toInt < (2 : Int32).toInt) ∧
    ∀ n' : Int32, n'.toInt = (2 : Int32).toInt + 1 →
      jumpConsistentHash 7 n' = jumpConsistentHash 7 2 ∨ jumpConsistentHash 7 n' = 2) :=
  ⟨by decide, jumpConsistentHash_consistent 7 2 (by decide)⟩

/-! ## `cdbhashreduce` -/

inductive CdbHashReduce where
  | lazymod
  | bitmask
  | jumpHash
  deriving DecidableEq, Repr

/-- The fields of `CdbHash` the reduction reads. -/
structure CdbHash where
  hash : UInt32
  numsegs : Int32
  reducealg : CdbHashReduce
  deriving DecidableEq, Repr

def ispowof2 (numsegs : Int32) : Bool := numsegs &&& (numsegs - 1) == 0

/-- `makeCdbHash`: the reduction is chosen from the kind of hash functions and `numsegs`. -/
def makeCdbHash (numsegs : Int32) (is_legacy_hash : Bool) : CdbHash where
  hash := 0
  numsegs := numsegs
  reducealg :=
    if is_legacy_hash then (if ispowof2 numsegs then .bitmask else .lazymod) else .jumpHash

/-- `cdbhashreduce`, as the `unsigned int` it returns. -/
def cdbhashreduce (h : CdbHash) : UInt32 :=
  match h.reducealg with
  | .bitmask => h.hash &&& (h.numsegs.toUInt32 - 1)
  | .lazymod => h.hash % h.numsegs.toUInt32
  | .jumpHash => (jumpConsistentHash h.hash.toUInt64 h.numsegs).toUInt32

theorem toUInt32_toNat (hn : 0 ≤ n.toInt) : (n.toUInt32.toNat : ℤ) = n.toInt := by
  have h : n.toInt = BitVec.toInt n.toBitVec := rfl
  have := BitVec.toInt_eq_toNat_cond n.toBitVec
  show ((n.toBitVec.toNat : ℕ) : ℤ) = _
  split at this <;> omega

theorem cdbhashreduce_lt (h : CdbHash) (hn : 1 ≤ h.numsegs.toInt) :
    ((cdbhashreduce h).toNat : ℤ) < h.numsegs.toInt := by
  have hu := toUInt32_toNat (n := h.numsegs) (by omega)
  unfold cdbhashreduce
  split
  · have hle : (h.hash &&& (h.numsegs.toUInt32 - 1)).toNat ≤ (h.numsegs.toUInt32 - 1).toNat := by
      exact Nat.and_le_right
    have hsub : (h.numsegs.toUInt32 - 1).toNat = h.numsegs.toUInt32.toNat - 1 := by
      rw [UInt32.toNat_sub_of_le]
      · rfl
      · rw [UInt32.le_iff_toNat_le]
        show 1 ≤ _
        omega
    omega
  · rw [UInt32.toNat_mod]
    have := Nat.mod_lt h.hash.toNat (show 0 < h.numsegs.toUInt32.toNat by omega)
    omega
  · have hr := jumpConsistentHash_range h.hash.toUInt64 hn
    rw [toUInt32_toNat hr.1]
    exact hr.2

end PolemoDB.Cdb
