import Mathlib.Order.Bounds.Basic
import Mathlib.Tactic.Ring

/-!
# Tuple ids of append-only relations (`access/appendonlytid.h`)

A tuple id is a segment file number of 7 bits and a row number of 40 bits, packed into three 16-bit
fields so that it looks like a heap tuple id: the first two fields are a block number, the third is
an offset of at least one.

* `aoTupleId_startRowNum_iff` — segment file number and row number are read back, also the segment
  file number from the block number.  The first row of the block, computed in 32 bits, is right for
  row numbers below `2 ^ 32` only.
-/

namespace PolemoDB.AppendOnly

open BitVec Nat

/-- A tuple id: segment file number and row number. -/
structure AOTupleId where
  segmentFileNum : Nat
  rowNum : Nat
deriving DecidableEq, Repr

/-! ## The code -/

/-- `AOTupleId`, with the fields of the struct. -/
structure AOTupleIdData where
  bytes_0_1 : BitVec 16
  bytes_2_3 : BitVec 16
  bytes_4_5 : BitVec 16
deriving DecidableEq, Repr

open AOTupleIdData

/-- `AOTupleIdInit`. -/
def AOTupleIdData.init (segfilenum : BitVec 16) (rownum : BitVec 64) : AOTupleIdData where
  bytes_0_1 := ((0x007F &&& segfilenum) <<< 9) ||| ((0x000000FFFFFFFFFF &&& rownum) >>> 31).setWidth
    16
  bytes_2_3 := ((0x000000007FFFFFFF &&& rownum) >>> 15).setWidth 16
  bytes_4_5 := ((0x7FFF &&& rownum) + 1).setWidth 16

/-- `AOTupleIdGet_segmentFileNum`. -/
def AOTupleIdData.segmentFileNum (h : AOTupleIdData) : BitVec 16 := (h.bytes_0_1 &&& 0xFE00) >>> 9

/-- `AOTupleIdGet_rowNum`; `none` is a failed assertion. -/
def AOTupleIdData.rowNum (h : AOTupleIdData) : Option (BitVec 64) :=
  if h.bytes_4_5 > 0 ∧ h.bytes_4_5 ≤ 0x8000 then
    some (((h.bytes_0_1 &&& 0x01FF).setWidth 64 <<< 31) ||| (h.bytes_2_3.setWidth 64 <<< 15) |||
      (h.bytes_4_5.setWidth 64 - 1))
  else none

/-- `AOTupleIdSetInvalid`: the block `InvalidBlockNumber` and the offset `InvalidOffsetNumber`. -/
def AOTupleIdData.invalid : AOTupleIdData := ⟨0xFFFF, 0xFFFF, 0⟩

/-- The block number of a heap tuple id with the same fields (`ItemPointerGetBlockNumber`). -/
def AOTupleIdData.blockNumber (h : AOTupleIdData) : BitVec 32 :=
  (h.bytes_0_1.setWidth 32 <<< 16) ||| h.bytes_2_3.setWidth 32

/-- `AOSegmentGet_segno`, of a `BlockNumber`. -/
def aoSegmentGetSegno (heapBlk : BitVec 32) : BitVec 32 := heapBlk / (1 <<< 25)

def aoHeapBlockGetStartHeapBlock (heapBlk : BitVec 32) : BitVec 32 := heapBlk &&& 0xFE000000

/-- `AOHeapBlockGet_startRowNum` of a `BlockNumber`: difference and product are of type `uint32`. -/
def aoHeapBlockGetStartRowNum (heapBlk : BitVec 32) : Nat :=
  max ((heapBlk - aoHeapBlockGetStartHeapBlock heapBlk) * (1 <<< 15)).toNat 1

/-! ## The fields as numbers -/

theorem shiftLeft_or {a b n : Nat} (hb : b < 2 ^ n) : a <<< n ||| b = a * 2 ^ n + b := by
  rw [← Nat.shiftLeft_add_eq_or_of_lt hb, Nat.shiftLeft_eq]

theorem mask_and (n x : Nat) : (2 ^ n - 1) &&& x = x % 2 ^ n := by
  rw [Nat.and_comm, Nat.and_two_pow_sub_one_eq_mod]

section Fields

variable {seg row : Nat} (hseg : seg < 2 ^ 7) (hrow : row < 2 ^ 40)

include hseg hrow

theorem AOTupleIdData.init_toNat :
    (init (BitVec.ofNat 16 seg) (BitVec.ofNat 64 row)).bytes_0_1.toNat =
      seg * 2 ^ 9 + row / 2 ^ 31 ∧
      (init (BitVec.ofNat 16 seg) (BitVec.ofNat 64 row)).bytes_2_3.toNat = row / 2 ^ 15 % 2 ^ 16 ∧
      (init (BitVec.ofNat 16 seg) (BitVec.ofNat 64 row)).bytes_4_5.toNat = row % 2 ^ 15 + 1 := by
  have h7 : (0x007F : BitVec 16).toNat = 2 ^ 7 - 1 := rfl
  have h40 : (0x000000FFFFFFFFFF : BitVec 64).toNat = 2 ^ 40 - 1 := rfl
  have h31 : (0x000000007FFFFFFF : BitVec 64).toNat = 2 ^ 31 - 1 := rfl
  have h15 : (0x7FFF : BitVec 64).toNat = 2 ^ 15 - 1 := rfl
  have hs : (BitVec.ofNat 16 seg).toNat = seg := by rw [BitVec.toNat_ofNat]; omega
  have hr : (BitVec.ofNat 64 row).toNat = row := by rw [BitVec.toNat_ofNat]; omega
  unfold init
  refine ⟨?_, ?_, ?_⟩
  · have hlow : row / 2 ^ 31 < 2 ^ 9 := by omega
    rw [toNat_or, toNat_shiftLeft, toNat_and, toNat_setWidth, toNat_ushiftRight,
      toNat_and, h7, h40, hs, hr, mask_and, mask_and, shiftRight_eq_div_pow, mod_eq_of_lt hrow,
      mod_eq_of_lt hseg, mod_eq_of_lt (show row / 2 ^ 31 < 2 ^ 16 by omega),
      Nat.mod_eq_of_lt (show seg <<< 9 < 2 ^ 16 by omega), shiftLeft_or hlow]
  · rw [toNat_setWidth, toNat_ushiftRight, toNat_and, h31, hr, mask_and, shiftRight_eq_div_pow]
    omega
  · rw [toNat_setWidth, toNat_add, toNat_and, h15, hr, mask_and]
    show (row % 2 ^ 15 + 1) % 2 ^ 64 % 2 ^ 16 = _
    omega

theorem AOTupleIdData.segmentFileNum_init :
    (init (BitVec.ofNat 16 seg) (BitVec.ofNat 64 row)).segmentFileNum.toNat = seg := by
  obtain ⟨h01, -, -⟩ := init_toNat hseg hrow
  have hmask : (0xFE00 : BitVec 16).toNat >>> 9 = 2 ^ 7 - 1 := rfl
  unfold segmentFileNum
  rw [toNat_ushiftRight, toNat_and, shiftRight_and_distrib, hmask, and_two_pow_sub_one_eq_mod,
    shiftRight_eq_div_pow, h01]
  omega

/-- The row number comes back, and the assertions of `AOTupleIdGet_rowNum` hold. -/
theorem AOTupleIdData.rowNum_init :
    (init (BitVec.ofNat 16 seg) (BitVec.ofNat 64 row)).rowNum = some (BitVec.ofNat 64 row) := by
  obtain ⟨h01, h23, h45⟩ := init_toNat hseg hrow
  generalize init (BitVec.ofNat 16 seg) (BitVec.ofNat 64 row) = h at h01 h23 h45 ⊢
  have h9 : (0x01FF : BitVec 16).toNat = 2 ^ 9 - 1 := rfl
  have hpos : h.bytes_4_5 > 0 ∧ h.bytes_4_5 ≤ 0x8000 := by
    refine ⟨lt_def.2 ?_, le_def.2 ?_⟩
    · show 0 < _
      omega
    · show _ ≤ 0x8000
      omega
  have hlow : (h.bytes_4_5.setWidth 64 - 1).toNat = row % 2 ^ 15 := by
    rw [toNat_sub, toNat_setWidth, h45]
    show (2 ^ 64 - 1 + (row % 2 ^ 15 + 1) % 2 ^ 64) % 2 ^ 64 = _
    omega
  have hmid : (h.bytes_2_3.setWidth 64 <<< 15).toNat = (row / 2 ^ 15 % 2 ^ 16) <<< 15 := by
    rw [toNat_shiftLeft, toNat_setWidth, h23,
      mod_eq_of_lt (show row / 2 ^ 15 % 2 ^ 16 < 2 ^ 64 by omega), Nat.mod_eq_of_lt (by omega)]
  have hhigh : ((h.bytes_0_1 &&& 0x01FF).setWidth 64 <<< 31).toNat = (row / 2 ^ 31) <<< 31 := by
    rw [toNat_shiftLeft, toNat_setWidth, toNat_and, h9, h01, Nat.and_comm, mask_and,
      show (seg * 2 ^ 9 + row / 2 ^ 31) % 2 ^ 9 % 2 ^ 64 = row / 2 ^ 31 by omega,
      Nat.mod_eq_of_lt (by omega)]
  unfold rowNum
  rw [if_pos hpos]
  refine congrArg some (eq_of_toNat_eq ?_)
  rw [toNat_or, toNat_or, hlow, hmid, hhigh, toNat_ofNat, Nat.or_assoc,
    shiftLeft_or (show row % 2 ^ 15 < 2 ^ 15 by omega),
    shiftLeft_or (show row / 2 ^ 15 % 2 ^ 16 * 2 ^ 15 + row % 2 ^ 15 < 2 ^ 31 by omega)]
  omega

/-! ## The block number -/

theorem AOTupleIdData.blockNumber_init :
    (init (BitVec.ofNat 16 seg) (BitVec.ofNat 64 row)).blockNumber.toNat =
    seg * 2 ^ 25 + row / 2 ^ 15 := by
  obtain ⟨h01, h23, -⟩ := init_toNat hseg hrow
  unfold blockNumber
  rw [toNat_or, toNat_shiftLeft, toNat_setWidth, toNat_setWidth, h01, h23,
    mod_eq_of_lt (show seg * 2 ^ 9 + row / 2 ^ 31 < 2 ^ 32 by omega),
    Nat.mod_eq_of_lt (show (seg * 2 ^ 9 + row / 2 ^ 31) <<< 16 < 2 ^ 32 by omega),
    shiftLeft_or (show row / 2 ^ 15 % 2 ^ 16 % 2 ^ 32 < 2 ^ 16 by omega)]
  omega

theorem aoSegmentGetSegno_init :
    (aoSegmentGetSegno (init (BitVec.ofNat 16 seg) (BitVec.ofNat 64 row)).blockNumber).toNat =
    seg := by
  unfold aoSegmentGetSegno
  rw [toNat_udiv, blockNumber_init hseg hrow]
  show (seg * 2 ^ 25 + row / 2 ^ 15) / 2 ^ 25 = seg
  omega

theorem aoHeapBlockGetStartRowNum_init :
    aoHeapBlockGetStartRowNum (init (BitVec.ofNat 16 seg) (BitVec.ofNat 64 row)).blockNumber =
      max (row / 2 ^ 15 * 2 ^ 15 % 2 ^ 32) 1 := by
  have hb := blockNumber_init hseg hrow
  generalize (init (BitVec.ofNat 16 seg) (BitVec.ofNat 64 row)).blockNumber = b at hb ⊢
  -- the mask leaves the segment file number
  have hstart : (aoHeapBlockGetStartHeapBlock b).toNat = seg * 2 ^ 25 := by
    have hmask : (0xFE000000 : BitVec 32).toNat = (2 ^ 7 - 1) <<< 25 := rfl
    unfold aoHeapBlockGetStartHeapBlock
    rw [toNat_and, hmask, hb, ← shiftLeft_or (show row / 2 ^ 15 < 2 ^ 25 by omega)]
    apply eq_of_testBit_eq
    intro i
    rw [Nat.testBit_and, Nat.testBit_or, Nat.testBit_shiftLeft, Nat.testBit_shiftLeft,
      ← Nat.shiftLeft_eq, testBit_shiftLeft, testBit_two_pow_sub_one]
    by_cases hi : 25 ≤ i
    · by_cases hi7 : i - 25 < 7
      · rw [testBit_lt_two_pow (show row / 2 ^ 15 < 2 ^ i from
          (show row / 2 ^ 15 < 2 ^ 25 by omega).trans_le (Nat.pow_le_pow_right (by decide) hi))]
        simp [hi, hi7]
      · rw [testBit_lt_two_pow (show seg < 2 ^ (i - 25) from
          hseg.trans_le (Nat.pow_le_pow_right (by decide) (by omega)))]
        simp [hi7]
    · simp [hi]
  unfold aoHeapBlockGetStartRowNum
  rw [toNat_mul, toNat_sub, hstart, hb]
  show max ((2 ^ 32 - seg * 2 ^ 25 + (seg * 2 ^ 25 + row / 2 ^ 15)) % 2 ^ 32 * 2 ^ 15 % 2 ^ 32) 1 =
    _
  rw [show (2 ^ 32 - seg * 2 ^ 25 + (seg * 2 ^ 25 + row / 2 ^ 15)) % 2 ^ 32 = row / 2 ^ 15 by omega]

end Fields

/-! ## The first row of a block -/

/-- The row numbers of a segment file whose tuple ids have the block. -/
def rowsOfBlock (seg : Nat) (heapBlk : BitVec 32) : Set Nat :=
  {r | 1 ≤ r ∧ r < 2 ^ 40 ∧ (init (BitVec.ofNat 16 seg) (BitVec.ofNat 64 r)).blockNumber = heapBlk}

theorem mem_rowsOfBlock {seg row r : Nat} (hseg : seg < 2 ^ 7) (hrow : row < 2 ^ 40) :
    r ∈ rowsOfBlock seg (init (BitVec.ofNat 16 seg) (BitVec.ofNat 64 row)).blockNumber ↔
      1 ≤ r ∧ r < 2 ^ 40 ∧ r / 2 ^ 15 = row / 2 ^ 15 := by
  refine and_congr_right fun _ => and_congr_right fun hr => ?_
  rw [← toNat_inj, blockNumber_init hseg hr, blockNumber_init hseg hrow]
  omega

/-- The tuple id of a row of a segment file. -/
def AOTupleIdData.ofRow (seg row : Nat) : AOTupleIdData :=
  .init (BitVec.ofNat 16 seg) (BitVec.ofNat 64 row)

/-- **Tuple ids.**  Segment file number and row number are read back from the tuple id, the segment
file number also from its block number.  The first row number of the block is right just if the row
number has at most 32 bits. -/
theorem aoTupleId_startRowNum_iff (seg row : Nat) (hseg : seg ≤ 127) (hpos : 1 ≤ row)
    (hrow : row ≤ 2 ^ 40 - 1) : (ofRow seg row).rowNum = some (BitVec.ofNat 64 row) ∧
      (ofRow seg row).segmentFileNum.toNat = seg ∧
      (aoSegmentGetSegno (ofRow seg row).blockNumber).toNat = seg ∧
      (IsLeast (rowsOfBlock seg (ofRow seg row).blockNumber)
        (aoHeapBlockGetStartRowNum (ofRow seg row).blockNumber) ↔ row < 2 ^ 32) := by
  unfold ofRow
  have hseg' : seg < 2 ^ 7 := by omega
  have hrow' : row < 2 ^ 40 := by omega
  refine ⟨rowNum_init hseg' hrow', segmentFileNum_init hseg' hrow',
    aoSegmentGetSegno_init hseg' hrow', ?_⟩
  rw [aoHeapBlockGetStartRowNum_init hseg' hrow']
  constructor
  · intro hleast
    -- the product has 32 bits, and so would the block of the first row
    have hmem := (mem_rowsOfBlock hseg' hrow').1 hleast.1
    omega
  intro hsmall
  constructor
  · rw [mem_rowsOfBlock hseg' hrow']
    omega
  · intro r hr
    rw [mem_rowsOfBlock hseg' hrow'] at hr
    omega

/-- A row of the second block of segment file 3. -/
theorem aoTupleId_startRowNum_second : IsLeast (rowsOfBlock 3 (init 3 40000).blockNumber)
      (aoHeapBlockGetStartRowNum (init 3 40000).blockNumber) :=
  (aoTupleId_startRowNum_iff 3 40000 (by decide) (by decide) (by decide)).2.2.2.2 (by decide)

/-- The first row with 33 bits: its block seems to begin with row 1. -/
theorem aoTupleId_startRowNum_wraps :
    aoHeapBlockGetStartRowNum (init 0 (BitVec.ofNat 64 (2 ^ 32))).blockNumber = 1 ∧
      1 ∉ rowsOfBlock 0 (init 0 (BitVec.ofNat 64 (2 ^ 32))).blockNumber := by
  refine ⟨by decide +kernel, fun h => ?_⟩
  exact absurd ((@mem_rowsOfBlock 0 (2 ^ 32) 1 (by decide) (by decide)).1 h).2.2 (by decide)

end PolemoDB.AppendOnly
