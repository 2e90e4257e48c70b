import PolemoDB.Lib.LsbBits
import PolemoDB.Lib.MsbBits

/-!
# Compressed bitmap words (`access/bitmap.h`)

A vector is a sequence of 64-bit words.  A header bit says whether a word is a literal or a fill
word: the most significant bit of a fill word is the repeated bit, the others count the 64-bit words
it stands for.

* `HrlWord` — a content word with its header bit; `expand` — the words it stands for.
-/

namespace PolemoDB.Bitmap

open PolemoDB.Lib BitVec

/-- `BM_HRL_WORD`; `BM_HRL_WORD_SIZE` is 64. -/
abbrev BM_HRL_WORD := BitVec 64

def LITERAL_ALL_ZERO : BM_HRL_WORD := 0
def LITERAL_ALL_ONE : BM_HRL_WORD := ~~~0
def FILL_MASK : BM_HRL_WORD := ~~~(1#64 <<< 63)

def BM_BATCH_TIDS : Nat := 16 * 1024

/-- `BM_NUM_OF_HRL_WORDS_PER_PAGE`, for the block size of 32768 bytes. -/
def BM_NUM_OF_HRL_WORDS_PER_PAGE : Nat := 3968

def BM_NUM_OF_HEADER_WORDS : Nat := 62

theorem page_sizes : BM_NUM_OF_HRL_WORDS_PER_PAGE = 3968 ∧ BM_NUM_OF_HEADER_WORDS = 62 := ⟨rfl, rfl⟩

/-- `BM_MAKE_FILL_WORD`. -/
def makeFillWord (bit : Bool) (length : Nat) : BM_HRL_WORD :=
  ((if bit then 1#64 else 0#64) <<< 63) ||| BitVec.ofNat 64 length

def fillLength (w : BM_HRL_WORD) : Nat := (w &&& FILL_MASK).toNat

def getFillBit (w : BM_HRL_WORD) : Bool := decide (w >>> 63 = 1)

def wordnoGetHeaderBit (wordno : Nat) : BM_HRL_WORD := 1#64 <<< (63 - wordno % 64)

def isFillWord (hwords : List BM_HRL_WORD) (wordno : Nat) : Bool :=
  decide (hwords.getD (wordno / 64) 0 &&& wordnoGetHeaderBit wordno ≠ 0)

/-- `BM_CALC_H_WORDS`. -/
def calcHWords (cWords : Nat) : Nat := if cWords = 0 then cWords else (cWords - 1) / 64 + 1

/-! ## Words and vectors -/

/-- A content word together with its header bit. -/
structure HrlWord where
  fill : Bool
  word : BM_HRL_WORD
  deriving DecidableEq, Repr

variable (x : HrlWord)

/-- How many 64-bit words it stands for. -/
def HrlWord.len : Nat := if x.fill then fillLength x.word else 1

/-- The 64-bit word it repeats. -/
def HrlWord.value : BM_HRL_WORD :=
  if x.fill then (if getFillBit x.word then LITERAL_ALL_ONE else LITERAL_ALL_ZERO) else x.word

/-- Decompression of one word. -/
def HrlWord.expand : List BM_HRL_WORD := List.replicate x.len x.value

/-- Decompression of a sequence of words. -/
def expand (xs : List HrlWord) : List BM_HRL_WORD := xs.flatMap HrlWord.expand

/-- The first `n` words of a header array and a content array. -/
def hrlWords (hwords cwords : List BM_HRL_WORD) (n : Nat) : List HrlWord :=
  (List.range n).map fun i => ⟨isFillWord hwords i, cwords.getD i 0⟩

@[simp] theorem expand_cons (xs : List HrlWord) : expand (x :: xs) = x.expand ++ expand xs := rfl

@[simp] theorem hrlWord_expand_length : x.expand.length = x.len := by
  simp [HrlWord.expand]

/-! ## Fill words -/

theorem fillLength_eq (w : BM_HRL_WORD) : fillLength w = w.toNat % 2 ^ 63 := by
  unfold fillLength FILL_MASK
  rw [toNat_and]
  have : (~~~(1#64 <<< 63)).toNat = 2 ^ 63 - 1 := by decide
  rw [this, Nat.and_two_pow_sub_one_eq_mod]

theorem getFillBit_eq (w : BM_HRL_WORD) : getFillBit w = decide (2 ^ 63 ≤ w.toNat) := by
  apply decide_eq_decide.mpr
  rw [← toNat_inj, toNat_ushiftRight, Nat.shiftRight_eq_div_pow]
  have h1 : (1 : BM_HRL_WORD).toNat = 1 := rfl
  omega

theorem fill_sub {w : BM_HRL_WORD} {n : Nat} (h : n ≤ fillLength w) :
    fillLength (w - BitVec.ofNat 64 n) = fillLength w - n ∧
      getFillBit (w - BitVec.ofNat 64 n) = getFillBit w := by
  rw [fillLength_eq] at h
  have hsub : (w - BitVec.ofNat 64 n).toNat = w.toNat - n := by
    rw [toNat_sub, toNat_ofNat]
    omega
  rw [fillLength_eq, fillLength_eq, getFillBit_eq, getFillBit_eq, hsub]
  refine ⟨by omega, decide_eq_decide.mpr (by omega)⟩

/-! ## Headers -/

theorem isFillWord_eq (hwords : List BM_HRL_WORD) (wordno : Nat) :
    isFillWord hwords wordno = bitAt hwords wordno := by
  have hr : wordno % 64 < 64 := Nat.mod_lt _ (by decide)
  exact and_msbMask_ne_zero _ hr

end PolemoDB.Bitmap
