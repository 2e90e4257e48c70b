import PolemoDB.Lib.LeBytes
import PolemoDB.Bitmap.Header

/-!
# Buffers of bitmap words (`BMTIDBuffer`)

A buffer holds content words, their header bits, and for each content word the tid of its last bit.

`BMTIDBuffer.words` are the words of a buffer; in a well-formed one (`BMTIDBuffer.OK`) the arrays
have the allocated sizes and no header bit is set behind the last word.
-/

namespace PolemoDB.Bitmap

open PolemoDB.Lib

/-- `BMTIDBuffer`; `start_tid` is never used.  `cwords` and `lastTids` are the allocated arrays. -/
structure BMTIDBuffer where
  lastCompword : BM_HRL_WORD
  lastWord : BM_HRL_WORD
  isLastCompwordFill : Bool
  lastTid : Nat
  curword : Nat
  numCwords : Nat
  lastTids : List Nat
  hwords : List BM_HRL_WORD
  cwords : List BM_HRL_WORD
  deriving DecidableEq, Repr

/-- A buffer set to zero by `MemSet`. -/
def BMTIDBuffer.zero : BMTIDBuffer where
  lastCompword := 0
  lastWord := 0
  isLastCompwordFill := false
  lastTid := 0
  curword := 0
  numCwords := 0
  lastTids := []
  hwords := List.replicate BM_NUM_OF_HEADER_WORDS 0
  cwords := []

/-- `hwords[n / 64] |= WORDNO_GET_HEADER_BIT(n)`. -/
def setHeaderBit (hwords : List BM_HRL_WORD) (n : Nat) : List BM_HRL_WORD :=
  hwords.set (n / 64) (hwords.getD (n / 64) 0 ||| wordnoGetHeaderBit n)

/-- `hwords[n / 64] &= ~WORDNO_GET_HEADER_BIT(n)`. -/
def clearHeaderBit (hwords : List BM_HRL_WORD) (n : Nat) : List BM_HRL_WORD :=
  hwords.set (n / 64) (hwords.getD (n / 64) 0 &&& ~~~wordnoGetHeaderBit n)

/-! ## Words of a buffer -/

/-- Content word `i` with its header bit. -/
def BMTIDBuffer.hrl (buf : BMTIDBuffer) (i : Nat) : HrlWord :=
  ⟨isFillWord buf.hwords i, buf.cwords.getD i 0⟩

/-- The words of a buffer. -/
def BMTIDBuffer.words (buf : BMTIDBuffer) : List HrlWord :=
  hrlWords buf.hwords buf.cwords buf.curword

variable {hwords : List BM_HRL_WORD} {n : Nat}

theorem isFillWord_setHeaderBit (hn : n / 64 < hwords.length) (i : Nat) :
    isFillWord (setHeaderBit hwords n) i = (isFillWord hwords i || decide (i = n)) := by
  rw [isFillWord_eq, isFillWord_eq]
  exact bitAt_setBit hn (by decide) i

theorem isFillWord_clearHeaderBit (hn : n / 64 < hwords.length)
    (i : Nat) : isFillWord (clearHeaderBit hwords n) i =
    (isFillWord hwords i && decide (i ≠ n)) := by
  rw [isFillWord_eq, isFillWord_eq]
  unfold clearHeaderBit
  rw [bitAt_set]
  have hi := Nat.mod_lt i (show 0 < 64 by decide)
  by_cases hk : i / 64 = n / 64
  · rw [if_pos ⟨hk, hn⟩, BitVec.getMsbD_and, BitVec.getMsbD_not,
      show wordnoGetHeaderBit n = msbMask 64 (n % 64) from rfl,
      getMsbD_msbMask (Nat.mod_lt _ (by decide))]
    have : i % 64 = n % 64 ↔ i = n := by omega
    simp only [this, bitAt, hk, hi, decide_true, Bool.true_and, decide_not]
  · rw [if_neg (fun h => hk h.1)]
    have : i ≠ n := by rintro rfl; exact hk rfl
    simp [this]

theorem isFillWord_setFirst (hn : n < 64) (hlen : 0 < hwords.length) (i : Nat) :
    isFillWord (hwords.set 0 (hwords.getD 0 0 ||| wordnoGetHeaderBit n)) i =
      (isFillWord hwords i || decide (i = n)) := by
  have h := isFillWord_setHeaderBit (show n / 64 < hwords.length by omega) i
  unfold setHeaderBit at h
  rwa [show n / 64 = 0 by omega] at h

@[simp] theorem hrlWords_length (hwords cwords : List BM_HRL_WORD) (n : Nat) :
    (hrlWords hwords cwords n).length = n := by simp [hrlWords]

theorem getElem?_hrlWords (hwords cwords : List BM_HRL_WORD) (n i : Nat) :
      (hrlWords hwords cwords n)[i]? = if i <
      n then some ⟨isFillWord hwords i, cwords.getD i 0⟩ else none := by
  unfold hrlWords
  rw [List.getElem?_map]
  by_cases h : i < n
  · rw [List.getElem?_range h, if_pos h]
    rfl
  · rw [List.getElem?_eq_none (by simpa using h), if_neg h]
    rfl

/-! ## Well-formed buffers -/

/-- The arrays have the allocated sizes, and no header bit is set behind the last word. -/
structure BMTIDBuffer.OK (buf : BMTIDBuffer) : Prop where
  cwords : buf.cwords.length = buf.numCwords
  lastTids : buf.lastTids.length = buf.numCwords
  hwords : buf.hwords.length = BM_NUM_OF_HEADER_WORDS
  curword : buf.curword ≤ buf.numCwords
  clean : ∀ i, buf.curword ≤ i → isFillWord buf.hwords i = false

theorem isFillWord_zeros (n i : Nat) : isFillWord (List.replicate n 0) i = false := by
  rw [isFillWord_eq]
  exact bitAt_replicate_zero n i

theorem zero_ok : BMTIDBuffer.zero.OK :=
  ⟨rfl, rfl, by simp [BMTIDBuffer.zero], Nat.le_refl _, fun i _ => isFillWord_zeros _ i⟩

end PolemoDB.Bitmap
