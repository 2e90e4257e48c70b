import PolemoDB.Transam.FullTransactionId

/-!
# Pages and segments of the distributed log

The entries of the local ids are on pages, and the pages in segments, the files of
`pg_distributedlog`.  A page precedes another one as the ids on it do, so that the pages wrap around
with the ids.

* `pagePrecedes`, `slruMayDeleteSegment` — the tests of a truncation (`DistributedLog_PagePrecedes`,
  `SlruMayDeleteSegment`).
-/

namespace PolemoDB.Transam

open TransactionId

/-- The entries of 8 bytes on a page of 32 kB. -/
def ENTRIES_PER_PAGE : Nat := 4096

def SLRU_PAGES_PER_SEGMENT : Nat := 32

variable (localXid : TransactionId)

def transactionIdToPage : Nat := localXid.toNat / ENTRIES_PER_PAGE

def transactionIdToEntry : Nat := localXid.toNat % ENTRIES_PER_PAGE

def transactionIdToSegment : Nat :=
  localXid.toNat / (ENTRIES_PER_PAGE * SLRU_PAGES_PER_SEGMENT)

/-- `DistributedLog_PagePrecedes`. -/
def pagePrecedes (page1 page2 : Nat) : Bool :=
  precedes (BitVec.ofNat 32 (page1 * ENTRIES_PER_PAGE) + FirstNormalTransactionId)
    (BitVec.ofNat 32 (page2 * ENTRIES_PER_PAGE) + FirstNormalTransactionId)

/-- `SlruMayDeleteSegment`: the first and the last page of the segment precede the cutoff. -/
def slruMayDeleteSegment (segpage cutoffPage : Nat) : Bool :=
  pagePrecedes segpage cutoffPage && pagePrecedes (segpage + SLRU_PAGES_PER_SEGMENT - 1) cutoffPage

variable {p q x y c : Nat}

theorem transactionIdToPage_full (x : Nat) :
    transactionIdToPage (xidFromFull x) = x / 4096 % 2 ^ 20 := by
  rw [transactionIdToPage, toNat_xidFromFull, ENTRIES_PER_PAGE]
  omega

theorem transactionIdToEntry_full (x : Nat) : transactionIdToEntry (xidFromFull x) = x % 4096 := by
  rw [transactionIdToEntry, toNat_xidFromFull, ENTRIES_PER_PAGE]
  omega

theorem transactionIdToSegment_full (x : Nat) :
    transactionIdToSegment (xidFromFull x) = x / 131072 % 2 ^ 15 := by
  rw [transactionIdToSegment, toNat_xidFromFull, ENTRIES_PER_PAGE, SLRU_PAGES_PER_SEGMENT]
  omega

theorem pagePrecedes_eq (p q : Nat) :
    pagePrecedes p q = (xidFromFull (p * 4096 + 3)).precedes (xidFromFull (q * 4096 + 3)) := by
  unfold pagePrecedes xidFromFull
  rw [BitVec.ofNat_add, BitVec.ofNat_add]
  rfl

theorem pagePrecedes_mod (p q : Nat) :
    pagePrecedes (p % 2 ^ 20) (q % 2 ^ 20) = pagePrecedes p q := by
  have hmod : ∀ p : Nat, xidFromFull (p % 2 ^ 20 * 4096 + 3) = xidFromFull (p * 4096 + 3) := by
    intro p
    apply BitVec.eq_of_toNat_eq
    rw [toNat_xidFromFull, toNat_xidFromFull]
    omega
  rw [pagePrecedes_eq, pagePrecedes_eq, hmod, hmod]

theorem pagePrecedes_iff (h₁ : q ≤ p + 2 ^ 19) (h₂ : p < q + 2 ^ 19) : pagePrecedes p q = true ↔
    p < q := by
  have hnormal : ∀ p : Nat, Normal (p * 4096 + 3) := by
    unfold Normal
    omega
  rw [pagePrecedes_eq, precedes_iff (hnormal p) (hnormal q) (by omega) (by omega)]
  omega

theorem pagePrecedes_half (q : Nat) : pagePrecedes (q + 2 ^ 19) q = true := by
  have hnormal : ∀ p : Nat, Normal (p * 4096 + 3) := by
    unfold Normal
    omega
  have hturn : xidFromFull ((q + 2 ^ 20) * 4096 + 3) = xidFromFull (q * 4096 + 3) := by
    apply BitVec.eq_of_toNat_eq
    rw [toNat_xidFromFull, toNat_xidFromFull]
    omega
  rw [pagePrecedes_eq, ← hturn, precedes_iff (hnormal _) (hnormal _) (by omega) (by omega)]
  omega

/-- **What a truncation keeps**: the segment of an id that is not in a segment before the cutoff. -/
theorem slruMayDeleteSegment_eq_false {latest : Nat} (hseg : c / 131072 ≤ y / 131072)
    (hy : y / 4096 ≤ latest) (hnear : latest ≤ c / 4096 + 2 ^ 19)
    (hlatest : pagePrecedes (latest % 2 ^ 20) (transactionIdToPage (xidFromFull c)) = false) :
    slruMayDeleteSegment (transactionIdToSegment (xidFromFull y) * SLRU_PAGES_PER_SEGMENT)
      (transactionIdToPage (xidFromFull c)) = false := by
  have hfirst : transactionIdToSegment (xidFromFull y) * SLRU_PAGES_PER_SEGMENT =
      y / 131072 * 32 % 2 ^ 20 := by
    rw [transactionIdToSegment_full, SLRU_PAGES_PER_SEGMENT]
    omega
  have hlast : y / 131072 * 32 % 2 ^ 20 + SLRU_PAGES_PER_SEGMENT - 1 =
      (y / 131072 * 32 + 31) % 2 ^ 20 := by
    rw [SLRU_PAGES_PER_SEGMENT]
    omega
  rw [transactionIdToPage_full, pagePrecedes_mod] at hlatest
  have hne : latest ≠ c / 4096 + 2 ^ 19 := by
    intro heq
    rw [heq, pagePrecedes_half] at hlatest
    cases hlatest
  rw [slruMayDeleteSegment, hfirst, hlast, transactionIdToPage_full, pagePrecedes_mod,
    pagePrecedes_mod, Bool.and_eq_false_iff]
  by_cases hsame : y / 131072 * 32 < c / 4096
  · -- the cutoff is within the segment, and the last page does not precede it
    right
    rw [← Bool.not_eq_true, pagePrecedes_iff] <;> omega
  · rw [← Bool.not_eq_true, pagePrecedes_iff] <;> omega

end PolemoDB.Transam
