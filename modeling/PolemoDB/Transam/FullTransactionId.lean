import Mathlib.Data.Int.ModEq
import PolemoDB.Transam.TransactionId

/-!
# Full transaction ids

A local transaction id is the low half of a `FullTransactionId`, a counter that does not wrap around
(`nextFullXid`).  As long as all ids in use are within 2^31 of each other, comparing the low halves
compares the full ids.

* `fullAdvance` — the next id, over the special ones (`FullTransactionIdAdvance`,
  `TransactionIdAdvance`);
* `precedes_iff`, `precedesOrEquals_iff`, `xidFromFull_inj` — the comparisons of ids in use.
-/

namespace PolemoDB.Transam

open TransactionId BitVec

/-- `XidFromFullTransactionId`. -/
def xidFromFull (x : Nat) : TransactionId := BitVec.ofNat 32 x

/-- A full id whose low half is not special. -/
def Normal (x : Nat) : Prop := 3 ≤ x % 2 ^ 32

instance (x : Nat) : Decidable (Normal x) := inferInstanceAs (Decidable (_ ≤ _))

/-- `FullTransactionIdAdvance`. -/
def fullAdvance (x : Nat) : Nat :=
  if (x + 1) % 2 ^ 32 < 3 then x + 1 + (3 - (x + 1) % 2 ^ 32) else x + 1

def TransactionId.advance (xid : TransactionId) : TransactionId :=
  if xid + 1 < FirstNormalTransactionId then FirstNormalTransactionId else xid + 1

variable {a b x : Nat}

theorem toNat_xidFromFull (x : Nat) : (xidFromFull x).toNat = x % 2 ^ 32 := BitVec.toNat_ofNat x 32

theorem isNormal_xidFromFull : isNormal (xidFromFull x) = true ↔ Normal x := by
  rw [isNormal, decide_eq_true_iff, le_def, toNat_xidFromFull]
  exact Iff.rfl

theorem xidFromFull_fullAdvance (x : Nat) : xidFromFull (fullAdvance x) =
    (xidFromFull x).advance := by
  apply eq_of_toNat_eq
  have hnext : (xidFromFull x + 1).toNat = (x + 1) % 2 ^ 32 := by exact Nat.mod_add_mod x (2 ^ 32) 1
  rw [toNat_xidFromFull, advance, fullAdvance]
  by_cases h : (x + 1) % 2 ^ 32 < 3
  · have hlt : xidFromFull x + 1 < FirstNormalTransactionId := by
      rw [lt_def, hnext]
      exact h
    rw [if_pos h, if_pos hlt]
    show _ = 3
    omega
  · have hge : ¬xidFromFull x + 1 < FirstNormalTransactionId := by
      rw [lt_def, hnext]
      exact h
    rw [if_neg h, if_neg hge, hnext]

theorem normal_fullAdvance (x : Nat) : Normal (fullAdvance x) := by
  unfold Normal fullAdvance
  split <;> omega

theorem lt_fullAdvance (x : Nat) : x < fullAdvance x := by
  unfold fullAdvance
  split <;> omega

theorem fullAdvance_le (hb : Normal b) (h : a < b) : fullAdvance a ≤ b := by
  unfold Normal at hb
  unfold fullAdvance
  split <;> omega

theorem lt_fullAdvance_iff (hx : Normal x) : x < fullAdvance a ↔ x ≤ a := by
  constructor
  · intro h
    by_contra hlt
    exact absurd (fullAdvance_le hx (Nat.lt_of_not_le hlt)) (Nat.not_le.mpr h)
  · exact fun h => Nat.lt_of_le_of_lt h (lt_fullAdvance a)

/-! ## Comparisons -/

theorem toInt_xidFromFull_sub (a b : Nat) :
    (xidFromFull a - xidFromFull b).toInt = Int.bmod (a - b) (2 ^ 32) := by
  rw [xidFromFull, xidFromFull, toInt_sub, toInt_ofNat', toInt_ofNat', Int.sub_bmod_bmod,
    Int.bmod_sub_bmod]

theorem toInt_xidFromFull_sub_of_near (h₁ : b ≤ a + 2 ^ 31) (h₂ : a < b + 2 ^ 31) :
    (xidFromFull a - xidFromFull b).toInt = a - b := by
  rw [toInt_xidFromFull_sub, Int.bmod_eq_of_le] <;> omega

theorem precedes_iff (ha : Normal a) (hb : Normal b) (h₁ : b ≤ a + 2 ^ 31) (h₂ : a < b + 2 ^ 31) :
    (xidFromFull a).precedes (xidFromFull b) = true ↔ a < b := by
  rw [precedes, isNormal_xidFromFull.mpr ha, isNormal_xidFromFull.mpr hb,
    toInt_xidFromFull_sub_of_near h₁ h₂]
  simp only [Bool.not_true, Bool.or_self, Bool.false_eq_true, if_false, decide_eq_true_eq]
  omega

theorem precedesOrEquals_iff (ha : Normal a) (hb : Normal b) (h₁ : b ≤ a + 2 ^ 31)
    (h₂ : a < b + 2 ^ 31) : (xidFromFull a).precedesOrEquals (xidFromFull b) = true ↔ a ≤ b := by
  rw [precedesOrEquals, isNormal_xidFromFull.mpr ha, isNormal_xidFromFull.mpr hb,
    toInt_xidFromFull_sub_of_near h₁ h₂]
  simp only [Bool.not_true, Bool.or_self, Bool.false_eq_true, if_false, decide_eq_true_eq]
  omega

theorem xidFromFull_inj (h : xidFromFull a = xidFromFull b) (h₁ : a < b + 2 ^ 32)
    (h₂ : b < a + 2 ^ 32) : a = b := by
  have hmod := congrArg BitVec.toNat h
  rw [toNat_xidFromFull, toNat_xidFromFull] at hmod
  omega

end PolemoDB.Transam
