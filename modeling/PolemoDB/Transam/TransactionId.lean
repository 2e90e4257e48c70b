import Mathlib.Data.BitVec

/-!
# Transaction ids

Local transaction ids are counters of 32 bits that wrap around; the first three are special.
Distributed transaction ids (gxids) are plain counters of 64 bits.
-/

namespace PolemoDB.Transam

abbrev TransactionId := BitVec 32

abbrev DistributedTransactionId := BitVec 64

def InvalidTransactionId : TransactionId := 0

def FirstNormalTransactionId : TransactionId := 3

def InvalidDistributedTransactionId : DistributedTransactionId := 0

namespace TransactionId

/-- `TransactionIdIsNormal`. -/
def isNormal (xid : TransactionId) : Bool := decide (FirstNormalTransactionId ≤ xid)

variable (id1 id2 : TransactionId)

/-- `TransactionIdPrecedes`. -/
def precedes : Bool :=
  if !isNormal id1 || !isNormal id2 then decide (id1 < id2) else decide ((id1 - id2).toInt < 0)

/-- `TransactionIdPrecedesOrEquals`. -/
def precedesOrEquals : Bool :=
  if !isNormal id1 || !isNormal id2 then decide (id1 ≤ id2) else decide ((id1 - id2).toInt ≤ 0)

/-- `TransactionIdFollows`. -/
def follows : Bool :=
  if !isNormal id1 || !isNormal id2 then decide (id2 < id1) else decide (0 < (id1 - id2).toInt)

end TransactionId

end PolemoDB.Transam
