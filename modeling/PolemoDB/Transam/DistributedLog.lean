import PolemoDB.Transam.TransactionId

/-!
# The distributed log

For each local transaction id, the gxid of the distributed transaction it belongs to, or zero.  An
entry is written once, and is looked up only as long as `oldestXmin` has not passed it.
-/

namespace PolemoDB.Transam

open TransactionId

/-- The log as a map, and `DistributedLogShared`. -/
structure DistributedLog where
  oldestXmin : TransactionId
  distribXid : TransactionId → DistributedTransactionId

namespace DistributedLog

/-- The errors of the distributed log. -/
inductive Error
  | oldestXminNotInitialized
  | doesNotMatch (current input : DistributedTransactionId) (localXid : TransactionId)
  deriving DecidableEq, Repr

variable (log : DistributedLog)

def held (localXid : TransactionId) : Option DistributedTransactionId :=
  if localXid.precedes log.oldestXmin then none
  else if log.distribXid localXid = 0 then none
  else some (log.distribXid localXid)

/-- `DistributedLog_CommittedCheck`, undisturbed. -/
def committedCheck (localXid : TransactionId) : Except Error (Option DistributedTransactionId) :=
  if log.oldestXmin = InvalidTransactionId then .error .oldestXminNotInitialized
  else if localXid.precedes log.oldestXmin then .ok none
  else if log.distribXid localXid ≠ 0 then .ok (some (log.distribXid localXid))
  else .ok none

/-- `DistributedLog_SetCommittedWithinAPage` of one entry. -/
def setCommitted (localXid : TransactionId)
    (distribXid : DistributedTransactionId) : Except Error DistributedLog :=
  if log.distribXid localXid ≠ 0 then
    if log.distribXid localXid ≠ distribXid then
      .error (.doesNotMatch (log.distribXid localXid) distribXid localXid)
    else .ok log
  else .ok { log with
    distribXid := fun xid => if xid = localXid then distribXid else log.distribXid xid }

variable {log log' : DistributedLog} {xid localXid : TransactionId} {distribXid :
  DistributedTransactionId}

theorem committedCheck_eq (h : log.oldestXmin ≠ InvalidTransactionId) (localXid : TransactionId) :
    log.committedCheck localXid = .ok (log.held localXid) := by
  unfold committedCheck held
  rw [if_neg h]
  split
  · rfl
  · by_cases h0 : log.distribXid localXid = 0
    · rw [if_neg (not_not_intro h0), if_pos h0]
    · rw [if_pos h0, if_neg h0]

theorem held_eq_some_iff {g : DistributedTransactionId} :
    log.held xid = some g ↔ xid.precedes log.oldestXmin = false ∧ g ≠ 0 ∧
    log.distribXid xid = g := by
  unfold held
  cases hp : xid.precedes log.oldestXmin with
  | true => exact ⟨nofun, fun h => (nomatch h.1)⟩
  | false =>
    rw [if_neg Bool.false_ne_true]
    by_cases h0 : log.distribXid xid = 0
    · rw [if_pos h0]
      exact ⟨nofun, fun h => absurd (h.2.2.symm.trans h0) h.2.1⟩
    · rw [if_neg h0, Option.some.injEq]
      exact ⟨fun h => ⟨rfl, h ▸ h0, h⟩, fun h => h.2.2⟩

variable (h : log.setCommitted localXid distribXid = .ok log')
include h

theorem setCommitted_held :
    log'.oldestXmin = log.oldestXmin ∧ ∀ xid g, log.held xid = some g → log'.held xid = some g := by
  unfold setCommitted at h
  by_cases h0 : log.distribXid localXid = 0
  · rw [if_neg (not_not_intro h0)] at h
    cases h
    refine ⟨rfl, fun xid g hg => ?_⟩
    rw [held_eq_some_iff] at hg ⊢
    obtain ⟨hp, hne, heq⟩ := hg
    refine ⟨hp, hne, ?_⟩
    have hx : xid ≠ localXid := fun hx => hne (heq.symm.trans (hx ▸ h0))
    exact (if_neg hx).trans heq
  · rw [if_pos h0] at h
    split at h
    · cases h
    · cases h
      exact ⟨rfl, fun _ _ hg => hg⟩

theorem setCommitted_distribXid
    (hne : xid ≠ localXid) : log'.distribXid xid = log.distribXid xid := by
  unfold setCommitted at h
  split at h
  · split at h
    · cases h
    · cases h
      rfl
  · cases h
    exact if_neg hne

end DistributedLog

end PolemoDB.Transam
