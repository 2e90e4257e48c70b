import PolemoDB.Lib.RwLock
import PolemoDB.Lib.Transition
import PolemoDB.Transam.DistributedLog
import PolemoDB.Transam.DistributedLogPages

/-!
# Advancing and truncating the distributed log

Sessions of a segment advance `oldestXmin` (`DistributedLog_AdvanceOldestXmin`), truncate the log
behind it (`DistributedLog_Truncate`, `SimpleLruTruncate`) and look up entries
(`DistributedLog_CommittedCheck`), while new ids are assigned, transactions commit and old ids go
out of use.  `DistributedLogTruncateLock` is held shared while the log is read, and exclusive while
segments are deleted; `oldestXmin` is read and swapped without it as well.

Local ids are followed as the full ids they are the low halves of; the code compares and divides the
low halves.

* `Call` — where a session is in its call, a step for each access of shared data;
* `DlogStart` — what is found at the start.
-/

namespace PolemoDB.Transam

open PolemoDB.Lib TransactionId

/-! ## Sessions -/

/-- Where a session is in its call. -/
inductive Call
  | idle
  /-- `DistributedLog_AdvanceOldestXmin`, before it has the lock -/
  | advance (oldestLocalXmin : Nat) (xminAllDistributedSnapshots : DistributedTransactionId)
  | advanceLocked (oldestLocalXmin : Nat) (xminAllDistributedSnapshots : DistributedTransactionId)
  /-- the loop over the entries -/
  | scanning (oldestLocalXmin : Nat) (xminAllDistributedSnapshots : DistributedTransactionId)
    (oldOldestXmin oldestXmin : Nat)
  /-- the loop of the compare and exchange -/
  | swapping (oldOldestXmin oldestXmin expected : Nat)
  | swapped (oldOldestXmin oldestXmin : Nat)
  /-- the lock is released -/
  | released (oldOldestXmin oldestXmin : Nat)
  /-- `DistributedLog_Truncate`, with the lock -/
  | truncating (oldestXmin : Nat)
  | truncated
  /-- the page of the entry is not there -/
  | advanceFailed (xid : Nat)
  /-- `DistributedLog_CommittedCheck`, before it reads `oldestXmin` -/
  | check (localXid : Nat)
  /-- after that, before it has the lock; `seen` is the number of truncations until then -/
  | bounded (localXid seen : Nat)
  | checkLocked (localXid seen : Nat)
  | checked (localXid : Nat) (distribXid : DistributedTransactionId)
  /-- the page of the entry is not there -/
  | checkFailed (localXid : Nat)
  deriving DecidableEq, Repr

namespace Call

/-- How the session holds `DistributedLogTruncateLock`. -/
def mode : Call → LockMode
  | .advanceLocked _ _ | .scanning _ _ _ _ | .swapping _ _ _ | .swapped _ _ | .checkLocked _ _
    | .checked _ _ => .shared
  | .truncating _ | .truncated => .exclusive
  | _ => .free

/-- The local ids that the call is still using. -/
def xids : Call → List Nat
  | .advance l _ | .advanceLocked l _ => [l]
  | .scanning l _ old cur => [l, old, cur]
  | .swapping old cur expected => [old, cur, expected]
  | .swapped old cur | .released old cur => [old, cur]
  | .truncating cutoff => [cutoff]
  | .check x | .bounded x _ | .checkLocked x _ => [x]
  | _ => []

/-- The end of the loop over the entries. -/
def scanned (oldOldestXmin oldestXmin : Nat) : Call :=
  if xidFromFull oldOldestXmin = xidFromFull oldestXmin then .swapped oldOldestXmin oldestXmin
  else .swapping oldOldestXmin oldestXmin oldOldestXmin

end Call

/-! ## The log -/

/-- The log: `DistributedLogShared`, the entries, the files of the directory and
`latest_page_number`; `oldestXid` and `nextXid` are the bounds of the ids in use.  `passedIn` and
`truncations` are the history of the run: what `DistributedLog_AdvanceOldestXmin` was called with,
and the cutoffs at which segments were deleted, the last one first. -/
structure Dlog where
  oldestXmin : Nat
  distribXid : TransactionId → DistributedTransactionId
  segments : List Nat
  latestPageNumber : Nat
  sessions : List Call
  oldestXid : Nat
  nextXid : Nat
  passedIn : List (Nat × DistributedTransactionId)
  truncations : List Nat

/-- What happens. -/
inductive DlogEvent
  | advanceOldestXmin (i : Nat) (oldestLocalXmin : Nat)
    (xminAllDistributedSnapshots : DistributedTransactionId)
  | committedCheck (i : Nat) (localXid : Nat)
  /-- the session goes on with its call -/
  | run (i : Nat)
  /-- `GetNewTransactionId` -/
  | assign
  /-- ids before this one go out of use -/
  | freeze (oldestXid : Nat)
  | setCommitted (localXid : Nat) (distribXid : DistributedTransactionId)
  deriving DecidableEq, Repr

namespace Dlog

/-- The log without its pages. -/
def log (s : Dlog) : DistributedLog := ⟨xidFromFull s.oldestXmin, s.distribXid⟩

def entry (s : Dlog) (x : Nat) : DistributedTransactionId := s.distribXid (xidFromFull x)

/-- The page of an id is on one of the files. -/
def Present (s : Dlog) (x : Nat) : Prop := transactionIdToSegment (xidFromFull x) ∈ s.segments

instance (s : Dlog) (x : Nat) : Decidable (s.Present x) := inferInstanceAs (Decidable (_ ∈ _))

/-- A truncation at the cutoff deletes the segment. -/
def deletes (cutoff seg : Nat) : Bool :=
  slruMayDeleteSegment (seg * SLRU_PAGES_PER_SEGMENT) (transactionIdToPage (xidFromFull cutoff))

variable (s : Dlog)

/-- `DistributedLog_Truncate` and `SimpleLruTruncate`, with the lock: nothing is done without a file
to remove, or if the latest page precedes the cutoff. -/
def truncate (cutoff : Nat) : Dlog :=
  if s.segments.any (deletes cutoff) then
    if pagePrecedes s.latestPageNumber (transactionIdToPage (xidFromFull cutoff)) then s
    else { s with
      segments := s.segments.filter fun seg => !deletes cutoff seg,
      truncations := cutoff :: s.truncations }
  else s

def firstOnPage (x : Nat) : Prop :=
  transactionIdToEntry (xidFromFull x) = 0 ∨ xidFromFull x = FirstNormalTransactionId

instance (x : Nat) : Decidable (firstOnPage x) := inferInstanceAs (Decidable (_ ∨ _))

/-- `DistributedLog_Extend`: the first id of a page zeroes it. -/
def extend (newestXact : Nat) : Dlog :=
  if firstOnPage newestXact then
    { s with
      distribXid := fun xid =>
        if transactionIdToPage xid =
          transactionIdToPage (xidFromFull newestXact) then 0 else s.distribXid xid
      segments := transactionIdToSegment (xidFromFull newestXact) :: s.segments
      latestPageNumber := transactionIdToPage (xidFromFull newestXact) }
  else s

/-- The session goes on; an error ends its call. -/
def runSession : Call → Option (Dlog × Call)
  | .idle | .advanceFailed _ | .checkFailed _ => none
  | .advance l m => if canShare Call.mode s.sessions then some (s, .advanceLocked l m) else none
  | .advanceLocked l m => some (s, .scanning l m s.oldestXmin s.oldestXmin)
  | .scanning l m old cur =>
    some (s,
      if (xidFromFull cur).precedes (xidFromFull l) then
        if ¬s.Present cur then .advanceFailed cur
        else if m ≤ s.entry cur then .scanned old cur
        else .scanning l m old (fullAdvance cur)
      else .scanned old cur)
  | .swapping old cur expected =>
    if xidFromFull s.oldestXmin = xidFromFull expected then
      some ({ s with oldestXmin := cur }, .swapped old cur)
    else if (xidFromFull cur).precedesOrEquals (xidFromFull s.oldestXmin) then
      some (s, .swapped old s.oldestXmin)
    else some (s, .swapping old cur s.oldestXmin)
  | .swapped old cur => some (s, .released old cur)
  | .released old cur =>
    if transactionIdToSegment (xidFromFull old) < transactionIdToSegment (xidFromFull cur) then
      if canExclude Call.mode s.sessions then some (s, .truncating cur) else none
    else some (s, .idle)
  | .truncating cutoff => some (s.truncate cutoff, .truncated)
  | .truncated => some (s, .idle)
  | .check x =>
    if xidFromFull s.oldestXmin = InvalidTransactionId then none
    else some (s, if (xidFromFull x).precedes (xidFromFull s.oldestXmin) then .idle else .bounded x
      s.truncations.length)
  | .bounded x seen => if canShare Call.mode s.sessions then some (s, .checkLocked x seen) else none
  | .checkLocked x _ => some (s, if ¬s.Present x then .checkFailed x else .checked x (s.entry x))
  | .checked _ _ => some (s, .idle)

/-- One event.  The ids that are passed in are in use, an id is assigned while all ids in use are
within 2^31 of each other, and the entries before the `oldestLocalXmin` of a call do not change. -/
def step : DlogEvent → Option Dlog
  | .advanceOldestXmin i l m =>
    if s.sessions[i]? = some .idle ∧ Normal l ∧ s.oldestXid ≤ l ∧ l ≤ s.nextXid then
      some { s with sessions := s.sessions.set i (.advance l m), passedIn := (l, m) :: s.passedIn }
    else none
  | .committedCheck i x =>
    if s.sessions[i]? = some .idle ∧ Normal x ∧ s.oldestXid ≤ x ∧ x < s.nextXid then
      some { s with sessions := s.sessions.set i (.check x) }
    else none
  | .run i =>
    (s.sessions[i]?.bind s.runSession).map fun (s', t) =>
      { s' with sessions := s'.sessions.set i t }
  | .assign =>
    if fullAdvance s.nextXid < s.oldestXid + 2 ^ 31 then
      some { s.extend s.nextXid with nextXid := fullAdvance s.nextXid }
    else none
  | .freeze b =>
    if s.oldestXid ≤ b ∧ b ≤ s.oldestXmin ∧
      ∀ t ∈ s.sessions, ∀ x ∈ t.xids, b ≤ x then some { s with oldestXid := b } else none
  | .setCommitted x g =>
    if Normal x ∧ s.oldestXid ≤ x ∧ x < s.nextXid ∧ ∀ p ∈ s.passedIn, p.1 ≤ x then
      match s.log.setCommitted (xidFromFull x) g with
      | .ok log => some { s with distribXid := log.distribXid }
      | .error _ => none
    else none

/-- The truncations since the first `seen` ones. -/
def truncationsSince (seen : Nat) : List Nat :=
  s.truncations.take (s.truncations.length - seen)

end Dlog

/-- What `DistributedLog_Startup` finds: the pages of the ids from `oldestXmin` on are there, and so
is the one that the next id is on, if it is not the first one of it. -/
structure DlogStart where
  oldestXid : Nat
  oldestXmin : Nat
  nextXid : Nat
  distribXid : TransactionId → DistributedTransactionId
  segments : List Nat
  numSessions : Nat
  normal : Normal oldestXmin ∧ Normal nextXid
  oldest_le : oldestXid ≤ oldestXmin
  xmin_le : oldestXmin ≤ nextXid
  near : nextXid < oldestXid + 2 ^ 31
  present : ∀ x, Normal x → oldestXmin ≤ x → x < nextXid →
    transactionIdToSegment (xidFromFull x) ∈ segments
  next_present : ¬Dlog.firstOnPage nextXid → transactionIdToSegment (xidFromFull nextXid) ∈ segments

def DlogStart.log (d : DlogStart) : Dlog where
  oldestXmin := d.oldestXmin
  distribXid := d.distribXid
  segments := d.segments
  latestPageNumber := transactionIdToPage (xidFromFull d.nextXid)
  sessions := List.replicate d.numSessions .idle
  oldestXid := d.oldestXid
  nextXid := d.nextXid
  passedIn := []
  truncations := []

end PolemoDB.Transam
