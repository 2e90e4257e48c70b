import PolemoDB.Lib.Transition

/-!
# Two-phase commit of a distributed transaction

One gxid: the session of the coordinator that runs it, its segments, the log of the coordinator, and
the dtx recovery process, which resolves what is in doubt after a crash and then looks for orphaned
transactions from time to time.

A dispatch sends a message to each of its segments.  A segment acts on a message at any later time
or never, also when the coordinator has given the dispatch up, and its reply can be lost; the
dispatch succeeds when every segment has replied.  The coordinator can crash between any two steps,
and loses the part of its log that is not flushed.

Source: `cdbtm.c` (`doPrepareTransaction`, `doNotifyingCommitPrepared`, `retryAbortPrepared`,
`doNotifyingAbort`, `rollbackDtxTransaction`, `performDtxProtocolCommand`), `xact.c`
(`RecordTransactionCommit`), `twophase.c` (`FinishPreparedTransaction`), `cdbdtxrecovery.c`.
-/

namespace PolemoDB.Cdb

open Option

/-! ## A segment -/

/-- The transaction of the gid on a segment. -/
inductive SegmentXact where
  /-- the segment has no part in it -/
  | none
  | inProgress
  | prepared
  | committed
  /-- rolled back, prepared or not -/
  | aborted
deriving DecidableEq, Repr

inductive DtxProtocolCommand where
  | abortNoPrepared
  | prepare
  | abortSomePrepared
  | commitPrepared
  | abortPrepared
  | retryCommitPrepared
  | retryAbortPrepared
  | recoveryCommitPrepared
  | recoveryAbortPrepared
deriving DecidableEq, Repr

/-- `DistributedTransactionContext` of the QE that gets the command. -/
inductive DtxContext where
  | localOnly
  /-- the QE has the transaction open -/
  | twoPhaseWriter
  /-- the QE has prepared the transaction -/
  | qePrepared
deriving DecidableEq, Repr

/-- `FinishPreparedTransaction`; `none` is an error. -/
def finishPreparedTransaction (isCommit raiseErrorIfNotFound : Bool) : SegmentXact →
    Option SegmentXact
  | .prepared => some (if isCommit then .committed else .aborted)
  | x => if raiseErrorIfNotFound then none else some x

/-- `performDtxProtocolCommand`; `none` is an error. -/
def performDtxProtocolCommand (cmd : DtxProtocolCommand) (context : DtxContext) (x : SegmentXact) :
    Option SegmentXact :=
  match cmd, context with
  | .abortNoPrepared, .twoPhaseWriter => some .aborted
  | .abortNoPrepared, _ => some x
  | .prepare, .twoPhaseWriter => some .prepared
  | .prepare, _ => none
  | .abortSomePrepared, .localOnly => some x
  | .abortSomePrepared, .twoPhaseWriter => some .aborted
  | .abortSomePrepared, .qePrepared => finishPreparedTransaction false true x
  | .commitPrepared, .qePrepared => finishPreparedTransaction true true x
  | .commitPrepared, _ => none
  | .abortPrepared, .qePrepared => finishPreparedTransaction false true x
  | .abortPrepared, _ => none
  | .retryCommitPrepared, .localOnly | .recoveryCommitPrepared, .localOnly =>
    finishPreparedTransaction true false x
  | .retryCommitPrepared, _ | .recoveryCommitPrepared, _ => none
  | .retryAbortPrepared, .localOnly | .recoveryAbortPrepared, .localOnly =>
    finishPreparedTransaction false false x
  | .retryAbortPrepared, _ | .recoveryAbortPrepared, _ => none

/-! ## The coordinator -/

/-- The records of the gxid in the log of the coordinator. -/
inductive LogRecord where
  | commit
  | forget
deriving DecidableEq, Repr

/-- `DtxState`, with the number of the dispatch that the session waits for. -/
inductive DtxState where
  /-- the session has no gxid, or another one -/
  | none
  | activeDistributed
  | preparing (dispatch : Nat)
  | prepared
  | insertingCommitted
  /-- the commit record is inserted; `XLogFlush` has been called or not -/
  | insertedCommitted (flushed : Bool)
  | notifyingCommitPrepared (dispatch : Nat)
  /-- `none` between two tries -/
  | retryCommitPrepared (dispatch : Option Nat)
  | insertingForgetCommitted
  | insertedForgetCommitted
  | notifyingAbortNoPrepared (dispatch : Nat)
  | notifyingAbortSomePrepared (dispatch : Nat)
  | notifyingAbortPrepared (dispatch : Nat)
  | retryAbortPrepared (dispatch : Option Nat)
deriving DecidableEq, Repr

/-- Where the coordinator's recovery is: WAL redo, `recoverInDoubtTransactions`, then the loop of
`DtxRecoveryMain`. -/
inductive RecoveryState where
  /-- the log is to be replayed -/
  | redo
  /-- the gxid is in `shmCommittedGxidArray` -/
  | notify
  | notifying (dispatch : Nat)
  | forget
  /-- `gatherRMInDoubtTransactions` has asked the segments before `i`, at start-up or for orphans -/
  | gather (startup : Bool) (i : Nat) (found : Bool)
  /-- `abortOrphanedTransactions` comes to the gid -/
  | orphaned
  | aborting (startup : Bool) (dispatch : Nat)
  | waiting
deriving DecidableEq, Repr

/-- A command on its way to a segment. -/
structure Message where
  segment : Nat
  cmd : DtxProtocolCommand
  dispatch : Nat
deriving DecidableEq, Repr

/-- The whole system, for one gxid. -/
structure Dtx where
  dtxSegments : List Nat
  segments : List SegmentXact
  state : DtxState
  recovery : RecoveryState
  wal : List LogRecord
  /-- the number of records on disk -/
  flushed : Nat
  messages : List Message
  /-- the replies, each with the number of its dispatch -/
  replies : List (Nat × Nat)
  dispatches : Nat
deriving DecidableEq, Repr

/-- The command is sent to the segments. -/
def Dtx.dispatch (s : Dtx) (cmd : DtxProtocolCommand) (targets : List Nat) : Dtx :=
  { s with
    messages := s.messages ++ targets.map (⟨·, cmd, s.dispatches⟩), dispatches := s.dispatches + 1 }

/-- `cdbcomponent_getCdbComponentsList`. -/
def Dtx.allSegments (s : Dtx) : List Nat := List.range s.segments.length

/-- Every segment has replied to the dispatch. -/
def Dtx.succeeded (s : Dtx) (dispatch : Nat) (targets : List Nat) : Bool :=
  targets.all fun i => s.replies.contains (dispatch, i)

/-- The records that are on disk. -/
def Dtx.durable (s : Dtx) : List LogRecord := s.wal.take s.flushed

/-- The steps. -/
inductive DtxEvent where
  | doPrepareTransaction
  | dispatchSucceeded
  | dispatchFailed
  | insertingDistributedCommitted
  | insertedDistributedCommitted
  | xlogFlush
  | doNotifyingCommitPrepared
  | retry
  | retryTimedOut
  | doInsertForgetCommitted
  | endTransaction
  | rollbackDtxTransaction (writerGangLost procExit : Bool)
  /-- a segment acts on a message; the reply is lost or not -/
  | act (k : Nat) (context : DtxContext) (replied : Bool)
  /-- a QE loses its coordinator and aborts what it has open -/
  | qeAbort (i : Nat)
  | walWriter (n : Nat)
  | crash
  | redo (committed : Bool)
  | doNotifyCommittedInDoubt
  | recordDistributedForgetCommitted
  | startAbortOrphaned
  /-- the next segment is asked; a prepared transaction is seen unless it is too young -/
  | gather (seen : Bool)
  | checkOrphaned
  | recoverySucceeded
  | recoveryFailed
  /-- the dtx recovery process ends with an error and is started again -/
  | recoveryRestart
deriving DecidableEq, Repr

variable (s : Dtx)

/-- `rollbackDtxTransaction`, and the end of the transaction where it returns without a dispatch or
raises FATAL. -/
def Dtx.rollbackDtxTransaction (writerGangLost procExit : Bool) : Option Dtx :=
  match s.state with
  | .activeDistributed =>
    if s.dtxSegments = [] || writerGangLost || procExit then some { s with state := .none }
    else some { s.dispatch .abortNoPrepared s.dtxSegments with
      state := .notifyingAbortNoPrepared s.dispatches }
  | .preparing _ =>
    if procExit then some { s with state := .none }
    else if writerGangLost then some { s with state := .retryAbortPrepared none }
    else some { s.dispatch .abortSomePrepared
      s.dtxSegments with state := .notifyingAbortSomePrepared s.dispatches }
  | .prepared =>
    if procExit then some { s with state := .none }
    else some { s.dispatch .abortPrepared s.dtxSegments with
      state := .notifyingAbortPrepared s.dispatches }
  | .notifyingAbortNoPrepared _ | .notifyingAbortSomePrepared _ | .notifyingAbortPrepared _
    | .retryAbortPrepared _ =>
    some { s with state := .none }
  -- no error is raised from the commit record on: the critical section and
  -- `doNotifyingCommitPrepared` PANIC instead
  | _ => none

/-- The dispatch that the session waits for has succeeded. -/
def Dtx.dispatchSucceeded : Option Dtx :=
  match s.state with
  | .preparing d => if s.succeeded d s.dtxSegments then some { s with state := .prepared } else none
  | .notifyingCommitPrepared d | .retryCommitPrepared (some d) =>
    if s.succeeded d s.dtxSegments then some { s with state := .insertingForgetCommitted } else none
  | .notifyingAbortNoPrepared d | .notifyingAbortSomePrepared d | .notifyingAbortPrepared d =>
    if s.succeeded d s.dtxSegments then some { s with state := .none } else none
  | .retryAbortPrepared (some d) =>
    if s.succeeded d s.allSegments then some { s with state := .none } else none
  | _ => none

/-- The dispatch that the session waits for has failed; a failed prepare goes to
`rollbackDtxTransaction`. -/
def Dtx.dispatchFailed : Option Dtx :=
  match s.state with
  | .notifyingCommitPrepared _ | .retryCommitPrepared (some _) =>
    some { s with state := .retryCommitPrepared none }
  | .notifyingAbortNoPrepared _ => some { s with state := .none }
  | .notifyingAbortSomePrepared _ | .notifyingAbortPrepared _ | .retryAbortPrepared (some _) =>
    some { s with state := .retryAbortPrepared none }
  | _ => none

/-- The coordinator restarts with what is on disk. -/
def Dtx.crash : Dtx := { s with state := .none, recovery := .redo, wal := s.durable }

/-- A segment acts on the message at `k`. -/
def Dtx.act (k : Nat) (context : DtxContext) (replied : Bool) : Option Dtx :=
  match s.messages[k]? with
  | none => none
  | some m => match s.segments[m.segment]? with
    | none => none
    | some x =>
      -- a QE that has the transaction open has not prepared it
      if context = .twoPhaseWriter ∧ x ≠ .inProgress then none
      else match performDtxProtocolCommand m.cmd context x with
        | some x' => some { s with
            segments := s.segments.set m.segment x'
            messages := s.messages.eraseIdx k
            replies := if replied then s.replies ++ [(m.dispatch, m.segment)] else s.replies }
        | none => some { s with messages := s.messages.eraseIdx k }

/-- `gatherRMInDoubtTransactions` asks the next segment, or ends. -/
def Dtx.gather (s : Dtx) (seen : Bool) : Option Dtx :=
  match s.recovery with
  | .gather startup i found => match s.segments[i]? with
    | some x => some { s with
      recovery := .gather startup (i + 1) (found || (seen && x == .prepared)) }
    | none =>
      if found then
        if startup then
          some { s.dispatch .recoveryAbortPrepared s.allSegments with
            recovery := .aborting true s.dispatches }
        else some { s with recovery := .orphaned }
      else some { s with recovery := .waiting }
  | _ => none

/-- One step of the system. -/
def Dtx.step : DtxEvent → Option Dtx
  | .doPrepareTransaction => match s.state with
    | .activeDistributed =>
      some { s.dispatch .prepare s.dtxSegments with state := .preparing s.dispatches }
    | _ => none
  | .dispatchSucceeded => s.dispatchSucceeded
  | .dispatchFailed => s.dispatchFailed
  | .insertingDistributedCommitted => match s.state with
    | .prepared => some { s with state := .insertingCommitted }
    | _ => none
  | .insertedDistributedCommitted => match s.state with
    | .insertingCommitted =>
      some { s with state := .insertedCommitted false, wal := s.wal ++ [.commit] }
    | _ => none
  | .xlogFlush => match s.state with
    | .insertedCommitted _ =>
      some { s with state := .insertedCommitted true, flushed := s.wal.length }
    | _ => none
  | .doNotifyingCommitPrepared => match s.state with
    | .insertedCommitted true =>
      some { s.dispatch .commitPrepared s.dtxSegments with
        state := .notifyingCommitPrepared s.dispatches }
    | _ => none
  | .retry => match s.state with
    | .retryCommitPrepared none =>
      some { s.dispatch .retryCommitPrepared s.dtxSegments with
        state := .retryCommitPrepared (some s.dispatches) }
    | .retryAbortPrepared none =>
      some { s.dispatch .retryAbortPrepared s.allSegments with
        state := .retryAbortPrepared (some s.dispatches) }
    | _ => none
  | .retryTimedOut => match s.state with
    | .retryCommitPrepared none => some s.crash
    | .retryAbortPrepared none => some { s with state := .none }
    | _ => none
  | .doInsertForgetCommitted => match s.state with
    | .insertingForgetCommitted =>
      some { s with state := .insertedForgetCommitted, wal := s.wal ++ [.forget] }
    | _ => none
  | .endTransaction => match s.state with
    | .insertedForgetCommitted => some { s with state := .none }
    | _ => none
  | .rollbackDtxTransaction writerGangLost procExit =>
    s.rollbackDtxTransaction writerGangLost procExit
  | .act k context replied => s.act k context replied
  | .qeAbort i => match s.segments[i]? with
    | some .inProgress => some { s with segments := s.segments.set i .aborted }
    | _ => none
  | .walWriter n => if s.flushed ≤ n ∧ n ≤ s.wal.length then some { s with flushed := n } else none
  | .crash => some s.crash
  | .redo committed => match s.recovery with
    -- `Recovered`: what is committed and not forgotten is in the array, and nothing that was not
    -- committed
    | .redo =>
      if (.commit ∈ s.wal ∧ .forget ∉ s.wal → committed = true) ∧
        (committed = true → .commit ∈ s.wal) then
        some { s with recovery := if committed then .notify else .gather true 0 false }
      else none
    | _ => none
  | .doNotifyCommittedInDoubt => match s.recovery with
    | .notify => some { s.dispatch .recoveryCommitPrepared s.allSegments with
      recovery := .notifying s.dispatches }
    | _ => none
  | .recordDistributedForgetCommitted => match s.recovery with
    | .forget => some { s with recovery := .gather true 0 false, wal := s.wal ++ [.forget] }
    | _ => none
  | .startAbortOrphaned => match s.recovery with
    | .waiting => some { s with recovery := .gather false 0 false }
    | _ => none
  | .gather seen => s.gather seen
  | .checkOrphaned => match s.recovery with
    | .orphaned =>
      -- `IsDtxInProgress`
      if s.state = .none then
        some { s.dispatch .recoveryAbortPrepared s.allSegments with
          recovery := .aborting false s.dispatches }
      else some { s with recovery := .waiting }
    | _ => none
  | .recoverySucceeded => match s.recovery with
    | .notifying d => if s.succeeded d s.allSegments then some { s with recovery := .forget }
      else none
    | .aborting _ d => if s.succeeded d s.allSegments then some { s with recovery := .waiting }
      else none
    | _ => none
  | .recoveryFailed => match s.recovery with
    -- FATAL; the process is started again
    | .notifying _ => some { s with recovery := .notify }
    | .aborting _ _ => some { s with recovery := .waiting }
    | _ => none
  | .recoveryRestart => match s.recovery with
    | .redo => none
    | .notify | .notifying _ | .forget => some { s with recovery := .notify }
    | .gather true _ _ | .aborting true _ => some { s with recovery := .gather true 0 false }
    | _ => some { s with recovery := .waiting }

/-- A transaction that is running on its segments, and a dtx recovery process that has nothing to
do. -/
def Dtx.start (numSegments : Nat) (dtxSegments : List Nat) : Dtx where
  dtxSegments := dtxSegments
  segments := (List.range numSegments).map fun i => if i ∈ dtxSegments then .inProgress else .none
  state := .activeDistributed
  recovery := .waiting
  wal := []
  flushed := 0
  messages := []
  replies := []
  dispatches := 0

end PolemoDB.Cdb
