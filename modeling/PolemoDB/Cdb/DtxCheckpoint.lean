import Mathlib.Data.List.Nodup
import PolemoDB.Lib.Transition

/-!
# Distributed commits and checkpoints of the coordinator

A session that commits a distributed transaction sets `delayChkpt`, inserts the commit record, sets
`includeInCkpt` and clears `delayChkpt`; later it inserts the forget record and clears
`includeInCkpt`.  An online checkpoint fixes its redo point, waits for the sections it has seen with
`delayChkpt`, collects the committed gxids, and inserts its record. After a crash the gxids of the
checkpoint are loaded and the commit and forget records from the redo point on are replayed.  Each
of these is a step of its own here, and the steps of sessions and of the checkpointer interleave.

Source: `xact.c` (`RecordTransactionCommit`, `XactLogCommitRecord`), `cdbtm.c`
(`insertedDistributedCommitted`, `doInsertForgetCommitted`), `procarray.c` (`getDtxCheckPointInfo`,
`GetVirtualXIDsDelayingChkptGuts`), `xlog.c` (`CreateCheckPoint`), `cdbdtxrecovery.c`
(`redoDtxCheckPoint`, `redoDistributedCommitRecord`, `redoDistributedForgetCommitRecord`,
`recoverInDoubtTransactions`).
-/

namespace PolemoDB.Cdb

/-! ## The log and the coordinator -/

/-- `DistributedTransactionId`. -/
abbrev Gxid := Nat

/-- The records that recovery of the committed set reads. -/
inductive WalRecord where
  /-- `XLOG_XACT_DISTRIBUTED_COMMIT` -/
  | commit (gxid : Gxid)
  /-- `XLOG_XACT_DISTRIBUTED_FORGET` -/
  | forget (gxid : Gxid)
  /-- `XLOG_CHECKPOINT_ONLINE`, with the place of its redo point in the log -/
  | checkpoint (redo : Nat) (committedGxidArray : List Gxid)
deriving DecidableEq, Repr

/-- How far a session is with its commit. -/
inductive Phase where
  | idle
  /-- `delayChkpt` is set -/
  | delaying (gxid : Gxid)
  /-- the commit record is inserted -/
  | logged (gxid : Gxid)
  /-- `includeInCkpt` is set -/
  | included (gxid : Gxid)
  /-- `delayChkpt` is cleared -/
  | committed (gxid : Gxid)
  /-- the forget record is inserted, `includeInCkpt` is not cleared yet -/
  | forgotten (gxid : Gxid)
deriving DecidableEq, Repr

/-- `tmGxact->gxid`. -/
def Phase.gxid : Phase → Option Gxid
  | .idle => none
  | .delaying g | .logged g | .included g | .committed g | .forgotten g => some g

/-- `pgxact->delayChkpt`. -/
def Phase.delayChkpt : Phase → Bool
  | .delaying _ | .logged _ | .included _ => true
  | _ => false

/-- `tmGxact->includeInCkpt`. -/
def Phase.includeInCkpt : Phase → Bool
  | .included _ | .committed _ | .forgotten _ => true
  | _ => false

/-- Where `CreateCheckPoint` is. -/
inductive CkptState where
  | idle
  /-- `GetVirtualXIDsDelayingChkpt` has looked at the sessions before `i` -/
  | scanDelay (redo i : Nat) (vxids : List Gxid)
  /-- waiting for the sections it has found -/
  | wait (redo : Nat) (vxids : List Gxid)
  /-- `getDtxCheckPointInfo` has copied `actual` gxids of `shmCommittedGxidArray` -/
  | copy (redo actual : Nat) (gxids : List Gxid)
  /-- `getDtxCheckPointInfo` has looked at the sessions before `i` -/
  | scanInclude (redo i : Nat) (gxids : List Gxid)
deriving DecidableEq, Repr

/-- The coordinator: its log, its sessions, `shmCommittedGxidArray` with the number of gxids that
`recoverInDoubtTransactions` has forgotten, and the checkpointer. -/
structure Coordinator where
  wal : List WalRecord
  procs : List Phase
  shmCommittedGxidArray : List Gxid
  recovered : Nat
  ckpt : CkptState
deriving DecidableEq, Repr

/-- The steps.  A section is known by the gxid of its transaction, as it is by its virtual
transaction id. -/
inductive Event where
  | startCommit (i : Nat) (gxid : Gxid)
  | insertCommit (i : Nat)
  | insertedDistributedCommitted (i : Nat)
  | endCommit (i : Nat)
  | insertForget (i : Nat)
  | insertedForget (i : Nat)
  | recoverForget
  | recoverEnd
  | ckptRedo
  | ckptScanDelay
  | ckptWaitEnd
  | ckptCopy
  | ckptScanInclude
  | ckptInsert
deriving DecidableEq, Repr

/-- The gxid was not used before: gxids come from a counter. -/
def Coordinator.isFresh (s : Coordinator) (gxid : Gxid) : Bool :=
  !s.wal.contains (.commit gxid) && !s.wal.contains (.forget gxid) && s.procs.all
  (·.gxid != some gxid)

/-- A session takes its next step, and inserts records into the log. -/
def Coordinator.advance (s : Coordinator) (i : Nat) (p : Phase) (records : List WalRecord) :
    Coordinator :=
  { s with procs := s.procs.set i p, wal := s.wal ++ records }

/-- One step of a session or of the checkpointer. -/
def Coordinator.step (s : Coordinator) : Event → Option Coordinator
  | .startCommit i gxid => match s.procs[i]? with
    | some .idle => if s.isFresh gxid then some (s.advance i (.delaying gxid) []) else none
    | _ => none
  | .insertCommit i => match s.procs[i]? with
    | some (.delaying g) => some (s.advance i (.logged g) [.commit g])
    | _ => none
  | .insertedDistributedCommitted i => match s.procs[i]? with
    | some (.logged g) => some (s.advance i (.included g) [])
    | _ => none
  | .endCommit i => match s.procs[i]? with
    | some (.included g) => some (s.advance i (.committed g) [])
    | _ => none
  | .insertForget i => match s.procs[i]? with
    | some (.committed g) => some (s.advance i (.forgotten g) [.forget g])
    | _ => none
  | .insertedForget i => match s.procs[i]? with
    | some (.forgotten _) => some (s.advance i .idle [])
    | _ => none
  | .recoverForget => match s.shmCommittedGxidArray[s.recovered]? with
    | some g => some { s with wal := s.wal ++ [.forget g], recovered := s.recovered + 1 }
    | none => none
  | .recoverEnd =>
    if s.recovered = s.shmCommittedGxidArray.length then
      some { s with shmCommittedGxidArray := [], recovered := 0 }
    else none
  | .ckptRedo => match s.ckpt with
    | .idle => some { s with ckpt := .scanDelay s.wal.length 0 [] }
    | _ => none
  | .ckptScanDelay => match s.ckpt with
    | .scanDelay redo i vxids => match s.procs[i]? with
      | some p =>
        let found := if p.delayChkpt then p.gxid.toList else []
        some { s with ckpt := .scanDelay redo (i + 1) (vxids ++ found) }
      | none => some { s with ckpt := .wait redo vxids }
    | _ => none
  | .ckptWaitEnd => match s.ckpt with
    -- a section that was left is not entered again, so the last look at all of them decides
    | .wait redo vxids =>
      if s.procs.any fun p => p.delayChkpt && vxids.any (p.gxid == some ·) then none
      else some { s with ckpt := .copy redo 0 [] }
    | _ => none
  | .ckptCopy => match s.ckpt with
    | .copy redo actual gxids => match s.shmCommittedGxidArray[actual]? with
      | some g => some { s with ckpt := .copy redo (actual + 1) (gxids ++ [g]) }
      | none => some { s with ckpt := .scanInclude redo 0 gxids }
    | _ => none
  | .ckptScanInclude => match s.ckpt with
    | .scanInclude redo i gxids => match s.procs[i]? with
      | some p =>
        let found := if p.includeInCkpt then p.gxid.toList else []
        some { s with ckpt := .scanInclude redo (i + 1) (gxids ++ found) }
      | none => none
    | _ => none
  | .ckptInsert => match s.ckpt with
    | .scanInclude redo i gxids =>
      if s.procs.length ≤ i then some { s with
        ckpt := .idle, wal := s.wal ++ [.checkpoint redo gxids] } else none
    | _ => none

/-- The coordinator after start-up, with what recovery has left in `shmCommittedGxidArray`. -/
def Coordinator.start (wal : List WalRecord) (array : List Gxid) (numProcs : Nat) : Coordinator :=
  ⟨wal, List.replicate numProcs .idle, array, 0, .idle⟩

/-! ## Recovery -/

/-- `redoDistributedCommitRecord`; `none` is the FATAL error at the limit. -/
def redoDistributedCommitRecord (maxTmGxacts : Nat) (array : List Gxid) (gxid : Gxid) :
    Option (List Gxid) :=
  if gxid ∈ array then some array
  else if maxTmGxacts ≤ array.length then none
  else some (array ++ [gxid])

/-- `redoDistributedForgetCommitRecord`: the last gxid takes the place. -/
def redoDistributedForgetCommitRecord (array : List Gxid) (gxid : Gxid) : List Gxid :=
  let i := array.idxOf gxid
  if i < array.length then
    let num := array.length - 1
    (if i ≠ num then array.set i (array.getD num 0) else array).take num
  else array

def redoDtxCheckPoint (maxTmGxacts : Nat) : List Gxid → List Gxid → Option (List Gxid)
  | [], array => some array
  | g :: gs, array => (redoDistributedCommitRecord maxTmGxacts array g).bind
    (redoDtxCheckPoint maxTmGxacts gs)

/-- The replay of the records. -/
def redoAll (maxTmGxacts : Nat) : List WalRecord → List Gxid → Option (List Gxid)
  | [], array => some array
  | .commit g :: rs, array =>
    (redoDistributedCommitRecord maxTmGxacts array g).bind (redoAll maxTmGxacts rs)
  | .forget g :: rs, array => redoAll maxTmGxacts rs (redoDistributedForgetCommitRecord array g)
  | .checkpoint _ _ :: rs, array => redoAll maxTmGxacts rs array

/-- Recovery from the checkpoint record at `k` of the surviving log. -/
def recover (maxTmGxacts : Nat) (wal : List WalRecord) (k : Nat) : Option (List Gxid) :=
  match wal[k]? with
  | some (.checkpoint redo gxids) =>
    (redoDtxCheckPoint maxTmGxacts gxids []).bind (redoAll maxTmGxacts (wal.drop redo))
  | _ => none

/-- The array is right for the log: no gxid twice, every gxid that is committed and not forgotten,
and no gxid that was not committed. -/
structure Recovered (wal : List WalRecord) (array : List Gxid) : Prop where
  nodup : array.Nodup
  pending : ∀ g, .commit g ∈ wal → .forget g ∉ wal → g ∈ array
  committed : ∀ g ∈ array, .commit g ∈ wal

end PolemoDB.Cdb
