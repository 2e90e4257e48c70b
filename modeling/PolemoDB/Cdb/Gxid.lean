import Mathlib.Tactic.Ring
import PolemoDB.Lib.ReplayLog
import PolemoDB.Lib.Transition

/-!
# Global transaction ids

The coordinator hands out gxids from a batch.  `bumpGxid` logs the limit of a new batch and flushes
it before the batch may be used, while other sessions keep taking gxids from the old one.  A
checkpoint notes the counter; after a crash the counter is taken from the last checkpoint and from
the records behind its redo point.

* `Coordinator`, `GxidEvent`, `Coordinator.step` — sessions, checkpoints and crashes, one section
  under a lock at a time;
* `gxid_unique` — no gxid is handed out twice, and each one is below a limit that was flushed.
-/

namespace PolemoDB.Cdb.Gxid

open PolemoDB.Lib List Option Nat

/-! ## Model -/

def FirstDistributedTransactionId : Nat := 1

def LastDistributedTransactionId : Nat := 0xffffFFFFffffFFFF

/-- `gp_gxid_prefetch_num`, with the range of the setting. -/
structure GxidPrefetch where
  num : Nat
  num_min : 512 ≤ num
  num_max : num ≤ 0x7FFFFFFF

/-- A value of `nextGxid` that a start of the coordinator may find. -/
structure StartupGxid (p : GxidPrefetch) where
  nextGxid : Nat
  one_le : 1 ≤ nextGxid
  lt : nextGxid < LastDistributedTransactionId - p.num

/-- The batch of the default setting, and a first start. -/
def firstStart : StartupGxid ⟨8192, by decide, by decide⟩ := ⟨1, by decide, by decide⟩

/-- `GXID_PRETCH_THRESHOLD`. -/
def GxidPrefetch.threshold (p : GxidPrefetch) : Nat := p.num >>> 1

theorem GxidPrefetch.threshold_le (p : GxidPrefetch) : p.threshold ≤ p.num := by
  unfold GxidPrefetch.threshold
  exact div_le_self _ _

/-- What a checkpoint record says about the gxids. -/
structure CheckPoint where
  redo : Nat
  nextGxid : Nat
  deriving DecidableEq, Repr

/-- The records of the log. -/
inductive XLogRecord
  | nextGxid (limit : Nat)
  | checkpoint (shutdown : Bool) (checkPoint : CheckPoint)
  | other
  deriving DecidableEq, Repr

open XLogRecord

/-- `xlog_redo`: a record of a limit and a shutdown checkpoint set the counter, an online checkpoint
does not. -/
def XLogRecord.setsNextGxid : XLogRecord → Option Nat
  | .nextGxid limit => some limit
  | .checkpoint true checkPoint => some checkPoint.nextGxid
  | .checkpoint false _ => none
  | .other => none

/-- Where the session is that holds `GxidBumpLock`. -/
inductive BumpStage
  | none
  | locked
  /-- there are few gxids left -/
  | checked
  | computed (nextLimit : Nat)
  /-- the record of the limit is at this place of the log -/
  | inserted (nextLimit place : Nat)
  deriving DecidableEq, Repr

inductive CheckpointStage
  | none
  | redo (redo : Nat)
  | read (checkPoint : CheckPoint)
  | inserted (place : Nat)
  deriving DecidableEq, Repr

/-- Sessions exist only while the coordinator is running. -/
inductive Phase
  | starting
  | running
  | stopping
  deriving DecidableEq, Repr

/-- The coordinator, its log and its control file; `handedOut` is the history of all gxids, across
crashes. -/
structure Coordinator where
  nextGxid : Nat
  gxidCount : Nat
  bump : BumpStage
  ckpt : CheckpointStage
  phase : Phase
  wal : List XLogRecord
  flushed : Nat
  /-- `ControlFile->checkPoint` -/
  control : Nat
  handedOut : List Nat
  deriving DecidableEq, Repr

open PolemoDB.Cdb.Gxid.Coordinator

/-- What happens, one section under a lock at a time. -/
inductive GxidEvent
  /-- the section of `currentDtxActivate` that takes a gxid, of any session -/
  | activate
  /-- the sections of `bumpGxid`, of the session that gets the lock -/
  | bumpLock
  | bumpCheck
  | bumpCompute
  | bumpInsert
  | bumpFlush
  | bumpCredit
  /-- the session ends in the middle of `bumpGxid`, and its lock is released -/
  | bumpAbort
  /-- the sections of `CreateCheckPoint` -/
  | ckptRedo
  | ckptRead
  | ckptInsert
  | ckptFlush
  | ckptControl
  /-- anything else that is logged, and any other flush -/
  | insertOther
  | flushTo (n : Nat)
  /-- sessions are let in -/
  | openSessions
  /-- all sessions have ended -/
  | shutdown
  /-- everything in memory is lost, with the log behind some place at or after its flushed part;
  recovery follows -/
  | crash (n : Nat)
  deriving DecidableEq, Repr

namespace Coordinator

/-- The base of a recovery from the checkpoint at a place: where the replay starts, and the counter
it starts with. -/
def base (wal : List XLogRecord) (place : Nat) : Option (Nat × Nat) :=
  match wal[place]? with
  | some (.checkpoint _ checkPoint) =>
    some (if checkPoint.redo < place then checkPoint.redo else place + 1, checkPoint.nextGxid)
  | _ => none

/-- `StartupXLOG`, as far as the gxids are concerned; without a checkpoint record it gives up. -/
def startup (wal : List XLogRecord) (control : Nat) : Option Nat :=
  (base wal control).map fun (start, nextGxid) => replay setsNextGxid nextGxid (wal.drop start)

/-- A shutdown checkpoint, or one at the end of recovery, is made when there are no sessions. -/
def isShutdown (s : Coordinator) : Bool := decide (s.phase ≠ .running)

def insert (s : Coordinator) (r : XLogRecord) : Coordinator := { s with wal := s.wal ++ [r] }

/-- One event; `none` if it cannot happen.  A `PANIC` is a crash, so it is no other event's outcome.
-/
def step (p : GxidPrefetch) (s : Coordinator) : GxidEvent → Option Coordinator
  | .activate =>
    if s.phase = .running then
      if 0 < s.gxidCount then
        some { s with
          handedOut := s.nextGxid :: s.handedOut
          nextGxid := (s.nextGxid + 1) % 2 ^ 64
          gxidCount := s.gxidCount - 1 }
      else some s
    else none
  | .bumpLock => if s.phase = .running ∧
    s.bump = .none then some { s with bump := .locked } else none
  | .bumpCheck =>
    if s.bump = .locked then
      if p.threshold < s.gxidCount then some { s with bump := .none } else some
        { s with bump := .checked }
    else none
  | .bumpCompute =>
    if s.bump = .checked then
      let nextCount := (s.gxidCount + p.num) % 2 ^ 32
      let nextLimit := (s.nextGxid + nextCount) % 2 ^ 64
      if LastDistributedTransactionId - p.num ≤
        nextLimit then none else some { s with bump := .computed nextLimit }
    else none
  | .bumpInsert =>
    match s.bump with
    | .computed nextLimit =>
      some { s.insert (.nextGxid nextLimit) with bump := .inserted nextLimit s.wal.length }
    | _ => none
  | .bumpFlush =>
    match s.bump with
    | .inserted _ place => some { s with flushed := max s.flushed (place + 1) }
    | _ => none
  | .bumpCredit =>
    match s.bump with
    | .inserted _ place =>
      if place < s.flushed then some { s with
        gxidCount := (s.gxidCount + p.num) % 2 ^ 32, bump := .none } else none
    | _ => none
  | .bumpAbort => some { s with bump := .none }
  | .ckptRedo => if s.ckpt = .none then some { s with ckpt := .redo s.wal.length } else none
  | .ckptRead =>
    match s.ckpt with
    | .redo redo =>
      -- the lock is shared with nobody who holds it exclusively
      if s.bump = .none then
        some { s with
          ckpt := .read
            ⟨redo, if s.isShutdown then s.nextGxid else (s.nextGxid + s.gxidCount) % 2 ^ 64⟩ }
      else none
    | _ => none
  | .ckptInsert =>
    match s.ckpt with
    | .read checkPoint => some
      { s.insert (.checkpoint s.isShutdown checkPoint) with ckpt := .inserted s.wal.length }
    | _ => none
  | .ckptFlush =>
    match s.ckpt with
    | .inserted place => some { s with flushed := max s.flushed (place + 1) }
    | _ => none
  | .ckptControl =>
    match s.ckpt with
    | .inserted place => if place < s.flushed then some { s with control := place, ckpt := .none }
      else none
    | _ => none
  | .insertOther => some (s.insert .other)
  | .flushTo n => if s.flushed ≤ n ∧ n ≤ s.wal.length then some { s with flushed := n } else none
  | .openSessions => if s.phase = .starting ∧
    s.ckpt = .none then some { s with phase := .running } else none
  | .shutdown =>
    if s.phase = .running ∧ s.bump = .none ∧
      s.ckpt = .none then some { s with phase := .stopping } else none
  | .crash n =>
    if s.flushed ≤ n ∧ n ≤ s.wal.length then
      (startup (s.wal.take n) s.control).map fun nextGxid =>
        { nextGxid := nextGxid, gxidCount := 0, bump := .none, ckpt := .none, phase := .starting,
          wal := s.wal.take n, flushed := n, control := s.control, handedOut := s.handedOut }
    else none

/-- `BootStrapXLOG`: a log with one checkpoint, from which the coordinator starts for the first
time. -/
def bootstrap : Coordinator where
  nextGxid := FirstDistributedTransactionId
  gxidCount := 0
  bump := .none
  ckpt := .none
  phase := .starting
  wal := [.checkpoint true ⟨0, FirstDistributedTransactionId⟩]
  flushed := 1
  control := 0
  handedOut := []

/-! ## Invariant -/

variable {p : GxidPrefetch} {s s' : Coordinator}

section

variable (s : Coordinator)

/-- All gxids below are handed out or may be, from the batches that are credited. -/
def limit : Nat := s.nextGxid + s.gxidCount

/-- What recovery must not fall below: with no sessions, the rest of the batch may be lost. -/
def bound : Nat := if s.phase = .running then s.limit else s.nextGxid

/-- The base of the checkpoint that is being made. -/
def ckptBases (wal : List XLogRecord) : CheckpointStage → List (Nat × Nat)
  | .none => []
  | .redo _ => []
  | .read checkPoint => [(checkPoint.redo, checkPoint.nextGxid)]
  | .inserted place => (base wal place).toList

/-- The bases of this recovery or a later one. -/
def bases : List (Nat × Nat) := (base s.wal s.control).toList ++ ckptBases s.wal s.ckpt

/-- A batch that is being logged: nothing is set behind its record, and no recovery starts behind
it. -/
def BumpOk (p : GxidPrefetch) (s : Coordinator) : BumpStage → Prop
  | .none => True
  | .locked => s.phase = .running
  | .checked => s.phase = .running ∧ s.gxidCount ≤ p.threshold
  | .computed v =>
    s.phase = .running ∧ s.gxidCount ≤ p.threshold ∧ v = s.limit + p.num ∧
      v < LastDistributedTransactionId - p.num
  | .inserted v place =>
    s.phase = .running ∧ s.gxidCount ≤ p.threshold ∧ v = s.limit + p.num ∧
      v < LastDistributedTransactionId - p.num ∧ ∃ pre post, s.wal = pre ++ .nextGxid v :: post ∧
        place = pre.length ∧ (∀ r ∈ post, r.setsNextGxid = none) ∧ ∀ b ∈ s.bases, b.1 ≤ place

/-- A checkpoint that is being made. -/
def CkptOk : CheckpointStage → Prop
  | .none => True
  | .redo redo => redo ≤ s.wal.length
  | .read checkPoint => s.isShutdown = true → checkPoint.nextGxid = s.nextGxid
  | .inserted place => place < s.wal.length ∧ (base s.wal place).isSome = true

/-- A limit above `g` was flushed. -/
def Limited (g : Nat) : Prop := ∃ limit, .nextGxid limit ∈ s.wal.take s.flushed ∧ g < limit

end

/-- What every event keeps. -/
structure Inv (p : GxidPrefetch) (s : Coordinator) : Prop where
  recoverable : Recoverable setsNextGxid s.wal s.flushed s.bases s.bound
  control_lt : s.control < s.flushed
  control_base : (base s.wal s.control).isSome = true
  one_le : 1 ≤ s.nextGxid
  limit_lt : s.limit < LastDistributedTransactionId - p.num
  set_lt : ∀ r ∈ s.wal, ∀ v, r.setsNextGxid = some v → v < LastDistributedTransactionId - p.num
  base_lt : ∀ b ∈ s.bases, b.2 < LastDistributedTransactionId - p.num
  starting : s.phase = .starting → s.gxidCount = 0
  bumpOk : s.BumpOk p s.bump
  ckptOk : s.CkptOk s.ckpt
  handed_lt : ∀ g ∈ s.handedOut, g < s.nextGxid
  nodup : s.handedOut.Nodup
  limited : ∀ g ∈ s.handedOut, s.Limited g
  credited : 0 < s.gxidCount → s.Limited (s.limit - 1)

variable {place n : Nat}

variable {stage : BumpStage} {wal : List XLogRecord} {g v : Nat}

/-- A batch that is being logged is as good after a step that changes none of its data and adds no
base. -/
theorem BumpOk.of_bases {t : Coordinator} (h : s.BumpOk p stage) (hphase : t.phase = s.phase)
    (hcount : t.gxidCount ≤ s.gxidCount) (hlimit : t.limit = s.limit) (hwal : t.wal = s.wal)
    (hsub : t.bases ⊆ s.bases) : t.BumpOk p stage := by
  cases stage with
  | none => exact trivial
  | locked => exact hphase.trans h
  | checked => exact ⟨hphase.trans h.1, hcount.trans h.2⟩
  | computed v => exact ⟨hphase.trans h.1, hcount.trans h.2.1, hlimit ▸ h.2.2.1, h.2.2.2⟩
  | inserted v place =>
    obtain ⟨hrun, hfew, hv, hlt, pre, post, hlog, hplace, hpost, hstart⟩ := h
    exact ⟨hphase.trans hrun, hcount.trans hfew, hlimit ▸ hv, hlt, pre, post, hwal.trans hlog,
      hplace, hpost, fun b hb => hstart b (hsub hb)⟩

theorem BumpOk.place_lt (h : s.BumpOk p (.inserted v place)) : place < s.wal.length := by
  obtain ⟨-, -, -, -, pre, post, hwal, hplace, -⟩ := h
  rw [hwal, hplace, length_append, length_cons]
  omega

theorem Inv.bumpAt (h : Inv p s) (hstage : s.bump = stage) : s.BumpOk p stage := hstage ▸ h.bumpOk

theorem Inv.ckptAt (h : Inv p s) {stage : CheckpointStage} (hstage : s.ckpt = stage) :
    s.CkptOk stage := hstage ▸ h.ckptOk

theorem bound_running (h : s.phase = .running) : s.bound = s.limit := if_pos h

theorem bound_le_limit (s : Coordinator) : s.bound ≤ s.limit := by
  unfold bound limit
  split
  · exact le_rfl
  · exact le_add_right _ _

theorem nextGxid_le_bound (s : Coordinator) : s.nextGxid ≤ s.bound := by
  unfold bound limit
  split
  · exact le_add_right _ _
  · exact le_rfl

/-! ## The log grows -/

theorem base_append (h : place < wal.length) (r : XLogRecord) :
    base (wal ++ [r]) place = base wal place := by
  rw [base, base, getElem?_append_left h]

theorem Inv.bases_insert (h : Inv p s) (r : XLogRecord) : (s.insert r).bases = s.bases := by
  have hcontrol : s.control < s.wal.length := h.control_lt.trans_le h.recoverable.flushed_le
  have hckpt : ckptBases (s.wal ++ [r]) s.ckpt = ckptBases s.wal s.ckpt := by
    cases hstage : s.ckpt with
    | inserted place => exact congrArg toList (base_append (h.ckptAt hstage).1 r)
    | _ => rfl
  show (base (s.wal ++ [r]) s.control).toList ++ ckptBases (s.wal ++ [r]) s.ckpt = _
  rw [base_append hcontrol, hckpt]
  rfl

theorem Limited.insert (h : s.Limited g) (hle : s.flushed ≤ s.wal.length) (r : XLogRecord) :
    (s.insert r).Limited g := by
  obtain ⟨v, hmem, hlt⟩ := h
  refine ⟨v, ?_, hlt⟩
  show _ ∈ (s.wal ++ [r]).take s.flushed
  rw [take_append_of_le_length hle]
  exact hmem

/-- Any record may be inserted that sets the counter to no less than the bound; if a batch is being
logged, it sets nothing. -/
theorem Inv.insert (h : Inv p s) {r : XLogRecord}
    (hset : ∀ v, r.setsNextGxid = some v → s.bound ≤ v ∧ v < LastDistributedTransactionId - p.num)
    (hbump : s.phase = .running → (∃ v place, s.bump = .inserted v place) → r.setsNextGxid = none) :
    Inv p (s.insert r) := by
  have hbases := h.bases_insert r
  have hle := h.recoverable.flushed_le
  have hcontrol : s.control < s.wal.length := h.control_lt.trans_le hle
  refine { h with
    recoverable := ?_, control_base := ?_, set_lt := ?_, base_lt := ?_, bumpOk := ?_, ckptOk := ?_,
    limited := fun g hg => (h.limited g hg).insert hle r, credited := fun hpos =>
      (h.credited hpos).insert hle r }
  · rw [hbases]
    exact h.recoverable.append fun v hv => (hset v hv).1
  · exact (congrArg isSome (base_append hcontrol r)).trans h.control_base
  · exact forall_mem_append.mpr
      ⟨h.set_lt, forall_mem_singleton.mpr fun v hv => (hset v hv).2⟩
  · rw [hbases]
    exact h.base_lt
  · show (s.insert r).BumpOk p s.bump
    cases hstage : s.bump with
    | inserted v place =>
      obtain ⟨hrun, hcount, hv, hlt, pre, post, hwal, hplace, hpost, hstart⟩ := h.bumpAt hstage
      refine ⟨hrun, hcount, hv, hlt, pre, post ++ [r], ?_, hplace,
        forall_mem_append.mpr ⟨hpost, forall_mem_singleton.mpr (hbump hrun ⟨v, place, hstage⟩)⟩,
        by rw [hbases]; exact hstart⟩
      show s.wal ++ [r] = _
      rw [hwal, append_assoc, cons_append]
    | _ => exact h.bumpAt hstage
  · show (s.insert r).CkptOk s.ckpt
    have hlen : (s.insert r).wal.length = s.wal.length + 1 := length_append
    cases hstage : s.ckpt with
    | redo redo => exact (h.ckptAt hstage).trans (by rw [hlen]; exact le_succ _)
    | inserted place =>
      have hok := h.ckptAt hstage
      exact ⟨by rw [hlen]; exact hok.1.trans (lt_succ_self _),
        (congrArg isSome (base_append hok.1 r)).trans hok.2⟩
    | _ => exact h.ckptAt hstage

theorem Limited.flush (h : s.Limited g) (hn : s.flushed ≤ n) :
    { s with flushed := n }.Limited g := by
  obtain ⟨v, hmem, hlt⟩ := h
  exact ⟨v, take_subset_take_left _ hn hmem, hlt⟩

section

variable (h : Inv p s)
include h

theorem Inv.flush (hn : s.flushed ≤ n) (hle : n ≤ s.wal.length) : Inv p { s with flushed := n } :=
  { h with
    recoverable := h.recoverable.flush hn hle
    control_lt := h.control_lt.trans_le hn
    limited := fun g hg => (h.limited g hg).flush hn
    credited := fun hpos => (h.credited hpos).flush hn }

/-! ## Sessions -/

theorem Inv.activate (hrun : s.phase = .running) (hpos : 0 < s.gxidCount) : Inv p { s with
      handedOut := s.nextGxid :: s.handedOut
      nextGxid := (s.nextGxid + 1) % 2 ^ 64
      gxidCount := s.gxidCount - 1 } := by
  have hlt := h.limit_lt
  unfold limit LastDistributedTransactionId at hlt
  have hnext : (s.nextGxid + 1) % 2 ^ 64 = s.nextGxid + 1 := mod_eq_of_lt (by omega)
  rw [hnext]
  have hlimit : s.nextGxid + 1 + (s.gxidCount - 1) = s.limit := by
    unfold limit
    omega
  have hcredited := h.credited hpos
  refine { h with
    recoverable := ?_, one_le := le_add_left _ _, limit_lt := ?_, starting := fun hs =>
      ?_, bumpOk := ?_, ckptOk := ?_,
    handed_lt := forall_mem_cons.mpr
      ⟨lt_succ_self _, fun g hg => (h.handed_lt g hg).trans (lt_succ_self _)⟩
    nodup := ?_, limited := forall_mem_cons.mpr ⟨?_, h.limited⟩, credited := fun _ => ?_ }
  · have hrec := h.recoverable
    rw [bound_running hrun, ← hlimit] at hrec
    show Recoverable _ _ _ _
      (if s.phase = .running then s.nextGxid + 1 + (s.gxidCount - 1) else s.nextGxid + 1)
    rw [if_pos hrun]
    exact hrec
  · exact hlimit.trans_lt h.limit_lt
  · rw [hrun] at hs
    cases hs
  · exact h.bumpOk.of_bases rfl (sub_le _ _) hlimit rfl (Subset.refl _)
  · cases hstage : s.ckpt with
    | read checkPoint =>
      intro hs
      rw [isShutdown, decide_eq_true_eq] at hs
      exact absurd hrun hs
    | _ => exact h.ckptAt hstage
  · exact nodup_cons.mpr ⟨fun hmem => lt_irrefl _ (h.handed_lt _ hmem), h.nodup⟩
  · obtain ⟨v, hmem, hv⟩ := hcredited
    refine ⟨v, hmem, lt_of_le_of_lt ?_ hv⟩
    omega
  · show Limited _ (s.nextGxid + 1 + (s.gxidCount - 1) - 1)
    rw [hlimit]
    exact hcredited

theorem Inv.setBump (hok : s.BumpOk p stage) : Inv p { s with bump := stage } := by
  refine { h with bumpOk := ?_ }
  cases stage <;> exact hok

theorem Inv.computed (hstage : s.bump = .checked)
    (hlt : ¬(LastDistributedTransactionId - p.num ≤
    (s.nextGxid + (s.gxidCount + p.num) % 2 ^ 32) % 2 ^ 64)) :
    s.BumpOk p (.computed ((s.nextGxid + (s.gxidCount + p.num) % 2 ^ 32) % 2 ^ 64)) := by
  obtain ⟨hrun, hcount⟩ := h.bumpAt hstage
  have hmax := p.num_max
  have hthreshold := p.threshold_le
  have hlimit := h.limit_lt
  unfold limit LastDistributedTransactionId at hlimit
  have hsum : (s.nextGxid + (s.gxidCount + p.num) % 2 ^ 32) % 2 ^ 64 = s.limit + p.num := by
    rw [mod_eq_of_lt (by omega : s.gxidCount + p.num < 2 ^ 32), ← add_assoc]
    exact mod_eq_of_lt (by omega)
  rw [hsum] at hlt ⊢
  exact ⟨hrun, hcount, rfl, Nat.lt_of_not_le hlt⟩

theorem Inv.bumpInsert (hstage : s.bump = .computed v) :
    Inv p { s.insert (.nextGxid v) with bump := .inserted v s.wal.length } := by
  obtain ⟨hrun, hcount, hv, hlt⟩ := h.bumpAt hstage
  have hbound : s.bound ≤ v := by
    rw [hv]
    exact (bound_le_limit s).trans (le_add_right _ _)
  have hins : Inv p (s.insert (.nextGxid v)) := by
    refine h.insert (fun w hw => ?_) fun _ ⟨w, place, hw⟩ => ?_
    · cases hw
      exact ⟨hbound, hlt⟩
    · rw [hstage] at hw
      cases hw
  refine hins.setBump ⟨hrun, hcount, hv, hlt, s.wal, [], rfl, rfl, nofun, ?_⟩
  rw [h.bases_insert]
  exact h.recoverable.start_le

theorem Inv.bumpCredit (hstage : s.bump = .inserted v place) (hflushed : place < s.flushed) :
    Inv p { s with gxidCount := (s.gxidCount + p.num) % 2 ^ 32, bump := .none } := by
  obtain ⟨hrun, hcount, hv, hlt, pre, post, hwal, hplace, hpost, hstart⟩ := h.bumpAt hstage
  have hmax := p.num_max
  have hthreshold := p.threshold_le
  have hmod : (s.gxidCount + p.num) % 2 ^ 32 = s.gxidCount + p.num := mod_eq_of_lt (by omega)
  rw [hmod]
  have hlimit : s.nextGxid + (s.gxidCount + p.num) = v := by rw [hv, limit, add_assoc]
  refine { h with
    recoverable := ?_, limit_lt := ?_, starting := fun hs => ?_, bumpOk := trivial, ckptOk :=
      ?_, credited := fun _ => ?_ }
  · have hraise := h.recoverable.raise hwal (hplace ▸ hflushed) rfl hpost fun b hb =>
      (hstart b hb).trans_eq hplace
    rw [← hlimit] at hraise
    show Recoverable _ _ _ _
      (if s.phase = .running then s.nextGxid + (s.gxidCount + p.num) else s.nextGxid)
    rw [if_pos hrun]
    exact hraise
  · exact hlimit.trans_lt hlt
  · rw [hrun] at hs
    cases hs
  · cases hstage : s.ckpt <;> exact h.ckptAt hstage
  · show Limited _ (s.nextGxid + (s.gxidCount + p.num) - 1)
    have hmin := p.num_min
    refine ⟨v, ?_, by omega⟩
    obtain ⟨k, hk⟩ : ∃ k, s.flushed - pre.length = k + 1 := exists_eq_succ_of_ne_zero (by omega)
    rw [hwal, take_append, hk, take_succ_cons]
    exact mem_append_right _ mem_cons_self

/-! ## Checkpoints -/

theorem Inv.noted_eq :
    (if s.isShutdown then s.nextGxid else (s.nextGxid + s.gxidCount) % 2 ^ 64) = s.bound := by
  have hlt := h.limit_lt
  unfold limit LastDistributedTransactionId at hlt
  unfold isShutdown bound limit
  by_cases hrun : s.phase = .running
  · rw [if_pos hrun, if_neg (by rw [decide_eq_true_eq]; exact not_not_intro hrun)]
    exact mod_eq_of_lt (by omega)
  · rw [if_neg hrun, if_pos (decide_eq_true hrun)]

theorem Inv.ckptRead {redo : Nat} (hstage : s.ckpt = .redo redo) (hbump : s.bump = .none) :
    Inv p { s with ckpt := .read ⟨redo, s.bound⟩ } := by
  have hbases : s.bases = (base s.wal s.control).toList := by
    rw [bases, hstage]
    exact append_nil _
  have hsub : (base s.wal s.control).toList ++ [(redo, s.bound)] ⊆ (redo, s.bound) :: s.bases := by
    rw [hbases]
    exact (perm_append_singleton _ _).subset
  have hold := h.base_lt
  rw [hbases] at hold
  refine { h with
    recoverable := (h.recoverable.addBase (h.ckptAt hstage)).subset hsub
    base_lt := forall_mem_append.mpr
      ⟨hold, forall_mem_singleton.mpr ((bound_le_limit s).trans_lt h.limit_lt)⟩
    bumpOk := ?_, ckptOk := fun hs => ?_ }
  · rw [hbump]
    exact trivial
  · exact if_neg (of_decide_eq_true hs)

/-- The record of a checkpoint; its base starts at the redo point, or behind the record itself. -/
theorem Inv.ckptInsert {checkPoint : CheckPoint} (hstage : s.ckpt = .read checkPoint) :
    Inv p { s.insert (.checkpoint s.isShutdown checkPoint) with
      ckpt := .inserted s.wal.length } := by
  have hok := h.ckptAt hstage
  have hsets : setsNextGxid (.checkpoint s.isShutdown checkPoint) = none ∨
      setsNextGxid (.checkpoint s.isShutdown checkPoint) = some checkPoint.nextGxid := by
    cases s.isShutdown
    · exact .inl rfl
    · exact .inr rfl
  have hrunning : s.phase = .running →
      setsNextGxid (.checkpoint s.isShutdown checkPoint) = none := by
    intro hrun
    rw [isShutdown, decide_eq_false (not_not_intro hrun)]
    rfl
  have hmem : (checkPoint.redo, checkPoint.nextGxid) ∈ s.bases := by
    rw [bases, hstage]
    exact mem_append_right _ mem_cons_self
  have hins : Inv p (s.insert (.checkpoint s.isShutdown checkPoint)) := by
    refine h.insert (fun v hv => ?_) fun hrun _ => hrunning hrun
    cases hs : s.isShutdown with
    | false =>
      rw [hs] at hv
      cases hv
    | true =>
      rw [hs] at hv
      cases hv
      have hbound : s.bound = s.nextGxid := if_neg (of_decide_eq_true hs)
      exact ⟨hbound.trans_le (hok hs).ge, h.base_lt _ hmem⟩
  have hcontrol : s.control < s.wal.length := h.control_lt.trans_le h.recoverable.flushed_le
  have hget : (s.wal ++ [.checkpoint s.isShutdown checkPoint])[s.wal.length]? =
      some (.checkpoint s.isShutdown checkPoint) :=
    getElem?_concat_length
  have hbase : base (s.wal ++ [.checkpoint s.isShutdown checkPoint]) s.wal.length =
      some (if checkPoint.redo < s.wal.length then checkPoint.redo else s.wal.length + 1,
      checkPoint.nextGxid) := by
    rw [base, hget]
  have holdBases : s.bases = (base s.wal s.control).toList ++
      [(checkPoint.redo, checkPoint.nextGxid)] := by
    rw [bases, hstage]
    rfl
  have hbases : bases { s.insert (.checkpoint s.isShutdown checkPoint) with
    ckpt := .inserted s.wal.length } = (base s.wal s.control).toList ++
        [(if checkPoint.redo < s.wal.length then checkPoint.redo else s.wal.length + 1,
        checkPoint.nextGxid)] := by
    show (base (s.wal ++ [_]) s.control).toList ++ (base (s.wal ++ [_]) s.wal.length).toList = _
    rw [base_append hcontrol, hbase]
    rfl
  have hrec := hins.recoverable
  rw [h.bases_insert, holdBases] at hrec
  refine { hins with recoverable := ?_, base_lt := ?_, bumpOk := ?_, ckptOk := ?_ }
  · rw [hbases]
    by_cases hlt : checkPoint.redo < s.wal.length
    · rw [if_pos hlt]
      exact hrec
    rw [if_neg hlt]
    have heq : checkPoint.redo = s.wal.length :=
      Nat.le_antisymm (h.recoverable.start_le _ hmem) (Nat.le_of_not_lt hlt)
    rw [heq] at hrec
    have hswap := hrec.subset (perm_append_singleton _ _).symm.subset
    exact (hswap.advanceBase hget hsets).subset (perm_append_singleton _ _).subset
  · have hold := h.base_lt
    rw [holdBases] at hold
    rw [hbases]
    exact forall_mem_append.mpr
      ⟨(forall_mem_append.mp hold).1, forall_mem_singleton.mpr (h.base_lt _ hmem :)⟩
  · show BumpOk p _ s.bump
    cases hb : s.bump with
    | inserted v place =>
      obtain ⟨hrun, hcount, hv, hlt, pre, post, hwal, hplace, hpost, -⟩ := hins.bumpAt hb
      obtain ⟨-, -, -, -, -, -, -, -, -, hstart⟩ := h.bumpAt hb
      refine ⟨hrun, hcount, hv, hlt, pre, post, hwal, hplace, hpost, ?_⟩
      rw [hbases, if_pos ((hstart _ hmem).trans_lt (h.bumpAt hb).place_lt), ← holdBases]
      exact hstart
    | _ => exact hins.bumpAt hb
  · refine ⟨?_, ?_⟩
    · show s.wal.length < (s.wal ++ [_]).length
      rw [length_append]
      exact lt_succ_self _
    · exact (congrArg isSome hbase).trans rfl

theorem Inv.setCkpt {stage : CheckpointStage}
    (hsub : ckptBases s.wal stage ⊆ ckptBases s.wal s.ckpt)
    (hok : s.CkptOk stage) : Inv p { s with ckpt := stage } := by
  have hbases : (base s.wal s.control).toList ++ ckptBases s.wal stage ⊆ s.bases :=
    append_subset.mpr ⟨subset_append_left _ _, fun b hb => mem_append_right _ (hsub hb)⟩
  refine { h with
    recoverable := h.recoverable.subset hbases, base_lt := fun b hb => h.base_lt b (hbases hb),
      bumpOk := ?_, ckptOk := ?_ }
  · exact h.bumpOk.of_bases rfl le_rfl rfl rfl hbases
  · cases stage <;> exact hok

theorem Inv.ckptControl (hstage : s.ckpt = .inserted place) (hflushed : place < s.flushed) :
    Inv p { s with control := place, ckpt := .none } := by
  have hok := h.ckptAt hstage
  have hsub : (base s.wal place).toList ++ [] ⊆ s.bases := by
    rw [append_nil, bases, hstage]
    exact subset_append_right _ _
  exact { h with
    recoverable := h.recoverable.subset hsub, control_lt := hflushed, control_base := hok.2,
    base_lt := fun b hb => h.base_lt b (hsub hb), bumpOk :=
      h.bumpOk.of_bases rfl le_rfl rfl rfl hsub, ckptOk := trivial }

end

/-! ## Crashes -/

theorem base_start_le {b : Nat × Nat} (h : base wal place = some b) : b.1 ≤ place + 1 := by
  unfold base at h
  split at h <;> cases h
  · split
    · omega
    · exact le_rfl

/-- **Recovery always succeeds**, and never falls below what was handed out. -/
theorem Inv.crash (h : Inv p s) (hn : s.flushed ≤ n) (hle : n ≤ s.wal.length) :
    ∃ nextGxid, startup (s.wal.take n) s.control = some nextGxid ∧
      Inv p { nextGxid := nextGxid, gxidCount := 0, bump := .none, ckpt := .none,
              phase := .starting, wal := s.wal.take n, flushed := n, control := s.control,
              handedOut := s.handedOut } := by
  obtain ⟨b, hb⟩ := isSome_iff_exists.mp h.control_base
  have hcontrol : s.control < n := h.control_lt.trans_le hn
  have hbase : base (s.wal.take n) s.control = some b := by
    rw [← hb, base, base, getElem?_take_of_lt hcontrol]
  have hmem : b ∈ s.bases := by
    rw [bases, hb]
    exact mem_append_left _ mem_cons_self
  have hlen : (s.wal.take n).length = n := length_take_of_le hle
  have hrec := h.recoverable.crash hmem hn hle ((base_start_le hb).trans hcontrol)
  have hbound := h.recoverable.bound_le_replay hmem hn
  refine ⟨replay setsNextGxid b.2 ((s.wal.take n).drop b.1), by rw [startup, hbase]; rfl, ?_⟩
  have hbases : (base (s.wal.take n) s.control).toList ++ [] = [b] := by
    rw [hbase]
    rfl
  have hlt : replay setsNextGxid b.2 ((s.wal.take n).drop b.1) <
      LastDistributedTransactionId - p.num :=
    replay_lt (h.base_lt b hmem) fun r hr => h.set_lt r (mem_of_mem_take (mem_of_mem_drop hr))
  refine
    { recoverable := ?_, control_lt := hcontrol, control_base := by rw [hbase]; rfl,
      one_le := (h.one_le.trans (nextGxid_le_bound s)).trans hbound, limit_lt := hlt,
      set_lt := fun r hr => h.set_lt r (mem_of_mem_take hr), base_lt := fun b' hb' =>
      ?_, starting := fun _ => rfl, bumpOk := trivial, ckptOk := trivial, handed_lt := fun g hg =>
        ?_, nodup := h.nodup, limited := fun g hg => ?_,
      credited := fun hpos => absurd hpos (lt_irrefl 0) }
  · show Recoverable _ _ _ ((base (s.wal.take n) s.control).toList ++ []) _
    rw [hbases]
    exact hrec
  · change b' ∈ (base (s.wal.take n) s.control).toList ++ [] at hb'
    rw [hbases] at hb'
    rw [mem_singleton.mp hb']
    exact h.base_lt b hmem
  · exact ((h.handed_lt g hg).trans_le (nextGxid_le_bound s)).trans_le hbound
  · obtain ⟨v, hv, hg'⟩ := h.limited g hg
    refine ⟨v, ?_, hg'⟩
    rw [take_of_length_le hlen.le]
    exact take_subset_take_left _ hn hv

/-! ## All events -/

theorem Inv.openSessions (h : Inv p s) (hstart : s.phase = .starting) (hckpt : s.ckpt = .none) :
    Inv p { s with phase := .running } := by
  have hcount := h.starting hstart
  have hbump : s.bump = .none := by
    cases hb : s.bump with
    | none => rfl
    | locked => exact absurd (hstart.symm.trans (h.bumpAt hb)) (by decide)
    | _ => exact absurd (hstart.symm.trans (h.bumpAt hb).1) (by decide)
  refine { h with recoverable := ?_, starting := nofun, bumpOk := ?_, ckptOk := ?_ }
  · have hrec := h.recoverable
    rw [show s.bound = s.nextGxid from if_neg (by rw [hstart]; decide)] at hrec
    rw [hcount]
    exact hrec
  · rw [hbump]
    exact trivial
  · rw [hckpt]
    exact trivial

theorem Inv.shutdown (h : Inv p s) (hrun : s.phase = .running) (hbump : s.bump = .none)
    (hckpt : s.ckpt = .none) : Inv p { s with phase := .stopping } := by
  refine { h with recoverable := ?_, starting := nofun, bumpOk := ?_, ckptOk := ?_ }
  · refine h.recoverable.lower ?_
    rw [bound_running hrun]
    exact le_add_right _ _
  · rw [hbump]
    exact trivial
  · rw [hckpt]
    exact trivial

theorem one_lt_last (p : GxidPrefetch) : 1 < LastDistributedTransactionId - p.num := by
  have := p.num_max
  show 1 < 0xffffFFFFffffFFFF - p.num
  omega

theorem Inv.bootstrap (p : GxidPrefetch) : Inv p bootstrap where
  recoverable := by
    have hbases : Coordinator.bootstrap.bases = [(1, 1)] := rfl
    have hbound : Coordinator.bootstrap.bound = 1 := rfl
    have hlast : ∀ {n v}, 1 ≤ n → lastSet setsNextGxid (Coordinator.bootstrap.wal.take n) = some v →
        1 ≤ v := by
      intro n v hn hv
      rw [show Coordinator.bootstrap.wal.take n =
        Coordinator.bootstrap.wal from take_of_length_le hn] at hv
      exact le_of_eq (some.inj hv)
    refine ⟨le_rfl, fun b hb => ?_, fun n hn v hv => hlast hn hv, fun b hb n hn _ => ?_⟩
    · rw [mem_singleton.mp hb]
      exact le_rfl
    · rw [mem_singleton.mp hb]
      exact ⟨le_rfl, fun v hv => hlast hn hv⟩
  control_lt := one_pos
  control_base := rfl
  one_le := le_rfl
  limit_lt := one_lt_last p
  set_lt := fun r hr v hv => by
    rw [mem_singleton.mp hr] at hv
    cases hv
    exact one_lt_last p
  base_lt := fun b hb => by
    rw [mem_singleton.mp hb]
    exact one_lt_last p
  starting := fun _ => rfl
  bumpOk := trivial
  ckptOk := trivial
  handed_lt := nofun
  nodup := nodup_nil
  limited := nofun
  credited := fun hpos => absurd hpos (lt_irrefl 0)

theorem Inv.step (h : Inv p s) {e : GxidEvent} (hstep : s.step p e = some s') : Inv p s' := by
  have hle := h.recoverable.flushed_le
  cases e <;> simp only [Coordinator.step] at hstep
  case activate =>
    split at hstep
    next hrun =>
      split at hstep
      next hpos =>
        cases hstep
        exact h.activate hrun hpos
      · cases hstep
        exact h
    · cases hstep
  case bumpLock =>
    split at hstep <;> cases hstep
    next hc => exact h.setBump hc.1
  case bumpCheck =>
    split at hstep
    next hc =>
      split at hstep
      · cases hstep
        exact h.setBump trivial
      next hfew =>
        cases hstep
        exact h.setBump ⟨h.bumpAt hc, Nat.le_of_not_lt hfew⟩
    · cases hstep
  case bumpCompute =>
    split at hstep
    next hc =>
      split at hstep <;> cases hstep
      next hlt => exact h.setBump (h.computed hc hlt)
    · cases hstep
  case bumpInsert =>
    split at hstep <;> cases hstep
    next v hc => exact h.bumpInsert hc
  case bumpFlush =>
    split at hstep <;> cases hstep
    next v place hc => exact h.flush (le_max_left _ _) (max_le hle (h.bumpAt hc).place_lt)
  case bumpCredit =>
    split at hstep
    next v place hc =>
      split at hstep <;> cases hstep
      next hlt => exact h.bumpCredit hc hlt
    · cases hstep
  case bumpAbort =>
    cases hstep
    exact h.setBump trivial
  case ckptRedo =>
    split at hstep <;> cases hstep
    next hc => exact h.setCkpt (nil_subset _) le_rfl
  case ckptRead =>
    split at hstep
    next redo hc =>
      split at hstep
      next hb =>
        rw [h.noted_eq] at hstep
        cases hstep
        exact h.ckptRead hc hb
      · cases hstep
    · cases hstep
  case ckptInsert =>
    split at hstep <;> cases hstep
    next checkPoint hc => exact h.ckptInsert hc
  case ckptFlush =>
    split at hstep <;> cases hstep
    next place hc => exact h.flush (le_max_left _ _) (max_le hle (h.ckptAt hc).1)
  case ckptControl =>
    split at hstep
    next place hc =>
      split at hstep <;> cases hstep
      next hlt => exact h.ckptControl hc hlt
    · cases hstep
  case insertOther =>
    cases hstep
    exact h.insert (fun v hv => (nomatch hv)) fun _ _ => rfl
  case flushTo n =>
    split at hstep <;> cases hstep
    next hc => exact h.flush hc.1 hc.2
  case openSessions =>
    split at hstep <;> cases hstep
    next hc => exact h.openSessions hc.1 hc.2
  case shutdown =>
    split at hstep <;> cases hstep
    next hc => exact h.shutdown hc.1 hc.2.1 hc.2.2
  case crash n =>
    split at hstep
    next hc =>
      obtain ⟨nextGxid, hstartup, hinv⟩ := h.crash hc.1 hc.2
      rw [hstartup] at hstep
      cases hstep
      exact hinv
    · cases hstep

end Coordinator

/-- **Gxids are never reused**: over all interleavings of sessions, checkpoints and crashes, no gxid
is handed out twice, and each one is below a limit that is flushed. -/
theorem gxid_unique (p : GxidPrefetch) (events : List GxidEvent) (s : Coordinator)
    (hrun : runSteps (step p) events .bootstrap = some s) :
    s.handedOut.Nodup ∧ (∀ g ∈ s.handedOut, ∃ limit, .nextGxid limit ∈ s.wal.take s.flushed ∧
      g < limit) ∧ ∀ n, s.flushed ≤ n → n ≤ s.wal.length → ∃ s', s.step p (.crash n) = some s' := by
  have h : Inv p s := runSteps_invariant (fun h hstep => h.step hstep) events (.bootstrap p) hrun
  refine ⟨h.nodup, h.limited, fun n hn hle => ?_⟩
  obtain ⟨nextGxid, hstartup, -⟩ := h.crash hn hle
  unfold step
  dsimp only
  rw [if_pos ⟨hn, hle⟩, hstartup]
  exact ⟨_, rfl⟩

/-- A batch is credited, two gxids are taken, and a checkpoint is made; the coordinator crashes and
hands out gxids again. -/
theorem gxid_unique_run :
    let p : GxidPrefetch := ⟨512, by decide, by decide⟩
    let batch : List GxidEvent :=
      [.bumpLock, .bumpCheck, .bumpCompute, .bumpInsert, .bumpFlush, .bumpCredit]
    let checkpoint : List GxidEvent := [.ckptRedo, .ckptRead, .ckptInsert, .ckptFlush, .ckptControl]
    let events : List GxidEvent :=
      [.openSessions] ++ batch ++ [.activate, .activate] ++ checkpoint ++
      [.crash 3, .openSessions] ++ batch ++ [.activate]
    ∃ s, runSteps (step p) events .bootstrap = some s ∧ s.handedOut = [513, 2, 1] ∧
      s.handedOut.Nodup := by
  intro p batch checkpoint events
  have hrun : (runSteps (step p) events .bootstrap).map handedOut = some [513, 2, 1] := by
    decide +kernel
  obtain ⟨s, hs, hhanded⟩ := map_eq_some_iff.mp hrun
  exact ⟨s, hs, hhanded, (gxid_unique p events s hs).1⟩

end PolemoDB.Cdb.Gxid
