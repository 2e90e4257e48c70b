import Mathlib.Data.Rat.Floor
import PolemoDB.Lib.KeyedSum
import PolemoDB.Lib.Transition

/-!
# Resource queues (`utils/resscheduler/resqueue.c`, `resscheduler.c`, `storage/lmgr/proc.c`)

A session locks a portal on a resource queue (`ResLockAcquire`): the portal's increments are added
to the counters of the queue's limits at once, or the session waits. A session that releases a
portal, or is taken off the wait queue, grants the lock to those waiters that now fit. An event is
what happens under the partition lock of the queue's lock; costs are exact numbers.

A portal is granted if its increments are in the table and its process does not wait for it. `Inv`
says that the counts of the lock and of its holders agree with that, and is kept by every event.
-/

namespace PolemoDB.Resscheduler

open PolemoDB.Lib List Prod

/-! ## The queue -/

inductive ResLimitType where
  | RES_COUNT_LIMIT
  | RES_COST_LIMIT
  | RES_MEMORY_LIMIT
deriving DecidableEq

open ResLimitType

/-- `increments` of `ResPortalIncrement`. -/
abbrev Increments := ResLimitType → ℚ

/-- `ResQueueData`. A threshold of `INVALID_RES_LIMIT_THRESHOLD` is `none`. -/
structure ResQueue where
  threshold_value : ResLimitType → Option ℚ
  current_value : ResLimitType → ℚ
  overcommit : Bool
  ignorecostlimit : ℚ

inductive Status where
  | STATUS_OK
  | STATUS_FOUND
  | STATUS_ERROR
deriving DecidableEq

section

variable (queue : ResQueue)

/-- The value is above a threshold that is set. -/
def overThreshold (i : ResLimitType) (x : ℚ) : Bool :=
  match queue.threshold_value i with
  | none => false
  | some threshold => decide (x > threshold)

/-- The flag `over_limit` of `ResLockCheckLimit`. An overcommitted cost is allowed if no one else is
active. -/
def overLimit (inc : Increments) : Bool :=
  let exceeds := fun i => overThreshold queue i (queue.current_value i + inc i)
  exceeds RES_COUNT_LIMIT
    || (exceeds RES_COST_LIMIT &&
      (!queue.overcommit || decide (queue.current_value RES_COST_LIMIT > 1 / 10)))
    || exceeds RES_MEMORY_LIMIT

/-- `ResLockCheckLimit` for an increment. -/
def resLockCheckLimit (inc : Increments) : Status :=
  let will_overcommit := overThreshold queue RES_COST_LIMIT (inc RES_COST_LIMIT)
  if will_overcommit && !queue.overcommit then .STATUS_ERROR
  else if overLimit queue inc then .STATUS_FOUND
  else .STATUS_OK

def resLockUpdateLimit (inc : Increments) (increment : Bool) : ResQueue :=
  { queue with
    current_value := fun i =>
      let increment_amt := if increment then inc i else -1 * inc i
      max (⌈queue.current_value i + increment_amt⌉ : ℚ) 0 }

end

/-! ## The lock, its holders and waiters -/

structure ResPortalTag where
  pid : ℕ
  portalId : ℕ
deriving DecidableEq

/-- The queue with its `LOCK`: the increments of its portals in `ResPortalIncrementHash`, the counts
of requests and grants, `nLocks` of each process's `PROCLOCK` (the lock is in its `holdMask` if
there are any), and the waiting processes with their `waitPortalId`. -/
structure State where
  queue : ResQueue
  increments : List (ResPortalTag × Increments)
  nRequested : ℕ
  nGranted : ℕ
  nLocks : ℕ → ℕ
  waitProcs : List ResPortalTag

def resGrantLock (s : State) (pid : ℕ) : State := { s with
    nGranted := s.nGranted + 1
    nLocks := fun p => if p = pid then s.nLocks p + 1 else s.nLocks p }

def resUnGrantLock (s : State) (pid : ℕ) : State := { s with
    nRequested := s.nRequested - 1
    nGranted := s.nGranted - 1
    nLocks := fun p => if p = pid then s.nLocks p - 1 else s.nLocks p }

/-- The lock is granted for a portal and its increments are added to the limits. -/
def grantPortal (s : State) (tag : ResPortalTag) (inc : Increments) : State :=
  let s := resGrantLock s tag.pid
  { s with queue := resLockUpdateLimit s.queue inc true }

/-- `ResIncrementAdd` for a portal that has no increments yet. -/
def resIncrementAdd (s : State) (tag : ResPortalTag) (inc : Increments) : State :=
  { s with increments := (tag, inc) :: s.increments }

def resIncrementRemove (s : State) (tag : ResPortalTag) : State :=
  { s with increments := without s.increments tag }

def resIncrementFind (s : State) (tag : ResPortalTag) : Option Increments :=
  valueOf s.increments tag

/-- `ResProcWakeup`, as far as the wait queue is concerned. -/
def resProcWakeup (s : State) (tag : ResPortalTag) : State :=
  { s with waitProcs := s.waitProcs.erase tag }

/-- The loop of `ResProcLockRemoveSelfAndWakeup` over the wait queue it found; `none` is the error
that there are no increments for a waiter. -/
def wakeupLoop (myPid : ℕ) : List ResPortalTag → State → Option State
  | [], s => some s
  | proc :: procs, s =>
    if proc.pid = myPid then wakeupLoop myPid procs (resProcWakeup s proc)
    else
      match resIncrementFind s proc with
      | none => none
      | some inc =>
        match resLockCheckLimit s.queue inc with
        | .STATUS_OK => wakeupLoop myPid procs (resProcWakeup (grantPortal s proc inc) proc)
        | _ => wakeupLoop myPid procs s

def resProcLockRemoveSelfAndWakeup (myPid : ℕ) (s : State) : Option State :=
  wakeupLoop myPid s.waitProcs s

variable (s : State)

/-- The tests of `ResCheckSelfDeadLock`, on the totals of `TotalResPortalIncrements`. -/
def resCheckSelfDeadLock (pid : ℕ) : Bool :=
  let mine := s.increments.filter fun e => e.1.pid = pid
  let incrementTotals := fun i => (mine.map fun e => e.2 i).sum
  let overcommitted := fun i => overThreshold s.queue i (incrementTotals i)
  if s.queue.overcommit && mine.length = 1 && !overcommitted RES_COUNT_LIMIT then false
  else overcommitted RES_COUNT_LIMIT || overcommitted RES_COST_LIMIT || overcommitted
  RES_MEMORY_LIMIT

/-- `ResLockAcquire`, until the process sleeps, returns or throws an error. -/
def resLockAcquire (tag : ResPortalTag) (inc : Increments) : State :=
  let s := { s with nRequested := s.nRequested + 1 }
  let giveUp := fun s : State => { s with nRequested := s.nRequested - 1 }
  -- too small to be tracked: `LOCKACQUIRE_NOT_AVAIL`
  if inc RES_COST_LIMIT < s.queue.ignorecostlimit then giveUp s
  -- `RES_INCREMENT_ADD_DUPLICATE_PORTAL`
  else if (resIncrementFind s tag).isSome then giveUp (resIncrementRemove s tag)
  else
    let s := resIncrementAdd s tag inc
    match resLockCheckLimit s.queue inc with
    | .STATUS_ERROR => giveUp (resIncrementRemove s tag)
    | .STATUS_OK => grantPortal s tag inc
    | .STATUS_FOUND =>
      -- the lock is granted so that the handler of the error releases it
      if resCheckSelfDeadLock s tag.pid then
        if s.nRequested > s.nGranted then grantPortal s tag inc else s
      else { s with waitProcs := s.waitProcs ++ [tag] }

/-- `ResLockWaitCancel` with `ResRemoveFromWaitQueue`. -/
def resLockWaitCancel (pid : ℕ) : Option State :=
  match s.waitProcs.find? fun w => w.pid = pid with
  | none => some s
  | some tag =>
    let s := { s with waitProcs := s.waitProcs.erase tag, nRequested := s.nRequested - 1 }
    resProcLockRemoveSelfAndWakeup pid (resIncrementRemove s tag)

def resLockRelease (tag : ResPortalTag) : Option State :=
  if s.nLocks tag.pid = 0 then some s
  else
    match resIncrementFind s tag with
    | none => resProcLockRemoveSelfAndWakeup tag.pid s
    | some inc =>
      let s := resUnGrantLock s tag.pid
      let s := { s with queue := resLockUpdateLimit s.queue inc false }
      (resProcLockRemoveSelfAndWakeup tag.pid s).map fun s => resIncrementRemove s tag

def resAlterQueue (queue : ResQueue) (limits : ResLimitType → Option ℚ) (overcommit : Bool)
    (ignorelimit : ℚ) : ResQueue :=
  if (limits RES_COST_LIMIT).isSome && !overcommit && queue.overcommit
      && decide (queue.current_value RES_COST_LIMIT > 1 / 10) then queue
  else { queue with
    threshold_value := limits, overcommit := overcommit, ignorecostlimit := ignorelimit }

/-! ## Events -/

inductive Event where
  /-- A session locks a portal. -/
  | lock (tag : ResPortalTag) (inc : Increments)
  /-- The wait of a session ends with an error: a cancel, a timeout, a deadlock. -/
  | waitCancel (pid : ℕ)
  /-- A session releases a portal, also after an error. -/
  | release (tag : ResPortalTag)
  | alter (limits : ResLimitType → Option ℚ) (overcommit : Bool) (ignorelimit : ℚ)

/-- The process sleeps on the wait queue. -/
def waits (pid : ℕ) : Bool := s.waitProcs.any fun w => w.pid = pid

/-- A process that sleeps neither locks nor releases, and a portal that is locked, or waited for, is
not locked once more: `ResCreatePortalId` gives out ids that are not in the table. -/
def enabled : Event → Bool
  | .lock tag _ => !waits s tag.pid && (resIncrementFind s tag).isNone
  | .release tag => !waits s tag.pid
  | .waitCancel _ => true
  | .alter _ _ _ => true

/-- What an event does; `none` is an error in the wake-up loop. -/
def execute : Event → Option State
  | .lock tag inc => some (resLockAcquire s tag inc)
  | .waitCancel pid => resLockWaitCancel s pid
  | .release tag => resLockRelease s tag
  | .alter limits overcommit ignorelimit =>
    some { s with queue := resAlterQueue s.queue limits overcommit ignorelimit }

def step (ev : Event) : Option State := if enabled s ev then execute s ev else none

/-- `ResCreateQueue`: a new queue, whose lock nobody has asked for. -/
def newQueue (limits : ResLimitType → Option ℚ) (overcommit : Bool) (ignorelimit : ℚ) : State :=
  { queue := ⟨limits, fun _ => 0, overcommit, ignorelimit⟩
    increments := []
    nRequested := 0
    nGranted := 0
    nLocks := fun _ => 0
    waitProcs := [] }

/-! ## The portals that are granted -/

/-- The portal is not waited for. -/
def held (tag : ResPortalTag) : Bool := decide (tag ∉ s.waitProcs)

def granted : List (ResPortalTag × Increments) := s.increments.filter fun e => held s e.1

/-- The sum of a weight over the granted portals. -/
def total {M : Type} [AddCommMonoid M] (s : State) (f : ResPortalTag × Increments → M) : M :=
  heldSum (held s) f s.increments

theorem total_one : (total s fun _ => 1) = (granted s).length := by
  simp [total, heldSum, granted]

/-- The counts of the lock agree with the table and the wait queue, in which a process stands once.
-/
structure Inv : Prop where
  keys : (s.increments.map fst).Nodup
  waiting : ∀ w ∈ s.waitProcs, w ∈ s.increments.map fst
  pids : (s.waitProcs.map ResPortalTag.pid).Nodup
  nRequested : s.nRequested = s.increments.length
  nGranted : s.nGranted = total s fun _ => 1
  nLocks : ∀ p, s.nLocks p = total s fun e => if e.1.pid = p then 1 else 0

theorem inv_newQueue (limits : ResLimitType → Option ℚ) (overcommit : Bool) (ignorelimit : ℚ) :
    Inv (newQueue limits overcommit ignorelimit) := by
  constructor <;> simp [newQueue, total, heldSum]

variable {s s' : State} {t w : ResPortalTag} {inc : Increments} {P : State → Prop}
  {ok : Increments → Prop} {ev : Event}

theorem Inv.held_of_fresh (h : Inv s) (ht : t ∉ s.increments.map fst) :
    held s t = true := decide_eq_true fun hw => ht (h.waiting t hw)

theorem Inv.waitProcs_nodup (h : Inv s) : s.waitProcs.Nodup := h.pids.of_map _

/-! ## What happens to one portal -/

def grantNew (s : State) (t : ResPortalTag) (inc : Increments) : State :=
  grantPortal (resIncrementAdd { s with nRequested := s.nRequested + 1 } t inc) t inc

/-- A portal is locked and its process waits. -/
def waitNew (s : State) (t : ResPortalTag) (inc : Increments) : State :=
  { resIncrementAdd { s with nRequested := s.nRequested + 1 } t inc with waitProcs := s.waitProcs ++
  [t] }

/-- A waiter is granted the lock. -/
def wake (s : State) (w : ResPortalTag) (inc : Increments) : State :=
  resProcWakeup (grantPortal s w inc) w

/-- A waiter gives up. -/
def dropWaiting (s : State) (w : ResPortalTag) : State :=
  resIncrementRemove { s with waitProcs := s.waitProcs.erase w, nRequested := s.nRequested - 1 } w

/-- The lock of a portal is taken back and its increments are subtracted, before they leave the
table. -/
def ungrant (s : State) (t : ResPortalTag) (inc : Increments) : State :=
  let s := resUnGrantLock s t.pid
  { s with queue := resLockUpdateLimit s.queue inc false }

section Totals

variable {M : Type} [AddCommMonoid M]

variable {s : State} {t w : ResPortalTag}

theorem total_grantNew (h : Inv s) (ht : t ∉ s.increments.map fst)
    (inc : Increments) (f : ResPortalTag × Increments → M) :
    total (grantNew s t inc) f = total s f + f (t, inc) := by
  show heldSum (held s) f ((t, inc) :: s.increments) = _
  rw [heldSum_cons, if_pos (h.held_of_fresh ht), add_comm]
  rfl

theorem total_waitNew (ht : t ∉ s.increments.map fst)
    (inc : Increments) (f : ResPortalTag × Increments → M) :
    total (waitNew s t inc) f = total s f := by
  show heldSum (held (waitNew s t inc)) f ((t, inc) :: s.increments) =
    heldSum (held s) f s.increments
  have hnot : held (waitNew s t inc) t = false := by simp [held, waitNew]
  rw [heldSum_cons, if_neg (by rw [hnot]; simp)]
  refine heldSum_congr (fun e he => ?_) f
  have hne : e.1 ≠ t := fun h => ht (h ▸ mem_map_of_mem he)
  simp [held, waitNew, hne]

theorem held_wake (h : Inv s) (inc : Increments) :
    held (wake s w inc) w = true ∧ ∀ t, t ≠ w → held (wake s w inc) t = held s t := by
  constructor
  · exact decide_eq_true h.waitProcs_nodup.not_mem_erase
  · intro t ht
    exact decide_eq_decide.2 (not_congr (mem_erase_of_ne ht))

theorem total_wake (h : Inv s) (hw : w ∈ s.waitProcs) {inc : Increments}
    (hinc : (w, inc) ∈ s.increments) (f : ResPortalTag × Increments → M) :
    total (wake s w inc) f = total s f + f (w, inc) :=
  heldSum_switch (by simp [held, hw]) (held_wake h inc).1 (held_wake h inc).2 h.keys hinc f

theorem total_dropWaiting (hw : w ∈ s.waitProcs)
    (f : ResPortalTag × Increments → M) : total (dropWaiting s w) f = total s f := by
  show heldSum (held (dropWaiting s w)) f (without s.increments w) = heldSum (held s) f s.increments
  have hnot : held s w = false := by simp [held, hw]
  rw [← heldSum_without_of_not hnot f s.increments]
  refine heldSum_congr (fun e he => ?_) f
  exact decide_eq_decide.2 (not_congr (mem_erase_of_ne (mem_without.1 he).2))

theorem total_ungrant (h : Inv s) (ht : t ∉ s.waitProcs) {inc : Increments}
    (hinc : (t, inc) ∈ s.increments) (f : ResPortalTag × Increments → M) :
    total s f = total (resIncrementRemove (ungrant s t inc) t) f + f (t, inc) :=
  heldSum_without (by simp [held, ht]) h.keys hinc f

end Totals

/-! ### The invariant is kept -/

theorem Inv.grantNew (h : Inv s) (ht : t ∉ s.increments.map fst)
    (inc : Increments) : Inv (grantNew s t inc) where
  keys := nodup_cons.2 ⟨ht, h.keys⟩
  waiting := fun w hw => mem_cons_of_mem _ (h.waiting w hw)
  pids := h.pids
  nRequested := congrArg (· + 1) h.nRequested
  nGranted := by
    rw [total_grantNew h ht]
    exact congrArg (· + 1) h.nGranted
  nLocks := by
    intro p
    rw [total_grantNew h ht, ← h.nLocks]
    show (if p = t.pid then s.nLocks p + 1 else s.nLocks p) = _
    by_cases hp : p = t.pid
    · rw [if_pos hp, if_pos hp.symm]
    · rw [if_neg hp, if_neg (Ne.symm hp), add_zero]

theorem Inv.waitNew (h : Inv s) (ht : t ∉ s.increments.map fst)
    (hpid : waits s t.pid = false) (inc : Increments) : Inv (waitNew s t inc) where
  keys := nodup_cons.2 ⟨ht, h.keys⟩
  waiting := forall_mem_append.2
    ⟨fun w hw => mem_cons_of_mem _ (h.waiting w hw), forall_mem_singleton.2 mem_cons_self⟩
  pids := by
    show ((s.waitProcs ++ [t]).map ResPortalTag.pid).Nodup
    rw [map_append]
    refine nodup_append'.2 ⟨h.pids, nodup_singleton _, fun p hp hpt => ?_⟩
    obtain ⟨w, hw, rfl⟩ := mem_map.1 hp
    exact any_eq_false.1 hpid w hw (decide_eq_true (mem_singleton.1 hpt))
  nRequested := congrArg (· + 1) h.nRequested
  nGranted := by
    rw [total_waitNew ht]
    exact h.nGranted
  nLocks := by
    intro p
    rw [total_waitNew ht]
    exact h.nLocks p

theorem Inv.wake (h : Inv s) (hw : w ∈ s.waitProcs) (hinc : (w, inc) ∈ s.increments) :
    Inv (wake s w inc) where
  keys := h.keys
  waiting := fun t ht => h.waiting t (mem_of_mem_erase ht)
  pids := h.pids.sublist (erase_sublist.map _)
  nRequested := h.nRequested
  nGranted := by
    rw [total_wake h hw hinc]
    exact congrArg (· + 1) h.nGranted
  nLocks := by
    intro p
    rw [total_wake h hw hinc, ← h.nLocks]
    show (if p = w.pid then s.nLocks p + 1 else s.nLocks p) = _
    by_cases hp : p = w.pid
    · rw [if_pos hp, if_pos hp.symm]
    · rw [if_neg hp, if_neg (Ne.symm hp), add_zero]

theorem length_without (h : Inv s) (ht : t ∈ s.increments.map fst) :
    (without s.increments t).length + 1 = s.increments.length := by
  obtain ⟨inc, hinc⟩ := exists_valueOf ht
  have := @heldSum_without ResPortalTag Increments ℕ _ _ (fun _ => true) t _ inc rfl h.keys
    (mem_of_valueOf hinc) fun _ => 1
  simpa [heldSum] using this.symm

theorem Inv.dropWaiting (h : Inv s) (hw : w ∈ s.waitProcs) : Inv (dropWaiting s w) where
  keys := nodup_without w h.keys
  waiting := by
    intro t ht
    have hne : t ≠ w := fun heq => h.waitProcs_nodup.not_mem_erase (heq ▸ ht)
    obtain ⟨e, he, rfl⟩ := mem_map.1 (h.waiting t (mem_of_mem_erase ht))
    exact mem_map_of_mem (mem_without.2 ⟨he, hne⟩)
  pids := h.pids.sublist (erase_sublist.map _)
  nRequested := by
    have := length_without h (h.waiting w hw)
    have := h.nRequested
    show s.nRequested - 1 = (without s.increments w).length
    omega
  nGranted := by
    rw [total_dropWaiting hw]
    exact h.nGranted
  nLocks := by
    intro p
    rw [total_dropWaiting hw]
    exact h.nLocks p

theorem Inv.ungrant (h : Inv s) (ht : t ∉ s.waitProcs)
    (hinc : (t, inc) ∈ s.increments) : Inv (resIncrementRemove (ungrant s t inc) t) where
  keys := nodup_without t h.keys
  waiting := by
    intro w hw
    have hne : w ≠ t := fun heq => ht (heq ▸ hw)
    obtain ⟨e, he, rfl⟩ := mem_map.1 (h.waiting w hw)
    exact mem_map_of_mem (mem_without.2 ⟨he, hne⟩)
  pids := h.pids
  nRequested := by
    have := length_without h (show t ∈ _ from mem_map_of_mem hinc)
    have := h.nRequested
    show s.nRequested - 1 = (without s.increments t).length
    omega
  nGranted := by
    have := total_ungrant h ht hinc fun _ => 1
    have := h.nGranted
    show s.nGranted - 1 = _
    omega
  nLocks := by
    intro p
    have hsum := total_ungrant h ht hinc fun e => if e.1.pid = p then 1 else 0
    have := h.nLocks p
    show (if p = t.pid then s.nLocks p - 1 else s.nLocks p) = _
    by_cases hp : p = t.pid
    · rw [if_pos hp]
      rw [if_pos hp.symm] at hsum
      omega
    · rw [if_neg hp]
      rw [if_neg (Ne.symm hp)] at hsum
      omega

theorem Inv.alter (h : Inv s) (queue : ResQueue) : Inv { s with queue := queue } := { h with }

/-! ## Waking up -/

/-- **The rule of the wake-up loop**: it ends, and keeps what waking one waiter that fits keeps. -/
theorem wakeupLoop_rule (hP : ∀ {s : State} {w : ResPortalTag} {inc : Increments}, Inv s → P s →
      w ∈ s.waitProcs → (w, inc) ∈ s.increments → resLockCheckLimit s.queue inc = .STATUS_OK →
      P (wake s w inc))
    (myPid : ℕ) (procs : List ResPortalTag) : ∀ {s : State}, Inv s → P s → procs.Nodup →
      (∀ w ∈ procs, w ∈ s.waitProcs ∧ w.pid ≠ myPid) →
      ∃ s', wakeupLoop myPid procs s = some s' ∧ Inv s' ∧ P s' := by
  induction procs with
  | nil => exact fun {s} h hp _ _ => ⟨s, rfl, h, hp⟩
  | cons w procs ih =>
    intro s h hp hnodup hwait
    obtain ⟨hnot, hnodup⟩ := nodup_cons.1 hnodup
    obtain ⟨hw, hpid⟩ := hwait w mem_cons_self
    obtain ⟨inc, hinc⟩ := exists_valueOf (h.waiting w hw)
    have hmem := mem_of_valueOf hinc
    have hrest := fun w' hw' => hwait w' (mem_cons_of_mem w hw')
    rw [wakeupLoop, if_neg hpid, show resIncrementFind s w = some inc from hinc]
    dsimp only
    cases hstatus : resLockCheckLimit s.queue inc with
    | STATUS_OK =>
      refine ih (h.wake hw hmem) (hP h hp hw hmem hstatus) hnodup fun w' hw' =>
        ⟨?_, (hrest w' hw').2⟩
      have hne : w' ≠ w := fun heq => hnot (heq ▸ hw')
      exact (mem_erase_of_ne hne).2 (hrest w' hw').1
    | STATUS_FOUND | STATUS_ERROR => exact ih h hp hnodup hrest

theorem pid_ne_of_not_waits {pid : ℕ} (h : waits s pid = false) (hw : w ∈ s.waitProcs) :
    w.pid ≠ pid := by
  simpa using any_eq_false.1 h w hw

theorem wakeup_rule (hP : ∀ {s : State} {w : ResPortalTag} {inc : Increments}, Inv s → P s →
      w ∈ s.waitProcs → (w, inc) ∈ s.increments → resLockCheckLimit s.queue inc = .STATUS_OK →
      P (wake s w inc))
    {myPid : ℕ} (h : Inv s) (hp : P s) (hpid : waits s myPid = false) :
    ∃ s', resProcLockRemoveSelfAndWakeup myPid s = some s' ∧ Inv s' ∧ P s' :=
  wakeupLoop_rule hP myPid s.waitProcs h hp h.waitProcs_nodup fun _ hw =>
    ⟨hw, pid_ne_of_not_waits hpid hw⟩

theorem wakeupLoop_remove (myPid : ℕ) (t : ResPortalTag) (procs : List ResPortalTag) {s : State}
    (ht : t ∉ procs) :
    wakeupLoop myPid procs (resIncrementRemove s t) =
      (wakeupLoop myPid procs s).map fun s => resIncrementRemove s t := by
  induction procs generalizing s with
  | nil => rfl
  | cons w procs ih =>
    obtain ⟨hne, ht⟩ := ne_and_not_mem_of_not_mem_cons ht
    have hfind : resIncrementFind (resIncrementRemove s t) w = resIncrementFind s w :=
      valueOf_without_of_ne hne.symm
    rw [wakeupLoop, wakeupLoop, hfind]
    split
    · exact @ih (resProcWakeup s w) ht
    cases resIncrementFind s w with
    | none => rfl
    | some inc =>
      dsimp only
      rw [show (resIncrementRemove s t).queue = s.queue from rfl]
      cases resLockCheckLimit s.queue inc with
      | STATUS_OK => exact @ih (wake s w inc) ht
      | STATUS_FOUND | STATUS_ERROR => exact ih ht

/-! ## What the functions do -/

theorem find_eq_none_iff : resIncrementFind s t = none ↔ t ∉ s.increments.map fst :=
  valueOf_eq_none_iff

theorem giveUp_resIncrementRemove (ht : t ∉ s.increments.map fst)
    (inc : Increments) : without (resIncrementAdd s t inc).increments t = s.increments := by
  show without ((t, inc) :: s.increments) t = s.increments
  rw [without_cons, if_pos rfl, without_of_notMem ht]

/-- **What `ResLockAcquire` does** with a portal that is not in the table. -/
theorem resLockAcquire_eq (h : Inv s) (ht : t ∉ s.increments.map fst)
    (inc : Increments) : resLockAcquire s t inc =
      if inc RES_COST_LIMIT < s.queue.ignorecostlimit then s
      else
        match resLockCheckLimit s.queue inc with
        | .STATUS_ERROR => s
        | .STATUS_OK => grantNew s t inc
        | .STATUS_FOUND =>
          if resCheckSelfDeadLock (resIncrementAdd s t inc) t.pid then grantNew s t inc else waitNew
            s t inc := by
  unfold resLockAcquire
  dsimp only
  split
  · rfl
  have hfind : resIncrementFind { s with nRequested := s.nRequested + 1 } t = none :=
    find_eq_none_iff.2 ht
  rw [hfind, if_neg (by simp)]
  rw [show (resIncrementAdd { s with nRequested := s.nRequested + 1 } t inc).queue =
    s.queue from rfl]
  cases resLockCheckLimit s.queue inc with
  | STATUS_OK => rfl
  | STATUS_ERROR =>
    have hremove := giveUp_resIncrementRemove ht inc
    obtain ⟨queue, increments, nRequested, nGranted, nLocks, waitProcs⟩ := s
    exact congrArg (fun l => State.mk queue l nRequested nGranted nLocks waitProcs) hremove
  | STATUS_FOUND =>
    -- the request itself is counted and not granted
    have hgranted : s.nGranted ≤ s.nRequested := by
      rw [h.nGranted, h.nRequested, total_one]
      exact length_filter_le _ _
    have hmore : (resIncrementAdd { s with nRequested := s.nRequested + 1 } t inc).nRequested >
        (resIncrementAdd { s with nRequested := s.nRequested + 1 } t inc).nGranted :=
      Nat.lt_succ_of_le hgranted
    rw [if_pos hmore]
    rfl

/-- **What `ResLockRelease` does** with a portal that is granted. -/
theorem resLockRelease_eq (h : Inv s) (hinc : (t, inc) ∈ s.increments) (ht : t ∉ s.waitProcs) :
      resLockRelease s t = resProcLockRemoveSelfAndWakeup t.pid
      (resIncrementRemove (ungrant s t inc) t) := by
  have hlocks : s.nLocks t.pid ≠ 0 := by
    rw [h.nLocks, total_ungrant h ht hinc, if_pos rfl]
    exact Nat.succ_ne_zero _
  rw [resLockRelease, if_neg hlocks,
    show resIncrementFind s t = some inc from valueOf_of_mem h.keys hinc]
  exact (wakeupLoop_remove t.pid t s.waitProcs ht).symm

/-! ## Every event keeps the invariant -/

/-- What holds of a state stays true whatever happens to one portal, if only increments that are
`ok` are locked. -/
structure Stable (ok : Increments → Prop) (P : State → Prop) : Prop where
  grantNew : ∀ {s : State} {t : ResPortalTag} {inc : Increments}, Inv s → P s →
    t ∉ s.increments.map fst → ok inc → P (grantNew s t inc)
  waitNew : ∀ {s : State} {t : ResPortalTag} {inc : Increments}, Inv s → P s →
    t ∉ s.increments.map fst → ok inc → P (waitNew s t inc)
  wake : ∀ {s : State} {w : ResPortalTag} {inc : Increments}, Inv s → P s → w ∈ s.waitProcs →
    (w, inc) ∈ s.increments → P (wake s w inc)
  dropWaiting : ∀ {s : State} {w : ResPortalTag}, Inv s → P s → w ∈ s.waitProcs →
    P (dropWaiting s w)
  ungrant : ∀ {s : State} {t : ResPortalTag} {inc : Increments}, Inv s → P s → t ∉ s.waitProcs →
    (t, inc) ∈ s.increments → P (resIncrementRemove (ungrant s t inc) t)
  alter : ∀ {s : State} (limits : ResLimitType → Option ℚ) (overcommit : Bool) (ignorelimit : ℚ),
    P s → P { s with queue := resAlterQueue s.queue limits overcommit ignorelimit }

theorem not_waits_dropWaiting (h : Inv s) (hw : w ∈ s.waitProcs) :
    waits (dropWaiting s w) w.pid = false := by
  refine any_eq_false.2 fun t ht => ?_
  have hne : t ≠ w := fun heq => h.waitProcs_nodup.not_mem_erase (heq ▸ ht)
  have : t.pid ≠ w.pid := fun hpid =>
    hne (inj_on_of_nodup_map h.pids (mem_of_mem_erase ht) hw hpid)
  simpa using this

/-- **The step rule**: an event that is enabled ends without an error, and keeps what is stable. -/
theorem Stable.execute (hP : Stable ok P) (h : Inv s)
    (hp : P s) (hev : enabled s ev = true) (hok : ∀ t inc, ev = .lock t inc → ok inc) :
    ∃ s', execute s ev = some s' ∧ Inv s' ∧ P s' := by
  have hwakeup {s : State} {pid : ℕ} (h : Inv s) (hp : P s) (hpid : waits s pid = false) :=
    wakeup_rule (fun hi hp hw hinc _ => hP.wake hi hp hw hinc) h hp hpid
  cases ev with
  | lock t inc =>
    obtain ⟨hpid, hfind⟩ : waits s t.pid = false ∧
        resIncrementFind s t = none := by simpa [enabled] using hev
    have ht := find_eq_none_iff.1 hfind
    have hinc := hok t inc rfl
    refine ⟨_, rfl, ?_⟩
    rw [resLockAcquire_eq h ht]
    split
    · exact ⟨h, hp⟩
    cases resLockCheckLimit s.queue inc with
    | STATUS_ERROR => exact ⟨h, hp⟩
    | STATUS_OK => exact ⟨h.grantNew ht inc, hP.grantNew h hp ht hinc⟩
    | STATUS_FOUND =>
      dsimp only
      split
      · exact ⟨h.grantNew ht inc, hP.grantNew h hp ht hinc⟩
      · exact ⟨h.waitNew ht hpid inc, hP.waitNew h hp ht hinc⟩
  | waitCancel pid =>
    rw [Resscheduler.execute, resLockWaitCancel]
    split
    · exact ⟨s, rfl, h, hp⟩
    next w hw =>
      have hmem := mem_of_find?_eq_some hw
      obtain rfl : w.pid = pid := by simpa using find?_some hw
      exact hwakeup (h.dropWaiting hmem) (hP.dropWaiting h hp hmem) (not_waits_dropWaiting h hmem)
  | release t =>
    have hpid : waits s t.pid = false := by simpa [enabled] using hev
    have ht : t ∉ s.waitProcs := fun hw => pid_ne_of_not_waits hpid hw rfl
    rw [Resscheduler.execute]
    cases hfind : resIncrementFind s t with
    | none =>
      rw [resLockRelease, hfind]
      split
      · exact ⟨s, rfl, h, hp⟩
      · exact hwakeup h hp hpid
    | some inc =>
      have hmem := mem_of_valueOf hfind
      rw [resLockRelease_eq h hmem ht]
      exact hwakeup (h.ungrant ht hmem) (hP.ungrant h hp ht hmem) hpid
  | alter limits overcommit ignorelimit =>
    exact ⟨_, rfl, h.alter _, hP.alter limits overcommit ignorelimit hp⟩

theorem step_eq_some (hstep : step s ev = some s') : enabled s ev = true ∧
    execute s ev = some s' := by
  rw [step] at hstep
  split at hstep
  next hev => exact ⟨hev, hstep⟩
  · exact absurd hstep (by simp)

theorem Stable.step (hP : Stable ok P)
    (h : Inv s) (hp : P s) (hok : ∀ t inc, ev = .lock t inc → ok inc)
    (hstep : step s ev = some s') : Inv s' ∧ P s' := by
  obtain ⟨hev, hexec⟩ := step_eq_some hstep
  obtain ⟨s₁, hs₁, h₁⟩ := hP.execute h hp hev hok
  obtain rfl : s₁ = s' := Option.some.inj (hs₁.symm.trans hexec)
  exact h₁

/-- **The run rule**: what is stable holds after every run that locks only increments that are `ok`.
-/
theorem Stable.run (hP : Stable ok P) {evs : List Event}
    (hok : ∀ t inc, .lock t inc ∈ evs → ok inc) {s s' : State} (hi : Inv s) (h : P s)
    (hrun : runSteps Resscheduler.step evs s = some s') : Inv s' ∧ P s' := by
  induction evs generalizing s s' with
  | nil =>
    obtain rfl : s = s' := Option.some.inj hrun
    exact ⟨hi, h⟩
  | cons ev evs ih =>
    obtain ⟨s₁, hstep, hrest⟩ := Option.bind_eq_some_iff.1 hrun
    obtain ⟨hi₁, h₁⟩ := hP.step hi h (fun t inc hev => hok t inc (hev ▸ mem_cons_self)) hstep
    exact ih (fun t inc hmem => hok t inc (mem_cons_of_mem ev hmem)) hi₁ h₁ hrest

theorem stable_true : Stable (fun _ => True) fun _ => True := by
  constructor <;> intros <;> trivial

theorem Inv.step (h : Inv s) (hstep : step s ev = some s') : Inv s' :=
  (stable_true.step h trivial (fun _ _ _ => trivial) hstep).1

end PolemoDB.Resscheduler
