import PolemoDB.Resscheduler.ResQueueAccounting

/-!
# Waiters of a resource queue

A waiter is reconsidered only when another session releases a portal or leaves the wait queue. While
some portal holds the queue there will be such a session; a waiter of a queue that nobody holds is
stranded.

Principal results: `step_noStranded_iff` (which events leave a stranded waiter), `noStranded_iff`
(the same for whole runs) and `noStranded_of_alone` (none does if the increments are whole and each
portal, by itself, is admitted under every setting of the queue).
-/

namespace PolemoDB.Resscheduler

open PolemoDB.Lib ResLimitType List Prod

/-! ## The limits as conditions -/

/-- The value is within the threshold, if there is one. -/
def Within (queue : ResQueue) (i : ResLimitType) (x : ℚ) : Prop :=
  ∀ threshold, queue.threshold_value i = some threshold → x ≤ threshold

theorem overThreshold_iff (queue : ResQueue) (i : ResLimitType) (x : ℚ) :
    overThreshold queue i x = true ↔ ¬ Within queue i x := by
  unfold overThreshold Within
  cases queue.threshold_value i <;> simp

/-- The increments fit on top of the given counters. -/
structure Admits (queue : ResQueue) (current_value : ResLimitType → ℚ) (inc : Increments) :
    Prop where
  noError : queue.overcommit = true ∨ Within queue RES_COST_LIMIT (inc RES_COST_LIMIT)
  count : Within queue RES_COUNT_LIMIT (current_value RES_COUNT_LIMIT + inc RES_COUNT_LIMIT)
  cost : Within queue RES_COST_LIMIT (current_value RES_COST_LIMIT + inc RES_COST_LIMIT) ∨
    queue.overcommit = true ∧ current_value RES_COST_LIMIT ≤ 1 / 10
  memory : Within queue RES_MEMORY_LIMIT (current_value RES_MEMORY_LIMIT + inc RES_MEMORY_LIMIT)

section

variable (queue : ResQueue) (inc : Increments)

theorem overLimit_iff : overLimit queue inc = true ↔
    ¬ Within queue RES_COUNT_LIMIT (queue.current_value RES_COUNT_LIMIT + inc RES_COUNT_LIMIT) ∨
    ¬ (Within queue RES_COST_LIMIT (queue.current_value RES_COST_LIMIT + inc RES_COST_LIMIT) ∨
      queue.overcommit = true ∧ queue.current_value RES_COST_LIMIT ≤ 1 / 10) ∨
    ¬ Within queue RES_MEMORY_LIMIT
      (queue.current_value RES_MEMORY_LIMIT + inc RES_MEMORY_LIMIT) := by
  unfold overLimit
  rw [Bool.or_eq_true, Bool.or_eq_true, Bool.and_eq_true, Bool.or_eq_true, overThreshold_iff,
    overThreshold_iff, overThreshold_iff, decide_eq_true_eq, gt_iff_lt, ← not_le, not_or,
    not_and_or, Bool.not_eq_true', Bool.not_eq_true, or_assoc]

theorem resLockCheckLimit_error_iff : resLockCheckLimit queue inc = .STATUS_ERROR ↔
      queue.overcommit = false ∧ ¬ Within queue RES_COST_LIMIT (inc RES_COST_LIMIT) := by
  rw [← overThreshold_iff, resLockCheckLimit]
  cases queue.overcommit <;> cases overThreshold queue RES_COST_LIMIT (inc RES_COST_LIMIT) <;>
    cases overLimit queue inc <;> simp

theorem resLockCheckLimit_ok_iff :
    resLockCheckLimit queue inc = .STATUS_OK ↔ Admits queue queue.current_value inc := by
  have hsplit : resLockCheckLimit queue inc = .STATUS_OK ↔
      resLockCheckLimit queue inc ≠ .STATUS_ERROR ∧ overLimit queue inc ≠ true := by
    rw [resLockCheckLimit]
    cases queue.overcommit <;> cases overThreshold queue RES_COST_LIMIT (inc RES_COST_LIMIT) <;>
      cases overLimit queue inc <;> simp
  rw [hsplit, Ne, resLockCheckLimit_error_iff, Ne, overLimit_iff, not_and_or, not_or, not_or,
    not_not, not_not, not_not, not_not, Bool.not_eq_false]
  exact ⟨fun h => ⟨h.1, h.2.1, h.2.2.1, h.2.2.2⟩, fun h => ⟨h.noError, h.count, h.cost, h.memory⟩⟩

end

/-! ## Stranded waiters -/

/-- No session waits for a queue that nobody holds. -/
def NoStranded (s : State) : Prop := granted s = [] → s.waitProcs = []

theorem granted_eq_nil_iff (s : State) : granted s = [] ↔
    ∀ e ∈ s.increments, held s e.1 = false := by
  simp [granted, filter_eq_nil_iff]

theorem granted_ne_nil_iff (s : State) : granted s ≠ [] ↔
    ∃ e ∈ s.increments, held s e.1 = true := by
  rw [Ne, granted_eq_nil_iff]
  simp

variable {s s' : State} {myPid : ℕ} {t : ResPortalTag}

theorem noStranded_of_granted (h : granted s ≠ []) : NoStranded s := fun hnil => absurd hnil h

theorem granted_wake (h : Inv s) {w : ResPortalTag} {inc : Increments}
    (hinc : (w, inc) ∈ s.increments) : granted (wake s w inc) ≠ [] :=
  (granted_ne_nil_iff _).2 ⟨(w, inc), hinc, (held_wake h inc).1⟩

theorem wakeup_granted (h : Inv s) (hg : granted s ≠ []) (hpid : waits s myPid = false)
    (hs' : resProcLockRemoveSelfAndWakeup myPid s = some s') : granted s' ≠ [] := by
  obtain ⟨s₁, hs₁, -, hg₁⟩ := wakeup_rule (P := fun s => granted s ≠ [])
    (fun hi _ _ hinc _ => granted_wake hi hinc) h hg hpid
  obtain rfl : s₁ = s' := Option.some.inj (hs₁.symm.trans hs')
  exact hg₁

theorem wakeupLoop_cases (h : Inv s) (procs : List ResPortalTag) (hnodup : procs.Nodup)
    (hprocs : ∀ w ∈ procs, w ∈ s.waitProcs ∧ w.pid ≠ myPid) :
    ((∃ w ∈ procs, ∃ x, (w, x) ∈ s.increments ∧ Admits s.queue s.queue.current_value x) ∧
      ∃ s', wakeupLoop myPid procs s = some s' ∧ granted s' ≠ []) ∨
    (∀ w ∈ procs, ∀ x, (w, x) ∈ s.increments → ¬ Admits s.queue s.queue.current_value x) ∧
      wakeupLoop myPid procs s = some s := by
  induction procs with
  | nil => exact .inr ⟨nofun, rfl⟩
  | cons w procs ih =>
    obtain ⟨hw, hpid⟩ := hprocs w mem_cons_self
    obtain ⟨hnot, hnodup⟩ := nodup_cons.1 hnodup
    obtain ⟨x, hx⟩ := exists_valueOf (h.waiting w hw)
    have hmem := mem_of_valueOf hx
    have hrest := fun w' hw' => hprocs w' (mem_cons_of_mem w hw')
    rw [wakeupLoop, if_neg hpid, show resIncrementFind s w = some x from hx]
    dsimp only
    cases hcheck : resLockCheckLimit s.queue x with
    | STATUS_OK =>
      obtain ⟨s', hs', -, hg⟩ := wakeupLoop_rule (P := fun s => granted s ≠ [])
        (fun hi _ _ hinc _ => granted_wake hi hinc) myPid procs (h.wake hw hmem)
        (granted_wake h hmem) hnodup fun w' hw' =>
          ⟨(mem_erase_of_ne fun heq : w' = w => hnot (heq ▸ hw')).2 (hrest w' hw').1,
          (hrest w' hw').2⟩
      exact .inl ⟨⟨w, mem_cons_self, x, hmem, (resLockCheckLimit_ok_iff _ _).1 hcheck⟩, s', hs', hg⟩
    | STATUS_FOUND | STATUS_ERROR =>
      refine (ih hnodup hrest).imp
        (And.imp_left (Exists.imp fun _ => And.imp_left (mem_cons_of_mem w)))
        (And.imp_left fun hnone => forall_mem_cons.2 ⟨fun y hy hadmits => ?_, hnone⟩)
      rw [eq_of_mem_of_nodup h.keys hy hmem, ← resLockCheckLimit_ok_iff, hcheck] at hadmits
      cases hadmits

/-- Some waiter would be admitted on top of the counters. -/
def SomeAdmitted (s : State) (current_value : ResLimitType → ℚ) : Prop :=
  ∃ w x, w ∈ s.waitProcs ∧ (w, x) ∈ s.increments ∧ Admits s.queue current_value x

/-- **The wake-up of a queue that nobody holds** leaves no stranded waiter exactly if there is none,
or one is admitted. -/
theorem wakeup_noStranded_iff (h : Inv s) (hg : granted s = [])
    (hpid : waits s myPid = false) (hs' : resProcLockRemoveSelfAndWakeup myPid s = some s') :
    NoStranded s' ↔ s.waitProcs = [] ∨ SomeAdmitted s s.queue.current_value := by
  have hprocs : ∀ w ∈ s.waitProcs, w ∈ s.waitProcs ∧ w.pid ≠ myPid := fun w hw =>
    ⟨hw, pid_ne_of_not_waits hpid hw⟩
  rcases wakeupLoop_cases h s.waitProcs h.waitProcs_nodup hprocs with ⟨⟨w, hw, x, hx⟩, s₁, hs₁,
    hg₁⟩ | ⟨hnone, hsame⟩
  · obtain rfl : s₁ = s' := Option.some.inj (hs₁.symm.trans hs')
    exact iff_of_true (noStranded_of_granted hg₁) (.inr ⟨w, x, hw, hx⟩)
  · obtain rfl : s = s' := Option.some.inj (hsame.symm.trans hs')
    exact ⟨fun hno => .inl (hno hg),
      fun hor _ => hor.resolve_right fun ⟨w, x, hw, hx, hadmits⟩ => hnone w hw x hx hadmits⟩

/-! ## One event -/

/-- What a counter is after the increments are subtracted and the result is rounded up. -/
def remaining (queue : ResQueue) (inc : Increments) (i : ResLimitType) : ℚ :=
  max (⌈queue.current_value i - inc i⌉ : ℚ) 0

/-- The event strands no waiter. A portal that is locked on a queue nobody holds is too small, fits,
or is refused with an error; if the only holder releases its portal, nobody waits or some waiter
fits. -/
def Keeps (s : State) : Event → Prop
  | .lock _ inc => granted s = [] →
      inc RES_COST_LIMIT < s.queue.ignorecostlimit ∨ Admits s.queue s.queue.current_value inc ∨
      ¬ Within s.queue RES_COUNT_LIMIT (inc RES_COUNT_LIMIT) ∨
      s.queue.overcommit = false ∧ ¬ (Within s.queue RES_COST_LIMIT (inc RES_COST_LIMIT) ∧
        Within s.queue RES_MEMORY_LIMIT (inc RES_MEMORY_LIMIT))
  | .release t => ∀ inc, granted s = [(t, inc)] →
      s.waitProcs = [] ∨ SomeAdmitted s (remaining s.queue inc)
  | .waitCancel _ => True
  | .alter _ _ _ => True

theorem resCheckSelfDeadLock_alone (hnone : s.increments = []) (t : ResPortalTag)
    (inc : Increments) : resCheckSelfDeadLock (resIncrementAdd s t inc) t.pid = true ↔
      ¬ Within s.queue RES_COUNT_LIMIT (inc RES_COUNT_LIMIT) ∨
      s.queue.overcommit = false ∧ ¬ (Within s.queue RES_COST_LIMIT (inc RES_COST_LIMIT) ∧
        Within s.queue RES_MEMORY_LIMIT (inc RES_MEMORY_LIMIT)) := by
  have hmine : (resIncrementAdd s t inc).increments.filter (fun e => e.1.pid = t.pid) =
      [(t, inc)] := by
    simp [resIncrementAdd, hnone]
  rw [not_and_or, ← overThreshold_iff, ← overThreshold_iff, ← overThreshold_iff]
  unfold resCheckSelfDeadLock
  rw [hmine]
  simp only [map_cons, map_nil, sum_cons, sum_nil, add_zero, length_singleton]
  rw [show (resIncrementAdd s t inc).queue = s.queue from rfl]
  cases s.queue.overcommit <;> cases overThreshold s.queue RES_COUNT_LIMIT (inc RES_COUNT_LIMIT) <;>
    simp

theorem increments_eq_nil (hs : NoStranded s) (hg : granted s = []) : s.increments = [] := by
  refine eq_nil_iff_forall_not_mem.2 fun e he => ?_
  have := (granted_eq_nil_iff s).1 hg e he
  simp [held, hs hg] at this

theorem lock_noStranded_iff (h : Inv s) (hs : NoStranded s) (ht : t ∉ s.increments.map fst)
    (inc : Increments) : NoStranded (resLockAcquire s t inc) ↔ Keeps s (.lock t inc) := by
  have hgrant : NoStranded (grantNew s t inc) :=
    noStranded_of_granted ((granted_ne_nil_iff _).2 ⟨(t, inc), mem_cons_self, h.held_of_fresh ht⟩)
  -- a portal that waits is stranded exactly if nobody holds the queue
  have hwait : NoStranded (waitNew s t inc) ↔ granted s ≠ [] := by
    have hsame : granted (waitNew s t inc) = [] ↔ granted s = [] := by
      rw [← length_eq_zero_iff, ← length_eq_zero_iff, ← total_one, ← total_one, total_waitNew ht]
    unfold NoStranded
    rw [hsame]
    simp [waitNew]
  rw [resLockAcquire_eq h ht]
  by_cases hcost : inc RES_COST_LIMIT < s.queue.ignorecostlimit
  · rw [if_pos hcost]
    exact iff_of_true hs fun _ => .inl hcost
  rw [if_neg hcost]
  cases hstatus : resLockCheckLimit s.queue inc with
  | STATUS_OK =>
    exact iff_of_true hgrant fun _ => .inr (.inl ((resLockCheckLimit_ok_iff _ _).1 hstatus))
  | STATUS_ERROR =>
    obtain ⟨hoc, hover⟩ := (resLockCheckLimit_error_iff _ _).1 hstatus
    exact iff_of_true hs fun _ => .inr (.inr (.inr ⟨hoc, fun h => hover h.1⟩))
  | STATUS_FOUND =>
    have hadmits : ¬ Admits s.queue s.queue.current_value inc := fun ha => by
      rw [(resLockCheckLimit_ok_iff _ _).2 ha] at hstatus
      exact absurd hstatus (by simp)
    dsimp only
    by_cases hg : granted s = []
    · have hdead := resCheckSelfDeadLock_alone (increments_eq_nil hs hg) t inc
      split
      next hself => exact iff_of_true hgrant fun _ => .inr (.inr (hdead.1 hself))
      next hself =>
        rw [hwait]
        exact iff_of_false (fun hne => hne hg) fun hkeeps =>
          hself (hdead.2 (((hkeeps hg).resolve_left hcost).resolve_left hadmits))
    · refine iff_of_true ?_ fun hnil => absurd hnil hg
      split
      · exact hgrant
      · exact hwait.2 hg

theorem granted_ungrant (t : ResPortalTag) (inc : Increments) :
    granted (resIncrementRemove (ungrant s t inc) t) = without (granted s) t := by
  exact filter_comm _ _ _

theorem release_noStranded_iff (h : Inv s) (hs : NoStranded s)
    (hpid : waits s t.pid = false) (hs' : resLockRelease s t = some s') :
    NoStranded s' ↔ Keeps s (.release t) := by
  have ht : t ∉ s.waitProcs := fun hw => pid_ne_of_not_waits hpid hw rfl
  cases hfind : resIncrementFind s t with
  | none =>
    have hkeeps : Keeps s (.release t) := fun inc hg => by
      have : (t, inc) ∈ granted s := hg ▸ mem_cons_self
      exact absurd (mem_map_of_mem (mem_of_mem_filter this)) (find_eq_none_iff.1 hfind)
    refine iff_of_true ?_ hkeeps
    rw [resLockRelease, hfind] at hs'
    split at hs'
    · exact Option.some.inj hs' ▸ hs
    next hlocks =>
      have hg : granted s ≠ [] := fun hnil => by
        rw [h.nLocks] at hlocks
        have : total s (fun e => if e.1.pid = t.pid then 1 else 0) = 0 := by
          show ((granted s).map _).sum = 0
          rw [hnil]
          rfl
        exact hlocks this
      exact noStranded_of_granted (wakeup_granted h hg hpid hs')
  | some inc =>
    have hmem := mem_of_valueOf hfind
    rw [resLockRelease_eq h hmem ht] at hs'
    have hi := h.ungrant ht hmem
    have hgranted : (t, inc) ∈ granted s := mem_filter.2 ⟨hmem, by simp [held, ht]⟩
    have hnodup : ((granted s).map fst).Nodup := h.keys.sublist (filter_sublist.map _)
    have honly : granted (resIncrementRemove (ungrant s t inc) t) = [] ↔
        granted s = [(t, inc)] := by
      rw [granted_ungrant]
      exact without_eq_nil_iff hnodup hgranted
    by_cases hg : granted s = [(t, inc)]
    · rw [wakeup_noStranded_iff hi (honly.2 hg) hpid hs']
      have hvalue : (ungrant s t inc).queue.current_value = remaining s.queue inc := by
        funext i
        show max (⌈s.queue.current_value i + -1 * inc i⌉ : ℚ) 0 = _
        rw [neg_one_mul, ← sub_eq_add_neg]
        rfl
      have hadmitted : SomeAdmitted (resIncrementRemove (ungrant s t inc) t)
          (ungrant s t inc).queue.current_value ↔ SomeAdmitted s (remaining s.queue inc) := by
        rw [hvalue]
        constructor
        · rintro ⟨w, x, hw, hx, ha⟩
          exact ⟨w, x, hw, (mem_without.1 hx).1, ha.noError, ha.count, ha.cost, ha.memory⟩
        · rintro ⟨w, x, hw, hx, ha⟩
          have hne : w ≠ t := fun heq => ht (heq ▸ hw)
          exact ⟨w, x, hw, mem_without.2 ⟨hx, hne⟩, ha.noError, ha.count, ha.cost, ha.memory⟩
      constructor
      · intro hor x hx
        obtain rfl : inc = x := congrArg snd (mem_singleton.1 (hx ▸ hgranted))
        exact hor.imp_right hadmitted.1
      · exact fun hkeeps => (hkeeps inc hg).imp_right hadmitted.2
    · have hne : granted (resIncrementRemove (ungrant s t inc) t) ≠ [] := fun hnil =>
        hg (honly.1 hnil)
      refine iff_of_true (noStranded_of_granted (wakeup_granted hi hne hpid hs')) fun x hx => ?_
      have hx' : (t, inc) = (t, x) := mem_singleton.1 (hx ▸ hgranted)
      exact absurd (hx'.symm ▸ hx) hg

theorem step_noStranded_iff {ev : Event} (h : Inv s) (hs : NoStranded s)
    (hstep : step s ev = some s') : NoStranded s' ↔ Keeps s ev := by
  obtain ⟨hev, hexec⟩ := step_eq_some hstep
  cases ev with
  | lock t inc =>
    obtain ⟨-, hfind⟩ : waits s t.pid = false ∧
        resIncrementFind s t = none := by simpa [enabled] using hev
    obtain rfl : resLockAcquire s t inc = s' := Option.some.inj hexec
    exact lock_noStranded_iff h hs (find_eq_none_iff.1 hfind) inc
  | release t => exact release_noStranded_iff h hs (by simpa [enabled] using hev) hexec
  | alter limits overcommit ignorelimit =>
    refine iff_of_true ?_ trivial
    exact Option.some.inj hexec ▸ hs
  | waitCancel pid =>
    refine iff_of_true ?_ trivial
    rw [execute, resLockWaitCancel] at hexec
    split at hexec
    · exact Option.some.inj hexec ▸ hs
    -- there is a waiter, so the queue is held, and it stays held without the waiter
    rename_i w hw
    have hmem := mem_of_find?_eq_some hw
    obtain rfl : w.pid = pid := by simpa using find?_some hw
    have hg : granted (dropWaiting s w) ≠ [] := by
      rw [Ne, ← length_eq_zero_iff, ← total_one, total_dropWaiting hmem, total_one,
        length_eq_zero_iff]
      exact fun hnil => absurd (hs hnil ▸ hmem) not_mem_nil
    exact noStranded_of_granted
      (wakeup_granted (h.dropWaiting hmem) hg (not_waits_dropWaiting h hmem) hexec)

/-! ## Runs -/

theorem noStranded_from_iff {evs : List Event} {s₀ : State} (hi : Inv s₀) (hs : NoStranded s₀)
    (hrun : runSteps step evs s₀ = some s) :
    (∀ pre post s₁, evs = pre ++ post → runSteps step pre s₀ = some s₁ → NoStranded s₁) ↔
      ∀ pre ev post s₁, evs = pre ++ ev :: post → runSteps step pre s₀ = some s₁ → Keeps s₁ ev :=
  @runSteps_good_iff State Event step Inv NoStranded Keeps (fun h hstep => h.step hstep)
    (fun h hs hstep => step_noStranded_iff h hs hstep) evs s₀ s hi hs hrun

/-- **When a run leaves no waiter stranded**: exactly if each of its events keeps that, that is, no
portal is made to wait on a queue nobody holds, and the last holder leaves only if some waiter then
fits. -/
theorem noStranded_iff (limits : ResLimitType → Option ℚ) (overcommit : Bool) (ignorelimit : ℚ)
    (evs : List Event) (s : State)
    (hrun : runSteps step evs (newQueue limits overcommit ignorelimit) = some s) :
    (∀ pre post s₁, evs = pre ++ post →
        runSteps step pre (newQueue limits overcommit ignorelimit) = some s₁ → NoStranded s₁) ↔
      ∀ pre ev post s₁, evs = pre ++ ev :: post →
        runSteps step pre (newQueue limits overcommit ignorelimit) = some s₁ → Keeps s₁ ev :=
  noStranded_from_iff (inv_newQueue _ _ _) (fun _ => rfl) hrun

/-- Two portals on a queue with a limit of one; the second waits and is granted when the first
leaves. -/
theorem noStranded_handOver :
    let evs := [.lock ⟨1, 1⟩ (portalIncrements 1 60 1), .lock ⟨2, 1⟩ (portalIncrements 1 50 1),
      .release ⟨1, 1⟩]
    let s₀ := newQueue (fun | RES_COUNT_LIMIT => some 1 | _ => none) false 0
    ∃ s, runSteps step evs s₀ = some s ∧ (granted s).map fst = [⟨2, 1⟩] ∧
      ((∀ pre post s₁, evs = pre ++ post → runSteps step pre s₀ = some s₁ → NoStranded s₁) ↔
        ∀ pre ev post s₁, evs = pre ++ ev :: post → runSteps step pre s₀ = some s₁ →
        Keeps s₁ ev) := by
  intro evs s₀
  have hrun : ((runSteps step evs s₀).map fun s => (granted s).map fst) = some [⟨2, 1⟩] := by
    decide +kernel
  obtain ⟨s, hs, hg⟩ := Option.map_eq_some_iff.1 hrun
  exact ⟨s, hs, hg, noStranded_iff _ _ _ evs s hs⟩

/-! ### Portals that fit by themselves -/

theorem stable_increments (ok : Increments → Prop) : Stable ok fun s =>
    ∀ e ∈ s.increments, ok e.2 where
  grantNew := fun _ h _ hok => forall_mem_cons.2 ⟨hok, h⟩
  waitNew := fun _ h _ hok => forall_mem_cons.2 ⟨hok, h⟩
  wake := fun _ h _ _ => h
  dropWaiting := fun _ h _ e he => h e (mem_without.1 he).1
  ungrant := fun _ h _ _ e he => h e (mem_without.1 he).1
  alter := fun _ _ _ h => h

theorem Accounted.remaining_eq_zero (h : Accounted s) {inc : Increments}
    (hg : granted s = [(t, inc)]) : remaining s.queue inc = fun _ => 0 := by
  funext i
  have hvalue : s.queue.current_value i = inc i := by
    rw [h.balanced.1, hg, map_singleton, sum_singleton]
  rw [remaining, hvalue, sub_self, Int.ceil_zero, Int.cast_zero, max_self]

/-- **No waiter is stranded** if the increments are whole and each portal fits, by itself, whatever
setting of the queue is in force. -/
theorem noStranded_of_alone {s₀ : State} {evs : List Event} (hnew : ∃ limits overcommit ignorelimit,
      s₀ = newQueue limits overcommit ignorelimit) (hrun : runSteps step evs s₀ = some s)
    (hwhole : ∀ t inc, .lock t inc ∈ evs → Whole inc)
    (halone : ∀ pre post s₁, evs = pre ++ post → runSteps step pre s₀ = some s₁ →
      ∀ t inc, .lock t inc ∈ evs → Admits s₁.queue (fun _ => 0) inc) :
    ∀ pre post s₁, evs = pre ++ post → runSteps step pre s₀ = some s₁ → NoStranded s₁ := by
  obtain ⟨limits, overcommit, ignorelimit, rfl⟩ := hnew
  have hi := inv_newQueue limits overcommit ignorelimit
  rw [noStranded_from_iff hi (fun _ => rfl) hrun]
  intro pre ev post s₁ hevs hpre
  have hin : ∀ t inc, .lock t inc ∈ pre → .lock t inc ∈ evs := fun t inc h =>
    hevs ▸ mem_append_left _ h
  obtain ⟨hi₁, ha₁⟩ := accounted_stable.run (fun t inc h => hwhole t inc (hin t inc h)) hi
    (accounted_newQueue _ _ _) hpre
  obtain ⟨-, hlocked⟩ := (stable_increments fun inc => ∃ t, .lock t inc ∈ evs).run
    (fun t inc h => ⟨t, hin t inc h⟩) hi (by simp [newQueue]) hpre
  have hadmits := halone pre (ev :: post) s₁ hevs hpre
  cases ev with
  | waitCancel pid | alter limits overcommit ignorelimit => trivial
  | lock t inc =>
    intro hg
    have hzero : s₁.queue.current_value = fun _ => 0 := funext (ha₁.balanced.2 hg)
    rw [hzero]
    exact .inr (.inl (hadmits t inc (hevs ▸ by simp)))
  | release t =>
    intro inc hg
    rw [ha₁.remaining_eq_zero hg]
    cases hw : s₁.waitProcs with
    | nil => exact .inl rfl
    | cons w ws =>
      have hmem : w ∈ s₁.waitProcs := hw ▸ mem_cons_self
      obtain ⟨x, hx⟩ := exists_valueOf (hi₁.waiting w hmem)
      obtain ⟨t', ht'⟩ := hlocked _ (mem_of_valueOf hx)
      exact .inr ⟨w, x, hmem, mem_of_valueOf hx, hadmits t' x ht'⟩

def costLimit (x : ℚ) : ResLimitType → Option ℚ
  | RES_COST_LIMIT => some x
  | _ => none

/-- A limit of 100 on cost, no overcommit; a portal of cost 60 holds the queue, one of cost 50
waits, and the limit is lowered to 80 before the holder leaves. -/
def handedOver : List Event := [.lock ⟨1, 1⟩ (portalIncrements 1 60 1),
  .lock ⟨2, 1⟩ (portalIncrements 1 50 1), .alter (costLimit 80) false 0, .release ⟨1, 1⟩]

/-- The portal that waits is granted when the holder leaves. -/
theorem noStranded_of_alone_handedOver :
    let s₀ := newQueue (costLimit 100) false 0
    (∃ s, runSteps step (handedOver.take 3) s₀ = some s ∧ s.waitProcs = [⟨2, 1⟩]) ∧
    ∃ s, runSteps step handedOver s₀ = some s ∧ (granted s).map fst = [⟨2, 1⟩] ∧
      ∀ pre post s₁, handedOver = pre ++ post → runSteps step pre s₀ = some s₁ → NoStranded s₁ := by
  intro s₀
  have hwait : (runSteps step (handedOver.take 3) s₀).map State.waitProcs = some [⟨2, 1⟩] := by
    decide +kernel
  have hgrant : (runSteps step handedOver s₀).map (fun s => (granted s).map fst) =
      some [⟨2, 1⟩] := by
    decide +kernel
  obtain ⟨s, hs, hg⟩ := Option.map_eq_some_iff.1 hgrant
  have hlocks : ∀ t inc, .lock t inc ∈ handedOver →
      ∃ cost ≤ 60, inc = portalIncrements 1 cost 1 := by
    intro t inc h
    obtain ⟨-, rfl⟩ | ⟨-, rfl⟩ : t = ⟨1, 1⟩ ∧ inc = portalIncrements 1 60 1 ∨
        t = ⟨2, 1⟩ ∧ inc = portalIncrements 1 50 1 := by simpa [handedOver] using h
    · exact ⟨60, le_rfl, rfl⟩
    · exact ⟨50, by decide, rfl⟩
  refine ⟨Option.map_eq_some_iff.1 hwait, s, hs, hg,
    noStranded_of_alone ⟨_, _, _, rfl⟩ hs (fun t inc h => ?_) fun pre post s₁ hevs hpre t inc h =>
    ?_⟩
  · obtain ⟨cost, -, rfl⟩ := hlocks t inc h
    exact whole_portalIncrements 1 cost 1
  obtain ⟨cost, hle, rfl⟩ := hlocks t inc h
  have hfits : portalIncrements 1 cost 1 RES_COST_LIMIT ≤ 60 := Nat.cast_le.2 hle
  -- the setting after each part of the run: the limit on cost is 100 or 80
  have hsettings : ∀ k < 5,
      (runSteps step (handedOver.take k) s₀).map (fun s => (s.queue.overcommit,
      s.queue.threshold_value RES_COUNT_LIMIT, s.queue.threshold_value RES_COST_LIMIT,
      s.queue.threshold_value RES_MEMORY_LIMIT)) ∈
      [some (false, none, some 100, none), some (false, none, some 80, none)] := by decide +kernel
  have hlen : pre.length < 5 := by
    have := congrArg length hevs
    rw [length_append, show handedOver.length = 4 from rfl] at this
    omega
  have hset := hsettings pre.length hlen
  rw [hevs, take_left, hpre, Option.map_some, mem_pair, Option.some_inj, Option.some_inj] at hset
  rcases hset with hset | hset <;>
  · rw [mk.injEq, mk.injEq, mk.injEq] at hset
    obtain ⟨hover, hcount, hcost, hmemory⟩ := hset
    constructor <;> simp [Within, hover, hcount, hcost, hmemory] <;> linarith

/-! ## Stranded on an idle queue -/

/-- A limit of 10 on memory, and overcommit. -/
def memoryTen : State := newQueue (fun | RES_MEMORY_LIMIT => some 10 | _ => none) true 0

/-- A limit of 100 on cost, no overcommit; a portal of cost 60 holds the queue, one of cost 50
waits, and the limit is lowered to 40 before the holder leaves. -/
def lowered : List Event :=
  [.lock ⟨1, 1⟩ (portalIncrements 1 60 1), .lock ⟨2, 1⟩ (portalIncrements 1 50 1),
    .alter (costLimit 40) false 0, .release ⟨1, 1⟩]

/-- **Stranded waiters**: a portal that needs more memory than an overcommit queue has waits
although nobody holds the queue; and a portal waits for ever when the cost limit is lowered below
its cost. -/
theorem waiter_stranded : (∃ s, runSteps step [.lock ⟨1, 1⟩ (portalIncrements 1 1 20)] memoryTen =
      some s ∧ granted s = [] ∧ s.waitProcs = [⟨1, 1⟩]) ∧
    ∃ s, runSteps step lowered (newQueue (costLimit 100) false 0) = some s ∧
      granted s = [] ∧ s.waitProcs = [⟨2, 1⟩] := by
  have hfirst : ((runSteps step [.lock ⟨1, 1⟩ (portalIncrements 1 1 20)] memoryTen).map
      fun s => ((granted s).map fst, s.waitProcs)) = some ([], [⟨1, 1⟩]) := by decide +kernel
  have hsecond : ((runSteps step lowered (newQueue (costLimit 100) false 0)).map
      fun s => ((granted s).map fst, s.waitProcs)) = some ([], [⟨2, 1⟩]) := by decide +kernel
  obtain ⟨s, hs, heq⟩ := Option.map_eq_some_iff.1 hfirst
  obtain ⟨s', hs', heq'⟩ := Option.map_eq_some_iff.1 hsecond
  exact ⟨⟨s, hs, map_eq_nil_iff.1 (mk.inj heq).1, (mk.inj heq).2⟩,
    ⟨s', hs', map_eq_nil_iff.1 (mk.inj heq').1, (mk.inj heq').2⟩⟩

end PolemoDB.Resscheduler
