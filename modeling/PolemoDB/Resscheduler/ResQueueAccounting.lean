import PolemoDB.Resscheduler.ResQueue

/-!
# The accounting of a resource queue

`ResLockUpdateLimit` rounds every counter up. With whole increments nothing is rounded and a counter
is the sum of the increments of the granted portals. `ResLockUtilityPortal` locks with the queue's
ignore-cost value, which need not be whole: the counter then is above the sum, and what was rounded
up stays when the portal is released.

Principal results: `accounted_stable` (what one event keeps) and `accounting_iff`.
-/

namespace PolemoDB.Resscheduler

open PolemoDB.Lib ResLimitType

/-- Every increment is a whole number. -/
def Whole (inc : Increments) : Prop := ∀ i, ∃ n : ℕ, inc i = n

/-- The counters are the sums over the granted portals, and all increments are whole. -/
structure Accounted (s : State) : Prop where
  sum : ∀ i, s.queue.current_value i = total s fun e => e.2 i
  whole : ∀ e ∈ s.increments, Whole e.2

theorem total_whole {s : State} (h : ∀ e ∈ s.increments, Whole e.2) (i : ResLimitType) :
    ∃ n : ℕ, (total s fun e => e.2 i) = n := by
  have key (l : List (ResPortalTag × Increments)) (hl : ∀ e ∈ l, Whole e.2) :
      ∃ n : ℕ, (l.map fun e => e.2 i).sum = n := by
    induction l with
    | nil => exact ⟨0, by simp⟩
    | cons e l ih =>
      obtain ⟨hd, tl⟩ := List.forall_mem_cons.1 hl
      obtain ⟨m, hm⟩ := hd i
      obtain ⟨n, hn⟩ := ih tl
      exact ⟨m + n, by rw [List.map_cons, List.sum_cons, hm, hn, Nat.cast_add]⟩
  exact key _ fun e he => h e (List.mem_of_mem_filter he)

theorem update_of_whole {x : ℚ} {n : ℕ} (h : x = n) : max (⌈x⌉ : ℚ) 0 = x := by
  subst h
  rw [Int.ceil_natCast, Int.cast_natCast, max_eq_left (Nat.cast_nonneg n)]

theorem Accounted.add {s s' : State} (h : Accounted s) {inc : Increments} (hinc : Whole inc)
    (hqueue : s'.queue = resLockUpdateLimit s.queue inc true)
    (htotal : ∀ i, (total s' fun e => e.2 i) = (total s fun e => e.2 i) + inc i)
    (hwhole : ∀ e ∈ s'.increments, Whole e.2) : Accounted s' where
  sum := by
    intro i
    obtain ⟨m, hm⟩ := total_whole h.whole i
    obtain ⟨n, hn⟩ := hinc i
    have hsum : s.queue.current_value i + inc i = ((m + n : ℕ) : ℚ) := by
      rw [h.sum, hm, hn, Nat.cast_add]
    rw [hqueue, htotal, ← h.sum]
    exact update_of_whole hsum
  whole := hwhole

/-- **The accounting is kept** by whatever happens to one portal. -/
theorem accounted_stable : Stable Whole Accounted where
  grantNew := by
    intro s t inc hi h ht hinc
    exact h.add hinc rfl (fun i => total_grantNew hi ht inc _)
      (List.forall_mem_cons.2 ⟨hinc, h.whole⟩)
  waitNew := by
    intro s t inc _ h ht hinc
    refine ⟨fun i => ?_, List.forall_mem_cons.2 ⟨hinc, h.whole⟩⟩
    rw [total_waitNew ht]
    exact h.sum i
  wake := by
    intro s w inc hi h hw hinc
    exact h.add (h.whole _ hinc) rfl (fun i => total_wake hi hw hinc _) h.whole
  dropWaiting := by
    intro s w _ h hw
    refine ⟨fun i => ?_, fun e he => h.whole e (mem_without.1 he).1⟩
    rw [total_dropWaiting hw]
    exact h.sum i
  ungrant := by
    intro s t inc hi h ht hinc
    have hafter : ∀ e ∈ (resIncrementRemove (ungrant s t inc) t).increments, Whole e.2 :=
      fun e he => h.whole e (mem_without.1 he).1
    refine ⟨fun i => ?_, hafter⟩
    obtain ⟨n, hn⟩ := total_whole hafter i
    have hsum : s.queue.current_value i + -1 * inc i =
        total (resIncrementRemove (ungrant s t inc) t) fun e => e.2 i := by
      rw [h.sum, total_ungrant hi ht hinc fun e => e.2 i]
      ring
    rw [← hsum]
    exact update_of_whole (hsum.trans hn)
  alter := by
    intro s limits overcommit ignorelimit h
    refine ⟨fun i => ?_, h.whole⟩
    have : (resAlterQueue s.queue limits overcommit ignorelimit).current_value =
        s.queue.current_value := by
      unfold resAlterQueue
      split <;> rfl
    rw [this]
    exact h.sum i

/-! ## Runs -/

/-- Increments as `ResLockPortal` takes them. -/
def portalIncrements (count cost memory : ℕ) : Increments
  | RES_COUNT_LIMIT => count
  | RES_COST_LIMIT => cost
  | RES_MEMORY_LIMIT => memory

/-- Increments of `ResLockUtilityPortal`. -/
def utilityIncrements (ignoreCostLimit : ℚ) : Increments
  | RES_COUNT_LIMIT => 1
  | RES_COST_LIMIT => ignoreCostLimit
  | RES_MEMORY_LIMIT => 0

/-- Every portal of the run is locked by `ResLockPortal`, or by `ResLockUtilityPortal` with an
ignore-cost value out of `costs`. -/
def LocksWith (costs : Set ℚ≥0) (evs : List Event) : Prop :=
  ∀ t inc, .lock t inc ∈ evs → (∃ count cost memory, inc = portalIncrements count cost memory) ∨
    ∃ c ∈ costs, inc = utilityIncrements c

/-- The counters are the sums of the increments of the granted portals, and 0 if there are none. -/
def Balanced (s : State) : Prop :=
  (∀ i, s.queue.current_value i = ((granted s).map fun e => e.2 i).sum) ∧
    (granted s = [] → ∀ i, s.queue.current_value i = 0)

theorem Accounted.balanced {s : State} (h : Accounted s) : Balanced s := by
  refine ⟨h.sum, fun hnone i => ?_⟩
  rw [h.sum]
  show ((granted s).map fun e => e.2 i).sum = 0
  rw [hnone]
  rfl

theorem whole_portalIncrements (count cost memory : ℕ) : Whole (portalIncrements count cost memory)
  | RES_COUNT_LIMIT => ⟨count, rfl⟩
  | RES_COST_LIMIT => ⟨cost, rfl⟩
  | RES_MEMORY_LIMIT => ⟨memory, rfl⟩

theorem whole_utilityIncrements {c : ℚ} (h : ∃ n : ℕ, c = n) : Whole (utilityIncrements c)
  | RES_COUNT_LIMIT => ⟨1, Nat.cast_one.symm⟩
  | RES_COST_LIMIT => h
  | RES_MEMORY_LIMIT => ⟨0, Nat.cast_zero.symm⟩

theorem accounted_newQueue (limits : ResLimitType → Option ℚ) (overcommit : Bool)
    (ignorelimit : ℚ) : Accounted (newQueue limits overcommit ignorelimit) :=
  ⟨fun i => by simp [newQueue, total, heldSum], by simp [newQueue]⟩

theorem step_lock_utility (c : ℚ) :
    step (newQueue (fun _ => none) false c) (.lock ⟨1, 0⟩ (utilityIncrements c)) =
      some (grantNew (newQueue (fun _ => none) false c) ⟨1, 0⟩ (utilityIncrements c)) := by
  have hcost : ¬ utilityIncrements c RES_COST_LIMIT <
      (newQueue (fun _ => none) false c).queue.ignorecostlimit :=
    lt_irrefl c
  rw [step, if_pos (by rfl), execute, resLockAcquire_eq (inv_newQueue _ _ _) (by simp [newQueue]),
    if_neg hcost]
  rfl

theorem utility_rounds {c : ℚ≥0} (h : ∀ s, runSteps step [.lock ⟨1, 0⟩ (utilityIncrements c)]
    (newQueue (fun _ => none) false c) = some s → Balanced s) : ∃ n : ℕ, c = n := by
  have hrun : runSteps step [.lock ⟨1, 0⟩ (utilityIncrements c)]
      (newQueue (fun _ => none) false c) =
      some (grantNew (newQueue (fun _ => none) false c) ⟨1, 0⟩ (utilityIncrements c)) := by
    rw [runSteps, step_lock_utility]
    rfl
  have hvalue : max (⌈(0 : ℚ) + c⌉ : ℚ) 0 = (c : ℚ) + 0 := (h _ hrun).1 RES_COST_LIMIT
  have hnonneg : 0 ≤ ⌈(c : ℚ)⌉ := Int.ceil_nonneg c.2
  rw [zero_add, add_zero, max_eq_left (by exact_mod_cast hnonneg)] at hvalue
  refine ⟨⌈(c : ℚ)⌉.toNat, NNRat.coe_inj.1 ?_⟩
  rw [NNRat.cast_natCast, ← Int.cast_natCast, Int.toNat_of_nonneg hnonneg, hvalue]

/-- **Resource-queue accounting**: the counters are exact in every run, whatever the thresholds and
their changes, exactly if no ignore-cost value has a fraction. -/
theorem accounting_iff (costs : Set ℚ≥0) :
    (∀ limits overcommit ignorelimit evs s, LocksWith costs evs →
        runSteps step evs (newQueue limits overcommit ignorelimit) = some s → Balanced s) ↔
      ∀ c ∈ costs, ∃ n : ℕ, c = n := by
  constructor
  · intro h c hc
    refine utility_rounds fun s hrun => h _ _ _ _ s ?_ hrun
    intro t inc hmem
    obtain ⟨rfl, rfl⟩ : t = ⟨1, 0⟩ ∧ inc = utilityIncrements c := by simpa using hmem
    exact .inr ⟨c, hc, rfl⟩
  intro h limits overcommit ignorelimit evs s hlocks hrun
  have hwhole : ∀ t inc, .lock t inc ∈ evs → Whole inc := by
    intro t inc hmem
    rcases hlocks t inc hmem with ⟨count, cost, memory, rfl⟩ | ⟨c, hc, rfl⟩
    · exact whole_portalIncrements count cost memory
    · obtain ⟨n, rfl⟩ := h c hc
      exact whole_utilityIncrements ⟨n, by simp⟩
  exact (accounted_stable.run hwhole (inv_newQueue _ _ _) (accounted_newQueue _ _ _)
    hrun).2.balanced

/-- With an ignore-cost value of 100 the counters are exact. -/
theorem accounting_hundred : (100 : ℚ≥0) ∈ ({100} : Set ℚ≥0) ∧
      ∀ limits overcommit ignorelimit evs s, LocksWith {100} evs →
        runSteps step evs (newQueue limits overcommit ignorelimit) = some s → Balanced s := by
  refine ⟨rfl, (accounting_iff {100}).2 fun c hc => ⟨100, ?_⟩⟩
  rw [Set.mem_singleton_iff.1 hc, Nat.cast_ofNat]

/-- **An ignore-cost value of 0.5**: a utility portal is locked and released, and 1 stays in the
cost counter of a queue that nobody holds. -/
theorem utility_leaks : ∃ s,
    runSteps step [.lock ⟨1, 0⟩ (utilityIncrements (1 / 2)), .release ⟨1, 0⟩]
        (newQueue (fun _ => none) false (1 / 2)) = some s ∧
      granted s = [] ∧ s.queue.current_value RES_COST_LIMIT = 1 ∧ ¬ Balanced s := by
  let s := grantNew (newQueue (fun _ => none) false (1 / 2)) ⟨1, 0⟩ (utilityIncrements (1 / 2))
  have hi : Inv s := (inv_newQueue _ _ _).grantNew (by simp [newQueue]) _
  have hvalue : (ungrant s ⟨1, 0⟩ (utilityIncrements (1 / 2))).queue.current_value RES_COST_LIMIT =
      1 := by
    decide +kernel
  refine ⟨resIncrementRemove (ungrant s ⟨1, 0⟩ (utilityIncrements (1 / 2))) ⟨1, 0⟩, ?_, rfl, hvalue,
    fun h => ?_⟩
  · rw [runSteps, step_lock_utility, Option.bind_some, runSteps]
    rfl
  · exact absurd (hvalue.symm.trans (h.2 rfl RES_COST_LIMIT)) one_ne_zero

end PolemoDB.Resscheduler
