import PolemoDB.Cdb.LocalDistribXact
import PolemoDB.Lib.Transition

/-!
# What a distributed snapshot says about a local transaction

`DistributedSnapshotWithLocalMapping_CommittedTest` looks a local xid up in three places before it
reads the distributed log: in the xids the snapshot has already found to be in progress, in the
cache of the process, and, by an early exit, in the sorted array of the snapshot.

* `DistributedSnapshot.answer` — what the test is to say, of the gxid alone;
* `committedTest_answers` — every test says what the gxid alone determines.
-/

namespace PolemoDB.Cdb

open PolemoDB.Lib PolemoDB.Transam List

/-! ## Snapshots -/

/-- `DistributedSnapshot`, with what its creator guarantees. -/
structure DistributedSnapshot where
  xminAllDistributedSnapshots : DistributedTransactionId
  xmin : DistributedTransactionId
  xmax : DistributedTransactionId
  inProgressXidArray : List DistributedTransactionId
  xminAll_le : xminAllDistributedSnapshots ≤ xmin
  xmin_le : xmin ≤ xmax
  ascending : inProgressXidArray.Pairwise (· ≤ ·)
  between : ∀ g ∈ inProgressXidArray, xmin ≤ g ∧ g < xmax

open DistributedSnapshot

/-- `DistributedSnapshotCommitted`, of the values that are returned. -/
inductive DistributedSnapshotCommitted
  | inProgress
  | visible
  | unknown
  | ignore
  deriving DecidableEq, Repr

/-- `DistributedSnapshotWithLocalMapping`: the array holds the local xids counted by
`currentLocalXidsCount`. -/
structure DistributedSnapshotWithLocalMapping where
  ds : DistributedSnapshot
  minCachedLocalXid : TransactionId
  maxCachedLocalXid : TransactionId
  inProgressMappedLocalXids : List TransactionId

inductive CommittedTestError
  | log (e : DistributedLog.Error)
  | cache (e : CacheError)
  deriving DecidableEq, Repr

namespace DistributedSnapshot

/-- What is to be said about a gxid. -/
def answerOf (ds : DistributedSnapshot) : Option DistributedTransactionId →
    DistributedSnapshotCommitted
  | none => .unknown
  | some g =>
    if g < ds.xminAllDistributedSnapshots then .ignore
    else if ds.xmax ≤ g ∨ g ∈ ds.inProgressXidArray then .inProgress
    else .visible

/-- What is to be said about a local xid, given the gxids that are logged. -/
def answer (ds : DistributedSnapshot) (logged : TransactionId → Option DistributedTransactionId)
    (localXid : TransactionId) : DistributedSnapshotCommitted :=
  if localXid.isNormal then ds.answerOf (logged localXid) else .ignore

/-- The loop over `inProgressXidArray`: `true` if it finds the gxid. -/
def scan (distribXid : DistributedTransactionId) : List DistributedTransactionId → Bool
  | [] => false
  | g :: gs => if distribXid = g then true else if distribXid < g then false else scan distribXid gs

/-- The early exit of the loop loses nothing, since the array is ascending. -/
theorem scan_eq (distribXid : DistributedTransactionId) {gs : List DistributedTransactionId}
    (h : gs.Pairwise (· ≤ ·)) : scan distribXid gs = decide (distribXid ∈ gs) := by
  fun_induction scan distribXid gs with
  | case1 => rfl
  | case2 gs => exact (decide_eq_true mem_cons_self).symm
  | case3 g gs heq hlt =>
    refine (decide_eq_false fun hmem => ?_).symm
    have hge := (pairwise_cons.mp h).1 _ ((mem_cons.mp hmem).resolve_left heq)
    exact absurd hge (BitVec.not_le.mpr hlt)
  | case4 g gs heq _ ih =>
    rw [ih h.of_cons]
    exact decide_eq_decide.mpr
      ⟨mem_cons_of_mem g, fun hmem => (mem_cons.mp hmem).resolve_left heq⟩

end DistributedSnapshot

/-! ## The test -/

namespace DistributedSnapshotWithLocalMapping

/-- `SnapshotResetDslm`, and the distributed snapshot that is then filled in. -/
def reset (ds : DistributedSnapshot) : DistributedSnapshotWithLocalMapping :=
  ⟨ds, InvalidTransactionId, InvalidTransactionId, []⟩

variable (dslm : DistributedSnapshotWithLocalMapping)

/-- The first part of the test: the local xids that were found in progress by earlier tests. -/
def isMapped (localXid : TransactionId) : Bool :=
  decide (0 < dslm.inProgressMappedLocalXids.length) &&
    (decide (localXid = dslm.minCachedLocalXid) || decide (localXid = dslm.maxCachedLocalXid) ||
      (localXid.follows dslm.minCachedLocalXid && localXid.precedes dslm.maxCachedLocalXid &&
        dslm.inProgressMappedLocalXids.any fun xid => decide (localXid = xid)))

/-- A local xid is kept as long as there is room. -/
def addMapped (localXid : TransactionId) : DistributedSnapshotWithLocalMapping :=
  if dslm.inProgressMappedLocalXids.length < dslm.ds.inProgressXidArray.length then
    { dslm with
      inProgressMappedLocalXids := dslm.inProgressMappedLocalXids ++ [localXid]
      minCachedLocalXid :=
        if dslm.minCachedLocalXid = InvalidTransactionId || localXid.precedes dslm.minCachedLocalXid
        then localXid
        else dslm.minCachedLocalXid
      maxCachedLocalXid :=
        if dslm.maxCachedLocalXid = InvalidTransactionId || localXid.follows dslm.maxCachedLocalXid
        then localXid
        else dslm.maxCachedLocalXid }
  else dslm

/-- The last part of the test, of the gxid. -/
def compare (localXid : TransactionId)
    (distribXid : DistributedTransactionId) (isVacuumCheck : Bool) :
    DistributedSnapshotCommitted × DistributedSnapshotWithLocalMapping :=
  if distribXid < dslm.ds.xminAllDistributedSnapshots then (.ignore, dslm)
  else if isVacuumCheck then (.inProgress, dslm)
  else if distribXid < dslm.ds.xmin then (.visible, dslm)
  else if dslm.ds.xmax ≤ distribXid then (.inProgress, dslm)
  else if scan distribXid dslm.ds.inProgressXidArray then (.inProgress, dslm.addMapped localXid)
  else (.visible, dslm)

end DistributedSnapshotWithLocalMapping

def findDistribXid (limit : Nat) (log : DistributedLog) (cache : LocalDistribXactCache)
    (localXid : TransactionId) :
    Except CommittedTestError (Option DistributedTransactionId × LocalDistribXactCache) :=
  match cache.committedFind limit localXid with
  | (some distribXid, cache) => .ok (some distribXid, cache)
  | (none, cache) => do
    match ← (log.committedCheck localXid).mapError .log with
    | some distribXid =>
      let cache ← (cache.addCommitted limit localXid distribXid).mapError .cache
      return (some distribXid, cache)
    | none => return (none, cache)

/-- `DistributedSnapshotWithLocalMapping_CommittedTest`. -/
def committedTest (limit : Nat) (log : DistributedLog) (cache : LocalDistribXactCache)
    (dslm : DistributedSnapshotWithLocalMapping) (localXid : TransactionId) (isVacuumCheck : Bool) :
    Except CommittedTestError
      (DistributedSnapshotCommitted × DistributedSnapshotWithLocalMapping ×
      LocalDistribXactCache) :=
  if !localXid.isNormal then .ok (.ignore, dslm, cache)
  else if dslm.isMapped localXid then .ok (.inProgress, dslm, cache)
  else do
    match ← findDistribXid limit log cache localXid with
    | (none, cache) => return (.unknown, dslm, cache)
    | (some distribXid, cache) =>
      let (result, dslm) := dslm.compare localXid distribXid isVacuumCheck
      return (result, dslm, cache)

/-! ## One test -/

variable {limit : Nat} {log : DistributedLog} {cache : LocalDistribXactCache}
  {dslm : DistributedSnapshotWithLocalMapping} {f f' : TransactionId →
  Option DistributedTransactionId}

/-- Every xid that a snapshot has kept belongs to a gxid of its array, and both bounds are xids it
has kept. -/
structure DistributedSnapshotWithLocalMapping.Sound (dslm : DistributedSnapshotWithLocalMapping)
    (f : TransactionId → Option DistributedTransactionId) : Prop where
  mapped : ∀ xid ∈ dslm.inProgressMappedLocalXids, ∃ g, f xid = some g ∧
    g ∈ dslm.ds.inProgressXidArray
  min_mem : dslm.inProgressMappedLocalXids ≠ [] →
    dslm.minCachedLocalXid ∈ dslm.inProgressMappedLocalXids
  max_mem : dslm.inProgressMappedLocalXids ≠ [] →
    dslm.maxCachedLocalXid ∈ dslm.inProgressMappedLocalXids
  empty : dslm.inProgressMappedLocalXids = [] →
    dslm.minCachedLocalXid = InvalidTransactionId ∧ dslm.maxCachedLocalXid = InvalidTransactionId
  room : dslm.inProgressMappedLocalXids.length ≤ dslm.ds.inProgressXidArray.length

namespace DistributedSnapshotWithLocalMapping

theorem addMapped_ds (dslm : DistributedSnapshotWithLocalMapping) (localXid : TransactionId) :
    (dslm.addMapped localXid).ds = dslm.ds := by
  unfold addMapped
  split <;> rfl

theorem compare_ds (dslm : DistributedSnapshotWithLocalMapping) (localXid : TransactionId)
    (distribXid : DistributedTransactionId) (isVacuumCheck : Bool) :
    (dslm.compare localXid distribXid isVacuumCheck).2.ds = dslm.ds := by
  unfold compare
  repeat' split
  all_goals first | rfl | exact addMapped_ds dslm localXid

namespace Sound

theorem reset (ds : DistributedSnapshot) :
    (DistributedSnapshotWithLocalMapping.reset ds).Sound f where
  mapped := nofun
  min_mem := fun h => absurd rfl h
  max_mem := fun h => absurd rfl h
  empty := fun _ => ⟨rfl, rfl⟩
  room := Nat.zero_le _

theorem extend (h : dslm.Sound f) (hf : Extends f f') : dslm.Sound f' where
  mapped := fun xid hx => by
    obtain ⟨g, hg, hmem⟩ := h.mapped xid hx
    exact ⟨g, hf xid g hg, hmem⟩
  min_mem := h.min_mem
  max_mem := h.max_mem
  empty := h.empty
  room := h.room

variable {localXid : TransactionId}

theorem of_isMapped (h : dslm.Sound f) (hm : dslm.isMapped localXid = true) :
    ∃ g, f localXid = some g ∧ g ∈ dslm.ds.inProgressXidArray := by
  simp only [isMapped, Bool.and_eq_true, Bool.or_eq_true, decide_eq_true_eq, any_eq_true] at hm
  obtain ⟨hpos, hcases⟩ := hm
  have hne : dslm.inProgressMappedLocalXids ≠ [] := ne_nil_of_length_pos hpos
  rcases hcases with (hmin | hmax) | ⟨-, xid, hx, rfl⟩
  · exact h.mapped _ (hmin ▸ h.min_mem hne)
  · exact h.mapped _ (hmax ▸ h.max_mem hne)
  · exact h.mapped _ hx

section

variable (h : dslm.Sound f) {g : DistributedTransactionId} (hf : f localXid = some g)
include h hf

theorem addMapped (hg : g ∈ dslm.ds.inProgressXidArray) : (dslm.addMapped localXid).Sound f := by
  unfold DistributedSnapshotWithLocalMapping.addMapped
  by_cases hroom : dslm.inProgressMappedLocalXids.length < dslm.ds.inProgressXidArray.length
  · rw [if_pos hroom]
    -- a bound is the new xid, or a bound of before, which is valid only if there were xids before
    have hbound : ∀ {old : TransactionId} {b : Bool},
        (dslm.inProgressMappedLocalXids ≠ [] → old ∈ dslm.inProgressMappedLocalXids) →
        (dslm.inProgressMappedLocalXids = [] → old = InvalidTransactionId) →
        (if (decide (old = InvalidTransactionId) || b) = true then localXid else old) ∈
          dslm.inProgressMappedLocalXids ++ [localXid] := by
      intro old b hold hempty
      split
      · exact mem_append_right _ (mem_singleton.mpr rfl)
      next hc =>
        rw [Bool.or_eq_true, decide_eq_true_eq, not_or] at hc
        exact mem_append_left _ (hold fun he => hc.1 (hempty he))
    refine ⟨forall_mem_append.mpr ⟨h.mapped, forall_mem_singleton.mpr ⟨g, hf, hg⟩⟩,
      fun _ => hbound h.min_mem fun he => (h.empty he).1,
      fun _ => hbound h.max_mem fun he => (h.empty he).2, fun he => ?_, ?_⟩
    · exact absurd he (append_ne_nil_of_right_ne_nil _ (cons_ne_nil _ _))
    · rw [length_append, length_singleton]
      exact hroom
  · rw [if_neg hroom]
    exact h

theorem compare (isVacuumCheck : Bool) : (dslm.compare localXid g isVacuumCheck).2.Sound f ∧
      (isVacuumCheck = false →
      (dslm.compare localXid g isVacuumCheck).1 = dslm.ds.answerOf (some g)) := by
  unfold DistributedSnapshotWithLocalMapping.compare answerOf
  dsimp only
  by_cases hall : g < dslm.ds.xminAllDistributedSnapshots
  · rw [if_pos hall, if_pos hall]
    exact ⟨h, fun _ => rfl⟩
  rw [if_neg hall, if_neg hall]
  cases isVacuumCheck with
  | true => exact ⟨h, nofun⟩
  | false =>
    rw [if_neg Bool.false_ne_true]
    by_cases hmin : g < dslm.ds.xmin
    · -- below xmin, so below xmax and not listed
      have hno : ¬(dslm.ds.xmax ≤ g ∨ g ∈ dslm.ds.inProgressXidArray) := by
        rintro (hmax | hmem)
        · exact BitVec.not_le.mpr hmin (BitVec.le_trans dslm.ds.xmin_le hmax)
        · exact BitVec.not_le.mpr hmin (dslm.ds.between g hmem).1
      rw [if_pos hmin, if_neg hno]
      exact ⟨h, fun _ => rfl⟩
    · rw [if_neg hmin, scan_eq g dslm.ds.ascending]
      by_cases hmax : dslm.ds.xmax ≤ g
      · rw [if_pos hmax, if_pos (.inl hmax)]
        exact ⟨h, fun _ => rfl⟩
      rw [if_neg hmax]
      by_cases hmem : g ∈ dslm.ds.inProgressXidArray
      · rw [if_pos (decide_eq_true hmem), if_pos (.inr hmem)]
        exact ⟨h.addMapped hf hmem, fun _ => rfl⟩
      · rw [if_neg (by rw [decide_eq_false hmem]; decide), if_neg (not_or.mpr ⟨hmax, hmem⟩)]
        exact ⟨h, fun _ => rfl⟩

end

end Sound

end DistributedSnapshotWithLocalMapping

theorem findDistribXid_eq (hlog : log.oldestXmin ≠ InvalidTransactionId) (h : cache.Sound log.held)
    (limit : Nat) (localXid : TransactionId) :
    ∃ cache', findDistribXid limit log cache localXid = .ok (log.held localXid, cache') ∧
    cache'.Sound log.held := by
  obtain ⟨hcache, hhit, hmiss⟩ := h.committedFind limit localXid
  unfold findDistribXid
  rcases hfind : cache.committedFind limit localXid with ⟨found, cache'⟩
  rw [hfind] at hcache hhit hmiss
  cases found with
  | some g => exact ⟨cache', by rw [hhit g rfl], hcache⟩
  | none =>
    rw [DistributedLog.committedCheck_eq hlog]
    cases hheld : log.held localXid with
    | none => exact ⟨cache', rfl, hcache⟩
    | some g =>
      obtain ⟨cache'', hadd, hsound⟩ := hcache.addCommitted (hmiss rfl) hheld
      refine ⟨cache'', ?_, hsound⟩
      show ((cache'.addCommitted limit localXid g).mapError CommittedTestError.cache >>=
        fun cache => .ok (some g, cache)) = _
      rw [hadd]
      rfl

theorem DistributedSnapshot.answerOf_listed (ds : DistributedSnapshot)
    {g : DistributedTransactionId} (hg : g ∈ ds.inProgressXidArray) :
    ds.answerOf (some g) = .inProgress := by
  have hall : ¬(g < ds.xminAllDistributedSnapshots) :=
    BitVec.not_lt.mpr (BitVec.le_trans ds.xminAll_le (ds.between g hg).1)
  unfold answerOf
  dsimp only
  rw [if_neg hall, if_pos (.inr hg)]

theorem DistributedSnapshot.answerOf_ne_visible (ds : DistributedSnapshot)
    {g : DistributedTransactionId} (hg : g < ds.xminAllDistributedSnapshots ∨ ds.xmax ≤ g) :
    ds.answerOf (some g) ≠ .visible := by
  unfold answerOf
  dsimp only
  by_cases hall : g < ds.xminAllDistributedSnapshots
  · rw [if_pos hall]
    decide
  · rw [if_neg hall, if_pos (.inl (hg.resolve_left hall))]
    decide

/-- **One test** says what is to be said, and leaves everything as sound as it was. -/
theorem committedTest_eq (hlog : log.oldestXmin ≠ InvalidTransactionId)
    (hcache : cache.Sound log.held) (hdslm : dslm.Sound log.held) (limit : Nat)
    (localXid : TransactionId) (isVacuumCheck : Bool) :
    ∃ result dslm' cache', committedTest limit log cache dslm localXid isVacuumCheck =
      .ok (result, dslm', cache') ∧
      (isVacuumCheck = false → result = dslm.ds.answer log.held localXid) ∧
      dslm'.ds = dslm.ds ∧ dslm'.Sound log.held ∧ cache'.Sound log.held := by
  unfold committedTest answer
  cases hn : localXid.isNormal with
  | false => exact ⟨_, _, _, rfl, fun _ => rfl, rfl, hdslm, hcache⟩
  | true =>
    rw [if_neg (by decide), if_pos rfl]
    cases hm : dslm.isMapped localXid with
    | true =>
      obtain ⟨g, hg, hmem⟩ := hdslm.of_isMapped hm
      refine ⟨_, _, _, rfl, fun _ => ?_, rfl, hdslm, hcache⟩
      rw [hg, answerOf_listed _ hmem]
    | false =>
      obtain ⟨cache', hfind, hcache'⟩ := findDistribXid_eq hlog hcache limit localXid
      rw [if_neg Bool.false_ne_true, hfind, ok_bind]
      cases hheld : log.held localXid with
      | none => exact ⟨_, _, _, rfl, fun _ => rfl, rfl, hdslm, hcache'⟩
      | some g =>
        obtain ⟨hsound, hanswer⟩ := hdslm.compare hheld isVacuumCheck
        exact ⟨_, _, _, rfl, hanswer, DistributedSnapshotWithLocalMapping.compare_ds _ _ _ _,
          hsound, hcache'⟩

/-! ## All calls of a process -/

/-- A process of a segment: the log of the segment, its cache and its snapshots. -/
structure Segment where
  log : DistributedLog
  cache : LocalDistribXactCache
  snapshots : Nat → DistributedSnapshotWithLocalMapping

open Segment

/-- What happens to a process, and to the log beside it. -/
inductive SegmentEvent
  /-- a snapshot is taken into a place -/
  | take (i : Nat) (ds : DistributedSnapshot)
  /-- `CopySnapshot`, with the local xids kept so far -/
  | copy (i j : Nat)
  | test (i : Nat) (localXid : TransactionId) (isVacuumCheck : Bool)
  /-- a process of the segment writes an entry of the log -/
  | setCommitted (localXid : TransactionId) (distribXid : DistributedTransactionId)

namespace Segment

/-- The snapshot in one place is replaced. -/
def setSnapshot (s : Segment) (i : Nat) (dslm : DistributedSnapshotWithLocalMapping) : Segment :=
  { s with snapshots := fun j => if j = i then dslm else s.snapshots j }

/-- One test of a process. -/
def test (limit : Nat) (s : Segment) (i : Nat) (localXid : TransactionId) (isVacuumCheck : Bool) :
    Except CommittedTestError (DistributedSnapshotCommitted × Segment) := do
  let (result, dslm, cache) ← committedTest limit s.log s.cache (s.snapshots i) localXid
    isVacuumCheck
  return (result, { s.setSnapshot i dslm with cache := cache })

/-- One event; a write that does not match the entry is refused and changes nothing. -/
def step (limit : Nat) (s : Segment) : SegmentEvent → Option Segment
  | .take i ds => some (s.setSnapshot i (.reset ds))
  | .copy i j => some (s.setSnapshot j (s.snapshots i))
  | .test i localXid isVacuumCheck => (s.test limit i localXid isVacuumCheck).toOption.map Prod.snd
  | .setCommitted localXid distribXid =>
    match s.log.setCommitted localXid distribXid with
    | .ok log => some { s with log := log }
    | .error _ => some s

/-- A process that has just started, with any log and any snapshots. -/
def start (log : DistributedLog) (snapshots : Nat → DistributedSnapshot) : Segment :=
  ⟨log, .initial, fun i => .reset (snapshots i)⟩

/-- What all events keep. -/
structure Sound (s : Segment) : Prop where
  log : s.log.oldestXmin ≠ InvalidTransactionId
  cache : s.cache.Sound s.log.held
  snapshots : ∀ i, (s.snapshots i).Sound s.log.held

variable {log : DistributedLog} {s : Segment}

theorem Sound.start (hlog : log.oldestXmin ≠ InvalidTransactionId)
    (snapshots : Nat → DistributedSnapshot) : (start log snapshots).Sound :=
  ⟨hlog, .initial _, fun _ => .reset _⟩

theorem Sound.setSnapshot (h : s.Sound) {dslm : DistributedSnapshotWithLocalMapping}
    (hd : dslm.Sound s.log.held) (i : Nat) : (s.setSnapshot i dslm).Sound := by
  refine ⟨h.log, h.cache, fun j => ?_⟩
  show DistributedSnapshotWithLocalMapping.Sound (if j = i then dslm else s.snapshots j) _
  split
  · exact hd
  · exact h.snapshots j

theorem Sound.test (h : s.Sound) (limit i : Nat) (localXid : TransactionId) (isVacuumCheck : Bool) :
    ∃ result s', s.test limit i localXid isVacuumCheck = .ok (result, s') ∧
      (isVacuumCheck = false → result = (s.snapshots i).ds.answer s.log.held localXid) ∧
      s'.Sound := by
  obtain ⟨result, dslm', cache', heq, hresult, -, hd, hc⟩ :=
    committedTest_eq h.log h.cache (h.snapshots i) limit localXid isVacuumCheck
  refine ⟨result, { s.setSnapshot i dslm' with cache := cache' }, ?_, hresult, h.log, hc,
    (h.setSnapshot hd i).snapshots⟩
  unfold Segment.test
  rw [heq]
  rfl

theorem Sound.step (h : s.Sound) (limit : Nat) (e : SegmentEvent) :
    ∃ s', s.step limit e = some s' ∧ s'.Sound := by
  cases e with
  | take i ds => exact ⟨_, rfl, h.setSnapshot (.reset ds) i⟩
  | copy i j => exact ⟨_, rfl, h.setSnapshot (h.snapshots i) j⟩
  | test i localXid isVacuumCheck =>
    obtain ⟨result, s', heq, -, hs⟩ := h.test limit i localXid isVacuumCheck
    refine ⟨s', ?_, hs⟩
    unfold Segment.step
    dsimp only
    rw [heq]
    rfl
  | setCommitted localXid distribXid =>
    unfold Segment.step
    dsimp only
    cases hset : s.log.setCommitted localXid distribXid with
    | error _ => exact ⟨s, rfl, h⟩
    | ok log =>
      obtain ⟨holdest, hext⟩ := DistributedLog.setCommitted_held hset
      refine ⟨_, rfl, ?_, h.cache.extend hext, fun i => (h.snapshots i).extend hext⟩
      rw [holdest]
      exact h.log

theorem Sound.run (h : s.Sound) (limit : Nat) (es : List SegmentEvent) :
    ∃ s', runSteps (Segment.step limit) es s = some s' ∧ s'.Sound := by
  induction es generalizing s with
  | nil => exact ⟨s, rfl, h⟩
  | cons e es ih =>
    obtain ⟨s₁, hstep, h₁⟩ := h.step limit e
    obtain ⟨s', hrun, h'⟩ := ih h₁
    refine ⟨s', ?_, h'⟩
    rw [runSteps, hstep]
    exact hrun

theorem exists_test_after (hlog : log.oldestXmin ≠ InvalidTransactionId)
    (snapshots : Nat → DistributedSnapshot) (limit : Nat) (events : List SegmentEvent) :
    ∃ s, runSteps (Segment.step limit) events (start log snapshots) = some s ∧
      ∀ i localXid, ∃ s', s.test limit i localXid false =
      .ok ((s.snapshots i).ds.answer s.log.held localXid, s') := by
  obtain ⟨s, hrun, hs⟩ := (Sound.start hlog snapshots).run limit events
  refine ⟨s, hrun, fun i localXid => ?_⟩
  obtain ⟨result, s', heq, hresult, -⟩ := hs.test limit i localXid false
  exact ⟨s', hresult rfl ▸ heq⟩

end Segment

/-- **Every test says what the gxid alone determines**, whatever tests, on whatever snapshots, came
before and whatever the caches hold; so two segments say the same about the parts of one gxid. -/
theorem committedTest_answers (log log₂ : DistributedLog)
    (hlog : log.oldestXmin ≠ InvalidTransactionId)
    (hlog₂ : log₂.oldestXmin ≠ InvalidTransactionId) (snapshots snapshots₂ : Nat →
    DistributedSnapshot) (limit limit₂ : Nat) (events events₂ : List SegmentEvent) :
    ∃ s t, runSteps (step limit) events (.start log snapshots) = some s ∧
      runSteps (step limit₂) events₂ (.start log₂ snapshots₂) = some t ∧
      (∀ i localXid, ∃ s', s.test limit i localXid false =
      .ok ((s.snapshots i).ds.answer s.log.held localXid, s')) ∧
      ∀ i j xid xid₂ g, (s.snapshots i).ds = (t.snapshots j).ds → xid.isNormal = true →
        xid₂.isNormal = true → s.log.held xid = some g → t.log.held xid₂ = some g →
        ∃ result s' t', s.test limit i xid false = .ok (result, s') ∧
        t.test limit₂ j xid₂ false = .ok (result, t') := by
  obtain ⟨s, hrun, hs⟩ := exists_test_after hlog snapshots limit events
  obtain ⟨t, hrun₂, ht⟩ := exists_test_after hlog₂ snapshots₂ limit₂ events₂
  refine ⟨s, t, hrun, hrun₂, hs, fun i j xid xid₂ g hds hx hx₂ hg hg₂ => ?_⟩
  obtain ⟨s', heq⟩ := hs i xid
  obtain ⟨t', heq₂⟩ := ht j xid₂
  refine ⟨_, s', t', heq, ?_⟩
  rw [heq₂, answer, answer, if_pos hx, if_pos hx₂, hg, hg₂, hds]

/-- A snapshot with one gxid in progress. -/
def sampleSnapshot : DistributedSnapshot where
  xminAllDistributedSnapshots := 10
  xmin := 20
  xmax := 30
  inProgressXidArray := [25]
  xminAll_le := by decide
  xmin_le := by decide
  ascending := List.pairwise_singleton _ _
  between := fun g hg => by
    rw [List.mem_singleton.mp hg]
    decide

/-- The xids 7 and 8 belong to the gxid that is in progress; there is room for one of them only. -/
theorem committedTest_answers_sample :
    let log : DistributedLog := ⟨3, fun xid => if xid = 7 ∨ xid = 8 then 25 else 0⟩
    let events : List SegmentEvent :=
      [.test 0 7 false, .test 0 8 false, .copy 0 1, .setCommitted 9 5, .test 1 9 false]
    ∃ s t, runSteps (step 1) events (.start log fun _ => sampleSnapshot) = some s ∧
      runSteps (step 0) [] (.start log fun _ => sampleSnapshot) = some t ∧
      (∀ i localXid, ∃ s', s.test 1 i localXid false =
      .ok ((s.snapshots i).ds.answer s.log.held localXid, s')) ∧
      ∀ i j xid xid₂ g, (s.snapshots i).ds = (t.snapshots j).ds → xid.isNormal = true →
        xid₂.isNormal = true → s.log.held xid = some g → t.log.held xid₂ = some g →
        ∃ result s' t', s.test 1 i xid false = .ok (result, s') ∧
        t.test 0 j xid₂ false = .ok (result, t') :=
  committedTest_answers _ _ (by decide) (by decide) _ _ 1 0 _ []

end PolemoDB.Cdb
