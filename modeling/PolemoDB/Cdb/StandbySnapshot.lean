import PolemoDB.Cdb.Gxid
import PolemoDB.Cdb.StandbyReplay

/-!
# Distributed snapshots of a hot standby

The primary inserts the records of its two-phase transactions in any order of the gxids, other
transactions end without a record, and a checkpoint inserts a value of `latestCompletedGxid` some
time after it was read.

* `standby_snapshots` — when the snapshots of the standby can be trusted.
-/

namespace PolemoDB.Cdb

open PolemoDB.Lib Gxid List

/-! ## The primary -/

/-- A session of the primary. -/
inductive GxactPhase
  | idle
  | active (gxid : Nat)
  /-- the commit record is inserted -/
  | committed (gxid : Nat)
  /-- the forget record is inserted -/
  | forgotten (gxid : Nat)
  deriving DecidableEq, Repr

open GxactPhase

/-- The gxid of a session, or 0. -/
def GxactPhase.gxid : GxactPhase → Nat
  | .idle => 0
  | .active g | .committed g | .forgotten g => g

/-- The gxid of a session between its two records. -/
def GxactPhase.committed? : GxactPhase → Option Nat
  | .committed g => some g
  | _ => none

/-- The primary coordinator; `noted` is the value that a checkpoint has read and not inserted yet.
-/
structure Primary where
  nextGxid : Nat
  latestCompletedGxid : Nat
  procs : List GxactPhase
  noted : Option Nat
  wal : List GxactRecord
  deriving DecidableEq, Repr

/-- What happens. -/
inductive PrimaryEvent
  | activate (i : Nat)
  | insertCommit (i : Nat)
  | insertForget (i : Nat)
  /-- `ProcArrayEndGxact`: after the forget record, or of a transaction without records -/
  | endGxact (i : Nat)
  | readLatestCompleted
  | insertLatestCompleted
  deriving DecidableEq, Repr

namespace Primary

/-- `StartupXLOG`. -/
def startup {p : GxidPrefetch} (n : StartupGxid p) (numProcs : Nat) : Primary where
  nextGxid := n.nextGxid
  latestCompletedGxid := n.nextGxid
  procs := List.replicate numProcs .idle
  noted := none
  wal := []

/-- `ProcArrayEndGxact`. -/
def endGxact (s : Primary) (i gxid : Nat) : Primary := { s with
    procs := s.procs.set i .idle
    latestCompletedGxid := if s.latestCompletedGxid < gxid then gxid else s.latestCompletedGxid }

/-- One event; `bumpGxid` has stopped the coordinator before the last gxids. -/
def step (p : GxidPrefetch) (s : Primary) : PrimaryEvent → Option Primary
  | .activate i =>
    match s.procs[i]? with
    | some .idle =>
      if s.nextGxid + 1 < LastDistributedTransactionId - p.num then
        some { s with nextGxid := s.nextGxid + 1, procs := s.procs.set i (.active s.nextGxid) }
      else none
    | _ => none
  | .insertCommit i =>
    match s.procs[i]? with
    | some (.active g) => some { s with
      procs := s.procs.set i (.committed g), wal := s.wal ++ [.commit g] }
    | _ => none
  | .insertForget i =>
    match s.procs[i]? with
    | some (.committed g) =>
      some { s with procs := s.procs.set i (.forgotten g), wal := s.wal ++ [.forget g] }
    | _ => none
  | .endGxact i =>
    match s.procs[i]? with
    | some (.active g) => some (s.endGxact i g)
    | some (.forgotten g) => some (s.endGxact i g)
    | _ => none
  | .readLatestCompleted => some { s with noted := some s.latestCompletedGxid }
  | .insertLatestCompleted =>
    match s.noted with
    | some g => some { s with noted := none, wal := s.wal ++ [.latestCompleted g] }
    | none => none

end Primary

/-! ## Runs of the primary -/

namespace Primary

variable {p : GxidPrefetch} {maxTmGxacts : Nat} {s s' : Primary}

/-- No gxid is of two sessions. -/
def Distinct (procs : List GxactPhase) : Prop :=
  ∀ (j k : Nat) t t', procs[j]? = some t → procs[k]? = some t' → t.gxid ≠ 0 → t.gxid = t'.gxid →
  j = k

/-- What every event keeps. -/
structure Inv (p : GxidPrefetch) (maxTmGxacts : Nat) (s : Primary) : Prop where
  one_le : 1 ≤ s.nextGxid
  next_lt : s.nextGxid < LastDistributedTransactionId - p.num
  numProcs : s.procs.length ≤ maxTmGxacts
  below : ∀ t ∈ s.procs, t.gxid < s.nextGxid
  pos : ∀ t ∈ s.procs, t = .idle ∨ 0 < t.gxid
  distinct : Distinct s.procs
  active : ∀ g, .active g ∈ s.procs → .commit g ∉ s.wal ∧ .forget g ∉ s.wal
  committed : ∀ g, .committed g ∈ s.procs ↔ .commit g ∈ s.wal ∧ .forget g ∉ s.wal
  recorded : ∀ g, .commit g ∈ s.wal ∨ .forget g ∈ s.wal → g < s.nextGxid
  latest_le : s.latestCompletedGxid ≤ s.nextGxid
  noted_le : ∀ g, s.noted = some g → g ≤ s.nextGxid
  log : PrimaryLog maxTmGxacts s.wal

variable {procs : List GxactPhase} {i g : Nat} {a t : GxactPhase}

theorem mem_set_cases (h : t ∈ procs.set i a) : t = a ∨ ∃ j, j ≠ i ∧ procs[j]? = some t := by
  obtain ⟨j, hj⟩ := mem_iff_getElem?.mp h
  rcases getElem?_set_cases hj with ⟨-, rfl⟩ | hold
  · exact .inl rfl
  · exact .inr ⟨j, hold⟩

theorem mem_set_of_ne {u : GxactPhase} (ht : t ∈ procs) (hi : procs[i]? = some u) (hne : t ≠ u) :
    t ∈ procs.set i a := by
  obtain ⟨j, hj⟩ := mem_iff_getElem?.mp ht
  have hij : i ≠ j := fun heq => by
    rw [← heq, hi] at hj
    exact hne (Option.some.inj hj).symm
  exact mem_of_getElem? ((getElem?_set_ne hij).trans hj)

theorem Distinct.set (h : Distinct procs) (i : Nat)
    (ha : ∀ (j : Nat) t, j ≠ i → procs[j]? = some t → t.gxid ≠ 0 → t.gxid ≠ a.gxid) :
    Distinct (procs.set i a) := by
  intro j k t t' hj hk h0 heq
  rw [getElem?_set] at hj hk
  by_cases hji : i = j
  · by_cases hki : i = k
    · exact hji.symm.trans hki
    rw [if_pos hji] at hj
    rw [if_neg hki] at hk
    split at hj <;> cases hj
    · exact absurd heq.symm (ha k t' (fun h => hki h.symm) hk (heq ▸ h0))
  by_cases hki : i = k
  · rw [if_neg hji] at hj
    rw [if_pos hki] at hk
    split at hk <;> cases hk
    · exact absurd heq (ha j t (fun h => hji h.symm) hj h0)
  · rw [if_neg hji] at hj
    rw [if_neg hki] at hk
    exact h j k t t' hj hk h0 heq

theorem Inv.startup (n : StartupGxid p) {numProcs : Nat} (hnum : numProcs ≤ maxTmGxacts) :
    Inv p maxTmGxacts (startup n numProcs) := by
  have hidle : ∀ t ∈ replicate numProcs idle, t = .idle := fun t ht => eq_of_mem_replicate ht
  refine ⟨n.one_le, n.lt, ?_, fun t ht => ?_, fun t ht => .inl (hidle t ht),
    fun j k t t' hj _ h0 => ?_, fun g hg => ?_, fun g => ?_,
    fun g hg => ?_, Nat.le_refl _, fun g hg => (nomatch hg), ?_⟩
  · show (replicate numProcs idle).length ≤ maxTmGxacts
    rw [length_replicate]
    exact hnum
  · rw [hidle t ht]
    exact n.one_le
  · exact absurd (congrArg gxid (hidle t (mem_of_getElem? hj))) h0
  · cases hidle _ hg
  · refine ⟨fun hg => ?_, fun hg => absurd hg.1 not_mem_nil⟩
    cases hidle _ hg
  · exact absurd hg (not_or.mpr ⟨not_mem_nil, not_mem_nil⟩)
  · refine ⟨fun k g hk => (nomatch hk), fun k g hk => (nomatch hk), nofun, fun k => ⟨.init, ?_⟩⟩
    show Replayed maxTmGxacts (take k []) .init
    rw [take_nil]
    exact Replayed.init maxTmGxacts

section

variable (h : Inv p maxTmGxacts s)
include h

theorem Inv.gxid_ne {j : Nat} {t' : GxactPhase} (hi : s.procs[i]? = some t)
    (hj : s.procs[j]? = some t') (hne : j ≠ i) (h0 : t'.gxid ≠ 0) : t'.gxid ≠ t.gxid :=
  fun heq => hne (h.distinct j i t' t hj hi h0 heq)

theorem Inv.step_activate (hi : s.procs[i]? = some .idle)
    (hlt : s.nextGxid + 1 < LastDistributedTransactionId - p.num) :
    Inv p maxTmGxacts { s with
      nextGxid := s.nextGxid + 1, procs := s.procs.set i (.active s.nextGxid) } where
  one_le := Nat.le_add_left 1 _
  next_lt := hlt
  numProcs := by
    rw [length_set]
    exact h.numProcs
  below := fun t ht => by
    rcases mem_set_cases ht with rfl | ⟨j, -, hj⟩
    · exact Nat.lt_succ_self _
    · exact Nat.lt_succ_of_lt (h.below t (mem_of_getElem? hj))
  pos := fun t ht => by
    rcases mem_set_cases ht with rfl | ⟨j, -, hj⟩
    · exact .inr h.one_le
    · exact h.pos t (mem_of_getElem? hj)
  distinct := h.distinct.set i fun j t _ hj _ => (h.below t (mem_of_getElem? hj)).ne
  active := fun g hg => by
    rcases mem_set_cases hg with heq | ⟨j, -, hj⟩
    · obtain rfl := active.inj heq
      exact ⟨fun hc => (h.recorded _ (.inl hc)).ne rfl, fun hf => (h.recorded _ (.inr hf)).ne rfl⟩
    · exact h.active g (mem_of_getElem? hj)
  committed := fun g => by
    rw [← h.committed]
    constructor
    · intro hg
      rcases mem_set_cases hg with heq | ⟨j, -, hj⟩
      · cases heq
      · exact mem_of_getElem? hj
    · exact fun hg => mem_set_of_ne hg hi nofun
  recorded := fun g hg => Nat.lt_succ_of_lt (h.recorded g hg)
  latest_le := Nat.le_succ_of_le h.latest_le
  noted_le := fun g hg => Nat.le_succ_of_le (h.noted_le g hg)
  log := h.log

/-- Between its two records a gxid is of one session: there is room in the array for the gxid of
another one. -/
theorem Inv.room (hi : s.procs[i]? = some (.active g)) {b : Standby}
    (hb : Replayed maxTmGxacts s.wal b) : b.shmCommittedGxidArray.length < maxTmGxacts := by
  have hsub : b.shmCommittedGxidArray ⊆ s.procs.filterMap committed? := fun g' hg' =>
    mem_filterMap.mpr ⟨_, (h.committed g').mpr ((hb.mem g').mp hg'), rfl⟩
  calc b.shmCommittedGxidArray.length ≤ (s.procs.filterMap committed?).length :=
        (subperm_of_subset hb.holds.nodup hsub).length_le
    _ < s.procs.length := length_filterMap_lt_length_iff_exists.mpr ⟨_, mem_of_getElem? hi, rfl⟩
    _ ≤ maxTmGxacts := h.numProcs

theorem Inv.advance (t' : GxactPhase) (hi : s.procs[i]? = some t) (hgxid : t'.gxid = t.gxid)
    (hidle : t ≠ .idle) :
    (s.procs.set i t').length ≤ maxTmGxacts ∧ (∀ u ∈ s.procs.set i t', u.gxid < s.nextGxid) ∧
      (∀ u ∈ s.procs.set i t', u = .idle ∨ 0 < u.gxid) ∧ Distinct (s.procs.set i t') := by
  have hmem := mem_of_getElem? hi
  refine ⟨by rw [length_set]; exact h.numProcs, fun u hu => ?_, fun u hu => ?_,
    h.distinct.set i fun j u hne hj h0 => ?_⟩
  · rcases mem_set_cases hu with rfl | ⟨j, -, hj⟩
    · rw [hgxid]
      exact h.below t hmem
    · exact h.below u (mem_of_getElem? hj)
  · rcases mem_set_cases hu with rfl | ⟨j, -, hj⟩
    · rw [hgxid]
      exact .inr ((h.pos t hmem).resolve_left hidle)
    · exact h.pos u (mem_of_getElem? hj)
  · rw [hgxid]
    exact h.gxid_ne hi hj hne h0

theorem Inv.step_insertCommit (hi : s.procs[i]? = some (.active g)) :
    Inv p maxTmGxacts { s with
      procs := s.procs.set i (.committed g), wal := s.wal ++ [.commit g] } := by
  have hmem := mem_of_getElem? hi
  have hpos : 0 < g := (h.pos _ hmem).resolve_left nofun
  obtain ⟨hc, hf⟩ := h.active g hmem
  obtain ⟨b, hb⟩ := h.log.replayed s.wal.length
  rw [take_length] at hb
  obtain ⟨hnum, hbelow, hpos', hdist⟩ := h.advance (.committed g) hi rfl nofun
  refine ⟨h.one_le, h.next_lt, hnum, hbelow, hpos', hdist, fun g' hg' => ?_, fun g' => ?_,
    fun g' hg' => ?_, h.latest_le, h.noted_le, ?_⟩
  · rcases mem_set_cases hg' with heq | ⟨j, hne, hj⟩
    · cases heq
    have hg0 : 0 < g' := (h.pos _ (mem_of_getElem? hj)).resolve_left nofun
    have hgg : g' ≠ g := h.gxid_ne hi hj hne hg0.ne'
    obtain ⟨hc', hf'⟩ := h.active g' (mem_of_getElem? hj)
    simp [hc', hf', hgg]
  · by_cases hgg : g' = g
    · subst hgg
      have hlen : i < s.procs.length := (List.getElem?_eq_some_iff.mp hi).1
      refine ⟨fun _ => ⟨by simp, by simp [hf]⟩, fun _ => mem_of_getElem? (getElem?_set_self hlen)⟩
    have hiff : (.commit g' ∈ s.wal ++ [.commit g] ∧ .forget g' ∉ s.wal ++ [.commit g]) ↔
        .commit g' ∈ s.wal ∧ .forget g' ∉ s.wal := by
      simp [hgg]
    rw [hiff, ← h.committed]
    constructor
    · intro hg'
      rcases mem_set_cases hg' with heq | ⟨j, -, hj⟩
      · exact absurd (committed.inj heq) hgg
      · exact mem_of_getElem? hj
    · exact fun hg' => mem_set_of_ne hg' hi nofun
  · by_cases hgg : g' = g
    · rw [hgg]
      exact h.below _ hmem
    · refine h.recorded g' ?_
      simpa [hgg] using hg'
  · refine h.log.concat (fun g' heq => ?_) (fun g' heq => (nomatch heq)) (fun v hv => (nomatch hv))
      (hb.commit (h.room hi hb) hc hf)
    obtain rfl := GxactRecord.commit.inj heq
    exact ⟨hpos, hc, hf⟩

theorem Inv.next_bound : s.nextGxid + 1 < 2 ^ 64 := by
  have hlt := h.next_lt
  unfold LastDistributedTransactionId at hlt
  omega

theorem Inv.step_insertForget (hi : s.procs[i]? = some (.committed g)) :
    Inv p maxTmGxacts { s with
      procs := s.procs.set i (.forgotten g), wal := s.wal ++ [.forget g] } := by
  have hmem := mem_of_getElem? hi
  have hbound := h.below _ hmem
  have hnext := h.next_bound
  obtain ⟨hc, hf⟩ := (h.committed g).mp hmem
  obtain ⟨b, hb⟩ := h.log.replayed s.wal.length
  rw [take_length] at hb
  -- the gxid of another session is another one
  have hother : ∀ t : GxactPhase, t ≠ .idle → (∃ j, j ≠ i ∧ s.procs[j]? = some t) → t.gxid ≠ g := by
    rintro t hidle ⟨j, hne, hj⟩
    exact h.gxid_ne hi hj hne ((h.pos _ (mem_of_getElem? hj)).resolve_left hidle).ne'
  obtain ⟨hnum, hbelow, hpos', hdist⟩ := h.advance (.forgotten g) hi rfl nofun
  refine ⟨h.one_le, h.next_lt, hnum, hbelow, hpos', hdist, fun g' hg' => ?_, fun g' => ?_,
    fun g' hg' => ?_, h.latest_le, h.noted_le, ?_⟩
  · rcases mem_set_cases hg' with heq | hex
    · cases heq
    have hgg : g' ≠ g := hother (.active g') nofun hex
    obtain ⟨j, -, hj⟩ := hex
    obtain ⟨hc', hf'⟩ := h.active g' (mem_of_getElem? hj)
    simp [hc', hf', hgg]
  · constructor
    · intro hg'
      rcases mem_set_cases hg' with heq | hex
      · cases heq
      have hgg : g' ≠ g := hother (.committed g') nofun hex
      obtain ⟨j, -, hj⟩ := hex
      obtain ⟨hc', hf'⟩ := (h.committed g').mp (mem_of_getElem? hj)
      simp [hc', hf', hgg]
    · rintro ⟨hc', hf'⟩
      have hgg : g' ≠ g := fun heq => hf' (by simp [heq])
      have hin : .committed g' ∈ s.procs :=
        (h.committed g').mpr ⟨by simpa using hc', fun hin => hf' (mem_append_left _ hin)⟩
      exact mem_set_of_ne hin hi fun heq => hgg (committed.inj heq)
  · by_cases hgg : g' = g
    · rw [hgg]
      exact hbound
    · refine h.recorded g' ?_
      simpa [hgg] using hg'
  · refine h.log.concat (fun g' heq => (nomatch heq)) (fun g' heq => ?_) (fun v hv => ?_)
      (hb.forget hc hf)
    · obtain rfl := GxactRecord.forget.inj heq
      exact ⟨hc, hf⟩
    · obtain rfl := Option.some.inj hv
      exact Nat.lt_of_le_of_lt (Nat.succ_le_of_lt hbound) (Nat.lt_of_succ_lt hnext)

theorem Inv.step_endGxact (hi : s.procs[i]? = some t)
    (ht : ∀ g, t ≠ .committed g) : Inv p maxTmGxacts (s.endGxact i t.gxid) := by
  have hbound := h.below _ (mem_of_getElem? hi)
  refine ⟨h.one_le, h.next_lt, ?_, fun u hu => ?_, fun u hu => ?_,
    h.distinct.set i fun j u _ _ h0 => h0, fun g hg => ?_, fun g => ?_,
    h.recorded, ?_, h.noted_le, h.log⟩
  · show (s.procs.set i .idle).length ≤ maxTmGxacts
    rw [length_set]
    exact h.numProcs
  · rcases mem_set_cases hu with rfl | ⟨j, -, hj⟩
    · exact h.one_le
    · exact h.below u (mem_of_getElem? hj)
  · rcases mem_set_cases hu with rfl | ⟨j, -, hj⟩
    · exact .inl rfl
    · exact h.pos u (mem_of_getElem? hj)
  · rcases mem_set_cases hg with heq | ⟨j, -, hj⟩
    · cases heq
    · exact h.active g (mem_of_getElem? hj)
  · show .committed g ∈ s.procs.set i .idle ↔ .commit g ∈ s.wal ∧ .forget g ∉ s.wal
    rw [← h.committed]
    constructor
    · intro hg
      rcases mem_set_cases hg with heq | ⟨j, -, hj⟩
      · cases heq
      · exact mem_of_getElem? hj
    · exact fun hg => mem_set_of_ne hg hi fun heq => ht g heq.symm
  · show (if s.latestCompletedGxid < t.gxid then t.gxid else s.latestCompletedGxid) ≤ s.nextGxid
    split
    · exact hbound.le
    · exact h.latest_le

theorem Inv.step_insertLatestCompleted (hg : s.noted = some g) :
    Inv p maxTmGxacts { s with noted := none, wal := s.wal ++ [.latestCompleted g] } := by
  obtain ⟨b, hb⟩ := h.log.replayed s.wal.length
  rw [take_length] at hb
  have hle := h.noted_le g hg
  have hnext := h.next_bound
  refine { h with
    active := fun g' hg' => ?_, committed := fun g' => ?_, recorded := fun g' hg' => ?_,
    noted_le := fun g' hg' => (nomatch hg'), log := ?_ }
  · simpa using h.active g' hg'
  · simpa using h.committed g'
  · exact h.recorded g' (by simpa using hg')
  refine h.log.concat (fun g' heq => (nomatch heq)) (fun g' heq => (nomatch heq)) (fun v hv => ?_)
    (hb.latestCompleted g)
  obtain rfl := Option.some.inj hv
  exact Nat.lt_of_le_of_lt (Nat.succ_le_succ hle) hnext

theorem Inv.step {e : PrimaryEvent} (hstep : step p s e = some s') : Inv p maxTmGxacts s' := by
  cases e <;> simp only [Primary.step] at hstep
  case activate i =>
    split at hstep
    next hi =>
      split at hstep <;> cases hstep
      next hlt => exact h.step_activate hi hlt
    · cases hstep
  case insertCommit i =>
    split at hstep <;> cases hstep
    next hi => exact h.step_insertCommit hi
  case insertForget i =>
    split at hstep <;> cases hstep
    next hi => exact h.step_insertForget hi
  case endGxact i =>
    split at hstep <;> cases hstep
    next hi => exact h.step_endGxact hi (fun _ hc => (nomatch hc))
    next hi => exact h.step_endGxact hi (fun _ hc => (nomatch hc))
  case readLatestCompleted =>
    obtain rfl := Option.some.inj hstep
    exact { h with noted_le := fun g hg => Option.some.inj hg ▸ h.latest_le }
  case insertLatestCompleted =>
    split at hstep <;> cases hstep
    next hnoted => exact h.step_insertLatestCompleted hnoted

end

end Primary

/-- **Snapshots of a hot standby** take for in progress what commits in the log of the primary and
is not forgotten yet, with an xmax that does not fall, just if the records are in the order of the
gxids: a transaction may be overtaken by a later one before its commit record, and
`XLOG_LATESTCOMPLETED_GXID` may set back the value. -/
theorem standby_snapshots (p : GxidPrefetch) (n : StartupGxid p) (numProcs maxTmGxacts : Nat)
    (hnum : numProcs ≤ maxTmGxacts) (events : List PrimaryEvent) (s : Primary)
    (hrun : runSteps (Primary.step p) events (.startup n numProcs) = some s) :
    (∀ k, ∃ ds, SnapshotAt maxTmGxacts s.wal k ds) ∧
    (TracksPrimary maxTmGxacts s.wal ↔ GxidsInOrder s.wal) := by
  have h : Primary.Inv p maxTmGxacts s :=
    runSteps_invariant (fun h hstep => h.step hstep) events (.startup n hnum) hrun
  refine ⟨fun k => ?_, fun ht => ht.inOrder h.log, fun ho => ho.tracksPrimary h.log⟩
  obtain ⟨b, hb⟩ := h.log.replayed k
  exact hb.snapshotAt

/-- One two-phase transaction after the other, with a checkpoint in between. -/
theorem standby_snapshots_run : ∃ s, runSteps (Primary.step ⟨8192, by decide, by decide⟩)
        [.activate 0, .insertCommit 0, .insertForget 0, .endGxact 0, .readLatestCompleted,
          .activate 1, .insertLatestCompleted, .insertCommit 1] (.startup firstStart 2) = some s ∧
      s.wal = [.commit 1, .forget 1, .latestCompleted 1, .commit 2] ∧ TracksPrimary 2 s.wal := by
  have hrun : runSteps (Primary.step ⟨8192, by decide, by decide⟩)
        [.activate 0, .insertCommit 0, .insertForget 0, .endGxact 0, .readLatestCompleted,
          .activate 1, .insertLatestCompleted, .insertCommit 1] (.startup firstStart 2) =
      some ⟨3, 1, [.idle, .committed 2], none,
        [.commit 1, .forget 1, .latestCompleted 1, .commit 2]⟩ := by decide +kernel
  refine ⟨_, hrun, rfl, (standby_snapshots _ firstStart 2 2 le_rfl _ _ hrun).2.mpr
    ⟨fun k g hk => ?_, fun k g hk => ?_⟩⟩
  · rcases k with _ | _ | _ | _ | k
    · simp
    · simp at hk
    · simp at hk
    · obtain rfl : 2 = g := by simpa using hk
      simp [GxactRecord.completed?]
    · simp at hk
  · rcases k with _ | _ | _ | _ | k
    · simp at hk
    · simp at hk
    · obtain rfl : 1 = g := by simpa using hk
      simp [GxactRecord.completed?]
    · simp at hk
    · simp at hk

/-- The gxids 1 and 2 are running when a checkpoint reads the value 1.  After the records of the
gxid 2 the gxid 1, which commits later, is neither listed nor from xmax on, and the record of the
checkpoint sets xmax back from 3 to 2. -/
theorem standby_snapshot_overtaken :
    ∃ s ds ds', runSteps (Primary.step ⟨8192, by decide, by decide⟩)
        [.readLatestCompleted, .activate 0, .activate 1, .insertCommit 1, .insertForget 1,
        .insertLatestCompleted, .insertCommit 0] (.startup firstStart 2) = some s ∧
      s.wal = [.commit 2, .forget 2, .latestCompleted 1, .commit 1] ∧
      SnapshotAt 2 s.wal 2 ds ∧ ds.xmax = 3 ∧ 1 ∉ ds.inProgressXidArray ∧ SnapshotAt 2 s.wal 3 ds' ∧
        ds'.xmax = 2 :=
  ⟨⟨3, 1, [.committed 1, .forgotten 2], none,
    [.commit 2, .forget 2, .latestCompleted 1, .commit 1]⟩, ⟨3, 3, 3, []⟩, ⟨2, 2, 2, []⟩,
    by decide +kernel, rfl, ⟨⟨[], 2⟩, by decide +kernel, [], [], 0, nofun, by decide +kernel⟩, rfl,
    not_mem_nil, ⟨⟨[], 1⟩, by decide +kernel, [], [], 0, nofun, by decide +kernel⟩, rfl⟩

end PolemoDB.Cdb
