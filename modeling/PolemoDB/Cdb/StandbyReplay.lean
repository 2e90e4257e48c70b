import PolemoDB.Cdb.CreateSnapshot
import PolemoDB.Cdb.DtxRedo

/-!
# The records of distributed transactions on a hot standby

A standby knows the distributed transactions of the primary by three records: the commit and the
forget record of a two-phase transaction, and `XLOG_LATESTCOMPLETED_GXID` of a checkpoint.

* `Standby`, `Standby.redo`, `Standby.replay` — what the records do on the standby
  (`redoDistributedCommitRecord`, `redoDistributedForgetCommitRecord`, `xlog_redo`);
* `TracksPrimary` — a snapshot of the standby takes for in progress what commits in the log and is
  not forgotten yet, and xmax does not fall;

Principal results: `TracksPrimary.inOrder`, `GxidsInOrder.tracksPrimary`.
-/

namespace PolemoDB.Cdb

open PolemoDB.Lib List Option Nat

/-! ## The log -/

/-- The records of distributed transactions that a standby replays. -/
inductive GxactRecord
  | commit (gxid : Nat)
  | forget (gxid : Nat)
  /-- `XLOG_LATESTCOMPLETED_GXID` -/
  | latestCompleted (gxid : Nat)
  deriving DecidableEq, Repr

namespace GxactRecord

/-- The record as recovery of the committed set reads it. -/
def dtx? : GxactRecord → Option WalRecord
  | .commit g => some (.commit g)
  | .forget g => some (.forget g)
  | .latestCompleted _ => none

/-- The value that the record has for `latestCompletedGxid`. -/
def completed? : GxactRecord → Option Nat
  | .commit _ => none
  | .forget g => some g
  | .latestCompleted g => some g

end GxactRecord

/-! ## The standby -/

/-- The shared memory of the standby that a snapshot reads. -/
structure Standby where
  shmCommittedGxidArray : List Nat
  latestCompletedGxid : Nat
  deriving DecidableEq, Repr

open Standby

namespace Standby

/-- `tmShmemInit`. -/
def init : Standby := ⟨[], 0⟩

/-- `redoDistributedForgetCommitRecord` of a hot standby: a gxid that is found is taken out, and
advances `latestCompletedGxid`. -/
def forget (b : Standby) (gxid : Nat) : Standby :=
  if gxid ∈ b.shmCommittedGxidArray then
    { shmCommittedGxidArray := redoDistributedForgetCommitRecord b.shmCommittedGxidArray gxid
      latestCompletedGxid := if b.latestCompletedGxid < gxid then gxid else b.latestCompletedGxid }
  else b

/-- The replay of a record; `none` is the FATAL error at the limit. -/
def redo (maxTmGxacts : Nat) (b : Standby) : GxactRecord → Option Standby
  | .commit g =>
    (redoDistributedCommitRecord maxTmGxacts b.shmCommittedGxidArray g).map fun array =>
      { b with shmCommittedGxidArray := array }
  | .forget g => some (b.forget g)
  | .latestCompleted g => some { b with latestCompletedGxid := g }

def replay (maxTmGxacts : Nat) (recs : List GxactRecord) : Option Standby :=
  runSteps (redo maxTmGxacts) recs init

/-- A snapshot of the session `me`; the sessions of a standby have no gxids. -/
def Snapshot (b : Standby) (ds : CreatedSnapshot) : Prop :=
  ∃ procs procs' me, (∀ t ∈ procs, t.gxid = 0) ∧
    createDistributedSnapshot true b.shmCommittedGxidArray b.latestCompletedGxid procs me =
    .ok (ds, procs')

end Standby

section

variable (maxTmGxacts : Nat)

/-- A snapshot after the first `k` records. -/
def SnapshotAt (wal : List GxactRecord) (k : Nat) (ds : CreatedSnapshot) : Prop :=
  ∃ b, replay maxTmGxacts (wal.take k) = some b ∧ b.Snapshot ds

/-- Every snapshot takes for in progress what commits in the log and is not forgotten yet, and xmax
does not fall. -/
def TracksPrimary (wal : List GxactRecord) : Prop :=
  ∀ k ds, SnapshotAt maxTmGxacts wal k ds →
    (∀ g, .commit g ∈ wal → .forget g ∉ wal.take k → g ∈ ds.inProgressXidArray ∨ ds.xmax ≤ g) ∧
    ∀ k' ds', k' ≤ k → SnapshotAt maxTmGxacts wal k' ds' → ds'.xmax ≤ ds.xmax

/-- The gxid of a commit record is above all values of before it, and the value of an
`XLOG_LATESTCOMPLETED_GXID` record is not below them. -/
structure GxidsInOrder (wal : List GxactRecord) : Prop where
  commit : ∀ (k : Nat) g, wal[k]? = some (.commit g) →
    ∀ r ∈ wal.take k, ∀ v, r.completed? = some v → v < g
  latestCompleted : ∀ (k : Nat) g, wal[k]? = some (.latestCompleted g) →
    ∀ r ∈ wal.take k, ∀ v, r.completed? = some v → v ≤ g

/-! ## The logs that a primary writes -/

/-- The records as recovery of the committed set reads them. -/
def dtxRecords (wal : List GxactRecord) : List WalRecord := wal.filterMap GxactRecord.dtx?

theorem mem_dtxRecords_commit {wal : List GxactRecord} {g : Nat} : .commit g ∈ dtxRecords wal ↔
    .commit g ∈ wal := by
  rw [dtxRecords, mem_filterMap]
  constructor
  · rintro ⟨r, hr, hg⟩
    cases r with
    | commit g' =>
      obtain rfl := WalRecord.commit.inj (some.inj hg)
      exact hr
    | forget g' | latestCompleted g' => cases hg
  · exact fun hr => ⟨_, hr, rfl⟩

theorem mem_dtxRecords_forget {wal : List GxactRecord} {g : Nat} : .forget g ∈ dtxRecords wal ↔
    .forget g ∈ wal := by
  rw [dtxRecords, mem_filterMap]
  constructor
  · rintro ⟨r, hr, hg⟩
    cases r with
    | forget g' =>
      obtain rfl := WalRecord.forget.inj (some.inj hg)
      exact hr
    | commit g' | latestCompleted g' => cases hg
  · exact fun hr => ⟨_, hr, rfl⟩

/-- The standby after the records of a log: its array has the gxids with a commit record and without
a forget record. -/
structure Replayed (recs : List GxactRecord) (b : Standby) : Prop where
  replay : replay maxTmGxacts recs = some b
  holds : Holds (dtxRecords recs) b.shmCommittedGxidArray

/-- A log of a primary: every two-phase transaction has its two records in order and once, no value
is near the end of the gxids, and a standby replays all of it. -/
structure PrimaryLog (wal : List GxactRecord) : Prop where
  commit : ∀ (k : Nat) g, wal[k]? = some (.commit g) → 0 < g ∧ .commit g ∉ wal.take k ∧
    .forget g ∉ wal.take k
  forget : ∀ (k : Nat) g, wal[k]? = some (.forget g) → .commit g ∈ wal.take k ∧
    .forget g ∉ wal.take k
  completed_lt : ∀ r ∈ wal, ∀ v, r.completed? = some v → v + 1 < 2 ^ 64
  replayed : ∀ k, ∃ b, Replayed maxTmGxacts (wal.take k) b

end

section Replay

variable {maxTmGxacts : Nat} {recs wal : List GxactRecord} {b b' : Standby} {g : Nat}

theorem Standby.replay_concat (h : replay maxTmGxacts recs = some b) (r : GxactRecord) :
    replay maxTmGxacts (recs ++ [r]) = b.redo maxTmGxacts r := by
  unfold replay at h ⊢
  rw [runSteps_concat, h, bind_some]

theorem Replayed.mem (h : Replayed maxTmGxacts recs b) (g : Nat) :
    g ∈ b.shmCommittedGxidArray ↔ .commit g ∈ recs ∧ .forget g ∉ recs := by
  rw [h.holds.mem, mem_dtxRecords_commit, mem_dtxRecords_forget]

theorem Replayed.init (maxTmGxacts : Nat) : Replayed maxTmGxacts [] .init where
  replay := rfl
  holds := ⟨nodup_nil, fun _ => ⟨nofun, fun h => absurd h.1 not_mem_nil⟩⟩

section

variable (h : Replayed maxTmGxacts recs b)
include h

theorem Replayed.commit (hroom : b.shmCommittedGxidArray.length < maxTmGxacts)
    (hc : .commit g ∉ recs) (hf : .forget g ∉ recs) :
    Replayed maxTmGxacts (recs ++ [.commit g])
    { b with shmCommittedGxidArray := b.shmCommittedGxidArray ++ [g] } := by
  have hnew : g ∉ b.shmCommittedGxidArray := fun hg => hc ((h.mem g).mp hg).1
  have hredo : redoDistributedCommitRecord maxTmGxacts b.shmCommittedGxidArray g =
      some (b.shmCommittedGxidArray ++ [g]) := by
    rw [redoDistributedCommitRecord, if_neg hnew, if_neg (not_le.mpr hroom)]
  refine ⟨?_, ?_⟩
  · rw [replay_concat h.replay, redo, hredo, map_some]
  have hrecs : dtxRecords (recs ++ [.commit g]) = dtxRecords recs ++ [.commit g] :=
    filterMap_append
  rw [hrecs]
  rcases redoDistributedCommitRecord_exact h.holds hroom.le
    (fun hin => hf (mem_dtxRecords_forget.mp hin)) with
    ⟨array, harray, hholds, -⟩ | ⟨hnone, -⟩
  · rw [hredo, some.injEq] at harray
    exact harray ▸ hholds
  · rw [hredo] at hnone
    cases hnone

theorem Replayed.forget (hc : .commit g ∈ recs) (hf : .forget g ∉ recs) :
    Replayed maxTmGxacts (recs ++ [.forget g])
      ⟨redoDistributedForgetCommitRecord b.shmCommittedGxidArray g,
      max b.latestCompletedGxid g⟩ := by
  have hlatest : (if b.latestCompletedGxid < g then g else b.latestCompletedGxid) =
      max b.latestCompletedGxid g := by
    split
    next hlt => rw [max_eq_right hlt.le]
    next hge => rw [max_eq_left (Nat.le_of_not_lt hge)]
  refine ⟨?_, ?_⟩
  · rw [Standby.replay_concat h.replay, Standby.redo, Standby.forget,
      if_pos ((h.mem g).mpr ⟨hc, hf⟩), hlatest]
  have hrecs : dtxRecords (recs ++ [.forget g]) = dtxRecords recs ++ [.forget g] :=
    filterMap_append
  rw [hrecs]
  exact redoDistributedForgetCommitRecord_exact h.holds

theorem Replayed.latestCompleted (g : Nat) :
    Replayed maxTmGxacts (recs ++ [.latestCompleted g]) { b with latestCompletedGxid := g } := by
  refine ⟨replay_concat h.replay _, ?_⟩
  have hrecs : dtxRecords (recs ++ [.latestCompleted g]) = dtxRecords recs := by
    rw [dtxRecords, filterMap_append]
    exact append_nil _
  rw [hrecs]
  exact h.holds

theorem Replayed.unique (h' : Standby.replay maxTmGxacts recs = some b') : b' = b := by
  rw [h.replay, some.injEq] at h'
  exact h'.symm

end

section

variable (h : PrimaryLog maxTmGxacts wal)
include h

theorem PrimaryLog.concat {r : GxactRecord}
    (hcommit : ∀ g, r = .commit g → 0 < g ∧ .commit g ∉ wal ∧ .forget g ∉ wal)
    (hforget : ∀ g, r = .forget g → .commit g ∈ wal ∧ .forget g ∉ wal)
    (hlt : ∀ v, r.completed? = some v → v + 1 < 2 ^ 64)
    (hreplay : Replayed maxTmGxacts (wal ++ [r]) b) : PrimaryLog maxTmGxacts (wal ++ [r]) := by
  -- a record is an old one, after the same records, or the new one, after all of them
  have hsplit : ∀ (k : Nat) x, (wal ++ [r])[k]? = some x →
      (wal[k]? = some x ∧ (wal ++ [r]).take k = wal.take k) ∨
      (r = x ∧ (wal ++ [r]).take k = wal) := by
    intro k x hx
    rcases lt_trichotomy k wal.length with hk | hk | hk
    · rw [getElem?_append_left hk] at hx
      exact .inl ⟨hx, take_append_of_le_length hk.le⟩
    · rw [hk, getElem?_concat_length, some.injEq] at hx
      exact .inr ⟨hx, by rw [hk, take_left]⟩
    · rw [getElem?_eq_none (by rw [length_append, length_singleton]; omega)] at hx
      cases hx
  refine ⟨fun k g hk => ?_, fun k g hk => ?_, fun x hx v hv => ?_, fun k => ?_⟩
  · rcases hsplit k _ hk with ⟨hk, htake⟩ | ⟨hr, htake⟩
    · exact htake ▸ h.commit k g hk
    · exact htake.symm ▸ hcommit g hr
  · rcases hsplit k _ hk with ⟨hk, htake⟩ | ⟨hr, htake⟩
    · exact htake ▸ h.forget k g hk
    · exact htake.symm ▸ hforget g hr
  · rcases mem_append.mp hx with hx | hx
    · exact h.completed_lt x hx v hv
    · exact hlt v (mem_singleton.mp hx ▸ hv)
  · rcases lt_or_ge wal.length k with hk | hk
    · refine ⟨b, ?_⟩
      rw [take_of_length_le (by rw [length_append, length_singleton]; omega)]
      exact hreplay
    · rw [take_append_of_le_length hk]
      exact h.replayed k

theorem PrimaryLog.redo {k : Nat} {r : GxactRecord} (hk : wal[k]? = some r)
    (hb : Replayed maxTmGxacts (wal.take k) b) (hb' : Replayed maxTmGxacts (wal.take (k + 1)) b') :
    b'.latestCompletedGxid = match r with
      | .commit _ => b.latestCompletedGxid
      | .forget g => max b.latestCompletedGxid g
      | .latestCompleted g => g := by
  have htake : wal.take (k + 1) = wal.take k ++ [r] := by rw [take_add_one, hk, toList_some]
  rw [htake] at hb'
  have hredo := hb'.replay
  cases r with
  | commit g =>
    rw [Standby.replay_concat hb.replay, Standby.redo, map_eq_some_iff] at hredo
    obtain ⟨array, -, rfl⟩ := hredo
    rfl
  | forget g =>
    obtain ⟨hc, hf⟩ := h.forget k g hk
    exact congrArg latestCompletedGxid ((hb.forget hc hf).unique hredo)
  | latestCompleted g => exact congrArg latestCompletedGxid ((hb.latestCompleted g).unique hredo)

theorem PrimaryLog.latest_cases (k : Nat) : ∀ {b : Standby}, Replayed maxTmGxacts (wal.take k) b →
    b.latestCompletedGxid = 0 ∨ ∃ r ∈ wal.take k, r.completed? = some b.latestCompletedGxid := by
  induction k with
  | zero =>
    intro b hb
    rw [(Replayed.init maxTmGxacts).unique hb.replay]
    exact .inl rfl
  | succ k ih =>
    intro b' hb'
    obtain ⟨b, hb⟩ := h.replayed k
    cases hk : wal[k]? with
    | none =>
      have htake : wal.take (k + 1) = wal.take k := by
        rw [take_add_one, hk, toList_none, append_nil]
      rw [htake] at hb' ⊢
      exact ih hb'
    | some r =>
      have htake : wal.take (k + 1) = wal.take k ++ [r] := by rw [take_add_one, hk, toList_some]
      have hlast : r ∈ wal.take (k + 1) := by
        rw [htake]
        exact mem_append_right _ (mem_singleton_self r)
      have hold : b'.latestCompletedGxid = b.latestCompletedGxid →
          b'.latestCompletedGxid = 0 ∨
          ∃ r ∈ wal.take (k + 1), r.completed? = some b'.latestCompletedGxid := by
        intro heq
        rw [heq, htake]
        exact (ih hb).imp_right fun ⟨r', hr', hv⟩ => ⟨r', mem_append_left _ hr', hv⟩
      have hlatest := h.redo hk hb hb'
      cases r with
      | commit g => exact hold hlatest
      | forget g =>
        rcases max_choice b.latestCompletedGxid g with hmax | hmax
        · exact hold (hlatest.trans hmax)
        · exact .inr ⟨_, hlast, congrArg some (hlatest.trans hmax).symm⟩
      | latestCompleted g => exact .inr ⟨_, hlast, congrArg some hlatest.symm⟩

theorem PrimaryLog.latest_lt {k : Nat} (hb : Replayed maxTmGxacts (wal.take k) b) :
    b.latestCompletedGxid + 1 < 2 ^ 64 := by
  rcases h.latest_cases k hb with h0 | ⟨r, hr, hv⟩
  · rw [h0]
    decide
  · exact h.completed_lt r (mem_of_mem_take hr) _ hv

end

end Replay

/-! ## Snapshots of the standby -/

section Snapshots

variable {maxTmGxacts k : Nat} {wal : List GxactRecord} {b : Standby} {ds : CreatedSnapshot}

theorem Standby.Snapshot.spec (h : b.Snapshot ds) (hlt : b.latestCompletedGxid + 1 < 2 ^ 64) :
    ds.xmax = b.latestCompletedGxid + 1 ∧
      ∀ g, g ∈ ds.inProgressXidArray ↔ g ∈ b.shmCommittedGxidArray ∧ g ≠ 0 ∧ g < ds.xmax := by
  obtain ⟨procs, procs', me, hprocs, hcreate⟩ := h
  obtain ⟨-, hcreated, -⟩ := createDistributedSnapshot_spec hcreate
  refine ⟨by rw [hcreated.xmax_eq, mod_eq_of_lt hlt], fun g => (hcreated.mem g).trans ?_⟩
  constructor
  · rintro ⟨⟨-, hg⟩ | ⟨j, t, ht, -, rfl⟩, h0, hmax⟩
    · exact ⟨hg, h0, hmax⟩
    · exact absurd (hprocs t (mem_of_getElem? ht)) h0
  · exact fun ⟨hg, h0, hmax⟩ => ⟨.inl ⟨rfl, hg⟩, h0, hmax⟩

/-- A snapshot after `k` records, by the standby that replayed them. -/
theorem SnapshotAt.spec (h : SnapshotAt maxTmGxacts wal k ds) (hlog : PrimaryLog maxTmGxacts wal)
    (hb : Replayed maxTmGxacts (wal.take k) b) :
    ds.xmax = b.latestCompletedGxid + 1 ∧
      ∀ g, g ∈ ds.inProgressXidArray ↔ g ∈ b.shmCommittedGxidArray ∧ g ≠ 0 ∧ g < ds.xmax := by
  obtain ⟨b', hb', hsnap⟩ := h
  rw [hb.unique hb'] at hsnap
  exact hsnap.spec (hlog.latest_lt hb)

theorem Replayed.snapshotAt (h : Replayed maxTmGxacts (wal.take k) b) :
    ∃ ds, SnapshotAt maxTmGxacts wal k ds :=
  ⟨_, b, h.replay, [], _, 0, nofun, rfl⟩

section

variable (h : TracksPrimary maxTmGxacts wal) (hlog : PrimaryLog maxTmGxacts wal)
include h hlog

theorem TracksPrimary.latest_le {k' : Nat} {b' : Standby}
    (hb' : Replayed maxTmGxacts (wal.take k') b') (hb : Replayed maxTmGxacts (wal.take k) b)
    (hle : k' ≤ k) : b'.latestCompletedGxid ≤ b.latestCompletedGxid := by
  obtain ⟨ds, hds⟩ := hb.snapshotAt
  obtain ⟨ds', hds'⟩ := hb'.snapshotAt
  have hxmax := (h k ds hds).2 k' ds' hle hds'
  rw [(hds.spec hlog hb).1, (hds'.spec hlog hb').1] at hxmax
  exact le_of_succ_le_succ hxmax

theorem TracksPrimary.completed_le
    (hb : Replayed maxTmGxacts (wal.take k) b) {r : GxactRecord} (hr : r ∈ wal.take k) {v : Nat}
    (hv : r.completed? = some v) : v ≤ b.latestCompletedGxid := by
  obtain ⟨j, hj⟩ := mem_iff_getElem?.mp hr
  have hlt : j < k := by
    by_contra hge
    rw [getElem?_eq_none ((length_take_le _ _).trans (Nat.le_of_not_lt hge))] at hj
    cases hj
  rw [getElem?_take_of_lt hlt] at hj
  obtain ⟨b₀, hb₀⟩ := hlog.replayed j
  obtain ⟨b₁, hb₁⟩ := hlog.replayed (j + 1)
  refine le_trans ?_ (h.latest_le hlog hb₁ hb hlt)
  have hlatest := hlog.redo hj hb₀ hb₁
  cases r with
  | commit g => cases hv
  | forget g =>
    obtain rfl := some.inj hv
    exact hlatest ▸ le_max_right _ _
  | latestCompleted g =>
    obtain rfl := some.inj hv
    exact hlatest.ge

theorem TracksPrimary.inOrder : GxidsInOrder wal := by
  refine ⟨fun k g hk r hr v hv => ?_, fun k g hk r hr v hv => ?_⟩
  · -- before its commit record the gxid is not in the array, so that it is from xmax on
    obtain ⟨b, hb⟩ := hlog.replayed k
    obtain ⟨ds, hds⟩ := hb.snapshotAt
    obtain ⟨hxmax, hmem⟩ := hds.spec hlog hb
    obtain ⟨-, hc, hf⟩ := hlog.commit k g hk
    rcases (h k ds hds).1 g (mem_of_getElem? hk) hf with hin | hge
    · exact absurd ((hb.mem g).mp ((hmem g).mp hin).1).1 hc
    · rw [hxmax] at hge
      exact lt_of_le_of_lt (h.completed_le hlog hb hr hv) hge
  · obtain ⟨b, hb⟩ := hlog.replayed k
    obtain ⟨b', hb'⟩ := hlog.replayed (k + 1)
    calc v ≤ b.latestCompletedGxid := h.completed_le hlog hb hr hv
      _ ≤ b'.latestCompletedGxid := h.latest_le hlog hb hb' k.le_succ
      _ = g := hlog.redo hk hb hb'

end

theorem GxidsInOrder.latest_le (h : GxidsInOrder wal) (hlog : PrimaryLog maxTmGxacts wal) {k' : Nat}
    {b' : Standby} (hb' : Replayed maxTmGxacts (wal.take k') b') (hle : k' ≤ k) :
    ∀ {b : Standby}, Replayed maxTmGxacts (wal.take k) b →
    b'.latestCompletedGxid ≤ b.latestCompletedGxid := by
  induction k, hle using le_induction with
  | base =>
    intro b hb
    rw [hb.unique hb'.replay]
  | succ k hle ih =>
    intro b₁ hb₁
    obtain ⟨b, hb⟩ := hlog.replayed k
    refine (ih hb).trans ?_
    cases hk : wal[k]? with
    | none =>
      have htake : wal.take (k + 1) = wal.take k := by
        rw [take_add_one, hk, toList_none, append_nil]
      rw [htake] at hb₁
      rw [hb.unique hb₁.replay]
    | some r =>
      have hlatest := hlog.redo hk hb hb₁
      cases r with
      | commit g => exact hlatest.ge
      | forget g => exact hlatest ▸ le_max_left _ _
      | latestCompleted g =>
        rw [hlatest]
        rcases hlog.latest_cases k hb with h0 | ⟨r, hr, hv⟩
        · rw [h0]
          exact zero_le g
        · exact h.latestCompleted k g hk r hr _ hv

theorem GxidsInOrder.tracksPrimary (h : GxidsInOrder wal) (hlog : PrimaryLog maxTmGxacts wal) :
    TracksPrimary maxTmGxacts wal := by
  intro k ds hds
  obtain ⟨b, hb⟩ := hlog.replayed k
  obtain ⟨hxmax, hmem⟩ := hds.spec hlog hb
  refine ⟨fun g hg hf => ?_, fun k' ds' hle hds' => ?_⟩
  · obtain ⟨c, hc⟩ := mem_iff_getElem?.mp hg
    have hpos := (hlog.commit c g hc).1
    by_cases hck : c < k
    · -- the commit record is replayed: the gxid is in the array
      have hin : .commit g ∈ wal.take k :=
        mem_of_getElem? (by rw [getElem?_take_of_lt hck]; exact hc)
      have harray := (hb.mem g).mpr ⟨hin, hf⟩
      exact (lt_or_ge g ds.xmax).imp_left fun hlt => (hmem g).mpr ⟨harray, hpos.ne', hlt⟩
    refine .inr ?_
    rw [hxmax]
    rcases hlog.latest_cases k hb with h0 | ⟨r, hr, hv⟩
    · rw [h0]
      exact hpos
    · exact h.commit c g hc r (take_subset_take_left wal (Nat.le_of_not_lt hck) hr) _ hv
  · obtain ⟨b', hb'⟩ := hlog.replayed k'
    rw [(hds'.spec hlog hb').1, hxmax]
    exact succ_le_succ (h.latest_le hlog hb' hle hb)

end Snapshots

end PolemoDB.Cdb
