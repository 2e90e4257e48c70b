import PolemoDB.Cdb.DtxCheckpoint

/-!
# What a checkpoint records

The checkpoint record has every gxid whose commit record is before the redo point and whose forget
record is not in the log when the checkpoint record is inserted: a session that inserted its commit
record before the redo point has set `includeInCkpt` when the checkpointer comes to it, because the
checkpointer waits for it to leave its section.

Principal result: `Coordinator.step_inv`.
-/

namespace PolemoDB.Cdb

open PolemoDB.Lib List Option Coordinator

/-! ## The log -/

/-- What the log says before a record is inserted. -/
def RecordOK (before : List WalRecord) : WalRecord → Prop
  | .commit g => .commit g ∉ before ∧ .forget g ∉ before
  | .forget g => .commit g ∈ before
  | .checkpoint redo gxids => redo ≤ before.length ∧
    (∀ g, .commit g ∈ before.take redo → .forget g ∉ before → g ∈ gxids) ∧
    ∀ g ∈ gxids, .commit g ∈ before

/-- The log has only records that were right when they were inserted. -/
def WalOK (wal : List WalRecord) : Prop := ∀ k r, wal[k]? = some r → RecordOK (wal.take k) r

theorem WalOK.concat {wal : List WalRecord} {r : WalRecord} (h : WalOK wal) (hr : RecordOK wal r) :
    WalOK (wal ++ [r]) := by
  intro k r' hk
  rcases Nat.lt_trichotomy k wal.length with hlt | heq | hgt
  · rw [getElem?_append_left hlt] at hk
    rw [take_append_of_le_length (Nat.le_of_lt hlt)]
    exact h k r' hk
  · rw [heq, getElem?_concat_length, some.injEq] at hk
    rw [heq, take_left, ← hk]
    exact hr
  · rw [getElem?_eq_none (by rw [length_append, length_singleton]; omega)] at hk
    exact absurd hk (by simp)

theorem WalOK.take {wal : List WalRecord} (h : WalOK wal) (m : Nat) : WalOK (wal.take m) := by
  intro k r hk
  obtain ⟨hlt, hget⟩ := List.getElem?_eq_some_iff.mp hk
  have hkm : k < m := by
    rw [length_take] at hlt
    omega
  rw [take_take, Nat.min_eq_left (Nat.le_of_lt hkm)]
  exact h k r (by rw [getElem?_take_of_lt hkm] at hk; exact hk)

/-! ## The invariant -/

/-- The records of the transaction of a session. -/
def PhaseOK (wal : List WalRecord) : Phase → Prop
  | .idle => True
  | .delaying g => .commit g ∉ wal ∧ .forget g ∉ wal
  | .logged g | .included g | .committed g => .commit g ∈ wal ∧ .forget g ∉ wal
  | .forgotten g => .commit g ∈ wal ∧ .forget g ∈ wal

/-- The gxid is the one of a session. -/
def Coordinator.AtProc (s : Coordinator) (g : Gxid) (P : Nat → Phase → Prop) : Prop :=
  ∃ (i : Nat) (p : Phase), s.procs[i]? = some p ∧ p.gxid = some g ∧ P i p

/-- Committed before the redo point and not forgotten. -/
def Pending (wal : List WalRecord) (redo : Nat) (g : Gxid) : Prop := .commit g ∈ wal.take redo ∧
    .forget g ∉ wal

/-- Where the gxids that the checkpoint has to record are, for each place the checkpointer can be
at. -/
def CkptOK (s : Coordinator) : CkptState → Prop
  | .idle => True
  | .scanDelay redo i vxids => redo ≤ s.wal.length ∧ ∀ g, Pending s.wal redo g →
    g ∈ s.shmCommittedGxidArray ∨ s.AtProc g fun k p => p.includeInCkpt = true ∨ i ≤ k ∨ g ∈ vxids
  | .wait redo vxids => redo ≤ s.wal.length ∧ ∀ g, Pending s.wal redo g →
    g ∈ s.shmCommittedGxidArray ∨ s.AtProc g fun _ p => p.includeInCkpt = true ∨ g ∈ vxids
  | .copy redo actual gxids => redo ≤ s.wal.length ∧ (∀ g ∈ gxids, .commit g ∈ s.wal) ∧
    ∀ g, Pending s.wal redo g → g ∈ gxids ∨
    (∃ m, actual ≤ m ∧ s.shmCommittedGxidArray[m]? = some g) ∨ s.AtProc g fun _ p =>
    p.includeInCkpt = true
  | .scanInclude redo i gxids => redo ≤ s.wal.length ∧ (∀ g ∈ gxids, .commit g ∈ s.wal) ∧
    ∀ g, Pending s.wal redo g → g ∈ gxids ∨ s.AtProc g fun k p => p.includeInCkpt = true ∧ i ≤ k

/-- The invariant of the coordinator. -/
structure Coordinator.Inv (s : Coordinator) : Prop where
  wal : WalOK s.wal
  phases : ∀ (i : Nat) (p : Phase), s.procs[i]? = some p → PhaseOK s.wal p
  distinct : ∀ (i j : Nat) (p q : Phase) (g : Gxid), s.procs[i]? = some p → s.procs[j]? = some q →
    p.gxid = some g → q.gxid = some g → i = j
  array : ∀ g ∈ s.shmCommittedGxidArray, .commit g ∈ s.wal
  apart : ∀ (i : Nat) (p : Phase) (g : Gxid), s.procs[i]? = some p → p.gxid = some g →
    g ∉ s.shmCommittedGxidArray
  done : ∀ (k : Nat) (g : Gxid), k < s.recovered → s.shmCommittedGxidArray[k]? = some g →
    .forget g ∈ s.wal
  pending : ∀ g, .commit g ∈ s.wal → .forget g ∉ s.wal → g ∈ s.shmCommittedGxidArray ∨
    s.AtProc g fun _ _ => True
  ckpt : CkptOK s s.ckpt

section Invariant

variable {s s' : Coordinator}

variable {wal recs : List WalRecord} {p : Phase} {redo i : Nat} {g : Gxid} {vxids gxids : List Gxid}

theorem PhaseOK.append (h : PhaseOK wal p)
    (hrecs : ∀ g, p.gxid = some g → .commit g ∉ recs ∧ .forget g ∉ recs) :
    PhaseOK (wal ++ recs) p := by
  cases p with
  | idle => trivial
  | delaying g =>
    obtain ⟨hc, hf⟩ := hrecs g rfl
    exact ⟨fun hmem => (mem_append.mp hmem).elim h.1 hc,
      fun hmem => (mem_append.mp hmem).elim h.2 hf⟩
  | logged g | included g | committed g =>
    exact ⟨mem_append_left _ h.1, fun hmem => (mem_append.mp hmem).elim h.2 (hrecs g rfl).2⟩
  | forgotten g => exact ⟨mem_append_left _ h.1, mem_append_left _ h.2⟩

theorem Pending.of_append (hredo : redo ≤ wal.length) (h : Pending (wal ++ recs) redo g) :
    Pending wal redo g := by
  refine ⟨?_, fun hmem => h.2 (mem_append_left _ hmem)⟩
  have := h.1
  rwa [take_append_of_le_length hredo] at this

theorem CkptOK.mono {c : CkptState} (h : CkptOK s c) (hwal : s'.wal = s.wal ++ recs)
    (harray : ∀ (g : Gxid) (m : Nat), .forget g ∉ s'.wal →
      s.shmCommittedGxidArray[m]? = some g → s'.shmCommittedGxidArray[m]? = some g)
    (hproc : ∀ (g : Gxid) (i : Nat) (p : Phase), .forget g ∉ s'.wal → s.procs[i]? = some p →
      p.gxid = some g → ∃ p' : Phase, s'.procs[i]? = some p' ∧ p'.gxid = some g ∧
      (p.includeInCkpt = true → p'.includeInCkpt = true)) :
    CkptOK s' c := by
  have hlen : ∀ {redo : Nat}, redo ≤ s.wal.length → redo ≤ s'.wal.length := by
    rw [hwal, length_append]
    omega
  have hpend : ∀ {redo : Nat} {g : Gxid}, redo ≤ s.wal.length → Pending s'.wal redo g →
      Pending s.wal redo g := by
    intro redo g hredo hp
    rw [hwal] at hp
    exact hp.of_append hredo
  have hmem : ∀ {g : Gxid}, .forget g ∉ s'.wal → g ∈ s.shmCommittedGxidArray →
      g ∈ s'.shmCommittedGxidArray := by
    intro g hf hg
    obtain ⟨m, hm⟩ := mem_iff_getElem?.mp hg
    exact mem_iff_getElem?.mpr ⟨m, harray g m hf hm⟩
  have hat : ∀ {g : Gxid} {P Q : Nat → Phase → Prop}, .forget g ∉ s'.wal →
      (∀ i p p', (p.includeInCkpt = true → p'.includeInCkpt = true) → P i p → Q i p') →
      s.AtProc g P → s'.AtProc g Q := by
    intro g P Q hf hPQ ⟨i, p, hi, hg, hP⟩
    obtain ⟨p', hi', hg', hinc⟩ := hproc g i p hf hi hg
    exact ⟨i, p', hi', hg', hPQ i p p' hinc hP⟩
  have hcommit : ∀ {gxids : List Gxid}, (∀ g ∈ gxids, .commit g ∈ s.wal) →
      ∀ g ∈ gxids, .commit g ∈ s'.wal := by
    intro gxids hgx g hg
    rw [hwal]
    exact mem_append_left _ (hgx g hg)
  cases c with
  | idle => trivial
  | scanDelay redo i vxids | wait redo vxids =>
    refine ⟨hlen h.1, fun g hp => (h.2 g (hpend h.1 hp)).imp (hmem hp.2) (hat hp.2 ?_)⟩
    exact fun i p p' hinc hP => hP.imp_left hinc
  | copy redo actual gxids =>
    refine ⟨hlen h.1, hcommit h.2.1,
      fun g hp => (h.2.2 g (hpend h.1 hp)).imp_right (Or.imp ?_ (hat hp.2 ?_))⟩
    · exact fun ⟨m, hm, hget⟩ => ⟨m, hm, harray g m hp.2 hget⟩
    · exact fun i p p' hinc hP => hinc hP
  | scanInclude redo i gxids =>
    refine ⟨hlen h.1, hcommit h.2.1, fun g hp => (h.2.2 g (hpend h.1 hp)).imp_right (hat hp.2 ?_)⟩
    exact fun i p p' hinc hP => ⟨hinc hP.1, hP.2⟩

/-- **A session takes a step**: it inserts records of its own transaction only, and a transaction
that is not forgotten stays with its session. -/
theorem Coordinator.Inv.advance (h : s.Inv) {p' : Phase} (hi : s.procs[i]? = some p)
    (hwal : WalOK (s.wal ++ recs)) (hphase : PhaseOK (s.wal ++ recs) p')
    (hrecs : ∀ g, .commit g ∈ recs ∨ .forget g ∈ recs → p.gxid = some g ∧ p'.gxid = some g)
    (hnew : ∀ g, p'.gxid = some g → p.gxid = some g ∨
      .commit g ∉ s.wal ∧ ∀ (j : Nat) (q : Phase), s.procs[j]? = some q → q.gxid ≠ some g)
    (hkeep : ∀ g, p.gxid = some g → .forget g ∉ s.wal ++ recs →
      p'.gxid = some g ∧ (p.includeInCkpt = true → p'.includeInCkpt = true)) :
    (s.advance i p' recs).Inv := by
  have hself : (s.advance i p' recs).procs[i]? = some p' :=
    getElem?_set_self (List.getElem?_eq_some_iff.mp hi).1
  -- a gxid that is not forgotten is still where it was
  have hproc : ∀ (g : Gxid) (j : Nat) (q : Phase), .forget g ∉ s.wal ++ recs →
      s.procs[j]? = some q → q.gxid = some g →
        ∃ q' : Phase, (s.advance i p' recs).procs[j]? = some q' ∧ q'.gxid = some g ∧
        (q.includeInCkpt = true → q'.includeInCkpt = true) := by
    intro g j q hf hj hg
    by_cases hij : j = i
    · rw [hij, hi, some.injEq] at hj
      rw [← hj] at hg ⊢
      exact ⟨p', by rw [hij]; exact hself, hkeep g hg hf⟩
    · exact ⟨q, (getElem?_set_ne (Ne.symm hij)).trans hj, hg, id⟩
  refine ⟨hwal, ?_, ?_, ?_, ?_, ?_, ?_, ?_⟩
  · intro j q hj
    rcases getElem?_set_cases hj with ⟨-, rfl⟩ | ⟨hij, hj⟩
    · exact hphase
    refine (h.phases j q hj).append fun g hg => ?_
    constructor
    · exact fun hmem => hij (h.distinct j i q p g hj hi hg (hrecs g (.inl hmem)).1)
    · exact fun hmem => hij (h.distinct j i q p g hj hi hg (hrecs g (.inr hmem)).1)
  · have hone : ∀ {j : Nat} {q : Phase} {g : Gxid}, j ≠ i → s.procs[j]? = some q → q.gxid = some g →
        p'.gxid ≠ some g := by
      intro j q g hij hj hg hg'
      rcases hnew g hg' with hold | hfresh
      · exact hij (h.distinct j i q p g hj hi hg hold)
      · exact hfresh.2 j q hj hg
    intro j k q r g hj hk hg hg'
    rcases getElem?_set_cases hj with ⟨hij, rfl⟩ | ⟨hij, hq⟩ <;>
      rcases getElem?_set_cases hk with ⟨hik, rfl⟩ | ⟨hik, hr⟩
    · rw [hij, hik]
    · exact absurd hg (hone hik hr hg')
    · exact absurd hg' (hone hij hq hg)
    · exact h.distinct j k q r g hq hr hg hg'
  · exact fun g hg => mem_append_left _ (h.array g hg)
  · intro j q g hj hg
    rcases getElem?_set_cases hj with ⟨-, rfl⟩ | ⟨-, hj⟩
    · rcases hnew g hg with hold | hfresh
      · exact h.apart i p g hi hold
      · exact fun hmem => hfresh.1 (h.array g hmem)
    · exact h.apart j q g hj hg
  · exact fun k g hk hg => mem_append_left _ (h.done k g hk hg)
  · intro g hc hf
    rcases mem_append.mp hc with hc | hc
    · refine (h.pending g hc fun hmem => hf (mem_append_left _ hmem)).imp_right ?_
      intro ⟨j, q, hj, hg, _⟩
      obtain ⟨q', hj', hg', -⟩ := hproc g j q hf hj hg
      exact ⟨j, q', hj', hg', trivial⟩
    · exact .inr ⟨i, p', hself, (hrecs g (.inl hc)).2, trivial⟩
  · exact h.ckpt.mono rfl (fun _ _ _ hm => hm) hproc

theorem Coordinator.isFresh_spec (h : s.isFresh g = true) :
    .commit g ∉ s.wal ∧ .forget g ∉ s.wal ∧ ∀ (j : Nat) (q : Phase), s.procs[j]? = some q →
    q.gxid ≠ some g := by
  rw [isFresh, Bool.and_eq_true, Bool.and_eq_true, Bool.not_eq_true', Bool.not_eq_true',
    contains_eq_mem, contains_eq_mem, decide_eq_false_iff_not, decide_eq_false_iff_not,
    List.all_eq_true] at h
  exact ⟨h.1.1, h.1.2, fun j q hj => bne_iff_ne.mp (h.2 q (mem_of_getElem? hj))⟩

/-- Every step of a session that the code has. -/
inductive SessionStep (s : Coordinator) (i : Nat) : Phase → Phase → List WalRecord → Prop where
  | startCommit (g : Gxid) (h : s.isFresh g = true) : SessionStep s i .idle (.delaying g) []
  | insertCommit (g : Gxid) : SessionStep s i (.delaying g) (.logged g) [.commit g]
  | insertedDistributedCommitted (g : Gxid) : SessionStep s i (.logged g) (.included g) []
  | endCommit (g : Gxid) : SessionStep s i (.included g) (.committed g) []
  | insertForget (g : Gxid) : SessionStep s i (.committed g) (.forgotten g) [.forget g]
  | insertedForget (g : Gxid) : SessionStep s i (.forgotten g) .idle []

theorem Coordinator.Inv.session (h : s.Inv) {p' : Phase}
    (hi : s.procs[i]? = some p) (hstep : SessionStep s i p p' recs) :
    (s.advance i p' recs).Inv := by
  have hp := h.phases i p hi
  have hnil : WalOK (s.wal ++ []) := by
    rw [append_nil]
    exact h.wal
  cases hstep with
  | startCommit g hg =>
    obtain ⟨hc, hf, hprocs⟩ := isFresh_spec hg
    refine h.advance hi hnil ?_ (by simp) ?_ (by simp [Phase.gxid])
    · rw [append_nil]
      exact ⟨hc, hf⟩
    · intro g' hg'
      rw [Phase.gxid, some.injEq] at hg'
      exact .inr (hg' ▸ ⟨hc, hprocs⟩)
  | insertCommit g =>
    refine h.advance hi (h.wal.concat hp) ⟨by simp, ?_⟩ (by simp [Phase.gxid])
      (fun g' hg' => .inl hg') ?_
    · simpa using hp.2
    · exact fun g' hg' _ => ⟨hg', fun hinc => absurd hinc (by simp [Phase.includeInCkpt])⟩
  | insertedDistributedCommitted g | endCommit g =>
    refine h.advance hi hnil ?_ (by simp) (fun g' hg' => .inl hg') fun g' hg' _ =>
      ⟨hg', fun _ => rfl⟩
    rw [append_nil]
    exact hp
  | insertForget g =>
    refine h.advance hi (h.wal.concat hp.1) ⟨mem_append_left _ hp.1, by simp⟩ (by simp [Phase.gxid])
      (fun g' hg' => .inl hg') fun g' hg' _ => ⟨hg', fun _ => rfl⟩
  | insertedForget g =>
    refine h.advance hi hnil trivial (by simp) (by simp [Phase.gxid]) fun g' hg' hf => ?_
    rw [Phase.gxid, some.injEq] at hg'
    exact absurd (mem_append_left _ (hg' ▸ hp.2)) hf

theorem Coordinator.Inv.recoverForget (h : s.Inv)
    (hg : s.shmCommittedGxidArray[s.recovered]? = some g) :
    Inv { s with wal := s.wal ++ [.forget g], recovered := s.recovered + 1 } := by
  have hmem := mem_of_getElem? hg
  have hothers : ∀ (i : Nat) (p : Phase) (g' : Gxid), s.procs[i]? = some p → p.gxid = some g' →
      .commit g' ∉ [WalRecord.forget g] ∧ .forget g' ∉ [WalRecord.forget g] := by
    intro i p g' hi hg'
    refine ⟨by simp, fun hin => ?_⟩
    rw [mem_singleton, WalRecord.forget.injEq] at hin
    exact h.apart i p g' hi hg' (hin ▸ hmem)
  refine ⟨h.wal.concat (h.array g hmem), ?_, h.distinct, ?_, h.apart, ?_, ?_, ?_⟩
  · exact fun i p hi => (h.phases i p hi).append fun g' hg' => hothers i p g' hi hg'
  · exact fun g' hg' => mem_append_left _ (h.array g' hg')
  · intro k g' hk hget
    rcases Nat.lt_or_eq_of_le (Nat.le_of_lt_succ hk) with hlt | heq
    · exact mem_append_left _ (h.done k g' hlt hget)
    · rw [heq, hg, some.injEq] at hget
      exact mem_append_right _ (by rw [hget, mem_singleton])
  · intro g' hc hf
    have hc' : .commit g' ∈ s.wal := by simpa using hc
    exact h.pending g' hc' fun hin => hf (mem_append_left _ hin)
  · exact h.ckpt.mono rfl (fun _ _ _ hm => hm) fun g' i p _ hi hg' => ⟨p, hi, hg', id⟩

theorem Coordinator.Inv.recoverEnd (h : s.Inv)
    (hall : s.recovered = s.shmCommittedGxidArray.length) :
    Inv { s with shmCommittedGxidArray := [], recovered := 0 } := by
  have hdone : ∀ (m : Nat) (g : Gxid), s.shmCommittedGxidArray[m]? = some g →
      .forget g ∈ s.wal := by
    intro m g hm
    exact h.done m g (hall ▸ (List.getElem?_eq_some_iff.mp hm).1) hm
  refine ⟨h.wal, h.phases, h.distinct, by simp, by simp, by simp, ?_, ?_⟩
  · intro g hc hf
    refine .inr ((h.pending g hc hf).resolve_left fun hmem => ?_)
    obtain ⟨m, hm⟩ := mem_iff_getElem?.mp hmem
    exact hf (hdone m g hm)
  · refine h.ckpt.mono (append_nil _).symm (fun g m hf hm => ?_) fun g i p _ hi hg =>
      ⟨p, hi, hg, id⟩
    exact absurd (hdone m g hm) hf

/-! ## The checkpointer -/

theorem Coordinator.Inv.withCkpt (h : s.Inv) {c : CkptState} (hc : CkptOK s c) :
    Inv { s with ckpt := c } :=
  { h with
    ckpt := hc.mono (append_nil _).symm (fun _ _ _ hm => hm) fun _ _ p _ hi hg => ⟨p, hi, hg, id⟩ }

/-- A session whose transaction is committed and not forgotten has set `includeInCkpt`, or is in its
section. -/
theorem PhaseOK.include_or_delay (h : PhaseOK wal p)
    (hg : p.gxid = some g) (hc : .commit g ∈ wal) (hf : .forget g ∉ wal) :
    p.includeInCkpt = true ∨ p.delayChkpt = true := by
  cases p with
  | idle => cases hg
  | delaying g' =>
    cases hg
    exact absurd hc h.1
  | logged g' => exact .inr rfl
  | included g' | committed g' => exact .inl rfl
  | forgotten g' =>
    cases hg
    exact absurd h.2 hf

theorem PhaseOK.commit_of_include (h : PhaseOK wal p)
    (hg : p.gxid = some g) (hinc : p.includeInCkpt = true) : .commit g ∈ wal := by
  cases p with
  | idle => cases hg
  | delaying g' | logged g' => cases hinc
  | included g' | committed g' | forgotten g' =>
    cases hg
    exact h.1

theorem Pending.commit (h : Pending wal redo g) : .commit g ∈ wal := mem_of_mem_take h.1

theorem Coordinator.Inv.scanDelay_start (h : s.Inv) : CkptOK s (.scanDelay s.wal.length 0 []) := by
  refine ⟨Nat.le_refl _, fun g hp => ?_⟩
  refine (h.pending g hp.commit hp.2).imp_right fun ⟨k, q, hk, hg, _⟩ =>
    ⟨k, q, hk, hg, .inr (.inl (Nat.zero_le k))⟩

theorem Coordinator.Inv.scanDelay_next (h : s.Inv)
    (hc : CkptOK s (.scanDelay redo i vxids)) (hi : s.procs[i]? = some p) :
    CkptOK s (.scanDelay redo (i + 1) (vxids ++ if p.delayChkpt then p.gxid.toList else [])) := by
  refine ⟨hc.1, fun g hp => (hc.2 g hp).imp_right ?_⟩
  intro ⟨k, q, hk, hg, hq⟩
  refine ⟨k, q, hk, hg, ?_⟩
  rcases hq with hinc | hik | hv
  · exact .inl hinc
  · rcases Nat.lt_or_eq_of_le hik with hlt | heq
    · exact .inr (.inl hlt)
    rw [← heq, hi, some.injEq] at hk
    rcases (h.phases i p hi).include_or_delay (hk ▸ hg) hp.commit hp.2 with hinc | hdelay
    · exact .inl (hk ▸ hinc)
    · rw [if_pos hdelay, hk, hg]
      exact .inr (.inr (mem_append_right _ (mem_singleton_self g)))
  · exact .inr (.inr (mem_append_left _ hv))

theorem lt_of_scan_end {procs : List Phase} {k : Nat} {q : Phase} (hend : procs[i]? = none)
    (hk : procs[k]? = some q) : ¬ i ≤ k := by
  have := List.getElem?_eq_none_iff.mp hend
  have := (List.getElem?_eq_some_iff.mp hk).1
  omega

theorem CkptOK.scanDelay_end (hc : CkptOK s (.scanDelay redo i vxids))
    (hi : s.procs[i]? = none) : CkptOK s (.wait redo vxids) := by
  refine ⟨hc.1, fun g hp => (hc.2 g hp).imp_right ?_⟩
  intro ⟨k, q, hk, hg, hq⟩
  exact ⟨k, q, hk, hg, hq.imp_right fun hq => hq.resolve_left (lt_of_scan_end hi hk)⟩

theorem Coordinator.Inv.wait_end (h : s.Inv) (hc : CkptOK s (.wait redo vxids))
    (hend : ¬ (s.procs.any fun p => p.delayChkpt && vxids.any (p.gxid == some ·)) = true) :
    CkptOK s (.copy redo 0 []) := by
  refine ⟨hc.1, by simp, fun g hp => .inr ((hc.2 g hp).imp ?_ ?_)⟩
  · intro hmem
    obtain ⟨m, hm⟩ := mem_iff_getElem?.mp hmem
    exact ⟨m, Nat.zero_le m, hm⟩
  intro ⟨k, q, hk, hg, hq⟩
  refine ⟨k, q, hk, hg, hq.elim id fun hv => ?_⟩
  refine ((h.phases k q hk).include_or_delay hg hp.commit hp.2).resolve_right fun hdelay =>
    hend ?_
  rw [List.any_eq_true]
  refine ⟨q, mem_of_getElem? hk, ?_⟩
  rw [hdelay, Bool.true_and, List.any_eq_true]
  exact ⟨g, hv, by rw [hg, beq_self_eq_true]⟩

theorem Coordinator.Inv.copy_next (h : s.Inv) {actual : Nat} {g₁ : Gxid}
    (hc : CkptOK s (.copy redo actual gxids)) (hg₁ : s.shmCommittedGxidArray[actual]? = some g₁) :
    CkptOK s (.copy redo (actual + 1) (gxids ++ [g₁])) := by
  refine ⟨hc.1, ?_, fun g hp => ?_⟩
  · exact forall_mem_append.mpr
      ⟨hc.2.1, forall_mem_singleton.mpr (h.array g₁ (mem_of_getElem? hg₁))⟩
  rcases hc.2.2 g hp with hg | ⟨m, hm, hget⟩ | hat
  · exact .inl (mem_append_left _ hg)
  · rcases Nat.lt_or_eq_of_le hm with hlt | heq
    · exact .inr (.inl ⟨m, hlt, hget⟩)
    · rw [← heq, hg₁, some.injEq] at hget
      exact .inl (mem_append_right _ (by rw [hget, mem_singleton]))
  · exact .inr (.inr hat)

theorem CkptOK.copy_end {actual : Nat} (hc : CkptOK s (.copy redo actual gxids))
    (hend : s.shmCommittedGxidArray[actual]? = none) : CkptOK s (.scanInclude redo 0 gxids) := by
  refine ⟨hc.1, hc.2.1, fun g hp => (hc.2.2 g hp).imp_right fun hor => ?_⟩
  rcases hor with ⟨m, hm, hget⟩ | ⟨k, q, hk, hg, hinc⟩
  · have := List.getElem?_eq_none_iff.mp hend
    have := (List.getElem?_eq_some_iff.mp hget).1
    omega
  · exact ⟨k, q, hk, hg, hinc, Nat.zero_le k⟩

theorem Coordinator.Inv.scanInclude_next (h : s.Inv)
    (hc : CkptOK s (.scanInclude redo i gxids)) (hi : s.procs[i]? = some p) :
    CkptOK s (.scanInclude redo (i + 1)
    (gxids ++ if p.includeInCkpt then p.gxid.toList else [])) := by
  refine ⟨hc.1, ?_, fun g hp => ?_⟩
  · intro g hg
    rcases mem_append.mp hg with hg | hg
    · exact hc.2.1 g hg
    · split at hg
      next hinc => exact (h.phases i p hi).commit_of_include (mem_toList.mp hg) hinc
      next => cases hg
  rcases hc.2.2 g hp with hg | ⟨k, q, hk, hg, hinc, hik⟩
  · exact .inl (mem_append_left _ hg)
  rcases Nat.lt_or_eq_of_le hik with hlt | heq
  · exact .inr ⟨k, q, hk, hg, hinc, hlt⟩
  · rw [← heq, hi, some.injEq] at hk
    rw [hk, if_pos hinc, hg]
    exact .inl (mem_append_right _ (mem_singleton_self g))

/-- The checkpoint record is inserted: it has every gxid that was committed before the redo point.
-/
theorem Coordinator.Inv.ckptInsert (h : s.Inv) (hc : CkptOK s (.scanInclude redo i gxids))
    (hi : s.procs.length ≤ i) :
    Inv { s with ckpt := .idle, wal := s.wal ++ [.checkpoint redo gxids] } := by
  have hrecord : RecordOK s.wal (.checkpoint redo gxids) := by
    refine ⟨hc.1, fun g hcommit hf => (hc.2.2 g ⟨hcommit, hf⟩).resolve_right ?_, hc.2.1⟩
    exact fun ⟨k, q, hk, _, _, hik⟩ => lt_of_scan_end (List.getElem?_eq_none_iff.mpr hi) hk hik
  refine ⟨h.wal.concat hrecord, ?_, h.distinct, ?_, h.apart, ?_, ?_, trivial⟩
  · exact fun k q hk => (h.phases k q hk).append fun g _ => ⟨by simp, by simp⟩
  · exact fun g hg => mem_append_left _ (h.array g hg)
  · exact fun k g hk hget => mem_append_left _ (h.done k g hk hget)
  · intro g hcommit hf
    have hcommit' : .commit g ∈ s.wal := by simpa using hcommit
    exact h.pending g hcommit' fun hin => hf (mem_append_left _ hin)

theorem Coordinator.step_inv {e : Event} (h : s.Inv) (hstep : s.step e = some s') : s'.Inv := by
  cases e <;> simp only [step] at hstep
  case startCommit i g =>
    split at hstep
    next hi =>
      split at hstep <;> cases hstep
      next hfresh => exact h.session hi (.startCommit g hfresh)
    next => cases hstep
  case insertCommit i =>
    split at hstep <;> cases hstep
    next g hi => exact h.session hi (.insertCommit g)
  case insertedDistributedCommitted i =>
    split at hstep <;> cases hstep
    next g hi => exact h.session hi (.insertedDistributedCommitted g)
  case endCommit i =>
    split at hstep <;> cases hstep
    next g hi => exact h.session hi (.endCommit g)
  case insertForget i =>
    split at hstep <;> cases hstep
    next g hi => exact h.session hi (.insertForget g)
  case insertedForget i =>
    split at hstep <;> cases hstep
    next g hi => exact h.session hi (.insertedForget g)
  case recoverForget =>
    split at hstep <;> cases hstep
    next g hg => exact h.recoverForget hg
  case recoverEnd =>
    split at hstep <;> cases hstep
    next hall => exact h.recoverEnd hall
  case ckptRedo =>
    split at hstep <;> cases hstep
    next => exact h.withCkpt h.scanDelay_start
  case ckptScanDelay =>
    split at hstep
    next redo i vxids hckpt =>
      have hc := hckpt ▸ h.ckpt
      split at hstep
      next p hi => exact some.inj hstep ▸ h.withCkpt (h.scanDelay_next hc hi)
      next hi => exact some.inj hstep ▸ h.withCkpt (hc.scanDelay_end hi)
    next => cases hstep
  case ckptWaitEnd =>
    split at hstep
    next redo vxids hckpt =>
      split at hstep <;> cases hstep
      next hend => exact h.withCkpt (h.wait_end (hckpt ▸ h.ckpt) hend)
    next => cases hstep
  case ckptCopy =>
    split at hstep
    next redo actual gxids hckpt =>
      have hc := hckpt ▸ h.ckpt
      split at hstep
      next g hg => exact some.inj hstep ▸ h.withCkpt (h.copy_next hc hg)
      next hend => exact some.inj hstep ▸ h.withCkpt (hc.copy_end hend)
    next => cases hstep
  case ckptScanInclude =>
    split at hstep
    next redo i gxids hckpt =>
      split at hstep <;> cases hstep
      next p hi => exact h.withCkpt (h.scanInclude_next (hckpt ▸ h.ckpt) hi)
    next => cases hstep
  case ckptInsert =>
    split at hstep
    next redo i gxids hckpt =>
      split at hstep <;> cases hstep
      next hi => exact h.ckptInsert (hckpt ▸ h.ckpt) hi
    next => cases hstep

end Invariant

end PolemoDB.Cdb
