import PolemoDB.Cdb.DtxInvariant

/-!
# Atomicity of two-phase commit

Every step of the session, of a segment and of the dtx recovery process keeps the invariant;
atomicity is what the invariant says about the segments and the log.

Principal results: `Dtx.step_inv`, `Dtx.Inv.step_moves`, `dtx_atomic`.
-/

namespace PolemoDB.Cdb

open PolemoDB.Lib List Option Dtx

variable {s s' : Dtx}

/-! ## The steps -/

theorem Dtx.Dispatched.all {d : Nat} {P : DtxProtocolCommand → Prop} {at_ : Nat → Prop}
    (h : s.Dispatched d P at_) {targets : List Nat} (hsub : ∀ i ∈ s.dtxSegments, i ∈ targets)
    (hall : s.succeeded d targets = true) : ∀ i ∈ s.dtxSegments, at_ i := by
  intro i hi
  rw [succeeded, List.all_eq_true] at hall
  exact h.replied i hi (contains_iff_mem.mp (hall i (hsub i hi)))

section

variable (h : s.Inv)
include h

theorem Dtx.Inv.stateOf {st : DtxState} (hs : s.state = st) : s.StateOK st :=
  hs ▸ h.state

/-- The session ends with nothing in the log. -/
theorem Dtx.Inv.endAborted (hne : s.state ≠ .none) (hnil : s.wal = []) :
    Inv { s with state := .none } :=
  h.setState hne trivial nofun fun _ => .inl hnil

theorem Dtx.Inv.dispatchSucceeded (hstep : s.dispatchSucceeded = some s') : s'.Inv := by
  rw [Dtx.dispatchSucceeded] at hstep
  split at hstep
  next d hs =>
    split at hstep <;> cases hstep
    next hall =>
      have hst := h.stateOf hs
      refine h.setState (by simp [hs]) ⟨hst.1, hst.2.all (fun _ => id) hall⟩ ?_ (by simp)
      exact fun _ => by rw [hs]; rfl
  iterate 2
    next d hs =>
      split at hstep <;> cases hstep
      next hall =>
        have hst := h.stateOf hs
        exact h.setState (by simp [hs]) ⟨hst.1, hst.2.all (fun _ => id) hall⟩ nofun (by simp)
  -- a rollback that is answered by all
  iterate 4
    next d hs =>
      split at hstep <;> cases hstep
      next => exact h.endAborted (by simp [hs]) (h.stateOf hs)
  next => cases hstep

theorem Dtx.Inv.dispatchFailed (hstep : s.dispatchFailed = some s') : s'.Inv := by
  have hcommit : s.state ≠ .none → 0 < s.flushed →
      Inv { s with state := .retryCommitPrepared none } :=
    fun hne hpos => h.setState hne hpos nofun (by simp)
  have habort : s.state ≠ .none → s.wal = [] → Inv { s with state := .retryAbortPrepared none } :=
    fun hne hnil => h.setState hne hnil nofun (by simp)
  rw [Dtx.dispatchFailed] at hstep
  split at hstep <;> cases hstep
  iterate 2 next d hs => exact hcommit (by simp [hs]) (h.stateOf hs).1
  next d hs => exact h.endAborted (by simp [hs]) (h.stateOf hs)
  iterate 3 next d hs => exact habort (by simp [hs]) (h.stateOf hs)

theorem Dtx.Inv.sendAbort {st : DtxState} {cmd : DtxProtocolCommand}
    (targets : List Nat) (hne : s.state ≠ .none) (hnil : s.wal = []) (hst : s.StateOK st)
    (hno : st.mayCommit = false) (hst' : st ≠ .none)
    (hcmd : cmd.commits = false) : Inv { s.dispatch cmd targets with state := st } := by
  have hset : Inv { s with state := st } :=
    h.setState hne hst (fun hmay => by rw [hno] at hmay; cases hmay) fun heq => absurd heq hst'
  exact hset.dispatch targets (fun hc => by rw [hcmd] at hc; cases hc) fun _ => .inr ⟨hnil, hno⟩

theorem Dtx.Inv.rollbackDtxTransaction {writerGangLost procExit : Bool}
    (hstep : s.rollbackDtxTransaction writerGangLost procExit = some s') : s'.Inv := by
  rw [Dtx.rollbackDtxTransaction] at hstep
  split at hstep
  next hs =>
    have hnil : s.wal = [] := h.stateOf hs
    split at hstep
    next => exact some.inj hstep ▸ h.endAborted (by simp [hs]) hnil
    next =>
      exact some.inj hstep ▸ h.sendAbort s.dtxSegments (by simp [hs]) hnil hnil rfl (by simp) rfl
  next d hs =>
    have hnil : s.wal = [] := (h.stateOf hs).1
    split at hstep
    next => exact some.inj hstep ▸ h.endAborted (by simp [hs]) hnil
    next =>
      split at hstep
      next => exact some.inj hstep ▸ h.setState (by simp [hs]) hnil nofun (by simp)
      next =>
        exact some.inj hstep ▸ h.sendAbort s.dtxSegments (by simp [hs]) hnil hnil rfl (by simp) rfl
  next hs =>
    have hnil : s.wal = [] := (h.stateOf hs).1
    split at hstep
    next => exact some.inj hstep ▸ h.endAborted (by simp [hs]) hnil
    next =>
      exact some.inj hstep ▸ h.sendAbort s.dtxSegments (by simp [hs]) hnil hnil rfl (by simp) rfl
  iterate 4 next d hs => exact some.inj hstep ▸ h.endAborted (by simp [hs]) (h.stateOf hs)
  next => cases hstep

theorem Dtx.Inv.recoveryOf {r : RecoveryState} (hr : s.recovery = r) : s.RecoveryOK r :=
  hr ▸ h.recovery

end

theorem Dtx.Resolved.mayAbort (h : s.Resolved) (hstate : s.state = .none) : s.MayAbort :=
  h.symm.imp_right fun hnil => ⟨hnil, by rw [hstate]; rfl⟩

theorem Dtx.Inv.recoveryAbort (h : s.Inv) (startup : Bool) (hstate : s.state = .none)
    (hres : s.Resolved) : Inv
    { s.dispatch .recoveryAbortPrepared s.allSegments with
      recovery := .aborting startup s.dispatches } := by
  have hsent : (s.dispatch .recoveryAbortPrepared s.allSegments).Inv :=
    h.dispatch s.allSegments nofun fun _ => hres.mayAbort hstate
  refine hsent.setRecovery ?_
  cases startup with
  | true => exact ⟨hstate, hres⟩
  | false => exact fun _ => hres

theorem Dtx.Inv.abortingWaits (h : s.Inv) {startup : Bool} {d : Nat}
    (hr : s.recovery = .aborting startup d) : Inv { s with recovery := .waiting } := by
  have hrec := h.recoveryOf hr
  refine h.setRecovery ?_
  cases startup with
  | true => exact fun _ => hrec.2
  | false => exact hrec

theorem Dtx.Inv.gather (h : s.Inv) {seen : Bool} (hstep : s.gather seen = some s') : s'.Inv := by
  rw [Dtx.gather] at hstep
  split at hstep
  next startup i found hr =>
    have hrec := h.recoveryOf hr
    split at hstep
    next x hx =>
      refine some.inj hstep ▸ h.setRecovery ?_
      cases startup <;> exact hrec
    next =>
      split at hstep
      next =>
        cases startup with
        | true => exact some.inj hstep ▸ h.recoveryAbort true hrec.1 hrec.2
        | false => exact some.inj hstep ▸ h.setRecovery hrec
      next =>
        refine some.inj hstep ▸ h.setRecovery ?_
        cases startup with
        | true => exact fun _ => hrec.2
        | false => exact hrec
  next => cases hstep

theorem Dtx.Inv.redo (h : s.Inv) {committed : Bool} (hr : s.recovery = .redo)
    (hin : .commit ∈ s.wal ∧ .forget ∉ s.wal → committed = true) (hout : committed = true →
    .commit ∈ s.wal) : Inv { s with
      recovery := if committed then .notify else .gather true 0 false } := by
  obtain ⟨hstate, hflushed⟩ := h.recoveryOf hr
  cases committed with
  | true => exact h.setRecovery ⟨hstate, hflushed (ne_nil_of_mem (hout rfl))⟩
  | false =>
    refine h.setRecovery ⟨hstate, ?_⟩
    rcases h.wal with hnil | ⟨n, hn⟩
    · exact .inl hnil
    · refine .inr (h.forgotten (Decidable.byContradiction fun hf => ?_))
      exact absurd (hin ⟨by rw [hn]; exact mem_cons_self, hf⟩) (by simp)

variable {i : Nat} {x : SegmentXact}

theorem Dtx.PreparedAt.lt (h : s.PreparedAt i) : i ∈ s.allSegments := by
  rw [allSegments, mem_range]
  exact h.elim (fun hp => (List.getElem?_eq_some_iff.mp hp).1) fun hc =>
    (List.getElem?_eq_some_iff.mp hc).1

theorem Dtx.step_inv {e : DtxEvent} (h : s.Inv) (hstep : s.step e = some s') : s'.Inv := by
  cases e <;> simp only [step] at hstep
  case doPrepareTransaction =>
    split at hstep <;> cases hstep
    next hs =>
      have hsent : (s.dispatch .prepare s.dtxSegments).Inv := h.dispatch s.dtxSegments nofun nofun
      refine hsent.setState (by simp [dispatch, hs]) ⟨h.stateOf hs, h.dispatched rfl⟩ ?_ (by simp)
      exact fun _ => by simp only [dispatch, hs]; rfl
  case dispatchSucceeded => exact h.dispatchSucceeded hstep
  case dispatchFailed => exact h.dispatchFailed hstep
  case insertingDistributedCommitted =>
    split at hstep <;> cases hstep
    next hs =>
      have hst := h.stateOf hs
      exact h.setState (by simp [hs]) hst (fun _ => by rw [hs]; rfl) (by simp)
  case insertedDistributedCommitted =>
    split at hstep <;> cases hstep
    next hs => exact h.insertCommit hs
  case xlogFlush =>
    split at hstep <;> cases hstep
    next flushed hs =>
      have hne := (h.stateOf hs).1
      have hset : Inv { s with flushed := s.wal.length } := h.setFlushed h.flushed (Nat.le_refl _)
      exact hset.setState (by simp [hs]) ⟨hne, fun _ => length_pos_iff.mpr hne⟩
        nofun (by simp)
  case doNotifyingCommitPrepared =>
    split at hstep <;> cases hstep
    next hs =>
      have hpos := (h.stateOf hs).2 rfl
      have hsent : (s.dispatch .commitPrepared s.dtxSegments).Inv :=
        h.dispatch s.dtxSegments (fun _ => hpos) nofun
      exact hsent.setState (by simp [dispatch, hs]) ⟨hpos, h.dispatched rfl⟩
        nofun (by simp)
  case retry =>
    split at hstep <;> cases hstep
    next hs =>
      have hpos : 0 < s.flushed := h.stateOf hs
      have hsent : (s.dispatch .retryCommitPrepared s.dtxSegments).Inv :=
        h.dispatch s.dtxSegments (fun _ => hpos) nofun
      exact hsent.setState (by simp [dispatch, hs]) ⟨hpos, h.dispatched rfl⟩
        nofun (by simp)
    next hs =>
      have hnil : s.wal = [] := h.stateOf hs
      exact h.sendAbort s.allSegments (by simp [hs]) hnil hnil rfl (by simp) rfl
  case retryTimedOut =>
    split at hstep <;> cases hstep
    next => exact h.crash
    next hs => exact h.endAborted (by simp [hs]) (h.stateOf hs)
  case doInsertForgetCommitted =>
    split at hstep <;> cases hstep
    next hs =>
      have hst := h.stateOf hs
      have happ := h.appendForget (h.wal_ne_nil hst.1) hst.2
      exact happ.setState (by simp [hs]) hst nofun (by simp)
  case endTransaction =>
    split at hstep <;> cases hstep
    next hs => exact h.setState (by simp [hs]) trivial nofun fun _ => .inr (h.stateOf hs).2
  case rollbackDtxTransaction writerGangLost procExit => exact h.rollbackDtxTransaction hstep
  case act k context replied => exact h.act hstep
  case qeAbort i =>
    split at hstep <;> cases hstep
    next hi => exact h.setSegment hi .abortOpen
  case walWriter n =>
    split at hstep <;> cases hstep
    next hn => exact h.setFlushed hn.1 hn.2
  case crash => exact some.inj hstep ▸ h.crash
  case redo committed =>
    split at hstep
    next hr =>
      split at hstep <;> cases hstep
      next hguard => exact h.redo hr hguard.1 hguard.2
    next => cases hstep
  case doNotifyCommittedInDoubt =>
    split at hstep <;> cases hstep
    next hr =>
      obtain ⟨hstate, hpos⟩ := h.recoveryOf hr
      have hsent : (s.dispatch .recoveryCommitPrepared s.allSegments).Inv :=
        h.dispatch s.allSegments (fun _ => hpos) nofun
      exact hsent.setRecovery ⟨hstate, hpos, h.dispatched rfl⟩
  case recordDistributedForgetCommitted =>
    split at hstep <;> cases hstep
    next hr =>
      obtain ⟨hstate, hpos, hall⟩ := h.recoveryOf hr
      have happ := h.appendForget (h.wal_ne_nil hpos) hall
      exact happ.setRecovery ⟨hstate, .inr hall⟩
  case startAbortOrphaned =>
    split at hstep <;> cases hstep
    next hr =>
      have hrec := h.recoveryOf hr
      exact h.setRecovery hrec
  case gather seen => exact h.gather hstep
  case checkOrphaned =>
    split at hstep
    next hr =>
      have hrec := h.recoveryOf hr
      split at hstep
      next hstate => exact some.inj hstep ▸ h.recoveryAbort false hstate (hrec hstate)
      next => exact some.inj hstep ▸ h.setRecovery hrec
    next => cases hstep
  case recoverySucceeded =>
    split at hstep
    next d hr =>
      split at hstep <;> cases hstep
      next hall =>
        obtain ⟨hstate, hpos, hd⟩ := h.recoveryOf hr
        have hlt : ∀ i ∈ s.dtxSegments, i ∈ s.allSegments := fun i hi =>
          (h.decided (h.wal_ne_nil hpos) i hi).lt
        exact h.setRecovery ⟨hstate, hpos, hd.all hlt hall⟩
    next startup d hr =>
      split at hstep <;> cases hstep
      next => exact h.abortingWaits hr
    next => cases hstep
  case recoveryFailed =>
    split at hstep <;> cases hstep
    next d hr =>
      have hrec := h.recoveryOf hr
      exact h.setRecovery ⟨hrec.1, hrec.2.1⟩
    next startup d hr => exact h.abortingWaits hr
  case recoveryRestart =>
    have hrec := h.recovery
    revert hstep hrec
    cases s.recovery with
    | redo => exact nofun
    | notifying d | forget =>
      exact fun hstep hrec => some.inj hstep ▸ h.setRecovery ⟨hrec.1, hrec.2.1⟩
    | gather startup i found | aborting startup d =>
      cases startup with
      | true | false => exact fun hstep hrec => some.inj hstep ▸ h.setRecovery hrec
    | notify | orphaned | waiting => exact fun hstep hrec => some.inj hstep ▸ h.setRecovery hrec

/-! ## Runs -/

/-- How the segments of two states differ. -/
structure Dtx.SegmentsMove (s s' : Dtx) : Prop where
  length : s'.segments.length = s.segments.length
  moves : ∀ (i : Nat) (x x' : SegmentXact), s.segments[i]? = some x → s'.segments[i]? = some x' →
    s.Moves x x'

theorem Dtx.SegmentsMove.of_same (h : s'.segments = s.segments) : s.SegmentsMove s' := by
  refine ⟨by rw [h], fun i x x' hx hx' => ?_⟩
  rw [h, hx, some.injEq] at hx'
  exact hx' ▸ .stay x

theorem Dtx.SegmentsMove.of_set {x' : SegmentXact} (hi : s.segments[i]? = some x)
    (hmove : s.Moves x x') (h : s'.segments = s.segments.set i x') : s.SegmentsMove s' := by
  refine ⟨by rw [h, length_set], fun j y y' hy hy' => ?_⟩
  rw [h] at hy'
  rcases getElem?_set_cases hy' with ⟨rfl, rfl⟩ | ⟨-, hold⟩
  · exact some.inj (hi.symm.trans hy) ▸ hmove
  · exact some.inj (hy.symm.trans hold) ▸ .stay y

theorem Dtx.Inv.step_moves {e : DtxEvent} (h : s.Inv) (hstep : s.step e = some s') :
    s.SegmentsMove s' := by
  cases e with
  | act k context replied =>
    rcases h.act_spec hstep with rfl | ⟨m, x, x', -, hx, hmove, -, rfl⟩
    · exact .of_same rfl
    · exact .of_set hx hmove rfl
  | qeAbort i =>
    simp only [Dtx.step] at hstep
    split at hstep <;> cases hstep
    next hi => exact .of_set hi .abortOpen rfl
  | _ =>
    refine .of_same ?_
    simp only [Dtx.step, Dtx.dispatchSucceeded, Dtx.dispatchFailed, Dtx.rollbackDtxTransaction,
      Dtx.gather] at hstep
    repeat' split at hstep
    all_goals first
      | exact some.inj hstep ▸ rfl
      | cases hstep

theorem Dtx.SegmentsMove.final (h : s.SegmentsMove s')
    (hx : x = .committed ∨ x = .aborted) (hi : s.segments[i]? = some x) :
    s'.segments[i]? = some x := by
  have hlt : i < s'.segments.length := by
    rw [h.length]
    exact (List.getElem?_eq_some_iff.mp hi).1
  obtain ⟨y, hi'⟩ : ∃ y, s'.segments[i]? = some y := ⟨_, getElem?_eq_getElem hlt⟩
  rw [hi']
  cases h.moves i x y hi hi' with
  | stay => rfl
  | prepare | abortOpen | commit | abort => rcases hx with hx | hx <;> cases hx

theorem Dtx.start_inv (numSegments : Nat) (dtxSegments : List Nat) :
    (start numSegments dtxSegments).Inv := by
  have hsegment : ∀ {i : Nat} {x : SegmentXact}, (start numSegments dtxSegments).segments[i]? =
      some x → x = if i ∈ dtxSegments then .inProgress else .none := by
    intro i x hx
    rw [start, getElem?_map, map_eq_some_iff] at hx
    obtain ⟨j, hj, heq⟩ := hx
    obtain ⟨hlt, hget⟩ := List.getElem?_eq_some_iff.mp hj
    rw [getElem_range] at hget
    rw [← heq, hget]
  refine ⟨.inl rfl, Nat.zero_le _, fun hne => absurd rfl hne, by simp [start], fun i hi => ?_,
    fun i x hx hnot => ?_, by simp [start], by simp [start], by simp [start], by simp [start], rfl,
    nofun⟩
  · have := hsegment hi
    split at this <;> cases this
  · rw [hsegment hx]
    exact if_neg hnot

/-- A state that the system can come to. -/
def Dtx.Reachable (numSegments : Nat) (dtxSegments : List Nat) (s : Dtx) : Prop :=
  ∃ events, runSteps step events (start numSegments dtxSegments) = some s

theorem Dtx.Reachable.inv {numSegments : Nat} {dtxSegments : List Nat}
    (h : s.Reachable numSegments dtxSegments) : s.Inv := by
  obtain ⟨events, hrun⟩ := h
  exact runSteps_invariant step_inv events (start_inv numSegments dtxSegments) hrun

theorem Dtx.Inv.run_final (h : s.Inv) {events : List DtxEvent}
    (hrun : runSteps step events s = some s') (hx : x = .committed ∨ x = .aborted)
    (hi : s.segments[i]? = some x) : s'.segments[i]? = some x := by
  refine (@runSteps_invariant _ _ _ (fun t => t.Inv ∧ t.segments[i]? = some x) ?_ events _ _
    ⟨h, hi⟩ hrun).2
  exact fun ⟨ht, hti⟩ hstep => ⟨step_inv ht hstep, (ht.step_moves hstep).final hx hti⟩

theorem Dtx.Inv.not_aborted (h : s.Inv) {j : Nat} (hi : s.CommittedAt i) :
    s.segments[j]? ≠ some .aborted := by
  intro hj
  by_cases hin : j ∈ s.dtxSegments
  · rcases h.decided (h.wal_ne_nil (h.committed i hi)) j hin with hp | hc
    · rw [hj] at hp
      cases hp
    · rw [CommittedAt, hj] at hc
      cases hc
  · cases h.others j _ hj hin

/-- **Atomicity of two-phase commit.**  A segment commits only when the commit record is on disk and
every segment of the transaction has prepared; where a segment commits at some time, no segment
rolls back before or after; where there is a forget record, every segment of the transaction has
committed. -/
theorem dtx_atomic (numSegments : Nat) (dtxSegments : List Nat) (s : Dtx)
    (h : s.Reachable numSegments dtxSegments) :
    (∀ (e : DtxEvent) (s' : Dtx) (i : Nat), s.step e = some s' → s'.CommittedAt i →
      ¬ s.CommittedAt i → .commit ∈ s.durable ∧ s.AllPrepared) ∧
    (∀ (events : List DtxEvent) (s' : Dtx) (i j : Nat), runSteps step events s = some s' →
      (s.CommittedAt i ∨ s'.CommittedAt i) → s.segments[j]? ≠ some .aborted ∧
      s'.segments[j]? ≠ some .aborted) ∧
    (.forget ∈ s.wal → s.AllCommitted) := by
  have hinv := h.inv
  refine ⟨fun e s' i hstep hi hnot => ?_, fun events s' i j hrun hor => ?_, hinv.forgotten⟩
  · have hmoves := hinv.step_moves hstep
    have hlt : i < s.segments.length := by
      rw [← hmoves.length]
      exact (List.getElem?_eq_some_iff.mp hi).1
    obtain ⟨x, hx⟩ : ∃ x, s.segments[i]? = some x := ⟨_, getElem?_eq_getElem hlt⟩
    have hpos : 0 < s.flushed := by
      cases hmoves.moves i x _ hx hi with
      | stay => exact absurd hx hnot
      | commit hpos => exact hpos
    exact ⟨hinv.commit_durable hpos, hinv.decided (hinv.wal_ne_nil hpos)⟩
  · have hinv' : s'.Inv := runSteps_invariant step_inv events hinv hrun
    have hi' : s'.CommittedAt i := hor.elim (fun hi => hinv.run_final hrun (.inl rfl) hi) id
    refine ⟨fun hj => ?_, hinv'.not_aborted hi'⟩
    exact hinv'.not_aborted hi' (hinv.run_final hrun (.inr rfl) hj)

/-- A coordinator that crashes when one of two segments has committed; recovery commits the other
one. -/
theorem dtx_atomic_recovered : AllCommitted
    ⟨[0, 1], [.committed, .committed, .none], .none, .gather true 0 false, [.commit, .forget], 1,
      [⟨1, .commitPrepared, 1⟩], [(0, 0), (0, 1), (2, 0), (2, 1), (2, 2)], 3⟩ :=
  (dtx_atomic 3 [0, 1] _ ⟨[.doPrepareTransaction, .act 0 .twoPhaseWriter true,
    .act 0 .twoPhaseWriter true, .dispatchSucceeded, .insertingDistributedCommitted,
    .insertedDistributedCommitted, .xlogFlush, .doNotifyingCommitPrepared, .act 0 .qePrepared false,
    .crash, .redo true, .doNotifyCommittedInDoubt,
    .act 1 .localOnly true, .act 1 .localOnly true, .act 1 .localOnly true, .recoverySucceeded,
    .recordDistributedForgetCommitted], by decide⟩).2.2 (by decide)

end PolemoDB.Cdb
