import PolemoDB.Cdb.Dtx

/-!
# The invariant of two-phase commit

A commit command is on its way only when the commit record is on disk, and the commit record is
inserted only when every segment has prepared.  An abort command is on its way only when the session
can no longer commit, or when every segment has committed and there is nothing to roll back.  Both
stay true in every step of the session, of the segments and of the dtx recovery process, whose lists
of prepared gids can be old.

`Dtx.Inv` has one part for each state of the session and of recovery.  `Dtx.Frame` says what a step
keeps, and the lemmas after it are the ways a step can change the system.
-/

namespace PolemoDB.Cdb

open PolemoDB.Lib List Option Dtx Nat

/-! ## The invariant -/

/-- The command commits a prepared transaction. -/
def DtxProtocolCommand.commits : DtxProtocolCommand → Bool
  | .commitPrepared | .retryCommitPrepared | .recoveryCommitPrepared => true
  | _ => false

/-- The command rolls a transaction back. -/
def DtxProtocolCommand.aborts : DtxProtocolCommand → Bool
  | .abortNoPrepared | .abortSomePrepared | .abortPrepared | .retryAbortPrepared
    | .recoveryAbortPrepared => true
  | _ => false

/-- The session has not decided yet. -/
def DtxState.mayCommit : DtxState → Bool
  | .activeDistributed | .preparing _ | .prepared | .insertingCommitted => true
  | _ => false

section Predicates

variable (s : Dtx)

/-- The segment has committed. -/
def Dtx.CommittedAt (i : Nat) : Prop := s.segments[i]? = some .committed

/-- The segment has prepared, and has not rolled back. -/
def Dtx.PreparedAt (i : Nat) : Prop := s.segments[i]? = some .prepared ∨ s.CommittedAt i

/-- Every segment of the transaction has prepared, and none has rolled back. -/
def Dtx.AllPrepared : Prop := ∀ i ∈ s.dtxSegments, s.PreparedAt i

/-- Every segment of the transaction has committed. -/
def Dtx.AllCommitted : Prop := ∀ i ∈ s.dtxSegments, s.CommittedAt i

/-- An abort command rolls back nothing that was or will be committed. -/
def Dtx.MayAbort : Prop := s.AllCommitted ∨ s.wal = [] ∧ s.state.mayCommit = false

/-- Nothing is left to commit. -/
def Dtx.Resolved : Prop := s.wal = [] ∨ s.AllCommitted

/-- The commands of a dispatch, and what a reply says about its segment. -/
structure Dtx.Dispatched (dispatch : Nat) (P : DtxProtocolCommand → Prop) (at_ : Nat → Prop) :
    Prop where
  lt : dispatch < s.dispatches
  cmd : ∀ m ∈ s.messages, m.dispatch = dispatch → P m.cmd
  replied : ∀ i ∈ s.dtxSegments, (dispatch, i) ∈ s.replies → at_ i

/-- The dispatch tells the segments to commit. -/
def Dtx.Committing (dispatch : Nat) : Prop := s.Dispatched dispatch (·.commits = true) s.CommittedAt

/-- What holds in each state of the session. -/
def Dtx.StateOK : DtxState → Prop
  | .none => True
  | .activeDistributed => s.wal = []
  | .preparing d => s.wal = [] ∧ s.Dispatched d (· = .prepare) s.PreparedAt
  | .prepared | .insertingCommitted => s.wal = [] ∧ s.AllPrepared
  | .insertedCommitted flushed => s.wal ≠ [] ∧ (flushed = true → 0 < s.flushed)
  | .notifyingCommitPrepared d | .retryCommitPrepared (some d) => 0 < s.flushed ∧ s.Committing d
  | .retryCommitPrepared Option.none => 0 < s.flushed
  | .insertingForgetCommitted | .insertedForgetCommitted => 0 < s.flushed ∧ s.AllCommitted
  | .notifyingAbortNoPrepared _ | .notifyingAbortSomePrepared _ | .notifyingAbortPrepared _
    | .retryAbortPrepared _ =>
    s.wal = []

def Dtx.RecoveryOK : RecoveryState → Prop
  | .redo => s.state = .none ∧ (s.wal ≠ [] → 0 < s.flushed)
  | .notify => s.state = .none ∧ 0 < s.flushed
  | .notifying d => s.state = .none ∧ 0 < s.flushed ∧ s.Committing d
  | .forget => s.state = .none ∧ 0 < s.flushed ∧ s.AllCommitted
  | .gather true _ _ | .aborting true _ => s.state = .none ∧ s.Resolved
  | .gather false _ _ | .orphaned | .aborting false _ | .waiting => s.state = .none → s.Resolved

/-- The invariant of the system. -/
structure Dtx.Inv : Prop where
  wal : s.wal = [] ∨ ∃ n, s.wal = .commit :: List.replicate n .forget
  flushed : s.flushed ≤ s.wal.length
  decided : s.wal ≠ [] → s.AllPrepared
  forgotten : .forget ∈ s.wal → s.AllCommitted
  committed : ∀ i, s.CommittedAt i → 0 < s.flushed
  others : ∀ (i : Nat) (x : SegmentXact), s.segments[i]? = some x → i ∉ s.dtxSegments → x = .none
  dispatches : ∀ m ∈ s.messages, m.dispatch < s.dispatches
  commits : ∀ m ∈ s.messages, m.cmd.commits = true → 0 < s.flushed
  aborts : ∀ m ∈ s.messages, m.cmd.aborts = true → s.MayAbort
  replies : ∀ r ∈ s.replies, r.1 < s.dispatches
  state : s.StateOK s.state
  recovery : s.RecoveryOK s.recovery

end Predicates

variable {s s' : Dtx}

theorem Dtx.Inv.wal_ne_nil (h : s.Inv) (hflushed : 0 < s.flushed) : s.wal ≠ [] := by
  intro hnil
  have := h.flushed
  rw [hnil, length_nil] at this
  omega

theorem Dtx.Inv.commit_durable (h : s.Inv) (hflushed : 0 < s.flushed) : .commit ∈ s.durable := by
  obtain ⟨n, hn⟩ := h.wal.resolve_left (h.wal_ne_nil hflushed)
  obtain ⟨k, hk⟩ := Nat.exists_eq_add_of_lt hflushed
  rw [durable, hn, hk, Nat.zero_add, take_succ_cons]
  exact mem_cons_self

/-! ## What a step keeps -/

/-- The second state keeps what the first one says about the segments and the dispatches. -/
structure Dtx.Frame (s s' : Dtx) : Prop where
  dtxSegments : s'.dtxSegments = s.dtxSegments
  wal : s'.wal = [] ↔ s.wal = []
  flushed : 0 < s.flushed → 0 < s'.flushed
  committed : ∀ i, s.CommittedAt i → s'.CommittedAt i
  prepared : s.wal ≠ [] ∨ s.state.mayCommit = true → ∀ i ∈ s.dtxSegments, s.PreparedAt i →
    s'.PreparedAt i
  preparing : s.wal = [] → s.state.mayCommit = true → ∀ d,
    s.Dispatched d (· = .prepare) s.PreparedAt → s'.Dispatched d (· = .prepare) s'.PreparedAt
  committing : 0 < s.flushed → ∀ d, s.Committing d → s'.Committing d

namespace Dtx.Frame

section

variable (f : s.Frame s')
include f

theorem allCommitted (h : s.AllCommitted) : s'.AllCommitted := by
  intro i hi
  rw [f.dtxSegments] at hi
  exact f.committed i (h i hi)

theorem allPrepared (hor : s.wal ≠ [] ∨ s.state.mayCommit = true) (h : s.AllPrepared) :
    s'.AllPrepared := by
  intro i hi
  rw [f.dtxSegments] at hi
  exact f.prepared hor i hi (h i hi)

theorem resolved (h : s.Resolved) : s'.Resolved := h.imp f.wal.mpr f.allCommitted

theorem stateOK {st : DtxState} (hmay : st.mayCommit = true → s.state.mayCommit = true)
    (h : s.StateOK st) : s'.StateOK st := by
  cases st with
  | none => trivial
  | activeDistributed => exact f.wal.mpr h
  | preparing d => exact ⟨f.wal.mpr h.1, f.preparing h.1 (hmay rfl) d h.2⟩
  | prepared | insertingCommitted => exact ⟨f.wal.mpr h.1, f.allPrepared (.inr (hmay rfl)) h.2⟩
  | insertedCommitted flushed =>
    exact ⟨fun hnil => h.1 (f.wal.mp hnil), fun hf => f.flushed (h.2 hf)⟩
  | notifyingCommitPrepared d => exact ⟨f.flushed h.1, f.committing h.1 d h.2⟩
  | retryCommitPrepared d =>
    cases d with
    | none => exact f.flushed h
    | some d => exact ⟨f.flushed h.1, f.committing h.1 d h.2⟩
  | insertingForgetCommitted | insertedForgetCommitted => exact ⟨f.flushed h.1, f.allCommitted h.2⟩
  | notifyingAbortNoPrepared d | notifyingAbortSomePrepared d | notifyingAbortPrepared d
    | retryAbortPrepared d =>
    exact f.wal.mpr h

theorem recoveryOK (hstate : s'.state = s.state) {r : RecoveryState} (h : s.RecoveryOK r) :
    s'.RecoveryOK r := by
  cases r with
  | redo => exact ⟨hstate.trans h.1, fun hne => f.flushed (h.2 fun hnil => hne (f.wal.mpr hnil))⟩
  | notify => exact ⟨hstate.trans h.1, f.flushed h.2⟩
  | notifying d => exact ⟨hstate.trans h.1, f.flushed h.2.1, f.committing h.2.1 d h.2.2⟩
  | forget => exact ⟨hstate.trans h.1, f.flushed h.2.1, f.allCommitted h.2.2⟩
  | gather startup i found | aborting startup d =>
    cases startup with
    | true => exact ⟨hstate.trans h.1, f.resolved h.2⟩
    | false => exact fun hnone => f.resolved (h (hstate.symm.trans hnone))
  | orphaned | waiting => exact fun hnone => f.resolved (h (hstate.symm.trans hnone))

theorem mayAbort (hmay : s'.state.mayCommit = true → s.state.mayCommit = true) (h : s.MayAbort) :
    s'.MayAbort := by
  refine h.imp f.allCommitted fun ⟨hwal, hno⟩ => ⟨f.wal.mpr hwal, ?_⟩
  cases hyes : s'.state.mayCommit with
  | false => rfl
  | true =>
    rw [hmay hyes] at hno
    cases hno

end

theorem of_same (hseg : s'.dtxSegments = s.dtxSegments) (hsegments : s'.segments = s.segments)
    (hmessages : s'.messages = s.messages) (hreplies : s'.replies = s.replies)
    (hd : s'.dispatches = s.dispatches) (hwal : s'.wal = [] ↔ s.wal = [])
    (hflushed : 0 < s.flushed → 0 < s'.flushed) : s.Frame s' := by
  have hc : s'.CommittedAt = s.CommittedAt := by
    funext i
    rw [CommittedAt, CommittedAt, hsegments]
  have hp : s'.PreparedAt = s.PreparedAt := by
    funext i
    rw [PreparedAt, PreparedAt, hsegments, hc]
  have hdispatched : ∀ {d : Nat} {P : DtxProtocolCommand → Prop} {at_ : Nat → Prop},
      s.Dispatched d P at_ → s'.Dispatched d P at_ := by
    intro d P at_ h
    exact ⟨hd ▸ h.lt, hmessages ▸ h.cmd, by rw [hseg, hreplies]; exact h.replied⟩
  refine ⟨hseg, hwal, hflushed, fun i h => hc ▸ h, fun _ i _ h => hp ▸ h, fun _ _ d h => ?_,
    fun _ d h => ?_⟩
  · rw [hp]
    exact hdispatched h
  · rw [Committing, hc]
    exact hdispatched h

end Dtx.Frame

/-! ## The session and recovery -/

section

variable (h : s.Inv)
include h

/-- At start-up there is no session, so once there was one only the session can be unresolved. -/
theorem Dtx.Inv.recoveryOK_of_session (hne : s.state ≠ .none) {s' : Dtx}
    (hend : s'.state = .none → s'.Resolved) : s'.RecoveryOK s.recovery := by
  have hr := h.recovery
  cases hs : s.recovery with
  | redo | notify | notifying d | forget =>
    rw [hs] at hr
    exact absurd hr.1 hne
  | gather startup i found | aborting startup d =>
    rw [hs] at hr
    cases startup with
    | true => exact absurd hr.1 hne
    | false => exact hend
  | orphaned | waiting => exact hend

theorem Dtx.Inv.setState {st : DtxState} (hne : s.state ≠ .none) (hst : s.StateOK st)
    (hmay : st.mayCommit = true → s.state.mayCommit = true) (hend : st = .none → s.Resolved) :
    Inv { s with state := st } := by
  have f : s.Frame { s with state := st } := .of_same rfl rfl rfl rfl rfl Iff.rfl id
  exact { h with
    aborts := fun m hm ha => f.mayAbort hmay (h.aborts m hm ha), state := f.stateOK hmay hst,
    recovery := h.recoveryOK_of_session hne fun hnone => f.resolved (hend hnone) }

theorem Dtx.Inv.setRecovery {r : RecoveryState} (hr : s.RecoveryOK r) :
    Inv { s with recovery := r } := by
  have f : s.Frame { s with recovery := r } := .of_same rfl rfl rfl rfl rfl Iff.rfl id
  exact { h with state := f.stateOK id h.state, recovery := f.recoveryOK rfl hr }

theorem Dtx.Inv.setFlushed {n : Nat} (hle : s.flushed ≤ n) (hn : n ≤ s.wal.length) :
    Inv { s with flushed := n } := by
  have hpos : 0 < s.flushed → 0 < n := fun hlt => Nat.lt_of_lt_of_le hlt hle
  have f : s.Frame { s with flushed := n } := .of_same rfl rfl rfl rfl rfl Iff.rfl hpos
  exact { h with
    flushed := hn, committed := fun i hi => hpos (h.committed i hi), commits := fun m hm hc =>
      hpos (h.commits m hm hc),
    state := f.stateOK id h.state, recovery := f.recoveryOK rfl h.recovery }

theorem Dtx.Inv.appendForget (hne : s.wal ≠ []) (hall : s.AllCommitted) :
    Inv { s with wal := s.wal ++ [.forget] } := by
  have f : s.Frame { s with wal := s.wal ++ [.forget] } :=
    .of_same rfl rfl rfl rfl rfl (by simp [hne]) id
  refine ⟨.inr ?_, ?_, fun _ => h.decided hne, fun _ => hall, h.committed, h.others, h.dispatches,
    h.commits, fun _ _ _ => .inl hall, h.replies, f.stateOK id h.state, f.recoveryOK rfl h.recovery⟩
  · obtain ⟨n, hn⟩ := h.wal.resolve_left hne
    exact ⟨n + 1, by rw [hn, replicate_succ', cons_append]⟩
  · rw [length_append]
    exact le_add_right_of_le h.flushed

theorem Dtx.Inv.insertCommit (hs : s.state = .insertingCommitted) :
    Inv { s with state := .insertedCommitted false, wal := s.wal ++ [.commit] } := by
  have hst := h.state
  rw [hs] at hst
  obtain ⟨hnil, hall⟩ := hst
  have hflushed := h.flushed
  rw [hnil, length_nil, le_zero] at hflushed
  have hnone : s.state ≠ .none := by
    rw [hs]
    exact nofun
  refine ⟨.inr ⟨0, by rw [hnil]; rfl⟩, by rw [hflushed]; exact zero_le _, fun _ => hall, ?_,
    h.committed, h.others, h.dispatches, h.commits, fun m hm ha => ?_, h.replies,
    ⟨by simp, nofun⟩, h.recoveryOK_of_session hnone nofun⟩
  · rw [hnil]
    exact fun hin => absurd hin (by simp)
  · refine .inl ((h.aborts m hm ha).resolve_right ?_)
    rw [hs]
    exact fun ⟨_, hno⟩ => by cases hno

theorem Dtx.Inv.crash : s.crash.Inv := by
  have hdurable : s.durable ≠ [] → s.wal ≠ [] ∧ 0 < s.flushed := by
    intro hne
    constructor
    · exact fun hnil => hne (by rw [durable, hnil, take_nil])
    · exact Nat.pos_of_ne_zero fun hzero => hne (by rw [durable, hzero, take_zero])
  refine ⟨?_, ?_, fun hne => h.decided (hdurable hne).1,
    fun hin => h.forgotten (mem_of_mem_take hin), h.committed,
    h.others, h.dispatches, h.commits, fun m hm ha => ?_, h.replies, trivial, rfl, fun hne =>
    (hdurable hne).2⟩
  · rcases Nat.eq_zero_or_pos s.flushed with hzero | hpos
    · exact .inl (by rw [Dtx.crash, Dtx.durable, hzero, take_zero])
    obtain ⟨n, hn⟩ := h.wal.resolve_left (h.wal_ne_nil hpos)
    obtain ⟨k, hk⟩ := Nat.exists_eq_add_of_lt hpos
    refine .inr ⟨min k n, ?_⟩
    rw [Dtx.crash, Dtx.durable, hn, hk, Nat.zero_add, take_succ_cons, take_replicate]
  · rw [Dtx.crash, Dtx.durable, length_take]
    exact Nat.le_min.mpr ⟨Nat.le_refl _, h.flushed⟩
  · refine (h.aborts m hm ha).imp_right fun ⟨hnil, _⟩ => ⟨?_, rfl⟩
    rw [Dtx.crash, Dtx.durable, hnil, take_nil]

end

/-! ## Messages -/

variable {cmd : DtxProtocolCommand} {x x' : SegmentXact} {raise : Bool} {context : DtxContext}

theorem Dtx.Inv.dispatch (h : s.Inv) (targets : List Nat)
    (hcommits : cmd.commits = true → 0 < s.flushed) (haborts : cmd.aborts = true → s.MayAbort) :
    (s.dispatch cmd targets).Inv := by
  have hmessages : ∀ {P : Message → Prop}, (∀ m ∈ s.messages, P m) →
      (∀ i, P ⟨i, cmd, s.dispatches⟩) → ∀ m ∈ (s.dispatch cmd targets).messages, P m := by
    intro P hold hnew
    exact forall_mem_append.mpr ⟨hold, forall_mem_map.mpr fun i _ => hnew i⟩
  have hdispatched : ∀ {d : Nat} {P : DtxProtocolCommand → Prop} {at_ : Nat → Prop},
      s.Dispatched d P at_ → (s.dispatch cmd targets).Dispatched d P at_ := by
    intro d P at_ hd
    refine ⟨lt_succ_of_lt hd.lt, hmessages hd.cmd fun i heq => ?_, hd.replied⟩
    exact absurd (heq ▸ hd.lt) (Nat.lt_irrefl _)
  have f : s.Frame (s.dispatch cmd targets) :=
    ⟨rfl, Iff.rfl, id, fun _ => id, fun _ _ _ => id, fun _ _ _ => hdispatched,
    fun _ _ => hdispatched⟩
  refine ⟨h.wal, h.flushed, h.decided, h.forgotten, h.committed, h.others, ?_,
    hmessages h.commits fun _ => hcommits, hmessages h.aborts fun _ => haborts, fun r hr =>
    lt_succ_of_lt (h.replies r hr), f.stateOK id h.state, f.recoveryOK rfl h.recovery⟩
  exact hmessages (fun m hm => lt_succ_of_lt (h.dispatches m hm)) fun _ => lt_succ_self _

theorem Dtx.Inv.dispatched (h : s.Inv) {targets : List Nat} {P : DtxProtocolCommand → Prop}
    {at_ : Nat → Prop} (hP : P cmd) : (s.dispatch cmd targets).Dispatched s.dispatches P at_ := by
  refine ⟨lt_succ_self _, forall_mem_append.mpr
    ⟨fun m hm heq => ?_, forall_mem_map.mpr fun _ _ _ => hP⟩, ?_⟩
  · exact absurd (heq ▸ h.dispatches m hm) (Nat.lt_irrefl _)
  · exact fun i _ hr => absurd (h.replies _ hr) (Nat.lt_irrefl _)

theorem Dtx.Inv.eraseMessage (h : s.Inv) (k : Nat) :
    Inv { s with messages := s.messages.eraseIdx k } := by
  have hsub : ∀ {m : Message}, m ∈ s.messages.eraseIdx k → m ∈ s.messages := fun hm =>
    mem_of_mem_eraseIdx hm
  have hdispatched : ∀ {d : Nat} {P : DtxProtocolCommand → Prop} {at_ : Nat → Prop},
      s.Dispatched d P at_ → Dispatched { s with messages := s.messages.eraseIdx k } d P at_ :=
    fun hd => ⟨hd.lt, fun m hm => hd.cmd m (hsub hm), hd.replied⟩
  have f : s.Frame { s with messages := s.messages.eraseIdx k } :=
    ⟨rfl, Iff.rfl, id, fun _ => id, fun _ _ _ => id, fun _ _ _ => hdispatched,
    fun _ _ => hdispatched⟩
  exact { h with
    dispatches := fun m hm => h.dispatches m (hsub hm), commits := fun m hm =>
      h.commits m (hsub hm),
    aborts := fun m hm => h.aborts m (hsub hm), state := f.stateOK id h.state, recovery :=
      f.recoveryOK rfl h.recovery }

/-- The segment has done what the message tells it. -/
structure Dtx.Acted (s : Dtx) (m : Message) : Prop where
  prepare : m.segment ∈ s.dtxSegments → s.wal = [] → s.state.mayCommit = true → m.cmd = .prepare →
    s.PreparedAt m.segment
  commit : m.segment ∈ s.dtxSegments → m.cmd.commits = true → s.CommittedAt m.segment

theorem Dtx.Inv.reply (h : s.Inv) {m : Message} (hm : m ∈ s.messages) (hacted : s.Acted m) :
    Inv { s with replies := s.replies ++ [(m.dispatch, m.segment)] } := by
  have hdispatched : ∀ {d : Nat} {P : DtxProtocolCommand → Prop} {at_ : Nat → Prop},
      (m.segment ∈ s.dtxSegments → P m.cmd → at_ m.segment) → s.Dispatched d P at_ →
      Dispatched { s with replies := s.replies ++ [(m.dispatch, m.segment)] } d P at_ := by
    intro d P at_ hat hd
    refine ⟨hd.lt, hd.cmd, fun i hi hr => ?_⟩
    rcases mem_append.mp hr with hr | hr
    · exact hd.replied i hi hr
    · rw [mem_singleton, Prod.mk.injEq] at hr
      rw [hr.2] at hi ⊢
      exact hat hi (hd.cmd m hm hr.1.symm)
  have f : s.Frame { s with replies := s.replies ++ [(m.dispatch, m.segment)] } :=
    ⟨rfl, Iff.rfl, id, fun _ => id, fun _ _ _ => id,
      fun hnil hmay _ => hdispatched fun hi hcmd => hacted.prepare hi hnil hmay hcmd,
      fun _ _ => hdispatched hacted.commit⟩
  refine { h with
    replies := ?_, state := f.stateOK id h.state, recovery := f.recoveryOK rfl h.recovery }
  intro r hr
  rcases mem_append.mp hr with hr | hr
  · exact h.replies r hr
  · rw [mem_singleton.mp hr]
    exact h.dispatches m hm

/-! ## Segments -/

/-- How the transaction of a segment can change. -/
inductive Dtx.Moves (s : Dtx) : SegmentXact → SegmentXact → Prop where
  | stay (x : SegmentXact) : Moves s x x
  | prepare : Moves s .inProgress .prepared
  | abortOpen : Moves s .inProgress .aborted
  | commit (h : 0 < s.flushed) : Moves s .prepared .committed
  | abort (h : s.MayAbort) : Moves s .prepared .aborted

theorem Dtx.Inv.setSegment (h : s.Inv) {i : Nat} (hi : s.segments[i]? = some x)
    (hmove : s.Moves x x') : Inv { s with segments := s.segments.set i x' } := by
  have hself : (s.segments.set i x')[i]? = some x' :=
    getElem?_set_self (List.getElem?_eq_some_iff.mp hi).1
  have hother : ∀ {j : Nat}, j ≠ i → (s.segments.set i x')[j]? = s.segments[j]? :=
    fun hj => getElem?_set_ne (Ne.symm hj)
  have hcommitted : ∀ j, s.CommittedAt j → (s.segments.set i x')[j]? = some .committed := by
    intro j hj
    by_cases hij : j = i
    · rw [CommittedAt, hij, hi, some.injEq] at hj
      rw [hij, hself]
      cases hmove with
      | stay => rw [hj]
      | prepare | abortOpen | commit | abort => cases hj
    · rw [hother hij]
      exact hj
  have hprepared : s.wal ≠ [] ∨ s.state.mayCommit = true → ∀ j ∈ s.dtxSegments, s.PreparedAt j →
      PreparedAt { s with segments := s.segments.set i x' } j := by
    intro hor j hj hp
    rcases hp with hp | hp
    · by_cases hij : j = i
      · rw [hij, hi, some.injEq] at hp
        rw [PreparedAt, CommittedAt, hij, hself]
        cases hmove with
        | stay => exact .inl (by rw [hp])
        | prepare | abortOpen => cases hp
        | commit => exact .inr rfl
        | abort hmay =>
          rcases hmay with hall | ⟨hnil, hno⟩
          · have := hall j hj
            rw [CommittedAt, hij, hi] at this
            cases this
          rcases hor with hne | hyes
          · exact absurd hnil hne
          · rw [hyes] at hno
            cases hno
      · exact .inl ((hother hij).trans hp)
    · exact .inr (hcommitted j hp)
  have f : s.Frame { s with segments := s.segments.set i x' } :=
      ⟨rfl, Iff.rfl, id, hcommitted, hprepared,
      fun _ hmay _ hd => ⟨hd.lt, hd.cmd,
      fun j hj hr => hprepared (.inr hmay) j hj (hd.replied j hj hr)⟩,
      fun _ _ hd => ⟨hd.lt, hd.cmd, fun j hj hr => hcommitted j (hd.replied j hj hr)⟩⟩
  refine ⟨h.wal, h.flushed, fun hne => f.allPrepared (.inl hne) (h.decided hne),
    fun hin => f.allCommitted (h.forgotten hin), ?_, ?_, h.dispatches, h.commits,
    fun m hm ha => f.mayAbort id (h.aborts m hm ha), h.replies, f.stateOK id h.state,
    f.recoveryOK rfl h.recovery⟩
  · intro j hj
    rcases getElem?_set_cases hj with ⟨-, rfl⟩ | ⟨-, hj⟩
    · cases hmove with
      | stay => exact h.committed i hi
      | commit hflushed => exact hflushed
    · exact h.committed j hj
  intro j y hj hnot
  rcases getElem?_set_cases hj with ⟨rfl, rfl⟩ | ⟨-, hj⟩
  · have hx := h.others j x hi hnot
    cases hmove with
    | stay => exact hx
    | prepare | abortOpen | commit | abort => cases hx
  · exact h.others j y hj hnot

theorem finishPreparedTransaction_spec {isCommit : Bool}
    (h : finishPreparedTransaction isCommit raise x = some x') :
    x' = x ∧ x ≠ .prepared ∨ x = .prepared ∧ x' = if isCommit then .committed else .aborted := by
  cases x with
  | prepared =>
    rw [finishPreparedTransaction, some.injEq] at h
    exact .inr ⟨rfl, h.symm⟩
  | none | inProgress | committed | aborted =>
    left
    rw [finishPreparedTransaction] at h
    split at h
    · cases h
    · exact ⟨(some.inj h).symm, nofun⟩
    · exact nofun

theorem Dtx.Moves.finish_commit (hflushed : 0 < s.flushed)
    (h : finishPreparedTransaction true raise x = some x') : s.Moves x x' := by
  rcases finishPreparedTransaction_spec h with ⟨rfl, -⟩ | ⟨rfl, rfl⟩
  · exact .stay _
  · exact .commit hflushed

theorem Dtx.Moves.finish_abort (hmay : s.MayAbort)
    (h : finishPreparedTransaction false raise x = some x') : s.Moves x x' := by
  rcases finishPreparedTransaction_spec h with ⟨rfl, -⟩ | ⟨rfl, rfl⟩
  · exact .stay _
  · exact .abort hmay

/-- **A segment acts on a command**, as far as the command may be on its way. -/
theorem performDtxProtocolCommand_moves
    (hcontext : context = .twoPhaseWriter → x = .inProgress) (hcommits : cmd.commits = true →
    0 < s.flushed) (haborts : cmd.aborts = true → s.MayAbort)
    (h : performDtxProtocolCommand cmd context x = some x') : s.Moves x x' := by
  cases cmd with
  | abortNoPrepared =>
    cases context with
    | localOnly | qePrepared => exact some.inj h ▸ .stay x
    | twoPhaseWriter => exact some.inj h ▸ hcontext rfl ▸ .abortOpen
  | prepare =>
    cases context with
    | localOnly | qePrepared => cases h
    | twoPhaseWriter => exact some.inj h ▸ hcontext rfl ▸ .prepare
  | abortSomePrepared =>
    cases context with
    | localOnly => exact some.inj h ▸ .stay x
    | twoPhaseWriter => exact some.inj h ▸ hcontext rfl ▸ .abortOpen
    | qePrepared => exact .finish_abort (haborts rfl) h
  | commitPrepared =>
    cases context with
    | localOnly | twoPhaseWriter => cases h
    | qePrepared => exact .finish_commit (hcommits rfl) h
  | abortPrepared =>
    cases context with
    | localOnly | twoPhaseWriter => cases h
    | qePrepared => exact .finish_abort (haborts rfl) h
  | retryCommitPrepared | recoveryCommitPrepared =>
    cases context with
    | localOnly => exact .finish_commit (hcommits rfl) h
    | twoPhaseWriter | qePrepared => cases h
  | retryAbortPrepared | recoveryAbortPrepared =>
    cases context with
    | localOnly => exact .finish_abort (haborts rfl) h
    | twoPhaseWriter | qePrepared => cases h

theorem performDtxProtocolCommand_prepare
    (h : performDtxProtocolCommand .prepare context x = some x') : x' = .prepared := by
  cases context with
  | localOnly | qePrepared => cases h
  | twoPhaseWriter => exact (some.inj h).symm

/-- A commit command that succeeds on a segment that has prepared leaves it committed: where there
is nothing prepared any more, it has been committed before. -/
theorem performDtxProtocolCommand_commit (hcommits : cmd.commits = true)
    (hx : x = .prepared ∨ x = .committed) (h : performDtxProtocolCommand cmd context x = some x') :
    x' = .committed := by
  have hfinish : ∀ {raise : Bool}, finishPreparedTransaction true raise x = some x' →
      x' = .committed := by
    intro raise hf
    rcases finishPreparedTransaction_spec hf with ⟨rfl, hne⟩ | ⟨-, rfl⟩
    · exact hx.resolve_left hne
    · rfl
  cases cmd with
  | commitPrepared =>
    cases context with
    | localOnly | twoPhaseWriter => cases h
    | qePrepared => exact hfinish h
  | retryCommitPrepared | recoveryCommitPrepared =>
    cases context with
    | localOnly => exact hfinish h
    | twoPhaseWriter | qePrepared => cases h
  | abortNoPrepared | prepare | abortSomePrepared | abortPrepared | retryAbortPrepared
    | recoveryAbortPrepared =>
    cases hcommits

section

variable (h : s.Inv) {k : Nat} {replied : Bool} (hact : s.act k context replied = some s')
include h hact

/-- The message is taken out; unless the command fails, its segment moves and replies. -/
theorem Dtx.Inv.act_spec : s' = { s with messages := s.messages.eraseIdx k } ∨
      ∃ m x x', m ∈ s.messages ∧ s.segments[m.segment]? = some x ∧ s.Moves x x' ∧
      performDtxProtocolCommand m.cmd context x = some x' ∧ s' = { s with
        segments := s.segments.set m.segment x'
        messages := s.messages.eraseIdx k
        replies := if replied then s.replies ++ [(m.dispatch, m.segment)] else s.replies } := by
  rw [act] at hact
  split at hact
  · cases hact
  next m hk =>
    have hm : m ∈ s.messages := mem_of_getElem? hk
    split at hact
    · cases hact
    next x hx =>
      split at hact
      · cases hact
      next hctx =>
        split at hact
        next x' hperf =>
          refine .inr ⟨m, x, x', hm, hx, ?_, hperf, (some.inj hact).symm⟩
          refine performDtxProtocolCommand_moves (fun heq => ?_) (h.commits m hm)
            (h.aborts m hm) hperf
          exact Decidable.byContradiction fun hne => hctx ⟨heq, hne⟩
        next => exact .inl (some.inj hact).symm

theorem Dtx.Inv.act : s'.Inv := by
  rcases h.act_spec hact with rfl | ⟨m, x, x', hm, hx, hmove, hperf, rfl⟩
  · exact h.eraseMessage k
  have hset := h.setSegment hx hmove
  cases replied with
  | false => exact hset.eraseMessage k
  | true =>
    have hself : (s.segments.set m.segment x')[m.segment]? = some x' :=
      getElem?_set_self (List.getElem?_eq_some_iff.mp hx).1
    have hacted : Acted { s with segments := s.segments.set m.segment x' } m := by
      refine ⟨fun _ _ _ hcmd => .inl ?_, fun hi hcommits => ?_⟩
      · rw [hcmd] at hperf
        rw [← performDtxProtocolCommand_prepare hperf]
        exact hself
      · have hp := h.decided (h.wal_ne_nil (h.commits m hm hcommits)) m.segment hi
        rw [PreparedAt, CommittedAt, hx, some.injEq, some.injEq] at hp
        rw [CommittedAt, hself, performDtxProtocolCommand_commit hcommits hp hperf]
    exact (hset.reply hm hacted).eraseMessage k

end

end PolemoDB.Cdb
