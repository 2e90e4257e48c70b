import PolemoDB.Cdb.CreateSnapshot
import PolemoDB.Cdb.Gxid

/-!
# Distributed snapshots of a running coordinator

`StartupXLOG` sets `latestCompletedGxid` to `nextGxid`.  From then on sessions take gxids, which is
done outside of `ProcArrayLock`, end their transactions and take snapshots, in any order.

* `Separates` — every gxid of another session that had not ended when a snapshot was taken is in
  progress for it;
* `snapshot_separates` — when a snapshot does that, and what it does in any case.
-/

namespace PolemoDB.Cdb

open PolemoDB.Lib PolemoDB.Transam Gxid List Option Nat DistributedSnapshot

/-! ## Model -/

/-- The coordinator.  `allocated` and `finished` are the history of the run: who took which gxid,
and which gxids have ended. -/
structure Qd where
  nextGxid : Nat
  gxidCount : Nat
  latestCompletedGxid : Nat
  shmCommittedGxidArray : List Nat
  procs : List TmGxact
  allocated : List (Nat × Nat)
  finished : List Nat
  deriving DecidableEq, Repr

open Qd

/-- What happens. -/
inductive QdEvent
  /-- a session is added to the array of sessions -/
  | connect
  /-- a batch of gxids is credited -/
  | bump
  /-- `currentDtxActivate` -/
  | activate (i : Nat)
  /-- `ProcArrayEndGxact` -/
  | endGxact (i : Nat)
  | snapshot (i : Nat)
  /-- the committed transactions of before the start are notified and forgotten -/
  | dtmRecovered
  deriving DecidableEq, Repr

namespace Qd

/-- `StartupXLOG`. -/
def startup {p : GxidPrefetch} (n : StartupGxid p) (shmCommittedGxidArray : List Nat) : Qd where
  nextGxid := n.nextGxid
  gxidCount := 0
  latestCompletedGxid := n.nextGxid
  shmCommittedGxidArray := shmCommittedGxidArray
  procs := []
  allocated := []
  finished := []

/-- A snapshot of the session `i`, unless it is too early for one. -/
def snapshot (s : Qd) (i : Nat) : Option (CreatedSnapshot × Qd) :=
  if i < s.procs.length then
    match createDistributedSnapshot false s.shmCommittedGxidArray s.latestCompletedGxid s.procs
      i with
    | .ok (ds, procs) => some (ds, { s with procs := procs })
    | .error _ => none
  else none

/-- `ProcArrayEndGxact`. -/
def endGxact (s : Qd) (i : Nat) (t : TmGxact) : Qd := { s with
    procs := s.procs.set i ⟨0, 0⟩
    latestCompletedGxid := if t.gxid ≠ 0 ∧
      s.latestCompletedGxid < t.gxid then t.gxid else s.latestCompletedGxid
    finished := if t.gxid ≠ 0 then t.gxid :: s.finished else s.finished }

def step (p : GxidPrefetch) (s : Qd) : QdEvent → Option Qd
  | .connect => some { s with procs := s.procs ++ [⟨0, 0⟩] }
  | .bump =>
    if s.nextGxid + s.gxidCount + p.num < LastDistributedTransactionId - p.num then
      some { s with gxidCount := s.gxidCount + p.num }
    else none
  | .activate i =>
    match s.procs[i]? with
    | some t =>
      if t.gxid = 0 ∧ 0 < s.gxidCount then
        some { s with
          nextGxid := (s.nextGxid + 1) % 2 ^ 64
          gxidCount := s.gxidCount - 1
          procs := s.procs.set i { t with gxid := s.nextGxid }
          allocated := (i, s.nextGxid) :: s.allocated }
      else none
    | none => none
  | .endGxact i =>
    match s.procs[i]? with
    | some t => some (s.endGxact i t)
    | none => none
  | .snapshot i => (s.snapshot i).map Prod.snd
  | .dtmRecovered => some { s with shmCommittedGxidArray := [] }

/-- No gxid is left. -/
def Exhausted (p : GxidPrefetch) (s : Qd) : Prop :=
  s.gxidCount = 0 ∧ LastDistributedTransactionId - p.num ≤ s.nextGxid + p.num

/-! ## Invariant -/

variable {p : GxidPrefetch} {n : StartupGxid p} {s s' t : Qd}

/-- What every event keeps. -/
structure Inv (p : GxidPrefetch) (n : StartupGxid p) (s : Qd) : Prop where
  start_le : n.nextGxid ≤ s.nextGxid
  limit_lt : s.nextGxid + s.gxidCount < LastDistributedTransactionId - p.num
  allocated : ∀ j g, (j, g) ∈ s.allocated →
    n.nextGxid ≤ g ∧ g < s.nextGxid ∧ ((∃ t, s.procs[j]? = some t ∧ t.gxid = g) ∨ g ∈ s.finished)
  running : ∀ (j : Nat) t, s.procs[j]? = some t → t.gxid ≠ 0 → t.gxid < s.nextGxid ∧
    t.gxid ∉ s.finished
  distinct : ∀ (j k : Nat) t t', s.procs[j]? = some t → s.procs[k]? = some t' → t.gxid ≠ 0 →
    t.gxid = t'.gxid → j = k
  finished : ∀ g ∈ s.finished, g ≤ s.latestCompletedGxid ∧ g < s.nextGxid
  latest : s.latestCompletedGxid < s.nextGxid ∨
    (s.nextGxid = n.nextGxid ∧ s.latestCompletedGxid = n.nextGxid ∧ s.allocated = [] ∧
      ∀ t ∈ s.procs, t.gxid = 0 ∧
      (t.xminDistributedSnapshot = 0 ∨ t.xminDistributedSnapshot = n.nextGxid + 1))

theorem Inv.startup (n : StartupGxid p) (committed : List Nat) : Inv p n (startup n committed) where
  start_le := le_rfl
  limit_lt := n.lt
  allocated := fun _ _ h => absurd h not_mem_nil
  running := fun _ _ h => (nomatch h)
  distinct := fun _ _ _ _ h => (nomatch h)
  finished := nofun
  latest := .inr ⟨rfl, rfl, rfl, nofun⟩

section

variable (h : Inv p n s)
include h

theorem Inv.next_lt : s.nextGxid + 1 < 2 ^ 64 := by
  have hlt := h.limit_lt
  unfold LastDistributedTransactionId at hlt
  omega

theorem Inv.latest_le : s.latestCompletedGxid ≤ s.nextGxid := by
  rcases h.latest with hlt | ⟨hnext, hlatest, -⟩
  · exact hlt.le
  · rw [hnext, hlatest]

theorem Inv.setProcs {procs : List TmGxact}
    (hback : ∀ (j : Nat) t, procs[j]? = some t → t.gxid = 0 ∨ ∃ t', s.procs[j]? = some t' ∧
    t'.gxid = t.gxid) (hforth : ∀ (j : Nat) t, s.procs[j]? = some t → ∃ t', procs[j]? = some t' ∧
    t'.gxid = t.gxid) (hxmin : ¬(s.latestCompletedGxid < s.nextGxid) → ∀ t ∈ procs,
      t.xminDistributedSnapshot = 0 ∨ t.xminDistributedSnapshot = n.nextGxid + 1) :
      Inv p n { s with procs := procs } := by
  refine { h with
    allocated := fun j g hmem => ?_, running := fun j t ht h0 => ?_,
    distinct := fun j k t t' ht ht' h0 heq => ?_, latest := ?_ }
  · obtain ⟨hge, hlt, ⟨t, ht, htg⟩ | hfin⟩ := h.allocated j g hmem
    · obtain ⟨t', ht', heq⟩ := hforth j t ht
      exact ⟨hge, hlt, .inl ⟨t', ht', heq.trans htg⟩⟩
    · exact ⟨hge, hlt, .inr hfin⟩
  · obtain ⟨t', ht', heq⟩ := (hback j t ht).resolve_left h0
    have hrun := h.running j t' ht' (heq ▸ h0)
    rw [heq] at hrun
    exact hrun
  · obtain ⟨u, hu, hug⟩ := (hback j t ht).resolve_left h0
    obtain ⟨u', hu', hug'⟩ := (hback k t' ht').resolve_left (heq ▸ h0)
    exact h.distinct j k u u' hu hu' (hug ▸ h0) (hug.trans (heq.trans hug'.symm))
  · rcases h.latest with hlt | ⟨hnext, hlatest, halloc, hprocs⟩
    · exact .inl hlt
    refine .inr ⟨hnext, hlatest, halloc,
      fun t ht => ⟨?_, hxmin (by rw [hnext, hlatest]; exact lt_irrefl _) t ht⟩⟩
    obtain ⟨j, hj⟩ := mem_iff_getElem?.mp ht
    rcases hback j t hj with h0 | ⟨t', ht', heq⟩
    · exact h0
    · exact heq ▸ (hprocs t' (mem_of_getElem? ht')).1

theorem Inv.connect : Inv p n { s with procs := s.procs ++ [⟨0, 0⟩] } := by
  refine h.setProcs (fun j t ht => ?_) (fun j t ht => ?_) fun hno => ?_
  · rcases lt_or_ge j s.procs.length with hj | hj
    · rw [getElem?_append_left hj] at ht
      exact .inr ⟨t, ht, rfl⟩
    rw [getElem?_append_right hj] at ht
    have hmem := mem_of_getElem? ht
    rw [mem_singleton.mp hmem]
    exact .inl rfl
  · obtain ⟨hj, -⟩ := List.getElem?_eq_some_iff.mp ht
    exact ⟨t, by rw [getElem?_append_left hj]; exact ht, rfl⟩
  · obtain ⟨-, -, -, hprocs⟩ := h.latest.resolve_left hno
    exact forall_mem_append.mpr
      ⟨fun t ht => (hprocs t ht).2, forall_mem_singleton.mpr (.inl rfl)⟩

theorem Inv.bump (hlt : s.nextGxid + s.gxidCount + p.num < LastDistributedTransactionId - p.num) :
    Inv p n { s with gxidCount := s.gxidCount + p.num } :=
  { h with limit_lt := by rw [← add_assoc]; exact hlt }

end

variable {i : Nat} {ds : CreatedSnapshot}

/-- A gxid is taken: it is above all others, and above `latestCompletedGxid` unless it is the first
one. -/
theorem Inv.activate (h : Inv p n s) {t : TmGxact} (hi : s.procs[i]? = some t) (h0 : t.gxid = 0)
    (hpos : 0 < s.gxidCount) : Inv p n { s with
      nextGxid := s.nextGxid + 1
      gxidCount := s.gxidCount - 1
      procs := s.procs.set i { t with gxid := s.nextGxid }
      allocated := (i, s.nextGxid) :: s.allocated } := by
  obtain ⟨hlen, -⟩ := List.getElem?_eq_some_iff.mp hi
  have hge := h.start_le
  refine
    { start_le := hge.trans (le_succ _), limit_lt := ?_, allocated := fun j g hmem => ?_,
      running := fun j u hu hu0 => ?_, distinct := fun j k u u' hu hu' hu0 heq => ?_, finished :=
      fun g hg => ?_, latest := ?_ }
  · have hlt := h.limit_lt
    show s.nextGxid + 1 + (s.gxidCount - 1) < _
    omega
  · rcases mem_cons.mp hmem with heq | hmem
    · obtain ⟨rfl, rfl⟩ := Prod.mk.inj heq
      exact ⟨hge, lt_succ_self _, .inl ⟨_, getElem?_set_self hlen, rfl⟩⟩
    obtain ⟨hge', hlt, ⟨u, hu, hug⟩ | hfin⟩ := h.allocated j g hmem
    · refine ⟨hge', hlt.trans (lt_succ_self _), .inl ⟨u, ?_, hug⟩⟩
      have hj : j ≠ i := by
        rintro rfl
        rw [hi, some.injEq] at hu
        have := n.one_le
        rw [← hu, h0] at hug
        omega
      exact (getElem?_set_ne (Ne.symm hj)).trans hu
    · exact ⟨hge', hlt.trans (lt_succ_self _), .inr hfin⟩
  · rcases getElem?_set_cases hu with ⟨-, rfl⟩ | ⟨-, hu⟩
    · exact ⟨lt_succ_self _, fun hfin => lt_irrefl _ (h.finished _ hfin).2⟩
    · obtain ⟨hlt, hfin⟩ := h.running j u hu hu0
      exact ⟨hlt.trans (lt_succ_self _), hfin⟩
  · rcases getElem?_set_cases hu with ⟨hj, rfl⟩ | ⟨-, hold⟩ <;>
      rcases getElem?_set_cases hu' with ⟨hk, rfl⟩ | ⟨-, hold'⟩
    · exact hj.trans hk.symm
    · exact absurd (h.running k u' hold' (heq ▸ hu0)).1 (heq ▸ lt_irrefl _)
    · exact absurd (h.running j u hold hu0).1 (heq ▸ lt_irrefl _)
    · exact h.distinct j k u u' hold hold' hu0 heq
  · exact ⟨(h.finished g hg).1, (h.finished g hg).2.trans (lt_succ_self _)⟩
  · exact .inl (lt_succ_of_le h.latest_le)

theorem Inv.endGxact (h : Inv p n s) {t : TmGxact} (hi : s.procs[i]? = some t) :
    Inv p n (s.endGxact i t) := by
  have hrunning : ∀ (j : Nat) u, (s.procs.set i ⟨0, 0⟩)[j]? = some u → u.gxid ≠ 0 → j ≠ i ∧
      s.procs[j]? = some u := by
    intro j u hu h0
    rcases getElem?_set_cases hu with ⟨-, rfl⟩ | hold
    · exact absurd rfl h0
    · exact hold
  have hmem : ∀ g, g ∈ (s.endGxact i t).finished ↔ (t.gxid ≠ 0 ∧ g = t.gxid) ∨ g ∈ s.finished := by
    intro g
    show g ∈ (if t.gxid ≠ 0 then t.gxid :: s.finished else s.finished) ↔ _
    split
    next h0 => rw [mem_cons, and_iff_right h0]
    next h0 => exact ⟨.inr, fun hg => hg.resolve_left fun hc => h0 hc.1⟩
  have hlatest : s.latestCompletedGxid ≤ (s.endGxact i t).latestCompletedGxid ∧
      (t.gxid ≠ 0 → t.gxid ≤ (s.endGxact i t).latestCompletedGxid) ∧
      ((s.endGxact i t).latestCompletedGxid = s.latestCompletedGxid ∨
        (t.gxid ≠ 0 ∧ (s.endGxact i t).latestCompletedGxid = t.gxid)) := by
    show _ ≤ (if _ then _ else _) ∧ (_ → _ ≤ (if _ then _ else _)) ∧
      ((if _ then _ else _) = _ ∨ _ ∧ (if _ then _ else _) = _)
    split
    next hc => exact ⟨hc.2.le, fun _ => le_rfl, .inr ⟨hc.1, rfl⟩⟩
    next hc => exact ⟨le_rfl, fun h0 => Nat.le_of_not_lt fun hlt => hc ⟨h0, hlt⟩, .inl rfl⟩
  refine { h with
    allocated := fun j g hg => ?_, running := fun j u hu h0 => ?_,
    distinct := fun j k u u' hu hu' h0 heq => ?_, finished := fun g hg =>
                  ?_, latest := ?_ }
  · obtain ⟨hge, hlt, hcase⟩ := h.allocated j g hg
    refine ⟨hge, hlt, ?_⟩
    rcases hcase with ⟨u, hu, hug⟩ | hfin
    · by_cases hj : j = i
      · rw [hj, hi, some.injEq] at hu
        have hpos := n.one_le
        refine .inr ((hmem g).mpr (.inl ⟨?_, ?_⟩))
        · rw [hu, hug]
          exact ne_of_gt (hpos.trans hge)
        · rw [hu, hug]
      · exact .inl ⟨u, (getElem?_set_ne (Ne.symm hj)).trans hu, hug⟩
    · exact .inr ((hmem g).mpr (.inr hfin))
  · obtain ⟨hj, hold⟩ := hrunning j u hu h0
    obtain ⟨hlt, hfin⟩ := h.running j u hold h0
    refine ⟨hlt, fun hc => ?_⟩
    rcases (hmem _).mp hc with ⟨-, heq⟩ | hc
    · exact hj (h.distinct j i u t hold hi h0 heq)
    · exact hfin hc
  · exact h.distinct j k u u' (hrunning j u hu h0).2 (hrunning k u' hu' (heq ▸ h0)).2 h0 heq
  · rcases (hmem g).mp hg with ⟨h0, rfl⟩ | hg
    · exact ⟨hlatest.2.1 h0, (h.running i t hi h0).1⟩
    · exact ⟨(h.finished g hg).1.trans hlatest.1, (h.finished g hg).2⟩
  · rcases h.latest with hlt | ⟨hnext, hlat, halloc, hprocs⟩
    · left
      rcases hlatest.2.2 with heq | ⟨h0, heq⟩
      · rw [heq]
        exact hlt
      · rw [heq]
        exact (h.running i t hi h0).1
    right
    have h0 := (hprocs t (mem_of_getElem? hi)).1
    refine ⟨hnext, ?_, halloc, fun u hu => ?_⟩
    · rcases hlatest.2.2 with heq | ⟨hne, -⟩
      · exact heq.trans hlat
      · exact absurd h0 hne
    · rcases mem_or_eq_of_mem_set hu with hu | rfl
      · exact hprocs u hu
      · exact ⟨rfl, .inl rfl⟩

section

variable (h : Inv p n s) (hsnap : s.snapshot i = some (ds, s'))
include h hsnap

theorem Inv.created : i < s.procs.length ∧ ds.Packable ∧ ds.xmax = s.latestCompletedGxid + 1 ∧
      Created (s.latestCompletedGxid + 1) (ListedBy false s.shmCommittedGxidArray s.procs i)
        (fun g => (false = true ∧ g ∈ s.shmCommittedGxidArray) ∨ ∃ t ∈ s.procs, g = t.gxid)
        (fun g => ∃ t ∈ s.procs, g = t.xminDistributedSnapshot) ds ∧
      s' = { s with
        procs := s.procs.modify i fun t =>
          if t.xminDistributedSnapshot = 0 then { t with xminDistributedSnapshot := ds.xmin } else t
          } := by
  unfold snapshot at hsnap
  split at hsnap
  next hi =>
    split at hsnap
    next ds' procs' hcreate =>
      obtain ⟨rfl, rfl⟩ := hsnap
      obtain ⟨-, hcreated, hprocs⟩ := createDistributedSnapshot_spec hcreate
      have hlatest := h.latest_le
      have hnext := h.next_lt
      rw [mod_eq_of_lt (by omega : s.latestCompletedGxid + 1 < 2 ^ 64)] at hcreated
      exact ⟨hi, createDistributedSnapshot_packable hcreate, hcreated.xmax_eq,
        hcreated, by rw [hprocs]⟩
    · cases hsnap
  · cases hsnap

theorem Inv.xmin_fresh
    (hno : ¬(s.latestCompletedGxid < s.nextGxid)) : ds.xmin = n.nextGxid + 1 ∧
    ds.xminAllDistributedSnapshots = n.nextGxid + 1 := by
  obtain ⟨-, hpack, hxmax, hcreated, -⟩ := h.created hsnap
  obtain ⟨-, hlatest, -, hprocs⟩ := h.latest.resolve_left hno
  rw [hlatest] at hxmax
  have hseen : ∀ g, ((false = true ∧ g ∈ s.shmCommittedGxidArray) ∨ ∃ t ∈ s.procs, g = t.gxid) →
      g ≠ 0 → n.nextGxid + 1 ≤ g := by
    rintro g (hc | ⟨t, ht, rfl⟩) h0
    · exact absurd hc.1 Bool.false_ne_true
    · exact absurd (hprocs t ht).1 h0
  have hkept : ∀ g, (∃ t ∈ s.procs, g = t.xminDistributedSnapshot) → g ≠ 0 →
      n.nextGxid + 1 ≤ g := by
    rintro g ⟨t, ht, rfl⟩ h0
    exact ((hprocs t ht).2.resolve_left h0).ge
  have hmin : n.nextGxid + 1 ≤ ds.xmin := hcreated.le_xmin _ hxmax.ge hseen
  have hall : n.nextGxid + 1 ≤ ds.xminAllDistributedSnapshots :=
    hcreated.le_xminAll _ hxmax.ge hseen hkept
  have hxmin : ds.xmin = n.nextGxid + 1 := le_antisymm (hpack.xmin_le.trans_eq hxmax) hmin
  exact ⟨hxmin, le_antisymm (hpack.xminAll_le.trans_eq hxmin) hall⟩

theorem Inv.snapshot : Inv p n s' := by
  obtain ⟨-, -, -, -, rfl⟩ := h.created hsnap
  have hgxid : ∀ t : TmGxact,
      (if t.xminDistributedSnapshot =
      0 then { t with xminDistributedSnapshot := ds.xmin } else t).gxid = t.gxid := by
    intro t
    split <;> rfl
  refine h.setProcs (fun j t ht => .inr ?_) (fun j t ht => ?_) fun hno t ht => ?_
  · rw [getElem?_modify] at ht
    obtain ⟨u, hu, rfl⟩ := map_eq_some_iff.mp ht
    refine ⟨u, hu, ?_⟩
    split
    · exact (hgxid u).symm
    · rfl
  · refine ⟨_, by rw [getElem?_modify, ht]; rfl, ?_⟩
    split
    · exact hgxid t
    · rfl
  · obtain ⟨j, hj⟩ := mem_iff_getElem?.mp ht
    rw [getElem?_modify] at hj
    obtain ⟨u, hu, rfl⟩ := map_eq_some_iff.mp hj
    obtain ⟨-, -, -, hprocs⟩ := h.latest.resolve_left hno
    have hold := (hprocs u (mem_of_getElem? hu)).2
    split
    · split
      · exact .inr (h.xmin_fresh hsnap hno).1
      · exact hold
    · exact hold

end

/-- **Every event keeps the invariant**, and takes gxids from the counter only. -/
theorem Inv.step (h : Inv p n s) {e : QdEvent} (hstep : s.step p e = some s') :
    Inv p n s' ∧ s.nextGxid ≤ s'.nextGxid ∧ ∀ j g, (j, g) ∈ s'.allocated →
    (j, g) ∈ s.allocated ∨ s.nextGxid ≤ g := by
  cases e with
  | connect =>
    cases hstep
    exact ⟨h.connect, le_rfl, fun _ _ => .inl⟩
  | bump =>
    unfold Qd.step at hstep
    dsimp only at hstep
    split at hstep <;> cases hstep
    next hlt => exact ⟨h.bump hlt, le_rfl, fun _ _ => .inl⟩
  | activate i =>
    unfold Qd.step at hstep
    dsimp only at hstep
    split at hstep
    next t ht =>
      split at hstep
      next hc =>
        rw [mod_eq_of_lt h.next_lt] at hstep
        cases hstep
        refine ⟨h.activate ht hc.1 hc.2, le_succ _, fun j g hg => ?_⟩
        rcases mem_cons.mp hg with heq | hg
        · exact .inr (Prod.mk.inj heq).2.ge
        · exact .inl hg
      · cases hstep
    · cases hstep
  | endGxact i =>
    unfold Qd.step at hstep
    dsimp only at hstep
    split at hstep <;> cases hstep
    next t ht => exact ⟨h.endGxact ht, le_rfl, fun _ _ => .inl⟩
  | snapshot i =>
    obtain ⟨⟨ds, s₁⟩, hsnap, rfl⟩ := map_eq_some_iff.mp hstep
    have hinv := h.snapshot hsnap
    obtain ⟨-, -, -, -, rfl⟩ := h.created hsnap
    exact ⟨hinv, le_rfl, fun _ _ => .inl⟩
  | dtmRecovered =>
    cases hstep
    exact ⟨{ h with }, le_rfl, fun _ _ => .inl⟩

theorem Inv.run (h : Inv p n s) (events : List QdEvent)
    (hrun : runSteps (Qd.step p) events s = some t) :
    Inv p n t ∧ s.nextGxid ≤ t.nextGxid ∧ ∀ j g, (j, g) ∈ t.allocated →
    (j, g) ∈ s.allocated ∨ s.nextGxid ≤ g := by
  induction events generalizing s with
  | nil =>
    cases hrun
    exact ⟨h, le_rfl, fun _ _ => .inl⟩
  | cons e events ih =>
    rw [runSteps, bind_eq_some_iff] at hrun
    obtain ⟨s₁, hstep, hrest⟩ := hrun
    obtain ⟨h₁, hle₁, halloc₁⟩ := h.step hstep
    obtain ⟨ht, hle, halloc⟩ := ih h₁ hrest
    refine ⟨ht, hle₁.trans hle, fun j g hg => ?_⟩
    rcases halloc j g hg with hg | hg
    · exact halloc₁ j g hg
    · exact .inr (hle₁.trans hg)

end Qd

/-! ## Snapshots -/

/-- Every gxid of another session that had not ended when the snapshot was taken is listed, or not
below xmax, ever after. -/
def Separates (p : GxidPrefetch) (s s' : Qd) (i : Nat) (ds : CreatedSnapshot) : Prop :=
  ∀ events t, runSteps (step p) events s' = some t → ∀ j g, (j, g) ∈ t.allocated → j ≠ i →
    g ∉ s.finished → g ∈ ds.inProgressXidArray ∨ ds.xmax ≤ g

namespace Qd

variable {p : GxidPrefetch} {n : StartupGxid p} {s s' t : Qd} {i : Nat} {ds : CreatedSnapshot}

theorem Inv.listed_or_later (h : Inv p n s) (hsnap : s.snapshot i = some (ds, s')) {events :
    List QdEvent} (hrun : runSteps (Qd.step p) events s' = some t) {j g : Nat}
    (hg : (j, g) ∈ t.allocated) (hj : j ≠ i) (hfin : g ∉ s.finished) :
    g ∈ ds.inProgressXidArray ∨ ds.xmax ≤ g ∨ s.nextGxid ≤ g := by
  obtain ⟨-, -, halloc⟩ := (h.snapshot hsnap).run events hrun
  obtain ⟨-, -, -, hcreated, rfl⟩ := h.created hsnap
  rcases halloc j g hg with hold | hnew
  · obtain ⟨hge, -, ⟨u, hu, hug⟩ | hc⟩ := h.allocated j g hold
    · rcases lt_or_ge g ds.xmax with hlt | hge'
      · left
        refine (hcreated.mem g).mpr ⟨.inr ⟨j, u, hu, hj, hug.symm⟩, ?_, hlt⟩
        exact ne_of_gt (n.one_le.trans hge)
      · exact .inr (.inl hge')
    · exact absurd hc hfin
  · exact .inr (.inr hnew)

theorem Inv.separates (h : Inv p n s) (hsnap : s.snapshot i = some (ds, s'))
    (hlt : s.latestCompletedGxid < s.nextGxid) : Separates p s s' i ds := by
  intro events t hrun j g hg hj hfin
  obtain ⟨-, -, hxmax, -⟩ := h.created hsnap
  rcases h.listed_or_later hsnap hrun hg hj hfin with hmem | hge | hnext
  · exact .inl hmem
  · exact .inr hge
  · exact .inr (hxmax.trans_le (hlt.trans_le hnext))

theorem Exhausted.step {e : QdEvent} (hex : s.Exhausted p) (hstep : s.step p e = some s') :
    s'.Exhausted p ∧ s'.allocated = s.allocated := by
  obtain ⟨hcount, hlast⟩ := hex
  cases e with
  | connect | dtmRecovered =>
    cases hstep
    exact ⟨⟨hcount, hlast⟩, rfl⟩
  | bump =>
    unfold Qd.step at hstep
    rw [hcount, add_zero, if_neg (not_lt.mpr hlast)] at hstep
    cases hstep
  | activate i =>
    unfold Qd.step at hstep
    dsimp only at hstep
    rw [hcount] at hstep
    split at hstep
    · rw [if_neg fun hc => lt_irrefl 0 hc.2] at hstep
      cases hstep
    · cases hstep
  | endGxact i =>
    unfold Qd.step at hstep
    dsimp only at hstep
    split at hstep <;> cases hstep
    · exact ⟨⟨hcount, hlast⟩, rfl⟩
  | snapshot i =>
    obtain ⟨⟨ds, s₁⟩, hsnap, rfl⟩ := map_eq_some_iff.mp hstep
    unfold snapshot at hsnap
    split at hsnap
    · split at hsnap
      · cases hsnap
        exact ⟨⟨hcount, hlast⟩, rfl⟩
      · cases hsnap
    · cases hsnap

theorem Exhausted.run (hex : s.Exhausted p) (events : List QdEvent)
    (hrun : runSteps (Qd.step p) events s = some t) : t.allocated = s.allocated := by
  induction events generalizing s with
  | nil =>
    cases hrun
    rfl
  | cons e events ih =>
    rw [runSteps, bind_eq_some_iff] at hrun
    obtain ⟨s₁, hstep, hrest⟩ := hrun
    obtain ⟨hex₁, heq⟩ := hex.step hstep
    exact (ih hex₁ hrest).trans heq

theorem Inv.separates_exhausted (h : Inv p n s) (hsnap : s.snapshot i = some (ds, s'))
    (hno : ¬(s.latestCompletedGxid < s.nextGxid)) (hex : s.Exhausted p) :
    Separates p s s' i ds := by
  intro events t hrun j g hg _ _
  obtain ⟨-, -, halloc, -⟩ := h.latest.resolve_left hno
  obtain ⟨-, -, -, -, hs'⟩ := h.created hsnap
  have hex' : s'.Exhausted p := by
    rw [hs']
    exact hex
  have hnone : t.allocated = [] := by
    rw [hex'.run events hrun, hs']
    exact halloc
  rw [hnone] at hg
  exact absurd hg not_mem_nil

theorem exists_activate (hex : ¬s.Exhausted p) :
    ∃ t events, runSteps (step p) events s = some t ∧
    (s.procs.length, s.nextGxid) ∈ t.allocated := by
  have hactivate : ∀ {u : Qd}, u.procs = s.procs ++ [⟨0, 0⟩] → u.nextGxid = s.nextGxid →
      0 < u.gxidCount → ∃ t, u.step p (.activate s.procs.length) = some t ∧
      (s.procs.length, s.nextGxid) ∈ t.allocated := by
    intro u hprocs hnext hpos
    have hget : u.procs[s.procs.length]? = some ⟨0, 0⟩ := by
      rw [hprocs]
      exact getElem?_concat_length
    unfold step
    dsimp only
    rw [hget]
    dsimp only
    rw [if_pos ⟨rfl, hpos⟩, hnext]
    exact ⟨_, rfl, mem_cons_self⟩
  by_cases hcount : s.gxidCount = 0
  · have hlt : s.nextGxid + s.gxidCount + p.num < LastDistributedTransactionId - p.num := by
      rw [hcount, add_zero]
      exact Nat.lt_of_not_le fun hc => hex ⟨hcount, hc⟩
    have hbump : step p { s with procs := s.procs ++ [⟨0, 0⟩] } .bump =
        some { s with procs := s.procs ++ [⟨0, 0⟩], gxidCount := s.gxidCount + p.num } := if_pos hlt
    obtain ⟨t, ht, hmem⟩ :=
      hactivate (u := { s with procs := s.procs ++ [⟨0, 0⟩], gxidCount := s.gxidCount + p.num }) rfl
      rfl ((lt_of_lt_of_le (by decide) p.num_min).trans_le (le_add_left _ _))
    refine ⟨t, [.connect, .bump, .activate s.procs.length], ?_, hmem⟩
    show (step p { s with procs := s.procs ++ [⟨0, 0⟩] } .bump).bind
      (runSteps (step p) [.activate s.procs.length]) = _
    rw [hbump, bind_some, runSteps, ht]
    rfl
  · obtain ⟨t, ht, hmem⟩ :=
      hactivate (u := { s with procs := s.procs ++ [⟨0, 0⟩] }) rfl rfl (pos_of_ne_zero hcount)
    refine ⟨t, [.connect, .activate s.procs.length], ?_, hmem⟩
    show (step p { s with procs := s.procs ++ [⟨0, 0⟩] } (.activate s.procs.length)).bind _ = _
    rw [ht]
    rfl

theorem Inv.not_separates (h : Inv p n s) (hsnap : s.snapshot i = some (ds, s'))
    (hno : ¬(s.latestCompletedGxid < s.nextGxid)) (hex : ¬s.Exhausted p) :
    ¬Separates p s s' i ds := by
  intro hsep
  obtain ⟨hnext, hlatest, -, hprocs⟩ := h.latest.resolve_left hno
  obtain ⟨t, events, hrun, hmem⟩ : ∃ t events, runSteps (Qd.step p) events s' = some t ∧
      (s'.procs.length, s'.nextGxid) ∈ t.allocated := by
    refine exists_activate (fun hc => hex ?_)
    obtain ⟨-, -, -, -, rfl⟩ := h.created hsnap
    exact hc
  obtain ⟨hi, -, hxmax, hcreated, hs'⟩ := h.created hsnap
  have hnext' : s'.nextGxid = n.nextGxid := by
    rw [hs']
    exact hnext
  have hlen : s'.procs.length = s.procs.length := by
    rw [hs']
    exact length_modify _ _ _
  rw [hnext'] at hmem
  have hfin : n.nextGxid ∉ s.finished := fun hfin => lt_irrefl _ (hnext ▸ (h.finished _ hfin).2)
  rcases hsep events t hrun _ _ hmem (by rw [hlen]; exact ne_of_gt hi) hfin with hlist | hge
  · obtain ⟨hlisted, h0, -⟩ := (hcreated.mem _).mp hlist
    rcases hlisted with hc | ⟨j, u, hu, -, heq⟩
    · exact Bool.false_ne_true hc.1
    · exact h0 (heq.trans (hprocs u (mem_of_getElem? hu)).1)
  · rw [hxmax, hlatest] at hge
    exact not_succ_le_self _ hge

theorem Inv.not_visible (h : Inv p n s) (hsnap : s.snapshot i = some (ds, s'))
    (hp : ds.Packable) {events : List QdEvent} (hrun : runSteps (Qd.step p) events s' = some t)
    {j g : Nat} (hg : (j, g) ∈ t.allocated) (hj : j ≠ i) (hfin : g ∉ s.finished) :
    (ds.pack hp).answerOf (some (BitVec.ofNat 64 g)) ≠ .visible := by
  obtain ⟨ht, -, -⟩ := (h.snapshot hsnap).run events hrun
  have hlt : g < 2 ^ 64 := (ht.allocated j g hg).2.1.trans (lt_of_succ_lt ht.next_lt)
  obtain ⟨-, -, hxmax, -⟩ := h.created hsnap
  rcases h.listed_or_later hsnap hrun hg hj hfin with hmem | hge | hnext
  · have hlisted : BitVec.ofNat 64 g ∈ (ds.pack hp).inProgressXidArray :=
      List.mem_map_of_mem (mem_mergeSort.mpr hmem)
    rw [answerOf_listed _ hlisted]
    decide
  · exact answerOf_ne_visible _ (.inr (ofNat_le_ofNat hge hlt))
  by_cases hfirst : s.latestCompletedGxid < s.nextGxid
  · exact answerOf_ne_visible _
      (.inr (ofNat_le_ofNat (hxmax.trans_le (hfirst.trans_le hnext)) hlt))
  -- no gxid is taken yet: the first one is below all snapshots, any other one is not below xmax
  obtain ⟨hn, hlatest, -⟩ := h.latest.resolve_left hfirst
  have hall := (h.xmin_fresh hsnap hfirst).2
  rw [hn] at hnext
  rcases eq_or_lt_of_le hnext with heq | hlater
  · refine answerOf_ne_visible _ (.inl (ofNat_lt_ofNat ?_ ?_))
    · rw [hall, heq]
      exact lt_succ_self _
    · exact hp.xminAll_le.trans_lt (hp.xmin_le.trans_lt hp.xmax_lt)
  · refine answerOf_ne_visible _ (.inr (ofNat_le_ofNat ?_ hlt))
    rw [hxmax, hlatest]
    exact hlater

end Qd

/-- **Snapshots separate past from future** just if a gxid was taken since the start, or none is
left: the first gxid after a start is below the xmax of a snapshot taken before it.  In any case the
bounds are in order, what has ended is below xmax and not listed, and what has not is never visible.
-/
theorem snapshot_separates (p : GxidPrefetch) (n : StartupGxid p) (committed : List Nat)
    (events : List QdEvent) (s s' : Qd) (i : Nat) (ds : CreatedSnapshot)
    (hrun : runSteps (step p) events (.startup n committed) = some s)
    (hsnap : s.snapshot i = some (ds, s')) :
    ds.xminAllDistributedSnapshots ≤ ds.xmin ∧ ds.xmin ≤ ds.xmax ∧
      (∀ g ∈ s.finished, g < ds.xmax ∧ g ∉ ds.inProgressXidArray) ∧
      (∀ hp : ds.Packable, ∀ events' t, runSteps (step p) events' s' = some t →
        ∀ j g, (j, g) ∈ t.allocated → j ≠ i → g ∉ s.finished →
        (ds.pack hp).answerOf (some (BitVec.ofNat 64 g)) ≠ .visible) ∧
      (Separates p s s' i ds ↔ s.latestCompletedGxid < s.nextGxid ∨ s.Exhausted p) := by
  have h : Inv p n s := runSteps_invariant (fun h hstep => (h.step hstep).1) events
    (.startup n committed) hrun
  obtain ⟨-, hpack, hxmax, hcreated, -⟩ := h.created hsnap
  refine ⟨hpack.xminAll_le, hpack.xmin_le, fun g hg => ⟨?_, fun hmem => ?_⟩,
    fun hp events' t hrun' j g hg hj hfin => h.not_visible hsnap hp hrun' hg hj hfin, fun hsep =>
    ?_, fun hor => ?_⟩
  · rw [hxmax]
    exact lt_succ_of_le (h.finished g hg).1
  · obtain ⟨hlisted, h0, -⟩ := (hcreated.mem g).mp hmem
    rcases hlisted with hc | ⟨j, t, ht, -, rfl⟩
    · exact Bool.false_ne_true hc.1
    · exact (h.running j t ht h0).2 hg
  · by_contra hno
    obtain ⟨hlt, hex⟩ := not_or.mp hno
    exact h.not_separates hsnap hlt hex hsep
  · by_cases hlt : s.latestCompletedGxid < s.nextGxid
    · exact h.separates hsnap hlt
    · exact h.separates_exhausted hsnap hlt (hor.resolve_left hlt)

/-- Two sessions take the gxids 1 and 2; the second one has ended when a third session takes a
snapshot. -/
theorem snapshot_separates_run : ∃ s s' ds, runSteps (step ⟨8192, by decide, by decide⟩)
        [.connect, .connect, .connect, .bump, .activate 0, .activate 1, .endGxact 1]
        (.startup firstStart []) = some s ∧
      s.snapshot 2 = some (ds, s') ∧ ds = ⟨1, 1, 3, [1]⟩ ∧
        Separates ⟨8192, by decide, by decide⟩ s s' 2 ds := by
  have hrun : runSteps (step ⟨8192, by decide, by decide⟩)
      [.connect, .connect, .connect, .bump, .activate 0, .activate 1, .endGxact 1]
      (.startup firstStart []) =
    some ⟨3, 8190, 2, [], [⟨1, 0⟩, ⟨0, 0⟩, ⟨0, 0⟩], [(1, 2), (0, 1)], [2]⟩ := by decide +kernel
  refine ⟨_, ⟨3, 8190, 2, [], [⟨1, 0⟩, ⟨0, 0⟩, ⟨0, 1⟩], [(1, 2), (0, 1)], [2]⟩, _,
    hrun, by decide +kernel, rfl, ?_⟩
  exact (snapshot_separates _ firstStart [] _ _ _ 2 _ hrun (by decide +kernel)).2.2.2.2.mpr
    (.inl (by decide))

/-- A snapshot is taken before the first gxid: its xmax is 2.  Then another session takes the gxid
1, which is neither listed nor from xmax on. -/
theorem snapshot_before_first_gxid :
    ∃ s s' ds t, runSteps (step ⟨8192, by decide, by decide⟩) [.connect, .connect]
      (.startup firstStart []) = some s ∧ s.snapshot 0 = some (ds, s') ∧
      runSteps (step ⟨8192, by decide, by decide⟩) [.bump, .activate 1] s' = some t ∧
      (1, 1) ∈ t.allocated ∧ 1 ∉ s.finished ∧ 1 ∉ ds.inProgressXidArray ∧ 1 < ds.xmax :=
  ⟨⟨1, 0, 1, [], [⟨0, 0⟩, ⟨0, 0⟩], [], []⟩, ⟨1, 0, 1, [], [⟨0, 2⟩, ⟨0, 0⟩], [], []⟩, ⟨2, 2, 2, []⟩,
    ⟨2, 8191, 1, [], [⟨0, 2⟩, ⟨1, 0⟩], [(1, 1)], []⟩, by decide +kernel, by decide +kernel,
    by decide +kernel, by decide, by decide, by decide, by decide⟩

end PolemoDB.Cdb
