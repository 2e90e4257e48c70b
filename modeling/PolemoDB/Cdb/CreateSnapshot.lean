import PolemoDB.Cdb.DistributedSnapshot
import PolemoDB.Cdb.DtxCheckpoint

/-!
# Taking a distributed snapshot

`CreateDistributedSnapshot` reads `latestCompletedGxid` and the gxids of the other sessions; on a
hot standby it reads `shmCommittedGxidArray` as well, since the sessions there have no gxids.

* `createDistributedSnapshot` — as the coordinator computes it, under `ProcArrayLock`;
* `CreatedSnapshot.pack` — the snapshot as it is dispatched and tested, its array sorted.
-/

namespace PolemoDB.Cdb

open PolemoDB.Lib PolemoDB.Transam List

/-! ## Model -/

/-- What a snapshot reads of `TMGXACT`. -/
structure TmGxact where
  gxid : Nat
  xminDistributedSnapshot : Nat
  deriving DecidableEq, Repr

/-- The snapshot while it is being computed, with `globalXminDistributedSnapshots` in the place of
its last value. -/
structure CreatedSnapshot where
  xminAllDistributedSnapshots : Nat
  xmin : Nat
  xmax : Nat
  inProgressXidArray : List Nat
  deriving DecidableEq, Repr

/-- The error of `CreateDistributedSnapshot`. -/
inductive CreateSnapshotError
  | beforeDtmRecovery
  deriving DecidableEq, Repr

namespace CreatedSnapshot

/-- One gxid: nothing is done with none, or one from xmax on; else it is taken into xmin, and listed
if it is to be. -/
def visitGxid (isListed : Bool) (a : CreatedSnapshot) (gxid : Nat) : CreatedSnapshot :=
  if gxid = 0 ∨ a.xmax ≤ gxid then a
  else
    let a := if gxid < a.xmin then { a with xmin := gxid } else a
    if isListed then { a with inProgressXidArray := a.inProgressXidArray ++ [gxid] } else a

def keepXmin (a : CreatedSnapshot) (dxid : Nat) : CreatedSnapshot :=
  if dxid ≠ 0 ∧ dxid < a.xminAllDistributedSnapshots
  then { a with xminAllDistributedSnapshots := dxid } else a

/-- One session, with its place in the array of sessions; its own gxid is not listed. -/
def visitProc (me : Nat) (a : CreatedSnapshot) (proc : TmGxact × Nat) : CreatedSnapshot :=
  (a.keepXmin proc.1.xminDistributedSnapshot).visitGxid (decide (proc.2 ≠ me)) proc.1.gxid

/-- The last value of `globalXminDistributedSnapshots` takes in the gxids of the sessions. -/
def finish (a : CreatedSnapshot) : CreatedSnapshot :=
  if a.xmin < a.xminAllDistributedSnapshots then { a with xminAllDistributedSnapshots := a.xmin }
  else a

end CreatedSnapshot

/-- `CreateDistributedSnapshot`, by the session `me`: the snapshot, and the sessions with the xmin
that is kept for it. -/
def createDistributedSnapshot (isHotStandby : Bool) (shmCommittedGxidArray : List Nat)
    (latestCompletedGxid : Nat) (procs : List TmGxact) (me : Nat) :
    Except CreateSnapshotError (CreatedSnapshot × List TmGxact) :=
  if !isHotStandby ∧ shmCommittedGxidArray ≠ [] then .error .beforeDtmRecovery
  else
    let xmax := (latestCompletedGxid + 1) % 2 ^ 64
    let a : CreatedSnapshot := ⟨xmax, xmax, xmax, []⟩
    let a :=
      if isHotStandby then shmCommittedGxidArray.foldl (CreatedSnapshot.visitGxid true) a else a
    let ds := (procs.zipIdx.foldl (CreatedSnapshot.visitProc me) a).finish
    .ok (ds, procs.modify me fun t => if t.xminDistributedSnapshot =
      0 then { t with xminDistributedSnapshot := ds.xmin } else t)

/-! ## What it guarantees -/

/-- The snapshot lists the gxids of `listed` that are below xmax, and its bounds take in all gxids
of `seen` and all xmins of `kept`. -/
structure Created (xmax : Nat) (listed seen kept : Nat → Prop) (ds : CreatedSnapshot) : Prop where
  xmax_eq : ds.xmax = xmax
  xmin_le : ds.xmin ≤ ds.xmax
  mem : ∀ g, g ∈ ds.inProgressXidArray ↔ listed g ∧ g ≠ 0 ∧ g < ds.xmax
  xmin_le_mem : ∀ g ∈ ds.inProgressXidArray, ds.xmin ≤ g
  /-- xmin is not below what it takes in -/
  le_xmin : ∀ c, c ≤ ds.xmax → (∀ g, seen g → g ≠ 0 → c ≤ g) → c ≤ ds.xmin
  le_xminAll : ∀ c, c ≤ ds.xmax → (∀ g, seen g → g ≠ 0 → c ≤ g) → (∀ g, kept g → g ≠ 0 → c ≤ g) →
    c ≤ ds.xminAllDistributedSnapshots

namespace Created

variable {xmax : Nat} {listed seen kept listed' seen' kept' : Nat → Prop} {a : CreatedSnapshot}

theorem start (xmax : Nat) :
    Created xmax (fun _ => False) (fun _ => False) (fun _ => False) ⟨xmax, xmax, xmax, []⟩ where
  xmax_eq := rfl
  xmin_le := le_rfl
  mem := fun _ => ⟨nofun, fun h => h.1.elim⟩
  xmin_le_mem := nofun
  le_xmin := fun _ hc _ => hc
  le_xminAll := fun _ hc _ _ => hc

section

variable (h : Created xmax listed seen kept a)
include h

theorem congr (hl : ∀ g, listed g ↔ listed' g) (hs : ∀ g, seen g ↔ seen' g)
    (hk : ∀ g, kept g ↔ kept' g) : Created xmax listed' seen' kept' a := by
  obtain rfl : listed = listed' := funext fun g => propext (hl g)
  obtain rfl : seen = seen' := funext fun g => propext (hs g)
  obtain rfl : kept = kept' := funext fun g => propext (hk g)
  exact h

theorem visitGxid (isListed : Bool) (gxid : Nat) :
    Created xmax (fun g => listed g ∨ (isListed = true ∧ g = gxid)) (fun g => seen g ∨ g = gxid)
    kept (a.visitGxid isListed gxid) := by
  unfold CreatedSnapshot.visitGxid
  by_cases hskip : gxid = 0 ∨ a.xmax ≤ gxid
  · rw [if_pos hskip]
    refine { h with mem := fun g => ?_, le_xmin := ?_, le_xminAll := ?_ }
    · rw [h.mem]
      constructor
      · rintro ⟨hl, h0, hlt⟩
        exact ⟨.inl hl, h0, hlt⟩
      · rintro ⟨hl | ⟨-, rfl⟩, h0, hlt⟩
        · exact ⟨hl, h0, hlt⟩
        · exact absurd hskip (not_or.mpr ⟨h0, Nat.not_le.mpr hlt⟩)
    · exact fun c hc hs => h.le_xmin c hc fun g hg => hs g (.inl hg)
    · exact fun c hc hs => h.le_xminAll c hc fun g hg => hs g (.inl hg)
  · rw [if_neg hskip]
    obtain ⟨h0, hlt⟩ := not_or.mp hskip
    have hmin : (if gxid < a.xmin then { a with xmin := gxid } else a) =
      { a with xmin := min gxid a.xmin } := by
      split
      next hlt => rw [min_eq_left hlt.le]
      next hge => rw [min_eq_right (Nat.le_of_not_lt hge)]
    -- the bounds are the same, whether the gxid is listed or not
    have hbounds : ∀ array :
        List Nat, (∀ g, g ∈ array ↔ (listed g ∨ (isListed = true ∧ g = gxid)) ∧ g ≠ 0 ∧
        g < a.xmax) → (∀ g ∈ array, g ∈ a.inProgressXidArray ∨ g = gxid) →
        Created xmax (fun g => listed g ∨ (isListed = true ∧ g = gxid)) (fun g => seen g ∨ g = gxid)
          kept { a with xmin := min gxid a.xmin, inProgressXidArray := array } :=
          fun array hmem harray =>
      { xmax_eq := h.xmax_eq
        xmin_le := (min_le_right _ _).trans h.xmin_le
        mem := hmem
        xmin_le_mem := fun g hg => by
          rcases harray g hg with hg | rfl
          · exact (min_le_right _ _).trans (h.xmin_le_mem g hg)
          · exact min_le_left _ _
        le_xmin := fun c hc hs =>
          le_min (hs gxid (.inr rfl) h0) (h.le_xmin c hc fun g hg => hs g (.inl hg))
        le_xminAll := fun c hc hs => h.le_xminAll c hc fun g hg => hs g (.inl hg) }
    rw [hmin]
    cases isListed with
    | false =>
      refine hbounds _ (fun g => ?_) fun g hg => .inl hg
      rw [h.mem]
      exact and_congr_left fun _ =>
        ⟨.inl, fun hl => hl.resolve_right fun hc => Bool.false_ne_true hc.1⟩
    | true =>
      refine hbounds _ (fun g => ?_) fun g hg => (mem_append.mp hg).imp id fun hg =>
        mem_singleton.mp hg
      rw [mem_append, mem_singleton, h.mem]
      constructor
      · rintro (⟨hl, hg⟩ | rfl)
        · exact ⟨.inl hl, hg⟩
        · exact ⟨.inr ⟨rfl, rfl⟩, h0, Nat.lt_of_not_le hlt⟩
      · rintro ⟨hl | ⟨-, rfl⟩, hg⟩
        · exact .inl ⟨hl, hg⟩
        · exact .inr rfl

theorem keepXmin (dxid : Nat) :
    Created xmax listed seen (fun g => kept g ∨ g = dxid) (a.keepXmin dxid) := by
  unfold CreatedSnapshot.keepXmin
  split
  next hd => exact { h with le_xminAll := fun c _ _ hk => hk dxid (.inr rfl) hd.1 }
  · exact { h with le_xminAll := fun c hc hs hk => h.le_xminAll c hc hs fun g hg => hk g (.inl hg) }

theorem visitProc (me : Nat) (proc : TmGxact × Nat) :
    Created xmax (fun g => listed g ∨ (proc.2 ≠ me ∧ g = proc.1.gxid))
      (fun g => seen g ∨ g = proc.1.gxid) (fun g => kept g ∨ g = proc.1.xminDistributedSnapshot)
      (a.visitProc me proc) := by
  refine ((h.keepXmin proc.1.xminDistributedSnapshot).visitGxid
    (decide (proc.2 ≠ me)) proc.1.gxid).congr (fun g => ?_) (fun _ => Iff.rfl) fun _ => Iff.rfl
  rw [decide_eq_true_eq]

end

theorem foldl_visitGxid (gxids : List Nat) (h : Created xmax listed seen kept a) :
    Created xmax (fun g => listed g ∨ g ∈ gxids) (fun g => seen g ∨ g ∈ gxids) kept
      (gxids.foldl (CreatedSnapshot.visitGxid true) a) := by
  induction gxids generalizing listed seen a with
  | nil => exact h.congr (fun g => by simp) (fun g => by simp) fun _ => Iff.rfl
  | cons gxid gxids ih =>
    refine (ih (h.visitGxid true gxid)).congr (fun g => ?_) (fun g => ?_) fun _ => Iff.rfl
    · rw [mem_cons, or_assoc, and_iff_right rfl]
    · rw [mem_cons, or_assoc]

theorem foldl_visitProc (me : Nat) (procs : List (TmGxact × Nat))
    (h : Created xmax listed seen kept a) :
      Created xmax (fun g => listed g ∨ ∃ t ∈ procs, t.2 ≠ me ∧ g = t.1.gxid)
      (fun g => seen g ∨ ∃ t ∈ procs, g = t.1.gxid)
      (fun g => kept g ∨ ∃ t ∈ procs, g = t.1.xminDistributedSnapshot)
      (procs.foldl (CreatedSnapshot.visitProc me) a) := by
  induction procs generalizing listed seen kept a with
  | nil => exact h.congr (fun g => by simp) (fun g => by simp) fun g => by simp
  | cons t procs ih =>
    refine (ih (h.visitProc me t)).congr (fun g => ?_) (fun g => ?_) fun g => ?_
    · rw [exists_mem_cons_iff, or_assoc]
    · rw [exists_mem_cons_iff, or_assoc]
    · rw [exists_mem_cons_iff, or_assoc]

theorem finish (h : Created xmax listed seen kept a) :
    Created xmax listed seen kept a.finish ∧
    a.finish.xminAllDistributedSnapshots ≤ a.finish.xmin := by
  unfold CreatedSnapshot.finish
  split
  · exact ⟨{ h with le_xminAll := fun c hc hs _ => h.le_xmin c hc hs }, le_rfl⟩
  next hge => exact ⟨h, Nat.le_of_not_lt hge⟩

end Created

/-- The gxids that a snapshot may list: of the other sessions, and on a hot standby the committed
ones. -/
def ListedBy (isHotStandby : Bool) (shmCommittedGxidArray : List Nat) (procs : List TmGxact)
    (me : Nat) (g : Nat) : Prop :=
  (isHotStandby = true ∧ g ∈ shmCommittedGxidArray) ∨ ∃ j t, procs[j]? = some t ∧ j ≠ me ∧
    g = t.gxid

variable {isHotStandby : Bool} {committed : List Nat} {latest me a b : Nat} {procs procs' :
  List TmGxact} {ds : CreatedSnapshot}

theorem createDistributedSnapshot_spec
    (h : createDistributedSnapshot isHotStandby committed latest procs me = .ok (ds, procs')) :
    ds.xminAllDistributedSnapshots ≤ ds.xmin ∧
      Created ((latest + 1) % 2 ^ 64) (ListedBy isHotStandby committed procs me)
        (fun g => (isHotStandby = true ∧ g ∈ committed) ∨ ∃ t ∈ procs, g = t.gxid)
        (fun g => ∃ t ∈ procs, g = t.xminDistributedSnapshot) ds ∧
      procs' = procs.modify me fun t =>
        if t.xminDistributedSnapshot =
          0 then { t with xminDistributedSnapshot := ds.xmin } else t := by
  unfold createDistributedSnapshot at h
  split at h
  · cases h
  obtain ⟨rfl, rfl⟩ := h
  have hfirst : Created ((latest + 1) % 2 ^ 64) (fun g => isHotStandby = true ∧ g ∈ committed)
      (fun g => isHotStandby = true ∧ g ∈ committed) (fun _ => False)
      (if isHotStandby then committed.foldl (CreatedSnapshot.visitGxid true)
        ⟨(latest + 1) % 2 ^ 64, (latest + 1) % 2 ^ 64, (latest + 1) % 2 ^ 64, []⟩
        else ⟨(latest + 1) % 2 ^ 64, (latest + 1) % 2 ^ 64, (latest + 1) % 2 ^ 64, []⟩) := by
    have hstart := Created.start ((latest + 1) % 2 ^ 64)
    cases isHotStandby with
    | false => exact hstart.congr (fun g => by simp) (fun g => by simp) fun _ => Iff.rfl
    | true =>
      exact (hstart.foldl_visitGxid committed).congr (fun g => by simp) (fun g => by simp) fun _ =>
        Iff.rfl
  obtain ⟨hcreated, hle⟩ := (hfirst.foldl_visitProc me procs.zipIdx).finish
  have hplace : ∀ x : TmGxact × Nat, x ∈ procs.zipIdx ↔ procs[x.2]? = some x.1 := fun x =>
    mem_zipIdx_iff_getElem?
  have hexists : ∀ P : TmGxact → Prop, (∃ x ∈ procs.zipIdx, P x.1) ↔ ∃ t ∈ procs, P t := by
    intro P
    constructor
    · rintro ⟨x, hx, hp⟩
      exact ⟨x.1, mem_of_getElem? ((hplace x).mp hx), hp⟩
    · rintro ⟨t, ht, hp⟩
      obtain ⟨j, hj⟩ := mem_iff_getElem?.mp ht
      exact ⟨(t, j), (hplace (t, j)).mpr hj, hp⟩
  refine ⟨hle, hcreated.congr (fun g => or_congr_right ?_)
    (fun g => or_congr_right (hexists fun t => g = t.gxid)) (fun g => ?_), rfl⟩
  · constructor
    · rintro ⟨x, hx, hne, hg⟩
      exact ⟨x.2, x.1, (hplace x).mp hx, hne, hg⟩
    · rintro ⟨j, t, hj, hne, hg⟩
      exact ⟨(t, j), (hplace (t, j)).mpr hj, hne, hg⟩
  · rw [false_or]
    exact hexists fun t => g = t.xminDistributedSnapshot

/-! ## The snapshot as it is tested -/

/-- The order that a snapshot keeps, in 64 bits. -/
structure CreatedSnapshot.Packable (ds : CreatedSnapshot) : Prop where
  xminAll_le : ds.xminAllDistributedSnapshots ≤ ds.xmin
  xmin_le : ds.xmin ≤ ds.xmax
  xmax_lt : ds.xmax < 2 ^ 64
  between : ∀ g ∈ ds.inProgressXidArray, ds.xmin ≤ g ∧ g < ds.xmax

theorem ofNat_le_ofNat (h : a ≤ b) (hb : b < 2 ^ 64) : BitVec.ofNat 64 a ≤ BitVec.ofNat 64 b := by
  rw [BitVec.le_def, BitVec.toNat_ofNat, BitVec.toNat_ofNat, Nat.mod_eq_of_lt (h.trans_lt hb),
    Nat.mod_eq_of_lt hb]
  exact h

theorem ofNat_lt_ofNat (h : a < b) (hb : b < 2 ^ 64) : BitVec.ofNat 64 a < BitVec.ofNat 64 b := by
  rw [BitVec.lt_def, BitVec.toNat_ofNat, BitVec.toNat_ofNat, Nat.mod_eq_of_lt (h.trans hb),
    Nat.mod_eq_of_lt hb]
  exact h

/-- The snapshot that is dispatched: its array is sorted by `GetSnapshotData`. -/
def CreatedSnapshot.pack (ds : CreatedSnapshot) (h : ds.Packable) : DistributedSnapshot where
  xminAllDistributedSnapshots := BitVec.ofNat 64 ds.xminAllDistributedSnapshots
  xmin := BitVec.ofNat 64 ds.xmin
  xmax := BitVec.ofNat 64 ds.xmax
  inProgressXidArray := (ds.inProgressXidArray.mergeSort fun a b => decide (a ≤ b)).map
    (BitVec.ofNat 64)
  xminAll_le := ofNat_le_ofNat h.xminAll_le (h.xmin_le.trans_lt h.xmax_lt)
  xmin_le := ofNat_le_ofNat h.xmin_le h.xmax_lt
  ascending := by
    have hsorted := @List.pairwise_mergeSort Nat (fun a b => decide (a ≤ b))
      (fun a b c hab hbc => decide_eq_true ((of_decide_eq_true hab).trans (of_decide_eq_true hbc)))
      (fun a b => by rw [Bool.or_eq_true, decide_eq_true_eq, decide_eq_true_eq]; exact le_total a b)
      ds.inProgressXidArray
    refine List.pairwise_map.mpr (hsorted.imp_of_mem fun {a b} _ hb hab => ?_)
    exact ofNat_le_ofNat (of_decide_eq_true hab)
      ((h.between b (List.mem_mergeSort.mp hb)).2.trans h.xmax_lt)
  between := fun g hg => by
    obtain ⟨g', hg', rfl⟩ := List.mem_map.mp hg
    obtain ⟨hmin, hmax⟩ := h.between g' (List.mem_mergeSort.mp hg')
    exact ⟨ofNat_le_ofNat hmin (hmax.trans h.xmax_lt), ofNat_lt_ofNat hmax h.xmax_lt⟩

theorem createDistributedSnapshot_packable
    (h : createDistributedSnapshot isHotStandby committed latest procs me = .ok (ds, procs')) :
    ds.Packable := by
  obtain ⟨hall, hcreated, -⟩ := createDistributedSnapshot_spec h
  refine ⟨hall, hcreated.xmin_le, ?_,
    fun g hg => ⟨hcreated.xmin_le_mem g hg, ((hcreated.mem g).mp hg).2.2⟩⟩
  rw [hcreated.xmax_eq]
  exact Nat.mod_lt _ (by decide)

end PolemoDB.Cdb
