import Mathlib.Data.List.Dedup
import Mathlib.Data.List.GetD
import Mathlib.Data.List.Perm.Subperm
import PolemoDB.Cdb.DtxCheckpointCorrect

/-!
# The committed set after a crash

The gxids of the checkpoint are loaded as if their commit records were replayed first.  From then on
the array has the gxids that are committed and not forgotten by the records replayed so far, as long
as there is room for them: the list of the checkpoint is collected after the redo point, so that two
gxids of one session can be in the array at a time.

Principal results: `redoAll_exact`, `recover_exact`.
-/

namespace PolemoDB.Cdb

open PolemoDB.Lib List Option Coordinator

/-! ## Replay -/

def WalRecord.committed? : WalRecord → Option Gxid
  | .commit g => some g
  | _ => none

open WalRecord

/-- The gxids with a commit record and without a forget record. -/
def heldGxids (recs : List WalRecord) : List Gxid :=
  (recs.filterMap committed?).dedup.filter fun g => .forget g ∉ recs

/-- The array has the gxids that are committed and not forgotten, each one once. -/
structure Holds (recs : List WalRecord) (array : List Gxid) : Prop where
  nodup : array.Nodup
  mem : ∀ g, g ∈ array ↔ .commit g ∈ recs ∧ .forget g ∉ recs

section Replay

variable {maxTmGxacts : Nat} {recs : List WalRecord} {array : List Gxid} {g : Gxid}

theorem mem_heldGxids : g ∈ heldGxids recs ↔ .commit g ∈ recs ∧ .forget g ∉ recs := by
  have hmem : g ∈ recs.filterMap committed? ↔ .commit g ∈ recs := by
    rw [mem_filterMap]
    constructor
    · rintro ⟨r, hr, hg⟩
      cases r with
      | commit g' => exact some.inj hg ▸ hr
      | forget g' | checkpoint redo gxids => cases hg
    · exact fun hr => ⟨_, hr, rfl⟩
  rw [heldGxids, mem_filter, mem_dedup, hmem, decide_eq_true_iff]

theorem Holds.length_eq (h : Holds recs array) : array.length = (heldGxids recs).length := by
  refine Perm.length_eq ((perm_ext_iff_of_nodup h.nodup ((nodup_dedup _).filter _)).mpr fun g => ?_)
  exact (h.mem g).trans mem_heldGxids.symm

theorem Holds.append_of_same {array : List Gxid} (h : Holds recs array) {r : WalRecord}
    (hcommit : ∀ g, r = .commit g → g ∈ array) (hforget : ∀ g, r = .forget g → g ∉ array) :
    Holds (recs ++ [r]) array := by
  refine ⟨h.nodup, fun g => ?_⟩
  rw [mem_append, mem_append, mem_singleton, mem_singleton]
  constructor
  · intro hg
    obtain ⟨hc, hf⟩ := (h.mem g).mp hg
    exact ⟨.inl hc, fun hor => hor.elim hf fun heq => hforget g heq.symm hg⟩
  · rintro ⟨hc | hc, hf⟩
    · exact (h.mem g).mpr ⟨hc, fun hin => hf (.inl hin)⟩
    · exact hcommit g hc.symm

/-- A commit record is replayed, unless the array is full. -/
theorem redoDistributedCommitRecord_exact (h : Holds recs array) (hlen : array.length ≤ maxTmGxacts)
    (hf : .forget g ∉ recs) :
    (∃ array', redoDistributedCommitRecord maxTmGxacts array g = some array' ∧
      Holds (recs ++ [.commit g]) array' ∧ array'.length ≤ maxTmGxacts) ∨
    redoDistributedCommitRecord maxTmGxacts array g = none ∧
      maxTmGxacts < (heldGxids (recs ++ [.commit g])).length := by
  rw [redoDistributedCommitRecord]
  by_cases hg : g ∈ array
  · rw [if_pos hg]
    refine .inl ⟨array, rfl, h.append_of_same (fun g' heq => ?_) (fun g' heq => by cases heq), hlen⟩
    rw [commit.injEq] at heq
    exact heq ▸ hg
  have hadd : Holds (recs ++ [.commit g]) (array ++ [g]) := by
    refine ⟨h.nodup.append (nodup_singleton g) (disjoint_singleton.mpr hg), fun g' => ?_⟩
    rw [mem_append, h.mem, mem_singleton, mem_append, mem_append, mem_singleton,
      mem_singleton, commit.injEq]
    constructor
    · rintro (⟨hc, hf'⟩ | heq)
      · exact ⟨.inl hc, fun hor => hor.elim hf' nofun⟩
      · exact ⟨.inr heq, fun hor => hor.elim (heq ▸ hf) nofun⟩
    · exact fun ⟨hor, hf'⟩ => hor.imp_left fun hc => ⟨hc, fun hin => hf' (.inl hin)⟩
  rw [if_neg hg]
  split
  next hfull =>
    refine .inr ⟨rfl, ?_⟩
    rw [← hadd.length_eq, length_append, length_singleton]
    omega
  next hroom =>
    refine .inl ⟨_, rfl, hadd, ?_⟩
    rw [length_append, length_singleton]
    omega

theorem redoDistributedForgetCommitRecord_perm (array : List Gxid) (g : Gxid) :
    (redoDistributedForgetCommitRecord array g).Perm (array.erase g) := by
  by_cases hg : g ∈ array
  · obtain ⟨l, r, hsplit, hl⟩ := eq_append_cons_of_mem hg
    have hidx : array.idxOf g = l.length := by
      rw [hsplit, idxOf_append_of_notMem hl, idxOf_cons_self, Nat.add_zero]
    have herase : array.erase g = l ++ r := by rw [hsplit, erase_append_right _ hl, erase_cons_head]
    rw [redoDistributedForgetCommitRecord, herase, hidx, hsplit]
    rcases eq_nil_or_concat r with hr | ⟨r', x, hr⟩
    · rw [hr]
      simp
    rw [hr, concat_eq_append]
    have hnum : (l ++ g :: (r' ++ [x])).length - 1 = (l ++ g :: r').length := by simp
    have hlast : (l ++ g :: (r' ++ [x])).getD (l ++ g :: r').length 0 = x := by
      rw [show l ++ g :: (r' ++ [x]) = (l ++ g :: r') ++ [x] by simp,
        getD_append_right _ _ _ _ (Nat.le_refl _), Nat.sub_self, getD_cons_zero]
    have hset : (l ++ g :: (r' ++ [x])).set l.length x = (l ++ x :: r') ++ [x] := by simp
    rw [if_pos (by simp), hnum]
    dsimp only
    rw [if_pos (by simp), hlast, hset, take_append_of_le_length (by simp),
      take_of_length_le (by simp)]
    exact (perm_append_singleton x r').symm.append_left l
  · rw [redoDistributedForgetCommitRecord, if_neg (by rw [idxOf_lt_length_iff]; exact hg),
      erase_of_not_mem hg]

theorem redoDistributedForgetCommitRecord_exact (h : Holds recs array) :
    Holds (recs ++ [.forget g]) (redoDistributedForgetCommitRecord array g) := by
  have hperm := redoDistributedForgetCommitRecord_perm array g
  refine ⟨hperm.nodup_iff.mpr (h.nodup.erase g), fun g' => ?_⟩
  rw [hperm.mem_iff, h.nodup.mem_erase_iff, h.mem, mem_append, mem_append, mem_singleton,
    mem_singleton, forget.injEq]
  constructor
  · exact fun ⟨hne, hc, hf⟩ => ⟨.inl hc, fun hor => hor.elim hf hne⟩
  · rintro ⟨hc | hc, hf⟩
    · exact ⟨fun heq => hf (.inr heq), hc, fun hin => hf (.inl hin)⟩
    · cases hc

/-- **Replay**: it ends with the gxids that are held, unless at some record more are held than there
is room for. -/
theorem redoAll_exact (rest : List WalRecord) {recs : List WalRecord} {array : List Gxid}
    (h : Holds recs array) (hlen : array.length ≤ maxTmGxacts)
    (hord : ∀ (k : Nat) (g : Gxid), rest[k]? = some (.commit g) → .forget g ∉ recs ++ rest.take k) :
    (∃ array', redoAll maxTmGxacts rest array = some array' ∧ Holds (recs ++ rest) array' ∧
      ∀ q, (heldGxids (recs ++ rest.take q)).length ≤ maxTmGxacts) ∨
      redoAll maxTmGxacts rest array = none ∧
      ∃ q, maxTmGxacts < (heldGxids (recs ++ rest.take q)).length := by
  induction rest generalizing recs array with
  | nil =>
    refine .inl ⟨array, rfl, by rw [append_nil]; exact h, fun q => ?_⟩
    rw [take_nil, append_nil, ← h.length_eq]
    exact hlen
  | cons r rest ih =>
    have hcons : ∀ l : List WalRecord, recs ++ r :: l = (recs ++ [r]) ++ l := fun l => by simp
    have hord' : ∀ (k : Nat) (g : Gxid), rest[k]? = some (.commit g) → .forget g ∉ (recs ++ [r]) ++
        rest.take k := by
      intro k g hk
      rw [← hcons]
      exact hord (k + 1) g hk
    -- what the rest of the replay gives, from the array after this record
    have hrest : ∀ {array₁ : List Gxid}, Holds (recs ++ [r]) array₁ → array₁.length ≤ maxTmGxacts →
        (∃ array', redoAll maxTmGxacts rest array₁ = some array' ∧
          Holds (recs ++ r :: rest) array' ∧
          ∀ q, (heldGxids (recs ++ (r :: rest).take q)).length ≤ maxTmGxacts) ∨
        redoAll maxTmGxacts rest array₁ = none ∧
          ∃ q, maxTmGxacts < (heldGxids (recs ++ (r :: rest).take q)).length := by
      intro array₁ h₁ hlen₁
      rcases ih h₁ hlen₁ hord' with ⟨array', hredo, hheld, hfits⟩ | ⟨hredo, q, hq⟩
      · refine .inl ⟨array', hredo, by rw [hcons]; exact hheld, fun q => ?_⟩
        cases q with
        | zero =>
          rw [take_zero, append_nil, ← h.length_eq]
          exact hlen
        | succ q =>
          rw [take_succ_cons, hcons]
          exact hfits q
      · exact .inr ⟨hredo, q + 1, by rw [take_succ_cons, hcons]; exact hq⟩
    cases r with
    | commit g =>
      have hf : .forget g ∉ recs := by
        have := hord 0 g rfl
        rwa [take_zero, append_nil] at this
      rcases redoDistributedCommitRecord_exact h hlen hf with ⟨array₁, hredo, h₁, hlen₁⟩ | ⟨hredo,
        hfull⟩
      · rw [redoAll, hredo, bind_some]
        exact hrest h₁ hlen₁
      · rw [redoAll, hredo, bind_none]
        exact .inr ⟨rfl, 1, hfull⟩
    | forget g =>
      refine hrest (redoDistributedForgetCommitRecord_exact h) ?_
      rw [(redoDistributedForgetCommitRecord_perm array g).length_eq]
      exact Nat.le_trans length_erase_le hlen
    | checkpoint redo gxids =>
      exact hrest (h.append_of_same (fun g heq => by cases heq) fun g heq => by cases heq) hlen

theorem redoDtxCheckPoint_bind (rest : List WalRecord) (gxids : List Gxid) (array : List Gxid) :
    (redoDtxCheckPoint maxTmGxacts gxids array).bind (redoAll maxTmGxacts rest) =
      redoAll maxTmGxacts (gxids.map .commit ++ rest) array := by
  induction gxids generalizing array with
  | nil => rfl
  | cons g gxids ih =>
    rw [redoDtxCheckPoint, map_cons, cons_append, redoAll, bind_assoc]
    exact congrArg _ (funext ih)

end Replay

/-! ## Histories -/

def replayed (wal : List WalRecord) (redo : Nat) (gxids : List Gxid) : List WalRecord :=
  gxids.map .commit ++ wal.drop redo

/-- The log and the array that the coordinator starts with: the first time, or after a crash and
recovery. -/
inductive Started (maxTmGxacts : Nat) : List WalRecord → List Gxid → Prop where
  | initial : Started maxTmGxacts [] []
  | restarted {wal : List WalRecord} {array array' : List Gxid} {numProcs m k : Nat} {events :
      List Event} {s : Coordinator} (hstart : Started maxTmGxacts wal array)
      (hrun : runSteps step events (.start wal array numProcs) = some s)
      (hrecover : recover maxTmGxacts (s.wal.take m) k = some array') :
      Started maxTmGxacts (s.wal.take m) array'

variable {wal : List WalRecord} {array gxids : List Gxid} {redo : Nat}

theorem Coordinator.start_inv (hwal : WalOK wal) (h : Recovered wal array)
    (numProcs : Nat) : (start wal array numProcs).Inv := by
  have hidle : ∀ {i : Nat} {p : Phase}, (replicate numProcs Phase.idle)[i]? = some p → p = .idle :=
    fun hi => eq_of_mem_replicate (mem_of_getElem? hi)
  have hnone : ∀ {i : Nat} {p : Phase} {g : Gxid}, (replicate numProcs Phase.idle)[i]? = some p →
      p.gxid ≠ some g := by
    intro i p g hi hg
    rw [hidle hi] at hg
    cases hg
  refine ⟨hwal, fun i p hi => ?_, ?_, h.committed, ?_, by simp [start], ?_, trivial⟩
  · rw [hidle hi]
    trivial
  · exact fun i j p q g hi _ hg _ => absurd hg (hnone hi)
  · exact fun i p g hi hg => absurd hg (hnone hi)
  · exact fun g hc hf => .inl (h.pending g hc hf)

theorem Coordinator.run_inv (hwal : WalOK wal) (h : Recovered wal array)
    {numProcs : Nat} {events : List Event} {s : Coordinator}
    (hrun : runSteps step events (.start wal array numProcs) = some s) : s.Inv :=
  runSteps_invariant step_inv events (start_inv hwal h numProcs) hrun

theorem Holds.recovered {k : Nat} (hwal : WalOK wal)
    (hk : wal[k]? = some (.checkpoint redo gxids)) (h : Holds (replayed wal redo gxids) array) :
    Recovered wal array := by
  obtain ⟨-, hlisted, hcommitted⟩ := hwal k _ hk
  have hredo : redo ≤ k := by
    have := (hwal k _ hk).1
    rw [length_take] at this
    omega
  refine ⟨h.nodup, fun g hc hf => (h.mem g).mpr ⟨?_, ?_⟩, fun g hg => ?_⟩
  · rw [replayed, mem_append, List.mem_map]
    rw [← take_append_drop redo wal, mem_append] at hc
    refine hc.imp_left fun hc => ⟨g, hlisted g ?_ fun hin => hf (mem_of_mem_take hin), rfl⟩
    rw [take_take, Nat.min_eq_left hredo]
    exact hc
  · rw [replayed, mem_append, List.mem_map]
    rintro (⟨g', -, heq⟩ | hin)
    · cases heq
    · exact hf (mem_of_mem_drop hin)
  · have hc := ((h.mem g).mp hg).1
    rw [replayed, mem_append, List.mem_map] at hc
    rcases hc with ⟨g', hg', heq⟩ | hin
    · rw [commit.injEq] at heq
      exact mem_of_mem_take (hcommitted g (heq ▸ hg'))
    · exact mem_of_mem_drop hin

theorem WalOK.replayed_order (hwal : WalOK wal) (redo : Nat) (gxids : List Gxid) (k : Nat)
    (g : Gxid) (hk : (replayed wal redo gxids)[k]? = some (.commit g)) :
    .forget g ∉ [] ++ (replayed wal redo gxids).take k := by
  have hlist : ∀ m, .forget g ∉ (gxids.map commit).take m := by
    intro m hin
    obtain ⟨g', -, heq⟩ := mem_map.mp (mem_of_mem_take hin)
    cases heq
  rw [nil_append, replayed]
  rw [replayed] at hk
  rcases Nat.lt_or_ge k (gxids.map commit).length with hlt | hge
  · rw [take_append_of_le_length (Nat.le_of_lt hlt)]
    exact hlist k
  rw [getElem?_append_right hge, getElem?_drop] at hk
  rw [take_append, mem_append]
  rintro (hin | hin)
  · exact hlist k hin
  · rw [take_drop] at hin
    exact (hwal _ _ hk).2 (mem_of_mem_drop hin)

/-- Recovery from a right log: the array is right, unless at some record more gxids are held than
there is room for. -/
theorem recover_spec {maxTmGxacts : Nat} {k : Nat} (hwal : WalOK wal)
    (hk : wal[k]? = some (.checkpoint redo gxids)) :
    (∃ array, recover maxTmGxacts wal k = some array ∧ Recovered wal array ∧
      ∀ q, (heldGxids ((replayed wal redo gxids).take q)).length ≤ maxTmGxacts) ∨
    recover maxTmGxacts wal k = none ∧
      ∃ q, maxTmGxacts < (heldGxids ((replayed wal redo gxids).take q)).length := by
  have hrecover : recover maxTmGxacts wal k = redoAll maxTmGxacts (replayed wal redo gxids) [] := by
    simp only [recover, hk]
    exact redoDtxCheckPoint_bind _ gxids []
  have hempty : Holds [] [] := ⟨nodup_nil, by simp⟩
  rw [hrecover]
  rcases redoAll_exact (replayed wal redo gxids) hempty (Nat.zero_le maxTmGxacts)
    (hwal.replayed_order redo gxids) with
    ⟨array, hredo, hheld, hfits⟩ | hfull
  · exact .inl ⟨array, hredo, hheld.recovered hwal hk, hfits⟩
  · exact .inr hfull

theorem Started.spec {maxTmGxacts : Nat} (h : Started maxTmGxacts wal array) :
    WalOK wal ∧ Recovered wal array := by
  induction h with
  | initial => exact ⟨by simp [WalOK], nodup_nil, by simp, by simp⟩
  | @restarted wal array array' numProcs m k events s hstart hrun hrecover ih =>
    have hwal := (run_inv ih.1 ih.2 hrun).wal.take m
    refine ⟨hwal, ?_⟩
    cases hk : (s.wal.take m)[k]? with
    | none => simp [recover, hk] at hrecover
    | some r =>
      cases r with
      | commit g | forget g => simp [recover, hk] at hrecover
      | checkpoint redo gxids =>
        rcases @recover_spec _ gxids redo maxTmGxacts k hwal hk with ⟨array₁, heq, hok, -⟩ | ⟨heq,
          -⟩
        · rw [hrecover, some.injEq] at heq
          exact heq ▸ hok
        · rw [hrecover] at heq
          cases heq

/-- **Recovery of the committed set**: after a crash the array is right for the surviving log, if
and only if at no record of the replay more gxids are held than `max_tm_gxacts`. -/
theorem recover_exact (maxTmGxacts numProcs m k redo : Nat) (wal : List WalRecord)
    (array gxids : List Gxid) (events : List Event) (s : Coordinator)
    (hstart : Started maxTmGxacts wal array)
    (hrun : runSteps step events (.start wal array numProcs) = some s)
    (hk : (s.wal.take m)[k]? = some (.checkpoint redo gxids)) :
    (∃ array', recover maxTmGxacts (s.wal.take m) k = some array' ∧
      Recovered (s.wal.take m) array') ↔
      ∀ q, (heldGxids ((replayed (s.wal.take m) redo gxids).take q)).length ≤ maxTmGxacts := by
  have hwal := (run_inv hstart.spec.1 hstart.spec.2 hrun).wal.take m
  rcases @recover_spec _ gxids redo maxTmGxacts k hwal hk with ⟨array', hredo, hok, hfits⟩ | ⟨hredo,
    q, hq⟩
  · exact ⟨fun _ => hfits, fun _ => ⟨array', hredo, hok⟩⟩
  constructor
  · rintro ⟨array', heq, -⟩
    rw [hredo] at heq
    cases heq
  · exact fun hfits => absurd hq (Nat.not_lt.mpr (hfits q))

/-- The steps of a distributed commit of a session. -/
def commitSteps (i : Nat) (gxid : Gxid) : List Event :=
  [.startCommit i gxid, .insertCommit i, .insertedDistributedCommitted i, .endCommit i]

def forgetSteps (i : Nat) : List Event := [.insertForget i, .insertedForget i]

/-- The steps of a checkpoint after its redo point, with nothing in `shmCommittedGxidArray`. -/
def ckptSteps (numProcs : Nat) : List Event :=
  replicate (numProcs + 1) .ckptScanDelay ++ [.ckptWaitEnd, .ckptCopy] ++
    replicate numProcs .ckptScanInclude ++ [.ckptInsert]

theorem recover_exact_one : ∃ array',
    recover 56 [.commit 7, .checkpoint 0 [7], .forget 7, .commit 8] 1 = some array' ∧
      Recovered [.commit 7, .checkpoint 0 [7], .forget 7, .commit 8] array' := by
  refine (recover_exact 56 1 4 1 0 [] [] [7]
    ([.ckptRedo] ++ commitSteps 0 7 ++ ckptSteps 1 ++ forgetSteps 0 ++
    [.startCommit 0 8, .insertCommit 0]) ⟨[.commit 7, .checkpoint 0 [7], .forget 7, .commit 8],
    [.logged 8], [], 0, .idle⟩ .initial (by decide) rfl).mpr ?_
  intro q
  rcases Nat.lt_or_ge q 5 with hq | hq
  · revert q
    decide
  · rw [take_of_length_le (by simpa [replayed] using hq)]
    decide

theorem thirtySessions : ((runSteps step
      ([.ckptRedo] ++ (range 30).flatMap (fun i => commitSteps i i) ++
        (range 30).flatMap forgetSteps ++ (range 30).flatMap (fun i => commitSteps i (30 + i)) ++
        ckptSteps 30) (.start [] [] 30)).map
      fun s => (s.wal, recover 56 s.wal 90)) =
    some (((range 30).map .commit ++ (range 30).map .forget) ++
      ((range' 30 30).map .commit ++ [.checkpoint 0 (range' 30 30)]), none) := by
  decide +kernel

/-- Thirty sessions, `max_connections` thirty and the other settings at their defaults
(`max_tm_gxacts` is 56): after the redo point every session commits, forgets and commits again, and
the checkpoint has the second gxids.  With these loaded, the replay of the first commit records goes
over the limit. -/
theorem recover_full : ∃ s, runSteps step
      ([.ckptRedo] ++ (range 30).flatMap (fun i => commitSteps i i) ++
        (range 30).flatMap forgetSteps ++ (range 30).flatMap (fun i => commitSteps i (30 + i)) ++
        ckptSteps 30) (.start [] [] 30) = some s ∧
    s.wal.length = 91 ∧ s.wal[90]? = some (.checkpoint 0 (range' 30 30)) ∧
      recover 56 s.wal 90 = none := by
  obtain ⟨s, hs, heq⟩ := map_eq_some_iff.mp thirtySessions
  obtain ⟨hwal, hnone⟩ := Prod.mk.inj heq
  exact ⟨s, hs, by rw [hwal]; rfl, by rw [hwal]; rfl, hnone⟩

/-! ## The error at the limit -/

/-- What the replay holds was in flight at that moment of the history, if the gxids of the
checkpoint were in flight at its redo point. -/
theorem held_inFlight (hwal : WalOK wal) (hflight : ∀ g ∈ gxids, g ∈ heldGxids (wal.take redo))
    (q : Nat) : ∃ n, ∀ g ∈ heldGxids ((replayed wal redo gxids).take q), g ∈
    heldGxids (wal.take n) := by
  have hlist : ∀ {g : Gxid} {l : List Gxid}, .commit g ∈ l.map commit → g ∈ l := by
    intro g l hg
    obtain ⟨g', hg', heq⟩ := mem_map.mp hg
    exact commit.inj heq ▸ hg'
  rcases Nat.lt_or_ge q gxids.length with hq | hq
  · refine ⟨redo, fun g hg => hflight g ?_⟩
    rw [mem_heldGxids, replayed, take_append_of_le_length (by rw [length_map]; omega)] at hg
    exact hlist (mem_of_mem_take hg.1)
  refine ⟨redo + (q - gxids.length), fun g hg => ?_⟩
  rw [mem_heldGxids, replayed, take_append, length_map,
    take_of_length_le (by rw [length_map]; exact hq), mem_append, mem_append] at hg
  obtain ⟨hc, hf⟩ := hg
  have hsplit : wal.take (redo + (q - gxids.length)) = wal.take redo ++
      (wal.drop redo).take (q - gxids.length) :=
    take_add
  rw [mem_heldGxids, hsplit, mem_append, mem_append]
  rcases hc with hc | hc
  · obtain ⟨hc', hf'⟩ := mem_heldGxids.mp (hflight g (hlist hc))
    exact ⟨.inl hc', fun hor => hor.elim hf' fun hin => hf (.inr hin)⟩
  refine ⟨.inr hc, fun hor => hor.elim (fun hin => ?_) fun hin => hf (.inr hin)⟩
  -- no commit record comes after the forget record of its gxid
  obtain ⟨i, hi⟩ := mem_iff_getElem?.mp (mem_of_mem_take hc)
  rw [getElem?_drop] at hi
  refine (hwal _ _ hi).2 ((take_sublist_take_left ?_).subset hin)
  omega

/-- **The error at the limit.**  In a history that at no moment has more than `max_tm_gxacts` gxids
in flight, recovery ends without the error just if the list of the checkpoint and the replayed
records together hold at most as many; it does if the gxids of the checkpoint were in flight at its
redo point. -/
theorem recover_limit (maxTmGxacts numProcs m k redo : Nat) (wal : List WalRecord)
    (array gxids : List Gxid) (events : List Event) (s : Coordinator)
    (hstart : Started maxTmGxacts wal array)
    (hrun : runSteps step events (.start wal array numProcs) = some s)
    (hflight : ∀ n, (heldGxids (s.wal.take n)).length ≤ maxTmGxacts)
    (hk : (s.wal.take m)[k]? = some (.checkpoint redo gxids)) :
    (recover maxTmGxacts (s.wal.take m) k ≠ none ↔
      ∀ q, (heldGxids ((replayed (s.wal.take m) redo gxids).take q)).length ≤ maxTmGxacts) ∧
    ((∀ g ∈ gxids, g ∈ heldGxids (s.wal.take redo)) →
      recover maxTmGxacts (s.wal.take m) k ≠ none) := by
  have hwal := (run_inv hstart.spec.1 hstart.spec.2 hrun).wal.take m
  have hiff : recover maxTmGxacts (s.wal.take m) k ≠ none ↔
      ∀ q, (heldGxids ((replayed (s.wal.take m) redo gxids).take q)).length ≤ maxTmGxacts := by
    rcases @recover_spec _ gxids redo maxTmGxacts k hwal hk with ⟨array', hredo, -, hfits⟩ | ⟨hredo,
      q, hq⟩
    · rw [hredo]
      exact ⟨fun _ => hfits, fun _ => some_ne_none _⟩
    · rw [hredo]
      exact ⟨fun h => absurd rfl h, fun hfits => absurd hq (Nat.not_lt.mpr (hfits q))⟩
  refine ⟨hiff, fun hlisted => hiff.mpr fun q => ?_⟩
  have hredo : redo ≤ m := by
    have hle := (hwal k _ hk).1
    rw [length_take, length_take] at hle
    omega
  obtain ⟨n, hn⟩ := held_inFlight hwal (fun g hg => by
    rw [take_take, Nat.min_eq_left hredo]
    exact hlisted g hg) q
  rw [take_take] at hn
  exact Nat.le_trans (((nodup_dedup _).filter _).subperm hn).length_le (hflight _)

/-- One session, with the gxid of the checkpoint in flight at its redo point. -/
theorem recover_limit_one : recover 56 [.commit 7, .checkpoint 1 [7], .forget 7] 1 ≠ none := by
  refine (recover_limit 56 1 3 1 1 [] [] [7] (commitSteps 0 7 ++ [.ckptRedo] ++ ckptSteps 1 ++
    forgetSteps 0) ⟨[.commit 7, .checkpoint 1 [7], .forget 7], [.idle], [], 0, .idle⟩ .initial
    (by decide) (fun n => ?_) rfl).2 (by decide)
  rcases Nat.lt_or_ge n 4 with hn | hn
  · revert n
    decide
  · rw [take_of_length_le (Nat.le_of_lt hn)]
    decide

/-- Thirty sessions and `max_tm_gxacts` 56: at no moment more than thirty gxids are in flight, and
recovery from the checkpoint ends with the error. -/
theorem recover_limit_reached : ∃ s, runSteps step
      ([.ckptRedo] ++ (range 30).flatMap (fun i => commitSteps i i) ++
        (range 30).flatMap forgetSteps ++ (range 30).flatMap (fun i => commitSteps i (30 + i)) ++
        ckptSteps 30) (.start [] [] 30) = some s ∧
    (∀ n, (heldGxids (s.wal.take n)).length ≤ 30) ∧
      (s.wal[90]?).isSome ∧ recover 56 s.wal 90 = none := by
  obtain ⟨s, hs, heq⟩ := map_eq_some_iff.mp thirtySessions
  obtain ⟨hwal, hnone⟩ := Prod.mk.inj heq
  refine ⟨s, hs, fun n => ?_, by rw [hwal]; rfl, hnone⟩
  -- the first thirty gxids are forgotten before the others commit
  have hsub : ∃ l : List Gxid, l.length = 30 ∧ ∀ g ∈ heldGxids (s.wal.take n), g ∈ l := by
    rw [hwal]
    rcases Nat.le_total n 60 with hn | hn
    · refine ⟨range 30, rfl, fun g hg => ?_⟩
      rw [take_append_of_le_length (by simpa using hn), mem_heldGxids] at hg
      simpa using mem_of_mem_take hg.1
    refine ⟨range' 30 30, rfl, fun g hg => ?_⟩
    rw [take_append, take_of_length_le (by simpa using hn), mem_heldGxids] at hg
    obtain ⟨hc, hf⟩ := hg
    rcases mem_append.mp hc with hc | hc
    · exact absurd (mem_append_left _ (by simpa using hc)) hf
    · simpa using mem_of_mem_take hc
  obtain ⟨l, hl, hmem⟩ := hsub
  rw [← hl]
  exact (((nodup_dedup _).filter _).subperm hmem).length_le

end PolemoDB.Cdb
