import Mathlib.Data.List.Sort

/-!
# The order of commits across segments

A session on a segment that waits for another transaction records its gxid (`XactLockTableWait`).
With the answer to the commit command the recorded gxids go to the coordinator
(`sendWaitGxidsToQD`), which gathers those of all segments, removes the duplicates and waits for
each of the transactions before it reports its own commit (`doDispatchDtxProtocolCommand`).  A gxid
has 64 bits; the lists, the message and the array of the coordinator have `int`s.

* `removeRepeats_spec` — the loop that removes the duplicates keeps every value once, apart from the
  value that `lastRepeat` starts with.
* `gxactWaits_exact_iff` — for which gxids the coordinator waits for the right transactions.
-/

namespace PolemoDB.Cdb

open List

/-! ## On a segment -/

/-- `InvalidDistributedTransactionId`. -/
def noGxid : BitVec 64 := 0

/-- `XactLockTableWait`: the gxid of the transaction that is waited for is recorded with
`lappend_int`. -/
def xactLockTableWait (waitGxids : List (BitVec 32)) (gxid : BitVec 64) : List (BitVec 32) :=
  if gxid ≠ noGxid then waitGxids ++ [gxid.setWidth 32] else waitGxids

/-- `pq_sendint` with four bytes. -/
def pqSendint (i : BitVec 32) : List (BitVec 8) :=
  [i.extractLsb' 24 8, i.extractLsb' 16 8, i.extractLsb' 8 8, i.extractLsb' 0 8]

/-- The message 'w'. -/
structure WaitMessage where
  nWaits : Nat
  gxids : List (BitVec 8)
deriving DecidableEq, Repr

/-- `sendWaitGxidsToQD`; no message for an empty list. -/
def sendWaitGxidsToQD (waitGxids : List (BitVec 32)) : Option WaitMessage :=
  if waitGxids.length = 0 then none else some ⟨waitGxids.length, waitGxids.flatMap pqSendint⟩

/-! ## On the coordinator -/

/-- `pqGetInt` with four bytes. -/
def pqGetInt : List (BitVec 8) → Option (BitVec 32 × List (BitVec 8))
  | b3 :: b2 :: b1 :: b0 :: rest => some ((b3 ++ b2 ++ b1 ++ b0 : BitVec (8 + 8 + 8 + 8)), rest)
  | _ => none

/-- The loop of `pqParseInput3` that reads the gxids of the message. -/
def readGxids : Nat → List (BitVec 8) → Option (List (BitVec 32))
  | 0, _ => some []
  | n + 1, bytes =>
    match pqGetInt bytes with
    | none => none
    | some (gxid, rest) => (readGxids n rest).map (gxid :: ·)

/-- `result->waitGxids` of a segment. -/
def resultGxids : Option WaitMessage → Option (List (BitVec 32))
  | none => some []
  | some msg => readGxids msg.nWaits msg.gxids

/-- The loop of `doDispatchDtxProtocolCommand` that removes the duplicates. -/
def removeRepeats : BitVec 32 → List (BitVec 32) → List (BitVec 32)
  | _, [] => []
  | lastRepeat, gxid :: gxids =>
    if gxid = lastRepeat then removeRepeats lastRepeat gxids else gxid :: removeRepeats gxid gxids

/-- What `compare_int` orders by. -/
def IntLe (a b : BitVec 32) : Prop := a.toInt ≤ b.toInt

instance : DecidableRel IntLe := fun a b => inferInstanceAs (Decidable (a.toInt ≤ b.toInt))

/-- `doDispatchDtxProtocolCommand`: the gxids of all results, sorted, without duplicates. -/
def gatherWaitGxids (results : List (List (BitVec 32))) : List (BitVec 32) :=
  removeRepeats (-1) (results.flatten.insertionSort IntLe)

/-- The gxids that `notifyCommittedDtxTransaction` passes to `GxactLockTableWait`, if on each
segment a session has waited for the given gxids. -/
def gxactWaits (sessions : List (List (BitVec 64))) : Option (List (BitVec 64)) :=
  (sessions.mapM fun gxids => resultGxids
  (sendWaitGxidsToQD (gxids.foldl xactLockTableWait []))).map fun results =>
    (gatherWaitGxids results).map (·.signExtend 64)

/-! ## The message -/

theorem pqGetInt_pqSendint (i : BitVec 32) (rest : List (BitVec 8)) :
    pqGetInt (pqSendint i ++ rest) = some (i, rest) := by
  have hjoin : (i.extractLsb' 24 8 ++ i.extractLsb' 16 8 ++ i.extractLsb' 8 8 ++ i.extractLsb' 0 8 :
      BitVec (8 + 8 + 8 + 8)) = i := by
    grind
  exact congrArg some (Prod.ext hjoin rfl)

theorem readGxids_flatMap (gxids : List (BitVec 32)) :
    readGxids gxids.length (gxids.flatMap pqSendint) = some gxids := by
  induction gxids with
  | nil => rfl
  | cons gxid gxids ih =>
    rw [length_cons, flatMap_cons, readGxids, pqGetInt_pqSendint]
    dsimp only
    rw [ih]
    rfl

theorem resultGxids_send (gxids : List (BitVec 32)) :
    resultGxids (sendWaitGxidsToQD gxids) = some gxids := by
  unfold sendWaitGxidsToQD
  split
  next h =>
    rw [length_eq_zero_iff.mp h]
    rfl
  next => exact readGxids_flatMap gxids

theorem foldl_xactLockTableWait (gxids : List (BitVec 64)) (waitGxids : List (BitVec 32)) :
    gxids.foldl xactLockTableWait waitGxids = waitGxids ++
    (gxids.filter (· ≠ noGxid)).map (·.setWidth 32) := by
  induction gxids generalizing waitGxids with
  | nil => simp
  | cons gxid gxids ih =>
    rw [foldl_cons, ih]
    unfold xactLockTableWait
    by_cases hg : gxid = noGxid <;> simp [hg]

theorem gxactWaits_eq (sessions : List (List (BitVec 64))) : gxactWaits sessions =
      some ((gatherWaitGxids
        (sessions.map fun gxids => (gxids.filter (· ≠ noGxid)).map (·.setWidth 32))).map
        (·.signExtend 64)) := by
  have hall : (sessions.mapM fun gxids => resultGxids
      (sendWaitGxidsToQD (gxids.foldl xactLockTableWait []))) =
      some (sessions.map fun gxids => (gxids.filter (· ≠ noGxid)).map (·.setWidth 32)) := by
    induction sessions with
    | nil => rfl
    | cons gxids sessions ih =>
      rw [mapM_cons, ih, resultGxids_send, foldl_xactLockTableWait]
      rfl
  rw [gxactWaits, hall]
  rfl

/-! ## The duplicates -/

instance : Std.Total IntLe := ⟨fun a b => Int.le_total a.toInt b.toInt⟩

instance : IsTrans (BitVec 32) IntLe := ⟨fun _ _ _ hab hbc => Int.le_trans hab hbc⟩

theorem kept_cons {gxid : BitVec 32} {gxids kept : List (BitVec 32)}
    (h : kept.Nodup ∧ ∀ g, g ∈ kept ↔ g ∈ gxids ∧ g ≠ gxid) :
    (gxid :: kept).Nodup ∧ ∀ g, g ∈ gxid :: kept ↔ g ∈ gxid :: gxids := by
  refine ⟨nodup_cons.mpr ⟨fun hin => ((h.2 gxid).mp hin).2 rfl, h.1⟩, fun g => ?_⟩
  rw [mem_cons, mem_cons, h.2]
  constructor
  · exact fun hg => hg.imp_right And.left
  rintro (hg | hg)
  · exact .inl hg
  · by_cases hgg : g = gxid
    · exact .inl hgg
    · exact .inr ⟨hg, hgg⟩

/-- Behind a value that is not greater than those of a sorted list, the loop keeps the other values
once. -/
theorem removeRepeats_spec {gxids : List (BitVec 32)} (hsorted : gxids.Pairwise IntLe)
    (lastRepeat : BitVec 32) (hlast : ∀ g ∈ gxids, IntLe lastRepeat g) :
    (removeRepeats lastRepeat gxids).Nodup ∧ ∀ g, g ∈ removeRepeats lastRepeat gxids ↔ g ∈ gxids ∧
    g ≠ lastRepeat := by
  fun_induction removeRepeats lastRepeat gxids with
  | case1 => simp
  | case2 lastRepeat gxids ih =>
    obtain ⟨hnodup, hmem⟩ := ih hsorted.of_cons fun g hg => hlast g (mem_cons_of_mem _ hg)
    refine ⟨hnodup, fun g => (hmem g).trans ?_⟩
    rw [mem_cons]
    exact ⟨fun ⟨hg, hne⟩ => ⟨.inr hg, hne⟩, fun ⟨hg, hne⟩ => ⟨hg.resolve_left hne, hne⟩⟩
  | case3 lastRepeat gxid gxids heq ih =>
    obtain ⟨hle, hrest⟩ := pairwise_cons.mp hsorted
    obtain ⟨hnodup, hmem⟩ := kept_cons (ih hrest hle)
    refine ⟨hnodup, fun g => (hmem g).trans (iff_self_and.mpr fun hg hg' => ?_)⟩
    rcases mem_cons.mp hg with hg | hg
    · exact heq (hg.symm.trans hg')
    · -- the value of `lastRepeat` does not come back once it was passed
      have hback : IntLe gxid lastRepeat := hg' ▸ hle g hg
      exact heq (BitVec.eq_of_toInt_eq (Int.le_antisymm hback (hlast gxid mem_cons_self)))

/-- The loop as it is started: `-1` is lost if no value is less. -/
theorem removeRepeats_start {gxids : List (BitVec 32)} (hsorted : gxids.Pairwise IntLe) :
    (removeRepeats (-1) gxids).Nodup ∧
      ∀ g, g ∈ removeRepeats (-1) gxids ↔ g ∈ gxids ∧ (g = -1 → ∃ x ∈ gxids, x.toInt < -1) := by
  have hneg : (-1 : BitVec 32).toInt = -1 := by decide
  by_cases hless : ∃ x ∈ gxids, x.toInt < -1
  · cases gxids with
    | nil => simp [removeRepeats]
    | cons gxid gxids =>
      obtain ⟨hle, hrest⟩ := pairwise_cons.mp hsorted
      have hne : gxid ≠ -1 := by
        rintro rfl
        obtain ⟨x, hx, hlt⟩ := hless
        rcases mem_cons.mp hx with rfl | hx
        · omega
        · have := hle x hx
          unfold IntLe at this
          omega
      -- the first value is not `lastRepeat`, and the rest is behind it
      obtain ⟨hnodup, hmem⟩ := kept_cons (removeRepeats_spec hrest gxid hle)
      rw [removeRepeats, if_neg hne]
      exact ⟨hnodup, fun g => (hmem g).trans (iff_self_and.mpr fun _ _ => hless)⟩
  · obtain ⟨hnodup, hmem⟩ := removeRepeats_spec hsorted (-1) fun g hg => by
      have hge : ¬ g.toInt < -1 := fun hlt => hless ⟨g, hg, hlt⟩
      unfold IntLe
      omega
    refine ⟨hnodup, fun g => (hmem g).trans (and_congr_right fun _ => ?_)⟩
    exact ⟨fun hne heq => absurd heq hne, fun h heq => hless (h heq)⟩

/-! ## The transactions that are waited for -/

def WaitedFor (sessions : List (List (BitVec 64))) (gxid : BitVec 64) : Prop :=
  gxid ≠ noGxid ∧ ∃ gxids ∈ sessions, gxid ∈ gxids

/-- The gxid is an `int`. -/
def FitsInt (gxid : BitVec 64) : Prop := (gxid.setWidth 32).signExtend 64 = gxid

theorem setWidth_signExtend (i : BitVec 32) : (i.signExtend 64).setWidth 32 = i := by
  refine BitVec.eq_of_getLsbD_eq fun k hk => ?_
  simp [BitVec.getLsbD_signExtend, hk]
  omega

theorem signExtend_injective : Function.Injective fun i : BitVec 32 => i.signExtend 64 := by
  intro i j h
  rw [← setWidth_signExtend i, ← setWidth_signExtend j]
  exact congrArg (BitVec.setWidth 32) h

theorem FitsInt.toInt_eq {gxid : BitVec 64} (h : FitsInt gxid) :
    gxid.toInt = (gxid.setWidth 32).toInt := by
  conv_lhs => rw [← h]
  exact BitVec.toInt_signExtend_of_le (by decide)

/-- **The transactions the coordinator waits for** are those that were waited for on the segments,
each once, if and only if all their gxids are `int`s and, if `-1` is one of them, there is one that
is less. -/
theorem gxactWaits_exact_iff (sessions : List (List (BitVec 64))) :
    ∃ waits, gxactWaits sessions = some waits ∧
      ((waits.Nodup ∧ ∀ gxid, gxid ∈ waits ↔ WaitedFor sessions gxid) ↔
        (∀ gxid, WaitedFor sessions gxid → FitsInt gxid) ∧
          (WaitedFor sessions (-1) → ∃ gxid, WaitedFor sessions gxid ∧ gxid.toInt < -1)) := by
  refine ⟨_, gxactWaits_eq sessions, ?_⟩
  generalize hl : (sessions.map fun gxids => (gxids.filter (· ≠ noGxid)).map
    (·.setWidth 32)).flatten = ints
  have hints : ∀ i, i ∈ ints ↔ ∃ gxid, WaitedFor sessions gxid ∧ gxid.setWidth 32 = i := by
    intro i
    rw [← hl]
    simp only [mem_flatten, mem_map, exists_exists_and_eq_and, mem_filter, decide_eq_true_iff,
      WaitedFor]
    constructor
    · rintro ⟨gxids, hs, gxid, ⟨hg, hne⟩, hi⟩
      exact ⟨gxid, ⟨hne, gxids, hs, hg⟩, hi⟩
    · rintro ⟨gxid, ⟨hne, gxids, hs, hg⟩, hi⟩
      exact ⟨gxids, hs, gxid, ⟨hg, hne⟩, hi⟩
  obtain ⟨hnodup, hmem⟩ := removeRepeats_start (pairwise_insertionSort IntLe ints)
  simp only [mem_insertionSort] at hmem
  unfold gatherWaitGxids
  rw [hl]
  constructor
  · rintro ⟨-, hexact⟩
    have hfits : ∀ gxid, WaitedFor sessions gxid → FitsInt gxid := by
      intro gxid hw
      obtain ⟨i, -, rfl⟩ := mem_map.mp ((hexact gxid).mpr hw)
      unfold FitsInt
      rw [setWidth_signExtend]
    refine ⟨hfits, fun hw => ?_⟩
    obtain ⟨i, hi, hneg⟩ := mem_map.mp ((hexact (-1)).mpr hw)
    have hi' : i = -1 := by
      rw [← setWidth_signExtend i, hneg]
      decide
    obtain ⟨x, hx, hlt⟩ := ((hmem i).mp hi).2 hi'
    obtain ⟨gxid, hg, rfl⟩ := (hints x).mp hx
    exact ⟨gxid, hg, by rwa [(hfits gxid hg).toInt_eq]⟩
  · rintro ⟨hfits, hneg⟩
    refine ⟨hnodup.map signExtend_injective, fun gxid => ⟨fun hin => ?_, fun hw => ?_⟩⟩
    · obtain ⟨i, hi, rfl⟩ := mem_map.mp hin
      obtain ⟨gxid, hg, rfl⟩ := (hints i).mp ((hmem i).mp hi).1
      rwa [hfits gxid hg]
    refine mem_map.mpr ⟨gxid.setWidth 32,
      (hmem _).mpr ⟨(hints _).mpr ⟨gxid, hw, rfl⟩, fun hi => ?_⟩, hfits gxid hw⟩
    have hg : gxid = -1 := by
      rw [← hfits gxid hw, hi]
      decide
    obtain ⟨x, hx, hlt⟩ := hneg (hg ▸ hw)
    exact ⟨x.setWidth 32, (hints _).mpr ⟨x, hx, rfl⟩, by rwa [← (hfits x hx).toInt_eq]⟩

/-- A gxid past the `int`s: the coordinator waits for another transaction. -/
theorem gxactWaits_truncates : gxactWaits [[0x100000007]] = some [7] ∧
    WaitedFor [[0x100000007]] 0x100000007 := by
  refine ⟨by decide +kernel, by decide, _, mem_singleton_self _, mem_singleton_self _⟩

end PolemoDB.Cdb
