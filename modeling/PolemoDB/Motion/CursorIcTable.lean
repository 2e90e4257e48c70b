import Mathlib.Data.List.Range
import Mathlib.Tactic.Ring

/-!
# The cursor history table of the UDP interconnect (`cdb/motion/ic_udpifc.c`)

A hash table with a chain of entries for each bucket. `addCursorIcEntry` keeps the bucket in a
`uint32`, all other functions in a `uint8`: a loop over the buckets ends only if the size fits, and
so `gp_interconnect_cursor_ic_table_size` may be at most 255. `purgeCursorIcEntry` frees the entries
and leaves the count.

The table is compared with the list of the entries, newest first. Ids, which are only compared and
reduced, are natural numbers.
-/

namespace PolemoDB.Motion

open List

structure CursorICHistoryEntry where
  icId : ℕ
  cid : ℕ
  status : ℕ
deriving DecidableEq

structure CursorICHistoryTable where
  size : ℕ
  count : ℕ
  table : ℕ → List CursorICHistoryEntry

section

variable (t : CursorICHistoryTable)

/-- `t->table[index]` is assigned. -/
def CursorICHistoryTable.setChain (index : ℕ)
    (chain : List CursorICHistoryEntry) : CursorICHistoryTable :=
  { t with table := fun j => if j = index then chain else t.table j }

def initCursorICHistoryTable (size : ℕ) : CursorICHistoryTable := ⟨size, 0, fun _ => []⟩

def addCursorIcEntry (icId cid : ℕ) : CursorICHistoryTable :=
  { t.setChain (icId % t.size)
  (⟨icId, cid, 1⟩ :: t.table (icId % t.size)) with count := (t.count + 1) % 2 ^ 32 }

/-- The loop of `updateCursorIcEntry`. -/
def updateChain (icId status : ℕ) : List CursorICHistoryEntry → List CursorICHistoryEntry
  | [] => []
  | p :: rest => if p.icId = icId then { p with status := status } :: rest else p :: updateChain
    icId status rest

/-- `updateCursorIcEntry`, with the bucket in a `uint8`. -/
def updateCursorIcEntry (icId status : ℕ) : CursorICHistoryTable :=
  let index := icId % t.size % 256
  t.setChain index (updateChain icId status (t.table index))

/-- `getCursorIcEntry`, with the bucket in a `uint8`. -/
def getCursorIcEntry (icId : ℕ) : Option CursorICHistoryEntry :=
  (t.table (icId % t.size % 256)).find? fun p => p.icId = icId

end

/-- `for (uint8 index = 0; index < t->size; index++)`. -/
def forBuckets (body : ℕ → CursorICHistoryTable → CursorICHistoryTable) :
    ℕ → ℕ → CursorICHistoryTable → Option CursorICHistoryTable
  | 0, _, _ => none
  | fuel + 1, index, t => if index < t.size then forBuckets body fuel ((index + 1) % 256)
    (body index t) else some t

/-- The `while` loop of `pruneCursorIcEntry` over one chain, with `t->count`. -/
def pruneChain (icId : ℕ) : List CursorICHistoryEntry → ℕ → List CursorICHistoryEntry × ℕ
  | [], count => ([], count)
  | p :: rest, count =>
    if p.icId < icId then pruneChain icId rest ((count + 2 ^ 32 - 1) % 2 ^ 32)
    else (p :: (pruneChain icId rest count).1, (pruneChain icId rest count).2)

def pruneBucket (icId index : ℕ) (t : CursorICHistoryTable) : CursorICHistoryTable :=
  { t.setChain index (pruneChain icId (t.table index) t.count).1
  with count := (pruneChain icId (t.table index) t.count).2 }

def pruneCursorIcEntry (fuel : ℕ) (t : CursorICHistoryTable) (icId : ℕ) :
    Option CursorICHistoryTable :=
  forBuckets (pruneBucket icId) fuel 0 t

def purgeCursorIcEntry (fuel : ℕ) (t : CursorICHistoryTable) : Option CursorICHistoryTable :=
  forBuckets (fun index t => t.setChain index []) fuel 0 t

/-- The calls that change the table. -/
inductive IcTableCall where
  | add (icId cid : ℕ)
  | update (icId status : ℕ)
  | prune (icId : ℕ)
  | purge

def IcTableCall.run (fuel : ℕ) (t : CursorICHistoryTable) : IcTableCall →
    Option CursorICHistoryTable
  | .add icId cid => some (addCursorIcEntry t icId cid)
  | .update icId status => some (updateCursorIcEntry t icId status)
  | .prune icId => pruneCursorIcEntry fuel t icId
  | .purge => purgeCursorIcEntry fuel t

def runCalls (fuel : ℕ) : List IcTableCall → CursorICHistoryTable → Option CursorICHistoryTable
  | [], t => some t
  | c :: cs, t => (c.run fuel t).bind (runCalls fuel cs)

/-- All entries that the table has. -/
def CursorICHistoryTable.entries (t : CursorICHistoryTable) : List CursorICHistoryEntry :=
  (range t.size).flatMap t.table

/-! ## The history -/

/-- What a call does to the entries, newest first. -/
def IcTableCall.apply (h : List CursorICHistoryEntry) : IcTableCall → List CursorICHistoryEntry
  | .add icId cid => ⟨icId, cid, 1⟩ :: h
  | .update icId status => updateChain icId status h
  | .prune icId => h.filter fun p => ¬ p.icId < icId
  | .purge => []

/-- The entries after the calls. -/
def historyOf : List IcTableCall → List CursorICHistoryEntry → List CursorICHistoryEntry
  | [], h => h
  | c :: cs, h => historyOf cs (c.apply h)

/-- No entry is left when the table is purged. -/
def PurgesEmpty : List IcTableCall → List CursorICHistoryEntry → Prop
  | [], _ => True
  | c :: cs, h => (c = .purge → h = []) ∧ PurgesEmpty cs (c.apply h)

/-- The entries of a bucket. -/
def bucketOf (size j : ℕ) (h : List CursorICHistoryEntry) : List CursorICHistoryEntry :=
  h.filter fun p => p.icId % size = j

/-- The table has the history in its buckets, and counts it. -/
structure Holds (t : CursorICHistoryTable) (h : List CursorICHistoryEntry) : Prop where
  chains : ∀ j < t.size, t.table j = bucketOf t.size j h
  count : t.count = h.length

variable {t : CursorICHistoryTable} {h : List CursorICHistoryEntry}

theorem bucketOf_updateChain (icId status size j : ℕ) (h : List CursorICHistoryEntry) :
    bucketOf size j (updateChain icId status h) =
      if j = icId % size then updateChain icId status (bucketOf size j h) else bucketOf size j
      h := by
  induction h with
  | nil => simp [updateChain, bucketOf]
  | cons p h ih =>
    unfold bucketOf at ih ⊢
    by_cases hp : p.icId = icId <;> by_cases hj : j = icId % size <;> by_cases hb :
      p.icId % size = j <;> simp_all [updateChain]

theorem length_updateChain (icId status : ℕ) (h : List CursorICHistoryEntry) :
    (updateChain icId status h).length = h.length := by
  induction h with
  | nil => rfl
  | cons p h ih =>
    rw [updateChain]
    split <;> simp [ih]

theorem pruneChain_eq (b : ℕ) (l : List CursorICHistoryEntry) (count : ℕ)
    (hcount : l.countP (·.icId < b) ≤ count) (hlt : count < 2 ^ 32) :
    pruneChain b l count = (l.filter fun p => ¬ p.icId < b, count - l.countP (·.icId < b)) := by
  induction l generalizing count with
  | nil => rfl
  | cons p l ih =>
    by_cases hp : p.icId < b
    · rw [countP_cons_of_pos (by simpa using hp)] at hcount ⊢
      have hdec : (count + 2 ^ 32 - 1) % 2 ^ 32 = count - 1 := by omega
      rw [pruneChain, if_pos hp, hdec, ih (count - 1) (by omega) (by omega),
        filter_cons_of_neg (by simpa using hp)]
      exact congrArg _ (by omega)
    · rw [countP_cons_of_neg (by simpa using hp)] at hcount ⊢
      rw [pruneChain, if_neg hp, ih count hcount hlt, filter_cons_of_pos (by simpa using hp)]

/-! ## The loop over the buckets -/

theorem prune_diverges (b fuel : ℕ) (index : ℕ) (t : CursorICHistoryTable) (hindex : index < 256)
    (hsize : 256 ≤ t.size) : forBuckets (pruneBucket b) fuel index t = none := by
  induction fuel generalizing index t with
  | zero => rfl
  | succ fuel ih =>
    rw [forBuckets, if_pos (hindex.trans_le hsize)]
    exact ih _ _ (Nat.mod_lt _ (by decide)) hsize

theorem forBuckets_ends (body : ℕ → CursorICHistoryTable → CursorICHistoryTable)
    (hist : ℕ → List CursorICHistoryEntry) {size : ℕ} (hsize : size ≤ 255)
    (hbody : ∀ i t, i < size → t.size = size → Holds t (hist i) → (body i t).size = size ∧
      Holds (body i t) (hist (i + 1))) (fuel index : ℕ) (t : CursorICHistoryTable)
    (hle : index ≤ size) (hfuel : size < fuel + index) (hsame : t.size = size)
    (ht : Holds t (hist index)) :
    ∃ t', forBuckets body fuel index t = some t' ∧ t'.size = size ∧ Holds t' (hist size) := by
  fun_induction forBuckets body fuel index t with
  | case1 => omega
  | case2 fuel index t hlt ih =>
    rw [hsame] at hlt
    obtain ⟨hsame', ht'⟩ := hbody index t hlt hsame ht
    rw [Nat.mod_eq_of_lt (by omega)] at ih ⊢
    exact ih hlt (by omega) hsame' ht'
  | case3 fuel index t hge =>
    obtain rfl : index = size := by omega
    exact ⟨t, rfl, hsame, ht⟩

theorem Holds.pruneBucket (ht : Holds t h) (hh : h.length < 2 ^ 32) (b : ℕ) {i : ℕ}
    (hi : i < t.size) : Holds (pruneBucket b i t)
    (h.filter fun p => ¬ (p.icId < b ∧ p.icId % t.size = i)) := by
  have hsplit : (bucketOf t.size i h).countP (·.icId < b) +
      (h.filter fun p => ¬ (p.icId < b ∧ p.icId % t.size = i)).length = h.length := by
    rw [bucketOf, countP_filter, ← countP_eq_length_filter,
      length_eq_countP_add_countP (fun p => decide (p.icId < b ∧ p.icId % t.size = i)) (l := h)]
    simp
  have hcount := ht.count
  have hprune := pruneChain_eq b (bucketOf t.size i h) t.count (by omega) (by omega)
  rw [← ht.chains i hi] at hprune
  refine ⟨fun j hj => ?_, ?_⟩
  · dsimp only [Motion.pruneBucket, CursorICHistoryTable.setChain] at hj ⊢
    rw [hprune]
    by_cases hji : j = i
    · rw [if_pos hji, hji, ht.chains i hi, bucketOf, bucketOf, filter_filter, filter_filter]
      refine filter_congr fun p _ => ?_
      by_cases hp : p.icId % t.size = i <;> simp [hp]
    · rw [if_neg hji, ht.chains j hj, bucketOf, bucketOf, filter_filter]
      refine filter_congr fun p _ => ?_
      by_cases hp : p.icId % t.size = j <;> simp [hp, hji]
  · rw [Motion.pruneBucket, hprune, ht.chains i hi]
    dsimp only
    omega

theorem prune_holds (hpos : 0 < t.size) (hsize : t.size ≤ 255) (hh : h.length < 2 ^ 32)
    (ht : Holds t h) (b : ℕ) : ∃ t', pruneCursorIcEntry 256 t b = some t' ∧ t'.size = t.size ∧
    Holds t' (h.filter fun p => ¬ p.icId < b) := by
  have hrun := forBuckets_ends (pruneBucket b)
    (fun i => h.filter fun p => ¬ (p.icId < b ∧ p.icId % t.size < i)) hsize
    (fun i t' hi hsame ht' => ⟨hsame, ?_⟩) 256 0 t (Nat.zero_le _) (by omega) rfl
    (by simpa using ht)
  · rw [pruneCursorIcEntry]
    simpa only [Nat.mod_lt _ hpos, and_true] using hrun
  have hnext := ht'.pruneBucket ((length_filter_le _ h).trans_lt hh) b (hsame ▸ hi)
  rw [filter_filter, hsame] at hnext
  refine (congrArg (Holds _) (filter_congr fun p _ => ?_)) ▸ hnext
  rw [Bool.eq_iff_iff]
  simp only [Bool.and_eq_true, decide_eq_true_eq]
  omega

theorem purge_holds (hsize : t.size ≤ 255) (ht : Holds t []) :
    ∃ t', purgeCursorIcEntry 256 t = some t' ∧ t'.size = t.size ∧ Holds t' [] := by
  have hrun := forBuckets_ends (fun index t => t.setChain index []) (fun _ => []) hsize
    (fun i t' _ hsame ht' => ⟨hsame, fun j hj => ?_, ht'.count⟩) 256 0 t (Nat.zero_le _)
    (by omega) rfl ht
  · exact hrun
  · have hchain := ht'.chains j hj
    dsimp only [CursorICHistoryTable.setChain]
    rw [hchain, bucketOf, filter_nil, ite_self]

/-! ## All calls -/

theorem call_holds (hpos : 0 < t.size) (hsize : t.size ≤ 255) (hh : h.length + 1 < 2 ^ 32)
    (ht : Holds t h) (c : IcTableCall) (hpurge : c = .purge → h = []) :
    ∃ t', c.run 256 t = some t' ∧ t'.size = t.size ∧ Holds t' (c.apply h) := by
  cases c with
  | add icId cid =>
    refine ⟨_, rfl, rfl, fun j hj => ?_, ?_⟩
    · dsimp only [addCursorIcEntry, CursorICHistoryTable.setChain]
      rw [IcTableCall.apply, bucketOf]
      by_cases hji : j = icId % t.size
      · rw [if_pos hji, filter_cons_of_pos (by simp [hji]), ht.chains _ (Nat.mod_lt _ hpos), hji]
        rfl
      · rw [if_neg hji, filter_cons_of_neg (by simpa using Ne.symm hji), ht.chains j hj]
        rfl
    · show (t.count + 1) % 2 ^ 32 = h.length + 1
      rw [ht.count, Nat.mod_eq_of_lt hh]
  | update icId status =>
    have hlt := Nat.mod_lt icId hpos
    have hindex : icId % t.size % 256 = icId % t.size := Nat.mod_eq_of_lt (by omega)
    refine ⟨_, rfl, rfl, fun j hj => ?_, ht.count.trans (length_updateChain icId status h).symm⟩
    dsimp only [updateCursorIcEntry, CursorICHistoryTable.setChain]
    rw [hindex, IcTableCall.apply, bucketOf_updateChain, ← ht.chains j hj]
    by_cases hji : j = icId % t.size
    · rw [if_pos hji, if_pos hji, hji]
    · rw [if_neg hji, if_neg hji]
  | prune b => exact prune_holds hpos hsize (by omega) ht b
  | purge =>
    obtain rfl := hpurge rfl
    exact purge_holds hsize ht

theorem runCalls_holds (cs : List IcTableCall) {t : CursorICHistoryTable}
    {h : List CursorICHistoryEntry} (hpos : 0 < t.size) (hsize : t.size ≤ 255)
    (hfew : h.length + cs.length < 2 ^ 32) (ht : Holds t h) (hpurge : PurgesEmpty cs h) :
    ∃ t', runCalls 256 cs t = some t' ∧ t'.size = t.size ∧ Holds t' (historyOf cs h) := by
  induction cs generalizing t h with
  | nil => exact ⟨_, rfl, rfl, ht⟩
  | cons c cs ih =>
    rw [length_cons] at hfew
    obtain ⟨t₁, hrun, hsame, ht₁⟩ := call_holds hpos hsize (by omega) ht c hpurge.1
    have hgrow : (c.apply h).length ≤ h.length + 1 := by
      cases c with
      | add => exact le_refl _
      | update icId status => exact (length_updateChain icId status h).le.trans (Nat.le_succ _)
      | prune => exact (length_filter_le _ h).trans (Nat.le_succ _)
      | purge => exact Nat.zero_le _
    obtain ⟨t', hrest, hsame', ht'⟩ := ih (hsame ▸ hpos) (hsame ▸ hsize) (by omega) ht₁ hpurge.2
    exact ⟨t', by rw [runCalls, hrun]; exact hrest, hsame'.trans hsame, ht'⟩

theorem Holds.get (ht : Holds t h) (hpos : 0 < t.size) (hsize : t.size ≤ 255) (icId : ℕ) :
    getCursorIcEntry t icId = h.find? fun p => p.icId = icId := by
  have hlt := Nat.mod_lt icId hpos
  rw [getCursorIcEntry, Nat.mod_eq_of_lt (by omega), ht.chains _ hlt, bucketOf, find?_filter]
  refine congrArg (find? · h) (funext fun p => ?_)
  by_cases hp : p.icId = icId <;> simp [hp]

theorem buckets_perm (size : ℕ) (h : List CursorICHistoryEntry) (i : ℕ) :
    ((range i).flatMap fun j => bucketOf size j h).Perm (h.filter fun p => p.icId % size < i) := by
  induction i with
  | zero => simp
  | succ i ih =>
    rw [range_succ, flatMap_append, flatMap_singleton]
    refine (ih.append_right _).trans ?_
    have hsplit := filter_append_perm (fun p => decide (p.icId % size < i))
      (h.filter fun p => p.icId % size < i + 1)
    rw [filter_filter, filter_filter] at hsplit
    refine Perm.trans (Perm.of_eq ?_) hsplit
    refine congrArg₂ _ (filter_congr fun p _ => ?_) (filter_congr fun p _ => ?_)
    all_goals
      rw [Bool.eq_iff_iff]
      simp only [Bool.and_eq_true, Bool.not_eq_true', decide_eq_true_eq, decide_eq_false_iff_not]
      omega

theorem Holds.entries_perm (ht : Holds t h) (hpos : 0 < t.size) : t.entries.Perm h := by
  have hchains : t.entries = (range t.size).flatMap fun j => bucketOf t.size j h :=
    flatMap_congr fun j hj => ht.chains j (mem_range.mp hj)
  have hall : h.filter (fun p => p.icId % t.size < t.size) = h :=
    filter_eq_self.mpr fun p _ => decide_eq_true (Nat.mod_lt _ hpos)
  have hperm := buckets_perm t.size h t.size
  rwa [hall, ← hchains] at hperm

/-- **The cursor history table** does what its calls say, for all calls that purge it empty only,
exactly if its size is at most 255: every call ends, `getCursorIcEntry` finds the newest entry of an
id, the entries are those of the history, and they are counted. -/
theorem cursorIcTable_correct_iff (size : ℕ) (hmin : 128 ≤ size) (hmax : size ≤ 102400) :
    (∀ cs : List IcTableCall, cs.length < 2 ^ 32 → PurgesEmpty cs [] →
      ∃ fuel t, runCalls fuel cs (initCursorICHistoryTable size) = some t ∧
        (∀ icId, getCursorIcEntry t icId = (historyOf cs []).find? fun p => p.icId = icId) ∧
        t.entries.Perm (historyOf cs []) ∧ t.count = t.entries.length) ↔ size ≤ 255 := by
  constructor
  · intro hall
    by_contra hlarge
    obtain ⟨fuel, t, hrun, -⟩ := hall [.prune 0] (by decide) ⟨fun h => (by cases h), trivial⟩
    have hnone : pruneCursorIcEntry fuel (initCursorICHistoryTable size) 0 = none :=
      prune_diverges 0 fuel 0 _ (by decide) (show 256 ≤ size by omega)
    rw [runCalls, IcTableCall.run, hnone] at hrun
    cases hrun
  · intro hsize cs hfew hpurge
    have hpos : 0 < size := by omega
    have hinit : Holds (initCursorICHistoryTable size) [] := ⟨fun _ _ => rfl, rfl⟩
    obtain ⟨t, hrun, hsame, ht⟩ :=
      runCalls_holds cs (show 0 < (initCursorICHistoryTable size).size from hpos) hsize
      (by simpa using hfew) hinit hpurge
    have hperm := ht.entries_perm (hsame ▸ hpos)
    exact ⟨256, t, hrun, ht.get (hsame ▸ hpos) (hsame ▸ hsize), hperm,
      ht.count.trans hperm.length_eq.symm⟩

theorem cursorIcTable_correct_default :
    PurgesEmpty [.add 7 0, .add 135 1, .update 7 0, .prune 8] [] ∧
      ∃ fuel t, runCalls fuel [.add 7 0, .add 135 1, .update 7 0, .prune 8]
        (initCursorICHistoryTable 128) = some t ∧
        (∀ icId, getCursorIcEntry t icId =
        [(⟨135, 1, 1⟩ : CursorICHistoryEntry)].find? fun p => p.icId = icId) ∧
        t.entries.Perm [⟨135, 1, 1⟩] ∧ t.count = t.entries.length := by
  have hpurge : PurgesEmpty [.add 7 0, .add 135 1, .update 7 0, .prune 8] [] := by
    simp [PurgesEmpty]
  exact ⟨hpurge, (cursorIcTable_correct_iff 128 (by decide) (by decide)).mpr (by decide) _
    (by decide) hpurge⟩

/-- **Larger tables**: with 256 buckets a prune does not end, and with 300 an entry is not found. A
purge leaves its entries in the count of any table. -/
theorem cursorIcTable_larger :
    (∀ fuel, runCalls fuel [.prune 0] (initCursorICHistoryTable 256) = none) ∧
      getCursorIcEntry (addCursorIcEntry (initCursorICHistoryTable 300) 256 0) 256 = none ∧
      ∃ t, runCalls 256 [.add 7 0, .purge] (initCursorICHistoryTable 128) = some t ∧ t.count = 1 ∧
      t.entries = [] := by
  refine ⟨fun fuel => ?_, by decide, ⟨_, rfl, rfl, by decide +kernel⟩⟩
  have hnone : pruneCursorIcEntry fuel (initCursorICHistoryTable 256) 0 = none :=
    prune_diverges 0 fuel 0 _ (by decide) (le_refl 256)
  rw [runCalls, IcTableCall.run, hnone]
  rfl

end PolemoDB.Motion
