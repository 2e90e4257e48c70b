import PolemoDB.Lib.Lru
import PolemoDB.Lib.Loop
import PolemoDB.Transam.DistributedLog

/-!
# The cache of local and distributed transaction ids

Each process keeps the pairs of local xids and gxids it looked up last.  The entries are linked into
a hash table by their local xid and into a list by their last use; here they are one list, in the
order of use.
-/

namespace PolemoDB.Cdb

open PolemoDB.Lib PolemoDB.Transam

/-- The errors of the cache; `noTable` and `noLastEntry` are asserted not to happen. -/
inductive CacheError
  | noTable
  | noLastEntry
  | addFound (localXid : TransactionId)
  deriving DecidableEq, Repr

/-- `LocalDistribXactCache` and its table, which is created by the first lookup. -/
structure LocalDistribXactCache where
  htab : Option (List (TransactionId × DistributedTransactionId))
  count : Nat
  deriving DecidableEq, Repr

namespace LocalDistribXactCache

/-- The cache of a process that has just started. -/
def initial : LocalDistribXactCache := ⟨none, 0⟩

/-- `LocalDistribXactCache_CommittedFind` with `gp_max_local_distributed_cache = limit`. -/
def committedFind (limit : Nat) (c : LocalDistribXactCache) (localXid : TransactionId) :
    Option DistributedTransactionId × LocalDistribXactCache :=
  if limit = 0 then (none, c)
  else
    let (entries, count) := match c.htab with
      | none => ([], 0)
      | some entries => (entries, c.count)
    match lruFind localXid entries with
    | some distribXid => (some distribXid, ⟨some (lruTouch localXid entries), count⟩)
    | none => (none, ⟨some entries, count⟩)

/-- The removal of the entry that was not used for the longest time, if the cache is full. -/
def removeOldest (limit : Nat) (entries : List (TransactionId × DistributedTransactionId))
    (count : Nat) : Except CacheError (List (TransactionId × DistributedTransactionId) × Nat) :=
  if limit ≤ count then
    if entries = [] then .error .noLastEntry else .ok (entries.dropLast, count - 1)
  else .ok (entries, count)

/-- `LocalDistribXactCache_AddCommitted`. -/
def addCommitted (limit : Nat) (c : LocalDistribXactCache) (localXid : TransactionId)
    (distribXid : DistributedTransactionId) : Except CacheError LocalDistribXactCache :=
  if limit = 0 then .ok c
  else
    match c.htab with
    | none => .error .noTable
    | some entries => do
      let (entries, count) ← removeOldest limit entries c.count
      if (lruFind localXid entries).isSome then .error (.addFound localXid)
      else .ok ⟨some ((localXid, distribXid) :: entries), count + 1⟩

/-- The entries, none before there is a table. -/
def entries (c : LocalDistribXactCache) : List (TransactionId × DistributedTransactionId) :=
  c.htab.getD []

/-- The cache holds pairs of `f`, and counts them. -/
structure Sound (c : LocalDistribXactCache) (f : TransactionId → Option DistributedTransactionId) :
    Prop where
  caches : Caches c.entries f
  count : c.htab ≠ none → c.count = c.entries.length

variable {limit : Nat} {c : LocalDistribXactCache} {f f' : TransactionId →
  Option DistributedTransactionId}

theorem Sound.initial (f : TransactionId → Option DistributedTransactionId) : Sound initial f :=
  ⟨Caches.nil, fun h => absurd rfl h⟩

theorem Sound.extend (h : c.Sound f) (hf : Extends f f') : c.Sound f' :=
  ⟨h.caches.extend hf, h.count⟩

/-- What a lookup does: it finds a value of `f`, or the table has no entry for the xid. -/
theorem Sound.committedFind (h : c.Sound f) (limit : Nat) (localXid : TransactionId) :
    (c.committedFind limit localXid).2.Sound f ∧
      (∀ g, (c.committedFind limit localXid).1 = some g → f localXid = some g) ∧
      ((c.committedFind limit localXid).1 = none → limit ≠ 0 →
        ∃ entries, (c.committedFind limit localXid).2.htab = some entries ∧
        ∀ e ∈ entries, e.1 ≠ localXid) := by
  unfold LocalDistribXactCache.committedFind
  by_cases hl : limit = 0
  · rw [if_pos hl]
    exact ⟨h, fun g hg => (nomatch hg), fun _ hne => absurd hl hne⟩
  rw [if_neg hl]
  obtain ⟨entries, count, heq, hc, hcount⟩ : ∃ entries count,
      (match c.htab with | none => ([], 0) | some entries => (entries, c.count)) =
        (entries, count) ∧ Caches entries f ∧ count = entries.length := by
    cases ht : c.htab with
    | none => exact ⟨[], 0, rfl, Caches.nil, rfl⟩
    | some entries =>
      have hc := h.caches
      have hn := h.count (by rw [ht]; exact Option.some_ne_none _)
      unfold LocalDistribXactCache.entries at hc hn
      rw [ht] at hc hn
      exact ⟨entries, c.count, rfl, hc, hn⟩
  rw [heq]
  dsimp only
  cases hfind : lruFind localXid entries with
  | some g =>
    refine ⟨⟨hc.touch localXid, fun _ => hcount.trans length_lruTouch.symm⟩, fun g' hg => ?_,
      nofun⟩
    cases hg
    exact hc.find hfind
  | none =>
    exact ⟨⟨hc, fun _ => hcount⟩, fun _ hg => (nomatch hg),
      fun _ _ => ⟨entries, rfl, lruFind_eq_none_iff.mp hfind⟩⟩

/-- A pair is added after a lookup that did not find it: there is a table, the oldest entry makes
room, and no entry has the xid. -/
theorem Sound.addCommitted (h : c.Sound f) {limit : Nat} {localXid : TransactionId}
    {g : DistributedTransactionId} (hmiss : limit ≠ 0 → ∃ entries, c.htab = some entries ∧
    ∀ e ∈ entries, e.1 ≠ localXid) (hg : f localXid = some g) :
    ∃ c', c.addCommitted limit localXid g = .ok c' ∧ c'.Sound f := by
  unfold LocalDistribXactCache.addCommitted
  by_cases hl : limit = 0
  · rw [if_pos hl]
    exact ⟨c, rfl, h⟩
  rw [if_neg hl]
  obtain ⟨entries, ht, hno⟩ := hmiss hl
  have hc := h.caches
  have hn := h.count (by rw [ht]; exact Option.some_ne_none _)
  unfold LocalDistribXactCache.entries at hc hn
  rw [ht] at hc hn
  rw [ht]
  dsimp only
  obtain ⟨entries', heq, hsub, hc'⟩ : ∃ entries' :
      List (TransactionId × DistributedTransactionId),
      removeOldest limit entries c.count = .ok (entries', entries'.length) ∧ entries' ⊆ entries ∧
      Caches entries' f := by
    unfold removeOldest
    by_cases hfull : limit ≤ c.count
    · have hne : entries ≠ [] := fun he => by
        rw [hn, he] at hfull
        exact hl (Nat.le_zero.mp hfull)
      rw [if_pos hfull, if_neg hne, hn, ← List.length_dropLast]
      exact ⟨entries.dropLast, rfl, List.dropLast_subset entries, hc.dropLast⟩
    · rw [if_neg hfull, hn]
      exact ⟨entries, rfl, fun _ he => he, hc⟩
  have hnone : lruFind localXid entries' = none := lruFind_eq_none_iff.mpr fun e he =>
    hno e (hsub he)
  rw [heq, ok_bind]
  rw [hnone, if_neg (show ¬((none : Option DistributedTransactionId).isSome = true)
    from Bool.false_ne_true)]
  exact ⟨_, rfl, hc'.push hg, fun _ => rfl⟩

end LocalDistribXactCache

end PolemoDB.Cdb
