import Mathlib.Data.List.GetD
import PolemoDB.AppendOnly.TupleId
import PolemoDB.AppendOnly.BlockDirectoryInsert

/-!
# Looking up a row in the block directory

The search descriptor keeps one minipage per column, and one segment file number for all of them.
An entry is looked for in the minipage of the column when the segment file is the current one;
otherwise the minipages of all columns are loaded, except that a column whose value is missing for
the row is passed over, and that loading ends at the first column without a tuple.

Source: `appendonlyblockdirectory.c` (`set_directoryentry_range`,
`AppendOnlyBlockDirectory_GetEntry`, `blkdir_entry_exists`, `findFileSegInfo`),
`AO_ATTR_VAL_IS_MISSING` of `cdbappendonlyam.h`.
-/

namespace PolemoDB.AppendOnly

open List Except Prod

/-! ## The descriptor -/

/-- `AppendOnlyBlockDirectoryEntry`: the range of an entry. -/
structure DirectoryEntry where
  fileOffset : Int
  firstRowNum : Int
  afterFileOffset : Int
  lastRowNum : Int
deriving DecidableEq, Repr, Inhabited

/-- `AppendOnlyBlockDirectoryEntry_RangeHasRow`. -/
def DirectoryEntry.rangeHasRow (entry : DirectoryEntry) (rowNum : Nat) : Bool :=
  entry.firstRowNum ≤ rowNum && rowNum ≤ entry.lastRowNum

/-- `AOCSFileSegInfo`, with the `eof` of each column. -/
structure AOCSFileSegInfo where
  segno : Nat
  awaitingDrop : Bool
  eof : Nat → Nat

/-- What does not change while a descriptor is used: the relation as the snapshot sees it, the
segment files, the projected columns with the anchor column first, the last row number with a
missing value of each column and segment file, and `gp_blockdirectory_entry_min_range`. -/
structure SearchEnv where
  rel : BlkdirRel
  segmentFileInfo : List AOCSFileSegInfo
  projAtts : List Nat
  attnumToRownum : Nat → Nat → Nat
  isMVCCSnapshot : Bool
  entryMinRange : Nat

/-- The part of `AppendOnlyBlockDirectory` that changes; the segment file number -1 is `none`. -/
structure BlockDirectory where
  currentSegmentFileNum : Option Nat
  currentSegmentFileInfo : Option AOCSFileSegInfo
  minipages : Nat → MinipagePerColumnGroup

/-- `AppendOnlyBlockDirectory_Init_forSearch`. -/
def initForSearch : BlockDirectory := ⟨none, none, fun _ => .init⟩

/-- What a lookup can end with instead of an answer. -/
inductive SearchError where
  /-- `segmentFileInfo` is read behind its end -/
  | noFileSegInfo
  /-- `currentSegmentFileInfo` is NULL -/
  | nullFileSegInfo
  | blkdir (e : BlkdirError)
deriving DecidableEq, Repr

section

variable (env : SearchEnv)

def SearchEnv.findFileSegInfo (segno : Nat) : Option AOCSFileSegInfo :=
  env.segmentFileInfo.find? (·.segno == segno)

/-- `AO_ATTR_VAL_IS_MISSING`. -/
def SearchEnv.valIsMissing (tid : AOTupleId) (colno : Nat) : Bool :=
  tid.rowNum ≤ env.attnumToRownum colno tid.segmentFileNum

/-- The tuple with the minipage that can have the row: the first one of the backward scan. -/
def SearchEnv.tupleFor (tid : AOTupleId) (colno : Nat) : Option BlkdirTuple :=
  (env.rel.scanBackward tid.segmentFileNum colno tid.rowNum).head?

def BlockDirectory.setMinipage (bd : BlockDirectory) (colno : Nat) (info : MinipagePerColumnGroup) :
    BlockDirectory :=
  { bd with minipages := fun c => if c = colno then info else bd.minipages c }

/-! ## The functions -/

/-- `set_directoryentry_range`, with the end of file of the column. -/
def setDirectoryEntryRange (entryMinRange eof : Nat) (entries : List MinipageEntry)
    (entryNo : Nat) : DirectoryEntry × Bool :=
  let entry := entries.getD entryNo default
  let next := if entryNo + 1 < entries.length then entries[entryNo + 1]? else none
  let after : Int := match next with
    | some n => n.fileOffset
    | none => eof
  let last : Int :=
    if next.isNone && entryMinRange != 0 then 2 ^ 63 - 1 else entry.firstRowNum + entry.rowCount - 1
  if eof < entry.fileOffset then (⟨entry.fileOffset, entry.firstRowNum, after, last⟩, false)
  else (⟨entry.fileOffset, entry.firstRowNum, if (eof : Int) < after then eof else after, last⟩,
    true)

/-- The range of an entry of the column's minipage, for the current segment file. -/
def BlockDirectory.entryRange (bd : BlockDirectory) (colno entryNo : Nat) :
    Except SearchError (DirectoryEntry × Bool) :=
  match bd.currentSegmentFileInfo with
  | none => .error .nullFileSegInfo
  | some fsInfo =>
    .ok (setDirectoryEntryRange env.entryMinRange (fsInfo.eof colno) (bd.minipages colno).entries
      entryNo)

/-- The loop of `AppendOnlyBlockDirectory_GetEntry` that loads the minipages; `false` when a column
has no tuple. -/
def loadMinipages (env : SearchEnv) (tid : AOTupleId) (fsInfo : AOCSFileSegInfo) :
    List Nat → BlockDirectory → Except SearchError (BlockDirectory × Bool)
  | [], bd => .ok (bd, true)
  | colno :: cols, bd =>
    if env.valIsMissing tid colno then loadMinipages env tid fsInfo cols bd
    else match env.tupleFor tid colno with
      | none => .ok (bd, false)
      | some t => match extractMinipage t with
        | .error e => .error (.blkdir e)
        | .ok info => loadMinipages env tid fsInfo cols
            (BlockDirectory.setMinipage ⟨some tid.segmentFileNum, some fsInfo, bd.minipages⟩ colno
            info)

/-- The answer from the minipage of the column: the entry with the row, or else the last one. -/
def answerFromMinipage (bd : BlockDirectory) (tid : AOTupleId) (colno : Nat)
    (old : DirectoryEntry) : Except SearchError (BlockDirectory × DirectoryEntry × Bool) :=
  let found := findMinipageEntry (bd.minipages colno) tid.rowNum
  let bd := bd.setMinipage colno found.1
  match found.2 with
  | some entryNo => (bd.entryRange env colno entryNo).map fun r => (bd, r)
  | none =>
    if found.1.entries.length = 0 then .ok (bd, old, false)
    else (bd.entryRange env colno (found.1.entries.length - 1)).map fun r => (bd, r)

/-- The end of `AppendOnlyBlockDirectory_GetEntry`, with minipages loaded. -/
def getEntryByScan (bd : BlockDirectory) (tid : AOTupleId) (colno : Nat)
    (old : DirectoryEntry) : Except SearchError (BlockDirectory × DirectoryEntry × Bool) :=
  match env.findFileSegInfo tid.segmentFileNum with
  | none => .error .noFileSegInfo
  | some fsInfo => match loadMinipages env tid fsInfo env.projAtts bd with
    | .error e => .error e
    | .ok (bd, false) => .ok (bd, old, false)
    | .ok (bd, true) => answerFromMinipage env bd tid colno old

def beginsBefore (entries : List MinipageEntry) (rowNum : Nat) : Bool :=
  match entries.head? with
  | some first => first.firstRowNum ≤ rowNum
  | none => false

/-- `AppendOnlyBlockDirectory_GetEntry`: the directory entry, which keeps its `old` value where it
is not assigned, and the result. -/
def getEntry (bd : BlockDirectory) (tid : AOTupleId) (colno : Nat)
    (old : DirectoryEntry) : Except SearchError (BlockDirectory × DirectoryEntry × Bool) :=
  let info := bd.minipages colno
  if bd.currentSegmentFileNum = some tid.segmentFileNum ∧ beginsBefore info.entries tid.rowNum then
    let found := findMinipageEntry info tid.rowNum
    let bd := bd.setMinipage colno found.1
    match found.2 with
    | some entryNo => (bd.entryRange env colno entryNo).map fun r => (bd, r)
    | none =>
      -- a hole between two entries
      let last := info.entries.getLastD default
      if (tid.rowNum : Int) < last.firstRowNum + last.rowCount - 1 then .ok (bd, old, false)
      else getEntryByScan env bd tid colno old
  else getEntryByScan env bd tid colno old

/-- The loop of `blkdir_entry_exists` over the tuples of the scan. -/
def entryExistsIn (tid : AOTupleId) (colno : Nat) :
    List BlkdirTuple → BlockDirectory → Except SearchError (BlockDirectory × Bool)
  | [], bd => .ok (bd, false)
  | t :: ts, bd => match extractMinipage t with
    | .error e => .error (.blkdir e)
    | .ok info =>
      let found := findMinipageEntry info tid.rowNum
      -- the segment file info stays as it is
      let bd := BlockDirectory.setMinipage
        { bd with currentSegmentFileNum := some tid.segmentFileNum } colno found.1
      if found.2.isSome then .ok (bd, true) else entryExistsIn tid colno ts bd

def blkdirEntryExists (bd : BlockDirectory) (tid : AOTupleId) (colno : Nat) :
    Except SearchError (BlockDirectory × Bool) :=
  let scan := env.rel.scanBackward tid.segmentFileNum colno tid.rowNum
  if env.isMVCCSnapshot ∧ bd.currentSegmentFileNum = some tid.segmentFileNum then
    let found := findMinipageEntry (bd.minipages colno) tid.rowNum
    let bd := bd.setMinipage colno found.1
    if found.2.isSome then .ok (bd, true) else entryExistsIn tid colno scan bd
  else entryExistsIn tid colno scan bd

end

/-! ## Finding an entry -/

section Find

variable {entries : List MinipageEntry} {rowNum : Nat}

theorem covers_iff {e : MinipageEntry} :
    e.covers rowNum = true ↔ e.firstRowNum ≤ rowNum ∧ rowNum < e.firstRowNum + e.rowCount := by
  simp [MinipageEntry.covers]

variable {i j : Nat} {info : MinipagePerColumnGroup}

theorem covers_getD_lt (h : (entries.getD i default).covers rowNum = true) :
    i < entries.length := by
  by_contra hlt
  rw [getD_eq_default _ _ (Nat.not_lt.mp hlt)] at h
  exact absurd (covers_iff.mp h).2 (Nat.not_lt_zero rowNum)

theorem InOrder.getD_before (h : InOrder entries) (hij : i < j) (hj : j < entries.length) :
    (entries.getD i default).firstRowNum + (entries.getD i default).rowCount ≤
    (entries.getD j default).firstRowNum := by
  have hbefore := pairwise_iff_getElem.mp h.disjoint i j (Nat.lt_trans hij hj) hj hij
  rw [getD_eq_getElem _ _ (Nat.lt_trans hij hj), getD_eq_getElem _ _ hj]
  exact hbefore

theorem InOrder.covers_unique (h : InOrder entries)
    (hi : (entries.getD i default).covers rowNum = true)
    (hj : (entries.getD j default).covers rowNum = true) : i = j := by
  have hi' := covers_iff.mp hi
  have hj' := covers_iff.mp hj
  rcases Nat.lt_trichotomy i j with hlt | heq | hgt
  · have := h.getD_before hlt (covers_getD_lt hj)
    omega
  · exact heq
  · have := h.getD_before hgt (covers_getD_lt hi)
    omega

theorem searchMinipage_covers (fuel : Nat) {startNo endNo : Int} {i : Nat}
    (h : searchMinipage entries rowNum fuel startNo endNo = some i) :
    (entries.getD i default).covers rowNum = true := by
  fun_induction searchMinipage entries rowNum fuel startNo endNo with
  | case1 | case5 => cases h
  | case2 fuel startNo endNo _ _ entry hcovers =>
    cases h
    exact hcovers
  | case3 fuel startNo endNo _ _ _ _ _ ih | case4 fuel startNo endNo _ _ _ _ _ ih => exact ih h

theorem searchMinipage_complete (h : InOrder entries)
    (hi : (entries.getD i default).covers rowNum = true) (fuel : Nat) {startNo endNo : Int}
    (h0 : 0 ≤ startNo) (hs : startNo ≤ i) (he : i ≤ endNo) (hlen : endNo < entries.length)
    (hfuel : endNo - startNo < fuel) :
    searchMinipage entries rowNum fuel startNo endNo = some i := by
  have hi' := covers_iff.mp hi
  fun_induction searchMinipage entries rowNum fuel startNo endNo with
  | case1 | case5 => omega
  | case2 fuel startNo endNo _ _ _ hcovers => rw [h.covers_unique hcovers hi]
  | case3 fuel startNo endNo _ mid entry hcovers hlt ih =>
    -- the entry in the middle is behind the row
    dsimp only [entry] at hcovers hlt
    have hlt' : i < mid.toNat := by
      rcases Nat.lt_trichotomy i mid.toNat with hlt' | heq | hgt
      · exact hlt'
      · exact absurd (heq ▸ hi) hcovers
      · have := h.getD_before hgt (covers_getD_lt hi)
        omega
    exact ih h0 hs (by omega) (by omega) (by omega)
  | case4 fuel startNo endNo _ mid entry hcovers hge ih =>
    dsimp only [entry] at hcovers hge
    have hgt : mid.toNat < i := by
      rcases Nat.lt_trichotomy mid.toNat i with hgt | heq | hlt
      · exact hgt
      · exact absurd (heq ▸ hi) hcovers
      · have := h.getD_before hlt (by omega)
        exact absurd (covers_iff.mpr ⟨by omega, by omega⟩) hcovers
    exact ih (by omega) (by omega) he hlen (by omega)

@[simp] theorem findMinipageEntry_entries (info : MinipagePerColumnGroup) (rowNum : Nat) :
    (findMinipageEntry info rowNum).1.entries = info.entries := by
  unfold findMinipageEntry
  split
  · split <;> rfl
  · rfl

theorem findMinipageEntry_covers
    (h : (findMinipageEntry info rowNum).2 = some i) :
    (info.entries.getD i default).covers rowNum = true := by
  unfold findMinipageEntry at h
  split at h
  · split at h
    case isTrue hcovers =>
      rw [Option.some.injEq] at h
      rw [← h]
      exact hcovers
    case isFalse => exact searchMinipage_covers _ h
  · exact searchMinipage_covers _ h

/-- **The entry with the row is found**, whatever entry was found the last time. -/
theorem findMinipageEntry_iff (h : InOrder info.entries) :
    (findMinipageEntry info rowNum).2 = some i ↔
    (info.entries.getD i default).covers rowNum = true := by
  refine ⟨findMinipageEntry_covers, fun hi => ?_⟩
  have hlt := covers_getD_lt hi
  have hsearch : searchMinipage info.entries rowNum info.entries.length 0
      (info.entries.length - 1) = some i :=
    searchMinipage_complete h hi _ (Int.le_refl 0) (by omega) (by omega) (by omega) (by omega)
  unfold findMinipageEntry
  split
  · split
    case isTrue hcovers => rw [h.covers_unique hcovers hi]
    case isFalse => exact hsearch
  · exact hsearch

end Find

/-! ## The tuple with the row -/

section Scan

variable {rel : BlkdirRel} {segno colno rowNum : Nat} {es : List MinipageEntry}

variable {t : BlkdirTuple}

theorem mem_inOrder : t ∈ rel.inOrder segno colno ↔ t ∈ rel.tuplesOf segno colno :=
  (perm_insertionSort _ _).mem_iff

theorem mem_tuplesOf_of_scan (h : t ∈ rel.scanBackward segno colno rowNum) :
    t ∈ rel.tuplesOf segno colno :=
  mem_inOrder.mp (mem_of_mem_filter (mem_reverse.mp h))

section

variable (h : rel.Holds segno colno es) (ht : t ∈ rel.tuplesOf segno colno)
include h ht

theorem BlkdirRel.Holds.minipage_inOrder : InOrder t.minipage := by
  have horder := h.inOrder
  rw [← h.entries] at horder
  exact horder.sublist (sublist_flatten_of_mem (mem_map_of_mem (mem_inOrder.mpr ht)))

theorem BlkdirRel.Holds.scan_head {e : MinipageEntry} (he : e ∈ t.minipage)
    (hcovers : e.covers rowNum = true) : (rel.scanBackward segno colno rowNum).head? = some t := by
  obtain ⟨hfirst, hlast⟩ := covers_iff.mp hcovers
  obtain ⟨pre, post, hsplit⟩ := append_of_mem (mem_inOrder.mpr ht)
  have horder := h.inOrder
  rw [← h.entries, hsplit, flatMap_append, flatMap_cons] at horder
  have hkeyed := h.keyed
  rw [hsplit] at hkeyed
  -- the minipage begins at or before the row
  have hkey : t.firstRowNum ≤ rowNum :=
    Nat.le_trans ((h.minipage_inOrder ht).key_le (hkeyed t (by simp)) he) hfirst
  -- those behind it begin behind the row
  have hpost : post.filter (·.firstRowNum ≤ rowNum) = [] := by
    rw [filter_eq_nil_iff]
    intro t' ht'
    obtain ⟨b, hb, hkey'⟩ := (hkeyed t' (by simp [ht'])).exists_head
    have hbefore := (pairwise_append.mp (pairwise_append.mp horder.disjoint).2.1).2.2 e he b
      (mem_flatMap.mpr ⟨t', ht', hb⟩)
    unfold MinipageEntry.Before at hbefore
    rw [decide_eq_true_eq, hkey']
    omega
  unfold BlkdirRel.scanBackward
  rw [hsplit, filter_append, filter_cons_of_pos (by simpa using hkey), hpost, head?_reverse,
    getLast?_concat]

end

end Scan

/-! ## What the minipages in memory are -/

section

variable (env : SearchEnv)

/-- The relation of the block directory is what insert commands leave. -/
def SearchEnv.Wf : Prop := ∀ segno colno, ∃ es, env.rel.Holds segno colno es

/-- The minipages with entries are stored ones of the current segment file. -/
structure BlockDirectory.Matches (bd : BlockDirectory) : Prop where
  stored : ∀ colno ∈ env.projAtts, (bd.minipages colno).entries ≠ [] → ∃ segno,
    bd.currentSegmentFileNum = some segno ∧
      ∃ t ∈ env.rel.tuplesOf segno colno, (bd.minipages colno).entries = t.minipage
  info : ∀ segno, bd.currentSegmentFileNum = some segno → ∃ fsInfo,
    bd.currentSegmentFileInfo = some fsInfo ∧ env.findFileSegInfo segno = some fsInfo

/-- A fresh lookup of the row: the stored minipage, its entry and the end of the file of the
segment. -/
def SearchEnv.freshEntry (tid : AOTupleId) (colno : Nat) : Option DirectoryEntry :=
  match env.tupleFor tid colno, env.findFileSegInfo tid.segmentFileNum with
  | some t, some fsInfo =>
    let found := searchMinipage t.minipage tid.rowNum t.minipage.length 0 (t.minipage.length - 1)
    let range := setDirectoryEntryRange env.entryMinRange (fsInfo.eof colno) t.minipage
      (found.getD (t.minipage.length - 1))
    if range.2 then some range.1 else none
  | _, _ => none

/-- The range is the one of a stored entry of the segment file and column. -/
def SearchEnv.FromStored (tid : AOTupleId) (colno : Nat) (entry : DirectoryEntry) : Prop :=
  ∃ t ∈ env.rel.tuplesOf tid.segmentFileNum colno, ∃ fsInfo ∈
    env.findFileSegInfo tid.segmentFileNum, ∃ entryNo < t.minipage.length,
      setDirectoryEntryRange env.entryMinRange (fsInfo.eof colno) t.minipage entryNo = (entry, true)

/-- The answer is right: a range with the row is the range of a stored entry of the segment file and
column, and for a column whose value is not missing it is the range a fresh lookup has. -/
structure SearchEnv.Right (tid : AOTupleId) (colno : Nat) (entry : DirectoryEntry) : Prop where
  stored : entry.rangeHasRow tid.rowNum = true → env.FromStored tid colno entry
  fresh : entry.rangeHasRow tid.rowNum = true → env.valIsMissing tid colno = false →
    env.freshEntry tid colno = some entry

/-- The columns `AppendOnlyBlockDirectory_GetEntry` loads, and whether it gets to the end of them.
-/
def SearchEnv.loads (env : SearchEnv) (tid : AOTupleId) : List Nat → List Nat × Bool
  | [] => ([], true)
  | colno :: cols =>
    if env.valIsMissing tid colno then env.loads tid cols
    else if (env.tupleFor tid colno).isSome then
      (colno :: (env.loads tid cols).1, (env.loads tid cols).2)
    else ([], false)

/-- The lookup of the row in this state mixes no segment files: it stays in the current one, or it
loads nothing and fails, or it loads every column that has entries in memory. -/
def BlockDirectory.switchOK (bd : BlockDirectory) (tid : AOTupleId) : Prop :=
  bd.currentSegmentFileNum = some tid.segmentFileNum ∨ env.loads tid env.projAtts = ([], false) ∨
    ∀ colno ∈ env.projAtts, (bd.minipages colno).entries = [] ∨
    colno ∈ (env.loads tid env.projAtts).1

end

section Lookup

variable {env : SearchEnv} {bd : BlockDirectory} {tid : AOTupleId} {colno : Nat}

theorem setMinipage_minipages (info : MinipagePerColumnGroup) (c : Nat) :
    (bd.setMinipage colno info).minipages c = if c = colno then info else bd.minipages c := rfl

theorem setMinipage_find_entries (rowNum c : Nat) :
    ((bd.setMinipage colno (findMinipageEntry (bd.minipages colno) rowNum).1).minipages c).entries =
      (bd.minipages c).entries := by
  rw [setMinipage_minipages]
  split
  case isTrue heq => rw [findMinipageEntry_entries, heq]
  case isFalse => rfl

theorem BlockDirectory.Matches.find (h : bd.Matches env) (rowNum : Nat) :
    (bd.setMinipage colno (findMinipageEntry (bd.minipages colno) rowNum).1).Matches env := by
  refine ⟨fun c hc hne => ?_, h.info⟩
  rw [setMinipage_find_entries] at hne ⊢
  exact h.stored c hc hne

variable {t : BlkdirTuple} {fsInfo : AOCSFileSegInfo} {bd' : BlockDirectory} {entryNo : Nat}
  {entry old : DirectoryEntry} {found : Bool}

theorem BlockDirectory.Matches.load (h : bd.Matches env)
    (hcurrent : bd.currentSegmentFileNum = some tid.segmentFileNum)
    {info : MinipagePerColumnGroup} (ht : t ∈ env.rel.tuplesOf tid.segmentFileNum colno)
    (hentries : info.entries = t.minipage) : (bd.setMinipage colno info).Matches env := by
  refine ⟨fun c hc hne => ?_, h.info⟩
  rw [setMinipage_minipages] at hne ⊢
  by_cases heq : c = colno
  · rw [if_pos heq]
    exact ⟨tid.segmentFileNum, hcurrent, t, heq ▸ ht, hentries⟩
  · rw [if_neg heq] at hne ⊢
    exact h.stored c hc hne

theorem extractMinipage_ok {info : MinipagePerColumnGroup} (h : extractMinipage t = .ok info) :
    info = ⟨t.minipage, some t.tid, none⟩ := by
  unfold extractMinipage at h
  split at h
  · exact (ok.inj h).symm
  · exact absurd h (by simp)

/-- What `loadMinipages` leaves: the loaded columns have the minipages for the row, the others what
they had. -/
theorem loadMinipages_spec (cols : List Nat) {bd bd' : BlockDirectory} {complete : Bool}
    (h : loadMinipages env tid fsInfo cols bd = .ok (bd', complete)) :
    complete = (env.loads tid cols).2 ∧
      ((env.loads tid cols).1 = [] ∧ bd' = bd ∨ (env.loads tid cols).1 ≠ [] ∧
      bd'.currentSegmentFileNum = some tid.segmentFileNum ∧
      bd'.currentSegmentFileInfo = some fsInfo) ∧
      (∀ c, c ∉ (env.loads tid cols).1 → bd'.minipages c = bd.minipages c) ∧
      ∀ c ∈ (env.loads tid cols).1, ∃ t, env.tupleFor tid c = some t ∧
      bd'.minipages c = ⟨t.minipage, some t.tid, none⟩ := by
  fun_induction loadMinipages env tid fsInfo cols bd with
  | case1 bd =>
    obtain ⟨rfl, rfl⟩ := mk.inj (ok.inj h)
    exact ⟨rfl, .inl ⟨rfl, rfl⟩, fun _ _ => rfl, nofun⟩
  | case2 colno cols bd hmissing ih =>
    rw [SearchEnv.loads, if_pos hmissing]
    exact ih h
  | case3 colno cols bd hmissing ht =>
    obtain ⟨rfl, rfl⟩ := mk.inj (ok.inj h)
    rw [SearchEnv.loads, if_neg hmissing, ht]
    exact ⟨rfl, .inl ⟨rfl, rfl⟩, fun _ _ => rfl, nofun⟩
  | case4 => cases h
  | case5 colno cols bd hmissing t ht info hinfo ih =>
    obtain ⟨hcomplete, hcurrent, hother, hloaded⟩ := ih h
    rw [SearchEnv.loads, if_neg hmissing, ht, if_pos (show (some t).isSome = true from rfl)]
    refine ⟨hcomplete, .inr ⟨cons_ne_nil _ _, ?_⟩, ?_, ?_⟩
    · rcases hcurrent with ⟨-, rfl⟩ | hcurrent
      · exact ⟨rfl, rfl⟩
      · exact hcurrent.2
    · intro c hc
      rw [mem_cons, not_or] at hc
      rw [hother c hc.2, setMinipage_minipages, if_neg hc.1]
    intro c hc
    by_cases hc' : c ∈ (env.loads tid cols).1
    · exact hloaded c hc'
    · have heq : c = colno := (mem_cons.mp hc).resolve_right hc'
      refine ⟨t, heq ▸ ht, ?_⟩
      rw [hother c hc', setMinipage_minipages, if_pos heq, extractMinipage_ok hinfo]

theorem mem_loads_of_complete (cols : List Nat) (hcomplete : (env.loads tid cols).2 = true)
    {c : Nat} (hc : c ∈ cols) (hmissing : env.valIsMissing tid c = false) :
    c ∈ (env.loads tid cols).1 := by
  fun_induction SearchEnv.loads env tid cols with
  | case1 => exact absurd hc not_mem_nil
  | case2 colno cols hm ih =>
    refine ih hcomplete ((mem_cons.mp hc).resolve_left fun heq => ?_)
    rw [heq, hm] at hmissing
    exact Bool.noConfusion hmissing
  | case3 colno cols _ _ ih =>
    rcases mem_cons.mp hc with heq | hc
    · exact heq ▸ mem_cons_self
    · exact mem_cons_of_mem _ (ih hcomplete hc)
  | case4 => exact absurd hcomplete (by simp)

theorem loadMinipages_matches (h : bd.Matches env) (hswitch : bd.switchOK env tid)
    (hfs : env.findFileSegInfo tid.segmentFileNum = some fsInfo) {complete : Bool}
    (hload : loadMinipages env tid fsInfo env.projAtts bd = .ok (bd', complete)) :
    bd'.Matches env := by
  obtain ⟨-, hcurrent, hother, hloaded⟩ := loadMinipages_spec _ hload
  rcases hcurrent with ⟨-, rfl⟩ | ⟨hsome, hnum, hinfo⟩
  · exact h
  refine ⟨fun c hc hne => ⟨tid.segmentFileNum, hnum, ?_⟩, fun segno hsegno => ⟨fsInfo, hinfo, ?_⟩⟩
  · by_cases hmem : c ∈ (env.loads tid env.projAtts).1
    · obtain ⟨t, ht, hpage⟩ := hloaded c hmem
      exact ⟨t, mem_tuplesOf_of_scan (mem_of_mem_head? ht), by rw [hpage]⟩
    rw [hother c hmem] at hne ⊢
    rcases hswitch with hstays | hnone | hall
    · obtain ⟨segno, hsegno, hstored⟩ := h.stored c hc hne
      rw [hstays, Option.some.injEq] at hsegno
      exact hsegno ▸ hstored
    · exact absurd (by rw [hnone]) hsome
    · rcases hall c hc with hnil | hin
      · exact absurd hnil hne
      · exact absurd hin hmem
  · rw [hnum, Option.some.injEq] at hsegno
    exact hsegno ▸ hfs

theorem entryRange_fromStored (h : bd.Matches env) (hcol : colno ∈ env.projAtts)
    (hcurrent : bd.currentSegmentFileNum = some tid.segmentFileNum)
    (hlt : entryNo < (bd.minipages colno).entries.length)
    (hrange : bd.entryRange env colno entryNo = .ok (entry, found)) :
    ∃ t ∈ env.rel.tuplesOf tid.segmentFileNum colno, (bd.minipages colno).entries = t.minipage ∧
      ∃ fsInfo, env.findFileSegInfo tid.segmentFileNum = some fsInfo ∧
        setDirectoryEntryRange env.entryMinRange (fsInfo.eof colno) t.minipage entryNo =
        (entry, found) := by
  obtain ⟨fsInfo, hinfo, hfs⟩ := h.info _ hcurrent
  obtain ⟨segno, hsegno, t, ht, hentries⟩ :=
    h.stored colno hcol (length_pos_iff.mp (Nat.zero_lt_of_lt hlt))
  rw [hcurrent, Option.some.injEq] at hsegno
  refine ⟨t, hsegno ▸ ht, hentries, fsInfo, hfs, ?_⟩
  unfold BlockDirectory.entryRange at hrange
  rw [hinfo, hentries] at hrange
  exact ok.inj hrange

theorem freshEntry_eq (ht : env.tupleFor tid colno = some t)
    (hfs : env.findFileSegInfo tid.segmentFileNum = some fsInfo)
    (hno : (searchMinipage t.minipage tid.rowNum t.minipage.length 0 (t.minipage.length - 1)).getD
      (t.minipage.length - 1) = entryNo)
    (hrange : setDirectoryEntryRange env.entryMinRange (fsInfo.eof colno) t.minipage entryNo =
      (entry, true)) :
    env.freshEntry tid colno = some entry := by
  unfold SearchEnv.freshEntry
  rw [ht, hfs]
  dsimp only
  rw [hno, hrange]
  rfl

theorem freshEntry_of_covers (hwf : env.Wf) (ht : t ∈ env.rel.tuplesOf tid.segmentFileNum colno)
    (hfs : env.findFileSegInfo tid.segmentFileNum = some fsInfo)
    (hcovers : (t.minipage.getD entryNo default).covers tid.rowNum = true)
    (hrange : setDirectoryEntryRange env.entryMinRange (fsInfo.eof colno) t.minipage entryNo =
    (entry, true)) : env.freshEntry tid colno = some entry := by
  obtain ⟨es, hholds⟩ := hwf tid.segmentFileNum colno
  have hlt := covers_getD_lt hcovers
  have hmem : t.minipage.getD entryNo default ∈ t.minipage := by
    rw [getD_eq_getElem _ _ hlt]
    exact getElem_mem hlt
  refine freshEntry_eq (hholds.scan_head ht hmem hcovers) hfs ?_ hrange
  have hfind : (findMinipageEntry ⟨t.minipage, none, none⟩ tid.rowNum).2 = some entryNo :=
    (findMinipageEntry_iff (hholds.minipage_inOrder ht)).mpr hcovers
  change searchMinipage t.minipage tid.rowNum t.minipage.length 0 (t.minipage.length - 1) =
    some entryNo at hfind
  rw [hfind]
  rfl

/-- What a call leaves: a row that it finds is found in the segment file of the row. -/
def SearchEnv.Answers (env : SearchEnv) (tid : AOTupleId) (colno : Nat) (bd : BlockDirectory)
    (entry : DirectoryEntry) (found : Bool) : Prop :=
  bd.Matches env ∧ (found = true → bd.currentSegmentFileNum = some tid.segmentFileNum ∧
    env.Right tid colno entry)

theorem answers_of_notFound (h : bd.Matches env)
    (heq : (.ok (bd, old, false) : Except SearchError _) = .ok (bd', entry, found)) :
    env.Answers tid colno bd' entry found := by
  cases heq
  exact ⟨h, nofun⟩

/-- The range of an entry of the minipage in memory, which must be the one a fresh lookup finds. -/
theorem answers_of_entryRange (h : bd.Matches env) (hcol : colno ∈ env.projAtts)
    (hcurrent : bd.currentSegmentFileNum = some tid.segmentFileNum)
    (hlt : entryNo < (bd.minipages colno).entries.length)
    (hfresh : ∀ t ∈ env.rel.tuplesOf tid.segmentFileNum colno, (bd.minipages colno).entries =
      t.minipage → ∀ fsInfo, env.findFileSegInfo tid.segmentFileNum = some fsInfo →
        setDirectoryEntryRange env.entryMinRange (fsInfo.eof colno) t.minipage entryNo =
          (entry, true) → env.valIsMissing tid colno = false →
          env.freshEntry tid colno = some entry)
    (heq : (bd.entryRange env colno entryNo).map (fun r => (bd, r)) = .ok (bd', entry, found)) :
    env.Answers tid colno bd' entry found := by
  cases hrange : bd.entryRange env colno entryNo with
  | error e =>
    rw [hrange] at heq
    exact absurd heq (by simp [Except.map])
  | ok r =>
    rw [hrange] at heq
    obtain ⟨rfl, rfl⟩ := mk.inj (ok.inj heq)
    refine ⟨h, fun hfound => ⟨hcurrent, ?_⟩⟩
    rw [hfound] at hrange
    obtain ⟨t, ht, hpage, fsInfo, hfs, hset⟩ := entryRange_fromStored h hcol hcurrent hlt hrange
    exact ⟨fun _ => ⟨t, ht, fsInfo, hfs, entryNo, by rw [← hpage]; exact hlt, hset⟩,
      fun _ => hfresh t ht hpage fsInfo hfs hset⟩

theorem answerFromMinipage_spec (h : bd.Matches env) (hcol : colno ∈ env.projAtts)
    (hcurrent : (bd.minipages colno).entries ≠ [] →
    bd.currentSegmentFileNum = some tid.segmentFileNum)
    (hloaded : env.valIsMissing tid colno = false → ∃ t, env.tupleFor tid colno = some t ∧
      bd.minipages colno = ⟨t.minipage, some t.tid, none⟩)
    (heq : answerFromMinipage env bd tid colno old = .ok (bd', entry, found)) :
    env.Answers tid colno bd' entry found := by
  unfold answerFromMinipage at heq
  dsimp only at heq
  generalize hbd₁ : bd.setMinipage colno (findMinipageEntry (bd.minipages colno) tid.rowNum).1 =
    bd₁ at heq
  have hmatch : bd₁.Matches env := hbd₁ ▸ h.find tid.rowNum
  have hentries : (bd₁.minipages colno).entries = (bd.minipages colno).entries := by
    rw [← hbd₁]
    exact setMinipage_find_entries _ _
  have hnum : bd₁.currentSegmentFileNum = bd.currentSegmentFileNum := by
    rw [← hbd₁]
    rfl
  -- for a loaded minipage the lookup is the search
  have hanswer : ∀ {entryNo : Nat}, entryNo < (bd.minipages colno).entries.length →
      (findMinipageEntry (bd.minipages colno) tid.rowNum).2.getD
      ((bd.minipages colno).entries.length - 1) = entryNo →
      (bd₁.entryRange env colno entryNo).map (fun r => (bd₁, r)) = .ok (bd', entry, found) →
      env.Answers tid colno bd' entry found := by
    intro entryNo hlt hno hmap
    have hseg := hcurrent (length_pos_iff.mp (Nat.zero_lt_of_lt hlt))
    refine answers_of_entryRange hmatch hcol (by rw [hnum, hseg]) (by rw [hentries]; exact hlt) ?_
      hmap
    intro t _ hpage fsInfo hfs hset hmissing
    obtain ⟨t', ht', hpage'⟩ := hloaded hmissing
    have hsame : t.minipage = t'.minipage := by rw [← hpage, hentries, hpage']
    rw [hsame] at hset
    rw [hpage'] at hno
    exact freshEntry_eq ht' hfs hno hset
  cases hfind : (findMinipageEntry (bd.minipages colno) tid.rowNum).2 with
  | some entryNo =>
    rw [hfind] at heq hanswer
    exact hanswer (covers_getD_lt (findMinipageEntry_covers hfind)) rfl heq
  | none =>
    rw [hfind] at heq hanswer
    rw [findMinipageEntry_entries] at heq
    dsimp only at heq
    split at heq
    case isTrue => exact answers_of_notFound hmatch heq
    case isFalse hlen => exact hanswer (Nat.sub_one_lt hlen) rfl heq

theorem getEntryByScan_spec (h : bd.Matches env) (hswitch : bd.switchOK env tid)
    (hcol : colno ∈ env.projAtts)
    (heq : getEntryByScan env bd tid colno old = .ok (bd', entry, found)) :
    env.Answers tid colno bd' entry found := by
  unfold getEntryByScan at heq
  cases hfs : env.findFileSegInfo tid.segmentFileNum with
  | none =>
    rw [hfs] at heq
    exact absurd heq (by simp)
  | some fsInfo =>
    rw [hfs] at heq
    dsimp only at heq
    cases hload : loadMinipages env tid fsInfo env.projAtts bd with
    | error e =>
      rw [hload] at heq
      exact absurd heq (by simp)
    | ok r =>
      obtain ⟨bd₁, complete⟩ := r
      rw [hload] at heq
      have hmatch := loadMinipages_matches h hswitch hfs hload
      obtain ⟨hcomplete, hcurrent, hother, hloaded⟩ := loadMinipages_spec _ hload
      cases complete with
      | false => exact answers_of_notFound hmatch heq
      | true =>
        refine answerFromMinipage_spec hmatch hcol (fun hne => ?_) (fun hmissing => ?_) heq
        · rcases hcurrent with ⟨hnone, rfl⟩ | ⟨-, hnum, -⟩
          · rcases hswitch with hstays | hfails | hall
            · exact hstays
            · rw [hfails] at hcomplete
              exact Bool.noConfusion hcomplete
            rw [hnone] at hall
            rcases hall colno hcol with hnil | hin
            · exact absurd hnil hne
            · exact absurd hin not_mem_nil
          · exact hnum
        · exact hloaded colno (mem_loads_of_complete _ hcomplete.symm hcol hmissing)

theorem getEntry_spec (hwf : env.Wf) (h : bd.Matches env) (hswitch : bd.switchOK env tid)
    (hcol : colno ∈ env.projAtts)
    (heq : getEntry env bd tid colno old = .ok (bd', entry, found)) :
    env.Answers tid colno bd' entry found := by
  unfold getEntry at heq
  dsimp only at heq
  split at heq
  case isFalse => exact getEntryByScan_spec h hswitch hcol heq
  case isTrue hcache =>
    obtain ⟨hcurrent, -⟩ := hcache
    generalize hbd₁ : bd.setMinipage colno (findMinipageEntry (bd.minipages colno) tid.rowNum).1 =
      bd₁ at heq
    have hmatch : bd₁.Matches env := hbd₁ ▸ h.find tid.rowNum
    have hnum : bd₁.currentSegmentFileNum = some tid.segmentFileNum := by
      rw [← hbd₁]
      exact hcurrent
    cases hfind : (findMinipageEntry (bd.minipages colno) tid.rowNum).2 with
    | none =>
      rw [hfind] at heq
      dsimp only at heq
      split at heq
      · exact answers_of_notFound hmatch heq
      · exact getEntryByScan_spec hmatch (.inl hnum) hcol heq
    | some entryNo =>
      rw [hfind] at heq
      have hcovers := findMinipageEntry_covers hfind
      have hentries : (bd₁.minipages colno).entries = (bd.minipages colno).entries := by
        rw [← hbd₁]
        exact setMinipage_find_entries _ _
      refine answers_of_entryRange hmatch hcol hnum (by rw [hentries]; exact covers_getD_lt hcovers)
        ?_ heq
      intro t ht hpage fsInfo hfs hset _
      rw [← hentries, hpage] at hcovers
      exact freshEntry_of_covers hwf ht hfs hcovers hset

theorem entryExistsIn_matches (ts : List BlkdirTuple) {bd bd' : BlockDirectory} {found : Bool}
    (h : bd.Matches env) (hcurrent : bd.currentSegmentFileNum = some tid.segmentFileNum)
    (hts : ∀ t ∈ ts, t ∈ env.rel.tuplesOf tid.segmentFileNum colno)
    (heq : entryExistsIn tid colno ts bd = .ok (bd', found)) :
    bd'.Matches env ∧ bd'.currentSegmentFileNum = some tid.segmentFileNum := by
  induction ts generalizing bd bd' found with
  | nil =>
    obtain ⟨rfl, -⟩ := mk.inj (ok.inj heq)
    exact ⟨h, hcurrent⟩
  | cons t ts ih =>
    unfold entryExistsIn at heq
    cases hinfo : extractMinipage t with
    | error e =>
      rw [hinfo] at heq
      exact absurd heq (by simp)
    | ok info =>
      rw [hinfo] at heq
      dsimp only at heq
      have hsame : ({ bd with currentSegmentFileNum := some tid.segmentFileNum } : BlockDirectory) =
        bd := by
        rw [← hcurrent]
      rw [hsame] at heq
      have hmatch := h.load hcurrent (hts t mem_cons_self)
        (show (findMinipageEntry info tid.rowNum).1.entries = t.minipage by
          rw [findMinipageEntry_entries, extractMinipage_ok hinfo])
      split at heq
      · obtain ⟨rfl, -⟩ := mk.inj (ok.inj heq)
        exact ⟨hmatch, hcurrent⟩
      · exact ih hmatch hcurrent (fun t' ht' => hts t' (mem_cons_of_mem _ ht')) heq

theorem blkdirEntryExists_matches (h : bd.Matches env)
    (hcurrent : bd.currentSegmentFileNum = some tid.segmentFileNum)
    (heq : blkdirEntryExists env bd tid colno = .ok (bd', found)) :
    bd'.Matches env ∧ bd'.currentSegmentFileNum = some tid.segmentFileNum := by
  have hts : ∀ t ∈ env.rel.scanBackward tid.segmentFileNum colno tid.rowNum,
      t ∈ env.rel.tuplesOf tid.segmentFileNum colno := fun t ht => mem_tuplesOf_of_scan ht
  unfold blkdirEntryExists at heq
  dsimp only at heq
  split at heq
  · split at heq
    · obtain ⟨rfl, -⟩ := mk.inj (ok.inj heq)
      exact ⟨h.find tid.rowNum, hcurrent⟩
    · exact entryExistsIn_matches _ (h.find tid.rowNum) hcurrent hts heq
  · exact entryExistsIn_matches _ h hcurrent hts heq

end Lookup

end PolemoDB.AppendOnly
