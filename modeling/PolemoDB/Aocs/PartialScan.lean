import Mathlib.Data.List.TakeWhile
import PolemoDB.AppendOnly.BlockDirectorySearch
import PolemoDB.Aocs.BlkdirScan

/-!
# Positioning a partial scan (`aoco_index_build_range_scan`)

A scan that starts at a given block asks the block directory of each column for an entry near the
first row of the block, and then positions every column to one common row, the largest first row of
these entries.  If the first row of the block is in a hole, a column answers with the entry behind
the hole, except if its minipage ends there: then it answers with the entry before the hole.

* `Near` — what the entry of one column can be, in terms of the visible rows.
* `partialScan_contained_iff` — when the common row is a row of all the blocks that the columns are
  positioned to.

Source: `aocsam_handler.c` (`aoco_index_build_range_scan`), `appendonlyblockdirectory.c`
(`AppendOnlyBlockDirectory_GetEntryForPartialScan`), `aocsam.c` (`aocs_positionscan`,
`open_scan_seg`).
-/

namespace PolemoDB.Aocs

open PolemoDB.AppendOnly List Nat

/-! ## The code -/

/-- The entry of the minipage to start from, in `AppendOnlyBlockDirectory_GetEntryForPartialScan`.
-/
def partialScanEntryNo (entries : List MinipageEntry) (rangeFirstRowNum : Nat) : Nat :=
  let entryNo := (entries.takeWhile (·.firstRowNum ≤ rangeFirstRowNum)).length
  if entryNo < entries.length then
    if (entries.getD (entryNo - 1) default).covers rangeFirstRowNum then entryNo - 1 else entryNo
  else entryNo - 1

/-- The segment file and the first row of a block. -/
def startOf (blkno : BitVec 32) : AOTupleId :=
  ⟨(aoSegmentGetSegno blkno).toNat, aoHeapBlockGetStartRowNum blkno⟩

/-- `AppendOnlyBlockDirectory_GetEntryForPartialScan`. -/
def getEntryForPartialScan (env : SearchEnv) (blkno : BitVec 32) (columnGroupNo : Nat) :
    Except SearchError (Option (DirectoryEntry × AOCSFileSegInfo)) :=
  match env.findFileSegInfo (startOf blkno).segmentFileNum with
  | none => .error .noFileSegInfo
  | some fsInfo => match env.tupleFor (startOf blkno) columnGroupNo with
    | none => .ok none
    | some t => match extractMinipage t with
      | .error e => .error (.blkdir e)
      | .ok info =>
        if info.entries.length = 0 then .ok none
        else .ok (some ((setDirectoryEntryRange env.entryMinRange (fsInfo.eof columnGroupNo)
          info.entries (partialScanEntryNo info.entries (startOf blkno).rowNum)).1, fsInfo))

/-- What the first phase ends with. -/
inductive Positioned where
  /-- the start block is not in the segment file, and the scan ends -/
  | bail
  /-- `elog(ERROR, "inconsistent segment state ...")` -/
  | inconsistent
  /-- no second phase -/
  | fromStart
  /-- `dirEntries`, zero for a column whose value of the row is missing -/
  | entries (dirEntries : List DirectoryEntry)
deriving DecidableEq, Repr

open Positioned

/-- `aocs_positionscan`: the first column opens the segment file, which is not done if it has no
rows or awaits its drop. The logical end of a file that is not open is zero. -/
def positionscan (env : SearchEnv) (tupcount : Nat → Nat) (fsInfo : AOCSFileSegInfo)
    (colIdx colno : Nat) (opened : Bool) (e : DirectoryEntry) : Except Positioned Bool :=
  if colIdx = 0 then
    if tupcount fsInfo.segno = 0 ∨ fsInfo.awaitingDrop then .error .bail
    else if fsInfo.eof (env.projAtts.headD 0) = 0 then .error .inconsistent
    else if (fsInfo.eof colno : Int) < e.fileOffset then .error .bail
    else .ok true
  else if ((if opened then fsInfo.eof colno else 0 : Nat) : Int) < e.fileOffset then .error .bail
  else .ok opened

/-- One more entry in front. -/
def Positioned.push (e : DirectoryEntry) : Positioned → Positioned
  | .entries es => .entries (e :: es)
  | p => p

/-- The loop of the first phase, from the column with index `colIdx` on. -/
def firstPhase (env : SearchEnv) (tupcount : Nat → Nat) (blkno : BitVec 32) :
    List Nat → Nat → Bool → Except SearchError Positioned
  | [], _, _ => .ok (.entries [])
  | colno :: cols, colIdx, opened =>
    if env.valIsMissing (startOf blkno) colno then
      (firstPhase env tupcount blkno cols (colIdx + 1) opened).map (·.push default)
    else match getEntryForPartialScan env blkno colno with
      | .error e => .error e
      | .ok none => .ok .fromStart
      | .ok (some (e, fsInfo)) => match positionscan env tupcount fsInfo colIdx colno opened e with
        | .error p => .ok p
        | .ok opened => (firstPhase env tupcount blkno cols (colIdx + 1) opened).map (·.push e)

def commonStartRownum (dirEntries : List DirectoryEntry) : Int :=
  (dirEntries.map (·.firstRowNum)).foldl max 0

/-- The assertion of the second phase, about the columns that are positioned. -/
def InEveryRange (dirEntries : List DirectoryEntry) : Prop := ∀ e ∈ dirEntries, e.firstRowNum ≠ 0 →
    e.firstRowNum ≤ commonStartRownum dirEntries ∧ commonStartRownum dirEntries ≤ e.lastRowNum

/-! ## The rows -/

/-- The minipages of the column list these rows. -/
def Lists (rel : BlkdirRel) (segno colno : Nat) (rows : Set Nat) : Prop :=
  ∃ es, rel.Holds segno colno es ∧ ∀ r, r ∈ rows ↔ r ∈ rowsOf es

/-- The block that the entry of the column stands for has the row. -/
def HasRow (rel : BlkdirRel) (segno colno : Nat) (e : DirectoryEntry) (row : Int) : Prop :=
  ∃ m ∈ (rel.inOrder segno colno).flatMap (·.minipage), (m.firstRowNum : Int) = e.firstRowNum ∧
    (m.firstRowNum : Int) ≤ row ∧ row < m.firstRowNum + m.rowCount

/-- All columns that are positioned have the common row in their block, and so resume there. -/
def ResumeTogether (rel : BlkdirRel) (segno : Nat) (cols : List Nat)
    (dirEntries : List DirectoryEntry) : Prop :=
  ∀ x ∈ cols.zip dirEntries, x.2.firstRowNum ≠ 0 →
    HasRow rel segno x.1 x.2 (commonStartRownum dirEntries)

/-- The minipage found for the column has no entry behind the row. -/
def endsBefore (env : SearchEnv) (tid : AOTupleId) (colno : Nat) : Bool :=
  match env.tupleFor tid colno with
  | some t => t.minipage.all (·.firstRowNum ≤ tid.rowNum)
  | none => true

/-- The minipages of all columns, or of none, go on behind the row. -/
def SameSide (env : SearchEnv) (tid : AOTupleId) : Prop :=
  ∀ colno ∈ env.projAtts, ∀ colno' ∈ env.projAtts, env.valIsMissing tid colno = false →
    env.valIsMissing tid colno' = false → endsBefore env tid colno = endsBefore env tid colno'

/-- The entry near the row: it has the row, or else it is behind or before the hole that the row is
in. -/
inductive Near (rows : Set Nat) (row : Nat) (ends : Bool) (m : MinipageEntry) : Prop where
  | inside (mem : row ∈ rows) (h : m.covers row = true)
  | after (hole : row ∉ rows) (h : ends = false)
    (first : IsLeast {r | r ∈ rows ∧ row < r} m.firstRowNum)
  | before (hole : row ∉ rows) (h : ends = true)
    (last : IsGreatest {r | r ∈ rows ∧ r < row} (m.firstRowNum + m.rowCount - 1))

/-! ## The entry of a minipage -/

section Minipage

variable {row : Nat} {pre post : List MinipageEntry} {m : MinipageEntry}

section

variable (hpre : ∀ e ∈ pre ++ [m], e.firstRowNum ≤ row) (hpost : ∀ e ∈ post, row < e.firstRowNum)
include hpre hpost

theorem length_takeWhile_split :
    ((pre ++ m :: post).takeWhile (·.firstRowNum ≤ row)).length = pre.length + 1 := by
  have hsplit : pre ++ m :: post = (pre ++ [m]) ++ post := by rw [append_assoc, singleton_append]
  have hnone : post.takeWhile (·.firstRowNum ≤ row) = [] := by
    cases post with
    | nil => rfl
    | cons e post =>
      have := hpost e mem_cons_self
      exact takeWhile_cons_of_neg (by simpa using this)
  rw [hsplit, takeWhile_append_of_pos (fun e he => decide_eq_true (hpre e he)), hnone, append_nil,
    length_append, length_singleton]

/-- The last entry that begins at or before the row, or the next one if there is a next one and the
row is in a hole. -/
theorem partialScanEntryNo_split : partialScanEntryNo (pre ++ m :: post) row =
      if post = [] ∨ m.covers row = true then pre.length else pre.length + 1 := by
  unfold partialScanEntryNo
  dsimp only
  rw [length_takeWhile_split hpre hpost, Nat.add_sub_cancel,
    getD_append_right _ _ _ _ (Nat.le_refl _), Nat.sub_self, getD_cons_zero]
  cases post with
  | nil | cons e post => simp

end

theorem setDirectoryEntryRange_split (entryMinRange eof : Nat) :
    (setDirectoryEntryRange entryMinRange eof (pre ++ m :: post) pre.length).1.firstRowNum =
      m.firstRowNum ∧ (setDirectoryEntryRange entryMinRange eof
        (pre ++ m :: post) pre.length).1.lastRowNum = if post = [] ∧
        entryMinRange ≠ 0 then 2 ^ 63 - 1 else (m.firstRowNum : Int) + m.rowCount - 1 := by
  have hget : (pre ++ m :: post).getD pre.length default = m := by
    rw [getD_append_right _ _ _ _ (Nat.le_refl _), Nat.sub_self, getD_cons_zero]
  have hnext : (if pre.length + 1 <
      (pre ++ m :: post).length then (pre ++ m :: post)[pre.length + 1]? else none) =
      post.head? := by
    cases post with
    | nil | cons e post => simp
  unfold setDirectoryEntryRange
  rw [hget, hnext]
  by_cases hoff : eof < m.fileOffset
  · rw [if_pos hoff]
    exact ⟨rfl, by cases post <;> simp⟩
  · rw [if_neg hoff]
    exact ⟨rfl, by cases post <;> simp⟩

theorem setDirectoryEntryRange_last (entryMinRange eof : Nat) :
    (setDirectoryEntryRange entryMinRange eof (pre ++ m :: post) pre.length).1.lastRowNum =
        (m.firstRowNum : Int) + m.rowCount - 1 ∨
      (entryMinRange ≠ 0 ∧
        (setDirectoryEntryRange entryMinRange eof (pre ++ m :: post) pre.length).1.lastRowNum =
        2 ^ 63 - 1) := by
  rw [(setDirectoryEntryRange_split entryMinRange eof).2]
  split
  case isTrue h => exact .inr ⟨h.2, rfl⟩
  case isFalse => exact .inl rfl

end Minipage

/-! ## The entry of a column -/

/-- The entry that a column answers with, for its minipage entry `m`. -/
structure StartEntry (rows : Set Nat) (row entryMinRange : Nat) (ends : Bool) (m : MinipageEntry)
    (e : DirectoryEntry) : Prop where
  near : Near rows row ends m
  isRow : m.firstRowNum ∈ rows
  nonempty : m.rowCount ≠ 0
  first : e.firstRowNum = m.firstRowNum
  last : e.lastRowNum = (m.firstRowNum : Int) + m.rowCount - 1 ∨
    (entryMinRange ≠ 0 ∧ e.lastRowNum = 2 ^ 63 - 1)
  open_ : entryMinRange ≠ 0 → row ∉ rows → ends = true → e.lastRowNum = 2 ^ 63 - 1

/-- The entry `e` of the column for its minipage entry `m`. -/
abbrev Starts (env : SearchEnv) (tid : AOTupleId) (rows : Set Nat) (colno : Nat) (m : MinipageEntry)
    (e : DirectoryEntry) : Prop :=
    StartEntry rows tid.rowNum env.entryMinRange (endsBefore env tid colno) m e

section Rows

variable {rows : Set Nat} {row : Nat} {before behind : List MinipageEntry} {m : MinipageEntry}
  (horder : InOrder (before ++ m :: behind)) (hrows : ∀ r, r ∈ rows ↔
  r ∈ rowsOf (before ++ m :: behind)) (hm : m.firstRowNum ≤ row)
  (hbehind : ∀ e ∈ behind, row < e.firstRowNum)

include hrows

theorem mem_rows_of_covers {e : MinipageEntry} (he : e ∈ before ++ m :: behind) {r : Nat}
    (h : e.covers r = true) : r ∈ rows :=
  (hrows r).mpr (mem_rowsOf.mpr (any_eq_true.mpr ⟨e, he, h⟩))

include horder

theorem row_cases {r : Nat} (hr : r ∈ rows) : r < m.firstRowNum + m.rowCount ∨
    ∃ e ∈ behind, e.covers r = true := by
  obtain ⟨e, he, hcovers⟩ := any_eq_true.mp (mem_rowsOf.mp ((hrows r).mp hr))
  have hin := covers_iff.mp hcovers
  rcases mem_append.mp he with he | he
  · have := (pairwise_append.mp horder.disjoint).2.2 e he m mem_cons_self
    unfold MinipageEntry.Before at this
    exact .inl (by omega)
  · rcases mem_cons.mp he with rfl | he
    · exact .inl hin.2
    · exact .inr ⟨e, he, hcovers⟩

include hm hbehind

theorem mem_rows_iff_covers : row ∈ rows ↔ m.covers row = true := by
  refine ⟨fun hrow => ?_, mem_rows_of_covers hrows (by simp)⟩
  rcases row_cases horder hrows hrow with hlt | ⟨e, he, hcovers⟩
  · exact covers_iff.mpr ⟨hm, hlt⟩
  · have := hbehind e he
    have := (covers_iff.mp hcovers).1
    omega

theorem not_inside (hole : row ∉ rows) :
    ¬ (m.firstRowNum ≤ row ∧ row < m.firstRowNum + m.rowCount) := fun h =>
  hole ((mem_rows_iff_covers horder hrows hm hbehind).mpr (covers_iff.mpr h))

theorem isGreatest_before_hole (hole : row ∉ rows) :
    IsGreatest {r | r ∈ rows ∧ r < row} (m.firstRowNum + m.rowCount - 1) := by
  have hnot := not_inside horder hrows hm hbehind hole
  have hcount := horder.rows m (by simp)
  refine ⟨⟨mem_rows_of_covers (e := m) hrows (by simp) (covers_iff.mpr (show _ ∧ _ by omega)),
    by omega⟩, ?_⟩
  rintro r ⟨hr, hlt⟩
  rcases row_cases horder hrows hr with hle | ⟨e, he, hcovers⟩
  · omega
  · have := hbehind e he
    have := (covers_iff.mp hcovers).1
    omega

theorem isLeast_behind_hole {n : MinipageEntry} {rest : List MinipageEntry}
    (hn : behind = n :: rest) (hole : row ∉ rows) :
    IsLeast {r | r ∈ rows ∧ row < r} n.firstRowNum := by
  have hnot := not_inside horder hrows hm hbehind hole
  subst hn
  have hcount := horder.rows n (by simp)
  refine ⟨⟨mem_rows_of_covers (e := n) hrows (by simp) (covers_iff.mpr (show _ ∧ _ by omega)),
    hbehind n mem_cons_self⟩, ?_⟩
  rintro r ⟨hr, hlt⟩
  rcases row_cases horder hrows hr with hle | ⟨e, he, hcovers⟩
  · omega
  have hfirst := (covers_iff.mp hcovers).1
  rcases mem_cons.mp he with rfl | he
  · exact hfirst
  have := (pairwise_cons.mp (pairwise_cons.mp (pairwise_append.mp horder.disjoint).2.1).2).1 e
    he
  unfold MinipageEntry.Before at this
  omega

end Rows

section Column

variable {env : SearchEnv} {tid : AOTupleId} {colno : Nat} {rows : Set Nat}
  {es : List MinipageEntry}

/-- The entries of a column around the row: those of the minipage that is found, and those before
and behind it. -/
theorem entries_around (h : env.rel.Holds tid.segmentFileNum colno es) {t : BlkdirTuple}
    (ht : env.tupleFor tid colno = some t) :
    ∃ front pre m post back, t.minipage = pre ++ m :: post ∧ es = front ++
      (pre ++ m :: post) ++ back ∧ (∀ e ∈ pre ++ [m], e.firstRowNum ≤ tid.rowNum) ∧ ∀ e ∈ post ++
      back, tid.rowNum < e.firstRowNum := by
  -- the tuple is the last one of the index with a key up to the row
  unfold SearchEnv.tupleFor BlkdirRel.scanBackward at ht
  rw [head?_reverse, getLast?_eq_some_iff] at ht
  obtain ⟨ys, hys⟩ := ht
  obtain ⟨ts, ts', hinOrder, -, hts'⟩ := filter_eq_append_iff.mp hys
  obtain ⟨us, vs, hsplit, -, hkey, hvs⟩ := filter_eq_cons_iff.mp hts'
  have hmem : ∀ {t' : BlkdirTuple}, t' ∈ t :: vs →
      t' ∈ env.rel.inOrder tid.segmentFileNum colno := by
    intro t' ht'
    rw [hinOrder, hsplit]
    exact mem_append_right _ (mem_append_right _ ht')
  have hpage : ∀ {t' : BlkdirTuple}, t' ∈ t :: vs → InOrder t'.minipage := fun ht' =>
    h.minipage_inOrder (mem_inOrder.mp (hmem ht'))
  -- its minipage is not empty, and begins at or before the row
  obtain ⟨a, fs, hhead⟩ := exists_cons_of_ne_nil (h.keyed t (hmem mem_cons_self)).nonempty
  have ha : a.firstRowNum ≤ tid.rowNum := by
    have := (h.keyed t (hmem mem_cons_self)).key
    rw [hhead, headD_cons] at this
    rw [← this]
    exact of_decide_eq_true hkey
  have hne : t.minipage.takeWhile (·.firstRowNum ≤ tid.rowNum) ≠ [] := by
    rw [hhead, takeWhile_cons_of_pos (by simpa using ha)]
    exact cons_ne_nil _ _
  obtain ⟨pre, m, hpre⟩ := (eq_nil_or_concat _).resolve_left hne
  have hpost : ∀ e ∈ t.minipage.dropWhile (·.firstRowNum ≤ tid.rowNum), tid.rowNum <
      e.firstRowNum := by
    have horder : InOrder (t.minipage.dropWhile (·.firstRowNum ≤ tid.rowNum)) :=
      (hpage mem_cons_self).sublist (dropWhile_sublist _)
    cases hdrop : t.minipage.dropWhile (·.firstRowNum ≤ tid.rowNum) with
    | nil => exact nofun
    | cons b rest =>
      have hb : tid.rowNum < b.firstRowNum := by
        have := head?_dropWhile_not (fun e : MinipageEntry => decide (e.firstRowNum ≤ tid.rowNum))
          t.minipage
        rw [hdrop] at this
        simpa using this
      intro e he
      rw [hdrop] at horder
      rcases mem_cons.mp he with rfl | he
      · exact hb
      · exact lt_trans hb ((show InOrder ([b] ++ rest) from horder).lt mem_cons_self he)
  have hminipage : t.minipage = pre ++ m :: t.minipage.dropWhile (·.firstRowNum ≤ tid.rowNum) := by
    conv_lhs => rw [← takeWhile_append_dropWhile
      (p := fun e : MinipageEntry => decide (e.firstRowNum ≤ tid.rowNum)) (l := t.minipage)]
    rw [hpre, concat_eq_append, append_assoc, singleton_append]
  refine ⟨(ts ++ us).flatMap (·.minipage), pre, m, _, vs.flatMap (·.minipage), hminipage, ?_, ?_,
    ?_⟩
  · rw [← hminipage, ← h.entries, hinOrder, hsplit, flatMap_append, flatMap_append, flatMap_append,
      flatMap_cons, append_assoc, append_assoc]
  · intro e he
    have hmem : e ∈ t.minipage.takeWhile (·.firstRowNum ≤ tid.rowNum) := by
      rw [hpre, concat_eq_append]
      exact he
    simpa using mem_takeWhile_imp hmem
  · intro e he
    rcases mem_append.mp he with he | he
    · exact hpost e he
    -- a minipage behind it begins behind the row
    obtain ⟨t', ht', he⟩ := mem_flatMap.mp he
    have hlt : tid.rowNum < t'.firstRowNum := by
      have := filter_eq_nil_iff.mp hvs t' ht'
      simpa using this
    exact lt_of_lt_of_le hlt
      ((hpage (mem_cons_of_mem _ ht')).key_le (h.keyed t' (hmem (mem_cons_of_mem _ ht'))) he)

theorem answer_of_tuple (h : env.rel.Holds tid.segmentFileNum colno es) (hrows : ∀ r, r ∈ rows ↔
    r ∈ rowsOf es) {t : BlkdirTuple} (ht : env.tupleFor tid colno = some t) (eof : Nat) :
    ∃ m ∈ es, Starts env tid rows colno m
      (setDirectoryEntryRange env.entryMinRange eof t.minipage
      (partialScanEntryNo t.minipage tid.rowNum)).1 := by
  obtain ⟨front, pre, m, post, back, hpage, hes, hpre, hbehind⟩ := entries_around h ht
  have hes' : es = (front ++ pre) ++ m :: (post ++ back) := by
    rw [hes]
    simp only [append_assoc, cons_append]
  have horder := h.inOrder
  rw [hes'] at horder hrows
  have hm := hpre m (by simp)
  have hpost : ∀ e ∈ post, tid.rowNum < e.firstRowNum := fun e he =>
    hbehind e (mem_append_left _ he)
  have hinside := mem_rows_iff_covers horder hrows hm hbehind
  have hentry : ∀ {pre post : List MinipageEntry} {n : MinipageEntry}, n ∈ es →
      Near rows tid.rowNum (endsBefore env tid colno) n →
      (env.entryMinRange ≠ 0 → tid.rowNum ∉ rows → endsBefore env tid colno = true → post = []) →
      ∃ m ∈ es, Starts env tid rows colno m
      (setDirectoryEntryRange env.entryMinRange eof (pre ++ n :: post) pre.length).1 := by
    intro pre post n hn hnear hopen
    rw [hes'] at hn
    have hcount := horder.rows n hn
    refine ⟨n, hes' ▸ hn, hnear, mem_rows_of_covers hrows hn (covers_iff.mpr ⟨le_refl _, by omega⟩),
      hcount, (setDirectoryEntryRange_split _ eof).1, setDirectoryEntryRange_last _ eof,
      fun hmin hole hends => ?_⟩
    rw [(setDirectoryEntryRange_split _ eof).2, if_pos ⟨hopen hmin hole hends, hmin⟩]
  have hends : endsBefore env tid colno = true ↔ post = [] := by
    unfold endsBefore
    rw [ht]
    dsimp only
    rw [hpage, all_eq_true]
    constructor
    · intro hall
      rw [eq_nil_iff_forall_not_mem]
      intro e he
      have h1 := hall e (by simp [he])
      have h2 := hpost e he
      simp at h1
      omega
    · rintro rfl e he
      simpa using hpre e he
  rw [hpage, partialScanEntryNo_split hpre hpost]
  by_cases hcovers : m.covers tid.rowNum = true
  · -- the row is in the entry
    rw [if_pos (.inr hcovers)]
    exact hentry (by simp [hes']) (.inside (hinside.mpr hcovers) hcovers) fun _ hole =>
      absurd (hinside.mpr hcovers) hole
  have hole : tid.rowNum ∉ rows := fun hrow => hcovers (hinside.mp hrow)
  cases post with
  | nil =>
    exact hentry (by simp [hes'])
      (.before hole (hends.mpr rfl) (isGreatest_before_hole horder hrows hm hbehind hole))
      fun _ _ _ => rfl
  | cons n post =>
    rw [if_neg (by simp [hcovers])]
    have hnot : endsBefore env tid colno = false := by
      rw [Bool.eq_false_iff, ne_eq, hends]
      exact cons_ne_nil _ _
    have hsplit : pre ++ m :: n :: post = (pre ++ [m]) ++
        n :: post := by rw [append_assoc, singleton_append]
    have hlen : pre.length + 1 = (pre ++ [m]).length := by rw [length_append, length_singleton]
    rw [hsplit, hlen]
    exact hentry (by simp [hes'])
      (.after hole hnot (isLeast_behind_hole horder hrows hm hbehind cons_append hole))
      fun _ _ hends' => absurd (hnot.symm.trans hends') (by simp)

/-- A column has no minipage up to the row, or answers with an entry near it, if there is the
segment file. -/
theorem getEntryForPartialScan_spec {blkno : BitVec 32}
    (h : env.rel.Holds (startOf blkno).segmentFileNum colno es)
    (hrows : ∀ r, r ∈ rows ↔ r ∈ rowsOf es) {fsInfo : AOCSFileSegInfo}
    (hfs : env.findFileSegInfo (startOf blkno).segmentFileNum = some fsInfo) :
    getEntryForPartialScan env blkno colno = .ok none ∨
      ∃ e, getEntryForPartialScan env blkno colno = .ok (some (e, fsInfo)) ∧
        ∃ m ∈ es, Starts env (startOf blkno) rows colno m e := by
  unfold getEntryForPartialScan
  rw [hfs]
  cases ht : env.tupleFor (startOf blkno) colno with
  | none => exact .inl rfl
  | some t =>
    have hmem : t ∈ env.rel.inOrder (startOf blkno).segmentFileNum colno :=
      mem_inOrder.mpr (mem_tuplesOf_of_scan (mem_of_mem_head? ht))
    have hextract : extractMinipage t = .ok ⟨t.minipage, some t.tid, none⟩ :=
      if_pos (h.bound t hmem)
    dsimp only
    rw [hextract]
    dsimp only
    rw [if_neg (fun hlen => (h.keyed t hmem).nonempty (length_eq_zero_iff.mp hlen))]
    exact .inr ⟨_, rfl, answer_of_tuple h hrows ht _⟩

end Column

/-! ## The first phase -/

/-- The entry of a column after the first phase: zero if the value of the row is missing. -/
def Answered (env : SearchEnv) (tid : AOTupleId) (rows : Set Nat) (colno : Nat)
    (e : DirectoryEntry) : Prop :=
  if env.valIsMissing tid colno then e = default
  else ∃ m ∈ (env.rel.inOrder tid.segmentFileNum colno).flatMap (·.minipage),
    StartEntry rows tid.rowNum env.entryMinRange (endsBefore env tid colno) m e

variable {dirEntries : List DirectoryEntry}

theorem Positioned.push_eq_entries {p : Positioned} {e : DirectoryEntry}
    (h : p.push e = .entries dirEntries) : ∃ es, p = .entries es ∧ dirEntries = e :: es := by
  cases p with
  | entries es =>
    rw [push, entries.injEq] at h
    exact ⟨es, rfl, h.symm⟩
  | bail | inconsistent | fromStart => exact absurd h (by simp [push])

section Phases

variable {env : SearchEnv} {tupcount : Nat → Nat} {blkno : BitVec 32} {rows : Set Nat}

theorem positionscan_error {fsInfo : AOCSFileSegInfo} {colIdx colno : Nat} {opened : Bool}
    {e : DirectoryEntry} {p : Positioned}
    (h : positionscan env tupcount fsInfo colIdx colno opened e = .error p) :
    p = .bail ∨ p = .inconsistent := by
  unfold positionscan at h
  split_ifs at h
  all_goals first | exact .inl (Except.error.inj h).symm | exact .inr (Except.error.inj h).symm

/-- The first phase over some columns ends if there is the segment file, and if it goes through all
of them, then each has its entry. -/
def PhaseOk (env : SearchEnv) (blkno : BitVec 32) (rows : Set Nat) (cols : List Nat)
    (res : Except SearchError Positioned) : Prop :=
  (env.findFileSegInfo (startOf blkno).segmentFileNum = none ∧ res = .error .noFileSegInfo) ∨
    ∃ p, res = .ok p ∧ ∀ dirEntries, p = .entries dirEntries →
      List.Forall₂ (Answered env (startOf blkno) rows) cols dirEntries

/-- The entry of a column is put in front of those of the others. -/
theorem PhaseOk.push {cols : List Nat} {res : Except SearchError Positioned}
    (h : PhaseOk env blkno rows cols res) {colno : Nat} {e : DirectoryEntry}
    (hanswered : Answered env (startOf blkno) rows colno e) :
    PhaseOk env blkno rows (colno :: cols) (res.map (·.push e)) := by
  rcases h with ⟨hnone, rfl⟩ | ⟨p, rfl, hspec⟩
  · exact .inl ⟨hnone, rfl⟩
  · refine .inr ⟨p.push e, rfl, fun dirEntries h => ?_⟩
    obtain ⟨es, hes, rfl⟩ := push_eq_entries h
    exact .cons hanswered (hspec es hes)

theorem firstPhase_spec (cols : List Nat)
    (hcols : ∀ colno ∈ cols, env.valIsMissing (startOf blkno) colno = false →
      Lists env.rel (startOf blkno).segmentFileNum colno rows) (colIdx : Nat) (opened : Bool) :
    PhaseOk env blkno rows cols (firstPhase env tupcount blkno cols colIdx opened) := by
  induction cols generalizing colIdx opened with
  | nil =>
    refine .inr ⟨_, rfl, fun dirEntries h => ?_⟩
    rw [entries.injEq] at h
    rw [← h]
    exact .nil
  | cons colno cols ih =>
    have hnext := ih (fun c hc => hcols c (mem_cons_of_mem _ hc)) (colIdx + 1)
    unfold firstPhase
    by_cases hmissing : env.valIsMissing (startOf blkno) colno = true
    · rw [if_pos hmissing]
      exact (hnext opened).push (by rw [Answered, if_pos hmissing])
    rw [if_neg hmissing]
    obtain ⟨es, hholds, hrows⟩ := hcols colno mem_cons_self (Bool.eq_false_iff.mpr hmissing)
    cases hfs : env.findFileSegInfo (startOf blkno).segmentFileNum with
    | none =>
      refine .inl ⟨hfs, ?_⟩
      unfold getEntryForPartialScan
      rw [hfs]
    | some fsInfo =>
      rcases getEntryForPartialScan_spec hholds hrows hfs with hget | ⟨e, hget, hentry⟩
      · rw [hget]
        exact .inr ⟨_, rfl, fun _ h => absurd h (by simp)⟩
      rw [hget]
      dsimp only
      cases hpos : positionscan env tupcount fsInfo colIdx colno opened e with
      | error p =>
        refine .inr ⟨p, rfl, fun dirEntries h => ?_⟩
        subst h
        rcases positionscan_error hpos with h | h <;> cases h
      | ok opened =>
        refine (hnext opened).push ?_
        rw [Answered, if_neg hmissing, hholds.entries]
        exact hentry

end Phases

/-! ## The second phase -/

theorem foldl_max_le_iff {l : List Int} {a b : Int} : l.foldl max a ≤ b ↔ a ≤ b ∧
    ∀ x ∈ l, x ≤ b := by
  induction l generalizing a with
  | nil => simp
  | cons x l ih => rw [foldl_cons, ih, max_le_iff, forall_mem_cons, and_assoc]

theorem commonStartRownum_le_iff {b : Int} :
    commonStartRownum dirEntries ≤ b ↔ 0 ≤ b ∧ ∀ e ∈ dirEntries, e.firstRowNum ≤ b := by
  rw [commonStartRownum, foldl_max_le_iff, forall_mem_map]

theorem le_commonStartRownum {e : DirectoryEntry} (he : e ∈ dirEntries) :
    e.firstRowNum ≤ commonStartRownum dirEntries :=
  (commonStartRownum_le_iff.mp (Int.le_refl _)).2 e he

section Second

variable {env : SearchEnv} {tid : AOTupleId} {rows : Set Nat} {dirEntries : List DirectoryEntry}

theorem StartEntry.first_ne {row entryMinRange : Nat} {ends : Bool} {m : MinipageEntry}
    {e : DirectoryEntry} (h : StartEntry rows row entryMinRange ends m e)
    (hpos : 1 ≤ m.firstRowNum) : e.firstRowNum ≠ 0 := by
  rw [h.first]
  omega

theorem Answered.answer {colno : Nat} {e : DirectoryEntry} (h : Answered env tid rows colno e)
    (he : e.firstRowNum ≠ 0) : env.valIsMissing tid colno = false ∧
      ∃ m ∈ (env.rel.inOrder tid.segmentFileNum colno).flatMap (·.minipage),
      Starts env tid rows colno m e := by
  unfold Answered at h
  split at h
  case isTrue => exact absurd (by rw [h]; rfl) he
  case isFalse hmissing => exact ⟨Bool.eq_false_iff.mpr hmissing, h⟩

variable (hanswered : ∀ x ∈ env.projAtts.zip dirEntries, Answered env tid rows x.1 x.2)
  (hlen : env.projAtts.length = dirEntries.length)

include hanswered hlen

theorem common_le {b : Int} (hb : 0 ≤ b)
    (h : ∀ colno ∈ env.projAtts, env.valIsMissing tid colno = false → ∀ m e,
    Starts env tid rows colno m e → (m.firstRowNum : Int) ≤ b) :
    commonStartRownum dirEntries ≤ b := by
  refine commonStartRownum_le_iff.mpr ⟨hb, fun e he => ?_⟩
  rw [← map_snd_zip (le_of_eq hlen.symm)] at he
  obtain ⟨x, hx, rfl⟩ := mem_map.mp he
  by_cases hzero : x.2.firstRowNum = 0
  · rw [hzero]
    exact hb
  · obtain ⟨hmissing, m, -, hentry⟩ := (hanswered x hx).answer hzero
    rw [hentry.first]
    exact h x.1 (of_mem_zip hx).1 hmissing m x.2 hentry

theorem common_le_behind (hole : tid.rowNum ∉ rows) {n : Nat}
    (hleast : IsLeast {r | r ∈ rows ∧ tid.rowNum < r} n) : commonStartRownum dirEntries ≤ n := by
  refine common_le hanswered hlen (by omega) fun colno _ _ m e h => ?_
  cases h.near with
  | inside hrow => exact absurd hrow hole
  | after _ _ hleast' => exact Int.ofNat_le.mpr (le_of_eq (hleast'.unique hleast))
  | before _ _ hgreatest =>
    have hbefore := hgreatest.1.2
    have hbehind := hleast.1.2
    omega

/-- If the row is visible, or the columns answer from the same side of the hole, then the common row
is a row of the entry of every column. -/
theorem common_covered (hsame : tid.rowNum ∈ rows ∨ SameSide env tid) {x : Nat × DirectoryEntry}
    (hx : x ∈ env.projAtts.zip dirEntries) (hmissing : env.valIsMissing tid x.1 = false)
    {m : MinipageEntry} (hentry : Starts env tid rows x.1 m x.2) :
    (m.firstRowNum : Int) ≤ commonStartRownum dirEntries ∧
      commonStartRownum dirEntries < m.firstRowNum + m.rowCount := by
  have hcount := hentry.nonempty
  refine ⟨hentry.first ▸ le_commonStartRownum (of_mem_zip hx).2, ?_⟩
  cases hentry.near with
  | inside hrow hcovers =>
    have hle : commonStartRownum dirEntries ≤ tid.rowNum := by
      refine common_le hanswered hlen (by omega) fun colno _ _ m' e' h' => ?_
      cases h'.near with
      | inside _ hcovers' => exact Int.ofNat_le.mpr (covers_iff.mp hcovers').1
      | after hole | before hole => exact absurd hrow hole
    have := (covers_iff.mp hcovers).2
    omega
  | after hole _ hleast =>
    have hle := common_le_behind hanswered hlen hole hleast
    omega
  | before hole hend hgreatest =>
    have hle : commonStartRownum dirEntries ≤ (m.firstRowNum + m.rowCount - 1 : Nat) := by
      refine common_le hanswered hlen (by omega) fun colno hcolno hmissing' m' e' h' => ?_
      cases h'.near with
      | inside hrow => exact absurd hrow hole
      | after _ hend' =>
        -- the other columns answer from the side that this one answers from
        have hends := hsame.resolve_left hole colno hcolno x.1 (of_mem_zip hx).1 hmissing' hmissing
        rw [hends, hend] at hend'
        exact absurd hend' (by simp)
      | before _ _ hgreatest' =>
        have := hgreatest'.unique hgreatest
        have := h'.nonempty
        omega
    omega

theorem common_not_covered (hole : tid.rowNum ∉ rows) (hdiffer : ¬ SameSide env tid) :
    ∃ x ∈ env.projAtts.zip dirEntries, ∃ m ∈
      (env.rel.inOrder tid.segmentFileNum x.1).flatMap (·.minipage),
      Starts env tid rows x.1 m x.2 ∧
      (m.firstRowNum : Int) + m.rowCount ≤ commonStartRownum dirEntries := by
  have hentry : ∀ colno ∈ env.projAtts, env.valIsMissing tid colno = false →
      ∃ x ∈ env.projAtts.zip dirEntries, x.1 = colno ∧
      ∃ m ∈ (env.rel.inOrder tid.segmentFileNum x.1).flatMap (·.minipage),
      Starts env tid rows x.1 m x.2 := by
    intro colno hcolno hmissing
    rw [← map_fst_zip (le_of_eq hlen)] at hcolno
    obtain ⟨x, hx, rfl⟩ := mem_map.mp hcolno
    have h := hanswered x hx
    rw [Answered, if_neg (by rw [hmissing]; simp)] at h
    exact ⟨x, hx, rfl, h⟩
  -- one column answers from behind the hole, and one from before it
  have hboth : ∃ c ∈ env.projAtts, ∃ c' ∈ env.projAtts, env.valIsMissing tid c = false ∧
      env.valIsMissing tid c' = false ∧ endsBefore env tid c = false ∧
      endsBefore env tid c' = true := by
    unfold SameSide at hdiffer
    push Not at hdiffer
    obtain ⟨c, hc, c', hc', hmissing, hmissing', hne⟩ := hdiffer
    cases hend : endsBefore env tid c with
    | false =>
      rw [hend] at hne
      exact ⟨c, hc, c', hc', hmissing, hmissing', hend,
        Bool.eq_true_of_not_eq_false fun h => hne h.symm⟩
    | true =>
      rw [hend] at hne
      exact ⟨c', hc', c, hc, hmissing', hmissing, Bool.eq_false_of_not_eq_true fun h => hne h.symm,
        hend⟩
  obtain ⟨c, hc, c', hc', hmissing, hmissing', hend, hend'⟩ := hboth
  obtain ⟨x, hx, rfl, m, -, h⟩ := hentry c hc hmissing
  obtain ⟨x', hx', rfl, m', hm', h'⟩ := hentry c' hc' hmissing'
  refine ⟨x', hx', m', hm', h', ?_⟩
  have hcommon : (m.firstRowNum : Int) ≤ commonStartRownum dirEntries :=
    h.first ▸ le_commonStartRownum (of_mem_zip hx).2
  cases h.near with
  | inside hrow => exact absurd hrow hole
  | before _ hend'' => exact absurd (hend.symm.trans hend'') (by simp)
  | after _ _ hleast =>
    cases h'.near with
    | inside hrow => exact absurd hrow hole
    | after _ hend'' => exact absurd (hend'.symm.trans hend'') (by simp)
    | before _ _ hgreatest =>
      have := hleast.1.2
      have := hgreatest.1.2
      omega

end Second

theorem eq_of_firstRowNum {es : List MinipageEntry} (h : InOrder es) {m m' : MinipageEntry}
    (hm : m ∈ es) (hm' : m' ∈ es) (heq : m.firstRowNum = m'.firstRowNum) : m = m' := by
  have hcount := h.rows m hm
  have hcount' := h.rows m' hm'
  obtain ⟨i, hi, rfl⟩ := getElem_of_mem hm
  obtain ⟨j, hj, rfl⟩ := getElem_of_mem hm'
  have hbefore := pairwise_iff_getElem.mp h.disjoint
  unfold MinipageEntry.Before at hbefore
  rcases lt_trichotomy i j with hlt | rfl | hgt
  · have := hbefore i j hi hj hlt
    omega
  · rfl
  · have := hbefore j i hj hi hgt
    omega

section Result

variable {env : SearchEnv} {tid : AOTupleId} {rows : Set Nat} {dirEntries : List DirectoryEntry}
  (hanswered : ∀ x ∈ env.projAtts.zip dirEntries, Answered env tid rows x.1 x.2)
  (hlen : env.projAtts.length = dirEntries.length)

include hanswered hlen

theorem resumeTogether_iff (hcols : ∀ colno ∈ env.projAtts, env.valIsMissing tid colno = false →
      Lists env.rel tid.segmentFileNum colno rows) (hpos : ∀ r ∈ rows, 1 ≤ r) :
    ResumeTogether env.rel tid.segmentFileNum env.projAtts dirEntries ↔ tid.rowNum ∈ rows ∨
      SameSide env tid := by
  constructor
  · intro h
    by_contra hnot
    rw [not_or] at hnot
    obtain ⟨x, hx, m, hm, hentry, hlt⟩ := common_not_covered hanswered hlen hnot.1 hnot.2
    have hfirst := hentry.first_ne (hpos _ hentry.isRow)
    obtain ⟨es, hholds, -⟩ := hcols x.1 (of_mem_zip hx).1 ((hanswered x hx).answer hfirst).1
    obtain ⟨m', hm', hfirst', -, hlt'⟩ := h x hx hfirst
    rw [hholds.entries] at hm hm'
    have heq : m' = m := eq_of_firstRowNum hholds.inOrder hm' hm
      (Int.ofNat.inj (hfirst'.trans hentry.first))
    rw [heq] at hlt'
    omega
  · intro hsame x hx hfirst
    obtain ⟨hmissing, m, hm, hentry⟩ := (hanswered x hx).answer hfirst
    exact ⟨m, hm, hentry.first.symm, common_covered hanswered hlen hsame hx hmissing hentry⟩

theorem inEveryRange_iff (hrange : ∀ r ∈ rows, 1 ≤ r ∧ r ≤ AOTUPLEID_MAXROWNUM) :
    InEveryRange dirEntries ↔ env.entryMinRange ≠ 0 ∨ tid.rowNum ∈ rows ∨ SameSide env tid := by
  have hmax : commonStartRownum dirEntries ≤ 2 ^ 63 - 1 := by
    refine common_le hanswered hlen (by decide) fun colno _ _ m e h => ?_
    have := (hrange _ h.isRow).2
    unfold AOTUPLEID_MAXROWNUM at this
    omega
  constructor
  · intro h
    by_contra hnot
    rw [not_or, not_or, not_not] at hnot
    obtain ⟨x, hx, m, -, hentry, hlt⟩ := common_not_covered hanswered hlen hnot.2.1 hnot.2.2
    have hfirst := hentry.first_ne (hrange _ hentry.isRow).1
    have hlast := (h x.2 (of_mem_zip hx).2 hfirst).2
    rw [hentry.last.resolve_right fun hmin => hmin.1 hnot.1] at hlast
    omega
  · intro hcase e he hfirst
    refine ⟨le_commonStartRownum he, ?_⟩
    rw [← map_snd_zip (le_of_eq hlen.symm)] at he
    obtain ⟨x, hx, rfl⟩ := mem_map.mp he
    obtain ⟨hmissing, m, -, hentry⟩ := (hanswered x hx).answer hfirst
    rcases hentry.last with hlast | ⟨-, hlast⟩
    · rw [hlast]
      by_cases hsame : tid.rowNum ∈ rows ∨ SameSide env tid
      · have := (common_covered hanswered hlen hsame hx hmissing hentry).2
        omega
      -- only an entry behind the hole has an end, and it begins with the largest of the first
      -- rows
      rw [not_or] at hsame
      have hcount := hentry.nonempty
      cases hentry.near with
      | inside hrow => exact absurd hrow hsame.1
      | before hole hend =>
        rw [← hlast, hentry.open_ (hcase.resolve_right (not_or.mpr hsame)) hole hend]
        exact hmax
      | after hole _ hleast =>
        have hle := common_le_behind hanswered hlen hole hleast
        omega
    · rw [hlast]
      exact hmax

end Result

/-- **Positioning a partial scan**, for every start block.  The first phase ends if there is the
segment file.  If it goes through all columns, then all columns resume at the common row if and only
if the first row of the block is visible, or the minipages of all columns, or of none, go on behind
the hole that it is in.  The assertion about the ranges holds then, and also if the range of the
last entry of a minipage has no end. -/
theorem partialScan_contained_iff (env : SearchEnv) (tupcount : Nat → Nat) (blkno : BitVec 32)
    (rows : Set Nat) (hrange : ∀ r ∈ rows, 1 ≤ r ∧ r ≤ AOTUPLEID_MAXROWNUM)
    (hcols : ∀ colno ∈ env.projAtts, env.valIsMissing (startOf blkno) colno = false →
      Lists env.rel (startOf blkno).segmentFileNum colno rows) :
    ((env.findFileSegInfo (startOf blkno).segmentFileNum).isSome = true →
      ∃ p, firstPhase env tupcount blkno env.projAtts 0 false = .ok p) ∧
    ∀ dirEntries, firstPhase env tupcount blkno env.projAtts 0 false = .ok (.entries dirEntries) →
      (ResumeTogether env.rel (startOf blkno).segmentFileNum env.projAtts dirEntries ↔
        (startOf blkno).rowNum ∈ rows ∨ SameSide env (startOf blkno)) ∧
      (InEveryRange dirEntries ↔
        env.entryMinRange ≠ 0 ∨ (startOf blkno).rowNum ∈ rows ∨ SameSide env (startOf blkno)) := by
  rcases firstPhase_spec env.projAtts hcols 0 false with ⟨hnone, herr⟩ | ⟨p, hp, hspec⟩
  · rw [hnone, herr]
    exact ⟨nofun, fun _ h => absurd h (by simp)⟩
  refine ⟨fun _ => ⟨p, hp⟩, fun dirEntries h => ?_⟩
  rw [hp, Except.ok.injEq] at h
  obtain ⟨hlen, hzip⟩ := forall₂_iff_zip.mp (hspec dirEntries h)
  have hanswered : ∀ x ∈ env.projAtts.zip dirEntries, Answered env (startOf blkno) rows x.1 x.2 :=
    fun x hx => hzip hx
  exact ⟨resumeTogether_iff hanswered hlen hcols fun r hr => (hrange r hr).1,
    inEveryRange_iff hanswered hlen hrange⟩

/-- The block directory after two inserts into a table with two columns, with minipages of two
entries: the first insert wrote one block of the first column and two of the second, the next one
begins behind a hole. -/
def twoColumns : BlkdirRel where
  tuples := [⟨1, 0, 0, 1, [⟨1, 0, 30000⟩, ⟨40001, 500, 5⟩]⟩,
    ⟨3, 0, 1, 1, [⟨1, 0, 15000⟩, ⟨15001, 200, 15000⟩]⟩, ⟨4, 0, 1, 40001, [⟨40001, 500, 5⟩]⟩]
  nextTid := 5

def twoColumnsRows : Set Nat := {r | 1 ≤ r ∧ r ≤ 30000 ∨ 40001 ≤ r ∧ r ≤ 40005}

/-- A descriptor for the table. -/
def twoColumnsEnv : SearchEnv :=
  ⟨twoColumns, [⟨0, false, fun _ => 1000⟩], [0, 1], fun _ _ => 0, true, 0⟩

theorem twoColumns_lists : ∀ colno ∈ [0, 1], Lists twoColumns 0 colno twoColumnsRows := by
  have h0 : twoColumns.Holds 0 0 [⟨1, 0, 30000⟩, ⟨40001, 500, 5⟩] := by
    refine ⟨by decide, ⟨by decide, by decide⟩, by decide, by decide⟩
  have h1 : twoColumns.Holds 0 1 [⟨1, 0, 15000⟩, ⟨15001, 200, 15000⟩, ⟨40001, 500, 5⟩] := by
    refine ⟨by decide, ⟨by decide, by decide⟩, by decide, by decide⟩
  refine forall_mem_cons.mpr
    ⟨⟨_, h0, fun r => ?_⟩, forall_mem_cons.mpr ⟨⟨_, h1, fun r => ?_⟩, forall_mem_nil _⟩⟩ <;>
    simp only [twoColumnsRows, Set.mem_ofPred_eq, mem_rowsOf, any_cons, any_nil,
      MinipageEntry.covers, Bool.or_eq_true, Bool.and_eq_true, decide_eq_true_eq,
      Bool.false_eq_true, or_false] <;>
    omega

theorem twoColumnsRows_range : ∀ r ∈ twoColumnsRows, 1 ≤ r ∧ r ≤ AOTUPLEID_MAXROWNUM := by
  intro r hr
  unfold AOTUPLEID_MAXROWNUM
  rcases hr with hr | hr <;> omega

/-- The first block begins with a visible row. -/
theorem partialScan_contained_visible : firstPhase twoColumnsEnv (fun _ => 30005) 0 [0, 1] 0 false =
        .ok (.entries [⟨0, 1, 500, 30000⟩, ⟨0, 1, 200, 15000⟩]) ∧
      ResumeTogether twoColumns 0 [0, 1] [⟨0, 1, 500, 30000⟩, ⟨0, 1, 200, 15000⟩] ∧
      InEveryRange [⟨0, 1, 500, 30000⟩, ⟨0, 1, 200, 15000⟩] := by
  have hrun : firstPhase twoColumnsEnv (fun _ => 30005) 0 [0, 1] 0 false =
      .ok (.entries [⟨0, 1, 500, 30000⟩, ⟨0, 1, 200, 15000⟩]) := by rfl
  have hrow : (startOf 0).rowNum ∈ twoColumnsRows := .inl (by decide)
  obtain ⟨hresume, hassert⟩ :=
    (partialScan_contained_iff twoColumnsEnv (fun _ => 30005) 0 twoColumnsRows
    twoColumnsRows_range fun colno hcolno _ => twoColumns_lists colno hcolno).2 _ hrun
  exact ⟨hrun, hresume.mpr (.inl hrow), hassert.mpr (.inr (.inl hrow))⟩

/-- The second block begins in the hole, where the minipage of the second column ends: the common
row 40001 is not in the range of the entry before the hole. -/
theorem partialScan_before_and_behind_hole :
    (insertCommands 0 0 [⟨2, 0, none, [⟨1, 0, 30000⟩]⟩, ⟨2, 40000, none, [⟨40001, 500, 5⟩]⟩]
        ⟨[], 0⟩ >>= insertCommands 0 1 [⟨2, 0, none, [⟨1, 0, 15000⟩, ⟨15001, 200, 15000⟩]⟩,
        ⟨2, 40000, none, [⟨40001, 500, 5⟩]⟩]) = .ok twoColumns ∧
      (∀ colno ∈ [0, 1], Lists twoColumns 0 colno twoColumnsRows) ∧
      firstPhase twoColumnsEnv (fun _ => 30005) 1 [0, 1] 0 false =
        .ok (.entries [⟨500, 40001, 1000, 40005⟩, ⟨200, 15001, 1000, 30000⟩]) ∧
      ¬ InEveryRange [⟨500, 40001, 1000, 40005⟩, ⟨200, 15001, 1000, 30000⟩] := by
  refine ⟨by rfl, twoColumns_lists, by rfl, fun h => ?_⟩
  have := (h ⟨200, 15001, 1000, 30000⟩ (by simp) (by decide)).2
  exact absurd this (by decide)

end PolemoDB.Aocs
