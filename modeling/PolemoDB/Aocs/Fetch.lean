import PolemoDB.AppendOnly.BlockDirectorySearch

/-!
# Fetching tuples of a column-oriented relation

`aocs_fetch` goes through the projected columns, the anchor column first.  A column whose current
block, or current block directory entry, has the row is read from there; otherwise the block
directory is asked.  The fetch descriptor, with the minipages in its block directory, is kept from
one fetch to the next.

Principal results: `aocsFetch_right` (one fetch), `aocsFetchAll_right`: as long as no fetch moves
the directory to another segment file without loading the minipage of every column, each range the
directory answers with is the one stored for the segment file and column of the row.
`aocsFetchAll_stale` is a run without that.

Source: `aocsam.c` (`aocs_fetch`, `aocs_blkdir_getentry`, `scanToFetchValue`,
`openFetchSegmentFile`), `datumstream.c` (`datumstreamread_find_block`).
-/

namespace PolemoDB.Aocs

open PolemoDB.AppendOnly List

/-! ## The fetch descriptor -/

/-- The header of a block in the file of a column; `firstRow` is -1 (`none`) in the old format,
where the row count is the one of the content. -/
structure BlockHeader where
  firstRow : Option Nat
  rowCnt : Nat
  contentRowCnt : Nat
  overallBlockLen : Nat
deriving DecidableEq, Repr

/-- `AOFetchBlockMetadata`. -/
structure FetchBlock where
  blockDirectoryEntry : DirectoryEntry
  valid : Bool
  fileOffset : Int
  overallBlockLen : Int
  firstRowNum : Int
  lastRowNum : Int
  gotContents : Bool
deriving DecidableEq, Repr, Inhabited

/-- `DatumStreamFetchDescData` of a column: the open segment file (`none` when closed) with its
logical end of file, the current block and the range to scan. -/
structure ColumnFetch where
  isOpen : Bool
  num : Nat
  logicalEof : Int
  currentBlock : FetchBlock
  scanNextFileOffset : Int
  scanNextRowNum : Int
  scanAfterFileOffset : Int
  scanLastRowNum : Int
deriving DecidableEq, Repr, Inhabited

/-- What a fetch reads: the block directory, `lastSequence` of each segment file (`none` for
`InvalidAORowNum`), the visibility map, the block at an offset of the file of a segment and column,
and whether the relation's version is `AORelationVersion_GP7` or later. -/
structure FetchEnv extends SearchEnv where
  lastSequence : Nat → Option Nat
  isVisible : AOTupleId → Bool
  isSnapshotAny : Bool
  blockAt : Nat → Nat → Int → Option BlockHeader
  versionGP7 : Bool

section

variable (env : FetchEnv)

/-- The anchor column. -/
def FetchEnv.anchor : Nat := env.projAtts.headD 0

/-- A range that `AppendOnlyBlockDirectory_GetEntry` has returned true with. -/
structure Answer where
  tid : AOTupleId
  colno : Nat
  entry : DirectoryEntry
deriving DecidableEq, Repr

/-- `AOCSFetchDesc`, with the answers of the block directory so far. -/
structure FetchDesc where
  blockDirectory : BlockDirectory
  columns : Nat → ColumnFetch
  answers : List Answer

/-- `aocs_fetch_init`. -/
def FetchDesc.init : FetchDesc := ⟨initForSearch, fun _ => default, []⟩

/-- Errors that are raised. -/
inductive FetchError where
  | outOfScanningScope
  | search (e : SearchError)
  /-- the file has no block where one is read -/
  | noBlock
  /-- the row is in the range of the entry but in none of its blocks -/
  | notInRange
deriving DecidableEq, Repr

/-- The end of a step: the row is there, the row is not there, or an error. -/
inductive Outcome where
  | found
  | notFound
  | raised (e : FetchError)
deriving DecidableEq, Repr

def FetchDesc.setColumn (s : FetchDesc) (colno : Nat) (c : ColumnFetch) : FetchDesc :=
  { s with columns := fun i => if i = colno then c else s.columns i }

/-! ## One column -/

section

variable (c : ColumnFetch)

def ColumnFetch.positionFirstBlockOfRange : ColumnFetch :=
  { c with
    scanNextFileOffset := c.currentBlock.blockDirectoryEntry.fileOffset,
    scanNextRowNum := c.currentBlock.blockDirectoryEntry.firstRowNum }

def ColumnFetch.positionLimitToEndOfRange : ColumnFetch :=
  { c with
    scanAfterFileOffset := c.currentBlock.blockDirectoryEntry.afterFileOffset,
    scanLastRowNum := c.currentBlock.blockDirectoryEntry.lastRowNum }

def ColumnFetch.positionSkipCurrentBlock : ColumnFetch :=
  { c with
    scanNextFileOffset := c.currentBlock.fileOffset + c.currentBlock.overallBlockLen,
    scanNextRowNum := c.currentBlock.lastRowNum + 1 }

/-- The range of blocks to scan for a row that the current entry has and the current block has not.
-/
def ColumnFetch.positionInRange (rowNum : Nat) : ColumnFetch :=
  if (rowNum : Int) < c.currentBlock.firstRowNum then
    { c.positionFirstBlockOfRange with
      scanAfterFileOffset := c.currentBlock.fileOffset,
      scanLastRowNum := c.currentBlock.firstRowNum - 1 }
  else c.positionSkipCurrentBlock.positionLimitToEndOfRange

def ColumnFetch.resetCurrentBlockInfo : ColumnFetch :=
  { c with
    currentBlock := { c.currentBlock with valid := false, firstRowNum := 0, lastRowNum := 0 } }

end

/-- The loop of `datumstreamread_find_block`, at the block at `offset`. -/
def findBlockFrom (blockAt : Int → Option BlockHeader) (rowNum : Nat) :
    Nat → Int → ColumnFetch → ColumnFetch × Outcome
  | 0, _, c => (c, .notFound)
  | fuel + 1, offset, c =>
    -- the temporary range of the reader ends here
    if c.scanAfterFileOffset ≤ offset then (c, .notFound)
    else match blockAt offset with
      | none => (c, .raised .noBlock)
      | some header =>
        let first : Int := match header.firstRow with
          | some r => r
          | none => c.scanNextRowNum
        let block : FetchBlock :=
          ⟨c.currentBlock.blockDirectoryEntry, true, offset, header.overallBlockLen, first,
          first + header.rowCnt - 1, false⟩
        if (rowNum : Int) < first then ({ c with currentBlock := block }, .notFound)
        else
          let last : Int :=
            if header.firstRow.isNone then first + header.contentRowCnt - 1 else block.lastRowNum
          let block := { block with lastRowNum := last }
          if (rowNum : Int) ≤ last then
            ({ c with currentBlock := { block with gotContents := header.firstRow.isSome } },
              .found)
          else if c.scanAfterFileOffset ≤ offset + header.overallBlockLen then
            ({ c with currentBlock := block }, .notFound)
          else findBlockFrom blockAt rowNum fuel (offset + header.overallBlockLen)
            { c with currentBlock := block }

/-- `datumstreamread_find_block`: every block has at least one byte. -/
def findBlock (blockAt : Int → Option BlockHeader) (rowNum : Nat) (c : ColumnFetch) :
    ColumnFetch × Outcome :=
  if c.scanAfterFileOffset ≤ c.scanNextFileOffset then (c, .notFound)
  else if c.logicalEof ≤ c.scanNextFileOffset then (c, .notFound)
  else findBlockFrom blockAt rowNum (c.scanAfterFileOffset - c.scanNextFileOffset).toNat
    c.scanNextFileOffset c

/-- `fetchFromCurrentBlock`: the content of the block is read. -/
def ColumnFetch.fetchFromCurrentBlock (c : ColumnFetch) : ColumnFetch :=
  { c with currentBlock := { c.currentBlock with gotContents := true } }

def scanToFetchValue (s : FetchDesc) (tid : AOTupleId) (colno : Nat)
    (c : ColumnFetch) : FetchDesc × Outcome :=
  match findBlock (env.blockAt tid.segmentFileNum colno) tid.rowNum c with
  | (c, .found) => (s.setColumn colno c.fetchFromCurrentBlock, .found)
  | (c, .notFound) =>
    if c.currentBlock.blockDirectoryEntry.rangeHasRow tid.rowNum && env.versionGP7 then
      (s.setColumn colno c, .raised .notInRange)
    else (s.setColumn colno c, .notFound)
  | (c, .raised e) => (s.setColumn colno c, .raised e)

def openFetchSegmentFile (segno colno : Nat) (c : ColumnFetch) : Option ColumnFetch :=
  match env.findFileSegInfo segno with
  | none => none
  | some fsInfo =>
    if fsInfo.awaitingDrop then none
    else if fsInfo.eof colno = 0 then none
    else some { c with isOpen := true, num := segno, logicalEof := fsInfo.eof colno }

/-- The value of the column is missing for the row; of the anchor column none is. -/
def FetchEnv.valmissing (tid : AOTupleId) (colno : Nat) : Bool :=
  colno != env.anchor && env.valIsMissing tid colno

/-- `closeFetchSegmentFile` of another segment file, and opening the one of the row. -/
def switchSegmentFile (tid : AOTupleId) (colno : Nat) (c : ColumnFetch) : ColumnFetch × Bool :=
  let c := if c.isOpen && tid.segmentFileNum != c.num then { c with isOpen := false } else c
  if c.isOpen then (c, true)
  else if env.valmissing tid colno then (c.resetCurrentBlockInfo, true)
  else match openFetchSegmentFile env tid.segmentFileNum colno c with
    | none => (c, false)
    | some c => (c.resetCurrentBlockInfo, true)

/-- The part of the loop of `aocs_fetch` after `aocs_blkdir_getentry` has returned true. -/
def fetchFromEntry (s : FetchDesc) (tid : AOTupleId) (colno : Nat)
    (c : ColumnFetch) : FetchDesc × Outcome :=
  if !env.isSnapshotAny && !env.isVisible tid then (s.setColumn colno c, .notFound)
  else
    let c := c.positionFirstBlockOfRange.positionLimitToEndOfRange
    if env.valmissing tid colno then (s.setColumn colno c, .found)
    else scanToFetchValue env s tid colno c

/-- `aocs_blkdir_getentry` and what follows. -/
def fetchThroughDirectory (s : FetchDesc) (tid : AOTupleId) (colno : Nat)
    (c : ColumnFetch) : FetchDesc × Outcome :=
  if env.valmissing tid colno then
    match blkdirEntryExists env.toSearchEnv s.blockDirectory tid env.anchor with
    | .error e => (s.setColumn colno c, .raised (.search e))
    | .ok (bd, false) => ({ s.setColumn colno c with blockDirectory := bd }, .notFound)
    | .ok (bd, true) => fetchFromEntry env { s with blockDirectory := bd } tid colno c
  else
    match getEntry env.toSearchEnv s.blockDirectory tid colno
      c.currentBlock.blockDirectoryEntry with
    | .error e => (s.setColumn colno c, .raised (.search e))
    | .ok (bd, entry, false) =>
      ({ s.setColumn colno
        { c with currentBlock := { c.currentBlock with blockDirectoryEntry := entry } } with
          blockDirectory := bd }, .notFound)
    | .ok (bd, entry, true) =>
      fetchFromEntry env
        { s with blockDirectory := bd, answers := s.answers ++ [⟨tid, colno, entry⟩] } tid colno
        { c with currentBlock := { c.currentBlock with blockDirectoryEntry := entry } }

/-- The current block can be used: it is of the segment file of the row, and so is the block
directory. -/
def hasCurrentBlock (s : FetchDesc) (tid : AOTupleId) (c : ColumnFetch) : Bool :=
  c.isOpen && c.num == tid.segmentFileNum && s.blockDirectory.currentSegmentFileNum == some
    tid.segmentFileNum && c.currentBlock.valid

/-- One round of the loop of `aocs_fetch`. -/
def fetchColumn (s : FetchDesc) (tid : AOTupleId) (colno : Nat) : FetchDesc × Outcome :=
  let c := s.columns colno
  if hasCurrentBlock s tid c && decide (c.currentBlock.firstRowNum ≤ tid.rowNum ∧
    tid.rowNum ≤ c.currentBlock.lastRowNum) then
    if !env.isSnapshotAny && !env.isVisible tid then (s, .notFound)
    else if env.valmissing tid colno then (s, .found)
    else (s.setColumn colno c.fetchFromCurrentBlock, .found)
  else if hasCurrentBlock s tid c && c.currentBlock.blockDirectoryEntry.rangeHasRow tid.rowNum then
    let c := c.positionInRange tid.rowNum
    if !env.isSnapshotAny && !env.isVisible tid then (s.setColumn colno c, .notFound)
    else scanToFetchValue env s tid colno c
  else
    match switchSegmentFile env tid colno c with
    | (c, false) => (s.setColumn colno c, .notFound)
    | (c, true) => fetchThroughDirectory env s tid colno c

/-! ## Fetches -/

/-- The loop of `aocs_fetch` over the projected columns. -/
def fetchColumns (env : FetchEnv) (tid : AOTupleId) : List Nat → FetchDesc → FetchDesc × Outcome
  | [], s => (s, .found)
  | colno :: cols, s => match fetchColumn env s tid colno with
    | (s, .found) => fetchColumns env tid cols s
    | r => r

def aocsFetch (s : FetchDesc) (tid : AOTupleId) : FetchDesc × Outcome :=
  match env.lastSequence tid.segmentFileNum with
  | none => (s, .raised .outOfScanningScope)
  | some last =>
    if tid.rowNum = 0 ∨ last < tid.rowNum then (s, .notFound)
    else fetchColumns env tid env.projAtts s

end

/-- Fetches with one descriptor, until an error is raised. -/
def aocsFetchAll (env : FetchEnv) : List AOTupleId → FetchDesc → FetchDesc
  | [], s => s
  | tid :: tids, s => match aocsFetch env s tid with
    | (s, .raised _) => s
    | (s, _) => aocsFetchAll env tids s

/-! ## What a fetch does with the block directory -/

/-- The minipages match the current segment file, and every answer so far was right. -/
structure FetchDesc.Right (env : FetchEnv) (s : FetchDesc) : Prop where
  directory : s.blockDirectory.Matches env.toSearchEnv
  answers : ∀ a ∈ s.answers, env.toSearchEnv.Right a.tid a.colno a.entry

section Column

variable {env : FetchEnv} {s : FetchDesc} {tid : AOTupleId} {colno : Nat}

/-- The step leaves the block directory alone. -/
def SameDirectory (s s' : FetchDesc) : Prop := s'.blockDirectory = s.blockDirectory ∧
    s'.answers = s.answers

theorem SameDirectory.right {s' : FetchDesc} (h : SameDirectory s s') (hs : s.Right env) :
    s'.Right env :=
  ⟨by rw [h.1]; exact hs.directory, by rw [h.2]; exact hs.answers⟩

section

variable (env : FetchEnv) (s : FetchDesc) (tid : AOTupleId) (colno : Nat) (c : ColumnFetch)

theorem scanToFetchValue_same : SameDirectory s (scanToFetchValue env s tid colno c).1 := by
  unfold scanToFetchValue
  split
  · exact ⟨rfl, rfl⟩
  · split <;> exact ⟨rfl, rfl⟩
  · exact ⟨rfl, rfl⟩

theorem fetchFromEntry_same : SameDirectory s (fetchFromEntry env s tid colno c).1 := by
  unfold fetchFromEntry
  split
  · exact ⟨rfl, rfl⟩
  · split
    · exact ⟨rfl, rfl⟩
    · exact scanToFetchValue_same _ _ _ _ _

end

section

variable (hwf : env.Wf) (hs : s.Right env) (hcol : colno ∈ env.projAtts)
  (hswitch : s.blockDirectory.switchOK env.toSearchEnv tid)
  (hmissing : env.valmissing tid colno = true →
  s.blockDirectory.currentSegmentFileNum = some tid.segmentFileNum)
include hwf hs hcol hswitch hmissing

theorem fetchThroughDirectory_spec
    (c : ColumnFetch) {s' : FetchDesc} {o : Outcome}
    (heq : fetchThroughDirectory env s tid colno c = (s', o)) :
    s'.Right env ∧ (o = .found →
    s'.blockDirectory.currentSegmentFileNum = some tid.segmentFileNum) := by
  unfold fetchThroughDirectory at heq
  split at heq
  case isTrue hm =>
    -- the value is missing: the anchor column is asked
    split at heq
    case h_1 =>
      obtain ⟨rfl, rfl⟩ := Prod.mk.inj heq
      exact ⟨⟨hs.directory, hs.answers⟩, nofun⟩
    case h_2 bd hexists =>
      obtain ⟨rfl, rfl⟩ := Prod.mk.inj heq
      obtain ⟨hmatch, -⟩ := blkdirEntryExists_matches hs.directory (hmissing hm) hexists
      exact ⟨⟨hmatch, hs.answers⟩, nofun⟩
    case h_3 bd hexists =>
      obtain ⟨hmatch, hcurrent⟩ := blkdirEntryExists_matches hs.directory (hmissing hm) hexists
      have hsame := fetchFromEntry_same env { s with blockDirectory := bd } tid colno c
      rw [heq] at hsame
      exact ⟨hsame.right ⟨hmatch, hs.answers⟩, fun _ => by rw [hsame.1]; exact hcurrent⟩
  case isFalse =>
    split at heq
    case h_1 =>
      obtain ⟨rfl, rfl⟩ := Prod.mk.inj heq
      exact ⟨⟨hs.directory, hs.answers⟩, nofun⟩
    case h_2 bd entry hget =>
      obtain ⟨rfl, rfl⟩ := Prod.mk.inj heq
      obtain ⟨hmatch, -⟩ := getEntry_spec hwf hs.directory hswitch hcol hget
      exact ⟨⟨hmatch, hs.answers⟩, nofun⟩
    case h_3 bd entry hget =>
      obtain ⟨hmatch, hfound⟩ := getEntry_spec hwf hs.directory hswitch hcol hget
      obtain ⟨hcurrent, hright⟩ := hfound rfl
      have hsame := fetchFromEntry_same env
        { s with blockDirectory := bd, answers := s.answers ++ [⟨tid, colno, entry⟩] } tid colno
        { c with currentBlock := { c.currentBlock with blockDirectoryEntry := entry } }
      rw [heq] at hsame
      exact ⟨hsame.right ⟨hmatch, forall_mem_append.mpr
        ⟨hs.answers, forall_mem_singleton.mpr hright⟩⟩, fun _ => by rw [hsame.1]; exact hcurrent⟩

/-- **One column**: a row that is found leaves the directory at its segment file. -/
theorem fetchColumn_spec
    {s' : FetchDesc} {o : Outcome} (heq : fetchColumn env s tid colno = (s', o)) :
    s'.Right env ∧ (o = .found →
    s'.blockDirectory.currentSegmentFileNum = some tid.segmentFileNum) := by
  -- the current block is used only when the directory is at the segment file
  have hcurrent : ∀ {c : ColumnFetch}, hasCurrentBlock s tid c = true →
      s.blockDirectory.currentSegmentFileNum = some tid.segmentFileNum := by
    intro c hc
    unfold hasCurrentBlock at hc
    simp only [Bool.and_eq_true, beq_iff_eq] at hc
    exact hc.1.2
  have hdone : SameDirectory s s' →
      s.blockDirectory.currentSegmentFileNum = some tid.segmentFileNum →
      s'.Right env ∧ (o = .found →
      s'.blockDirectory.currentSegmentFileNum = some tid.segmentFileNum) :=
    fun hsame hseg => ⟨hsame.right hs, fun _ => by rw [hsame.1]; exact hseg⟩
  unfold fetchColumn at heq
  dsimp only at heq
  split at heq
  case isTrue hblock =>
    refine hdone ?_ (hcurrent (Bool.and_eq_true _ _ ▸ hblock).1)
    split at heq
    · rw [← (Prod.mk.inj heq).1]
      exact ⟨rfl, rfl⟩
    · split at heq <;>
      · rw [← (Prod.mk.inj heq).1]
        exact ⟨rfl, rfl⟩
  case isFalse =>
    split at heq
    case isTrue hrange =>
      refine hdone ?_ (hcurrent (Bool.and_eq_true _ _ ▸ hrange).1)
      split at heq
      · rw [← (Prod.mk.inj heq).1]
        exact ⟨rfl, rfl⟩
      · have hsame := scanToFetchValue_same env s tid colno
          ((s.columns colno).positionInRange tid.rowNum)
        rwa [heq] at hsame
    case isFalse =>
      split at heq
      · obtain ⟨rfl, rfl⟩ := Prod.mk.inj heq
        exact ⟨⟨hs.directory, hs.answers⟩, nofun⟩
      · exact fetchThroughDirectory_spec hwf hs hcol hswitch hmissing _ heq

end

theorem fetchColumns_spec (hwf : env.Wf) (cols : List Nat) {s : FetchDesc} (hs : s.Right env)
    (hcols : ∀ c ∈ cols, c ∈ env.projAtts)
    (hcurrent : s.blockDirectory.currentSegmentFileNum = some tid.segmentFileNum) :
    (fetchColumns env tid cols s).1.Right env := by
  induction cols generalizing s with
  | nil =>
    exact hs
  | cons colno cols ih =>
    unfold fetchColumns
    cases hcolumn : fetchColumn env s tid colno with
    | mk s₁ o =>
      obtain ⟨hright, hfound⟩ :=
        fetchColumn_spec hwf hs (hcols colno mem_cons_self) (.inl hcurrent)
        (fun _ => hcurrent) hcolumn
      cases o with
      | found => exact ih hright (fun c hc => hcols c (mem_cons_of_mem _ hc)) (hfound rfl)
      | notFound | raised e => exact hright

end Column

/-! ## Runs -/

/-- The fetch, if it looks at the columns at all, mixes no segment files. -/
def fetchOK (env : FetchEnv) (s : FetchDesc) (tid : AOTupleId) : Prop :=
  ∀ last, env.lastSequence tid.segmentFileNum = some last → tid.rowNum ≠ 0 → tid.rowNum ≤ last →
    s.blockDirectory.switchOK env.toSearchEnv tid

/-- Every fetch of the run is like that, in the state before it. -/
def fetchesOK (env : FetchEnv) : List AOTupleId → FetchDesc → Prop
  | [], _ => True
  | tid :: tids, s => fetchOK env s tid ∧ fetchesOK env tids (aocsFetch env s tid).1

section Runs

variable {env : FetchEnv} {s : FetchDesc} {tid : AOTupleId}

theorem FetchDesc.init_right : FetchDesc.init.Right env :=
  ⟨⟨fun _ _ hne => absurd rfl hne, fun _ h => absurd h (by simp [FetchDesc.init, initForSearch])⟩,
    nofun⟩

theorem aocsFetch_right (hwf : env.Wf) (hs : s.Right env) (hok : fetchOK env s tid) :
    (aocsFetch env s tid).1.Right env := by
  unfold aocsFetch
  cases hlast : env.lastSequence tid.segmentFileNum with
  | none => exact hs
  | some last =>
    dsimp only
    split
    case isTrue => exact hs
    case isFalse hrow =>
      have hswitch := hok last hlast (by omega) (by omega)
      cases hproj : env.projAtts with
      | nil => exact hs
      | cons anchor cols =>
        have hmem : ∀ c ∈ anchor :: cols, c ∈ env.projAtts := fun c hc => by rw [hproj]; exact hc
        -- of the anchor column no value counts as missing
        have hanchor : env.valmissing tid anchor = false := by
          simp [FetchEnv.valmissing, FetchEnv.anchor, hproj]
        unfold fetchColumns
        cases hcolumn : fetchColumn env s tid anchor with
        | mk s₁ o =>
          obtain ⟨hright, hfound⟩ := fetchColumn_spec hwf hs (hmem anchor mem_cons_self) hswitch
            (fun hm => absurd hm (by rw [hanchor]; simp)) hcolumn
          cases o with
          | found =>
            exact fetchColumns_spec hwf cols hright (fun c hc => hmem c (mem_cons_of_mem _ hc))
              (hfound rfl)
          | notFound | raised e => exact hright

theorem aocsFetchAll_keeps_right (hwf : env.Wf) (tids : List AOTupleId) {s : FetchDesc}
    (hs : s.Right env) (hok : fetchesOK env tids s) : (aocsFetchAll env tids s).Right env := by
  induction tids generalizing s with
  | nil =>
    exact hs
  | cons tid tids ih =>
    have hright := aocsFetch_right hwf hs hok.1
    have hrest := hok.2
    unfold aocsFetchAll
    cases hfetch : aocsFetch env s tid with
    | mk s₁ o =>
      rw [hfetch] at hright hrest
      cases o with
      | found | notFound => exact ih hright hrest
      | raised e => exact hright

/-- **Every run of fetches with one descriptor**, as long as no fetch moves the directory to another
segment file without loading every column: a range that `AppendOnlyBlockDirectory_GetEntry` returns,
and that has the row, is the range of a stored entry of the segment file and column, and the one of
a fresh lookup. -/
theorem aocsFetchAll_right (hwf : env.Wf) (tids : List AOTupleId) (hok : fetchesOK env tids .init) :
    ∀ a ∈ (aocsFetchAll env tids .init).answers, a.entry.rangeHasRow a.tid.rowNum = true →
      env.FromStored a.tid a.colno a.entry ∧
      (env.valIsMissing a.tid a.colno = false → env.freshEntry a.tid a.colno = some a.entry) := by
  intro a ha hrow
  have hright := (aocsFetchAll_keeps_right hwf tids FetchDesc.init_right hok).answers a ha
  exact ⟨hright.stored hrow, hright.fresh hrow⟩

end Runs

/-! ## A stale minipage -/

/-- Two segment files with 200 rows each; the second column was added after row 100 of both, and its
rows are in blocks of other sizes. -/
def addedColumn : FetchEnv where
  rel := ⟨[⟨0, 1, 0, 1, [⟨1, 0, 100⟩, ⟨101, 1000, 100⟩]⟩,
    ⟨1, 1, 1, 101, [⟨101, 0, 20⟩, ⟨121, 700, 80⟩]⟩,
    ⟨2, 2, 0, 1, [⟨1, 0, 100⟩, ⟨101, 1000, 100⟩]⟩, ⟨3, 2, 1, 101, [⟨101, 0, 100⟩]⟩], 4⟩
  segmentFileInfo := [⟨1, false, fun _ => 2000⟩, ⟨2, false, fun _ => 2000⟩]
  projAtts := [0, 1]
  attnumToRownum := fun colno _ => if colno = 1 then 100 else 0
  isMVCCSnapshot := true
  entryMinRange := 0
  lastSequence := fun _ => some 200
  isVisible := fun _ => true
  isSnapshotAny := false
  blockAt := fun segno colno offset =>
    if colno = 0 then if offset = 0 then some ⟨some 1, 100, 100, 1000⟩
      else if offset = 1000 then some ⟨some 101, 100, 100, 1000⟩ else none
    else if segno = 1 then if offset = 0 then some ⟨some 101, 20, 20, 700⟩
      else if offset = 700 then some ⟨some 121, 80, 80, 1300⟩ else none
    else if offset = 0 then some ⟨some 101, 100, 100, 2000⟩ else none
  versionGP7 := true

theorem holds_nil {rel : BlkdirRel} {segno colno : Nat} (h : rel.tuplesOf segno colno = []) :
    rel.Holds segno colno [] := by
  have hin : rel.inOrder segno colno = [] := by
    unfold BlkdirRel.inOrder
    rw [h]
    rfl
  refine ⟨by rw [hin]; rfl, ⟨nofun, List.Pairwise.nil⟩, ?_, ?_⟩ <;>
  · rw [hin]
    exact nofun

theorem addedColumn_wf : addedColumn.Wf := by
  intro segno colno
  by_cases h10 : segno = 1 ∧ colno = 0
  · obtain ⟨rfl, rfl⟩ := h10
    exact ⟨_, rfl, ⟨by decide, by decide⟩, by decide, by decide⟩
  by_cases h11 : segno = 1 ∧ colno = 1
  · obtain ⟨rfl, rfl⟩ := h11
    exact ⟨_, rfl, ⟨by decide, by decide⟩, by decide, by decide⟩
  by_cases h20 : segno = 2 ∧ colno = 0
  · obtain ⟨rfl, rfl⟩ := h20
    exact ⟨_, rfl, ⟨by decide, by decide⟩, by decide, by decide⟩
  by_cases h21 : segno = 2 ∧ colno = 1
  · obtain ⟨rfl, rfl⟩ := h21
    exact ⟨_, rfl, ⟨by decide, by decide⟩, by decide, by decide⟩
  refine ⟨[], holds_nil ?_⟩
  unfold BlkdirRel.tuplesOf
  rw [filter_eq_nil_iff]
  intro t ht
  simp only [addedColumn, mem_cons, not_mem_nil, or_false] at ht
  rcases ht with rfl | rfl | rfl | rfl <;> simp [BlkdirTuple.isOf] <;> omega

theorem aocsFetchAll_right_oneSegment :
    ⟨⟨1, 150⟩, 1, ⟨700, 121, 2000, 200⟩⟩ ∈
    (aocsFetchAll addedColumn [⟨1, 150⟩, ⟨1, 50⟩] .init).answers ∧
    addedColumn.FromStored ⟨1, 150⟩ 1 ⟨700, 121, 2000, 200⟩ ∧
    addedColumn.freshEntry ⟨1, 150⟩ 1 = some ⟨700, 121, 2000, 200⟩ := by
  have hmem : ⟨⟨1, 150⟩, 1, ⟨700, 121, 2000, 200⟩⟩ ∈
      (aocsFetchAll addedColumn [⟨1, 150⟩, ⟨1, 50⟩] .init).answers := by decide +kernel
  have hright := aocsFetchAll_right addedColumn_wf [⟨1, 150⟩, ⟨1, 50⟩]
    ⟨fun _ _ _ _ => .inr (.inr fun _ _ => .inl rfl), fun _ _ _ _ => .inl (by decide +kernel),
    trivial⟩ _ hmem (by decide)
  exact ⟨hmem, hright.1, hright.2 (by decide)⟩

/-- Row 150 of segment file 1, row 50 of segment file 2 (where the second column is missing), row
150 of segment file 2: the last fetch is answered for the second column from the minipage of segment
file 1, and reads segment file 2 at an offset where it has no block. -/
theorem aocsFetchAll_stale : addedColumn.Wf ∧
    ⟨⟨2, 150⟩, 1, ⟨700, 121, 2000, 200⟩⟩ ∈
    (aocsFetchAll addedColumn [⟨1, 150⟩, ⟨2, 50⟩, ⟨2, 150⟩] .init).answers ∧
    DirectoryEntry.rangeHasRow ⟨700, 121, 2000, 200⟩ 150 = true ∧
    ¬ addedColumn.FromStored ⟨2, 150⟩ 1 ⟨700, 121, 2000, 200⟩ ∧
    addedColumn.freshEntry ⟨2, 150⟩ 1 = some ⟨0, 101, 2000, 200⟩ ∧
    (aocsFetch addedColumn (aocsFetchAll addedColumn [⟨1, 150⟩, ⟨2, 50⟩] .init) ⟨2, 150⟩).2 =
    .raised .noBlock := by
  refine ⟨addedColumn_wf, by decide +kernel, by decide, ?_, by decide +kernel, by decide +kernel⟩
  rintro ⟨t, ht, fsInfo, hfs, entryNo, hlt, hrange⟩
  have htuples : addedColumn.rel.tuplesOf 2 1 = [⟨3, 2, 1, 101, [⟨101, 0, 100⟩]⟩] := rfl
  rw [htuples, mem_singleton] at ht
  subst ht
  have hzero : entryNo = 0 := Nat.lt_one_iff.mp hlt
  subst hzero
  have hfirst := congrArg (fun r => r.1.fileOffset) hrange
  revert hfirst
  unfold setDirectoryEntryRange
  split <;> simp

end PolemoDB.Aocs
