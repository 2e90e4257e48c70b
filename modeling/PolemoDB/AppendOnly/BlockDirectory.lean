import Mathlib.Data.List.Sort

/-!
# The block directory of an append-only relation

A minipage is a run of entries, each of them a range of row numbers and the place in the segment
file where the range begins.  The block directory relation has one tuple per minipage, found through
an index on segment file number, column group and first row number.

Source: `cdbappendonlyblockdirectory.h` and `appendonlyblockdirectory.c` (`load_last_minipage`,
`insert_new_entry`, `write_minipage`, `AppendOnlyBlockDirectory_InsertPlaceholder`,
`AppendOnlyBlockDirectory_End_forInsert`, `find_minipage_entry`, `set_directoryentry_range`).
-/

namespace PolemoDB.AppendOnly

/-! ## Minipages -/

structure MinipageEntry where
  firstRowNum : Nat
  fileOffset : Nat
  rowCount : Nat
deriving DecidableEq, Repr, Inhabited

/-- `NUM_MINIPAGE_ENTRIES`, for blocks of 32 kB: `((32736 / 8) - 24 - 64 * 3) / 24`. -/
def NUM_MINIPAGE_ENTRIES : Nat := 161

def AOTUPLEID_MAXROWNUM : Nat := 1099511627775

/-- The minipage in memory; `entries` are the first `numMinipageEntries` of its array. -/
structure MinipagePerColumnGroup where
  entries : List MinipageEntry
  tupleTid : Option Nat
  cachedEntryNo : Option Nat
deriving DecidableEq, Repr

/-- The minipage `init_internal` begins with. -/
def MinipagePerColumnGroup.init : MinipagePerColumnGroup := ⟨[], none, none⟩

def MinipageEntry.covers (e : MinipageEntry) (rowNum : Nat) : Bool :=
  e.firstRowNum ≤ rowNum && rowNum < e.firstRowNum + e.rowCount

def clearMinipage (_ : MinipagePerColumnGroup) : MinipagePerColumnGroup := ⟨[], none, none⟩

/-- The binary search of `find_minipage_entry`. -/
def searchMinipage (entries : List MinipageEntry) (rowNum : Nat) : Nat → Int → Int → Option Nat
  | 0, _, _ => none
  | fuel + 1, startNo, endNo =>
    if startNo ≤ endNo then
      let entryNo := startNo + (endNo - startNo + 1) / 2
      let entry := entries.getD entryNo.toNat default
      if entry.covers rowNum then some entryNo.toNat
      else if rowNum < entry.firstRowNum then
        searchMinipage entries rowNum fuel startNo (entryNo - 1)
      else searchMinipage entries rowNum fuel (entryNo + 1) endNo
    else none

/-- `find_minipage_entry`: the entry that has the row, with the entry found last time tried first.
-/
def findMinipageEntry (info : MinipagePerColumnGroup) (rowNum : Nat) :
    MinipagePerColumnGroup × Option Nat :=
  let found := searchMinipage info.entries rowNum info.entries.length 0 (info.entries.length - 1)
  match info.cachedEntryNo with
  | some entryNo =>
    if (info.entries.getD entryNo default).covers rowNum then (info, some entryNo)
    else ({ info with cachedEntryNo := found }, found)
  | none => ({ info with cachedEntryNo := found }, found)

/-! ## The relation -/

/-- A tuple of the block directory relation. -/
structure BlkdirTuple where
  tid : Nat
  segno : Nat
  columnGroupNo : Nat
  firstRowNum : Nat
  minipage : List MinipageEntry
deriving DecidableEq, Repr

/-- The visible tuples of the block directory relation; a tuple that is written gets the next tid.
-/
structure BlkdirRel where
  tuples : List BlkdirTuple
  nextTid : Nat
deriving DecidableEq, Repr

/-- The tuple belongs to the segment file and column group. -/
def BlkdirTuple.isOf (t : BlkdirTuple) (segno columnGroupNo : Nat) : Bool :=
  t.segno == segno && t.columnGroupNo == columnGroupNo

def BlkdirRel.tuplesOf (rel : BlkdirRel) (segno columnGroupNo : Nat) : List BlkdirTuple :=
  rel.tuples.filter (·.isOf segno columnGroupNo)

/-- The tuples of one segment file and column group in the order of the index. -/
def BlkdirRel.inOrder (rel : BlkdirRel) (segno columnGroupNo : Nat) : List BlkdirTuple :=
  (rel.tuplesOf segno columnGroupNo).insertionSort fun a b => a.firstRowNum ≤ b.firstRowNum

/-- `systable_beginscan_ordered` with the keys (= `segno`, = `columnGroupNo`, <= `rowNum`), read
backwards. -/
def BlkdirRel.scanBackward (rel : BlkdirRel) (segno columnGroupNo rowNum : Nat) :
    List BlkdirTuple :=
  ((rel.inOrder segno columnGroupNo).filter (·.firstRowNum ≤ rowNum)).reverse

/-- What stops an insert command. -/
inductive BlkdirError where
  /-- an entry is written behind the array of the minipage, or a stored minipage is larger than the
  array -/
  | minipageOverflow
  /-- `CatalogTupleUpdateWithInfo` of a tuple that is not there -/
  | tupleGone
  /-- the unique index has the key already -/
  | duplicateKey
deriving DecidableEq, Repr

section

variable (rel : BlkdirRel)

/-- `CatalogTupleInsertWithInfo` into the relation with its unique index. -/
def BlkdirRel.insert (segno columnGroupNo firstRowNum : Nat)
    (minipage : List MinipageEntry) : Except BlkdirError BlkdirRel :=
  if (rel.tuplesOf segno columnGroupNo).any (·.firstRowNum == firstRowNum) then .error .duplicateKey
  else .ok ⟨rel.tuples ++ [⟨rel.nextTid, segno, columnGroupNo, firstRowNum, minipage⟩],
    rel.nextTid + 1⟩

/-- `CatalogTupleUpdateWithInfo`: the old version is gone, the new one is another tuple. -/
def BlkdirRel.update (tid segno columnGroupNo firstRowNum : Nat)
    (minipage : List MinipageEntry) : Except BlkdirError BlkdirRel :=
  if rel.tuples.any (·.tid == tid) then
    BlkdirRel.insert ⟨rel.tuples.filter (·.tid != tid), rel.nextTid⟩ segno columnGroupNo firstRowNum
      minipage
  else .error .tupleGone

/-! ## Inserting entries -/

def extractMinipage (t : BlkdirTuple) : Except BlkdirError MinipagePerColumnGroup :=
  if t.minipage.length ≤ NUM_MINIPAGE_ENTRIES then .ok ⟨t.minipage, some t.tid, none⟩ else .error
  .minipageOverflow

/-- `load_last_minipage`, of the minipage `init_internal` has made. -/
def loadLastMinipage (segno columnGroupNo lastSequence : Nat) :
    Except BlkdirError MinipagePerColumnGroup :=
  let lastSequence := if lastSequence = 0 then 1 else lastSequence
  match (rel.scanBackward segno columnGroupNo lastSequence).head? with
  | some t => extractMinipage t
  | none => .ok .init

def writeMinipage (segno columnGroupNo : Nat) (info : MinipagePerColumnGroup) :
    Except BlkdirError (BlkdirRel × MinipagePerColumnGroup) := do
  let firstRowNum := (info.entries.headD default).firstRowNum
  let rel' ← match info.tupleTid with
    | some tid => rel.update tid segno columnGroupNo firstRowNum info.entries
    | none => rel.insert segno columnGroupNo firstRowNum info.entries
  return (rel', { info with tupleTid := some rel.nextTid })

end

/-- `IsMinipageFull`, for the setting `gp_blockdirectory_minipage_size`. -/
def isMinipageFull (minipageSize : Nat) (info : MinipagePerColumnGroup) : Bool :=
  info.entries.length == minipageSize

/-- The entry is stored behind those that are there. -/
def appendEntry (info : MinipagePerColumnGroup) (e : MinipageEntry) :
    Except BlkdirError MinipagePerColumnGroup :=
  if info.entries.length < NUM_MINIPAGE_ENTRIES then
    .ok { info with entries := info.entries ++ [e] }
  else .error .minipageOverflow

/-- `insert_new_entry`: a full minipage is written and cleared first. -/
def insertNewEntry (minipageSize segno columnGroupNo : Nat) (rel : BlkdirRel)
    (info : MinipagePerColumnGroup) (e : MinipageEntry) :
    Except BlkdirError (BlkdirRel × MinipagePerColumnGroup) := do
  if e.rowCount = 0 then
    return (rel, info)
  let (rel, info) ←
    if isMinipageFull minipageSize info then do
      let (rel, info) ← writeMinipage rel segno columnGroupNo info
      pure (rel, clearMinipage info)
    else pure (rel, info)
  let info ← appendEntry info e
  return (rel, info)

/-- `AppendOnlyBlockDirectory_InsertPlaceholder`: the entry is written and then taken out of the
memory again. -/
def insertPlaceholder (minipageSize segno columnGroupNo : Nat) (rel : BlkdirRel)
    (info : MinipagePerColumnGroup) (firstRowNum fileOffset : Nat) :
    Except BlkdirError (BlkdirRel × MinipagePerColumnGroup) := do
  let (rel, info) ←
    insertNewEntry minipageSize segno columnGroupNo rel info
    ⟨firstRowNum, fileOffset, AOTUPLEID_MAXROWNUM⟩
  let (rel, info) ← writeMinipage rel segno columnGroupNo info
  return (rel, { info with entries := info.entries.dropLast })

/-- The calls of `AppendOnlyBlockDirectory_InsertEntry`. -/
def insertEntries (minipageSize segno columnGroupNo : Nat) :
    List MinipageEntry → BlkdirRel → MinipagePerColumnGroup →
    Except BlkdirError (BlkdirRel × MinipagePerColumnGroup)
  | [], rel, info => .ok (rel, info)
  | e :: es, rel, info => do
    let (rel, info) ← insertNewEntry minipageSize segno columnGroupNo rel info e
    insertEntries minipageSize segno columnGroupNo es rel info

/-- `AppendOnlyBlockDirectory_End_forInsert`, for the column group. -/
def endForInsert (segno columnGroupNo : Nat) (rel : BlkdirRel) (info : MinipagePerColumnGroup) :
    Except BlkdirError BlkdirRel := do
  if 0 < info.entries.length then
    let (rel, _) ← writeMinipage rel segno columnGroupNo info
    return rel
  else return rel

/-- One insert command: its setting `gp_blockdirectory_minipage_size`, the sequence number before
its first row, its placeholder and its entries. -/
structure InsertCommand where
  minipageSize : Nat
  lastSequence : Nat
  placeholder : Option (Nat × Nat)
  entries : List MinipageEntry
deriving DecidableEq, Repr

/-- The placeholder of the command, if it has one. -/
def InsertCommand.startInsert (c : InsertCommand) (segno columnGroupNo : Nat) (rel : BlkdirRel)
    (info : MinipagePerColumnGroup) : Except BlkdirError (BlkdirRel × MinipagePerColumnGroup) :=
  match c.placeholder with
  | some (firstRowNum, fileOffset) =>
    insertPlaceholder c.minipageSize segno columnGroupNo rel info firstRowNum fileOffset
  | none => .ok (rel, info)

/-- From `AppendOnlyBlockDirectory_Init_forInsert` to `AppendOnlyBlockDirectory_End_forInsert`. -/
def insertCommand (segno columnGroupNo : Nat) (rel : BlkdirRel) (c : InsertCommand) :
    Except BlkdirError BlkdirRel := do
  let info ← loadLastMinipage rel segno columnGroupNo c.lastSequence
  let (rel, info) ← c.startInsert segno columnGroupNo rel info
  let (rel, info) ← insertEntries c.minipageSize segno columnGroupNo c.entries rel info
  endForInsert segno columnGroupNo rel info

/-- One command after the other. -/
def insertCommands (segno columnGroupNo : Nat) : List InsertCommand → BlkdirRel →
    Except BlkdirError BlkdirRel
  | [], rel => .ok rel
  | c :: cs, rel => do
    let rel ← insertCommand segno columnGroupNo rel c
    insertCommands segno columnGroupNo cs rel

end PolemoDB.AppendOnly
