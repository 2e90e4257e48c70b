import Mathlib.Data.List.Nodup
import PolemoDB.AppendOnly.TupleId
import PolemoDB.AppendOnly.VisimapEntry

/-!
# Hiding rows in the visibility map (`appendonly_visimap.c`, `appendonly_visimap_store.c`)

A command that deletes rows works on one entry of the visibility map at a time.  A changed entry is
stashed in a work file before the next one is loaded, and is found again through a hash table; the
relation is written when the command is finished.  The relation is a list of tuples with the tuple
ids as positions, the hash table a map, the work file a list of records.

* `Delete.Inv` — the current entry, or else the last record in the work file, or else the tuple of
  the relation has the rows hidden so far; an entry is dirty or stashed just if a row of it was
  passed to `hide`.
* `visimapDelete_results_iff` — the answers of `hide`.
-/

namespace PolemoDB.AppendOnly

open PolemoDB.Misc List AOTupleId

/-! ## The relation -/

/-- Segment file number and first row number of an entry (`AppendOnlyVisiMapDeleteKey`). -/
structure VisimapKey where
  segno : Int
  firstRowNum : Int
deriving DecidableEq, Repr

/-- A tuple of the visibility map relation; the bitmap may be NULL. -/
structure VisimapTuple where
  key : VisimapKey
  visimap : Option (List (BitVec 8))
deriving DecidableEq, Repr

/-- `AppendOnlyVisimapEntry`; `key` are `segmentFileNum` and `firstRowNum`. -/
structure VisimapEntry where
  key : VisimapKey
  bitmap : Bitmapset
  dirty : Bool
  data : List (BitVec 8)
  tupleTid : Option Nat
deriving DecidableEq, Repr

open VisimapEntry

/-- `AppendOnlyVisimapEntry_Init`. -/
def VisimapEntry.init : VisimapEntry where
  key := ⟨-1, -1⟩
  bitmap := none
  dirty := false
  data := List.replicate VISIMAP_DATA_SIZE 0
  tupleTid := none

section

variable (e : VisimapEntry)

/-- `AppendOnlyVisimapEntry_IsValid`. -/
def VisimapEntry.isValid : Bool :=
  decide (e.key.segno ≥ 0) && decide (e.key.firstRowNum ≥ 0)

/-- `AppendOnlyVisimapEntry_CoversTuple`. -/
def VisimapEntry.coversTuple (tid : AOTupleId) : Bool :=
  e.isValid && decide (e.key.segno = tid.segmentFileNum) && decide (e.key.firstRowNum ≤ tid.rowNum)
    && decide (e.key.firstRowNum + APPENDONLY_VISIMAP_MAX_RANGE > tid.rowNum)

/-- `AppendOnlyVisimapEntry_GetFirstRowNum`, with the segment file number. -/
def AOTupleId.visimapKey (tid : AOTupleId) : VisimapKey :=
  ⟨tid.segmentFileNum, (tid.rowNum / APPENDONLY_VISIMAP_MAX_RANGE * APPENDONLY_VISIMAP_MAX_RANGE :
  Nat)⟩

/-- `AppendOnlyVisimapEntry_GetRownumOffset`. -/
def VisimapEntry.rownumOffset (tid : AOTupleId) : Nat :=
  (tid.rowNum - e.key.firstRowNum).toNat

/-- `AppendOnlyVisimapEntry_IsVisible`. -/
def VisimapEntry.isVisible (tid : AOTupleId) : Bool :=
  bmsIsEmpty e.bitmap || !bmsIsMember (e.rownumOffset tid) e.bitmap

/-- The results of `AppendOnlyVisimapEntry_HideTuple`. -/
inductive TMResult where
  | TM_Ok
  | TM_SelfModified
  | TM_Updated
deriving DecidableEq, Repr

/-- `AppendOnlyVisimapEntry_HideTuple`. -/
def VisimapEntry.hideTuple (tid : AOTupleId) : TMResult × VisimapEntry :=
  let offset := e.rownumOffset tid
  let bitmap := enlarge offset e.bitmap
  if bmsIsMember offset bitmap then
    (if e.dirty then .TM_SelfModified else .TM_Updated, { e with bitmap := bitmap, dirty := true })
  else (.TM_Ok, { e with bitmap := bmsAddMember offset bitmap, dirty := true })

/-- `AppendOnlyVisimapEntry_New`. -/
def VisimapEntry.new (tid : AOTupleId) : VisimapEntry :=
  { e with key := tid.visimapKey, bitmap := none, tupleTid := none }

/-- The local `decompressState` before it is initialized. -/
def unsetState : BitmapDecompressState := ⟨bitstreamInit [] 0, .no, 0⟩

/-- `AppendOnlyVisimapEntry_Copyout`. -/
def VisimapEntry.copyout (t : VisimapTuple) : Except String VisimapEntry :=
  match t.visimap with
  | none => .ok { e with key := t.key, bitmap := none }
  | some bytes =>
    let data := bytes ++ e.data.drop bytes.length
    match readData unsetState data bytes.length with
    | .error err => .error err
    | .ok bitmap => .ok { e with key := t.key, bitmap := bitmap, data := data }

end

/-- The tuple id under which the index has the key. -/
def findTid (rows : List VisimapTuple) (key : VisimapKey) : Option Nat := rows.findIdx? fun t =>
    t.key = key

/-- `AppendOnlyVisimapStore_Find`; `none` if there is no such tuple. -/
def storeFind (rows : List VisimapTuple) (key : VisimapKey) (e : VisimapEntry) :
    Except String (Option VisimapEntry) :=
  match findTid rows key with
  | none => .ok none
  | some tid =>
    match rows[tid]? with
    | none => .ok none
    | some t =>
      match e.copyout t with
      | .error err => .error err
      | .ok e => .ok (some { e with tupleTid := some tid })

/-! ## The delete support structure -/

/-- `AppendOnlyVisiMapDeleteData`; no place in the work file if it was made invalid. -/
structure DeleteData where
  workFileOffset : Option Nat
  tupleTid : Option Nat
deriving DecidableEq, Repr

/-- `AppendOnlyVisimapDelete` with the relation it works on. -/
structure Delete where
  rows : List VisimapTuple
  entry : VisimapEntry
  dirtyEntryCache : VisimapKey → Option DeleteData
  workfile : List (VisimapKey × List (BitVec 8))

open Delete

variable (rows : List VisimapTuple)

/-- `AppendOnlyVisimapDelete_Init`. -/
def Delete.init : Delete := ⟨rows, .init, fun _ => none, []⟩

section

variable (d : Delete) (tid : AOTupleId)

/-- `AppendOnlyVisimapDelete_Stash`. -/
def Delete.stash : Except String Delete :=
  match writeData d.entry.bitmap d.entry.data with
  | .error err => .error err
  | .ok (data, size) =>
    .ok { d with
      entry := { d.entry with data := data, dirty := false }
      workfile := d.workfile ++ [(d.entry.key, data.take size)]
      dirtyEntryCache := Function.update d.dirtyEntryCache d.entry.key
        (some ⟨d.workfile.length, d.entry.tupleTid⟩) }

/-- `AppendOnlyVisimapDelete_RebuildEntry`, from the bytes of a record. -/
def VisimapEntry.rebuild (e : VisimapEntry) (key : VisimapKey) (bytes : List (BitVec 8))
    (tid : Option Nat) : Except String VisimapEntry :=
  let data := bytes ++ e.data.drop bytes.length
  match readData unsetState data bytes.length with
  | .error err => .error err
  | .ok bitmap => .ok ⟨key, bitmap, true, data, tid⟩

/-- `AppendOnlyVisimapDelete_Unstash`. -/
def Delete.unstash (key : VisimapKey) (r : DeleteData) : Except String Delete :=
  match r.workFileOffset.bind (d.workfile[·]?) with
  | none => .error "failed to read visimap delete buf file"
  | some (_, bytes) =>
    match d.entry.rebuild key bytes r.tupleTid with
    | .error err => .error err
    | .ok e => .ok { d with entry := e }

/-- `AppendOnlyVisimapDelete_Find`. -/
def Delete.find : Except String Delete :=
  match d.dirtyEntryCache tid.visimapKey with
  | some r => d.unstash tid.visimapKey r
  | none =>
    match storeFind d.rows tid.visimapKey d.entry with
    | .error err => .error err
    | .ok none => .ok { d with entry := d.entry.new tid }
    | .ok (some e) => .ok { d with entry := e }

/-- A changed entry is stashed before another one is loaded. -/
def Delete.leave : Except String Delete := if d.entry.dirty then d.stash else .ok d

/-- `AppendOnlyVisimapDelete_LoadTuple`. -/
def Delete.loadTuple : Except String Delete :=
  if d.entry.coversTuple tid then .ok d
  else
    match d.leave with
    | .error err => .error err
    | .ok d => d.find tid

/-- `AppendOnlyVisimapDelete_Hide`. -/
def Delete.hide : Except String (TMResult × Delete) :=
  match d.loadTuple tid with
  | .error err => .error err
  | .ok d => .ok ((d.entry.hideTuple tid).1, { d with entry := (d.entry.hideTuple tid).2 })

end

/-- `AppendOnlyVisimapDelete_IsVisible`. -/
def Delete.isVisible (d : Delete) (tid : AOTupleId) : Except String (Bool × Delete) :=
  match d.loadTuple tid with
  | .error err => .error err
  | .ok d => .ok (d.entry.isVisible tid, d)

/-! ## What is hidden -/

structure Encodes (bytes : List (BitVec 8)) (bitmap : Bitmapset) : Prop where
  ok : BmsOk bitmap
  length : bytes.length ≤ VISIMAP_DATA_SIZE
  read : ∀ junk state, readData state (bytes ++ junk) bytes.length = .ok bitmap

def TupleHas (bitmap : Bitmapset) : Option VisimapTuple → Prop
  | none => bitmap = none
  | some t =>
    match t.visimap with
    | none => bitmap = none
    | some bytes => Encodes bytes bitmap

/-- The relation has the bitmap under the key. -/
def StoredAs (key : VisimapKey) (bitmap : Bitmapset) : Prop :=
  TupleHas bitmap (rows.find? fun t => t.key = key)

/-- Every bitmap of the relation can be read. -/
def StoreOk : Prop := ∀ t ∈ rows, ∃ bitmap, TupleHas bitmap (some t)

/-- The offset of a row in its entry. -/
def AOTupleId.visimapOffset (tid : AOTupleId) : Nat := tid.rowNum % APPENDONLY_VISIMAP_MAX_RANGE

/-- The visibility map hides the row. -/
def StoredHidden (tid : AOTupleId) : Prop :=
  ∃ bitmap, StoredAs rows tid.visimapKey bitmap ∧ bmsIsMember tid.visimapOffset bitmap = true

/-- One of the rows is in the entry. -/
def Touched (hidden : List AOTupleId) (key : VisimapKey) : Prop := ∃ t ∈ hidden, t.visimapKey = key

/-- The bitmap has the rows of the relation and the ones in `hidden`. -/
structure Right (hidden : List AOTupleId) (key : VisimapKey) (bitmap : Bitmapset) : Prop where
  ok : BmsOk bitmap
  mem : ∀ x, bmsIsMember x bitmap = true ↔
    (∃ stored, StoredAs rows key stored ∧ bmsIsMember x stored = true) ∨
      ∃ t ∈ hidden, t.visimapKey = key ∧ t.visimapOffset = x

theorem APPENDONLY_VISIMAP_MAX_RANGE_eq : APPENDONLY_VISIMAP_MAX_RANGE = 32768 := rfl

theorem AOTupleId.visimapOffset_lt (tid : AOTupleId) :
    tid.visimapOffset < APPENDONLY_VISIMAP_MAX_RANGE :=
  Nat.mod_lt _ (by decide)

variable {tid : AOTupleId} {bitmap : Bitmapset} {rows : List VisimapTuple} {hidden : List AOTupleId}
  {key : VisimapKey}

theorem AOTupleId.eq_of_visimapKey {t : AOTupleId} (hkey : t.visimapKey = tid.visimapKey)
    (hoff : t.visimapOffset = tid.visimapOffset) : t = tid := by
  obtain ⟨hseg, hrow⟩ := VisimapKey.mk.inj hkey
  have hrow' := Int.ofNat_inj.1 hrow
  simp only [visimapOffset, APPENDONLY_VISIMAP_MAX_RANGE_eq] at hoff hrow'
  rw [mk.injEq]
  exact ⟨Int.ofNat_inj.1 hseg, by omega⟩

theorem Encodes.unique {bytes : List (BitVec 8)} {bitmap' : Bitmapset} (h : Encodes bytes bitmap)
    (h' : Encodes bytes bitmap') : bitmap = bitmap' :=
  Except.ok.inj ((h.read [] unsetState).symm.trans (h'.read [] unsetState))

theorem TupleHas.unique {t : Option VisimapTuple} {bitmap' : Bitmapset} (h : TupleHas bitmap t)
    (h' : TupleHas bitmap' t) : bitmap = bitmap' := by
  cases t with
  | none => exact Eq.trans h (Eq.symm h')
  | some t =>
    obtain ⟨key, visimap⟩ := t
    cases visimap with
    | none => exact Eq.trans h (Eq.symm h')
    | some bytes => exact Encodes.unique h h'

theorem storedAs_exists (hrows : StoreOk rows) (key : VisimapKey) :
    ∃ bitmap, StoredAs rows key bitmap := by
  unfold StoredAs
  cases hf : rows.find? fun t => t.key = key with
  | none => exact ⟨none, rfl⟩
  | some t => exact hrows t (mem_of_find?_eq_some hf)

theorem TupleHas.ok {t : Option VisimapTuple} (h : TupleHas bitmap t) : BmsOk bitmap := by
  unfold TupleHas at h
  split at h
  · rw [h]
    exact bmsOk_none
  split at h
  · rw [h]
    exact bmsOk_none
  · exact h.ok

theorem StoredAs.right
    (h : StoredAs rows key bitmap) (hnot : ¬ Touched hidden key) :
    Right rows hidden key bitmap := by
  refine ⟨TupleHas.ok h, fun x => ⟨fun hx => .inl ⟨bitmap, h, hx⟩, ?_⟩⟩
  rintro (⟨stored, hs, hx⟩ | ⟨t, ht, hkey, -⟩)
  · rwa [TupleHas.unique h hs]
  · exact absurd ⟨t, ht, hkey⟩ hnot

theorem Right.snoc_of_ne (h : Right rows hidden key bitmap) (hne : tid.visimapKey ≠ key) :
    Right rows (hidden ++ [tid]) key bitmap := by
  refine ⟨h.ok, fun x => (h.mem x).trans (or_congr_right ?_)⟩
  constructor
  · rintro ⟨t, ht, hrest⟩
    exact ⟨t, mem_append_left _ ht, hrest⟩
  rintro ⟨t, ht, hkey, hx⟩
  rcases mem_append.1 ht with ht | ht
  · exact ⟨t, ht, hkey, hx⟩
  · rw [mem_singleton.1 ht] at hkey
    exact absurd hkey hne

theorem touched_snoc : Touched (hidden ++ [tid]) key ↔ Touched hidden key ∨
    tid.visimapKey = key := by
  simp [Touched, or_and_right, exists_or]

theorem Right.hide (h : Right rows hidden tid.visimapKey bitmap) :
    Right rows (hidden ++ [tid]) tid.visimapKey (hideOffset bitmap tid.visimapOffset) := by
  obtain ⟨hok, hmem⟩ := hideOffset_spec h.ok tid.visimapOffset_lt
  refine ⟨hok, fun x => ?_⟩
  rw [hmem, Bool.or_eq_true, decide_eq_true_iff, h.mem x, or_assoc]
  refine or_congr_right ⟨?_, ?_⟩
  · rintro (⟨t, ht, hrest⟩ | hx)
    · exact ⟨t, mem_append_left _ ht, hrest⟩
    · exact ⟨tid, by simp, rfl, hx.symm⟩
  rintro ⟨t, ht, hkey, hx⟩
  rcases mem_append.1 ht with ht | ht
  · exact .inl ⟨t, ht, hkey, hx⟩
  · rw [mem_singleton.1 ht] at hx
    exact .inr hx.symm

theorem Right.mem_iff (h : Right rows hidden tid.visimapKey bitmap) :
    bmsIsMember tid.visimapOffset bitmap = true ↔ StoredHidden rows tid ∨ tid ∈ hidden := by
  rw [h.mem]
  refine or_congr Iff.rfl ⟨?_, fun ht => ⟨tid, ht, rfl, rfl⟩⟩
  rintro ⟨t, ht, hkey, hoff⟩
  rwa [← eq_of_visimapKey hkey hoff]

/-! ## The invariant -/

section Invariant

variable {rows : List VisimapTuple} {hidden : List AOTupleId} {d : Delete}

section

variable (rows : List VisimapTuple)

/-- What the work file or the relation has for an entry that is not the current one. -/
def Elsewhere (hidden : List AOTupleId) (d : Delete) (key : VisimapKey) : Prop :=
  match d.dirtyEntryCache key with
  | none => ¬ Touched hidden key
  | some r => Touched hidden key ∧ r.tupleTid = findTid rows key ∧
      ∃ i bytes bitmap, r.workFileOffset = some i ∧ d.workfile[i]? = some (key, bytes) ∧
        Encodes bytes bitmap ∧ Right rows hidden key bitmap

/-- What the current entry is like. -/
structure Current (hidden : List AOTupleId) (d : Delete) : Prop where
  aligned : ∃ tid : AOTupleId, d.entry.key = tid.visimapKey
  right : Right rows hidden d.entry.key d.entry.bitmap
  tid : d.entry.tupleTid = findTid rows d.entry.key
  dirty : d.entry.dirty = true ↔ Touched hidden d.entry.key
  clean : d.entry.dirty = false → d.dirtyEntryCache d.entry.key = none

/-- What holds whichever entry is loaded. -/
structure Files (d : Delete) : Prop where
  rows_eq : d.rows = rows
  data : d.entry.data.length = VISIMAP_DATA_SIZE
  records : ∀ key bytes, (key, bytes) ∈ d.workfile → d.dirtyEntryCache key ≠ none ∧
    bytes.length ≤ VISIMAP_DATA_SIZE

/-- **The invariant** of a command that has hidden the rows in `hidden`. -/
structure Delete.Inv (hidden : List AOTupleId) (d : Delete) : Prop where
  files : Files rows d
  current : d.entry.isValid = true → Current rows hidden d
  unloaded : d.entry.isValid = false → d.entry.dirty = false
  others : ∀ key, (d.entry.isValid = true → d.entry.key ≠ key) → Elsewhere rows hidden d key

theorem Delete.Inv.init : Inv rows [] (.init rows) where
  files := ⟨rfl, by simp [Delete.init, VisimapEntry.init], by simp [Delete.init]⟩
  current := fun h => Bool.noConfusion h
  unloaded := fun _ => rfl
  others := fun key _ => by
    rintro ⟨t, ht, -⟩
    cases ht

end

variable {e : VisimapEntry} {tid : AOTupleId}

theorem visimapKey_isValid (h : e.key = tid.visimapKey) : e.isValid = true := by
  unfold isValid
  rw [h, Bool.and_eq_true]
  exact ⟨decide_eq_true (Int.natCast_nonneg _), decide_eq_true (Int.natCast_nonneg _)⟩

theorem coversTuple_iff {t : AOTupleId} (h : e.key = t.visimapKey) :
    e.coversTuple tid = true ↔ e.key = tid.visimapKey := by
  unfold coversTuple
  rw [visimapKey_isValid h, h, Bool.true_and, Bool.and_eq_true, Bool.and_eq_true,
    decide_eq_true_iff, decide_eq_true_iff, decide_eq_true_iff]
  simp only [visimapKey, VisimapKey.mk.injEq, APPENDONLY_VISIMAP_MAX_RANGE_eq]
  omega

theorem encodes_writeData {bitmap : Bitmapset} (hok : BmsOk bitmap) {data : List (BitVec 8)}
    (hdata : data.length = VISIMAP_DATA_SIZE) :
    ∃ data' size, writeData bitmap data = .ok (data', size) ∧ data'.length = VISIMAP_DATA_SIZE ∧
      Encodes (data'.take size) bitmap := by
  obtain ⟨data', size, hwrite, hlen, hsize, hread⟩ := readData_writeData hok hdata
  have htake : (data'.take size).length = size := by
    rw [length_take, hlen]
    exact Nat.min_eq_left hsize
  refine ⟨data', size, hwrite, hlen, hok, by rw [htake]; exact hsize, fun junk state => ?_⟩
  rw [htake]
  exact hread junk state

theorem exists_encodes (offsets : List Nat)
    (h : ∀ offset ∈ offsets, offset < APPENDONLY_VISIMAP_MAX_RANGE) :
    ∃ bytes, Encodes bytes (hideOffsets offsets) := by
  obtain ⟨data, size, -, -, henc⟩ :=
    encodes_writeData (hideOffsets_ok h) (length_replicate (a := 0))
  exact ⟨_, henc⟩

theorem Delete.Inv.leave (h : Inv rows hidden d) :
    ∃ d', d.leave = .ok d' ∧ Files rows d' ∧ d'.entry.dirty = false ∧
    ∀ key, Elsewhere rows hidden d' key := by
  unfold Delete.leave
  cases hd : d.entry.dirty with
  | false =>
    refine ⟨d, rfl, h.files, hd, fun key => ?_⟩
    by_cases hkey : d.entry.isValid = true ∧ d.entry.key = key
    · obtain ⟨hv, rfl⟩ := hkey
      have hcur := h.current hv
      unfold Elsewhere
      rw [hcur.clean hd]
      intro ht
      rw [hcur.dirty.2 ht] at hd
      cases hd
    · exact h.others key fun hv he => hkey ⟨hv, he⟩
  | true =>
    have hv : d.entry.isValid = true := by
      by_contra hv
      rw [h.unloaded (Bool.eq_false_of_not_eq_true hv)] at hd
      cases hd
    have hcur := h.current hv
    obtain ⟨data', size, hwrite, hlen, henc⟩ := encodes_writeData hcur.right.ok h.files.data
    unfold stash
    rw [if_pos rfl, hwrite]
    refine ⟨_, rfl, ⟨h.files.rows_eq, hlen, ?_⟩, rfl, fun key => ?_⟩
    · intro key bytes hmem
      dsimp only at hmem ⊢
      by_cases hkey : key = d.entry.key
      · rcases mem_append.1 hmem with hmem | hmem
        · exact ⟨by simp [hkey], (h.files.records key bytes hmem).2⟩
        · rw [Prod.mk.inj (mem_singleton.1 hmem) |>.2]
          exact ⟨by simp [hkey], henc.length⟩
      · rcases mem_append.1 hmem with hmem | hmem
        · rw [Function.update_of_ne hkey]
          exact h.files.records key bytes hmem
        · exact absurd (Prod.mk.inj (mem_singleton.1 hmem)).1 hkey
    · unfold Elsewhere
      dsimp only
      by_cases hkey : key = d.entry.key
      · rw [hkey, Function.update_self]
        exact ⟨hcur.dirty.1 hd, hcur.tid, d.workfile.length, data'.take size, d.entry.bitmap,
          rfl, by simp, henc, hcur.right⟩
      rw [Function.update_of_ne hkey]
      have hother := h.others key fun _ he => hkey he.symm
      unfold Elsewhere at hother
      cases hc : d.dirtyEntryCache key with
      | none =>
        rw [hc] at hother
        exact hother
      | some r =>
        rw [hc] at hother
        obtain ⟨ht, htid, i, bytes, bitmap, hi, hrec, hrest⟩ := hother
        refine ⟨ht, htid, i, bytes, bitmap, hi, ?_, hrest⟩
        rw [getElem?_append_left (List.getElem?_eq_some_iff.1 hrec).1]
        exact hrec

theorem readData_encodes {bytes : List (BitVec 8)} {bitmap : Bitmapset} (h : Encodes bytes bitmap)
    (e : VisimapEntry) (hdata : e.data.length = VISIMAP_DATA_SIZE) :
    readData unsetState (bytes ++ e.data.drop bytes.length) bytes.length = .ok bitmap ∧
      (bytes ++ e.data.drop bytes.length).length = VISIMAP_DATA_SIZE := by
  refine ⟨h.read _ _, ?_⟩
  have hle := h.length
  rw [length_append, length_drop, hdata]
  omega

theorem findTid_spec (rows : List VisimapTuple) (key : VisimapKey) :
    (findTid rows key = none ∧ rows.find? (fun t => t.key = key) = none) ∨
      ∃ i t, findTid rows key = some i ∧ rows[i]? = some t ∧ t.key = key ∧
      rows.find? (fun t => t.key = key) = some t := by
  unfold findTid
  induction rows with
  | nil => exact .inl ⟨rfl, rfl⟩
  | cons t rows ih =>
    by_cases ht : t.key = key
    · exact .inr ⟨0, t, by simp [findIdx?_cons, ht], rfl, ht, by simp [ht]⟩
    rw [find?_cons_of_neg (by simpa using ht), findIdx?_cons]
    simp only [ht, decide_false, Bool.false_eq_true, if_false]
    rcases ih with ⟨h1, h2⟩ | ⟨i, u, h1, h2, h3, h4⟩
    · exact .inl ⟨by rw [h1]; rfl, h2⟩
    · exact .inr ⟨i + 1, u, by rw [h1]; rfl, h2, h3, h4⟩

theorem Delete.Inv.of_find (hrows : StoreOk rows) (hfiles : Files rows d)
    (hdirty : d.entry.dirty = false) (helse : ∀ key, Elsewhere rows hidden d key)
    (tid : AOTupleId) : ∃ d', d.find tid = .ok d' ∧ Inv rows hidden d' ∧
    d'.entry.key = tid.visimapKey := by
  obtain rfl := hfiles.rows_eq
  -- an entry that is right can be loaded
  have hload : ∀ e : VisimapEntry, e.key = tid.visimapKey → e.data.length = VISIMAP_DATA_SIZE →
      Right d.rows hidden tid.visimapKey e.bitmap → e.tupleTid = findTid d.rows tid.visimapKey →
      (e.dirty = true ↔ Touched hidden tid.visimapKey) →
      (e.dirty = false → d.dirtyEntryCache tid.visimapKey = none) →
      Inv d.rows hidden { d with entry := e } := by
    intro e hkey hdata hright htid hd hc
    have hv := visimapKey_isValid hkey
    refine ⟨⟨rfl, hdata, hfiles.records⟩, fun _ => ⟨⟨tid, hkey⟩, ?_, ?_, ?_, ?_⟩, fun hf => ?_,
      fun key _ => helse key⟩
    · rw [← hkey] at hright
      exact hright
    · rw [← hkey] at htid
      exact htid
    · rw [← hkey] at hd
      exact hd
    · rw [← hkey] at hc
      exact hc
    · rw [show ({ d with entry := e } : Delete).entry.isValid = true from hv] at hf
      cases hf
  have hown := helse tid.visimapKey
  unfold find
  unfold Elsewhere at hown
  cases hc : d.dirtyEntryCache tid.visimapKey with
  | some r =>
    rw [hc] at hown
    obtain ⟨ht, htid, i, bytes, bitmap, hi, hrec, henc, hright⟩ := hown
    obtain ⟨hread, hlen⟩ := readData_encodes henc d.entry hfiles.data
    refine ⟨{ d with
      entry := ⟨tid.visimapKey, bitmap, true, bytes ++
        d.entry.data.drop bytes.length, r.tupleTid⟩ }, ?_, ?_, rfl⟩
    · simp [unstash, rebuild, hi, hrec, hread]
    · exact hload _ rfl hlen hright htid (iff_of_true rfl ht) nofun
  | none =>
    rw [hc] at hown
    obtain ⟨bitmap, hstored⟩ := storedAs_exists hrows tid.visimapKey
    have hright := hstored.right hown
    have hclean : d.entry.dirty = true ↔ Touched hidden tid.visimapKey := by
      rw [hdirty]
      exact iff_of_false Bool.false_ne_true hown
    unfold storeFind
    rcases findTid_spec d.rows tid.visimapKey with ⟨hnone, hfind⟩ | ⟨i, t, htid, hget, hkey, hfind⟩
    · unfold StoredAs at hstored
      rw [hfind] at hstored
      rw [hnone]
      refine ⟨{ d with entry := d.entry.new tid }, rfl,
        hload _ rfl hfiles.data ?_ hnone.symm hclean fun _ => hc, rfl⟩
      rw [hstored] at hright
      exact hright
    · unfold StoredAs at hstored
      rw [hfind] at hstored
      rw [htid]
      simp only [hget]
      unfold TupleHas at hstored
      unfold copyout
      cases hnull : t.visimap with
      | none =>
        simp only [hnull] at hstored
        rw [hstored] at hright
        exact ⟨_, rfl, hload ⟨t.key, none, d.entry.dirty, d.entry.data, some i⟩ hkey hfiles.data
          hright htid.symm hclean fun _ => hc, hkey⟩
      | some bytes =>
        simp only [hnull] at hstored
        obtain ⟨hread, hlen⟩ := readData_encodes hstored d.entry hfiles.data
        simp only [hread]
        exact ⟨_, rfl, hload ⟨t.key, bitmap, d.entry.dirty, _, some i⟩ hkey hlen hright htid.symm
          hclean fun _ => hc, hkey⟩

/-- **Loading a tuple** keeps the invariant, and the current entry is that of the tuple. -/
theorem Delete.Inv.loadTuple (hrows : StoreOk rows) (h : Inv rows hidden d) (tid : AOTupleId) :
    ∃ d', d.loadTuple tid = .ok d' ∧ Inv rows hidden d' ∧ d'.entry.key = tid.visimapKey := by
  unfold Delete.loadTuple
  by_cases hcov : d.entry.coversTuple tid = true
  · rw [if_pos hcov]
    have hv : d.entry.isValid = true := by
      unfold coversTuple at hcov
      simp only [Bool.and_eq_true] at hcov
      exact hcov.1.1.1
    obtain ⟨t, ht⟩ := (h.current hv).aligned
    exact ⟨d, rfl, h, (coversTuple_iff ht).1 hcov⟩
  · rw [if_neg hcov]
    obtain ⟨d', hleave, hfiles, hdirty, helse⟩ := h.leave
    rw [hleave]
    exact Inv.of_find hrows hfiles hdirty helse tid

theorem rownumOffset_eq (h : e.key = tid.visimapKey) : e.rownumOffset tid = tid.visimapOffset := by
  unfold rownumOffset visimapOffset
  rw [h]
  simp only [visimapKey, APPENDONLY_VISIMAP_MAX_RANGE_eq]
  omega

theorem hideTuple_spec (hok : BmsOk e.bitmap) (hkey : e.key = tid.visimapKey) :
    (e.hideTuple tid).2 = { e with
      bitmap := hideOffset e.bitmap tid.visimapOffset,
      dirty := true } ∧ (e.hideTuple tid).1 = if bmsIsMember tid.visimapOffset e.bitmap then
        (if e.dirty then .TM_SelfModified else .TM_Updated) else .TM_Ok := by
  obtain ⟨words, he, -, -, hmem⟩ := enlarge_spec hok tid.visimapOffset_lt
  unfold hideTuple hideOffset
  dsimp only
  rw [rownumOffset_eq hkey, he]
  cases hbit : bmsIsMember tid.visimapOffset e.bitmap <;> simp [hmem, hbit]

/-- **Hiding a row**: the invariant with the row, and the answer. -/
theorem Delete.Inv.hide (hrows : StoreOk rows) (h : Inv rows hidden d) (tid : AOTupleId) :
    ∃ d' r, d.hide tid = .ok (r, d') ∧ Inv rows (hidden ++ [tid]) d' ∧
      (r = .TM_Ok ↔ ¬ (StoredHidden rows tid ∨ tid ∈ hidden)) ∧
      (r = .TM_SelfModified ↔ (StoredHidden rows tid ∨ tid ∈ hidden) ∧
      Touched hidden tid.visimapKey) ∧
      (r = .TM_Updated ↔ (StoredHidden rows tid ∨ tid ∈ hidden) ∧
      ¬ Touched hidden tid.visimapKey) := by
  obtain ⟨d₁, hload, hinv, hkey⟩ := h.loadTuple hrows tid
  have hv := visimapKey_isValid hkey
  have hcur := hinv.current hv
  have hright : Right rows hidden tid.visimapKey d₁.entry.bitmap := by
    rw [← hkey]
    exact hcur.right
  have hdirty : d₁.entry.dirty = true ↔ Touched hidden tid.visimapKey := by
    rw [← hkey]
    exact hcur.dirty
  obtain ⟨hentry, hres⟩ := hideTuple_spec hright.ok hkey
  unfold Delete.hide
  rw [hload]
  refine ⟨_, _, rfl, ⟨⟨hinv.files.rows_eq, ?_, hinv.files.records⟩, fun _ => ⟨?_, ?_, ?_, ?_, ?_⟩,
    fun hf => ?_, fun key hne => ?_⟩, ?_⟩
  · rw [hentry]
    exact hinv.files.data
  · rw [hentry]
    exact ⟨tid, hkey⟩
  · rw [hentry, hkey]
    exact hright.hide
  · rw [hentry]
    exact hcur.tid
  · rw [hentry, hkey]
    exact iff_of_true rfl (touched_snoc.2 (.inr rfl))
  · rw [hentry]
    intro hf
    cases hf
  · rw [hentry] at hf
    exact absurd hv (by rw [show d₁.entry.isValid = false from hf]; exact Bool.false_ne_true)
  · -- the other entries do not see the row
    rw [hentry] at hne
    have hne' : tid.visimapKey ≠ key := by
      rw [← hkey]
      exact hne hv
    have hother := hinv.others key fun _ => by rw [hkey]; exact hne'
    unfold Elsewhere at hother ⊢
    cases hc : d₁.dirtyEntryCache key with
    | none =>
      rw [hc] at hother
      exact fun ht => (touched_snoc.1 ht).elim hother hne'
    | some r =>
      rw [hc] at hother
      obtain ⟨ht, htid, i, bytes, bitmap, hi, hrec, henc, hr⟩ := hother
      exact ⟨touched_snoc.2 (.inl ht), htid, i, bytes, bitmap, hi, hrec, henc, hr.snoc_of_ne hne'⟩
  · rw [hres, ← hright.mem_iff, ← hdirty]
    cases bmsIsMember tid.visimapOffset d₁.entry.bitmap <;> cases d₁.entry.dirty <;> simp

end Invariant

/-! ## The answers of one command -/

/-- The rows are hidden one after the other. -/
def Delete.hideAll : List AOTupleId → Delete → Except String Delete
  | [], d => .ok d
  | tid :: tids, d =>
    match d.hide tid with
    | .error err => .error err
    | .ok (_, d) => d.hideAll tids

theorem Delete.Inv.hideAll (hrows : StoreOk rows) {d : Delete}
    (h : Inv rows hidden d) (tids : List AOTupleId) :
    ∃ d', hideAll tids d = .ok d' ∧ Inv rows (hidden ++ tids) d' := by
  induction tids generalizing hidden d with
  | nil => exact ⟨d, rfl, by rwa [append_nil]⟩
  | cons tid tids ih =>
    obtain ⟨d₁, r, hhide, hinv, -⟩ := h.hide hrows tid
    obtain ⟨d', hrest, hinv'⟩ := ih hinv
    refine ⟨d', ?_, by rwa [append_assoc] at hinv'⟩
    rw [hideAll, hhide]
    exact hrest

/-- The answer tells a visible row, a row that an earlier call has hidden, and a row that was hidden
before the command. -/
def RightAnswer (rows : List VisimapTuple) (earlier : List AOTupleId) (tid : AOTupleId)
    (r : TMResult) : Prop :=
  (r = .TM_Ok ↔ ¬ StoredHidden rows tid ∧ tid ∉ earlier) ∧
    (r = .TM_SelfModified ↔ ¬ StoredHidden rows tid ∧ tid ∈ earlier) ∧
    (r = .TM_Updated ↔ StoredHidden rows tid)

/-- **The answers of `hide`.**  A call is answered, and rightly unless the row was hidden before the
command and an earlier call was for a row of the same entry. -/
theorem visimapDelete_results_iff (rows : List VisimapTuple) (hrows : StoreOk rows)
    (earlier : List AOTupleId) (tid : AOTupleId) :
    ∃ d r d', hideAll earlier (.init rows) = .ok d ∧ d.hide tid = .ok (r, d') ∧
      (RightAnswer rows earlier tid r ↔
      ¬ (StoredHidden rows tid ∧ Touched earlier tid.visimapKey)) := by
  obtain ⟨d, hall, hinv⟩ := (Inv.init rows).hideAll hrows earlier
  obtain ⟨d', r, hhide, -, hok, hself, hupd⟩ := hinv.hide hrows tid
  refine ⟨d, r, d', hall, hhide, ?_⟩
  have htouch : tid ∈ earlier → Touched earlier tid.visimapKey := fun h => ⟨tid, h, rfl⟩
  unfold RightAnswer
  rw [hok, hself, hupd]
  constructor
  · rintro ⟨-, -, hright⟩ ⟨hstored, htouched⟩
    exact (hright.mpr hstored).2 htouched
  intro hnot
  refine ⟨not_or, ⟨fun h => ?_, fun h => ⟨.inr h.2, htouch h.2⟩⟩,
    ⟨fun h => ?_, fun h => ⟨.inl h, fun ht => hnot ⟨h, ht⟩⟩⟩⟩
  · have hstored : ¬ StoredHidden rows tid := fun hstored => hnot ⟨hstored, h.2⟩
    exact ⟨hstored, h.1.resolve_left hstored⟩
  · exact h.1.resolve_right fun hearlier => h.2 (htouch hearlier)

/-- A row that was hidden before the command, after a row of another entry. -/
theorem visimapDelete_results_stored : ∃ bytes d r d',
    StoredHidden [⟨⟨1, 0⟩, some bytes⟩] ⟨1, 5⟩ ∧
    hideAll [⟨1, 40000⟩] (.init [⟨⟨1, 0⟩, some bytes⟩]) = .ok d ∧ d.hide ⟨1, 5⟩ = .ok (r, d') ∧
    r = .TM_Updated := by
  obtain ⟨bytes, henc⟩ := exists_encodes [5] (by decide)
  have hstored : StoredHidden [⟨⟨1, 0⟩, some bytes⟩] ⟨1, 5⟩ := ⟨_, henc, rfl⟩
  obtain ⟨d, r, d', hall, hhide, hiff⟩ :=
    visimapDelete_results_iff [⟨⟨1, 0⟩, some bytes⟩] (forall_mem_singleton.mpr ⟨_, henc⟩)
    [⟨1, 40000⟩] ⟨1, 5⟩
  have hright := hiff.2 fun ⟨_, t, ht, hkey⟩ => by
    rw [mem_singleton.mp ht] at hkey
    revert hkey
    decide
  exact ⟨bytes, d, r, d', hstored, hall, hhide, hright.2.2.mpr hstored⟩

/-- Row 5 was hidden before the command.  The command hides row 6 and then row 5: it is told that it
hid row 5 itself. -/
theorem visimapDelete_selfModified :
    (hide (.init [⟨⟨1, 0⟩, some [0x80, 1, 0xC0, 0, 0, 8, 0]⟩]) ⟨1, 6⟩).toOption.map (·.1) =
      some .TM_Ok ∧ (hide (.init [⟨⟨1, 0⟩, some [0x80, 1, 0xC0, 0, 0, 8, 0]⟩]) ⟨1, 5⟩).toOption.map
      (·.1) = some .TM_Updated ∧
        ((hideAll [⟨1, 6⟩] (.init [⟨⟨1, 0⟩, some [0x80, 1, 0xC0, 0, 0, 8, 0]⟩])).bind
        (·.hide ⟨1, 5⟩)).toOption.map (·.1) = some .TM_SelfModified := by
  decide +kernel

end PolemoDB.AppendOnly
