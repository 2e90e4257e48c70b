import PolemoDB.AppendOnly.VisimapDelete

/-!
# Writing the visibility map back (`AppendOnlyVisimapDelete_Finish`)

The current entry is written to the relation first, then the work file is read from its start and
the last record of every entry is written.

* `Back` — the invariant of the pass over the work file: an entry has still to be written and its
  record is ahead, or the relation has it as it should be.
* `visimapDelete_finish` — the relation hides the rows it hid before and those that were passed to
  `hide`.
-/

namespace PolemoDB.AppendOnly

open PolemoDB.Misc List Delete

/-! ## The code -/

/-- `AppendOnlyVisimapEntry_Write`. -/
def VisimapEntry.write (e : VisimapEntry) : Except String (VisimapTuple × VisimapEntry) :=
  if bmsIsEmpty e.bitmap then .ok (⟨e.key, none⟩, { e with dirty := false })
  else
    match writeData e.bitmap e.data with
    | .error err => .error err
    | .ok (data, size) => .ok
      (⟨e.key, some (data.take size)⟩, { e with data := data, dirty := false })

/-- `CatalogTupleUpdate` or, without a tuple id, `CatalogTupleInsert`. -/
def putTuple (rows : List VisimapTuple) (tid : Option Nat) (t : VisimapTuple) : List VisimapTuple :=
  match tid with
  | some i => rows.set i t
  | none => rows ++ [t]

/-- `AppendOnlyVisimapStore_Store`. -/
def Delete.store (d : Delete) : Except String Delete :=
  match d.entry.write with
  | .error err => .error err
  | .ok (t, e) => .ok { d with
    rows := putTuple d.rows d.entry.tupleTid t, entry := { e with tupleTid := none } }

/-- `AppendOnlyVisimapDelete_WriteBackStashedEntries`, from a position on. -/
def Delete.writeBackStashedEntries (pos : Nat) : List (VisimapKey × List (BitVec 8)) → Delete →
    Except String Delete
  | [], d => .ok d
  | (key, bytes) :: rest, d =>
    match d.dirtyEntryCache key with
    | none => .error "Found a stashed visimap entry without corresponding meta data"
    | some r =>
      if r.workFileOffset ≠ some pos then
        -- an older version, which is left in the buffer of the entry
        writeBackStashedEntries (pos + 1) rest
          { d with entry := { d.entry with data := bytes ++ d.entry.data.drop bytes.length } }
      else
        match d.entry.rebuild key bytes r.tupleTid with
        | .error err => .error err
        | .ok e =>
          match store { d with entry := e } with
          | .error err => .error err
          | .ok d => writeBackStashedEntries (pos + 1) rest d

/-- The current entry is written, and its record in the work file, if it has one, is no longer
needed. -/
def Delete.storeCurrent (d : Delete) : Except String Delete :=
  if d.entry.dirty then
    match d.store with
    | .error err => .error err
    | .ok d' =>
      .ok { d' with
        dirtyEntryCache := Function.update d'.dirtyEntryCache d.entry.key
          ((d'.dirtyEntryCache d.entry.key).map fun _ => ⟨none, none⟩) }
  else .ok d

/-- `AppendOnlyVisimapDelete_Finish`. -/
def Delete.finish (d : Delete) : Except String (List VisimapTuple) :=
  match d.storeCurrent with
  | .error err => .error err
  | .ok d =>
    match writeBackStashedEntries 0 d.workfile d with
    | .error err => .error err
    | .ok d => .ok d.rows

/-- A call during the command. -/
inductive VisimapCall where
  | hide (tid : AOTupleId)
  | isVisible (tid : AOTupleId)
deriving DecidableEq, Repr

/-- One call, with the answer if it is a question. -/
def Delete.call (d : Delete) : VisimapCall → Except String (Option Bool × Delete)
  | .hide tid =>
    match d.hide tid with
    | .error err => .error err
    | .ok (_, d) => .ok (none, d)
  | .isVisible tid =>
    match d.isVisible tid with
    | .error err => .error err
    | .ok (visible, d) => .ok (some visible, d)

/-- The calls of a command, with the answers. -/
def Delete.run : List VisimapCall → Delete → Except String (List (Option Bool) × Delete)
  | [], d => .ok ([], d)
  | c :: calls, d =>
    match d.call c with
    | .error err => .error err
    | .ok (answer, d) =>
      match run calls d with
      | .error err => .error err
      | .ok (answers, d) => .ok (answer :: answers, d)

/-! ## The calls -/

def hiddenBy : List VisimapCall → List AOTupleId
  | [] => []
  | .hide tid :: calls => tid :: hiddenBy calls
  | .isVisible _ :: calls => hiddenBy calls

theorem mem_hiddenBy {tid : AOTupleId} {calls : List VisimapCall} : tid ∈ hiddenBy calls ↔
    .hide tid ∈ calls := by
  induction calls with
  | nil => simp [hiddenBy]
  | cons c calls ih => cases c <;> simp [hiddenBy, ih]

theorem bmsIsMember_of_isEmpty {bitmap : Bitmapset} (h : bmsIsEmpty bitmap = true) (x : Nat) :
    bmsIsMember x bitmap = false := by
  cases bitmap with
  | none => rfl
  | some words =>
    simp only [bmsIsEmpty, all_eq_true, beq_iff_eq] at h
    unfold bmsIsMember
    dsimp only
    by_cases hx : x / 64 ≥ words.length
    · rw [if_pos hx]
    · rw [if_neg hx, getD_eq_getElem _ _ (Nat.lt_of_not_ge hx), h _ (getElem_mem _)]
      simp

variable {rows : List VisimapTuple}

section

variable {hidden : List AOTupleId} {d : Delete} (hrows : StoreOk rows) (h : Inv rows hidden d)
include hrows h

theorem Delete.Inv.isVisible (tid : AOTupleId) : ∃ d' b, d.isVisible tid = .ok (b, d') ∧
      Inv rows hidden d' ∧ (b = true ↔ ¬ (StoredHidden rows tid ∨ tid ∈ hidden)) := by
  obtain ⟨d', hload, hinv, hkey⟩ := h.loadTuple hrows tid
  have hright := (hinv.current (visimapKey_isValid hkey)).right
  rw [hkey] at hright
  refine ⟨d', d'.entry.isVisible tid, by unfold Delete.isVisible; rw [hload], hinv, ?_⟩
  rw [← hright.mem_iff]
  unfold VisimapEntry.isVisible
  rw [rownumOffset_eq hkey]
  cases he : bmsIsEmpty d'.entry.bitmap with
  | true => simp [bmsIsMember_of_isEmpty he]
  | false => simp

/-- **The calls of a command** keep the invariant, and every question is answered by the rows hidden
so far. -/
theorem Delete.Inv.run (calls : List VisimapCall) :
    ∃ answers d', run calls d = .ok (answers, d') ∧ Inv rows (hidden ++ hiddenBy calls) d' ∧
      ∀ i tid, calls[i]? = some (.isVisible tid) → ∃ b, answers[i]? = some (some b) ∧
          (b = true ↔ ¬ (StoredHidden rows tid ∨ tid ∈ hidden ∨ .hide tid ∈ calls.take i)) := by
  induction calls generalizing hidden d with
  | nil => exact ⟨[], d, rfl, by rwa [hiddenBy, append_nil], fun i tid hi => by simp at hi⟩
  | cons c calls ih =>
    cases c with
    | hide tid =>
      obtain ⟨d₁, r, hhide, hinv, -⟩ := h.hide hrows tid
      obtain ⟨answers, d', hrun, hinv', hans⟩ := ih hinv
      refine ⟨none :: answers, d', by simp [Delete.run, Delete.call, hhide, hrun], ?_,
        fun i t hi => ?_⟩
      · rwa [append_assoc] at hinv'
      cases i with
      | zero => cases hi
      | succ i =>
        obtain ⟨b, hb, hiff⟩ := hans i t hi
        refine ⟨b, hb, hiff.trans (not_congr ?_)⟩
        simp only [mem_append, take_succ_cons, mem_cons, not_mem_nil, or_false,
          VisimapCall.hide.injEq, or_assoc]
    | isVisible tid =>
      obtain ⟨d₁, b, hvis, hinv, hb⟩ := h.isVisible hrows tid
      obtain ⟨answers, d', hrun, hinv', hans⟩ := ih hinv
      refine ⟨some b :: answers, d', by simp [Delete.run, Delete.call, hvis, hrun], hinv',
        fun i t hi => ?_⟩
      cases i with
      | zero =>
        cases hi
        exact ⟨b, rfl, by simpa using hb⟩
      | succ i =>
        obtain ⟨b', hb', hiff⟩ := hans i t hi
        refine ⟨b', hb', hiff.trans (not_congr ?_)⟩
        simp only [take_succ_cons, mem_cons, reduceCtorEq, false_or]

end

/-! ## Writing one entry -/

theorem putTuple_cons (u : VisimapTuple) (rows : List VisimapTuple) (t : VisimapTuple) :
    putTuple (u :: rows) (findTid (u :: rows) t.key) t =
      if u.key = t.key then t :: rows else u :: putTuple rows (findTid rows t.key) t := by
  unfold findTid
  rw [findIdx?_cons]
  by_cases hu : u.key = t.key
  · simp [hu, putTuple]
  · simp only [hu, decide_false, Bool.false_eq_true, if_false]
    cases rows.findIdx? fun u => u.key = t.key <;> rfl

theorem find?_putTuple (rows : List VisimapTuple) (t : VisimapTuple) (key : VisimapKey) :
    (putTuple rows (findTid rows t.key) t).find? (fun u => u.key = key) =
      if t.key = key then some t else rows.find? fun u => u.key = key := by
  induction rows with
  | nil => simp [findTid, putTuple, find?_cons]; split <;> simp_all
  | cons u rows ih =>
    rw [putTuple_cons]
    by_cases hu : u.key = t.key
    · rw [if_pos hu, find?_cons, find?_cons, hu]
      by_cases ht : t.key = key <;> simp [ht]
    rw [if_neg hu, find?_cons, find?_cons, ih]
    by_cases hk : u.key = key
    · have ht : t.key ≠ key := fun ht => hu (hk.trans ht.symm)
      simp [hk, ht]
    · simp [hk]

theorem findTid_putTuple_of_ne {t : VisimapTuple} {key : VisimapKey} (h : t.key ≠ key) :
    findTid (putTuple rows (findTid rows t.key) t) key = findTid rows key := by
  induction rows with
  | nil => simp [findTid, putTuple, findIdx?_cons, h]
  | cons u rows ih =>
    rw [putTuple_cons]
    unfold findTid at ih ⊢
    by_cases hu : u.key = t.key
    · rw [if_pos hu, findIdx?_cons, findIdx?_cons, hu]
    · rw [if_neg hu, findIdx?_cons, findIdx?_cons, ih]

theorem mem_putTuple {t u : VisimapTuple} (h : u ∈ putTuple rows (findTid rows t.key) t) : u = t ∨
    u ∈ rows := by
  unfold putTuple at h
  split at h
  · exact (mem_or_eq_of_mem_set h).symm
  · rcases mem_append.1 h with h | h
    · exact .inr h
    · exact .inl (mem_singleton.1 h)

theorem putTuple_keys_nodup (t : VisimapTuple) (h : (rows.map (·.key)).Nodup) :
    ((putTuple rows (findTid rows t.key) t).map (·.key)).Nodup := by
  induction rows with
  | nil => simp [findTid, putTuple]
  | cons u rows ih =>
    rw [map_cons, nodup_cons] at h
    rw [putTuple_cons]
    by_cases hu : u.key = t.key
    · rw [if_pos hu, map_cons, nodup_cons, ← hu]
      exact h
    rw [if_neg hu, map_cons, nodup_cons]
    refine ⟨fun hmem => ?_, ih h.2⟩
    obtain ⟨v, hv, hkey⟩ := mem_map.1 hmem
    rcases mem_putTuple hv with rfl | hv
    · exact hu hkey.symm
    · exact h.1 (mem_map.2 ⟨v, hv, hkey⟩)

theorem write_spec {e : VisimapEntry} (hok : BmsOk e.bitmap)
    (hdata : e.data.length = VISIMAP_DATA_SIZE) : ∃ t e', e.write = .ok (t, e') ∧ t.key = e.key ∧
      e'.data.length = VISIMAP_DATA_SIZE ∧ ∃ bitmap, TupleHas bitmap (some t) ∧
      ∀ x, bmsIsMember x bitmap = bmsIsMember x e.bitmap := by
  unfold VisimapEntry.write
  cases he : bmsIsEmpty e.bitmap with
  | true => exact ⟨_, _, rfl, rfl, hdata, none, rfl, fun x => (bmsIsMember_of_isEmpty he x).symm⟩
  | false =>
    obtain ⟨data', size, hwrite, hlen, henc⟩ := encodes_writeData hok hdata
    rw [if_neg Bool.false_ne_true, hwrite]
    exact ⟨_, _, rfl, rfl, hlen, e.bitmap, henc, fun _ => rfl⟩

/-! ## The pass over the work file -/

section Pass

variable {rows : List VisimapTuple} {hidden : List AOTupleId} {d : Delete} {pos : Nat}

section

variable (rows : List VisimapTuple)

/-- The record of the entry is still ahead. -/
def Pending (hidden : List AOTupleId) (pos : Nat) (d : Delete) (key : VisimapKey) : Prop :=
  ∃ r i bytes bitmap, d.dirtyEntryCache key = some r ∧ r.workFileOffset = some i ∧ pos ≤ i ∧
    d.workfile[i]? = some (key, bytes) ∧ Encodes bytes bitmap ∧ Right rows hidden key bitmap ∧
    r.tupleTid = findTid d.rows key

/-- The relation has the entry as it should be, and no record of it will be written. -/
def Written (hidden : List AOTupleId) (pos : Nat) (d : Delete) (key : VisimapKey) : Prop :=
  (∀ r i, d.dirtyEntryCache key = some r → r.workFileOffset = some i → i < pos) ∧
    ∃ bitmap right, StoredAs d.rows key bitmap ∧ Right rows hidden key right ∧
      ∀ x, bmsIsMember x bitmap = bmsIsMember x right

/-- **The invariant of the pass.** -/
structure Back (hidden : List AOTupleId) (pos : Nat) (d : Delete) : Prop where
  data : d.entry.data.length = VISIMAP_DATA_SIZE
  readable : StoreOk d.rows
  nodup : (d.rows.map (·.key)).Nodup
  records : ∀ key bytes, (key, bytes) ∈ d.workfile → d.dirtyEntryCache key ≠ none ∧
    bytes.length ≤ VISIMAP_DATA_SIZE
  each : ∀ key, Pending rows hidden pos d key ∨ Written rows hidden pos d key

end

/-- **Storing an entry** that is right: the relation has it, and the rest of the relation is as
before. -/
theorem store_spec (hright : Right rows hidden d.entry.key d.entry.bitmap)
    (hdata : d.entry.data.length = VISIMAP_DATA_SIZE)
    (htid : d.entry.tupleTid = findTid d.rows d.entry.key)
    (hread : StoreOk d.rows) (hnodup : (d.rows.map (·.key)).Nodup) :
    ∃ d', d.store = .ok d' ∧ d'.dirtyEntryCache = d.dirtyEntryCache ∧ d'.workfile = d.workfile ∧
      d'.entry.data.length = VISIMAP_DATA_SIZE ∧ StoreOk d'.rows ∧ (d'.rows.map (·.key)).Nodup ∧
      (∃ bitmap, StoredAs d'.rows d.entry.key bitmap ∧
      ∀ x, bmsIsMember x bitmap = bmsIsMember x d.entry.bitmap) ∧
      ∀ key, d.entry.key ≠ key → findTid d'.rows key = findTid d.rows key ∧
        ∀ bitmap, StoredAs d.rows key bitmap → StoredAs d'.rows key bitmap := by
  obtain ⟨t, e', hwrite, hkey, hlen, bitmap, hhas, hmem⟩ := write_spec hright.ok hdata
  unfold store
  rw [hwrite, htid, ← hkey]
  refine ⟨_, rfl, rfl, rfl, hlen, fun u hu => ?_, putTuple_keys_nodup t hnodup,
    ⟨bitmap, ?_, hmem⟩, fun key hne => ⟨?_, ?_⟩⟩
  · rcases mem_putTuple hu with rfl | hu
    · exact ⟨bitmap, hhas⟩
    · exact hread u hu
  · unfold StoredAs
    rw [find?_putTuple, if_pos rfl]
    exact hhas
  · exact findTid_putTuple_of_ne hne
  · intro b hb
    unfold StoredAs at hb ⊢
    rw [find?_putTuple, if_neg hne]
    exact hb

theorem Pending.or_written_step {d' : Delete} {key : VisimapKey}
    (h : Pending rows hidden pos d key ∨ Written rows hidden pos d key)
    (hnot : ∀ r, d.dirtyEntryCache key = some r → r.workFileOffset ≠ some pos)
    (hcache : d'.dirtyEntryCache key = d.dirtyEntryCache key) (hfile : d'.workfile = d.workfile)
    (htid : findTid d'.rows key = findTid d.rows key)
    (hstored : ∀ bitmap, StoredAs d.rows key bitmap → StoredAs d'.rows key bitmap) :
    Pending rows hidden (pos + 1) d' key ∨ Written rows hidden (pos + 1) d' key := by
  rcases h with ⟨r, i, bytes, bitmap, hc, hi, hle, hrec, henc, hright, ht⟩ | ⟨hpast, bitmap, right,
    hst, hright, hmem⟩
  · refine .inl ⟨r, i, bytes, bitmap, hcache.trans hc, hi, ?_, by rw [hfile]; exact hrec, henc,
      hright, ht.trans htid.symm⟩
    have hne : i ≠ pos := fun he => hnot r hc (he ▸ hi)
    omega
  · refine .inr ⟨fun r i hc hi => ?_, bitmap, right, hstored _ hst, hright, hmem⟩
    rw [hcache] at hc
    exact Nat.lt_succ_of_lt (hpast r i hc hi)

theorem Back.record_at {key key' : VisimapKey} {bytes : List (BitVec 8)} {r : DeleteData}
    (h : Back rows hidden pos d) (hrec : d.workfile[pos]? = some (key, bytes))
    (hr : d.dirtyEntryCache key' = some r) (hpos : r.workFileOffset = some pos) :
    key' = key ∧ ∃ bitmap, Encodes bytes bitmap ∧ Right rows hidden key bitmap ∧
    r.tupleTid = findTid d.rows key := by
  obtain ⟨r', i, bytes', bitmap, hr', hi, -, hrec', henc, hright, htid⟩ :=
    (h.each key').resolve_right fun hw =>
    absurd (hw.1 r pos hr hpos) (Nat.lt_irrefl _)
  rw [hr] at hr'
  cases hr'
  rw [hpos] at hi
  cases hi
  rw [hrec] at hrec'
  cases hrec'
  exact ⟨rfl, bitmap, henc, hright, htid⟩

theorem Back.step {key : VisimapKey} {bytes : List (BitVec 8)} (h : Back rows hidden pos d)
    (hrec : d.workfile[pos]? = some (key, bytes)) (rest : List (VisimapKey × List (BitVec 8))) :
    ∃ d', writeBackStashedEntries pos ((key, bytes) :: rest) d =
      writeBackStashedEntries (pos + 1) rest d' ∧ d'.workfile = d.workfile ∧
      Back rows hidden (pos + 1) d' := by
  obtain ⟨hcached, hlen⟩ := h.records key bytes (mem_of_getElem? hrec)
  obtain ⟨r, hr⟩ := Option.ne_none_iff_exists'.1 hcached
  rw [writeBackStashedEntries]
  simp only [hr]
  by_cases hpos : r.workFileOffset = some pos
  · rw [if_neg (not_not.2 hpos)]
    -- the record is the last one of the entry
    obtain ⟨-, bitmap, henc, hright, htid⟩ := h.record_at hrec hr hpos
    obtain ⟨hread, hbuf⟩ := readData_encodes henc d.entry h.data
    have hrebuild : d.entry.rebuild key bytes r.tupleTid =
        .ok ⟨key, bitmap, true, bytes ++ d.entry.data.drop bytes.length, r.tupleTid⟩ := by
      unfold VisimapEntry.rebuild
      dsimp only
      rw [hread]
    obtain ⟨d', hstore, hcache, hfile, hdata', hread', hnodup', ⟨b, hb, hmem⟩, hframe⟩ := store_spec
      (show Right rows hidden ({ d with entry := ⟨key, bitmap, true, _, r.tupleTid⟩ } :
      Delete).entry.key _ from hright) hbuf htid h.readable h.nodup
    simp only [hrebuild, hstore]
    refine ⟨d', rfl, hfile, hdata', hread', hnodup', ?_, fun key' => ?_⟩
    · rw [hcache, hfile]
      exact h.records
    by_cases hkey : key = key'
    · subst hkey
      refine .inr ⟨fun r' i hr' hi => ?_, b, bitmap, hb, hright, hmem⟩
      rw [hcache, show ({ d with entry := _ } : Delete).dirtyEntryCache key = some r from hr]
        at hr'
      cases hr'
      rw [hpos] at hi
      cases hi
      exact Nat.lt_succ_self pos
    · exact Pending.or_written_step (h.each key')
        (fun r' hr' hoff => hkey (h.record_at hrec hr' hoff).1.symm) (by rw [hcache])
        hfile (hframe key' hkey).1 (hframe key' hkey).2
  · rw [if_pos hpos]
    refine ⟨_, rfl, rfl, ?_, h.readable, h.nodup, h.records, fun key' => ?_⟩
    · have hd := h.data
      rw [length_append, length_drop, hd]
      omega
    refine Pending.or_written_step (h.each key') (fun r' hr' hoff => ?_) rfl rfl rfl fun _ hb =>
      hb
    obtain ⟨rfl, -⟩ := h.record_at hrec hr' hoff
    rw [hr] at hr'
    cases hr'
    exact hpos hoff

theorem Back.writeBack (h : Back rows hidden pos d) {done rest :
    List (VisimapKey × List (BitVec 8))} (hfile : d.workfile = done ++ rest)
    (hpos : done.length = pos) : ∃ d', writeBackStashedEntries pos rest d = .ok d' ∧
    Back rows hidden d'.workfile.length d' := by
  induction rest generalizing pos done d with
  | nil =>
    rw [append_nil] at hfile
    refine ⟨d, rfl, ?_⟩
    rw [hfile, hpos]
    exact h
  | cons record rest ih =>
    obtain ⟨key, bytes⟩ := record
    have hrec : d.workfile[pos]? = some (key, bytes) := by
      rw [hfile, getElem?_append_right (by omega), hpos, Nat.sub_self]
      rfl
    obtain ⟨d₁, hstep, hfile₁, hback⟩ := h.step hrec rest
    obtain ⟨d', hrest, hfinal⟩ := ih hback (hfile₁.trans (hfile.trans (append_cons _ _ _)))
      (by rw [length_append, hpos]; rfl)
    exact ⟨d', hstep.trans hrest, hfinal⟩

theorem Delete.Inv.storeCurrent (hrows : StoreOk rows) (hnodup : (rows.map (·.key)).Nodup)
    (h : Inv rows hidden d) : ∃ d', d.storeCurrent = .ok d' ∧ Back rows hidden 0 d' := by
  obtain rfl := h.files.rows_eq
  -- what is elsewhere is pending, or untouched and as it was
  have helse : ∀ (d' : Delete) key, Elsewhere d.rows hidden d key →
      d'.dirtyEntryCache key = d.dirtyEntryCache key →
      d'.workfile = d.workfile → findTid d'.rows key = findTid d.rows key →
      (∀ bitmap, StoredAs d.rows key bitmap → StoredAs d'.rows key bitmap) →
      Pending d.rows hidden 0 d' key ∨ Written d.rows hidden 0 d' key := by
    intro d' key he hcache hfile htid hstored
    unfold Elsewhere at he
    cases hc : d.dirtyEntryCache key with
    | none =>
      rw [hc] at he
      obtain ⟨bitmap, hb⟩ := storedAs_exists hrows key
      refine .inr ⟨fun r i hr => ?_, bitmap, bitmap, hstored _ hb, hb.right he, fun _ => rfl⟩
      rw [hcache, hc] at hr
      cases hr
    | some r =>
      rw [hc] at he
      obtain ⟨-, ht, i, bytes, bitmap, hi, hrec, henc, hright⟩ := he
      exact .inl ⟨r, i, bytes, bitmap, hcache.trans hc, hi,
        Nat.zero_le _, by rw [hfile]; exact hrec, henc, hright, ht.trans htid.symm⟩
  unfold storeCurrent
  cases hd : d.entry.dirty with
  | false =>
    obtain ⟨d', hleave, -, -, hall⟩ := h.leave
    rw [Delete.leave, hd, if_neg Bool.false_ne_true] at hleave
    cases hleave
    exact ⟨d, rfl, h.files.data, hrows, hnodup, h.files.records, fun key =>
      helse d key (hall key) rfl rfl rfl fun _ hb => hb⟩
  | true =>
    have hcur := h.current (by
      by_contra hv
      rw [h.unloaded (Bool.eq_false_of_not_eq_true hv)] at hd
      cases hd)
    obtain ⟨d', hstore, hcache, hfile, hdata', hread', hnodup', ⟨b, hb, hmem⟩, hframe⟩ :=
      store_spec hcur.right h.files.data hcur.tid hrows hnodup
    rw [hstore]
    refine ⟨_, rfl, hdata', hread', hnodup', fun key bytes hrec => ?_, fun key => ?_⟩
    · dsimp only at hrec ⊢
      rw [hfile] at hrec
      obtain ⟨hne, hlen⟩ := h.files.records key bytes hrec
      refine ⟨?_, hlen⟩
      rw [hcache]
      by_cases hkey : key = d.entry.key
      · subst hkey
        simpa using hne
      · rwa [Function.update_of_ne hkey]
    · by_cases hkey : d.entry.key = key
      · subst hkey
        refine .inr ⟨fun r i hr hi => ?_, b, d.entry.bitmap, hb, hcur.right, hmem⟩
        dsimp only at hr
        rw [Function.update_self] at hr
        obtain ⟨_, -, rfl⟩ := Option.map_eq_some_iff.1 hr
        cases hi
      · refine helse _ key (h.others key fun _ => hkey) ?_ hfile (hframe key hkey).1
          (hframe key hkey).2
        dsimp only
        rw [Function.update_of_ne (Ne.symm hkey), hcache]

/-- **Finishing**: the relation can be read, has one tuple for an entry, and hides the right rows.
-/
theorem Delete.Inv.finish (hrows : StoreOk rows) (hnodup : (rows.map (·.key)).Nodup)
    (h : Inv rows hidden d) : ∃ rows', d.finish = .ok rows' ∧ StoreOk rows' ∧
      (rows'.map (·.key)).Nodup ∧ ∀ tid, StoredHidden rows' tid ↔ StoredHidden rows tid ∨
      tid ∈ hidden := by
  obtain ⟨d₁, hcurrent, hback⟩ := h.storeCurrent hrows hnodup
  obtain ⟨d', hpass, hfinal⟩ := hback.writeBack (nil_append d₁.workfile).symm rfl
  refine ⟨d'.rows, ?_, hfinal.readable, hfinal.nodup, fun tid => ?_⟩
  · unfold Delete.finish
    rw [hcurrent]
    dsimp only
    rw [hpass]
  rcases hfinal.each tid.visimapKey with ⟨_, i, _, _, -, -, hle, hrec, -⟩ | ⟨-, bitmap, right,
    hst, hright, hmem⟩
  · exact absurd (List.getElem?_eq_some_iff.1 hrec).1 (Nat.not_lt.2 hle)
  rw [← hright.mem_iff, ← hmem]
  constructor
  · rintro ⟨bitmap', hst', hx⟩
    rwa [TupleHas.unique hst hst']
  · exact fun hx => ⟨bitmap, hst, hx⟩

end Pass

/-- **A whole command.**  The relation then hides the rows it hid before and the rows passed to
`hide`, has at most one tuple for an entry, and every question was answered by the rows hidden so
far. -/
theorem visimapDelete_finish (rows : List VisimapTuple) (hrows : StoreOk rows) (hnodup :
    (rows.map (·.key)).Nodup) (calls : List VisimapCall) :
    ∃ answers d rows', run calls (.init rows) = .ok (answers, d) ∧ d.finish = .ok rows' ∧
      StoreOk rows' ∧ (rows'.map (·.key)).Nodup ∧
      (∀ tid, StoredHidden rows' tid ↔ StoredHidden rows tid ∨ .hide tid ∈ calls) ∧
      ∀ i tid, calls[i]? = some (.isVisible tid) →
        ∃ b, answers[i]? = some (some b) ∧
        (b = true ↔ ¬ (StoredHidden rows tid ∨ .hide tid ∈ calls.take i)) := by
  obtain ⟨answers, d, hrun, hinv, hans⟩ := (Inv.init rows).run hrows calls
  obtain ⟨rows', hfinish, hread, hkeys, hhidden⟩ := hinv.finish hrows hnodup
  refine ⟨answers, d, rows', hrun, hfinish, hread, hkeys, fun tid => ?_, fun i tid hi => ?_⟩
  · rw [hhidden, nil_append, mem_hiddenBy]
  · obtain ⟨b, hb, hiff⟩ := hans i tid hi
    refine ⟨b, hb, hiff.trans (not_congr (or_congr_right ?_))⟩
    simp only [not_mem_nil, false_or]

/-- A command that comes back to its first entry, which is stored with row 7. -/
theorem visimapDelete_finish_returns : ∃ bytes answers d rows',
    StoredHidden [⟨⟨1, 0⟩, some bytes⟩] ⟨1, 7⟩ ∧
    run [.hide ⟨1, 5⟩, .hide ⟨1, 40000⟩, .isVisible ⟨1, 7⟩] (.init [⟨⟨1, 0⟩, some bytes⟩]) =
      .ok (answers, d) ∧ answers[2]? = some (some false) ∧ d.finish = .ok rows' ∧
    StoredHidden rows' ⟨1, 5⟩ ∧ StoredHidden rows' ⟨1, 7⟩ ∧ StoredHidden rows' ⟨1, 40000⟩ := by
  obtain ⟨bytes, henc⟩ := exists_encodes [7] (by decide)
  have hstored : StoredHidden [⟨⟨1, 0⟩, some bytes⟩] ⟨1, 7⟩ := ⟨_, henc, rfl⟩
  obtain ⟨answers, d, rows', hrun, hfinish, -, -, hhidden, hans⟩ :=
    visimapDelete_finish [⟨⟨1, 0⟩, some bytes⟩] (forall_mem_singleton.mpr ⟨_, henc⟩)
    (nodup_singleton _) [.hide ⟨1, 5⟩, .hide ⟨1, 40000⟩, .isVisible ⟨1, 7⟩]
  obtain ⟨b, hb, hiff⟩ := hans 2 ⟨1, 7⟩ rfl
  obtain rfl : b = false := by
    rw [Bool.eq_false_iff, ne_eq, hiff, not_not]
    exact .inl hstored
  exact ⟨bytes, answers, d, rows', hstored, hrun, hb, hfinish, (hhidden _).2 (.inr (by decide)),
    (hhidden _).2 (.inl hstored), (hhidden _).2 (.inr (by decide))⟩

end PolemoDB.AppendOnly
