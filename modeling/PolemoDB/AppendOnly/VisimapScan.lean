import PolemoDB.AppendOnly.VisimapDelete

/-!
# Scanning the visibility map for hidden rows (`AppendOnlyVisimapScan_GetNextInvisible`)

The scan goes through the tuples of the visibility map in the order of the index.  Its position in
an entry is the tuple id that the caller passes back; before the first row of an entry it is the
invalid tuple id, whose bits are those of segment file 127.

* `visimapScan_iff` — the scan returns all hidden rows in order, unless there is an entry of segment
  file 127.
-/

namespace PolemoDB.AppendOnly

open PolemoDB.Lib List BitVec AOTupleId VisimapEntry

/-! ## The code -/

/-- The loop of `bms_next_member`; `none` stands for `-2`. -/
def bmsNextLoop (mask : BitVec 64) (wordnum : Nat) : List (BitVec 64) → Option Nat
  | [] => none
  | w :: words =>
    if w &&& mask ≠ 0 then some (wordnum * 64 + (w &&& mask).ctz.toNat)
    else bmsNextLoop (allOnes 64) (wordnum + 1) words

def bmsNextMember (a : Bitmapset) (prevbit : Int) : Option Nat :=
  match a with
  | none => none
  | some words =>
    let prevbit := (prevbit + 1).toNat
    bmsNextLoop (allOnes 64 <<< (prevbit % 64)) (prevbit / 64) (words.drop (prevbit / 64))

/-- `AppendOnlyVisimapEntry_CoversTuple`, on the bits of the tuple id. -/
def VisimapEntry.coversTupleData (e : VisimapEntry) (tid : AOTupleIdData) : Except String Bool :=
  if e.isValid = false then .ok false
  else if e.key.segno ≠ tid.segmentFileNum.toNat then .ok false
  else
    match tid.rowNum with
    | none => .error "FailedAssertion"
    | some rowNum => .ok (decide (e.key.firstRowNum ≤ rowNum.toNat) &&
        decide (e.key.firstRowNum + APPENDONLY_VISIMAP_MAX_RANGE > rowNum.toNat))

/-- `AppendOnlyVisimapEntry_GetNextInvisible`. -/
def VisimapEntry.getNextInvisible (e : VisimapEntry) (tid : AOTupleIdData) :
    Except String (Option AOTupleIdData) :=
  if e.isValid = false then .error "FailedAssertion"
  else
    match e.coversTupleData tid with
    | .error err => .error err
    | .ok covers =>
      let currentBitmapOffset : Int :=
        if covers then (tid.rowNum.getD 0).toNat - e.key.firstRowNum else -1
      .ok ((bmsNextMember e.bitmap currentBitmapOffset).map fun offset =>
        .init (BitVec.ofInt 16 e.key.segno) (BitVec.ofInt 64 (e.key.firstRowNum + offset)))

/-- `AppendOnlyVisimapEntry_Reset`. -/
def VisimapEntry.reset (e : VisimapEntry) : VisimapEntry :=
  { e with key := ⟨-1, -1⟩, bitmap := none, dirty := false }

/-- `AppendOnlyVisimapScan`, with the tuples that the index scan has still to return. -/
structure VisimapScan where
  entry : VisimapEntry
  indexScan : List VisimapTuple
  isFinished : Bool
deriving DecidableEq, Repr

open VisimapScan

/-- `AppendOnlyVisimapScan_Init`. -/
def VisimapScan.init (rows : List VisimapTuple) : VisimapScan := ⟨.init, rows, false⟩

/-- The loop of `AppendOnlyVisimapScan_GetNextInvisible` from where the entry is not valid. -/
def VisimapScan.nextEntry : List VisimapTuple → VisimapEntry →
    Except String (Option AOTupleIdData × VisimapScan)
  | [], e => .ok (none, ⟨e, [], true⟩)
  | t :: rows, e =>
    match e.copyout t with
    | .error err => .error err
    | .ok e =>
      match e.getNextInvisible .invalid with
      | .error err => .error err
      | .ok none => nextEntry rows e.reset
      | .ok (some tid) => .ok (some tid, ⟨e, rows, false⟩)

/-- `AppendOnlyVisimapScan_GetNextInvisible`; no tuple id if it returns false. -/
def VisimapScan.getNextInvisible (s : VisimapScan) (tid : AOTupleIdData) :
    Except String (Option AOTupleIdData × VisimapScan) :=
  if s.isFinished then .error "FailedAssertion"
  else if s.entry.isValid then
    match s.entry.getNextInvisible tid with
    | .error err => .error err
    | .ok none => nextEntry s.indexScan s.entry.reset
    | .ok (some tid) => .ok (some tid, s)
  else nextEntry s.indexScan s.entry

/-- At most `n` calls, each with the tuple id of the last one, until one returns false. -/
def VisimapScan.calls : Nat → VisimapScan → AOTupleIdData →
    Except String (List (Option AOTupleIdData))
  | 0, _, _ => .ok []
  | n + 1, s, tid =>
    match s.getNextInvisible tid with
    | .error err => .error err
    | .ok (none, _) => .ok [none]
    | .ok (some tid, s) => (calls n s tid).map (some tid :: ·)

/-! ## The members of a bitmap -/

/-- The members from `k` on. -/
def membersFrom : Bitmapset → Nat → List Nat
  | none, _ => []
  | some words, k => onesFrom words k

theorem getLsbD_mask (w : BitVec 64) (b i : Nat) :
    (w &&& allOnes 64 <<< b).getLsbD i = (w.getLsbD i && decide (b ≤ i)) := by
  rw [getLsbD_and, getLsbD_shiftLeft, getLsbD_allOnes]
  by_cases hi : i < 64
  · by_cases hb : b ≤ i
    · simp [hi, hb, show ¬ i < b by omega, show i - b < 64 by omega]
    · simp [hb, show i < b by omega]
  · simp [getLsbD_of_ge w i (by omega)]

/-- The loop finds the first set bit that is not before bit `b` of the first word. -/
theorem bmsNextLoop_spec (words : List (BitVec 64)) {b : Nat} (hb : b < 64) (wordnum : Nat) :
    (bmsNextLoop (allOnes 64 <<< b) wordnum words = none ∧ ∀ i, b ≤ i → lsbAt words i = false) ∨
      ∃ i, bmsNextLoop (allOnes 64 <<< b) wordnum words = some (wordnum * 64 + i) ∧ b ≤ i ∧
        lsbAt words i = true ∧ ∀ j, b ≤ j → j < i → lsbAt words j = false := by
  induction words generalizing b wordnum with
  | nil => exact .inl ⟨rfl, fun i _ => by simp [lsbAt]⟩
  | cons w words ih =>
    unfold bmsNextLoop
    by_cases hw : w &&& allOnes 64 <<< b = 0
    · -- no bit of the first word
      have hfirst : ∀ i, b ≤ i → i < 64 → lsbAt (w :: words) i = false := by
        intro i hbi hi
        have hbit := getLsbD_mask w b i
        rw [hw, decide_eq_true hbi, Bool.and_true] at hbit
        rw [lsbAt_cons_lt w words hi, ← hbit]
        exact getLsbD_zero
      have hrest : ∀ i, 64 ≤ i → lsbAt (w :: words) i = lsbAt words (i - 64) := by
        intro i hi
        have := lsbAt_cons_add (by decide) w words (i - 64)
        rwa [show 64 + (i - 64) = i by omega] at this
      rw [if_neg (not_not.mpr hw)]
      have hih := ih (show 0 < 64 by decide) (wordnum + 1)
      rw [shiftLeft_zero] at hih
      rcases hih with ⟨hnone, hall⟩ | ⟨i, hsome, -, hi, hbefore⟩
      · refine .inl ⟨hnone, fun i hbi => ?_⟩
        rcases Nat.lt_or_ge i 64 with hi | hi
        · exact hfirst i hbi hi
        · rw [hrest i hi]
          exact hall _ (Nat.zero_le _)
      refine .inr ⟨64 + i, by rw [hsome]; exact congrArg some (by omega), by omega, ?_,
        fun j hbj hj => ?_⟩
      · rw [hrest _ (by omega), show 64 + i - 64 = i by omega]
        exact hi
      rcases Nat.lt_or_ge j 64 with hj' | hj'
      · exact hfirst j hbj hj'
      · rw [hrest j hj']
        exact hbefore _ (Nat.zero_le _) (by omega)
    · rw [if_pos hw]
      have hbit := getLsbD_true_ctz_of_ne_zero hw
      rw [getLsbD_mask, Bool.and_eq_true, decide_eq_true_iff] at hbit
      have hlt : (w &&& allOnes 64 <<< b).ctz.toNat < 64 := lt_of_getLsbD hbit.1
      refine .inr ⟨_, rfl, hbit.2, by rw [lsbAt_cons_lt w words hlt]; exact hbit.1,
        fun j hbj hj => ?_⟩
      have hfalse := getLsbD_false_of_lt_ctz hj
      rw [getLsbD_mask, decide_eq_true hbj, Bool.and_true] at hfalse
      rw [lsbAt_cons_lt w words (by omega)]
      exact hfalse

/-- **The next member** is the first one of those from the bit on. -/
theorem bmsNextMember_spec (a : Bitmapset) (k : Nat) :
    (bmsNextMember a (k - 1 : Int) = none ∧ membersFrom a k = []) ∨
      ∃ x, bmsNextMember a (k - 1 : Int) = some x ∧
      membersFrom a k = x :: membersFrom a (x + 1) := by
  cases a with
  | none => exact .inl ⟨rfl, rfl⟩
  | some words =>
    unfold bmsNextMember membersFrom
    dsimp only
    rw [show ((k : Int) - 1 + 1).toNat = k by omega]
    -- the bits from the word of `k` on
    have hdrop : ∀ i, lsbAt (words.drop (k / 64)) i = lsbAt words (64 * (k / 64) + i) := by
      intro i
      rcases Nat.le_total (k / 64) words.length with hle | hle
      · have := lsbAt_append_right (by decide) (words.take (k / 64)) (words.drop (k / 64)) i
        rw [take_append_drop, length_take, Nat.min_eq_left hle] at this
        exact this.symm
      have hend : lsbAt words (64 * (k / 64) + i) = false :=
        lsbAt_of_length_le (by decide) (by omega)
      rw [drop_eq_nil_of_le hle, hend]
      simp [lsbAt]
    rcases bmsNextLoop_spec (words.drop (k / 64)) (Nat.mod_lt k (by decide))
      (k / 64) with ⟨hnone, hall⟩ | ⟨i, hsome, hle, hi, hbefore⟩
    · refine .inl ⟨hnone, onesFrom_eq_nil fun j hj => ?_⟩
      have := hall (j - 64 * (k / 64)) (by omega)
      rwa [hdrop, show 64 * (k / 64) + (j - 64 * (k / 64)) = j by omega] at this
    rw [hdrop] at hi
    refine .inr ⟨64 * (k / 64) + i, by rw [hsome, Nat.mul_comm],
      onesFrom_eq_cons (by omega) ?_ hi fun j hkj hj => ?_⟩
    · by_contra hge
      rw [lsbAt_of_length_le (by decide) (Nat.not_lt.mp hge)] at hi
      cases hi
    · have := hbefore (j - 64 * (k / 64)) (by omega) (by omega)
      rwa [hdrop, show 64 * (k / 64) + (j - 64 * (k / 64)) = j by omega] at this

/-! ## The rows of the visibility map -/

def VisimapTuple.bitmap (t : VisimapTuple) : Bitmapset :=
  match t.visimap with
  | none => none
  | some bytes =>
    match readData unsetState bytes bytes.length with
    | .error _ => none
    | .ok bitmap => bitmap

open VisimapTuple

/-- The bits of a tuple id. -/
def AOTupleId.encode (tid : AOTupleId) : AOTupleIdData :=
  .init (BitVec.ofNat 16 tid.segmentFileNum) (BitVec.ofNat 64 tid.rowNum)

/-- The rows of an entry that a bitmap has from an offset on. -/
def VisimapKey.rowsFrom (key : VisimapKey) (bitmap : Bitmapset) (k : Nat) : List AOTupleId :=
  (membersFrom bitmap k).map fun x => ⟨key.segno.toNat, key.firstRowNum.toNat + x⟩

def VisimapTuple.hiddenRows (t : VisimapTuple) : List AOTupleId := t.key.rowsFrom t.bitmap 0

/-- The order of the index, and that of the tuple ids. -/
def VisimapKey.Lt (a b : VisimapKey) : Prop := a.segno < b.segno ∨ a.segno = b.segno ∧
    a.firstRowNum < b.firstRowNum

def AOTupleId.Lt (a b : AOTupleId) : Prop :=
  a.segmentFileNum < b.segmentFileNum ∨ a.segmentFileNum = b.segmentFileNum ∧ a.rowNum < b.rowNum

/-- A key of a row that a tuple id can have. -/
def VisimapKey.InRange (key : VisimapKey) : Prop :=
  ∃ tid : AOTupleId, tid.segmentFileNum ≤ 127 ∧ tid.rowNum < 2 ^ 40 ∧ key = tid.visimapKey

/-- A stored visibility map, in the order of its index. -/
structure VisimapOk (rows : List VisimapTuple) : Prop where
  inRange : ∀ t ∈ rows, t.key.InRange
  readable : StoreOk rows
  order : rows.Pairwise fun t u => t.key.Lt u.key

variable {t : VisimapTuple} {bitmap a : Bitmapset} {x : Nat} {rows : List VisimapTuple}

theorem TupleHas.bitmap_eq (h : TupleHas bitmap (some t)) : t.bitmap = bitmap := by
  obtain ⟨key, visimap⟩ := t
  cases visimap with
  | none => exact Eq.symm h
  | some bytes =>
    have hread := Encodes.read h [] unsetState
    rw [append_nil] at hread
    unfold VisimapTuple.bitmap
    dsimp only
    rw [hread]

theorem copyout_eq (h : TupleHas bitmap (some t)) (e : VisimapEntry) :
    ∃ e', e.copyout t = .ok e' ∧ e'.key = t.key ∧ e'.bitmap = bitmap := by
  obtain ⟨key, visimap⟩ := t
  unfold copyout
  cases visimap with
  | none => exact ⟨_, rfl, rfl, Eq.symm h⟩
  | some bytes =>
    dsimp only
    rw [Encodes.read h]
    exact ⟨_, rfl, rfl, rfl⟩

theorem mem_membersFrom (x : Nat) : x ∈ membersFrom a 0 ↔ bmsIsMember x a = true := by
  cases a with
  | none => simp [membersFrom, bmsIsMember]
  | some words =>
    rw [bmsIsMember_some]
    exact mem_ones (by decide)

theorem membersFrom_lt (hok : BmsOk a) {k : Nat} (hx : x ∈ membersFrom a k) :
    x < APPENDONLY_VISIMAP_MAX_RANGE := by
  cases a with
  | none => cases hx
  | some words =>
    have hle : words.length ≤ 512 := (hok words rfl).2
    rw [membersFrom, onesFrom, mem_filter, mem_range'_1] at hx
    rw [APPENDONLY_VISIMAP_MAX_RANGE_eq]
    omega

/-! ## One entry -/

section Entry

variable {e : VisimapEntry} {key : VisimapKey}

theorem VisimapKey.InRange.spec (h : key.InRange) :
    ∃ seg q : Nat, seg ≤ 127 ∧ q * 32768 + 32768 ≤ 2 ^ 40 ∧ key.segno = seg ∧
    key.firstRowNum = (q * 32768 : Nat) := by
  obtain ⟨tid, hseg, hrow, rfl⟩ := h
  exact ⟨tid.segmentFileNum, tid.rowNum / 32768, hseg, by omega, rfl, rfl⟩

theorem InRange.isValid (h : e.key.InRange) : e.isValid = true := by
  obtain ⟨tid, -, -, hkey⟩ := h
  exact visimapKey_isValid hkey

theorem encode_eq (h : key.InRange) (x : Nat) :
    AOTupleIdData.init (BitVec.ofInt 16 key.segno) (BitVec.ofInt 64 (key.firstRowNum + x)) =
      encode ⟨key.segno.toNat, key.firstRowNum.toNat + x⟩ := by
  obtain ⟨seg, q, -, -, hs, hq⟩ := h.spec
  rw [hs, hq]
  rfl

theorem getNextInvisible_eq (hkey : e.key.InRange) {tid : AOTupleIdData} {covers : Bool} {k : Nat}
    (hcovers : e.coversTupleData tid = .ok covers)
    (hk : (if covers then ((tid.rowNum.getD 0).toNat - e.key.firstRowNum : Int) else -1) = k - 1) :
    e.getNextInvisible tid = .ok ((e.key.rowsFrom e.bitmap k).head?.map encode) ∧
      ∀ o out, e.key.rowsFrom e.bitmap k = o :: out →
        ∃ x ∈ membersFrom e.bitmap k, o = ⟨e.key.segno.toNat, e.key.firstRowNum.toNat + x⟩ ∧
          out = e.key.rowsFrom e.bitmap (x + 1) := by
  unfold VisimapEntry.getNextInvisible VisimapKey.rowsFrom
  rw [InRange.isValid hkey, if_neg (by decide), hcovers]
  dsimp only
  rw [hk]
  rcases bmsNextMember_spec e.bitmap k with ⟨hnone, hnil⟩ | ⟨x, hsome, hcons⟩
  · rw [hnone, hnil]
    exact ⟨rfl, fun o out h => by cases h⟩
  rw [hsome, hcons]
  refine ⟨congrArg (Except.ok ∘ some) (encode_eq hkey x), fun o out h => ?_⟩
  obtain ⟨ho, hout⟩ := cons.inj h
  exact ⟨x, mem_cons_self, ho.symm, hout.symm⟩

theorem coversTupleData_invalid (hkey : e.key.InRange) :
    e.coversTupleData .invalid = if e.key.segno =
    127 then .error "FailedAssertion" else .ok false := by
  unfold coversTupleData
  rw [InRange.isValid hkey, if_neg (by decide),
    show (AOTupleIdData.invalid.segmentFileNum.toNat : Int) = 127 by decide,
    show AOTupleIdData.invalid.rowNum = none by decide]
  by_cases h : e.key.segno = 127
  · rw [if_neg (not_not.mpr h), if_pos h]
  · rw [if_pos h, if_neg h]

theorem coversTupleData_row (hkey : e.key.InRange) {x : Nat}
    (hx : x < APPENDONLY_VISIMAP_MAX_RANGE) :
      e.coversTupleData (encode ⟨e.key.segno.toNat, e.key.firstRowNum.toNat + x⟩) = .ok true ∧
      (((encode ⟨e.key.segno.toNat, e.key.firstRowNum.toNat + x⟩).rowNum.getD 0).toNat -
        e.key.firstRowNum : Int) = ((x + 1 : Nat) - 1 : Int) := by
  obtain ⟨seg, q, hseg, hq, hs, hf⟩ := hkey.spec
  rw [APPENDONLY_VISIMAP_MAX_RANGE_eq] at hx
  have hseg' : seg < 2 ^ 7 := by omega
  have hrow : q * 32768 + x < 2 ^ 40 := by omega
  have hnat : (BitVec.ofNat 64 (q * 32768 + x)).toNat = q * 32768 + x := by
    rw [toNat_ofNat]
    omega
  unfold coversTupleData
  rw [InRange.isValid hkey, if_neg (by decide), hs, hf, Int.toNat_natCast, Int.toNat_natCast]
  unfold encode
  rw [AOTupleIdData.segmentFileNum_init hseg' hrow, AOTupleIdData.rowNum_init hseg' hrow,
    if_neg (not_not.mpr rfl), Option.getD_some, hnat, APPENDONLY_VISIMAP_MAX_RANGE_eq]
  refine ⟨?_, by omega⟩
  dsimp only
  rw [hnat, decide_eq_true (by omega), decide_eq_true (by omega)]
  rfl

end Entry

/-! ## The scan -/

section Scan

variable {rows : List VisimapTuple}

/-- The rows that the scan has still to return, after it has returned `o`. -/
structure VisimapScan.Todo (s : VisimapScan) (o : AOTupleId) (out : List AOTupleId) : Prop where
  running : s.isFinished = false
  inRange : s.entry.key.InRange
  others : (∀ t ∈ s.indexScan, t.key.InRange ∧ t.key.segno ≠ 127) ∧ StoreOk s.indexScan
  rest : ∃ x < APPENDONLY_VISIMAP_MAX_RANGE, o =
    ⟨s.entry.key.segno.toNat, s.entry.key.firstRowNum.toNat + x⟩ ∧
    out = s.entry.key.rowsFrom s.entry.bitmap (x + 1) ++ s.indexScan.flatMap (·.hiddenRows)
  ok : BmsOk s.entry.bitmap

/-- The result of a call that has the rows `out` before it. -/
def Returns (out : List AOTupleId) (r : Except String (Option AOTupleIdData × VisimapScan)) :
    Prop :=
  match out with
  | [] => ∃ s, r = .ok (none, s)
  | o :: out => ∃ s, r = .ok (some o.encode, s) ∧ s.Todo o out

variable {e : VisimapEntry} {tid : AOTupleIdData} {s : VisimapScan} {out : List AOTupleId}

theorem returns_of_entry {k : Nat} (hrange : e.key.InRange) (hok : BmsOk e.bitmap)
    (hothers : (∀ t ∈ rows, t.key.InRange ∧ t.key.segno ≠ 127) ∧ StoreOk rows) {covers : Bool}
    (hcovers : e.coversTupleData tid = .ok covers)
    (hk : (if covers then ((tid.rowNum.getD 0).toNat - e.key.firstRowNum : Int) else -1) = k - 1)
    (hnext : Returns (rows.flatMap (·.hiddenRows)) (nextEntry rows e.reset)) :
    Returns (e.key.rowsFrom e.bitmap k ++ rows.flatMap (·.hiddenRows))
    (match e.getNextInvisible tid with
        | .error err => .error err
        | .ok none => nextEntry rows e.reset
        | .ok (some tid) => .ok (some tid, ⟨e, rows, false⟩)) := by
  obtain ⟨hget, hcons⟩ := getNextInvisible_eq hrange hcovers hk
  rw [hget]
  cases hrows : e.key.rowsFrom e.bitmap k with
  | nil => exact hnext
  | cons o out =>
    obtain ⟨x, hx, ho, hout⟩ := hcons o out hrows
    exact ⟨⟨e, rows, false⟩, rfl, rfl, hrange, hothers,
      ⟨x, membersFrom_lt hok hx, ho, congrArg (· ++ _) hout⟩, hok⟩

theorem nextEntry_returns (hrows : ∀ t ∈ rows, t.key.InRange ∧ t.key.segno ≠ 127)
    (hread : StoreOk rows) (e : VisimapEntry) :
    Returns (rows.flatMap (·.hiddenRows)) (nextEntry rows e) := by
  induction rows generalizing e with
  | nil => exact ⟨_, rfl⟩
  | cons t rows ih =>
    obtain ⟨hrange, hseg⟩ := hrows t mem_cons_self
    obtain ⟨bitmap, hhas⟩ := hread t mem_cons_self
    obtain ⟨e', hcopy, hkey, hbitmap⟩ := copyout_eq hhas e
    rw [← hkey] at hrange hseg
    have hcovers : e'.coversTupleData .invalid = .ok false := by
      rw [coversTupleData_invalid hrange]
      exact if_neg hseg
    have hothers : (∀ t ∈ rows, t.key.InRange ∧ t.key.segno ≠ 127) ∧ StoreOk rows :=
      ⟨fun u hu => hrows u (mem_cons_of_mem _ hu), fun u hu => hread u (mem_cons_of_mem _ hu)⟩
    rw [flatMap_cons, nextEntry, hcopy, hiddenRows, hhas.bitmap_eq, ← hkey, ← hbitmap]
    exact returns_of_entry hrange (hbitmap ▸ hhas.ok) hothers hcovers rfl (ih hothers.1 hothers.2 _)

theorem VisimapScan.Todo.getNextInvisible {o : AOTupleId} (h : s.Todo o out) :
    Returns out (s.getNextInvisible o.encode) := by
  obtain ⟨x, hx, ho, hout⟩ := h.rest
  obtain ⟨hcovers, hk⟩ := coversTupleData_row h.inRange hx
  unfold VisimapScan.getNextInvisible
  rw [h.running, InRange.isValid h.inRange, if_neg Bool.false_ne_true, if_pos rfl, hout, ho]
  have hs : s = ⟨s.entry, s.indexScan, false⟩ := by rw [← h.running]
  have hret := returns_of_entry h.inRange h.ok h.others hcovers hk
    (nextEntry_returns h.others.1 h.others.2 s.entry.reset)
  rw [← hs] at hret
  exact hret

theorem calls_of_returns (h : Returns out (s.getNextInvisible tid)) :
    calls (out.length + 1) s tid = .ok (out.map (some ·.encode) ++ [none]) := by
  induction out generalizing s tid with
  | nil =>
    obtain ⟨s', hs'⟩ := h
    rw [length_nil, calls, hs']
    rfl
  | cons o out ih =>
    obtain ⟨s', hs', htodo⟩ := h
    rw [length_cons, calls, hs']
    dsimp only
    rw [ih htodo.getNextInvisible]
    rfl

/-! ## Segment file 127 -/

/-- There is still an entry of segment file 127 to come. -/
def Ahead (rows : List VisimapTuple) : Prop := ∃ t ∈ rows, t.key.segno = 127

abbrev StopsAt127 (rows : List VisimapTuple) : Prop := (∀ t ∈ rows, t.key.InRange) ∧ StoreOk rows ∧
    Ahead rows

theorem nextEntry_ahead (hrows : StopsAt127 rows) {r : Option AOTupleIdData}
    (h : nextEntry rows e = .ok (r, s)) : r ≠ none ∧ StopsAt127 s.indexScan := by
  induction rows generalizing e with
  | nil =>
    obtain ⟨-, -, t, ht, -⟩ := hrows
    cases ht
  | cons t rows ih =>
    obtain ⟨hrows, hread, hahead⟩ := hrows
    obtain ⟨bitmap, hhas⟩ := hread t mem_cons_self
    obtain ⟨e', hcopy, hkey, -⟩ := copyout_eq hhas e
    rw [nextEntry, hcopy] at h
    dsimp only at h
    have hrange : e'.key.InRange := hkey ▸ hrows t mem_cons_self
    by_cases hseg : t.key.segno = 127
    · have herror : e'.getNextInvisible .invalid = .error "FailedAssertion" := by
        unfold VisimapEntry.getNextInvisible
        rw [InRange.isValid hrange, if_neg (by decide), coversTupleData_invalid hrange, hkey,
          if_pos hseg]
      rw [herror] at h
      cases h
    have hrest : StopsAt127 rows := by
      refine ⟨fun u hu => hrows u (mem_cons_of_mem _ hu),
        fun u hu => hread u (mem_cons_of_mem _ hu), ?_⟩
      obtain ⟨u, hu, hu127⟩ := hahead
      rcases mem_cons.mp hu with rfl | hu
      · exact absurd hu127 hseg
      · exact ⟨u, hu, hu127⟩
    split at h
    · cases h
    · exact ih hrest h
    · cases h
      exact ⟨Option.some_ne_none _, hrest⟩

theorem getNextInvisible_ahead (hrows : StopsAt127 s.indexScan) {r : Option AOTupleIdData}
    {s' : VisimapScan} (h : s.getNextInvisible tid = .ok (r, s')) :
    r ≠ none ∧ StopsAt127 s'.indexScan := by
  unfold VisimapScan.getNextInvisible at h
  split at h
  · cases h
  split at h
  · split at h
    · cases h
    · exact nextEntry_ahead hrows h
    · cases h
      exact ⟨Option.some_ne_none _, hrows⟩
  · exact nextEntry_ahead hrows h

theorem calls_ahead {n : Nat} (hrows : StopsAt127 s.indexScan) {l : List (Option AOTupleIdData)}
    (h : calls n s tid = .ok l) : none ∉ l := by
  fun_induction calls n s tid generalizing l with
  | case1 =>
    cases h
    exact not_mem_nil
  | case2 => cases h
  | case3 n s tid s' hs' => exact absurd rfl (getNextInvisible_ahead hrows hs').1
  | case4 n s tid tid' s' hs' ih =>
    cases hc : calls n s' tid' with
    | error err =>
      rw [hc] at h
      cases h
    | ok l' =>
      rw [hc] at h
      cases h
      exact not_mem_cons_of_ne_of_not_mem nofun (ih (getNextInvisible_ahead hrows hs').2 hc)

end Scan

/-! ## All hidden rows -/

theorem VisimapOk.find?_eq (h : VisimapOk rows) (ht : t ∈ rows) :
    rows.find? (fun u => u.key = t.key) = some t := by
  have hkeys : (rows.map (·.key)).Nodup := by
    refine pairwise_map.mpr (h.order.imp fun hlt heq => ?_)
    rw [heq] at hlt
    unfold VisimapKey.Lt at hlt
    omega
  cases hf : rows.find? (fun u => u.key = t.key) with
  | none => exact absurd (find?_eq_none.mp hf t ht) (by simp)
  | some u =>
    exact congrArg some (inj_on_of_nodup_map hkeys (mem_of_find?_eq_some hf) ht
      (by simpa using find?_some hf))

theorem VisimapKey.InRange.visimapKey_eq {key : VisimapKey} (h : key.InRange)
    (hx : x < APPENDONLY_VISIMAP_MAX_RANGE) :
      visimapKey ⟨key.segno.toNat, key.firstRowNum.toNat + x⟩ = key ∧
      visimapOffset ⟨key.segno.toNat, key.firstRowNum.toNat + x⟩ = x := by
  obtain ⟨seg, q, -, -, hs, hf⟩ := h.spec
  rw [APPENDONLY_VISIMAP_MAX_RANGE_eq] at hx
  obtain ⟨segno, firstRowNum⟩ := key
  simp only at hs hf
  simp only [visimapKey, visimapOffset, APPENDONLY_VISIMAP_MAX_RANGE_eq, VisimapKey.mk.injEq]
  omega

theorem mem_hiddenRows (h : VisimapOk rows) (tid : AOTupleId) :
    tid ∈ rows.flatMap (·.hiddenRows) ↔ StoredHidden rows tid := by
  rw [mem_flatMap]
  constructor
  · rintro ⟨t, ht, hin⟩
    obtain ⟨bitmap, hhas⟩ := h.readable t ht
    rw [hiddenRows, hhas.bitmap_eq] at hin
    obtain ⟨x, hx, rfl⟩ := mem_map.mp hin
    obtain ⟨hkey, hoff⟩ := (h.inRange t ht).visimapKey_eq (membersFrom_lt hhas.ok hx)
    refine ⟨bitmap, ?_, by rw [hoff]; exact (mem_membersFrom x).mp hx⟩
    unfold StoredAs
    rw [hkey, h.find?_eq ht]
    exact hhas
  · rintro ⟨bitmap, hst, hm⟩
    unfold StoredAs at hst
    cases hf : rows.find? (fun t => t.key = tid.visimapKey) with
    | none =>
      rw [hf] at hst
      rw [show bitmap = none from hst] at hm
      cases hm
    | some t =>
      rw [hf] at hst
      have hkey : t.key = tid.visimapKey := by simpa using find?_some hf
      refine ⟨t, mem_of_find?_eq_some hf, ?_⟩
      rw [hiddenRows, hst.bitmap_eq, hkey]
      refine mem_map.mpr ⟨_, (mem_membersFrom _).mpr hm, ?_⟩
      obtain ⟨seg, row⟩ := tid
      exact congrArg (mk seg) (Nat.div_add_mod' row _)

theorem hiddenRows_order (h : VisimapOk rows) : (rows.flatMap (·.hiddenRows)).Pairwise Lt := by
  have hmem : ∀ t ∈ rows, ∀ tid ∈ t.hiddenRows, ∃ x < 32768, tid =
      ⟨t.key.segno.toNat, t.key.firstRowNum.toNat + x⟩ := by
    intro t ht tid hin
    obtain ⟨bitmap, hhas⟩ := h.readable t ht
    rw [hiddenRows, hhas.bitmap_eq] at hin
    obtain ⟨x, hx, rfl⟩ := mem_map.mp hin
    exact ⟨x, membersFrom_lt hhas.ok hx, rfl⟩
  refine pairwise_flatMap.mpr
    ⟨fun t _ => ?_, h.order.imp_of_mem fun ht hu hlt tid htid uid huid => ?_⟩
  · -- inside an entry
    refine pairwise_map.mpr
      (List.Pairwise.imp (fun hlt => .inr ⟨rfl, Nat.add_lt_add_left hlt _⟩) ?_)
    cases t.bitmap with
    | none => exact List.Pairwise.nil
    | some words => exact List.Pairwise.filter _ (pairwise_lt_range' 1)
  -- from one entry to a later one
  obtain ⟨x, hx, rfl⟩ := hmem _ ht _ htid
  obtain ⟨y, hy, rfl⟩ := hmem _ hu _ huid
  obtain ⟨seg, q, -, -, hs, hq⟩ := (h.inRange _ ht).spec
  obtain ⟨seg', q', -, -, hs', hq'⟩ := (h.inRange _ hu).spec
  unfold VisimapKey.Lt at hlt
  unfold Lt
  dsimp only
  omega

/-- **The scan** returns every hidden row once, in the order of the index, and then false, without a
failed assertion, if and only if no entry is of segment file 127. -/
theorem visimapScan_iff (rows : List VisimapTuple) (h : VisimapOk rows) (tid : AOTupleIdData) :
    (∃ out : List AOTupleId, out.Pairwise Lt ∧ (∀ t, t ∈ out ↔ StoredHidden rows t) ∧
      calls (out.length + 1) (.init rows) tid = .ok (out.map (some ·.encode) ++ [none])) ↔
      ∀ t ∈ rows, t.key.segno ≠ 127 := by
  constructor
  · rintro ⟨out, -, -, hcalls⟩ t ht hseg
    exact calls_ahead (s := .init rows) ⟨h.inRange, h.readable, t, ht, hseg⟩ hcalls (by simp)
  · intro hseg
    refine ⟨_, hiddenRows_order h, mem_hiddenRows h, calls_of_returns ?_⟩
    exact nextEntry_returns (fun t ht => ⟨h.inRange t ht, hseg t ht⟩) h.readable _

/-- Two entries, of which the first hides no row. -/
theorem visimapScan_emptyEntry : ∃ (bytes bytes' : List (BitVec 8)) (out : List AOTupleId),
    ⟨1, 32773⟩ ∈ out ∧ ⟨1, 5⟩ ∉ out ∧
    calls (out.length + 1) (.init [⟨⟨1, 0⟩, some bytes⟩, ⟨⟨1, 32768⟩, some bytes'⟩]) .invalid =
      .ok (out.map (some ·.encode) ++ [none]) := by
  obtain ⟨bytes, henc⟩ := exists_encodes [] (by decide)
  obtain ⟨bytes', henc'⟩ := exists_encodes [5] (by decide)
  have hrows : VisimapOk [⟨⟨1, 0⟩, some bytes⟩, ⟨⟨1, 32768⟩, some bytes'⟩] :=
    ⟨forall_mem_cons.mpr ⟨⟨⟨1, 5⟩, by decide, by decide, rfl⟩,
      forall_mem_singleton.mpr ⟨⟨1, 32773⟩, by decide, by decide, rfl⟩⟩,
    forall_mem_cons.mpr ⟨⟨_, henc⟩, forall_mem_singleton.mpr ⟨_, henc'⟩⟩,
    pairwise_pair.mpr (.inr ⟨rfl, show 0 < 32768 by decide⟩)⟩
  obtain ⟨out, -, hout, hcalls⟩ := (visimapScan_iff _ hrows .invalid).mpr (by simp)
  refine ⟨bytes, bytes', out, (hout _).mpr ⟨_, henc', rfl⟩, fun hmem => ?_, hcalls⟩
  obtain ⟨bitmap, hs, hm⟩ := (hout _).mp hmem
  have hnone : bitmap = none := TupleHas.unique hs henc
  rw [hnone] at hm
  cases hm

/-- An entry of segment file 127 that hides row 5: the first call ends with a failed assertion. -/
theorem visimapScan_segment127 :
    getNextInvisible (.init [⟨⟨127, 0⟩, some [0x80, 1, 0xC0, 0, 0, 8, 0]⟩]) .invalid =
    .error "FailedAssertion" := by
  decide +kernel

end PolemoDB.AppendOnly
