import PolemoDB.Lib.LsbBits
import PolemoDB.Misc.BitmapCompression

/-!
# Entries of the visibility map (`appendonly_visimap_entry.c`)

An entry says for 32768 rows of a segment file which of them are hidden.  In memory it is a
`Bitmapset` of 64-bit words, `NULL` if no row is hidden; in the visibility map relation it is a
compressed sequence of 32-bit words.

* `visimapEntry_roundtrip` — both together for every set that hiding rows can make.
-/

namespace PolemoDB.AppendOnly

open PolemoDB.Lib PolemoDB.Misc List

/-! ## Bitmap sets (`bitmapset.c`) -/

/-- `Bitmapset *`, with 64-bit words. -/
abbrev Bitmapset := Option (List (BitVec 64))

def bmsIsMember (x : Nat) : Bitmapset → Bool
  | none => false
  | some words =>
    if x / 64 ≥ words.length then false else decide
      (words.getD (x / 64) 0 &&& 1#64 <<< (x % 64) ≠ 0)

def bmsCoversMember (x : Nat) : Bitmapset → Bool
  | none => false
  | some words => decide (x / 64 < words.length)

def bmsResize (wc : Nat) : Bitmapset → Bitmapset
  | some words => if words.length ≥ wc then some words else some
    (words ++ List.replicate (wc - words.length) 0)
  | none => some (List.replicate wc 0)

/-- `bms_add_member`; `bms_make_singleton` for `NULL`. -/
def bmsAddMember (x : Nat) : Bitmapset → Bitmapset
  | none => some (setBit (List.replicate (x / 64 + 1) 0) x)
  | some words =>
    some (setBit (if x / 64 ≥ words.length then words ++
      List.replicate (x / 64 + 1 - words.length) 0 else words) x)

def bmsIsEmpty : Bitmapset → Bool
  | none => true
  | some words => words.all (· == 0)

/-! ## Hiding a row -/

def APPENDONLY_VISIMAP_MAX_RANGE : Nat := 32768
def APPENDONLY_VISIMAP_MAX_BITMAP_SIZE : Nat := 4096

/-- `APPENDONLY_VISIMAP_MAX_BITMAP_WORD_COUNT`, for words of eight bytes. -/
def APPENDONLY_VISIMAP_MAX_BITMAP_WORD_COUNT : Nat := APPENDONLY_VISIMAP_MAX_BITMAP_SIZE / 8

/-- `minSize |= minSize >> n`. -/
def smear (n : Nat) (minSize : BitVec 32) : BitVec 32 := minSize ||| minSize >>> n

/-- `AppendOnlyVisimapEntry_GetMinimalSizeToCover`. -/
def getMinimalSizeToCover (offset : Nat) : Nat :=
  let minSize := BitVec.ofNat 32 (offset / 64 + 1) - 1
  (smear 16 (smear 8 (smear 4 (smear 2 (smear 1 minSize)))) + 1).toNat

/-- The part of `AppendOnlyVisimapEntry_HideTuple` that enlarges the bitmap by a power of two. -/
def enlarge (offset : Nat) (bitmap : Bitmapset) : Bitmapset :=
  if bmsCoversMember offset bitmap then bitmap else bmsResize (getMinimalSizeToCover offset) bitmap

/-- `AppendOnlyVisimapEntry_HideTuple` on the bitmap. -/
def hideOffset (bitmap : Bitmapset) (offset : Nat) : Bitmapset :=
  let bitmap := enlarge offset bitmap
  if bmsIsMember offset bitmap then bitmap else bmsAddMember offset bitmap

/-! ## Writing and reading -/

/-- The words in memory as an array of 32-bit words, on a little-endian machine. -/
def halves (words : List (BitVec 64)) : List (BitVec 32) :=
  words.flatMap fun (w : BitVec 64) => [w.setWidth 32, (w >>> 32).setWidth 32]

/-- An array of 32-bit words as 64-bit words. -/
def joinHalves : List (BitVec 32) → List (BitVec 64)
  | lo :: hi :: rest => (hi ++ lo) :: joinHalves rest
  | _ => []

/-- `BitmapCompress_CalculateBlockCounts`: `onDiskBlockCount`. -/
def compressBlockCount : Bitmapset → Nat
  | none => 0
  | some words => if words.length = 1 ∧ words.getD 0 0 >>> 32 = 0 then 1 else words.length * 2

/-- `BitmapDecompress_CalculateBlockCounts`: `bmsWordCount`. -/
def decompressWordCount (onDiskBlockCount : Nat) : Nat :=
  if onDiskBlockCount = 1 then 1 else onDiskBlockCount / 2

/-- `AppendOnlyVisimapEntry_WriteData`: the contents of the data buffer and the number of bytes
used. -/
def writeData (bitmap : Bitmapset) (data : List (BitVec 8)) :
    Except String (List (BitVec 8) × Nat) :=
  let blockCount := compressBlockCount bitmap
  let bitmapSize := 4 * blockCount + 2
  match bitmapCompress .default ((halves (bitmap.getD [])).take blockCount)
    (data.take bitmapSize) with
  | .error e => .error e
  | .ok (out, compressedBitmapSize) => .ok (out ++ data.drop bitmapSize, compressedBitmapSize)

/-- `AppendOnlyVisiMapEnty_ReadData`, over the previous contents of the local `decompressState`. -/
def readData (decompressState : BitmapDecompressState) (data : List (BitVec 8)) (dataSize : Nat) :
    Except String Bitmapset :=
  let state := (bitmapDecompressInit decompressState data dataSize).1
  if bitmapDecompressHasError state then .error "error occurred during visimap bitmap decompression"
  else
    let onDiskBlockCount := bitmapDecompressGetBlockCount state
    if onDiskBlockCount > 0 then
      let words := List.replicate (2 * decompressWordCount onDiskBlockCount) 0
      match bitmapDecompressDecompress state words onDiskBlockCount with
      | .error e => .error e
      | .ok (_, words) => .ok (some (joinHalves words))
    else .ok none

/-! ## The set of hidden rows -/

theorem bmsIsMember_some (words : List (BitVec 64)) (x : Nat) :
    bmsIsMember x (some words) = lsbAt words x := by
  unfold bmsIsMember
  dsimp only
  split
  next h => rw [lsbAt_of_length_le (by decide) (by omega)]
  · exact and_one_shiftLeft_ne_zero _ (Nat.mod_lt _ (by decide))

/-- A bitmap that is not `NULL` has a word, and not more than a row range needs. -/
def BmsOk (bitmap : Bitmapset) : Prop :=
  ∀ words, bitmap = some words → 0 < words.length ∧
  words.length ≤ APPENDONLY_VISIMAP_MAX_BITMAP_WORD_COUNT

theorem bmsOk_none : BmsOk none := fun _ h => by cases h

theorem bmsOk_some {words : List (BitVec 64)} (hpos : 0 < words.length)
    (hle : words.length ≤ APPENDONLY_VISIMAP_MAX_BITMAP_WORD_COUNT) : BmsOk (some words) := by
  rintro _ ⟨⟩
  exact ⟨hpos, hle⟩

theorem smear_toNat {n k : Nat} {x : BitVec 32} (h : x.toNat < 2 ^ k) :
    x.toNat ≤ (smear n x).toNat ∧ (smear n x).toNat < 2 ^ k := by
  unfold smear
  exact ⟨Nat.left_le_or, Nat.or_lt_two_pow h ((Nat.shiftRight_le _ _).trans_lt h)⟩

variable {offset : Nat} {bitmap : Bitmapset}

theorem getMinimalSizeToCover_spec (h : offset < APPENDONLY_VISIMAP_MAX_RANGE) :
    offset / 64 < getMinimalSizeToCover offset ∧
      getMinimalSizeToCover offset ≤ APPENDONLY_VISIMAP_MAX_BITMAP_WORD_COUNT := by
  have hrange : offset < 32768 := h
  have hcount : APPENDONLY_VISIMAP_MAX_BITMAP_WORD_COUNT = 2 ^ 9 := rfl
  have h0 : (BitVec.ofNat 32 (offset / 64 + 1) - 1).toNat = offset / 64 := by
    rw [BitVec.toNat_sub, BitVec.toNat_ofNat]
    show (2 ^ 32 - 1 + _) % 2 ^ 32 = _
    omega
  unfold getMinimalSizeToCover
  generalize BitVec.ofNat 32 (offset / 64 + 1) - 1 = m at h0
  obtain ⟨l1, u1⟩ := smear_toNat (n := 1) (k := 9) (show m.toNat < 2 ^ 9 by omega)
  obtain ⟨l2, u2⟩ := smear_toNat (n := 2) u1
  obtain ⟨l3, u3⟩ := smear_toNat (n := 4) u2
  obtain ⟨l4, u4⟩ := smear_toNat (n := 8) u3
  obtain ⟨l5, u5⟩ := smear_toNat (n := 16) u4
  show offset / 64 < (_ + 1) % 2 ^ 32 ∧ (_ + 1) % 2 ^ 32 ≤ _
  omega

theorem enlarge_spec (hok : BmsOk bitmap) (h : offset < APPENDONLY_VISIMAP_MAX_RANGE) :
    ∃ words, enlarge offset bitmap = some words ∧ offset / 64 < words.length ∧
      words.length ≤ APPENDONLY_VISIMAP_MAX_BITMAP_WORD_COUNT ∧
      ∀ x, bmsIsMember x (some words) = bmsIsMember x bitmap := by
  obtain ⟨hlt, hle⟩ := getMinimalSizeToCover_spec h
  unfold enlarge
  cases bitmap with
  | none =>
    refine ⟨_, rfl, by simpa using hlt, by simpa using hle, fun x => ?_⟩
    simp [bmsIsMember]
  | some words =>
    by_cases hc : offset / 64 < words.length
    · exact ⟨words, by simp [bmsCoversMember, hc], hc, (hok words rfl).2, fun _ => rfl⟩
    rw [if_neg (by simpa [bmsCoversMember] using hc)]
    refine ⟨words ++ replicate (getMinimalSizeToCover offset - words.length) 0, ?_, ?_, ?_,
      fun x => ?_⟩
    · exact if_neg (by omega)
    · rw [length_append, length_replicate]
      omega
    · rw [length_append, length_replicate]
      omega
    · rw [bmsIsMember_some, bmsIsMember_some, lsbAt_append_zeros]

/-- **Hiding a row** adds its offset to the set. -/
theorem hideOffset_spec (hok : BmsOk bitmap) (h : offset < APPENDONLY_VISIMAP_MAX_RANGE) :
    BmsOk (hideOffset bitmap offset) ∧
      ∀ x, bmsIsMember x (hideOffset bitmap offset) =
      (bmsIsMember x bitmap || decide (x = offset)) := by
  obtain ⟨words, he, hlt, hle, hmem⟩ := enlarge_spec hok h
  unfold hideOffset
  rw [he]
  by_cases hm : bmsIsMember offset (some words) = true
  · rw [if_pos hm]
    refine ⟨bmsOk_some (by omega) hle, fun x => ?_⟩
    rw [hmem x]
    by_cases hx : x = offset
    · rw [hx, ← hmem, hm, Bool.true_or]
    · rw [decide_eq_false hx, Bool.or_false]
  rw [if_neg hm]
  have hadd : bmsAddMember offset (some words) = some (setBit words offset) := by
    unfold bmsAddMember
    dsimp only
    rw [if_neg (by omega)]
  rw [hadd]
  refine ⟨bmsOk_some (by rw [setBit_length]; omega) (by rw [setBit_length]; exact hle),
    fun x => ?_⟩
  rw [bmsIsMember_some, lsbAt_setBit (by decide) (by omega), ← bmsIsMember_some, hmem x]

/-! ## Round trip -/

theorem halves_length (words : List (BitVec 64)) : (halves words).length = 2 * words.length := by
  induction words with
  | nil => rfl
  | cons w words ih =>
    rw [halves, flatMap_cons, length_append, length_cons, ← halves, ih]
    simp
    omega

theorem append_halves (w : BitVec 64) : (w >>> 32).setWidth 32 ++ w.setWidth 32 = w := by
  apply BitVec.eq_of_getLsbD_eq
  intro i hi
  rw [BitVec.getLsbD_append, BitVec.getLsbD_setWidth, BitVec.getLsbD_setWidth,
    BitVec.getLsbD_ushiftRight]
  by_cases h : i < 32
  · simp [h]
  · rw [if_neg h, show 32 + (i - 32) = i by omega, decide_eq_true (show i - 32 < 32 by omega),
      Bool.true_and]

theorem joinHalves_halves (words : List (BitVec 64)) : joinHalves (halves words) = words := by
  induction words with
  | nil => rfl
  | cons w words ih =>
    show ((w >>> 32).setWidth 32 ++ w.setWidth 32) :: joinHalves (halves words) = _
    rw [append_halves, ih]

theorem joinHalves_blocks {words : List (BitVec 64)} (hpos : 0 < words.length) :
    let blocks := (halves words).take (compressBlockCount (some words))
    blocks.length = compressBlockCount (some words) ∧ 0 < blocks.length ∧
      blocks.length ≤ 2 * decompressWordCount blocks.length ∧
      joinHalves (blocks ++
      (replicate (2 * decompressWordCount blocks.length) 0).drop blocks.length) = words := by
  have hlen := halves_length words
  unfold compressBlockCount
  dsimp only
  by_cases hone : words.length = 1 ∧ words.getD 0 0 >>> 32 = 0
  · obtain ⟨w, rfl⟩ := length_eq_one_iff.1 hone.1
    have hw : w >>> 32 = 0 := hone.2
    rw [if_pos hone]
    refine ⟨rfl, Nat.one_pos, Nat.le_succ 1, ?_⟩
    have h0 := append_halves w
    rw [hw] at h0
    exact congrArg (fun v => [v]) h0
  · rw [if_neg hone, take_of_length_le (by omega), hlen]
    have hcount : decompressWordCount (2 * words.length) = words.length := by
      unfold decompressWordCount
      rw [if_neg (by omega)]
      omega
    refine ⟨by omega, by omega, by rw [hcount], ?_⟩
    rw [hcount, drop_of_length_le (by simp), append_nil, joinHalves_halves]

/-- The room for the compressed bitmap in `APPENDONLY_VISIMAP_DATA_BUFFER_SIZE`. -/
def VISIMAP_DATA_SIZE : Nat := APPENDONLY_VISIMAP_MAX_BITMAP_SIZE + 2

theorem compressBlockCount_le (hok : BmsOk bitmap) : compressBlockCount bitmap ≤ 1024 := by
  cases bitmap with
  | none => decide
  | some words =>
    have hle : words.length ≤ 512 := (hok words rfl).2
    unfold compressBlockCount
    dsimp only
    split <;> omega

/-- **What was written is read back** as the same words, also if other bytes follow the written
ones. -/
theorem readData_writeData (hok : BmsOk bitmap) {data : List (BitVec 8)}
    (hdata : data.length = VISIMAP_DATA_SIZE) :
      ∃ data' size, writeData bitmap data = .ok (data', size) ∧ data'.length = VISIMAP_DATA_SIZE ∧
      size ≤ VISIMAP_DATA_SIZE ∧
      ∀ (junk : List (BitVec 8)) (state : BitmapDecompressState),
      readData state (data'.take size ++ junk) size = .ok bitmap := by
  have hsize : data.length = 4098 := hdata
  have hcount := compressBlockCount_le hok
  have hblocks : ((halves (bitmap.getD [])).take (compressBlockCount bitmap)).length =
      compressBlockCount bitmap := by
    cases bitmap with
    | none => rfl
    | some words => exact (joinHalves_blocks (hok words rfl).1).1
  have hbuf : (data.take (4 * compressBlockCount bitmap + 2)).length =
      4 * compressBlockCount bitmap + 2 := by
    rw [length_take]
    omega
  obtain ⟨out, size, e, hout, hle, hread⟩ := bitmapCompress_readsBack
    (show ((halves (bitmap.getD [])).take (compressBlockCount bitmap)).length ≤ 4095 by omega)
    (show 4 * _ + 2 ≤ (data.take (4 * compressBlockCount bitmap + 2)).length by rw [hblocks, hbuf])
  refine ⟨_, size, by unfold writeData; dsimp only; rw [e], ?_, ?_, fun junk state => ?_⟩
  · rw [length_append, hout, length_take, length_drop]
    omega
  · omega
  rw [take_append_of_le_length (by omega)]
  obtain ⟨state', einit, herr, hn, hdec⟩ := hread junk state
  unfold readData
  rw [einit]
  dsimp only
  rw [herr, if_neg Bool.false_ne_true, hn]
  cases bitmap with
  | none => rfl
  | some words =>
    obtain ⟨-, hpos, hroom, hjoin⟩ := joinHalves_blocks (hok words rfl).1
    dsimp only [Option.getD_some] at hdec ⊢
    obtain ⟨state'', edec, -⟩ := hdec (replicate (2 * decompressWordCount _) 0) _ (Nat.le_refl _)
      (by rw [length_replicate]; exact hroom)
    rw [if_pos hpos, edec]
    dsimp only
    rw [hjoin]

/-- The bitmap after rows were hidden in an entry that covers them. -/
def hideOffsets (offsets : List Nat) : Bitmapset := offsets.foldl hideOffset none

theorem hideOffsets_ok {offsets : List Nat}
    (h : ∀ offset ∈ offsets, offset < APPENDONLY_VISIMAP_MAX_RANGE) :
    BmsOk (hideOffsets offsets) := by
  have hfold : ∀ {bitmap : Bitmapset}, BmsOk bitmap → BmsOk (offsets.foldl hideOffset bitmap) := by
    induction offsets with
    | nil => exact id
    | cons offset offsets ih =>
      intro bitmap hok
      exact ih (fun o ho => h o (mem_cons_of_mem _ ho))
        (hideOffset_spec hok (h offset mem_cons_self)).1
  exact hfold bmsOk_none

/-- **Entries of the visibility map are read back.**  Every set of hidden rows that an entry can
have is written within the data buffer, as one block or as an even number of at most 1024 blocks,
and read back with the same members. -/
theorem visimapEntry_roundtrip (offsets : List Nat)
    (hoffsets : ∀ offset ∈ offsets, offset < APPENDONLY_VISIMAP_MAX_RANGE)
    (data : List (BitVec 8)) (hdata : data.length = VISIMAP_DATA_SIZE) :
    let bitmap := hideOffsets offsets
    (compressBlockCount bitmap = 1 ∨ compressBlockCount bitmap % 2 = 0) ∧
      compressBlockCount bitmap ≤ 1024 ∧ ∃ data' size, writeData bitmap data = .ok (data', size) ∧
        size ≤ VISIMAP_DATA_SIZE ∧ ∀ state :
          BitmapDecompressState, ∃ bitmap', readData state data' size = .ok bitmap' ∧
          ∀ x, bmsIsMember x bitmap' = bmsIsMember x bitmap := by
  intro bitmap
  have hok : BmsOk bitmap := hideOffsets_ok hoffsets
  refine ⟨?_, compressBlockCount_le hok, ?_⟩
  · cases bitmap with
    | none => exact .inr rfl
    | some words =>
      unfold compressBlockCount
      dsimp only
      split
      · exact .inl rfl
      · exact .inr (Nat.mul_mod_left _ _)
  · obtain ⟨data', size, hwrite, -, hsize, hread⟩ := readData_writeData hok hdata
    refine ⟨data', size, hwrite, hsize, fun state => ⟨bitmap, ?_, fun _ => rfl⟩⟩
    have := hread (data'.drop size) state
    rwa [take_append_drop] at this

/-- Two rows that need two words. -/
theorem visimapEntry_roundtrip_two :
    ∃ data' size, writeData (hideOffsets [3, 70]) (List.replicate VISIMAP_DATA_SIZE 0) =
      .ok (data', size) ∧ size ≤ VISIMAP_DATA_SIZE ∧
      ∀ state : BitmapDecompressState, ∃ bitmap', readData state data' size = .ok bitmap' ∧
        bmsIsMember 3 bitmap' = true ∧ bmsIsMember 70 bitmap' = true ∧
        bmsIsMember 4 bitmap' = false := by
  obtain ⟨-, -, data', size, hwrite, hsize, hread⟩ :=
    visimapEntry_roundtrip [3, 70] (by decide) (replicate VISIMAP_DATA_SIZE 0)
    (by rw [length_replicate])
  refine ⟨data', size, hwrite, hsize, fun state => ?_⟩
  obtain ⟨bitmap', hbitmap, hmem⟩ := hread state
  exact ⟨bitmap', hbitmap, by rw [hmem]; rfl, by rw [hmem]; rfl, by rw [hmem]; rfl⟩

end PolemoDB.AppendOnly
