import PolemoDB.Lib.LeBytes
import PolemoDB.Misc.Bitstream

/-!
# Bitmap compression (`utils/misc/bitmap_compression.c`)

* `bitmapCompress` — header, default encoding (all-zero, all-one, raw and run-length codes), and
  the uncompressed form written instead when the encoding does not fit the output buffer.
* `bitmapDecompressInit` / `bitmapDecompressDecompress` — the reader, with its error reports.

`encBits` is the bit sequence of the default encoding.  `compressDefault_wrote` says that a
successful encoder run has written exactly `encBits`; `decompressLoop_encBits` says that the decoder
loop turns `encBits` back into the blocks.  `bitmapCompress_roundtrip` puts both together with
the header and the uncompressed form.
-/

namespace PolemoDB.Misc

open PolemoDB.Lib List

/-- `BitmapCompressionType`; the type is one bit of the header. -/
inductive BitmapCompressionType where
  | no
  | default
  | illegal (n : BitVec 32)
  deriving DecidableEq, Repr

/-- The enumeration value read from the header. -/
def BitmapCompressionType.ofWord (n : BitVec 32) : BitmapCompressionType :=
  if n = 0 then .no else if n = 1 then .default else .illegal n

/-- The enumeration value as the header stores it. -/
def BitmapCompressionType.toWord : BitmapCompressionType → BitVec 32
  | .no => 0
  | .default => 1
  | .illegal n => n

def BITMAP_COMPRESSION_FLAG_ZERO : BitVec 32 := 0
def BITMAP_COMPRESSION_FLAG_ONE : BitVec 32 := 1
def BITMAP_COMPRESSION_FLAG_RLE : BitVec 32 := 2
def BITMAP_COMPRESSION_FLAG_RAW : BitVec 32 := 3

/-- A block of ones. -/
def BLOCK_ALL_ONE : BitVec 32 := 0xFFFFFFFF

/-! ## Compression -/

/-- Write `flag` `count` times with two bits each. -/
def putFlags (flag : BitVec 32) : Nat → Bitstream → Bitstream × Bool
  | 0, bs => (bs, true)
  | n + 1, bs =>
    match bitstreamPut bs flag 2 with
    | (bs, false) => (bs, false)
    | (bs, true) => putFlags flag n bs

def bitmapEncodeRLE (bs : Bitstream) (rleRepeatCount : Nat) (lastBlockFlag : BitVec 32) :
    Bitstream × Bool :=
  if lastBlockFlag = BITMAP_COMPRESSION_FLAG_RAW ∨ rleRepeatCount > 4 then
    match bitstreamPut bs BITMAP_COMPRESSION_FLAG_RLE 2 with
    | (bs, false) => (bs, false)
    | (bs, true) => bitstreamPut bs (BitVec.ofNat 32 (rleRepeatCount - 1)) 8
  else putFlags lastBlockFlag rleRepeatCount bs

/-- The block's own code: its flag, and its contents for a raw block. -/
def putBlock (bs : Bitstream) (blockData : BitVec 32) : Bitstream × Bool × BitVec 32 :=
  if blockData = 0 then
    match bitstreamPut bs BITMAP_COMPRESSION_FLAG_ZERO 2 with
    | (bs, r) => (bs, r, BITMAP_COMPRESSION_FLAG_ZERO)
  else if blockData = BLOCK_ALL_ONE then
    match bitstreamPut bs BITMAP_COMPRESSION_FLAG_ONE 2 with
    | (bs, r) => (bs, r, BITMAP_COMPRESSION_FLAG_ONE)
  else
    match bitstreamPut bs BITMAP_COMPRESSION_FLAG_RAW 2 with
    | (bs, false) => (bs, false, BITMAP_COMPRESSION_FLAG_RAW)
    | (bs, true) =>
      match bitstreamPut bs blockData 32 with
      | (bs, r) => (bs, r, BITMAP_COMPRESSION_FLAG_RAW)

/-- A pending repetition is written before anything else. -/
def flushRLE (bs : Bitstream) (rleRepeatCount : Nat) (lastBlockFlag : BitVec 32) :
    Bitstream × Bool :=
  if rleRepeatCount > 0 then bitmapEncodeRLE bs rleRepeatCount lastBlockFlag else (bs, true)

/-- The loop of `Bitmap_Compress_Default` from block `i` on, with the final flush. -/
def compressLoop : List (BitVec 32) → Nat → BitVec 32 → BitVec 32 → Nat → Bitstream →
    Bitstream × Bool
  | [], _, _, lastBlockFlag, rleRepeatCount, bs => flushRLE bs rleRepeatCount lastBlockFlag
  | blockData :: rest, i, lastBlockData, lastBlockFlag, rleRepeatCount, bs =>
    if blockData = lastBlockData ∧ rleRepeatCount ≤ 255 ∧ i > 0 then
      compressLoop rest (i + 1) lastBlockData lastBlockFlag (rleRepeatCount + 1) bs
    else
      match flushRLE bs rleRepeatCount lastBlockFlag with
      | (bs, false) => (bs, false)
      | (bs, true) =>
        match putBlock bs blockData with
        | (bs, false, _) => (bs, false)
        | (bs, true, flag) => compressLoop rest (i + 1) blockData flag 0 bs

def bitmapCompressDefault (bitmap : List (BitVec 32)) (bs : Bitstream) : Bitstream × Bool :=
  compressLoop bitmap 0 0 0 0 bs

def bitmapCompressWriteHeader (compressionType : BitmapCompressionType) (blockCount : Nat)
    (bs : Bitstream) : Bitstream × Bool :=
  match bitstreamPut bs compressionType.toWord 1 with
  | (bs, false) => (bs, false)
  | (bs, true) =>
    match bitstreamSkip bs 3 with
    | (bs, false) => (bs, false)
    | (bs, true) => bitstreamPut bs (BitVec.ofNat 32 blockCount) 12

/-- The `BITMAP_COMPRESSION_TYPE_NO` branch of `Bitmap_Compress`, after the header. -/
def bitmapCopyOut (bitmap : List (BitVec 32)) (bs : Bitstream) : List (BitVec 8) × Nat :=
  if bitmap.length = 0 then (bs.data, 2)
  else
    let bs := bitstreamGetAlignedData bs 16
    (memcpyAt bs.data bs.byteOffset (wordBytes 4 bitmap), bitmap.length * 4 + 2)

/-- The message of a failed header write. -/
def headerFailed : String := "Failed to write bitmap compression header"

/-- `Bitmap_Compress` with `BITMAP_COMPRESSION_TYPE_NO`, into a buffer of the given length. -/
def bitmapCompressNo (bitmap : List (BitVec 32)) (maxOutDataSize : Nat) :
    Except String (List (BitVec 8) × Nat) :=
  match bitmapCompressWriteHeader .no bitmap.length
      (bitstreamInit (replicate maxOutDataSize 0) maxOutDataSize) with
  | (_, false) => .error headerFailed
  | (bs, true) => .ok (bitmapCopyOut bitmap bs)

/-- `Bitmap_Compress`: the contents of `outData` after the call and the number of bytes used.
Every byte of `outData` is cleared first, so only its length matters. -/
def bitmapCompress (compressionType : BitmapCompressionType) (bitmap : List (BitVec 32))
    (outData : List (BitVec 8)) : Except String (List (BitVec 8) × Nat) :=
  match compressionType with
  | .no => bitmapCompressNo bitmap outData.length
  | .default =>
    match bitmapCompressWriteHeader .default bitmap.length
        (bitstreamInit (replicate outData.length 0) outData.length) with
    | (_, false) => .error headerFailed
    | (bs, true) =>
      match bitmapCompressDefault bitmap bs with
      | (_, false) => bitmapCompressNo bitmap outData.length
      | (bs, true) => .ok (bs.data, bitstreamGetLength bs)
  | .illegal n =>
    match bitmapCompressWriteHeader (.illegal n) bitmap.length
        (bitstreamInit (replicate outData.length 0) outData.length) with
    | (_, false) => .error headerFailed
    | (_, true) =>
      .error s!"illegal compression type during bitmap compression: compression type {n.toNat}"

/-! ## Decompression -/

structure BitmapDecompressState where
  bitstream : Bitstream
  compressionType : BitmapCompressionType
  blockCount : Nat
  deriving DecidableEq, Repr

/-- `BitmapDecompress_Init`, over the previous contents of `*state`. -/
def bitmapDecompressInit (state : BitmapDecompressState) (inData : List (BitVec 8))
    (inDataSize : Nat) : BitmapDecompressState × Bool :=
  match bitstreamGet (bitstreamInit inData inDataSize) 1 with
  | (bs, none) => ({ state with bitstream := bs }, false)
  | (bs, some tmp) =>
    let state := { state with compressionType := .ofWord tmp }
    match bitstreamSkip bs 3 with
    | (bs, false) => ({ state with bitstream := bs }, false)
    | (bs, true) =>
      match bitstreamGet bs 12 with
      | (bs, none) => ({ state with bitstream := bs }, false)
      | (bs, some tmp) => ({ state with bitstream := bs, blockCount := tmp.toNat }, true)

def bitmapDecompressGetBlockCount (state : BitmapDecompressState) : Nat := state.blockCount

def bitmapDecompressHasError (state : BitmapDecompressState) : Bool := state.bitstream.error

/-- Local variables of the decoder loop. -/
structure DecompressVars where
  bitstream : Bitstream
  lastBlockData : BitVec 32
  rleRepeatCount : BitVec 32
  failed : Bool
  bitmap : List (BitVec 32)
  deriving DecidableEq, Repr

/-- Store a block and remember it as the last one. -/
def DecompressVars.put (s : DecompressVars) (i : Nat) (x : BitVec 32) : DecompressVars :=
  { s with bitmap := s.bitmap.set i x, lastBlockData := x }

/-- A failed read inside the `switch`: block `i` keeps its old contents and becomes the last one. -/
def DecompressVars.fail (s : DecompressVars) (i : Nat) : DecompressVars :=
  { s with failed := true, lastBlockData := s.bitmap.getD i 0 }

/-- One round of the decoder loop; the flag says whether the loop is left. -/
def decompressBlock (i : Nat) (s : DecompressVars) : Except String (DecompressVars × Bool) :=
  if s.rleRepeatCount = 0 then
    match bitstreamGet s.bitstream 2 with
    | (bs, none) => .ok ({ s with bitstream := bs, failed := true }, true)
    | (bs, some flag) =>
      if flag = BITMAP_COMPRESSION_FLAG_ZERO then .ok ({ s with bitstream := bs }.put i 0, false)
      else if flag = BITMAP_COMPRESSION_FLAG_ONE then
        .ok ({ s with bitstream := bs }.put i BLOCK_ALL_ONE, false)
      else if flag = BITMAP_COMPRESSION_FLAG_RAW then
        match bitstreamGet bs 32 with
        | (bs, none) => .ok ({ s with bitstream := bs }.fail i, false)
        | (bs, some x) => .ok ({ s with bitstream := bs }.put i x, false)
      else if flag = BITMAP_COMPRESSION_FLAG_RLE then
        match bitstreamGet bs 8 with
        | (bs, none) => .ok ({ s with bitstream := bs }.fail i, false)
        | (bs, some n) =>
          .ok ({ s with bitstream := bs, rleRepeatCount := n }.put i s.lastBlockData, false)
      else .error "Invalid compression flag"
  else
    .ok ({ s with
      bitmap := s.bitmap.set i s.lastBlockData, rleRepeatCount := s.rleRepeatCount - 1 }, false)

/-- The loop over the remaining `n` blocks. -/
def decompressLoop : Nat → Nat → DecompressVars → Except String DecompressVars
  | 0, _, s => .ok s
  | n + 1, i, s =>
    match decompressBlock i s with
    | .error e => .error e
    | .ok (s, true) => .ok s
    | .ok (s, false) => decompressLoop n (i + 1) s

/-- The compression type as the error messages print it. -/
def BitmapCompressionType.num (t : BitmapCompressionType) : Nat := t.toWord.toNat

/-- `BitmapDecompress_Decompress`: the state and the caller's block buffer after the call. -/
def bitmapDecompressDecompress (state : BitmapDecompressState) (bitmap : List (BitVec 32))
    (bitmapDataSize : Nat) : Except String (BitmapDecompressState × List (BitVec 32)) :=
  if state.blockCount > bitmapDataSize then
    .error s!"invalid block count for bitmap during decompression: block count {state.blockCount}, compression type {state.compressionType.num}"
  else
    match state.compressionType with
    | .no =>
      let bs := bitstreamGetAlignedData state.bitstream 16
      let blocks := readWords 32 4 state.blockCount (bs.data.drop bs.byteOffset)
      .ok ({ state with bitstream := bs }, blocks ++ bitmap.drop state.blockCount)
    | .default =>
      match decompressLoop state.blockCount 0 ⟨state.bitstream, 0, 0, false, bitmap⟩ with
      | .error e => .error e
      | .ok s =>
        if s.rleRepeatCount ≠ 0 then
          .error s!"illegal RLE state after bitmap decompression: block count {state.blockCount}, compression type {state.compressionType.num}, rle repeat count {s.rleRepeatCount.toNat}"
        else if s.failed then
          .error s!"bitstream read error seen during decompression: block count {state.blockCount}, compression type {state.compressionType.num}"
        else .ok ({ state with bitstream := s.bitstream }, s.bitmap)
    | .illegal n =>
      .error s!"illegal compression type during bitmap decompression: compression type {n.toNat}"

/-! ## The bits of the default encoding -/

/-- Flag under which a block is written. -/
def blockFlag (blockData : BitVec 32) : BitVec 32 :=
  if blockData = 0 then BITMAP_COMPRESSION_FLAG_ZERO
  else if blockData = BLOCK_ALL_ONE then BITMAP_COMPRESSION_FLAG_ONE
  else BITMAP_COMPRESSION_FLAG_RAW

/-- The code of one block. -/
def blockBits (blockData : BitVec 32) : List Bool := msbBits 2 (blockFlag blockData) ++
    if blockFlag blockData = BITMAP_COMPRESSION_FLAG_RAW then msbBits 32 blockData else []

/-- The code of `count` repetitions of the last block. -/
def rleBits (count : Nat) (lastBlockData : BitVec 32) : List Bool :=
  if count = 0 then []
  else if blockFlag lastBlockData = BITMAP_COMPRESSION_FLAG_RAW ∨ count > 4 then
    msbBits 2 BITMAP_COMPRESSION_FLAG_RLE ++ msbBits 8 (BitVec.ofNat 32 (count - 1))
  else (replicate count (msbBits 2 (blockFlag lastBlockData))).flatten

/-- The code of the blocks from `i` on, with `rle` repetitions of the last block pending. -/
def encBits : List (BitVec 32) → Nat → BitVec 32 → Nat → List Bool
  | [], _, last, rle => rleBits rle last
  | x :: xs, i, last, rle =>
    if x = last ∧ rle ≤ 255 ∧ i > 0 then encBits xs (i + 1) last (rle + 1)
    else rleBits rle last ++ (blockBits x ++ encBits xs (i + 1) x 0)

/-- The two header bytes. -/
def headerBits (t : BitmapCompressionType) (blockCount : Nat) : List Bool :=
  msbBits 1 t.toWord ++ (replicate 3 false ++ msbBits 12 (BitVec.ofNat 32 blockCount))

/-! ## The encoder writes these bits -/

section Encoder

variable {size : Nat}

theorem putFlags_wrote {flag : BitVec 32} :
    ∀ {n : Nat} {bs bs' : Bitstream} {bits : List Bool}, Wrote size bs bits →
      putFlags flag n bs = (bs', true) →
      Wrote size bs' (bits ++ (replicate n (msbBits 2 flag)).flatten)
  | 0, bs, bs', bits, h, hp => by
    cases hp
    simpa using h
  | n + 1, bs, bs', bits, h, hp => by
    unfold putFlags at hp
    split at hp
    · cases hp
    next b hb =>
      have hw := bitstreamPut_wrote h (by decide) hb
      have := putFlags_wrote hw hp
      simpa [replicate_succ] using this

variable {bs bs' : Bitstream} {bits : List Bool}

theorem flushRLE_wrote {count : Nat} {last : BitVec 32}
    (h : Wrote size bs bits) (hp : flushRLE bs count (blockFlag last) = (bs', true)) :
    Wrote size bs' (bits ++ rleBits count last) := by
  unfold flushRLE at hp
  unfold rleBits
  split at hp
  next hc =>
    rw [if_neg (by omega)]
    unfold bitmapEncodeRLE at hp
    split at hp
    next hraw =>
      rw [if_pos hraw]
      split at hp
      · cases hp
      next b hb =>
        have hw := bitstreamPut_wrote h (by decide) hb
        have := bitstreamPut_wrote hw (by decide) hp
        simpa using this
    next hraw =>
      rw [if_neg hraw]
      exact putFlags_wrote h hp
  · rw [if_pos (by omega)]
    cases hp
    simpa using h

theorem putBlock_wrote {x flag : BitVec 32} (h : Wrote size bs bits)
    (hp : putBlock bs x = (bs', true, flag)) : flag = blockFlag x ∧
    Wrote size bs' (bits ++ blockBits x) := by
  have hone : BITMAP_COMPRESSION_FLAG_ONE ≠ BITMAP_COMPRESSION_FLAG_RAW := by decide
  have hzero : BITMAP_COMPRESSION_FLAG_ZERO ≠ BITMAP_COMPRESSION_FLAG_RAW := by decide
  unfold putBlock at hp
  unfold blockBits blockFlag
  by_cases h0 : x = 0
  · rw [if_pos h0] at hp
    simp only [if_pos h0, if_neg hzero, append_nil]
    cases hb : bitstreamPut bs BITMAP_COMPRESSION_FLAG_ZERO 2 with
    | mk b r =>
      rw [hb] at hp
      cases hp
      exact ⟨rfl, bitstreamPut_wrote h (by decide) hb⟩
  · by_cases h1 : x = BLOCK_ALL_ONE
    · rw [if_neg h0, if_pos h1] at hp
      simp only [if_neg h0, if_pos h1, if_neg hone, append_nil]
      cases hb : bitstreamPut bs BITMAP_COMPRESSION_FLAG_ONE 2 with
      | mk b r =>
        rw [hb] at hp
        cases hp
        exact ⟨rfl, bitstreamPut_wrote h (by decide) hb⟩
    · rw [if_neg h0, if_neg h1] at hp
      simp only [if_neg h0, if_neg h1, if_true]
      split at hp
      · cases hp
      next b hb =>
        have hw := bitstreamPut_wrote h (by decide) hb
        cases hb' : bitstreamPut b x 32 with
        | mk b' r =>
          rw [hb'] at hp
          cases hp
          have := bitstreamPut_wrote hw (by decide) hb'
          exact ⟨rfl, by simpa using this⟩

/-- **A successful encoder loop has appended exactly `encBits`.** -/
theorem compressLoop_wrote :
    ∀ {blocks : List (BitVec 32)} {i : Nat} {last : BitVec 32} {rle : Nat} {bs bs' : Bitstream}
      {bits : List Bool}, Wrote size bs bits →
      compressLoop blocks i last (blockFlag last) rle bs = (bs', true) →
      Wrote size bs' (bits ++ encBits blocks i last rle)
  | [], i, last, rle, bs, bs', bits, h, hp => flushRLE_wrote h hp
  | x :: xs, i, last, rle, bs, bs', bits, h, hp => by
    unfold compressLoop at hp
    unfold encBits
    split at hp
    next hrep =>
      rw [if_pos hrep]
      exact compressLoop_wrote h hp
    next hrep =>
      rw [if_neg hrep]
      split at hp
      · cases hp
      next b hb =>
        have hw := flushRLE_wrote h hb
        split at hp
        · cases hp
        next b' flag hb' =>
          obtain ⟨rfl, hw'⟩ := putBlock_wrote hw hb'
          have := compressLoop_wrote hw' hp
          simpa using this

theorem bitmapCompressDefault_wrote {bitmap : List (BitVec 32)}
    (h : Wrote size bs bits) (hp : bitmapCompressDefault bitmap bs = (bs', true)) :
    Wrote size bs' (bits ++ encBits bitmap 0 0 0) :=
  compressLoop_wrote h hp

theorem bitmapCompressWriteHeader_wrote (t : BitmapCompressionType) (n : Nat) (hsize : 2 ≤ size) :
    ∃ bs, bitmapCompressWriteHeader t n (bitstreamInit (replicate size 0) size) = (bs, true) ∧
      Wrote size bs (headerBits t n) := by
  obtain ⟨b₁, e₁, w₁⟩ := bitstreamPut_room (wrote_init size) t.toWord (by decide)
    (show _ + 1 ≤ 8 * size by simp only [length_nil]; omega)
  have l₁ : ([] ++ msbBits 1 t.toWord).length = 1 := by simp
  obtain ⟨b₂, e₂, w₂⟩ := bitstreamSkip_wrote w₁ 3 (by omega) (by omega)
  have l₂ : (([] ++ msbBits 1 t.toWord) ++ replicate 3 false).length = 4 := by simp
  obtain ⟨b₃, e₃, w₃⟩ := bitstreamPut_room w₂ (BitVec.ofNat 32 n) (by decide)
    (show _ + 12 ≤ 8 * size by omega)
  refine ⟨b₃, ?_, ?_⟩
  · unfold bitmapCompressWriteHeader
    simp only [e₁, e₂, e₃]
  · simpa [headerBits] using w₃

end Encoder

/-! ## The decoder reads them back -/

/-- The decoder loop, started between two codes, stores `xs` and stops between two codes. -/
def Decodes (bs : Bitstream) (last : BitVec 32) (xs : List (BitVec 32)) (bs' : Bitstream)
    (last' : BitVec 32) : Prop :=
  ∀ (m i : Nat) (bitmap : List (BitVec 32)), i + xs.length ≤ bitmap.length →
    decompressLoop (xs.length + m) i ⟨bs, last, 0, false, bitmap⟩ =
      decompressLoop m (i + xs.length) ⟨bs', last', 0, false, memcpyAt bitmap i xs⟩

theorem Decodes.refl (bs : Bitstream) (last : BitVec 32) : Decodes bs last [] bs last := by
  intro m i bitmap _
  simp

theorem Decodes.trans {bs₁ bs₂ bs₃ : Bitstream} {l₁ l₂ l₃ : BitVec 32} {xs ys : List (BitVec 32)}
    (h₁ : Decodes bs₁ l₁ xs bs₂ l₂) (h₂ : Decodes bs₂ l₂ ys bs₃ l₃) :
    Decodes bs₁ l₁ (xs ++ ys) bs₃ l₃ := by
  intro m i bitmap hi
  rw [length_append] at hi
  have e₁ := h₁ (ys.length + m) i bitmap (by omega)
  have e₂ := h₂ m (i + xs.length) (memcpyAt bitmap i xs) (by rw [memcpyAt_length] <;> omega)
  rw [length_append, Nat.add_assoc, e₁, e₂, memcpyAt_append (by omega), Nat.add_assoc]

variable {bs : Bitstream} {last : BitVec 32} {rest : List Bool}

variable {bs' : Bitstream} {x : BitVec 32} {t : BitmapCompressionType}

theorem Decodes.of_block (h : ∀ i bitmap, decompressBlock i ⟨bs, last, 0, false, bitmap⟩ =
      .ok (⟨bs', x, 0, false, bitmap.set i x⟩, false)) : Decodes bs last [x] bs' x := by
  intro m i bitmap hi
  rw [length_singleton] at hi
  rw [length_singleton, Nat.add_comm 1 m, decompressLoop, h i bitmap, set_eq_memcpyAt (by omega)]

theorem decompressBlock_flag {flag : BitVec 32}
    (hg : bitstreamGet bs 2 = (bs', some flag)) (last : BitVec 32) (i : Nat)
    (bitmap : List (BitVec 32)) :
    decompressBlock i ⟨bs, last, 0, false, bitmap⟩ =
      if flag = BITMAP_COMPRESSION_FLAG_ZERO then
        .ok (⟨bs', 0, 0, false, bitmap.set i 0⟩, false)
      else if flag = BITMAP_COMPRESSION_FLAG_ONE then
        .ok (⟨bs', BLOCK_ALL_ONE, 0, false, bitmap.set i BLOCK_ALL_ONE⟩, false)
      else if flag = BITMAP_COMPRESSION_FLAG_RAW then
        match bitstreamGet bs' 32 with
        | (bs, none) => .ok (⟨bs, bitmap.getD i 0, 0, true, bitmap⟩, false)
        | (bs, some x) => .ok (⟨bs, x, 0, false, bitmap.set i x⟩, false)
      else if flag = BITMAP_COMPRESSION_FLAG_RLE then
        match bitstreamGet bs' 8 with
        | (bs, none) => .ok (⟨bs, bitmap.getD i 0, 0, true, bitmap⟩, false)
        | (bs, some n) => .ok (⟨bs, last, n, false, bitmap.set i last⟩, false)
      else .error "Invalid compression flag" := by
  unfold decompressBlock
  simp only [if_true, hg]
  rfl

theorem blockFlag_lt (x : BitVec 32) : (blockFlag x).toNat < 2 ^ 2 := by
  unfold blockFlag
  split
  · decide
  · split <;> decide

theorem decodes_blockBits (h : Holds bs (blockBits x ++ rest)) :
    ∃ bs', Decodes bs last [x] bs' x ∧ Holds bs' rest ∧
      bitstreamGetOffset bs' = bitstreamGetOffset bs + (blockBits x).length := by
  unfold blockBits at h
  rw [append_assoc] at h
  obtain ⟨b, hg, hb, -, -, ho⟩ := bitstreamGet_holds (getLsbD_of_toNat_lt (blockFlag_lt x)) h
  have hstep := decompressBlock_flag hg last
  unfold blockFlag at hstep hb
  by_cases h0 : x = 0
  · simp only [if_pos h0] at hstep hb
    subst h0
    exact ⟨b, .of_block hstep, hb, ho⟩
  by_cases h1 : x = BLOCK_ALL_ONE
  · simp only [if_neg h0, if_pos h1] at hstep hb
    subst h1
    exact ⟨b, .of_block hstep, hb, ho⟩
  simp only [if_neg h0, if_neg h1, if_true] at hstep hb
  obtain ⟨b', hg', hb', -, -, ho'⟩ := bitstreamGet_holds (getLsbD_of_toNat_lt x.isLt) hb
  rw [hg'] at hstep
  refine ⟨b', .of_block hstep, hb', ?_⟩
  have hlen : (blockBits x).length = 34 := by
    unfold blockBits blockFlag
    rw [if_neg h0, if_neg h1, if_pos rfl, length_append, msbBits_length, msbBits_length]
  omega

theorem decompressLoop_run (bs : Bitstream) (last : BitVec 32) (m : Nat) (n i : Nat)
    (bitmap : List (BitVec 32)) (hn : n < 2 ^ 32) (hi : i + n ≤ bitmap.length) :
    decompressLoop (n + m) i ⟨bs, last, BitVec.ofNat 32 n, false, bitmap⟩ =
      decompressLoop m (i + n) ⟨bs, last, 0, false, memcpyAt bitmap i (replicate n last)⟩ := by
  induction n generalizing i bitmap with
  | zero => simp
  | succ n ih =>
    have hne : BitVec.ofNat 32 (n + 1) ≠ 0 := by
      intro h
      have := congrArg BitVec.toNat h
      simp only [BitVec.toNat_ofNat] at this
      rw [Nat.mod_eq_of_lt hn] at this
      simp at this
    have hsub : BitVec.ofNat 32 (n + 1) - 1 = BitVec.ofNat 32 n := by
      apply BitVec.eq_of_toNat_eq
      simp [BitVec.toNat_sub]
      omega
    have hset : (bitmap.set i last).length = bitmap.length := length_set
    rw [show n + 1 + m = (n + m) + 1 by omega, decompressLoop]
    simp only [decompressBlock, if_neg hne, hsub]
    rw [ih (i + 1) (bitmap.set i last) (by omega) (by omega),
      memcpyAt_set (by omega), show i + 1 + n = i + (n + 1) by omega]
    rfl

theorem decodes_replicate : ∀ {count : Nat} {bs : Bitstream},
      Holds bs ((replicate count (blockBits last)).flatten ++ rest) →
      ∃ bs', Decodes bs last (replicate count last) bs' last ∧ Holds bs' rest ∧
          bitstreamGetOffset bs' =
          bitstreamGetOffset bs + (replicate count (blockBits last)).flatten.length
  | 0, bs, h => ⟨bs, .refl bs last, by simpa using h, rfl⟩
  | n + 1, bs, h => by
    rw [replicate_succ, flatten_cons, append_assoc] at h
    obtain ⟨b₁, d₁, h₁, o₁⟩ := decodes_blockBits h
    obtain ⟨b₂, d₂, h₂, o₂⟩ := decodes_replicate h₁
    refine ⟨b₂, d₁.trans d₂, h₂, ?_⟩
    rw [o₂, o₁, replicate_succ, flatten_cons, length_append, Nat.add_assoc]

theorem decodes_rleBits {count : Nat} (hc : count ≤ 256)
    (h : Holds bs (rleBits count last ++ rest)) :
      ∃ bs', Decodes bs last (replicate count last) bs' last ∧ Holds bs' rest ∧
      bitstreamGetOffset bs' = bitstreamGetOffset bs + (rleBits count last).length := by
  unfold rleBits at h ⊢
  split at h
  next h0 =>
    subst h0
    exact ⟨bs, .refl bs last, h, rfl⟩
  next h0 =>
    rw [if_neg h0]
    split at h
    next hlong =>
      rw [if_pos hlong]
      obtain ⟨n, rfl⟩ : ∃ n, count = n + 1 := ⟨count - 1, by omega⟩
      have hn : (BitVec.ofNat 32 n).toNat < 2 ^ 8 := by rw [BitVec.toNat_ofNat]; omega
      rw [append_assoc, Nat.add_sub_cancel] at h
      obtain ⟨b, hg, hb, -, -, ho⟩ := bitstreamGet_holds (getLsbD_of_toNat_lt (by decide)) h
      obtain ⟨b', hg', hb', -, -, ho'⟩ := bitstreamGet_holds (getLsbD_of_toNat_lt hn) hb
      refine ⟨b', ?_, hb', ho'.trans (by rw [ho, length_append]; rfl)⟩
      intro m i bitmap hi
      rw [length_replicate] at hi
      have hset : (bitmap.set i last).length = bitmap.length := length_set
      have hstep := decompressBlock_flag hg last i bitmap
      rw [if_neg (by decide), if_neg (by decide), if_neg (by decide), if_pos rfl, hg'] at hstep
      rw [length_replicate, show n + 1 + m = (n + m) + 1 by omega, decompressLoop, hstep]
      simp only
      rw [decompressLoop_run b' last m n (i + 1) _ (by omega) (by omega),
        memcpyAt_set (by omega), show i + 1 + n = i + (n + 1) by omega]
      rfl
    next hraw =>
      rw [if_neg hraw]
      have hbits : blockBits last = msbBits 2 (blockFlag last) := by
        unfold blockBits
        rw [if_neg (fun hr => hraw (.inl hr)), append_nil]
      rw [← hbits] at h ⊢
      exact decodes_replicate h

/-- **The bits of the default encoding decode to the pending run and the blocks.** -/
theorem decodes_encBits :
    ∀ {blocks : List (BitVec 32)} {i : Nat} {last : BitVec 32} {rle : Nat} {bs : Bitstream},
      rle ≤ 256 → Holds bs (encBits blocks i last rle ++ rest) →
      ∃ bs' last', Decodes bs last (replicate rle last ++ blocks) bs' last' ∧ Holds bs' rest ∧
        bitstreamGetOffset bs' = bitstreamGetOffset bs + (encBits blocks i last rle).length
  | [], i, last, rle, bs, hrle, h => by
    obtain ⟨b, d, hb, ho⟩ := decodes_rleBits hrle h
    exact ⟨b, last, d.trans (.refl b last), hb, ho⟩
  | x :: xs, i, last, rle, bs, hrle, h => by
    unfold encBits at h ⊢
    split at h
    next hrep =>
      rw [if_pos hrep]
      obtain ⟨rfl, hle, -⟩ := hrep
      obtain ⟨b, l, d, hb, ho⟩ := decodes_encBits (by omega) h
      rw [replicate_succ', append_assoc] at d
      exact ⟨b, l, d, hb, ho⟩
    next hrep =>
      rw [if_neg hrep]
      simp only [append_assoc] at h
      obtain ⟨b₁, d₁, h₁, o₁⟩ := decodes_rleBits hrle h
      obtain ⟨b₂, d₂, h₂, o₂⟩ := decodes_blockBits h₁
      obtain ⟨b₃, l, d₃, h₃, o₃⟩ := decodes_encBits (by omega) h₂
      refine ⟨b₃, l, d₁.trans (d₂.trans d₃), h₃, ?_⟩
      rw [o₃, o₂, o₁, length_append, length_append]
      omega

theorem decompressLoop_encBits {bitmap buffer : List (BitVec 32)}
    (hlen : bitmap.length ≤ buffer.length) (h : Holds bs (encBits bitmap 0 0 0)) :
    ∃ bs' last', decompressLoop bitmap.length 0 ⟨bs, 0, 0, false, buffer⟩ =
      .ok ⟨bs', last', 0, false, bitmap ++ buffer.drop bitmap.length⟩ ∧ bs'.error = false ∧
      bitstreamGetOffset bs' = bitstreamGetOffset bs + (encBits bitmap 0 0 0).length := by
  rw [← append_nil (encBits _ _ _ _)] at h
  obtain ⟨b, l, d, hb, ho⟩ := decodes_encBits (by omega) h
  have hd := d 0 0 buffer (by simpa using hlen)
  refine ⟨b, l, ?_, hb.ok, ho⟩
  simp only [replicate_zero, nil_append, Nat.add_zero] at hd
  rw [hd, decompressLoop, memcpyAt_zero]

/-! ## Round trip -/

theorem BitmapCompressionType.ofWord_toWord (h : t = .no ∨ t = .default) :
    BitmapCompressionType.ofWord t.toWord = t ∧ t.toWord.toNat < 2 ^ 1 := by
  rcases h with rfl | rfl <;> decide

theorem bitmapDecompressInit_header {n size : Nat}
    {mem : List (BitVec 8)} (ht : t = .no ∨ t = .default) (hn : n ≤ 4095)
    (h : Holds (bitstreamInit mem size) (headerBits t n ++ rest)) (state : BitmapDecompressState) :
    ∃ bs, bitmapDecompressInit state mem size = (⟨bs, t, n⟩, true) ∧ Holds bs rest ∧
      bs.data = mem ∧ bs.dataSize = size ∧ bitstreamGetOffset bs = 16 := by
  obtain ⟨hword, hlt⟩ := BitmapCompressionType.ofWord_toWord ht
  have hnlt : (BitVec.ofNat 32 n).toNat < 2 ^ 12 := by rw [BitVec.toNat_ofNat]; omega
  have hroom := h.room
  unfold headerBits at h
  simp only [append_assoc] at h
  obtain ⟨b₁, e₁, h₁, d₁, s₁, o₁⟩ := bitstreamGet_holds (getLsbD_of_toNat_lt hlt) h
  have hroom₁ : bitstreamGetOffset b₁ < 8 * b₁.dataSize := by
    simp only [headerBits, length_append, msbBits_length, length_replicate] at hroom
    omega
  obtain ⟨b₂, e₂, h₂, d₂, s₂, o₂⟩ := bitstreamSkip_holds h₁ hroom₁
  obtain ⟨b₃, e₃, h₃, d₃, s₃, o₃⟩ := bitstreamGet_holds (getLsbD_of_toNat_lt hnlt) h₂
  rw [length_replicate] at e₂ o₂
  refine ⟨b₃, ?_, h₃, ?_, ?_, ?_⟩
  · unfold bitmapDecompressInit
    simp only [e₁, e₂, e₃, hword]
    rw [BitVec.toNat_ofNat, Nat.mod_eq_of_lt (by omega)]
  · rw [d₃, d₂, d₁]; rfl
  · rw [s₃, s₂, s₁]; rfl
  · rw [o₃, o₂, o₁]; rfl

/-- Reading `size` bytes of `out`, whatever follows them in memory, gives back `bitmap`. -/
def ReadsBack (out : List (BitVec 8)) (size : Nat) (bitmap : List (BitVec 32)) : Prop :=
  ∀ (junk : List (BitVec 8)) (state : BitmapDecompressState),
    ∃ state', bitmapDecompressInit state (out.take size ++ junk) size = (state', true) ∧
      bitmapDecompressHasError state' = false ∧
      bitmapDecompressGetBlockCount state' = bitmap.length ∧
      ∀ (buffer : List (BitVec 32)) (bitmapDataSize : Nat), bitmap.length ≤ bitmapDataSize →
        bitmap.length ≤ buffer.length →
        ∃ state'', bitmapDecompressDecompress state' buffer bitmapDataSize =
            .ok (state'', bitmap ++ buffer.drop bitmap.length) ∧
          bitmapDecompressHasError state'' = false

section RoundTrip

variable {size : Nat} {bitmap : List (BitVec 32)} {bs : Bitstream}

theorem readsBack_default (hn : bitmap.length ≤ 4095)
    (h : Wrote size bs (headerBits .default bitmap.length ++ encBits bitmap 0 0 0)) :
    ReadsBack bs.data (bitstreamGetLength bs) bitmap := by
  intro junk state
  obtain ⟨b, e, hb, -⟩ := bitmapDecompressInit_header (.inr rfl) hn (holds_of_wrote h junk) state
  refine ⟨_, e, hb.ok, rfl, ?_⟩
  intro buffer bitmapDataSize hsize hlen
  obtain ⟨b', l, e', hok, -⟩ := decompressLoop_encBits hlen hb
  refine ⟨⟨b', .default, bitmap.length⟩, ?_, hok⟩
  unfold bitmapDecompressDecompress
  rw [if_neg (by simpa using hsize)]
  simp only [e']
  simp

theorem bitmapCopyOut_eq (hal : bs.bitOffset < 8) (hpos : bitstreamGetOffset bs = 16) :
    bitmapCopyOut bitmap bs = (memcpyAt bs.data 2 (wordBytes 4 bitmap), bitmap.length * 4 + 2) := by
  have hbyte : bs.byteOffset = 2 := by
    have := offset_div hal
    omega
  unfold bitmapCopyOut
  split
  next h0 =>
    rw [length_eq_zero_iff.mp h0]
    simp [wordBytes]
  · simp only [bitstreamGetAlignedData_self (show bitstreamGetOffset bs % 16 = 0 by rw [hpos]),
      hbyte]

theorem readsBack_no (hn : bitmap.length ≤ 4095) (hsize : 4 * bitmap.length + 2 ≤ size)
    (h : Wrote size bs (headerBits .no bitmap.length)) :
    ReadsBack (bitmapCopyOut bitmap bs).1 (bitmapCopyOut bitmap bs).2 bitmap ∧
      (bitmapCopyOut bitmap bs).2 ≤ size ∧ (bitmapCopyOut bitmap bs).1.length = size := by
  have hlen16 : (headerBits .no bitmap.length).length = 16 := by simp [headerBits]
  have hpos : bitstreamGetOffset bs = 16 := h.pos.trans hlen16
  have hdata := h.length
  rw [bitmapCopyOut_eq h.aligned hpos]
  have hfit : 2 + (wordBytes 4 bitmap).length ≤ bs.data.length := by rw [wordBytes_length]; omega
  refine ⟨?_, by omega, (memcpyAt_length hfit).trans hdata⟩
  intro junk state
  have hout : (memcpyAt bs.data 2 (wordBytes 4 bitmap)).take (bitmap.length * 4 + 2) ++ junk =
      bs.data.take 2 ++ (wordBytes 4 bitmap ++ junk) := by
    unfold memcpyAt
    rw [take_left' (by simp; omega), append_assoc]
  have hgl : bitstreamGetLength bs = 2 := by rw [bitstreamGetLength_wrote h, hlen16]
  have hholds := holds_of_wrote h (wordBytes 4 bitmap ++ junk)
  rw [hgl, ← hout, ← append_nil (headerBits _ _)] at hholds
  obtain ⟨b, e, hb, hmem, -, ho⟩ := bitmapDecompressInit_header (.inl rfl) hn
    (hholds.mono_size (show 2 ≤ bitmap.length * 4 + 2 by omega)) state
  have hbyte : b.byteOffset = 2 := by
    have := offset_div hb.aligned
    omega
  refine ⟨_, e, hb.ok, rfl, ?_⟩
  intro buffer bitmapDataSize hdsize _
  refine ⟨⟨b, .no, bitmap.length⟩, ?_, hb.ok⟩
  unfold bitmapDecompressDecompress
  rw [if_neg (by simpa using hdsize)]
  simp only
  rw [bitstreamGetAlignedData_self (by rw [ho]), hbyte, hmem, hout,
    drop_left' (by simp; omega), readWords_wordBytes (by decide)]

theorem bitmapCompress_readsBack {outData : List (BitVec 8)} (hn : bitmap.length ≤ 4095)
    (hout : 4 * bitmap.length + 2 ≤ outData.length) :
    ∃ out size, bitmapCompress .default bitmap outData = .ok (out, size) ∧
      out.length = outData.length ∧ size ≤ outData.length ∧ ReadsBack out size bitmap := by
  obtain ⟨bs, e, w⟩ := bitmapCompressWriteHeader_wrote .default bitmap.length
    (show 2 ≤ outData.length by omega)
  unfold bitmapCompress
  simp only [e]
  cases hd : bitmapCompressDefault bitmap bs with
  | mk bs' ok =>
    cases ok with
    | true =>
      have w' := bitmapCompressDefault_wrote w hd
      have hfits := w'.fits
      refine ⟨_, _, rfl, w'.length, ?_, readsBack_default hn w'⟩
      rw [bitstreamGetLength_wrote w']
      omega
    | false =>
      obtain ⟨bs₀, e₀, w₀⟩ := bitmapCompressWriteHeader_wrote .no bitmap.length
        (show 2 ≤ outData.length by omega)
      obtain ⟨hr, hle, hlen⟩ := readsBack_no hn hout w₀
      refine ⟨_, _, ?_, hlen, hle, hr⟩
      simp only [bitmapCompressNo, e₀]

end RoundTrip

/-- **Compression round trip.**  With a buffer of at least `4 n + 2` bytes, compressing `n ≤ 4095`
blocks with the default type succeeds, and reading the reported number of bytes, whatever else the
memory, the decompression state and the block buffer held before, reports no error and gives the
blocks back. -/
theorem bitmapCompress_roundtrip (bitmap : List (BitVec 32)) (outData : List (BitVec 8))
    (hn : bitmap.length ≤ 4095) (hout : 4 * bitmap.length + 2 ≤ outData.length) :
    ∃ out size, bitmapCompress .default bitmap outData = .ok (out, size) ∧ size ≤ outData.length ∧
      ∀ (junk : List (BitVec 8)) (state : BitmapDecompressState),
        ∃ state', bitmapDecompressInit state (out.take size ++ junk) size = (state', true) ∧
          bitmapDecompressHasError state' = false ∧
          bitmapDecompressGetBlockCount state' = bitmap.length ∧
          ∀ (buffer : List (BitVec 32)) (bitmapDataSize : Nat), bitmap.length ≤ bitmapDataSize →
            bitmap.length ≤ buffer.length →
            ∃ state'', bitmapDecompressDecompress state' buffer bitmapDataSize =
                .ok (state'', bitmap ++ buffer.drop bitmap.length) ∧
              bitmapDecompressHasError state'' = false := by
  obtain ⟨out, size, e, -, hle, hr⟩ := bitmapCompress_readsBack hn hout
  exact ⟨out, size, e, hle, hr⟩

/-- Three equal raw blocks, read back into a cleared buffer. -/
theorem bitmapCompress_roundtrip_raw : ∃ out size state' state'',
      bitmapCompress .default [5, 5, 5] (replicate 14 7) = .ok (out, size) ∧
      bitmapDecompressInit ⟨bitstreamInit [] 0, .no, 0⟩ (out.take size ++ []) size =
      (state', true) ∧ bitmapDecompressDecompress state' [0, 0, 0] 3 =
      .ok (state'', [5, 5, 5]) := by
  obtain ⟨out, size, e, -, hr⟩ :=
    bitmapCompress_roundtrip [5, 5, 5] (replicate 14 7) (by decide) (by decide)
  obtain ⟨state', e', -, -, hd⟩ := hr [] ⟨bitstreamInit [] 0, .no, 0⟩
  obtain ⟨state'', e'', -⟩ := hd [0, 0, 0] 3 (by decide) (by decide)
  exact ⟨out, size, state', state'', e, e', e''⟩

end PolemoDB.Misc
