import PolemoDB.Misc.BitmapCompression

/-!
# Truncated bitmaps (`utils/misc/bitmap_compression.c`)

The reader gets the first `k` bytes of what `Bitmap_Compress` wrote, and other bytes follow them in
memory.

* `decompressLoop_cut` — a loop over `k` bytes that reports no failure goes the same way over the
  whole stream, and its cursor does not pass the `k` bytes.
-/

namespace PolemoDB.Misc

open PolemoDB.Lib List

/-! ## A stream and its beginning -/

/-- Two streams at the same place of memory that agrees in its first `k` bytes; the first one ends
there. -/
structure ShortStream (k : Nat) (bs bs' : Bitstream) : Prop where
  ok : bs'.error = false
  aligned : bs.bitOffset < 8
  bitOffset : bs'.bitOffset = bs.bitOffset
  byteOffset : bs'.byteOffset = bs.byteOffset
  inside : bitstreamGetOffset bs ≤ 8 * k
  dataSize : bs.dataSize = k
  longer : k ≤ bs'.dataSize
  data : ∀ i, i < k → bs'.data.getD i 0 = bs.data.getD i 0

theorem checkForError_true {bs b : Bitstream} (h : bitstreamCheckForError bs = (b, true)) :
    b = bs ∧ bs.byteOffset < bs.dataSize := by
  unfold bitstreamCheckForError at h
  split at h
  · cases h
  split at h
  · cases h
  next hlt =>
    cases h
    exact ⟨rfl, Nat.lt_of_not_le hlt⟩

section ShortStream

variable {k : Nat} {bs bs' b : Bitstream}

theorem ShortStream.getBit {v : Bool} (h : ShortStream k bs bs')
    (hg : bitstreamGetBit bs = (b, true, v)) : ∃ b', bitstreamGetBit bs' = (b', true, v) ∧
    ShortStream k b b' := by
  have hal := h.aligned
  unfold bitstreamGetBit at hg
  cases hc : bitstreamCheckForError bs with
  | mk c r =>
    rw [hc] at hg
    cases r with
    | false => cases hg
    | true =>
      obtain ⟨rfl, hlt⟩ := checkForError_true hc
      cases hg
      rw [h.dataSize] at hlt
      refine ⟨bs'.step, ?_, ?_⟩
      · unfold bitstreamGetBit
        rw [checkForError_ok h.ok (by rw [h.byteOffset]; exact hlt.trans_le h.longer)]
        simp only [h.bitOffset, h.byteOffset, h.data _ hlt]
      have hoff := step_offset c
      refine ⟨by simp [h.ok], step_bitOffset_lt hal, ?_, ?_, ?_, by simp [h.dataSize],
        by simpa using h.longer, by simpa using h.data⟩
      · unfold Bitstream.step
        rw [h.bitOffset]
        split <;> rfl
      · unfold Bitstream.step
        rw [h.bitOffset, h.byteOffset]
        split <;> rfl
      · rw [hoff]
        unfold bitstreamGetOffset
        omega

theorem ShortStream.getLoop {n : Nat} {v x : BitVec 32} (h : ShortStream k bs bs')
    (hg : bitstreamGetLoop n v bs = (b, some x)) :
    ∃ b', bitstreamGetLoop n v bs' = (b', some x) ∧ ShortStream k b b' := by
  induction n generalizing v bs bs' with
  | zero =>
    cases hg
    exact ⟨bs', rfl, h⟩
  | succ n ih =>
    rw [bitstreamGetLoop] at hg
    rcases hb : bitstreamGetBit bs with ⟨c, r, t⟩
    rw [hb] at hg
    cases r with
    | false => cases hg
    | true =>
      obtain ⟨c', hb', hc⟩ := h.getBit hb
      rw [bitstreamGetLoop, hb']
      exact ih hc hg

theorem ShortStream.get {n : Nat} {x : BitVec 32} (h : ShortStream k bs bs')
    (hg : bitstreamGet bs n = (b, some x)) : ∃ b', bitstreamGet bs' n = (b', some x) ∧
    ShortStream k b b' := h.getLoop hg

end ShortStream

/-! ## The decoder on the beginning of a stream -/

section Decoder

variable {s t : DecompressVars} {i : Nat}

theorem decompressBlock_failed {left : Bool} (h : decompressBlock i s = .ok (t, left))
    (hs : s.failed = true ∨ left = true) : t.failed = true := by
  unfold decompressBlock at h
  have hkept : left = false → s.failed = true := fun hleft =>
    hs.resolve_right (hleft ▸ Bool.false_ne_true)
  split at h
  · split at h
    · cases h
      rfl
    split_ifs at h
    · cases h
      exact hkept rfl
    · cases h
      exact hkept rfl
    · split at h <;> cases h
      · rfl
      · exact hkept rfl
    · split at h <;> cases h
      · rfl
      · exact hkept rfl
  · cases h
    exact hkept rfl

theorem decompressLoop_failed {n : Nat} (h : decompressLoop n i s = .ok t) (hs : s.failed = true) :
    t.failed = true := by
  induction n generalizing i s with
  | zero =>
    cases h
    exact hs
  | succ n ih =>
    rw [decompressLoop] at h
    rcases hb : decompressBlock i s with e | ⟨u, left⟩
    · rw [hb] at h
      cases h
    rw [hb] at h
    have hu := decompressBlock_failed hb (.inl hs)
    cases left with
    | true =>
      cases h
      exact hu
    | false => exact ih h hu

theorem decompressBlock_cut {k : Nat} {bs' : Bitstream} (hc : ShortStream k s.bitstream bs')
    (h : decompressBlock i s = .ok (t, false)) (ht : t.failed = false) :
    ∃ b', decompressBlock i { s with bitstream := bs' } = .ok ({ t with bitstream := b' }, false) ∧
      ShortStream k t.bitstream b' := by
  unfold decompressBlock at h ⊢
  by_cases hr : s.rleRepeatCount = 0
  · rw [if_pos hr] at h ⊢
    rcases hg : bitstreamGet s.bitstream 2 with ⟨b, _ | flag⟩
    · rw [hg] at h
      cases h
    obtain ⟨b', hg', hb⟩ := hc.get hg
    rw [hg] at h
    rw [hg']
    dsimp only at h ⊢
    split_ifs at h ⊢
    · cases h
      exact ⟨b', rfl, hb⟩
    · cases h
      exact ⟨b', rfl, hb⟩
    · rcases hx : bitstreamGet b 32 with ⟨d, _ | x⟩
      · rw [hx] at h
        cases h
        exact absurd ht (by simp [DecompressVars.fail])
      obtain ⟨d', hx', hd⟩ := hb.get hx
      rw [hx] at h
      rw [hx']
      cases h
      exact ⟨d', rfl, hd⟩
    · rcases hx : bitstreamGet b 8 with ⟨d, _ | x⟩
      · rw [hx] at h
        cases h
        exact absurd ht (by simp [DecompressVars.fail])
      obtain ⟨d', hx', hd⟩ := hb.get hx
      rw [hx] at h
      rw [hx']
      cases h
      exact ⟨d', rfl, hd⟩
  · rw [if_neg hr] at h ⊢
    cases h
    exact ⟨bs', rfl, hc⟩

theorem decompressLoop_cut {k n : Nat} {bs' : Bitstream} (hc : ShortStream k s.bitstream bs')
    (h : decompressLoop n i s = .ok t) (ht : t.failed = false) :
    ∃ b', decompressLoop n i { s with bitstream := bs' } = .ok { t with bitstream := b' } ∧
      ShortStream k t.bitstream b' := by
  induction n generalizing i s bs' with
  | zero =>
    cases h
    exact ⟨bs', rfl, hc⟩
  | succ n ih =>
    rw [decompressLoop] at h
    rcases hb : decompressBlock i s with e | ⟨u, left⟩
    · rw [hb] at h
      cases h
    rw [hb] at h
    cases left with
    | true =>
      cases h
      rw [decompressBlock_failed hb (.inr rfl)] at ht
      cases ht
    | false =>
      have hu : u.failed = false := by
        by_contra hu
        rw [decompressLoop_failed h (Bool.eq_true_of_not_eq_false hu)] at ht
        cases ht
      obtain ⟨b', hb', hcut⟩ := decompressBlock_cut hc hb hu
      rw [decompressLoop, hb']
      exact ih hcut h

end Decoder

/-! ## Reading too few bytes -/

/-- Reading `inDataSize` bytes of `inData` is answered by an error: of the header, or by `elog`. -/
def Rejects (inData : List (BitVec 8)) (inDataSize : Nat) (state : BitmapDecompressState)
    (buffer : List (BitVec 32)) (bitmapDataSize : Nat) : Prop :=
  (bitmapDecompressInit state inData inDataSize).2 = false ∨
    ∃ e, bitmapDecompressDecompress (bitmapDecompressInit state inData inDataSize).1 buffer
    bitmapDataSize = .error e

/-- The type that the header of `out` names. -/
def emittedType (out : List (BitVec 8)) : BitmapCompressionType :=
  if bitAt out 0 then .default else .no

theorem bitAt_take_append {out junk : List (BitVec 8)} {k i : Nat} (hi : i < 8 * k)
    (hk : k ≤ out.length) : bitAt (out.take k ++ junk) i = bitAt out i := by
  rw [bitAt_append_left (by rw [length_take]; omega), bitAt_take (by omega)]

theorem bitstreamGetLoop_offset {n : Nat} {v x : BitVec 32} {bs b : Bitstream}
    (hal : bs.bitOffset < 8) (hpos : 0 < n) (hg : bitstreamGetLoop n v bs = (b, some x)) :
    bitstreamGetOffset bs + n ≤ 8 * bs.dataSize := by
  induction n generalizing v bs with
  | zero => cases hpos
  | succ n ih =>
    rw [bitstreamGetLoop] at hg
    rcases hb : bitstreamGetBit bs with ⟨c, r, t⟩
    rw [hb] at hg
    unfold bitstreamGetBit at hb
    rcases hc : bitstreamCheckForError bs with ⟨d, _ | _⟩
    · rw [hc] at hb
      cases hb
      cases hg
    rw [hc] at hb
    obtain ⟨rfl, hlt⟩ := checkForError_true hc
    cases hb
    cases n with
    | zero =>
      unfold bitstreamGetOffset
      omega
    | succ n =>
      have hrest := ih (step_bitOffset_lt hal) (Nat.succ_pos n) hg
      rw [step_offset, step_dataSize] at hrest
      omega

theorem bitmapDecompressInit_short {inData : List (BitVec 8)} {k : Nat} (hk : k < 2)
    (state : BitmapDecompressState) : (bitmapDecompressInit state inData k).2 = false := by
  unfold bitmapDecompressInit
  rcases h₁ : bitstreamGet (bitstreamInit inData k) 1 with ⟨b₁, _ | tmp⟩
  · rfl
  have hfirst := bitstreamGetLoop_offset (show 0 < 8 by decide) Nat.one_pos h₁
  have hk1 : k = 1 := by
    change 0 + 1 ≤ 8 * k at hfirst
    omega
  subst hk1
  -- one byte: the cursor is behind its first bit
  have hb₁ : b₁ = ⟨1, 0, inData, 1, false⟩ := (congrArg Prod.fst h₁).symm
  subst hb₁
  dsimp only
  rw [show bitstreamSkip ⟨1, 0, inData, 1, false⟩ 3 = (⟨4, 0, inData, 1, false⟩, true) by
    simp [bitstreamSkip, bitstreamCheckForError]]
  rcases h₂ : bitstreamGet ⟨4, 0, inData, 1, false⟩ 12 with ⟨b₂, _ | tmp⟩
  · rfl
  · have hsecond := bitstreamGetLoop_offset (show 4 < 8 by decide) (Nat.succ_pos 11) h₂
    change 0 * 8 + 4 + 12 ≤ 8 * 1 at hsecond
    omega

section Truncated

variable {size k : Nat} {bitmap : List (BitVec 32)} {out : List (BitVec 8)}

theorem bitmapDecompressInit_two {t : BitmapCompressionType} {rest : List Bool}
    (ht : t = .no ∨ t = .default) (hn : bitmap.length ≤ 4095)
    (hbits : ∀ i, i < 16 → bitAt out i = (headerBits t bitmap.length ++ rest).getD i false)
    (hk : 2 ≤ k) (hlen : k ≤ out.length) (junk : List (BitVec 8)) (state : BitmapDecompressState) :
    ∃ bs, bitmapDecompressInit state (out.take k ++ junk) k = (⟨bs, t, bitmap.length⟩, true) ∧
      bs.error = false ∧ bs.bitOffset < 8 ∧ bs.data = out.take k ++ junk ∧ bs.dataSize = k ∧
      bitstreamGetOffset bs = 16 := by
  have h16 : (headerBits t bitmap.length).length = 16 := by simp [headerBits]
  have hholds : Holds (bitstreamInit (out.take k ++ junk) k) (headerBits t bitmap.length ++
      []) := by
    rw [append_nil]
    refine ⟨rfl, by simp [bitstreamInit], ?_, fun i hi => ?_⟩
    · show 0 * 8 + 0 + 16 ≤ 8 * k
      omega
    · show bitAt (out.take k ++ junk) (0 * 8 + 0 + i) = _
      rw [show 0 * 8 + 0 + i = i by omega, bitAt_take_append (by omega) hlen, hbits i hi,
        getD_eq_getElem?_getD, getElem?_append_left (by omega), ← getD_eq_getElem?_getD]
  obtain ⟨bs, e, hb, hd, hs, ho⟩ := bitmapDecompressInit_header ht hn hholds state
  exact ⟨bs, e, hb.ok, hb.aligned, hd, hs, ho⟩

theorem rejects_default {bs : Bitstream} (hn : bitmap.length ≤ 4095)
    (h : Wrote size bs (headerBits .default bitmap.length ++ encBits bitmap 0 0 0))
    (hk : k < bitstreamGetLength bs) (junk : List (BitVec 8)) (state : BitmapDecompressState)
    {buffer : List (BitVec 32)} (hbuf : bitmap.length ≤ buffer.length) (bitmapDataSize : Nat) :
    Rejects (bs.data.take k ++ junk) k state buffer bitmapDataSize := by
  by_cases hk2 : k < 2
  · exact .inl (bitmapDecompressInit_short hk2 state)
  have hlength := bitstreamGetLength_wrote h
  have hfits := h.fits
  have h16 : (headerBits .default bitmap.length).length = 16 := by simp [headerBits]
  rw [length_append, h16] at hlength hfits
  have hdata := h.length
  obtain ⟨b, e, -, hal, hd, hs, ho⟩ := bitmapDecompressInit_two (.inr rfl) hn (fun i _ => h.bits i)
    (Nat.le_of_not_lt hk2) (by omega) junk state
  -- the whole stream behind the header
  obtain ⟨b', -, hb', hd', hs', ho'⟩ :=
    bitmapDecompressInit_header (.inr rfl) hn (holds_of_wrote h []) state
  have hoff := offset_div hal
  have hoff' := offset_div hb'.aligned
  have hcut : ShortStream k b b' := by
    refine ⟨hb'.ok, hal, ?_, by omega, by omega, hs, by omega, fun i hi => ?_⟩
    · have := offset_mod hal
      have := offset_mod hb'.aligned
      omega
    · rw [hd, hd', append_nil, getD_eq_getElem?_getD, getD_eq_getElem?_getD,
        getElem?_take_of_lt (by omega), getElem?_append_left (by rw [length_take]; omega),
        getElem?_take_of_lt hi]
  right
  rw [e]
  unfold bitmapDecompressDecompress
  split
  · exact ⟨_, rfl⟩
  rcases hl : decompressLoop bitmap.length 0 ⟨b, 0, 0, false, buffer⟩ with err | t
  · exact ⟨_, rfl⟩
  dsimp only
  split
  · exact ⟨_, rfl⟩
  cases hf : t.failed with
  | true => exact ⟨_, rfl⟩
  | false =>
    -- the cursor of the whole stream would be at its end, behind the `k` bytes
    obtain ⟨c', hc', hcut'⟩ := decompressLoop_cut hcut hl hf
    obtain ⟨c, l, hc, -, hco⟩ := decompressLoop_encBits hbuf hb'
    have heq : c' = c := by
      rw [hc] at hc'
      exact (congrArg DecompressVars.bitstream (Except.ok.inj hc')).symm
    have hin := hcut'.inside
    have hb1 := hcut'.bitOffset
    have hb2 := hcut'.byteOffset
    subst heq
    unfold bitstreamGetOffset at hin hco ho'
    omega

theorem accepts_no {bs : Bitstream} (hn : bitmap.length ≤ 4095)
    (hsize : 4 * bitmap.length + 2 ≤ size) (h : Wrote size bs (headerBits .no bitmap.length))
    (hk2 : 2 ≤ k) (hk : k < (bitmapCopyOut bitmap bs).2)
    (junk : List (BitVec 8)) (state : BitmapDecompressState) (buffer : List (BitVec 32)) :
    ¬ Rejects ((bitmapCopyOut bitmap bs).1.take k ++ junk) k state buffer bitmap.length := by
  have h16 : (headerBits .no bitmap.length).length = 16 := by simp [headerBits]
  have hdata := h.length
  rw [bitmapCopyOut_eq h.aligned (h.pos.trans h16)] at hk ⊢
  have hfit : 2 + (wordBytes 4 bitmap).length ≤ bs.data.length := by rw [wordBytes_length]; omega
  have hlen := memcpyAt_length hfit
  obtain ⟨b, e, -⟩ := @bitmapDecompressInit_two k bitmap (memcpyAt bs.data 2 (wordBytes 4 bitmap))
    .no [] (.inl rfl) hn (fun i hi => by
      rw [append_nil, ← h.bits i]
      unfold memcpyAt
      rw [bitAt_append_left (by rw [length_append, length_take]; omega),
        bitAt_append_left (by rw [length_take]; omega), bitAt_take (by omega)])
    hk2 (by omega) junk state
  unfold Rejects
  rw [e]
  rintro (hf | ⟨err, herr⟩)
  · cases hf
  · unfold bitmapDecompressDecompress at herr
    rw [if_neg (Nat.lt_irrefl _)] at herr
    cases herr

end Truncated

/-- **Truncated bitmaps.**  Reading a proper beginning of what was written is answered by an error,
whatever follows in memory, just if the default encoding was written or the header is incomplete. -/
theorem bitmapDecompress_truncated_iff (bitmap : List (BitVec 32)) (outData out : List (BitVec 8))
    (size k : Nat) (hn : bitmap.length ≤ 4095) (hout : 4 * bitmap.length + 2 ≤ outData.length)
    (he : bitmapCompress .default bitmap outData = .ok (out, size)) (hk : k < size) :
    (∀ (junk : List (BitVec 8)) (state : BitmapDecompressState) (buffer : List (BitVec 32))
      (bitmapDataSize : Nat), bitmap.length ≤ buffer.length →
      Rejects (out.take k ++ junk) k state buffer bitmapDataSize) ↔
      emittedType out = .default ∨ k < 2 := by
  obtain ⟨bs, e, w⟩ := bitmapCompressWriteHeader_wrote .default bitmap.length
    (show 2 ≤ outData.length by omega)
  unfold bitmapCompress at he
  simp only [e] at he
  rcases hd : bitmapCompressDefault bitmap bs with ⟨bs', _ | _⟩
  · -- the uncompressed form
    rw [hd] at he
    obtain ⟨bs₀, e₀, w₀⟩ := bitmapCompressWriteHeader_wrote .no bitmap.length
      (show 2 ≤ outData.length by omega)
    simp only [bitmapCompressNo, e₀] at he
    have hpair := Except.ok.inj he
    obtain rfl : (bitmapCopyOut bitmap bs₀).1 = out := by rw [hpair]
    obtain rfl : (bitmapCopyOut bitmap bs₀).2 = size := by rw [hpair]
    have h16 : (headerBits .no bitmap.length).length = 16 := by simp [headerBits]
    have htype : emittedType (bitmapCopyOut bitmap bs₀).1 = .no := by
      have hdata := w₀.length
      rw [bitmapCopyOut_eq w₀.aligned (w₀.pos.trans h16)]
      unfold emittedType memcpyAt
      rw [bitAt_append_left (by rw [length_append, length_take]; omega),
        bitAt_append_left (by rw [length_take]; omega), bitAt_take (by decide), w₀.bits]
      rfl
    rw [htype]
    constructor
    · intro hall
      by_contra hno
      obtain ⟨-, hk2⟩ := not_or.1 hno
      exact accepts_no hn hout w₀ (Nat.le_of_not_lt hk2) hk [] ⟨bitstreamInit [] 0, .no, 0⟩
        (replicate bitmap.length 0) (hall _ _ _ _ (by simp))
    · rintro (hne | hk2) junk state buffer bitmapDataSize -
      · cases hne
      · exact .inl (bitmapDecompressInit_short hk2 state)
  · rw [hd] at he
    obtain ⟨rfl, rfl⟩ := Prod.mk.inj (Except.ok.inj he)
    have w' := bitmapCompressDefault_wrote w hd
    refine iff_of_true (fun junk state buffer bitmapDataSize hbuf =>
      rejects_default hn w' hk junk state hbuf bitmapDataSize) (.inl ?_)
    unfold emittedType
    rw [w'.bits]
    rfl

/-- Three equal blocks in the default encoding, without the last byte. -/
theorem bitmapDecompress_truncated_three : bitmapCompress .default [5, 5, 5] (List.replicate 14 7) =
        .ok ([0x80, 3, 0xC0, 0, 0, 1, 0x60, 0x10, 0, 0, 0, 0, 0, 0], 8) ∧
      Rejects [0x80, 3, 0xC0, 0, 0, 1, 0x60, 1] 7 ⟨bitstreamInit [] 0, .no, 0⟩ [0, 0, 0] 3 := by
  have he : bitmapCompress .default [5, 5, 5] (replicate 14 7) =
      .ok ([0x80, 3, 0xC0, 0, 0, 1, 0x60, 0x10, 0, 0, 0, 0, 0, 0], 8) := by decide +kernel
  have hall := (bitmapDecompress_truncated_iff [5, 5, 5] _ _ 8 7 (by decide) (by decide) he
    (by decide)).2 (.inl (by decide +kernel))
  exact ⟨he, hall [1] _ [0, 0, 0] 3 (by decide)⟩

/-- One block that is written uncompressed: given the header alone, the reader returns what lies
behind it. -/
theorem bitmapDecompress_copies_past :
    bitmapCompress .default [5] (List.replicate 6 7) = .ok ([0, 1, 5, 0, 0, 0], 6) ∧
      (bitmapDecompressInit ⟨bitstreamInit [] 0, .no, 0⟩ [0, 1, 9, 9, 9, 9] 2).2 = true ∧
      (bitmapDecompressDecompress
        (bitmapDecompressInit ⟨bitstreamInit [] 0, .no, 0⟩ [0, 1, 9, 9, 9, 9] 2).1 [0]
        1).toOption.map Prod.snd = some [0x09090909] := by
  decide +kernel

end PolemoDB.Misc
