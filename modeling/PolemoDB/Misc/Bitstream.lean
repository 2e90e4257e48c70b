import PolemoDB.Lib.MsbBits

/-!
# In-memory bit stream (`utils/misc/bitstream.c`)

`Bitstream` carries the cursor, the memory behind the `data` pointer, the size given at
initialisation and the sticky error flag.  A call returns the new stream and the `bool` of the
source; reads and writes are checked against `dataSize`, skips are not.

* `Wrote size bs bits` — the stream was started on `size` bytes of zeroed memory and `bits` have
  been put into it.
* `Holds bs bits` — the next reads of the stream see `bits`.

Principal results: `bitstreamPut_wrote` (a successful put appends exactly the value's bits) and
`bitstreamGet_holds` (a get over these bits returns the value).
-/

namespace PolemoDB.Misc

open PolemoDB.Lib List

structure Bitstream where
  bitOffset : Nat
  byteOffset : Nat
  data : List (BitVec 8)
  dataSize : Nat
  error : Bool
  deriving DecidableEq, Repr

def bitstreamInit (data : List (BitVec 8)) (dataSize : Nat) : Bitstream :=
  ⟨0, 0, data, dataSize, false⟩

section

variable (bs : Bitstream)

def bitstreamCheckForError : Bitstream × Bool :=
  if bs.error then (bs, false)
  else if bs.byteOffset ≥ bs.dataSize then ({ bs with error := true, byteOffset := 0 }, false)
  else (bs, true)

/-- Advance the cursor by one bit. -/
def Bitstream.step : Bitstream :=
  if bs.bitOffset + 1 = 8 then { bs with bitOffset := 0, byteOffset := bs.byteOffset + 1 }
  else { bs with bitOffset := bs.bitOffset + 1 }

/-- `Bitstream_GetBit`; the bit is meaningful when the call succeeds. -/
def bitstreamGetBit : Bitstream × Bool × Bool :=
  match bitstreamCheckForError bs with
  | (bs, false) => (bs, false, false)
  | (bs, true) =>
    let c := bs.data.getD bs.byteOffset 0
    (bs.step, true, decide (c &&& msbMask 8 bs.bitOffset ≠ 0))

def bitstreamPutBit (v : Bool) : Bitstream × Bool :=
  match bitstreamCheckForError bs with
  | (bs, false) => (bs, false)
  | (bs, true) =>
    let data :=
      if v then bs.data.set bs.byteOffset (bs.data.getD bs.byteOffset 0 ||| msbMask 8 bs.bitOffset)
      else bs.data
    ({ bs with data := data }.step, true)

def bitstreamSkip (skipBitCount : Nat) : Bitstream × Bool :=
  match bitstreamCheckForError bs with
  | (bs, false) => (bs, false)
  | (bs, true) =>
    let newBitOffset := bs.bitOffset + skipBitCount
    ({ bs with bitOffset := newBitOffset % 8, byteOffset := bs.byteOffset + newBitOffset / 8 },
      true)

def bitstreamGetOffset : Nat := bs.byteOffset * 8 + bs.bitOffset

def bitstreamAlign (alignment : Nat) : Bitstream × Bool :=
  let forAlignment := bitstreamGetOffset bs % alignment
  if forAlignment > 0 then bitstreamSkip bs (alignment - forAlignment) else (bs, true)

/-- `Bitstream_GetAlignedData`: the aligned stream; its `byteOffset` is the returned pointer. -/
def bitstreamGetAlignedData (alignment : Nat) : Bitstream :=
  (bitstreamAlign bs alignment).1

end

/-- The loop of `Bitstream_Get`; `none` when a bit could not be read. -/
def bitstreamGetLoop : Nat → BitVec 32 → Bitstream → Bitstream × Option (BitVec 32)
  | 0, v, bs => (bs, some v)
  | n + 1, v, bs =>
    match bitstreamGetBit bs with
    | (bs, false, _) => (bs, none)
    | (bs, true, tmp) => bitstreamGetLoop n (shiftIn v tmp) bs

/-- `Bitstream_Get`: `none` leaves `*value` as it was. -/
def bitstreamGet (bs : Bitstream) (n : Nat) : Bitstream × Option (BitVec 32) :=
  bitstreamGetLoop n 0 bs

/-- The loop of `Bitstream_Put`: `mask` selects the next bit of `v`. -/
def bitstreamPutLoop (v : BitVec 32) : Nat → BitVec 32 → Bitstream → Bitstream × Bool
  | 0, _, bs => (bs, true)
  | n + 1, mask, bs =>
    match bitstreamPutBit bs (decide (v &&& mask ≠ 0)) with
    | (bs, false) => (bs, false)
    | (bs, true) => bitstreamPutLoop v n (mask >>> 1) bs

variable (bs : Bitstream)

def bitstreamPut (v : BitVec 32) (bitCount : Nat) : Bitstream × Bool :=
  bitstreamPutLoop v bitCount (1#32 <<< (bitCount - 1)) bs

def bitstreamGetLength : Nat :=
  if bs.bitOffset = 0 then bs.byteOffset else bs.byteOffset + 1

/-! ## Masks -/

theorem one_shiftLeft_shiftRight {n : Nat} (hn : n + 1 < 32) :
    (1#32 <<< (n + 1)) >>> 1 = 1#32 <<< n := by
  apply BitVec.eq_of_getLsbD_eq
  intro i hi
  by_cases h : i = n
  · subst h
    have : 1 + i < 32 := by omega
    simp [this, show ¬ (1 + i < i + 1) by omega, show 1 + i - (i + 1) = 0 by omega, hi]
  by_cases h2 : i < n
  · have : 1 + i < n + 1 := by omega
    simp [this, h2]
  · have e1 : 1 + i - (n + 1) ≠ 0 := by omega
    have e2 : i - n ≠ 0 := by omega
    simp [e1, e2]

/-! ## The cursor -/

@[simp] theorem step_data : bs.step.data = bs.data := by
  unfold Bitstream.step; split <;> rfl

@[simp] theorem step_dataSize : bs.step.dataSize = bs.dataSize := by
  unfold Bitstream.step; split <;> rfl

@[simp] theorem step_error : bs.step.error = bs.error := by
  unfold Bitstream.step; split <;> rfl

variable {bs : Bitstream} {bits : List Bool}

theorem step_bitOffset_lt (h : bs.bitOffset < 8) : bs.step.bitOffset < 8 := by
  unfold Bitstream.step
  split
  · simp
  · simp only; omega

theorem step_offset (bs : Bitstream) : bitstreamGetOffset bs.step = bitstreamGetOffset bs + 1 := by
  unfold Bitstream.step bitstreamGetOffset
  split <;> simp only <;> omega

theorem checkForError_ok (he : bs.error = false)
    (h : bs.byteOffset < bs.dataSize) : bitstreamCheckForError bs = (bs, true) := by
  unfold bitstreamCheckForError
  rw [he]
  simp; omega

theorem offset_div (h : bs.bitOffset < 8) : bitstreamGetOffset bs / 8 = bs.byteOffset := by
  unfold bitstreamGetOffset; omega

theorem offset_mod (h : bs.bitOffset < 8) : bitstreamGetOffset bs % 8 = bs.bitOffset := by
  unfold bitstreamGetOffset; omega

/-! ## Writing -/

/-- `bits` have been written to a stream over `n` bytes of initially zeroed memory. -/
structure Wrote (n : Nat) (bs : Bitstream) (bits : List Bool) : Prop where
  ok : bs.error = false
  aligned : bs.bitOffset < 8
  dataSize : bs.dataSize = n
  length : bs.data.length = n
  pos : bitstreamGetOffset bs = bits.length
  fits : bits.length ≤ 8 * n
  bits : ∀ i, bitAt bs.data i = bits.getD i false

theorem wrote_init (n : Nat) : Wrote n (bitstreamInit (List.replicate n 0) n) [] where
  ok := rfl
  aligned := by simp [bitstreamInit]
  dataSize := rfl
  length := by simp [bitstreamInit]
  pos := rfl
  fits := by simp
  bits := fun i => bitAt_replicate_zero n i

theorem getD_append_singleton (bits : List Bool) (v : Bool) (i : Nat) :
    (bits ++ [v]).getD i false = (bits.getD i false || (v && decide (i = bits.length))) := by
  rw [getD_eq_getElem?_getD, getD_eq_getElem?_getD]
  by_cases h : i < bits.length
  · rw [getElem?_append_left h]
    simp [show i ≠ bits.length by omega]
  rw [getElem?_append_right (by omega), getElem?_eq_none (by omega : bits.length ≤ i)]
  by_cases h' : i = bits.length
  · subst h'; simp
  · have : 1 ≤ i - bits.length := by omega
    rw [getElem?_eq_none (by simpa using this)]
    simp [h']

section Writing

variable {size : Nat} {bs bs' : Bitstream} {bits : List Bool}

theorem Wrote.byteOffset_lt (h : Wrote size bs bits) (hroom : bits.length < 8 * size) :
    bs.byteOffset < bs.dataSize := by
  have hpos := h.pos
  unfold bitstreamGetOffset at hpos
  rw [h.dataSize]
  omega

theorem bitstreamPutBit_wrote (h : Wrote size bs bits) (v : Bool) :
    (∃ bs', bitstreamPutBit bs v = (bs', true) ∧ Wrote size bs' (bits ++ [v])) ∨
      (bitstreamPutBit bs v).2 = false ∧ 8 * size ≤ bits.length := by
  by_cases hlt : bs.byteOffset < bs.dataSize
  · left
    unfold bitstreamPutBit
    rw [checkForError_ok h.ok hlt]
    rw [h.dataSize] at hlt
    refine ⟨_, rfl, ⟨by simp [h.ok], step_bitOffset_lt h.aligned, by simp [h.dataSize], ?_, ?_, ?_,
      ?_⟩⟩
    · cases v <;> simp [h.length]
    · rw [step_offset, length_append, ← h.pos]
      rfl
    · have hpos := h.pos
      have hal := h.aligned
      unfold bitstreamGetOffset at hpos
      simp only [length_append, length_singleton]
      omega
    · intro i
      rw [getD_append_singleton, ← h.bits i, step_data, ← h.pos]
      cases v with
      | false => simp
      | true =>
        have hin : bitstreamGetOffset bs / 8 < bs.data.length := by
          rw [offset_div h.aligned, h.length]; exact hlt
        have hb := bitAt_setBit hin (by decide) i
        rw [offset_div h.aligned, offset_mod h.aligned] at hb
        simpa using hb
  · refine .inr ⟨?_, Nat.le_of_not_lt fun hroom => hlt (h.byteOffset_lt hroom)⟩
    unfold bitstreamPutBit bitstreamCheckForError
    rw [h.ok]
    simp [show bs.dataSize ≤ bs.byteOffset by omega]

theorem bitstreamPutLoop_wrote (v : BitVec 32) (n : Nat) (bs : Bitstream) (bits : List Bool)
    (hn : n ≤ 32) (h : Wrote size bs bits) :
    (∃ bs', bitstreamPutLoop v n (1#32 <<< (n - 1)) bs = (bs', true) ∧
      Wrote size bs' (bits ++ msbBits n v)) ∨
      (bitstreamPutLoop v n (1#32 <<< (n - 1)) bs).2 = false ∧ 8 * size < bits.length + n := by
  induction n generalizing bs bits with
  | zero => exact .inl ⟨bs, rfl, by rwa [msbBits, append_nil]⟩
  | succ n ih =>
    -- the mask does not matter once all bits are written
    have hmask : ∀ bs, bitstreamPutLoop v n (1#32 <<< n >>> 1) bs =
        bitstreamPutLoop v n (1#32 <<< (n - 1)) bs := by
      cases n with
      | zero => exact fun _ => rfl
      | succ n => exact fun _ => by rw [one_shiftLeft_shiftRight hn, Nat.add_sub_cancel]
    rw [bitstreamPutLoop, Nat.add_sub_cancel, and_one_shiftLeft_ne_zero v hn]
    rcases bitstreamPutBit_wrote h (v.getLsbD n) with ⟨bs', he, hw⟩ | ⟨he, hfull⟩
    · simp only [he, hmask]
      rcases ih bs' _ (by omega) hw with ⟨bs'', he', hw'⟩ | ⟨he', hfull⟩
      · rw [append_assoc] at hw'
        exact .inl ⟨bs'', he', hw'⟩
      · rw [length_append, length_singleton] at hfull
        exact .inr ⟨he', by omega⟩
    · refine .inr ⟨?_, by omega⟩
      split
      · rfl
      · rename_i h'; rw [h'] at he; cases he

variable (h : Wrote size bs bits)
include h

/-- **A successful put has appended exactly the low `bitCount` bits of its value.** -/
theorem bitstreamPut_wrote {v : BitVec 32} {bitCount : Nat}
    (hcount : bitCount ≤ 32) (hp : bitstreamPut bs v bitCount = (bs', true)) :
    Wrote size bs' (bits ++ msbBits bitCount v) := by
  unfold bitstreamPut at hp
  rcases bitstreamPutLoop_wrote v bitCount bs bits hcount h with ⟨b, he, hw⟩ | ⟨he, -⟩
  · rw [hp] at he
    cases he
    exact hw
  · rw [hp] at he; cases he

theorem bitstreamPut_room (v : BitVec 32) {bitCount : Nat}
    (hcount : bitCount ≤ 32) (hroom : bits.length + bitCount ≤ 8 * size) :
    ∃ bs', bitstreamPut bs v bitCount = (bs', true) ∧ Wrote size bs' (bits ++ msbBits bitCount v) :=
  (bitstreamPutLoop_wrote v bitCount bs bits hcount h).resolve_right fun hfull => by omega

theorem bitstreamSkip_wrote (n : Nat) (hroom : bits.length < 8 * size)
    (hfits : bits.length + n ≤ 8 * size) :
    ∃ bs', bitstreamSkip bs n = (bs', true) ∧ Wrote size bs' (bits ++ List.replicate n false) := by
  have hpos := h.pos
  unfold bitstreamGetOffset at hpos
  unfold bitstreamSkip
  rw [checkForError_ok h.ok (h.byteOffset_lt hroom)]
  refine ⟨_, rfl, ⟨h.ok, ?_, h.dataSize, h.length, ?_, by simpa using hfits, ?_⟩⟩
  · exact Nat.mod_lt _ (by decide)
  · simp only [bitstreamGetOffset, length_append, length_replicate]
    omega
  intro i
  rw [h.bits i, getD_eq_getElem?_getD, getD_eq_getElem?_getD]
  by_cases hi : i < bits.length
  · rw [getElem?_append_left hi]
  · rw [getElem?_append_right (by omega), getElem?_eq_none (by omega : bits.length ≤ i),
      getElem?_replicate]
    split <;> rfl

theorem bitstreamGetLength_wrote : bitstreamGetLength bs = (bits.length + 7) / 8 := by
  have hpos := h.pos
  have hal := h.aligned
  unfold bitstreamGetOffset at hpos
  unfold bitstreamGetLength
  split <;> omega

end Writing

/-! ## Reading -/

/-- The next bits of the stream are `bits`, and all of them lie before `dataSize`. -/
structure Holds (bs : Bitstream) (bits : List Bool) : Prop where
  ok : bs.error = false
  aligned : bs.bitOffset < 8
  room : bitstreamGetOffset bs + bits.length ≤ 8 * bs.dataSize
  bits : ∀ i, i < bits.length → bitAt bs.data (bitstreamGetOffset bs + i) = bits.getD i false

theorem bitstreamGetBit_holds {b : Bool} (h : Holds bs (b :: bits)) :
    ∃ bs', bitstreamGetBit bs = (bs', true, b) ∧ Holds bs' bits ∧ bs'.data = bs.data ∧
      bs'.dataSize = bs.dataSize ∧ bitstreamGetOffset bs' = bitstreamGetOffset bs + 1 := by
  have hroom := h.room
  have hlt : bs.byteOffset < bs.dataSize := by
    unfold bitstreamGetOffset at hroom
    simp only [length_cons] at hroom
    omega
  unfold bitstreamGetBit
  rw [checkForError_ok h.ok hlt]
  have hb : (bs.data.getD bs.byteOffset 0).getMsbD bs.bitOffset = b := by
    have := h.bits 0 (by simp)
    rw [Nat.add_zero] at this
    unfold bitAt at this
    rw [offset_div h.aligned, offset_mod h.aligned] at this
    simpa using this
  refine ⟨bs.step, ?_, ⟨by simp [h.ok], step_bitOffset_lt h.aligned, ?_, ?_⟩, by simp, by simp,
    step_offset bs⟩
  · simp only
    rw [and_msbMask_ne_zero _ h.aligned, hb]
  · rw [step_offset bs, step_dataSize]
    simp only [length_cons] at hroom
    omega
  intro i hi
  rw [step_offset bs, step_data]
  have := h.bits (i + 1) (by simp; omega)
  rw [show bitstreamGetOffset bs + 1 + i = bitstreamGetOffset bs + (i + 1) by omega, this]
  simp

/-- **A get over `n` bits of the stream returns them folded into a word.** -/
theorem bitstreamGetLoop_holds :
    ∀ (xs bits : List Bool) (v : BitVec 32) (bs : Bitstream), Holds bs (xs ++ bits) →
      ∃ bs', bitstreamGetLoop xs.length v bs = (bs', some (xs.foldl shiftIn v)) ∧
        Holds bs' bits ∧ bs'.data = bs.data ∧ bs'.dataSize = bs.dataSize ∧
        bitstreamGetOffset bs' = bitstreamGetOffset bs + xs.length
  | [], bits, v, bs, h => ⟨bs, rfl, h, rfl, rfl, rfl⟩
  | x :: xs, bits, v, bs, h => by
    obtain ⟨bs₁, he₁, h₁, hd₁, hs₁, ho₁⟩ := bitstreamGetBit_holds h
    obtain ⟨bs₂, he₂, h₂, hd₂, hs₂, ho₂⟩ := bitstreamGetLoop_holds xs bits (shiftIn v x) bs₁ h₁
    refine ⟨bs₂, ?_, h₂, hd₂.trans hd₁, hs₂.trans hs₁, ?_⟩
    · simp only [length_cons, bitstreamGetLoop, he₁]
      exact he₂
    · simp only [length_cons]; omega

theorem bitstreamGet_holds {n : Nat} {x : BitVec 32}
    (hx : ∀ i, n ≤ i → x.getLsbD i = false) (h : Holds bs (msbBits n x ++ bits)) :
    ∃ bs', bitstreamGet bs n = (bs', some x) ∧ Holds bs' bits ∧ bs'.data = bs.data ∧
      bs'.dataSize = bs.dataSize ∧ bitstreamGetOffset bs' = bitstreamGetOffset bs + n := by
  have hg := bitstreamGetLoop_holds (msbBits n x) bits 0 bs h
  rw [foldl_msbBits_eq hx, msbBits_length] at hg
  exact hg

theorem bitstreamSkip_holds {xs : List Bool} (h : Holds bs (xs ++ bits))
    (hroom : bitstreamGetOffset bs < 8 * bs.dataSize) :
    ∃ bs', bitstreamSkip bs xs.length = (bs', true) ∧ Holds bs' bits ∧ bs'.data = bs.data ∧
      bs'.dataSize = bs.dataSize ∧ bitstreamGetOffset bs' = bitstreamGetOffset bs + xs.length := by
  have hr := h.room
  have hlt : bs.byteOffset < bs.dataSize := by
    unfold bitstreamGetOffset at hroom
    omega
  have hoff : ∀ n, (bs.byteOffset + (bs.bitOffset + n) / 8) * 8 + (bs.bitOffset + n) % 8 =
      bitstreamGetOffset bs + n := by
    unfold bitstreamGetOffset
    omega
  unfold bitstreamSkip
  rw [checkForError_ok h.ok hlt]
  refine ⟨_, rfl, ⟨h.ok, Nat.mod_lt _ (by decide), ?_, ?_⟩, rfl, rfl, hoff _⟩
  · show (bs.byteOffset + (bs.bitOffset + xs.length) / 8) * 8 + _ + _ ≤ _
    rw [hoff]
    rw [length_append] at hr
    show bitstreamGetOffset bs + xs.length + bits.length ≤ 8 * bs.dataSize
    omega
  intro i hi
  show bitAt bs.data ((bs.byteOffset + (bs.bitOffset + xs.length) / 8) * 8 + _ + i) = _
  rw [hoff]
  have := h.bits (xs.length + i) (by simp; omega)
  rw [← Nat.add_assoc] at this
  rw [this, getD_eq_getElem?_getD, getElem?_append_right (by omega)]
  simp

theorem holds_of_wrote {size : Nat} (h : Wrote size bs bits) (junk : List (BitVec 8)) :
    Holds (bitstreamInit (bs.data.take (bitstreamGetLength bs) ++ junk) (bitstreamGetLength bs))
      bits := by
  have hlen := bitstreamGetLength_wrote h
  have hfits := h.fits
  have hsize := h.length
  refine ⟨rfl, by simp [bitstreamInit], ?_, ?_⟩
  · show 0 * 8 + 0 + _ ≤ 8 * _
    simp only [bitstreamInit]
    omega
  intro i hi
  show bitAt (_ ++ junk) (0 * 8 + 0 + i) = _
  rw [← h.bits i, show 0 * 8 + 0 + i = i by omega]
  rw [bitAt_append_left, bitAt_take (by omega)]
  rw [length_take]
  omega

theorem Holds.mono_size {mem : List (BitVec 8)} {size size' : Nat}
    (h : Holds (bitstreamInit mem size) bits) (hle : size ≤ size') :
    Holds (bitstreamInit mem size') bits :=
  ⟨rfl, h.aligned, le_trans h.room (Nat.mul_le_mul_left 8 hle), h.bits⟩

theorem bitstreamGetAlignedData_self {alignment : Nat}
    (h : bitstreamGetOffset bs % alignment = 0) : bitstreamGetAlignedData bs alignment = bs := by
  unfold bitstreamGetAlignedData bitstreamAlign
  simp [h]

end PolemoDB.Misc
