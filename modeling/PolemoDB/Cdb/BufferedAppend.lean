import PolemoDB.Cdb.AppendOnlyXlog

/-!
# Buffered writing of append-only files (`cdb/cdbbufferedappend.c`)

A caller gets a buffer behind the bytes that are pending, fills it and says how much of it is used.
When the large-write memory is full, it is written and logged, and what lies behind it is copied to
the front.

* `bufferedAppend_exact` — the file holds the finished buffers, each where the position before it
  said, and the records tile the same bytes.
-/

namespace PolemoDB.Cdb

open PolemoDB.Lib List

abbrev Bytes := List (BitVec 8)

/-- The fields of `BufferedAppend`, the file and the records of it. -/
structure BufferedAppend where
  maxBufferWithCompressionOverrrunLen : Nat
  maxLargeWriteLen : Nat
  /-- `largeWriteMemory`, with `afterBufferMemory` behind its `maxLargeWriteLen` bytes -/
  memory : Bytes
  largeWritePosition : Nat
  largeWriteLen : Nat
  bufferLen : Nat
  fileLen : Nat
  fileLenUncompressed : Nat
  file : Bytes
  wal : List AoRecord

def bufferedAppendMemoryLen (maxBufferLen maxLargeWriteLen : Nat) : Nat :=
  maxLargeWriteLen + maxBufferLen

/-- The loop of `BufferedAppendWrite`: `FileWrite` writes any positive part (`part` of the position)
of what is left. -/
def writeLoop (part : Nat → Nat) (memory : Bytes) (position : Nat) : Nat → Nat → Nat → Bytes → Bytes
  | 0, _, _, file => file
  | fuel + 1, bytestotal, bytesleft, file =>
    if bytesleft = 0 then file
    else
      let byteswritten := min bytesleft (part (position + bytestotal) + 1)
      writeLoop part memory position fuel (bytestotal + byteswritten) (bytesleft - byteswritten)
        (writeAt file (position + bytestotal) ((memory.drop bytestotal).take byteswritten))

section

variable (part : Nat → Nat) (needsWAL : Bool)

section

variable (s : BufferedAppend)

/-- `BufferedAppendWrite`. -/
def bufferedAppendWrite : BufferedAppend := { s with
    file := writeLoop part s.memory s.largeWritePosition s.largeWriteLen 0 s.largeWriteLen s.file
    wal := if needsWAL then s.wal ++
      [.insert s.largeWritePosition (s.memory.take s.largeWriteLen)] else s.wal
    largeWritePosition := s.largeWritePosition + s.largeWriteLen
    largeWriteLen := 0 }

def bufferedAppendNextBufferPosition : Nat :=
  s.largeWritePosition + s.largeWriteLen

/-- `BufferedAppendGetBuffer`, with its error and its assertion. -/
def bufferedAppendGetBuffer (bufferLen : Nat) (s : BufferedAppend) : Option BufferedAppend :=
  if bufferLen > s.maxBufferWithCompressionOverrrunLen then none
  else if s.largeWriteLen + bufferLen > s.maxLargeWriteLen + s.maxBufferWithCompressionOverrrunLen
  then none
  else some { s with bufferLen := bufferLen }

/-- `BufferedAppendGetCurrentBuffer`, as far as it is used. -/
def bufferedAppendGetCurrentBuffer (usedLen : Nat) : Bytes :=
  (s.memory.drop s.largeWriteLen).take usedLen

def bufferedAppendCancelLastBuffer : BufferedAppend :=
  { s with bufferLen := 0 }

/-- The middle part of `BufferedAppendFinishBuffer`. -/
def addLen (newLen : Nat) (s : BufferedAppend) : BufferedAppend :=
  if newLen ≥ s.maxLargeWriteLen then
    let s' := bufferedAppendWrite part needsWAL { s with largeWriteLen := s.maxLargeWriteLen }
    if newLen > s.maxLargeWriteLen then
      -- the carry-over behind the large-write memory is copied to its front
      let excessLen := newLen - s.maxLargeWriteLen
      { s' with
        memory := writeAt s.memory 0 ((s.memory.drop s.maxLargeWriteLen).take excessLen),
        largeWriteLen := excessLen }
    else s'
  else { s with largeWriteLen := newLen }

/-- `BufferedAppendFinishBuffer`, with its error and its assertion. -/
def bufferedAppendFinishBuffer (usedLen usedLenUncompressed : Nat) (s : BufferedAppend) :
    Option BufferedAppend :=
  if usedLen > s.bufferLen then none
  else if s.largeWriteLen + usedLen > s.maxLargeWriteLen + s.maxBufferWithCompressionOverrrunLen
    then none
  else
    let s' := addLen part needsWAL (s.largeWriteLen + usedLen) s
    some { s' with
      fileLen := s'.fileLen + usedLen,
      fileLenUncompressed := s'.fileLenUncompressed + usedLenUncompressed }

/-- `BufferedAppendCompleteFile`: the last write, and the lengths it reports. -/
def bufferedAppendCompleteFile : BufferedAppend × Nat × Nat :=
  let s' := if s.largeWriteLen > 0 then bufferedAppendWrite part needsWAL s else s
  ({ s' with
    largeWritePosition := 0, largeWriteLen := 0, bufferLen := 0, fileLen := 0,
    fileLenUncompressed := 0 }, s.fileLen, s.fileLenUncompressed)

end

/-- The calls, and what the caller writes at the front of the buffer that it got. -/
inductive AppendCall where
  | getBuffer (bufferLen : Nat)
  | fill (bytes : Bytes)
  | cancelLastBuffer
  | finishBuffer (usedLen usedLenUncompressed : Nat)
deriving DecidableEq, Repr

/-- The calls one after another, with the position before each finished buffer and what is in it. -/
def runCalls : List AppendCall → BufferedAppend → Option (BufferedAppend × List (Nat × Bytes))
  | [], s => some (s, [])
  | .getBuffer len :: cs, s => (bufferedAppendGetBuffer len s).bind (runCalls cs)
  | .fill bytes :: cs, s => runCalls cs { s with memory := writeAt s.memory s.largeWriteLen bytes }
  | .cancelLastBuffer :: cs, s => runCalls cs (bufferedAppendCancelLastBuffer s)
  | .finishBuffer used usedUncompressed :: cs, s =>
    (bufferedAppendFinishBuffer part needsWAL used usedUncompressed s).bind fun s' =>
      (runCalls cs s').map fun r =>
        (r.1, (bufferedAppendNextBufferPosition s, bufferedAppendGetCurrentBuffer s used) :: r.2)

end

/-- The lengths a caller may use: up to the maximum, and up to what it asked for last. -/
def Allowed (maxBufferLen : Nat) : Nat → List AppendCall → Prop
  | _, [] => True
  | _, .getBuffer len :: cs => len ≤ maxBufferLen ∧ Allowed maxBufferLen len cs
  | len, .fill bytes :: cs => bytes.length ≤ len ∧ Allowed maxBufferLen len cs
  | _, .cancelLastBuffer :: cs => Allowed maxBufferLen 0 cs
  | len, .finishBuffer used _ :: cs => used ≤ len ∧ Allowed maxBufferLen len cs

/-- The pieces lie one behind the other from the position on. -/
def Tiles : Nat → List (Nat × Bytes) → Prop
  | _, [] => True
  | position, (p, bytes) :: rest => p = position ∧ Tiles (position + bytes.length) rest

/-- The bytes of the pieces. -/
def content (pieces : List (Nat × Bytes)) : Bytes := pieces.flatMap Prod.snd

/-! ## One write -/

variable (part : Nat → Nat) {memory file file₀ done w : Bytes} {start : Nat} {s : BufferedAppend}
  {pieces : List (Nat × Bytes)}

theorem writeLoop_eq {position fuel left total : Nat} (hfuel : left ≤ fuel)
    (hmem : total + left ≤ memory.length) : writeLoop part memory position fuel total left file =
    writeAt file (position + total) ((memory.drop total).take left) := by
  induction fuel generalizing left total file with
  | zero =>
    obtain rfl : left = 0 := Nat.le_zero.mp hfuel
    rfl
  | succ fuel ih =>
    unfold writeLoop
    split
    next hleft =>
      rw [hleft]
      rfl
    · have hn : min left (part (position + total) + 1) ≤ left ∧
          0 < min left (part (position + total) + 1) := by omega
      generalize min left (part (position + total) + 1) = n at hn ⊢
      have hlen : ((memory.drop total).take n).length = n := by
        rw [length_take, length_drop]
        omega
      have hnext := writeAt_append file (position + total) ((memory.drop total).take n)
        ((memory.drop (total + n)).take (left - n))
      rw [hlen, ← drop_drop, ← take_add] at hnext
      rw [ih (by omega) (by omega), ← Nat.add_assoc, ← drop_drop, hnext,
        Nat.add_sub_cancel' (by omega)]

theorem tiles_concat {p q : Nat} {b : Bytes} (h : Tiles p pieces)
    (hq : q = p + (content pieces).length) : Tiles p (pieces ++ [(q, b)]) := by
  induction pieces generalizing p with
  | nil => exact ⟨hq, trivial⟩
  | cons x pieces ih =>
    refine ⟨h.1, ih h.2 ?_⟩
    rw [hq, content, flatMap_cons, length_append, Nat.add_assoc]
    rfl

/-- What is in the file and in the log. -/
structure Written (file₀ : Bytes) (start position : Nat) (file : Bytes) (wal : List AoRecord)
    (w : Bytes) : Prop where
  position : position = start + w.length
  file : file = writeAt file₀ start w
  wal : ∃ pieces, wal = pieces.map (fun p => .insert p.1 p.2) ∧ Tiles start pieces ∧
    content pieces = w

theorem Written.write (h : Written file₀ start s.largeWritePosition s.file s.wal w)
    (hlen : s.largeWriteLen ≤ s.memory.length) :
      Written file₀ start (bufferedAppendWrite part true s).largeWritePosition
      (bufferedAppendWrite part true s).file (bufferedAppendWrite part true s).wal
      (w ++ s.memory.take s.largeWriteLen) := by
  refine ⟨?_, ?_, ?_⟩
  · show s.largeWritePosition + s.largeWriteLen = _
    rw [h.position, length_append, length_take_of_le hlen, Nat.add_assoc]
  · show writeLoop _ _ _ _ _ _ _ = _
    rw [writeLoop_eq part (Nat.le_refl _) (by rwa [Nat.zero_add]), h.position, h.file, Nat.add_zero,
      drop_zero, writeAt_append]
  obtain ⟨pieces, heq, htiles, hcontent⟩ := h.wal
  refine ⟨pieces ++ [(s.largeWritePosition, s.memory.take s.largeWriteLen)], ?_,
    tiles_concat htiles ?_, ?_⟩
  · show s.wal ++ _ = _
    rw [heq, map_append]
    rfl
  · rw [h.position, hcontent]
  · rw [content, flatMap_append, flatMap_singleton]
    exact congrArg (· ++ _) hcontent

/-! ## The calls -/

/-- What is written and what is pending, together, is what was finished. -/
structure InMemory (file₀ : Bytes) (start : Nat) (s : BufferedAppend) (done : Bytes) : Prop where
  max_le : s.maxBufferWithCompressionOverrrunLen ≤ s.maxLargeWriteLen
  memory : bufferedAppendMemoryLen s.maxBufferWithCompressionOverrrunLen s.maxLargeWriteLen ≤
    s.memory.length
  room : s.largeWriteLen < s.maxLargeWriteLen
  buffer : s.bufferLen ≤ s.maxBufferWithCompressionOverrrunLen
  fileLen : s.fileLen = start + done.length
  written : ∃ w, Written file₀ start s.largeWritePosition s.file s.wal w ∧ w ++
    s.memory.take s.largeWriteLen = done

section

variable (h : InMemory file₀ start s done)
include h

theorem InMemory.nextPosition : bufferedAppendNextBufferPosition s = start + done.length := by
  obtain ⟨w, hw, rfl⟩ := h.written
  have hmem := h.memory
  have hroom := h.room
  unfold bufferedAppendMemoryLen at hmem
  rw [bufferedAppendNextBufferPosition, hw.position, length_append, length_take_of_le (by omega),
    Nat.add_assoc]

theorem InMemory.fill (bytes : Bytes) :
    InMemory file₀ start { s with memory := writeAt s.memory s.largeWriteLen bytes } done := by
  obtain ⟨w, hw, hdone⟩ := h.written
  have hmem := h.memory
  have hroom := h.room
  unfold bufferedAppendMemoryLen at hmem
  refine ⟨h.max_le, Nat.le_trans h.memory (length_le_writeAt ..), hroom, h.buffer, h.fileLen, w, hw,
    ?_⟩
  dsimp only
  rw [writeAt_of_le (by omega), append_assoc, take_append_of_le_length (by rw [length_take]; omega),
    take_take, Nat.min_self, hdone]

/-- The used part of the buffer goes behind what was finished before. -/
theorem InMemory.finish {used : Nat} (hused : used ≤ s.bufferLen) (usedUncompressed : Nat) :
    ∃ s', bufferedAppendFinishBuffer part true used usedUncompressed s = some s' ∧
      InMemory file₀ start s' (done ++ bufferedAppendGetCurrentBuffer s used) ∧
      s'.bufferLen = s.bufferLen ∧
      s'.maxBufferWithCompressionOverrrunLen = s.maxBufferWithCompressionOverrrunLen := by
  obtain ⟨w, hw, hdone⟩ := h.written
  have hmem := h.memory
  have hroom := h.room
  have hbuf := h.buffer
  have hle := h.max_le
  unfold bufferedAppendMemoryLen at hmem
  have hall : w ++ s.memory.take (s.largeWriteLen + used) = done ++
      bufferedAppendGetCurrentBuffer s used := by
    rw [take_add, ← append_assoc, hdone, bufferedAppendGetCurrentBuffer]
  have hfile : s.fileLen + used =
      start + (done ++ bufferedAppendGetCurrentBuffer s used).length := by
    rw [h.fileLen, length_append, bufferedAppendGetCurrentBuffer, length_take, length_drop]
    omega
  have hwrite := hw.write (s := { s with largeWriteLen := s.maxLargeWriteLen }) part
    (by dsimp only; omega)
  rw [bufferedAppendFinishBuffer, if_neg (by omega), if_neg (by omega), addLen]
  rcases Nat.lt_trichotomy (s.largeWriteLen + used) s.maxLargeWriteLen with hless | heq | hmore
  · rw [if_neg (by omega)]
    exact ⟨_, rfl, ⟨hle, hmem, hless, hbuf, hfile, w, hw, hall⟩, rfl, rfl⟩
  · rw [if_pos (by omega)]
    rw [if_neg (Nat.not_lt.mpr (Nat.le_of_eq heq))]
    refine ⟨_, rfl, ⟨hle, hmem, Nat.zero_lt_of_lt hroom, hbuf, hfile, _, hwrite, ?_⟩, rfl, rfl⟩
    rw [← hall, heq]
    exact append_nil _
  · rw [if_pos (by omega)]
    rw [if_pos hmore]
    refine ⟨_, rfl, ⟨hle, Nat.le_trans hmem (length_le_writeAt ..), ?_, hbuf, hfile, _, hwrite, ?_⟩,
      rfl, rfl⟩
    · show s.largeWriteLen + used - s.maxLargeWriteLen < s.maxLargeWriteLen
      omega
    -- the bytes behind the large write are the pending ones
    dsimp only
    rw [writeAt_of_le (Nat.zero_le _), take_zero, nil_append,
      take_left' (by rw [length_take, length_drop]; omega), append_assoc,
      ← take_add, Nat.add_sub_cancel' (Nat.le_of_lt hmore), hall]

end

/-- What the calls leave, and where the finished buffers are. -/
theorem InMemory.run {cs : List AppendCall} {maxLen : Nat} (h : InMemory file₀ start s done)
    (hmax : s.maxBufferWithCompressionOverrrunLen = maxLen) (hcs : Allowed maxLen s.bufferLen cs) :
    ∃ s' finished, runCalls part true cs s = some (s', finished) ∧
      InMemory file₀ start s' (done ++ content finished) ∧
      Tiles (start + done.length) finished := by
  induction cs generalizing s done with
  | nil => exact ⟨s, [], rfl, (append_nil done).symm ▸ h, trivial⟩
  | cons c cs ih =>
    cases c with
    | getBuffer len =>
      have hroom := h.room
      have hlen := hcs.1
      have hget : bufferedAppendGetBuffer len s = some { s with bufferLen := len } := by
        rw [bufferedAppendGetBuffer, if_neg (by omega), if_neg (by omega)]
      rw [runCalls, hget]
      exact ih { h with buffer := hmax ▸ hlen } hmax hcs.2
    | fill bytes => exact ih (h.fill bytes) hmax hcs.2
    | cancelLastBuffer => exact ih { h with buffer := Nat.zero_le _ } hmax hcs
    | finishBuffer used usedUncompressed =>
      obtain ⟨s₁, hfinish, h₁, hbuf, hmax₁⟩ := h.finish part hcs.1 usedUncompressed
      obtain ⟨s', finished, hrun, h', htiles⟩ := ih h₁ (hmax₁.trans hmax) (hbuf ▸ hcs.2)
      refine ⟨s', (bufferedAppendNextBufferPosition s, bufferedAppendGetCurrentBuffer s used) ::
        finished, ?_, ?_, h.nextPosition, ?_⟩
      · rw [runCalls, hfinish, Option.bind_some, hrun]
        rfl
      · rwa [append_assoc] at h'
      · rwa [length_append, ← Nat.add_assoc] at htiles

/-- The state behind `BufferedAppendInit` and `BufferedAppendSetFile`. -/
def bufferedAppendStart (maxBufferLen maxLargeWriteLen : Nat) (memory file : Bytes)
    (eof eofUncompressed : Nat) : BufferedAppend :=
  ⟨maxBufferLen, maxLargeWriteLen, memory, eof, 0, 0, eof, eofUncompressed, file, []⟩

/-- **Buffered append**: the calls succeed; the file, from the start offset on, holds the finished
buffers one behind the other, each where `BufferedAppendNextBufferPosition` said; the reported
length is the end of them; and the records tile the same bytes. -/
theorem bufferedAppend_exact (part : Nat → Nat) (maxBufferLen maxLargeWriteLen : Nat)
    (memory file : Bytes) (eof eofUncompressed : Nat) (cs : List AppendCall)
    (hpos : 0 < maxBufferLen) (hle : maxBufferLen ≤ maxLargeWriteLen)
    (hmem : bufferedAppendMemoryLen maxBufferLen maxLargeWriteLen ≤ memory.length)
    (hcs : Allowed maxBufferLen 0 cs) : ∃ s finished s' fileLen fileLenUncompressed pieces,
      runCalls part true cs
      (bufferedAppendStart maxBufferLen maxLargeWriteLen memory file eof eofUncompressed) =
      some (s, finished) ∧ bufferedAppendCompleteFile part true s =
      (s', fileLen, fileLenUncompressed) ∧ s'.file = writeAt file eof (content finished) ∧
      fileLen = eof + (content finished).length ∧ Tiles eof finished ∧
      s'.wal = pieces.map (fun p => .insert p.1 p.2) ∧ Tiles eof pieces ∧
      content pieces = content finished := by
  have hstart : InMemory file eof
      (bufferedAppendStart maxBufferLen maxLargeWriteLen memory file eof eofUncompressed) [] :=
    ⟨hle, hmem, Nat.lt_of_lt_of_le hpos hle, Nat.zero_le _, rfl, [],
      ⟨rfl, rfl, [], rfl, trivial, rfl⟩, rfl⟩
  obtain ⟨s, finished, hrun, h, htiles⟩ := hstart.run part rfl hcs
  -- the last write leaves nothing in memory
  have hw : ∃ position, Written file eof position (bufferedAppendCompleteFile part true s).1.file
      (bufferedAppendCompleteFile part true s).1.wal (content finished) := by
    obtain ⟨w, hw, hdone⟩ := h.written
    have hlen := h.memory
    have hroom := h.room
    unfold bufferedAppendMemoryLen at hlen
    unfold bufferedAppendCompleteFile
    split
    · exact ⟨_, hdone ▸ hw.write part (by omega)⟩
    next hzero =>
      rw [Nat.eq_zero_of_not_pos hzero, take_zero, append_nil] at hdone
      exact ⟨_, hdone ▸ hw⟩
  obtain ⟨_, hw⟩ := hw
  obtain ⟨pieces, hwal, hpieces, hcontent⟩ := hw.wal
  exact ⟨s, finished, _, _, _, pieces, hrun, rfl, hw.file, h.fileLen, htiles, hwal, hpieces,
    hcontent⟩

/-- Two buffers of three bytes, the second used for two; the large write of four bytes is cut
between them. -/
theorem bufferedAppend_exact_overrun : ∃ s finished s' fileLen fileLenUncompressed pieces,
    runCalls (fun _ => 0) true [.getBuffer 3, .fill [1, 2, 3], .finishBuffer 3 3, .getBuffer 3,
      .fill [4, 5], .finishBuffer 2 2] (bufferedAppendStart 3 4 (replicate 7 0) [9] 1 1) =
      some (s, finished) ∧
    bufferedAppendCompleteFile (fun _ => 0) true s = (s', fileLen, fileLenUncompressed) ∧
    s'.file = writeAt [9] 1 (content finished) ∧ fileLen = 1 + (content finished).length ∧
      Tiles 1 finished ∧
    s'.wal = pieces.map (fun p => .insert p.1 p.2) ∧ Tiles 1 pieces ∧
      content pieces = content finished :=
  bufferedAppend_exact (fun _ => 0) 3 4 (replicate 7 0) [9] 1 1 _ (by decide) (by decide)
    (by decide) ⟨by decide, by decide, by decide, by decide, by decide, by decide, trivial⟩

/-! ## The mirror -/

theorem applyAll_tiles (f : Bytes) {p : Nat} (h : Tiles p pieces) :
    applyAll (pieces.map fun x => .write x.1 x.2) f = writeAt f p (content pieces) := by
  induction pieces generalizing p f with
  | nil => rfl
  | cons x pieces ih =>
    obtain ⟨rfl, h⟩ := h
    exact (ih _ h).trans (writeAt_append f x.1 x.2 (content pieces))

/-- The records, replayed on a file that has some of them already, leave the file of the primary. -/
theorem Written.replay {position : Nat} {wal : List AoRecord}
    (h : Written file₀ start position file wal w) (n : Nat) :
    aoRedoAll wal ⟨some (applyAll ((wal.take n).map AoRecord.op) file₀), false⟩ =
    ⟨some file, false⟩ := by
  obtain ⟨pieces, hwal, htiles, rfl⟩ := h.wal
  have hall : applyAll (wal.map AoRecord.op) file₀ = file := by
    rw [h.file, ← applyAll_tiles file₀ htiles, hwal, map_map]
    rfl
  obtain ⟨a, b, ha, hab⟩ : ∃ a b, wal.take n = a ∧ wal = a ++ b :=
    ⟨_, _, rfl, (take_append_drop n wal).symm⟩
  rw [aoRedoAll_some, ← hall, ha, hab]
  simp only [map_append, applyAll_append, applyAll_again]

/-- **The mirror follows the primary**: after any calls, and after the file is completed, replaying
the records so far on a mirror that had the file as it was at the start, or has replayed any number
of them before, leaves the file of the primary. -/
theorem bufferedAppend_mirrored (part : Nat → Nat) (maxBufferLen maxLargeWriteLen : Nat)
    (memory file : Bytes) (eof eofUncompressed : Nat) (cs : List AppendCall)
    (hpos : 0 < maxBufferLen) (hle : maxBufferLen ≤ maxLargeWriteLen)
    (hmem : bufferedAppendMemoryLen maxBufferLen maxLargeWriteLen ≤ memory.length)
    (hcs : Allowed maxBufferLen 0 cs) : ∃ s finished,
      runCalls part true cs
      (bufferedAppendStart maxBufferLen maxLargeWriteLen memory file eof eofUncompressed) =
      some (s, finished) ∧ ∀ s' ∈ [s, (bufferedAppendCompleteFile part true s).1], ∀ n,
        aoRedoAll s'.wal ⟨some (applyAll ((s'.wal.take n).map AoRecord.op) file), false⟩ =
        ⟨some s'.file, false⟩ := by
  have hstart : InMemory file eof
      (bufferedAppendStart maxBufferLen maxLargeWriteLen memory file eof eofUncompressed) [] :=
    ⟨hle, hmem, Nat.lt_of_lt_of_le hpos hle, Nat.zero_le _, rfl, [],
      ⟨rfl, rfl, [], rfl, trivial, rfl⟩, rfl⟩
  obtain ⟨s, finished, hrun, h, -⟩ := hstart.run part rfl hcs
  obtain ⟨w, hw, -⟩ := h.written
  have hlen := h.memory
  have hroom := h.room
  unfold bufferedAppendMemoryLen at hlen
  refine ⟨s, finished, hrun, forall_mem_cons.mpr ⟨hw.replay, forall_mem_singleton.mpr ?_⟩⟩
  unfold bufferedAppendCompleteFile
  split
  · exact (hw.write part (by omega)).replay
  · exact hw.replay

/-- Two buffers of two bytes, behind each other in a large write of three. -/
def twoBuffers : List AppendCall :=
  [.getBuffer 2, .fill [5, 6], .finishBuffer 2 2, .getBuffer 2, .fill [7, 8], .finishBuffer 2 2]

/-- A mirror that has replayed the first of the two records. -/
theorem bufferedAppend_mirrored_two : ∃ s finished,
    runCalls (fun _ => 0) true twoBuffers (bufferedAppendStart 2 3 [0, 0, 0, 0, 0] [9] 1 1) =
      some (s, finished) ∧
    (bufferedAppendCompleteFile (fun _ => 0) true s).1.wal.length = 2 ∧
    aoRedoAll (bufferedAppendCompleteFile (fun _ => 0) true s).1.wal ⟨some [9, 5, 6, 7], false⟩ =
      ⟨some [9, 5, 6, 7, 8], false⟩ := by
  obtain ⟨s, finished, hrun, h⟩ :=
    bufferedAppend_mirrored (fun _ => 0) 2 3 [0, 0, 0, 0, 0] [9] 1 1 twoBuffers (by decide)
    (by decide) (by decide) ⟨by decide, by decide, by decide, by decide, by decide, by decide,
    trivial⟩
  cases hrun
  exact ⟨_, _, rfl, rfl, h _ (mem_cons_of_mem _ mem_cons_self) 1⟩

end PolemoDB.Cdb
