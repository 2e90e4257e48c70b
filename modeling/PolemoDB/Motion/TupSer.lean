import PolemoDB.Lib.LeBytes

/-!
# Tuples over the interconnect

A motion node turns minimal tuples into chunks, packs the chunks into packets, and at the other end
cuts the packets into chunks and puts the tuples together again.

* `serializeTuple` — `SerializeTuple`: into the rest of the packet when the tuple fits, else as a
  list of chunks;
* `sendTuple`, `sendEos` — packing, as `SendChunkUDPIFC` and `SendChunkTCP` do it;

A packet is the bytes after its header; numbers are copied in the byte order of the machine, least
significant byte first.
-/

namespace PolemoDB.Motion

open PolemoDB.Lib

/-- Bytes in memory and on the network. -/
abbrev Bytes := List (BitVec 8)

/-! ## Chunks -/

inductive TupleChunkType
  | whole
  | partialStart
  | partialMid
  | partialEnd
  | endOfStream
  | empty
  deriving DecidableEq, Repr

open TupleChunkType

/-- The value of the type in a header. -/
def TupleChunkType.code : TupleChunkType → Nat
  | .whole => 0
  | .partialStart => 1
  | .partialMid => 2
  | .partialEnd => 3
  | .endOfStream => 4
  | .empty => 5

/-- The type of a value in a header. -/
def TupleChunkType.ofCode : Nat → Option TupleChunkType
  | 0 => some .whole
  | 1 => some .partialStart
  | 2 => some .partialMid
  | 3 => some .partialEnd
  | 4 => some .endOfStream
  | 5 => some .empty
  | _ => none

/-- The size in two bytes, the type in two bytes. -/
def TUPLE_CHUNK_HEADER_SIZE : Nat := 4

def setChunkDataSize (data : Bytes) (value : Nat) : Bytes := memcpyAt data 0 (leBytes 2 value)

def setChunkType (data : Bytes) (type : TupleChunkType) : Bytes :=
  memcpyAt data 2 (leBytes 2 type.code)

/-! ## The setting -/

/-- `Gp_interconnect_type`. -/
inductive InterconnectType
  | tcp
  | udpifc
  deriving DecidableEq, Repr

/-- The size of the header of a packet: `PACKET_HEADER_SIZE`, or that of `struct icpkthdr`. -/
def InterconnectType.headerSize : InterconnectType → Nat
  | .tcp => 4
  | .udpifc => 64

/-- The limits of `gp_max_packet_size`. -/
def MIN_PACKET_SIZE : Nat := 512

def MAX_PACKET_SIZE : Nat := 65507

/-- The sizes in force: a packet has room for a chunk, and a chunk for data. -/
structure MotionLayer where
  type : InterconnectType
  maxPacketSize : Nat
  maxTupleChunkSize : Nat
  packet_le : maxPacketSize ≤ MAX_PACKET_SIZE
  chunk_pos : TUPLE_CHUNK_HEADER_SIZE < maxTupleChunkSize
  chunk_le : type.headerSize + maxTupleChunkSize ≤ maxPacketSize

/-- The sizes that `createMotionLayerState` sets. -/
def createMotionLayerState (type : InterconnectType) (maxPacketSize : Nat)
    (hmin : MIN_PACKET_SIZE ≤ maxPacketSize) (hmax : maxPacketSize ≤ MAX_PACKET_SIZE) :
    MotionLayer where
  type := type
  maxPacketSize := maxPacketSize
  maxTupleChunkSize := maxPacketSize - type.headerSize - TUPLE_CHUNK_HEADER_SIZE
  packet_le := hmax
  chunk_pos := by
    cases type <;> simp only [MIN_PACKET_SIZE, TUPLE_CHUNK_HEADER_SIZE, InterconnectType.headerSize]
      at * <;> omega
  chunk_le := by
    cases type <;> simp only [MIN_PACKET_SIZE, TUPLE_CHUNK_HEADER_SIZE, InterconnectType.headerSize]
      at * <;> omega

/-! ## Tuples -/

/-- The largest size that `palloc` gives. -/
def MaxAllocSize : Nat := 0x3fffffff

/-- Where the data of a minimal tuple starts: after the length and the padding. -/
def MINIMAL_TUPLE_DATA_OFFSET : Nat := 10

/-- `heap_form_minimal_tuple` without attributes: two bytes each for the number of attributes and
the flags, one for the offset of the values, and one to align. -/
def emptyTupleBody : Bytes := [0, 0, 0, 0, 24, 0]

/-- A minimal tuple of `natts` attributes, from `MINIMAL_TUPLE_DATA_OFFSET` on; it is in memory. -/
structure MinimalTuple (natts : Nat) where
  body : Bytes
  alloc : body.length + MINIMAL_TUPLE_DATA_OFFSET ≤ MaxAllocSize
  noAtts : natts = 0 → body = emptyTupleBody

/-- `SerTupInfo`: the number of attributes, and what is left in the size field of a chunk of the
cache. -/
structure SerTupInfo where
  natts : Nat
  staleSize : BitVec 16

/-! ## Serializing -/

structure TupleChunkList where
  before : List Bytes
  last : Bytes

def TupleChunkList.chunks (tcList : TupleChunkList) : List Bytes := tcList.before ++ [tcList.last]

/-- `getChunkFromCache`, with the type set and the length of the header. -/
def newChunk (info : SerTupInfo) (type : TupleChunkType) : Bytes :=
  setChunkType (leBytes 2 info.staleSize.toNat ++ leBytes 2 0) type

/-- `addByteStringToChunkList`; without an end, nothing is returned. -/
def addByteStringToChunkList (m : MotionLayer) (info : SerTupInfo) : Nat → TupleChunkList → Bytes →
    Option TupleChunkList
  | 0, _, _ => none
  | n + 1, tcList, data =>
    let curSize := tcList.last.length
    let copyLen := min (m.maxTupleChunkSize - curSize) data.length
    let tcList : TupleChunkList :=
      if 0 < copyLen then
        { tcList with
          last := setChunkDataSize (tcList.last ++ data.take copyLen)
            (curSize + copyLen - TUPLE_CHUNK_HEADER_SIZE) }
      else tcList
    let remain := data.drop copyLen
    if remain = [] then some tcList
    else addByteStringToChunkList m info n ⟨tcList.chunks, newChunk info .partialMid⟩ remain

/-- The types of the first and the last chunk, when there is more than one. -/
def setEndTypes (tcList : TupleChunkList) : List Bytes :=
  match tcList.before with
  | [] => tcList.chunks
  | first :: mids => setChunkType first .partialStart :: mids ++
    [setChunkType tcList.last .partialEnd]

/-- What `SerializeTuple` gives: bytes in the buffer, or a list of chunks. -/
inductive Serialized
  | direct (data : Bytes)
  | chunks (tcList : List Bytes)

variable (m : MotionLayer)

/-- `SerializeTuple`, with the room in the direct buffer, if there is such a buffer. -/
def serializeTuple (info : SerTupInfo) (tupbody : Bytes) (prilen : Option Nat) :
    Option Serialized :=
  let candidate := prilen.any (TUPLE_CHUNK_HEADER_SIZE < ·)
  if info.natts = 0 ∧ candidate then some (.direct (leBytes 2 0 ++ leBytes 2 empty.code))
  else
    let tupbodylen := tupbody.length
    let tuplen := tupbodylen + 4
    if candidate ∧ prilen.any (tuplen + TUPLE_CHUNK_HEADER_SIZE ≤ ·) then
      some (.direct (leBytes 2 tuplen ++ leBytes 2 whole.code ++ leBytes 4 tupbodylen ++ tupbody))
    else do
      let tcList ← addByteStringToChunkList m info 6 ⟨[], newChunk info .whole⟩
        (leBytes 4 tupbodylen)
      let tcList ← addByteStringToChunkList m info (tupbodylen + 2) tcList tupbody
      return .chunks (setEndTypes tcList)

/-! ## Packing -/

/-- The connection of the sender: the packet that is filled, and those that were sent. -/
structure SendConn where
  pBuff : Bytes
  packets : List Bytes
  deriving DecidableEq, Repr

def SendConn.msgSize (conn : SendConn) : Nat :=
  m.type.headerSize + conn.pBuff.length

/-- `SendChunkUDPIFC`, `SendChunkTCP`. -/
def sendChunk (conn : SendConn) (tcItem : Bytes) : SendConn :=
  if conn.msgSize m + tcItem.length ≤ m.maxPacketSize then
    { conn with pBuff := conn.pBuff ++ tcItem }
  else ⟨tcItem, conn.packets ++ [conn.pBuff]⟩

/-- `SendTuple`: a broadcast does not use the direct buffer. -/
def sendTuple (info : SerTupInfo) (conn : SendConn) (tupbody : Bytes)
    (broadcast : Bool) : Option SendConn :=
  let prilen := if broadcast then none else some (m.maxPacketSize - conn.msgSize m)
  match serializeTuple m info tupbody prilen with
  | none => none
  | some (.direct data) => some { conn with pBuff := conn.pBuff ++ data }
  | some (.chunks tcList) => some (tcList.foldl (sendChunk m) conn)

/-- `s_eos_chunk_data`. -/
def eosChunk : Bytes := leBytes 2 0 ++ leBytes 2 endOfStream.code

/-- `SendEosUDPIFC`, `SendEosTCP`: the buffer is flushed. -/
def sendEos (conn : SendConn) : SendConn :=
  let conn := sendChunk m conn eosChunk
  ⟨[], conn.packets ++ [conn.pBuff]⟩

/-- The tuples one after the other, and the end of the stream. -/
def sendTuples (m : MotionLayer) (info : SerTupInfo) : SendConn →
    List (MinimalTuple info.natts × Bool) → Option SendConn
  | conn, [] => some (sendEos m conn)
  | conn, (tup, broadcast) :: rest => (sendTuple m info conn tup.body broadcast).bind fun conn =>
    sendTuples m info conn rest

/-! ## Receiving -/

/-- The errors of the receiver. -/
inductive IcError
  | insufficientData
  | tooLargeForPacket
  | tooLargeForMessage
  | assertion
  | smallerThanHeader (size : Nat)
  | wholeAfterPartial
  | startAfterPartial
  | midWithoutStart
  | endWithoutStart
  | eosAfterPartial
  | eosTwice
  | unrecognizedType (tcType len : Nat)
  | singleMustBeWhole
  | lastMustBeEnd
  | middleMustBeMid
  | tupleTooLarge
  | unexpectedFirst (tcType : Nat)
  deriving DecidableEq, Repr

/-- The messages, with the route and the motion node of the sender; `assertion` is a call that must
not be made. -/
def IcError.errmsg (srcRoute motNodeID : Int) : IcError → String
  | .insufficientData => "interconnect error parsing message: insufficient data received"
  | .tooLargeForPacket => "interconnect error parsing message"
  | .tooLargeForMessage => "interconnect error parsing message"
  | .assertion => ""
  | .smallerThanHeader size => "Received tuple-chunk of size " ++ toString size ++
    "; smaller than chunk header size 4!"
  | .wholeAfterPartial => "received TC_WHOLE chunk from " ++ source ++ " after partial tuple data"
  | .startAfterPartial => "received TC_PARTIAL_START chunk from " ++ source ++
    " after partial tuple data"
  | .midWithoutStart => "received TC_PARTIAL_MID chunk from " ++ source ++
    " without any leading tuple data"
  | .endWithoutStart => "received TC_PARTIAL_END chunk from " ++ source ++
    " without any leading tuple data"
  | .eosAfterPartial => "received TC_END_OF_STREAM chunk from " ++ source ++
    " after partial tuple data"
  | .eosTwice => "received end-of-stream chunk from " ++ source ++
    " when already marked as at end-of-stream"
  | .unrecognizedType tcType len =>
    "received tuple chunk of unrecognized type " ++ toString tcType ++ " (len " ++ toString len ++
      ") from " ++ source
  | .singleMustBeWhole => "Single chunk's type must be TC_WHOLE."
  | .lastMustBeEnd => "last chunk of collection must have type TC_PARTIAL_END"
  | .middleMustBeMid => "middle chunk of collection must have type TC_PARTIAL_MID"
  | .tupleTooLarge => "chunked tuple is too large"
  | .unexpectedFirst tcType => "unexpected tuple chunk type " ++ toString tcType ++
    " at beginning of chunk list"
where
  source : String := "[src=" ++ toString srcRoute ++ ",mn=" ++ toString motNodeID ++ "]"

/-- A chunk as received: the length, with the header, and the bytes in place. -/
structure TupleChunkListItem where
  chunkLength : Nat
  data : Bytes
  deriving DecidableEq, Repr

def TupleChunkListItem.getChunkType (tcItem : TupleChunkListItem) : Nat :=
  ofLeBytes ((tcItem.data.drop 2).take 2)

/-- The bytes after the header. -/
def TupleChunkListItem.payload (tcItem : TupleChunkListItem) : Bytes :=
  (tcItem.data.drop TUPLE_CHUNK_HEADER_SIZE).take (tcItem.chunkLength - TUPLE_CHUNK_HEADER_SIZE)

/-- The loop of `RecvTupleChunk`. -/
def recvTupleChunks (m : MotionLayer) (packet : Bytes) : Nat → Nat →
    Except IcError (List TupleChunkListItem)
  | 0, _ => .error .assertion
  | n + 1, bytesProcessed =>
    let msgSize := m.type.headerSize + packet.length
    if bytesProcessed = msgSize then .ok []
    else if msgSize < bytesProcessed + TUPLE_CHUNK_HEADER_SIZE then .error .insufficientData
    else
      let inplace := packet.drop (bytesProcessed - m.type.headerSize)
      let tcSize := TUPLE_CHUNK_HEADER_SIZE + ofLeBytes (inplace.take 2)
      if m.maxPacketSize < tcSize then .error .tooLargeForPacket
      else if msgSize ≤ tcSize then .error .tooLargeForMessage
      else do
        let rest ← recvTupleChunks m packet n (bytesProcessed + tcSize)
        return ⟨tcSize, inplace.take tcSize⟩ :: rest

/-- `RecvTupleChunk`: the chunks of a packet. -/
def recvTupleChunk (m : MotionLayer) (packet : Bytes) : Except IcError (List TupleChunkListItem) :=
  recvTupleChunks m packet (packet.length + 1) m.type.headerSize

/-- The checks of the chunks after the first one, and the total length. -/
def checkChunkTypes : Nat → List TupleChunkListItem → Except IcError Nat
  | totalLen, [] => .ok totalLen
  | totalLen, tcItem :: rest =>
    let thisLen := tcItem.chunkLength - TUPLE_CHUNK_HEADER_SIZE
    if rest = [] ∧ tcItem.getChunkType ≠ partialEnd.code then .error .lastMustBeEnd
    else if rest ≠ [] ∧ tcItem.getChunkType ≠ partialMid.code then .error .middleMustBeMid
    else if MaxAllocSize < thisLen ∨ MaxAllocSize < totalLen + thisLen then .error .tupleTooLarge
    else checkChunkTypes (totalLen + thisLen) rest

/-- `RECORD_CACHE_MAGIC_TUPLEN`, as an unsigned number. -/
def RECORD_CACHE_MAGIC_TUPLEN : Nat := 2 ^ 32 - 1

/-- The tuple of the reassembled data; there is none when the data is the record cache. -/
def deserialize (serData : Bytes) : Option Bytes :=
  let tupbodylen := ofLeBytes (serData.take 4)
  if tupbodylen = RECORD_CACHE_MAGIC_TUPLEN then none else some ((serData.drop 4).take tupbodylen)

def cvtChunksToTup (tcList : List TupleChunkListItem) : Except IcError (Option Bytes) :=
  match tcList with
  | [] => .error .assertion
  | first :: rest =>
    match ofCode first.getChunkType with
    | some .whole => if rest =
      [] then .ok (deserialize first.payload) else .error .singleMustBeWhole
    | some .empty => .ok (some emptyTupleBody)
    | some .partialStart => do
      let _ ← checkChunkTypes (first.chunkLength - TUPLE_CHUNK_HEADER_SIZE) rest
      return deserialize ((first :: rest).flatMap TupleChunkListItem.payload)
    | _ => .error (.unexpectedFirst first.getChunkType)

/-- The state of the receiver for one sender, and the counters of the motion node. -/
structure ChunkSorter where
  chunkList : List TupleChunkListItem
  readyTuples : List Bytes
  endOfStream : Bool
  numStreamEndsRecvd : Nat
  moreNetWork : Bool
  deriving DecidableEq, Repr

/-- Before the first packet. -/
def ChunkSorter.init : ChunkSorter := ⟨[], [], false, 0, true⟩

def reconstructTuple (s : ChunkSorter) : Except IcError ChunkSorter := do
  let tup ← cvtChunksToTup s.chunkList
  return { s with chunkList := [], readyTuples := s.readyTuples ++ tup.toList }

def addChunkToSorter (numSenders : Nat) (s : ChunkSorter) (tcItem : TupleChunkListItem) :
    Except IcError ChunkSorter :=
  match ofCode tcItem.getChunkType with
  | some .whole | some .empty =>
    if s.chunkList ≠ [] then .error .wholeAfterPartial
    else reconstructTuple { s with chunkList := s.chunkList ++ [tcItem] }
  | some .partialStart =>
    if s.chunkList ≠ [] then .error .startAfterPartial else .ok { s with
      chunkList := s.chunkList ++ [tcItem] }
  | some .partialMid =>
    if s.chunkList = [] then .error .midWithoutStart else .ok { s with
      chunkList := s.chunkList ++ [tcItem] }
  | some .partialEnd =>
    if s.chunkList = [] then .error .endWithoutStart
    else reconstructTuple { s with chunkList := s.chunkList ++ [tcItem] }
  | some .endOfStream =>
    if s.chunkList ≠ [] then .error .eosAfterPartial
    else if s.endOfStream then .error .eosTwice
    else
      .ok { s with
        endOfStream := true
        numStreamEndsRecvd := s.numStreamEndsRecvd + 1
        moreNetWork := if s.numStreamEndsRecvd + 1 = numSenders then false else s.moreNetWork }
  | none => .error (.unrecognizedType tcItem.getChunkType tcItem.chunkLength)

/-- The loop of `processIncomingChunks`. -/
def processChunks (numSenders : Nat) : ChunkSorter → List TupleChunkListItem →
    Except IcError ChunkSorter
  | s, [] => .ok s
  | s, tcItem :: rest =>
    if tcItem.chunkLength < TUPLE_CHUNK_HEADER_SIZE then
      .error (.smallerThanHeader tcItem.chunkLength)
    else (addChunkToSorter numSenders s tcItem).bind fun s => processChunks numSenders s rest

def receivePackets (m : MotionLayer) (numSenders : Nat) : ChunkSorter → List Bytes →
    Except IcError ChunkSorter
  | s, [] => .ok s
  | s, packet :: rest => do
    let tcItems ← recvTupleChunk m packet
    let s ← processChunks numSenders s tcItems
    receivePackets m numSenders s rest

end PolemoDB.Motion
