import PolemoDB.Lib.Loop
import PolemoDB.Motion.TupSer

/-!
# Tuples come through

What a motion node sends is a sequence of chunks (`Chunk`), however the chunks are packed.  The
chunks of a tuple carry its length and its bytes (`Carries`), and the receiver makes the tuple of
them.

* `serializeTuple_ok`, `sendTuple_ok` — the sender: a tuple adds the chunks that carry it;
* `tuple_transport` — all together.
-/

namespace PolemoDB.Motion

open PolemoDB.Lib List TupleChunkType Nat

/-! ## Chunks as bytes -/

/-- A chunk, apart from its place in memory. -/
structure Chunk where
  type : TupleChunkType
  payload : Bytes

open Chunk

def rawChunk (size : Nat) (type : TupleChunkType) (payload : Bytes) : Bytes := leBytes 2 size ++
    (leBytes 2 type.code ++ payload)

def Chunk.encode (c : Chunk) : Bytes := rawChunk c.payload.length c.type c.payload

theorem rawChunk_length (size : Nat) (type : TupleChunkType) (payload : Bytes) :
    (rawChunk size type payload).length = payload.length + 4 := by
  unfold rawChunk
  rw [length_append, length_append, leBytes_length, leBytes_length]
  omega

theorem Chunk.encode_length (c : Chunk) : c.encode.length = c.payload.length + 4 :=
  rawChunk_length _ _ _

theorem rawChunk_append (size : Nat) (type : TupleChunkType) (payload data : Bytes) :
    rawChunk size type payload ++ data = rawChunk size type (payload ++ data) := by
  unfold rawChunk
  rw [append_assoc, append_assoc]

theorem setChunkDataSize_rawChunk (size size' : Nat) (type : TupleChunkType) (payload : Bytes) :
    setChunkDataSize (rawChunk size type payload) size' = rawChunk size' type payload := by
  unfold setChunkDataSize rawChunk
  rw [memcpyAt_zero, leBytes_length, drop_left' (leBytes_length 2 size)]

theorem setChunkType_rawChunk (size : Nat) (type type' : TupleChunkType) (payload : Bytes) :
    setChunkType (rawChunk size type payload) type' = rawChunk size type' payload := by
  unfold setChunkType memcpyAt rawChunk
  rw [take_left' (leBytes_length 2 size), leBytes_length, ← drop_drop,
    drop_left' (leBytes_length 2 size), drop_left' (leBytes_length 2 type.code), append_assoc]

theorem newChunk_eq (info : SerTupInfo) (type : TupleChunkType) :
    newChunk info type = rawChunk info.staleSize.toNat type [] :=
  setChunkType_rawChunk info.staleSize.toNat .whole type []

theorem setChunkType_encode (c : Chunk) (type : TupleChunkType) :
    setChunkType c.encode type = encode ⟨type, c.payload⟩ :=
  setChunkType_rawChunk _ _ _ _

/-! ## The chunks of a tuple -/

inductive Carries (natts : Nat) (body : Bytes) : List Chunk → Prop
  | empty (hnatts : natts = 0) (hbody : body = emptyTupleBody) : Carries natts body [⟨.empty, []⟩]
  | whole : Carries natts body [⟨.whole, leBytes 4 body.length ++ body⟩]
  | parts (p q : Bytes) (mids : List Chunk) (hmids : ∀ c ∈ mids, c.type = .partialMid)
      (hdata : p ++ mids.flatMap payload ++ q = leBytes 4 body.length ++ body) :
      Carries natts body (⟨.partialStart, p⟩ :: mids ++ [⟨.partialEnd, q⟩])

/-! ## Filling chunks -/

section Fill

variable {m : MotionLayer} {info : SerTupInfo}

/-- The chunk is not longer than chunks can be. -/
def Chunk.Small (m : MotionLayer) (c : Chunk) : Prop :=
  c.payload.length + TUPLE_CHUNK_HEADER_SIZE ≤ m.maxTupleChunkSize

/-- A list of chunks that is being filled: the type of the first, and middle ones. -/
structure Filled (m : MotionLayer) (type : TupleChunkType) (data : Bytes) (cs : List Chunk)
    (c : Chunk) : Prop where
  types : (cs ++ [c]).map Chunk.type = type :: List.replicate cs.length .partialMid
  data : (cs ++ [c]).flatMap payload = data
  small : ∀ x ∈ cs ++ [c], x.Small m

/-- `addByteStringToChunkList` ends, and puts all of the data into chunks. -/
theorem addByteStringToChunkList_ok (n : Nat) :
    ∀ (before : List Bytes) (size : Nat) (type : TupleChunkType) (p data : Bytes),
    p.length + TUPLE_CHUNK_HEADER_SIZE ≤ m.maxTupleChunkSize →
    (p ≠ [] ∨ data = [] → size = p.length) →
    (data.length + 2 ≤ n ∨ data.length + 1 ≤ n ∧
    p.length + TUPLE_CHUNK_HEADER_SIZE < m.maxTupleChunkSize) →
    ∃ cs c, addByteStringToChunkList m info n ⟨before, rawChunk size type p⟩ data =
      some ⟨before ++ cs.map Chunk.encode, c.encode⟩ ∧ Filled m type (p ++ data) cs c := by
  have hheader : TUPLE_CHUNK_HEADER_SIZE = 4 := rfl
  have hroom := m.chunk_pos
  induction n with
  | zero => omega
  | succ n ih =>
    intro before size type p data hp hsize hfuel
    rw [addByteStringToChunkList]
    rw [rawChunk_length]
    generalize hcopy : min (m.maxTupleChunkSize - (p.length + 4)) data.length = copyLen
    have htake : (data.take copyLen).length = copyLen := by
      rw [length_take]
      omega
    -- the last chunk, with what it takes
    have hlast : (if 0 < copyLen then
          ({ before := before, last := setChunkDataSize (rawChunk size type p ++ data.take copyLen)
              (p.length + 4 + copyLen - TUPLE_CHUNK_HEADER_SIZE) } : TupleChunkList)
        else ⟨before, rawChunk size type p⟩) =
        ⟨before, rawChunk (if 0 < copyLen then p.length + copyLen else size) type
          (p ++ data.take copyLen)⟩ := by
      by_cases hpos : 0 < copyLen
      · rw [if_pos hpos, if_pos hpos, rawChunk_append, setChunkDataSize_rawChunk, hheader,
          show p.length + 4 + copyLen - 4 = p.length + copyLen by omega]
      · rw [if_neg hpos, if_neg hpos, Nat.eq_zero_of_not_pos hpos, take_zero, append_nil]
    rw [hlast]
    have hsmall : (p ++ data.take copyLen).length + TUPLE_CHUNK_HEADER_SIZE ≤
        m.maxTupleChunkSize := by
      rw [length_append, htake]
      omega
    have hclosed : (if 0 < copyLen then p.length + copyLen else size) =
        (p ++ data.take copyLen).length := by
      rw [length_append, htake]
      split
      · rfl
      next hno =>
        -- there is no data, or no room behind other data
        have hor : p ≠ [] ∨ data = [] := by
          by_contra hboth
          obtain ⟨hp', hd⟩ := not_or.mp hboth
          have := length_pos_iff.mpr hd
          rw [not_not.mp hp', length_nil] at hcopy
          omega
        rw [hsize hor]
        omega
    rw [hclosed]
    split
    · -- all of it
      rename_i hnil
      have hall : data.take copyLen = data := by
        rw [← append_nil (data.take copyLen), ← hnil, take_append_drop]
      refine ⟨[], ⟨type, p ++ data⟩, ?_, rfl, ?_, forall_mem_singleton.mpr (hall ▸ hsmall)⟩
      · rw [hall, map_nil, append_nil]
        rfl
      · rw [nil_append, flatMap_singleton]
    · -- the rest goes into another chunk
      rename_i hrest
      have hlong : copyLen < data.length := by
        by_contra hno
        exact hrest (drop_eq_nil_of_le (Nat.le_of_not_lt hno))
      have hlen : (data.drop copyLen).length = data.length - copyLen := length_drop
      rw [newChunk_eq]
      obtain ⟨cs, c, hrun, hfilled⟩ := ih
        (TupleChunkList.chunks
        ⟨before, rawChunk (p ++ data.take copyLen).length type (p ++ data.take copyLen)⟩)
        info.staleSize.toNat .partialMid [] (data.drop copyLen) (by rw [length_nil]; omega)
        (fun h => absurd (h.resolve_left fun h => h rfl) hrest)
        (.inr ⟨by omega, by rw [length_nil]; omega⟩)
      refine ⟨⟨type, p ++ data.take copyLen⟩ :: cs, c, ?_, ?_, ?_,
        forall_mem_cons.mpr ⟨hsmall, hfilled.small⟩⟩
      · rw [hrun, TupleChunkList.chunks, map_cons, append_assoc, singleton_append]
        rfl
      · rw [cons_append, map_cons, hfilled.types, length_cons, replicate_succ]
      · rw [cons_append, flatMap_cons, hfilled.data, nil_append, append_assoc, take_append_drop]

theorem Filled.append {type : TupleChunkType} {data data' : Bytes} {cs cs' : List Chunk}
    {c c' : Chunk} (h : Filled m type data cs c)
    (h' : Filled m c.type (c.payload ++ data') cs' c') :
    Filled m type (data ++ data') (cs ++ cs') c' := by
  refine ⟨?_, ?_, ?_⟩
  · rw [append_assoc, map_append, h'.types, length_append, ← replicate_append_replicate,
      ← cons_append, ← h.types, map_append, append_assoc]
    rfl
  · rw [append_assoc, flatMap_append, h'.data, ← h.data, flatMap_append, flatMap_singleton,
      append_assoc]
  · rw [append_assoc]
    exact forall_mem_append.mpr ⟨(forall_mem_append.mp h.small).1, h'.small⟩

theorem Filled.setEndTypes (natts : Nat) {body : Bytes} {cs : List Chunk} {c : Chunk}
    (h : Filled m .whole (leBytes 4 body.length ++ body) cs c) :
    ∃ xs, setEndTypes ⟨cs.map Chunk.encode, c.encode⟩ = xs.map Chunk.encode ∧
      Carries natts body xs ∧ ∀ x ∈ xs, x.Small m := by
  have htypes := h.types
  have hdata := h.data
  have hsmall := h.small
  obtain ⟨type, q⟩ := c
  cases cs with
  | nil =>
    rw [nil_append, flatMap_singleton] at hdata
    obtain rfl : type = .whole := (cons.inj htypes).1
    refine ⟨[⟨.whole, q⟩], rfl, ?_, hsmall⟩
    rw [show q = leBytes 4 body.length ++ body from hdata]
    exact .whole
  | cons first mids =>
    rw [cons_append, map_cons, map_append, length_cons, replicate_succ'] at htypes
    obtain ⟨hmids, -⟩ := append_inj (cons.inj htypes).2 (by rw [length_map, length_replicate])
    rw [cons_append, flatMap_cons, flatMap_append, flatMap_singleton, ← append_assoc] at hdata
    refine ⟨⟨.partialStart, first.payload⟩ :: mids ++ [⟨.partialEnd, q⟩], ?_,
      .parts _ _ mids (fun x hx => ?_) hdata, ?_⟩
    · rw [Motion.setEndTypes, map_cons]
      dsimp only
      rw [setChunkType_encode, setChunkType_encode, cons_append, cons_append, map_cons, map_append,
        map_singleton]
    · have hx' : x.type ∈ replicate mids.length partialMid := hmids ▸ mem_map_of_mem hx
      exact eq_of_mem_replicate hx'
    -- a chunk keeps its length
    obtain ⟨hfirst, hrest⟩ := forall_mem_cons.mp hsmall
    obtain ⟨hmid, hlast⟩ := forall_mem_append.mp hrest
    rw [forall_mem_singleton] at hlast
    exact forall_mem_cons.mpr ⟨hfirst, forall_mem_append.mpr
      ⟨hmid, forall_mem_singleton.mpr hlast⟩⟩

/-- What `SerializeTuple` gives: chunks that carry the tuple, in the buffer or in a list. -/
theorem serializeTuple_ok (tup : MinimalTuple info.natts) (prilen : Option Nat) :
    ∃ cs, Carries info.natts tup.body cs ∧
        ((∃ len, prilen = some len ∧
        serializeTuple m info tup.body prilen = some (.direct (cs.flatMap encode)) ∧
        (cs.flatMap encode).length ≤ len) ∨
      serializeTuple m info tup.body prilen = some (.chunks (cs.map encode)) ∧
        ∀ c ∈ cs, c.Small m) := by
  have hpos := m.chunk_pos
  have hheader : TUPLE_CHUNK_HEADER_SIZE = 4 := rfl
  unfold serializeTuple
  dsimp only
  split
  · -- no attributes
    rename_i hcond
    obtain ⟨hnatts, hcand⟩ := hcond
    obtain ⟨len, rfl, hlen⟩ := (Option.any_eq_true _ _).mp hcand
    refine ⟨[⟨.empty, []⟩], .empty hnatts (tup.noAtts hnatts), .inl ⟨len, rfl, rfl, ?_⟩⟩
    exact le_of_lt (of_decide_eq_true hlen)
  split
  · -- it fits
    rename_i hcond
    obtain ⟨len, rfl, hlen⟩ := (Option.any_eq_true _ _).mp hcond.2
    have hlen' := of_decide_eq_true hlen
    refine ⟨_, .whole, .inl ⟨len, rfl, ?_, ?_⟩⟩
    · rw [flatMap_singleton, encode, rawChunk, length_append, leBytes_length, append_assoc,
        append_assoc, add_comm 4]
    · rw [flatMap_singleton, encode_length, length_append, leBytes_length]
      omega
  · -- a list of chunks
    rw [newChunk_eq]
    obtain ⟨cs₁, c₁, hrun₁, hfilled₁⟩ :=
      @addByteStringToChunkList_ok m info 6 [] info.staleSize.toNat .whole []
      (leBytes 4 tup.body.length) (by rw [length_nil]; omega)
      (fun h => (nomatch h.resolve_left fun h => h rfl)) (.inl (by rw [leBytes_length]))
    obtain ⟨cs₂, c₂, hrun₂, hfilled₂⟩ := @addByteStringToChunkList_ok m info (tup.body.length + 2)
      (cs₁.map encode) c₁.payload.length c₁.type c₁.payload tup.body
      (hfilled₁.small c₁ (mem_append_right _ (mem_singleton_self _))) (fun _ => rfl) (.inl le_rfl)
    have hfilled := hfilled₁.append hfilled₂
    obtain ⟨xs, hends, hcarries, hsmall⟩ := hfilled.setEndTypes info.natts
    refine ⟨xs, hcarries, .inr ⟨?_, hsmall⟩⟩
    rw [hrun₁, nil_append]
    dsimp only [bind, Option.bind]
    rw [show c₁.encode = rawChunk c₁.payload.length c₁.type c₁.payload from rfl, hrun₂]
    dsimp only
    rw [← map_append, hends]
    rfl

end Fill

/-! ## Packing -/

section Pack

variable {m : MotionLayer} {info : SerTupInfo} {conn conn' : SendConn} {cs ds : List Chunk}

/-- Chunks that are as a packet. -/
def Fits (m : MotionLayer) (cs : List Chunk) : Prop :=
  m.type.headerSize + (cs.flatMap encode).length ≤ m.maxPacketSize

/-- The chunks that were sent, packet by packet, and those in the buffer. -/
def Packs (m : MotionLayer) (conn : SendConn) (cs : List Chunk) : Prop :=
  ∃ (groups : List (List Chunk)) (cur : List Chunk), cs = groups.flatten ++ cur ∧
    conn.packets = groups.map (List.flatMap encode) ∧ conn.pBuff = cur.flatMap encode ∧
    (∀ g ∈ groups, Fits m g) ∧ Fits m cur

theorem Packs.init (m : MotionLayer) : Packs m ⟨[], []⟩ [] := by
  refine ⟨[], [], rfl, rfl, rfl, fun g hg => absurd hg not_mem_nil, ?_⟩
  have hle := m.chunk_le
  unfold Fits
  rw [flatMap_nil, length_nil]
  omega

theorem Packs.direct (h : Packs m conn cs) (ds : List Chunk)
    (hroom : conn.msgSize m + (ds.flatMap encode).length ≤ m.maxPacketSize) :
    Packs m { conn with pBuff := conn.pBuff ++ ds.flatMap encode } (cs ++ ds) := by
  obtain ⟨groups, cur, rfl, hpackets, hbuff, hgroups, -⟩ := h
  refine ⟨groups, cur ++ ds, by rw [append_assoc], hpackets, ?_, hgroups, ?_⟩
  · rw [flatMap_append, ← hbuff]
  unfold SendConn.msgSize at hroom
  unfold Fits
  rw [flatMap_append, length_append, ← hbuff]
  omega

theorem Packs.flush (h : Packs m conn cs) (hds : Fits m ds) :
    Packs m ⟨ds.flatMap encode, conn.packets ++ [conn.pBuff]⟩ (cs ++ ds) := by
  obtain ⟨groups, cur, rfl, hpackets, hbuff, hgroups, hcur⟩ := h
  refine ⟨groups ++ [cur], ds, ?_, ?_, rfl,
    forall_mem_append.mpr ⟨hgroups, forall_mem_singleton.mpr hcur⟩, hds⟩
  · rw [flatten_append, flatten_singleton]
  · rw [map_append, map_singleton, hpackets, hbuff]

theorem Packs.sendChunk (h : Packs m conn cs) {c : Chunk} (hsmall : c.Small m) :
    Packs m (sendChunk m conn c.encode) (cs ++ [c]) := by
  have hencode : [c].flatMap encode = c.encode := flatMap_singleton _ _
  unfold Motion.sendChunk
  split
  next hroom => exact hencode ▸ h.direct [c] (hencode.symm ▸ hroom)
  · have hle := m.chunk_le
    have hlen := c.encode_length
    have hfits : Fits m [c] := by
      unfold Fits
      rw [hencode, hlen]
      exact (Nat.add_le_add_left hsmall _).trans hle
    have hpacks := h.flush hfits
    rw [hencode] at hpacks
    exact hpacks

theorem Packs.sendChunks (ds : List Chunk) {conn : SendConn} {cs : List Chunk} (h : Packs m conn cs)
    (hsmall : ∀ c ∈ ds, c.Small m) :
    Packs m ((ds.map encode).foldl (Motion.sendChunk m) conn) (cs ++ ds) := by
  induction ds generalizing conn cs with
  | nil =>
    rw [append_nil]
    exact h
  | cons d ds ih =>
    have hd := h.sendChunk (hsmall d mem_cons_self)
    have hrest := ih hd fun c hc => hsmall c (mem_cons_of_mem _ hc)
    rw [append_assoc, singleton_append] at hrest
    exact hrest

theorem Packs.sendTuple (h : Packs m conn cs) (tup : MinimalTuple info.natts) (broadcast : Bool) :
    ∃ conn' ds, sendTuple m info conn tup.body broadcast = some conn' ∧
    Carries info.natts tup.body ds ∧ Packs m conn' (cs ++ ds) := by
  unfold Motion.sendTuple
  dsimp only
  obtain ⟨ds, hcarries, ⟨len, hlen, hrun, hle⟩ | ⟨hrun, hsmall⟩⟩ :=
    serializeTuple_ok (m := m) tup
    (if broadcast then none else some (m.maxPacketSize - conn.msgSize m))
  · rw [hrun]
    refine ⟨_, ds, rfl, hcarries, h.direct ds ?_⟩
    have hmsg : conn.msgSize m ≤ m.maxPacketSize := by
      obtain ⟨groups, cur, -, -, hbuff, -, hcur⟩ := h
      unfold SendConn.msgSize
      rw [hbuff]
      exact hcur
    split at hlen
    · cases hlen
    · have hlen' := Option.some.inj hlen
      omega
  · rw [hrun]
    exact ⟨_, ds, rfl, hcarries, h.sendChunks ds hsmall⟩

theorem Packs.sendEos (h : Packs m conn cs) : ∃ groups : List (List Chunk), groups.flatten = cs ++
    [⟨.endOfStream, []⟩] ∧ (sendEos m conn).packets = groups.map (List.flatMap encode) ∧
    ∀ g ∈ groups, Fits m g := by
  have hpos := m.chunk_pos
  obtain ⟨groups, cur, hcs, hpackets, hbuff, hgroups, hcur⟩ := h.sendChunk (c := ⟨.endOfStream, []⟩)
    hpos.le
  refine ⟨groups ++ [cur], ?_, ?_,
    forall_mem_append.mpr ⟨hgroups, forall_mem_singleton.mpr hcur⟩⟩
  · rw [flatten_append, flatten_singleton, ← hcs]
  · show (Motion.sendChunk m conn (encode ⟨.endOfStream, []⟩)).packets ++
        [(Motion.sendChunk m conn (encode ⟨.endOfStream, []⟩)).pBuff] = _
    rw [map_append, map_singleton, hpackets, hbuff]

/-- The chunks of a sequence of tuples. -/
inductive CarriesAll (natts : Nat) : List Bytes → List Chunk → Prop
  | nil : CarriesAll natts [] []
  | cons {body : Bytes} {bodies : List Bytes} {cs ds : List Chunk} (hbody : Carries natts body cs)
      (hrest : CarriesAll natts bodies ds) : CarriesAll natts (body :: bodies) (cs ++ ds)

/-- **The sender**: the packets have the chunks that carry the tuples, and the end of the stream. -/
theorem sendTuples_ok (tuples : List (MinimalTuple info.natts × Bool)) {conn : SendConn}
    {cs : List Chunk} (h : Packs m conn cs) :
    ∃ (conn' : SendConn) (ds : List Chunk) (groups : List (List Chunk)),
      sendTuples m info conn tuples = some conn' ∧
      CarriesAll info.natts (tuples.map fun t => t.1.body) ds ∧
      groups.flatten = cs ++ ds ++ [⟨.endOfStream, []⟩] ∧
      conn'.packets = groups.map (List.flatMap encode) ∧ ∀ g ∈ groups, Fits m g := by
  induction tuples generalizing conn cs with
  | nil =>
    obtain ⟨groups, hflat, hpackets, hfits⟩ := h.sendEos
    exact ⟨_, [], groups, rfl, .nil, by rw [append_nil, hflat], hpackets, hfits⟩
  | cons tuple rest ih =>
    obtain ⟨tup, broadcast⟩ := tuple
    obtain ⟨conn₁, ds, hrun, hcarries, hpacks⟩ := h.sendTuple tup broadcast
    obtain ⟨conn', ds', groups, hrest, hall, hflat, hpackets, hfits⟩ := ih hpacks
    refine ⟨conn', ds ++ ds', groups, ?_, .cons hcarries hall, ?_, hpackets, hfits⟩
    · rw [sendTuples, hrun]
      exact hrest
    · rw [hflat, append_assoc cs]

end Pack

/-! ## Cutting packets -/

/-- A chunk as it is received. -/
def Chunk.item (c : Chunk) : TupleChunkListItem := ⟨c.encode.length, c.encode⟩

theorem TupleChunkType.ofCode_code (type : TupleChunkType) : ofCode type.code = some type := by
  cases type <;> rfl

theorem Chunk.getChunkType_item (c : Chunk) : c.item.getChunkType = c.type.code := by
  unfold TupleChunkListItem.getChunkType item encode rawChunk
  rw [drop_left' (leBytes_length 2 _), take_left' (leBytes_length 2 _),
    ofLeBytes_leBytes_of_lt (by cases c.type <;> decide)]

theorem Chunk.item_dataSize (c : Chunk) :
    c.item.chunkLength - TUPLE_CHUNK_HEADER_SIZE = c.payload.length := by
  show c.encode.length - 4 = c.payload.length
  rw [c.encode_length, Nat.add_sub_cancel]

theorem Chunk.payload_item (c : Chunk) : c.item.payload = c.payload := by
  have hlen := c.encode_length
  unfold TupleChunkListItem.payload item
  rw [hlen, TUPLE_CHUNK_HEADER_SIZE, Nat.add_sub_cancel, show (4 : Nat) = 2 + 2 from rfl,
    ← drop_drop, encode, rawChunk, drop_left' (leBytes_length 2 _), drop_left' (leBytes_length 2 _),
    take_length]

theorem Chunk.dataSize (c : Chunk) (rest : Bytes) (hsize : c.payload.length < 2 ^ 16) :
    ofLeBytes ((c.encode ++ rest).take 2) = c.payload.length := by
  unfold encode rawChunk
  rw [append_assoc, take_left' (leBytes_length 2 _), ofLeBytes_leBytes_of_lt hsize]

theorem recvTupleChunks_encode (m : MotionLayer) (cs : List Chunk) (n : Nat) (pre : Bytes)
    (hn : cs.length < n)
    (hfits : m.type.headerSize + (pre ++ cs.flatMap encode).length ≤ m.maxPacketSize) :
    recvTupleChunks m (pre ++ cs.flatMap encode) n (m.type.headerSize + pre.length) =
      .ok (cs.map item) := by
  have hheader : 0 < m.type.headerSize := by cases m.type <;> decide
  have hmax : m.maxPacketSize ≤ 65507 := m.packet_le
  have hchunk : TUPLE_CHUNK_HEADER_SIZE = 4 := rfl
  induction cs generalizing n pre with
  | nil =>
    obtain ⟨n, rfl⟩ := exists_eq_succ_of_ne_zero (ne_of_gt hn)
    rw [recvTupleChunks, flatMap_nil, append_nil]
    exact if_pos rfl
  | cons c cs ih =>
    obtain ⟨n, rfl⟩ := exists_eq_succ_of_ne_zero (ne_zero_of_lt hn)
    have hlen := c.encode_length
    have hpacket : pre ++ (c :: cs).flatMap encode = pre ++ c.encode ++ cs.flatMap encode := by
      rw [flatMap_cons, append_assoc]
    rw [hpacket] at hfits ⊢
    have hrest := ih n (pre ++ c.encode) (lt_of_succ_lt_succ hn) hfits
    have hsize := hfits
    rw [length_append, length_append] at hsize
    have hinplace : (pre ++ c.encode ++ cs.flatMap encode).drop
        (m.type.headerSize + pre.length - m.type.headerSize) = c.encode ++ cs.flatMap encode := by
      rw [Nat.add_sub_cancel_left, append_assoc, drop_left]
    have htcSize : TUPLE_CHUNK_HEADER_SIZE + c.payload.length = c.encode.length := by omega
    rw [recvTupleChunks]
    dsimp only
    rw [hinplace, c.dataSize _ (by omega), htcSize, length_append, length_append, if_neg (by omega),
      if_neg (by omega), if_neg (by omega), if_neg (by omega), add_assoc, ← length_append, hrest,
      take_left, ok_bind]
    rfl

theorem recvTupleChunk_encode {m : MotionLayer} {cs : List Chunk} (hfits : Fits m cs) :
    recvTupleChunk m (cs.flatMap encode) = .ok (cs.map item) := by
  refine recvTupleChunks_encode m cs _ [] (lt_succ_of_le ?_) hfits
  induction cs with
  | nil => exact zero_le _
  | cons c cs ih =>
    have hlen := c.encode_length
    unfold Fits at hfits ih
    rw [flatMap_cons, length_append] at hfits
    rw [flatMap_cons, length_append, length_cons]
    omega

/-! ## Putting tuples together -/

section Reassemble

variable {numSenders : Nat} {s : ChunkSorter}

variable {body tup : Bytes} {natts : Nat} {cs : List Chunk}

theorem deserialize_body (halloc : body.length + MINIMAL_TUPLE_DATA_OFFSET ≤ MaxAllocSize) :
    deserialize (leBytes 4 body.length ++ body) = some body := by
  unfold MINIMAL_TUPLE_DATA_OFFSET MaxAllocSize at halloc
  unfold deserialize RECORD_CACHE_MAGIC_TUPLEN
  rw [take_left' (leBytes_length 4 _), ofLeBytes_leBytes_of_lt (by omega), if_neg (by omega),
    drop_left' (leBytes_length 4 _), take_length]

theorem checkChunkTypes_ok (q : Bytes) (mids : List Chunk) (totalLen : Nat)
    (hmids : ∀ c ∈ mids, c.type = .partialMid)
    (hle : totalLen + (mids.flatMap payload).length + q.length ≤ MaxAllocSize) :
    ∃ total, checkChunkTypes totalLen ((mids ++ [(⟨.partialEnd, q⟩ : Chunk)]).map item) =
      .ok total := by
  induction mids generalizing totalLen with
  | nil =>
    rw [nil_append, map_singleton, checkChunkTypes, getChunkType_item, item_dataSize,
      if_neg (fun h => h.2 rfl), if_neg (fun h => h.1 rfl), if_neg (by dsimp only; omega)]
    exact ⟨_, rfl⟩
  | cons c mids ih =>
    rw [flatMap_cons, length_append] at hle
    obtain ⟨total, htotal⟩ :=
      ih (totalLen + c.payload.length) (fun x hx => hmids x (mem_cons_of_mem _ hx)) (by omega)
    refine ⟨total, ?_⟩
    have hrest : (mids ++ [(⟨.partialEnd, q⟩ : Chunk)]).map item ≠ [] := by
      rw [map_append]
      exact append_ne_nil_of_right_ne_nil _ (cons_ne_nil _ _)
    rw [cons_append, map_cons, checkChunkTypes, getChunkType_item, item_dataSize,
      hmids c mem_cons_self, if_neg (fun h => hrest h.1), if_neg (fun h => h.2 rfl),
      if_neg (by omega)]
    exact htotal

theorem processChunks_append (xs ys : List TupleChunkListItem) (s : ChunkSorter) :
    processChunks numSenders s (xs ++ ys) = (processChunks numSenders s xs).bind fun s =>
      processChunks numSenders s ys := by
  induction xs generalizing s with
  | nil => rfl
  | cons x xs ih =>
    rw [cons_append, processChunks, processChunks]
    split
    · rfl
    · cases addChunkToSorter numSenders s x with
      | error e => rfl
      | ok s' => exact ih s'

theorem processChunks_singleton (c : Chunk) (s : ChunkSorter) :
    processChunks numSenders s [c.item] = addChunkToSorter numSenders s c.item := by
  have hlen := c.encode_length
  rw [processChunks, if_neg (by show ¬c.encode.length < 4; omega)]
  cases addChunkToSorter numSenders s c.item with
  | error e | ok s' => rfl

theorem processChunks_mids (mids : List Chunk) (s : ChunkSorter)
    (hmids : ∀ c ∈ mids, c.type = .partialMid) (hne : s.chunkList ≠ []) :
    processChunks numSenders s (mids.map item) =
      .ok { s with chunkList := s.chunkList ++ mids.map item } := by
  induction mids generalizing s with
  | nil =>
    rw [map_nil, append_nil]
    rfl
  | cons c mids ih =>
    have hc : addChunkToSorter numSenders s c.item =
        .ok { s with chunkList := s.chunkList ++ [c.item] } := by
      unfold addChunkToSorter
      rw [c.getChunkType_item, hmids c mem_cons_self, ofCode_code]
      rw [if_neg hne]
    rw [map_cons, ← singleton_append, processChunks_append, processChunks_singleton, hc]
    show processChunks numSenders { s with chunkList := s.chunkList ++ [c.item] } (mids.map item) =
      _
    rw [ih _ (fun x hx => hmids x (mem_cons_of_mem _ hx)) (append_ne_nil_of_left_ne_nil hne _)]
    rw [append_assoc]

theorem reconstructTuple_ok (h : cvtChunksToTup s.chunkList = .ok (some tup)) :
    reconstructTuple s = .ok { s with chunkList := [], readyTuples := s.readyTuples ++ [tup] } := by
  unfold reconstructTuple
  rw [h, ok_bind]
  rfl

theorem addChunkToSorter_single {c : Chunk} (htype : c.type = .whole ∨ c.type = .empty)
    (hcvt : cvtChunksToTup [c.item] = .ok (some tup)) (hclean : s.chunkList = []) :
    addChunkToSorter numSenders s c.item =
    .ok { s with readyTuples := s.readyTuples ++ [tup] } := by
  obtain ⟨chunkList, readyTuples, endOfStream, ends, more⟩ := s
  obtain rfl : chunkList = [] := hclean
  unfold addChunkToSorter
  rw [c.getChunkType_item, ofCode_code]
  rcases htype with htype | htype
  · rw [htype]
    exact reconstructTuple_ok hcvt
  · rw [htype]
    exact reconstructTuple_ok hcvt

theorem cvtChunksToTup_parts {p q : Bytes} {mids : List Chunk}
    (hmids : ∀ c ∈ mids, c.type = .partialMid) (hdata : p ++ mids.flatMap payload ++
    q = leBytes 4 body.length ++ body)
    (halloc : body.length + MINIMAL_TUPLE_DATA_OFFSET ≤ MaxAllocSize) :
    cvtChunksToTup ((⟨.partialStart, p⟩ :: mids ++ [⟨.partialEnd, q⟩] : List Chunk).map item) =
    .ok (some body) := by
  have hsum : p.length + (mids.flatMap payload).length + q.length = 4 + body.length := by
    rw [← length_append, ← length_append, hdata, length_append, leBytes_length]
  have hoffset : MINIMAL_TUPLE_DATA_OFFSET = 10 := rfl
  obtain ⟨total, htotal⟩ := checkChunkTypes_ok q mids p.length hmids (by omega)
  have hpayload : ∀ cs : List Chunk, (cs.map item).flatMap TupleChunkListItem.payload =
      cs.flatMap payload := fun cs => by
    rw [flatMap_map]
    exact congrArg (fun f => cs.flatMap f) (funext payload_item)
  rw [cons_append, map_cons, cvtChunksToTup, getChunkType_item, ofCode_code]
  rw [item_dataSize, htotal, ok_bind, ← map_cons, hpayload, flatMap_cons, flatMap_append,
    flatMap_singleton, ← append_assoc, hdata, deserialize_body halloc]
  rfl

/-- **The chunks that carry a tuple** give the tuple. -/
theorem Carries.processChunks (h : Carries natts body cs)
    (halloc : body.length + MINIMAL_TUPLE_DATA_OFFSET ≤ MaxAllocSize) (hclean : s.chunkList = []) :
    processChunks numSenders s (cs.map item) =
    .ok { s with readyTuples := s.readyTuples ++ [body] } := by
  cases h with
  | empty hnatts hbody =>
    rw [map_singleton, processChunks_singleton, hbody]
    exact addChunkToSorter_single (.inr rfl) rfl hclean
  | whole =>
    rw [map_singleton, processChunks_singleton]
    refine addChunkToSorter_single (.inl rfl) ?_ hclean
    rw [cvtChunksToTup, getChunkType_item, ofCode_code]
    rw [if_pos rfl, payload_item, deserialize_body halloc]
  | parts p q mids hmids hdata =>
    obtain ⟨chunkList, readyTuples, endOfStream, ends, more⟩ := s
    obtain rfl : chunkList = [] := hclean
    have hstart : addChunkToSorter numSenders ⟨[], readyTuples, endOfStream, ends, more⟩
        (item ⟨.partialStart, p⟩) =
        .ok ⟨[item ⟨.partialStart, p⟩], readyTuples, endOfStream, ends, more⟩ := by
      unfold addChunkToSorter
      rw [getChunkType_item, ofCode_code]
      rfl
    have hcvt := cvtChunksToTup_parts hmids hdata halloc
    rw [cons_append, map_cons, map_append, map_singleton, ← singleton_append] at hcvt ⊢
    rw [processChunks_append, processChunks_singleton, hstart]
    dsimp only [Except.bind]
    rw [processChunks_append, processChunks_mids mids _ hmids (cons_ne_nil _ _)]
    dsimp only [Except.bind]
    rw [processChunks_singleton]
    unfold addChunkToSorter
    rw [getChunkType_item, ofCode_code]
    refine reconstructTuple_ok ?_
    exact hcvt

theorem CarriesAll.processChunks {bodies : List Bytes} (h : CarriesAll natts bodies cs)
    {s : ChunkSorter}
    (halloc : ∀ body ∈ bodies, body.length + MINIMAL_TUPLE_DATA_OFFSET ≤ MaxAllocSize)
    (hclean : s.chunkList = []) :
    processChunks numSenders s (cs.map item) =
      .ok { s with readyTuples := s.readyTuples ++ bodies } := by
  induction h generalizing s with
  | nil =>
    rw [append_nil]
    rfl
  | @cons body bodies cs ds hbody hrest ih =>
    have hrun := @ih { s with readyTuples := s.readyTuples ++ [body] }
      (fun b hb => halloc b (mem_cons_of_mem _ hb)) hclean
    rw [append_assoc, singleton_append] at hrun
    rw [map_append, processChunks_append, hbody.processChunks (halloc _ mem_cons_self) hclean]
    exact hrun

theorem receivePackets_ok {m : MotionLayer} (groups : List (List Chunk)) (s : ChunkSorter)
    (hfits : ∀ g ∈ groups, Fits m g) :
    receivePackets m numSenders s (groups.map (List.flatMap encode)) =
      processChunks numSenders s (groups.flatten.map item) := by
  induction groups generalizing s with
  | nil => rfl
  | cons g groups ih =>
    rw [map_cons, receivePackets, recvTupleChunk_encode (hfits g mem_cons_self), ok_bind,
      flatten_cons, map_append, processChunks_append]
    cases processChunks numSenders s (g.map item) with
    | error e => rfl
    | ok s' => exact ih s' fun g hg => hfits g (mem_cons_of_mem _ hg)

end Reassemble

/-! ## Both ends -/

/-- **Tuples come through**: whatever the sizes of chunks and packets are, the receiver gets the
tuples that were sent, in their order, and then the end of the stream. -/
theorem tuple_transport (m : MotionLayer) (info : SerTupInfo)
    (tuples : List (MinimalTuple info.natts × Bool)) (numSenders : Nat) :
    ∃ conn, sendTuples m info ⟨[], []⟩ tuples = some conn ∧
        receivePackets m numSenders .init conn.packets =
        .ok ⟨[], tuples.map fun t => t.1.body, true, 1,
        if 1 = numSenders then false else true⟩ := by
  obtain ⟨conn, ds, groups, hsend, hcarries, hflat, hpackets, hfits⟩ :=
    sendTuples_ok tuples (Packs.init m)
  refine ⟨conn, hsend, ?_⟩
  have halloc : ∀ body ∈ tuples.map (fun t => t.1.body), body.length + MINIMAL_TUPLE_DATA_OFFSET ≤
      MaxAllocSize := fun body hbody => by
    obtain ⟨t, -, rfl⟩ := mem_map.mp hbody
    exact t.1.alloc
  rw [hpackets, receivePackets_ok groups _ hfits, hflat, nil_append, map_append,
    processChunks_append, hcarries.processChunks halloc rfl]
  dsimp only [Except.bind]
  rw [map_singleton, processChunks_singleton]
  unfold addChunkToSorter
  rfl

end PolemoDB.Motion
