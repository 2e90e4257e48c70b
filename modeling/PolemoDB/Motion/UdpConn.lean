import Mathlib.Tactic.Ring
import PolemoDB.Lib.SeqRing
import PolemoDB.Lib.Transition

/-!
# A connection of the UDP interconnect

A sender puts packets into its send queue, sends them as long as the receiver has room, and keeps
them in the unacknowledged queue until they are acknowledged.  The receiver keeps packets in a ring,
those that come early as well, and hands them to the main thread in order. The network loses,
repeats and reorders data packets and acknowledgements.

* `RxConn` — the receiver: `handleDataPacket`, `handleDisorderPacket`, `prepareRxConnForRead`,
  `putRxBufferAndSendAck`;
* `TxConn` — the sender: `prepareXmit`, `sendBuffers`, `handleAcks`, `handleAckForDisorderPkt`,
  `handleAckForDuplicatePkt`;
* `Link`, `LinkEvent`, `Link.step` — both ends and the network between them.

Numbers of packets are unsigned ones of 32 bits.
-/

namespace PolemoDB.Motion

open PolemoDB.Lib

universe u

variable {α : Type u}

/-! ## Packets -/

/-- `a - b` in 32 bits. -/
def sub32 (a b : Nat) : Nat := (a + 2 ^ 32 - b) % 2 ^ 32

/-- `a + 1` in 32 bits. -/
def next32 (a : Nat) : Nat := (a + 1) % 2 ^ 32

/-- A data packet. -/
structure IcPkt (α : Type u) where
  seq : Nat
  eos : Bool
  payload : α
  deriving DecidableEq, Repr

/-- An acknowledgement. -/
inductive IcAck
  /-- with the flags ACK and CAPACITY, and STOP -/
  | plain (stop : Bool) (seq extraSeq : Nat)
  /-- with the flag DISORDER and the numbers of the lost packets -/
  | disorder (seq extraSeq : Nat) (lost : List Nat)
  /-- with the flag DUPLICATE -/
  | duplicate (seq extraSeq : Nat)
  deriving DecidableEq, Repr

/-! ## The receiver -/

/-- The connection of the receiver; `consumed` is the history of what the main thread has read and
given back. -/
structure RxConn (α : Type u) where
  pktQ : List (Option (IcPkt α))
  pktQSize : Nat
  pktQHead : Nat
  pktQTail : Nat
  seq : Nat
  extraSeq : Nat
  pBuff : Option (IcPkt α)
  stillActive : Bool
  statCountDropped : Nat
  consumed : List (IcPkt α)
  deriving DecidableEq, Repr

/-- The most numbers that an acknowledgement of a disordered packet has. -/
def MAX_SEQS_IN_DISORDER_ACK : Nat := 4

namespace RxConn

/-- `pkt_q_capacity`. -/
def capacity (c : RxConn α) : Nat := c.pktQ.length

/-- A new connection. -/
def init (queueDepth : Nat) : RxConn α where
  pktQ := List.replicate queueDepth none
  pktQSize := 0
  pktQHead := 0
  pktQTail := 0
  seq := 1
  extraSeq := 0
  pBuff := none
  stillActive := true
  statCountDropped := 0
  consumed := []

/-- The loop that moves the tail over the slots that are filled. -/
def moveTail : Nat → RxConn α → RxConn α
  | 0, c => c
  | n + 1, c =>
    if slot c.pktQ c.pktQTail ≠ none ∧ c.pktQSize < c.capacity then
      moveTail n { c with
        pktQSize := c.pktQSize + 1, pktQTail := (c.pktQTail + 1) % c.capacity, seq := next32 c.seq }
    else c

/-- `handleDisorderPacket`: the numbers of the empty slots from the tail on. -/
def lostSeqs (pktQ : List (Option (IcPkt α))) (pos : Nat) : Nat → Nat → Nat → Nat → List Nat
  | 0, _, _, _ => []
  | n + 1, start, tailSeq, lostPktCnt =>
    if start ≠ pos ∧ lostPktCnt < MAX_SEQS_IN_DISORDER_ACK then
      if slot pktQ start = none then
        tailSeq :: lostSeqs pktQ pos n ((start + 1) % pktQ.length) (next32 tailSeq) (lostPktCnt + 1)
      else lostSeqs pktQ pos n ((start + 1) % pktQ.length) (next32 tailSeq) lostPktCnt
    else []

variable (c : RxConn α)

/-- A packet for an empty slot. -/
def store (pkt : IcPkt α) (pos headSeq : Nat) : RxConn α × Option IcAck :=
  let c : RxConn α := { c with pktQ := c.pktQ.set pos (some pkt) }
  if pos = c.pktQTail then
    let c := c.moveTail c.capacity
    (c, some (.plain false (sub32 c.seq 1) c.extraSeq))
  else
    (c, some (.disorder pkt.seq (sub32 c.seq 1)
      (lostSeqs c.pktQ pos c.capacity c.pktQTail ((headSeq + c.pktQSize) % 2 ^ 32) 0)))

def handleDataPacket (pkt : IcPkt α) : RxConn α × Option IcAck :=
  if pkt.seq < c.seq then (c, some (.plain false (sub32 c.seq 1) c.extraSeq))
  else if !c.stillActive then
    ({ c with seq := if c.seq < pkt.seq then pkt.seq else c.seq },
      some (.plain true pkt.seq pkt.seq))
  else
    let headSeq := sub32 c.seq c.pktQSize
    if c.pktQSize = c.capacity ∨ c.capacity ≤ sub32 pkt.seq headSeq then
      ({ c with statCountDropped := c.statCountDropped + 1 }, none)
    else
      let pos := sub32 pkt.seq 1 % c.capacity
      match slot c.pktQ pos with
      | none => c.store pkt pos headSeq
      | some _ => (c, some (.duplicate pkt.seq (sub32 c.seq 1)))

def handleStatusQuery : IcAck :=
  .plain false (if 0 < c.seq then sub32 c.seq 1 else 0) c.extraSeq

/-- `prepareRxConnForRead`, when there is a packet. -/
def prepareRxConnForRead : Option (RxConn α) :=
  match c.pBuff, slot c.pktQ c.pktQHead with
  | none, some pkt => some { c with pBuff := some pkt }
  | _, _ => none

/-- `markUDPConnInactiveIFC`, at the end of the stream. -/
def markUDPConnInactive : Option (RxConn α) :=
  match c.pBuff with
  | some pkt => if pkt.eos then some { c with stillActive := false } else none
  | none => none

/-- `MlPutRxBufferIFC` and `putRxBufferAndSendAck`. -/
def putRxBufferAndSendAck : Option (RxConn α × Option IcAck) :=
  match c.pBuff, slot c.pktQ c.pktQHead with
  | some _, some buf =>
    some ({ c with
        pktQ := c.pktQ.set c.pktQHead none
        pBuff := none
        pktQHead := (c.pktQHead + 1) % c.capacity
        pktQSize := c.pktQSize - 1
        extraSeq := buf.seq
        consumed := c.consumed ++ [buf] },
      if buf.seq % 2 = 0 ∨
        c.capacity = 1 then some (.plain false (sub32 c.seq 1) buf.seq) else none)
  | _, _ => none

end RxConn

/-! ## The sender -/

/-- The connection of the sender.  `isSetup` is the state `mcsSetupOutgoingConnection`; `lastSeq`
and `times` are the static variables of `handleAckForDisorderPkt`, which all connections share;
`queued` is the history of what was put into the send queue. -/
structure TxConn (α : Type u) where
  seq : Nat
  sndQueue : List (IcPkt α)
  unackQueue : List (IcPkt α)
  capacity : Nat
  consumedSeq : Nat
  receivedAckSeq : Nat
  sentSeq : Nat
  isSetup : Bool
  stopRequested : Bool
  eosSent : Bool
  lastSeq : Nat
  times : Nat
  queued : List (IcPkt α)
  deriving DecidableEq, Repr

namespace TxConn

/-- A new connection. -/
def init (queueDepth : Nat) : TxConn α where
  seq := 1
  sndQueue := []
  unackQueue := []
  capacity := queueDepth
  consumedSeq := 0
  receivedAckSeq := 0
  sentSeq := 0
  isSetup := true
  stopRequested := false
  eosSent := false
  lastSeq := 0
  times := 0
  queued := []

/-- `prepareXmit`, and the packet is put into the send queue; after the end of the stream there are
no more. -/
def queuePacket (c : TxConn α) (payload : α) (eos : Bool) : Option (TxConn α) :=
  if c.eosSent then none
  else
    let pkt : IcPkt α := ⟨c.seq, eos, payload⟩
    some { c with
      seq := next32 c.seq, sndQueue := c.sndQueue ++ [pkt], eosSent := eos,
      queued := c.queued ++ [pkt] }

/-- A turn of the loop of `sendBuffers`, which may end earlier, by the congestion control. -/
def sendBuffer (c : TxConn α) : Option (TxConn α × IcPkt α) :=
  match c.sndQueue with
  | buf :: rest =>
    if 0 < c.capacity ∧ ¬(c.isSetup ∧ 1 ≤ c.unackQueue.length) then
      some ({ c with
        sndQueue := rest, capacity := c.capacity - 1, unackQueue := c.unackQueue ++
          [buf], sentSeq := buf.seq }, buf)
    else none
  | [] => none

/-- `handleAckedPacket`. -/
def ackedPacket (c : TxConn α) (buf : IcPkt α) : TxConn α := { c with
    unackQueue := c.unackQueue.eraseP fun b => b.seq = buf.seq
    receivedAckSeq := if c.unackQueue.head?.map IcPkt.seq =
      some buf.seq then buf.seq else c.receivedAckSeq
    isSetup := if buf.seq = 1 then false else c.isSetup }

/-- The loop over the unacknowledged packets up to a number. -/
def ackUpTo (seq : Nat) : List (IcPkt α) → TxConn α → TxConn α
  | [], c => c
  | buf :: rest, c => if buf.seq ≤ seq then ackUpTo seq rest (c.ackedPacket buf) else c

/-- The loop for the single duplicate packet. -/
def ackSingle (seq : Nat) : List (IcPkt α) → TxConn α → TxConn α
  | [], c => c
  | buf :: rest, c =>
    if buf.seq ≤ seq then if buf.seq = seq then c.ackedPacket buf else ackSingle seq rest c
    else c

/-- `handleAckForDuplicatePkt`: the second loop goes on where the first one ended. -/
def handleAckForDuplicatePkt (c : TxConn α) (seq extraSeq : Nat) : TxConn α :=
  if seq ≤ extraSeq then c
  else ackSingle seq (c.unackQueue.dropWhile fun b => b.seq ≤ extraSeq)
  (ackUpTo extraSeq c.unackQueue c)

/-- The loop over the unacknowledged and the lost packets: lost ones are sent again, others have
been received. -/
def ackDisorder (seq : Nat) : Nat → List (IcPkt α) → List Nat → TxConn α × List (IcPkt α) →
    TxConn α × List (IcPkt α)
  | n + 1, buf :: rest, lost :: losts, (c, resent) =>
    if buf.seq ≤ seq then
      if buf.seq = seq then (c.ackedPacket buf, resent)
      else if buf.seq = lost then ackDisorder seq n rest losts (c, resent ++ [buf])
      else if buf.seq < lost then ackDisorder seq n rest (lost :: losts) (c.ackedPacket buf, resent)
      else ackDisorder seq n (buf :: rest) losts (c, resent)
    else (c, resent)
  | _, _, _, r => r

/-- `handleAckForDisorderPkt`: nothing is done until the third one with the same number. -/
def handleAckForDisorderPkt (c : TxConn α) (seq extraSeq : Nat) (lost : List Nat) :
    TxConn α × List (IcPkt α) :=
  if extraSeq ≠ c.lastSeq then ({ c with lastSeq := extraSeq, times := 0 }, [])
  else
    let c : TxConn α := { c with times := next32 c.times }
    if c.times ≠ 2 then (c, [])
    else ackDisorder seq (c.unackQueue.length + lost.length) c.unackQueue lost (c, [])

/-- The capacity that an acknowledgement grants. -/
def grant (c : TxConn α) (extraSeq : Nat) : TxConn α :=
  if c.consumedSeq < extraSeq then { c with
    capacity := c.capacity + sub32 extraSeq c.consumedSeq, consumedSeq := extraSeq } else c

/-- `handleAcks`: the connection, and the packets that are sent again. -/
def handleAck (c : TxConn α) : IcAck → TxConn α × List (IcPkt α)
  | .plain stop seq extraSeq =>
    let c := c.grant extraSeq
    if seq < c.receivedAckSeq then (c, [])
    else
      let c : TxConn α := if stop ∧ !c.stopRequested then { c with stopRequested := true } else c
      if seq = c.receivedAckSeq then (c, []) else (ackUpTo seq c.unackQueue c, [])
  | .duplicate seq extraSeq => (c.handleAckForDuplicatePkt seq extraSeq, [])
  | .disorder seq extraSeq lost => c.handleAckForDisorderPkt seq extraSeq lost

end TxConn

/-! ## Both ends -/

/-- Both ends of the connection, and what was ever sent: any of it may still arrive, in any order
and any number of times. -/
structure Link (α : Type u) where
  tx : TxConn α
  rx : RxConn α
  data : List (IcPkt α)
  acks : List IcAck
  query : Bool
  deriving DecidableEq, Repr

/-- What happens. -/
inductive LinkEvent (α : Type u)
  | queue (payload : α) (eos : Bool)
  | send
  /-- a timeout -/
  | resend (pkt : IcPkt α)
  /-- `checkDeadlock` -/
  | statusQuery
  | recvData (pkt : IcPkt α)
  | recvQuery
  | recvAck (ack : IcAck)
  /-- an acknowledgement for another connection of the sender -/
  | otherDisorderAck (extraSeq : Nat)
  | prepare
  | markInactive
  | put
  deriving DecidableEq, Repr

namespace Link

/-- A new connection, with the queue depths of the two ends. -/
def init (txDepth rxDepth : Nat) : Link α := ⟨.init txDepth, .init rxDepth, [], [], false⟩

variable [DecidableEq α]

/-- One event; fewer than 2^32 packets are queued. -/
def step (s : Link α) : LinkEvent α → Option (Link α)
  | .queue payload eos =>
    if s.tx.queued.length + 1 < 2 ^ 32 then (s.tx.queuePacket payload eos).map fun tx =>
      { s with tx := tx } else none
  | .send => s.tx.sendBuffer.map fun (tx, buf) => { s with tx := tx, data := buf :: s.data }
  | .resend pkt => if pkt ∈ s.tx.unackQueue then some { s with data := pkt :: s.data } else none
  | .statusQuery =>
    if s.tx.unackQueue = [] ∧ s.tx.capacity = 0 ∧
      s.tx.sndQueue ≠ [] then some { s with query := true } else none
  | .recvData pkt =>
    if pkt ∈ s.data then
      let (rx, ack) := s.rx.handleDataPacket pkt
      some { s with rx := rx, acks := ack.toList ++ s.acks }
    else none
  | .recvQuery => if s.query then some { s with acks := s.rx.handleStatusQuery :: s.acks } else none
  | .recvAck ack =>
    if ack ∈ s.acks then
      let (tx, resent) := s.tx.handleAck ack
      some { s with tx := tx, data := resent ++ s.data }
    else none
  | .otherDisorderAck extraSeq =>
    some { s with tx := (s.tx.handleAckForDisorderPkt 0 extraSeq []).1 }
  | .prepare => s.rx.prepareRxConnForRead.map fun rx => { s with rx := rx }
  | .markInactive => s.rx.markUDPConnInactive.map fun rx => { s with rx := rx }
  | .put => s.rx.putRxBufferAndSendAck.map fun (rx, ack) =>
    { s with rx := rx, acks := ack.toList ++ s.acks }

end Link

end PolemoDB.Motion
