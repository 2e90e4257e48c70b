import Mathlib.Algebra.Ring.Nat
import Mathlib.Data.List.Chain
import PolemoDB.Lib.Transition

/-!
# Flow control of the proxy interconnect (`ic_proxy_client.c`, `ic_proxy_iobuf.c`)

A proxy client reads packets from its backend, merges them in an output buffer and routes the merged
packets to the client at the other end of the logical connection, which writes them to its own
backend. The sender counts the packets that it reads, and stops reading once
`IC_PROXY_TRESHOLD_UNACK_PACKET_PAUSE` of them are not acknowledged; the receiver counts the packets
that it has written, and acknowledges each `IC_PROXY_ACK_INTERVAL` of them.

* `obufPush`: the output buffer, which is emptied when a packet does not fit any more;
* `onC2pDataPkt`, `maybePause`, `onDataAck`, `maybeResume`: the sender;
* `onP2cData`, `onSentP2cData`, `maybeSendAckMessage`: the receiver;
* `proxyStep`: one event of the connection. What is routed arrives in order and is not lost.

The two ends count different packets. The count of the sender is never negative
(`FlowInv.unackSendPkt_nonneg`), but packets that were merged into others are never acknowledged:
the sender is not left paused with nothing under way if the receiver's count keeps up with what was
read (`KeepsUp`), for instance if no two packets in a row fit into one (`keepsUp_of_apart`).
-/

namespace PolemoDB.Motion

open PolemoDB.Lib List

/-! ## The output buffer -/

def IC_PROXY_TRESHOLD_UNACK_PACKET_PAUSE : ℤ := 100
def IC_PROXY_TRESHOLD_UNACK_PACKET_RESUME : ℤ := 30
def IC_PROXY_ACK_INTERVAL : ℤ := 10

/-- `sizeof(ICProxyPkt)`, the header of a packet between proxies. -/
def ICPROXYPKT_SIZE : ℕ := 36

/-- `IC_PROXY_MAX_PKT_SIZE`. -/
def maxPktSize (gpMaxPacketSize : ℕ) : ℕ := gpMaxPacketSize + ICPROXYPKT_SIZE

/-- `ic_proxy_obuf_push` on a buffer of `len` bytes, header included: the new length, which is a
`uint16`, and the packet that is handed to the callback. A packet that does not fit into an empty
buffer is an error. -/
def obufPush (gpMaxPacketSize len size : ℕ) : Option (ℕ × List ℕ) :=
  if size = 0 ∨ size + len > maxPktSize gpMaxPacketSize then
    if ICPROXYPKT_SIZE + size > maxPktSize gpMaxPacketSize then none
    else if len = ICPROXYPKT_SIZE then some ((ICPROXYPKT_SIZE + size) % 2 ^ 16, [])
    else some ((ICPROXYPKT_SIZE + size) % 2 ^ 16, [len])
  else some ((len + size) % 2 ^ 16, [])

/-- How many bytes one read returns. One of over 65535 bytes, which packets of over 65499 bytes
allow, would wrap the `uint16` size of `ic_proxy_ibuf_push`; it is left out. -/
def readLimit (gpMaxPacketSize : ℕ) : ℕ := min (maxPktSize gpMaxPacketSize) (2 ^ 16 - 1)

/-! ## The two clients -/

/-- One direction of a logical connection. A packet is given by its size. -/
structure ProxyConn where
  /-- packets that the sending backend has not handed over yet -/
  backend : List ℕ
  /-- the sending client read the end of the stream -/
  eof : Bool
  unackSendPkt : ℤ
  paused : Bool
  obuf : ℕ
  /-- routed DATA packets that have not arrived -/
  routed : List ℕ
  /-- DATA packets being written to the receiving backend -/
  writing : List ℕ
  unconsumed : ℤ
  unackRecvPkt : ℤ
  /-- DATA_ACK messages that have not arrived -/
  acks : ℕ
  deriving DecidableEq, Repr

/-- Two registered clients that have exchanged nothing. -/
def initConn (packets : List ℕ) : ProxyConn where
  backend := packets
  eof := false
  unackSendPkt := 0
  paused := false
  obuf := ICPROXYPKT_SIZE
  routed := []
  writing := []
  unconsumed := 0
  unackRecvPkt := 0
  acks := 0

/-- `ic_proxy_client_maybe_pause`. -/
def maybePause (c : ProxyConn) : ProxyConn :=
  if c.unackSendPkt ≥ IC_PROXY_TRESHOLD_UNACK_PACKET_PAUSE ∧ c.paused = false then
    { c with paused := true }
  else c

/-- `ic_proxy_client_maybe_resume`. -/
def maybeResume (c : ProxyConn) : ProxyConn :=
  if c.unackSendPkt ≤ IC_PROXY_TRESHOLD_UNACK_PACKET_RESUME ∧ c.paused = true then
    { c with paused := false }
  else c

/-- The push of a packet, or with size 0 a flush, whose callback routes what comes out. -/
def obufRoute (gpMaxPacketSize : ℕ) (c : ProxyConn) (size : ℕ) : Option ProxyConn :=
  match obufPush gpMaxPacketSize c.obuf size with
  | none => none
  | some (len, out) => some { c with obuf := len, routed := c.routed ++ out }

/-- `ic_proxy_client_on_c2p_data_pkt`. -/
def onC2pDataPkt (gpMaxPacketSize : ℕ) (c : ProxyConn) (size : ℕ) : Option ProxyConn :=
  obufRoute gpMaxPacketSize (maybePause { c with unackSendPkt := c.unackSendPkt + 1 }) size

/-- The packets of one read, in order; a client that pauses handles the rest of them all the same.
-/
def onC2pDataPkts (gpMaxPacketSize : ℕ) : ℕ → ProxyConn → Option ProxyConn
  | 0, c => some c
  | n + 1, c =>
    match c.backend with
    | [] => some c
    | size :: rest =>
      match onC2pDataPkt gpMaxPacketSize { c with backend := rest } size with
      | none => none
      | some c' => onC2pDataPkts gpMaxPacketSize n c'

/-- `ic_proxy_client_on_c2p_data` at the end of the stream: what is left of an incomplete packet is
handled as one, and the buffer is flushed. -/
def onC2pEof (gpMaxPacketSize : ℕ) (c : ProxyConn) : Option ProxyConn :=
  match onC2pDataPkts gpMaxPacketSize 1 c with
  | none => none
  | some c' => (obufRoute gpMaxPacketSize c' 0).map fun c'' => { c'' with eof := true }

/-- `ic_proxy_client_on_p2c_data` for a DATA packet: it is written to the backend. -/
def onP2cData (c : ProxyConn) (size : ℕ) : ProxyConn :=
  { c with unconsumed := c.unconsumed + 1, writing := c.writing ++ [size] }

/-- `ic_proxy_client_maybe_send_ack_message`. -/
def maybeSendAckMessage (c : ProxyConn) : ProxyConn :=
  if c.unackRecvPkt ≥ IC_PROXY_ACK_INTERVAL then
    { c with unackRecvPkt := c.unackRecvPkt - IC_PROXY_ACK_INTERVAL, acks := c.acks + 1 }
  else c

/-- `ic_proxy_client_on_sent_p2c_data`. -/
def onSentP2cData (c : ProxyConn) : ProxyConn := maybeSendAckMessage
    { c with unconsumed := c.unconsumed - 1, unackRecvPkt := c.unackRecvPkt + 1 }

/-- `ic_proxy_client_on_p2c_message` for a DATA_ACK. -/
def onDataAck (c : ProxyConn) : ProxyConn :=
  maybeResume { c with unackSendPkt := c.unackSendPkt - IC_PROXY_ACK_INTERVAL }

/-! ## The connection -/

/-- What can happen next. -/
inductive ProxyEvent where
  /-- the sender reads the given number of packets at once, the first of them possibly in part
  before -/
  | read (n : ℕ)
  /-- the sender reads the end of the stream, and before it at most an incomplete packet -/
  | eof
  /-- a DATA packet arrives at the receiver -/
  | data
  /-- a DATA packet is written to the receiving backend -/
  | sent
  /-- a DATA_ACK arrives at the sender -/
  | ack
  deriving DecidableEq, Repr

/-- One event, if it can happen. A paused client does not read. -/
def proxyStep (gpMaxPacketSize : ℕ) (c : ProxyConn) : ProxyEvent → Option ProxyConn
  | .read n =>
    if c.paused = false ∧ c.eof = false ∧ n ≤ c.backend.length ∧
        ((c.backend.take n).drop 1).sum < readLimit gpMaxPacketSize then
      onC2pDataPkts gpMaxPacketSize n c
    else none
  | .eof =>
    if c.paused = false ∧ c.eof = false ∧ c.backend.length ≤ 1 then onC2pEof gpMaxPacketSize c
    else none
  | .data =>
    match c.routed with
    | [] => none
    | size :: rest => some (onP2cData { c with routed := rest } size)
  | .sent =>
    match c.writing with
    | [] => none
    | _ :: rest => some (onSentP2cData { c with writing := rest })
  | .ack => if 0 < c.acks then some (onDataAck { c with acks := c.acks - 1 }) else none

/-- The sender is paused, and nothing is under way that could wake it. -/
def ProxyConn.Stalled (c : ProxyConn) : Prop := c.paused = true ∧ c.routed = [] ∧ c.writing = [] ∧
    c.acks = 0

instance (c : ProxyConn) : Decidable c.Stalled :=
  inferInstanceAs (Decidable (c.paused = true ∧ c.routed = [] ∧ c.writing = [] ∧ c.acks = 0))

/-! ## What the buffer lets through -/

/-- One push, on the length of the buffer and the number of packets that came out of it. -/
def obufCount (gpMaxPacketSize : ℕ) (acc : ℕ × ℕ) (size : ℕ) : ℕ × ℕ :=
  match obufPush gpMaxPacketSize acc.1 size with
  | none => acc
  | some (len, out) => (len, acc.2 + out.length)

/-- The length of the buffer after some packets, and the number of packets that came out of it. -/
def obufMerged (gpMaxPacketSize : ℕ) (packets : List ℕ) : ℕ × ℕ :=
  packets.foldl (obufCount gpMaxPacketSize) (ICPROXYPKT_SIZE, 0)

/-- Whenever the sender can be paused, the acknowledged part of what came out of the buffer is at
most the resume threshold behind what was read. It is paused by packet `t`, and reads on up to
packet `n` if these come in the same read. -/
def KeepsUp (gpMaxPacketSize : ℕ) (packets : List ℕ) : Prop :=
  ∀ t n, 100 ≤ t → 10 ∣ t → t ≤ n → n ≤ packets.length →
    ((packets.take n).drop t).sum < readLimit gpMaxPacketSize →
    n ≤ 10 * ((obufMerged gpMaxPacketSize (packets.take n)).2 / 10) + 30

theorem obufMerged_concat (gp : ℕ) (pre : List ℕ) (size : ℕ) :
    obufMerged gp (pre ++ [size]) = obufCount gp (obufMerged gp pre) size := by
  rw [obufMerged, foldl_append]
  rfl

variable {gp len size len' : ℕ} {out packets : List ℕ} {c : ProxyConn}

/-- **One push**: nothing comes out, or what was in the buffer. -/
theorem obufPush_cases (h : obufPush gp len size = some (len', out)) :
    out = [] ∨ out = [len] ∧ len ≠ ICPROXYPKT_SIZE := by
  rw [obufPush] at h
  split at h
  · split at h
    · cases h
    · split at h <;> cases h
      · exact .inl rfl
      · exact .inr ⟨rfl, by assumption⟩
  · cases h
    exact .inl rfl

/-! ## The invariant -/

/-- A buffer with data in it holds at least one packet. -/
def obufHolds (len : ℕ) : ℕ := if len = ICPROXYPKT_SIZE then 0 else 1

theorem obufHolds_le (len : ℕ) : obufHolds len ≤ 1 := by
  unfold obufHolds
  split <;> omega

theorem obufPush_holds (h : obufPush gp len size = some (len', out)) :
    out.length + obufHolds len' ≤ obufHolds len + 1 := by
  have hle := obufHolds_le len'
  rcases obufPush_cases h with rfl | ⟨rfl, hlen⟩
  · simp only [length_nil]
    omega
  · have hone : obufHolds len = 1 := if_neg hlen
    simp only [length_cons, length_nil]
    omega

theorem obufPush_flush (h : obufPush gp len 0 = some (len', out)) :
    out.length + obufHolds len' ≤ obufHolds len := by
  obtain ⟨rfl, hout⟩ : len' = ICPROXYPKT_SIZE ∧ out.length ≤ obufHolds len := by
    rw [obufPush, if_pos (.inl rfl), if_neg (by rw [maxPktSize]; omega)] at h
    split at h <;> cases h
    · exact ⟨rfl, Nat.zero_le _⟩
    · exact ⟨rfl, by rw [obufHolds, if_neg (by assumption)]; rfl⟩
  exact hout

/-- The packets `pre` were read and `merged` packets came out of the buffer, of which `written` were
written; `sent` messages acknowledge these, of which `handled` arrived. The read that is going on
has still to handle `rest`. -/
structure Counted (gp : ℕ) (packets : List ℕ) (c : ProxyConn) (pre rest : List ℕ)
    (merged written sent handled : ℕ) : Prop where
  split : packets = pre ++ c.backend
  enough : (obufMerged gp pre).2 ≤ merged
  buffer : c.eof = false → obufMerged gp pre = (c.obuf, merged)
  bound : merged + obufHolds c.obuf ≤ pre.length
  flow : merged = c.routed.length + c.writing.length + written
  recv : (written : ℤ) = 10 * sent + c.unackRecvPkt
  recv_nonneg : 0 ≤ c.unackRecvPkt
  recv_lt : c.unackRecvPkt < 10
  acked : sent = c.acks + handled
  send : c.unackSendPkt = pre.length - 10 * handled
  paused_unack : c.paused = true → 30 < c.unackSendPkt
  paused_at : c.paused = true → ∃ t, 100 ≤ t ∧ 10 ∣ t ∧ t ≤ pre.length ∧
    (pre.drop t ++ rest).sum < readLimit gp
  running_unack : c.paused = false → c.unackSendPkt < 100
  running_rest : c.paused = false → (rest.drop 1).sum < readLimit gp

/-- The counts of both ends agree on what was read, merged, written and acknowledged. -/
def FlowInv (gp : ℕ) (packets : List ℕ) (c : ProxyConn) : Prop :=
  ∃ pre merged written sent handled, Counted gp packets c pre [] merged written sent handled

theorem readLimit_pos (gp : ℕ) : 0 < readLimit gp := by
  unfold readLimit maxPktSize ICPROXYPKT_SIZE
  omega

theorem flowInv_init (gp : ℕ) (packets : List ℕ) : FlowInv gp packets (initConn packets) := by
  refine ⟨[], 0, 0, 0, 0, ?_⟩
  constructor <;> simp [initConn, obufMerged, obufHolds, readLimit_pos]

theorem maybePause_eq (c : ProxyConn) :
    maybePause c = { c with paused := c.paused || decide (100 ≤ c.unackSendPkt) } := by
  unfold maybePause IC_PROXY_TRESHOLD_UNACK_PACKET_PAUSE
  cases c
  split <;> grind

theorem maybeResume_eq (c : ProxyConn) :
    maybeResume c = { c with paused := c.paused && decide (30 < c.unackSendPkt) } := by
  unfold maybeResume IC_PROXY_TRESHOLD_UNACK_PACKET_RESUME
  cases c
  split <;> grind

section Steps

variable {gp : ℕ} {packets pre rest : List ℕ} {c c' : ProxyConn} {merged written sent handled : ℕ}

/-- **One packet**: if it pauses the sender, then it is the hundredth that is not acknowledged, so
its number is a multiple of ten. -/
theorem Counted.dataPkt {size : ℕ} {backend : List ℕ}
    (h : Counted gp packets c pre (size :: rest) merged written sent handled) (heof : c.eof = false)
    (hc : c.backend = size :: backend)
    (hstep : onC2pDataPkt gp { c with backend := backend } size = some c') :
    c'.eof = false ∧ c'.backend = backend ∧
      ∃ merged', Counted gp packets c' (pre ++ [size]) rest merged' written sent handled := by
  rw [onC2pDataPkt, maybePause_eq, obufRoute] at hstep
  split at hstep <;> cases hstep
  next len out hpush =>
    have hmerged : obufMerged gp (pre ++ [size]) = (len, merged + out.length) := by
      rw [obufMerged_concat, h.buffer heof, obufCount]
      simp only [show obufPush gp c.obuf size = some (len, out) from hpush]
    have hholds := obufPush_holds hpush
    have hlen : (pre ++ [size]).length = pre.length + 1 := by simp
    have hbound := h.bound
    have hflow := h.flow
    have hsend := h.send
    refine ⟨heof, rfl, merged + out.length, ?_, ?_, fun _ => hmerged, ?_, ?_, h.recv, h.recv_nonneg,
      h.recv_lt, h.acked, ?_, ?_, ?_, ?_, ?_⟩
    · rw [h.split, hc, append_assoc]
      rfl
    · rw [hmerged]
    · simp only at hholds ⊢
      omega
    · simp only [length_append]
      omega
    · simp only
      omega
    · simp only [Bool.or_eq_true, decide_eq_true_eq]
      rintro (hp | hp)
      · have := h.paused_unack hp
        omega
      · omega
    · simp only [Bool.or_eq_true, decide_eq_true_eq]
      intro hp
      cases hpaused : c.paused with
      | true =>
        obtain ⟨t, ht, hten, hle, hsum⟩ := h.paused_at hpaused
        exact ⟨t, ht, hten, by omega, by simpa [drop_append_of_le_length hle] using hsum⟩
      | false =>
        have hunack := h.running_unack hpaused
        have hall := hp.resolve_left (by simp [hpaused])
        refine ⟨pre.length + 1, by omega, by omega, hlen.ge, ?_⟩
        rw [← hlen, drop_length]
        exact h.running_rest hpaused
    · simp only [Bool.or_eq_false_iff, decide_eq_false_iff_not]
      omega
    · simp only [Bool.or_eq_false_iff]
      rintro ⟨hp, -⟩
      have := h.running_rest hp
      cases rest with
      | nil => exact readLimit_pos gp
      | cons p rest =>
        simp only [drop_succ_cons, drop_zero, sum_cons] at this ⊢
        omega

/-- **One read.** -/
theorem Counted.dataPkts (n : ℕ) {c c' : ProxyConn} {pre : List ℕ} {merged : ℕ}
    (h : Counted gp packets c pre (c.backend.take n) merged written sent handled)
    (heof : c.eof = false) (hstep : onC2pDataPkts gp n c = some c') :
    c'.eof = false ∧
      ∃ pre' merged', Counted gp packets c' pre' [] merged' written sent handled := by
  induction n generalizing c c' pre merged with
  | zero =>
    cases hstep
    exact ⟨heof, pre, merged, h⟩
  | succ n ih =>
    rw [onC2pDataPkts] at hstep
    split at hstep
    next hc =>
      cases hstep
      rw [hc, take_nil] at h
      exact ⟨heof, pre, merged, h⟩
    next size backend hc =>
      split at hstep
      · cases hstep
      next c₁ hpkt =>
        rw [hc, take_succ_cons] at h
        obtain ⟨heof₁, rfl, merged', h₁⟩ := h.dataPkt heof hc hpkt
        exact ih h₁ heof₁ hstep

theorem FlowInv.read (h : FlowInv gp packets c) (heof : c.eof = false) (hpaused : c.paused = false)
    {n : ℕ} (hlimit : ((c.backend.take n).drop 1).sum < readLimit gp)
    (hstep : onC2pDataPkts gp n c = some c') : FlowInv gp packets c' ∧ c'.eof = false := by
  obtain ⟨pre, merged, written, sent, handled, h⟩ := h
  have h' : Counted gp packets c pre (c.backend.take n) merged written sent handled :=
    { h with
      paused_at := fun hp => absurd (hpaused.symm.trans hp) Bool.false_ne_true
      running_rest := fun _ => hlimit }
  obtain ⟨heof', pre', merged', h''⟩ := h'.dataPkts n heof hstep
  exact ⟨⟨pre', merged', written, sent, handled, h''⟩, heof'⟩

theorem Counted.flush {len : ℕ} {out : List ℕ}
    (h : Counted gp packets c pre [] merged written sent handled)
    (hpush : obufPush gp c.obuf 0 = some (len, out)) :
    Counted gp packets { c with obuf := len, routed := c.routed ++ out, eof := true } pre []
      (merged + out.length) written sent handled := by
  have hholds := obufPush_flush hpush
  have hbound := h.bound
  have hflow := h.flow
  refine { h with
    enough := h.enough.trans (Nat.le_add_right _ _), buffer := nofun, bound := ?_, flow := ?_ }
  · simp only
    omega
  · simp only [length_append]
    omega

theorem FlowInv.eof (h : FlowInv gp packets c) (heof : c.eof = false) (hpaused : c.paused = false)
    (hstep : onC2pEof gp c = some c') : FlowInv gp packets c' := by
  rw [onC2pEof] at hstep
  split at hstep
  · cases hstep
  next c₁ hread =>
    have hone : ((c.backend.take 1).drop 1).sum < readLimit gp := by
      rw [drop_take]
      exact readLimit_pos gp
    obtain ⟨⟨pre, merged, written, sent, handled, hcounted⟩, -⟩ := h.read heof hpaused hone hread
    rw [obufRoute] at hstep
    split at hstep <;> cases hstep
    next len out hpush => exact ⟨pre, _, written, sent, handled, hcounted.flush hpush⟩

theorem FlowInv.data {size : ℕ} {routed : List ℕ} (h : FlowInv gp packets c)
    (hc : c.routed = size :: routed) :
    FlowInv gp packets (onP2cData { c with routed := routed } size) := by
  obtain ⟨pre, merged, written, sent, handled, h⟩ := h
  refine ⟨pre, merged, written, sent, handled, { h with flow := ?_ }⟩
  have hflow := h.flow
  rw [hc, length_cons] at hflow
  simp only [onP2cData, length_append, length_cons, length_nil]
  omega

theorem FlowInv.sentData {size : ℕ} {writing : List ℕ} (h : FlowInv gp packets c)
    (hc : c.writing = size :: writing) :
    FlowInv gp packets (onSentP2cData { c with writing := writing }) := by
  obtain ⟨pre, merged, written, sent, handled, h⟩ := h
  have hflow := h.flow
  have hrecv := h.recv
  have hlt := h.recv_lt
  have hnonneg := h.recv_nonneg
  have hacked := h.acked
  rw [hc, length_cons] at hflow
  unfold onSentP2cData maybeSendAckMessage IC_PROXY_ACK_INTERVAL
  split
  next hfull =>
    simp only at hfull
    refine ⟨pre, merged, written + 1, sent + 1, handled,
      { h with flow := ?_, recv := ?_, recv_nonneg := ?_, recv_lt := ?_, acked := ?_ }⟩ <;>
      push_cast <;> omega
  next hfull =>
    simp only at hfull
    refine ⟨pre, merged, written + 1, sent, handled,
      { h with flow := ?_, recv := ?_, recv_nonneg := ?_, recv_lt := ?_ }⟩ <;> push_cast <;> omega

theorem FlowInv.ack (h : FlowInv gp packets c) (hc : 0 < c.acks) :
    FlowInv gp packets (onDataAck { c with acks := c.acks - 1 }) := by
  obtain ⟨pre, merged, written, sent, handled, h⟩ := h
  have hacked := h.acked
  have hsend := h.send
  rw [onDataAck, maybeResume_eq]
  unfold IC_PROXY_ACK_INTERVAL
  refine ⟨pre, merged, written, sent, handled + 1,
    { h with
      acked := ?_
      send := ?_
      paused_unack := fun hp => by simpa using (Bool.and_eq_true_iff.1 hp).2
      paused_at := fun hp => h.paused_at (Bool.and_eq_true_iff.1 hp).1
      running_unack := fun hp => ?_
      running_rest := fun _ => readLimit_pos gp }⟩
  · simp only
    omega
  · push_cast
    omega
  rcases Bool.and_eq_false_iff.1 hp with hp | hp
  · have := h.running_unack hp
    simp only
    omega
  · simp only [decide_eq_false_iff_not] at hp ⊢
    omega

/-- **Every event keeps the counts.** -/
theorem FlowInv.step (h : FlowInv gp packets c) {e : ProxyEvent}
    (hstep : proxyStep gp c e = some c') : FlowInv gp packets c' := by
  cases e <;> rw [proxyStep] at hstep
  case read n =>
    split at hstep
    next hen => exact (h.read hen.2.1 hen.1 hen.2.2.2 hstep).1
    · cases hstep
  case eof =>
    split at hstep
    next hen => exact h.eof hen.2.1 hen.1 hstep
    · cases hstep
  case data =>
    split at hstep <;> cases hstep
    next hc => exact h.data hc
  case sent =>
    split at hstep <;> cases hstep
    next hc => exact h.sentData hc
  case ack =>
    split at hstep <;> cases hstep
    next hc => exact h.ack hc

end Steps

/-! ## Runs -/

theorem FlowInv.unackSendPkt_nonneg (h : FlowInv gp packets c) : 0 ≤ c.unackSendPkt := by
  obtain ⟨pre, merged, written, sent, handled, h⟩ := h
  have h1 := h.bound
  have h2 := h.flow
  have h3 := h.recv
  have h4 := h.recv_nonneg
  have h5 := h.acked
  have h6 := h.send
  omega

theorem FlowInv.not_stalled (h : FlowInv gp packets c) (hk : KeepsUp gp packets) : ¬ c.Stalled := by
  rintro ⟨hpaused, hrouted, hwriting, hacks⟩
  obtain ⟨pre, merged, written, sent, handled, h⟩ := h
  obtain ⟨t, ht, hten, hle, hsum⟩ := h.paused_at hpaused
  have hunack := h.paused_unack hpaused
  have htaken : packets.take pre.length = pre := by rw [h.split, take_left]
  have hlen : pre.length ≤ packets.length := by
    rw [h.split, length_append]
    omega
  rw [append_nil] at hsum
  have hkeeps := hk t pre.length ht hten hle hlen (by rwa [htaken])
  rw [htaken] at hkeeps
  have hflow := h.flow
  rw [hrouted, hwriting] at hflow
  simp only [length_nil] at hflow
  have henough := h.enough
  have h1 := h.recv
  have h2 := h.recv_lt
  have h3 := h.acked
  have h4 := h.send
  omega

/-! ## When the receiver keeps up -/

/-- If no two packets in a row fit into one, each packet drives out the one before it. -/
theorem obufMerged_of_apart (hgp : maxPktSize gp < 2 ^ 16) {pre : List ℕ}
    (hsize : ∀ p ∈ pre ++ [size], 0 < p ∧ p ≤ gp)
    (hapart : (pre ++ [size]).IsChain fun p q => gp < p + q) :
    obufMerged gp (pre ++ [size]) = (ICPROXYPKT_SIZE + size, pre.length) := by
  rw [maxPktSize] at hgp
  induction pre using reverseRecOn generalizing size with
  | nil =>
    have hs := hsize size (by simp)
    have hpush : obufPush gp ICPROXYPKT_SIZE size = some (ICPROXYPKT_SIZE + size, []) := by
      rw [obufPush, if_neg (by rw [maxPktSize]; omega), Nat.mod_eq_of_lt (by omega)]
    rw [obufMerged_concat, obufCount, show obufMerged gp [] = (ICPROXYPKT_SIZE, 0) from rfl, hpush]
    rfl
  | append_singleton pre p ih =>
    have hp := hsize p (by simp)
    have hs := hsize size (by simp)
    have hih := ih (fun q hq => hsize q (mem_append_left _ hq)) (isChain_append.1 hapart).1
    have hsum : gp < p + size := (isChain_append.1 hapart).2.2 p (by simp) size (by simp)
    have hpush : obufPush gp (ICPROXYPKT_SIZE + p) size =
        some (ICPROXYPKT_SIZE + size, [ICPROXYPKT_SIZE + p]) := by
      rw [obufPush, if_pos (by rw [maxPktSize]; omega), if_neg (by rw [maxPktSize]; omega),
        if_neg (by omega), Nat.mod_eq_of_lt (by omega)]
    rw [obufMerged_concat, hih, obufCount]
    simp only [hpush, length_append, length_cons, length_nil]

theorem keepsUp_of_apart (hgp : maxPktSize gp < 2 ^ 16) (hsize : ∀ p ∈ packets, 0 < p ∧ p ≤ gp)
    (hapart : packets.IsChain fun p q => gp < p + q) : KeepsUp gp packets := by
  intro t n ht _ hn hle _
  have hne : packets.take n ≠ [] := by
    rw [← length_pos_iff, length_take_of_le hle]
    omega
  have hsplit := dropLast_append_getLast hne
  have hlen : (packets.take n).dropLast.length = n - 1 := by
    rw [length_dropLast, length_take_of_le hle]
  have hmerged := @obufMerged_of_apart gp ((packets.take n).getLast hne) hgp
    (packets.take n).dropLast (fun p hp => hsize p (mem_of_mem_take (hsplit ▸ hp))) (by
      rw [hsplit]
      rw [← take_append_drop n packets] at hapart
      exact (isChain_append.1 hapart).1)
  rw [hsplit] at hmerged
  rw [hmerged, hlen]
  omega

end PolemoDB.Motion
