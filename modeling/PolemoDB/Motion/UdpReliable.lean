import PolemoDB.Motion.UdpAck

/-!
# Delivery over the UDP interconnect

With at most 2^32 - 2 packets, over every run with loss, repetition and reordering, the receiver
consumes a prefix of what was queued, and what it has not consumed is still in one of the queues.
If the sender does not have the deeper queue, no packet comes when there is no room for it.

* `Link.Delivered`, `Link.Windowed` — what follows.
-/

namespace PolemoDB.Motion

open PolemoDB.Lib List Option

universe u

variable {α : Type u}

theorem Numbered.sorted {queued : List (IcPkt α)} (h : Numbered queued) : queued.Pairwise fun a b =>
    a.seq < b.seq := by
  rw [pairwise_iff_getElem]
  intro i j hi hj hij
  rw [h i _ (getElem?_eq_getElem hi), h j _ (getElem?_eq_getElem hj)]
  omega

namespace Link

variable {txDepth rxDepth : Nat} {sent : List (IcPkt α)} {s s' : Link α}

/-- What holds of both ends, and of all that is in flight; `sent` are the packets that were sent. -/
structure Inv (txDepth rxDepth : Nat) (sent : List (IcPkt α)) (s : Link α) : Prop where
  numbered : Numbered s.tx.queued
  seq : s.tx.seq = s.tx.queued.length + 1
  split : s.tx.queued = sent ++ s.tx.sndQueue
  unack : s.tx.unackQueue.Sublist sent
  data : ∀ q ∈ s.data, q ∈ sent
  kept : ∀ q ∈ sent, q ∈ s.tx.unackQueue ∨ s.rx.Got q
  acks : ∀ a ∈ s.acks, AckOk s.rx a
  rx : RxConn.Inv s.tx.queued s.rx
  last : ∀ q ∈ s.tx.queued, q.eos = true → q.seq = s.tx.queued.length ∧ s.tx.eosSent = true
  ended : s.rx.stillActive = false → s.tx.eosSent = true
  running : s.tx.stopRequested = false
  window : s.tx.capacity + sent.length = txDepth + s.tx.consumedSeq
  granted : s.tx.consumedSeq ≤ s.rx.extraSeq
  depth : s.rx.capacity = rxDepth
  room : txDepth ≤ rxDepth → s.rx.statCountDropped = 0

/-- Few enough packets, that no number wraps around. -/
def Few (s : Link α) : Prop := s.tx.queued.length + 1 < 2 ^ 32

variable {q : IcPkt α} {rx : RxConn α}

section

variable (h : Inv txDepth rxDepth sent s)
include h

theorem Inv.sent_queued (hq : q ∈ sent) : q ∈ s.tx.queued := by
  rw [h.split]
  exact mem_append_left _ hq

theorem Inv.sent_seq (hq : q ∈ sent) : q.seq ≤ sent.length := by
  obtain ⟨k, hk⟩ := mem_iff_getElem?.mp hq
  have hlt := (List.getElem?_eq_some_iff.mp hk).1
  rw [h.numbered k q (by rw [h.split, getElem?_append_left hlt]; exact hk)]
  omega

theorem Inv.data_window (hdepth : txDepth ≤ rxDepth)
    (hq : q ∈ s.data) : q.seq ≤ s.rx.extraSeq + s.rx.capacity := by
  have hseq := h.sent_seq (h.data q hq)
  have hwindow := h.window
  have hgranted := h.granted
  rw [h.depth]
  omega

end

theorem Inv.init (hdepth : 1 ≤ rxDepth) :
    Inv txDepth rxDepth [] (Link.init txDepth rxDepth : Link α) where
  numbered := fun _ _ hq => (nomatch hq)
  seq := rfl
  split := rfl
  unack := Sublist.refl _
  data := nofun
  kept := nofun
  acks := nofun
  rx := RxConn.Inv.init hdepth
  last := nofun
  ended := nofun
  running := rfl
  window := rfl
  granted := le_rfl
  depth := length_replicate
  room := fun _ => rfl

/-! ## Events of the sender -/

variable {tx : TxConn α} {a : IcAck} {r : RxConn α × Option IcAck}

section

variable (h : Inv txDepth rxDepth sent s)
include h

theorem Inv.queue (hfew : s.tx.queued.length + 2 < 2 ^ 32) {payload : α} {eos : Bool}
    (hrun : s.tx.queuePacket payload eos = some tx) :
    Inv txDepth rxDepth sent { s with tx := tx } := by
  have hseq := h.seq
  unfold TxConn.queuePacket at hrun
  split at hrun <;> cases hrun
  next hopen =>
    rw [Bool.not_eq_true] at hopen
    have hactive : s.rx.stillActive = true := by
      by_contra hno
      have := h.ended (Bool.not_eq_true _ ▸ hno)
      rw [hopen] at this
      cases this
    refine { h with
      numbered := h.numbered.concat hseq, seq := ?_, split := ?_, rx := h.rx.queue hactive hseq,
      last := fun q hq heos => ?_, ended := fun hno => ?_ }
    · rw [next32_eq (by omega), hseq, length_append, length_singleton]
    · rw [← append_assoc, ← h.split]
    · rcases mem_append.mp hq with hq | hq
      · have hended := (h.last q hq heos).2
        rw [hopen] at hended
        cases hended
      · obtain rfl := mem_singleton.mp hq
        refine ⟨?_, heos⟩
        rw [hseq, length_append, length_singleton]
    · rw [show s.rx.stillActive = false from hno] at hactive
      cases hactive

theorem Inv.send {buf : IcPkt α} (hrun : s.tx.sendBuffer = some (tx, buf)) :
    Inv txDepth rxDepth (sent ++ [buf]) { s with tx := tx, data := buf :: s.data } := by
  unfold TxConn.sendBuffer at hrun
  split at hrun
  next buf' rest hsnd =>
    split at hrun
    next hcap =>
      obtain ⟨rfl, rfl⟩ := Prod.mk.inj (some.inj hrun)
      refine { h with
        split := ?_, unack := h.unack.append_right _, window := ?_
        data := forall_mem_cons.mpr ⟨mem_append_right _ (mem_singleton_self _), fun q hq =>
          mem_append_left _ (h.data q hq)⟩
        kept := forall_mem_append.mpr
          ⟨fun q hq => (h.kept q hq).imp_left fun hq => mem_append_left _ hq, fun q hq =>
            .inl (mem_append_right _ hq)⟩ }
      · rw [append_assoc, singleton_append, ← hsnd]
        exact h.split
      show s.tx.capacity - 1 + (sent ++ [buf']).length = txDepth + s.tx.consumedSeq
      have hwindow := h.window
      rw [length_append, length_singleton]
      omega
    · cases hrun
  · cases hrun

theorem Inv.resend (resent : List (IcPkt α)) (hresent : ∀ q ∈ resent, q ∈ sent) :
    Inv txDepth rxDepth sent { s with data := resent ++ s.data } :=
  { h with data := fun q hq => (mem_append.mp hq).elim (hresent q) (h.data q) }

theorem Inv.ackStep (hfew : s.Few) (ha : a ∈ s.acks) :
    TxConn.AckStep s.rx s.tx (s.tx.handleAck a) :=
  TxConn.handleAck_ok h.rx.toCore h.numbered hfew (h.acks a ha)
    ((h.numbered.sorted.sublist (h.split ▸ sublist_append_left sent _)).sublist h.unack)
    fun _ hq => (h.numbered.bounds (h.sent_queued (h.unack.subset hq))).1

theorem Inv.recvAck (hfew : s.Few) (ha : a ∈ s.acks) :
    Inv txDepth rxDepth sent { s with
      tx := (s.tx.handleAck a).1, data := (s.tx.handleAck a).2 ++ s.data } := by
  have hack := h.ackStep hfew ha
  generalize s.tx.handleAck a = r at hack ⊢
  have hqueued := hack.queued
  have hbase : Inv txDepth rxDepth sent { s with tx := r.1 } := by
    refine ⟨?_, ?_, ?_, hack.unack.trans h.unack, h.data, fun q hq => ?_, h.acks, ?_, ?_,
      fun hno => ?_, ?_, ?_, ?_, h.depth, h.room⟩
    · exact hqueued.symm ▸ h.numbered
    · rw [hack.seq, hqueued]
      exact h.seq
    · rw [hqueued, hack.sndQueue]
      exact h.split
    · -- what is taken out, the receiver has
      rcases h.kept q hq with hunack | hgot
      · by_cases hstay : q ∈ r.1.unackQueue
        · exact .inl hstay
        · obtain ⟨q', hgot, hseq⟩ := hack.freed q hunack hstay
          have hq' := h.rx.toCore.got_queued hgot
          exact .inr (h.numbered.inj hq' (h.sent_queued hq) hseq ▸ hgot)
      · exact .inr hgot
    · exact hqueued.symm ▸ h.rx
    · rw [hqueued, hack.eosSent]
      exact h.last
    · exact hack.eosSent.trans (h.ended hno)
    · exact hack.stopRequested.trans h.running
    · show r.1.capacity + sent.length = txDepth + r.1.consumedSeq
      have hcap := hack.capacity
      have hwindow := h.window
      omega
    · rcases hack.consumed_eq with heq | hle
      · exact heq.trans_le h.granted
      · exact hle
  exact hbase.resend r.2 fun q hq => h.unack.subset (hack.resent q hq)

theorem Inv.otherDisorderAck (extraSeq : Nat) :
    Inv txDepth rxDepth sent { s with tx := (s.tx.handleAckForDisorderPkt 0 extraSeq []).1 } := by
  obtain ⟨lastSeq, times, heq⟩ := s.tx.handleAckForDisorderPkt_nil 0 extraSeq
  rw [heq]
  exact { h with }

/-! ## Events of the receiver -/

theorem Inv.receiver (hrx : RxStep s.tx.queued s.rx r)
    (hactive : r.1.stillActive = false → s.tx.eosSent = true) (hroom : txDepth ≤ rxDepth →
    r.1.statCountDropped = 0) :
    Inv txDepth rxDepth sent { s with rx := r.1, acks := r.2.toList ++ s.acks } :=
  { h with
    kept := fun q hq => (h.kept q hq).imp_right (hrx.grows.got q), rx := hrx.inv, ended := hactive,
      room := hroom,
    acks := fun a ha => (mem_append.mp ha).elim (fun ha => hrx.acks a (mem_toList.mp ha)) fun ha =>
      (h.acks a ha).grows hrx.grows,
    granted := h.granted.trans hrx.grows.extraSeq, depth := hrx.capacity.trans h.depth }

theorem Inv.recvData (hfew : s.Few) {pkt : IcPkt α} (hpkt : pkt ∈ s.data) : Inv txDepth rxDepth sent
      { s with
        rx := (s.rx.handleDataPacket pkt).1, acks := (s.rx.handleDataPacket pkt).2.toList ++
          s.acks } := by
  have hqueued := h.sent_queued (h.data pkt hpkt)
  refine h.receiver (h.rx.handleDataPacket_ok h.numbered hfew hqueued)
    (fun hno => h.ended ?_) fun hdepth => ?_
  · rw [← RxConn.handleDataPacket_stillActive s.rx pkt]
    exact hno
  · rw [h.rx.handleDataPacket_room h.numbered hfew hqueued (h.data_window hdepth hpkt)]
    exact h.room hdepth

theorem Inv.put (hfew : s.Few) (hrun : s.rx.putRxBufferAndSendAck = some r) :
    Inv txDepth rxDepth sent { s with rx := r.1, acks := r.2.toList ++ s.acks } := by
  obtain ⟨hrx, hdropped⟩ := h.rx.putRxBufferAndSendAck_ok h.numbered hfew hrun
  refine h.receiver hrx (fun hno => h.ended ?_) fun hdepth => hdropped.trans (h.room hdepth)
  rw [← RxConn.putRxBufferAndSendAck_stillActive hrun]
  exact hno

theorem Inv.mainThread (hrx : RxConn.Inv s.tx.queued rx) (hgrows : RxConn.Grows s.rx rx)
    (hcap : rx.capacity = s.rx.capacity) (hdropped : rx.statCountDropped = s.rx.statCountDropped)
    (hactive : rx.stillActive = false → s.tx.eosSent = true) :
    Inv txDepth rxDepth sent { s with rx := rx } :=
  h.receiver (r := (rx, none)) ⟨hrx, hgrows, fun _ ha => (nomatch ha), hcap⟩ hactive fun hdepth =>
    hdropped.trans (h.room hdepth)

theorem Inv.prepare (hrun : s.rx.prepareRxConnForRead = some rx) :
    Inv txDepth rxDepth sent { s with rx := rx } := by
  obtain ⟨hrx, hgrows, hcap, hdropped⟩ := h.rx.prepareRxConnForRead_ok hrun
  refine h.mainThread hrx hgrows hcap hdropped fun hno => h.ended ?_
  rw [← RxConn.prepareRxConnForRead_stillActive hrun]
  exact hno

theorem Inv.markInactive (hrun : s.rx.markUDPConnInactive = some rx) :
    Inv txDepth rxDepth sent { s with rx := rx } := by
  obtain ⟨hrx, hgrows, hcap, hdropped, q, hq, heos⟩ :=
    h.rx.markUDPConnInactive_ok (fun q hq heos => (h.last q hq heos).1) hrun
  exact h.mainThread hrx hgrows hcap hdropped fun _ => (h.last q hq heos).2

theorem Inv.recvQuery (hfew : s.Few) :
    Inv txDepth rxDepth sent { s with acks := s.rx.handleStatusQuery :: s.acks } := by
  refine h.receiver (r := (s.rx, some s.rx.handleStatusQuery))
    ⟨h.rx, RxConn.Grows.refl _, fun a ha => ?_, rfl⟩ h.ended h.room
  exact some.inj ha ▸ h.rx.handleStatusQuery_ok hfew

end

/-! ## Runs -/

end Link

/-- The number of packets that an event queues. -/
def LinkEvent.queues : LinkEvent α → Nat
  | .queue _ _ => 1
  | _ => 0

/-- The number of packets that a run queues. -/
def queuedPackets (es : List (LinkEvent α)) : Nat := (es.map LinkEvent.queues).sum

namespace Link

variable {txDepth rxDepth : Nat} {sent : List (IcPkt α)} {s s' : Link α} [DecidableEq α]

theorem Inv.step (h : Inv txDepth rxDepth sent s) {e : LinkEvent α}
    (hfew : s.tx.queued.length + e.queues + 1 < 2 ^ 32) (hstep : s.step e = some s') :
    (∃ sent', Inv txDepth rxDepth sent' s') ∧
    s'.tx.queued.length = s.tx.queued.length + e.queues := by
  have hfew' : s.Few := by
    unfold Few
    omega
  cases e <;> rw [Link.step] at hstep
  case queue payload eos =>
    rw [if_pos (show s.tx.queued.length + 1 < 2 ^ 32 from hfew'), map_eq_some_iff] at hstep
    obtain ⟨tx, hrun, rfl⟩ := hstep
    exact ⟨⟨sent, h.queue hfew hrun⟩, TxConn.queuePacket_queued hrun⟩
  case send =>
    rw [map_eq_some_iff] at hstep
    obtain ⟨⟨tx, buf⟩, hrun, rfl⟩ := hstep
    exact ⟨⟨_, h.send hrun⟩, congrArg length (TxConn.sendBuffer_queued hrun)⟩
  case resend pkt =>
    split at hstep <;> cases hstep
    next hpkt =>
      exact ⟨⟨sent, h.resend [pkt] fun q hq => h.unack.subset (mem_singleton.mp hq ▸ hpkt)⟩, rfl⟩
  case statusQuery =>
    split at hstep <;> cases hstep
    · exact ⟨⟨sent, h.numbered, h.seq, h.split, h.unack, h.data, h.kept, h.acks, h.rx, h.last,
        h.ended, h.running, h.window, h.granted, h.depth, h.room⟩, rfl⟩
  case recvData pkt =>
    split at hstep
    next hpkt =>
      have hinv := h.recvData hfew' hpkt
      obtain rfl := some.inj hstep
      exact ⟨⟨sent, hinv⟩, rfl⟩
    · cases hstep
  case recvQuery =>
    split at hstep <;> cases hstep
    · exact ⟨⟨sent, h.recvQuery hfew'⟩, rfl⟩
  case recvAck ack =>
    split at hstep
    next hack =>
      have hinv := h.recvAck hfew' hack
      have hqueued := (h.ackStep hfew' hack).queued
      obtain rfl := some.inj hstep
      exact ⟨⟨sent, hinv⟩, congrArg length hqueued⟩
    · cases hstep
  case otherDisorderAck extraSeq =>
    obtain rfl := some.inj hstep
    obtain ⟨lastSeq, times, heq⟩ := s.tx.handleAckForDisorderPkt_nil 0 extraSeq
    refine ⟨⟨sent, h.otherDisorderAck extraSeq⟩, ?_⟩
    rw [heq]
    rfl
  case prepare =>
    rw [map_eq_some_iff] at hstep
    obtain ⟨rx, hrun, rfl⟩ := hstep
    exact ⟨⟨sent, h.prepare hrun⟩, rfl⟩
  case markInactive =>
    rw [map_eq_some_iff] at hstep
    obtain ⟨rx, hrun, rfl⟩ := hstep
    exact ⟨⟨sent, h.markInactive hrun⟩, rfl⟩
  case put =>
    rw [map_eq_some_iff] at hstep
    obtain ⟨r, hrun, rfl⟩ := hstep
    exact ⟨⟨sent, h.put hfew' hrun⟩, rfl⟩

theorem Inv.run (es : List (LinkEvent α)) {sent : List (IcPkt α)} {s s' : Link α}
    (h : Inv txDepth rxDepth sent s) (hfew : s.tx.queued.length + queuedPackets es + 1 < 2 ^ 32)
    (hrun : runSteps Link.step es s = some s') :
    (∃ sent', Inv txDepth rxDepth sent' s') ∧ s'.Few := by
  induction es generalizing sent s s' with
  | nil =>
    obtain rfl := some.inj hrun
    exact ⟨⟨sent, h⟩, hfew⟩
  | cons e es ih =>
    rw [runSteps, bind_eq_some_iff] at hrun
    obtain ⟨s₁, he, hrest⟩ := hrun
    have hsum : queuedPackets (e :: es) = e.queues + queuedPackets es := sum_cons
    obtain ⟨⟨sent₁, h₁⟩, hlen⟩ := h.step (by omega) he
    exact ih h₁ (by omega) hrest

theorem run_inv (hdepth : 1 ≤ rxDepth) {es : List (LinkEvent α)}
    (hfew : queuedPackets es + 1 < 2 ^ 32)
    (hrun : runSteps step es (init txDepth rxDepth) = some s) :
    (∃ sent, Inv txDepth rxDepth sent s) ∧ s.Few :=
  (Inv.init hdepth).run es ((Nat.zero_add (queuedPackets es)).symm ▸ hfew) hrun

/-! ## Delivery -/

omit [DecidableEq α] in
theorem got_iff {c : RxConn α} {q : IcPkt α} : c.Got q ↔ some q ∈ c.pktQ ∨ q ∈ c.consumed := by
  unfold RxConn.Got
  rw [some_mem_iff]

/-- Packets are consumed in order, and none is lost. -/
structure Delivered (s : Link α) : Prop where
  inOrder : s.rx.consumed <+: s.tx.queued
  kept : ∀ q ∈ s.tx.queued, q ∉ s.rx.consumed → q ∈ s.tx.sndQueue ∨ q ∈ s.tx.unackQueue ∨
    some q ∈ s.rx.pktQ
  freed : ∀ a ∈ s.acks, ∀ q ∈ s.tx.unackQueue, q ∉ (s.tx.handleAck a).1.unackQueue →
    some q ∈ s.rx.pktQ ∨ q ∈ s.rx.consumed

omit [DecidableEq α] in
theorem Inv.delivered (h : Inv txDepth rxDepth sent s) (hfew : s.Few) : Delivered s := by
  refine ⟨?_, fun q hq hno => ?_, fun a ha q hq hno => ?_⟩
  · rw [h.rx.consumed]
    exact ⟨_, take_append_drop _ _⟩
  · rw [h.split] at hq
    rcases mem_append.mp hq with hq | hq
    · rcases h.kept q hq with hq | hgot
      · exact .inr (.inl hq)
      · exact .inr (.inr ((got_iff.mp hgot).resolve_right hno))
    · exact .inl hq
  · obtain ⟨q', hgot, hseq⟩ := (h.ackStep hfew ha).freed q hq hno
    have hsame := h.numbered.inj (h.rx.toCore.got_queued hgot) (h.sent_queued (h.unack.subset hq))
      hseq
    exact got_iff.mp (hsame ▸ hgot)

/-- **Delivery**: in every run with at most 2^32 - 2 packets the receiver consumes a prefix of what
was queued, and what it has not consumed is still in a queue. -/
theorem udp_delivers_in_order (txDepth rxDepth : Nat) (hdepth : 1 ≤ rxDepth)
    (es : List (LinkEvent α)) (s : Link α) (hfew : queuedPackets es + 1 < 2 ^ 32)
    (hrun : runSteps step es (init txDepth rxDepth) = some s) : Delivered s := by
  obtain ⟨⟨sent, hinv⟩, hfew'⟩ := run_inv hdepth hfew hrun
  exact hinv.delivered hfew'

/-- A run in which the second packet is lost, the third one comes before it and twice, and the
sender is told three times. -/
def lossyRun : List (LinkEvent Nat) :=
  [.queue 10 false, .queue 11 false, .queue 12 false, .queue 13 true, .send,
    .recvData ⟨1, false, 10⟩, .recvAck (.plain false 1 0), .send,
    .send, .recvData ⟨3, false, 12⟩, .recvData ⟨3, false, 12⟩, .recvAck (.disorder 3 1 [2]),
    .recvAck (.disorder 3 1 [2]), .recvAck (.disorder 3 1 [2]), .recvAck (.disorder 3 1 [2]),
    .recvData ⟨2, false, 11⟩, .prepare, .put, .prepare, .put,
    .recvAck (.plain false 3 2), .send, .recvData ⟨1, false, 10⟩]

theorem udp_delivers_lossyRun : ∃ s, runSteps step lossyRun (init 3 3) = some s ∧
    s.rx.consumed.length = 2 ∧ Delivered s := by
  obtain ⟨s, hrun, hlen⟩ : ∃ s, runSteps step lossyRun (init 3 3) = some s ∧
      s.rx.consumed.length = 2 :=
    runSteps_exists (by decide +kernel)
  exact ⟨s, hrun, hlen, udp_delivers_in_order 3 3 (by decide) lossyRun s (by decide +kernel) hrun⟩

/-! ## The window -/

/-- No packet comes when the queue is full, none is taken for another one, and the tail is where the
expected number says. -/
structure Windowed (s : Link α) : Prop where
  room : s.rx.statCountDropped = 0
  kept : ∀ pkt ∈ s.data, ∀ i q, slot s.rx.pktQ i = some q →
    slot (s.rx.handleDataPacket pkt).1.pktQ i = some q
  hit : ∀ pkt ∈ s.data, s.rx.seq ≤ pkt.seq →
    ∀ q, slot s.rx.pktQ (sub32 pkt.seq 1 % s.rx.capacity) = some q → q.seq = pkt.seq
  tail : s.rx.pktQTail = sub32 s.rx.seq 1 % s.rx.capacity

omit [DecidableEq α] in
theorem Inv.windowed (h : Inv txDepth rxDepth sent s) (hfew : s.Few) (hdepth : txDepth ≤ rxDepth) :
    Windowed s := by
  have hsize := h.rx.size
  have hseqle := h.rx.seq_le
  unfold Few at hfew
  refine ⟨h.room hdepth, fun pkt _ i q hq => RxConn.handleDataPacket_slot hq,
    fun pkt hpkt hge q hq => ?_, ?_⟩
  · obtain ⟨hone, hbound⟩ := h.numbered.bounds (h.sent_queued (h.data pkt hpkt))
    rw [sub32_eq hone (by omega)] at hq
    exact h.rx.toCore.slot_seq (by omega) (h.data_window hdepth hpkt) hq
  · rw [sub32_eq (by omega) (by omega)]
    exact h.rx.tail

/-- **The window**: with the same queue depth at both ends, in every run with at most 2^32 - 2
packets, no packet comes when the queue is full and no slot is taken by another packet. -/
theorem udp_window_safe (queueDepth : Nat) (hdepth : 1 ≤ queueDepth) (es : List (LinkEvent α))
    (s : Link α) (hfew : queuedPackets es + 1 < 2 ^ 32)
    (hrun : runSteps step es (init queueDepth queueDepth) = some s) : Windowed s := by
  obtain ⟨⟨sent, hinv⟩, hfew'⟩ := run_inv hdepth hfew hrun
  exact hinv.windowed hfew' le_rfl

theorem udp_window_lossyRun : ∃ s, runSteps step lossyRun (init 3 3) = some s ∧ s.data.length = 5 ∧
    Windowed s := by
  obtain ⟨s, hrun, hlen⟩ : ∃ s, runSteps step lossyRun (init 3 3) = some s ∧ s.data.length = 5 :=
    runSteps_exists (by decide +kernel)
  exact ⟨s, hrun, hlen, udp_window_safe 3 (by decide) lossyRun s (by decide +kernel) hrun⟩

end Link

end PolemoDB.Motion
