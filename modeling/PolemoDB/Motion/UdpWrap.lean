import PolemoDB.Motion.UdpReliable

/-!
# The last packet number of the UDP interconnect

A stream of 2^32 - 1 packets, which uses every number but zero, is one too many: when the receiver
has got the last one, it expects number zero, and no packet is an old one any more.

* `Lockstep` — the connection after packets that were sent and consumed one by one;
* `udp_consumes_twice`, `udp_drops_at_wrap` — a packet of the beginning of the stream that comes
  once more.
-/

namespace PolemoDB.Motion

open PolemoDB.Lib List Option Link RxConn Nat

/-! ## Events that are enabled -/

section Enabled

universe u

variable {α : Type u} [DecidableEq α] {s : Link α}

variable {tx : TxConn α} {rx : RxConn α}

theorem Link.step_queue {payload : α} {eos : Bool} (hfew : s.Few)
    (hrun : s.tx.queuePacket payload eos = some tx) :
    s.step (.queue payload eos) = some { s with tx := tx } := by
  unfold Few at hfew
  rw [step, if_pos hfew, hrun, map_some]

theorem Link.step_send {buf : IcPkt α} (hrun : s.tx.sendBuffer = some (tx, buf)) :
    s.step .send = some { s with tx := tx, data := buf :: s.data } := by
  rw [step, hrun, map_some]

theorem Link.step_recvData {pkt : IcPkt α} {a : Option IcAck} (hpkt : pkt ∈ s.data)
    (hrun : s.rx.handleDataPacket pkt = (rx, a)) :
    s.step (.recvData pkt) = some { s with rx := rx, acks := a.toList ++ s.acks } := by
  rw [step, if_pos hpkt, hrun]

theorem Link.step_recvAck {ack : IcAck} {r : List (IcPkt α)} (hack : ack ∈ s.acks)
    (hrun : s.tx.handleAck ack = (tx, r)) :
    s.step (.recvAck ack) = some { s with tx := tx, data := r ++ s.data } := by
  rw [step, if_pos hack, hrun]

theorem Link.step_prepare (hrun : s.rx.prepareRxConnForRead = some rx) :
    s.step .prepare = some { s with rx := rx } := by
  rw [step, hrun, map_some]

theorem Link.step_put {ack : Option IcAck} (hrun : s.rx.putRxBufferAndSendAck = some (rx, ack)) :
    s.step .put = some { s with rx := rx, acks := ack.toList ++ s.acks } := by
  rw [step, hrun, map_some]

end Enabled

/-! ## One packet at a time -/

section Ring

universe u

variable {α : Type u}

variable {d t n extraSeq head : Nat} {consumed : List (IcPkt α)} {pkt : IcPkt α}

theorem RxConn.store_only (headSeq : Nat) (hd : 2 ≤ d) (ht : t < d) :
    store ⟨List.replicate d none, 0, head, t, n, extraSeq, none, true, 0, consumed⟩ pkt t headSeq =
      (⟨(List.replicate d none).set t (some pkt), 1, head, (t + 1) % d, next32 n, extraSeq, none,
        true, 0, consumed⟩, some (.plain false (sub32 (next32 n) 1) extraSeq)) := by
  have hlen : ((replicate d none).set t (some pkt)).length = d := by
    rw [length_set, length_replicate]
  have hslot : slot ((replicate d none).set t (some pkt)) t = some pkt :=
    slot_set_self (by rw [length_replicate]; exact ht) _
  have hnext : (t + 1) % d ≠ t := by
    rcases lt_or_ge (t + 1) d with hlt | hge
    · rw [mod_eq_of_lt hlt]
      omega
    · rw [show t + 1 = d by omega, mod_self]
      omega
  have hempty : slot ((replicate d none).set t (some pkt)) ((t + 1) % d) = none :=
    (slot_set_ne hnext.symm _).trans (slot_replicate d _)
  unfold store
  generalize (replicate d none).set t (some pkt) = pktQ at *
  rw [if_pos rfl]
  have hmove : moveTail d ⟨pktQ, 0, head, t, n, extraSeq, none, true, 0, consumed⟩ =
      ⟨pktQ, 1, head, (t + 1) % d, next32 n, extraSeq, none, true, 0, consumed⟩ := by
    obtain ⟨k, rfl⟩ : ∃ k, d = k + 2 := ⟨d - 2, by omega⟩
    rw [moveTail, if_pos ⟨fun h => some_ne_none _ (hslot.symm.trans h),
      show 0 < pktQ.length from hlen.symm ▸ succ_pos _⟩, moveTail, capacity,
      hlen, if_neg (fun h => h.1 hempty)]
  rw [capacity, hlen, hmove]

theorem RxConn.handleDataPacket_only (hd : 2 ≤ d) (ht : t < d)
    (hn : 1 ≤ n) (hn' : n < 2 ^ 32) (hpkt : pkt.seq = n) (hpos : (n - 1) % d = t) :
    handleDataPacket ⟨List.replicate d none, 0, head, t, n, extraSeq, none, true, 0, consumed⟩ pkt =
      (⟨(List.replicate d none).set t (some pkt), 1, head, (t + 1) % d, next32 n, extraSeq, none,
        true, 0, consumed⟩, some (.plain false (sub32 (next32 n) 1) extraSeq)) := by
  have hsub : sub32 n n = 0 := by
    unfold sub32
    omega
  have hzero : sub32 n 0 = n := by rw [sub32_eq (Nat.zero_le n) hn', Nat.sub_zero]
  have hone : sub32 n 1 = n - 1 := sub32_eq hn hn'
  rw [← store_only n hd ht]
  unfold handleDataPacket
  rw [hpkt]
  dsimp only
  rw [hzero, hsub, hone, capacity, length_replicate, hpos, if_neg (lt_irrefl n), if_neg nofun,
    if_neg (by omega), slot_replicate]

end Ring

theorem sub32_next32 {n : Nat} (hn : n < 2 ^ 32) : sub32 (next32 n) 1 = n := by
  unfold sub32 next32
  omega

/-- A packet of a stream without an end. -/
def dataPkt (n : Nat) : IcPkt Unit := ⟨n, false, ()⟩

variable (m : Nat)

/-- The first packets of the stream. -/
def packets : List (IcPkt Unit) := (List.range m).map fun i => dataPkt (i + 1)

theorem packets_succ : packets (m + 1) = packets m ++ [dataPkt (m + 1)] := by
  unfold packets
  rw [range_succ, map_append]
  rfl

/-- The sender, when all is acknowledged. -/
def lockstepTx : TxConn Unit :=
  ⟨next32 m, [], [], 2, m - 1, m, m, false, false, false, 0, 0, packets m⟩

/-- The receiver, when all is consumed. -/
def lockstepRx : RxConn Unit :=
  ⟨List.replicate 3 none, 0, m % 3, m % 3, next32 m, m, none, true, 0, packets m⟩

/-- The connection after `m` packets, which were sent and consumed one by one, with queues of three.
-/
structure Lockstep (s : Link Unit) : Prop where
  tx : s.tx = lockstepTx m
  rx : s.rx = lockstepRx m
  data : ∀ n, 1 ≤ n → n ≤ m → dataPkt n ∈ s.data

/-- A packet is queued, sent, received, acknowledged and consumed. -/
def lockstepCycle : List (LinkEvent Unit) :=
  [.queue () false, .send, .recvData (dataPkt (m + 1)), .recvAck (.plain false (m + 1) m), .prepare,
  .put]

/-- The sender with a packet that is not acknowledged. -/
def waitingTx : TxConn Unit :=
  ⟨next32 (m + 1), [], [dataPkt (m + 1)], 1, m - 1, m, m + 1, false, false, false, 0, 0,
  packets (m + 1)⟩

variable {m : Nat} (extraSeq : Nat) (consumed : List (IcPkt Unit))

theorem lockstepTx_send (hlt : m + 1 < 2 ^ 32) :
    ∃ tx, (lockstepTx m).queuePacket () false = some tx ∧
    tx.sendBuffer = some (waitingTx m, dataPkt (m + 1)) := by
  refine ⟨⟨next32 (m + 1), [dataPkt (m + 1)], [], 2, m - 1, m, m, false, false, false, 0, 0,
    packets (m + 1)⟩, ?_, rfl⟩
  unfold TxConn.queuePacket lockstepTx
  rw [next32_eq hlt, packets_succ]
  rfl

theorem waitingTx_ack (hm : 1 ≤ m) (hlt : m + 1 < 2 ^ 32) :
    (waitingTx m).handleAck (.plain false (m + 1) m) = (lockstepTx (m + 1), []) := by
  have hgrant : (waitingTx m).grant m =
      ⟨next32 (m + 1), [], [dataPkt (m + 1)], 2, m, m, m + 1, false, false, false, 0, 0,
      packets (m + 1)⟩ := by
    unfold TxConn.grant waitingTx
    dsimp only
    rw [if_pos (by omega), sub32_eq (by omega) (by omega), show 1 + (m - (m - 1)) = 2 by omega]
  have hnostop : ¬(false = true ∧ (!false) = true) := fun h => Bool.false_ne_true h.1
  have hnot : ¬(dataPkt (m + 1)).seq = 1 := fun h => by
    have h' : m + 1 = 1 := h
    omega
  rw [TxConn.handleAck, hgrant]
  dsimp only
  rw [if_neg (by omega), if_neg hnostop]
  dsimp only
  rw [if_neg (by omega), TxConn.ackUpTo, if_pos (show (dataPkt (m + 1)).seq ≤ m + 1 from le_rfl),
    TxConn.ackUpTo, TxConn.ackedPacket]
  rw [eraseP_cons_of_pos (by rw [decide_eq_true_eq]),
    if_pos (show Option.map IcPkt.seq [dataPkt (m + 1)].head? =
    some (dataPkt (m + 1)).seq from rfl), if_neg hnot]
  rfl

theorem lockstepRx_receive (hlt : m + 1 < 2 ^ 32) : ∃ rx rx' ack,
    (lockstepRx m).handleDataPacket (dataPkt (m + 1)) = (rx, some (.plain false (m + 1) m)) ∧
      rx.prepareRxConnForRead = some rx' ∧
      rx'.putRxBufferAndSendAck = some (lockstepRx (m + 1), ack) := by
  have hrecv := @RxConn.handleDataPacket_only Unit 3 (m % 3) (m + 1) m (m % 3) (packets m)
    (dataPkt (m + 1)) (by decide) (mod_lt m (by decide)) (le_add_left 1 m) hlt rfl rfl
  have hslot : slot ((replicate 3 none).set (m % 3) (some (dataPkt (m + 1)))) (m % 3) =
      some (dataPkt (m + 1)) :=
    slot_set_self (mod_lt m (by decide)) _
  have hlen : ((replicate 3 none).set (m % 3) (some (dataPkt (m + 1)))).length = 3 := by
    rw [length_set, length_replicate]
  have hclear : ((replicate 3 none).set (m % 3) (some (dataPkt (m + 1)))).set (m % 3) none =
      replicate 3 none := by
    rw [set_set, set_replicate_self]
  generalize (replicate 3 none).set (m % 3) (some (dataPkt (m + 1))) = pktQ at *
  rw [sub32_next32 hlt] at hrecv
  refine ⟨⟨pktQ, 1, m % 3, (m % 3 + 1) % 3, next32 (m + 1), m, none, true, 0, packets m⟩,
    ⟨pktQ, 1, m % 3, (m % 3 + 1) % 3, next32 (m + 1), m, some (dataPkt (m + 1)), true, 0,
    packets m⟩, ?_⟩
  have hput : ∃ ack, putRxBufferAndSendAck
      ⟨pktQ, 1, m % 3, (m % 3 + 1) % 3, next32 (m + 1), m, some (dataPkt (m + 1)), true, 0,
        packets m⟩ = some (lockstepRx (m + 1), ack) := by
    unfold putRxBufferAndSendAck
    rw [hslot]
    rw [hclear, capacity, hlen, mod_add_mod, lockstepRx, packets_succ]
    exact ⟨_, rfl⟩
  obtain ⟨ack, hput⟩ := hput
  refine ⟨ack, ?_, ?_, hput⟩
  · unfold lockstepRx
    rw [next32_eq hlt]
    exact hrecv
  · unfold prepareRxConnForRead
    rw [hslot]

theorem Lockstep.cycle {s : Link Unit} (h : Lockstep m s) (hm : 1 ≤ m) (hlt : m + 1 < 2 ^ 32) :
    ∃ s', runSteps step (lockstepCycle m) s = some s' ∧ Lockstep (m + 1) s' := by
  obtain ⟨tx, rx, data, acks, query⟩ := s
  obtain ⟨rfl, rfl, hdata⟩ := h
  obtain ⟨tx, hqueue, hsend⟩ := lockstepTx_send hlt
  have hack := waitingTx_ack hm hlt
  obtain ⟨rx, rx', ack, hrecv, hprepare, hput⟩ := lockstepRx_receive hlt
  have hfew : (packets m).length + 1 < 2 ^ 32 := by rwa [packets, length_map, length_range]
  refine ⟨⟨lockstepTx (m + 1), lockstepRx (m + 1), dataPkt (m + 1) :: data, ack.toList ++
    .plain false (m + 1) m :: acks, query⟩, ?_, rfl, rfl, fun n hn hle => ?_⟩
  · have h₁ : step ⟨lockstepTx m, lockstepRx m, data, acks, query⟩ (.queue () false) =
        some ⟨tx, lockstepRx m, data, acks, query⟩ :=
      step_queue hfew hqueue
    have h₂ : step ⟨tx, lockstepRx m, data, acks, query⟩ .send =
        some ⟨waitingTx m, lockstepRx m, dataPkt (m + 1) :: data, acks, query⟩ := step_send hsend
    have h₃ : step ⟨waitingTx m, lockstepRx m, dataPkt (m + 1) :: data, acks, query⟩
        (.recvData (dataPkt (m + 1))) =
        some ⟨waitingTx m, rx, dataPkt (m + 1) :: data, .plain false (m + 1) m :: acks, query⟩ :=
      step_recvData (a := some (.plain false (m + 1) m)) mem_cons_self hrecv
    have h₄ : step ⟨waitingTx m, rx, dataPkt (m + 1) :: data, .plain false (m + 1) m :: acks, query⟩
        (.recvAck (.plain false (m + 1) m)) =
        some ⟨lockstepTx (m + 1), rx, dataPkt (m + 1) :: data, .plain false (m + 1) m :: acks,
        query⟩ :=
      step_recvAck (r := []) mem_cons_self hack
    have h₅ : step ⟨lockstepTx (m + 1), rx, dataPkt (m + 1) :: data, .plain false (m + 1) m :: acks,
        query⟩ .prepare = some ⟨lockstepTx (m + 1), rx', dataPkt (m + 1) :: data,
        .plain false (m + 1) m :: acks, query⟩ := step_prepare hprepare
    have h₆ : step ⟨lockstepTx (m + 1), rx', dataPkt (m + 1) :: data,
        .plain false (m + 1) m :: acks, query⟩ .put =
        some ⟨lockstepTx (m + 1), lockstepRx (m + 1), dataPkt (m + 1) :: data, ack.toList ++
        .plain false (m + 1) m :: acks, query⟩ :=
      step_put hput
    unfold lockstepCycle
    rw [runSteps, h₁, bind_some, runSteps, h₂, bind_some, runSteps, h₃, bind_some, runSteps, h₄,
      bind_some, runSteps, h₅, bind_some, runSteps, h₆, bind_some, runSteps]
  · rcases lt_or_eq_of_le hle with hlt' | rfl
    · exact mem_cons_of_mem _ (hdata n hn (le_of_lt_succ hlt'))
    · exact mem_cons_self

/-- The packets one by one. -/
def lockstepRun (m : Nat) : List (LinkEvent Unit) := (List.range m).flatMap lockstepCycle

theorem lockstepRun_succ (m : Nat) : lockstepRun (m + 1) = lockstepRun m ++ lockstepCycle m := by
  unfold lockstepRun
  rw [range_succ, flatMap_append, flatMap_singleton]

theorem queuedPackets_append {es es' : List (LinkEvent Unit)} :
    queuedPackets (es ++ es') = queuedPackets es + queuedPackets es' := by
  unfold queuedPackets
  rw [map_append, sum_append_nat]

theorem queuedPackets_lockstepRun (m : Nat) : queuedPackets (lockstepRun m) = m := by
  induction m with
  | zero => rfl
  | succ m ih =>
    rw [lockstepRun_succ, queuedPackets_append, ih]
    rfl

/-- **One by one**: up to 2^32 - 1 packets come through. -/
theorem lockstepRun_ok (m : Nat) (hm : 1 ≤ m) : m < 2 ^ 32 →
    ∃ s, runSteps step (lockstepRun m) (init 3 3) = some s ∧ Lockstep m s := by
  induction m, hm using le_induction with
  | base =>
    intro _
    refine ⟨⟨lockstepTx 1, lockstepRx 1, [dataPkt 1], [.plain false 1 0], false⟩, by decide, rfl,
      rfl, fun n hn hle => ?_⟩
    rw [le_antisymm hle hn]
    exact mem_singleton_self _
  | succ m hm ih =>
    intro hlt
    obtain ⟨s, hrun, hs⟩ := ih (by omega)
    obtain ⟨s', hcycle, hs'⟩ := hs.cycle hm hlt
    refine ⟨s', ?_, hs'⟩
    rw [lockstepRun_succ, runSteps_append, hrun]
    exact hcycle

/-! ## One packet too many -/

/-- The receiver that has got the last number and expects number zero. -/
def wrappedRx (consumed : List (IcPkt Unit)) : RxConn Unit :=
  ⟨List.replicate 3 none, 0, 0, 0, 0, extraSeq, none, true, 0, consumed⟩

theorem wrappedRx_third : (wrappedRx extraSeq consumed).handleDataPacket (dataPkt 3) =
    ({ wrappedRx extraSeq consumed with statCountDropped := 1 }, none) := by
  have hhead : sub32 0 0 = 0 := by
    unfold sub32
    omega
  have hoff : sub32 3 0 = 3 := sub32_eq (zero_le 3) (by omega)
  unfold handleDataPacket wrappedRx dataPkt
  dsimp only
  rw [if_neg (not_lt_zero 3), if_neg nofun, hhead, hoff, if_pos (.inr (show 3 ≤ 3 from le_rfl))]

theorem wrappedRx_first : ∃ rx rx' rx'' ack ack',
    (wrappedRx extraSeq consumed).handleDataPacket (dataPkt 1) = (rx, ack) ∧
      rx.prepareRxConnForRead = some rx' ∧ rx'.putRxBufferAndSendAck = some (rx'', ack') ∧
      rx''.consumed = consumed ++ [dataPkt 1] := by
  have hhead : sub32 0 0 = 0 := by
    unfold sub32
    omega
  have hoff : sub32 1 0 = 1 := sub32_eq (zero_le 1) (by omega)
  have hpos : sub32 1 1 = 0 := sub32_eq le_rfl (by omega)
  have hrecv : (wrappedRx extraSeq consumed).handleDataPacket (dataPkt 1) =
      (wrappedRx extraSeq consumed).store (dataPkt 1) 0 0 := by
    unfold handleDataPacket wrappedRx dataPkt
    dsimp only
    rw [if_neg (not_lt_zero 1), if_neg nofun, hhead, hoff, hpos, capacity, length_replicate,
      if_neg (by omega), zero_mod, slot_replicate]
  rw [hrecv, wrappedRx, store_only 0 (by decide) (by decide)]
  exact ⟨_, _, _, _, _, rfl, rfl, rfl, rfl⟩

section

variable (hm : m + 1 = 2 ^ 32)
include hm

theorem lockstepRun_last : ∃ s, runSteps step (lockstepRun m) (init 3 3) = some s ∧
    s.tx.queued = packets m ∧ s.rx = wrappedRx m (packets m) ∧ ∀ n, 1 ≤ n → n ≤ 3 →
    dataPkt n ∈ s.data := by
  obtain ⟨s, hrun, hs⟩ := lockstepRun_ok m (by omega) (by omega)
  refine ⟨s, hrun, congrArg TxConn.queued hs.tx, ?_,
    fun n hn hle => hs.data n hn (hle.trans (by omega))⟩
  have hmod : m % 3 = 0 := by omega
  have hnext : next32 m = 0 := by
    unfold next32
    omega
  rw [hs.rx, lockstepRx, hmod, hnext, wrappedRx]

theorem queuedPackets_last (es : List (LinkEvent Unit))
    (hes : queuedPackets es = 0) : queuedPackets (lockstepRun m ++ es) < 2 ^ 32 := by
  rw [queuedPackets_append, queuedPackets_lockstepRun, hes]
  omega

theorem lockstepRun_consumes_twice : ∃ s,
    runSteps step (lockstepRun m ++ [.recvData (dataPkt 1), .prepare, .put]) (init 3 3) = some s ∧
      s.rx.consumed = s.tx.queued ++ [dataPkt 1] := by
  obtain ⟨⟨tx, rx, data, acks, query⟩, hrun, hqueued, hrx, hdata⟩ := lockstepRun_last hm
  obtain ⟨rx₁, rx₂, rx₃, ack, ack', hrecv, hprepare, hput, hconsumed⟩ :=
    wrappedRx_first m (packets m)
  rw [← hrx] at hrecv
  rw [← hqueued] at hconsumed
  have h₁ : step ⟨tx, rx, data, acks, query⟩ (.recvData (dataPkt 1)) =
      some ⟨tx, rx₁, data, ack.toList ++ acks, query⟩ :=
    step_recvData (hdata 1 (by decide) (by decide)) hrecv
  have h₂ : step ⟨tx, rx₁, data, ack.toList ++ acks, query⟩ .prepare =
      some ⟨tx, rx₂, data, ack.toList ++ acks, query⟩ :=
    step_prepare hprepare
  have h₃ : step ⟨tx, rx₂, data, ack.toList ++ acks, query⟩ .put =
      some ⟨tx, rx₃, data, ack'.toList ++ (ack.toList ++ acks), query⟩ := step_put hput
  refine ⟨⟨tx, rx₃, data, ack'.toList ++ (ack.toList ++ acks), query⟩, ?_, hconsumed⟩
  rw [runSteps_append, hrun, bind_some, runSteps, h₁, bind_some, runSteps, h₂, bind_some, runSteps,
    h₃, bind_some, runSteps]

theorem lockstepRun_drops : ∃ s,
    runSteps step (lockstepRun m ++ [.recvData (dataPkt 3)]) (init 3 3) = some s ∧
    s.rx.statCountDropped = 1 := by
  obtain ⟨⟨tx, rx, data, acks, query⟩, hrun, -, hrx, hdata⟩ := lockstepRun_last hm
  have hrecv := wrappedRx_third m (packets m)
  rw [← hrx] at hrecv
  have hstep : step ⟨tx, rx, data, acks, query⟩ (.recvData (dataPkt 3)) =
      some ⟨tx, { rx with statCountDropped := 1 }, data, acks, query⟩ :=
    step_recvData (a := none) (hdata 3 (by decide) (by decide)) hrecv
  refine ⟨⟨tx, { rx with statCountDropped := 1 }, data, acks, query⟩, ?_, rfl⟩
  rw [runSteps_append, hrun, bind_some, runSteps, hstep, bind_some, runSteps]

end

/-- With 2^32 - 1 packets: when the first one comes once more, it is consumed a second time. -/
theorem udp_consumes_twice : ∃ (m : Nat) (s : Link Unit),
    queuedPackets (lockstepRun m ++ [.recvData (dataPkt 1), .prepare, .put]) < 2 ^ 32 ∧
    runSteps step (lockstepRun m ++ [.recvData (dataPkt 1), .prepare, .put]) (init 3 3) = some s ∧
    s.rx.consumed = s.tx.queued ++ [dataPkt 1] ∧ ¬ Link.Delivered s := by
  obtain ⟨m, hm⟩ : ∃ m, m + 1 = 2 ^ 32 := ⟨2 ^ 32 - 1, rfl⟩
  obtain ⟨s, hrun, hconsumed⟩ := lockstepRun_consumes_twice hm
  refine ⟨m, s, queuedPackets_last hm _ rfl, hrun, hconsumed, fun hno => ?_⟩
  have hlen := hno.inOrder.length_le
  rw [hconsumed, length_append, length_singleton] at hlen
  exact absurd hlen (not_succ_le_self _)

/-- With 2^32 - 1 packets: when the third one comes once more, the queue is full for it. -/
theorem udp_drops_at_wrap :
    ∃ (m : Nat) (s : Link Unit), queuedPackets (lockstepRun m ++ [.recvData (dataPkt 3)]) < 2 ^ 32 ∧
    runSteps step (lockstepRun m ++ [.recvData (dataPkt 3)]) (init 3 3) = some s ∧
    s.rx.statCountDropped = 1 ∧ ¬ Windowed s := by
  obtain ⟨m, hm⟩ : ∃ m, m + 1 = 2 ^ 32 := ⟨2 ^ 32 - 1, rfl⟩
  obtain ⟨s, hrun, hdropped⟩ := lockstepRun_drops hm
  refine ⟨m, s, queuedPackets_last hm _ rfl, hrun, hdropped, fun hno => ?_⟩
  rw [hno.room] at hdropped
  cases hdropped

end PolemoDB.Motion
