import PolemoDB.Motion.UdpConn

/-!
# The receiver of the UDP interconnect

With fewer than 2^32 - 1 packets no number wraps around.  Then the ring has the packets of a window
behind the last one that was consumed, and the packets up to the tail are all there.

* `RxConn.Core`, `RxConn.Inv` — what is known of the receiver;
* `AckOk` — what an acknowledgement says about the receiver; this stays true as the receiver goes on
  (`RxConn.Grows`);
* `handleDataPacket_ok`, `putRxBufferAndSendAck_ok` — what the receiver does keeps that.
-/

namespace PolemoDB.Motion

open PolemoDB.Lib List Option RxConn Nat

universe u

variable {α : Type u}

theorem sub32_eq {a b : Nat} (hb : b ≤ a) (ha : a < 2 ^ 32) : sub32 a b = a - b := by
  unfold sub32
  omega

theorem next32_eq {a : Nat} (ha : a + 1 < 2 ^ 32) : next32 a = a + 1 := mod_eq_of_lt ha

/-- The packets are numbered from one. -/
def Numbered (queued : List (IcPkt α)) : Prop := ∀ (k : Nat) q, queued[k]? = some q → q.seq = k + 1

namespace Numbered

variable {queued : List (IcPkt α)} {q q' : IcPkt α}

section

variable (h : Numbered queued)
include h

theorem bounds (hq : q ∈ queued) : 1 ≤ q.seq ∧ q.seq ≤ queued.length := by
  obtain ⟨k, hk⟩ := mem_iff_getElem?.mp hq
  have hlt := (List.getElem?_eq_some_iff.mp hk).1
  rw [h k q hk]
  omega

theorem at_seq (hq : q ∈ queued) : queued[q.seq - 1]? = some q := by
  obtain ⟨k, hk⟩ := mem_iff_getElem?.mp hq
  rw [h k q hk, Nat.add_sub_cancel]
  exact hk

theorem inj (hq : q ∈ queued) (hq' : q' ∈ queued) (heq : q.seq = q'.seq) : q = q' := by
  have hat := h.at_seq hq
  rw [heq, h.at_seq hq', some.injEq] at hat
  exact hat.symm

theorem exists_seq {n : Nat} (h1 : 1 ≤ n) (hn : n ≤ queued.length) : ∃ q ∈ queued, q.seq = n := by
  have hlt : n - 1 < queued.length := by omega
  refine ⟨queued[n - 1], getElem_mem hlt, ?_⟩
  rw [h (n - 1) _ (getElem?_eq_getElem hlt)]
  omega

theorem concat (hq : q.seq = queued.length + 1) : Numbered (queued ++ [q]) := by
  intro k x hx
  rcases lt_trichotomy k queued.length with hk | hk | hk
  · rw [getElem?_append_left hk] at hx
    exact h k x hx
  · rw [hk, getElem?_concat_length, some.injEq] at hx
    rw [← hx, hq, hk]
  · rw [getElem?_eq_none (by rw [length_append, length_singleton]; omega)] at hx
    cases hx

end

end Numbered

namespace RxConn

variable {queued : List (IcPkt α)} {c c' c'' : RxConn α} {pkt : IcPkt α}

/-- The receiver has the packet in its queue, or has consumed it. -/
def Got (c : RxConn α) (q : IcPkt α) : Prop := (∃ i, slot c.pktQ i = some q) ∨ q ∈ c.consumed

/-- The receiver has, or had, a packet of that number. -/
def GotSeq (c : RxConn α) (n : Nat) : Prop := ∃ q, c.Got q ∧ q.seq = n

/-- What holds while the tail is moved. -/
structure Core (queued : List (IcPkt α)) (c : RxConn α) : Prop where
  cap_pos : 0 < c.capacity
  consumed : c.consumed = queued.take c.extraSeq
  seq_le : c.seq ≤ queued.length + 1
  size : c.pktQSize + c.extraSeq + 1 = c.seq
  size_le : c.pktQSize ≤ c.capacity
  head : c.pktQHead = c.extraSeq % c.capacity
  tail : c.pktQTail = (c.seq - 1) % c.capacity
  held : ∀ i q, slot c.pktQ i = some q →
    q ∈ queued ∧ c.extraSeq < q.seq ∧ q.seq ≤ c.extraSeq + c.capacity ∧ i = (q.seq - 1) % c.capacity
  filled : ∀ q ∈ queued, c.extraSeq < q.seq → q.seq < c.seq →
    slot c.pktQ ((q.seq - 1) % c.capacity) = some q
  handed : ∀ q, c.pBuff = some q → slot c.pktQ c.pktQHead = some q ∧ 0 < c.pktQSize
  inactive : c.stillActive = false → c.seq = queued.length + 1

/-- What holds between two calls: the slot at the tail is empty, if there is one. -/
structure Inv (queued : List (IcPkt α)) (c : RxConn α) : Prop extends Core queued c where
  gap : c.pktQSize < c.capacity → slot c.pktQ c.pktQTail = none

/-- The receiver goes on. -/
structure Grows (c c' : RxConn α) : Prop where
  seq : c.seq ≤ c'.seq
  extraSeq : c.extraSeq ≤ c'.extraSeq
  got : ∀ q, c.Got q → c'.Got q

theorem Grows.refl (c : RxConn α) : Grows c c := ⟨le_rfl, le_rfl, fun _ h => h⟩

theorem Grows.gotSeq (h : Grows c c') {n : Nat} : c.GotSeq n → c'.GotSeq n := fun ⟨q, hq, hn⟩ =>
    ⟨q, h.got q hq, hn⟩

theorem Core.got (h : Core queued c) (hnum : Numbered queued) {q : IcPkt α} (hq : q ∈ queued)
    (hlt : q.seq < c.seq) : c.Got q := by
  by_cases hle : q.seq ≤ c.extraSeq
  · refine .inr ?_
    rw [h.consumed]
    have hpos := (hnum.bounds hq).1
    refine mem_of_getElem? (i := q.seq - 1) ?_
    rw [getElem?_take_of_lt (by omega)]
    exact hnum.at_seq hq
  · exact .inl ⟨_, h.filled q hq (Nat.lt_of_not_le hle) hlt⟩

theorem Core.got_queued (h : Core queued c) {q : IcPkt α} (hgot : c.Got q) : q ∈ queued := by
  rcases hgot with ⟨i, hi⟩ | hq
  · exact (h.held i q hi).1
  · rw [h.consumed] at hq
    exact mem_of_mem_take hq

end RxConn

/-! ## Acknowledgements -/

/-- What an acknowledgement says about the receiver. -/
def AckOk (c : RxConn α) : IcAck → Prop
  | .plain stop seq extraSeq => stop = false ∧ seq < c.seq ∧ extraSeq ≤ c.extraSeq
  | .duplicate seq extraSeq => extraSeq < c.seq ∧ c.GotSeq seq
  | .disorder seq _ lost =>
    c.GotSeq seq ∧ lost.Pairwise (· < ·) ∧ ∀ n, 0 < n → (∃ l ∈ lost, n < l) → n ∉ lost → c.GotSeq n

section Receive

variable {queued : List (IcPkt α)} {c c' : RxConn α} {pkt : IcPkt α}

theorem AckOk.grows {a : IcAck} (h : AckOk c a) (hg : Grows c c') : AckOk c' a := by
  cases a with
  | plain stop seq extraSeq => exact ⟨h.1, h.2.1.trans_le hg.seq, h.2.2.trans hg.extraSeq⟩
  | duplicate seq extraSeq => exact ⟨h.1.trans_le hg.seq, hg.gotSeq h.2⟩
  | disorder seq extraSeq lost =>
    exact ⟨hg.gotSeq h.1, h.2.1, fun n hn hlt hlost => hg.gotSeq (h.2.2 n hn hlt hlost)⟩

/-! ## Moving the tail -/

variable {q : IcPkt α} {pos n i : Nat} {r : RxConn α × Option IcAck}

theorem RxConn.Core.tail_seq (h : Core queued c) (hroom : c.pktQSize < c.capacity)
    (hq : slot c.pktQ c.pktQTail = some q) : q ∈ queued ∧ q.seq = c.seq := by
  obtain ⟨hmem, hlt, hle, hpos⟩ := h.held _ q hq
  have hsize := h.size
  have htail := h.tail
  exact ⟨hmem, ring_inj hlt hle (by omega) (by omega) (hpos.symm.trans htail)⟩

theorem RxConn.moveTail_frame {β : Type _} (f : RxConn α → β)
    (hf : ∀ c size tail seq, f { c with pktQSize := size, pktQTail := tail, seq := seq } = f c)
    (n : Nat) : ∀ c, f (c.moveTail n) = f c := by
  induction n with
  | zero => exact fun c => rfl
  | succ n ih =>
    intro c
    rw [moveTail]
    split
    · exact (ih _).trans (hf c _ _ _)
    · rfl

theorem RxConn.moveTail_ok (hnum : Numbered queued) (hn : queued.length + 1 < 2 ^ 32) (n : Nat)
    {c : RxConn α} (h : Core queued c) (hfuel : c.capacity ≤ c.pktQSize + n)
    (hactive : c.stillActive = true) : Inv queued (c.moveTail n) ∧ c.seq ≤ (c.moveTail n).seq := by
  fun_induction moveTail n c with
  | case1 c => exact ⟨⟨h, fun hlt => absurd hlt (not_lt.mpr hfuel)⟩, le_rfl⟩
  | case2 n c hcond ih =>
    obtain ⟨hslot, hroom⟩ := hcond
    obtain ⟨q, hq⟩ := ne_none_iff_exists'.mp hslot
    obtain ⟨hmem, hseq⟩ := h.tail_seq hroom hq
    have hbound := (hnum.bounds hmem).2
    have hnext : next32 c.seq = c.seq + 1 := next32_eq (by omega)
    have hsize := h.size
    have hpos := h.cap_pos
    have hcore : Core queued { c with
        pktQSize := c.pktQSize + 1, pktQTail := (c.pktQTail + 1) % c.capacity,
        seq := next32 c.seq } := by
      refine ⟨hpos, h.consumed, ?_, ?_, hroom, h.head, ?_, h.held, fun q' hq' hlt hle => ?_,
        fun q' hq' => ⟨(h.handed q' hq').1, succ_pos _⟩, fun hno => ?_⟩
      · show next32 c.seq ≤ queued.length + 1
        omega
      · show c.pktQSize + 1 + c.extraSeq + 1 = next32 c.seq
        omega
      · show (c.pktQTail + 1) % c.capacity = (next32 c.seq - 1) % c.capacity
        rw [hnext, h.tail, Nat.mod_add_mod, Nat.add_sub_cancel, Nat.sub_add_cancel (by omega)]
      · rcases lt_or_eq_of_le (le_of_lt_succ (hnext ▸ hle)) with hlt' | heq
        · exact h.filled q' hq' hlt hlt'
        obtain rfl := hnum.inj hq' hmem (heq.trans hseq.symm)
        show slot c.pktQ ((q'.seq - 1) % c.capacity) = some q'
        rw [heq, ← h.tail]
        exact hq
      · exact absurd (hactive.symm.trans hno) (by decide)
    obtain ⟨hinv, hle⟩ := ih hcore (by show c.capacity ≤ c.pktQSize + 1 + n; omega) hactive
    refine ⟨hinv, le_trans ?_ hle⟩
    show c.seq ≤ next32 c.seq
    omega
  | case3 n c hcond =>
    refine ⟨⟨h, fun hroom => ?_⟩, le_rfl⟩
    by_contra hslot
    exact hcond ⟨hslot, hroom⟩

/-! ## Early packets -/

/-- The numbers that are reported lost: in order, from the tail on, and all empty slots up to the
last one of them. -/
theorem RxConn.lostSeqs_spec (pktQ : List (Option (IcPkt α))) {last : Nat}
    (hpos : pos = (last - 1) % pktQ.length) (hlast : last < 2 ^ 32) (n : Nat)
    (start tailSeq lostPktCnt : Nat) (hstart : start = (tailSeq - 1) % pktQ.length)
    (hone : 1 ≤ tailSeq) (hle : tailSeq ≤ last) :
    (∀ l ∈ lostSeqs pktQ pos n start tailSeq lostPktCnt, tailSeq ≤ l ∧ l < last) ∧
      (lostSeqs pktQ pos n start tailSeq lostPktCnt).Pairwise (· < ·) ∧
      ∀ m, tailSeq ≤ m → (∃ l ∈ lostSeqs pktQ pos n start tailSeq lostPktCnt, m < l) →
      m ∉ lostSeqs pktQ pos n start tailSeq lostPktCnt →
      slot pktQ ((m - 1) % pktQ.length) ≠ none := by
  induction n generalizing start tailSeq lostPktCnt with
  | zero =>
    refine ⟨nofun, List.Pairwise.nil, fun m _ ⟨l, hl, _⟩ => absurd hl not_mem_nil⟩
  | succ n ih =>
    rw [lostSeqs]
    split
    next hcond =>
      have hlt : tailSeq < last := by
        refine lt_of_le_of_ne hle fun heq => hcond.1 ?_
        rw [hstart, hpos, heq]
      have hnext : next32 tailSeq = tailSeq + 1 := next32_eq (by omega)
      have hstart' : (start + 1) % pktQ.length = (tailSeq + 1 - 1) % pktQ.length := by
        rw [hstart, Nat.mod_add_mod, Nat.sub_add_cancel hone, Nat.add_sub_cancel]
      rw [hnext]
      split
      next hempty =>
        obtain ⟨hrange, hsorted, hfull⟩ := ih _ _ (lostPktCnt + 1) hstart' (le_add_left 1 _) hlt
        refine ⟨forall_mem_cons.mpr
          ⟨⟨le_rfl, hlt⟩, fun l hl => ⟨(le_succ _).trans (hrange l hl).1, (hrange l hl).2⟩⟩,
          pairwise_cons.mpr ⟨fun l hl => (hrange l hl).1, hsorted⟩, fun m hm ⟨l, hl, hml⟩ hno => ?_⟩
        obtain ⟨hne, hno⟩ := not_or.mp (fun h => hno (mem_cons.mpr h))
        have hgt : tailSeq + 1 ≤ m := by omega
        refine hfull m hgt ?_ hno
        rcases mem_cons.mp hl with rfl | hl
        · omega
        · exact ⟨l, hl, hml⟩
      next hfilled =>
        obtain ⟨hrange, hsorted, hfull⟩ := ih _ _ lostPktCnt hstart' (le_add_left 1 _) hlt
        refine ⟨fun l hl => ⟨(le_succ _).trans (hrange l hl).1, (hrange l hl).2⟩, hsorted,
          fun m hm hex hno => ?_⟩
        rcases lt_or_eq_of_le hm with hgt | rfl
        · exact hfull m hgt hex hno
        · rw [← hstart]
          exact hfilled
    · exact ⟨nofun, List.Pairwise.nil, fun m _ ⟨l, hl, _⟩ => absurd hl not_mem_nil⟩

/-! ## Data packets -/

/-- What a call of the receiver does. -/
structure RxStep (queued : List (IcPkt α)) (c : RxConn α) (r : RxConn α × Option IcAck) : Prop where
  inv : Inv queued r.1
  grows : Grows c r.1
  acks : ∀ a, r.2 = some a → AckOk r.1 a
  capacity : r.1.capacity = c.capacity

section

variable (h : Core queued c)
include h

theorem RxConn.Core.set (hpkt : pkt ∈ queued) (hge : c.seq ≤ pkt.seq)
    (hwin : pkt.seq ≤ c.extraSeq + c.capacity) {pktQ : List (Option (IcPkt α))}
    (hlen : pktQ.length = c.capacity) (hkeep : ∀ i q, slot c.pktQ i = some q → slot pktQ i = some q)
    (hnew : ∀ i q, slot pktQ i = some q → slot c.pktQ i = some q ∨ q = pkt ∧
    i = (pkt.seq - 1) % c.capacity) : Core queued { c with pktQ := pktQ } ∧
    Grows c { c with pktQ := pktQ } := by
  have hsize := h.size
  have hcap : capacity { c with pktQ := pktQ } = c.capacity := hlen
  refine ⟨⟨?_, h.consumed, h.seq_le, h.size, ?_, ?_, ?_, fun i q hq => ?_, fun q hq hlt hle => ?_,
    fun q hq => ⟨hkeep _ q (h.handed q hq).1, (h.handed q hq).2⟩, h.inactive⟩, le_rfl, le_rfl,
    fun q hq => hq.imp_left fun ⟨i, hi⟩ => ⟨i, hkeep i q hi⟩⟩
  · rw [hcap]
    exact h.cap_pos
  · rw [hcap]
    exact h.size_le
  · rw [hcap]
    exact h.head
  · rw [hcap]
    exact h.tail
  · rw [hcap]
    rcases hnew i q hq with hq | ⟨rfl, rfl⟩
    · exact h.held i q hq
    · refine ⟨hpkt, ?_, hwin, rfl⟩
      show c.extraSeq < q.seq
      omega
  · rw [hcap]
    exact hkeep _ q (h.filled q hq hlt hle)

theorem RxConn.Core.gotSeq (hnum : Numbered queued) (hpos : 0 < n) (hlt : n < c.seq) :
    c.GotSeq n := by
  have hle := h.seq_le
  obtain ⟨q, hq, hseq⟩ := hnum.exists_seq hpos (by omega)
  exact ⟨q, h.got hnum hq (hseq ▸ hlt), hseq⟩

theorem RxConn.Core.slot_seq (hlt : c.extraSeq < n) (hle : n ≤ c.extraSeq + c.capacity)
    (hq : slot c.pktQ ((n - 1) % c.capacity) = some q) : q.seq = n := by
  obtain ⟨-, hlt', hle', hpos⟩ := h.held _ q hq
  exact ring_inj hlt' hle' hlt hle hpos.symm

theorem RxConn.Core.plain_ok (hn : queued.length + 1 < 2 ^ 32) :
    AckOk c (.plain false (sub32 c.seq 1) c.extraSeq) := by
  have hsize := h.size
  have hle := h.seq_le
  refine ⟨rfl, ?_, le_rfl⟩
  rw [sub32_eq (by omega) (by omega)]
  omega

theorem RxConn.Core.disorder_ok (hnum : Numbered queued) (hn : queued.length + 1 < 2 ^ 32)
    (hpkt : pkt ∈ queued) (hge : c.seq ≤ pkt.seq) (hwin : pkt.seq ≤ c.extraSeq + c.capacity)
    (hslot : slot c.pktQ ((pkt.seq - 1) % c.capacity) = some pkt) (extraSeq : Nat) :
    AckOk c (.disorder pkt.seq extraSeq
    (lostSeqs c.pktQ ((pkt.seq - 1) % c.capacity) c.capacity c.pktQTail c.seq 0)) := by
  have hsize := h.size
  have hbound := (hnum.bounds hpkt).2
  obtain ⟨hrange, hsorted, hfull⟩ :=
    lostSeqs_spec c.pktQ rfl (by omega : pkt.seq < 2 ^ 32) c.capacity c.pktQTail c.seq 0
    h.tail (by omega) hge
  refine ⟨⟨pkt, .inl ⟨_, hslot⟩, rfl⟩, hsorted, fun n hpos hlt hlost => ?_⟩
  by_cases hbefore : n < c.seq
  · exact h.gotSeq hnum hpos hbefore
  obtain ⟨q, hq⟩ := ne_none_iff_exists'.mp (hfull n (Nat.le_of_not_lt hbefore) hlt hlost)
  obtain ⟨l, hl, hnl⟩ := hlt
  have hlpkt := (hrange l hl).2
  exact ⟨q, .inl ⟨_, hq⟩, h.slot_seq (by omega) (by omega) hq⟩

end

theorem RxConn.Inv.store_ok (h : Inv queued c) (hnum : Numbered queued)
    (hn : queued.length + 1 < 2 ^ 32) (hpkt : pkt ∈ queued)
    (hge : c.seq ≤ pkt.seq) (hactive : c.stillActive = true)
    (hwin : pkt.seq ≤ c.extraSeq + c.capacity)
    (hempty : slot c.pktQ ((pkt.seq - 1) % c.capacity) = none) :
    RxStep queued c (c.store pkt ((pkt.seq - 1) % c.capacity) (c.extraSeq + 1)) := by
  have hsize := h.size
  have hseqle := h.seq_le
  have hlt : (pkt.seq - 1) % c.capacity < c.pktQ.length := mod_lt _ h.cap_pos
  have hlen : (c.pktQ.set ((pkt.seq - 1) % c.capacity) (some pkt)).length = c.capacity := length_set
  have hslot := slot_set_self hlt (some pkt)
  have hother : ∀ i, (pkt.seq - 1) % c.capacity ≠ i →
      slot (c.pktQ.set ((pkt.seq - 1) % c.capacity) (some pkt)) i = slot c.pktQ i := fun i hne =>
      slot_set_ne hne _
  have htailSeq : (c.extraSeq + 1 + c.pktQSize) % 2 ^ 32 = c.seq := by omega
  unfold store
  dsimp only
  generalize c.pktQ.set ((pkt.seq - 1) % c.capacity) (some pkt) = pktQ at *
  obtain ⟨hcore, hgrows⟩ := h.toCore.set hpkt hge hwin hlen (fun i q hq => by
      rw [hother i fun heq => ?_]
      · exact hq
      · rw [heq, hq] at hempty
        cases hempty)
    (fun i q hq => by
      by_cases heq : (pkt.seq - 1) % c.capacity = i
      · rw [← heq, hslot] at hq
        exact .inr ⟨(some.inj hq).symm, heq.symm⟩
      · rw [hother i heq] at hq
        exact .inl hq)
  have hcap : capacity { c with pktQ := pktQ } = c.capacity := hlen
  split
  · -- the expected packet: the tail moves
    obtain ⟨hinv, hseq⟩ :=
      moveTail_ok hnum hn (capacity { c with pktQ := pktQ }) hcore (le_add_left _ _) hactive
    have hextra := moveTail_frame extraSeq (fun _ _ _ _ => rfl) (capacity { c with pktQ := pktQ })
      { c with pktQ := pktQ }
    refine ⟨hinv, ⟨hseq, hextra.ge, fun q hq => ?_⟩, fun a ha => ?_, ?_⟩
    · exact (moveTail_frame (Got · q) (fun _ _ _ _ => rfl) _ _).mpr (hgrows.got q hq)
    · obtain rfl := some.inj ha
      exact hinv.toCore.plain_ok hn
    · exact (moveTail_frame capacity (fun _ _ _ _ => rfl) _ _).trans hlen
  next hne =>
    refine ⟨⟨hcore, fun hroom => ?_⟩, hgrows, fun a ha => ?_, hcap⟩
    · exact (hother c.pktQTail hne).trans (h.gap (hcap ▸ hroom))
    obtain rfl := some.inj ha
    have hok := hcore.disorder_ok hnum hn hpkt hge (hcap.symm ▸ hwin) (hcap.symm ▸ hslot)
      (sub32 c.seq 1)
    rw [hcap] at hok ⊢
    rw [htailSeq]
    exact hok

theorem RxConn.Inv.headSeq_eq (h : Inv queued c) (hn : queued.length + 1 < 2 ^ 32) :
    sub32 c.seq c.pktQSize = c.extraSeq + 1 := by
  have hsize := h.size
  have hseqle := h.seq_le
  rw [sub32_eq (by omega) (by omega)]
  omega

section

variable (h : Inv queued c) (hnum : Numbered queued) (hn : queued.length + 1 < 2 ^ 32)
  (hpkt : pkt ∈ queued)
include h hnum hn hpkt

/-- **A data packet** keeps the receiver in order, and every answer to it is right. -/
theorem RxConn.Inv.handleDataPacket_ok : RxStep queued c (c.handleDataPacket pkt) := by
  have hsize := h.size
  obtain ⟨hone, hbound⟩ := hnum.bounds hpkt
  have hhead := h.headSeq_eq hn
  unfold handleDataPacket
  split
  · -- an old packet
    refine ⟨h, Grows.refl c, fun a ha => ?_, rfl⟩
    obtain rfl := some.inj ha
    exact h.toCore.plain_ok hn
  next hge =>
    split
    next hno =>
      have hall := h.inactive (by simpa using hno)
      omega
    next hactive =>
      rw [Bool.not_eq_true', Bool.not_eq_false] at hactive
      dsimp only
      rw [hhead]
      split
      · -- no room: the packet is dropped
        exact ⟨⟨{ h with }, h.gap⟩, ⟨le_rfl, le_rfl, fun q hq => hq⟩, fun a ha => (nomatch ha), rfl⟩
      next hroom =>
        obtain ⟨-, hwin⟩ := not_or.mp hroom
        rw [sub32_eq (by omega) (by omega)] at hwin
        rw [sub32_eq hone (by omega)]
        split
        next hempty =>
          exact h.store_ok hnum hn hpkt (Nat.le_of_not_lt hge) hactive (by omega) hempty
        · -- the slot of the packet is filled, and by the packet itself
          rename_i q hq
          refine ⟨h, Grows.refl c, fun a ha => ?_, rfl⟩
          obtain rfl := some.inj ha
          refine ⟨?_, q, .inl ⟨_, hq⟩, h.toCore.slot_seq (by omega) (by omega) hq⟩
          rw [sub32_eq (by omega) (by omega)]
          show c.seq - 1 < c.seq
          omega

theorem RxConn.Inv.handleDataPacket_room (hwin : pkt.seq ≤ c.extraSeq + c.capacity) :
    (c.handleDataPacket pkt).1.statCountDropped = c.statCountDropped := by
  have hsize := h.size
  obtain ⟨hone, hbound⟩ := hnum.bounds hpkt
  have hhead := h.headSeq_eq hn
  unfold handleDataPacket
  split
  · rfl
  next hge =>
    split
    · rfl
    next hactive =>
      dsimp only
      rw [hhead, if_neg (by rw [sub32_eq (by omega) (by omega)]; omega), sub32_eq hone (by omega)]
      split
      · unfold store
        dsimp only
        split
        · exact moveTail_frame statCountDropped (fun _ _ _ _ => rfl) _ _
        · rfl
      · rfl

end

theorem RxConn.store_stillActive (c : RxConn α) (pkt : IcPkt α) (pos headSeq : Nat) :
    (c.store pkt pos headSeq).1.stillActive = c.stillActive := by
  unfold store
  dsimp only
  split
  · exact moveTail_frame stillActive (fun _ _ _ _ => rfl) _ _
  · rfl

theorem RxConn.handleDataPacket_stillActive (c : RxConn α) (pkt : IcPkt α) :
    (c.handleDataPacket pkt).1.stillActive = c.stillActive := by
  unfold handleDataPacket
  split
  · rfl
  split
  · rfl
  dsimp only
  split
  · rfl
  · split
    · exact store_stillActive c pkt _ _
    · rfl

theorem RxConn.store_slot {headSeq : Nat} (hempty : slot c.pktQ pos = none)
    (hq : slot c.pktQ i = some q) : slot (c.store pkt pos headSeq).1.pktQ i = some q := by
  have hne : pos ≠ i := fun heq => by
    rw [heq, hq] at hempty
    cases hempty
  have hset : slot (c.pktQ.set pos (some pkt)) i = some q := (slot_set_ne hne _).trans hq
  unfold store
  dsimp only
  split
  · rw [moveTail_frame pktQ fun _ _ _ _ => rfl]
    exact hset
  · exact hset

theorem RxConn.handleDataPacket_slot (hq : slot c.pktQ i = some q) :
    slot (c.handleDataPacket pkt).1.pktQ i = some q := by
  unfold handleDataPacket
  split
  · exact hq
  split
  · exact hq
  dsimp only
  split
  · exact hq
  · split
    next hempty => exact store_slot hempty hq
    · exact hq

/-! ## The main thread -/

theorem RxConn.prepareRxConnForRead_stillActive (hrun : c.prepareRxConnForRead = some c') :
    c'.stillActive = c.stillActive := by
  unfold prepareRxConnForRead at hrun
  split at hrun <;> cases hrun
  · rfl

theorem RxConn.putRxBufferAndSendAck_stillActive (hrun : c.putRxBufferAndSendAck = some r) :
    r.1.stillActive = c.stillActive := by
  unfold putRxBufferAndSendAck at hrun
  split at hrun <;> cases hrun
  · rfl

theorem RxConn.Inv.prepareRxConnForRead_ok (h : Inv queued c)
    (hrun : c.prepareRxConnForRead = some c') : Inv queued c' ∧ Grows c c' ∧
    c'.capacity = c.capacity ∧ c'.statCountDropped = c.statCountDropped := by
  unfold prepareRxConnForRead at hrun
  split at hrun <;> cases hrun
  next pkt _ hslot =>
    refine ⟨⟨{ h with handed := fun q hq => ?_ }, h.gap⟩, ⟨le_rfl, le_rfl, fun q hq => hq⟩, rfl,
      rfl⟩
    refine ⟨(some.inj hq) ▸ hslot, pos_of_ne_zero fun h0 => ?_⟩
    -- without packets the head is the tail, and empty
    change c.pktQSize = 0 at h0
    have hpos := h.cap_pos
    have heq : c.pktQHead = c.pktQTail := by
      rw [h.head, h.tail, ← h.size, h0, Nat.zero_add, Nat.add_sub_cancel]
    rw [heq, h.gap (by omega)] at hslot
    cases hslot

theorem RxConn.Inv.markUDPConnInactive_ok (h : Inv queued c) (heos : ∀ q ∈ queued, q.eos = true →
    q.seq = queued.length) (hrun : c.markUDPConnInactive = some c') :
    Inv queued c' ∧ Grows c c' ∧ c'.capacity = c.capacity ∧
      c'.statCountDropped = c.statCountDropped ∧ ∃ q ∈ queued, q.eos = true := by
  unfold markUDPConnInactive at hrun
  split at hrun
  next pkt hbuff =>
    split at hrun <;> cases hrun
    next he =>
      obtain ⟨hslot, hpos⟩ := h.handed pkt hbuff
      obtain ⟨hmem, -⟩ := h.held _ pkt hslot
      have hseq := h.toCore.slot_seq (Nat.lt_succ_self c.extraSeq)
        (Nat.succ_le_of_lt (Nat.lt_add_of_pos_right h.cap_pos))
        (show slot c.pktQ (c.extraSeq % c.capacity) = some pkt from h.head ▸ hslot)
      have hlast := heos pkt hmem he
      have hsize := h.size
      have hseqle := h.seq_le
      refine ⟨⟨{ h with inactive := fun _ => ?_ }, h.gap⟩,
        ⟨le_rfl, le_rfl, fun q hq => hq⟩, rfl, rfl, pkt, hmem, he⟩
      show c.seq = queued.length + 1
      omega
  · cases hrun

theorem RxConn.Inv.putRxBufferAndSendAck_ok (h : Inv queued c) (hnum : Numbered queued)
    (hn : queued.length + 1 < 2 ^ 32) (hrun : c.putRxBufferAndSendAck = some r) :
    RxStep queued c r ∧ r.1.statCountDropped = c.statCountDropped := by
  unfold putRxBufferAndSendAck at hrun
  split at hrun <;> cases hrun
  next pkt buf hbuff hslot =>
    have hsize := h.size
    have hseqle := h.seq_le
    have hpos := h.cap_pos
    obtain ⟨-, hpos'⟩ := h.handed pkt hbuff
    have hheadlt : c.pktQHead < c.pktQ.length := by
      rw [h.head]
      exact mod_lt _ hpos
    have hmem := (h.held _ buf hslot).1
    have hseq : buf.seq = c.extraSeq + 1 := h.toCore.slot_seq (lt_succ_self c.extraSeq) (by omega)
      (show slot c.pktQ (c.extraSeq % c.capacity) = some buf from h.head ▸ hslot)
    have hlen : (c.pktQ.set c.pktQHead none).length = c.capacity := length_set
    have hself := slot_set_self hheadlt (none : Option (IcPkt α))
    have hother : ∀ i, c.pktQHead ≠ i → slot (c.pktQ.set c.pktQHead none) i = slot c.pktQ i :=
      fun i hne => slot_set_ne hne _
    have hgot : ∀ q, c.Got q → (∃ i, slot (c.pktQ.set c.pktQHead none) i = some q) ∨
        q ∈ c.consumed ++ [buf] := by
      rintro q (⟨i, hi⟩ | hq)
      · by_cases heq : c.pktQHead = i
        · rw [← heq, hslot, some.injEq] at hi
          exact .inr (mem_append_right _ (mem_singleton.mpr hi.symm))
        · exact .inl ⟨i, (hother i heq).trans hi⟩
      · exact .inr (mem_append_left _ hq)
    generalize c.pktQ.set c.pktQHead none = pktQ at *
    have hcore : Core queued
        { c with
          pktQ := pktQ
          pBuff := none
          pktQHead := (c.pktQHead + 1) % c.capacity
          pktQSize := c.pktQSize - 1
          extraSeq := buf.seq
          consumed := c.consumed ++ [buf] } := by
      refine ⟨hlen.symm ▸ hpos, ?_, hseqle, ?_, ?_, ?_, hlen.symm ▸ h.tail, fun i q hq => ?_,
        fun q hq hlt hle => ?_, fun q hq => (nomatch hq), h.inactive⟩
      · have hat := hnum.at_seq hmem
        rw [hseq, Nat.add_sub_cancel] at hat
        rw [h.consumed, hseq, take_add_one, hat, toList_some]
      · show c.pktQSize - 1 + buf.seq + 1 = c.seq
        omega
      · show c.pktQSize - 1 ≤ pktQ.length
        have hsizele := h.size_le
        omega
      · show (c.pktQHead + 1) % c.capacity = buf.seq % pktQ.length
        rw [hlen, hseq, h.head, mod_add_mod]
      · show q ∈ queued ∧ buf.seq < q.seq ∧ q.seq ≤ buf.seq + pktQ.length ∧
          i = (q.seq - 1) % pktQ.length
        have hne : c.pktQHead ≠ i := fun heq => by
          rw [← heq, hself] at hq
          cases hq
        obtain ⟨hq', hlt, hle, hat⟩ := h.held i q ((hother i hne).symm.trans hq)
        rw [hlen]
        refine ⟨hq', ?_, by omega, hat⟩
        refine lt_of_le_of_ne (by omega) fun heq => hne ?_
        rw [hat, ← heq, hseq, Nat.add_sub_cancel, h.head]
      · change buf.seq < q.seq at hlt
        change q.seq < c.seq at hle
        show slot pktQ ((q.seq - 1) % pktQ.length) = some q
        have hsizele := h.size_le
        rw [hlen, hother]
        · exact h.filled q hq (by omega) hle
        intro heq
        have hsame := @ring_inj c.capacity c.extraSeq q.seq (c.extraSeq + 1) (by omega) (by omega)
          (by omega) (by omega) (by rw [Nat.add_sub_cancel, ← h.head, heq])
        omega
    refine ⟨⟨⟨hcore, fun _ => ?_⟩, ⟨le_rfl, by show c.extraSeq ≤ buf.seq; omega, hgot⟩,
      fun a ha => ?_, hlen⟩, rfl⟩
    · by_cases heq : c.pktQHead = c.pktQTail
      · rw [← heq]
        exact hself
      · rw [hother _ heq]
        refine h.gap (lt_of_le_of_ne h.size_le fun hfull => heq ?_)
        rw [h.head, h.tail, ← h.size, hfull, Nat.add_sub_cancel, Nat.add_mod_left]
    · split at ha
      · obtain rfl := some.inj ha
        exact hcore.plain_ok hn
      · cases ha

theorem RxConn.Inv.handleStatusQuery_ok (h : Inv queued c) (hn : queued.length + 1 < 2 ^ 32) :
    AckOk c c.handleStatusQuery := by
  have hsize := h.size
  unfold handleStatusQuery
  rw [if_pos (by omega)]
  exact h.toCore.plain_ok hn

/-! ## Start, and more packets of the sender -/

theorem RxConn.Inv.init {queueDepth : Nat} (hdepth : 1 ≤ queueDepth) :
    Inv [] (init queueDepth : RxConn α) := by
  have hslot : ∀ i, slot (RxConn.init queueDepth : RxConn α).pktQ i = none := fun i =>
    slot_replicate queueDepth i
  have hcap : (RxConn.init queueDepth : RxConn α).capacity = queueDepth := length_replicate
  refine ⟨⟨hcap.symm ▸ hdepth, rfl, le_rfl, rfl, zero_le _, (zero_mod _).symm,
    (zero_mod _).symm, fun i q hq => ?_, nofun, fun q hq => (nomatch hq), nofun⟩, fun _ => hslot _⟩
  rw [hslot] at hq
  cases hq

theorem RxConn.Inv.queue (h : Inv queued c) (hactive : c.stillActive = true)
    (hseq : pkt.seq = queued.length + 1) : Inv (queued ++ [pkt]) c := by
  have hsize := h.size
  have hseqle := h.seq_le
  refine ⟨⟨h.cap_pos, ?_, ?_, h.size, h.size_le, h.head, h.tail, fun i q hq => ?_,
    fun q hq hlt hle => ?_, h.handed, fun hno => ?_⟩, h.gap⟩
  · rw [h.consumed, take_append_of_le_length (by omega)]
  · rw [length_append, length_singleton]
    omega
  · obtain ⟨hmem, hrest⟩ := h.held i q hq
    exact ⟨mem_append_left _ hmem, hrest⟩
  · rcases mem_append.mp hq with hq | hq
    · exact h.filled q hq hlt hle
    · rw [mem_singleton.mp hq] at hle
      omega
  · rw [hactive] at hno
    cases hno

end Receive

end PolemoDB.Motion
