import PolemoDB.Motion.UdpReceive

/-!
# The sender of the UDP interconnect

An acknowledgement that says the truth about the receiver takes packets out of the unacknowledged
queue, and only such that the receiver has or had.

* `TxConn.handleAck_ok` — what an acknowledgement does.
-/

namespace PolemoDB.Motion

open PolemoDB.Lib List

universe u

variable {α : Type u}

namespace TxConn

variable {good : Nat → Prop} {c c' c'' : TxConn α}

/-- Packets with good numbers are taken out of the unacknowledged queue, and the rest of the
connection is the same. -/
structure Frees (good : Nat → Prop) (c c' : TxConn α) : Prop where
  unack : c'.unackQueue.Sublist c.unackQueue
  freed : ∀ q ∈ c.unackQueue, q ∉ c'.unackQueue → good q.seq
  seq : c'.seq = c.seq
  sndQueue : c'.sndQueue = c.sndQueue
  capacity : c'.capacity = c.capacity
  consumedSeq : c'.consumedSeq = c.consumedSeq
  stopRequested : c'.stopRequested = c.stopRequested
  eosSent : c'.eosSent = c.eosSent
  queued : c'.queued = c.queued

theorem Frees.refl (good : Nat → Prop) (c : TxConn α) : Frees good c c :=
  ⟨Sublist.refl _, fun _ hq hno => absurd hq hno, rfl, rfl, rfl, rfl, rfl, rfl, rfl⟩

theorem Frees.trans (h : Frees good c c') (h' : Frees good c' c'') : Frees good c c'' where
  unack := h'.unack.trans h.unack
  freed := fun q hq hno => by
    by_cases hq' : q ∈ c'.unackQueue
    · exact h'.freed q hq' hno
    · exact h.freed q hq hq'
  seq := h'.seq.trans h.seq
  sndQueue := h'.sndQueue.trans h.sndQueue
  capacity := h'.capacity.trans h.capacity
  consumedSeq := h'.consumedSeq.trans h.consumedSeq
  stopRequested := h'.stopRequested.trans h.stopRequested
  eosSent := h'.eosSent.trans h.eosSent
  queued := h'.queued.trans h.queued

theorem ackedPacket_frees (c : TxConn α) {buf : IcPkt α} (hbuf : good buf.seq) :
    Frees good c (c.ackedPacket buf) := by
  refine ⟨eraseP_sublist, fun q hq hno => ?_, rfl, rfl, rfl, rfl, rfl, rfl, rfl⟩
  by_cases heq : q.seq = buf.seq
  · exact heq ▸ hbuf
  · exact absurd ((mem_eraseP_of_neg (by simpa using heq)).mpr hq) hno

/-! ## Queueing and sending -/

theorem queuePacket_queued {payload : α} {eos : Bool} (hrun : c.queuePacket payload eos = some c') :
    c'.queued.length = c.queued.length + 1 := by
  unfold queuePacket at hrun
  split at hrun <;> cases hrun
  · exact length_append

theorem sendBuffer_queued {buf : IcPkt α} (hrun : c.sendBuffer = some (c', buf)) :
    c'.queued = c.queued := by
  unfold sendBuffer at hrun
  split at hrun
  · split at hrun
    · obtain ⟨rfl, -⟩ := Prod.mk.inj (Option.some.inj hrun)
      rfl
    · cases hrun
  · cases hrun

/-! ## The loops -/

theorem ackUpTo_frees {seq : Nat} (l : List (IcPkt α)) (c : TxConn α)
    (hgood : ∀ b ∈ l, b.seq ≤ seq → good b.seq) : Frees good c (ackUpTo seq l c) := by
  fun_induction ackUpTo seq l c with
  | case1 c => exact Frees.refl good c
  | case2 buf rest c hle ih =>
    exact (ackedPacket_frees c (hgood buf mem_cons_self hle)).trans
      (ih fun b hb => hgood b (mem_cons_of_mem _ hb))
  | case3 => exact Frees.refl good _

theorem ackSingle_frees {seq : Nat} (hgood : good seq) (l : List (IcPkt α)) (c : TxConn α) :
    Frees good c (ackSingle seq l c) := by
  fun_induction ackSingle seq l c with
  | case1 | case4 => exact Frees.refl good _
  | case2 buf rest c _ heq => exact ackedPacket_frees c (heq.symm ▸ hgood)
  | case3 buf rest c _ _ ih => exact ih

/-- The loop over unacknowledged and lost packets: a packet before the next lost one is not among
the lost ones. -/
theorem ackDisorder_frees {seq : Nat} (hseq : good seq) (n : Nat) (links : List (IcPkt α))
    (losts : List Nat) (r : TxConn α × List (IcPkt α))
    (hlinks : links.Pairwise fun a b => a.seq < b.seq) (hlosts : losts.Pairwise (· < ·))
    (hgood : ∀ b ∈ links, (∃ l ∈ losts, b.seq < l) → b.seq ∉ losts → good b.seq) :
    Frees good r.1 (ackDisorder seq n links losts r).1 ∧
      ∀ b ∈ (ackDisorder seq n links losts r).2, b ∈ r.2 ∨ b ∈ links := by
  fun_induction ackDisorder seq n links losts r with
  | case1 n buf rest lost losts c resent _ heq =>
    exact ⟨ackedPacket_frees c (heq.symm ▸ hseq), fun b hb => .inl hb⟩
  | case2 n buf rest losts c resent _ _ ih =>
    -- a lost packet is sent again
    obtain ⟨hbuf, hrest⟩ := pairwise_cons.mp hlinks
    obtain ⟨hfrees, hresent⟩ := ih hrest hlosts.of_cons fun b hb hex hno => by
      obtain ⟨l, hl, hbl⟩ := hex
      refine hgood b (mem_cons_of_mem _ hb) ⟨l, mem_cons_of_mem _ hl, hbl⟩ fun hmem => ?_
      exact hno ((mem_cons.mp hmem).resolve_left (hbuf b hb).ne')
    refine ⟨hfrees, fun b hb => ?_⟩
    rcases hresent b hb with hb | hb
    · exact (mem_append.mp hb).imp_right fun hb => mem_cons.mpr (.inl (mem_singleton.mp hb))
    · exact .inr (mem_cons_of_mem _ hb)
  | case3 n buf rest lost losts c resent _ _ _ hlt ih =>
    -- before the next lost one: received
    obtain ⟨hlost, -⟩ := pairwise_cons.mp hlosts
    have hbufgood : good buf.seq := by
      refine hgood buf mem_cons_self ⟨lost, mem_cons_self, hlt⟩ fun hmem => ?_
      rcases mem_cons.mp hmem with heq | hmem
      · exact hlt.ne heq
      · exact absurd (hlt.trans (hlost _ hmem)) (lt_irrefl _)
    obtain ⟨hfrees, hresent⟩ :=
      ih hlinks.of_cons hlosts fun b hb => hgood b (mem_cons_of_mem _ hb)
    exact ⟨(ackedPacket_frees c hbufgood).trans hfrees,
      fun b hb => (hresent b hb).imp_right fun hb => mem_cons_of_mem _ hb⟩
  | case4 n buf rest lost losts c resent _ _ _ _ ih =>
    -- the lost one is not in the queue any more
    obtain ⟨hbuf, -⟩ := pairwise_cons.mp hlinks
    have hgt : lost < buf.seq := by omega
    refine ih hlinks hlosts.of_cons fun b hb hex hno => ?_
    have hb' : lost < b.seq := by
      rcases mem_cons.mp hb with rfl | hb
      · exact hgt
      · exact hgt.trans (hbuf b hb)
    obtain ⟨l, hl, hbl⟩ := hex
    refine hgood b hb ⟨l, mem_cons_of_mem _ hl, hbl⟩ fun hmem => ?_
    exact hno ((mem_cons.mp hmem).resolve_left hb'.ne')
  | case5 | case6 => exact ⟨Frees.refl good _, fun b hb => .inl hb⟩

theorem handleAckForDisorderPkt_nil (c : TxConn α) (seq extraSeq : Nat) :
    ∃ lastSeq times, (c.handleAckForDisorderPkt seq extraSeq []).1 =
    { c with lastSeq := lastSeq, times := times } := by
  have hnil : ∀ n links (r : TxConn α × List (IcPkt α)), ackDisorder seq n links [] r = r := by
    intro n links r
    cases n with
    | zero => rfl
    | succ n =>
      cases links with
      | nil | cons buf rest => rfl
  unfold handleAckForDisorderPkt
  split
  · exact ⟨_, _, rfl⟩
  dsimp only
  split
  · exact ⟨c.lastSeq, _, rfl⟩
  · rw [hnil]
    exact ⟨c.lastSeq, _, rfl⟩

/-! ## Acknowledgements -/

/-- What an acknowledgement does: packets that the receiver has or had are taken out, and capacity
is granted for what it has consumed. -/
structure AckStep (rx : RxConn α) (c : TxConn α) (r : TxConn α × List (IcPkt α)) : Prop where
  unack : r.1.unackQueue.Sublist c.unackQueue
  freed : ∀ q ∈ c.unackQueue, q ∉ r.1.unackQueue → rx.GotSeq q.seq
  resent : ∀ b ∈ r.2, b ∈ c.unackQueue
  seq : r.1.seq = c.seq
  sndQueue : r.1.sndQueue = c.sndQueue
  consumed_le : c.consumedSeq ≤ r.1.consumedSeq
  consumed_eq : r.1.consumedSeq = c.consumedSeq ∨ r.1.consumedSeq ≤ rx.extraSeq
  capacity : r.1.capacity + c.consumedSeq = c.capacity + r.1.consumedSeq
  stopRequested : r.1.stopRequested = c.stopRequested
  eosSent : r.1.eosSent = c.eosSent
  queued : r.1.queued = c.queued

variable {rx : RxConn α}

theorem Frees.ackStep (h : Frees (fun n => 0 < n → rx.GotSeq n) c c')
    (hpos : ∀ q ∈ c.unackQueue, 0 < q.seq) {resent : List (IcPkt α)}
    (hresent : ∀ b ∈ resent, b ∈ c.unackQueue) : AckStep rx c (c', resent) where
  unack := h.unack
  freed := fun q hq hno => h.freed q hq hno (hpos q hq)
  resent := hresent
  seq := h.seq
  sndQueue := h.sndQueue
  consumed_le := h.consumedSeq.ge
  consumed_eq := .inl h.consumedSeq
  capacity := by
    rw [h.capacity, h.consumedSeq]
  stopRequested := h.stopRequested
  eosSent := h.eosSent
  queued := h.queued

theorem grant_eq (c : TxConn α) (extraSeq : Nat) (hlt : extraSeq < 2 ^ 32) :
    ∃ m k, c.grant extraSeq = { c with capacity := m, consumedSeq := k } ∧
      m + c.consumedSeq = c.capacity + k ∧ c.consumedSeq ≤ k ∧
      (k = c.consumedSeq ∨ k = extraSeq) := by
  unfold grant
  split
  next h =>
    refine ⟨_, _, rfl, ?_, h.le, .inr rfl⟩
    rw [sub32_eq h.le hlt]
    omega
  · exact ⟨c.capacity, c.consumedSeq, rfl, rfl, le_rfl, .inl rfl⟩

/-- **An acknowledgement** that says the truth about the receiver frees only packets that the
receiver has or had. -/
theorem handleAck_ok {queued : List (IcPkt α)} (hrx : RxConn.Core queued rx)
    (hnum : Numbered queued) (hn : queued.length + 1 < 2 ^ 32)
    {a : IcAck} (hok : AckOk rx a) (hsorted : c.unackQueue.Pairwise fun a b => a.seq < b.seq)
    (hpos : ∀ q ∈ c.unackQueue, 0 < q.seq) : AckStep rx c (c.handleAck a) := by
  have hbefore : ∀ n, n < rx.seq → (0 < n → rx.GotSeq n) := fun n hlt hpos =>
    hrx.gotSeq hnum hpos hlt
  cases a with
  | plain stop seq extraSeq =>
    obtain ⟨rfl, hseq, hextra⟩ := hok
    have hsize := hrx.size
    have hseqle := hrx.seq_le
    obtain ⟨m, k, hgrant, hcap, hle, hk⟩ := c.grant_eq extraSeq (by omega)
    have hk' : k = c.consumedSeq ∨ k ≤ rx.extraSeq := hk.imp_right fun h => h.trans_le hextra
    have hnostop : ¬ (false = true ∧ (!c.stopRequested) = true) := fun h => Bool.false_ne_true h.1
    rw [handleAck, hgrant]
    dsimp only
    have hsame : AckStep rx c ({ c with capacity := m, consumedSeq := k }, []) :=
      ⟨Sublist.refl _, fun q hq hno => absurd hq hno, nofun, rfl, rfl, hle, hk', hcap, rfl, rfl,
      rfl⟩
    split
    · exact hsame
    split
    · exact hsame
    have hfrees : Frees (fun n => 0 < n → rx.GotSeq n) { c with
      capacity := m, consumedSeq := k }
        (ackUpTo seq c.unackQueue { c with capacity := m, consumedSeq := k }) :=
      ackUpTo_frees _ _ fun b _ hb => hbefore b.seq (hb.trans_lt hseq)
    refine { hfrees with
      freed := fun q hq hno => hfrees.freed q hq hno (hpos q hq), resent := nofun,
      consumed_le := ?_, consumed_eq := ?_, capacity := ?_ }
    · exact hfrees.consumedSeq.symm ▸ hle
    · rw [hfrees.consumedSeq]
      exact hk'
    · rw [hfrees.consumedSeq, hfrees.capacity]
      exact hcap
  | duplicate seq extraSeq =>
    obtain ⟨hextra, hgot⟩ := hok
    refine Frees.ackStep ?_ hpos nofun
    unfold handleAckForDuplicatePkt
    split
    · exact Frees.refl _ c
    · exact (ackUpTo_frees _ _ fun b _ hb => hbefore b.seq (hb.trans_lt hextra)).trans
        (ackSingle_frees (fun _ => hgot) _ _)
  | disorder seq extraSeq lost =>
    obtain ⟨hgot, hlost, hbetween⟩ := hok
    have hback : ∀ lastSeq times,
        Frees (fun n => 0 < n → rx.GotSeq n) c { c with lastSeq := lastSeq, times := times } :=
      fun _ _ => ⟨Sublist.refl _, fun q hq hno => absurd hq hno, rfl, rfl, rfl, rfl, rfl, rfl, rfl⟩
    rw [handleAck, handleAckForDisorderPkt]
    split
    · exact (hback _ _).ackStep hpos nofun
    dsimp only
    split
    · exact (hback _ _).ackStep hpos nofun
    obtain ⟨hfrees, hresent⟩ :=
      @ackDisorder_frees α (fun n => 0 < n → rx.GotSeq n) seq (fun _ => hgot)
      (c.unackQueue.length + lost.length) c.unackQueue lost ({ c with times := next32 c.times }, [])
      hsorted hlost fun b _ hex hno hb => hbetween b.seq hb hex hno
    exact ((hback c.lastSeq _).trans hfrees).ackStep hpos fun b hb =>
      (hresent b hb).resolve_left not_mem_nil

end TxConn

end PolemoDB.Motion
