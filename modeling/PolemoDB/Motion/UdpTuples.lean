import PolemoDB.Motion.TupTransport
import PolemoDB.Motion.UdpReliable

/-!
# Tuples over the UDP interconnect

The packets that `SendTuple` fills go through a connection that loses, repeats and reorders them.

* `udp_tuples` — at every moment the receiver has put together a prefix of the tuples, without an
  error.
-/

namespace PolemoDB.Motion

open PolemoDB.Lib List Link Chunk TupleChunkType

variable {numSenders : Nat} {s t : ChunkSorter}

theorem addChunkToSorter_grows {c : TupleChunkListItem}
    (h : addChunkToSorter numSenders s c = .ok t) : s.readyTuples <+: t.readyTuples := by
  have hrec {l : List TupleChunkListItem} (h : reconstructTuple { s with chunkList := l } = .ok t) :
      s.readyTuples <+: t.readyTuples := by
    cases hc : cvtChunksToTup l <;>
      simp [reconstructTuple, hc, bind, pure, Except.bind, Except.pure] at h
    simp [← h]
  unfold addChunkToSorter at h
  grind

theorem processChunks_grows {cs : List TupleChunkListItem}
    (h : processChunks numSenders s cs = .ok t) : s.readyTuples <+: t.readyTuples := by
  induction cs generalizing s with
  | nil => simp_all [processChunks]
  | cons c cs ih =>
    unfold processChunks at h
    split at h
    · cases h
    cases hc : addChunkToSorter numSenders s c with
    | error e => simp [hc, Except.bind] at h
    | ok s₁ =>
      rw [hc] at h
      exact (addChunkToSorter_grows hc).trans (ih h)

/-- **Tuples over a lossy network**: in every run of a connection on which the packets of the tuples
are queued, and at most 2^32 - 2 of them, what the receiver has consumed is put together without an
error to a prefix of the tuples; when it has consumed all packets, it has all tuples and the end of
the stream. -/
theorem udp_tuples (m : MotionLayer) (info : SerTupInfo)
    (tuples : List (MinimalTuple info.natts × Bool)) (numSenders txDepth rxDepth : Nat)
    (hdepth : 1 ≤ rxDepth) : ∃ conn, sendTuples m info ⟨[], []⟩ tuples = some conn ∧
      ∀ (es : List (LinkEvent Bytes)) (s : Link Bytes), queuedPackets es + 1 < 2 ^ 32 →
        runSteps step es (init txDepth rxDepth) = some s →
        s.tx.queued.map IcPkt.payload <+: conn.packets →
        ∃ sorter, receivePackets m numSenders .init (s.rx.consumed.map IcPkt.payload) = .ok sorter ∧
          sorter.readyTuples <+: tuples.map (fun t => t.1.body) ∧
          (s.rx.consumed.length = conn.packets.length →
          sorter.readyTuples = tuples.map (fun t => t.1.body) ∧ sorter.endOfStream = true) := by
  obtain ⟨conn, ds, groups, hsend, hcarries, hflat, hpackets, hfits⟩ :=
    sendTuples_ok tuples (Packs.init m)
  refine ⟨conn, hsend, fun es s hfew hrun hqueued => ?_⟩
  have halloc : ∀ body ∈ tuples.map (fun t => t.1.body), body.length + MINIMAL_TUPLE_DATA_OFFSET ≤
      MaxAllocSize := by
    simp only [mem_map, forall_exists_index, and_imp, forall_apply_eq_imp_iff₂]
    exact fun t _ => t.1.alloc
  have hall : processChunks numSenders .init (groups.flatten.map item) =
      .ok ⟨[], tuples.map fun t => t.1.body, true, 1, if 1 = numSenders then false else true⟩ := by
    rw [hflat, nil_append, map_append, processChunks_append, hcarries.processChunks halloc rfl]
    rfl
  -- what is consumed is the packets of the first groups
  obtain ⟨⟨sent, hinv⟩, hfew'⟩ := run_inv hdepth hfew hrun
  have hfirst := prefix_iff_eq_take.mp
    (((hinv.delivered hfew').inOrder.map IcPkt.payload).trans hqueued)
  rw [hpackets, ← map_take, length_map] at hfirst
  rw [hfirst, receivePackets_ok _ _ fun g hg => hfits g (mem_of_mem_take hg), hpackets, length_map]
  rw [← take_append_drop s.rx.consumed.length groups, flatten_append, map_append,
    processChunks_append] at hall
  cases hpre : processChunks numSenders .init ((groups.take s.rx.consumed.length).flatten.map item)
    with
  | error e =>
    rw [hpre] at hall
    cases hall
  | ok sorter =>
    rw [hpre] at hall
    refine ⟨sorter, rfl, processChunks_grows hall, fun hlen => ?_⟩
    rw [hlen, drop_length] at hall
    cases hall
    exact ⟨rfl, rfl⟩

/-- A tuple of one attribute that takes two packets. -/
def longTuple : MinimalTuple 1 :=
  ⟨replicate 500 7, by rw [length_replicate]; decide, fun h => absurd h (by decide)⟩

def longPackets : List Bytes :=
  ((sendTuples (createMotionLayerState .udpifc 512 (by decide) (by decide)) ⟨1, 0⟩ ⟨[], []⟩
    [(longTuple, false)]).map (·.packets)).getD []

/-- The first packet is sent again after a timeout and comes a second time behind the other one. -/
def resentRun : List (LinkEvent Bytes) :=
  let p := longPackets.getD 0 []
  let q := longPackets.getD 1 []
  [.queue p false, .queue q true, .send, .resend ⟨1, false, p⟩, .recvData ⟨1, false, p⟩,
    .recvAck (.plain false 1 0), .send, .recvData ⟨2, true, q⟩, .recvData ⟨1, false, p⟩,
    .prepare, .put, .prepare, .put]

theorem udp_tuples_twice : ∃ s sorter, runSteps step resentRun (init 2 2) = some s ∧
    s.rx.consumed.length = 2 ∧
    receivePackets (createMotionLayerState .udpifc 512 (by decide) (by decide)) 1 .init
      (s.rx.consumed.map IcPkt.payload) = .ok sorter ∧ sorter.readyTuples = [longTuple.body] := by
  obtain ⟨conn, hsend, h⟩ :=
    udp_tuples (createMotionLayerState .udpifc 512 (by decide) (by decide)) ⟨1, 0⟩
    [(longTuple, false)] 1 2 2 (by decide)
  have hpackets : longPackets = conn.packets := by
    rw [longPackets, hsend]
    rfl
  obtain ⟨s, hrun, hqueued, hlen, hall⟩ : ∃ s, runSteps step resentRun (init 2 2) = some s ∧
      s.tx.queued.map IcPkt.payload = longPackets ∧ s.rx.consumed.length = 2 ∧
      longPackets.length = 2 := runSteps_exists (by decide +kernel)
  obtain ⟨sorter, hreceive, -, hready⟩ :=
    h _ s (by decide +kernel) hrun (hqueued.trans hpackets ▸ prefix_rfl)
  exact ⟨s, sorter, hrun, hlen, hreceive, (hready (by rw [hlen, ← hpackets, hall])).1⟩

end PolemoDB.Motion
