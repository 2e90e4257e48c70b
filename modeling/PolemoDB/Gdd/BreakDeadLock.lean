import Mathlib.Tactic.Ring
import PolemoDB.Gdd.Reduce

/-!
# `GddCtxBreakDeadLock`

Each round chooses the largest id that still has an edge, deletes it and reduces again.  The id
travels through `gddCtxGetMaxVid`, which returns an `int`: ids from `2^31` up to `2^64 - 2^31` come
back as another id (`convVid_eq_iff`).

* `breaksDeadLocks_iff` — the loop ends with the right vids exactly when no such id is ever the
  largest one left.
* `gddCtxBreakDeadLock_between_cycles` — for small ids each chosen vid lies on a path from a cycle
  to a cycle.
-/

namespace PolemoDB.Gdd

open PolemoDB.Lib List GddRound

variable {E E' : Finset GddEdge} {ctx : GddCtx}

/-- The edge starts or ends in `v`. -/
def Touches (v : DistributedTransactionId) (e : GddEdge) : Prop := e.vfrom = v ∨ e.vto = v

instance (v : DistributedTransactionId) (e : GddEdge) : Decidable (Touches v e) :=
  inferInstanceAs (Decidable (_ ∨ _))

/-! ## The chosen id -/

section

variable (vid : DistributedTransactionId)

/-- What the trip through `int` makes of an id. -/
def convVid : DistributedTransactionId :=
  vid.toUInt32.toInt32.toInt64.toUInt64

/-- Ids that do not survive the trip. -/
def Truncated : Prop := 2 ^ 31 ≤ vid.toNat ∧ vid.toNat < 2 ^ 64 - 2 ^ 31

/-- Ids that survive it as negative numbers. -/
def Negative : Prop := 2 ^ 64 - 2 ^ 31 ≤ vid.toNat

end

instance (vid : DistributedTransactionId) : Decidable (Truncated vid) :=
  inferInstanceAs (Decidable (_ ∧ _))

instance (vid : DistributedTransactionId) : Decidable (Negative vid) :=
  inferInstanceAs (Decidable (_ ≤ _))

theorem convVid_toNat (vid : DistributedTransactionId) : (convVid vid).toNat = vid.toNat % 2 ^ 32 +
      if 2 ^ 31 ≤ vid.toNat % 2 ^ 32 then 2 ^ 64 - 2 ^ 32 else 0 := by
  have h32 : vid.toUInt32.toInt32.toBitVec.toNat = vid.toNat % 2 ^ 32 := UInt64.toNat_toUInt32 vid
  have hext : (convVid vid).toNat = (BitVec.signExtend 64 vid.toUInt32.toInt32.toBitVec).toNat :=
    rfl
  rw [hext, BitVec.toNat_signExtend, BitVec.msb_eq_decide, BitVec.toNat_setWidth, h32]
  simp only [decide_eq_true_eq]
  congr 1
  omega

/-- **The conversion changes exactly the ids in between.** -/
theorem convVid_eq_iff (vid : DistributedTransactionId) : convVid vid = vid ↔ ¬ Truncated vid := by
  rw [← UInt64.toNat_inj, convVid_toNat]
  unfold Truncated
  have := vid.toNat_lt
  split <;> omega

theorem foldl_max_spec (l : List DistributedTransactionId) :
    ∀ m, let r := l.foldl (fun m x => if m > x then m else x) m
      m ≤ r ∧ (∀ x ∈ l, x ≤ r) ∧ (r = m ∨ r ∈ l) := by
  induction l with
  | nil => simp
  | cons y l ih =>
    intro m
    obtain ⟨h1, h2, h3⟩ := ih (if m > y then m else y)
    simp only [foldl_cons]
    split at h1
    next hlt =>
      rw [if_pos hlt] at h2 h3 ⊢
      refine ⟨h1, forall_mem_cons.mpr ⟨UInt64.le_trans (UInt64.le_of_lt hlt) h1, h2⟩, ?_⟩
      exact h3.imp id (fun h => by simp [h])
    next hlt =>
      rw [if_neg hlt] at h2 h3 ⊢
      refine ⟨UInt64.le_trans (UInt64.not_lt.mp hlt) h1, forall_mem_cons.mpr ⟨h1, h2⟩, ?_⟩
      exact .inr (by rcases h3 with h | h <;> simp [h])

/-- The listed verts that still have an edge. -/
def activeVids (ctx : GddCtx) : List DistributedTransactionId :=
  ctx.graphs.flatMap fun graph => graph.verts.filter fun vid =>
    gddVertGetInDegree (ctx.heap.vert graph.id vid) ≠ 0 ∨
      gddVertGetOutDegree (ctx.heap.vert graph.id vid) ≠ 0

theorem maxVid_eq (ctx : GddCtx) :
    maxVid ctx = (activeVids ctx).foldl (fun m x => if m > x then m else x) 0 := by
  unfold maxVid activeVids
  rw [foldl_flatMap]
  congr 1
  funext m graph
  rw [foldl_filter]
  congr 1
  simp

theorem CtxInv.mem_activeVids (hi : CtxInv ctx E) (v : DistributedTransactionId) :
    v ∈ activeVids ctx ↔ ∃ e ∈ E, Touches v e := by
  unfold activeVids Touches
  simp only [mem_flatMap, mem_filter, decide_eq_true_eq, ne_eq, hi.heap.localIn_eq_zero,
    hi.heap.localOut_eq_zero]
  push Not
  constructor
  · rintro ⟨g, -, -, ⟨e, he, -, ht⟩ | ⟨e, he, -, hf⟩⟩
    · exact ⟨e, he, .inr ht⟩
    · exact ⟨e, he, .inl hf⟩
  rintro ⟨e, he, rfl | rfl⟩
  · obtain ⟨g, hg, hid, hv⟩ := hi.listedFrom e he
    exact ⟨g, hg, hv, .inr ⟨e, he, hid.symm, rfl⟩⟩
  · obtain ⟨g, hg, hid, hv⟩ := hi.listedTo e he
    exact ⟨g, hg, hv, .inl ⟨e, he, hid.symm, rfl⟩⟩

theorem CtxInv.maxVid_isGreatest (hi : CtxInv ctx E) (hne : E.Nonempty) :
    IsGreatest {v | ∃ e ∈ E, Touches v e} (maxVid ctx) := by
  obtain ⟨e, he⟩ := hne
  obtain ⟨-, hub, hmem⟩ := foldl_max_spec (activeVids ctx) 0
  rw [← maxVid_eq] at hub hmem
  refine ⟨?_, fun v hv => hub v ((hi.mem_activeVids v).mpr hv)⟩
  show ∃ e ∈ E, Touches (maxVid ctx) e
  rw [← hi.mem_activeVids]
  rcases hmem with h0 | hm
  · have hact := (hi.mem_activeVids e.vfrom).mpr ⟨e, he, .inl rfl⟩
    have hle := hub _ hact
    rw [h0] at hle ⊢
    have hz : e.vfrom = 0 := by
      apply UInt64.toNat_inj.mp
      have := UInt64.le_iff_toNat_le.mp hle
      simpa using this
    rwa [hz] at hact
  · exact hm

/-! ## Deleting one id -/

theorem gddGraphRemoveVid_spec {h : GddHeap} (hi : HeapInv h E) (graph : GddGraph)
    (vid : DistributedTransactionId) :
    ∃ graph' h' E', gddGraphRemoveVid graph vid h = (graph', h') ∧ graph'.id = graph.id ∧
      HeapInv h' E' ∧ E' ⊆ E ∧ (∀ e ∈ E, e ∉ E' → Touches vid e) ∧
      (∀ x ∈ graph.verts, x ∈ graph'.verts ∨ NoEdgeAt E' graph.id x) ∧
      (vid ∈ graph.verts → NoEdgeAt E' graph.id vid) := by
  unfold gddGraphRemoveVid
  split
  next hnone =>
    refine ⟨graph, h, E, rfl, rfl, hi, Finset.Subset.refl E, fun e he hn => absurd he hn,
      fun x hx => .inl hx, fun hv => ?_⟩
    rw [idxOf?_eq_none_iff] at hnone
    exact absurd hv hnone
  next pos hsome =>
    obtain ⟨hlt, hget, -⟩ := idxOf?_eq_some_iff.mp hsome
    have hsplit : graph.verts = graph.verts.take pos ++ vid :: graph.verts.drop (pos + 1) := by
      rw [← hget, ← drop_eq_getElem_cons hlt, take_append_drop]
    have hlen : (graph.verts.take pos).length = pos := by simp; omega
    obtain ⟨rest', hperm, hdel⟩ :=
      gddMapIterDelete_append (graph.verts.take pos) (graph.verts.drop (pos + 1)) vid
    rw [hlen, ← hsplit] at hdel
    have hnone : NoEdgeAt (E \ vertEdges E graph.id vid) graph.id vid := by
      intro e he hs
      obtain ⟨he, hn⟩ := Finset.mem_sdiff.mp he
      exact ⟨fun ht => hn (Finset.mem_filter.mpr ⟨he, hs, .inl ht⟩),
        fun hf => hn (Finset.mem_filter.mpr ⟨he, hs, .inr hf⟩)⟩
    refine ⟨_, _, E \ vertEdges E graph.id vid, rfl, rfl, (gddVertUnlinkAll_spec hi graph.id vid).1,
      Finset.sdiff_subset, ?_, ?_, fun _ => hnone⟩
    · intro e he hn
      have hv : e ∈ vertEdges E graph.id vid := by
        by_contra hc
        exact hn (Finset.mem_sdiff.mpr ⟨he, hc⟩)
      exact (Finset.mem_filter.mp hv).2.2.symm
    intro x hx
    simp only [hdel]
    rw [hsplit, mem_append, mem_cons] at hx
    rcases hx with hx | rfl | hx
    · exact .inl (mem_append_left _ hx)
    · exact .inr hnone
    · exact .inl (mem_append_right _ (hperm.mem_iff.mpr hx))

theorem removeVidGraphs_spec (vid : DistributedTransactionId) (graphs : List GddGraph) (h : GddHeap)
    (E : Finset GddEdge) (hi : HeapInv h E) :
    ∃ graphs' h' E', removeVidGraphs vid graphs h = (graphs', h') ∧ HeapInv h' E' ∧ E' ⊆ E ∧
      (∀ e ∈ E, e ∉ E' → Touches vid e) ∧
      (∀ s x, Listed graphs s x → Listed graphs' s x ∨ NoEdgeAt E' s x) ∧
      (∀ s, Listed graphs s vid → NoEdgeAt E' s vid) := by
  induction graphs generalizing h E with
  | nil =>
    refine ⟨[], h, E, rfl, hi, Finset.Subset.refl E, fun e he hn => absurd he hn,
      fun s x hx => .inl hx, ?_⟩
    rintro s ⟨g, hg, -⟩
    cases hg
  | cons graph graphs ih =>
    obtain ⟨g₁, h₁, E₁, e₁, hid, hi₁, hsub₁, hrem₁, hkept₁, hgone₁⟩ :=
      gddGraphRemoveVid_spec hi graph vid
    obtain ⟨gs, h₂, E₂, e₂, hi₂, hsub₂, hrem₂, hkept₂, hgone₂⟩ := ih h₁ E₁ hi₁
    refine ⟨g₁ :: gs, h₂, E₂, by simp only [removeVidGraphs, e₁, e₂], hi₂, hsub₂.trans hsub₁, ?_,
      ?_, ?_⟩
    · intro e he hn
      by_cases h1 : e ∈ E₁
      · exact hrem₂ e h1 hn
      · exact hrem₁ e he h1
    · exact kept_cons hid hsub₂ hkept₁ hkept₂
    · intro s hlisted
      rcases listed_cons.mp hlisted with ⟨rfl, hx⟩ | hx
      · exact (hgone₁ hx).mono hsub₂
      · exact hgone₂ s hx

theorem gddCtxRemoveVid_spec (hi : CtxInv ctx E) (vid : DistributedTransactionId) :
    CtxInv (gddCtxRemoveVid ctx vid) (E.filter fun e => ¬ Touches vid e) := by
  obtain ⟨gs, h, E', heq, hi', hsub, hrem, hkept, hgone⟩ :=
    removeVidGraphs_spec vid ctx.graphs ctx.heap E hi.heap
  have hE' : E.filter (fun e => ¬ Touches vid e) = E' := by
    ext e
    rw [Finset.mem_filter]
    constructor
    · rintro ⟨he, hn⟩
      by_contra hc
      exact hn (hrem e he hc)
    intro he
    refine ⟨hsub he, ?_⟩
    rintro (rfl | rfl)
    · exact (hgone _ (hi.listedFrom e (hsub he)) e he rfl).2 rfl
    · exact (hgone _ (hi.listedTo e (hsub he)) e he rfl).1 rfl
  unfold gddCtxRemoveVid
  rw [heq, hE']
  refine ⟨hi', ?_, ?_⟩
  · intro e he
    rcases hkept _ _ (hi.listedFrom e (hsub he)) with hl | hn
    · exact hl
    · exact absurd rfl (hn e he rfl).2
  · intro e he
    rcases hkept _ _ (hi.listedTo e (hsub he)) with hl | hn
    · exact hl
    · exact absurd rfl (hn e he rfl).1

/-! ## One round -/

/-- The edges with no end in `V`. -/
def avoid (V : Set DistributedTransactionId) : Set GddEdge := {e | e.vfrom ∉ V ∧ e.vto ∉ V}

theorem avoid_inter (V W : Set DistributedTransactionId) : avoid V ∩ avoid W = avoid (V ∪ W) := by
  ext e
  simp only [avoid, Set.mem_inter_iff, Set.mem_ofPred_eq, Set.mem_union, not_or]
  tauto

theorem coe_filter_not_touches (E : Finset GddEdge) (v : DistributedTransactionId) :
    ((E.filter fun e => ¬ Touches v e : Finset GddEdge) : Set GddEdge) =
    (E : Set GddEdge) ∩ avoid {v} := by
  ext e
  simp [avoid, Touches]

variable {fuel : Nat} {s : GddCtx × List GddRound} {m : DistributedTransactionId} {E₀ : Set GddEdge}

theorem gddCtxReduce_some {ctx' : GddCtx} (hi : CtxInv ctx E)
    (h : gddCtxReduce fuel ctx = some ctx') : ∃ E', CtxInv ctx' E' ∧
    (E' : Set GddEdge) = core Supported (E : Set GddEdge) := by
  obtain ⟨c, E', heq, hi', hE'⟩ := gddCtxReduce_spec hi (show E.card < fuel + E.card + 1 by omega)
  have := loop_mono h (show fuel ≤ fuel + E.card + 1 by omega)
  unfold gddCtxReduce at heq
  rw [heq] at this
  cases this
  exact ⟨E', hi', hE'⟩

/-- **A round deletes the edges of the converted id and reduces the rest.** -/
theorem breakRound_spec (hi : CtxInv ctx E) (hne : E.Nonempty) (hf : E.card < fuel)
    (rounds : List GddRound) :
      ∃ ctx' E', breakRound fuel (ctx, rounds) =
      some (.inl (ctx', rounds ++ [⟨ctx, convVid (maxVid ctx)⟩])) ∧ CtxInv ctx' E' ∧
      (E' : Set GddEdge) = core Supported ((E : Set GddEdge) ∩ avoid {convVid (maxVid ctx)}) := by
  have hrem := gddCtxRemoveVid_spec hi (convVid (maxVid ctx))
  obtain ⟨ctx', E', heq, hi', hE'⟩ :=
    gddCtxReduce_spec hrem (lt_of_le_of_lt (Finset.card_filter_le E _) hf)
  refine ⟨ctx', E', ?_, hi', by rw [hE', coe_filter_not_touches]⟩
  have hempty : gddCtxEmpty ctx = false := by
    rw [← Bool.not_eq_true, hi.empty_iff]
    exact Finset.nonempty_iff_ne_empty.mp hne
  unfold breakRound
  simp only [hempty, Bool.false_eq_true, if_false]
  have : (gddCtxGetMaxVid ctx).toInt64.toUInt64 = convVid (maxVid ctx) := rfl
  rw [this, heq]

theorem breakRound_inl {rounds : List GddRound}
    (hi : CtxInv ctx E) (h : breakRound fuel (ctx, rounds) = some (.inl s)) :
    E.Nonempty ∧ s.2 = rounds ++ [⟨ctx, convVid (maxVid ctx)⟩] ∧ ∃ E', CtxInv s.1 E' ∧
      (E' : Set GddEdge) = core Supported ((E : Set GddEdge) ∩ avoid {convVid (maxVid ctx)}) := by
  unfold breakRound at h
  split at h
  · cases h
  next hempty =>
    simp only at h hempty
    rw [hi.empty_iff, ← ne_eq, ← Finset.nonempty_iff_ne_empty] at hempty
    split at h
    · cases h
    next ctx' heq =>
      cases h
      obtain ⟨E', hi', hE'⟩ := gddCtxReduce_some (gddCtxRemoveVid_spec hi _) heq
      exact ⟨hempty, rfl, E', hi', by rw [hE', coe_filter_not_touches]; rfl⟩

variable {r : GddCtx × List GddRound} {calls : List GddEdge} (a b : DistributedTransactionId)

theorem breakRound_inr (hi : CtxInv s.1 E) (h : breakRound fuel s = some (.inr r)) : r = s ∧
    E = ∅ := by
  unfold breakRound at h
  split at h
  next hempty =>
    cases h
    exact ⟨rfl, hi.empty_iff.mp hempty⟩
  · simp only at h
    split at h <;> cases h

/-! ## Runs that never meet a truncated id -/

/-- No truncated id survives the reduction of the graph without the negative ids. -/
def Safe (S : Set GddEdge) : Prop :=
  ∀ e ∈ core Supported (S ∩ avoid {v | Negative v}), ¬ Truncated e.vfrom ∧ ¬ Truncated e.vto

theorem Safe.mono {S T : Set GddEdge} (h : Safe T) (hsub : S ⊆ T) : Safe S :=
  fun e he => h e (core_mono (Set.inter_subset_inter_left _ hsub) he)

theorem inter_avoid_of_greatest (hm : ¬ Negative m) (hg : IsGreatest {v | ∃ e ∈ E, Touches v e} m) :
    (E : Set GddEdge) ∩ avoid {v | Negative v} = E := by
  refine Set.inter_eq_left.mpr fun e he => ?_
  have hle : ∀ v, Touches v e → ¬ Negative v := by
    intro v hv hneg
    have := UInt64.le_iff_toNat_le.mp (hg.2 ⟨e, he, hv⟩)
    exact hm (le_trans hneg this)
  exact ⟨hle _ (.inl rfl), hle _ (.inr rfl)⟩

/-- **In a reduced graph the largest id survives the conversion when the graph is safe.** -/
theorem Safe.not_truncated (hs : Safe (E : Set GddEdge))
    (hc : Consistent Supported (E : Set GddEdge)) (hg : IsGreatest {v | ∃ e ∈ E, Touches v e} m) :
    ¬ Truncated m := by
  intro ht
  have hneg : ¬ Negative m := by
    unfold Negative
    have := ht.2
    omega
  obtain ⟨e, he, htouch⟩ := hg.1
  have hcore : e ∈ core Supported ((E : Set GddEdge) ∩ avoid {v | Negative v}) := by
    rw [inter_avoid_of_greatest hneg hg, core_of_consistent hc]
    exact he
  rcases htouch with rfl | rfl
  · exact (hs e hcore).1 ht
  · exact (hs e hcore).2 ht

/-- The context of a round was reduced, and its vid is the largest id with an edge. -/
def GoodRound (r : GddRound) : Prop := ∃ E, CtxInv r.ctx E ∧
    Consistent Supported (E : Set GddEdge) ∧ IsGreatest {v | ∃ e ∈ E, Touches v e} r.maxvid

/-- Between two rounds: the context is the reduction of the graph without the vids chosen so far,
which are decreasing and larger than every id left. -/
structure RunInv (E₀ : Set GddEdge) (fuel : Nat) (s : GddCtx × List GddRound)
    (E : Finset GddEdge) : Prop where
  inv : CtxInv s.1 E
  edges : (E : Set GddEdge) = core Supported (E₀ ∩ avoid {v | v ∈ s.2.map maxvid})
  fuel : E.card < fuel
  safe : Safe (E : Set GddEdge)
  good : ∀ r ∈ s.2, GoodRound r
  decr : (s.2.map maxvid).Pairwise (· > ·)
  below : ∀ w ∈ s.2.map maxvid, ∀ e ∈ E, ∀ v, Touches v e → v < w

theorem RunInv.consistent (h : RunInv E₀ fuel s E) : Consistent Supported (E : Set GddEdge) := by
  rw [h.edges]
  exact core_consistent supported_mono

theorem RunInv.step (h : RunInv E₀ fuel s E) (hne : E.Nonempty) :
    ∃ s' E', breakRound fuel s = some (.inl s') ∧ RunInv E₀ fuel s' E' ∧ E'.card < E.card := by
  obtain ⟨ctx, rounds⟩ := s
  have hg := h.inv.maxVid_isGreatest hne
  have hconv := (convVid_eq_iff _).mpr (h.safe.not_truncated h.consistent hg)
  obtain ⟨ctx', E', heq, hi', hE'⟩ := breakRound_spec h.inv hne h.fuel rounds
  rw [hconv] at heq hE'
  have hsub : E' ⊆ E := by
    rw [← Finset.coe_subset, hE']
    exact core_subset.trans Set.inter_subset_left
  have hnot : ∀ e ∈ E', ¬ Touches (maxVid ctx) e := by
    intro e he
    have hmem : e ∈ (E' : Set GddEdge) := he
    rw [hE'] at hmem
    have := (core_subset hmem).2
    rintro (hc | hc)
    · exact this.1 hc
    · exact this.2 hc
  obtain ⟨e, he, htouch⟩ := hg.1
  have hlt : E'.card < E.card := by
    refine Finset.card_lt_card (Finset.ssubset_iff_subset_ne.mpr ⟨hsub, ?_⟩)
    rintro rfl
    exact hnot e he htouch
  refine ⟨_, E', heq, ⟨hi', ?_, lt_trans hlt h.fuel, h.safe.mono (Finset.coe_subset.mpr hsub), ?_,
    ?_, ?_⟩, hlt⟩
  · rw [hE', h.edges, core_inter supported_mono, Set.inter_assoc, avoid_inter]
    congr 3
    ext v
    simp [or_comm]
  · exact forall_mem_append.mpr
      ⟨h.good, forall_mem_singleton.mpr ⟨E, h.inv, h.consistent, hg⟩⟩
  · rw [map_append, pairwise_append]
    refine ⟨h.decr, pairwise_singleton _ _, ?_⟩
    intro w hw v hv
    rw [map_singleton, mem_singleton] at hv
    subst hv
    exact h.below w hw e he _ htouch
  · intro w hw f hf v hv
    rw [map_append, mem_append, map_singleton, mem_singleton] at hw
    rcases hw with hw | rfl
    · exact h.below w hw f (hsub hf) v hv
    · refine UInt64.lt_of_le_of_ne (hg.2 ⟨f, hsub hf, hv⟩) ?_
      rintro rfl
      exact hnot f hf hv

/-- **A safe run ends** with decreasing vids, each the largest id of its moment, and without them
the graph reduces to nothing. -/
theorem gddCtxBreakRounds_safe (h : RunInv E₀ fuel (ctx, []) E) :
    ∃ ctx' rounds, gddCtxBreakRounds fuel ctx = some (ctx', rounds) ∧
      (rounds.map maxvid).Pairwise (· > ·) ∧ (∀ r ∈ rounds, GoodRound r) ∧
      core Supported (E₀ ∩ avoid {v | v ∈ rounds.map maxvid}) = ∅ := by
  obtain ⟨r, heq, hdecr, hgood, hcore⟩ := loop_terminates (breakRound fuel)
    (fun s : GddCtx × List GddRound => ∃ E, RunInv E₀ fuel s E)
    (fun r : GddCtx × List GddRound => (r.2.map maxvid).Pairwise (· > ·) ∧
      (∀ rd ∈ r.2, GoodRound rd) ∧ core Supported (E₀ ∩ avoid {v | v ∈ r.2.map maxvid}) = ∅)
    (fun s => s.1.heap.topstat.indeg.toNat)
    (fun s ⟨E, hs⟩ => by
      rcases Finset.eq_empty_or_nonempty E with hE | hne
      · refine .inr ⟨s, ?_, hs.decr, hs.good, ?_⟩
        · unfold breakRound
          rw [if_pos (hs.inv.empty_iff.mpr hE)]
        · rw [← hs.edges, hE, Finset.coe_empty]
      · obtain ⟨s', E', hb, hs', hlt⟩ := hs.step hne
        refine .inl ⟨s', hb, ⟨E', hs'⟩, ?_⟩
        rw [hs'.inv.heap.topIn, hs.inv.heap.topIn]
        simpa using hlt)
    fuel (ctx, []) ⟨E, h⟩ (by
      have hfuel := h.fuel
      rw [h.inv.heap.topIn]
      simpa using hfuel)
  exact ⟨r.1, r.2, heq, hdecr, hgood, hcore⟩

/-- **A finished run whose vids were all the largest ids of their moments was safe.** -/
theorem safe_of_finished {n : Nat} (h : loop (breakRound fuel) n s = some r) (hi : CtxInv s.1 E)
    (hc : Consistent Supported (E : Set GddEdge))
    (hg : ∀ rd ∈ r.2, IsGreatest {v | ∃ e ∈ gddCtxEdges rd.ctx, Touches v e} rd.maxvid) :
    Safe (E : Set GddEdge) := by
  refine (loop_sound (breakRound fuel) (fun s r => ∀ E, CtxInv s.1 E →
    Consistent Supported (E : Set GddEdge) → (∀ rd ∈ s.2, rd ∈ r.2) ∧
    ((∀ rd ∈ r.2, IsGreatest {v | ∃ e ∈ gddCtxEdges rd.ctx, Touches v e} rd.maxvid) →
      Safe (E : Set GddEdge))) ?_ ?_ n s r h E hi hc).2 hg
  · intro s s' r hb ih E hi hc
    obtain ⟨hne, hrounds, E', hi', hE'⟩ := breakRound_inl hi hb
    have hc' : Consistent Supported (E' : Set GddEdge) := by
      rw [hE']
      exact core_consistent supported_mono
    obtain ⟨hsub, hsafe⟩ := ih E' hi' hc'
    rw [hrounds] at hsub
    refine ⟨fun rd hrd => hsub rd (mem_append_left _ hrd), fun hall => ?_⟩
    have hmax := hi.maxVid_isGreatest hne
    have hchosen := hall _ (hsub _ (mem_append_right _ (mem_singleton.mpr rfl)))
    have hsame : {v | ∃ e ∈ gddCtxEdges s.1, Touches v e} = {v | ∃ e ∈ E, Touches v e} := by
      simp only [hi.mem_edges]
    rw [hsame] at hchosen
    have hconv : convVid (maxVid s.1) = maxVid s.1 :=
      UInt64.le_antisymm (hmax.2 hchosen.1) (hchosen.2 hmax.1)
    have htrunc := (convVid_eq_iff _).mp hconv
    by_cases hneg : Negative (maxVid s.1)
    · -- deleting a negative id does not change the graph without the negative ids
      have hset : core Supported ((E' : Set GddEdge) ∩ avoid {v | Negative v}) =
          core Supported ((E : Set GddEdge) ∩ avoid {v | Negative v}) := by
        rw [hE', hconv, core_inter supported_mono, Set.inter_assoc, avoid_inter]
        congr 3
        ext v
        simp only [Set.mem_union, Set.mem_singleton_iff, Set.mem_ofPred_eq, or_iff_right_iff_imp]
        rintro rfl
        exact hneg
      have := hsafe hall
      unfold Safe at this ⊢
      rwa [hset] at this
    · -- the largest id is small, so all are
      intro e he
      have hsmall : ∀ v, Touches v e → ¬ Truncated v := by
        intro v hv ht
        have hle := UInt64.le_iff_toNat_le.mp (hmax.2 ⟨e, (core_subset he).1, hv⟩)
        unfold Negative at hneg
        unfold Truncated at htrunc ht
        omega
      exact ⟨hsmall _ (.inl rfl), hsmall _ (.inr rfl)⟩
  · intro s r hb E hi _
    obtain ⟨rfl, rfl⟩ := breakRound_inr hi hb
    refine ⟨fun rd hrd => hrd, fun _ e he => ?_⟩
    have := (core_subset he).1
    simp at this

/-! ## Correctness -/

/-- What the caller relies on: the loop ends; the vids are distinct; each was the largest id with an
edge when it was chosen; the wait graph without them reduces to nothing. -/
def BreaksDeadLocks (calls : List GddEdge) : Prop :=
  ∃ fuel ctx ctx' vids, gddCtxReduce fuel (gddCtxBuild calls) = some ctx ∧
    gddCtxBreakDeadLock fuel ctx = some (ctx', vids) ∧ vids.Nodup ∧
    (∃ rounds, gddCtxBreakRounds fuel ctx = some (ctx', rounds) ∧ vids = rounds.map maxvid ∧
      ∀ r ∈ rounds, IsGreatest {v | ∃ e ∈ gddCtxEdges r.ctx, Touches v e} r.maxvid) ∧
    ∃ ctx'', gddCtxReduce fuel
        (gddCtxBuild (calls.filter fun e => e.vfrom ∉ vids ∧ e.vto ∉ vids)) = some ctx'' ∧
      gddCtxEdges ctx'' = []

theorem GoodRound.isGreatest {r : GddRound} (h : GoodRound r) :
    IsGreatest {v | ∃ e ∈ gddCtxEdges r.ctx, Touches v e} r.maxvid := by
  obtain ⟨E, hi, -, hg⟩ := h
  have : {v | ∃ e ∈ gddCtxEdges r.ctx, Touches v e} = {v | ∃ e ∈ E, Touches v e} := by
    simp only [hi.mem_edges]
  rwa [this]

theorem coe_toFinset (calls : List GddEdge) : (calls.toFinset : Set GddEdge) = {e | e ∈ calls} := by
  simp

theorem runInv_start (hnd : calls.Nodup) (hs : Safe {e | e ∈ calls}) (hf : calls.length < fuel) :
    ∃ ctx E, gddCtxReduce fuel (gddCtxBuild calls) = some ctx ∧
    RunInv {e | e ∈ calls} fuel (ctx, []) E := by
  have hcard := lt_of_le_of_lt (toFinset_card_le calls) hf
  obtain ⟨ctx, E, heq, hi, hE⟩ := gddCtxReduce_spec (gddCtxBuild_inv hnd) hcard
  rw [coe_toFinset] at hE
  have hsub : (E : Set GddEdge) ⊆ {e | e ∈ calls} := hE ▸ core_subset
  refine ⟨ctx, E, heq, hi, ?_, ?_, hs.mono hsub, ?_, ?_, ?_⟩
  · rw [hE]
    congr 1
    exact (Set.inter_eq_left.mpr fun e _ => by simp [avoid]).symm
  · refine lt_of_le_of_lt (Finset.card_le_card ?_) hcard
    rwa [← Finset.coe_subset, coe_toFinset]
  · intro r hr; cases hr
  · exact List.Pairwise.nil
  · intro w hw; cases hw

theorem breaksDeadLocks_iff (hnd : calls.Nodup) : BreaksDeadLocks calls ↔ Safe {e | e ∈ calls} := by
  constructor
  · rintro ⟨fuel, ctx, ctx', vids, heq, -, -, ⟨rounds, hrounds, -, hg⟩, -⟩
    obtain ⟨E, hi, hE⟩ := gddCtxReduce_some (gddCtxBuild_inv hnd) heq
    rw [coe_toFinset] at hE
    have hsafe : Safe (E : Set GddEdge) :=
      safe_of_finished hrounds hi (hE ▸ core_consistent supported_mono) hg
    unfold Safe at hsafe ⊢
    rwa [hE, core_inter supported_mono] at hsafe
  · intro hs
    obtain ⟨ctx, E, heq, hrun⟩ := runInv_start hnd hs (Nat.lt_succ_self _)
    obtain ⟨ctx', rounds, hr, hdecr, hgood, hcore⟩ := gddCtxBreakRounds_safe hrun
    have hfilter : (calls.filter fun e => e.vfrom ∉ rounds.map maxvid ∧
        e.vto ∉ rounds.map maxvid).Nodup := hnd.filter _
    obtain ⟨ctx'', heq'', hedges⟩ := gddCtxReduce_edges (gddCtxBuild_inv hfilter)
      (lt_of_le_of_lt (length_filter_le _ calls) (Nat.lt_succ_self _))
    refine ⟨calls.length + 1, ctx, ctx', rounds.map maxvid, heq, ?_, ?_,
      ⟨rounds, hr, rfl, fun r hr => (hgood r hr).isGreatest⟩, ctx'', heq'', ?_⟩
    · unfold gddCtxBreakDeadLock
      rw [hr]
      rfl
    · exact hdecr.imp fun h => (UInt64.ne_of_lt h).symm
    have hset : {e | e ∈ calls.filter fun e => e.vfrom ∉ rounds.map maxvid ∧
        e.vto ∉ rounds.map maxvid} = {e | e ∈ calls} ∩ avoid {v | v ∈ rounds.map maxvid} := by
      ext e
      simp only [Set.mem_ofPred_eq, mem_filter, decide_eq_true_eq, avoid, Set.mem_inter_iff]
    rw [hset, hcore] at hedges
    exact eq_nil_iff_forall_not_mem.mpr fun e he => by
      have : e ∈ ({e | e ∈ gddCtxEdges ctx''} : Set GddEdge) := he
      rw [hedges] at this
      exact this

/-- Two transactions that wait for each other. -/
def pairCalls : List GddEdge :=
  [⟨0, 0, a, b, true⟩, ⟨1, 0, b, a, true⟩]

theorem pairCalls_consistent : Consistent Supported {e | e ∈ pairCalls a b} := by
  intro e he
  simp only [pairCalls, Set.mem_ofPred_eq, mem_cons, not_mem_nil, or_false] at he
  unfold Supported pairCalls
  rcases he with rfl | rfl <;> simp

/-- **`GddCtxBreakDeadLock` is right exactly when no id that the `int` truncates survives** the
reduction of the wait graph without the ids of `2^64 - 2^31` and more. -/
theorem gddCtxBreakDeadLock_correct_iff (calls : List GddEdge) (hnd : calls.Nodup) :
      BreaksDeadLocks calls ↔ ∀ e ∈ core Supported ({e | e ∈ calls} ∩ avoid {v | Negative v}),
        ¬ Truncated e.vfrom ∧ ¬ Truncated e.vto :=
  breaksDeadLocks_iff hnd

/-- Two small ids that wait for each other. -/
theorem gddCtxBreakDeadLock_correct_iff_pair : BreaksDeadLocks (pairCalls 7 9) := by
  refine (gddCtxBreakDeadLock_correct_iff (pairCalls 7 9) (by decide)).mpr ?_
  intro e he
  have hmem : e ∈ pairCalls 7 9 := (core_subset he).1
  simp only [pairCalls, mem_cons, not_mem_nil, or_false] at hmem
  rcases hmem with rfl | rfl <;> decide

/-- **A chosen id that no edge touches is chosen for ever.** -/
theorem gddCtxBreakRounds_diverges (hi : CtxInv ctx E) (hc : Consistent Supported (E : Set GddEdge))
    (hg : IsGreatest {v | ∃ e ∈ E, Touches v e} m)
    (hnone : ∀ e ∈ E, ¬ Touches (convVid m) e) (fuel : Nat) :
    gddCtxBreakRounds fuel ctx = none := by
  have hne : E.Nonempty := by
    obtain ⟨e, he, -⟩ := hg.1
    exact ⟨e, he⟩
  have hkeep : (E : Set GddEdge) ∩ avoid {convVid m} = E :=
    Set.inter_eq_left.mpr fun e he => ⟨fun h => hnone e he (.inl h), fun h => hnone e he (.inr h)⟩
  have hrun := loop_sound (breakRound fuel)
    (fun (s : GddCtx × List GddRound) (_ : GddCtx × List GddRound) =>
    ¬ CtxInv s.1 E) (fun s s' _ hb ih hi => ?_) (fun s r hb hi => ?_)
  · cases hr : gddCtxBreakRounds fuel ctx with
    | none => rfl
    | some r => exact absurd hi (hrun fuel (ctx, []) r hr)
  · obtain ⟨-, -, E', hi', hE'⟩ := breakRound_inl hi hb
    have hm : maxVid s.1 = m :=
      UInt64.le_antisymm (hg.2 (hi.maxVid_isGreatest hne).1) ((hi.maxVid_isGreatest hne).2 hg.1)
    rw [hm, hkeep, core_of_consistent hc, Finset.coe_inj] at hE'
    exact ih (hE' ▸ hi')
  · exact Finset.nonempty_iff_ne_empty.mp hne (breakRound_inr hi hb).2

/-- Two transactions of which one has the id `2^31`: the `int` makes `2^64 - 2^31` of it, no vert
has that id, and the loop never ends. -/
theorem gddCtxBreakDeadLock_wide_pair : ¬ BreaksDeadLocks (pairCalls 0x80000000 1) ∧
      ∀ fuel ctx, gddCtxReduce fuel (gddCtxBuild (pairCalls 0x80000000 1)) = some ctx →
        gddCtxBreakDeadLock fuel ctx = none := by
  have hnd : (pairCalls 0x80000000 1).Nodup := by decide
  have hcons := pairCalls_consistent 0x80000000 1
  constructor
  · rw [breaksDeadLocks_iff hnd]
    intro hs
    have havoid : {e | e ∈ pairCalls 0x80000000 1} ∩ avoid {v | Negative v} =
        {e | e ∈ pairCalls 0x80000000 1} := by
      refine Set.inter_eq_left.mpr fun e he => ?_
      simp only [pairCalls, Set.mem_ofPred_eq, mem_cons, not_mem_nil, or_false] at he
      show ¬ Negative e.vfrom ∧ ¬ Negative e.vto
      rcases he with rfl | rfl <;> decide
    unfold Safe at hs
    rw [havoid, core_of_consistent hcons] at hs
    exact (hs ⟨0, 0, 0x80000000, 1, true⟩ (by decide)).1 (by decide)
  · intro fuel ctx heq
    obtain ⟨E, hi, hE⟩ := gddCtxReduce_some (gddCtxBuild_inv hnd) heq
    rw [coe_toFinset, core_of_consistent hcons, ← coe_toFinset, Finset.coe_inj] at hE
    unfold gddCtxBreakDeadLock
    have hids : {v | ∃ e ∈ E, Touches v e} = {0x80000000, 1} := by
      rw [hE]
      ext v
      simp only [pairCalls, Set.mem_ofPred_eq, mem_toFinset, mem_cons, not_mem_nil,
        or_false, Touches, Set.mem_insert_iff, Set.mem_singleton_iff]
      constructor
      · rintro ⟨e, rfl | rfl, rfl | rfl⟩ <;> simp
      · rintro (rfl | rfl)
        · exact ⟨⟨0, 0, 0x80000000, 1, true⟩, .inl rfl, .inl rfl⟩
        · exact ⟨⟨0, 0, 0x80000000, 1, true⟩, .inl rfl, .inr rfl⟩
    have hg : IsGreatest {v | ∃ e ∈ E, Touches v e} 0x80000000 := by
      rw [hids]
      refine ⟨by simp, ?_⟩
      rintro v (rfl | rfl) <;> decide
    have hnone : ∀ e ∈ E, ¬ Touches (convVid 0x80000000) e := by
      rw [hE]
      decide
    rw [gddCtxBreakRounds_diverges hi (by rw [hE, coe_toFinset]; exact hcons) hg hnone fuel]
    rfl

/-! ## Cycles -/

/-- Some remaining edge leads from `a` to `b`, on whatever segment. -/
def Waits (ctx : GddCtx) (a b : DistributedTransactionId) : Prop :=
  ∃ e ∈ gddCtxEdges ctx, e.vfrom = a ∧ e.vto = b

/-- `v` lies on a directed cycle of the global wait graph. -/
def OnCycle (ctx : GddCtx) (v : DistributedTransactionId) : Prop :=
  Relation.TransGen (Waits ctx) v v

/-- **In a reduced graph every id with an edge lies between two cycles.** -/
theorem between_cycles (hi : CtxInv ctx E) (hc : Consistent Supported (E : Set GddEdge))
    {v : DistributedTransactionId} (hv : ∃ e ∈ E, Touches v e) :
    (∃ c, OnCycle ctx c ∧ Relation.ReflTransGen (Waits ctx) c v) ∧
      ∃ c, Relation.ReflTransGen (Waits ctx) v c ∧ OnCycle ctx c := by
  have hwait : ∀ e ∈ E, Waits ctx e.vfrom e.vto := fun e he =>
    ⟨e, (hi.mem_edges e).mpr he, rfl, rfl⟩
  have hfin : {v | ∃ e ∈ E, Touches v e}.Finite := by
    refine Set.Finite.subset (finite_toSet (activeVids ctx)) fun v hv => ?_
    exact (hi.mem_activeVids v).mpr hv
  constructor
  · -- backwards: whatever has an edge has an edge entering it
    obtain ⟨c, -, hreach, hcyc⟩ := exists_cycle_of_serial (r := Function.swap (Waits ctx)) hfin
      (fun x ⟨e, he, hx⟩ => by
        rcases hx with rfl | rfl
        · obtain ⟨f, hf, hto⟩ := (hc e he).1
          exact ⟨f.vfrom, ⟨f, hf, .inl rfl⟩, hto ▸ hwait f hf⟩
        · exact ⟨e.vfrom, ⟨e, he, .inl rfl⟩, hwait e he⟩) hv
    exact ⟨c, Relation.transGen_swap.mp hcyc, Relation.reflTransGen_swap.mp hreach⟩
  · -- forwards: whatever has an edge has an edge leaving it
    obtain ⟨c, -, hreach, hcyc⟩ :=
      exists_cycle_of_serial (r := Waits ctx) hfin (fun x ⟨e, he, hx⟩ => by
        rcases hx with rfl | rfl
        · exact ⟨e.vto, ⟨e, he, .inr rfl⟩, hwait e he⟩
        · obtain ⟨f, hf, hfrom⟩ := (hc e he).2.1
          exact ⟨f.vto, ⟨f, hf, .inr rfl⟩, hfrom ▸ hwait f hf⟩) hv
    exact ⟨c, hreach, hcyc⟩

/-- **No false alarm.**  With ids below `2^31` the loop ends, and each vid it puts in the list was,
when it was chosen, the largest id of the remaining wait graph and on a path from a directed cycle
to a directed cycle of that graph. -/
theorem gddCtxBreakDeadLock_between_cycles (calls : List GddEdge) (hnd : calls.Nodup)
    (hsmall : ∀ e ∈ calls, e.vfrom.toNat < 2 ^ 31 ∧ e.vto.toNat < 2 ^ 31) :
    ∃ fuel ctx ctx' rounds, gddCtxReduce fuel (gddCtxBuild calls) = some ctx ∧
      gddCtxBreakRounds fuel ctx = some (ctx', rounds) ∧
      ∀ r ∈ rounds, IsGreatest {v | ∃ e ∈ gddCtxEdges r.ctx, Touches v e} r.maxvid ∧
        (∃ c, OnCycle r.ctx c ∧ Relation.ReflTransGen (Waits r.ctx) c r.maxvid) ∧
        ∃ c, Relation.ReflTransGen (Waits r.ctx) r.maxvid c ∧ OnCycle r.ctx c := by
  have hs : Safe {e | e ∈ calls} := by
    intro e he
    obtain ⟨h1, h2⟩ := hsmall e (core_subset he).1
    unfold Truncated
    omega
  obtain ⟨ctx, E, heq, hrun⟩ := runInv_start hnd hs (Nat.lt_succ_self _)
  obtain ⟨ctx', rounds, hr, -, hgood, -⟩ := gddCtxBreakRounds_safe hrun
  refine ⟨calls.length + 1, ctx, ctx', rounds, heq, hr, fun r hrm => ?_⟩
  obtain ⟨E, hi, hc, hg⟩ := hgood r hrm
  exact ⟨(hgood r hrm).isGreatest, between_cycles hi hc hg.1⟩

/-- Two small ids that wait for each other. -/
theorem gddCtxBreakDeadLock_between_cycles_pair :
    ∃ fuel ctx ctx' rounds, gddCtxReduce fuel (gddCtxBuild (pairCalls 7 9)) = some ctx ∧
      gddCtxBreakRounds fuel ctx = some (ctx', rounds) ∧
      ∀ r ∈ rounds, ∃ c, OnCycle r.ctx c := by
  obtain ⟨fuel, ctx, ctx', rounds, h1, h2, h3⟩ :=
    gddCtxBreakDeadLock_between_cycles (pairCalls 7 9) (by decide) (by decide)
  refine ⟨fuel, ctx, ctx', rounds, h1, h2, fun r hr => ?_⟩
  obtain ⟨-, ⟨c, hc, -⟩, -⟩ := h3 r hr
  exact ⟨c, hc⟩

/-- Two pairs that wait for each other, and one transaction between them with the largest id. -/
def bridgeCalls : List GddEdge :=
  [⟨0, 0, 1, 2, true⟩, ⟨1, 0, 2, 1, true⟩, ⟨2, 0, 2, 5, true⟩, ⟨3, 0, 5, 3, true⟩,
    ⟨4, 0, 3, 4, true⟩, ⟨5, 0, 4, 3, true⟩]

theorem bridgeCalls_run : ((gddCtxReduce 4 (gddCtxBuild bridgeCalls)).bind
      (gddCtxBreakRounds 4)).map (fun r => r.2.map fun rd => (rd.maxvid, gddCtxEdges rd.ctx)) =
    some [(5, [⟨1, 0, 2, 1, true⟩, ⟨0, 0, 1, 2, true⟩, ⟨2, 0, 2, 5, true⟩, ⟨3, 0, 5, 3, true⟩,
        ⟨5, 0, 4, 3, true⟩, ⟨4, 0, 3, 4, true⟩]),
      (4, [⟨1, 0, 2, 1, true⟩, ⟨0, 0, 1, 2, true⟩, ⟨4, 0, 3, 4, true⟩, ⟨5, 0, 4, 3, true⟩]),
      (2, [⟨1, 0, 2, 1, true⟩, ⟨0, 0, 1, 2, true⟩])] := by
  decide

/-- The first vid chosen is on no cycle. -/
theorem gddCtxBreakDeadLock_bridge : ∃ ctx ctx' rounds, gddCtxReduce 4 (gddCtxBuild bridgeCalls) =
      some ctx ∧ gddCtxBreakRounds 4 ctx = some (ctx', rounds) ∧
      (∀ e ∈ bridgeCalls, e.vfrom.toNat < 2 ^ 31 ∧ e.vto.toNat < 2 ^ 31) ∧
      ∃ r ∈ rounds, r.maxvid = 5 ∧ ¬ OnCycle r.ctx r.maxvid := by
  have hrun := bridgeCalls_run
  cases hred : gddCtxReduce 4 (gddCtxBuild bridgeCalls) with
  | none => rw [hred] at hrun; cases hrun
  | some ctx =>
    rw [hred, Option.bind_some] at hrun
    cases hbrk : gddCtxBreakRounds 4 ctx with
    | none => rw [hbrk] at hrun; cases hrun
    | some res =>
      rw [hbrk, Option.map_some, Option.some_inj, map_eq_cons_iff] at hrun
      obtain ⟨r, rest, hrounds, hr, -⟩ := hrun
      rw [Prod.mk.injEq] at hr
      refine ⟨ctx, res.1, res.2, rfl, hbrk, by decide, r, by rw [hrounds]; simp, hr.1, ?_⟩
      have hreach : ∀ b, Relation.TransGen (Waits r.ctx) 5 b → b = 3 ∨ b = 4 := by
        intro b hb
        unfold Waits at hb
        rw [hr.2] at hb
        induction hb with
        | single hb =>
          obtain ⟨e, he, hfrom, rfl⟩ := hb
          simp only [mem_cons, not_mem_nil, or_false] at he
          rcases he with rfl | rfl | rfl | rfl | rfl | rfl <;> revert hfrom <;> decide
        | tail _ hb ih =>
          obtain ⟨e, he, hfrom, rfl⟩ := hb
          simp only [mem_cons, not_mem_nil, or_false] at he
          rcases ih with rfl | rfl <;>
            rcases he with rfl | rfl | rfl | rfl | rfl | rfl <;> revert hfrom <;> decide
      rw [hr.1]
      intro hcyc
      exact absurd (hreach 5 hcyc) (by decide)

end PolemoDB.Gdd
