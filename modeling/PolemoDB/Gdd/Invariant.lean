import PolemoDB.Lib.Consistent
import PolemoDB.Gdd.Detector

/-!
# Edge lists, degrees and counters of the detector

`HeapInv h E` ties the three redundant representations to one edge set `E`: the in and out lists of
every vert, the global degrees of every transaction and the total counters.  `CtxInv` adds that the
ends of every edge are listed in the vert map of its segment.
-/

namespace PolemoDB.Gdd

open PolemoDB.Lib List GddHeap

/-- The heap represents the edge set `E`. -/
structure HeapInv (h : GddHeap) (E : Finset GddEdge) : Prop where
  topIn : h.topstat.indeg = E.card
  topOut : h.topstat.outdeg = E.card
  globIn : ∀ v, (h.globals v).indeg = (E.filter (fun e => e.vto = v)).card
  globOut : ∀ v, (h.globals v).outdeg = (E.filter (fun e => e.vfrom = v)).card
  memIn : ∀ s v e, e ∈ (h.vert s v).edgesIn ↔ e ∈ E ∧ e.segid = s ∧ e.vto = v
  memOut : ∀ s v e, e ∈ (h.vert s v).edgesOut ↔ e ∈ E ∧ e.segid = s ∧ e.vfrom = v
  nodupIn : ∀ s v, (h.vert s v).edgesIn.Nodup
  nodupOut : ∀ s v, (h.vert s v).edgesOut.Nodup

/-- A vert with this name is in the map of its segment. -/
def Listed (graphs : List GddGraph) (s : Int32) (v : DistributedTransactionId) : Prop :=
  ∃ graph ∈ graphs, graph.id = s ∧ v ∈ graph.verts

/-- The context represents the edge set `E`, and the ends of its edges are listed. -/
structure CtxInv (ctx : GddCtx) (E : Finset GddEdge) : Prop where
  heap : HeapInv ctx.heap E
  listedFrom : ∀ e ∈ E, Listed ctx.graphs e.segid e.vfrom
  listedTo : ∀ e ∈ E, Listed ctx.graphs e.segid e.vto

variable {h : GddHeap} {E : Finset GddEdge} {e : GddEdge}

/-! ## Counting -/

theorem card_erase_int (he : e ∈ E) : ((E.erase e).card : Int) = E.card - 1 := by
  have := Finset.card_erase_add_one he
  omega

/-! ## One edge -/

variable {rest l : List GddEdge} {s : Int32} {v : DistributedTransactionId}

/-- Deleting the cell of `e` through an iterator is deleting `e` from the list. -/
theorem gddEdgeUnlinkTo_iter {before : List GddEdge}
    (hl : (h.vert e.segid e.vto).edgesIn = before ++ e :: rest) (hn : e ∉ before) :
    gddEdgeUnlinkTo h e (some (before ++ rest)) = gddEdgeUnlinkTo h e none := by
  simp only [gddEdgeUnlinkTo, modVert, modGlobal, hl, erase_append_right _ hn, erase_cons_head]

theorem gddEdgeUnlinkFrom_iter (hl : (h.vert e.segid e.vfrom).edgesOut = e :: rest) :
    gddEdgeUnlinkFrom h e (some rest) = gddEdgeUnlinkFrom h e none := by
  simp only [gddEdgeUnlinkFrom, modVert, modGlobal, hl, erase_cons_head]

/-- The heap with `d` added to every counter of the edge and with both of its lists changed. -/
def editEdge (h : GddHeap) (e : GddEdge) (d : Int) (g : List GddEdge → List GddEdge) : GddHeap where
  topstat := ⟨h.topstat.indeg + d, h.topstat.outdeg + d⟩
  globals v := ⟨(h.globals v).indeg + if v = e.vto then d else 0,
    (h.globals v).outdeg + if v = e.vfrom then d else 0⟩
  vert s v := ⟨if s = e.segid ∧ v = e.vto then g (h.vert s v).edgesIn else (h.vert s v).edgesIn,
    if s = e.segid ∧ v = e.vfrom then g (h.vert s v).edgesOut else (h.vert s v).edgesOut⟩

theorem modVert_modVert (h : GddHeap) (e : GddEdge) (d : Int) (g : List GddEdge → List GddEdge) :
    ((h.modVert e.segid e.vfrom fun x => { x with edgesOut := g x.edgesOut }).modVert e.segid e.vto
    fun x =>
      { x with edgesIn := g x.edgesIn }).vert = (editEdge h e d g).vert := by
  funext s v
  simp only [modVert, editEdge]
  by_cases hto : s = e.segid ∧ v = e.vto
  · obtain ⟨rfl, rfl⟩ := hto
    simp only [true_and, and_self, if_true]
    split
    next hfrom => simp only [hfrom]
    · rfl
  rw [if_neg hto, if_neg hto]
  split
  next hfrom =>
    obtain ⟨rfl, rfl⟩ := hfrom
    rfl
  · rfl

theorem modGlobal_modGlobal (h : GddHeap) (e : GddEdge) (d : Int)
    (g : List GddEdge → List GddEdge) :
    ((h.modGlobal e.vfrom fun x => { x with outdeg := x.outdeg + d }).modGlobal e.vto fun x =>
      { x with indeg := x.indeg + d }).globals = (editEdge h e d g).globals := by
  funext v
  simp only [modGlobal, editEdge]
  by_cases hto : v = e.vto <;> by_cases hfrom : v = e.vfrom
  · subst hto
    simp [hfrom]
  · subst hto
    simp [hfrom]
  · subst hfrom
    simp [hto]
  · simp [hto, hfrom]

theorem gddEdgeLink_eq : gddEdgeLink h e = editEdge h e 1 (· ++ [e]) :=
  (mk.injEq ..).mpr ⟨rfl, modGlobal_modGlobal h e 1 (· ++ [e]), modVert_modVert h e 1 (· ++ [e])⟩

theorem gddEdgeUnlink_eq : gddEdgeUnlink h e none none = editEdge h e (-1) (·.erase e) :=
  (mk.injEq ..).mpr ⟨rfl, modGlobal_modGlobal h e (-1) (·.erase e),
  modVert_modVert h e (-1) (·.erase e)⟩

/-- The heap with an edge added or removed represents the edge set `E'`, if the lists do and the
counts agree. -/
theorem HeapInv.edit {E' : Finset GddEdge} {d : Int} {g : List GddEdge → List GddEdge}
    (hi : HeapInv h E) (hcard : ∀ (p : GddEdge → Prop) [DecidablePred p], p e →
    ((E'.filter p).card : Int) = (E.filter p).card + d) (hother : ∀ f, f ≠ e → (f ∈ E' ↔ f ∈ E))
    (hlist : ∀ (p : GddEdge → Prop) (l : List GddEdge), p e → l.Nodup → (∀ f, f ∈ l ↔ f ∈ E ∧ p f) →
      (g l).Nodup ∧ ∀ f, f ∈ g l ↔ f ∈ E' ∧ p f) : HeapInv (editEdge h e d g) E' := by
  have hcount : ∀ (p : GddEdge → Prop) [DecidablePred p], ((E'.filter p).card : Int) =
      (E.filter p).card + if p e then d else 0 := by
    intro p _
    split
    next hp => exact hcard p hp
    next hp =>
      congr 2
      ext f
      rw [Finset.mem_filter, Finset.mem_filter]
      exact and_congr_left fun hf => hother f fun heq => hp (heq ▸ hf)
  have htop : (E'.card : Int) = E.card + d := by
    have htrue := hcard (fun _ => True) trivial
    rwa [Finset.filter_true, Finset.filter_true] at htrue
  -- a list of the vert, changed if the edge is in it
  have hedges : ∀ (c : Prop) [Decidable c] (p : GddEdge → Prop) (l : List GddEdge), (c ↔ p e) →
      l.Nodup → (∀ f, f ∈ l ↔ f ∈ E ∧ p f) → (if c then g l else l).Nodup ∧
      ∀ f, f ∈ (if c then g l else l) ↔ f ∈ E' ∧ p f := by
    intro c _ p l hc hn hm
    split
    next hp => exact hlist p l (hc.mp hp) hn hm
    next hp =>
      refine ⟨hn, fun f => (hm f).trans (and_congr_left fun hf => (hother f fun heq => ?_).symm)⟩
      exact hp (hc.mpr (heq ▸ hf))
  have hin := fun s v => hedges (s = e.segid ∧ v = e.vto) _ _ (and_congr eq_comm eq_comm)
    (hi.nodupIn s v) (hi.memIn s v)
  have hout := fun s v => hedges (s = e.segid ∧ v = e.vfrom) _ _ (and_congr eq_comm eq_comm)
    (hi.nodupOut s v) (hi.memOut s v)
  refine ⟨?_, ?_, fun v => ?_, fun v => ?_, fun s v => (hin s v).2, fun s v => (hout s v).2,
    fun s v => (hin s v).1, fun s v => (hout s v).1⟩
  · rw [htop, ← hi.topIn]
    rfl
  · rw [htop, ← hi.topOut]
    rfl
  · simp only [hcount, ← hi.globIn, editEdge, @eq_comm _ v]
  · simp only [hcount, ← hi.globOut, editEdge, @eq_comm _ v]

variable {ctx : GddCtx}

theorem gddEdgeUnlink_inv (hi : HeapInv h E) (he : e ∈ E) :
    HeapInv (gddEdgeUnlink h e none none) (E.erase e) := by
  rw [gddEdgeUnlink_eq]
  refine hi.edit (fun p _ hp => ?_) (fun f hf => ?_) fun p l hp hn hm => ⟨hn.erase e, fun f => ?_⟩
  · rw [Finset.filter_erase, card_erase_int (Finset.mem_filter.mpr ⟨he, hp⟩)]
    rfl
  · rw [Finset.mem_erase, and_iff_right hf]
  · rw [hn.mem_erase_iff, hm, Finset.mem_erase, and_assoc]

theorem gddEdgeLink_inv (hi : HeapInv h E) (he : e ∉ E) :
    HeapInv (gddEdgeLink h e) (insert e E) := by
  rw [gddEdgeLink_eq]
  refine hi.edit (fun p _ hp => ?_) (fun f hf => ?_) fun p l hp hn hm => ⟨?_, fun f => ?_⟩
  · rw [Finset.filter_insert, if_pos hp,
      Finset.card_insert_of_notMem fun hmem => he (Finset.mem_filter.mp hmem).1]
    rfl
  · rw [Finset.mem_insert, or_iff_right hf]
  · exact hn.append (nodup_singleton e) (disjoint_singleton.mpr fun hmem => he ((hm e).mp hmem).1)
  · rw [mem_append, mem_singleton, hm, Finset.mem_insert, or_and_right, or_comm]
    exact or_congr_left ⟨fun heq => ⟨heq, heq ▸ hp⟩, And.left⟩

/-! ## One vert -/

theorem unlinkInEdges_spec (pick : GddEdge → Bool) (rest before : List GddEdge) (h : GddHeap)
    (dirty : Bool) (E : Finset GddEdge) (hi : HeapInv h E)
    (hl : (h.vert s v).edgesIn = before ++ rest) :
    HeapInv (unlinkInEdges pick before rest h dirty).1 (E.filter fun e => ¬ (e ∈ rest ∧ pick e)) ∧
      (unlinkInEdges pick before rest h dirty).2 = (dirty || rest.any pick) := by
  induction rest generalizing before h dirty E with
  | nil =>
    simpa [unlinkInEdges] using hi
  | cons e rest ih =>
    have hnd := hi.nodupIn s v
    rw [hl] at hnd
    have hmem : e ∈ (h.vert s v).edgesIn := by rw [hl]; simp
    obtain ⟨he, rfl, rfl⟩ := (hi.memIn s v e).mp hmem
    have hnb : e ∉ before := fun hb => (disjoint_of_nodup_append hnd) hb (by simp)
    unfold unlinkInEdges
    split
    next hp =>
      -- the iterator's list is the list without `e`, so the plain unlink lemma applies
      have hl' : ((gddEdgeUnlinkFrom h e none).vert e.segid e.vto).edgesIn = before ++
          e :: rest := by
        rw [← hl]
        simp only [gddEdgeUnlinkFrom, modVert, modGlobal]
        split
        next hc => simp only [hc.2]
        · rfl
      have hu : gddEdgeUnlink h e none (some (before ++ rest)) = gddEdgeUnlink h e none none :=
        gddEdgeUnlinkTo_iter hl' hnb
      rw [hu]
      have hl2 : ((gddEdgeUnlink h e none none).vert e.segid e.vto).edgesIn = before ++ rest := by
        rw [gddEdgeUnlink_eq]
        dsimp only [editEdge]
        rw [if_pos ⟨rfl, rfl⟩, hl, erase_append_right _ hnb, erase_cons_head]
      obtain ⟨h1, h2⟩ := ih before _ true _ (gddEdgeUnlink_inv hi he) hl2
      refine ⟨?_, by rw [h2]; simp [hp]⟩
      convert h1 using 1
      ext f
      simp only [Finset.mem_filter, Finset.mem_erase, mem_cons]
      constructor
      · rintro ⟨hf, hn⟩
        refine ⟨⟨?_, hf⟩, fun hc => hn ⟨.inr hc.1, hc.2⟩⟩
        rintro rfl
        exact hn ⟨.inl rfl, hp⟩
      rintro ⟨⟨hne, hf⟩, hn⟩
      refine ⟨hf, ?_⟩
      rintro ⟨rfl | hr, hpf⟩
      · exact hne rfl
      · exact hn ⟨hr, hpf⟩
    next hp =>
      obtain ⟨h1, h2⟩ := ih (before ++ [e]) h dirty E hi (by rw [hl]; simp)
      refine ⟨?_, by rw [h2]; simp [hp]⟩
      convert h1 using 1
      ext f
      simp only [Finset.mem_filter, mem_cons, and_congr_right_iff]
      intro _
      constructor
      · exact fun hn hc => hn ⟨.inr hc.1, hc.2⟩
      · rintro hn ⟨rfl | hr, hpf⟩
        · exact hp hpf
        · exact hn ⟨hr, hpf⟩

theorem unlinkOutEdges_spec (rest : List GddEdge) (h : GddHeap) (dirty : Bool) (E : Finset GddEdge)
    (hi : HeapInv h E) (hl : (h.vert s v).edgesOut = rest) :
    HeapInv (unlinkOutEdges rest h dirty).1 (E.filter fun e => e ∉ rest) ∧
      (unlinkOutEdges rest h dirty).2 = (dirty || !rest.isEmpty) := by
  induction rest generalizing h dirty E with
  | nil =>
    simpa [unlinkOutEdges] using hi
  | cons e rest ih =>
    have hmem : e ∈ (h.vert s v).edgesOut := by rw [hl]; simp
    obtain ⟨he, rfl, rfl⟩ := (hi.memOut s v e).mp hmem
    have hu : gddEdgeUnlink h e (some rest) none = gddEdgeUnlink h e none none := by
      unfold gddEdgeUnlink
      rw [gddEdgeUnlinkFrom_iter hl]
    have hl2 : ((gddEdgeUnlink h e none none).vert e.segid e.vfrom).edgesOut = rest := by
      rw [gddEdgeUnlink_eq]
      dsimp only [editEdge]
      rw [if_pos ⟨rfl, rfl⟩, hl, erase_cons_head]
    unfold unlinkOutEdges
    rw [hu]
    obtain ⟨h1, h2⟩ := ih _ true _ (gddEdgeUnlink_inv hi he) hl2
    refine ⟨?_, by rw [h2]; simp⟩
    convert h1 using 1
    ext f
    simp only [Finset.mem_filter, Finset.mem_erase, mem_cons, not_or]
    tauto

def vertEdges (E : Finset GddEdge) (s : Int32) (v : DistributedTransactionId) : Finset GddEdge :=
  E.filter fun e => e.segid = s ∧ (e.vto = v ∨ e.vfrom = v)

theorem gddVertUnlinkAll_spec (hi : HeapInv h E) (s : Int32) (v : DistributedTransactionId) :
    HeapInv (gddVertUnlinkAll h s v).1 (E \ vertEdges E s v) ∧
      ((gddVertUnlinkAll h s v).2 = true ↔ (vertEdges E s v).Nonempty) := by
  unfold gddVertUnlinkAll
  have hin := unlinkInEdges_spec (fun _ => true) (h.vert s v).edgesIn [] h false E hi rfl
  generalize unlinkInEdges (fun _ => true) [] (h.vert s v).edgesIn h false = r at hin ⊢
  obtain ⟨h₁, d₁⟩ := r
  obtain ⟨hi₁, hd₁⟩ := hin
  obtain ⟨hi₂, hd₂⟩ := unlinkOutEdges_spec _ h₁ d₁ _ hi₁ (rfl : (h₁.vert s v).edgesOut = _)
  have hin : ∀ f, f ∈ (h.vert s v).edgesIn ↔ f ∈ E ∧ f.segid = s ∧ f.vto = v := hi.memIn s v
  have hout : ∀ f, f ∈ (h₁.vert s v).edgesOut ↔
      (f ∈ E ∧ f ∉ (h.vert s v).edgesIn) ∧ f.segid = s ∧ f.vfrom = v := by
    intro f
    rw [hi₁.memOut s v f]
    simp
  refine ⟨?_, ?_⟩
  · convert hi₂ using 1
    ext f
    simp only [vertEdges, Finset.mem_sdiff, Finset.mem_filter, hout, hin]
    tauto
  simp only at hd₁
  rw [hd₂, hd₁]
  simp only [Bool.or_eq_true, any_eq_true, Bool.not_eq_true', Bool.false_or,
    isEmpty_eq_false_iff_exists_mem, hin, hout]
  unfold vertEdges Finset.Nonempty
  simp only [Finset.mem_filter]
  constructor
  · rintro (⟨f, ⟨hf, hs, ht⟩, -⟩ | ⟨f, ⟨hf, -⟩, hs, ht⟩)
    · exact ⟨f, hf, hs, .inl ht⟩
    · exact ⟨f, hf, hs, .inr ht⟩
  rintro ⟨f, hf, hs, ht⟩
  by_cases hto : f.vto = v
  · exact .inl ⟨f, ⟨hf, hs, hto⟩, trivial⟩
  · exact .inr ⟨f, ⟨hf, fun hc => hto hc.2.2⟩, hs, ht.resolve_left hto⟩

/-- The edges that reducing one vert deletes. -/
def vertRemoved (E : Finset GddEdge) (s : Int32) (v : DistributedTransactionId) : Finset GddEdge :=
  if (∀ e ∈ E, e.vto ≠ v) ∨ (∀ e ∈ E, e.vfrom ≠ v) then vertEdges E s v
  else if ∀ e ∈ E, ¬ (e.segid = s ∧ e.vfrom = v) then
    E.filter fun e => (e.segid = s ∧ e.vto = v) ∧ e.solid = false
  else ∅

theorem vertRemoved_subset (E : Finset GddEdge) (s : Int32) (v : DistributedTransactionId) :
    vertRemoved E s v ⊆ E := by
  unfold vertRemoved
  split
  · exact Finset.filter_subset _ E
  · split
    · exact Finset.filter_subset _ E
    · exact Finset.empty_subset E

theorem HeapInv.indeg_eq_zero (hi : HeapInv h E) (v : DistributedTransactionId) :
    (h.globals v).indeg = 0 ↔ ∀ e ∈ E, e.vto ≠ v := by
  rw [hi.globIn v]
  rw [Int.natCast_eq_zero, Finset.card_eq_zero, Finset.filter_eq_empty_iff]

theorem HeapInv.outdeg_eq_zero (hi : HeapInv h E) (v : DistributedTransactionId) :
    (h.globals v).outdeg = 0 ↔ ∀ e ∈ E, e.vfrom ≠ v := by
  rw [hi.globOut v]
  rw [Int.natCast_eq_zero, Finset.card_eq_zero, Finset.filter_eq_empty_iff]

section

variable (hi : HeapInv h E) (s : Int32) (v : DistributedTransactionId)
include hi

theorem HeapInv.localOut_eq_zero :
    gddVertGetOutDegree (h.vert s v) = 0 ↔ ∀ e ∈ E, ¬ (e.segid = s ∧ e.vfrom = v) := by
  unfold gddVertGetOutDegree
  rw [length_eq_zero_iff, eq_nil_iff_forall_not_mem]
  simp only [hi.memOut s v, not_and]

theorem HeapInv.localIn_eq_zero :
    gddVertGetInDegree (h.vert s v) = 0 ↔ ∀ e ∈ E, ¬ (e.segid = s ∧ e.vto = v) := by
  unfold gddVertGetInDegree
  rw [length_eq_zero_iff, eq_nil_iff_forall_not_mem]
  simp only [hi.memIn s v, not_and]

/-- **Reducing one vert deletes `vertRemoved`, and reports whether that was anything.** -/
theorem gddVertReduce_spec : HeapInv (gddVertReduce h s v).1 (E \ vertRemoved E s v) ∧
      ((gddVertReduce h s v).2 = true ↔ (vertRemoved E s v).Nonempty) := by
  unfold gddVertReduce vertRemoved
  simp only [hi.indeg_eq_zero v, hi.outdeg_eq_zero v, hi.localOut_eq_zero s v]
  split
  · exact gddVertUnlinkAll_spec hi s v
  split
  · obtain ⟨h1, d1⟩ := unlinkInEdges_spec (fun e => !e.solid) (h.vert s v).edgesIn [] h false E hi
      rfl
    refine ⟨?_, ?_⟩
    · convert h1 using 1
      ext f
      simp only [Finset.mem_sdiff, Finset.mem_filter, hi.memIn s v, Bool.not_eq_true']
      tauto
    · rw [d1]
      simp only [Bool.false_or, any_eq_true, hi.memIn s v, Bool.not_eq_true',
        Finset.Nonempty, Finset.mem_filter, and_assoc]
  · simpa using hi

end

/-! ## Adding edges -/

theorem gddGraphGetVert_spec {graph : GddGraph} (vid : DistributedTransactionId) (hi : HeapInv h E)
    (hc : ∀ f ∈ E, f.segid = graph.id → f.vfrom ∈ graph.verts ∧ f.vto ∈ graph.verts) :
    HeapInv (gddGraphGetVert h graph vid).1 E ∧ (gddGraphGetVert h graph vid).2.id = graph.id ∧
      vid ∈ (gddGraphGetVert h graph vid).2.verts ∧
      graph.verts ⊆ (gddGraphGetVert h graph vid).2.verts := by
  unfold gddGraphGetVert
  split
  next hm => exact ⟨hi, rfl, hm, fun _ hx => hx⟩
  next hm =>
    have hin : (h.vert graph.id vid).edgesIn = [] := by
      rw [eq_nil_iff_forall_not_mem]
      intro f hf
      obtain ⟨hfE, hs, rfl⟩ := (hi.memIn _ _ f).mp hf
      exact hm (hc f hfE hs).2
    have hout : (h.vert graph.id vid).edgesOut = [] := by
      rw [eq_nil_iff_forall_not_mem]
      intro f hf
      obtain ⟨hfE, hs, rfl⟩ := (hi.memOut _ _ f).mp hf
      exact hm (hc f hfE hs).1
    have hsame : h.modVert graph.id vid (fun _ => ⟨[], []⟩) = h := by
      unfold modVert
      congr
      funext s v
      split
      next hsv =>
        rw [hsv.1, hsv.2]
        show GddVert.mk [] [] = ⟨(h.vert graph.id vid).edgesIn, (h.vert graph.id vid).edgesOut⟩
        rw [hin, hout]
      · rfl
    rw [hsame]
    exact ⟨hi, rfl, by simp, fun _ hx => by simp [hx]⟩

theorem gddGraphMakeEdge_spec (e : GddEdge) (graph : GddGraph) (hi : HeapInv h E)
    (hc : ∀ f ∈ E, f.segid = graph.id → f.vfrom ∈ graph.verts ∧ f.vto ∈ graph.verts) :
    ∃ h' graph', gddGraphMakeEdge h graph e = (h', graph') ∧ HeapInv h' E ∧ graph'.id = graph.id ∧
      e.vfrom ∈ graph'.verts ∧ e.vto ∈ graph'.verts ∧ graph.verts ⊆ graph'.verts := by
  obtain ⟨h1, i1, m1, s1⟩ := gddGraphGetVert_spec e.vfrom hi hc
  have hc1 : ∀ f ∈ E, f.segid = (gddGraphGetVert h graph e.vfrom).2.id →
      f.vfrom ∈ (gddGraphGetVert h graph e.vfrom).2.verts ∧
      f.vto ∈ (gddGraphGetVert h graph e.vfrom).2.verts := by
    intro f hf hs
    rw [i1] at hs
    exact ⟨s1 (hc f hf hs).1, s1 (hc f hf hs).2⟩
  obtain ⟨h2, i2, m2, s2⟩ := gddGraphGetVert_spec e.vto h1 hc1
  exact ⟨_, _, rfl, h2, i2.trans i1, s2 m1, m2, fun x hx => s2 (s1 hx)⟩

theorem listed_cons {graph : GddGraph} {graphs : List GddGraph} : Listed (graph :: graphs) s v ↔
    (graph.id = s ∧ v ∈ graph.verts) ∨ Listed graphs s v := by
  simp [Listed]

theorem gddCtxMakeEdge_spec (e : GddEdge) :
    ∀ (graphs : List GddGraph) (h : GddHeap), HeapInv h E → (graphs.map GddGraph.id).Nodup →
      (∀ f ∈ E, f.segid = e.segid → Listed graphs f.segid f.vfrom ∧ Listed graphs f.segid f.vto) →
      ∃ h' graphs', gddCtxMakeEdge e h graphs = (h', graphs') ∧ HeapInv h' E ∧
        (graphs'.map GddGraph.id).Nodup ∧
        (∀ i ∈ graphs'.map GddGraph.id, i ∈ graphs.map GddGraph.id ∨ i = e.segid) ∧
        Listed graphs' e.segid e.vfrom ∧ Listed graphs' e.segid e.vto ∧
        ∀ s v, Listed graphs s v → Listed graphs' s v := by
  intro graphs
  induction graphs with
  | nil =>
    intro h hi _ hc
    obtain ⟨h', g', he, hi', hid, hf, ht, -⟩ := gddGraphMakeEdge_spec e
      ⟨e.segid, []⟩ hi (fun f hf hs => by
        obtain ⟨⟨g, hg, -⟩, -⟩ := hc f hf hs
        cases hg)
    refine ⟨h', [g'], by simp only [gddCtxMakeEdge, he], hi', by simp, by simp [hid],
      listed_cons.mpr (.inl ⟨hid, hf⟩), listed_cons.mpr (.inl ⟨hid, ht⟩), ?_⟩
    rintro s v ⟨g, hg, -⟩
    cases hg
  | cons graph graphs ih =>
    intro h hi hnd hc
    rw [map_cons, nodup_cons] at hnd
    by_cases hid : graph.id = e.segid
    · obtain ⟨h', g', he, hi', hid', hf, ht, hsub⟩ := gddGraphMakeEdge_spec e
        graph hi (fun f hf hs => by
          have hone : ∀ v, Listed (graph :: graphs) f.segid v → v ∈ graph.verts := by
            intro v hv
            rcases listed_cons.mp hv with hv | ⟨g, hg, hgi, -⟩
            · exact hv.2
            · exact absurd (mem_map.mpr ⟨g, hg, hgi.trans hs⟩) hnd.1
          obtain ⟨h1, h2⟩ := hc f hf (hs.trans hid)
          exact ⟨hone _ h1, hone _ h2⟩)
      refine ⟨h', g' :: graphs, by simp only [gddCtxMakeEdge, if_pos hid, he], hi', ?_, ?_,
        listed_cons.mpr (.inl ⟨hid'.trans hid, hf⟩), listed_cons.mpr (.inl ⟨hid'.trans hid, ht⟩),
        fun s v hl => ?_⟩
      · rw [map_cons, nodup_cons, hid']
        exact hnd
      · intro i hm
        rw [map_cons, hid'] at hm
        exact .inl hm
      · exact listed_cons.mpr ((listed_cons.mp hl).imp_left fun hv => ⟨hid'.trans hv.1, hsub hv.2⟩)
    · have hskip : ∀ v, Listed (graph :: graphs) e.segid v → Listed graphs e.segid v :=
        fun v hv => (listed_cons.mp hv).resolve_left fun hg => hid hg.1
      obtain ⟨h', gs', he, hi', hnd', hids, hf, ht, hmono⟩ := ih h hi hnd.2 (fun f hf hs => by
        obtain ⟨h1, h2⟩ := hc f hf hs
        rw [hs] at h1 h2 ⊢
        exact ⟨hskip _ h1, hskip _ h2⟩)
      refine ⟨h', graph :: gs', by simp only [gddCtxMakeEdge, if_neg hid, he], hi', ?_,
        fun i hm => ?_, listed_cons.mpr (.inr hf), listed_cons.mpr (.inr ht), fun s v hl => ?_⟩
      · rw [map_cons, nodup_cons]
        refine ⟨fun hm => ?_, hnd'⟩
        rcases hids _ hm with hm | hm
        · exact hnd.1 hm
        · exact hid hm
      · rw [map_cons, mem_cons] at hm ⊢
        rcases hm with rfl | hm
        · exact .inl (.inl rfl)
        · exact (hids i hm).imp_left .inr
      · exact listed_cons.mpr ((listed_cons.mp hl).imp_right (hmono s v))

theorem gddCtxAddEdge_inv (hi : CtxInv ctx E) (hnd : (ctx.graphs.map GddGraph.id).Nodup)
    (he : e ∉ E) : CtxInv (gddCtxAddEdge ctx e) (insert e E) ∧
      ((gddCtxAddEdge ctx e).graphs.map GddGraph.id).Nodup := by
  obtain ⟨h', gs', heq, hi', hnd', -, hf, ht, hmono⟩ := gddCtxMakeEdge_spec e ctx.graphs ctx.heap
    hi.heap hnd (fun f hf _ => ⟨hi.listedFrom f hf, hi.listedTo f hf⟩)
  unfold gddCtxAddEdge
  rw [heq]
  refine ⟨⟨gddEdgeLink_inv hi' he, ?_, ?_⟩, hnd'⟩
  · intro f hm
    rcases Finset.mem_insert.mp hm with rfl | hm
    · exact hf
    · exact hmono _ _ (hi.listedFrom f hm)
  · intro f hm
    rcases Finset.mem_insert.mp hm with rfl | hm
    · exact ht
    · exact hmono _ _ (hi.listedTo f hm)

theorem gddCtxNew_inv : CtxInv gddCtxNew ∅ := by
  refine ⟨⟨?_, ?_, ?_, ?_, ?_, ?_, ?_, ?_⟩, ?_, ?_⟩ <;> simp [gddCtxNew]

/-- **Every context filled by `GddCtxAddEdge` represents the added edges.** -/
theorem gddCtxBuild_inv {calls : List GddEdge} (hnd : calls.Nodup) :
    CtxInv (gddCtxBuild calls) calls.toFinset := by
  have hrun : ∀ (calls : List GddEdge) (ctx : GddCtx) (E : Finset GddEdge), calls.Nodup →
      (∀ f ∈ calls, f ∉ E) → CtxInv ctx E → (ctx.graphs.map GddGraph.id).Nodup →
      CtxInv (calls.foldl gddCtxAddEdge ctx) (E ∪ calls.toFinset) := by
    intro calls
    induction calls with
    | nil => intro ctx E _ _ hi _; simpa using hi
    | cons f calls ih =>
      intro ctx E hnd hdis hi hids
      rw [nodup_cons] at hnd
      obtain ⟨hi', hids'⟩ := gddCtxAddEdge_inv hi hids (hdis f (by simp))
      have := ih _ (insert f E) hnd.2 (fun g hg hm => by
        rcases Finset.mem_insert.mp hm with rfl | hm
        · exact hnd.1 hg
        · exact hdis g (by simp [hg]) hm) hi' hids'
      rw [foldl_cons]
      convert this using 1
      ext g
      simp only [Finset.mem_union, mem_toFinset, mem_cons, Finset.mem_insert]
      tauto
  have := hrun calls gddCtxNew ∅ hnd (by simp) gddCtxNew_inv (by simp [gddCtxNew])
  simpa [gddCtxBuild] using this

theorem CtxInv.mem_edges (hi : CtxInv ctx E) (f : GddEdge) : f ∈ gddCtxEdges ctx ↔ f ∈ E := by
  unfold gddCtxEdges
  simp only [mem_flatMap, hi.heap.memIn]
  constructor
  · rintro ⟨g, -, v, -, hf, -⟩
    exact hf
  · intro hf
    obtain ⟨g, hg, hid, hv⟩ := hi.listedTo f hf
    exact ⟨g, hg, f.vto, hv, hf, hid.symm, rfl⟩

theorem CtxInv.empty_iff (hi : CtxInv ctx E) : gddCtxEmpty ctx = true ↔ E = ∅ := by
  unfold gddCtxEmpty
  rw [decide_eq_true_iff, hi.heap.topIn]
  simp

end PolemoDB.Gdd
