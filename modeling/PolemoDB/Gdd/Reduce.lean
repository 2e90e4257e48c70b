import PolemoDB.Gdd.Invariant

/-!
# `GddCtxReduce` computes the greatest self-supporting set of edges

An edge waits for good only if, among the edges that stay, something enters its source and something
leaves its target, for a dotted edge on the same segment (`Supported`).

* `not_supported_of_removed` — each of the three rules of `gddVertReduce` deletes only edges that
  the current set does not support, so the greatest self-supporting subset never changes.
-/

namespace PolemoDB.Gdd

open PolemoDB.Lib List

/-- Something in `S` enters the source of `e`, and something leaves its target. -/
def Supported (S : Set GddEdge) (e : GddEdge) : Prop :=
  (∃ f ∈ S, f.vto = e.vfrom) ∧ (∃ f ∈ S, f.vfrom = e.vto) ∧
    (e.solid = false → ∃ f ∈ S, f.vfrom = e.vto ∧ f.segid = e.segid)

theorem supported_mono : MonotoneSupport Supported := by
  rintro S T hST e ⟨⟨f, hf, h1⟩, ⟨g, hg, h2⟩, h3⟩
  refine ⟨⟨f, hST hf, h1⟩, ⟨g, hST hg, h2⟩, fun hs => ?_⟩
  obtain ⟨k, hk, h⟩ := h3 hs
  exact ⟨k, hST hk, h⟩

variable {E E' : Finset GddEdge} {s : Int32} {v : DistributedTransactionId}

theorem not_supported_of_removed {e : GddEdge} (h : e ∈ vertRemoved E s v) :
    ¬ Supported (E : Set GddEdge) e := by
  rintro ⟨⟨f, hf, hfe⟩, ⟨g, hg, hge⟩, hdot⟩
  unfold vertRemoved at h
  split at h
  next hend =>
    obtain ⟨he, -, hto | hfrom⟩ := Finset.mem_filter.mp h
    · rcases hend with hin | hout
      · exact hin e he hto
      · exact hout g hg (hge.trans hto)
    · rcases hend with hin | hout
      · exact hin f hf (hfe.trans hfrom)
      · exact hout e he hfrom
  · split at h
    next hlocal =>
      obtain ⟨-, ⟨hs, hto⟩, hsolid⟩ := Finset.mem_filter.mp h
      obtain ⟨k, hk, hk1, hk2⟩ := hdot hsolid
      exact hlocal k hk ⟨hk2.trans hs, hk1.trans hto⟩
    · simp at h

/-- **Where no rule applies at the ends of the edges, every edge is supported.** -/
theorem consistent_of_clean
    (hclean : ∀ e ∈ E, vertRemoved E e.segid e.vfrom = ∅ ∧ vertRemoved E e.segid e.vto = ∅) :
    Consistent Supported (E : Set GddEdge) := by
  intro e he
  obtain ⟨hfrom, hto⟩ := hclean e he
  have key : ∀ v, (e.vto = v ∨ e.vfrom = v) → vertRemoved E e.segid v = ∅ →
      ¬ ((∀ f ∈ E, f.vto ≠ v) ∨ (∀ f ∈ E, f.vfrom ≠ v)) := by
    intro v hv hempty hend
    unfold vertRemoved at hempty
    rw [if_pos hend] at hempty
    have : e ∈ vertEdges E e.segid v := Finset.mem_filter.mpr ⟨he, rfl, hv⟩
    rw [hempty] at this
    simp at this
  have h1 := key e.vfrom (.inr rfl) hfrom
  have h2 := key e.vto (.inl rfl) hto
  push Not at h1 h2
  refine ⟨h1.1, h2.2, ?_⟩
  intro hsolid
  by_contra hn
  have hlocal : ∀ f ∈ E, ¬ (f.segid = e.segid ∧ f.vfrom = e.vto) := fun f hf hc =>
    hn ⟨f, hf, hc.2, hc.1⟩
  unfold vertRemoved at hto
  rw [if_neg (by push Not; exact h2), if_pos hlocal] at hto
  have : e ∈ E.filter (fun f => (f.segid = e.segid ∧ f.vto = e.vto) ∧ f.solid = false) :=
    Finset.mem_filter.mpr ⟨he, ⟨rfl, rfl⟩, hsolid⟩
  rw [hto] at this
  simp at this

/-! ## One round -/

/-- `E'` is what some deletions of unsupported edges leave of `E`. -/
structure Reduces (E E' : Finset GddEdge) : Prop where
  sub : E' ⊆ E
  core_eq : core Supported (E' : Set GddEdge) = core Supported (E : Set GddEdge)

theorem Reduces.refl (E : Finset GddEdge) : Reduces E E := ⟨Finset.Subset.refl E, rfl⟩

variable {E₁ : Finset GddEdge} {ctx : GddCtx}

variable {E₂ E₃ : Finset GddEdge} {dirty dirty' : Bool} {h' : GddHeap} {fuel : Nat}

theorem Reduces.trans (h₁ : Reduces E₁ E₂) (h₂ : Reduces E₂ E₃) : Reduces E₁ E₃ :=
  ⟨h₂.sub.trans h₁.sub, h₂.core_eq.trans h₁.core_eq⟩

theorem Reduces.eq_of_eq (h₁ : Reduces E₁ E₂) (h₂ : Reduces E₂ E₃) (h : E₃ = E₁) : E₂ = E₁ ∧
    E₃ = E₂ := by
  subst h
  exact ⟨Finset.Subset.antisymm h₁.sub h₂.sub, Finset.Subset.antisymm h₂.sub h₁.sub⟩

theorem Reduces.ne_iff (h₁ : Reduces E₁ E₂) (h₂ : Reduces E₂ E₃) : E₂ ≠ E₁ ∨ E₃ ≠ E₂ ↔ E₃ ≠ E₁ := by
  constructor
  · intro hne heq
    obtain ⟨h1, h2⟩ := h₁.eq_of_eq h₂ heq
    exact hne.elim (fun hc => hc h1) (fun hc => hc h2)
  intro hne
  by_cases h1 : E₂ = E₁
  · exact .inr (by rw [h1]; exact hne)
  · exact .inl h1

theorem reduces_vertRemoved (E : Finset GddEdge) (s : Int32) (v : DistributedTransactionId) :
    Reduces E (E \ vertRemoved E s v) := by
  refine ⟨Finset.sdiff_subset, core_eq_of_removed supported_mono ?_ ?_⟩
  · exact Finset.coe_subset.mpr Finset.sdiff_subset
  intro e he hn
  apply not_supported_of_removed (s := s) (v := v)
  by_contra hr
  exact hn (Finset.mem_coe.mpr (Finset.mem_sdiff.mpr ⟨Finset.mem_coe.mp he, hr⟩))

/-- No edge of `E` on segment `s` ends in `v`. -/
def NoEdgeAt (E : Finset GddEdge) (s : Int32) (v : DistributedTransactionId) : Prop :=
  ∀ e ∈ E, e.segid = s → e.vto ≠ v ∧ e.vfrom ≠ v

theorem NoEdgeAt.mono (h : NoEdgeAt E s v) (hsub : E' ⊆ E) : NoEdgeAt E' s v := fun e he =>
    h e (hsub he)

theorem kept_cons {graph graph' : GddGraph} {graphs graphs' : List GddGraph}
    (hid : graph'.id = graph.id) (hsub : E' ⊆ E) (hhead : ∀ x ∈ graph.verts, x ∈ graph'.verts ∨
    NoEdgeAt E graph.id x) (htail : ∀ s x, Listed graphs s x → Listed graphs' s x ∨ NoEdgeAt E' s x)
    (s : Int32) (x : DistributedTransactionId) (hx : Listed (graph :: graphs) s x) :
    Listed (graph' :: graphs') s x ∨ NoEdgeAt E' s x := by
  rw [listed_cons, hid, or_assoc]
  rcases listed_cons.mp hx with ⟨rfl, h⟩ | h
  · exact (hhead x h).imp (⟨rfl, ·⟩) fun hnone => .inr (hnone.mono hsub)
  · exact .inr (htail s x h)

theorem gddMapIterDelete_append (pre rest : List DistributedTransactionId)
    (v : DistributedTransactionId) : ∃ rest', rest'.Perm rest ∧
    gddMapIterDelete (pre ++ v :: rest) pre.length = pre ++ rest' := by
  unfold gddMapIterDelete
  rcases eq_nil_or_concat' rest with rfl | ⟨init, last, rfl⟩
  · exact ⟨[], Perm.refl _, by simp⟩
  refine ⟨last :: init, (perm_append_singleton last init).symm, ?_⟩
  have hlast : (pre ++ v :: (init ++ [last])).getLastD 0 = last := by
    rw [← cons_append, ← append_assoc, getLastD_concat]
  rw [hlast, set_append_right _ _ (le_refl _), Nat.sub_self, set_cons_zero,
    ← cons_append, ← append_assoc, dropLast_concat]

/-- What one vert loop does: deletions of unsupported edges, reported in the flag; verts leave the
map only when no edge ends there; a loop without deletion has found every vert clean. -/
structure VertsReduced (s : Int32) (rest verts : List DistributedTransactionId) (dirty : Bool)
    (E : Finset GddEdge) (verts' : List DistributedTransactionId) (h' : GddHeap) (dirty' : Bool)
    (E' : Finset GddEdge) : Prop where
  inv : HeapInv h' E'
  reduces : Reduces E E'
  flag : dirty' = true ↔ dirty = true ∨ E' ≠ E
  clean : E' = E → ∀ x ∈ rest, vertRemoved E s x = ∅
  kept : ∀ x ∈ verts, x ∈ verts' ∨ NoEdgeAt E' s x

theorem VertsReduced.cons {rest rest' verts verts₁ verts' : List DistributedTransactionId}
    {dirty₁ : Bool} (hred : Reduces E E₁)
    (hclean : E₁ = E → vertRemoved E s v = ∅) (hflag : dirty₁ = true ↔ dirty = true ∨ E₁ ≠ E)
    (hrest : ∀ x ∈ rest, x ∈ rest') (hkept : ∀ x ∈ verts, x ∈ verts₁ ∨ NoEdgeAt E₁ s x)
    (hr : VertsReduced s rest' verts₁ dirty₁ E₁ verts' h' dirty' E') :
    VertsReduced s (v :: rest) verts dirty E verts' h' dirty' E' where
  inv := hr.inv
  reduces := hred.trans hr.reduces
  flag := by rw [hr.flag, hflag, or_assoc, hred.ne_iff hr.reduces]
  clean := by
    intro heq x hx
    obtain ⟨h1, h2⟩ := hred.eq_of_eq hr.reduces heq
    rcases mem_cons.mp hx with rfl | hx
    · exact hclean h1
    · rw [← h1]
      exact hr.clean h2 x (hrest x hx)
  kept := by
    intro x hx
    rcases hkept x hx with hx | hx
    · exact hr.kept x hx
    · exact .inr (hx.mono hr.reduces.sub)

theorem reduceVerts_spec (s : Int32) (n : Nat) (pre rest : List DistributedTransactionId)
    (h : GddHeap) (dirty : Bool) (E : Finset GddEdge) (hn : rest.length = n) (hi : HeapInv h E) :
    ∃ verts' h' dirty' E', reduceVerts s n pre.length (pre ++ rest) h dirty =
      (verts', h', dirty') ∧ VertsReduced s rest (pre ++ rest) dirty E verts' h' dirty' E' := by
  induction n generalizing pre rest h dirty E with
  | zero =>
    rw [length_eq_zero_iff] at hn
    subst hn
    exact ⟨_, _, _, E, rfl, ⟨hi, .refl E, by simp, by simp, fun x hx => .inl hx⟩⟩
  | succ n ih =>
    cases rest with
    | nil => simp at hn
    | cons v rest =>
      rw [length_cons, Nat.add_right_cancel_iff] at hn
      obtain ⟨hi₁, hd₁⟩ := gddVertReduce_spec hi s v
      have hred := reduces_vertRemoved E s v
      have hne : (vertRemoved E s v).Nonempty ↔ E \ vertRemoved E s v ≠ E := by
        rw [Finset.nonempty_iff_ne_empty, not_iff_not, Finset.sdiff_eq_self_iff_disjoint]
        constructor
        · intro h0
          rw [h0]
          exact Finset.disjoint_empty_right E
        · intro hdis
          exact Finset.disjoint_self_iff_empty _ |>.mp (hdis.mono_left (vertRemoved_subset E s v))
      generalize E \ vertRemoved E s v = E₁ at hi₁ hred hne
      have hflag : (dirty || (gddVertReduce h s v).2) = true ↔ dirty = true ∨ E₁ ≠ E := by
        rw [Bool.or_eq_true, hd₁, hne]
      have hclean : E₁ = E → vertRemoved E s v = ∅ := by
        intro he
        by_contra h0
        exact hne.mp (Finset.nonempty_iff_ne_empty.mpr h0) he
      have hget : (pre ++ v :: rest)[pre.length]? = some v := by simp
      unfold reduceVerts
      simp only [hget]
      split
      · -- the vert is deleted from the map: no edge ends there any more
        rename_i hzero
        rw [hi₁.localIn_eq_zero, hi₁.localOut_eq_zero] at hzero
        have hnone : NoEdgeAt E₁ s v := fun e he hs =>
          ⟨fun ht => hzero.1 e he ⟨hs, ht⟩, fun hf => hzero.2 e he ⟨hs, hf⟩⟩
        obtain ⟨rest', hperm, hdel⟩ := gddMapIterDelete_append pre rest v
        rw [hdel]
        obtain ⟨verts', h', dirty', E', heq, hr⟩ := ih pre rest' (gddVertReduce h s v).1
          (dirty || (gddVertReduce h s v).2) E₁ (hperm.length_eq.trans hn) hi₁
        refine ⟨verts', h', dirty', E', heq, .cons hred hclean hflag ?_ ?_ hr⟩
        · exact fun x hx => hperm.mem_iff.mpr hx
        intro x hx
        rw [mem_append, mem_cons] at hx
        rcases hx with hx | rfl | hx
        · exact .inl (mem_append_left _ hx)
        · exact .inr hnone
        · exact .inl (mem_append_right _ (hperm.mem_iff.mpr hx))
      · obtain ⟨verts', h', dirty', E', heq, hr⟩ := ih (pre ++ [v]) rest (gddVertReduce h s v).1
          (dirty || (gddVertReduce h s v).2) E₁ hn hi₁
        rw [length_append, length_singleton, append_assoc, singleton_append]
          at heq
        rw [append_assoc, singleton_append] at hr
        exact ⟨verts', h', dirty', E', heq,
          .cons hred hclean hflag (fun _ hx => hx) (fun _ hx => .inl hx) hr⟩

/-- What one round over all graphs does. -/
structure GraphsReduced (graphs : List GddGraph) (dirty : Bool) (E : Finset GddEdge)
    (graphs' : List GddGraph) (h' : GddHeap) (dirty' : Bool) (E' : Finset GddEdge) : Prop where
  inv : HeapInv h' E'
  reduces : Reduces E E'
  flag : dirty' = true ↔ dirty = true ∨ E' ≠ E
  clean : E' = E → ∀ s x, Listed graphs s x → vertRemoved E s x = ∅
  kept : ∀ s x, Listed graphs s x → Listed graphs' s x ∨ NoEdgeAt E' s x

theorem reduceGraphs_spec (graphs : List GddGraph) (h : GddHeap) (dirty : Bool) (E : Finset GddEdge)
    (hi : HeapInv h E) :
    ∃ graphs' h' dirty' E', reduceGraphs graphs h dirty = (graphs', h', dirty') ∧
      GraphsReduced graphs dirty E graphs' h' dirty' E' := by
  induction graphs generalizing h dirty E with
  | nil =>
    refine ⟨[], h, dirty, E, rfl, ⟨hi, .refl E, by simp, ?_, fun s x hx => .inl hx⟩⟩
    rintro - s x ⟨g, hg, -⟩
    cases hg
  | cons graph graphs ih =>
    obtain ⟨verts, h₁, d₁, E₁, e₁, hv⟩ :=
      reduceVerts_spec graph.id graph.verts.length [] graph.verts h dirty E rfl hi
    obtain ⟨gs, h₂, d₂, E₂, e₂, hg⟩ := ih h₁ d₁ E₁ hv.inv
    rw [length_nil, nil_append] at e₁
    refine ⟨{ graph with verts := verts } :: gs, h₂, d₂, E₂, by simp only [reduceGraphs, e₁, e₂],
      ⟨hg.inv, hv.reduces.trans hg.reduces, ?_, ?_, ?_⟩⟩
    · rw [hg.flag, hv.flag, or_assoc, hv.reduces.ne_iff hg.reduces]
    · intro heq s x hlisted
      obtain ⟨h1, h2⟩ := hv.reduces.eq_of_eq hg.reduces heq
      rcases listed_cons.mp hlisted with ⟨rfl, hx⟩ | hx
      · exact hv.clean h1 x hx
      · rw [← h1]
        exact hg.clean h2 s x hx
    · exact kept_cons rfl hg.reduces.sub hv.kept hg.kept

/-! ## The whole loop -/

theorem GraphsReduced.ctxInv {graphs' : List GddGraph} (hi : CtxInv ctx E)
    (hg : GraphsReduced ctx.graphs dirty E graphs' h' dirty' E') : CtxInv ⟨h', graphs'⟩ E' where
  heap := hg.inv
  listedFrom := by
    intro e he
    rcases hg.kept _ _ (hi.listedFrom e (hg.reduces.sub he)) with hl | hn
    · exact hl
    · exact absurd rfl (hn e he rfl).2
  listedTo := by
    intro e he
    rcases hg.kept _ _ (hi.listedTo e (hg.reduces.sub he)) with hl | hn
    · exact hl
    · exact absurd rfl (hn e he rfl).1

/-- One round: unsupported edges are deleted and the loop goes on with fewer, or nothing is deleted
and every edge is supported. -/
theorem reduceRound_spec (hi : CtxInv ctx E) : ∃ ctx' E', CtxInv ctx' E' ∧ Reduces E E' ∧
      ((reduceRound ctx = some (.inl ctx') ∧ E'.card < E.card) ∨
        (reduceRound ctx = some (.inr ctx') ∧ Consistent Supported (E' : Set GddEdge))) := by
  obtain ⟨graphs', h', dirty', E', heq, hg⟩ := reduceGraphs_spec ctx.graphs ctx.heap false E hi.heap
  refine ⟨⟨h', graphs'⟩, E', hg.ctxInv hi, hg.reduces, ?_⟩
  unfold reduceRound
  rw [heq]
  cases hd : dirty' with
  | true =>
    left
    have hne : E' ≠ E := by simpa [hd] using hg.flag
    exact ⟨rfl, Finset.card_lt_card (Finset.ssubset_iff_subset_ne.mpr ⟨hg.reduces.sub, hne⟩)⟩
  | false =>
    right
    have hsame : E' = E := by
      have := hg.flag
      simpa [hd] using this
    refine ⟨rfl, ?_⟩
    rw [hsame]
    exact consistent_of_clean fun e he =>
      ⟨hg.clean hsame _ _ (hi.listedFrom e he), hg.clean hsame _ _ (hi.listedTo e he)⟩

/-- **The loop ends after at most one round per edge, and leaves the core.** -/
theorem gddCtxReduce_spec (hi : CtxInv ctx E) (hf : E.card < fuel) :
    ∃ ctx' E', gddCtxReduce fuel ctx = some ctx' ∧ CtxInv ctx' E' ∧
      (E' : Set GddEdge) = core Supported (E : Set GddEdge) := by
  obtain ⟨ctx', heq, E', hi', hE'⟩ :=
    loop_terminates reduceRound (fun c => ∃ E', CtxInv c E' ∧ Reduces E E')
    (fun c => ∃ E', CtxInv c E' ∧ (E' : Set GddEdge) = core Supported (E : Set GddEdge))
    (fun c => c.heap.topstat.indeg.toNat)
    (fun c ⟨E₁, hi₁, hr₁⟩ => by
      obtain ⟨c', E₂, hi₂, hr₂, ⟨hb, hlt⟩ | ⟨hb, hcons⟩⟩ := reduceRound_spec hi₁
      · refine .inl ⟨c', hb, ⟨E₂, hi₂, hr₁.trans hr₂⟩, ?_⟩
        rw [hi₂.heap.topIn, hi₁.heap.topIn]
        simpa using hlt
      · refine .inr ⟨c', hb, E₂, hi₂, ?_⟩
        rw [← (hr₁.trans hr₂).core_eq, core_of_consistent hcons])
    fuel ctx ⟨E, hi, .refl E⟩ (by rw [hi.heap.topIn]; simpa using hf)
  exact ⟨ctx', E', heq, hi', hE'⟩

/-- Two vert maps that list the same verts, in whatever array order. -/
def SameVerts (graphs graphs' : List GddGraph) : Prop := ∀ s v, Listed graphs s v ↔
    Listed graphs' s v

theorem CtxInv.reorder {ctx' : GddCtx} (hi : CtxInv ctx E) (hh : ctx'.heap = ctx.heap)
    (hg : SameVerts ctx'.graphs ctx.graphs) : CtxInv ctx' E where
  heap := hh ▸ hi.heap
  listedFrom := fun e he => (hg _ _).mpr (hi.listedFrom e he)
  listedTo := fun e he => (hg _ _).mpr (hi.listedTo e he)

theorem gddCtxReduce_edges {calls : List GddEdge} (hi : CtxInv ctx calls.toFinset)
    (hf : calls.length < fuel) :
    ∃ ctx', gddCtxReduce fuel ctx = some ctx' ∧
      {e | e ∈ gddCtxEdges ctx'} = core Supported {e | e ∈ calls} := by
  obtain ⟨ctx', E', heq, hi', hE'⟩ :=
    gddCtxReduce_spec hi (lt_of_le_of_lt (toFinset_card_le calls) hf)
  refine ⟨ctx', heq, ?_⟩
  have hcalls : (calls.toFinset : Set GddEdge) = {e | e ∈ calls} := by simp
  rw [← hcalls, ← hE']
  ext e
  exact hi'.mem_edges e

/-- **Reduction.**  For every sequence of added edges (`calls`, each at an address of its own) the
loop ends, with one and the same context for every sufficient number of rounds, and the edges it
leaves are the greatest subset of the added edges in which every edge has an edge entering its
source, an edge leaving its target and, if it is dotted, an edge leaving its target on its own
segment.  Adding the edges in another order, or walking the graphs and verts in another array order,
leaves the same edges. -/
theorem gddCtxReduce_greatest (calls : List GddEdge) (hnd : calls.Nodup) :
    ∃ ctx, (∀ fuel, calls.length < fuel → gddCtxReduce fuel (gddCtxBuild calls) = some ctx) ∧
      IsGreatest {S : Set GddEdge | S ⊆ {e | e ∈ calls} ∧ ∀ e ∈ S,
        (∃ f ∈ S, f.vto = e.vfrom) ∧ (∃ f ∈ S, f.vfrom = e.vto) ∧
        (e.solid = false → ∃ f ∈ S, f.vfrom = e.vto ∧ f.segid = e.segid)}
        {e | e ∈ gddCtxEdges ctx} ∧
      ∀ calls' ctx₀, calls'.Perm calls → ctx₀.heap = (gddCtxBuild calls').heap →
        SameVerts ctx₀.graphs (gddCtxBuild calls').graphs →
        ∃ ctx', (∀ fuel, calls.length < fuel → gddCtxReduce fuel ctx₀ = some ctx') ∧
          {e | e ∈ gddCtxEdges ctx'} = {e | e ∈ gddCtxEdges ctx} := by
  obtain ⟨ctx, heq, hedges⟩ := gddCtxReduce_edges (gddCtxBuild_inv hnd) (Nat.lt_succ_self _)
  refine ⟨ctx, fun fuel hf => loop_mono heq hf, ?_, ?_⟩
  · rw [hedges]
    exact core_isGreatest supported_mono
  intro calls' ctx₀ hperm hheap hverts
  have hi₀ := (gddCtxBuild_inv (hperm.nodup_iff.mpr hnd)).reorder hheap hverts
  obtain ⟨ctx', heq', hedges'⟩ := gddCtxReduce_edges hi₀ (Nat.lt_succ_self _)
  refine ⟨ctx', fun fuel hf => loop_mono heq' (by rw [hperm.length_eq]; exact hf), ?_⟩
  rw [hedges, hedges']
  congr 1
  ext e
  exact hperm.mem_iff

/-- Two transactions that wait for each other on two segments, and a third one that waits for them.
-/
theorem gddCtxReduce_greatest_pair :
    ∃ ctx, gddCtxReduce 4 (gddCtxBuild [⟨0, 0, 1, 2, true⟩, ⟨1, 1, 2, 1, true⟩,
      ⟨2, 0, 3, 1, true⟩]) = some ctx := by
  obtain ⟨ctx, h, -⟩ := gddCtxReduce_greatest
    [⟨0, 0, 1, 2, true⟩, ⟨1, 1, 2, 1, true⟩, ⟨2, 0, 3, 1, true⟩] (by decide)
  exact ⟨ctx, h 4 (by decide)⟩

end PolemoDB.Gdd
