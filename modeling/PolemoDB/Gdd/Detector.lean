import PolemoDB.Lib.Loop

/-!
# Global deadlock detector (`utils/gdd/gdddetector.c`)

The wait graph of every segment, the global in/out degrees of every transaction, and the total
degree counters, as the detector keeps them.

A vert object is named by its segment and its id, and a `global` counter by the id: verts are only
dropped from their map when no edge refers to them any more, so the name stands for the pointer. An
edge carries the address it was allocated at, which tells parallel edges apart.  The arrays behind
`graphs` and `verts` are lists in array order, because the loops walk them by position.

* `gddCtxAddEdge`, `gddCtxReduce`, `gddCtxBreakDeadLock`, `gddCtxEmpty` — the entry points.
* `gddCtxEdges` — the edges of all local graphs (`gdd_ctx_foreach_in_edge`).
-/

namespace PolemoDB.Gdd

open PolemoDB.Lib

/-- `DistributedTransactionId` (`c.h`). -/
abbrev DistributedTransactionId := UInt64

/-- `GddEdge`, with the segment its two verts belong to. -/
structure GddEdge where
  addr : Nat
  segid : Int32
  vfrom : DistributedTransactionId
  vto : DistributedTransactionId
  solid : Bool
  deriving DecidableEq, Repr

structure GddStat where
  indeg : Int
  outdeg : Int
  deriving DecidableEq, Repr

structure GddVert where
  edgesIn : List GddEdge
  edgesOut : List GddEdge
  deriving DecidableEq, Repr

/-- `GddGraph`: the segment id and the keys of the vert map, in array order. -/
structure GddGraph where
  id : Int32
  verts : List DistributedTransactionId
  deriving DecidableEq, Repr

/-- The objects behind the pointers of a context. -/
structure GddHeap where
  topstat : GddStat
  globals : DistributedTransactionId → GddStat
  vert : Int32 → DistributedTransactionId → GddVert

structure GddCtx where
  heap : GddHeap
  graphs : List GddGraph

section

variable (h : GddHeap)
include h

/-- Change the counters of one transaction. -/
def GddHeap.modGlobal (vid : DistributedTransactionId) (f : GddStat → GddStat) : GddHeap :=
  { h with globals := fun v => if v = vid then f (h.globals vid) else h.globals v }

/-- Change one vert object. -/
def GddHeap.modVert (segid : Int32) (vid : DistributedTransactionId)
    (f : GddVert → GddVert) : GddHeap :=
  { h with vert := fun s v => if s = segid ∧ v = vid then f (h.vert segid vid) else h.vert s v }

/-! ## Edges -/

def gddEdgeLink (e : GddEdge) : GddHeap :=
  let h := { h with topstat := ⟨h.topstat.indeg + 1, h.topstat.outdeg + 1⟩ }
  let h := h.modGlobal e.vfrom fun g => { g with outdeg := g.outdeg + 1 }
  let h := h.modGlobal e.vto fun g => { g with indeg := g.indeg + 1 }
  let h := h.modVert e.segid e.vfrom fun v => { v with edgesOut := v.edgesOut ++ [e] }
  h.modVert e.segid e.vto fun v => { v with edgesIn := v.edgesIn ++ [e] }

/-- `gddEdgeUnlinkFrom`; with an iterator the list it leaves behind is stored. -/
def gddEdgeUnlinkFrom (e : GddEdge) (fromiter : Option (List GddEdge)) : GddHeap :=
  let h := { h with topstat := { h.topstat with outdeg := h.topstat.outdeg - 1 } }
  let h := h.modGlobal e.vfrom fun g => { g with outdeg := g.outdeg - 1 }
  h.modVert e.segid e.vfrom fun v =>
    match fromiter with
    | some list => { v with edgesOut := list }
    | none => { v with edgesOut := v.edgesOut.erase e }

def gddEdgeUnlinkTo (e : GddEdge) (toiter : Option (List GddEdge)) : GddHeap :=
  let h := { h with topstat := { h.topstat with indeg := h.topstat.indeg - 1 } }
  let h := h.modGlobal e.vto fun g => { g with indeg := g.indeg - 1 }
  h.modVert e.segid e.vto fun v =>
    match toiter with
    | some list => { v with edgesIn := list }
    | none => { v with edgesIn := v.edgesIn.erase e }

def gddEdgeUnlink (e : GddEdge) (fromiter toiter : Option (List GddEdge)) : GddHeap :=
  gddEdgeUnlinkTo (gddEdgeUnlinkFrom h e fromiter) e toiter

end

/-! ## Verts -/

def gddVertGetInDegree (v : GddVert) : Nat := v.edgesIn.length

def gddVertGetOutDegree (v : GddVert) : Nat := v.edgesOut.length

/-- `gdd_vert_foreach_in_edge` with in-place deletion of the edges that `pick` selects: `before` are
the cells kept so far, the second list starts at the current cell. -/
def unlinkInEdges (pick : GddEdge → Bool) : List GddEdge → List GddEdge → GddHeap → Bool →
    GddHeap × Bool
  | _, [], h, dirty => (h, dirty)
  | before, e :: rest, h, dirty =>
    if pick e then
      unlinkInEdges pick before rest (gddEdgeUnlink h e none (some (before ++ rest))) true
    else unlinkInEdges pick (before ++ [e]) rest h dirty

/-- `gdd_vert_foreach_out_edge` with in-place deletion of every edge. -/
def unlinkOutEdges : List GddEdge → GddHeap → Bool → GddHeap × Bool
  | [], h, dirty => (h, dirty)
  | e :: rest, h, _ => unlinkOutEdges rest (gddEdgeUnlink h e (some rest) none) true

def gddVertUnlinkAll (h : GddHeap) (segid : Int32) (vid : DistributedTransactionId) :
    GddHeap × Bool :=
  match unlinkInEdges (fun _ => true) [] (h.vert segid vid).edgesIn h false with
  | (h, dirty) => unlinkOutEdges (h.vert segid vid).edgesOut h dirty

def gddVertReduce (h : GddHeap) (segid : Int32) (vid : DistributedTransactionId) : GddHeap × Bool :=
  let global := h.globals vid
  if global.indeg = 0 ∨ global.outdeg = 0 then gddVertUnlinkAll h segid vid
  else if gddVertGetOutDegree (h.vert segid vid) = 0 then
    unlinkInEdges (fun e => !e.solid) [] (h.vert segid vid).edgesIn h false
  else (h, false)

/-! ## Maps -/

/-- `gdd_map_iter_delete`: the last pair takes the place of the deleted one. -/
def gddMapIterDelete (pairs : List DistributedTransactionId) (pos : Nat) :
    List DistributedTransactionId :=
  (pairs.set pos (pairs.getLastD 0)).dropLast

def gddGraphGetVert (h : GddHeap) (graph : GddGraph) (vid : DistributedTransactionId) :
    GddHeap × GddGraph :=
  if vid ∈ graph.verts then (h, graph)
  else (h.modVert graph.id vid fun _ => ⟨[], []⟩, { graph with verts := graph.verts ++ [vid] })

/-- `gddGraphMakeEdge`: both verts exist afterwards. -/
def gddGraphMakeEdge (h : GddHeap) (graph : GddGraph) (e : GddEdge) : GddHeap × GddGraph :=
  match gddGraphGetVert h graph e.vfrom with
  | (h, graph) => gddGraphGetVert h graph e.vto

/-- `gddGraphMakeEdge` on the graph of the edge's segment, which `gddCtxGetGraph` appends to the map
when it is first seen. -/
def gddCtxMakeEdge (e : GddEdge) : GddHeap → List GddGraph → GddHeap × List GddGraph
  | h, [] =>
    match gddGraphMakeEdge h ⟨e.segid, []⟩ e with
    | (h, graph) => (h, [graph])
  | h, graph :: graphs =>
    if graph.id = e.segid then
      match gddGraphMakeEdge h graph e with
      | (h, graph) => (h, graph :: graphs)
    else
      match gddCtxMakeEdge e h graphs with
      | (h, graphs) => (h, graph :: graphs)

/-! ## Contexts -/

def gddCtxNew : GddCtx := ⟨⟨⟨0, 0⟩, fun _ => ⟨0, 0⟩, fun _ _ => ⟨[], []⟩⟩, []⟩

section

variable (ctx : GddCtx)

/-- `GddCtxAddEdge`, for the edge allocated by the call. -/
def gddCtxAddEdge (e : GddEdge) : GddCtx :=
  match gddCtxMakeEdge e ctx.heap ctx.graphs with
  | (h, graphs) => ⟨gddEdgeLink h e, graphs⟩

/-- A context filled by a sequence of `GddCtxAddEdge` calls. -/
def gddCtxBuild (calls : List GddEdge) : GddCtx := calls.foldl gddCtxAddEdge gddCtxNew

def gddCtxEmpty : Bool := decide (ctx.heap.topstat.indeg = 0)

/-- The vert loop of `GddCtxReduce` over one graph, from array position `pos` on; `n` is the number
of pairs from there to the end. -/
def reduceVerts (segid : Int32) : Nat → Nat → List DistributedTransactionId → GddHeap → Bool →
      List DistributedTransactionId × GddHeap × Bool
  | 0, _, verts, h, dirty => (verts, h, dirty)
  | n + 1, pos, verts, h, dirty =>
    match verts[pos]? with
    | none => (verts, h, dirty)
    | some vid =>
      match gddVertReduce h segid vid with
      | (h, changed) =>
        let vert := h.vert segid vid
        if gddVertGetInDegree vert = 0 ∧ gddVertGetOutDegree vert = 0 then
          reduceVerts segid n pos (gddMapIterDelete verts pos) h (dirty || changed)
        else reduceVerts segid n (pos + 1) verts h (dirty || changed)

/-- One round of `GddCtxReduce` over all graphs. -/
def reduceGraphs : List GddGraph → GddHeap → Bool → List GddGraph × GddHeap × Bool
  | [], h, dirty => ([], h, dirty)
  | graph :: graphs, h, dirty =>
    match reduceVerts graph.id graph.verts.length 0 graph.verts h dirty with
    | (verts, h, dirty) =>
      match reduceGraphs graphs h dirty with
      | (graphs, h, dirty) => ({ graph with verts := verts } :: graphs, h, dirty)

/-- One round of the `while (dirty)` loop. -/
def reduceRound : Option (GddCtx ⊕ GddCtx) :=
  match reduceGraphs ctx.graphs ctx.heap false with
  | (graphs, h, dirty) => some (if dirty then .inl ⟨h, graphs⟩ else .inr ⟨h, graphs⟩)

/-- `GddCtxReduce`, for at most `fuel` rounds. -/
def gddCtxReduce (fuel : Nat) (ctx : GddCtx) : Option GddCtx := loop reduceRound fuel ctx

/-- `gddCtxGetMaxVid` before its result is converted to `int`. -/
def maxVid : DistributedTransactionId :=
  ctx.graphs.foldl (fun maxvid graph => graph.verts.foldl (fun maxvid vid =>
    let vert := ctx.heap.vert graph.id vid
    if gddVertGetInDegree vert ≠ 0 ∨ gddVertGetOutDegree vert ≠ 0 then
      if maxvid > vid then maxvid else vid
    else maxvid) maxvid) 0

/-- `gddCtxGetMaxVid`: the function returns an `int`. -/
def gddCtxGetMaxVid : Int32 := (maxVid ctx).toUInt32.toInt32

/-- The vert loop of `gddGraphRemoveVid`. -/
def gddGraphRemoveVid (graph : GddGraph) (vid : DistributedTransactionId) (h : GddHeap) :
    GddGraph × GddHeap :=
  match graph.verts.idxOf? vid with
  | none => (graph, h)
  | some pos =>
    ({ graph with verts := gddMapIterDelete graph.verts pos }, (gddVertUnlinkAll h graph.id vid).1)

/-- The graph loop of `gddCtxRemoveVid`. -/
def removeVidGraphs (vid : DistributedTransactionId) : List GddGraph → GddHeap →
    List GddGraph × GddHeap
  | [], h => ([], h)
  | graph :: graphs, h =>
    match gddGraphRemoveVid graph vid h with
    | (graph, h) =>
      match removeVidGraphs vid graphs h with
      | (graphs, h) => (graph :: graphs, h)

def gddCtxRemoveVid (vid : DistributedTransactionId) : GddCtx :=
  match removeVidGraphs vid ctx.graphs ctx.heap with
  | (graphs, h) => ⟨h, graphs⟩

end

/-- A round of `GddCtxBreakDeadLock`: the context in which a vid was chosen, and the vid. -/
structure GddRound where
  ctx : GddCtx
  maxvid : DistributedTransactionId

/-- One round of `GddCtxBreakDeadLock`; the `int` of `gddCtxGetMaxVid` is stored in a
`DistributedTransactionId`. -/
def breakRound (fuel : Nat) (s : GddCtx × List GddRound) :
    Option ((GddCtx × List GddRound) ⊕ (GddCtx × List GddRound)) :=
  if gddCtxEmpty s.1 then some (.inr s)
  else
    let maxvid := (gddCtxGetMaxVid s.1).toInt64.toUInt64
    match gddCtxReduce fuel (gddCtxRemoveVid s.1 maxvid) with
    | none => none
    | some ctx => some (.inl (ctx, s.2 ++ [⟨s.1, maxvid⟩]))

/-- The rounds of `GddCtxBreakDeadLock`, with the context they leave. -/
def gddCtxBreakRounds (fuel : Nat) (ctx : GddCtx) : Option (GddCtx × List GddRound) :=
  loop (breakRound fuel) fuel (ctx, [])

/-- `GddCtxBreakDeadLock`: the context afterwards and the list of vids. -/
def gddCtxBreakDeadLock (fuel : Nat) (ctx : GddCtx) :
    Option (GddCtx × List DistributedTransactionId) :=
  (gddCtxBreakRounds fuel ctx).map fun r => (r.1, r.2.map GddRound.maxvid)

/-- The edges of all local graphs (`gdd_ctx_foreach_in_edge`). -/
def gddCtxEdges (ctx : GddCtx) : List GddEdge :=
  ctx.graphs.flatMap fun graph => graph.verts.flatMap fun vid =>
  (ctx.heap.vert graph.id vid).edgesIn

end PolemoDB.Gdd
