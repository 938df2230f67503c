import SsaBackend.Allocation
import SsaBackend.Liveness

/-!
# Interference

Which ids must not share a place. Parameters interfere with each other and with everything live at
the start of the entry; the phis of a block interfere with each other and with everything live at
its start; a result interferes with everything live after its instruction, except that a copy does
not interfere with its own source. Ids are the nodes of a graph, numbered in order of first mention.
-/

namespace SsaBackend

structure Graph where
  adj : Array (List Nat)

namespace Graph

def edgeless (n : Nat) : Graph := ⟨Array.replicate n []⟩

def neighbours (g : Graph) (i : Nat) : List Nat := g.adj.getD i []

def degree (g : Graph) (i : Nat) : Nat := (g.neighbours i).length

def isLinked (g : Graph) (i j : Nat) : Bool := (g.neighbours i).contains j

/-- Makes two nodes neighbours. A node is not its own neighbour. -/
def link (g : Graph) (i j : Nat) : Graph :=
  if i = j then g
  else ⟨(g.adj.modify i (Ascending.insert j)).modify j (Ascending.insert i)⟩

def unlink (g : Graph) (i j : Nat) : Graph :=
  ⟨(g.adj.modify i (Ascending.erase j)).modify j (Ascending.erase i)⟩

end Graph

structure Clash where
  value : ValueId
  others : List ValueId
  deriving DecidableEq

namespace Clash

def pairwise (live : List ValueId) : (before : List ValueId) → List ValueId → List Clash
  | _, [] => []
  | before, v :: vs => ⟨v, before ++ live⟩ :: pairwise live (before ++ [v]) vs

/-- The result of a node against what is live after it. A copy spares its source. -/
def ofNode (n : FlowNode) (after : LiveSet) : Option Clash :=
  n.def?.map fun d => ⟨d, after.filter fun v => !(n.isMove && n.uses.contains v)⟩

def ofBlock (b : FlowBlock) (out : LiveSet) : List Clash :=
  (FlowBlock.liveAfterEach out b.nodes).reverse.filterMap (fun n => ofNode n.1 n.2) ++
    pairwise (b.liveAtStart out) [] b.phiDefs

def ofEntry (params : List ValueId) (entry : FlowBlock) (out : LiveSet) : List Clash :=
  params.map fun p => ⟨p, entry.liveAtStart out⟩

/-- The clashes of a function, in order of mention: parameters with each other, then block by block,
with the parameters once more after the entry. -/
def all (params : List ValueId) (flow : List FlowBlock) (live : Liveness) : List Clash :=
  pairwise [] [] params ++
    match flow.zip live.liveOut with
    | [] => []
    | (entry, out) :: rest =>
      ofBlock entry out ++ ofEntry params entry out ++ rest.flatMap fun b => ofBlock b.1 b.2

end Clash

def FlowBlock.moves (b : FlowBlock) : List (ValueId × ValueId) :=
  b.nodes.reverse.filterMap fun n =>
    match n.isMove, n.def?, n.uses with
    | true, some dst, src :: _ => some (dst, src)
    | _, _, _ => none

/-- The interference graph of a function. Nodes that were merged share a representative; the others
are their own. -/
structure Interference where
  values : List ValueId
  graph : Graph
  reps : List Nat
  moves : List (Nat × Nat)

namespace Interference

def node? (values : List ValueId) (v : ValueId) : Option Nat := values.idxOf? v

def linkClash (values : List ValueId) (g : Graph) (c : Clash) : Graph :=
  let i := values.idxOf c.value
  c.others.foldl (fun g v => g.link i (values.idxOf v)) g

def ofClashes (clashes : List Clash) (moves : List (ValueId × ValueId)) : Interference :=
  let values := (clashes.flatMap fun c => c.value :: c.others).eraseDups
  { values := values
    graph := clashes.foldl (linkClash values) (.edgeless values.length)
    reps := List.range values.length
    moves := moves.filterMap fun m =>
      (node? values m.1).bind fun dst => (node? values m.2).map fun src => (dst, src) }

def build (params : List ValueId) (flow : List FlowBlock) (live : Liveness) : Interference :=
  ofClashes (Clash.all params flow live) (flow.flatMap FlowBlock.moves)

def rep (g : Interference) (i : Nat) : Nat := g.reps.getD i i

def representatives (g : Interference) : List Nat :=
  (List.range g.values.length).filter fun i => g.rep i = i

/-! ### Coalescing -/

/-- Merges `gone` into `keep`: its neighbours become neighbours of `keep`, and what it represents is
represented by `keep`. -/
def merge (g : Interference) (keep gone : Nat) : Interference :=
  { g with
    graph := (g.graph.neighbours gone).foldl
      (fun graph n => (graph.unlink gone n).link keep n) g.graph
    reps := g.reps.map fun r => if r = gone then keep else r }

/-- Merges the ends of a copy, unless they are merged already, interfere, or together have `k`
neighbours or more. -/
def coalesceMove (k : Nat) (g : Interference) (m : Nat × Nat) : Interference :=
  let keep := g.rep m.1
  let gone := g.rep m.2
  if keep = gone || g.graph.isLinked keep gone ||
      k ≤ g.graph.degree keep + g.graph.degree gone then g
  else g.merge keep gone

def coalesce (g : Interference) (k : Nat) : Interference := g.moves.foldl (coalesceMove k) g

end Interference

end SsaBackend
