import SsaBackend.Ascending
import SsaBackend.Flow

/-!
# Liveness

Which ids are still needed at the start and end of each block. The sets are the least solution of
the backward equations: a block needs at its end what its successors need at their start and what
their phis take from it, and it needs at its start what it needs at its end, taken backward through
its nodes. A phi's destination is defined on entry, so it is not live in at its own block, and a
phi's source is live out of the predecessor that supplies it.
-/

namespace SsaBackend

abbrev LiveSet := List ValueId

namespace FlowNode

def liveBefore (n : FlowNode) (after : LiveSet) : LiveSet :=
  Ascending.insertAll (n.def?.elim after fun d => Ascending.erase d after) n.uses

/-- An id is live before a node if the node reads it, or does not define it and it is live after. -/
theorem mem_liveBefore {n : FlowNode} {after : LiveSet} {v : ValueId} :
    v ∈ n.liveBefore after ↔ (v ∈ after ∧ n.def? ≠ some v) ∨ v ∈ n.uses := by
  unfold liveBefore
  cases h : n.def? with
  | none => simp
  | some d => simp [eq_comm]

end FlowNode

namespace FlowBlock

def liveAtStart (b : FlowBlock) (out : LiveSet) : LiveSet := b.nodes.foldr FlowNode.liveBefore out

def liveIn (b : FlowBlock) (out : LiveSet) : LiveSet :=
  (b.liveAtStart out).filter fun v => !b.phiDefs.contains v

def liveOut (b : FlowBlock) (ins : List LiveSet) : LiveSet :=
  Ascending.insertAll (Ascending.ofList b.exitUses) (b.succs.flatMap fun s => ins.getD s [])

def liveAfterEach (out : LiveSet) : List FlowNode → List (FlowNode × LiveSet)
  | [] => []
  | n :: ns => (n, ns.foldr FlowNode.liveBefore out) :: liveAfterEach out ns

def reads (b : FlowBlock) : List ValueId := b.nodes.flatMap FlowNode.uses ++ b.exitUses

end FlowBlock

structure Liveness where
  liveIn : List LiveSet
  liveOut : List LiveSet
  deriving DecidableEq

namespace Liveness

def step (flow : List FlowBlock) (ins : List LiveSet) : List LiveSet :=
  flow.map fun b => b.liveIn (b.liveOut ins)

def stabilize {α : Type} [DecidableEq α] (f : α → α) : Nat → α → α
  | 0, x => x
  | n + 1, x => if f x = x then x else stabilize f n (f x)

def rounds (flow : List FlowBlock) : Nat :=
  flow.length * (Ascending.ofList (flow.flatMap FlowBlock.reads)).length + 1

def analyze (flow : List FlowBlock) : Liveness :=
  let ins := stabilize (step flow) (rounds flow) (flow.map fun _ => [])
  ⟨ins, flow.map fun b => b.liveOut ins⟩

end Liveness

end SsaBackend
