import SsaBackend.Ir.Function

/-!
# Control flow summaries

What dataflow has to know of a function: for each block the ids that its nodes define and read, the
ids that it hands to the phis of its successors, and where it may go on. A node is an instruction
or the terminator.
-/

namespace SsaBackend

structure FlowNode where
  def? : Option ValueId
  uses : List ValueId
  isMove : Bool
  deriving DecidableEq

def Instruction.node (i : Instruction) : FlowNode := ⟨i.def?, i.uses, i.isMove⟩

def Terminator.node (t : Terminator) : FlowNode := ⟨none, t.uses, false⟩

def Block.nodes (b : Block) : List FlowNode :=
  b.instructions.map Instruction.node ++ [b.terminator.node]

structure FlowBlock where
  phiDefs : List ValueId
  nodes : List FlowNode
  exitUses : List ValueId
  succs : List BlockId
  deriving DecidableEq

namespace Function

def exitUses (f : Function) (b : BlockId) : List ValueId :=
  (f.block b).succs.flatMap fun s =>
    (f.block s).phis.filterMap fun phi => (phi.source? b).bind Value.id?

def flowBlock (f : Function) (b : BlockId) : FlowBlock :=
  ⟨(f.block b).phiDefs, (f.block b).nodes, f.exitUses b, (f.block b).succs⟩

def flow (f : Function) : List FlowBlock := f.blockIds.map f.flowBlock

end Function

end SsaBackend
