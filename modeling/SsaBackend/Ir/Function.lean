import SsaBackend.Ir.Instruction

/-!
# Functions

A function is its parameters and its blocks, the entry block first. Links between blocks are not
stored: successors come from the terminators, and predecessors from the successors.
-/

namespace SsaBackend

structure Block where
  label : String
  phis : List Phi
  instructions : List Instruction
  terminator : Terminator
  deriving Inhabited

namespace Block

def succs (b : Block) : List BlockId := b.terminator.successors

def phiDefs (b : Block) : List ValueId := b.phis.filterMap fun phi => phi.dst.id?

def defs (b : Block) : List ValueId := b.phiDefs ++ b.instructions.filterMap Instruction.def?

end Block

structure Function where
  name : String
  params : List Value
  ret : Option Ty
  blocks : List Block
  valueCount : Nat

namespace Function

/-- The block with a given id. Ids that name no block stand for an empty block that returns. -/
def block (f : Function) (b : BlockId) : Block := f.blocks.getD b default

def label (f : Function) (b : BlockId) : String := (f.block b).label

def blockIds (f : Function) : List BlockId := List.range f.blocks.length

def paramIds (f : Function) : List ValueId := f.params.filterMap Value.id?

def definedValues (f : Function) : List ValueId := f.paramIds ++ f.blocks.flatMap Block.defs

end Function

def predecessors (succs : List (List BlockId)) (b : BlockId) : List BlockId :=
  succs.zipIdx.filterMap fun s => if s.1.contains b then some s.2 else none

namespace Function

def preds (f : Function) (b : BlockId) : List BlockId := predecessors (f.blocks.map Block.succs) b

def renderTerminator (f : Function) : Terminator → String
  | .ret none => "ret"
  | .ret (some value) => "ret " ++ value.render
  | .branch target => "br " ++ f.label target
  | .condBranch cond onTrue onFalse =>
    "br " ++ cond.render ++ ", " ++ f.label onTrue ++ ", " ++ f.label onFalse

def renderPhi (f : Function) (phi : Phi) : String :=
  phi.dst.render ++ " = phi" ++
    String.join (phi.sources.map fun s => " [" ++ f.label s.1 ++ ": " ++ s.2.render ++ "]")

def renderBlock (f : Function) (b : Block) : List String :=
  (b.label ++ ":") ::
    (b.phis.map f.renderPhi ++ b.instructions.map Instruction.render ++
      [f.renderTerminator b.terminator]).map ("    " ++ ·)

def renderParam (v : Value) : String := v.render ++ ": " ++ v.ty.name

def render (f : Function) : String :=
  let head := "fn " ++ f.name ++ "(" ++ ", ".intercalate (f.params.map renderParam) ++ ")" ++
    (f.ret.elim "" fun ty => " -> " ++ ty.name) ++ " \x7b"
  "\n".intercalate ([head] ++ f.blocks.flatMap f.renderBlock ++ ["\x7d"])

theorem mem_preds_iff {f : Function} {p b : BlockId} :
    p ∈ f.preds b ↔ p < f.blocks.length ∧ b ∈ (f.block p).succs := by
  simp only [preds, predecessors, List.mem_filterMap, List.mem_zipIdx_iff_getElem?, block,
    List.getD_eq_getElem?_getD, Prod.exists, List.getElem?_map]
  constructor
  · rintro ⟨succs, i, h, hp⟩
    obtain ⟨blk, hblk, rfl⟩ := Option.map_eq_some_iff.1 h
    split at hp
    · rename_i hb
      cases hp
      exact ⟨(List.getElem?_eq_some_iff.1 hblk).1, by simpa [hblk] using hb⟩
    · cases hp
  · rintro ⟨hp, hb⟩
    refine ⟨f.blocks[p].succs, p, by simp [hp], ?_⟩
    simpa [List.getElem?_eq_getElem hp] using hb

end Function

end SsaBackend
