import SsaBackend.Ascending
import SsaBackend.Ir.Function
import SsaBackend.Sorting

/-!
# Profiles

What was counted while a program ran: how often blocks were entered, how likely conditional branches
are taken, and how often functions are called. A profile steers two choices, the order in which
blocks are laid out and the values that are spilled first, and both choices are free: any layout
and any spill is correct.
-/

namespace SsaBackend

/-- Counts of a run. What is not listed was not counted. -/
structure Profile where
  hot : List (String × UInt64)
  weights : List (String × Float)
  calls : List (String × UInt64)

namespace Profile

def empty : Profile := ⟨[], [], []⟩

def hotness (p : Profile) (label : String) : UInt64 := (p.hot.lookup label).getD 0

def isLikely (p : Profile) (label : String) : Bool := (p.weights.lookup label).any (· > 0.5)

/-! ### Layout -/

def hottestFirst (p : Profile) (f : Function) : List BlockId :=
  sortBy (fun a b => p.hotness (f.label b) ≤ p.hotness (f.label a)) (f.blockIds.drop 1)

def likely? (p : Profile) (f : Function) (b : BlockId) : Option BlockId :=
  match (f.block b).terminator with
  | .condBranch _ onTrue _ => if p.isLikely (f.label b) then some onTrue else none
  | _ => none

/-- The block to place after `last`: the one that probably follows it, or else the first of
`hottest`; neither may be placed already. -/
def next? (p : Profile) (f : Function) (hottest placed : List BlockId) (last : BlockId) :
    Option BlockId :=
  ((p.likely? f last).filter fun b => !placed.contains b).or
    (hottest.find? fun b => !placed.contains b)

def layoutFrom (p : Profile) (f : Function) (hottest : List BlockId) :
    (n : Nat) → (placed : List BlockId) → (last : BlockId) → List BlockId
  | 0, _, _ => []
  | n + 1, placed, last =>
    match p.next? f hottest placed last with
    | none => []
    | some b => b :: layoutFrom p f hottest n (b :: placed) b

/-- The order in which to emit the blocks of a function: the entry first, then a likely true
successor right after its branch, and otherwise the hottest block that is left. -/
def layout (p : Profile) (f : Function) : List BlockId :=
  0 :: p.layoutFrom f (p.hottestFirst f) (f.blocks.length - 1) [0] 0

/-! ### Spill costs -/

def saturatingMul (a b : UInt64) : UInt64 := .ofNat (min (a.toNat * b.toNat) (UInt64.size - 1))

/-- How much the uses of an instruction count: as often as its callee is called, and once for
anything but a call. -/
def multiplicity (p : Profile) : Instruction → UInt64
  | .call _ callee _ => max 1 ((p.calls.lookup callee).getD 1)
  | _ => 1

def blockCharges (p : Profile) (b : Block) : List (ValueId × UInt64) :=
  let weight := max 1 (p.hotness b.label)
  let once := fun v : ValueId => (v, saturatingMul weight 1)
  (b.phis.flatMap fun phi => (phi.dst.id?.toList ++ phi.uses).map once) ++
    (b.instructions.flatMap fun i =>
      i.def?.toList.map once ++
        i.uses.map fun v => (v, saturatingMul weight (p.multiplicity i))) ++
    b.terminator.uses.map once

def charges (p : Profile) (f : Function) : List (ValueId × UInt64) :=
  (f.paramIds.map fun v => (v, 1)) ++ f.blocks.flatMap p.blockCharges

def cost (charges : List (ValueId × UInt64)) (v : ValueId) : UInt64 :=
  charges.foldl (fun sum c => if c.1 = v then sum + c.2 else sum) 0

def spillCosts (p : Profile) (f : Function) : List (ValueId × UInt64) :=
  let charges := p.charges f
  (Ascending.ofList (charges.map Prod.fst)).map fun v => (v, cost charges v)

end Profile

end SsaBackend
