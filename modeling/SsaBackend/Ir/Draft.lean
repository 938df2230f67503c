import SsaBackend.Ir.Function

/-!
# Drafts

A draft is a function while it is being made. Each operation hands out the value or block that it
adds; blocks may be filled in any order, and a later terminator of a block replaces an earlier one.
Nothing is checked before the draft is built.
-/

namespace SsaBackend

structure DraftBlock where
  label : String
  phis : List Phi
  instructions : List Instruction
  terminator : Option Terminator

namespace DraftBlock

def succs (b : DraftBlock) : List BlockId := b.terminator.elim [] Terminator.successors

def uses (b : DraftBlock) : List ValueId :=
  b.phis.flatMap Phi.uses ++ b.instructions.flatMap Instruction.uses ++
    b.terminator.elim [] Terminator.uses

def toBlock (b : DraftBlock) : Block :=
  { label := b.label, phis := b.phis, instructions := b.instructions,
    terminator := b.terminator.getD default }

end DraftBlock

structure Draft where
  name : String
  ret : Option Ty
  params : List Value
  blocks : List DraftBlock
  nextId : Nat

namespace Draft

def empty (name : String) (ret : Option Ty) : Draft :=
  { name := name, ret := ret, params := [], blocks := [], nextId := 0 }

def param (d : Draft) (ty : Ty) : Value × Draft :=
  let value := .parameter d.nextId d.params.length ty
  (value, { d with params := d.params ++ [value], nextId := d.nextId + 1 })

def temp (d : Draft) (ty : Ty) : Value × Draft :=
  (.temporary d.nextId ty, { d with nextId := d.nextId + 1 })

def block (d : Draft) (label : String) : BlockId × Draft :=
  (d.blocks.length, { d with blocks := d.blocks ++ [⟨label, [], [], none⟩] })

def modifyBlock (d : Draft) (b : BlockId) (f : DraftBlock → DraftBlock) : Draft :=
  { d with blocks := d.blocks.modify b f }

def push (d : Draft) (b : BlockId) (i : Instruction) : Draft :=
  d.modifyBlock b fun blk => { blk with instructions := blk.instructions ++ [i] }

/-- Adds an operation. A comparison yields a truth value, anything else the type of its left
operand. -/
def binop (d : Draft) (b : BlockId) (op : BinOp) (lhs rhs : Value) : Value × Draft :=
  let (dst, d) := d.temp (if op.isComparison then .bool else lhs.ty)
  (dst, d.push b (.binop dst op lhs rhs))

def call (d : Draft) (b : BlockId) (callee : String) (args : List Value) (ret : Option Ty) :
    Option Value × Draft :=
  match ret with
  | none => (none, d.push b (.call none callee args))
  | some ty =>
    let (dst, d) := d.temp ty
    (some dst, d.push b (.call (some dst) callee args))

def load (d : Draft) (b : BlockId) (src : Value) : Value × Draft :=
  let (dst, d) := d.temp src.ty
  (dst, d.push b (.load dst src))

def store (d : Draft) (b : BlockId) (addr src : Value) : Draft := d.push b (.store addr src)

def phi (d : Draft) (b : BlockId) (ty : Ty) (sources : List (BlockId × Value)) : Value × Draft :=
  let (dst, d) := d.temp ty
  (dst, d.modifyBlock b fun blk => { blk with phis := blk.phis ++ [⟨dst, sources⟩] })

/-- Adds a source to the first phi whose destination is `dst`; without such a phi the list stays as
it is. -/
def addSource (dst : Value) (pred : BlockId) (src : Value) : List Phi → List Phi
  | [] => []
  | phi :: phis =>
    if phi.dst = dst then { phi with sources := phi.sources ++ [(pred, src)] } :: phis
    else phi :: addSource dst pred src phis

def addPhiSource (d : Draft) (b : BlockId) (dst : Value) (pred : BlockId) (src : Value) : Draft :=
  d.modifyBlock b fun blk => { blk with phis := addSource dst pred src blk.phis }

def terminate (d : Draft) (b : BlockId) (t : Terminator) : Draft :=
  d.modifyBlock b fun blk => { blk with terminator := some t }

end Draft

end SsaBackend
