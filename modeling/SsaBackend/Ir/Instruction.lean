import SsaBackend.Ir.Value

/-!
# Instructions

The instructions of a block, the terminator that ends it, and the phis that start it. For each of
them this module says which ids it defines and which it reads; that is all that dataflow needs to
know of it.
-/

namespace SsaBackend

abbrev BlockId := Nat

def blockName (b : BlockId) : String := "bb" ++ toString b

inductive BinOp
  | add
  | sub
  | mul
  | div
  | eq
  | ne
  | lt
  | le
  | gt
  | ge
  | and
  | or
  | xor
  deriving DecidableEq

namespace BinOp

def name : BinOp → String
  | add => "add"
  | sub => "sub"
  | mul => "mul"
  | div => "div"
  | eq => "eq"
  | ne => "ne"
  | lt => "lt"
  | le => "le"
  | gt => "gt"
  | ge => "ge"
  | and => "and"
  | or => "or"
  | xor => "xor"

def isComparison : BinOp → Bool
  | eq | ne | lt | le | gt | ge => true
  | _ => false

end BinOp

inductive Instruction
  | binop (dst : Value) (op : BinOp) (lhs rhs : Value)
  | call (dst : Option Value) (callee : String) (args : List Value)
  | load (dst src : Value)
  | store (addr src : Value)
  deriving DecidableEq

namespace Instruction

def dst? : Instruction → Option Value
  | binop dst _ _ _ => some dst
  | call dst _ _ => dst
  | load dst _ => some dst
  | store _ _ => none

def def? (i : Instruction) : Option ValueId := i.dst?.bind Value.id?

def operands : Instruction → List Value
  | binop _ _ lhs rhs => [lhs, rhs]
  | call _ _ args => args
  | load _ src => [src]
  | store addr src => [addr, src]

def uses (i : Instruction) : List ValueId := i.operands.filterMap Value.id?

def isMove : Instruction → Bool
  | load _ src => !src.isConstant
  | _ => false

def render : Instruction → String
  | binop dst op lhs rhs =>
    dst.render ++ " = " ++ op.name ++ " " ++ lhs.render ++ ", " ++ rhs.render
  | call dst callee args =>
    (dst.elim "" fun d => d.render ++ " = ") ++ "call " ++ callee ++ "(" ++
      ", ".intercalate (args.map Value.render) ++ ")"
  | load dst src => dst.render ++ " = load " ++ src.render
  | store addr src => "store " ++ src.render ++ ", [" ++ addr.render ++ "]"

end Instruction

inductive Terminator
  | ret (value : Option Value)
  | branch (target : BlockId)
  | condBranch (cond : Value) (onTrue onFalse : BlockId)
  deriving DecidableEq, Inhabited

namespace Terminator

def successors : Terminator → List BlockId
  | ret _ => []
  | branch target => [target]
  | condBranch _ onTrue onFalse => if onTrue = onFalse then [onTrue] else [onTrue, onFalse]

def uses : Terminator → List ValueId
  | ret value => (value.bind Value.id?).toList
  | branch _ => []
  | condBranch cond _ _ => cond.id?.toList

theorem nodup_successors (t : Terminator) : t.successors.Nodup := by
  cases t with
  | ret => simp [successors]
  | branch => simp [successors]
  | condBranch _ a b => by_cases h : a = b <;> simp [successors, h]

end Terminator

structure Phi where
  dst : Value
  sources : List (BlockId × Value)
  deriving DecidableEq

namespace Phi

def source? (phi : Phi) (pred : BlockId) : Option Value :=
  (phi.sources.find? fun s => s.1 == pred).map Prod.snd

def uses (phi : Phi) : List ValueId := phi.sources.filterMap fun s => s.2.id?

end Phi

end SsaBackend
