import SsaBackend.Assembly
import SsaBackend.Target

/-!
# Instructions of riscv64

The instructions that code generation uses, and their text: destinations stand before sources, and
registers have the names of the calling convention.
-/

namespace SsaBackend.Riscv64

inductive RegOp
  | add
  | sub
  | mul
  | div
  | and
  | or
  | xor
  | slt
  | sltu
  deriving DecidableEq

def RegOp.mnemonic : RegOp → String
  | add => "add"
  | sub => "sub"
  | mul => "mul"
  | div => "div"
  | and => "and"
  | or => "or"
  | xor => "xor"
  | slt => "slt"
  | sltu => "sltu"

inductive ImmOp
  | addi
  | addiw
  | andi
  | ori
  | xori
  | slli
  | sltiu
  deriving DecidableEq

def ImmOp.mnemonic : ImmOp → String
  | addi => "addi"
  | addiw => "addiw"
  | andi => "andi"
  | ori => "ori"
  | xori => "xori"
  | slli => "slli"
  | sltiu => "sltiu"

structure Address where
  base : Register
  offset : Nat
  deriving DecidableEq

def Address.render (a : Address) : String := toString a.offset ++ "(" ++ a.base ++ ")"

inductive Instr
  | li (dst : Register) (value : Int)
  | lui (dst : Register) (value : Int)
  | mv (dst src : Register)
  | reg (op : RegOp) (dst lhs rhs : Register)
  | imm (op : ImmOp) (dst lhs : Register) (value : Int)
  | ld (dst : Register) (address : Address)
  | sd (src : Register) (address : Address)
  | call (callee : String)
  | j (label : String)
  | bnez (cond : Register) (label : String)
  | ret
  deriving DecidableEq

namespace Instr

def mnemonic : Instr → String
  | li _ _ => "li"
  | lui _ _ => "lui"
  | mv _ _ => "mv"
  | reg op _ _ _ => op.mnemonic
  | imm op _ _ _ => op.mnemonic
  | ld _ _ => "ld"
  | sd _ _ => "sd"
  | call _ => "call"
  | j _ => "j"
  | bnez _ _ => "bnez"
  | ret => "ret"

def operands : Instr → List String
  | li dst value => [dst, toString value]
  | lui dst value => [dst, toString value]
  | mv dst src => [dst, src]
  | reg _ dst lhs rhs => [dst, lhs, rhs]
  | imm _ dst lhs value => [dst, lhs, toString value]
  | ld dst address => [dst, address.render]
  | sd src address => [src, address.render]
  | call callee => [callee]
  | j label => [label]
  | bnez cond label => [cond, label]
  | ret => []

def render (i : Instr) : String := Assembly.instructionText i.mnemonic i.operands

end Instr

end SsaBackend.Riscv64
