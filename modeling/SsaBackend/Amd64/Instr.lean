import SsaBackend.Assembly
import SsaBackend.Target

/-!
# Instructions of amd64

The instructions that code generation uses, and their text: sources stand before destinations,
registers have a percent sign and literals a dollar sign.
-/

namespace SsaBackend.Amd64

inductive Arg
  | imm (value : Int)
  | reg (name : Register)
  | mem (offset : Int) (base : Register)
  deriving DecidableEq

/-- The text of an operand. An offset of zero is not written. -/
def Arg.render : Arg → String
  | imm value => "$" ++ toString value
  | reg name => "%" ++ name
  | mem offset base => (if offset = 0 then "" else toString offset) ++ "(%" ++ base ++ ")"

inductive Alu
  | add
  | sub
  | imul
  | and
  | or
  | xor
  deriving DecidableEq

def Alu.mnemonic : Alu → String
  | add => "addq"
  | sub => "subq"
  | imul => "imulq"
  | and => "andq"
  | or => "orq"
  | xor => "xorq"

inductive Cond
  | e
  | ne
  | l
  | le
  | g
  | ge
  deriving DecidableEq

def Cond.setMnemonic : Cond → String
  | e => "sete"
  | ne => "setne"
  | l => "setl"
  | le => "setle"
  | g => "setg"
  | ge => "setge"

inductive Instr
  | movq (src dst : Arg)
  | movabsq (value : Int) (dst : Register)
  | alu (op : Alu) (src : Arg) (dst : Register)
  | cmpq (src dst : Arg)
  | testq (src dst : Register)
  | setcc (cond : Cond)
  | movzbq
  | cqto
  | idivq (divisor : Arg)
  | pushq (src : Arg)
  | popq (dst : Register)
  | callq (callee : String)
  | jmp (label : String)
  | jne (label : String)
  | retq
  deriving DecidableEq

namespace Instr

def mnemonic : Instr → String
  | movq _ _ => "movq"
  | movabsq _ _ => "movabsq"
  | alu op _ _ => op.mnemonic
  | cmpq _ _ => "cmpq"
  | testq _ _ => "testq"
  | setcc cond => cond.setMnemonic
  | movzbq => "movzbq"
  | cqto => "cqto"
  | idivq _ => "idivq"
  | pushq _ => "pushq"
  | popq _ => "popq"
  | callq _ => "callq"
  | jmp _ => "jmp"
  | jne _ => "jne"
  | retq => "retq"

def operands : Instr → List String
  | movq src dst => [src.render, dst.render]
  | movabsq value dst => [(Arg.imm value).render, (Arg.reg dst).render]
  | alu _ src dst => [src.render, (Arg.reg dst).render]
  | cmpq src dst => [src.render, dst.render]
  | testq src dst => [(Arg.reg src).render, (Arg.reg dst).render]
  | setcc _ => ["%al"]
  | movzbq => ["%al", "%rax"]
  | cqto => []
  | idivq divisor => [divisor.render]
  | pushq src => [src.render]
  | popq dst => [(Arg.reg dst).render]
  | callq callee => [callee]
  | jmp label => [label]
  | jne label => [label]
  | retq => []

def render (i : Instr) : String := Assembly.instructionText i.mnemonic i.operands

end Instr

end SsaBackend.Amd64
