import SsaBackend.Assembly
import SsaBackend.Target

/-!
# Instructions of arm64

The instructions that code generation uses, and their text: destinations stand before sources, and
literals have a number sign.
-/

namespace SsaBackend.Arm64

inductive Arg
  | imm (value : Int)
  | reg (name : Register)
  deriving DecidableEq

def Arg.render : Arg → String
  | imm value => "#" ++ toString value
  | reg name => name

structure Address where
  base : Register
  offset : Nat
  deriving DecidableEq

/-- The text of an address. An offset of zero is not written. -/
def Address.render (a : Address) : String :=
  if a.offset = 0 then "[" ++ a.base ++ "]"
  else "[" ++ a.base ++ ", #" ++ toString a.offset ++ "]"

inductive Alu
  | add
  | sub
  | mul
  | sdiv
  | and
  | orr
  | eor
  deriving DecidableEq

def Alu.mnemonic : Alu → String
  | add => "add"
  | sub => "sub"
  | mul => "mul"
  | sdiv => "sdiv"
  | and => "and"
  | orr => "orr"
  | eor => "eor"

inductive Cond
  | eq
  | ne
  | lt
  | le
  | gt
  | ge
  deriving DecidableEq

def Cond.name : Cond → String
  | eq => "eq"
  | ne => "ne"
  | lt => "lt"
  | le => "le"
  | gt => "gt"
  | ge => "ge"

inductive Instr
  | mov (dst : Register) (src : Arg)
  | movz (dst : Register) (chunk shift : Nat)
  | movk (dst : Register) (chunk shift : Nat)
  | alu (op : Alu) (dst lhs : Register) (rhs : Arg)
  | cmp (lhs : Register) (rhs : Arg)
  | cset (dst : Register) (cond : Cond)
  | ldr (dst : Register) (address : Address)
  | str (src : Register) (address : Address)
  | stpPush (first second : Register) (amount : Nat)
  | ldpPop (first second : Register) (amount : Nat)
  | b (label : String)
  | bl (callee : String)
  | cbnz (cond : Register) (label : String)
  | ret
  | paciasp
  | autiasp
  deriving DecidableEq

namespace Instr

def mnemonic : Instr → String
  | mov _ _ => "mov"
  | movz _ _ _ => "movz"
  | movk _ _ _ => "movk"
  | alu op _ _ _ => op.mnemonic
  | cmp _ _ => "cmp"
  | cset _ _ => "cset"
  | ldr _ _ => "ldr"
  | str _ _ => "str"
  | stpPush _ _ _ => "stp"
  | ldpPop _ _ _ => "ldp"
  | b _ => "b"
  | bl _ => "bl"
  | cbnz _ _ => "cbnz"
  | ret => "ret"
  | paciasp => "paciasp"
  | autiasp => "autiasp"

/-- The operands of a 16-bit move. A shift of zero is not written. -/
def chunkOperands (dst : Register) (chunk shift : Nat) : List String :=
  let imm := (Arg.imm chunk).render
  if shift = 0 then [dst, imm] else [dst, imm, "lsl #" ++ toString shift]

def operands : Instr → List String
  | mov dst src => [dst, src.render]
  | movz dst chunk shift => chunkOperands dst chunk shift
  | movk dst chunk shift => chunkOperands dst chunk shift
  | alu _ dst lhs rhs => [dst, lhs, rhs.render]
  | cmp lhs rhs => [lhs, rhs.render]
  | cset dst cond => [dst, cond.name]
  | ldr dst address => [dst, address.render]
  | str src address => [src, address.render]
  | stpPush first second amount => [first, second, "[sp, #-" ++ toString amount ++ "]!"]
  | ldpPop first second amount => [first, second, "[sp]", (Arg.imm amount).render]
  | b label => [label]
  | bl callee => [callee]
  | cbnz cond label => [cond, label]
  | ret => []
  | paciasp => []
  | autiasp => []

def render (i : Instr) : String := Assembly.instructionText i.mnemonic i.operands

end Instr

end SsaBackend.Arm64
