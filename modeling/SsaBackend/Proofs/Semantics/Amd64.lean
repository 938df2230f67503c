import SsaBackend.Amd64.Instr
import SsaBackend.Proofs.Semantics.Assembly

/-!
# What the instructions of amd64 do

An instruction is decoded from its mnemonic and the texts of its operands, and then carried out on
the machine. Arithmetic wraps around. A division fails if it divides by zero, or if `%rdx` does not
hold the sign of `%rax`. A literal stands for its word, whatever the width that an encoding has for it.
-/

namespace SsaBackend.Amd64

open Asm (State Effect Host Exec)

/-! ### Operands -/

/-- An operand of an instruction. -/
inductive Place
  | imm (word : Int64)
  | reg (name : Register)
  /-- The word at `offset` from a register. -/
  | mem (offset : Int64) (base : Register)

/-- Reads `offset(%base)`. An offset that is not written is zero. -/
def memory? (text : String) : Option Place := do
  let (offset, base) ← Text.cutAtMark? ['(', '%'] text.toList
  let offset ← if offset.isEmpty then some 0 else Text.int64? (String.ofList offset)
  if base.getLast? = some ')' then some (.mem offset (String.ofList base.dropLast)) else none

/-- Reads an operand. -/
def place? (text : String) : Option Place :=
  if isImmediate text then (immediate? text).map .imm
  else
    match register? text with
    | some r => some (.reg r)
    | none => memory? text

namespace Place

def address? (s : State) : Place → Option Int64
  | mem offset base => some (s.get base + offset)
  | _ => none

/-- The word in a place. -/
def read (s : State) : Place → Option Int64
  | imm word => some word
  | reg r => some (s.get r)
  | mem offset base => s.load (s.get base + offset)

/-- Puts a word into a place. -/
def write (s : State) (word : Int64) : Place → Option State
  | imm _ => none
  | reg r => some (s.set r word)
  | mem offset base => s.store (s.get base + offset) word

end Place

/-! ### Instructions -/

/-- An instruction with decoded operands. -/
inductive Op
  | mov (src dst : Place)
  | alu (op : Alu) (src dst : Place)
  | cmp (src dst : Place)
  | test (src dst : Place)
  | set (cond : Cond) (dst : Place)
  | movzb (src dst : Place)
  | cqto
  | idiv (divisor : Place)
  | push (src : Place)
  | pop (dst : Place)
  | call (callee : String)
  | ret
  | jmp (label : String)
  | jump (cond : Cond) (label : String)

/-- The operation with a given mnemonic. -/
def Alu.ofMnemonic? (mnemonic : String) : Option Alu :=
  [.add, .sub, .imul, .and, .or, .xor].find? fun op => op.mnemonic = mnemonic

/-- The jump on a condition. -/
def Cond.jumpMnemonic : Cond → String
  | e => "je"
  | ne => "jne"
  | l => "jl"
  | le => "jle"
  | g => "jg"
  | ge => "jge"

/-- All conditions. -/
def Cond.all : List Cond := [.e, .ne, .l, .le, .g, .ge]

/-- Stores of conditions and jumps on them. -/
def decodeCond (mnemonic operand : String) : Option Op :=
  match Cond.all.find? fun c => c.jumpMnemonic = mnemonic with
  | some cond => some (.jump cond operand)
  | none => do
    let cond ← Cond.all.find? fun c => c.setMnemonic = mnemonic
    return .set cond (← place? operand)

/-- Decodes an instruction. -/
def decode (mnemonic : String) (operands : List String) : Option Op :=
  match mnemonic, operands with
  | "movq", [src, dst] => do return .mov (← place? src) (← place? dst)
  | "movabsq", [src, dst] => do return .mov (← place? src) (← place? dst)
  | "cmpq", [src, dst] => do return .cmp (← place? src) (← place? dst)
  | "testq", [src, dst] => do return .test (← place? src) (← place? dst)
  | "movzbq", [src, dst] => do return .movzb (← place? src) (← place? dst)
  | "cqto", [] => some .cqto
  | "idivq", [divisor] => (place? divisor).map .idiv
  | "pushq", [src] => (place? src).map .push
  | "popq", [dst] => (place? dst).map .pop
  | "callq", [callee] => some (.call callee)
  | "retq", [] => some .ret
  | "jmp", [label] => some (.jmp label)
  | mnemonic, [operand] => decodeCond mnemonic operand
  | mnemonic, [src, dst] => do
    return .alu (← Alu.ofMnemonic? mnemonic) (← place? src) (← place? dst)
  | _, _ => none

/-- What an operation computes. -/
def Alu.apply : Alu → Int64 → Int64 → Int64
  | add, lhs, rhs => lhs + rhs
  | sub, lhs, rhs => lhs - rhs
  | imul, lhs, rhs => lhs * rhs
  | and, lhs, rhs => lhs &&& rhs
  | or, lhs, rhs => lhs ||| rhs
  | xor, lhs, rhs => lhs ^^^ rhs

/-- Whether a condition holds of what was compared. -/
def Cond.holds (flags : Int64 × Int64) : Cond → Bool
  | e => flags.1 = flags.2
  | ne => flags.1 ≠ flags.2
  | l => flags.1 < flags.2
  | le => flags.1 ≤ flags.2
  | g => flags.2 < flags.1
  | ge => flags.2 ≤ flags.1

/-- The sign of `%rax`, as `%rdx` has to hold it. -/
def signOf (word : Int64) : Int64 := if word < 0 then -1 else 0

/-- Carries out an instruction. -/
def Op.exec (host : Host) (s : State) : Op → Option Effect
  | mov src dst => do return .next (← dst.write s (← src.read s))
  | alu op src dst => do
    let lhs ← dst.read s
    let rhs ← src.read s
    return .next (← dst.write s (op.apply lhs rhs))
  | cmp src dst => do return .next { s with flags := (← dst.read s, ← src.read s) }
  | test src dst => do return .next { s with flags := ((← dst.read s) &&& (← src.read s), 0) }
  | set cond dst => do return .next (← dst.write s (if cond.holds s.flags then 1 else 0))
  | movzb src dst => do return .next (← dst.write s ((← src.read s) &&& 0xff))
  | cqto => some (.next (s.set "rdx" (signOf (s.get "rax"))))
  | idiv divisor => do
    let divisor ← divisor.read s
    let rax := s.get "rax"
    if s.get "rdx" = signOf rax ∧ divisor ≠ 0 then
      return .next ((s.set "rax" (rax / divisor)).set "rdx" (rax % divisor))
    else none
  | push src => do
    let word ← src.read s
    let rsp := s.get "rsp" - 8
    return .next (← (s.set "rsp" rsp).store rsp word)
  | pop dst => do
    let rsp := s.get "rsp"
    let word ← s.load rsp
    return .next (← dst.write (s.set "rsp" (rsp + 8)) word)
  | call callee => do return .next (← s.call target "rsp" host callee)
  | ret => do
    let rsp := s.get "rsp"
    return .ret (← s.load rsp) (s.set "rsp" (rsp + 8))
  | jmp label => some (.jump label s)
  | jump cond label => some (if cond.holds s.flags then .jump label s else .next s)

/-- What an instruction does. -/
def exec (host : Host) : Exec := fun mnemonic operands s =>
  (decode mnemonic operands).bind (Op.exec host s)

end SsaBackend.Amd64
