import SsaBackend.Riscv64.Instr
import SsaBackend.Proofs.Semantics.Assembly

/-!
# What the instructions of riscv64 do

An instruction is decoded from its mnemonic and the texts of its operands, and then carried out on
the machine. Arithmetic wraps around, shift amounts count modulo 64, and a division by zero gives
minus one.
-/

namespace SsaBackend.Riscv64

open Asm (State Effect Host Exec)

/-- A word in memory. -/
structure Mem where
  base : Register
  offset : Int64

/-- Reads `offset(base)`. -/
def mem? (text : String) : Option Mem := do
  let (offset, base) ← Text.cutAtMark? ['('] text.toList
  let offset ← Text.int64? (String.ofList offset)
  if base.getLast? = some ')' then some ⟨String.ofList base.dropLast, offset⟩ else none

/-- The address of a word. -/
def Mem.address (m : Mem) (s : State) : Int64 := s.get m.base + m.offset

/-- An instruction with decoded operands. -/
inductive Op
  | li (dst : Register) (word : Int64)
  | lui (dst : Register) (word : Int64)
  | mv (dst src : Register)
  | reg (op : RegOp) (dst lhs rhs : Register)
  | imm (op : ImmOp) (dst lhs : Register) (word : Int64)
  | ld (dst : Register) (mem : Mem)
  | sd (src : Register) (mem : Mem)
  | call (callee : String)
  | j (label : String)
  | bnez (cond : Register) (label : String)
  | beqz (cond : Register) (label : String)
  | ret

/-- The operation on two registers with a given mnemonic. -/
def RegOp.ofMnemonic? (mnemonic : String) : Option RegOp :=
  [.add, .sub, .mul, .div, .and, .or, .xor, .slt, .sltu].find? fun op => op.mnemonic = mnemonic

/-- The operation on a register and a literal with a given mnemonic. -/
def ImmOp.ofMnemonic? (mnemonic : String) : Option ImmOp :=
  [.addi, .addiw, .andi, .ori, .xori, .slli, .sltiu].find? fun op => op.mnemonic = mnemonic

/-- Decodes an operation with three operands. -/
def decodeThree (mnemonic dst lhs rhs : String) : Option Op :=
  match RegOp.ofMnemonic? mnemonic with
  | some op => some (.reg op dst lhs rhs)
  | none => do return .imm (← ImmOp.ofMnemonic? mnemonic) dst lhs (← immediate? rhs)

/-- Decodes an instruction. -/
def decode (mnemonic : String) (operands : List String) : Option Op :=
  match mnemonic, operands with
  | "li", [dst, word] => (immediate? word).map (.li dst)
  | "lui", [dst, word] => (immediate? word).map (.lui dst)
  | "mv", [dst, src] => some (.mv dst src)
  | "ld", [dst, address] => (mem? address).map (.ld dst)
  | "sd", [src, address] => (mem? address).map (.sd src)
  | "call", [callee] => some (.call callee)
  | "j", [label] => some (.j label)
  | "bnez", [cond, label] => some (.bnez cond label)
  | "beqz", [cond, label] => some (.beqz cond label)
  | "ret", [] => some .ret
  | mnemonic, [dst, lhs, rhs] => decodeThree mnemonic dst lhs rhs
  | _, _ => none

/-- One if a condition holds, and zero otherwise. -/
def bit (b : Bool) : Int64 := if b then 1 else 0

/-- What an operation on two registers computes. -/
def RegOp.apply : RegOp → Int64 → Int64 → Int64
  | add, lhs, rhs => lhs + rhs
  | sub, lhs, rhs => lhs - rhs
  | mul, lhs, rhs => lhs * rhs
  | div, lhs, rhs => if rhs = 0 then -1 else lhs / rhs
  | and, lhs, rhs => lhs &&& rhs
  | or, lhs, rhs => lhs ||| rhs
  | xor, lhs, rhs => lhs ^^^ rhs
  | slt, lhs, rhs => bit (lhs < rhs)
  | sltu, lhs, rhs => bit (lhs.toUInt64 < rhs.toUInt64)

/-- What an operation on a register and a literal computes. -/
def ImmOp.apply : ImmOp → Int64 → Int64 → Int64
  | addi, lhs, rhs => lhs + rhs
  | addiw, lhs, rhs => word (lhs + rhs)
  | andi, lhs, rhs => lhs &&& rhs
  | ori, lhs, rhs => lhs ||| rhs
  | xori, lhs, rhs => lhs ^^^ rhs
  | slli, lhs, rhs => lhs <<< rhs
  | sltiu, lhs, rhs => bit (lhs.toUInt64 < rhs.toUInt64)

/-- Carries out an instruction. -/
def Op.exec (host : Host) (s : State) : Op → Option Effect
  | li dst value => some (.next (s.set dst value))
  | lui dst value => some (.next (s.set dst (word (value <<< 12))))
  | mv dst src => some (.next (s.set dst (s.get src)))
  | reg op dst lhs rhs => some (.next (s.set dst (op.apply (s.get lhs) (s.get rhs))))
  | imm op dst lhs value => some (.next (s.set dst (op.apply (s.get lhs) value)))
  | ld dst m => do return .next (s.set dst (← s.load (m.address s)))
  | sd src m => do return .next (← s.store (m.address s) (s.get src))
  | call callee => do return .next (← s.call target "sp" host callee)
  | j label => some (.jump label s)
  | bnez cond label => some (if s.get cond ≠ 0 then .jump label s else .next s)
  | beqz cond label => some (if s.get cond = 0 then .jump label s else .next s)
  | ret => some (.ret (s.get "ra") s)

/-- What an instruction does. -/
def exec (host : Host) : Exec := fun mnemonic operands s =>
  (decode mnemonic operands).bind (Op.exec host s)

end SsaBackend.Riscv64
