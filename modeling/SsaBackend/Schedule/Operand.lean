import SsaBackend.Allocation

/-!
# Operands

Where an instruction finds a value once everything has its place: a literal, a register, or a spill
slot.
-/

namespace SsaBackend

inductive Operand
  | immediate (value : Int64)
  | register (name : Register)
  | stack (slot : Nat)
  deriving DecidableEq

def Location.toOperand : Location → Operand
  | register name => .register name
  | stack offset => .stack offset

end SsaBackend
