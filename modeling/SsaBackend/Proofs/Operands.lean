import SsaBackend.Proofs.Amd64.Operands
import SsaBackend.Proofs.Arm64.Frame
import SsaBackend.Proofs.Riscv64.Frame

/-!
# Operands on every architecture

Every architecture has code that loads an operand into a register (`Arch.loadCode`) and code that
writes a register to an operand (`Arch.writeCode`). Where instructions compute in registers only, all
other code is made of these: operands that are not in registers are read into temporaries, one for
each side, and results that go to the stack are computed in a third one.
-/

namespace SsaBackend.Arch

open Asm List

def loadCode (arch : Arch) (f : Frame) (dst : Register) (o : Operand) : List Cell :=
  match arch with
  | amd64 => (Amd64.loadReg f dst o).map Amd64.Instr.cell
  | arm64 => (Arm64.loadReg f dst o).map Arm64.Instr.cell
  | riscv64 => (Riscv64.loadReg f dst o).map Riscv64.Instr.cell

def writeCode (arch : Arch) (f : Frame) (src : Register) (o : Operand) : List Cell :=
  match arch with
  | amd64 => (Amd64.storeReg f src o).map Amd64.Instr.cell
  | arm64 => (Arm64.write f src o).map Arm64.Instr.cell
  | riscv64 => (Riscv64.write f src o).map Riscv64.Instr.cell

def workRegs (arch : Arch) : List Register := arch.temporaries ++ arch.target.valueRegs

theorem facts_of_mem_workRegs (arch : Arch) :
    ∀ r ∈ arch.workRegs, isPlain r = true ∧ r ∉ arch.addressRegs ∧ r ≠ arch.slotBase := by
  cases arch <;> decide

theorem slotBase_notMem (arch : Arch) : arch.slotBase ∉ arch.temporaries ++ arch.addressRegs := by
  cases arch <;> decide

variable {r : Register}

theorem mem_workRegs_of_mem_valueRegs {arch : Arch} (h : r ∈ arch.target.valueRegs) :
    r ∈ arch.workRegs := mem_append_right _ h

theorem mem_workRegs_of_mem_temporaries {arch : Arch} (h : r ∈ arch.temporaries) :
    r ∈ arch.workRegs := mem_append_left _ h

variable {arch : Arch} (host : Host) {f : Frame} {s s' t : State} {o : Operand} {x y word : Int64}
  {but : List Register}

/-! ### Loading and writing -/

theorem loadCode_leads {dst : Register} (hdst : dst ∈ arch.workRegs)
    (ho : arch.Reads f arch.target.valueRegs s o x) :
    Leads (arch.exec host) (arch.loadCode f dst o) s ((s.set dst x).Agree arch.addressRegs) := by
  cases arch with
  | amd64 =>
    refine (Amd64.loadReg_leads host (facts_of_mem_workRegs _ _ hdst).1 ho).mono ?_
    rintro _ rfl
    exact .refl _ _
  | arm64 =>
    have hfree : ∀ r ∈ arm64.workRegs, Arm64.isFree r = true := by decide
    exact Arm64.loadReg_leads host (hfree dst hdst) ho
  | riscv64 =>
    have hfree : ∀ r ∈ riscv64.workRegs, Riscv64.isFree r = true := by decide
    exact Riscv64.loadReg_leads host (hfree dst hdst) ho

theorem writeCode_leads {src : Register} (hsrc : src ∈ arch.workRegs)
    (ho : o.InReach arch f arch.target.valueRegs)
    (hwrite : arch.writeOperand f s (s.get src) o = some t) :
    Leads (arch.exec host) (arch.writeCode f src o) s (t.Agree arch.addressRegs) := by
  cases arch with
  | amd64 =>
    refine (Amd64.storeReg_leads host (facts_of_mem_workRegs _ _ hsrc).1 ho hwrite).mono ?_
    rintro _ rfl
    exact .refl _ _
  | arm64 =>
    have hfree : ∀ r ∈ arm64.workRegs, Arm64.isFree r = true := by decide
    exact Arm64.write_leads host (hfree src hsrc) ho hwrite
  | riscv64 =>
    have hfree : ∀ r ∈ riscv64.workRegs, Riscv64.isFree r = true := by decide
    exact Riscv64.write_leads host (hfree src hsrc) ho hwrite

def leftReg : Arch → Register
  | amd64 => Amd64.acc
  | arm64 => Arm64.tmp0
  | riscv64 => Riscv64.tmp0

def resultReg : Arch → Register
  | amd64 => Amd64.acc
  | arm64 => Arm64.result
  | riscv64 => Riscv64.result

theorem leftReg_mem (arch : Arch) : arch.leftReg ∈ arch.temporaries := by cases arch <;> decide

theorem resultReg_mem (arch : Arch) : arch.resultReg ∈ arch.temporaries := by cases arch <;> decide

def readReg (scratch : Register) : Operand → Register
  | .register r => r
  | .immediate _ | .stack _ => scratch

def readCode (arch : Arch) (f : Frame) (scratch : Register) : Operand → List Cell
  | .register _ => []
  | o => arch.loadCode f scratch o

def workReg (arch : Arch) : Operand → Register
  | .register r => r
  | .immediate _ | .stack _ => arch.resultReg

variable {scratch : Register}

theorem mem_scratch_of_mem (hscratch : scratch ∈ arch.temporaries)
    (h : r ∈ scratch :: arch.addressRegs) : r ∈ arch.temporaries ++ arch.addressRegs := by
  rcases mem_cons.1 h with rfl | h
  · exact mem_append_left _ hscratch
  · exact mem_append_right _ h

theorem readReg_mem_workRegs (hscratch : scratch ∈ arch.temporaries)
    (ho : o.InReach arch f arch.target.valueRegs) : readReg scratch o ∈ arch.workRegs := by
  cases o with
  | immediate | stack => exact mem_workRegs_of_mem_temporaries hscratch
  | register r => exact mem_workRegs_of_mem_valueRegs ho

theorem readCode_leads (hscratch : scratch ∈ arch.temporaries)
    (ho : arch.Reads f arch.target.valueRegs s o x) :
    Leads (arch.exec host) (arch.readCode f scratch o) s fun s' =>
      s.Agree (scratch :: arch.addressRegs) s' ∧ s'.get (readReg scratch o) = x := by
  obtain ⟨hplain, hfar, -⟩ := arch.facts_of_mem_workRegs _ (mem_workRegs_of_mem_temporaries hscratch)
  have hload : Leads (arch.exec host) (arch.loadCode f scratch o) s fun s' =>
      s.Agree (scratch :: arch.addressRegs) s' ∧ s'.get scratch = x := by
    refine (loadCode_leads host (mem_workRegs_of_mem_temporaries hscratch) ho).mono fun s' h => ?_
    refine ⟨(State.Agree.touch hplain (by simp) x s).trans (h.mono fun r => mem_cons_of_mem _), ?_⟩
    rw [h.get scratch hplain hfar, State.get_set_self hplain]
  cases o with
  | register r => exact .nil ⟨.refl _ s, Option.some.inj ho.read⟩
  | immediate | stack => exact hload

variable {dst : Operand}

theorem workReg_mem (hdst : dst.InReach arch f arch.target.allocatable) :
    arch.workReg dst ∈ arch.workRegs := by
  cases dst with
  | register r => exact mem_workRegs_of_mem_valueRegs (Target.mem_valueRegs hdst)
  | immediate | stack => exact mem_workRegs_of_mem_temporaries arch.resultReg_mem

end SsaBackend.Arch
