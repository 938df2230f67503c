import SsaBackend.Frame
import Mathlib.Algebra.Order.Ring.Int

/-!
# The layout of frames

A frame is a multiple of 16 bytes and has room for its parts. Distances in it are from the stack
pointer of the caller, which is where the frame ends.
-/

namespace SsaBackend

def Arch.stackPointer : Arch → Register
  | amd64 => "rsp"
  | arm64 => "sp"
  | riscv64 => "sp"

namespace Frame

variable {t : Target}

structure WellLaid (t : Target) (f : Frame) : Prop where
  size_lt : f.size < 2 ^ 32
  size_mod : f.size % 16 = 0
  outgoing_mod : f.outgoingSize % 8 = 0
  fits : f.outgoingSize + f.saved.length * 8 + fixedArea ≤ f.size
  saved : ∀ r ∈ f.saved, r ∈ t.calleeSaved

theorem mem_calleeSaved {a : Allocation} {outgoing : Nat} {r : Register}
    (h : r ∈ (ofAllocation t a outgoing).saved) : r ∈ t.calleeSaved := (List.mem_filter.1 h).1

theorem room_ofAllocation (halign : t.stackAlign = 16) (hword : t.wordSize = 8) (a : Allocation)
    (outgoing : Nat) :
    (ofAllocation t a outgoing).outgoingSize + (ofAllocation t a outgoing).saved.length * 8 +
      fixedArea ≤ (ofAllocation t a outgoing).size := by
  simp only [ofAllocation, align, fixedArea, halign, hword]
  omega

theorem wellLaid_ofAllocation (halign : t.stackAlign = 16) (hword : t.wordSize = 8) (a : Allocation)
    (outgoing : Nat) (hlt : (ofAllocation t a outgoing).size < 2 ^ 32) :
    (ofAllocation t a outgoing).WellLaid t where
  size_lt := hlt
  size_mod := by simp only [ofAllocation, align, fixedArea, halign]; omega
  outgoing_mod := by simp only [ofAllocation, hword]; omega
  fits := room_ofAllocation halign hword a outgoing
  saved _ hr := mem_calleeSaved hr

/-- How far below the stack pointer of the caller the saved register in position `index` lies. -/
def saveDepth (f : Frame) (index : Nat) : Nat := f.size - f.saveOffset index

theorem WellLaid.saveDepth_facts {f : Frame} (h : f.WellLaid t) {index : Nat}
    (hindex : index < f.saved.length) :
    f.saveOffset index ≤ f.size ∧ f.saveDepth index % 8 = 0 ∧ fixedArea < f.saveDepth index ∧
      f.saveDepth index ≤ f.size := by
  obtain ⟨-, hsize, houtgoing, hfits, -⟩ := h
  simp only [saveDepth, saveOffset, fixedArea] at hfits ⊢
  omega

end Frame

end SsaBackend
