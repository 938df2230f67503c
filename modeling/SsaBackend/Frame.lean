import SsaBackend.Allocation

/-!
# Stack frames

A frame holds, from the stack pointer of the body upwards, the outgoing stack arguments, the saved
registers, the spill area, padding, and a fixed area of two words for the frame pointer and the
return address. Where stack arguments are pushed there is no outgoing area.
-/

namespace SsaBackend

def align (value unit : Nat) : Nat := (value + unit - 1) / unit * unit

def fixedArea : Nat := 16

/-- The layout of a stack frame. Sizes are in bytes. -/
structure Frame where
  saved : List Register
  spillSize : Nat
  outgoingSize : Nat
  size : Nat
  deriving DecidableEq

namespace Frame

/-- The frame for an allocation and a number of outgoing stack arguments. Only the low 32 bits of the
number count, as sizes are 32-bit quantities. -/
def ofAllocation (t : Target) (a : Allocation) (outgoing : Nat) : Frame :=
  let used := a.registers
  let saved := t.calleeSaved.filter used.contains
  let outgoingSize := outgoing % UInt32.size * t.wordSize
  let body := outgoingSize + saved.length * t.wordSize + a.spillSize
  { saved := saved, spillSize := a.spillSize, outgoingSize := outgoingSize,
    size := fixedArea + align body t.stackAlign }

theorem outgoingSize_ofAllocation {t : Target} {a : Allocation} {outgoing : Nat}
    (h : outgoing < UInt32.size) :
    (ofAllocation t a outgoing).outgoingSize = outgoing * t.wordSize := by
  simp [ofAllocation, Nat.mod_eq_of_lt h]

def localSize (f : Frame) : Nat := f.size - fixedArea

/-- The offset of the saved register in position `index` from the stack pointer of the body. -/
def saveOffset (f : Frame) (index : Nat) : Nat := f.outgoingSize + index * 8

def spillOffset (f : Frame) (slot : Nat) : Nat := f.outgoingSize + f.saved.length * 8 + slot

def render (f : Frame) : String :=
  "frame " ++ toString f.size ++ " bytes (saved [" ++
    ", ".intercalate (f.saved.map fun r => "\"" ++ r ++ "\"") ++ "], spills " ++
    toString f.spillSize ++ ", outgoing " ++ toString f.outgoingSize ++ ")"

end Frame

end SsaBackend
