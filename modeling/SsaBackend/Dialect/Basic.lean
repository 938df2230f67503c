import SsaBackend.Check.Finding
import SsaBackend.Listing
import SsaBackend.Target

/-!
# Dialects

The syntax and conventions of one target's assembly text: which names exist, how operands look, what
an instruction reads and writes, and what it does to the stack pointer.
-/

namespace SsaBackend

/-- How an instruction moves the stack pointer. The stack grows downward. -/
inductive StackEffect
  | grow (bytes : Int)
  | shrink (bytes : Int)
  | setFrame (offset : Int)
  | restoreFrame (offset : Int)
  | unknown
  deriving DecidableEq

abbrev Constants := List (Register × Int64)

namespace Constants

def get? (k : Constants) (r : Register) : Option Int64 := k.lookup r

def forget (k : Constants) (r : Register) : Constants := k.filter fun e => e.1 ≠ r

def set (k : Constants) (r : Register) : Option Int64 → Constants
  | some value => (r, value) :: k.forget r
  | none => k.forget r

theorem get?_cons (e : Register × Int64) (k : Constants) (s : Register) :
    get? (e :: k) s = if s = e.1 then some e.2 else k.get? s := by
  unfold get?
  rw [List.lookup_cons]
  by_cases h : s = e.1
  · simp [h]
  · rw [if_neg h, beq_eq_false_iff_ne.2 h]

@[simp] theorem get?_forget (k : Constants) (r s : Register) :
    (k.forget r).get? s = if s = r then none else k.get? s := by
  induction k with
  | nil => exact (ite_self _).symm
  | cons e k ih =>
    rw [get?_cons]
    by_cases he : e.1 = r
    · have hf : forget (e :: k) r = forget k r := by simp [forget, he]
      rw [hf, ih]
      by_cases hs : s = r
      · rw [if_pos hs, if_pos hs]
      · rw [if_neg hs, if_neg hs, if_neg (he ▸ hs)]
    · have hf : forget (e :: k) r = e :: forget k r := by simp [forget, he]
      rw [hf, get?_cons, ih]
      by_cases hs : s = e.1
      · rw [if_pos hs, if_pos hs, if_neg (hs ▸ he)]
      · rw [if_neg hs, if_neg hs]

@[simp] theorem get?_set (k : Constants) (r s : Register) (value : Option Int64) :
    (k.set r value).get? s = if s = r then value else k.get? s := by
  cases value with
  | none => exact get?_forget k r s
  | some v =>
    rw [set, get?_cons, get?_forget]
    by_cases hs : s = r
    · rw [if_pos hs, if_pos hs]
    · rw [if_neg hs, if_neg hs, if_neg hs]

end Constants

structure Dialect where
  target : Target
  commentMark : String
  frameScratch : List Register
  isMnemonic : String → Bool
  isRegister : String → Bool
  registers : String → List Register
  isImmediate : String → Bool
  isMemory : String → Bool
  memoryFault? : String → Option MemoryFault
  labelOperand? : AsmInstr → Option Nat
  destinations : AsmInstr → List Nat
  readsDestination : AsmInstr → Bool
  isCall : AsmInstr → Bool
  isReturn : AsmInstr → Bool
  signs : AsmInstr → Bool
  authenticates : AsmInstr → Bool
  move? : AsmInstr → Option (String × String)
  store? : AsmInstr → Option (String × String)
  load? : AsmInstr → Option (String × String)
  jump? : AsmInstr → Option String
  stackEffects : Constants → AsmInstr → List StackEffect
  constant? : Constants → AsmInstr → Option Int64
  saved : AsmInstr → List Register
  restored : AsmInstr → List Register
  requiredPredecessor? : AsmInstr → Option String
  operandFaults : AsmInstr → List Fault
  operandWarnings : AsmInstr → List Warning

namespace Dialect

def read (d : Dialect) (text : String) : List Item := Listing.read d.commentMark text

/-- The registers that an instruction writes. The registers of an address are not written. -/
def written (d : Dialect) (i : AsmInstr) : List Register :=
  (((d.destinations i).filterMap i.operand?).filter fun op => !d.isMemory op).flatMap d.registers

def readsAt (d : Dialect) (i : AsmInstr) (operand : String) (index : Nat) : Bool :=
  d.labelOperand? i ≠ some index &&
    (!(d.destinations i).contains index || d.readsDestination i || d.isMemory operand)

def readRegisters (d : Dialect) (i : AsmInstr) : List Register :=
  (i.operands.zipIdx.filter fun o => d.readsAt i o.1 o.2).flatMap fun o => d.registers o.1

end Dialect

def numbered (letter : String) (count : Nat) : List Register :=
  (List.range count).map fun n => letter ++ toString n

end SsaBackend
