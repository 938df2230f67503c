import SsaBackend.Ascending
import SsaBackend.Ir.Value
import SsaBackend.Target

/-!
# Allocations

Where values live. A value has one location for its whole life: a register, or a word in the spill
area. An allocation maps ids to locations and knows the size of the spill area.
-/

namespace SsaBackend

inductive Location
  | register (name : Register)
  | stack (offset : Nat)
  deriving DecidableEq

namespace Location

def render : Location → String
  | register name => name
  | stack offset => "spill[" ++ toString offset ++ "]"

def register? : Location → Option Register
  | register name => some name
  | stack _ => none

def extent : Location → Nat
  | register _ => 0
  | stack offset => offset + 8

end Location

structure Allocation where
  entries : List (ValueId × Location)
  spillSize : Nat
  deriving DecidableEq

namespace Allocation

def empty : Allocation := ⟨[], 0⟩

def setEntry (v : ValueId) (l : Location) : List (ValueId × Location) → List (ValueId × Location)
  | [] => [(v, l)]
  | e :: es =>
    if v < e.1 then (v, l) :: e :: es
    else if v = e.1 then (v, l) :: es
    else e :: setEntry v l es

/-- Places `v`. The spill area grows to hold a stack location, and never shrinks. -/
def assign (a : Allocation) (v : ValueId) (l : Location) : Allocation :=
  ⟨setEntry v l a.entries, max a.spillSize l.extent⟩

def spillSlot (a : Allocation) : Location := .stack a.spillSize

def location? (a : Allocation) (v : ValueId) : Option Location := a.entries.lookup v

def registers (a : Allocation) : List Register :=
  Ascending.ofList (a.entries.filterMap fun e => e.2.register?)

def render (a : Allocation) : String :=
  String.join (a.entries.map fun e => valueName e.1 ++ " -> " ++ e.2.render ++ "\n") ++
    "spill area: " ++ toString a.spillSize ++ " bytes"

theorem lookup_cons_eq_ite (w : ValueId) (e : ValueId × Location) (es : List (ValueId × Location)) :
    (e :: es).lookup w = if w = e.1 then some e.2 else es.lookup w := by
  rw [List.lookup_cons]
  by_cases h : w = e.1
  · simp [h]
  · rw [if_neg h, beq_eq_false_iff_ne.2 h]

theorem lookup_setEntry (v w : ValueId) (l : Location) (es : List (ValueId × Location)) :
    (setEntry v l es).lookup w = if w = v then some l else es.lookup w := by
  induction es with
  | nil => exact lookup_cons_eq_ite w (v, l) []
  | cons e es ih =>
    simp only [setEntry]
    split
    · rw [lookup_cons_eq_ite]
    · split
      · rename_i heq
        simp only [lookup_cons_eq_ite, heq]
        split <;> rfl
      · rename_i hne
        simp only [lookup_cons_eq_ite, ih]
        split
        · rename_i hw
          rw [if_neg (by simpa [hw] using Ne.symm hne)]
        · rfl

@[simp] theorem location?_assign (a : Allocation) (v w : ValueId) (l : Location) :
    (a.assign v l).location? w = if w = v then some l else a.location? w :=
  lookup_setEntry v w l a.entries

end Allocation

end SsaBackend
