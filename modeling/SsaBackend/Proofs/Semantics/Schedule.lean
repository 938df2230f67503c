import SsaBackend.Proofs.Semantics.Ssa
import SsaBackend.Schedule.Step

/-!
# What a schedule means

A schedule runs over a store: a word for each register and each word of the spill area. A
configuration holds the steps that are left, always a suffix of the whole schedule; a jump goes on
at the first step with its label. A call may change every register that is not allocatable. Nothing
is known of instruction sets: a step is carried out as a whole.
-/

namespace SsaBackend

namespace Operand

/-- The location that can be written. -/
def location? : Operand → Option Location
  | immediate _ => none
  | register name => some (.register name)
  | stack slot => some (.stack slot)

end Operand

@[simp] theorem Location.location?_toOperand (l : Location) : l.toOperand.location? = some l := by
  cases l <;> rfl

/-- A word for each location. -/
abbrev Store := Location → Int64

namespace Store

/-- The word that an operand stands for. -/
def read (σ : Store) : Operand → Int64
  | .immediate x => x
  | .register name => σ (.register name)
  | .stack slot => σ (.stack slot)

/-- Changes the word at one location. -/
def set (σ : Store) (l : Location) (x : Int64) : Store := fun l' => if l' = l then x else σ l'

/-- Writes to an operand; literals cannot be written. -/
def write (σ : Store) (dst : Operand) (x : Int64) : Option Store :=
  dst.location?.map fun l => σ.set l x

@[simp] theorem read_toOperand (σ : Store) (l : Location) : σ.read l.toOperand = σ l := by
  cases l <;> rfl

@[simp] theorem write_toOperand (σ : Store) (l : Location) (x : Int64) :
    σ.write l.toOperand x = some (σ.set l x) := by
  simp [write]

@[simp] theorem set_self (σ : Store) (l : Location) (x : Int64) : σ.set l x l = x := by
  simp [set]

theorem set_of_ne {σ : Store} {l l' : Location} {x : Int64} (h : l' ≠ l) : σ.set l x l' = σ l' := by
  simp [set, h]

/-- What a call leaves: registers that are not allocatable change. -/
def clobbered (t : Target) (value : Register → Int64) (σ : Store) : Store
  | .register r => if r ∈ t.allocatable then σ (.register r) else value r
  | .stack slot => σ (.stack slot)

end Store

/-- The steps from the first one with a given label on. -/
def findLabel (name : String) : List Step → Option (List Step)
  | [] => none
  | s :: rest => if s = .label name then some (s :: rest) else findLabel name rest

namespace Machine

/-- A schedule with what it depends on. -/
structure Program where
  steps : List Step
  target : Target
  /-- The block that a label belongs to. -/
  blockOf? : String → Option BlockId
  /-- The arguments that were passed on the stack. -/
  incoming : List Int64

/-- The program of a schedule of `f`, called with the given arguments. Arguments that find no
register are passed on the stack. -/
def Program.ofSteps (f : Function) (t : Target) (steps : List Step) (args : List Int64) : Program :=
  { steps := steps
    target := t
    blockOf? := fun name => f.blockIds.find? fun b => f.blockLabel b = name
    incoming := args.drop t.argRegs.length }

/-- The store at the start of a call: the first arguments are in the argument registers. -/
def Passes (t : Target) (args : List Int64) (σ : Store) : Prop :=
  ∀ (i : Nat) (r : Register) (x : Int64), t.argRegs[i]? = some r → args[i]? = some x →
    σ (.register r) = x

/-- A configuration. -/
structure State where
  rest : List Step
  store : Store
  trace : List Event

variable (p : Program) (w : World)

/-- One step. -/
def step (m : State) : Option (Outcome State) :=
  match m.rest with
  | [] => none
  | .label name :: rest =>
    some (.next ⟨rest, m.store, m.trace ++ ((p.blockOf? name).map Event.enter).toList⟩)
  | .incoming index dst :: rest => do
    let x ← p.incoming[index]?
    return .next ⟨rest, ← m.store.write dst x, m.trace⟩
  | .move dst src :: rest => do
    return .next ⟨rest, ← m.store.write dst (m.store.read src), m.trace⟩
  | .binop op dst lhs rhs :: rest =>
    match w.compute op (m.store.read lhs) (m.store.read rhs) with
    | some z => do return .next ⟨rest, ← m.store.write dst z, m.trace⟩
    | none => some .trapped
  | .store addr src :: rest =>
    some (.next ⟨rest, m.store, m.trace ++ [.store (m.store.read addr) (m.store.read src)]⟩)
  | .call callee args dst :: rest =>
    let xs := args.map m.store.read
    let store := m.store.clobbered p.target (w.clobber m.trace)
    let trace := m.trace ++ [.call callee xs]
    match dst with
    | none => some (.next ⟨rest, store, trace⟩)
    | some dst => do return .next ⟨rest, ← store.write dst (w.reply m.trace callee xs), trace⟩
  | .jump name :: _ => do return .next { m with rest := ← findLabel name p.steps }
  | .branchIf cond name :: rest =>
    if m.store.read cond = 0 then some (.next { m with rest := rest })
    else do return .next { m with rest := ← findLabel name p.steps }
  | .epilogue :: _ => some (.returned (some (m.store (.register p.target.retReg))))

end Machine

end SsaBackend
