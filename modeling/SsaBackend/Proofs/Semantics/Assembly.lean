import SsaBackend.Dialect

/-!
# What assembly does

Assembly text runs on a register machine that all three instruction sets share: registers by name,
memory in aligned words, the operands of the last comparison, and a trace. What a single instruction
does is a parameter here (`Exec`); the instruction sets fill it in.

All calls leave the text. A callee knows how many arguments it takes, replies, and leaves anything in
the registers that a call may change (`Host`). A run therefore ends at the first return. It is cut
into stretches between labels: code from a label on is carried out in one go until it jumps or
returns (`straight`), so a run needs as much fuel as it makes jumps (`enter`), and what code means is
what stands behind its labels.
-/

namespace SsaBackend.Asm

variable {code : List Cell}

/-- What a run shows to the outside. -/
inductive Event
  | call (callee : String) (args : List Int64)
  /-- The return address is signed, at this stack pointer. -/
  | sign (stackPointer : Int64)
  /-- The return address is authenticated, at this stack pointer. -/
  | authenticate (stackPointer : Int64)
  deriving DecidableEq

/-! ### States -/

/-- A state of the machine. -/
@[ext]
structure State where
  regs : Register → Int64
  /-- The words that were ever stored. -/
  memory : Int64 → Option Int64
  /-- What was compared last. -/
  flags : Int64 × Int64
  trace : List Event

/-- Whether a name stands for a whole register that can be written. `xzr` and `zero` always hold
zero, and `al` is the low byte of `rax`. -/
def isPlain (r : Register) : Bool := !(["xzr", "zero", "al"].contains r)

namespace State

/-- The word in a register. -/
def get (s : State) (r : Register) : Int64 :=
  if r = "xzr" ∨ r = "zero" then 0 else if r = "al" then s.regs "rax" &&& 0xff else s.regs r

/-- Puts a word into a whole register. -/
def put (s : State) (r : Register) (word : Int64) : State :=
  { s with regs := fun r' => if r' = r then word else s.regs r' }

/-- Writes a register. -/
def set (s : State) (r : Register) (word : Int64) : State :=
  if r = "xzr" ∨ r = "zero" then s
  else if r = "al" then s.put "rax" ((s.regs "rax" &&& ~~~0xff) ||| (word &&& 0xff))
  else s.put r word

/-- The word at an address, which has to be aligned and written before. -/
def load (s : State) (address : Int64) : Option Int64 :=
  if address.toInt % 8 = 0 then s.memory address else none

/-- Puts a word into memory. -/
def poke (s : State) (address word : Int64) : State :=
  { s with memory := fun a => if a = address then some word else s.memory a }

/-- Stores a word at an address, which has to be aligned. -/
def store (s : State) (address word : Int64) : Option State :=
  if address.toInt % 8 = 0 then some (s.poke address word) else none

/-- Adds an event to the trace. -/
def log (s : State) (e : Event) : State := { s with trace := s.trace ++ [e] }

variable {s : State} {r r' : Register} {address word word' : Int64}

theorem get_of_isPlain (h : isPlain r = true) : s.get r = s.regs r := by
  simp only [isPlain, List.contains_cons, List.contains_nil, Bool.or_false, Bool.not_eq_true',
    Bool.or_eq_false_iff, beq_eq_false_iff_ne] at h
  simp [get, h]

theorem set_of_isPlain (h : isPlain r = true) : s.set r word = s.put r word := by
  simp only [isPlain, List.contains_cons, List.contains_nil, Bool.or_false, Bool.not_eq_true',
    Bool.or_eq_false_iff, beq_eq_false_iff_ne] at h
  simp [set, h]

theorem get_set_self (h : isPlain r = true) : (s.set r word).get r = word := by
  rw [set_of_isPlain h, get_of_isPlain h]
  exact if_pos rfl

theorem get_set_of_ne (h : isPlain r = true) (h' : isPlain r' = true) (hne : r' ≠ r) :
    (s.set r word).get r' = s.get r' := by
  rw [set_of_isPlain h, get_of_isPlain h', get_of_isPlain h']
  exact if_neg hne

theorem set_get (h : isPlain r = true) : s.set r (s.get r) = s := by
  rw [set_of_isPlain h, get_of_isPlain h]
  refine State.ext (funext fun r' => ?_) rfl rfl rfl
  show (if r' = r then s.regs r else s.regs r') = s.regs r'
  split <;> simp_all

theorem set_set (h : isPlain r = true) : (s.set r word).set r word' = s.set r word' := by
  rw [set_of_isPlain h, set_of_isPlain h, set_of_isPlain h]
  refine State.ext (funext fun r' => ?_) rfl rfl rfl
  by_cases heq : r' = r <;> simp [put, heq]

@[simp] theorem memory_set : (s.set r word).memory = s.memory := by
  unfold set
  split
  · rfl
  · split <;> rfl

@[simp] theorem trace_set : (s.set r word).trace = s.trace := by
  unfold set
  split
  · rfl
  · split <;> rfl

@[simp] theorem load_set : (s.set r word).load address = s.load address := by simp [load]

theorem get_of_store {s' : State} (h : s.store address word = some s') : s'.get r = s.get r := by
  unfold store at h
  split at h
  · cases h
    rfl
  · cases h

theorem store_of_load (h : s.load address = some word) : s.store address word = some s := by
  unfold load at h
  unfold store
  split at h
  · next haligned =>
    rw [if_pos haligned]
    refine congrArg some (State.ext rfl (funext fun a => ?_) rfl rfl)
    show (if a = address then some word else s.memory a) = s.memory a
    split <;> simp_all
  · contradiction

end State

/-! ### Calls -/

/-- The functions that code calls. -/
structure Host where
  /-- How many arguments a function takes; `none` if there is no such function. -/
  arity : String → Option Nat
  /-- The result of a call, after the given events. -/
  reply : List Event → String → List Int64 → Int64
  /-- What a call leaves in a register that it may change, after the given events. -/
  clobber : List Event → Register → Int64

/-- Calls a function by the convention of a target. The stack pointer has to be aligned; arguments
beyond those in registers are on the stack. -/
def State.call (s : State) (t : Target) (stackPointer : Register) (host : Host) (callee : String) :
    Option State :=
  if (s.get stackPointer).toInt % t.stackAlign = 0 then do
    let arity ← host.arity callee
    let onStack ← (List.range (arity - t.argRegs.length)).mapM fun i =>
      s.load (s.get stackPointer + 8 * Int64.ofNat i)
    let args := (t.argRegs.take arity).map s.get ++ onStack
    let clobbered := t.callerSaved.foldl (fun s' r => s'.set r (host.clobber s.trace r)) s
    return (clobbered.set t.retReg (host.reply s.trace callee args)).log (.call callee args)
  else none

/-! ### Code -/

/-- How an instruction ends. -/
inductive Effect
  /-- The next instruction follows. -/
  | next (s : State)
  | jump (label : String) (s : State)
  | ret (address : Int64) (s : State)

/-- Goes on unless control went elsewhere. -/
def Effect.andThen (e : Effect) (more : State → Option Effect) : Option Effect :=
  match e with
  | next s => more s
  | jump label s => some (.jump label s)
  | ret address s => some (.ret address s)

/-- What an instruction does, by its mnemonic and operands; `none` if it cannot be carried out. -/
abbrev Exec := String → List String → State → Option Effect

/-- A line of code: directives are gone. -/
inductive Cell
  | label (name : String)
  | instr (mnemonic : String) (operands : List String)
  deriving DecidableEq

/-- The line of an item. -/
def Cell.ofItem? : Item → Option Cell
  | .label name => some (.label name)
  | .directive _ => none
  | .instr i => some (.instr i.mnemonic i.operands)

/-- The code of a text. -/
def readCode (d : Dialect) (text : String) : List Cell := (d.read text).filterMap Cell.ofItem?

def labels (code : List Cell) : List String :=
  code.filterMap fun
    | .label name => some name
    | .instr _ _ => none

/-- The code behind a label. -/
def find (label : String) : List Cell → Option (List Cell)
  | [] => none
  | .label name :: code => if name = label then some code else find label code
  | .instr _ _ :: code => find label code

variable (exec : Exec)

/-- Carries out code until it jumps or returns. Labels do nothing. -/
def straight : List Cell → State → Option Effect
  | [], s => some (.next s)
  | .label _ :: code, s => straight code s
  | .instr mnemonic operands :: code, s =>
    (exec mnemonic operands s).bind fun e => e.andThen (straight code)

/-- How a run ends: where it returns to, and the state at that point. -/
structure Final where
  address : Int64
  state : State

/-- Runs code from a label with less than `n` jumps. A run that leaves the code at its end fails. -/
def enter (code : List Cell) : Nat → String → State → Option Final
  | 0, _, _ => none
  | n + 1, label, s =>
    (find label code).bind fun rest =>
      (straight exec rest s).bind fun
        | .next _ => none
        | .jump label' s' => enter code n label' s'
        | .ret address s' => some ⟨address, s'⟩

/-- The run from a label returns. -/
def Returns (code : List Cell) (entry : String) (s : State) (r : Final) : Prop :=
  ∃ n, enter exec code n entry s = some r

variable {exec}

theorem straight_append (code code' : List Cell) (s : State) :
    straight exec (code ++ code') s =
      (straight exec code s).bind fun e => e.andThen (straight exec code') := by
  induction code generalizing s with
  | nil => rfl
  | cons c code ih =>
    cases c with
    | label name => exact ih s
    | instr m ops =>
      simp only [List.cons_append, straight]
      cases exec m ops s with
      | none => rfl
      | some e => cases e <;> simp [Effect.andThen, ih]

theorem find_append_of_notMem {label : String} (h : label ∉ labels code) (code' : List Cell) :
    find label (code ++ code') = find label code' := by
  induction code with
  | nil => rfl
  | cons c code ih =>
    cases c with
    | label name =>
      simp only [labels, List.filterMap_cons, List.mem_cons, not_or] at h
      rw [List.cons_append, find, if_neg (Ne.symm h.1)]
      exact ih h.2
    | instr m ops => exact ih h

/-- What a run returns after an effect, from what it returns after jumps. -/
def Effect.resume (enter : String → State → Option Final) : Effect → Option Final
  | next _ => none
  | jump label s => enter label s
  | ret address s => some ⟨address, s⟩

theorem Effect.resume_mono {enter enter' : String → State → Option Final} {e : Effect} {r : Final}
    (h : e.resume enter = some r) (hsub : ∀ l s, enter l s = some r → enter' l s = some r) :
    e.resume enter' = some r := by
  cases e with
  | jump label s => exact hsub label s h
  | next | ret => exact h

theorem enter_succ {n : Nat} {label : String} {s : State} {r : Final} :
    enter exec code (n + 1) label s = some r ↔
      ∃ e, (find label code).bind (straight exec · s) = some e ∧ e.resume (enter exec code n) = some r := by
  rw [← Option.bind_eq_some_iff, Option.bind_assoc]
  rfl

theorem enter_mono {n n' : Nat} (hle : n ≤ n') {label : String} {s : State} {r : Final}
    (h : enter exec code n label s = some r) : enter exec code n' label s = some r := by
  induction n generalizing n' label s with
  | zero => cases h
  | succ n ih =>
    obtain ⟨m, rfl⟩ : ∃ m, n' = m + 1 := ⟨n' - 1, by omega⟩
    rw [enter_succ] at h ⊢
    obtain ⟨e, he, hr⟩ := h
    exact ⟨e, he, Effect.resume_mono hr fun _ _ => ih (by omega)⟩

theorem Returns.unique {entry : String} {s : State} {r r' : Final} (h : Returns exec code entry s r)
    (h' : Returns exec code entry s r') : r = r' := by
  obtain ⟨n, hn⟩ := h
  obtain ⟨n', hn'⟩ := h'
  have hr := enter_mono (Nat.le_max_left n n') hn
  rw [enter_mono (Nat.le_max_right n n') hn'] at hr
  exact (Option.some.inj hr).symm

end SsaBackend.Asm
