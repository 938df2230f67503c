import SsaBackend.Target
import Mathlib.Logic.Function.Basic

/-!
# Processors

A processor in full: 64-bit registers that may be written in parts and under several names, four flags,
and memory by bytes. An instruction is an `Operation`, which says what it writes, in the order of
writing, where control goes, and whether it can be carried out at all. What the text of an instruction
does not settle is its `Setting`: the place of the instruction, and everything that a callee or the
hardware is free to choose.

Two properties carry what is said about programs: a register that an operation does not list stays as it
is (`Operation.after_of_notMem`), and loads and stores of one word undo each other
(`Memory.load_store`, `Memory.store_load`).
-/

namespace SsaBackend.Processor

variable {r : Register} {op : Operation}

abbrev Word := BitVec 64

theorem mem_of_lookup {α : Type} {table : List (String × α)} {name : String} {x : α}
    (h : table.lookup name = some x) : (name, x) ∈ table := by
  obtain ⟨before, behind, htable, -⟩ := List.lookup_eq_some_iff.1 h
  simp [htable]

/-! ### Memory -/

/-- Memory by bytes. Every address exists. -/
abbrev Memory := Word → BitVec 8

namespace Memory

/-- The number that `bytes` bytes from an address on spell, the lowest byte first. -/
def load (m : Memory) (address : Word) : Nat → Word
  | 0 => 0
  | bytes + 1 => m.load (address + 1) bytes <<< 8 ||| (m address).setWidth 64

/-- Puts the lowest bytes of a word to an address and those behind it. -/
def store (m : Memory) (address : Word) (bytes : Nat) (word : Word) : Memory := fun a =>
  if (a - address).toNat < bytes then word.extractLsb' (8 * (a - address).toNat) 8 else m a

theorem getLsbD_load (m : Memory) (address : Word) (bytes i : Nat) :
    (m.load address bytes).getLsbD i = (decide (i < 64 ∧ i < 8 * bytes) &&
      (m (address + BitVec.ofNat 64 (i / 8))).getLsbD (i % 8)) := by
  induction bytes generalizing address i with
  | zero => simp [load]
  | succ bytes ih =>
    simp only [load, BitVec.getLsbD_or, BitVec.getLsbD_shiftLeft, BitVec.getLsbD_setWidth, ih]
    by_cases hi : i < 8
    · have hdiv : i / 8 = 0 := Nat.div_eq_of_lt hi
      have hmod : i % 8 = i := Nat.mod_eq_of_lt hi
      simp [hi, hdiv, hmod, show i < 64 by omega, show i < 8 * (bytes + 1) by omega]
    · -- the bit is in a byte behind the first one
      have hdiv : i / 8 = (i - 8) / 8 + 1 := by omega
      have hmod : (i - 8) % 8 = i % 8 := by omega
      have hsum : address + 1 + BitVec.ofNat 64 ((i - 8) / 8) =
          address + BitVec.ofNat 64 (i / 8) := by
        rw [hdiv, BitVec.ofNat_add, BitVec.add_assoc, BitVec.add_comm 1]
        rfl
      have hhigh : (m address).getLsbD i = false := BitVec.getLsbD_of_ge _ _ (by omega)
      simp only [hsum, hmod, hhigh]
      grind

theorem load_store (m : Memory) (address word : Word) : (m.store address 8 word).load address 8 = word := by
  refine BitVec.eq_of_getLsbD_eq fun i hi => ?_
  have hoffset : (BitVec.ofNat 64 (i / 8)).toNat = i / 8 := by
    rw [BitVec.toNat_ofNat]
    omega
  have hbyte : address + BitVec.ofNat 64 (i / 8) - address = BitVec.ofNat 64 (i / 8) := by
    rw [BitVec.add_comm, BitVec.add_sub_cancel]
  rw [getLsbD_load, store, hbyte, hoffset, if_pos (by omega), BitVec.getLsbD_extractLsb',
    Nat.div_add_mod]
  simp [hi, Nat.mod_lt]

theorem store_load (m : Memory) (address : Word) : m.store address 8 (m.load address 8) = m := by
  funext a
  unfold store
  split
  · next h =>
    have hbyte : address + BitVec.ofNat 64 (a - address).toNat = a := by
      rw [BitVec.ofNat_toNat, BitVec.setWidth_eq, BitVec.add_comm, BitVec.sub_add_cancel]
    refine BitVec.eq_of_getLsbD_eq fun i hi => ?_
    have hdiv : (8 * (a - address).toNat + i) / 8 = (a - address).toNat := by omega
    have hmod : (8 * (a - address).toNat + i) % 8 = i := by omega
    rw [BitVec.getLsbD_extractLsb', getLsbD_load, hdiv, hmod, hbyte, decide_eq_true hi,
      decide_eq_true ⟨by omega, by omega⟩, Bool.true_and, Bool.true_and]
  · rfl

end Memory

/-! ### State -/

/-- The flags that a comparison sets. -/
structure Flags where
  negative : Bool
  zero : Bool
  carry : Bool
  overflow : Bool
  deriving DecidableEq, Inhabited

namespace Flags

variable {width : Nat}

/-- The flags of a sum. -/
def ofSum (x y : BitVec width) : Flags :=
  ⟨(x + y).msb, x + y == 0, x.uaddOverflow y, x.saddOverflow y⟩

/-- The flags of a difference. The carry flag stands for no borrow. -/
def ofDifference (x y : BitVec width) : Flags := ⟨(x - y).msb, x == y, y.ule x, x.ssubOverflow y⟩

/-- The flags of a result without carry and overflow. -/
def ofResult (x : BitVec width) : Flags := ⟨x.msb, x == 0, false, false⟩

end Flags

/-- The state of a processor. Registers go by one name each. -/
structure State where
  registers : Register → Word
  memory : Memory
  flags : Flags

def State.set (s : State) (r : Register) (word : Word) : State :=
  { s with registers := Function.update s.registers r word }

@[simp] theorem State.registers_set_self (s : State) (r : Register) (word : Word) :
    (s.set r word).registers r = word :=
  Function.update_self ..

theorem State.registers_set_of_ne (s : State) {r' : Register} (h : r' ≠ r) (word : Word) :
    (s.set r word).registers r' = s.registers r' :=
  Function.update_of_ne h ..

@[simp] theorem State.memory_set (s : State) (r : Register) (word : Word) :
    (s.set r word).memory = s.memory := rfl

@[simp] theorem State.set_set (s : State) (r : Register) (x y : Word) :
    (s.set r x).set r y = s.set r y := by
  simp [set]

@[simp] theorem State.set_registers (s : State) (r : Register) : s.set r (s.registers r) = s := by
  simp [set]

/-- What the text of an instruction leaves open. -/
structure Setting where
  /-- The address of the instruction behind this one. -/
  next : Word
  /-- What a callee leaves in the registers that it may change, or the hardware in an undefined one. -/
  registers : Register → Word
  /-- What a callee leaves in memory. -/
  memory : Memory
  /-- The flags that are not defined. -/
  flags : Flags

/-- A word that an instruction computes. -/
abbrev Reading := Setting → State → Word

/-- A word that is written out. -/
def literal (word : Word) : Reading := fun _ _ => word

/-! ### Names of registers -/

/-- What a name stands for: some bits of a register, or of no register at all, which reads as zero. -/
structure View where
  register : Option Register
  /-- The lowest bit. -/
  low : Nat
  width : Nat
  deriving DecidableEq

namespace View

/-- A whole register. -/
def whole (r : Register) : View := ⟨some r, 0, 64⟩

/-- The lower half of a register. -/
def half (r : Register) : View := ⟨some r, 0, 32⟩

/-- The bits that a name stands for. -/
def bits (v : View) (s : State) : BitVec v.width :=
  match v.register with
  | none => 0
  | some r => (s.registers r).extractLsb' v.low v.width

/-- The number under a name. -/
def read (v : View) : Reading := fun _ s => (v.bits s).setWidth 64

/-- The number under a name, with its sign. -/
def readSigned (v : View) : Reading := fun _ s => (v.bits s).signExtend 64

/-- Writing to half of a register or more clears the rest; writing to less leaves the rest alone. -/
def insert (v : View) (old new : Word) : Word :=
  if 32 ≤ v.width then (new.setWidth v.width).setWidth 64
  else
    let mask := (BitVec.allOnes v.width).setWidth 64 <<< v.low
    (old &&& ~~~mask) ||| (new <<< v.low &&& mask)

/-- Writes a word under a name. -/
def write (v : View) (word : Word) (registers : Register → Word) : Register → Word :=
  match v.register with
  | none => registers
  | some r => Function.update registers r (v.insert (registers r) word)

@[simp] theorem register_whole (r : Register) : (whole r).register = some r := rfl

@[simp] theorem width_whole (r : Register) : (whole r).width = 64 := rfl

@[simp] theorem read_whole (r : Register) (e : Setting) (s : State) :
    (whole r).read e s = s.registers r := by
  simp [read, bits, whole]

@[simp] theorem write_whole (r : Register) (word : Word) (registers : Register → Word) :
    (whole r).write word registers = Function.update registers r word := by
  simp [write, insert, whole]

theorem write_of_ne {v : View} (h : v.register ≠ some r) (word : Word) (registers : Register → Word) :
    v.write word registers r = registers r := by
  unfold write
  cases hv : v.register with
  | none => rfl
  | some r' =>
    have hne : r ≠ r' := by
      rintro rfl
      exact h hv
    exact Function.update_of_ne hne _ _

def zero : View := ⟨none, 0, 64⟩

@[simp] theorem register_zero : zero.register = none := rfl

@[simp] theorem read_zero (e : Setting) (s : State) : zero.read e s = 0 := by
  simp [read, bits, zero]

/-- All bits of a register, or of zero. -/
structure IsWide (v : View) : Prop where
  low : v.low = 0
  width : v.width = 64

theorem IsWide.eq_zero_or {v : View} (h : v.IsWide) : v = zero ∨ ∃ r, v = whole r := by
  obtain ⟨register, low, width⟩ := v
  obtain ⟨rfl, rfl⟩ := h
  cases register with
  | none => exact .inl rfl
  | some r => exact .inr ⟨r, rfl⟩

structure IsLow (v : View) : Prop where
  low : v.low = 0
  width : v.width = 32 ∨ v.width = 64

theorem IsWide.isLow {v : View} (h : v.IsWide) : v.IsLow := ⟨h.low, .inr h.width⟩

end View

/-! ### Addresses -/

/-- A scaled register of an address. -/
structure Index where
  view : View
  isSigned : Bool
  shift : Fin 4
  deriving DecidableEq

def Index.value (i : Index) : Reading := fun e s =>
  (if i.isSigned then i.view.readSigned e s else i.view.read e s) <<< i.shift.val

/-- A place in memory. -/
inductive Address
  /-- The sum of a register, a scaled register and an offset. -/
  | sum (base : Option View) (index : Option Index) (offset : Word)
  /-- A distance from the next instruction. -/
  | relative (offset : Word)
  deriving DecidableEq

namespace Address

def value : Address → Reading
  | sum base index offset => fun e s =>
    (base.elim 0 fun v => v.read e s) + (index.elim 0 fun i => i.value e s) + offset
  | relative offset => fun e _ => e.next + offset

/-- The base of an address, if it has one. -/
def base? : Address → Option View
  | sum base _ _ => base
  | relative _ => none

/-- The address some bytes further on. -/
def further (a : Address) (bytes : Nat) : Address :=
  match a with
  | sum base index offset => sum base index (offset + BitVec.ofNat 64 bytes)
  | relative offset => relative (offset + BitVec.ofNat 64 bytes)

/-- The registers of an address. -/
def registers : Address → List Register
  | sum base index _ =>
    (base.bind View.register).toList ++ (index.bind fun i => i.view.register).toList
  | relative _ => []

/-- What stands at an address. -/
def read (a : Address) (bytes : Nat) : Reading := fun e s => s.memory.load (a.value e s) bytes

end Address

/-! ### Operations -/

/-- Where control goes. -/
inductive Control
  /-- To the next instruction. -/
  | next
  | label (name : String)
  | address (word : Word)
  deriving DecidableEq

/-- What an instruction does. -/
structure Operation where
  /-- What is written to registers, in this order. All words are those before the instruction. -/
  writes : List (View × Reading) := []
  memory : Setting → State → Memory := fun _ s => s.memory
  flags : Setting → State → Flags := fun _ s => s.flags
  control : Setting → State → Control := fun _ _ => .next
  /-- Whether it can be carried out. -/
  isDefined : Setting → State → Bool := fun _ _ => true

/-- A state, and where control goes from there. -/
structure Result where
  state : State
  control : Control

namespace Operation

/-- The registers that an operation writes. -/
def changed (op : Operation) : List Register := op.writes.filterMap fun w => w.1.register

/-- The state that an operation leaves. -/
def after (op : Operation) (e : Setting) (s : State) : State where
  registers := op.writes.foldl (fun registers w => w.1.write (w.2 e s) registers) s.registers
  memory := op.memory e s
  flags := op.flags e s

/-- Carries out an operation. -/
def step (op : Operation) (e : Setting) (s : State) : Option Result :=
  if op.isDefined e s then some ⟨op.after e s, op.control e s⟩ else none

theorem foldl_write_of_notMem {writes : List (View × Reading)}
    (h : r ∉ writes.filterMap fun w => w.1.register) (e : Setting) (s : State)
    (registers : Register → Word) :
    writes.foldl (fun registers w => w.1.write (w.2 e s) registers) registers r = registers r := by
  induction writes generalizing registers with
  | nil => rfl
  | cons w writes ih =>
    rw [List.foldl_cons, ih]
    · exact View.write_of_ne (fun heq => h (by simp [heq])) _ _
    · intro hmem
      obtain ⟨w', hw', heq⟩ := List.mem_filterMap.1 hmem
      exact h (List.mem_filterMap.2 ⟨w', List.mem_cons_of_mem w hw', heq⟩)

theorem after_of_notMem (h : r ∉ op.changed) (e : Setting) (s : State) :
    (op.after e s).registers r = s.registers r :=
  foldl_write_of_notMem h e s s.registers

theorem after_of_append {x : Reading} (before : List (View × Reading))
    {rest : List (View × Reading)} (h : op.writes = before ++ (.whole r, x) :: rest)
    (hr : r ∉ rest.filterMap fun w => w.1.register) (e : Setting) (s : State) :
    (op.after e s).registers r = x e s := by
  simp only [after, h, List.foldl_append, List.foldl_cons, foldl_write_of_notMem hr]
  rw [View.write_whole, Function.update_self]

theorem after_of_single {x : Reading} (h : op.writes = [(.whole r, x)]) (e : Setting) (s : State) :
    (op.after e s).registers r = x e s :=
  after_of_append [] h List.not_mem_nil e s

/-! Forms that the architectures share. -/

/-- Writes a word under a name. -/
def set (dst : View) (x : Reading) : Operation where
  writes := [(dst, x)]

@[simp] theorem after_set (r : Register) (x : Reading) (e : Setting) (s : State) :
    (set (.whole r) x).after e s = s.set r (x e s) := by
  simp [set, after, State.set]

def copy (dst src : View) : Operation := set dst src.read

def load (dst : View) (address : Address) (bytes : Nat) : Operation :=
  set dst (address.read bytes)

/-- Stores a word. -/
def store (x : Reading) (address : Address) (bytes : Nat) : Operation where
  memory := fun e s => s.memory.store (address.value e s) bytes (x e s)

@[simp] theorem after_store (x : Reading) (address : Address) (bytes : Nat) (e : Setting) (s : State) :
    (store x address bytes).after e s =
      { s with memory := s.memory.store (address.value e s) bytes (x e s) } := rfl

/-- A jump under a condition. -/
def jumpIf (condition : Setting → State → Bool) (name : String) : Operation where
  control := fun e s => if condition e s then .label name else .next

/-- A jump to a label. -/
def jump (name : String) : Operation where
  control := fun _ _ => .label name

/-- A jump to a computed address. -/
def jumpTo (address : Reading) : Operation where
  control := fun e s => .address (address e s)

/-- A call: whatever the callee does, it returns to the next instruction, and it hands back all
registers but the volatile ones as it found them. -/
def call (volatile : List Register) : Operation where
  writes := volatile.map fun r => (View.whole r, fun e _ => e.registers r)
  memory := fun e _ => e.memory
  flags := fun e _ => e.flags

/-- An operation that does nothing. -/
def skip : Operation where

end Operation

/-- Carries out operations one after another, each in its setting, until control goes elsewhere. -/
def run : List (Operation × Setting) → State → Option Result
  | [], s => some ⟨s, .next⟩
  | (op, e) :: rest, s =>
    (op.step e s).bind fun r => if r.control = .next then run rest r.state else some r

@[simp] theorem run_nil (s : State) : run [] s = some ⟨s, .next⟩ := rfl

theorem run_cons_next {e : Setting} {rest : List (Operation × Setting)} {s s' : State}
    (h : run ((op, e) :: rest) s = some ⟨s', .next⟩) :
    run rest (op.after e s) = some ⟨s', .next⟩ := by
  obtain ⟨r, hstep, h⟩ := Option.bind_eq_some_iff.1 h
  unfold Operation.step at hstep
  split at hstep
  · cases hstep
    split at h
    · exact h
    · next hcontrol => exact absurd (congrArg Result.control (Option.some.inj h)) hcontrol
  · cases hstep

theorem run_singleton (op : Operation) (e : Setting) (s : State) : run [(op, e)] s = op.step e s := by
  rw [run]
  cases op.step e s with
  | none => rfl
  | some r =>
    rw [Option.bind_some]
    split
    · next h =>
      cases r
      cases h
      rfl
    · rfl

end SsaBackend.Processor
