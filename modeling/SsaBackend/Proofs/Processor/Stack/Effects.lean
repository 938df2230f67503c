import SsaBackend.Dialect
import SsaBackend.Proofs.Frame
import SsaBackend.Proofs.Processor.Amd64
import SsaBackend.Proofs.Processor.Arm64
import SsaBackend.Proofs.Processor.Riscv64

/-!
# Effects on the stack pointer

A dialect tells from the text of an instruction how it moves the stack pointer, and which constants it
leaves in registers. Here is what it means that this is so on a processor (`Arch.Shows`), for a table of
constants that is right. Nothing is promised about writes to the stack pointer that the dialect does not
see: an instruction has to write it no more often than it has effects.
-/

namespace SsaBackend

open Processor

namespace Arch

/-- What an instruction does. -/
def operation? : Arch → AsmInstr → Option Operation
  | amd64 => Amd64.operation?
  | arm64 => Arm64.operation?
  | riscv64 => Riscv64.operation?

/-- What a name of a register stands for. -/
def view? : Arch → String → Option View
  | amd64 => Amd64.view?
  | arm64 => Arm64.view?
  | riscv64 => Riscv64.view?

/-- The register that a name stands for; none if the name stands for zero. -/
def register? (arch : Arch) (name : String) : Option Register := (arch.view? name).bind View.register

/-- The address that a memory operand without an update stands for. -/
def address? : Arch → String → Option Address
  | amd64 => Amd64.address?
  | arm64 => fun text => ((Arm64.bracket? text).filter fun a => !a.2).map Prod.fst
  | riscv64 => Riscv64.address?

end Arch

def Constants.Within (k k' : Constants) : Prop := ∀ r c, k.get? r = some c → k'.get? r = some c

namespace Processor

def Knows (view? : String → Option View) (k : Constants) (s : State) : Prop :=
  ∀ name c, k.get? name = some c → ∃ r, view? name = some (.whole r) ∧ s.registers r = c.toBitVec

theorem toBitVec_shiftLeft (x y : Int64) :
    (x <<< y).toBitVec = x.toBitVec <<< (y.toBitVec.toNat % 64) := by
  have hmod : (y.toBitVec.smod 64#64).toNat = y.toBitVec.toNat % 64 := by
    have hint := BitVec.toInt_smod (x := y.toBitVec) (y := 64#64)
    rw [show (64#64).toInt = 64 from rfl, Int.fmod_eq_emod_of_nonneg _ (by decide),
      BitVec.toInt_eq_toNat_cond, BitVec.toInt_eq_toNat_cond] at hint
    split at hint <;> split at hint <;> omega
  rw [Int64.toBitVec_shiftLeft, BitVec.shiftLeft_eq']
  exact congrArg _ hmod

end Processor

def StackEffect.shift (p : Word × Word) : StackEffect → Word × Word
  | grow bytes => (p.1 - BitVec.ofInt 64 bytes, p.2)
  | shrink bytes => (p.1 + BitVec.ofInt 64 bytes, p.2)
  | setFrame offset => (p.1, p.1 + BitVec.ofInt 64 offset)
  | restoreFrame offset => (p.2 + BitVec.ofInt 64 offset, p.2)
  | unknown => p

/-- Whether an effect sets the frame pointer. -/
def StackEffect.isSetFrame : StackEffect → Bool
  | setFrame _ => true
  | _ => false

/-- Whether an effect relies on the frame pointer. -/
def StackEffect.isRestoreFrame : StackEffect → Bool
  | restoreFrame _ => true
  | _ => false

theorem StackEffect.elim_of_le {a a' : Option Int} (h : ∀ n, a = some n → a' = some n)
    {f : Int → StackEffect} (hunknown : .unknown ∉ [a.elim .unknown f]) :
    [a'.elim .unknown f] = [a.elim .unknown f] := by
  cases a with
  | none => simp at hunknown
  | some n => rw [h n rfl]

structure Follows (sp fp : Register) (effects : List StackEffect) (s s' : State) : Prop where
  stack : s'.registers sp = (effects.foldl StackEffect.shift (s.registers sp, s.registers fp)).1
  frame : effects.any StackEffect.isSetFrame = true →
    s'.registers fp = (effects.foldl StackEffect.shift (s.registers sp, s.registers fp)).2

theorem follows_nil {sp fp : Register} {op : Operation} (h : op.changed.count sp ≤ 0) (e : Setting)
    (s : State) : Follows sp fp [] s (op.after e s) where
  stack := Operation.after_of_notMem (List.count_eq_zero.1 (Nat.le_zero.1 h)) e s
  frame h := by cases h

theorem follows_set_stack {sp fp : Register} {effect : StackEffect} {x : Reading} {e : Setting}
    {s : State} (hset : effect.isSetFrame = false)
    (hx : x e s = (effect.shift (s.registers sp, s.registers fp)).1) :
    Follows sp fp [effect] s ((Operation.set (.whole sp) x).after e s) where
  stack := by simp [hx]
  frame h := by simp [hset] at h

theorem follows_set_frame {sp fp : Register} (hne : sp ≠ fp) {offset : Int} {x : Reading}
    {e : Setting} {s : State} (hx : x e s = s.registers sp + BitVec.ofInt 64 offset) :
    Follows sp fp [.setFrame offset] s ((Operation.set (.whole fp) x).after e s) where
  stack := by simp [State.registers_set_of_ne s hne, StackEffect.shift]
  frame _ := by simp [hx, StackEffect.shift]

structure Arch.Shows (arch : Arch) : Prop where
  /-- What is known from a table is known from a larger one. -/
  effects_of_within {k k' : Constants} {i : AsmInstr} : k.Within k' →
    .unknown ∉ arch.dialect.stackEffects k i →
    arch.dialect.stackEffects k' i = arch.dialect.stackEffects k i
  constant_of_within {k k' : Constants} {i : AsmInstr} {c : Int64} : k.Within k' →
    arch.dialect.constant? k i = some c → arch.dialect.constant? k' i = some c
  /-- Returns leave the stack pointer alone. -/
  effects_of_isReturn {k : Constants} {i : AsmInstr} : arch.dialect.isReturn i = true →
    arch.dialect.stackEffects k i = []
  follows {k : Constants} {i : AsmInstr} {op : Operation} {e : Setting} {s : State} :
    arch.operation? i = some op → Knows arch.view? k s →
    .unknown ∉ arch.dialect.stackEffects k i →
    op.changed.count arch.stackPointer ≤ (arch.dialect.stackEffects k i).length →
    Follows arch.stackPointer arch.dialect.target.framePointer (arch.dialect.stackEffects k i) s
      (op.after e s)
  constant {k : Constants} {i : AsmInstr} {op : Operation} {e : Setting} {s : State} {c : Int64}
    {name : String} {r : Register} : arch.operation? i = some op → Knows arch.view? k s →
    arch.dialect.constant? k i = some c → name ∈ arch.dialect.written i →
    arch.view? name = some (.whole r) → (op.after e s).registers r = c.toBitVec

end SsaBackend
