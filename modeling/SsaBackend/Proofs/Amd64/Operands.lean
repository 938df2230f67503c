import SsaBackend.Proofs.Convention
import SsaBackend.Proofs.Semantics.Step

/-!
# Operands on amd64

How instructions read and write the operands of steps. Loads and stores change nothing else
(`loadReg_leads`, `storeReg_leads`). An operand of an instruction stands for the operand of a step after
`%r11` may have got a wide literal (`source_leads`).
-/

namespace SsaBackend.Amd64

open Asm

variable {f : Frame} {s s' t : State} {o : Operand} {x y word : Int64} {but : List Register}

/-! ### Operands of instructions -/

def Arg.read (s : State) (a : Arg) : Option Int64 := a.place?.bind (Place.read s)

def Arg.write (s : State) (word : Int64) (a : Arg) : Option State := a.place?.bind (Place.write s word)

theorem Arg.read_reg (r : Register) : (reg r).read s = some (s.get r) := rfl

theorem Arg.write_reg (r : Register) : (reg r).write s word = some (s.set r word) := rfl

theorem Arg.read_imm (x : Int64) : (imm x.toInt).read s = some x := by
  rw [read, place?_imm, Text.word?_eq_some x.le_toInt x.toInt_lt, Int64.ofInt_toInt]
  rfl

section Slots

variable {slot : Nat} (hslot : Arch.amd64.slotDistance f slot < Arch.amd64.reach)
include hslot

theorem place?_spillArg :
    (spillArg f slot).place? =
      some (.mem (-Int64.ofNat (Arch.amd64.slotDistance f slot)) "rbp") := by
  have hword : Text.word? (-((f.saved.length * 8 + slot + 8 : Nat) : Int)) =
      some (Int64.ofInt (-((f.saved.length * 8 + slot + 8 : Nat) : Int))) := by
    simp only [Arch.slotDistance, Arch.reach] at hslot
    exact Text.word?_eq_some (by omega) (by omega)
  rw [spillArg, Arg.place?, hword, Int64.ofInt_neg]
  rfl

theorem read_spillArg (s : State) :
    (spillArg f slot).read s = Arch.amd64.readOperand f s (.stack slot) := by
  rw [Arg.read, place?_spillArg hslot]
  show s.load (s.get "rbp" + -_) = s.load (s.get "rbp" - _)
  rw [Int64.sub_eq_add_neg]

theorem write_spillArg (s : State) (word : Int64) :
    (spillArg f slot).write s word = Arch.amd64.writeOperand f s word (.stack slot) := by
  rw [Arg.write, place?_spillArg hslot]
  show s.store (s.get "rbp" + -_) word = s.store (s.get "rbp" - _) word
  rw [Int64.sub_eq_add_neg]

end Slots

/-! ### Instructions -/

section Exec

variable (host : Host)
variable {src : Arg}

theorem Instr.exec_movq {dst : Arg} (hsrc : src.read s = some x) (hdst : dst.write s x = some t) :
    (Instr.movq src dst).run host s = some (.next t) := by
  obtain ⟨p, hp, hread⟩ := Option.bind_eq_some_iff.1 hsrc
  obtain ⟨q, hq, hwrite⟩ := Option.bind_eq_some_iff.1 hdst
  rw [exec_instr, op?]
  simp [hp, hq, Op.exec, hread, hwrite]

theorem Instr.exec_movabsq (x : Int64) (dst : Register) :
    (Instr.movabsq x.toInt dst).run host s = some (.next (s.set dst x)) := by
  have hread := Arg.read_imm (s := s) x
  obtain ⟨p, hp, hread⟩ := Option.bind_eq_some_iff.1 hread
  rw [exec_instr, op?]
  simp only [hp, Option.pure_def, Option.bind_eq_bind, Option.bind_some, Op.exec, hread]
  rfl

theorem Instr.exec_alu (op : Alu) (hsrc : src.read s = some y) (dst : Register) :
    (Instr.alu op src dst).run host s = some (.next (s.set dst (op.apply (s.get dst) y))) := by
  obtain ⟨p, hp, hread⟩ := Option.bind_eq_some_iff.1 hsrc
  rw [exec_instr, op?]
  simp only [hp, Option.pure_def, Option.bind_eq_bind, Option.bind_some, Op.exec, hread]
  rfl

theorem Instr.exec_pushq (hsrc : src.read s = some x) {address : Int64}
    (hsp : s.get "rsp" - 8 = address) (haligned : address.toInt % 8 = 0) :
    (Instr.pushq src).run host s = some (.next ((s.set "rsp" address).poke address x)) := by
  obtain ⟨p, hp, hread⟩ := Option.bind_eq_some_iff.1 hsrc
  have hstore : (s.set "rsp" address).store address x =
      some ((s.set "rsp" address).poke address x) := if_pos haligned
  rw [exec_instr, op?]
  simp [hp, Op.exec, hread, hsp, hstore]

end Exec

/-! ### Operands of steps -/

section Operands

variable (host : Host) {rs : List Register}

theorem loadReg_leads {dst : Register} (hdst : isPlain dst = true) (ho : Arch.amd64.Reads f rs s o x) :
    Leads (exec host) ((loadReg f dst o).map Instr.cell) s (· = s.set dst x) := by
  obtain ⟨ho, hread⟩ := ho
  cases o with
  | immediate value =>
    cases hread
    simp only [loadReg]
    split
    · exact .instr (Instr.exec_movq host (Arg.read_imm x) (Arg.write_reg dst)) rfl
    · exact .instr (Instr.exec_movabsq host x dst) rfl
  | register r =>
    cases hread
    simp only [loadReg]
    split
    · next heq =>
      subst heq
      exact .nil (State.set_get hdst).symm
    · exact .instr (Instr.exec_movq host (Arg.read_reg r) (Arg.write_reg dst)) rfl
  | stack slot =>
    exact .instr (Instr.exec_movq host ((read_spillArg ho s).trans hread) (Arg.write_reg dst)) rfl

theorem storeReg_leads {src : Register} (hsrc : isPlain src = true) (ho : o.InReach .amd64 f rs)
    (hwrite : Arch.amd64.writeOperand f s (s.get src) o = some t) :
    Leads (exec host) ((storeReg f src o).map Instr.cell) s (· = t) := by
  cases o with
  | immediate value => cases hwrite
  | register r =>
    cases hwrite
    simp only [storeReg]
    split
    · next heq =>
      subst heq
      exact .nil (State.set_get hsrc).symm
    · exact .instr (Instr.exec_movq host (Arg.read_reg src) (Arg.write_reg r)) rfl
  | stack slot =>
    exact .instr (Instr.exec_movq host (Arg.read_reg src) ((write_spillArg ho s _).trans hwrite)) rfl

theorem source_leads (ho : Arch.amd64.Reads f rs s o x) :
    Leads (exec host) ((source f o).1.map Instr.cell) s fun s' =>
      s.Agree [wide] s' ∧ (source f o).2.read s' = some x := by
  obtain ⟨ho, hread⟩ := ho
  cases o with
  | immediate value =>
    cases hread
    simp only [source]
    split
    · exact .nil ⟨.refl _ s, Arg.read_imm x⟩
    · refine .instr (Instr.exec_movabsq host x wide) ⟨.touch (by decide) (by simp) x s, ?_⟩
      exact congrArg some (State.get_set_self (by decide))
  | register r => exact .nil ⟨.refl _ s, hread⟩
  | stack slot => exact .nil ⟨.refl _ s, (read_spillArg ho s).trans hread⟩

end Operands

end SsaBackend.Amd64
