import SsaBackend.Proofs.Amd64.Decode
import SsaBackend.Proofs.Schedule.Names

/-!
# What code generation for amd64 writes

The code of a step consists of few kinds of instructions (`emitted_lower`), and so do prologues and
epilogues (`Framed`). All of them are proper (`lower_proper`): their registers exist, and no load
changes the register that it gets its address from. Loads go through `%rbp`, which holds no value.
-/

namespace SsaBackend.Amd64

open List

variable {r : Register}

theorem framePointer_mem : "rbp" ∈ wholeRegs := by decide

theorem mem_of_mem_calleeSaved (h : r ∈ target.calleeSaved) : r ∈ wholeRegs := by
  revert r
  decide

theorem stackPointer_mem : "rsp" ∈ wholeRegs := by decide

theorem Instr.proper_movq {src dst : Arg} (hsrc : src.Proper) (hdst : dst.Proper)
    (h : ∀ offset base, src ≠ .mem offset base) : (movq src dst).Proper :=
  ⟨hsrc, hdst, fun offset base _ heq _ => absurd heq (h offset base)⟩

/-! ### Kinds of operands -/

variable {rs : List Register}

def workRegs (rs : List Register) : List Register := acc :: wide :: (target.argRegs ++ rs)

theorem facts_of_mem_workRegs (h : r ∈ workRegs target.valueRegs) :
    r ∈ wholeRegs ∧ r ≠ "rbp" ∧ r ≠ "rsp" := by
  revert r
  decide

/-- Whether an operand is in memory. -/
def Arg.isMem : Arg → Bool
  | mem _ _ => true
  | imm _ | reg _ => false

/-- A literal of an operand fits 32 bits. -/
def Arg.Narrow : Arg → Prop
  | imm value => Int32.minValue.toInt ≤ value ∧ value ≤ Int32.maxValue.toInt
  | reg _ | mem _ _ => True

inductive Arg.Usual (rs : List Register) : Arg → Prop
  | imm {value : Int} (h : (imm value).Narrow) : (imm value).Usual rs
  | reg {r : Register} (h : r ∈ workRegs rs) : (reg r).Usual rs
  | word (offset : Int) : (mem offset "rbp").Usual rs

theorem Arg.Usual.proper {a : Arg} (h : a.Usual target.valueRegs) : a.Proper := by
  cases h with
  | imm => trivial
  | reg hr => exact (facts_of_mem_workRegs hr).1
  | word => exact framePointer_mem

theorem Arg.Usual.narrow {a : Arg} (h : a.Usual rs) : a.Narrow := by
  cases h with
  | imm h => exact h
  | reg | word => trivial

theorem usual_imm {value : Int64} (h : fitsImm value = true) : (Arg.imm value.toInt).Usual rs :=
  .imm (by simpa [fitsImm, Arg.Narrow] using h)

/-! ### Steps -/

variable {f : Frame} {s : Step} {i : Instr}

inductive Emitted (rs : List Register) (s : Step) : Instr → Prop
  | load {src : Arg} {dst : Register} (hsrc : src.Usual rs) (hdst : dst ∈ workRegs rs) :
    Emitted rs s (.movq src (.reg dst))
  | store {src : Arg} {base : Register} (hsrc : src.Usual rs) (hmem : src.isMem = false)
    (hbase : base ∈ "rbp" :: workRegs rs) (offset : Int) : Emitted rs s (.movq src (.mem offset base))
  | movabsq (value : Int) {dst : Register} (hdst : dst ∈ workRegs rs) : Emitted rs s (.movabsq value dst)
  | alu (op : Alu) {src : Arg} {dst : Register} (hsrc : src.Usual rs) (hdst : dst ∈ workRegs rs) :
    Emitted rs s (.alu op src dst)
  | cmpq {src dst : Arg} (hsrc : src.Usual rs) (hdst : dst.Usual rs)
    (hmem : (src.isMem && dst.isMem) = false) : Emitted rs s (.cmpq src dst)
  | testq {r : Register} (hr : r ∈ workRegs rs) : Emitted rs s (.testq r r)
  | setcc (cond : Cond) : Emitted rs s (.setcc cond)
  | movzbq : Emitted rs s .movzbq
  | cqto : Emitted rs s .cqto
  | idivq {divisor : Arg} (h : divisor.Usual rs) : Emitted rs s (.idivq divisor)
  | callq {callee : String} {args : List Operand} {dst : Option Operand}
    (hs : s = .call callee args dst) : Emitted rs s (.callq callee)
  | pushq {callee : String} {args : List Operand} {dst : Option Operand} {src : Arg}
    (hs : s = .call callee args dst) (hsrc : src.Usual rs) : Emitted rs s (.pushq src)
  | shift {callee : String} {args : List Operand} {dst : Option Operand} {op : Alu}
    (hs : s = .call callee args dst) (hop : op = .sub ∨ op = .add) (bytes : Nat) :
    Emitted rs s (.alu op (.imm bytes) "rsp")
  | jmp {label : String} (hs : s = .jump label) : Emitted rs s (.jmp label)
  | jne {o : Operand} {label : String} (hs : s = .branchIf o label) : Emitted rs s (.jne label)

section Operands

variable {o : Operand} (ho : o.Within rs)

theorem acc_mem : acc ∈ workRegs rs := mem_cons_self

theorem wide_mem : wide ∈ workRegs rs := mem_cons_of_mem _ mem_cons_self

theorem mem_workRegs (h : r ∈ rs) : r ∈ workRegs rs := by simp [workRegs, h]

include ho

theorem emitted_source : (∀ i ∈ (source f o).1, Emitted rs s i) ∧ (source f o).2.Usual rs := by
  cases o with
  | immediate value =>
    simp only [source]
    split
    · next hfits => exact ⟨by simp, usual_imm hfits⟩
    · exact ⟨forall_mem_singleton.2 (.movabsq _ wide_mem), .reg wide_mem⟩
  | register r => exact ⟨by simp [source], .reg (mem_workRegs ho)⟩
  | stack slot => exact ⟨by simp [source], .word _⟩

theorem emitted_loadReg {dst : Register} (hdst : dst ∈ workRegs rs) :
    ∀ i ∈ loadReg f dst o, Emitted rs s i := by
  cases o with
  | immediate value =>
    simp only [loadReg]
    split
    · next hfits => exact forall_mem_singleton.2 (.load (usual_imm hfits) hdst)
    · exact forall_mem_singleton.2 (.movabsq _ hdst)
  | register r =>
    simp only [loadReg]
    split
    · simp
    · exact forall_mem_singleton.2 (.load (.reg (mem_workRegs ho)) hdst)
  | stack slot => exact forall_mem_singleton.2 (.load (.word _) hdst)

theorem emitted_storeReg {src : Register} (hsrc : src ∈ workRegs rs) :
    ∀ i ∈ storeReg f src o, Emitted rs s i := by
  cases o with
  | immediate value => simp [storeReg]
  | register r =>
    simp only [storeReg]
    split
    · simp
    · exact forall_mem_singleton.2 (.load (.reg hsrc) (mem_workRegs ho))
  | stack slot => exact forall_mem_singleton.2 (.store (.reg hsrc) rfl mem_cons_self _)

theorem emitted_divisor : (∀ i ∈ (divisor f o).1, Emitted rs s i) ∧ (divisor f o).2.Usual rs := by
  cases o with
  | immediate value => exact ⟨emitted_loadReg (f := f) ho wide_mem, .reg wide_mem⟩
  | register | stack => exact emitted_source ho

theorem emitted_stored : (∀ i ∈ (stored f o).1, Emitted rs s i) ∧ (stored f o).2.Usual rs ∧
    (stored f o).2.isMem = false := by
  cases o with
  | register r => exact ⟨by simp [stored], .reg (mem_workRegs ho), rfl⟩
  | stack slot => exact ⟨emitted_loadReg ho wide_mem, .reg wide_mem, rfl⟩
  | immediate value =>
    simp only [stored]
    split
    · next hfits => exact ⟨by simp, usual_imm hfits, rfl⟩
    · exact ⟨emitted_loadReg (f := f) ho wide_mem, .reg wide_mem, rfl⟩

theorem emitted_addressReg :
    (∀ i ∈ (addressReg f o).1, Emitted rs s i) ∧ (addressReg f o).2 ∈ workRegs rs := by
  cases o with
  | register r => exact ⟨by simp [addressReg], mem_workRegs ho⟩
  | immediate | stack => exact ⟨emitted_loadReg (f := f) ho acc_mem, acc_mem⟩

theorem workReg_mem (rhs : Operand) : workReg o rhs ∈ workRegs rs := by
  cases o with
  | immediate | stack => exact acc_mem
  | register r =>
    simp only [workReg]
    split
    · exact acc_mem
    · exact mem_workRegs ho

end Operands

theorem emitted_move {dst src : Operand} (hdst : dst.Within rs)
    (hsrc : src.Within rs) : ∀ i ∈ move f dst src, Emitted rs s i := by
  have hthrough : ∀ i ∈ loadReg f acc src ++ storeReg f acc dst, Emitted rs s i :=
    forall_mem_append.2 ⟨emitted_loadReg hsrc acc_mem, emitted_storeReg hdst acc_mem⟩
  unfold move
  split
  · exact emitted_loadReg hsrc (mem_workRegs hdst)
  · exact emitted_storeReg hdst (mem_workRegs hsrc)
  · split
    · next hfits =>
      exact forall_mem_singleton.2 (.store (usual_imm hfits) rfl mem_cons_self _)
    · exact hthrough
  · split
    · simp
    · exact hthrough
  · simp

theorem emitted_binop (op : BinOp) {dst lhs rhs : Operand} (hdst : dst.Within rs)
    (hlhs : lhs.Within rs) (hrhs : rhs.Within rs) :
    ∀ i ∈ binop f op dst lhs rhs, Emitted rs s i := by
  obtain ⟨hsetup, harg⟩ := emitted_source (f := f) (s := s) hrhs
  have hwork := workReg_mem hdst rhs
  unfold binop
  split
  · obtain ⟨hsetup, harg⟩ := emitted_divisor (f := f) (s := s) hrhs
    simp only [forall_mem_append, forall_mem_cons]
    exact ⟨⟨⟨hsetup, emitted_loadReg hlhs acc_mem⟩, .cqto, .idivq harg, by simp⟩,
      emitted_storeReg hdst acc_mem⟩
  · simp only [forall_mem_append, forall_mem_cons]
    exact ⟨⟨⟨emitted_loadReg hlhs acc_mem, hsetup⟩, .cmpq harg (.reg acc_mem) (Bool.and_false _),
      .setcc _, .movzbq, by simp⟩, emitted_storeReg hdst acc_mem⟩
  · simp only [forall_mem_append, forall_mem_singleton]
    exact ⟨⟨⟨emitted_loadReg hlhs hwork, hsetup⟩, .alu _ harg hwork⟩, emitted_storeReg hdst hwork⟩

theorem eq_of_mem_lowerStack {bytes : Nat} (h : i ∈ lowerStack bytes) :
    i = .alu .sub (.imm bytes) "rsp" := by
  unfold lowerStack at h
  split at h
  · cases h
  · exact mem_singleton.1 h

theorem eq_of_mem_raiseStack {bytes : Nat} (h : i ∈ raiseStack bytes) :
    i = .alu .add (.imm bytes) "rsp" := by
  unfold raiseStack at h
  split at h
  · cases h
  · exact mem_singleton.1 h

theorem emitted_call {callee : String} {args : List Operand} {dst : Option Operand}
    (hs : s = .call callee args dst) (hargs : ∀ a ∈ args, a.Within rs)
    (hdst : ∀ d ∈ dst, d.Within rs) : ∀ i ∈ call f callee args dst, Emitted rs s i := by
  intro i hi
  simp only [call, mem_append, mem_singleton] at hi
  rcases hi with ((((hi | hi) | hi) | rfl) | hi) | hi
  · exact eq_of_mem_lowerStack hi ▸ .shift hs (.inl rfl) _
  · obtain ⟨arg, harg, hi⟩ := mem_flatMap.1 hi
    obtain ⟨hsetup, husual⟩ := emitted_source (f := f) (s := s)
      (hargs arg (mem_of_mem_drop (mem_reverse.1 harg)))
    exact forall_mem_append.2 ⟨hsetup, forall_mem_singleton.2 (.pushq hs husual)⟩ i hi
  · obtain ⟨a, ha, hi⟩ := mem_flatMap.1 hi
    obtain ⟨hreg, harg⟩ := of_mem_zip (show (a.1, a.2) ∈ _ from ha)
    exact emitted_loadReg (hargs a.2 harg) (by simp [workRegs, hreg]) i hi
  · exact .callq hs
  · exact eq_of_mem_raiseStack hi ▸ .shift hs (.inr rfl) _
  · cases dst with
    | none => cases hi
    | some d => exact emitted_storeReg (hdst d rfl) acc_mem i hi

theorem emitted_branchIf {o : Operand} {label : String} (hs : s = .branchIf o label)
    (ho : o.Within rs) : ∀ i ∈ branchIf f o label, Emitted rs s i := by
  cases o with
  | register r =>
    exact forall_mem_cons.2 ⟨.testq (mem_workRegs ho), forall_mem_singleton.2 (.jne hs)⟩
  | immediate | stack =>
    obtain ⟨hsetup, harg⟩ := emitted_source (f := f) (s := s) ho
    have hzero : (Arg.imm 0).Usual rs := .imm ⟨by decide, by decide⟩
    exact forall_mem_append.2 ⟨hsetup, forall_mem_cons.2 ⟨.cmpq hzero harg rfl,
      forall_mem_singleton.2 (.jne hs)⟩⟩

theorem emitted_lower (hs : s.Regular rs) (h : s ≠ .epilogue) :
    ∀ i ∈ lower f s, Emitted rs s i := by
  cases s with
  | label name => simp [lower]
  | incoming index dst =>
    have hdst : dst.Within rs := hs
    cases dst with
    | register r => exact forall_mem_singleton.2 (.load (.word _) (mem_workRegs hdst))
    | immediate | stack =>
      exact forall_mem_cons.2 ⟨.load (.word _) acc_mem, emitted_storeReg hdst acc_mem⟩
  | move dst src => exact emitted_move hs.1 hs.2
  | binop op dst lhs rhs => exact emitted_binop op hs.1 hs.2.1 hs.2.2
  | store addr src =>
    obtain ⟨hsetup, hbase⟩ := emitted_addressReg (f := f) (s := .store addr src) hs.1
    obtain ⟨hsetup', husual, hmem⟩ := emitted_stored (f := f) (s := .store addr src) hs.2
    exact forall_mem_append.2 ⟨forall_mem_append.2 ⟨hsetup, hsetup'⟩,
      forall_mem_singleton.2 (.store husual hmem (mem_cons_of_mem _ hbase) 0)⟩
  | call callee args dst => exact emitted_call rfl hs.1 hs.2
  | jump label => exact forall_mem_singleton.2 (.jmp rfl)
  | branchIf cond label => exact emitted_branchIf rfl hs.1
  | epilogue => exact absurd rfl h

theorem Emitted.call_or_proper (h : Emitted target.valueRegs s i)
    (hs : s.Regular target.valueRegs) :
    (∃ callee args dst, s = .call callee args dst ∧ i = .callq callee) ∨ i.Proper := by
  have hmem : ∀ {r}, r ∈ workRegs target.valueRegs → r ∈ wholeRegs := fun hr =>
    (facts_of_mem_workRegs hr).1
  cases h with
  | load hsrc hdst =>
    refine .inr ⟨hsrc.proper, hmem hdst, ?_⟩
    rintro _ _ _ rfl ⟨⟩
    cases hsrc
    exact (facts_of_mem_workRegs hdst).2.1.symm
  | @store src base hsrc hreg hbase offset =>
    have hbase : base ∈ wholeRegs := (mem_cons.1 hbase).elim (· ▸ framePointer_mem) hmem
    refine .inr (Instr.proper_movq hsrc.proper hbase ?_)
    rintro _ _ rfl
    cases hreg
  | movabsq _ hdst => exact .inr (hmem hdst)
  | alu _ hsrc hdst => exact .inr ⟨hsrc.proper, hmem hdst⟩
  | cmpq hsrc hdst => exact .inr ⟨hsrc.proper, hdst.proper⟩
  | testq hr => exact .inr ⟨hmem hr, hmem hr⟩
  | setcc | movzbq | cqto => exact .inr trivial
  | idivq h => exact .inr h.proper
  | callq hs => exact .inl ⟨_, _, _, hs, rfl⟩
  | pushq _ hsrc => exact .inr hsrc.proper
  | shift => exact .inr ⟨trivial, stackPointer_mem⟩
  | jmp heq =>
    subst heq
    exact .inr hs
  | jne heq =>
    subst heq
    exact .inr hs.2

/-! ### The frame -/

inductive Framed (f : Frame) : Instr → Prop
  | pushq {r : Register} (hr : r ∈ "rbp" :: f.saved) : Framed f (.pushq (.reg r))
  | popq {r : Register} (hr : r ∈ "rbp" :: f.saved) : Framed f (.popq r)
  | setFrame : Framed f (.movq (.reg "rsp") (.reg "rbp"))
  | shift {op : Alu} (hop : op = .sub ∨ op = .add) (bytes : Nat) : Framed f (.alu op (.imm bytes) "rsp")
  | retq : Framed f .retq

theorem framed_prologue (f : Frame) : ∀ i ∈ prologue f, Framed f i := by
  simp only [prologue, forall_mem_append, forall_mem_cons, forall_mem_map]
  exact ⟨⟨⟨.pushq mem_cons_self, .setFrame, by simp⟩,
    fun r hr => .pushq (mem_cons_of_mem _ hr)⟩,
    fun i hi => eq_of_mem_lowerStack hi ▸ .shift (.inl rfl) _⟩

theorem framed_epilogue (f : Frame) : ∀ i ∈ epilogue f, Framed f i := by
  simp only [epilogue, forall_mem_append, forall_mem_cons, forall_mem_map]
  exact ⟨⟨fun i hi => eq_of_mem_raiseStack hi ▸ .shift (.inr rfl) _,
    fun r hr => .popq (mem_cons_of_mem _ (mem_reverse.1 hr))⟩,
    .popq mem_cons_self, .retq, by simp⟩

section Proper

variable (hsaved : ∀ r ∈ f.saved, r ∈ target.calleeSaved)

include hsaved

theorem Framed.proper (h : Framed f i) : i.Proper := by
  have hmem : ∀ r ∈ "rbp" :: f.saved, r ∈ wholeRegs :=
    forall_mem_cons.2 ⟨framePointer_mem, fun r hr => mem_of_mem_calleeSaved (hsaved r hr)⟩
  cases h with
  | pushq hr | popq hr => exact hmem _ hr
  | setFrame => exact Instr.proper_movq stackPointer_mem framePointer_mem (by simp)
  | shift => exact ⟨trivial, stackPointer_mem⟩
  | retq => trivial

theorem prologue_proper : ∀ i ∈ prologue f, i.Proper := fun i hi =>
  (framed_prologue f i hi).proper hsaved

theorem epilogue_proper : ∀ i ∈ epilogue f, i.Proper := fun i hi =>
  (framed_epilogue f i hi).proper hsaved

end Proper

variable (hsaved : s = .epilogue → ∀ r ∈ f.saved, r ∈ target.calleeSaved)

include hsaved

theorem call_or_proper_of_mem_lower (hs : s.Regular target.valueRegs) : ∀ i ∈ lower f s,
    (∃ callee args dst, s = .call callee args dst ∧ i = .callq callee) ∨ i.Proper := by
  intro i hi
  by_cases h : s = .epilogue
  · subst h
    exact .inr (epilogue_proper (hsaved rfl) i hi)
  · exact (emitted_lower hs h i hi).call_or_proper hs

theorem lower_proper (hs : s.Proper target.valueRegs) : ∀ i ∈ lower f s, i.Proper := by
  intro i hi
  rcases call_or_proper_of_mem_lower hsaved hs.regular i hi with ⟨_, _, _, rfl, rfl⟩ | hproper
  · exact hs.1
  · exact hproper

end SsaBackend.Amd64
