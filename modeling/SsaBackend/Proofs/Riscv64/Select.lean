import SsaBackend.Proofs.LoadStore
import SsaBackend.Proofs.Riscv64.Decode

/-!
# What code generation for riscv64 writes

The code of a step consists of few kinds of instructions (`emitted_lower`), and so do prologues and
epilogues (`Framed`). All of them are proper (`lower_proper`): their registers exist, and no load changes
the register that it gets its address from. Loads go through the stack pointer, the frame pointer and
`t0`, which hold no values. The frame pointer itself is loaded back in the end, but never through itself.
-/

namespace SsaBackend.Riscv64

open List

variable {i : Instr}

def isFree (r : Register) : Bool := wholeRegs.contains r && !(["sp", "t0"].contains r)

variable {r : Register}

theorem isFree_iff : isFree r = true ↔ r ∈ wholeRegs ∧ r ∉ ["sp", "t0"] := by
  simp [isFree]

theorem mem_of_isFree (h : isFree r = true) : r ∈ wholeRegs := (isFree_iff.1 h).1

theorem isFree_of_mem_calleeSaved (h : r ∈ target.calleeSaved) : isFree r = true := by
  revert r
  decide

/-! ### Literals and addresses -/

theorem low_bounds (value : Int) : -2048 ≤ low value ∧ low value ≤ 2047 ∧
    (value - low value) % 4096 = 0 := by
  simp only [low, Int.bmod_def]
  omega

/-- A part of a literal that is put together in a register. -/
inductive Literal (dst : Register) : Instr → Prop
  | li {value : Int} (h : -2048 ≤ value ∧ value ≤ 2047) : Literal dst (.li dst value)
  | lui {value : Int} (h : 0 ≤ value ∧ value < 2 ^ 20) : Literal dst (.lui dst value)
  | shift : Literal dst (.imm .slli dst dst 12)
  | add {op : ImmOp} (hop : op = .addi ∨ op = .addiw) {value : Int}
    (h : -2048 ≤ value ∧ value ≤ 2047) : Literal dst (.imm op dst dst value)

theorem literal_materialize (dst : Register) (value : Int) :
    ∀ i ∈ materialize dst value, Literal dst i := by
  have hlow : ∀ op value, op = .addi ∨ op = .addiw → ∀ i ∈ addLow op dst value, Literal dst i := by
    intro op value hop
    unfold addLow
    split
    · simp
    · have hbounds := low_bounds value
      exact forall_mem_singleton.2 (.add hop ⟨hbounds.1, hbounds.2.1⟩)
  fun_induction materialize dst value with
  | case1 value hfits => exact forall_mem_singleton.2 (.li (by simpa [fitsImm] using hfits))
  | case2 value =>
    exact forall_mem_cons.2 ⟨.lui (by omega), hlow .addiw value (.inr rfl)⟩
  | case3 value _ _ ih =>
    exact forall_mem_append.2
      ⟨ih, forall_mem_cons.2 ⟨.shift, hlow .addi value (.inl rfl)⟩⟩

variable {dst : Register}

theorem Literal.proper (hdst : dst ∈ wholeRegs) (h : Literal dst i) : i.Proper := by
  cases h with
  | li | lui => exact hdst
  | shift | add => exact ⟨hdst, hdst⟩

theorem materialize_proper (hdst : dst ∈ wholeRegs) (value : Int) :
    ∀ i ∈ materialize dst value, i.Proper := fun i hi =>
  (literal_materialize dst value i hi).proper hdst

theorem addr_mem : addr ∈ wholeRegs := by decide

theorem stackPointer_mem : "sp" ∈ wholeRegs := by decide

theorem framePointer_mem : "s0" ∈ wholeRegs := by decide

theorem literal_or_of_mem_spAddress {offset : Nat} (h : i ∈ (spAddress offset).1) :
    Literal addr i ∨ i = .reg .add addr "sp" addr := by
  unfold spAddress at h
  split at h
  · cases h
  · rcases mem_append.1 h with h | h
    · exact .inl (literal_materialize _ _ i h)
    · exact .inr (mem_singleton.1 h)

theorem spAddress_proper (offset : Nat) :
    (∀ i ∈ (spAddress offset).1, i.Proper) ∧ (spAddress offset).2.base ∈ ["sp", "t0"] := by
  refine ⟨fun i hi => ?_, ?_⟩
  · rcases literal_or_of_mem_spAddress hi with h | rfl
    · exact h.proper addr_mem
    · exact ⟨addr_mem, .inr stackPointer_mem, addr_mem⟩
  · unfold spAddress
    split <;> simp [addr]

theorem offset_spAddress_le (offset : Nat) : (spAddress offset).2.offset ≤ 2047 := by
  unfold spAddress
  split
  · next hfits =>
    simp only [fitsImm, Bool.and_eq_true, decide_eq_true_eq] at hfits
    exact show offset ≤ 2047 by omega
  · exact Nat.zero_le _

theorem mem_wholeRegs_of_base (h : r ∈ ["sp", "t0"]) : r ∈ wholeRegs := by
  revert r
  decide

theorem ld_proper (hdst : isFree dst = true) (offset : Nat) :
    (Instr.ld dst (spAddress offset).2).Proper := by
  have hbase := (spAddress_proper offset).2
  exact ⟨mem_of_isFree hdst, mem_wholeRegs_of_base hbase,
    fun heq => (isFree_iff.1 hdst).2 (heq ▸ hbase)⟩

/-! ### Steps -/

variable {rs : List Register} {f : Frame} {s : Step}

def compute (f : Frame) (op : BinOp) (work left : Register) (rhs : Operand) : List Instr :=
  match immediateForm? op rhs with
  | some (imm, value) => [.imm imm work left value]
  | none => (read f tmp1 rhs).1 ++ registerForm op work left (read f tmp1 rhs).2

def pieces : LoadStore Instr where
  target := target
  left := tmp0
  right := tmp1
  result := result
  literal dst value := materialize dst value.toInt
  copy := .mv
  point offset := (spAddress offset).1
  loadWord dst offset := .ld dst (spAddress offset).2
  storeWord src offset := .sd src (spAddress offset).2
  fetch dst index := .ld dst ⟨"s0", 8 * index⟩
  storeAt src base := .sd src ⟨base, 0⟩
  compute := compute
  call := .call
  jump := .j
  branch := .bnez

theorem lower_eq (h : s ≠ .epilogue) : lower f s = pieces.lower f s := by
  cases s with
  | epilogue => exact absurd rfl h
  | _ => rfl

def workRegs (rs : List Register) : List Register := pieces.workRegs rs

inductive Own (rs : List Register) : Instr → Prop
  | literal {dst : Register} {i : Instr} (hdst : dst ∈ addr :: workRegs rs) (h : Literal dst i) : Own rs i
  | point : Own rs (.reg .add addr "sp" addr)
  | imm {op : ImmOp} {dst lhs : Register} {value : Int} (hop : op ≠ .slli)
    (hvalue : fitsImm value = true) (hdst : dst ∈ workRegs rs) (hlhs : lhs ∈ workRegs rs) :
    Own rs (.imm op dst lhs value)
  | reg (op : RegOp) {dst lhs rhs : Register} (hdst : dst ∈ workRegs rs)
    (hlhs : lhs = "zero" ∨ lhs ∈ workRegs rs) (hrhs : rhs ∈ workRegs rs) : Own rs (.reg op dst lhs rhs)

theorem own_registerForm (op : BinOp) {lhs rhs : Register} (hdst : dst ∈ workRegs rs)
    (hlhs : lhs ∈ workRegs rs) (hrhs : rhs ∈ workRegs rs) :
    ∀ i ∈ registerForm op dst lhs rhs, Own rs i := by
  have hreg : ∀ op {l r}, l ∈ workRegs rs → r ∈ workRegs rs → Own rs (.reg op dst l r) :=
    fun op _ _ hl hr => .reg op hdst (.inr hl) hr
  have hone : ∀ op, op ≠ .slli → Own rs (.imm op dst dst 1) := fun _ hop =>
    .imm hop (by decide) hdst hdst
  cases op <;> simp only [registerForm, forall_mem_cons, not_mem_nil, false_implies,
    implies_true, and_true]
  case eq => exact ⟨hreg .xor hlhs hrhs, hone .sltiu (by decide)⟩
  case ne => exact ⟨hreg .xor hlhs hrhs, .reg .sltu hdst (.inl rfl) hdst⟩
  case le => exact ⟨hreg .slt hrhs hlhs, hone .xori (by decide)⟩
  case ge => exact ⟨hreg .slt hlhs hrhs, hone .xori (by decide)⟩
  case gt => exact hreg .slt hrhs hlhs
  all_goals exact hreg _ hlhs hrhs

theorem immediateForm?_fits {op : BinOp} {rhs : Operand} {imm : ImmOp} {value : Int}
    (h : immediateForm? op rhs = some (imm, value)) : imm ≠ .slli ∧ fitsImm value = true := by
  cases rhs with
  | immediate literal =>
    cases op <;> simp only [immediateForm?] at h <;>
      first
      | cases h
      | split at h <;> cases h
        next hfits => exact ⟨by decide, hfits⟩
  | register | stack => cases h

theorem emitted_lower (hs : ∀ o ∈ s.operands, o.Within rs) (h : s ≠ .epilogue) :
    ∀ i ∈ lower f s, pieces.Emitted (Own rs) rs f s i := by
  rw [lower_eq h]
  refine LoadStore.emitted_lower hs (fun dst hdst value i hi => ?_) (fun offset i hi => ?_)
    fun {op _ _ rhs w l} _ hw hl hread => ?_
  · exact .literal (mem_cons_of_mem _ hdst) (literal_materialize _ _ i hi)
  · rcases literal_or_of_mem_spAddress hi with h | rfl
    · exact .literal mem_cons_self h
    · exact .point
  · show ∀ i ∈ compute f op w l rhs, _
    unfold compute
    split
    · next imm value hform =>
      obtain ⟨hop, hfits⟩ := immediateForm?_fits hform
      exact forall_mem_singleton.2 (.own (.imm hop hfits hw hl))
    · exact forall_mem_append.2
        ⟨hread.1, fun i hi => .own (own_registerForm op hw hl hread.2 i hi)⟩

theorem Own.proper (h : Own target.valueRegs i) : i.Proper := by
  have hmem : ∀ {r}, r ∈ addr :: workRegs target.valueRegs → r ∈ wholeRegs := by decide
  have hwork : ∀ {r}, r ∈ workRegs target.valueRegs → r ∈ wholeRegs := fun hr => hmem (mem_cons_of_mem _ hr)
  cases h with
  | literal hdst h => exact h.proper (hmem hdst)
  | point => exact ⟨addr_mem, .inr stackPointer_mem, addr_mem⟩
  | imm _ _ hdst hlhs => exact ⟨hwork hdst, hwork hlhs⟩
  | reg op hdst hlhs hrhs => exact ⟨hwork hdst, hlhs.imp_right hwork, hwork hrhs⟩

theorem call_or_proper (h : pieces.Emitted (Own target.valueRegs) target.valueRegs f s i)
    (hs : s.Regular target.valueRegs) :
    (∃ callee args dst, s = .call callee args dst ∧ i = .call callee) ∨ i.Proper := by
  have hwork : ∀ r ∈ workRegs target.valueRegs, isFree r = true ∧ r ≠ "s0" := by decide
  have hmem : ∀ {r}, r ∈ workRegs target.valueRegs → r ∈ wholeRegs := fun hr => mem_of_isFree (hwork _ hr).1
  cases h with
  | own h => exact .inr h.proper
  | copy hdst hsrc => exact .inr ⟨hmem hdst, hmem hsrc⟩
  | load hdst offset => exact .inr (ld_proper (hwork _ hdst).1 offset)
  | fetch _ hdst => exact .inr ⟨hmem hdst, framePointer_mem, (hwork _ hdst).2.symm⟩
  | store hsrc => exact .inr ⟨hmem hsrc, mem_wholeRegs_of_base (spAddress_proper _).2⟩
  | storeAt hsrc hbase => exact .inr ⟨hmem hsrc, hmem hbase⟩
  | call heq => exact .inl ⟨_, _, _, heq, rfl⟩
  | jump heq =>
    subst heq
    exact .inr hs
  | branch heq hr =>
    subst heq
    exact .inr ⟨hmem hr, hs.2⟩

/-! ### The frame -/

inductive Framed (f : Frame) : Instr → Prop
  | literal {i : Instr} (h : Literal addr i) : Framed f i
  | point : Framed f (.reg .add addr "sp" addr)
  | near {dst : Register} (hdst : dst ∈ ["sp", "s0"]) (delta : Int) : Framed f (.imm .addi dst "sp" delta)
  | far (op : RegOp) {dst : Register} (hdst : dst ∈ ["sp", "s0"]) : Framed f (.reg op dst "sp" addr)
  | save {r : Register} (hr : r ∈ "ra" :: "s0" :: f.saved) (offset : Nat) :
    Framed f (.sd r (spAddress offset).2)
  | restore {r : Register} (hr : r ∈ "ra" :: "s0" :: f.saved) (offset : Nat) :
    Framed f (.ld r (spAddress offset).2)
  | ret : Framed f .ret

theorem framed_access {g : Address → Instr} {offset : Nat} (h : Framed f (g (spAddress offset).2)) :
    ∀ i ∈ (spAddress offset).1 ++ [g (spAddress offset).2], Framed f i := by
  refine forall_mem_append.2 ⟨fun i hi => ?_, forall_mem_singleton.2 h⟩
  rcases literal_or_of_mem_spAddress hi with h | rfl
  · exact .literal h
  · exact .point

theorem framed_adjust (hdst : dst ∈ ["sp", "s0"]) (delta : Int) :
    ∀ i ∈ adjust dst "sp" delta, Framed f i := by
  unfold adjust
  split
  · exact forall_mem_singleton.2 (.near hdst delta)
  · exact forall_mem_append.2 ⟨fun i hi => .literal (literal_materialize _ _ i hi),
      forall_mem_singleton.2 (.far _ hdst)⟩

theorem framed_prologue (f : Frame) : ∀ i ∈ prologue f, Framed f i := by
  unfold prologue
  simp only [forall_mem_append, forall_mem_flatMap]
  exact ⟨⟨⟨⟨framed_adjust (by simp) _, framed_access (.save (by simp) _)⟩,
    framed_access (.save (by simp) _)⟩, framed_adjust (by simp) _⟩,
    fun r hr => framed_access (.save (by simp [fst_mem_of_mem_zipIdx hr]) _)⟩

theorem framed_epilogue (f : Frame) : ∀ i ∈ epilogue f, Framed f i := by
  unfold epilogue
  simp only [forall_mem_append, forall_mem_flatMap, forall_mem_singleton]
  exact ⟨⟨⟨⟨fun r hr => framed_access (.restore (by simp [fst_mem_of_mem_zipIdx hr]) _),
    framed_access (.restore (by simp) _)⟩, framed_access (.restore (by simp) _)⟩,
    framed_adjust (by simp) _⟩, .ret⟩

section Proper

variable (hsaved : ∀ r ∈ f.saved, r ∈ target.calleeSaved)

include hsaved

theorem Framed.proper (h : Framed f i) : i.Proper := by
  have hfree : ∀ r ∈ "ra" :: "s0" :: f.saved, isFree r = true :=
    forall_mem_cons.2 ⟨by decide, forall_mem_cons.2 ⟨by decide, fun r hr =>
      isFree_of_mem_calleeSaved (hsaved r hr)⟩⟩
  have hpointer : ∀ r ∈ ["sp", "s0"], r ∈ wholeRegs := by decide
  cases h with
  | literal h => exact h.proper addr_mem
  | point => exact ⟨addr_mem, .inr stackPointer_mem, addr_mem⟩
  | near hdst => exact ⟨hpointer _ hdst, stackPointer_mem⟩
  | far _ hdst => exact ⟨hpointer _ hdst, .inr stackPointer_mem, addr_mem⟩
  | save hr offset =>
    exact ⟨mem_of_isFree (hfree _ hr), mem_wholeRegs_of_base (spAddress_proper offset).2⟩
  | restore hr offset => exact ld_proper (hfree _ hr) offset
  | ret => trivial

theorem prologue_proper : ∀ i ∈ prologue f, i.Proper := fun i hi =>
  (framed_prologue f i hi).proper hsaved

theorem epilogue_proper : ∀ i ∈ epilogue f, i.Proper := fun i hi =>
  (framed_epilogue f i hi).proper hsaved

end Proper

variable (hsaved : s = .epilogue → ∀ r ∈ f.saved, r ∈ target.calleeSaved)

include hsaved

theorem call_or_proper_of_mem_lower (hs : s.Regular target.valueRegs) : ∀ i ∈ lower f s,
    (∃ callee args dst, s = .call callee args dst ∧ i = .call callee) ∨ i.Proper := by
  intro i hi
  by_cases h : s = .epilogue
  · subst h
    exact .inr (epilogue_proper (hsaved rfl) i hi)
  · exact call_or_proper (emitted_lower hs.within h i hi) hs

theorem lower_proper (hs : s.Proper target.valueRegs) : ∀ i ∈ lower f s, i.Proper := by
  intro i hi
  rcases call_or_proper_of_mem_lower hsaved hs.regular i hi with ⟨_, _, _, rfl, rfl⟩ | hproper
  · exact hs.1
  · exact hproper

end SsaBackend.Riscv64
