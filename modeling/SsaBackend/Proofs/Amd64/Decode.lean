import SsaBackend.Amd64.Select
import SsaBackend.Proofs.Listing
import SsaBackend.Proofs.Semantics.Amd64

/-!
# Decoding what code generation for amd64 writes

The text of an instruction decodes to that instruction (`decode_render`), and its operands can be
read back from a line (`item?_line`).
-/

namespace SsaBackend.Amd64

open List Listing Text

def wholeRegs : List Register :=
  ["rax", "rbx", "rcx", "rdx", "rsi", "rdi", "rsp", "rbp", "r8", "r9", "r10", "r11", "r12", "r13",
    "r14", "r15"]

def Arg.Proper : Arg → Prop
  | imm _ => True
  | reg r => r ∈ wholeRegs
  | mem _ base => base ∈ wholeRegs

def Instr.Proper : Instr → Prop
  | movq src dst =>
    src.Proper ∧ dst.Proper ∧ ∀ offset base r, src = .mem offset base → dst = .reg r → base ≠ r
  | movabsq _ dst => dst ∈ wholeRegs
  | alu _ src dst => src.Proper ∧ dst ∈ wholeRegs
  | cmpq src dst => src.Proper ∧ dst.Proper
  | testq src dst => src ∈ wholeRegs ∧ dst ∈ wholeRegs
  | setcc _ => True
  | movzbq => True
  | cqto => True
  | idivq divisor => divisor.Proper
  | pushq src => src.Proper
  | popq dst => dst ∈ wholeRegs
  | callq callee => isReference callee = true
  | jmp label => isReference label = true
  | jne label => isReference label = true
  | retq => True

/-! ### Operands -/

def Arg.place? : Arg → Option Place
  | imm value => (word? value).map .imm
  | reg r => some (.reg r)
  | mem offset base => (word? offset).map (.mem · base)

@[simp] theorem Arg.place?_reg (r : Register) : (reg r).place? = some (.reg r) := rfl

@[simp] theorem Arg.place?_imm (value : Int) :
    (imm value).place? = (word? value).map .imm := rfl

theorem toList_render_mem (offset : Int) (base : Register) :
    (Arg.mem offset base).render.toList =
      (if offset = 0 then [] else (toString offset).toList) ++
        ('(' :: '%' :: (base.toList ++ [')'])) := by
  rw [Arg.render]
  split <;> simp [String.toList_append]

theorem memory?_render (offset : Int) (base : Register) :
    memory? (Arg.mem offset base).render = (word? offset).map (.mem · base) := by
  have hparen : '(' ∉ (if offset = 0 then [] else (toString offset).toList) := by
    split
    · simp
    · intro h
      rcases isDigit_of_mem_toString_int h with h | h
      · exact absurd h (by decide)
      · exact absurd h (by decide)
  have hcut := cutAtMark?_append ['%'] hparen (base.toList ++ [')'])
  rw [memory?, toList_render_mem, show ('(' :: '%' :: (base.toList ++ [')'])) =
    ['(', '%'] ++ (base.toList ++ [')']) from rfl, hcut]
  by_cases hzero : offset = 0
  · subst hzero
    simp [word?_zero]
  · have hne := isEmpty_eq_false_iff.2 (toString_int_ne_nil offset)
    simp only [if_neg hzero, Option.bind_eq_bind, Option.bind_some, hne, String.ofList_toList,
      int64?_toString]
    cases word? offset <;> simp

theorem head?_render_mem (offset : Int) (base : Register) {c : Char} (hc : c ∈ ['$', '%']) :
    (Arg.mem offset base).render.toList.head? ≠ some c := by
  rw [toList_render_mem]
  split
  · rintro ⟨⟩
    exact absurd hc (by decide)
  · intro hhead
    rw [head?_append, head?_eq_some_head (toString_int_ne_nil offset), Option.some_or] at hhead
    have hmem := head_mem (toString_int_ne_nil offset)
    rw [Option.some.inj hhead] at hmem
    rcases isDigit_of_mem_toString_int hmem with hdigit | rfl
    · simp only [mem_cons, not_mem_nil, or_false] at hc
      rcases hc with rfl | rfl <;> exact absurd hdigit (by decide)
    · exact absurd hc (by decide)

theorem register?_render_mem (offset : Int) (base : Register) :
    register? (Arg.mem offset base).render = none := by
  have hpercent := head?_render_mem offset base (c := '%') (by simp)
  rw [register?, after?]
  split
  · next d cs heq =>
    rw [heq] at hpercent
    rw [if_neg (by simpa using hpercent)]
  · rfl

theorem place?_render (a : Arg) : Amd64.place? a.render = a.place? := by
  cases a with
  | imm value =>
    rw [Amd64.place?, if_pos (by simp [isImmediate, startsWith, Arg.render, String.toList_append]),
      immediate?, Arg.render, show "$" = String.ofList ['$'] from rfl, after?_append,
      Option.bind_some, int64?_toString]
    rfl
  | reg r =>
    rw [Amd64.place?, if_neg (by simp [isImmediate, startsWith, Arg.render, String.toList_append]),
      register?, Arg.render, show "%" = String.ofList ['%'] from rfl, after?_append]
    rfl
  | mem offset base =>
    have hdollar := head?_render_mem offset base (c := '$') (by simp)
    rw [Amd64.place?, if_neg (by simpa [isImmediate, startsWith] using hdollar),
      register?_render_mem]
    exact memory?_render offset base

/-! ### Instructions -/

def Instr.op? : Instr → Option Op
  | movq src dst => do return .mov (← src.place?) (← dst.place?)
  | movabsq value dst => do return .mov (← (Arg.imm value).place?) (.reg dst)
  | alu op src dst => do return .alu op (← src.place?) (.reg dst)
  | cmpq src dst => do return .cmp (← src.place?) (← dst.place?)
  | testq src dst => some (.test (.reg src) (.reg dst))
  | setcc cond => some (.set cond (.reg "al"))
  | movzbq => some (.movzb (.reg "al") (.reg "rax"))
  | cqto => some .cqto
  | idivq divisor => divisor.place?.map .idiv
  | pushq src => src.place?.map .push
  | popq dst => some (.pop (.reg dst))
  | callq callee => some (.call callee)
  | jmp label => some (.jmp label)
  | jne label => some (.jump .ne label)
  | retq => some .ret

theorem decode_render (i : Instr) : decode i.mnemonic i.operands = i.op? := by
  cases i with
  | alu op src dst =>
    cases op <;>
      simp [decode, Instr.mnemonic, Instr.operands, Instr.op?, Alu.mnemonic, place?_render,
        Alu.ofMnemonic?]
  | setcc cond => cases cond <;> rfl
  | movzbq => rfl
  | jne label => rfl
  | _ => simp [decode, Instr.mnemonic, Instr.operands, Instr.op?, place?_render]

/-! ### Lines -/

theorem toList_commentMark : dialect.commentMark.toList = ['#'] := rfl

theorem facts_of_mem_wholeRegs {r : Register} (h : r ∈ wholeRegs) :
    r.toList ≠ [] ∧ (∀ c ∈ r.toList, isInert ['#'] c = true) ∧ Asm.isPlain r = true := by
  have hall : ∀ r ∈ wholeRegs, r.toList ≠ [] ∧ r.toList.all (isInert ['#']) = true ∧
      Asm.isPlain r = true := by decide
  obtain ⟨hne, hinert, hplain⟩ := hall r h
  exact ⟨hne, all_eq_true.1 hinert, hplain⟩

theorem isInert_render_imm (value : Int) :
    ∀ c ∈ (Arg.imm value).render.toList, isInert ['#'] c = true := by
  have hlist : (Arg.imm value).render.toList = '$' :: (toString value).toList := by
    simp [Arg.render, String.toList_append]
  rw [hlist]
  exact forall_mem_cons.2 ⟨by decide, fun c => isInert_of_mem_toString (by decide)⟩

theorem isInert_render_reg {r : Register} (h : r ∈ wholeRegs) :
    ∀ c ∈ (Arg.reg r).render.toList, isInert ['#'] c = true := by
  have hlist : (Arg.reg r).render.toList = '%' :: r.toList := by
    simp [Arg.render, String.toList_append]
  rw [hlist]
  exact forall_mem_cons.2 ⟨by decide, (facts_of_mem_wholeRegs h).2.1⟩

theorem Arg.Proper.legible {a : Arg} (h : a.Proper) : Legible ['#'] a.render := by
  cases a with
  | imm value =>
    exact legible_of_inert (by simp [render, String.toList_append]) (isInert_render_imm value)
  | reg r => exact legible_of_inert (by simp [render, String.toList_append]) (isInert_render_reg h)
  | mem offset base =>
    obtain ⟨-, hbase, -⟩ := facts_of_mem_wholeRegs h
    have hoffset : ∀ c ∈ (if offset = 0 then [] else (toString offset).toList),
        isInert ['#'] c = true := by
      intro c hc
      split at hc
      · cases hc
      · exact isInert_of_mem_toString (by decide) hc
    refine legible_of_brackets '(' ')' _ ('%' :: base.toList) [] (toList_render_mem offset base)
      (by simp) (by decide) hoffset ?_ (by simp)
    exact forall_mem_cons.2 ⟨by decide, fun c hc => .inl (hbase c hc)⟩

theorem mnemonic_mem (i : Instr) : i.mnemonic ∈ mnemonics := by
  cases i with
  | alu op src dst => cases op <;> simp [Instr.mnemonic, Alu.mnemonic, mnemonics]
  | setcc cond => cases cond <;> simp [Instr.mnemonic, Cond.setMnemonic, mnemonics]
  | _ => simp [Instr.mnemonic, mnemonics]

theorem isOpcode_of_mem {m : String} (h : m ∈ mnemonics) : isOpcode ['#'] m = true := by
  revert m
  decide

theorem Instr.Proper.legible {i : Instr} (h : i.Proper) : ∀ o ∈ i.operands, Legible ['#'] o := by
  have hreg : ∀ {r}, r ∈ wholeRegs → Legible ['#'] (Arg.reg r).render := fun hr =>
    Arg.Proper.legible (a := .reg _) hr
  have hname : ∀ {name}, isReference name = true → Legible ['#'] name := fun hn =>
    legible_of_isReference (by decide) hn
  have hal : Legible ['#'] "%al" :=
    legible_of_inert (by decide) (all_eq_true.1 (by decide))
  cases i <;> simp only [operands, forall_mem_cons, not_mem_nil, false_implies,
    implies_true, and_true]
  case movq => exact ⟨h.1.legible, h.2.1.legible⟩
  case movabsq value dst => exact ⟨Arg.Proper.legible (a := .imm value) trivial, hreg h⟩
  case alu => exact ⟨h.1.legible, hreg h.2⟩
  case cmpq => exact ⟨h.1.legible, h.2.legible⟩
  case testq => exact ⟨hreg h.1, hreg h.2⟩
  case setcc => exact hal
  case movzbq => exact ⟨hal, legible_of_inert (by decide) (all_eq_true.1 (by decide))⟩
  case idivq | pushq => exact Arg.Proper.legible h
  case popq => exact hreg h
  case callq | jmp | jne => exact hname h

/-- The line of an instruction. -/
def Instr.line (i : Instr) : Line := .instruction i.render

def Instr.asm (i : Instr) (n : Nat) : AsmInstr := ⟨i.mnemonic, i.operands, n, i.render⟩

theorem item?_line {i : Instr} (h : i.Proper) (n : Nat) :
    Asm.item? dialect n i.line = some (.instr (i.asm n)) :=
  Asm.item?_instructionText (d := dialect) (by decide) (isOpcode_of_mem (mnemonic_mem i)) h.legible n

end SsaBackend.Amd64
