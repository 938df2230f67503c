import SsaBackend.Riscv64.Select
import SsaBackend.Proofs.Listing
import SsaBackend.Proofs.Semantics.Riscv64

/-!
# Decoding what code generation for riscv64 writes

The text of an instruction decodes to that instruction (`decode_render`), and its operands can be
read back from a line (`item?_line`).
-/

namespace SsaBackend.Riscv64

open Listing

def wholeRegs : List Register :=
  ["ra", "sp"] ++ numbered "t" 7 ++ numbered "s" 12 ++ numbered "a" 8

theorem facts_of_mem_wholeRegs {r : Register} (h : r ∈ wholeRegs) :
    r.toList ≠ [] ∧ (∀ c ∈ r.toList, isInert ['#'] c = true) ∧ Asm.isPlain r = true := by
  have hall : ∀ r ∈ wholeRegs, r.toList ≠ [] ∧ r.toList.all (isInert ['#']) = true ∧
      Asm.isPlain r = true := by decide
  obtain ⟨hne, hinert, hplain⟩ := hall r h
  exact ⟨hne, List.all_eq_true.1 hinert, hplain⟩

def Instr.Proper : Instr → Prop
  | li dst _ => dst ∈ wholeRegs
  | lui dst _ => dst ∈ wholeRegs
  | mv dst src => dst ∈ wholeRegs ∧ src ∈ wholeRegs
  | reg _ dst lhs rhs => dst ∈ wholeRegs ∧ (lhs = "zero" ∨ lhs ∈ wholeRegs) ∧ rhs ∈ wholeRegs
  | imm _ dst lhs _ => dst ∈ wholeRegs ∧ lhs ∈ wholeRegs
  | ld dst address => dst ∈ wholeRegs ∧ address.base ∈ wholeRegs ∧ address.base ≠ dst
  | sd src address => src ∈ wholeRegs ∧ address.base ∈ wholeRegs
  | call callee => isReference callee = true
  | j label => isReference label = true
  | bnez cond label => cond ∈ wholeRegs ∧ isReference label = true
  | ret => True

def Address.mem? (a : Address) : Option Mem := (Text.word? a.offset).map fun w => ⟨a.base, w⟩

theorem Address.toList_render (a : Address) :
    a.render.toList = (toString a.offset).toList ++ ('(' :: (a.base.toList ++ [')'])) := by
  simp [render, String.toList_append]

theorem Address.mem?_render (a : Address) : Riscv64.mem? a.render = a.mem? := by
  have hparen : '(' ∉ (toString a.offset).toList := fun h => by
    have hinert := isInert_of_mem_toString_nat (show isForeign ['#'] = true by decide) h
    exact absurd hinert (by decide)
  have hcut : Text.cutAtMark? ['('] ((toString a.offset).toList ++ '(' :: (a.base.toList ++ [')'])) =
      some ((toString a.offset).toList, a.base.toList ++ [')']) :=
    Text.cutAtMark?_append [] hparen _
  rw [Riscv64.mem?, toList_render, hcut]
  simp only [Option.bind_eq_bind, Option.bind_some, String.ofList_toList, Text.int64?_toString_nat,
    List.getLast?_concat, List.dropLast_concat, if_true, mem?]
  cases Text.word? a.offset <;> rfl

/-! ### Instructions -/

def Instr.op? : Instr → Option Op
  | li dst value => (Text.word? value).map (.li dst)
  | lui dst value => (Text.word? value).map (.lui dst)
  | mv dst src => some (.mv dst src)
  | reg op dst lhs rhs => some (.reg op dst lhs rhs)
  | imm op dst lhs value => (Text.word? value).map (.imm op dst lhs)
  | ld dst address => address.mem?.map (.ld dst)
  | sd src address => address.mem?.map (.sd src)
  | call callee => some (.call callee)
  | j label => some (.j label)
  | bnez cond label => some (.bnez cond label)
  | ret => some .ret

theorem immediate?_toString (value : Int) : immediate? (toString value) = Text.word? value :=
  Text.int64?_toString value

theorem decode_imm (op : ImmOp) (dst lhs text : String) :
    decode op.mnemonic [dst, lhs, text] = (immediate? text).map (.imm op dst lhs) := by
  cases op <;>
    simp [decode, decodeThree, RegOp.ofMnemonic?, RegOp.mnemonic, ImmOp.ofMnemonic?, ImmOp.mnemonic,
      Option.map_eq_bind]

theorem decode_render (i : Instr) : decode i.mnemonic i.operands = i.op? := by
  cases i with
  | li dst value | lui dst value =>
    simp only [decode, Instr.mnemonic, Instr.operands, Instr.op?, immediate?_toString]
  | ld dst address | sd src address =>
    simp only [decode, Instr.mnemonic, Instr.operands, Instr.op?, Address.mem?_render]
  | reg op dst lhs rhs => cases op <;> rfl
  | imm op dst lhs value =>
    rw [Instr.mnemonic, Instr.operands, decode_imm, immediate?_toString, Instr.op?]
  | _ => rfl

/-! ### Lines -/

theorem toList_commentMark : dialect.commentMark.toList = ['#'] := rfl

theorem legible_of_mem {r : Register} (h : r ∈ wholeRegs) : Legible ['#'] r :=
  legible_of_inert (facts_of_mem_wholeRegs h).1 (facts_of_mem_wholeRegs h).2.1

theorem legible_toString (value : Int) : Legible ['#'] (toString value) :=
  legible_of_inert (Text.toString_int_ne_nil value) fun _ => isInert_of_mem_toString (by decide)

theorem Address.legible {a : Address} (h : a.base ∈ wholeRegs) : Legible ['#'] a.render := by
  obtain ⟨-, hbase, -⟩ := facts_of_mem_wholeRegs h
  exact legible_of_brackets '(' ')' _ a.base.toList [] a.toList_render (by simp) (by decide)
    (fun c => isInert_of_mem_toString_nat (by decide)) (fun c hc => .inl (hbase c hc)) (by simp)

theorem mnemonic_mem (i : Instr) : i.mnemonic ∈ mnemonics := by
  cases i with
  | reg op dst lhs rhs => cases op <;> simp [Instr.mnemonic, RegOp.mnemonic, mnemonics]
  | imm op dst lhs value => cases op <;> simp [Instr.mnemonic, ImmOp.mnemonic, mnemonics]
  | _ => simp [Instr.mnemonic, mnemonics]

theorem isOpcode_of_mem {m : String} (h : m ∈ mnemonics) : isOpcode ['#'] m = true := by
  revert m
  decide

theorem Instr.Proper.legible {i : Instr} (h : i.Proper) : ∀ o ∈ i.operands, Legible ['#'] o := by
  have hname : ∀ {name}, isReference name = true → Legible ['#'] name := fun hn =>
    legible_of_isReference (by decide) hn
  cases i <;> simp only [operands, List.forall_mem_cons, List.not_mem_nil, false_implies,
    implies_true, and_true]
  case li | lui => exact ⟨legible_of_mem h, legible_toString _⟩
  case mv => exact ⟨legible_of_mem h.1, legible_of_mem h.2⟩
  case reg =>
    refine ⟨legible_of_mem h.1, ?_, legible_of_mem h.2.2⟩
    rcases h.2.1 with rfl | hlhs
    · exact legible_of_inert (by decide) (List.all_eq_true.1 (by decide))
    · exact legible_of_mem hlhs
  case imm => exact ⟨legible_of_mem h.1, legible_of_mem h.2, legible_toString _⟩
  case ld => exact ⟨legible_of_mem h.1, Address.legible h.2.1⟩
  case sd => exact ⟨legible_of_mem h.1, Address.legible h.2⟩
  case call | j => exact hname h
  case bnez => exact ⟨legible_of_mem h.1, hname h.2⟩

/-- The line of an instruction. -/
def Instr.line (i : Instr) : Line := .instruction i.render

def Instr.asm (i : Instr) (n : Nat) : AsmInstr := ⟨i.mnemonic, i.operands, n, i.render⟩

theorem item?_of_legible {i : Instr} (h : ∀ o ∈ i.operands, Legible ['#'] o) (n : Nat) :
    Asm.item? dialect n i.line = some (.instr (i.asm n)) :=
  Asm.item?_instructionText (d := dialect) (by decide) (isOpcode_of_mem (mnemonic_mem i)) h n

theorem item?_line {i : Instr} (h : i.Proper) (n : Nat) :
    Asm.item? dialect n i.line = some (.instr (i.asm n)) :=
  item?_of_legible h.legible n

end SsaBackend.Riscv64
