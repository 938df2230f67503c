import SsaBackend.Proofs.Check.Legal
import SsaBackend.Proofs.Riscv64.Footprint

/-!
# Legal instructions of riscv64

Whatever code generation writes is legal (`Instr.Proper.legal`): registers exist, every destination is
a register, and no right operand is the register that is always zero, so nothing is divided by it.

Offsets have 12 bits, sign-extended. Words of the frame that are further away are addressed through a
register, so that all but the parameters on the stack are in reach (`inReach_of_mem_lower`).
-/

namespace SsaBackend.Riscv64

open Asm List Listing Text

/-! ### Operands -/

def Named (operand : String) : Prop := ∀ r ∈ names operand, registerNames.contains r = true

theorem named_of_eq {operand : String} {rs : List Register} (h : names operand = rs)
    (hrs : ∀ r ∈ rs, r ∈ "zero" :: wholeRegs) : Named operand := by
  have hall : ∀ r ∈ "zero" :: wholeRegs, registerNames.contains r = true := by decide
  rw [Named, h]
  exact fun r hr => hall r (hrs r hr)

theorem named_of_mem {r : Register} (h : r ∈ "zero" :: wholeRegs) : Named r :=
  named_of_eq (names_of_mem h) (forall_mem_singleton.2 h)

theorem named_whole {r : Register} (h : r ∈ wholeRegs) : Named r :=
  named_of_mem (mem_cons_of_mem _ h)

theorem named_number (value : Int) : Named (toString value) :=
  named_of_eq (names_number value) (by simp)

theorem Address.named {a : Address} (h : a.base ∈ wholeRegs) : Named a.render :=
  named_of_eq (a.names_render h) (forall_mem_singleton.2 (mem_cons_of_mem _ h))

/-! ### Legal instructions -/

section Legal

variable {m : String} (n : Nat) (text : String)

theorem legal_data (hm : m ∈ dataMnemonics) {dst : Register} (hdst : dst ∈ wholeRegs)
    {rest : List String} (hrest : ∀ o ∈ rest, Named o)
    (hright : ∀ lhs rhs, rest = [lhs, rhs] → m ∈ ["div", "divu", "divw", "rem", "remu", "remw"] →
      rhs ∈ wholeRegs) :
    dialect.Legal ⟨m, dst :: rest, n, text⟩ where
  names := by
    have hall : ∀ m ∈ dataMnemonics, dialect.isMnemonic m = true := by decide
    exact Dialect.nameFaults_eq_nil_of_forall (hall m hm)
      (forall_mem_cons.2 ⟨named_whole hdst, hrest⟩)
  destinations := by
    have hregs : ∀ r ∈ wholeRegs, (immediate? r).isSome = false := by decide
    refine Dialect.destinationFaults_eq_nil fun k hk o ho => ?_
    simp only [dialect, destinations] at hk
    split at hk
    · cases hk
    · rw [mem_singleton.1 hk] at ho
      cases ho
      exact hregs dst hdst
  operands := by
    have hzero : ∀ r ∈ wholeRegs, isZero r = false := by decide
    simp only [dialect, operandFaults]
    split
    · next lhs rhs heq =>
      cases heq
      refine if_neg fun hdiv => ?_
      rw [Bool.and_eq_true, contains_iff_mem] at hdiv
      rw [hzero rhs (hright lhs rhs rfl hdiv.1)] at hdiv
      exact absurd hdiv.2 (by decide)
    · rfl

theorem legal_effect (hm : m ∈ "ret" :: effectMnemonics) {ops : List String} (hlen : ops.length ≤ 2)
    (hops : ∀ o ∈ ops.zipIdx, labelOperand? ⟨m, ops, n, text⟩ ≠ some o.2 → Named o.1) :
    dialect.Legal ⟨m, ops, n, text⟩ where
  names := by
    have hall : ∀ m ∈ "ret" :: effectMnemonics, dialect.isMnemonic m = true := by decide
    exact Dialect.nameFaults_eq_nil (hall m hm) hops
  destinations := by
    have hall : ∀ m ∈ "ret" :: effectMnemonics, withoutDestination.contains m = true := by decide
    refine Dialect.destinationFaults_eq_nil fun k hk => ?_
    simp only [dialect, destinations, hall m hm, Bool.true_or, if_true] at hk
    cases hk
  operands := by
    simp only [dialect, operandFaults]
    split
    · simp at hlen
    · rfl

end Legal

theorem Instr.Proper.legal {i : Instr} (h : i.Proper) (n : Nat) (text : String) :
    dialect.Legal ⟨i.mnemonic, i.operands, n, text⟩ := by
  have hsingle : ∀ {o lhs rhs : String}, [o] ≠ [lhs, rhs] := by simp
  cases i with
  | li dst value | lui dst value =>
    exact legal_data n text (by simp [mnemonic, dataMnemonics]) h
      (forall_mem_singleton.2 (named_number value)) fun _ _ heq => absurd heq hsingle
  | mv dst src =>
    exact legal_data n text (by simp [mnemonic, dataMnemonics]) h.1
      (forall_mem_singleton.2 (named_whole h.2)) fun _ _ heq => absurd heq hsingle
  | reg op dst lhs rhs =>
    have hlhs : Named lhs := named_of_mem (mem_cons.2 h.2.1)
    refine legal_data n text op.mnemonic_mem.1 h.1 (forall_mem_cons.2
      ⟨hlhs, forall_mem_singleton.2 (named_whole h.2.2)⟩) fun _ _ heq _ => ?_
    cases heq
    exact h.2.2
  | imm op dst lhs value =>
    refine legal_data n text op.mnemonic_mem.1 h.1 (forall_mem_cons.2
      ⟨named_whole h.2, forall_mem_singleton.2 (named_number value)⟩) fun _ _ _ hdiv => ?_
    exact absurd hdiv (by cases op <;> decide)
  | ld dst address =>
    exact legal_data n text (by simp [mnemonic, dataMnemonics]) h.1
      (forall_mem_singleton.2 (Address.named h.2.1)) fun _ _ heq => absurd heq hsingle
  | sd src address =>
    refine legal_effect n text (by simp [mnemonic, effectMnemonics]) (Nat.le_refl 2) fun o ho _ => ?_
    rcases mem_cons.1 (show o ∈ [(src, 0), (address.render, 1)] from ho) with rfl | ho
    · exact named_whole h.1
    · rw [mem_singleton.1 ho]
      exact Address.named h.2
  | call callee | j callee =>
    refine legal_effect n text (by simp [mnemonic, effectMnemonics]) (by simp [operands])
      fun o ho hlabel => absurd ?_ hlabel
    rw [mem_singleton.1 ho]
    rfl
  | bnez cond label =>
    refine legal_effect n text (by simp [mnemonic, effectMnemonics]) (Nat.le_refl 2)
      fun o ho hlabel => ?_
    rcases mem_cons.1 (show o ∈ [(cond, 0), (label, 1)] from ho) with rfl | ho
    · exact named_whole h.1
    · rw [mem_singleton.1 ho] at hlabel
      exact absurd rfl hlabel
  | ret =>
    exact legal_effect n text (by simp [mnemonic, effectMnemonics]) (by simp [operands])
      fun o ho => by cases ho

theorem Instr.Proper.legalLine {i : Instr} (h : i.Proper) : dialect.LegalLine i.line := by
  intro n asm hasm
  rw [item?_line h] at hasm
  cases hasm
  exact h.legal n i.render

/-! ### Addresses -/

theorem isBase_of_mem {r : Register} (h : r ∈ wholeRegs) :
    isBase ('(' :: (r.toList ++ [')'])) = true := by
  have hall : ∀ r ∈ wholeRegs, r.toList.all isNameChar = true := by decide
  have hname : ∀ c ∈ r.toList, isNameChar c = true := all_eq_true.1 (hall r h)
  have hclose : isNameChar ')' = false := by decide
  rw [isBase, takeWhile_append_of_pos hname, dropWhile_append_of_pos hname]
  simp [(facts_of_mem_wholeRegs h).1, hclose]

theorem Address.offsetText?_render {a : Address} (h : a.base ∈ wholeRegs) :
    offsetText? a.render = some (toString a.offset) := by
  have hdecimal : ∀ c ∈ (toString a.offset).toList, isDecimal c = true := fun c =>
    isDecimal_of_mem_toString
  have hne : (toString a.offset).toList ≠ [] := toString_int_ne_nil a.offset
  have hopen : isDecimal '(' = false := by decide
  have hunsigned : ∀ rest, a.render.toList ≠ '-' :: rest := by
    rw [a.toList_render]
    exact toString_append_ne a.offset _
  rw [offsetText?]
  split
  rename_i sign digits hsplit
  split at hsplit
  · exact absurd ‹_› (hunsigned _)
  · cases hsplit
    simp only [a.toList_render, takeWhile_append_of_pos hdecimal, dropWhile_append_of_pos hdecimal,
      takeWhile_cons, dropWhile_cons, hopen, Bool.false_eq_true, if_false, append_nil,
      isBase_of_mem h, nil_append, String.ofList_toList]
    simp

theorem Address.memoryFault?_render {a : Address} (h : a.base ∈ wholeRegs) :
    memoryFault? a.render = none ↔ a.offset ≤ 2047 := by
  have hrange : (∃ w, word? a.offset = some w ∧ -2048 ≤ w.toInt ∧ w.toInt ≤ 2047) ↔
      -2048 ≤ (a.offset : Int) ∧ (a.offset : Int) ≤ 2047 :=
    exists_word?_iff (by decide) (by decide)
  have hword : memoryFault? a.render = none ↔
      ∃ w, word? a.offset = some w ∧ -2048 ≤ w.toInt ∧ w.toInt ≤ 2047 := by
    rw [memoryFault?, offsetText?_render h]
    simp only [int64?_toString_nat]
    cases word? a.offset <;> simp
  rw [hword, hrange]
  omega

/-! ### Lines -/

def Instr.InReach : Instr → Prop
  | ld _ address => address.offset ≤ 2047
  | sd _ address => address.offset ≤ 2047
  | _ => True

theorem isMemory_eq_false {text : String} (h : ∀ c ∈ text.toList, isInert ['#'] c = true) :
    isMemory text = false := by
  simpa [isMemory, mentions] using (bracket_notMem h).1

theorem Address.isMemory_render (a : Address) : isMemory a.render = true := by
  simp [isMemory, mentions, a.toList_render]

theorem Instr.Proper.encodable_line_iff {i : Instr} (h : i.Proper) :
    dialect.Encodable i.line ↔ i.InReach := by
  have hreg : ∀ {r}, r ∈ wholeRegs → isMemory r = false := fun hr =>
    isMemory_eq_false (facts_of_mem_wholeRegs hr).2.1
  have hzero : isMemory "zero" = false := by decide
  have himm : ∀ value : Int, isMemory (toString value) = false := fun value =>
    isMemory_eq_false fun _ => isInert_of_mem_toString (by decide)
  have hname : ∀ {name}, isReference name = true → isMemory name = false := fun hn =>
    isMemory_eq_false fun _ => isInert_of_isReference (by decide) hn
  rw [Dialect.encodable_iff (item?_line h) fun _ => rfl]
  show (∀ op ∈ i.operands, isMemory op = true → memoryFault? op = none) ↔ _
  cases i <;> simp only [operands, InReach, forall_mem_cons, not_mem_nil, false_implies,
    implies_true, and_true]
  case li | lui => simp only [hreg h, himm, Bool.false_eq_true, false_implies, and_self]
  case mv => simp [hreg h.1, hreg h.2]
  case reg =>
    rcases h.2.1 with rfl | hlhs
    · simp [hreg h.1, hzero, hreg h.2.2]
    · simp [hreg h.1, hreg hlhs, hreg h.2.2]
  case imm => simp only [hreg h.1, hreg h.2, himm, Bool.false_eq_true, false_implies, and_self]
  case ld => simp [hreg h.1, Address.isMemory_render, Address.memoryFault?_render h.2.1]
  case sd => simp [hreg h.1, Address.isMemory_render, Address.memoryFault?_render h.2]
  case call | j => simp [hname h]
  case bnez => simp [hreg h.1, hname h.2]

/-! ### Steps -/

theorem Literal.inReach {dst : Register} {i : Instr} (h : Literal dst i) : i.InReach := by
  cases h <;> trivial

theorem Framed.inReach {f : Frame} {i : Instr} (h : Framed f i) : i.InReach := by
  cases h with
  | literal h => exact h.inReach
  | save _ offset | restore _ offset => exact offset_spAddress_le offset
  | _ => trivial

variable (f : Frame)

theorem inReach_of_mem_lower {s : Step} (hs : s.Regular target.valueRegs)
    (hnear : ∀ index dst, s = .incoming index dst → index < 256) : ∀ i ∈ lower f s, i.InReach := by
  intro i hi
  by_cases hreturn : s = .epilogue
  · subst hreturn
    exact (framed_epilogue f i hi).inReach
  · cases emitted_lower hs.within hreturn i hi with
    | own h => cases h with
      | literal _ h => exact h.inReach
      | _ => trivial
    | load _ offset => exact offset_spAddress_le offset
    | fetch heq =>
      have hindex := hnear _ _ heq
      exact show 8 * _ ≤ 2047 by omega
    | store => exact offset_spAddress_le _
    | storeAt => exact Nat.zero_le _
    | _ => trivial

theorem exists_mem_incoming (index : Nat) (o : Operand) :
    ∃ r, Instr.ld r ⟨"s0", 8 * index⟩ ∈ incoming f index o := by
  cases o with
  | register r => exact ⟨r, mem_cons_self⟩
  | immediate | stack => exact ⟨tmp0, mem_cons_self⟩

/-! ### Steps in lines -/

theorem line_ld_ne (dst : Register) (address : Address) (callee : String) :
    (Instr.ld dst address).line ≠ (Instr.call callee).line := by
  intro heq
  have hhead := congrArg (fun text => text.toList.head?) (Line.instruction.inj heq)
  simp [Instr.render, toList_instructionText, Instr.mnemonic] at hhead

variable {f} (hsaved : ∀ r ∈ f.saved, r ∈ target.calleeSaved)

include hsaved

theorem encodable_prologue : ∀ i ∈ prologue f, dialect.Encodable i.line := fun i hi =>
  (prologue_proper hsaved i hi).encodable_line_iff.2 (framed_prologue f i hi).inReach

theorem encodable_lower_iff {s : Step} (hs : s.Regular target.valueRegs) :
    (∀ i ∈ lower f s, (∀ callee, i.line = (Instr.call callee).line → isSymbol callee = true) →
      dialect.Encodable i.line) ↔ ∀ index dst, s = .incoming index dst → index < 256 := by
  have hproper : ∀ i ∈ lower f s,
      (∀ callee, i.line = (Instr.call callee).line → isSymbol callee = true) → i.Proper := by
    intro i hi hcall
    rcases call_or_proper_of_mem_lower (fun _ => hsaved) hs i hi with ⟨callee, -, -, -, rfl⟩ | hproper
    · exact isReference_of_isSymbol (hcall callee rfl)
    · exact hproper
  constructor
  · rintro h index dst rfl
    obtain ⟨r, hr⟩ := exists_mem_incoming f index dst
    have hcall : ∀ callee, (Instr.ld r ⟨"s0", 8 * index⟩).line = (Instr.call callee).line →
        isSymbol callee = true := fun callee heq => absurd heq (line_ld_ne _ _ callee)
    have hreach : 8 * index ≤ 2047 := (hproper _ hr hcall).encodable_line_iff.1 (h _ hr hcall)
    omega
  · intro h i hi hcall
    exact (hproper i hi hcall).encodable_line_iff.2 (inReach_of_mem_lower f hs h i hi)

end SsaBackend.Riscv64
