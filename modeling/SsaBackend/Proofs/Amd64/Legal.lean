import SsaBackend.Proofs.Amd64.Select
import SsaBackend.Proofs.Check.Legal

/-!
# Legal instructions of amd64

No instruction that code generation writes has two memory operands or a literal as its destination
(`fitting_lower`): words on their way from memory to memory go through a register, and a literal is no
place to store into. With registers that exist, such instructions are legal (`Instr.Proper.legal`).

An address is an offset and a base, without an index that would need a scale. Offsets are in range
everywhere, so whatever code generation writes can be encoded.
-/

namespace SsaBackend.Amd64

open Asm List Listing Text

variable {a : Arg}

/-! ### Memory operands -/

theorem dropWhile_offset (offset : Int) (rest : List Char) :
    (skipMinus ((if offset = 0 then [] else (toString offset).toList) ++ '(' :: rest)).dropWhile
      isDecimal = '(' :: rest := by
  have hdrop : (Nat.toDigits 10 offset.natAbs ++ '(' :: rest).dropWhile isDecimal = '(' :: rest := by
    rw [← toList_toString_nat, dropWhile_append_of_pos fun _ => isDecimal_of_mem_toString]
    rfl
  split
  · rfl
  · rw [toList_toString_int]
    split
    · exact hdrop
    · rw [nil_append, skipMinus]
      · exact hdrop
      · rw [← toList_toString_nat]
        exact toString_append_ne _ _

theorem memoryFault?_render_mem {base : Register} (h : base ∈ wholeRegs) (offset : Int) :
    memoryFault? (Arg.mem offset base).render = none := by
  have hall : ∀ r ∈ wholeRegs, r.toList.all isNameChar = true := by decide
  have hname : ∀ c ∈ base.toList, isNameChar c = true := all_eq_true.1 (hall base h)
  have hbase : skipBase ('%' :: (base.toList ++ [')'])) = [')'] := by
    rw [skipBase, takeWhile_append_of_pos hname, dropWhile_append_of_pos hname,
      if_neg (by simp [(facts_of_mem_wholeRegs h).1])]
    rfl
  have hscale : scale? (Arg.mem offset base).render = some none := by
    rw [scale?, toList_render_mem, dropWhile_offset]
    simp only [hbase]
    rfl
  rw [memoryFault?, hscale]

theorem isMemory_eq_false {text : String} (h : ∀ c ∈ text.toList, isInert ['#'] c = true) :
    isMemory text = false := by
  simpa [isMemory, mentions] using (bracket_notMem h).1

theorem Arg.Proper.memoryFault?_render {a : Arg} (h : a.Proper) (hmem : isMemory a.render = true) :
    memoryFault? a.render = none := by
  cases a with
  | imm value =>
    rw [isMemory_eq_false (isInert_render_imm value)] at hmem
    cases hmem
  | reg r =>
    rw [isMemory_eq_false (isInert_render_reg h)] at hmem
    cases hmem
  | mem offset base => exact memoryFault?_render_mem h offset

theorem Instr.Proper.encodable_line {i : Instr} (h : i.Proper) : dialect.Encodable i.line := by
  have hreg : ∀ {r}, r ∈ wholeRegs → isMemory (Arg.reg r).render = false := fun hr =>
    isMemory_eq_false (isInert_render_reg hr)
  have himm : ∀ value, isMemory (Arg.imm value).render = false := fun value =>
    isMemory_eq_false (isInert_render_imm value)
  have hname : ∀ {name}, isReference name = true → isMemory name = false := fun hn =>
    isMemory_eq_false fun _ => isInert_of_isReference (by decide) hn
  have hfixed : isMemory "%al" = false ∧ isMemory "%rax" = false := by decide
  rw [Dialect.encodable_iff (item?_line h) fun _ => rfl]
  show ∀ op ∈ i.operands, isMemory op = true → memoryFault? op = none
  cases i <;> simp only [operands, forall_mem_cons, not_mem_nil, false_implies,
    implies_true, and_true]
  case movq => exact ⟨h.1.memoryFault?_render, h.2.1.memoryFault?_render⟩
  case movabsq => simp [himm, hreg h]
  case alu => exact ⟨h.1.memoryFault?_render, by simp [hreg h.2]⟩
  case cmpq => exact ⟨h.1.memoryFault?_render, h.2.memoryFault?_render⟩
  case testq => simp [hreg h.1, hreg h.2]
  case setcc | movzbq => simp [hfixed]
  case idivq | pushq => exact Arg.Proper.memoryFault?_render h
  case popq => simp [hreg h]
  case callq | jmp | jne => simp [hname h]

theorem encodable_lower {f : Frame} (hsaved : ∀ r ∈ f.saved, r ∈ target.calleeSaved) {s : Step}
    (hs : s.Regular target.valueRegs) :
    ∀ i ∈ lower f s, (∀ callee, i.line = (Instr.callq callee).line → isSymbol callee = true) →
      dialect.Encodable i.line := by
  intro i hi hcall
  rcases call_or_proper_of_mem_lower (fun _ => hsaved) hs i hi with ⟨callee, -, -, -, rfl⟩ | hproper
  · have hsymbol : isReference callee = true := isReference_of_isSymbol (hcall callee rfl)
    exact Instr.Proper.encodable_line (i := .callq callee) hsymbol
  · exact hproper.encodable_line

/-! ### Registers of operands -/

theorem percentNames_go_append {cs : List Char} (h : '%' ∉ cs) (rest : List Char) :
    percentNames.go (cs ++ rest) = percentNames.go rest := by
  induction cs with
  | nil => rfl
  | cons c cs ih =>
    rw [mem_cons, not_or] at h
    rw [cons_append, percentNames.go, decide_eq_false (Ne.symm h.1), ih h.2]
    rfl

def Arg.regs : Arg → List Register
  | imm _ => []
  | reg r => [r]
  | mem _ base => [base]

theorem percent_notMem_toString (value : Int) : '%' ∉ (toString value).toList := fun h => by
  have := isDigit_of_mem_toString_int h
  revert this
  decide

theorem Arg.Proper.percentNames_render (h : a.Proper) : percentNames a.render = a.regs := by
  cases a with
  | imm value =>
    have hlist : (imm value).render.toList = ('$' :: (toString value).toList) ++ [] := by
      rw [append_nil, render, String.toList_append]
      rfl
    have hpercent : '%' ∉ '$' :: (toString value).toList := by
      simpa using percent_notMem_toString value
    rw [percentNames, hlist, percentNames_go_append hpercent]
    rfl
  | reg r =>
    have hall : ∀ r ∈ wholeRegs, percentNames (reg r).render = [r] := by decide
    exact hall r h
  | mem offset base =>
    have hall : ∀ r ∈ wholeRegs,
        (percentNames.go ('(' :: '%' :: (r.toList ++ [')']))).map String.ofList = [r] := by
      decide
    rw [percentNames, toList_render_mem, percentNames_go_append, hall base h, regs]
    split
    · simp
    · exact percent_notMem_toString offset

theorem Arg.Proper.isRegister (h : a.Proper) :
    ∀ r ∈ percentNames a.render, registerNames.contains r = true := by
  have hall : ∀ r ∈ wholeRegs, registerNames.contains r = true := by decide
  rw [h.percentNames_render]
  cases a with
  | imm value => simp [regs]
  | reg r | mem offset r => exact forall_mem_singleton.2 (hall r h)

/-! ### Kinds of operands -/

theorem Arg.Proper.isMemory_render (h : a.Proper) : isMemory a.render = a.isMem := by
  cases a with
  | imm value => exact isMemory_eq_false (isInert_render_imm value)
  | reg r => exact isMemory_eq_false (isInert_render_reg h)
  | mem offset base =>
    rw [isMemory, mentions, toList_render_mem]
    simp [isMem]

theorem isImmediate_render_reg (r : Register) : isImmediate (Arg.reg r).render = false := by
  simp [isImmediate, startsWith, Arg.render, String.toList_append]

theorem isImmediate_render_mem (offset : Int) (base : Register) :
    isImmediate (Arg.mem offset base).render = false := by
  rw [isImmediate, startsWith, beq_eq_false_iff_ne]
  exact head?_render_mem offset base (by simp)

/-- A place that can be written. -/
def Arg.IsPlace (a : Arg) : Prop := ∀ value, a ≠ imm value

theorem Arg.IsPlace.isImmediate_render (h : a.IsPlace) : isImmediate a.render = false := by
  cases a with
  | imm value => exact absurd rfl (h value)
  | reg r => exact isImmediate_render_reg r
  | mem offset base => exact isImmediate_render_mem offset base

/-- At most one operand is in memory, and the destination is no literal. -/
def Instr.Fitting : Instr → Prop
  | movq src dst => dst.IsPlace ∧ (src.isMem && dst.isMem) = false
  | cmpq src dst => (src.isMem && dst.isMem) = false
  | _ => True

/-! ### Legal instructions -/

section Legal

variable {i : Instr} (h : i.Proper) (n : Nat) (text : String)

include h in
theorem Instr.Proper.nameFaults_eq_nil :
    dialect.nameFaults ⟨i.mnemonic, i.operands, n, text⟩ = [] := by
  have hm : dialect.isMnemonic i.mnemonic = true := by
    simpa [dialect] using mnemonic_mem i
  have hbranch : ∀ m ∈ ["callq", "jmp", "jne"],
      (isJump m || ["call", "callq"].contains m) = true := by decide
  have hbyte : ∀ r ∈ percentNames "%al", registerNames.contains r = true := by decide
  have hacc : ∀ r ∈ percentNames "%rax", registerNames.contains r = true := by decide
  cases i with
  | callq callee | jmp label | jne label =>
    refine Dialect.nameFaults_eq_nil hm fun o ho hlabel => absurd ?_ hlabel
    rw [mem_singleton.1 ho]
    exact if_pos (hbranch _ (by simp [Instr.mnemonic]))
  | movq src dst =>
    exact Dialect.nameFaults_eq_nil_of_forall hm (forall_mem_cons.2
      ⟨h.1.isRegister, forall_mem_singleton.2 h.2.1.isRegister⟩)
  | movabsq value dst =>
    exact Dialect.nameFaults_eq_nil_of_forall hm (forall_mem_cons.2
      ⟨Arg.Proper.isRegister (a := .imm value) trivial,
        forall_mem_singleton.2 (Arg.Proper.isRegister (a := .reg dst) h)⟩)
  | alu op src dst =>
    exact Dialect.nameFaults_eq_nil_of_forall hm (forall_mem_cons.2
      ⟨h.1.isRegister, forall_mem_singleton.2 (Arg.Proper.isRegister (a := .reg dst) h.2)⟩)
  | cmpq src dst =>
    exact Dialect.nameFaults_eq_nil_of_forall hm (forall_mem_cons.2
      ⟨h.1.isRegister, forall_mem_singleton.2 h.2.isRegister⟩)
  | testq src dst =>
    exact Dialect.nameFaults_eq_nil_of_forall hm (forall_mem_cons.2
      ⟨Arg.Proper.isRegister (a := .reg src) h.1,
        forall_mem_singleton.2 (Arg.Proper.isRegister (a := .reg dst) h.2)⟩)
  | setcc cond => exact Dialect.nameFaults_eq_nil_of_forall hm (forall_mem_singleton.2 hbyte)
  | movzbq =>
    exact Dialect.nameFaults_eq_nil_of_forall hm (forall_mem_cons.2
      ⟨hbyte, forall_mem_singleton.2 hacc⟩)
  | idivq arg | pushq arg =>
    exact Dialect.nameFaults_eq_nil_of_forall hm
      (forall_mem_singleton.2 (Arg.Proper.isRegister h))
  | popq dst =>
    exact Dialect.nameFaults_eq_nil_of_forall hm
      (forall_mem_singleton.2 (Arg.Proper.isRegister (a := .reg dst) h))
  | cqto | retq => exact Dialect.nameFaults_eq_nil_of_forall hm (by simp [Instr.operands])

theorem Instr.Fitting.destinationFaults_eq_nil (hfit : i.Fitting) :
    dialect.destinationFaults ⟨i.mnemonic, i.operands, n, text⟩ = [] := by
  -- the last operand is the destination
  have hlast : (∀ o ∈ i.operands.getLast?, destinations ⟨i.mnemonic, i.operands, n, text⟩ ≠ [] →
      isImmediate o = false) →
      dialect.destinationFaults ⟨i.mnemonic, i.operands, n, text⟩ = [] := by
    intro hlast
    refine Dialect.destinationFaults_eq_nil fun k hk o ho => ?_
    refine hlast o ?_ (ne_nil_of_mem hk)
    simp only [dialect, destinations] at hk
    split at hk
    · cases hk
    · rw [getLast?_eq_getElem?, ← mem_singleton.1 hk]
      exact ho
  refine hlast fun o ho hdst => ?_
  cases i with
  | movq src dst =>
    cases ho
    exact hfit.1.isImmediate_render
  | movabsq value dst | alu op src dst | popq dst =>
    cases ho
    exact isImmediate_render_reg dst
  | setcc cond | movzbq =>
    cases ho
    decide
  | cqto | retq => cases ho
  | cmpq src dst | testq src dst | idivq arg | pushq arg | callq callee => exact absurd rfl hdst
  | jmp label | jne label =>
    have hjump : isJump "jmp" = true ∧ isJump "jne" = true := by decide
    simp [destinations, Instr.mnemonic, hjump] at hdst

include h in
theorem Instr.Proper.operandFaults_eq_nil (hfit : i.Fitting) :
    dialect.operandFaults ⟨i.mnemonic, i.operands, n, text⟩ = [] := by
  have hcount : i.operands.countP isMemory ≤ 1 := by
    have hone : ∀ o : String, [o].countP isMemory ≤ 1 := fun o => countP_le_length
    have htwo : ∀ src dst : Arg, src.Proper → dst.Proper → (src.isMem && dst.isMem) = false →
        [src.render, dst.render].countP isMemory ≤ 1 := by
      intro src dst hsrc hdst hmem
      rw [countP_cons, countP_singleton, hsrc.isMemory_render, hdst.isMemory_render]
      revert hmem
      cases src.isMem <;> cases dst.isMem <;> decide
    cases i with
    | movq src dst => exact htwo src dst h.1 h.2.1 hfit.2
    | cmpq src dst => exact htwo src dst h.1 h.2 hfit
    | movabsq value dst => exact htwo (.imm value) (.reg dst) trivial h rfl
    | alu op src dst => exact htwo src (.reg dst) h.1 h.2 (Bool.and_false _)
    | testq src dst => exact htwo (.reg src) (.reg dst) h.1 h.2 rfl
    | movzbq => decide
    | setcc _ | idivq _ | pushq _ | popq _ | callq _ | jmp _ | jne _ => exact hone _
    | cqto | retq => simp [Instr.operands]
  exact if_neg (Nat.not_lt.2 hcount)

include h in
theorem Instr.Proper.legal (hfit : i.Fitting) :
    dialect.Legal ⟨i.mnemonic, i.operands, n, text⟩ where
  names := h.nameFaults_eq_nil n text
  destinations := hfit.destinationFaults_eq_nil n text
  operands := h.operandFaults_eq_nil n text hfit

include h in
theorem Instr.Proper.legalLine (hfit : i.Fitting) : dialect.LegalLine i.line := by
  intro n asm hasm
  rw [item?_line h] at hasm
  cases hasm
  exact h.legal n i.render hfit

end Legal

/-! ### Steps -/

variable {rs : List Register} {f : Frame} {s : Step}

theorem isPlace_reg (r : Register) : (Arg.reg r).IsPlace := fun _ => Arg.noConfusion

theorem isPlace_mem (offset : Int) (base : Register) : (Arg.mem offset base).IsPlace := fun _ =>
  Arg.noConfusion

theorem Emitted.fitting {i : Instr} (h : Emitted rs s i) : i.Fitting := by
  cases h with
  | load => exact ⟨isPlace_reg _, Bool.and_false _⟩
  | store _ hmem => exact ⟨isPlace_mem _ _, by rw [hmem, Bool.false_and]⟩
  | cmpq _ _ hmem => exact hmem
  | _ => trivial

theorem Framed.fitting {i : Instr} (h : Framed f i) : i.Fitting := by
  cases h with
  | setFrame => exact ⟨isPlace_reg _, rfl⟩
  | _ => trivial

theorem fitting_lower (hs : s.Regular rs) : ∀ i ∈ lower f s, i.Fitting := by
  intro i hi
  by_cases h : s = .epilogue
  · subst h
    exact (framed_epilogue f i hi).fitting
  · exact (emitted_lower hs h i hi).fitting

end SsaBackend.Amd64
