import SsaBackend.Proofs.Arm64.Footprint
import SsaBackend.Proofs.Arm64.Peephole
import SsaBackend.Proofs.Check.Legal

/-!
# Legal instructions of arm64

Whatever code generation writes is legal (`Instr.Proper.legal`), and so is whatever the rules make of
it (`Made.legal`): all operands are registers, addresses, literals and words that the dialect knows,
and every destination is a register.

Loads and stores of words reach up to `maxOffset`. Words of the frame that are further away are
addressed through a register, so that all but the parameters on the stack are in reach
(`inReach_of_mem_lower`).
-/

namespace SsaBackend.Arm64

open Asm List Listing Text

variable {ops : List String} {m : String}

/-! ### Operands -/

def Named (operand : String) : Prop := ∀ r ∈ registers operand, registerNames.contains r = true

theorem named_of_eq {operand : String} {rs : List Register} (h : registers operand = rs)
    (hrs : ∀ r ∈ rs, r ∈ wholeRegs) : Named operand := by
  have hall : ∀ r ∈ wholeRegs, registerNames.contains r = true := by decide
  rw [Named, h]
  exact fun r hr => hall r (hrs r hr)

theorem named_of_mem {r : Register} (h : r ∈ wholeRegs) : Named r :=
  named_of_eq (registers_of_mem h) (forall_mem_singleton.2 h)

theorem Arg.Proper.named {a : Arg} (h : a.Proper) : Named a.render := by
  refine named_of_eq h.registers_render ?_
  cases a with
  | imm value => simp [Arg.regs]
  | reg r => exact forall_mem_singleton.2 h

theorem Address.named {a : Address} (h : a.base ∈ wholeRegs) : Named a.render :=
  named_of_eq (a.registers_render h) (forall_mem_singleton.2 h)

theorem named_number (text : String) : Named ("#" ++ text) := by
  rw [Named, registers, if_pos (isImmediate_number text)]
  simp

theorem registers_push (amount : Nat) :
    registers ("[sp, #-" ++ toString amount ++ "]!") = ["sp"] := by
  have hlist : ("[sp, #-" ++ toString amount ++ "]!").toList =
      '[' :: ("sp".toList ++ (',' :: ' ' :: '#' :: '-' ::
        ((toString (amount : Int)).toList ++ [']', '!']))) := by
    rw [String.toList_append, String.toList_append, append_assoc]
    rfl
  refine registers_eq (by decide) (by rw [isImmediate, Text.startsWith, hlist]; rfl) ?_
  rw [hlist, nameRuns_cons (by decide), nameRuns_name (by decide) (by simp; decide),
    nameRuns_cons (by decide), nameRuns_cons (by decide), nameRuns_cons (by decide),
    nameRuns_cons (by decide), nameRuns_toString_int _ (by simp; decide)]
  rfl

theorem named_chunkOperands {dst : Register} (h : dst ∈ wholeRegs) (chunk shift : Nat) :
    ∀ o ∈ Instr.chunkOperands dst chunk shift, Named o := by
  unfold Instr.chunkOperands
  dsimp only
  split
  · exact forall_mem_cons.2 ⟨named_of_mem h, forall_mem_singleton.2 (named_number _)⟩
  · simp only [forall_mem_cons]
    exact ⟨named_of_mem h, named_number _, named_of_eq (registers_shift shift) (by simp), by simp⟩

theorem isImmediate_of_mem {r : Register} (h : r ∈ wholeRegs) : isImmediate r = false :=
  (facts_of_mem_wholeRegs h).2.2.2

/-! ### Legal instructions -/

theorem legal_of_named (hm : m ∈ mnemonics) (hops : ∀ o ∈ ops, Named o) {n : Nat} {text : String}
    (hdst : ∀ k ∈ destinations ⟨m, ops, n, text⟩, ∃ r ∈ wholeRegs, ops[k]? = some r) :
    dialect.Legal ⟨m, ops, n, text⟩ where
  names := Dialect.nameFaults_eq_nil_of_forall (by simpa [dialect] using hm) hops
  destinations := Dialect.destinationFaults_eq_nil fun k hk o ho => by
    obtain ⟨r, hr, hk⟩ := hdst k hk
    cases hk.symm.trans ho
    exact isImmediate_of_mem hr
  operands := rfl

theorem mem_destinations (hm : m ≠ "ldp") {dst : Register} (hdst : dst ∈ wholeRegs)
    (rest : List String) (n : Nat) (text : String) :
    ∀ k ∈ destinations ⟨m, dst :: rest, n, text⟩, ∃ r ∈ wholeRegs, (dst :: rest)[k]? = some r := by
  intro k hk
  rw [destinations, if_neg (show ¬ m = "ldp" from hm)] at hk
  split at hk
  · cases hk
  · rw [if_neg (by simp)] at hk
    rw [mem_singleton.1 hk]
    exact ⟨dst, hdst, rfl⟩

theorem Instr.Proper.legal {i : Instr} (h : i.Proper) (n : Nat) (text : String) :
    dialect.Legal ⟨i.mnemonic, i.operands, n, text⟩ := by
  have hm := mnemonic_mem i
  -- the only operand of a jump or call is a label, so no register is looked for in it
  have hbranch : ∀ {m label : String}, m ∈ ["b", "bl"] → m ∈ mnemonics →
      dialect.Legal ⟨m, [label], n, text⟩ := by
    intro m label hbl hm
    have hall : ∀ m ∈ ["b", "bl"], (["b", "bl"].contains m || isCondBranch m) = true ∧
        (withoutDestination.contains m || isCondBranch m) = true := by decide
    obtain ⟨hlabel, hwithout⟩ := hall m hbl
    refine ⟨Dialect.nameFaults_eq_nil (by simpa [dialect] using hm) fun o ho hne => ?_, ?_, rfl⟩
    · refine absurd ?_ hne
      rw [mem_singleton.1 ho]
      exact if_pos hlabel
    · exact Dialect.destinationFaults_eq_nil fun k hk => by
        rw [show dialect.destinations ⟨m, [label], n, text⟩ = [] from if_pos hwithout] at hk
        cases hk
  cases i with
  | mov dst src =>
    refine legal_of_named hm ?_ (mem_destinations (m := "mov") (by decide) h.1 _ n text)
    exact forall_mem_cons.2 ⟨named_of_mem h.1, forall_mem_singleton.2 h.2.named⟩
  | movz dst chunk shift =>
    refine legal_of_named hm (named_chunkOperands h.1 chunk shift) ?_
    obtain ⟨rest, hrest, -⟩ := chunkOperands_eq dst chunk h.2.2
    rw [hrest]
    exact mem_destinations (m := "movz") (by decide) h.1 _ n text
  | movk dst chunk shift =>
    refine legal_of_named hm (named_chunkOperands h.1 chunk shift) ?_
    obtain ⟨rest, hrest, -⟩ := chunkOperands_eq dst chunk h.2.2
    rw [hrest]
    exact mem_destinations (m := "movk") (by decide) h.1 _ n text
  | alu op dst lhs rhs =>
    have hpair : op.mnemonic ≠ "ldp" := by cases op <;> decide
    refine legal_of_named hm ?_ (mem_destinations hpair h.1 _ n text)
    exact forall_mem_cons.2 ⟨named_of_mem h.1, forall_mem_cons.2
      ⟨named_of_mem h.2.1, forall_mem_singleton.2 h.2.2.1.named⟩⟩
  | cmp lhs rhs =>
    refine legal_of_named hm ?_ (mem_destinations (m := "cmp") (by decide) h.1 _ n text)
    exact forall_mem_cons.2 ⟨named_of_mem h.1, forall_mem_singleton.2 h.2.named⟩
  | cset dst cond =>
    refine legal_of_named hm ?_ (mem_destinations (m := "cset") (by decide) h _ n text)
    exact forall_mem_cons.2 ⟨named_of_mem h,
      forall_mem_singleton.2 (named_of_eq cond.registers_name (by simp))⟩
  | ldr dst address =>
    refine legal_of_named hm ?_ (mem_destinations (m := "ldr") (by decide) h.1 _ n text)
    exact forall_mem_cons.2 ⟨named_of_mem h.1,
      forall_mem_singleton.2 (Address.named h.2.1)⟩
  | str src address =>
    refine legal_of_named hm ?_ (mem_destinations (m := "str") (by decide) h.1 _ n text)
    exact forall_mem_cons.2 ⟨named_of_mem h.1, forall_mem_singleton.2 (Address.named h.2)⟩
  | stpPush first second amount =>
    refine legal_of_named hm ?_ (mem_destinations (m := "stp") (by decide) h.1 _ n text)
    exact forall_mem_cons.2 ⟨named_of_mem h.1, forall_mem_cons.2 ⟨named_of_mem h.2,
      forall_mem_singleton.2 (named_of_eq (registers_push amount) (by decide))⟩⟩
  | ldpPop first second amount =>
    -- the one instruction with two destinations
    have hsp : registers "[sp]" = ["sp"] := by decide
    refine legal_of_named hm ?_ fun k hk => ?_
    · simp only [operands, forall_mem_cons]
      exact ⟨named_of_mem h.1, named_of_mem h.2, named_of_eq hsp (by decide), named_number _, by simp⟩
    · have hcond : isCondBranch "ldp" = false := by decide
      have hpair : destinations ⟨"ldp", operands (.ldpPop first second amount), n, text⟩ = [0, 1] := by
        simp [destinations, hcond, withoutDestination]
      rw [show (ldpPop first second amount).mnemonic = "ldp" from rfl, hpair] at hk
      rcases mem_cons.1 hk with rfl | hk
      · exact ⟨first, h.1, rfl⟩
      · rw [mem_singleton.1 hk]
        exact ⟨second, h.2, rfl⟩
  | b label => exact hbranch (m := "b") (by simp) hm
  | bl callee => exact hbranch (m := "bl") (by simp) hm
  | cbnz cond label =>
    refine ⟨Dialect.nameFaults_eq_nil (by simpa [dialect] using hm) fun o ho hne => ?_, ?_, rfl⟩
    · rcases mem_cons.1 (show o ∈ [(cond, 0), (label, 1)] from ho) with rfl | ho
      · exact named_of_mem h.1
      · rw [mem_singleton.1 ho] at hne
        have hcond : isCondBranch "cbnz" = false := by decide
        exact absurd (by simp [dialect, labelOperand?, mnemonic, hcond]) hne
    · refine Dialect.destinationFaults_eq_nil fun k hk => ?_
      cases (show k ∈ [] from hk)
  | ret | paciasp | autiasp =>
    refine legal_of_named hm (by simp [operands]) fun k hk => ?_
    simp [destinations, operands, mnemonic] at hk

theorem Instr.Proper.legalLine {i : Instr} (h : i.Proper) : dialect.LegalLine i.line := by
  intro n asm hasm
  rw [item?_line h] at hasm
  cases hasm
  exact h.legal n i.render

theorem Made.legal {i j : AsmInstr} (h : Made i j m ops) (n : Nat) (text : String) :
    dialect.Legal ⟨m, ops, n, text⟩ := by
  cases h with
  | lsl _ _ hdst hother k =>
    refine legal_of_named (by decide) ?_ (mem_destinations (by decide) hdst _ n text)
    simp only [forall_mem_cons]
    exact ⟨named_of_mem hdst, named_of_mem hother, named_number _, by simp⟩
  | stp _ _ _ _ hlow hhigh hbase =>
    refine legal_of_named (by decide) ?_ (mem_destinations (by decide) hlow _ n text)
    simp only [forall_mem_cons]
    exact ⟨named_of_mem hlow, named_of_mem hhigh, Address.named hbase, by simp⟩
  | tst _ _ hreg =>
    refine legal_of_named (by decide) ?_ (mem_destinations (by decide) hreg _ n text)
    simp only [forall_mem_cons]
    exact ⟨named_of_mem hreg, named_of_mem hreg, by simp⟩
  | madd _ _ hdst hlhs hrhs haddend =>
    refine legal_of_named (by decide) ?_ (mem_destinations (by decide) hdst _ n text)
    simp only [forall_mem_cons]
    exact ⟨named_of_mem hdst, named_of_mem hlhs, named_of_mem hrhs, named_of_mem haddend, by simp⟩

theorem Made.legalLine {i j : AsmInstr} (h : Made i j m ops) :
    dialect.LegalLine (.instruction (Assembly.instructionText m ops)) := by
  intro n asm hasm
  rw [h.item?_line] at hasm
  cases hasm
  exact h.legal n _

variable {text : String}

/-! ### Addresses -/

theorem run?_append {p : Char → Bool} {run : List Char} (hrun : ∀ c ∈ run, p c = true)
    (hne : run ≠ []) {c : Char} (hc : p c = false) (rest : List Char) :
    run? p (run ++ c :: rest) = some (run, c :: rest) := by
  have htake : (run ++ c :: rest).takeWhile p = run := by
    simp [takeWhile_append_of_pos hrun, hc]
  have hdrop : (run ++ c :: rest).dropWhile p = c :: rest := by
    simp [dropWhile_append_of_pos hrun, hc]
  rw [run?, htake, hdrop, if_neg (by simpa using hne)]

theorem run?_base {r : Register} (h : r ∈ wholeRegs) {c : Char} (hc : isNameChar c = false)
    (rest : List Char) : run? isNameChar (r.toList ++ c :: rest) = some (r.toList, c :: rest) := by
  have hall : ∀ r ∈ wholeRegs, r.toList.all isNameChar = true := by decide
  exact run?_append (all_eq_true.1 (hall r h)) (facts_of_mem_wholeRegs h).1 hc rest

theorem skip?_append (lead : String) (rest : List Char) : skip? lead (lead.toList ++ rest) = some rest := by
  rw [skip?, if_pos (by simp), ← String.length_toList, drop_left]

theorem run?_toString (n : Nat) (rest : List Char) :
    run? isDecimal ((toString n).toList ++ ']' :: rest) =
      some ((toString n).toList, ']' :: rest) :=
  run?_append (fun _ => isDecimal_of_mem_toString) (toString_int_ne_nil n) (by decide) rest

theorem offset?_toString (n : Nat) (rest : List Char) :
    offset? ((toString n).toList ++ ']' :: rest) = some ((toString n).toList, ']' :: rest) := by
  rw [offset?]
  · exact run?_toString n rest
  · exact toString_append_ne n _

theorem offset?_neg_toString (n : Nat) (rest : List Char) :
    offset? ('-' :: (toString n).toList ++ ']' :: rest) =
      some ('-' :: (toString n).toList, ']' :: rest) := by
  rw [cons_append, offset?, run?_toString, Option.map_some]

theorem memoryOperand?_base {base : Register} (h : base ∈ wholeRegs)
    (htext : text.toList = "[".toList ++ (base.toList ++ [']'])) :
    memoryOperand? text = some ⟨base, none, none, false⟩ := by
  have hbase := run?_base h (show isNameChar ']' = false by decide) []
  rw [memoryOperand?, htext, skip?_append, Option.bind_eq_bind, Option.bind_some, hbase,
    Option.bind_eq_bind, Option.bind_some]
  simp only [String.ofList_toList]
  rfl

theorem memoryOperand?_offset {text : String} {base : Register} (h : base ∈ wholeRegs)
    {offset rest : List Char} {writeback : Bool}
    (htext : text.toList = "[".toList ++ (base.toList ++ (", #".toList ++ (offset ++ rest))))
    (hoffset : offset? (offset ++ rest) = some (offset, rest)) (hrest : closing? rest = some writeback) :
    memoryOperand? text = some ⟨base, some (String.ofList offset), none, writeback⟩ := by
  have hbase := run?_base h (show isNameChar ',' = false by decide) (' ' :: '#' :: (offset ++ rest))
  have hcomma : skip? ", #" (',' :: ' ' :: '#' :: (offset ++ rest)) = some (offset ++ rest) :=
    skip?_append ", #" _
  rw [memoryOperand?, htext, skip?_append, Option.bind_eq_bind, Option.bind_some]
  simp only [show ", #".toList ++ (offset ++ rest) = ',' :: ' ' :: '#' :: (offset ++ rest) from rfl,
    hbase, hcomma, hoffset, hrest, Option.bind_eq_bind, Option.bind_some, String.ofList_toList]
  rfl

theorem offsetFault?_eq_none_iff {n : Int} (h : int64? text = word? n) :
    offsetFault? text = none ↔ -256 ≤ n ∧ n ≤ 32760 := by
  have hrange : (∃ w, word? n = some w ∧ -256 ≤ w.toInt ∧ w.toInt ≤ 32760) ↔
      -256 ≤ n ∧ n ≤ 32760 := exists_word?_iff (by decide) (by decide)
  rw [← hrange, offsetFault?, h]
  cases word? n <;> simp

theorem memoryFault?_of_offset {offset : String} {base : Register} {writeback : Bool}
    (h : memoryOperand? text = some ⟨base, some offset, none, writeback⟩) :
    memoryFault? text = offsetFault? offset := by
  simp [memoryFault?, h]

theorem Address.memoryFault?_render {a : Address} (h : a.base ∈ wholeRegs) :
    memoryFault? a.render = none ↔ a.offset ≤ maxOffset := by
  have htext := a.toList_render
  rw [inner] at htext
  split at htext
  · next hzero =>
    rw [append_nil] at htext
    simp [memoryFault?, memoryOperand?_base h htext, hzero]
  · have hread := memoryOperand?_offset h (by simpa [String.toList_append] using htext)
      (offset?_toString a.offset []) (show closing? [']'] = some false from rfl)
    rw [String.ofList_toList] at hread
    rw [memoryFault?_of_offset hread, offsetFault?_eq_none_iff (int64?_toString_nat a.offset),
      maxOffset]
    omega

theorem memoryFault?_push (amount : Nat) :
    memoryFault? ("[sp, #-" ++ toString amount ++ "]!") = none ↔ amount ≤ 256 := by
  have htext : ("[sp, #-" ++ toString amount ++ "]!").toList =
      "[".toList ++ ("sp".toList ++ (", #".toList ++ ('-' :: (toString amount).toList ++ [']', '!']))) := by
    simp [String.toList_append]
  have hread := memoryOperand?_offset (show "sp" ∈ wholeRegs by decide) htext
    (offset?_neg_toString amount ['!']) (show closing? [']', '!'] = some true from rfl)
  have hoffset : String.ofList ('-' :: (toString amount).toList) = "-" ++ toString amount := by
    simp [← String.toList_inj]
  rw [hoffset] at hread
  rw [memoryFault?_of_offset hread, offsetFault?_eq_none_iff (int64?_neg_toString amount)]
  omega

/-! ### Lines -/

def Instr.InReach : Instr → Prop
  | ldr _ address => address.offset ≤ maxOffset
  | str _ address => address.offset ≤ maxOffset
  | stpPush _ _ amount => amount ≤ 256
  | _ => True

theorem isMemory_eq_false (h : ∀ c ∈ text.toList, isInert ['/', '/'] c = true) :
    isMemory text = false := by
  rw [isMemory, startsWith, beq_eq_false_iff_ne]
  exact fun hhead => (bracket_notMem h).2 (mem_of_head? hhead)

theorem isMemory_push (amount : Nat) : isMemory ("[sp, #-" ++ toString amount ++ "]!") = true := by
  simp [isMemory, startsWith, String.toList_append]

theorem Arg.Proper.isMemory_render {a : Arg} (h : a.Proper) : isMemory a.render = false := by
  cases a with
  | imm value =>
    exact isMemory_eq_false (isInert_number fun _ => isInert_of_mem_toString (by decide))
  | reg r => exact isMemory_eq_false (facts_of_mem_wholeRegs h).2.1

theorem isMemory_chunkOperands {dst : Register} (h : dst ∈ wholeRegs) (chunk shift : Nat) :
    ∀ op ∈ Instr.chunkOperands dst chunk shift, isMemory op = false := by
  have hreg : isMemory dst = false := isMemory_eq_false (facts_of_mem_wholeRegs h).2.1
  have himm : isMemory (Arg.imm chunk).render = false :=
    Arg.Proper.isMemory_render (a := .imm chunk) trivial
  have hshift : isMemory ("lsl #" ++ toString shift) = false := by
    simp [isMemory, startsWith, String.toList_append]
  unfold Instr.chunkOperands
  split
  · exact forall_mem_cons.2 ⟨hreg, forall_mem_singleton.2 himm⟩
  · exact forall_mem_cons.2 ⟨hreg, forall_mem_cons.2 ⟨himm, forall_mem_singleton.2 hshift⟩⟩

theorem Instr.Proper.encodable_line_iff {i : Instr} (h : i.Proper) :
    dialect.Encodable i.line ↔ i.InReach := by
  have hreg : ∀ {r}, r ∈ wholeRegs → isMemory r = false := fun hr =>
    isMemory_eq_false (facts_of_mem_wholeRegs hr).2.1
  have hname : ∀ {name}, isReference name = true → isMemory name = false := fun hn =>
    isMemory_eq_false fun _ => isInert_of_isReference (by decide) hn
  have hpop : memoryFault? "[sp]" = none := by decide
  rw [Dialect.encodable_iff (item?_line h) fun _ => rfl]
  show (∀ op ∈ i.operands, isMemory op = true → memoryFault? op = none) ↔ _
  cases i <;> simp only [operands, InReach, forall_mem_cons, not_mem_nil, false_implies,
    implies_true, and_true]
  case mov => simp [hreg h.1, h.2.isMemory_render]
  case movz | movk =>
    refine iff_true_intro fun op hop hmem => ?_
    rw [isMemory_chunkOperands h.1 _ _ op hop] at hmem
    cases hmem
  case alu => simp [hreg h.1, hreg h.2.1, h.2.2.1.isMemory_render]
  case cmp => simp [hreg h.1, h.2.isMemory_render]
  case cset dst cond =>
    have hcond : isMemory cond.name = false := by cases cond <;> decide
    simp [hreg h, hcond]
  case ldr => simp [hreg h.1, Address.isMemory_render, Address.memoryFault?_render h.2.1]
  case str => simp [hreg h.1, Address.isMemory_render, Address.memoryFault?_render h.2]
  case stpPush first second amount =>
    simp only [hreg h.1, hreg h.2, isMemory_push, memoryFault?_push, Bool.false_eq_true,
      false_implies, true_implies, true_and]
  case ldpPop first second amount =>
    simp [hreg h.1, hreg h.2, hpop, Arg.Proper.isMemory_render (a := .imm amount) trivial]
  case b | bl => simp [hname h]
  case cbnz => simp [hreg h.1, hname h.2]

/-! ### Steps -/

theorem Literal.inReach {dst : Register} {i : Instr} (h : Literal dst i) : i.InReach := by
  cases h <;> trivial

theorem Framed.inReach {f : Frame} {i : Instr} (h : Framed f i) : i.InReach := by
  cases h with
  | literal _ h => exact h.inReach
  | save _ offset | restore _ offset => exact (offset_spAddress offset).2
  | push => exact show fixedArea ≤ 256 by decide
  | _ => trivial

variable (f : Frame)

theorem inReach_of_mem_lower (options : Options) {s : Step} (hs : s.Regular target.valueRegs)
    (hnear : ∀ index dst, s = .incoming index dst → index < 4094) :
    ∀ i ∈ lower options f s, i.InReach := by
  intro i hi
  by_cases hreturn : s = .epilogue
  · subst hreturn
    exact (framed_epilogue options f i hi).inReach
  · cases emitted_lower options hs.within hreturn i hi with
    | own h => cases h with
      | literal _ h => exact h.inReach
      | _ => trivial
    | load _ offset => exact (offset_spAddress offset).2
    | fetch heq =>
      have hindex := hnear _ _ heq
      exact show fixedArea + 8 * _ ≤ maxOffset by simp only [fixedArea, maxOffset]; omega
    | store => exact (offset_spAddress _).2
    | storeAt => exact Nat.zero_le _
    | _ => trivial

theorem exists_mem_incoming (index : Nat) (o : Operand) :
    ∃ r, Instr.ldr r ⟨"x29", fixedArea + 8 * index⟩ ∈ incoming f index o := by
  cases o with
  | register r => exact ⟨r, mem_cons_self⟩
  | immediate | stack => exact ⟨tmp0, mem_cons_self⟩

/-! ### Steps in lines -/

theorem line_ldr_ne (dst : Register) (address : Address) (callee : String) :
    (Instr.ldr dst address).line ≠ (Instr.bl callee).line := by
  intro heq
  have hhead := congrArg (fun text => text.toList.head?) (Line.instruction.inj heq)
  simp [Instr.render, toList_instructionText, Instr.mnemonic] at hhead

variable {f} (hsaved : ∀ r ∈ f.saved, r ∈ target.calleeSaved)

include hsaved

theorem encodable_prologue (options : Options) :
    ∀ i ∈ prologue options f, dialect.Encodable i.line := fun i hi =>
  (prologue_proper hsaved options i hi).encodable_line_iff.2 (framed_prologue options f i hi).inReach

theorem encodable_lower_iff (options : Options) {s : Step} (hs : s.Regular target.valueRegs) :
    (∀ i ∈ lower options f s, (∀ callee, i.line = (Instr.bl callee).line → isSymbol callee = true) →
      dialect.Encodable i.line) ↔ ∀ index dst, s = .incoming index dst → index < 4094 := by
  have hproper : ∀ i ∈ lower options f s,
      (∀ callee, i.line = (Instr.bl callee).line → isSymbol callee = true) → i.Proper := by
    intro i hi hcall
    rcases call_or_proper_of_mem_lower (fun _ => hsaved) options hs i hi with ⟨callee, -, -, -, rfl⟩ | hproper
    · exact isReference_of_isSymbol (hcall callee rfl)
    · exact hproper
  constructor
  · rintro h index dst rfl
    obtain ⟨r, hr⟩ := exists_mem_incoming f index dst
    have hcall : ∀ callee, (Instr.ldr r ⟨"x29", fixedArea + 8 * index⟩).line = (Instr.bl callee).line →
        isSymbol callee = true := fun callee heq => absurd heq (line_ldr_ne _ _ callee)
    have hreach : fixedArea + 8 * index ≤ maxOffset :=
      (hproper _ hr hcall).encodable_line_iff.1 (h _ hr hcall)
    simp only [fixedArea, maxOffset] at hreach
    omega
  · intro h i hi hcall
    exact (hproper i hi hcall).encodable_line_iff.2 (inReach_of_mem_lower f options hs h i hi)

end SsaBackend.Arm64
