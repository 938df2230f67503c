import SsaBackend.Arm64.Select
import SsaBackend.Proofs.Listing
import SsaBackend.Proofs.Semantics.Arm64

/-!
# Decoding what code generation for arm64 writes

The text of an instruction decodes to that instruction (`decode_render`), and its operands can be
read back from a line (`item?_line`). Registers and literals are told apart by the number
sign, and an address by its brackets, so both need to know that register names have no such
characters.
-/

namespace SsaBackend.Arm64

open List Listing Text

variable {r base : Register} {i : Instr} {a : Address}

def wholeRegs : List Register := numbered "x" 31 ++ ["sp"]

theorem facts_of_mem_wholeRegs (h : r ∈ wholeRegs) :
    r.toList ≠ [] ∧ (∀ c ∈ r.toList, isInert ['/', '/'] c = true) ∧ Asm.isPlain r = true ∧
      isImmediate r = false := by
  have hall : ∀ r ∈ wholeRegs, r.toList ≠ [] ∧ r.toList.all (isInert ['/', '/']) = true ∧
      Asm.isPlain r = true ∧ isImmediate r = false := by decide
  obtain ⟨hne, hinert, hrest⟩ := hall r h
  exact ⟨hne, all_eq_true.1 hinert, hrest⟩

def Arg.Proper : Arg → Prop
  | imm _ => True
  | reg r => r ∈ wholeRegs

def Instr.Proper : Instr → Prop
  | mov dst src => dst ∈ wholeRegs ∧ src.Proper
  | movz dst chunk shift => dst ∈ wholeRegs ∧ chunk < 65536 ∧ shift < 64
  | movk dst chunk shift => dst ∈ wholeRegs ∧ chunk < 65536 ∧ shift < 64
  | alu op dst lhs rhs =>
    dst ∈ wholeRegs ∧ lhs ∈ wholeRegs ∧ rhs.Proper ∧ (op = .mul → ∃ r, rhs = .reg r)
  | cmp lhs rhs => lhs ∈ wholeRegs ∧ rhs.Proper
  | cset dst _ => dst ∈ wholeRegs
  | ldr dst address => dst ∈ wholeRegs ∧ address.base ∈ wholeRegs ∧ address.base ≠ dst
  | str src address => src ∈ wholeRegs ∧ address.base ∈ wholeRegs
  | stpPush first second _ => first ∈ wholeRegs ∧ second ∈ wholeRegs
  | ldpPop first second _ => first ∈ wholeRegs ∧ second ∈ wholeRegs
  | b label => isReference label = true
  | bl callee => isReference callee = true
  | cbnz cond label => cond ∈ wholeRegs ∧ isReference label = true
  | ret => True
  | paciasp => True
  | autiasp => True

/-! ### Operands -/

def Arg.source? : Arg → Option Source
  | imm value => (word? value).map .imm
  | reg r => some (.reg r)

theorem immediate?_number (text : String) : immediate? ("#" ++ text) = int64? text := by
  rw [immediate?, show "#" = String.ofList ['#'] from rfl, after?_append, Option.bind_some]

theorem isImmediate_number (text : String) : isImmediate ("#" ++ text) = true := by
  simp [isImmediate, startsWith, String.toList_append]

theorem source?_number (text : String) :
    source? ("#" ++ text) = (int64? text).map .imm := by
  rw [source?, if_pos (isImmediate_number text), immediate?_number]

theorem source?_of_mem (h : r ∈ wholeRegs) : source? r = some (.reg r) := by
  simp [source?, (facts_of_mem_wholeRegs h).2.2.2]

theorem source?_render {a : Arg} (h : a.Proper) : Arm64.source? a.render = a.source? := by
  cases a with
  | imm value => rw [Arg.render, source?_number, int64?_toString, Arg.source?]
  | reg r => exact source?_of_mem h

def inside? (inner : List Char) : Option (Register × Source) :=
  match cutAtMark? [',', ' '] inner with
  | none => some (String.ofList inner, .imm 0)
  | some (base, offset) => return (String.ofList base, ← source? (String.ofList offset))

theorem bracketed?_of_toList {text : String} (inner : List Char)
    (h : text.toList = '[' :: (inner ++ [']'])) : bracketed? text = inside? inner := by
  have hlast : (inner ++ [']']).getLast? = some ']' := getLast?_concat
  simp only [bracketed?, after?, endsWith, h, String.toList_ofList, hlast,
    dropLast_concat, if_true, BEq.rfl, Option.bind_eq_bind, Option.bind_some]
  rfl

theorem notMem_of_mem_wholeRegs (h : r ∈ wholeRegs) : ',' ∉ r.toList := fun hc =>
  (ne_of_isInert ((facts_of_mem_wholeRegs h).2.1 _ hc)).2.1 rfl

theorem inside?_base (h : base ∈ wholeRegs) : inside? base.toList = some (base, .imm 0) := by
  rw [inside?, cutAtMark?_eq_none (notMem_of_mem_wholeRegs h)]
  simp

theorem inside?_offset (h : base ∈ wholeRegs) (offset : String) :
    inside? (base.toList ++ ([',', ' '] ++ offset.toList)) = (source? offset).map (base, ·) := by
  have hcut := cutAtMark?_append [' '] (notMem_of_mem_wholeRegs h) offset.toList
  simp only [cons_append, nil_append] at hcut
  simp only [inside?, cons_append, nil_append, hcut, String.ofList_toList]
  cases source? offset <;> rfl

def Address.inner (a : Address) : List Char :=
  a.base.toList ++ if a.offset = 0 then [] else [',', ' '] ++ ("#" ++ toString a.offset).toList

theorem Address.toList_render (a : Address) : a.render.toList = '[' :: (a.inner ++ [']']) := by
  unfold render inner
  split <;> simp [String.toList_append]

theorem Address.bracketed?_render (h : a.base ∈ wholeRegs) :
    bracketed? a.render = (word? a.offset).map fun w => (a.base, .imm w) := by
  rw [bracketed?_of_toList _ a.toList_render, inner]
  split
  · next hzero =>
    rw [append_nil, inside?_base h, hzero]
    simp [word?_zero]
  · rw [inside?_offset h, source?_number, int64?_toString_nat]
    cases word? a.offset <;> rfl

def Address.mem? (a : Address) : Option Mem :=
  (word? a.offset).map fun w => ⟨a.base, .imm w, false, none⟩

theorem Address.mem?_render (h : a.base ∈ wholeRegs) : Arm64.mem? a.render [] = a.mem? := by
  have hmark : endsWith '!' a.render = false := by
    simp [endsWith, a.toList_render, getLast?_cons]
  simp only [Arm64.mem?, hmark, Bool.false_eq_true, if_false, bracketed?_render h, mem?]
  cases word? a.offset <;> rfl

theorem toList_push (amount : Nat) :
    ("[sp, #-" ++ toString amount ++ "]!").toList =
      '[' :: (("sp".toList ++ ([',', ' '] ++ ("#" ++ ("-" ++ toString amount)).toList)) ++
        [']', '!']) := by
  simp [String.toList_append]

theorem mem?_push (amount : Nat) :
    mem? ("[sp, #-" ++ toString amount ++ "]!") [] =
      (word? (-(amount : Int))).map fun w => ⟨"sp", .imm w, true, none⟩ := by
  have hmark : endsWith '!' ("[sp, #-" ++ toString amount ++ "]!") = true := by
    rw [endsWith, toList_push]
    simp [getLast?_cons]
  have hbracket : bracketed? (String.ofList ("[sp, #-" ++ toString amount ++ "]!").toList.dropLast) =
      (word? (-(amount : Int))).map fun w => ("sp", .imm w) := by
    rw [bracketed?_of_toList
        ("sp".toList ++ ([',', ' '] ++ ("#" ++ ("-" ++ toString amount)).toList)),
      inside?_offset (by decide), source?_number, int64?_neg_toString]
    · cases word? (-(amount : Int)) <;> rfl
    · rw [String.toList_ofList, toList_push, dropLast_cons_of_ne_nil (by simp),
        dropLast_append_of_ne_nil (by simp)]
      rfl
  simp only [mem?, hmark, if_true, hbracket]
  cases word? (-(amount : Int)) <;> rfl

theorem mem?_pop (amount : Nat) :
    mem? "[sp]" [(Arg.imm amount).render] =
      (word? amount).map fun w => ⟨"sp", .imm 0, false, some (.imm w)⟩ := by
  have hsource : source? (Arg.imm amount).render = (word? amount).map .imm :=
    source?_render trivial
  have hbracket : bracketed? "[sp]" = some ("sp", .imm 0) := rfl
  have hmark : endsWith '!' "[sp]" = false := by decide
  simp only [mem?, hmark, hbracket, Bool.false_eq_true, if_false, head?_cons, Option.mapM_some,
    hsource]
  cases word? amount <;> rfl

/-! ### Instructions -/

def Instr.op? : Instr → Option Op
  | mov dst src => src.source?.map (.mov dst)
  | movz dst chunk shift => (word? chunk).map fun w => .movz dst (.imm w) (Int64.ofNat shift)
  | movk dst chunk shift => (word? chunk).map fun w => .movk dst (.imm w) (Int64.ofNat shift)
  | alu op dst lhs rhs => rhs.source?.map (.alu op dst lhs)
  | cmp lhs rhs => rhs.source?.map (.cmp lhs)
  | cset dst cond => some (.cset dst cond)
  | ldr dst address => address.mem?.map (.ldr dst)
  | str src address => address.mem?.map (.str src)
  | stpPush first second amount =>
    (word? (-(amount : Int))).map fun w => .stp first second ⟨"sp", .imm w, true, none⟩
  | ldpPop first second amount =>
    (word? amount).map fun w => .ldp first second ⟨"sp", .imm 0, false, some (.imm w)⟩
  | b label => some (.b label)
  | bl callee => some (.bl callee)
  | cbnz cond label => some (.cbnz cond label)
  | ret => some .ret
  | paciasp => some .sign
  | autiasp => some .authenticate

theorem chunkShift?_render {shift : Nat} (h : shift < 64) :
    chunkShift? ["lsl #" ++ toString shift] = some (Int64.ofNat shift) := by
  have hafter : afterText? "lsl #" ("lsl #" ++ toString shift) = some (toString shift) := by
    rw [afterText?, if_pos (by simp [String.toList_append]), String.toList_append,
      show "lsl #".length = "lsl #".toList.length from rfl, drop_left, String.ofList_toList]
  rw [chunkShift?, hafter, Option.bind_some,
    uint32?_toString (Nat.lt_trans h (by decide)), Option.map_some]

theorem chunkOperands_eq (dst : Register) (chunk : Nat) {shift : Nat} (h : shift < 64) :
    ∃ rest, Instr.chunkOperands dst chunk shift = dst :: (Arg.imm chunk).render :: rest ∧
      chunkShift? rest = some (Int64.ofNat shift) ∧ rest.length ≤ 1 := by
  unfold Instr.chunkOperands
  split
  · next hzero => exact ⟨[], rfl, by rw [hzero]; rfl, by simp⟩
  · exact ⟨_, rfl, chunkShift?_render h, by simp⟩

theorem decode_render (h : i.Proper) : decode i.mnemonic i.operands = i.op? := by
  cases i with
  | mov dst src => rw [Instr.mnemonic, Instr.operands, decode_mov, source?_render h.2, Instr.op?]
  | movz dst chunk shift | movk dst chunk shift =>
    obtain ⟨rest, hops, hshift, -⟩ := chunkOperands_eq dst chunk h.2.2
    have hchunk : source? (Arg.imm chunk).render = (word? chunk).map .imm :=
      source?_render trivial
    simp only [Instr.mnemonic, Instr.operands, Instr.op?, hops]
    show (source? _).bind _ = _
    rw [hchunk, hshift]
    cases word? (chunk : Int) <;> rfl
  | alu op dst lhs rhs =>
    rw [Instr.mnemonic, Instr.operands, decode_alu, source?_render h.2.2.1, Instr.op?]
  | cmp lhs rhs => rw [Instr.mnemonic, Instr.operands, decode_cmp, source?_render h.2, Instr.op?]
  | cset dst cond => cases cond <;> rfl
  | ldr dst address =>
    rw [Instr.mnemonic, Instr.operands, decode_ldr, Address.mem?_render h.2.1, Instr.op?]
  | str src address =>
    rw [Instr.mnemonic, Instr.operands, decode_str, Address.mem?_render h.2, Instr.op?]
  | stpPush first second amount =>
    rw [Instr.mnemonic, Instr.operands, decode_stp, mem?_push, Instr.op?]
    cases word? (-(amount : Int)) <;> rfl
  | ldpPop first second amount =>
    rw [Instr.mnemonic, Instr.operands, decode_ldp, mem?_pop, Instr.op?]
    cases word? (amount : Int) <;> rfl
  | _ => rfl

/-! ### Lines -/

theorem toList_commentMark : dialect.commentMark.toList = ['/', '/'] := rfl

theorem legible_of_mem (h : r ∈ wholeRegs) : Legible ['/', '/'] r :=
  legible_of_inert (facts_of_mem_wholeRegs h).1 (facts_of_mem_wholeRegs h).2.1

theorem isInert_number {text : String} (h : ∀ c ∈ text.toList, isInert ['/', '/'] c = true) :
    ∀ c ∈ ("#" ++ text).toList, isInert ['/', '/'] c = true := by
  rw [String.toList_append]
  exact forall_mem_append.2 ⟨all_eq_true.1 (by decide), h⟩

theorem Arg.Proper.legible {a : Arg} (h : a.Proper) : Legible ['/', '/'] a.render := by
  cases a with
  | imm value => exact legible_of_inert (by simp [render, String.toList_append]) <|
      isInert_number fun c => isInert_of_mem_toString (by decide)
  | reg r => exact legible_of_mem h

theorem forall_mem_inside (h : base ∈ wholeRegs) {offset : String}
    (hoffset : ∀ c ∈ offset.toList, isInert ['/', '/'] c = true) :
    ∀ c ∈ base.toList ++ ([',', ' '] ++ offset.toList),
      isInert ['/', '/'] c = true ∨ c ∈ [',', ' '] := by
  refine forall_mem_append.2 ⟨fun c hc => .inl ((facts_of_mem_wholeRegs h).2.1 c hc), ?_⟩
  exact forall_mem_append.2 ⟨fun c hc => .inr hc, fun c hc => .inl (hoffset c hc)⟩

theorem Address.legible (h : a.base ∈ wholeRegs) : Legible ['/', '/'] a.render := by
  refine legible_of_brackets '[' ']' [] a.inner [] a.toList_render (by simp) (by decide) (by simp)
    ?_ (by simp)
  unfold inner
  split
  · rw [append_nil]
    exact fun c hc => .inl ((facts_of_mem_wholeRegs h).2.1 c hc)
  · exact forall_mem_inside h (isInert_number fun c => isInert_of_mem_toString_nat (by decide))

theorem legible_push (amount : Nat) : Legible ['/', '/'] ("[sp, #-" ++ toString amount ++ "]!") := by
  refine legible_of_brackets '[' ']' [] _ ['!'] (toList_push amount) (by simp) (by decide) (by simp)
    (forall_mem_inside (by decide) (isInert_number ?_)) (forall_mem_singleton.2 (by decide))
  rw [String.toList_append]
  exact forall_mem_append.2
    ⟨all_eq_true.1 (by decide), fun c => isInert_of_mem_toString_nat (by decide)⟩

theorem legible_shift (shift : Nat) : Legible ['/', '/'] ("lsl #" ++ toString shift) := by
  have hlist : ("lsl #" ++ toString shift).toList = "lsl #".toList ++ (toString shift).toList :=
    String.toList_append
  have hdigits : ∀ c ∈ (toString shift).toList, isInert ['/', '/'] c = true := fun c hc =>
    isInert_of_mem_toString_nat (by decide) hc
  have hne : (toString shift).toList ≠ [] := toString_int_ne_nil shift
  refine ⟨?_, ⟨'l', by rw [hlist]; rfl, by decide⟩, ?_, ?_⟩
  · rw [hlist, depthAfter_append, show depthAfter 0 "lsl #".toList = some 0 by decide,
      Option.bind_some]
    exact depthAfter_of_inert hdigits 0
  · refine ⟨_, ?_, (ne_of_isInert (hdigits _ (getLast_mem hne))).1⟩
    rw [hlist, getLast?_append, getLast?_eq_some_getLast hne, Option.some_or]
  · rw [hlist]
    refine forall_mem_append.2 ⟨?_, fun c hc => (ne_of_isInert (hdigits c hc)).2.2.2⟩
    show ∀ c ∈ ['l', 's', 'l', ' ', '#'], _
    simp only [forall_mem_cons, not_mem_nil, false_implies, implies_true, and_true]
    decide

theorem legible_chunkOperands {dst : Register} (h : Legible ['/', '/'] dst) (chunk shift : Nat) :
    ∀ o ∈ Instr.chunkOperands dst chunk shift, Legible ['/', '/'] o := by
  have himm : Legible ['/', '/'] (Arg.imm chunk).render :=
    Arg.Proper.legible (a := .imm chunk) trivial
  unfold Instr.chunkOperands
  split
  · exact forall_mem_cons.2 ⟨h, forall_mem_singleton.2 himm⟩
  · refine forall_mem_cons.2 ⟨h, forall_mem_cons.2 ⟨himm, ?_⟩⟩
    exact forall_mem_singleton.2 (legible_shift shift)

theorem mnemonic_mem (i : Instr) : i.mnemonic ∈ mnemonics := by
  cases i with
  | alu op dst lhs rhs => cases op <;> simp [Instr.mnemonic, Alu.mnemonic, mnemonics]
  | _ => simp [Instr.mnemonic, mnemonics]

theorem isOpcode_of_mem {m : String} (h : m ∈ mnemonics) : isOpcode ['/', '/'] m = true := by
  revert m
  decide

theorem Instr.Proper.legible (h : i.Proper) : ∀ o ∈ i.operands, Legible ['/', '/'] o := by
  have hname : ∀ {name}, isReference name = true → Legible ['/', '/'] name := fun hn =>
    legible_of_isReference (by decide) hn
  have hsp : Legible ['/', '/'] "[sp]" := Address.legible (a := ⟨"sp", 0⟩) (by decide)
  cases i <;> simp only [operands, forall_mem_cons, not_mem_nil, false_implies,
    implies_true, and_true]
  case mov => exact ⟨legible_of_mem h.1, h.2.legible⟩
  case movz | movk => exact legible_chunkOperands (legible_of_mem h.1) _ _
  case alu => exact ⟨legible_of_mem h.1, legible_of_mem h.2.1, h.2.2.1.legible⟩
  case cmp => exact ⟨legible_of_mem h.1, h.2.legible⟩
  case cset dst cond =>
    refine ⟨legible_of_mem h, ?_⟩
    cases cond <;> exact legible_of_inert (by decide) (all_eq_true.1 (by decide))
  case ldr => exact ⟨legible_of_mem h.1, Address.legible h.2.1⟩
  case str => exact ⟨legible_of_mem h.1, Address.legible h.2⟩
  case stpPush => exact ⟨legible_of_mem h.1, legible_of_mem h.2, legible_push _⟩
  case ldpPop first second amount =>
    exact ⟨legible_of_mem h.1, legible_of_mem h.2, hsp,
      Arg.Proper.legible (a := .imm amount) trivial⟩
  case b | bl => exact hname h
  case cbnz => exact ⟨legible_of_mem h.1, hname h.2⟩

/-- The line of an instruction. -/
def Instr.line (i : Instr) : Line := .instruction i.render

def Instr.asm (i : Instr) (n : Nat) : AsmInstr := ⟨i.mnemonic, i.operands, n, i.render⟩

theorem item?_of_legible (h : ∀ o ∈ i.operands, Legible ['/', '/'] o) (n : Nat) :
    Asm.item? dialect n i.line = some (.instr (i.asm n)) :=
  Asm.item?_instructionText (d := dialect) (by decide) (isOpcode_of_mem (mnemonic_mem i)) h n

theorem item?_line (h : i.Proper) (n : Nat) :
    Asm.item? dialect n i.line = some (.instr (i.asm n)) :=
  item?_of_legible h.legible n

end SsaBackend.Arm64
