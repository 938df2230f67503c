import SsaBackend.Proofs.Arm64.Literal
import SsaBackend.Proofs.Check.Body

/-!
# Footprints of arm64 instructions

The text of an instruction shows a tracker which registers it reads, writes, saves and restores, and
for 16-bit moves also what they leave behind (`Instr.Proper.leaves`). Instructions that move the stack
pointer or set the frame pointer have no footprint of their own here; they stand in prologues and
epilogues only.

The code of a step in the frame is tidy (`lower_tidy`): it reads what the step reads, scratch registers
that it has just written, and the stack and frame pointer; and of the registers that the caller wants
back it stores only saved ones.
-/

namespace SsaBackend.Arm64

open List Listing Text

variable {r : Register}

/-! ### Registers of operands -/

theorem isName_of_mem (h : r ∈ wholeRegs) : isName r.toList = true ∧ r ∉ keywords := by
  revert r
  decide

theorem isMemory_of_mem (h : r ∈ wholeRegs) : isMemory r = false := by
  revert r
  decide

theorem registers_eq {operand : String} (h : r ∈ wholeRegs) (himm : isImmediate operand = false)
    (hruns : nameRuns operand.toList = [r.toList]) : registers operand = [r] := by
  rw [registers, if_neg (by simp [himm]), names_eq, hruns]
  simp [(isName_of_mem h).2]

@[simp] theorem registers_of_mem (h : r ∈ wholeRegs) : registers r = [r] := by
  refine registers_eq h (facts_of_mem_wholeRegs h).2.2.2 ?_
  have hruns : nameRuns (r.toList ++ []) = [r.toList] := nameRuns_name (isName_of_mem h).1 (by simp)
  rwa [append_nil] at hruns

theorem isMemory_number (text : String) : isMemory ("#" ++ text) = false := by
  simp [isMemory, Text.startsWith, String.toList_append]

def Arg.regs : Arg → List Register
  | imm _ => []
  | reg r => [r]

theorem Arg.Proper.registers_render {a : Arg} (h : a.Proper) : registers a.render = a.regs := by
  cases a with
  | imm value => rw [Arg.render, registers, if_pos (isImmediate_number _), Arg.regs]
  | reg r => exact registers_of_mem h

theorem Address.isMemory_render (a : Address) : isMemory a.render = true := by
  simp [isMemory, Text.startsWith, a.toList_render]

theorem Address.registers_render {a : Address} (h : a.base ∈ wholeRegs) :
    registers a.render = [a.base] := by
  have hname := (isName_of_mem h).1
  refine registers_eq h (by simp [isImmediate, Text.startsWith, a.toList_render]) ?_
  rw [a.toList_render, nameRuns_cons (by decide), inner]
  split
  · rw [append_nil, nameRuns_name hname (by simp; decide)]
    rfl
  · have hlist : ("#" ++ toString a.offset).toList ++ [']'] =
        '#' :: ((toString (a.offset : Int)).toList ++ [']']) := by
      rw [String.toList_append]
      rfl
    rw [append_assoc, append_assoc, hlist, nameRuns_name hname (by simp; decide)]
    simp only [cons_append, nil_append]
    rw [nameRuns_cons (by decide), nameRuns_cons (by decide), nameRuns_cons (by decide),
      nameRuns_toString_int _ (by simp; decide)]
    rfl

theorem registers_shift (shift : Nat) : registers ("lsl #" ++ toString shift) = [] := by
  have hlist : ("lsl #" ++ toString shift).toList =
      "lsl".toList ++ ' ' :: '#' :: ((toString (shift : Int)).toList ++ []) := by
    rw [String.toList_append, append_nil]
    rfl
  have himm : isImmediate ("lsl #" ++ toString shift) = false := by
    rw [isImmediate, Text.startsWith, hlist]
    rfl
  rw [registers, himm, names_eq, hlist, nameRuns_name (by decide) (by simp; decide),
    nameRuns_cons (by decide), nameRuns_cons (by decide), nameRuns_toString_int _ (by simp)]
  decide

theorem Cond.registers_name (c : Cond) : registers c.name = [] := by cases c <;> decide

/-! ### Footprints -/

def Arg.value? : Arg → Option Int64
  | imm value => word? value
  | reg _ => none

def frameRegs : List Register := ["sp", "x29"]

def onFree (dst : Register) (p : Footprint) : Option Footprint :=
  if dst ∈ frameRegs then none else some { p with written := [dst] }

def Instr.footprint? : Instr → Option Footprint
  | mov dst src => onFree dst { Footprint.idle with read := src.regs, value := fun _ => src.value? }
  | movz dst chunk shift =>
    onFree dst { Footprint.idle with value := fun _ => some (withChunk 0 (chunk, shift)) }
  | movk dst chunk shift => onFree dst { Footprint.idle with
      read := [dst], value := fun k => (k.get? dst).map (withChunk · (chunk, shift)) }
  | alu _ dst lhs rhs => onFree dst { Footprint.idle with read := lhs :: rhs.regs }
  | cmp lhs rhs => some { Footprint.idle with read := lhs :: rhs.regs }
  | cset dst _ => onFree dst .idle
  | ldr dst address => onFree dst { Footprint.idle with restored := [dst], read := [address.base] }
  | str src address => some { Footprint.idle with saved := [src], read := [src, address.base] }
  | b _ => some .idle
  | bl _ => some { Footprint.idle with isCall := true }
  | cbnz cond _ => some { Footprint.idle with read := [cond] }
  | stpPush _ _ _ | ldpPop _ _ _ | ret | paciasp | autiasp => none

theorem eq_of_onFree {dst : Register} {p q : Footprint} (h : onFree dst p = some q) :
    dst ≠ "sp" ∧ dst ≠ "x29" ∧ q = { p with written := [dst] } := by
  unfold onFree at h
  split at h
  · cases h
  · next hdst =>
    cases h
    simp only [frameRegs, mem_cons, not_mem_nil, or_false, not_or] at hdst
    exact ⟨hdst.1, hdst.2, rfl⟩

theorem immediate?_chunk {chunk : Nat} (h : chunk < 65536) :
    immediate? (Arg.imm chunk).render = some (Int64.ofNat chunk) := by
  rw [Arg.render, immediate?_number, int64?_toString, word?_eq_some (by omega) (by omega),
    Int64.ofInt_eq_ofNat]

theorem constant?_movz (dst : Register) {chunk shift : Nat} (hc : chunk < 65536 ∧ shift < 64)
    (k : Constants) (n : Nat) (text : String) :
    constant? k ⟨"movz", Instr.chunkOperands dst chunk shift, n, text⟩ =
      some (withChunk 0 (chunk, shift)) := by
  obtain ⟨rest, hops, hshift, -⟩ := chunkOperands_eq dst chunk hc.2
  simp only [constant?, hops, immediate?_chunk hc.1, hshift, withChunk, insertChunk,
    Int64.zero_and, Int64.zero_or]
  rfl

theorem constant?_movk (dst : Register) {chunk shift : Nat} (hc : chunk < 65536 ∧ shift < 64)
    (k : Constants) (n : Nat) (text : String) :
    constant? k ⟨"movk", Instr.chunkOperands dst chunk shift, n, text⟩ =
      (k.get? dst).map (withChunk · (chunk, shift)) := by
  obtain ⟨rest, hops, hshift, -⟩ := chunkOperands_eq dst chunk hc.2
  simp only [constant?, hops, immediate?_chunk hc.1, hshift]
  cases k.get? dst <;> rfl

/-! ### Instructions with a destination -/

def dataMnemonics : List String :=
  ["mov", "movz", "movk", "add", "sub", "mul", "sdiv", "and", "orr", "eor", "cset", "ldr"]

theorem labelOperand?_of_mem {m : String} (h : m ∈ ["cmp", "str", "stp", "ldp"] ++ dataMnemonics)
    (ops : List String) (n : Nat) (text : String) : labelOperand? ⟨m, ops, n, text⟩ = none := by
  have hall : ∀ m ∈ ["cmp", "str", "stp", "ldp"] ++ dataMnemonics,
      ¬(["b", "bl"].contains m || isCondBranch m) = true ∧ ¬["cbz", "cbnz"].contains m = true := by
    decide
  obtain ⟨hjump, hbranch⟩ := hall m h
  rw [labelOperand?, if_neg hjump, if_neg hbranch]

section Data

variable {m : String} (hm : m ∈ dataMnemonics) {dst : Register} (rest : List String) (n : Nat)
  (text : String)

include hm

theorem destinations_data : destinations ⟨m, dst :: rest, n, text⟩ = [0] := by
  have hall : ∀ m ∈ dataMnemonics, ¬(withoutDestination.contains m || isCondBranch m) = true ∧
      m ≠ "ldp" := by decide
  obtain ⟨hwithout, hpair⟩ := hall m hm
  rw [destinations, if_neg hwithout, if_neg hpair]
  rfl

theorem stackEffects_data (hdst : dst ∈ wholeRegs) (hsp : dst ≠ "sp") (hfp : dst ≠ "x29")
    (hload : m = "ldr" → ∃ a, rest = [a]) (k : Constants) :
    stackEffects k ⟨m, dst :: rest, n, text⟩ = [] := by
  have hother : otherEffects ⟨m, dst :: rest, n, text⟩ = [] := by simp [otherEffects, hsp]
  have hbracket : ∀ r ∈ wholeRegs, r ≠ "[sp]" := by decide
  by_cases hldr : m = "ldr"
  · obtain ⟨a, rfl⟩ := hload hldr
    subst hldr
    simp [stackEffects, loadEffects, hother, hbracket dst hdst]
  · unfold stackEffects
    split <;> simp_all [dataMnemonics]

theorem leaves_data (hdst : dst ∈ wholeRegs) {effects : Constants → List StackEffect}
    (heffects : ∀ k, stackEffects k ⟨m, dst :: rest, n, text⟩ = effects k)
    {restored read : List Register} {value : Constants → Option Int64}
    (hrestored : restored = if m = "ldr" then [dst] else [])
    (hread : read = (if m = "movk" then [dst] else []) ++ rest.flatMap registers)
    (hvalue : ∀ k, constant? k ⟨m, dst :: rest, n, text⟩ = value k) :
    dialect.Leaves effects ⟨[], restored, [dst], read, false, value⟩ ⟨m, dst :: rest, n, text⟩ := by
  have hall : ∀ m ∈ dataMnemonics, dialect.isMnemonic m = true ∧ m ≠ "ret" ∧ m ≠ "paciasp" ∧
      m ≠ "autiasp" ∧ m ≠ "stp" ∧ m ≠ "str" ∧ m ≠ "ldp" ∧ ["bl", "blr"].contains m = false := by decide
  obtain ⟨hknown, hret, hsign, hauth, hstp, hstr, hldp, hcall⟩ := hall m hm
  have hdestinations : dialect.destinations ⟨m, dst :: rest, n, text⟩ = [0] :=
    destinations_data hm rest n text
  have hlabel : dialect.labelOperand? ⟨m, dst :: rest, n, text⟩ = none :=
    labelOperand?_of_mem (mem_append_right _ hm) _ n text
  refine
    { known := hknown
      effects := heffects
      isReturn := decide_eq_false hret
      signs := decide_eq_false hsign
      authenticates := decide_eq_false hauth
      saved := ?_
      restored := ?_
      written := Dialect.written_of_first rfl hdestinations (isMemory_of_mem hdst) (registers_of_mem hdst)
      read := ?_
      isCall := hcall
      value := hvalue }
  · show saved _ = []
    simp [saved, hstp, hstr]
  · show Arm64.restored _ = _
    rw [hrestored]
    by_cases hldr : m = "ldr"
    · simp [Arm64.restored, hldr]
    · simp [Arm64.restored, hldp, hldr]
  · have hfirst := Dialect.readRegisters_of_first rfl hdestinations (isMemory_of_mem hdst)
      (registers_of_mem hdst) hlabel
    rw [hfirst, hread]
    simp [dialect]

end Data

/-! ### Instructions without a destination -/

def effectMnemonics : List String := ["cmp", "str", "b", "bl", "cbnz"]

section Effect

variable {m : String} (hm : m ∈ effectMnemonics) {ops : List String} (n : Nat) (text : String)

include hm

theorem leaves_effect (hstore : m = "str" → ∃ src, ∃ a : Address, ops = [src, a.render])
    {saved read : List Register}
    (hsaved : saved = if m = "str" then ops.head?.toList else [])
    (hread : dialect.readRegisters ⟨m, ops, n, text⟩ = read) :
    dialect.Leaves (fun _ => []) ⟨saved, [], [], read, m = "bl", fun _ => none⟩
      ⟨m, ops, n, text⟩ := by
  have hall : ∀ m ∈ effectMnemonics, dialect.isMnemonic m = true ∧ m ≠ "ret" ∧ m ≠ "paciasp" ∧
      m ≠ "autiasp" ∧ withoutDestination.contains m = true ∧
      ["bl", "blr"].contains m = decide (m = "bl") := by decide
  obtain ⟨hknown, hret, hsign, hauth, hwithout, hcall⟩ := hall m hm
  have hdestinations : destinations ⟨m, ops, n, text⟩ = [] := by
    rw [destinations, hwithout]
    rfl
  have hother : otherEffects ⟨m, ops, n, text⟩ = [] := by simp [otherEffects, hdestinations]
  refine
    { known := hknown
      effects := fun k => ?_
      isReturn := decide_eq_false hret
      signs := decide_eq_false hsign
      authenticates := decide_eq_false hauth
      saved := ?_
      restored := ?_
      written := Dialect.written_of_none hdestinations
      read := hread
      isCall := hcall
      value := fun k => ?_ }
  · show stackEffects k _ = []
    by_cases hstr : m = "str"
    · obtain ⟨src, a, rfl⟩ := hstore hstr
      have hmark : Text.endsWith '!' a.render = false := by
        simp [Text.endsWith, a.toList_render, getLast?_cons]
      subst hstr
      simp [stackEffects, storeEffects, hmark]
    · unfold stackEffects
      split <;> simp_all [effectMnemonics]
  · show Arm64.saved _ = saved
    rw [hsaved]
    by_cases hstr : m = "str"
    · obtain ⟨src, a, rfl⟩ := hstore hstr
      simp [Arm64.saved, hstr]
    · unfold Arm64.saved
      split <;> simp_all [effectMnemonics]
  · show restored _ = []
    unfold restored
    split <;> simp_all [effectMnemonics]
  · show constant? k _ = none
    unfold constant?
    split <;> simp_all [effectMnemonics]

end Effect

/-! ### All instructions -/

theorem immediate?_of_mem (h : r ∈ wholeRegs) : immediate? r = none := by
  revert r
  decide

theorem flatMap_registers_chunkOperands (chunk shift : Nat) :
    ∃ rest, (∀ dst, Instr.chunkOperands dst chunk shift = dst :: rest) ∧
      rest.flatMap registers = [] := by
  have himm : registers (Arg.imm chunk).render = [] :=
    Arg.Proper.registers_render (a := .imm chunk) trivial
  unfold Instr.chunkOperands
  split
  · exact ⟨_, fun _ => rfl, by simp [himm]⟩
  · exact ⟨_, fun _ => rfl, by simp only [flatMap_cons, himm, registers_shift]; rfl⟩

theorem Instr.Proper.leaves {i : Instr} (h : i.Proper) {p : Footprint} (hp : i.footprint? = some p)
    (n : Nat) (text : String) :
    dialect.Leaves (fun _ => []) p ⟨i.mnemonic, i.operands, n, text⟩ := by
  -- `leaves_data` for those that write a register, `leaves_effect` for those that only read
  cases i with
  | mov dst src =>
    obtain ⟨hsp, hfp, rfl⟩ := eq_of_onFree hp
    refine leaves_data (m := "mov") (by decide) [src.render] n text h.1
      (stackEffects_data (by decide) _ n text h.1 hsp hfp (by simp)) rfl
      (by simp [h.2.registers_render]) fun k => ?_
    cases src with
    | imm value => exact (immediate?_number _).trans (int64?_toString value)
    | reg r => exact immediate?_of_mem h.2
  | movz dst chunk shift =>
    obtain ⟨hsp, hfp, rfl⟩ := eq_of_onFree hp
    obtain ⟨rest, hops, hregs⟩ := flatMap_registers_chunkOperands chunk shift
    have hvalue := fun k => constant?_movz dst h.2 k n text
    simp only [operands, hops] at hvalue ⊢
    exact leaves_data (m := "movz") (by decide) rest n text h.1
      (stackEffects_data (by decide) _ n text h.1 hsp hfp (by simp)) rfl
      (by simp [hregs, Footprint.idle]) hvalue
  | movk dst chunk shift =>
    obtain ⟨hsp, hfp, rfl⟩ := eq_of_onFree hp
    obtain ⟨rest, hops, hregs⟩ := flatMap_registers_chunkOperands chunk shift
    have hvalue := fun k => constant?_movk dst h.2 k n text
    simp only [operands, hops] at hvalue ⊢
    exact leaves_data (m := "movk") (by decide) rest n text h.1
      (stackEffects_data (by decide) _ n text h.1 hsp hfp (by simp)) rfl
      (by simp [hregs]) hvalue
  | alu op dst lhs rhs =>
    obtain ⟨hsp, hfp, rfl⟩ := eq_of_onFree hp
    have hall : op.mnemonic ∈ dataMnemonics ∧ op.mnemonic ≠ "ldr" ∧ op.mnemonic ≠ "movk" := by
      cases op <;> decide
    refine leaves_data hall.1 [lhs, rhs.render] n text h.1
      (stackEffects_data hall.1 _ n text h.1 hsp hfp (by simp [hall])) (by simp [hall, Footprint.idle])
      (by simp [hall, registers_of_mem h.2.1, h.2.2.1.registers_render]) fun k => ?_
    cases op <;> rfl
  | cset dst cond =>
    obtain ⟨hsp, hfp, rfl⟩ := eq_of_onFree hp
    exact leaves_data (m := "cset") (by decide) [cond.name] n text h
      (stackEffects_data (by decide) _ n text h hsp hfp (by simp)) rfl
      (by simp [cond.registers_name, Footprint.idle]) fun k => rfl
  | ldr dst address =>
    obtain ⟨hsp, hfp, rfl⟩ := eq_of_onFree hp
    exact leaves_data (m := "ldr") (by decide) [address.render] n text h.1
      (stackEffects_data (by decide) _ n text h.1 hsp hfp (by simp)) rfl
      (by simp [address.registers_render h.2.1]) fun k => rfl
  | cmp lhs rhs =>
    cases hp
    refine leaves_effect (m := "cmp") (by decide) n text (by simp) rfl ?_
    rw [Dialect.readRegisters_of_none rfl (labelOperand?_of_mem (by decide) _ n text)]
    simp [dialect, operands, registers_of_mem h.1, h.2.registers_render]
  | str src address =>
    cases hp
    refine leaves_effect (m := "str") (by decide) n text (fun _ => ⟨_, _, rfl⟩) rfl ?_
    rw [Dialect.readRegisters_of_none rfl (labelOperand?_of_mem (by decide) _ n text)]
    simp [dialect, registers_of_mem h.1, address.registers_render h.2]
  | b label =>
    cases hp
    exact leaves_effect (m := "b") (by decide) n text (by simp) rfl rfl
  | bl callee =>
    cases hp
    exact leaves_effect (m := "bl") (by decide) n text (by simp) rfl rfl
  | cbnz cond label =>
    cases hp
    refine leaves_effect (m := "cbnz") (by decide) n text (by simp) rfl ?_
    simp [dialect, Dialect.readRegisters, Dialect.readsAt, destinations, withoutDestination, operands,
      labelOperand?, isCondBranch, Text.afterText?, registers_of_mem h.1]
  | stpPush | ldpPop | ret | paciasp | autiasp => cases hp

/-! ### Tidy code -/

variable {dst : Register} {offset : Nat}

abbrev TidyIn (f : Frame) (fresh : Set Register) (is : List Instr) (fresh' : Set Register) : Prop :=
  Tidy dialect f.saved Instr.footprint? fresh is fresh'

variable {f : Frame} {F : Set Register}

/-! ### Literals and addresses -/

theorem tidy_of_onFree {i : Instr} {q : Footprint} (hi : i.footprint? = onFree dst q)
    (hdst : dst ∉ frameRegs) (hread : ∀ r ∈ q.read, r ∈ F) (hsaved : q.saved = [])
    (hcall : q.isCall = false) : TidyIn f F [i] (insert dst F) := by
  rw [onFree, if_neg hdst] at hi
  exact Tidy.write hi hread hsaved hcall mem_cons_self

theorem materialize_tidy (hdst : dst ∉ frameRegs) {value : Int} (hlow : -2 ^ 63 ≤ value)
    (hhigh : value < 2 ^ 63) : TidyIn f F (materialize dst value) (insert dst F) := by
  have hliteral := literal_materialize dst value
  obtain ⟨i, is, heq, hfirst, hothers⟩ := exists_first hlow hhigh dst
  rw [heq] at hliteral ⊢
  obtain ⟨hi, his⟩ := forall_mem_cons.1 hliteral
  have hone : TidyIn f F [i] (insert dst F) := by
    cases hi with
    | mov | movz => exact tidy_of_onFree rfl hdst (by simp [Arg.regs, Footprint.idle]) rfl rfl
    | movk => cases hfirst
  refine hone.append ?_
  rw [← flatMap_singleton' is]
  refine Tidy.flatMap fun j hj => Tidy.weaken ?_ (Set.subset_insert dst _)
  cases his j hj with
  | mov | movz => cases hothers _ hj
  | movk => exact tidy_of_onFree rfl hdst (by simp) rfl rfl

theorem spAddress_tidy (hsp : "sp" ∈ F) (hoffset : offset < 2 ^ 63) :
    TidyIn f F (spAddress offset).1 (insert (spAddress offset).2.base F) := by
  unfold spAddress
  split
  · exact Set.insert_subset hsp (Set.Subset.refl _)
  · have hfar : farAddr ∉ frameRegs := by decide
    have hload : TidyIn f F (materialize farAddr offset) (insert farAddr F) :=
      materialize_tidy hfar (by omega) (by omega)
    refine hload.append (Tidy.weaken (tidy_of_onFree rfl hfar ?_ rfl rfl) ?_)
    · exact forall_mem_cons.2 ⟨Set.mem_insert_of_mem _ hsp,
        forall_mem_singleton.2 (Set.mem_insert _ _)⟩
    · exact Set.insert_subset_insert (Set.subset_insert _ _)

theorem loadAt_tidy (hsp : "sp" ∈ F) (hoffset : offset < 2 ^ 63) (hdst : dst ∉ frameRegs) :
    TidyIn f F ((spAddress offset).1 ++ [Instr.ldr dst (spAddress offset).2]) (insert dst F) := by
  refine (spAddress_tidy hsp hoffset).append (Tidy.weaken (tidy_of_onFree rfl hdst ?_ rfl rfl) ?_)
  · exact forall_mem_singleton.2 (Set.mem_insert _ _)
  · exact Set.insert_subset_insert (Set.subset_insert _ _)

theorem str_tidy {src : Register} {a : Address} (hsrc : src ∈ F) (hbase : a.base ∈ F)
    (hsaved : target.isCalleeSaved src = true → src ∈ f.saved) : TidyIn f F [.str src a] F := by
  refine (Tidy.single rfl ?_ (forall_mem_singleton.2 hsaved)).weaken Set.subset_union_left
  exact forall_mem_cons.2 ⟨hsrc, forall_mem_singleton.2 hbase⟩

theorem storeAt_tidy (hsp : "sp" ∈ F) (hoffset : offset < 2 ^ 63) {src : Register} (hsrc : src ∈ F)
    (hsaved : target.isCalleeSaved src = true → src ∈ f.saved) :
    TidyIn f F ((spAddress offset).1 ++ [Instr.str src (spAddress offset).2]) F := by
  refine (spAddress_tidy hsp hoffset).append (Tidy.weaken (str_tidy ?_ ?_ hsaved) ?_)
  · exact Set.mem_insert_of_mem _ hsrc
  · exact Set.mem_insert _ _
  · exact Set.subset_insert _ _

/-! ### Steps -/

theorem cmp_tidy {lhs : Register} {rhs : Arg} (h : ∀ r ∈ lhs :: rhs.regs, r ∈ F) :
    TidyIn f F [.cmp lhs rhs] F :=
  Tidy.weaken (Tidy.single rfl h (by simp [Footprint.idle])) Set.subset_union_left

theorem mem_steady (h : r ∈ ["sp", "x29", "x0"] ++ target.allocatable) : r ∈ dialect.steady := by
  have hall : ∀ r ∈ ["sp", "x29", "x0"] ++ target.allocatable,
      r ∉ Tracker.clobberedByCall dialect := by decide
  exact hall r h

def workIn (f : Frame) : Set Register :=
  {r | r ∈ workRegs target.valueRegs ∧ (target.isCalleeSaved r = true → r ∈ f.saved)}

theorem notMem_frameRegs (h : r ∈ workIn f) : r ∉ frameRegs := by
  have hall : ∀ r ∈ workRegs target.valueRegs, r ∉ frameRegs := by decide
  exact hall r h.1

theorem mem_workIn (h : r ∈ workRegs target.valueRegs ∧ target.isCalleeSaved r = false) :
    r ∈ workIn f := ⟨h.1, fun hcallee => by simp [h.2] at hcallee⟩

def tidiness (f : Frame) : LoadStore.Judgement Instr :=
  ⟨TidyIn f, fun h => h, Tidy.append⟩

section Steps

variable (hsize : f.size < 2 ^ 32)

include hsize

theorem carriesOperands_tidiness :
    pieces.CarriesOperands (tidiness f) f (·.Framed target f) (workIn f) dialect.steady where
  left := mem_workIn (show tmp0 ∈ workRegs target.valueRegs ∧ _ by decide)
  right := mem_workIn (show tmp1 ∈ workRegs target.valueRegs ∧ _ by decide)
  result := mem_workIn (show result ∈ workRegs target.valueRegs ∧ _ by decide)
  register h := ⟨mem_append_right _ h.1, h.2⟩
  literal value hdst := materialize_tidy (notMem_frameRegs hdst) value.le_toInt value.toInt_lt
  copy hdst _ hsrc :=
    tidy_of_onFree rfl (notMem_frameRegs hdst) (forall_mem_singleton.2 hsrc) rfl rfl
  load {_ _ slot} hbase hdst hslot := by
    have hslot : f.spillOffset slot + 8 ≤ f.size := hslot
    exact loadAt_tidy (hbase (mem_steady (by simp))) (by omega) (notMem_frameRegs hdst)
  store {_ _ slot} hbase hsrc hfresh hslot := by
    have hslot : f.spillOffset slot + 8 ≤ f.size := hslot
    exact storeAt_tidy (hbase (mem_steady (by simp))) (by omega) hfresh hsrc.2

theorem compute_tidy (op : BinOp) {work left : Register} {rhs : Operand} (hbase : dialect.steady ⊆ F)
    (hwork : work ∈ workIn f) (hleft : left ∈ F) (hrhs : rhs.Framed target f) (hright : rhs.FreshIn F) :
    TidyIn f F (compute f op work left rhs) (insert work F) := by
  have hfree := notMem_frameRegs hwork
  have hoperands := carriesOperands_tidiness hsize
  have harg : ∀ allowImm, TidyIn f F (rightArg f allowImm rhs).1
      (F ∪ {r | r ∈ (rightArg f allowImm rhs).2.regs}) := by
    intro allowImm
    unfold rightArg
    split
    · exact Set.union_subset (Set.Subset.refl _) (by simp [Arg.regs])
    · have hread : TidyIn f F (read f tmp1 rhs).1 (insert (read f tmp1 rhs).2 F) :=
        (hoperands.read hbase hrhs hoperands.right hright).1
      refine hread.weaken ?_
      rintro r (hr | hr)
      · exact Set.mem_insert_of_mem _ hr
      · rw [mem_singleton.1 hr]
        exact Set.mem_insert _ _
  -- both operands are fresh where the operation happens
  have hboth : ∀ allowImm, ∀ r ∈ left :: (rightArg f allowImm rhs).2.regs,
      r ∈ F ∪ {r | r ∈ (rightArg f allowImm rhs).2.regs} := fun _ =>
    forall_mem_cons.2 ⟨Set.mem_union_left _ hleft, fun _ hr => Set.mem_union_right _ hr⟩
  unfold compute
  split
  · refine (harg true).append ((cmp_tidy (hboth true)).append (Tidy.weaken
      (tidy_of_onFree rfl hfree (by simp [Footprint.idle]) rfl rfl) ?_))
    exact Set.insert_subset_insert Set.subset_union_left
  · refine Tidy.append (harg _) (Tidy.weaken (tidy_of_onFree rfl hfree (hboth _) rfl rfl) ?_)
    exact Set.insert_subset_insert Set.subset_union_left

theorem lower_tidy (options : Options) {s : Step} (hs : s.Framed target f)
    (hkept : dialect.steady ⊆ F) (hfresh : ∀ o ∈ s.reads, o.FreshIn F)
    (hlabel : ∀ name, s ≠ .label name) (hreturn : s ≠ .epilogue) :
    TidyIn f F (lower options f s) (s.next dialect.steady F) := by
  have hcarries : pieces.Carries (tidiness f) f (·.Framed target f) (workIn f) dialect.steady s :=
    { carriesOperands_tidiness hsize with
      operands := hs.1
      args := fun r hr => mem_workIn
        ((show ∀ r ∈ target.argRegs, r ∈ workRegs target.valueRegs ∧
          target.isCalleeSaved r = false by decide) r hr)
      ret := ⟨mem_workIn (by decide), mem_steady (by decide)⟩
      fetch := fun _ hbase hdst => tidy_of_onFree rfl (notMem_frameRegs hdst)
        (forall_mem_singleton.2 (hbase (mem_steady (by simp)))) rfl rfl
      compute := fun {F op dst lhs rhs w l} heq hbase hw _ hl hr =>
        compute_tidy hsize op hbase hw hl (hs.1 rhs (by simp [heq, Step.operands])) hr
      storeAt := fun hsrc hsrc' _ hdst => str_tidy hsrc' hdst hsrc.2
      pass := fun {F src index} hindex hbase hsrc hfresh => by
        have hcount : s.args.length ≤ 24 := hs.2
        have hword : index * 8 < 2 ^ 63 := by omega
        exact storeAt_tidy (hbase (mem_steady (by simp))) hword hfresh hsrc.2
      call := fun _ => Tidy.single rfl (by simp [Footprint.idle]) (by simp [Footprint.idle])
      jump := fun _ => Tidy.weaken
        (Tidy.single rfl (by simp [Footprint.idle]) (by simp [Footprint.idle])) Set.subset_union_left
      branch := fun _ _ hr => Tidy.weaken
        (Tidy.single rfl (forall_mem_singleton.2 hr) (by simp [Footprint.idle]))
        Set.subset_union_left }
  rw [lower_eq options hreturn]
  exact hcarries.lower hkept hfresh hlabel

end Steps

end SsaBackend.Arm64
