import SsaBackend.Arm64.Peephole
import SsaBackend.Proofs.Arm64.Decode
import SsaBackend.Proofs.Peephole.Rules
import SsaBackend.Proofs.Processor.Scanning
import SsaBackend.Proofs.Semantics.Stack

/-!
# Tidying up arm64 assembly

The rules for arm64 keep what code does (`keeps_rules`). They rely on the instructions at hand being
those that code generation writes (`Shape`): registers can be written, a product has no literal
operand, and a load does not change the register that it gets its address from. What the rules write
themselves, such as shifts and stores of two registers, no rule looks at again.

The rules leave lines as they are, leave them out, or write a shift, a store of two registers, a test or
a multiplication with addition (`Made`). The operands of what they write are operands of what they read,
and are again registers and addresses.
-/

namespace SsaBackend.Arm64

open Asm Peephole Listing List Option

def Shape : String → List String → Prop
  | "mov", [dst, src] => dst ∈ wholeRegs ∧ (isImmediate src = true ∨ src ∈ wholeRegs)
  | "add", [dst, lhs, rhs] =>
    dst ∈ wholeRegs ∧ lhs ∈ wholeRegs ∧ (isImmediate rhs = true ∨ rhs ∈ wholeRegs)
  | "sub", [dst, _, _] => dst ∈ wholeRegs
  | "mul", [dst, lhs, rhs] => dst ∈ wholeRegs ∧ lhs ∈ wholeRegs ∧ rhs ∈ wholeRegs
  | "cmp", [lhs, _] => lhs ∈ wholeRegs
  | "ldr", [dst, address] =>
    dst ∈ wholeRegs ∧ ∃ a : Address, address = a.render ∧ a.base ∈ wholeRegs ∧ a.base ≠ dst
  | "str", [src, address] =>
    src ∈ wholeRegs ∧ ∃ a : Address, address = a.render ∧ a.base ∈ wholeRegs
  | _, _ => True

theorem Arg.Proper.isImmediate_or_mem {a : Arg} (h : a.Proper) :
    isImmediate a.render = true ∨ a.render ∈ wholeRegs := by
  cases a with
  | imm value => exact .inl (isImmediate_number _)
  | reg r => exact .inr h

theorem Instr.Proper.shape {i : Instr} (h : i.Proper) : Shape i.mnemonic i.operands := by
  cases i with
  | mov dst src => exact ⟨h.1, h.2.isImmediate_or_mem⟩
  | alu op dst lhs rhs =>
    cases op with
    | add => exact ⟨h.1, h.2.1, h.2.2.1.isImmediate_or_mem⟩
    | sub => exact h.1
    | mul =>
      obtain ⟨r, rfl⟩ := h.2.2.2 rfl
      exact ⟨h.1, h.2.1, h.2.2.1⟩
    | _ => trivial
  | cmp lhs rhs => exact h.1
  | ldr dst address => exact ⟨h.1, address, rfl, h.2⟩
  | str src address => exact ⟨h.1, address, rfl, h.2⟩
  | movz dst chunk shift | movk dst chunk shift =>
    simp only [Instr.operands, Instr.chunkOperands]
    split <;> trivial
  | _ => trivial

theorem Instr.Proper.shaped {i : Instr} (h : i.Proper) :
    Shaped dialect.commentMark.toList Shape (.instr i.mnemonic i.operands) :=
  .instr (isOpcode_of_mem (mnemonic_mem i)) h.legible h.shape

/-! ### Execution -/

section Exec

variable (host : Host) (s : State)
variable {w : Int64} {base : Register}

theorem source?_of_immediate? {text : String} (h : immediate? text = some w) :
    source? text = some (.imm w) := by
  have himm : isImmediate text = true := by
    obtain ⟨rest, hrest, -⟩ := bind_eq_some_iff.1 h
    simp [isImmediate, Text.startsWith, Text.after?_eq_some hrest]
  rw [source?, if_pos himm, h, map_some]

theorem exec_mov {dst src : String} {x : Source} (h : source? src = some x) :
    exec host "mov" [dst, src] s = some (.next (s.set dst (x.read s))) := by
  simp [exec, h, Op.exec]

theorem exec_alu (op : Alu) {dst lhs rhs : String} {x : Source} (h : source? rhs = some x) :
    exec host op.mnemonic [dst, lhs, rhs] s =
      some (.next (s.set dst (op.apply (s.get lhs) (x.read s)))) := by
  simp [exec, h, Op.exec]

theorem exec_lsl {dst lhs rhs : String} {x : Source} (h : source? rhs = some x) :
    exec host "lsl" [dst, lhs, rhs] s = some (.next (s.set dst (s.get lhs <<< x.read s))) := by
  simp [exec, h, Op.exec]

theorem exec_str {src address : String} (h : mem? address [] = some ⟨base, .imm w, false, none⟩) :
    exec host "str" [src, address] s = (s.store (s.get base + w) (s.get src)).map .next := by
  simp only [exec, decode_str, h, map_some, bind_some, Op.exec]
  cases hs : s.store (s.get base + w) (s.get src) <;>
    simp [Mem.before, Mem.after, Mem.address, Source.read, hs]

theorem exec_stp {first second address : String}
    (h : mem? address [] = some ⟨base, .imm w, false, none⟩) :
    exec host "stp" [first, second, address] s =
      (s.store (s.get base + w) (s.get first)).bind fun s' =>
        (s'.store (s.get base + w + 8) (s.get second)).map .next := by
  simp only [exec, decode_stp, h, map_some, bind_some, Op.exec]
  cases hs : s.store (s.get base + w) (s.get first) with
  | none => simp [Mem.before, Mem.address, Source.read, hs]
  | some s' =>
    cases hs' : s'.store (s.get base + w + 8) (s.get second) <;>
      simp [Mem.before, Mem.after, Mem.address, Source.read, hs, hs']

theorem exec_ldr {dst address : String} (h : mem? address [] = some ⟨base, .imm w, false, none⟩) :
    exec host "ldr" [dst, address] s =
      (s.load (s.get base + w)).map fun word => .next (s.set dst word) := by
  simp only [exec, decode_ldr, h, map_some, bind_some, Op.exec]
  cases hs : s.load (s.get base + w) <;>
    simp [Mem.before, Mem.after, Mem.address, Source.read, hs]

end Exec

/-! ### Copies, stores and loads -/

def addressOf (text : String) (s : State) : Option Int64 := (mem? text []).map fun m => m.address s

theorem addressOf_render {a : Address} (h : a.base ∈ wholeRegs) (s : State) :
    addressOf a.render s = (Text.word? a.offset).map (s.get a.base + ·) := by
  rw [addressOf, Address.mem?_render h, Address.mem?]
  cases Text.word? a.offset <;> rfl

theorem transfers (host : Host) : Transfers dialect Shape (exec host) addressOf where
  move {i dst src} hshape hmove := by
    obtain ⟨hm, hops, himm, -⟩ := move?_eq_some hmove
    rw [hm, hops] at hshape ⊢
    simp only [Shape] at hshape
    have hsrc : src ∈ wholeRegs := hshape.2.resolve_left (Bool.eq_false_iff.1 himm)
    refine ⟨(facts_of_mem_wholeRegs hshape.1).2.2.1, (facts_of_mem_wholeRegs hsrc).2.2.1,
      fun s => ?_⟩
    rw [exec_mov host s (source?_of_mem hsrc), Source.read]
  -- an offset that is no number makes both sides undefined
  store {i r text} hshape hstore := by
    obtain ⟨hm, hops, -⟩ := store?_eq_some hstore
    rw [hm, hops] at hshape ⊢
    simp only [Shape] at hshape
    obtain ⟨hr, a, rfl, hbase⟩ := hshape
    refine ⟨(facts_of_mem_wholeRegs hr).2.2.1, fun s => ?_⟩
    have hmem := Address.mem?_render hbase
    rw [addressOf_render hbase]
    rw [Address.mem?] at hmem
    cases hw : Text.word? a.offset with
    | none => simp [exec, hmem, hw]
    | some w =>
      rw [hw, map_some] at hmem
      rw [exec_str host s hmem]
      rfl
  load {i r text} hshape hload := by
    obtain ⟨hm, hops, -⟩ := load?_eq_some hload
    rw [hm, hops] at hshape ⊢
    simp only [Shape] at hshape
    obtain ⟨hr, a, rfl, hbase, hne⟩ := hshape
    have hplain := (facts_of_mem_wholeRegs hr).2.2.1
    refine ⟨hplain, fun s word => ?_, fun s => ?_⟩
    · rw [addressOf_render hbase, addressOf_render hbase,
        State.get_set_of_ne hplain (facts_of_mem_wholeRegs hbase).2.2.1 hne]
    · have hmem := Address.mem?_render hbase
      rw [addressOf_render hbase]
      rw [Address.mem?] at hmem
      cases hw : Text.word? a.offset with
      | none => simp [exec, hmem, hw]
      | some w =>
        rw [hw, map_some] at hmem
        rw [exec_ldr host s hmem]
        rfl
  poke text s a word := by
    unfold addressOf
    cases mem? text [] with
    | none => rfl
    | some m => cases m with | mk base offset _ _ => cases offset <;> rfl

/-! ### When the rules apply -/

section Inversion

variable {i j : AsmInstr} {r : Replacement}

theorem operandsOf_eq_some {m : String} {ops : List String} :
    operandsOf m i = some ops ↔ i.mnemonic = m ∧ i.operands = ops := by
  simp [operandsOf]

theorem cancelAddSub_eq_some (h : cancelAddSub i j = some r) :
    ∃ op op' : Alu, (op = .add ∧ op' = .sub ∨ op = .sub ∧ op' = .add) ∧ ∃ dst amount w,
      i.mnemonic = op.mnemonic ∧ i.operands = [dst, dst, amount] ∧ j.mnemonic = op'.mnemonic ∧
      j.operands = [dst, dst, amount] ∧ immediate? amount = some w ∧ r = .dropBoth := by
  simp only [cancelAddSub, bind_eq_bind, bind_eq_some_iff, operandsOf_eq_some] at h
  obtain ⟨undo, hundo, _, ⟨hj, rfl⟩, h⟩ := h
  split at h
  · next dst src amount dst' src' amount' hi hj' =>
    split at h
    · next hcond =>
      simp only [Bool.and_eq_true, decide_eq_true_eq, isSome_iff_exists] at hcond
      obtain ⟨⟨⟨⟨rfl, rfl⟩, rfl⟩, rfl⟩, w, hw⟩ := hcond
      cases h
      unfold inverse? at hundo
      split at hundo
      · next hadd =>
        cases hundo
        exact ⟨.add, .sub, .inl ⟨rfl, rfl⟩, _, _, w, hadd, hi, hj, hj', hw, rfl⟩
      · split at hundo
        · next hsub =>
          cases hundo
          exact ⟨.sub, .add, .inr ⟨rfl, rfl⟩, _, _, w, hsub, hi, hj, hj', hw, rfl⟩
        · cases hundo
    · cases h
  · cases h

theorem otherOperand?_eq_some {name lhs rhs other : String}
    (h : otherOperand? name lhs rhs = some other) :
    other ≠ name ∧ (lhs = name ∧ rhs = other ∨ lhs = other ∧ rhs = name) := by
  unfold otherOperand? at h
  split at h
  · next hl =>
    split at h
    · cases h
    · next hr =>
      cases h
      exact ⟨hr, .inl ⟨hl, rfl⟩⟩
  · next hl =>
    split at h
    · next hr =>
      cases h
      exact ⟨hl, .inr ⟨rfl, hr⟩⟩
    · cases h

theorem mulToShift_eq_some (h : mulToShift i j = some r) :
    ∃ constant value dst lhs rhs other w k, i.mnemonic = "mov" ∧ i.operands = [constant, value] ∧
      j.mnemonic = "mul" ∧ j.operands = [dst, lhs, rhs] ∧ immediate? value = some w ∧
      exponent? w.toInt = some k ∧ otherOperand? constant lhs rhs = some other ∧
      r = .replaceSecond (Assembly.instructionText "lsl" [dst, other, "#" ++ toString k]) := by
  simp only [mulToShift, bind_eq_bind, bind_eq_some_iff, operandsOf_eq_some] at h
  obtain ⟨_, ⟨hi, rfl⟩, _, ⟨hj, rfl⟩, h⟩ := h
  split at h
  · next constant value dst lhs rhs hi' hj' =>
    simp only [bind_eq_some_iff] at h
    obtain ⟨w, hw, k, hk, other, hother, h⟩ := h
    split at h
    · cases h
    · cases h
      exact ⟨_, _, _, _, _, other, w, k, hi, hi', hj, hj', hw, hk, hother, rfl⟩
  · cases h

theorem pairStores_eq_some (h : pairStores i j = some r) :
    ∃ low high address address' base offset, i.mnemonic = "str" ∧ i.operands = [low, address] ∧
      j.mnemonic = "str" ∧ j.operands = [high, address'] ∧
      baseOffset? address = some (base, offset) ∧ baseOffset? address' = some (base, offset + 8) ∧
      r = .merge (Assembly.instructionText "stp" [low, high, address]) := by
  simp only [pairStores, bind_eq_bind, bind_eq_some_iff, operandsOf_eq_some] at h
  obtain ⟨_, ⟨hi, rfl⟩, _, ⟨hj, rfl⟩, h⟩ := h
  split at h
  · next low address high address' hi' hj' =>
    simp only [bind_eq_some_iff, Prod.exists] at h
    obtain ⟨base, offset, hbase, base', offset', hbase', h⟩ := h
    split at h
    · next hcond =>
      obtain ⟨rfl, rfl, -⟩ := hcond
      cases h
      exact ⟨_, _, _, _, base, offset, hi, hi', hj, hj', hbase, hbase', rfl⟩
    · cases h
  · cases h

theorem cmpZeroToTst_eq_some (h : cmpZeroToTst i j = some r) :
    ∃ reg zero, i.mnemonic = "cmp" ∧ i.operands = [reg, zero] ∧ immediate? zero = some 0 ∧
      r = .replaceFirst (Assembly.instructionText "tst" [reg, reg]) := by
  simp only [cmpZeroToTst, bind_eq_bind, bind_eq_some_iff, operandsOf_eq_some] at h
  obtain ⟨_, ⟨hi, rfl⟩, h⟩ := h
  split at h
  · next reg zero hi' =>
    simp only [bind_eq_some_iff] at h
    obtain ⟨condition, -, h⟩ := h
    split at h
    · next hcond =>
      cases h
      simp only [Bool.and_eq_true, decide_eq_true_eq] at hcond
      exact ⟨reg, zero, hi, hi', hcond.1, rfl⟩
    · cases h
  · cases h

theorem fuseMadd_eq_some (h : fuseMadd i j = some r) :
    ∃ dst lhs rhs x y addend, i.mnemonic = "mul" ∧ i.operands = [dst, lhs, rhs] ∧
      j.mnemonic = "add" ∧ j.operands = [dst, x, y] ∧ otherOperand? dst x y = some addend ∧
      isImmediate addend = false ∧
      r = .merge (Assembly.instructionText "madd" [dst, lhs, rhs, addend]) := by
  simp only [fuseMadd, bind_eq_bind, bind_eq_some_iff, operandsOf_eq_some] at h
  obtain ⟨_, ⟨hi, rfl⟩, _, ⟨hj, rfl⟩, h⟩ := h
  split at h
  · next product lhs rhs dst x y hi' hj' =>
    simp only [bind_eq_some_iff] at h
    obtain ⟨addend, haddend, h⟩ := h
    split at h
    · next hcond =>
      simp only [Bool.and_eq_true, decide_eq_true_eq, Bool.not_eq_true'] at hcond
      obtain ⟨rfl, himm⟩ := hcond
      cases h
      exact ⟨_, _, _, _, _, addend, hi, hi', hj, hj', haddend, himm, rfl⟩
    · cases h
  · cases h

end Inversion

/-! ### What the rules keep -/

theorem exponent?_eq_some {value : Int} {k : Nat} (h : exponent? value = some k) :
    value = 2 ^ k := by
  unfold exponent? at h
  split at h
  · next hpow =>
    cases h
    rw [Nat.one_shiftLeft] at hpow
    have hcast : (value.toNat : Int) = 2 ^ value.toNat.log2 := by exact_mod_cast hpow.2.symm
    rw [← hcast]
    omega
  · cases h

theorem mem?_of_baseOffset? {text base : String} {offset : Int}
    (h : baseOffset? text = some (base, offset)) :
    ∃ w : Int64, w.toInt = offset ∧ mem? text [] = some ⟨base, .imm w, false, none⟩ := by
  simp only [baseOffset?, bind_eq_bind, bind_eq_some_iff] at h
  obtain ⟨inner, hinner, h⟩ := h
  split at h
  · next hend =>
    have hbracket : ∃ w : Int64, w.toInt = offset ∧ bracketed? text = some (base, .imm w) := by
      simp only [bracketed?, hinner, bind_eq_bind, bind_some, hend, if_true]
      split at h
      · next hcut =>
        cases h
        exact ⟨0, rfl, by simp [hcut]⟩
      · next cs offsetText hcut =>
        simp only [bind_eq_some_iff] at h
        obtain ⟨w, hw, h⟩ := h
        cases h
        exact ⟨w, rfl, by simp [hcut, source?_of_immediate? hw]⟩
    -- the text ends with a bracket, so it has no mark of an update
    have hmark : Text.endsWith '!' text = false := by
      simp only [Text.endsWith, beq_iff_eq] at hend
      simp [Text.endsWith, Text.after?_eq_some hinner, getLast?_cons, hend]
    obtain ⟨w, hw, hbracket⟩ := hbracket
    exact ⟨w, hw, by simp [mem?, hmark, hbracket]⟩
  · cases h

section Keeps

variable (host : Host) {i j : AsmInstr} {r : Replacement}
  (hi : Shaped dialect.commentMark.toList Shape i.cell)
  (hj : Shaped dialect.commentMark.toList Shape j.cell)

include hi hj

omit hj in
theorem keeps_cancelAddSub (hr : cancelAddSub i j = some r) :
    Keeps dialect.commentMark.toList Shape (exec host) i.cell j.cell r := by
  obtain ⟨op, op', hops, dst, amount, w, him, hio, hjm, hjo, hw, rfl⟩ := cancelAddSub_eq_some hr
  have hsource := source?_of_immediate? hw
  have hshape := hi.shape
  rw [him, hio] at hshape
  rw [AsmInstr.cell, AsmInstr.cell, him, hio, hjm, hjo]
  have hdst : dst ∈ wholeRegs := by
    rcases hops with ⟨rfl, -⟩ | ⟨rfl, -⟩
    · simp only [Alu.mnemonic, Shape] at hshape
      exact hshape.1
    · simpa only [Alu.mnemonic, Shape] using hshape
  have hplain := (facts_of_mem_wholeRegs hdst).2.2.1
  have hback : ∀ x : Int64, op'.apply (op.apply x w) w = x := by
    intro x
    rcases hops with ⟨rfl, rfl⟩ | ⟨rfl, rfl⟩
    · exact Int64.add_sub_cancel x w
    · exact Int64.sub_add_cancel x w
  refine ⟨[], rfl, by simp, fun s => ?_⟩
  rw [straight_pair, exec_alu host s op hsource, bind_some, Effect.andThen,
    exec_alu host _ op' hsource, State.get_set_self hplain, State.set_set hplain, Source.read,
    Source.read, hback, State.set_get hplain, straight]

theorem keeps_mulToShift (hr : mulToShift i j = some r) :
    Keeps dialect.commentMark.toList Shape (exec host) i.cell j.cell r := by
  obtain ⟨constant, value, dst, lhs, rhs, other, w, k, him, hio, hjm, hjo, hw, hk, hother, rfl⟩ :=
    mulToShift_eq_some hr
  obtain ⟨hne, hside⟩ := otherOperand?_eq_some hother
  have hlegible := hj.legible
  have hconstant := hi.shape
  have hmul := hj.shape
  rw [him, hio] at hconstant
  rw [hjm, hjo] at hmul
  rw [hjo] at hlegible
  simp only [Shape] at hconstant hmul
  have hplain := (facts_of_mem_wholeRegs hconstant.1).2.2.1
  have hotherLegible : Legible ['/', '/'] other := by
    rcases hside with ⟨-, rfl⟩ | ⟨rfl, -⟩ <;> exact hlegible _ (by simp)
  have hnumber : Legible ['/', '/'] ("#" ++ toString k) :=
    Arg.Proper.legible (a := .imm k) trivial
  refine ⟨[i.cell, .instr "lsl" [dst, other, "#" ++ toString k]], rfl, ?_,
    fun s => ?_⟩
  · refine forall_mem_cons.2 ⟨hi, forall_mem_singleton.2 (.instr (by decide) ?_ trivial)⟩
    simp only [forall_mem_cons]
    exact ⟨hlegible dst (by simp), hotherLegible, hnumber, by simp⟩
  · have hpow : w.toInt = 2 ^ k := exponent?_eq_some hk
    have hamount : source? ("#" ++ toString k) = some (.imm (Int64.ofNat k)) := by
      have hlt : (k : Int) < 63 := by exact_mod_cast lt_of_toInt_eq_pow hpow
      rw [source?_number, Text.int64?_toString_nat, Text.word?_eq_some (by omega) (by omega),
        map_some, Int64.ofInt_eq_ofNat]
    -- the constant may be either factor
    have hproduct : ∀ s' : State, s'.get constant = w →
        s'.get lhs * s'.get rhs = s'.get other <<< Int64.ofNat k := by
      intro s' hs'
      rcases hside with ⟨rfl, rfl⟩ | ⟨rfl, rfl⟩
      · rw [hs', Int64.mul_comm, mul_eq_shiftLeft hpow]
      · rw [hs', mul_eq_shiftLeft hpow]
    rw [straight_pair, straight_pair, him, hio, hjm, hjo,
      exec_mov host s (source?_of_immediate? hw), bind_some, bind_some,
      Effect.andThen, Effect.andThen, exec_lsl host _ hamount,
      show "mul" = Alu.mul.mnemonic from rfl, exec_alu host _ .mul (source?_of_mem hmul.2.2)]
    simp only [Source.read, Alu.apply]
    rw [hproduct _ (State.get_set_self hplain)]

theorem keeps_pairStores (hr : pairStores i j = some r) :
    Keeps dialect.commentMark.toList Shape (exec host) i.cell j.cell r := by
  obtain ⟨low, high, address, address', base, offset, him, hio, hjm, hjo, hbase, hbase', rfl⟩ :=
    pairStores_eq_some hr
  obtain ⟨w, hw, hmem⟩ := mem?_of_baseOffset? hbase
  obtain ⟨w', hw', hmem'⟩ := mem?_of_baseOffset? hbase'
  have hnext : w' = w + 8 := by
    rw [← Int64.ofInt_toInt w', hw', ← hw, Int64.ofInt_add, Int64.ofInt_toInt]
    rfl
  have hlow := hi.legible
  have hhigh := hj.legible
  rw [hio] at hlow
  rw [hjo] at hhigh
  refine ⟨[.instr "stp" [low, high, address]], rfl, ?_, fun s => ?_⟩
  · refine forall_mem_singleton.2 (.instr (by decide) ?_ trivial)
    simp only [forall_mem_cons]
    exact ⟨hlow low (by simp), hhigh high (by simp), hlow address (by simp), by simp⟩
  · rw [straight_singleton, straight_pair, him, hio, hjm, hjo, exec_str host s hmem,
      exec_stp host s hmem]
    -- a store leaves the registers as they are, so the second one goes to the next word
    cases hstore : s.store (s.get base + w) (s.get low) with
    | none => rfl
    | some s' =>
      have hget : ∀ r, s'.get r = s.get r := fun r => State.get_of_store hstore
      rw [map_some, bind_some, bind_some, Effect.andThen,
        exec_str host s' hmem', hget, hget, hnext, Int64.add_assoc]

theorem keeps_cmpZeroToTst (hr : cmpZeroToTst i j = some r) :
    Keeps dialect.commentMark.toList Shape (exec host) i.cell j.cell r := by
  obtain ⟨reg, zero, him, hio, hzero, rfl⟩ := cmpZeroToTst_eq_some hr
  have hlegible := hi.legible
  have hshape := hi.shape
  rw [hio] at hlegible
  rw [him, hio] at hshape
  simp only [Shape] at hshape
  refine ⟨[.instr "tst" [reg, reg], j.cell], rfl, ?_, fun s => ?_⟩
  · refine forall_mem_cons.2 ⟨.instr (by decide) ?_ trivial, forall_mem_singleton.2 hj⟩
    simp only [forall_mem_cons]
    exact ⟨hlegible reg (by simp), hlegible reg (by simp), by simp⟩
  · have hflags : exec host "tst" [reg, reg] s = exec host "cmp" [reg, zero] s := by
      simp [exec, source?_of_mem hshape, source?_of_immediate? hzero, Op.exec, Source.read]
    rw [straight_pair, straight_pair, him, hio, hflags]

theorem keeps_fuseMadd (hr : fuseMadd i j = some r) :
    Keeps dialect.commentMark.toList Shape (exec host) i.cell j.cell r := by
  obtain ⟨dst, lhs, rhs, x, y, addend, him, hio, hjm, hjo, haddend, himm, rfl⟩ :=
    fuseMadd_eq_some hr
  obtain ⟨hne, hside⟩ := otherOperand?_eq_some haddend
  have hfactors := hi.legible
  have hterms := hj.legible
  have hmul := hi.shape
  have hadd := hj.shape
  rw [him, hio] at hmul
  rw [hjm, hjo] at hadd
  rw [hio] at hfactors
  rw [hjo] at hterms
  simp only [Shape] at hmul hadd
  -- the product may stand on either side of the sum; the other side has to be a register
  have hmem : addend ∈ wholeRegs := by
    rcases hside with ⟨-, rfl⟩ | ⟨rfl, -⟩
    · exact hadd.2.2.resolve_left (by simp [himm])
    · exact hadd.2.1
  have hy : y ∈ wholeRegs := by
    rcases hside with ⟨-, rfl⟩ | ⟨-, rfl⟩
    · exact hmem
    · exact hmul.1
  have hplain := (facts_of_mem_wholeRegs hmul.1).2.2.1
  refine ⟨[.instr "madd" [dst, lhs, rhs, addend]], rfl, ?_, fun s => ?_⟩
  · have hlegible : Legible ['/', '/'] addend := by
      rcases hside with ⟨-, rfl⟩ | ⟨rfl, -⟩ <;> exact hterms _ (by simp)
    refine forall_mem_singleton.2 (.instr (by decide) ?_ trivial)
    simp only [forall_mem_cons]
    exact ⟨hfactors dst (by simp), hfactors lhs (by simp), hfactors rhs (by simp), hlegible,
      by simp⟩
  · have hsum : ∀ p : Int64, (s.set dst p).get x + (s.set dst p).get y = p + s.get addend := by
      intro p
      have hother : (s.set dst p).get addend = s.get addend :=
        State.get_set_of_ne hplain (facts_of_mem_wholeRegs hmem).2.2.1 hne
      rcases hside with ⟨rfl, rfl⟩ | ⟨rfl, rfl⟩
      · rw [State.get_set_self hplain, hother]
      · rw [State.get_set_self hplain, hother, Int64.add_comm]
    rw [straight_singleton, straight_pair, him, hio, hjm, hjo, show "mul" = Alu.mul.mnemonic from rfl,
      exec_alu host s .mul (source?_of_mem hmul.2.2), bind_some, Effect.andThen,
      show "add" = Alu.add.mnemonic from rfl, exec_alu host _ .add (source?_of_mem hy), Source.read,
      Source.read, Alu.apply, Alu.apply, hsum, State.set_set hplain]
    rfl

theorem keeps_rules {rule : Rule} (hrule : rule ∈ rules) (hr : rule i j = some r) :
    Keeps dialect.commentMark.toList Shape (exec host) i.cell j.cell r := by
  simp only [rules, mem_cons, not_mem_nil, or_false] at hrule
  rcases hrule with rfl | rfl | rfl | rfl | rfl
  · exact keeps_cancelAddSub host hi hr
  · exact keeps_mulToShift host hi hj hr
  · exact keeps_pairStores host hi hj hr
  · exact keeps_cmpZeroToTst host hi hj hr
  · exact keeps_fuseMadd host hi hj hr

end Keeps

/-! ### What the rules write -/

inductive Made (i j : AsmInstr) : String → List String → Prop
  | lsl {dst lhs rhs other : String} (hm : j.mnemonic = "mul") (hops : j.operands = [dst, lhs, rhs])
      (hdst : dst ∈ wholeRegs) (hother : other ∈ wholeRegs) (k : Nat) :
      Made i j "lsl" [dst, other, "#" ++ toString k]
  | stp {low high address' : String} {a : Address} (him : i.mnemonic = "str")
      (hiops : i.operands = [low, a.render]) (hjm : j.mnemonic = "str")
      (hjops : j.operands = [high, address']) (hlow : low ∈ wholeRegs) (hhigh : high ∈ wholeRegs)
      (hbase : a.base ∈ wholeRegs) : Made i j "stp" [low, high, a.render]
  | tst {reg zero : String} (hm : i.mnemonic = "cmp") (hops : i.operands = [reg, zero])
      (hreg : reg ∈ wholeRegs) : Made i j "tst" [reg, reg]
  | madd {dst lhs rhs addend : String} (hm : i.mnemonic = "mul") (hops : i.operands = [dst, lhs, rhs])
      (hdst : dst ∈ wholeRegs) (hlhs : lhs ∈ wholeRegs) (hrhs : rhs ∈ wholeRegs)
      (haddend : addend ∈ wholeRegs) : Made i j "madd" [dst, lhs, rhs, addend]

section Made

variable {i j : AsmInstr} {m : String} {ops : List String}

theorem Made.mnemonic_mem (h : Made i j m ops) : m ∈ mnemonics := by
  cases h <;> decide

theorem Made.legible (h : Made i j m ops) : ∀ o ∈ ops, Legible ['/', '/'] o := by
  cases h with
  | lsl _ _ hdst hother k =>
    simp only [forall_mem_cons]
    exact ⟨legible_of_mem hdst, legible_of_mem hother, Arg.Proper.legible (a := .imm k) trivial,
      by simp⟩
  | stp _ _ _ _ hlow hhigh hbase =>
    simp only [forall_mem_cons]
    exact ⟨legible_of_mem hlow, legible_of_mem hhigh, Address.legible hbase, by simp⟩
  | tst _ _ hreg =>
    simp only [forall_mem_cons]
    exact ⟨legible_of_mem hreg, legible_of_mem hreg, by simp⟩
  | madd _ _ hdst hlhs hrhs haddend =>
    simp only [forall_mem_cons]
    exact ⟨legible_of_mem hdst, legible_of_mem hlhs, legible_of_mem hrhs, legible_of_mem haddend,
      by simp⟩

theorem Made.shape (h : Made i j m ops) : Shape m ops := by
  cases h <;> exact True.intro

theorem Made.shaped (h : Made i j m ops) : Shaped ['/', '/'] Shape (.instr m ops) :=
  .instr (isOpcode_of_mem h.mnemonic_mem) h.legible h.shape

theorem Made.item?_line (h : Made i j m ops) (n : Nat) :
    item? dialect n (.instruction (Assembly.instructionText m ops)) =
      some (.instr ⟨m, ops, n, Assembly.instructionText m ops⟩) := by
  have hmark : isMark dialect.commentMark.toList = true := by decide
  have hm : isOpcode dialect.commentMark.toList m = true := by
    rw [toList_commentMark]
    exact isOpcode_of_mem h.mnemonic_mem
  have hops : ∀ o ∈ ops, Legible dialect.commentMark.toList o := by
    rw [toList_commentMark]
    exact h.legible
  exact item?_instructionText hmark hm hops n

variable (hi : Shape i.mnemonic i.operands) (hj : Shape j.mnemonic j.operands) {r : Replacement}

include hj in
theorem made_of_mulToShift (hr : mulToShift i j = some r) :
    ∃ m ops, r = .replaceSecond (Assembly.instructionText m ops) ∧ Made i j m ops := by
  obtain ⟨constant, value, dst, lhs, rhs, other, w, k, -, -, hm, hops, -, -, hother, rfl⟩ :=
    mulToShift_eq_some hr
  rw [hm, hops] at hj
  simp only [Shape] at hj
  have hmem : other ∈ wholeRegs := by
    rcases (otherOperand?_eq_some hother).2 with ⟨-, rfl⟩ | ⟨rfl, -⟩
    · exact hj.2.2
    · exact hj.2.1
  exact ⟨_, _, rfl, .lsl hm hops hj.1 hmem k⟩

include hi hj in
theorem made_of_pairStores (hr : pairStores i j = some r) :
    ∃ m ops, r = .merge (Assembly.instructionText m ops) ∧ Made i j m ops := by
  obtain ⟨low, high, address, address', base, offset, him, hiops, hjm, hjops, -, -, rfl⟩ :=
    pairStores_eq_some hr
  rw [him, hiops] at hi
  rw [hjm, hjops] at hj
  simp only [Shape] at hi hj
  obtain ⟨hlow, a, rfl, hbase⟩ := hi
  exact ⟨_, _, rfl, .stp him hiops hjm hjops hlow hj.1 hbase⟩

include hi in
theorem made_of_cmpZeroToTst (hr : cmpZeroToTst i j = some r) :
    ∃ m ops, r = .replaceFirst (Assembly.instructionText m ops) ∧ Made i j m ops := by
  obtain ⟨reg, zero, hm, hops, -, rfl⟩ := cmpZeroToTst_eq_some hr
  rw [hm, hops] at hi
  simp only [Shape] at hi
  exact ⟨_, _, rfl, .tst hm hops hi⟩

include hi hj in
theorem made_of_fuseMadd (hr : fuseMadd i j = some r) :
    ∃ m ops, r = .merge (Assembly.instructionText m ops) ∧ Made i j m ops := by
  obtain ⟨dst, lhs, rhs, x, y, addend, him, hiops, hjm, hjops, hother, himm, rfl⟩ :=
    fuseMadd_eq_some hr
  rw [him, hiops] at hi
  rw [hjm, hjops] at hj
  simp only [Shape] at hi hj
  have hmem : addend ∈ wholeRegs := by
    rcases (otherOperand?_eq_some hother).2 with ⟨-, rfl⟩ | ⟨rfl, -⟩
    · exact hj.2.2.resolve_left (by simp [himm])
    · exact hj.2.1
  exact ⟨_, _, rfl, .madd him hiops hi.1 hi.2.1 hi.2.2 hmem⟩

omit hi hj in
theorem exists_made {first second line : Line}
    (hfirst : ShapedLine dialect.commentMark.toList Shape first)
    (hsecond : ShapedLine dialect.commentMark.toList Shape second) (hi : instr? dialect first = some i)
    (hj : instr? dialect second = some j) {rule : Rule} (hrule : rule ∈ rules) (hr : rule i j = some r)
    (hline : line ∈ r.made) :
    ∃ m ops, line = .instruction (Assembly.instructionText m ops) ∧ Made i j m ops := by
  have hi := (exists_of_instr? (by decide) hfirst hi).2.shape
  have hj := (exists_of_instr? (by decide) hsecond hj).2.shape
  simp only [rules, mem_cons, not_mem_nil, or_false] at hrule
  rcases hrule with rfl | rfl | rfl | rfl | rfl
  · obtain ⟨-, -, -, -, -, -, -, -, -, -, -, rfl⟩ := cancelAddSub_eq_some hr
    cases hline
  · obtain ⟨m, ops, rfl, hmade⟩ := made_of_mulToShift hj hr
    exact ⟨m, ops, mem_singleton.1 hline, hmade⟩
  · obtain ⟨m, ops, rfl, hmade⟩ := made_of_pairStores hi hj hr
    exact ⟨m, ops, mem_singleton.1 hline, hmade⟩
  · obtain ⟨m, ops, rfl, hmade⟩ := made_of_cmpZeroToTst hi hr
    exact ⟨m, ops, mem_singleton.1 hline, hmade⟩
  · obtain ⟨m, ops, rfl, hmade⟩ := made_of_fuseMadd hi hj hr
    exact ⟨m, ops, mem_singleton.1 hline, hmade⟩

end Made

end SsaBackend.Arm64
