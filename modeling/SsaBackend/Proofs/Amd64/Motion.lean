import SsaBackend.Proofs.Amd64.Select
import SsaBackend.Proofs.Check.Balance
import SsaBackend.Proofs.Schedule.Freshness

/-!
# How code moves the stack pointer on amd64

Prologues push and lower, calls push their arguments and take them off again, and epilogues raise and
pop; all other code leaves the stack pointer alone (`Instr.KeepsStack`). So the code of every step is
balanced or leaves (`balanced_or_leaving`).
-/

namespace SsaBackend.Amd64

open Asm Check List Listing Motion

variable {args : List Operand} {i : Instr} {effects : List StackEffect} {bytes : Nat}

/-! ### Single instructions -/

theorem isFrameSetup_eq {i : AsmInstr} (h : effects = [] → i.mnemonic ≠ "pushq") :
    Tracker.isFrameSetup dialect effects i = !effects.isEmpty := by
  have hwritten : (!(dialect.written i).isEmpty &&
      (dialect.written i).all dialect.frameScratch.contains) = false := by
    cases dialect.written i <;> rfl
  have hsaved : effects = [] → saved i = [] := by
    intro heffects
    unfold saved
    split
    · next hm _ => exact absurd hm (h heffects)
    · rfl
  unfold Tracker.isFrameSetup
  rw [hwritten, Bool.or_false]
  cases effects with
  | nil =>
    show (!(saved i).isEmpty || false || false) = false
    rw [hsaved rfl]
    rfl
  | cons e es => simp

def Instr.Moves (i : Instr) (m : Motion) : Prop := dialect.Steers i.line ∧ dialect.motion i.line = m

theorem mnemonic_notMem (i : Instr) : i.mnemonic ∉ ["ret", "leave"] := by
  cases i with
  | alu op src dst => cases op <;> simp [Instr.mnemonic, Alu.mnemonic]
  | setcc cond => cases cond <;> simp [Instr.mnemonic, Cond.setMnemonic]
  | _ => simp [Instr.mnemonic]

theorem moves_of_effects (h : i.Proper) (heffects : ∀ k n, stackEffects k (i.asm n) = effects)
    (hempty : effects = [] → i.mnemonic ≠ "pushq") (hsingle : effects = [] ∨
      i.mnemonic ≠ "retq" ∧ ∃ e, effects = [e] ∧ ∀ offset, e ≠ .restoreFrame offset) :
    i.Moves (.ofEffects (i.mnemonic = "retq") effects) := by
  have hreturn : ∀ n, dialect.isReturn (i.asm n) = decide (i.mnemonic = "retq") := by
    intro n
    have hret : i.mnemonic ≠ "ret" := fun heq => mnemonic_notMem i (by simp [heq])
    simp [dialect, isReturn, Instr.asm, hret]
  refine ⟨.instr (item?_line h) (fun j x hx => ?_) (fun n => ?_) hreturn heffects
    (fun n => isFrameSetup_eq hempty) ?_, ?_⟩
  · exact Finding.isStack_eq_false (Arch.isFrame_of_mem_operandFindings .amd64 hx)
  · exact contains_iff_mem.2 (mnemonic_mem i)
  · exact hsingle.imp_right fun h => ⟨decide_eq_false h.1, h.2⟩
  · simp only [Dialect.motion, item?_line h, hreturn]
    exact congrArg _ (heffects [] 0)

theorem moves_of_effect (h : i.Proper) {e : StackEffect}
    (heffect : ∀ k n, stackEffects k (i.asm n) = [e]) (hret : i.mnemonic ≠ "retq")
    (he : ∀ offset, e ≠ .restoreFrame offset) : i.Moves (.ofEffects false [e]) := by
  have hmoves := moves_of_effects h heffect (fun heq => by cases heq) (.inr ⟨hret, e, rfl, he⟩)
  rwa [decide_eq_false hret] at hmoves

theorem moves_pushq {src : Arg} (h : src.Proper) : (Instr.pushq src).Moves (.move 8) :=
  moves_of_effect (i := .pushq src) h (fun _ _ => rfl) (by simp [Instr.mnemonic]) (by simp)

theorem moves_popq {dst : Register} (h : dst ∈ wholeRegs) : (Instr.popq dst).Moves (up 8) :=
  moves_of_effect (i := .popq dst) h (fun _ _ => rfl) (by simp [Instr.mnemonic]) (by simp)

theorem moves_setFrame : (Instr.movq (.reg "rsp") (.reg "rbp")).Moves (.move 0) :=
  moves_of_effect (i := .movq (.reg "rsp") (.reg "rbp")) (e := .setFrame 0)
    (Instr.proper_movq stackPointer_mem framePointer_mem (by simp)) (fun _ _ => rfl)
    (by simp [Instr.mnemonic]) (by simp)

theorem moves_retq : Instr.retq.Moves .ret :=
  moves_of_effects (i := .retq) trivial (fun _ _ => rfl) (fun _ => by decide) (.inl rfl)

theorem amount?_imm (k : Constants) (n : Nat) :
    amount? k (Arg.imm n).render = if n < 2 ^ 63 then some (n : Int) else none := by
  have himm : immediate? (Arg.imm n).render = Text.word? n := by
    rw [immediate?, Arg.render, show "$" = String.ofList ['$'] from rfl, Text.after?_append,
      Option.bind_some, Text.int64?_toString]
  have hreg : register? (Arg.imm n).render = none := by
    simp [register?, Text.after?, Arg.render, String.toList_append]
  rw [amount?, himm, hreg, Option.bind_none, Option.or_none]
  split
  · rw [Text.word?_eq_some (by omega) (by omega), Option.map_some,
      Int64.toInt_ofInt_of_le (by omega) (by omega)]
  · next hlarge =>
    have hmax : Int64.maxValue.toInt = 2 ^ 63 - 1 := by decide
    rw [Text.word?, if_neg (by omega), Option.map_none]

def literalEffect (effect : Int → StackEffect) (n : Nat) : StackEffect :=
  if n < 2 ^ 63 then effect n else .unknown

theorem moves_alu (op : Alu) (effect : Int → StackEffect)
    (hop : (op, effect) ∈ [(Alu.sub, StackEffect.grow), (.add, .shrink)]) (n : Nat) :
    (Instr.alu op (.imm n) "rsp").Moves (.ofEffects false [literalEffect effect n]) := by
  have heffect : (if n < 2 ^ 63 then some (n : Int) else none).elim .unknown effect =
      literalEffect effect n := by
    unfold literalEffect
    split <;> rfl
  refine moves_of_effect (i := .alu op (.imm n) "rsp") ⟨trivial, stackPointer_mem⟩ (fun k m => ?_) ?_ ?_
  · rw [← heffect, ← amount?_imm k n]
    simp only [mem_cons, Prod.mk.injEq, not_mem_nil, or_false] at hop
    rcases hop with ⟨rfl, rfl⟩ | ⟨rfl, rfl⟩ <;> rfl
  · cases op <;> simp [Instr.mnemonic, Alu.mnemonic]
  · intro offset
    unfold literalEffect
    simp only [mem_cons, Prod.mk.injEq, not_mem_nil, or_false] at hop
    rcases hop with ⟨rfl, rfl⟩ | ⟨rfl, rfl⟩ <;> split <;> simp

def Instr.KeepsStack (i : Instr) : Prop :=
  i.mnemonic ∉ ["pushq", "popq", "retq"] ∧ "%rsp" ∉ i.operands

theorem stackEffects_eq_nil {i : AsmInstr} (hm : i.mnemonic ∉ ["pushq", "popq", "leave"])
    (h : "%rsp" ∉ i.operands) (k : Constants) : stackEffects k i = [] := by
  have hlast : i.operands.getLast? ≠ some "%rsp" := fun heq => h (mem_of_getLast? heq)
  unfold stackEffects
  split <;> simp_all [otherEffects]

theorem Instr.KeepsStack.moves (h : i.KeepsStack) (hi : i.Proper) : i.Moves .stay := by
  have hm := mnemonic_notMem i
  have hnames := h.1
  simp only [mem_cons, not_mem_nil, or_false, not_or] at hm hnames
  have hmoves := moves_of_effects hi (fun k n => stackEffects_eq_nil (i := i.asm n)
    (by simp [Instr.asm, hm, hnames]) h.2 k) (fun _ => hnames.1) (.inl rfl)
  rwa [decide_eq_false hnames.2.2] at hmoves

inductive Instr.Traceable : Instr → Prop
  | keeps {i : Instr} (h : i.KeepsStack) : i.Traceable
  | pushq (src : Arg) : (Instr.pushq src).Traceable
  | popq (dst : Register) : (Instr.popq dst).Traceable
  | setFrame : (Instr.movq (.reg "rsp") (.reg "rbp")).Traceable
  | lower (n : Nat) : (Instr.alu .sub (.imm n) "rsp").Traceable
  | raise (n : Nat) : (Instr.alu .add (.imm n) "rsp").Traceable
  | retq : Instr.retq.Traceable

theorem Instr.Traceable.steers (h : i.Traceable) (hi : i.Proper) : dialect.Steers i.line := by
  cases h with
  | keeps h => exact (h.moves hi).1
  | pushq src => exact (moves_pushq hi).1
  | popq dst => exact (moves_popq hi).1
  | setFrame => exact moves_setFrame.1
  | lower n => exact (moves_alu .sub .grow (by simp) n).1
  | raise n => exact (moves_alu .add .shrink (by simp) n).1
  | retq => exact moves_retq.1

/-! ### Code that leaves the stack pointer alone -/

theorem eq_of_render_eq {a : Arg} (h : a.render = "%rsp") : a = .reg "rsp" := by
  have hplace : Amd64.place? a.render = (Arg.reg "rsp").place? := h ▸ place?_render (.reg "rsp")
  rw [place?_render] at hplace
  cases a with
  | imm value => cases hword : Text.word? value <;> simp [Arg.place?, hword] at hplace
  | reg r => simpa using hplace
  | mem offset base => cases hword : Text.word? offset <;> simp [Arg.place?, hword] at hplace

@[simp] theorem stackPointer_ne_imm (value : Int) : "%rsp" ≠ (Arg.imm value).render := fun h => by
  cases eq_of_render_eq h.symm

@[simp] theorem stackPointer_ne_mem (offset : Int) (base : Register) :
    "%rsp" ≠ (Arg.mem offset base).render := fun h => by cases eq_of_render_eq h.symm

theorem stackPointer_ne_reg {r : Register} (h : r ≠ "rsp") : "%rsp" ≠ (Arg.reg r).render := fun heq =>
  h (Arg.reg.inj (eq_of_render_eq heq.symm))

theorem stackPointer_ne_name {name : String} (h : isReference name = true) : "%rsp" ≠ name := by
  rintro rfl
  exact absurd h (by decide)

theorem Arg.Usual.stackPointer_ne {a : Arg} (h : a.Usual target.valueRegs) : "%rsp" ≠ a.render := by
  cases h with
  | imm => exact stackPointer_ne_imm _
  | reg hr => exact stackPointer_ne_reg (facts_of_mem_workRegs hr).2.2
  | word => exact stackPointer_ne_mem _ _

theorem keepsStack_movq {src dst : Arg} :
    (Instr.movq src dst).KeepsStack ↔ "%rsp" ≠ src.render ∧ "%rsp" ≠ dst.render := by
  simp [Instr.KeepsStack, Instr.mnemonic, Instr.operands]

variable {f : Frame} {s : Step} {i : Instr}

theorem Emitted.keepsStack_or (h : Emitted target.valueRegs s i) (hs : s.Proper target.valueRegs) :
    i.KeepsStack ∨ (∃ callee args dst, s = .call callee args dst) ∧ i.Traceable := by
  have hreg : ∀ {r}, r ∈ workRegs target.valueRegs → "%rsp" ≠ (Arg.reg r).render := fun hr =>
    (Arg.Usual.reg hr).stackPointer_ne
  rw [Instr.KeepsStack]
  cases h with
  | load hsrc hdst => simp [Instr.mnemonic, Instr.operands, hsrc.stackPointer_ne, hreg hdst]
  | store hsrc => simp [Instr.mnemonic, Instr.operands, hsrc.stackPointer_ne]
  | movabsq value hdst => simp [Instr.mnemonic, Instr.operands, hreg hdst]
  | alu op hsrc hdst =>
    cases op <;> simp [Instr.mnemonic, Alu.mnemonic, Instr.operands, hsrc.stackPointer_ne, hreg hdst]
  | cmpq hsrc hdst =>
    simp [Instr.mnemonic, Instr.operands, hsrc.stackPointer_ne, hdst.stackPointer_ne]
  | testq hr => simp [Instr.mnemonic, Instr.operands, hreg hr]
  | setcc cond => cases cond <;> simp [Instr.mnemonic, Cond.setMnemonic, Instr.operands]
  | movzbq | cqto => simp [Instr.mnemonic, Instr.operands]
  | idivq h => simp [Instr.mnemonic, Instr.operands, h.stackPointer_ne]
  | callq heq =>
    subst heq
    simp [Instr.mnemonic, Instr.operands, stackPointer_ne_name hs.1]
  | jmp heq =>
    subst heq
    simp [Instr.mnemonic, Instr.operands, stackPointer_ne_name hs]
  | jne heq =>
    subst heq
    simp [Instr.mnemonic, Instr.operands, stackPointer_ne_name hs.2]
  | pushq heq => exact .inr ⟨⟨_, _, _, heq⟩, .pushq _⟩
  | shift heq hop bytes =>
    refine .inr ⟨⟨_, _, _, heq⟩, ?_⟩
    rcases hop with rfl | rfl
    · exact .lower bytes
    · exact .raise bytes

theorem Framed.traceable (h : Framed f i) : i.Traceable := by
  cases h with
  | pushq => exact .pushq _
  | popq => exact .popq _
  | setFrame => exact .setFrame
  | shift hop bytes =>
    rcases hop with rfl | rfl
    · exact .lower bytes
    · exact .raise bytes
  | retq => exact .retq

/-! ### Code -/

def motions (is : List Instr) : List Motion := is.map fun i => dialect.motion i.line

theorem motions_append (is is' : List Instr) : motions (is ++ is') = motions is ++ motions is' :=
  map_append

theorem map_motion_line (is : List Instr) :
    ((is.map Instr.render).map Line.instruction).map dialect.motion = motions is := by
  rw [map_map, map_map]
  rfl

theorem motions_singleton {i : Instr} {m : Motion} (h : i.Moves m) : motions [i] = [m] :=
  congrArg (fun m => [m]) h.2

theorem eq_stay_of_mem_motions {is : List Instr} (hs : s.Proper target.valueRegs)
    (hcall : ∀ callee args dst, s ≠ .call callee args dst) (h : ∀ i ∈ is, Emitted target.valueRegs s i) :
    ∀ m ∈ motions is, m = .stay := by
  intro m hm
  obtain ⟨i, hi, rfl⟩ := mem_map.1 hm
  have hkeeps := ((h i hi).keepsStack_or hs).resolve_right fun hor =>
    let ⟨_, _, _, heq⟩ := hor.1
    hcall _ _ _ heq
  refine (hkeeps.moves (((h i hi).call_or_proper hs.regular).resolve_left ?_)).2
  rintro ⟨callee, args, dst, heq, -⟩
  exact hcall callee args dst heq

theorem eq_stay_of_emitted {is : List Instr} (h : ∀ i ∈ is, Emitted target.valueRegs .epilogue i) :
    ∀ m ∈ motions is, m = .stay := eq_stay_of_mem_motions (s := .epilogue) trivial (by simp) h

theorem motions_lowerStack (h : bytes < 2 ^ 63) :
    motions (lowerStack bytes) = if bytes = 0 then [] else [.move bytes] := by
  have hmoves := moves_alu .sub .grow (by simp) bytes
  rw [literalEffect, if_pos h] at hmoves
  unfold lowerStack
  split
  · rfl
  · exact motions_singleton hmoves

theorem motions_raiseStack (h : bytes < 2 ^ 63) : motions (raiseStack bytes) = rise bytes := by
  have hmoves := moves_alu .add .shrink (by simp) bytes
  rw [literalEffect, if_pos h] at hmoves
  unfold raiseStack rise
  split
  · rfl
  · exact motions_singleton hmoves

theorem motions_pushes (h : ∀ a ∈ args, a.Within target.valueRegs) :
    (∀ m ∈ motions (args.flatMap fun a => (source f a).1 ++ [.pushq (source f a).2]),
        m = .stay ∨ m = .move 8) ∧
      total (motions (args.flatMap fun a => (source f a).1 ++ [.pushq (source f a).2])) =
        8 * args.length := by
  induction args with
  | nil => exact ⟨by simp [motions], rfl⟩
  | cons a args ih =>
    obtain ⟨ha, hargs⟩ := forall_mem_cons.1 h
    obtain ⟨hrest, htotal⟩ := ih hargs
    obtain ⟨hemitted, husual⟩ := emitted_source (f := f) ha
    have hsetup := eq_stay_of_emitted hemitted
    rw [flatMap_cons, motions_append, motions_append, motions_singleton (moves_pushq husual.proper)]
    refine ⟨?_, ?_⟩
    · refine forall_mem_append.2 ⟨forall_mem_append.2 ⟨?_, ?_⟩, hrest⟩
      · exact fun m hm => .inl (hsetup m hm)
      · exact forall_mem_singleton.2 (.inr rfl)
    · rw [total_append, total_append, total_of_stay hsetup, htotal, length_cons]
      simp only [total_cons, total_nil, Motion.bytes]
      omega

theorem motions_loads (h : ∀ a ∈ args, a.Within target.valueRegs) :
    ∀ m ∈ motions ((target.argRegs.zip args).flatMap fun a => loadReg f a.1 a.2), m = .stay := by
  refine eq_stay_of_emitted fun i hi => ?_
  obtain ⟨a, ha, hi⟩ := mem_flatMap.1 hi
  obtain ⟨hreg, harg⟩ := of_mem_zip (show (a.1, a.2) ∈ _ from ha)
  exact emitted_loadReg (h a.2 harg) (by simp [workRegs, hreg]) i hi

theorem motions_result {dst : Option Operand} (h : ∀ d ∈ dst, d.Within target.valueRegs) :
    ∀ m ∈ motions (dst.elim [] (storeReg f target.retReg)), m = .stay := by
  cases dst with
  | none => simp [motions]
  | some d => exact eq_stay_of_emitted (emitted_storeReg (h d rfl) acc_mem)

theorem balanced_of_pushes {us vs : List Motion} (hus : ∀ m ∈ us, m = .stay ∨ m = .move 8)
    (hstay : .stay ∈ us) (htotal : total us = bytes) (hvs : ∀ m ∈ vs, m = .stay) :
    Balanced (us ++ rise bytes ++ vs) := by
  refine .of_descends (fun m hm => (hus m hm).imp_right fun heq => ⟨8, heq⟩) hstay (fun n hn => ?_)
    htotal hvs
  rcases hus _ (mem_of_mem_head? hn) with heq | heq <;> cases heq
  decide

theorem balanced_call {callee : String} {dst : Option Operand} (hcallee : isReference callee = true)
    (hargs : ∀ a ∈ args, a.Within target.valueRegs) (hdst : ∀ d ∈ dst, d.Within target.valueRegs)
    (hcount : args.length ≤ target.maxCallArgs) : Balanced (motions (call f callee args dst)) := by
  have hmax : target.maxCallArgs = 22 := rfl
  generalize hstack : args.drop target.argRegs.length = stackArgs
  have hlength : stackArgs.length ≤ 22 := by
    rw [← hstack, length_drop]
    omega
  -- an odd number of words on the stack is padded, to keep it aligned
  generalize hpadding : (if stackArgs.length % 2 = 1 then 8 else 0) = padding
  have hsmall : padding ≤ 8 := by
    rw [← hpadding]
    split <;> omega
  have hlower : (∀ m ∈ motions (lowerStack padding), m = .stay ∨ m = .move 8) ∧
      total (motions (lowerStack padding)) = padding := by
    rw [motions_lowerStack (by omega), ← hpadding]
    split <;> simp [Motion.bytes]
  have hwithin : ∀ a ∈ stackArgs.reverse, a.Within target.valueRegs := fun a ha =>
    hargs a (mem_of_mem_drop (hstack ▸ mem_reverse.1 ha))
  obtain ⟨hpushes, hpushed⟩ := motions_pushes (f := f) hwithin
  have hloads := motions_loads (f := f) hargs
  have hcall : motions [.callq callee] = [.stay] := by
    have hkeeps : (Instr.callq callee).KeepsStack :=
      ⟨by simp [Instr.mnemonic], by simp [Instr.operands, stackPointer_ne_name hcallee]⟩
    exact motions_singleton (hkeeps.moves hcallee)
  -- down by the padding and the words one by one, up by both at once
  have hcode : motions (call f callee args dst) =
      (motions (lowerStack padding) ++ motions (stackArgs.reverse.flatMap fun a =>
          (source f a).1 ++ [.pushq (source f a).2]) ++
        (motions ((target.argRegs.zip args).flatMap fun a => loadReg f a.1 a.2) ++ [.stay])) ++
        rise (stackArgs.length * 8 + padding) ++ motions (dst.elim [] (storeReg f target.retReg)) := by
    simp only [call, hstack, hpadding, motions_append, hcall, append_assoc,
      motions_raiseStack (show stackArgs.length * 8 + padding < 2 ^ 63 by omega)]
  rw [hcode]
  refine balanced_of_pushes ?_ (by simp) ?_ (motions_result hdst)
  · refine forall_mem_append.2 ⟨forall_mem_append.2 ⟨hlower.1, hpushes⟩, ?_⟩
    refine forall_mem_append.2 ⟨fun m hm => .inl (hloads m hm), ?_⟩
    exact forall_mem_singleton.2 (.inl rfl)
  · rw [total_append, total_append, total_append, hlower.2, hpushed, total_of_stay hloads,
      length_reverse]
    simp only [total_cons, total_nil, Motion.bytes]
    omega

/-! ### Frames -/

def frameDepth (f : Frame) : Nat := 8 * (f.saved.length + 1) + restSize f

theorem motions_map {α : Type} {g : α → Instr} {m : Motion} {l : List α}
    (h : ∀ x ∈ l, (g x).Moves m) : motions (l.map g) = List.replicate l.length m := by
  refine eq_replicate_iff.2 ⟨by simp [motions], fun m' hm' => ?_⟩
  obtain ⟨i, hi, rfl⟩ := mem_map.1 hm'
  obtain ⟨x, hx, rfl⟩ := mem_map.1 hi
  exact (h x hx).2

variable (hsaved : ∀ r ∈ f.saved, r ∈ target.calleeSaved)

include hsaved

theorem leaving_epilogue (hrest : restSize f < 2 ^ 63) :
    Leaving (frameDepth f) (motions (epilogue f)) := by
  have hpops : motions (f.saved.reverse.map fun r => .popq r) =
      List.replicate f.saved.length (up 8) := by
    rw [motions_map fun r hr => moves_popq (mem_of_mem_calleeSaved (hsaved r (mem_reverse.1 hr))),
      length_reverse]
  have hend : motions [.popq "rbp", .retq] = [up 8, .ret] :=
    (motions_append [.popq "rbp"] [.retq]).trans
      (by rw [motions_singleton (moves_popq framePointer_mem), motions_singleton moves_retq]; rfl)
  obtain ⟨ns, hrise, hns⟩ : ∃ ns : List Nat, rise (restSize f) = ns.map up ∧ ns.sum = restSize f := by
    unfold rise
    split
    · next hzero => exact ⟨[], rfl, hzero.symm⟩
    · exact ⟨[restSize f], rfl, Nat.add_zero _⟩
  have hcode : motions (epilogue f) = (ns ++ List.replicate f.saved.length 8 ++ [8]).map up ++ [.ret] := by
    simp only [epilogue, motions_append, motions_raiseStack hrest, hrise, hpops, hend, map_append,
      map_replicate, map_cons, map_nil, append_assoc, cons_append, nil_append]
  have hsum : (ns ++ List.replicate f.saved.length 8 ++ [8]).sum = frameDepth f := by
    simp only [sum_append, sum_replicate_nat, hns, frameDepth, sum_singleton]
    omega
  rw [hcode, ← hsum]
  exact .of_rises (by simp)

theorem motions_prologue :
    ∃ ms, motions (prologue f) = ms ++ motions (lowerStack (restSize f)) ∧
      (∀ m ∈ ms, ∃ n : Nat, m = .move n) ∧ total ms = 8 * (f.saved.length + 1) := by
  have hpushes : motions (f.saved.map fun r => .pushq (.reg r)) =
      List.replicate f.saved.length (.move 8) :=
    motions_map fun r hr => moves_pushq (mem_of_mem_calleeSaved (hsaved r hr))
  have hpush : (Instr.pushq (.reg "rbp")).Moves (.move 8) := moves_pushq framePointer_mem
  have hstart : motions [.pushq (.reg "rbp"), .movq (.reg "rsp") (.reg "rbp")] = [.move 8, .move 0] := by
    refine (motions_append [.pushq (.reg "rbp")] [.movq (.reg "rsp") (.reg "rbp")]).trans ?_
    rw [motions_singleton hpush, motions_singleton moves_setFrame]
    rfl
  refine ⟨[.move 8, .move 0] ++ List.replicate f.saved.length (.move 8), ?_, ?_, ?_⟩
  · rw [prologue, motions_append, motions_append, hstart, hpushes]
  · refine forall_mem_append.2 ⟨?_, fun m hm => ⟨8, eq_of_mem_replicate hm⟩⟩
    exact forall_mem_cons.2 ⟨⟨8, rfl⟩, forall_mem_singleton.2 ⟨0, rfl⟩⟩
  · simp [total, Motion.bytes]
    omega

/-! ### Lines -/

theorem steers_prologue : ∀ i ∈ prologue f, dialect.Steers i.line := fun i hi =>
  (framed_prologue f i hi).traceable.steers (prologue_proper hsaved i hi)

omit hsaved in
theorem traceable_lower (hs : s.Proper target.valueRegs) : ∀ i ∈ lower f s, i.Traceable := by
  intro i hi
  by_cases h : s = .epilogue
  · subst h
    exact (framed_epilogue f i hi).traceable
  · exact ((emitted_lower hs.regular h i hi).keepsStack_or hs).elim .keeps And.right

theorem steers_stepLines (hs : s.Proper target.valueRegs)
    (hlabel : ∀ name, s = .label name → (Text.afterText? ".L" name).isSome) (o : Options) :
    ∀ line ∈ isa.stepLines o f s, dialect.Steers line := by
  have hcode : ∀ line ∈ ((lower f s).map Instr.render).map Line.instruction, dialect.Steers line := by
    simp only [forall_mem_map]
    exact fun i hi => (traceable_lower hs i hi).steers (lower_proper (fun _ => hsaved) hs i hi)
  cases s with
  | label name => exact forall_mem_singleton.2 (.label (hlabel name rfl))
  | _ => exact hcode

theorem balanced_or_leaving (hs : s.Proper target.valueRegs)
    (hargs : s.args.length ≤ target.maxCallArgs) (hrest : restSize f < 2 ^ 63) (o : Options) :
    s ≠ .epilogue ∧ Balanced ((isa.stepLines o f s).map dialect.motion) ∨
      s = .epilogue ∧ Leaving (frameDepth f) ((isa.stepLines o f s).map dialect.motion) := by
  have hcode := map_motion_line (lower f s)
  cases s with
  | label name => exact .inl ⟨by simp, .of_stay (forall_mem_singleton.2 rfl)⟩
  | call callee args dst => exact .inl ⟨by simp, hcode ▸ balanced_call hs.1 hs.2.1 hs.2.2 hargs⟩
  | epilogue => exact .inr ⟨rfl, hcode ▸ leaving_epilogue hsaved hrest⟩
  | _ =>
    refine .inl ⟨by simp, hcode ▸ .of_stay (eq_stay_of_mem_motions hs ?_ ?_)⟩
    · simp
    · exact emitted_lower hs.regular (by simp)

theorem count_ret {steps : List Step} (hproper : ∀ s ∈ steps, s.Proper target.valueRegs)
    (hargs : ∀ s ∈ steps, s.args.length ≤ target.maxCallArgs) (hrest : restSize f < 2 ^ 63)
    (o : Options) :
    ((steps.flatMap (isa.stepLines o f)).map dialect.motion).count .ret = steps.count .epilogue := by
  induction steps with
  | nil => rfl
  | cons s steps ih =>
    obtain ⟨hs, hsteps⟩ := forall_mem_cons.1 hproper
    obtain ⟨hcount, hcounts⟩ := forall_mem_cons.1 hargs
    rw [flatMap_cons, map_append, count_append, ih hsteps hcounts, count_cons]
    rcases balanced_or_leaving hsaved hs hcount hrest o with ⟨hne, hbalanced⟩ | ⟨rfl, hleaving⟩
    · rw [count_eq_zero.2 hbalanced.ret, beq_false_of_ne hne, Nat.zero_add]
      rfl
    · rw [hleaving.ret, beq_self_eq_true, if_pos rfl, Nat.add_comm]

/-! ### Whole functions -/

theorem run_prologue :
    Tracker.start.pose.objectsIn (motions (prologue f)) = false ∧
      (restSize f < 2 ^ 63 →
        Tracker.start.pose.run (motions (prologue f)) = .opening (frameDepth f)) ∧
      (¬ restSize f < 2 ^ 63 → (Tracker.start.pose.run (motions (prologue f))).tracking = false) := by
  obtain ⟨ms, hms, hmoves, htotal⟩ := motions_prologue hsaved
  have hstart : Tracker.start.pose = .opening 0 := rfl
  rw [hms, hstart]
  by_cases hrest : restSize f < 2 ^ 63
  · have hlower : ∀ m ∈ motions (lowerStack (restSize f)), ∃ n : Nat, m = .move n := by
      rw [motions_lowerStack hrest]
      split
      · simp
      · exact forall_mem_singleton.2 ⟨_, rfl⟩
    have hbytes : total (motions (lowerStack (restSize f))) = restSize f := by
      rw [motions_lowerStack hrest]
      split <;> simp_all [Motion.bytes]
    obtain ⟨hrun, hquiet⟩ := Pose.opening_reaches
      (forall_mem_append.2 ⟨hmoves, hlower⟩) (Int.le_refl 0)
    refine ⟨hquiet, fun _ => ?_, fun hlarge => absurd hrest hlarge⟩
    rw [hrun, total_append, htotal, hbytes, frameDepth]
    congr 1
    omega
  · have hlose : motions (lowerStack (restSize f)) = [.lose] := by
      have hmoves := moves_alu .sub .grow (by simp) (restSize f)
      rw [literalEffect, if_neg hrest] at hmoves
      rw [lowerStack, if_neg (by omega), motions_singleton hmoves]
      rfl
    obtain ⟨hrun, hquiet⟩ := Pose.opening_reaches hmoves (Int.le_refl 0)
    rw [hlose, Pose.objectsIn_append, Pose.run_append, hrun, hquiet]
    exact ⟨rfl, fun hsmall => absurd hsmall hrest, fun _ => rfl⟩

theorem any_isStack_follow {steps : List Step}
    (hproper : ∀ s ∈ steps, s.Proper target.valueRegs)
    (hlabel : ∀ name, .label name ∈ steps → (Text.afterText? ".L" name).isSome)
    (hargs : ∀ s ∈ steps, s.args.length ≤ target.maxCallArgs) (o : Options) (n : Nat) :
    (follow dialect .start (items dialect n ((isa.prologue o f).map .instruction ++
        steps.flatMap (isa.stepLines o f)))).any (fun x => x.cause.isStack) =
      (decide (restSize f < 2 ^ 63) &&
        ((steps.flatMap (isa.stepLines o f)).head?.any (fun line => (dialect.motion line).isMove) &&
          decide (2 ≤ steps.count .epilogue))) := by
  have hprologue : ((isa.prologue o f).map Line.instruction).map dialect.motion =
      motions (prologue f) := map_motion_line _
  have hbody : (steps.flatMap (isa.stepLines o f)).map dialect.motion =
      (steps.map fun s => (isa.stepLines o f s).map dialect.motion).flatten := by
    rw [map_flatMap, flatMap_def]
  have hsteers : ∀ line ∈ (isa.prologue o f).map .instruction ++ steps.flatMap (isa.stepLines o f),
      dialect.Steers line := by
    refine forall_mem_append.2 ⟨?_, fun line hline => ?_⟩
    · simp only [isa, forall_mem_map]
      exact steers_prologue hsaved
    · obtain ⟨s, hs, hline⟩ := mem_flatMap.1 hline
      refine steers_stepLines hsaved (hproper s hs) (fun name hname => ?_) o line hline
      exact hlabel name (hname ▸ hs)
  obtain ⟨hquiet, hopening, hlost⟩ := run_prologue hsaved
  rw [(follow_of_steers hsteers .start n).2, map_append, hprologue, Pose.objectsIn_append, hquiet,
    Bool.false_or]
  by_cases hrest : restSize f < 2 ^ 63
  · have hstretches : ∀ ms ∈ steps.map fun s => (isa.stepLines o f s).map dialect.motion,
        Balanced ms ∨ Leaving (frameDepth f) ms := by
      simp only [forall_mem_map]
      exact fun s hs => (balanced_or_leaving hsaved (hproper s hs) (hargs s hs) hrest o).imp
        And.right And.right
    rw [hopening hrest, decide_eq_true hrest, Bool.true_and, hbody,
      Pose.objectsIn_schedule hstretches (Int.natCast_nonneg _) (by rw [frameDepth]; omega), ← hbody,
      count_ret hsaved hproper hargs hrest o, head?_map, Option.any_map]
  · rw [Pose.objectsIn_of_lost (hlost hrest), decide_eq_false hrest, Bool.false_and]

end SsaBackend.Amd64
