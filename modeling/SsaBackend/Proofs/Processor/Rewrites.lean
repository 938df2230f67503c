import SsaBackend.Proofs.Arm64.Peephole
import SsaBackend.Proofs.Processor.Arm64

/-!
# Rewriting pairs of instructions

The rules for arm64 keep what a processor does, for any two instructions over the general registers that
they fire on, whoever wrote them (`rules_keep`). The lines that a rule leaves do the same as the two lines
that it saw: to the registers, to memory, to where control goes and to the flags, except for the carry flag
where a comparison with zero becomes a test.
-/

namespace SsaBackend.Processor

open List Option

/-- Two results that differ at most in the carry flag. -/
structure Result.AgreesButCarry (r r' : Result) : Prop where
  registers : r.state.registers = r'.state.registers
  memory : r.state.memory = r'.state.memory
  control : r.control = r'.control
  negative : r.state.flags.negative = r'.state.flags.negative
  zero : r.state.flags.zero = r'.state.flags.zero
  overflow : r.state.flags.overflow = r'.state.flags.overflow

theorem Result.AgreesButCarry.refl (r : Result) : r.AgreesButCarry r :=
  ⟨rfl, rfl, rfl, rfl, rfl, rfl⟩

namespace Arm64

open SsaBackend.Arm64 Listing

variable {i : AsmInstr} {a : Operation} {f : List String → Option Operation} {r : Replacement}
variable {b : Operation} {j : AsmInstr}

/-- An instruction over the general registers. The stack pointer may be the base of an address. -/
def IsGeneral (i : AsmInstr) : Prop :=
  ∀ index operand, i.operand? index = some operand → labelOperand? i ≠ some index →
    ∀ r ∈ registers operand, r ∈ numbered "x" 31 ∨ (isMemory operand = true ∧ r = "sp")

/-- What the instruction of a line does. -/
def lineOperation? (line : Line) : Option Operation :=
  (Peephole.instr? dialect line).bind operation?

/-! ### Instructions over the general registers -/

theorem IsGeneral.whole (hi : IsGeneral i) (hlabel : labelOperand? i = none) (index : Nat)
    {name : String} (hop : i.operands[index]? = some name) {v : View} (hv : view? name = some v) :
    name ∈ numbered "x" 31 ∧ v = .whole name := by
  obtain ⟨hregs, hmem, -⟩ := facts_of_view? hv
  have hname : name ∈ numbered "x" 31 := by
    simpa [hmem] using hi index name hop (by simp [hlabel]) name (by simp [hregs])
  rw [view?_of_mem hname] at hv
  exact ⟨hname, (Option.some.inj hv).symm⟩

/-! ### Instructions -/

structure HasForm (i : AsmInstr) (f : List String → Option Operation) : Prop where
  branch : Text.afterText? "b." i.mnemonic = none
  form : operations.lookup i.mnemonic = some f
  label : ["b", "bl", "cbz", "cbnz"].contains i.mnemonic = false

theorem HasForm.of_mnemonic {m : String} (hm : i.mnemonic = m)
    (hbranch : Text.afterText? "b." m = none) (hform : operations.lookup m = some f)
    (hlabel : ["b", "bl", "cbz", "cbnz"].contains m = false) : HasForm i f := by
  subst hm
  exact ⟨hbranch, hform, hlabel⟩

namespace HasForm

variable {i : AsmInstr} {f : List String → Option Operation} (h : HasForm i f)

include h

theorem operation? : operation? i = f i.operands := operation?_of_mnemonic rfl h.branch h.form

theorem labelOperand? : labelOperand? i = none := by
  have hlabel := h.label
  simp only [contains_cons, contains_nil, Bool.or_eq_false_iff, beq_eq_false_iff_ne] at hlabel
  simp [SsaBackend.Arm64.labelOperand?, isCondBranch, h.branch, hlabel]

end HasForm

variable {dst lhs rhs : String}

section Forms

variable {i : AsmInstr} (hi : IsGeneral i) {a : Operation} (ha : operation? i = some a)

include hi ha

theorem eq_set_of_compute {f : Binary} (hform : HasForm i (compute f))
    (hops : i.operands = [dst, lhs, rhs]) : dst ∈ numbered "x" 31 ∧ lhs ∈ numbered "x" 31 ∧
      ∃ y, reading? rhs = some y ∧
        a = .set (.whole dst) fun e s => f 64 (s.registers lhs) (y e s) := by
  rw [hform.operation?, hops] at ha
  simp only [compute, source?, bind_eq_bind, bind_eq_some_iff] at ha
  obtain ⟨d, hd, x, hx, y, hy, ⟨⟩⟩ := ha
  obtain ⟨hdst, rfl⟩ := hi.whole hform.labelOperand? 0 (by simp [hops]) hd
  obtain ⟨hlhs, rfl⟩ := hi.whole hform.labelOperand? 1 (by simp [hops]) hx
  exact ⟨hdst, hlhs, y, hy, by simp [Binary.at]⟩

omit hi ha in
theorem compute_eq (hdst : dst ∈ numbered "x" 31)
    (hlhs : lhs ∈ numbered "x" 31) {y : Reading} (hy : reading? rhs = some y) (f : Binary) :
    compute f [dst, lhs, rhs] = some (.set (.whole dst) fun e s => f 64 (s.registers lhs) (y e s)) := by
  simp [compute, source?, view?_of_mem hdst, view?_of_mem hlhs, hy, Binary.at]

theorem eq_set_of_combine {f : Binary} (hform : HasForm i (combine f))
    (hops : i.operands = [dst, lhs, rhs]) :
    (∀ r ∈ [dst, lhs, rhs], r ∈ numbered "x" 31) ∧
      a = .set (.whole dst) fun _ s => f 64 (s.registers lhs) (s.registers rhs) := by
  rw [hform.operation?, hops] at ha
  simp only [combine, bind_eq_bind, bind_eq_some_iff] at ha
  obtain ⟨d, hd, x, hx, y, hy, ⟨⟩⟩ := ha
  obtain ⟨hdst, rfl⟩ := hi.whole hform.labelOperand? 0 (by simp [hops]) hd
  obtain ⟨hlhs, rfl⟩ := hi.whole hform.labelOperand? 1 (by simp [hops]) hx
  obtain ⟨hrhs, rfl⟩ := hi.whole hform.labelOperand? 2 (by simp [hops]) hy
  exact ⟨by simp [hdst, hlhs, hrhs], by simp [Binary.at]⟩

theorem eq_set_of_move (hform : HasForm i move) {src : String} (hops : i.operands = [dst, src]) :
    dst ∈ numbered "x" 31 ∧ ∃ x, reading? src = some x ∧ a = .set (.whole dst) x := by
  rw [hform.operation?, hops] at ha
  simp only [move, bind_eq_bind, bind_eq_some_iff] at ha
  obtain ⟨d, hd, x, hx, ⟨⟩⟩ := ha
  obtain ⟨hdst, rfl⟩ := hi.whole hform.labelOperand? 0 (by simp [hops]) hd
  exact ⟨hdst, x, hx, rfl⟩

theorem eq_flags_of_compare {f : (width : Nat) → BitVec width → BitVec width → Flags}
    (hform : HasForm i (compare f)) (hops : i.operands = [lhs, rhs]) :
    lhs ∈ numbered "x" 31 ∧ ∃ y, reading? rhs = some y ∧
      a = { flags := fun e s => f 64 (s.registers lhs) (y e s) } := by
  rw [hform.operation?, hops] at ha
  simp only [compare, source?, bind_eq_bind, bind_eq_some_iff] at ha
  obtain ⟨x, hx, y, hy, ⟨⟩⟩ := ha
  obtain ⟨hlhs, rfl⟩ := hi.whole hform.labelOperand? 0 (by simp [hops]) hx
  exact ⟨hlhs, y, hy, by simp⟩

omit hi ha in
theorem compare_eq (hlhs : lhs ∈ numbered "x" 31) {y : Reading}
    (hy : reading? rhs = some y) (f : (width : Nat) → BitVec width → BitVec width → Flags) :
    compare f [lhs, rhs] = some { flags := fun e s => f 64 (s.registers lhs) (y e s) } := by
  simp [compare, source?, view?_of_mem hlhs, hy]

end Forms

/-! ### New lines -/

theorem legible_of_general {r : Register} (h : r ∈ numbered "x" 31) : Legible ['/', '/'] r :=
  legible_of_mem (mem_append_left ["sp"] h)

theorem lineOperation?_instructionText {m : String} {ops : List String} (hm : m ∈ mnemonics)
    (hbranch : Text.afterText? "b." m = none) (hform : operations.lookup m = some f)
    (hops : ∀ o ∈ ops, Legible ['/', '/'] o) :
    lineOperation? (.instruction (Assembly.instructionText m ops)) = f ops := by
  have hread := Asm.instr?_instructionText (d := dialect) (by decide) (isOpcode_of_mem hm) hops
  rw [lineOperation?, hread, bind_some, operation?, hbranch, hform]
  rfl

theorem mapM_single {line : Line} (h : lineOperation? line = some a) :
    [line].mapM lineOperation? = some [a] := by
  simp [h]

theorem mapM_pair {line line' : Line} (h : lineOperation? line = some a)
    (h' : lineOperation? line' = some b) : [line, line'].mapM lineOperation? = some [a, b] := by
  simp [h, h']

/-! ### Rules -/

/-- Whatever the settings, the operations `ops'` end like `ops` do. -/
def Replaces (R : Result → Result → Prop) (ops ops' : List Operation) : Prop :=
  ∀ (settings settings' : List Setting) (s : State), settings.length = ops.length →
    settings'.length = ops'.length → ∃ r r', run (ops.zip settings) s = some r ∧
      run (ops'.zip settings') s = some r' ∧ R r' r

abbrev Keeps (R : Result → Result → Prop) (lines : List Line) (ops : List Operation) : Prop :=
  ∃ ops', lines.mapM lineOperation? = some ops' ∧ Replaces R ops ops'

theorem Replaces.mono {R R' : Result → Result → Prop} (hR : ∀ r r', R r r' → R' r r')
    {ops ops' : List Operation} (h : Replaces R ops ops') : Replaces R' ops ops' := by
  intro settings settings' s hlength hlength'
  obtain ⟨r, r', hrun, hrun', hrel⟩ := h settings settings' s hlength hlength'
  exact ⟨r, r', hrun, hrun', hR r' r hrel⟩

theorem mul_eq_shiftLeft {w : Int64} {k : Nat} (h : w.toInt = 2 ^ k) (x : Word) :
    x * w.toBitVec = x <<< k := by
  have hk : k < 63 := Asm.lt_of_toInt_eq_pow h
  have hmul := congrArg Int64.toBitVec (Asm.mul_eq_shiftLeft h (Int64.ofBitVec x))
  rwa [Int64.toBitVec_mul, Asm.toBitVec_shiftLeft_ofNat _ (by omega)] at hmul

section Rules

variable {first second : Line} {i j : AsmInstr} {a b : Operation}
  (hfirst : lineOperation? first = some a) (hsecond : lineOperation? second = some b)
  (hi : IsGeneral i) (hj : IsGeneral j) (ha : operation? i = some a) (hb : operation? j = some b)
  {r : Replacement}

include hi hj ha hb

theorem cancelAddSub_keeps (hr : cancelAddSub i j = some r) :
    Keeps (· = ·) (r.lines first second) [a, b] := by
  obtain ⟨op, op', hop, dst, amount, w, him, hio, hjm, hjo, hw, rfl⟩ := cancelAddSub_eq_some hr
  have hcancel : ∃ f g : Binary, HasForm i (compute f) ∧ HasForm j (compute g) ∧
      ∀ x y : Word, g 64 (f 64 x y) y = x := by
    rcases hop with ⟨rfl, rfl⟩ | ⟨rfl, rfl⟩
    · exact ⟨_, _, .of_mnemonic him rfl rfl rfl, .of_mnemonic hjm rfl rfl rfl, BitVec.add_sub_cancel⟩
    · exact ⟨_, _, .of_mnemonic him rfl rfl rfl, .of_mnemonic hjm rfl rfl rfl, BitVec.sub_add_cancel⟩
  obtain ⟨f, g, hf, hg, hback⟩ := hcancel
  obtain ⟨-, -, x, hx, rfl⟩ := eq_set_of_compute hi ha hf hio
  obtain ⟨-, -, y, hy, rfl⟩ := eq_set_of_compute hj hb hg hjo
  cases hx.symm.trans (reading?_of_immediate? hw)
  cases hy.symm.trans (reading?_of_immediate? hw)
  refine ⟨[], rfl, fun settings settings' s hlength hlength' => ?_⟩
  obtain ⟨e, e', rfl⟩ := length_eq_two.1 hlength
  obtain rfl := length_eq_zero_iff.1 hlength'
  refine ⟨_, _, rfl, rfl, ?_⟩
  simp [literal, hback]

include hfirst in
theorem mulToShift_keeps (hr : mulToShift i j = some r) :
    Keeps (· = ·) (r.lines first second) [a, b] := by
  obtain ⟨constant, value, dst, lhs, rhs, other, w, k, him, hio, hjm, hjo, hw, hk, hother, rfl⟩ :=
    mulToShift_eq_some hr
  obtain ⟨hne, hside⟩ := otherOperand?_eq_some hother
  obtain ⟨hconstant, x, hx, rfl⟩ := eq_set_of_move hi ha (.of_mnemonic him rfl rfl rfl) hio
  obtain ⟨hregs, rfl⟩ := eq_set_of_combine hj hb (.of_mnemonic hjm rfl rfl rfl) hjo
  cases hx.symm.trans (reading?_of_immediate? hw)
  have hdst : dst ∈ numbered "x" 31 := hregs dst (by simp)
  have hotherMem : other ∈ numbered "x" 31 := by
    rcases hside with ⟨-, rfl⟩ | ⟨rfl, -⟩ <;> exact hregs _ (by simp)
  have hpow : w.toInt = 2 ^ k := exponent?_eq_some hk
  have hlt : k < 63 := Asm.lt_of_toInt_eq_pow hpow
  have hamount : reading? ("#" ++ toString k) = some (literal (Int64.ofNat k).toBitVec) := by
    refine reading?_of_immediate? ?_
    rw [immediate?_number, Text.int64?_toString_nat, Text.word?_eq_some (by omega) (by omega),
      Int64.ofInt_eq_ofNat]
  have hline : lineOperation?
      (.instruction (Assembly.instructionText "lsl" [dst, other, "#" ++ toString k])) =
      some (.set (.whole dst) fun _ s => s.registers other <<< k) := by
    rw [lineOperation?_instructionText (by decide) rfl rfl, compute_eq hdst hotherMem hamount]
    · have hmod : ∀ k < 63, (Int64.ofNat k).toBitVec.toNat % 64 = k := by decide
      simp only [literal, hmod k hlt]
    · simp only [forall_mem_cons]
      exact ⟨legible_of_general hdst, legible_of_general hotherMem,
        Arg.Proper.legible (a := .imm k) trivial, by simp⟩
  refine ⟨_, mapM_pair hfirst hline, fun settings settings' s hlength hlength' => ?_⟩
  obtain ⟨e, e', rfl⟩ := length_eq_two.1 hlength
  obtain ⟨e₁, e₁', rfl⟩ := length_eq_two.1 hlength'
  refine ⟨_, _, rfl, rfl, ?_⟩
  have hproduct : ∀ s' : State, s'.registers constant = w.toBitVec →
      s'.registers lhs * s'.registers rhs = s'.registers other <<< k := by
    intro s' hs'
    rcases hside with ⟨rfl, rfl⟩ | ⟨rfl, rfl⟩
    · rw [hs', BitVec.mul_comm, mul_eq_shiftLeft hpow]
    · rw [hs', mul_eq_shiftLeft hpow]
  simp [literal, hproduct]

omit hfirst hsecond in
theorem fuseMadd_keeps (hr : fuseMadd i j = some r) :
    Keeps (· = ·) (r.lines first second) [a, b] := by
  obtain ⟨dst, lhs, rhs, x, y, addend, him, hio, hjm, hjo, haddend, himm, rfl⟩ :=
    fuseMadd_eq_some hr
  obtain ⟨hne, hside⟩ := otherOperand?_eq_some haddend
  obtain ⟨hregs, rfl⟩ := eq_set_of_combine hi ha (.of_mnemonic him rfl rfl rfl) hio
  have hadd : HasForm j (compute fun _ x y => x + y) := .of_mnemonic hjm rfl rfl rfl
  obtain ⟨-, hx, z, hz, rfl⟩ := eq_set_of_compute hj hb hadd hjo
  have hterms : addend ∈ numbered "x" 31 ∧ ∃ v : View, view? y = some v ∧ z = v.read := by
    rcases hside with ⟨-, rfl⟩ | ⟨rfl, rfl⟩
    · obtain ⟨v, hv, rfl⟩ := view?_of_reading? himm hz
      exact ⟨(hj.whole hadd.labelOperand? 2 (by simp [hjo]) hv).1, v, hv, rfl⟩
    · exact ⟨hx, _, view?_of_mem (hregs y (by simp)),
        Option.some.inj (hz.symm.trans (reading?_of_view? (view?_of_mem (hregs y (by simp)))))⟩
  obtain ⟨hmem, v, hv, rfl⟩ := hterms
  obtain ⟨-, rfl⟩ := hj.whole hadd.labelOperand? 2 (by simp [hjo]) hv
  have hline : lineOperation?
      (.instruction (Assembly.instructionText "madd" [dst, lhs, rhs, addend])) =
      some (.set (.whole dst) fun _ s =>
        s.registers addend + s.registers lhs * s.registers rhs) := by
    rw [lineOperation?_instructionText (by decide) rfl rfl]
    · simp [accumulate, view?_of_mem hmem, fun r hr => view?_of_mem (hregs r hr), Binary.at]
      rfl
    · simp only [forall_mem_cons]
      exact ⟨legible_of_general (hregs dst (by simp)), legible_of_general (hregs lhs (by simp)),
        legible_of_general (hregs rhs (by simp)), legible_of_general hmem, by simp⟩
  refine ⟨_, mapM_single hline, fun settings settings' s hlength hlength' => ?_⟩
  obtain ⟨e, e', rfl⟩ := length_eq_two.1 hlength
  obtain ⟨e₁, rfl⟩ := length_eq_one_iff.1 hlength'
  refine ⟨_, _, rfl, rfl, ?_⟩
  have hsum : ∀ p : Word,
      (s.set dst p).registers x + (s.set dst p).registers y = s.registers addend + p := by
    intro p
    rcases hside with ⟨rfl, rfl⟩ | ⟨rfl, rfl⟩
    · rw [State.registers_set_self, State.registers_set_of_ne s hne, BitVec.add_comm]
    · rw [State.registers_set_self, State.registers_set_of_ne s hne]
  simp [hsum]

end Rules

/-! ### Stores of neighbouring words -/

theorem isInert_of_view? {name : String} {v : View} (h : view? name = some v) :
    ∀ c ∈ name.toList, isInert ['/', '/'] c = true := by
  have hall : ∀ v ∈ views, v.1.toList.all (isInert ['/', '/']) = true := by decide
  exact all_eq_true.1 (hall (name, v) (mem_of_lookup h))

variable {text : String}

theorem isInert_of_int64? {n : Int64} (h : Text.int64? text = some n) :
    ∀ c ∈ text.toList, isInert ['/', '/'] c = true := by
  have hsigns : ['-', '+'].all (isInert ['/', '/']) = true := by decide
  intro c hc
  rcases Text.mem_of_int64? h hc with hsign | hdigit
  · exact all_eq_true.1 hsigns c hsign
  · exact isInert_of_isAlphanum (by decide) (by simp [Char.isAlphanum, hdigit])

theorem isInert_of_immediate? {n : Int64} (h : immediate? text = some n) :
    ∀ c ∈ text.toList, isInert ['/', '/'] c = true := by
  obtain ⟨inner, hinner, hn⟩ := bind_eq_some_iff.1 h
  rw [Text.after?_eq_some hinner]
  exact forall_mem_cons.2 ⟨by decide, isInert_of_int64? hn⟩

theorem bracket?_of_baseOffset? {base : String} {offset : Int} {a : Address × Bool}
    (h : baseOffset? text = some (base, offset)) (ha : bracket? text = some a) :
    ∃ v, view? base = some v ∧ a = (.sum v none (BitVec.ofInt 64 offset), false) ∧
      Legible ['/', '/'] text := by
  simp only [baseOffset?, bind_eq_bind, bind_eq_some_iff] at h
  obtain ⟨inner, hinner, h⟩ := h
  split at h
  · next hend =>
    have hlist : inner.toList = inner.toList.dropLast ++ [']'] := by
      rw [Text.endsWith, beq_iff_eq] at hend
      exact (dropLast_append_getLast? _ hend).symm
    -- both readers take what stands between the brackets, and what they accept is legible
    have hlegible : (∀ c ∈ inner.toList.dropLast, isInert ['/', '/'] c = true ∨ c ∈ [',', ' ']) →
        Legible ['/', '/'] text := by
      intro hall
      refine legible_of_brackets '[' ']' [] _ [] ?_ (by simp) (by decide) (by simp) hall (by simp)
      rw [Text.after?_eq_some hinner, nil_append, ← hlist]
    have hreverse : inner.toList.reverse = ']' :: inner.toList.dropLast.reverse := by
      conv_lhs => rw [hlist, reverse_append]
      rfl
    simp only [bracket?, hinner, bind_eq_bind, bind_some, hreverse, reverse_reverse,
      bind_eq_some_iff] at ha
    obtain ⟨address, haddress, ⟨⟩⟩ := ha
    unfold address? at haddress
    split at h
    · next hcut =>
      cases h
      simp only [hcut, bind_eq_bind, bind_eq_some_iff] at haddress
      obtain ⟨v, hv, ⟨⟩⟩ := haddress
      have hname := isInert_of_view? hv
      rw [String.toList_ofList] at hname
      exact ⟨v, hv, rfl, hlegible fun c hc => .inl (hname c hc)⟩
    · next cs offsetText hcut =>
      simp only [bind_eq_some_iff] at h
      obtain ⟨w, hw, h⟩ := h
      cases h
      simp only [hcut, bind_eq_bind, bind_eq_some_iff, hw] at haddress
      obtain ⟨v, hv, ⟨⟩⟩ := haddress
      refine ⟨v, hv, by rw [Int64.toInt, BitVec.ofInt_toInt], hlegible fun c hc => ?_⟩
      have hname := isInert_of_view? hv
      have hnumber := isInert_of_immediate? hw
      rw [String.toList_ofList] at hname hnumber
      rw [Text.cutAtMark?_eq_some hcut, mem_append, mem_append] at hc
      rcases hc with hc | hc | hc
      · exact .inl (hname c hc)
      · exact .inr hc
      · exact .inl (hnumber c hc)
  · cases h

theorem eq_store (hi : IsGeneral i) (ha : operation? i = some a) (hm : i.mnemonic = "str")
    {src base : String} {offset : Int} (hops : i.operands = [src, text])
    (hbase : baseOffset? text = some (base, offset)) :
    src ∈ numbered "x" 31 ∧ Legible ['/', '/'] text ∧ ∃ v, view? base = some v ∧
      bracket? text = some (.sum v none (BitVec.ofInt 64 offset), false) ∧
      a = .store (View.whole src).read (.sum v none (BitVec.ofInt 64 offset)) 8 := by
  have hform : HasForm i store := .of_mnemonic hm rfl rfl rfl
  rw [hform.operation?, hops] at ha
  simp only [store, bind_eq_bind, bind_eq_some_iff] at ha
  obtain ⟨d, hd, m, hm, ⟨⟩⟩ := ha
  obtain ⟨p, hp, -⟩ := bind_eq_some_iff.1 hm
  obtain ⟨v, hv, rfl, hlegible⟩ := bracket?_of_baseOffset? hbase hp
  cases hm.symm.trans (access?_of_bracket? hp)
  obtain ⟨hsrc, rfl⟩ := hi.whole hform.labelOperand? 0 (by simp [hops]) hd
  exact ⟨hsrc, hlegible, v, hv, hp, by simp [Operation.store]⟩

theorem pairStores_keeps {first second : Line} (hi : IsGeneral i) (hj : IsGeneral j)
    (ha : operation? i = some a) (hb : operation? j = some b) (hr : pairStores i j = some r) :
    Keeps (· = ·) (r.lines first second) [a, b] := by
  obtain ⟨low, high, address, address', base, offset, him, hio, hjm, hjo, hbase, hbase', rfl⟩ :=
    pairStores_eq_some hr
  obtain ⟨hlow, hlegible, v, hv, hbracket, rfl⟩ := eq_store hi ha him hio hbase
  obtain ⟨hhigh, -, v', hv', -, rfl⟩ := eq_store hj hb hjm hjo hbase'
  cases hv'.symm.trans hv
  have hline : lineOperation? (.instruction (Assembly.instructionText "stp" [low, high, address])) =
      storePair [low, high, address] := by
    refine lineOperation?_instructionText (by decide) rfl rfl ?_
    simp only [forall_mem_cons]
    exact ⟨legible_of_general hlow, legible_of_general hhigh, hlegible, by simp⟩
  rw [storePair, view?_of_mem hlow, view?_of_mem hhigh, access?_of_bracket? hbracket] at hline
  refine ⟨_, mapM_single hline, fun settings settings' s hlength hlength' => ?_⟩
  obtain ⟨e, e', rfl⟩ := length_eq_two.1 hlength
  obtain ⟨e₁, rfl⟩ := length_eq_one_iff.1 hlength'
  refine ⟨_, _, rfl, rfl, ?_⟩
  have hnext : BitVec.ofInt 64 (offset + 8) = BitVec.ofInt 64 offset + BitVec.ofNat 64 8 :=
    BitVec.ofInt_add ..
  -- a store leaves the registers as they are, so the second one goes to the next word
  simp [Operation.after, Operation.store, Address.further, Address.value, hnext]
  rfl

/-! ### Comparisons with zero -/

def withoutCarry : List String := ["eq", "ne", "lt", "ge", "gt", "le", "mi", "pl"]

theorem condition?_of_cmpZeroToTst (h : cmpZeroToTst i j = some r) :
    ∃ condition ∈ withoutCarry, (j.mnemonic = "cset" ∧ ∃ dst, j.operands = [dst, condition]) ∨
      (Text.afterText? "b." j.mnemonic = some condition ∧ ∃ label, j.operands = [label]) := by
  simp only [cmpZeroToTst, bind_eq_bind, bind_eq_some_iff] at h
  obtain ⟨ops, -, h⟩ := h
  split at h
  · simp only [bind_eq_some_iff] at h
    obtain ⟨condition, hcondition, h⟩ := h
    split at h
    · next hcond =>
      simp only [Bool.and_eq_true, contains_iff_mem] at hcond
      refine ⟨condition, hcond.2, ?_⟩
      unfold SsaBackend.Arm64.condition? at hcondition
      split at hcondition
      · next dst c hm hops =>
        cases hcondition
        exact .inl ⟨hm, dst, hops⟩
      · next label hops => exact .inr ⟨hcondition, label, hops⟩
      · cases hcondition
    · cases h
  · cases h

theorem holds_of_withoutCarry {condition : String} (hmem : condition ∈ withoutCarry)
    {holds : Flags → Bool} (h : condition? condition = some holds) {f f' : Flags}
    (hnegative : f.negative = f'.negative) (hzero : f.zero = f'.zero)
    (hoverflow : f.overflow = f'.overflow) : holds f = holds f' := by
  have hall : ∀ c ∈ conditions, c.1 ∈ withoutCarry → c.2 f = c.2 f' := by
    simp [conditions, withoutCarry, hnegative, hzero, hoverflow]
  exact hall (condition, holds) (mem_of_lookup h) hmem

theorem flags_of_zero (x : Word) :
    (Flags.ofResult (x &&& x)).negative = (Flags.ofDifference x 0).negative ∧
      (Flags.ofResult (x &&& x)).zero = (Flags.ofDifference x 0).zero ∧
      (Flags.ofResult (x &&& x)).overflow = (Flags.ofDifference x 0).overflow := by
  have hlt := x.toInt_lt
  have hle := x.le_toInt
  simp [Flags.ofResult, Flags.ofDifference, BitVec.ssubOverflow]
  omega

theorem cmpZeroToTst_keeps {first second : Line} (hsecond : lineOperation? second = some b)
    (hi : IsGeneral i) (hj : IsGeneral j) (ha : operation? i = some a) (hb : operation? j = some b)
    (hr : cmpZeroToTst i j = some r) :
    Keeps Result.AgreesButCarry (r.lines first second) [a, b] := by
  obtain ⟨reg, zero, him, hio, hzero, rfl⟩ := cmpZeroToTst_eq_some hr
  obtain ⟨condition, hmem, htest⟩ := condition?_of_cmpZeroToTst hr
  have hcmp : HasForm i (compare fun _ => .ofDifference) := .of_mnemonic him rfl rfl rfl
  obtain ⟨hreg, y, hy, rfl⟩ := eq_flags_of_compare hi ha hcmp hio
  cases hy.symm.trans (reading?_of_immediate? hzero)
  have hline : lineOperation? (.instruction (Assembly.instructionText "tst" [reg, reg])) =
      some { flags := fun _ s => .ofResult (s.registers reg &&& s.registers reg) } := by
    rw [lineOperation?_instructionText (by decide) rfl rfl, compare_eq hreg (reading?_of_view? (view?_of_mem hreg))]
    · simp only [View.read_whole]
    · simp only [forall_mem_cons]
      exact ⟨legible_of_general hreg, legible_of_general hreg, by simp⟩
  refine ⟨_, mapM_pair hline hsecond, fun settings settings' s hlength hlength' => ?_⟩
  obtain ⟨e, e', rfl⟩ := length_eq_two.1 hlength
  obtain ⟨e₁, e₁', rfl⟩ := length_eq_two.1 hlength'
  obtain ⟨hnegative, hzero', hoverflow⟩ := flags_of_zero (s.registers reg)
  rcases htest with ⟨hjm, dst, hjo⟩ | ⟨hbranch, label, hjo⟩
  · have hform : HasForm j test := .of_mnemonic hjm rfl rfl rfl
    rw [hform.operation?, hjo] at hb
    simp only [test, bind_eq_bind, bind_eq_some_iff] at hb
    obtain ⟨v, hv, holds, hholds, ⟨⟩⟩ := hb
    obtain ⟨-, rfl⟩ := hj.whole hform.labelOperand? 0 (by simp [hjo]) hv
    have hsame := holds_of_withoutCarry hmem hholds hnegative hzero' hoverflow
    refine ⟨_, _, rfl, rfl, ?_, rfl, rfl, hnegative, hzero', hoverflow⟩
    simp only [Operation.after_set, State.set]
    exact congrArg (fun b => Function.update s.registers dst (if b = true then 1 else 0)) hsame
  · rw [operation?, hbranch, hjo] at hb
    simp only [bind_eq_bind, bind_eq_some_iff] at hb
    obtain ⟨holds, hholds, ⟨⟩⟩ := hb
    have hsame := holds_of_withoutCarry hmem hholds hnegative hzero' hoverflow
    have hrun : ∀ (f : Setting → State → Flags) (e e' : Setting),
        run [({ flags := f }, e), (.jumpIf (fun _ s => holds s.flags) label, e')] s =
          some ⟨{ s with flags := f e s }, if holds (f e s) then .label label else .next⟩ := by
      intro f e e'
      rw [run, Operation.step, if_pos rfl, bind_some, if_pos rfl, run_singleton]
      rfl
    exact ⟨_, _, hrun _ e e', hrun _ e₁ e₁', rfl, rfl,
      congrArg (fun b => if b = true then Control.label label else .next) hsame, hnegative, hzero',
      hoverflow⟩

/-- The rules keep what a processor does, for any two instructions over the general registers. The lines
that a rule leaves have a meaning, and wherever they stand they do to registers and memory what the two
lines did, with the same flags, and send control to the same place. Only a comparison that becomes a test
changes the carry flag. -/
theorem rules_keep {rule : Rule} (hrule : rule ∈ rules) {first second : Line} {i j : AsmInstr}
    (hfirst : Peephole.instr? dialect first = some i)
    (hsecond : Peephole.instr? dialect second = some j) (hi : IsGeneral i) (hj : IsGeneral j)
    {a b : Operation} (ha : operation? i = some a) (hb : operation? j = some b) {r : Replacement}
    (hr : rule i j = some r) :
    ∃ ops, (r.lines first second).mapM lineOperation? = some ops ∧
      Replaces Result.AgreesButCarry [a, b] ops ∧
      (rule = cmpZeroToTst ∨ Replaces (· = ·) [a, b] ops) := by
  have hfirst' : lineOperation? first = some a := by rw [lineOperation?, hfirst, bind_some, ha]
  have hsecond' : lineOperation? second = some b := by
    rw [lineOperation?, hsecond, bind_some, hb]
  have hexact : ∀ {ops : List Operation}, Replaces (· = ·) [a, b] ops →
      Replaces Result.AgreesButCarry [a, b] ops := fun h =>
    h.mono fun r r' heq => heq ▸ .refl r
  simp only [rules, List.mem_cons, List.not_mem_nil, or_false] at hrule
  rcases hrule with rfl | rfl | rfl | rfl | rfl
  · obtain ⟨ops, hops, hkeep⟩ := cancelAddSub_keeps hi hj ha hb hr
    exact ⟨ops, hops, hexact hkeep, .inr hkeep⟩
  · obtain ⟨ops, hops, hkeep⟩ := mulToShift_keeps hfirst' hi hj ha hb hr
    exact ⟨ops, hops, hexact hkeep, .inr hkeep⟩
  · obtain ⟨ops, hops, hkeep⟩ := pairStores_keeps hi hj ha hb hr
    exact ⟨ops, hops, hexact hkeep, .inr hkeep⟩
  · obtain ⟨ops, hops, hkeep⟩ := cmpZeroToTst_keeps hsecond' hi hj ha hb hr
    exact ⟨ops, hops, hkeep, .inl rfl⟩
  · obtain ⟨ops, hops, hkeep⟩ := fuseMadd_keeps hi hj ha hb hr
    exact ⟨ops, hops, hexact hkeep, .inr hkeep⟩

/-- Two stores of a register below itself become one. -/
theorem rules_keep_stores : ∃ a b ops,
    lineOperation? (.instruction "str x1, [x1, #-8]") = some a ∧
      lineOperation? (.instruction "str x1, [x1]") = some b ∧
      [Line.instruction "stp x1, x1, [x1, #-8]"].mapM lineOperation? = some ops ∧
      Replaces Result.AgreesButCarry [a, b] ops := by
  have hgeneral : ∀ i : AsmInstr, (∀ operand ∈ i.operands, ∀ r ∈ registers operand,
      r ∈ numbered "x" 31) → IsGeneral i := fun i h _ operand hop _ r hr =>
    .inl (h operand (List.mem_of_getElem? hop) r hr)
  have hmem : pairStores ∈ rules := by simp [rules]
  obtain ⟨ops, hops, hkeep, -⟩ := rules_keep hmem
    (show Peephole.instr? dialect (.instruction "str x1, [x1, #-8]") =
      some ⟨"str", ["x1", "[x1, #-8]"], 1, "str x1, [x1, #-8]"⟩ by decide)
    (show Peephole.instr? dialect (.instruction "str x1, [x1]") =
      some ⟨"str", ["x1", "[x1]"], 1, "str x1, [x1]"⟩ by decide)
    (hgeneral _ (by decide)) (hgeneral _ (by decide)) rfl rfl
    (show _ = some (.merge "stp x1, x1, [x1, #-8]") by decide)
  exact ⟨_, _, ops, rfl, rfl, hops, hkeep⟩

end Arm64

end SsaBackend.Processor
