import SsaBackend.Proofs.Amd64.Motion
import SsaBackend.Proofs.Check.Outcome

/-!
# Tidying up and the frame on amd64

Registers are saved with pushes and restored with pops, which no rule is about. What the pass drops is
a copy, load or store right behind another one, or a jump right before its label, and none of these
touches the frame (`still_of_keepsStack`). So the outcome of generated text is the same after
tidying up (`sameOutcome_assemble`).
-/

namespace SsaBackend.Amd64

open Asm Check List Listing Peephole

theorem Instr.Proper.instr?_line {i : Instr} (h : i.Proper) :
    instr? dialect i.line = some (i.asm 1) := by
  have hlegible := h.legible
  rw [← toList_commentMark] at hlegible
  refine instr?_instructionText (by decide) ?_ hlegible
  rw [toList_commentMark]
  exact isOpcode_of_mem (mnemonic_mem i)

/-! ### Lines -/

theorem still_of_keepsStack {i : Instr} (hi : i.Proper) (h : i.KeepsStack) : dialect.Still i.line := by
  have hm := mnemonic_notMem i
  have hnames := h.1
  simp only [mem_cons, not_mem_nil, or_false, not_or] at hm hnames
  have hsaved : ∀ n, dialect.saved (i.asm n) = [] := fun n => by
    simp [dialect, saved, Instr.asm, hnames]
  refine .instr (item?_line hi) (fun n => ?_) (fun n => ?_) (fun n => ?_) fun n x hx => ?_
  · exact
      { known := contains_iff_mem.2 (mnemonic_mem i)
        effects := stackEffects_eq_nil (i := i.asm n) (by simp [Instr.asm, hm, hnames]) h.2
        isReturn := by simp [dialect, isReturn, Instr.asm, hm, hnames]
        signs := rfl
        authenticates := rfl
        saved := by simp [hsaved] }
  · exact isFrameSetup_eq fun _ => hnames.1
  · simp [dialect, restored, Instr.asm, hnames]
  · exact Arch.isFrame_of_mem_operandFindings .amd64 hx

theorem Instr.Traceable.overt {i : Instr} (h : i.Traceable) (hi : i.Proper) : dialect.Overt i.line := by
  have hover : (∀ n k, dialect.stackEffects k (i.asm n) = dialect.stackEffects [] (i.asm n)) →
      dialect.Overt i.line := fun heffects => .instr (item?_line hi) (fun _ _ _ => rfl) heffects
  cases h with
  | keeps h => exact (still_of_keepsStack hi h).overt
  | pushq src => exact hover fun _ _ => rfl
  | popq dst => exact hover fun _ _ => rfl
  | setFrame => exact hover fun _ _ => rfl
  | retq => exact hover fun _ _ => rfl
  | lower amount =>
    refine hover fun n k => ?_
    show [(amount? k (Arg.imm amount).render).elim _ _] =
      [(amount? [] (Arg.imm amount).render).elim _ _]
    rw [amount?_imm, amount?_imm]
  | raise amount =>
    refine hover fun n k => ?_
    show [(amount? k (Arg.imm amount).render).elim _ _] =
      [(amount? [] (Arg.imm amount).render).elim _ _]
    rw [amount?_imm, amount?_imm]

inductive CodeLine : Line → Prop
  | instr {i : Instr} (hi : i.Proper) (h : i.Traceable) : CodeLine i.line
  | label {name : String} (h : (Text.afterText? ".L" name).isSome) : CodeLine (.label name)

theorem CodeLine.overt {line : Line} (h : CodeLine line) : dialect.Overt line := by
  cases h with
  | instr hi h => exact h.overt hi
  | label h => exact (Dialect.Still.label h).overt

/-! ### Rules -/

section Rules

variable {i j : Instr}

theorem exists_movq (h : i.mnemonic = "movq") : ∃ src dst, i = .movq src dst := by
  cases i with
  | movq src dst => exact ⟨src, dst, rfl⟩
  | alu op => cases op <;> simp [Instr.mnemonic, Alu.mnemonic] at h
  | setcc cond => cases cond <;> simp [Instr.mnemonic, Cond.setMnemonic] at h
  | _ => simp [Instr.mnemonic] at h

theorem eq_movq_of_move? {dst src : String} (h : dialect.move? (i.asm 1) = some (dst, src)) :
    i = .movq (.reg src) (.reg dst) := by
  obtain ⟨hm, x, y, hops, hsrc, hdst⟩ := move?_eq_some h
  obtain ⟨a, b, rfl⟩ := exists_movq (i := i) hm
  obtain ⟨rfl, rfl⟩ : a.render = x ∧ b.render = y := by simpa [Instr.asm, Instr.operands] using hops
  rw [eq_reg_of_register? hsrc, eq_reg_of_register? hdst]

theorem Instr.Traceable.keepsStack_or (h : i.Traceable) (hm : i.mnemonic = "movq") :
    i.KeepsStack ∨ i = .movq (.reg "rsp") (.reg "rbp") := by
  cases h with
  | keeps h => exact .inl h
  | setFrame => exact .inr rfl
  | _ => exact absurd hm (by simp [Instr.mnemonic, Alu.mnemonic])

theorem Instr.Traceable.keepsStack_of_store? (h : i.Traceable) {p : String × String}
    (hstore : dialect.store? (i.asm 1) = some p) : i.KeepsStack := by
  refine (h.keepsStack_or (store?_eq_some hstore).1).resolve_right ?_
  rintro rfl
  cases hstore

theorem Instr.Traceable.keepsStack_of_load? (h : i.Traceable) {p : String × String}
    (hload : dialect.load? (i.asm 1) = some p) : i.KeepsStack := by
  refine (h.keepsStack_or (load?_eq_some hload).1).resolve_right ?_
  rintro rfl
  cases hload

theorem Instr.Traceable.ne_of_movq {src : Arg} {dst : Register}
    (h : (Instr.movq src (.reg dst)).Traceable) : dst ≠ "rsp" := by
  rintro rfl
  rcases h.keepsStack_or rfl with hkeeps | heq
  · exact (keepsStack_movq.1 hkeeps).2 rfl
  · simp at heq

theorem keepsStack_of_rule (hi : i.Traceable) (hj : j.Traceable) {rule : Rule}
    (hrule : rule ∈ commonRules dialect) {r : Replacement} (hr : rule (i.asm 1) (j.asm 1) = some r) :
    i.KeepsStack ∧ j.KeepsStack := by
  obtain ⟨dst, src, hmove, hback⟩ | ⟨_, _, hstore, hload⟩ | ⟨_, _, hload, hstore⟩ :=
    (of_common hrule hr).2
  · -- a copy back would have to write the stack pointer, if that was what was copied
    obtain rfl := eq_movq_of_move? hmove
    obtain rfl := eq_movq_of_move? hback
    have hdst := hi.ne_of_movq
    have hsrc := hj.ne_of_movq
    exact ⟨keepsStack_movq.2 ⟨stackPointer_ne_reg hsrc, stackPointer_ne_reg hdst⟩,
      keepsStack_movq.2 ⟨stackPointer_ne_reg hdst, stackPointer_ne_reg hsrc⟩⟩
  · exact ⟨hi.keepsStack_of_store? hstore, hj.keepsStack_of_load? hload⟩
  · exact ⟨hi.keepsStack_of_load? hload, hj.keepsStack_of_store? hstore⟩

theorem Instr.Traceable.keepsStack_of_jump? (h : i.Traceable) {label : String}
    (hjump : dialect.jump? (i.asm 1) = some label) : i.KeepsStack := by
  have hm : i.mnemonic = "jmp" := (jump?_eq_some hjump).1
  cases h with
  | keeps h => exact h
  | _ => exact absurd hm (by simp [Instr.mnemonic, Alu.mnemonic])

end Rules

theorem CodeLine.window {x l : Line} (hx : CodeLine x) (hl : CodeLine l) :
    window dialect (commonRules dialect ++ []) x l = [x, l] ∨ (dialect.Still x ∧ dialect.Still l) ∧
      (window dialect (commonRules dialect ++ []) x l = [x] ∨
        window dialect (commonRules dialect ++ []) x l = [l]) := by
  obtain hw | ⟨prev, name, hprev, rfl, hjump, hw⟩ |
      ⟨prev, next, rule, r, hprev, hnext, hrule, hr, hw⟩ :=
    window_cases dialect (commonRules dialect ++ []) x l
  · exact .inl hw
  · cases hx with
    | label => cases hprev
    | instr hi htrace =>
      cases hi.instr?_line.symm.trans hprev
      have hlabel : dialect.Still (.label name) := by
        cases hl with
        | label h => exact .label h
      exact .inr ⟨⟨still_of_keepsStack hi (htrace.keepsStack_of_jump? hjump), hlabel⟩, .inr hw⟩
  · cases hx with
    | label => cases hprev
    | instr hi htrace =>
      cases hl with
      | label => cases hnext
      | instr hj htrace' =>
        cases hi.instr?_line.symm.trans hprev
        cases hj.instr?_line.symm.trans hnext
        rcases mem_append.1 hrule with hcommon | hnone
        · obtain ⟨hkeeps, hkeeps'⟩ := keepsStack_of_rule htrace htrace' hcommon hr
          rw [(of_common hcommon hr).1] at hw
          exact .inr ⟨⟨still_of_keepsStack hi hkeeps, still_of_keepsStack hj hkeeps'⟩, .inl hw⟩
        · cases hnone

/-! ### Whole functions -/

theorem sameOutcome_assemble {f : Frame} (hsaved : ∀ r ∈ f.saved, r ∈ target.calleeSaved)
    {steps : List Step}
    (hproper : ∀ s ∈ steps, s.Proper target.valueRegs)
    (hlabel : ∀ name, .label name ∈ steps → (Text.afterText? ".L" name).isSome) (o : Options)
    (name : String) :
    SameOutcome dialect (Arch.amd64.optimize (isa.assemble o f name steps))
      (isa.assemble o f name steps) := by
  have hcode : ∀ l ∈ (isa.prologue o f).map .instruction ++ steps.flatMap (isa.stepLines o f),
      CodeLine l := by
    refine forall_mem_append.2 ⟨?_, fun l hl => ?_⟩
    · simp only [isa, forall_mem_map]
      exact fun i hi => .instr (prologue_proper hsaved i hi) (framed_prologue f i hi).traceable
    · obtain ⟨s, hs, hl⟩ := mem_flatMap.1 hl
      have hlower : ∀ l ∈ ((lower f s).map Instr.render).map Line.instruction, CodeLine l := by
        simp only [forall_mem_map]
        exact fun i hi => .instr (lower_proper (fun _ => hsaved) (hproper s hs) i hi)
          (traceable_lower (hproper s hs) i hi)
      cases s with
      | label name => exact mem_singleton.1 hl ▸ .label (hlabel name hs)
      | _ => exact hlower l hl
  -- the name of the function starts a frame, so its line is overt but not still
  have hsilent : ∀ l ∈ [Line.directive ".text", .directive (".globl " ++ name), .label name],
      dialect.Overt l ∧ instr? Arch.amd64.dialect l = none := by
    simp only [forall_mem_cons]
    exact ⟨⟨.directive _, rfl⟩, ⟨.directive _, rfl⟩, ⟨.label name, rfl⟩, by simp⟩
  rw [Arch.optimize, Isa.assemble, append_assoc,
    run_append_of_silent (by simp) fun l hl => (hsilent l hl).2]
  exact .append (.of_overt fun l hl => (hsilent l hl).1)
    (sameOutcome_run CodeLine.overt CodeLine.window hcode) fun l hl => (hcode l hl).overt

end SsaBackend.Amd64
