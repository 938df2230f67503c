import SsaBackend.Proofs.Arm64.Legal
import SsaBackend.Proofs.Check.Generated
import SsaBackend.Proofs.Riscv64.Legal

/-!
# Generated code is legal

All mnemonics and registers of generated code exist, and all operands are of the kinds that their
instructions take, also after the code was tidied up (`Arch.isForm_check_generated`).
-/

namespace SsaBackend.Arch

open Asm Listing Peephole

variable {arch : Arch}

/-! ### What is generated -/

theorem ProperLine.legal {line : Line} (h : arch.ProperLine line) :
    arch.dialect.LegalLine line := by
  cases h with
  | amd64 h hfit => exact h.legalLine hfit
  | arm64 h => exact h.legalLine
  | riscv64 h => exact h.legalLine

theorem GeneratedLine.legal {name : String} {line : Line} (h : arch.GeneratedLine name line) :
    arch.dialect.LegalLine line := by
  cases h with
  | text | globl | name | label => exact fun n i hi => by cases hi
  | instruction h => exact h.legal

section Generated

variable {f : Function} (wf : f.WellFormed) (hcallees : f.CallsSymbols) {a : Allocation}
  {strategy : Strategy} {profile : Option Profile}
  (halloc : strategy.allocate f arch.target profile = .ok a) (layout : List BlockId)

include wf hcallees halloc

theorem proper_code :
    ∀ s ∈ Placed.code ⟨f, a, arch.target⟩ layout, s.Proper arch.target.valueRegs := by
  have hfits := Strategy.fits_of_allocate wf arch.nodup_allocatable halloc
  exact fun s hs => Placed.proper_code (p := ⟨f, a, arch.target⟩) hfits.pool wf hcallees hs

theorem shapedLine_and_legalLine (o : Options) :
    ∀ line ∈ arch.textOf f a layout o, arch.ShapedLine line ∧ arch.dialect.LegalLine line := by
  have hsaved : ∀ r ∈ (arch.frame f a).saved, r ∈ arch.target.calleeSaved := fun r hr =>
    Frame.mem_calleeSaved hr
  have hproper := proper_code wf hcallees halloc layout
  exact fun line hline =>
    ⟨shapedLine_assemble hsaved o (isReference_of_isSymbol wf.isSymbol_name) hproper line hline,
      (generatedLine_assemble hsaved o f.name hproper line hline).legal⟩

end Generated

/-! ### Tidying up -/

theorem legalLine_optimize {a : Assembly}
    (h : ∀ line ∈ a, arch.ShapedLine line ∧ arch.dialect.LegalLine line) :
    ∀ line ∈ arch.optimize a, arch.ShapedLine line ∧ arch.dialect.LegalLine line := by
  refine forall_mem_run (fun hfirst hsecond hprev hnext hrule hr line hline => ?_) h
  cases arch with
  | amd64 | riscv64 => cases hrule
  | arm64 =>
    obtain ⟨m, ops, rfl, hmade⟩ := Arm64.exists_made hfirst.1 hsecond.1 hprev hnext hrule hr hline
    exact ⟨.cell (c := .instr m ops) hmade.shaped, hmade.legalLine⟩

/-- Every instruction that is generated for a function is legal by its names and by the kinds of its
operands, before and after tidying up: all names of the text exist, and a check of the text finds no
fault in the form of an instruction. -/
theorem isForm_check_generated {f : Function} (hf : f.IsBuilt) (hcallees : f.CallsSymbols)
    (arch : Arch) (hcheck : f.unsupported arch.target = []) (strategy : Strategy)
    (profile : Option Profile) {layout : List BlockId} (hperm : layout.Perm f.blockIds)
    (o : Options) :
    ∃ alloc a frame, strategy.allocate f arch.target profile = .ok alloc ∧
      arch.isa.generate f alloc layout o = .ok (a, frame) ∧
      ∀ b ∈ [a, arch.optimize a], arch.namesExist b.render = true ∧
        ∀ x ∈ arch.check b.render, x.cause.isForm = false := by
  have wf := hf.wellFormed
  obtain ⟨alloc, halloc⟩ := arch.exists_allocate strategy f profile
  have hfits := Strategy.fits_of_allocate wf arch.nodup_allocatable halloc
  have htotal : Placed.Total ⟨f, alloc, arch.target⟩ := fun v hv => (hfits.domain v).2 hv
  refine ⟨alloc, _, _, halloc, generate_of_total wf hcheck htotal hperm o, ?_⟩
  have hlines := shapedLine_and_legalLine wf hcallees halloc layout o
  have hlegal : ∀ {b : Assembly}, (∀ line ∈ b, arch.ShapedLine line ∧ arch.dialect.LegalLine line) →
      arch.namesExist b.render = true ∧ ∀ x ∈ arch.check b.render, x.cause.isForm = false := by
    intro b hb
    have hread := read_render arch.isMark_commentMark fun line hline => (hb line hline).1.written
    refine ⟨namesExist_of_legal hread fun line hline => (hb line hline).2, fun x hx => ?_⟩
    rw [check, hread] at hx
    exact Check.isForm_of_legal (fun line hline => (hb line hline).2) hx
  exact List.forall_mem_cons.2 ⟨hlegal hlines, List.forall_mem_singleton.2
    (hlegal (legalLine_optimize hlines))⟩

/-- The sample on Arm, with signed return addresses and its blocks in another order. -/
theorem isForm_check_drain :
    Function.drain.IsBuilt ∧ Function.drain.CallsSymbols ∧
      Function.drain.unsupported arm64.target = [] ∧ [0, 2, 1].Perm Function.drain.blockIds ∧
      ∃ alloc a frame, Strategy.linearScan.allocate Function.drain arm64.target none = .ok alloc ∧
        arm64.isa.generate Function.drain alloc [0, 2, 1] ⟨true⟩ = .ok (a, frame) ∧
        ∀ b ∈ [a, arm64.optimize a], arm64.namesExist b.render = true ∧
          ∀ x ∈ arm64.check b.render, x.cause.isForm = false := by
  have hcallees : Function.drain.CallsSymbols := by decide
  have hcheck : Function.drain.unsupported arm64.target = [] := by decide
  have hperm : [0, 2, 1].Perm Function.drain.blockIds := by decide
  exact ⟨Function.isBuilt_drain, hcallees, hcheck, hperm, isForm_check_generated
    Function.isBuilt_drain hcallees arm64 hcheck .linearScan none hperm ⟨true⟩⟩

end SsaBackend.Arch
