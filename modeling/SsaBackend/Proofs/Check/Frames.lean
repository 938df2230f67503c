import SsaBackend.Proofs.Arm64.Quiet
import SsaBackend.Proofs.Check.Generated
import SsaBackend.Proofs.Riscv64.Quiet

/-!
# A check accepts generated frames

On Arm and RISC-V a check finds nothing about the frame in what is generated, whatever the strategy,
the layout and the options (`Arch.isFrame_check_generated`). The argument follows the schedule: the
prologue leads into the body of the function, and every step that reads fresh registers only leads
from the body back into it.
-/

namespace SsaBackend

open Asm Check

theorem Fed.quiet {d : Dialect} {v : FrameView} {g : Step → Assembly} {kept fresh fresh' : Set Register}
    {steps : List Step} (h : Fed kept fresh steps fresh') (hkept : kept ⊆ fresh)
    (hstep : ∀ s ∈ steps, ∀ {F : Set Register}, kept ⊆ F → (∀ o ∈ s.reads, o.FreshIn F) →
      Quiet d Finding.isFrame (·.Inside v F) (g s)
        (·.Inside v (s.next kept F))) :
    Quiet d Finding.isFrame (·.Inside v fresh) (steps.flatMap g)
      (fun t => t.InBody v ∧ t.Fresh fresh') := by
  induction steps generalizing fresh with
  | nil => exact .nil fun t ht => ⟨ht.1, ht.2.mono h⟩
  | cons s steps ih =>
    obtain ⟨hreads, hrest⟩ := h
    obtain ⟨hs, hsteps⟩ := List.forall_mem_cons.1 hstep
    rw [List.flatMap_cons]
    exact (hs hkept hreads).append (ih hrest (s.kept_subset_next hkept) hsteps)

theorem Check.Quiet.stepLines {d : Dialect} {isa : Isa} {v : FrameView} {o : Options} {f : Frame}
    {s : Step} {kept F : Set Register}
    (hlabel : ∀ name, s = .label name → (Text.afterText? ".L" name).isSome)
    (h : (∀ name, s ≠ .label name) → Quiet d Finding.isFrame (·.Inside v F)
      ((isa.lower o f s).map .instruction) (·.Inside v (s.next kept F))) :
    Quiet d Finding.isFrame (·.Inside v F) (isa.stepLines o f s) (·.Inside v (s.next kept F)) := by
  cases s with
  | label name => exact .label fun t ht => ht.1.passLabel (hlabel name rfl)
  | _ => exact h (by simp)

namespace Arch

theorem exists_frameView {arch : Arch} (harch : arch ≠ amd64) {f : Frame}
    (hlaid : f.WellLaid arch.target) (o : Options) :
    ∃ v : FrameView,
      Quiet arch.dialect Finding.isFrame (· = .start) ((arch.isa.prologue o f).map .instruction)
        (·.Inside v Set.univ) ∧
      ∀ s : Step, s.Proper arch.target.valueRegs → s.Framed arch.target f →
        (∀ name, s = .label name → (Text.afterText? ".L" name).isSome) →
        ∀ {F : Set Register}, arch.dialect.steady ⊆ F → (∀ o ∈ s.reads, o.FreshIn F) →
        Quiet arch.dialect Finding.isFrame (·.Inside v F)
          (arch.isa.stepLines o f s)
          (·.Inside v (s.next arch.dialect.steady F)) := by
  cases arch with
  | amd64 => exact absurd rfl harch
  | arm64 =>
    refine ⟨Arm64.frameView o f, ?_, fun s hproper hs hlabel _ hkept hfresh =>
      .stepLines hlabel fun hname => ?_⟩
    all_goals simp only [isa, Arm64.isa, List.map_map]
    · exact Arm64.quiet_prologue hlaid o
    · exact Arm64.quiet_lower hlaid hkept o hproper hs hname hfresh
  | riscv64 =>
    refine ⟨Riscv64.frameView f, ?_, fun s hproper hs hlabel _ hkept hfresh =>
      .stepLines hlabel fun hname => ?_⟩
    all_goals simp only [isa, Riscv64.isa, List.map_map]
    · exact Riscv64.quiet_prologue hlaid
    · exact Riscv64.quiet_lower hlaid hproper hs hname hkept hfresh

theorem mem_steady_of_mem_allocatable (arch : Arch) {r : Register}
    (h : r ∈ arch.target.allocatable) : r ∈ arch.dialect.steady := by
  have hall : ∀ arch : Arch, ∀ r ∈ arch.target.allocatable,
      r ∉ Tracker.clobberedByCall arch.dialect := by
    intro arch
    cases arch <;> decide
  exact hall arch r h

theorem isCalleeSaved_eq_false (arch : Arch) {r : Register}
    (h : r ∈ arch.target.retReg :: arch.target.cycleScratch :: arch.target.argRegs) :
    arch.target.isCalleeSaved r = false := by
  have hall : ∀ arch : Arch, ∀ r ∈ arch.target.retReg :: arch.target.cycleScratch :: arch.target.argRegs,
      arch.target.isCalleeSaved r = false := by
    intro arch
    cases arch <;> decide
  exact hall arch r h

/-- A check of what is generated for a function on Arm or RISC-V finds nothing about its frame: the
stack pointer never rises above its start and is back there at every return, everything that is saved
is restored, frame pointer and return address included, return addresses are signed once and
authenticated before every return, and no register is read after a call changed it. -/
theorem isFrame_check_generated {f : Function} (hf : f.IsBuilt) (hcallees : f.CallsSymbols)
    {arch : Arch} (harch : arch ≠ amd64) (hcheck : f.unsupported arch.target = [])
    (strategy : Strategy) (profile : Option Profile) {layout : List BlockId}
    (hperm : layout.Perm f.blockIds) (hentry : layout.head? = some 0) (o : Options) :
    ∃ alloc a frame, strategy.allocate f arch.target profile = .ok alloc ∧
      arch.isa.generate f alloc layout o = .ok (a, frame) ∧
      (frame.size < 2 ^ 31 → ∀ x ∈ arch.check a.render, x.cause.isFrame = false) := by
  have wf := hf.wellFormed
  obtain ⟨rest, rfl⟩ := List.head?_eq_some_iff.1 hentry
  obtain ⟨alloc, halloc⟩ := arch.exists_allocate strategy f profile
  have hfits := Strategy.fits_of_allocate wf arch.nodup_allocatable halloc
  have htotal : Placed.Total ⟨f, alloc, arch.target⟩ := fun v hv => (hfits.domain v).2 hv
  refine ⟨alloc, _, _, halloc, generate_of_total wf hcheck htotal hperm o, fun hsize => ?_⟩
  have hword : arch.target.wordSize = 8 ∧ arch.target.stackAlign = 16 := by
    cases arch <;> exact ⟨rfl, rfl⟩
  have hlaid : (arch.frame f alloc).WellLaid arch.target :=
    Frame.wellLaid_ofAllocation hword.2 hword.1 alloc _ (Nat.lt_trans hsize (by decide))
  obtain ⟨v, hprologue, hstep⟩ := exists_frameView harch hlaid o
  have hfed := Placed.fed_code (p := ⟨f, alloc, arch.target⟩) hfits.pool
    (fun r hr => arch.mem_steady_of_mem_allocatable hr) 0 rest
  refine forall_mem_check wf hcallees hfits.pool (fun x hx => hx) (hprologue.append
    (hfed.quiet (Set.subset_univ _) fun s hs _ => hstep s ?_ ?_ ?_))
  · exact Placed.proper_code (p := ⟨f, alloc, arch.target⟩) hfits.pool wf hcallees hs
  · exact Placed.framed_code (p := ⟨f, alloc, arch.target⟩) hword.1 hword.2 hfits.pool
      (Strategy.roomy_of_allocate halloc) hcheck (fun r hr => arch.isCalleeSaved_eq_false hr) hs
  · rintro name rfl
    exact (Placed.emits_of_mem_code hs).isLabel.isLocal

/-- The sample on Arm, with signed return addresses and its blocks in another order. -/
theorem isFrame_check_drain :
    Function.drain.IsBuilt ∧ Function.drain.CallsSymbols ∧
      Function.drain.unsupported arm64.target = [] ∧ [0, 2, 1].Perm Function.drain.blockIds ∧
      ∃ alloc a frame, Strategy.linearScan.allocate Function.drain arm64.target none = .ok alloc ∧
        arm64.isa.generate Function.drain alloc [0, 2, 1] ⟨true⟩ = .ok (a, frame) ∧
        frame.size < 2 ^ 31 ∧ ∀ x ∈ arm64.check a.render, x.cause.isFrame = false := by
  have hcallees : Function.drain.CallsSymbols := by decide
  have hcheck : Function.drain.unsupported arm64.target = [] := by decide
  have hperm : [0, 2, 1].Perm Function.drain.blockIds := by decide
  obtain ⟨alloc, a, frame, halloc, hgen, hquiet⟩ := isFrame_check_generated Function.isBuilt_drain
    hcallees (show arm64 ≠ amd64 by decide) hcheck .linearScan none hperm rfl ⟨true⟩
  have hframe : frame = arm64.frame Function.drain alloc := by
    obtain ⟨-, -, -, hframe⟩ := Isa.exists_of_generate hgen
    exact hframe
  have hsize : frame.size < 2 ^ 31 := by
    cases halloc
    rw [hframe]
    decide
  exact ⟨Function.isBuilt_drain, hcallees, hcheck, hperm, alloc, a, frame, halloc, hgen, hsize,
    hquiet hsize⟩

end Arch

end SsaBackend
