import SsaBackend.Proofs.Peephole.Soundness
import SsaBackend.Proofs.Schedule.Success

/-!
# Reading generated code back

The text of generated code reads back line by line: every line gives one item, labels and directives
give themselves, and an instruction gives its mnemonic and its operands, none of them cut inside of
brackets (`Arch.read_generated`). An instruction that is read alone gives the same.
-/

namespace SsaBackend

open Asm Listing

/-- How many brackets a text leaves open. -/
def openBrackets (text : String) : Int := (text.toList.map nesting).sum

/-- What an instruction of a listing says about the text in line `n` that it was read from. -/
structure AsmInstr.Spells (i : AsmInstr) (n : Nat) (source : String) : Prop where
  line : i.line = n
  text : i.text = source
  /-- The mnemonic goes up to the first space. -/
  mnemonic : i.mnemonic.toList = source.toList.takeWhile (· ≠ ' ')
  /-- The rest are the operands with commas between them. -/
  operands : Assembly.instructionText i.mnemonic i.operands = source
  /-- No operand was cut inside of brackets. -/
  brackets : ∀ o ∈ i.operands, openBrackets o = 0

/-- What line `n` of a text has to read as. -/
def Line.Says (n : Nat) : Line → Item → Prop
  | label name, item => item = .label name
  | directive text, item => item = .directive text
  | instruction text, item => ∃ i, item = .instr i ∧ i.Spells n text

/-- A line by itself reads as the instruction that it is read as among others. -/
def Line.SaysAlone (d : Dialect) (line : Line) (item : Item) : Prop :=
  ∀ i, item = .instr i →
    ∃ j, Peephole.instr? d line = some j ∧ j.mnemonic = i.mnemonic ∧ j.operands = i.operands

namespace Listing

theorem sum_of_depthAfter {depth depth' : Int} {cs : List Char}
    (h : depthAfter depth cs = some depth') : depth' = depth + (cs.map nesting).sum := by
  induction cs generalizing depth with
  | nil =>
    cases h
    simp
  | cons c cs ih =>
    rw [depthAfter] at h
    split at h
    · cases h
    · rw [ih h, List.map_cons, List.sum_cons, Int.add_assoc]

theorem Legible.openBrackets_eq_zero {mark : List Char} {text : String} (h : Legible mark text) :
    openBrackets text = 0 := by
  have hsum := sum_of_depthAfter h.depth
  rw [openBrackets]
  omega

theorem takeWhile_instructionText {mark : List Char} {m : String} (hm : isOpcode mark m = true)
    (ops : List String) :
    (Assembly.instructionText m ops).toList.takeWhile (· ≠ ' ') = m.toList := by
  have hchars : ∀ c ∈ m.toList, decide (c ≠ ' ') = true := by
    intro c hc
    simp only [isOpcode, Bool.and_eq_true, List.all_eq_true] at hm
    refine decide_eq_true fun heq => ?_
    have hblank := (ne_of_isInert (hm.1.2 c hc)).1
    rw [heq] at hblank
    exact absurd hblank (by decide)
  rw [toList_instructionText, List.takeWhile_append_of_pos hchars]
  split <;> simp

variable {d : Dialect} (hmark : isMark d.commentMark.toList = true)

include hmark

theorem says_of_written {line : Line} (h : line.Written d.commentMark.toList) (n : Nat) :
    ∃ item, Asm.item? d n line = some item ∧ line.Says n item ∧ line.SaysAlone d item := by
  cases h with
  | @label name => exact ⟨.label name, rfl, rfl, fun i hi => by cases hi⟩
  | @directive text => exact ⟨.directive text, rfl, rfl, fun i hi => by cases hi⟩
  | @instruction m ops hm hops =>
    have hspells : AsmInstr.Spells ⟨m, ops, n, Assembly.instructionText m ops⟩ n
        (Assembly.instructionText m ops) :=
      { line := rfl
        text := rfl
        mnemonic := (takeWhile_instructionText hm ops).symm
        operands := rfl
        brackets := fun o ho => (hops o ho).openBrackets_eq_zero }
    refine ⟨_, item?_instructionText hmark hm hops n, ⟨_, rfl, hspells⟩, fun i hi => ?_⟩
    cases hi
    exact ⟨_, instr?_instructionText hmark hm hops, rfl, rfl⟩

theorem forall₂_items {a : Assembly} (h : ∀ line ∈ a, line.Written d.commentMark.toList) (n : Nat) :
    List.Forall₂ (fun l item => l.1.Says l.2 item ∧ l.1.SaysAlone d item) (a.zipIdx n)
      (items d n a) := by
  induction a generalizing n with
  | nil => exact .nil
  | cons line a ih =>
    obtain ⟨hline, ha⟩ := List.forall_mem_cons.1 h
    obtain ⟨item, hitem, hsays⟩ := says_of_written hmark hline n
    rw [List.zipIdx_cons, items_cons, hitem]
    exact .cons hsays (ih ha (n + 1))

end Listing

theorem Placed.proper_of_schedule {p : Placed} (wf : p.func.WellFormed)
    (hcallees : p.func.CallsSymbols)
    (hregs : ∀ v r, p.allocation.location? v = some (.register r) → r ∈ p.target.valueRegs)
    {layout : List BlockId} {steps : List Step} (h : p.schedule layout = .ok steps) :
    ∀ s ∈ steps, s.Proper p.target.valueRegs := by
  intro s hs
  rw [eq_code_of_schedule h] at hs
  have hemits := emits_of_mem_code hs
  refine Step.proper_iff.2 ⟨?_, hemits.isReference wf hcallees⟩
  refine hemits.forall_mem_operands (fun v => ?_) ?_ ?_ fun r hr => ?_
  · cases v with
    | constant => trivial
    | parameter id _ _ | temporary id _ =>
      simp only [place]
      cases hl : p.allocation.location? id with
      | none => trivial
      | some l =>
        cases l with
        | register r => exact hregs id r hl
        | stack slot => trivial
  · simp [Operand.Within, Target.valueRegs]
  · simp [Operand.Within, Target.valueRegs]
  · simp [Operand.Within, Target.valueRegs, hr]

namespace Arch

/-- What is generated for a function reads back without loss: every line gives the item that it says,
with its number, and gives the same instruction when it is read alone. The places of the values may
come from anywhere, as long as they name registers that code keeps values in, and the layout may be
any. -/
theorem read_generated {f : Function} (hf : f.IsBuilt) (hcallees : f.CallsSymbols) (arch : Arch)
    {alloc : Allocation}
    (hregs : ∀ v r, alloc.location? v = some (.register r) → r ∈ arch.target.valueRegs)
    {layout : List BlockId} {o : Options} {a : Assembly} {frame : Frame}
    (hgen : arch.isa.generate f alloc layout o = .ok (a, frame)) :
    List.Forall₂ (fun l item => l.1.Says l.2 item ∧ l.1.SaysAlone arch.dialect item) (a.zipIdx 1)
      (arch.dialect.read a.render) := by
  have wf := hf.wellFormed
  obtain ⟨steps, hsteps, ha, -⟩ := Isa.exists_of_generate hgen
  rw [target_isa] at hsteps ha
  have hwritten : ∀ line ∈ a, line.Written arch.dialect.commentMark.toList := by
    intro line hline
    rw [show a = _ from ha] at hline
    refine (shapedLine_assemble (fun r hr => Frame.mem_calleeSaved hr) o
      (isReference_of_isSymbol wf.isSymbol_name) ?_ line hline).written
    exact Placed.proper_of_schedule (p := ⟨f, alloc, arch.target⟩) wf hcallees hregs hsteps
  rw [read_render arch.isMark_commentMark hwritten]
  exact forall₂_items arch.isMark_commentMark hwritten 1

/-- The sample on riscv64, where addresses have parentheses, with a block laid out twice. -/
theorem read_drain :
    Function.drain.IsBuilt ∧ Function.drain.CallsSymbols ∧
      ∃ alloc a frame, Strategy.linearScan.allocate Function.drain riscv64.target none = .ok alloc ∧
        (∀ v r, alloc.location? v = some (.register r) → r ∈ riscv64.target.valueRegs) ∧
        riscv64.isa.generate Function.drain alloc [0, 2, 1, 2] ⟨false⟩ = .ok (a, frame) ∧
        List.Forall₂ (fun l item => l.1.Says l.2 item ∧ l.1.SaysAlone riscv64.dialect item)
          (a.zipIdx 1) (riscv64.dialect.read a.render) := by
  have hcallees : Function.drain.CallsSymbols := by decide
  have wf := Function.isBuilt_drain.wellFormed
  obtain ⟨alloc, halloc⟩ : ∃ alloc,
      Strategy.linearScan.allocate Function.drain riscv64.target none = .ok alloc := ⟨_, rfl⟩
  have hfits := Strategy.fits_of_allocate wf riscv64.nodup_allocatable halloc
  have hregs : ∀ v r, alloc.location? v = some (.register r) → r ∈ riscv64.target.valueRegs :=
    fun v r hr => by simp [Target.valueRegs, hfits.pool v r hr]
  have hlayout : ∀ b ∈ [0, 2, 1, 2], b < Function.drain.blocks.length := by decide
  have hcheck : Function.drain.unsupported riscv64.isa.target = [] := by decide
  have hsteps := Placed.schedule_eq (p := ⟨Function.drain, alloc, riscv64.isa.target⟩)
    (fun v hv => (hfits.domain v).2 hv) wf hlayout
  have hgen := Isa.generate_eq hcheck hsteps ⟨false⟩
  exact ⟨Function.isBuilt_drain, hcallees, alloc, _, _, halloc, hregs, hgen,
    read_generated Function.isBuilt_drain hcallees riscv64 hregs hgen⟩

end Arch

end SsaBackend
