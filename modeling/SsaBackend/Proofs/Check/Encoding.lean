import SsaBackend.Proofs.Arm64.Legal
import SsaBackend.Proofs.Check.Generated
import SsaBackend.Proofs.Riscv64.Legal

/-!
# Which memory operands can be encoded

Code generation addresses the words of a frame through a register where they are too far away for an
offset. It does not do so for parameters that the caller passed on the stack. So all memory operands
of a function can be encoded exactly if its parameters are in reach
(`Arch.encodes_generated_iff`), and a function with many parameters has some that cannot.
-/

namespace SsaBackend

open Asm List

namespace Arch

/-- How many parameters on the stack the offsets of an architecture reach; `none` if all. -/
def stackReach? : Arch → Option Nat
  | amd64 => none
  | arm64 => some 4094
  | riscv64 => some 256

/-- The line of a call. -/
def callLine : Arch → String → Line
  | amd64, callee => (Amd64.Instr.callq callee).line
  | arm64, callee => (Arm64.Instr.bl callee).line
  | riscv64, callee => (Riscv64.Instr.call callee).line

/-- The memory operands of a line can be encoded. The name that a call goes to is no memory operand,
so nothing is asked of a call whose name has brackets or other marks in it. -/
def Encodes (arch : Arch) (line : Line) : Prop :=
  (∀ callee, line = arch.callLine callee → isSymbol callee = true) → arch.dialect.Encodable line

/-! ### Steps -/

section Steps

variable {arch : Arch} {frame : Frame} (hsaved : ∀ r ∈ frame.saved, r ∈ arch.target.calleeSaved)

include hsaved

theorem encodable_prologue (o : Options) :
    ∀ text ∈ arch.isa.prologue o frame, arch.dialect.Encodable (.instruction text) := by
  intro text htext
  cases arch with
  | amd64 =>
    obtain ⟨i, hi, rfl⟩ := mem_map.1 htext
    exact (Amd64.prologue_proper hsaved i hi).encodable_line
  | arm64 =>
    obtain ⟨i, hi, rfl⟩ := mem_map.1 htext
    exact Arm64.encodable_prologue hsaved o i hi
  | riscv64 =>
    obtain ⟨i, hi, rfl⟩ := mem_map.1 htext
    exact Riscv64.encodable_prologue hsaved i hi

theorem encodes_lower_iff (o : Options) {s : Step} (hs : s.Regular arch.target.valueRegs) :
    (∀ text ∈ arch.isa.lower o frame s, arch.Encodes (.instruction text)) ↔
      ∀ index dst, s = .incoming index dst → ∀ n ∈ arch.stackReach?, index < n := by
  cases arch with
  | amd64 =>
    refine iff_of_true (forall_mem_map.2 ?_) fun _ _ _ n hn => nomatch hn
    exact Amd64.encodable_lower hsaved hs
  | arm64 =>
    refine forall_mem_map.trans ?_
    simp only [stackReach?, Option.mem_some_iff, forall_eq']
    exact Arm64.encodable_lower_iff hsaved o hs
  | riscv64 =>
    refine forall_mem_map.trans ?_
    simp only [stackReach?, Option.mem_some_iff, forall_eq']
    exact Riscv64.encodable_lower_iff hsaved hs

theorem encodable_stepLines (o : Options) {s : Step} (hs : s.Proper arch.target.valueRegs)
    (hreach : ∀ index dst, s = .incoming index dst → ∀ n ∈ arch.stackReach?, index < n) :
    ∀ line ∈ arch.isa.stepLines o frame s, arch.dialect.Encodable line := by
  have hlower : ∀ text ∈ arch.isa.lower o frame s, arch.dialect.Encodable (.instruction text) := by
    cases arch with
    | amd64 =>
      exact forall_mem_map.2 fun i hi =>
        (Amd64.lower_proper (fun _ => hsaved) hs i hi).encodable_line
    | arm64 =>
      exact forall_mem_map.2 fun i hi =>
        (Arm64.lower_proper (fun _ => hsaved) o hs i hi).encodable_line_iff.2
          (Arm64.inReach_of_mem_lower frame o hs.regular
            (fun index dst heq => hreach index dst heq _ rfl) i hi)
    | riscv64 =>
      exact forall_mem_map.2 fun i hi =>
        (Riscv64.lower_proper (fun _ => hsaved) hs i hi).encodable_line_iff.2
          (Riscv64.inReach_of_mem_lower frame hs.regular
            (fun index dst heq => hreach index dst heq _ rfl) i hi)
  cases s with
  | label name => exact forall_mem_singleton.2 (Dialect.encodable_label name)
  | _ => exact forall_mem_map.2 hlower

theorem encodes_stepLines_iff (o : Options) {s : Step} (hs : s.Regular arch.target.valueRegs) :
    (∀ line ∈ arch.isa.stepLines o frame s, arch.Encodes line) ↔
      ∀ index dst, s = .incoming index dst → ∀ n ∈ arch.stackReach?, index < n := by
  cases s with
  | label name =>
    refine iff_of_true (forall_mem_singleton.2 fun _ => ?_) (by simp)
    exact Dialect.encodable_label name
  | _ => exact forall_mem_map.trans (encodes_lower_iff hsaved o hs)

theorem encodable_head (o : Options) (name : String) :
    ∀ line ∈ [.directive ".text", .directive (".globl " ++ name), .label name] ++
      (arch.isa.prologue o frame).map .instruction, arch.dialect.Encodable line := by
  simp only [forall_mem_append, forall_mem_cons, forall_mem_map]
  exact ⟨⟨Dialect.encodable_directive _, Dialect.encodable_directive _, Dialect.encodable_label _,
    by simp⟩, encodable_prologue hsaved o⟩

theorem encodes_assemble_iff (o : Options) (name : String) {steps : List Step}
    (hsteps : ∀ s ∈ steps, s.Regular arch.target.valueRegs) :
    (∀ line ∈ arch.isa.assemble o frame name steps, arch.Encodes line) ↔
      ∀ index dst, .incoming index dst ∈ steps → ∀ n ∈ arch.stackReach?, index < n := by
  have hhead : ∀ line ∈ [.directive ".text", .directive (".globl " ++ name), .label name] ++
      (arch.isa.prologue o frame).map .instruction, arch.Encodes line := fun line hline _ =>
    encodable_head hsaved o name line hline
  rw [Isa.assemble, forall_mem_append, and_iff_right hhead, forall_mem_flatMap]
  constructor
  · exact fun h index dst hs => (encodes_stepLines_iff hsaved o (hsteps _ hs)).1 (h _ hs) index dst rfl
  · exact fun h s hs => (encodes_stepLines_iff hsaved o (hsteps s hs)).2 fun index dst heq =>
      h index dst (heq ▸ hs)

theorem encodable_assemble (o : Options) (name : String) {steps : List Step}
    (hsteps : ∀ s ∈ steps, s.Proper arch.target.valueRegs)
    (hreach : ∀ index dst, .incoming index dst ∈ steps → ∀ n ∈ arch.stackReach?, index < n) :
    ∀ line ∈ arch.isa.assemble o frame name steps, arch.dialect.Encodable line := by
  rw [Isa.assemble, forall_mem_append, forall_mem_flatMap]
  exact ⟨encodable_head hsaved o name, fun s hs =>
    encodable_stepLines hsaved o (hsteps s hs) fun index dst heq => hreach index dst (heq ▸ hs)⟩

end Steps

end Arch

/-! ### Parameters on the stack -/

namespace Placed

variable {p : Placed}

theorem exists_incoming_mem_code_iff {layout : List BlockId} {index : Nat} :
    (∃ dst, .incoming index dst ∈ p.code layout) ↔
      p.target.argRegs.length + index < p.func.params.length := by
  constructor
  · rintro ⟨dst, hs⟩
    generalize heq : Step.incoming index dst = s at hs
    cases emits_of_mem_code hs with
    | incoming v h =>
      cases heq
      exact h
    | @instruction b i h => cases i <;> cases heq
    | label | jump | branchIf | epilogue | result | shuffle => cases heq
  · intro h
    refine ⟨p.place (p.func.params[p.target.argRegs.length + index]), ?_⟩
    refine mem_append_left _ (mem_append_left _ (mem_append_left _ ?_))
    refine mem_map.2 ⟨(_, index), mem_zipIdx_iff_getElem?.2 ?_, rfl⟩
    rw [getElem?_drop, getElem?_map, getElem?_eq_getElem h]
    rfl

end Placed

namespace Arch

theorem encodes_code_iff {arch : Arch} {f : Function} (wf : f.WellFormed) {alloc : Allocation}
    (hpool : ∀ v r, alloc.location? v = some (.register r) → r ∈ arch.target.allocatable)
    (layout : List BlockId) (o : Options) :
    (∀ line ∈ arch.textOf f alloc layout o, arch.Encodes line) ↔
      ∀ n ∈ arch.stackReach?, f.params.length ≤ arch.target.argRegs.length + n := by
  refine (encodes_assemble_iff (fun r hr => Frame.mem_calleeSaved hr) o f.name fun s hs =>
    (Placed.emits_of_mem_code hs).regular (p := ⟨f, alloc, arch.target⟩) hpool wf).trans ?_
  have hfetch : ∀ index, (∃ dst, .incoming index dst ∈ Placed.code ⟨f, alloc, arch.target⟩ layout) ↔
      arch.target.argRegs.length + index < f.params.length := fun index =>
    Placed.exists_incoming_mem_code_iff (p := ⟨f, alloc, arch.target⟩)
  constructor
  · intro h n hn
    by_contra hlt
    obtain ⟨dst, hs⟩ := (hfetch n).2 (by omega)
    exact absurd (h n dst hs n hn) (lt_irrefl n)
  · intro h index dst hs n hn
    have hindex := (hfetch index).1 ⟨dst, hs⟩
    have := h n hn
    omega

/-- The memory operands of what is generated for a function can all be encoded exactly if the
parameters on the stack are in reach: no matter how large the frame is, how many arguments calls pass,
which strategy places the values and which layout orders the blocks. -/
theorem encodes_generated_iff {f : Function} (hf : f.IsBuilt) (arch : Arch)
    (hcheck : f.unsupported arch.target = []) (strategy : Strategy) (profile : Option Profile)
    {layout : List BlockId} (hperm : layout.Perm f.blockIds) (o : Options) :
    ∃ alloc a frame, strategy.allocate f arch.target profile = .ok alloc ∧
      arch.isa.generate f alloc layout o = .ok (a, frame) ∧
      ((∀ line ∈ a, arch.Encodes line) ↔
        ∀ n ∈ arch.stackReach?, f.params.length ≤ arch.target.argRegs.length + n) := by
  have wf := hf.wellFormed
  obtain ⟨alloc, halloc⟩ := arch.exists_allocate strategy f profile
  have hfits := Strategy.fits_of_allocate wf arch.nodup_allocatable halloc
  have htotal : Placed.Total ⟨f, alloc, arch.target⟩ := fun v hv => (hfits.domain v).2 hv
  exact ⟨alloc, _, _, halloc, generate_of_total wf hcheck htotal hperm o,
    encodes_code_iff wf hfits.pool layout o⟩

/-- The sample has two parameters, so everything in it can be encoded. -/
theorem encodes_drain :
    Function.drain.IsBuilt ∧ Function.drain.unsupported riscv64.target = [] ∧
      [0, 2, 1].Perm Function.drain.blockIds ∧
      ∃ alloc a frame, Strategy.graphColoring.allocate Function.drain riscv64.target none = .ok alloc ∧
        riscv64.isa.generate Function.drain alloc [0, 2, 1] ⟨false⟩ = .ok (a, frame) ∧
        ∀ line ∈ a, riscv64.Encodes line := by
  have hcheck : Function.drain.unsupported riscv64.target = [] := by decide
  have hperm : [0, 2, 1].Perm Function.drain.blockIds := by decide
  obtain ⟨alloc, a, frame, halloc, hgen, hiff⟩ := encodes_generated_iff Function.isBuilt_drain riscv64
    hcheck .graphColoring none hperm ⟨false⟩
  exact ⟨Function.isBuilt_drain, hcheck, hperm, alloc, a, frame, halloc, hgen, hiff.2 (by decide)⟩

end Arch

/-! ### A parameter out of reach -/

/-- Makes a function with 257 parameters behind the eight in registers. -/
def Draft.wideCalls : List Draft.Call :=
  List.replicate 265 (.param .int) ++ [.block "entry", .terminate 0 (.ret none)]

/-- The function. -/
def Function.wide : Function := (Draft.ofCalls "wide" none Draft.wideCalls).toFunction

theorem Function.isBuilt_wide : Function.wide.IsBuilt :=
  ⟨"wide", none, Draft.wideCalls, Draft.build_eq_ok_iff.2 ⟨by decide +kernel, rfl⟩⟩

theorem Arch.size_frame_le {arch : Arch} {f : Function} (wf : f.WellFormed) {profile : Option Profile}
    {alloc : Allocation} (halloc : Strategy.linearScan.allocate f arch.target profile = .ok alloc)
    (houtgoing : f.outgoingArgs arch.target = 0) :
    (arch.frame f alloc).size ≤ 8 * f.definedValues.length + 128 := by
  have hslots : alloc.spillSize ≤ 8 * f.definedValues.length := by
    unfold Strategy.allocate at halloc
    dsimp only at halloc
    split at halloc
    · cases halloc
    · cases halloc
      have := LinearScan.spillSize_allocate_le arch.target.allocatable f.intervals
      have := wf.length_intervals_le
      change (LinearScan.allocate arch.target.allocatable f.intervals).spillSize ≤ _
      omega
  have hsaved : (arch.frame f alloc).saved.length ≤ 11 := by
    refine (length_filter_le _ _).trans ?_
    cases arch <;> decide
  have hunits : arch.target.wordSize = 8 ∧ arch.target.stackAlign = 16 := by
    cases arch <;> exact ⟨rfl, rfl⟩
  have hsize : (arch.frame f alloc).size = fixedArea + align
      (f.outgoingArgs arch.target % UInt32.size * arch.target.wordSize +
        (arch.frame f alloc).saved.length * arch.target.wordSize + alloc.spillSize)
      arch.target.stackAlign := rfl
  rw [houtgoing, hunits.1, hunits.2, fixedArea, align, Nat.zero_mod] at hsize
  omega

/-- The last parameter of the function is one word too far away. -/
theorem Arch.exists_not_encodable_wide :
    Function.wide.IsBuilt ∧ Function.wide.unsupported riscv64.target = [] ∧
      [0].Perm Function.wide.blockIds ∧
      ∃ alloc a frame, Strategy.linearScan.allocate Function.wide riscv64.target none = .ok alloc ∧
        riscv64.isa.generate Function.wide alloc [0] ⟨false⟩ = .ok (a, frame) ∧
        frame.size < 2 ^ 31 ∧ ∃ line ∈ a, ¬ riscv64.dialect.Encodable line := by
  have wf := Function.isBuilt_wide.wellFormed
  -- evaluated at once, since the kernel then makes the function only once
  obtain ⟨hcheck, houtgoing, hvalues, hparams⟩ : Function.wide.unsupported riscv64.target = [] ∧
      Function.wide.outgoingArgs riscv64.target = 0 ∧ Function.wide.definedValues.length = 265 ∧
      Function.wide.params.length = 265 := by
    decide +kernel
  have hperm : [0].Perm Function.wide.blockIds := by decide
  obtain ⟨alloc, halloc⟩ := riscv64.exists_allocate .linearScan Function.wide none
  have hfits := Strategy.fits_of_allocate wf riscv64.nodup_allocatable halloc
  have htotal : Placed.Total ⟨Function.wide, alloc, riscv64.target⟩ := fun v hv => (hfits.domain v).2 hv
  refine ⟨Function.isBuilt_wide, hcheck, hperm, alloc, _, _, halloc,
    generate_of_total wf hcheck htotal hperm ⟨false⟩, ?_, ?_⟩
  · refine (size_frame_le wf halloc houtgoing).trans_lt ?_
    rw [hvalues]
    decide
  · by_contra hall
    simp only [not_exists, not_and, not_not] at hall
    have hreach := (encodes_code_iff wf hfits.pool [0] ⟨false⟩).1 fun line hline _ => hall line hline
    have hfar := hreach 256 rfl
    rw [hparams] at hfar
    exact absurd hfar (by decide)

end SsaBackend
