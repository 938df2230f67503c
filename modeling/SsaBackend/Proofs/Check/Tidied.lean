import SsaBackend.Proofs.Amd64.Outcome
import SsaBackend.Proofs.Arm64.Framing
import SsaBackend.Proofs.Check.Encoding
import SsaBackend.Proofs.Check.Frames
import SsaBackend.Proofs.Check.Legality
import SsaBackend.Proofs.Compile
import SsaBackend.Proofs.Riscv64.Framing

/-!
# Checking tidied text

Tidying up makes no line worse by itself: legal lines stay legal, and memory operands that can be
encoded stay so. On amd64 the frame is not affected either. On the other architectures a function
that saves a single register, and does nothing before its first return that survives tidying up, loses
the restore there, and the check refuses it. A function that is compiled without tidying up is compiled
with it exactly if this does not happen (`Config.compile_tidied_iff`).
-/

namespace SsaBackend

open Asm Check List Peephole

/-! ### Room for outgoing arguments -/

namespace Function

variable {f : Function} {t : Target}

theorem stackArgs_le (hcheck : f.unsupported t = []) {b : Block} (hb : b ∈ f.blocks) {i : Instruction}
    (hi : i ∈ b.instructions) : stackArgs t i ≤ t.maxStackArgs := by
  cases i with
  | binop | load | store => exact Nat.zero_le _
  | call dst callee args =>
    have hle : args.length ≤ t.maxCallArgs := by
      by_contra hlt
      have hmem := mem_unsupported.2 (.arguments hb hi (Nat.not_le.1 hlt))
      rw [hcheck] at hmem
      cases hmem
    rw [Target.maxCallArgs] at hle
    simp only [stackArgs]
    omega

theorem outgoingArgs_le (hcheck : f.unsupported t = []) : f.outgoingArgs t ≤ t.maxStackArgs := by
  unfold outgoingArgs
  split
  · cases hmax : (f.blocks.flatMap fun b => b.instructions.map (stackArgs t)).max? with
    | none => exact Nat.zero_le _
    | some n =>
      obtain ⟨b, hb, hn⟩ := mem_flatMap.1 (max?_mem hmax)
      obtain ⟨i, hi, rfl⟩ := mem_map.1 hn
      exact stackArgs_le hcheck hb hi
  · exact Nat.zero_le _

theorem stackArgs_le_outgoingArgs (hreserves : t.reservesOutgoing = true) {b : Block}
    (hb : b ∈ f.blocks) {i : Instruction} (hi : i ∈ b.instructions) :
    stackArgs t i ≤ f.outgoingArgs t := by
  have hmem : stackArgs t i ∈ f.blocks.flatMap fun b => b.instructions.map (stackArgs t) :=
    mem_flatMap.2 ⟨b, hb, mem_map_of_mem hi⟩
  rw [outgoingArgs, if_pos hreserves]
  cases hmax : (f.blocks.flatMap fun b => b.instructions.map (stackArgs t)).max? with
  | none =>
    rw [max?_eq_none_iff.1 hmax] at hmem
    cases hmem
  | some n => exact (max?_eq_some_iff.1 hmax).2 _ hmem

end Function

theorem Placed.length_args_le_outgoingArgs {p : Placed} (hreserves : p.target.reservesOutgoing = true)
    {s : Step} (h : p.Emits s) :
    s.args.length - p.target.argRegs.length ≤ p.func.outgoingArgs p.target := by
  rcases h.args_eq_nil_or with hnil | ⟨b, hb, dst, callee, args, hi, hlength⟩
  · simp [hnil]
  · rw [hlength]
    exact Function.stackArgs_le_outgoingArgs hreserves hb hi

/-! ### Memory operands -/

theorem Dialect.Encodable.of_instr? {d : Dialect} {line : Line} (h : d.Encodable line) {i : AsmInstr}
    (hi : instr? d line = some i) :
    ∀ op ∈ i.operands, d.isMemory op = true → d.memoryFault? op = none := by
  cases line with
  | instruction text => exact h i.line i (by rw [item?, hi]; rfl)
  | label name | directive text => cases hi

theorem Arm64.Made.encodable {i j : AsmInstr} {m : String} {ops : List String} (h : Made i j m ops)
    (hi : ∀ op ∈ i.operands, dialect.isMemory op = true → dialect.memoryFault? op = none) :
    dialect.Encodable (.instruction (Assembly.instructionText m ops)) := by
  have hreg : ∀ {r}, r ∈ wholeRegs → dialect.isMemory r = true → dialect.memoryFault? r = none :=
    fun hr hmem => absurd ((isMemory_of_mem hr).symm.trans hmem) (by simp)
  rw [Dialect.encodable_iff h.item?_line fun _ => rfl]
  cases h with
  | lsl hm hops hdst hother k =>
    simp only [forall_mem_cons]
    exact ⟨hreg hdst, hreg hother, fun hmem => absurd ((isMemory_number _).symm.trans hmem) (by simp),
      by simp⟩
  | stp him hiops hjm hjops hlow hhigh hbase =>
    simp only [forall_mem_cons]
    exact ⟨hreg hlow, hreg hhigh, hi _ (by simp [hiops]), by simp⟩
  | tst hm hops hr =>
    simp only [forall_mem_cons]
    exact ⟨hreg hr, hreg hr, by simp⟩
  | madd hm hops hdst hlhs hrhs haddend =>
    simp only [forall_mem_cons]
    exact ⟨hreg hdst, hreg hlhs, hreg hrhs, hreg haddend, by simp⟩

namespace Arch

variable {arch : Arch} {f : Function} {a : Allocation}

theorem encodable_optimize {lines : Assembly}
    (h : ∀ line ∈ lines, arch.ShapedLine line ∧ arch.dialect.Encodable line) :
    ∀ line ∈ arch.optimize lines, arch.ShapedLine line ∧ arch.dialect.Encodable line := by
  refine forall_mem_run (fun hfirst hsecond hprev hnext hrule hr line hline => ?_) h
  cases arch with
  | amd64 | riscv64 => cases hrule
  | arm64 =>
    obtain ⟨m, ops, rfl, hmade⟩ := Arm64.exists_made hfirst.1 hsecond.1 hprev hnext hrule hr hline
    exact ⟨.cell (c := .instr m ops) hmade.shaped, hmade.encodable (hfirst.2.of_instr? hprev)⟩

/-! ### Frames -/

theorem outgoingSize_frame (hcheck : f.unsupported arch.target = []) :
    (arch.frame f a).outgoingSize = f.outgoingArgs arch.target * 8 := by
  have hmax : arch.target.maxStackArgs = 16 ∧ arch.target.wordSize = 8 := by
    cases arch <;> exact ⟨rfl, rfl⟩
  have hle := hmax.1 ▸ Function.outgoingArgs_le hcheck
  rw [frame, Frame.outgoingSize_ofAllocation (Nat.lt_of_le_of_lt hle (by decide)), hmax.2]

theorem compact_frame (hcheck : f.unsupported arch.target = []) :
    (arch.frame f a).Compact arch.target where
  outgoing := by
    rw [outgoingSize_frame hcheck]
    exact Nat.mul_le_mul_right 8 (Function.outgoingArgs_le hcheck)
  saved := length_filter_le _ _

section Generated

variable (wf : f.WellFormed) (hcallees : f.CallsSymbols) (hcheck : f.unsupported arch.target = [])
  {strategy : Strategy} {profile : Option Profile}
  (halloc : strategy.allocate f arch.target profile = .ok a)

include wf hcallees hcheck halloc

theorem exists_framing (harch : arch ≠ amd64) (hsize : (arch.frame f a).size < 2 ^ 32)
    (layout : List BlockId) (o : Options) :
    ∃ v setup saves stretch, arch.Framing o (arch.frame f a) v setup saves stretch ∧
      arch.LeadSteps o (arch.frame f a) stretch (Placed.code ⟨f, a, arch.target⟩ layout) := by
  have hfits := Strategy.fits_of_allocate wf arch.nodup_allocatable halloc
  have hword : arch.target.wordSize = 8 ∧ arch.target.stackAlign = 16 := by
    cases arch <;> exact ⟨rfl, rfl⟩
  have hreserves : arch.target.reservesOutgoing = true := by
    cases arch with
    | amd64 => exact absurd rfl harch
    | arm64 | riscv64 => rfl
  have hlaid : (arch.frame f a).WellLaid arch.target :=
    Frame.wellLaid_ofAllocation hword.2 hword.1 a _ hsize
  have hcompact : (arch.frame f a).Compact arch.target := compact_frame hcheck
  have hproper := proper_code wf hcallees halloc layout
  have hcode : ∀ s ∈ Placed.code ⟨f, a, arch.target⟩ layout, s.Framed arch.target (arch.frame f a) ∧
      (∀ name, s = .label name → (Text.afterText? ".L" name).isSome) ∧
      (s.args.length - arch.target.argRegs.length) * 8 ≤ (arch.frame f a).outgoingSize := by
    intro s hs
    have hemits := Placed.emits_of_mem_code hs
    refine ⟨Placed.framed_code (p := ⟨f, a, arch.target⟩) hword.1 hword.2 hfits.pool
      (Strategy.roomy_of_allocate halloc) hcheck (fun r hr => arch.isCalleeSaved_eq_false hr) hs, ?_, ?_⟩
    · rintro name rfl
      exact hemits.isLabel.isLocal
    · rw [outgoingSize_frame hcheck]
      exact Nat.mul_le_mul_right 8 (Placed.length_args_le_outgoingArgs hreserves hemits)
  cases arch with
  | amd64 => exact absurd rfl harch
  | arm64 =>
    refine ⟨_, _, _, _, Arm64.framing hlaid hcompact o, fun s hs hreturn => ?_⟩
    obtain ⟨hframed, hlabel, hargs⟩ := hcode s hs
    refine leadLine_of_mem_stepLines (hproper s hs) hlabel fun hname => ?_
    simp only [isa, Arm64.isa, map_map]
    exact Arm64.leadLine_of_mem_lower hlaid hcompact o (hproper s hs) hframed hargs hname hreturn
  | riscv64 =>
    refine ⟨_, _, _, _, Riscv64.framing hlaid hcompact o, fun s hs hreturn => ?_⟩
    obtain ⟨hframed, hlabel, hargs⟩ := hcode s hs
    refine leadLine_of_mem_stepLines (hproper s hs) hlabel fun hname => ?_
    simp only [isa, Riscv64.isa, map_map]
    exact Riscv64.leadLine_of_mem_lower hlaid hcompact (hproper s hs) hframed hargs hname hreturn

theorem isOk_check_assemble (harch : arch ≠ amd64) (hsize : (arch.frame f a).size < 2 ^ 32)
    (hreach : ∀ n ∈ arch.stackReach?, f.params.length ≤ arch.target.argRegs.length + n)
    (layout : List BlockId) (o : Options) :
    (arch.check (arch.textOf f a layout o).render).isOk = true := by
  have hsaved : ∀ r ∈ (arch.frame f a).saved, r ∈ arch.target.calleeSaved := fun r hr =>
    Frame.mem_calleeSaved hr
  obtain ⟨v, setup, saves, stretch, hframing, hsteps⟩ :=
    exists_framing wf hcallees hcheck halloc harch hsize layout o
  refine (isOk_check_iff (shapedLine_and_legalLine wf hcallees halloc layout o)).2
    ⟨?_, hframing.isFrameFault_assemble wf.isSymbol_name hsteps⟩
  have hincoming : ∀ index dst, .incoming index dst ∈ Placed.code ⟨f, a, arch.target⟩ layout →
      ∀ n ∈ arch.stackReach?, index < n := by
    intro index dst hs n hn
    have hparams : arch.target.argRegs.length + index < f.params.length :=
      Placed.exists_incoming_mem_code_iff.1 ⟨dst, hs⟩
    have := hreach n hn
    omega
  exact encodable_assemble hsaved o f.name (proper_code wf hcallees halloc layout) hincoming

theorem isFrameFault_optimize_iff (hsize : (arch.frame f a).size < 2 ^ 32) (layout : List BlockId)
    (o : Options)
    (h : ∀ x ∈ follow arch.dialect .start (items arch.dialect 1 (arch.textOf f a layout o)),
      x.cause.isFrameFault = false) :
    (∀ x ∈ follow arch.dialect .start (items arch.dialect 1 (arch.optimize (arch.textOf f a layout o))),
      x.cause.isFrameFault = false) ↔
      ¬(arch ≠ amd64 ∧ arch.LosesRestore o (arch.frame f a) f.name
        (Placed.code ⟨f, a, arch.target⟩ layout)) := by
  by_cases harch : arch = amd64
  · -- on amd64 the pass does nothing to the frame
    subst harch
    have hsame := Amd64.sameOutcome_assemble (f := amd64.frame f a)
      (fun r hr => Frame.mem_calleeSaved hr) (proper_code wf hcallees halloc layout)
      (fun name hs => (Placed.emits_of_mem_code hs).isLabel.isLocal) o f.name
    exact iff_of_true ((hsame.isFrameFault_iff .start 1).2 h) fun hloses => hloses.1 rfl
  · obtain ⟨v, setup, saves, stretch, hframing, hsteps⟩ :=
      exists_framing wf hcallees hcheck halloc harch hsize layout o
    rw [hframing.isFrameFault_iff wf.isSymbol_name hsteps]
    simp [harch]

theorem isOk_check_optimize_iff (hsize : (arch.frame f a).size < 2 ^ 32) (layout : List BlockId)
    (o : Options)
    (h : (arch.check (arch.textOf f a layout o).render).isOk = true) :
    (arch.check (arch.optimize (arch.textOf f a layout o)).render).isOk = true ↔
      ¬(arch ≠ amd64 ∧ arch.LosesRestore o (arch.frame f a) f.name
        (Placed.code ⟨f, a, arch.target⟩ layout)) := by
  have hlines := shapedLine_and_legalLine wf hcallees halloc layout o
  -- forms and memory operands stay as good as they were, so only the frame decides
  obtain ⟨hencodable, hquiet⟩ := (isOk_check_iff hlines).1 h
  have htidied := encodable_optimize fun line hline => ⟨(hlines line hline).1, hencodable line hline⟩
  rw [isOk_check_iff (legalLine_optimize hlines),
    isFrameFault_optimize_iff wf hcallees hcheck halloc hsize layout o hquiet]
  exact and_iff_right fun line hline => (htidied line hline).2

end Generated

end Arch

/-! ### Compiling -/

namespace Config

variable {f : Function} {a : Allocation} {c : Config}

/-- Tidying up loses the only restore of the first return. Restores on amd64 are never lost. -/
def LosesRestore (c : Config) (f : Function) (a : Allocation) : Prop :=
  c.arch ≠ .amd64 ∧ c.arch.LosesRestore ⟨c.pointerAuth⟩ (c.arch.frame f a) f.name
    (Placed.code ⟨f, a, c.arch.target⟩ (c.layout f))

theorem unsupported_of_compile {out : Output} (h : c.compile f = .ok out) :
    f.unsupported c.arch.target = [] := by
  cases hcheck : f.unsupported c.arch.target with
  | nil => rfl
  | cons e es =>
    rw [compile_unsupported hcheck] at h
    cases h

section Supported

variable (wf : f.WellFormed) (hcheck : f.unsupported c.arch.target = [])
  (ha : c.strategy.allocate f c.arch.target c.profile = .ok a)

include wf hcheck ha

theorem compile_ok_iff (hvalidate : c.validate = true) (out : Output) :
    c.compile f = .ok out ↔ (c.arch.check (c.tidy (c.untidy f a)).render).isOk = true ∧
      out = ⟨f.name, c.tidy (c.untidy f a), (c.arch.frame f a).size, a,
        (c.arch.check (c.tidy (c.untidy f a)).render).warnings⟩ := by
  rw [compile_eq wf hcheck ha, warnings, if_pos hvalidate, Arch.validate]
  cases (c.arch.check (c.tidy (c.untidy f a)).render).isOk with
  | true => simp [Except.map, eq_comm]
  | false => simp [Except.map]

theorem compile_untidied_iff (out : Output) :
    { c with validate := true, peephole := false }.compile f = .ok out ↔
      (c.arch.check (c.untidy f a).render).isOk = true ∧ out = ⟨f.name, c.untidy f a,
        (c.arch.frame f a).size, a, (c.arch.check (c.untidy f a).render).warnings⟩ :=
  compile_ok_iff (c := { c with validate := true, peephole := false }) wf hcheck ha rfl out

theorem exists_compile_tidied_iff :
    (∃ out, { c with validate := true, peephole := true }.compile f = .ok out) ↔
      (c.arch.check (c.arch.optimize (c.untidy f a)).render).isOk = true := by
  have hiff := compile_ok_iff (c := { c with validate := true, peephole := true }) wf hcheck ha rfl
  exact ⟨fun ⟨out, hout⟩ => ((hiff out).1 hout).1, fun hok => ⟨_, (hiff _).2 ⟨hok, rfl⟩⟩⟩

variable (hcallees : f.CallsSymbols) (hsize : (c.arch.frame f a).size < 2 ^ 32)

include hcallees hsize

theorem isOk_untidied (harch : c.arch ≠ .amd64)
    (hreach : ∀ n ∈ c.arch.stackReach?, f.params.length ≤ c.arch.target.argRegs.length + n) :
    (c.arch.check (c.untidy f a).render).isOk = true :=
  Arch.isOk_check_assemble wf hcallees hcheck ha harch hsize hreach (c.layout f) ⟨c.pointerAuth⟩

theorem isOk_tidied_iff (hok : (c.arch.check (c.untidy f a).render).isOk = true) :
    (c.arch.check (c.arch.optimize (c.untidy f a)).render).isOk = true ↔ ¬c.LosesRestore f a :=
  Arch.isOk_check_optimize_iff wf hcallees hcheck ha hsize (c.layout f) ⟨c.pointerAuth⟩ hok

end Supported

/-- A function that is checked and compiled as it was generated is compiled after tidying up exactly
if no restore is lost. -/
theorem compile_tidied_iff (hf : f.IsBuilt) (hcallees : f.CallsSymbols) (c : Config) {out : Output}
    (hout : { c with validate := true, peephole := false }.compile f = .ok out)
    (hsize : out.frameSize < 2 ^ 32) :
    (∃ out', { c with validate := true, peephole := true }.compile f = .ok out') ↔
      ¬c.LosesRestore f out.allocation := by
  have wf := hf.wellFormed
  have hcheck : f.unsupported c.arch.target = [] :=
    unsupported_of_compile (c := { c with validate := true, peephole := false }) hout
  obtain ⟨a, ha⟩ := c.arch.exists_allocate c.strategy f c.profile
  obtain ⟨hok, rfl⟩ := (compile_untidied_iff wf hcheck ha out).1 hout
  rw [exists_compile_tidied_iff wf hcheck ha, isOk_tidied_iff wf hcheck ha hcallees hsize hok]

/-- The sample on Arm. It saves several registers, so no restore is lost. -/
theorem compile_tidied_drain :
    Function.drain.IsBuilt ∧ Function.drain.CallsSymbols ∧
      ∃ out, (⟨.arm64, .linearScan, none, true, false, true⟩ : Config).compile Function.drain =
        .ok out ∧ out.frameSize < 2 ^ 32 ∧
        ∃ out', (⟨.arm64, .linearScan, none, true, true, true⟩ : Config).compile Function.drain =
          .ok out' := by
  have wf := Function.isBuilt_drain.wellFormed
  have hcallees : Function.drain.CallsSymbols := by decide
  have hcheck : Function.drain.unsupported Arch.arm64.target = [] := by decide
  obtain ⟨a, ha⟩ := Arch.arm64.exists_allocate .linearScan Function.drain none
  have hframe : (Arch.arm64.frame Function.drain a).size < 2 ^ 32 ∧
      (Arch.arm64.frame Function.drain a).saved.length ≠ 1 := by
    cases ha
    decide
  have hok := isOk_untidied (c := ⟨.arm64, .linearScan, none, true, false, true⟩) wf hcheck ha hcallees
    hframe.1 (by decide) (by decide)
  have hout := (compile_untidied_iff (c := ⟨.arm64, .linearScan, none, true, false, true⟩) wf hcheck
    ha _).2 ⟨hok, rfl⟩
  refine ⟨Function.isBuilt_drain, hcallees, _, hout, hframe.1, ?_⟩
  exact (compile_tidied_iff Function.isBuilt_drain hcallees
    ⟨.arm64, .linearScan, none, true, false, true⟩ hout hframe.1).2 fun hloses => hframe.2 hloses.2.1

/-- It matters that callees have symbols for names. With this name a call is read back as two lines,
and the store in it swallows the restore behind the call. -/
example :
    Arch.arm64.optimize
        [.instruction "bl f\n\tstr x19, [sp]", .instruction "ldr x19, [sp]", .instruction "ret"] =
      [.instruction "bl f\n\tstr x19, [sp]", .instruction "ret"] := by
  decide

end Config

/-! ### A restore that is lost -/

/-- Makes a function that returns at once, with a block behind that nothing leads to. -/
def Draft.idleCalls : List Draft.Call :=
  [.block "entry", .block "dead", .terminate 0 (.ret none),
    .binop 1 .add (.constant 1 .int) (.constant 2 .int), .terminate 1 (.ret none)]

/-- The function. -/
def Function.idle : Function := (Draft.ofCalls "idle" none Draft.idleCalls).toFunction

theorem Function.isBuilt_idle : Function.idle.IsBuilt :=
  ⟨"idle", none, Draft.idleCalls, Draft.build_eq_ok_iff.2 ⟨by decide, rfl⟩⟩

/-- The block behind needs a register, which the prologue saves. The restore of the first return stands
right behind the save, and is dropped as a load of what was just stored. -/
theorem Config.compile_idle :
    Function.idle.IsBuilt ∧ Function.idle.CallsSymbols ∧
      (∃ out, (⟨.arm64, .linearScan, none, true, false, false⟩ : Config).compile Function.idle =
        .ok out ∧ out.frameSize < 2 ^ 32) ∧
      ¬∃ out', (⟨.arm64, .linearScan, none, true, true, false⟩ : Config).compile Function.idle =
        .ok out' := by
  have wf := Function.isBuilt_idle.wellFormed
  have hcallees : Function.idle.CallsSymbols := by decide
  have hcheck : Function.idle.unsupported Arch.arm64.target = [] := by decide
  obtain ⟨a, ha⟩ := Arch.arm64.exists_allocate .linearScan Function.idle none
  obtain ⟨hsize, hone, hfirst⟩ : (Arch.arm64.frame Function.idle a).size < 2 ^ 32 ∧
      (Arch.arm64.frame Function.idle a).saved.length = 1 ∧
      (Placed.code ⟨Function.idle, a, Arch.arm64.target⟩ Function.idle.blockIds).head? =
        some .epilogue := by
    cases ha
    decide +kernel
  have hok := isOk_untidied (c := ⟨.arm64, .linearScan, none, true, false, false⟩) wf hcheck ha hcallees
    hsize (by decide) (by decide)
  have hout := (compile_untidied_iff (c := ⟨.arm64, .linearScan, none, true, false, false⟩) wf hcheck
    ha _).2 ⟨hok, rfl⟩
  refine ⟨Function.isBuilt_idle, hcallees, ⟨_, hout, hsize⟩, fun hcompiles => ?_⟩
  have hok' := (exists_compile_tidied_iff (c := ⟨.arm64, .linearScan, none, true, false, false⟩) wf
    hcheck ha).1 hcompiles
  refine (isOk_tidied_iff (c := ⟨.arm64, .linearScan, none, true, false, false⟩) wf hcheck ha hcallees
    hsize hok).1 hok' ⟨by decide, ?_⟩
  obtain ⟨v, setup, saves, stretch, hframing, -⟩ :=
    Arch.exists_framing wf hcallees hcheck ha (by decide) hsize [] ⟨false⟩
  obtain ⟨rest, hcode⟩ := List.head?_eq_some_iff.1 hfirst
  exact hcode ▸ hframing.losesRestore_of_single hone rest

end SsaBackend
