import SsaBackend.Proofs.Allocation.Ranges
import SsaBackend.Proofs.Check.Generated
import SsaBackend.Proofs.Profile.Layout

/-!
# What keeps a function from being compiled

Compiling without a check fails exactly on what the targets do not support, and the error names it
(`Config.compile_error_iff`). Values always have places, so code generation has no other reason to
fail.

Some operations on the way are given a meaning where none is needed: a block that does not exist, a
register outside the pool, a literal as a destination, a difference below zero. `Config.InRange` says
that compiling never gets there.
-/

namespace SsaBackend

open List

/-! ### What is not supported -/

/-- The errors that code generation may report for a function: floats outside copies and stores, and
calls with more arguments than the convention has room for. -/
inductive Function.Refused (f : Function) (t : Target) : CodegenError → Prop
  | param {v : Value} (hv : v ∈ f.params) (hty : v.ty = .float) :
    f.Refused t (.floatParameter f.name v)
  | binop {b : Block} (hb : b ∈ f.blocks) {dst lhs rhs : Value} {op : BinOp}
    (hi : .binop dst op lhs rhs ∈ b.instructions)
    (hty : dst.ty = .float ∨ lhs.ty = .float ∨ rhs.ty = .float) :
    f.Refused t (.floatInstruction f.name (.binop dst op lhs rhs))
  | call {b : Block} (hb : b ∈ f.blocks) {dst : Option Value} {callee : String} {args : List Value}
    (hi : .call dst callee args ∈ b.instructions)
    (hty : (∃ d ∈ dst, d.ty = .float) ∨ ∃ a ∈ args, a.ty = .float) :
    f.Refused t (.floatInstruction f.name (.call dst callee args))
  | arguments {b : Block} (hb : b ∈ f.blocks) {dst : Option Value} {callee : String}
    {args : List Value} (hi : .call dst callee args ∈ b.instructions)
    (hlt : t.maxCallArgs < args.length) :
    f.Refused t (.tooManyArguments f.name callee args.length t.maxCallArgs)
  | ret {b : Block} (hb : b ∈ f.blocks) {v : Value} (hret : b.terminator = .ret (some v))
    (hty : v.ty = .float) : f.Refused t (.floatReturn f.name v)

namespace Function

variable {f : Function} {t : Target} {e : CodegenError}

theorem refused_of_mem_instructionFaults {b : Block} (hb : b ∈ f.blocks) {i : Instruction}
    (hi : i ∈ b.instructions) (h : e ∈ f.instructionFaults t i) : f.Refused t e := by
  cases i with
  | binop dst op lhs rhs =>
    obtain ⟨hty, h⟩ := mem_ite_nil_right.1 h
    obtain rfl := mem_singleton.1 h
    exact .binop hb hi (by simpa using hty)
  | call dst callee args =>
    rcases mem_append.1 h with h | h
    · obtain ⟨hty, h⟩ := mem_ite_nil_right.1 h
      obtain rfl := mem_singleton.1 h
      exact .call hb hi (by simpa [or_and_right, exists_or] using hty)
    · obtain ⟨hlt, h⟩ := mem_ite_nil_right.1 h
      obtain rfl := mem_singleton.1 h
      exact .arguments hb hi hlt
  | load dst src => cases h
  | store addr src => cases h

theorem refused_of_mem_terminatorFaults {b : Block} (hb : b ∈ f.blocks)
    (h : e ∈ f.terminatorFaults b.terminator) : f.Refused t e := by
  unfold terminatorFaults at h
  split at h
  · rename_i value hret
    obtain ⟨hty, h⟩ := mem_ite_nil_right.1 h
    obtain rfl := mem_singleton.1 h
    exact .ret hb hret hty
  · cases h

theorem mem_unsupported : e ∈ f.unsupported t ↔ f.Refused t e := by
  have hblock : ∀ {b}, b ∈ f.blocks → ∀ {e}, e ∈ b.instructions.flatMap (f.instructionFaults t) ++
      f.terminatorFaults b.terminator → e ∈ f.unsupported t := fun hb _ h =>
    mem_append_right _ (mem_flatMap.2 ⟨_, hb, h⟩)
  have hinstr : ∀ {b}, b ∈ f.blocks → ∀ {i}, i ∈ b.instructions → ∀ {e},
      e ∈ f.instructionFaults t i → e ∈ f.unsupported t := fun hb _ hi _ h =>
    hblock hb (mem_append_left _ (mem_flatMap.2 ⟨_, hi, h⟩))
  constructor
  · intro h
    rcases mem_append.1 h with h | h
    · obtain ⟨v, hv, rfl⟩ := mem_map.1 h
      obtain ⟨hv, hty⟩ := mem_filter.1 hv
      exact .param hv (by simpa using hty)
    · obtain ⟨b, hb, h⟩ := mem_flatMap.1 h
      rcases mem_append.1 h with h | h
      · obtain ⟨i, hi, h⟩ := mem_flatMap.1 h
        exact refused_of_mem_instructionFaults hb hi h
      · exact refused_of_mem_terminatorFaults hb h
  · intro h
    cases h with
    | param hv hty =>
      refine mem_append_left _ (mem_map_of_mem (mem_filter.2 ⟨hv, ?_⟩))
      simpa using hty
    | binop hb hi hty =>
      exact hinstr hb hi (mem_ite_nil_right.2 ⟨by simpa using hty, mem_singleton_self _⟩)
    | call hb hi hty =>
      refine hinstr hb hi (mem_append_left _ (mem_ite_nil_right.2 ⟨?_, mem_singleton_self _⟩))
      simpa [or_and_right, exists_or] using hty
    | arguments hb hi hlt =>
      exact hinstr hb hi
        (mem_append_right _ (mem_ite_nil_right.2 ⟨hlt, mem_singleton_self _⟩))
    | ret hb hret hty =>
      refine hblock hb (mem_append_right _ ?_)
      rw [hret]
      exact mem_ite_nil_right.2 ⟨hty, mem_singleton_self _⟩

end Function

/-! ### What steps write -/

/-- A step that does not write to a literal. -/
def Step.Writes (s : Step) : Prop := ∀ d ∈ s.dst?, ∃ l : Location, d = l.toOperand

theorem Move.dst_of_mem_order {scratch : Operand} {ms : List Move} {m : Move}
    (h : m ∈ order scratch ms) : m.dst = scratch ∨ ∃ m' ∈ ms, m'.dst = m.dst := by
  fun_induction order scratch ms with
  | case1 => cases h
  | case2 first rest r hfind ih =>
    rcases mem_cons.1 h with rfl | h
    · exact .inr ⟨m, mem_of_find?_eq_some hfind, rfl⟩
    · exact (ih h).imp_right (Exists.imp fun _ h => ⟨mem_of_mem_erase h.1, h.2⟩)
  | case3 first rest hfind hscratch ih =>
    rcases mem_cons.1 h with rfl | h
    · exact .inl hscratch
    · exact (ih h).imp_right (Exists.imp fun _ h => ⟨mem_cons_of_mem _ h.1, h.2⟩)
  | case4 first rest hfind hscratch ih =>
    rcases mem_cons.1 h with rfl | h
    · exact .inl rfl
    · refine (ih h).imp_right fun hmove => ?_
      obtain ⟨m', hm', heq⟩ := hmove
      obtain ⟨m'', hm'', rfl⟩ := mem_map.1 hm'
      exact ⟨m'', hm'', (dst_redirect _ _ m'').symm.trans heq⟩

namespace Placed

variable {p : Placed}
variable {s : Step}

theorem writes_of_mem_parallelMove {ms : List Move}
    (h : ∀ m ∈ ms, ∃ l : Location, m.dst = l.toOperand) (hs : s ∈ p.parallelMove ms) :
    s.Writes := by
  obtain ⟨m, hm, rfl⟩ := mem_map.1 hs
  rintro d ⟨⟩
  rcases Move.dst_of_mem_order hm with hscratch | ⟨m', hm', heq⟩
  · exact ⟨.register p.target.cycleScratch, hscratch⟩
  · exact heq ▸ h m' (mem_of_mem_filter hm')

theorem Ready.writes_of_mem_paramCode (hp : p.Ready) (hs : s ∈ p.paramCode) : s.Writes := by
  have hplace : ∀ d ∈ p.func.params.map p.place, ∃ l : Location, d = l.toOperand := fun d hd =>
    (hp.paramPlaces.2 d hd).imp fun _ h => h.1
  rcases mem_append.1 hs with hs | hs
  · obtain ⟨⟨d, index⟩, hd, rfl⟩ := mem_map.1 hs
    rintro _ ⟨⟩
    exact hplace d (mem_of_mem_drop (fst_mem_of_mem_zipIdx hd))
  · refine writes_of_mem_parallelMove (fun m hm => ?_) hs
    obtain ⟨d, hd, rfl⟩ := mem_map.1 hm
    exact hplace d.1 (of_mem_zip hd).1

theorem Ready.writes_of_mem_edgeCode (hp : p.Ready) {pred succ : BlockId}
    (hs : s ∈ p.edgeCode pred succ) : s.Writes :=
  writes_of_mem_parallelMove
    (fun m hm => ((hp.parallel_edgeMoves pred succ).writable m hm).imp fun _ h => h.1) hs

theorem Ready.writes_of_mem_goCode (hp : p.Ready) {pred succ : BlockId} {next : Option BlockId}
    (hs : s ∈ p.goCode pred succ next) : s.Writes := by
  rcases mem_append.1 hs with hs | hs
  · exact hp.writes_of_mem_edgeCode hs
  · split at hs
    · cases hs
    · obtain rfl := mem_singleton.1 hs
      rintro _ ⟨⟩

theorem Ready.writes_of_mem_tailCode (hp : p.Ready) {b : BlockId} {next : Option BlockId}
    {t : Terminator} (hs : s ∈ (p.tailCode b next t).1) : s.Writes := by
  have hepilogue : Step.Writes .epilogue := by rintro _ ⟨⟩
  unfold tailCode at hs
  split at hs
  · exact mem_singleton.1 hs ▸ hepilogue
  · rcases mem_cons.1 hs with rfl | hs
    · rintro _ ⟨⟩
      exact ⟨.register p.target.retReg, rfl⟩
    · exact mem_singleton.1 hs ▸ hepilogue
  · exact hp.writes_of_mem_goCode hs
  · split at hs
    · exact hp.writes_of_mem_goCode hs
    · unfold branchCode at hs
      split at hs
      · exact hp.writes_of_mem_goCode hs
      · rcases mem_cons.1 hs with rfl | hs
        · rintro _ ⟨⟩
        · split at hs
          · cases hs
          · obtain rfl := mem_singleton.1 hs
            rintro _ ⟨⟩

theorem Ready.writes_stepOf (hp : p.Ready) {b : BlockId} {i : Instruction}
    (hi : i ∈ (p.func.block b).instructions) : (p.stepOf i).Writes := by
  obtain ⟨k, hk⟩ := mem_iff_getElem?.1 hi
  have hdst : ∀ dst, i.dst? = some dst → ∃ l : Location, p.place dst = l.toOperand := by
    intro dst h
    obtain ⟨_, l, _, _, _, hl⟩ := hp.exists_dst hk h
    exact ⟨l, hl⟩
  cases i with
  | binop dst op lhs rhs =>
    rintro _ ⟨⟩
    exact hdst dst rfl
  | call dst callee args =>
    cases dst with
    | none => rintro _ ⟨⟩
    | some dst =>
      rintro _ ⟨⟩
      exact hdst dst rfl
  | load dst src =>
    rintro _ ⟨⟩
    exact hdst dst rfl
  | store addr src => rintro _ ⟨⟩

theorem Ready.writes_of_mem_layoutCode (hp : p.Ready) {layout : List BlockId}
    (hs : s ∈ p.layoutCode layout) : s.Writes := by
  induction layout with
  | nil => cases hs
  | cons b bs ih =>
    rcases mem_append.1 hs with hs | hs
    · rcases mem_cons.1 hs with rfl | hs
      · rintro _ ⟨⟩
      · rcases mem_append.1 hs with hs | hs
        · obtain ⟨i, hi, rfl⟩ := mem_map.1 hs
          exact hp.writes_stepOf hi
        · exact hp.writes_of_mem_tailCode hs
    · exact ih hs

theorem Ready.writes_of_mem_code (hp : p.Ready) {layout : List BlockId} (hs : s ∈ p.code layout) :
    s.Writes := by
  rcases mem_append.1 hs with hs | hs
  · rcases mem_append.1 hs with hs | hs
    · exact hp.writes_of_mem_paramCode hs
    · exact hp.writes_of_mem_layoutCode (mem_of_mem_drop hs)
  · obtain ⟨stub, _, hs⟩ := mem_flatMap.1 hs
    rcases mem_append.1 hs with hs | hs
    · rcases mem_cons.1 hs with rfl | hs
      · rintro _ ⟨⟩
      · exact hp.writes_of_mem_edgeCode hs
    · obtain rfl := mem_singleton.1 hs
      rintro _ ⟨⟩

end Placed

/-! ### Compiling -/

theorem Arch.ready {arch : Arch} {f : Function} (wf : f.WellFormed) {strategy : Strategy}
    {profile : Option Profile} {a : Allocation}
    (ha : strategy.allocate f arch.target profile = .ok a) :
    (Placed.mk f a arch.target).Ready where
  wf := wf
  fits := Strategy.fits_of_allocate wf arch.nodup_allocatable ha
  argRegs := by dsimp only; cases arch <;> decide
  scratch := by dsimp only; cases arch <;> decide

namespace Config

variable {f : Function}

def untidy (c : Config) (f : Function) (a : Allocation) : Assembly :=
  c.arch.isa.assemble ⟨c.pointerAuth⟩ (c.arch.frame f a) f.name
    (Placed.code ⟨f, a, c.arch.target⟩ (c.layout f))

theorem perm_layout (wf : f.WellFormed) (c : Config) : (c.layout f).Perm f.blockIds := by
  unfold layout
  split
  · exact Profile.perm_layout wf
  · exact .refl _

theorem compile_eq (wf : f.WellFormed) {c : Config} (hcheck : f.unsupported c.arch.target = [])
    {a : Allocation} (ha : c.strategy.allocate f c.arch.target c.profile = .ok a) :
    c.compile f = (c.warnings (c.tidy (c.untidy f a))).map fun warnings =>
      ⟨f.name, c.tidy (c.untidy f a), (c.arch.frame f a).size, a, warnings⟩ := by
  have hgen := Arch.generate_of_total wf hcheck (Arch.ready wf ha).total (c.perm_layout wf)
    ⟨c.pointerAuth⟩
  unfold compile
  rw [ha, show (Except.ok a : Except AllocError Allocation).mapError CompileError.alloc = .ok a from
    rfl]
  change ((c.arch.isa.generate f a (c.layout f) ⟨c.pointerAuth⟩).mapError CompileError.codegen >>= _) =
    _
  rw [hgen]
  change (c.warnings (c.tidy (c.untidy f a)) >>= _) = _
  cases c.warnings (c.tidy (c.untidy f a)) <;> rfl

theorem compile_unsupported {c : Config} {e : CodegenError} {es : List CodegenError}
    (h : f.unsupported c.arch.target = e :: es) : c.compile f = .error (.codegen e) := by
  obtain ⟨a, ha⟩ := c.arch.exists_allocate c.strategy f c.profile
  have hgen : c.arch.isa.generate f a (c.layout f) ⟨c.pointerAuth⟩ = .error e := by
    rw [Isa.generate, c.arch.target_isa, h]
  unfold compile
  rw [ha]
  change ((c.arch.isa.generate f a (c.layout f) ⟨c.pointerAuth⟩).mapError CompileError.codegen >>= _) =
    _
  rw [hgen]
  rfl

/-- What compiling looks up is there, what it writes to is a place, and what it subtracts from is
large enough:

* the entry, successors and blocks of the layout exist, and have live sets;
* both strategies find the registers, nodes and slots that they look for;
* every value that the schedule mentions has a place, and no step writes to a literal;
* the frame has room for the fixed area, and for the saved registers besides;
* tidying up adds no lines. -/
structure InRange (c : Config) (f : Function) : Prop where
  entry : 0 < f.blocks.length
  successor : ∀ b, ∀ s ∈ (f.block b).succs, s < f.blocks.length
  layout : ∀ b ∈ c.layout f, b < f.blocks.length
  live : f.liveness.liveIn.length = f.blocks.length ∧ f.liveness.liveOut.length = f.blocks.length
  scan : ∀ done, done <+: f.intervals → LinearScan.Shared c.arch.target.allocatable.length
    (done.foldl (LinearScan.place c.arch.target.allocatable) (.initial c.arch.target.allocatable))
  coloring : Coloring.InRange (f.interference c.arch.target.allocatable.length)
    ((c.profile.getD .empty).spillCosts f) c.arch.target.allocatable
  placed : ∃ a steps, c.strategy.allocate f c.arch.target c.profile = .ok a ∧
    Placed.schedule ⟨f, a, c.arch.target⟩ (c.layout f) = .ok steps ∧ (∀ s ∈ steps, s.Writes) ∧
    fixedArea ≤ (c.arch.frame f a).size ∧
    (c.arch.frame f a).saved.length * 8 ≤ (c.arch.frame f a).localSize
  tidy : ∀ assembly, (c.tidy assembly).length ≤ assembly.length

theorem length_tidy_le (c : Config) (assembly : Assembly) :
    (c.tidy assembly).length ≤ assembly.length := by
  unfold Config.tidy
  split
  · exact Peephole.length_run_le _ _ _
  · exact Nat.le_refl _

theorem inRange (wf : f.WellFormed) (c : Config) : c.InRange f := by
  obtain ⟨a, ha⟩ := c.arch.exists_allocate c.strategy f c.profile
  have hready := Arch.ready wf ha
  have hsteps := Placed.schedule_of_allocate wf c.arch.nodup_allocatable ha (c.perm_layout wf)
  have hroom : (c.arch.frame f a).outgoingSize + (c.arch.frame f a).saved.length * 8 + fixedArea ≤
      (c.arch.frame f a).size :=
    Frame.room_ofAllocation (by cases c.arch <;> rfl) (by cases c.arch <;> rfl) a _
  have hlive := (Liveness.step_analyze f.flow).2.length
  have hflow : f.flow.length = f.blocks.length := by
    rw [Function.flow, length_map, Function.blockIds, length_range]
  exact
    { entry := wf.hasEntry
      successor := fun _ _ hs => wf.succ_lt hs
      layout := fun b hb => mem_range.1 ((c.perm_layout wf).mem_iff.1 hb)
      live := ⟨hlive.trans hflow, (length_map _).trans hflow⟩
      scan := fun done _ => LinearScan.shared_foldl_place _ done
      coloring := f.inRange_interference _ _
      placed := ⟨a, _, ha, hsteps, fun s hs => hready.writes_of_mem_code hs,
        by omega, by rw [Frame.localSize]; omega⟩
      tidy := c.length_tidy_le }

/-- Compiling without a check fails exactly if something is not supported, whatever the strategy, the
profile and the other options. The error then names what is not supported; nothing else goes wrong
on the way. -/
theorem compile_error_iff (hf : f.IsBuilt) (c : Config) :
    ((∃ e, { c with validate := false }.compile f = .error e) ↔
      ∃ cause, f.Refused c.arch.target cause) ∧
    (∀ e, { c with validate := false }.compile f = .error e →
      ∃ cause, e = .codegen cause ∧ f.Refused c.arch.target cause) ∧
    c.InRange f := by
  have wf := hf.wellFormed
  have herror : ∀ e, { c with validate := false }.compile f = .error e →
      ∃ cause, e = .codegen cause ∧ f.Refused c.arch.target cause := by
    intro e he
    cases hcheck : f.unsupported c.arch.target with
    | nil =>
      obtain ⟨a, ha⟩ := c.arch.exists_allocate c.strategy f c.profile
      rw [compile_eq (c := { c with validate := false }) wf hcheck ha] at he
      cases he
    | cons cause causes =>
      rw [compile_unsupported (c := { c with validate := false }) hcheck] at he
      cases he
      exact ⟨cause, rfl, Function.mem_unsupported.1 (hcheck ▸ List.mem_cons_self)⟩
  refine ⟨⟨fun ⟨e, he⟩ => ?_, fun ⟨cause, hcause⟩ => ?_⟩, herror, inRange wf c⟩
  · obtain ⟨cause, -, hcause⟩ := herror e he
    exact ⟨cause, hcause⟩
  · obtain ⟨e, es, hes⟩ := List.exists_cons_of_ne_nil
      (List.ne_nil_of_mem (Function.mem_unsupported.2 hcause))
    exact ⟨.codegen e, compile_unsupported (c := { c with validate := false }) hes⟩

/-- The sample has nothing unsupported, so it is compiled, here with a profile that wants its last
block early. -/
theorem compile_drain :
    Function.drain.IsBuilt ∧ (∀ cause, ¬ Function.drain.Refused Riscv64.target cause) ∧
      ∃ out, (⟨.riscv64, .linearScan, some ⟨[("done", 7)], [], []⟩, false, true, false⟩ :
        Config).compile Function.drain = .ok out := by
  have hsupported : ∀ cause, ¬ Function.drain.Refused Riscv64.target cause := fun cause h => by
    have hnil : Function.drain.unsupported Riscv64.target = [] := by decide
    exact List.not_mem_nil (hnil ▸ Function.mem_unsupported.2 h)
  refine ⟨Function.isBuilt_drain, hsupported, ?_⟩
  obtain ⟨hiff, -, -⟩ := compile_error_iff Function.isBuilt_drain
    ⟨.riscv64, .linearScan, some ⟨[("done", 7)], [], []⟩, false, true, false⟩
  cases hcompile : (⟨.riscv64, .linearScan, some ⟨[("done", 7)], [], []⟩, false, true, false⟩ :
      Config).compile Function.drain with
  | ok out => exact ⟨out, rfl⟩
  | error e =>
    obtain ⟨cause, hcause⟩ := hiff.1 ⟨e, hcompile⟩
    exact absurd hcause (hsupported cause)

end Config

end SsaBackend
