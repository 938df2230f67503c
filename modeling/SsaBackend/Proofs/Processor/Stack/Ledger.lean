import SsaBackend.Proofs.Check.Depth
import SsaBackend.Proofs.Processor.Redundancy
import SsaBackend.Proofs.Processor.Stack.Amd64
import SsaBackend.Proofs.Processor.Stack.Arm64
import SsaBackend.Proofs.Processor.Stack.Riscv64

/-!
# Following the stack pointer

A check follows the stack pointer of a function by its text, and what it believes may be out of date: a
constant in a register that was written since under another name or by a callee, a frame pointer that has
changed, a stack pointer that moved unseen. A `Ledger` keeps only what can be relied on. As long as it
accepts the instructions, the check knows where the stack pointer of the processor is (`Tracks.pass` for
one instruction, `Tracks.run` for a run of them), so a return that it does not object to finds the stack
pointer where the function found it. Where the ledger does not accept an instruction, the stack pointer
may end anywhere.
-/

namespace SsaBackend

open List Processor

variable {arch : Arch}

theorem Arch.shows (arch : Arch) : arch.Shows := by
  cases arch with
  | amd64 => exact Amd64.shows
  | arm64 => exact Arm64.shows
  | riscv64 => exact Riscv64.shows

/-! ### Ledgers -/

/-- Whether a name stands for a whole register. -/
def Arch.isWhole (arch : Arch) (name : String) : Bool :=
  (arch.view? name).any fun v => v.register.any fun r => v = .whole r

theorem Arch.isWhole_iff {name : String} :
    arch.isWhole name = true ↔ ∃ r, arch.view? name = some (.whole r) := by
  simp only [isWhole, Option.any_eq_true, decide_eq_true_eq]
  constructor
  · rintro ⟨v, hv, r, -, rfl⟩
    exact ⟨r, hv⟩
  · rintro ⟨r, hr⟩
    exact ⟨_, hr, r, rfl, rfl⟩

/-- What can be relied on at a point of a function. -/
structure Ledger where
  constants : Constants
  /-- Whether the frame pointer is where it was set. -/
  hasFrame : Bool

namespace Ledger

/-- Nothing is known at the start of a function. -/
def start : Ledger := ⟨[], false⟩

variable (arch : Arch) (l : Ledger)

/-- How an instruction moves the stack pointer. -/
def effects (i : AsmInstr) : List StackEffect := arch.dialect.stackEffects l.constants i

/-- Whether all that an instruction does to the stack pointer is known: each effect is, nothing is read
from a frame pointer that has changed, and there is no other write. -/
def accepts (i : AsmInstr) (op : Operation) : Bool :=
  ((l.effects arch i).all fun effect => effect ≠ .unknown && (!effect.isRestoreFrame || l.hasFrame)) &&
    op.changed.count arch.stackPointer ≤ (l.effects arch i).length

/-- Whether the constant under a name survives an operation. -/
def keeps (op : Operation) (name : String) : Bool :=
  (arch.register? name).all fun r => !op.changed.contains r

/-- Follows an instruction. Whatever it writes, under whatever name, is forgotten, and what it leaves in
whole registers is noted. -/
def step (i : AsmInstr) (op : Operation) : Ledger where
  constants := (arch.dialect.written i).foldl
    (fun k name => k.set name (if arch.isWhole name then arch.dialect.constant? l.constants i else none))
    (l.constants.filter fun entry => keeps arch op entry.1)
  hasFrame := (l.effects arch i).any StackEffect.isSetFrame ||
    (l.hasFrame && !op.changed.contains arch.dialect.target.framePointer)

/-- Whether all that instructions do to the stack pointer is known. -/
def acceptsAll (l : Ledger) : List AsmInstr → Bool
  | [] => true
  | i :: rest =>
    match arch.operation? i with
    | some op => l.accepts arch i op && (l.step arch i op).acceptsAll rest
    | none => false

end Ledger

/-! ### Constants -/

namespace Constants

theorem get?_filter (k : Constants) (p : Register → Bool) (name : Register) :
    get? (k.filter fun entry => p entry.1) name = if p name then k.get? name else none := by
  induction k with
  | nil => simp [get?]
  | cons entry k ih =>
    rw [filter_cons, get?_cons]
    by_cases hname : name = entry.1
    · subst hname
      by_cases hp : p entry.1 = true
      · rw [if_pos hp, if_pos hp, get?_cons, if_pos rfl, if_pos rfl]
      · rw [if_neg hp, if_neg hp, ih, if_neg hp]
    · rw [if_neg hname, ← ih]
      split
      · rw [get?_cons, if_neg hname]
      · rfl

theorem get?_foldl_set (names : List Register) (value : Register → Option Int64) (k : Constants)
    (name : Register) : get? (names.foldl (fun k name => k.set name (value name)) k) name =
      if name ∈ names then value name else k.get? name := by
  induction names generalizing k with
  | nil => rfl
  | cons r names ih =>
    rw [foldl_cons, ih, get?_set]
    by_cases hr : name = r
    · simp [hr]
    · simp [hr]

end Constants

/-! ### Trackers -/

namespace Tracker

variable {d : Dialect} (i : AsmInstr) (t : Tracker)

structure Core where
  tracking : Bool
  depth : Int
  frameDepth : Option Int
  constants : Constants

def core (t : Tracker) : Core := ⟨t.tracking, t.depth, t.frameDepth, t.constants⟩

theorem core_passSetup (effects : List StackEffect) : (t.passSetup d effects i).core = t.core := by
  unfold passSetup endPrologue
  split
  · rfl
  · split <;> rfl

theorem core_pass (hknown : d.isMnemonic i.mnemonic = true) (hreturn : d.isReturn i = false)
    {effects : List StackEffect} (heffects : d.stackEffects t.constants i = effects) :
    (t.pass d i).1.core =
      { ((t.passSetup d effects i).passEffects effects).1.core with
        constants := (d.written i).foldl (fun k r => k.set r (d.constant? t.constants i)) t.constants } := by
  have hstack : ∀ u : Tracker, (u.returnStack d i).1 = u := fun u => by
    rw [returnStack, hreturn]
    rfl
  have hconstants : ((t.passSetup d effects i).passEffects effects).1.constants = t.constants := by
    obtain ⟨_, _, _, heq⟩ := (t.passSetup d effects i).passEffects_eq effects
    rw [heq]
    exact congrArg Core.constants (t.core_passSetup i effects)
  obtain ⟨_, _, _, _, _, _, _, heq⟩ := t.pass_eq i hknown heffects (hstack _)
  rw [heq, ← hconstants]
  rfl

end Tracker

/-! ### Depths -/

structure Stands (entry : Word) (p : Word × Word) (hasFrame : Bool) (c : Tracker.Core) : Prop where
  tracking : c.tracking = true
  stack : p.1 = entry - BitVec.ofInt 64 c.depth
  frame : hasFrame = true → ∃ depth, c.frameDepth = some depth ∧ p.2 = entry - BitVec.ofInt 64 depth

theorem snd_foldl_shift {effects : List StackEffect} (h : effects.any StackEffect.isSetFrame = false)
    (p : Word × Word) : (effects.foldl StackEffect.shift p).2 = p.2 := by
  induction effects generalizing p with
  | nil => rfl
  | cons effect effects ih =>
    rw [any_cons, Bool.or_eq_false_iff] at h
    rw [foldl_cons, ih h.2]
    cases effect with
    | setFrame offset => cases h.1
    | grow | shrink | restoreFrame | unknown => rfl

namespace Stands

variable {entry : Word} {p : Word × Word} {hasFrame : Bool} {t : Tracker}

theorem below_sub (depth n : Int) : entry - BitVec.ofInt 64 depth - BitVec.ofInt 64 n =
    entry - BitVec.ofInt 64 (depth + n) := by
  rw [BitVec.ofInt_add, BitVec.sub_sub]

theorem below_add (depth n : Int) : entry - BitVec.ofInt 64 depth + BitVec.ofInt 64 n =
    entry - BitVec.ofInt 64 (depth - n) := by
  rw [Int.sub_eq_add_neg, ← below_sub, BitVec.ofInt_neg, BitVec.sub_eq_add_neg _ (-_), BitVec.neg_neg]

theorem passEffect (h : Stands entry p hasFrame t.core) {effect : StackEffect}
    (hknown : effect ≠ .unknown) (hrestore : effect.isRestoreFrame = true → hasFrame = true)
    (hquiet : (t.passEffect effect).2.any Finding.isStack = false) :
    Stands entry (effect.shift p) (hasFrame || effect.isSetFrame) (t.passEffect effect).1.core := by
  have happly : (t.passEffect effect).1 = t.applyEffect effect := by
    unfold Tracker.passEffect at hquiet ⊢
    dsimp only at hquiet ⊢
    split
    · next hunder => simp [hunder, Finding.isStack] at hquiet
    · rfl
  rw [happly]
  cases effect with
  | grow bytes =>
    refine ⟨h.tracking, ?_, fun hframe => h.frame (by simpa [StackEffect.isSetFrame] using hframe)⟩
    exact (congrArg (· - BitVec.ofInt 64 bytes) h.stack).trans (below_sub t.depth bytes)
  | shrink bytes =>
    refine ⟨h.tracking, ?_, fun hframe => h.frame (by simpa [StackEffect.isSetFrame] using hframe)⟩
    exact (congrArg (· + BitVec.ofInt 64 bytes) h.stack).trans (below_add t.depth bytes)
  | setFrame offset =>
    refine ⟨h.tracking, h.stack, fun _ => ⟨t.depth - offset, rfl, ?_⟩⟩
    exact (congrArg (· + BitVec.ofInt 64 offset) h.stack).trans (below_add t.depth offset)
  | restoreFrame offset =>
    obtain ⟨depth, hdepth, hp⟩ := h.frame (hrestore rfl)
    have hdepth' : t.frameDepth = some depth := hdepth
    have hrestored : t.applyEffect (.restoreFrame offset) = { t with depth := depth - offset } := by
      simp [Tracker.applyEffect, hdepth']
    rw [hrestored]
    refine ⟨h.tracking, ?_, fun _ => ⟨depth, hdepth, hp⟩⟩
    exact (congrArg (· + BitVec.ofInt 64 offset) hp).trans (below_add depth offset)
  | unknown => exact absurd rfl hknown

theorem passEffects (h : Stands entry p hasFrame t.core) {effects : List StackEffect}
    (hknown : ∀ effect ∈ effects, effect ≠ .unknown ∧
      (effect.isRestoreFrame = true → hasFrame = true))
    (hquiet : (t.passEffects effects).2.any Finding.isStack = false) :
    Stands entry (effects.foldl StackEffect.shift p) (hasFrame || effects.any StackEffect.isSetFrame)
      (t.passEffects effects).1.core := by
  induction effects generalizing p hasFrame t with
  | nil => simpa [Tracker.passEffects] using h
  | cons effect effects ih =>
    obtain ⟨⟨hne, hrestore⟩, hrest⟩ := forall_mem_cons.1 hknown
    rw [Tracker.passEffects, any_append, Bool.or_eq_false_iff] at hquiet
    have hnext := ih (h.passEffect hne hrestore hquiet.1)
      (fun effect' hmem => ⟨(hrest effect' hmem).1, fun hres => by simp [(hrest effect' hmem).2 hres]⟩)
      hquiet.2
    rwa [Bool.or_assoc] at hnext

end Stands

/-! ### Runs -/

structure Tracks (arch : Arch) (entry : Word) (l : Ledger) (t : Tracker) (s : State) : Prop where
  stands : Stands entry (s.registers arch.stackPointer, s.registers arch.dialect.target.framePointer)
    l.hasFrame t.core
  within : l.constants.Within t.constants
  knows : Knows arch.view? l.constants s

namespace Tracks

variable {arch : Arch} {entry : Word} {l : Ledger} {t : Tracker} {s : State} {i : AsmInstr}
  {op : Operation}

theorem get?_step {name : String} {c : Int64}
    (h : (l.step arch i op).constants.get? name = some c) :
    name ∈ arch.dialect.written i ∧ (∃ r, arch.view? name = some (.whole r)) ∧
        arch.dialect.constant? l.constants i = some c ∨
      name ∉ arch.dialect.written i ∧ l.constants.get? name = some c ∧
        Ledger.keeps arch op name = true := by
  rw [Ledger.step, Constants.get?_foldl_set, Constants.get?_filter] at h
  split at h
  · next hmem =>
    rw [Option.ite_none_right_eq_some] at h
    exact .inl ⟨hmem, Arch.isWhole_iff.1 h.1, h.2⟩
  · next hmem =>
    rw [Option.ite_none_right_eq_some] at h
    exact .inr ⟨hmem, h.2, h.1⟩

theorem knows_step (h : Knows arch.view? l.constants s) (hop : arch.operation? i = some op)
    (e : Setting) : Knows arch.view? (l.step arch i op).constants (op.after e s) := by
  intro name c hc
  rcases get?_step hc with ⟨hmem, ⟨r, hr⟩, hc⟩ | ⟨-, hc, hkeep⟩
  · exact ⟨r, hr, arch.shows.constant hop h hc hmem hr⟩
  · obtain ⟨r, hr, hvalue⟩ := h name c hc
    have hnot : r ∉ op.changed := by simpa [Ledger.keeps, Arch.register?, hr] using hkeep
    exact ⟨r, hr, (Operation.after_of_notMem hnot e s).trans hvalue⟩

theorem within_step (h : l.constants.Within t.constants) : (l.step arch i op).constants.Within
    ((arch.dialect.written i).foldl
      (fun k r => k.set r (arch.dialect.constant? t.constants i)) t.constants) := by
  intro name c hc
  rw [Constants.get?_foldl_set _ fun _ => arch.dialect.constant? t.constants i]
  rcases get?_step hc with ⟨hmem, -, hc⟩ | ⟨hmem, hc, -⟩
  · rw [if_pos hmem, arch.shows.constant_of_within h hc]
  · rw [if_neg hmem, h name c hc]

theorem pass (h : Tracks arch entry l t s) (hknown : arch.dialect.isMnemonic i.mnemonic = true)
    (hreturn : arch.dialect.isReturn i = false) (hop : arch.operation? i = some op)
    (haccept : l.accepts arch i op = true)
    (hquiet : (t.pass arch.dialect i).2.any Finding.isStack = false) (e : Setting) :
    Tracks arch entry (l.step arch i op) (t.pass arch.dialect i).1 (op.after e s) := by
  obtain ⟨heffects, hcount⟩ := Bool.and_eq_true_iff.1 haccept
  have hall : ∀ effect ∈ l.effects arch i, effect ≠ .unknown ∧
      (effect.isRestoreFrame = true → l.hasFrame = true) := by
    intro effect hmem
    have hone := all_eq_true.1 heffects effect hmem
    simp only [Bool.and_eq_true, decide_eq_true_eq, Bool.or_eq_true, Bool.not_eq_true'] at hone
    exact ⟨hone.1, fun hres => hone.2.resolve_left (by simp [hres])⟩
  have hunknown : StackEffect.unknown ∉ l.effects arch i := fun hmem => (hall _ hmem).1 rfl
  -- the tracker knows at least what the ledger knows, so it sees the same effects
  have hsame : arch.dialect.stackEffects t.constants i = l.effects arch i :=
    arch.shows.effects_of_within h.within hunknown
  have hfollows := arch.shows.follows (e := e) hop h.knows hunknown (of_decide_eq_true hcount)
  have hcore := t.core_pass i hknown hreturn hsame
  have hoperands : ∀ x ∈ arch.dialect.operandFindings i, x.isStack = false := fun x hx =>
    Finding.isStack_eq_false (arch.isFrame_of_mem_operandFindings hx)
  rw [t.any_isStack_pass i hoperands hknown hsame, Bool.or_eq_false_iff] at hquiet
  have hsetup : Stands entry _ l.hasFrame (t.passSetup arch.dialect (l.effects arch i) i).core :=
    (t.core_passSetup i (l.effects arch i)).symm ▸ h.stands
  have hstands := hsetup.passEffects hall hquiet.1
  refine ⟨hcore ▸ ⟨hstands.tracking, hfollows.stack.trans hstands.stack, fun hframe => ?_⟩, ?_,
    knows_step h.knows hop e⟩
  · rw [Ledger.step, Bool.or_eq_true] at hframe
    rcases hframe with hset | hkept
    · obtain ⟨depth, hdepth, hp⟩ := hstands.frame (by simp [hset])
      exact ⟨depth, hdepth, (hfollows.frame hset).trans hp⟩
    · obtain ⟨hframe, hnot⟩ : l.hasFrame = true ∧
          arch.dialect.target.framePointer ∉ op.changed := by simpa using hkept
      obtain ⟨depth, hdepth, hp⟩ := hstands.frame (by simp [hframe])
      refine ⟨depth, hdepth, ?_⟩
      cases hset : (l.effects arch i).any StackEffect.isSetFrame with
      | true => exact (hfollows.frame hset).trans hp
      | false =>
        rw [snd_foldl_shift hset] at hp
        exact (Operation.after_of_notMem hnot e s).trans hp
  · have hconstants := congrArg Tracker.Core.constants hcore
    rw [show (t.pass arch.dialect i).1.constants = _ from hconstants]
    exact within_step h.within

theorem run (h : Tracks arch entry l t s) {body : List AsmInstr} {ops : List Operation}
    {settings : List Setting} {s' : State}
    (hknown : ∀ i ∈ body, arch.dialect.isMnemonic i.mnemonic = true ∧ arch.dialect.isReturn i = false)
    (hops : body.mapM arch.operation? = some ops) (hlength : settings.length = ops.length)
    (haccept : l.acceptsAll arch body = true)
    (hquiet : (Check.follow arch.dialect t (body.map .instr)).any (fun x => x.cause.isStack) = false)
    (hrun : Processor.run (ops.zip settings) s = some ⟨s', .next⟩) :
    ∃ l', Tracks arch entry l' (Check.after arch.dialect t (body.map .instr)) s' := by
  induction body generalizing l t s ops settings with
  | nil =>
    cases hops
    cases hrun
    exact ⟨l, h⟩
  | cons i body ih =>
    simp only [mapM_cons, Option.bind_eq_bind, Option.bind_eq_some_iff] at hops
    obtain ⟨op, hop, rest, hrest, ⟨⟩⟩ := hops
    obtain ⟨e, es, rfl⟩ := exists_cons_of_length_eq_add_one hlength
    obtain ⟨⟨hmnemonic, hreturn⟩, hbody⟩ := forall_mem_cons.1 hknown
    rw [Ledger.acceptsAll, hop, Bool.and_eq_true] at haccept
    rw [map_cons, Check.follow, any_append, Bool.or_eq_false_iff, any_map] at hquiet
    have hnext := h.pass hmnemonic hreturn hop haccept.1 hquiet.1 e
    exact ih hnext hbody hrest (Nat.succ.inj hlength) haccept.2 hquiet.2 (run_cons_next hrun)

end Tracks

/-! ### Functions -/

/-- Whether an item is a directive. -/
def Item.isDirective : Item → Bool
  | directive _ => true
  | _ => false

theorem Check.follow_filter {d : Dialect} (t : Tracker) (items : List Item) :
    follow d t (items.filter fun item => !item.isDirective) = follow d t items := by
  induction items generalizing t with
  | nil => rfl
  | cons item items ih =>
    cases item with
    | label name => exact ih _
    | directive text => exact ih t
    | instr i => exact congrArg (((t.pass d i).2.map (⟨i, ·⟩)) ++ ·) (ih _)

namespace Arch

variable {ret : AsmInstr}

/-- The instructions of a text but the last one. -/
def body (arch : Arch) (text : String) : List AsmInstr :=
  ((arch.dialect.read text).filterMap Item.instr?).dropLast

/-- The text of one function that runs straight on: a label, known instructions, and a return. -/
structure Straight (arch : Arch) (text name : String) (ret : AsmInstr) : Prop where
  known : ∀ i ∈ arch.body text,
    arch.dialect.isMnemonic i.mnemonic = true ∧ arch.dialect.isReturn i = false
  items : (arch.dialect.read text).filter (fun item => !item.isDirective) =
    .label name :: ((arch.body text).map .instr ++ [.instr ret])
  ret : arch.dialect.isMnemonic ret.mnemonic = true ∧ arch.dialect.isReturn ret = true

theorem straight_iff {text name : String} :
    arch.Straight text name ret ↔
      (∀ i ∈ arch.body text,
        arch.dialect.isMnemonic i.mnemonic = true ∧ arch.dialect.isReturn i = false) ∧
      (arch.dialect.read text).filter (fun item => !item.isDirective) =
        .label name :: ((arch.body text).map .instr ++ [.instr ret]) ∧
      arch.dialect.isMnemonic ret.mnemonic = true ∧ arch.dialect.isReturn ret = true :=
  ⟨fun h => ⟨h.known, h.items, h.ret⟩, fun h => ⟨h.1, h.2.1, h.2.2⟩⟩

instance (arch : Arch) (text name : String) (ret : AsmInstr) :
    Decidable (arch.Straight text name ret) :=
  decidable_of_iff' _ straight_iff

theorem tracks_start (arch : Arch) (name : String) (s : State) :
    Tracks arch (s.registers arch.stackPointer) .start (Tracker.start.passLabel name) s := by
  have hcore : (Tracker.start.passLabel name).core = Tracker.start.core := by
    unfold Tracker.passLabel
    split <;> rfl
  refine ⟨hcore ▸ ⟨rfl, ?_, ?_⟩, ?_, ?_⟩
  · simp [Tracker.core, Tracker.start]
  · intro h
    cases h
  · intro name c h
    cases h
  · intro name c h
    cases h

theorem depth_of_return {t : Tracker} (htracking : t.tracking = true)
    (hknown : arch.dialect.isMnemonic ret.mnemonic = true)
    (hreturn : arch.dialect.isReturn ret = true)
    (hquiet : (t.pass arch.dialect ret).2.any Finding.isStack = false) : t.depth = 0 := by
  have hoperands : ∀ x ∈ arch.dialect.operandFindings ret, x.isStack = false := fun x hx =>
    Finding.isStack_eq_false (arch.isFrame_of_mem_operandFindings hx)
  have hcore := t.core_passSetup (d := arch.dialect) ret []
  rw [t.any_isStack_pass ret hoperands hknown (arch.shows.effects_of_isReturn hreturn),
    Bool.or_eq_false_iff, Tracker.passEffects, Tracker.returnStack, if_pos hreturn] at hquiet
  by_contra hdepth
  have hobjects : ((t.passSetup arch.dialect [] ret).tracking &&
      decide ((t.passSetup arch.dialect [] ret).depth ≠ 0)) = true := by
    rw [show (t.passSetup arch.dialect [] ret).tracking = t.tracking from
        congrArg Tracker.Core.tracking hcore,
      show (t.passSetup arch.dialect [] ret).depth = t.depth from congrArg Tracker.Core.depth hcore]
    simp [htracking, hdepth]
  rw [if_pos hobjects] at hquiet
  cases hquiet.2

/-- If a check has nothing to say about the stack pointer of a function, it is at the return where it
was at the start, as long as the ledger accepts all instructions. -/
theorem stackPointer_of_check {arch : Arch} {text name : String} {ret : AsmInstr}
    (htext : arch.Straight text name ret)
    (haccept : Ledger.start.acceptsAll arch (arch.body text) = true)
    (hcheck : ∀ x ∈ arch.check text, x.cause.isStack = false) {ops : List Operation}
    (hops : (arch.body text).mapM arch.operation? = some ops) {settings : List Setting}
    (hlength : settings.length = ops.length) {s s' : State}
    (hrun : run (ops.zip settings) s = some ⟨s', .next⟩) :
    s'.registers arch.stackPointer = s.registers arch.stackPointer := by
  have hquiet : (Check.follow arch.dialect .start (arch.dialect.read text)).any
      (fun x => x.cause.isStack) = false := by
    rw [← Check.any_isStack_listing]
    exact List.any_eq_false.2 fun x hx => by simp [hcheck x hx]
  rw [← Check.follow_filter, htext.items, Check.follow, Check.follow_append, List.any_append,
    Bool.or_eq_false_iff] at hquiet
  obtain ⟨l, htracks⟩ := (tracks_start arch name s).run htext.known hops hlength haccept hquiet.1 hrun
  simp only [Check.follow, List.append_nil, List.any_map] at hquiet
  have hdepth := depth_of_return htracks.stands.tracking htext.ret.1 htext.ret.2 hquiet.2
  have hstack := htracks.stands.stack
  rw [show Tracker.Core.depth _ = 0 from hdepth] at hstack
  simpa using hstack

/-- A frame pointer, a frame whose size is in a register, a call, and back. -/
theorem stackPointer_frame :
    let text := "f:\n\tpushq %rbp\n\tmovq %rsp, %rbp\n\tmovabsq $4096, %rax\n\tsubq %rax, %rsp\n" ++
      "\tcall g\n\tleave\n\tret\n"
    amd64.Straight text "f" ⟨"ret", [], 8, "ret"⟩ ∧
      ∃ ops, (amd64.body text).mapM amd64.operation? = some ops ∧
        ∀ settings s s', settings.length = ops.length →
          run (ops.zip settings) s = some ⟨s', .next⟩ → s'.registers "rsp" = s.registers "rsp" := by
  intro text
  have hfacts : amd64.Straight text "f" ⟨"ret", [], 8, "ret"⟩ ∧
      Ledger.start.acceptsAll amd64 (amd64.body text) = true ∧
      (∀ x ∈ amd64.check text, x.cause.isStack = false) ∧
      ((amd64.body text).mapM amd64.operation?).isSome = true := by decide
  obtain ⟨htext, haccept, hcheck, hsome⟩ := hfacts
  obtain ⟨ops, hops⟩ := Option.isSome_iff_exists.1 hsome
  exact ⟨htext, ops, hops, fun settings s s' hlength hrun =>
    stackPointer_of_check htext haccept hcheck hops hlength hrun⟩

/-- A check follows the stack pointer of a function to the end and has nothing to say about it, and yet
it may end elsewhere. -/
def Drifts (arch : Arch) (text : String) (ret : AsmInstr) : Prop :=
  arch.Straight text "f" ret ∧ (∀ x ∈ arch.check text, x.cause.isStack = false) ∧
    (Check.after arch.dialect .start (arch.dialect.read text)).tracking = true ∧
    ∃ ops settings s s', (arch.body text).mapM arch.operation? = some ops ∧
      settings.length = ops.length ∧ run (ops.zip settings) s = some ⟨s', .next⟩ ∧
      s'.registers arch.stackPointer ≠ s.registers arch.stackPointer

def destination? (arch : Arch) (text : String) : Option Word := do
  let ops ← (arch.body text).mapM arch.operation?
  let r ← run (ops.zip (List.replicate ops.length (.before 0))) (blank fun _ => 0)
  if r.control = .next then some (r.state.registers arch.stackPointer) else none

theorem drifts_of_destination? (word : Word) {text : String}
    (h : arch.Straight text "f" ret ∧ (∀ x ∈ arch.check text, x.cause.isStack = false) ∧
      (Check.after arch.dialect .start (arch.dialect.read text)).tracking = true ∧
      arch.destination? text = some word) (hne : word ≠ 0) : arch.Drifts text ret := by
  obtain ⟨htext, hcheck, htracking, hword⟩ := h
  simp only [destination?, Option.bind_eq_bind, Option.bind_eq_some_iff] at hword
  obtain ⟨ops, hops, ⟨s', control⟩, hrun, hword⟩ := hword
  obtain ⟨rfl, ⟨⟩⟩ := Option.ite_none_right_eq_some.1 hword
  exact ⟨htext, hcheck, htracking, ops, _, _, s', hops, length_replicate, hrun, hne⟩

/-- A store may move the stack pointer behind its address and a load in front of it, the frame pointer
may change, the stack pointer has other names, a constant does not survive a call, and the stack pointer
itself may be popped. -/
theorem stackPointer_drifts :
    arm64.Drifts "f:\n\tstr x0, [sp], #-16\n\tret\n" ⟨"ret", [], 3, "ret"⟩ ∧
      arm64.Drifts "f:\n\tldr x0, [sp, #16]!\n\tret\n" ⟨"ret", [], 3, "ret"⟩ ∧
      arm64.Drifts "f:\n\tmov x29, sp\n\tadd x29, x29, #16\n\tmov sp, x29\n\tret\n"
        ⟨"ret", [], 5, "ret"⟩ ∧
      riscv64.Drifts "f:\n\taddi x2, x2, -16\n\tret\n" ⟨"ret", [], 3, "ret"⟩ ∧
      riscv64.Drifts "f:\n\tli t0, 16\n\tcall g\n\tsub sp, sp, t0\n\taddi sp, sp, 16\n\tret\n"
        ⟨"ret", [], 6, "ret"⟩ ∧
      amd64.Drifts "f:\n\tpushq $8\n\tpopq %rsp\n\tret\n" ⟨"ret", [], 4, "ret"⟩ := by
  exact ⟨drifts_of_destination? (-16) (by decide) (by decide),
    drifts_of_destination? 16 (by decide) (by decide),
    drifts_of_destination? 16 (by decide) (by decide),
    drifts_of_destination? (-16) (by decide) (by decide),
    drifts_of_destination? 16 (by decide) (by decide),
    drifts_of_destination? 8 (by decide) (by decide)⟩

end Arch

end SsaBackend
