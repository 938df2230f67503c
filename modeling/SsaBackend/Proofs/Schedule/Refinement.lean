import SsaBackend.Isa
import SsaBackend.Proofs.Allocation.Strategy
import SsaBackend.Proofs.Schedule.Names
import SsaBackend.Proofs.Schedule.Places

/-!
# A schedule does what its function means

The run of a schedule follows the run of its function, state by state (`Placed.Sim`): the code that
is left is that of the instructions and the terminator that are left, live values are in their
places, and the traces agree. Each step of the function takes at least one step of the schedule, so
a run that goes on for ever is followed for ever.

Code generation writes out a schedule behind a prologue. For a supported function it succeeds as soon as
every value has a place, and strategies give every value one.
-/

namespace SsaBackend

open List

variable {σ : Store}

namespace Placed

variable {p : Placed} {steps : List Step} (args : List Int64) (w : World)
variable {s s' : Ssa.State} {m : Machine.State} {i : Instruction} {xs : List Int64}
  {succ b : BlockId}

/-- A step of the program that a schedule makes. -/
abbrev stepIn (p : Placed) (steps : List Step) (args : List Int64) (w : World) :=
  Machine.step (.ofSteps p.func p.target steps args) w

def PointAt (p : Placed) (steps : List Step) (b : BlockId) (k : Nat) (code : List Step) : Prop :=
  ∃ next cont,
    code = ((p.func.block b).instructions.drop k).map p.stepOf ++
      ((p.tailCode b next (p.func.block b).terminator).1 ++ cont) ∧
    (∀ n, next = some n → findLabel (p.func.blockLabel n) steps = some cont) ∧
    ∀ s ∈ (p.tailCode b next (p.func.block b).terminator).2, p.StubAt steps s

theorem BlockAt.pointAt {code : List Step} (h : p.BlockAt steps b code) :
    p.PointAt steps b 0 code := by
  obtain ⟨next, cont, rfl, hnext, hstubs⟩ := h
  exact ⟨next, cont, by simp [blockCode], hnext, hstubs⟩

structure Sim (p : Placed) (steps : List Step) (s : Ssa.State) (m : Machine.State) : Prop where
  index : s.index ≤ (p.func.block s.block).instructions.length
  code : p.PointAt steps s.block s.index m.rest
  store : p.Holds m.store s.env s.block s.index
  trace : m.trace = s.trace

/-! ### Instructions -/

theorem PointAt.cons {k : Nat} {code : List Step} (h : p.PointAt steps b k code)
    (hi : (p.func.block b).instructions[k]? = some i) :
    ∃ rest, code = p.stepOf i :: rest ∧ p.PointAt steps b (k + 1) rest := by
  obtain ⟨next, cont, rfl, hnext, hstubs⟩ := h
  obtain ⟨hk, hget⟩ := List.getElem?_eq_some_iff.1 hi
  refine ⟨_, ?_, next, cont, rfl, hnext, hstubs⟩
  rw [drop_eq_getElem_cons hk, hget]
  rfl

theorem Ready.exists_dst (hp : p.Ready) {k : Nat} (hi : (p.func.block b).instructions[k]? = some i)
    {dst : Value} (hdst : i.dst? = some dst) :
    ∃ v l, dst.id? = some v ∧ i.def? = some v ∧ p.allocation.location? v = some l ∧
      p.place dst = l.toOperand := by
  obtain ⟨v, hid⟩ := exists_id? (hp.wf.dsts _ (Function.block_mem (Function.lt_length_of_getElem? hi))
    i (mem_of_getElem? hi) dst hdst)
  have hdef : i.def? = some v := by
    rw [Instruction.def?, hdst]
    exact hid
  obtain ⟨l, hl⟩ := hp.exists_place (Function.mem_definedValues.2 (.inr (.inr ⟨b, k, i, hi, hdef⟩)))
  exact ⟨v, l, hid, hdef, hl, place_of_id? hid hl⟩

theorem exec_eq_some {r : Outcome Ssa.State} (h : Ssa.exec w s i = some r) :
    (∃ s', r = .next s') ∨ r = .trapped ∧ ∃ dst op lhs rhs x y, i = .binop dst op lhs rhs ∧
      s.env.read lhs = some x ∧ s.env.read rhs = some y ∧ w.compute op x y = none := by
  cases i with
  | binop dst op lhs rhs =>
    obtain ⟨x, hx, h⟩ := Option.bind_eq_some_iff.1 h
    obtain ⟨y, hy, h⟩ := Option.bind_eq_some_iff.1 h
    split at h
    · cases h
      exact .inl ⟨_, rfl⟩
    · next hz =>
      cases h
      exact .inr ⟨rfl, _, _, _, _, x, y, rfl, hx, hy, hz⟩
  | call dst callee xs =>
    obtain ⟨ys, -, ⟨⟩⟩ := Option.bind_eq_some_iff.1 h
    exact .inl ⟨_, rfl⟩
  | load dst src =>
    obtain ⟨x, -, ⟨⟩⟩ := Option.bind_eq_some_iff.1 h
    exact .inl ⟨_, rfl⟩
  | store addr src =>
    obtain ⟨x, -, h⟩ := Option.bind_eq_some_iff.1 h
    obtain ⟨y, -, ⟨⟩⟩ := Option.bind_eq_some_iff.1 h
    exact .inl ⟨_, rfl⟩

section Instructions

variable (h : p.Sim steps s m)
  (hi : (p.func.block s.block).instructions[s.index]? = some i)

include h hi

theorem Sim.read_operand {v : Value} (hv : v ∈ i.operands) {x : Int64} (hx : s.env.read v = some x) :
    m.store.read (p.place v) = x := by
  refine h.store.read (fun id hid => .read hi ?_) hx
  exact mem_filterMap.2 ⟨v, hv, hid⟩

theorem Sim.exec_next (hp : p.Ready) (hexec : Ssa.exec w s i = some (.next s')) :
    ∃ m', p.stepIn steps args w m = some (.next m') ∧ p.Sim steps s' m' := by
  obtain ⟨rest, hrest, hpoint⟩ := h.code.cons hi
  obtain ⟨code, σ, trace⟩ := m
  obtain rfl : code = p.stepOf i :: rest := hrest
  obtain rfl : trace = s.trace := h.trace
  have hindex : s.index + 1 ≤ (p.func.block s.block).instructions.length :=
    (List.getElem?_eq_some_iff.1 hi).1
  have huse : ∀ v ∈ i.operands, ∀ x, s.env.read v = some x → σ.read (p.place v) = x :=
    fun v hv x hx => h.read_operand hi hv hx
  cases i with
  | binop dst op lhs rhs =>
    obtain ⟨v, l, hid, hdef, hl, hplace⟩ := hp.exists_dst hi (show _ = some dst from rfl)
    obtain ⟨x, hx, hexec⟩ := Option.bind_eq_some_iff.1 hexec
    obtain ⟨y, hy, hexec⟩ := Option.bind_eq_some_iff.1 hexec
    have hlhs := huse lhs (by simp [Instruction.operands]) x hx
    have hrhs := huse rhs (by simp [Instruction.operands]) y hy
    cases hz : w.compute op x y with
    | none =>
      rw [hz] at hexec
      cases hexec
    | some z =>
      rw [hz] at hexec
      cases hexec
      refine ⟨⟨rest, σ.set l z, s.trace⟩, ?_, hindex, hpoint, ?_, rfl⟩
      · simp [Machine.step, stepOf, hlhs, hrhs, hz, hplace]
      · exact h.store.write hp hi hid hdef hl (by simp)
  | call dst callee xs =>
    obtain ⟨ys, hys, hexec⟩ := Option.bind_eq_some_iff.1 hexec
    cases hexec
    have hargs : xs.map (fun v => σ.read (p.place v)) = ys := map_eq_of_mapM huse hys
    -- nothing that lives across the call is in a place it clobbers
    have hclob := h.store.clobbered hp (w.clobber s.trace)
    cases dst with
    | none =>
      refine ⟨⟨rest, σ.clobbered p.target (w.clobber s.trace), _⟩, ?_, hindex, hpoint, ?_, rfl⟩
      · simp [Machine.step, stepOf, Function.comp_def, hargs, Machine.Program.ofSteps]
      · exact hclob.pass hi rfl
    | some d =>
      obtain ⟨v, l, hid, hdef, hl, hplace⟩ := hp.exists_dst hi (show _ = some d from rfl)
      refine ⟨⟨rest, (σ.clobbered p.target (w.clobber s.trace)).set l
        (w.reply s.trace callee ys), _⟩, ?_, hindex, hpoint, ?_, rfl⟩
      · simp [Machine.step, stepOf, Function.comp_def, hargs, hplace, Machine.Program.ofSteps]
      · exact hclob.write hp hi hid hdef hl (by simp)
  | load dst src =>
    obtain ⟨v, l, hid, hdef, hl, hplace⟩ := hp.exists_dst hi (show _ = some dst from rfl)
    obtain ⟨x, hx, hexec⟩ := Option.bind_eq_some_iff.1 hexec
    cases hexec
    have hsrc := huse src (by simp [Instruction.operands]) x hx
    refine ⟨⟨rest, σ.set l x, s.trace⟩, ?_, hindex, hpoint, ?_, rfl⟩
    · simp [Machine.step, stepOf, hsrc, hplace]
    · refine h.store.write hp hi hid hdef hl ?_
      intro d src' heq
      cases heq
      exact hsrc
  | store addr src =>
    obtain ⟨x, hx, hexec⟩ := Option.bind_eq_some_iff.1 hexec
    obtain ⟨y, hy, hexec⟩ := Option.bind_eq_some_iff.1 hexec
    cases hexec
    have haddr := huse addr (by simp [Instruction.operands]) x hx
    have hsrc := huse src (by simp [Instruction.operands]) y hy
    refine ⟨⟨rest, σ, s.trace ++ [.store x y]⟩, ?_, hindex, hpoint, h.store.pass hi rfl, rfl⟩
    simp [Machine.step, stepOf, haddr, hsrc]

theorem Sim.exec_trapped (hexec : Ssa.exec w s i = some .trapped) :
    p.stepIn steps args w m = some .trapped := by
  obtain ⟨rest, hrest, -⟩ := h.code.cons hi
  obtain ⟨s', hs'⟩ | ⟨-, dst, op, lhs, rhs, x, y, rfl, hx, hy, hz⟩ := exec_eq_some w hexec
  · cases hs'
  · have hlhs := h.read_operand hi (v := lhs) (by simp [Instruction.operands]) hx
    have hrhs := h.read_operand hi (v := rhs) (by simp [Instruction.operands]) hy
    simp [Machine.step, hrest, stepOf, hlhs, hrhs, hz]

end Instructions

/-! ### Terminators -/

def entered (p : Placed) (s : Ssa.State) (succ : BlockId) (xs : List Int64) : Ssa.State :=
  { block := succ
    index := 0
    env := s.env.assignAll (((p.func.block succ).phis.map Phi.dst).zip xs)
    trace := s.trace ++ [.enter succ] }

/-- Where a terminator goes. -/
inductive Goes (s : Ssa.State) : Terminator → BlockId → Prop
  | branch (succ : BlockId) : Goes s (.branch succ) succ
  | condBranch {cond : Value} {x : Int64} (hx : s.env.read cond = some x) (onTrue onFalse : BlockId) :
    Goes s (.condBranch cond onTrue onFalse) (if x = 0 then onFalse else onTrue)

theorem finish_eq_some {t : Terminator} {r : Outcome Ssa.State} (h : Ssa.finish p.func s t = some r) :
    (∃ v, r = .returned v ∧ ∃ u, t = .ret u ∧ u.map s.env.read = v.map some) ∨
      ∃ succ xs, Goes s t succ ∧ Ssa.phiWords p.func s.env s.block succ = some xs ∧
        r = .next (p.entered s succ xs) := by
  cases t with
  | ret value =>
    cases value with
    | none =>
      cases h
      exact .inl ⟨_, rfl, _, rfl, rfl⟩
    | some v =>
      obtain ⟨x, hx, ⟨⟩⟩ := Option.bind_eq_some_iff.1 h
      exact .inl ⟨_, rfl, _, rfl, congrArg some hx⟩
  | branch succ =>
    obtain ⟨xs, hxs, ⟨⟩⟩ := Option.bind_eq_some_iff.1 h
    exact .inr ⟨_, xs, .branch succ, hxs, rfl⟩
  | condBranch cond onTrue onFalse =>
    obtain ⟨x, hx, h⟩ := Option.bind_eq_some_iff.1 h
    obtain ⟨xs, hxs, ⟨⟩⟩ := Option.bind_eq_some_iff.1 h
    exact .inr ⟨_, xs, .condBranch hx onTrue onFalse, hxs, rfl⟩

section Terminators

variable (h : p.Sim steps s m)
  (hi : (p.func.block s.block).instructions[s.index]? = none)

include h hi

theorem Sim.tail :
    s.index = (p.func.block s.block).instructions.length ∧ ∃ next cont,
      m = ⟨(p.tailCode s.block next (p.func.block s.block).terminator).1 ++ cont, m.store, s.trace⟩ ∧
      (∀ n, next = some n → findLabel (p.func.blockLabel n) steps = some cont) ∧
      ∀ t ∈ (p.tailCode s.block next (p.func.block s.block).terminator).2, p.StubAt steps t := by
  have hindex := Nat.le_antisymm h.index (getElem?_eq_none_iff.1 hi)
  obtain ⟨next, cont, hcode, hnext, hstubs⟩ := h.code
  refine ⟨hindex, next, cont, ?_, hnext, hstubs⟩
  obtain ⟨code, σ, trace⟩ := m
  obtain rfl : trace = s.trace := h.trace
  rw [hindex, drop_length] at hcode
  change code = _ at hcode
  rw [hcode]
  rfl

theorem Sim.finish_returned {v : Option Int64}
    (hfinish : Ssa.finish p.func s (p.func.block s.block).terminator = some (.returned v)) :
    ∃ n m' r, Steps (p.stepIn steps args w) n m m' ∧ m'.trace = s.trace ∧
      p.stepIn steps args w m' = some (.returned (some r)) ∧ ∀ x, v = some x → r = x := by
  obtain ⟨hindex, next, cont, hm, -⟩ := h.tail hi
  have hstore := h.store
  rw [hindex] at hstore
  rw [hm]
  obtain ⟨_, ⟨⟩, u, hterm, hu⟩ | ⟨_, _, _, _, hgo⟩ := finish_eq_some hfinish
  · rw [hterm]
    cases u with
    | none =>
      cases v with
      | none => exact ⟨0, _, _, .refl _, rfl, rfl, by simp⟩
      | some x => cases hu
    | some u =>
      cases v with
      | none => cases hu
      | some x =>
        have hread : m.store.read (p.place u) = x := by
          refine hstore.read (fun id hid => .terminator ?_) (Option.some.inj hu)
          simp [hterm, Terminator.uses, hid]
        refine ⟨1, ⟨.epilogue :: cont, m.store.set (.register p.target.retReg) x, s.trace⟩, x,
          .single ?_, rfl, ?_, ?_⟩
        · simp [Machine.step, tailCode, hread, Store.write, Operand.location?]
        · simp [Machine.step, Machine.Program.ofSteps]
        · exact fun y hy => Option.some.inj hy
  · cases hgo

end Terminators

/-! ### Edges -/

section Ready

variable (hp : p.Ready)

include hp

theorem Ready.blockOf?_blockLabel (hb : b < p.func.blocks.length) :
    (Machine.Program.ofSteps p.func p.target steps args).blockOf? (p.func.blockLabel b) =
      some b := by
  change p.func.blockIds.find? (fun c => p.func.blockLabel c = p.func.blockLabel b) = some b
  have hmem : b ∈ p.func.blockIds := mem_range.2 hb
  cases hfind : p.func.blockIds.find? (fun c => p.func.blockLabel c = p.func.blockLabel b) with
  | none => exact absurd (find?_eq_none.1 hfind b hmem) (by simp)
  | some c =>
    have hc : c < p.func.blocks.length := mem_range.1 (mem_of_find?_eq_some hfind)
    have hlabel : p.func.blockLabel c = p.func.blockLabel b := by
      simpa using find?_some hfind
    rw [hp.wf.blockLabel_inj hc hb hlabel]

theorem Ready.blockOf?_edgeLabel (pred succ : BlockId) :
    (Machine.Program.ofSteps p.func p.target steps args).blockOf? (p.func.edgeLabel pred succ) =
      none := by
  refine find?_eq_none.2 fun b hb => ?_
  have hne := hp.wf.edgeLabel_ne_blockLabel pred succ (mem_range.1 hb)
  simpa using Ne.symm hne

variable (hlaid : p.Laid steps)

include hlaid

theorem Ready.steps_enter (hsucc : succ ∈ (p.func.block s.block).succs)
    (hstore : p.Holds σ (p.entered s succ xs).env succ 0) :
    ∃ code, findLabel (p.func.blockLabel succ) steps = some code ∧
      ∃ m', Steps (p.stepIn steps args w) 1 ⟨code, σ, s.trace⟩ m' ∧
        p.Sim steps (p.entered s succ xs) m' := by
  have hlt := hp.wf.succ_lt hsucc
  have hne : succ ≠ 0 := by
    rintro rfl
    exact hp.wf.entry _ (Function.block_mem (Function.lt_length_of_mem_succs hsucc)) hsucc
  obtain ⟨code, hfind, hblock⟩ := hlaid.block succ hlt hne
  refine ⟨_, hfind, ⟨code, σ, s.trace ++ [.enter succ]⟩, .single ?_, ?_⟩
  · simp [Machine.step, hp.blockOf?_blockLabel args hlt]
  · exact ⟨Nat.zero_le _, hblock.pointAt, hstore, rfl⟩

section

variable (hsucc : succ ∈ (p.func.block s.block).succs)
  (hstore : p.Holds σ s.env s.block (p.func.block s.block).instructions.length)
  (hxs : Ssa.phiWords p.func s.env s.block succ = some xs)

include hsucc hstore hxs

theorem Ready.steps_go {next : Option BlockId} {cont : List Step}
    (hnext : ∀ n, next = some n → findLabel (p.func.blockLabel n) steps = some cont) :
    ∃ n m', Steps (p.stepIn steps args w) (n + 1)
        ⟨p.goCode s.block succ next ++ cont, σ, s.trace⟩ m' ∧
      p.Sim steps (p.entered s succ xs) m' := by
  obtain ⟨k, σ', hmoves, hmoved⟩ := steps_parallelMove
    (.ofSteps p.func p.target steps args) w (hp.parallel_edgeMoves s.block succ)
    ((if next = some succ then [] else [Step.jump (p.func.blockLabel succ)]) ++ cont) σ s.trace
  obtain ⟨code, hfind, m', henter, hsim⟩ := hp.steps_enter args w hlaid hsucc
    (hstore.edge hp hsucc hxs hmoved)
  rw [goCode, edgeCode, append_assoc]
  by_cases hfall : next = some succ
  · rw [if_pos hfall, nil_append] at hmoves ⊢
    cases (hnext succ hfall).symm.trans hfind
    exact ⟨k, m', hmoves.trans henter, hsim⟩
  · rw [if_neg hfall] at hmoves ⊢
    have hjump : p.stepIn steps args w
        ⟨[.jump (p.func.blockLabel succ)] ++ cont, σ', s.trace⟩ =
          some (.next ⟨code, σ', s.trace⟩) := by
      simp [Machine.step, Machine.Program.ofSteps, hfind]
    exact ⟨k + 1, m', hmoves.trans (.head hjump henter), hsim⟩

theorem Ready.steps_target
    (hstubs : ∀ t ∈ (p.edgeTarget s.block succ).2, p.StubAt steps t) :
    ∃ code, findLabel (p.edgeTarget s.block succ).1 steps = some code ∧
      ∃ n m', Steps (p.stepIn steps args w) n
          ⟨code, σ, s.trace⟩ m' ∧ p.Sim steps (p.entered s succ xs) m' := by
  unfold edgeTarget at hstubs ⊢
  by_cases hphis : (p.func.block succ).phis.isEmpty
  · -- without phis there is nothing to move
    rw [if_pos hphis]
    have hnone : p.edgeMoves s.block succ = [] := by
      rw [edgeMoves, isEmpty_iff.1 hphis]
      rfl
    have hmoved : Move.Moved (.register p.target.cycleScratch) (p.edgeMoves s.block succ) σ σ := by
      rw [hnone]
      exact ⟨by simp, fun _ _ _ => rfl⟩
    obtain ⟨code, hfind, m', henter, hsim⟩ := hp.steps_enter args w hlaid hsucc
      (hstore.edge hp hsucc hxs hmoved)
    exact ⟨code, hfind, _, m', henter, hsim⟩
  · rw [if_neg hphis] at hstubs ⊢
    obtain ⟨cont, hfind⟩ := hstubs _ mem_cons_self
    refine ⟨_, hfind, ?_⟩
    have hnext : ∀ n, none = some n → findLabel (p.func.blockLabel n) steps = some cont := by simp
    obtain ⟨k, m', hgo, hsim⟩ := hp.steps_go args w hlaid hsucc hstore hxs hnext
    refine ⟨_, m', .head ?_ hgo, hsim⟩
    simp [Machine.step, stubCode, goCode, hp.blockOf?_edgeLabel]

end

theorem Ready.steps_branch {cond : Operand} {onTrue onFalse : BlockId}
    (hsuccs : (p.func.block s.block).succs =
      if onTrue = onFalse then [onTrue] else [onTrue, onFalse])
    (hstore : p.Holds σ s.env s.block (p.func.block s.block).instructions.length)
    (hxs : Ssa.phiWords p.func s.env s.block (if σ.read cond = 0 then onFalse else onTrue) = some xs)
    {next : Option BlockId} {cont : List Step}
    (hnext : ∀ n, next = some n → findLabel (p.func.blockLabel n) steps = some cont)
    (hstubs : ∀ t ∈ (p.branchCode s.block next cond onTrue onFalse).2, p.StubAt steps t) :
    ∃ n m', Steps (p.stepIn steps args w) (n + 1)
        ⟨(p.branchCode s.block next cond onTrue onFalse).1 ++ cont, σ, s.trace⟩ m' ∧
      p.Sim steps (p.entered s (if σ.read cond = 0 then onFalse else onTrue) xs) m' := by
  unfold branchCode at hstubs ⊢
  by_cases hsame : onTrue = onFalse
  · subst hsame
    rw [ite_self] at hxs ⊢
    rw [if_pos rfl] at hsuccs ⊢
    exact hp.steps_go args w hlaid (by simp [hsuccs]) hstore hxs hnext
  · rw [if_neg hsame] at hstubs hsuccs ⊢
    dsimp only at hstubs ⊢
    by_cases hzero : σ.read cond = 0
    · rw [if_pos hzero] at hxs ⊢
      have hfall := hp.steps_target args w hlaid
        (show onFalse ∈ _ by simp [hsuccs]) hstore hxs
        fun t ht => hstubs t (mem_append_right _ ht)
      obtain ⟨code, hfind, n, m', hgo, hsim⟩ := hfall
      -- the branch is not taken: the false edge is next, or a jump to it
      by_cases hdirect : ((p.edgeTarget s.block onFalse).2.isEmpty && next = some onFalse) = true
      · rw [if_pos hdirect]
        obtain ⟨hempty, hnextEq⟩ := Bool.and_eq_true_iff.1 hdirect
        have hlabel : (p.edgeTarget s.block onFalse).1 = p.func.blockLabel onFalse := by
          unfold edgeTarget at hempty ⊢
          split at hempty
          · rename_i hphis
            rw [if_pos hphis]
          · cases hempty
        rw [hlabel, hnext onFalse (by simpa using hnextEq)] at hfind
        cases hfind
        refine ⟨n, m', .head ?_ hgo, hsim⟩
        simp [Machine.step, hzero]
      · rw [if_neg hdirect]
        have hjump : p.stepIn steps args w
            ⟨.jump (p.edgeTarget s.block onFalse).1 :: cont, σ, s.trace⟩ =
              some (.next ⟨code, σ, s.trace⟩) := by
          simp [Machine.step, Machine.Program.ofSteps, hfind]
        refine ⟨n + 1, m', .head ?_ (.head hjump hgo), hsim⟩
        simp [Machine.step, hzero]
    · rw [if_neg hzero] at hxs ⊢
      obtain ⟨code, hfind, n, m', hgo, hsim⟩ := hp.steps_target args w hlaid
        (show onTrue ∈ _ by simp [hsuccs]) hstore hxs
        fun t ht => hstubs t (mem_append_left _ ht)
      refine ⟨n, m', .head ?_ hgo, hsim⟩
      simp [Machine.step, Machine.Program.ofSteps, hzero, hfind]

theorem Sim.finish_next (h : p.Sim steps s m)
    (hi : (p.func.block s.block).instructions[s.index]? = none)
    (hfinish : Ssa.finish p.func s (p.func.block s.block).terminator = some (.next s')) :
    ∃ n m', Steps (p.stepIn steps args w) (n + 1) m m' ∧ p.Sim steps s' m' := by
  obtain ⟨hindex, next, cont, hm, hnext, hstubs⟩ := h.tail hi
  have hstore := h.store
  rw [hindex] at hstore
  rw [hm]
  obtain ⟨v, hv, -⟩ | ⟨succ, xs, hgoes, hxs, ⟨⟩⟩ := finish_eq_some hfinish
  · cases hv
  generalize hterm : (p.func.block s.block).terminator = t at hgoes hstubs
  cases hgoes with
  | branch =>
    have hsucc : succ ∈ (p.func.block s.block).succs := by
      simp [Block.succs, hterm, Terminator.successors]
    exact hp.steps_go args w hlaid hsucc hstore hxs hnext
  | @condBranch cond x hx onTrue onFalse =>
    have hsuccs : (p.func.block s.block).succs =
        if onTrue = onFalse then [onTrue] else [onTrue, onFalse] := by
      rw [Block.succs, hterm]
      rfl
    have hread : m.store.read (p.place cond) = x := by
      refine hstore.read (fun id hid => .terminator ?_) hx
      simp [hterm, Terminator.uses, hid]
    simp only [tailCode] at hstubs ⊢
    cases hcond : p.place cond with
    | immediate value =>
      -- a branch on a literal is a jump in the code
      rw [hcond] at hread hstubs
      obtain rfl : value = x := hread
      refine hp.steps_go args w hlaid ?_ hstore hxs hnext
      rw [hsuccs]
      by_cases hsame : onTrue = onFalse
      · rw [if_pos hsame, ← hsame, ite_self]
        exact mem_singleton_self _
      · rw [if_neg hsame]
        split <;> simp
    | register | stack =>
      rw [hcond] at hread hstubs
      subst hread
      exact hp.steps_branch args w hlaid hsuccs hstore hxs hnext hstubs

/-! ### Runs -/

theorem Sim.step_next (h : p.Sim steps s m) (hstep : Ssa.step p.func w s = some (.next s')) :
    ∃ n m', Steps (p.stepIn steps args w) (n + 1) m m' ∧ p.Sim steps s' m' := by
  unfold Ssa.step at hstep
  split at hstep
  · rename_i i hi
    obtain ⟨m', hm', hsim⟩ := h.exec_next args w hi hp hstep
    exact ⟨0, m', .single hm', hsim⟩
  · rename_i hi
    exact h.finish_next args w hp hlaid hi hstep

theorem Sim.run {n : Nat} (hrun : Steps (Ssa.step p.func w) n s s') :
    ∀ {m : Machine.State}, p.Sim steps s m →
      ∃ k m', n ≤ k ∧ Steps (p.stepIn steps args w) k m m' ∧ p.Sim steps s' m' := by
  induction hrun with
  | refl s => exact fun {m} h => ⟨0, m, Nat.le_refl 0, .refl m, h⟩
  | head hstep _ ih =>
    intro m h
    obtain ⟨j, m₁, hfirst, h₁⟩ := h.step_next args w hp hlaid hstep
    obtain ⟨k, m', hle, hrest, h'⟩ := ih h₁
    exact ⟨j + 1 + k, m', by omega, hfirst.trans hrest, h'⟩

theorem Ready.sim_start (hlen : args.length = p.func.params.length)
    (hpass : Machine.Passes p.target args σ) :
    ∃ n m, Steps (p.stepIn steps args w) n ⟨steps, σ, []⟩ m ∧
      p.Sim steps (Ssa.start p.func args) m := by
  obtain ⟨code, hcode, hblock⟩ := hlaid.entry
  obtain ⟨n, σ', hrun, hargs⟩ := hp.steps_params steps hlen hpass w code
  rw [← hcode] at hrun
  refine ⟨n, _, hrun, Nat.zero_le _, hblock.pointAt, ?_, rfl⟩
  intro v x hlive hx
  have hzip : p.func.params.zip args =
      p.func.params.map fun u => (u, σ'.read (p.place u)) := by
    conv_lhs => rw [← hargs]
    nth_rewrite 1 [← map_id p.func.params]
    rw [zip_map']
    rfl
  change Ssa.Env.assignAll (fun _ => none) (p.func.params.zip args) v = some x at hx
  rw [hzip] at hx
  rcases assignAll_places hx with ⟨u, -, hid, hread⟩ | ⟨-, hx⟩
  · obtain ⟨l, hl⟩ := hp.exists_place (hp.wf.mem_definedValues_of_liveAt hlive)
    exact ⟨l, hl, by rw [← hread, place_of_id? hid hl, Store.read_toOperand]⟩
  · cases hx

end Ready

end Placed

/-- The run of a schedule does what the run of its function does: it gets as far with the same
trace, and returns the same word or traps if that does. -/
def Machine.Follows (f : Function) (w : World) (args : List Int64) (prog : Program) (σ : Store) :
    Prop :=
  ∀ n s, Steps (Ssa.step f w) n (Ssa.start f args) s →
    ∃ k m, n ≤ k ∧ Steps (Machine.step prog w) k ⟨prog.steps, σ, []⟩ m ∧ m.trace = s.trace ∧
      (∀ v, Ssa.step f w s = some (.returned v) →
        ∃ j m' r, Steps (Machine.step prog w) j m m' ∧ m'.trace = s.trace ∧
          Machine.step prog w m' = some (.returned (some r)) ∧ ∀ x, v = some x → r = x) ∧
      (Ssa.step f w s = some .trapped → Machine.step prog w m = some .trapped)

theorem Placed.Ready.follows {p : Placed} (hp : p.Ready) {steps : List Step} (hlaid : p.Laid steps)
    (w : World) {args : List Int64} (hlen : args.length = p.func.params.length)
    (hpass : Machine.Passes p.target args σ) :
    Machine.Follows p.func w args (.ofSteps p.func p.target steps args) σ := by
  intro n s hrun
  obtain ⟨j, m₀, hstart, hsim₀⟩ := hp.sim_start args w hlaid hlen hpass
  obtain ⟨k, m, hle, hfollow, hsim⟩ := Placed.Sim.run args w hp hlaid hrun hsim₀
  refine ⟨j + k, m, by omega, hstart.trans hfollow, hsim.trace, ?_, ?_⟩
  · intro v hv
    unfold Ssa.step at hv
    split at hv
    · rcases Placed.exec_eq_some w hv with ⟨_, h⟩ | ⟨h, -⟩ <;> cases h
    · rename_i hi
      exact hsim.finish_returned args w hi hv
  · intro htrap
    unfold Ssa.step at htrap
    split at htrap
    · rename_i i hi
      exact hsim.exec_trapped args w hi htrap
    · rcases Placed.finish_eq_some htrap with ⟨_, h, -⟩ | ⟨_, _, -, -, h⟩ <;> cases h

/-! ### Built functions -/

theorem Isa.generate_eq {isa : Isa} {f : Function} (hcheck : f.unsupported isa.target = [])
    {a : Allocation} {layout : List BlockId} {steps : List Step}
    (hsteps : Placed.schedule ⟨f, a, isa.target⟩ layout = .ok steps) (o : Options) :
    isa.generate f a layout o =
      .ok (isa.assemble o (.ofAllocation isa.target a (f.outgoingArgs isa.target)) f.name steps,
        .ofAllocation isa.target a (f.outgoingArgs isa.target)) := by
  unfold generate
  rw [hcheck]
  simp only [hsteps]
  rfl

variable {layout : List BlockId} {a : Allocation} {f : Function}

theorem Isa.exists_of_generate {isa : Isa} {o : Options} {result : Assembly × Frame}
    (h : isa.generate f a layout o = .ok result) :
    ∃ steps, Placed.schedule ⟨f, a, isa.target⟩ layout = .ok steps ∧
      result.1 = isa.assemble o (.ofAllocation isa.target a (f.outgoingArgs isa.target)) f.name steps
      ∧ result.2 = .ofAllocation isa.target a (f.outgoingArgs isa.target) := by
  unfold generate at h
  split at h
  · cases h
  · cases hsteps : Placed.schedule ⟨f, a, isa.target⟩ layout with
    | error e =>
      rw [hsteps] at h
      cases h
    | ok steps =>
      rw [hsteps] at h
      cases h
      exact ⟨steps, rfl, rfl, rfl⟩

theorem Arch.target_isa (arch : Arch) : arch.isa.target = arch.target := by cases arch <;> rfl

theorem Arch.nodup_allocatable (arch : Arch) : arch.target.allocatable.Nodup := by
  cases arch <;> decide

/-- The frame of a function whose values are placed. -/
def Arch.frame (arch : Arch) (f : Function) (a : Allocation) : Frame :=
  .ofAllocation arch.target a (f.outgoingArgs arch.target)

/-- The code of a function whose values are placed. -/
abbrev Arch.textOf (arch : Arch) (f : Function) (a : Allocation) (layout : List BlockId) (o : Options) :
    Assembly :=
  arch.isa.assemble o (arch.frame f a) f.name (Placed.code ⟨f, a, arch.target⟩ layout)

theorem Arch.generate_of_total {arch : Arch} (wf : f.WellFormed)
    (hcheck : f.unsupported arch.target = []) (htotal : Placed.Total ⟨f, a, arch.target⟩)
    (hperm : layout.Perm f.blockIds) (o : Options) :
    arch.isa.generate f a layout o =
      .ok (arch.isa.assemble o (arch.frame f a) f.name (Placed.code ⟨f, a, arch.target⟩ layout),
        arch.frame f a) := by
  have hsteps := Placed.schedule_eq htotal wf fun b hb => List.mem_range.1 (hperm.mem_iff.1 hb)
  rw [← arch.target_isa] at hcheck hsteps
  rw [Isa.generate_eq hcheck hsteps, frame, arch.target_isa]

theorem Placed.schedule_of_allocate (wf : f.WellFormed) {t : Target} (hpool : t.allocatable.Nodup)
    {strategy : Strategy} {profile : Option Profile} (ha : strategy.allocate f t profile = .ok a)
    (hperm : layout.Perm f.blockIds) :
    Placed.schedule ⟨f, a, t⟩ layout = .ok (Placed.code ⟨f, a, t⟩ layout) := by
  have hfits := Strategy.fits_of_allocate wf hpool ha
  exact Placed.schedule_eq (fun v hv => (hfits.domain v).2 hv) wf fun b hb =>
    List.mem_range.1 (hperm.mem_iff.1 hb)

end SsaBackend
