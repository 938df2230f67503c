import SsaBackend.Proofs.Interference
import SsaBackend.Proofs.Semantics.Schedule

/-!
# The shape of a schedule

Once every value has a place, scheduling cannot fail, and its result is a plain function of the
places (`Placed.schedule_eq`). The rest of the module says where things are in a schedule: behind
the label of a block stands the code of that block, and behind that either the block that comes next
or nothing that is ever reached by falling through; behind the label of an edge stand the moves of
that edge and a jump to its target (`Placed.Laid`). This rests on labels being different: names hold
no dots, and the labels of blocks and edges have different numbers of them.
-/

namespace SsaBackend

open List

variable {b : BlockId} {layout : List BlockId} {name : String}

/-! ### Schedules without failure -/

theorem mapM_eq_ok {α β ε : Type} {g : α → Except ε β} {g' : α → β} {l : List α}
    (h : ∀ x ∈ l, g x = .ok (g' x)) : l.mapM g = .ok (l.map g') := by
  induction l with
  | nil => rfl
  | cons x l ih =>
    obtain ⟨hx, hl⟩ := forall_mem_cons.1 h
    rw [mapM_cons, hx, ih hl]
    rfl

namespace Placed

variable (p : Placed)

/-- The operand of a value that has a place. -/
def place : Value → Operand
  | .constant literal _ => .immediate literal
  | .parameter id _ _ | .temporary id _ =>
    (p.allocation.location? id).elim (.immediate 0) Location.toOperand

/-- The step of an instruction. -/
def stepOf : Instruction → Step
  | .binop dst op lhs rhs => .binop op (p.place dst) (p.place lhs) (p.place rhs)
  | .call dst callee args => .call callee (args.map p.place) (dst.map p.place)
  | .load dst src => .move (p.place dst) (p.place src)
  | .store addr src => .store (p.place addr) (p.place src)

/-- The moves into parameters that come in registers. -/
def paramMoves : List Move :=
  ((p.func.params.map p.place).zip p.target.argRegs).map fun d => ⟨d.1, .register d.2⟩

/-- The code that puts parameters in their places. -/
def paramCode : List Step :=
  (((p.func.params.map p.place).drop p.target.argRegs.length).zipIdx.map fun d =>
    Step.incoming d.2 d.1) ++ p.parallelMove p.paramMoves

/-- The moves of an edge. -/
def edgeMoves (pred succ : BlockId) : List Move :=
  (p.func.block succ).phis.filterMap fun phi =>
    (phi.source? pred).map fun src => ⟨p.place phi.dst, p.place src⟩

/-- The code of an edge. -/
def edgeCode (pred succ : BlockId) : List Step := p.parallelMove (p.edgeMoves pred succ)

/-- The code that takes an edge. -/
def goCode (pred succ : BlockId) (next : Option BlockId) : List Step :=
  p.edgeCode pred succ ++ if next = some succ then [] else [.jump (p.func.blockLabel succ)]

/-- The code of a branch on an operand that is no literal. -/
def branchCode (b : BlockId) (next : Option BlockId) (cond : Operand) (onTrue onFalse : BlockId) :
    List Step × List Stub :=
  if onTrue = onFalse then (p.goCode b onTrue next, [])
  else
    (.branchIf cond (p.edgeTarget b onTrue).1 ::
      (if (p.edgeTarget b onFalse).2.isEmpty && next = some onFalse then []
        else [.jump (p.edgeTarget b onFalse).1]),
      (p.edgeTarget b onTrue).2 ++ (p.edgeTarget b onFalse).2)

/-- The code of a terminator, with the stubs it needs. -/
def tailCode (b : BlockId) (next : Option BlockId) : Terminator → List Step × List Stub
  | .ret none => ([.epilogue], [])
  | .ret (some value) =>
    ([.move (.register p.target.retReg) (p.place value), .epilogue], [])
  | .branch succ => (p.goCode b succ next, [])
  | .condBranch cond onTrue onFalse =>
    match p.place cond with
    | .immediate value => (p.goCode b (if value = 0 then onFalse else onTrue) next, [])
    | cond => p.branchCode b next cond onTrue onFalse

/-- The code of a block. -/
def blockCode (b : BlockId) (next : Option BlockId) : List Step :=
  (p.func.block b).instructions.map p.stepOf ++
    (p.tailCode b next (p.func.block b).terminator).1

/-- The code of laid-out blocks. -/
def layoutCode : List BlockId → List Step
  | [] => []
  | b :: bs => .label (p.func.blockLabel b) :: p.blockCode b bs.head? ++ layoutCode bs

/-- The stubs of laid-out blocks. -/
def layoutStubs : List BlockId → List Stub
  | [] => []
  | b :: bs => (p.tailCode b bs.head? (p.func.block b).terminator).2 ++ layoutStubs bs

/-- The code of a stub. -/
def stubCode (s : Stub) : List Step :=
  .label (p.func.edgeLabel s.pred s.succ) :: p.edgeCode s.pred s.succ ++
    [.jump (p.func.blockLabel s.succ)]

/-- Every value of the function has a place. -/
def Total : Prop := ∀ v ∈ p.func.definedValues, p.allocation.location? v ≠ none

variable {p}

/-- What holds of literals and of all locations holds of the places of values. -/
theorem forall_place {P : Operand → Prop} (hliteral : ∀ x, P (.immediate x))
    (hlocation : ∀ id l, p.allocation.location? id = some l → P l.toOperand) (v : Value) :
    P (p.place v) := by
  have hplace : ∀ id, P ((p.allocation.location? id).elim (.immediate 0) Location.toOperand) := by
    intro id
    cases hl : p.allocation.location? id with
    | none => exact hliteral 0
    | some l => exact hlocation id l hl
  cases v with
  | constant literal => exact hliteral literal
  | parameter id | temporary id => exact hplace id

section Total

variable (h : p.Total)

include h

theorem operand_eq {v : Value} (hv : ∀ id, v.id? = some id → id ∈ p.func.definedValues) :
    p.operand v = .ok (p.place v) := by
  have hplace : ∀ id, id ∈ p.func.definedValues →
      ∃ l, p.allocation.location? id = some l := fun id hid =>
    Option.ne_none_iff_exists'.1 (h id hid)
  cases v with
  | constant => rfl
  | parameter id | temporary id =>
    obtain ⟨l, hl⟩ := hplace id (hv id rfl)
    simp [operand, place, hl]

theorem parameterSteps_eq : p.parameterSteps = .ok p.paramCode := by
  have hparams : p.func.params.mapM p.operand = .ok (p.func.params.map p.place) :=
    mapM_eq_ok fun v hv => operand_eq h fun id hid =>
      Function.mem_definedValues.2 (.inl (mem_filterMap.2 ⟨v, hv, hid⟩))
  unfold parameterSteps
  rw [hparams]
  rfl

variable (wf : p.func.WellFormed)

include wf

theorem instructionStep_eq {i : Instruction} (hi : i ∈ (p.func.block b).instructions) :
    p.instructionStep i = .ok (p.stepOf i) := by
  obtain ⟨k, hk⟩ := mem_iff_getElem?.1 hi
  have hmem := Function.block_mem (Function.lt_length_of_getElem? hk)
  have huse : ∀ v ∈ i.operands, p.operand v = .ok (p.place v) := by
    intro v hv
    refine operand_eq h fun id hid => wf.defined _ hmem id ?_
    refine mem_append_left _ (mem_append_right _ ?_)
    exact mem_flatMap.2 ⟨i, hi, mem_filterMap.2 ⟨v, hv, hid⟩⟩
  have hdst : ∀ v, i.dst? = some v → p.operand v = .ok (p.place v) := by
    intro v hv
    refine operand_eq h fun id hid => Function.mem_definedValues.2 (.inr (.inr ⟨b, k, i, hk, ?_⟩))
    rw [Instruction.def?, hv]
    exact hid
  cases i with
  | binop dst op lhs rhs =>
    simp only [instructionStep, hdst dst rfl, huse lhs (by simp [Instruction.operands]),
      huse rhs (by simp [Instruction.operands])]
    rfl
  | call dst callee args =>
    have hargs : args.mapM p.operand = .ok (args.map p.place) := mapM_eq_ok huse
    cases dst with
    | none =>
      simp only [instructionStep, hargs]
      rfl
    | some d =>
      simp only [instructionStep, hargs, Option.mapM_some, hdst d rfl]
      rfl
  | load dst src =>
    simp only [instructionStep, hdst dst rfl, huse src (by simp [Instruction.operands])]
    rfl
  | store addr src =>
    simp only [instructionStep, huse addr (by simp [Instruction.operands]),
      huse src (by simp [Instruction.operands])]
    rfl

theorem edgeSteps_eq {pred succ : BlockId} :
    p.edgeSteps pred succ = .ok (p.edgeCode pred succ) := by
  have hmove : ∀ phi ∈ (p.func.block succ).phis, p.phiMove pred phi =
      .ok ((phi.source? pred).map fun src => (⟨p.place phi.dst, p.place src⟩ : Move)).toList := by
    intro phi hphi
    have hmem := Function.block_mem (Function.lt_length_of_mem_phis hphi)
    unfold phiMove
    cases hsrc : phi.source? pred with
    | none => rfl
    | some src =>
      have hdst : p.operand phi.dst = .ok (p.place phi.dst) := operand_eq h fun id hid =>
        Function.mem_definedValues.2 (.inr (.inl ⟨succ, mem_filterMap.2 ⟨phi, hphi, hid⟩⟩))
      have huse : p.operand src = .ok (p.place src) := operand_eq h fun id hid => by
        refine wf.defined _ hmem id (mem_append_left _ (mem_append_left _ ?_))
        exact mem_flatMap.2 ⟨phi, hphi, Function.mem_uses_of_source? hsrc hid⟩
      simp only [hdst, huse]
      rfl
  unfold edgeSteps
  rw [mapM_eq_ok hmove, edgeCode, edgeMoves, filterMap_eq_flatMap_toList, flatMap_def]
  rfl

theorem goSteps_eq (pred succ : BlockId) (next : Option BlockId) :
    p.goSteps pred succ next = .ok (p.goCode pred succ next) := by
  unfold goSteps
  rw [edgeSteps_eq h wf]
  rfl

theorem terminatorSteps_eq (hb : b < p.func.blocks.length) (next : Option BlockId) :
    p.terminatorSteps b next (p.func.block b).terminator =
      .ok (p.tailCode b next (p.func.block b).terminator) := by
  have huse : ∀ v, (∀ id, v.id? = some id → id ∈ (p.func.block b).terminator.uses) →
      p.operand v = .ok (p.place v) := fun v hv => operand_eq h fun id hid =>
    wf.defined _ (Function.block_mem hb) id (mem_append_right _ (hv id hid))
  revert huse
  cases (p.func.block b).terminator with
  | ret value =>
    intro huse
    cases value with
    | none => rfl
    | some v =>
      simp only [terminatorSteps, huse v fun id hid => by simp [Terminator.uses, hid]]
      rfl
  | branch succ =>
    intro _
    simp only [terminatorSteps, goSteps_eq h wf]
    rfl
  | condBranch cond onTrue onFalse =>
    intro huse
    simp only [terminatorSteps, huse cond fun id hid => by simp [Terminator.uses, hid], tailCode]
    cases p.place cond with
    | immediate value =>
      simp only [goSteps_eq h wf]
      rfl
    | register | stack =>
      simp only [goSteps_eq h wf, branchCode]
      by_cases heq : onTrue = onFalse
      · simp only [heq, if_true]
        rfl
      · simp only [heq, if_false]
        rfl

theorem layoutSteps_eq (layout : List BlockId)
    (hlayout : ∀ b ∈ layout, b < p.func.blocks.length) :
    p.layoutSteps layout = .ok (p.layoutCode layout, p.layoutStubs layout) := by
  induction layout with
  | nil => rfl
  | cons b bs ih =>
    obtain ⟨hb, hbs⟩ := forall_mem_cons.1 hlayout
    have hbody := mapM_eq_ok (l := (p.func.block b).instructions) fun i hi =>
      instructionStep_eq h wf hi
    simp only [layoutSteps, blockSteps, hbody, terminatorSteps_eq h wf hb, ih hbs]
    rfl

/-- The whole schedule. -/
def code (p : Placed) (layout : List BlockId) : List Step :=
  p.paramCode ++ (p.layoutCode layout).drop 1 ++ (p.layoutStubs layout).flatMap p.stubCode

theorem schedule_eq (hlayout : ∀ b ∈ layout, b < p.func.blocks.length) :
    p.schedule layout = .ok (p.code layout) := by
  have hstub : ∀ s ∈ p.layoutStubs layout, p.stubSteps s = .ok (p.stubCode s) := by
    intro s _
    unfold stubSteps
    rw [edgeSteps_eq h wf]
    rfl
  unfold schedule
  rw [parameterSteps_eq h, layoutSteps_eq h wf layout hlayout]
  change (do
    let edges ← (p.layoutStubs layout).mapM p.stubSteps
    return p.paramCode ++ (p.layoutCode layout).drop 1 ++ edges.flatten) = _
  rw [mapM_eq_ok hstub, code, flatMap_def]
  rfl

end Total

end Placed

/-! ### Labels -/

theorem eq_of_append_dot {a a' b b' : List Char} (ha : '.' ∉ a) (ha' : '.' ∉ a')
    (h : a ++ '.' :: b = a' ++ '.' :: b') : a = a' ∧ b = b' := by
  induction a generalizing a' with
  | nil =>
    cases a' with
    | nil =>
      injection h with _ h
      exact ⟨rfl, h⟩
    | cons c a' =>
      injection h with hc _
      exact absurd (hc ▸ mem_cons_self) ha'
  | cons c a ih =>
    cases a' with
    | nil =>
      injection h with hc _
      exact absurd (hc ▸ mem_cons_self) ha
    | cons c' a' =>
      injection h with hc h
      obtain ⟨rfl, rfl⟩ := ih (fun hm => ha (mem_cons_of_mem _ hm))
        (fun hm => ha' (mem_cons_of_mem _ hm)) h
      exact ⟨by rw [hc], rfl⟩

theorem dot_notMem_of_isSymbol (h : isSymbol name = true) : '.' ∉ name.toList := by
  intro hdot
  simp only [isSymbol, Bool.and_eq_true, all_eq_true] at h
  exact absurd (h.2 '.' hdot) (by decide)

namespace Function

variable {f : Function}

theorem edgeLabel_eq (f : Function) (pred succ : BlockId) :
    f.edgeLabel pred succ =
      ".L" ++ f.name ++ "." ++ (f.label pred ++ "." ++ f.label succ ++ ".edge") := by
  simp [edgeLabel, String.append_assoc]

variable (wf : f.WellFormed)

include wf

theorem WellFormed.dot_notMem_label (hb : b < f.blocks.length) : '.' ∉ (f.label b).toList :=
  dot_notMem_of_isSymbol (wf.symbols _ (block_mem hb))

theorem WellFormed.label_inj {b' : BlockId} (hb : b < f.blocks.length) (hb' : b' < f.blocks.length)
    (h : f.label b = f.label b') : b = b' := by
  have hget : ∀ {c} (hc : c < f.blocks.length), (f.blocks.map Block.label)[c]? = some (f.label c) :=
    fun hc => by simp [label, block, hc]
  refine (getElem?_inj (by simpa using hb) wf.labels).1 ?_
  rw [hget hb, hget hb', h]

theorem WellFormed.blockLabel_inj {b' : BlockId} (hb : b < f.blocks.length)
    (hb' : b' < f.blocks.length) (h : f.blockLabel b = f.blockLabel b') : b = b' :=
  wf.label_inj hb hb' ((String.append_right_inj _).1 h)

theorem WellFormed.edgeLabel_ne_blockLabel (pred succ : BlockId) (hb : b < f.blocks.length) :
    f.edgeLabel pred succ ≠ f.blockLabel b := by
  intro h
  rw [edgeLabel_eq] at h
  have hlabel := (String.append_right_inj _).1 h
  refine wf.dot_notMem_label hb ?_
  rw [← hlabel]
  simp [String.toList_append]

theorem WellFormed.edgeLabel_inj {p s p' s' : BlockId} (hp : p < f.blocks.length)
    (hs : s < f.blocks.length) (hp' : p' < f.blocks.length) (hs' : s' < f.blocks.length)
    (h : f.edgeLabel p s = f.edgeLabel p' s') : p = p' ∧ s = s' := by
  rw [edgeLabel_eq, edgeLabel_eq] at h
  have htail := (String.append_left_inj _).1 ((String.append_right_inj _).1 h)
  have hlist := congrArg String.toList htail
  simp only [String.toList_append, append_assoc] at hlist
  obtain ⟨hpred, hsucc⟩ := eq_of_append_dot (wf.dot_notMem_label hp) (wf.dot_notMem_label hp') hlist
  exact ⟨wf.label_inj hp hp' (String.toList_inj.1 hpred),
    wf.label_inj hs hs' (String.toList_inj.1 hsucc)⟩

end Function

/-! ### Finding labels -/

namespace Placed

variable {p : Placed}
variable {s : Stub}

theorem label_notMem_parallelMove (name : String) (ms : List Move) :
    Step.label name ∉ p.parallelMove ms := by
  simp [parallelMove]

theorem label_notMem_paramCode (name : String) : Step.label name ∉ p.paramCode := by
  simp [paramCode, label_notMem_parallelMove]

theorem label_notMem_goCode (name : String) (pred succ : BlockId) (next : Option BlockId) :
    Step.label name ∉ p.goCode pred succ next := by
  unfold goCode edgeCode
  split <;> simp [label_notMem_parallelMove]

theorem label_notMem_tailCode (name : String) (b : BlockId) (next : Option BlockId)
    (t : Terminator) : Step.label name ∉ (p.tailCode b next t).1 := by
  cases t with
  | ret value => cases value <;> simp [tailCode]
  | branch succ => exact label_notMem_goCode name b succ next
  | condBranch cond onTrue onFalse =>
    simp only [tailCode]
    split
    · exact label_notMem_goCode name b _ next
    · unfold branchCode
      split
      · exact label_notMem_goCode name b onTrue next
      · dsimp only
        split <;> simp

theorem label_notMem_blockCode (name : String) (b : BlockId) (next : Option BlockId) :
    Step.label name ∉ p.blockCode b next := by
  have hstep : ∀ i : Instruction, p.stepOf i ≠ .label name := by
    intro i
    cases i <;> simp [stepOf]
  simp [blockCode, hstep, label_notMem_tailCode]

theorem mem_of_label_mem_layoutCode (h : Step.label name ∈ p.layoutCode layout) :
    ∃ b ∈ layout, name = p.func.blockLabel b := by
  induction layout with
  | nil => cases h
  | cons b bs ih =>
    rw [layoutCode, cons_append, mem_cons, mem_append] at h
    rcases h with h | h | h
    · injection h with h
      exact ⟨b, mem_cons_self, h⟩
    · exact absurd h (label_notMem_blockCode _ _ _)
    · obtain ⟨c, hc, hname⟩ := ih h
      exact ⟨c, mem_cons_of_mem _ hc, hname⟩

theorem exists_layoutCode_append (pre post : List BlockId) :
    ∃ front, p.layoutCode (pre ++ post) = front ++ p.layoutCode post ∧
      ∀ name, Step.label name ∈ front → ∃ b ∈ pre, name = p.func.blockLabel b := by
  induction pre with
  | nil => exact ⟨[], rfl, by simp⟩
  | cons b pre ih =>
    obtain ⟨front, heq, hfront⟩ := ih
    refine ⟨.label (p.func.blockLabel b) :: p.blockCode b (pre ++ post).head? ++ front, ?_, ?_⟩
    · rw [cons_append, layoutCode, heq, append_assoc]
    · intro name hname
      rw [cons_append, mem_cons, mem_append] at hname
      rcases hname with h | h | h
      · injection h with h
        exact ⟨b, mem_cons_self, h⟩
      · exact absurd h (label_notMem_blockCode _ _ _)
      · obtain ⟨c, hc, hname⟩ := hfront name h
        exact ⟨c, mem_cons_of_mem _ hc, hname⟩

theorem stub_of_mem_tailCode {next : Option BlockId}
    (h : s ∈ (p.tailCode b next (p.func.block b).terminator).2) :
    s.pred = b ∧ s.succ ∈ (p.func.block b).succs := by
  have htarget : ∀ {succ}, s ∈ (p.edgeTarget b succ).2 → s = ⟨b, succ⟩ := by
    intro succ hs
    unfold edgeTarget at hs
    split at hs
    · cases hs
    · exact mem_singleton.1 hs
  unfold Block.succs
  revert h
  cases (p.func.block b).terminator with
  | ret value => cases value <;> simp [tailCode]
  | branch succ => simp [tailCode]
  | condBranch cond onTrue onFalse =>
    simp only [tailCode]
    split
    · simp
    · unfold branchCode
      split
      · simp
      · rename_i hne
        intro hs
        rcases mem_append.1 hs with hs | hs
        · rw [htarget hs]
          simp [Terminator.successors, hne]
        · rw [htarget hs]
          simp [Terminator.successors, hne]

theorem stub_of_mem_layoutStubs (h : s ∈ p.layoutStubs layout) :
    s.pred ∈ layout ∧ s.succ ∈ (p.func.block s.pred).succs := by
  induction layout with
  | nil => cases h
  | cons b bs ih =>
    rcases mem_append.1 h with h | h
    · obtain ⟨hpred, hsucc⟩ := stub_of_mem_tailCode h
      rw [hpred]
      exact ⟨mem_cons_self, hsucc⟩
    · obtain ⟨hpred, hsucc⟩ := ih h
      exact ⟨mem_cons_of_mem _ hpred, hsucc⟩

variable (p)

def StubAt (steps : List Step) (s : Stub) : Prop :=
  ∃ cont, findLabel (p.func.edgeLabel s.pred s.succ) steps = some (p.stubCode s ++ cont)

def BlockAt (steps : List Step) (b : BlockId) (code : List Step) : Prop :=
  ∃ next cont, code = p.blockCode b next ++ cont ∧
    (∀ n, next = some n → findLabel (p.func.blockLabel n) steps = some cont) ∧
    ∀ s ∈ (p.tailCode b next (p.func.block b).terminator).2, p.StubAt steps s

structure Laid (steps : List Step) : Prop where
  entry : ∃ code, steps = p.paramCode ++ code ∧ p.BlockAt steps 0 code
  block : ∀ b < p.func.blocks.length, b ≠ 0 → ∃ code,
    findLabel (p.func.blockLabel b) steps = some (.label (p.func.blockLabel b) :: code) ∧
      p.BlockAt steps b code

variable {p}

section

variable {rest : List BlockId}

theorem code_cons (b : BlockId) : p.code (b :: rest) =
    p.paramCode ++ (p.blockCode b rest.head? ++
      (p.layoutCode rest ++ (p.layoutStubs (b :: rest)).flatMap p.stubCode)) := by
  simp [code, layoutCode]

variable (wf : p.func.WellFormed)

include wf

end

end Placed

end SsaBackend
