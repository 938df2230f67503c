import SsaBackend.Proofs.Schedule.Code

/-!
# What scheduling returns

Scheduling fails if it meets a value without a place. Whatever it returns otherwise is the code of the
layout (`Placed.eq_code_of_schedule`), for any places and any layout: also if some values have no
place, blocks are left out, or blocks stand in the layout twice.
-/

namespace SsaBackend

open List

def Gives {ε α : Type} (x : Except ε α) (a : α) : Prop := ∀ r, x = .ok r → r = a

namespace Gives

variable {ε α β : Type}

theorem ok (a : α) : Gives (.ok a : Except ε α) a := fun _ h => (Except.ok.inj h).symm

theorem bind {x : Except ε α} {a : α} {k : α → Except ε β} {b : β} (h : Gives x a)
    (h' : Gives (k a) b) : Gives (x >>= k) b := by
  intro r hr
  cases x with
  | error e => cases hr
  | ok a' =>
    obtain rfl := h a' rfl
    exact h' r hr

theorem mapM {g : α → Except ε β} {g' : α → β} {l : List α} (h : ∀ x ∈ l, Gives (g x) (g' x)) :
    Gives (l.mapM g) (l.map g') := by
  induction l with
  | nil => exact .ok []
  | cons x l ih =>
    obtain ⟨hx, hl⟩ := forall_mem_cons.1 h
    rw [mapM_cons]
    exact hx.bind ((ih hl).bind (.ok _))

end Gives

section WentThrough

variable {ε α β : Type}

theorem exists_of_bind_eq_ok {x : Except ε α} {k : α → Except ε β} {b : β} (h : x >>= k = .ok b) :
    ∃ a, x = .ok a ∧ k a = .ok b := by
  cases x with
  | error e => cases h
  | ok a => exact ⟨a, rfl, h⟩

theorem exists_of_mapM_eq_ok {g : α → Except ε β} {l : List α} {bs : List β}
    (h : l.mapM g = .ok bs) {x : α} (hx : x ∈ l) : ∃ b, g x = .ok b := by
  induction l generalizing bs with
  | nil => cases hx
  | cons y l ih =>
    rw [mapM_cons] at h
    obtain ⟨b, hb, h⟩ := exists_of_bind_eq_ok h
    obtain ⟨bs', hbs, -⟩ := exists_of_bind_eq_ok h
    rcases mem_cons.1 hx with rfl | hx
    · exact ⟨b, hb⟩
    · exact ih hbs hx

end WentThrough

namespace Placed

variable {p : Placed}
variable {layout : List BlockId}

theorem gives_operand (v : Value) : Gives (p.operand v) (p.place v) := by
  intro o ho
  cases v with
  | constant literal ty => exact (Except.ok.inj ho).symm
  | parameter id _ _ | temporary id _ =>
    simp only [operand] at ho
    split at ho
    · next l hl =>
      cases ho
      simp [place, hl]
    · cases ho

theorem gives_operands (vs : List Value) : Gives (vs.mapM p.operand) (vs.map p.place) :=
  .mapM fun v _ => gives_operand v

theorem gives_parameterSteps : Gives p.parameterSteps p.paramCode :=
  (gives_operands p.func.params).bind (.ok _)

theorem gives_instructionStep (i : Instruction) : Gives (p.instructionStep i) (p.stepOf i) := by
  cases i with
  | binop dst op lhs rhs =>
    exact (gives_operand dst).bind ((gives_operand lhs).bind ((gives_operand rhs).bind (.ok _)))
  | call dst callee args =>
    have hdst : Gives (dst.mapM p.operand) (dst.map p.place) := by
      cases dst with
      | none => exact .ok none
      | some dst =>
        rw [Option.mapM_some, Option.map_some]
        intro r hr
        cases ho : p.operand dst with
        | error e =>
          rw [ho] at hr
          cases hr
        | ok o =>
          rw [ho] at hr
          rw [← gives_operand dst o ho]
          exact (Except.ok.inj hr).symm
    exact (gives_operands args).bind (hdst.bind (.ok _))
  | load dst src => exact (gives_operand dst).bind ((gives_operand src).bind (.ok _))
  | store addr src => exact (gives_operand addr).bind ((gives_operand src).bind (.ok _))

theorem gives_edgeSteps (pred succ : BlockId) :
    Gives (p.edgeSteps pred succ) (p.edgeCode pred succ) := by
  have hmove : ∀ phi, Gives (p.phiMove pred phi)
      ((phi.source? pred).map fun src => (⟨p.place phi.dst, p.place src⟩ : Move)).toList := by
    intro phi
    unfold phiMove
    cases phi.source? pred with
    | none => exact .ok []
    | some src => exact (gives_operand phi.dst).bind ((gives_operand src).bind (.ok _))
  have hmoves := Gives.mapM (l := (p.func.block succ).phis) fun phi _ => hmove phi
  refine hmoves.bind ?_
  have hflat : ((p.func.block succ).phis.map fun phi => ((phi.source? pred).map fun src =>
      (⟨p.place phi.dst, p.place src⟩ : Move)).toList).flatten = p.edgeMoves pred succ := by
    rw [edgeMoves, filterMap_eq_flatMap_toList, List.flatMap]
  rw [hflat]
  exact .ok _

theorem gives_goSteps (pred succ : BlockId) (next : Option BlockId) :
    Gives (p.goSteps pred succ next) (p.goCode pred succ next) :=
  (gives_edgeSteps pred succ).bind (.ok _)

theorem gives_terminatorSteps (b : BlockId) (next : Option BlockId) (t : Terminator) :
    Gives (p.terminatorSteps b next t) (p.tailCode b next t) := by
  cases t with
  | ret value =>
    cases value with
    | none => exact .ok _
    | some value => exact (gives_operand value).bind (.ok _)
  | branch succ => exact (gives_goSteps b succ next).bind (.ok _)
  | condBranch cond onTrue onFalse =>
    refine (gives_operand cond).bind ?_
    simp only [tailCode]
    cases p.place cond with
    | immediate value => exact (gives_goSteps b _ next).bind (.ok _)
    | register | stack =>
      simp only [branchCode]
      by_cases heq : onTrue = onFalse
      · simp only [heq, if_true]
        exact (gives_goSteps b onFalse next).bind (.ok _)
      · simp only [heq, if_false]
        exact .ok _

theorem gives_layoutSteps (layout : List BlockId) :
    Gives (p.layoutSteps layout) (p.layoutCode layout, p.layoutStubs layout) := by
  induction layout with
  | nil => exact .ok _
  | cons b bs ih =>
    have hblock : Gives (p.blockSteps b bs.head?)
        (p.blockCode b bs.head?, (p.tailCode b bs.head? (p.func.block b).terminator).2) :=
      (Gives.mapM fun i _ => gives_instructionStep i).bind
        ((gives_terminatorSteps b bs.head? _).bind (.ok _))
    exact hblock.bind (ih.bind (.ok _))

theorem eq_code_of_schedule {steps : List Step} (h : p.schedule layout = .ok steps) :
    steps = p.code layout := by
  have hstub : ∀ s, Gives (p.stubSteps s) (p.stubCode s) := fun s =>
    (gives_edgeSteps s.pred s.succ).bind (.ok _)
  have hschedule : Gives (p.schedule layout) (p.code layout) :=
    gives_parameterSteps.bind ((gives_layoutSteps layout).bind
      ((Gives.mapM fun s _ => hstub s).bind (.ok _)))
  exact hschedule steps h

/-! ### What went through -/

theorem instructionStep_of_layoutSteps {result : List Step × List Stub}
    (h : p.layoutSteps layout = .ok result) {b : BlockId} (hb : b ∈ layout) {i : Instruction}
    (hi : i ∈ (p.func.block b).instructions) : p.instructionStep i = .ok (p.stepOf i) := by
  induction layout generalizing result with
  | nil => cases hb
  | cons b' bs ih =>
    rw [layoutSteps] at h
    obtain ⟨block, hblock, h⟩ := exists_of_bind_eq_ok h
    obtain ⟨more, hmore, -⟩ := exists_of_bind_eq_ok h
    rcases mem_cons.1 hb with rfl | hb
    · obtain ⟨body, hbody, -⟩ := exists_of_bind_eq_ok hblock
      obtain ⟨step, hstep⟩ := exists_of_mapM_eq_ok hbody hi
      rw [hstep, gives_instructionStep i step hstep]
    · exact ih hmore hb

theorem instructionStep_of_schedule {steps : List Step} (h : p.schedule layout = .ok steps)
    {b : BlockId} (hb : b ∈ layout) {i : Instruction} (hi : i ∈ (p.func.block b).instructions) :
    p.instructionStep i = .ok (p.stepOf i) ∧ p.stepOf i ∈ steps := by
  constructor
  · obtain ⟨params, -, hrest⟩ := exists_of_bind_eq_ok h
    obtain ⟨blocks, hblocks, -⟩ := exists_of_bind_eq_ok hrest
    exact instructionStep_of_layoutSteps hblocks hb hi
  · have hblock : ∀ next, p.stepOf i ∈ p.blockCode b next := fun next =>
      mem_append_left _ (mem_map_of_mem hi)
    have hlaid : ∀ layout : List BlockId, b ∈ layout → p.stepOf i ∈ p.layoutCode layout := by
      intro layout hb
      obtain ⟨pre, post, rfl⟩ := append_of_mem hb
      obtain ⟨front, heq, -⟩ := exists_layoutCode_append (p := p) pre (b :: post)
      rw [heq]
      exact mem_append_right _ (mem_append_left _ (mem_cons_of_mem _ (hblock _)))
    rw [eq_code_of_schedule h]
    cases layout with
    | nil => cases hb
    | cons first rest =>
      rw [code_cons]
      refine mem_append_right _ ?_
      rcases mem_cons.1 hb with rfl | hb
      · exact mem_append_left _ (hblock _)
      · exact mem_append_right _ (mem_append_left _ (hlaid rest hb))

end Placed

end SsaBackend
