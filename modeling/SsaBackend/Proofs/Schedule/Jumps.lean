import SsaBackend.Proofs.Schedule.Names

/-!
# Where a schedule goes

Jumps and branches of a schedule go to labels that stand in it (`Placed.target_mem_labels_code`), and
never to the entry, which has none (`Placed.entry_notMem_labels_code`). Control does not fall off the
end of the blocks, nor into the code of an edge: what stands before is a jump or a return
(`Placed.exists_exit_layoutCode`).
-/

namespace SsaBackend

open List

def Step.target? : Step → Option String
  | jump target => some target
  | branchIf _ target => some target
  | _ => none

def Step.isExit : Step → Bool
  | jump _ => true
  | epilogue => true
  | _ => false

namespace Placed

variable {p : Placed}
variable {s : Step} {l : String} {next : Option BlockId}

/-! ### Targets -/

theorem target?_of_mem_parallelMove {ms : List Move} (hs : s ∈ p.parallelMove ms) :
    s.target? = none := by
  obtain ⟨m, -, rfl⟩ := mem_map.1 hs
  rfl

theorem target?_of_mem_paramCode (hs : s ∈ p.paramCode) : s.target? = none := by
  rcases mem_append.1 hs with hs | hs
  · obtain ⟨d, -, rfl⟩ := mem_map.1 hs
    rfl
  · exact target?_of_mem_parallelMove hs

theorem target?_stepOf (i : Instruction) : (p.stepOf i).target? = none := by cases i <;> rfl

theorem target_of_mem_goCode {pred succ : BlockId} (hs : s ∈ p.goCode pred succ next)
    (hl : s.target? = some l) : l = p.func.blockLabel succ := by
  rcases mem_append.1 hs with hs | hs
  · cases (target?_of_mem_parallelMove hs).symm.trans hl
  · split at hs
    · cases hs
    · rw [mem_singleton.1 hs] at hl
      exact (Option.some.inj hl).symm

theorem edgeTarget_cases (b succ : BlockId) :
    (p.edgeTarget b succ).1 = p.func.blockLabel succ ∧ (p.edgeTarget b succ).2 = [] ∨
      (p.edgeTarget b succ).1 = p.stubLabel ⟨b, succ⟩ ∧ (p.edgeTarget b succ).2 = [⟨b, succ⟩] := by
  unfold edgeTarget
  split
  · exact .inl ⟨rfl, rfl⟩
  · exact .inr ⟨rfl, rfl⟩

theorem target_of_mem_tailCode {b : BlockId}
    (hs : s ∈ (p.tailCode b next (p.func.block b).terminator).1) (hl : s.target? = some l) :
    (∃ succ ∈ (p.func.block b).succs, l = p.func.blockLabel succ) ∨
      ∃ stub ∈ (p.tailCode b next (p.func.block b).terminator).2, l = p.stubLabel stub := by
  unfold Block.succs
  revert hs
  cases (p.func.block b).terminator with
  | ret value =>
    intro hs
    cases value with
    | none =>
      rw [mem_singleton.1 hs] at hl
      cases hl
    | some v =>
      simp only [tailCode, mem_cons, not_mem_nil, or_false] at hs
      rcases hs with rfl | rfl <;> cases hl
  | branch succ =>
    intro hs
    exact .inl ⟨succ, by simp [Terminator.successors], target_of_mem_goCode hs hl⟩
  | condBranch cond onTrue onFalse =>
    have hsuccs : onTrue ∈ (Terminator.condBranch cond onTrue onFalse).successors ∧
        onFalse ∈ (Terminator.condBranch cond onTrue onFalse).successors := by
      simp only [Terminator.successors]
      split <;> simp_all
    simp only [tailCode]
    split
    · -- a branch on a literal takes one of its edges
      intro hs
      rw [target_of_mem_goCode hs hl]
      refine .inl ⟨_, ?_, rfl⟩
      split
      · exact hsuccs.2
      · exact hsuccs.1
    · unfold branchCode
      split
      · exact fun hs => .inl ⟨onTrue, hsuccs.1, target_of_mem_goCode hs hl⟩
      · have htarget : ∀ succ ∈ [onTrue, onFalse], l = (p.edgeTarget b succ).1 →
            (∃ succ ∈ (Terminator.condBranch cond onTrue onFalse).successors,
              l = p.func.blockLabel succ) ∨
            ∃ stub ∈ (p.edgeTarget b onTrue).2 ++ (p.edgeTarget b onFalse).2,
              l = p.stubLabel stub := by
          rintro succ hsucc rfl
          have hmem : succ ∈ (Terminator.condBranch cond onTrue onFalse).successors := by
            rcases mem_pair.1 hsucc with rfl | rfl
            · exact hsuccs.1
            · exact hsuccs.2
          -- an arm goes to its block, or to the stub with the moves of the edge
          rcases edgeTarget_cases (p := p) b succ with ⟨h, -⟩ | ⟨h, hstub⟩
          · exact .inl ⟨succ, hmem, h⟩
          · refine .inr ⟨⟨b, succ⟩, ?_, h⟩
            rcases mem_pair.1 hsucc with rfl | rfl <;> simp [hstub]
        intro hs
        rcases mem_cons.1 hs with rfl | hs
        · exact htarget onTrue (by simp) (Option.some.inj hl).symm
        · split at hs
          · cases hs
          · rw [mem_singleton.1 hs] at hl
            exact htarget onFalse (by simp) (Option.some.inj hl).symm

theorem target_of_mem_layoutCode {layout : List BlockId} (hs : s ∈ p.layoutCode layout)
    (hl : s.target? = some l) :
    (∃ b ∈ layout, ∃ succ ∈ (p.func.block b).succs, l = p.func.blockLabel succ) ∨
      ∃ stub ∈ p.layoutStubs layout, l = p.stubLabel stub := by
  induction layout with
  | nil => cases hs
  | cons b bs ih =>
    rw [layoutCode, cons_append, mem_cons, mem_append] at hs
    rcases hs with rfl | hs | hs
    · cases hl
    · rcases mem_append.1 hs with hs | hs
      · obtain ⟨i, -, rfl⟩ := mem_map.1 hs
        cases (target?_stepOf i).symm.trans hl
      · rcases target_of_mem_tailCode hs hl with ⟨succ, hsucc, rfl⟩ | ⟨stub, hstub, rfl⟩
        · exact .inl ⟨b, mem_cons_self, succ, hsucc, rfl⟩
        · exact .inr ⟨stub, mem_append_left _ hstub, rfl⟩
    · rcases ih hs with ⟨c, hc, hsucc⟩ | ⟨stub, hstub, rfl⟩
      · exact .inl ⟨c, mem_cons_of_mem _ hc, hsucc⟩
      · exact .inr ⟨stub, mem_append_right _ hstub, rfl⟩

section Code

variable {rest : List BlockId}

theorem target_of_mem_code (hs : s ∈ p.code (0 :: rest)) (hl : s.target? = some l) :
    (∃ b ∈ 0 :: rest, ∃ succ ∈ (p.func.block b).succs, l = p.func.blockLabel succ) ∨
      ∃ stub ∈ p.layoutStubs (0 :: rest), l = p.stubLabel stub := by
  rcases mem_append.1 hs with hs | hs
  · rcases mem_append.1 hs with hs | hs
    · cases (target?_of_mem_paramCode hs).symm.trans hl
    · exact target_of_mem_layoutCode (mem_of_mem_drop hs) hl
  · -- the code of an edge jumps to the end of that edge
    obtain ⟨stub, hstub, hs⟩ := mem_flatMap.1 hs
    obtain ⟨hpred, hsucc⟩ := stub_of_mem_layoutStubs hstub
    rw [stubCode, cons_append, mem_cons, mem_append, mem_singleton] at hs
    rcases hs with rfl | hs | rfl
    · cases hl
    · cases (target?_of_mem_parallelMove hs).symm.trans hl
    · exact .inl ⟨stub.pred, hpred, stub.succ, hsucc, (Option.some.inj hl).symm⟩

variable (wf : p.func.WellFormed) (hperm : (0 :: rest).Perm p.func.blockIds)

include wf hperm

theorem target_mem_labels_code (hs : s ∈ p.code (0 :: rest)) (hl : s.target? = some l) :
    l ∈ (p.code (0 :: rest)).filterMap Step.label? := by
  rw [labels_code, mem_append]
  rcases target_of_mem_code hs hl with ⟨b, hb, succ, hsucc, rfl⟩ | ⟨stub, hstub, rfl⟩
  · -- no edge leads to the entry
    have hb' : b < p.func.blocks.length := mem_range.1 (hperm.mem_iff.1 hb)
    have hne : succ ≠ 0 := by
      rintro rfl
      exact wf.entry _ (Function.block_mem hb') hsucc
    have hmem : succ ∈ 0 :: rest := hperm.mem_iff.2 (mem_range.2 (wf.succ_lt hsucc))
    exact .inl (mem_map_of_mem ((mem_cons.1 hmem).resolve_left hne))
  · exact .inr (mem_map_of_mem hstub)

theorem entry_notMem_labels_code :
    p.func.blockLabel 0 ∉ (p.code (0 :: rest)).filterMap Step.label? := by
  have hlt : ∀ b ∈ 0 :: rest, b < p.func.blocks.length := fun b hb =>
    mem_range.1 (hperm.mem_iff.1 hb)
  have hnodup : (0 :: rest).Nodup := hperm.nodup_iff.2 nodup_range
  rw [labels_code, mem_append, mem_map, mem_map]
  rintro (⟨b, hb, heq⟩ | ⟨stub, -, heq⟩)
  · have hb0 := wf.blockLabel_inj (hlt b (mem_cons_of_mem _ hb)) wf.hasEntry heq
    exact (nodup_cons.1 hnodup).1 (hb0 ▸ hb)
  · exact wf.edgeLabel_ne_blockLabel stub.pred stub.succ wf.hasEntry heq

end Code

/-! ### Exits -/

theorem getLast?_goCode {pred succ : BlockId} (h : next ≠ some succ) :
    (p.goCode pred succ next).getLast? = some (.jump (p.func.blockLabel succ)) := by
  simp [goCode, h]

theorem exists_exit_tailCode (b : BlockId) (t : Terminator) :
    ∃ s, (p.tailCode b none t).1.getLast? = some s ∧ s.isExit = true := by
  have hgo : ∀ succ, ∃ s, (p.goCode b succ none).getLast? = some s ∧ s.isExit = true :=
    fun succ => ⟨_, getLast?_goCode (by simp), rfl⟩
  cases t with
  | ret value =>
    cases value with
    | none => exact ⟨.epilogue, rfl, rfl⟩
    | some v => exact ⟨.epilogue, rfl, rfl⟩
  | branch succ => exact hgo succ
  | condBranch cond onTrue onFalse =>
    simp only [tailCode]
    split
    · exact hgo _
    · unfold branchCode
      split
      · exact hgo onTrue
      · exact ⟨.jump (p.edgeTarget b onFalse).1, by simp, rfl⟩

theorem exists_exit_layoutCode {layout : List BlockId} (h : layout ≠ []) :
    ∃ s, ((p.layoutCode layout).drop 1).getLast? = some s ∧ s.isExit = true := by
  have hbehind : ∀ {front back : List Step}, (∃ s, back.getLast? = some s ∧ s.isExit = true) →
      ∃ s, (front ++ back).getLast? = some s ∧ s.isExit = true := by
    rintro front back ⟨s, hs, hexit⟩
    exact ⟨s, by simp [getLast?_append, hs], hexit⟩
  induction layout with
  | nil => contradiction
  | cons b bs ih =>
    cases bs with
    | nil =>
      have heq : (p.layoutCode [b]).drop 1 = p.blockCode b none := by simp [layoutCode]
      rw [heq]
      exact hbehind (exists_exit_tailCode b _)
    | cons c cs =>
      have heq : (p.layoutCode (b :: c :: cs)).drop 1 =
          p.blockCode b (some c) ++ .label (p.func.blockLabel c) ::
            (p.layoutCode (c :: cs)).drop 1 := by
        simp [layoutCode]
      rw [heq, ← singleton_append]
      exact hbehind (hbehind (ih (by simp)))

def stubBody (p : Placed) (s : Stub) : List Step :=
  p.edgeCode s.pred s.succ ++ [.jump (p.func.blockLabel s.succ)]

theorem stubCode_eq (s : Stub) : p.stubCode s = .label (p.stubLabel s) :: p.stubBody s := rfl

theorem getLast?_stubBody (s : Stub) :
    (p.stubBody s).getLast? = some (.jump (p.func.blockLabel s.succ)) := getLast?_concat

theorem label_notMem_stubBody (name : String) (s : Stub) : Step.label name ∉ p.stubBody s := by
  simp [stubBody, edgeCode, label_notMem_parallelMove]

theorem exists_exit_blocks (b : BlockId) (rest : List BlockId) :
    ∃ s, (p.paramCode ++ (p.layoutCode (b :: rest)).drop 1).getLast? = some s ∧
      s.isExit = true := by
  obtain ⟨s, hs, hexit⟩ := exists_exit_layoutCode (p := p) (cons_ne_nil b rest)
  exact ⟨s, by rw [getLast?_append, hs]; rfl, hexit⟩

theorem exists_exit_code (b : BlockId) (rest : List BlockId) :
    ∃ s, (p.code (b :: rest)).getLast? = some s ∧ s.isExit = true := by
  rw [code]
  rcases eq_nil_or_concat (p.layoutStubs (b :: rest)) with hstubs | ⟨stubs, stub, hstubs⟩
  · rw [hstubs, flatMap_nil, append_nil]
    exact exists_exit_blocks b rest
  · refine ⟨.jump (p.func.blockLabel stub.succ), ?_, rfl⟩
    rw [hstubs, concat_eq_append, flatMap_append, flatMap_singleton, stubCode_eq,
      getLast?_append, getLast?_append, getLast?_cons, getLast?_stubBody]
    rfl

end Placed

end SsaBackend
