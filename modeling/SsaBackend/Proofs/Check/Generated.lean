import SsaBackend.Proofs.Peephole.Soundness

/-!
# Checking generated code

A check reads generated code back line by line (`Arch.check_assemble`). Its tracker starts at the name
of the function, and stays in the function from there on: labels of blocks and edges are local.
-/

namespace SsaBackend

open Asm Check Listing

variable {name : String}

/-! ### Labels -/

theorem Function.IsLabel.isLocal {f : Function} (h : f.IsLabel name) :
    (Text.afterText? ".L" name).isSome := by
  unfold Text.afterText?
  cases h with
  | block b => simp [blockLabel, String.toList_append]
  | edge pred succ => simp [edgeLabel, String.toList_append]

theorem Tracker.passLabel_of_isSymbol (h : isSymbol name = true) (t : Tracker) :
    t.passLabel name = .start := by
  have hdot := dot_notMem_of_isSymbol h
  have hlocal : (Text.afterText? ".L" name).isSome = false := by
    unfold Text.afterText?
    cases hname : name.toList with
    | nil => rfl
    | cons c cs =>
      have hne : ¬ '.' = c := fun heq => hdot (hname ▸ heq ▸ List.mem_cons_self)
      simp [List.isPrefixOf, hne]
  rw [passLabel, hlocal]
  rfl

theorem Check.Quiet.head (d : Dialect) (bad : Finding → Bool) (h : isSymbol name = true) :
    Quiet d bad (fun _ => True) [.directive ".text", .directive (".globl " ++ name), .label name]
      (· = .start) :=
  have hdirective : ∀ text, Quiet d bad (fun _ => True) [.directive text] fun _ => True := fun text =>
    .directive text fun _ ht => ht
  (hdirective ".text").append ((hdirective _).append
    (.label fun t _ => t.passLabel_of_isSymbol h))

namespace Arch

/-! ### What is generated -/

theorem exists_allocate (arch : Arch) (strategy : Strategy) (f : Function)
    (profile : Option Profile) : ∃ alloc, strategy.allocate f arch.target profile = .ok alloc := by
  have hpool : arch.target.allocatable.isEmpty = false := by cases arch <;> rfl
  cases strategy with
  | linearScan =>
    simp only [Strategy.allocate, hpool, Bool.false_eq_true, if_false]
    exact ⟨_, rfl⟩
  | graphColoring => exact ⟨_, rfl⟩

section Generated

variable {arch : Arch} {f : Function} (wf : f.WellFormed) (hcallees : f.CallsSymbols)
  {alloc : Allocation} (hpool : ∀ v r, alloc.location? v = some (.register r) → r ∈ arch.target.allocatable)

include wf hcallees hpool

theorem check_assemble (layout : List BlockId) (o : Options) :
    arch.check (arch.textOf f alloc layout o).render =
      listing arch.dialect (items arch.dialect 1 (arch.textOf f alloc layout o)) := by
  refine congrArg _ (read_render arch.isMark_commentMark fun line hline => ?_)
  refine (shapedLine_assemble (fun r hr => Frame.mem_calleeSaved hr) o
    (isReference_of_isSymbol wf.isSymbol_name) (fun s hs => ?_) line hline).written
  exact Placed.proper_code (p := ⟨f, alloc, arch.target⟩) hpool wf hcallees hs

theorem forall_mem_check {bad : Finding → Bool} (hbad : ∀ x, bad x = true → x.isFrame = true)
    {layout : List BlockId} {o : Options} {Q : Tracker → Prop}
    (hquiet : Quiet arch.dialect bad (· = .start)
      ((arch.isa.prologue o (arch.frame f alloc)).map .instruction ++
        (Placed.code ⟨f, alloc, arch.target⟩ layout).flatMap
          (arch.isa.stepLines o (arch.frame f alloc))) Q) :
    ∀ x ∈ arch.check (arch.textOf f alloc layout o).render, bad x.cause = false := by
  intro x hx
  rw [check_assemble wf hcallees hpool] at hx
  by_contra hfound
  rw [Bool.not_eq_false] at hfound
  have hwhole := (Quiet.head arch.dialect bad wf.isSymbol_name).append hquiet
  rw [← List.append_assoc] at hwhole
  have hfollow := mem_follow_of_isFrame hx (hbad _ hfound)
  rw [(hwhole .start 1 trivial).1 x hfollow] at hfound
  cases hfound

end Generated

end Arch

end SsaBackend
