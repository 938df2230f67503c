import SsaBackend.Proofs.Amd64.Motion
import SsaBackend.Proofs.Check.Generated

/-!
# Where a check doubts the depth of the stack

On amd64 a check takes pushes and pops right behind the prologue for a part of it. So it doubts code
that is balanced, if the function returns from two blocks or more (`Arch.isStack_check_iff`).
-/

namespace SsaBackend

open Asm Check List

/-! ### Returns -/

/-- Whether a terminator returns. -/
def Terminator.returns : Terminator → Bool
  | ret _ => true
  | branch _ => false
  | condBranch _ _ _ => false

namespace Placed

variable {p : Placed}

theorem epilogue_notMem_parallelMove (ms : List Move) : Step.epilogue ∉ p.parallelMove ms := by
  simp [parallelMove]

theorem epilogue_notMem_goCode (pred succ : BlockId) (next : Option BlockId) :
    Step.epilogue ∉ p.goCode pred succ next := by
  unfold goCode edgeCode
  split <;> simp [epilogue_notMem_parallelMove]

theorem count_epilogue_tailCode (b : BlockId) (next : Option BlockId) (t : Terminator) :
    (p.tailCode b next t).1.count .epilogue = if t.returns then 1 else 0 := by
  have hgo : ∀ succ, (p.goCode b succ next).count .epilogue = 0 := fun succ =>
    count_eq_zero.2 (epilogue_notMem_goCode b succ next)
  cases t with
  | ret value => cases value <;> rfl
  | branch succ => exact hgo succ
  | condBranch cond onTrue onFalse =>
    simp only [tailCode]
    split
    · exact hgo _
    · unfold branchCode
      split
      · exact hgo onTrue
      · dsimp only
        split <;> rfl

theorem count_epilogue_blockCode (b : BlockId) (next : Option BlockId) :
    (p.blockCode b next).count .epilogue = if (p.func.block b).terminator.returns then 1 else 0 := by
  have hstep : Step.epilogue ∉ (p.func.block b).instructions.map p.stepOf := by
    intro hmem
    obtain ⟨i, -, hi⟩ := mem_map.1 hmem
    cases i <;> cases hi
  rw [blockCode, count_append, count_eq_zero.2 hstep, Nat.zero_add, count_epilogue_tailCode]

theorem count_epilogue_layoutCode (layout : List BlockId) :
    (p.layoutCode layout).count .epilogue =
      layout.countP fun b => (p.func.block b).terminator.returns := by
  induction layout with
  | nil => rfl
  | cons b bs ih =>
    have hne : (Step.label (p.func.blockLabel b) == .epilogue) = false := rfl
    rw [layoutCode, cons_append, count_cons, hne, count_append,
      count_epilogue_blockCode, ih, countP_cons]
    simp
    omega

theorem count_epilogue_code {b : BlockId} {rest : List BlockId}
    (hperm : (b :: rest).Perm p.func.blockIds) :
    (p.code (b :: rest)).count .epilogue = p.func.blocks.countP fun b => b.terminator.returns := by
  have hparams : Step.epilogue ∉ p.paramCode := by simp [paramCode, epilogue_notMem_parallelMove]
  have hstubs : Step.epilogue ∉ (p.layoutStubs (b :: rest)).flatMap p.stubCode := by
    intro hmem
    obtain ⟨s, -, hs⟩ := mem_flatMap.1 hmem
    simp [stubCode, edgeCode, epilogue_notMem_parallelMove] at hs
  have hblocks : p.func.blocks = p.func.blockIds.map p.func.block := by
    refine ext_getElem (by simp [Function.blockIds]) fun k hk hk' => ?_
    simp [Function.blockIds, Function.block, hk]
  rw [code_cons, count_append, count_append, count_append, count_epilogue_blockCode,
    count_epilogue_layoutCode, count_eq_zero.2 hparams, count_eq_zero.2 hstubs, hblocks,
    countP_map, ← hperm.countP_eq, countP_cons, Nat.zero_add, Nat.add_zero, Nat.add_comm]
  rfl

end Placed

namespace Placed

theorem exists_code_eq {p : Placed} (hparams : p.func.params = []) {b : BlockId} {i : Instruction}
    {is : List Instruction} (hentry : (p.func.block b).instructions = i :: is) (rest : List BlockId) :
    ∃ more, p.code (b :: rest) = p.stepOf i :: more := by
  have hnone : p.paramCode = [] := by
    simp [paramCode, paramMoves, hparams, parallelMove, Move.sequentialize, Move.order]
  rw [code_cons, hnone, blockCode, hentry]
  exact ⟨_, rfl⟩

end Placed

/-! ### Findings -/

namespace Check

variable {d : Dialect}

theorem any_isStack_listing (items : List Item) :
    (listing d items).any (fun x => x.cause.isStack) =
      (follow d .start items).any (fun x => x.cause.isStack) := by
  have hframe : ∀ {x : Diagnostic Finding}, x.cause.isStack = true → x.cause.isFrame = true := by
    intro x hx
    by_contra hframe
    rw [Finding.isStack_eq_false (Bool.eq_false_iff.2 hframe)] at hx
    cases hx
  rw [Bool.eq_iff_iff, any_eq_true, any_eq_true]
  refine ⟨fun ⟨x, hx, hstack⟩ => ⟨x, mem_follow_of_isFrame hx (hframe hstack), hstack⟩, ?_⟩
  exact fun ⟨x, hx, hstack⟩ => ⟨x, mem_append_left _ (mem_append_left _ hx), hstack⟩

theorem follow_head {name : String} (h : isSymbol name = true) (t : Tracker) (n : Nat) (a : Assembly) :
    follow d t (items d n ([.directive ".text", .directive (".globl " ++ name), .label name] ++ a)) =
      follow d .start (items d (n + 3) a) := by
  rw [items_append, follow_append]
  show [] ++ follow d (t.passLabel name) (items d (n + 3) a) = _
  rw [t.passLabel_of_isSymbol h]
  rfl

end Check

namespace Arch

theorem any_isStack_check {f : Function} (wf : f.WellFormed) (hcallees : f.CallsSymbols)
    {alloc : Allocation}
    (hpool : ∀ v r, alloc.location? v = some (.register r) → r ∈ amd64.target.allocatable)
    (hcheck : f.unsupported amd64.target = []) {first : BlockId} {rest : List BlockId}
    (hperm : (first :: rest).Perm f.blockIds) (o : Options) :
    (amd64.check (amd64.textOf f alloc (first :: rest) o).render).any (fun x => x.cause.isStack) =
      (decide (Amd64.restSize (amd64.frame f alloc) < 2 ^ 63) &&
        (((Placed.code ⟨f, alloc, amd64.target⟩ (first :: rest)).flatMap
            (amd64.isa.stepLines o (amd64.frame f alloc))).head?.any
            (fun line => (amd64.dialect.motion line).isMove) &&
          decide (2 ≤ f.blocks.countP fun b => b.terminator.returns))) := by
  rw [check_assemble wf hcallees hpool, any_isStack_listing, textOf, Isa.assemble, append_assoc,
    follow_head wf.isSymbol_name, ← Placed.count_epilogue_code (p := ⟨f, alloc, amd64.target⟩) hperm]
  refine Amd64.any_isStack_follow (fun r hr => Frame.mem_calleeSaved hr) (fun s hs => ?_)
    (fun name hs => ?_) (fun s hs => ?_) o 4
  · exact Placed.proper_code (p := ⟨f, alloc, amd64.target⟩) hpool wf hcallees hs
  · exact (Placed.emits_of_mem_code hs).isLabel.isLocal
  · exact Placed.length_args_le (p := ⟨f, alloc, amd64.target⟩) hcheck (Placed.emits_of_mem_code hs)

/-- A check of what is generated for a function on amd64 finds a stack underflow or imbalance exactly
if the line behind the prologue moves the stack pointer and two blocks or more return. Frames that
are too large for a literal are not followed. -/
theorem isStack_check_iff {f : Function} (hf : f.IsBuilt) (hcallees : f.CallsSymbols)
    (hcheck : f.unsupported amd64.target = []) (strategy : Strategy) (profile : Option Profile)
    {layout : List BlockId} (hperm : layout.Perm f.blockIds) (hentry : layout.head? = some 0)
    (o : Options) :
    ∃ alloc a frame body, strategy.allocate f amd64.target profile = .ok alloc ∧
      amd64.isa.generate f alloc layout o = .ok (a, frame) ∧
      a = amd64.isa.assemble o frame f.name [] ++ body ∧
      ((∃ x ∈ amd64.check a.render, x.cause.isStack = true) ↔
        Amd64.restSize frame < 2 ^ 63 ∧
          (∃ line, body.head? = some line ∧ (amd64.dialect.motion line).isMove = true) ∧
          2 ≤ f.blocks.countP fun b => b.terminator.returns) := by
  have wf := hf.wellFormed
  obtain ⟨rest, rfl⟩ := List.head?_eq_some_iff.1 hentry
  obtain ⟨alloc, halloc⟩ := amd64.exists_allocate strategy f profile
  have hfits := Strategy.fits_of_allocate wf amd64.nodup_allocatable halloc
  have htotal : Placed.Total ⟨f, alloc, amd64.target⟩ := fun v hv => (hfits.domain v).2 hv
  refine ⟨alloc, _, _, (Placed.code ⟨f, alloc, amd64.target⟩ (0 :: rest)).flatMap
    (amd64.isa.stepLines o (amd64.frame f alloc)), halloc,
    generate_of_total wf hcheck htotal hperm o, by simp [Isa.assemble], ?_⟩
  have hany := any_isStack_check wf hcallees hfits.pool hcheck hperm o
  rw [← List.any_eq_true, hany]
  simp only [Bool.and_eq_true, decide_eq_true_eq, Option.any_eq_true]

/-- The sample has a single return, so a check has nothing to say about its stack. -/
theorem isStack_check_drain :
    Function.drain.IsBuilt ∧ Function.drain.CallsSymbols ∧
      Function.drain.unsupported amd64.target = [] ∧ [0, 2, 1].Perm Function.drain.blockIds ∧
      ∃ alloc a frame, Strategy.graphColoring.allocate Function.drain amd64.target none = .ok alloc ∧
        amd64.isa.generate Function.drain alloc [0, 2, 1] ⟨false⟩ = .ok (a, frame) ∧
        ∀ x ∈ amd64.check a.render, x.cause.isStack = false := by
  have hcallees : Function.drain.CallsSymbols := by decide
  have hcheck : Function.drain.unsupported amd64.target = [] := by decide
  have hperm : [0, 2, 1].Perm Function.drain.blockIds := by decide
  obtain ⟨alloc, a, frame, body, halloc, hgen, -, hiff⟩ := isStack_check_iff Function.isBuilt_drain
    hcallees hcheck .graphColoring none hperm rfl ⟨false⟩
  refine ⟨Function.isBuilt_drain, hcallees, hcheck, hperm, alloc, a, frame, halloc, hgen, ?_⟩
  intro x hx
  by_contra hstack
  obtain ⟨-, -, hreturns⟩ := hiff.1 ⟨x, hx, Bool.not_eq_false _ ▸ hstack⟩
  exact absurd hreturns (by decide)

end Arch

/-- Makes a function that passes an argument on the stack right away and returns from two blocks. -/
def Draft.forkCalls : List Draft.Call :=
  [.block "entry", .block "left", .block "right",
    .call 0 "choose" (([0, 1, 2, 3, 4, 5, 6] : List Int64).map fun n => .constant n .int) (some .int),
    .terminate 0 (.condBranch (.temporary 0 .int) 1 2), .terminate 1 (.ret none),
    .terminate 2 (.ret none)]

/-- The function. -/
def Function.fork : Function := (Draft.ofCalls "fork" none Draft.forkCalls).toFunction

theorem Function.isBuilt_fork : Function.fork.IsBuilt :=
  ⟨"fork", none, Draft.forkCalls, Draft.build_eq_ok_iff.2 ⟨by decide, rfl⟩⟩

namespace Arch

/-- The second return of balanced code is doubted: the check takes the padding below the argument for
a part of the frame. -/
theorem isStack_check_fork :
    Function.fork.IsBuilt ∧ Function.fork.CallsSymbols ∧
      Function.fork.unsupported amd64.target = [] ∧ [0, 1, 2].Perm Function.fork.blockIds ∧
      ∃ alloc a frame, Strategy.linearScan.allocate Function.fork amd64.target none = .ok alloc ∧
        amd64.isa.generate Function.fork alloc [0, 1, 2] ⟨false⟩ = .ok (a, frame) ∧
        ∃ x ∈ amd64.check a.render, x.cause.isStack = true := by
  have hcallees : Function.fork.CallsSymbols := by decide
  have hcheck : Function.fork.unsupported amd64.target = [] := by decide
  have hperm : [0, 1, 2].Perm Function.fork.blockIds := by decide
  have wf := Function.isBuilt_fork.wellFormed
  obtain ⟨alloc, halloc⟩ := amd64.exists_allocate .linearScan Function.fork none
  have hfits := Strategy.fits_of_allocate wf amd64.nodup_allocatable halloc
  have htotal : Placed.Total ⟨Function.fork, alloc, amd64.target⟩ := fun v hv => (hfits.domain v).2 hv
  refine ⟨Function.isBuilt_fork, hcallees, hcheck, hperm, alloc, _, _, halloc,
    generate_of_total wf hcheck htotal hperm ⟨false⟩, ?_⟩
  have hsize : Amd64.restSize (amd64.frame Function.fork alloc) < 2 ^ 63 := by
    cases halloc
    decide
  -- Seven arguments leave one for the stack, below a word of padding.
  have hhead : ((Placed.code ⟨Function.fork, alloc, amd64.target⟩ [0, 1, 2]).flatMap
      (amd64.isa.stepLines ⟨false⟩ (amd64.frame Function.fork alloc))).head? =
      some (Amd64.Instr.alu .sub (.imm (8 : Nat)) "rsp").line := by
    obtain ⟨more, hcode⟩ := Placed.exists_code_eq (p := ⟨Function.fork, alloc, amd64.target⟩) rfl
      (b := 0) rfl [1, 2]
    rw [hcode, List.flatMap_cons]
    rfl
  have hmove : amd64.dialect.motion (Amd64.Instr.alu .sub (.imm (8 : Nat)) "rsp").line = .move 8 :=
    (Amd64.moves_alu .sub .grow (by simp) 8).2
  rw [← List.any_eq_true, any_isStack_check wf hcallees hfits.pool hcheck hperm ⟨false⟩, hhead,
    decide_eq_true hsize, Option.any_some, hmove]
  decide

end Arch

end SsaBackend
