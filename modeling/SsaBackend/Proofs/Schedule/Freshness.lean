import Mathlib.Data.Set.Insert
import SsaBackend.Proofs.Allocation.Slots
import SsaBackend.Proofs.Frame
import SsaBackend.Proofs.Schedule.Names

/-!
# Registers that a schedule may read

A call changes the registers that no function hands back. A schedule never reads one of those after a
call without having written it before (`Placed.fed_code`): values live in registers that calls keep,
registers of parameters are read before the first call, and the register that breaks cycles is written
before it is read. All operands of a schedule are in the frame (`Placed.framed_code`): slots lie in the
spill area, and registers that the caller wants back are among the saved ones.
-/

namespace SsaBackend

open List

/-! ### Fresh operands -/

def Operand.FreshIn (fresh : Set Register) : Operand → Prop
  | immediate _ => True
  | register r => r ∈ fresh
  | stack _ => True

theorem Operand.freshIn_univ (o : Operand) : o.FreshIn Set.univ := by cases o <;> trivial

theorem Operand.FreshIn.mono {fresh fresh' : Set Register} (hsub : fresh ⊆ fresh') {o : Operand}
    (h : o.FreshIn fresh) : o.FreshIn fresh' := by
  cases o with
  | register r => exact hsub h
  | immediate | stack => trivial

namespace Step

def reads : Step → List Operand
  | move _ src => [src]
  | binop _ _ lhs rhs => [lhs, rhs]
  | store addr src => [addr, src]
  | call _ args _ => args
  | branchIf cond _ => [cond]
  | label _ | incoming _ _ | jump _ | epilogue => []

def next (kept fresh : Set Register) : Step → Set Register
  | label _ => Set.univ
  | incoming _ dst | move dst _ | binop _ dst _ _ => fresh ∪ {r | dst = .register r}
  | call _ _ dst => kept ∪ {r | dst = some (.register r)}
  | store _ _ | jump _ | branchIf _ _ | epilogue => fresh

variable {kept fresh fresh' : Set Register}

theorem next_mono (h : fresh ⊆ fresh') (s : Step) : s.next kept fresh ⊆ s.next kept fresh' := by
  cases s with
  | label | call => exact Set.Subset.refl _
  | incoming | move | binop => exact Set.union_subset_union_left _ h
  | store | jump | branchIf | epilogue => exact h

theorem kept_subset_next (h : kept ⊆ fresh) (s : Step) : kept ⊆ s.next kept fresh := by
  cases s with
  | label => exact Set.subset_univ _
  | call => exact Set.subset_union_left
  | incoming | move | binop => exact Set.Subset.trans h Set.subset_union_left
  | store | jump | branchIf | epilogue => exact h

end Step

def Fed (kept fresh : Set Register) : List Step → Set Register → Prop
  | [], fresh' => fresh' ⊆ fresh
  | s :: steps, fresh' =>
    (∀ o ∈ s.reads, o.FreshIn fresh) ∧ Fed kept (s.next kept fresh) steps fresh'

namespace Fed

variable {kept fresh fresh' fresh'' : Set Register} {steps steps' : List Step}

theorem mono (h : Fed kept fresh steps fresh') (hsub : fresh ⊆ fresh'') :
    Fed kept fresh'' steps fresh' := by
  induction steps generalizing fresh fresh'' with
  | nil => exact Set.Subset.trans h hsub
  | cons s steps ih => exact ⟨fun o ho => (h.1 o ho).mono hsub, ih h.2 (s.next_mono hsub)⟩

theorem append (h : Fed kept fresh steps fresh') (h' : Fed kept fresh' steps' fresh'') :
    Fed kept fresh (steps ++ steps') fresh'' := by
  induction steps generalizing fresh with
  | nil => exact h'.mono h
  | cons s steps ih => exact ⟨h.1, ih h.2⟩

theorem weaken (h : Fed kept fresh steps fresh') (hsub : fresh'' ⊆ fresh') :
    Fed kept fresh steps fresh'' := by
  have h' : Fed kept fresh (steps ++ []) fresh'' := h.append hsub
  rwa [append_nil] at h'

theorem of_reads (hkept : kept ⊆ fresh) (h : ∀ s ∈ steps, ∀ o ∈ s.reads, o.FreshIn kept) :
    Fed kept fresh steps kept := by
  induction steps generalizing fresh with
  | nil => exact hkept
  | cons s steps ih =>
    obtain ⟨hs, hsteps⟩ := forall_mem_cons.1 h
    exact ⟨fun o ho => (hs o ho).mono hkept, ih (s.kept_subset_next hkept) hsteps⟩

end Fed

namespace Move

theorem fed_order (scratch : Operand) (kept : Set Register) (ms : List Move)
    {fresh : Set Register} (h : ∀ m ∈ ms, m.src.FreshIn fresh) :
    Fed kept fresh ((order scratch ms).map fun m => .move m.dst m.src) fresh := by
  have hnext : ∀ (m : Move) {fresh : Set Register} {o : Operand}, o.FreshIn fresh →
      o.FreshIn ((Step.move m.dst m.src).next kept fresh) := fun _ _ _ ho =>
    ho.mono Set.subset_union_left
  fun_induction order scratch ms generalizing fresh with
  | case1 => exact Set.Subset.refl _
  | case2 m rest r hfind ih =>
    have hr := h r (mem_of_find?_eq_some hfind)
    refine ⟨forall_mem_singleton.2 hr, (ih fun q hq => ?_).weaken Set.subset_union_left⟩
    exact hnext r (h q (mem_of_mem_erase hq))
  | case3 m rest hfind heq ih =>
    obtain ⟨hm, hrest⟩ := forall_mem_cons.1 h
    refine ⟨forall_mem_singleton.2 hm, (ih fun q hq => ?_).weaken Set.subset_union_left⟩
    exact hnext m (hrest q hq)
  | case4 m rest hfind hne ih =>
    -- the destination that is saved is still to be read, so it is fresh
    have hdst : m.dst.FreshIn fresh := by
      have hready := find?_eq_none.1 hfind m mem_cons_self
      obtain ⟨q, hq, hsrc⟩ := exists_src_of_not_isReady (by simpa using hready)
      exact hsrc ▸ h q hq
    refine ⟨forall_mem_singleton.2 hdst, (ih fun q hq => ?_).weaken Set.subset_union_left⟩
    obtain ⟨q', hq', rfl⟩ := mem_map.1 hq
    unfold redirect
    split
    · cases scratch with
      | register r => exact Set.mem_union_right _ rfl
      | immediate | stack => trivial
    · exact hnext ⟨scratch, m.dst⟩ (h q' hq')

end Move

namespace Placed

variable {p : Placed} {kept fresh : Set Register}

theorem fed_parallelMove {ms : List Move} (h : ∀ m ∈ ms, m.src.FreshIn fresh) :
    Fed kept fresh (p.parallelMove ms) fresh :=
  Move.fed_order _ kept _ fun m hm => h m (mem_of_mem_filter hm)

theorem fed_paramCode : Fed kept Set.univ p.paramCode Set.univ := by
  refine Fed.append ?_ (fed_parallelMove fun m _ => m.src.freshIn_univ)
  induction ((p.func.params.map p.place).drop p.target.argRegs.length).zipIdx with
  | nil => exact Set.Subset.refl _
  | cons d ds ih => exact ⟨by simp [Step.reads], ih.mono (Set.subset_union_left)⟩

section Kept

variable (hpool : ∀ v r, p.allocation.location? v = some (.register r) → r ∈ p.target.allocatable)
  (hkept : ∀ r ∈ p.target.allocatable, r ∈ kept)

include hpool hkept in
theorem freshIn_place : ∀ v, (p.place v).FreshIn kept := by
  refine forall_place (fun _ => trivial) fun id l hl => ?_
  cases l with
  | stack slot => trivial
  | register r => exact hkept r (hpool id r hl)

variable (hfresh : kept ⊆ fresh)

include hpool hkept hfresh

theorem fed_edgeCode (pred succ : BlockId) : Fed kept fresh (p.edgeCode pred succ) kept := by
  refine (fed_parallelMove fun m hm => ?_).mono hfresh
  obtain ⟨phi, -, hmove⟩ := mem_filterMap.1 hm
  obtain ⟨src, -, rfl⟩ := Option.map_eq_some_iff.1 hmove
  exact freshIn_place hpool hkept src

theorem fed_goCode (pred succ : BlockId) (next : Option BlockId) :
    Fed kept fresh (p.goCode pred succ next) kept := by
  refine (fed_edgeCode hpool hkept hfresh pred succ).append ?_
  split
  · exact Set.Subset.refl _
  · exact ⟨by simp [Step.reads], Set.Subset.refl _⟩

theorem fed_branchCode (b : BlockId) (next : Option BlockId) {cond : Operand}
    (hcond : cond.FreshIn kept) (onTrue onFalse : BlockId) :
    Fed kept fresh (p.branchCode b next cond onTrue onFalse).1 kept := by
  unfold branchCode
  split
  · exact fed_goCode hpool hkept hfresh b onTrue next
  · refine .of_reads hfresh (forall_mem_cons.2 ⟨forall_mem_singleton.2 hcond, ?_⟩)
    split <;> simp [Step.reads]

theorem fed_tailCode (b : BlockId) (next : Option BlockId) (t : Terminator) :
    Fed kept fresh (p.tailCode b next t).1 kept := by
  have hplace := fun v => freshIn_place hpool hkept (p := p) v
  cases t with
  | ret value =>
    refine .of_reads hfresh ?_
    cases value <;> simp [tailCode, Step.reads, hplace]
  | branch succ => exact fed_goCode hpool hkept hfresh b succ next
  | condBranch cond onTrue onFalse =>
    have hcond := hplace cond
    revert hcond
    simp only [tailCode]
    cases p.place cond with
    | immediate value => exact fun _ => fed_goCode hpool hkept hfresh b _ next
    | register | stack =>
      exact fun hcond => fed_branchCode hpool hkept hfresh b next hcond onTrue onFalse

theorem fed_blockCode (b : BlockId) (next : Option BlockId) :
    Fed kept fresh (p.blockCode b next) kept := by
  have hplace := fun v => freshIn_place hpool hkept (p := p) v
  refine Fed.append (.of_reads hfresh fun s hs => ?_)
    (fed_tailCode hpool hkept (Set.Subset.refl _) b next _)
  obtain ⟨i, -, rfl⟩ := mem_map.1 hs
  cases i <;> simp [stepOf, Step.reads, hplace]

theorem fed_layoutCode (layout : List BlockId) : Fed kept fresh (p.layoutCode layout) kept := by
  induction layout generalizing fresh with
  | nil => exact hfresh
  | cons b bs ih =>
    refine ⟨by simp [Step.reads], Fed.append ?_ (ih (Set.Subset.refl _))⟩
    exact fed_blockCode hpool hkept (Set.subset_univ _) b bs.head?

theorem fed_stubs (stubs : List Stub) : Fed kept fresh (stubs.flatMap p.stubCode) kept := by
  induction stubs generalizing fresh with
  | nil => exact hfresh
  | cons s stubs ih =>
    have hedge := fed_edgeCode hpool hkept (Set.subset_univ _) s.pred s.succ
    refine ⟨by simp [Step.reads], Fed.append (hedge.append ?_) (ih (Set.Subset.refl _))⟩
    exact ⟨by simp [Step.reads], Set.Subset.refl _⟩

omit hfresh in
theorem fed_code (b : BlockId) (rest : List BlockId) :
    Fed kept Set.univ (p.code (b :: rest)) kept := by
  have hall : kept ⊆ Set.univ := Set.subset_univ _
  have hself : kept ⊆ kept := Set.Subset.refl _
  rw [code_cons]
  exact fed_paramCode.append <| (fed_blockCode hpool hkept hall b _).append <|
    (fed_layoutCode hpool hkept hself rest).append (fed_stubs hpool hkept hself _)

end Kept

end Placed

/-! ### Operands in the frame -/

def Operand.Framed (t : Target) (f : Frame) : Operand → Prop
  | immediate _ => True
  | register r => r ∈ t.valueRegs ∧ (t.isCalleeSaved r = true → r ∈ f.saved)
  | stack slot => f.spillOffset slot + 8 ≤ f.size

def Step.args : Step → List Operand
  | call _ args _ => args
  | _ => []

def Step.Framed (t : Target) (f : Frame) (s : Step) : Prop :=
  (∀ o ∈ s.operands, o.Framed t f) ∧ s.args.length ≤ t.maxCallArgs

namespace Placed

variable {p : Placed}

theorem Emits.args_eq_nil_or {s : Step} (h : p.Emits s) :
    s.args = [] ∨ ∃ b ∈ p.func.blocks, ∃ dst callee args,
      Instruction.call dst callee args ∈ b.instructions ∧ s.args.length = args.length := by
  cases h with
  | label | jump | branchIf | epilogue | result | incoming | shuffle => exact .inl rfl
  | @instruction b i h =>
    cases i with
    | binop | load | store => exact .inl rfl
    | call dst callee args =>
      obtain ⟨k, hk⟩ := mem_iff_getElem?.1 h
      have hblock := Function.block_mem (Function.lt_length_of_getElem? hk)
      exact .inr ⟨_, hblock, dst, callee, args, h, length_map _⟩

theorem length_args_le (hcheck : p.func.unsupported p.target = []) {s : Step} (h : p.Emits s) :
    s.args.length ≤ p.target.maxCallArgs := by
  rcases h.args_eq_nil_or with hnil | ⟨b, hb, dst, callee, args, hi, hlength⟩
  · simp [hnil]
  · -- the check would have reported a call with more arguments
    have hfaults : p.func.instructionFaults p.target (.call dst callee args) = [] := by
      have hblocks := (append_eq_nil_iff.1 hcheck).2
      have hinstrs := (append_eq_nil_iff.1 (flatMap_eq_nil_iff.1 hblocks b hb)).1
      exact flatMap_eq_nil_iff.1 hinstrs _ hi
    have hcount := (append_eq_nil_iff.1 hfaults).2
    rw [hlength]
    split at hcount
    · cases hcount
    · next hle => exact Nat.le_of_not_lt hle

section Framed

variable {n : Nat} (hword : p.target.wordSize = 8) (halign : p.target.stackAlign = 16)
  (hpool : ∀ v r, p.allocation.location? v = some (.register r) → r ∈ p.target.allocatable)
  (hroomy : p.allocation.Roomy)

include hword halign hpool hroomy

theorem framed_place : ∀ v, (p.place v).Framed p.target (.ofAllocation p.target p.allocation n) := by
  refine forall_place (fun _ => trivial) fun id l hl => ?_
  cases l with
  | stack slot =>
    have hslot := hroomy id slot hl
    show Frame.spillOffset _ slot + 8 ≤ Frame.size _
    simp only [Frame.spillOffset, Frame.ofAllocation, hword, halign, align, fixedArea]
    omega
  | register r =>
    refine ⟨Target.mem_valueRegs (hpool id r hl), fun hsaved => ?_⟩
    have hused := Allocation.mem_registers hl
    exact mem_filter.2 ⟨contains_iff_mem.1 hsaved, contains_iff_mem.2 hused⟩

theorem framed_code (hcheck : p.func.unsupported p.target = [])
    (hfree : ∀ r ∈ p.target.retReg :: p.target.cycleScratch :: p.target.argRegs,
      p.target.isCalleeSaved r = false) {layout : List BlockId} {s : Step}
    (hs : s ∈ p.code layout) :
    s.Framed p.target (.ofAllocation p.target p.allocation n) := by
  have hemits := emits_of_mem_code hs
  -- registers of the calling convention and for cycles belong to no caller
  have hregs : ∀ r ∈ p.target.retReg :: p.target.cycleScratch :: p.target.argRegs,
      (Operand.register r).Framed p.target (.ofAllocation p.target p.allocation n) := by
    intro r hr
    refine ⟨?_, fun hsaved => absurd hsaved (by simp [hfree r hr])⟩
    simp only [mem_cons] at hr
    rcases hr with rfl | rfl | hr <;> simp [Target.valueRegs, *]
  refine ⟨hemits.forall_mem_operands (framed_place hword halign hpool hroomy) ?_ ?_ ?_,
    length_args_le hcheck hemits⟩
  · exact hregs _ mem_cons_self
  · exact hregs _ (mem_cons_of_mem _ mem_cons_self)
  · exact fun r hr => hregs r (mem_cons_of_mem _ (mem_cons_of_mem _ hr))

end Framed

end Placed

end SsaBackend
