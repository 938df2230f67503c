import SsaBackend.Proofs.Listing
import SsaBackend.Proofs.Schedule.Code

/-!
# What a schedule mentions

A schedule is made of few kinds of steps (`Placed.Emits`). Its operands are the places of values and
the registers of parameters, results and cycles (`Placed.Emits.forall_mem_operands`), and its labels
and callees are made of letters, digits, underscores and dots (`Step.Proper`). Every label stands in
a schedule once (`Placed.nodup_labels_code`): labels of blocks and edges are different, and no edge
needs its code twice.
-/

namespace SsaBackend

open List

variable {s : Step} {layout : List BlockId} {rs : List Register} {name : String}

theorem isReferenceChar_of_mem (h : isSymbol name = true) {c : Char} (hc : c ∈ name.toList) :
    isReferenceChar c = true := by
  simp only [isSymbol, Bool.and_eq_true, all_eq_true] at h
  rw [isReferenceChar, h.2 c hc, Bool.true_or]

theorem isReference_of_isSymbol (h : isSymbol name = true) : isReference name = true := by
  have hchars := all_eq_true.2 fun c hc => isReferenceChar_of_mem h hc
  simp only [isSymbol, Bool.and_eq_true] at h
  rw [isReference, h.1, hchars, Bool.true_and]

def Operand.Within (rs : List Register) : Operand → Prop
  | immediate _ => True
  | register r => r ∈ rs
  | stack _ => True

def Step.Proper (rs : List Register) : Step → Prop
  | label name => isReference name = true
  | incoming _ dst => dst.Within rs
  | move dst src => dst.Within rs ∧ src.Within rs
  | binop _ dst lhs rhs => dst.Within rs ∧ lhs.Within rs ∧ rhs.Within rs
  | store addr src => addr.Within rs ∧ src.Within rs
  | call callee args dst =>
    isReference callee = true ∧ (∀ a ∈ args, a.Within rs) ∧ ∀ d ∈ dst, d.Within rs
  | jump target => isReference target = true
  | branchIf cond target => cond.Within rs ∧ isReference target = true
  | epilogue => True

def Step.Regular (rs : List Register) : Step → Prop
  | call _ args dst => (∀ a ∈ args, a.Within rs) ∧ ∀ d ∈ dst, d.Within rs
  | s => s.Proper rs

theorem Step.Regular.proper (h : s.Regular rs)
    (hcall : ∀ callee args dst, s ≠ .call callee args dst) : s.Proper rs := by
  cases s with
  | call callee args dst => exact absurd rfl (hcall callee args dst)
  | _ => exact h

def Step.operands : Step → List Operand
  | label _ => []
  | incoming _ dst => [dst]
  | move dst src => [dst, src]
  | binop _ dst lhs rhs => [dst, lhs, rhs]
  | store addr src => [addr, src]
  | call _ args dst => args ++ dst.toList
  | jump _ => []
  | branchIf cond _ => [cond]
  | epilogue => []

/-- The place that a step writes. -/
def Step.dst? : Step → Option Operand
  | incoming _ dst | move dst _ | binop _ dst _ _ => some dst
  | call _ _ dst => dst
  | label _ | store _ _ | jump _ | branchIf _ _ | epilogue => none

def Step.names : Step → List String
  | label name => [name]
  | call callee _ _ => [callee]
  | jump target => [target]
  | branchIf _ target => [target]
  | incoming _ _ | move _ _ | binop _ _ _ _ | store _ _ | epilogue => []

theorem Step.proper_iff :
    s.Proper rs ↔
      (∀ o ∈ s.operands, o.Within rs) ∧ ∀ name ∈ s.names, isReference name = true := by
  cases s with
  | call callee args dst =>
    simp only [Proper, operands, names, forall_mem_append, forall_mem_singleton, Option.mem_toList]
    exact and_comm
  | _ => simp [Proper, operands, names]

theorem Step.Regular.within (h : s.Regular rs) : ∀ o ∈ s.operands, o.Within rs := by
  cases s with
  | call callee args dst =>
    exact forall_mem_append.2 ⟨h.1, fun d hd => h.2 d (Option.mem_toList.1 hd)⟩
  | _ => exact (proper_iff.1 (h.proper (by simp))).1

theorem Step.Proper.regular (h : s.Proper rs) : s.Regular rs := by
  cases s with
  | call callee args dst => exact h.2
  | _ => exact h

/-- The callee of a call. -/
def Instruction.callee? : Instruction → Option String
  | call _ callee _ => some callee
  | _ => none

/-- All callees are symbols. -/
def Function.CallsSymbols (f : Function) : Prop :=
  ∀ b ∈ f.blocks, ∀ i ∈ b.instructions, ∀ callee ∈ i.callee?, isSymbol callee = true

instance (f : Function) : Decidable f.CallsSymbols :=
  inferInstanceAs (Decidable (∀ b ∈ f.blocks, ∀ i ∈ b.instructions, ∀ callee ∈ i.callee?,
    isSymbol callee = true))

/-- The registers in which code finds and leaves values. -/
def Target.valueRegs (t : Target) : List Register :=
  t.retReg :: t.cycleScratch :: (t.argRegs ++ t.allocatable)

theorem Target.mem_valueRegs {t : Target} {r : Register} (h : r ∈ t.allocatable) : r ∈ t.valueRegs := by
  simp [valueRegs, h]

namespace Move

theorem forall_mem_order {P : Operand → Prop} {scratch : Operand} (hscratch : P scratch)
    (ms : List Move) (h : ∀ m ∈ ms, P m.dst ∧ P m.src) :
    ∀ m ∈ order scratch ms, P m.dst ∧ P m.src := by
  fun_induction order scratch ms with
  | case1 => simp
  | case2 m rest r hfind ih =>
    refine forall_mem_cons.2 ⟨h r (mem_of_find?_eq_some hfind), ih fun m' hm' => ?_⟩
    exact h m' (mem_of_mem_erase hm')
  | case3 m rest hfind heq ih =>
    obtain ⟨hm, hrest⟩ := forall_mem_cons.1 h
    exact forall_mem_cons.2 ⟨hm, ih hrest⟩
  | case4 m rest hfind hne ih =>
    obtain ⟨hm, -⟩ := forall_mem_cons.1 h
    refine forall_mem_cons.2 ⟨⟨hscratch, hm.1⟩, ih fun m' hm' => ?_⟩
    obtain ⟨m'', hm'', rfl⟩ := mem_map.1 hm'
    unfold redirect
    split
    · exact ⟨(h m'' hm'').1, hscratch⟩
    · exact h m'' hm''

theorem forall_mem_sequentialize {P : Operand → Prop} {scratch : Operand} (hscratch : P scratch)
    {ms : List Move} (h : ∀ m ∈ ms, P m.dst ∧ P m.src) :
    ∀ m ∈ sequentialize ms scratch, P m.dst ∧ P m.src :=
  forall_mem_order hscratch _ fun m hm => h m (mem_of_mem_filter hm)

end Move

/-! ### Labels are references -/

theorem isReference_append {name' : String} (h : isReference name = true)
    (h' : ∀ c ∈ name'.toList, isReferenceChar c = true) : isReference (name ++ name') = true := by
  simp only [isReference, Bool.and_eq_true, all_eq_true, Bool.not_eq_true',
    isEmpty_eq_false_iff] at h ⊢
  rw [String.toList_append]
  refine ⟨append_ne_nil_of_left_ne_nil h.1 _, fun c hc => ?_⟩
  rcases mem_append.1 hc with hc | hc
  · exact h.2 c hc
  · exact h' c hc

namespace Function

variable {f : Function}

theorem WellFormed.isSymbol_name (wf : f.WellFormed) : isSymbol f.name = true := by
  have hname := wf.name
  simp only [isFunctionName, Bool.and_eq_true] at hname
  exact hname.1

theorem WellFormed.mem_label (wf : f.WellFormed) (b : BlockId) {c : Char}
    (hc : c ∈ (f.label b).toList) : isReferenceChar c = true := by
  by_cases hb : b < f.blocks.length
  · exact isReferenceChar_of_mem (wf.symbols _ (block_mem hb)) hc
  · rw [label, block_eq_default (Nat.le_of_not_lt hb)] at hc
    cases hc

theorem WellFormed.isReference_blockLabel (wf : f.WellFormed) (b : BlockId) :
    isReference (f.blockLabel b) = true := by
  have hdot : ∀ c ∈ ".".toList, isReferenceChar c = true := all_eq_true.1 (by decide)
  refine isReference_append (isReference_append (isReference_append (by decide) ?_) hdot) ?_
  · exact fun c hc => isReferenceChar_of_mem wf.isSymbol_name hc
  · exact fun c hc => wf.mem_label b hc

theorem WellFormed.isReference_edgeLabel (wf : f.WellFormed) (pred succ : BlockId) :
    isReference (f.edgeLabel pred succ) = true := by
  have hdot : ∀ c ∈ ".".toList, isReferenceChar c = true := all_eq_true.1 (by decide)
  have hedge : ∀ c ∈ ".edge".toList, isReferenceChar c = true := all_eq_true.1 (by decide)
  refine isReference_append (isReference_append (isReference_append ?_ hdot) ?_) hedge
  · exact wf.isReference_blockLabel pred
  · exact fun c hc => wf.mem_label succ hc

end Function

inductive Function.IsLabel (f : Function) : String → Prop
  | block (b : BlockId) : f.IsLabel (f.blockLabel b)
  | edge (pred succ : BlockId) : f.IsLabel (f.edgeLabel pred succ)

theorem Function.WellFormed.isReference {f : Function} (wf : f.WellFormed) (h : f.IsLabel name) :
    isReference name = true := by
  cases h with
  | block b => exact wf.isReference_blockLabel b
  | edge pred succ => exact wf.isReference_edgeLabel pred succ

namespace Placed

variable {p : Placed}

/-! ### Steps -/

def IsMove (p : Placed) (m : Move) : Prop :=
  (∃ v, m.dst = p.place v) ∧ ((∃ v, m.src = p.place v) ∨ ∃ r ∈ p.target.argRegs, m.src = .register r)

inductive Emits (p : Placed) : Step → Prop
  | label {name : String} (h : p.func.IsLabel name) : p.Emits (.label name)
  | jump {name : String} (h : p.func.IsLabel name) : p.Emits (.jump name)
  | branchIf (v : Value) {name : String} (h : p.func.IsLabel name) :
    p.Emits (.branchIf (p.place v) name)
  | epilogue : p.Emits .epilogue
  | result (v : Value) : p.Emits (.move (.register p.target.retReg) (p.place v))
  | instruction {b : BlockId} {i : Instruction} (h : i ∈ (p.func.block b).instructions) :
    p.Emits (p.stepOf i)
  | incoming {index : Nat} (v : Value)
    (h : p.target.argRegs.length + index < p.func.params.length) : p.Emits (.incoming index (p.place v))
  | shuffle {ms : List Move} (h : ∀ m ∈ ms, p.IsMove m) {m : Move}
    (hm : m ∈ Move.sequentialize ms (.register p.target.cycleScratch)) : p.Emits (.move m.dst m.src)

theorem emits_of_mem_parallelMove {ms : List Move} (h : ∀ m ∈ ms, p.IsMove m)
    (hs : s ∈ p.parallelMove ms) : p.Emits s := by
  obtain ⟨m, hm, rfl⟩ := mem_map.1 hs
  exact .shuffle h hm

theorem emits_of_mem_paramCode (hs : s ∈ p.paramCode) : p.Emits s := by
  rcases mem_append.1 hs with hs | hs
  · obtain ⟨⟨o, index⟩, ho, rfl⟩ := mem_map.1 hs
    have hget := mem_zipIdx_iff_getElem?.1 ho
    rw [getElem?_drop, getElem?_map] at hget
    obtain ⟨v, hv, rfl⟩ := Option.map_eq_some_iff.1 hget
    exact .incoming v (List.getElem?_eq_some_iff.1 hv).1
  · refine emits_of_mem_parallelMove (fun m hm => ?_) hs
    obtain ⟨⟨o, r⟩, ho, rfl⟩ := mem_map.1 hm
    obtain ⟨hplace, hreg⟩ := of_mem_zip ho
    obtain ⟨v, -, rfl⟩ := mem_map.1 hplace
    exact ⟨⟨v, rfl⟩, .inr ⟨r, hreg, rfl⟩⟩

theorem isMove_of_mem_edgeMoves {pred succ : BlockId} {m : Move} (hm : m ∈ p.edgeMoves pred succ) :
    p.IsMove m := by
  obtain ⟨phi, -, hmove⟩ := mem_filterMap.1 hm
  obtain ⟨src, -, rfl⟩ := Option.map_eq_some_iff.1 hmove
  exact ⟨⟨_, rfl⟩, .inl ⟨_, rfl⟩⟩

theorem emits_of_mem_edgeCode {pred succ : BlockId} (hs : s ∈ p.edgeCode pred succ) : p.Emits s :=
  emits_of_mem_parallelMove (fun _ hm => isMove_of_mem_edgeMoves hm) hs

theorem emits_of_mem_goCode {pred succ : BlockId} {next : Option BlockId}
    (hs : s ∈ p.goCode pred succ next) : p.Emits s := by
  rcases mem_append.1 hs with hs | hs
  · exact emits_of_mem_edgeCode hs
  · split at hs
    · cases hs
    · rw [mem_singleton.1 hs]
      exact .jump (.block succ)

theorem isLabel_edgeTarget (pred succ : BlockId) : p.func.IsLabel (p.edgeTarget pred succ).1 := by
  unfold edgeTarget
  split
  · exact .block succ
  · exact .edge pred succ

theorem emits_of_mem_tailCode {b : BlockId} {next : Option BlockId} {t : Terminator}
    (hs : s ∈ (p.tailCode b next t).1) : p.Emits s := by
  cases t with
  | ret value =>
    cases value with
    | none =>
      rw [mem_singleton.1 hs]
      exact .epilogue
    | some v =>
      simp only [tailCode, mem_cons, not_mem_nil, or_false] at hs
      rcases hs with rfl | rfl
      · exact .result v
      · exact .epilogue
  | branch succ => exact emits_of_mem_goCode hs
  | condBranch cond onTrue onFalse =>
    have hbranch : ∀ {name}, p.func.IsLabel name → p.Emits (.branchIf (p.place cond) name) :=
      .branchIf cond
    revert hbranch hs
    simp only [tailCode]
    cases p.place cond with
    | immediate value => exact fun hs _ => emits_of_mem_goCode hs
    | register | stack =>
      intro hs hbranch
      simp only [branchCode] at hs
      split at hs
      · exact emits_of_mem_goCode hs
      · rcases mem_cons.1 hs with rfl | hs
        · exact hbranch (isLabel_edgeTarget b onTrue)
        · split at hs
          · cases hs
          · rw [mem_singleton.1 hs]
            exact .jump (isLabel_edgeTarget b onFalse)

theorem emits_of_mem_layoutCode (hs : s ∈ p.layoutCode layout) : p.Emits s := by
  induction layout with
  | nil => cases hs
  | cons b bs ih =>
    rw [layoutCode, cons_append, mem_cons, mem_append] at hs
    rcases hs with rfl | hs | hs
    · exact .label (.block b)
    · rcases mem_append.1 hs with hs | hs
      · obtain ⟨i, hi, rfl⟩ := mem_map.1 hs
        exact .instruction hi
      · exact emits_of_mem_tailCode hs
    · exact ih hs

theorem emits_of_mem_code (hs : s ∈ p.code layout) : p.Emits s := by
  rcases mem_append.1 hs with hs | hs
  · rcases mem_append.1 hs with hs | hs
    · exact emits_of_mem_paramCode hs
    · exact emits_of_mem_layoutCode (mem_of_mem_drop hs)
  · obtain ⟨t, -, hs⟩ := mem_flatMap.1 hs
    rw [stubCode, cons_append, mem_cons, mem_append, mem_singleton] at hs
    rcases hs with rfl | hs | rfl
    · exact .label (.edge t.pred t.succ)
    · exact emits_of_mem_edgeCode hs
    · exact .jump (.block t.succ)

theorem Emits.isLabel (h : p.Emits (.label name)) : p.func.IsLabel name := by
  generalize hs : Step.label name = s at h
  cases h with
  | label h =>
    cases hs
    exact h
  | @instruction b i h => cases i <;> cases hs
  | jump | branchIf | epilogue | result | incoming | shuffle => cases hs

/-! ### Operands -/

section Operands

variable {P : Operand → Prop} (hplace : ∀ v, P (p.place v))

include hplace in
theorem forall_mem_operands_stepOf (i : Instruction) : ∀ o ∈ (p.stepOf i).operands, P o := by
  cases i with
  | binop dst op lhs rhs => simp [stepOf, Step.operands, hplace]
  | load dst src => simp [stepOf, Step.operands, hplace]
  | store addr src => simp [stepOf, Step.operands, hplace]
  | call dst callee args =>
    refine forall_mem_append.2 ⟨forall_mem_map.2 fun v _ => hplace v, fun o ho => ?_⟩
    obtain ⟨v, -, rfl⟩ := Option.map_eq_some_iff.1 (Option.mem_toList.1 ho)
    exact hplace v

variable (hret : P (.register p.target.retReg)) (hscratch : P (.register p.target.cycleScratch))
  (hargs : ∀ r ∈ p.target.argRegs, P (.register r))

include hplace hret hscratch hargs in
theorem Emits.forall_mem_operands (h : p.Emits s) : ∀ o ∈ s.operands, P o := by
  cases h with
  | label | jump | epilogue => simp [Step.operands]
  | branchIf v => simp [Step.operands, hplace]
  | result v => simp [Step.operands, hret, hplace]
  | instruction h => exact forall_mem_operands_stepOf hplace _
  | incoming v => simp [Step.operands, hplace]
  | @shuffle ms h m hm =>
    have hmoves : ∀ m ∈ ms, P m.dst ∧ P m.src := fun m hm => by
      obtain ⟨⟨v, hdst⟩, ⟨w, hsrc⟩ | ⟨r, hr, hsrc⟩⟩ := h m hm
      · exact ⟨hdst ▸ hplace v, hsrc ▸ hplace w⟩
      · exact ⟨hdst ▸ hplace v, hsrc ▸ hargs r hr⟩
    simpa [Step.operands] using Move.forall_mem_sequentialize hscratch hmoves _ hm

end Operands

theorem Emits.isReference (wf : p.func.WellFormed) (hcallees : p.func.CallsSymbols) (h : p.Emits s) :
    ∀ name ∈ s.names, isReference name = true := by
  cases h with
  | label h | jump h | branchIf v h => exact forall_mem_singleton.2 (wf.isReference h)
  | epilogue | result | incoming | shuffle => simp [Step.names]
  | @instruction b i h =>
    obtain ⟨k, hk⟩ := mem_iff_getElem?.1 h
    have hblock := Function.block_mem (Function.lt_length_of_getElem? hk)
    cases i with
    | binop | load | store => simp [stepOf, Step.names]
    | call dst callee args =>
      exact forall_mem_singleton.2
        (isReference_of_isSymbol (hcallees _ hblock _ h callee rfl))

section Pool

variable (hpool : ∀ v r, p.allocation.location? v = some (.register r) → r ∈ p.target.allocatable)

include hpool

theorem within_place : ∀ v, (p.place v).Within p.target.valueRegs := by
  refine forall_place (fun _ => trivial) fun id l hl => ?_
  cases l with
  | stack slot => trivial
  | register r => exact Target.mem_valueRegs (hpool id r hl)

theorem Emits.within (h : p.Emits s) : ∀ o ∈ s.operands, o.Within p.target.valueRegs := by
  refine h.forall_mem_operands (within_place hpool) ?_ ?_ ?_
  · exact mem_cons_self
  · exact mem_cons_of_mem _ mem_cons_self
  · exact fun r hr => mem_cons_of_mem _ (mem_cons_of_mem _ (mem_append_left _ hr))

theorem proper_code (wf : p.func.WellFormed) (hcallees : p.func.CallsSymbols)
    (hs : s ∈ p.code layout) : s.Proper p.target.valueRegs :=
  have hemits := emits_of_mem_code hs
  Step.proper_iff.2 ⟨hemits.within hpool, hemits.isReference wf hcallees⟩

theorem Emits.regular (wf : p.func.WellFormed) (h : p.Emits s) :
    s.Regular p.target.valueRegs := by
  have hwithin := h.within hpool
  cases h with
  | label h | jump h => exact wf.isReference h
  | branchIf v h => exact ⟨within_place hpool v, wf.isReference h⟩
  | epilogue => trivial
  | incoming v => exact within_place hpool v
  | result | shuffle => exact Step.proper_iff.2 ⟨hwithin, by simp [Step.names]⟩
  | @instruction b i h =>
    cases i with
    | binop | load | store => exact Step.proper_iff.2 ⟨hwithin, by simp [stepOf, Step.names]⟩
    | call dst callee args =>
      obtain ⟨hargs, hdst⟩ := forall_mem_append.1 hwithin
      exact ⟨hargs, fun d hd => hdst d (Option.mem_toList.2 hd)⟩

end Pool

/-! ### Labels -/

def stubLabel (p : Placed) (s : Stub) : String := p.func.edgeLabel s.pred s.succ

end Placed

def Step.label? : Step → Option String
  | label name => some name
  | _ => none

theorem filterMap_label?_eq_nil {steps : List Step} (h : ∀ name, Step.label name ∉ steps) :
    steps.filterMap Step.label? = [] := by
  refine filterMap_eq_nil_iff.2 fun s hs => ?_
  cases s with
  | label name => exact absurd hs (h name)
  | _ => rfl

namespace Placed

variable {p : Placed}

theorem labels_layoutCode (layout : List BlockId) :
    (p.layoutCode layout).filterMap Step.label? = layout.map p.func.blockLabel := by
  induction layout with
  | nil => rfl
  | cons b bs ih =>
    have hblock := filterMap_label?_eq_nil fun name =>
      label_notMem_blockCode (p := p) name b bs.head?
    rw [layoutCode, cons_append, filterMap_cons, Step.label?, filterMap_append,
      hblock, nil_append, ih, map_cons]

theorem labels_stubCode (stubs : List Stub) :
    (stubs.flatMap p.stubCode).filterMap Step.label? = stubs.map p.stubLabel := by
  induction stubs with
  | nil => rfl
  | cons s stubs ih =>
    have hedge := filterMap_label?_eq_nil fun name =>
      label_notMem_parallelMove (p := p) name (p.edgeMoves s.pred s.succ)
    rw [flatMap_cons, filterMap_append, ih, stubCode, cons_append,
      filterMap_cons, Step.label?, filterMap_append, edgeCode, hedge]
    rfl

theorem labels_code (b : BlockId) (rest : List BlockId) :
    (p.code (b :: rest)).filterMap Step.label? =
      rest.map p.func.blockLabel ++ (p.layoutStubs (b :: rest)).map p.stubLabel := by
  have hparams := filterMap_label?_eq_nil fun name => label_notMem_paramCode (p := p) name
  have hblock := filterMap_label?_eq_nil fun name =>
    label_notMem_blockCode (p := p) name b rest.head?
  rw [code_cons, filterMap_append, filterMap_append, filterMap_append, hparams,
    hblock, labels_layoutCode, labels_stubCode]
  rfl

theorem nodup_stubs_tailCode (b : BlockId) (next : Option BlockId) (t : Terminator) :
    (p.tailCode b next t).2.Nodup := by
  have htarget : ∀ succ, (p.edgeTarget b succ).2 = [] ∨ (p.edgeTarget b succ).2 = [⟨b, succ⟩] := by
    intro succ
    unfold edgeTarget
    split
    · exact .inl rfl
    · exact .inr rfl
  cases t with
  | ret value => cases value <;> exact nodup_nil
  | branch succ => exact nodup_nil
  | condBranch cond onTrue onFalse =>
    simp only [tailCode]
    split
    · exact nodup_nil
    · simp only [branchCode]
      split
      · exact nodup_nil
      · next hne =>
        rcases htarget onTrue with htrue | htrue <;> rcases htarget onFalse with hfalse | hfalse <;>
          simp [htrue, hfalse, hne]

theorem nodup_layoutStubs (h : layout.Nodup) : (p.layoutStubs layout).Nodup := by
  induction layout with
  | nil => exact nodup_nil
  | cons b bs ih =>
    obtain ⟨hb, hbs⟩ := nodup_cons.1 h
    refine nodup_append.2 ⟨nodup_stubs_tailCode b _ _, ih hbs, ?_⟩
    rintro s hs s' hs' rfl
    exact hb ((stub_of_mem_tailCode hs).1 ▸ (stub_of_mem_layoutStubs hs').1)

theorem nodup_labels_code (wf : p.func.WellFormed) {b : BlockId} {rest : List BlockId}
    (hlt : ∀ c ∈ b :: rest, c < p.func.blocks.length) (hnodup : (b :: rest).Nodup) :
    ((p.code (b :: rest)).filterMap Step.label?).Nodup := by
  obtain ⟨-, hrest⟩ := nodup_cons.1 hnodup
  rw [labels_code]
  refine nodup_append.2 ⟨?_, ?_, ?_⟩
  · refine hrest.map_on fun c hc c' hc' heq => ?_
    exact wf.blockLabel_inj (hlt c (mem_cons_of_mem _ hc)) (hlt c' (mem_cons_of_mem _ hc'))
      heq
  · refine (nodup_layoutStubs hnodup).map_on fun s hs s' hs' heq => ?_
    obtain ⟨hpred, hsucc⟩ := stub_of_mem_layoutStubs hs
    obtain ⟨hpred', hsucc'⟩ := stub_of_mem_layoutStubs hs'
    obtain ⟨h, h'⟩ := wf.edgeLabel_inj (hlt _ hpred) (wf.succ_lt hsucc) (hlt _ hpred')
      (wf.succ_lt hsucc') heq
    cases s
    cases s'
    simp_all
  · intro name hname name' hname' heq
    obtain ⟨c, hc, rfl⟩ := mem_map.1 hname
    obtain ⟨s, -, rfl⟩ := mem_map.1 hname'
    exact wf.edgeLabel_ne_blockLabel s.pred s.succ (hlt c (mem_cons_of_mem _ hc)) heq.symm

theorem name_notMem_labels_code (wf : p.func.WellFormed) (b : BlockId) (rest : List BlockId) :
    p.func.name ∉ (p.code (b :: rest)).filterMap Step.label? := by
  have hdot := dot_notMem_of_isSymbol wf.isSymbol_name
  rw [labels_code, mem_append, mem_map, mem_map]
  rintro (⟨c, -, hc⟩ | ⟨s, -, hs⟩)
  · refine hdot ?_
    rw [← hc]
    simp [Function.blockLabel, String.toList_append]
  · refine hdot ?_
    rw [← hs]
    simp [stubLabel, Function.edgeLabel, String.toList_append]

end Placed

end SsaBackend
