import SsaBackend.Proofs.Schedule.Freshness

/-!
# Selection where instructions compute in registers only

Such machines differ in their instructions and not in how code is put together from them: operands that
are not in registers are read into temporaries, and results that go to the stack are computed in
another one. `LoadStore` has the pieces and `LoadStore.lower` the code. What is judged of the pieces
holds of the code of every step (`Carries.lower`), be it a property of single instructions
(`Judgement.each`) or of the way that registers are used.
-/

namespace SsaBackend

open List

structure LoadStore (α : Type) where
  target : Target
  /-- The first operand, and words on their way from memory to memory. -/
  left : Register
  /-- The second operand. -/
  right : Register
  /-- Results on their way to memory. -/
  result : Register
  literal : Register → Int64 → List α
  copy : Register → Register → α
  /-- Makes the word at an offset from the stack pointer addressable. -/
  point : Nat → List α
  loadWord : Register → Nat → α
  storeWord : Register → Nat → α
  /-- Loads a parameter that was passed on the stack. -/
  fetch : Register → Nat → α
  /-- Stores a word at the address in a register. -/
  storeAt : Register → Register → α
  /-- Computes a register from another one and an operand. -/
  compute : Frame → BinOp → Register → Register → Operand → List α
  call : String → α
  jump : String → α
  branch : Register → String → α

namespace LoadStore

variable {α : Type}
variable {m : LoadStore α} {s : Step}

section Code

variable (m : LoadStore α) (f : Frame)

/-- Loads a word at an offset from the stack pointer. -/
def load (dst : Register) (offset : Nat) : List α := m.point offset ++ [m.loadWord dst offset]

/-- Stores a word at an offset from the stack pointer. -/
def store (src : Register) (offset : Nat) : List α := m.point offset ++ [m.storeWord src offset]

def loadReg (dst : Register) : Operand → List α
  | .immediate value => m.literal dst value
  | .register r => if dst = r then [] else [m.copy dst r]
  | .stack slot => m.load dst (f.spillOffset slot)

def read (scratch : Register) : Operand → List α × Register
  | .register r => ([], r)
  | o => (m.loadReg f scratch o, scratch)

def write (src : Register) : Operand → List α
  | .immediate _ => []
  | .register r => if r = src then [] else [m.copy r src]
  | .stack slot => m.store src (f.spillOffset slot)

def move (dst src : Operand) : List α :=
  if dst = src then []
  else
    match dst with
    | .register r => m.loadReg f r src
    | dst => (m.read f m.left src).1 ++ m.write f (m.read f m.left src).2 dst

def workReg : Operand → Register
  | .register r => r
  | _ => m.result

def binop (op : BinOp) (dst lhs rhs : Operand) : List α :=
  (m.read f m.left lhs).1 ++ m.compute f op (m.workReg dst) (m.read f m.left lhs).2 rhs ++
    m.write f (m.workReg dst) dst

def storeOperand (addr src : Operand) : List α :=
  (m.read f m.left addr).1 ++ (m.read f m.right src).1 ++
    [m.storeAt (m.read f m.right src).2 (m.read f m.left addr).2]

def pass (index : Nat) (arg : Operand) : List α :=
  (m.read f m.left arg).1 ++ m.store (m.read f m.left arg).2 (index * m.target.wordSize)

def invoke (callee : String) (args : List Operand) (dst : Option Operand) : List α :=
  ((args.drop m.target.argRegs.length).zipIdx.flatMap fun a => m.pass f a.2 a.1) ++
    ((m.target.argRegs.zip args).flatMap fun a => m.loadReg f a.1 a.2) ++
    [m.call callee] ++ dst.elim [] (m.write f m.target.retReg)

def incoming (index : Nat) : Operand → List α
  | .register r => [m.fetch r index]
  | dst => m.fetch m.left index :: m.write f m.left dst

def lower : Step → List α
  | .label _ | .epilogue => []
  | .incoming index dst => m.incoming f index dst
  | .move dst src => m.move f dst src
  | .binop op dst lhs rhs => m.binop f op dst lhs rhs
  | .store addr src => m.storeOperand f addr src
  | .call callee args dst => m.invoke f callee args dst
  | .jump label => [m.jump label]
  | .branchIf cond label => (m.read f m.left cond).1 ++ [m.branch (m.read f m.left cond).2 label]

end Code

structure Judgement (α : Type) where
  Holds : Set Register → List α → Set Register → Prop
  nil {fresh fresh' : Set Register} : fresh' ⊆ fresh → Holds fresh [] fresh'
  append {fresh fresh' fresh'' : Set Register} {is is' : List α} :
    Holds fresh is fresh' → Holds fresh' is' fresh'' → Holds fresh (is ++ is') fresh''

namespace Judgement

def each (P : α → Prop) : Judgement α where
  Holds _ is _ := ∀ i ∈ is, P i
  nil _ := by simp
  append h h' := forall_mem_append.2 ⟨h, h'⟩

variable {J : Judgement α} {fresh fresh' fresh'' : Set Register}

theorem weaken {is : List α} (h : J.Holds fresh is fresh') (hsub : fresh'' ⊆ fresh') :
    J.Holds fresh is fresh'' := by
  have h' := J.append h (J.nil hsub)
  rwa [append_nil] at h'

theorem flatMap {β : Type} {l : List β} {g : β → List α} (h : ∀ x ∈ l, J.Holds fresh (g x) fresh) :
    J.Holds fresh (l.flatMap g) fresh := by
  induction l with
  | nil => exact J.nil (Set.Subset.refl _)
  | cons x l ih =>
    obtain ⟨hx, hl⟩ := forall_mem_cons.1 h
    rw [flatMap_cons]
    exact J.append hx (ih hl)

end Judgement

structure CarriesOperands (m : LoadStore α) (J : Judgement α) (f : Frame) (ok : Operand → Prop)
    (work base : Set Register) : Prop where
  left : m.left ∈ work
  right : m.right ∈ work
  result : m.result ∈ work
  register {r : Register} : ok (.register r) → r ∈ work
  literal {F : Set Register} {dst : Register} (value : Int64) : dst ∈ work →
    J.Holds F (m.literal dst value) (insert dst F)
  copy {F : Set Register} {dst src : Register} : dst ∈ work → src ∈ work → src ∈ F →
    J.Holds F [m.copy dst src] (insert dst F)
  load {F : Set Register} {dst : Register} {slot : Nat} : base ⊆ F → dst ∈ work → ok (.stack slot) →
    J.Holds F (m.load dst (f.spillOffset slot)) (insert dst F)
  store {F : Set Register} {src : Register} {slot : Nat} : base ⊆ F → src ∈ work → src ∈ F →
    ok (.stack slot) → J.Holds F (m.store src (f.spillOffset slot)) F

namespace CarriesOperands

variable {m : LoadStore α} {J : Judgement α} {f : Frame} {ok : Operand → Prop}
  {work base F : Set Register} {o : Operand}

theorem insert_subset (hbase : base ⊆ F) (r : Register) : base ⊆ insert r F :=
  Set.Subset.trans hbase (Set.subset_insert _ _)

theorem union_subset_insert (r : Register) (F : Set Register) :
    F ∪ {r' | Operand.register r = .register r'} ⊆ insert r F := by
  rintro r' (hr' | hr')
  · exact Set.mem_insert_of_mem _ hr'
  · cases hr'
    exact Set.mem_insert _ _

variable (h : m.CarriesOperands J f ok work base) (hbase : base ⊆ F) (ho : ok o)

include h hbase ho

theorem loadReg {dst : Register} (hdst : dst ∈ work) (hfresh : o.FreshIn F) :
    J.Holds F (m.loadReg f dst o) (insert dst F) := by
  cases o with
  | immediate value => exact h.literal value hdst
  | register r =>
    simp only [LoadStore.loadReg]
    split
    · next heq => exact J.nil (heq ▸ Set.insert_subset hfresh (Set.Subset.refl _))
    · exact h.copy hdst (h.register ho) hfresh
  | stack slot => exact h.load hbase hdst ho

theorem read {scratch : Register} (hscratch : scratch ∈ work) (hfresh : o.FreshIn F) :
    J.Holds F (m.read f scratch o).1 (insert (m.read f scratch o).2 F) ∧
      (m.read f scratch o).2 ∈ work := by
  cases o with
  | register r => exact ⟨J.nil (Set.insert_subset hfresh (Set.Subset.refl _)), h.register ho⟩
  | immediate | stack => exact ⟨h.loadReg hbase ho hscratch hfresh, hscratch⟩

theorem write {src : Register} (hsrc : src ∈ work) (hfresh : src ∈ F) :
    J.Holds F (m.write f src o) (F ∪ {r | o = .register r}) := by
  cases o with
  | immediate value => exact J.nil (Set.union_subset (Set.Subset.refl _) (by simp))
  | register r =>
    have hself := union_subset_insert r F
    simp only [LoadStore.write]
    split
    · next heq =>
      exact J.nil (Set.Subset.trans hself (Set.insert_subset (heq ▸ hfresh) (Set.Subset.refl _)))
    · exact J.weaken (h.copy (h.register ho) hsrc hfresh) hself
  | stack slot =>
    exact J.weaken (h.store hbase hsrc hfresh ho) (Set.union_subset (Set.Subset.refl _) (by simp))

omit hbase in
theorem workReg_mem : m.workReg o ∈ work := by
  cases o with
  | register r => exact h.register ho
  | immediate | stack => exact h.result

end CarriesOperands

structure Carries (m : LoadStore α) (J : Judgement α) (f : Frame) (ok : Operand → Prop)
    (work base : Set Register) (s : Step) : Prop extends m.CarriesOperands J f ok work base where
  operands : ∀ o ∈ s.operands, ok o
  args : ∀ r ∈ m.target.argRegs, r ∈ work
  ret : m.target.retReg ∈ work ∧ m.target.retReg ∈ base
  fetch {F : Set Register} {dst : Register} {index : Nat} {o : Operand} : s = .incoming index o →
    base ⊆ F → dst ∈ work → J.Holds F [m.fetch dst index] (insert dst F)
  compute {F : Set Register} {op : BinOp} {dst lhs rhs : Operand} {w l : Register} :
    s = .binop op dst lhs rhs → base ⊆ F → w ∈ work → l ∈ work → l ∈ F → rhs.FreshIn F →
    J.Holds F (m.compute f op w l rhs) (insert w F)
  storeAt {F : Set Register} {src dst : Register} : src ∈ work → src ∈ F → dst ∈ work → dst ∈ F →
    J.Holds F [m.storeAt src dst] F
  pass {F : Set Register} {src : Register} {index : Nat} : index < s.args.length - m.target.argRegs.length →
    base ⊆ F → src ∈ work → src ∈ F → J.Holds F (m.store src (index * m.target.wordSize)) F
  call {F : Set Register} {callee : String} {as : List Operand} {dst : Option Operand} :
    s = .call callee as dst → J.Holds F [m.call callee] base
  jump {F : Set Register} {label : String} : s = .jump label → J.Holds F [m.jump label] F
  branch {F : Set Register} {r : Register} {o : Operand} {label : String} : s = .branchIf o label →
    r ∈ work → r ∈ F → J.Holds F [m.branch r label] F

namespace Carries

open CarriesOperands (insert_subset union_subset_insert)

variable {m : LoadStore α} {J : Judgement α} {f : Frame} {ok : Operand → Prop}
  {work base F : Set Register} (hbase : base ⊆ F)

include hbase

theorem move {dst src : Operand} (h : m.Carries J f ok work base (.move dst src))
    (hfresh : src.FreshIn F) : J.Holds F (m.move f dst src) (F ∪ {r | dst = .register r}) := by
  have hdst : ok dst := h.operands dst (by simp [Step.operands])
  have hsrc : ok src := h.operands src (by simp [Step.operands])
  unfold LoadStore.move
  split
  · next heq =>
    refine J.nil (Set.union_subset (Set.Subset.refl _) fun r hr => ?_)
    rw [← heq, hr] at hfresh
    exact hfresh
  · cases dst with
    | register r =>
      exact J.weaken (h.loadReg hbase hsrc (h.register hdst) hfresh) (union_subset_insert r F)
    | immediate | stack =>
      obtain ⟨hread, hwork⟩ := h.read hbase hsrc h.left hfresh
      refine J.append hread (J.weaken
        (h.write (insert_subset hbase _) hdst hwork (Set.mem_insert _ _)) ?_)
      exact Set.union_subset_union_left _ (Set.subset_insert _ _)

theorem binop {op : BinOp} {dst lhs rhs : Operand}
    (h : m.Carries J f ok work base (.binop op dst lhs rhs)) (hleft : lhs.FreshIn F)
    (hright : rhs.FreshIn F) :
    J.Holds F (m.binop f op dst lhs rhs) (F ∪ {r | dst = .register r}) := by
  have hdst : ok dst := h.operands dst (by simp [Step.operands])
  obtain ⟨hread, hl⟩ := h.read hbase (h.operands lhs (by simp [Step.operands])) h.left hleft
  have hw := h.workReg_mem hdst
  have hcompute := h.compute rfl (insert_subset hbase _) hw hl (Set.mem_insert _ _)
    (hright.mono (Set.subset_insert _ _))
  refine J.append (J.append hread hcompute) (J.weaken (h.write
    (insert_subset (insert_subset hbase _) _) hdst hw (Set.mem_insert _ _)) ?_)
  exact Set.union_subset_union_left _ (insert_subset (Set.subset_insert _ _) _)

theorem storeOperand {addr src : Operand} (h : m.Carries J f ok work base (.store addr src))
    (hleft : addr.FreshIn F) (hright : src.FreshIn F) : J.Holds F (m.storeOperand f addr src) F := by
  obtain ⟨hread, hl⟩ := h.read hbase (h.operands addr (by simp [Step.operands])) h.left hleft
  obtain ⟨hread', hr⟩ := h.read (insert_subset hbase (m.read f m.left addr).2)
    (h.operands src (by simp [Step.operands])) h.right (hright.mono (Set.subset_insert _ _))
  refine J.append (J.append hread hread') (J.weaken (h.storeAt hr (Set.mem_insert _ _) hl ?_) ?_)
  · exact Set.mem_insert_of_mem _ (Set.mem_insert _ _)
  · exact insert_subset (Set.subset_insert _ _) _

theorem invoke {callee : String} {args : List Operand} {dst : Option Operand}
    (h : m.Carries J f ok work base (.call callee args dst)) (hfresh : ∀ a ∈ args, a.FreshIn F) :
    J.Holds F (m.invoke f callee args dst) (base ∪ {r | dst = some (.register r)}) := by
  have hok : ∀ a ∈ args, ok a := fun a ha => h.operands a (mem_append_left _ ha)
  have hstack : J.Holds F ((args.drop m.target.argRegs.length).zipIdx.flatMap fun a =>
      m.pass f a.2 a.1) F := by
    refine J.flatMap fun a ha => ?_
    have hmem : a.1 ∈ args := mem_of_mem_drop (fst_mem_of_mem_zipIdx ha)
    have hindex := snd_lt_of_mem_zipIdx ha
    rw [length_drop] at hindex
    obtain ⟨hread, hl⟩ := h.read hbase (hok _ hmem) h.left (hfresh _ hmem)
    exact J.append hread (J.weaken (h.pass hindex (insert_subset hbase _) hl (Set.mem_insert _ _))
      (Set.subset_insert _ _))
  have hregs : J.Holds F ((m.target.argRegs.zip args).flatMap fun a => m.loadReg f a.1 a.2) F := by
    refine J.flatMap fun a ha => ?_
    obtain ⟨hreg, harg⟩ := of_mem_zip (show (a.1, a.2) ∈ _ from ha)
    exact J.weaken (h.loadReg hbase (hok _ harg) (h.args _ hreg) (hfresh _ harg))
      (Set.subset_insert _ _)
  refine J.append (J.append (J.append hstack hregs) (h.call rfl)) ?_
  cases dst with
  | none => exact J.nil (Set.union_subset (Set.Subset.refl _) (by simp))
  | some d =>
    have hd : ok d := h.operands d (mem_append_right _ (by simp))
    simpa using h.write (Set.Subset.refl _) hd h.ret.1 h.ret.2

theorem incoming {index : Nat} {o : Operand} (h : m.Carries J f ok work base (.incoming index o)) :
    J.Holds F (m.incoming f index o) (F ∪ {r | o = .register r}) := by
  have ho : ok o := h.operands o (by simp [Step.operands])
  cases o with
  | register r => exact J.weaken (h.fetch rfl hbase (h.register ho)) (union_subset_insert r F)
  | immediate | stack =>
    refine J.append (h.fetch rfl hbase h.left) (J.weaken
      (h.write (insert_subset hbase _) ho h.left (Set.mem_insert _ _)) ?_)
    exact Set.union_subset_union_left _ (Set.subset_insert _ _)

theorem lower (h : m.Carries J f ok work base s) (hfresh : ∀ o ∈ s.reads, o.FreshIn F)
    (hlabel : ∀ name, s ≠ .label name) : J.Holds F (m.lower f s) (s.next base F) := by
  cases s with
  | label name => exact absurd rfl (hlabel name)
  | incoming index dst => exact incoming hbase h
  | move dst src => exact move hbase h (hfresh src (by simp [Step.reads]))
  | binop op dst lhs rhs =>
    exact binop hbase h (hfresh lhs (by simp [Step.reads])) (hfresh rhs (by simp [Step.reads]))
  | store addr src =>
    exact storeOperand hbase h (hfresh addr (by simp [Step.reads])) (hfresh src (by simp [Step.reads]))
  | call callee args dst => exact invoke hbase h hfresh
  | jump label => exact h.jump rfl
  | branchIf cond label =>
    obtain ⟨hread, hr⟩ := h.read hbase (h.operands cond (by simp [Step.operands])) h.left
      (hfresh cond (by simp [Step.reads]))
    exact J.append hread (J.weaken (h.branch rfl hr (Set.mem_insert _ _)) (Set.subset_insert _ _))
  | epilogue => exact J.nil (Set.Subset.refl _)

end Carries

theorem forall_mem_lower {P : α → Prop} {f : Frame} {ok : Operand → Prop} {work : Set Register}
    (h : m.Carries (.each P) f ok work Set.univ s) : ∀ i ∈ m.lower f s, P i := by
  by_cases hlabel : ∃ name, s = .label name
  · obtain ⟨name, rfl⟩ := hlabel
    simp [LoadStore.lower]
  · exact h.lower (Set.Subset.refl _) (fun o _ => o.freshIn_univ) fun name heq => hlabel ⟨name, heq⟩

/-! ### What stands in the code of steps -/

def workRegs (m : LoadStore α) (rs : List Register) : List Register :=
  [m.left, m.right, m.result, m.target.retReg] ++ m.target.argRegs ++ rs

/-- What can stand in the code of a step whose operands are in given registers. Literals, addresses
and operators have instructions of their own on each machine. -/
inductive Emitted (m : LoadStore α) (Own : α → Prop) (rs : List Register) (f : Frame) (s : Step) :
    α → Prop
  | own {i : α} (h : Own i) : Emitted m Own rs f s i
  | copy {dst src : Register} (hdst : dst ∈ m.workRegs rs) (hsrc : src ∈ m.workRegs rs) :
    Emitted m Own rs f s (m.copy dst src)
  | load {dst : Register} (hdst : dst ∈ m.workRegs rs) (offset : Nat) :
    Emitted m Own rs f s (m.loadWord dst offset)
  | fetch {dst : Register} {index : Nat} {o : Operand} (hs : s = .incoming index o)
    (hdst : dst ∈ m.workRegs rs) : Emitted m Own rs f s (m.fetch dst index)
  | store {src : Register} (hsrc : src ∈ m.workRegs rs) {offset : Nat}
    (hoffset : (∃ slot, offset = f.spillOffset slot) ∨
      ∃ index < s.args.length - m.target.argRegs.length, offset = index * m.target.wordSize) :
    Emitted m Own rs f s (m.storeWord src offset)
  | storeAt {src base : Register} (hsrc : src ∈ m.workRegs rs) (hbase : base ∈ m.workRegs rs) :
    Emitted m Own rs f s (m.storeAt src base)
  | call {callee : String} {args : List Operand} {dst : Option Operand}
    (hs : s = .call callee args dst) : Emitted m Own rs f s (m.call callee)
  | jump {label : String} (hs : s = .jump label) : Emitted m Own rs f s (m.jump label)
  | branch {r : Register} {o : Operand} {label : String} (hs : s = .branchIf o label)
    (hr : r ∈ m.workRegs rs) : Emitted m Own rs f s (m.branch r label)

/-- Spilled values and arguments are not stored where the first register is saved. -/
theorem ne_saveOffset {f : Frame} (hsize : m.target.wordSize = 8)
    (hargs : (s.args.length - m.target.argRegs.length) * 8 ≤ f.outgoingSize) (hne : f.saved ≠ [])
    {offset : Nat} (hoffset : (∃ slot, offset = f.spillOffset slot) ∨
      ∃ index < s.args.length - m.target.argRegs.length, offset = index * m.target.wordSize) :
    offset ≠ f.saveOffset 0 := by
  have hpos := length_pos_iff.2 hne
  simp only [Frame.spillOffset, Frame.saveOffset, hsize] at hoffset ⊢
  rcases hoffset with ⟨slot, hslot⟩ | ⟨index, hindex, hword⟩ <;> omega

theorem emitted_lower {Own : α → Prop} {rs : List Register} {f : Frame}
    (hs : ∀ o ∈ s.operands, o.Within rs)
    (hliteral : ∀ dst ∈ m.workRegs rs, ∀ value, ∀ i ∈ m.literal dst value, Own i)
    (hpoint : ∀ offset, ∀ i ∈ m.point offset, Own i)
    (hcompute : ∀ {op dst lhs rhs w l}, s = .binop op dst lhs rhs → w ∈ m.workRegs rs →
      l ∈ m.workRegs rs → (∀ i ∈ (m.read f m.right rhs).1, m.Emitted Own rs f s i) ∧
        (m.read f m.right rhs).2 ∈ m.workRegs rs →
      ∀ i ∈ m.compute f op w l rhs, m.Emitted Own rs f s i) :
    ∀ i ∈ m.lower f s, m.Emitted Own rs f s i := by
  have haccess : ∀ {i offset}, m.Emitted Own rs f s i →
      ∀ j ∈ m.point offset ++ [i], m.Emitted Own rs f s j := fun h =>
    forall_mem_append.2 ⟨fun i hi => .own (hpoint _ i hi), forall_mem_singleton.2 h⟩
  have hoperands : m.CarriesOperands (.each (m.Emitted Own rs f s)) f (·.Within rs)
      {r | r ∈ m.workRegs rs} Set.univ :=
    { left := mem_cons_self
      right := show m.right ∈ m.workRegs rs by simp [workRegs]
      result := show m.result ∈ m.workRegs rs by simp [workRegs]
      register := mem_append_right _
      literal := fun value hdst i hi => .own (hliteral _ hdst value i hi)
      copy := fun hdst hsrc _ => forall_mem_singleton.2 (.copy hdst hsrc)
      load := fun _ hdst _ => haccess (.load hdst _)
      store := fun _ hsrc _ _ => haccess (.store hsrc (.inl ⟨_, rfl⟩)) }
  exact forall_mem_lower
    { hoperands with
      operands := hs
      args := fun r hr => show r ∈ m.workRegs rs by simp [workRegs, hr]
      ret := ⟨show m.target.retReg ∈ m.workRegs rs by simp [workRegs], trivial⟩
      fetch := fun heq _ hdst => forall_mem_singleton.2 (.fetch heq hdst)
      compute := fun heq hbase hw hl _ hfresh => hcompute heq hw hl
        (hoperands.read hbase (hs _ (by simp [heq, Step.operands])) hoperands.right hfresh)
      storeAt := fun hsrc _ hbase _ => forall_mem_singleton.2 (.storeAt hsrc hbase)
      pass := fun hindex _ hsrc _ => haccess (.store hsrc (.inr ⟨_, hindex, rfl⟩))
      call := fun heq => forall_mem_singleton.2 (.call heq)
      jump := fun heq => forall_mem_singleton.2 (.jump heq)
      branch := fun heq hr _ => forall_mem_singleton.2 (.branch heq hr) }

end LoadStore

end SsaBackend
