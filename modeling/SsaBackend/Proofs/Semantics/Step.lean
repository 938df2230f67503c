import SsaBackend.Isa
import SsaBackend.Proofs.Frame
import SsaBackend.Proofs.Schedule.Names
import SsaBackend.Proofs.Semantics
import SsaBackend.Proofs.Semantics.Stack

/-!
# What a step does to a machine

A step of a schedule reads operands, computes, and writes an operand (`Arch.perform`). An operand is a
literal, a register, or a word of the spill area, which lies at a fixed distance from the frame pointer
on amd64 and from the stack pointer elsewhere. Nothing is said here of the instructions that carry a
step out: they have to lead to the same state, but for the registers that they may use as they like
(`Asm.State.Agree`).
-/

namespace SsaBackend

open Asm

variable {step : Step} {arch : Arch} {o : Operand} {word : Int64} {f : Frame}

/-! ### Operators -/

/-- One if a condition holds, and zero otherwise. -/
def truth (p : Prop) [Decidable p] : Int64 := if p then 1 else 0

/-- The word that an operator computes. Arithmetic wraps around, quotients are rounded towards zero,
and words are compared as signed numbers. -/
def BinOp.value : BinOp → Int64 → Int64 → Int64
  | add, x, y => x + y
  | sub, x, y => x - y
  | mul, x, y => x * y
  | div, x, y => Int64.ofInt (x.toInt.tdiv y.toInt)
  | and, x, y => x &&& y
  | or, x, y => x ||| y
  | xor, x, y => x ^^^ y
  | eq, x, y => truth (x = y)
  | ne, x, y => truth (x ≠ y)
  | lt, x, y => truth (x.toInt < y.toInt)
  | le, x, y => truth (x.toInt ≤ y.toInt)
  | gt, x, y => truth (x.toInt > y.toInt)
  | ge, x, y => truth (x.toInt ≥ y.toInt)

namespace Arch

/-- Whether an operator has a result: there is no quotient by zero, and on amd64 none that does not fit
a word. -/
def Computes (arch : Arch) (op : BinOp) (x y : Int64) : Prop :=
  op = .div → y ≠ 0 ∧ (arch = amd64 → ¬(x = Int64.minValue ∧ y = -1))

instance (arch : Arch) (op : BinOp) (x y : Int64) : Decidable (arch.Computes op x y) :=
  inferInstanceAs (Decidable (op = .div → _))

/-! ### Operands -/

/-- The register from which the words of the spill area are addressed. -/
def slotBase : Arch → Register
  | amd64 => "rbp"
  | arm64 | riscv64 => "sp"

/-- How far from that register a word of the spill area lies: below it on amd64, and above it
elsewhere. -/
def slotDistance (arch : Arch) (f : Frame) (slot : Nat) : Nat :=
  match arch with
  | amd64 => f.saved.length * 8 + slot + 8
  | arm64 | riscv64 => f.spillOffset slot

/-- The address of a word of the spill area. -/
def slotAddress (arch : Arch) (f : Frame) (s : State) (slot : Nat) : Int64 :=
  match arch with
  | amd64 => below (s.get amd64.slotBase) (amd64.slotDistance f slot)
  | arm64 => s.get arm64.slotBase + Int64.ofNat (arm64.slotDistance f slot)
  | riscv64 => s.get riscv64.slotBase + Int64.ofNat (riscv64.slotDistance f slot)

variable (arch : Arch) (f : Frame) (s : State)

/-- The word that an operand stands for; `none` for a word of the spill area that was never written. -/
def readOperand : Operand → Option Int64
  | .immediate word => some word
  | .register r => some (s.get r)
  | .stack slot => s.load (arch.slotAddress f s slot)

/-- Writes an operand; literals cannot be written. -/
def writeOperand (word : Int64) : Operand → Option State
  | .immediate _ => none
  | .register r => some (s.set r word)
  | .stack slot => s.store (arch.slotAddress f s slot) word

variable {arch f s}

end Arch

/-! ### Up to some registers -/

namespace Asm

/-- The states are the same but for some registers and for what was compared last. -/
structure State.Agree (but : List Register) (s s' : State) : Prop where
  get : ∀ r, isPlain r = true → r ∉ but → s'.get r = s.get r
  memory : s'.memory = s.memory
  trace : s'.trace = s.trace

/-- The effects are the same but for some registers and for what was compared last. -/
inductive Effect.Agree (but : List Register) : Effect → Effect → Prop
  | next {s s' : State} (h : s.Agree but s') : Agree but (.next s) (.next s')
  | jump {label : String} {s s' : State} (h : s.Agree but s') :
      Agree but (.jump label s) (.jump label s')
  | ret {address : Int64} {s s' : State} (h : s.Agree but s') :
      Agree but (.ret address s) (.ret address s')

/-- The code runs to an effect with a given property. -/
def Ends (exec : Exec) (code : List Cell) (s : State) (P : Effect → Prop) : Prop :=
  ∃ e, straight exec code s = some e ∧ P e

theorem Leads.ends {exec : Exec} {code : List Cell} {s : State} {Q : State → Prop}
    {P : Effect → Prop} (h : Leads exec code s Q) (hP : ∀ s', Q s' → P (.next s')) :
    Ends exec code s P := by
  obtain ⟨s', hs, hq⟩ := h
  exact ⟨.next s', hs, hP s' hq⟩

theorem Leads.endsWith {exec : Exec} {code : List Cell} {s : State} {Q : State → Prop}
    {P : Effect → Prop} (h : Leads exec code s Q) {m : String} {ops : List String}
    (hlast : ∀ s', Q s' → ∃ e, exec m ops s' = some e ∧ P e) :
    Ends exec (code ++ [.instr m ops]) s P := by
  obtain ⟨s', hs, hq⟩ := h
  obtain ⟨e, he, hP⟩ := hlast s' hq
  refine ⟨e, ?_, hP⟩
  rw [straight_append, hs]
  cases e <;> simp [straight, Effect.andThen, he]

theorem Wrote.agree {top : Int64} {changed : List Register} {s s' : State}
    (h : Wrote top changed [] s s') : s.Agree changed s' := ⟨h.get, h.memory, h.trace⟩

theorem State.Agree.wrote {but : List Register} {s s' : State} (h : s.Agree but s') (top : Int64) :
    Wrote top but [] s s' := ⟨h.get, h.memory, h.trace⟩

namespace State.Agree

variable {but but' : List Register} {s s' s'' : State} {r : Register}

theorem refl (but : List Register) (s : State) : s.Agree but s := ⟨fun _ _ _ => rfl, rfl, rfl⟩

theorem trans (h : s.Agree but s') (h' : s'.Agree but s'') : s.Agree but s'' where
  get r hr hmem := (h'.get r hr hmem).trans (h.get r hr hmem)
  memory := h'.memory.trans h.memory
  trace := h'.trace.trans h.trace

theorem mono (h : s.Agree but s') (hsub : ∀ r ∈ but, r ∈ but') : s.Agree but' s' where
  get r hr hmem := h.get r hr fun hb => hmem (hsub r hb)
  memory := h.memory
  trace := h.trace

theorem flags (but : List Register) (s : State) (flags : Int64 × Int64) :
    s.Agree but { s with flags := flags } := ⟨fun _ _ _ => rfl, rfl, rfl⟩

theorem touch (hr : isPlain r = true) (hmem : r ∈ but) (word : Int64) (s : State) :
    s.Agree but (s.set r word) where
  get _ hr' hmem' := State.get_set_of_ne hr hr' fun heq => hmem' (heq ▸ hmem)
  memory := State.memory_set
  trace := State.trace_set

theorem set (hr : isPlain r = true) (h : s.Agree (r :: but) s') (word : Int64) :
    (s.set r word).Agree but (s'.set r word) where
  get r' hr' hmem := by
    by_cases heq : r' = r
    · rw [heq, State.get_set_self hr, State.get_set_self hr]
    · rw [State.get_set_of_ne hr hr' heq, State.get_set_of_ne hr hr' heq]
      exact h.get r' hr' (by simp [heq, hmem])
  memory := by rw [State.memory_set, State.memory_set, h.memory]
  trace := by rw [State.trace_set, State.trace_set, h.trace]

theorem load (h : s.Agree but s') (address : Int64) : s'.load address = s.load address := by
  rw [State.load, State.load, h.memory]

theorem store (h : s.Agree but s') {address : Int64} {t : State}
    (hstore : s.store address word = some t) :
    ∃ t', s'.store address word = some t' ∧ t.Agree but t' := by
  unfold State.store at hstore ⊢
  split at hstore
  · next haligned =>
    cases hstore
    refine ⟨_, if_pos haligned, h.get, ?_, h.trace⟩
    simp only [State.poke, h.memory]
  · cases hstore

end State.Agree

/-! ### Words of a frame -/

section Words

variable {exec : Exec} {s t : State} {but : List Register} {m : String} {ops : List String}
  {point : List Cell} {loc : State → Int64} {address x : Int64} {dst src : Register}
  (hpoint : Leads exec point s fun s' => loc s' = address ∧ s.Agree but s')
include hpoint

theorem Leads.loadAt (hdst : isPlain dst = true) (hload : s.load address = some x)
    (hexec : ∀ s', s'.load (loc s') = some x → exec m ops s' = some (.next (s'.set dst x))) :
    Leads exec (point ++ [.instr m ops]) s ((s.set dst x).Agree but) := by
  refine hpoint.append fun s₁ ⟨haddress, hagree⟩ => .instr (hexec s₁ ?_) ?_
  · rw [haddress, hagree.load, hload]
  · exact (hagree.mono fun r => List.mem_cons_of_mem dst).set hdst x

theorem Leads.storeAt (hsrc : isPlain src = true ∧ src ∉ but)
    (hstore : s.store address (s.get src) = some t)
    (hexec : ∀ s' t', s'.store (loc s') (s'.get src) = some t' → exec m ops s' = some (.next t')) :
    Leads exec (point ++ [.instr m ops]) s (t.Agree but) := by
  refine hpoint.append fun s₁ ⟨haddress, hagree⟩ => ?_
  obtain ⟨t', hstore', hagree'⟩ := hagree.store hstore
  refine .instr (hexec s₁ t' ?_) hagree'
  rw [haddress, hagree.get src hsrc.1 hsrc.2, hstore']

end Words

/-- Code that loads or stores a free register at an offset from the stack pointer, and changes no
register besides but a scratch one. -/
structure Access (exec : Exec) (t : Target) (isFree : Register → Bool) (scratch : Register)
    (loadSp storeSp : Register → Nat → List Cell) : Prop where
  scratch_ne : "sp" ∉ [scratch]
  free : ∀ {r}, isFree r = true → (isPlain r = true ∧ r ∉ [scratch]) ∧ "sp" ≠ r
  saved : ∀ {r}, r ∈ t.calleeSaved → isFree r = true
  load : ∀ {s : State} {r offset x}, isFree r = true → offset < 2 ^ 32 →
    s.load (s.get "sp" + Int64.ofNat offset) = some x →
    Leads exec (loadSp r offset) s ((s.set r x).Agree [scratch])
  store : ∀ {s t : State} {r offset}, isFree r = true → offset < 2 ^ 32 →
    s.store (s.get "sp" + Int64.ofNat offset) (s.get r) = some t →
    Leads exec (storeSp r offset) s (t.Agree [scratch])

namespace Access

variable {exec : Exec} {t : Target} {isFree : Register → Bool} {scratch r : Register}
  {loadSp storeSp : Register → Nat → List Cell} {s : State} {top : Int64} {n offset : Nat} {f : Frame}
  (h : Access exec t isFree scratch loadSp storeSp) (haligned : top.toInt % 8 = 0)

include h haligned

section Word

variable (hr : isFree r = true) (hn : n < 2 ^ 32) (hle : offset ≤ n) (hword : (n - offset) % 8 = 0)
  (hsp : s.get "sp" = below top n)

include hr hn hle hword hsp

theorem stores : Leads exec (storeSp r offset) s fun s' =>
    s'.get "sp" = below top n ∧ Wrote top [scratch] [(n - offset, s.get r)] s s' := by
  have hstore := store_offset haligned hle hword hsp (s.get r)
  refine (h.store hr (by omega) hstore).mono fun s' hagree => ⟨?_, ?_⟩
  · exact (hagree.get "sp" (by decide) h.scratch_ne).trans hsp
  · exact (Wrote.poke top _ _ _ s).trans (hagree.wrote top)

theorem loads (old : Register → Int64) (hold : s.memory (below top (n - offset)) = some (old r)) :
    Leads exec (loadSp r offset) s fun s' =>
      s'.get "sp" = below top n ∧ Restored old [r] [scratch] s s' := by
  have hload := (load_offset haligned hle hword hsp).trans hold
  obtain ⟨hplain, hne⟩ := h.free hr
  refine (h.load hr (by omega) hload).mono fun s' hagree => ⟨?_, ?_⟩
  · rw [hagree.get "sp" (by decide) h.scratch_ne, State.get_set_of_ne hplain.1 (by decide) hne, hsp]
  · exact (Restored.set _ hplain.1 rfl s).trans ((hagree.wrote 0).restored old)
      (List.forall_mem_singleton.2 hplain)

end Word

variable (hlaid : f.WellLaid t) (hsp : s.get "sp" = below top f.size)

include hlaid hsp

theorem saveRegs :
    Leads exec (f.saved.zipIdx.flatMap fun r => storeSp r.1 (f.saveOffset r.2)) s fun s' =>
      s'.get "sp" = below top f.size ∧
        Wrote top [scratch] (regWords f.saveDepth 0 f.saved s) s s' := by
  have hfree := fun r hr => h.saved (hlaid.saved r hr)
  refine Leads.stores (fun _ s' => s'.get "sp" = below top f.size) f.saveDepth
    (fun r hr => (h.free (hfree r hr)).1) (fun p hp s' hsp' => ?_) hsp
  obtain ⟨hoffset, hword, -, -⟩ := hlaid.saveDepth_facts (List.snd_lt_of_mem_zipIdx hp)
  exact h.stores haligned (hfree p.1 (List.fst_mem_of_mem_zipIdx hp)) hlaid.size_lt hoffset hword hsp'

theorem restoreRegs (old : Register → Int64) (hwords : ∀ p ∈ f.saved.zipIdx,
      s.memory (below top (f.saveDepth p.2)) = some (old p.1)) :
    Leads exec (f.saved.zipIdx.flatMap fun r => loadSp r.1 (f.saveOffset r.2)) s fun s' =>
      s'.get "sp" = below top f.size ∧ Restored old f.saved [scratch] s s' := by
  have hfree := fun r hr => h.saved (hlaid.saved r hr)
  refine (Leads.loads (fun s' => s'.get "sp" = below top f.size ∧ s'.memory = s.memory)
    (fun r hr => (h.free (hfree r hr)).1) (fun p hp s' ⟨hsp', hmem'⟩ => ?_) ⟨hsp, rfl⟩).mono
    fun s' h => ⟨h.1.1, h.2⟩
  obtain ⟨hoffset, hword, -, -⟩ := hlaid.saveDepth_facts (List.snd_lt_of_mem_zipIdx hp)
  refine (h.loads haligned (hfree p.1 (List.fst_mem_of_mem_zipIdx hp)) hlaid.size_lt hoffset hword
    hsp' old (hmem' ▸ hwords p hp)).mono fun s'' h => ?_
  exact ⟨⟨h.1, h.2.memory.trans hmem'⟩, h.2⟩

end Access

end Asm

/-! ### Operands up to some registers -/

namespace Arch

variable {arch : Arch} {f : Frame} {s s' t : State} {but : List Register}

theorem slotAddress_congr (h : s'.get arch.slotBase = s.get arch.slotBase) (slot : Nat) :
    arch.slotAddress f s' slot = arch.slotAddress f s slot := by
  cases arch <;> simp only [slotAddress, h]

theorem isPlain_slotBase (arch : Arch) : isPlain arch.slotBase = true := by cases arch <;> decide

theorem readOperand_of_agree (h : s.Agree but s') (hbase : arch.slotBase ∉ but)
    (ho : ∀ r, o = .register r → isPlain r = true ∧ r ∉ but) :
    arch.readOperand f s' o = arch.readOperand f s o := by
  cases o with
  | immediate word => rfl
  | register r =>
    obtain ⟨hplain, hmem⟩ := ho r rfl
    exact congrArg some (h.get r hplain hmem)
  | stack slot =>
    rw [readOperand, slotAddress_congr (h.get _ arch.isPlain_slotBase hbase), h.load, readOperand]

end Arch

/-! ### Steps that are selected -/

/-- How far the spill area can be addressed. -/
def Arch.reach : Arch → Nat
  | amd64 => 2 ^ 63
  | arm64 | riscv64 => 2 ^ 32

/-- A literal, one of some registers, or a word of the spill area that can be addressed. -/
def Operand.InReach (arch : Arch) (f : Frame) (rs : List Register) : Operand → Prop
  | immediate _ => True
  | register r => r ∈ rs
  | stack slot => arch.slotDistance f slot < arch.reach

instance (arch : Arch) (f : Frame) (rs : List Register) : DecidablePred (Operand.InReach arch f rs)
  | .immediate _ => isTrue trivial
  | .register r => inferInstanceAs (Decidable (r ∈ rs))
  | .stack slot => inferInstanceAs (Decidable (arch.slotDistance f slot < arch.reach))

/-- The step moves, computes, stores or branches with operands in reach. Values are placed in
allocatable registers; moves also fetch parameters, break cycles and return results. -/
def Step.Selectable (arch : Arch) (f : Frame) : Step → Prop
  | move dst src =>
    dst.InReach arch f arch.target.valueRegs ∧ src.InReach arch f arch.target.valueRegs
  | binop _ dst lhs rhs =>
    dst.InReach arch f arch.target.allocatable ∧ lhs.InReach arch f arch.target.allocatable ∧
      rhs.InReach arch f arch.target.allocatable
  | store addr src =>
    addr.InReach arch f arch.target.allocatable ∧ src.InReach arch f arch.target.allocatable
  | branchIf cond target => cond.InReach arch f arch.target.allocatable ∧ isReference target = true
  | _ => False

instance (arch : Arch) (f : Frame) : DecidablePred (Step.Selectable arch f)
  | .move _ _ => inferInstanceAs (Decidable (_ ∧ _))
  | .binop _ _ _ _ => inferInstanceAs (Decidable (_ ∧ _ ∧ _))
  | .store _ _ => inferInstanceAs (Decidable (_ ∧ _))
  | .branchIf _ _ => inferInstanceAs (Decidable (_ ∧ _))
  | .label _ | .incoming _ _ | .call _ _ _ | .jump _ | .epilogue => isFalse id

theorem Operand.InReach.within {rs rs' : List Register} (h : o.InReach arch f rs)
    (hsub : ∀ r ∈ rs, r ∈ rs') : o.Within rs' := by
  cases o with
  | immediate | stack => trivial
  | register r => exact hsub r h

theorem Operand.InReach.mono {rs rs' : List Register} (h : o.InReach arch f rs)
    (hsub : ∀ r ∈ rs, r ∈ rs') : o.InReach arch f rs' := by
  cases o with
  | immediate => trivial
  | register r => exact hsub r h
  | stack slot => exact h

/-- An operand in reach holds a word. -/
structure Arch.Reads (arch : Arch) (f : Frame) (rs : List Register) (s : State) (o : Operand)
    (x : Int64) : Prop where
  inReach : o.InReach arch f rs
  read : arch.readOperand f s o = some x

theorem Arch.Reads.wide {x : Int64} (h : arch.Reads f arch.target.allocatable s o x) :
    arch.Reads f arch.target.valueRegs s o x :=
  ⟨h.inReach.mono fun _ => Target.mem_valueRegs, h.read⟩

theorem Step.Selectable.proper (h : step.Selectable arch f) :
    step.Proper arch.target.valueRegs := by
  have hsub : ∀ r ∈ arch.target.allocatable, r ∈ arch.target.valueRegs := fun r =>
    Target.mem_valueRegs
  cases step with
  | move dst src => exact ⟨h.1.within fun _ => id, h.2.within fun _ => id⟩
  | binop op dst lhs rhs => exact ⟨h.1.within hsub, h.2.1.within hsub, h.2.2.within hsub⟩
  | store addr src => exact ⟨h.1.within hsub, h.2.within hsub⟩
  | branchIf cond target => exact ⟨h.1.within hsub, h.2⟩
  | label | incoming | call | jump | epilogue => cases h

namespace Arch

/-- The registers for operands and results on their way. -/
def temporaries : Arch → List Register
  | amd64 => ["rax", "rdx", "r11"]
  | arm64 => ["x9", "x10", "x11"]
  | riscv64 => ["t1", "t2", "t3"]

/-- The register for addresses that no instruction can hold. -/
def addressRegs : Arch → List Register
  | amd64 => []
  | arm64 => ["x17"]
  | riscv64 => ["t0"]

end Arch

end SsaBackend
