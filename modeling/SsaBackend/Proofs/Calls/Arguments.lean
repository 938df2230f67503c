import SsaBackend.Proofs.Arm64.Selection
import SsaBackend.Proofs.Operands
import SsaBackend.Proofs.Riscv64.Selection

/-!
# Passing arguments

While the body of a function runs, its stack pointer and its frame pointer are at fixed distances below
the stack pointer of the caller (`Arch.InBody`), and so are all words of the frame: those that it keeps
for the way back, the spill area, and what calls pass on the stack. The first two kinds lie above the
outgoing words and apart from each other, so storing outgoing words changes no operand
(`Arch.readOperand_of_wrote`).

Arguments beyond those in registers go into words that lie one above the other from the stack pointer
on (`Asm.passedWords`). They are stored first, as that may take temporaries: on amd64 they are pushed
from the last one to the first, elsewhere they go into words that the frame reserves. Then the other
arguments are loaded into their registers. None of this touches an operand that is still to be read.
-/

namespace SsaBackend

open Asm List

/-! ### The words of a frame -/

structure Frame.Roomy (t : Target) (f : Frame) : Prop extends f.WellLaid t where
  room : f.outgoingSize + f.saved.length * 8 + f.spillSize + fixedArea ≤ f.size

theorem Frame.roomy_ofAllocation {t : Target} (halign : t.stackAlign = 16) (hword : t.wordSize = 8)
    (a : Allocation) (outgoing : Nat) (hlt : (ofAllocation t a outgoing).size < 2 ^ 32) :
    (ofAllocation t a outgoing).Roomy t where
  toWellLaid := wellLaid_ofAllocation halign hword a outgoing hlt
  room := by
    simp only [ofAllocation, align, fixedArea, halign, hword]
    omega

def Operand.Seated (t : Target) (f : Frame) : Operand → Prop
  | immediate _ => True
  | register r => r ∈ t.allocatable
  | stack slot => slot % 8 = 0 ∧ slot + 8 ≤ f.spillSize

namespace Arch

/-- In the body of a function with a given frame, below the stack pointer of its caller. -/
structure InBody (arch : Arch) (f : Frame) (top : Int64) (s : State) : Prop where
  aligned : top.toInt % 16 = 0
  stackPointer : s.get arch.stackPointer = below top f.size
  framePointer : s.get arch.target.framePointer = below top arch.framePointerDepth

/-- How far below `top` the register points that slots are addressed from. -/
def baseDepth (arch : Arch) (f : Frame) : Nat :=
  match arch with
  | amd64 => amd64.framePointerDepth
  | arm64 | riscv64 => f.size

/-- How far below `top` a spill slot is. -/
def slotDepth (arch : Arch) (f : Frame) (slot : Nat) : Nat :=
  match arch with
  | amd64 => amd64.framePointerDepth + amd64.slotDistance f slot
  | arm64 => f.size - arm64.slotDistance f slot
  | riscv64 => f.size - riscv64.slotDistance f slot

variable {arch : Arch} {f : Frame} {top : Int64} {s s' t : State}

theorem InBody.slotBase (h : arch.InBody f top s) :
    s.get arch.slotBase = below top (arch.baseDepth f) := by
  cases arch with
  | amd64 => exact h.framePointer
  | arm64 | riscv64 => exact h.stackPointer

/-! ### The spill area -/

section Slots

variable (hroomy : f.Roomy arch.target) {slot : Nat} (hslot : slot % 8 = 0 ∧ slot + 8 ≤ f.spillSize)
include hroomy hslot

theorem slotDepth_facts :
    16 < arch.slotDepth f slot ∧ arch.slotDepth f slot ≤ f.size - f.outgoingSize ∧
      arch.slotDepth f slot % 8 = 0 := by
  obtain ⟨⟨-, hsize, houtgoing, -, -⟩, hroom⟩ := hroomy
  simp only [fixedArea] at hroom
  cases arch with
  | amd64 =>
    simp only [slotDepth, slotDistance, framePointerDepth]
    omega
  | arm64 | riscv64 =>
    simp only [slotDepth, slotDistance, Frame.spillOffset]
    omega

theorem slotDistance_lt_reach : arch.slotDistance f slot < arch.reach := by
  obtain ⟨⟨hlt, -, -, -, -⟩, hroom⟩ := hroomy
  cases arch <;> simp only [slotDistance, reach, Frame.spillOffset] <;> omega

theorem slotAddress_eq (hbase : s.get arch.slotBase = below top (arch.baseDepth f)) :
    arch.slotAddress f s slot = below top (arch.slotDepth f slot) := by
  have hroom := hroomy.room
  cases arch with
  | amd64 =>
    rw [slotAddress, hbase]
    exact below_below top _ _
  | arm64 | riscv64 =>
    rw [slotAddress, hbase]
    refine below_add top ?_
    simp only [slotDistance, Frame.spillOffset, baseDepth]
    omega

theorem slotDepth_ne_saveDepth {index : Nat} (hindex : index < f.saved.length) :
    arch.slotDepth f slot ≠ arch.saveDepth f index := by
  have hroom := hroomy.room
  cases arch <;>
    simp only [slotDepth, slotDistance, framePointerDepth, saveDepth, Amd64.saveDepth,
      Frame.saveDepth, Frame.saveOffset, Frame.spillOffset] <;>
    omega

theorem slotDepth_inj {slot' : Nat} (hslot' : slot' % 8 = 0 ∧ slot' + 8 ≤ f.spillSize)
    (h : arch.slotDepth f slot = arch.slotDepth f slot') : slot = slot' := by
  have hroom := hroomy.room
  cases arch <;> simp only [slotDepth, slotDistance, framePointerDepth, Frame.spillOffset] at h <;>
    omega

theorem readOperand_stack (haligned : top.toInt % 16 = 0)
    (hbase : s.get arch.slotBase = below top (arch.baseDepth f)) :
    arch.readOperand f s (.stack slot) = s.memory (below top (arch.slotDepth f slot)) := by
  rw [readOperand, slotAddress_eq hroomy hslot hbase]
  exact load_below (by omega) (slotDepth_facts hroomy hslot).2.2 s

end Slots

theorem saveDepth_le (hroomy : f.Roomy arch.target) {index : Nat} (hindex : index < f.saved.length) :
    arch.saveDepth f index ≤ f.size - f.outgoingSize := by
  have hfits := hroomy.fits
  simp only [fixedArea] at hfits
  cases arch <;>
    simp only [saveDepth, Amd64.saveDepth, Frame.saveDepth, Frame.saveOffset] <;>
    omega

/-! ### Operands -/

theorem inReach_of_seated (hroomy : f.Roomy arch.target) {o : Operand} (ho : o.Seated arch.target f) :
    o.InReach arch f arch.target.allocatable := by
  cases o with
  | immediate => trivial
  | register r => exact ho
  | stack slot => exact slotDistance_lt_reach hroomy ho

def passRegs : Arch → List Register
  | amd64 => "rsp" :: (amd64.temporaries ++ amd64.target.argRegs)
  | arm64 => arm64.temporaries ++ arm64.addressRegs ++ arm64.target.argRegs
  | riscv64 => riscv64.temporaries ++ riscv64.addressRegs ++ riscv64.target.argRegs

theorem notMem_passRegs (arch : Arch) :
    (∀ r ∈ arch.target.calleeSaved, isPlain r = true ∧ r ∉ arch.passRegs) ∧
    (∀ r ∈ [arch.slotBase, arch.target.framePointer], isPlain r = true ∧ r ∉ arch.passRegs) := by
  cases arch <;> decide

theorem mem_calleeSaved_of_mem_allocatable (arch : Arch) :
    ∀ r ∈ arch.target.allocatable, r ∈ arch.target.calleeSaved := by
  cases arch <;> decide

theorem readOperand_of_wrote (hroomy : f.Roomy arch.target) (haligned : top.toInt % 16 = 0)
    (hbase : s.get arch.slotBase = below top (arch.baseDepth f)) {words : List (Nat × Int64)}
    (h : Wrote top arch.passRegs words s s')
    (hwords : ∀ w ∈ words, f.size - f.outgoingSize < w.1 ∧ w.1 < 2 ^ 64) {o : Operand}
    (ho : o.Seated arch.target f) : arch.readOperand f s' o = arch.readOperand f s o := by
  obtain ⟨hsaved, hpointers⟩ := arch.notMem_passRegs
  cases o with
  | immediate word => rfl
  | register r =>
    obtain ⟨hplain, hmem⟩ := hsaved r (arch.mem_calleeSaved_of_mem_allocatable r ho)
    exact congrArg some (h.get r hplain hmem)
  | stack slot =>
    obtain ⟨hplain, hmem⟩ := hpointers arch.slotBase (by simp)
    have hbase' : s'.get arch.slotBase = below top (arch.baseDepth f) :=
      (h.get _ hplain hmem).trans hbase
    rw [readOperand_stack hroomy ho haligned hbase', readOperand_stack hroomy ho haligned hbase,
      h.memory]
    -- the spill area ends above the outgoing words
    refine writeBelow_of_ne fun w hw heq => ?_
    have hdepth := slotDepth_facts hroomy ho
    have hw := hwords w hw
    have hsize := hroomy.size_lt
    have := below_inj top (by omega) hw.2 heq
    omega

end Arch

variable {words : List (Nat × Int64)}

/-! ### Outgoing words -/

def Asm.passedWords (depth k : Nat) (xs : List Int64) : List (Nat × Int64) :=
  (xs.zipIdx k).map fun p => (depth - 8 * p.2, p.1)

section Words

variable {depth k : Nat} {xs : List Int64}

theorem Asm.mem_passedWords {w : Nat × Int64} :
    w ∈ passedWords depth k xs ↔ ∃ i, xs[i]? = some w.2 ∧ w.1 = depth - 8 * (k + i) := by
  simp only [passedWords, mem_map, Prod.exists, mk_mem_zipIdx_iff_le_and_getElem?_sub]
  constructor
  · rintro ⟨x, n, ⟨hle, hx⟩, rfl⟩
    exact ⟨n - k, hx, by simp only; omega⟩
  · rintro ⟨i, hx, hdepth⟩
    exact ⟨w.2, k + i, ⟨by omega, by rwa [Nat.add_sub_cancel_left]⟩, by rw [← hdepth]⟩

theorem Asm.passedWords_cons (depth k : Nat) (x : Int64) (xs : List Int64) :
    passedWords depth k (x :: xs) = (depth - 8 * k, x) :: passedWords depth (k + 1) xs := by
  simp [passedWords, zipIdx_cons]

theorem Asm.passedWords_succ (depth k : Nat) (xs : List Int64) :
    passedWords depth (k + 1) xs = passedWords (depth - 8) k xs := by
  induction xs generalizing k with
  | nil => rfl
  | cons x xs ih =>
    rw [passedWords_cons, passedWords_cons, ih]
    exact congrArg (fun n => (n, x) :: _) (by omega)

theorem Asm.passedWords_distinct (h : 8 * (k + xs.length) ≤ depth) :
    ((passedWords depth k xs).map Prod.fst).Nodup := by
  induction xs generalizing k with
  | nil => exact nodup_nil
  | cons x xs ih =>
    rw [length_cons] at h
    rw [passedWords_cons, map_cons]
    refine nodup_cons.2 ⟨fun hmem => ?_, ih (by omega)⟩
    obtain ⟨w, hw, heq⟩ := mem_map.1 hmem
    obtain ⟨i, hi, hdepth⟩ := mem_passedWords.1 hw
    have hlt := (List.getElem?_eq_some_iff.1 hi).1
    dsimp only at heq
    omega

theorem Asm.lt_of_mem_passedWords {bound : Nat} (h : bound + 8 * (k + xs.length) ≤ depth) :
    ∀ w ∈ passedWords depth k xs, bound < w.1 ∧ w.1 ≤ depth := by
  intro w hw
  obtain ⟨i, hi, hdepth⟩ := mem_passedWords.1 hw
  have hlt := (List.getElem?_eq_some_iff.1 hi).1
  omega

theorem Asm.Wrote.memory_of_mem {top : Int64} {changed : List Register} {s s' : State}
    (h : Wrote top changed words s s') (hnodup : (words.map Prod.fst).Nodup)
    (hlt : ∀ w ∈ words, w.1 < 2 ^ 64) {n : Nat} {word : Int64} (hmem : (n, word) ∈ words) :
    s'.memory (below top n) = some word := by
  rw [h.memory]
  exact writeBelow_of_mem (w := (n, word)) hnodup hlt hmem

end Words

namespace Arch

variable {arch : Arch} {f : Frame} {top : Int64} {s s' : State} {args : List Operand}
  {xs : List Int64}

theorem map_readOperand_of_wrote (hroomy : f.Roomy arch.target) (haligned : top.toInt % 16 = 0)
    (hbase : s.get arch.slotBase = below top (arch.baseDepth f))
    (h : Wrote top arch.passRegs words s s')
    (hwords : ∀ w ∈ words, f.size - f.outgoingSize < w.1 ∧ w.1 < 2 ^ 64)
    (hargs : ∀ o ∈ args, o.Seated arch.target f)
    (hread : args.map (arch.readOperand f s) = xs.map some) :
    args.map (arch.readOperand f s') = xs.map some := by
  rw [← hread]
  exact map_congr_left fun o ho =>
    readOperand_of_wrote hroomy haligned hbase h hwords (hargs o ho)

/-! ### Words that the frame reserves -/

section Reserved

variable (host : Host) (hroomy : f.Roomy arch.target) (haligned : top.toInt % 16 = 0)
  (hpointer : arch.slotBase = arch.stackPointer) {emit : Register → Nat → List Cell}
  (hemit : ∀ src ∈ arch.workRegs, ∀ offset < 2 ^ 32, ∀ s t,
    s.store (s.get arch.stackPointer + Int64.ofNat offset) (s.get src) = some t →
    Leads (arch.exec host) (emit src offset) s (t.Agree arch.addressRegs))

include hroomy haligned hpointer hemit

theorem passWord_leads (hsp : s.get arch.stackPointer = below top f.size) {o : Operand} {x : Int64}
    (ho : o.Seated arch.target f) (hread : arch.readOperand f s o = some x) {k : Nat}
    (hk : 8 * k + 8 ≤ f.outgoingSize) :
    Leads (arch.exec host)
      (arch.readCode f arch.leftReg o ++ emit (readReg arch.leftReg o) (k * 8)) s
      (Wrote top arch.passRegs [(f.size - 8 * k, x)] s) := by
  have hsub : ∀ r ∈ arch.leftReg :: arch.addressRegs, r ∈ arch.passRegs := by
    clear hroomy haligned hpointer hemit hsp ho hread
    cases arch <;> decide
  have hreach := (inReach_of_seated hroomy ho).mono fun r => Target.mem_valueRegs
  have hwork := readReg_mem_workRegs arch.leftReg_mem hreach
  refine (readCode_leads host arch.leftReg_mem ⟨hreach, hread⟩).append ?_
  rintro s₁ ⟨hagree, hword⟩
  have hsp₁ : s₁.get arch.stackPointer = below top f.size := by
    rw [← hpointer] at hsp ⊢
    refine (hagree.get _ arch.isPlain_slotBase fun hmem => ?_).trans hsp
    exact arch.slotBase_notMem (mem_scratch_of_mem arch.leftReg_mem hmem)
  have hsize := hroomy.size_lt
  have hfits := hroomy.fits
  have hmod := hroomy.size_mod
  have haddress : s₁.get arch.stackPointer + Int64.ofNat (k * 8) = below top (f.size - 8 * k) := by
    rw [hsp₁, below_add top (by omega), Nat.mul_comm]
  have hstore := store_below (show top.toInt % 8 = 0 by omega) (n := f.size - 8 * k) (by omega) s₁ x
  rw [← haddress, ← hword] at hstore
  refine (hemit _ hwork (k * 8) (by omega) s₁ _ hstore).mono fun s₂ hagree₂ => ?_
  rw [haddress, hword] at hagree₂
  exact ((hagree.wrote top).mono hsub |>.trans (.poke top _ _ _ _)).trans
    ((hagree₂.wrote top).mono fun r hr => hsub r (mem_cons_of_mem _ hr))

theorem passWords_lead (hsp : s.get arch.stackPointer = below top f.size)
    (hargs : ∀ o ∈ args, o.Seated arch.target f) (hread : args.map (arch.readOperand f s) = xs.map some)
    {k : Nat} (hfit : 8 * (k + args.length) ≤ f.outgoingSize) :
    Leads (arch.exec host) ((args.zipIdx k).flatMap fun a =>
        arch.readCode f arch.leftReg a.1 ++ emit (readReg arch.leftReg a.1) (a.2 * 8)) s fun s' =>
      s'.get arch.stackPointer = below top f.size ∧
      Wrote top arch.passRegs (passedWords f.size k xs) s s' := by
  induction args generalizing xs s k with
  | nil =>
    obtain rfl : xs = [] := by simpa using hread.symm
    exact .nil ⟨hsp, .refl top _ s⟩
  | cons o args ih =>
    cases xs with
    | nil => cases hread
    | cons x xs =>
      obtain ⟨ho, hargs⟩ := forall_mem_cons.1 hargs
      obtain ⟨hx, hread⟩ := List.cons.inj hread
      rw [length_cons] at hfit
      have hsize := hroomy.size_lt
      have hfits := hroomy.fits
      have hbase : s.get arch.slotBase = below top (arch.baseDepth f) := by
        cases arch with
        | amd64 => exact absurd hpointer (by decide)
        | arm64 | riscv64 => exact hsp
      rw [zipIdx_cons, flatMap_cons, passedWords_cons]
      refine (passWord_leads host hroomy haligned hpointer hemit hsp ho hx (by omega)).append ?_
      intro s₁ hwrote
      have hsp₁ : s₁.get arch.stackPointer = below top f.size := by
        obtain ⟨hplain, hmem⟩ := arch.notMem_passRegs.2 arch.slotBase (by simp)
        rw [hpointer] at hplain hmem
        exact (hwrote.get _ hplain hmem).trans hsp
      -- the word just stored belongs to no operand that is still to be read
      have hread₁ := map_readOperand_of_wrote hroomy haligned hbase hwrote
        (forall_mem_singleton.2 (by simp only; omega)) hargs hread
      refine (ih hsp₁ hargs hread₁ (by omega)).mono ?_
      intro s₂ hrest
      exact ⟨hrest.1, hwrote.trans hrest.2⟩

end Reserved

/-! ### Argument registers -/

theorem mem_of_mem_argRegs (arch : Arch) :
    ∀ r ∈ arch.target.argRegs, r ∈ arch.workRegs ∧ r ∈ arch.passRegs := by
  cases arch <;> decide

theorem addressRegs_subset_passRegs (arch : Arch) : ∀ r ∈ arch.addressRegs, r ∈ arch.passRegs := by
  cases arch <;> decide

theorem loadArgs_lead (host : Host) (hroomy : f.Roomy arch.target) {rs : List Register}
    (hrs : ∀ r ∈ rs, r ∈ arch.target.argRegs) (hnodup : rs.Nodup)
    (hargs : ∀ o ∈ args, o.Seated arch.target f)
    (hread : args.map (arch.readOperand f s) = xs.map some) :
    Leads (arch.exec host) ((rs.zip args).flatMap fun a => arch.loadCode f a.1 a.2) s fun s' =>
      s.Agree (rs ++ arch.addressRegs) s' ∧ ∀ p ∈ rs.zip xs, s'.get p.1 = p.2 := by
  induction rs generalizing args xs s with
  | nil => exact .nil ⟨.refl _ s, by simp⟩
  | cons r rs ih =>
    cases args with
    | nil =>
      obtain rfl : xs = [] := by simpa using hread.symm
      exact .nil ⟨.refl _ s, by simp⟩
    | cons o args =>
      cases xs with
      | nil => cases hread
      | cons x xs =>
        obtain ⟨hr, hrs⟩ := forall_mem_cons.1 hrs
        obtain ⟨ho, hargs⟩ := forall_mem_cons.1 hargs
        obtain ⟨hx, hread⟩ := List.cons.inj hread
        obtain ⟨hfresh, hnodup⟩ := nodup_cons.1 hnodup
        obtain ⟨hwork, hpass⟩ := arch.mem_of_mem_argRegs r hr
        obtain ⟨hplain, hfar, -⟩ := arch.facts_of_mem_workRegs r hwork
        rw [zip_cons_cons, flatMap_cons]
        have hx : arch.Reads f arch.target.allocatable s o x := ⟨inReach_of_seated hroomy ho, hx⟩
        refine (loadCode_leads host hwork hx.wide).append fun s₁ hload => ?_
        have hagree : s.Agree (r :: arch.addressRegs) s₁ :=
          (State.Agree.touch hplain (by simp) x s).trans (hload.mono fun r' => mem_cons_of_mem r)
        have hword : s₁.get r = x := (hload.get r hplain hfar).trans (State.get_set_self hplain)
        -- the other operands are in places that are not written here
        have hsub : ∀ r' ∈ r :: arch.addressRegs, r' ∈ arch.passRegs :=
          forall_mem_cons.2 ⟨hpass, arch.addressRegs_subset_passRegs⟩
        have hread₁ : args.map (arch.readOperand f s₁) = xs.map some := by
          rw [← hread]
          refine map_congr_left fun o ho => ?_
          obtain ⟨hsaved, hpointers⟩ := arch.notMem_passRegs
          refine readOperand_of_agree hagree
            (fun hmem => (hpointers _ (by simp)).2 (hsub _ hmem)) fun r' heq => ?_
          subst heq
          obtain ⟨hplain', hmem⟩ := hsaved r' (arch.mem_calleeSaved_of_mem_allocatable r' (hargs _ ho))
          exact ⟨hplain', fun hr' => hmem (hsub r' hr')⟩
        refine (ih hrs hnodup hargs hread₁).mono ?_
        rintro s₂ ⟨hagree₂, hwords⟩
        refine ⟨?_, ?_⟩
        · refine (hagree.mono fun r' hr' => ?_).trans (hagree₂.mono fun r' hr' => ?_)
          · simp only [mem_cons, cons_append, mem_append] at hr' ⊢
            exact hr'.imp_right .inr
          · exact mem_cons_of_mem _ hr'
        · rw [zip_cons_cons]
          refine forall_mem_cons.2 ⟨?_, hwords⟩
          exact (hagree₂.get r hplain (by simp [hfresh, hfar])).trans hword

end Arch

/-! ### Pushing -/

namespace Amd64

variable (host : Host) {f : Frame} {top : Int64} {s : State} (hroomy : f.Roomy Arch.amd64.target)
  (haligned : top.toInt % 16 = 0)

include hroomy haligned

theorem pushArg_leads {o : Operand} {x : Int64} (ho : o.Seated Arch.amd64.target f)
    (hread : Arch.amd64.readOperand f s o = some x) {n : Nat} (hn : n % 8 = 0)
    (hsp : s.get "rsp" = below top n) :
    Leads (exec host) (((source f o).1 ++ [Instr.pushq (source f o).2]).map Instr.cell) s fun s' =>
      s'.get "rsp" = below top (n + 8) ∧ Wrote top Arch.amd64.passRegs [(n + 8, x)] s s' := by
  have hreach := Arch.inReach_of_seated hroomy ho
  rw [map_append]
  refine (source_leads host ⟨hreach, hread⟩).append ?_
  rintro s₁ ⟨hagree, harg⟩
  have haddress : s₁.get "rsp" - 8 = below top (n + 8) := by
    rw [hagree.get _ (by decide) (by decide), hsp]
    exact below_sub top n 8
  refine .instr (Instr.exec_pushq host harg haddress (aligned_below (by omega) (by omega))) ⟨?_, ?_⟩
  · exact State.get_set_self (by decide)
  · exact ((hagree.wrote top).mono (by decide)).trans
      ((Wrote.set top (by decide) (by decide) _ s₁).trans (.poke top _ _ _ _))

theorem pushArgs_lead {args : List Operand} {xs : List Int64}
    (hargs : ∀ o ∈ args, o.Seated Arch.amd64.target f)
    (hbase : s.get "rbp" = below top 16)
    (hread : args.map (Arch.amd64.readOperand f s) = xs.map some) {n : Nat} (hn : n % 8 = 0)
    (hfit : f.size ≤ n ∧ n + 8 * args.length < 2 ^ 64) (hsp : s.get "rsp" = below top n) :
    Leads (exec host) ((args.reverse.flatMap fun o =>
        (source f o).1 ++ [Instr.pushq (source f o).2]).map Instr.cell) s fun s' =>
      s'.get "rsp" = below top (n + 8 * args.length) ∧
      Wrote top Arch.amd64.passRegs (passedWords (n + 8 * args.length) 0 xs) s s' := by
  -- the last argument is pushed first, so the induction goes from the front of the list inwards
  induction args generalizing xs with
  | nil =>
    obtain rfl : xs = [] := by simpa using hread.symm
    exact .nil ⟨hsp, .refl top _ s⟩
  | cons o args ih =>
    cases xs with
    | nil => cases hread
    | cons x xs =>
      obtain ⟨ho, hargs⟩ := forall_mem_cons.1 hargs
      obtain ⟨hx, hread⟩ := List.cons.inj hread
      have hlength : xs.length = args.length := by
        simpa using (congrArg List.length hread).symm
      rw [length_cons] at hfit
      rw [reverse_cons, flatMap_append, map_append, flatMap_singleton]
      refine (ih hargs hread (by omega)).append ?_
      rintro s₁ ⟨hsp₁, hwrote⟩
      have hinside : ∀ w ∈ passedWords (n + 8 * args.length) 0 xs, n < w.1 ∧ _ :=
        lt_of_mem_passedWords (by omega)
      have hx₁ : Arch.amd64.readOperand f s₁ o = some x := by
        refine (Arch.readOperand_of_wrote hroomy haligned hbase hwrote
          (fun w hw => ?_) ho).trans hx
        have := hinside w hw
        omega
      refine (pushArg_leads host hroomy haligned ho hx₁ (by omega) hsp₁).mono ?_
      rintro s₂ ⟨hsp₂, hwrote₂⟩
      refine ⟨hsp₂, ?_⟩
      -- the first argument was written last
      have hwords : (passedWords (n + 8 * args.length) 0 xs ++ [(n + 8 * args.length + 8, x)]).Perm
          (passedWords (n + 8 * (args.length + 1)) 0 (x :: xs)) := by
        rw [passedWords_cons, passedWords_succ]
        exact perm_append_singleton _ _
      have hall : ((passedWords (n + 8 * (args.length + 1)) 0 (x :: xs)).map Prod.fst).Nodup :=
        passedWords_distinct (by rw [length_cons]; omega)
      refine (hwrote.trans hwrote₂).perm hwords ((hwords.map _).nodup_iff.2 hall) fun w hw => ?_
      rcases mem_append.1 hw with hw | hw
      · have := hinside w hw
        omega
      · obtain rfl := mem_singleton.1 hw
        show n + 8 * args.length + 8 < 2 ^ 64
        omega

end Amd64

end SsaBackend
