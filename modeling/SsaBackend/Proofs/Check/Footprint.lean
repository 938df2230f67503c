import Mathlib.Data.Set.Insert
import SsaBackend.Proofs.Check.Follow

/-!
# Footprints of instructions

What a tracker sees of an instruction, besides how it moves the stack pointer, is its footprint: the
registers that it saves, restores, writes and reads, whether it is a call, and the value that it
leaves behind. `Tracker.pass_of_leaves` says what an instruction with a given footprint does to a
tracker. Code that does not move the stack pointer is tidy if it reads only registers that are fresh,
which no call has changed since they were written, and saves only registers that are restored later
(`Tidy`). A tracker passes tidy code without a finding about the frame (`Tidy.quiet_run`).
-/

namespace SsaBackend

open Asm Check List

variable {p : Footprint} {effects : Constants → List StackEffect}

/-! ### Registers of operands -/

namespace Dialect

variable {d : Dialect} {i : AsmInstr}

theorem written_of_none (h : d.destinations i = []) : d.written i = [] := by
  rw [written, h]
  rfl

theorem readRegisters_of_none (h : d.destinations i = []) (hlabel : d.labelOperand? i = none) :
    d.readRegisters i = i.operands.flatMap d.registers := by
  have hreads : ∀ o ∈ i.operands.zipIdx, d.readsAt i o.1 o.2 = true := fun o _ => by
    simp [readsAt, h, hlabel]
  rw [readRegisters, filter_eq_self.2 hreads, ← flatMap_map, zipIdx_map_fst]

section First

variable {dst : String} {rest : List String} (hops : i.operands = dst :: rest)
  (hdst : d.destinations i = [0]) (hmem : d.isMemory dst = false) (hreg : d.registers dst = [dst])

include hops hdst hmem hreg

theorem written_of_first : d.written i = [dst] := by
  simp [written, hdst, AsmInstr.operand?, hops, hmem, hreg]

theorem readRegisters_of_first (hlabel : d.labelOperand? i = none) :
    d.readRegisters i =
      (if d.readsDestination i then [dst] else []) ++ rest.flatMap d.registers := by
  have hrest : ∀ o ∈ rest.zipIdx 1, d.readsAt i o.1 o.2 = true := fun o ho => by
    have hpos : o.2 ≠ 0 := Nat.ne_of_gt (le_snd_of_mem_zipIdx ho)
    simp [readsAt, hdst, hlabel, hpos]
  have hfirst : d.readsAt i dst 0 = d.readsDestination i := by simp [readsAt, hdst, hlabel, hmem]
  rw [readRegisters, hops, zipIdx_cons, filter_cons, hfirst, filter_eq_self.2 hrest]
  have hregs : (rest.zipIdx 1).flatMap (fun o => d.registers o.1) = rest.flatMap d.registers := by
    rw [← flatMap_map, zipIdx_map_fst]
  split
  · rw [flatMap_cons, hregs, hreg]
  · rw [hregs, nil_append]

end First

end Dialect

/-! ### Footprints -/

structure Footprint where
  saved : List Register
  restored : List Register
  written : List Register
  read : List Register
  isCall : Bool
  /-- The value that is left in the registers that are written, if it is known. -/
  value : Constants → Option Int64

structure Dialect.Leaves (d : Dialect) (effects : Constants → List StackEffect) (p : Footprint)
    (i : AsmInstr) : Prop where
  known : d.isMnemonic i.mnemonic = true
  effects : ∀ k, d.stackEffects k i = effects k
  isReturn : d.isReturn i = false
  signs : d.signs i = false
  authenticates : d.authenticates i = false
  saved : d.saved i = p.saved
  restored : d.restored i = p.restored
  written : d.written i = p.written
  read : d.readRegisters i = p.read
  isCall : d.isCall i = p.isCall
  value : ∀ k, d.constant? k i = p.value k

def Dialect.steady (d : Dialect) : Set Register := {r | r ∉ Tracker.clobberedByCall d}

namespace Footprint

def idle : Footprint where
  saved := []
  restored := []
  written := []
  read := []
  isCall := false
  value := fun _ => none

variable (d : Dialect)

def isSetup (p : Footprint) : Bool :=
  !p.saved.isEmpty || (!p.written.isEmpty && p.written.all d.frameScratch.contains)

structure Computes (p : Footprint) : Prop where
  saved : p.saved = []
  restored : p.restored = []
  isCall : p.isCall = false

def learn (k : Constants) (p : Footprint) : Constants :=
  p.written.foldl (fun k' r => k'.set r (p.value k)) k

def next (fresh : Set Register) (p : Footprint) : Set Register :=
  if p.isCall then d.steady else fresh ∪ {r | r ∈ p.written}

end Footprint

namespace Tracker

variable (d : Dialect)
variable {t : Tracker} {i : AsmInstr}

def note (p : Footprint) (t : Tracker) : Tracker :=
  let t := if t.inPrologue then p.saved.foldl (noteSaved d) t else t
  { t with
    restored := t.restored ++ p.restored
    clobbered := if p.isCall then clobberedByCall d
      else t.clobbered.filter fun r => !p.read.contains r && !p.written.contains r
    constants := p.learn t.constants }

def leave (t : Tracker) (p : Footprint) : Tracker :=
  (if p.isSetup d then t else t.endPrologue).note d p

def staleReads (p : Footprint) (t : Tracker) : List Finding :=
  (p.read.eraseDups.filter t.clobbered.contains).map fun r => .warning (.clobberedRead r)

variable {d}

theorem note_eq (p : Footprint) (t : Tracker) :
    ∃ s fp lr, t.note d p =
        { t with
          saved := s
          framePointerSaved := fp
          linkRegisterSaved := lr
          restored := t.restored ++ p.restored
          clobbered := if p.isCall then clobberedByCall d
            else t.clobbered.filter fun r => !p.read.contains r && !p.written.contains r
          constants := p.learn t.constants } ∧
      (∀ r ∈ s, r ∈ t.saved ∨ r ∈ p.saved ∧ d.target.isCalleeSaved r = true) ∧
      (t.framePointerSaved = true → fp = true) ∧ (t.linkRegisterSaved = true → lr = true) := by
  by_cases hin : t.inPrologue = true
  · obtain ⟨s, fp, lr, heq, hsaved, hfp, hlr, -⟩ := t.foldl_noteSaved_eq (d := d) p.saved
    exact ⟨s, fp, lr, by rw [note, if_pos hin, heq], hsaved, hfp, hlr⟩
  · exact ⟨_, _, _, by rw [note, if_neg hin], fun r hr => .inl hr, id, id⟩

section Fields

variable (p : Footprint) (t : Tracker)

@[simp] theorem inPrologue_note : (t.note d p).inPrologue = t.inPrologue := by
  obtain ⟨_, _, _, heq, -⟩ := t.note_eq (d := d) p
  rw [heq]

@[simp] theorem depth_note : (t.note d p).depth = t.depth := by
  obtain ⟨_, _, _, heq, -⟩ := t.note_eq (d := d) p
  rw [heq]

@[simp] theorem bodyDepth_note : (t.note d p).bodyDepth = t.bodyDepth := by
  obtain ⟨_, _, _, heq, -⟩ := t.note_eq (d := d) p
  rw [heq]

@[simp] theorem restored_note : (t.note d p).restored = t.restored ++ p.restored := by
  obtain ⟨_, _, _, heq, -⟩ := t.note_eq (d := d) p
  rw [heq]

@[simp] theorem constants_note : (t.note d p).constants = p.learn t.constants := by
  obtain ⟨_, _, _, heq, -⟩ := t.note_eq (d := d) p
  rw [heq]

@[simp] theorem clobbered_endPrologue : t.endPrologue.clobbered = t.clobbered := by
  unfold endPrologue
  split <;> rfl

@[simp] theorem depth_endPrologue : t.endPrologue.depth = t.depth := by
  unfold endPrologue
  split <;> rfl

@[simp] theorem restored_endPrologue : t.endPrologue.restored = t.restored := by
  unfold endPrologue
  split <;> rfl

@[simp] theorem constants_endPrologue : t.endPrologue.constants = t.constants := by
  unfold endPrologue
  split <;> rfl

@[simp] theorem clobbered_applyEffect (e : StackEffect) :
    (t.applyEffect e).clobbered = t.clobbered := by
  obtain ⟨_, _, _, heq⟩ := t.applyEffect_eq e
  rw [heq]

@[simp] theorem restored_applyEffect (e : StackEffect) :
    (t.applyEffect e).restored = t.restored := by
  obtain ⟨_, _, _, heq⟩ := t.applyEffect_eq e
  rw [heq]

end Fields

/-! ### Passing instructions -/

theorem pass_of_leaves (h : d.Leaves effects p i) {t' : Tracker} {underflow : List Finding}
    (ht : (t.passSetup d (effects t.constants) i).passEffects (effects t.constants) =
      (t', underflow)) :
    t.pass d i = (t'.note d p, d.operandFindings i ++ underflow ++ t'.staleReads p) := by
  have hclobbered : (if t'.inPrologue then p.saved.foldl (noteSaved d) t' else t').clobbered =
      t'.clobbered := by
    split
    · obtain ⟨_, _, _, heq, -⟩ := t'.foldl_noteSaved_eq (d := d) p.saved
      rw [heq]
    · rfl
  rw [pass, if_pos h.known, passKnown]
  simp only [h.effects, ht, returnStack, h.isReturn, passSigning, h.signs, passAuthentication,
    h.authenticates, returnAddress, returnRegisters, passSaves, passCall, passConstants, h.saved,
    h.restored, h.read, h.written, h.isCall, h.value, Bool.false_eq_true, if_false, append_nil,
    hclobbered]
  refine Prod.ext ?_ rfl
  simp only [note, hclobbered]
  rfl

theorem pass_of_stays (h : d.Leaves (fun _ => []) p i) (t : Tracker) :
    t.pass d i = (t.leave d p, d.operandFindings i ++ t.staleReads p) := by
  have hsetup : t.passSetup d [] i = if p.isSetup d then t else t.endPrologue := by
    simp [passSetup, isFrameSetup, Footprint.isSetup, h.saved, h.written, h.signs]
  have hclobbered : (if p.isSetup d then t else t.endPrologue).clobbered = t.clobbered := by
    split
    · rfl
    · exact t.clobbered_endPrologue
  have hpass : (t.passSetup d [] i).passEffects [] = (if p.isSetup d then t else t.endPrologue, []) := by
    rw [hsetup]
    rfl
  rw [pass_of_leaves h hpass, append_nil, leave, staleReads, hclobbered]
  rfl

theorem pass_of_moves (h : d.Leaves effects p i) {e : StackEffect} (he : effects t.constants = [e])
    (hsafe : ¬ ((t.applyEffect e).tracking = true ∧ (t.applyEffect e).depth < 0)) :
    t.pass d i = ((t.applyEffect e).note d p, d.operandFindings i ++ t.staleReads p) := by
  have hpass : (t.passSetup d (effects t.constants) i).passEffects (effects t.constants) =
      (t.applyEffect e, []) := by
    rw [he, passSetup, if_pos (by simp [isFrameSetup]), passEffects, passEffect,
      if_neg (by simpa using hsafe)]
    rfl
  rw [pass_of_leaves h hpass, append_nil, staleReads, clobbered_applyEffect]
  rfl

/-! ### Many instructions -/

section Leave

variable (ps : List Footprint) (t : Tracker)

@[simp] theorem inPrologue_leave (p : Footprint) :
    (t.leave d p).inPrologue = (t.inPrologue && p.isSetup d) := by
  rw [leave, inPrologue_note]
  cases p.isSetup d <;> cases h : t.inPrologue <;> simp [endPrologue, h]

@[simp] theorem depth_leave (p : Footprint) : (t.leave d p).depth = t.depth := by
  rw [leave, depth_note]
  split
  · rfl
  · exact t.depth_endPrologue

@[simp] theorem restored_leave (p : Footprint) :
    (t.leave d p).restored = t.restored ++ p.restored := by
  rw [leave, restored_note]
  split
  · rfl
  · rw [restored_endPrologue]

@[simp] theorem constants_leave (p : Footprint) :
    (t.leave d p).constants = p.learn t.constants := by
  rw [leave, constants_note]
  split
  · rfl
  · rw [constants_endPrologue]

theorem restored_foldl_leave :
    (ps.foldl (leave d) t).restored = t.restored ++ ps.flatMap Footprint.restored := by
  induction ps generalizing t with
  | nil => simp
  | cons p ps ih => rw [foldl_cons, ih, restored_leave, flatMap_cons, append_assoc]

theorem depth_foldl_leave : (ps.foldl (leave d) t).depth = t.depth := by
  induction ps generalizing t with
  | nil => rfl
  | cons p ps ih => rw [foldl_cons, ih, depth_leave]

theorem constants_foldl_leave :
    (ps.foldl (leave d) t).constants = ps.foldl Footprint.learn t.constants := by
  induction ps generalizing t with
  | nil => rfl
  | cons p ps ih => rw [foldl_cons, ih, constants_leave, foldl_cons]

theorem inPrologue_foldl_leave :
    (ps.foldl (leave d) t).inPrologue = (t.inPrologue && ps.all (Footprint.isSetup d)) := by
  induction ps generalizing t with
  | nil => simp
  | cons p ps ih => rw [foldl_cons, ih, inPrologue_leave, all_cons, Bool.and_assoc]

end Leave

theorem note_of_computes (hp : p.Computes) (ht : t.clobbered = []) :
    t.note d p = { t with constants := p.learn t.constants } := by
  rw [note, hp.saved, hp.restored, hp.isCall]
  simp [ht]

theorem leave_of_saves (hin : t.inPrologue = true) (ht : t.clobbered = []) (src : Register)
    (read : List Register) :
    t.leave d { Footprint.idle with saved := [src], read := read } = t.noteSaved d src := by
  obtain ⟨_, _, _, heq, -⟩ := t.noteSaved_eq (d := d) src
  have hsetup : { Footprint.idle with saved := [src], read := read }.isSetup d = true := rfl
  rw [leave, if_pos hsetup, note, if_pos hin]
  simp [heq, ht, Footprint.idle, Footprint.learn]

def Like (b t : Tracker) : Prop := ∃ k, t = { b with constants := k }

namespace Like

variable {b t : Tracker}

theorem note (h : b.Like t) (hb : b.clobbered = []) (hp : p.Computes) : b.Like (t.note d p) := by
  obtain ⟨k, rfl⟩ := h
  exact ⟨_, note_of_computes hp hb⟩

theorem foldl_leave (h : b.Like t) (hb : b.clobbered = []) {ps : List Footprint}
    (hps : ∀ p ∈ ps, p.isSetup d = true ∧ p.Computes) : b.Like (ps.foldl (Tracker.leave d) t) := by
  induction ps generalizing t with
  | nil => exact h
  | cons p ps ih =>
    obtain ⟨⟨hsetup, hp⟩, hps⟩ := forall_mem_cons.1 hps
    rw [foldl_cons, Tracker.leave, if_pos hsetup]
    exact ih (h.note hb hp) hps

theorem noteSaved (h : b.Like t) (r : Register) : (b.noteSaved d r).Like (t.noteSaved d r) := by
  obtain ⟨k, rfl⟩ := h
  unfold Tracker.noteSaved
  split_ifs <;> exact ⟨k, rfl⟩

theorem leave_saves (h : b.Like t) (hb : b.clobbered = []) (hin : b.inPrologue = true)
    (src : Register) (read : List Register) :
    (b.noteSaved d src).Like
      (t.leave d { Footprint.idle with saved := [src], read := read }) := by
  obtain ⟨hin', ht⟩ : t.inPrologue = true ∧ t.clobbered = [] := by
    obtain ⟨k, rfl⟩ := h
    exact ⟨hin, hb⟩
  rw [leave_of_saves hin' ht]
  exact h.noteSaved src

end Like

/-! ### Fresh registers -/

def Fresh (fresh : Set Register) (t : Tracker) : Prop := ∀ r ∈ fresh, r ∉ t.clobbered

theorem Like.fresh {b : Tracker} (h : b.Like t) (hb : b.clobbered = []) : t.Fresh Set.univ := by
  obtain ⟨k, rfl⟩ := h
  intro r _
  rw [hb]
  exact not_mem_nil

section Fresh

variable {fresh fresh' : Set Register} (h : t.Fresh fresh)

include h

theorem Fresh.mono (hsub : fresh' ⊆ fresh) : t.Fresh fresh' := fun r hr => h r (hsub hr)

theorem Fresh.note (p : Footprint) : (t.note d p).Fresh (p.next d fresh) := by
  obtain ⟨_, _, _, heq, -⟩ := t.note_eq (d := d) p
  intro r hr
  rw [heq]
  unfold Footprint.next at hr
  split at hr
  · next hcall =>
    simp only [if_pos hcall]
    exact hr
  · next hcall =>
    simp only [if_neg hcall, mem_filter]
    rintro ⟨hmem, hrw⟩
    rcases hr with hr | hr
    · exact h r hr hmem
    · simp only [Bool.and_eq_true, Bool.not_eq_true', contains_eq_mem, decide_eq_false_iff_not]
        at hrw
      exact hrw.2 hr

theorem Fresh.endPrologue : t.endPrologue.Fresh fresh := by
  rw [Fresh, clobbered_endPrologue]
  exact h

theorem Fresh.leave (p : Footprint) : (t.leave d p).Fresh (p.next d fresh) := by
  unfold Tracker.leave
  split
  · exact h.note p
  · exact h.endPrologue.note p

theorem Fresh.applyEffect (e : StackEffect) : (t.applyEffect e).Fresh fresh := by
  rw [Fresh, clobbered_applyEffect]
  exact h

theorem Fresh.staleReads (hp : ∀ r ∈ p.read, r ∈ fresh) : t.staleReads p = [] := by
  rw [Tracker.staleReads, map_eq_nil_iff, filter_eq_nil_iff]
  intro r hr
  rw [contains_iff_mem]
  exact h r (hp r (mem_eraseDups.1 hr))

end Fresh

end Tracker

/-! ### Tidy code -/

def Tidy (d : Dialect) (regs : List Register) {α : Type} (footprint? : α → Option Footprint)
    (fresh : Set Register) : List α → Set Register → Prop
  | [], fresh' => fresh' ⊆ fresh
  | i :: is, fresh' => ∃ p, footprint? i = some p ∧ (∀ r ∈ p.read, r ∈ fresh) ∧
      (∀ r ∈ p.saved, d.target.isCalleeSaved r = true → r ∈ regs) ∧
      Tidy d regs footprint? (p.next d fresh) is fresh'

/-- What is found in an instruction by itself is never about the frame. -/
class Dialect.Frameless (d : Dialect) : Prop where
  isFrame : ∀ i, ∀ x ∈ d.operandFindings i, x.isFrame = false

namespace Tidy

variable {d : Dialect} {regs : List Register} {α : Type} {footprint? : α → Option Footprint}
  {fresh fresh' fresh'' : Set Register} {is is' : List α}

section

variable (h : Tidy d regs footprint? fresh is fresh')

include h

theorem mono (hsub : fresh ⊆ fresh'') : Tidy d regs footprint? fresh'' is fresh' := by
  induction is generalizing fresh fresh'' with
  | nil => exact Set.Subset.trans h hsub
  | cons i is ih =>
    obtain ⟨p, hp, hread, hsaved, htail⟩ := h
    refine ⟨p, hp, fun r hr => hsub (hread r hr), hsaved, ih htail ?_⟩
    unfold Footprint.next
    split
    · exact Set.Subset.refl _
    · exact Set.union_subset_union_left _ hsub

theorem append (h' : Tidy d regs footprint? fresh' is' fresh'') :
    Tidy d regs footprint? fresh (is ++ is') fresh'' := by
  induction is generalizing fresh with
  | nil => exact h'.mono h
  | cons i is ih =>
    obtain ⟨p, hp, hread, hsaved, htail⟩ := h
    exact ⟨p, hp, hread, hsaved, ih htail⟩

theorem weaken (hsub : fresh'' ⊆ fresh') : Tidy d regs footprint? fresh is fresh'' := by
  have h' : Tidy d regs footprint? fresh (is ++ []) fresh'' := h.append hsub
  rwa [append_nil] at h'

theorem saved :
    ∀ p ∈ is.filterMap footprint?, ∀ r ∈ p.saved, d.target.isCalleeSaved r = true → r ∈ regs := by
  induction is generalizing fresh with
  | nil => simp
  | cons i is ih =>
    obtain ⟨p, hp, -, hsaved, htail⟩ := h
    rw [filterMap_cons_some hp]
    exact forall_mem_cons.2 ⟨hsaved, ih htail⟩

def Shown (d : Dialect) (footprint? : α → Option Footprint) (line : α → Line) (is : List α) : Prop :=
  ∀ i ∈ is, ∀ p, footprint? i = some p → ∀ n, ∃ a,
    item? d n (line i) = some (.instr a) ∧ d.Leaves (fun _ => []) p a

theorem quiet_run [d.Frameless] {line : α → Line} (hshown : Shown d footprint? line is)
    {P : Tracker → Prop} (hP : ∀ t, P t → t.Fresh fresh) :
    Quiet d Finding.isFrame P (is.map line) (fun t => t.Fresh fresh' ∧
      ∃ t', P t' ∧ t = (is.filterMap footprint?).foldl (Tracker.leave d) t') := by
  induction is generalizing fresh P with
  | nil => exact .nil fun t ht => ⟨(hP t ht).mono h, t, ht, rfl⟩
  | cons i is ih =>
    obtain ⟨p, hp, hread, -, htail⟩ := h
    obtain ⟨hi, his⟩ := forall_mem_cons.1 hshown
    choose a hitem hleaves using hi p hp
    have hfirst : Quiet d Finding.isFrame P [line i] fun t => ∃ t', P t' ∧ t = t'.leave d p := by
      refine .instr hitem fun t n ht => ?_
      rw [Tracker.pass_of_stays (hleaves n), (hP t ht).staleReads hread, append_nil]
      exact ⟨Dialect.Frameless.isFrame _, t, ht, rfl⟩
    refine (hfirst.append (ih htail his ?_)).mono (fun t ht => ht) ?_
    · rintro _ ⟨t, ht, rfl⟩
      exact (hP t ht).leave p
    · rintro _ ⟨hfresh, _, ⟨t, ht, rfl⟩, rfl⟩
      exact ⟨hfresh, t, ht, by rw [filterMap_cons_some hp, foldl_cons]⟩

end

theorem single {i : α} (hp : footprint? i = some p) (hread : ∀ r ∈ p.read, r ∈ fresh)
    (hsaved : ∀ r ∈ p.saved, d.target.isCalleeSaved r = true → r ∈ regs) :
    Tidy d regs footprint? fresh [i] (p.next d fresh) :=
  ⟨p, hp, hread, hsaved, Set.Subset.refl _⟩

theorem write {i : α} {dst : Register} (hp : footprint? i = some p) (hread : ∀ r ∈ p.read, r ∈ fresh)
    (hsaved : p.saved = []) (hcall : p.isCall = false) (hdst : dst ∈ p.written) :
    Tidy d regs footprint? fresh [i] (insert dst fresh) := by
  refine (single hp hread (by simp [hsaved])).weaken ?_
  rw [Footprint.next, hcall]
  exact Set.insert_subset (Set.mem_union_right _ hdst) Set.subset_union_left

theorem flatMap {β : Type} {l : List β} {g : β → List α}
    (h : ∀ x ∈ l, Tidy d regs footprint? fresh (g x) fresh) :
    Tidy d regs footprint? fresh (l.flatMap g) fresh := by
  induction l with
  | nil => exact Set.Subset.refl _
  | cons x l ih =>
    obtain ⟨hx, hl⟩ := forall_mem_cons.1 h
    rw [flatMap_cons]
    exact hx.append (ih hl)

end Tidy

theorem Check.Quiet.moves {d : Dialect} [d.Frameless] {P Q : Tracker → Prop} {line : Line}
    {i : Nat → AsmInstr} (hread : ∀ n, item? d n line = some (.instr (i n)))
    (hleaves : ∀ n, d.Leaves effects p (i n)) (h : ∀ t, P t → ∃ e, effects t.constants = [e] ∧
      ¬((t.applyEffect e).tracking = true ∧ (t.applyEffect e).depth < 0) ∧ t.staleReads p = [] ∧
      Q ((t.applyEffect e).note d p)) : Quiet d Finding.isFrame P [line] Q := by
  refine .instr hread fun t n ht => ?_
  obtain ⟨e, he, hsafe, hstale, hq⟩ := h t ht
  rw [Tracker.pass_of_moves (hleaves n) he hsafe, hstale, append_nil]
  exact ⟨Dialect.Frameless.isFrame _, hq⟩

end SsaBackend
