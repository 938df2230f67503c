import SsaBackend.Proofs.Check.Footprint

/-!
# The frame in the body of a function

Behind the prologue, a tracker knows which registers may have been saved, where the frame pointer
points, and whether the return address is signed (`Tracker.InBody`). Tidy code and local labels keep
that (`Tidy.quiet`, `Tracker.InBody.passLabel`). Before a return everything saved has been restored
and the stack pointer is back where the function found it (`Tracker.AtReturn`); then the return is
passed without a finding, and what follows it is in the body again (`Tracker.AtReturn.pass`).

A tracker also notes which constants instructions leave in registers. If every instruction of a list
leaves in one register what it makes of the word there, and the first of them does not look at that word,
then a tracker knows the word that is left in the end, whatever it knew before
(`Dialect.get?_foldl_note`).
-/

namespace SsaBackend

open Asm Check

structure FrameView where
  /-- The callee-saved registers that the prologue may save. -/
  saved : List Register
  /-- Whether the return address is signed. -/
  signed : Bool
  /-- The depth at which the frame pointer points. -/
  base : Int
  /-- The depth of the body, where returns rely on it. -/
  level : Option Int

namespace Tracker

structure InBody (v : FrameView) (t : Tracker) : Prop where
  framePointerSaved : t.framePointerSaved = true
  linkRegisterSaved : t.linkRegisterSaved = true
  signed : t.signed = v.signed
  authenticated : t.authenticated = false
  saved : ∀ r ∈ t.saved, r ∈ v.saved
  frameDepth : t.frameDepth = some v.base
  level : ∀ n, v.level = some n → t.depth = n ∧ (t.inPrologue = false → t.bodyDepth = n)

namespace InBody

variable {d : Dialect} {v : FrameView} {t : Tracker}

theorem endPrologue (h : t.InBody v) : t.endPrologue.InBody v := by
  unfold Tracker.endPrologue
  split
  · exact { h with level := fun n hn => ⟨(h.level n hn).1, fun _ => (h.level n hn).1⟩ }
  · exact h

theorem note (h : t.InBody v) {p : Footprint}
    (hp : ∀ r ∈ p.saved, d.target.isCalleeSaved r = true → r ∈ v.saved) : (t.note d p).InBody v := by
  obtain ⟨s, fp, lr, heq, hsaved, hfp, hlr⟩ := t.note_eq (d := d) p
  rw [heq]
  refine { h with
    framePointerSaved := hfp h.framePointerSaved
    linkRegisterSaved := hlr h.linkRegisterSaved
    saved := fun r hr => ?_ }
  rcases hsaved r hr with hr | ⟨hr, hcallee⟩
  · exact h.saved r hr
  · exact hp r hr hcallee

theorem leave (h : t.InBody v) {p : Footprint}
    (hp : ∀ r ∈ p.saved, d.target.isCalleeSaved r = true → r ∈ v.saved) :
    (t.leave d p).InBody v := by
  unfold Tracker.leave
  split
  · exact h.note hp
  · exact h.endPrologue.note hp

theorem foldl_leave (h : t.InBody v) {ps : List Footprint}
    (hps : ∀ p ∈ ps, ∀ r ∈ p.saved, d.target.isCalleeSaved r = true → r ∈ v.saved) :
    (ps.foldl (Tracker.leave d) t).InBody v := by
  induction ps generalizing t with
  | nil => exact h
  | cons p ps ih =>
    obtain ⟨hp, hps⟩ := List.forall_mem_cons.1 hps
    exact ih (h.leave hp) hps

theorem unlevel (h : t.InBody v) : t.InBody { v with level := none } :=
  { h with level := fun n hn => by cases hn }

theorem applyEffect (h : t.InBody v) (hlevel : v.level = none) {e : StackEffect}
    (he : ∀ n, e ≠ .setFrame n) : (t.applyEffect e).InBody v := by
  have hnone : ∀ {P : Int → Prop} (n : Int), v.level = some n → P n := fun n hn => by
    rw [hlevel] at hn
    cases hn
  cases e with
  | grow | shrink | unknown => exact { h with level := hnone }
  | setFrame n => exact absurd rfl (he n)
  | restoreFrame n =>
    rw [Tracker.applyEffect, h.frameDepth]
    exact { h with frameDepth := rfl, level := hnone }

theorem passLabel (h : t.InBody v) {name : String} (hname : (Text.afterText? ".L" name).isSome) :
    (t.passLabel name).InBody v ∧ (t.passLabel name).Fresh Set.univ := by
  rw [Tracker.passLabel, if_pos hname]
  have hend := h.endPrologue
  exact ⟨{ hend with }, fun r _ => List.not_mem_nil⟩

end InBody

end Tracker

abbrev Tracker.Inside (v : FrameView) (fresh : Set Register) (t : Tracker) : Prop :=
  t.InBody v ∧ t.Fresh fresh

structure Tracker.Leaving (v : FrameView) (fresh : Set Register) (restored : List Register)
    (t : Tracker) : Prop where
  body : t.InBody v
  fresh : t.Fresh fresh
  restored : ∀ r ∈ restored, r ∈ t.restored

namespace Tidy

variable {d : Dialect} {v : FrameView} {α : Type} {footprint? : α → Option Footprint}
  {fresh fresh' : Set Register} {is : List α} [d.Frameless] {line : α → Line}
  (h : Tidy d v.saved footprint? fresh is fresh') (hshown : Shown d footprint? line is)

include h hshown

theorem quiet_leaving {restored : List Register}
    (hrestored : ∀ r ∈ restored, r ∈ (is.filterMap footprint?).flatMap Footprint.restored) :
    Quiet d Finding.isFrame (·.Inside v fresh) (is.map line) (·.Leaving v fresh' restored) := by
  refine (h.quiet_run hshown fun t ht => ht.2).mono (fun t ht => ht) ?_
  rintro t ⟨hfresh', t', ⟨hbody, -⟩, rfl⟩
  refine ⟨hbody.foldl_leave h.saved, hfresh', fun r hr => ?_⟩
  rw [Tracker.restored_foldl_leave]
  exact List.mem_append_right _ (hrestored r hr)

theorem quiet : Quiet d Finding.isFrame (·.Inside v fresh) (is.map line) (·.Inside v fresh') :=
  (quiet_leaving h hshown (List.forall_mem_nil _)).mono (fun _ ht => ht)
    fun _ ht => ⟨ht.body, ht.fresh⟩

end Tidy

/-! ### Instructions about the return address -/

structure Dialect.Bare (d : Dialect) (i : AsmInstr) : Prop where
  known : d.isMnemonic i.mnemonic = true
  effects : ∀ k, d.stackEffects k i = []
  saved : d.saved i = []
  restored : d.restored i = []
  written : d.written i = []
  read : d.readRegisters i = []
  isCall : d.isCall i = false

namespace Tracker

variable {d : Dialect} {i : AsmInstr}

theorem pass_of_bare (h : d.Bare i) (t : Tracker) :
    t.pass d i =
      (let (t, imbalance) := (t.passSetup d [] i).returnStack d i
        let (t, signing) := t.passSigning d i
        let (t, authentication) := t.passAuthentication d i
        let (t, address) := t.returnAddress d i
        let (t, registers) := t.returnRegisters d i
        (t, d.operandFindings i ++ imbalance ++ signing ++ authentication ++ address ++ registers)) := by
  rw [pass, if_pos h.known, passKnown]
  simp only [h.effects, passEffects, passSaves, passCall, passConstants, h.saved, h.restored, h.read,
    h.written, h.isCall, Bool.false_eq_true, if_false, List.foldl_nil, ite_self, List.append_nil]
  simp

theorem pass_of_signs (h : d.Bare i) (hret : d.isReturn i = false) (hsigns : d.signs i = true)
    (hauth : d.authenticates i = false) {t : Tracker} (hin : t.inPrologue = true)
    (hsigned : t.signed = false) :
    t.pass d i = ({ t with signed := true }, d.operandFindings i) := by
  have hsetup : t.passSetup d [] i = t := by simp [passSetup, isFrameSetup, hsigns]
  rw [pass_of_bare h]
  simp [hsetup, returnStack, hret, passSigning, hsigns, passAuthentication, hauth, returnAddress,
    returnRegisters, hin, hsigned]

theorem pass_of_authenticates (h : d.Bare i) (hret : d.isReturn i = false)
    (hsigns : d.signs i = false) (hauth : d.authenticates i = true) {t : Tracker}
    (hsigned : t.signed = true) :
    t.pass d i = ({ t.endPrologue with authenticated := true }, d.operandFindings i) := by
  have hsetup : t.passSetup d [] i = t.endPrologue := by
    simp [passSetup, isFrameSetup, hsigns, h.saved, h.written]
  have hsigned' : t.endPrologue.signed = true := by
    unfold endPrologue
    split <;> exact hsigned
  rw [pass_of_bare h]
  simp [hsetup, returnStack, hret, passSigning, hsigns, passAuthentication, hauth, returnAddress,
    returnRegisters, hsigned']

/-! ### Returns -/

structure AtReturn (target : Target) (v : FrameView) (t : Tracker) : Prop where
  framePointerSaved : t.framePointerSaved = true
  linkRegisterSaved : t.linkRegisterSaved = true
  signed : t.signed = v.signed
  authenticated : v.signed = true → t.authenticated = true
  saved : ∀ r ∈ t.saved, r ∈ v.saved
  frameDepth : t.frameDepth = some v.base
  depth : t.depth = 0
  level : ∀ n, v.level = some n → t.inPrologue = false ∧ t.bodyDepth = n
  restored : ∀ r ∈ v.saved, r ∈ t.restored
  framePointer : target.framePointer ∈ t.restored
  linkRegister : ∀ r ∈ target.linkRegister, r ∈ t.restored

theorem pass_of_returns (h : d.Bare i) (hret : d.isReturn i = true) (hsigns : d.signs i = false)
    (hauth : d.authenticates i = false) (t : Tracker) :
    t.pass d i =
      ({ t.endPrologue with depth := t.endPrologue.bodyDepth, authenticated := false, restored := [] },
        d.operandFindings i ++
          (if t.endPrologue.tracking && t.endPrologue.depth ≠ 0 then
            [.warning (.stackImbalance t.endPrologue.depth)] else []) ++
          (if t.endPrologue.signed && !t.endPrologue.authenticated then
            [.fault .returnUnauthenticated] else []) ++
          t.endPrologue.returnFindings d) := by
  have hsetup : t.passSetup d [] i = t.endPrologue := by
    simp [passSetup, isFrameSetup, hsigns, h.saved, h.written]
  rw [pass_of_bare h]
  simp only [hsetup, returnStack, hret, passSigning, hsigns, passAuthentication, hauth, returnAddress,
    returnRegisters, Bool.false_eq_true, if_false, if_true, List.append_nil]
  rfl

namespace AtReturn

variable {d : Dialect} {v : FrameView} {t : Tracker}

theorem endPrologue (h : t.AtReturn d.target v) : t.endPrologue.AtReturn d.target v := by
  unfold Tracker.endPrologue
  split
  · next hin => exact { h with level := fun n hn => absurd (h.level n hn).1 (by simp [hin]) }
  · exact h

theorem returnFindings (h : t.AtReturn d.target v) : t.returnFindings d = [] := by
  have hsaved : t.saved.filter (fun r => !t.restored.contains r) = [] := by
    refine List.filter_eq_nil_iff.2 fun r hr => ?_
    simp [h.restored r (h.saved r hr)]
  unfold Tracker.returnFindings
  rw [hsaved, h.framePointerSaved, h.linkRegisterSaved]
  cases hlink : d.target.linkRegister with
  | none => simp [h.framePointer]
  | some r => simp [h.framePointer, h.linkRegister r hlink]

theorem pass (h : t.AtReturn d.target v) {i : AsmInstr} (hi : d.Bare i) (hret : d.isReturn i = true)
    (hsigns : d.signs i = false) (hauth : d.authenticates i = false) {fresh : Set Register}
    (hfresh : t.Fresh fresh) :
    (t.pass d i).2 = d.operandFindings i ∧ (t.pass d i).1.InBody v ∧ (t.pass d i).1.Fresh fresh := by
  have hend := h.endPrologue
  rw [pass_of_returns hi hret hsigns hauth]
  refine ⟨?_, ?_, fun r hr => ?_⟩
  · have hsigned : (t.endPrologue.signed && !t.endPrologue.authenticated) = false := by
      rw [hend.signed]
      cases hs : v.signed with
      | false => rfl
      | true => simp [hend.authenticated hs]
    simp [hend.returnFindings, h.depth, hsigned]
  · exact {
      framePointerSaved := hend.framePointerSaved
      linkRegisterSaved := hend.linkRegisterSaved
      signed := hend.signed
      authenticated := rfl
      saved := hend.saved
      frameDepth := hend.frameDepth
      level := fun n hn => ⟨(hend.level n hn).2, fun _ => (hend.level n hn).2⟩ }
  · exact hfresh.endPrologue r hr

end AtReturn

end Tracker

/-! ### Constants -/

section Constants

open List

variable {α : Type} (asm : α → Nat → AsmInstr)
variable {is : List α}

/-- Instructions with the numbers of their lines, from `n` on. -/
def Asm.listed (n : Nat) (is : List α) : List AsmInstr := (is.zipIdx n).map fun p => asm p.1 p.2

theorem Asm.listed_cons (n : Nat) (i : α) (is : List α) :
    listed asm n (i :: is) = asm i n :: listed asm (n + 1) is := by
  simp [listed]

theorem Asm.items_listed {d : Dialect} {line : α → Line}
    (h : ∀ i ∈ is, ∀ n, item? d n (line i) = some (.instr (asm i n))) (n : Nat) :
    items d n (is.map line) = (listed asm n is).map .instr := by
  induction is generalizing n with
  | nil => rfl
  | cons i is ih =>
    obtain ⟨hi, his⟩ := forall_mem_cons.1 h
    rw [map_cons, items_cons, hi, ih his, listed_cons]
    rfl

theorem Asm.read_listed {d : Dialect} (hmark : Listing.isMark d.commentMark.toList = true)
    {line : α → Line} (hwritten : ∀ i ∈ is, (line i).Written d.commentMark.toList)
    (h : ∀ i ∈ is, ∀ n, item? d n (line i) = some (.instr (asm i n))) :
    d.read (Assembly.render (is.map line)) = (listed asm 1 is).map .instr := by
  rw [read_render hmark (forall_mem_map.2 hwritten), items_listed asm h]

namespace Dialect

variable (d : Dialect)

/-- What is known behind an instruction. -/
def note (k : Constants) (i : AsmInstr) : Constants :=
  (d.written i).foldl (fun k' r => k'.set r (d.constant? k i)) k

theorem get?_note {dst : Register} {i : AsmInstr} (h : d.written i = [dst]) (k : Constants)
    (r : Register) : (d.note k i).get? r = if r = dst then d.constant? k i else k.get? r := by
  rw [note, h, foldl_cons, foldl_nil, Constants.get?_set]

theorem constants_foldl_passConstants (is : List AsmInstr) (t : Tracker) :
    (is.foldl (fun t i => t.passConstants d i) t).constants = is.foldl d.note t.constants := by
  induction is generalizing t with
  | nil => rfl
  | cons i is ih => exact ih _

theorem foldl_learn {footprint? : α → Option Footprint}
    (h : ∀ i ∈ is, ∃ p effects, footprint? i = some p ∧ ∀ n, d.Leaves effects p (asm i n))
    (k : Constants) (n : Nat) :
    (is.filterMap footprint?).foldl Footprint.learn k = (Asm.listed asm n is).foldl d.note k := by
  induction is generalizing k n with
  | nil => rfl
  | cons i is ih =>
    obtain ⟨⟨p, effects, hp, hleaves⟩, his⟩ := forall_mem_cons.1 h
    have hnote : p.learn k = d.note k (asm i n) := by
      rw [Footprint.learn, note, (hleaves n).written, (hleaves n).value]
    rw [filterMap_cons_some hp, foldl_cons, Asm.listed_cons, foldl_cons, hnote]
    exact ih his _ _

/-- An instruction leaves in a register what it makes of the word there. The first of several need not
know that word. -/
structure Loads (dst : Register) (isFirst : α → Bool) (load : Int64 → α → Int64) (i : α) : Prop where
  written : ∀ n, d.written (asm i n) = [dst]
  constant : ∀ n k old, isFirst i = true ∨ k.get? dst = some old →
    d.constant? k (asm i n) = some (load old i)

variable {d asm} {dst : Register} {isFirst : α → Bool} {load : Int64 → α → Int64}

theorem Loads.get?_note {i : α} (h : d.Loads asm dst isFirst load i) {k : Constants} {old : Int64}
    (hold : isFirst i = true ∨ k.get? dst = some old) (n : Nat) :
    (d.note k (asm i n)).get? dst = some (load old i) := by
  rw [d.get?_note (h.written n), if_pos rfl, h.constant n k old hold]

theorem get?_foldl_note {i : α} (hfirst : isFirst i = true)
    (h : ∀ j ∈ i :: is, d.Loads asm dst isFirst load j) (n : Nat) (k : Constants) (old : Int64) :
    ((Asm.listed asm n (i :: is)).foldl d.note k).get? dst = some ((i :: is).foldl load old) := by
  have hrest : ∀ (is : List α), (∀ j ∈ is, d.Loads asm dst isFirst load j) →
      ∀ (n : Nat) (k : Constants) (old : Int64), k.get? dst = some old →
        ((Asm.listed asm n is).foldl d.note k).get? dst = some (is.foldl load old) := by
    intro is
    induction is with
    | nil => exact fun _ _ _ _ hold => hold
    | cons j is ih =>
      intro h n k old hold
      obtain ⟨hj, his⟩ := forall_mem_cons.1 h
      rw [Asm.listed_cons, foldl_cons, foldl_cons]
      exact ih his _ _ _ (hj.get?_note (.inr hold) n)
  obtain ⟨hi, his⟩ := forall_mem_cons.1 h
  rw [Asm.listed_cons, foldl_cons, foldl_cons]
  exact hrest is his _ _ _ (hi.get?_note (.inl hfirst) n)

theorem get?_foldl_note_of_ne (h : ∀ i ∈ is, ∀ n, d.written (asm i n) = [dst]) (n : Nat)
    (k : Constants) {r : Register} (hr : r ≠ dst) :
    ((Asm.listed asm n is).foldl d.note k).get? r = k.get? r := by
  induction is generalizing n k with
  | nil => rfl
  | cons i is ih =>
    obtain ⟨hi, his⟩ := forall_mem_cons.1 h
    rw [Asm.listed_cons, foldl_cons, ih his, d.get?_note (hi n), if_neg hr]

end Dialect

end Constants

end SsaBackend
