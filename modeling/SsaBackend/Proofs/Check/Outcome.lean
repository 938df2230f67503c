import SsaBackend.Proofs.Check.Calm

/-!
# What a text does to the frame

The outcome of a text is the tracker behind it, apart from what that knows about the contents of
registers, and whether a fault about the frame was found on the way (`Check.outcome`). A line is overt
if its outcome depends neither on the contents of registers nor on where the line stands, and still
if it does no more than end a prologue. Of still lines next to each other all but one may go, so a pass
over overt lines that drops nothing else keeps the outcome (`Peephole.sameOutcome_run`).
-/

namespace SsaBackend

open Asm Check List Peephole

variable {i : Nat → AsmInstr}

namespace Tracker

variable {d : Dialect} {i : AsmInstr}

def forget (t : Tracker) : Tracker := { t with constants := [], clobbered := [] }

@[simp] theorem forget_forget (t : Tracker) : t.forget.forget = t.forget := rfl

theorem endPrologue_forget (t : Tracker) : t.forget.endPrologue = t.endPrologue.forget := by
  have hin : t.forget.inPrologue = t.inPrologue := rfl
  unfold endPrologue
  rw [hin]
  split <;> rfl

theorem endPrologue_endPrologue (t : Tracker) : t.endPrologue.endPrologue = t.endPrologue := by
  unfold endPrologue
  split <;> simp_all

/-! ### Stages

No stage of an instruction but the last two looks at the contents of registers. -/

section Stages

variable (t : Tracker)

theorem passSetup_forget (effects : List StackEffect) :
    t.forget.passSetup d effects i = (t.passSetup d effects i).forget := by
  unfold passSetup
  split
  · rfl
  · exact t.endPrologue_forget

theorem passEffect_forget (e : StackEffect) :
    t.forget.passEffect e = ((t.passEffect e).1.forget, (t.passEffect e).2) := by
  have happly : t.forget.applyEffect e = (t.applyEffect e).forget := by
    cases e with
    | restoreFrame offset =>
      simp only [applyEffect, forget]
      split <;> rfl
    | _ => rfl
  simp only [passEffect, happly]
  generalize t.applyEffect e = u
  have hrises : (u.forget.tracking && decide (u.forget.depth < 0)) =
      (u.tracking && decide (u.depth < 0)) := rfl
  rw [hrises]
  split <;> rfl

theorem passEffects_forget (effects : List StackEffect) :
    t.forget.passEffects effects = ((t.passEffects effects).1.forget, (t.passEffects effects).2) := by
  induction effects generalizing t with
  | nil => rfl
  | cons e effects ih => simp only [passEffects, passEffect_forget, ih]

theorem returnStack_forget :
    t.forget.returnStack d i = ((t.returnStack d i).1.forget, (t.returnStack d i).2) := by
  unfold returnStack
  split <;> rfl

theorem passSigning_forget :
    t.forget.passSigning d i = ((t.passSigning d i).1.forget, (t.passSigning d i).2) := by
  unfold passSigning
  split <;> rfl

theorem passAuthentication_forget :
    t.forget.passAuthentication d i =
      ((t.passAuthentication d i).1.forget, (t.passAuthentication d i).2) := by
  unfold passAuthentication
  split <;> rfl

theorem returnAddress_forget :
    t.forget.returnAddress d i = ((t.returnAddress d i).1.forget, (t.returnAddress d i).2) := by
  unfold returnAddress
  split <;> rfl

theorem foldl_noteSaved_forget (rs : List Register) :
    rs.foldl (noteSaved d) t.forget = (rs.foldl (noteSaved d) t).forget := by
  have hone : ∀ (t : Tracker) r, t.forget.noteSaved d r = (t.noteSaved d r).forget := by
    intro t r
    unfold noteSaved
    split <;> [rfl; split <;> [rfl; split <;> rfl]]
  induction rs generalizing t with
  | nil => rfl
  | cons r rs ih => rw [foldl_cons, foldl_cons, hone, ih]

theorem passSaves_forget : t.forget.passSaves d i = (t.passSaves d i).forget := by
  have hin : t.forget.inPrologue = t.inPrologue := rfl
  simp only [passSaves, hin, foldl_noteSaved_forget]
  split <;> rfl

theorem returnRegisters_forget :
    t.forget.returnRegisters d i = ((t.returnRegisters d i).1.forget, (t.returnRegisters d i).2) := by
  unfold returnRegisters
  split <;> rfl

theorem any_isFrameFault_passCall : (t.passCall d i).2.any Finding.isFrameFault = false := by
  simp [passCall, Finding.isFrameFault]

end Stages

theorem pass_forget (heffects : ∀ k, d.stackEffects k i = d.stackEffects [] i) (t : Tracker) :
    (t.forget.pass d i).1.forget = (t.pass d i).1.forget ∧
      (t.forget.pass d i).2.any Finding.isFrameFault = (t.pass d i).2.any Finding.isFrameFault := by
  unfold pass
  split
  · simp only [passKnown, heffects t.constants, heffects t.forget.constants, passSetup_forget,
      passEffects_forget, returnStack_forget, passSigning_forget, passAuthentication_forget,
      returnAddress_forget, passSaves_forget, returnRegisters_forget, any_append,
      any_isFrameFault_passCall]
    exact ⟨rfl, trivial⟩
  · exact ⟨rfl, rfl⟩

end Tracker

/-! ### Outcomes -/

namespace Check

variable {d : Dialect}

def outcome (d : Dialect) (t : Tracker) (items : List Item) : Tracker × Bool :=
  ((after d t items).forget, (follow d t items).any fun x => x.cause.isFrameFault)

end Check

def Dialect.Overt (d : Dialect) (line : Line) : Prop :=
  ∀ t n m, outcome d t.forget (items d n [line]) = outcome d t (items d m [line])

def Dialect.Still (d : Dialect) (line : Line) : Prop :=
  ∀ t n, outcome d t (items d n [line]) = (t.endPrologue.forget, false)

namespace Check

variable {d : Dialect}

theorem outcome_instr {line : Line} (hread : ∀ n, item? d n line = some (.instr (i n)))
    (t : Tracker) (n : Nat) :
    outcome d t (items d n [line]) =
      ((t.pass d (i n)).1.forget, (t.pass d (i n)).2.any Finding.isFrameFault) := by
  simp [outcome, items_cons, hread, follow, after, any_map, Function.comp_def]

theorem outcome_append (t : Tracker) (is is' : List Item) :
    outcome d t (is ++ is') = ((outcome d (after d t is) is').1,
      (outcome d t is).2 || (outcome d (after d t is) is').2) := by
  simp only [outcome, after_append, follow_append, any_append]

theorem outcome_forget {a : Assembly} (h : ∀ line ∈ a, d.Overt line) (t : Tracker) (n m : Nat) :
    outcome d t.forget (items d n a) = outcome d t (items d m a) := by
  -- behind each line the two trackers may differ again, but only in what is forgotten
  induction a generalizing t n m with
  | nil => rfl
  | cons line a ih =>
    obtain ⟨hline, ha⟩ := forall_mem_cons.1 h
    have hitems : ∀ n, items d n (line :: a) = items d n [line] ++ items d (n + 1) a := fun n =>
      items_append d n [line] a
    have hone := hline t n m
    have hafter : (after d t.forget (items d n [line])).forget =
        (after d t (items d m [line])).forget := congrArg Prod.fst hone
    have hrest : outcome d (after d t.forget (items d n [line])) (items d (n + 1) a) =
        outcome d (after d t (items d m [line])) (items d (m + 1) a) := by
      rw [← ih ha _ (n + 1), hafter, ih ha _ _ (m + 1)]
    rw [hitems, hitems, outcome_append, outcome_append, hone, hrest]

def SameOutcome (d : Dialect) (a b : Assembly) : Prop :=
  ∀ t n m, outcome d t (items d n a) = outcome d t (items d m b)

namespace SameOutcome

variable {a a' b b' c : Assembly}

theorem of_overt (h : ∀ line ∈ a, d.Overt line) : SameOutcome d a a := fun t n m => by
  rw [← outcome_forget h t n, outcome_forget h t n]

theorem trans (h : SameOutcome d a b) (h' : SameOutcome d b c) : SameOutcome d a c := fun t n m =>
  (h t n 1).trans (h' t 1 m)

theorem append (h : SameOutcome d a b) (h' : SameOutcome d a' b') (hb : ∀ line ∈ b', d.Overt line) :
    SameOutcome d (a ++ a') (b ++ b') := by
  intro t n m
  have hone := h t n m
  have hafter : (after d t (items d n a)).forget = (after d t (items d m b)).forget :=
    congrArg Prod.fst hone
  have hrest : outcome d (after d t (items d n a)) (items d (n + a.length) a') =
      outcome d (after d t (items d m b)) (items d (m + b.length) b') := by
    rw [h' _ _ 1, ← outcome_forget hb _ 1, hafter, outcome_forget hb]
  rw [items_append, items_append, outcome_append, outcome_append, hone, hrest]

theorem isFrameFault_iff (h : SameOutcome d a b) (t : Tracker) (n : Nat) :
    (∀ x ∈ follow d t (items d n a), x.cause.isFrameFault = false) ↔
      ∀ x ∈ follow d t (items d n b), x.cause.isFrameFault = false := by
  have hany : ∀ r : Report, (∀ x ∈ r, x.cause.isFrameFault = false) ↔
      r.any (fun x => x.cause.isFrameFault) = false := fun r => by simp
  have hfound : (outcome d t (items d n a)).2 = (outcome d t (items d n b)).2 :=
    congrArg Prod.snd (h t n n)
  rw [hany, hany]
  exact iff_of_eq (congrArg (· = false) hfound)

end SameOutcome

end Check

/-! ### Lines -/

namespace Dialect

variable {d : Dialect} {line : Line}

theorem Overt.directive (text : String) : d.Overt (.directive text) := fun _ _ _ => rfl

theorem Overt.label (name : String) : d.Overt (.label name) := by
  intro t n m
  have hpass : t.forget.passLabel name = t.passLabel name := by
    unfold Tracker.passLabel
    split
    · rw [t.endPrologue_forget]
      rfl
    · rfl
  show ((t.forget.passLabel name).forget, false) = ((t.passLabel name).forget, false)
  rw [hpass]

theorem Overt.instr (hread : ∀ n, item? d n line = some (.instr (i n)))
    (hplace : ∀ (t : Tracker) n m, t.pass d (i n) = t.pass d (i m))
    (heffects : ∀ n k, d.stackEffects k (i n) = d.stackEffects [] (i n)) : d.Overt line := by
  intro t n m
  obtain ⟨hleft, hfound⟩ := Tracker.pass_forget (heffects n) t
  rw [outcome_instr hread, outcome_instr hread, hleft, hfound, hplace t n m]

theorem Still.overt (h : d.Still line) : d.Overt line := by
  intro t n m
  rw [h, h, t.endPrologue_forget, Tracker.forget_forget]

theorem Still.label {name : String} (h : (Text.afterText? ".L" name).isSome) :
    d.Still (.label name) := by
  intro t n
  show ((t.passLabel name).forget, false) = _
  rw [Tracker.passLabel, if_pos h]
  rfl

theorem Still.instr (hread : ∀ n, item? d n line = some (.instr (i n)))
    (hcalm : ∀ n, d.Calm [] (i n)) (hsetup : ∀ n, Tracker.isFrameSetup d [] (i n) = false)
    (hrestored : ∀ n, d.restored (i n) = [])
    (hoperands : ∀ n, ∀ x ∈ d.operandFindings (i n), x.isFrame = false) : d.Still line := by
  intro t n
  have hparts := hsetup n
  simp only [Tracker.isFrameSetup, Bool.or_eq_false_iff] at hparts
  have hsaved : (d.footprint (i n)).saved = [] := show d.saved (i n) = [] by
    simpa using hparts.1.1.1
  have hend : (d.footprint (i n)).isSetup d = false := by
    rw [Footprint.isSetup, hsaved]
    exact hparts.2
  have hleave : (t.leave d (d.footprint (i n))).forget = t.endPrologue.forget := by
    have hrestored' : (d.footprint (i n)).restored = [] := hrestored n
    simp [Tracker.leave, hend, Tracker.note, hsaved, hrestored', Tracker.forget]
  have hfound : (t.pass d (i n)).2.any Finding.isFrameFault = false := by
    rw [Tracker.pass_of_stays (hcalm n).leaves, any_append, Bool.or_eq_false_iff]
    refine ⟨any_eq_false.2 fun x hx => ?_, ?_⟩
    · simp [Finding.isFrameFault_eq_false (hoperands n x hx)]
    · simp [Tracker.staleReads, Finding.isFrameFault]
  rw [outcome_instr hread, hfound, Tracker.pass_of_stays (hcalm n).leaves, hleave]

end Dialect

/-! ### Tidying up -/

namespace Peephole

variable {d : Dialect} {rules : List Rule} {P : Line → Prop}

theorem sameOutcome_of_still {x l y : Line} (hx : d.Still x) (hl : d.Still l) (hy : d.Still y) :
    SameOutcome d [y] [x, l] := by
  intro t n m
  have hitems : items d m [x, l] = items d m [x] ++ items d (m + 1) [l] := items_append d m [x] [l]
  have hafter : (after d t (items d m [x])).forget = t.endPrologue.forget := congrArg Prod.fst (hx t m)
  -- a prologue that has ended does not end again
  have hend : (after d t (items d m [x])).endPrologue.forget = t.endPrologue.forget := by
    rw [← Tracker.endPrologue_forget, hafter, Tracker.endPrologue_forget,
      Tracker.endPrologue_endPrologue]
  rw [hitems, outcome_append, hx, hl, hy, hend]
  rfl

variable (hovert : ∀ {l}, P l → d.Overt l)
  (hwindow : ∀ {x l}, P x → P l → window d rules x l = [x, l] ∨
    (d.Still x ∧ d.Still l) ∧ (window d rules x l = [x] ∨ window d rules x l = [l]))

include hovert hwindow

theorem sameOutcome_window {x l : Line} (hx : P x) (hl : P l) :
    (∀ y ∈ window d rules x l, P y) ∧ SameOutcome d (window d rules x l) [x, l] := by
  obtain hw | ⟨⟨hstill, hstill'⟩, hw | hw⟩ := hwindow hx hl
  · rw [hw]
    exact ⟨by simp [hx, hl], .of_overt (by simp [hovert hx, hovert hl])⟩
  · rw [hw]
    exact ⟨by simp [hx], sameOutcome_of_still hstill hstill' hstill⟩
  · rw [hw]
    exact ⟨by simp [hl], sameOutcome_of_still hstill hstill' hstill'⟩

theorem sameOutcome_push {kept : List Line} (hkept : ∀ l ∈ kept, P l) {l : Line} (hl : P l) :
    (∀ y ∈ push d rules kept l, P y) ∧
      SameOutcome d (push d rules kept l).reverse (kept.reverse ++ [l]) := by
  cases kept with
  | nil => exact ⟨by simp [push, hl], .of_overt (by simp [push, hovert hl])⟩
  | cons x below =>
    obtain ⟨hx, hbelow⟩ := forall_mem_cons.1 hkept
    obtain ⟨hmem, hsame⟩ := sameOutcome_window hovert hwindow hx hl
    have hkeep : SameOutcome d below.reverse below.reverse :=
      .of_overt fun l hl => hovert (hbelow l (mem_reverse.1 hl))
    simp only [push, reverse_append, reverse_reverse, reverse_cons, append_assoc,
      mem_append, mem_reverse]
    exact ⟨fun y hy => hy.elim (hmem y) (hbelow y), hkeep.append hsame (by simp [hovert hx, hovert hl])⟩

theorem sameOutcome_foldl {kept lines : List Line} (hkept : ∀ l ∈ kept, P l)
    (hlines : ∀ l ∈ lines, P l) :
    SameOutcome d (lines.foldl (push d rules) kept).reverse (kept.reverse ++ lines) := by
  induction lines generalizing kept with
  | nil =>
    rw [append_nil]
    exact .of_overt fun l hl => hovert (hkept l (mem_reverse.1 hl))
  | cons l lines ih =>
    obtain ⟨hl, hrest⟩ := forall_mem_cons.1 hlines
    obtain ⟨hmem, hsame⟩ := sameOutcome_push hovert hwindow hkept hl
    have hlast : SameOutcome d lines lines := .of_overt fun l hl => hovert (hrest l hl)
    refine (ih hmem hrest).trans ?_
    rw [append_cons]
    exact hsame.append hlast fun l hl => hovert (hrest l hl)

omit hwindow in
theorem sameOutcome_run {further : List Rule}
    (hwindow : ∀ {x l}, P x → P l → window d (commonRules d ++ further) x l = [x, l] ∨
      (d.Still x ∧ d.Still l) ∧ (window d (commonRules d ++ further) x l = [x] ∨
        window d (commonRules d ++ further) x l = [l]))
    {a : Assembly} (ha : ∀ l ∈ a, P l) : SameOutcome d (run d further a) a :=
  sameOutcome_foldl hovert hwindow (by simp) ha

end Peephole

end SsaBackend
