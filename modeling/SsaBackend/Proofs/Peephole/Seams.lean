import Mathlib.Data.List.Chain
import SsaBackend.Proofs.Peephole.Rewriting

/-!
# Where tidying up stops

Two lines are apart if the pass leaves them as they are next to each other. Lines that are pairwise
apart are kept, and a line that is apart from everything behind it cuts a text in two
(`Peephole.foldl_push_stretch`). So code that is full of such stretches is tidied up between them only
(`Peephole.Seams.woven_run`). At one place more can happen: the very first line may swallow what comes
behind it, up to the start of a stretch (`Peephole.Seams.run_of_lost`).
-/

namespace SsaBackend

open List

namespace Peephole

variable {d : Dialect} {rules : List Rule}
variable {further : List Rule} {lines kept : List Line} {α : Type}
variable {g : α → Assembly} {steps : List α}

def Apart (d : Dialect) (rules : List Rule) (first second : Line) : Prop :=
  window d rules first second = [first, second]

theorem apart_of {first second : Line}
    (hjump : ∀ prev name, instr? d first = some prev → second = .label name →
      d.jump? prev ≠ some name)
    (hrule : ∀ prev next, instr? d first = some prev → instr? d second = some next →
      ∀ rule ∈ rules, rule prev next = none) : Apart d rules first second := by
  obtain h | ⟨prev, name, hprev, hsecond, hj, -⟩ | ⟨prev, next, rule, r, hprev, hnext, hmem, hr, -⟩ :=
    window_cases d rules first second
  · exact h
  · exact absurd hj (hjump prev name hprev hsecond)
  · rw [hrule prev next hprev hnext rule hmem] at hr
    cases hr

theorem apart_of_silent {first : Line} (h : instr? d first = none) (second : Line) :
    Apart d rules first second := by
  simp [Apart, window, h]

/-! ### Instructions -/

section Instructions

variable {first second : Line} {i j : AsmInstr} (hi : instr? d first = some i)

include hi

theorem window_of_reload {p : String × String} (hj : instr? d second = some j)
    (hmove : d.move? i = none) (hstore : d.store? i = some p) (hload : d.load? j = some p) :
    window d (commonRules d ++ further) first second = [first] := by
  have hfind : (commonRules d ++ further).findSome? (fun rule => rule i j) = some .dropSecond := by
    simp [commonRules, swapBack, reload, hmove, hstore, hload]
  cases second with
  | label name => cases hj
  | instruction | directive => simp only [window, hi, hj, hfind, Replacement.lines]

variable {Fires : AsmInstr → AsmInstr → Prop}
  (hfires : ∀ {rule i j r}, rule ∈ rules → rule i j = some r → Fires i j)

include hfires

theorem apart_of_not_fires (hjump : d.jump? i = none ∨ ∀ name, second ≠ .label name)
    (h : ∀ j, instr? d second = some j → ¬Fires i j) : Apart d rules first second := by
  refine apart_of (fun prev name hprev hname hj => ?_) fun prev next hprev hnext rule hrule => ?_
  all_goals
    cases hi.symm.trans hprev
  · rcases hjump with hjump | hjump
    · cases hjump.symm.trans hj
    · exact hjump name hname
  · cases hr : rule i next with
    | none => rfl
    | some r => exact absurd (hfires hrule hr) (h next hnext)

theorem apart_of_instrs (hj : instr? d second = some j) (h : ¬Fires i j) :
    Apart d rules first second := by
  refine apart_of_not_fires hi hfires (.inr fun name heq => ?_) fun next hnext => ?_
  · rw [heq] at hj
    cases hj
  · cases hj.symm.trans hnext
    exact h

end Instructions

/-! ### Stretches -/

theorem foldl_push_above {x : Line} (h : ∀ l ∈ lines, Apart d rules x l) (above below : List Line) :
    lines.foldl (push d rules) (above ++ x :: below) =
      lines.foldl (push d rules) above ++ x :: below := by
  -- `x` is reached only when nothing is left above it, and then it is apart from what comes
  induction lines generalizing above with
  | nil => rfl
  | cons l lines ih =>
    obtain ⟨hl, hlines⟩ := forall_mem_cons.1 h
    have hpush : push d rules (above ++ x :: below) l = push d rules above l ++ x :: below := by
      cases above with
      | nil => simp [push, show window d rules x l = [x, l] from hl]
      | cons y above => simp [push]
    rw [foldl_cons, hpush, ih hlines, foldl_cons]

theorem foldl_push_of_chain (h : lines.IsChain (Apart d rules))
    (hkept : ∀ x ∈ kept.head?, ∀ y ∈ lines.head?, Apart d rules x y) :
    lines.foldl (push d rules) kept = lines.reverse ++ kept := by
  induction lines generalizing kept with
  | nil => rfl
  | cons l lines ih =>
    have hpush : push d rules kept l = l :: kept := by
      cases kept with
      | nil => rfl
      | cons x kept =>
        have hx : window d rules x l = [x, l] := hkept x rfl l rfl
        simp [push, hx]
    obtain ⟨hl, hlines⟩ := isChain_cons.1 h
    have hhead : ∀ x ∈ (l :: kept).head?, ∀ y ∈ lines.head?, Apart d rules x y := by
      rintro x ⟨⟩
      exact hl
    rw [foldl_cons, hpush, ih hlines hhead, reverse_cons, append_assoc]
    rfl

theorem foldl_push_stretch {stretch rest : List Line} (hne : stretch ≠ [])
    (hchain : stretch.IsChain (Apart d rules))
    (hfirst : ∀ x ∈ kept.head?, ∀ y ∈ stretch.head?, Apart d rules x y)
    (hlast : ∀ y ∈ stretch.getLast?, ∀ l ∈ rest, Apart d rules y l) :
    (stretch ++ rest).foldl (push d rules) kept =
      rest.foldl (push d rules) [] ++ (stretch.reverse ++ kept) := by
  rw [foldl_append, foldl_push_of_chain hchain hfirst]
  obtain ⟨front, last, rfl⟩ := eq_nil_or_concat stretch |>.resolve_left hne
  rw [concat_eq_append] at hlast ⊢
  rw [reverse_append]
  exact foldl_push_above (hlast last getLast?_concat) [] (front.reverse ++ kept)

theorem run_append_of_stretch {stretch rest : Assembly} (hne : stretch ≠ [])
    (hchain : stretch.IsChain (Apart d (commonRules d ++ further)))
    (hlast : ∀ y ∈ stretch.getLast?, ∀ l ∈ rest, Apart d (commonRules d ++ further) y l) :
    run d further (stretch ++ rest) = stretch ++ run d further rest := by
  rw [run, foldl_push_stretch hne hchain (by simp) hlast, append_nil,
    reverse_append, reverse_reverse]
  rfl

theorem run_append_of_silent {silent : Assembly} (hne : silent ≠ [])
    (h : ∀ l ∈ silent, instr? d l = none) (rest : Assembly) :
    run d further (silent ++ rest) = silent ++ run d further rest := by
  have hapart : ∀ x ∈ silent, ∀ l, Apart d (commonRules d ++ further) x l := fun x hx =>
    apart_of_silent (h x hx)
  refine run_append_of_stretch hne ?_ fun y hy l _ => hapart y (mem_of_getLast? hy) l
  exact List.Pairwise.isChain (pairwise_of_forall_mem_list fun x hx y _ => hapart x hx y)

/-! ### Text with stretches in it -/

inductive Woven (P : Line → Prop) (stretch : Assembly) : Assembly → Prop
  | nil : Woven P stretch []
  | line {l : Line} {a : Assembly} (hl : P l) (h : Woven P stretch a) : Woven P stretch (l :: a)
  | stretch {a : Assembly} (h : Woven P stretch a) : Woven P stretch (stretch ++ a)

namespace Woven

variable {P Q : Line → Prop} {stretch a b : Assembly}

theorem append_of_forall (ha : ∀ l ∈ a, P l) (hb : Woven P stretch b) :
    Woven P stretch (a ++ b) := by
  induction a with
  | nil => exact hb
  | cons l a ih =>
    obtain ⟨hl, ha⟩ := forall_mem_cons.1 ha
    exact .line hl (ih ha)

theorem mono (h : Woven P stretch a) (hsub : ∀ l, P l → Q l) : Woven Q stretch a := by
  induction h with
  | nil => exact .nil
  | line hl _ ih => exact .line (hsub _ hl) ih
  | stretch _ ih => exact .stretch ih

theorem flatMap (h : ∀ s ∈ steps, g s = stretch ∨ ∀ l ∈ g s, P l) :
    Woven P stretch (steps.flatMap g) := by
  induction steps with
  | nil => exact .nil
  | cons s steps ih =>
    obtain ⟨hs, hsteps⟩ := forall_mem_cons.1 h
    rw [flatMap_cons]
    rcases hs with heq | hlines
    · rw [heq]
      exact .stretch (ih hsteps)
    · exact append_of_forall hlines (ih hsteps)

end Woven

structure Seams (d : Dialect) (further : List Rule) (Q P : Line → Prop) (stretch : Assembly) :
    Prop where
  sub : ∀ {l}, P l → Q l
  made : ∀ {first second prev next rule r}, Q first → Q second → instr? d first = some prev →
    instr? d second = some next → rule ∈ further → rule prev next = some r → ∀ l ∈ r.made, P l
  ne_nil : stretch ≠ []
  chain : stretch.IsChain (Apart d (commonRules d ++ further))
  first : ∀ {l}, P l → ∀ y ∈ stretch.head?, Apart d (commonRules d ++ further) l y
  last : ∀ l, ∀ y ∈ stretch.getLast?, Apart d (commonRules d ++ further) y l

namespace Seams

variable {further : List Rule} {Q P : Line → Prop} {stretch : Assembly}
  (h : Seams d further Q P stretch)

include h

theorem window {first second : Line} (hfirst : Q first) (hsecond : P second) :
    (∀ l ∈ window d (commonRules d ++ further) first second, l = first ∨ P l) ∧
      ∀ l ∈ (window d (commonRules d ++ further) first second).tail, P l := by
  obtain hw | ⟨_, _, -, -, -, hw⟩ | ⟨prev, next, rule, r, hprev, hnext, hmem, hr, hw⟩ :=
    window_cases d (commonRules d ++ further) first second <;> rw [hw]
  · simp [hsecond]
  · simp [hsecond]
  · rcases mem_append.1 hmem with hmem | hmem
    · rw [(of_common hmem hr).1]
      simp [Replacement.lines]
    · have hmade := h.made hfirst (h.sub hsecond) hprev hnext hmem hr
      cases r <;> simp_all [Replacement.lines, Replacement.made]

theorem forall_mem_push {line : Line} (hkept : ∀ l ∈ kept, P l) (hline : P line) :
    ∀ l ∈ push d (commonRules d ++ further) kept line, P l := by
  cases kept with
  | nil => exact forall_mem_singleton.2 hline
  | cons last kept =>
    obtain ⟨hlast, hkept⟩ := forall_mem_cons.1 hkept
    refine forall_mem_append.2 ⟨fun l hl => ?_, hkept⟩
    rcases (h.window (h.sub hlast) hline).1 l (mem_reverse.1 hl) with rfl | hl
    · exact hlast
    · exact hl

theorem forall_mem_foldl (hkept : ∀ l ∈ kept, P l) (hlines : ∀ l ∈ lines, P l) :
    ∀ l ∈ lines.foldl (push d (commonRules d ++ further)) kept, P l := by
  induction lines generalizing kept with
  | nil => exact hkept
  | cons line lines ih =>
    obtain ⟨hline, hlines⟩ := forall_mem_cons.1 hlines
    exact ih (h.forall_mem_push hkept hline) hlines

theorem woven_foldl (hsteps : ∀ s ∈ steps, g s = stretch ∨ ∀ l ∈ g s, P l) (hkept : ∀ l ∈ kept, P l) :
    Woven P stretch ((steps.flatMap g).foldl (push d (commonRules d ++ further)) kept).reverse := by
  induction steps generalizing kept with
  | nil => simpa using Woven.append_of_forall (fun l hl => hkept l (mem_reverse.1 hl)) .nil
  | cons s steps ih =>
    obtain ⟨hs, hsteps⟩ := forall_mem_cons.1 hsteps
    rw [flatMap_cons]
    rcases hs with hs | hs
    · -- a stretch goes to the output as it is, and the pass starts anew behind it
      have hfirst : ∀ x ∈ kept.head?, ∀ y ∈ stretch.head?, Apart d (commonRules d ++ further) x y :=
        fun x hx => h.first (hkept x (mem_of_mem_head? hx))
      rw [hs, foldl_push_stretch h.ne_nil h.chain hfirst fun y hy l _ => h.last l y hy,
        reverse_append, reverse_append, reverse_reverse, append_assoc]
      refine .append_of_forall (fun l hl => hkept l (mem_reverse.1 hl)) (.stretch ?_)
      exact ih hsteps (by simp)
    · rw [foldl_append]
      exact ih hsteps (h.forall_mem_foldl hkept hs)

theorem woven_run (hsteps : ∀ s ∈ steps, g s = stretch ∨ ∀ l ∈ g s, P l) :
    Woven P stretch (run d further (steps.flatMap g)) := h.woven_foldl hsteps (by simp)

/-! ### A line in front -/

variable {x : Line} (hx : Q x) {lines : List Line} (hlines : ∀ l ∈ lines, P l)

include hx hlines

theorem foldl_singleton :
    (∀ l ∈ lines.foldl (push d (commonRules d ++ further)) [x], P l) ∨
      ∃ above, lines.foldl (push d (commonRules d ++ further)) [x] = above ++ [x] ∧
        ∀ l ∈ above, P l := by
  suffices hkept : ∀ kept, (∀ l ∈ kept, P l) ∨ (∃ above, kept = above ++ [x] ∧ ∀ l ∈ above, P l) →
      (∀ l ∈ lines.foldl (push d (commonRules d ++ further)) kept, P l) ∨
        ∃ above, lines.foldl (push d (commonRules d ++ further)) kept = above ++ [x] ∧
          ∀ l ∈ above, P l from
    hkept [x] (.inr ⟨[], rfl, by simp⟩)
  induction lines with
  | nil => exact fun kept hkept => hkept
  | cons line lines ih =>
    obtain ⟨hline, hlines⟩ := forall_mem_cons.1 hlines
    intro kept hkept
    refine ih hlines _ ?_
    rcases hkept with hkept | ⟨above, rfl, habove⟩
    · exact .inl (h.forall_mem_push hkept hline)
    · cases above with
      | cons last above =>
        -- the line in front is out of reach
        obtain ⟨hlast, habove⟩ := forall_mem_cons.1 habove
        have hpush := h.forall_mem_push (forall_mem_cons.2 ⟨hlast, habove⟩) hline
        refine .inr ⟨push d (commonRules d ++ further) (last :: above) line, ?_, hpush⟩
        simp [push]
      | nil =>
        obtain ⟨hall, htail⟩ := h.window hx hline
        simp only [nil_append, push, append_nil]
        cases hw : Peephole.window d (commonRules d ++ further) x line with
        | nil => exact .inl (by simp)
        | cons y ys =>
          rw [hw] at hall htail
          have hys : ∀ l ∈ ys.reverse, P l := fun l hl => htail l (mem_reverse.1 hl)
          rw [reverse_cons]
          rcases hall y mem_cons_self with rfl | hy
          · exact .inr ⟨ys.reverse, rfl, hys⟩
          · exact .inl (forall_mem_append.2 ⟨hys, forall_mem_singleton.2 hy⟩)

theorem forall_mem_run_cons : ∀ l ∈ run d further (x :: lines), Q l := by
  intro l hl
  replace hl : l ∈ lines.foldl (push d (commonRules d ++ further)) [x] := mem_reverse.1 hl
  rcases h.foldl_singleton hx hlines with hall | ⟨above, heq, habove⟩
  · exact h.sub (hall l hl)
  · rw [heq] at hl
    rcases mem_append.1 hl with hl | hl
    · exact h.sub (habove l hl)
    · rwa [mem_singleton.1 hl]

theorem woven_run_cons (hkept : run d further (x :: lines) ≠ [x])
    (hsteps : ∀ s ∈ steps, g s = stretch ∨ ∀ l ∈ g s, P l) :
    Woven Q stretch (run d further (x :: (lines ++ (stretch ++ steps.flatMap g)))) := by
  generalize hk : lines.foldl (push d (commonRules d ++ further)) [x] = kept
  have hrun : run d further (x :: lines) = kept.reverse := congrArg List.reverse hk
  have hfirst : ∀ z ∈ kept.head?, ∀ y ∈ stretch.head?, Apart d (commonRules d ++ further) z y := by
    intro z hz
    refine h.first ?_
    have hfound := h.foldl_singleton hx hlines
    rw [hk] at hfound
    rcases hfound with hall | ⟨above, rfl, habove⟩
    · exact hall z (mem_of_mem_head? hz)
    · cases above with
      | nil => exact absurd hrun hkept
      | cons l above =>
        cases hz
        exact habove _ mem_cons_self
  have hall : ∀ l ∈ kept.reverse, Q l := hrun ▸ h.forall_mem_run_cons hx hlines
  have hwhole : run d further (x :: (lines ++ (stretch ++ steps.flatMap g))) =
      kept.reverse ++ (stretch ++ run d further (steps.flatMap g)) := by
    show ((lines ++ (stretch ++ steps.flatMap g)).foldl _ [x]).reverse = _
    rw [foldl_append, hk, foldl_push_stretch h.ne_nil h.chain hfirst fun y hy l _ => h.last l y hy,
      reverse_append, reverse_append, reverse_reverse, append_assoc]
    rfl
  rw [hwhole]
  exact .append_of_forall hall (.stretch ((h.woven_run hsteps).mono fun l => h.sub))

end Seams

theorem Seams.run_of_lost {x y : Line} {lines stretch rest : Assembly}
    (hlost : run d further (x :: lines) = [x])
    (hdrop : Peephole.window d (commonRules d ++ further) x y = [x]) (hne : stretch ≠ [])
    (hchain : stretch.IsChain (Apart d (commonRules d ++ further)))
    (hfirst : ∀ z ∈ stretch.head?, Apart d (commonRules d ++ further) x z)
    (hlast : ∀ l, ∀ z ∈ stretch.getLast?, Apart d (commonRules d ++ further) z l) :
    run d further (x :: (lines ++ (y :: stretch ++ rest))) = x :: (stretch ++ run d further rest) := by
  have hkept : lines.foldl (push d (commonRules d ++ further)) [x] = [x] := by
    rw [← reverse_inj]
    exact hlost
  have hpush : push d (commonRules d ++ further) [x] y = [x] := by simp [push, hdrop]
  show ((lines ++ (y :: stretch ++ rest)).foldl _ [x]).reverse = _
  rw [foldl_append, hkept, cons_append, foldl_cons, hpush,
    foldl_push_stretch hne hchain (by simpa using hfirst) fun z hz l _ => hlast l z hz,
    reverse_append, reverse_append, reverse_reverse]
  rfl

theorem exists_foldl_push {F G : Line → Prop}
    (hF : ∀ {x l}, F x → G l → ∃ y ys, window d rules x l = y :: ys ∧ F y) {x : Line} (hx : F x)
    (hlines : ∀ l ∈ lines, G l) (above below : List Line) :
    ∃ above' y, lines.foldl (push d rules) (above ++ x :: below) = above' ++ y :: below := by
  induction lines generalizing above x with
  | nil => exact ⟨above, x, rfl⟩
  | cons l lines ih =>
    obtain ⟨hl, hlines⟩ := forall_mem_cons.1 hlines
    rw [foldl_cons]
    cases above with
    | cons z above =>
      have hpush : push d rules (z :: above ++ x :: below) l =
          ((window d rules z l).reverse ++ above) ++ x :: below := by simp [push]
      rw [hpush]
      exact ih hx hlines _
    | nil =>
      obtain ⟨y, ys, hw, hy⟩ := hF hx hl
      have hpush : push d rules ([] ++ x :: below) l = ys.reverse ++ y :: below := by
        simp [push, hw]
      rw [hpush]
      exact ih hy hlines _

theorem Seams.run_ne_singleton {Q P F : Line → Prop} {stretch : Assembly}
    (h : Seams d further Q P stretch)
    (hF : ∀ {x l}, F x → P l → ∃ y ys, Peephole.window d (commonRules d ++ further) x l = y :: ys ∧ F y)
    {x z : Line} (hx : ¬P x)
    (hnext : Peephole.window d (commonRules d ++ further) x z = [x, z] ∧ F z ∨
      ∃ m, Peephole.window d (commonRules d ++ further) x z = [m] ∧ P m) (hlines : ∀ l ∈ lines, P l) :
    run d further (x :: z :: lines) ≠ [x] := by
  have hrun : run d further (x :: z :: lines) = (lines.foldl (push d (commonRules d ++ further))
      (push d (commonRules d ++ further) [x] z)).reverse := rfl
  intro hlost
  rw [hrun, reverse_eq_iff] at hlost
  rcases hnext with ⟨hw, hz⟩ | ⟨m, hw, hm⟩
  · obtain ⟨above, y, heq⟩ := exists_foldl_push hF hz hlines [] [x]
    have hpush : push d (commonRules d ++ further) [x] z = [] ++ z :: [x] := by simp [push, hw]
    rw [hpush, heq] at hlost
    simpa using congrArg List.length hlost
  · have hpush : push d (commonRules d ++ further) [x] z = [m] := by simp [push, hw]
    have hall := h.forall_mem_foldl (forall_mem_singleton.2 hm) hlines
    rw [hpush] at hlost
    rw [hlost] at hall
    exact hx (hall x mem_cons_self)

end Peephole

end SsaBackend
