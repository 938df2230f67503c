import SsaBackend.Proofs.Listing
import SsaBackend.Proofs.Transfers

/-!
# Rewriting code

Two codes are the same if every run of one is a run of the other (`Asm.Same`). A stretch without
labels may be replaced by another one that does the same from every state, and a jump right before
its target may be left out. A pass that looks at two lines at a time therefore keeps what code does
if each of its rules does, whatever the rules made of the lines before (`Peephole.Faithful.same_run`).
And what holds of every line of a text, and of every line that a rule makes of two such lines, holds of
every line after tidying up (`Peephole.forall_mem_run`). The rules for every dialect make no lines: they
only leave some out.
-/

namespace SsaBackend.Asm

variable {exec : Exec}

def Same (exec : Exec) (code code' : List Cell) : Prop :=
  ∀ entry s r, Returns exec code entry s r ↔ Returns exec code' entry s r

namespace Same

theorem refl (code : List Cell) : Same exec code code := fun _ _ _ => Iff.rfl

theorem trans {code code' code'' : List Cell} (h : Same exec code code')
    (h' : Same exec code' code'') : Same exec code code'' := fun entry s r =>
  (h entry s r).trans (h' entry s r)

end Same

/-! ### Replacing a stretch -/

@[simp] theorem labels_append (code code' : List Cell) :
    labels (code ++ code') = labels code ++ labels code' := List.filterMap_append

theorem enter_congr {code code' : List Cell} (h : ∀ label s,
    (find label code).bind (straight exec · s) = (find label code').bind (straight exec · s))
    (n : Nat) : enter exec code n = enter exec code' n := by
  induction n with
  | zero => rfl
  | succ n ih =>
    funext label s
    refine Option.ext fun r => ?_
    rw [enter_succ, enter_succ, h, ih]

theorem same_of_straight {old new : List Cell} (hold : labels old = []) (hnew : labels new = [])
    (h : ∀ s, straight exec old s = straight exec new s) (before after : List Cell) :
    Same exec (before ++ (old ++ after)) (before ++ (new ++ after)) := by
  have hstraight : ∀ code, straight exec (code ++ (old ++ after)) =
      straight exec (code ++ (new ++ after)) := by
    have hfront : straight exec (old ++ after) = straight exec (new ++ after) := by
      funext s
      rw [straight_append, straight_append, h]
    intro code
    funext s
    rw [straight_append, straight_append, hfront]
  have hfind : ∀ label s, (find label (before ++ (old ++ after))).bind (straight exec · s) =
      (find label (before ++ (new ++ after))).bind (straight exec · s) := by
    intro label s
    induction before with
    | nil =>
      simp only [List.nil_append]
      rw [find_append_of_notMem (by simp [hold]), find_append_of_notMem (by simp [hnew])]
    | cons c before ih =>
      cases c with
      | label name =>
        simp only [List.cons_append, find]
        split
        · exact congrFun (hstraight before) s
        · exact ih
      | instr m ops => exact ih
  intro entry s r
  exact exists_congr fun n => by rw [enter_congr hfind]

/-! ### Leaving out a jump -/

theorem find_jump (label target m : String) (ops : List String) (before after : List Cell) :
    find label (before ++ .instr m ops :: .label target :: after) =
        find label (before ++ .label target :: after) ∨
      ∃ rest, find label (before ++ .instr m ops :: .label target :: after) =
          some (rest ++ .instr m ops :: .label target :: after) ∧
        find label (before ++ .label target :: after) = some (rest ++ .label target :: after) := by
  induction before with
  | nil => exact .inl rfl
  | cons c before ih =>
    cases c with
    | label name =>
      simp only [List.cons_append, find]
      split
      · exact .inr ⟨before, rfl, rfl⟩
      · exact ih
    | instr => exact ih

section Jump

variable {m target : String} {ops : List String} {before after : List Cell}
  (hjump : ∀ s, exec m ops s = some (.jump target s)) (hnew : target ∉ labels before)

include hnew in
theorem find_target_jump :
    find target (before ++ .instr m ops :: .label target :: after) = some after := by
  rw [find_append_of_notMem hnew, find, find, if_pos rfl]

include hjump in
/-- Behind a label, code with the jump does what it does without, or gets to the jump. -/
theorem straight_find_jump (label : String) (s : State) :
    (find label (before ++ .instr m ops :: .label target :: after)).bind (straight exec · s) =
        (find label (before ++ .label target :: after)).bind (straight exec · s) ∨
      ∃ s', (find label (before ++ .instr m ops :: .label target :: after)).bind (straight exec · s) =
          some (.jump target s') ∧
        (find label (before ++ .label target :: after)).bind (straight exec · s) =
          straight exec after s' := by
  rcases find_jump label target m ops before after with hsame | ⟨rest, hold, hnew⟩
  · exact .inl (by rw [hsame])
  · rw [hold, hnew, Option.bind_some, Option.bind_some, straight_append, straight_append]
    cases straight exec rest s with
    | none => exact .inl rfl
    | some e =>
      cases e with
      | next s' => exact .inr ⟨s', by simp [Effect.andThen, straight, hjump], rfl⟩
      | jump | ret => exact .inl rfl

include hjump hnew in
theorem enter_of_jump {n : Nat} {label : String} {s : State} {r : Final}
    (h : enter exec (before ++ .instr m ops :: .label target :: after) n label s = some r) :
    enter exec (before ++ .label target :: after) n label s = some r := by
  -- the jump costs one unit of fuel, so the hypothesis is needed two levels down
  induction n using Nat.strongRecOn generalizing label s with
  | _ n ih =>
    cases n with
    | zero => cases h
    | succ n =>
      rw [enter_succ] at h ⊢
      obtain ⟨e, he, hr⟩ := h
      rcases straight_find_jump hjump label s with hsame | ⟨s', hold, hstraight⟩
      · exact ⟨e, hsame ▸ he, Effect.resume_mono hr fun _ _ => ih n (Nat.lt_succ_self n)⟩
      · cases hold.symm.trans he
        cases n with
        | zero => cases hr
        | succ n =>
          obtain ⟨e, he, hr⟩ := enter_succ.1 hr
          rw [find_target_jump hnew, Option.bind_some, ← hstraight] at he
          exact ⟨e, he, Effect.resume_mono hr fun _ _ h => enter_mono (Nat.le_succ n) (ih n (by omega) h)⟩

include hjump hnew in
theorem enter_jump_of_enter {n : Nat} {label : String} {s : State} {r : Final}
    (h : enter exec (before ++ .label target :: after) n label s = some r) :
    enter exec (before ++ .instr m ops :: .label target :: after) (2 * n) label s = some r := by
  induction n generalizing label s with
  | zero => cases h
  | succ n ih =>
    rw [show 2 * (n + 1) = 2 * n + 1 + 1 by omega]
    rw [enter_succ] at h ⊢
    obtain ⟨e, he, hr⟩ := h
    rcases straight_find_jump hjump label s with hsame | ⟨s', hold, hstraight⟩
    · exact ⟨e, hsame.trans he, Effect.resume_mono hr fun _ _ h => enter_mono (Nat.le_succ _) (ih h)⟩
    · refine ⟨_, hold, enter_succ.2 ⟨e, ?_, Effect.resume_mono hr fun _ _ => ih⟩⟩
      rw [find_target_jump hnew, Option.bind_some, ← hstraight, he]

include hjump hnew in
theorem same_jump :
    Same exec (before ++ .instr m ops :: .label target :: after)
      (before ++ .label target :: after) := by
  intro entry s r
  constructor
  · rintro ⟨n, hn⟩
    exact ⟨n, enter_of_jump hjump hnew hn⟩
  · rintro ⟨n, hn⟩
    exact ⟨2 * n, enter_jump_of_enter hjump hnew hn⟩

end Jump

end SsaBackend.Asm

namespace SsaBackend

def Replacement.made : Replacement → List Line
  | dropSecond | dropBoth => []
  | replaceFirst text | replaceSecond text | merge text => [.instruction text]

namespace Peephole

open Asm

variable {d : Dialect} {line : Line}

/-! ### The pass -/

theorem window_cases (d : Dialect) (rules : List Rule) (first second : Line) :
    window d rules first second = [first, second] ∨
      (∃ prev name, instr? d first = some prev ∧ second = .label name ∧
        d.jump? prev = some name ∧ window d rules first second = [second]) ∨
      ∃ prev next rule r, instr? d first = some prev ∧ instr? d second = some next ∧
        rule ∈ rules ∧ rule prev next = some r ∧
        window d rules first second = r.lines first second := by
  unfold window
  split
  · exact .inl rfl
  · next prev name hprev =>
    split
    · next hjump => exact .inr (.inl ⟨prev, name, hprev, rfl, hjump, rfl⟩)
    · exact .inl rfl
  · next prev hprev _ =>
    split
    · exact .inl rfl
    · next next hnext =>
      split
      · exact .inl rfl
      · next r hr =>
        obtain ⟨rule, hrule, hfire⟩ := List.exists_of_findSome?_eq_some hr
        exact .inr (.inr ⟨prev, next, rule, r, hprev, hnext, hrule, hfire, rfl⟩)

/-- What a look at two neighbouring lines keeps, the whole pass keeps. -/
theorem run_keeps {further : List Rule} {R : List Line → Prop}
    (hstep : ∀ before first second after, R (before ++ first :: second :: after) →
      R (before ++ (window d (commonRules d ++ further) first second ++ after)))
    {a : Assembly} (ha : R a) : R (run d further a) := by
  suffices hfold : ∀ lines kept, R (kept.reverse ++ lines) →
      R (lines.foldl (push d (commonRules d ++ further)) kept).reverse from hfold a [] ha
  intro lines
  induction lines with
  | nil => exact fun kept hkept => by simpa using hkept
  | cons line lines ih =>
    intro kept hkept
    refine ih _ ?_
    cases kept with
    | nil => exact hkept
    | cons last kept =>
      simpa [push] using hstep kept.reverse last line lines (by simpa using hkept)

def codeOf (d : Dialect) (lines : List Line) : List Cell := lines.filterMap (cell? d)

@[simp] theorem codeOf_append (d : Dialect) (lines lines' : List Line) :
    codeOf d (lines ++ lines') = codeOf d lines ++ codeOf d lines' := List.filterMap_append

structure Faithful (d : Dialect) (rules : List Rule) (exec : Exec) (Good : Line → Prop) : Prop where
  jump : ∀ {line i label}, Good line → instr? d line = some i → d.jump? i = some label →
    ∀ s, exec i.mnemonic i.operands s = some (.jump label s)
  good : ∀ {first second prev next rule r}, Good first → Good second →
    instr? d first = some prev → instr? d second = some next → rule ∈ rules →
    rule prev next = some r → ∀ line ∈ r.lines first second, Good line
  straight : ∀ {first second prev next rule r}, Good first → Good second →
    instr? d first = some prev → instr? d second = some next → rule ∈ rules →
    rule prev next = some r → ∀ s, straight exec (codeOf d (r.lines first second)) s =
      straight exec (codeOf d [first, second]) s

theorem cell?_of_instr? {i : AsmInstr} (h : instr? d line = some i) :
    cell? d line = some (.instr i.mnemonic i.operands) := by
  cases line with
  | instruction text => rw [cell?, h, Option.map_some]
  | label | directive => cases h

theorem labels_codeOf_eq_nil {lines : List Line}
    (h : ∀ line ∈ lines, ∃ text, line = .instruction text) : labels (codeOf d lines) = [] := by
  induction lines with
  | nil => rfl
  | cons line lines ih =>
    obtain ⟨⟨text, rfl⟩, hlines⟩ := List.forall_mem_cons.1 h
    rw [codeOf, List.filterMap_cons]
    split
    · exact ih hlines
    · next c hc =>
      rw [cell?] at hc
      obtain ⟨i, -, rfl⟩ := Option.map_eq_some_iff.1 hc
      exact ih hlines

theorem exists_text_of_instr? {i : AsmInstr} (h : instr? d line = some i) :
    ∃ text, line = .instruction text := by
  cases line with
  | instruction text => exact ⟨text, rfl⟩
  | label | directive => cases h

theorem exists_text_of_mem_lines {r : Replacement} {first second : String}
    (h : line ∈ r.lines (.instruction first) (.instruction second)) :
    ∃ text, line = .instruction text := by
  cases r <;> simp only [Replacement.lines, List.mem_cons, List.not_mem_nil, or_false] at h
  case dropSecond | merge => exact ⟨_, h⟩
  case replaceFirst | replaceSecond => rcases h with h | h <;> exact ⟨_, h⟩

namespace Faithful

variable {d : Dialect} {rules : List Rule} {exec : Exec} {Good : Line → Prop}
  (h : Faithful d rules exec Good)

include h in
theorem window_step {before after : List Line} {first second : Line} (hfirst : Good first)
    (hsecond : Good second)
    (hnodup : (labels (codeOf d (before ++ first :: second :: after))).Nodup) :
    (∀ line ∈ window d rules first second, Good line) ∧
      labels (codeOf d (before ++ (window d rules first second ++ after))) =
        labels (codeOf d (before ++ first :: second :: after)) ∧
      Same exec (codeOf d (before ++ first :: second :: after))
        (codeOf d (before ++ (window d rules first second ++ after))) := by
  have hboth : codeOf d (before ++ first :: second :: after) =
      codeOf d before ++ (codeOf d [first, second] ++ codeOf d after) := by
    rw [← codeOf_append, ← codeOf_append]
    rfl
  rcases window_cases d rules first second with
    heq | ⟨prev, name, hprev, rfl, hjump, heq⟩ |
      ⟨prev, next, rule, r, hprev, hnext, hrule, hfire, heq⟩ <;> rw [heq]
  · exact ⟨by simp [hfirst, hsecond], rfl, .refl _⟩
  · -- a jump goes: its target cannot stand anywhere before it
    have hcode : codeOf d [first, .label name] =
        [.instr prev.mnemonic prev.operands, .label name] := by
      rw [codeOf, List.filterMap_cons, cell?_of_instr? hprev]
      rfl
    have hlabel : codeOf d [.label name] = [.label name] := rfl
    rw [hboth, hcode] at hnodup ⊢
    rw [codeOf_append, codeOf_append, hlabel]
    refine ⟨by simpa using hsecond, by simp [labels], ?_⟩
    refine same_jump (h.jump hfirst hprev hjump) fun hmem => ?_
    rw [labels_append, List.nodup_append] at hnodup
    exact hnodup.2.2 name hmem name (by simp [labels]) rfl
  · obtain ⟨text, rfl⟩ := exists_text_of_instr? hprev
    obtain ⟨text', rfl⟩ := exists_text_of_instr? hnext
    have hold : labels (codeOf d [.instruction text, .instruction text']) = [] :=
      labels_codeOf_eq_nil (by simp)
    have hnew : labels (codeOf d (r.lines (.instruction text) (.instruction text'))) = [] :=
      labels_codeOf_eq_nil fun line hline => exists_text_of_mem_lines hline
    refine ⟨h.good hfirst hsecond hprev hnext hrule hfire, ?_, ?_⟩
    · rw [hboth, codeOf_append, codeOf_append]
      simp only [labels_append, hold, hnew]
    · rw [hboth, codeOf_append, codeOf_append]
      exact same_of_straight hold hnew
        (fun s => (h.straight hfirst hsecond hprev hnext hrule hfire s).symm) _ _

end Faithful

theorem Faithful.same_run {further : List Rule} {exec : Exec} {Good : Line → Prop}
    (h : Faithful d (commonRules d ++ further) exec Good) {a : Assembly}
    (ha : ∀ line ∈ a, Good line) (hnodup : (labels (codeOf d a)).Nodup) :
    (∀ line ∈ run d further a, Good line) ∧ Same exec (codeOf d a) (codeOf d (run d further a)) := by
  -- labels stay distinct, which the next window needs
  have hrun : (∀ line ∈ run d further a, Good line) ∧ (labels (codeOf d (run d further a))).Nodup ∧
      Same exec (codeOf d a) (codeOf d (run d further a)) := by
    refine run_keeps (R := fun b => (∀ line ∈ b, Good line) ∧ (labels (codeOf d b)).Nodup ∧
      Same exec (codeOf d a) (codeOf d b)) ?_ ⟨ha, hnodup, .refl _⟩
    rintro before first second after ⟨hgood, hnodup, hsame⟩
    simp only [List.forall_mem_append, List.forall_mem_cons] at hgood ⊢
    obtain ⟨hbefore, hfirst, hsecond, hafter⟩ := hgood
    obtain ⟨hwindow, hlabels, hstep⟩ := h.window_step hfirst hsecond hnodup
    exact ⟨⟨hbefore, hwindow, hafter⟩, hlabels ▸ hnodup, hsame.trans hstep⟩
  exact ⟨hrun.1, hrun.2.2⟩

/-! ### Lines -/

open List

section Lines

variable {further : List Rule} {P : Line → Prop}
  (hrule : ∀ {first second prev next rule r}, P first → P second → instr? d first = some prev →
    instr? d second = some next → rule ∈ further → rule prev next = some r → ∀ line ∈ r.made, P line)

include hrule

theorem forall_mem_window {first second : Line} (hfirst : P first) (hsecond : P second) :
    ∀ line ∈ window d (commonRules d ++ further) first second, P line := by
  have hboth : ∀ line ∈ [first, second], P line :=
    forall_mem_cons.2 ⟨hfirst, forall_mem_singleton.2 hsecond⟩
  obtain hw | ⟨_, _, -, -, -, hw⟩ | ⟨prev, next, rule, r, hprev, hnext, hmem, hr, hw⟩ :=
    window_cases d (commonRules d ++ further) first second
  · rwa [hw]
  · rw [hw]
    exact forall_mem_singleton.2 hsecond
  · rw [hw]
    rcases mem_append.1 hmem with hmem | hmem
    · rw [(of_common hmem hr).1]
      exact forall_mem_singleton.2 hfirst
    · have hmade := hrule hfirst hsecond hprev hnext hmem hr
      cases r with
      | dropSecond => exact forall_mem_singleton.2 hfirst
      | dropBoth => exact forall_mem_nil P
      | replaceFirst =>
        exact forall_mem_cons.2 ⟨forall_mem_singleton.1 hmade, forall_mem_singleton.2 hsecond⟩
      | replaceSecond => exact forall_mem_cons.2 ⟨hfirst, hmade⟩
      | merge => exact hmade

theorem forall_mem_run {a : Assembly} (ha : ∀ line ∈ a, P line) :
    ∀ line ∈ run d further a, P line := by
  refine run_keeps (R := fun b => ∀ line ∈ b, P line) (fun before first second after h => ?_) ha
  simp only [forall_mem_append, forall_mem_cons] at h ⊢
  exact ⟨h.1, forall_mem_window hrule h.2.1 h.2.2.1, h.2.2.2⟩

end Lines

theorem length_run_le (d : Dialect) (further : List Rule) (a : Assembly) :
    (run d further a).length ≤ a.length := by
  refine run_keeps (R := fun b => b.length ≤ a.length) (fun before first second after h => ?_)
    (Nat.le_refl _)
  have hwindow := length_window_le d (commonRules d ++ further) first second
  simp only [length_append, length_cons] at h ⊢
  omega

end Peephole

end SsaBackend
