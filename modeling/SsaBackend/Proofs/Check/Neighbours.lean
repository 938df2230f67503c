import SsaBackend.Proofs.Check.Legal
import Mathlib.Data.List.Nodup

/-!
# Findings about neighbours

A check looks at the pairs of instructions that stand next to each other between labels
(`Check.adjacent_eq`). An instruction is in two of them at most: the one with the instruction before it,
where it must not lack what it needs, and the one with the instruction behind it, where it must not move
a register to itself (`Check.adjacent_split`). So a missing predecessor is found unless the instruction
is the first behind a label, and a move to itself unless it is the last before one
(`Arch.check_neighbours`).
-/

namespace SsaBackend

open List

/-! ### Runs -/

namespace Listing

def isLabel : Item → Bool
  | .label _ => true
  | _ => false

/-- The instructions of a listing, in runs that labels separate. -/
def runs (items : List Item) : List (List AsmInstr) :=
  (items.splitOnP isLabel).map (List.filterMap Item.instr?)

theorem exists_runs_eq_cons (items : List Item) : ∃ run rest, runs items = run :: rest :=
  exists_cons_of_ne_nil (by simp [runs, splitOnP_ne_nil])

theorem runs_label (name : String) (items : List Item) :
    runs (.label name :: items) = [] :: runs items := by
  simp [runs, splitOnP_cons_eq_if_modifyHead, isLabel]

theorem runs_cons {item : Item} (h : isLabel item = false) (items : List Item) :
    runs (item :: items) = (runs items).modifyHead (item.instr?.toList ++ ·) := by
  rw [runs, splitOnP_cons_eq_if_modifyHead, if_neg (by simp [h]), runs]
  cases items.splitOnP isLabel with
  | nil => rfl
  | cons run rest =>
    simp only [modifyHead_cons, map_cons, filterMap_cons]
    cases item.instr? <;> rfl

theorem flatten_runs (items : List Item) : (runs items).flatten = items.filterMap Item.instr? := by
  induction items with
  | nil => rfl
  | cons item items ih =>
    obtain ⟨run, rest, hruns⟩ := exists_runs_eq_cons items
    rw [hruns] at ih
    cases item with
    | label name => rw [runs_label, hruns, flatten_cons, ih]; rfl
    | directive text => rw [runs_cons rfl, hruns]; exact ih
    | instr i =>
      rw [runs_cons rfl, hruns]
      exact congrArg (i :: ·) ih

theorem line_of_readLine {mark : String} {n : Nat} {cs : List Char} {i : AsmInstr}
    (h : (readLine mark n cs).bind Item.instr? = some i) : i.line = n := by
  obtain ⟨item, hitem, hi⟩ := Option.bind_eq_some_iff.1 h
  unfold readLine item? at hitem
  split at hitem
  · cases hitem
  · split at hitem
    · cases hitem
      cases hi
    · split at hitem
      · cases hitem
        cases hi
      · cases hitem
        cases hi
        rfl

/-- Every instruction of a text has a line of its own. -/
theorem nodup_instrs (mark text : String) : ((read mark text).filterMap Item.instr?).Nodup := by
  have hlines : ((text.toList.splitOn '\n').zipIdx).Pairwise fun l l' => l.2 < l'.2 := by
    rw [← pairwise_map (f := Prod.snd) (R := (· < ·)), zipIdx_map_snd]
    exact pairwise_lt_range' _
  rw [read, filterMap_filterMap]
  refine pairwise_filterMap.2 (hlines.imp ?_)
  rintro l l' hlt i hi i' hi' rfl
  have hline := line_of_readLine hi
  have hline' := line_of_readLine hi'
  omega

end Listing

namespace Check

open Listing

/-- The pairs of instructions next to each other. -/
def pairs (run : List AsmInstr) : List (AsmInstr × AsmInstr) := run.zip run.tail

theorem mem_of_mem_pairs {run : List AsmInstr} {pair : AsmInstr × AsmInstr} (h : pair ∈ pairs run) :
    pair.1 ∈ run ∧ pair.2 ∈ run :=
  (of_mem_zip h).imp_right mem_of_mem_tail

theorem pairs_append (front : List AsmInstr) (i : AsmInstr) (back : List AsmInstr) :
    pairs (front ++ i :: back) = pairs front ++ (front.getLast?.map (·, i)).toList ++
      ((back.head?.map (i, ·)).toList ++ pairs back) := by
  have hpairs : ∀ (x : AsmInstr) (run : List AsmInstr),
      pairs (x :: run) = (run.head?.map (x, ·)).toList ++ pairs run := by
    intro x run
    cases run <;> rfl
  induction front with
  | nil => exact hpairs i back
  | cons x front ih =>
    rw [cons_append, hpairs, ih, hpairs]
    cases front with
    | nil => rfl
    | cons y front => simp [getLast?_cons_cons]

theorem adjacentFrom_eq (last : Option AsmInstr) (items : List Item) :
    adjacentFrom last items = ((runs items).modifyHead (last.toList ++ ·)).flatMap pairs := by
  induction items generalizing last with
  | nil => cases last <;> rfl
  | cons item items ih =>
    obtain ⟨run, rest, hruns⟩ := exists_runs_eq_cons items
    simp only [hruns, modifyHead_cons, flatMap_cons] at ih
    cases item with
    | label name =>
      rw [adjacentFrom, ih, runs_label, hruns]
      cases last <;> rfl
    | directive text =>
      rw [adjacentFrom, ih, runs_cons rfl, hruns]
      rfl
    | instr i =>
      rw [adjacentFrom, ih, runs_cons rfl, hruns]
      cases last <;> rfl

theorem adjacent_eq (items : List Item) : adjacent items = (runs items).flatMap pairs := by
  obtain ⟨run, rest, hruns⟩ := exists_runs_eq_cons items
  rw [adjacent, adjacentFrom_eq, hruns]
  rfl

/-- The two pairs that an instruction is in, and the pairs without it. -/
theorem adjacent_split {items : List Item} (hnodup : (items.filterMap Item.instr?).Nodup)
    {run front back : List AsmInstr} {i : AsmInstr} (hrun : run ∈ runs items)
    (hi : run = front ++ i :: back) :
    i ∉ front ∧ i ∉ back ∧ ((items.filterMap Item.instr?).head? = some i → front = []) ∧
      ∃ before behind, (∀ pair ∈ before ++ behind, pair.1 ≠ i ∧ pair.2 ≠ i) ∧
        adjacent items = before ++ (front.getLast?.map (·, i)).toList ++
          ((back.head?.map (i, ·)).toList ++ behind) := by
  obtain ⟨before, behind, hruns⟩ := append_of_mem hrun
  have hinstrs : items.filterMap Item.instr? =
      (before.flatten ++ front) ++ i :: (back ++ behind.flatten) := by
    rw [← flatten_runs, hruns, hi]
    simp
  rw [hinstrs] at hnodup ⊢
  obtain ⟨hi', -⟩ := nodup_cons.1 (nodup_middle.1 hnodup)
  simp only [mem_append, not_or] at hi'
  obtain ⟨⟨hbefore, hfront⟩, hback, hbehind⟩ := hi'
  -- the pairs of a list without the instruction
  have hfree : ∀ {run : List AsmInstr}, i ∉ run → ∀ pair ∈ pairs run, pair.1 ≠ i ∧ pair.2 ≠ i := by
    intro run hrun pair hpair
    obtain ⟨h1, h2⟩ := mem_of_mem_pairs hpair
    exact ⟨fun h => hrun (h ▸ h1), fun h => hrun (h ▸ h2)⟩
  have hfree' : ∀ {runs : List (List AsmInstr)}, i ∉ runs.flatten →
      ∀ pair ∈ runs.flatMap pairs, pair.1 ≠ i ∧ pair.2 ≠ i := by
    intro runs hruns
    exact forall_mem_flatMap.2 fun run hrun =>
      hfree fun hmem => hruns (mem_flatten.2 ⟨run, hrun, hmem⟩)
  refine ⟨hfront, hback, fun hhead => ?_, before.flatMap pairs ++ pairs front,
    pairs back ++ behind.flatMap pairs, ?_, ?_⟩
  · by_contra hne
    rw [head?_append_of_ne_nil _ (by simp [hne])] at hhead
    have hmem := mem_of_head? hhead
    simp [hbefore, hfront] at hmem
  · simp only [forall_mem_append]
    exact ⟨⟨hfree' hbefore, hfree hfront⟩, hfree hback, hfree' hbehind⟩
  · rw [adjacent_eq, hruns, hi, flatMap_append, flatMap_cons, pairs_append]
    simp only [append_assoc]

end Check

/-! ### Counts -/

/-- How often a report warns of `w` at an instruction. -/
def Report.count (r : Report) (i : AsmInstr) (w : Warning) : Nat :=
  r.countP fun x => x.instr = i ∧ x.cause = .warning w

namespace Report

variable {i : AsmInstr} {w : Warning}

theorem count_append (r r' : Report) : (r ++ r').count i w = r.count i w + r'.count i w :=
  countP_append

theorem count_eq_zero {r : Report} (h : ∀ x ∈ r, x.cause = .warning w → x.instr ≠ i) :
    r.count i w = 0 := by
  refine countP_eq_zero.2 fun x hx hcount => ?_
  obtain ⟨hi, hw⟩ := of_decide_eq_true hcount
  exact h x hx hw hi

end Report

namespace Check

open Listing Report

variable {d : Dialect} {i : AsmInstr} {w : Warning}

theorem count_pairFindings_eq_zero {adjacent : List (AsmInstr × AsmInstr)}
    (h : ∀ pair ∈ adjacent, pair.1 ≠ i ∧ pair.2 ≠ i) :
    Report.count (adjacent.flatMap (pairFindings d)) i w = 0 := by
  refine count_eq_zero fun x hx _ => ?_
  obtain ⟨pair, hpair, hx⟩ := mem_flatMap.1 hx
  obtain ⟨h1, h2⟩ := h pair hpair
  rcases (of_mem_pairFindings hx).2 with hinstr | hinstr
  · exact hinstr ▸ h1
  · exact hinstr ▸ h2

variable {first second : AsmInstr}

theorem cause_moveFindings {x : Diagnostic Finding} (hx : x ∈ moveFindings d first second) :
    (∀ m r, x.cause ≠ .warning (.missingPredecessor m r)) ∧
      (x.cause = .warning .selfMove → x.instr = first) := by
  unfold moveFindings at hx
  split at hx
  · cases hx
  · split at hx
    · simp [mem_singleton.1 hx]
    · split at hx
      · simp [mem_singleton.1 hx]
      · split at hx
        · simp [mem_singleton.1 hx]
        · cases hx

theorem cause_predecessorFindings {x : Diagnostic Finding}
    (hx : x ∈ predecessorFindings d first second) :
    x.cause ≠ .warning .selfMove ∧ x.instr = second := by
  unfold predecessorFindings at hx
  split at hx
  · split at hx
    · cases hx
    · simp [mem_singleton.1 hx]
  · cases hx

theorem count_pair_second {required : String} (h : d.requiredPredecessor? second = some required) :
    Report.count (pairFindings d (first, second)) second
      (.missingPredecessor second.mnemonic required) = if first.mnemonic = required then 0 else 1 := by
  rw [pairFindings, count_append, count_eq_zero fun x hx hw => absurd hw ((cause_moveFindings hx).1 _ _)]
  simp only [predecessorFindings, h]
  split <;> simp [Report.count]

theorem count_pair_first {r : String} (h : d.move? first = some (r, r)) :
    Report.count (pairFindings d (first, second)) first .selfMove = 1 := by
  rw [pairFindings, count_append,
    count_eq_zero fun x hx hw => absurd hw (cause_predecessorFindings hx).1]
  simp [moveFindings, h, Report.count]

theorem count_pair_other (hne : first ≠ second) :
    (∀ m r, Report.count (pairFindings d (first, second)) first (.missingPredecessor m r) = 0) ∧
      Report.count (pairFindings d (first, second)) second .selfMove = 0 := by
  simp only [pairFindings, count_append, Nat.add_eq_zero_iff]
  refine ⟨fun m r => ⟨count_eq_zero fun x hx _ => ?_, count_eq_zero fun x hx hw => ?_⟩,
    count_eq_zero fun x hx hw => ?_, count_eq_zero fun x hx hw => ?_⟩
  · exact (cause_predecessorFindings hx).2 ▸ hne.symm
  · exact absurd hw ((cause_moveFindings hx).1 m r)
  · exact absurd hw (cause_predecessorFindings hx).1
  · exact (cause_moveFindings hx).2 hw ▸ hne

theorem count_firstFindings (items : List Item) (i : AsmInstr) :
    Report.count (firstFindings d items) i .selfMove = 0 ∧
      ∀ required, d.requiredPredecessor? i = some required →
        Report.count (firstFindings d items) i (.missingPredecessor i.mnemonic required) =
          if (items.filterMap Item.instr?).head? = some i then 1 else 0 := by
  rw [head?_filterMap, firstFindings]
  cases items.findSome? Item.instr? with
  | none => exact ⟨rfl, fun _ _ => rfl⟩
  | some first =>
    dsimp only
    by_cases hfirst : first = i
    · subst hfirst
      refine ⟨?_, fun required h => ?_⟩
      · split <;> simp [Report.count]
      · simp [h, Report.count]
    · simp only [Option.some.injEq, hfirst, if_false]
      split <;> simp [Report.count, hfirst]

end Check

namespace Arch

open Listing Report

theorem count_follow (arch : Arch) {w : Warning} (hw : (Finding.warning w).isNeighbour = true)
    (i : AsmInstr) (items : List Item) :
    Report.count (Check.follow arch.dialect .start items) i w = 0 := by
  refine count_eq_zero fun x hx hcause => ?_
  rw [← hcause] at hw
  have hx := (Check.mem_operandFindings_of_follow hx (Finding.isFrame_eq_false hw)).2
  rw [(Finding.isSingle_iff.1 (arch.isSingle_of_mem_operandFindings hx)).2] at hw
  cases hw

/-- What a check of a text finds about an instruction and its neighbours. An instruction lacks the one
that has to come before it if another one does, or if it is the very first of the text; the first behind
a label is let through. A move of a register to itself is found once, unless it is the last before a
label or the end. -/
theorem check_neighbours (arch : Arch) (text : String) {run front back : List AsmInstr} {i : AsmInstr}
    (hrun : run ∈ runs (arch.dialect.read text)) (hi : run = front ++ i :: back) :
    (∀ required, arch.dialect.requiredPredecessor? i = some required →
      (∀ prev ∈ front.getLast?, (arch.check text).count i (.missingPredecessor i.mnemonic required) =
        if prev.mnemonic = required then 0 else 1) ∧
      (front = [] → (arch.check text).count i (.missingPredecessor i.mnemonic required) =
        if ((arch.dialect.read text).filterMap Item.instr?).head? = some i then 1 else 0)) ∧
    ∀ r, arch.dialect.move? i = some (r, r) →
      (arch.check text).count i .selfMove = if back = [] then 0 else 1 := by
  obtain ⟨hfront, hback, hfirst, before, behind, hfree, hadjacent⟩ :=
    Check.adjacent_split (nodup_instrs arch.dialect.commentMark text) hrun hi
  obtain ⟨hbefore, hbehind⟩ := List.forall_mem_append.1 hfree
  obtain ⟨hstart, hstart'⟩ := Check.count_firstFindings (d := arch.dialect) (arch.dialect.read text) i
  have hcount : ∀ {w}, (Finding.warning w).isNeighbour = true → (arch.check text).count i w =
      Report.count ((front.getLast?.map (·, i)).toList.flatMap (Check.pairFindings arch.dialect)) i w +
        Report.count ((back.head?.map (i, ·)).toList.flatMap (Check.pairFindings arch.dialect)) i w +
        Report.count (Check.firstFindings arch.dialect (arch.dialect.read text)) i w := by
    intro w hw
    rw [check, Check.listing, Dialect.read, hadjacent]
    simp only [count_append, List.flatMap_append, arch.count_follow hw,
      Check.count_pairFindings_eq_zero hbefore, Check.count_pairFindings_eq_zero hbehind,
      Nat.zero_add, Nat.add_zero]
  have hprev : ∀ prev ∈ front.getLast?, prev ≠ i := by
    rintro prev hprev rfl
    exact hfront (List.mem_of_getLast? hprev)
  have hnext : ∀ next ∈ back.head?, i ≠ next := by
    rintro next hnext rfl
    exact hback (List.mem_of_head? hnext)
  have hbehind' : ∀ required, Report.count ((back.head?.map (i, ·)).toList.flatMap
      (Check.pairFindings arch.dialect)) i (.missingPredecessor i.mnemonic required) = 0 := by
    intro required
    cases hhead : back.head? with
    | none => rfl
    | some next => simpa using (Check.count_pair_other (hnext next hhead)).1 _ required
  refine ⟨fun required h => ⟨fun prev hlast => ?_, fun hnil => ?_⟩, fun r h => ?_⟩
  · have hne : ((arch.dialect.read text).filterMap Item.instr?).head? ≠ some i := by
      intro hhead
      rw [hfirst hhead] at hlast
      cases hlast
    rw [hcount rfl, hbehind', hstart' required h, if_neg hne, hlast]
    simpa using Check.count_pair_second h
  · rw [hcount rfl, hbehind', hstart' required h, hnil]
    exact Nat.zero_add _
  · have hbefore' : Report.count ((front.getLast?.map (·, i)).toList.flatMap
        (Check.pairFindings arch.dialect)) i .selfMove = 0 := by
      cases hlast : front.getLast? with
      | none => rfl
      | some prev => simpa using (Check.count_pair_other (hprev prev hlast)).2
    rw [hcount rfl, hbefore', hstart]
    cases back with
    | nil => rfl
    | cons next back => simpa using Check.count_pair_first h

/-- A division right behind a move. -/
theorem check_neighbours_divide :
    [⟨"movq", ["%rax", "%rax"], 2, "movq %rax, %rax"⟩, ⟨"idivq", ["%rcx"], 3, "idivq %rcx"⟩] ∈
        runs (amd64.dialect.read "f:\n\tmovq %rax, %rax\n\tidivq %rcx\n") ∧
      (amd64.check "f:\n\tmovq %rax, %rax\n\tidivq %rcx\n").count
        ⟨"idivq", ["%rcx"], 3, "idivq %rcx"⟩ (.missingPredecessor "idivq" "cqto") = 1 ∧
      (amd64.check "f:\n\tmovq %rax, %rax\n\tidivq %rcx\n").count
        ⟨"movq", ["%rax", "%rax"], 2, "movq %rax, %rax"⟩ .selfMove = 1 := by
  have hrun : [⟨"movq", ["%rax", "%rax"], 2, "movq %rax, %rax"⟩, ⟨"idivq", ["%rcx"], 3, "idivq %rcx"⟩] ∈
      runs (amd64.dialect.read "f:\n\tmovq %rax, %rax\n\tidivq %rcx\n") := by decide
  exact ⟨hrun, ((check_neighbours amd64 _ hrun (show _ = [_] ++ _ from rfl)).1 "cqto" rfl).1 _ rfl,
    (check_neighbours amd64 _ hrun (show _ = [] ++ _ from rfl)).2 "rax" (by decide)⟩

/-- A division behind a label that is not preceded by what it needs is not found, and neither is a move
of a register to itself at the end of the text. -/
theorem check_neighbours_silent :
    ([⟨"idivq", ["%rcx"], 4, "idivq %rcx"⟩, ⟨"retq", [], 5, "retq"⟩] ∈
          runs (amd64.dialect.read "f:\n\tcqto\n.L1:\n\tidivq %rcx\n\tretq\n") ∧
        amd64.dialect.requiredPredecessor? ⟨"idivq", ["%rcx"], 4, "idivq %rcx"⟩ = some "cqto" ∧
        (amd64.check "f:\n\tcqto\n.L1:\n\tidivq %rcx\n\tretq\n").isEmpty = true) ∧
      [⟨"movq", ["%rax", "%rax"], 2, "movq %rax, %rax"⟩] ∈
          runs (amd64.dialect.read "f:\n\tmovq %rax, %rax\n") ∧
        amd64.dialect.move? ⟨"movq", ["%rax", "%rax"], 2, "movq %rax, %rax"⟩ = some ("rax", "rax") ∧
        (amd64.check "f:\n\tmovq %rax, %rax\n").isEmpty = true := by
  decide

end Arch

end SsaBackend
