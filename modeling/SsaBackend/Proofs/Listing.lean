import SsaBackend.Peephole.Basic
import SsaBackend.Proofs.Semantics.Assembly
import SsaBackend.Proofs.Text
import Mathlib.Data.List.Basic

/-!
# Reading back what was written

A line that is written from a mnemonic and operands reads back as that mnemonic and those operands,
provided that no operand has a comma outside of brackets, a blank at an end, or a character of the
comment mark in it (`Legible`). So the code of a whole text is the code of its lines
(`readCode_render`).
-/

namespace SsaBackend

open List Text

variable {ops : List String} {css : List (List Char)} {m : String}

/-- What labels and callees are made of. -/
def isReferenceChar (c : Char) : Bool := c.isAlphanum || c == '_' || c == '.'

/-- What labels and callees look like. -/
def isReference (name : String) : Bool :=
  !name.toList.isEmpty && name.toList.all isReferenceChar

namespace Listing

variable {mark : List Char}

/-! ### Operands -/

def depthAfter : Int → List Char → Option Int
  | depth, [] => some depth
  | depth, c :: cs => if c = ',' && depth = 0 then none else depthAfter (depth + nesting c) cs

theorem depthAfter_append (depth : Int) (cs cs' : List Char) :
    depthAfter depth (cs ++ cs') = (depthAfter depth cs).bind fun d => depthAfter d cs' := by
  induction cs generalizing depth with
  | nil => rfl
  | cons c cs ih =>
    simp only [cons_append, depthAfter]
    split
    · rfl
    · exact ih _

variable {cs : List Char}

theorem pieces_append {depth depth' : Int}
    (h : depthAfter depth cs = some depth') (rest : List Char) :
    pieces depth (cs ++ rest) = (cs ++ (pieces depth' rest).1, (pieces depth' rest).2) := by
  induction cs generalizing depth with
  | nil =>
    cases h
    rfl
  | cons c cs ih =>
    rw [depthAfter] at h
    split at h
    · contradiction
    · next hc => simp [pieces, hc, ih h]

structure Legible (mark : List Char) (text : String) : Prop where
  depth : depthAfter 0 text.toList = some 0
  first : ∃ c, text.toList.head? = some c ∧ isBlank c = false
  last : ∃ c, text.toList.getLast? = some c ∧ isBlank c = false
  clean : ∀ c ∈ text.toList, c ≠ '\n' ∧ c ≠ ':' ∧ c ∉ mark

def isInert (mark : List Char) (c : Char) : Bool :=
  !isBlank c && !([',', '[', ']', '(', ')', ':'] ++ mark).contains c

variable {c : Char}

theorem ne_of_isInert (h : isInert mark c = true) :
    isBlank c = false ∧ c ≠ ',' ∧ nesting c = 0 ∧ c ≠ '\n' ∧ c ≠ ':' ∧ c ∉ mark := by
  simp only [isInert, Bool.and_eq_true, Bool.not_eq_true', contains_eq_mem, decide_eq_false_iff_not,
    mem_append, mem_cons, not_mem_nil, or_false, not_or] at h
  obtain ⟨hblank, ⟨hcomma, h1, h2, h3, h4, hcolon⟩, hmark⟩ := h
  refine ⟨hblank, hcomma, by simp [nesting, h1, h2, h3, h4], ?_, hcolon, hmark⟩
  rintro rfl
  exact absurd hblank (by decide)

theorem depthAfter_of_inert (h : ∀ c ∈ cs, isInert mark c = true) (depth : Int) :
    depthAfter depth cs = some depth := by
  induction cs with
  | nil => rfl
  | cons c cs ih =>
    obtain ⟨hc, hcs⟩ := forall_mem_cons.1 h
    obtain ⟨-, hcomma, hnest, -⟩ := ne_of_isInert hc
    simp [depthAfter, hcomma, hnest, ih hcs]

variable {text : String}

theorem legible_of_inert (hne : text.toList ≠ []) (h : ∀ c ∈ text.toList, isInert mark c = true) :
    Legible mark text where
  depth := depthAfter_of_inert h 0
  first := ⟨text.toList.head hne, head?_eq_some_head hne,
    (ne_of_isInert (h _ (head_mem hne))).1⟩
  last := ⟨text.toList.getLast hne, getLast?_eq_some_getLast hne,
    (ne_of_isInert (h _ (getLast_mem hne))).1⟩
  clean c hc := (ne_of_isInert (h c hc)).2.2.2

theorem depthAfter_of_nesting (h : ∀ c ∈ cs, nesting c = 0) {depth : Int}
    (hdepth : depth ≠ 0) : depthAfter depth cs = some depth := by
  induction cs with
  | nil => rfl
  | cons c cs ih =>
    obtain ⟨hc, hcs⟩ := forall_mem_cons.1 h
    simp [depthAfter, hdepth, hc, ih hcs]

def isForeign (mark : List Char) : Bool :=
  mark.all fun c =>
    !c.isAlphanum && !(['-', '_', '.', '[', ']', '(', ')', ',', ' '].contains c)

theorem notMem_of_isForeign (hmark : isForeign mark = true)
    (hc : c ∈ ['-', '_', '.', '[', ']', '(', ')', ',', ' ']) : c ∉ mark := by
  simp only [isForeign, all_eq_true, Bool.and_eq_true, Bool.not_eq_true',
    contains_eq_mem, decide_eq_false_iff_not] at hmark
  exact fun hmem => (hmark c hmem).2 hc

theorem legible_of_brackets (left right : Char) (lead inner tail : List Char)
    (h : text.toList = lead ++ (left :: (inner ++ (right :: tail))))
    (hpair : (left, right) ∈ [('[', ']'), ('(', ')')]) (hmark : isForeign mark = true)
    (hlead : ∀ c ∈ lead, isInert mark c = true)
    (hinner : ∀ c ∈ inner, isInert mark c = true ∨ c ∈ [',', ' '])
    (htail : ∀ c ∈ tail, isInert mark c = true) : Legible mark text := by
  have hleft : nesting left = 1 ∧ isBlank left = false ∧ left ≠ '\n' ∧ left ≠ ':' ∧
      left ∉ mark ∧ left ≠ ',' := by
    simp only [mem_cons, Prod.mk.injEq, not_mem_nil, or_false] at hpair
    rcases hpair with ⟨rfl, -⟩ | ⟨rfl, -⟩ <;>
      exact ⟨by decide, by decide, by decide, by decide, notMem_of_isForeign hmark (by simp),
        by decide⟩
  have hright : nesting right = -1 ∧ isBlank right = false ∧ right ≠ '\n' ∧ right ≠ ':' ∧
      right ∉ mark := by
    simp only [mem_cons, Prod.mk.injEq, not_mem_nil, or_false] at hpair
    rcases hpair with ⟨-, rfl⟩ | ⟨-, rfl⟩ <;>
      exact ⟨by decide, by decide, by decide, by decide, notMem_of_isForeign hmark (by simp)⟩
  have hcomma : ∀ c ∈ [',', ' '], nesting c = 0 ∧ c ≠ '\n' ∧ c ≠ ':' ∧
      c ∈ ['-', '_', '.', '[', ']', '(', ')', ',', ' '] := by
    simp only [forall_mem_cons, not_mem_nil, false_implies, implies_true, and_true]
    decide
  have hsep : ∀ c ∈ inner, nesting c = 0 ∧ c ≠ '\n' ∧ c ≠ ':' ∧ c ∉ mark := by
    intro c hc
    rcases hinner c hc with hc | hc
    · exact (ne_of_isInert hc).2.2
    · obtain ⟨hnest, hline, hcolon, hmem⟩ := hcomma c hc
      exact ⟨hnest, hline, hcolon, notMem_of_isForeign hmark hmem⟩
  refine ⟨?_, ?_, ?_, ?_⟩
  · -- the depth goes up by one inside the brackets, where commas do not count
    rw [h, depthAfter_append, depthAfter_of_inert hlead, Option.bind_some, depthAfter,
      if_neg (by simp [hleft.2.2.2.2.2]), hleft.1, depthAfter_append,
      depthAfter_of_nesting (fun c hc => (hsep c hc).1) (by decide), Option.bind_some, depthAfter,
      if_neg (by simp), hright.1]
    exact depthAfter_of_inert htail 0
  · rw [h]
    cases lead with
    | nil => exact ⟨left, rfl, hleft.2.1⟩
    | cons c lead => exact ⟨c, rfl, (ne_of_isInert (hlead c mem_cons_self)).1⟩
  · rw [h, getLast?_append, getLast?_cons, Option.some_or, getLast?_append,
      getLast?_cons, Option.some_or]
    cases hlast : tail.getLast? with
    | none => exact ⟨right, rfl, hright.2.1⟩
    | some c => exact ⟨c, rfl, (ne_of_isInert (htail c (mem_of_getLast? hlast))).1⟩
  · intro c hc
    rw [h, mem_append, mem_cons, mem_append, mem_cons] at hc
    rcases hc with hc | rfl | hc | rfl | hc
    · exact (ne_of_isInert (hlead c hc)).2.2.2
    · exact ⟨hleft.2.2.1, hleft.2.2.2.1, hleft.2.2.2.2.1⟩
    · exact (hsep c hc).2
    · exact hright.2.2
    · exact (ne_of_isInert (htail c hc)).2.2.2

section Foreign

variable {mark : List Char} (hmark : isForeign mark = true)

include hmark

theorem isInert_of_isAlphanum (h : c.isAlphanum = true) : isInert mark c = true := by
  simp only [isForeign, all_eq_true, Bool.and_eq_true, Bool.not_eq_true'] at hmark
  have hsep : ∀ x ∈ [',', '[', ']', '(', ')', ':'], x.isAlphanum = false := by
    simp only [forall_mem_cons, not_mem_nil, false_implies, implies_true, and_true]
    decide
  have hmem : c ∉ [',', '[', ']', '(', ')', ':'] ++ mark := by
    intro hc
    rcases mem_append.1 hc with hc | hc
    · rw [hsep c hc] at h
      cases h
    · rw [(hmark c hc).1] at h
      cases h
  simp only [isInert, isBlank_of_isAlphanum h, contains_eq_mem, hmem]
  rfl

theorem isInert_of_mem (h : c ∈ ['-', '_', '.']) : isInert mark c = true := by
  have hsep : ∀ x ∈ ['-', '_', '.'], isBlank x = false ∧
      x ∉ [',', '[', ']', '(', ')', ':'] := by
    simp only [forall_mem_cons, not_mem_nil, false_implies, implies_true, and_true]
    decide
  have hmem : c ∉ [',', '[', ']', '(', ')', ':'] ++ mark := by
    intro hc
    rcases mem_append.1 hc with hc | hc
    · exact (hsep c h).2 hc
    · exact notMem_of_isForeign hmark (mem_append_left _ h) hc
  simp only [isInert, (hsep c h).1, contains_eq_mem, hmem]
  rfl

theorem isInert_of_mem_toString {n : Int} (h : c ∈ (toString n).toList) :
    isInert mark c = true := by
  rcases isDigit_of_mem_toString_int h with h | rfl
  · exact isInert_of_isAlphanum hmark (by simp [Char.isAlphanum, h])
  · exact isInert_of_mem hmark (by simp)

theorem isInert_of_mem_toString_nat {n : Nat} (h : c ∈ (toString n).toList) :
    isInert mark c = true :=
  isInert_of_mem_toString hmark (show c ∈ (toString (n : Int)).toList from h)

theorem isInert_of_isReference {name : String} (h : isReference name = true)
    (hc : c ∈ name.toList) : isInert mark c = true := by
  simp only [isReference, Bool.and_eq_true, all_eq_true, isReferenceChar, Bool.or_eq_true,
    beq_iff_eq] at h
  rcases h.2 c hc with (h | rfl) | rfl
  · exact isInert_of_isAlphanum hmark h
  · exact isInert_of_mem hmark (by simp)
  · exact isInert_of_mem hmark (by simp)

theorem legible_of_isReference {name : String} (h : isReference name = true) :
    Legible mark name := by
  refine legible_of_inert ?_ fun c hc => isInert_of_isReference hmark h hc
  simp only [isReference, Bool.and_eq_true, Bool.not_eq_true', isEmpty_eq_false_iff] at h
  exact h.1

end Foreign

theorem Legible.trim (h : Legible mark text) (blanks : List Char)
    (hblank : ∀ c ∈ blanks, isBlank c = true) :
    trimChars (blanks ++ text.toList) = text.toList := by
  obtain ⟨c, hc, hcb⟩ := h.first
  obtain ⟨e, he, heb⟩ := h.last
  refine trimChars_append _ hblank ?_ ?_
  · intro c' hc'
    cases hc.symm.trans hc'
    exact hcb
  · intro e' he'
    cases he.symm.trans he'
    exact heb

theorem Legible.ne_nil (h : Legible mark text) : text.toList ≠ [] := by
  obtain ⟨c, hc, -⟩ := h.first
  rintro heq
  rw [heq] at hc
  cases hc

theorem pieces_intercalate {op : String} (h : ∀ o ∈ op :: ops, Legible mark o) :
    pieces 0 ([',', ' '].intercalate ((op :: ops).map String.toList)) =
      (op.toList, ops.map fun o => ' ' :: o.toList) := by
  induction ops generalizing op with
  | nil => simpa [pieces] using pieces_append (h op mem_cons_self).depth []
  | cons op' ops ih =>
    obtain ⟨hop, hops⟩ := forall_mem_cons.1 h
    rw [map_cons, map_cons, intercalate_cons_cons, ← map_cons,
      append_assoc, pieces_append hop.depth]
    have hrest := ih hops
    rw [map_cons] at hrest
    simp [pieces, nesting, hrest]

theorem operands_intercalate {op : String} (h : ∀ o ∈ op :: ops, Legible mark o) :
    operands ([',', ' '].intercalate ((op :: ops).map String.toList)) = op :: ops := by
  obtain ⟨hop, hops⟩ := forall_mem_cons.1 h
  have htrim : (op.toList :: ops.map fun o => ' ' :: o.toList).map trimChars =
      (op :: ops).map String.toList := by
    rw [map_cons, map_cons, map_map]
    refine congr (congrArg List.cons (hop.trim [] (by simp))) ?_
    refine map_congr_left fun o ho => ?_
    exact (hops o ho).trim [' '] (forall_mem_singleton.2 (by decide))
  have hlast : ((op :: ops).map String.toList).getLast? ≠ some [] := by
    intro hnil
    obtain ⟨o, ho, hoe⟩ := mem_map.1 (mem_of_getLast? hnil)
    exact (h o ho).ne_nil hoe
  rw [operands, pieces_intercalate h]
  simp only [htrim, if_neg hlast, map_map]
  exact map_id'' (fun o => String.ofList_toList) _

/-! ### Lines -/

def isMark (mark : List Char) : Bool :=
  !mark.isEmpty && mark.all fun c => !([' ', '\t', ',', ':'].contains c)

def isOpcode (mark : List Char) (mnemonic : String) : Bool :=
  !mnemonic.toList.isEmpty && mnemonic.toList.all (isInert mark) && !startsWith '.' mnemonic

theorem toList_instructionText (m : String) (ops : List String) :
    (Assembly.instructionText m ops).toList = m.toList ++
      if ops = [] then [] else ' ' :: [',', ' '].intercalate (ops.map String.toList) := by
  cases ops with
  | nil => simp [Assembly.instructionText]
  | cons op ops =>
    simp [Assembly.instructionText, String.toList_append, String.toList_intercalate]

theorem mem_intercalate {sep : List Char} (h : c ∈ sep.intercalate css) :
    c ∈ sep ∨ ∃ cs ∈ css, c ∈ cs := by
  induction css with
  | nil => simp at h
  | cons cs css ih =>
    cases css with
    | nil => exact .inr ⟨cs, mem_cons_self, by simpa using h⟩
    | cons cs' css =>
      rw [intercalate_cons_cons, mem_append, mem_append] at h
      rcases h with (h | h) | h
      · exact .inr ⟨cs, mem_cons_self, h⟩
      · exact .inl h
      · exact (ih h).imp_right fun ⟨x, hx, hc⟩ => ⟨x, mem_cons_of_mem _ hx, hc⟩

theorem getLast?_of_intercalate {sep : List Char} (h : ∀ cs ∈ css, cs ≠ [])
    (hc : (sep.intercalate css).getLast? = some c) : ∃ cs ∈ css, cs.getLast? = some c := by
  induction css with
  | nil => simp at hc
  | cons cs css ih =>
    cases css with
    | nil => exact ⟨cs, mem_cons_self, by simpa using hc⟩
    | cons cs' css =>
      obtain ⟨-, hcss⟩ := forall_mem_cons.1 h
      have hne : sep.intercalate (cs' :: css) ≠ [] := by
        have hcs' := hcss cs' mem_cons_self
        cases css <;> simp [hcs']
      rw [intercalate_cons_cons, getLast?_append_of_ne_nil _ hne] at hc
      obtain ⟨x, hx, hxc⟩ := ih hcss hc
      exact ⟨x, mem_cons_of_mem _ hx, hxc⟩

theorem cutAtBlank_append (h : ∀ c ∈ cs, isBlank c = false)
    {rest : List Char} (hrest : rest = [] ∨ ∃ rest', rest = ' ' :: rest') :
    cutAtBlank (cs ++ rest) = (cs, rest.drop 1) := by
  have hnot : ∀ c ∈ cs, (!isBlank c) = true := fun c hc => by simp [h c hc]
  rw [cutAtBlank, takeWhile_append_of_pos hnot, dropWhile_append_of_pos hnot]
  rcases hrest with rfl | ⟨rest', rfl⟩
  · simp
  · simp [show isBlank ' ' = true by decide]

theorem cutAtBlank_instructionText (hm : isOpcode mark m = true) (ops : List String) :
    cutAtBlank (Assembly.instructionText m ops).toList =
      (m.toList, [',', ' '].intercalate (ops.map String.toList)) := by
  simp only [isOpcode, Bool.and_eq_true, all_eq_true] at hm
  rw [toList_instructionText, cutAtBlank_append fun c hc => (ne_of_isInert (hm.1.2 c hc)).1]
  · cases ops <;> simp
  · cases ops <;> simp

section Lines

variable {mark : String} (hmark : isMark mark.toList = true) {m : String} {ops : List String}
  (hm : isOpcode mark.toList m = true) (hops : ∀ o ∈ ops, Legible mark.toList o)

include hmark in
theorem beforeMark_eq (h : ∀ c ∈ cs, c ∉ mark.toList) : beforeMark mark.toList cs = cs := by
  cases hlist : mark.toList with
  | nil => simp [hlist, isMark] at hmark
  | cons c rest =>
    rw [hlist] at h
    exact beforeMark_eq_self fun hc => h c hc mem_cons_self

include hmark hm hops in
theorem clean_instructionText (h : c ∈ (Assembly.instructionText m ops).toList) :
    c ≠ '\n' ∧ c ≠ ':' ∧ c ∉ mark.toList := by
  simp only [isMark, Bool.and_eq_true, all_eq_true] at hmark
  have hsep : ∀ c ∈ [',', ' '], c ≠ '\n' ∧ c ≠ ':' ∧ c ∉ mark.toList := by
    intro c hc
    refine ⟨by rintro rfl; simp at hc, by rintro rfl; simp at hc, fun hcm => ?_⟩
    have := hmark.2 c hcm
    rcases mem_cons.1 hc with rfl | hc
    · exact absurd this (by decide)
    · rw [mem_singleton.1 hc] at this
      exact absurd this (by decide)
  simp only [isOpcode, Bool.and_eq_true, all_eq_true] at hm
  rw [toList_instructionText, mem_append] at h
  rcases h with h | h
  · exact (ne_of_isInert (hm.1.2 c h)).2.2.2
  · split at h
    · contradiction
    · rcases mem_cons.1 h with rfl | h
      · exact hsep ' ' (by simp)
      · rcases mem_intercalate h with h | ⟨cs, hcs, hc⟩
        · exact hsep c h
        · obtain ⟨o, ho, rfl⟩ := mem_map.1 hcs
          exact (hops o ho).clean c hc

include hm hops in
theorem trim_instructionText {blanks : List Char} (hblank : ∀ c ∈ blanks, isBlank c = true) :
    trimChars (blanks ++ (Assembly.instructionText m ops).toList) =
      (Assembly.instructionText m ops).toList := by
  simp only [isOpcode, Bool.and_eq_true, all_eq_true, Bool.not_eq_true', isEmpty_eq_false_iff] at hm
  obtain ⟨⟨hne, hinert⟩, -⟩ := hm
  refine trimChars_append _ hblank ?_ ?_
  · intro c hc
    rw [toList_instructionText, head?_append_of_ne_nil _ hne] at hc
    exact (ne_of_isInert (hinert c (mem_of_head? hc))).1
  · intro c hc
    rw [toList_instructionText] at hc
    cases ops with
    | nil =>
      rw [if_pos rfl, append_nil] at hc
      exact (ne_of_isInert (hinert c (mem_of_getLast? hc))).1
    | cons op ops =>
      -- the last character is that of some operand
      have hnil : ∀ x ∈ (op :: ops).map String.toList, x ≠ [] := by
        intro x hx
        obtain ⟨o, ho, rfl⟩ := mem_map.1 hx
        exact (hops o ho).ne_nil
      have hsome : [',', ' '].intercalate ((op :: ops).map String.toList) ≠ [] := by
        have hop := hnil op.toList mem_cons_self
        cases ops <;> simp [hop]
      rw [if_neg (by simp), getLast?_append, getLast?_cons, getLast?_eq_some_getLast hsome,
        Option.getD_some, Option.some_or, ← getLast?_eq_some_getLast hsome] at hc
      obtain ⟨x, hx, hxc⟩ := getLast?_of_intercalate hnil hc
      obtain ⟨o, ho, rfl⟩ := mem_map.1 hx
      obtain ⟨e, he, heb⟩ := (hops o ho).last
      cases he.symm.trans hxc
      exact heb

include hmark hm hops in
theorem readLine_instructionText (n : Nat) (blanks : List Char)
    (hblank : ∀ c ∈ blanks, isBlank c = true ∧ c ∉ mark.toList) :
    readLine mark n (blanks ++ (Assembly.instructionText m ops).toList) =
      some (.instr ⟨m, ops, n, Assembly.instructionText m ops⟩) := by
  have hclean : ∀ c ∈ (Assembly.instructionText m ops).toList, _ := fun c hc =>
    clean_instructionText hmark hm hops hc
  have htrim := trim_instructionText hm hops fun c hc => (hblank c hc).1
  have hcut := cutAtBlank_instructionText hm ops
  simp only [isOpcode, Bool.and_eq_true, all_eq_true, Bool.not_eq_true',
    isEmpty_eq_false_iff, startsWith, beq_eq_false_iff_ne] at hm
  obtain ⟨⟨hne, -⟩, hdot⟩ := hm
  have hlist := toList_instructionText m ops
  have hoperands : operands ([',', ' '].intercalate (ops.map String.toList)) = ops := by
    cases ops with
    | nil => rfl
    | cons op ops => exact operands_intercalate hops
  rw [readLine, beforeMark_eq hmark, htrim, item?, if_neg, if_neg, if_neg]
  · simp [instruction, hcut, hoperands]
  · rw [hlist, head?_append_of_ne_nil _ hne]
    exact hdot
  · exact fun hcolon => (hclean ':' (mem_of_getLast? hcolon)).2.1 rfl
  · simp [hlist, hne]
  · intro c hc
    rcases mem_append.1 hc with hc | hc
    · exact (hblank c hc).2
    · exact (hclean c hc).2.2

include hmark hm hops in
theorem read_instructionText :
    read mark (Assembly.instructionText m ops) =
      [.instr ⟨m, ops, 1, Assembly.instructionText m ops⟩] := by
  have hsplit : (Assembly.instructionText m ops).toList.splitOn '\n' =
      [(Assembly.instructionText m ops).toList] := by
    have hnl : ∀ l ∈ [(Assembly.instructionText m ops).toList], '\n' ∉ l := by
      intro l hl hc
      rw [mem_singleton.1 hl] at hc
      exact (clean_instructionText hmark hm hops hc).1 rfl
    simpa using splitOn_intercalate '\n' hnl (by simp)
  have hread := readLine_instructionText hmark hm hops 1 [] (by simp)
  simp only [read, hsplit, zipIdx_cons, zipIdx_nil, filterMap_cons, filterMap_nil, Nat.zero_add]
  rw [nil_append] at hread
  rw [hread]

end Lines

end Listing

open Listing

inductive Line.Written (mark : List Char) : Line → Prop
  | label {name : String} (hne : name.toList ≠ [])
      (hname : ∀ c ∈ name.toList, isInert mark c = true) : Written mark (.label name)
  | directive {text : String} (hdot : text.toList.head? = some '.')
      (hlast : ∀ c, text.toList.getLast? = some c → isBlank c = false)
      (hclean : ∀ c ∈ text.toList, c ≠ '\n' ∧ c ≠ ':' ∧ c ∉ mark) : Written mark (.directive text)
  | instruction {m : String} {ops : List String} (hm : isOpcode mark m = true)
      (hops : ∀ o ∈ ops, Legible mark o) :
      Written mark (.instruction (Assembly.instructionText m ops))

namespace Asm

variable {a : Assembly}

def cell? (d : Dialect) : Line → Option Cell
  | .label name => some (.label name)
  | .directive _ => none
  | .instruction text =>
    (Peephole.instr? d (.instruction text)).map fun i => .instr i.mnemonic i.operands

variable {d : Dialect} (hmark : isMark d.commentMark.toList = true)

include hmark in
theorem instr?_instructionText (hm : isOpcode d.commentMark.toList m = true)
    (hops : ∀ o ∈ ops, Legible d.commentMark.toList o) :
    Peephole.instr? d (.instruction (Assembly.instructionText m ops)) =
      some ⟨m, ops, 1, Assembly.instructionText m ops⟩ := by
  rw [Peephole.instr?, Line.instruction?, Option.bind_some, Dialect.read,
    read_instructionText hmark hm hops]
  rfl

include hmark in
@[simp] theorem cell?_instructionText (hm : isOpcode d.commentMark.toList m = true)
    (hops : ∀ o ∈ ops, Legible d.commentMark.toList o) :
    cell? d (.instruction (Assembly.instructionText m ops)) = some (.instr m ops) := by
  rw [cell?, instr?_instructionText hmark hm hops, Option.map_some]

/-- What a line holds in a text where it has number `n`. -/
def item? (d : Dialect) (n : Nat) : Line → Option Item
  | .label name => some (.label name)
  | .directive text => some (.directive text)
  | .instruction text =>
    (Peephole.instr? d (.instruction text)).map fun i => .instr { i with line := n }

theorem bind_item? (d : Dialect) (n : Nat) (line : Line) :
    (item? d n line).bind Cell.ofItem? = cell? d line := by
  cases line with
  | label | directive => rfl
  | instruction text =>
    rw [item?, cell?]
    cases Peephole.instr? d (.instruction text) <;> rfl

include hmark in
@[simp] theorem item?_instructionText (hm : isOpcode d.commentMark.toList m = true)
    (hops : ∀ o ∈ ops, Legible d.commentMark.toList o) (n : Nat) :
    item? d n (.instruction (Assembly.instructionText m ops)) =
      some (.instr ⟨m, ops, n, Assembly.instructionText m ops⟩) := by
  rw [item?, instr?_instructionText hmark hm hops, Option.map_some]

include hmark in
theorem readLine_render {line : Line} (h : line.Written d.commentMark.toList) (n : Nat) :
    '\n' ∉ line.render.toList ∧
      readLine d.commentMark n line.render.toList = item? d n line := by
  have htab : ∀ c ∈ ['\t'], isBlank c = true ∧ c ∉ d.commentMark.toList := by
    intro c hc
    rw [mem_singleton.1 hc]
    simp only [isMark, Bool.and_eq_true, all_eq_true] at hmark
    exact ⟨by decide, fun hm => absurd (hmark.2 _ hm) (by decide)⟩
  cases h with
  | @label name hne hname =>
    have hcolon : ':' ∉ d.commentMark.toList := by
      simp only [isMark, Bool.and_eq_true, all_eq_true] at hmark
      exact fun hm => absurd (hmark.2 _ hm) (by decide)
    -- neither the name nor the colon starts a comment, so nothing is cut off
    have hclean : ∀ c ∈ name.toList ++ [':'], c ≠ '\n' ∧ c ∉ d.commentMark.toList := by
      intro c hc
      rcases mem_append.1 hc with hc | hc
      · have hinert := ne_of_isInert (hname c hc)
        exact ⟨hinert.2.2.2.1, hinert.2.2.2.2.2⟩
      · rw [mem_singleton.1 hc]
        exact ⟨by decide, hcolon⟩
    have hfirst : ∀ c, (name.toList ++ [':']).head? = some c → isBlank c = false := by
      intro c hc
      rw [head?_append_of_ne_nil _ hne] at hc
      exact (ne_of_isInert (hname c (mem_of_head? hc))).1
    have htrim := trimChars_append [] (by simp) hfirst (by simp; decide)
    rw [nil_append] at htrim
    rw [Line.render, String.toList_append]
    refine ⟨fun hc => (hclean _ hc).1 rfl, ?_⟩
    show readLine d.commentMark n (name.toList ++ [':']) = some (.label name)
    rw [readLine, beforeMark_eq hmark fun c hc => (hclean c hc).2, htrim]
    simp [Listing.item?]
  | @directive text hdot hlast hclean =>
    rw [Line.render, String.toList_append]
    refine ⟨fun hc => ?_, ?_⟩
    · rcases mem_append.1 hc with hc | hc
      · exact absurd hc (by decide)
      · exact (hclean _ hc).1 rfl
    · show readLine d.commentMark n (['\t'] ++ text.toList) = some (.directive text)
      rw [readLine, beforeMark_eq hmark, trimChars_append _ fun c hc => (htab c hc).1]
      · have hcolon : text.toList.getLast? ≠ some ':' := fun hc =>
          (hclean ':' (mem_of_getLast? hc)).2.1 rfl
        have hne : text.toList.isEmpty = false := by
          cases hl : text.toList with
          | nil => simp [hl] at hdot
          | cons c cs => rfl
        simp [Listing.item?, hne, hcolon, hdot]
      · rw [hdot]
        exact fun c hc => Option.some.inj hc ▸ (by decide)
      · exact hlast
      · intro c hc
        rcases mem_append.1 hc with hc | hc
        · exact (htab c hc).2
        · exact (hclean c hc).2.2
  | @instruction m ops hm hops =>
    rw [item?_instructionText hmark hm hops, Line.render, String.toList_append]
    refine ⟨fun hc => ?_, readLine_instructionText hmark hm hops n _ htab⟩
    rcases mem_append.1 hc with hc | hc
    · exact absurd hc (by decide)
    · exact (clean_instructionText hmark hm hops hc).1 rfl

theorem intercalate_concat (sep : List Char) (h : css ≠ []) (last : List Char) :
    sep.intercalate (css ++ [last]) = sep.intercalate css ++ (sep ++ last) := by
  induction css with
  | nil => contradiction
  | cons cs css ih =>
    cases css with
    | nil => simp
    | cons cs' css =>
      rw [cons_append, cons_append, intercalate_cons_cons,
        intercalate_cons_cons, ← cons_append, ih (by simp)]
      simp

def items (d : Dialect) (n : Nat) (a : Assembly) : List Item :=
  (a.zipIdx n).filterMap fun l => item? d l.2 l.1

@[simp] theorem items_nil (d : Dialect) (n : Nat) : items d n [] = [] := rfl

@[simp] theorem items_cons (d : Dialect) (n : Nat) (line : Line) (a : Assembly) :
    items d n (line :: a) = (item? d n line).toList ++ items d (n + 1) a := by
  rw [items, zipIdx_cons, filterMap_cons]
  cases item? d n line <;> rfl

@[simp] theorem items_append (d : Dialect) (n : Nat) (a b : Assembly) :
    items d n (a ++ b) = items d n a ++ items d (n + a.length) b := by
  rw [items, zipIdx_append, filterMap_append]
  rfl

theorem filterMap_items (d : Dialect) (n : Nat) (a : Assembly) :
    (items d n a).filterMap Cell.ofItem? = a.filterMap (cell? d) := by
  induction a generalizing n with
  | nil => rfl
  | cons line a ih =>
    rw [items_cons, filterMap_append, ih, filterMap_cons, ← bind_item? d n line]
    cases item? d n line with
    | none => rfl
    | some i => cases h : Cell.ofItem? i <;> simp [h]

include hmark in
theorem filterMap_readLine (k : Nat) (h : ∀ line ∈ a, line.Written d.commentMark.toList) :
    ((a.map (fun line : Line => line.render.toList) ++ [[]]).zipIdx k).filterMap
      (fun l : List Char × Nat => readLine d.commentMark (l.2 + 1) l.1) = items d (k + 1) a := by
  induction a generalizing k with
  | nil => simp [readLine, beforeMark, trimChars, Listing.item?]
  | cons line a ih =>
    obtain ⟨hline, ha⟩ := forall_mem_cons.1 h
    rw [map_cons, cons_append, zipIdx_cons, filterMap_cons, ih _ ha, items_cons,
      (readLine_render hmark hline (k + 1)).2]
    cases item? d (k + 1) line <;> rfl

include hmark in
theorem read_render (h : ∀ line ∈ a, line.Written d.commentMark.toList) :
    d.read a.render = items d 1 a := by
  cases a with
  | nil => rfl
  | cons line a =>
    have hlines : ((line :: a).map fun l => l.render.toList) ≠ [] := by simp
    have htext : (Assembly.render (line :: a)).toList =
        ['\n'].intercalate (((line :: a).map fun l => l.render.toList) ++ [[]]) := by
      rw [intercalate_concat _ hlines, append_nil, Assembly.render, String.toList_append,
        String.toList_intercalate, map_map]
      rfl
    have hsplit : (Assembly.render (line :: a)).toList.splitOn '\n' =
        ((line :: a).map fun l => l.render.toList) ++ [[]] := by
      rw [htext]
      refine splitOn_intercalate '\n' ?_ (by simp)
      intro cs hcs
      rcases mem_append.1 hcs with hcs | hcs
      · obtain ⟨l, hl, rfl⟩ := mem_map.1 hcs
        exact (readLine_render hmark (h l hl) 1).1
      · simp [mem_singleton.1 hcs]
    rw [Dialect.read]
    unfold Listing.read
    rw [hsplit]
    exact filterMap_readLine hmark 0 h

include hmark in
theorem readCode_render (h : ∀ line ∈ a, line.Written d.commentMark.toList) :
    readCode d a.render = a.filterMap (cell? d) := by
  rw [readCode, read_render hmark h, filterMap_items]

end Asm

end SsaBackend
