import SsaBackend.Proofs.Peephole.Rewriting
import SsaBackend.Proofs.Transfers

/-!
# Rules

A rule replaces two instructions by others. It is enough to look at instructions as mnemonics and
operands (`Keeps`): on lines that read back, the pass only sees those. The rules for every dialect
keep what code does if copies, loads and stores do what the dialect takes them for (`Transfers`). One
condition is about the code and not about the rule: a load must not change the address that it loads
from, or storing the word back would store it elsewhere.
-/

namespace SsaBackend

open List Listing

def Asm.Cell.line : Asm.Cell → Line
  | label name => .label name
  | instr mnemonic operands => .instruction (Assembly.instructionText mnemonic operands)

abbrev AsmInstr.cell (i : AsmInstr) : Asm.Cell := .instr i.mnemonic i.operands

namespace Peephole

open Asm

variable {mark : List Char} {ops : List String}

inductive Shaped (mark : List Char) (Shape : String → List String → Prop) : Cell → Prop
  | label {name : String} (hne : name.toList ≠ [])
      (hname : ∀ c ∈ name.toList, isInert mark c = true) : Shaped mark Shape (.label name)
  | instr {mnemonic : String} {operands : List String} (hm : isOpcode mark mnemonic = true)
      (hops : ∀ o ∈ operands, Legible mark o) (hshape : Shape mnemonic operands) :
      Shaped mark Shape (.instr mnemonic operands)

inductive ShapedLine (mark : List Char) (Shape : String → List String → Prop) : Line → Prop
  | cell {c : Cell} (h : Shaped mark Shape c) : ShapedLine mark Shape c.line
  | directive {text : String} (h : Line.Written mark (.directive text)) :
      ShapedLine mark Shape (.directive text)

variable {d : Dialect} {Shape : String → List String → Prop} {exec : Exec}

theorem Shaped.shape {m : String} (h : Shaped mark Shape (.instr m ops)) : Shape m ops := by
  cases h with
  | instr _ _ hshape => exact hshape

theorem Shaped.legible {m : String} (h : Shaped mark Shape (.instr m ops)) :
    ∀ o ∈ ops, Legible mark o := by
  cases h with
  | instr _ hops _ => exact hops

theorem ShapedLine.written {line : Line} (h : ShapedLine mark Shape line) : line.Written mark := by
  cases h with
  | directive h => exact h
  | cell h =>
    cases h with
    | label hne hname => exact .label hne hname
    | instr hm hops _ => exact .instruction hm hops

section Sound

variable (hmark : isMark d.commentMark.toList = true)

include hmark

theorem cell?_line {c : Cell} (h : Shaped d.commentMark.toList Shape c) :
    cell? d c.line = some c := by
  cases h with
  | label => rfl
  | instr hm hops _ => exact cell?_instructionText hmark hm hops

theorem codeOf_map_line {cells : List Cell} (h : ∀ c ∈ cells, Shaped d.commentMark.toList Shape c) :
    codeOf d (cells.map Cell.line) = cells := by
  induction cells with
  | nil => rfl
  | cons c cells ih =>
    obtain ⟨hc, hcells⟩ := forall_mem_cons.1 h
    rw [codeOf, map_cons, filterMap_cons, cell?_line hmark hc]
    exact congrArg (c :: ·) (ih hcells)

theorem readCode_map_line {cells : List Cell}
    (h : ∀ c ∈ cells, Shaped d.commentMark.toList Shape c) :
    readCode d (Assembly.render (cells.map Cell.line)) = cells := by
  refine (readCode_render hmark fun line hline => ?_).trans (codeOf_map_line hmark h)
  obtain ⟨c, hc, rfl⟩ := mem_map.1 hline
  exact (ShapedLine.cell (h c hc)).written

theorem exists_of_instr? {line : Line} {i : AsmInstr}
    (h : ShapedLine d.commentMark.toList Shape line) (hi : instr? d line = some i) :
    line = i.cell.line ∧ Shaped d.commentMark.toList Shape i.cell := by
  cases h with
  | directive => cases hi
  | cell h =>
    cases h with
    | label => cases hi
    | instr hm hops hshape =>
      rw [Cell.line, instr?_instructionText hmark hm hops] at hi
      cases hi
      exact ⟨rfl, .instr hm hops hshape⟩

def Keeps (mark : List Char) (Shape : String → List String → Prop) (exec : Exec) (first second : Cell)
    (r : Replacement) : Prop :=
  ∃ cells : List Cell, r.lines first.line second.line = cells.map Cell.line ∧
    (∀ c ∈ cells, Shaped mark Shape c) ∧
    ∀ s, straight exec cells s = straight exec [first, second] s

theorem faithful_of_keeps {rules : List Rule}
    (hjump : ∀ {i label}, Shaped d.commentMark.toList Shape i.cell → d.jump? i = some label →
      ∀ s, exec i.mnemonic i.operands s = some (.jump label s))
    (hrule : ∀ {rule i j r}, rule ∈ rules →
      Shaped d.commentMark.toList Shape i.cell →
      Shaped d.commentMark.toList Shape j.cell → rule i j = some r →
      Keeps d.commentMark.toList Shape exec i.cell j.cell r) :
    Faithful d rules exec (ShapedLine d.commentMark.toList Shape) where
  jump hline hi := hjump (exists_of_instr? hmark hline hi).2
  good hfirst hsecond hprev hnext hmem hfire line hline := by
    obtain ⟨rfl, hi⟩ := exists_of_instr? hmark hfirst hprev
    obtain ⟨rfl, hj⟩ := exists_of_instr? hmark hsecond hnext
    obtain ⟨cells, hcells, hshaped, -⟩ := hrule hmem hi hj hfire
    rw [hcells] at hline
    obtain ⟨c, hc, rfl⟩ := mem_map.1 hline
    exact .cell (hshaped c hc)
  straight hfirst hsecond hprev hnext hmem hfire s := by
    obtain ⟨rfl, hi⟩ := exists_of_instr? hmark hfirst hprev
    obtain ⟨rfl, hj⟩ := exists_of_instr? hmark hsecond hnext
    obtain ⟨cells, hcells, hshaped, hstraight⟩ := hrule hmem hi hj hfire
    have hboth := codeOf_map_line hmark (forall_mem_cons.2 ⟨hi, forall_mem_singleton.2 hj⟩)
    rw [hcells, codeOf_map_line hmark hshaped, hstraight]
    exact congrFun (congrArg _ hboth.symm) s

end Sound

/-! ### The rules for every dialect -/

theorem straight_singleton (m : String) (ops : List String) (s : State) :
    straight exec [.instr m ops] s = exec m ops s := by
  rw [straight]
  cases exec m ops s with
  | none => rfl
  | some e => cases e <;> rfl

theorem straight_pair (m m' : String) (ops ops' : List String) (s : State) :
    straight exec [.instr m ops, .instr m' ops'] s =
      (exec m ops s).bind fun e => e.andThen (exec m' ops') := by
  rw [straight]
  congr 1
  funext e
  congr 1
  funext s'
  exact straight_singleton m' ops' s'

theorem keeps_dropSecond {m m' : String} {ops' : List String}
    (hfirst : Shaped mark Shape (.instr m ops)) (h : ∀ s, exec m ops s = none ∨
      ∃ s', exec m ops s = some (.next s') ∧ exec m' ops' s' = some (.next s')) :
    Keeps mark Shape exec (.instr m ops) (.instr m' ops') .dropSecond := by
  refine ⟨[.instr m ops], rfl, forall_mem_singleton.2 hfirst, fun s => ?_⟩
  rw [straight_singleton, straight_pair]
  rcases h s with hnone | ⟨s', hs, hs'⟩
  · simp [hnone]
  · simp [hs, Effect.andThen, hs']

structure Transfers (d : Dialect) (Shape : String → List String → Prop) (exec : Exec)
    (address : String → State → Option Int64) : Prop where
  move : ∀ {i dst src}, Shape i.mnemonic i.operands → d.move? i = some (dst, src) →
    isPlain dst = true ∧ isPlain src = true ∧
      ∀ s, exec i.mnemonic i.operands s = some (.next (s.set dst (s.get src)))
  store : ∀ {i r text}, Shape i.mnemonic i.operands → d.store? i = some (r, text) →
    isPlain r = true ∧ ∀ s, exec i.mnemonic i.operands s =
      (address text s).bind fun a => (s.store a (s.get r)).map .next
  load : ∀ {i r text}, Shape i.mnemonic i.operands → d.load? i = some (r, text) →
    isPlain r = true ∧ (∀ s word, address text (s.set r word) = address text s) ∧
      ∀ s, exec i.mnemonic i.operands s =
        (address text s).bind fun a => (s.load a).map fun word => .next (s.set r word)
  poke : ∀ text s a word, address text (State.poke s a word) = address text s

namespace Transfers

variable {address : String → State → Option Int64} (h : Transfers d Shape exec address)
  {mark : List Char} {i j : AsmInstr} {r : Replacement}
  (hi : Shaped mark Shape i.cell)
  (hj : Shaped mark Shape j.cell)

include h hi hj

theorem keeps_swapBack (hr : swapBack d i j = some r) :
    Keeps mark Shape exec i.cell j.cell r := by
  obtain ⟨rfl, dst, src, hmove, hmove'⟩ := swapBack_eq_some hr
  obtain ⟨hdst, hsrc, hexec⟩ := h.move hi.shape hmove
  obtain ⟨-, -, hexec'⟩ := h.move hj.shape hmove'
  refine keeps_dropSecond hi fun s => .inr ⟨_, hexec s, ?_⟩
  have hkept : (s.set dst (s.get src)).get src = s.get src := by
    by_cases heq : src = dst
    · rw [heq, State.get_set_self hdst]
    · exact State.get_set_of_ne hdst hsrc heq
  rw [hexec', State.get_set_self hdst]
  nth_rewrite 2 [← hkept]
  rw [State.set_get hsrc]

theorem keeps_reload (hr : reload d i j = some r) :
    Keeps mark Shape exec i.cell j.cell r := by
  obtain ⟨rfl, reg, text, hstore, hload⟩ := reload_eq_some hr
  obtain ⟨hreg, hexec⟩ := h.store hi.shape hstore
  obtain ⟨-, -, hexec'⟩ := h.load hj.shape hload
  refine keeps_dropSecond hi fun s => ?_
  rw [hexec]
  cases ha : address text s with
  | none => exact .inl rfl
  | some a =>
    by_cases haligned : a.toInt % 8 = 0
    · -- what was stored is there to be loaded, and the address is still the same
      have hstored : s.store a (s.get reg) = some (s.poke a (s.get reg)) := if_pos haligned
      refine .inr ⟨s.poke a (s.get reg), by simp [hstored], ?_⟩
      have hword : (s.poke a (s.get reg)).load a = some (s.get reg) := by
        rw [State.load, if_pos haligned]
        exact if_pos rfl
      have hsame : (s.poke a (s.get reg)).set reg (s.get reg) = s.poke a (s.get reg) :=
        State.set_get hreg
      rw [hexec', h.poke, ha, Option.bind_some, hword, Option.map_some, hsame]
    · have hstored : s.store a (s.get reg) = none := if_neg haligned
      exact .inl (by simp [hstored])

theorem keeps_storeBack (hr : storeBack d i j = some r) :
    Keeps mark Shape exec i.cell j.cell r := by
  obtain ⟨rfl, reg, text, hload, hstore⟩ := storeBack_eq_some hr
  obtain ⟨hreg, hbase, hexec⟩ := h.load hi.shape hload
  obtain ⟨-, hexec'⟩ := h.store hj.shape hstore
  refine keeps_dropSecond hi fun s => ?_
  rw [hexec]
  cases ha : address text s with
  | none => exact .inl rfl
  | some a =>
    cases hword : s.load a with
    | none => exact .inl (by simp [hword])
    | some word =>
      refine .inr ⟨s.set reg word, by simp [hword], ?_⟩
      have hstored : (s.set reg word).store a word = some (s.set reg word) :=
        State.store_of_load (by rw [State.load_set, hword])
      rw [hexec', hbase, ha, Option.bind_some, State.get_set_self hreg, hstored, Option.map_some]

theorem keeps_common {rule : Rule} (hrule : rule ∈ commonRules d) (hr : rule i j = some r) :
    Keeps mark Shape exec i.cell j.cell r := by
  simp only [commonRules, mem_cons, not_mem_nil, or_false] at hrule
  rcases hrule with rfl | rfl | rfl
  · exact h.keeps_swapBack hi hj hr
  · exact h.keeps_reload hi hj hr
  · exact h.keeps_storeBack hi hj hr

end Transfers

end Peephole

end SsaBackend
