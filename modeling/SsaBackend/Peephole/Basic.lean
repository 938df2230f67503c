import SsaBackend.Assembly
import SsaBackend.Dialect.Basic

/-!
# Tidying up assembly

Finished assembly is read line by line through a window of two lines, the last line kept and the next
line to come. Rules replace pairs of instructions by shorter or cheaper ones. Labels and directives
close the window, so no rule needs to know where control comes from; the only change at a label
drops a jump right before its target.
-/

namespace SsaBackend

inductive Replacement
  | dropSecond
  | dropBoth
  | replaceFirst (text : String)
  | replaceSecond (text : String)
  | merge (text : String)
  deriving DecidableEq

def Replacement.lines (first second : Line) : Replacement → List Line
  | dropSecond => [first]
  | dropBoth => []
  | replaceFirst text => [.instruction text, second]
  | replaceSecond text => [first, .instruction text]
  | merge text => [.instruction text]

theorem Replacement.length_lines_le (r : Replacement) (first second : Line) :
    (r.lines first second).length ≤ 2 := by
  cases r <;> simp [lines]

abbrev Rule := AsmInstr → AsmInstr → Option Replacement

namespace Peephole

/-! ### Rules for every dialect -/

def swapBack (d : Dialect) : Rule := fun first second => do
  let (dst, src) ← d.move? first
  let (dst', src') ← d.move? second
  if dst' = src ∧ src' = dst then some .dropSecond else none

def reload (d : Dialect) : Rule := fun first second => do
  let (stored, place) ← d.store? first
  let (loaded, source) ← d.load? second
  if stored = loaded ∧ place = source then some .dropSecond else none

def storeBack (d : Dialect) : Rule := fun first second => do
  let (loaded, source) ← d.load? first
  let (stored, place) ← d.store? second
  if stored = loaded ∧ place = source then some .dropSecond else none

def commonRules (d : Dialect) : List Rule := [swapBack d, reload d, storeBack d]

/-! ### The window -/

def instr? (d : Dialect) (line : Line) : Option AsmInstr :=
  line.instruction?.bind fun text => (d.read text).getLast?.bind Item.instr?

def window (d : Dialect) (rules : List Rule) (first second : Line) : List Line :=
  match instr? d first, second with
  | none, _ => [first, second]
  | some prev, .label name => if d.jump? prev = some name then [second] else [first, second]
  | some prev, second =>
    match instr? d second with
    | none => [first, second]
    | some next =>
      match rules.findSome? fun rule => rule prev next with
      | none => [first, second]
      | some replacement => replacement.lines first second

theorem length_window_le (d : Dialect) (rules : List Rule) (first second : Line) :
    (window d rules first second).length ≤ 2 := by
  unfold window
  split
  · simp
  · split <;> simp
  · split
    · simp
    · split
      · simp
      · exact Replacement.length_lines_le _ _ _

def push (d : Dialect) (rules : List Rule) (kept : List Line) (line : Line) : List Line :=
  match kept with
  | [] => [line]
  | last :: rest => (window d rules last line).reverse ++ rest

def run (d : Dialect) (further : List Rule) (a : Assembly) : Assembly :=
  (a.foldl (push d (commonRules d ++ further)) []).reverse

end Peephole

end SsaBackend
