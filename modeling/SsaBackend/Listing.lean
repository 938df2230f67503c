import SsaBackend.Text.Scan

/-!
# Listings

Assembly text read back as labels, directives and instructions, line by line. Comments, surrounding
blanks and empty lines are dropped. Nothing is rejected here: whether a mnemonic exists or an operand
makes sense is for a dialect to say.
-/

namespace SsaBackend

structure AsmInstr where
  mnemonic : String
  operands : List String
  line : Nat
  text : String
  deriving DecidableEq

def AsmInstr.operand? (i : AsmInstr) (index : Nat) : Option String := i.operands[index]?

inductive Item
  | label (name : String)
  | directive (text : String)
  | instr (i : AsmInstr)
  deriving DecidableEq

def Item.instr? : Item → Option AsmInstr
  | instr i => some i
  | _ => none

namespace Listing

/-! ### Operands -/

def nesting (c : Char) : Int :=
  if c = '[' || c = '(' then 1 else if c = ']' || c = ')' then -1 else 0

def pieces (depth : Int) : List Char → List Char × List (List Char)
  | [] => ([], [])
  | c :: cs =>
    if c = ',' && depth = 0 then
      let (piece, more) := pieces depth cs
      ([], piece :: more)
    else
      let (piece, more) := pieces (depth + nesting c) cs
      (c :: piece, more)

theorem intercalate_pieces (depth : Int) (cs : List Char) :
    [','].intercalate ((pieces depth cs).1 :: (pieces depth cs).2) = cs := by
  induction cs generalizing depth with
  | nil => rfl
  | cons c cs ih =>
    simp only [pieces]
    split
    · rename_i h
      have hc : c = ',' := by simp_all
      have := ih depth
      simp_all [List.intercalate, List.intersperse]
    · have := ih (depth + nesting c)
      cases hp : (pieces (depth + nesting c) cs).2 <;>
        simp_all [List.intercalate, List.intersperse]

/-- The operands of an instruction: the trimmed pieces between commas outside of brackets. What
follows the last comma is no operand if it is blank. -/
def operands (cs : List Char) : List String :=
  let (piece, more) := pieces 0 cs
  let all := (piece :: more).map Text.trimChars
  (if all.getLast? = some [] then all.dropLast else all).map String.ofList

/-! ### Lines -/

def instruction (line : Nat) (body : List Char) : AsmInstr :=
  let (mnemonic, rest) := Text.cutAtBlank body
  ⟨String.ofList mnemonic, operands rest, line, String.ofList body⟩

/-- What a trimmed line holds: a label ends in a colon, a directive starts with a dot, and anything
else is an instruction. -/
def item? (line : Nat) (body : List Char) : Option Item :=
  if body.isEmpty then none
  else if body.getLast? = some ':' then some (.label (String.ofList body.dropLast))
  else if body.head? = some '.' then some (.directive (String.ofList body))
  else some (.instr (instruction line body))

def readLine (mark : String) (line : Nat) (cs : List Char) : Option Item :=
  item? line (Text.trimChars (Text.beforeMark mark.toList cs))

def read (mark : String) (text : String) : List Item :=
  (text.toList.splitOn '\n').zipIdx.filterMap fun l => readLine mark (l.2 + 1) l.1

end Listing

end SsaBackend
