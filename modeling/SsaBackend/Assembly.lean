/-!
# Assembly

The text of one function, line by line.
-/

namespace SsaBackend

inductive Line
  | directive (text : String)
  | label (name : String)
  | instruction (text : String)
  deriving DecidableEq

namespace Line

/-- The text of a line. Everything but labels stands one tab in. -/
def render : Line → String
  | directive text => "\t" ++ text
  | label name => name ++ ":"
  | instruction text => "\t" ++ text

def instruction? : Line → Option String
  | instruction text => some text
  | _ => none

end Line

abbrev Assembly := List Line

namespace Assembly

def render (a : Assembly) : String := "\n".intercalate (a.map Line.render) ++ "\n"

def instructions (a : Assembly) : List String := a.filterMap Line.instruction?

def instructionText (mnemonic : String) : (operands : List String) → String
  | [] => mnemonic
  | operands => mnemonic ++ " " ++ ", ".intercalate operands

end Assembly

end SsaBackend
