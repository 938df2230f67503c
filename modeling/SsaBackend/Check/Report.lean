import SsaBackend.Check.Tracker
import SsaBackend.Dialect

/-!
# Reports

A check of a text puts together what the tracker finds in each instruction and what is odd about
instructions next to each other.
-/

namespace SsaBackend

structure Diagnostic (α : Type) where
  instr : AsmInstr
  cause : α

def Diagnostic.render {α : Type} (message : α → String) (d : Diagnostic α) : String :=
  "line " ++ toString d.instr.line ++ ": " ++ message d.cause ++ " (`" ++ d.instr.text ++ "`)"

abbrev Report := List (Diagnostic Finding)

namespace Report

def errors (r : Report) : List (Diagnostic Fault) :=
  r.filterMap fun d => match d.cause with
    | .fault cause => some ⟨d.instr, cause⟩
    | .warning _ => none

def warnings (r : Report) : List (Diagnostic Warning) :=
  r.filterMap fun d => match d.cause with
    | .fault _ => none
    | .warning cause => some ⟨d.instr, cause⟩

def isOk (r : Report) : Bool := r.errors.isEmpty

def errorTexts (r : Report) : List String := r.errors.map (Diagnostic.render Fault.message)

def warningTexts (r : Report) : List String := r.warnings.map (Diagnostic.render Warning.message)

def render (r : Report) : String :=
  "\n".intercalate
    ((r.errorTexts.map fun s => "error: " ++ s) ++ r.warningTexts.map fun s => "warning: " ++ s)

def counts (r : Report) (arch : Arch) : String :=
  arch.name ++ ": " ++ toString r.errors.length ++ " error(s), " ++ toString r.warnings.length ++
    " warning(s)"

def summary (r : Report) (arch : Arch) : String :=
  if r.isEmpty then r.counts arch else r.counts arch ++ "\n" ++ r.render

def refusal (r : Report) : String := "invalid assembly:\n" ++ r.render

end Report

namespace Check

def follow (d : Dialect) (t : Tracker) : List Item → Report
  | [] => []
  | .label name :: items => follow d (t.passLabel name) items
  | .directive _ :: items => follow d t items
  | .instr i :: items =>
    let (t, findings) := t.pass d i
    findings.map (⟨i, ·⟩) ++ follow d t items

/-! ### Neighbours -/

/-- The pairs of instructions next to each other, not separated by a label. `last` is the
instruction before, if there is one. -/
def adjacentFrom (last : Option AsmInstr) : List Item → List (AsmInstr × AsmInstr)
  | [] => []
  | .label _ :: items => adjacentFrom none items
  | .directive _ :: items => adjacentFrom last items
  | .instr i :: items => (last.map (·, i)).toList ++ adjacentFrom (some i) items

def adjacent (items : List Item) : List (AsmInstr × AsmInstr) := adjacentFrom none items

def predecessorFindings (d : Dialect) (first second : AsmInstr) : Report :=
  match d.requiredPredecessor? second with
  | some required =>
    if first.mnemonic = required then []
    else [⟨second, .warning (.missingPredecessor second.mnemonic required)⟩]
  | none => []

def swapsBack (d : Dialect) (dst src : String) (second : AsmInstr) : Bool :=
  d.move? second = some (src, dst)

/-- A move that does nothing, that the next instruction takes back, or whose result the next
instruction overwrites unread. -/
def moveFindings (d : Dialect) (first second : AsmInstr) : Report :=
  match d.move? first with
  | none => []
  | some (dst, src) =>
    if dst = src then [⟨first, .warning .selfMove⟩]
    else if swapsBack d dst src second then [⟨second, .warning .swapBack⟩]
    else if (d.written second).contains dst && !(d.readRegisters second).contains dst then
      [⟨first, .warning .overwrittenMove⟩]
    else []

def pairFindings (d : Dialect) (pair : AsmInstr × AsmInstr) : Report :=
  predecessorFindings d pair.1 pair.2 ++ moveFindings d pair.1 pair.2

def firstFindings (d : Dialect) (items : List Item) : Report :=
  match items.findSome? Item.instr? with
  | none => []
  | some first =>
    match d.requiredPredecessor? first with
    | some required => [⟨first, .warning (.missingPredecessor first.mnemonic required)⟩]
    | none => []

def listing (d : Dialect) (items : List Item) : Report :=
  follow d .start items ++ (adjacent items).flatMap (pairFindings d) ++ firstFindings d items

end Check

namespace Arch

def check (arch : Arch) (text : String) : Report :=
  Check.listing arch.dialect (arch.dialect.read text)

def namesExist (arch : Arch) (text : String) : Bool :=
  ((arch.dialect.read text).filterMap Item.instr?).all fun i =>
    (arch.dialect.nameFaults i).isEmpty

def validate (arch : Arch) (text : String) : Except Report Report :=
  let report := arch.check text
  if report.isOk then .ok report else .error report

end Arch

end SsaBackend
