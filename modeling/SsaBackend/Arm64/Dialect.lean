import SsaBackend.Dialect.Basic
import SsaBackend.Text.Number

/-!
# The assembly syntax of arm64

Literals have a number sign, addresses stand in brackets, and the destination is the first operand.
-/

namespace SsaBackend.Arm64

def mnemonics : List String :=
  ["mov", "movz", "movk", "movn", "add", "sub", "mul", "sdiv", "udiv", "msub", "madd", "neg", "and",
    "orr", "eor", "mvn", "lsl", "lsr", "asr", "cmp", "cmn", "tst", "cset", "csel", "ldr", "str",
    "ldp", "stp", "b", "bl", "blr", "br", "cbz", "cbnz", "ret", "nop", "b.eq", "b.ne", "b.lt",
    "b.le", "b.gt", "b.ge", "paciasp", "autiasp"]

def keywords : List String :=
  ["eq", "ne", "lt", "le", "gt", "ge", "hi", "lo", "hs", "ls", "mi", "pl", "vs", "vc", "al", "nv",
    "lsl", "lsr", "asr", "ror", "uxtw", "sxtw"]

def registerNames : List Register :=
  numbered "x" 31 ++ numbered "w" 31 ++ ["sp", "xzr", "wzr", "fp", "lr"]

def immediate? (operand : String) : Option Int64 := (Text.after? '#' operand).bind Text.int64?

def isImmediate (operand : String) : Bool := Text.startsWith '#' operand

def isMemory (operand : String) : Bool := Text.startsWith '[' operand

def registers (operand : String) : List Register :=
  if isImmediate operand then [] else (Text.names operand).filter fun w => !keywords.contains w

/-! ### Memory operands

`[base]`, `[base, #offset]`, `[base, index]` or `[base, index, lsl #shift]`, and an exclamation mark
where the base is updated. -/

structure MemoryOperand where
  base : String
  offset : Option String
  shift : Option String
  writeback : Bool

def closing? : List Char → Option Bool
  | [']'] => some false
  | [']', '!'] => some true
  | _ => none

def run? (p : Char → Bool) (cs : List Char) : Option (List Char × List Char) :=
  if (cs.takeWhile p).isEmpty then none else some (cs.takeWhile p, cs.dropWhile p)

def skip? (lead : String) (cs : List Char) : Option (List Char) :=
  if lead.toList.isPrefixOf cs then some (cs.drop lead.length) else none

def offset? : List Char → Option (List Char × List Char)
  | '-' :: cs => (run? Text.isDecimal cs).map fun r => ('-' :: r.1, r.2)
  | cs => run? Text.isDecimal cs

def indexed? (base : List Char) (cs : List Char) : Option MemoryOperand := do
  let (_, cs) ← run? Text.isNameChar cs
  match skip? ", lsl #" cs with
  | some cs =>
    let (shift, cs) ← run? Text.isDecimal cs
    return ⟨String.ofList base, none, some (String.ofList shift), ← closing? cs⟩
  | none => return ⟨String.ofList base, none, none, ← closing? cs⟩

def memoryOperand? (operand : String) : Option MemoryOperand := do
  let cs ← skip? "[" operand.toList
  let (base, cs) ← run? Text.isNameChar cs
  match skip? ", #" cs, skip? ", " cs with
  | some cs, _ =>
    let (offset, cs) ← offset? cs
    return ⟨String.ofList base, some (String.ofList offset), none, ← closing? cs⟩
  | none, some cs => indexed? base cs
  | none, none => return ⟨String.ofList base, none, none, ← closing? cs⟩

def offsetFault? (text : String) : Option MemoryFault :=
  match Text.int64? text with
  | none => some .unreadableOffset
  | some n =>
    if -256 ≤ n.toInt ∧ n.toInt ≤ 32760 then none else some (.offsetRange n.toInt)

def memoryFault? (operand : String) : Option MemoryFault :=
  match memoryOperand? operand with
  | none => some .malformed
  | some m =>
    (m.offset.bind offsetFault?).or
      (m.shift.bind fun s => if ["0", "1", "2", "3"].contains s then none else some .shift)

def preIndex? (operand : String) : Option Int := do
  let m ← memoryOperand? operand
  if m.base = "sp" && m.writeback then
    return (← Text.int64? (← m.offset)).toInt
  else none

/-! ### Instructions -/

def isCondBranch (mnemonic : String) : Bool := (Text.afterText? "b." mnemonic).isSome

def labelOperand? (i : AsmInstr) : Option Nat :=
  if ["b", "bl"].contains i.mnemonic || isCondBranch i.mnemonic then some 0
  else if ["cbz", "cbnz"].contains i.mnemonic then some 1
  else none

def withoutDestination : List String :=
  ["str", "stp", "cmp", "cmn", "tst", "cbz", "cbnz", "ret", "nop", "bl", "blr", "br", "b"]

/-- The first operand is the destination, if there is one; a load of two registers has two. -/
def destinations (i : AsmInstr) : List Nat :=
  if withoutDestination.contains i.mnemonic || isCondBranch i.mnemonic then []
  else if i.mnemonic = "ldp" then [0, 1]
  else if i.operands.isEmpty then []
  else [0]

/-- A copy of a register. Copies from and to the stack pointer belong to the frame and do not
count. -/
def move? (i : AsmInstr) : Option (String × String) :=
  match i.mnemonic, i.operands with
  | "mov", [dst, src] =>
    if isImmediate src || dst = "sp" || src = "sp" then none else some (dst, src)
  | _, _ => none

def store? (i : AsmInstr) : Option (String × String) :=
  match i.mnemonic, i.operands with
  | "str", [src, address] => if Text.endsWith '!' address then none else some (src, address)
  | _, _ => none

def load? (i : AsmInstr) : Option (String × String) :=
  match i.mnemonic, i.operands with
  | "ldr", [dst, address] => if Text.endsWith '!' address then none else some (dst, address)
  | _, _ => none

def jump? (i : AsmInstr) : Option String :=
  match i.mnemonic, i.operands with
  | "b", [label] => some label
  | _, _ => none

def amount? (k : Constants) (operand : String) : Option Int :=
  ((immediate? operand).or (k.get? operand)).map Int64.toInt

def storeEffects (i : AsmInstr) : List StackEffect :=
  match i.operands.getLast? with
  | none => []
  | some address =>
    if Text.endsWith '!' address then
      [(preIndex? address).elim .unknown fun n => if n ≤ 0 then .grow (-n) else .shrink n]
    else []

def otherEffects (i : AsmInstr) : List StackEffect :=
  if i.operands.head? = some "sp" && !(destinations i).isEmpty then [.unknown] else []

def loadEffects (i : AsmInstr) : List StackEffect :=
  match i.operands.reverse with
  | post :: "[sp]" :: _ => [(immediate? post).elim .unknown fun n => .shrink n.toInt]
  | _ => otherEffects i

def spEffect (base : String) (delta : Int) : StackEffect :=
  if base = "sp" then .shrink delta
  else if base = "x29" then .restoreFrame delta
  else .unknown

def spDownEffect (base : String) (delta : Int) : StackEffect :=
  if base = "sp" then .grow delta
  else if base = "x29" then .restoreFrame (-delta)
  else .unknown

def stackEffects (k : Constants) (i : AsmInstr) : List StackEffect :=
  match i.mnemonic, i.operands with
  | "stp", _ => storeEffects i
  | "str", _ => storeEffects i
  | "ldp", _ => loadEffects i
  | "ldr", _ => loadEffects i
  | "mov", ["x29", "sp"] => [.setFrame 0]
  | "mov", ["sp", "x29"] => [.restoreFrame 0]
  | "add", ["x29", "sp", offset] => [(amount? k offset).elim .unknown .setFrame]
  | "add", ["sp", base, value] => [(amount? k value).elim .unknown (spEffect base)]
  | "sub", ["sp", base, value] => [(amount? k value).elim .unknown (spDownEffect base)]
  | _, _ => otherEffects i

/-- The left shift that the operands after a 16-bit chunk ask for. Amounts count modulo 64. -/
def chunkShift? : List String → Option Int64
  | [] => some 0
  | text :: _ => ((Text.afterText? "lsl #" text).bind Text.uint32?).map Int64.ofNat

def constant? (k : Constants) (i : AsmInstr) : Option Int64 :=
  match i.mnemonic, i.operands with
  | "mov", [_, src] => immediate? src
  | "movz", _ :: chunk :: rest => do return (← immediate? chunk) <<< (← chunkShift? rest)
  | "movk", dst :: chunk :: rest => do
    let old ← k.get? dst
    let shift ← chunkShift? rest
    return (old &&& ~~~((0xffff : Int64) <<< shift)) ||| ((← immediate? chunk) <<< shift)
  | _, _ => none

def saved (i : AsmInstr) : List Register :=
  match i.mnemonic, i.operands with
  | "stp", first :: second :: _ => [first, second]
  | "str", src :: _ => [src]
  | _, _ => []

def restored (i : AsmInstr) : List Register :=
  match i.mnemonic, i.operands with
  | "ldp", first :: second :: _ => [first, second]
  | "ldr", dst :: _ => [dst]
  | _, _ => []

def dialect : Dialect where
  target := target
  commentMark := "//"
  frameScratch := ["x16", "x17"]
  isMnemonic := mnemonics.contains
  isRegister := registerNames.contains
  registers := registers
  isImmediate := isImmediate
  isMemory := isMemory
  memoryFault? := memoryFault?
  labelOperand? := labelOperand?
  destinations := destinations
  readsDestination := fun i => i.mnemonic = "movk"
  isCall := fun i => ["bl", "blr"].contains i.mnemonic
  isReturn := fun i => i.mnemonic = "ret"
  signs := fun i => i.mnemonic = "paciasp"
  authenticates := fun i => i.mnemonic = "autiasp"
  move? := move?
  store? := store?
  load? := load?
  jump? := jump?
  stackEffects := stackEffects
  constant? := constant?
  saved := saved
  restored := restored
  requiredPredecessor? := fun _ => none
  operandFaults := fun _ => []
  operandWarnings := fun _ => []

end SsaBackend.Arm64
