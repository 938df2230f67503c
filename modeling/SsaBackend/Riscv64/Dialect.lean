import SsaBackend.Dialect.Basic
import SsaBackend.Text.Number

/-!
# The assembly syntax of riscv64

Registers and literals have no mark, addresses are `offset(base)`, and the destination is the first
operand.
-/

namespace SsaBackend.Riscv64

def mnemonics : List String :=
  ["li", "lui", "auipc", "mv", "add", "addi", "addiw", "sub", "subw", "mul", "div", "divu", "divw",
    "rem", "remu", "remw", "and", "andi", "or", "ori", "xor", "xori", "slli", "srli", "srai", "slt",
    "slti", "sltu", "sltiu", "seqz", "snez", "neg", "not", "ld", "sd", "lw", "sw", "j", "jal",
    "jalr", "jr", "call", "tail", "ret", "beqz", "bnez", "beq", "bne", "blt", "bge", "bltu", "bgeu",
    "nop"]

def registerNames : List Register :=
  ["zero", "ra", "sp", "gp", "tp", "fp"] ++ numbered "t" 7 ++ numbered "s" 12 ++ numbered "a" 8 ++
    numbered "x" 32

def immediate? (operand : String) : Option Int64 := Text.int64? operand

def isMemory (operand : String) : Bool := Text.mentions '(' operand

def isZero (operand : String) : Bool := ["zero", "x0"].contains operand

/-! ### Memory operands -/

def isBase : List Char → Bool
  | '(' :: cs => !(cs.takeWhile Text.isNameChar).isEmpty && cs.dropWhile Text.isNameChar = [')']
  | _ => false

def offsetText? (operand : String) : Option String :=
  let (sign, cs) := match operand.toList with
    | '-' :: cs => (['-'], cs)
    | cs => ([], cs)
  let digits := cs.takeWhile Text.isDecimal
  if !digits.isEmpty && isBase (cs.dropWhile Text.isDecimal) then
    some (String.ofList (sign ++ digits))
  else none

def memoryFault? (operand : String) : Option MemoryFault :=
  match offsetText? operand with
  | none => some .malformed
  | some text =>
    match Text.int64? text with
    | some n => if -2048 ≤ n.toInt ∧ n.toInt ≤ 2047 then none else some .offset
    | none => some .offset

/-! ### Instructions -/

def twoRegisterBranches : List String := ["beq", "bne", "blt", "bge", "bltu", "bgeu"]

def labelOperand? (i : AsmInstr) : Option Nat :=
  if ["j", "call", "tail"].contains i.mnemonic then some 0
  else if i.mnemonic = "jal" then some (i.operands.length - 1)
  else if ["beqz", "bnez"].contains i.mnemonic then some 1
  else if twoRegisterBranches.contains i.mnemonic then some 2
  else none

def isLinking (mnemonic : String) : Bool := ["jal", "jalr"].contains mnemonic

def withoutDestination : List String :=
  ["sd", "sw", "j", "jr", "call", "tail", "ret", "nop", "beqz", "bnez"] ++ twoRegisterBranches

/-- The first operand is the destination, if there is one. A jump with a single operand keeps the
return address in the link register, which it does not name. -/
def destinations (i : AsmInstr) : List Nat :=
  if withoutDestination.contains i.mnemonic || i.operands.isEmpty ||
      (isLinking i.mnemonic && i.operands.length < 2) then []
  else [0]

def isReturn (i : AsmInstr) : Bool :=
  i.mnemonic = "ret" || (i.mnemonic = "jr" && i.operands = ["ra"])

/-- A copy of a register. Copies from and to the stack pointer belong to the frame and do not
count. -/
def move? (i : AsmInstr) : Option (String × String) :=
  match i.mnemonic, i.operands with
  | "mv", [dst, src] => if dst = "sp" || src = "sp" then none else some (dst, src)
  | _, _ => none

def store? (i : AsmInstr) : Option (String × String) :=
  match i.mnemonic, i.operands with
  | "sd", [src, address] => some (src, address)
  | _, _ => none

def load? (i : AsmInstr) : Option (String × String) :=
  match i.mnemonic, i.operands with
  | "ld", [dst, address] => some (dst, address)
  | _, _ => none

def jump? (i : AsmInstr) : Option String :=
  match i.mnemonic, i.operands with
  | "j", [label] => some label
  | _, _ => none

def literal? (operand : String) : Option Int := (immediate? operand).map Int64.toInt

def known? (k : Constants) (operand : String) : Option Int := (k.get? operand).map Int64.toInt

def isFramePointer (operand : String) : Bool := ["s0", "fp"].contains operand

def otherEffects (i : AsmInstr) : List StackEffect :=
  if i.operands.head? = some "sp" && !(destinations i).isEmpty then [.unknown] else []

def shiftEffect (delta : Int) : StackEffect := if delta < 0 then .grow (-delta) else .shrink delta

def sumEffects (i : AsmInstr) (dst src : String) (delta : Option Int)
    (onStack : Int → StackEffect) : List StackEffect :=
  if dst = "sp" && src = "sp" then [delta.elim .unknown onStack]
  else if isFramePointer dst && src = "sp" then [delta.elim .unknown .setFrame]
  else otherEffects i

def copyEffects (i : AsmInstr) (dst src : String) : List StackEffect :=
  if dst = "sp" && isFramePointer src then [.restoreFrame 0]
  else if isFramePointer dst && src = "sp" then [.setFrame 0]
  else otherEffects i

def stackEffects (k : Constants) (i : AsmInstr) : List StackEffect :=
  match i.mnemonic, i.operands with
  | "mv", [dst, src] => copyEffects i dst src
  | "addi", [dst, src, value] =>
    if dst = "sp" && isFramePointer src then [(literal? value).elim .unknown .restoreFrame]
    else sumEffects i dst src (literal? value) shiftEffect
  | "add", [dst, src, reg] => sumEffects i dst src (known? k reg) .shrink
  | "sub", [dst, src, reg] =>
    sumEffects i dst src ((known? k reg).map fun n => -n) fun n => .grow (-n)
  | _, _ => otherEffects i

def word (value : Int64) : Int64 := value.toInt32.toInt64

def constant? (k : Constants) (i : AsmInstr) : Option Int64 :=
  match i.mnemonic, i.operands with
  | "li", [_, value] => immediate? value
  | "lui", [_, value] => do return word ((← immediate? value) <<< 12)
  | "addiw", [_, src, value] => do return word ((← k.get? src) + (← immediate? value))
  | "addi", [_, src, value] => do return (← k.get? src) + (← immediate? value)
  | "slli", [_, src, value] => do return (← k.get? src) <<< (← immediate? value)
  | "mv", [_, src] => k.get? src
  | _, _ => none

def saved (i : AsmInstr) : List Register := (store? i).toList.map Prod.fst

def restored (i : AsmInstr) : List Register := (load? i).toList.map Prod.fst

def operandFaults (i : AsmInstr) : List Fault :=
  match i.operands with
  | [_, _, divisor] =>
    if ["div", "divu", "divw", "rem", "remu", "remw"].contains i.mnemonic && isZero divisor then
      [.divisionByZeroRegister]
    else []
  | _ => []

/-- A write to the register that is always zero is lost. A jump may write there to keep no return
address. -/
def operandWarnings (i : AsmInstr) : List Warning :=
  if isLinking i.mnemonic then []
  else (((destinations i).filterMap i.operand?).filter isZero).map .discardedWrite

def dialect : Dialect where
  target := target
  commentMark := "#"
  frameScratch := ["t0"]
  isMnemonic := mnemonics.contains
  isRegister := registerNames.contains
  registers := Text.names
  isImmediate := fun operand => (immediate? operand).isSome
  isMemory := isMemory
  memoryFault? := memoryFault?
  labelOperand? := labelOperand?
  destinations := destinations
  readsDestination := fun _ => false
  isCall := fun i => i.mnemonic = "call" || isLinking i.mnemonic
  isReturn := isReturn
  signs := fun _ => false
  authenticates := fun _ => false
  move? := move?
  store? := store?
  load? := load?
  jump? := jump?
  stackEffects := stackEffects
  constant? := constant?
  saved := saved
  restored := restored
  requiredPredecessor? := fun _ => none
  operandFaults := operandFaults
  operandWarnings := operandWarnings

end SsaBackend.Riscv64
