import SsaBackend.Dialect.Basic
import SsaBackend.Text.Number

/-!
# The assembly syntax of amd64

Registers have a percent sign, literals a dollar sign, and the destination is the last operand.
-/

namespace SsaBackend.Amd64

def mnemonics : List String :=
  ["movq", "movl", "movabsq", "movzbq", "leaq", "addq", "subq", "imulq", "idivq", "andq", "orq",
    "xorq", "negq", "notq", "cqto", "cmpq", "testq", "sete", "setne", "setl", "setle", "setg",
    "setge", "pushq", "popq", "call", "callq", "ret", "retq", "jmp", "je", "jne", "jl", "jle", "jg",
    "jge", "leave", "nop"]

def registerNames : List Register :=
  ["rax", "rbx", "rcx", "rdx", "rsi", "rdi", "rsp", "rbp", "rip", "eax", "ebx", "ecx", "edx", "esi",
    "edi", "al", "bl", "cl", "dl", "sil", "dil"] ++
    ((numbered "r" 16).drop 8).flatMap fun r => [r, r ++ "d", r ++ "w", r ++ "b"]

def register? (operand : String) : Option Register := Text.after? '%' operand

def immediate? (operand : String) : Option Int64 := (Text.after? '$' operand).bind Text.int64?

def isImmediate (operand : String) : Bool := Text.startsWith '$' operand

def isMemory (operand : String) : Bool := Text.mentions '(' operand

/-! ### Memory operands

`offset(%base, %index, scale)`, where everything but the parentheses may be missing; a scale needs an
index. -/

/-- Reads `, scale)` or `)` to the end. The inner `none` stands for no scale. -/
def scaleText? : List Char → Option (Option (List Char))
  | [')'] => some none
  | ',' :: cs =>
    let cs := cs.dropWhile Text.isBlank
    let digits := cs.takeWhile Text.isDecimal
    if !digits.isEmpty && cs.dropWhile Text.isDecimal = [')'] then some (some digits) else none
  | _ => none

def afterBase? : List Char → Option (Option (List Char))
  | [')'] => some none
  | ',' :: cs =>
    match cs.dropWhile Text.isBlank with
    | '%' :: cs =>
      if (cs.takeWhile Text.isNameChar).isEmpty then none
      else scaleText? (cs.dropWhile Text.isNameChar)
    | _ => none
  | _ => none

def skipBase : List Char → List Char
  | '%' :: cs =>
    if (cs.takeWhile Text.isNameChar).isEmpty then '%' :: cs else cs.dropWhile Text.isNameChar
  | cs => cs

def skipMinus : List Char → List Char
  | '-' :: cs => cs
  | cs => cs

def scale? (operand : String) : Option (Option String) :=
  match (skipMinus operand.toList).dropWhile Text.isDecimal with
  | '(' :: cs => (afterBase? (skipBase cs)).map fun digits => digits.map String.ofList
  | _ => none

def memoryFault? (operand : String) : Option MemoryFault :=
  match scale? operand with
  | none => some .malformed
  | some none => none
  | some (some text) => if ["1", "2", "4", "8"].contains text then none else some (.scale text)

/-! ### Instructions -/

def isJump (mnemonic : String) : Bool := Text.startsWith 'j' mnemonic

def isCall (i : AsmInstr) : Bool := ["call", "callq"].contains i.mnemonic

def isReturn (i : AsmInstr) : Bool := ["ret", "retq"].contains i.mnemonic

def withoutDestination : List String :=
  ["cqto", "idivq", "cmpq", "testq", "pushq", "call", "callq", "ret", "retq", "leave", "nop"]

def destinations (i : AsmInstr) : List Nat :=
  if withoutDestination.contains i.mnemonic || isJump i.mnemonic || i.operands.isEmpty then []
  else [i.operands.length - 1]

def move? (i : AsmInstr) : Option (String × String) :=
  match i.mnemonic, i.operands with
  | "movq", [src, dst] => do return (← register? dst, ← register? src)
  | _, _ => none

def store? (i : AsmInstr) : Option (String × String) :=
  match i.mnemonic, i.operands with
  | "movq", [src, dst] => if isMemory dst then (register? src).map (·, dst) else none
  | _, _ => none

def load? (i : AsmInstr) : Option (String × String) :=
  match i.mnemonic, i.operands with
  | "movq", [src, dst] => if isMemory src then (register? dst).map (·, src) else none
  | _, _ => none

def jump? (i : AsmInstr) : Option String :=
  match i.mnemonic, i.operands with
  | "jmp", [label] => some label
  | _, _ => none

def amount? (k : Constants) (operand : String) : Option Int :=
  ((immediate? operand).or ((register? operand).bind k.get?)).map Int64.toInt

def otherEffects (i : AsmInstr) : List StackEffect :=
  if i.operands.getLast? = some "%rsp" && !(destinations i).isEmpty then [.unknown] else []

def stackEffects (k : Constants) (i : AsmInstr) : List StackEffect :=
  match i.mnemonic, i.operands with
  | "pushq", _ => [.grow 8]
  | "popq", _ => [.shrink 8]
  | "leave", _ => [.restoreFrame 0, .shrink 8]
  | "movq", ["%rsp", "%rbp"] => [.setFrame 0]
  | "movq", ["%rbp", "%rsp"] => [.restoreFrame 0]
  | "subq", [src, "%rsp"] => [(amount? k src).elim .unknown .grow]
  | "addq", [src, "%rsp"] => [(amount? k src).elim .unknown .shrink]
  | _, _ => otherEffects i

def constant? (i : AsmInstr) : Option Int64 :=
  match i.mnemonic, i.operands with
  | "movq", [src, _] => immediate? src
  | "movabsq", [src, _] => immediate? src
  | "xorq", [src, dst] => if src = dst then some 0 else none
  | _, _ => none

def saved (i : AsmInstr) : List Register :=
  match i.mnemonic, i.operands with
  | "pushq", [src] => (register? src).toList
  | _, _ => []

def restored (i : AsmInstr) : List Register :=
  match i.mnemonic, i.operands with
  | "popq", [dst] => (register? dst).toList
  | _, _ => []

def dialect : Dialect where
  target := target
  commentMark := "#"
  frameScratch := []
  isMnemonic := mnemonics.contains
  isRegister := registerNames.contains
  registers := Text.percentNames
  isImmediate := isImmediate
  isMemory := isMemory
  memoryFault? := memoryFault?
  labelOperand? := fun i => if isJump i.mnemonic || isCall i then some 0 else none
  destinations := destinations
  readsDestination := fun i =>
    ["addq", "subq", "imulq", "andq", "orq", "xorq", "negq", "notq"].contains i.mnemonic
  isCall := isCall
  isReturn := isReturn
  signs := fun _ => false
  authenticates := fun _ => false
  move? := move?
  store? := store?
  load? := load?
  jump? := jump?
  stackEffects := stackEffects
  constant? := fun _ => constant?
  saved := saved
  restored := restored
  requiredPredecessor? := fun i => if i.mnemonic = "idivq" then some "cqto" else none
  operandFaults := fun i => if 1 < i.operands.countP isMemory then [.memoryToMemory] else []
  operandWarnings := fun _ => []

end SsaBackend.Amd64
