import SsaBackend.Amd64.Instr
import SsaBackend.Schedule.Generate

/-!
# Instruction selection for amd64

Values are computed in their own register where that is possible and in `%rax` otherwise. Literals
that do not fit 32 bits, and divisors, go through `%r11`; `%r10` breaks cycles of moves. No
instruction has two memory operands.
-/

namespace SsaBackend.Amd64

def acc : Register := "rax"

def wide : Register := "r11"

def fitsImm (value : Int64) : Bool :=
  Int32.minValue.toInt ≤ value.toInt && value.toInt ≤ Int32.maxValue.toInt

/-- A spill slot. Slots lie right below the pushed registers. -/
def spillArg (f : Frame) (slot : Nat) : Arg :=
  .mem (-((f.saved.length * 8 + slot + 8 : Nat) : Int)) "rbp"

def source (f : Frame) : Operand → List Instr × Arg
  | .immediate value =>
    if fitsImm value then ([], .imm value.toInt)
    else ([.movabsq value.toInt wide], .reg wide)
  | .register r => ([], .reg r)
  | .stack slot => ([], spillArg f slot)

def loadReg (f : Frame) (dst : Register) : Operand → List Instr
  | .immediate value =>
    if fitsImm value then [.movq (.imm value.toInt) (.reg dst)] else [.movabsq value.toInt dst]
  | .register r => if r = dst then [] else [.movq (.reg r) (.reg dst)]
  | .stack slot => [.movq (spillArg f slot) (.reg dst)]

/-- Stores a register into a place. A literal is no place, so nothing is stored there. -/
def storeReg (f : Frame) (src : Register) : Operand → List Instr
  | .immediate _ => []
  | .register r => if r = src then [] else [.movq (.reg src) (.reg r)]
  | .stack slot => [.movq (.reg src) (spillArg f slot)]

def move (f : Frame) (dst src : Operand) : List Instr :=
  match dst, src with
  | .register r, src => loadReg f r src
  | dst, .register r => storeReg f r dst
  | .stack slot, .immediate value =>
    if fitsImm value then [.movq (.imm value.toInt) (spillArg f slot)]
    else loadReg f acc src ++ storeReg f acc dst
  | .stack dstSlot, .stack srcSlot =>
    if dstSlot = srcSlot then [] else loadReg f acc src ++ storeReg f acc dst
  | .immediate _, _ => []

inductive Selection
  | arith (op : Alu)
  | divide
  | compare (cond : Cond)

def select : BinOp → Selection
  | .add => .arith .add
  | .sub => .arith .sub
  | .mul => .arith .imul
  | .div => .divide
  | .and => .arith .and
  | .or => .arith .or
  | .xor => .arith .xor
  | .eq => .compare .e
  | .ne => .compare .ne
  | .lt => .compare .l
  | .le => .compare .le
  | .gt => .compare .g
  | .ge => .compare .ge

def divisor (f : Frame) : Operand → List Instr × Arg
  | .immediate value => (loadReg f wide (.immediate value), .reg wide)
  | op => source f op

/-- Where an operation computes: in its destination, unless that is no register or holds the right
operand. -/
def workReg (dst rhs : Operand) : Register :=
  match dst with
  | .register r => if rhs = dst then acc else r
  | _ => acc

def binop (f : Frame) (op : BinOp) (dst lhs rhs : Operand) : List Instr :=
  match select op with
  | .divide =>
    let (setup, arg) := divisor f rhs
    setup ++ loadReg f acc lhs ++ [.cqto, .idivq arg] ++ storeReg f acc dst
  | .compare cond =>
    let (setup, arg) := source f rhs
    loadReg f acc lhs ++ setup ++ [.cmpq arg (.reg acc), .setcc cond, .movzbq] ++
      storeReg f acc dst
  | .arith op =>
    let work := workReg dst rhs
    let (setup, arg) := source f rhs
    loadReg f work lhs ++ setup ++ [.alu op arg work] ++ storeReg f work dst

def addressReg (f : Frame) : Operand → List Instr × Register
  | .register r => ([], r)
  | op => (loadReg f acc op, acc)

def stored (f : Frame) : Operand → List Instr × Arg
  | .register r => ([], .reg r)
  | .immediate value =>
    if fitsImm value then ([], .imm value.toInt)
    else (loadReg f wide (.immediate value), .reg wide)
  | op => (loadReg f wide op, .reg wide)

def store (f : Frame) (addr src : Operand) : List Instr :=
  let (setupAddr, base) := addressReg f addr
  let (setupSrc, arg) := stored f src
  setupAddr ++ setupSrc ++ [.movq arg (.mem 0 base)]

def lowerStack (bytes : Nat) : List Instr :=
  if bytes = 0 then [] else [.alu .sub (.imm bytes) "rsp"]

def raiseStack (bytes : Nat) : List Instr :=
  if bytes = 0 then [] else [.alu .add (.imm bytes) "rsp"]

/-- Calls a function. Stack arguments are pushed from last to first, below a word of padding when
their number is odd, so that the stack pointer is aligned at the call. -/
def call (f : Frame) (callee : String) (args : List Operand) (dst : Option Operand) : List Instr :=
  let stackArgs := args.drop target.argRegs.length
  let padding := if stackArgs.length % 2 = 1 then 8 else 0
  lowerStack padding ++
    (stackArgs.reverse.flatMap fun arg =>
      let (setup, arg) := source f arg
      setup ++ [.pushq arg]) ++
    ((target.argRegs.zip args).flatMap fun a => loadReg f a.1 a.2) ++
    [.callq callee] ++ raiseStack (stackArgs.length * 8 + padding) ++
    dst.elim [] (storeReg f target.retReg)

/-- Fetches a stack-passed parameter, from above the saved frame pointer and the return address. -/
def incoming (f : Frame) (index : Nat) (dst : Operand) : List Instr :=
  let word : Arg := .mem ((16 + 8 * index : Nat) : Int) "rbp"
  match dst with
  | .register r => [.movq word (.reg r)]
  | dst => .movq word (.reg acc) :: storeReg f acc dst

def branchIf (f : Frame) (cond : Operand) (label : String) : List Instr :=
  match cond with
  | .register r => [.testq r r, .jne label]
  | cond =>
    let (setup, arg) := source f cond
    setup ++ [.cmpq (.imm 0) arg, .jne label]

def restSize (f : Frame) : Nat := f.localSize - f.saved.length * 8

def prologue (f : Frame) : List Instr :=
  [.pushq (.reg "rbp"), .movq (.reg "rsp") (.reg "rbp")] ++
    (f.saved.map fun r => .pushq (.reg r)) ++ lowerStack (restSize f)

def epilogue (f : Frame) : List Instr :=
  raiseStack (restSize f) ++ (f.saved.reverse.map fun r => .popq r) ++ [.popq "rbp", .retq]

def lower (f : Frame) : Step → List Instr
  | .label _ => []
  | .incoming index dst => incoming f index dst
  | .move dst src => move f dst src
  | .binop op dst lhs rhs => binop f op dst lhs rhs
  | .store addr src => store f addr src
  | .call callee args dst => call f callee args dst
  | .jump label => [.jmp label]
  | .branchIf cond label => branchIf f cond label
  | .epilogue => epilogue f

/-- The instruction set. It cannot sign return addresses. -/
def isa : Isa where
  target := target
  prologue := fun _ f => (prologue f).map Instr.render
  lower := fun _ f s => (lower f s).map Instr.render

end SsaBackend.Amd64
