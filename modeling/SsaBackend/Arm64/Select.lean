import SsaBackend.Arm64.Instr
import SsaBackend.Schedule.Generate

/-!
# Instruction selection for arm64

Operands that are not in registers are read into `x9` and `x10`, and results for the stack are
computed in `x11`; `x15` breaks cycles of moves. Offsets and sizes that no instruction can hold go
through `x16` and `x17`.
-/

namespace SsaBackend.Arm64

def tmp0 : Register := "x9"

def tmp1 : Register := "x10"

def result : Register := "x11"

def farSize : Register := "x16"

def farAddr : Register := "x17"

def maxArithImm : Nat := 4095

def maxOffset : Nat := 32760

/-- The nonzero 16-bit chunks of a literal in two's complement, each with its shift, from low to
high. -/
def chunks (value : Int) : List (Nat × Nat) :=
  let bits := (value % UInt64.size).toNat
  [0, 16, 32, 48].filterMap fun shift =>
    let chunk := (bits >>> shift) % 65536
    if chunk = 0 then none else some (chunk, shift)

def materialize (dst : Register) (value : Int) : List Instr :=
  if -65536 ≤ value ∧ value ≤ 65535 then [.mov dst (.imm value)]
  else
    match chunks value with
    | [] => []
    | (chunk, shift) :: rest =>
      .movz dst chunk shift :: rest.map fun c => .movk dst c.1 c.2

/-- The word at an offset from the stack pointer, with the instructions that make it addressable. -/
def spAddress (offset : Nat) : List Instr × Address :=
  if offset % 8 = 0 ∧ offset ≤ maxOffset then ([], ⟨"sp", offset⟩)
  else (materialize farAddr offset ++ [.alu .add farAddr "sp" (.reg farAddr)], ⟨farAddr, 0⟩)

def spillAddress (f : Frame) (slot : Nat) : List Instr × Address := spAddress (f.spillOffset slot)

def loadSlot (f : Frame) (dst : Register) (slot : Nat) : List Instr :=
  let (setup, address) := spillAddress f slot
  setup ++ [.ldr dst address]

def storeSlot (f : Frame) (src : Register) (slot : Nat) : List Instr :=
  let (setup, address) := spillAddress f slot
  setup ++ [.str src address]

def loadReg (f : Frame) (dst : Register) : Operand → List Instr
  | .immediate value => materialize dst value.toInt
  | .register r => if dst = r then [] else [.mov dst (.reg r)]
  | .stack slot => loadSlot f dst slot

def read (f : Frame) (scratch : Register) : Operand → List Instr × Register
  | .register r => ([], r)
  | op => (loadReg f scratch op, scratch)

/-- Stores a register into a place. A literal is no place, so nothing is stored there. -/
def write (f : Frame) (src : Register) : Operand → List Instr
  | .immediate _ => []
  | .register r => if r = src then [] else [.mov r (.reg src)]
  | .stack slot => storeSlot f src slot

def move (f : Frame) (dst src : Operand) : List Instr :=
  if dst = src then []
  else
    match dst with
    | .register r => loadReg f r src
    | dst =>
      let (setup, r) := read f tmp0 src
      setup ++ write f r dst

inductive Selection
  | arith (op : Alu)
  | compare (cond : Cond)

def select : BinOp → Selection
  | .add => .arith .add
  | .sub => .arith .sub
  | .mul => .arith .mul
  | .div => .arith .sdiv
  | .and => .arith .and
  | .or => .arith .orr
  | .xor => .arith .eor
  | .eq => .compare .eq
  | .ne => .compare .ne
  | .lt => .compare .lt
  | .le => .compare .le
  | .gt => .compare .gt
  | .ge => .compare .ge

def arithImm? : Operand → Option Int
  | .immediate value =>
    if 0 ≤ value.toInt ∧ value.toInt ≤ maxArithImm then some value.toInt else none
  | _ => none

/-- The right operand: an immediate where one is allowed and fits, and otherwise a register. -/
def rightArg (f : Frame) (allowImm : Bool) (rhs : Operand) : List Instr × Arg :=
  match if allowImm then arithImm? rhs else none with
  | some imm => ([], .imm imm)
  | none =>
    let (setup, r) := read f tmp1 rhs
    (setup, .reg r)

def workReg : Operand → Register
  | .register r => r
  | _ => result

def binop (f : Frame) (op : BinOp) (dst lhs rhs : Operand) : List Instr :=
  let work := workReg dst
  let (setupLhs, left) := read f tmp0 lhs
  let compute := match select op with
    | .compare cond =>
      let (setup, arg) := rightArg f true rhs
      setup ++ [.cmp left arg, .cset work cond]
    | .arith alu =>
      let (setup, arg) := rightArg f (op = .add || op = .sub) rhs
      setup ++ [.alu alu work left arg]
  setupLhs ++ compute ++ write f work dst

def store (f : Frame) (addr src : Operand) : List Instr :=
  let (setupAddr, base) := read f tmp0 addr
  let (setupSrc, r) := read f tmp1 src
  setupAddr ++ setupSrc ++ [.str r ⟨base, 0⟩]

def passOnStack (f : Frame) (index : Nat) (arg : Operand) : List Instr :=
  let (setupArg, r) := read f tmp0 arg
  let (setup, address) := spAddress (index * target.wordSize)
  setupArg ++ setup ++ [.str r address]

def call (f : Frame) (callee : String) (args : List Operand) (dst : Option Operand) : List Instr :=
  ((args.drop target.argRegs.length).zipIdx.flatMap fun a => passOnStack f a.2 a.1) ++
    ((target.argRegs.zip args).flatMap fun a => loadReg f a.1 a.2) ++
    [.bl callee] ++ dst.elim [] (write f target.retReg)

/-- Fetches a stack-passed parameter, from above the saved frame pointer and link register. -/
def incoming (f : Frame) (index : Nat) (dst : Operand) : List Instr :=
  let word : Address := ⟨"x29", fixedArea + 8 * index⟩
  match dst with
  | .register r => [.ldr r word]
  | dst => .ldr tmp0 word :: write f tmp0 dst

def branchIf (f : Frame) (cond : Operand) (label : String) : List Instr :=
  let (setup, r) := read f tmp0 cond
  setup ++ [.cbnz r label]

def lowerStack (f : Frame) : List Instr :=
  if f.localSize = 0 then []
  else if f.localSize ≤ maxArithImm then [.alu .sub "sp" "sp" (.imm f.localSize)]
  else materialize farSize f.localSize ++ [.alu .sub "sp" "sp" (.reg farSize)]

def saveRegs (f : Frame) : List Instr :=
  f.saved.zipIdx.flatMap fun r =>
    let (setup, address) := spAddress (f.saveOffset r.2)
    setup ++ [.str r.1 address]

def restoreRegs (f : Frame) : List Instr :=
  f.saved.zipIdx.flatMap fun r =>
    let (setup, address) := spAddress (f.saveOffset r.2)
    setup ++ [.ldr r.1 address]

def prologue (o : Options) (f : Frame) : List Instr :=
  (if o.pointerAuth then [.paciasp] else []) ++
    [.stpPush "x29" "x30" fixedArea, .mov "x29" (.reg "sp")] ++ lowerStack f ++ saveRegs f

def epilogue (o : Options) (f : Frame) : List Instr :=
  restoreRegs f ++ [.mov "sp" (.reg "x29"), .ldpPop "x29" "x30" fixedArea] ++
    (if o.pointerAuth then [.autiasp] else []) ++ [.ret]

def lower (o : Options) (f : Frame) : Step → List Instr
  | .label _ => []
  | .incoming index dst => incoming f index dst
  | .move dst src => move f dst src
  | .binop op dst lhs rhs => binop f op dst lhs rhs
  | .store addr src => store f addr src
  | .call callee args dst => call f callee args dst
  | .jump label => [.b label]
  | .branchIf cond label => branchIf f cond label
  | .epilogue => epilogue o f

def isa : Isa where
  target := target
  prologue := fun o f => (prologue o f).map Instr.render
  lower := fun o f s => (lower o f s).map Instr.render

end SsaBackend.Arm64
