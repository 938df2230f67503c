import SsaBackend.Riscv64.Instr
import SsaBackend.Schedule.Generate

/-!
# Instruction selection for riscv64

Operands that are not in registers are read into `t1` and `t2`, and results for the stack are
computed in `t3`; `t6` breaks cycles of moves. Offsets and sizes that no instruction can hold go
through `t0`.
-/

namespace SsaBackend.Riscv64

def addr : Register := "t0"

def tmp0 : Register := "t1"

def tmp1 : Register := "t2"

def result : Register := "t3"

def fitsImm (value : Int) : Bool := -2048 ≤ value && value ≤ 2047

def low (value : Int) : Int := Int.bmod value 4096

def high (value : Int) : Int := Int.bmod (value - low value) UInt64.size / 4096

def addLow (op : ImmOp) (dst : Register) (value : Int) : List Instr :=
  if low value = 0 then [] else [.imm op dst dst (low value)]

theorem natAbs_high_lt {value : Int} (h : fitsImm value = false) :
    (high value).natAbs < value.natAbs := by
  simp only [fitsImm, Bool.and_eq_false_iff, decide_eq_false_iff_not] at h
  simp only [high, low, Int.bmod_def, UInt64.size]
  omega

/-- Loads a literal: 12 bits at once, 32 bits as upper and lower part, and anything wider by
shifting its upper part into place. -/
def materialize (dst : Register) (value : Int) : List Instr :=
  if _h : fitsImm value then [.li dst value]
  else if Int32.minValue.toInt ≤ value ∧ value ≤ Int32.maxValue.toInt then
    .lui dst ((value - low value) / 4096 % 1048576) :: addLow .addiw dst value
  else
    materialize dst (high value) ++ .imm .slli dst dst 12 :: addLow .addi dst value
termination_by value.natAbs
decreasing_by exact natAbs_high_lt (by simpa using _h)

/-- The word at an offset from the stack pointer, with the instructions that make it addressable. -/
def spAddress (offset : Nat) : List Instr × Address :=
  if fitsImm offset then ([], ⟨"sp", offset⟩)
  else (materialize addr offset ++ [.reg .add addr "sp" addr], ⟨addr, 0⟩)

def loadSp (dst : Register) (offset : Nat) : List Instr :=
  let (setup, address) := spAddress offset
  setup ++ [.ld dst address]

def storeSp (src : Register) (offset : Nat) : List Instr :=
  let (setup, address) := spAddress offset
  setup ++ [.sd src address]

def loadReg (f : Frame) (dst : Register) : Operand → List Instr
  | .immediate value => materialize dst value.toInt
  | .register r => if dst = r then [] else [.mv dst r]
  | .stack slot => loadSp dst (f.spillOffset slot)

def read (f : Frame) (scratch : Register) : Operand → List Instr × Register
  | .register r => ([], r)
  | op => (loadReg f scratch op, scratch)

/-- Stores a register into a place. A literal is no place, so nothing is stored there. -/
def write (f : Frame) (src : Register) : Operand → List Instr
  | .immediate _ => []
  | .register r => if r = src then [] else [.mv r src]
  | .stack slot => storeSp src (f.spillOffset slot)

def move (f : Frame) (dst src : Operand) : List Instr :=
  if dst = src then []
  else
    match dst with
    | .register r => loadReg f r src
    | dst =>
      let (setup, r) := read f tmp0 src
      setup ++ write f r dst

/-- The operation on an immediate for an operator with a literal on its right, if that fits.
Subtraction adds the opposite. -/
def immediateForm? (op : BinOp) : Operand → Option (ImmOp × Int)
  | .immediate literal =>
    let value := literal.toInt
    match op with
    | .add => if fitsImm value then some (.addi, value) else none
    | .sub => if fitsImm (-value) then some (.addi, -value) else none
    | .and => if fitsImm value then some (.andi, value) else none
    | .or => if fitsImm value then some (.ori, value) else none
    | .xor => if fitsImm value then some (.xori, value) else none
    | _ => none
  | _ => none

def registerForm (op : BinOp) (dst lhs rhs : Register) : List Instr :=
  match op with
  | .add => [.reg .add dst lhs rhs]
  | .sub => [.reg .sub dst lhs rhs]
  | .mul => [.reg .mul dst lhs rhs]
  | .div => [.reg .div dst lhs rhs]
  | .and => [.reg .and dst lhs rhs]
  | .or => [.reg .or dst lhs rhs]
  | .xor => [.reg .xor dst lhs rhs]
  | .eq => [.reg .xor dst lhs rhs, .imm .sltiu dst dst 1]
  | .ne => [.reg .xor dst lhs rhs, .reg .sltu dst "zero" dst]
  | .lt => [.reg .slt dst lhs rhs]
  | .gt => [.reg .slt dst rhs lhs]
  | .le => [.reg .slt dst rhs lhs, .imm .xori dst dst 1]
  | .ge => [.reg .slt dst lhs rhs, .imm .xori dst dst 1]

def workReg : Operand → Register
  | .register r => r
  | _ => result

def binop (f : Frame) (op : BinOp) (dst lhs rhs : Operand) : List Instr :=
  let work := workReg dst
  let (setupLhs, left) := read f tmp0 lhs
  let compute := match immediateForm? op rhs with
    | some (imm, value) => [.imm imm work left value]
    | none =>
      let (setupRhs, right) := read f tmp1 rhs
      setupRhs ++ registerForm op work left right
  setupLhs ++ compute ++ write f work dst

def store (f : Frame) (addr src : Operand) : List Instr :=
  let (setupAddr, base) := read f tmp0 addr
  let (setupSrc, r) := read f tmp1 src
  setupAddr ++ setupSrc ++ [.sd r ⟨base, 0⟩]

def passOnStack (f : Frame) (index : Nat) (arg : Operand) : List Instr :=
  let (setup, r) := read f tmp0 arg
  setup ++ storeSp r (index * target.wordSize)

def call (f : Frame) (callee : String) (args : List Operand) (dst : Option Operand) : List Instr :=
  ((args.drop target.argRegs.length).zipIdx.flatMap fun a => passOnStack f a.2 a.1) ++
    ((target.argRegs.zip args).flatMap fun a => loadReg f a.1 a.2) ++
    [.call callee] ++ dst.elim [] (write f target.retReg)

/-- Fetches a stack-passed parameter. `s0` is the stack pointer of the caller. -/
def incoming (f : Frame) (index : Nat) (dst : Operand) : List Instr :=
  let word : Address := ⟨"s0", 8 * index⟩
  match dst with
  | .register r => [.ld r word]
  | dst => .ld tmp0 word :: write f tmp0 dst

def branchIf (f : Frame) (cond : Operand) (label : String) : List Instr :=
  let (setup, r) := read f tmp0 cond
  setup ++ [.bnez r label]

def adjust (dst base : Register) (delta : Int) : List Instr :=
  if fitsImm delta then [.imm .addi dst base delta]
  else
    materialize addr delta.natAbs ++ [.reg (if delta < 0 then .sub else .add) dst base addr]

def prologue (f : Frame) : List Instr :=
  adjust "sp" "sp" (-(f.size : Int)) ++ storeSp "ra" (f.size - 8) ++ storeSp "s0" (f.size - 16) ++
    adjust "s0" "sp" f.size ++ f.saved.zipIdx.flatMap fun r => storeSp r.1 (f.saveOffset r.2)

def epilogue (f : Frame) : List Instr :=
  (f.saved.zipIdx.flatMap fun r => loadSp r.1 (f.saveOffset r.2)) ++ loadSp "ra" (f.size - 8) ++
    loadSp "s0" (f.size - 16) ++ adjust "sp" "sp" f.size ++ [.ret]

def lower (f : Frame) : Step → List Instr
  | .label _ => []
  | .incoming index dst => incoming f index dst
  | .move dst src => move f dst src
  | .binop op dst lhs rhs => binop f op dst lhs rhs
  | .store addr src => store f addr src
  | .call callee args dst => call f callee args dst
  | .jump label => [.j label]
  | .branchIf cond label => branchIf f cond label
  | .epilogue => epilogue f

/-- The instruction set. It cannot sign return addresses. -/
def isa : Isa where
  target := target
  prologue := fun _ f => (prologue f).map Instr.render
  lower := fun _ f s => (lower f s).map Instr.render

end SsaBackend.Riscv64
