import SsaBackend.Frame
import SsaBackend.Ir.Function
import SsaBackend.Schedule.ParallelMove

/-!
# Schedules

A schedule is a function laid out as a list of steps that no longer mention ids: values are where the
allocation put them, phis have become moves on edges, and control flow goes by labels. It is the same
for every instruction set but for the registers of the calling convention. A step says what to do; an
instruction set says how.
-/

namespace SsaBackend

inductive Step
  | label (name : String)
  | incoming (index : Nat) (dst : Operand)
  | move (dst src : Operand)
  | binop (op : BinOp) (dst lhs rhs : Operand)
  | store (addr src : Operand)
  | call (callee : String) (args : List Operand) (dst : Option Operand)
  | jump (label : String)
  | branchIf (cond : Operand) (label : String)
  | epilogue
  deriving DecidableEq

inductive CodegenError
  | floatParameter (function : String) (param : Value)
  | floatInstruction (function : String) (instruction : Instruction)
  | floatReturn (function : String) (value : Value)
  | tooManyArguments (function callee : String) (count max : Nat)
  | unallocatedValue (function : String) (value : ValueId)
  deriving DecidableEq

def CodegenError.message : CodegenError → String
  | floatParameter f param =>
    "function " ++ f ++ ": unsupported instruction `float parameter " ++ param.render ++ "`"
  | floatInstruction f i => "function " ++ f ++ ": unsupported instruction `" ++ i.render ++ "`"
  | floatReturn f value =>
    "function " ++ f ++ ": unsupported terminator `ret " ++ value.render ++ "`"
  | tooManyArguments f callee count max =>
    "function " ++ f ++ ": call to " ++ callee ++ " passes " ++ toString count ++
      " arguments, at most " ++ toString max ++ " are supported"
  | unallocatedValue f v => "function " ++ f ++ ": " ++ valueName v ++ " has no location"

namespace Function

/-- The label of a block. Names hold no dot, so labels of different functions and blocks differ. -/
def blockLabel (f : Function) (b : BlockId) : String := ".L" ++ f.name ++ "." ++ f.label b

def edgeLabel (f : Function) (pred succ : BlockId) : String :=
  ".L" ++ f.name ++ "." ++ f.label pred ++ "." ++ f.label succ ++ ".edge"

/-! ### What is supported -/

/-- What no target supports in an instruction: float operands and results outside copies and stores,
and more arguments than the target has room for. -/
def instructionFaults (f : Function) (t : Target) (i : Instruction) : List CodegenError :=
  match i with
  | .binop dst _ lhs rhs =>
    if [dst, lhs, rhs].any fun v => v.ty = .float then [.floatInstruction f.name i] else []
  | .call dst callee args =>
    (if (dst.toList ++ args).any fun v => v.ty = .float then [.floatInstruction f.name i]
      else []) ++
    if t.maxCallArgs < args.length then
      [.tooManyArguments f.name callee args.length t.maxCallArgs] else []
  | .load _ _ => []
  | .store _ _ => []

def terminatorFaults (f : Function) : Terminator → List CodegenError
  | .ret (some value) => if value.ty = .float then [.floatReturn f.name value] else []
  | _ => []

def unsupported (f : Function) (t : Target) : List CodegenError :=
  ((f.params.filter fun v => v.ty = .float).map (.floatParameter f.name)) ++
    f.blocks.flatMap fun b =>
      b.instructions.flatMap (f.instructionFaults t) ++ f.terminatorFaults b.terminator

def stackArgs (t : Target) : Instruction → Nat
  | .call _ _ args => args.length - t.argRegs.length
  | _ => 0

/-- The words that the frame reserves for outgoing arguments: as many as any call needs, and none
where arguments are pushed. -/
def outgoingArgs (f : Function) (t : Target) : Nat :=
  if t.reservesOutgoing then
    ((f.blocks.flatMap fun b => b.instructions.map (stackArgs t)).max?).getD 0
  else 0

end Function

structure Placed where
  func : Function
  allocation : Allocation
  target : Target

structure Stub where
  pred : BlockId
  succ : BlockId
  deriving DecidableEq

namespace Placed

def operand (p : Placed) : Value → Except CodegenError Operand
  | .constant literal _ => .ok (.immediate literal)
  | .parameter id _ _ | .temporary id _ =>
    match p.allocation.location? id with
    | some l => .ok l.toOperand
    | none => .error (.unallocatedValue p.func.name id)

def parallelMove (p : Placed) (moves : List Move) : List Step :=
  (Move.sequentialize moves (.register p.target.cycleScratch)).map fun m => .move m.dst m.src

/-- Puts the parameters in their places: stack-passed ones first, then all register-passed ones at
once. -/
def parameterSteps (p : Placed) : Except CodegenError (List Step) := do
  let dsts ← p.func.params.mapM p.operand
  let inRegs := p.target.argRegs.length
  let fetches := (dsts.drop inRegs).zipIdx.map fun d => Step.incoming d.2 d.1
  let moves := (dsts.zip p.target.argRegs).map fun d => Move.mk d.1 (.register d.2)
  return fetches ++ p.parallelMove moves

def instructionStep (p : Placed) : Instruction → Except CodegenError Step
  | .binop dst op lhs rhs => do
    let dst ← p.operand dst
    let lhs ← p.operand lhs
    let rhs ← p.operand rhs
    return .binop op dst lhs rhs
  | .call dst callee args => do
    let args ← args.mapM p.operand
    let dst ← dst.mapM p.operand
    return .call callee args dst
  | .load dst src => do
    let dst ← p.operand dst
    let src ← p.operand src
    return .move dst src
  | .store addr src => do
    let addr ← p.operand addr
    let src ← p.operand src
    return .store addr src

def phiMove (p : Placed) (pred : BlockId) (phi : Phi) : Except CodegenError (List Move) :=
  match phi.source? pred with
  | none => .ok []
  | some src => do
    let dst ← p.operand phi.dst
    let src ← p.operand src
    return [⟨dst, src⟩]

def edgeSteps (p : Placed) (pred succ : BlockId) : Except CodegenError (List Step) := do
  let moves ← (p.func.block succ).phis.mapM (p.phiMove pred)
  return p.parallelMove moves.flatten

/-- Takes the edge from `pred` to `succ`; the jump is left out when `succ` comes next anyway. -/
def goSteps (p : Placed) (pred succ : BlockId) (next : Option BlockId) :
    Except CodegenError (List Step) := do
  let moves ← p.edgeSteps pred succ
  return moves ++ if next = some succ then [] else [.jump (p.func.blockLabel succ)]

/-- Where a conditional branch goes for an edge, and the stub that it needs there: an edge without
phis needs none. -/
def edgeTarget (p : Placed) (pred succ : BlockId) : String × List Stub :=
  if (p.func.block succ).phis.isEmpty then (p.func.blockLabel succ, [])
  else (p.func.edgeLabel pred succ, [⟨pred, succ⟩])

/-- The steps of the terminator of `b`, with the stubs they need. A branch on a constant takes its
edge at once. -/
def terminatorSteps (p : Placed) (b : BlockId) (next : Option BlockId) :
    Terminator → Except CodegenError (List Step × List Stub)
  | .ret none => .ok ([.epilogue], [])
  | .ret (some value) => do
    let src ← p.operand value
    return ([.move (.register p.target.retReg) src, .epilogue], [])
  | .branch succ => do return (← p.goSteps b succ next, [])
  | .condBranch cond onTrue onFalse => do
    match ← p.operand cond with
    | .immediate value =>
      return (← p.goSteps b (if value = 0 then onFalse else onTrue) next, [])
    | cond =>
      if onTrue = onFalse then return (← p.goSteps b onTrue next, [])
      let (trueLabel, trueStubs) := p.edgeTarget b onTrue
      let (falseLabel, falseStubs) := p.edgeTarget b onFalse
      let jump := if falseStubs.isEmpty && next = some onFalse then [] else [Step.jump falseLabel]
      return (.branchIf cond trueLabel :: jump, trueStubs ++ falseStubs)

def blockSteps (p : Placed) (b : BlockId) (next : Option BlockId) :
    Except CodegenError (List Step × List Stub) := do
  let body ← (p.func.block b).instructions.mapM p.instructionStep
  let (tail, stubs) ← p.terminatorSteps b next (p.func.block b).terminator
  return (body ++ tail, stubs)

def layoutSteps (p : Placed) : List BlockId → Except CodegenError (List Step × List Stub)
  | [] => .ok ([], [])
  | b :: bs => do
    let (steps, stubs) ← p.blockSteps b bs.head?
    let (more, moreStubs) ← p.layoutSteps bs
    return (.label (p.func.blockLabel b) :: steps ++ more, stubs ++ moreStubs)

def stubSteps (p : Placed) (s : Stub) : Except CodegenError (List Step) := do
  let moves ← p.edgeSteps s.pred s.succ
  return .label (p.func.edgeLabel s.pred s.succ) :: moves ++ [.jump (p.func.blockLabel s.succ)]

/-- The schedule of a function in a given layout: parameters, blocks, stubs. The first block follows
the prologue and has no label; nothing branches to it. -/
def schedule (p : Placed) (layout : List BlockId) : Except CodegenError (List Step) := do
  let params ← p.parameterSteps
  let (blocks, stubs) ← p.layoutSteps layout
  let edges ← stubs.mapM p.stubSteps
  return params ++ blocks.drop 1 ++ edges.flatten

end Placed

end SsaBackend
