import SsaBackend.Allocation.Strategy
import SsaBackend.Check.Report
import SsaBackend.Isa
import SsaBackend.Peephole

/-!
# Compiling

From a function to assembly under one configuration: place the values, lay out the blocks, generate
code, tidy it up, and check the result.
-/

namespace SsaBackend

structure Config where
  arch : Arch := .arm64
  strategy : Strategy := .graphColoring
  profile : Option Profile := none
  validate : Bool := true
  peephole : Bool := false
  pointerAuth : Bool := false

structure Output where
  name : String
  assembly : Assembly
  frameSize : Nat
  allocation : Allocation
  warnings : List (Diagnostic Warning)

inductive CompileError
  | alloc (cause : AllocError)
  | codegen (cause : CodegenError)
  | invalid (report : Report)

def CompileError.message : CompileError → String
  | alloc cause => cause.message
  | codegen cause => cause.message
  | invalid report => report.refusal

namespace Config

def layout (c : Config) (f : Function) : List BlockId :=
  match c.profile with
  | some p => p.layout f
  | none => f.blockIds

def tidy (c : Config) (a : Assembly) : Assembly := if c.peephole then c.arch.optimize a else a

def warnings (c : Config) (a : Assembly) : Except CompileError (List (Diagnostic Warning)) :=
  if c.validate then
    match c.arch.validate a.render with
    | .ok report => .ok report.warnings
    | .error report => .error (.invalid report)
  else .ok []

def compile (c : Config) (f : Function) : Except CompileError Output := do
  let allocation ← (c.strategy.allocate f c.arch.target c.profile).mapError .alloc
  let (generated, frame) ←
    (c.arch.isa.generate f allocation (c.layout f) ⟨c.pointerAuth⟩).mapError .codegen
  let assembly := c.tidy generated
  return ⟨f.name, assembly, frame.size, allocation, ← c.warnings assembly⟩

def compileAll (c : Config) (fs : List Function) : List (String × Except CompileError Output) :=
  fs.map fun f => (f.name, c.compile f)

end Config

end SsaBackend
