import SsaBackend.Assembly
import SsaBackend.Schedule.Step

/-!
# Generating assembly

An instruction set is a target with a way to carry out each step. Generating code for a function is
to check it, to lay out its frame, to schedule it, and to write out every step.
-/

namespace SsaBackend

structure Options where
  /-- Signs the return address on entry and authenticates it before returning, on instruction sets
  that can. -/
  pointerAuth : Bool
  deriving DecidableEq

structure Isa where
  target : Target
  prologue : Options → Frame → List String
  /-- Carries out a step. Labels take no instructions. -/
  lower : Options → Frame → Step → List String

namespace Isa

def stepLines (isa : Isa) (o : Options) (frame : Frame) : Step → List Line
  | .label name => [.label name]
  | s => (isa.lower o frame s).map .instruction

def assemble (isa : Isa) (o : Options) (frame : Frame) (name : String) (steps : List Step) :
    Assembly :=
  [.directive ".text", .directive (".globl " ++ name), .label name] ++
    (isa.prologue o frame).map .instruction ++ steps.flatMap (isa.stepLines o frame)

/-- The assembly and frame of a function whose values are placed, in a layout that starts with the
entry. -/
def generate (isa : Isa) (f : Function) (a : Allocation) (layout : List BlockId) (o : Options) :
    Except CodegenError (Assembly × Frame) :=
  match f.unsupported isa.target with
  | e :: _ => .error e
  | [] => do
    let frame := Frame.ofAllocation isa.target a (f.outgoingArgs isa.target)
    let steps ← Placed.schedule ⟨f, a, isa.target⟩ layout
    return (isa.assemble o frame f.name steps, frame)

end Isa

end SsaBackend
