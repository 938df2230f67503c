import SsaBackend.Allocation.Coloring
import SsaBackend.Allocation.LinearScan
import SsaBackend.Profile

/-!
# Register allocation

The two ways to place the values of a function, behind one function.
-/

namespace SsaBackend

inductive Strategy
  | linearScan
  | graphColoring
  deriving DecidableEq

inductive AllocError
  | registerExhaustion (function : String) (arch : Arch)
  deriving DecidableEq

def AllocError.message : AllocError → String
  | registerExhaustion f arch =>
    "function " ++ f ++ ": no allocatable registers on " ++ arch.name

namespace Strategy

def all : List Strategy := [linearScan, graphColoring]

def name : Strategy → String
  | linearScan => "linear-scan"
  | graphColoring => "graph-coloring"

def ofName? (s : String) : Option Strategy := all.find? fun x => x.name = s

/-- Places the values of a function. A linear scan needs at least one register; coloring can put
everything on the stack. -/
def allocate (s : Strategy) (f : Function) (t : Target) (profile : Option Profile) :
    Except AllocError Allocation :=
  let flow := f.flow
  let live := Liveness.analyze flow
  match s with
  | linearScan =>
    if t.allocatable.isEmpty then .error (.registerExhaustion f.name t.arch)
    else
      .ok (LinearScan.allocate t.allocatable (LinearScan.intervals f.paramIds flow live))
  | graphColoring =>
    .ok (Coloring.allocate f.paramIds flow live ((profile.getD .empty).spillCosts f)
      t.allocatable)

end Strategy

end SsaBackend
