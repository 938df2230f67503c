import SsaBackend.Allocation
import SsaBackend.Liveness
import SsaBackend.Sorting

/-!
# Linear scan

Positions number the blocks and nodes of a function in order. Each id has one interval, from the
first to the last position where it is live or mentioned, and intervals are visited in order of
their start. An interval takes the first free register; when none is free, the interval that ends
last, this one included, goes to the stack.
-/

namespace SsaBackend

structure Interval where
  value : ValueId
  start : Nat
  stop : Nat
  deriving DecidableEq

namespace LinearScan

/-! ### Intervals -/

/-- The position after the last one of a block that starts at `pos`: two for each node, and two for
the ends of the block. -/
def nextBlock (pos : Nat) (b : FlowBlock) : Nat := pos + 2 * b.nodes.length + 2

/-- The ids that a block mentions or keeps live, with their positions. The block starts at `pos`, its
nodes follow in steps of two, and it ends one after the last node. -/
def blockTouches (pos : Nat) (b : FlowBlock) (liveIn liveOut : LiveSet) : List (ValueId × Nat) :=
  (liveIn ++ b.phiDefs).map (·, pos) ++
    (b.nodes.zipIdx.flatMap fun n =>
      (n.1.def?.toList ++ n.1.uses).map (·, pos + 2 * (n.2 + 1))) ++
    liveOut.map (·, pos + 2 * b.nodes.length + 1)

def touchesFrom (pos : Nat) : List (FlowBlock × LiveSet × LiveSet) → List (ValueId × Nat)
  | [] => []
  | (b, liveIn, liveOut) :: bs =>
    blockTouches pos b liveIn liveOut ++ touchesFrom (nextBlock pos b) bs

/-- All touches of a function. Parameters are written before the first block. -/
def touches (params : List ValueId) (flow : List FlowBlock) (live : Liveness) :
    List (ValueId × Nat) :=
  params.map (·, 0) ++ touchesFrom 0 (flow.zip (live.liveIn.zip live.liveOut))

def positions (touches : List (ValueId × Nat)) (v : ValueId) : List Nat :=
  touches.filterMap fun t => if t.1 = v then some t.2 else none

def span (touches : List (ValueId × Nat)) (v : ValueId) : Interval :=
  let ps := positions touches v
  ⟨v, ps.min?.getD 0, ps.max?.getD 0⟩

def intervals (params : List ValueId) (flow : List FlowBlock) (live : Liveness) : List Interval :=
  let ts := touches params flow live
  sortBy (fun a b => a.start ≤ b.start) ((Ascending.ofList (ts.map Prod.fst)).map (span ts))

/-! ### The scan -/

/-- The state between two intervals. Registers are positions in the pool. -/
structure State where
  free : List Nat
  active : List (Interval × Nat)
  allocation : Allocation

def State.initial (pool : List Register) : State := ⟨List.range pool.length, [], .empty⟩

def insertActive (i : Interval) (r : Nat) (active : List (Interval × Nat)) :
    List (Interval × Nat) :=
  active.takeWhile (fun a => a.1.stop ≤ i.stop) ++
    (i, r) :: active.dropWhile fun a => a.1.stop ≤ i.stop

def expire (s : State) (pos : Nat) : State :=
  let (gone, active) := s.active.partition fun a => a.1.stop < pos
  { s with free := Ascending.insertAll s.free (gone.map Prod.snd), active := active }

def give (pool : List Register) (s : State) (i : Interval) (r : Nat) : State :=
  { s with
    active := insertActive i r s.active
    allocation := s.allocation.assign i.value (.register (pool.getD r "")) }

def spill (s : State) (v : ValueId) : State :=
  { s with allocation := s.allocation.assign v s.allocation.spillSlot }

def evict (pool : List Register) (s : State) (i : Interval) : State :=
  match s.active.getLast? with
  | some (last, r) =>
    if i.stop < last.stop then
      give pool (spill { s with active := s.active.dropLast } last.value) i r
    else spill s i.value
  | none => spill s i.value

def place (pool : List Register) (s : State) (i : Interval) : State :=
  let s := expire s i.start
  match s.free with
  | r :: free => give pool { s with free := free } i r
  | [] => evict pool s i

def allocate (pool : List Register) (is : List Interval) : Allocation :=
  (is.foldl (place pool) (.initial pool)).allocation

end LinearScan

end SsaBackend
