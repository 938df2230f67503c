import SsaBackend.Allocation.Interference

/-!
# Graph coloring

Nodes are taken out of the interference graph one by one and put on a stack: a node with fewer
neighbours left than there are registers whenever there is one, and otherwise the node with most
neighbours, the cheapest to spill of those. Then they come back in reverse order, and each takes the
first register that no neighbour has. A node for which none is left goes to the stack frame.
-/

namespace SsaBackend.Coloring

structure Worklists where
  simplify : List Nat
  spill : List Nat
  degree : Array Nat

namespace Worklists

/-- How much is left to do: a node of the spill list goes through the other list before it goes
out. -/
def size (w : Worklists) : Nat := 2 * w.spill.length + w.simplify.length

def degreeOf (w : Worklists) (i : Nat) : Nat := w.degree.getD i 0

def initial (g : Interference) (k : Nat) : Worklists :=
  let degree := Array.ofFn fun i : Fin g.values.length => g.graph.degree i
  let reps := g.representatives
  { simplify := reps.filter fun i => degree.getD i 0 < k
    spill := reps.filter fun i => k ≤ degree.getD i 0
    degree := degree }

def promote (w : Worklists) (i : Nat) : Worklists :=
  { w with spill := w.spill.erase i, simplify := i :: w.simplify }

def lower (w : Worklists) (i : Nat) : Worklists :=
  { w with degree := w.degree.modify i (· - 1) }

/-- A neighbour of `i` went out. A node of the spill list that had `k` neighbours can go out next. -/
def decrement (k : Nat) (w : Worklists) (i : Nat) : Worklists :=
  if w.degreeOf i = k ∧ i ∈ w.spill then (w.lower i).promote i else w.lower i

theorem size_promote_lt {w : Worklists} {i : Nat} (h : i ∈ w.spill) :
    (w.promote i).size < w.size := by
  have hpos := List.length_pos_of_mem h
  simp only [size, promote, List.length_erase_of_mem h, List.length_cons]
  omega

theorem size_decrement_le (k : Nat) (w : Worklists) (i : Nat) :
    (w.decrement k i).size ≤ w.size := by
  unfold decrement
  split
  · rename_i h
    exact Nat.le_of_lt (size_promote_lt (w := w.lower i) h.2)
  · exact Nat.le_refl _

theorem size_foldl_decrement_le (k : Nat) (is : List Nat) (w : Worklists) :
    (is.foldl (decrement k) w).size ≤ w.size := by
  induction is generalizing w with
  | nil => exact Nat.le_refl _
  | cons i is ih => exact Nat.le_trans (ih _) (size_decrement_le k w i)

end Worklists

/-- Whether node `j` should be spilled rather than `i`: it has more neighbours, or as many and costs
less. -/
def isBetter (cost : Nat → UInt64) (w : Worklists) (j i : Nat) : Bool :=
  w.degreeOf i < w.degreeOf j || (w.degreeOf i = w.degreeOf j && cost j < cost i)

def candidate? (cost : Nat → UInt64) (w : Worklists) : List Nat → Option Nat
  | [] => none
  | i :: is =>
    match candidate? cost w is with
    | none => some i
    | some j => if isBetter cost w j i then some j else some i

theorem mem_of_candidate? {cost : Nat → UInt64} {w : Worklists} :
    ∀ {is : List Nat} {j : Nat}, candidate? cost w is = some j → j ∈ is
  | [], _, h => by simp [candidate?] at h
  | i :: is, j, h => by
    unfold candidate? at h
    split at h
    · cases h
      exact List.mem_cons_self
    · rename_i j' hj
      split at h
      · cases h
        exact List.mem_cons_of_mem _ (mem_of_candidate? hj)
      · cases h
        exact List.mem_cons_self

/-- Takes out all nodes. The result holds every node that went out, the last one first. -/
def simplifyAll (g : Graph) (cost : Nat → UInt64) (k : Nat) (w : Worklists) (stack : List Nat) :
    List Nat :=
  match _h : w.simplify with
  | i :: rest =>
    let left := (g.neighbours i).filter fun j => !(i :: stack).contains j
    simplifyAll g cost k (left.foldl (Worklists.decrement k) { w with simplify := rest })
      (i :: stack)
  | [] =>
    match _hc : candidate? cost w w.spill with
    | none => stack
    | some i => simplifyAll g cost k (w.promote i) stack
termination_by w.size
decreasing_by
  · refine Nat.lt_of_le_of_lt (Worklists.size_foldl_decrement_le k left _) ?_
    simp [Worklists.size, _h]
  · exact Worklists.size_promote_lt (mem_of_candidate? _hc)

/-- Gives each node of the stack the first of `k` colors that none of its neighbours has; a node for
which there is none stays without. Colors come with their nodes. -/
def assignColors (g : Graph) (k : Nat) : List Nat → List (Nat × Nat) → List (Nat × Nat)
  | [], colors => colors
  | i :: stack, colors =>
    let taken := (g.neighbours i).filterMap fun j => colors.lookup j
    match (List.range k).find? fun c => !taken.contains c with
    | some c => assignColors g k stack ((i, c) :: colors)
    | none => assignColors g k stack colors

/-- Colors the nodes of a graph with the registers of a pool. Nodes share the place of their
representative; representatives without a color have consecutive words of the spill area. -/
def colorGraph (g : Interference) (costs : List (ValueId × UInt64)) (pool : List Register) :
    Allocation :=
  let k := pool.length
  let cost := fun i => (costs.lookup (g.values.getD i 0)).getD 0
  let stack := simplifyAll g.graph cost k (.initial g k) []
  let colors := assignColors g.graph k stack []
  let spills := g.representatives.filter fun i => (colors.lookup i).isNone
  g.values.zipIdx.foldl (fun a v =>
    let i := g.rep v.2
    a.assign v.1 <|
      match colors.lookup i with
      | some c => .register (pool.getD c "")
      | none => .stack (8 * spills.idxOf i)) .empty

def allocate (params : List ValueId) (flow : List FlowBlock) (live : Liveness)
    (costs : List (ValueId × UInt64)) (pool : List Register) : Allocation :=
  colorGraph ((Interference.build params flow live).coalesce pool.length) costs pool

end SsaBackend.Coloring
