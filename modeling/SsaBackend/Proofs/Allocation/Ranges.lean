import SsaBackend.Proofs.Allocation.Coloring
import SsaBackend.Proofs.Allocation.Intervals

/-!
# What allocation looks up is there

Allocation looks things up by number: registers of the pool, nodes of the interference graph, and the
slots of nodes without a color. A linear scan holds and frees registers of the pool only
(`LinearScan.shared_foldl_place`). Coloring takes every representative out of the graph exactly once
(`Coloring.perm_selection`), so each of them gets a color below the size of the pool or a slot
(`Coloring.inRange_of_sound`).
-/

namespace SsaBackend

open List

/-! ### The scan -/

namespace LinearScan

theorem shared_foldl_place (pool : List Register) (is : List Interval) :
    Shared pool.length (is.foldl (LinearScan.place pool) (.initial pool)) := by
  refine List.foldlRecOn is _ (initial_settled pool).1 fun s h i _ => h.place i

end LinearScan

/-! ### Taking out nodes -/

namespace Coloring

namespace Worklists

variable {w : Worklists} {k i : Nat}

def nodes (w : Worklists) : List Nat := w.simplify ++ w.spill

theorem perm_nodes_initial (g : Interference) (k : Nat) :
    (initial g k).nodes.Perm g.representatives := by
  have hsplit : ∀ i, decide (k ≤ (initial g k).degree.getD i 0) =
      !decide ((initial g k).degree.getD i 0 < k) := fun i => by
    simp only [← decide_not, Nat.not_lt]
  have hspill : (initial g k).spill =
      g.representatives.filter fun i => !decide ((initial g k).degree.getD i 0 < k) :=
    filter_congr fun i _ => hsplit i
  rw [nodes, hspill]
  exact filter_append_perm _ _

theorem perm_nodes_promote (h : i ∈ w.spill) : (w.promote i).nodes.Perm w.nodes := by
  have hmiddle : (i :: (w.simplify ++ w.spill.erase i)).Perm (w.simplify ++ i :: w.spill.erase i) :=
    perm_middle.symm
  exact hmiddle.trans ((perm_cons_erase h).symm.append_left _)

theorem perm_nodes_decrement (k : Nat) (w : Worklists) (i : Nat) :
    (w.decrement k i).nodes.Perm w.nodes := by
  unfold decrement
  split
  · rename_i h
    exact perm_nodes_promote (w := w.lower i) h.2
  · exact .refl _

theorem perm_nodes_foldl_decrement (k : Nat) (is : List Nat) (w : Worklists) :
    (is.foldl (decrement k) w).nodes.Perm w.nodes := by
  induction is generalizing w with
  | nil => exact .refl _
  | cons i is ih => exact (ih _).trans (perm_nodes_decrement k w i)

end Worklists

theorem eq_nil_of_candidate? {cost : Nat → UInt64} {w : Worklists} :
    ∀ {is : List Nat}, candidate? cost w is = none → is = []
  | [], _ => rfl
  | i :: is, h => by
    unfold candidate? at h
    split at h
    · cases h
    · split at h <;> cases h

theorem perm_simplifyAll (g : Graph) (cost : Nat → UInt64) (k : Nat) (w : Worklists)
    (stack : List Nat) : (simplifyAll g cost k w stack).Perm (stack ++ w.nodes) := by
  fun_induction simplifyAll g cost k w stack with
  | case1 w stack i rest hsimplify left ih =>
    have hrest := Worklists.perm_nodes_foldl_decrement k left { w with simplify := rest }
    refine ih.trans ((hrest.append_left (i :: stack)).trans ?_)
    rw [Worklists.nodes, Worklists.nodes, hsimplify]
    exact perm_middle.symm
  | case2 w stack hsimplify hnone =>
    rw [Worklists.nodes, hsimplify, eq_nil_of_candidate? hnone, append_nil, append_nil]
  | case3 w stack hsimplify i hcandidate ih =>
    exact ih.trans ((Worklists.perm_nodes_promote (mem_of_candidate? hcandidate)).append_left _)

/-- The nodes in the order in which they come back. -/
def selection (g : Interference) (costs : List (ValueId × UInt64)) (k : Nat) : List Nat :=
  simplifyAll g.graph (fun i => (costs.lookup (g.values.getD i 0)).getD 0) k (.initial g k) []

theorem perm_selection (g : Interference) (costs : List (ValueId × UInt64)) (k : Nat) :
    (selection g costs k).Perm g.representatives :=
  (perm_simplifyAll _ _ _ _ _).trans (Worklists.perm_nodes_initial g k)

/-- What coloring looks up is there: the representative and the neighbours of a node, the degree of a
node that goes out, the register of a color, and the slot of a node without a color. -/
structure InRange (g : Interference) (costs : List (ValueId × UInt64)) (pool : List Register) :
    Prop where
  rep : ∀ i < g.values.length, g.rep i < g.values.length
  neighbour : ∀ i j, j ∈ g.graph.neighbours i → j < g.values.length
  degree : ∀ i ∈ selection g costs pool.length, i < (Worklists.initial g pool.length).degree.size
  color : ∀ i color, (assignColors g.graph pool.length (selection g costs pool.length) []).lookup i =
    some color → color < pool.length
  slot : ∀ i < g.values.length, g.rep i ∈ selection g costs pool.length

theorem inRange_of_sound {E : Nat → Nat → Prop} {g : Interference} (h : Interference.Sound E g)
    (costs : List (ValueId × UInt64)) (pool : List Register) : InRange g costs pool := by
  have hselection := fun i => (perm_selection g costs pool.length).mem_iff (a := i)
  have hcolored : Colored g.graph pool.length
      (assignColors g.graph pool.length (selection g costs pool.length) []) :=
    assignColors_colored h.proper _ _ ⟨by simp, by simp⟩
  refine ⟨h.rep_lt, fun i j hij => h.proper.lt_of_mem (h.proper.symm i j hij), fun i hi => ?_,
    hcolored.lt, fun i hi => ?_⟩
  · have hrep := mem_range.1 (mem_filter.1 ((hselection i).1 hi)).1
    simpa [Worklists.initial] using hrep
  · refine (hselection _).2 (mem_filter.2 ⟨mem_range.2 (h.rep_lt i hi), ?_⟩)
    simpa using h.rep_rep i hi

end Coloring

/-- The graph that the values of a function are colored by, with `k` registers. -/
def Function.interference (f : Function) (k : Nat) : Interference :=
  (Interference.build f.paramIds f.flow f.liveness).coalesce k

theorem Function.inRange_interference (f : Function) (costs : List (ValueId × UInt64))
    (pool : List Register) : Coloring.InRange (f.interference pool.length) costs pool :=
  have hsound := @Interference.sound_ofClashes f.clashes (f.flow.flatMap FlowBlock.moves)
  Coloring.inRange_of_sound (hsound.coalesce pool.length fun _ => Interference.moves_ofClashes).1
    costs pool

end SsaBackend
