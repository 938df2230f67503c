import SsaBackend.Proofs.Allocation.Aliases
import SsaBackend.Proofs.Allocation.Ranges

/-!
# Taking nodes out of the graph

The loop that takes nodes out keeps two lists of the nodes that are left, and a degree for each of them.
At every turn a node is either out or in exactly one of the lists, the degree of a node that is left is
the number of its neighbours that are left, and the lists are told apart by it (`Coloring.Loop`). The one
exception is a node of the spill list that goes out for want of another: it goes through the other list,
which is empty then. One turn keeps this (`Loop.push`, `Loop.promote`), so it holds at every turn
(`turn_of_reaches`), and in the end every node has gone out once (`simplified_coalesce`).
-/

namespace SsaBackend.Coloring

open List

variable {g : Interference} {E : Nat → Nat → Prop}

/-! ### The lists -/

namespace Worklists

variable {w : Worklists} {k i : Nat}

theorem degreeOf_lower (w : Worklists) (i j : Nat) :
    (w.lower i).degreeOf j = if j = i then w.degreeOf j - 1 else w.degreeOf j := by
  simp only [degreeOf, lower, Array.getD_eq_getD_getElem?, Array.getElem?_modify]
  by_cases hj : i = j
  · subst hj
    cases w.degree[i]? <;> simp
  · simp [hj, Ne.symm hj]

theorem degreeOf_decrement (k : Nat) (w : Worklists) (i j : Nat) :
    (w.decrement k i).degreeOf j = if j = i then w.degreeOf j - 1 else w.degreeOf j := by
  unfold decrement
  split <;> exact degreeOf_lower w i j

theorem degreeOf_foldl_decrement (k : Nat) {is : List Nat} (his : is.Nodup) (w : Worklists)
    (j : Nat) : (is.foldl (decrement k) w).degreeOf j =
      if j ∈ is then w.degreeOf j - 1 else w.degreeOf j := by
  induction is generalizing w with
  | nil => rfl
  | cons i is ih =>
    obtain ⟨hi, his⟩ := nodup_cons.1 his
    rw [foldl_cons, ih his, degreeOf_decrement]
    by_cases hj : j = i
    · subst hj
      simp [hi]
    · simp [hj]

theorem degreeOf_initial (k : Nat) {i : Nat} (hi : i < g.values.length) :
    (initial g k).degreeOf i = g.graph.degree i := by
  simp [degreeOf, initial, hi]

structure Split (k : Nat) (w : Worklists) : Prop where
  nodup : w.nodes.Nodup
  low : ∀ i ∈ w.simplify, w.degreeOf i < k
  high : ∀ i ∈ w.spill, k ≤ w.degreeOf i

theorem Split.decrement (h : Split k w) (hi : 0 < w.degreeOf i) : Split k (w.decrement k i) := by
  refine ⟨(perm_nodes_decrement k w i).nodup_iff.2 h.nodup, ?_, ?_⟩
  · intro j hj
    rw [degreeOf_decrement]
    unfold Worklists.decrement at hj
    split at hj
    · -- the promoted node had exactly `k` neighbours
      rename_i hspill
      rcases mem_cons.1 hj with rfl | hj
      · rw [if_pos rfl, hspill.1]
        omega
      · have := h.low j hj
        split <;> omega
    · have := h.low j hj
      split <;> omega
  · intro j hj
    rw [degreeOf_decrement]
    have hspill := (nodup_append.1 h.nodup).2.1
    unfold Worklists.decrement at hj
    split at hj
    · obtain ⟨hne, hj⟩ := (hspill.mem_erase_iff).1 hj
      rw [if_neg hne]
      exact h.high j hj
    · rename_i hstay
      have hhigh := h.high j hj
      split
      · rename_i heq
        subst heq
        have hne : w.degreeOf j ≠ k := fun heq => hstay ⟨heq, hj⟩
        omega
      · exact hhigh

theorem Split.foldl_decrement (h : Split k w) {is : List Nat} (his : is.Nodup)
    (hpos : ∀ i ∈ is, 0 < w.degreeOf i) : Split k (is.foldl (Worklists.decrement k) w) := by
  induction is generalizing w with
  | nil => exact h
  | cons i is ih =>
    obtain ⟨hi, his⟩ := nodup_cons.1 his
    obtain ⟨hposi, hpos⟩ := forall_mem_cons.1 hpos
    refine ih (h.decrement hposi) his fun j hj => ?_
    have hne : j ≠ i := fun heq => hi (heq ▸ hj)
    rw [degreeOf_decrement, if_neg hne]
    exact hpos j hj

end Worklists

/-! ### One turn -/

structure Loop (g : Graph) (n k : Nat) (w : Worklists) (stack : List Nat) : Prop where
  nodup : w.nodes.Nodup
  lt : ∀ i ∈ w.nodes, i < n
  fresh : ∀ i ∈ w.nodes, i ∉ stack
  closed : ∀ i ∈ w.nodes, ∀ j ∈ g.neighbours i, j ∈ w.nodes ∨ j ∈ stack
  degree : ∀ i ∈ w.nodes, w.degreeOf i = w.nodes.countP (· ∈ g.neighbours i)
  high : ∀ i ∈ w.spill, k ≤ w.degreeOf i

section

variable {g : Graph} {n k i j : Nat} {w : Worklists} {stack rest : List Nat}

namespace Loop

variable (h : Loop g n k w stack)

include h

theorem mem_rest (hsimplify : w.simplify = i :: rest) (hj : j ∈ rest ++ w.spill) :
    j ∈ w.nodes ∧ j ∉ i :: stack := by
  have hmem : j ∈ w.nodes := by
    rw [Worklists.nodes, hsimplify]
    exact mem_cons_of_mem _ hj
  refine ⟨hmem, fun hout => ?_⟩
  have hnodup := h.nodup
  rw [Worklists.nodes, hsimplify] at hnodup
  rcases mem_cons.1 hout with rfl | hout
  · exact (nodup_cons.1 hnodup).1 hj
  · exact h.fresh j hmem hout

theorem degreeOf_eq (hsimplify : w.simplify = i :: rest) (hj : j ∈ w.nodes) :
    w.degreeOf j = (rest ++ w.spill).countP (· ∈ g.neighbours j) +
      if i ∈ g.neighbours j then 1 else 0 := by
  rw [h.degree j hj, Worklists.nodes, hsimplify, cons_append, countP_cons]
  simp only [decide_eq_true_eq]

theorem degreeOf_push (hg : g.Proper n) (hlisted : g.Listed) (hsimplify : w.simplify = i :: rest)
    (hj : j ∈ rest ++ w.spill) :
    (((g.neighbours i).filter fun j => !(i :: stack).contains j).foldl
      (Worklists.decrement k) { w with simplify := rest }).degreeOf j =
      (rest ++ w.spill).countP (· ∈ g.neighbours j) := by
  obtain ⟨hnode, hout⟩ := h.mem_rest hsimplify hj
  have hmem : j ∈ (g.neighbours i).filter (fun j => !(i :: stack).contains j) ↔
      i ∈ g.neighbours j := by
    have hcontains : (i :: stack).contains j = false := by simpa using hout
    rw [mem_filter, hcontains]
    simpa using ⟨hg.symm i j, hg.symm j i⟩
  rw [Worklists.degreeOf_foldl_decrement k ((hlisted i).nodup.filter _)]
  change (if _ then w.degreeOf j - 1 else w.degreeOf j) = _
  rw [h.degreeOf_eq hsimplify hnode]
  by_cases hij : i ∈ g.neighbours j
  · rw [if_pos (hmem.2 hij), if_pos hij, Nat.add_sub_cancel]
  · rw [if_neg (hij ∘ hmem.1), if_neg hij, Nat.add_zero]

theorem split_push (hg : g.Proper n) (hlisted : g.Listed) (hsimplify : w.simplify = i :: rest)
    (hrest : ∀ j ∈ rest, w.degreeOf j < k) :
    Worklists.Split k (((g.neighbours i).filter fun j => !(i :: stack).contains j).foldl
      (Worklists.decrement k) { w with simplify := rest }) := by
  have hnodup := h.nodup
  have hi : i ∈ w.nodes := by simp [Worklists.nodes, hsimplify]
  rw [Worklists.nodes, hsimplify] at hnodup
  have hsplit : Worklists.Split k { w with simplify := rest } :=
    ⟨(nodup_cons.1 hnodup).2, hrest, h.high⟩
  refine hsplit.foldl_decrement ((hlisted i).nodup.filter _) fun j hj => ?_
  -- `i` itself is among the neighbours that `j` had left
  obtain ⟨hj, hout⟩ := mem_filter.1 hj
  have hnode : j ∈ w.nodes := (h.closed i hi j hj).resolve_right fun hstack => by simp [hstack] at hout
  show 0 < w.degreeOf j
  rw [h.degreeOf_eq hsimplify hnode, if_pos (hg.symm i j hj)]
  exact Nat.succ_pos _

theorem push (hg : g.Proper n) (hlisted : g.Listed) (hsimplify : w.simplify = i :: rest)
    (hrest : ∀ j ∈ rest, w.degreeOf j < k) :
    Loop g n k (((g.neighbours i).filter fun j => !(i :: stack).contains j).foldl
      (Worklists.decrement k) { w with simplify := rest }) (i :: stack) := by
  have hsplit := h.split_push hg hlisted hsimplify hrest
  have hnodes : w.nodes = i :: (rest ++ w.spill) := by
    rw [Worklists.nodes, hsimplify]
    rfl
  have hperm : List.Perm _ (rest ++ w.spill) := Worklists.perm_nodes_foldl_decrement k
    ((g.neighbours i).filter fun j => !(i :: stack).contains j) { w with simplify := rest }
  have hleft : ∀ {j}, j ∈ _ → j ∈ w.nodes ∧ j ∉ i :: stack := fun hj =>
    h.mem_rest hsimplify (hperm.mem_iff.1 hj)
  refine ⟨hsplit.nodup, fun j hj => h.lt j (hleft hj).1, fun j hj => (hleft hj).2, ?_, ?_, hsplit.high⟩
  · intro j hj l hl
    have hclosed := h.closed j (hleft hj).1 l hl
    rw [hnodes, mem_cons] at hclosed
    rw [hperm.mem_iff, mem_cons]
    tauto
  · intro j hj
    rw [h.degreeOf_push hg hlisted hsimplify (hperm.mem_iff.1 hj), hperm.countP_eq]

theorem promote (hi : i ∈ w.spill) : Loop g n k (w.promote i) stack := by
  have hperm := Worklists.perm_nodes_promote hi
  refine ⟨hperm.nodup_iff.2 h.nodup, fun j hj => h.lt j (hperm.mem_iff.1 hj),
    fun j hj => h.fresh j (hperm.mem_iff.1 hj), fun j hj l hl => ?_, fun j hj => ?_,
    fun j hj => h.high j (mem_of_mem_erase hj)⟩
  · rw [hperm.mem_iff]
    exact h.closed j (hperm.mem_iff.1 hj) l hl
  · rw [hperm.countP_eq]
    exact h.degree j (hperm.mem_iff.1 hj)

theorem degreeOf_eq_length (hlisted : g.Listed) (hi : i ∈ w.nodes) :
    w.degreeOf i = ((g.neighbours i).filter fun j => !stack.contains j).length := by
  rw [h.degree i hi, countP_eq_length_filter]
  refine ((perm_ext_iff_of_nodup (h.nodup.filter _) ((hlisted i).nodup.filter _)).2
    fun j => ?_).length_eq
  simp only [mem_filter, decide_eq_true_eq, Bool.not_eq_true', contains_eq_mem,
    decide_eq_false_iff_not]
  constructor
  · exact fun hj => ⟨hj.2, h.fresh j hj.1⟩
  · exact fun hj => ⟨(h.closed i hi j hj.1).resolve_right hj.2, hj.1⟩

end Loop

end

theorem loop_initial (hs : Interference.Sound E g) (hlisted : g.graph.Listed)
    (hrep : ∀ i j, j ∈ g.graph.neighbours i → g.rep i = i) (k : Nat) :
    Loop g.graph g.values.length k (.initial g k) [] := by
  have hperm := Worklists.perm_nodes_initial g k
  have hnodup : g.representatives.Nodup := nodup_range.filter _
  have hclosed : ∀ i, g.graph.neighbours i ⊆ g.representatives := fun i j hj => by
    have hji := hs.proper.symm i j hj
    exact Interference.mem_representatives.2 ⟨hs.proper.lt_of_mem hji, hrep j i hji⟩
  refine ⟨hperm.nodup_iff.2 hnodup, fun i hi => ?_, fun i _ => not_mem_nil,
    fun i _ j hj => .inl (hperm.mem_iff.2 (hclosed i hj)), fun i hi => ?_, fun i hi => ?_⟩
  · exact (Interference.mem_representatives.1 (hperm.mem_iff.1 hi)).1
  · have hi := (Interference.mem_representatives.1 (hperm.mem_iff.1 hi)).1
    rw [Worklists.degreeOf_initial k hi, hperm.countP_eq, countP_eq_length_filter]
    refine ((perm_ext_iff_of_nodup (hlisted i).nodup (hnodup.filter _)).2 fun j => ?_).length_eq
    simpa using fun hj => hclosed i hj
  · exact of_decide_eq_true (mem_filter.1 hi).2

/-! ### All turns -/

/-- A turn of the loop, from the lists and the nodes that are out to the next ones. There is none if no
node is left. -/
def next? (g : Graph) (cost : Nat → UInt64) (k : Nat) (s : Worklists × List Nat) :
    Option (Worklists × List Nat) :=
  match s.1.simplify with
  | i :: rest =>
    some (((g.neighbours i).filter fun j => !(i :: s.2).contains j).foldl (Worklists.decrement k)
      { s.1 with simplify := rest }, i :: s.2)
  | [] => (candidate? cost s.1 s.1.spill).map fun i => (s.1.promote i, s.2)

/-- One state of the loop comes after another. -/
def Reaches (g : Graph) (cost : Nat → UInt64) (k : Nat) :
    Worklists × List Nat → Worklists × List Nat → Prop :=
  Relation.ReflTransGen fun s s' => next? g cost k s = some s'

section

variable {g : Graph} {cost : Nat → UInt64} {k : Nat} {w : Worklists} {stack : List Nat}
  {s' : Worklists × List Nat}

theorem next?_cases (h : next? g cost k (w, stack) = some s') :
    (∃ i rest, w.simplify = i :: rest ∧
      s' = (((g.neighbours i).filter fun j => !(i :: stack).contains j).foldl
        (Worklists.decrement k) { w with simplify := rest }, i :: stack)) ∨
    ∃ i, w.simplify = [] ∧ candidate? cost w w.spill = some i ∧ s' = (w.promote i, stack) := by
  unfold next? at h
  split at h
  · next i rest hsimplify =>
    cases h
    exact .inl ⟨i, rest, hsimplify, rfl⟩
  · next hsimplify =>
    obtain ⟨i, hi, rfl⟩ := Option.map_eq_some_iff.1 h
    exact .inr ⟨i, hsimplify, hi, rfl⟩

/-- The loop ends with the nodes that it gives back, and no node is left then. -/
theorem reaches_simplifyAll (g : Graph) (cost : Nat → UInt64) (k : Nat) (w : Worklists)
    (stack : List Nat) :
    ∃ w', Reaches g cost k (w, stack) (w', simplifyAll g cost k w stack) ∧ w'.nodes = [] := by
  fun_induction simplifyAll g cost k w stack with
  | case1 w stack i rest hsimplify left ih =>
    obtain ⟨w', hreaches, hnodes⟩ := ih
    exact ⟨w', .head (by rw [next?, hsimplify]) hreaches, hnodes⟩
  | case2 w stack hsimplify hnone =>
    exact ⟨w, .refl, by rw [Worklists.nodes, hsimplify, eq_nil_of_candidate? hnone, append_nil]⟩
  | case3 w stack hsimplify i hcandidate ih =>
    obtain ⟨w', hreaches, hnodes⟩ := ih
    exact ⟨w', .head (by rw [next?, hsimplify, hcandidate, Option.map_some]) hreaches, hnodes⟩

end

/-- What holds at every turn of the loop over a graph. -/
structure Turn (g : Interference) (cost : Nat → UInt64) (k : Nat) (w : Worklists) (stack : List Nat) :
    Prop where
  /-- Every representative is out, or it is in one of the lists, and only once. -/
  nodes : (stack ++ (w.simplify ++ w.spill)).Perm g.representatives
  /-- The degree of a node that is left is the number of its neighbours that are left. -/
  degree : ∀ i ∈ w.simplify ++ w.spill,
    w.degreeOf i = ((g.graph.neighbours i).filter fun j => !stack.contains j).length
  high : ∀ i ∈ w.spill, k ≤ w.degreeOf i
  /-- The nodes of the first list have few neighbours left, unless the turn before has just put the best
  node of the spill list into it, for want of another. -/
  low : (∀ i ∈ w.simplify, w.degreeOf i < k) ∨
    ∃ w₀ i, Reaches g.graph cost k (.initial g k, []) (w₀, stack) ∧ w₀.simplify = [] ∧
      candidate? cost w₀ w₀.spill = some i ∧ w = w₀.promote i

theorem turn_of_reaches (hs : Interference.Sound E g) (hlisted : g.graph.Listed)
    (hrep : ∀ i j, j ∈ g.graph.neighbours i → g.rep i = i) {cost : Nat → UInt64} {k : Nat}
    {s : Worklists × List Nat} (h : Reaches g.graph cost k (.initial g k, []) s) :
    Loop g.graph g.values.length k s.1 s.2 ∧ Turn g cost k s.1 s.2 := by
  induction h with
  | refl =>
    have hloop := loop_initial hs hlisted hrep k
    refine ⟨hloop, Worklists.perm_nodes_initial g k, fun i => hloop.degreeOf_eq_length hlisted,
      hloop.high, .inl fun i hi => of_decide_eq_true (mem_filter.1 hi).2⟩
  | @tail s s' hreaches hnext ih =>
    obtain ⟨w, stack⟩ := s
    obtain ⟨hloop, hturn⟩ := ih
    obtain ⟨i, rest, hsimplify, rfl⟩ | ⟨i, hsimplify, hi, rfl⟩ := next?_cases hnext
    · -- an optimistic push leaves nothing behind in the list
      have hrest : ∀ j ∈ rest, w.degreeOf j < k := by
        rcases hturn.low with hlow | ⟨w₀, i', -, hempty, -, rfl⟩
        · exact fun j hj => hlow j (hsimplify ▸ mem_cons_of_mem _ hj)
        · rw [Worklists.promote, hempty] at hsimplify
          cases hsimplify
          exact fun j hj => absurd hj not_mem_nil
      have hloop' := hloop.push hs.proper hlisted hsimplify hrest
      refine ⟨hloop', ?_, fun j => hloop'.degreeOf_eq_length hlisted, hloop'.high,
        .inl (hloop.split_push hs.proper hlisted hsimplify hrest).low⟩
      have hperm := Worklists.perm_nodes_foldl_decrement k
        ((g.graph.neighbours i).filter fun j => !(i :: stack).contains j) { w with simplify := rest }
      have hnodes := hturn.nodes
      rw [hsimplify] at hnodes
      exact (hperm.append_left _).trans (perm_middle.symm.trans hnodes)
    · have hmem := mem_of_candidate? hi
      have hloop' := hloop.promote hmem
      exact ⟨hloop', ((Worklists.perm_nodes_promote hmem).append_left _).trans hturn.nodes,
        fun j => hloop'.degreeOf_eq_length hlisted, hloop'.high,
        .inr ⟨w, i, hreaches, hsimplify, hi, rfl⟩⟩

/-- The loop over a graph takes out every representative once and no other node. -/
structure Simplified (g : Interference) (cost : Nat → UInt64) (k : Nat) : Prop where
  perm : (simplifyAll g.graph cost k (.initial g k) []).Perm g.representatives
  nodup : (simplifyAll g.graph cost k (.initial g k) []).Nodup
  /-- It ends, when no node is left. -/
  ends : ∃ w, Reaches g.graph cost k (.initial g k, [])
    (w, simplifyAll g.graph cost k (.initial g k) []) ∧ w.simplify = [] ∧ w.spill = []
  turns : ∀ w stack, Reaches g.graph cost k (.initial g k, []) (w, stack) → Turn g cost k w stack

theorem simplified_of_sound (hs : Interference.Sound E g) (hlisted : g.graph.Listed)
    (hrep : ∀ i j, j ∈ g.graph.neighbours i → g.rep i = i) (cost : Nat → UInt64) (k : Nat) :
    Simplified g cost k := by
  have hperm := (perm_simplifyAll g.graph cost k (.initial g k) []).trans
    (Worklists.perm_nodes_initial g k)
  obtain ⟨w, hreaches, hnodes⟩ := reaches_simplifyAll g.graph cost k (.initial g k) []
  exact ⟨hperm, hperm.nodup_iff.2 (nodup_range.filter _),
    ⟨w, hreaches, append_eq_nil_iff.1 hnodes⟩,
    fun w stack h => (turn_of_reaches hs hlisted hrep h).2⟩

/-- Any graph, coalesced any number of times, with any costs and any number of registers. -/
theorem simplified_coalesce (cs : List Clash) (moves : List (ValueId × ValueId)) (ks : List Nat)
    (cost : Nat → UInt64) (k : Nat) :
    Simplified (ks.foldl Interference.coalesce (.ofClashes cs moves)) cost k := by
  have hs := @Interference.sound_ofClashes cs moves
  obtain ⟨merges, h⟩ := Interference.exists_merges hs (fun _ => Interference.moves_ofClashes) ks
  exact simplified_of_sound (h.sound hs).1 (h.listed (Interference.listed_ofClashes cs moves))
    (h.represented hs fun _ => Interference.rep_ofClashes) cost k

end SsaBackend.Coloring
