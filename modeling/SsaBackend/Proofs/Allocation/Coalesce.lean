import SsaBackend.Proofs.Allocation.Coloring
import Mathlib.Data.Finset.Powerset

/-!
# Coalescing keeps a graph simplifiable

A graph can be taken apart with `k` registers if every set of its nodes has a member with fewer than
`k` neighbours in the set (`Graph.Simplifiable`). Merging two nodes that together have fewer than `k`
neighbours keeps that: a set with the merged node in it has that node for a member, and in any other
set the same nodes are neighbours as before.
-/

namespace SsaBackend

open List

namespace Graph

variable {g : Graph} {S : Finset Nat} {n k i j : Nat}

def Listed (g : Graph) : Prop := ∀ i, (g.neighbours i).Pairwise (· < ·)

theorem Listed.modify (h : g.Listed) (i : Nat) {change : List Nat → List Nat}
    (hchange : ∀ s : List Nat, s.Pairwise (· < ·) → (change s).Pairwise (· < ·)) :
    Listed ⟨g.adj.modify i change⟩ := by
  intro j
  rw [neighbours, getD_modify]
  split
  · exact hchange _ (h j)
  · exact h j

theorem Listed.link (h : g.Listed) (i j : Nat) : (g.link i j).Listed := by
  unfold Graph.link
  split
  · exact h
  · exact (h.modify i fun _ => Ascending.pairwise_insert j).modify j
      fun _ => Ascending.pairwise_insert i

theorem Listed.unlink (h : g.Listed) (i j : Nat) : (g.unlink i j).Listed :=
  (h.modify i fun _ => Ascending.pairwise_erase j).modify j fun _ => Ascending.pairwise_erase i

theorem listed_edgeless (n : Nat) : (edgeless n).Listed := by
  intro i
  rw [neighbours_edgeless]
  exact .nil

def degreeIn (g : Graph) (S : Finset Nat) (i : Nat) : Nat := {j ∈ S | j ∈ g.neighbours i}.card

theorem degreeIn_le_length (ns : List Nat) (h : g.neighbours i ⊆ ns) :
    g.degreeIn S i ≤ ns.length := by
  refine Nat.le_trans (Finset.card_le_card (t := ns.toFinset) fun j hj => ?_) ns.toFinset_card_le
  exact mem_toFinset.2 (h (Finset.mem_filter.1 hj).2)

/-- Every set of nodes has a member with fewer than `k` neighbours in the set. -/
def Simplifiable (g : Graph) (n k : Nat) : Prop :=
  ∀ S : Finset Nat, S.Nonempty → (∀ i ∈ S, i < n) → ∃ i ∈ S, g.degreeIn S i < k

end Graph

namespace Interference

variable {E : Nat → Nat → Prop} {g : Interference} {k keep gone : Nat}

/-- Every set of ids has a member that interferes with fewer than `k` others in the set. -/
def Simplifiable (g : Interference) (k : Nat) : Prop :=
  ∀ S : Finset ValueId, S.Nonempty → (∀ v ∈ S, v ∈ g.values) →
    ∃ v ∈ S, {w ∈ S | g.graph.isLinked (g.values.idxOf v) (g.values.idxOf w)}.card < k

instance (g : Interference) (k : Nat) : Decidable (g.Simplifiable k) :=
  decidable_of_iff (∀ S ∈ g.values.toFinset.powerset, S.Nonempty →
    ∃ v ∈ S, {w ∈ S | g.graph.isLinked (g.values.idxOf v) (g.values.idxOf w)}.card < k) (by
      simp only [Simplifiable, Finset.mem_powerset, Finset.subset_iff, mem_toFinset]
      exact forall_congr' fun S => forall_comm)

theorem Simplifiable.graph (h : g.Simplifiable k) (hnodup : g.values.Nodup) :
    g.graph.Simplifiable g.values.length k := by
  intro S hS hlt
  have hidx : ∀ i ∈ S, g.values.idxOf (g.values.getD i 0) = i := by
    intro i hi
    rw [getD_eq_getElem _ _ (hlt i hi), hnodup.idxOf_getElem]
  obtain ⟨v, hv, hcard⟩ := h (S.image fun i => g.values.getD i 0) (hS.image _) (by
    intro v hv
    obtain ⟨i, hi, rfl⟩ := Finset.mem_image.1 hv
    rw [getD_eq_getElem _ _ (hlt i hi)]
    exact getElem_mem _)
  obtain ⟨i, hi, rfl⟩ := Finset.mem_image.1 hv
  refine ⟨i, hi, Nat.lt_of_le_of_lt ?_ hcard⟩
  -- different nodes stand for different ids
  refine Finset.card_le_card_of_injOn (fun j => g.values.getD j 0) (fun j hj => ?_) ?_
  · obtain ⟨hj, hlink⟩ := Finset.mem_filter.1 hj
    refine Finset.mem_filter.2 ⟨Finset.mem_image_of_mem _ hj, ?_⟩
    rw [hidx i hi, hidx j hj]
    simpa [Graph.isLinked] using hlink
  · intro j hj l hl heq
    have hj' := hidx j (Finset.mem_filter.1 hj).1
    have hl' := hidx l (Finset.mem_filter.1 hl).1
    rw [← hj', ← hl']
    exact congrArg g.values.idxOf heq

theorem mem_representatives {i : Nat} :
    i ∈ g.representatives ↔ i < g.values.length ∧ g.rep i = i := by
  simp [representatives]

structure Reduced (k : Nat) (g : Interference) : Prop where
  listed : g.graph.Listed
  represented : ∀ i j, j ∈ g.graph.neighbours i → g.rep i = i
  simplifiable : g.graph.Simplifiable g.values.length k

theorem simplifiable_merge (h : g.graph.Simplifiable g.values.length k)
    (hproper : g.graph.Proper g.values.length) (hkeep : keep < g.values.length)
    (hne : keep ≠ gone) (hfree : gone ∉ g.graph.neighbours keep)
    (hdegree : g.graph.degree keep + g.graph.degree gone < k) :
    (g.merge keep gone).graph.Simplifiable g.values.length k := by
  obtain ⟨-, hiff⟩ := merge_spec hproper hkeep hne hfree
  intro S hS hlt
  by_cases hkS : keep ∈ S
  · -- the merged node has few neighbours anywhere
    refine ⟨keep, hkS, Nat.lt_of_le_of_lt (Graph.degreeIn_le_length
      (g.graph.neighbours keep ++ g.graph.neighbours gone) fun j hj => ?_) ?_⟩
    · rcases (hiff keep j).1 hj with ⟨-, -, hj⟩ | ⟨-, hj⟩ | ⟨hkeep, -⟩
      · exact mem_append_left _ hj
      · exact mem_append_right _ hj
      · exact absurd (hproper.symm _ _ hkeep) hfree
    · rw [length_append]
      exact hdegree
  · by_cases hgS : gone ∈ S
    · -- the node that went away has none at all
      refine ⟨gone, hgS, Nat.lt_of_le_of_lt (Graph.degreeIn_le_length [] fun j hj => ?_)
        (Nat.zero_lt_of_lt hdegree)⟩
      rcases (hiff gone j).1 hj with ⟨hgone, -⟩ | ⟨hgone, -⟩ | ⟨hgone, -⟩
      · exact absurd rfl hgone
      · exact absurd hgone.symm hne
      · exact absurd hgone (hproper.irrefl gone)
    · -- between other nodes nothing changes
      obtain ⟨i, hi, hcard⟩ := h S hS hlt
      refine ⟨i, hi, ?_⟩
      have hsame : ∀ j ∈ S, j ∈ (g.merge keep gone).graph.neighbours i ↔
          j ∈ g.graph.neighbours i := by
        intro j hj
        rw [hiff]
        have hik : i ≠ keep := fun h => hkS (h ▸ hi)
        have hjk : j ≠ keep := fun h => hkS (h ▸ hj)
        have hig : i ≠ gone := fun h => hgS (h ▸ hi)
        have hjg : j ≠ gone := fun h => hgS (h ▸ hj)
        simp [hik, hjk, hig, hjg]
      rwa [Graph.degreeIn, Finset.filter_congr hsame]

theorem listed_merge (h : g.graph.Listed) (keep gone : Nat) :
    (g.merge keep gone).graph.Listed :=
  List.foldlRecOn (motive := Graph.Listed) _ _ h fun _ h n _ => (h.unlink gone n).link keep n

theorem represented_merge (h : ∀ i j, j ∈ g.graph.neighbours i → g.rep i = i) (hs : Sound E g)
    (hkeep : keep < g.values.length) (hkrep : g.rep keep = keep) (hne : keep ≠ gone)
    (hfree : gone ∉ g.graph.neighbours keep) (i j : Nat)
    (hij : j ∈ (g.merge keep gone).graph.neighbours i) : (g.merge keep gone).rep i = i := by
  obtain ⟨hproper, hiff⟩ := merge_spec hs.proper hkeep hne hfree
  have hrep : g.rep i = i ∧ i ≠ gone := by
    rcases (hiff i j).1 hij with ⟨hig, -, hij⟩ | ⟨rfl, -⟩ | ⟨hig, -⟩
    · exact ⟨h i j hij, hig⟩
    · exact ⟨hkrep, hne⟩
    · refine ⟨h i gone (hs.proper.symm _ _ hig), ?_⟩
      rintro rfl
      exact hs.proper.irrefl _ hig
  rw [rep_merge (hs.length.symm ▸ hproper.lt_of_mem hij), hrep.1, if_neg hrep.2]

theorem Reduced.coalesceMove (h : Reduced k g) (hs : Sound E g) {m : Nat × Nat}
    (hm : m.1 < g.values.length) : Reduced k (g.coalesceMove k m) := by
  unfold Interference.coalesceMove
  dsimp only
  split
  · exact h
  · rename_i hcond
    simp only [Bool.or_eq_true, decide_eq_true_eq, not_or, Nat.not_le, Graph.isLinked,
      contains_iff_mem] at hcond
    obtain ⟨⟨hne, hfree⟩, hdegree⟩ := hcond
    have hkeep := hs.rep_lt _ hm
    exact ⟨listed_merge h.listed _ _,
      represented_merge h.represented hs hkeep (hs.rep_rep _ hm) hne hfree,
      simplifiable_merge h.simplifiable hs.proper hkeep hne hfree hdegree⟩

theorem Reduced.coalesce (h : Reduced k g) (hs : Sound E g)
    (hmoves : ∀ m ∈ g.moves, m.1 < g.values.length ∧ m.2 < g.values.length) :
    Reduced k (g.coalesce k) ∧ Sound E (g.coalesce k) := by
  refine (coalesce_induction (motive := fun g' => Reduced k g' ∧ Sound E g') ⟨h, hs⟩ ?_).1
  rintro g' m hvalues hm ⟨h', hs'⟩
  have hlt := hvalues ▸ hmoves m hm
  exact ⟨h'.coalesceMove hs' hlt.1, hs'.coalesceMove k hlt⟩

theorem listed_ofClashes (cs : List Clash) (moves : List (ValueId × ValueId)) :
    (ofClashes cs moves).graph.Listed := by
  refine List.foldlRecOn (motive := Graph.Listed) cs _ (Graph.listed_edgeless _) ?_
  intro graph hgraph c _
  exact List.foldlRecOn (motive := Graph.Listed) c.others _ hgraph fun _ h v _ => h.link _ _

theorem reduced_ofClashes {cs : List Clash} {moves : List (ValueId × ValueId)}
    (h : (ofClashes cs moves).Simplifiable k) : Reduced k (ofClashes cs moves) :=
  ⟨listed_ofClashes cs moves, fun _ _ hij => rep_ofClashes (sound_ofClashes.proper.lt_of_mem hij),
    h.graph (nodup_eraseDups _)⟩

end Interference

end SsaBackend
