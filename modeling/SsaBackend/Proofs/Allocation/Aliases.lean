import SsaBackend.Proofs.Allocation.Coalesce

/-!
# Merges and aliases

Coalescing is a run of merges, each of two representatives that are not neighbours. Whatever such a run
keeps is shown for one merge and follows for every run of them (`Merges`). A node that went away has the
node that it went into for an alias. Following aliases from any node ends at its representative, since a
node that has an alias is no representative any more and so is never merged again. What is left of the
graph in the end is said by `coalesced_build`.
-/

namespace SsaBackend.Interference

open List

variable {g g' : Interference} {k keep gone : Nat} {merges : List (Nat × Nat)}
variable {E : Nat → Nat → Prop}

/-! ### Runs of merges -/

/-- What a copy makes coalescing merge: the node that stays and the node that goes. -/
def merge? (k : Nat) (g : Interference) (m : Nat × Nat) : Option (Nat × Nat) :=
  if g.rep m.1 = g.rep m.2 || g.graph.isLinked (g.rep m.1) (g.rep m.2) ||
      k ≤ g.graph.degree (g.rep m.1) + g.graph.degree (g.rep m.2) then none
  else some (g.rep m.1, g.rep m.2)

theorem coalesceMove_eq (k : Nat) (g : Interference) (m : Nat × Nat) :
    g.coalesceMove k m = (merge? k g m).elim g fun p => g.merge p.1 p.2 := by
  unfold coalesceMove merge?
  dsimp only
  split <;> rfl

/-- Coalescing with an account of its merges, in their order. -/
def history (g : Interference) (k : Nat) : Interference × List (Nat × Nat) :=
  g.moves.foldl (fun h m => (h.1.coalesceMove k m, h.2 ++ (merge? k h.1 m).toList)) (g, [])

theorem history_fst (g : Interference) (k : Nat) : (g.history k).1 = g.coalesce k :=
  (foldl_hom Prod.fst fun _ _ => rfl).symm

/-- `g'` is what merges make of `g`. Each of them is of two representatives that are not neighbours. -/
inductive Merges (g : Interference) : List (Nat × Nat) → Interference → Prop
  | refl : Merges g [] g
  | merge {merges : List (Nat × Nat)} {g' : Interference} {keep gone : Nat} (h : Merges g merges g')
      (hkeep : keep ∈ g'.representatives) (hgone : gone ∈ g'.representatives) (hne : keep ≠ gone)
      (hfree : gone ∉ g'.graph.neighbours keep) :
      Merges g (merges ++ [(keep, gone)]) (g'.merge keep gone)

theorem Merges.eq_foldl (h : Merges g merges g') :
    g' = merges.foldl (fun g m => g.merge m.1 m.2) g := by
  induction h with
  | refl => rfl
  | merge _ _ _ _ _ ih => rw [foldl_append, ← ih]; rfl

theorem Merges.sound (h : Merges g merges g') (hs : Sound E g) :
    Sound E g' ∧ g'.values = g.values := by
  induction h with
  | refl => exact ⟨hs, rfl⟩
  | merge _ hkeep _ hne hfree ih =>
    obtain ⟨hlt, hrep⟩ := mem_representatives.1 hkeep
    exact ⟨ih.1.merge hlt hrep hne hfree, ih.2⟩

theorem Merges.moves (h : Merges g merges g') : g'.moves = g.moves := by
  induction h with
  | refl => rfl
  | merge _ _ _ _ _ ih => exact ih

theorem Merges.trans {merges' : List (Nat × Nat)} {g'' : Interference} (h : Merges g merges g')
    (h' : Merges g' merges' g'') : Merges g (merges ++ merges') g'' := by
  induction h' with
  | refl => rwa [append_nil]
  | merge _ hkeep hgone hne hfree ih =>
    rw [← append_assoc]
    exact ih.merge hkeep hgone hne hfree

theorem Merges.listed (h : Merges g merges g') (hlisted : g.graph.Listed) : g'.graph.Listed := by
  induction h with
  | refl => exact hlisted
  | merge _ _ _ _ _ ih => exact listed_merge ih _ _

theorem merges_history (hs : Sound E g)
    (hmoves : ∀ m ∈ g.moves, m.1 < g.values.length ∧ m.2 < g.values.length) (k : Nat) :
    Merges g (g.history k).2 (g.coalesce k) := by
  rw [← history_fst]
  refine List.foldlRecOn (motive := fun h : Interference × List (Nat × Nat) => Merges g h.2 h.1)
    _ _ .refl fun h hmerges m hm => ?_
  obtain ⟨hsound, hvalues⟩ := hmerges.sound hs
  obtain ⟨hdst, hsrc⟩ := hvalues ▸ hmoves m hm
  dsimp only
  rw [coalesceMove_eq]
  unfold merge?
  split
  · simpa using hmerges
  · rename_i hcond
    simp only [Bool.or_eq_true, decide_eq_true_eq, not_or, Graph.isLinked,
      contains_iff_mem] at hcond
    obtain ⟨⟨hne, hfree⟩, -⟩ := hcond
    exact hmerges.merge (mem_representatives.2 ⟨hsound.rep_lt _ hdst, hsound.rep_rep _ hdst⟩)
      (mem_representatives.2 ⟨hsound.rep_lt _ hsrc, hsound.rep_rep _ hsrc⟩) hne hfree

/-- Coalescing several times, with different numbers of registers. -/
theorem exists_merges (hs : Sound E g)
    (hmoves : ∀ m ∈ g.moves, m.1 < g.values.length ∧ m.2 < g.values.length) (ks : List Nat) :
    ∃ merges, Merges g merges (ks.foldl coalesce g) := by
  refine List.foldlRecOn (motive := fun g' => ∃ merges, Merges g merges g') ks _ ⟨[], .refl⟩ ?_
  rintro g' ⟨merges, h⟩ k -
  obtain ⟨hsound, hvalues⟩ := h.sound hs
  refine ⟨_, h.trans (merges_history hsound (fun m hm => ?_) k)⟩
  rw [hvalues]
  exact hmoves m (h.moves ▸ hm)

/-! ### Aliases -/

/-- The node that a node was merged into. -/
def alias? (merges : List (Nat × Nat)) (i : Nat) : Option Nat :=
  (merges.find? fun m => m.2 = i).map Prod.fst

/-- Following aliases from one node ends at another. -/
inductive Finds (merges : List (Nat × Nat)) : Nat → Nat → Prop
  | here {i : Nat} (h : alias? merges i = none) : Finds merges i i
  | next {i j r : Nat} (h : alias? merges i = some j) (hfinds : Finds merges j r) : Finds merges i r

theorem alias?_concat (merges : List (Nat × Nat)) (keep gone i : Nat) :
    alias? (merges ++ [(keep, gone)]) i =
      (alias? merges i).or (if gone = i then some keep else none) := by
  unfold alias?
  rw [find?_append]
  cases merges.find? fun m => m.2 = i with
  | some m => rfl
  | none =>
    by_cases hi : gone = i <;> simp [hi]

theorem Finds.alias?_eq_none {i r : Nat} (h : Finds merges i r) : alias? merges r = none := by
  induction h with
  | here h => exact h
  | next _ _ ih => exact ih

theorem Finds.alias?_eq_none_iff {i r : Nat} (h : Finds merges i r) : alias? merges i = none ↔ r = i := by
  constructor
  · intro hnone
    cases h with
    | here => rfl
    | next hsome => rw [hnone] at hsome; cases hsome
  · rintro rfl
    exact h.alias?_eq_none

theorem Finds.concat {i r : Nat} (h : Finds merges i r) (hkeep : alias? merges keep = none)
    (hne : keep ≠ gone) : Finds (merges ++ [(keep, gone)]) i (if r = gone then keep else r) := by
  induction h with
  | @here i h =>
    split
    · next hi =>
      refine .next (j := keep) ?_ (.here ?_)
      · rw [alias?_concat, h, if_pos hi.symm, Option.none_or]
      · rw [alias?_concat, hkeep, if_neg hne.symm, Option.none_or]
    · next hi => exact .here (by rw [alias?_concat, h, if_neg (Ne.symm hi), Option.none_or])
  | next h _ ih => exact .next (by rw [alias?_concat, h, Option.some_or]) ih

theorem Merges.finds (h : Merges g merges g') (hs : Sound E g)
    (hfresh : ∀ i < g.values.length, g.rep i = i) :
    ∀ i < g.values.length, Finds merges i (g'.rep i) := by
  induction h with
  | refl =>
    intro i hi
    rw [hfresh i hi]
    exact .here rfl
  | merge h hkeep _ hne _ ih =>
    obtain ⟨hsound, hvalues⟩ := h.sound hs
    obtain ⟨hlt, hrep⟩ := mem_representatives.1 hkeep
    intro i hi
    rw [rep_merge (by rw [hsound.length, hvalues]; exact hi)]
    exact (ih i hi).concat ((ih _ (hvalues ▸ hlt)).alias?_eq_none_iff.2 hrep) hne

/-! ### What a run of merges leaves -/

theorem Merges.represented (h : Merges g merges g') (hs : Sound E g)
    (hfresh : ∀ i < g.values.length, g.rep i = i) :
    ∀ i j, j ∈ g'.graph.neighbours i → g'.rep i = i := by
  induction h with
  | refl => exact fun i j hij => hfresh i (hs.proper.lt_of_mem hij)
  | merge h hkeep _ hne hfree ih =>
    obtain ⟨hlt, hrep⟩ := mem_representatives.1 hkeep
    exact represented_merge ih (h.sound hs).1 hlt hrep hne hfree

/-- Two nodes are neighbours only if nodes that they represent were. -/
theorem Merges.origin (h : Merges g merges g') (hs : Sound E g)
    (hfresh : ∀ i < g.values.length, g.rep i = i) :
    ∀ i j, j ∈ g'.graph.neighbours i →
      ∃ a b, b ∈ g.graph.neighbours a ∧ g'.rep a = i ∧ g'.rep b = j := by
  induction h with
  | refl =>
    intro i j hij
    exact ⟨i, j, hij, hfresh i (hs.proper.lt_of_mem hij),
      hfresh j (hs.proper.lt_of_mem (hs.proper.symm _ _ hij))⟩
  | @merge merges g' keep gone h hkeep hgone hne hfree ih =>
    obtain ⟨hsound, hvalues⟩ := h.sound hs
    obtain ⟨-, hiff⟩ := merge_spec hsound.proper (mem_representatives.1 hkeep).1 hne hfree
    -- an edge that was there before, with what became of its ends
    have hold : ∀ {i j}, j ∈ g'.graph.neighbours i → ∃ a b, b ∈ g.graph.neighbours a ∧
        (g'.merge keep gone).rep a = (if i = gone then keep else i) ∧
        (g'.merge keep gone).rep b = (if j = gone then keep else j) := by
      intro i j hij
      obtain ⟨a, b, hab, rfl, rfl⟩ := ih i j hij
      have hlt : ∀ {x y}, y ∈ g.graph.neighbours x → x < g'.reps.length := fun hxy => by
        rw [hsound.length, hvalues]
        exact hs.proper.lt_of_mem hxy
      exact ⟨a, b, hab, rep_merge (hlt hab), rep_merge (hlt (hs.proper.symm _ _ hab))⟩
    intro i j hij
    rcases (hiff i j).1 hij with ⟨hi, hj, hedge⟩ | ⟨rfl, hedge⟩ | ⟨hedge, rfl⟩
    · obtain ⟨a, b, hab, ha, hb⟩ := hold hedge
      exact ⟨a, b, hab, by rw [ha, if_neg hi], by rw [hb, if_neg hj]⟩
    · have hj : j ≠ gone := fun heq => hsound.proper.irrefl gone (heq ▸ hedge)
      obtain ⟨a, b, hab, ha, hb⟩ := hold hedge
      exact ⟨a, b, hab, by rw [ha, if_pos rfl], by rw [hb, if_neg hj]⟩
    · have hi : i ≠ gone := fun heq => hsound.proper.irrefl gone (heq ▸ hedge)
      obtain ⟨a, b, hab, ha, hb⟩ := hold (hsound.proper.symm _ _ hedge)
      exact ⟨a, b, hab, by rw [ha, if_neg hi], by rw [hb, if_pos rfl]⟩

theorem representatives_merge (hs : Sound E g) (hkeep : g.rep keep = keep) (hne : keep ≠ gone) :
    (g.merge keep gone).representatives = g.representatives.erase gone := by
  have hnodup : g.representatives.Nodup := nodup_range.filter _
  rw [hnodup.erase_eq_filter, representatives, representatives, filter_filter]
  refine filter_congr fun i hi => ?_
  rw [rep_merge (by rw [hs.length]; exact mem_range.1 hi)]
  -- whatever `gone` represented is represented by `keep`, which is another node
  have hiff : (if g.rep i = gone then keep else g.rep i) = i ↔ i ≠ gone ∧ g.rep i = i := by
    grind
  rw [Bool.eq_iff_iff]
  simp [hiff]

theorem Merges.count (h : Merges g merges g') (hs : Sound E g) (n : Nat) (hn : n ≤ merges.length) :
    ((merges.take n).foldl (fun g m => g.merge m.1 m.2) g).representatives.length + n =
      g.representatives.length := by
  induction h generalizing n with
  | refl =>
    cases Nat.le_zero.1 hn
    rfl
  | @merge merges g' keep gone h hkeep hgone hne _ ih =>
    rcases Nat.lt_or_eq_of_le hn with hlt | rfl
    · rw [length_append, length_singleton] at hlt
      rw [take_append_of_le_length (by omega)]
      exact ih n (by omega)
    · have hall := ih _ (Nat.le_refl _)
      rw [take_length] at hall
      rw [take_length, foldl_append, length_append, ← Nat.add_assoc]
      rw [← h.eq_foldl] at hall ⊢
      have hpos := length_pos_of_mem hgone
      show (g'.merge keep gone).representatives.length + _ + 1 = _
      rw [representatives_merge (h.sound hs).1 (mem_representatives.1 hkeep).2 hne,
        length_erase_of_mem hgone]
      omega

/-- What coalescing leaves of a graph. -/
structure Coalesced (g : Interference) (merges : List (Nat × Nat)) (g' : Interference) : Prop where
  merged : g' = merges.foldl (fun g m => g.merge m.1 m.2) g
  symm : ∀ i j, j ∈ g'.graph.neighbours i → i ∈ g'.graph.neighbours j
  irrefl : ∀ i, i ∉ g'.graph.neighbours i
  /-- Only representatives have neighbours. -/
  represented : ∀ i j, j ∈ g'.graph.neighbours i → i ∈ g'.representatives
  /-- Following aliases from any node ends, and it ends at a representative. -/
  finds : ∀ i < g.values.length, Finds merges i (g'.rep i) ∧ g'.rep i ∈ g'.representatives
  /-- The representatives are the nodes without an alias. -/
  mem_representatives : ∀ i, i ∈ g'.representatives ↔ i < g.values.length ∧ alias? merges i = none
  /-- Nodes that interfered are represented by different nodes, which interfere. -/
  edges : ∀ i j, j ∈ g.graph.neighbours i →
    g'.rep i ≠ g'.rep j ∧ g'.rep j ∈ g'.graph.neighbours (g'.rep i)
  /-- No other nodes interfere. -/
  origin : ∀ i j, j ∈ g'.graph.neighbours i →
    ∃ a b, b ∈ g.graph.neighbours a ∧ g'.rep a = i ∧ g'.rep b = j
  /-- Each merge leaves one representative less. -/
  count : ∀ n ≤ merges.length,
    ((merges.take n).foldl (fun g m => g.merge m.1 m.2) g).representatives.length + n =
      g.representatives.length

theorem Merges.coalesced (h : Merges g merges g')
    (hs : Sound (fun i j => j ∈ g.graph.neighbours i) g) (hfresh : ∀ i < g.values.length, g.rep i = i) :
    Coalesced g merges g' := by
  obtain ⟨hsound, hvalues⟩ := h.sound hs
  have hrep : ∀ i < g.values.length, g'.rep i ∈ g'.representatives := by
    intro i hi
    rw [← hvalues] at hi
    exact mem_representatives.2 ⟨hsound.rep_lt i hi, hsound.rep_rep i hi⟩
  refine ⟨h.eq_foldl, hsound.proper.symm, hsound.proper.irrefl, fun i j hij => ?_,
    fun i hi => ⟨h.finds hs hfresh i hi, hrep i hi⟩, fun i => ?_, fun i j hij => ?_,
    h.origin hs hfresh, h.count hs⟩
  · exact mem_representatives.2 ⟨hsound.proper.lt_of_mem hij, h.represented hs hfresh i j hij⟩
  · rw [mem_representatives, hvalues]
    exact and_congr_right fun hi => (h.finds hs hfresh i hi).alias?_eq_none_iff.symm
  · have hi := hs.proper.lt_of_mem hij
    have hj := hs.proper.lt_of_mem (hs.proper.symm _ _ hij)
    have hedge := hsound.edges i j (hvalues ▸ hi) (hvalues ▸ hj) hij
    refine ⟨fun heq => ?_, hedge⟩
    rw [heq] at hedge
    exact hsound.proper.irrefl _ hedge

/-- Coalescing the graph of a function, with any number of registers. -/
theorem coalesced_build (params : List ValueId) (flow : List FlowBlock) (live : Liveness) (k : Nat) :
    Coalesced (build params flow live) ((build params flow live).history k).2
      ((build params flow live).coalesce k) :=
  (merges_history sound_ofClashes (fun _ => moves_ofClashes) k).coalesced sound_ofClashes
    fun _ => rep_ofClashes

end SsaBackend.Interference
