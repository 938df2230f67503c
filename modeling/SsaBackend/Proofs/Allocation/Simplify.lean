import SsaBackend.Proofs.Allocation.Slots
import SsaBackend.Proofs.Allocation.Worklists

/-!
# Coloring spills nothing that simplification can handle

While nodes go out, the degrees that are kept are exact for the nodes that are left. In a simplifiable
graph the nodes of the spill list cannot be all that is left (`Coloring.Loop.spill_eq_nil`), so every node
goes out with fewer than `k` neighbours left. When it comes back, no more of its neighbours are back
already, and one of `k` colors is left for it (`Coloring.Colorable`).
-/

namespace SsaBackend

open List

namespace Coloring

variable {E : Nat → Nat → Prop}

/-! ### Taking nodes out -/

def Colorable (g : Graph) (k : Nat) : (back stack : List Nat) → Prop
  | _, [] => True
  | back, i :: stack =>
    back.countP (· ∈ g.neighbours i) < k ∧ Colorable g k (i :: back) stack

theorem Colorable.perm {g : Graph} {k : Nat} {stack : List Nat} :
    ∀ {back back' : List Nat}, back.Perm back' → Colorable g k back stack →
      Colorable g k back' stack := by
  induction stack with
  | nil => exact fun _ _ => trivial
  | cons i stack ih => exact fun hp h => ⟨hp.countP_eq _ ▸ h.1, ih (hp.cons i) h.2⟩

structure Simplifying (g : Graph) (n k : Nat) (w : Worklists) (stack : List Nat) : Prop where
  loop : Loop g n k w stack
  low : ∀ i ∈ w.simplify, w.degreeOf i < k
  colorable : Colorable g k w.nodes stack

section

variable {g : Graph} {n k i : Nat} {w : Worklists} {stack rest : List Nat}

theorem Simplifying.push (h : Simplifying g n k w stack) (hg : g.Proper n) (hlisted : g.Listed)
    (hsimplify : w.simplify = i :: rest) :
    Simplifying g n k (((g.neighbours i).filter fun j => !(i :: stack).contains j).foldl
      (Worklists.decrement k) { w with simplify := rest }) (i :: stack) := by
  obtain ⟨hlow, hrest⟩ := forall_mem_cons.1 (hsimplify ▸ h.low)
  have hnodes : w.nodes = i :: (rest ++ w.spill) := by
    rw [Worklists.nodes, hsimplify]
    rfl
  have hperm : List.Perm _ (rest ++ w.spill) := Worklists.perm_nodes_foldl_decrement k
    ((g.neighbours i).filter fun j => !(i :: stack).contains j) { w with simplify := rest }
  refine ⟨h.loop.push hg hlisted hsimplify hrest,
    (h.loop.split_push hg hlisted hsimplify hrest).low, ?_, ?_⟩
  · have hdegree := h.loop.degreeOf_eq hsimplify (j := i) (hnodes ▸ mem_cons_self)
    rw [if_neg (hg.irrefl i), Nat.add_zero] at hdegree
    rwa [hperm.countP_eq, ← hdegree]
  · exact h.colorable.perm (hnodes ▸ (hperm.cons i).symm)

theorem Loop.spill_eq_nil (h : Loop g n k w stack) (hg : g.Simplifiable n k)
    (hsimplify : w.simplify = []) : w.spill = [] := by
  have hnodes : w.nodes = w.spill := by rw [Worklists.nodes, hsimplify, nil_append]
  by_contra hne
  obtain ⟨i, hi, hlow⟩ := hg w.spill.toFinset (toFinset_nonempty_iff _ |>.2 hne) fun i hi =>
    h.lt i (hnodes ▸ mem_toFinset.1 hi)
  -- all neighbours that this node has left are in the spill list, and they are too many
  have hmem := mem_toFinset.1 hi
  have hhigh := h.high i hmem
  have hnodup : w.spill.Nodup := hnodes ▸ h.nodup
  rw [h.degree i (hnodes ▸ hmem), hnodes, countP_eq_length_filter,
    ← toFinset_card_of_nodup (hnodup.filter _), toFinset_filter] at hhigh
  simp only [decide_eq_true_eq] at hhigh
  exact absurd hlow (Nat.not_lt.2 hhigh)

theorem simplifyAll_colorable (hg : g.Proper n) (hlisted : g.Listed) (hsimple : g.Simplifiable n k)
    (cost : Nat → UInt64) (h : Simplifying g n k w stack) :
    Colorable g k [] (simplifyAll g cost k w stack) := by
  fun_induction simplifyAll g cost k w stack with
  | case1 w stack i rest hsimplify left ih => exact ih (h.push hg hlisted hsimplify)
  | case2 w stack hsimplify hnone =>
    have hcolorable := h.colorable
    rwa [Worklists.nodes, hsimplify, h.loop.spill_eq_nil hsimple hsimplify] at hcolorable
  | case3 w stack hsimplify i hcandidate ih =>
    have hmem := mem_of_candidate? hcandidate
    rw [h.loop.spill_eq_nil hsimple hsimplify] at hmem
    cases hmem

theorem simplifying_initial {g : Interference} (hs : Interference.Sound E g)
    (h : Interference.Reduced k g) : Simplifying g.graph g.values.length k (.initial g k) [] :=
  ⟨loop_initial hs h.listed h.represented k, fun _ hi => of_decide_eq_true (mem_filter.1 hi).2,
    trivial⟩

end

/-! ### Colors -/

theorem exists_color {g : Graph} {k i : Nat} {back : List Nat} {colors : List (Nat × Nat)}
    (hback : ∀ j, (colors.lookup j).isSome → j ∈ back)
    (hfew : back.countP (· ∈ g.neighbours i) < k) :
    ∃ c, (List.range k).find? (fun c =>
      !((g.neighbours i).filterMap fun j => colors.lookup j).contains c) = some c := by
  cases hfind : (List.range k).find? fun c =>
      !((g.neighbours i).filterMap fun j => colors.lookup j).contains c with
  | some c => exact ⟨c, rfl⟩
  | none =>
    -- otherwise all colors are taken, by different neighbours
    have hsub : List.range k ⊆
        (back.filter (· ∈ g.neighbours i)).filterMap fun j => colors.lookup j := by
      intro c hc
      have htaken := find?_eq_none.1 hfind c hc
      simp only [Bool.not_eq_true', Bool.not_eq_false, contains_iff_mem] at htaken
      obtain ⟨j, hj, hlook⟩ := mem_filterMap.1 htaken
      refine mem_filterMap.2 ⟨j, mem_filter.2 ⟨hback j (by simp [hlook]), ?_⟩, hlook⟩
      simpa using hj
    have hle := (subperm_of_subset nodup_range hsub).length_le
    have hfilter := length_filterMap_le (fun j => colors.lookup j)
      (back.filter (· ∈ g.neighbours i))
    rw [length_range] at hle
    rw [countP_eq_length_filter] at hfew
    omega

theorem Colorable.isSome_lookup {g : Graph} {k : Nat} {stack : List Nat} :
    ∀ {back : List Nat} {colors : List (Nat × Nat)}, Colorable g k back stack →
      (∀ j, (colors.lookup j).isSome → j ∈ back) →
      ∀ i, i ∈ stack ∨ (colors.lookup i).isSome →
        ((assignColors g k stack colors).lookup i).isSome := by
  induction stack with
  | nil => exact fun _ _ i hi => hi.resolve_left not_mem_nil
  | cons i stack ih =>
    intro back colors h hback j hj
    obtain ⟨c, hc⟩ := exists_color hback h.1
    have hassign : assignColors g k (i :: stack) colors =
        assignColors g k stack ((i, c) :: colors) := by
      rw [assignColors]
      simp only [hc]
    rw [hassign]
    refine ih h.2 (fun l hl => ?_) j ?_
    · rw [lookup_cons_ite] at hl
      split at hl
      · rename_i hli
        exact hli ▸ mem_cons_self
      · exact mem_cons_of_mem _ (hback l hl)
    · rw [lookup_cons_ite]
      by_cases hji : j = i
      · simp [hji]
      · simpa [hji] using hj

theorem isSome_color {g : Interference} (hs : Interference.Sound E g) {k : Nat}
    (h : Interference.Reduced k g) (costs : List (ValueId × UInt64)) {i : Nat}
    (hi : i < g.values.length) :
    ((assignColors g.graph k (selection g costs k) []).lookup (g.rep i)).isSome := by
  have hcolorable := simplifyAll_colorable hs.proper h.listed h.simplifiable
    (fun i => (costs.lookup (g.values.getD i 0)).getD 0) (simplifying_initial hs h)
  refine hcolorable.isSome_lookup (by simp) _ (.inl ?_)
  refine (perm_selection g costs k).mem_iff.2 (Interference.mem_representatives.2 ?_)
  exact ⟨hs.rep_lt i hi, hs.rep_rep i hi⟩

theorem spillSize_foldl_assign {α : Type} (id : α → ValueId) (place : α → Location) {xs : List α}
    (hplace : ∀ x ∈ xs, (place x).extent = 0) (a : Allocation) :
    (xs.foldl (fun a x => a.assign (id x) (place x)) a).spillSize = a.spillSize := by
  induction xs generalizing a with
  | nil => rfl
  | cons x xs ih =>
    obtain ⟨hx, hxs⟩ := forall_mem_cons.1 hplace
    rw [foldl_cons, ih hxs]
    change max a.spillSize (place x).extent = a.spillSize
    rw [hx, Nat.max_zero]

theorem spillSize_colorGraph {g : Interference} (hs : Interference.Sound E g) {pool : List Register}
    (h : Interference.Reduced pool.length g) (costs : List (ValueId × UInt64)) :
    (colorGraph g costs pool).spillSize = 0 := by
  refine spillSize_foldl_assign Prod.fst (fun v => placeOf pool
    (assignColors g.graph pool.length (selection g costs pool.length) []) _ (g.rep v.2)) ?_ .empty
  intro v hv
  have hlt : v.2 < g.values.length := by
    have := snd_lt_of_mem_zipIdx hv
    omega
  obtain ⟨c, hc⟩ := Option.isSome_iff_exists.1 (isSome_color hs h costs hlt)
  rw [placeOf, hc]
  rfl

end Coloring

namespace Function

/-- If every set of values has a member with fewer neighbours in the set than there are registers,
coloring puts every value in a register, whatever the costs and the copies are. -/
theorem coloring_spills_nothing {f : Function} (hf : f.IsBuilt) {pool : List Register}
    (hpool : pool.Nodup) (costs : List (ValueId × UInt64))
    (h : (Interference.build f.paramIds f.flow f.liveness).Simplifiable pool.length) :
    (Coloring.allocate f.paramIds f.flow f.liveness costs pool).spillSize = 0 ∧
      ∀ v ∈ f.definedValues, ∃ r ∈ pool,
        (Coloring.allocate f.paramIds f.flow f.liveness costs pool).location? v =
          some (.register r) := by
  have hsound := @Interference.sound_ofClashes f.clashes (f.flow.flatMap FlowBlock.moves)
  obtain ⟨hreduced, hmerged⟩ := (Interference.reduced_ofClashes h).coalesce hsound fun _ hm =>
    Interference.moves_ofClashes hm
  have hsize : (Coloring.allocate f.paramIds f.flow f.liveness costs pool).spillSize = 0 :=
    Coloring.spillSize_colorGraph hmerged hreduced costs
  refine ⟨hsize, fun v hv => ?_⟩
  have hfits := hf.wellFormed.fits_coloring hpool costs
  have hroomy : (Coloring.allocate f.paramIds f.flow f.liveness costs pool).Roomy :=
    Allocation.roomy_empty.foldl_assign _ _ _
  obtain ⟨l, hl⟩ := Option.ne_none_iff_exists'.1 ((hfits.domain v).2 hv)
  cases l with
  | register r => exact ⟨r, hfits.pool v r hl, hl⟩
  | stack n =>
    have := hroomy v n hl
    omega

end Function

/-- Makes a function that copies its first parameter, adds one, squares the sum and adds the second
parameter. -/
def Draft.squareCalls : List Draft.Call :=
  [.param .int, .param .int, .block "entry", .load 0 (.parameter 0 0 .int),
    .binop 0 .add (.temporary 2 .int) (.constant 1 .int),
    .binop 0 .mul (.temporary 3 .int) (.temporary 3 .int),
    .binop 0 .add (.temporary 4 .int) (.parameter 1 1 .int),
    .terminate 0 (.ret (some (.temporary 5 .int)))]

/-- A function with a copy. -/
def Function.square : Function := (Draft.ofCalls "square" (some .int) Draft.squareCalls).toFunction

/-- With three registers the copy is merged with its source, and the second parameter, which has three
neighbours then, still gets a register. -/
theorem Function.coloring_square :
    Function.square.IsBuilt ∧
      (Interference.build square.paramIds square.flow square.liveness).Simplifiable 3 ∧
      (square.interference 3).rep 0 = 5 ∧ (square.interference 3).graph.degree 1 = 3 ∧
      ∃ r ∈ ["rbx", "r12", "r13"], (Coloring.allocate square.paramIds square.flow square.liveness []
        ["rbx", "r12", "r13"]).location? 1 = some (.register r) := by
  have hbuilt : Function.square.IsBuilt :=
    ⟨"square", some .int, Draft.squareCalls, Draft.build_eq_ok_iff.2 ⟨by decide, rfl⟩⟩
  have hsimple : (Interference.build square.paramIds square.flow square.liveness).Simplifiable
      (["rbx", "r12", "r13"] : List Register).length := by decide
  obtain ⟨-, hreg⟩ := coloring_spills_nothing hbuilt (by decide) [] hsimple
  exact ⟨hbuilt, hsimple, by decide, by decide, hreg 1 (by decide)⟩

end SsaBackend
