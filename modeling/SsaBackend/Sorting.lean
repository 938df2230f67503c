/-!
# Stable sorting

Sorting by repeated insertion. Elements that are equally good stay in the order in which they were
given.
-/

namespace SsaBackend

variable {α : Type}

def insertSorted (le : α → α → Bool) (x : α) : List α → List α
  | [] => [x]
  | y :: ys => if le x y then x :: y :: ys else y :: insertSorted le x ys

def sortBy (le : α → α → Bool) : List α → List α
  | [] => []
  | x :: xs => insertSorted le x (sortBy le xs)

theorem perm_insertSorted (le : α → α → Bool) (x : α) (xs : List α) :
    (insertSorted le x xs).Perm (x :: xs) := by
  induction xs with
  | nil => exact .refl _
  | cons y ys ih =>
    simp only [insertSorted]
    split
    · exact .refl _
    · exact (ih.cons y).trans (.swap x y ys)

theorem perm_sortBy (le : α → α → Bool) (xs : List α) : (sortBy le xs).Perm xs := by
  induction xs with
  | nil => exact .refl _
  | cons x xs ih => exact (perm_insertSorted le x _).trans (ih.cons x)

@[simp] theorem mem_sortBy {le : α → α → Bool} {xs : List α} {x : α} :
    x ∈ sortBy le xs ↔ x ∈ xs :=
  (perm_sortBy le xs).mem_iff

/-- Inserting into a sorted list keeps it sorted. Equally good elements stay in the order `r`, if what
is inserted comes before all else in that order. -/
theorem pairwise_insertSorted {le : α → α → Bool} (total : ∀ a b, le a b = true ∨ le b a = true)
    (trans : ∀ a b c, le a b = true → le b c = true → le a c = true) {r : α → α → Prop} {x : α}
    {xs : List α} (hx : ∀ y ∈ xs, r x y)
    (h : xs.Pairwise fun a b => le a b = true ∧ (le b a = true → r a b)) :
    (insertSorted le x xs).Pairwise fun a b => le a b = true ∧ (le b a = true → r a b) := by
  induction xs with
  | nil => exact List.pairwise_singleton _ _
  | cons y ys ih =>
    obtain ⟨hy, hys⟩ := List.pairwise_cons.1 h
    simp only [insertSorted]
    split
    · rename_i hxy
      refine List.pairwise_cons.2 ⟨fun z hz => ⟨?_, fun _ => hx z hz⟩, h⟩
      rcases List.mem_cons.1 hz with rfl | hz
      · exact hxy
      · exact trans x y z hxy (hy z hz).1
    · rename_i hxy
      refine List.pairwise_cons.2 ⟨fun z hz => ?_,
        ih (fun z hz => hx z (List.mem_cons_of_mem _ hz)) hys⟩
      rcases List.mem_cons.1 ((perm_insertSorted le x ys).mem_iff.1 hz) with rfl | hz
      · exact ⟨(total z y).resolve_left hxy, fun hzy => absurd hzy hxy⟩
      · exact hy z hz

theorem stable_sortBy {le : α → α → Bool} (total : ∀ a b, le a b = true ∨ le b a = true)
    (trans : ∀ a b c, le a b = true → le b c = true → le a c = true) {r : α → α → Prop} {xs : List α}
    (h : xs.Pairwise r) :
    (sortBy le xs).Pairwise fun a b => le a b = true ∧ (le b a = true → r a b) := by
  induction xs with
  | nil => exact .nil
  | cons x xs ih =>
    obtain ⟨hx, hxs⟩ := List.pairwise_cons.1 h
    exact pairwise_insertSorted total trans (fun y hy => hx y (mem_sortBy.1 hy)) (ih hxs)

theorem pairwise_sortBy {le : α → α → Bool} (total : ∀ a b, le a b = true ∨ le b a = true)
    (trans : ∀ a b c, le a b = true → le b c = true → le a c = true) (xs : List α) :
    (sortBy le xs).Pairwise fun a b => le a b = true :=
  (stable_sortBy total trans (r := fun _ _ => True) (List.pairwise_of_forall fun _ _ => trivial)).imp
    And.left

end SsaBackend
