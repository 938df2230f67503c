/-!
# Ascending lists

Finite sets of numbers and names as strictly ascending lists. Two such lists with the same members
are equal, so equality of sets is equality of lists, and iteration in ascending order is the list
itself.
-/

namespace SsaBackend.Ascending

variable {α : Type} [DecidableEq α] [LT α] [DecidableLT α]

def insert (x : α) : List α → List α
  | [] => [x]
  | y :: ys => if x < y then x :: y :: ys else if x = y then y :: ys else y :: insert x ys

def insertAll (s : List α) (xs : List α) : List α := xs.foldl (fun s x => insert x s) s

def ofList (xs : List α) : List α := insertAll [] xs

def erase (x : α) (s : List α) : List α := s.filter fun y => y ≠ x

@[simp] theorem mem_insert {x y : α} {s : List α} : y ∈ insert x s ↔ y = x ∨ y ∈ s := by
  induction s with
  | nil => simp [insert]
  | cons z zs ih =>
    simp only [insert]
    split
    · simp
    · split
      · simp_all
      · simp only [List.mem_cons, ih]
        exact or_left_comm

@[simp] theorem mem_insertAll {xs : List α} {y : α} {s : List α} :
    y ∈ insertAll s xs ↔ y ∈ s ∨ y ∈ xs := by
  unfold insertAll
  induction xs generalizing s with
  | nil => simp
  | cons x xs ih =>
    rw [List.foldl_cons, ih, mem_insert, List.mem_cons, or_assoc, or_left_comm]

@[simp] theorem mem_ofList {xs : List α} {y : α} : y ∈ ofList xs ↔ y ∈ xs := by
  simp [ofList]

omit [LT α] [DecidableLT α] in
@[simp] theorem mem_erase {x y : α} {s : List α} : y ∈ erase x s ↔ y ∈ s ∧ y ≠ x := by
  simp [erase]

end SsaBackend.Ascending
