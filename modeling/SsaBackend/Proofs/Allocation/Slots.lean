import SsaBackend.Allocation.Strategy
import SsaBackend.Proofs.Allocation.LinearScan

/-!
# The spill area has room for every slot

Placing a value grows the spill area where that is needed and never shrinks it, so whatever the order
in which a strategy places values, all of their slots lie in the spill area
(`Strategy.roomy_of_allocate`). A linear scan makes no more slots than it has intervals to place
(`LinearScan.spillSize_allocate_le`).
-/

namespace SsaBackend

namespace Allocation

variable {a : Allocation}

def Roomy (a : Allocation) : Prop := ∀ v n, a.location? v = some (.stack n) → n + 8 ≤ a.spillSize

theorem roomy_empty : empty.Roomy := by
  intro v n h
  cases h

theorem Roomy.assign (h : a.Roomy) (v : ValueId) (l : Location) : (a.assign v l).Roomy := by
  intro w n hw
  rw [location?_assign] at hw
  split at hw
  · cases hw
    exact Nat.le_max_right _ _
  · exact Nat.le_trans (h w n hw) (Nat.le_max_left _ _)

theorem Roomy.foldl_assign {α : Type} (h : a.Roomy) (id : α → ValueId) (place : α → Location)
    (xs : List α) : (xs.foldl (fun a x => a.assign (id x) (place x)) a).Roomy := by
  induction xs generalizing a with
  | nil => exact h
  | cons x xs ih => exact ih (h.assign _ _)

/-- The spill area consists of whole words, and slots are such words. -/
structure Worded (a : Allocation) : Prop where
  size : a.spillSize % 8 = 0
  slot : ∀ v n, a.location? v = some (.stack n) → n % 8 = 0

theorem worded_empty : empty.Worded := ⟨rfl, fun _ _ h => nomatch h⟩

theorem Worded.assign (h : a.Worded) (v : ValueId) {l : Location} (hl : l.extent % 8 = 0) :
    (a.assign v l).Worded where
  size := by
    have hsize := h.size
    simp only [Allocation.assign]
    omega
  slot w n hw := by
    rw [location?_assign] at hw
    split at hw
    · cases hw
      simp only [Location.extent] at hl
      omega
    · exact h.slot w n hw

theorem Worded.foldl_assign {α : Type} (h : a.Worded) (id : α → ValueId) {place : α → Location}
    (hplace : ∀ x, (place x).extent % 8 = 0) (xs : List α) :
    (xs.foldl (fun a x => a.assign (id x) (place x)) a).Worded := by
  induction xs generalizing a with
  | nil => exact h
  | cons x xs ih => exact ih (h.assign _ (hplace x))

theorem mem_registers {v : ValueId} {r : Register} (h : a.location? v = some (.register r)) :
    r ∈ a.registers := by
  rw [registers, Ascending.mem_ofList, List.mem_filterMap]
  obtain ⟨front, back, hentries, -⟩ := List.lookup_eq_some_iff.1 h
  exact ⟨(v, .register r), by simp [hentries], rfl⟩

end Allocation

namespace LinearScan

variable {pool : List Register} {s : State}

/-- A scan only ever places values in registers and in the first word after the spill area. -/
theorem allocate_induct {P : Allocation → Prop} (hempty : P .empty)
    (hregister : ∀ a v r, P a → P (a.assign v (.register r)))
    (hspill : ∀ a v, P a → P (a.assign v a.spillSlot)) (pool : List Register) (is : List Interval) :
    P (allocate pool is) := by
  have hplace : ∀ (s : State) i, P s.allocation → P (place pool s i).allocation := by
    intro s i h
    rcases place_cases pool s i with ⟨_, _, -, heq⟩ | ⟨_, _, _, -, -, -, heq⟩ | ⟨-, -, heq⟩
    · exact heq ▸ hregister _ _ _ h
    · exact heq ▸ hregister _ _ _ (hspill _ _ h)
    · exact heq ▸ hspill _ _ h
  exact List.foldlRecOn is (place pool) hempty fun s h i _ => hplace s i h

theorem spillSize_place_le (pool : List Register) (s : State) (i : Interval) :
    (place pool s i).allocation.spillSize ≤ s.allocation.spillSize + 8 := by
  have hgive : ∀ (s : State) r, (give pool s i r).allocation.spillSize = s.allocation.spillSize :=
    fun s _ => Nat.max_zero s.allocation.spillSize
  have hspill : ∀ (s : State) v, (spill s v).allocation.spillSize = s.allocation.spillSize + 8 :=
    fun s _ => Nat.max_eq_right (Nat.le_add_right s.allocation.spillSize 8)
  rcases place_cases pool s i with ⟨_, _, -, heq⟩ | ⟨_, _, _, -, -, -, heq⟩ | ⟨-, -, heq⟩
  · rw [heq, hgive]
    exact Nat.le_add_right s.allocation.spillSize 8
  · rw [heq, hgive]
    exact Nat.le_of_eq (hspill _ _)
  · rw [heq]
    exact Nat.le_of_eq (hspill _ _)

theorem spillSize_allocate_le (pool : List Register) (is : List Interval) :
    (allocate pool is).spillSize ≤ 8 * is.length := by
  have hfold : ∀ s : State, (is.foldl (place pool) s).allocation.spillSize ≤
      s.allocation.spillSize + 8 * is.length := by
    induction is with
    | nil => exact fun s => Nat.le_add_right _ _
    | cons i is ih =>
      intro s
      have := spillSize_place_le pool s i
      have := ih (place pool s i)
      rw [List.foldl_cons, List.length_cons]
      omega
  have := hfold (.initial pool)
  rwa [show (State.initial pool).allocation.spillSize = 0 from rfl, Nat.zero_add] at this

end LinearScan

namespace Strategy

variable {s : Strategy} {f : Function} {t : Target} {profile : Option Profile} {a : Allocation}

theorem roomy_of_allocate (h : s.allocate f t profile = .ok a) : a.Roomy := by
  cases s with
  | linearScan =>
    unfold allocate at h
    dsimp only at h
    split at h
    · cases h
    · cases h
      exact LinearScan.allocate_induct Allocation.roomy_empty (fun _ _ _ h => h.assign _ _)
        (fun _ _ h => h.assign _ _) _ _
  | graphColoring =>
    cases h
    exact Allocation.roomy_empty.foldl_assign _ _ _

theorem worded_of_allocate (h : s.allocate f t profile = .ok a) : a.Worded := by
  cases s with
  | linearScan =>
    unfold allocate at h
    dsimp only at h
    split at h
    · cases h
    · cases h
      refine LinearScan.allocate_induct Allocation.worded_empty (fun _ _ _ h => h.assign _ rfl)
        (fun a _ h => h.assign _ ?_) _ _
      exact (Nat.add_mod_right a.spillSize 8).trans h.size
  | graphColoring =>
    cases h
    refine Allocation.worded_empty.foldl_assign _ (fun x => ?_) _
    split
    · rfl
    · simp only [Location.extent]
      omega

end Strategy

end SsaBackend
