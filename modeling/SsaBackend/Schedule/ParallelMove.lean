import SsaBackend.Schedule.Operand

/-!
# Parallel moves

Moves that happen at once have to be put in an order in which no source is overwritten before it is
read. A move can go first when nobody reads its destination any more. When every destination is
still to be read only cycles are left, and saving one destination in a scratch operand opens a
cycle.
-/

namespace SsaBackend

structure Move where
  dst : Operand
  src : Operand
  deriving DecidableEq

namespace Move

def isReady (pending : List Move) (m : Move) : Bool := pending.all fun p => p.src ≠ m.dst

def redirect (saved scratch : Operand) (m : Move) : Move :=
  if m.src = saved then { m with src := scratch } else m

theorem exists_src_of_not_isReady {pending : List Move} {m : Move}
    (h : m.isReady pending = false) : ∃ p ∈ pending, p.src = m.dst := by
  simpa [isReady] using h

def avoids (scratch : Operand) (m : Move) : Bool := m.src ≠ scratch

theorem avoids_of_avoids_redirect {saved scratch : Operand} (hne : saved ≠ scratch) (m : Move)
    (h : avoids scratch (redirect saved scratch m) = true) : avoids scratch m = true := by
  by_cases hm : m.src = saved
  · simpa [avoids, hm] using hne
  · simpa [avoids, redirect, hm] using h

theorem countP_map_redirect_lt {saved scratch : Operand} (hne : saved ≠ scratch)
    {pending : List Move} (h : ∃ p ∈ pending, p.src = saved) :
    (pending.map (redirect saved scratch)).countP (avoids scratch) <
      pending.countP (avoids scratch) := by
  obtain ⟨p, hp, hsrc⟩ := h
  obtain ⟨before, behind, rfl⟩ := List.append_of_mem hp
  have hbefore := List.countP_mono_left (l := before)
    fun q _ => avoids_of_avoids_redirect hne q
  have hbehind := List.countP_mono_left (l := behind)
    fun q _ => avoids_of_avoids_redirect hne q
  have hold : avoids scratch p = true := by simpa [avoids, hsrc] using hne
  have hnew : avoids scratch (redirect saved scratch p) = false := by
    simp [avoids, redirect, hsrc]
  simp only [List.map_append, List.map_cons, List.countP_append, List.countP_cons, hold, hnew,
    List.countP_map, Function.comp_def]
  simp only [Bool.false_eq_true, ↓reduceIte]
  omega

/-- Puts pending moves in order. A destination that is the scratch itself cannot be saved there; its
move goes as it stands. -/
def order (scratch : Operand) : List Move → List Move
  | [] => []
  | m :: rest =>
    match _h : (m :: rest).find? (isReady (m :: rest)) with
    | some r => r :: order scratch ((m :: rest).erase r)
    | none =>
      if _hs : m.dst = scratch then m :: order scratch rest
      else ⟨scratch, m.dst⟩ :: order scratch ((m :: rest).map (redirect m.dst scratch))
termination_by pending => pending.length + pending.countP (avoids scratch)
decreasing_by
  · have hmem := List.mem_of_find?_eq_some _h
    have hcount := (List.erase_sublist (a := r) (l := m :: rest)).countP_le (p := avoids scratch)
    have hpos := List.length_pos_of_mem hmem
    rw [List.length_erase_of_mem hmem]
    omega
  · rw [List.length_cons, List.countP_cons]
    omega
  · have hm := List.find?_eq_none.1 _h m List.mem_cons_self
    rw [List.length_map]
    exact Nat.add_lt_add_left
      (countP_map_redirect_lt _hs (exists_src_of_not_isReady (by simpa using hm))) _

/-- A sequence of moves with the effect of doing all of `moves` at once. Moves of an operand to
itself are left out, and `scratch` is expected to occur in none of them. -/
def sequentialize (moves : List Move) (scratch : Operand) : List Move :=
  order scratch (moves.filter fun m => m.dst ≠ m.src)

end Move

end SsaBackend
