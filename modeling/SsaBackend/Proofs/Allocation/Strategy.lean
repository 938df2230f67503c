import SsaBackend.Allocation.Strategy
import SsaBackend.Proofs.Allocation.Coloring
import SsaBackend.Proofs.Allocation.Intervals

/-!
# Allocation is total and respects interference

Whatever the profile and the pool, coloring places every value of a built function, and so does a
linear scan unless the pool is empty. Either way the places fit (`Allocation.Fits`): exactly the
values that the function defines are placed, registers come from the pool, and values that are
needed at once have different places.
-/

namespace SsaBackend.Strategy

theorem fits_of_allocate {s : Strategy} {f : Function} (wf : f.WellFormed) {t : Target}
    (hpool : t.allocatable.Nodup) {profile : Option Profile} {a : Allocation}
    (h : s.allocate f t profile = .ok a) : a.Fits f t.allocatable := by
  cases s with
  | linearScan =>
    unfold allocate at h
    dsimp only at h
    split at h
    · cases h
    · injection h with h
      rw [← h]
      exact wf.fits_linearScan hpool
  | graphColoring =>
    injection h with h
    rw [← h]
    exact wf.fits_coloring hpool _

end SsaBackend.Strategy
