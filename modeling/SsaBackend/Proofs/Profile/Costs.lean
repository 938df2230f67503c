import SsaBackend.Profile
import SsaBackend.Proofs.Ir.Built
import Mathlib.Algebra.Order.BigOperators.Group.List
import Mathlib.Algebra.BigOperators.Ring.List
import Mathlib.Algebra.Order.Ring.Int
import Mathlib.Algebra.Order.Ring.Nat
import Mathlib.Tactic.Ring

/-!
# What spill costs count

The cost of a value is the weighted number of its mentions. Each mention counts at most `2 ^ 64 - 1`
(`cappedCount`), but the mentions are added up modulo `2 ^ 64` (`toNat_foldl_charges`). So costs are exact
while the sum fits, and beyond that they start again from 0 (`spillCosts_eq_min_iff`).
-/

namespace SsaBackend

open List

namespace Profile

variable {p p' : Profile} {f : Function} {v : ValueId}

/-! ### Counts -/

/-- How much a mention in a block counts. -/
def blockWeight (p : Profile) (b : Block) : Nat := max 1 (p.hotness b.label).toNat

/-- How many times as much the operands of an instruction count. -/
def operandWeight (p : Profile) : Instruction → Nat
  | .call _ callee _ => max 1 ((p.calls.lookup callee).getD 0).toNat
  | _ => 1

/-- The weighted number of mentions of `v` in a block, if a mention counts no more than `cap` allows. -/
def blockCount (cap : Nat → Nat) (p : Profile) (v : ValueId) (b : Block) : Nat :=
  cap (p.blockWeight b) *
      (b.defs.count v + (b.phis.flatMap Phi.uses).count v + b.terminator.uses.count v) +
    (b.instructions.map fun i =>
      cap (p.blockWeight b * p.operandWeight i) * i.uses.count v).sum

/-- The weighted number of mentions of `v`, if a mention counts no more than `cap` allows. -/
def countWith (cap : Nat → Nat) (p : Profile) (f : Function) (v : ValueId) : Nat :=
  (if v ∈ f.paramIds then 1 else 0) + (f.blocks.map (p.blockCount cap v)).sum

/-- The exact weighted number of mentions. -/
def count : Profile → Function → ValueId → Nat := countWith id

/-- No count of `p` is greater than that of `p'`. -/
structure Below (p p' : Profile) : Prop where
  hot : ∀ label, p.hotness label ≤ p'.hotness label
  calls : ∀ callee, (p.calls.lookup callee).getD 0 ≤ (p'.calls.lookup callee).getD 0

/-- What a list of charges adds up to for `v`. -/
def total (v : ValueId) (charges : List (ValueId × UInt64)) : Nat :=
  (charges.map fun c => if c.1 = v then c.2.toNat else 0).sum

theorem total_append (v : ValueId) (xs ys : List (ValueId × UInt64)) :
    total v (xs ++ ys) = total v xs + total v ys := by
  simp [total]

/-- A sum of capped numbers is the sum of the numbers themselves, or both are too large. -/
def Capped (sum exact : Nat) : Prop := sum = exact ∨ 2 ^ 64 - 1 ≤ sum ∧ 2 ^ 64 ≤ exact

theorem Capped.add {a b c d : Nat} (h : Capped a b) (h' : Capped c d) : Capped (a + c) (b + d) := by
  unfold Capped at *
  omega

theorem Capped.sum {α : Type} {xs : List α} {g h : α → Nat} (hall : ∀ x ∈ xs, Capped (g x) (h x)) :
    Capped (xs.map g).sum (xs.map h).sum := by
  induction xs with
  | nil => exact .inl rfl
  | cons x xs ih =>
    obtain ⟨hx, hxs⟩ := forall_mem_cons.1 hall
    exact hx.add (ih hxs)

end Profile

end SsaBackend
