import SsaBackend.Compile
import SsaBackend.Proofs.Interference
import Mathlib.Data.List.Perm.Subperm

/-!
# The rule that layouts follow

A layout of a well-formed function lists each of its blocks once and starts with the entry, whatever a
profile counted: a block goes next only if it was not placed before, and as long as a block is left
there is one to go next (`perm_layout`).

A layout is a run of choices (`next?_of_layoutFrom`). Each choice is the true successor of a branch that
is probably taken, or else the hottest block that is left, and of equally hot ones the first
(`of_next?_hottestFirst`). So the same holds at every position of a layout (`layout_greedy`).
-/

namespace SsaBackend.Profile

open List

variable {p : Profile} {f : Function} {placed : List BlockId} {last b : BlockId}

/-- The branch at the end of `last` is taken more often than not, and then goes to `b`. -/
def Leads (p : Profile) (f : Function) (last b : BlockId) : Prop :=
  ∃ cond onFalse weight, (f.block last).terminator = .condBranch cond b onFalse ∧
    p.weights.lookup (f.label last) = some weight ∧ weight > 0.5

/-- The hottest of the blocks that are not placed, and the first of those. -/
structure Hottest (p : Profile) (f : Function) (placed : List BlockId) (b : BlockId) : Prop where
  lt : b < f.blocks.length
  fresh : b ∉ placed
  best : ∀ c < f.blocks.length, c ∉ placed → c ≠ b →
    p.hotness (f.label c) < p.hotness (f.label b) ∨
      p.hotness (f.label c) = p.hotness (f.label b) ∧ b < c

theorem likely?_eq_some_iff : p.likely? f last = some b ↔ p.Leads f last b := by
  unfold likely? Leads isLikely
  split
  · next cond onTrue onFalse hterm =>
    simp only [Option.ite_none_right_eq_some, Option.any_eq_true, decide_eq_true_eq,
      Option.some.injEq, hterm, Terminator.condBranch.injEq]
    constructor
    · rintro ⟨⟨weight, hweight⟩, rfl⟩
      exact ⟨cond, onFalse, weight, ⟨rfl, rfl, rfl⟩, hweight⟩
    · rintro ⟨_, _, weight, ⟨-, rfl, -⟩, hweight⟩
      exact ⟨⟨weight, hweight⟩, rfl⟩
  · next hterm =>
    refine iff_of_false (by simp) ?_
    rintro ⟨cond, onFalse, -, hcond, -⟩
    exact hterm cond b onFalse hcond

/-! ### Layouts are permutations -/

theorem mem_succs_of_likely? (h : p.likely? f last = some b) : b ∈ (f.block last).succs := by
  obtain ⟨cond, onFalse, -, hterm, -⟩ := likely?_eq_some_iff.1 h
  rw [Block.succs, hterm, Terminator.successors]
  split <;> simp

theorem of_next? {hottest : List BlockId} (h : p.next? f hottest placed last = some b) :
    b ∉ placed ∧ (b ∈ (f.block last).succs ∨ b ∈ hottest) := by
  rw [next?, Option.or_eq_some_iff] at h
  rcases h with h | ⟨-, h⟩
  · obtain ⟨hlikely, hfresh⟩ := Option.filter_eq_some_iff.1 h
    exact ⟨by simpa using hfresh, .inl (mem_succs_of_likely? hlikely)⟩
  · exact ⟨by simpa using find?_some h, .inr (mem_of_find?_eq_some h)⟩

theorem mem_placed_of_next? {hottest : List BlockId} (h : p.next? f hottest placed last = none)
    (hb : b ∈ hottest) : b ∈ placed := by
  rw [next?, Option.or_eq_none_iff] at h
  simpa using find?_eq_none.1 h.2 b hb

theorem mem_hottestFirst : b ∈ p.hottestFirst f ↔ b ≠ 0 ∧ b < f.blocks.length := by
  rw [hottestFirst, mem_sortBy, Function.blockIds]
  cases f.blocks.length with
  | zero => simp
  | succ n =>
    rw [range_succ_eq_map, drop_one, tail_cons, mem_map]
    constructor
    · rintro ⟨i, hi, rfl⟩
      exact ⟨Nat.succ_ne_zero i, Nat.succ_lt_succ (mem_range.1 hi)⟩
    · rintro ⟨hne, hlt⟩
      obtain ⟨i, rfl⟩ := Nat.exists_eq_succ_of_ne_zero hne
      exact ⟨i, mem_range.2 (Nat.lt_of_succ_lt_succ hlt), rfl⟩

theorem perm_blockIds (hnodup : placed.Nodup) (hlt : ∀ b ∈ placed, b < f.blocks.length)
    (hlen : placed.length = f.blocks.length) : placed.Perm f.blockIds := by
  refine (subperm_of_subset hnodup fun b hb => mem_range.2 (hlt b hb)).perm_of_length_le ?_
  rw [hlen]
  exact length_range.le

theorem perm_append_layoutFrom (wf : f.WellFormed) (n : Nat) :
    ∀ {placed : List BlockId} {last : BlockId}, placed.Nodup → (∀ b ∈ placed, b < f.blocks.length) →
      0 ∈ placed → placed.length + n = f.blocks.length →
      (placed ++ p.layoutFrom f (p.hottestFirst f) n placed last).Perm f.blockIds := by
  induction n with
  | zero =>
    intro placed last hnodup hlt _ hlen
    rw [layoutFrom, append_nil]
    exact perm_blockIds hnodup hlt hlen
  | succ n ih =>
    intro placed last hnodup hlt hentry hlen
    cases hnext : p.next? f (p.hottestFirst f) placed last with
    | none =>
      -- then every block is placed, and there are too many of them
      have hall : f.blockIds ⊆ placed := by
        intro b hb
        by_cases h0 : b = 0
        · exact h0 ▸ hentry
        · exact mem_placed_of_next? hnext (mem_hottestFirst.2 ⟨h0, mem_range.1 hb⟩)
      have hle := (subperm_of_subset nodup_range hall).length_le
      rw [length_range] at hle
      omega
    | some b =>
      obtain ⟨hfresh, hwhere⟩ := of_next? hnext
      have hb : b < f.blocks.length := hwhere.elim wf.succ_lt fun h => (mem_hottestFirst.1 h).2
      rw [layoutFrom, hnext]
      refine perm_middle.trans (ih (nodup_cons.2 ⟨hfresh, hnodup⟩) ?_
        (mem_cons_of_mem _ hentry) ?_)
      · exact forall_mem_cons.2 ⟨hb, hlt⟩
      · rw [length_cons]
        omega

theorem perm_layout (wf : f.WellFormed) : (p.layout f).Perm f.blockIds := by
  have hentry := wf.hasEntry
  refine perm_append_layoutFrom wf (f.blocks.length - 1) (nodup_singleton 0)
    ?_ mem_cons_self ?_
  · simpa using hentry
  · rw [length_singleton]
    omega

/-! ### Choices -/

theorem pairwise_hottestFirst (p : Profile) (f : Function) :
    (p.hottestFirst f).Pairwise fun a b => p.hotness (f.label b) ≤ p.hotness (f.label a) ∧
      (p.hotness (f.label a) ≤ p.hotness (f.label b) → a < b) := by
  have htotal : ∀ a b : BlockId, decide (p.hotness (f.label b) ≤ p.hotness (f.label a)) = true ∨
      decide (p.hotness (f.label a) ≤ p.hotness (f.label b)) = true := by
    simpa using fun a b => UInt64.le_total _ _
  have htrans : ∀ a b c : BlockId, decide (p.hotness (f.label b) ≤ p.hotness (f.label a)) = true →
      decide (p.hotness (f.label c) ≤ p.hotness (f.label b)) = true →
      decide (p.hotness (f.label c) ≤ p.hotness (f.label a)) = true := by
    simpa using fun a b c hab hbc => UInt64.le_trans hbc hab
  have hsorted := stable_sortBy htotal htrans
    ((pairwise_lt_range (n := f.blocks.length)).drop (i := 1))
  simp only [decide_eq_true_eq] at hsorted
  exact hsorted

/-- The first block of the sorted ones that is left is the hottest one that is left. -/
theorem hottest_of_find? (hentry : 0 ∈ placed)
    (h : (p.hottestFirst f).find? (fun b => !placed.contains b) = some b) : p.Hottest f placed b := by
  obtain ⟨hfresh, front, back, hsplit, hfront⟩ := find?_eq_some_iff_append.1 h
  have hmem : b ∈ p.hottestFirst f := mem_of_find?_eq_some h
  refine ⟨(mem_hottestFirst.1 hmem).2, by simpa using hfresh, fun c hc hleft hne => ?_⟩
  have hc0 : c ≠ 0 := fun h0 => hleft (h0 ▸ hentry)
  have hbehind : c ∈ back := by
    have hmem : c ∈ front ++ b :: back := hsplit ▸ mem_hottestFirst.2 ⟨hc0, hc⟩
    rcases mem_append.1 hmem with hmem | hmem
    · exact absurd (hfront c hmem) (by simpa using hleft)
    · exact (mem_cons.1 hmem).resolve_left hne
  have hsorted := p.pairwise_hottestFirst f
  rw [hsplit] at hsorted
  obtain ⟨hle, hfirst⟩ :=
    (pairwise_cons.1 (pairwise_append.1 hsorted).2.1).1 c hbehind
  rcases UInt64.lt_or_eq_of_le hle with hlt | heq
  · exact .inl hlt
  · exact .inr ⟨heq, hfirst (heq ▸ UInt64.le_refl _)⟩

theorem of_next?_hottestFirst (hentry : 0 ∈ placed)
    (h : p.next? f (p.hottestFirst f) placed last = some b) :
    (∀ c, p.Leads f last c → c ∉ placed → b = c) ∧
      ((∀ c, p.Leads f last c → c ∈ placed) → p.Hottest f placed b) := by
  rw [next?, Option.or_eq_some_iff, Option.filter_eq_some_iff, likely?_eq_some_iff,
    Option.filter_eq_none_iff] at h
  rcases h with ⟨hleads, hfresh⟩ | ⟨hnone, hfind⟩
  · refine ⟨fun c hc _ => ?_, fun hplaced => absurd (hplaced b hleads) (by simpa using hfresh)⟩
    exact Option.some.inj ((likely?_eq_some_iff.2 hleads).symm.trans (likely?_eq_some_iff.2 hc))
  · refine ⟨fun c hc hleft => ?_, fun _ => hottest_of_find? hentry hfind⟩
    exact absurd hleft (by simpa using hnone c (likely?_eq_some_iff.2 hc))

/-- Each block of a layout is a choice, after the blocks before it. -/
theorem next?_of_layoutFrom {hottest : List BlockId} {n : Nat} {front back : List BlockId}
    (h : p.layoutFrom f hottest n placed last = front ++ b :: back) :
    p.next? f hottest (front.reverse ++ placed) (front.getLastD last) = some b := by
  induction n generalizing placed last front with
  | zero => simp [layoutFrom] at h
  | succ n ih =>
    rw [layoutFrom] at h
    split at h
    · simp at h
    · next c hnext =>
      cases front with
      | nil =>
        obtain ⟨rfl, -⟩ := List.cons.inj h
        exact hnext
      | cons d front =>
        obtain ⟨rfl, hrest⟩ := List.cons.inj h
        rw [reverse_cons, append_assoc, singleton_append, getLastD_cons]
        exact ih hrest

/-- A layout of a built function lists every block once, the entry first. After a block whose branch is
probably taken comes the true successor, unless that is placed already; all else that is placed is the
hottest block left. -/
theorem layout_greedy (hf : f.IsBuilt) (p : Profile) :
    (p.layout f).Perm f.blockIds ∧ (p.layout f).head? = some 0 ∧
      ∀ front last b back, p.layout f = front ++ last :: b :: back →
        (∀ c, p.Leads f last c → c ∉ front ++ [last] → b = c) ∧
          ((∀ c, p.Leads f last c → c ∈ front ++ [last]) → p.Hottest f (front ++ [last]) b) := by
  refine ⟨perm_layout hf.wellFormed, rfl, fun front last b back h => ?_⟩
  -- the blocks before `b`, as the recursion keeps them
  obtain ⟨placed, hentry, hplaced, hnext⟩ : ∃ placed, 0 ∈ placed ∧
      (∀ c, c ∈ placed ↔ c ∈ front ++ [last]) ∧
      p.next? f (p.hottestFirst f) placed last = some b := by
    rw [layout] at h
    cases front with
    | nil =>
      obtain ⟨rfl, hrest⟩ := List.cons.inj h
      exact ⟨[0], by simp, by simp, next?_of_layoutFrom (show _ = [] ++ _ from hrest)⟩
    | cons d front =>
      obtain ⟨rfl, hrest⟩ := List.cons.inj h
      have hsplit : p.layoutFrom f (p.hottestFirst f) (f.blocks.length - 1) [0] 0 =
          (front ++ [last]) ++ b :: back := by
        rw [List.append_assoc]
        exact hrest
      have hnext := next?_of_layoutFrom hsplit
      rw [List.getLastD_concat] at hnext
      refine ⟨_, by simp, fun c => ?_, hnext⟩
      rw [List.mem_append, List.mem_reverse, List.mem_singleton, or_comm, List.cons_append, List.mem_cons]
  obtain ⟨hleads, hhottest⟩ := of_next?_hottestFirst hentry hnext
  refine ⟨fun c hc hleft => hleads c hc fun hmem => hleft ((hplaced c).1 hmem), fun hall => ?_⟩
  obtain ⟨hlt, hfresh, hbest⟩ := hhottest fun c hc => (hplaced c).2 (hall c hc)
  exact ⟨hlt, fun hmem => hfresh ((hplaced b).2 hmem),
    fun c hc hleft => hbest c hc fun hmem => hleft ((hplaced c).1 hmem)⟩

/-- The last block of the sample is hot, so it is laid out before the loop. -/
theorem layout_drain :
    Function.drain.IsBuilt ∧
      (⟨[("done", 5)], [], []⟩ : Profile).layout Function.drain = [0, 2, 1] ∧
      (⟨[("done", 5)], [], []⟩ : Profile).Hottest Function.drain [0] 2 := by
  have hlayout : (⟨[("done", 5)], [], []⟩ : Profile).layout Function.drain = [0, 2, 1] := by decide
  refine ⟨Function.isBuilt_drain, hlayout, ?_⟩
  refine ((layout_greedy Function.isBuilt_drain _).2.2 [] 0 2 [1] hlayout).2 fun c hc => ?_
  obtain ⟨_, _, _, -, hweight, -⟩ := hc
  cases hweight

end SsaBackend.Profile
