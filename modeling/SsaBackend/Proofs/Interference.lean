import SsaBackend.Allocation
import SsaBackend.Proofs.Ir.Built
import SsaBackend.Proofs.Liveness
import Mathlib.Data.List.GetD

/-!
# Which values interfere

Two values interfere when the code could need both at once, at a moment when one of them is written:
parameters when the function starts, phis when their block starts, and results behind their
instruction. The relation is stated with paths (`Function.LiveAt`) and knows nothing of the analysis,
of intervals or of graphs; the modules on allocation show that each strategy respects it.

The second half says which ids the analysis can mention: only those that the function defines.
-/

namespace SsaBackend

open List

namespace Function

/-- The values `v` and `w` are needed at once when `v` is written. -/
inductive Interferes (f : Function) : ValueId → ValueId → Prop
  /-- Parameters arrive together. -/
  | params {v w : ValueId} : v ∈ f.paramIds → w ∈ f.paramIds → Interferes f v w
  /-- The phis of a block are written together. -/
  | phis {b : BlockId} {v w : ValueId} :
      v ∈ (f.block b).phiDefs → w ∈ (f.block b).phiDefs → Interferes f v w
  /-- A parameter arrives when the entry is about to start. -/
  | paramLive {v w : ValueId} : v ∈ f.paramIds → f.LiveAt 0 0 w → Interferes f v w
  /-- A phi is written when its block is about to start. -/
  | phiLive {b : BlockId} {v w : ValueId} :
      v ∈ (f.block b).phiDefs → f.LiveAt b 0 w → Interferes f v w
  /-- A result is written by its instruction. A copy holds the same value as its source, so the two
  may share a place. -/
  | result {b : BlockId} {k : Nat} {i : Instruction} {v w : ValueId} :
      (f.block b).instructions[k]? = some i → i.def? = some v → f.LiveAt b (k + 1) w →
      (∀ dst src, i = .load dst src → src.id? ≠ some w) → Interferes f v w

end Function

structure Allocation.Fits (a : Allocation) (f : Function) (pool : List Register) : Prop where
  domain : ∀ v, a.location? v ≠ none ↔ v ∈ f.definedValues
  pool : ∀ v r, a.location? v = some (.register r) → r ∈ pool
  apart : ∀ v w, v ≠ w → f.Interferes v w → a.location? v ≠ a.location? w

theorem getD_ne_getD {pool : List Register} (hpool : pool.Nodup) {q r : Nat}
    (hq : q < pool.length) (hr : r < pool.length) (hne : q ≠ r) :
    pool.getD q "" ≠ pool.getD r "" := by
  rw [getD_eq_getElem _ _ hq, getD_eq_getElem _ _ hr]
  exact fun heq => hne ((List.Nodup.getElem_inj_iff hpool).1 heq)

namespace Function

variable {f : Function}
variable {k : Nat}

/-! ### Blocks by their ids -/

variable {b : BlockId}

theorem block_mem (hb : b < f.blocks.length) : f.block b ∈ f.blocks := by
  simp [block, hb]

theorem exists_block_eq {blk : Block} (h : blk ∈ f.blocks) :
    ∃ b < f.blocks.length, f.block b = blk := by
  obtain ⟨b, hb, rfl⟩ := mem_iff_getElem.1 h
  exact ⟨b, hb, by simp [block, hb]⟩

theorem block_eq_default (hb : f.blocks.length ≤ b) : f.block b = default := by
  simp [block, getElem?_eq_none hb]

theorem lt_length_of_mem_phis {phi : Phi} (h : phi ∈ (f.block b).phis) : b < f.blocks.length := by
  refine Nat.lt_of_not_le fun hle => ?_
  rw [block_eq_default hle] at h
  cases h

variable {v : ValueId}

theorem lt_length_of_mem_phiDefs (h : v ∈ (f.block b).phiDefs) : b < f.blocks.length := by
  obtain ⟨phi, hphi, -⟩ := mem_filterMap.1 h
  exact lt_length_of_mem_phis hphi

theorem lt_length_of_getElem? {i : Instruction} (h : (f.block b).instructions[k]? = some i) :
    b < f.blocks.length := by
  refine Nat.lt_of_not_le fun hle => ?_
  rw [block_eq_default hle] at h
  cases h

theorem lt_length_of_mem_succs {s : BlockId} (h : s ∈ (f.block b).succs) : b < f.blocks.length := by
  refine Nat.lt_of_not_le fun hle => ?_
  rw [block_eq_default hle] at h
  cases h

theorem WellFormed.succ_lt (wf : f.WellFormed) {s : BlockId} (h : s ∈ (f.block b).succs) :
    s < f.blocks.length :=
  wf.targets _ (block_mem (lt_length_of_mem_succs h)) s h

theorem WellFormed.mem_liveBefore (wf : f.WellFormed) (h : f.LiveAt b k v) : v ∈ f.liveBefore b k :=
  h.mem_liveBefore fun _ _ hs => wf.succ_lt hs

/-! ### Defined ids -/

theorem mem_definedValues : v ∈ f.definedValues ↔ v ∈ f.paramIds ∨ (∃ b, v ∈ (f.block b).phiDefs) ∨
      ∃ b, ∃ k : Nat, ∃ i, (f.block b).instructions[k]? = some i ∧ i.def? = some v := by
  unfold definedValues
  rw [mem_append, mem_flatMap]
  refine or_congr_right ?_
  constructor
  · rintro ⟨blk, hblk, hv⟩
    obtain ⟨b, -, rfl⟩ := exists_block_eq hblk
    rcases mem_append.1 hv with hv | hv
    · exact .inl ⟨b, hv⟩
    · obtain ⟨i, hi, hdef⟩ := mem_filterMap.1 hv
      obtain ⟨k, hk⟩ := mem_iff_getElem?.1 hi
      exact .inr ⟨b, k, i, hk, hdef⟩
  · rintro (⟨b, hv⟩ | ⟨b, k, i, hi, hdef⟩)
    · exact ⟨_, block_mem (lt_length_of_mem_phiDefs hv), mem_append_left _ hv⟩
    · refine ⟨_, block_mem (lt_length_of_getElem? hi), mem_append_right _ ?_⟩
      exact mem_filterMap.2 ⟨i, mem_of_getElem? hi, hdef⟩

theorem WellFormed.nodup_phiDefs (wf : f.WellFormed) (b : BlockId) :
    (f.block b).phiDefs.Nodup := by
  by_cases hb : b < f.blocks.length
  · have hdefs := (nodup_append.1 wf.nodup).2.1
    exact (nodup_append.1 ((nodup_flatMap.1 hdefs).1 _ (block_mem hb))).1
  · rw [block_eq_default (Nat.le_of_not_lt hb)]
    exact .nil

theorem WellFormed.nodup_paramIds (wf : f.WellFormed) : f.paramIds.Nodup :=
  (nodup_append.1 wf.nodup).1

theorem mem_uses_of_mem_nodes {b : Block} {n : FlowNode} (hn : n ∈ b.nodes)
    (hv : v ∈ n.uses) : v ∈ b.uses := by
  unfold Block.uses
  rcases mem_append.1 hn with hn | hn
  · obtain ⟨i, hi, rfl⟩ := mem_map.1 hn
    exact mem_append_left _ (mem_append_right _ (mem_flatMap.2 ⟨i, hi, hv⟩))
  · obtain rfl := mem_singleton.1 hn
    exact mem_append_right _ hv

theorem mem_uses_of_source? {phi : Phi} {p : BlockId} {src : Value}
    (h : phi.source? p = some src) (hv : src.id? = some v) : v ∈ phi.uses := by
  obtain ⟨s, hs, rfl⟩ := Option.map_eq_some_iff.1 h
  exact mem_filterMap.2 ⟨s, mem_of_find?_eq_some hs, hv⟩

theorem WellFormed.mem_definedValues_of_reads (wf : f.WellFormed)
    (h : v ∈ Liveness.allReads f.flow) : v ∈ f.definedValues := by
  obtain ⟨fb, hfb, hv⟩ := mem_flatMap.1 (Ascending.mem_ofList.1 h)
  obtain ⟨b, hb, rfl⟩ := mem_map.1 hfb
  have hlt : b < f.blocks.length := mem_range.1 hb
  rcases mem_append.1 hv with hv | hv
  · obtain ⟨n, hn, hv⟩ := mem_flatMap.1 hv
    exact wf.defined _ (block_mem hlt) v (mem_uses_of_mem_nodes hn hv)
  · obtain ⟨s, hs, hv⟩ := mem_flatMap.1 hv
    obtain ⟨phi, hphi, hv⟩ := mem_filterMap.1 hv
    obtain ⟨src, hsrc, hid⟩ := Option.bind_eq_some_iff.1 hv
    refine wf.defined _ (block_mem (wf.succ_lt hs)) v ?_
    refine mem_append_left _ (mem_append_left _ ?_)
    exact mem_flatMap.2 ⟨phi, hphi, mem_uses_of_source? hsrc hid⟩

theorem length_liveIn (f : Function) : f.liveness.liveIn.length = f.blocks.length := by
  refine (Liveness.step_analyze f.flow).2.length.trans ?_
  simp [flow, blockIds]

theorem WellFormed.liveIn_subset (wf : f.WellFormed) (b : BlockId) :
    f.liveness.liveIn.getD b [] ⊆ f.definedValues := by
  intro v hv
  rw [getD_eq_getElem?_getD] at hv
  cases hget : f.liveness.liveIn[b]? with
  | none => simp [hget] at hv
  | some s =>
    refine wf.mem_definedValues_of_reads
      ((Liveness.step_analyze f.flow).2.read s (mem_of_getElem? hget) ?_)
    simpa [hget] using hv

theorem WellFormed.liveOut_subset (wf : f.WellFormed) (hb : b < f.blocks.length) :
    f.liveOut b ⊆ f.definedValues := by
  intro v hv
  rcases FlowBlock.mem_liveOut.1 hv with hv | ⟨s, -, hv⟩
  · refine wf.mem_definedValues_of_reads (Ascending.mem_ofList.2 ?_)
    exact mem_flatMap.2
      ⟨_, mem_of_getElem? (getElem?_flow hb), mem_append_right _ hv⟩
  · exact wf.liveIn_subset s hv

theorem WellFormed.liveBefore_subset (wf : f.WellFormed)
    (hb : b < f.blocks.length) (k : Nat) : f.liveBefore b k ⊆ f.definedValues := by
  intro v hv
  rcases FlowNode.mem_uses_of_mem_foldr hv with hv | hv
  · obtain ⟨n, hn, hv⟩ := mem_flatMap.1 hv
    exact wf.defined _ (block_mem hb) v (mem_uses_of_mem_nodes (mem_of_mem_drop hn) hv)
  · exact wf.liveOut_subset hb hv

theorem LiveAt.lt_length (h : f.LiveAt b k v) : b < f.blocks.length := by
  refine Nat.lt_of_not_le fun hle => ?_
  have hblock := block_eq_default hle
  cases h with
  | read hi | pass hi =>
    rw [hblock] at hi
    cases hi
  | terminator hv =>
    rw [hblock] at hv
    cases hv
  | phi hs | successor hs =>
    rw [hblock] at hs
    cases hs

theorem WellFormed.mem_definedValues_of_liveAt (wf : f.WellFormed) (h : f.LiveAt b k v) :
    v ∈ f.definedValues :=
  wf.liveBefore_subset h.lt_length k (wf.mem_liveBefore h)

theorem WellFormed.mem_definedValues_of_interferes (wf : f.WellFormed) {w : ValueId}
    (h : f.Interferes v w) : v ∈ f.definedValues ∧ w ∈ f.definedValues := by
  have hparam : ∀ {u}, u ∈ f.paramIds → u ∈ f.definedValues := fun hu =>
    mem_definedValues.2 (.inl hu)
  have hphi : ∀ {b u}, u ∈ (f.block b).phiDefs → u ∈ f.definedValues := fun hu =>
    mem_definedValues.2 (.inr (.inl ⟨_, hu⟩))
  cases h with
  | params hv hw => exact ⟨hparam hv, hparam hw⟩
  | phis hv hw => exact ⟨hphi hv, hphi hw⟩
  | paramLive hv hw => exact ⟨hparam hv, wf.mem_definedValues_of_liveAt hw⟩
  | phiLive hv hw => exact ⟨hphi hv, wf.mem_definedValues_of_liveAt hw⟩
  | result hi hv hw _ =>
    exact ⟨mem_definedValues.2 (.inr (.inr ⟨_, _, _, hi, hv⟩)),
      wf.mem_definedValues_of_liveAt hw⟩

end Function

end SsaBackend
