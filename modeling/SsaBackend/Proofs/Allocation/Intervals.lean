import SsaBackend.Proofs.Allocation.LinearScan

/-!
# Intervals cover lives

The interval of an id spans every position at which the id is touched. An id that is live before
instruction `k` of a block is touched no later than there, by its definition or at the start of the
block, and touched again behind, by a read or at the end of the block. So interfering ids have
intervals that overlap, and the scan keeps their places apart.
-/

namespace SsaBackend

open List

namespace LinearScan

/-! ### Spans -/

variable {ts : List (ValueId × Nat)} {v : ValueId} {p : Nat}

theorem mem_positions : p ∈ positions ts v ↔ (v, p) ∈ ts := by
  unfold positions
  rw [mem_filterMap]
  constructor
  · rintro ⟨⟨w, q⟩, hmem, h⟩
    split at h
    · rename_i hw
      cases hw
      cases h
      exact hmem
    · cases h
  · exact fun h => ⟨(v, p), h, by simp⟩

theorem span_bounds (h : (v, p) ∈ ts) : (span ts v).start ≤ p ∧ p ≤ (span ts v).stop := by
  have hmem := mem_positions.2 h
  constructor
  · cases hmin : (positions ts v).min? with
    | none => simp [min?_eq_none_iff.1 hmin] at hmem
    | some m =>
      simp only [span, hmin, Option.getD_some]
      exact (min?_eq_some_iff.1 hmin).2 p hmem
  · cases hmax : (positions ts v).max? with
    | none => simp [max?_eq_none_iff.1 hmax] at hmem
    | some m =>
      simp only [span, hmax, Option.getD_some]
      exact (max?_eq_some_iff.1 hmax).2 p hmem

def Reaches (ts : List (ValueId × Nat)) (v : ValueId) (p : Nat) : Prop :=
  (∃ q, (v, q) ∈ ts ∧ q ≤ p) ∧ ∃ q, (v, q) ∈ ts ∧ p ≤ q

theorem Reaches.of_mem (h : (v, p) ∈ ts) : Reaches ts v p :=
  ⟨⟨p, h, Nat.le_refl p⟩, ⟨p, h, Nat.le_refl p⟩⟩

theorem Reaches.overlap {w : ValueId}
    (hv : Reaches ts v p) (hw : Reaches ts w p) : Overlap (span ts v) (span ts w) := by
  obtain ⟨⟨a, ha, hap⟩, ⟨b, hb, hpb⟩⟩ := hv
  obtain ⟨⟨c, hc, hcp⟩, ⟨d, hd, hpd⟩⟩ := hw
  have := (span_bounds ha).1
  have := (span_bounds hb).2
  have := (span_bounds hc).1
  have := (span_bounds hd).2
  constructor <;> omega

/-! ### Touches by block -/

theorem mem_touchesFrom {bs : List (FlowBlock × LiveSet × LiveSet)} :
    ∀ {pos : Nat} {t : ValueId × Nat}, t ∈ touchesFrom pos bs ↔
      ∃ (i : Nat) (b : FlowBlock) (liveIn liveOut : LiveSet), bs[i]? = some (b, liveIn, liveOut) ∧
        t ∈ blockTouches (((bs.take i).map Prod.fst).foldl nextBlock pos) b liveIn liveOut := by
  induction bs with
  | nil => simp [touchesFrom]
  | cons c bs ih =>
    intro pos t
    obtain ⟨b, liveIn, liveOut⟩ := c
    rw [touchesFrom, mem_append, ih]
    constructor
    · rintro (h | ⟨i, b', liveIn', liveOut', hget, h⟩)
      · exact ⟨0, b, liveIn, liveOut, rfl, h⟩
      · exact ⟨i + 1, b', liveIn', liveOut', hget, h⟩
    · rintro ⟨i, b', liveIn', liveOut', hget, h⟩
      cases i with
      | zero =>
        cases hget
        exact .inl h
      | succ i => exact .inr ⟨i, b', liveIn', liveOut', hget, h⟩

theorem mem_blockTouches {pos : Nat} {b : FlowBlock} {liveIn liveOut : LiveSet}
    : (v, p) ∈ blockTouches pos b liveIn liveOut ↔
      ((v ∈ liveIn ∨ v ∈ b.phiDefs) ∧ p = pos) ∨
      (∃ (j : Nat) (n : FlowNode), b.nodes[j]? = some n ∧ (n.def? = some v ∨ v ∈ n.uses) ∧
        p = pos + 2 * (j + 1)) ∨
      (v ∈ liveOut ∧ p = pos + 2 * b.nodes.length + 1) := by
  unfold blockTouches
  rw [mem_append, mem_append, or_assoc]
  refine or_congr ?_ (or_congr ?_ ?_)
  · simp [eq_comm, or_and_right]
  · simp only [mem_flatMap, mem_map, mem_append, Option.mem_toList,
      Prod.exists, mem_zipIdx_iff_getElem?, Prod.mk.injEq]
    constructor
    · rintro ⟨n, j, hget, w, hw, rfl, rfl⟩
      exact ⟨j, n, hget, hw, rfl⟩
    · rintro ⟨j, n, hget, hv, rfl⟩
      exact ⟨n, j, hget, v, hv, rfl, rfl⟩
  · simp [eq_comm]

end LinearScan

namespace Function

open LinearScan

variable {f : Function}

def touches (f : Function) : List (ValueId × Nat) :=
  LinearScan.touches f.paramIds f.flow f.liveness

def startOf (f : Function) (b : BlockId) : Nat := (f.flow.take b).foldl nextBlock 0

variable {b : BlockId}

theorem getElem?_zip_live (hb : b < f.blocks.length) :
    (f.flow.zip (f.liveness.liveIn.zip f.liveness.liveOut))[b]? =
      some (f.flowBlock b, f.liveness.liveIn.getD b [], f.liveOut b) := by
  have hin : f.liveness.liveIn[b]? = some (f.liveness.liveIn.getD b []) := by
    simp [f.length_liveIn, hb]
  have hout : f.liveness.liveOut[b]? = some (f.liveOut b) := by
    change (f.flow.map _)[b]? = _
    rw [getElem?_map, getElem?_flow hb]
    rfl
  rw [getElem?_zip_eq_some]
  refine ⟨getElem?_flow hb, ?_⟩
  rw [getElem?_zip_eq_some]
  exact ⟨hin, hout⟩

theorem map_fst_take_zip_live (f : Function) (b : BlockId) :
    ((f.flow.zip (f.liveness.liveIn.zip f.liveness.liveOut)).take b).map Prod.fst =
      f.flow.take b := by
  rw [map_take, map_fst_zip]
  have hin : f.liveness.liveIn.length = f.flow.length := (Liveness.step_analyze f.flow).2.length
  have hout : f.liveness.liveOut.length = f.flow.length := length_map _
  simp [hin, hout]

theorem mem_touches {t : ValueId × Nat} :
    t ∈ f.touches ↔ (t.1 ∈ f.paramIds ∧ t.2 = 0) ∨ ∃ b < f.blocks.length,
      t ∈ blockTouches (f.startOf b) (f.flowBlock b) (f.liveness.liveIn.getD b [])
        (f.liveOut b) := by
  unfold touches LinearScan.touches
  rw [mem_append, mem_touchesFrom]
  refine or_congr ?_ ?_
  · obtain ⟨v, p⟩ := t
    simp [eq_comm]
  · simp only [map_fst_take_zip_live]
    constructor
    · rintro ⟨b, fb, liveIn, liveOut, hget, h⟩
      have hb : b < f.blocks.length := by
        have hlt := (List.getElem?_eq_some_iff.1 hget).1
        have : f.flow.length = f.blocks.length := by simp [flow, blockIds]
        rw [length_zip] at hlt
        omega
      rw [getElem?_zip_live hb] at hget
      cases hget
      exact ⟨b, hb, h⟩
    · rintro ⟨b, hb, h⟩
      exact ⟨b, _, _, _, getElem?_zip_live hb, h⟩

/-! ### Lives are covered -/

variable {v : ValueId}

theorem touch_of_getElem? {k : Nat} {i : Instruction}
    (hi : (f.block b).instructions[k]? = some i) (hv : i.def? = some v ∨ v ∈ i.uses) :
    (v, f.startOf b + 2 * (k + 1)) ∈ f.touches := by
  refine mem_touches.2 (.inr ⟨b, lt_length_of_getElem? hi, ?_⟩)
  exact mem_blockTouches.2 (.inr (.inl ⟨k, _, getElem?_nodes hi, hv, rfl⟩))

theorem touch_of_mem_phiDefs (hv : v ∈ (f.block b).phiDefs) : (v, f.startOf b) ∈ f.touches := by
  refine mem_touches.2 (.inr ⟨b, lt_length_of_mem_phiDefs hv, ?_⟩)
  exact mem_blockTouches.2 (.inl ⟨.inr hv, rfl⟩)

theorem touched_before (hb : b < f.blocks.length) (k : Nat)
    (hk : k ≤ (f.block b).instructions.length) (hv : v ∈ f.liveBefore b k) :
    ∃ q, (v, q) ∈ f.touches ∧ q ≤ f.startOf b + 2 * k := by
  induction k with
  | zero =>
    by_cases hphi : v ∈ (f.block b).phiDefs
    · exact ⟨_, touch_of_mem_phiDefs hphi, Nat.le_refl _⟩
    · have hin : v ∈ f.liveness.liveIn.getD b [] := by
        rw [getD_liveIn hb]
        exact FlowBlock.mem_liveIn.2 ⟨hv, hphi⟩
      refine ⟨f.startOf b, mem_touches.2 (.inr ⟨b, hb, ?_⟩), Nat.le_refl _⟩
      exact mem_blockTouches.2 (.inl ⟨.inl hin, rfl⟩)
  | succ k ih =>
    have hi : (f.block b).instructions[k]? = some (f.block b).instructions[k] :=
      getElem?_eq_getElem hk
    by_cases hdef : (f.block b).instructions[k].def? = some v
    · exact ⟨_, touch_of_getElem? hi (.inl hdef), Nat.le_refl _⟩
    · have hbefore : v ∈ f.liveBefore b k := by
        rw [liveBefore_of_getElem? hi]
        exact FlowNode.mem_liveBefore.2 (.inl ⟨hv, hdef⟩)
      obtain ⟨q, hq, hle⟩ := ih (Nat.le_of_lt hk) hbefore
      exact ⟨q, hq, by omega⟩

theorem touched_by_nodes {ns : List FlowNode} {out : LiveSet}
    (hv : v ∈ ns.foldr FlowNode.liveBefore out) :
    (∃ (j : Nat) (n : FlowNode), ns[j]? = some n ∧ v ∈ n.uses) ∨ v ∈ out := by
  refine (FlowNode.mem_uses_of_mem_foldr hv).imp_left fun h => ?_
  obtain ⟨n, hn, hv⟩ := mem_flatMap.1 h
  obtain ⟨j, hj⟩ := mem_iff_getElem?.1 hn
  exact ⟨j, n, hj, hv⟩

theorem touched_after (hb : b < f.blocks.length) {k : Nat}
    (hk : k ≤ (f.block b).instructions.length) (hv : v ∈ f.liveBefore b k) :
    ∃ q, (v, q) ∈ f.touches ∧ f.startOf b + 2 * k ≤ q := by
  rcases touched_by_nodes hv with ⟨j, n, hn, hv⟩ | hv
  · rw [getElem?_drop] at hn
    refine ⟨f.startOf b + 2 * (k + j + 1), mem_touches.2 (.inr ⟨b, hb, ?_⟩), by omega⟩
    exact mem_blockTouches.2 (.inr (.inl ⟨k + j, n, hn, .inr hv, rfl⟩))
  · have hlen : (f.flowBlock b).nodes.length = (f.block b).instructions.length + 1 := by
      simp [flowBlock, Block.nodes]
    refine ⟨f.startOf b + 2 * (f.flowBlock b).nodes.length + 1,
      mem_touches.2 (.inr ⟨b, hb, ?_⟩), by omega⟩
    exact mem_blockTouches.2 (.inr (.inr ⟨hv, rfl⟩))

theorem WellFormed.reaches (wf : f.WellFormed) {k : Nat}
    (hb : b < f.blocks.length) (hk : k ≤ (f.block b).instructions.length)
    (h : f.LiveAt b k v) : Reaches f.touches v (f.startOf b + 2 * k) :=
  ⟨touched_before hb k hk (wf.mem_liveBefore h), touched_after hb hk (wf.mem_liveBefore h)⟩

theorem WellFormed.overlap (wf : f.WellFormed) {w : ValueId} (h : f.Interferes v w) :
    Overlap (span f.touches v) (span f.touches w) := by
  have hparam : ∀ {u}, u ∈ f.paramIds → Reaches f.touches u 0 := fun hu =>
    .of_mem (mem_touches.2 (.inl ⟨hu, rfl⟩))
  have hphi : ∀ {b u}, u ∈ (f.block b).phiDefs → Reaches f.touches u (f.startOf b) := fun hu =>
    .of_mem (touch_of_mem_phiDefs hu)
  cases h with
  | params hv hw => exact (hparam hv).overlap (hparam hw)
  | phis hv hw => exact (hphi hv).overlap (hphi hw)
  | paramLive hv hw =>
    exact (hparam hv).overlap (wf.reaches wf.hasEntry (Nat.zero_le _) hw)
  | phiLive hv hw =>
    exact (hphi hv).overlap (wf.reaches (lt_length_of_mem_phiDefs hv) (Nat.zero_le _) hw)
  | result hi hv hw _ =>
    have hk := (List.getElem?_eq_some_iff.1 hi).1
    exact (Reaches.of_mem (touch_of_getElem? hi (.inl hv))).overlap
      (wf.reaches (lt_length_of_getElem? hi) hk hw)

/-! ### The intervals of a function -/

theorem WellFormed.touched_iff (wf : f.WellFormed) :
    (∃ p, (v, p) ∈ f.touches) ↔ v ∈ f.definedValues := by
  constructor
  · rintro ⟨p, hp⟩
    rcases mem_touches.1 hp with ⟨hv, -⟩ | ⟨b, hb, ht⟩
    · exact mem_definedValues.2 (.inl hv)
    · rcases mem_blockTouches.1 ht with ⟨hv | hv, -⟩ | ⟨j, n, hn, hv, -⟩ | ⟨hv, -⟩
      · exact wf.liveIn_subset b hv
      · exact mem_definedValues.2 (.inr (.inl ⟨b, hv⟩))
      · have hmem := mem_of_getElem? hn
        rcases hv with hv | hv
        · rcases mem_append.1 hmem with hmem | hmem
          · obtain ⟨i, hi, rfl⟩ := mem_map.1 hmem
            obtain ⟨k, hk⟩ := mem_iff_getElem?.1 hi
            exact mem_definedValues.2 (.inr (.inr ⟨b, k, i, hk, hv⟩))
          · obtain rfl := mem_singleton.1 hmem
            cases hv
        · exact wf.defined _ (block_mem hb) v (mem_uses_of_mem_nodes hmem hv)
      · exact wf.liveOut_subset hb hv
  · intro hv
    rcases mem_definedValues.1 hv with hv | ⟨b, hv⟩ | ⟨b, k, i, hi, hv⟩
    · exact ⟨0, mem_touches.2 (.inl ⟨hv, rfl⟩)⟩
    · exact ⟨_, touch_of_mem_phiDefs hv⟩
    · exact ⟨_, touch_of_getElem? hi (.inl hv)⟩

/-- The intervals of a function. -/
def intervals (f : Function) : List Interval :=
  LinearScan.intervals f.paramIds f.flow f.liveness

theorem mem_intervals {i : Interval} :
    i ∈ f.intervals ↔ ∃ v, (∃ p, (v, p) ∈ f.touches) ∧ span f.touches v = i := by
  unfold intervals LinearScan.intervals
  rw [mem_sortBy, mem_map]
  simp [touches]

theorem pairwise_intervals (f : Function) :
    f.intervals.Pairwise fun i j => i.start ≤ j.start := by
  have h : f.intervals.Pairwise fun i j => decide (i.start ≤ j.start) = true := by
    refine pairwise_sortBy ?_ ?_ _
    · exact fun i j => by simpa using Nat.le_total i.start j.start
    · intro i j k hij hjk
      simp only [decide_eq_true_eq] at hij hjk ⊢
      exact Nat.le_trans hij hjk
  exact h.imp fun hij => by simpa using hij

theorem nodup_intervals (f : Function) : (f.intervals.map Interval.value).Nodup := by
  refine ((perm_sortBy _ _).map Interval.value).nodup_iff.2 ?_
  rw [map_map]
  change ((Ascending.ofList (f.touches.map Prod.fst)).map id).Nodup
  rw [map_id]
  exact (Ascending.pairwise_ofList _).nodup

theorem WellFormed.length_intervals_le (wf : f.WellFormed) :
    f.intervals.length ≤ f.definedValues.length := by
  rw [← length_map (f := Interval.value)]
  refine (subperm_of_subset f.nodup_intervals fun v hv => ?_).length_le
  obtain ⟨i, hi, rfl⟩ := mem_map.1 hv
  obtain ⟨w, hw, rfl⟩ := mem_intervals.1 hi
  exact wf.touched_iff.1 hw

theorem WellFormed.fits_linearScan (wf : f.WellFormed) {pool : List Register}
    (hpool : pool.Nodup) : (LinearScan.allocate pool f.intervals).Fits f pool := by
  obtain ⟨pos, s, h, heq⟩ := allocate_settled hpool f.pairwise_intervals f.nodup_intervals
  rw [← heq]
  have hmem : ∀ {v}, v ∈ f.definedValues → span f.touches v ∈ f.intervals.reverse := fun hv =>
    mem_reverse.2 (mem_intervals.2 ⟨_, wf.touched_iff.2 hv, rfl⟩)
  have hdomain : ∀ v, s.allocation.location? v ≠ none ↔ v ∈ f.definedValues := by
    intro v
    rw [h.domain v]
    constructor
    · rintro ⟨i, hi, rfl⟩
      obtain ⟨w, hw, rfl⟩ := mem_intervals.1 (mem_reverse.1 hi)
      exact wf.touched_iff.1 hw
    · exact fun hv => ⟨_, hmem hv, rfl⟩
  refine ⟨hdomain, h.pool, ?_⟩
  intro v w hne hinter hsame
  obtain ⟨hv, hw⟩ := wf.mem_definedValues_of_interferes hinter
  exact h.apart _ (hmem hv) _ (hmem hw) hne (wf.overlap hinter) hsame

end Function

end SsaBackend
