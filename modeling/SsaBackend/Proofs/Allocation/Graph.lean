import SsaBackend.Allocation.Interference
import SsaBackend.Proofs.Interference

/-!
# The interference graph

Interfering values are neighbours in the interference graph, and stay so when copies are coalesced:
merging two nodes that are not neighbours hands the neighbours of one to the other, so values whose
representatives were neighbours have representatives that still are. Since no node is its own
neighbour, interfering values are never merged.

Coalescing may only lose edges of the node that goes away; `Interference.Sound` says what is left.
-/

namespace SsaBackend

open List

/-! ### Graphs -/

namespace Graph

structure Proper (g : Graph) (n : Nat) : Prop where
  size : g.adj.size = n
  symm : ∀ i j, j ∈ g.neighbours i → i ∈ g.neighbours j
  irrefl : ∀ i, i ∉ g.neighbours i

theorem getD_modify (adj : Array (List Nat)) (i k : Nat) (change : List Nat → List Nat) :
    (adj.modify i change).getD k [] =
      if i = k ∧ k < adj.size then change (adj.getD k []) else adj.getD k [] := by
  simp only [Array.getD_eq_getD_getElem?, Array.getElem?_modify]
  by_cases hi : i = k
  · by_cases hk : k < adj.size
    · simp [hi, hk]
    · simp [hi, hk]
  · simp [hi]

variable {g : Graph}

theorem mem_neighbours_link {i j : Nat} (hi : i < g.adj.size) (hj : j < g.adj.size)
    (x y : Nat) : y ∈ (g.link i j).neighbours x ↔
      y ∈ g.neighbours x ∨ (i ≠ j ∧ ((x = i ∧ y = j) ∨ (x = j ∧ y = i))) := by
  unfold link
  split
  · simp_all
  · rename_i hne
    simp only [neighbours, getD_modify, Array.size_modify]
    by_cases hxj : j = x
    · have hxi : i ≠ x := fun h => hne (h.trans hxj.symm)
      subst hxj
      simp [hj, hxi, Ne.symm hxi, or_comm]
    · by_cases hxi : i = x
      · subst hxi
        simp [hi, hxj, hne, or_comm]
      · simp [hxj, hxi, Ne.symm hxj, Ne.symm hxi]

theorem mem_neighbours_unlink {i j : Nat} (x y : Nat) : y ∈ (g.unlink i j).neighbours x ↔
      y ∈ g.neighbours x ∧ ¬(x = i ∧ y = j) ∧ ¬(x = j ∧ y = i) := by
  simp only [unlink, neighbours, getD_modify, Array.size_modify]
  by_cases hx : x < g.adj.size
  · by_cases hxj : j = x <;> by_cases hxi : i = x <;> grind [Ascending.mem_erase]
  · have hnil : g.adj.getD x [] = [] := by simp [Nat.le_of_not_lt hx]
    simp [hx, hnil]

theorem Proper.link {n i j : Nat} (h : g.Proper n) (hi : i < n) (hj : j < n) :
    (g.link i j).Proper n := by
  have hmem := mem_neighbours_link (g := g) (h.size.symm ▸ hi) (h.size.symm ▸ hj)
  refine ⟨?_, ?_, ?_⟩
  · unfold Graph.link
    split
    · exact h.size
    · simpa using h.size
  · intro x y hxy
    rw [hmem] at hxy ⊢
    have := h.symm x y
    tauto
  · intro x hx
    rw [hmem] at hx
    have := h.irrefl x
    rcases hx with hx | ⟨hne, ⟨rfl, rfl⟩ | ⟨rfl, rfl⟩⟩
    · exact this hx
    · exact hne rfl
    · exact hne rfl

theorem Proper.unlink {n : Nat} (h : g.Proper n) (i j : Nat) : (g.unlink i j).Proper n := by
  refine ⟨by simpa [Graph.unlink] using h.size, ?_, ?_⟩
  · intro x y hxy
    rw [mem_neighbours_unlink] at hxy ⊢
    have := h.symm x y
    tauto
  · intro x hx
    exact h.irrefl x ((mem_neighbours_unlink x x).1 hx).1

@[simp] theorem neighbours_edgeless (n i : Nat) : (edgeless n).neighbours i = [] := by
  simp only [neighbours, edgeless, Array.getD_eq_getD_getElem?, Array.getElem?_replicate]
  split <;> rfl

theorem proper_edgeless (n : Nat) : (edgeless n).Proper n := by
  refine ⟨by simp [edgeless], ?_, ?_⟩
  · intro i j h
    simp at h
  · intro i h
    simp at h

theorem Proper.lt_of_mem {n i j : Nat} (h : g.Proper n) (hij : j ∈ g.neighbours i) : i < n := by
  refine Nat.lt_of_not_le fun hle => ?_
  have hnil : g.neighbours i = [] := by simp [neighbours, h.size, hle]
  simp [hnil] at hij

end Graph

/-! ### Clashes -/

namespace Clash

def Between (cs : List Clash) (v w : ValueId) : Prop :=
  ∃ c ∈ cs, (c.value = v ∧ w ∈ c.others) ∨ (c.value = w ∧ v ∈ c.others)

variable {v w : ValueId}

theorem Between.mono {cs cs' : List Clash} (h : Between cs v w)
    (hsub : ∀ c ∈ cs, c ∈ cs') : Between cs' v w := by
  obtain ⟨c, hc, hvw⟩ := h
  exact ⟨c, hsub c hc, hvw⟩

variable {live vs : List ValueId}

theorem between_pairwise_live (hw : w ∈ live) (hv : v ∈ vs) :
    ∀ before, Between (pairwise live before vs) v w := by
  induction vs with
  | nil => cases hv
  | cons u vs ih =>
    intro before
    rcases mem_cons.1 hv with rfl | hv
    · exact ⟨_, mem_cons_self, .inl ⟨rfl, mem_append_right _ hw⟩⟩
    · exact (ih hv (before ++ [u])).mono fun c hc => mem_cons_of_mem _ hc

theorem between_pairwise_before (hv : v ∈ vs) : ∀ {before : List ValueId}, w ∈ before →
      Between (pairwise live before vs) v w := by
  induction vs with
  | nil => cases hv
  | cons u vs ih =>
    intro before hw
    rcases mem_cons.1 hv with rfl | hv
    · exact ⟨_, mem_cons_self, .inl ⟨rfl, mem_append_left _ hw⟩⟩
    · exact (ih hv (mem_append_left [u] hw)).mono fun c hc => mem_cons_of_mem _ hc

theorem between_pairwise (hv : v ∈ vs) (hw : w ∈ vs) (hne : v ≠ w) :
    ∀ before, Between (pairwise live before vs) v w := by
  induction vs with
  | nil => cases hv
  | cons u vs ih =>
    intro before
    have hself : u ∈ before ++ [u] := by simp
    have htail : ∀ c ∈ pairwise live (before ++ [u]) vs, c ∈ pairwise live before (u :: vs) :=
      fun c hc => mem_cons_of_mem _ hc
    rcases mem_cons.1 hv with rfl | hv'
    · rcases mem_cons.1 hw with rfl | hw'
      · exact absurd rfl hne
      · obtain ⟨c, hc, hcw⟩ := (between_pairwise_before hw' hself).mono htail
        exact ⟨c, hc, hcw.symm⟩
    · rcases mem_cons.1 hw with rfl | hw'
      · exact (between_pairwise_before hv' hself).mono htail
      · exact (ih hv' hw' _).mono htail

theorem mem_pairwise : ∀ {before : List ValueId},
    (∀ c ∈ pairwise live before vs, c.value ∈ vs ∧ c.others ⊆ before ++ vs ++ live) ∧
      ∀ v ∈ vs, ∃ c ∈ pairwise live before vs, c.value = v := by
  induction vs with
  | nil => simp [pairwise]
  | cons u vs ih =>
    intro before
    obtain ⟨hsub, hall⟩ := @ih (before ++ [u])
    constructor
    · intro c hc
      rcases mem_cons.1 hc with rfl | hc
      · refine ⟨mem_cons_self, ?_⟩
        intro w hw
        rcases mem_append.1 hw with hw | hw <;> simp [hw]
      · obtain ⟨hv, hothers⟩ := hsub c hc
        refine ⟨mem_cons_of_mem _ hv, ?_⟩
        simpa using hothers
    · intro v hv
      rcases mem_cons.1 hv with rfl | hv
      · exact ⟨_, mem_cons_self, rfl⟩
      · obtain ⟨c, hc, hcv⟩ := hall v hv
        exact ⟨c, mem_cons_of_mem _ hc, hcv⟩

end Clash

theorem FlowBlock.mem_liveAfterEach {out : LiveSet} {ns : List FlowNode} {x : FlowNode × LiveSet} :
    x ∈ liveAfterEach out ns ↔ ∃ k : Nat, ns[k]? = some x.1 ∧
      x.2 = (ns.drop (k + 1)).foldr FlowNode.liveBefore out := by
  induction ns with
  | nil => simp [liveAfterEach]
  | cons n ns ih =>
    rw [liveAfterEach, mem_cons, ih]
    constructor
    · rintro (rfl | ⟨k, hk, hx⟩)
      · exact ⟨0, rfl, rfl⟩
      · exact ⟨k + 1, hk, hx⟩
    · rintro ⟨k, hk, hx⟩
      cases k with
      | zero =>
        obtain ⟨n', live⟩ := x
        cases hk
        exact .inl (Prod.ext rfl hx)
      | succ k => exact .inr ⟨k, hk, hx⟩

namespace Function

variable {f : Function}

def clashes (f : Function) : List Clash := Clash.all f.paramIds f.flow f.liveness

def clashesOf (f : Function) (b : BlockId) : List Clash :=
  Clash.ofBlock (f.flowBlock b) (f.liveOut b)

theorem mem_clashes (hentry : 0 < f.blocks.length) {c : Clash} :
    c ∈ f.clashes ↔ c ∈ Clash.pairwise [] [] f.paramIds ∨
      (∃ b < f.blocks.length, c ∈ f.clashesOf b) ∨
      c ∈ Clash.ofEntry f.paramIds (f.flowBlock 0) (f.liveOut 0) := by
  have hzip : f.flow.zip f.liveness.liveOut =
      f.blockIds.map fun b => (f.flowBlock b, f.liveOut b) := by
    change f.flow.zip (f.flow.map fun b => b.liveOut f.liveness.liveIn) = _
    rw [flow, map_map, zip_map']
    rfl
  obtain ⟨n, hn⟩ := Nat.exists_eq_succ_of_ne_zero (Nat.ne_of_gt hentry)
  have hids : f.blockIds = 0 :: (List.range n).map Nat.succ := by
    rw [blockIds, hn, range_succ_eq_map]
  unfold clashes Clash.all
  rw [hzip, hids, map_cons]
  simp only [mem_append, mem_flatMap, mem_map, mem_range]
  refine or_congr_right ?_
  constructor
  · rintro ((hc | hc) | ⟨_, ⟨_, ⟨b, hb, rfl⟩, rfl⟩, hc⟩)
    · exact .inl ⟨0, hentry, hc⟩
    · exact .inr hc
    · exact .inl ⟨b + 1, by omega, hc⟩
  · rintro (⟨b, hb, hc⟩ | hc)
    · cases b with
      | zero => exact .inl (.inl hc)
      | succ b => exact .inr ⟨_, ⟨_, ⟨b, by omega, rfl⟩, rfl⟩, hc⟩
    · exact .inl (.inr hc)

theorem clash_of_getElem? {b : BlockId} {k : Nat} {i : Instruction} {v : ValueId}
    (hi : (f.block b).instructions[k]? = some i) (hv : i.def? = some v) :
    ⟨v, (f.liveBefore b (k + 1)).filter fun w => !(i.isMove && i.uses.contains w)⟩ ∈
      f.clashesOf b := by
  refine mem_append_left _ (mem_filterMap.2 ⟨(i.node, f.liveBefore b (k + 1)), ?_, ?_⟩)
  · exact mem_reverse.2 (FlowBlock.mem_liveAfterEach.2 ⟨k, getElem?_nodes hi, rfl⟩)
  · simp only [Clash.ofNode, Instruction.node, hv, Option.map_some]

theorem not_spared {i : Instruction} {w : ValueId}
    (h : ∀ dst src, i = .load dst src → src.id? ≠ some w) : (i.isMove && i.uses.contains w) = false := by
  cases i with
  | load dst src =>
    have hsrc := h dst src rfl
    cases hid : src.id? with
    | none => simp [Instruction.uses, Instruction.operands, hid]
    | some u =>
      have hne : w ≠ u := fun heq => hsrc (by rw [hid, heq])
      simp [Instruction.uses, Instruction.operands, hid, hne]
  | binop | call | store => rfl

theorem WellFormed.between (wf : f.WellFormed) {v w : ValueId} (hne : v ≠ w)
    (h : f.Interferes v w) : Clash.Between f.clashes v w := by
  have hblock : ∀ {b}, b < f.blocks.length → ∀ c ∈ f.clashesOf b, c ∈ f.clashes := fun hb c hc =>
    (mem_clashes wf.hasEntry).2 (.inr (.inl ⟨_, hb, hc⟩))
  cases h with
  | params hv hw =>
    exact (Clash.between_pairwise hv hw hne []).mono fun c hc =>
      (mem_clashes wf.hasEntry).2 (.inl hc)
  | phis hv hw =>
    exact (Clash.between_pairwise hv hw hne []).mono fun c hc =>
      hblock (lt_length_of_mem_phiDefs hv) c (mem_append_right _ hc)
  | paramLive hv hw =>
    refine ⟨_, (mem_clashes wf.hasEntry).2 (.inr (.inr (mem_map_of_mem hv))), .inl ⟨rfl, ?_⟩⟩
    exact wf.mem_liveBefore hw
  | phiLive hv hw =>
    refine (Clash.between_pairwise_live ?_ hv []).mono fun c hc =>
      hblock (lt_length_of_mem_phiDefs hv) c (mem_append_right _ hc)
    exact wf.mem_liveBefore hw
  | result hi hv hw hspare =>
    refine ⟨_, hblock (lt_length_of_getElem? hi) _ (clash_of_getElem? hi hv), .inl ⟨rfl, ?_⟩⟩
    refine mem_filter.2 ⟨wf.mem_liveBefore hw, ?_⟩
    rw [not_spared hspare]
    rfl

theorem WellFormed.clash_defined (wf : f.WellFormed) {c : Clash} (hc : c ∈ f.clashes) :
    c.value ∈ f.definedValues ∧ c.others ⊆ f.definedValues := by
  have hparams : f.paramIds ⊆ f.definedValues := fun v hv => mem_definedValues.2 (.inl hv)
  rcases (mem_clashes wf.hasEntry).1 hc with hc | ⟨b, hb, hc⟩ | hc
  · obtain ⟨hv, hothers⟩ := Clash.mem_pairwise.1 c hc
    refine ⟨hparams hv, fun w hw => hparams ?_⟩
    simpa using hothers hw
  · have hphis : (f.block b).phiDefs ⊆ f.definedValues := fun v hv =>
      mem_definedValues.2 (.inr (.inl ⟨b, hv⟩))
    rcases mem_append.1 hc with hc | hc
    · obtain ⟨⟨n, after⟩, hn, hclash⟩ := mem_filterMap.1 hc
      obtain ⟨k, hk, hafter⟩ := FlowBlock.mem_liveAfterEach.1 (mem_reverse.1 hn)
      obtain ⟨d, hd, rfl⟩ := Option.map_eq_some_iff.1 hclash
      constructor
      · rcases mem_append.1 (mem_of_getElem? hk) with hmem | hmem
        · obtain ⟨i, hi, rfl⟩ := mem_map.1 hmem
          obtain ⟨k', hk'⟩ := mem_iff_getElem?.1 hi
          exact mem_definedValues.2 (.inr (.inr ⟨b, k', i, hk', hd⟩))
        · obtain rfl := mem_singleton.1 hmem
          cases hd
      · intro w hw
        have hlive := (mem_filter.1 hw).1
        rw [hafter] at hlive
        exact wf.liveBefore_subset hb (k + 1) hlive
    · obtain ⟨hv, hothers⟩ := Clash.mem_pairwise.1 c hc
      refine ⟨hphis hv, fun w hw => ?_⟩
      rcases mem_append.1 (hothers hw) with hw | hw
      · exact hphis (by simpa [flowBlock] using hw)
      · exact wf.liveBefore_subset hb 0 hw
  · obtain ⟨p, hp, rfl⟩ := mem_map.1 hc
    exact ⟨hparams hp, wf.liveBefore_subset wf.hasEntry 0⟩

theorem WellFormed.exists_clash (wf : f.WellFormed) {v : ValueId} (hv : v ∈ f.definedValues) :
    ∃ c ∈ f.clashes, c.value = v := by
  rcases mem_definedValues.1 hv with hv | ⟨b, hv⟩ | ⟨b, k, i, hi, hv⟩
  · obtain ⟨c, hc, rfl⟩ := Clash.mem_pairwise.2 v hv
    exact ⟨c, (mem_clashes wf.hasEntry).2 (.inl hc), rfl⟩
  · obtain ⟨c, hc, rfl⟩ := Clash.mem_pairwise.2 v hv
    refine ⟨c, (mem_clashes wf.hasEntry).2 (.inr (.inl ⟨b, lt_length_of_mem_phiDefs hv, ?_⟩)), rfl⟩
    exact mem_append_right _ hc
  · have hc := clash_of_getElem? hi hv
    exact ⟨_, (mem_clashes wf.hasEntry).2 (.inr (.inl ⟨b, lt_length_of_getElem? hi, hc⟩)), rfl⟩

end Function

/-! ### The graph of a list of clashes -/

theorem nodup_eraseDups : (l : List ValueId) → l.eraseDups.Nodup
  | [] => by simp
  | v :: l => by
    rw [eraseDups_cons]
    refine nodup_cons.2 ⟨?_, nodup_eraseDups _⟩
    simp [mem_eraseDups]
termination_by l => l.length
decreasing_by exact Nat.lt_succ_of_le (length_filter_le _ l)

namespace Interference

variable {E : Nat → Nat → Prop}

def Known (values : List ValueId) (c : Clash) : Prop := c.value ∈ values ∧ c.others ⊆ values

theorem linkClash_spec {values : List ValueId} {g : Graph} (hg : g.Proper values.length) {c : Clash}
    (hc : Known values c) :
    (linkClash values g c).Proper values.length ∧
      (∀ x y, y ∈ g.neighbours x → y ∈ (linkClash values g c).neighbours x) ∧
      ∀ w ∈ c.others, c.value ≠ w →
        values.idxOf w ∈ (linkClash values g c).neighbours (values.idxOf c.value) := by
  obtain ⟨v, others⟩ := c
  obtain ⟨hv, hothers⟩ := hc
  change v ∈ values at hv
  change others ⊆ values at hothers
  have hi : values.idxOf v < values.length := idxOf_lt_length_of_mem hv
  unfold linkClash
  induction others generalizing g with
  | nil => exact ⟨hg, fun _ _ h => h, by simp⟩
  | cons u others ih =>
    obtain ⟨hu, hothers⟩ := cons_subset.1 hothers
    have hj : values.idxOf u < values.length := idxOf_lt_length_of_mem hu
    have hlink := Graph.mem_neighbours_link (g := g) (hg.size.symm ▸ hi) (hg.size.symm ▸ hj)
    obtain ⟨hproper, hkeep, hnew⟩ := ih (hg.link hi hj) hothers
    rw [foldl_cons]
    refine ⟨hproper, fun x y hxy => hkeep x y ((hlink x y).2 (.inl hxy)), ?_⟩
    intro w hw hne
    rcases mem_cons.1 hw with rfl | hw
    · refine hkeep _ _ ((hlink _ _).2 (.inr ⟨?_, .inl ⟨rfl, rfl⟩⟩))
      exact fun heq => hne ((idxOf_inj hv).1 heq)
    · exact hnew w hw hne

theorem foldl_linkClash_spec {values : List ValueId} (cs : List Clash) :
    ∀ {g : Graph}, g.Proper values.length → (∀ c ∈ cs, Known values c) →
      (cs.foldl (linkClash values) g).Proper values.length ∧
      (∀ x y, y ∈ g.neighbours x → y ∈ (cs.foldl (linkClash values) g).neighbours x) ∧
      ∀ c ∈ cs, ∀ w ∈ c.others, c.value ≠ w →
        values.idxOf w ∈ (cs.foldl (linkClash values) g).neighbours (values.idxOf c.value) := by
  induction cs with
  | nil => exact fun hg _ => ⟨hg, fun _ _ h => h, by simp⟩
  | cons c cs ih =>
    intro g hg hknown
    obtain ⟨hc, hcs⟩ := forall_mem_cons.1 hknown
    obtain ⟨hproper, hkeep, hnew⟩ := linkClash_spec hg hc
    obtain ⟨hproper', hkeep', hnew'⟩ := ih hproper hcs
    refine ⟨hproper', fun x y hxy => hkeep' x y (hkeep x y hxy), ?_⟩
    intro d hd w hw hne
    rcases mem_cons.1 hd with rfl | hd
    · exact hkeep' _ _ (hnew w hw hne)
    · exact hnew' d hd w hw hne

/-! ### Coalescing -/

structure Sound (E : Nat → Nat → Prop) (g : Interference) : Prop where
  proper : g.graph.Proper g.values.length
  length : g.reps.length = g.values.length
  rep_lt : ∀ i < g.values.length, g.rep i < g.values.length
  rep_rep : ∀ i < g.values.length, g.rep (g.rep i) = g.rep i
  edges : ∀ i j, i < g.values.length → j < g.values.length → E i j →
    g.rep j ∈ g.graph.neighbours (g.rep i)

variable {keep gone : Nat}

theorem foldl_hand_over {n : Nat} (hkeep : keep < n) (hne : keep ≠ gone) (ns : List Nat) :
    ∀ {g : Graph}, g.Proper n → (∀ m ∈ ns, m < n ∧ m ≠ keep ∧ m ≠ gone) →
      (ns.foldl (fun graph m => (graph.unlink gone m).link keep m) g).Proper n ∧
      ∀ x y, y ∈ (ns.foldl (fun graph m => (graph.unlink gone m).link keep m) g).neighbours x ↔
        (y ∈ g.neighbours x ∧ ¬(x = gone ∧ y ∈ ns) ∧ ¬(x ∈ ns ∧ y = gone)) ∨
          (x = keep ∧ y ∈ ns) ∨ (x ∈ ns ∧ y = keep) := by
  induction ns with
  | nil => exact fun hg _ => ⟨hg, by simp⟩
  | cons m ns ih =>
    intro g hg hns
    obtain ⟨⟨hm, hmk, hmg⟩, hns⟩ := forall_mem_cons.1 hns
    have hunlink := hg.unlink gone m
    have hlink := Graph.mem_neighbours_link (g := g.unlink gone m)
      (hunlink.size.symm ▸ hkeep) (hunlink.size.symm ▸ hm)
    obtain ⟨hproper, hiff⟩ := ih (hunlink.link hkeep hm) hns
    rw [foldl_cons]
    refine ⟨hproper, fun x y => ?_⟩
    rw [hiff, hlink, Graph.mem_neighbours_unlink, mem_cons, mem_cons]
    grind

variable {g : Interference}

theorem merge_spec (h : g.graph.Proper g.values.length)
    (hkeep : keep < g.values.length) (hne : keep ≠ gone)
    (hfree : gone ∉ g.graph.neighbours keep) :
    (g.merge keep gone).graph.Proper g.values.length ∧
      ∀ x y, y ∈ (g.merge keep gone).graph.neighbours x ↔
        (x ≠ gone ∧ y ≠ gone ∧ y ∈ g.graph.neighbours x) ∨
          (x = keep ∧ y ∈ g.graph.neighbours gone) ∨
          (x ∈ g.graph.neighbours gone ∧ y = keep) := by
  have hns : ∀ m ∈ g.graph.neighbours gone, m < g.values.length ∧ m ≠ keep ∧ m ≠ gone := by
    intro m hm
    refine ⟨h.lt_of_mem (h.symm _ _ hm), ?_, ?_⟩
    · rintro rfl
      exact hfree (h.symm _ _ hm)
    · rintro rfl
      exact h.irrefl _ hm
  obtain ⟨hproper, hiff⟩ := foldl_hand_over hkeep hne _ h hns
  refine ⟨hproper, fun x y => (hiff x y).trans (or_congr_left ?_)⟩
  constructor
  · rintro ⟨hxy, hx, hy⟩
    refine ⟨fun heq => hx ⟨heq, heq ▸ hxy⟩, fun heq => hy ⟨?_, heq⟩, hxy⟩
    exact h.symm _ _ (heq ▸ hxy)
  · exact fun ⟨hx, hy, hxy⟩ => ⟨hxy, fun h => hx h.1, fun h => hy h.2⟩

theorem rep_merge {i : Nat} (hi : i < g.reps.length) :
    (g.merge keep gone).rep i = if g.rep i = gone then keep else g.rep i := by
  simp [rep, merge, hi]

theorem Sound.merge (h : Sound E g) (hkeep : keep < g.values.length) (hkrep : g.rep keep = keep)
    (hne : keep ≠ gone) (hfree : gone ∉ g.graph.neighbours keep) : Sound E (g.merge keep gone) := by
  obtain ⟨hproper, hiff⟩ := merge_spec h.proper hkeep hne hfree
  have hrep : ∀ {i}, i < g.values.length →
      (g.merge keep gone).rep i = if g.rep i = gone then keep else g.rep i := fun hi =>
    rep_merge (h.length.symm ▸ hi)
  refine ⟨hproper, ?_, ?_, ?_, ?_⟩
  · exact (length_map _).trans h.length
  · intro i hi
    rw [hrep hi]
    split
    · exact hkeep
    · exact h.rep_lt i hi
  · intro i hi
    have hlt : (g.merge keep gone).rep i < g.values.length := by
      rw [hrep hi]
      split
      · exact hkeep
      · exact h.rep_lt i hi
    rw [hrep hlt, hrep hi]
    by_cases hgone : g.rep i = gone
    · simp [hgone, hkrep, hne]
    · simp [hgone, h.rep_rep i hi]
  · intro i j hi hj hE
    have hedge := h.edges i j hi hj hE
    rw [hrep hi, hrep hj, hiff]
    -- the ends of an edge differ, so at most one of them goes away
    by_cases hgi : g.rep i = gone
    · have hgj : g.rep j ≠ gone := by
        intro hgj
        rw [hgi, hgj] at hedge
        exact h.proper.irrefl _ hedge
      rw [if_pos hgi, if_neg hgj]
      exact .inr (.inl ⟨rfl, hgi ▸ hedge⟩)
    · rw [if_neg hgi]
      by_cases hgj : g.rep j = gone
      · rw [if_pos hgj]
        exact .inr (.inr ⟨h.proper.symm _ _ (hgj ▸ hedge), rfl⟩)
      · rw [if_neg hgj]
        exact .inl ⟨hgi, hgj, hedge⟩

theorem Sound.coalesceMove (h : Sound E g) (k : Nat) {m : Nat × Nat}
    (hm : m.1 < g.values.length ∧ m.2 < g.values.length) : Sound E (g.coalesceMove k m) := by
  unfold Interference.coalesceMove
  dsimp only
  split
  · exact h
  · rename_i hcond
    simp only [Bool.or_eq_true, decide_eq_true_eq, not_or] at hcond
    refine h.merge (h.rep_lt _ hm.1) (h.rep_rep _ hm.1) hcond.1.1 ?_
    simpa [Graph.isLinked] using hcond.1.2

theorem values_coalesceMove (g : Interference) (k : Nat) (m : Nat × Nat) :
    (g.coalesceMove k m).values = g.values := by
  unfold coalesceMove
  dsimp only
  split <;> rfl

theorem coalesce_induction {k : Nat} {motive : Interference → Prop} (init : motive g)
    (step : ∀ g' m, g'.values = g.values → m ∈ g.moves → motive g' →
      motive (g'.coalesceMove k m)) :
    motive (g.coalesce k) ∧ (g.coalesce k).values = g.values := by
  refine List.foldlRecOn (motive := fun g' => motive g' ∧ g'.values = g.values) g.moves
    (coalesceMove k) ⟨init, rfl⟩ ?_
  rintro g' ⟨h, hvalues⟩ m hm
  exact ⟨step g' m hvalues hm h, (values_coalesceMove g' k m).trans hvalues⟩

theorem Sound.coalesce (h : Sound E g) (k : Nat)
    (hmoves : ∀ m ∈ g.moves, m.1 < g.values.length ∧ m.2 < g.values.length) :
    Sound E (g.coalesce k) ∧ (g.coalesce k).values = g.values :=
  coalesce_induction h fun _ m hvalues hm h' => h'.coalesceMove k (hvalues ▸ hmoves m hm)

end Interference

end SsaBackend
