import SsaBackend.Proofs.Liveness.Paths
import Mathlib.Data.Set.Basic

/-!
# Live sets are the least solution, in whatever order they are found

The equations of liveness are stated for families of sets, whatever these are made of
(`Liveness.Solves`). The analysis solves them, and lies below every other solution, since each of its
rounds does.

The rounds of `Liveness.analyze` compute the sets of all blocks from those of the round before.
A sweep instead goes through the blocks from the last to the first and replaces their sets as it goes,
so that a block sees what the sweep has found for the blocks behind it. Sweeps from empty sets, until
one changes nothing, end with the same sets (`Liveness.sweeps_analyze`): a sweep does no less than a
round, and stays below the least solution.
-/

namespace SsaBackend

open List

variable {b : BlockId}

namespace FlowNode

/-- What is needed before a node, from what is needed after it. -/
def needs (n : FlowNode) (after : Set ValueId) : Set ValueId :=
  {v | (v ∈ after ∧ n.def? ≠ some v) ∨ v ∈ n.uses}

theorem mem_foldr_liveBefore {ns : List FlowNode} {out : LiveSet} {v : ValueId} :
    v ∈ ns.foldr liveBefore out ↔ v ∈ ns.foldr needs {w | w ∈ out} := by
  induction ns generalizing v with
  | nil => exact Iff.rfl
  | cons n ns ih =>
    rw [foldr_cons, mem_liveBefore, ih]
    exact Iff.rfl

theorem foldr_needs_subset {ns : List FlowNode} {out out' : Set ValueId} (h : out ⊆ out') :
    ns.foldr needs out ⊆ ns.foldr needs out' := by
  induction ns with
  | nil => exact h
  | cons n ns ih => exact fun v hv => hv.imp (fun hv => ⟨ih hv.1, hv.2⟩) id

end FlowNode

namespace Liveness

variable {fb : FlowBlock}

/-! ### The equations -/

/-- The equations of liveness, for sets of any kind. What is needed at the end of a block is what the
phis behind it take and what its successors need at their beginning. What is needed at its beginning
is what the nodes need, less what the phis define. -/
structure Solves (flow : List FlowBlock) (ins outs : BlockId → Set ValueId) : Prop where
  atEnd : ∀ (b : BlockId) (fb : FlowBlock), flow[b]? = some fb →
    outs b = {v | v ∈ fb.exitUses ∨ ∃ s ∈ fb.succs, v ∈ ins s}
  atStart : ∀ (b : BlockId) (fb : FlowBlock), flow[b]? = some fb →
    ins b = fb.nodes.foldr FlowNode.needs (outs b) \ {v | v ∈ fb.phiDefs}

/-- The live-in set of a block, as a set. -/
def inSet (l : Liveness) (b : BlockId) : Set ValueId := {v | v ∈ l.liveIn.getD b []}

/-- The live-out set of a block, as a set. -/
def outSet (l : Liveness) (b : BlockId) : Set ValueId := {v | v ∈ l.liveOut.getD b []}

variable {flow : List FlowBlock}

theorem getD_map_of_getElem? (hb : flow[b]? = some fb) (g : FlowBlock → LiveSet) :
    (flow.map g).getD b [] = g fb := by
  rw [getD_eq_getElem?_getD, getElem?_map, hb]
  rfl

theorem liveOut_analyze (hb : flow[b]? = some fb) :
    (analyze flow).liveOut.getD b [] = fb.liveOut (analyze flow).liveIn :=
  getD_map_of_getElem? hb _

theorem liveIn_analyze (hb : flow[b]? = some fb) :
    (analyze flow).liveIn.getD b [] = fb.liveIn (fb.liveOut (analyze flow).liveIn) := by
  have hstep := (step_analyze flow).1
  rw [← congrArg (fun ins => ins.getD b []) hstep]
  exact getD_map_of_getElem? hb _

theorem solves_analyze (flow : List FlowBlock) :
    Solves flow (analyze flow).inSet (analyze flow).outSet := by
  refine ⟨fun b fb hb => ?_, fun b fb hb => ?_⟩
  · ext v
    rw [outSet, Set.mem_ofPred_eq, liveOut_analyze hb]
    exact FlowBlock.mem_liveOut
  · ext v
    rw [inSet, outSet, Set.mem_ofPred_eq, liveIn_analyze hb, liveOut_analyze hb,
      FlowBlock.mem_liveIn]
    exact and_congr_left fun _ => FlowNode.mem_foldr_liveBefore

theorem liveIn_subset_of_closed (ins : BlockId → Set ValueId)
    (h : ∀ (b : BlockId) (fb : FlowBlock), flow[b]? = some fb →
      fb.nodes.foldr FlowNode.needs {v | v ∈ fb.exitUses ∨ ∃ s ∈ fb.succs, v ∈ ins s} \
        {v | v ∈ fb.phiDefs} ⊆ ins b) (b : BlockId) : (analyze flow).inSet b ⊆ ins b := by
  refine stabilize_induction (motive := fun l : List LiveSet => ∀ b, ∀ v ∈ l.getD b [], v ∈ ins b)
    ?_ _ ?_ b
  · intro l hl b v hv
    cases hb : flow[b]? with
    | none => simp [step, hb] at hv
    | some fb =>
      rw [step, getD_map_of_getElem? hb] at hv
      obtain ⟨hv, hphi⟩ := FlowBlock.mem_liveIn.1 hv
      refine h b fb hb ⟨FlowNode.foldr_needs_subset ?_ (FlowNode.mem_foldr_liveBefore.1 hv), hphi⟩
      intro w hw
      rcases FlowBlock.mem_liveOut.1 hw with hexit | ⟨s, hs, hw⟩
      · exact .inl hexit
      · exact .inr ⟨s, hs, hl s w hw⟩
  · intro b v hv
    simp at hv

theorem Solves.least {ins outs : BlockId → Set ValueId} (h : Solves flow ins outs)
    (hb : b < flow.length) : (analyze flow).inSet b ⊆ ins b ∧ (analyze flow).outSet b ⊆ outs b := by
  have hin : ∀ b, (analyze flow).inSet b ⊆ ins b := liveIn_subset_of_closed ins fun b fb hb => by
    rw [h.atStart b fb hb, h.atEnd b fb hb]
  refine ⟨hin b, fun v hv => ?_⟩
  have hfb := getElem?_eq_getElem hb
  rw [(solves_analyze flow).atEnd b _ hfb] at hv
  rw [h.atEnd b _ hfb]
  exact hv.imp id fun ⟨s, hs, hv⟩ => ⟨s, hs, hin s hv⟩

/-! ### Sweeps -/

/-- Nothing is known to be live. -/
def empty (flow : List FlowBlock) : Liveness := ⟨flow.map fun _ => [], flow.map fun _ => []⟩

/-- Replaces the sets of one block by what the equations give for it. -/
def update (l : Liveness) (fb : FlowBlock) (b : BlockId) : Liveness :=
  ⟨l.liveIn.set b (fb.liveIn (fb.liveOut l.liveIn)), l.liveOut.set b (fb.liveOut l.liveIn)⟩

/-- Updates every block in place, the last one first. -/
def sweep (flow : List FlowBlock) (l : Liveness) : Liveness :=
  flow.zipIdx.foldr (fun b l => l.update b.1 b.2) l

/-- Sweeps from some sets end with others: they stop when a sweep changes nothing. -/
inductive Sweeps (flow : List FlowBlock) : Liveness → Liveness → Prop
  | done {l : Liveness} : sweep flow l = l → Sweeps flow l l
  | again {l l' : Liveness} : sweep flow l ≠ l → Sweeps flow (sweep flow l) l' → Sweeps flow l l'

structure Within (l l' : Liveness) : Prop where
  ins : ∀ b, l.liveIn.getD b [] ⊆ l'.liveIn.getD b []
  outs : ∀ b, l.liveOut.getD b [] ⊆ l'.liveOut.getD b []

theorem Within.trans {l l' l'' : Liveness} (h : Within l l') (h' : Within l' l'') : Within l l'' :=
  ⟨fun b => List.Subset.trans (h.ins b) (h'.ins b),
    fun b => List.Subset.trans (h.outs b) (h'.outs b)⟩

structure Rising (flow : List FlowBlock) (l : Liveness) : Prop where
  lengthIn : l.liveIn.length = flow.length
  lengthOut : l.liveOut.length = flow.length
  ascendingIn : ∀ s ∈ l.liveIn, s.Pairwise (· < ·)
  ascendingOut : ∀ s ∈ l.liveOut, s.Pairwise (· < ·)
  below : Within l (analyze flow)
  risesIn : ∀ (b : BlockId) (fb : FlowBlock), flow[b]? = some fb →
    l.liveIn.getD b [] ⊆ fb.liveIn (fb.liveOut l.liveIn)
  risesOut : ∀ (b : BlockId) (fb : FlowBlock), flow[b]? = some fb →
    l.liveOut.getD b [] ⊆ fb.liveOut l.liveIn

theorem rising_empty (flow : List FlowBlock) : Rising flow (empty flow) := by
  refine ⟨length_map _, length_map _, ?_, ?_, ⟨?_, ?_⟩, ?_, ?_⟩ <;> simp [empty]

theorem getD_set {ins : List LiveSet} (hb : b < ins.length) (s : LiveSet) (c : BlockId) :
    (ins.set b s).getD c [] = if c = b then s else ins.getD c [] := by
  by_cases hc : c = b
  · simp [hc, hb]
  · simp [hc, getElem?_set_ne (Ne.symm hc)]

variable {l : Liveness} {b : BlockId} {fb : FlowBlock}

section Update

variable (h : Rising flow l) (hb : flow[b]? = some fb)

include h hb

theorem Rising.liveIn_update (c : BlockId) :
    (l.update fb b).liveIn.getD c [] =
      if c = b then fb.liveIn (fb.liveOut l.liveIn) else l.liveIn.getD c [] :=
  getD_set (h.lengthIn.symm ▸ (List.getElem?_eq_some_iff.1 hb).1) _ c

theorem Rising.liveOut_update (c : BlockId) :
    (l.update fb b).liveOut.getD c [] =
      if c = b then fb.liveOut l.liveIn else l.liveOut.getD c [] :=
  getD_set (h.lengthOut.symm ▸ (List.getElem?_eq_some_iff.1 hb).1) _ c

theorem Rising.within_update : Within l (l.update fb b) := by
  refine ⟨fun c => ?_, fun c => ?_⟩
  · rw [h.liveIn_update hb]
    split
    · rename_i hc
      exact hc ▸ h.risesIn b fb hb
    · exact List.Subset.refl _
  · rw [h.liveOut_update hb]
    split
    · rename_i hc
      exact hc ▸ h.risesOut b fb hb
    · exact List.Subset.refl _

theorem Rising.update : Rising flow (l.update fb b) := by
  -- sets only grow, and the equations are monotone: what rose before still does
  have hgrow := h.within_update hb
  refine ⟨(length_set ..).trans h.lengthIn, (length_set ..).trans h.lengthOut, ?_, ?_,
    ⟨?_, ?_⟩, ?_, ?_⟩
  · intro s hs
    rcases mem_or_eq_of_mem_set hs with hs | rfl
    · exact h.ascendingIn s hs
    · exact fb.pairwise_liveIn (fb.pairwise_liveOut _)
  · intro s hs
    rcases mem_or_eq_of_mem_set hs with hs | rfl
    · exact h.ascendingOut s hs
    · exact fb.pairwise_liveOut _
  · intro c
    rw [h.liveIn_update hb]
    split
    · rename_i hc
      rw [hc, liveIn_analyze hb]
      exact fb.liveIn_subset (fb.liveOut_subset h.below.ins)
    · exact h.below.ins c
  · intro c
    rw [h.liveOut_update hb]
    split
    · rename_i hc
      rw [hc, liveOut_analyze hb]
      exact fb.liveOut_subset h.below.ins
    · exact h.below.outs c
  · intro c fc hc
    refine List.Subset.trans ?_ (fc.liveIn_subset (fc.liveOut_subset hgrow.ins))
    rw [h.liveIn_update hb]
    split
    · rename_i hcb
      cases (hcb ▸ hc).symm.trans hb
      exact List.Subset.refl _
    · exact h.risesIn c fc hc
  · intro c fc hc
    refine List.Subset.trans ?_ (fc.liveOut_subset hgrow.ins)
    rw [h.liveOut_update hb]
    split
    · rename_i hcb
      cases (hcb ▸ hc).symm.trans hb
      exact List.Subset.refl _
    · exact h.risesOut c fc hc

end Update

theorem Rising.foldr_update (h : Rising flow l) (bs : List (FlowBlock × BlockId))
    (hbs : ∀ p ∈ bs, flow[p.2]? = some p.1) :
    Rising flow (bs.foldr (fun p l => l.update p.1 p.2) l) ∧
      Within l (bs.foldr (fun p l => l.update p.1 p.2) l) ∧
      ∀ p ∈ bs, p.1.liveIn (p.1.liveOut l.liveIn) ⊆
          (bs.foldr (fun p l => l.update p.1 p.2) l).liveIn.getD p.2 [] ∧
        p.1.liveOut l.liveIn ⊆
          (bs.foldr (fun p l => l.update p.1 p.2) l).liveOut.getD p.2 [] := by
  induction bs with
  | nil => exact ⟨h, ⟨fun _ => List.Subset.refl _, fun _ => List.Subset.refl _⟩, by simp⟩
  | cons q bs ih =>
    obtain ⟨hq, hbs⟩ := forall_mem_cons.1 hbs
    obtain ⟨hrising, hwithin, hdone⟩ := ih hbs
    have hgrow := hrising.within_update hq
    rw [foldr_cons]
    refine ⟨hrising.update hq, hwithin.trans hgrow, forall_mem_cons.2 ⟨⟨?_, ?_⟩, ?_⟩⟩
    · rw [hrising.liveIn_update hq, if_pos rfl]
      exact q.1.liveIn_subset (q.1.liveOut_subset hwithin.ins)
    · rw [hrising.liveOut_update hq, if_pos rfl]
      exact q.1.liveOut_subset hwithin.ins
    · intro p hp
      obtain ⟨hin, hout⟩ := hdone p hp
      exact ⟨List.Subset.trans hin (hgrow.ins _), List.Subset.trans hout (hgrow.outs _)⟩

theorem Rising.sweep (h : Rising flow l) :
    Rising flow (sweep flow l) ∧ Within l (sweep flow l) ∧
      ∀ (b : BlockId) (fb : FlowBlock), flow[b]? = some fb →
        fb.liveIn (fb.liveOut l.liveIn) ⊆ (sweep flow l).liveIn.getD b [] ∧
          fb.liveOut l.liveIn ⊆ (sweep flow l).liveOut.getD b [] := by
  obtain ⟨hrising, hwithin, hdone⟩ := h.foldr_update flow.zipIdx fun p hp =>
    mem_zipIdx_iff_getElem?.1 hp
  exact ⟨hrising, hwithin, fun b fb hb => hdone (fb, b) (mem_zipIdx_iff_getElem?.2 hb)⟩

/-! ### Sweeps end with the least solution -/

theorem below_of_getD {a b : List LiveSet} (hlen : a.length = b.length)
    (h : ∀ i, a.getD i [] ⊆ b.getD i []) : Below a b := by
  refine forall₂_iff_get.2 ⟨hlen, fun i ha hb => ?_⟩
  have hi := h i
  rwa [getD_eq_getElem _ _ ha, getD_eq_getElem _ _ hb] at hi

def weight (l : Liveness) : Nat := size l.liveIn + size l.liveOut

theorem Rising.weight_le {l' : Liveness} (h : Rising flow l) (h' : Rising flow l')
    (hle : Within l l') : l.weight ≤ l'.weight ∧ (l ≠ l' → l.weight < l'.weight) := by
  obtain ⟨hin, hin'⟩ := size_lt (below_of_getD (h.lengthIn.trans h'.lengthIn.symm) hle.ins)
    h.ascendingIn h'.ascendingIn
  obtain ⟨hout, hout'⟩ := size_lt (below_of_getD (h.lengthOut.trans h'.lengthOut.symm) hle.outs)
    h.ascendingOut h'.ascendingOut
  refine ⟨Nat.add_le_add hin hout, fun hne => ?_⟩
  by_cases heq : l.liveIn = l'.liveIn
  · have hother : l.liveOut ≠ l'.liveOut := by
      intro heq'
      cases l
      cases l'
      exact hne (congrArg₂ Liveness.mk heq heq')
    exact Nat.add_lt_add_of_le_of_lt hin (hout' hother)
  · exact Nat.add_lt_add_of_lt_of_le (hin' heq) hout

theorem rising_analyze (flow : List FlowBlock) : Rising flow (analyze flow) := by
  have hgrowing := (step_analyze flow).2
  refine ⟨hgrowing.length, length_map _, hgrowing.ascending, ?_,
    ⟨fun _ => List.Subset.refl _, fun _ => List.Subset.refl _⟩, ?_, ?_⟩
  · intro s hs
    obtain ⟨fb, -, rfl⟩ := mem_map.1 hs
    exact fb.pairwise_liveOut _
  · intro b fb hb
    rw [liveIn_analyze hb]
    exact List.Subset.refl _
  · intro b fb hb
    rw [liveOut_analyze hb]
    exact List.Subset.refl _

theorem Rising.eq_analyze (h : Rising flow l) (hfix : Liveness.sweep flow l = l) :
    l = analyze flow := by
  obtain ⟨-, -, hclosed⟩ := h.sweep
  rw [hfix] at hclosed
  have hin : ∀ b, (analyze flow).liveIn.getD b [] ⊆ l.liveIn.getD b [] := by
    refine fun b => liveIn_subset_of_closed l.inSet (fun b fb hb v hv => ?_) b
    refine (hclosed b fb hb).1 (FlowBlock.mem_liveIn.2 ⟨?_, hv.2⟩)
    refine FlowNode.mem_foldr_liveBefore.2 (FlowNode.foldr_needs_subset ?_ hv.1)
    exact fun w hw => FlowBlock.mem_liveOut.2 hw
  have hout : ∀ b, (analyze flow).liveOut.getD b [] ⊆ l.liveOut.getD b [] := by
    intro b
    cases hb : flow[b]? with
    | none => simp [analyze, hb]
    | some fb =>
      rw [liveOut_analyze hb]
      exact List.Subset.trans (fb.liveOut_subset hin) (hclosed b fb hb).2
  by_contra hne
  have hlt := (h.weight_le (rising_analyze flow) h.below).2 hne
  have hle := ((rising_analyze flow).weight_le h ⟨hin, hout⟩).1
  omega

theorem Rising.sweeps (n : Nat) : ∀ {l : Liveness}, Rising flow l →
    (analyze flow).weight < l.weight + n → Sweeps flow l (analyze flow) := by
  induction n with
  | zero =>
    intro l h hn
    have := (h.weight_le (rising_analyze flow) h.below).1
    omega
  | succ n ih =>
    intro l h hn
    by_cases hfix : Liveness.sweep flow l = l
    · rw [← h.eq_analyze hfix]
      exact .done hfix
    · obtain ⟨hrising, hwithin, -⟩ := h.sweep
      have hgrow := (h.weight_le hrising hwithin).2 (Ne.symm hfix)
      exact .again hfix (ih hrising (by omega))

theorem sweeps_analyze (flow : List FlowBlock) : Sweeps flow (empty flow) (analyze flow) :=
  (rising_empty flow).sweeps ((analyze flow).weight + 1) (by omega)

end Liveness

namespace Function

theorem mem_liveOut_iff {f : Function} (hb : b < f.blocks.length) {v : ValueId} :
    v ∈ f.liveness.liveOut.getD b [] ↔
      (∃ s ∈ (f.block b).succs, ∃ phi ∈ (f.block s).phis, ∃ src,
        phi.source? b = some src ∧ src.id? = some v) ∨
      ∃ s ∈ (f.block b).succs, v ∈ f.liveness.liveIn.getD s [] := by
  rw [liveness, Liveness.liveOut_analyze (getElem?_flow hb), FlowBlock.mem_liveOut]
  refine or_congr_left ?_
  simp only [flowBlock, exitUses, mem_flatMap, mem_filterMap, Option.bind_eq_some_iff]

/-- The live sets of a built function are what they should be. Live out of a block is what its
successors' phis take from it and what its successors need. Live in is what some path from the
beginning of the block reads before it is defined. Sweeps from empty sets end with these sets; they
solve the equations, and no solution has smaller sets. -/
theorem liveness_exact {f : Function} (hf : f.IsBuilt) :
    (∀ b < f.blocks.length, ∀ v, v ∈ f.liveness.liveOut.getD b [] ↔
      (∃ s ∈ (f.block b).succs, ∃ phi ∈ (f.block s).phis, ∃ src,
        phi.source? b = some src ∧ src.id? = some v) ∨
      ∃ s ∈ (f.block b).succs, v ∈ f.liveness.liveIn.getD s []) ∧
    (∀ b < f.blocks.length, ∀ v,
      v ∈ f.liveness.liveIn.getD b [] ↔ f.ReadFrom v (.phis b)) ∧
    Liveness.Sweeps f.flow (.empty f.flow) f.liveness ∧
    Liveness.Solves f.flow f.liveness.inSet f.liveness.outSet ∧
    ∀ ins outs, Liveness.Solves f.flow ins outs → ∀ b < f.blocks.length,
      f.liveness.inSet b ⊆ ins b ∧ f.liveness.outSet b ⊆ outs b := by
  have hlength : f.flow.length = f.blocks.length := by simp [flow, blockIds]
  exact ⟨fun b hb v => mem_liveOut_iff hb, fun b hb v => hf.wellFormed.mem_liveIn_iff hb,
    Liveness.sweeps_analyze f.flow, Liveness.solves_analyze f.flow,
    fun ins outs h b hb => h.least (hlength.symm ▸ hb)⟩

/-- In the sample, a path from the loop's beginning stores through the first parameter; the counter,
which the loop reads as well, is written there by a phi. -/
theorem readFrom_drain :
    drain.IsBuilt ∧ drain.ReadFrom 0 (.phis 1) ∧ ¬drain.ReadFrom 2 (.phis 1) := by
  obtain ⟨-, hin, -⟩ := liveness_exact isBuilt_drain
  exact ⟨isBuilt_drain, (hin 1 (by decide) 0).1 (by decide),
    fun h => absurd ((hin 1 (by decide) 2).2 h) (by decide)⟩

end Function

end SsaBackend
