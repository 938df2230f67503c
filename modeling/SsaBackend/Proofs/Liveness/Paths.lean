import SsaBackend.Proofs.Interference
import Mathlib.Data.List.Chain

/-!
# Live sets hold exactly what is read on some path

The converse of the soundness of liveness: whatever the analysis finds live is read on some path
before it is defined again. The induction is over the rounds of the analysis, where soundness was
one over the path.

Paths are spelled out here as lists of points, each of which may read and define ids
(`Function.ReadFrom`), so that live sets are described without any notion of liveness
(`Function.WellFormed.mem_liveIn_iff`).
-/

namespace SsaBackend

open List

variable {b : BlockId}

namespace Function

variable {p : Point}

/-! ### Paths -/

/-- Where control can stand in a function. -/
inductive Point
  /-- At the beginning of block `b`, where its phis are written. -/
  | phis (b : BlockId)
  /-- At instruction `k` of block `b`, or at the terminator behind the last instruction. -/
  | node (b : BlockId) (k : Nat)
  /-- On the way from block `b` to its successor `s`, where the phis of `s` read. -/
  | edge (b s : BlockId)

/-- Control may pass from one point to another. -/
inductive Next (f : Function) : Point → Point → Prop
  | enter {b : BlockId} : Next f (.phis b) (.node b 0)
  | advance {b : BlockId} {k : Nat} : k < (f.block b).instructions.length →
      Next f (.node b k) (.node b (k + 1))
  | leave {b s : BlockId} : s ∈ (f.block b).succs →
      Next f (.node b (f.block b).instructions.length) (.edge b s)
  | arrive {b s : BlockId} : Next f (.edge b s) (.phis s)

/-- The id is read at a point: by an instruction, by a terminator, or by a phi on the way into its
block. -/
def ReadAt (f : Function) (v : ValueId) : Point → Prop
  | .phis _ => False
  | .node b k => (∃ i, (f.block b).instructions[k]? = some i ∧ v ∈ i.uses) ∨
      (k = (f.block b).instructions.length ∧ v ∈ (f.block b).terminator.uses)
  | .edge b s => ∃ phi ∈ (f.block s).phis, ∃ src, phi.source? b = some src ∧ src.id? = some v

/-- The id is defined at a point: by a phi, or by an instruction. -/
def DefinedAt (f : Function) (v : ValueId) : Point → Prop
  | .phis b => v ∈ (f.block b).phiDefs
  | .node b k => ∃ i, (f.block b).instructions[k]? = some i ∧ i.def? = some v
  | .edge _ _ => False

/-- Some finite path from `p` on ends at a point that reads `v`, and passes no point before it that
defines `v`. -/
def ReadFrom (f : Function) (v : ValueId) (p : Point) : Prop :=
  ∃ (front : List Point) (last : Point), (front ++ [last]).IsChain f.Next ∧
    (front ++ [last]).head? = some p ∧ (∀ q ∈ front, ¬f.DefinedAt v q) ∧ f.ReadAt v last

variable {f : Function} {v : ValueId}

theorem ReadFrom.here (h : f.ReadAt v p) : f.ReadFrom v p :=
  ⟨[], p, isChain_singleton p, rfl, by simp, h⟩

theorem ReadFrom.step {q : Point} (hnext : f.Next p q) (hdef : ¬f.DefinedAt v p)
    (h : f.ReadFrom v q) : f.ReadFrom v p := by
  obtain ⟨front, last, hchain, hhead, hfree, hread⟩ := h
  refine ⟨p :: front, last, ?_, rfl, forall_mem_cons.2 ⟨hdef, hfree⟩, hread⟩
  refine isChain_cons.2 ⟨fun q' hq' => ?_, hchain⟩
  cases hhead.symm.trans hq'
  exact hnext

theorem ReadFrom.rec_on {motive : Point → Prop} (h : f.ReadFrom v p)
    (here : ∀ p, f.ReadAt v p → motive p)
    (step : ∀ p q, f.Next p q → ¬f.DefinedAt v p → motive q → motive p) : motive p := by
  obtain ⟨front, last, hchain, hhead, hfree, hread⟩ := h
  induction front generalizing p with
  | nil =>
    obtain rfl := Option.some.inj hhead
    exact here _ hread
  | cons q front ih =>
    obtain rfl := Option.some.inj hhead
    obtain ⟨hnext, hchain⟩ := isChain_cons.1 hchain
    obtain ⟨hdef, hfree⟩ := forall_mem_cons.1 hfree
    obtain ⟨q', hq'⟩ : ∃ q', (front ++ [last]).head? = some q' := by
      cases front <;> exact ⟨_, rfl⟩
    exact step q q' (hnext q' hq') hdef (ih hchain hq' hfree)

def LiveAtPoint (f : Function) (v : ValueId) : Point → Prop
  | .phis b => v ∉ (f.block b).phiDefs ∧ f.LiveAt b 0 v
  | .node b k => f.LiveAt b k v
  | .edge b s => f.ReadAt v (.edge b s) ∨ v ∉ (f.block s).phiDefs ∧ f.LiveAt s 0 v

theorem ReadFrom.liveAtPoint (h : f.ReadFrom v p) : f.LiveAtPoint v p := by
  refine h.rec_on ?_ ?_
  · intro p hread
    cases p with
    | phis b => exact hread.elim
    | node b k =>
      rcases hread with ⟨i, hi, hv⟩ | ⟨rfl, hv⟩
      · exact .read hi hv
      · exact .terminator hv
    | edge b s => exact .inl hread
  · intro p q hnext hdef hq
    cases hnext with
    | enter => exact ⟨hdef, hq⟩
    | @advance b k hk =>
      have hi := List.getElem?_eq_getElem hk
      exact .pass hi (fun h => hdef ⟨_, hi, h⟩) hq
    | leave hs =>
      rcases hq with ⟨phi, hphi, src, hsrc, hid⟩ | ⟨hphi, hlive⟩
      · exact .phi hs hphi hsrc hid
      · exact .successor hs hphi hlive
    | arrive => exact .inr hq

theorem not_definedAt_terminator (b : BlockId) :
    ¬f.DefinedAt v (.node b (f.block b).instructions.length) := by
  rintro ⟨i, hi, -⟩
  simp at hi

theorem LiveAt.readFrom {k : Nat} (h : f.LiveAt b k v) : f.ReadFrom v (.node b k) := by
  induction h with
  | read hi hv => exact .here (.inl ⟨_, hi, hv⟩)
  | pass hi hdef _ ih =>
    refine .step (.advance (List.getElem?_eq_some_iff.1 hi).1) ?_ ih
    rintro ⟨j, hj, hjdef⟩
    cases hi.symm.trans hj
    exact hdef hjdef
  | terminator hv => exact .here (.inr ⟨rfl, hv⟩)
  | phi hs hphi hsrc hid =>
    exact .step (.leave hs) (not_definedAt_terminator _) (.here ⟨_, hphi, _, hsrc, hid⟩)
  | successor hs hphi _ ih =>
    refine .step (.leave hs) (not_definedAt_terminator _) ?_
    exact .step .arrive (fun h => h.elim) (.step .enter hphi ih)

theorem readFrom_phis_iff : f.ReadFrom v (.phis b) ↔ v ∉ (f.block b).phiDefs ∧ f.LiveAt b 0 v :=
  ⟨ReadFrom.liveAtPoint, fun ⟨hphi, hlive⟩ => .step .enter hphi hlive.readFrom⟩

/-! ### Rounds -/

theorem liveAt_of_mem_foldr {out : LiveSet}
    (hout : ∀ w ∈ out, f.LiveAt b (f.block b).instructions.length w) {k : Nat}
    (hk : k ≤ (f.block b).instructions.length)
    (hv : v ∈ ((f.block b).nodes.drop k).foldr FlowNode.liveBefore out) : f.LiveAt b k v := by
  induction hk using Nat.decreasingInduction generalizing v with
  | self =>
    rw [drop_nodes, List.foldr_cons, foldr_nil, FlowNode.mem_liveBefore] at hv
    rcases hv with ⟨hv, -⟩ | hv
    · exact hout v hv
    · exact .terminator hv
  | of_succ k hk ih =>
    have hi := List.getElem?_eq_getElem hk
    obtain ⟨hlt, hget⟩ := List.getElem?_eq_some_iff.1 (getElem?_nodes hi)
    rw [List.drop_eq_getElem_cons hlt, hget, List.foldr_cons, FlowNode.mem_liveBefore] at hv
    rcases hv with ⟨hv, hdef⟩ | hv
    · exact .pass hi hdef (ih hv)
    · exact .read hi hv

def Justified (f : Function) (ins : List LiveSet) : Prop :=
  ∀ b, ∀ v ∈ ins.getD b [], v ∉ (f.block b).phiDefs ∧ f.LiveAt b 0 v

theorem Justified.liveAt_of_mem_liveOut {ins : List LiveSet} (h : f.Justified ins)
    (hv : v ∈ (f.flowBlock b).liveOut ins) : f.LiveAt b (f.block b).instructions.length v := by
  rcases FlowBlock.mem_liveOut.1 hv with hv | ⟨s, hs, hv⟩
  · obtain ⟨s, hs, hv⟩ := mem_flatMap.1 hv
    obtain ⟨phi, hphi, hv⟩ := mem_filterMap.1 hv
    obtain ⟨src, hsrc, hid⟩ := Option.bind_eq_some_iff.1 hv
    exact .phi hs hphi hsrc hid
  · obtain ⟨hphi, hlive⟩ := h s v hv
    exact .successor hs hphi hlive

theorem Justified.step {ins : List LiveSet} (h : f.Justified ins) :
    f.Justified (Liveness.step f.flow ins) := by
  intro b v hv
  by_cases hb : b < f.blocks.length
  · rw [Liveness.step, getD_eq_getElem?_getD, getElem?_map, getElem?_flow hb] at hv
    obtain ⟨hv, hphi⟩ := FlowBlock.mem_liveIn.1 hv
    exact ⟨hphi, liveAt_of_mem_foldr (fun w => h.liveAt_of_mem_liveOut) (Nat.zero_le _) hv⟩
  · have hlen : (Liveness.step f.flow ins).length ≤ b := by
      simpa [Liveness.step, flow, blockIds] using hb
    simp [getD_eq_getElem?_getD, getElem?_eq_none hlen] at hv

end Function

theorem Liveness.stabilize_induction {α : Type} [DecidableEq α] {g : α → α} {motive : α → Prop}
    (keep : ∀ x, motive x → motive (g x)) (n : Nat) {x : α} (h : motive x) :
    motive (stabilize g n x) := by
  induction n generalizing x with
  | zero => exact h
  | succ n ih =>
    unfold stabilize
    split
    · exact h
    · exact ih (keep x h)

namespace Function

variable {f : Function} {v : ValueId}

theorem justified_liveIn (f : Function) : f.Justified f.liveness.liveIn := by
  refine Liveness.stabilize_induction (motive := f.Justified) (fun _ h => h.step) _ ?_
  intro b v hv
  simp at hv

theorem WellFormed.mem_liveIn_iff (wf : f.WellFormed) (hb : b < f.blocks.length) :
    v ∈ f.liveness.liveIn.getD b [] ↔ f.ReadFrom v (.phis b) := by
  rw [readFrom_phis_iff]
  constructor
  · exact f.justified_liveIn b v
  · rintro ⟨hphi, hlive⟩
    rw [getD_liveIn hb]
    exact FlowBlock.mem_liveIn.2 ⟨wf.mem_liveBefore hlive, hphi⟩

end Function

end SsaBackend
