import SsaBackend.Liveness
import Mathlib.Data.List.Sort
import Mathlib.Algebra.Order.Ring.Int

/-!
# Liveness is sound

An id is live at a point when some path through the code reaches a read of it without passing a
definition (`Function.LiveAt`). This module proves that the sets of `Liveness.analyze` hold every id
that is live in this sense.

The analysis repeats one round of the equations until nothing changes, and stops after a fixed number
of rounds in any case. So the first half shows that this number suffices. Live sets are ascending
lists, a round only adds members, and all members are read somewhere; hence every round but the
last makes the total length of the sets grow, up to a bound (`Liveness.step_analyze`). The second
half is an induction over the path.
-/

namespace SsaBackend

open List

variable {v : ValueId} {out : LiveSet}

namespace Ascending

/-! ### Ascending lists as sets -/

variable {s : List Nat}

theorem pairwise_insert (x : Nat) (h : s.Pairwise (· < ·)) : (insert x s).Pairwise (· < ·) := by
  induction s with
  | nil => exact pairwise_singleton _ x
  | cons y ys ih =>
    obtain ⟨hy, hys⟩ := pairwise_cons.1 h
    simp only [insert]
    split
    · rename_i hxy
      refine pairwise_cons.2 ⟨?_, h⟩
      intro z hz
      rcases mem_cons.1 hz with rfl | hz
      · exact hxy
      · exact Nat.lt_trans hxy (hy z hz)
    · split
      · exact h
      · refine pairwise_cons.2 ⟨?_, ih hys⟩
        intro z hz
        rcases mem_insert.1 hz with rfl | hz
        · omega
        · exact hy z hz

theorem pairwise_insertAll (xs : List Nat) (h : s.Pairwise (· < ·)) :
    (insertAll s xs).Pairwise (· < ·) := by
  unfold insertAll
  induction xs generalizing s with
  | nil => exact h
  | cons x xs ih => exact ih (pairwise_insert x h)

theorem pairwise_ofList (xs : List Nat) : (ofList xs).Pairwise (· < ·) :=
  pairwise_insertAll xs .nil

theorem pairwise_erase (x : Nat) (h : s.Pairwise (· < ·)) : (erase x s).Pairwise (· < ·) :=
  h.filter _

theorem length_le_of_subset {t : List Nat} (hs : s.Pairwise (· < ·)) (h : s ⊆ t) :
    s.length ≤ t.length :=
  (subperm_of_subset hs.nodup h).length_le

theorem eq_of_subset_of_length_le {t : List Nat} (hs : s.Pairwise (· < ·))
    (ht : t.Pairwise (· < ·)) (h : s ⊆ t) (hlen : t.length ≤ s.length) : s = t :=
  ((subperm_of_subset hs.nodup h).perm_of_length_le hlen).eq_of_pairwise' hs ht

end Ascending

/-! ### One round -/

namespace FlowNode

theorem pairwise_liveBefore (n : FlowNode) {after : LiveSet} (h : after.Pairwise (· < ·)) :
    (n.liveBefore after).Pairwise (· < ·) := by
  unfold liveBefore
  cases n.def? with
  | none => exact Ascending.pairwise_insertAll _ h
  | some d => exact Ascending.pairwise_insertAll _ (Ascending.pairwise_erase d h)

theorem foldr_liveBefore_subset {ns : List FlowNode} {out' : LiveSet} (h : out ⊆ out') :
    ns.foldr liveBefore out ⊆ ns.foldr liveBefore out' := by
  induction ns with
  | nil => exact h
  | cons n ns ih =>
    intro v hv
    rw [foldr_cons, mem_liveBefore] at hv ⊢
    exact hv.imp (fun hv => ⟨ih hv.1, hv.2⟩) id

theorem mem_uses_of_mem_foldr {ns : List FlowNode} (h : v ∈ ns.foldr liveBefore out) :
    v ∈ ns.flatMap FlowNode.uses ∨ v ∈ out := by
  induction ns with
  | nil => exact .inr h
  | cons n ns ih =>
    rw [foldr_cons, mem_liveBefore] at h
    rw [flatMap_cons, mem_append]
    rcases h with ⟨h, -⟩ | h
    · exact (ih h).imp .inr id
    · exact .inl (.inl h)

end FlowNode

namespace FlowBlock

theorem mem_liveOut {b : FlowBlock} {ins : List LiveSet} :
    v ∈ b.liveOut ins ↔ v ∈ b.exitUses ∨ ∃ s ∈ b.succs, v ∈ ins.getD s [] := by
  simp [liveOut]

theorem mem_liveIn {b : FlowBlock} : v ∈ b.liveIn out ↔ v ∈ b.liveAtStart out ∧ v ∉ b.phiDefs := by
  simp [liveIn]

theorem liveOut_subset (b : FlowBlock) {ins ins' : List LiveSet}
    (h : ∀ s, ins.getD s [] ⊆ ins'.getD s []) : b.liveOut ins ⊆ b.liveOut ins' := by
  intro v hv
  rw [mem_liveOut] at hv ⊢
  exact hv.imp id fun ⟨s, hs, hv⟩ => ⟨s, hs, h s hv⟩

theorem liveIn_subset (b : FlowBlock) {out' : LiveSet} (h : out ⊆ out') :
    b.liveIn out ⊆ b.liveIn out' := by
  intro v hv
  rw [mem_liveIn] at hv ⊢
  exact ⟨FlowNode.foldr_liveBefore_subset h hv.1, hv.2⟩

theorem pairwise_liveOut (b : FlowBlock) (ins : List LiveSet) :
    (b.liveOut ins).Pairwise (· < ·) :=
  Ascending.pairwise_insertAll _ (Ascending.pairwise_ofList _)

theorem pairwise_liveIn (b : FlowBlock) (h : out.Pairwise (· < ·)) :
    (b.liveIn out).Pairwise (· < ·) := by
  refine List.Pairwise.filter _ ?_
  unfold liveAtStart
  induction b.nodes with
  | nil => exact h
  | cons n ns ih => exact n.pairwise_liveBefore ih

end FlowBlock

namespace Liveness

def Below (a b : List LiveSet) : Prop := List.Forall₂ (· ⊆ ·) a b

theorem Below.getD {a b : List LiveSet} (h : Below a b) (i : BlockId) :
    a.getD i [] ⊆ b.getD i [] := by
  induction h generalizing i with
  | nil => simp
  | cons hst _ ih =>
    cases i with
    | zero => simpa using hst
    | succ i => simpa using ih i

theorem Below.step {a b : List LiveSet} (flow : List FlowBlock) (h : Below a b) :
    Below (step flow a) (step flow b) := by
  unfold Below Liveness.step
  rw [forall₂_map_left_iff, forall₂_map_right_iff]
  exact forall₂_same.2 fun blk _ => blk.liveIn_subset (blk.liveOut_subset h.getD)

def allReads (flow : List FlowBlock) : LiveSet := Ascending.ofList (flow.flatMap FlowBlock.reads)

structure Growing (flow : List FlowBlock) (ins : List LiveSet) : Prop where
  length : ins.length = flow.length
  ascending : ∀ s ∈ ins, s.Pairwise (· < ·)
  read : ∀ s ∈ ins, s ⊆ allReads flow
  below : Below ins (step flow ins)

theorem growing_empty (flow : List FlowBlock) : Growing flow (flow.map fun _ => []) := by
  refine ⟨length_map _, by simp, by simp, ?_⟩
  unfold Below Liveness.step
  rw [forall₂_map_left_iff, forall₂_map_right_iff]
  exact forall₂_same.2 fun _ _ => nil_subset _

variable {ins : List LiveSet}

theorem Growing.step {flow : List FlowBlock} (h : Growing flow ins) :
    Growing flow (step flow ins) := by
  refine ⟨length_map _, ?_, ?_, h.below.step flow⟩
  · intro s hs
    obtain ⟨b, -, rfl⟩ := mem_map.1 hs
    exact b.pairwise_liveIn (b.pairwise_liveOut ins)
  · intro s hs v hv
    obtain ⟨b, hb, rfl⟩ := mem_map.1 hs
    have hreads : ∀ {w}, w ∈ b.reads → w ∈ allReads flow := fun hw =>
      Ascending.mem_ofList.2 (mem_flatMap.2 ⟨b, hb, hw⟩)
    rcases FlowNode.mem_uses_of_mem_foldr (FlowBlock.mem_liveIn.1 hv).1 with hv | hv
    · exact hreads (mem_append_left _ hv)
    · rcases FlowBlock.mem_liveOut.1 hv with hv | ⟨t, -, hv⟩
      · exact hreads (mem_append_right _ hv)
      · rw [getD_eq_getElem?_getD] at hv
        cases hget : ins[t]? with
        | none => simp [hget] at hv
        | some u => exact h.read u (mem_of_getElem? hget) (by simpa [hget] using hv)

/-! ### The rounds end -/

def size (ins : List LiveSet) : Nat := (ins.map List.length).sum

theorem size_lt {a b : List LiveSet} (h : Below a b) (ha : ∀ s ∈ a, s.Pairwise (· < ·))
    (hb : ∀ s ∈ b, s.Pairwise (· < ·)) : size a ≤ size b ∧ (a ≠ b → size a < size b) := by
  induction h with
  | nil => exact ⟨Nat.le_refl _, fun h => absurd rfl h⟩
  | @cons s t ss ts hst hrest ih =>
    obtain ⟨hs, hss⟩ := forall_mem_cons.1 ha
    obtain ⟨ht, hts⟩ := forall_mem_cons.1 hb
    obtain ⟨hle, hlt⟩ := ih hss hts
    have hhead := Ascending.length_le_of_subset hs hst
    simp only [size, map_cons, sum_cons] at hle hlt ⊢
    refine ⟨by omega, ?_⟩
    intro hne
    by_cases htail : ss = ts
    · have hstrict : s.length < t.length := by
        refine Nat.lt_of_not_le fun hlen => hne ?_
        rw [htail, Ascending.eq_of_subset_of_length_le hs ht hst hlen]
      omega
    · have := hlt htail
      omega

theorem size_le_mul {n : Nat} (h : ∀ s ∈ ins, s.length ≤ n) : size ins ≤ ins.length * n := by
  induction ins with
  | nil => exact Nat.zero_le _
  | cons s ins ih =>
    obtain ⟨hs, hins⟩ := forall_mem_cons.1 h
    have := ih hins
    simp only [size, map_cons, sum_cons, length_cons, Nat.succ_mul] at this ⊢
    omega

theorem Growing.size_le {flow : List FlowBlock} (h : Growing flow ins) :
    size ins ≤ flow.length * (allReads flow).length := by
  rw [← h.length]
  exact size_le_mul fun s hs => Ascending.length_le_of_subset (h.ascending s hs) (h.read s hs)

theorem stabilize_stable {α : Type} [DecidableEq α] {g : α → α} {Inv : α → Prop} {measure : α → Nat}
    {bound : Nat} (keep : ∀ x, Inv x → Inv (g x))
    (grow : ∀ x, Inv x → g x ≠ x → measure x < measure (g x))
    (le : ∀ x, Inv x → measure x ≤ bound) (n : Nat) :
    ∀ x, Inv x → bound < measure x + n →
      g (stabilize g n x) = stabilize g n x ∧ Inv (stabilize g n x) := by
  induction n with
  | zero =>
    intro x hx hn
    have := le x hx
    omega
  | succ n ih =>
    intro x hx hn
    unfold stabilize
    split
    · rename_i hfix
      exact ⟨hfix, hx⟩
    · rename_i hne
      have := grow x hx hne
      exact ih (g x) (keep x hx) (by omega)

theorem step_analyze (flow : List FlowBlock) :
    step flow (analyze flow).liveIn = (analyze flow).liveIn ∧
      Growing flow (analyze flow).liveIn := by
  refine stabilize_stable (fun _ h => Growing.step h) ?_ (fun _ h => Growing.size_le h) _ _
    (growing_empty flow) ?_
  · intro ins h hne
    exact (size_lt h.below h.ascending h.step.ascending).2 fun heq => hne heq.symm
  · unfold rounds
    change _ < _ + (flow.length * (allReads flow).length + 1)
    omega

end Liveness

/-! ### Paths -/

namespace Function

/-- Before instruction `k` of block `b`, counted from 0, some path reaches a read of `v` without
passing a definition of it. The point behind the last instruction is that of the terminator; from
there the path goes on at the start of a successor, behind its phis. What a phi takes is read at the
end of the predecessor that supplies it. -/
inductive LiveAt (f : Function) : (b : BlockId) → (k : Nat) → (v : ValueId) → Prop
  /-- The instruction reads it. -/
  | read {b : BlockId} {k : Nat} {i : Instruction} {v : ValueId} :
      (f.block b).instructions[k]? = some i → v ∈ i.uses → LiveAt f b k v
  /-- The instruction does not define it, and it is live behind. -/
  | pass {b : BlockId} {k : Nat} {i : Instruction} {v : ValueId} :
      (f.block b).instructions[k]? = some i → i.def? ≠ some v → LiveAt f b (k + 1) v →
      LiveAt f b k v
  /-- The terminator reads it. -/
  | terminator {b : BlockId} {v : ValueId} :
      v ∈ (f.block b).terminator.uses → LiveAt f b (f.block b).instructions.length v
  /-- A phi of a successor takes it from this block. -/
  | phi {b s : BlockId} {phi : Phi} {src : Value} {v : ValueId} :
      s ∈ (f.block b).succs → phi ∈ (f.block s).phis → phi.source? b = some src →
      src.id? = some v → LiveAt f b (f.block b).instructions.length v
  /-- It is live behind the phis of a successor, and none of them defines it. -/
  | successor {b s : BlockId} {v : ValueId} :
      s ∈ (f.block b).succs → v ∉ (f.block s).phiDefs → LiveAt f s 0 v →
      LiveAt f b (f.block b).instructions.length v

/-- The live sets of a function. -/
def liveness (f : Function) : Liveness := Liveness.analyze f.flow

def liveOut (f : Function) (b : BlockId) : LiveSet := (f.flowBlock b).liveOut f.liveness.liveIn

def liveBefore (f : Function) (b : BlockId) (k : Nat) : LiveSet :=
  ((f.block b).nodes.drop k).foldr FlowNode.liveBefore (f.liveOut b)

variable {f : Function} {b : BlockId}

theorem getElem?_flow (hb : b < f.blocks.length) : f.flow[b]? = some (f.flowBlock b) := by
  simp [flow, blockIds, hb]

theorem getD_liveIn (hb : b < f.blocks.length) :
    f.liveness.liveIn.getD b [] = (f.flowBlock b).liveIn (f.liveOut b) := by
  have hstep := (Liveness.step_analyze f.flow).1
  have hget : (Liveness.step f.flow f.liveness.liveIn)[b]? =
      some ((f.flowBlock b).liveIn (f.liveOut b)) := by
    rw [Liveness.step, List.getElem?_map, getElem?_flow hb]
    rfl
  rw [liveness, ← hstep, getD_eq_getElem?_getD]
  exact congrArg (·.getD []) hget

theorem getElem?_nodes {b : Block} {k : Nat} {i : Instruction}
    (h : b.instructions[k]? = some i) : b.nodes[k]? = some i.node := by
  have hlt := (List.getElem?_eq_some_iff.1 h).1
  rw [Block.nodes, List.getElem?_append_left (by simpa using hlt), List.getElem?_map, h]
  rfl

theorem drop_nodes (b : Block) : b.nodes.drop b.instructions.length = [b.terminator.node] := by
  rw [Block.nodes, drop_append_of_le_length (by simp), drop_eq_nil_of_le (by simp)]
  rfl

theorem liveBefore_of_getElem? {k : Nat} {i : Instruction}
    (h : (f.block b).instructions[k]? = some i) :
    f.liveBefore b k = i.node.liveBefore (f.liveBefore b (k + 1)) := by
  obtain ⟨hlt, hget⟩ := List.getElem?_eq_some_iff.1 (getElem?_nodes h)
  rw [liveBefore, List.drop_eq_getElem_cons hlt, hget]
  rfl

theorem mem_liveBefore_terminator :
    v ∈ f.liveBefore b (f.block b).instructions.length ↔
      v ∈ f.liveOut b ∨ v ∈ (f.block b).terminator.uses := by
  rw [liveBefore, drop_nodes, foldr_cons, foldr_nil, FlowNode.mem_liveBefore]
  simp [Terminator.node]

theorem mem_liveOut_of_succ {s : BlockId} (hs : s ∈ (f.block b).succs) (hlt : s < f.blocks.length)
    (hphi : v ∉ (f.block s).phiDefs) (hv : v ∈ f.liveBefore s 0) : v ∈ f.liveOut b := by
  refine FlowBlock.mem_liveOut.2 (.inr ⟨s, hs, ?_⟩)
  rw [getD_liveIn hlt]
  exact FlowBlock.mem_liveIn.2 ⟨hv, hphi⟩

theorem LiveAt.mem_liveBefore (targets : ∀ b, ∀ s ∈ (f.block b).succs, s < f.blocks.length)
    {k : Nat} (h : f.LiveAt b k v) : v ∈ f.liveBefore b k := by
  induction h with
  | read hi hv =>
    rw [liveBefore_of_getElem? hi]
    exact FlowNode.mem_liveBefore.2 (.inr hv)
  | pass hi hdef _ ih =>
    rw [liveBefore_of_getElem? hi]
    exact FlowNode.mem_liveBefore.2 (.inl ⟨ih, hdef⟩)
  | terminator hv => exact mem_liveBefore_terminator.2 (.inr hv)
  | @phi b s phi src v hs hphi hsrc hid =>
    refine mem_liveBefore_terminator.2 (.inl (FlowBlock.mem_liveOut.2 (.inl ?_)))
    refine mem_flatMap.2 ⟨s, hs, mem_filterMap.2 ⟨phi, hphi, ?_⟩⟩
    rw [hsrc]
    exact hid
  | @successor b s v hs hphi _ ih =>
    exact mem_liveBefore_terminator.2 (.inl (mem_liveOut_of_succ hs (targets b s hs) hphi ih))

end Function

end SsaBackend
