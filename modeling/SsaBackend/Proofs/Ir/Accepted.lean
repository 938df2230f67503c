import SsaBackend.Proofs.Ir.Built
import Mathlib.Data.List.Perm.Subperm

/-!
# What is accepted

`Draft.WellMade` says what a function needs, one rule at a time and without the checks that enforce it:
names are words, blocks end in branches to blocks that exist, phis fit the edges into their block, no
id is defined twice, and every id that is read is defined. `Draft.build` accepts exactly such drafts, and
the links of the function that it makes are the targets of the terminators, read in both directions
(`Draft.build_iff_wellMade`).

Each group of faults is empty exactly if one or two of the rules hold. The one rule that takes an argument is
the one about phis: the check compares a phi with the predecessors of its block by length and by
membership either way, and that only amounts to "each exactly once" because no block precedes another
one twice.
-/

namespace SsaBackend

open List

/-! ### The rules -/

/-- A nonempty text of ASCII letters, digits and underscores. -/
def IsWord (text : String) : Prop :=
  text ≠ "" ∧ ∀ c ∈ text.toList,
    ('A' ≤ c ∧ c ≤ 'Z') ∨ ('a' ≤ c ∧ c ≤ 'z') ∨ ('0' ≤ c ∧ c ≤ '9') ∨ c = '_'

/-- The blocks that a terminator names. -/
def Terminator.targets : Terminator → List BlockId
  | ret _ => []
  | branch target => [target]
  | condBranch _ onTrue onFalse => [onTrue, onFalse]

/-- The ids that a block defines. -/
def DraftBlock.defs (b : DraftBlock) : List ValueId :=
  b.phis.filterMap (fun phi => phi.dst.id?) ++ b.instructions.filterMap Instruction.def?

namespace Draft

/-- Block `p` ends in a branch to `b`. -/
def Precedes (d : Draft) (p b : BlockId) : Prop :=
  ∃ blk t, d.blocks[p]? = some blk ∧ blk.terminator = some t ∧ b ∈ t.targets

/-- The ids that a draft defines: parameters, phis and results. -/
def definitions (d : Draft) : List ValueId :=
  d.params.filterMap Value.id? ++ d.blocks.flatMap DraftBlock.defs

/-- A draft that describes a function. -/
structure WellMade (d : Draft) : Prop where
  name : IsWord d.name
  nameStart : ∀ c, d.name.toList.head? = some c → ¬('0' ≤ c ∧ c ≤ '9')
  hasEntry : d.blocks ≠ []
  labels : ∀ b ∈ d.blocks, IsWord b.label
  distinct : (d.blocks.map DraftBlock.label).Nodup
  ends : ∀ b ∈ d.blocks, b.terminator ≠ none
  targets : ∀ p b, d.Precedes p b → b < d.blocks.length
  entry : ∀ p, ¬d.Precedes p 0
  /-- A phi lists a block once if it precedes that of the phi, and not at all otherwise. -/
  phis : ∀ b blk, d.blocks[b]? = some blk → ∀ phi ∈ blk.phis, ∀ p,
    (d.Precedes p b → (phi.sources.map Prod.fst).count p = 1) ∧
      (¬d.Precedes p b → (phi.sources.map Prod.fst).count p = 0)
  destinations : ∀ b ∈ d.blocks, ∀ i ∈ b.instructions, ∀ v, i.dst? = some v → v.isConstant = false
  once : d.definitions.Nodup
  defined : ∀ b ∈ d.blocks, ∀ v ∈ b.uses, v ∈ d.definitions

end Draft

/-! ### Names -/

theorem isDigit_iff (c : Char) : c.isDigit = true ↔ '0' ≤ c ∧ c ≤ '9' := by
  delta Char.isDigit
  rw [Bool.and_eq_true, decide_eq_true_eq, decide_eq_true_eq]
  exact Iff.rfl

theorem isAlphanum_or_iff (c : Char) : (c.isAlphanum || c == '_') = true ↔
    ('A' ≤ c ∧ c ≤ 'Z') ∨ ('a' ≤ c ∧ c ≤ 'z') ∨ ('0' ≤ c ∧ c ≤ '9') ∨ c = '_' := by
  delta Char.isAlphanum Char.isAlpha Char.isUpper Char.isLower Char.isDigit
  simp only [Bool.or_eq_true, Bool.and_eq_true, decide_eq_true_eq, beq_iff_eq, or_assoc]
  exact Iff.rfl

theorem isSymbol_iff (text : String) : isSymbol text = true ↔ IsWord text := by
  have hne : text.toList.isEmpty = false ↔ text ≠ "" := by simp
  simp only [isSymbol, IsWord, Bool.and_eq_true, Bool.not_eq_true', hne, all_eq_true,
    isAlphanum_or_iff]

theorem isFunctionName_iff (text : String) : isFunctionName text = true ↔
    IsWord text ∧ ∀ c, text.toList.head? = some c → ¬('0' ≤ c ∧ c ≤ '9') := by
  rw [isFunctionName, Bool.and_eq_true, isSymbol_iff]
  cases text.toList.head? with
  | none => simp
  | some c => simp [← isDigit_iff]

/-! ### Edges -/

theorem Terminator.mem_successors_iff {t : Terminator} {b : BlockId} :
    b ∈ t.successors ↔ b ∈ t.targets := by
  cases t with
  | ret | branch => rfl
  | condBranch c onTrue onFalse => by_cases h : onTrue = onFalse <;> simp [successors, targets, h]

theorem nodup_predecessors (succs : List (List BlockId)) (b : BlockId) :
    (predecessors succs b).Nodup := by
  unfold predecessors
  have hpairs : succs.zipIdx.Pairwise fun s s' => s.2 ≠ s'.2 := by
    rw [← pairwise_map (f := Prod.snd) (R := fun i j => i ≠ j), zipIdx_map_snd]
    exact nodup_range'
  refine hpairs.filterMap _ fun s s' hne p hp p' hp' => ?_
  split at hp <;> split at hp' <;> simp_all

namespace Draft

theorem mem_preds_iff {d : Draft} {p b : BlockId} : p ∈ d.preds b ↔ d.Precedes p b := by
  rw [← preds_toFunction, Function.mem_preds_iff]
  unfold Precedes
  rcases d.block_toFunction p with ⟨hp, heq⟩ | ⟨blk, hp, heq⟩ <;> rw [heq, hp]
  · have hnot : ¬p < d.toFunction.blocks.length := by
      simpa [toFunction] using getElem?_eq_none_iff.1 hp
    simp [hnot]
  · have hlt : p < d.blocks.length := (List.getElem?_eq_some_iff.1 hp).1
    rw [succs_toBlock]
    cases ht : blk.terminator with
    | none => simp [DraftBlock.succs, ht]
    | some t => simp [DraftBlock.succs, ht, toFunction, hlt, Terminator.mem_successors_iff]

end Draft

theorem Phi.covers_iff_count {phi : Phi} {preds : List BlockId} (hnodup : preds.Nodup) :
    phi.covers preds = true ↔ ∀ p, (p ∈ preds → (phi.sources.map Prod.fst).count p = 1) ∧
      (p ∉ preds → (phi.sources.map Prod.fst).count p = 0) := by
  have hperm : phi.covers preds = true ↔ preds.Perm (phi.sources.map Prod.fst) := by
    simp only [covers, Bool.and_eq_true, beq_iff_eq, all_eq_true, any_eq_true, contains_iff_mem]
    constructor
    · rintro ⟨⟨hlength, hsub⟩, -⟩
      have hsubset : preds ⊆ phi.sources.map Prod.fst := fun p hp => mem_map.2 (hsub p hp)
      exact (hnodup.subperm hsubset).perm_of_length_le (by simp [hlength])
    · intro h
      refine ⟨⟨by simpa using h.length_eq.symm, fun p hp => mem_map.1 (h.subset hp)⟩, ?_⟩
      exact fun s hs => h.symm.subset (mem_map_of_mem hs)
  rw [hperm, perm_iff_count]
  refine forall_congr' fun p => ?_
  by_cases hp : p ∈ preds
  · simp [hp, count_eq_one_of_mem hnodup hp, eq_comm]
  · simp [hp, count_eq_zero_of_not_mem hp, eq_comm]

namespace Draft

/-! ### What each group of faults checks -/

variable {d : Draft}

theorem nameFaults_eq_nil_iff : d.nameFaults = [] ↔
    IsWord d.name ∧ ∀ c, d.name.toList.head? = some c → ¬('0' ≤ c ∧ c ≤ '9') := by
  rw [← isFunctionName_iff, nameFaults]
  cases isFunctionName d.name <;> simp

theorem entryFaults_eq_nil_iff : d.entryFaults = [] ↔ d.blocks ≠ [] := by
  simp [entryFaults]

theorem backEdgeFaults_eq_nil_iff : d.backEdgeFaults = [] ↔ ∀ p, ¬d.Precedes p 0 := by
  have hnil : d.backEdgeFaults = [] ↔ d.preds 0 = [] := by simp [backEdgeFaults]
  rw [hnil, eq_nil_iff_forall_not_mem]
  exact forall_congr' fun p => not_congr mem_preds_iff

theorem forall_targets_iff :
    (∀ b ∈ d.blocks, ∃ t, b.terminator = some t ∧ ∀ s ∈ t.successors, s < d.blocks.length) ↔
      (∀ b ∈ d.blocks, b.terminator ≠ none) ∧ ∀ p b, d.Precedes p b → b < d.blocks.length := by
  constructor
  · intro h
    refine ⟨fun b hb => ?_, ?_⟩
    · obtain ⟨t, ht, -⟩ := h b hb
      simp [ht]
    · rintro p b ⟨blk, t, hblk, ht, hb⟩
      obtain ⟨t', ht', htargets⟩ := h blk (mem_of_getElem? hblk)
      obtain rfl : t = t' := Option.some.inj (ht.symm.trans ht')
      exact htargets b (Terminator.mem_successors_iff.2 hb)
  · rintro ⟨hends, htargets⟩ b hb
    obtain ⟨p, hp⟩ := mem_iff_getElem?.1 hb
    obtain ⟨t, ht⟩ := Option.ne_none_iff_exists'.1 (hends b hb)
    exact ⟨t, ht, fun s hs => htargets p s ⟨b, t, hp, ht, Terminator.mem_successors_iff.1 hs⟩⟩

theorem defs_eq (d : Draft) : d.defs = d.definitions := by
  rw [← definedValues_toFunction, Function.definedValues, Function.paramIds, toFunction,
    flatMap_map]
  rfl

theorem useFaults_eq_nil_iff :
    d.useFaults = [] ↔ ∀ b ∈ d.blocks, ∀ v ∈ b.uses, v ∈ d.definitions := by
  simp only [useFaults, map_eq_nil_iff, filter_eq_nil_iff, uses, mem_flatMap,
    defs_eq, Bool.not_eq_true', Bool.not_eq_false, contains_iff_mem]
  constructor
  · exact fun h b hb v hv => h v ⟨b, hb, hv⟩
  · rintro h v ⟨b, hb, hv⟩
    exact h b hb v hv

theorem faults_eq_nil_iff : d.faults = [] ↔ d.WellMade := by
  have hphis : (∀ b (blk : DraftBlock), d.blocks[b]? = some blk → ∀ phi ∈ blk.phis,
      phi.covers (d.preds b) = true) ↔ ∀ b (blk : DraftBlock), d.blocks[b]? = some blk →
        ∀ phi ∈ blk.phis, ∀ p, (d.Precedes p b → (phi.sources.map Prod.fst).count p = 1) ∧
          (¬d.Precedes p b → (phi.sources.map Prod.fst).count p = 0) := by
    refine forall_congr' fun b => forall_congr' fun blk => imp_congr_right fun _ =>
      forall₂_congr fun phi _ => ?_
    rw [Phi.covers_iff_count (show (d.preds b).Nodup from nodup_predecessors _ b)]
    simp only [mem_preds_iff]
  simp only [faults, append_eq_nil_iff, nameFaults_eq_nil_iff, entryFaults_eq_nil_iff,
    labelFaults_eq_nil_iff, targetFaults_eq_nil_iff, forall_targets_iff, backEdgeFaults_eq_nil_iff,
    definitionFaults_eq_nil_iff, forall_siteFaults_iff, hphis, useFaults_eq_nil_iff, isSymbol_iff]
  rw [show d.sites.filterMap Site.def? = d.definitions from defs_eq d]
  constructor
  · rintro ⟨⟨⟨⟨⟨⟨⟨hname, hstart⟩, hne⟩, hlabels, hdistinct, -⟩, hends, htargets⟩, hentry⟩,
      ⟨hphi, hdst⟩, honce, -⟩, huses⟩
    exact ⟨hname, hstart, hne, hlabels, hdistinct, hends, htargets, hentry, hphi, hdst, honce, huses⟩
  · intro h
    exact ⟨⟨⟨⟨⟨⟨⟨h.name, h.nameStart⟩, h.hasEntry⟩, h.labels, h.distinct, by simp⟩, h.ends, h.targets⟩,
      h.entry⟩, ⟨h.phis, h.destinations⟩, h.once, by simp⟩, h.defined⟩

end Draft

/-! ### Links -/

/-- A function whose links are consistent. -/
structure Function.Linked (f : Function) : Prop where
  edges : ∀ p b, p ∈ f.preds b ↔ b ∈ (f.block p).succs
  preds : ∀ b, (f.preds b).Nodup
  succs : ∀ b, (f.block b).succs.Nodup
  targets : ∀ p b, b ∈ (f.block p).succs ↔ b ∈ (f.block p).terminator.targets

theorem Function.linked (f : Function) : f.Linked where
  edges p b := by
    rw [mem_preds_iff, and_iff_right_iff_imp]
    intro hb
    by_contra hp
    have hnone : f.block p = default := by
      rw [block, getD_eq_getElem?_getD, getElem?_eq_none (Nat.le_of_not_lt hp)]
      rfl
    rw [hnone] at hb
    cases hb
  preds b := nodup_predecessors _ b
  succs b := Terminator.nodup_successors _
  targets p b := Terminator.mem_successors_iff

namespace Draft

/-- Building accepts exactly the drafts that keep the rules, whatever operations made them. The
function that it makes has the terminators of the draft, and its links are consistent. -/
theorem build_iff_wellMade (name : String) (ret : Option Ty) (calls : List Call) :
    ((∃ f, (ofCalls name ret calls).build = .ok f) ↔ (ofCalls name ret calls).WellMade) ∧
      ∀ f, (ofCalls name ret calls).build = .ok f → f.Linked ∧
        (ofCalls name ret calls).blocks.map DraftBlock.terminator =
          f.blocks.map (some ∘ Block.terminator) := by
  generalize ofCalls name ret calls = d
  constructor
  · simp only [build_eq_ok_iff, faults_eq_nil_iff, exists_and_left, exists_eq', and_true]
  · intro f hf
    obtain ⟨hfaults, rfl⟩ := build_eq_ok_iff.1 hf
    refine ⟨Function.linked _, ?_⟩
    rw [toFunction, List.map_map]
    refine List.map_congr_left fun b hb => ?_
    obtain ⟨t, ht⟩ := Option.ne_none_iff_exists'.1 ((faults_eq_nil_iff.1 hfaults).ends b hb)
    simp [DraftBlock.toBlock, ht]

/-- The sample keeps the rules, and its loop precedes itself and the block behind it. -/
theorem build_drain : (ofCalls "drain" (some .int) drainCalls).WellMade ∧
    ∃ f, (ofCalls "drain" (some .int) drainCalls).build = .ok f ∧ f.Linked ∧
      f.preds 1 = [0, 1] ∧ f.preds 2 = [1] := by
  obtain ⟨hiff, hlinks⟩ := build_iff_wellMade "drain" (some .int) drainCalls
  have hbuild : (ofCalls "drain" (some .int) drainCalls).build = .ok Function.drain :=
    build_eq_ok_iff.2 ⟨by decide, rfl⟩
  exact ⟨hiff.1 ⟨_, hbuild⟩, _, hbuild, (hlinks _ hbuild).1, by decide, by decide⟩

end Draft

end SsaBackend
