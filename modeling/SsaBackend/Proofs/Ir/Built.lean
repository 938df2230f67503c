import SsaBackend.Ir.WellFormed
import Mathlib.Data.List.Nodup

/-!
# Built functions

The operations on drafts as data, so that "any function that can be made" is a statement about lists of
operations, and the rules that every such function keeps once `Draft.build` has accepted it. The
rules are collected in `Function.WellFormed`; everything about built functions is proved from them.

Two of the rules are not checked by `build`, because no operation can break them: parameters and
destinations of phis are never constants.
-/

namespace SsaBackend

open List

namespace Draft

/-- One operation on a draft. -/
inductive Call
  | param (ty : Ty)
  | temp (ty : Ty)
  | block (label : String)
  | push (b : BlockId) (i : Instruction)
  | binop (b : BlockId) (op : BinOp) (lhs rhs : Value)
  | call (b : BlockId) (callee : String) (args : List Value) (ret : Option Ty)
  | load (b : BlockId) (src : Value)
  | store (b : BlockId) (addr src : Value)
  | phi (b : BlockId) (ty : Ty) (sources : List (BlockId × Value))
  | addPhiSource (b : BlockId) (dst : Value) (pred : BlockId) (src : Value)
  | terminate (b : BlockId) (t : Terminator)

/-- The draft after an operation. -/
def apply (d : Draft) : Call → Draft
  | .param ty => (d.param ty).2
  | .temp ty => (d.temp ty).2
  | .block label => (d.block label).2
  | .push b i => d.push b i
  | .binop b op lhs rhs => (d.binop b op lhs rhs).2
  | .call b callee args ret => (d.call b callee args ret).2
  | .load b src => (d.load b src).2
  | .store b addr src => d.store b addr src
  | .phi b ty sources => (d.phi b ty sources).2
  | .addPhiSource b dst pred src => d.addPhiSource b dst pred src
  | .terminate b t => d.terminate b t

/-- The draft that a list of operations makes from nothing. -/
def ofCalls (name : String) (ret : Option Ty) (calls : List Call) : Draft :=
  calls.foldl apply (.empty name ret)

end Draft

/-- A function that some list of operations makes and `Draft.build` accepts. -/
def Function.IsBuilt (f : Function) : Prop :=
  ∃ name ret calls, (Draft.ofCalls name ret calls).build = .ok f

/-- The ids that a block reads: in phis, instructions and the terminator. -/
def Block.uses (b : Block) : List ValueId :=
  b.phis.flatMap Phi.uses ++ b.instructions.flatMap Instruction.uses ++ b.terminator.uses

/-- What holds of every built function. -/
structure Function.WellFormed (f : Function) : Prop where
  name : isFunctionName f.name = true
  hasEntry : 0 < f.blocks.length
  symbols : ∀ b ∈ f.blocks, isSymbol b.label = true
  labels : (f.blocks.map Block.label).Nodup
  targets : ∀ b ∈ f.blocks, ∀ s ∈ b.succs, s < f.blocks.length
  entry : ∀ b ∈ f.blocks, 0 ∉ b.succs
  params : ∀ p ∈ f.params, p.isConstant = false
  phis : ∀ b ∈ f.blocks, ∀ phi ∈ b.phis, phi.dst.isConstant = false
  covers : ∀ b, ∀ phi ∈ (f.block b).phis, phi.covers (f.preds b) = true
  dsts : ∀ b ∈ f.blocks, ∀ i ∈ b.instructions, ∀ d, i.dst? = some d → d.isConstant = false
  nodup : f.definedValues.Nodup
  defined : ∀ b ∈ f.blocks, ∀ v ∈ b.uses, v ∈ f.definedValues

namespace Draft

variable {d : Draft}

/-! ### What operations add -/

/-- Parameters and destinations of phis have property `A`, and the instructions of each block `B`. -/
structure Holds (d : Draft) (A : Value → Prop) (B : BlockId → Instruction → Prop) : Prop where
  params : ∀ p ∈ d.params, A p
  blocks : ∀ b blk, d.blocks[b]? = some blk →
    (∀ phi ∈ blk.phis, A phi.dst) ∧ ∀ i ∈ blk.instructions, B b i

namespace Holds

variable {A : Value → Prop} {B : BlockId → Instruction → Prop}

theorem modifyBlock (h : d.Holds A B) {b : BlockId} {g : DraftBlock → DraftBlock}
    (hg : ∀ blk, d.blocks[b]? = some blk →
      (∀ phi ∈ (g blk).phis, A phi.dst) ∧ ∀ i ∈ (g blk).instructions, B b i) :
    (d.modifyBlock b g).Holds A B := by
  refine ⟨h.params, fun k blk hblk => ?_⟩
  rw [Draft.modifyBlock, getElem?_modify] at hblk
  obtain ⟨old, hold, rfl⟩ := Option.map_eq_some_iff.1 hblk
  split
  · next heq =>
    subst heq
    exact hg old hold
  · exact h.blocks k old hold

theorem push (h : d.Holds A B) {b : BlockId} {i : Instruction} (hi : B b i) :
    (d.push b i).Holds A B :=
  h.modifyBlock fun blk hblk => ⟨(h.blocks b blk hblk).1,
    forall_mem_append.2 ⟨(h.blocks b blk hblk).2, forall_mem_singleton.2 hi⟩⟩

theorem map_dst_addSource (dst : Value) (pred : BlockId) (src : Value) (phis : List Phi) :
    (addSource dst pred src phis).map Phi.dst = phis.map Phi.dst := by
  induction phis with
  | nil => rfl
  | cons phi phis ih =>
    simp only [addSource]
    split
    · rfl
    · rw [map_cons, map_cons, ih]

/-- An operation takes the next id for the value that it makes, or none at all. Only `push` adds
an instruction with a destination that it did not make. -/
theorem apply (h : d.Holds A B) (c : Call)
    (hfresh : d.nextId < (d.apply c).nextId → ∀ v : Value, v.id? = some d.nextId → A v)
    (hmade : ∀ b i, (∀ v, i.dst? = some v → A v) → B b i)
    (hpush : ∀ b i, c = .push b i → B b i) : (d.apply c).Holds A B := by
  have htemp : { d with nextId := d.nextId + 1 }.Holds A B := ⟨h.params, h.blocks⟩
  -- an instruction that the builder makes has the id it has just taken
  have hown : ∀ {b i} ty, d.nextId < (d.apply c).nextId → i.dst? = some (.temporary d.nextId ty) →
      B b i := by
    intro b i ty hlt hi
    refine hmade b i fun v hv => hfresh hlt v ?_
    cases hi.symm.trans hv
    rfl
  cases c with
  | param ty =>
    have hvalue := hfresh (Nat.lt_succ_self _) (.parameter d.nextId d.params.length ty) rfl
    exact ⟨forall_mem_append.2 ⟨h.params, forall_mem_singleton.2 hvalue⟩, h.blocks⟩
  | temp ty => exact htemp
  | block label =>
    refine ⟨h.params, fun b blk hblk => ?_⟩
    rw [Draft.apply, block, getElem?_append] at hblk
    split at hblk
    · exact h.blocks b blk hblk
    · obtain rfl := mem_singleton.1 (mem_of_getElem? hblk)
      simp
  | push b i => exact h.push (hpush b i rfl)
  | binop b op lhs rhs => exact htemp.push (hown _ (Nat.lt_succ_self _) rfl)
  | call b callee args ret =>
    cases ret with
    | none => exact h.push (hmade b _ (by rintro _ ⟨⟩))
    | some ty => exact htemp.push (hown ty (Nat.lt_succ_self _) rfl)
  | load b src => exact htemp.push (hown _ (Nat.lt_succ_self _) rfl)
  | store b addr src => exact h.push (hmade b _ (by rintro _ ⟨⟩))
  | phi b ty sources =>
    refine htemp.modifyBlock fun blk hblk => ?_
    obtain ⟨hphis, hinstrs⟩ := h.blocks b blk hblk
    have hvalue := hfresh (Nat.lt_succ_self _) (.temporary d.nextId ty) rfl
    exact ⟨forall_mem_append.2 ⟨hphis, forall_mem_singleton.2 hvalue⟩, hinstrs⟩
  | addPhiSource b dst pred src =>
    refine h.modifyBlock fun blk hblk => ?_
    obtain ⟨hphis, hinstrs⟩ := h.blocks b blk hblk
    refine ⟨?_, hinstrs⟩
    rw [← forall_mem_map (f := Phi.dst) (P := A)] at hphis ⊢
    rwa [map_dst_addSource]
  | terminate b t => exact h.modifyBlock fun blk hblk => h.blocks b blk hblk

end Holds

/-- Whether the builder hands out an id for a call. -/
def Call.takesId : Call → Bool
  | param _ | temp _ | binop _ _ _ _ | load _ _ | phi _ _ _ => true
  | call _ _ _ ret => ret.isSome
  | block _ | push _ _ | store _ _ _ | addPhiSource _ _ _ _ | terminate _ _ => false

theorem nextId_apply (d : Draft) (c : Call) :
    (d.apply c).nextId = d.nextId + if c.takesId then 1 else 0 := by
  cases c with
  | call b callee args ret => cases ret <;> rfl
  | _ => rfl

theorem nextId_foldl (calls : List Call) (d : Draft) :
    (calls.foldl apply d).nextId = d.nextId + calls.countP Call.takesId := by
  induction calls generalizing d with
  | nil => rfl
  | cons c calls ih =>
    rw [foldl_cons, ih, nextId_apply, countP_cons]
    omega

theorem holds_ofCalls {A : Value → Prop} {B : BlockId → Instruction → Prop} {name : String}
    {ret : Option Ty} {calls : List Call}
    (hfresh : ∀ id < (ofCalls name ret calls).nextId, ∀ v : Value, v.id? = some id → A v)
    (hmade : ∀ b i, (∀ v, i.dst? = some v → A v) → B b i)
    (hpush : ∀ b i, .push b i ∈ calls → B b i) : (ofCalls name ret calls).Holds A B := by
  suffices hrun : ∀ d : Draft, d.Holds A B →
      (∀ id < (calls.foldl apply d).nextId, ∀ v : Value, v.id? = some id → A v) →
      (calls.foldl apply d).Holds A B from hrun _ ⟨by simp [empty], by simp [empty]⟩ hfresh
  clear hfresh
  induction calls with
  | nil => exact fun d h _ => h
  | cons c calls ih =>
    intro d h hfresh
    refine ih (fun b i hi => hpush b i (mem_cons_of_mem _ hi)) _ (h.apply c ?_ hmade ?_) hfresh
    · intro hlt
      refine hfresh _ (Nat.lt_of_lt_of_le hlt ?_)
      rw [foldl_cons, nextId_foldl]
      exact Nat.le_add_right _ _
    · rintro b i rfl
      exact hpush b i mem_cons_self

/-! ### What each group of faults checks -/

theorem labelFaults_eq_nil_iff {bs : List DraftBlock} {seen : List String} :
    d.labelFaults seen bs = [] ↔
      (∀ b ∈ bs, isSymbol b.label = true) ∧ (bs.map DraftBlock.label).Nodup ∧
        ∀ b ∈ bs, b.label ∉ seen := by
  induction bs generalizing seen with
  | nil => simp [labelFaults]
  | cons b bs ih =>
    have hhead : (if !isSymbol b.label then [BuildError.invalidName b.label]
        else if seen.contains b.label then [.duplicateLabel d.name b.label] else []) = [] ↔
        isSymbol b.label = true ∧ b.label ∉ seen := by
      cases isSymbol b.label <;> simp
    have hseen : (∀ b' ∈ bs, b'.label ∉ b.label :: seen) ↔
        b.label ∉ bs.map DraftBlock.label ∧ ∀ b' ∈ bs, b'.label ∉ seen := by
      simp only [mem_cons, not_or, mem_map, not_exists, not_and, forall_and]
    rw [labelFaults, append_eq_nil_iff, hhead, ih, hseen, map_cons, nodup_cons,
      forall_mem_cons, forall_mem_cons]
    tauto

theorem definitionFaults_eq_nil_iff {ss : List Site} {seen : List ValueId} :
    d.definitionFaults seen ss = [] ↔
      (∀ s ∈ ss, d.siteFaults s = []) ∧ (ss.filterMap Site.def?).Nodup ∧
        ∀ v ∈ ss.filterMap Site.def?, v ∉ seen := by
  induction ss generalizing seen with
  | nil => simp [definitionFaults]
  | cons s ss ih =>
    rw [definitionFaults, append_eq_nil_iff, forall_mem_cons]
    cases hdef : s.def? with
    | none => rw [filterMap_cons_none hdef, ih, and_assoc]
    | some v =>
      have hseen : (∀ w ∈ ss.filterMap Site.def?, w ∉ v :: seen) ↔
          v ∉ ss.filterMap Site.def? ∧ ∀ w ∈ ss.filterMap Site.def?, w ∉ seen := by
        constructor
        · intro h
          exact ⟨fun hv => h v hv mem_cons_self, fun w hw hmem =>
            h w hw (mem_cons_of_mem _ hmem)⟩
        · rintro ⟨hv, h⟩ w hw hmem
          rcases mem_cons.1 hmem with rfl | hmem
          · exact hv hw
          · exact h w hw hmem
      have hfresh : (if seen.contains v then [BuildError.redefined d.name v] else []) = [] ↔
          v ∉ seen := by
        simp
      simp only [filterMap_cons_some hdef, nodup_cons, forall_mem_cons,
        append_eq_nil_iff, hfresh, ih, hseen]
      tauto

theorem targetFaults_eq_nil_iff :
    d.targetFaults = [] ↔ ∀ b ∈ d.blocks,
      ∃ t, b.terminator = some t ∧ ∀ s ∈ t.successors, s < d.blocks.length := by
  rw [targetFaults, flatMap_eq_nil_iff]
  refine forall₂_congr fun b _ => ?_
  cases b.terminator with
  | none => simp
  | some t => simp

theorem mem_sites_iff {s : Site} : s ∈ d.sites ↔
    (∃ p ∈ d.params, s = .param p) ∨ ∃ b blk, d.blocks[b]? = some blk ∧
      ((∃ phi ∈ blk.phis, s = .phi blk.label (d.preds b) phi) ∨
        ∃ i ∈ blk.instructions, s = .instruction i) := by
  simp only [sites, mem_append, mem_map, mem_flatMap, Prod.exists,
    mem_zipIdx_iff_getElem?, eq_comm (a := s)]
  exact or_congr_right exists_comm

theorem forall_siteFaults_iff : (∀ s ∈ d.sites, d.siteFaults s = []) ↔
    (∀ b (blk : DraftBlock), d.blocks[b]? = some blk →
        ∀ phi ∈ blk.phis, phi.covers (d.preds b) = true) ∧
      ∀ b ∈ d.blocks, ∀ i ∈ b.instructions, ∀ v, i.dst? = some v → v.isConstant = false := by
  have hphi : ∀ label preds phi, d.siteFaults (.phi label preds phi) = [] ↔
      phi.covers preds = true := by
    intro label preds phi
    simp only [siteFaults]
    cases phi.covers preds <;> simp
  have hinstr : ∀ i, d.siteFaults (.instruction i) = [] ↔
      ∀ v, i.dst? = some v → v.isConstant = false := by
    intro i
    simp only [siteFaults]
    cases i.dst? with
    | none => simp
    | some v => cases hv : v.isConstant <;> simp [hv]
  constructor
  · intro h
    refine ⟨fun b blk hblk phi hphi' => ?_, fun blk hblk i hi => ?_⟩
    · exact (hphi _ _ _).1 (h _ (mem_sites_iff.2 (.inr ⟨b, blk, hblk, .inl ⟨phi, hphi', rfl⟩⟩)))
    · obtain ⟨b, hb⟩ := mem_iff_getElem?.1 hblk
      exact (hinstr i).1 (h _ (mem_sites_iff.2 (.inr ⟨b, blk, hb, .inr ⟨i, hi, rfl⟩⟩)))
  · rintro ⟨hphis, hdsts⟩ s hs
    obtain ⟨p, -, rfl⟩ | ⟨b, blk, hblk, ⟨phi, hmem, rfl⟩ | ⟨i, hi, rfl⟩⟩ := mem_sites_iff.1 hs
    · rfl
    · exact (hphi _ _ _).2 (hphis b blk hblk phi hmem)
    · exact (hinstr i).2 (hdsts blk (mem_of_getElem? hblk) i hi)

/-! ### From the draft to the function -/

@[simp] theorem succs_toBlock (b : DraftBlock) : b.toBlock.succs = b.succs := by
  unfold DraftBlock.toBlock Block.succs DraftBlock.succs
  cases b.terminator with
  | none => rfl
  | some t => rfl

@[simp] theorem uses_toBlock (b : DraftBlock) : b.toBlock.uses = b.uses := by
  unfold DraftBlock.toBlock Block.uses DraftBlock.uses
  cases b.terminator with
  | none => rfl
  | some t => rfl

theorem block_toFunction (d : Draft) (b : BlockId) :
    d.blocks[b]? = none ∧ d.toFunction.block b = default ∨
      ∃ blk, d.blocks[b]? = some blk ∧ d.toFunction.block b = blk.toBlock := by
  cases hb : d.blocks[b]? with
  | none => exact .inl ⟨rfl, by simp [Function.block, toFunction, hb]⟩
  | some blk => exact .inr ⟨blk, rfl, by simp [Function.block, toFunction, hb]⟩

theorem preds_toFunction (d : Draft) (b : BlockId) : d.toFunction.preds b = d.preds b := by
  unfold Function.preds preds toFunction
  rw [map_map]
  congr 1
  exact map_congr_left fun blk _ => succs_toBlock blk

theorem definedValues_toFunction (d : Draft) : d.toFunction.definedValues = d.defs := by
  have hblock : ∀ (bs : List DraftBlock) (n : Nat),
      ((bs.zipIdx n).flatMap fun b =>
        b.1.phis.map (Site.phi b.1.label (d.preds b.2)) ++
          b.1.instructions.map Site.instruction).filterMap Site.def? =
        (bs.map DraftBlock.toBlock).flatMap Block.defs := by
    intro bs
    induction bs with
    | nil => simp
    | cons b bs ih =>
      intro n
      simp only [zipIdx_cons, flatMap_cons, filterMap_append, ih, map_cons,
        filterMap_map, Block.defs, Block.phiDefs, DraftBlock.toBlock]
      rfl
  unfold Function.definedValues Draft.defs sites Function.paramIds toFunction
  rw [filterMap_append, hblock d.blocks 0, filterMap_map]
  rfl

end Draft

theorem Function.IsBuilt.wellFormed {f : Function} (h : f.IsBuilt) : f.WellFormed := by
  obtain ⟨name, ret, calls, hbuild⟩ := h
  -- calls of the builder hand out ids, so no parameter and no destination is a literal
  have hids : (Draft.ofCalls name ret calls).Holds (·.isConstant = false) fun _ _ => True := by
    refine Draft.holds_ofCalls (fun id _ v hv => ?_) (fun _ _ _ => trivial) fun _ _ _ => trivial
    rw [← Bool.not_eq_true, ← Value.id?_eq_none_iff, hv]
    exact Option.some_ne_none id
  generalize Draft.ofCalls name ret calls = d at hbuild hids
  obtain ⟨hfaults, rfl⟩ := Draft.build_eq_ok_iff.1 hbuild
  simp only [Draft.faults, append_eq_nil_iff] at hfaults
  obtain ⟨⟨⟨⟨⟨⟨hname, hentry⟩, hlabels⟩, htargets⟩, hback⟩, hdefs⟩, huses⟩ := hfaults
  obtain ⟨hsymbols, hnodup, -⟩ := Draft.labelFaults_eq_nil_iff.1 hlabels
  obtain ⟨hsites, hdefined, -⟩ := Draft.definitionFaults_eq_nil_iff.1 hdefs
  obtain ⟨hcovers, hdsts⟩ := Draft.forall_siteFaults_iff.1 hsites
  have hpreds : d.preds 0 = [] := by
    unfold Draft.backEdgeFaults at hback
    split at hback
    · rename_i hempty
      exact isEmpty_iff.1 hempty
    · cases hback
  have hblocks : ∀ {b : Block}, b ∈ d.toFunction.blocks → ∃ blk ∈ d.blocks, blk.toBlock = b :=
    fun hb => mem_map.1 hb
  have hlength : d.toFunction.blocks.length = d.blocks.length := length_map _
  -- a kind of fault for each field, read off the draft block behind a block
  refine ⟨?_, ?_, ?_, ?_, ?_, ?_, hids.params, ?_, ?_, ?_, ?_, ?_⟩
  · unfold Draft.nameFaults at hname
    split at hname
    · assumption
    · cases hname
  · unfold Draft.entryFaults at hentry
    split at hentry
    · cases hentry
    · rename_i hne
      rw [hlength]
      exact length_pos_iff.2 (by simpa using hne)
  · intro b hb
    obtain ⟨blk, hblk, rfl⟩ := hblocks hb
    exact hsymbols blk hblk
  · rw [Draft.toFunction, map_map]
    exact hnodup
  · intro b hb s hs
    obtain ⟨blk, hblk, rfl⟩ := hblocks hb
    obtain ⟨t, ht, hsucc⟩ := Draft.targetFaults_eq_nil_iff.1 htargets blk hblk
    rw [Draft.succs_toBlock, DraftBlock.succs, ht] at hs
    rw [hlength]
    exact hsucc s hs
  · intro b hb h0
    obtain ⟨p, hp⟩ := List.mem_iff_getElem?.1 hb
    obtain ⟨hlt, hget⟩ := List.getElem?_eq_some_iff.1 hp
    have hmem : p ∈ d.toFunction.preds 0 := by
      refine Function.mem_preds_iff.2 ⟨hlt, ?_⟩
      simpa [Function.block, hp] using h0
    rw [Draft.preds_toFunction, hpreds] at hmem
    cases hmem
  · intro b hb
    obtain ⟨blk, hblk, rfl⟩ := hblocks hb
    obtain ⟨index, hindex⟩ := List.mem_iff_getElem?.1 hblk
    exact (hids.blocks index blk hindex).1
  · intro b phi hphi
    rw [Draft.preds_toFunction]
    rcases d.block_toFunction b with ⟨-, heq⟩ | ⟨blk, hblk, heq⟩ <;> rw [heq] at hphi
    · cases hphi
    · exact hcovers b blk hblk phi hphi
  · intro b hb
    obtain ⟨blk, hblk, rfl⟩ := hblocks hb
    exact hdsts blk hblk
  · rw [Draft.definedValues_toFunction]
    exact hdefined
  · intro b hb v hv
    obtain ⟨blk, hblk, rfl⟩ := hblocks hb
    rw [Draft.uses_toBlock] at hv
    rw [Draft.definedValues_toFunction]
    have hused : v ∈ d.uses := mem_flatMap.2 ⟨blk, hblk, hv⟩
    have := filter_eq_nil_iff.1 (map_eq_nil_iff.1 huses) v hused
    simpa using this

/-! ### A sample -/

/-- Makes a function that adds up what `next` returns for each number from the second parameter down
to 1, and stores every partial sum through the first parameter. -/
def Draft.drainCalls : List Draft.Call :=
  [.param .ptr, .param .int, .block "entry", .block "loop", .block "done",
    .phi 1 .int [(0, .parameter 1 1 .int)], .phi 1 .int [(0, .constant 0 .int)],
    .call 1 "next" [.temporary 2 .int] (some .int),
    .binop 1 .add (.temporary 3 .int) (.temporary 4 .int),
    .store 1 (.parameter 0 0 .ptr) (.temporary 5 .int),
    .binop 1 .sub (.temporary 2 .int) (.constant 1 .int),
    .addPhiSource 1 (.temporary 2 .int) 1 (.temporary 6 .int),
    .addPhiSource 1 (.temporary 3 .int) 1 (.temporary 5 .int),
    .terminate 0 (.branch 1), .terminate 1 (.condBranch (.temporary 6 .int) 1 2),
    .terminate 2 (.ret (some (.temporary 5 .int)))]

/-- The sample function. -/
def Function.drain : Function := (Draft.ofCalls "drain" (some .int) Draft.drainCalls).toFunction

theorem Function.isBuilt_drain : Function.drain.IsBuilt :=
  ⟨"drain", some .int, Draft.drainCalls, Draft.build_eq_ok_iff.2 ⟨by decide, rfl⟩⟩

end SsaBackend
