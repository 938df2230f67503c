import SsaBackend.Proofs.Schedule.Code
import SsaBackend.Proofs.Schedule.ParallelMove

/-!
# Values stay in their places

Between two instructions, every value that is live and was assigned is in its place
(`Placed.Holds`). Values that are not live may have lost their place to others.

* An instruction writes its result to a place that no other live value has, except that a copy may
  share the place of its source, which then holds the right word already.
* An edge moves all phis at once. Their places differ from each other and from those of the values
  that are live at the start of the block.
* A call changes no register of the pool and nothing on the stack.
* The code for parameters fetches those from the stack first, which leaves the argument registers
  alone, and then moves those from registers at once.
-/

namespace SsaBackend

open List

namespace Placed

variable {σ : Store} {env : Ssa.Env} {id : ValueId} {b : BlockId} {l : Location} {k : Nat}

structure Ready (p : Placed) : Prop where
  wf : p.func.WellFormed
  fits : p.allocation.Fits p.func p.target.allocatable
  argRegs : ∀ r ∈ p.target.argRegs, r ∉ p.target.allocatable
  scratch : p.target.cycleScratch ∉ p.target.allocatable

def Holds (p : Placed) (σ : Store) (env : Ssa.Env) (b : BlockId) (k : Nat) : Prop :=
  ∀ v x, p.func.LiveAt b k v → env v = some x →
    ∃ l, p.allocation.location? v = some l ∧ σ l = x

variable {p : Placed}

/-! ### Places -/

theorem Ready.total (h : p.Ready) : p.Total := fun v hv => (h.fits.domain v).2 hv

theorem place_of_id? {v : Value} (hid : v.id? = some id) (hl : p.allocation.location? id = some l) :
    p.place v = l.toOperand := by
  cases v with
  | constant => cases hid
  | parameter | temporary =>
    cases hid
    simp [place, hl]

theorem exists_id? {v : Value} (h : v.isConstant = false) : ∃ id, v.id? = some id := by
  refine Option.ne_none_iff_exists'.1 fun hnone => ?_
  rw [Value.id?_eq_none_iff, h] at hnone
  cases hnone

theorem Ready.exists_place (h : p.Ready) (hid : id ∈ p.func.definedValues) :
    ∃ l, p.allocation.location? id = some l :=
  Option.ne_none_iff_exists'.1 (h.total id hid)

theorem Ready.ne_register (h : p.Ready) {r : Register} (hl : p.allocation.location? id = some l)
    (hr : r ∉ p.target.allocatable) : l ≠ .register r := by
  rintro rfl
  exact hr (h.fits.pool id r hl)

theorem Ready.clobbered (h : p.Ready) (hl : p.allocation.location? id = some l)
    (value : Register → Int64) (σ : Store) : σ.clobbered p.target value l = σ l := by
  cases l with
  | stack => rfl
  | register r => simp [Store.clobbered, h.fits.pool id r hl]

theorem Holds.read (h : p.Holds σ env b k) {v : Value} {x : Int64}
    (hlive : ∀ id, v.id? = some id → p.func.LiveAt b k id) (hx : env.read v = some x) :
    σ.read (p.place v) = x := by
  cases v with
  | constant =>
    cases hx
    rfl
  | parameter id | temporary id =>
    obtain ⟨l, hl, hσ⟩ := h id x (hlive id rfl) hx
    rw [place_of_id? rfl hl, Store.read_toOperand, hσ]

theorem nodup_map_place {vs : List Value} (hids : ∀ v ∈ vs, v.isConstant = false)
    (hnodup : (vs.filterMap Value.id?).Nodup)
    (hplaced : ∀ id ∈ vs.filterMap Value.id?, ∃ l, p.allocation.location? id = some l)
    (hapart : ∀ v ∈ vs.filterMap Value.id?, ∀ w ∈ vs.filterMap Value.id?, v ≠ w →
      p.allocation.location? v ≠ p.allocation.location? w) : (vs.map p.place).Nodup := by
  induction vs with
  | nil => exact .nil
  | cons v vs ih =>
    obtain ⟨hv, hvs⟩ := forall_mem_cons.1 hids
    obtain ⟨id, hid⟩ := exists_id? hv
    rw [filterMap_cons_some hid] at hnodup hplaced hapart
    obtain ⟨hnot, hnodup⟩ := nodup_cons.1 hnodup
    refine nodup_cons.2 ⟨?_, ih hvs hnodup
      (fun w hw => hplaced w (mem_cons_of_mem _ hw))
      (fun w hw u hu => hapart w (mem_cons_of_mem _ hw) u (mem_cons_of_mem _ hu))⟩
    intro hmem
    obtain ⟨w, hw, heq⟩ := mem_map.1 hmem
    obtain ⟨id', hid'⟩ := exists_id? (hvs w hw)
    have hmem' : id' ∈ vs.filterMap Value.id? := mem_filterMap.2 ⟨w, hw, hid'⟩
    obtain ⟨l, hl⟩ := hplaced id mem_cons_self
    obtain ⟨l', hl'⟩ := hplaced id' (mem_cons_of_mem _ hmem')
    have hne : id ≠ id' := fun h => hnot (h ▸ hmem')
    rw [place_of_id? hid hl, place_of_id? hid' hl', Move.toOperand_inj] at heq
    exact hapart id mem_cons_self id' (mem_cons_of_mem _ hmem') hne (by rw [hl, hl', heq])

/-! ### Instructions -/

theorem Holds.clobbered (hp : p.Ready) (h : p.Holds σ env b k) (value : Register → Int64) :
    p.Holds (σ.clobbered p.target value) env b k := by
  intro v x hlive hx
  obtain ⟨l, hl, hσ⟩ := h v x hlive hx
  exact ⟨l, hl, by rw [hp.clobbered hl, hσ]⟩

theorem Holds.pass (h : p.Holds σ env b k) {i : Instruction}
    (hi : (p.func.block b).instructions[k]? = some i) (hdef : i.def? = none) :
    p.Holds σ env b (k + 1) := fun v x hlive hx =>
  h v x (.pass hi (by simp [hdef]) hlive) hx

theorem Holds.write (hp : p.Ready) (h : p.Holds σ env b k) {i : Instruction}
    (hi : (p.func.block b).instructions[k]? = some i) {dst : Value} {v : ValueId} {x : Int64}
    (hid : dst.id? = some v) (hdef : i.def? = some v) (hl : p.allocation.location? v = some l)
    (hcopy : ∀ d src, i = .load d src → σ.read (p.place src) = x) :
    p.Holds (σ.set l x) (env.assign dst x) b (k + 1) := by
  intro u y hlive hy
  simp only [Ssa.Env.assign, hid] at hy
  by_cases huv : u = v
  · subst huv
    rw [if_pos rfl] at hy
    cases hy
    exact ⟨l, hl, Store.set_self σ l x⟩
  · rw [if_neg huv] at hy
    have hbefore : p.func.LiveAt b k u :=
      .pass hi (by rw [hdef]; exact fun heq => huv (Option.some.inj heq).symm) hlive
    obtain ⟨l', hl', hσ⟩ := h u y hbefore hy
    refine ⟨l', hl', ?_⟩
    by_cases hll : l' = l
    · -- only a copy may share a place with a live value, and it shares that of its source
      subst hll
      rw [Store.set_self]
      by_cases hsrc : ∀ d src, i = .load d src → src.id? ≠ some u
      · exact absurd (hl.trans hl'.symm) (hp.fits.apart v u (Ne.symm huv) (.result hi hdef hlive hsrc))
      · push Not at hsrc
        obtain ⟨d, src, hload, hsrc⟩ := hsrc
        rw [← hcopy d src hload, place_of_id? hsrc hl', Store.read_toOperand, hσ]
    · rw [Store.set_of_ne hll, hσ]

/-! ### Assignments at once -/

theorem map_eq_of_mapM {α β : Type} {g : α → Option β} {word : α → β} {l : List α} {xs : List β}
    (hword : ∀ a ∈ l, ∀ x, g a = some x → word a = x) (h : l.mapM g = some xs) :
    l.map word = xs := by
  induction l generalizing xs with
  | nil =>
    cases h
    rfl
  | cons a l ih =>
    obtain ⟨ha, hl⟩ := forall_mem_cons.1 hword
    rw [mapM_cons] at h
    obtain ⟨x, hx, h⟩ := Option.bind_eq_some_iff.1 h
    obtain ⟨ys, hys, h⟩ := Option.bind_eq_some_iff.1 h
    cases h
    rw [map_cons, ha x hx, ih hl hys]

theorem assignAll_places {vs : List Value} {x : Int64} :
    ∀ {env : Ssa.Env}, env.assignAll (vs.map fun v => (v, σ.read (p.place v))) id = some x →
      (∃ v ∈ vs, v.id? = some id ∧ σ.read (p.place v) = x) ∨
        (id ∉ vs.filterMap Value.id? ∧ env id = some x) := by
  induction vs with
  | nil => exact fun h => .inr ⟨by simp, h⟩
  | cons v vs ih =>
    intro env h
    rcases @ih (env.assign v (σ.read (p.place v))) h with ⟨w, hw, hid⟩ | ⟨hnot, hx⟩
    · exact .inl ⟨w, mem_cons_of_mem _ hw, hid⟩
    · cases hv : v.id? with
      | none =>
        simp only [Ssa.Env.assign, hv] at hx
        rw [filterMap_cons_none hv]
        exact .inr ⟨hnot, hx⟩
      | some id' =>
        simp only [Ssa.Env.assign, hv] at hx
        rw [filterMap_cons_some hv]
        by_cases heq : id = id'
        · subst heq
          rw [if_pos rfl] at hx
          exact .inl ⟨v, mem_cons_self, hv, Option.some.inj hx⟩
        · rw [if_neg heq] at hx
          exact .inr ⟨by simp [heq, hnot], hx⟩

/-! ### Edges -/

theorem Ready.parallel_edgeMoves (h : p.Ready) (pred succ : BlockId) :
    Move.Parallel (.register p.target.cycleScratch) (p.edgeMoves pred succ) := by
  have hphi : ∀ id ∈ (p.func.block succ).phiDefs, ∃ l, p.allocation.location? id = some l :=
    fun id hid => h.exists_place (Function.mem_definedValues.2 (.inr (.inl ⟨succ, hid⟩)))
  have hids : ((p.func.block succ).phis.map Phi.dst).filterMap Value.id? =
      (p.func.block succ).phiDefs := by
    rw [filterMap_map]
    rfl
  have hconst : ∀ v ∈ (p.func.block succ).phis.map Phi.dst, v.isConstant = false := by
    intro v hv
    obtain ⟨phi, hmem, rfl⟩ := mem_map.1 hv
    exact h.wf.phis _ (Function.block_mem (Function.lt_length_of_mem_phis hmem)) phi hmem
  refine ⟨?_, ?_⟩
  · have hsub : ((p.edgeMoves pred succ).map Move.dst).Sublist
        (((p.func.block succ).phis.map Phi.dst).map p.place) := by
      unfold edgeMoves
      -- a phi without a source for this edge makes no move
      induction (p.func.block succ).phis with
      | nil => exact .slnil
      | cons phi phis ih =>
        cases hsrc : phi.source? pred with
        | none =>
          rw [filterMap_cons_none (by rw [hsrc]; rfl)]
          exact ih.cons _
        | some src =>
          rw [filterMap_cons_some (by rw [hsrc]; rfl)]
          exact ih.cons_cons _
    refine hsub.nodup (nodup_map_place hconst ?_ (by rwa [hids]) ?_)
    · rw [hids]
      exact h.wf.nodup_phiDefs succ
    · rw [hids]
      exact fun v hv w hw hne => h.fits.apart v w hne (.phis hv hw)
  · intro m hm
    obtain ⟨phi, hmem, hm⟩ := mem_filterMap.1 hm
    obtain ⟨src, -, rfl⟩ := Option.map_eq_some_iff.1 hm
    obtain ⟨id, hid⟩ := exists_id? (hconst _ (mem_map_of_mem hmem))
    obtain ⟨l, hl⟩ := hphi id (mem_filterMap.2 ⟨phi, hmem, hid⟩)
    exact ⟨l, place_of_id? hid hl, h.ne_register hl h.scratch⟩

theorem Holds.edge (hp : p.Ready) {σ' : Store} {succ : BlockId}
    (hsucc : succ ∈ (p.func.block b).succs)
    (h : p.Holds σ env b (p.func.block b).instructions.length) {xs : List Int64}
    (hxs : Ssa.phiWords p.func env b succ = some xs)
    (hmoved : Move.Moved (.register p.target.cycleScratch) (p.edgeMoves b succ) σ σ') :
    p.Holds σ' (env.assignAll (((p.func.block succ).phis.map Phi.dst).zip xs)) succ 0 := by
  -- the moves happen at once, so each phi gets the word that its source had in the block before
  have hword : ∀ phi ∈ (p.func.block succ).phis, ∀ x,
      (phi.source? b).bind env.read = some x → σ'.read (p.place phi.dst) = x := by
    intro phi hphi x hx
    obtain ⟨src, hsrc, hx⟩ := Option.bind_eq_some_iff.1 hx
    have hmem : (⟨p.place phi.dst, p.place src⟩ : Move) ∈ p.edgeMoves b succ :=
      mem_filterMap.2 ⟨phi, hphi, by rw [hsrc]; rfl⟩
    rw [hmoved.dst _ hmem]
    exact h.read (fun id hid => .phi hsucc hphi hsrc hid) hx
  have hwords : ((p.func.block succ).phis.map Phi.dst).zip xs =
      ((p.func.block succ).phis.map Phi.dst).map fun v => (v, σ'.read (p.place v)) := by
    rw [← map_eq_of_mapM hword hxs, map_map, zip_map']
    rfl
  rw [hwords]
  intro v x hlive hx
  obtain ⟨l, hl⟩ := hp.exists_place (hp.wf.mem_definedValues_of_liveAt hlive)
  refine ⟨l, hl, ?_⟩
  rcases assignAll_places hx with ⟨d, -, hid, hread⟩ | ⟨hnot, hx⟩
  · rw [← hread, place_of_id? hid hl, Store.read_toOperand]
  · rw [filterMap_map] at hnot
    have hnot : v ∉ (p.func.block succ).phiDefs := hnot
    obtain ⟨l', hl', hσ⟩ := h v x (.successor hsucc hnot hlive) hx
    cases hl.symm.trans hl'
    rw [hmoved.frame l (hp.ne_register hl hp.scratch), hσ]
    -- an id that lives through the edge clashes with every phi, so no move writes its place
    intro m hm heq
    obtain ⟨phi, hphi, hm⟩ := mem_filterMap.1 hm
    obtain ⟨src, -, rfl⟩ := Option.map_eq_some_iff.1 hm
    obtain ⟨id, hid⟩ := exists_id?
      (hp.wf.phis _ (Function.block_mem (Function.lt_length_of_mem_phis hphi)) phi hphi)
    have hmem : id ∈ (p.func.block succ).phiDefs := mem_filterMap.2 ⟨phi, hphi, hid⟩
    obtain ⟨l', hl'⟩ :=
      hp.exists_place (Function.mem_definedValues.2 (.inr (.inl ⟨succ, hmem⟩)))
    rw [place_of_id? hid hl', Move.toOperand_inj] at heq
    have hne : id ≠ v := fun h => hnot (h ▸ hmem)
    exact hp.fits.apart id v hne (.phiLive hmem hlive) (by rw [hl', heq, hl])

/-! ### Moves and parameters as steps -/

section

variable (prog : Machine.Program) (w : World)

theorem steps_moves {ms : List Move} (rest : List Step) (trace : List Event) :
    ∀ {σ σ' : Store}, Move.run ms σ = some σ' →
      Steps (Machine.step prog w) ms.length
        ⟨ms.map (fun m => .move m.dst m.src) ++ rest, σ, trace⟩ ⟨rest, σ', trace⟩ := by
  induction ms with
  | nil =>
    intro σ σ' h
    cases h
    exact .refl _
  | cons m ms ih =>
    intro σ σ' h
    obtain ⟨σ₁, hwrite, hrun⟩ := Option.bind_eq_some_iff.1 h
    exact .head (by simp [Machine.step, hwrite]) (ih hrun)

theorem steps_parallelMove {ms : List Move}
    (h : Move.Parallel (.register p.target.cycleScratch) ms) (rest : List Step) (σ : Store)
    (trace : List Event) :
    ∃ n σ', Steps (Machine.step prog w) n ⟨p.parallelMove ms ++ rest, σ, trace⟩
        ⟨rest, σ', trace⟩ ∧
      Move.Moved (.register p.target.cycleScratch) ms σ σ' := by
  obtain ⟨σ', hrun, hmoved⟩ := Move.run_sequentialize h σ
  exact ⟨_, σ', steps_moves prog w rest trace hrun, hmoved⟩

theorem steps_fetch {ds : List Operand} (rest : List Step) (trace : List Event)
    (hnodup : ds.Nodup) (hwritable : ∀ d ∈ ds, ∃ l : Location, d = l.toOperand) :
    ∀ {k : Nat}, k + ds.length ≤ prog.incoming.length → ∀ σ : Store,
      ∃ σ', Steps (Machine.step prog w) ds.length
          ⟨(ds.zipIdx k).map (fun d => Step.incoming d.2 d.1) ++ rest, σ, trace⟩
          ⟨rest, σ', trace⟩ ∧
        (∀ (j : Nat) d, ds[j]? = some d → prog.incoming[k + j]? = some (σ'.read d)) ∧
        ∀ l : Location, (∀ d ∈ ds, d ≠ l.toOperand) → σ' l = σ l := by
  induction ds with
  | nil => exact fun _ σ => ⟨σ, .refl _, by simp, fun _ _ => rfl⟩
  | cons d ds ih =>
    intro k hlen σ
    obtain ⟨⟨l, rfl⟩, htail⟩ := forall_mem_cons.1 hwritable
    obtain ⟨hd, hrest⟩ := nodup_cons.1 hnodup
    have hk : k < prog.incoming.length := by
      rw [length_cons] at hlen
      omega
    have hlen' : k + 1 + ds.length ≤ prog.incoming.length := by
      rw [length_cons] at hlen
      omega
    obtain ⟨σ', hsteps, hdone, hframe⟩ := ih hrest htail hlen' (σ.set l prog.incoming[k])
    refine ⟨σ', .head ?_ hsteps, ?_, ?_⟩
    · simp [Machine.step, hk]
    · intro j e hj
      cases j with
      | zero =>
        cases hj
        rw [Store.read_toOperand, hframe l fun e he heq => hd (heq ▸ he), Store.set_self]
        exact getElem?_eq_getElem hk
      | succ j =>
        rw [show k + (j + 1) = k + 1 + j by omega]
        exact hdone j e hj
    · intro l' hl'
      obtain ⟨hhead, hothers⟩ := forall_mem_cons.1 hl'
      rw [hframe l' hothers]
      exact Store.set_of_ne fun heq => hhead (heq ▸ rfl)

end

theorem Ready.paramPlaces (h : p.Ready) : (p.func.params.map p.place).Nodup ∧
    ∀ d ∈ p.func.params.map p.place,
      ∃ l : Location, d = l.toOperand ∧ ∀ r, r ∉ p.target.allocatable → l ≠ .register r := by
  have hplaced : ∀ id ∈ p.func.paramIds, ∃ l, p.allocation.location? id = some l :=
    fun id hid => h.exists_place (Function.mem_definedValues.2 (.inl hid))
  refine ⟨?_, ?_⟩
  · exact nodup_map_place h.wf.params h.wf.nodup_paramIds hplaced
      fun v hv w hw hne => h.fits.apart v w hne (.params hv hw)
  · intro d hd
    obtain ⟨v, hv, rfl⟩ := mem_map.1 hd
    obtain ⟨id, hid⟩ := exists_id? (h.wf.params v hv)
    obtain ⟨l, hl⟩ := hplaced id (mem_filterMap.2 ⟨v, hv, hid⟩)
    exact ⟨l, place_of_id? hid hl, fun r hr => h.ne_register hl hr⟩

theorem map_fst_zip_eq_take {α β : Type} (as : List α) (bs : List β) :
    (as.zip bs).map Prod.fst = as.take bs.length := by
  induction as generalizing bs with
  | nil => simp
  | cons a as ih =>
    cases bs with
    | nil => simp
    | cons b bs => simp [ih]

theorem Ready.steps_params (h : p.Ready) (steps : List Step) {args : List Int64}
    (hlen : args.length = p.func.params.length) (hpass : Machine.Passes p.target args σ) (w : World)
    (rest : List Step) :
    ∃ n σ', Steps (Machine.step (.ofSteps p.func p.target steps args) w) n
        ⟨p.paramCode ++ rest, σ, []⟩ ⟨rest, σ', []⟩ ∧
      p.func.params.map (fun v => σ'.read (p.place v)) = args := by
  obtain ⟨hnodup, hplaces⟩ := h.paramPlaces
  obtain ⟨ds, hds⟩ : ∃ ds, p.func.params.map p.place = ds := ⟨_, rfl⟩
  rw [hds] at hnodup hplaces
  have hdslen : ds.length = args.length := by rw [← hds, length_map, hlen]
  have hdst : p.paramMoves.map Move.dst = ds.take p.target.argRegs.length := by
    rw [paramMoves, hds, map_map]
    exact map_fst_zip_eq_take ds p.target.argRegs
  -- stack-passed parameters first: that leaves the argument registers alone
  have hstack : 0 + (ds.drop p.target.argRegs.length).length ≤
      (Machine.Program.ofSteps p.func p.target steps args).incoming.length := by
    simp [Machine.Program.ofSteps, hdslen]
  obtain ⟨σ₁, hfetch, hfetched, hframe⟩ := steps_fetch _ w
    (p.parallelMove p.paramMoves ++ rest) [] (hnodup.sublist (drop_sublist _ _))
    (fun d hd => (hplaces d (mem_of_mem_drop hd)).imp fun l hl => hl.1) hstack σ
  have hparallel : Move.Parallel (.register p.target.cycleScratch) p.paramMoves := by
    refine ⟨hdst ▸ hnodup.sublist (take_sublist _ _), ?_⟩
    intro m hm
    have hmem : m.dst ∈ ds.take p.target.argRegs.length := hdst ▸ mem_map_of_mem hm
    obtain ⟨l, hl, hne⟩ := hplaces m.dst (mem_of_mem_take hmem)
    exact ⟨l, hl, hne _ h.scratch⟩
  obtain ⟨n, σ', hmoves, hmoved⟩ := steps_parallelMove _ w hparallel rest σ₁ []
  have hrun := hfetch.trans hmoves
  rw [← append_assoc, ← hds, ← paramCode] at hrun
  refine ⟨_, σ', hrun, ?_⟩
  -- then each parameter is looked up in the phase that placed it
  have hread : ∀ (i : Nat) d x, ds[i]? = some d → args[i]? = some x → σ'.read d = x := by
    intro i d x hd hx
    obtain ⟨l, rfl, hne⟩ := hplaces d (mem_of_getElem? hd)
    by_cases hi : i < p.target.argRegs.length
    · have hr := getElem?_eq_getElem hi
      have hmem : (⟨l.toOperand, .register p.target.argRegs[i]⟩ : Move) ∈ p.paramMoves := by
        refine mem_map.2 ⟨(l.toOperand, p.target.argRegs[i]), ?_, rfl⟩
        rw [hds]
        refine mem_of_getElem? (i := i) (getElem?_zip_eq_some.2 ⟨hd, hr⟩)
      rw [hmoved.dst _ hmem]
      refine (hframe (.register p.target.argRegs[i]) ?_).trans (hpass i _ x hr hx)
      intro d' hd' heq
      obtain ⟨l', hl', hne'⟩ := hplaces d' (mem_of_mem_drop hd')
      refine hne' _ (h.argRegs _ (getElem_mem hi)) (Move.toOperand_inj.1 ?_)
      rw [← hl', heq]
    · have hdrop : (ds.drop p.target.argRegs.length)[i - p.target.argRegs.length]? =
          some l.toOperand := by
        rw [getElem?_drop, show _ + (i - p.target.argRegs.length) = i by omega]
        exact hd
      have hin := hfetched _ _ hdrop
      rw [Nat.zero_add, Machine.Program.ofSteps, getElem?_drop,
        show _ + (i - p.target.argRegs.length) = i by omega, hx] at hin
      rw [Option.some.inj hin, Store.read_toOperand, Store.read_toOperand]
      refine hmoved.frame l (hne _ h.scratch) ?_
      intro m hm heq
      have hmem : m.dst ∈ ds.take p.target.argRegs.length := hdst ▸ mem_map_of_mem hm
      refine disjoint_take_drop hnodup (Nat.le_refl _) hmem ?_
      rw [heq]
      exact mem_of_getElem? hdrop
  have hmap : p.func.params.map (fun v => σ'.read (p.place v)) = ds.map σ'.read := by
    rw [← hds, map_map]
    rfl
  rw [hmap]
  refine ext_getElem (by simp [hdslen]) ?_
  intro i hi hi'
  rw [getElem_map]
  exact hread i _ _ (getElem?_eq_getElem _) (getElem?_eq_getElem hi')

end Placed

end SsaBackend
