import SsaBackend.Allocation.Coloring
import SsaBackend.Proofs.Allocation.Graph

/-!
# Colors keep neighbours apart

Each node takes a color that none of its neighbours has, so neighbours with a color have different
ones, in whatever order the nodes come back. Nodes without a color have a word of the spill area for
themselves. Both facts are about representatives; values have the place of their representative, and
the representatives of interfering values are neighbours.
-/

namespace SsaBackend

open List

variable {pool : List Register}

namespace Interference

variable {cs : List Clash} {moves : List (ValueId × ValueId)}

theorem mem_values_ofClashes {v : ValueId} :
    v ∈ (ofClashes cs moves).values ↔ ∃ c ∈ cs, v = c.value ∨ v ∈ c.others := by
  simp [ofClashes, mem_eraseDups]

theorem known_ofClashes : ∀ c ∈ cs, Known (ofClashes cs moves).values c := fun c hc =>
  ⟨mem_values_ofClashes.2 ⟨c, hc, .inl rfl⟩,
    fun _ hw => mem_values_ofClashes.2 ⟨c, hc, .inr hw⟩⟩

theorem rep_ofClashes {i : Nat} (hi : i < (ofClashes cs moves).values.length) :
    (ofClashes cs moves).rep i = i := by
  change (List.range (ofClashes cs moves).values.length).getD i i = i
  simp [hi]

theorem sound_ofClashes :
    Sound (fun i j => j ∈ (ofClashes cs moves).graph.neighbours i) (ofClashes cs moves) := by
  refine ⟨(foldl_linkClash_spec cs (Graph.proper_edgeless _) known_ofClashes).1,
    length_range, ?_, ?_, ?_⟩
  · intro i hi
    rwa [rep_ofClashes hi]
  · intro i hi
    rw [rep_ofClashes hi, rep_ofClashes hi]
  · intro i j hi hj hE
    rw [rep_ofClashes hi, rep_ofClashes hj]
    exact hE

theorem linked_of_between {v w : ValueId} (hne : v ≠ w) (h : Clash.Between cs v w) :
    (ofClashes cs moves).values.idxOf w ∈
      (ofClashes cs moves).graph.neighbours ((ofClashes cs moves).values.idxOf v) := by
  obtain ⟨-, -, hedges⟩ := foldl_linkClash_spec cs
    (Graph.proper_edgeless (ofClashes cs moves).values.length) known_ofClashes
  obtain ⟨c, hc, ⟨rfl, hw⟩ | ⟨rfl, hv⟩⟩ := h
  · exact hedges c hc w hw hne
  · exact sound_ofClashes.proper.symm _ _ (hedges c hc v hv (Ne.symm hne))

theorem moves_ofClashes {m : Nat × Nat} (h : m ∈ (ofClashes cs moves).moves) :
    m.1 < (ofClashes cs moves).values.length ∧ m.2 < (ofClashes cs moves).values.length := by
  have hnode : ∀ {values : List ValueId} {v i}, node? values v = some i → i < values.length := by
    intro values v i hi
    obtain ⟨hlt, -⟩ := findIdx?_eq_some_iff_getElem.1 hi
    exact hlt
  obtain ⟨p, -, hp⟩ := mem_filterMap.1 h
  obtain ⟨dst, hdst, hp⟩ := Option.bind_eq_some_iff.1 hp
  obtain ⟨src, hsrc, rfl⟩ := Option.map_eq_some_iff.1 hp
  exact ⟨hnode hdst, hnode hsrc⟩

end Interference

namespace Coloring

variable {colors : List (Nat × Nat)}

/-! ### Colors -/

structure Colored (g : Graph) (k : Nat) (colors : List (Nat × Nat)) : Prop where
  lt : ∀ i c, colors.lookup i = some c → c < k
  apart : ∀ i j c, j ∈ g.neighbours i → colors.lookup i = some c → colors.lookup j ≠ some c

theorem lookup_cons_ite (i c j : Nat) (colors : List (Nat × Nat)) :
    ((i, c) :: colors).lookup j = if j = i then some c else colors.lookup j := by
  rw [lookup_cons]
  by_cases h : j = i
  · simp [h]
  · rw [if_neg h, beq_eq_false_iff_ne.2 h]

theorem Colored.cons {g : Graph} {n k : Nat} (h : Colored g k colors) (hg : g.Proper n) {i c : Nat}
    (hc : c < k) (hfree : ∀ j ∈ g.neighbours i, colors.lookup j ≠ some c) :
    Colored g k ((i, c) :: colors) := by
  refine ⟨?_, ?_⟩
  · intro j d hj
    rw [lookup_cons_ite] at hj
    split at hj
    · cases hj
      exact hc
    · exact h.lt j d hj
  · intro x y d hxy hx hy
    rw [lookup_cons_ite] at hx hy
    by_cases hxi : x = i
    · subst hxi
      have hyx : y ≠ x := by
        rintro rfl
        exact hg.irrefl _ hxy
      rw [if_pos rfl] at hx
      rw [if_neg hyx] at hy
      cases hx
      exact hfree y hxy hy
    · rw [if_neg hxi] at hx
      by_cases hyi : y = i
      · subst hyi
        rw [if_pos rfl] at hy
        cases hy
        exact hfree x (hg.symm _ _ hxy) hx
      · rw [if_neg hyi] at hy
        exact h.apart x y d hxy hx hy

theorem assignColors_colored {g : Graph} {n : Nat} (hg : g.Proper n) (k : Nat) (stack : List Nat) :
    ∀ {colors}, Colored g k colors → Colored g k (assignColors g k stack colors) := by
  induction stack with
  | nil => exact fun h => h
  | cons i stack ih =>
    intro colors h
    unfold assignColors
    dsimp only
    split
    · rename_i c hfind
      have hc : c < k := mem_range.1 (mem_of_find?_eq_some hfind)
      refine ih (h.cons hg hc ?_)
      intro j hj hlook
      have htaken : c ∉ (g.neighbours i).filterMap fun j => colors.lookup j := by
        simpa using find?_some hfind
      exact htaken (mem_filterMap.2 ⟨j, hj, hlook⟩)
    · exact ih h

/-! ### Places -/

theorem location?_foldl_assign (place : Nat → Location) (ps : List (ValueId × Nat)) :
    ∀ {a : Allocation} {v : ValueId}, (ps.map Prod.fst).Nodup →
      (ps.foldl (fun a p => a.assign p.1 (place p.2)) a).location? v =
        match ps.lookup v with
        | some i => some (place i)
        | none => a.location? v := by
  induction ps with
  | nil => exact fun _ => rfl
  | cons p ps ih =>
    intro a v hnodup
    obtain ⟨w, i⟩ := p
    obtain ⟨hw, hnodup⟩ := nodup_cons.1 hnodup
    rw [foldl_cons, ih hnodup, lookup_cons_ite, Allocation.location?_assign]
    by_cases hv : v = w
    · subst hv
      have hnone : ps.lookup v = none := by
        rw [lookup_eq_none_iff]
        intro q hq
        simpa using fun heq => hw (mem_map.2 ⟨q, hq, heq.symm⟩)
      simp [hnone]
    · simp [hv]

theorem lookup_zipIdx (values : List ValueId) (v : ValueId) (n : Nat) :
    (values.zipIdx n).lookup v = if v ∈ values then some (n + values.idxOf v) else none := by
  induction values generalizing n with
  | nil => rfl
  | cons u values ih =>
    rw [zipIdx_cons, lookup_cons_ite, ih, idxOf_cons]
    by_cases hu : v = u
    · simp [hu]
    · have hbeq : (u == v) = false := beq_eq_false_iff_ne.2 (Ne.symm hu)
      simp only [hu, if_false, mem_cons, false_or, hbeq, cond_false]
      split
      · congr 1
        omega
      · rfl

def placeOf (pool : List Register) (colors : List (Nat × Nat)) (spills : List Nat) (i : Nat) :
    Location :=
  match colors.lookup i with
  | some c => .register (pool.getD c "")
  | none => .stack (8 * spills.idxOf i)

theorem placeOf_ne {g : Graph} (hpool : pool.Nodup) (h : Colored g pool.length colors)
    {spills : List Nat} {i j : Nat} (hij : j ∈ g.neighbours i) (hne : i ≠ j)
    (hspill : colors.lookup i = none → i ∈ spills) :
    placeOf pool colors spills i ≠ placeOf pool colors spills j := by
  unfold placeOf
  cases hi : colors.lookup i with
  | some c =>
    cases hj : colors.lookup j with
    | some d =>
      have hcd : c ≠ d := by
        rintro rfl
        exact h.apart i j c hij hi hj
      simpa using getD_ne_getD hpool (h.lt i c hi) (h.lt j d hj) hcd
    | none => simp
  | none =>
    cases hj : colors.lookup j with
    | some d => simp
    | none =>
      intro heq
      have hidx : spills.idxOf i = spills.idxOf j := by
        injection heq with heq
        omega
      exact hne ((idxOf_inj (hspill hi)).1 hidx)

theorem colorGraph_spec {E : Nat → Nat → Prop} {g : Interference} (h : Interference.Sound E g)
    (hvalues : g.values.Nodup) (hpool : pool.Nodup) (costs : List (ValueId × UInt64)) :
    (∀ v, (colorGraph g costs pool).location? v ≠ none ↔ v ∈ g.values) ∧
      (∀ v r, (colorGraph g costs pool).location? v = some (.register r) → r ∈ pool) ∧
      ∀ v ∈ g.values, ∀ w ∈ g.values, E (g.values.idxOf v) (g.values.idxOf w) →
        (colorGraph g costs pool).location? v ≠ (colorGraph g costs pool).location? w := by
  -- the stages get names: unfolded, the whole coloring would stand in the goal twice
  obtain ⟨stack, hstack⟩ : ∃ stack, stack = simplifyAll g.graph
    (fun i => (costs.lookup (g.values.getD i 0)).getD 0) pool.length
    (.initial g pool.length) [] := ⟨_, rfl⟩
  obtain ⟨colors, hcolors⟩ : ∃ colors,
    colors = assignColors g.graph pool.length stack [] := ⟨_, rfl⟩
  obtain ⟨spills, hspills⟩ : ∃ spills,
    spills = g.representatives.filter fun i => (colors.lookup i).isNone := ⟨_, rfl⟩
  have hcolored : Colored g.graph pool.length colors := by
    rw [hcolors]
    exact assignColors_colored h.proper _ _ ⟨by simp, by simp⟩
  have hloc : ∀ v, (colorGraph g costs pool).location? v =
      if v ∈ g.values then some (placeOf pool colors spills (g.rep (g.values.idxOf v)))
      else none := by
    intro v
    have hfold := location?_foldl_assign (fun i => placeOf pool colors spills (g.rep i))
      g.values.zipIdx (a := .empty) (v := v) (by simpa [zipIdx_map_fst] using hvalues)
    rw [lookup_zipIdx] at hfold
    subst hspills hcolors hstack
    refine hfold.trans ?_
    by_cases hv : v ∈ g.values <;> simp [hv, Allocation.empty, Allocation.location?]
  refine ⟨?_, ?_, ?_⟩
  · intro v
    rw [hloc]
    split <;> simp_all
  · intro v r hr
    rw [hloc] at hr
    split at hr
    · injection hr with hr
      unfold placeOf at hr
      split at hr
      · rename_i c hc
        injection hr with hr
        have hlt := hcolored.lt _ c hc
        rw [← hr, getD_eq_getElem _ _ hlt]
        exact getElem_mem hlt
      · cases hr
    · cases hr
  · intro v hv w hw hE
    have hi := idxOf_lt_length_of_mem hv
    have hj := idxOf_lt_length_of_mem hw
    have hedge := h.edges _ _ hi hj hE
    -- ids that interfere were not merged, so their nodes get different colors or slots
    have hne : g.rep (g.values.idxOf v) ≠ g.rep (g.values.idxOf w) := by
      intro heq
      rw [heq] at hedge
      exact h.proper.irrefl _ hedge
    rw [hloc, hloc, if_pos hv, if_pos hw]
    refine fun heq => placeOf_ne hpool hcolored hedge hne ?_ (Option.some.inj heq)
    intro hnone
    rw [hspills]
    refine mem_filter.2 ⟨mem_filter.2 ⟨?_, ?_⟩, by simp [hnone]⟩
    · exact mem_range.2 (h.rep_lt _ hi)
    · simpa using h.rep_rep _ hi

end Coloring

theorem Function.WellFormed.fits_coloring {f : Function} (wf : f.WellFormed) (hpool : pool.Nodup)
    (costs : List (ValueId × UInt64)) :
    (Coloring.allocate f.paramIds f.flow f.liveness costs pool).Fits f pool := by
  have hsound := @Interference.sound_ofClashes f.clashes (f.flow.flatMap FlowBlock.moves)
  obtain ⟨hmerged, hvalues⟩ := hsound.coalesce pool.length fun m hm =>
    Interference.moves_ofClashes hm
  have hnodup : (Interference.ofClashes f.clashes
      (f.flow.flatMap FlowBlock.moves)).values.Nodup := nodup_eraseDups _
  obtain ⟨hdomain, hregs, hapart⟩ := Coloring.colorGraph_spec hmerged (hvalues ▸ hnodup) hpool costs
  rw [hvalues] at hdomain hapart
  have hmem : ∀ v, v ∈ (Interference.ofClashes f.clashes
      (f.flow.flatMap FlowBlock.moves)).values ↔ v ∈ f.definedValues := by
    intro v
    rw [Interference.mem_values_ofClashes]
    constructor
    · rintro ⟨c, hc, rfl | hv⟩
      · exact (wf.clash_defined hc).1
      · exact (wf.clash_defined hc).2 hv
    · intro hv
      obtain ⟨c, hc, hcv⟩ := wf.exists_clash hv
      exact ⟨c, hc, .inl hcv.symm⟩
  refine ⟨fun v => (hdomain v).trans (hmem v), hregs, ?_⟩
  intro v w hne hinter
  obtain ⟨hv, hw⟩ := wf.mem_definedValues_of_interferes hinter
  exact hapart v ((hmem v).2 hv) w ((hmem w).2 hw)
    (Interference.linked_of_between hne (wf.between hne hinter))

end SsaBackend
