import SsaBackend.Proofs.Interference

/-!
# Which ids a function uses

A draft hands out the ids 0, 1, 2, … one by one, and `Function.valueCount` is the number of ids that it
handed out. Ids also get into a function in another way: `Draft.push` takes a whole instruction, and the
destination of that instruction is whatever the caller says. Uses need no rule of their own, since
building only accepts those of defined ids. So all ids are below the count exactly if the
destinations of pushed instructions are (`Draft.ids_lt_valueCount_iff`), and they need not be
(`Draft.valueCount_stray`).
-/

namespace SsaBackend

open List

/-- The ids that a function defines or reads. -/
def Function.ids (f : Function) : List ValueId := f.definedValues ++ f.blocks.flatMap Block.uses

theorem Function.WellFormed.forall_mem_ids_iff {f : Function} (wf : f.WellFormed)
    {P : ValueId → Prop} : (∀ v ∈ f.ids, P v) ↔ ∀ v ∈ f.definedValues, P v := by
  refine ⟨fun h v hv => h v (mem_append_left _ hv), fun h => forall_mem_append.2 ⟨h, ?_⟩⟩
  intro v hv
  obtain ⟨b, hb, hv⟩ := mem_flatMap.1 hv
  exact h v (wf.defined b hb v hv)

namespace Draft

/-- Whatever operations made a draft, an id that is defined in it is one that was handed out, or the
destination of an instruction that was pushed. -/
theorem lt_nextId_or_push {name : String} {ret : Option Ty} {calls : List Call} {v : ValueId}
    (hv : v ∈ (ofCalls name ret calls).toFunction.definedValues) :
    v < (ofCalls name ret calls).nextId ∨ ∃ b i, .push b i ∈ calls ∧
      i ∈ ((ofCalls name ret calls).toFunction.block b).instructions ∧ i.def? = some v := by
  have hholds : (ofCalls name ret calls).Holds
      (fun value => ∀ id, value.id? = some id → id < (ofCalls name ret calls).nextId)
      fun b i => .push b i ∈ calls ∨ ∀ id, i.def? = some id → id < (ofCalls name ret calls).nextId := by
    refine holds_ofCalls (fun id hid value hvalue id' hid' => ?_) (fun b i hi => .inr ?_)
      fun b i hi => .inl hi
    · cases hvalue.symm.trans hid'
      exact hid
    · intro id hid
      obtain ⟨dst, hdst, hid⟩ := Option.bind_eq_some_iff.1 hid
      exact hi dst hdst id hid
  rcases Function.mem_definedValues.1 hv with hv | ⟨b, hv⟩ | ⟨b, k, i, hk, hdef⟩
  · obtain ⟨p, hp, hid⟩ := mem_filterMap.1 hv
    exact .inl (hholds.params p hp v hid)
  · obtain ⟨phi, hphi, hid⟩ := mem_filterMap.1 hv
    rcases block_toFunction _ b with ⟨-, heq⟩ | ⟨blk, hblk, heq⟩ <;> rw [heq] at hphi
    · cases hphi
    · exact .inl ((hholds.blocks b blk hblk).1 phi hphi v hid)
  · have hi := mem_of_getElem? hk
    rcases block_toFunction _ b with ⟨-, heq⟩ | ⟨blk, hblk, heq⟩
    · rw [heq] at hi
      cases hi
    · have hmem : i ∈ blk.toBlock.instructions := heq ▸ hi
      rcases (hholds.blocks b blk hblk).2 i hmem with hpush | hlt
      · exact .inr ⟨b, i, hpush, hi, hdef⟩
      · exact .inl (hlt v hdef)

/-- The count of a built function is the number of ids that its operations took, and it bounds the ids of
the function exactly if it bounds the destinations of the instructions that were pushed. -/
theorem ids_lt_valueCount_iff {name : String} {ret : Option Ty} {calls : List Call} {f : Function}
    (hbuild : (ofCalls name ret calls).build = .ok f) :
    f.valueCount = calls.countP Call.takesId ∧
      ((∀ v ∈ f.ids, v < f.valueCount) ↔ ∀ b i v, .push b i ∈ calls →
        i ∈ (f.block b).instructions → i.def? = some v → v < f.valueCount) := by
  have wf : f.WellFormed := Function.IsBuilt.wellFormed ⟨name, ret, calls, hbuild⟩
  obtain ⟨-, rfl⟩ := build_eq_ok_iff.1 hbuild
  rw [wf.forall_mem_ids_iff]
  refine ⟨(nextId_foldl calls _).trans (Nat.zero_add _), fun h b i v _ hi hdef => ?_, fun h v hv => ?_⟩
  · obtain ⟨k, hk⟩ := mem_iff_getElem?.1 hi
    exact h v (Function.mem_definedValues.2 (.inr (.inr ⟨b, k, i, hk, hdef⟩)))
  · rcases lt_nextId_or_push hv with hlt | ⟨b, i, hpush, hi, hdef⟩
    · exact hlt
    · exact h b i v hpush hi hdef

/-- The sample pushes nothing itself, so its seven ids are below its count. -/
theorem ids_lt_valueCount_drain : (ofCalls "drain" (some .int) drainCalls).build = .ok .drain ∧
    Function.drain.valueCount = 7 ∧ ∀ v ∈ Function.drain.ids, v < Function.drain.valueCount := by
  have hbuild : (ofCalls "drain" (some .int) drainCalls).build = .ok Function.drain :=
    build_eq_ok_iff.2 ⟨by decide, rfl⟩
  have hpush : ∀ b i, Call.push b i ∉ drainCalls := by simp [drainCalls]
  obtain ⟨hcount, hids⟩ := ids_lt_valueCount_iff hbuild
  exact ⟨hbuild, hcount.trans (by decide), hids.2 fun b i v hmem => absurd hmem (hpush b i)⟩

/-- A function that copies a constant to the value with id 7 is built, although no id was handed out. -/
theorem valueCount_stray : ∃ f, (ofCalls "stray" none [.block "entry",
      .push 0 (.load (.temporary 7 .int) (.constant 1 .int)), .terminate 0 (.ret none)]).build = .ok f ∧
    7 ∈ f.ids ∧ f.valueCount = 0 :=
  ⟨_, build_eq_ok_iff.2 ⟨by decide, rfl⟩, by decide, rfl⟩

end Draft

end SsaBackend
