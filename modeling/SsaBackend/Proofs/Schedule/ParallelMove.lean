import SsaBackend.Proofs.Semantics.Schedule
import Mathlib.Data.List.Sort

/-!
# Ordered moves do what parallel moves mean

Doing moves at once reads every source before any destination is written. `Move.order` puts them in
an order that has the same effect on everything but the scratch, as long as destinations differ from
each other and from the scratch.

The proof follows the recursion. A ready move overwrites nothing that is still to be read. When no
move is ready every destination is a source; there are as many sources as destinations and
destinations differ, so every source is a destination. Hence nobody reads the scratch at that
moment, and it is free to save a destination in.
-/

namespace SsaBackend.Move

open List

variable {ms : List Move} {scratch : Location}

/-- Carries out moves one by one. -/
def run : List Move → Store → Option Store
  | [], σ => some σ
  | m :: ms, σ => (σ.write m.dst (σ.read m.src)).bind (run ms)

structure Parallel (scratch : Location) (ms : List Move) : Prop where
  nodup : (ms.map Move.dst).Nodup
  writable : ∀ m ∈ ms, ∃ l : Location, m.dst = l.toOperand ∧ l ≠ scratch

structure Moved (scratch : Location) (ms : List Move) (σ σ' : Store) : Prop where
  dst : ∀ m ∈ ms, σ'.read m.dst = σ.read m.src
  frame : ∀ l : Location, l ≠ scratch → (∀ m ∈ ms, m.dst ≠ l.toOperand) → σ' l = σ l

theorem toOperand_inj {l l' : Location} : l.toOperand = l'.toOperand ↔ l = l' := by
  cases l <;> cases l' <;> simp [Location.toOperand]

theorem read_set_of_ne {σ : Store} {l : Location} {x : Int64} {o : Operand}
    (h : o ≠ l.toOperand) : (σ.set l x).read o = σ.read o := by
  cases o with
  | immediate => rfl
  | register name =>
    exact Store.set_of_ne fun heq => h (congrArg Location.toOperand heq)
  | stack slot =>
    exact Store.set_of_ne fun heq => h (congrArg Location.toOperand heq)

theorem Parallel.erase (h : Parallel scratch ms) (m : Move) : Parallel scratch (ms.erase m) := by
  refine ⟨(erase_sublist.map Move.dst).nodup h.nodup, ?_⟩
  exact fun m' hm' => h.writable m' (mem_of_mem_erase hm')

theorem dst_redirect (saved scratch : Operand) (m : Move) :
    (redirect saved scratch m).dst = m.dst := by
  unfold redirect
  split <;> rfl

theorem map_dst_redirect (saved scratch : Operand) (ms : List Move) :
    (ms.map (redirect saved scratch)).map Move.dst = ms.map Move.dst := by
  rw [map_map]
  exact map_congr_left fun m _ => dst_redirect saved scratch m

theorem Parallel.redirect (h : Parallel scratch ms) (saved scratch' : Operand) :
    Parallel scratch (ms.map (redirect saved scratch')) := by
  refine ⟨?_, ?_⟩
  · rw [map_dst_redirect]
    exact h.nodup
  · intro m hm
    obtain ⟨m', hm', rfl⟩ := mem_map.1 hm
    rw [dst_redirect]
    exact h.writable m' hm'

theorem Moved.ready (h : Parallel scratch ms) {r : Move} (hr : r ∈ ms)
    (hready : ∀ p ∈ ms, p.src ≠ r.dst) {l : Location} (hl : r.dst = l.toOperand)
    (hscratch : l ≠ scratch) {σ σ' : Store}
    (hrest : Moved scratch (ms.erase r) (σ.set l (σ.read r.src)) σ') : Moved scratch ms σ σ' := by
  have hothers : ∀ m ∈ ms.erase r, m.dst ≠ r.dst := by
    intro m hm heq
    have hnodup := ((perm_cons_erase hr).map Move.dst).nodup_iff.1 h.nodup
    exact (nodup_cons.1 hnodup).1 (heq ▸ mem_map_of_mem hm)
  refine ⟨?_, ?_⟩
  · intro m hm
    by_cases hmr : m = r
    · rw [hmr, hl, Store.read_toOperand,
        hrest.frame l hscratch fun m hm => hl ▸ hothers m hm, Store.set_self]
    · have hm' : m ∈ ms.erase r := (mem_erase_of_ne hmr).2 hm
      rw [hrest.dst m hm', read_set_of_ne (hl ▸ hready m hm)]
  · intro l' hl' hfree
    rw [hrest.frame l' hl' fun m hm => hfree m (mem_of_mem_erase hm)]
    refine Store.set_of_ne ?_
    rintro rfl
    exact hfree r hr hl

theorem perm_src_of_stuck (hnodup : (ms.map Move.dst).Nodup)
    (hstuck : ∀ m ∈ ms, ∃ p ∈ ms, p.src = m.dst) : (ms.map Move.dst).Perm (ms.map Move.src) := by
  refine (subperm_of_subset hnodup fun o ho => ?_).perm_of_length_le (by simp)
  obtain ⟨m, hm, rfl⟩ := mem_map.1 ho
  obtain ⟨p, hp, hsrc⟩ := hstuck m hm
  exact mem_map.2 ⟨p, hp, hsrc⟩

theorem src_ne_scratch (h : Parallel scratch ms) (hstuck : ∀ m ∈ ms, ∃ p ∈ ms, p.src = m.dst) :
    ∀ m ∈ ms, m.src ≠ scratch.toOperand := by
  have hperm := perm_src_of_stuck h.nodup hstuck
  intro m hm heq
  obtain ⟨m', hm', hdst⟩ := mem_map.1 (hperm.mem_iff.2 (mem_map_of_mem hm))
  obtain ⟨l, hl, hne⟩ := h.writable m' hm'
  exact hne (toOperand_inj.1 (hl.symm.trans (hdst.trans heq)))

theorem Moved.saved (hfree : ∀ m ∈ ms, m.src ≠ scratch.toOperand) {saved : Operand} {σ σ' : Store}
    (hrest : Moved scratch (ms.map (redirect saved scratch.toOperand))
      (σ.set scratch (σ.read saved)) σ') : Moved scratch ms σ σ' := by
  refine ⟨?_, ?_⟩
  · intro m hm
    have hm' := hrest.dst _ (mem_map_of_mem hm)
    unfold redirect at hm'
    split at hm'
    · rename_i hsrc
      rw [hsrc]
      simpa using hm'
    · rwa [read_set_of_ne (hfree m hm)] at hm'
  · intro l hl hdst
    rw [hrest.frame l hl, Store.set_of_ne hl]
    intro m hm
    obtain ⟨m', hm', rfl⟩ := mem_map.1 hm
    unfold redirect
    split <;> exact hdst m' hm'

theorem order_of_ready {scratch : Operand} {m r : Move} {rest : List Move}
    (h : (m :: rest).find? (isReady (m :: rest)) = some r) :
    order scratch (m :: rest) = r :: order scratch ((m :: rest).erase r) := by
  rw [order]
  split
  · rename_i r' h'
    cases h.symm.trans h'
    rfl
  · rename_i h'
    cases h.symm.trans h'

theorem order_of_stuck {scratch : Operand} {m : Move} {rest : List Move}
    (h : (m :: rest).find? (isReady (m :: rest)) = none) (hscratch : m.dst ≠ scratch) :
    order scratch (m :: rest) =
      ⟨scratch, m.dst⟩ :: order scratch ((m :: rest).map (redirect m.dst scratch)) := by
  rw [order]
  split
  · rename_i r' h'
    cases h.symm.trans h'
  · rw [dif_neg hscratch]

theorem exists_src_of_find?_eq_none (h : ms.find? (isReady ms) = none) :
    ∀ m ∈ ms, ∃ p ∈ ms, p.src = m.dst := fun m hm =>
  exists_src_of_not_isReady (by simpa using find?_eq_none.1 h m hm)

theorem src_ne_of_find?_eq_some {r : Move} (h : ms.find? (isReady ms) = some r) :
    ∀ p ∈ ms, p.src ≠ r.dst := by
  simpa [isReady] using find?_some h

theorem run_order (scratch : Location) (ms : List Move) (h : Parallel scratch ms) (σ : Store) :
    ∃ σ', run (order scratch.toOperand ms) σ = some σ' ∧ Moved scratch ms σ σ' := by
  induction ms using order.induct scratch.toOperand generalizing σ with
  | case1 =>
    rw [order]
    exact ⟨σ, rfl, ⟨by simp, fun _ _ _ => rfl⟩⟩
  | case2 m rest r hfind ih =>
    have hr := mem_of_find?_eq_some hfind
    obtain ⟨l, hl, hne⟩ := h.writable r hr
    obtain ⟨σ', hrun, hmoved⟩ := ih (h.erase r) (σ.set l (σ.read r.src))
    refine ⟨σ', ?_, hmoved.ready h hr (src_ne_of_find?_eq_some hfind) hl hne⟩
    rw [order_of_ready hfind]
    simp [run, hl, hrun]
  | case3 m rest hfind hscratch =>
    -- a destination is never the scratch
    obtain ⟨l, hl, hne⟩ := h.writable m mem_cons_self
    exact absurd (toOperand_inj.1 (hl.symm.trans hscratch)) hne
  | case4 m rest hfind hscratch ih =>
    obtain ⟨σ', hrun, hmoved⟩ := ih (h.redirect _ _) (σ.set scratch (σ.read m.dst))
    refine ⟨σ', ?_, hmoved.saved (src_ne_scratch h (exists_src_of_find?_eq_none hfind))⟩
    rw [order_of_stuck hfind hscratch]
    simpa [run] using hrun

theorem run_sequentialize (h : Parallel scratch ms) (σ : Store) :
    ∃ σ', run (sequentialize ms scratch.toOperand) σ = some σ' ∧ Moved scratch ms σ σ' := by
  have hsub : (ms.filter fun m => m.dst ≠ m.src).Sublist ms := filter_sublist
  have hparallel : Parallel scratch (ms.filter fun m => m.dst ≠ m.src) :=
    ⟨(hsub.map Move.dst).nodup h.nodup, fun m hm => h.writable m (hsub.subset hm)⟩
  obtain ⟨σ', hrun, hmoved⟩ := run_order scratch _ hparallel σ
  refine ⟨σ', hrun, ⟨?_, ?_⟩⟩
  · intro m hm
    by_cases hself : m.dst = m.src
    · -- a move to itself is left out, and no other move writes there
      obtain ⟨l, hl, hne⟩ := h.writable m hm
      rw [← hself, hl, Store.read_toOperand, Store.read_toOperand]
      refine hmoved.frame l hne ?_
      intro m' hm' hdst
      obtain ⟨hm', hmove⟩ := mem_filter.1 hm'
      obtain rfl := inj_on_of_nodup_map h.nodup hm' hm (hdst.trans hl.symm)
      simp [hself] at hmove
    · exact hmoved.dst m (mem_filter.2 ⟨hm, by simpa using hself⟩)
  · intro l hl hdst
    exact hmoved.frame l hl fun m hm => hdst m (hsub.subset hm)

end SsaBackend.Move
