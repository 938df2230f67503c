import SsaBackend.Allocation.LinearScan
import SsaBackend.Proofs.Interference

/-!
# Linear scan keeps overlapping intervals apart

The scan visits intervals in order of their start. Its state is described by two invariants:

* `Shared`: the registers of the pool are either free or held by one active interval;
* `Settled`: every visited interval has a place, overlapping ones have different places, and an
  interval in a register is active as long as it has not ended.

An interval that is visited later can overlap only those that have not ended, and these are active
or on the stack. Evicting the last active interval moves it to a fresh word of the spill area, which
nobody shares, so moving it after the fact is safe.
-/

namespace SsaBackend.LinearScan

open List

def Overlap (i j : Interval) : Prop := i.start ≤ j.stop ∧ j.start ≤ i.stop

/-- No register is free and held at once, and none is held twice. -/
structure Shared (k : Nat) (s : State) : Prop where
  ascending : s.free.Pairwise (· < ·)
  free_lt : ∀ r ∈ s.free, r < k
  active_lt : ∀ a ∈ s.active, a.2 < k
  nodup : (s.active.map Prod.snd).Nodup
  not_free : ∀ a ∈ s.active, a.2 ∉ s.free

structure Settled (pool : List Register) (done : List Interval) (pos : Nat) (s : State) :
    Prop where
  holds : ∀ a ∈ s.active,
    a.1 ∈ done ∧ s.allocation.location? a.1.value = some (.register (pool.getD a.2 ""))
  active : ∀ i ∈ done, ∀ r, s.allocation.location? i.value = some (.register r) →
    (∃ q, (i, q) ∈ s.active) ∨ i.stop < pos
  domain : ∀ v, s.allocation.location? v ≠ none ↔ ∃ i ∈ done, i.value = v
  pool : ∀ v r, s.allocation.location? v = some (.register r) → r ∈ pool
  slots : ∀ v n, s.allocation.location? v = some (.stack n) → n + 8 ≤ s.allocation.spillSize
  apart : ∀ i ∈ done, ∀ j ∈ done, i.value ≠ j.value → Overlap i j →
    s.allocation.location? i.value ≠ s.allocation.location? j.value

variable {k r : Nat} {i : Interval}

section

variable {pool : List Register} {done : List Interval} {pos : Nat} {s : State}
variable {kept : List (Interval × Nat)}

/-! ### Expiry -/

theorem expire_eq (s : State) (pos : Nat) :
    expire s pos =
      { s with
        free := Ascending.insertAll s.free
          ((s.active.filter fun a => a.1.stop < pos).map Prod.snd)
        active := s.active.filter fun a => !decide (a.1.stop < pos) } := by
  simp only [expire, partition_eq_filter_filter]
  rfl

theorem Shared.expire (h : Shared k s) (pos : Nat) : Shared k (expire s pos) := by
  rw [expire_eq]
  refine ⟨Ascending.pairwise_insertAll _ h.ascending, ?_, ?_, ?_, ?_⟩
  · intro r hr
    rcases Ascending.mem_insertAll.1 hr with hr | hr
    · exact h.free_lt r hr
    · obtain ⟨a, ha, rfl⟩ := mem_map.1 hr
      exact h.active_lt a (mem_of_mem_filter ha)
  · exact fun a ha => h.active_lt a (mem_of_mem_filter ha)
  · exact (filter_sublist.map Prod.snd).nodup h.nodup
  · intro a ha hfree
    obtain ⟨hmem, hstop⟩ := mem_filter.1 ha
    rcases Ascending.mem_insertAll.1 hfree with hfree | hfree
    · exact h.not_free a hmem hfree
    · -- a register is held once, so an interval that ended and one that did not differ in it
      obtain ⟨g, hg, heq⟩ := mem_map.1 hfree
      obtain ⟨hgmem, hgstop⟩ := mem_filter.1 hg
      obtain rfl := inj_on_of_nodup_map h.nodup hgmem hmem heq
      simp_all

theorem Settled.expire {pos' : Nat} (h : Settled pool done pos s) (hle : pos ≤ pos') :
    Settled pool done pos' (expire s pos') := by
  rw [expire_eq]
  refine ⟨fun a ha => h.holds a (mem_of_mem_filter ha), ?_, h.domain, h.pool, h.slots, h.apart⟩
  intro i hi r hr
  rcases h.active i hi r hr with ⟨q, hq⟩ | hstop
  · by_cases hend : i.stop < pos'
    · exact .inr hend
    · exact .inl ⟨q, mem_filter.2 ⟨hq, by simpa using hend⟩⟩
  · exact .inr (Nat.lt_of_lt_of_le hstop hle)

/-! ### Giving a register -/

theorem insertActive_perm (i : Interval) (r : Nat) (active : List (Interval × Nat)) :
    (insertActive i r active).Perm ((i, r) :: active) := by
  refine perm_middle.trans ?_
  rw [takeWhile_append_dropWhile]

theorem Shared.give (h : Shared k s) (hr : r < k)
    (hfree : r ∉ s.free) (hheld : r ∉ s.active.map Prod.snd) : Shared k (give pool s i r) := by
  have hperm := insertActive_perm i r s.active
  refine ⟨h.ascending, h.free_lt, ?_, ?_, ?_⟩
  · intro a ha
    rcases mem_cons.1 (hperm.mem_iff.1 ha) with rfl | ha
    · exact hr
    · exact h.active_lt a ha
  · refine ((hperm.map Prod.snd).nodup_iff).2 ?_
    exact nodup_cons.2 ⟨hheld, h.nodup⟩
  · intro a ha
    rcases mem_cons.1 (hperm.mem_iff.1 ha) with rfl | ha
    · exact hfree
    · exact h.not_free a ha

theorem Settled.give (h : Settled pool done pos s) (hs : Shared pool.length s)
    (hpool : pool.Nodup) (hr : r < pool.length)
    (hheld : r ∉ s.active.map Prod.snd) (hpos : i.start = pos)
    (hfresh : ∀ j ∈ done, j.value ≠ i.value) :
    Settled pool (i :: done) pos (give pool s i r) := by
  have hperm := insertActive_perm i r s.active
  have hreg : pool.getD r "" ∈ pool := by
    rw [getD_eq_getElem _ _ hr]
    exact getElem_mem hr
  have hold : ∀ j ∈ done, (LinearScan.give pool s i r).allocation.location? j.value =
      s.allocation.location? j.value := by
    intro j hj
    simp [LinearScan.give, hfresh j hj]
  have hnew : (LinearScan.give pool s i r).allocation.location? i.value =
      some (.register (pool.getD r "")) := by
    simp [LinearScan.give]
  -- whoever overlaps the new interval has not ended, so it is on the stack or holds another register
  have hclash : ∀ j ∈ done, Overlap i j →
      s.allocation.location? j.value ≠ some (.register (pool.getD r "")) := by
    intro j hj hover heq
    rcases h.active j hj _ heq with ⟨q, hq⟩ | hstop
    · have hne : q ≠ r := fun hqr => hheld (mem_map.2 ⟨_, hq, hqr⟩)
      have hloc := (h.holds _ hq).2
      rw [heq] at hloc
      have := getD_ne_getD hpool (hs.active_lt _ hq) hr hne
      simp_all
    · have := hover.1
      omega
  refine ⟨?_, ?_, ?_, ?_, ?_, ?_⟩
  · intro a ha
    rcases mem_cons.1 (hperm.mem_iff.1 ha) with rfl | ha
    · exact ⟨mem_cons_self, hnew⟩
    · obtain ⟨hdone, hloc⟩ := h.holds a ha
      exact ⟨mem_cons_of_mem _ hdone, by rw [hold a.1 hdone, hloc]⟩
  · intro j hj q hq
    rcases mem_cons.1 hj with rfl | hj
    · exact .inl ⟨r, hperm.mem_iff.2 mem_cons_self⟩
    · rw [hold j hj] at hq
      refine (h.active j hj q hq).imp ?_ id
      exact fun ⟨p, hp⟩ => ⟨p, hperm.mem_iff.2 (mem_cons_of_mem _ hp)⟩
  · intro v
    have := h.domain v
    by_cases hv : v = i.value
    · simp [LinearScan.give, hv]
    · simp only [LinearScan.give, Allocation.location?_assign, if_neg hv, this, mem_cons]
      exact ⟨fun ⟨j, hj, hjv⟩ => ⟨j, .inr hj, hjv⟩, by
        rintro ⟨j, rfl | hj, hjv⟩
        · exact absurd hjv.symm hv
        · exact ⟨j, hj, hjv⟩⟩
  · intro v q hq
    simp only [LinearScan.give, Allocation.location?_assign] at hq
    split at hq
    · cases hq
      exact hreg
    · exact h.pool v q hq
  · intro v n hn
    simp only [LinearScan.give, Allocation.location?_assign] at hn
    split at hn
    · cases hn
    · exact Nat.le_trans (h.slots v n hn) (Nat.le_max_left _ _)
  · intro j hj l hl hne hover
    rcases mem_cons.1 hj with rfl | hj'
    · rcases mem_cons.1 hl with rfl | hl'
      · exact absurd rfl hne
      · rw [hnew, hold l hl']
        exact Ne.symm (hclash l hl' hover)
    · rcases mem_cons.1 hl with rfl | hl'
      · rw [hnew, hold j hj']
        exact hclash j hj' hover.symm
      · rw [hold j hj', hold l hl']
        exact h.apart j hj' l hl' hne hover

/-! ### Spilling -/

theorem Settled.location?_ne_spillSlot (h : Settled pool done pos s) (v : ValueId) :
    s.allocation.location? v ≠ some s.allocation.spillSlot := by
  intro heq
  have := h.slots v _ heq
  omega

theorem location?_spill (s : State) (v w : ValueId) :
    (spill s v).allocation.location? w =
      if w = v then some s.allocation.spillSlot else s.allocation.location? w :=
  Allocation.location?_assign _ _ _ _

theorem Settled.spill_aux (h : Settled pool done pos s) (v : ValueId) (done' : List Interval)
    (hdone : ∀ i ∈ done', i.value = v ∨ i ∈ done) (hmem : ∃ i ∈ done', i.value = v)
    (hsub : ∀ i ∈ done, i ∈ done') (active : List (Interval × Nat))
    (hactive : ∀ a ∈ active, a ∈ s.active ∧ a.1.value ≠ v)
    (hkeep : ∀ a ∈ s.active, a.1.value ≠ v → a ∈ active) :
    Settled pool done' pos (spill { s with active := active } v) := by
  have hloc : ∀ w, (spill { s with active := active } v).allocation.location? w =
      if w = v then some s.allocation.spillSlot else s.allocation.location? w :=
    fun w => location?_spill { s with active := active } v w
  refine ⟨?_, ?_, ?_, ?_, ?_, ?_⟩
  · intro a ha
    obtain ⟨hold, hne⟩ := hactive a ha
    obtain ⟨hd, hl⟩ := h.holds a hold
    exact ⟨hsub _ hd, by rw [hloc, if_neg hne, hl]⟩
  · intro i hi r hr
    rw [hloc] at hr
    split at hr
    · simp [Allocation.spillSlot] at hr
    · rename_i hne
      have hi' := (hdone i hi).resolve_left hne
      exact (h.active i hi' r hr).imp (fun ⟨q, hq⟩ => ⟨q, hkeep _ hq hne⟩) id
  · intro w
    rw [hloc]
    split
    · rename_i hw
      subst hw
      simpa using hmem
    · rename_i hw
      rw [h.domain w]
      constructor
      · exact fun ⟨i, hi, hiw⟩ => ⟨i, hsub i hi, hiw⟩
      · rintro ⟨i, hi, rfl⟩
        exact ⟨i, (hdone i hi).resolve_left hw, rfl⟩
  · intro w r hr
    rw [hloc] at hr
    split at hr
    · simp [Allocation.spillSlot] at hr
    · exact h.pool w r hr
  · intro w n hn
    have hsize : (spill { s with active := active } v).allocation.spillSize =
        max s.allocation.spillSize (s.allocation.spillSize + 8) := rfl
    rw [hloc] at hn
    rw [hsize]
    split at hn
    · cases hn
      exact Nat.le_max_right _ _
    · exact Nat.le_trans (h.slots w n hn) (Nat.le_max_left _ _)
  · intro i hi j hj hne hover
    rw [hloc, hloc]
    split
    · rename_i hiv
      rw [if_neg (by rw [← hiv]; exact Ne.symm hne)]
      exact (h.location?_ne_spillSlot _).symm
    · rename_i hiv
      split
      · exact h.location?_ne_spillSlot _
      · rename_i hjv
        exact h.apart i ((hdone i hi).resolve_left hiv) j ((hdone j hj).resolve_left hjv) hne hover

theorem Settled.spill (h : Settled pool done pos s)
    (hfresh : ∀ j ∈ done, j.value ≠ i.value) : Settled pool (i :: done) pos (spill s i.value) := by
  refine h.spill_aux i.value (i :: done) ?_ ⟨i, mem_cons_self, rfl⟩
    (fun j hj => mem_cons_of_mem _ hj) s.active ?_ (fun a ha _ => ha)
  · intro j hj
    exact (mem_cons.1 hj).imp (congrArg Interval.value) id
  · exact fun a ha => ⟨ha, hfresh a.1 (h.holds a ha).1⟩

theorem Settled.eq_of_value_eq (h : Settled pool done pos s) (hs : Shared pool.length s)
    (hpool : pool.Nodup) {a b : Interval × Nat} (ha : a ∈ s.active) (hb : b ∈ s.active)
    (heq : a.1.value = b.1.value) : a = b := by
  by_contra hne
  have hreg : a.2 ≠ b.2 := fun hreg => hne (inj_on_of_nodup_map hs.nodup ha hb hreg)
  have hplace := (h.holds a ha).2
  rw [heq, (h.holds b hb).2] at hplace
  have := getD_ne_getD hpool (hs.active_lt a ha) (hs.active_lt b hb) hreg
  simp_all

theorem Settled.unseat (h : Settled pool done pos s) (hs : Shared pool.length s)
    (hpool : pool.Nodup) {last : Interval} (hact : s.active = kept ++ [(last, r)]) :
    Settled pool done pos (LinearScan.spill { s with active := kept } last.value) := by
  have hlast : (last, r) ∈ s.active := by simp [hact]
  have hnodup := hs.nodup
  rw [hact, map_append, nodup_append] at hnodup
  refine h.spill_aux last.value done (fun i hi => .inr hi) ⟨last, (h.holds _ hlast).1, rfl⟩
    (fun i hi => hi) kept ?_ ?_
  · intro a ha
    have hmem : a ∈ s.active := by simp [hact, ha]
    refine ⟨hmem, fun heq => ?_⟩
    -- the same id means the same register, which is held only once
    have hsame := h.eq_of_value_eq hs hpool hmem hlast heq
    exact hnodup.2.2 a.2 (mem_map_of_mem ha) r (by simp) (congrArg Prod.snd hsame)
  · intro a ha hne
    rw [hact] at ha
    rcases mem_append.1 ha with ha | ha
    · exact ha
    · obtain rfl := mem_singleton.1 ha
      exact absurd rfl hne

/-! ### The scan -/

theorem Shared.tail {free : List Nat} (h : Shared k s) (hfree : s.free = r :: free) :
    Shared k { s with free := free } ∧ r < k ∧ r ∉ free ∧ r ∉ s.active.map Prod.snd := by
  have hasc := h.ascending
  rw [hfree, pairwise_cons] at hasc
  refine ⟨⟨hasc.2, ?_, h.active_lt, h.nodup, ?_⟩, ?_, ?_, ?_⟩
  · exact fun q hq => h.free_lt q (by simp [hfree, hq])
  · exact fun a ha hq => h.not_free a ha (by simp [hfree, hq])
  · exact h.free_lt r (by simp [hfree])
  · exact fun hr => Nat.lt_irrefl r (hasc.1 r hr)
  · intro hr
    obtain ⟨a, ha, rfl⟩ := mem_map.1 hr
    exact h.not_free a ha (by simp [hfree])

theorem Shared.dropLast {last : Interval} (h : Shared k s) (hact : s.active = kept ++ [(last, r)])
    (v : ValueId) :
    Shared k (spill { s with active := kept } v) ∧ r < k ∧ r ∉ s.free ∧
      r ∉ kept.map Prod.snd := by
  have hmem : ∀ a ∈ kept, a ∈ s.active := fun a ha => by simp [hact, ha]
  have hlast : (last, r) ∈ s.active := by simp [hact]
  have hnodup := h.nodup
  rw [hact, map_append, nodup_append] at hnodup
  refine ⟨⟨h.ascending, h.free_lt, ?_, hnodup.1, ?_⟩, h.active_lt _ hlast, h.not_free _ hlast, ?_⟩
  · exact fun a ha => h.active_lt a (hmem a ha)
  · exact fun a ha => h.not_free a (hmem a ha)
  · exact fun hr => hnodup.2.2 r hr r (by simp) rfl

theorem place_cases (pool : List Register) (s : State) (i : Interval) :
    (∃ r free, (expire s i.start).free = r :: free ∧
      place pool s i = give pool { expire s i.start with free := free } i r) ∨
    (∃ kept last r, (expire s i.start).free = [] ∧
      (expire s i.start).active = kept ++ [(last, r)] ∧ i.stop < last.stop ∧
      place pool s i =
        give pool (spill { expire s i.start with active := kept } last.value) i r) ∨
    ((expire s i.start).free = [] ∧
      (∀ a, (expire s i.start).active.getLast? = some a → a.1.stop ≤ i.stop) ∧
      place pool s i = spill (expire s i.start) i.value) := by
  unfold place
  generalize expire s i.start = e
  dsimp only
  cases hfree : e.free with
  | cons r free => exact .inl ⟨r, free, rfl, rfl⟩
  | nil =>
    refine .inr ?_
    dsimp only [evict]
    cases hlast : e.active.getLast? with
    | none => exact .inr ⟨rfl, by simp, rfl⟩
    | some a =>
      obtain ⟨last, r⟩ := a
      dsimp only
      by_cases hstop : i.stop < last.stop
      · refine .inl ⟨_, last, r, rfl, (dropLast_append_getLast? _ hlast).symm, hstop, ?_⟩
        rw [if_pos hstop, hfree]
      · refine .inr ⟨rfl, ?_, by rw [if_neg hstop]⟩
        intro a ha
        cases ha
        exact Nat.le_of_not_lt hstop

theorem Shared.place (h : Shared k s) (i : Interval) : Shared k (place pool s i) := by
  have hexpired := h.expire i.start
  rcases place_cases pool s i with ⟨r, free, hfree, heq⟩ | ⟨kept, last, r, -, hact, -, heq⟩ |
    ⟨-, -, heq⟩
  · rw [heq]
    obtain ⟨htail, hr, hnot, hheld⟩ := hexpired.tail hfree
    exact htail.give hr hnot hheld
  · rw [heq]
    obtain ⟨hkept, hr, hnot, hheld⟩ := hexpired.dropLast hact last.value
    exact hkept.give hr hnot hheld
  · rw [heq]
    exact ⟨hexpired.ascending, hexpired.free_lt, hexpired.active_lt, hexpired.nodup,
      hexpired.not_free⟩

theorem place_settles (hs : Shared pool.length s) (h : Settled pool done pos s)
    (hpool : pool.Nodup) (hpos : pos ≤ i.start)
    (hfresh : ∀ j ∈ done, j.value ≠ i.value) :
    Shared pool.length (place pool s i) ∧
      Settled pool (i :: done) i.start (place pool s i) := by
  refine ⟨hs.place i, ?_⟩
  have hs' := hs.expire i.start
  have h' := h.expire hpos
  rcases place_cases pool s i with ⟨r, free, hfree, heq⟩ | ⟨kept, last, r, -, hact, -, heq⟩ |
    ⟨-, -, heq⟩
  · rw [heq]
    obtain ⟨htail, hr, -, hheld⟩ := hs'.tail hfree
    have h'' : Settled pool done i.start { expire s i.start with free := free } :=
      ⟨h'.holds, h'.active, h'.domain, h'.pool, h'.slots, h'.apart⟩
    exact h''.give htail hpool hr hheld rfl hfresh
  · rw [heq]
    obtain ⟨hkept, hr, -, hheld⟩ := hs'.dropLast hact last.value
    exact (h'.unseat hs' hpool hact).give hkept hpool hr hheld rfl hfresh
  · rw [heq]
    exact h'.spill hfresh

theorem scan_induction {is : List Interval} (hsorted : is.Pairwise fun i j => i.start ≤ j.start)
    (hnodup : (is.map Interval.value).Nodup) {motive : List Interval → Nat → State → Prop}
    (init : motive [] 0 (.initial pool))
    (step : ∀ {done : List Interval} {pos : Nat} {s : State} {i : Interval} {rest : List Interval},
      is = done.reverse ++ i :: rest → pos ≤ i.start → (∀ j ∈ done, j.value ≠ i.value) →
      motive done pos s → motive (i :: done) i.start (place pool s i)) :
    ∃ pos, motive is.reverse pos (is.foldl (place pool) (.initial pool)) := by
  have hrun : ∀ (rest done : List Interval) (pos : Nat) (s : State), is = done.reverse ++ rest →
      (∀ i ∈ rest, pos ≤ i.start) → motive done pos s →
      ∃ pos', motive is.reverse pos' (rest.foldl (place pool) s) := by
    intro rest
    induction rest with
    | nil =>
      intro done pos s his _ h
      refine ⟨pos, ?_⟩
      rwa [his, append_nil, reverse_reverse]
    | cons i rest ih =>
      intro done pos s his hpos h
      rw [his, pairwise_append, pairwise_cons] at hsorted
      rw [his, map_append, nodup_append] at hnodup
      refine ih (i :: done) i.start (place pool s i) (by simp [his]) hsorted.2.1.1 ?_
      refine step his (hpos i mem_cons_self) (fun j hj => ?_) h
      exact hnodup.2.2 _ (mem_map_of_mem (mem_reverse.2 hj)) _
        (mem_map_of_mem mem_cons_self)
  exact hrun is [] 0 (.initial pool) rfl (fun _ _ => Nat.zero_le _) init

theorem initial_settled (pool : List Register) :
    Shared pool.length (.initial pool) ∧ Settled pool [] 0 (.initial pool) := by
  refine ⟨⟨pairwise_lt_range, ?_, ?_, ?_, ?_⟩, ⟨?_, ?_, ?_, ?_, ?_, ?_⟩⟩ <;>
    simp [State.initial, Allocation.empty, Allocation.location?]

theorem allocate_settled (hpool : pool.Nodup) {is : List Interval}
    (hsorted : is.Pairwise fun i j => i.start ≤ j.start)
    (hnodup : (is.map Interval.value).Nodup) :
    ∃ pos s, Settled pool is.reverse pos s ∧ s.allocation = allocate pool is := by
  obtain ⟨pos, -, h⟩ := scan_induction hsorted hnodup
    (motive := fun done pos s => Shared pool.length s ∧ Settled pool done pos s)
    (initial_settled pool) fun _ hpos hfresh ⟨hs, h⟩ => place_settles hs h hpool hpos hfresh
  exact ⟨pos, _, h, rfl⟩

end

end SsaBackend.LinearScan
