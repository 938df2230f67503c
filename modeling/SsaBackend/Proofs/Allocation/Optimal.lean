import SsaBackend.Proofs.Allocation.Intervals
import SsaBackend.Proofs.Allocation.Slots
import Mathlib.Data.Finset.Card

/-!
# Linear scan spills as little as its intervals allow

A set of ids relieves the registers if no position lies in more intervals of other ids than there are
registers (`LinearScan.Relieves`). What the scan puts on the stack does that, and no smaller set
does.

The argument compares the scan with any other set that relieves the registers. For every position
from the current one on, of the intervals visited so far at least as many end before it and are not
spilled as there are outside the other set (`LinearScan.Ahead`). A spill keeps this up: of the
intervals that reach the current position the scan keeps as many as there are registers, and those
that end first.
-/

namespace SsaBackend

open List

/-- The interval contains the position. -/
def Interval.Contains (i : Interval) (p : Nat) : Prop := i.start ≤ p ∧ p ≤ i.stop

instance (i : Interval) (p : Nat) : Decidable (i.Contains p) :=
  inferInstanceAs (Decidable (_ ∧ _))

/-! ### The ids on the stack -/

/-- Whether a location is in the spill area. -/
def Location.isStack : Location → Bool
  | register _ => false
  | stack _ => true

namespace Allocation

variable {a : Allocation} {v : ValueId}

/-- The ids on the stack. -/
def spilled (a : Allocation) : Finset ValueId :=
  (a.entries.map Prod.fst).toFinset.filter fun v => (a.location? v).any Location.isStack

theorem mem_spilled : v ∈ a.spilled ↔ ∃ n, a.location? v = some (.stack n) := by
  rw [spilled, Finset.mem_filter, mem_toFinset]
  constructor
  · rintro ⟨-, h⟩
    cases hl : a.location? v with
    | none => simp [hl] at h
    | some l =>
      cases l with
      | register r => simp [hl, Location.isStack] at h
      | stack n => exact ⟨n, rfl⟩
  · rintro ⟨n, h⟩
    obtain ⟨front, back, hentries, -⟩ := lookup_eq_some_iff.1 h
    exact ⟨by simp [hentries], by simp [h, Location.isStack]⟩

theorem spilled_assign_register (a : Allocation) (v : ValueId) (r : Register) :
    (a.assign v (.register r)).spilled = a.spilled.erase v := by
  ext w
  rw [Finset.mem_erase, mem_spilled, mem_spilled, location?_assign]
  by_cases hw : w = v <;> simp [hw]

theorem spilled_assign_stack (a : Allocation) (v : ValueId) (n : Nat) :
    (a.assign v (.stack n)).spilled = insert v a.spilled := by
  ext w
  rw [Finset.mem_insert, mem_spilled, mem_spilled, location?_assign]
  by_cases hw : w = v <;> simp [hw]

structure Packed (a : Allocation) : Prop where
  size : a.spillSize = 8 * a.spilled.card
  roomy : a.Roomy
  apart : ∀ v w n m, v ≠ w → a.location? v = some (.stack n) → a.location? w = some (.stack m) →
    n + 8 ≤ m ∨ m + 8 ≤ n

theorem packed_empty : empty.Packed :=
  ⟨rfl, roomy_empty, by simp [empty, location?]⟩

theorem Packed.assign_register (h : a.Packed) (hv : v ∉ a.spilled) (r : Register) :
    (a.assign v (.register r)).Packed := by
  have hloc : ∀ {w n}, (a.assign v (.register r)).location? w = some (.stack n) →
      a.location? w = some (.stack n) := by
    intro w n hw
    rw [location?_assign] at hw
    split at hw
    · cases hw
    · exact hw
  refine ⟨?_, h.roomy.assign _ _, fun w w' n m hne hw hw' => ?_⟩
  · rw [spilled_assign_register, Finset.erase_eq_of_notMem hv, ← h.size]
    exact Nat.max_zero _
  · exact h.apart w w' n m hne (hloc hw) (hloc hw')

theorem Packed.assign_spillSlot (h : a.Packed) (hv : v ∉ a.spilled) :
    (a.assign v a.spillSlot).Packed := by
  have hsize : (a.assign v a.spillSlot).spillSize = a.spillSize + 8 :=
    Nat.max_eq_right (Nat.le_add_right _ _)
  have hloc : ∀ {w n}, (a.assign v a.spillSlot).location? w = some (.stack n) →
      (w = v ∧ n = a.spillSize) ∨ a.location? w = some (.stack n) := by
    intro w n hw
    rw [location?_assign] at hw
    split at hw
    · rename_i hwv
      cases hw
      exact .inl ⟨hwv, rfl⟩
    · exact .inr hw
  refine ⟨?_, h.roomy.assign _ _, fun w w' n m hne hw hw' => ?_⟩
  · rw [hsize, spillSlot, spilled_assign_stack, Finset.card_insert_of_notMem hv, h.size]
    omega
  · rcases hloc hw with ⟨hwv, rfl⟩ | hold <;> rcases hloc hw' with ⟨hwv', rfl⟩ | hold'
    · exact absurd (hwv.trans hwv'.symm) hne
    · exact .inr (h.roomy w' m hold')
    · exact .inl (h.roomy w n hold)
    · exact h.apart w w' n m hne hold hold'

end Allocation

namespace LinearScan

variable {is : List Interval}

/-! ### What placing an interval spills -/

structure Ordered (k : Nat) (s : State) : Prop where
  complete : ∀ r < k, r ∈ s.free ∨ r ∈ s.active.map Prod.snd
  sorted : s.active.Pairwise fun a b => a.1.stop ≤ b.1.stop

section

variable {pool : List Register} {done : List Interval} {pos k : Nat} {s : State} {i : Interval}

theorem Ordered.expire (h : Ordered k s) (pos : Nat) : Ordered k (expire s pos) := by
  rw [expire_eq]
  refine ⟨fun r hr => ?_, h.sorted.filter _⟩
  rcases h.complete r hr with hfree | hheld
  · exact .inl (Ascending.mem_insertAll.2 (.inl hfree))
  · obtain ⟨a, ha, rfl⟩ := mem_map.1 hheld
    by_cases hstop : a.1.stop < pos
    · refine .inl (Ascending.mem_insertAll.2 (.inr (mem_map_of_mem ?_)))
      exact mem_filter.2 ⟨ha, by simpa using hstop⟩
    · refine .inr (mem_map_of_mem (mem_filter.2 ⟨ha, ?_⟩))
      simpa using hstop

theorem Ordered.stop_le_last (h : Ordered k s) {a last : Interval × Nat}
    (hlast : s.active.getLast? = some last) (ha : a ∈ s.active) : a.1.stop ≤ last.1.stop := by
  obtain ⟨kept, hact⟩ := getLast?_eq_some_iff.1 hlast
  have hsorted := h.sorted
  rw [hact, pairwise_append] at hsorted
  rw [hact, mem_append, mem_singleton] at ha
  rcases ha with ha | rfl
  · exact hsorted.2.2 a ha last (mem_singleton_self last)
  · exact Nat.le_refl _

theorem pairwise_insertActive (i : Interval) (r : Nat) {active : List (Interval × Nat)}
    (h : active.Pairwise fun a b => a.1.stop ≤ b.1.stop) :
    (insertActive i r active).Pairwise fun a b => a.1.stop ≤ b.1.stop := by
  induction active with
  | nil => exact pairwise_singleton _ _
  | cons a active ih =>
    obtain ⟨ha, hactive⟩ := pairwise_cons.1 h
    by_cases hstop : a.1.stop ≤ i.stop
    · have hcons : insertActive i r (a :: active) = a :: insertActive i r active := by
        simp [insertActive, hstop]
      rw [hcons]
      refine pairwise_cons.2 ⟨fun b hb => ?_, ih hactive⟩
      rcases mem_cons.1 ((insertActive_perm i r active).mem_iff.1 hb) with rfl | hb
      · exact hstop
      · exact ha b hb
    · have hcons : insertActive i r (a :: active) = (i, r) :: a :: active := by
        simp [insertActive, hstop]
      rw [hcons]
      have hi : i.stop ≤ a.1.stop := Nat.le_of_not_le hstop
      refine pairwise_cons.2 ⟨fun b hb => ?_, h⟩
      rcases mem_cons.1 hb with rfl | hb
      · exact hi
      · exact Nat.le_trans hi (ha b hb)

theorem Ordered.give {r : Nat} (hcomplete : ∀ q < k, q ∈ s.free ∨ q ∈ s.active.map Prod.snd ∨ q = r)
    (hsorted : s.active.Pairwise fun a b => a.1.stop ≤ b.1.stop) :
    Ordered k (give pool s i r) := by
  refine ⟨fun q hq => (hcomplete q hq).imp id fun hq => ?_, pairwise_insertActive i r hsorted⟩
  refine ((insertActive_perm i r s.active).map Prod.snd).mem_iff.2 (mem_cons.2 ?_)
  exact hq.symm

theorem Ordered.place (h : Ordered k s) (i : Interval) : Ordered k (place pool s i) := by
  have he := h.expire i.start
  rcases place_cases pool s i with ⟨r, free, hfree, heq⟩ | ⟨kept, last, r, -, hact, -, heq⟩ |
    ⟨-, -, heq⟩
  · rw [heq]
    refine .give (fun q hq => ?_) he.sorted
    have hq' := he.complete q hq
    rw [hfree, mem_cons] at hq'
    tauto
  · rw [heq]
    have hsorted := he.sorted
    rw [hact, pairwise_append] at hsorted
    refine .give (fun q hq => ?_) hsorted.1
    have hq' := he.complete q hq
    rw [hact, map_append, mem_append, map_singleton, mem_singleton] at hq'
    exact hq'
  · rw [heq]
    exact ⟨he.complete, he.sorted⟩

structure Scanned (pool : List Register) (done : List Interval) (pos : Nat) (s : State) :
    Prop where
  shared : Shared pool.length s
  settled : Settled pool done pos s
  ordered : Ordered pool.length s
  packed : s.allocation.Packed
  distinct : (done.map Interval.value).Nodup
  started : ∀ j ∈ done, j.start ≤ pos

theorem Settled.notMem_spilled (h : Settled pool done pos s)
    (hfresh : ∀ j ∈ done, j.value ≠ i.value) : i.value ∉ s.allocation.spilled := by
  intro hmem
  obtain ⟨n, hn⟩ := Allocation.mem_spilled.1 hmem
  obtain ⟨j, hj, heq⟩ := (h.domain i.value).1 (by simp [hn])
  exact hfresh j hj heq

theorem Settled.active_notMem_spilled (h : Settled pool done pos s) {a : Interval × Nat}
    (ha : a ∈ s.active) : a.1.value ∉ s.allocation.spilled := by
  intro hmem
  obtain ⟨n, hn⟩ := Allocation.mem_spilled.1 hmem
  cases (h.holds a ha).2.symm.trans hn

theorem Settled.nodup_active (h : Settled pool done pos s) (hs : Shared pool.length s)
    (hpool : pool.Nodup) : (s.active.map Prod.fst).Nodup := by
  refine (nodup_map_iff_inj_on hs.nodup.of_map).2 fun a ha b hb heq => ?_
  exact h.eq_of_value_eq hs hpool ha hb (congrArg Interval.value heq)

section Place

variable (h : Scanned pool done pos s) (hpos : pos ≤ i.start)
  (hfresh : ∀ j ∈ done, j.value ≠ i.value)

include h hpos hfresh

theorem Scanned.place_spilled :
    (place pool s i).allocation.Packed ∧
    ((place pool s i).allocation.spilled = s.allocation.spilled ∨
      ∃ m ∈ i :: (expire s i.start).active.map Prod.fst, (expire s i.start).free = [] ∧
        (∀ j ∈ i :: (expire s i.start).active.map Prod.fst, j.stop ≤ m.stop) ∧
        (place pool s i).allocation.spilled = insert m.value s.allocation.spilled) := by
  have hnew := h.settled.notMem_spilled hfresh
  have hsettled := h.settled.expire hpos
  have hordered := h.ordered.expire i.start
  rcases place_cases pool s i with ⟨r, free, hfree, heq⟩ | ⟨kept, last, r, hfree, hact, hstop, heq⟩ |
    ⟨hfree, hlast, heq⟩
  · rw [heq]
    refine ⟨h.packed.assign_register hnew _, .inl ?_⟩
    exact (Allocation.spilled_assign_register _ _ _).trans (Finset.erase_eq_of_notMem hnew)
  · have hmem : (last, r) ∈ (expire s i.start).active := by simp [hact]
    have hheld := hsettled.active_notMem_spilled hmem
    have hspilled : (spill { expire s i.start with active := kept } last.value).allocation.spilled =
        insert last.value s.allocation.spilled := Allocation.spilled_assign_stack _ _ _
    -- the new interval has an id of its own, so giving it the register takes nothing off the stack
    have hnew' : i.value ∉ insert last.value s.allocation.spilled := by
      rw [Finset.mem_insert, not_or]
      exact ⟨(hfresh last (hsettled.holds _ hmem).1).symm, hnew⟩
    rw [heq]
    refine ⟨(h.packed.assign_spillSlot hheld).assign_register (hspilled ▸ hnew') _,
      .inr ⟨last, mem_cons_of_mem _ (mem_map_of_mem hmem), hfree, ?_, ?_⟩⟩
    · intro j hj
      rcases mem_cons.1 hj with rfl | hj
      · exact Nat.le_of_lt hstop
      · obtain ⟨a, ha, rfl⟩ := mem_map.1 hj
        have hget : (expire s i.start).active.getLast? = some (last, r) := by simp [hact]
        exact hordered.stop_le_last hget ha
    · refine (Allocation.spilled_assign_register _ _ _).trans ?_
      rw [hspilled, Finset.erase_eq_of_notMem hnew']
  · rw [heq]
    refine ⟨h.packed.assign_spillSlot hnew, .inr ⟨i, mem_cons_self, hfree, ?_,
      Allocation.spilled_assign_stack _ _ _⟩⟩
    intro j hj
    rcases mem_cons.1 hj with rfl | hj
    · exact Nat.le_refl _
    · obtain ⟨a, ha, rfl⟩ := mem_map.1 hj
      obtain ⟨last, hget⟩ := Option.isSome_iff_exists.1
        (getLast?_isSome.2 (ne_nil_of_mem ha))
      exact Nat.le_trans (hordered.stop_le_last hget ha) (hlast last hget)

theorem Scanned.place (hpool : pool.Nodup) :
    Scanned pool (i :: done) i.start (place pool s i) := by
  obtain ⟨hshared, hsettled⟩ := place_settles h.shared h.settled hpool hpos hfresh
  refine ⟨hshared, hsettled, h.ordered.place i, (h.place_spilled hpos hfresh).1, ?_, ?_⟩
  · refine nodup_cons.2 ⟨fun hmem => ?_, h.distinct⟩
    obtain ⟨j, hj, heq⟩ := mem_map.1 hmem
    exact hfresh j hj heq
  · refine forall_mem_cons.2 ⟨Nat.le_refl _, fun j hj => ?_⟩
    exact Nat.le_trans (h.started j hj) hpos

end Place

theorem scanned_initial (pool : List Register) : Scanned pool [] 0 (.initial pool) := by
  obtain ⟨hshared, hsettled⟩ := initial_settled pool
  refine ⟨hshared, hsettled, ⟨fun r hr => .inl (mem_range.2 hr), .nil⟩,
    Allocation.packed_empty, .nil, ?_⟩
  exact fun j hj => by cases hj

/-! ### The scan stays ahead -/

/-- Without the ids of `S`, no position lies in more than `k` intervals. -/
def Relieves (is : List Interval) (k : Nat) (S : Finset ValueId) : Prop :=
  ∀ p, is.countP (fun i => i.value ∉ S ∧ i.Contains p) ≤ k

def endingBefore (t : Nat) (S : Finset ValueId) (is : List Interval) : Nat :=
  is.countP fun i => i.value ∉ S ∧ i.stop < t

def Ahead (pos : Nat) (S S' : Finset ValueId) (done : List Interval) : Prop :=
  ∀ t, pos ≤ t → endingBefore t S' done ≤ endingBefore t S done

section

variable {S S' : Finset ValueId} {t p : Nat} {is : List Interval} {m : Interval}

theorem endingBefore_cons (t : Nat) (S : Finset ValueId) (i : Interval) (is : List Interval) :
    endingBefore t S (i :: is) =
      endingBefore t S is + if i.value ∉ S ∧ i.stop < t then 1 else 0 := by
  simp only [endingBefore, countP_cons, decide_eq_true_eq]

theorem endingBefore_eq_add (hpt : p ≤ t) (S : Finset ValueId) (is : List Interval) :
    endingBefore t S is =
      endingBefore p S is + is.countP fun i => i.value ∉ S ∧ p ≤ i.stop ∧ i.stop < t := by
  induction is with
  | nil => rfl
  | cons i is ih =>
    rw [endingBefore_cons, endingBefore_cons, ih, countP_cons]
    by_cases hi : i.value ∈ S
    · simp [hi]
    · simp only [hi, not_false_eq_true, true_and, decide_eq_true_eq]
      split_ifs <;> omega

theorem endingBefore_le_add (hS : is.countP (fun i => i.value ∉ S ∧ i.Contains p) ≤ k)
    (hstart : ∀ i ∈ is, i.start ≤ p) (hpt : p ≤ t) :
    endingBefore t S is ≤ endingBefore p S is + k := by
  rw [endingBefore_eq_add hpt]
  refine Nat.add_le_add_left (Nat.le_trans (countP_mono_left fun i hi h => ?_) hS) _
  simp only [decide_eq_true_eq] at h ⊢
  exact ⟨h.1, hstart i hi, h.2.1⟩

theorem add_length_le_endingBefore {kept : List Interval} (hkept : kept.Nodup)
    (h : ∀ j ∈ kept, j ∈ is ∧ j.value ∉ S ∧ p ≤ j.stop ∧ j.stop < t) (hpt : p ≤ t) :
    endingBefore p S is + kept.length ≤ endingBefore t S is := by
  rw [endingBefore_eq_add hpt, countP_eq_length_filter]
  refine Nat.add_le_add_left (subperm_of_subset hkept fun j hj => ?_).length_le _
  obtain ⟨hmem, hj⟩ := h j hj
  exact mem_filter.2 ⟨hmem, by simpa using hj⟩

theorem endingBefore_insert_of_le (hdistinct : (is.map Interval.value).Nodup) (hm : m ∈ is)
    (hstop : t ≤ m.stop) : endingBefore t (insert m.value S) is = endingBefore t S is := by
  refine countP_congr fun j hj => ?_
  simp only [Finset.mem_insert, not_or, decide_eq_true_eq]
  constructor
  · exact fun ⟨⟨_, hS⟩, hlt⟩ => ⟨hS, hlt⟩
  · intro ⟨hS, hlt⟩
    refine ⟨⟨fun heq => ?_, hS⟩, hlt⟩
    obtain rfl := inj_on_of_nodup_map hdistinct hj hm heq
    omega

theorem Ahead.cons (h : Ahead pos S S' done) (hpos : pos ≤ i.start) (hi : i.value ∉ S) :
    Ahead i.start S S' (i :: done) := by
  intro t ht
  have hle := h t (Nat.le_trans hpos ht)
  rw [endingBefore_cons, endingBefore_cons]
  split_ifs with h₁ h₂
  · omega
  · exact absurd ⟨hi, h₁.2⟩ h₂
  · omega
  · omega

end

theorem Ordered.le_length_active (h : Ordered k s) (hfree : s.free = []) :
    k ≤ s.active.length := by
  have hsub : List.range k ⊆ s.active.map Prod.snd := fun r hr =>
    (h.complete r (mem_range.1 hr)).resolve_left (by simp [hfree])
  simpa using (subperm_of_subset nodup_range hsub).length_le

section Ahead

variable (h : Scanned pool done pos s) (hpool : pool.Nodup) (hpos : pos ≤ i.start)
  (hfresh : ∀ j ∈ done, j.value ≠ i.value) (hi : i.start ≤ i.stop)

include h hpool hpos hfresh hi

theorem Scanned.exists_kept {m : Interval}
    (hm : m ∈ i :: (expire s i.start).active.map Prod.fst)
    (hfree : (expire s i.start).free = [])
    (hlast : ∀ j ∈ i :: (expire s i.start).active.map Prod.fst, j.stop ≤ m.stop) :
    ∃ kept : List Interval, kept.Nodup ∧ pool.length ≤ kept.length ∧
      ∀ j ∈ kept, j ∈ i :: done ∧ j.value ∉ insert m.value s.allocation.spilled ∧
        i.start ≤ j.stop ∧ j.stop ≤ m.stop := by
  have hsettled := h.settled.expire hpos
  have hactive : ∀ j ∈ i :: (expire s i.start).active.map Prod.fst,
      j ∈ i :: done ∧ j.value ∉ s.allocation.spilled ∧ i.start ≤ j.stop := by
    intro j hj
    rcases mem_cons.1 hj with rfl | hj
    · exact ⟨mem_cons_self, h.settled.notMem_spilled hfresh, hi⟩
    · obtain ⟨a, ha, rfl⟩ := mem_map.1 hj
      refine ⟨mem_cons_of_mem _ (hsettled.holds a ha).1, hsettled.active_notMem_spilled ha, ?_⟩
      rw [expire_eq] at ha
      simpa using (mem_filter.1 ha).2
  have hnodup : (i :: (expire s i.start).active.map Prod.fst).Nodup := by
    refine nodup_cons.2 ⟨fun hmem => ?_, hsettled.nodup_active (h.shared.expire _) hpool⟩
    obtain ⟨a, ha, rfl⟩ := mem_map.1 hmem
    exact hfresh a.1 (hsettled.holds a ha).1 rfl
  refine ⟨(i :: (expire s i.start).active.map Prod.fst).erase m, hnodup.erase m, ?_, ?_⟩
  · rw [length_erase_of_mem hm, length_cons, length_map, Nat.add_sub_cancel]
    exact (h.ordered.expire i.start).le_length_active hfree
  · intro j hj
    obtain ⟨hne, hmem⟩ := hnodup.mem_erase_iff.1 hj
    obtain ⟨hdone, hkept, hstop⟩ := hactive j hmem
    refine ⟨hdone, ?_, hstop, hlast j hmem⟩
    rw [Finset.mem_insert, not_or]
    refine ⟨fun heq => hne ?_, hkept⟩
    exact inj_on_of_nodup_map (h.place hpos hfresh hpool).distinct hdone (hactive m hm).1 heq

theorem Scanned.ahead_place {S : Finset ValueId}
    (hS : (i :: done).countP (fun j => j.value ∉ S ∧ j.Contains i.start) ≤ pool.length)
    (hahead : Ahead pos s.allocation.spilled S done) :
    Ahead i.start (LinearScan.place pool s i).allocation.spilled S (i :: done) := by
  have hnext := h.place hpos hfresh hpool
  have hcons := hahead.cons hpos (h.settled.notMem_spilled hfresh)
  rcases (h.place_spilled hpos hfresh).2 with heq | ⟨m, hm, hfree, hlast, heq⟩
  · rwa [heq]
  · obtain ⟨kept, hnodup, hlength, hkept⟩ := h.exists_kept hpool hpos hfresh hi hm hfree hlast
    have hdone : m ∈ i :: done := by
      rcases mem_cons.1 hm with rfl | hm
      · exact mem_cons_self
      · obtain ⟨a, ha, rfl⟩ := mem_map.1 hm
        exact mem_cons_of_mem _ ((h.settled.expire hpos).holds a ha).1
    have hreach : i.start ≤ m.stop := Nat.le_trans hi (hlast i mem_cons_self)
    intro t ht
    rw [heq]
    -- behind the end of the spilled interval, the kept ones make up for all that `S` can keep; in front
    -- of it the spilled interval does not count
    rcases Nat.lt_or_ge m.stop t with hstop | hstop
    · calc endingBefore t S (i :: done)
        _ ≤ endingBefore i.start S (i :: done) + pool.length :=
          endingBefore_le_add hS hnext.started ht
        _ ≤ endingBefore i.start s.allocation.spilled (i :: done) + pool.length :=
          Nat.add_le_add_right (hcons i.start (Nat.le_refl _)) _
        _ = endingBefore i.start (insert m.value s.allocation.spilled) (i :: done) + pool.length := by
          rw [endingBefore_insert_of_le hnext.distinct hdone hreach]
        _ ≤ endingBefore i.start (insert m.value s.allocation.spilled) (i :: done) + kept.length :=
          Nat.add_le_add_left hlength _
        _ ≤ endingBefore t (insert m.value s.allocation.spilled) (i :: done) := by
          refine add_length_le_endingBefore hnodup (fun j hj => ?_) ht
          obtain ⟨hmem, hval, hle, hle'⟩ := hkept j hj
          exact ⟨hmem, hval, hle, Nat.lt_of_le_of_lt hle' hstop⟩
    · rw [endingBefore_insert_of_le hnext.distinct hdone hstop]
      exact hcons t ht

end Ahead

theorem allocate_scanned (hpool : pool.Nodup) (hsorted : is.Pairwise fun i j => i.start ≤ j.start)
    (hnodup : (is.map Interval.value).Nodup) (hspan : ∀ i ∈ is, i.start ≤ i.stop) :
    ∃ pos s, s.allocation = allocate pool is ∧ Scanned pool is.reverse pos s ∧
      ∀ S, Relieves is pool.length S → Ahead pos s.allocation.spilled S is.reverse := by
  obtain ⟨pos, h⟩ := scan_induction hsorted hnodup
    (motive := fun done pos s => Scanned pool done pos s ∧
      ∀ S, Relieves is pool.length S → Ahead pos s.allocation.spilled S done)
    ⟨scanned_initial pool, fun S _ t _ => Nat.le_refl _⟩
    fun {done pos s i rest} his hpos hfresh ⟨hscan, hahead⟩ => by
      have hi : i.start ≤ i.stop := hspan i (by simp [his])
      refine ⟨hscan.place hpos hfresh hpool, fun S hS => ?_⟩
      refine hscan.ahead_place hpool hpos hfresh hi ?_ (hahead S hS)
      -- the intervals visited so far are some of all
      refine Nat.le_trans ?_ (hS i.start)
      rw [his, ← countP_reverse]
      exact (sublist_append_left _ rest).countP_le.trans_eq (by simp)
  exact ⟨pos, _, rfl, h⟩

/-! ### What is spilled at the end -/

theorem countP_value_mem (hnodup : (is.map Interval.value).Nodup) (S : Finset ValueId) :
    is.countP (fun i => i.value ∈ S) = ((is.map Interval.value).toFinset ∩ S).card := by
  have hmap : is.countP (fun i => i.value ∈ S) = (is.map Interval.value).countP (· ∈ S) := by
    rw [countP_map]
    rfl
  rw [hmap, countP_eq_length_filter, ← toFinset_card_of_nodup (hnodup.filter _), toFinset_filter]
  simp [Finset.filter_mem_eq_inter]

theorem exists_endingBefore_eq (pos : Nat) (is : List Interval) :
    ∃ t, pos ≤ t ∧ ∀ S, endingBefore t S is + is.countP (fun i => i.value ∈ S) = is.length := by
  obtain ⟨t, hpos, hstop⟩ : ∃ t, pos ≤ t ∧ ∀ i ∈ is, i.stop < t := by
    induction is with
    | nil => exact ⟨pos, Nat.le_refl _, by simp⟩
    | cons i is ih =>
      obtain ⟨t, hpos, hstop⟩ := ih
      refine ⟨max t (i.stop + 1), by omega, forall_mem_cons.2 ⟨by omega, fun j hj => ?_⟩⟩
      have := hstop j hj
      omega
  refine ⟨t, hpos, fun S => ?_⟩
  have hall : endingBefore t S is = is.countP fun i => ¬ decide (i.value ∈ S) = true := by
    refine countP_congr fun i hi => ?_
    simp [hstop i hi]
  rw [hall, Nat.add_comm]
  exact (length_eq_countP_add_countP fun i : Interval => decide (i.value ∈ S)).symm

theorem Scanned.card_spilled_le {S : Finset ValueId} (h : Scanned pool done pos s)
    (hahead : Ahead pos s.allocation.spilled S done) : s.allocation.spilled.card ≤ S.card := by
  obtain ⟨t, hpos, hall⟩ := exists_endingBefore_eq pos done
  have hsub : s.allocation.spilled ⊆ (done.map Interval.value).toFinset := by
    intro v hv
    obtain ⟨n, hn⟩ := Allocation.mem_spilled.1 hv
    obtain ⟨i, hi, rfl⟩ := (h.settled.domain v).1 (by simp [hn])
    exact mem_toFinset.2 (mem_map_of_mem hi)
  have hspilled := hall s.allocation.spilled
  have hS := hall S
  have hle := hahead t hpos
  rw [countP_value_mem h.distinct, Finset.inter_eq_right.2 hsub] at hspilled
  rw [countP_value_mem h.distinct] at hS
  have hcard : ((done.map Interval.value).toFinset ∩ S).card ≤ S.card :=
    Finset.card_le_card Finset.inter_subset_right
  omega

theorem Scanned.relieves (h : Scanned pool done pos s) :
    Relieves done pool.length s.allocation.spilled := by
  intro p
  rw [countP_eq_length_filter]
  have hfilter : (done.filter fun i => i.value ∉ s.allocation.spilled ∧ i.Contains p).Nodup :=
    h.distinct.of_map.filter _
  have hmem : ∀ i ∈ done.filter fun i => i.value ∉ s.allocation.spilled ∧ i.Contains p,
      i ∈ done ∧ i.value ∉ s.allocation.spilled ∧ i.Contains p := by
    intro i hi
    simpa using mem_filter.1 hi
  generalize (done.filter fun i => i.value ∉ s.allocation.spilled ∧ i.Contains p) = kept
    at hfilter hmem ⊢
  have hnodup : (kept.map fun i => s.allocation.location? i.value).Nodup := by
    refine (nodup_map_iff_inj_on hfilter).2 fun i hi j hj heq => ?_
    obtain ⟨hi, -, hip⟩ := hmem i hi
    obtain ⟨hj, -, hjp⟩ := hmem j hj
    by_contra hne
    refine h.settled.apart i hi j hj (fun hval => hne ?_) ⟨?_, ?_⟩ heq
    · exact inj_on_of_nodup_map h.distinct hi hj hval
    · exact Nat.le_trans hip.1 hjp.2
    · exact Nat.le_trans hjp.1 hip.2
  have hsub : (kept.map fun i => s.allocation.location? i.value) ⊆
      pool.map fun r => some (.register r) := by
    intro l hl
    obtain ⟨i, hi, rfl⟩ := mem_map.1 hl
    obtain ⟨hi, hreg, -⟩ := hmem i hi
    have hloc := (h.settled.domain i.value).2 ⟨i, hi, rfl⟩
    cases hl : s.allocation.location? i.value with
    | none => exact absurd hl hloc
    | some l =>
      cases l with
      | register r => exact mem_map_of_mem (h.settled.pool _ r hl)
      | stack n => exact absurd (Allocation.mem_spilled.2 ⟨n, hl⟩) hreg
  simpa using (subperm_of_subset hnodup hsub).length_le

end

theorem relieves_empty {k : Nat} :
    Relieves is k ∅ ↔ ∀ p, is.countP (fun i => i.Contains p) ≤ k := by
  simp [Relieves]

end LinearScan

theorem Function.start_le_stop {f : Function} {i : Interval} (hi : i ∈ f.intervals) :
    i.start ≤ i.stop := by
  obtain ⟨v, ⟨p, hp⟩, rfl⟩ := mem_intervals.1 hi
  obtain ⟨hstart, hstop⟩ := LinearScan.span_bounds hp
  exact Nat.le_trans hstart hstop

namespace Strategy

open LinearScan

/-- A linear scan spills as few ids as its intervals allow, each to a word of its own, and nothing
exactly if no position lies in more intervals than there are registers. -/
theorem linearScan_spills_least (f : Function) (t : Target) (hne : t.allocatable ≠ [])
    (hpool : t.allocatable.Nodup) (profile : Option Profile) :
    ∃ a, linearScan.allocate f t profile = .ok a ∧
      Relieves f.intervals t.allocatable.length a.spilled ∧
      (∀ S, Relieves f.intervals t.allocatable.length S → a.spilled.card ≤ S.card) ∧
      (∀ v w n m, v ≠ w → a.location? v = some (.stack n) → a.location? w = some (.stack m) →
        n + 8 ≤ m ∨ m + 8 ≤ n) ∧
      a.spillSize = 8 * a.spilled.card ∧
      (a.spilled = ∅ ↔ ∀ p, f.intervals.countP (fun i => i.Contains p) ≤ t.allocatable.length) := by
  obtain ⟨pos, s, hs, hscan, hahead⟩ := allocate_scanned hpool f.pairwise_intervals
    f.nodup_intervals fun i hi => Function.start_le_stop hi
  have hrelieves : Relieves f.intervals t.allocatable.length s.allocation.spilled := by
    intro p
    rw [← List.countP_reverse]
    exact hscan.relieves p
  have hleast : ∀ S, Relieves f.intervals t.allocatable.length S →
      s.allocation.spilled.card ≤ S.card := fun S hS => hscan.card_spilled_le (hahead S hS)
  refine ⟨s.allocation, ?_, hrelieves, hleast, hscan.packed.apart, hscan.packed.size, ?_⟩
  · rw [hs]
    exact if_neg (by simpa using hne)
  · rw [← relieves_empty]
    constructor
    · exact fun hempty => hempty ▸ hrelieves
    · exact fun h => Finset.card_eq_zero.1 (Nat.le_zero.1 (hleast ∅ h))

/-- With two registers the scan spills three ids of the sample, and no choice of two would do. -/
theorem linearScan_spills_three :
    ∃ a, linearScan.allocate Function.drain { Amd64.target with allocatable := ["rbx", "r12"] } none =
        .ok a ∧
      a.spilled.card = 3 ∧ ∀ S, Relieves Function.drain.intervals 2 S → 3 ≤ S.card := by
  obtain ⟨a, halloc, -, hleast, -, hsize, -⟩ := linearScan_spills_least Function.drain
    { Amd64.target with allocatable := ["rbx", "r12"] } (by decide) (by decide) none
  have hcard : a.spilled.card = 3 := by
    have hspill : a.spillSize = 24 := by
      injection halloc with halloc
      rw [← halloc]
      decide
    omega
  exact ⟨a, halloc, hcard, fun S hS => hcard ▸ hleast S hS⟩

end Strategy

end SsaBackend
