import SsaBackend.Proofs.Schedule.ParallelMove
import Mathlib.Data.List.Cycle
import Mathlib.Data.Set.Card
import Mathlib.Dynamics.PeriodicPts.Defs

/-!
# One extra move for each cycle

Moves form a graph in which the operand that a move writes leads to the operand that it reads. Since
destinations differ, an operand leads to one other at most, so two cycles with a common operand are
the same. `Move.order` writes each destination once, and the scratch once for each cycle
(`Move.perm_dst_order`):

* a move that is ready writes what nobody reads, so it lies on no cycle;
* when no move is ready every operand lies on a cycle, and redirecting the reader of one destination
  opens the cycle of that destination and no other.
-/

namespace SsaBackend.Move

open List

variable {o : Operand} {c : Cycle Operand}
variable {scratch : Operand}

/-- The operand that one of the moves writes, and the one that it reads. -/
def Reads (ms : List Move) (o o' : Operand) : Prop := ⟨o, o'⟩ ∈ ms

/-- The cycles of two operands or more: each operand is written by a move that reads the next. -/
def cycles (ms : List Move) : Set (Cycle Operand) :=
  {c | 2 ≤ c.length ∧ c.Nodup ∧ c.Chain (Reads ms)}

/-! ### Going round a cycle -/

section

variable {r s : Operand → Operand → Prop} {c : Cycle Operand} {o : Operand}

theorem exists_eq_coe_cons (ho : o ∈ c) : ∃ l : List Operand, c = ↑(o :: l) := by
  induction c using Quotient.inductionOn' with
  | h l =>
    obtain ⟨front, back, rfl⟩ := append_of_mem (Cycle.mem_coe_iff.1 ho)
    exact ⟨back ++ front, Cycle.coe_eq_coe.2 isRotated_append⟩

theorem exists_prev (hc : c.Chain r) (ho : o ∈ c) : ∃ p ∈ c, r p o := by
  obtain ⟨l, rfl⟩ := exists_eq_coe_cons ho
  have hne : o :: l ≠ [] := cons_ne_nil o l
  have hchain := (Cycle.chain_ne_nil r hne).1 hc
  exact ⟨_, Cycle.mem_coe_iff.2 (getLast_mem hne), hchain.rel⟩

theorem exists_succ (hc : c.Chain r) (ho : o ∈ c) : ∃ q, r o q := by
  obtain ⟨l, rfl⟩ := exists_eq_coe_cons ho
  cases l with
  | nil => exact ⟨o, List.IsChain.rel hc⟩
  | cons q l => exact ⟨q, List.IsChain.rel hc⟩

theorem chain_imp_of_mem (hc : c.Chain r) (himp : ∀ p ∈ c, ∀ q ∈ c, r p q → s p q) :
    c.Chain s := by
  induction c using Cycle.induction_on with
  | nil => trivial
  | cons o l =>
    have hmem : ∀ p ∈ o :: (l ++ [o]), p ∈ ((o :: l : List Operand) : Cycle Operand) := by
      intro p hp
      simpa [or_comm, or_left_comm] using hp
    exact hc.imp_of_mem_imp fun p q hp hq => himp p (hmem p hp) q (hmem q hq)

end

section

variable {ms : List Move} (hnodup : (ms.map Move.dst).Nodup)

include hnodup

theorem Reads.unique {p q : Operand} (hp : Reads ms o p) (hq : Reads ms o q) : p = q :=
  congrArg Move.src (inj_on_of_nodup_map hnodup hp hq rfl)

theorem eq_of_isChain {z : Operand} (l : List Operand) :
    ∀ {o : Operand} {l' : List Operand}, List.IsChain (Reads ms) (o :: (l ++ [z])) →
      List.IsChain (Reads ms) (o :: (l' ++ [z])) → z ∉ l → z ∉ l' → l = l' := by
  induction l with
  | nil =>
    intro o l' h h' _ hz'
    cases l' with
    | nil => rfl
    | cons p l' => exact absurd (h.rel.unique hnodup h'.rel) (ne_of_not_mem_cons hz')
  | cons p l ih =>
    intro o l' h h' hz hz'
    cases l' with
    | nil => exact absurd (h'.rel.unique hnodup h.rel) (ne_of_not_mem_cons hz)
    | cons q l' =>
      obtain rfl := h.rel.unique hnodup h'.rel
      rw [ih h.tail h'.tail (not_mem_of_not_mem_cons hz) (not_mem_of_not_mem_cons hz')]

theorem eq_of_mem_cycles {c' : Cycle Operand} (hc : c ∈ cycles ms) (hc' : c' ∈ cycles ms)
    (ho : o ∈ c) (ho' : o ∈ c') : c = c' := by
  obtain ⟨l, rfl⟩ := exists_eq_coe_cons ho
  obtain ⟨l', rfl⟩ := exists_eq_coe_cons ho'
  obtain ⟨-, honce, hchain⟩ := hc
  obtain ⟨-, honce', hchain'⟩ := hc'
  rw [Cycle.nodup_coe_iff, nodup_cons] at honce honce'
  rw [eq_of_isChain hnodup l hchain hchain' honce.1 honce'.1]

theorem not_reads_self (hc : c ∈ cycles ms) (ho : o ∈ c) : ¬Reads ms o o := by
  intro hself
  obtain ⟨l, rfl⟩ := exists_eq_coe_cons ho
  obtain ⟨hlen, honce, hchain⟩ := hc
  cases l with
  | nil => simp at hlen
  | cons p l =>
    have hp : Reads ms o p := List.IsChain.rel hchain
    obtain rfl := hself.unique hnodup hp
    simp at honce

theorem cycles_filter : cycles (ms.filter fun m => m.dst ≠ m.src) = cycles ms := by
  ext c
  constructor
  · rintro ⟨hlen, honce, hchain⟩
    exact ⟨hlen, honce, hchain.imp fun p q hpq => mem_of_mem_filter hpq⟩
  · intro hc
    refine ⟨hc.1, hc.2.1, chain_imp_of_mem hc.2.2 fun p hp q _ hpq => ?_⟩
    refine mem_filter.2 ⟨hpq, ?_⟩
    have hne : p ≠ q := fun heq => not_reads_self hnodup hc hp (heq ▸ hpq)
    simpa using hne

end

/-! ### How cycles change -/

theorem cycles_nil : cycles [] = ∅ := by
  refine Set.eq_empty_of_forall_notMem fun c hc => ?_
  obtain ⟨hlen, -, hchain⟩ := hc
  induction c using Cycle.induction_on with
  | nil => simp at hlen
  | cons o l =>
    obtain ⟨q, hq⟩ := exists_succ hchain (Cycle.mem_coe_iff.2 mem_cons_self)
    cases hq

section

variable {ms : List Move}

theorem cycles_erase {m : Move} (hready : ∀ p ∈ ms, p.src ≠ m.dst) :
    cycles (ms.erase m) = cycles ms := by
  ext c
  constructor
  · rintro ⟨hlen, honce, hchain⟩
    exact ⟨hlen, honce, hchain.imp fun p q hpq => mem_of_mem_erase hpq⟩
  · rintro ⟨hlen, honce, hchain⟩
    refine ⟨hlen, honce, chain_imp_of_mem hchain fun p hp q _ hpq => ?_⟩
    refine (mem_erase_of_ne ?_).2 hpq
    rintro rfl
    obtain ⟨o, -, hop⟩ := exists_prev hchain hp
    exact hready _ hop rfl

theorem mem_cycles_redirect {d : Operand} (hscratch : ∀ m ∈ ms, m.dst ≠ scratch) :
    c ∈ cycles (ms.map (redirect d scratch)) ↔ c ∈ cycles ms ∧ d ∉ c := by
  constructor
  · rintro ⟨hlen, honce, hchain⟩
    -- the scratch is not written, so it is on no cycle, and the reader of `d` reads it now
    have hold : ∀ p q, q ∈ c → Reads (ms.map (redirect d scratch)) p q →
        Reads ms p q ∧ q ≠ d := by
      intro p q hq hpq
      obtain ⟨o, hqo⟩ := exists_succ hchain hq
      obtain ⟨m', hm', hm'q⟩ := mem_map.1 hqo
      have hwritten : q ≠ scratch := by
        have hdst : q = m'.dst := by rw [← dst_redirect d scratch m', hm'q]
        exact hdst ▸ hscratch m' hm'
      obtain ⟨m, hm, hmpq⟩ := mem_map.1 hpq
      unfold redirect at hmpq
      split at hmpq
      · cases hmpq
        exact absurd rfl hwritten
      · rename_i hsrc
        cases hmpq
        exact ⟨hm, hsrc⟩
    refine ⟨⟨hlen, honce, chain_imp_of_mem hchain fun p _ q hq hpq => (hold p q hq hpq).1⟩, ?_⟩
    intro hd
    obtain ⟨p, -, hpd⟩ := exists_prev hchain hd
    exact (hold p d hd hpd).2 rfl
  · rintro ⟨⟨hlen, honce, hchain⟩, hd⟩
    refine ⟨hlen, honce, chain_imp_of_mem hchain fun p _ q hq hpq => ?_⟩
    have hne : q ≠ d := fun heq => hd (heq ▸ hq)
    exact mem_map.2 ⟨_, hpq, by simp [redirect, hne]⟩

def sourceOf (ms : List Move) (o : Operand) : Operand :=
  ((ms.find? fun m => m.dst = o).map Move.src).getD o

theorem sourceOf_of_notMem (ho : o ∉ ms.map Move.dst) : sourceOf ms o = o := by
  unfold sourceOf
  rw [find?_eq_none.2]
  · rfl
  · intro m hm hdst
    exact ho (mem_map.2 ⟨m, hm, by simpa using hdst⟩)

variable (hnodup : (ms.map Move.dst).Nodup)

include hnodup

theorem sourceOf_dst {m : Move} (hm : m ∈ ms) : sourceOf ms m.dst = m.src := by
  unfold sourceOf
  cases hfind : ms.find? fun p => p.dst = m.dst with
  | none => simpa using find?_eq_none.1 hfind m hm
  | some p =>
    have hdst : p.dst = m.dst := by simpa using find?_some hfind
    rw [inj_on_of_nodup_map hnodup (mem_of_find?_eq_some hfind) hm hdst]
    rfl

variable (hstuck : ∀ m ∈ ms, ∃ p ∈ ms, p.src = m.dst)

include hstuck

theorem sourceOf_injective : Function.Injective (sourceOf ms) := by
  have hperm := perm_src_of_stuck hnodup hstuck
  have hmem : ∀ m ∈ ms, m.src ∈ ms.map Move.dst := fun m hm =>
    hperm.mem_iff.2 (mem_map_of_mem hm)
  intro o o' heq
  by_cases ho : o ∈ ms.map Move.dst
  · obtain ⟨m, hm, rfl⟩ := mem_map.1 ho
    rw [sourceOf_dst hnodup hm] at heq
    by_cases ho' : o' ∈ ms.map Move.dst
    · obtain ⟨m', hm', rfl⟩ := mem_map.1 ho'
      rw [sourceOf_dst hnodup hm'] at heq
      rw [inj_on_of_nodup_map (hperm.nodup_iff.1 hnodup) hm hm' heq]
    · rw [sourceOf_of_notMem ho'] at heq
      exact absurd (heq ▸ hmem m hm) ho'
  · rw [sourceOf_of_notMem ho] at heq
    by_cases ho' : o' ∈ ms.map Move.dst
    · obtain ⟨m', hm', rfl⟩ := mem_map.1 ho'
      rw [sourceOf_dst hnodup hm'] at heq
      exact absurd (heq ▸ hmem m' hm') ho
    · rwa [sourceOf_of_notMem ho'] at heq

theorem exists_mem_cycles (hmove : ∀ m ∈ ms, m.dst ≠ m.src) {m : Move} (hm : m ∈ ms) :
    ∃ c ∈ cycles ms, m.dst ∈ c := by
  have hperm := perm_src_of_stuck hnodup hstuck
  have hreads : ∀ o ∈ ms.map Move.dst, Reads ms o (sourceOf ms o) := by
    intro o ho
    obtain ⟨p, hp, rfl⟩ := mem_map.1 ho
    rw [sourceOf_dst hnodup hp]
    exact hp
  have hstay : ∀ n, (sourceOf ms)^[n] m.dst ∈ ms.map Move.dst := by
    intro n
    induction n with
    | zero => exact mem_map_of_mem hm
    | succ n ih =>
      rw [Function.iterate_succ_apply']
      exact hperm.mem_iff.2 (mem_map.2 ⟨_, hreads _ ih, rfl⟩)
  -- there are finitely many destinations, so the walk comes back to where it started
  have hperiodic : m.dst ∈ Function.periodicPts (sourceOf ms) := by
    obtain ⟨i, j, hij, heq⟩ := (ms.map Move.dst).finite_toSet.exists_lt_map_eq_of_forall_mem hstay
    refine ⟨j - i, Nat.sub_pos_of_lt hij, ?_⟩
    exact Function.iterate_cancel (sourceOf_injective hnodup hstuck) heq.symm
  refine ⟨Function.periodicOrbit (sourceOf ms) m.dst, ⟨?_, Function.nodup_periodicOrbit, ?_⟩,
    Function.self_mem_periodicOrbit hperiodic⟩
  · have hpos := Function.minimalPeriod_pos_of_mem_periodicPts hperiodic
    have hone : Function.minimalPeriod (sourceOf ms) m.dst ≠ 1 := by
      intro hone
      have hfixed := Function.minimalPeriod_eq_one_iff_isFixedPt.1 hone
      rw [Function.IsFixedPt, sourceOf_dst hnodup hm] at hfixed
      exact hmove m hm hfixed.symm
    rw [Function.periodicOrbit_length]
    omega
  · refine (Function.periodicOrbit_chain' _ hperiodic).2 fun n => ?_
    rw [Function.iterate_succ_apply']
    exact hreads _ (hstay n)

end

/-! ### Counting moves -/

theorem cycles_eq_insert {ms : List Move} (hnodup : (ms.map Move.dst).Nodup)
    (hscratch : ∀ m ∈ ms, m.dst ≠ scratch) (hc : c ∈ cycles ms) (ho : o ∈ c) :
    cycles ms = insert c (cycles (ms.map (redirect o scratch))) ∧
      c ∉ cycles (ms.map (redirect o scratch)) := by
  refine ⟨?_, fun h => ((mem_cycles_redirect hscratch).1 h).2 ho⟩
  ext c'
  rw [Set.mem_insert_iff, mem_cycles_redirect hscratch]
  constructor
  · intro hc'
    by_cases ho' : o ∈ c'
    · exact .inl (eq_of_mem_cycles hnodup hc' hc ho' ho)
    · exact .inr ⟨hc', ho'⟩
  · rintro (rfl | ⟨hc', -⟩)
    · exact hc
    · exact hc'

theorem dst_ne_of_mem_redirect {ms : List Move} (hscratch : ∀ m ∈ ms, m.dst ≠ scratch)
    (hmove : ∀ m ∈ ms, m.dst ≠ m.src) {p : Move} (hp : p ∈ ms.map (redirect o scratch)) :
    p.dst ≠ scratch ∧ p.dst ≠ p.src := by
  obtain ⟨q, hq, rfl⟩ := mem_map.1 hp
  refine ⟨dst_redirect o scratch q ▸ hscratch q hq, ?_⟩
  unfold redirect
  split
  · exact hscratch q hq
  · exact hmove q hq

theorem perm_dst_order (scratch : Operand) (ms : List Move) (hnodup : (ms.map Move.dst).Nodup)
    (hscratch : ∀ m ∈ ms, m.dst ≠ scratch) (hmove : ∀ m ∈ ms, m.dst ≠ m.src) :
    (cycles ms).Finite ∧ ((order scratch ms).map Move.dst).Perm
      (ms.map Move.dst ++ List.replicate (cycles ms).ncard scratch) := by
  induction ms using order.induct scratch with
  | case1 =>
    rw [cycles_nil, order]
    simp
  | case2 m rest r hfind ih =>
    have hr := mem_of_find?_eq_some hfind
    have hsub := erase_sublist (a := r) (l := m :: rest)
    obtain ⟨hfinite, hperm⟩ := ih ((hsub.map Move.dst).nodup hnodup)
      (fun p hp => hscratch p (hsub.subset hp)) (fun p hp => hmove p (hsub.subset hp))
    rw [cycles_erase (src_ne_of_find?_eq_some hfind)] at hfinite hperm
    refine ⟨hfinite, ?_⟩
    rw [order_of_ready hfind, map_cons]
    exact (hperm.cons r.dst).trans
      (((perm_cons_erase hr).map Move.dst).symm.append_right _)
  | case3 m rest hfind hs => exact absurd hs (hscratch m mem_cons_self)
  | case4 m rest hfind hs ih =>
    -- the cycle of the saved destination is the one that goes away
    obtain ⟨c, hc, hmc⟩ := exists_mem_cycles hnodup (exists_src_of_find?_eq_none hfind) hmove
      mem_cons_self
    obtain ⟨hcycles, hgone⟩ := cycles_eq_insert hnodup hscratch hc hmc
    have hne : ∀ p ∈ (m :: rest).map (redirect m.dst scratch), p.dst ≠ scratch ∧ p.dst ≠ p.src :=
      fun p hp => dst_ne_of_mem_redirect hscratch hmove hp
    obtain ⟨hfinite, hperm⟩ := ih (by rwa [map_dst_redirect]) (fun p hp => (hne p hp).1)
      (fun p hp => (hne p hp).2)
    rw [hcycles]
    refine ⟨hfinite.insert c, ?_⟩
    rw [order_of_stuck hfind hs, map_cons, Set.ncard_insert_of_notMem hgone hfinite, replicate_succ]
    rw [map_dst_redirect] at hperm
    exact (hperm.cons scratch).trans perm_middle.symm

theorem exists_eq_toOperand (h : ∀ x, o ≠ .immediate x) : ∃ l : Location, o = l.toOperand := by
  cases o with
  | immediate x => exact absurd rfl (h x)
  | register name => exact ⟨.register name, rfl⟩
  | stack slot => exact ⟨.stack slot, rfl⟩

/-- Moves to different places, none of them the scratch, can be put in sequence: from any store the
sequence gives each destination what its source held at first, and changes nothing else but the
scratch. It has one move for each move that is not from an operand to itself, and one to the scratch
for each cycle; none of them writes a literal. -/
theorem sequentialize_at_once {moves : List Move} {scratch : Operand}
    (hnodup : (moves.map Move.dst).Nodup) (hplace : ∀ m ∈ moves, ∀ x, m.dst ≠ .immediate x)
    (hscratch : ∀ x, scratch ≠ .immediate x) (hfresh : ∀ m ∈ moves, m.dst ≠ scratch) :
    (∀ σ : Store, ∃ σ', run (sequentialize moves scratch) σ = some σ' ∧
      (∀ m ∈ moves, σ'.read m.dst = σ.read m.src) ∧
      ∀ o, o ≠ scratch → (∀ m ∈ moves, m.dst ≠ o) → σ'.read o = σ.read o) ∧
    (cycles moves).Finite ∧
    ((sequentialize moves scratch).map Move.dst).Perm
      ((moves.filter fun m => m.dst ≠ m.src).map Move.dst ++
        List.replicate (cycles moves).ncard scratch) ∧
    (sequentialize moves scratch).length =
      (moves.filter fun m => m.dst ≠ m.src).length + (cycles moves).ncard ∧
    ∀ m ∈ sequentialize moves scratch, ∀ x, m.dst ≠ .immediate x := by
  have hsub : (moves.filter fun m => m.dst ≠ m.src).Sublist moves := List.filter_sublist
  obtain ⟨hfinite, hperm⟩ := perm_dst_order scratch (moves.filter fun m => m.dst ≠ m.src)
    ((hsub.map Move.dst).nodup hnodup) (fun m hm => hfresh m (hsub.subset hm))
    (fun m hm => by simpa using (List.mem_filter.1 hm).2)
  rw [cycles_filter hnodup] at hfinite hperm
  refine ⟨fun σ => ?_, hfinite, hperm, ?_, ?_⟩
  · obtain ⟨ls, rfl⟩ := exists_eq_toOperand hscratch
    have hparallel : Parallel ls moves := by
      refine ⟨hnodup, fun m hm => ?_⟩
      obtain ⟨l, hl⟩ := exists_eq_toOperand (hplace m hm)
      exact ⟨l, hl, fun heq => hfresh m hm (hl.trans (congrArg Location.toOperand heq))⟩
    obtain ⟨σ', hrun, hmoved⟩ := run_sequentialize hparallel σ
    refine ⟨σ', hrun, hmoved.dst, fun o ho hother => ?_⟩
    cases o with
    | immediate x => rfl
    | register name => exact hmoved.frame (.register name) (fun heq => ho (heq ▸ rfl)) hother
    | stack slot => exact hmoved.frame (.stack slot) (fun heq => ho (heq ▸ rfl)) hother
  · have hlength := hperm.length_eq
    rw [List.length_append, List.length_map, List.length_map, List.length_replicate] at hlength
    exact hlength
  · intro m hm x heq
    rcases List.mem_append.1 (hperm.mem_iff.1 (List.mem_map_of_mem hm)) with hmem | hmem
    · obtain ⟨m', hm', hdst⟩ := List.mem_map.1 hmem
      exact hplace m' (hsub.subset hm') x (hdst.trans heq)
    · exact hscratch x ((List.eq_of_mem_replicate hmem).symm.trans heq)

/-- Three operands in a circle, one of them on the stack, and a literal. -/
def rotation : List Move :=
  [⟨.register "ra", .register "rb"⟩, ⟨.register "rb", .stack 8⟩, ⟨.stack 8, .register "ra"⟩,
    ⟨.register "rc", .immediate 7⟩]

/-- The rotation has one cycle, so it takes five moves, and it turns the three operands. -/
theorem sequentialize_rotation :
    (cycles rotation).ncard = 1 ∧ (sequentialize rotation (.register "rt")).length = 5 ∧
      ∀ σ : Store, ∃ σ', run (sequentialize rotation (.register "rt")) σ = some σ' ∧
        σ' (.register "ra") = σ (.register "rb") ∧ σ' (.register "rb") = σ (.stack 8) ∧
        σ' (.stack 8) = σ (.register "ra") ∧ σ' (.register "rc") = 7 := by
  have hnodup : (rotation.map Move.dst).Nodup := by decide
  have hscratch : ∀ x, Operand.register "rt" ≠ .immediate x := by simp
  obtain ⟨hrun, -, -, hlength, -⟩ :=
    sequentialize_at_once hnodup (by simp [rotation]) hscratch (by decide)
  have hfive : (sequentialize rotation (.register "rt")).length = 5 := by decide +kernel
  have hfour : (rotation.filter fun m => m.dst ≠ m.src).length = 4 := by decide
  refine ⟨by omega, hfive, fun σ => ?_⟩
  obtain ⟨σ', hσ', hdst, -⟩ := hrun σ
  simp only [rotation, List.forall_mem_cons] at hdst
  exact ⟨σ', hσ', hdst.1, hdst.2.1, hdst.2.2.1, hdst.2.2.2.1⟩

/-- A literal is no scratch: it would be written when a cycle is opened. -/
theorem sequentialize_literal_scratch :
    ¬∀ (moves : List Move) (scratch : Operand), (moves.map Move.dst).Nodup →
      (∀ m ∈ moves, ∀ x, m.dst ≠ .immediate x) →
      (∀ m ∈ moves, m.dst ≠ scratch ∧ m.src ≠ scratch) →
      ∀ m ∈ sequentialize moves scratch, ∀ x, m.dst ≠ .immediate x := by
  intro h
  have hswap : ⟨.immediate 7, .register "ra"⟩ ∈ sequentialize
      [⟨.register "ra", .register "rb"⟩, ⟨.register "rb", .register "ra"⟩] (.immediate 7) := by
    decide +kernel
  exact h _ _ (by decide) (by simp) (by decide) _ hswap 7 rfl

end SsaBackend.Move
