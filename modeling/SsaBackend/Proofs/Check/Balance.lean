import SsaBackend.Proofs.Check.Motion

/-!
# Balanced code

Code behind a prologue is made of stretches that leave the stack pointer where it was (`Balanced`) and
of stretches that take it back to where the function started and return (`Leaving`). A check takes
the first line that leaves the stack pointer alone as the end of the prologue. If that is the first
line behind the prologue, no return is objected to. Otherwise the check notes a wrong depth for the
body. That shows at the second return, since code behind a return is taken to start at the noted
depth (`Pose.objectsIn_schedule`).
-/

namespace SsaBackend

open List

variable {ms : List Motion} {p : Pose}

def Motion.bytes : Motion → Int
  | move bytes => bytes
  | stay => 0
  | lose => 0
  | ret => 0

def Motion.total (ms : List Motion) : Int := (ms.map bytes).sum

@[simp] theorem Motion.total_nil : total [] = 0 := rfl

@[simp] theorem Motion.total_cons (m : Motion) (ms : List Motion) :
    total (m :: ms) = m.bytes + total ms := sum_cons

@[simp] theorem Motion.total_append (ms ms' : List Motion) :
    total (ms ++ ms') = total ms + total ms' := by
  rw [total, map_append, sum_append]
  rfl

def Motion.up (bytes : Nat) : Motion := .move (-bytes)

def Motion.Descends (ms : List Motion) : Prop := ∀ m ∈ ms, m = .stay ∨ ∃ n : Nat, m = .move n

theorem Motion.Descends.total_nonneg (h : Descends ms) : 0 ≤ total ms := by
  induction ms with
  | nil => exact Int.le_refl 0
  | cons m ms ih =>
    obtain ⟨hm, hms⟩ := forall_mem_cons.1 h
    have hrest := ih hms
    rcases hm with rfl | ⟨n, rfl⟩
    · simpa [bytes] using hrest
    · rw [total_cons, bytes]
      omega

namespace Pose

open Motion

def opening (depth : Int) : Pose := ⟨true, depth, 0, true⟩

def inBody (depth bodyDepth : Int) : Pose := ⟨false, depth, bodyDepth, true⟩

theorem objectsIn_of_lost (h : p.tracking = false) (ms : List Motion) : p.objectsIn ms = false := by
  induction ms generalizing p with
  | nil => rfl
  | cons m ms ih =>
    have hstep : (p.step m).tracking = false := by
      have hsettle : p.settle.tracking = false := by
        unfold settle
        split <;> exact h
      cases m with
      | stay | ret => exact hsettle
      | move => exact h
      | lose => rfl
    have hobjects : p.objects m = false := by cases m <;> simp [objects, h]
    rw [objectsIn_cons, hobjects, ih hstep]
    rfl

def Reaches (p : Pose) (ms : List Motion) (q : Pose) : Prop := p.run ms = q ∧ p.objectsIn ms = false

theorem Reaches.append {ms ms' : List Motion} {q r : Pose} (h : p.Reaches ms q)
    (h' : q.Reaches ms' r) : p.Reaches (ms ++ ms') r :=
  ⟨by rw [run_append, h.1, h'.1], by rw [objectsIn_append, h.1, h.2, h'.2]; rfl⟩

variable {ms : List Motion} {d b : Int}

theorem reaches_move {bytes : Int} (h : 0 ≤ p.depth + bytes) :
    p.Reaches [.move bytes] { p with depth := p.depth + bytes } := by
  have hobjects : p.objects (.move bytes) = false := by
    simp only [objects, Bool.and_eq_false_iff, decide_eq_false_iff_not]
    exact .inr (Int.not_lt.2 h)
  rw [Reaches, run_cons, objectsIn_cons, step, hobjects]
  exact ⟨rfl, rfl⟩

theorem reaches_up {n : Nat} (h : n ≤ p.depth) : p.Reaches [up n] { p with depth := p.depth - n } :=
  reaches_move (by omega)

theorem inBody_reaches (h : Descends ms) (hd : 0 ≤ d) :
    (inBody d b).Reaches ms (inBody (d + total ms) b) := by
  induction ms generalizing d with
  | nil => simp [Reaches]
  | cons m ms ih =>
    obtain ⟨hm, hms⟩ := forall_mem_cons.1 h
    rcases hm with rfl | ⟨n, rfl⟩
    · rw [total_cons, bytes, Int.zero_add]
      exact ih hms hd
    · rw [total_cons, bytes, ← Int.add_assoc]
      exact (reaches_move (p := inBody d b) (show 0 ≤ d + n by omega)).append (ih hms (d := d + n) (by omega))

theorem opening_reaches (h : ∀ m ∈ ms, ∃ n : Nat, m = .move n) (hd : 0 ≤ d) :
    (opening d).Reaches ms (opening (d + total ms)) := by
  induction ms generalizing d with
  | nil => simp [Reaches]
  | cons m ms ih =>
    obtain ⟨⟨n, rfl⟩, hms⟩ := forall_mem_cons.1 h
    rw [total_cons, bytes, ← Int.add_assoc]
    exact (reaches_move (p := opening d) (show 0 ≤ d + n by omega)).append (ih hms (d := d + n) (by omega))

theorem opening_reaches_inBody (h : Descends ms) (hstay : .stay ∈ ms)
    (hhead : ∀ n, ms.head? = some (.move n) → 0 < n) (hd : 0 ≤ d) :
    ∃ b, 0 ≤ b ∧ (opening d).Reaches ms (inBody (d + total ms) b) ∧
      (b = d ↔ ms.head?.any Motion.isMove = false) := by
  obtain ⟨pre, post, rfl, hpre⟩ := eq_append_cons_of_mem hstay
  obtain ⟨hfirst, hrest⟩ := forall_mem_append.1 h
  obtain ⟨-, hpost⟩ := forall_mem_cons.1 hrest
  have hmoves : ∀ m ∈ pre, ∃ n : Nat, m = .move n := fun m hm =>
    (hfirst m hm).resolve_left fun heq => hpre (heq ▸ hm)
  have hpos : 0 ≤ total pre := Descends.total_nonneg hfirst
  have hsettle : (opening (d + total pre)).Reaches [.stay] (inBody (d + total pre) (d + total pre)) :=
    ⟨rfl, rfl⟩
  refine ⟨d + total pre, by omega, ?_, ?_⟩
  · rw [total_append, total_cons, bytes, Int.zero_add, ← Int.add_assoc]
    exact (opening_reaches hmoves hd).append (hsettle.append (inBody_reaches hpost (by omega)))
  · cases pre with
    | nil => simp [Motion.isMove]
    | cons m pre =>
      obtain ⟨⟨n, rfl⟩, -⟩ := forall_mem_cons.1 hmoves
      have hn := hhead n rfl
      have htail : 0 ≤ total pre := Descends.total_nonneg (forall_mem_cons.1 hfirst).2
      simp only [total_cons, bytes, cons_append, head?_cons, Option.any_some,
        Motion.isMove, Bool.true_eq_false, iff_false]
      omega

end Pose

open Pose Motion

/-! ### Stretches of code -/

structure Balanced (ms : List Motion) : Prop where
  body : ∀ {d b : Int}, 0 ≤ d → (inBody d b).Reaches ms (inBody d b)
  opening : ∀ {d : Int}, 0 ≤ d → ms ≠ [] → ∃ b, 0 ≤ b ∧ (opening d).Reaches ms (inBody d b) ∧
    (b = d ↔ ms.head?.any Motion.isMove = false)
  ret : .ret ∉ ms

structure Leaving (depth : Int) (ms : List Motion) : Prop where
  body : ∀ {d b : Int}, 0 ≤ d →
    (inBody d b).run ms = inBody b b ∧ (inBody d b).objectsIn ms = decide (d ≠ depth)
  opening : (opening depth).Reaches ms (inBody 0 0)
  head : ms.head?.any Motion.isMove = true
  ret : ms.count .ret = 1

def Motion.rise (bytes : Nat) : List Motion := if bytes = 0 then [] else [up bytes]

theorem Motion.total_of_stay (h : ∀ m ∈ ms, m = .stay) : total ms = 0 := by
  induction ms with
  | nil => rfl
  | cons m ms ih =>
    obtain ⟨rfl, hms⟩ := forall_mem_cons.1 h
    rw [total_cons, ih hms]
    rfl

theorem Pose.inBody_reaches_rise (bytes : Nat) {d : Int} (b : Int) (hd : 0 ≤ d) :
    (inBody (d + bytes) b).Reaches (rise bytes) (inBody d b) := by
  unfold rise
  split
  · next hzero =>
    subst hzero
    simp [Reaches]
  · have hup := reaches_up (p := inBody (d + bytes) b) (show (bytes : Int) ≤ d + bytes by omega)
    simpa only [inBody, Int.add_sub_cancel] using hup

theorem Balanced.of_descends {us vs : List Motion} (hus : Descends us) (hstay : .stay ∈ us)
    (hhead : ∀ n, us.head? = some (.move n) → 0 < n) {bytes : Nat} (htotal : total us = bytes)
    (hvs : ∀ m ∈ vs, m = .stay) : Balanced (us ++ rise bytes ++ vs) := by
  have hdescends : Descends vs := fun m hm => .inl (hvs m hm)
  have hup : ∀ {d b : Int}, 0 ≤ d → (inBody (d + total us) b).Reaches (rise bytes ++ vs) (inBody d b) := by
    intro d b hd
    have hstays := inBody_reaches (b := b) hdescends hd
    rw [total_of_stay hvs, Int.add_zero] at hstays
    rw [htotal]
    exact (inBody_reaches_rise bytes b hd).append hstays
  rw [append_assoc]
  refine ⟨fun hd => (inBody_reaches hus hd).append (hup hd), fun hd _ => ?_, ?_⟩
  · obtain ⟨b, hb, hreaches, hiff⟩ := opening_reaches_inBody hus hstay hhead hd
    refine ⟨b, hb, hreaches.append (hup hd), ?_⟩
    rw [head?_append_of_ne_nil _ (ne_nil_of_mem hstay)]
    exact hiff
  · have hrise : .ret ∉ rise bytes := by
      unfold rise
      split <;> simp [up]
    simp only [mem_append, not_or]
    refine ⟨fun hmem => ?_, hrise, fun hmem => ?_⟩
    · rcases hus _ hmem with heq | ⟨n, heq⟩ <;> cases heq
    · cases hvs _ hmem

theorem Balanced.of_stay (h : ∀ m ∈ ms, m = .stay) : Balanced ms := by
  cases ms with
  | nil => exact ⟨fun _ => ⟨rfl, rfl⟩, fun _ hne => absurd rfl hne, not_mem_nil⟩
  | cons m ms =>
    obtain ⟨rfl, hms⟩ := forall_mem_cons.1 h
    have hstay : Descends [.stay] := by simp [Descends]
    have htotal : total [.stay] = (0 : Nat) := rfl
    exact of_descends hstay (by simp) (by simp) htotal hms

theorem Pose.run_rises (ns : List Nat) (htracking : p.tracking = true) (hdepth : 0 ≤ p.depth) :
    ∃ e, p.run (ns.map up) = { p with depth := e } ∧
      (ns.sum ≤ p.depth → e = p.depth - ns.sum) ∧
      p.objectsIn (ns.map up) = decide (p.depth < ns.sum) := by
  induction ns generalizing p with
  | nil =>
    exact ⟨p.depth, rfl, fun _ => (Int.sub_zero _).symm, (decide_eq_false (Int.not_lt.2 hdepth)).symm⟩
  | cons n ns ih =>
    rw [map_cons, run_cons, objectsIn_cons, sum_cons, Int.natCast_add]
    by_cases hlow : p.depth < n
    · have hobjects : p.objects (up n) = true := by
        simp only [objects, up, htracking, Bool.true_and, decide_eq_true_eq]
        omega
      have hdepth' : (p.step (up n)).depth = 0 := if_pos hobjects
      obtain ⟨e, hrun, -, -⟩ := ih (p := p.step (up n)) htracking (Int.le_of_eq hdepth'.symm)
      refine ⟨e, hrun, fun hle => by omega, ?_⟩
      rw [hobjects, Bool.true_or, eq_comm, decide_eq_true_eq]
      omega
    · obtain ⟨hstep, hobjects⟩ := reaches_up (p := p) (n := n) (by omega)
      obtain ⟨e, hrun, hexact, hquiet⟩ := ih (p := { p with depth := p.depth - n }) htracking
        (show 0 ≤ p.depth - n by omega)
      rw [run_cons, run_nil] at hstep
      rw [objectsIn_cons, objectsIn_nil, Bool.or_false] at hobjects
      rw [hobjects, hstep, hrun, hquiet, Bool.false_or]
      refine ⟨e, rfl, fun hle => ?_, decide_eq_decide.2 ?_⟩
      · rw [hexact (show (ns.sum : Int) ≤ p.depth - n by omega)]
        show p.depth - n - ns.sum = _
        omega
      · show p.depth - n < ns.sum ↔ _
        omega

theorem Leaving.of_rises {ns : List Nat} (hne : ns ≠ []) :
    Leaving ns.sum (ns.map up ++ [.ret]) where
  body {d b} hd := by
    obtain ⟨e, hrun, hexact, hloud⟩ := run_rises ns (p := inBody d b) rfl hd
    have hrun' : (inBody d b).run (ns.map up) = inBody e b := hrun
    refine ⟨by rw [run_append, hrun']; rfl, ?_⟩
    rw [objectsIn_append, hloud, hrun', objectsIn_cons, objectsIn_nil, Bool.or_false]
    show (decide (d < ns.sum) || decide (e ≠ 0)) = decide (d ≠ ns.sum)
    by_cases hlow : d < ns.sum
    · rw [decide_eq_true hlow, Bool.true_or, decide_eq_true (by omega)]
    · have he : e = d - ns.sum := hexact (Int.not_lt.1 hlow)
      rw [decide_eq_false hlow, Bool.false_or, he]
      exact decide_eq_decide.2 (by omega)
  opening := by
    have hsum : (0 : Int) ≤ ns.sum := by omega
    obtain ⟨e, hrun, hexact, hquiet⟩ := run_rises ns (p := Pose.opening ns.sum) rfl hsum
    have he : e = 0 := (hexact (Int.le_refl _)).trans (Int.sub_self _)
    have hrun' : (Pose.opening ns.sum).run (ns.map up) = Pose.opening 0 := he ▸ hrun
    refine ⟨by rw [run_append, hrun']; rfl, ?_⟩
    have hirrefl : decide ((Pose.opening ns.sum).depth < ns.sum) = false :=
      decide_eq_false (Int.lt_irrefl _)
    rw [objectsIn_append, hquiet, hrun', hirrefl]
    rfl
  head := by
    obtain ⟨n, ns, rfl⟩ := exists_cons_of_ne_nil hne
    rfl
  ret := by
    have hmoves : .ret ∉ ns.map up := by simp [up]
    rw [count_append, count_eq_zero.2 hmoves]
    rfl

/-! ### Whole functions -/

namespace Pose

variable {depth : Int} {stretches : List (List Motion)}
  (h : ∀ ms ∈ stretches, Balanced ms ∨ Leaving depth ms) (hdepth : 0 ≤ depth)

include h hdepth

theorem objectsIn_settled : (inBody depth depth).objectsIn stretches.flatten = false := by
  induction stretches with
  | nil => rfl
  | cons ms rest ih =>
    obtain ⟨hms, hrest⟩ := forall_mem_cons.1 h
    rw [flatten_cons, objectsIn_append]
    rcases hms with hms | hms
    · obtain ⟨hrun, hquiet⟩ := hms.body (b := depth) hdepth
      rw [hrun, hquiet, ih hrest]
      rfl
    · obtain ⟨hrun, hquiet⟩ := hms.body (b := depth) hdepth
      rw [hrun, hquiet, ih hrest]
      simp

omit hdepth in
theorem objectsIn_unsettled {b : Int} (hb : 0 ≤ b) (hne : b ≠ depth) :
    (inBody b b).objectsIn stretches.flatten = decide (0 < stretches.flatten.count .ret) := by
  induction stretches with
  | nil => rfl
  | cons ms rest ih =>
    obtain ⟨hms, hrest⟩ := forall_mem_cons.1 h
    rw [flatten_cons, objectsIn_append, count_append]
    rcases hms with hms | hms
    · obtain ⟨hrun, hquiet⟩ := hms.body (b := b) hb
      rw [hrun, hquiet, ih hrest, count_eq_zero.2 hms.ret, Nat.zero_add]
      rfl
    · obtain ⟨-, hloud⟩ := hms.body (b := b) hb
      rw [hloud, hms.ret, decide_eq_true hne, Bool.true_or, decide_eq_true (by omega)]

theorem objectsIn_misnoted {b : Int} (hb : 0 ≤ b) (hne : b ≠ depth) :
    (inBody depth b).objectsIn stretches.flatten = decide (2 ≤ stretches.flatten.count .ret) := by
  induction stretches with
  | nil => rfl
  | cons ms rest ih =>
    obtain ⟨hms, hrest⟩ := forall_mem_cons.1 h
    rw [flatten_cons, objectsIn_append, count_append]
    rcases hms with hms | hms
    · obtain ⟨hrun, hquiet⟩ := hms.body (b := b) hdepth
      rw [hrun, hquiet, ih hrest, count_eq_zero.2 hms.ret, Nat.zero_add]
      rfl
    · obtain ⟨hrun, hquiet⟩ := hms.body (b := b) hdepth
      rw [hrun, hquiet, objectsIn_unsettled hrest hb hne, hms.ret,
        decide_eq_false (fun hself => hself rfl), Bool.false_or]
      exact decide_eq_decide.2 (by omega)

theorem objectsIn_schedule (hpos : 0 < depth) :
    (opening depth).objectsIn stretches.flatten =
      (stretches.flatten.head?.any Motion.isMove && decide (2 ≤ stretches.flatten.count .ret)) := by
  induction stretches with
  | nil => rfl
  | cons ms rest ih =>
    obtain ⟨hms, hrest⟩ := forall_mem_cons.1 h
    rw [flatten_cons]
    rcases hms with hms | hms
    · cases ms with
      | nil => exact ih hrest
      | cons m ms =>
        obtain ⟨b, hb, ⟨hrun, hquiet⟩, hiff⟩ := hms.opening hdepth (cons_ne_nil m ms)
        have hhead : (m :: ms ++ rest.flatten).head?.any Motion.isMove = m.isMove := rfl
        rw [objectsIn_append, hrun, hquiet, hhead, count_append,
          count_eq_zero.2 hms.ret, Nat.zero_add, Bool.false_or]
        -- The first line decides which depth is noted for the body.
        cases hm : m.isMove with
        | false =>
          have hb : b = depth := hiff.2 (by simpa using hm)
          rw [hb, objectsIn_settled hrest hdepth, Bool.false_and]
        | true =>
          have hne : b ≠ depth := fun heq => by simpa [hm] using hiff.1 heq
          rw [objectsIn_misnoted hrest hdepth hb hne, Bool.true_and]
    · -- The prologue lasts until the return, at which the stack pointer is back at its start.
      have hne : ms ≠ [] := by
        rintro rfl
        cases hms.head
      rw [objectsIn_append, hms.opening.1, hms.opening.2, head?_append_of_ne_nil _ hne,
        hms.head, count_append, hms.ret, Bool.false_or, Bool.true_and,
        objectsIn_unsettled hrest (Int.le_refl 0) (Int.ne_of_lt hpos)]
      exact decide_eq_decide.2 (by omega)

end Pose

end SsaBackend
