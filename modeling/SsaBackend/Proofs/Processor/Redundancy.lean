import Mathlib.Algebra.Order.Ring.Int
import SsaBackend.Proofs.Processor.Machine

/-!
# Redundant transfers

When the second of two transfers between registers and memory does nothing: a copy back, a load of what
was just stored, and a store of what was just loaded. Each of them may fail in ways of its own, so each
has an equivalence here. A copy back fails if the first copy was lost (`redundant_copy_iff`). A load fails
if the address is relative to the instruction, since the two instructions stand in different places
(`redundant_load_iff`). A store fails for the same reason, if the load was lost, and if the load changed
the address (`redundant_store_iff`).
-/

namespace SsaBackend.Processor

variable {length : Nat} {v : View}

/-- The second of two operations changes neither registers nor memory, whatever the state and wherever
the two stand, if the second has the given length. -/
def Redundant (length : Nat) (a b : Operation) : Prop :=
  ∀ (e e' : Setting) (s : State), e'.next = e.next + BitVec.ofNat 64 length →
    ∃ r r', run [(a, e)] s = some r ∧ run [(a, e), (b, e')] s = some r' ∧
      r'.state.registers = r.state.registers ∧ r'.state.memory = r.state.memory

structure Operation.IsPlain (op : Operation) : Prop where
  control : ∀ e s, op.control e s = .next
  isDefined : ∀ e s, op.isDefined e s = true

theorem run_of_isPlain {op : Operation} (h : op.IsPlain) (e : Setting)
    (rest : List (Operation × Setting)) (s : State) :
    run ((op, e) :: rest) s = run rest (op.after e s) := by
  rw [run, Operation.step, if_pos (h.isDefined e s), Option.bind_some, if_pos (h.control e s)]

theorem isPlain_copy (dst src : View) : (Operation.copy dst src).IsPlain :=
  ⟨fun _ _ => rfl, fun _ _ => rfl⟩

theorem isPlain_load (dst : View) (address : Address) (bytes : Nat) :
    (Operation.load dst address bytes).IsPlain :=
  ⟨fun _ _ => rfl, fun _ _ => rfl⟩

theorem isPlain_store (x : Reading) (address : Address) (bytes : Nat) :
    (Operation.store x address bytes).IsPlain :=
  ⟨fun _ _ => rfl, fun _ _ => rfl⟩

theorem redundant_iff_after {a b : Operation} (ha : a.IsPlain) (hb : b.IsPlain) :
    Redundant length a b ↔
      ∀ (e e' : Setting) (s : State), e'.next = e.next + BitVec.ofNat 64 length →
        (b.after e' (a.after e s)).registers = (a.after e s).registers ∧
          (b.after e' (a.after e s)).memory = (a.after e s).memory := by
  simp [Redundant, run_of_isPlain ha, run_of_isPlain hb]

theorem View.bits_congr {s s' : State}
    (h : ∀ r, v.register = some r → s.registers r = s'.registers r) : v.bits s = v.bits s' := by
  unfold bits
  cases hv : v.register with
  | none => rfl
  | some r => simp only [h r hv]

@[simp] theorem Operation.after_set_zero (x : Reading) (e : Setting) (s : State) :
    (set .zero x).after e s = s := rfl

/-! ### States for counterexamples -/

def blank (m : Memory) : State := ⟨fun _ => 0, m, default⟩

def Setting.before (next : Word) : Setting := ⟨next, fun _ => 0, fun _ => 0, default⟩

@[simp] theorem registers_blank (m : Memory) (r : Register) : (blank m).registers r = 0 := rfl

@[simp] theorem memory_blank (m : Memory) : (blank m).memory = m := rfl

@[simp] theorem next_before (next : Word) : (Setting.before next).next = next := rfl

theorem store_store_ne (address distance word : Word) {k : Nat} (hk : k < 8)
    (hout : 8 ≤ distance.toNat + k) (hlt : distance.toNat + k < 2 ^ 64)
    (hbyte : word.extractLsb' (8 * k) 8 ≠ 0) :
    Memory.store (Memory.store (fun _ => 0) address 8 word) (address + distance) 8 word ≠
      Memory.store (fun _ => 0) address 8 word := by
  intro h
  have hat := congrFun h (address + distance + BitVec.ofNat 64 k)
  have hinner : address + distance + BitVec.ofNat 64 k - (address + distance) = BitVec.ofNat 64 k := by
    rw [BitVec.add_comm, BitVec.add_sub_cancel]
  have houter : (address + distance + BitVec.ofNat 64 k - address).toNat = distance.toNat + k := by
    rw [BitVec.add_assoc, BitVec.add_comm, BitVec.add_sub_cancel, BitVec.toNat_add,
      BitVec.toNat_ofNat]
    omega
  have hnat : (BitVec.ofNat 64 k).toNat = k := by
    rw [BitVec.toNat_ofNat]
    omega
  simp only [Memory.store, hinner, houter, hnat, if_pos hk, if_neg (Nat.not_lt.2 hout)] at hat
  exact hbyte hat

theorem load_store_ne (address : Word) (hlength : 1 ≤ length ∧ length ≤ 15) :
    Memory.load (Memory.store (fun _ => 0xff) address 8 0) (address + BitVec.ofNat 64 length) 8 ≠ 0 := by
  intro h
  have hdistance : (address + BitVec.ofNat 64 length + BitVec.ofNat 64 7 - address).toNat =
      length + 7 := by
    rw [BitVec.add_assoc, BitVec.add_comm, BitVec.add_sub_cancel, BitVec.toNat_add,
      BitVec.toNat_ofNat, BitVec.toNat_ofNat]
    omega
  have hbit := congrArg (BitVec.getLsbD · 63) h
  simp only [Memory.getLsbD_load, Memory.store, Nat.reduceDiv, hdistance,
    if_neg (show ¬length + 7 < 8 by omega)] at hbit
  exact absurd hbit (by decide)

/-! ### A copy back -/

theorem redundant_copy_iff {dst src : View} (hdst : dst.IsWide) (hsrc : src.IsWide) :
    Redundant length (.copy dst src) (.copy src dst) ↔
      (dst.register = none → src.register = none) := by
  rw [redundant_iff_after (isPlain_copy ..) (isPlain_copy ..)]
  obtain rfl | ⟨r, rfl⟩ := hdst.eq_zero_or <;> obtain rfl | ⟨r', rfl⟩ := hsrc.eq_zero_or
  · simp [Operation.copy]
  · -- the first copy is lost, and the second one clears the register
    simp only [View.register_zero, View.register_whole, true_implies, reduceCtorEq, iff_false]
    intro h
    have hat := (h (.before 0) (.before (BitVec.ofNat 64 length)) ((blank fun _ => 0).set r' 1)
      (by simp)).1
    simpa [Operation.copy] using congrFun hat r'
  · simp [Operation.copy]
  · have hback : ∀ s : State, (s.set r (s.registers r')).set r' (s.registers r') =
        s.set r (s.registers r') := by
      intro s
      by_cases hr : r' = r
      · rw [hr, State.set_set]
      · have hsame := State.set_registers (s.set r (s.registers r')) r'
        rwa [State.registers_set_of_ne s hr] at hsame
    simp [Operation.copy, hback]

/-! ### A load of what was stored -/

theorem Address.value_sum_congr {base : Option View} {index : Option Index} {offset : Word}
    {s s' : State}
    (h : ∀ r ∈ (sum base index offset).registers, s.registers r = s'.registers r) (e e' : Setting) :
    (sum base index offset).value e s = (sum base index offset).value e' s' := by
  have hbase : ∀ v, base = some v → v.bits s = v.bits s' := fun v hv =>
    View.bits_congr fun r hr => h r (by simp [registers, hv, hr])
  have hindex : ∀ i, index = some i → i.view.bits s = i.view.bits s' := fun i hi =>
    View.bits_congr fun r hr => h r (by simp [registers, hi, hr])
  cases base <;> cases index <;> simp_all [value, Index.value, View.read, View.readSigned]

theorem redundant_load_iff (hlength : 1 ≤ length ∧ length ≤ 15) (hv : v.IsWide) (a : Address) :
    Redundant length (.store v.read a 8) (.load v a 8) ↔
      ∀ offset, a = .relative offset → v.register = none := by
  rw [redundant_iff_after (isPlain_store ..) (isPlain_load ..)]
  obtain rfl | ⟨r, rfl⟩ := hv.eq_zero_or
  · simp [Operation.load]
  · cases a with
    | sum base index offset =>
      refine iff_of_true (fun e e' s _ => ?_) (by simp)
      have haddress : ∀ m, (Address.sum base index offset).value e' { s with memory := m } =
          (Address.sum base index offset).value e s := fun _ =>
        Address.value_sum_congr (fun _ _ => rfl) e' e
      simp [Operation.load, Address.read, haddress, Memory.load_store, State.set]
    | relative offset =>
      simp only [Address.relative.injEq, View.register_whole, reduceCtorEq, imp_false,
        forall_eq', iff_false]
      intro h
      -- the last byte of the second word lies behind the first one
      have hat := (h (.before 0) (.before (BitVec.ofNat 64 length)) (blank fun _ => 0xff) (by simp)).1
      refine load_store_ne offset hlength ?_
      rw [BitVec.add_comm]
      simpa [Operation.load, Address.read, Address.value] using congrFun hat r

/-! ### A store of what was loaded -/

theorem signExtend_zero (width : Nat) : (BitVec.ofNat width 0).signExtend 64 = 0#64 := by
  simp [BitVec.signExtend]

theorem Address.value_blank (base : Option View) (index : Option Index) (offset : Word) (e : Setting)
    (m : Memory) : (sum base index offset).value e (blank m) = offset := by
  have hbits : ∀ v : View, v.bits (blank m) = 0#v.width := by
    intro v
    unfold View.bits
    cases v.register <;> simp
  cases base <;> cases index <;>
    simp [value, Index.value, View.read, View.readSigned, hbits, signExtend_zero]

def mark : Word := 0x100000

theorem View.IsLow.read_mark (h : v.IsLow) (e : Setting) (m : Memory) (r : Register) :
    v.read e ((blank m).set r mark) = (if v.register = some r then mark else 0) ∧
      v.readSigned e ((blank m).set r mark) = if v.register = some r then mark else 0 := by
  have hmark : (mark.extractLsb' v.low v.width).setWidth 64 = mark ∧
      (mark.extractLsb' v.low v.width).signExtend 64 = mark := by
    rw [h.low]
    rcases h.width with hw | hw <;> rw [hw] <;> decide
  unfold read readSigned bits
  cases v.register with
  | none => simp [signExtend_zero]
  | some r' =>
    by_cases hr : r' = r
    · simp [hr, hmark]
    · simp [State.registers_set_of_ne _ hr, hr, signExtend_zero]

def Address.IsLow : Address → Prop
  | sum base index _ => (∀ v, base = some v → v.IsLow) ∧ ∀ i, index = some i → i.view.IsLow
  | relative _ => True

theorem Address.IsLow.value_mark {base : Option View} {index : Option Index} {offset : Word}
    (h : (sum base index offset).IsLow) {r : Register} (hr : r ∈ (sum base index offset).registers)
    (e : Setting) (m : Memory) : ∃ distance : Word, 8 ≤ distance.toNat ∧ distance.toNat < 2 ^ 32 ∧
      (sum base index offset).value e ((blank m).set r mark) = offset + distance := by
  have hbase : ∃ x : Word, (base.elim 0 fun v => v.read e ((blank m).set r mark)) = x ∧
      (x = mark ∨ x = 0 ∧ base.bind View.register ≠ some r) := by
    refine ⟨_, rfl, ?_⟩
    cases base with
    | none => exact .inr ⟨rfl, by simp⟩
    | some v =>
      simp only [Option.elim_some, (h.1 v rfl).read_mark, Option.bind_some]
      by_cases hv : v.register = some r <;> simp [hv]
  have hindex : ∃ x : Word, (index.elim 0 fun i => i.value e ((blank m).set r mark)) = x ∧
      ((∃ k : Fin 4, x = mark <<< k.val) ∨
        x = 0 ∧ (index.bind fun i => i.view.register) ≠ some r) := by
    refine ⟨_, rfl, ?_⟩
    cases index with
    | none => exact .inr ⟨rfl, by simp⟩
    | some i =>
      simp only [Option.elim_some, Index.value, (h.2 i rfl).read_mark, Option.bind_some, ite_self]
      by_cases hi : i.view.register = some r
      · exact .inl ⟨i.shift, by simp [hi]⟩
      · exact .inr ⟨by simp [hi], hi⟩
  obtain ⟨x, hx, hxr⟩ := hbase
  obtain ⟨y, hy, hyr⟩ := hindex
  have hvalue : (sum base index offset).value e ((blank m).set r mark) = offset + (x + y) := by
    rw [← hx, ← hy, BitVec.add_comm]
    rfl
  refine ⟨x + y, and_assoc.1 ⟨?_, hvalue⟩⟩
  simp only [registers, List.mem_append, Option.mem_toList] at hr
  -- the register may count twice, as base and as index, and the distance is still short
  have hshift : ∀ k : Fin 4, (8 ≤ (mark + mark <<< k.val).toNat ∧
      (mark + mark <<< k.val).toNat < 2 ^ 32) ∧
      8 ≤ (0 + mark <<< k.val).toNat ∧ (0 + mark <<< k.val).toNat < 2 ^ 32 := by decide
  rcases hxr with rfl | ⟨rfl, hxr⟩ <;> rcases hyr with ⟨k, rfl⟩ | ⟨rfl, hyr⟩
  · exact (hshift k).1
  · decide
  · exact (hshift k).2
  · exact absurd hr (by simp [hxr, hyr])

theorem redundant_store_iff (hlength : 1 ≤ length ∧ length ≤ 15) (hv : v.IsWide) {a : Address}
    (ha : a.IsLow) :
    Redundant length (.load v a 8) (.store v.read a 8) ↔
      ∃ r, v.register = some r ∧ r ∉ a.registers ∧ ∀ offset, a ≠ .relative offset := by
  rw [redundant_iff_after (isPlain_load ..) (isPlain_store ..)]
  obtain rfl | ⟨r, rfl⟩ := hv.eq_zero_or
  · -- nothing is loaded, and zero is stored
    simp only [View.register_zero, reduceCtorEq, false_and, exists_false, iff_false]
    intro h
    have hat := (h (.before 0) (.before (BitVec.ofNat 64 length)) (blank fun _ => 0xff) (by simp)).2
    have hbyte := congrFun hat (a.value (.before (BitVec.ofNat 64 length)) (blank fun _ => 0xff))
    simp [Operation.load, Memory.store] at hbyte
  · simp only [View.register_whole, Option.some.injEq, exists_eq_left']
    cases a with
    | relative offset =>
      refine iff_of_false (fun h => ?_) (by simp)
      have hat := (h (.before 0) (.before (BitVec.ofNat 64 length))
        (blank (Memory.store (fun _ => 0) offset 8 (BitVec.allOnes 64))) (by simp)).2
      -- run at two places in the code, the pair loads from one address and stores to another
      have hdistance : (BitVec.ofNat 64 length).toNat = length := by
        rw [BitVec.toNat_ofNat]
        omega
      refine store_store_ne offset (BitVec.ofNat 64 length) (BitVec.allOnes 64) (k := 7) (by decide)
        (by omega) (by omega) (by decide) ?_
      rw [BitVec.add_comm offset]
      simpa [Operation.load, Address.read, Address.value, Memory.load_store] using hat
    | sum base index offset =>
      by_cases hr : r ∈ (Address.sum base index offset).registers
      · refine iff_of_false (fun h => ?_) (by simp [hr])
        have hat := (h (.before 0) (.before (BitVec.ofNat 64 length))
          (blank (Memory.store (fun _ => 0) offset 8 mark)) (by simp)).2
        obtain ⟨distance, hle, hlt, hvalue⟩ := ha.value_mark hr (.before (BitVec.ofNat 64 length))
          (Memory.store (fun _ => 0) offset 8 mark)
        refine store_store_ne offset distance mark (k := 2) (by decide) (by omega) (by omega)
          (by decide) ?_
        rw [← hvalue]
        simpa [Operation.load, Address.read, Address.value_blank, Memory.load_store] using hat
      · refine iff_of_true (fun e e' s _ => ?_) ⟨hr, by simp⟩
        have haddress : ∀ word, (Address.sum base index offset).value e' (s.set r word) =
            (Address.sum base index offset).value e s := by
          refine fun word => Address.value_sum_congr (fun r' hr' => ?_) e' e
          refine State.registers_set_of_ne s ?_ word
          rintro rfl
          exact hr hr'
        simp [Operation.load, Address.read, haddress, Memory.store_load]

end SsaBackend.Processor
