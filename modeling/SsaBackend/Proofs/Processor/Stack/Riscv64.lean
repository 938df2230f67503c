import SsaBackend.Proofs.Processor.Stack.Effects

/-!
# The stack pointer of riscv64

Only sums and copies move the stack pointer as far as the dialect sees, and it is right about these.
Constants pass through more instructions here than elsewhere, since a large one takes several of them.
-/

namespace SsaBackend.Processor.Riscv64

open SsaBackend.Riscv64 hiding literal?
open Option

variable {k k' : Constants} {i : AsmInstr} {op : Operation} {e : Setting} {s : State}
variable {onStack : Int → StackEffect}

theorem otherEffects_eq_nil (h : .unknown ∉ otherEffects i) : otherEffects i = [] := by
  unfold otherEffects at h ⊢
  split
  · next hcond => simp [hcond] at h
  · rfl

/-! ### More constants -/

theorem known?_of_within (h : k.Within k') {operand : String} {n : Int}
    (hn : known? k operand = some n) : known? k' operand = some n := by
  obtain ⟨c, hc, rfl⟩ := map_eq_some_iff.1 hn
  rw [known?, h operand c hc, map_some]

theorem sumEffects_of_le {dst src : String} {delta delta' : Option Int}
    (h : ∀ n, delta = some n → delta' = some n)
    (hunknown : .unknown ∉ sumEffects i dst src delta onStack) :
    sumEffects i dst src delta' onStack = sumEffects i dst src delta onStack := by
  cases delta with
  | some n => rw [h n rfl]
  | none =>
    unfold sumEffects at hunknown ⊢
    split
    · next hcond => simp [hcond] at hunknown
    · next hcond =>
      split
      · next hcond' => simp [hcond, hcond'] at hunknown
      · rfl

theorem effects_of_within (h : k.Within k') (hunknown : .unknown ∉ stackEffects k i) :
    stackEffects k' i = stackEffects k i := by
  unfold stackEffects at hunknown ⊢
  split at hunknown
  · rfl
  · rfl
  · exact sumEffects_of_le (fun n => known?_of_within h) hunknown
  · refine sumEffects_of_le (fun n hn => ?_) hunknown
    obtain ⟨m, hm, rfl⟩ := map_eq_some_iff.1 hn
    rw [known?_of_within h hm, map_some]
  · rfl

theorem constant_of_within (h : k.Within k') {c : Int64} (hc : constant? k i = some c) :
    constant? k' i = some c := by
  unfold constant? at hc ⊢
  split at hc
  · exact hc
  · exact hc
  case h_6 => exact h _ c hc
  case h_7 => cases hc
  all_goals
    obtain ⟨old, hold, hc⟩ := bind_eq_some_iff.1 hc
    rw [h _ old hold]
    exact hc

theorem effects_of_isReturn (h : isReturn i = true) : stackEffects k i = [] := by
  have hm : i.mnemonic = "ret" ∨ i.mnemonic = "jr" := by
    simp only [isReturn, Bool.or_eq_true, Bool.and_eq_true, decide_eq_true_eq] at h
    exact h.imp_right And.left
  have hdest : destinations i = [] := by
    rcases hm with hm | hm <;> simp [destinations, withoutDestination, hm]
  rcases hm with hm | hm <;> simp [stackEffects, otherEffects, hm, hdest]

/-! ### Moves of the stack pointer -/

theorem view?_stackPointer : view? "sp" = some (.whole "sp") := by decide

theorem view?_framePointer {operand : String} (h : isFramePointer operand = true) :
    view? operand = some (.whole "s0") := by
  have hall : ∀ operand ∈ ["s0", "fp"], view? operand = some (.whole "s0") := by decide
  exact hall operand (List.contains_iff_mem.1 h)

theorem read_of_get? (hk : Knows view? k s) {name : String} {c : Int64} (hc : k.get? name = some c)
    {v : View} (hv : view? name = some v) : v.read e s = c.toBitVec := by
  obtain ⟨r, hr, hvalue⟩ := hk name c hc
  rw [Option.some.inj (hv.symm.trans hr), View.read_whole, hvalue]

theorem follows_sum {dst src : String} {delta : Option Int} {v w : View} {x : Reading}
    (hv : view? dst = some v) (hw : view? src = some w)
    (hx : ∀ n, delta = some n → x e s = w.read e s + BitVec.ofInt 64 n)
    (honStack : ∀ n p, (onStack n).isSetFrame = false ∧
      ((onStack n).shift p).1 = p.1 + BitVec.ofInt 64 n)
    (hunknown : .unknown ∉ sumEffects i dst src delta onStack)
    (hcount : (Operation.set v x).changed.count "sp" ≤
      (sumEffects i dst src delta onStack).length) :
    Follows "sp" "s0" (sumEffects i dst src delta onStack) s ((Operation.set v x).after e s) := by
  unfold sumEffects at hunknown hcount ⊢
  split
  · next hcond =>
    obtain ⟨rfl, rfl⟩ : dst = "sp" ∧ src = "sp" := by simpa using hcond
    cases delta with
    | none => simp at hunknown
    | some n =>
      cases hv.symm.trans view?_stackPointer
      cases hw.symm.trans view?_stackPointer
      exact follows_set_stack (honStack n (0, 0)).1 (by simp [hx n rfl, (honStack n _).2])
  · next hcond =>
    rw [if_neg hcond] at hunknown hcount
    split
    · next hcond' =>
      obtain ⟨hdst, rfl⟩ : isFramePointer dst = true ∧ src = "sp" := by simpa using hcond'
      cases delta with
      | none => simp [hdst] at hunknown
      | some n =>
        cases hv.symm.trans (view?_framePointer hdst)
        cases hw.symm.trans view?_stackPointer
        exact follows_set_frame (by decide) (by simp [hx n rfl])
    · next hcond' =>
      rw [if_neg hcond'] at hunknown hcount
      rw [otherEffects_eq_nil hunknown] at hcount ⊢
      exact follows_nil hcount e s

theorem follows_copy {dst src : String} {v w : View} (hv : view? dst = some v)
    (hw : view? src = some w) (hunknown : .unknown ∉ copyEffects i dst src)
    (hcount : (Operation.copy v w).changed.count "sp" ≤ (copyEffects i dst src).length) :
    Follows "sp" "s0" (copyEffects i dst src) s ((Operation.copy v w).after e s) := by
  unfold copyEffects at hunknown hcount ⊢
  split
  · next hcond =>
    obtain ⟨rfl, hsrc⟩ : dst = "sp" ∧ isFramePointer src = true := by simpa using hcond
    cases hv.symm.trans view?_stackPointer
    cases hw.symm.trans (view?_framePointer hsrc)
    exact follows_set_stack rfl (by simp [StackEffect.shift])
  · next hcond =>
    rw [if_neg hcond] at hunknown hcount
    split
    · next hcond' =>
      obtain ⟨hdst, rfl⟩ : isFramePointer dst = true ∧ src = "sp" := by simpa using hcond'
      cases hv.symm.trans (view?_framePointer hdst)
      cases hw.symm.trans view?_stackPointer
      exact follows_set_frame (by decide) (by simp)
    · next hcond' =>
      rw [if_neg hcond'] at hunknown hcount
      rw [otherEffects_eq_nil hunknown] at hcount ⊢
      exact follows_nil hcount e s

theorem shift_shiftEffect (n : Int) (p : Word × Word) : (shiftEffect n).isSetFrame = false ∧
    ((shiftEffect n).shift p).1 = p.1 + BitVec.ofInt 64 n := by
  unfold shiftEffect
  split
  · refine ⟨rfl, ?_⟩
    rw [StackEffect.shift, BitVec.ofInt_neg, BitVec.sub_eq_add_neg, BitVec.neg_neg]
  · exact ⟨rfl, rfl⟩

theorem follows (hop : operation? i = some op) (hk : Knows view? k s)
    (hunknown : .unknown ∉ stackEffects k i)
    (hcount : op.changed.count "sp" ≤ (stackEffects k i).length) :
    Follows "sp" "s0" (stackEffects k i) s (op.after e s) := by
  revert hunknown hcount
  -- the cases of the effects, not of the operation: each of them fixes the mnemonic
  unfold stackEffects
  split <;> intro hunknown hcount
  · next dst src hm hops =>
    rw [operation?_of_mnemonic hm rfl, hops] at hop
    simp only [computeAlone, bind_eq_bind, bind_eq_some_iff] at hop
    obtain ⟨w, hw, v, hv, ⟨⟩⟩ := hop
    exact follows_copy hv hw hunknown hcount
  · next dst src value hm hops =>
    rw [operation?_of_mnemonic hm rfl, hops] at hop
    simp only [computeWith, bind_eq_bind, bind_eq_some_iff] at hop
    obtain ⟨w, hw, y, hy, v, hv, ⟨⟩⟩ := hop
    obtain ⟨n, hn, rfl⟩ := map_eq_some_iff.1 hy
    have hliteral : SsaBackend.Riscv64.literal? value = some n.toInt := by
      rw [SsaBackend.Riscv64.literal?, hn, map_some]
    rw [hliteral] at hunknown hcount ⊢
    split
    · next hcond =>
      obtain ⟨rfl, hsrc⟩ : dst = "sp" ∧ isFramePointer src = true := by simpa using hcond
      cases hv.symm.trans view?_stackPointer
      cases hw.symm.trans (view?_framePointer hsrc)
      exact follows_set_stack rfl (by simp [StackEffect.shift])
    · next hcond =>
      rw [if_neg hcond] at hunknown hcount
      refine follows_sum hv hw (fun m hm => ?_) shift_shiftEffect hunknown hcount
      cases hm
      rw [BitVec.ofInt_int64ToInt]
  · next dst src reg hm hops =>
    rw [operation?_of_mnemonic hm rfl, hops] at hop
    simp only [compute, bind_eq_bind, bind_eq_some_iff] at hop
    obtain ⟨w, hw, y, hy, v, hv, ⟨⟩⟩ := hop
    refine follows_sum hv hw (fun n hn => ?_) (fun _ _ => ⟨rfl, rfl⟩) hunknown hcount
    obtain ⟨c, hc, rfl⟩ := map_eq_some_iff.1 hn
    rw [BitVec.ofInt_int64ToInt, ← read_of_get? hk hc hy]
  · next dst src reg hm hops =>
    rw [operation?_of_mnemonic hm rfl, hops] at hop
    simp only [compute, bind_eq_bind, bind_eq_some_iff] at hop
    obtain ⟨w, hw, y, hy, v, hv, ⟨⟩⟩ := hop
    refine follows_sum hv hw (fun n hn => ?_) (fun n p => ⟨rfl, ?_⟩) hunknown hcount
    · obtain ⟨m, hm, rfl⟩ := map_eq_some_iff.1 hn
      obtain ⟨c, hc, rfl⟩ := map_eq_some_iff.1 hm
      rw [BitVec.ofInt_neg, BitVec.ofInt_int64ToInt, ← read_of_get? hk hc hy, ← BitVec.sub_eq_add_neg]
    · rw [StackEffect.shift, BitVec.ofInt_neg, BitVec.sub_eq_add_neg, BitVec.neg_neg]
  · rw [otherEffects_eq_nil hunknown] at hcount ⊢
    exact follows_nil hcount e s

/-! ### Constants -/

theorem toBitVec_word (x : Int64) : (word x).toBitVec = narrow x.toBitVec := by
  have hlow : x.toBitVec.signExtend 32 = x.toBitVec.setWidth 32 := by
    refine BitVec.eq_of_getLsbD_eq fun n hn => ?_
    rw [BitVec.getLsbD_signExtend, BitVec.getLsbD_setWidth, if_pos (by omega)]
  simp [word, narrow, hlow]

theorem eq_of_mem_written {dst name : String} {rest : List String} {v : View}
    (hops : i.operands = dst :: rest) (hv : view? dst = some v) (h : name ∈ dialect.written i) :
    name = dst := by
  have hall : ∀ v ∈ views, Text.names v.1 = [v.1] := by decide
  obtain ⟨operand, hoperand, hname⟩ := List.mem_flatMap.1 h
  obtain ⟨index, hindex, hat⟩ := List.mem_filterMap.1 (List.mem_filter.1 hoperand).1
  have hfirst : index = 0 := by
    simp only [dialect, destinations] at hindex
    split at hindex
    · cases hindex
    · simpa using hindex
  rw [AsmInstr.operand?, hops, hfirst] at hat
  cases hat
  rw [show dialect.registers dst = [dst] from hall (dst, v) (mem_of_lookup hv)] at hname
  exact List.mem_singleton.1 hname

theorem constant {c : Int64} {name : String} {r : Register} (hop : operation? i = some op)
    (hk : Knows view? k s) (hc : constant? k i = some c) (hname : name ∈ dialect.written i)
    (hr : view? name = some (.whole r)) : (op.after e s).registers r = c.toBitVec := by
  -- every form writes one word under the name of its first operand
  have hset : ∀ {dst : String} {rest : List String} {v : View} {x : Reading},
      i.operands = dst :: rest → view? dst = some v → x e s = c.toBitVec →
      ((Operation.set v x).after e s).registers r = c.toBitVec := by
    intro dst rest v x hops hv hx
    obtain rfl := eq_of_mem_written hops hv hname
    cases hv.symm.trans hr
    simp [hx]
  have hwith : ∀ {f : Word → Word → Word} {dst src value : String} {old n : Int64},
      i.operands = [dst, src, value] → computeWith f [dst, src, value] = some op →
      k.get? src = some old → immediate? value = some n → f old.toBitVec n.toBitVec = c.toBitVec →
      (op.after e s).registers r = c.toBitVec := by
    intro f dst src value old n hops hop hold hn hf
    simp only [computeWith, literal?, hn, map_some, bind_eq_bind, bind_some,
      bind_eq_some_iff] at hop
    obtain ⟨w, hw, v, hv, ⟨⟩⟩ := hop
    exact hset hops hv (by rw [read_of_get? hk hold hw, hf])
  have hliteral : ∀ {f : Word → Word} {dst value : String} {n : Int64},
      i.operands = [dst, value] → setLiteral f false [dst, value] = some op →
      immediate? value = some n → f n.toBitVec = c.toBitVec →
      (op.after e s).registers r = c.toBitVec := by
    intro f dst value n hops hop hn hf
    simp only [setLiteral, literal?, hn, map_some, bind_eq_bind, bind_some, bind_eq_some_iff] at hop
    obtain ⟨v, hv, ⟨⟩⟩ := hop
    exact hset hops hv (by simp [hf])
  unfold constant? at hc
  split at hc
  · next dst value hm hops =>
    rw [operation?_of_mnemonic hm rfl, hops] at hop
    exact hliteral hops hop hc rfl
  · next dst value hm hops =>
    rw [operation?_of_mnemonic hm rfl, hops] at hop
    simp only [bind_eq_bind, bind_eq_some_iff, pure_def, Option.some.injEq] at hc
    obtain ⟨n, hn, rfl⟩ := hc
    refine hliteral hops hop hn ?_
    rw [toBitVec_word, toBitVec_shiftLeft]
    rfl
  · next dst src value hm hops =>
    rw [operation?_of_mnemonic hm rfl, hops] at hop
    simp only [bind_eq_bind, bind_eq_some_iff] at hc
    obtain ⟨old, hold, n, hn, ⟨⟩⟩ := hc
    refine hwith hops hop hold hn ?_
    rw [toBitVec_word, Int64.toBitVec_add, narrow, BitVec.setWidth_add _ _ (by decide)]
    rfl
  · next dst src value hm hops =>
    rw [operation?_of_mnemonic hm rfl, hops] at hop
    simp only [bind_eq_bind, bind_eq_some_iff] at hc
    obtain ⟨old, hold, n, hn, ⟨⟩⟩ := hc
    exact hwith hops hop hold hn Int64.toBitVec_add.symm
  · next dst src value hm hops =>
    rw [operation?_of_mnemonic hm rfl, hops] at hop
    simp only [bind_eq_bind, bind_eq_some_iff] at hc
    obtain ⟨old, hold, n, hn, ⟨⟩⟩ := hc
    exact hwith hops hop hold hn (toBitVec_shiftLeft old n).symm
  · next dst src hm hops =>
    rw [operation?_of_mnemonic hm rfl, hops] at hop
    simp only [computeAlone, bind_eq_bind, bind_eq_some_iff] at hop
    obtain ⟨w, hw, v, hv, ⟨⟩⟩ := hop
    exact hset hops hv (read_of_get? hk hc hw)
  · cases hc

theorem shows : Arch.Shows .riscv64 where
  effects_of_within := effects_of_within
  constant_of_within h := constant_of_within h
  effects_of_isReturn := effects_of_isReturn
  follows := follows
  constant := constant

end SsaBackend.Processor.Riscv64
