import SsaBackend.Dialect
import SsaBackend.Peephole.Basic

/-!
# What dialects take for transfers

The readers of copies, stores, loads and jumps, read backwards: what an instruction looks like that a
dialect takes for one of them. The rules for every dialect look at instructions through these readers
only, and drop the second of two transfers (`Peephole.of_common`).
-/

namespace SsaBackend

open Option

variable {i : AsmInstr} {p : String × String} {label : String}

namespace Amd64

theorem move?_eq_some (h : move? i = some p) : i.mnemonic = "movq" ∧
    ∃ src dst, i.operands = [src, dst] ∧ register? src = some p.2 ∧ register? dst = some p.1 := by
  unfold move? at h
  split at h
  · next hm hops =>
    simp only [bind_eq_bind, bind_eq_some_iff] at h
    obtain ⟨_, hdst, _, hsrc, ⟨⟩⟩ := h
    exact ⟨hm, _, _, hops, hsrc, hdst⟩
  · cases h

theorem store?_eq_some (h : store? i = some p) : i.mnemonic = "movq" ∧
    ∃ src, i.operands = [src, p.2] ∧ register? src = some p.1 ∧ isMemory p.2 = true := by
  unfold store? at h
  split at h
  · next hm hops =>
    obtain ⟨hmem, h⟩ := ite_none_right_eq_some.1 h
    obtain ⟨_, hsrc, ⟨⟩⟩ := map_eq_some_iff.1 h
    exact ⟨hm, _, hops, hsrc, hmem⟩
  · cases h

theorem load?_eq_some (h : load? i = some p) : i.mnemonic = "movq" ∧
    ∃ dst, i.operands = [p.2, dst] ∧ register? dst = some p.1 ∧ isMemory p.2 = true := by
  unfold load? at h
  split at h
  · next hm hops =>
    obtain ⟨hmem, h⟩ := ite_none_right_eq_some.1 h
    obtain ⟨_, hdst, ⟨⟩⟩ := map_eq_some_iff.1 h
    exact ⟨hm, _, hops, hdst, hmem⟩
  · cases h

theorem jump?_eq_some (h : jump? i = some label) : i.mnemonic = "jmp" ∧ i.operands = [label] := by
  unfold jump? at h
  split at h
  · next hm hops =>
    cases h
    exact ⟨hm, hops⟩
  · cases h

end Amd64

namespace Arm64

theorem move?_eq_some (h : move? i = some p) : i.mnemonic = "mov" ∧ i.operands = [p.1, p.2] ∧
    isImmediate p.2 = false ∧ p.1 ≠ "sp" ∧ p.2 ≠ "sp" := by
  unfold move? at h
  split at h
  · next hm hops =>
    obtain ⟨hplain, ⟨⟩⟩ := ite_none_left_eq_some.1 h
    simp only [Bool.or_eq_true, decide_eq_true_eq, not_or, Bool.not_eq_true] at hplain
    exact ⟨hm, hops, hplain.1.1, hplain.1.2, hplain.2⟩
  · cases h

theorem store?_eq_some (h : store? i = some p) : i.mnemonic = "str" ∧ i.operands = [p.1, p.2] ∧
    Text.endsWith '!' p.2 = false := by
  unfold store? at h
  split at h
  · next hm hops =>
    obtain ⟨hmark, ⟨⟩⟩ := ite_none_left_eq_some.1 h
    exact ⟨hm, hops, Bool.eq_false_iff.2 hmark⟩
  · cases h

theorem load?_eq_some (h : load? i = some p) : i.mnemonic = "ldr" ∧ i.operands = [p.1, p.2] ∧
    Text.endsWith '!' p.2 = false := by
  unfold load? at h
  split at h
  · next hm hops =>
    obtain ⟨hmark, ⟨⟩⟩ := ite_none_left_eq_some.1 h
    exact ⟨hm, hops, Bool.eq_false_iff.2 hmark⟩
  · cases h

theorem jump?_eq_some (h : jump? i = some label) : i.mnemonic = "b" ∧ i.operands = [label] := by
  unfold jump? at h
  split at h
  · next hm hops =>
    cases h
    exact ⟨hm, hops⟩
  · cases h

end Arm64

namespace Riscv64

theorem move?_eq_some (h : move? i = some p) : i.mnemonic = "mv" ∧ i.operands = [p.1, p.2] := by
  unfold move? at h
  split at h
  · next hm hops =>
    obtain ⟨-, ⟨⟩⟩ := ite_none_left_eq_some.1 h
    exact ⟨hm, hops⟩
  · cases h

theorem store?_eq_some (h : store? i = some p) : i.mnemonic = "sd" ∧ i.operands = [p.1, p.2] := by
  unfold store? at h
  split at h
  · next hm hops =>
    cases h
    exact ⟨hm, hops⟩
  · cases h

theorem load?_eq_some (h : load? i = some p) : i.mnemonic = "ld" ∧ i.operands = [p.1, p.2] := by
  unfold load? at h
  split at h
  · next hm hops =>
    cases h
    exact ⟨hm, hops⟩
  · cases h

theorem jump?_eq_some (h : jump? i = some label) : i.mnemonic = "j" ∧ i.operands = [label] := by
  unfold jump? at h
  split at h
  · next hm hops =>
    cases h
    exact ⟨hm, hops⟩
  · cases h

end Riscv64

namespace Peephole

variable {d : Dialect} {j : AsmInstr} {r : Replacement}

theorem swapBack_eq_some (h : swapBack d i j = some r) : r = .dropSecond ∧
    ∃ dst src, d.move? i = some (dst, src) ∧ d.move? j = some (src, dst) := by
  simp only [swapBack, bind_eq_bind, bind_eq_some_iff, Prod.exists, ite_none_right_eq_some] at h
  obtain ⟨_, _, hi, _, _, hj, ⟨rfl, rfl⟩, ⟨⟩⟩ := h
  exact ⟨rfl, _, _, hi, hj⟩

theorem reload_eq_some (h : reload d i j = some r) : r = .dropSecond ∧
    ∃ reg text, d.store? i = some (reg, text) ∧ d.load? j = some (reg, text) := by
  simp only [reload, bind_eq_bind, bind_eq_some_iff, Prod.exists, ite_none_right_eq_some] at h
  obtain ⟨_, _, hi, _, _, hj, ⟨rfl, rfl⟩, ⟨⟩⟩ := h
  exact ⟨rfl, _, _, hi, hj⟩

theorem storeBack_eq_some (h : storeBack d i j = some r) : r = .dropSecond ∧
    ∃ reg text, d.load? i = some (reg, text) ∧ d.store? j = some (reg, text) := by
  simp only [storeBack, bind_eq_bind, bind_eq_some_iff, Prod.exists, ite_none_right_eq_some] at h
  obtain ⟨_, _, hi, _, _, hj, ⟨rfl, rfl⟩, ⟨⟩⟩ := h
  exact ⟨rfl, _, _, hi, hj⟩

theorem of_common {rule : Rule} (hrule : rule ∈ commonRules d) (hr : rule i j = some r) :
    r = .dropSecond ∧
      ((∃ dst src, d.move? i = some (dst, src) ∧ d.move? j = some (src, dst)) ∨
        (∃ reg text, d.store? i = some (reg, text) ∧ d.load? j = some (reg, text)) ∨
        ∃ reg text, d.load? i = some (reg, text) ∧ d.store? j = some (reg, text)) := by
  simp only [commonRules, List.mem_cons, List.not_mem_nil, or_false] at hrule
  rcases hrule with rfl | rfl | rfl
  · exact (swapBack_eq_some hr).imp_right .inl
  · exact (reload_eq_some hr).imp_right (.inr ∘ .inl)
  · exact (storeBack_eq_some hr).imp_right (.inr ∘ .inr)

end Peephole

end SsaBackend
