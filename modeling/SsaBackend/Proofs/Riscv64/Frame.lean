import SsaBackend.Proofs.Riscv64.Literal
import SsaBackend.Proofs.Semantics.Step

/-!
# The frame on riscv64

The prologue lowers the stack pointer by the whole frame, stores the return address and the frame
pointer at its upper end, takes the stack pointer of the caller for the frame pointer, and stores the
saved registers at their offsets. The epilogue loads all of them and raises the stack pointer again.
Sizes and offsets that no instruction can hold go through `t0`, so to read or write an operand of a
step changes nothing besides but `t0` (`loadReg_leads`, `write_leads`).
-/

namespace SsaBackend.Riscv64

open Asm List

variable (host : Host) {s t : State} {top x : Int64} {f : Frame} {n : Nat}
variable {offset : Nat} {dst src : Register} {a : Address}

/-! ### Instructions -/

theorem exec_reg (op : RegOp) (dst lhs rhs : Register) :
    (Instr.reg op dst lhs rhs).run host s =
      some (.next (s.set dst (op.apply (s.get lhs) (s.get rhs)))) := by
  rw [exec_instr]
  rfl

theorem Address.mem?_eq (h : a.offset < 2 ^ 32) : a.mem? = some ⟨a.base, Int64.ofNat a.offset⟩ := by
  rw [mem?, Text.word?_eq_some (by omega) (by omega), Int64.ofInt_eq_ofNat]
  rfl

theorem Instr.exec_ld (hoffset : a.offset < 2 ^ 32)
    (hload : s.load (s.get a.base + Int64.ofNat a.offset) = some x) :
    (ld dst a).run host s = some (.next (s.set dst x)) := by
  rw [exec_instr, op?, Address.mem?_eq hoffset]
  simp [Op.exec, Mem.address, hload]

theorem Instr.exec_sd (hoffset : a.offset < 2 ^ 32)
    (hstore : s.store (s.get a.base + Int64.ofNat a.offset) (s.get src) = some t) :
    (sd src a).run host s = some (.next t) := by
  rw [exec_instr, op?, Address.mem?_eq hoffset]
  simp [Op.exec, Mem.address, hstore]

theorem Instr.exec_mv (dst src : Register) :
    (mv dst src).run host s = some (.next (s.set dst (s.get src))) := by
  rw [exec_instr]
  rfl

theorem spAddress_leads (hoffset : offset < 2 ^ 32) (s : State) :
    Leads (exec host) ((spAddress offset).1.map Instr.cell) s fun s' =>
      s'.get (spAddress offset).2.base + Int64.ofNat (spAddress offset).2.offset =
        s.get "sp" + Int64.ofNat offset ∧ s.Agree ["t0"] s' := by
  unfold spAddress
  split
  · exact .nil ⟨rfl, .refl _ s⟩
  · rw [map_append]
    refine (materialize_leads host (by decide) (by omega) (by omega) s).append ?_
    rintro _ rfl
    refine .instr (exec_reg host .add addr "sp" addr) ⟨?_, ?_⟩
    · rw [State.get_set_self (by decide), State.get_set_self (by decide),
        State.get_set_of_ne (by decide) (by decide) (by decide), Int64.ofInt_eq_ofNat]
      exact Int64.add_zero _
    · exact (State.Agree.touch (by decide) (by simp [addr]) _ s).trans
        (.touch (by decide) (by simp [addr]) _ _)

theorem offset_spAddress_lt (h : offset < 2 ^ 32) : (spAddress offset).2.offset < 2 ^ 32 := by
  unfold spAddress
  split
  · exact h
  · exact Nat.two_pow_pos 32

theorem access : Access (exec host) target isFree "t0"
    (fun dst offset => (loadSp dst offset).map Instr.cell)
    (fun src offset => (storeSp src offset).map Instr.cell) := by
  have hfree {r : Register} (h : isFree r = true) : (isPlain r = true ∧ r ∉ ["t0"]) ∧ "sp" ≠ r := by
    obtain ⟨hmem, hnot⟩ := isFree_iff.1 h
    simp only [mem_cons, not_or] at hnot
    exact ⟨⟨(facts_of_mem_wholeRegs hmem).2.2, by simp [hnot]⟩, Ne.symm hnot.1⟩
  refine ⟨by decide, hfree, isFree_of_mem_calleeSaved, fun {s r offset x} hr hoffset hload => ?_,
    fun {s t r offset} hr hoffset hstore => ?_⟩
  · rw [loadSp, map_append]
    exact (spAddress_leads host hoffset s).loadAt (hfree hr).1.1 hload fun s' =>
      Instr.exec_ld host (offset_spAddress_lt hoffset)
  · rw [storeSp, map_append]
    exact (spAddress_leads host hoffset s).storeAt (hfree hr).1 hstore fun s' t' =>
      Instr.exec_sd host (offset_spAddress_lt hoffset)

theorem adjust_leads (top : Int64) {base : Register} (hdst : isPlain dst = true)
    (hbase : isPlain base = true ∧ base ≠ addr) {delta : Int} (hdelta : delta.natAbs < 2 ^ 32)
    (s : State) :
    Leads (exec host) ((adjust dst base delta).map Instr.cell) s fun s' =>
      s'.get dst = s.get base + Int64.ofInt delta ∧ Wrote top [dst, "t0"] [] s s' := by
  unfold adjust
  split
  · refine .instr (exec_imm host .addi (by omega) (by omega)) ⟨?_, .set top hdst (by simp) _ s⟩
    rw [State.get_set_self hdst]
    rfl
  · rw [map_append]
    refine (materialize_leads host (by decide) (by omega) (by omega) s).append ?_
    rintro _ rfl
    refine .instr (exec_reg host _ dst base addr) ⟨?_, ?_⟩
    · rw [State.get_set_self hdst, State.get_set_self (by decide),
        State.get_set_of_ne (by decide) hbase.1 hbase.2]
      split
      · next hneg =>
        rw [RegOp.apply, Int64.sub_eq_add_neg, ← Int64.ofInt_neg, Int.ofNat_natAbs_of_nonpos
          (Int.le_of_lt hneg), Int.neg_neg]
      · next hneg => rw [RegOp.apply, Int.natAbs_of_nonneg (Int.not_lt.1 hneg)]
    · exact (Wrote.set top (by decide) (by simp [addr]) _ s).trans (.set top hdst (by simp) _ _)

/-! ### Operands of steps -/

section Operands

variable {o : Operand}

theorem loadReg_leads (hdst : isFree dst = true)
    (ho : Arch.riscv64.Reads f target.valueRegs s o x) :
    Leads (exec host) ((loadReg f dst o).map Instr.cell) s ((s.set dst x).Agree ["t0"]) := by
  obtain ⟨ho, hread⟩ := ho
  have hplain := (facts_of_mem_wholeRegs (mem_of_isFree hdst)).2.2
  cases o with
  | immediate value =>
    cases hread
    refine (materialize_leads host hplain x.le_toInt x.toInt_lt s).mono ?_
    rintro _ rfl
    rw [Int64.ofInt_toInt]
    exact .refl _ _
  | register r =>
    cases hread
    simp only [loadReg]
    split
    · next heq =>
      subst heq
      rw [State.set_get hplain]
      exact .nil (.refl _ s)
    · exact .instr (Instr.exec_mv host dst r) (.refl _ _)
  | stack slot => exact (access host).load hdst ho hread

theorem write_leads (hsrc : isFree src = true)
    (ho : o.InReach .riscv64 f target.valueRegs)
    (hwrite : Arch.riscv64.writeOperand f s (s.get src) o = some t) :
    Leads (exec host) ((write f src o).map Instr.cell) s (t.Agree ["t0"]) := by
  cases o with
  | immediate value => cases hwrite
  | register r =>
    cases hwrite
    simp only [write]
    split
    · next heq =>
      subst heq
      rw [State.set_get (facts_of_mem_wholeRegs (mem_of_isFree hsrc)).2.2]
      exact .nil (.refl _ s)
    · exact .instr (Instr.exec_mv host r src) (.refl _ _)
  | stack slot => exact (access host).store hsrc ho hwrite

end Operands

/-! ### The prologue -/

def entryRegs : List Register := ["sp", "s0", "t0"]

def exitRegs : List Register := ["sp", "t0"]

theorem facts_of_mem_calleeSaved {r : Register} (h : r ∈ target.calleeSaved) :
    (isPlain r = true ∧ r ∉ entryRegs) ∧ isPlain r = true ∧ r ∉ exitRegs := by
  revert r
  decide

variable (hlaid : f.WellLaid target) (haligned : top.toInt % 8 = 0)

include hlaid haligned

theorem prologue_leads (hsp : s.get "sp" = top) :
    Leads (exec host) ((prologue f).map Instr.cell) s fun s' =>
      s'.get "sp" = below top f.size ∧ s'.get "s0" = top ∧
      Wrote top entryRegs
        ((8, s.get "ra") :: (16, s.get "s0") :: regWords f.saveDepth 0 f.saved s) s s' := by
  have hlt := hlaid.size_lt
  have hmod := hlaid.size_mod
  have hfits : 16 ≤ f.size := Nat.le_trans (Nat.le_add_left _ _) hlaid.fits
  have hkept : ∀ r ∈ f.saved, isPlain r = true ∧ r ∉ entryRegs := fun r hr =>
    (facts_of_mem_calleeSaved (hlaid.saved r hr)).1
  have hsub : f.size - (f.size - 8) = 8 ∧ f.size - (f.size - 16) = 16 := by omega
  rw [prologue, append_assoc, append_assoc, append_assoc, map_append,
    map_append, map_append, map_append, map_flatMap]
  refine (adjust_leads host top (by decide) (by decide) (by omega) s).append
    fun s₁ ⟨hsp₁, hwrote₁⟩ => ?_
  rw [hsp, Int64.ofInt_neg, Int64.ofInt_eq_ofNat, ← Int64.sub_eq_add_neg] at hsp₁
  refine ((access host).stores haligned (by decide) hlt (Nat.sub_le _ _) (by omega) hsp₁).append
    fun s₂ ⟨hsp₂, hwrote₂⟩ => ?_
  refine ((access host).stores haligned (by decide) hlt (Nat.sub_le _ _) (by omega) hsp₂).append
    fun s₃ ⟨hsp₃, hwrote₃⟩ => ?_
  refine (adjust_leads host top (by decide) (by decide) (by omega) s₃).append
    fun s₄ ⟨hfp₄, hwrote₄⟩ => ?_
  have hsp₄ := (hwrote₄.get "sp" (by decide) (by decide)).trans hsp₃
  rw [hsp₃, Int64.ofInt_eq_ofNat, below_add top (Nat.le_refl _), Nat.sub_self, below_zero] at hfp₄
  -- so far the words of the return address and the frame pointer were written
  have hbefore : Wrote top entryRegs [(8, s.get "ra"), (16, s.get "s0")] s s₄ := by
    have hwrote : Wrote top entryRegs _ s s₄ :=
      (((hwrote₁.mono (by decide)).trans (hwrote₂.mono (by decide))).trans
        (hwrote₃.mono (by decide))).trans (hwrote₄.mono (by decide))
    rw [hwrote₂.get "s0" (by decide) (by decide), hwrote₁.get "s0" (by decide) (by decide),
      hwrote₁.get "ra" (by decide) (by decide), hsub.1, hsub.2] at hwrote
    exact hwrote
  refine ((access host).saveRegs haligned hlaid hsp₄).mono fun s₅ ⟨hsp₅, hwrote₅⟩ => ⟨hsp₅, ?_, ?_⟩
  · rw [hwrote₅.get _ (by decide) (by decide), hfp₄]
  · have hwrote := hbefore.trans (hwrote₅.mono (by decide))
    rwa [regWords_eq_of_wrote hbefore hkept] at hwrote

/-! ### The epilogue -/

variable (old : Register → Int64) (hsp : s.get "sp" = below top f.size)
  (hwords : ∀ p ∈ f.saved.zipIdx, s.memory (below top (f.saveDepth p.2)) = some (old p.1))

include hsp hwords

theorem straight_epilogue (hra : s.memory (below top 8) = some (old "ra"))
    (hs0 : s.memory (below top 16) = some (old "s0")) :
    ∃ s', straight (exec host) ((epilogue f).map Instr.cell) s = some (.ret (old "ra") s') ∧
      s'.get "sp" = top ∧ Restored old (f.saved ++ ["ra"] ++ ["s0"]) exitRegs s s' := by
  have hlt := hlaid.size_lt
  have hmod := hlaid.size_mod
  have hfits : 16 ≤ f.size := Nat.le_trans (Nat.le_add_left _ _) hlaid.fits
  have hsub : f.size - (f.size - 8) = 8 ∧ f.size - (f.size - 16) = 16 := by omega
  have hsaved : ∀ r ∈ f.saved, isPlain r = true ∧ r ∉ ["t0"] := fun r hr =>
    ((access host).free (isFree_of_mem_calleeSaved (hlaid.saved r hr))).1
  have hsaved' : ∀ r ∈ f.saved ++ ["ra"], isPlain r = true ∧ r ∉ ["t0"] :=
    forall_mem_append.2 ⟨hsaved, forall_mem_singleton.2 (by decide)⟩
  have hkept : ∀ r ∈ f.saved ++ ["ra"] ++ ["s0"], isPlain r = true ∧ r ∉ exitRegs := by
    refine forall_mem_append.2 ⟨forall_mem_append.2 ⟨fun r hr => ?_, ?_⟩, ?_⟩
    · exact (facts_of_mem_calleeSaved (hlaid.saved r hr)).2
    · exact forall_mem_singleton.2 (by decide)
    · exact forall_mem_singleton.2 (by decide)
  rw [epilogue, map_append, map_append, map_append, map_append]
  -- the registers, then `ra`, then `s0`: each load leaves the words of those after it
  have hrun : Leads (exec host)
      ((f.saved.zipIdx.flatMap fun r => loadSp r.1 (f.saveOffset r.2)).map Instr.cell ++
        (loadSp "ra" (f.size - 8)).map Instr.cell ++ (loadSp "s0" (f.size - 16)).map Instr.cell ++
        (adjust "sp" "sp" f.size).map Instr.cell) s fun s' => s'.get "sp" = top ∧
          Restored old (f.saved ++ ["ra"] ++ ["s0"]) exitRegs s s' := by
    rw [append_assoc, append_assoc, map_flatMap]
    refine ((access host).restoreRegs haligned hlaid hsp old hwords).append
      fun s₁ ⟨hsp₁, hrestored₁⟩ => ?_
    refine ((access host).loads haligned (by decide) hlt (Nat.sub_le _ _) (by omega) hsp₁ old
      ?_).append fun s₂ ⟨hsp₂, hrestored₂⟩ => ?_
    · rw [hsub.1, hrestored₁.memory, hra]
    have h₂ := hrestored₁.trans hrestored₂ hsaved
    refine ((access host).loads haligned (by decide) hlt (Nat.sub_le _ _) (by omega) hsp₂ old
      ?_).append fun s₃ ⟨hsp₃, hrestored₃⟩ => ?_
    · rw [hsub.2, h₂.memory, hs0]
    have h₃ := h₂.trans hrestored₃ hsaved'
    refine (adjust_leads host top (by decide) (by decide) (by omega) s₃).mono
      fun s₄ ⟨hsp₄, hwrote₄⟩ => ⟨?_, ?_⟩
    · rw [hsp₄, hsp₃, Int64.ofInt_eq_ofNat, below_add top (Nat.le_refl _), Nat.sub_self, below_zero]
    · have h₄ := (h₃.mono (by decide)).trans (hwrote₄.restored old) hkept
      rwa [append_nil] at h₄
  refine hrun.ret fun s' ⟨hsp', hrestored⟩ => ⟨s', ?_, hsp', hrestored⟩
  rw [← hrestored.restored "ra" (by simp)]
  exact exec_instr host .ret s'

end SsaBackend.Riscv64
