import SsaBackend.Proofs.Arm64.Literal
import SsaBackend.Proofs.Semantics.Step

/-!
# The frame on arm64

The prologue stores the frame pointer and the link register right below the stack pointer of the
caller, makes room for the rest of the frame, and stores the saved registers at their offsets from the
new stack pointer. The epilogue restores them, and takes the stack pointer from the frame pointer.
Sizes and offsets that no instruction can hold go through `x16` and `x17`, so to read or write an
operand of a step changes nothing besides but `x17` (`loadReg_leads`, `write_leads`).
-/

namespace SsaBackend.Arm64

open Asm List

variable (host : Host) {s t : State} {top x y : Int64} {f : Frame} {n : Nat}
variable {dst : Register} {a : Address}
variable {src : Register}

/-! ### Instructions -/

theorem exec_mov_reg (hdst : dst ∈ wholeRegs) (hsrc : src ∈ wholeRegs) :
    (Instr.mov dst (.reg src)).run host s = some (.next (s.set dst (s.get src))) := by
  rw [exec_instr host (.mov dst (.reg src)) ⟨hdst, hsrc⟩]
  rfl

theorem exec_alu_reg (op : Alu) {lhs rhs : Register} (hdst : dst ∈ wholeRegs)
    (hlhs : lhs ∈ wholeRegs) (hrhs : rhs ∈ wholeRegs) :
    (Instr.alu op dst lhs (.reg rhs)).run host s =
      some (.next (s.set dst (op.apply (s.get lhs) (s.get rhs)))) := by
  rw [exec_instr host (.alu op dst lhs (.reg rhs)) ⟨hdst, hlhs, hrhs, fun _ => ⟨rhs, rfl⟩⟩]
  rfl

theorem exec_sub_imm (hn : n ≤ maxArithImm) :
    (Instr.alu .sub "sp" "sp" (.imm n)).run host s =
      some (.next (s.set "sp" (s.get "sp" - Int64.ofNat n))) := by
  have hproper : (Instr.alu .sub "sp" "sp" (.imm n)).Proper :=
    ⟨by decide, by decide, trivial, fun h => by cases h⟩
  rw [maxArithImm] at hn
  rw [exec_instr host _ hproper, Instr.op?, Arg.source?, Text.word?_eq_some (by omega) (by omega),
    Int64.ofInt_eq_ofNat]
  rfl

theorem Address.mem?_eq (h : a.offset < 2 ^ 32) :
    a.mem? = some ⟨a.base, .imm (Int64.ofNat a.offset), false, none⟩ := by
  rw [mem?, Text.word?_eq_some (by omega) (by omega), Int64.ofInt_eq_ofNat]
  rfl

theorem Instr.exec_ldr (h : (ldr dst a).Proper) (hoffset : a.offset < 2 ^ 32)
    (hload : s.load (s.get a.base + Int64.ofNat a.offset) = some x) :
    (ldr dst a).run host s = some (.next (s.set dst x)) := by
  rw [exec_instr host _ h, op?, Address.mem?_eq hoffset]
  simp [Op.exec, Mem.address, Mem.before, Mem.after, Source.read, hload]

theorem Instr.exec_str (h : (str src a).Proper) (hoffset : a.offset < 2 ^ 32)
    (hstore : s.store (s.get a.base + Int64.ofNat a.offset) (s.get src) = some t) :
    (str src a).run host s = some (.next t) := by
  rw [exec_instr host _ h, op?, Address.mem?_eq hoffset]
  simp [Op.exec, Mem.address, Mem.before, Mem.after, Source.read, hstore]

theorem exec_stpPush {first second : Register} (hfirst : first ∈ wholeRegs)
    (hsecond : second ∈ wholeRegs) {amount : Nat} {word low high : Int64}
    (hword : Text.word? (-(amount : Int)) = some word) (hlow : s.get "sp" + word = low)
    (hhigh : low + 8 = high) (haligned : low.toInt % 8 = 0) (haligned' : high.toInt % 8 = 0) :
    (Instr.stpPush first second amount).run host s =
      some (.next (((s.set "sp" low).poke low (s.get first)).poke high (s.get second))) := by
  have hstore : ∀ s' : State, ∀ word', s'.store low word' = some (s'.poke low word') :=
    fun s' word' => if_pos haligned
  have hstore' : ∀ s' : State, ∀ word', s'.store high word' = some (s'.poke high word') :=
    fun s' word' => if_pos haligned'
  rw [exec_instr host (.stpPush first second amount) ⟨hfirst, hsecond⟩, Instr.op?, hword]
  simp [Op.exec, Mem.address, Mem.before, Mem.after, Source.read, hlow, hhigh, hstore, hstore']

theorem stpPush_leads (haligned : top.toInt % 8 = 0) (hsp : s.get "sp" = top) :
    Leads (exec host) [(Instr.stpPush "x29" "x30" fixedArea).cell] s fun s' =>
      s'.get "sp" = below top 16 ∧
      Wrote top ["sp"] [(16, s.get "x29"), (8, s.get "x30")] s s' := by
  have hword := Text.word?_eq_some (show -2 ^ 63 ≤ -(fixedArea : Int) by decide) (by decide)
  have hlow : s.get "sp" + Int64.ofInt (-(fixedArea : Int)) = below top 16 := by
    rw [hsp, below, Int64.sub_eq_add_neg]
    rfl
  have hhigh : below top 16 + 8 = below top 8 := below_add top (show 8 ≤ 16 by decide)
  refine .instr (exec_stpPush host (by decide) (by decide) hword hlow hhigh
    (aligned_below haligned (by rfl)) (aligned_below haligned (by rfl))) ⟨?_, ?_⟩
  · exact State.get_set_self (by decide)
  · exact ((Wrote.set top (by decide) (by simp) _ s).trans (.poke top _ 16 _ _)).trans
      (.poke top _ 8 _ _)

theorem exec_ldpPop (haligned : top.toInt % 8 = 0) (hsp : s.get "sp" = below top 16)
    {fp ra : Int64} (hfp : s.memory (below top 16) = some fp) (hra : s.memory (below top 8) = some ra) :
    (Instr.ldpPop "x29" "x30" fixedArea).run host s =
      some (.next (((s.set "x29" fp).set "x30" ra).set "sp" top)) := by
  have hhigh : below top 16 + 8 = below top 8 := below_add top (show 8 ≤ 16 by decide)
  have htop : below top 16 + Int64.ofInt (fixedArea : Nat) = top :=
    (below_add top (Nat.le_refl 16)).trans (below_zero top)
  have hsp' : ((s.set "x29" fp).set "x30" ra).get "sp" = below top 16 := by
    rw [State.get_set_of_ne (by decide) (by decide) (by decide),
      State.get_set_of_ne (by decide) (by decide) (by decide), hsp]
  rw [exec_instr host (.ldpPop "x29" "x30" fixedArea) ⟨by decide, by decide⟩, Instr.op?,
    Text.word?_eq_some (by decide) (by decide)]
  simp [Op.exec, Mem.address, Mem.before, Mem.after, Source.read, hsp, hhigh, hsp', htop, hfp, hra,
    load_below haligned (show 16 % 8 = 0 from rfl), load_below haligned (show 8 % 8 = 0 from rfl)]

def Arg.read (s : State) (a : Arg) : Option Int64 := a.source?.map (Source.read s)

theorem Arg.read_imm (x : Int64) : (imm x.toInt).read s = some x := by
  rw [read, source?, Text.word?_eq_some x.le_toInt x.toInt_lt, Int64.ofInt_toInt]
  rfl

theorem Instr.exec_alu {op : Alu} {dst lhs : Register} {rhs : Arg} (h : (alu op dst lhs rhs).Proper)
    (hrhs : rhs.read s = some y) :
    (alu op dst lhs rhs).run host s = some (.next (s.set dst (op.apply (s.get lhs) y))) := by
  obtain ⟨source, hsource, rfl⟩ := Option.map_eq_some_iff.1 hrhs
  rw [exec_instr host _ h, op?, hsource]
  rfl

variable {offset : Nat}

theorem spAddress_leads (hoffset : offset < 2 ^ 32) (s : State) :
    Leads (exec host) ((spAddress offset).1.map Instr.cell) s fun s' =>
      s'.get (spAddress offset).2.base + Int64.ofNat (spAddress offset).2.offset =
        s.get "sp" + Int64.ofNat offset ∧ s.Agree ["x17"] s' := by
  unfold spAddress
  split
  · exact .nil ⟨rfl, .refl _ s⟩
  · have hfar : farAddr ∈ wholeRegs := by decide
    have hsp : "sp" ∈ wholeRegs := by decide
    rw [map_append]
    refine (materialize_leads host hfar (by omega) (by omega) s).append ?_
    rintro _ rfl
    refine .instr (exec_alu_reg host .add hfar hsp hfar) ⟨?_, ?_⟩
    · rw [State.get_set_self (by decide), State.get_set_self (by decide),
        State.get_set_of_ne (by decide) (by decide) (by decide), Int64.ofInt_eq_ofNat]
      exact Int64.add_zero _
    · exact (State.Agree.touch (by decide) (by simp [farAddr]) _ s).trans
        (.touch (by decide) (by simp [farAddr]) _ _)

def entryRegs : List Register := ["sp", "x29", "x16", "x17"]

def exitRegs : List Register := ["sp", "x30", "x17"]

variable {r : Register}

theorem facts_of_mem_calleeSaved (h : r ∈ target.calleeSaved) :
    (isPlain r = true ∧ r ∉ entryRegs) ∧ isPlain r = true ∧ r ∉ exitRegs := by
  revert r
  decide

theorem offset_spAddress_lt (h : offset < 2 ^ 32) : (spAddress offset).2.offset < 2 ^ 32 := by
  unfold spAddress
  split
  · exact h
  · exact Nat.two_pow_pos 32

theorem access : Access (exec host) target isFree "x17"
    (fun dst offset => ((spAddress offset).1 ++ [Instr.ldr dst (spAddress offset).2]).map Instr.cell)
    (fun src offset => ((spAddress offset).1 ++ [Instr.str src (spAddress offset).2]).map Instr.cell) := by
  have hfree {r : Register} (h : isFree r = true) : (isPlain r = true ∧ r ∉ ["x17"]) ∧ "sp" ≠ r := by
    obtain ⟨hmem, hnot⟩ := isFree_iff.1 h
    simp only [mem_cons, not_or] at hnot
    exact ⟨⟨(facts_of_mem_wholeRegs hmem).2.2.1, by simp [hnot]⟩, Ne.symm hnot.1⟩
  refine ⟨by decide, hfree, isFree_of_mem_calleeSaved, fun {s r offset x} hr hoffset hload => ?_,
    fun {s t r offset} hr hoffset hstore => ?_⟩
  · rw [map_append]
    exact (spAddress_leads host hoffset s).loadAt (hfree hr).1.1 hload fun s' => Instr.exec_ldr host
      (ldr_proper hr (spAddress_proper offset).2) (offset_spAddress_lt hoffset)
  · rw [map_append]
    exact (spAddress_leads host hoffset s).storeAt (hfree hr).1 hstore fun s' t' => Instr.exec_str host
      ⟨mem_of_isFree hr, mem_wholeRegs_of_base (spAddress_proper offset).2⟩ (offset_spAddress_lt hoffset)

theorem lowerStack_leads (hsize : f.size < 2 ^ 32) (hfits : fixedArea ≤ f.size)
    (hsp : s.get "sp" = below top 16) :
    Leads (exec host) ((lowerStack f).map Instr.cell) s fun s' =>
      s'.get "sp" = below top f.size ∧ Wrote top ["sp", "x16"] [] s s' := by
  have hlocal : below top 16 - Int64.ofNat f.localSize = below top f.size := by
    rw [below_sub]
    exact congrArg _ (Nat.add_sub_of_le hfits)
  unfold lowerStack
  split
  · next hzero =>
    rw [hzero] at hlocal
    exact .nil ⟨by rw [hsp, ← hlocal]; exact (Int64.sub_zero _).symm, .refl top _ s⟩
  · have hregs : "sp" ∈ wholeRegs ∧ farSize ∈ wholeRegs := by decide
    have hlt : f.localSize < 2 ^ 32 := Nat.lt_of_le_of_lt (Nat.sub_le _ _) hsize
    split
    · next hsmall =>
      refine .instr (exec_sub_imm host hsmall) ⟨?_, .set top (by decide) (by simp) _ s⟩
      rw [State.get_set_self (by decide), hsp, hlocal]
    · rw [map_append]
      refine (materialize_leads host hregs.2 (by omega) (by omega) s).append ?_
      rintro _ rfl
      refine .instr (exec_alu_reg host .sub hregs.1 hregs.1 hregs.2) ⟨?_, ?_⟩
      · rw [State.get_set_self (by decide), State.get_set_self (by decide),
          State.get_set_of_ne (by decide) (by decide) (by decide), hsp, Int64.ofInt_eq_ofNat]
        exact hlocal
      · exact (Wrote.set top (by decide) (by simp [farSize]) _ s).trans
          (.set top (by decide) (by simp) _ _)

/-! ### Operands of steps -/

section Operands

variable {o : Operand}

theorem loadReg_leads (hdst : isFree dst = true)
    (ho : Arch.arm64.Reads f target.valueRegs s o x) :
    Leads (exec host) ((loadReg f dst o).map Instr.cell) s ((s.set dst x).Agree ["x17"]) := by
  obtain ⟨ho, hread⟩ := ho
  have hmem := mem_of_isFree hdst
  cases o with
  | immediate value =>
    cases hread
    refine (materialize_leads host hmem x.le_toInt x.toInt_lt s).mono ?_
    rintro _ rfl
    rw [Int64.ofInt_toInt]
    exact .refl _ _
  | register r =>
    cases hread
    simp only [loadReg]
    split
    · next heq =>
      subst heq
      rw [State.set_get (facts_of_mem_wholeRegs hmem).2.2.1]
      exact .nil (.refl _ s)
    · exact .instr (exec_mov_reg host hmem (mem_of_mem_valueRegs ho)) (.refl _ _)
  | stack slot => exact (access host).load hdst ho hread

theorem write_leads (hsrc : isFree src = true)
    (ho : o.InReach .arm64 f target.valueRegs)
    (hwrite : Arch.arm64.writeOperand f s (s.get src) o = some t) :
    Leads (exec host) ((write f src o).map Instr.cell) s (t.Agree ["x17"]) := by
  have hmem := mem_of_isFree hsrc
  cases o with
  | immediate value => cases hwrite
  | register r =>
    cases hwrite
    simp only [write]
    split
    · next heq =>
      subst heq
      rw [State.set_get (facts_of_mem_wholeRegs hmem).2.2.1]
      exact .nil (.refl _ s)
    · exact .instr (exec_mov_reg host (mem_of_mem_valueRegs ho) hmem) (.refl _ _)
  | stack slot => exact (access host).store hsrc ho hwrite

end Operands

/-! ### The prologue -/

def noted (o : Options) (event : Int64 → Asm.Event) (s : State) : State :=
  if o.pointerAuth then s.log (event (s.get "sp")) else s

theorem get_noted (o : Options) (event : Int64 → Asm.Event) (s : State) (r : Register) :
    (noted o event s).get r = s.get r := by
  unfold noted
  split <;> rfl

theorem sign_leads (o : Options) (s : State) :
    Leads (exec host) ((if o.pointerAuth then [Instr.paciasp] else []).map Instr.cell) s
      (· = noted o .sign s) := by
  unfold noted
  split
  · exact .instr (exec_instr host .paciasp trivial s) rfl
  · exact .nil rfl

theorem authenticate_leads (o : Options) (s : State) :
    Leads (exec host) ((if o.pointerAuth then [Instr.autiasp] else []).map Instr.cell) s
      (· = noted o .authenticate s) := by
  unfold noted
  split
  · exact .instr (exec_instr host .autiasp trivial s) rfl
  · exact .nil rfl

variable (hlaid : f.WellLaid target) (haligned : top.toInt % 8 = 0)

include hlaid haligned

theorem prologue_leads (o : Options) (hsp : s.get "sp" = top) :
    Leads (exec host) ((prologue o f).map Instr.cell) s fun s' =>
      s'.get "sp" = below top f.size ∧ s'.get "x29" = below top 16 ∧
      Wrote top entryRegs
        ((16, s.get "x29") :: (8, s.get "x30") :: regWords f.saveDepth 0 f.saved s)
        (noted o .sign s) s' := by
  have hfits : fixedArea ≤ f.size := Nat.le_trans (Nat.le_add_left _ _) hlaid.fits
  have hregs : "x29" ∈ wholeRegs ∧ "sp" ∈ wholeRegs := by decide
  have hkept : ∀ r ∈ f.saved, isPlain r = true ∧ r ∉ entryRegs := fun r hr =>
    (facts_of_mem_calleeSaved (hlaid.saved r hr)).1
  rw [prologue, append_assoc, append_assoc, map_append, map_append, map_append, saveRegs, map_flatMap]
  refine (sign_leads host o s).append ?_
  rintro _ rfl
  refine (stpPush_leads host haligned ((get_noted o _ s "sp").trans hsp)).cons
    fun s₁ ⟨hsp₁, hwrote₁⟩ => ?_
  refine .next (exec_mov_reg host hregs.1 hregs.2) ?_
  have hwrote₂ : Wrote top entryRegs [(16, s.get "x29"), (8, s.get "x30")] (noted o .sign s)
      (s₁.set "x29" (s₁.get "sp")) := by
    rw [get_noted, get_noted] at hwrote₁
    exact (hwrote₁.mono (by decide)).trans (.set top (by decide) (by decide) _ s₁)
  have hsp₂ : (s₁.set "x29" (s₁.get "sp")).get "sp" = below top 16 :=
    (State.get_set_of_ne (by decide) (by decide) (by decide)).trans hsp₁
  have hfp₂ : (s₁.set "x29" (s₁.get "sp")).get "x29" = below top 16 :=
    (State.get_set_self (by decide)).trans hsp₁
  generalize s₁.set "x29" (s₁.get "sp") = s₂ at hwrote₂ hsp₂ hfp₂
  refine (lowerStack_leads host hlaid.size_lt hfits hsp₂).append fun s₃ ⟨hsp₃, hwrote₃⟩ => ?_
  have hbefore := hwrote₂.trans (hwrote₃.mono (by decide))
  refine ((access host).saveRegs haligned hlaid hsp₃).mono fun s₄ ⟨hsp₄, hwrote₄⟩ =>
    ⟨hsp₄, ?_, ?_⟩
  · rw [hwrote₄.get _ (by decide) (by decide), hwrote₃.get _ (by decide) (by decide), hfp₂]
  · have hwrote := hbefore.trans (hwrote₄.mono (by decide))
    rw [regWords_eq_of_wrote hbefore hkept] at hwrote
    simpa [regWords, get_noted] using hwrote

/-! ### The epilogue -/

variable (old : Register → Int64) (hsp : s.get "sp" = below top f.size)
  (hwords : ∀ p ∈ f.saved.zipIdx, s.memory (below top (f.saveDepth p.2)) = some (old p.1))

include hsp hwords

variable (hfp : s.get "x29" = below top 16) {ra : Int64} (hra : s.memory (below top 8) = some ra)
  (hx29 : s.memory (below top 16) = some (old "x29"))

include hfp hra hx29

theorem takeDown_leads :
    Leads (exec host) ((restoreRegs f).map Instr.cell ++
      [(Instr.mov "sp" (.reg "x29")).cell, (Instr.ldpPop "x29" "x30" fixedArea).cell]) s fun s' =>
        s'.get "sp" = top ∧ s'.get "x30" = ra ∧ Restored old (f.saved ++ ["x29"]) exitRegs s s' := by
  have hregs : "x29" ∈ wholeRegs ∧ "sp" ∈ wholeRegs := by decide
  have hkept : ∀ r ∈ f.saved, isPlain r = true ∧ r ∉ exitRegs := fun r hr =>
    (facts_of_mem_calleeSaved (hlaid.saved r hr)).2
  have hx29saved : "x29" ∉ f.saved := fun h => absurd (hlaid.saved _ h) (by decide)
  rw [restoreRegs, map_flatMap]
  refine ((access host).restoreRegs haligned hlaid hsp old hwords).append fun s₁ ⟨_, hrestored⟩ => ?_
  have hfp₁ := (hrestored.get "x29" (by decide) hx29saved (by decide)).trans hfp
  refine .next (exec_mov_reg host hregs.2 hregs.1) ?_
  have hsp₂ : (s₁.set "sp" (s₁.get "x29")).get "sp" = below top 16 :=
    (State.get_set_self (by decide)).trans hfp₁
  have hrestored₂ : Restored old f.saved exitRegs s (s₁.set "sp" (s₁.get "x29")) :=
    (hrestored.mono (by decide)).set_after hkept (by decide) (by decide) _
  generalize s₁.set "sp" (s₁.get "x29") = s₂ at hsp₂ hrestored₂
  refine .instr (exec_ldpPop host haligned hsp₂ (hrestored₂.memory ▸ hx29)
    (hrestored₂.memory ▸ hra)) ⟨State.get_set_self (by decide), ?_, ?_⟩
  · rw [State.get_set_of_ne (by decide) (by decide) (by decide), State.get_set_self (by decide)]
  · have hboth : ∀ r ∈ f.saved ++ ["x29"], isPlain r = true ∧ r ∉ exitRegs :=
      forall_mem_append.2 ⟨hkept, forall_mem_singleton.2 (by decide)⟩
    exact ((hrestored₂.trans (.set _ (by decide) rfl s₂) hkept).set_after hboth (by decide)
      (by decide) ra).set_after hboth (by decide) (by decide) top

theorem straight_epilogue (o : Options) :
    ∃ s', straight (exec host) ((epilogue o f).map Instr.cell) s = some (.ret ra s') ∧
      ∃ s₁, s' = noted o .authenticate s₁ ∧ s₁.get "sp" = top ∧
        Restored old (f.saved ++ ["x29"]) exitRegs s s₁ := by
  rw [epilogue, map_append, map_append, map_append]
  have hrun : Leads (exec host) ((restoreRegs f).map Instr.cell ++
      [(Instr.mov "sp" (.reg "x29")).cell, (Instr.ldpPop "x29" "x30" fixedArea).cell] ++
      (if o.pointerAuth then [Instr.autiasp] else []).map Instr.cell) s fun s' =>
        s'.get "x30" = ra ∧ ∃ s₁, s' = noted o .authenticate s₁ ∧ s₁.get "sp" = top ∧
          Restored old (f.saved ++ ["x29"]) exitRegs s s₁ := by
    refine (takeDown_leads host hlaid haligned old hsp hwords hfp hra hx29).append
      fun s₁ ⟨hsp₁, hra₁, hrestored₁⟩ => (authenticate_leads host o s₁).mono ?_
    rintro _ rfl
    exact ⟨(get_noted o _ s₁ "x30").trans hra₁, s₁, rfl, hsp₁, hrestored₁⟩
  refine hrun.ret fun s' ⟨hra', h'⟩ => ⟨s', ?_, h'⟩
  rw [← hra']
  exact exec_instr host .ret trivial s'

end SsaBackend.Arm64
