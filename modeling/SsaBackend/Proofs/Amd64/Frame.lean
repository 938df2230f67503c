import Mathlib.Data.List.Induction
import SsaBackend.Proofs.Amd64.Decode
import SsaBackend.Proofs.Frame
import SsaBackend.Proofs.Semantics.Stack

/-!
# The frame on amd64

The prologue pushes the frame pointer and the saved registers, one word below the other, and makes
room for the rest of the frame; the epilogue goes the same way back. Distances are from the stack
pointer of the caller, so the return address lies at 8 and the frame pointer at 16.
-/

namespace SsaBackend.Amd64

open Asm List

def entryRegs : List Register := ["rsp", "rbp"]

theorem facts_of_mem_calleeSaved {r : Register} (h : r ∈ target.calleeSaved) :
    (isPlain r = true ∧ r ∉ ["rsp"]) ∧ isPlain r = true ∧ r ∉ entryRegs := by
  revert r
  decide

/-- How far below the stack pointer of the caller a saved register lies. -/
def saveDepth (index : Nat) : Nat := 24 + 8 * index

def Instr.cell (i : Instr) : Cell := .instr i.mnemonic i.operands

abbrev Instr.run (host : Host) (i : Instr) (s : State) : Option Effect :=
  exec host i.mnemonic i.operands s

section Exec

variable (host : Host) {s : State}

theorem exec_instr (i : Instr) (s : State) :
    i.run host s = i.op?.bind (Op.exec host s) := by
  rw [Instr.run, exec, decode_render]

theorem exec_pushq (r : Register) {address : Int64} (hsp : s.get "rsp" - 8 = address)
    (haligned : address.toInt % 8 = 0) :
    (Instr.pushq (.reg r)).run host s =
      some (.next ((s.set "rsp" address).poke address (s.get r))) := by
  have hstore : (s.set "rsp" address).store address (s.get r) =
      some ((s.set "rsp" address).poke address (s.get r)) := if_pos haligned
  rw [exec_instr, Instr.op?, Arg.place?_reg]
  simp [Op.exec, Place.read, hsp, hstore]

theorem exec_popq (r : Register) {address word : Int64} (hsp : s.get "rsp" = address)
    (haligned : address.toInt % 8 = 0) (hword : s.memory address = some word) :
    (Instr.popq r).run host s = some (.next ((s.set "rsp" (address + 8)).set r word)) := by
  have hload : s.load address = some word := (if_pos haligned).trans hword
  rw [exec_instr, Instr.op?]
  simp [Op.exec, Place.write, hsp, hload]

theorem exec_retq {address word : Int64} (hsp : s.get "rsp" = address)
    (haligned : address.toInt % 8 = 0) (hword : s.memory address = some word) :
    Instr.retq.run host s = some (.ret word (s.set "rsp" (address + 8))) := by
  have hload : s.load address = some word := (if_pos haligned).trans hword
  rw [exec_instr, Instr.op?]
  simp [Op.exec, hsp, hload]

theorem exec_movq_reg (src dst : Register) :
    (Instr.movq (.reg src) (.reg dst)).run host s = some (.next (s.set dst (s.get src))) := by
  rw [exec_instr, Instr.op?, Arg.place?_reg, Arg.place?_reg]
  rfl

theorem exec_alu_rsp (op : Alu) {n : Nat} (hn : n < 2 ^ 32) :
    (Instr.alu op (.imm n) "rsp").run host s =
      some (.next (s.set "rsp" (op.apply (s.get "rsp") (Int64.ofNat n)))) := by
  have hword : Text.word? n = some (Int64.ofNat n) :=
    Text.word?_eq_some (by omega) (by omega)
  rw [exec_instr, Instr.op?, Arg.place?_imm, hword]
  simp [Op.exec, Place.read, Place.write]

end Exec

variable (host : Host) {s : State} {top : Int64} {f : Frame} {n bytes : Nat}

/-! ### The stack pointer -/

theorem lowerStack_leads (hbytes : bytes < 2 ^ 32) (hsp : s.get "rsp" = below top n) :
    Leads (exec host) ((lowerStack bytes).map Instr.cell) s fun s' =>
      s'.get "rsp" = below top (n + bytes) ∧ Wrote top ["rsp"] [] s s' := by
  unfold lowerStack
  split
  · next hzero =>
    subst hzero
    exact .nil ⟨hsp, .refl top _ s⟩
  · refine .instr (exec_alu_rsp host .sub hbytes) ⟨?_, .set top (by decide) (by simp) _ s⟩
    rw [State.get_set_self (by decide), hsp]
    exact below_sub top n bytes

theorem map_cell_saved (g : Register → Instr) (saved : List Register) :
    (saved.map g).map Instr.cell = (saved.zipIdx 0).flatMap fun p => [(g p.1).cell] := by
  conv_lhs => rw [← zipIdx_map_fst 0 saved]
  rw [map_map, map_map, map_eq_flatMap]
  rfl

theorem raiseStack_leads (old : Register → Int64) (hbytes : bytes < 2 ^ 32)
    (hsp : s.get "rsp" = below top (n + bytes)) :
    Leads (exec host) ((raiseStack bytes).map Instr.cell) s fun s' =>
      s'.get "rsp" = below top n ∧ Restored old [] ["rsp"] s s' := by
  unfold raiseStack
  split
  · next hzero =>
    subst hzero
    exact .nil ⟨hsp, .refl old _ s⟩
  · refine .instr (exec_alu_rsp host .add hbytes) ⟨?_, .set_changed old (by decide) (by simp) _ s⟩
    rw [State.get_set_self (by decide), hsp]
    exact (below_add top (Nat.le_add_left bytes n)).trans (congrArg _ (Nat.add_sub_cancel n bytes))

/-! ### The prologue -/

variable (haligned : top.toInt % 8 = 0)

include haligned

theorem push_leads (r : Register) (hn : n % 8 = 0)
    (hsp : s.get "rsp" = below top n) :
    Leads (exec host) [(Instr.pushq (.reg r)).cell] s fun s' =>
      s'.get "rsp" = below top (n + 8) ∧ Wrote top ["rsp"] [(n + 8, s.get r)] s s' := by
  have haddress : s.get "rsp" - 8 = below top (n + 8) := by
    rw [hsp]
    exact below_sub top n 8
  refine .instr (exec_pushq host r haddress (aligned_below haligned (by omega))) ⟨?_, ?_⟩
  · exact State.get_set_self (by decide)
  · exact (Wrote.set top (by decide) (by simp) _ s).trans (.poke top _ _ _ _)

theorem pushes_lead {saved : List Register}
    (hsaved : ∀ r ∈ saved, isPlain r = true ∧ r ∉ ["rsp"]) (hsp : s.get "rsp" = below top 16) :
    Leads (exec host) ((saved.map fun r => Instr.pushq (.reg r)).map Instr.cell) s fun s' =>
      s'.get "rsp" = below top (16 + 8 * saved.length) ∧
      Wrote top ["rsp"] (regWords saveDepth 0 saved s) s s' := by
  rw [map_cell_saved]
  refine (Leads.stores (k := 0) (fun k s' => s'.get "rsp" = below top (16 + 8 * k)) saveDepth
    hsaved (fun p _ s' hsp' => ?_) hsp).mono fun s' ⟨hsp', hwrote⟩ => ⟨?_, hwrote⟩
  · refine (push_leads host haligned p.1 (by omega) hsp').mono fun s'' h => ?_
    rw [show 16 + 8 * p.2 + 8 = saveDepth p.2 by simp only [saveDepth]; omega] at h
    exact ⟨h.1.trans (congrArg _ (by simp only [saveDepth]; omega)), h.2⟩
  · rw [hsp', Nat.zero_add]

theorem prologue_leads (hlaid : f.WellLaid target) (hsp : s.get "rsp" = below top 8) :
    Leads (exec host) ((prologue f).map Instr.cell) s fun s' =>
      s'.get "rsp" = below top f.size ∧ s'.get "rbp" = below top 16 ∧
      Wrote top entryRegs ((16, s.get "rbp") :: regWords saveDepth 0 f.saved s) s s' := by
  have hfits := hlaid.fits
  have hsize := hlaid.size_lt
  have hkept : ∀ r ∈ f.saved, isPlain r = true ∧ r ∉ entryRegs := fun r hr =>
    (facts_of_mem_calleeSaved (hlaid.saved r hr)).2
  rw [prologue, append_assoc, map_append, map_append]
  refine (push_leads host haligned "rbp" (by rfl) hsp).cons fun s₁ ⟨hsp₁, hwrote₁⟩ => ?_
  refine .next (exec_movq_reg host "rsp" "rbp") ?_
  have hwrote₂ : Wrote top entryRegs [(16, s.get "rbp")] s (s₁.set "rbp" (s₁.get "rsp")) :=
    (hwrote₁.mono (by decide)).trans (.set top (by decide) (by decide) _ s₁)
  have hsp₂ : (s₁.set "rbp" (s₁.get "rsp")).get "rsp" = below top 16 :=
    (State.get_set_of_ne (by decide) (by decide) (by decide)).trans hsp₁
  have hrbp₂ : (s₁.set "rbp" (s₁.get "rsp")).get "rbp" = below top 16 :=
    (State.get_set_self (by decide)).trans hsp₁
  generalize s₁.set "rbp" (s₁.get "rsp") = s₂ at hwrote₂ hsp₂ hrbp₂
  refine (pushes_lead host haligned (fun r hr => ?_) hsp₂).append fun s₃ ⟨hsp₃, hwrote₃⟩ => ?_
  · exact (facts_of_mem_calleeSaved (hlaid.saved r hr)).1
  have hrest : restSize f = f.size - 16 - f.saved.length * 8 := rfl
  refine (lowerStack_leads host (by omega) hsp₃).mono fun s₄ ⟨hsp₄, hwrote₄⟩ => ⟨?_, ?_, ?_⟩
  · rw [hsp₄]
    exact congrArg _ (by simp only [fixedArea] at hfits; omega)
  · rw [hwrote₄.get _ (by decide) (by decide), hwrote₃.get _ (by decide) (by decide), hrbp₂]
  · have hwrote := (hwrote₂.trans (hwrote₃.mono (by decide))).trans (hwrote₄.mono (by decide))
    rwa [append_nil, regWords_eq_of_wrote hwrote₂ hkept] at hwrote

/-! ### The epilogue -/

variable {old : Register → Int64}

theorem pop_leads {r : Register} (hr : isPlain r = true ∧ r ∉ ["rsp"])
    (hn : n % 8 = 0) (hsp : s.get "rsp" = below top (n + 8))
    (hword : s.memory (below top (n + 8)) = some (old r)) :
    Leads (exec host) [(Instr.popq r).cell] s fun s' =>
      s'.get "rsp" = below top n ∧ Restored old [r] ["rsp"] s s' := by
  refine .instr (exec_popq host r hsp (aligned_below haligned (by omega)) hword) ⟨?_, ?_⟩
  · rw [State.get_set_of_ne hr.1 (by decide) (fun heq => hr.2 (by simp [heq])),
      State.get_set_self (by decide)]
    exact below_add top (Nat.le_add_left 8 n)
  · exact (Restored.set_changed old (by decide) (by simp) _ s).trans (.set _ hr.1 rfl _) (by simp)

theorem pops_lead {saved : List Register}
    (hsaved : ∀ r ∈ saved, isPlain r = true ∧ r ∉ ["rsp"])
    (hsp : s.get "rsp" = below top (16 + 8 * saved.length))
    (hwords : ∀ p ∈ saved.zipIdx, s.memory (below top (saveDepth p.2)) = some (old p.1)) :
    Leads (exec host) ((saved.reverse.map Instr.popq).map Instr.cell) s fun s' =>
      s'.get "rsp" = below top 16 ∧ Restored old saved.reverse ["rsp"] s s' := by
  induction saved using List.reverseRecOn generalizing s with
  | nil => exact .nil ⟨hsp, .refl old _ s⟩
  | append_singleton saved r ih =>
    rw [zipIdx_append, forall_mem_append] at hwords
    obtain ⟨hfirst, hlast⟩ := hwords
    rw [forall_mem_append] at hsaved
    have hr := hsaved.2 r (by simp)
    have hword : s.memory (below top (16 + 8 * saved.length + 8)) = some (old r) := by
      have hword := hlast (r, saved.length) (by simp)
      rwa [saveDepth, show 24 + 8 * saved.length = 16 + 8 * saved.length + 8 by omega] at hword
    rw [reverse_append, reverse_singleton, singleton_append]
    refine (pop_leads host haligned hr (by omega) ?_ hword).cons fun s₁ ⟨hsp₁, hrestored₁⟩ => ?_
    · rw [hsp, length_append, length_singleton]
      exact congrArg _ (by omega)
    refine (ih hsaved.1 hsp₁ ?_).mono fun s₂ ⟨hsp₂, hrestored₂⟩ => ⟨hsp₂, ?_⟩
    · rwa [hrestored₁.memory]
    · exact hrestored₁.trans hrestored₂ (forall_mem_singleton.2 hr)

theorem straight_epilogue (old : Register → Int64) (hlaid : f.WellLaid target)
    (hsp : s.get "rsp" = below top f.size) {ra : Int64} (hra : s.memory (below top 8) = some ra)
    (hrbp : s.memory (below top 16) = some (old "rbp"))
    (hwords : ∀ p ∈ f.saved.zipIdx, s.memory (below top (saveDepth p.2)) = some (old p.1)) :
    ∃ s', straight (exec host) ((epilogue f).map Instr.cell) s = some (.ret ra s') ∧
      s'.get "rsp" = top ∧ Restored old (f.saved.reverse ++ ["rbp"]) ["rsp"] s s' := by
  have hfits := hlaid.fits
  have hsize := hlaid.size_lt
  have hsaved : ∀ r ∈ f.saved, isPlain r = true ∧ r ∉ ["rsp"] := fun r hr =>
    (facts_of_mem_calleeSaved (hlaid.saved r hr)).1
  simp only [fixedArea] at hfits
  have hrest : restSize f = f.size - 16 - f.saved.length * 8 := rfl
  have hbody : s.get "rsp" = below top (16 + 8 * f.saved.length + restSize f) :=
    hsp.trans (congrArg _ (by omega))
  -- the locals go, then the registers come back, the last saved first
  have hregs : Leads (exec host) ((raiseStack (restSize f)).map Instr.cell ++
      ((f.saved.reverse.map Instr.popq).map Instr.cell ++ [(Instr.popq "rbp").cell])) s fun s' =>
        s'.get "rsp" = below top 8 ∧ Restored old (f.saved.reverse ++ ["rbp"]) ["rsp"] s s' := by
    refine (raiseStack_leads host old (by omega) hbody).append fun s₁ hraised => ?_
    obtain ⟨hsp₁, hrestored₁⟩ := hraised
    refine (pops_lead host haligned hsaved hsp₁ (hrestored₁.memory ▸ hwords)).append
      fun s₂ hpopped => ?_
    obtain ⟨hsp₂, hrestored₂⟩ := hpopped
    have hrestored := hrestored₁.trans hrestored₂ (by simp)
    refine (pop_leads host haligned ⟨by decide, by decide⟩ (by rfl) hsp₂
      (hrestored.memory ▸ hrbp)).mono fun s₃ hlast => ⟨hlast.1, ?_⟩
    exact hrestored.trans hlast.2 fun r hr => hsaved r (by simpa using hr)
  have hkept : ∀ r ∈ f.saved.reverse ++ ["rbp"], isPlain r = true ∧ r ∉ ["rsp"] :=
    forall_mem_append.2 ⟨fun r hr => hsaved r (by simpa using hr),
      forall_mem_singleton.2 ⟨by decide, by decide⟩⟩
  have hcode : (epilogue f).map Instr.cell = (raiseStack (restSize f)).map Instr.cell ++
      ((f.saved.reverse.map Instr.popq).map Instr.cell ++ [(Instr.popq "rbp").cell]) ++
      [Instr.retq.cell] := by
    simp [epilogue]
  rw [hcode]
  refine hregs.ret fun s' hdone => ?_
  obtain ⟨hsp', hrestored⟩ := hdone
  refine ⟨_, exec_retq host hsp' ?_ ?_, ?_, ?_⟩
  · exact aligned_below haligned (by rfl)
  · rw [hrestored.memory, hra]
  · rw [State.get_set_self (by decide)]
    exact (below_add top (Nat.le_refl 8)).trans (below_zero top)
  · exact hrestored.set_after hkept (by decide) (by simp) _

end SsaBackend.Amd64
