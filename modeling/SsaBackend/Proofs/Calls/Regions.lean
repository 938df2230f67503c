import SsaBackend.Proofs.Calls

/-!
# The regions of a frame

A frame is divided into regions: the outgoing words, one word for each saved register, the slots in
which values are, and the fixed area of two words (`Region`). Where a region lies is said twice. The
code of the body addresses it from the stack pointer or from the frame pointer
(`Arch.regionAddress`), upwards from the one and downwards from the other, and the layout puts it at
some distance below the stack pointer of the caller (`Arch.regionDepth`).

Both agree all through the body, and the frame of whatever either allocator returns is laid out without
overlaps (`Arch.frame_regions`). Words are at multiples of eight, so all that remains to be seen is that
no two of them are at the same distance (`Arch.regionDepth_inj`).
-/

namespace SsaBackend

open Asm

/-- A region of a frame. -/
inductive Region
  /-- The word of a stack argument, by its position among those. -/
  | outgoing (index : Nat)
  /-- The word of a saved register, by its position among those. -/
  | saved (index : Nat)
  /-- A word of the spill area, by its offset. -/
  | slot (offset : Nat)
  /-- The words of the frame pointer and of the return address. -/
  | fixed
  deriving DecidableEq

/-- The length of a region in bytes. -/
def Region.length : Region → Nat
  | outgoing _ | saved _ | slot _ => 8
  | fixed => fixedArea

/-- The regions that the frame of a function has to hold: an outgoing word for each stack argument of
the call with the most of them, and no other slots than those in which there is some value. -/
def Region.Used (arch : Arch) (f : Function) (a : Allocation) : Region → Prop
  | outgoing index => index < f.outgoingArgs arch.target
  | saved index => index < (arch.frame f a).saved.length
  | slot offset => ∃ v, a.location? v = some (.stack offset)
  | fixed => True

namespace Strategy

theorem suits_of_allocate {f : Function} (wf : f.WellFormed) {arch : Arch} {strategy : Strategy}
    {profile : Option Profile} {a : Allocation}
    (h : strategy.allocate f arch.target profile = .ok a) : a.Suits arch.target where
  register := (fits_of_allocate wf arch.nodup_allocatable h).pool
  slot v n hv := ⟨(worded_of_allocate h).slot v n hv, roomy_of_allocate h v n hv⟩

end Strategy

namespace Arch

/-- Where the body of a function finds a region: all of them from the stack pointer, but on amd64 only
the outgoing words, and the others from the frame pointer, below which registers were pushed. -/
def regionAddress (arch : Arch) (f : Frame) (s : State) : Region → Int64
  | .outgoing index => arch.outgoingAddress s index
  | .saved index =>
    match arch with
    | amd64 => below (s.get "rbp") (8 * (index + 1))
    | arm64 | riscv64 => s.get "sp" + Int64.ofNat (f.saveOffset index)
  | .slot offset => arch.slotAddress f s offset
  | .fixed =>
    match arch with
    | amd64 => s.get "rbp"
    | arm64 | riscv64 => s.get "sp" + Int64.ofNat f.localSize

/-- How far below the stack pointer of the caller a region begins. -/
def regionDepth (arch : Arch) (f : Frame) : Region → Nat
  | .outgoing index => f.size - 8 * index
  | .saved index => arch.saveDepth f index
  | .slot offset => arch.slotDepth f offset
  | .fixed => fixedArea

variable {arch : Arch} {f : Function} {a : Allocation}

/-- Every register in which there is a value is saved. -/
theorem mem_saved_frame (hsuits : a.Suits arch.target) {v : ValueId} {r : Register}
    (h : a.location? v = some (.register r)) : r ∈ (arch.frame f a).saved := by
  have hcallee := arch.mem_calleeSaved_of_mem_allocatable r (hsuits.register v r h)
  exact List.mem_filter.2 ⟨hcallee, List.elem_eq_true_of_mem (Allocation.mem_registers h)⟩

section Layout

variable (hsuits : a.Suits arch.target) (hroomy : (arch.frame f a).Roomy arch.target)
  (hout : (arch.frame f a).outgoingSize = f.outgoingArgs arch.target * 8)
include hsuits hroomy hout

/-- All words lie above the stack pointer of the body and below the fixed area. -/
theorem regionDepth_facts ⦃p : Region⦄ (hp : p.Used arch f a) (hfixed : p ≠ .fixed) :
    16 < arch.regionDepth (arch.frame f a) p ∧
      arch.regionDepth (arch.frame f a) p ≤ (arch.frame f a).size ∧
      arch.regionDepth (arch.frame f a) p % 8 = 0 := by
  cases p with
  | outgoing index =>
    have hindex : index < f.outgoingArgs arch.target := hp
    have hsize := hroomy.size_mod
    have hroom := hroomy.room
    simp only [regionDepth, fixedArea] at hroom ⊢
    omega
  | saved index => exact saveDepth_facts hroomy.toWellLaid hp
  | slot offset =>
    obtain ⟨v, hv⟩ := hp
    obtain ⟨hlow, hhigh, hmod⟩ := slotDepth_facts hroomy (hsuits.slot v offset hv)
    exact ⟨hlow, Nat.le_trans hhigh (Nat.sub_le _ _), hmod⟩
  | fixed => exact absurd rfl hfixed

/-- The outgoing words are below all others. -/
theorem regionDepth_lt_outgoing ⦃p : Region⦄ (hp : p.Used arch f a) ⦃index : Nat⦄
    (hindex : index < f.outgoingArgs arch.target) (h : ∀ index', p ≠ .outgoing index') :
    arch.regionDepth (arch.frame f a) p <
      arch.regionDepth (arch.frame f a) (.outgoing index) := by
  have hroom := hroomy.room
  have hle : arch.regionDepth (arch.frame f a) p ≤
      (arch.frame f a).size - (arch.frame f a).outgoingSize := by
    cases p with
    | outgoing index' => exact absurd rfl (h index')
    | saved index' => exact saveDepth_le hroomy hp
    | slot offset =>
      obtain ⟨v, hv⟩ := hp
      exact (slotDepth_facts hroomy (hsuits.slot v offset hv)).2.1
    | fixed =>
      simp only [regionDepth]
      omega
  simp only [regionDepth] at hle ⊢
  omega

/-- Different words are at different distances. -/
theorem regionDepth_inj {p q : Region} (hp : p.Used arch f a) (hq : q.Used arch f a)
    (hp' : p ≠ .fixed) (hq' : q ≠ .fixed)
    (h : arch.regionDepth (arch.frame f a) p = arch.regionDepth (arch.frame f a) q) : p = q := by
  have hout_lt := regionDepth_lt_outgoing hsuits hroomy hout
  cases p with
  | fixed => exact absurd rfl hp'
  | outgoing index =>
    cases q with
    | fixed => exact absurd rfl hq'
    | outgoing index' =>
      have hindex : index < f.outgoingArgs arch.target := hp
      have hindex' : index' < f.outgoingArgs arch.target := hq
      have hroom := hroomy.room
      simp only [regionDepth] at h
      rw [show index = index' by omega]
    | saved | slot => exact absurd h.symm (Nat.ne_of_lt (hout_lt hq hp (by simp)))
  | saved index =>
    cases q with
    | fixed => exact absurd rfl hq'
    | outgoing => exact absurd h (Nat.ne_of_lt (hout_lt hp hq (by simp)))
    | saved index' => rw [saveDepth_inj hroomy.toWellLaid hp hq h]
    | slot offset =>
      obtain ⟨v, hv⟩ := hq
      exact absurd h.symm (slotDepth_ne_saveDepth hroomy (hsuits.slot v offset hv) hp)
  | slot offset =>
    have hslot : offset % 8 = 0 ∧ offset + 8 ≤ a.spillSize := by
      obtain ⟨v, hv⟩ := hp
      exact hsuits.slot v offset hv
    cases q with
    | fixed => exact absurd rfl hq'
    | outgoing => exact absurd h (Nat.ne_of_lt (hout_lt hp hq (by simp)))
    | saved index' => exact absurd h (slotDepth_ne_saveDepth hroomy hslot hq)
    | slot offset' =>
      obtain ⟨w, hw⟩ := hq
      rw [slotDepth_inj hroomy hslot (hsuits.slot w offset' hw) h]

/-- A region lies inside of the frame, and apart from every other region. -/
theorem region_apart {p : Region} (hp : p.Used arch f a) :
    p.length ≤ arch.regionDepth (arch.frame f a) p ∧
    arch.regionDepth (arch.frame f a) p ≤ (arch.frame f a).size ∧
    ∀ q, q.Used arch f a → p ≠ q →
      arch.regionDepth (arch.frame f a) p + q.length ≤ arch.regionDepth (arch.frame f a) q ∨
      arch.regionDepth (arch.frame f a) q + p.length ≤ arch.regionDepth (arch.frame f a) p := by
  have hword : ∀ {r : Region}, r ≠ .fixed → r.length = 8 := by
    rintro (_ | _ | _ | _) hr <;> first | rfl | exact absurd rfl hr
  have hlength : Region.fixed.length = 16 := rfl
  have hdepth : arch.regionDepth (arch.frame f a) .fixed = 16 := rfl
  have hfacts := regionDepth_facts hsuits hroomy hout
  by_cases hp' : p = .fixed
  · subst hp'
    have hroom := hroomy.room
    simp only [fixedArea] at hroom
    refine ⟨by omega, by omega, fun q hq hne => .inl ?_⟩
    have hfacts' := hfacts hq hne.symm
    have hlength' := hword hne.symm
    omega
  · have hfacts' := hfacts hp hp'
    have hlength' := hword hp'
    refine ⟨by omega, hfacts'.2.1, fun q hq hne => ?_⟩
    by_cases hq' : q = .fixed
    · subst hq'
      exact .inr (by omega)
    · have hfacts'' := hfacts hq hq'
      have hlength'' := hword hq'
      have hne' : arch.regionDepth (arch.frame f a) p ≠ arch.regionDepth (arch.frame f a) q :=
        fun h => hne (regionDepth_inj hsuits hroomy hout hp hq hp' hq' h)
      omega

/-- The body finds a region where the layout puts it. -/
theorem regionAddress_eq {top : Int64} {s : State} (hbody : arch.InBody (arch.frame f a) top s)
    {p : Region} (hp : p.Used arch f a) :
    arch.regionAddress (arch.frame f a) s p = below top (arch.regionDepth (arch.frame f a) p) := by
  have hroom := hroomy.room
  simp only [fixedArea] at hroom
  have hsp := hbody.stackPointer
  have hfp := hbody.framePointer
  cases p with
  | outgoing index =>
    have hindex : index < f.outgoingArgs arch.target := hp
    rw [regionAddress, outgoingAddress, hsp]
    exact below_add top (by omega)
  | saved index =>
    have hindex : index < (arch.frame f a).saved.length := hp
    cases arch with
    | amd64 =>
      refine (congrArg (below · _) hfp).trans ((below_below top _ _).trans ?_)
      simp only [regionDepth, saveDepth, Amd64.saveDepth, framePointerDepth]
      congr 1
      omega
    | arm64 | riscv64 =>
      refine (congrArg (· + _) hsp).trans (below_add top ?_)
      simp only [Frame.saveOffset]
      omega
  | slot offset =>
    obtain ⟨v, hv⟩ := hp
    exact slotAddress_eq hroomy (hsuits.slot v offset hv) hbody.slotBase
  | fixed =>
    cases arch with
    | amd64 => exact hfp
    | arm64 | riscv64 =>
      refine (congrArg (· + _) hsp).trans ((below_add top ?_).trans ?_)
      · exact Nat.sub_le _ _
      · simp only [regionDepth, Frame.localSize, fixedArea]
        congr 1
        omega

end Layout

/-- Regions never overlap. For what either allocator returns, in a frame of less than 4 GiB, the size of
the frame is a multiple of 16, every register in which there is a value is saved, and the regions in use
lie inside of the frame and apart from each other. The body finds them there, and the prologue leads
into the body with the saved registers, the frame pointer and the return address in their regions. -/
theorem frame_regions (arch : Arch) {f : Function} (hf : f.IsBuilt) {strategy : Strategy}
    {profile : Option Profile} {a : Allocation}
    (halloc : strategy.allocate f arch.target profile = .ok a)
    (hout : f.outgoingArgs arch.target * 8 < 2 ^ 32) (hsize : (arch.frame f a).size < 2 ^ 32) :
    (arch.frame f a).size % 16 = 0 ∧
    (∀ v r, a.location? v = some (.register r) → r ∈ (arch.frame f a).saved) ∧
    (∀ p : Region, p.Used arch f a →
      p.length ≤ arch.regionDepth (arch.frame f a) p ∧
      arch.regionDepth (arch.frame f a) p ≤ (arch.frame f a).size ∧
      ∀ q, q.Used arch f a → p ≠ q →
        arch.regionDepth (arch.frame f a) p + q.length ≤ arch.regionDepth (arch.frame f a) q ∨
        arch.regionDepth (arch.frame f a) q + p.length ≤ arch.regionDepth (arch.frame f a) p) ∧
    (∀ top s, arch.InBody (arch.frame f a) top s → ∀ p : Region, p.Used arch f a →
      arch.regionAddress (arch.frame f a) s p =
        below top (arch.regionDepth (arch.frame f a) p)) ∧
    ∀ host o s ra, (arch.callerSp s).toInt % 16 = 0 → arch.returnAddress? s = some ra →
      Leads (arch.exec host) (arch.prologueCode o (arch.frame f a)) s fun s' =>
        arch.InBody (arch.frame f a) (arch.callerSp s) s' ∧
        (∀ index r, (arch.frame f a).saved[index]? = some r →
          s'.memory (arch.regionAddress (arch.frame f a) s' (.saved index)) = some (s.get r)) ∧
        s'.memory (arch.regionAddress (arch.frame f a) s' .fixed) =
          some (s.get arch.target.framePointer) ∧
        s'.memory (arch.regionAddress (arch.frame f a) s' .fixed + 8) = some ra := by
  have hsuits := Strategy.suits_of_allocate hf.wellFormed halloc
  have hunits : arch.target.stackAlign = 16 ∧ arch.target.wordSize = 8 := by cases arch <;> decide
  have hroomy : (arch.frame f a).Roomy arch.target :=
    Frame.roomy_ofAllocation hunits.1 hunits.2 a _ hsize
  have hwords : (arch.frame f a).outgoingSize = f.outgoingArgs arch.target * 8 := by
    rw [← hunits.2]
    exact Frame.outgoingSize_ofAllocation (by simp only [UInt32.size]; omega)
  have hfinds : ∀ {top s}, arch.InBody (arch.frame f a) top s → ∀ p : Region, p.Used arch f a →
      arch.regionAddress (arch.frame f a) s p =
        below top (arch.regionDepth (arch.frame f a) p) :=
    fun hbody p hp => regionAddress_eq hsuits hroomy hwords hbody hp
  refine ⟨hroomy.size_mod, fun v r => mem_saved_frame hsuits,
    fun p hp => region_apart hsuits hroomy hwords hp, fun top s => hfinds, ?_⟩
  intro host o s ra haligned hra
  refine (prologueCode_leads o hroomy.toWellLaid host (by omega) hra).mono ?_
  rintro s' ⟨hsp, hfp, hwrote⟩
  have hbody : arch.InBody (arch.frame f a) (arch.callerSp s) s' := ⟨haligned, hsp, hfp⟩
  have hkept := (entered_of_wrote hroomy.toWellLaid hsp hwrote).kept
  have hfixed := hfinds hbody .fixed trivial
  refine ⟨hbody, fun index r hr => ?_, ?_, ?_⟩
  · have hindex : index < (arch.frame f a).saved.length := (List.getElem?_eq_some_iff.1 hr).1
    rw [hfinds hbody (.saved index) hindex]
    refine hkept (arch.saveDepth (arch.frame f a) index, s.get r) ?_
    refine List.mem_cons_of_mem _ (List.mem_cons_of_mem _ (List.mem_map.2 ⟨(r, index), ?_, rfl⟩))
    exact List.mem_zipIdx_iff_getElem?.2 hr
  · rw [hfixed]
    exact hkept (16, s.get arch.target.framePointer) (by simp [keptWords])
  · have hnext : below (arch.callerSp s) fixedArea + 8 = below (arch.callerSp s) 8 :=
      below_add _ (by decide)
    rw [hfixed, regionDepth, hnext]
    exact hkept (8, ra) (by simp [keptWords])

/-- The call with nine arguments on Arm has one outgoing word, at the bottom of the frame and right
below the three saved registers. -/
theorem frame_regions_relay :
    ∃ a, Strategy.linearScan.allocate Function.relay arm64.target none = .ok a ∧
      Function.relay.IsBuilt ∧ Function.relay.outgoingArgs arm64.target = 1 ∧
      (arm64.frame Function.relay a).saved = ["x19", "x20", "x21"] ∧
      (arm64.frame Function.relay a).size = 48 ∧
      ∀ top s, arm64.InBody (arm64.frame Function.relay a) top s →
        arm64.regionAddress (arm64.frame Function.relay a) s (.outgoing 0) = below top 48 ∧
        arm64.regionAddress (arm64.frame Function.relay a) s (.saved 0) = below top 40 := by
  obtain ⟨a, halloc⟩ := arm64.exists_allocate .linearScan Function.relay none
  have hout : Function.relay.outgoingArgs arm64.target = 1 := by decide
  have hframe : arm64.frame Function.relay a = ⟨["x19", "x20", "x21"], 0, 8, 48⟩ := by
    cases halloc
    decide
  obtain ⟨-, -, -, hfinds, -⟩ := frame_regions arm64 Function.isBuilt_relay halloc
    (by rw [hout]; decide) (by rw [hframe]; decide)
  have hused : (Region.outgoing 0).Used arm64 Function.relay a ∧
      (Region.saved 0).Used arm64 Function.relay a := by
    simp [Region.Used, hout, hframe]
  refine ⟨a, halloc, Function.isBuilt_relay, hout, ?_⟩
  rw [hframe] at hfinds ⊢
  exact ⟨rfl, rfl, fun top s hbody =>
    ⟨hfinds top s hbody _ hused.1, hfinds top s hbody _ hused.2⟩⟩

end Arch

end SsaBackend
