import SsaBackend.Proofs.Riscv64.Footprint

/-!
# What a check finds about frames on riscv64

A tracker passes the prologue, the code of every step and the epilogue without a finding about the
frame. The epilogue raises the stack pointer by the size of the frame, so throughout the body the stack
has to be as deep as the prologue left it. Sizes and offsets that no instruction can hold are put
together in a register, and the tracker knows the result (`get?_materialize`).
-/

namespace SsaBackend.Riscv64

open Asm Check List Listing

theorem exists_leaves {is : List Instr} (h : ∀ i ∈ is, i.Proper) :
    ∀ i ∈ is, ∀ p, i.footprint? = some p → ∀ n, ∃ a,
      item? dialect n i.line = some (.instr a) ∧ dialect.Leaves (fun _ => []) p a :=
  fun i hi _ hp n => ⟨_, item?_line (h i hi) n, (h i hi).leaves hp n _⟩

instance : dialect.Frameless := ⟨fun _ _ => Arch.isFrame_of_mem_operandFindings .riscv64⟩

def frameView (f : Frame) : FrameView := ⟨f.saved, false, 0, some f.size⟩

abbrev Passes (P : Tracker → Prop) (is : List Instr) (Q : Tracker → Prop) : Prop :=
  Quiet dialect Finding.isFrame P (is.map Instr.line) Q

theorem Passes.append {P Q R : Tracker → Prop} {is is' : List Instr} (h : Passes P is Q)
    (h' : Passes Q is' R) : Passes P (is ++ is') R := by
  rw [Passes, map_append]
  exact Quiet.append h h'

variable {f : Frame} {F : Set Register}

/-! ### Literals and addresses for the frame -/

def Prepares (is : List Instr) : Prop :=
  ∀ i ∈ is, ∃ q, i.footprint? = onFree addr q ∧ q.Computes

theorem materialize_prepares (value : Int) : Prepares (materialize addr value) := fun i hi => by
  cases literal_materialize addr value i hi <;> exact ⟨_, rfl, rfl, rfl, rfl⟩

theorem Literal.loads {dst : Register} (hnames : Text.names dst = [dst]) (hmemory : isMemory dst = false)
    {i : Instr} (h : Literal dst i) :
    dialect.Loads Instr.asm dst Instr.isFirst Instr.load i := by
  have hdestinations : ∀ n, dialect.destinations (i.asm n) = [0] := by
    intro n
    cases h with
    | add hop => rcases hop with rfl | rfl <;> rfl
    | _ => rfl
  refine ⟨fun n => ?_, fun n k old hold => ?_⟩
  · cases h <;> exact Dialect.written_of_first rfl (hdestinations n) hmemory hnames
  · have himm : ∀ op value, op ∈ [ImmOp.addi, .addiw, .slli] → -2048 ≤ value ∧ value ≤ 2047 →
        (Instr.imm op dst dst value).isFirst = true ∨ k.get? dst = some old →
        constant? k ((Instr.imm op dst dst value).asm n) = some (op.apply old (Int64.ofInt value)) := by
      intro op value hop hvalue hold
      replace hold := hold.resolve_left (by simp [Instr.isFirst])
      refine (constant?_imm op dst dst value k n _).trans ?_
      simp only [mem_cons, not_mem_nil, or_false] at hop
      rcases hop with rfl | rfl | rfl <;>
        simp [ImmOp.foresee, hold, Text.word?_eq_some (show -2 ^ 63 ≤ value by omega) (by omega)]
    cases h with
    | li h => exact (immediate?_toString _).trans (Text.word?_eq_some (by omega) (by omega))
    | @lui value h =>
      show (immediate? (toString value)).bind (fun w => some (word (w <<< 12))) = _
      rw [immediate?_toString, Text.word?_eq_some (by omega) (by omega)]
      rfl
    | shift => exact himm .slli 12 (by decide) (by decide) hold
    | add hop h => exact himm _ _ (by rcases hop with rfl | rfl <;> decide) h hold

theorem get?_materialize {dst : Register} (hnames : Text.names dst = [dst])
    (hmemory : isMemory dst = false) {value : Int} (hmin : -2 ^ 63 ≤ value) (hmax : value < 2 ^ 63)
    (n : Nat) (k : Constants) :
    ((listed Instr.asm n (materialize dst value)).foldl dialect.note k).get? dst =
      some (Int64.ofInt value) := by
  have hliteral := literal_materialize dst value
  have hvalue : (materialize dst value).foldl Instr.load 0 = _ := foldl_load_materialize hmin hmax 0
  obtain ⟨i, is, heq, hfirst⟩ := exists_first dst value
  rw [heq] at hliteral hvalue ⊢
  rw [Dialect.get?_foldl_note hfirst (fun j hj => (hliteral j hj).loads hnames hmemory) n k 0, hvalue]

theorem spAddress_prepares (offset : Nat) : Prepares (spAddress offset).1 := by
  unfold spAddress
  split
  · simp [Prepares]
  · exact forall_mem_append.2 ⟨materialize_prepares _,
      forall_mem_singleton.2 ⟨_, rfl, rfl, rfl, rfl⟩⟩

theorem Prepares.isSetup {is : List Instr} (h : Prepares is) :
    ∀ p ∈ is.filterMap Instr.footprint?, p.isSetup dialect = true ∧ p.Computes := by
  intro p hp
  obtain ⟨i, hi, hfoot⟩ := mem_filterMap.1 hp
  obtain ⟨q, hq, hcomputes⟩ := h i hi
  have haddr : addr ∉ frameRegs ∧ addr ∈ dialect.frameScratch := by decide
  rw [hq, onFree, if_neg haddr.1] at hfoot
  cases hfoot
  exact ⟨by simp [Footprint.isSetup, haddr.2], hcomputes.1, hcomputes.2, hcomputes.3⟩

/-! ### Moving stack and frame pointer -/

def pointerEffect (dst : Register) (down : Bool) (amount : Int) : StackEffect :=
  if dst = "sp" then if down then .grow amount else .shrink amount
  else .setFrame (if down then -amount else amount)

section Adjust

variable {dst : Register} (hdst : dst ∈ frameRegs) {delta : Int}

include hdst

theorem mem_of_mem_frameRegs : dst ∈ wholeRegs := by
  revert dst
  decide

theorem leaves_near (hmin : -2 ^ 32 < delta) (hmax : delta < 2 ^ 32) (n : Nat) :
    dialect.Leaves (fun _ => [pointerEffect dst (delta < 0) delta.natAbs])
      { Footprint.idle with
        written := [dst], read := ["sp"], value := ImmOp.addi.foresee "sp" delta }
      ((Instr.imm .addi dst "sp" delta).asm n) := by
  have hlit : literal? (toString delta) = some delta := by
    rw [literal?, immediate?_toString, Text.word?_eq_some (by omega) (by omega), Option.map_some,
      Int64.toInt_ofInt_of_le (by omega) (by omega)]
  have habs : (delta.natAbs : Int) = if delta < 0 then -delta else delta := by split <;> omega
  refine leaves_data (m := "addi") ["sp", toString delta] n _ (by decide) (mem_of_mem_frameRegs hdst) ?_
    rfl ?_ ?_
  · intro k
    simp only [frameRegs, mem_cons, not_mem_nil, or_false] at hdst
    rcases hdst with rfl | rfl
    all_goals
      simp only [stackEffects, sumEffects, isFramePointer, hlit, pointerEffect, habs]
      by_cases hneg : delta < 0 <;> simp [hneg, shiftEffect]
  · rw [flatMap_cons, names_whole stackPointer_mem, flatMap_names_number]
    rfl
  · exact fun k => constant?_imm .addi dst "sp" delta k n _

theorem leaves_far (n : Nat) :
    dialect.Leaves (fun k => [(known? k addr).elim .unknown (pointerEffect dst (delta < 0))])
      { Footprint.idle with written := [dst], read := ["sp", addr] }
      ((Instr.reg (if delta < 0 then .sub else .add) dst "sp" addr).asm n) := by
  have hm := (if delta < 0 then RegOp.sub else RegOp.add).mnemonic_mem
  refine leaves_data ["sp", addr] n _ hm.1 (mem_of_mem_frameRegs hdst) ?_
    (restored_data _ n _ hm.2) ?_ ?_
  · intro k
    simp only [frameRegs, mem_cons, not_mem_nil, or_false] at hdst
    by_cases hneg : delta < 0
    all_goals
      simp only [hneg, if_true, if_false, RegOp.mnemonic, decide_true, decide_false]
      rcases hdst with rfl | rfl <;> cases hk : known? k addr <;>
        simp [stackEffects, sumEffects, isFramePointer, pointerEffect, hk]
  · simp [names_whole stackPointer_mem, names_whole addr_mem]
  · intro k
    split <;> rfl

theorem quiet_adjust (f : Frame) (hmin : -2 ^ 32 < delta) (hmax : delta < 2 ^ 32) {e : StackEffect}
    (he : pointerEffect dst (delta < 0) delta.natAbs = e) (hsp : "sp" ∈ F) {P Q : Tracker → Prop}
    (hfresh : ∀ t, P t → t.Fresh F)
    (hload : ∀ t, ∀ ps : List Footprint, P t → (∀ p ∈ ps, p.isSetup dialect = true ∧ p.Computes) →
      (ps.foldl (Tracker.leave dialect) t).Fresh F → P (ps.foldl (Tracker.leave dialect) t))
    (hmove : ∀ t p, P t → p.Computes →
      ¬((t.applyEffect e).tracking = true ∧ (t.applyEffect e).depth < 0) ∧
        Q ((t.applyEffect e).note dialect p)) :
    Passes P (adjust dst "sp" delta) Q := by
  have hwhole := mem_of_mem_frameRegs hdst
  subst he
  unfold adjust
  split
  · refine .moves (item?_line (i := .imm .addi dst "sp" delta)
      ⟨hwhole, stackPointer_mem⟩) (leaves_near hdst hmin hmax) fun t ht => ?_
    obtain ⟨hsafe, hq⟩ := hmove t { Footprint.idle with
      written := [dst], read := ["sp"], value := ImmOp.addi.foresee "sp" delta } ht ⟨rfl, rfl, rfl⟩
    exact ⟨_, rfl, hsafe, (hfresh t ht).staleReads (forall_mem_singleton.2 hsp), hq⟩
  · have haddr : addr ∉ frameRegs := by decide
    have htidy : TidyIn f F (materialize addr delta.natAbs) (insert addr F) :=
      materialize_tidy haddr _
    have hsetup := htidy.quiet_run
      (exists_leaves (materialize_proper addr_mem _)) hfresh
    refine Passes.append hsetup (.moves
      (item?_line (i := .reg _ dst "sp" addr) ⟨hwhole, .inr stackPointer_mem, addr_mem⟩)
      (leaves_far hdst) ?_)
    rintro t ⟨hfresh', t', ht', rfl⟩
    -- the amount is in a register that was set up just before, so the tracker knows it
    have hknown : known? (((materialize addr delta.natAbs).filterMap Instr.footprint?).foldl
        (Tracker.leave dialect) t').constants addr = some (delta.natAbs : Int) := by
      have hleaves : ∀ i ∈ materialize addr delta.natAbs, ∃ p effects, i.footprint? = some p ∧
          ∀ n, dialect.Leaves effects p (i.asm n) := by
        intro i hi
        obtain ⟨q, hq, -⟩ := materialize_prepares _ i hi
        rw [onFree, if_neg haddr] at hq
        exact ⟨_, _, hq, fun n => (materialize_proper addr_mem _ i hi).leaves hq n _⟩
      rw [known?, Tracker.constants_foldl_leave, dialect.foldl_learn Instr.asm hleaves _ 0,
        get?_materialize (by decide) (by decide) (by omega) (by omega), Option.map_some,
        Int64.toInt_ofInt_of_le (by omega) (by omega)]
    have hp := hload t' _ ht' (materialize_prepares _).isSetup (hfresh'.mono (Set.subset_insert _ _))
    obtain ⟨hsafe, hq⟩ := hmove _ { Footprint.idle with written := [dst], read := ["sp", addr] } hp
      ⟨rfl, rfl, rfl⟩
    refine ⟨_, by rw [hknown]; rfl, hsafe, hfresh'.staleReads ?_, hq⟩
    exact forall_mem_cons.2 ⟨Set.mem_insert_of_mem _ hsp,
      forall_mem_singleton.2 (Set.mem_insert _ _)⟩

end Adjust

/-! ### Prologues -/

def lowered (f : Frame) : Tracker := { Tracker.start with depth := f.size }

def linked (f : Frame) : Tracker :=
  { lowered f with framePointerSaved := true, linkRegisterSaved := true }

theorem quiet_storeSp (f : Frame) {b : Tracker} (hb : b.clobbered = []) (hin : b.inPrologue = true)
    {src : Register} (hsrc : src ∈ wholeRegs) (offset : Nat) :
    Passes b.Like (storeSp src offset) (b.noteSaved dialect src).Like := by
  obtain ⟨hproper, hbase⟩ := spAddress_proper offset
  have hsd : (Instr.sd src (spAddress offset).2).Proper := ⟨hsrc, mem_wholeRegs_of_base hbase⟩
  have haddress : Passes b.Like (spAddress offset).1 b.Like := by
    have htidy : TidyIn f Set.univ (spAddress offset).1 _ := spAddress_tidy (Set.mem_univ _) offset
    refine (htidy.quiet_run (exists_leaves hproper)
      fun t ht => ht.fresh hb).mono (fun t ht => ht) ?_
    rintro t ⟨-, t', ht', rfl⟩
    exact ht'.foldl_leave hb (spAddress_prepares offset).isSetup
  have hstore : Passes b.Like [.sd src (spAddress offset).2] (b.noteSaved dialect src).Like := by
    refine .instr (item?_line hsd) fun t n ht => ?_
    have hpass : t.pass dialect ((Instr.sd src (spAddress offset).2).asm n) = _ :=
      Tracker.pass_of_stays (hsd.leaves rfl n _) t
    rw [hpass, (ht.fresh hb).staleReads fun r _ => Set.mem_univ r, append_nil]
    exact ⟨Dialect.Frameless.isFrame _, ht.leave_saves hb hin src _⟩
  exact haddress.append hstore

section Frame

variable (hlaid : f.WellLaid target)

include hlaid

theorem size_pos : 0 < f.size := by
  have hfits := hlaid.fits
  unfold fixedArea at hfits
  omega

theorem quiet_lowerStack :
    Passes (· = .start) (adjust "sp" "sp" (-(f.size : Int))) (lowered f).Like := by
  have hsize := hlaid.size_lt
  have hpos := size_pos hlaid
  have heffect : pointerEffect "sp" (-(f.size : Int) < 0) (-(f.size : Int)).natAbs = .grow f.size := by
    simp [pointerEffect, hpos]
  refine (quiet_adjust (by decide) f (by omega) (by omega) heffect (Set.mem_univ _)
    (P := Tracker.start.Like) (fun t ht => ht.fresh rfl) (fun t ps ht hps _ => ht.foldl_leave rfl hps)
    ?_).mono (fun t ht => ⟨[], ht⟩) fun t ht => ht
  rintro t p ⟨k, rfl⟩ hp
  have hlowered : (lowered f).Like ({ Tracker.start with constants := k }.applyEffect (.grow f.size)) :=
    ⟨k, by simp [lowered, Tracker.applyEffect, Tracker.start]⟩
  refine ⟨fun h => absurd h.2 ?_, hlowered.note rfl hp⟩
  show ¬(0 : Int) + f.size < 0
  omega

theorem quiet_setFrame :
    Passes (linked f).Like (adjust "s0" "sp" f.size) (·.Inside (frameView f) Set.univ) := by
  have hsize := hlaid.size_lt
  have hpos := size_pos hlaid
  have heffect : pointerEffect "s0" ((f.size : Int) < 0) (f.size : Int).natAbs = .setFrame f.size := by
    simp [pointerEffect]
  refine quiet_adjust (by decide) f (by omega) (by omega) heffect (Set.mem_univ _)
    (fun t ht => ht.fresh rfl) (fun t ps ht hps _ => ht.foldl_leave rfl hps) ?_
  rintro t p ⟨k, rfl⟩ hp
  rw [Tracker.note_of_computes hp rfl]
  refine ⟨fun h => absurd h.2 ?_, ⟨rfl, rfl, rfl, rfl, ?_, ?_, ?_⟩, fun r _ => not_mem_nil⟩
  · show ¬(f.size : Int) < 0
    omega
  · intro r hr
    cases hr
  · show some ((f.size : Int) - f.size) = some 0
    rw [Int.sub_self]
  · intro n hn
    cases hn
    exact ⟨rfl, fun h => by cases h⟩

def setup (f : Frame) : List Instr :=
  adjust "sp" "sp" (-(f.size : Int)) ++ storeSp "ra" (f.size - 8) ++ storeSp "s0" (f.size - 16) ++
    adjust "s0" "sp" f.size

def saveRegs (f : Frame) : List Instr :=
  f.saved.zipIdx.flatMap fun r => storeSp r.1 (f.saveOffset r.2)

theorem quiet_setup : Passes (· = .start) (setup f) (·.Inside (frameView f) Set.univ) := by
  have hra : Passes (lowered f).Like (storeSp "ra" (f.size - 8))
      { lowered f with linkRegisterSaved := true }.Like :=
    quiet_storeSp f rfl rfl (by decide) _
  have hs0 : Passes { lowered f with linkRegisterSaved := true }.Like (storeSp "s0" (f.size - 16))
      (linked f).Like :=
    quiet_storeSp f rfl rfl (by decide) _
  exact (((quiet_lowerStack hlaid).append hra).append hs0).append (quiet_setFrame hlaid)

theorem saveRegs_proper : ∀ i ∈ saveRegs f, i.Proper :=
  (forall_mem_append.1 (prologue_proper hlaid.saved)).2

omit hlaid in
theorem saveRegs_tidy : TidyIn f Set.univ (saveRegs f) Set.univ :=
  Tidy.flatMap fun _ hr => storeSp_tidy (Set.mem_univ _) (Set.mem_univ _)
    (fun _ => fst_mem_of_mem_zipIdx hr) _

theorem quiet_prologue : Passes (· = .start) (prologue f) (·.Inside (frameView f) Set.univ) :=
  (quiet_setup hlaid).append
    (saveRegs_tidy.quiet (exists_leaves (saveRegs_proper hlaid)))

/-! ### Epilogues -/

def reload (f : Frame) : List Instr :=
  (f.saved.zipIdx.flatMap fun r => loadSp r.1 (f.saveOffset r.2)) ++ loadSp "ra" (f.size - 8) ++
    loadSp "s0" (f.size - 16)

theorem ne_of_mem_saved {r : Register} (hr : r ∈ f.saved) : r ≠ "sp" := by
  rintro rfl
  exact (isFree_iff.1 (isFree_of_mem_calleeSaved (hlaid.saved _ hr))).2 (by simp)

theorem reload_tidy (hsp : "sp" ∈ F) : TidyIn f F (reload f) F := by
  have hload : ∀ {r}, r ≠ "sp" → ∀ offset, TidyIn f F (loadSp r offset) F := fun hr offset =>
    Tidy.weaken (loadSp_tidy hsp hr offset) (Set.subset_insert _ _)
  refine Tidy.append (Tidy.append (Tidy.flatMap fun r hr => hload ?_ _) (hload (by decide) _))
    (hload (by decide) _)
  exact ne_of_mem_saved hlaid (fst_mem_of_mem_zipIdx hr)

theorem exists_mem_reload {r : Register} (hr : r ∈ "ra" :: "s0" :: f.saved) :
    ∃ p ∈ (reload f).filterMap Instr.footprint?, p.restored = [r] ∧ p.saved = [] ∧ p.written = [r] := by
  have hload : ∀ offset, .ld r (spAddress offset).2 ∈ loadSp r offset := fun _ =>
    mem_append_right _ mem_cons_self
  have hmem : ∃ a, Instr.ld r a ∈ reload f := by
    simp only [mem_cons] at hr
    rcases hr with rfl | rfl | hr
    · exact ⟨_, mem_append_left _ (mem_append_right _ (hload _))⟩
    · exact ⟨_, mem_append_right _ (hload _)⟩
    · obtain ⟨index, hindex⟩ := mem_iff_getElem?.1 hr
      refine ⟨_, mem_append_left _ (mem_append_left _ (mem_flatMap.2
        ⟨(r, index), mem_zipIdx_iff_getElem?.2 hindex, hload _⟩))⟩
  obtain ⟨a, ha⟩ := hmem
  have hsp : r ≠ "sp" := by
    simp only [mem_cons] at hr
    rcases hr with rfl | rfl | hr
    · decide
    · decide
    · exact ne_of_mem_saved hlaid hr
  exact ⟨_, mem_filterMap.2 ⟨_, ha, by rw [Instr.footprint?, if_neg hsp]⟩, rfl, rfl, rfl⟩

theorem reload_proper : ∀ i ∈ reload f, i.Proper := by
  have hproper := epilogue_proper hlaid.saved
  unfold epilogue at hproper
  exact (forall_mem_append.1 (forall_mem_append.1 hproper).1).1

theorem quiet_reload (hsp : "sp" ∈ F) :
    Passes (·.Inside (frameView f) F) (reload f)
      (fun t => t.Leaving (frameView f) F ("ra" :: "s0" :: f.saved) ∧ t.inPrologue = false) := by
  have htidy := reload_tidy hlaid hsp
  have hread := exists_leaves (reload_proper hlaid)
  refine (htidy.quiet_leaving hread fun r hr => ?_).and
    ((htidy.quiet_run hread fun t ht => ht.2).mono (fun t ht => ht) ?_)
  · obtain ⟨p, hp, hrestored, -⟩ := exists_mem_reload hlaid hr
    exact mem_flatMap.2 ⟨p, hp, by simp [hrestored]⟩
  · rintro t ⟨-, t', -, rfl⟩
    obtain ⟨p, hp, -, hsaved, hwritten⟩ := exists_mem_reload hlaid (r := "ra") mem_cons_self
    have hscratch : "ra" ∉ dialect.frameScratch := by decide
    have hsetup : p.isSetup dialect = false := by simp [Footprint.isSetup, hsaved, hwritten, hscratch]
    rw [Tracker.inPrologue_foldl_leave, all_eq_false.2 ⟨p, hp, by simp [hsetup]⟩, Bool.and_false]

theorem quiet_raiseStack (hsp : "sp" ∈ F) :
    Passes (fun t => t.Leaving (frameView f) F ("ra" :: "s0" :: f.saved) ∧ t.inPrologue = false)
      (adjust "sp" "sp" f.size) (fun t => t.AtReturn target (frameView f) ∧ t.Fresh F) := by
  have hsize := hlaid.size_lt
  have heffect : pointerEffect "sp" ((f.size : Int) < 0) (f.size : Int).natAbs = .shrink f.size := by
    simp [pointerEffect]
  refine quiet_adjust (by decide) f (by omega) (by omega) heffect hsp (fun t ht => ht.1.fresh) ?_ ?_
  · rintro t ps ⟨hleaving, hin⟩ hps hfresh
    refine ⟨⟨hleaving.body.foldl_leave fun p hp => ?_, hfresh, fun r hr => ?_⟩, ?_⟩
    · simp [(hps p hp).2.saved]
    · rw [Tracker.restored_foldl_leave]
      exact mem_append_left _ (hleaving.restored r hr)
    · rw [Tracker.inPrologue_foldl_leave, hin, Bool.false_and]
  · rintro t p ⟨⟨hbody, hfresh, hrestored⟩, hin⟩ hp
    obtain ⟨hdepth, hlevel⟩ := hbody.level _ rfl
    -- a body stands at the depth of its whole frame, so this returns to depth zero
    have hzero : (t.applyEffect (.shrink f.size)).depth = 0 := by
      show t.depth - f.size = 0
      omega
    have hbody' := (hbody.unlevel.applyEffect rfl (e := .shrink f.size) (by simp)).note
      (d := dialect) (p := p) (by simp [hp.saved])
    have hrestored' : ∀ r ∈ "ra" :: "s0" :: f.saved,
        r ∈ ((t.applyEffect (.shrink f.size)).note dialect p).restored := fun r hr => by
      rw [Tracker.restored_note, Tracker.restored_applyEffect]
      exact mem_append_left _ (hrestored r hr)
    simp only [forall_mem_cons] at hrestored'
    refine ⟨fun h => absurd h.2 (by rw [hzero]; decide), { hbody' with
      authenticated := fun h => by cases h
      depth := by rw [Tracker.depth_note, hzero]
      level := fun n hn => ?_
      restored := hrestored'.2.2
      framePointer := hrestored'.2.1
      linkRegister := fun r hr => by cases hr; exact hrestored'.1 }, ?_⟩
    · cases hn
      rw [Tracker.inPrologue_note, Tracker.bodyDepth_note]
      exact ⟨hin, hlevel hin⟩
    · refine ((hfresh.applyEffect _).note p).mono ?_
      rw [Footprint.next, hp.isCall]
      exact Set.subset_union_left

theorem quiet_epilogue (hkept : dialect.steady ⊆ F) :
    Passes (·.Inside (frameView f) F) (epilogue f) (·.Inside (frameView f) F) := by
  have hsp : "sp" ∈ F := hkept (mem_steady (by simp))
  have hret : Passes (fun t => t.AtReturn target (frameView f) ∧ t.Fresh F) [.ret]
      (·.Inside (frameView f) F) := by
    refine .instr (item?_line (i := .ret) trivial) fun t n ht => ?_
    have hbare : dialect.Bare (Instr.ret.asm n) := ⟨rfl, fun _ => rfl, rfl, rfl, rfl, rfl, rfl⟩
    obtain ⟨hfind, hbody, hfresh⟩ := ht.1.pass hbare rfl rfl rfl ht.2
    rw [hfind]
    exact ⟨Dialect.Frameless.isFrame _, hbody, hfresh⟩
  exact ((quiet_reload hlaid hsp).append (quiet_raiseStack hlaid hsp)).append hret

/-! ### Steps -/

theorem quiet_lower {s : Step} (hproper : s.Proper target.valueRegs) (hs : s.Framed target f)
    (hlabel : ∀ name, s ≠ .label name) (hkept : dialect.steady ⊆ F)
    (hfresh : ∀ o ∈ s.reads, o.FreshIn F) :
    Passes (·.Inside (frameView f) F) (lower f s)
      (·.Inside (frameView f) (s.next dialect.steady F)) := by
  -- returns move the stack pointer
  by_cases hreturn : s = .epilogue
  · subst hreturn
    exact quiet_epilogue hlaid hkept
  · exact (lower_tidy hs hkept hfresh hlabel hreturn).quiet
      (exists_leaves (lower_proper (fun _ => hlaid.saved) hproper))

end Frame

end SsaBackend.Riscv64
