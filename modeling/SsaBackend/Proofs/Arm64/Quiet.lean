import SsaBackend.Proofs.Arm64.Footprint

/-!
# What a check finds about frames on arm64

A tracker passes the prologue, the code of every step and the epilogue without a finding about the
frame. The prologue saves frame pointer and return address and sets the frame pointer 16 bytes below
the stack pointer of the caller, and every epilogue starts from there, so the size of the rest of the
frame plays no role.
-/

namespace SsaBackend.Arm64

open Asm Check List Listing

theorem exists_leaves {is : List Instr} (h : ∀ i ∈ is, i.Proper) :
    ∀ i ∈ is, ∀ p, i.footprint? = some p → ∀ n, ∃ a,
      item? dialect n i.line = some (.instr a) ∧ dialect.Leaves (fun _ => []) p a :=
  fun i hi _ hp n => ⟨_, item?_line (h i hi) n, (h i hi).leaves hp n _⟩

instance : dialect.Frameless := ⟨fun _ _ => Arch.isFrame_of_mem_operandFindings .arm64⟩

def frameView (o : Options) (f : Frame) : FrameView := ⟨f.saved, o.pointerAuth, fixedArea, none⟩

abbrev Passes (P : Tracker → Prop) (is : List Instr) (Q : Tracker → Prop) : Prop :=
  Quiet dialect Finding.isFrame P (is.map Instr.line) Q

theorem Passes.append {P Q R : Tracker → Prop} {is is' : List Instr} (h : Passes P is Q)
    (h' : Passes Q is' R) : Passes P (is ++ is') R := by
  rw [Passes, map_append]
  exact Quiet.append h h'

variable {f : Frame} {F : Set Register}

/-! ### Prologues -/

def linked (signed : Bool) : Tracker :=
  { Tracker.start with
    framePointerSaved := true, linkRegisterSaved := true, signed := signed, depth := 16,
    frameDepth := some 16 }

theorem bare_asm {i : Instr} (h : i ∈ [.paciasp, .autiasp, .ret]) (n : Nat) :
    dialect.Bare (i.asm n) := by
  simp only [mem_cons, not_mem_nil, or_false] at h
  have hdestinations : destinations (i.asm n) = [] := by
    rcases h with rfl | rfl | rfl <;> simp [destinations, Instr.asm, Instr.mnemonic, Instr.operands]
  have hwritten : dialect.written (i.asm n) = [] := Dialect.written_of_none hdestinations
  rcases h with rfl | rfl | rfl <;>
    exact ⟨rfl, fun _ => rfl, rfl, rfl, hwritten, rfl, rfl⟩

theorem leaves_push (n : Nat) :
    dialect.Leaves (fun _ => [.grow 16])
      { Footprint.idle with saved := ["x29", "x30"], read := ["x29", "x30", "sp"] }
      ((Instr.stpPush "x29" "x30" fixedArea).asm n) := by
  have hregs : (Instr.stpPush "x29" "x30" fixedArea).operands.flatMap registers =
      ["x29", "x30", "sp"] := by decide
  have hread := Dialect.readRegisters_of_none (d := dialect)
    (i := (Instr.stpPush "x29" "x30" fixedArea).asm n) rfl
    (labelOperand?_of_mem (m := "stp") (by decide) _ n _)
  exact ⟨rfl, fun _ => rfl, rfl, rfl, rfl, rfl, rfl, rfl, hread.trans hregs, rfl, fun _ => rfl⟩

theorem leaves_setFrame (n : Nat) :
    dialect.Leaves (fun _ => [.setFrame 0])
      { Footprint.idle with written := ["x29"], read := ["sp"] }
      ((Instr.mov "x29" (.reg "sp")).asm n) := by
  refine leaves_data (m := "mov") (by decide) ["sp"] n _ (by decide) ?_ rfl (by decide) ?_
  · exact fun _ => rfl
  · exact fun _ => rfl

theorem quiet_link (o : Options) :
    Passes (· = .start) ((if o.pointerAuth then [.paciasp] else []) ++
      [.stpPush "x29" "x30" fixedArea, .mov "x29" (.reg "sp")]) (· = linked o.pointerAuth) := by
  have hsign : Passes (· = .start) (if o.pointerAuth then [.paciasp] else [])
      (· = { Tracker.start with signed := o.pointerAuth }) := by
    cases o.pointerAuth with
    | false => exact .nil fun t ht => ht
    | true =>
      refine .instr (item?_line (i := .paciasp) trivial) fun t n ht => ?_
      subst ht
      rw [Tracker.pass_of_signs (bare_asm (by simp) n) rfl rfl rfl rfl rfl]
      exact ⟨Dialect.Frameless.isFrame _, rfl⟩
  have hpush : Passes (· = { Tracker.start with signed := o.pointerAuth })
      [.stpPush "x29" "x30" fixedArea] (· = { linked o.pointerAuth with frameDepth := none }) := by
    refine .moves (item?_line (i := .stpPush "x29" "x30" fixedArea) ⟨by decide, by decide⟩)
      leaves_push fun t ht => ?_
    subst ht
    exact ⟨_, rfl, fun h => absurd h.2 (show ¬(16 : Int) < 0 by decide), rfl, rfl⟩
  have hset : Passes (· = { linked o.pointerAuth with frameDepth := none }) [.mov "x29" (.reg "sp")]
      (· = linked o.pointerAuth) := by
    refine .moves (item?_line (i := .mov "x29" (.reg "sp")) ⟨by decide, show _ ∈ _ by decide⟩) leaves_setFrame
      fun t ht => ?_
    subst ht
    exact ⟨_, rfl, fun h => absurd h.2 (show ¬(16 : Int) < 0 by decide), rfl, rfl⟩
  exact hsign.append (hpush.append hset)

theorem Literal.loads {dst : Register} (hregisters : registers dst = [dst])
    (hmemory : isMemory dst = false) {i : Instr} (h : Literal dst i) :
    dialect.Loads Instr.asm dst Instr.isFirst Instr.load i := by
  have hoperands : i.mnemonic ∈ dataMnemonics ∧ ∃ rest, i.operands = dst :: rest := by
    cases h with
    | mov => exact ⟨show "mov" ∈ _ by decide, _, rfl⟩
    | @movz chunk shift | @movk chunk shift =>
      obtain ⟨rest, hops, -⟩ := flatMap_registers_chunkOperands chunk shift
      exact ⟨by simp only [Instr.mnemonic]; decide, rest, hops dst⟩
  refine ⟨fun n => ?_, fun n k old hold => ?_⟩
  · obtain ⟨hm, rest, hops⟩ := hoperands
    have hdestinations : ∀ text, destinations ⟨i.mnemonic, dst :: rest, n, text⟩ = [0] :=
      fun text => destinations_data hm rest n text
    rw [← hops] at hdestinations
    exact Dialect.written_of_first hops (hdestinations _) hmemory hregisters
  · cases h with
    | @mov value h =>
      show immediate? (Arg.imm value).render = _
      rw [Arg.render, immediate?_number, Text.int64?_toString,
        Text.word?_eq_some (by omega) (by omega)]
      rfl
    | movz h => exact constant?_movz dst h.lt k n _
    | movk h =>
      refine (constant?_movk dst h.lt k n _).trans ?_
      rw [hold.resolve_left (by simp [Instr.isFirst])]
      rfl

theorem get?_materialize {dst : Register} (hregisters : registers dst = [dst])
    (hmemory : isMemory dst = false) {value : Int} (hlow : -2 ^ 63 ≤ value) (hhigh : value < 2 ^ 63)
    (n : Nat) (k : Constants) :
    ((listed Instr.asm n (materialize dst value)).foldl dialect.note k).get? dst =
      some (Int64.ofInt value) := by
  have hliteral := literal_materialize dst value
  have hvalue : (materialize dst value).foldl Instr.load 0 = _ := foldl_load_materialize hlow hhigh 0
  obtain ⟨i, is, heq, hfirst, -⟩ := exists_first hlow hhigh dst
  rw [heq] at hliteral hvalue ⊢
  rw [Dialect.get?_foldl_note hfirst (fun j hj => (hliteral j hj).loads hregisters hmemory) n k 0,
    hvalue]

theorem leaves_sub {a : Arg} (h : a.Proper) (n : Nat) :
    dialect.Leaves (fun k => [(amount? k a.render).elim .unknown (spDownEffect "sp")])
      { Footprint.idle with written := ["sp"], read := "sp" :: a.regs }
      ((Instr.alu .sub "sp" "sp" a).asm n) := by
  refine leaves_data (m := "sub") (by decide) ["sp", a.render] n _ (by decide) ?_ rfl ?_ ?_
  · exact fun _ => rfl
  · have hsp : registers "sp" = ["sp"] := registers_of_mem (by decide)
    simp [hsp, h.registers_render]
  · exact fun _ => rfl

theorem quiet_sub {v : FrameView} (hlevel : v.level = none) {a : Arg} (ha : a.Proper) {amount : Int}
    (hamount : 0 ≤ amount) :
    Passes (fun t => t.InBody v ∧ t.Fresh Set.univ ∧ 0 ≤ t.depth ∧
      amount? t.constants a.render = some amount) [.alu .sub "sp" "sp" a] (·.Inside v Set.univ) := by
  have hproper : (Instr.alu .sub "sp" "sp" a).Proper :=
    ⟨by decide, by decide, ha, fun h => by cases h⟩
  refine .moves (item?_line hproper) (leaves_sub ha) ?_
  rintro t ⟨hbody, hfresh, hdepth, hknown⟩
  refine ⟨.grow amount, by rw [hknown]; rfl, fun h => absurd h.2 ?_, ?_, ?_, ?_⟩
  · show ¬t.depth + amount < 0
    omega
  · exact hfresh.staleReads fun r _ => Set.mem_univ r
  · exact (hbody.applyEffect hlevel (by simp)).note (by simp [Footprint.idle])
  · exact ((hfresh.applyEffect _).note _).mono Set.subset_union_left

theorem amount?_imm {value : Int} (hlow : -2 ^ 63 ≤ value) (hhigh : value < 2 ^ 63) (k : Constants) :
    amount? k (Arg.imm value).render = some value := by
  rw [amount?, Arg.render, immediate?_number, Text.int64?_toString, Text.word?_eq_some hlow hhigh,
    Option.some_or, Option.map_some, Int64.toInt_ofInt_of_le hlow hhigh]

theorem quiet_lowerStack (hlaid : f.WellLaid target) (o : Options) :
    Passes (· = linked o.pointerAuth) (lowerStack f) (·.Inside (frameView o f) Set.univ) := by
  have hlinked : (linked o.pointerAuth).InBody (frameView o f) := by
    refine ⟨rfl, rfl, rfl, rfl, ?_, rfl, ?_⟩
    · intro r hr
      cases hr
    · intro n hn
      cases hn
  have hfresh : (linked o.pointerAuth).Fresh Set.univ := fun r _ => not_mem_nil
  have hlocal : (f.localSize : Int) < 2 ^ 32 := by
    have hsize := hlaid.size_lt
    unfold Frame.localSize
    omega
  unfold lowerStack
  split
  · refine .nil ?_
    rintro t rfl
    exact ⟨hlinked, hfresh⟩
  · split
    · refine (quiet_sub rfl (a := .imm f.localSize) trivial (Int.natCast_nonneg f.localSize)).mono ?_
        fun t ht => ht
      rintro t rfl
      exact ⟨hlinked, hfresh, show (0 : Int) ≤ 16 by decide, amount?_imm (by omega) (by omega) _⟩
    · -- too far for an immediate: the checker has to know the size that the register got
      have hfar : farSize ∉ frameRegs := by decide
      have htidy : TidyIn f Set.univ (materialize farSize f.localSize) Set.univ :=
        (materialize_tidy hfar (by omega) (by omega)).weaken (Set.subset_insert _ _)
      have hload := htidy.quiet_run
        (exists_leaves (materialize_proper (show farSize ∈ wholeRegs by decide) _))
        (P := (· = linked o.pointerAuth)) fun t ht => ht ▸ hfresh
      refine Passes.append hload ((quiet_sub (v := frameView o f) rfl (a := .reg farSize)
        (show farSize ∈ wholeRegs by decide) (Int.natCast_nonneg f.localSize)).mono ?_ fun t ht => ht)
      rintro t ⟨hfresh', t', rfl, rfl⟩
      refine ⟨hlinked.foldl_leave htidy.saved, hfresh', ?_, ?_⟩
      · rw [Tracker.depth_foldl_leave]
        exact show (0 : Int) ≤ 16 by decide
      · have himm : immediate? farSize = none := immediate?_of_mem (by decide)
        have hleaves : ∀ i ∈ materialize farSize f.localSize, ∃ p effects, i.footprint? = some p ∧
            ∀ n, dialect.Leaves effects p (i.asm n) := by
          intro i hi
          have hproper := materialize_proper (show farSize ∈ wholeRegs by decide) _ i hi
          have hfoot : ∃ q, i.footprint? = onFree farSize q := by
            cases literal_materialize _ _ i hi <;> exact ⟨_, rfl⟩
          obtain ⟨q, hq⟩ := hfoot
          rw [onFree, if_neg hfar] at hq
          exact ⟨_, _, hq, fun n => hproper.leaves hq n _⟩
        rw [amount?, Arg.render, himm, Tracker.constants_foldl_leave,
          dialect.foldl_learn Instr.asm hleaves _ 0,
          get?_materialize (by decide) (by decide) (by omega) (by omega)]
        simp [Int64.toInt_ofInt_of_le (show -2 ^ 63 ≤ (f.localSize : Int) by omega) (by omega)]

section Frame

variable (hlaid : f.WellLaid target)

include hlaid

theorem saveOffset_lt {r : Register × Nat} (hr : r ∈ f.saved.zipIdx) : f.saveOffset r.2 < 2 ^ 63 := by
  have hindex := snd_lt_of_mem_zipIdx hr
  have hsize := hlaid.size_lt
  have hfits := hlaid.fits
  unfold Frame.saveOffset
  omega

theorem saveRegs_tidy : TidyIn f Set.univ (saveRegs f) Set.univ :=
  Tidy.flatMap fun _ hr => storeAt_tidy (Set.mem_univ _) (saveOffset_lt hlaid hr) (Set.mem_univ _)
    fun _ => fst_mem_of_mem_zipIdx hr

theorem quiet_prologue (o : Options) :
    Passes (· = .start) (prologue o f) (·.Inside (frameView o f) Set.univ) :=
  ((quiet_link o).append (quiet_lowerStack hlaid o)).append
    ((saveRegs_tidy hlaid).quiet (exists_leaves fun i hi => (framed_saveRegs f i hi).proper hlaid.saved))

/-! ### Epilogues -/

theorem notMem_frameRegs_of_mem_saved {r : Register} (hr : r ∈ f.saved) : r ∉ frameRegs := by
  have hnot := (isFree_iff.1 (isFree_of_mem_calleeSaved (hlaid.saved _ hr))).2
  simp only [frameRegs, mem_cons, not_mem_nil, or_false, not_or] at hnot ⊢
  exact ⟨hnot.1, hnot.2.2⟩

theorem restoreRegs_tidy (hsp : "sp" ∈ F) : TidyIn f F (restoreRegs f) F := by
  refine Tidy.flatMap fun r hr => ?_
  have hdst := notMem_frameRegs_of_mem_saved hlaid (fst_mem_of_mem_zipIdx hr)
  exact Tidy.weaken (loadAt_tidy hsp (saveOffset_lt hlaid hr) hdst) (Set.subset_insert _ _)

theorem mem_restored {r : Register} (hr : r ∈ f.saved) :
    r ∈ ((restoreRegs f).filterMap Instr.footprint?).flatMap Footprint.restored := by
  obtain ⟨index, hindex⟩ := mem_iff_getElem?.1 hr
  have hload : (Instr.ldr r (spAddress (f.saveOffset index)).2).footprint? = some { Footprint.idle with
      restored := [r], written := [r], read := [(spAddress (f.saveOffset index)).2.base] } := by
    rw [Instr.footprint?, onFree, if_neg (notMem_frameRegs_of_mem_saved hlaid hr)]
  refine mem_flatMap.2 ⟨_, mem_filterMap.2 ⟨_, ?_, hload⟩, mem_cons_self⟩
  refine mem_flatMap.2 ⟨(r, index), mem_zipIdx_iff_getElem?.2 hindex, ?_⟩
  exact mem_append_right _ mem_cons_self

end Frame

theorem leaves_restoreFrame (n : Nat) :
    dialect.Leaves (fun _ => [.restoreFrame 0])
      { Footprint.idle with written := ["sp"], read := ["x29"] }
      ((Instr.mov "sp" (.reg "x29")).asm n) := by
  refine leaves_data (m := "mov") (by decide) ["x29"] n _ (by decide) ?_ rfl (by decide) ?_
  · exact fun _ => rfl
  · exact fun _ => rfl

theorem leaves_pop (n : Nat) :
    dialect.Leaves (fun _ => [.shrink 16])
      { Footprint.idle with
        restored := ["x29", "x30"], written := ["x29", "x30"], read := ["sp"] }
      ((Instr.ldpPop "x29" "x30" fixedArea).asm n) := by
  have heffects : ∀ k, dialect.stackEffects k ((Instr.ldpPop "x29" "x30" fixedArea).asm n) =
      [(immediate? (Arg.imm fixedArea).render).elim .unknown fun n => .shrink n.toInt] := fun _ => rfl
  have himm : immediate? (Arg.imm fixedArea).render = some 16 := by decide
  have hdst : dialect.destinations ((Instr.ldpPop "x29" "x30" fixedArea).asm n) = [0, 1] := by
    simp [dialect, destinations, Instr.asm, Instr.mnemonic, withoutDestination, isCondBranch,
      Text.afterText?]
  have hlabel : dialect.labelOperand? ((Instr.ldpPop "x29" "x30" fixedArea).asm n) = none :=
    labelOperand?_of_mem (m := "ldp") (by decide) _ n _
  have hregs : registers "x29" = ["x29"] ∧ registers "x30" = ["x30"] ∧ registers "[sp]" = ["sp"] ∧
      registers (Arg.imm fixedArea).render = [] := by decide
  have hmemory : isMemory "x29" = false ∧ isMemory "x30" = false := by decide
  refine ⟨rfl, fun k => ?_, rfl, rfl, rfl, rfl, rfl, ?_, ?_, rfl, fun _ => rfl⟩
  · rw [heffects, himm]
    rfl
  · rw [Dialect.written, hdst]
    simp [AsmInstr.operand?, Instr.asm, Instr.operands, dialect, hregs, hmemory]
  · simp only [Dialect.readRegisters, Dialect.readsAt, hdst, hlabel]
    simp [Instr.asm, Instr.operands, Instr.mnemonic, dialect, hregs, hmemory]

theorem quiet_release {o : Options} (hfp : "x29" ∈ F) :
    Passes (·.Leaving (frameView o f) F f.saved) [.mov "sp" (.reg "x29")]
      (fun t => t.Leaving (frameView o f) F f.saved ∧ t.depth = 16) := by
  refine .moves (item?_line (i := .mov "sp" (.reg "x29")) ⟨by decide, show _ ∈ _ by decide⟩)
    leaves_restoreFrame ?_
  rintro t ⟨hbody, hfresh, hrestored⟩
  have hdepth : (t.applyEffect (.restoreFrame 0)).depth = 16 := by
    rw [Tracker.applyEffect, hbody.frameDepth]
    rfl
  refine ⟨_, rfl, fun h => absurd h.2 (by rw [hdepth]; decide), hfresh.staleReads (by simpa using hfp),
    ⟨(hbody.applyEffect rfl (by simp)).note (by simp [Footprint.idle]),
      ((hfresh.applyEffect _).note _).mono Set.subset_union_left, fun r hr => ?_⟩, ?_⟩
  · simp [hrestored r hr]
  · rw [Tracker.depth_note, hdepth]

theorem quiet_pop {o : Options} (hsp : "sp" ∈ F) :
    Passes (fun t => t.Leaving (frameView o f) F f.saved ∧ t.depth = 16)
      [.ldpPop "x29" "x30" fixedArea]
      (fun t => t.Leaving (frameView o f) F ("x29" :: "x30" :: f.saved) ∧ t.depth = 0) := by
  refine .moves (item?_line (i := .ldpPop "x29" "x30" fixedArea) ⟨by decide, by decide⟩) leaves_pop ?_
  rintro t ⟨⟨hbody, hfresh, hrestored⟩, hdepth⟩
  have hzero : (t.applyEffect (.shrink 16)).depth = 0 := by
    rw [Tracker.applyEffect, hdepth]
    rfl
  refine ⟨_, rfl, fun h => absurd h.2 (by rw [hzero]; decide), hfresh.staleReads (by simpa using hsp),
    ⟨(hbody.applyEffect rfl (by simp)).note (by simp [Footprint.idle]),
      ((hfresh.applyEffect _).note _).mono Set.subset_union_left, ?_⟩, ?_⟩
  · simp only [forall_mem_cons, Tracker.restored_note, Tracker.restored_applyEffect]
    exact ⟨by simp, by simp, fun r hr => mem_append_left _ (hrestored r hr)⟩
  · rw [Tracker.depth_note, hzero]

theorem quiet_authenticate (o : Options) :
    Passes (fun t => t.Leaving (frameView o f) F ("x29" :: "x30" :: f.saved) ∧ t.depth = 0)
      (if o.pointerAuth then [.autiasp] else [])
      (fun t => t.AtReturn target (frameView o f) ∧ t.Fresh F) := by
  -- all but the authentication holds already
  have hreturn : ∀ {t : Tracker}, t.Leaving (frameView o f) F ("x29" :: "x30" :: f.saved) →
      t.depth = 0 → ∀ b, (o.pointerAuth = true → b = true) →
      { t with authenticated := b }.AtReturn target (frameView o f) := by
    rintro t ⟨hbody, -, hrestored⟩ hdepth b hb
    simp only [forall_mem_cons] at hrestored
    exact { hbody with
      authenticated := hb
      depth := hdepth
      level := fun n hn => by cases hn
      restored := hrestored.2.2
      framePointer := hrestored.1
      linkRegister := fun r hr => by cases hr; exact hrestored.2.1 }
  cases hauth : o.pointerAuth with
  | false =>
    refine .nil fun t ht => ⟨?_, ht.1.fresh⟩
    exact hreturn ht.1 ht.2 t.authenticated fun h => absurd (h.symm.trans hauth) (by simp)
  | true =>
    refine .instr (item?_line (i := .autiasp) trivial) fun t n ht => ?_
    have hsigned : t.signed = true := ht.1.body.signed.trans hauth
    rw [Tracker.pass_of_authenticates (bare_asm (by simp) n) rfl rfl rfl hsigned]
    refine ⟨Dialect.Frameless.isFrame _,
      hreturn ⟨ht.1.body.endPrologue, ht.1.fresh.endPrologue, ?_⟩ ?_ _ fun _ => rfl, ?_⟩
    · rw [Tracker.restored_endPrologue]
      exact ht.1.restored
    · rw [Tracker.depth_endPrologue, ht.2]
    · exact ht.1.fresh.endPrologue

section Frame

variable (hlaid : f.WellLaid target) (hkept : dialect.steady ⊆ F) (o : Options)

include hlaid hkept

theorem quiet_epilogue :
    Passes (·.Inside (frameView o f) F) (epilogue o f) (·.Inside (frameView o f) F) := by
  have hsp : "sp" ∈ F := hkept (mem_steady (by simp))
  have hfp : "x29" ∈ F := hkept (mem_steady (by simp))
  have hrestore : Passes (·.Inside (frameView o f) F) (restoreRegs f) _ :=
    (restoreRegs_tidy hlaid hsp).quiet_leaving (exists_leaves
      fun i hi => (framed_restoreRegs f i hi).proper hlaid.saved) fun r hr => mem_restored hlaid hr
  have hret : Passes (fun t => t.AtReturn target (frameView o f) ∧ t.Fresh F) [.ret]
      (·.Inside (frameView o f) F) := by
    refine .instr (item?_line (i := .ret) trivial) fun t n ht => ?_
    obtain ⟨hfind, hbody, hfresh⟩ := ht.1.pass (bare_asm (i := .ret) (by simp) n) rfl rfl rfl ht.2
    rw [hfind]
    exact ⟨Dialect.Frameless.isFrame _, hbody, hfresh⟩
  exact ((hrestore.append ((quiet_release hfp).append (quiet_pop hsp))).append
    (quiet_authenticate o)).append hret

/-! ### Steps -/

theorem quiet_lower {s : Step} (hproper : s.Proper target.valueRegs) (hs : s.Framed target f)
    (hlabel : ∀ name, s ≠ .label name) (hfresh : ∀ o ∈ s.reads, o.FreshIn F) :
    Passes (·.Inside (frameView o f) F) (lower o f s)
      (·.Inside (frameView o f) (s.next dialect.steady F)) := by
  -- returns move the stack pointer
  by_cases hreturn : s = .epilogue
  · subst hreturn
    exact quiet_epilogue hlaid hkept o
  · exact (lower_tidy hlaid.size_lt o hs hkept hfresh hlabel hreturn).quiet
      (exists_leaves (lower_proper (fun _ => hlaid.saved) o hproper))

end Frame

end SsaBackend.Arm64
