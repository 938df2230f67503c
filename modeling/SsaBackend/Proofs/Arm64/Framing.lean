import SsaBackend.Proofs.Arm64.Seams

/-!
# Frames after tidying up on arm64

The first save and the first restore of a frame name the same register and the same word. Nothing else
stores into that word (`spares_lower`), so the two are tidied up only if nothing is left between them.
All else of the prologue, and every epilogue, is kept (`framing`).
-/

namespace SsaBackend.Arm64

open Asm Check List Listing Peephole

variable {i : Instr}

/-! ### What code stores -/

def Instr.Spares (f : Frame) : Instr → Prop
  | str _ a => f.saved ≠ [] → a ≠ ⟨"sp", f.saveOffset 0⟩
  | _ => True

theorem spares_lower (o : Options) {f : Frame} {s : Step} (hs : s.Proper target.valueRegs)
    (hargs : (s.args.length - target.argRegs.length) * 8 ≤ f.outgoingSize)
    (hreturn : s ≠ .epilogue) : ∀ i ∈ lower o f s, i.Spares f := by
  intro i hi
  cases emitted_lower o hs.regular.within hreturn i hi with
  | own h => cases h with
    | literal _ h => cases h <;> trivial
    | _ => trivial
  | @store src hsrc offset hoffset =>
    intro hne (heq : (spAddress offset).2 = _)
    unfold spAddress at heq
    split at heq
    · exact pieces.ne_saveOffset rfl hargs hne hoffset (congrArg Address.offset heq)
    · exact absurd (congrArg Address.base heq) (show farAddr ≠ "sp" by decide)
  | storeAt _ hbase =>
    have hwork : ∀ r ∈ workRegs target.valueRegs, r ≠ "sp" := by decide
    exact fun _ heq => hwork _ hbase (congrArg Address.base heq)
  | _ => trivial

/-! ### Lines of the body -/

theorem Address.eq_of_render_eq {a b : Address} (ha : a.base ∈ wholeRegs) (hb : b.base ∈ wholeRegs)
    (hlt : b.offset < 2 ^ 63) (h : a.render = b.render) : a = b := by
  have hread : (Text.word? a.offset).map (fun w => (a.base, Source.imm w)) =
      (Text.word? b.offset).map fun w => (b.base, Source.imm w) := by
    rw [← bracketed?_render ha, ← bracketed?_render hb, h]
  obtain ⟨hbase, hoffset⟩ := Text.eq_of_map_word?_eq (fun r w => (r, Source.imm w)) (by simp) hlt hread
  cases a
  cases b
  simp_all

section Made

variable {i j : AsmInstr} {m : String} {ops : List String} {regs : List Register}

theorem ne_sp_of_calm (h : dialect.Calm regs i) {dst : String} {rest : List String}
    (hm : i.mnemonic = "mul") (hops : i.operands = dst :: rest) : dst ≠ "sp" := by
  rintro rfl
  have heffects : stackEffects [] i = [] := h.effects []
  simp [stackEffects, hm, hops, otherEffects, destinations, withoutDestination, isCondBranch,
    Text.afterText?] at heffects

theorem otherEffects_of_none (h : destinations i = []) : otherEffects i = [] := by
  simp [otherEffects, h]

theorem otherEffects_of_ne {m : String} {dst : String} {rest : List String} (h : dst ≠ "sp") (n : Nat)
    (text : String) : otherEffects ⟨m, dst :: rest, n, text⟩ = [] := by
  simp [otherEffects, h]

theorem Made.calm (h : Made i j m ops) (hi : dialect.Calm regs i) (hj : dialect.Calm regs j) (n : Nat)
    (text : String) : dialect.Calm regs ⟨m, ops, n, text⟩ := by
  cases h with
  | lsl hm hops _ _ k =>
    have hdst := ne_sp_of_calm hj hm hops
    exact ⟨rfl, fun _ => otherEffects_of_ne hdst n text, rfl, rfl, rfl, fun r hr => by cases hr⟩
  | madd hm hops =>
    have hdst := ne_sp_of_calm hi hm hops
    exact ⟨rfl, fun _ => otherEffects_of_ne hdst n text, rfl, rfl, rfl, fun r hr => by cases hr⟩
  | @tst reg _ hm hops hreg =>
    have heffects : otherEffects ⟨"tst", [reg, reg], n, text⟩ = [] := otherEffects_of_none rfl
    exact ⟨rfl, fun _ => heffects, rfl, rfl, rfl, fun r hr => by cases hr⟩
  | @stp low high address' a him hiops hjm hjops =>
    have hmark : Text.endsWith '!' a.render = false := by
      simp [Text.endsWith, a.toList_render, getLast?_cons]
    have hlow : dialect.saved i = [low] := by simp [dialect, saved, him, hiops]
    have hhigh : dialect.saved j = [high] := by simp [dialect, saved, hjm, hjops]
    refine ⟨rfl, fun _ => ?_, rfl, rfl, rfl, ?_⟩
    · simp [dialect, stackEffects, storeEffects, hmark]
    · show ∀ r ∈ [low, high], _
      simp only [forall_mem_cons]
      exact ⟨hi.saved low (by simp [hlow]), hj.saved high (by simp [hhigh]), by simp⟩

theorem Made.leadLine (h : Made i j m ops) {first second : Line}
    (hfirst : Arch.arm64.BodyLine regs first) (hsecond : Arch.arm64.BodyLine regs second)
    (hi : instr? dialect first = some i) (hj : instr? dialect second = some j) (stretch : Assembly) :
    Arch.arm64.LeadLine regs stretch (.instruction (Assembly.instructionText m ops)) := by
  have hcalm := h.calm (hfirst.2.of_instr? hi) (hsecond.2.of_instr? hj)
  have hm : m ∉ "mov" :: "cmp" :: firing.map Prod.fst := by cases h <;> decide
  refine ⟨⟨.cell h.shaped, .of_item? h.item?_line fun n => hcalm n _⟩, fun y hy => ?_⟩
  refine apart_of_not_fires (instr?_line h.mnemonic_mem h.legible) fires_of_rule (.inl ?_) fun _ _ =>
    not_fires_of_first hm
  cases h <;> rfl

end Made

abbrev save (f : Frame) (r : Register) (k : Nat) : Instr := .str r ⟨"sp", f.saveOffset k⟩

abbrev restore (f : Frame) (r : Register) (k : Nat) : Instr := .ldr r ⟨"sp", f.saveOffset k⟩

abbrev LeadLine (o : Options) (f : Frame) : Line → Prop :=
  Arch.arm64.LeadLine f.saved ((epilogue o f).map Instr.line)

section Frame

variable {f : Frame} (hlaid : f.WellLaid target) (hcompact : f.Compact target)

include hlaid hcompact

theorem spAddress_saveOffset {k : Nat} (hk : k < f.saved.length) :
    spAddress (f.saveOffset k) = ([], ⟨"sp", f.saveOffset k⟩) := by
  have hmod := hlaid.outgoing_mod
  have houtgoing : f.outgoingSize ≤ 128 := hcompact.outgoing
  have hsaved : f.saved.length ≤ 10 := hcompact.saved
  rw [spAddress, if_pos]
  simp only [Frame.saveOffset, maxOffset]
  omega

theorem saveRegs_eq :
    saveRegs f = f.saved.zipIdx.map fun r => save f r.1 r.2 := by
  rw [saveRegs, map_eq_flatMap]
  refine flatMap_congr fun r hr => ?_
  rw [spAddress_saveOffset hlaid hcompact (snd_lt_of_mem_zipIdx hr)]
  rfl

theorem restoreRegs_eq :
    restoreRegs f = f.saved.zipIdx.map fun r => restore f r.1 r.2 := by
  rw [restoreRegs, map_eq_flatMap]
  refine flatMap_congr fun r hr => ?_
  rw [spAddress_saveOffset hlaid hcompact (snd_lt_of_mem_zipIdx hr)]
  rfl

theorem isLeave_of_mem {o : Options} (h : i ∈ epilogue o f) : IsLeave i := by
  rw [epilogue, restoreRegs_eq hlaid hcompact] at h
  simp only [mem_append, mem_map, mem_cons, not_mem_nil, or_false] at h
  rcases h with ((⟨r, -, rfl⟩ | rfl | rfl) | h) | rfl
  · exact .ldr _ _
  · exact .release
  · exact .pop
  · split at h
    · exact mem_singleton.1 h ▸ .autiasp
    · cases h
  · exact .ret

theorem head?_epilogue (o : Options) :
    (epilogue o f).head? = some (match f.saved with
      | [] => .mov "sp" (.reg "x29")
      | r :: _ => restore f r 0) := by
  rw [epilogue, restoreRegs_eq hlaid hcompact]
  cases f.saved with
  | nil => rfl
  | cons r rs => rfl

theorem leadLine_line (o : Options) (hi : i.Proper) (hcalm : dialect.CalmLine f.saved i.line)
    (hspares : i.Spares f) :
    LeadLine o f i.line := by
  refine ⟨⟨.cell hi.shaped, hcalm⟩, fun y hy => ?_⟩
  have hhead := head?_epilogue hlaid hcompact o
  rw [head?_map, hhead] at hy
  obtain rfl := Option.some.inj hy
  refine apart_lines hi (epilogue_proper hlaid.saved o _ (mem_of_head? hhead)) fun hfires => ?_
  cases hs : f.saved with
  | nil =>
    rw [hs] at hfires
    exact not_fires_release _ hfires
  | cons r rs =>
    -- only a store of the same register to the same word would be tidied up with the restore
    rw [hs] at hfires
    obtain ⟨hm, hops⟩ := operands_of_fires_ldr hfires
    cases i with
    | str src a =>
      have hlt : f.saveOffset 0 < 2 ^ 63 := saveOffset_lt hlaid (r := (r, 0)) (by simp [hs])
      have htext : a.render = (⟨"sp", f.saveOffset 0⟩ : Address).render := by
        have hops' : [src, a.render] = [r, (⟨"sp", f.saveOffset 0⟩ : Address).render] := hops
        simpa using (List.cons.inj hops').2
      exact hspares (by simp [hs]) (Address.eq_of_render_eq hi.2 (show "sp" ∈ _ by decide) hlt htext)
    | alu op => cases op <;> exact absurd hm (by simp [Instr.asm, Instr.mnemonic, Alu.mnemonic])
    | _ => exact absurd hm (by simp [Instr.asm, Instr.mnemonic])

theorem leadLine_of_mem_lower (o : Options) {s : Step} (hproper : s.Proper target.valueRegs)
    (hs : s.Framed target f) (hargs : (s.args.length - target.argRegs.length) * 8 ≤ f.outgoingSize)
    (hlabel : ∀ name, s ≠ .label name) (hreturn : s ≠ .epilogue) :
    ∀ l ∈ (lower o f s).map Instr.line,
      LeadLine o f l := by
  have htidy := lower_tidy hlaid.size_lt o hs (Set.subset_univ _) (fun o _ => o.freshIn_univ) hlabel
    hreturn
  have hlower := lower_proper (fun _ => hlaid.saved) o hproper
  refine forall_mem_map.2 fun i hi => ?_
  exact leadLine_line hlaid hcompact o (hlower i hi) (htidy.calmLine (exists_leaves hlower) i hi)
    (spares_lower o hproper hargs hreturn i hi)

/-! ### Seams -/

theorem seams (o : Options) :
    Seams dialect rules (Arch.arm64.BodyLine f.saved)
      (LeadLine o f) ((epilogue o f).map Instr.line) where
  sub := And.left
  made hfirst hsecond hprev hnext hrule hr l hl := by
    obtain ⟨m, ops, rfl, hmade⟩ := exists_made hfirst.1 hsecond.1 hprev hnext hrule hr hl
    exact hmade.leadLine hfirst hsecond hprev hnext _
  ne_nil := by simp [epilogue]
  chain := chain_lines (epilogue_proper hlaid.saved o)
    fun i hi j hj => (isLeave_of_mem hlaid hcompact hi).not_fires (isLeave_of_mem hlaid hcompact hj)
  first h := h.2
  last l y hy := by
    have hret : (Instr.ret).Proper := trivial
    rw [epilogue, map_append, map_singleton, getLast?_concat] at hy
    cases hy
    exact apart_of_not_fires hret.instr?_line fires_of_rule (.inl rfl) fun _ _ =>
      not_fires_of_first (by decide)

end Frame

/-! ### Saves -/

def takeDown (o : Options) : List Instr :=
  [.mov "sp" (.reg "x29"), .ldpPop "x29" "x30" fixedArea] ++
    if o.pointerAuth then [.autiasp] else []

theorem epilogue_eq (o : Options) (f : Frame) :
    epilogue o f = restoreRegs f ++ (takeDown o ++ [.ret]) := by
  simp only [epilogue, takeDown, append_assoc]

theorem window_restore {r : Register} {a : Address} (hstr : (Instr.str r a).Proper)
    (hldr : (Instr.ldr r a).Proper) :
    window dialect (commonRules dialect ++ rules) (Instr.str r a).line (Instr.ldr r a).line =
      [(Instr.str r a).line] := by
  have hmark : Text.endsWith '!' a.render = false := by
    simp [Text.endsWith, a.toList_render, getLast?_cons]
  refine window_of_reload (p := (r, a.render)) hstr.instr?_line hldr.instr?_line rfl ?_ ?_
  · simp [dialect, store?, Instr.asm, Instr.mnemonic, Instr.operands, hmark]
  · simp [dialect, load?, Instr.asm, Instr.mnemonic, Instr.operands, hmark]

def IsStore (line : Line) : Prop :=
  Arch.arm64.ShapedLine line ∧ ∃ i, instr? dialect line = some i ∧ i.mnemonic ∈ ["str", "stp"]

theorem eq_pairStores_of_store {i j : AsmInstr} (hm : i.mnemonic ∈ ["str", "stp"]) {rule : Rule}
    (hrule : rule ∈ rules) {r : Replacement} (hr : rule i j = some r) : rule = pairStores := by
  simp only [rules, mem_cons, not_mem_nil, or_false] at hrule
  rcases hrule with rfl | rfl | rfl | rfl | rfl
  · obtain ⟨op, _, hop, _, _, _, him, -⟩ := cancelAddSub_eq_some hr
    rw [him] at hm
    rcases hop with ⟨rfl, -⟩ | ⟨rfl, -⟩ <;> exact absurd hm (by decide)
  · obtain ⟨_, _, _, _, _, _, _, _, him, -⟩ := mulToShift_eq_some hr
    rw [him] at hm
    exact absurd hm (by decide)
  · rfl
  · obtain ⟨_, _, him, -⟩ := cmpZeroToTst_eq_some hr
    rw [him] at hm
    exact absurd hm (by decide)
  · obtain ⟨_, _, _, _, _, _, him, -⟩ := fuseMadd_eq_some hr
    rw [him] at hm
    exact absurd hm (by decide)

theorem IsStore.window {x l : Line} (hx : IsStore x) (hl : Arch.arm64.ShapedLine l) :
    ∃ y ys, window dialect (commonRules dialect ++ rules) x l = y :: ys ∧ IsStore y := by
  obtain ⟨hshaped, i, hi, hm⟩ := hx
  obtain hw | ⟨prev, name, hprev, -, hj, -⟩ | ⟨prev, next, rule, r, hprev, hnext, hrule, hr, hw⟩ :=
    window_cases dialect (commonRules dialect ++ rules) x l
  · exact ⟨x, [l], hw, hshaped, i, hi, hm⟩
  · cases hi.symm.trans hprev
    rw [(jump?_eq_some hj).1] at hm
    exact absurd hm (by decide)
  · cases hi.symm.trans hprev
    rcases mem_append.1 hrule with hcommon | hrule
    · rw [hw, (of_common hcommon hr).1]
      exact ⟨x, [], rfl, hshaped, i, hi, hm⟩
    · obtain rfl := eq_pairStores_of_store hm hrule hr
      obtain ⟨low, high, address, address', -, -, him, hiops, hjm, hjops, -, -, rfl⟩ :=
        pairStores_eq_some hr
      have hi' : Shape i.mnemonic i.operands := (exists_of_instr? (by decide) hshaped hi).2.shape
      have hj' : Shape next.mnemonic next.operands := (exists_of_instr? (by decide) hl hnext).2.shape
      rw [him, hiops] at hi'
      rw [hjm, hjops] at hj'
      simp only [Shape] at hi' hj'
      obtain ⟨hlow, a, rfl, hbase⟩ := hi'
      have hmade : Made i next "stp" [low, high, a.render] := .stp him hiops hjm hjops hlow hj'.1 hbase
      exact ⟨_, [], hw, .cell hmade.shaped, _, instr?_line hmade.mnemonic_mem hmade.legible, by simp⟩

theorem window_stores {regs : List Register} {src src' : Register} {a a' : Address}
    (h : (Instr.str src a).Proper) (h' : (Instr.str src' a').Proper)
    (hx : Arch.arm64.BodyLine regs (Instr.str src a).line)
    (hz : Arch.arm64.BodyLine regs (Instr.str src' a').line) (stretch : Assembly) :
    window dialect (commonRules dialect ++ rules) (Instr.str src a).line (Instr.str src' a').line =
        [(Instr.str src a).line, (Instr.str src' a').line] ∨
      ∃ m, window dialect (commonRules dialect ++ rules) (Instr.str src a).line
        (Instr.str src' a').line = [m] ∧ Arch.arm64.LeadLine regs stretch m := by
  obtain hw | ⟨_, name, -, hname, -⟩ | ⟨prev, next, rule, r, hprev, hnext, hrule, hr, hw⟩ :=
    window_cases dialect (commonRules dialect ++ rules) (Instr.str src a).line (Instr.str src' a').line
  · exact .inl hw
  · cases hname
  · cases h.instr?_line.symm.trans hprev
    cases h'.instr?_line.symm.trans hnext
    rcases mem_append.1 hrule with hcommon | hrule
    · obtain ⟨_, _, hcopy, -⟩ | ⟨_, _, -, hload⟩ | ⟨_, _, hload, -⟩ := (of_common hcommon hr).2
      · cases hcopy
      · cases hload
      · cases hload
    · obtain rfl := eq_pairStores_of_store mem_cons_self hrule hr
      obtain ⟨m, ops, rfl, hmade⟩ := made_of_pairStores h.shape h'.shape hr
      exact .inr ⟨_, hw, hmade.leadLine hx hz hprev hnext stretch⟩

theorem facts_of_calleeSaved : ∀ r ∈ target.calleeSaved,
    dialect.target.isCalleeSaved r = true ∧ r ≠ dialect.target.framePointer ∧
      some r ≠ dialect.target.linkRegister ∧ r ∉ ["x29", "x30"] := by decide

section Saves

variable {f : Frame} (hlaid : f.WellLaid target) (hcompact : f.Compact target) {r : Register}
  {rs : List Register} (hs : f.saved = r :: rs)

include hlaid hcompact hs

def otherSaves (f : Frame) (rs : List Register) : List Instr :=
  (rs.zipIdx 1).map fun r => save f r.1 r.2

theorem saveRegs_cons :
    saveRegs f = save f r 0 :: otherSaves f rs := by
  rw [saveRegs_eq hlaid hcompact, hs]
  rfl

omit hcompact in
theorem proper_save : (save f r 0).Proper ∧
    (restore f r 0).Proper := by
  have hfree := isFree_of_mem_calleeSaved (hlaid.saved r (by simp [hs]))
  exact ⟨⟨mem_of_isFree hfree, show "sp" ∈ wholeRegs by decide⟩,
    ldr_proper hfree (show "sp" ∈ _ by decide)⟩

theorem bodyLine_save (hi : i ∈ save f r 0 :: otherSaves f rs) :
    i.Proper ∧ Arch.arm64.BodyLine f.saved i.line := by
  rw [← saveRegs_cons hlaid hcompact hs] at hi
  have hproper := fun i hi => (framed_saveRegs f i hi).proper hlaid.saved
  exact ⟨hproper i hi, .cell (hproper i hi).shaped,
    (saveRegs_tidy hlaid).calmLine (exists_leaves hproper) i hi⟩

theorem leadLine_otherSaves (o : Options) : ∀ l ∈ (otherSaves f rs).map Instr.line,
    LeadLine o f l := by
  intro l hl
  obtain ⟨i, hi, rfl⟩ := mem_map.1 hl
  obtain ⟨hproper, -, hcalm⟩ := bodyLine_save hlaid hcompact hs (mem_cons_of_mem _ hi)
  refine leadLine_line hlaid hcompact o hproper hcalm ?_
  obtain ⟨r', hr', rfl⟩ := mem_map.1 hi
  have hindex := le_snd_of_mem_zipIdx hr'
  intro _ heq
  have hoffset : f.saveOffset r'.2 = f.saveOffset 0 := congrArg Address.offset heq
  simp only [Frame.saveOffset] at hoffset
  omega

theorem run_saves_ne (o : Options) (hne : rs ≠ []) {lines : Assembly}
    (hlines : ∀ l ∈ lines, LeadLine o f l) :
    run dialect rules ((save f r 0).line ::
      ((otherSaves f rs).map Instr.line ++ lines)) ≠ [(save f r 0).line] := by
  obtain ⟨r', rs', rfl⟩ := exists_cons_of_ne_nil hne
  obtain ⟨hstr, hldr⟩ := proper_save hlaid hs
  have hx := bodyLine_save hlaid hcompact hs mem_cons_self
  have hz := bodyLine_save hlaid hcompact hs (mem_cons_of_mem _ mem_cons_self)
  have hothers := leadLine_otherSaves hlaid hcompact hs o
  refine (seams hlaid hcompact o).run_ne_singleton (F := IsStore)
    (fun hx hl => hx.window hl.1.1) (fun hx => ?_) ?_ ?_
  · -- the first save is no line that may stand before a restore
    have hapart := hx.2 _ (by rw [head?_map, head?_epilogue hlaid hcompact, hs]; rfl)
    exact absurd ((window_restore hstr hldr).symm.trans hapart) (by simp)
  · -- the second save is kept, or merged with the first
    refine (window_stores hstr hz.1 hx.2 hz.2 _).imp_left fun hw => ⟨hw, ?_⟩
    exact ⟨.cell hz.1.shaped, _, hz.1.instr?_line, mem_cons_self⟩
  · exact forall_mem_append.2 ⟨fun l hl => hothers l (mem_cons_of_mem _ hl), hlines⟩

omit hcompact in
theorem owes_takeDown {o : Options} (hi : i ∈ takeDown o) (n : Nat) :
    ∃ a, item? dialect n i.line = some (.instr a) ∧
      ∀ t : Tracker, t.Owes r → (t.pass dialect a).1.Owes r := by
  have hr := (facts_of_calleeSaved r (hlaid.saved r (by simp [hs]))).2.2.2
  have hproper : i.Proper := epilogue_proper hlaid.saved o i
    (by rw [epilogue_eq]; simp [hi])
  refine ⟨_, item?_line hproper n, fun t ht => ?_⟩
  simp only [takeDown, mem_append, mem_cons, not_mem_nil, or_false] at hi
  rcases hi with (rfl | rfl) | hi
  · exact ht.pass rfl not_mem_nil
  · exact ht.pass rfl hr
  · split at hi
    · obtain rfl := mem_singleton.1 hi
      exact ht.pass rfl not_mem_nil
    · cases hi

theorem firstSave (o : Options) :
    Arch.arm64.FirstSave f.saved ((epilogue o f).map Instr.line) r
      (save f r 0).line ((otherSaves f rs).map Instr.line) where
  line := (bodyLine_save hlaid hcompact hs mem_cons_self).2
  others := leadLine_otherSaves hlaid hcompact hs o
  count := by simp [hs, otherSaves]
  kept hne lines hlines := by
    refine run_saves_ne hlaid hcompact hs o (fun hnil => hne ?_) hlines
    rw [hnil]
    rfl
  owes n := by
    obtain ⟨hstr, -⟩ := proper_save hlaid hs
    obtain ⟨hcallee, hfp, hlink, -⟩ := facts_of_calleeSaved r (hlaid.saved r (by simp [hs]))
    have hleaves := hstr.leaves rfl n (save f r 0).render
    exact ⟨_, item?_line hstr n, fun t ht => ht.owes_pass hleaves.known hleaves.isReturn hleaves.saved
      hcallee hfp hlink hleaves.restored⟩
  lost hnone := by
    obtain rfl : rs = [] := by simpa [otherSaves] using hnone
    obtain ⟨hstr, hldr⟩ := proper_save hlaid hs
    have hsplit : (epilogue o f).map Instr.line = (restore f r 0).line ::
        ((takeDown o).map Instr.line ++ [Instr.ret.line]) := by
      rw [epilogue_eq, restoreRegs_eq hlaid hcompact, hs]
      simp
    refine ⟨_, _, _, hsplit, window_restore hstr hldr, ?_, fun line hline n => ?_, fun n => ?_⟩
    · rintro z ⟨⟩
      exact apart_lines hstr ⟨by decide, show "x29" ∈ wholeRegs by decide⟩ (not_fires_release _)
    · obtain ⟨i, hi, rfl⟩ := mem_map.1 hline
      exact owes_takeDown hlaid hs hi n
    · exact ⟨_, item?_line (i := .ret) trivial n, fun t ht =>
        ht.mem_pass_of_isReturn rfl rfl not_mem_nil⟩

end Saves

/-! ### Frames -/

theorem IsSetup.opening (h : IsSetup i) (hproper : i.Proper) (n : Nat) {t : Tracker}
    (ht : t.Opening) : (t.pass dialect (i.asm n)).1.Opening := by
  -- an instruction with nothing but scratch registers of the frame to write belongs to the prologue
  have hscratch : ∀ {p : Footprint}, i.footprint? = some p → p.written = [farSize] →
      p.restored = [] → (t.pass dialect (i.asm n)).1.Opening := by
    intro p hp hwritten hrestored
    have hleaves := hproper.leaves hp n i.render
    have hframe : farSize ∈ dialect.frameScratch := by decide
    have hwritten' : dialect.written (i.asm n) = [farSize] := hleaves.written.trans hwritten
    refine ht.pass hleaves.isReturn (fun k => ?_) (hleaves.restored.trans hrestored)
    simp [Tracker.isFrameSetup, hwritten', hframe]
  cases h with
  | paciasp => exact ht.pass rfl (fun _ => rfl) rfl
  | push => exact ht.pass rfl (fun _ => rfl) rfl
  | setFrame => exact ht.pass rfl (fun _ => rfl) rfl
  | sub a => exact ht.pass rfl (fun _ => rfl) rfl
  | mov value => exact hscratch rfl rfl rfl
  | movz chunk shift => exact hscratch rfl rfl rfl
  | movk chunk shift => exact hscratch rfl rfl rfl

theorem apart_last_setup {f : Frame} (hlaid : f.WellLaid target) (hcompact : f.Compact target)
    (o : Options) {y l : Line} (hy : y ∈ ((setup o f).map Instr.line).getLast?)
    (hl : Arch.arm64.BodyLine f.saved l ∨ l ∈ (epilogue o f).map Instr.line) :
    Arch.arm64.Apart y l := by
  rw [getLast?_map] at hy
  obtain ⟨i, hi, rfl⟩ := Option.map_eq_some_iff.1 hy
  have hmem := mem_of_getLast? hi
  have hread := (prologue_proper hlaid.saved o i (mem_append_left _ hmem)).instr?_line
  refine apart_of_not_fires hread fires_of_rule (.inl ?_) fun next hnext => ?_
  · cases isSetup_of_mem hmem <;> rfl
  · rcases hl with hl | hl
    · rcases getLast?_setup o f with hlast | ⟨a, hlast⟩
      · cases hlast.symm.trans hi
        exact not_fires_setFrame next
      · cases hlast.symm.trans hi
        exact not_fires_sub (hl.2.of_instr? hnext)
    · obtain ⟨j, hj, rfl⟩ := mem_map.1 hl
      cases (epilogue_proper hlaid.saved o j hj).instr?_line.symm.trans hnext
      exact not_fires_of_mnemonics (by decide) (isSetup_of_mem hmem).facts.1
        (isLeave_of_mem hlaid hcompact hj).facts.1 (.inl (isSetup_of_mem hmem).facts.2)

theorem framing {f : Frame} (hlaid : f.WellLaid target) (hcompact : f.Compact target)
    (o : Options) :
    Arch.arm64.Framing o f (frameView o f) ((setup o f).map Instr.line) ((saveRegs f).map Instr.line)
      ((epilogue o f).map Instr.line) := by
  have hproper : ∀ i ∈ setup o f, i.Proper := fun i hi =>
    prologue_proper hlaid.saved o i (mem_append_left _ hi)
  have hleave := epilogue_proper hlaid.saved o
  exact
    { view := rfl
      prologue := by
        show ((prologue o f).map Instr.render).map Line.instruction = _
        rw [← map_append]
        exact map_map
      epilogue := map_map
      seams := seams hlaid hcompact o
      setup_ne_nil := by simp [setup]
      setup_chain := chain_lines hproper fun i hi j hj =>
        (isSetup_of_mem hi).not_fires (isSetup_of_mem hj)
      setup_last := fun y hy l hl => apart_last_setup hlaid hcompact o hy hl
      enter := (quiet_link o).append (quiet_lowerStack hlaid o)
      opening := by
        intro line hline n
        obtain ⟨i, hi, rfl⟩ := mem_map.1 hline
        exact ⟨_, item?_line (hproper i hi) n, fun t ht =>
          (isSetup_of_mem hi).opening (hproper i hi) n ht⟩
      leave := quiet_epilogue hlaid (Set.Subset.refl _) o
      saves := by
        cases hs : f.saved with
        | nil => exact .inl ⟨by rw [saveRegs, hs]; rfl, rfl⟩
        | cons r rs =>
          refine .inr ⟨r, _, _, ?_, hs ▸ firstSave hlaid hcompact hs o⟩
          rw [saveRegs_cons hlaid hcompact hs]
          rfl }

end SsaBackend.Arm64
