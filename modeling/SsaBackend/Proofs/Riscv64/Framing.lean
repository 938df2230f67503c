import SsaBackend.Proofs.Check.Restores
import SsaBackend.Proofs.Riscv64.Quiet

/-!
# Frames after tidying up on riscv64

Only copies, and stores and loads of the same word, are tidied up (`Fires`). The first save and the
first restore of a frame name the same register and the same word, and nothing else stores into that
word (`spares_lower`), so the two are tidied up only if nothing is left between them. All else of the
prologue, and every epilogue, is kept (`framing`).
-/

namespace SsaBackend.Riscv64

open Asm Check List Listing Peephole

variable {i : Instr} {f : Frame} {dst : Register}

/-! ### When rules apply -/

inductive Fires (i j : AsmInstr) : Prop
  | swapBack (hi : i.mnemonic = "mv") (hj : j.mnemonic = "mv")
  | reload (hi : i.mnemonic = "sd") (hj : j.mnemonic = "ld") (hops : i.operands = j.operands)
  | storeBack (hi : i.mnemonic = "ld") (hj : j.mnemonic = "sd")

section Fires

variable {i j : AsmInstr}

theorem fires_of_rule {rule : Rule} {r : Replacement} (hrule : rule ∈ commonRules dialect ++ [])
    (hr : rule i j = some r) : Fires i j := by
  rw [append_nil] at hrule
  obtain ⟨_, _, hi, hj⟩ | ⟨_, _, hi, hj⟩ | ⟨_, _, hi, hj⟩ := (of_common hrule hr).2
  · exact .swapBack (move?_eq_some hi).1 (move?_eq_some hj).1
  · obtain ⟨hm, hops⟩ := store?_eq_some hi
    obtain ⟨hm', hops'⟩ := load?_eq_some hj
    exact .reload hm hm' (hops.trans hops'.symm)
  · exact .storeBack (load?_eq_some hi).1 (store?_eq_some hj).1

def firing : List (String × String) := [("mv", "mv"), ("sd", "ld"), ("ld", "sd")]

theorem not_fires_of_mnemonics {ms ms' : List String}
    (hall : ∀ m ∈ ms, ∀ m' ∈ ms', (m, m') ∉ firing) (hi : i.mnemonic ∈ ms) (hj : j.mnemonic ∈ ms') :
    ¬Fires i j := by
  intro hfires
  refine hall _ hi _ hj ?_
  cases hfires with
  | swapBack hi hj | reload hi hj | storeBack hi hj =>
    rw [hi, hj]
    decide

end Fires

theorem Instr.Proper.instr?_line (h : i.Proper) : instr? dialect i.line = some (i.asm 1) := by
  have hlegible := h.legible
  rw [← toList_commentMark] at hlegible
  refine instr?_instructionText (by decide) ?_ hlegible
  rw [toList_commentMark]
  exact isOpcode_of_mem (mnemonic_mem i)

theorem apart_lines {j : Instr} (hi : i.Proper) (hj : j.Proper) (h : ¬Fires (i.asm 1) (j.asm 1)) :
    Arch.riscv64.Apart i.line j.line := apart_of_instrs hi.instr?_line fires_of_rule hj.instr?_line h

theorem chain_lines {is : List Instr} (hproper : ∀ i ∈ is, i.Proper)
    (h : ∀ i ∈ is, ∀ j ∈ is, ¬Fires (i.asm 1) (j.asm 1)) :
    (is.map Instr.line).IsChain Arch.riscv64.Apart := by
  refine List.Pairwise.isChain (pairwise_of_forall_mem_list ?_)
  simp only [forall_mem_map]
  exact fun i hi j hj => apart_lines (hproper i hi) (hproper j hj) (h i hi j hj)

/-! ### The frame -/

def plain : List String := ["li", "lui", "addi", "addiw", "slli", "add", "sub"]

theorem Literal.plain (h : Literal dst i) : i.mnemonic ∈ plain := by
  cases h with
  | add hop => rcases hop with rfl | rfl <;> simp [Instr.mnemonic, ImmOp.mnemonic, Riscv64.plain]
  | _ => simp [Instr.mnemonic, ImmOp.mnemonic, Riscv64.plain]

theorem plain_spAddress (offset : Nat) : ∀ i ∈ (spAddress offset).1, i.mnemonic ∈ plain := by
  intro i hi
  rcases literal_or_of_mem_spAddress hi with h | rfl
  · exact h.plain
  · simp [Instr.mnemonic, RegOp.mnemonic, plain]

theorem plain_adjust (dst base : Register) (delta : Int) :
    ∀ i ∈ adjust dst base delta, i.mnemonic ∈ plain := by
  unfold adjust
  split
  · exact forall_mem_singleton.2 (by simp [Instr.mnemonic, ImmOp.mnemonic, plain])
  · refine forall_mem_append.2 ⟨fun i hi => (literal_materialize _ _ i hi).plain,
      forall_mem_singleton.2 ?_⟩
    split <;> simp [Instr.mnemonic, RegOp.mnemonic, plain]

theorem plain_or_ld (dst : Register) (offset : Nat) :
    ∀ i ∈ loadSp dst offset, i.mnemonic ∈ plain ∨ ∃ a, i = .ld dst a :=
  forall_mem_append.2 ⟨fun i hi => .inl (plain_spAddress offset i hi),
    forall_mem_singleton.2 (.inr ⟨_, rfl⟩)⟩

theorem plain_or_sd (src : Register) (offset : Nat) :
    ∀ i ∈ storeSp src offset, i.mnemonic ∈ plain ∨ ∃ a, i = .sd src a :=
  forall_mem_append.2 ⟨fun i hi => .inl (plain_spAddress offset i hi),
    forall_mem_singleton.2 (.inr ⟨_, rfl⟩)⟩

theorem not_fires_of_plain (h : i.mnemonic ∈ plain) (j : AsmInstr) :
    ¬Fires (i.asm 1) j ∧ ¬Fires j (i.asm 1) := by
  have hall : ∀ m ∈ plain, m ∉ ["mv", "sd", "ld"] := by decide
  have hnot : i.mnemonic ∉ ["mv", "sd", "ld"] := hall _ h
  refine ⟨fun hfires => hnot ?_, fun hfires => hnot ?_⟩
  all_goals cases hfires <;> simp_all [Instr.asm]

def restoreRegs (f : Frame) : List Instr :=
  f.saved.zipIdx.flatMap fun r => loadSp r.1 (f.saveOffset r.2)

def takeDown (f : Frame) : List Instr :=
  loadSp "ra" (f.size - 8) ++ loadSp "s0" (f.size - 16) ++ adjust "sp" "sp" f.size

theorem epilogue_eq (f : Frame) : epilogue f = restoreRegs f ++ (takeDown f ++ [.ret]) := by
  simp only [epilogue, takeDown, restoreRegs, append_assoc]

theorem plain_or_sd_of_mem_setup (h : i ∈ setup f) :
    i.mnemonic ∈ plain ∨ ∃ src a, i = .sd src a := by
  simp only [setup, mem_append] at h
  rcases h with ((h | h) | h) | h
  · exact .inl (plain_adjust _ _ _ i h)
  · exact (plain_or_sd _ _ i h).imp_right (Exists.intro _)
  · exact (plain_or_sd _ _ i h).imp_right (Exists.intro _)
  · exact .inl (plain_adjust _ _ _ i h)

theorem plain_or_ld_of_mem_takeDown (h : i ∈ takeDown f) :
    i.mnemonic ∈ plain ∨ ∃ dst a, i = .ld dst a ∧ dst ∈ ["ra", "s0"] := by
  simp only [takeDown, mem_append] at h
  rcases h with (h | h) | h
  · exact (plain_or_ld _ _ i h).imp_right fun ⟨a, ha⟩ => ⟨_, a, ha, by simp⟩
  · exact (plain_or_ld _ _ i h).imp_right fun ⟨a, ha⟩ => ⟨_, a, ha, by simp⟩
  · exact .inl (plain_adjust _ _ _ i h)

theorem plain_or_ld_of_mem_epilogue (h : i ∈ epilogue f) :
    i.mnemonic ∈ "ret" :: plain ∨ ∃ dst a, i = .ld dst a := by
  rw [epilogue_eq, mem_append, mem_append, mem_singleton] at h
  rcases h with h | h | rfl
  · obtain ⟨r, -, h⟩ := mem_flatMap.1 h
    exact (plain_or_ld _ _ i h).imp (mem_cons_of_mem _) fun ⟨a, ha⟩ => ⟨_, a, ha⟩
  · exact (plain_or_ld_of_mem_takeDown h).imp (mem_cons_of_mem _)
      fun ⟨dst, a, ha, _⟩ => ⟨dst, a, ha⟩
  · exact .inl mem_cons_self

/-! ### What code stores -/

def Instr.Spares (f : Frame) : Instr → Prop
  | sd src a => src ≠ "ra" ∧ (f.saved ≠ [] → a ≠ ⟨"sp", f.saveOffset 0⟩)
  | _ => True

theorem spares_lower {s : Step} (hs : s.Proper target.valueRegs)
    (hargs : (s.args.length - target.argRegs.length) * 8 ≤ f.outgoingSize) (hreturn : s ≠ .epilogue) :
    ∀ i ∈ lower f s, i.Spares f := by
  intro i hi
  have hwork : ∀ r ∈ workRegs target.valueRegs, r ≠ "ra" ∧ r ≠ "sp" := by decide
  cases emitted_lower hs.regular.within hreturn i hi with
  | own h => cases h with
    | literal _ h => cases h <;> trivial
    | _ => trivial
  | @store src hsrc offset hoffset =>
    refine ⟨(hwork src hsrc).1, fun hne (heq : (spAddress offset).2 = _) => ?_⟩
    unfold spAddress at heq
    split at heq
    · exact pieces.ne_saveOffset rfl hargs hne hoffset (congrArg Address.offset heq)
    · exact absurd (congrArg Address.base heq) (show addr ≠ "sp" by decide)
  | storeAt hsrc hbase =>
    exact ⟨(hwork _ hsrc).1, fun _ heq => (hwork _ hbase).2 (congrArg Address.base heq)⟩
  | _ => trivial

/-! ### Lines of the body -/

theorem Address.eq_of_render_eq {a b : Address} (hlt : b.offset < 2 ^ 63) (h : a.render = b.render) :
    a = b := by
  have hread : a.mem? = b.mem? := by rw [← a.mem?_render, ← b.mem?_render, h]
  obtain ⟨hbase, hoffset⟩ := Text.eq_of_map_word?_eq Mem.mk (by simp) hlt hread
  cases a
  cases b
  simp_all

theorem eq_sd_of_fires_ld {a : Address} (h : Fires (i.asm 1) ((Instr.ld dst a).asm 1)) :
    ∃ a' : Address, i = .sd dst a' ∧ a'.render = a.render := by
  have hld : ((Instr.ld dst a).asm 1).mnemonic = "ld" := rfl
  cases h with
  | swapBack _ hj | storeBack _ hj => exact absurd (hld.symm.trans hj) (by decide)
  | reload hm _ hops =>
    cases i with
    | sd src a' =>
      have hops' : [src, a'.render] = [dst, a.render] := hops
      obtain ⟨rfl, htail⟩ := List.cons.inj hops'
      exact ⟨a', rfl, (List.cons.inj htail).1⟩
    | imm op => cases op <;> exact absurd hm (by simp [Instr.asm, Instr.mnemonic, ImmOp.mnemonic])
    | reg op => cases op <;> exact absurd hm (by simp [Instr.asm, Instr.mnemonic, RegOp.mnemonic])
    | _ => exact absurd hm (by simp [Instr.asm, Instr.mnemonic])

abbrev save (f : Frame) (r : Register) (k : Nat) : Instr := .sd r ⟨"sp", f.saveOffset k⟩

abbrev restore (f : Frame) (r : Register) (k : Nat) : Instr := .ld r ⟨"sp", f.saveOffset k⟩

abbrev LeadLine (f : Frame) : Line → Prop :=
  Arch.riscv64.LeadLine f.saved ((epilogue f).map Instr.line)

section Frame

variable {f : Frame} (hlaid : f.WellLaid target) (hcompact : f.Compact target)

include hlaid hcompact

omit hcompact in
theorem saveOffset_lt {k : Nat} (hk : k < f.saved.length) : f.saveOffset k < 2 ^ 63 := by
  have hsize := hlaid.size_lt
  have hfits := hlaid.fits
  unfold Frame.saveOffset
  omega

theorem spAddress_saveOffset {k : Nat} (hk : k < f.saved.length) :
    spAddress (f.saveOffset k) = ([], ⟨"sp", f.saveOffset k⟩) := by
  have hmod := hlaid.outgoing_mod
  have houtgoing : f.outgoingSize ≤ 128 := hcompact.outgoing
  have hsaved : f.saved.length ≤ 11 := hcompact.saved
  have hnear : f.saveOffset k ≤ 2047 := by
    unfold Frame.saveOffset
    omega
  have hfits : fitsImm (f.saveOffset k) = true := by
    simp only [fitsImm, Bool.and_eq_true, decide_eq_true_eq]
    omega
  rw [spAddress, if_pos hfits]

theorem saveRegs_eq :
    saveRegs f = f.saved.zipIdx.map fun r => save f r.1 r.2 := by
  rw [saveRegs, map_eq_flatMap]
  refine flatMap_congr fun r hr => ?_
  rw [storeSp, spAddress_saveOffset hlaid hcompact (snd_lt_of_mem_zipIdx hr)]
  rfl

theorem restoreRegs_eq :
    restoreRegs f = f.saved.zipIdx.map fun r => restore f r.1 r.2 := by
  rw [restoreRegs, map_eq_flatMap]
  refine flatMap_congr fun r hr => ?_
  rw [loadSp, spAddress_saveOffset hlaid hcompact (snd_lt_of_mem_zipIdx hr)]
  rfl

omit hlaid hcompact in
theorem head?_takeDown (h : i ∈ (takeDown f).head?) : i.mnemonic ∈ plain ∨ ∃ a, i = .ld "ra" a := by
  have hne : loadSp "ra" (f.size - 8) ≠ [] := by simp [loadSp]
  have hhead : (takeDown f).head? = (loadSp "ra" (f.size - 8)).head? := by
    rw [takeDown, append_assoc, head?_append_of_ne_nil _ hne]
  rw [hhead] at h
  exact plain_or_ld "ra" _ i (mem_of_head? h)

theorem head?_epilogue (h : i ∈ (epilogue f).head?) :
    i.mnemonic ∈ plain ∨ (∃ a, i = .ld "ra" a) ∨
      ∃ r rs, f.saved = r :: rs ∧ i = restore f r 0 := by
  rw [epilogue_eq, restoreRegs_eq hlaid hcompact] at h
  cases hs : f.saved with
  | nil =>
    have hne : takeDown f ≠ [] := by simp [takeDown, loadSp]
    rw [hs, zipIdx_nil, map_nil, nil_append, head?_append_of_ne_nil _ hne] at h
    exact (head?_takeDown h).imp_right .inl
  | cons r rs =>
    rw [hs] at h
    exact .inr (.inr ⟨r, rs, rfl, (Option.some.inj h).symm⟩)

theorem leadLine_line (hi : i.Proper) (hcalm : dialect.CalmLine f.saved i.line)
    (hspares : i.Spares f) :
    LeadLine f i.line := by
  refine ⟨⟨.cell hi.shaped, hcalm⟩, fun y hy => ?_⟩
  rw [head?_map] at hy
  obtain ⟨j, hj, rfl⟩ := Option.map_eq_some_iff.1 hy
  refine apart_lines hi (epilogue_proper hlaid.saved _ (mem_of_head? hj)) fun hfires => ?_
  rcases head?_epilogue hlaid hcompact hj with hplain | ⟨a, rfl⟩ | ⟨r, rs, hs, rfl⟩
  · exact (not_fires_of_plain hplain _).2 hfires
  · obtain ⟨a', rfl, -⟩ := eq_sd_of_fires_ld hfires
    exact hspares.1 rfl
  · have hlt : f.saveOffset 0 < 2 ^ 63 := saveOffset_lt hlaid (by simp [hs])
    obtain ⟨a', rfl, htext⟩ := eq_sd_of_fires_ld hfires
    exact hspares.2 (by simp [hs]) (Address.eq_of_render_eq hlt htext)

theorem leadLine_of_mem_lower {s : Step} (hproper : s.Proper target.valueRegs) (hs : s.Framed target f)
    (hargs : (s.args.length - target.argRegs.length) * 8 ≤ f.outgoingSize)
    (hlabel : ∀ name, s ≠ .label name) (hreturn : s ≠ .epilogue) :
    ∀ l ∈ (lower f s).map Instr.line,
      LeadLine f l := by
  have htidy := lower_tidy hs (Set.subset_univ _) (fun o _ => o.freshIn_univ) hlabel hreturn
  have hlower := lower_proper (fun _ => hlaid.saved) hproper
  refine forall_mem_map.2 fun i hi => ?_
  exact leadLine_line hlaid hcompact (hlower i hi) (htidy.calmLine (exists_leaves hlower) i hi)
    (spares_lower hproper hargs hreturn i hi)

/-! ### Seams -/

omit hcompact in
theorem chain_epilogue : ((epilogue f).map Instr.line).IsChain Arch.riscv64.Apart := by
  have hproper := epilogue_proper hlaid.saved
  have hmnemonic : ∀ i ∈ epilogue f, i.mnemonic ∈ "ld" :: "ret" :: plain := by
    intro i hi
    rcases plain_or_ld_of_mem_epilogue hi with h | ⟨dst, a, rfl⟩
    · exact mem_cons_of_mem _ h
    · exact mem_cons_self
  exact chain_lines hproper fun i hi j hj =>
    not_fires_of_mnemonics (by decide) (hmnemonic i hi) (hmnemonic j hj)

omit hcompact in
theorem seams :
    Seams dialect [] (Arch.riscv64.BodyLine f.saved)
      (LeadLine f) ((epilogue f).map Instr.line) where
  sub := And.left
  made _ _ _ _ hrule := by cases hrule
  ne_nil := by simp [epilogue]
  chain := chain_epilogue hlaid
  first h := h.2
  last l y hy := by
    have hret : (Instr.ret).Proper := trivial
    rw [epilogue, map_append, map_singleton, getLast?_concat] at hy
    cases hy
    refine apart_of_not_fires hret.instr?_line fires_of_rule (.inl rfl) fun j _ hfires => ?_
    cases hfires with
    | swapBack hm | reload hm | storeBack hm => exact absurd hm (by decide)

end Frame

/-! ### Saves -/

theorem window_restore {r : Register} {a : Address} (hsd : (Instr.sd r a).Proper)
    (hld : (Instr.ld r a).Proper) :
    window dialect (commonRules dialect ++ []) (Instr.sd r a).line (Instr.ld r a).line =
      [(Instr.sd r a).line] := by
  refine window_of_reload (p := (r, a.render)) hsd.instr?_line hld.instr?_line rfl ?_ ?_
  · simp [dialect, store?, Instr.asm, Instr.mnemonic, Instr.operands]
  · simp [dialect, load?, Instr.asm, Instr.mnemonic, Instr.operands]

def IsStore (line : Line) : Prop :=
  ∃ i, instr? dialect line = some i ∧ i.mnemonic = "sd"

theorem IsStore.window {x l : Line} (hx : IsStore x) :
    ∃ y ys, window dialect (commonRules dialect ++ []) x l = y :: ys ∧ IsStore y := by
  obtain ⟨i, hi, hm⟩ := hx
  obtain hw | ⟨prev, name, hprev, -, hj, -⟩ | ⟨prev, next, rule, r, hprev, hnext, hrule, hr, hw⟩ :=
    window_cases dialect (commonRules dialect ++ []) x l
  · exact ⟨x, [l], hw, i, hi, hm⟩
  · cases hi.symm.trans hprev
    rw [(jump?_eq_some hj).1] at hm
    exact absurd hm (by decide)
  · rcases mem_append.1 hrule with hcommon | hnone
    · rw [hw, (of_common hcommon hr).1]
      exact ⟨x, [], rfl, i, hi, hm⟩
    · cases hnone

theorem facts_of_calleeSaved : ∀ r ∈ target.calleeSaved,
    dialect.target.isCalleeSaved r = true ∧ r ≠ dialect.target.framePointer ∧
      some r ≠ dialect.target.linkRegister ∧ r ∉ ["ra", "s0"] := by decide

section Saves

variable {f : Frame} (hlaid : f.WellLaid target) (hcompact : f.Compact target) {r : Register}
  {rs : List Register} (hs : f.saved = r :: rs)

include hlaid hcompact hs

def otherSaves (f : Frame) (rs : List Register) : List Instr :=
  (rs.zipIdx 1).map fun r => save f r.1 r.2

theorem saveRegs_cons :
    saveRegs f = save f r 0 :: otherSaves f rs := by
  rw [saveRegs_eq hlaid hcompact, hs]
  rfl

omit hcompact in
theorem proper_save : (save f r 0).Proper ∧
    (restore f r 0).Proper := by
  have hfree := isFree_of_mem_calleeSaved (hlaid.saved r (by simp [hs]))
  refine ⟨⟨mem_of_isFree hfree, show "sp" ∈ wholeRegs by decide⟩,
    ⟨mem_of_isFree hfree, show "sp" ∈ wholeRegs by decide, (ne_of_mem_saved hlaid ?_).symm⟩⟩
  simp [hs]

theorem bodyLine_save (hi : i ∈ save f r 0 :: otherSaves f rs) :
    i.Proper ∧ Arch.riscv64.BodyLine f.saved i.line := by
  rw [← saveRegs_cons hlaid hcompact hs] at hi
  have hproper := saveRegs_proper hlaid
  exact ⟨hproper i hi, .cell (hproper i hi).shaped,
    saveRegs_tidy.calmLine (exists_leaves hproper) i hi⟩

theorem leadLine_otherSaves : ∀ l ∈ (otherSaves f rs).map Instr.line,
    LeadLine f l := by
  intro l hl
  obtain ⟨i, hi, rfl⟩ := mem_map.1 hl
  obtain ⟨hproper, -, hcalm⟩ := bodyLine_save hlaid hcompact hs (mem_cons_of_mem _ hi)
  refine leadLine_line hlaid hcompact hproper hcalm ?_
  obtain ⟨r', hr', rfl⟩ := mem_map.1 hi
  have hindex := le_snd_of_mem_zipIdx hr'
  have hmem : r'.1 ∈ f.saved := by
    rw [hs]
    exact mem_cons_of_mem _ (fst_mem_of_mem_zipIdx hr')
  refine ⟨fun hra => (facts_of_calleeSaved _ (hlaid.saved _ hmem)).2.2.2 ?_, fun _ heq => ?_⟩
  · exact hra ▸ mem_cons_self
  · have hoffset : f.saveOffset r'.2 = f.saveOffset 0 := congrArg Address.offset heq
    simp only [Frame.saveOffset] at hoffset
    omega

theorem run_saves_ne (hne : rs ≠ []) {lines : Assembly}
    (hlines : ∀ l ∈ lines, LeadLine f l) :
    run dialect [] ((save f r 0).line ::
      ((otherSaves f rs).map Instr.line ++ lines)) ≠ [(save f r 0).line] := by
  obtain ⟨r', rs', rfl⟩ := exists_cons_of_ne_nil hne
  obtain ⟨hsd, hld⟩ := proper_save hlaid hs
  have hz := bodyLine_save hlaid hcompact hs (mem_cons_of_mem _ mem_cons_self)
  have hothers := leadLine_otherSaves hlaid hcompact hs
  refine (seams hlaid).run_ne_singleton (F := IsStore) (fun hx _ => hx.window) (fun hx => ?_)
    (.inl ⟨?_, _, hz.1.instr?_line, rfl⟩) ?_
  · -- the first save is no line that may stand before a restore
    obtain ⟨-, hapart⟩ := hx
    rw [epilogue_eq, restoreRegs_eq hlaid hcompact, hs] at hapart
    exact absurd ((window_restore hsd hld).symm.trans (hapart _ rfl)) (by simp)
  · exact apart_lines hsd hz.1 (not_fires_of_mnemonics (show ∀ m ∈ ["sd"], ∀ m' ∈ ["sd"], _ by decide)
      mem_cons_self mem_cons_self)
  · exact forall_mem_append.2 ⟨fun l hl => hothers l (mem_cons_of_mem _ hl), hlines⟩

omit hcompact in
theorem owes_takeDown (hi : i ∈ takeDown f) (n : Nat) :
    ∃ a, item? dialect n i.line = some (.instr a) ∧
      ∀ t : Tracker, t.Owes r → (t.pass dialect a).1.Owes r := by
  have hr := (facts_of_calleeSaved r (hlaid.saved r (by simp [hs]))).2.2.2
  have hproper : i.Proper := epilogue_proper hlaid.saved i
    (by rw [epilogue_eq]; simp [hi])
  refine ⟨_, item?_line hproper n, fun t ht => ?_⟩
  rcases plain_or_ld_of_mem_takeDown hi with hplain | ⟨dst, a, rfl, hdst⟩
  · have hall : ∀ m ∈ plain, m ≠ "ret" ∧ m ≠ "jr" ∧ m ≠ "ld" := by decide
    obtain ⟨hret, hjr, hld⟩ := hall _ hplain
    have hreturn : dialect.isReturn (i.asm n) = false := by
      simp [dialect, isReturn, Instr.asm, hret, hjr]
    have hrestored : dialect.restored (i.asm n) = [] := by
      simp [dialect, restored, load?, Instr.asm, hld]
    exact ht.pass hreturn (by simp [hrestored])
  · have hrestored : dialect.restored ((Instr.ld dst a).asm n) = [dst] := rfl
    refine ht.pass rfl ?_
    rw [hrestored, mem_singleton]
    rintro rfl
    exact hr hdst

theorem firstSave :
    Arch.riscv64.FirstSave f.saved ((epilogue f).map Instr.line) r
      (save f r 0).line ((otherSaves f rs).map Instr.line) where
  line := (bodyLine_save hlaid hcompact hs mem_cons_self).2
  others := leadLine_otherSaves hlaid hcompact hs
  count := by simp [hs, otherSaves]
  kept hne lines hlines := by
    refine run_saves_ne hlaid hcompact hs (fun hnil => hne ?_) hlines
    rw [hnil]
    rfl
  owes n := by
    obtain ⟨hsd, -⟩ := proper_save hlaid hs
    obtain ⟨hcallee, hfp, hlink, -⟩ := facts_of_calleeSaved r (hlaid.saved r (by simp [hs]))
    have hleaves := hsd.leaves rfl n (save f r 0).render
    exact ⟨_, item?_line hsd n, fun t ht => ht.owes_pass hleaves.known hleaves.isReturn hleaves.saved
      hcallee hfp hlink hleaves.restored⟩
  lost hnone := by
    obtain rfl : rs = [] := by simpa [otherSaves] using hnone
    obtain ⟨hsd, hld⟩ := proper_save hlaid hs
    have hsplit : (epilogue f).map Instr.line = (restore f r 0).line ::
        ((takeDown f).map Instr.line ++ [Instr.ret.line]) := by
      rw [epilogue_eq, restoreRegs_eq hlaid hcompact, hs]
      simp
    have hne : (takeDown f).map Instr.line ≠ [] := by simp [takeDown, loadSp]
    refine ⟨_, _, _, hsplit, window_restore hsd hld, fun z hz => ?_, fun line hline n => ?_,
      fun n => ?_⟩
    · -- what follows the restore loads the return address, which is not the register saved
      rw [head?_append_of_ne_nil _ hne, head?_map] at hz
      obtain ⟨j, hj, rfl⟩ := Option.map_eq_some_iff.1 hz
      have hmem : j ∈ epilogue f := by
        rw [epilogue_eq]
        exact mem_append_right _ (mem_append_left _ (mem_of_head? hj))
      have hproper := epilogue_proper hlaid.saved j hmem
      refine apart_lines hsd hproper fun hfires => ?_
      rcases head?_takeDown hj with hplain | ⟨a, rfl⟩
      · exact (not_fires_of_plain hplain _).2 hfires
      · obtain ⟨a', heq, -⟩ := eq_sd_of_fires_ld hfires
        cases heq
        exact (facts_of_calleeSaved "ra" (hlaid.saved _ (by simp [hs]))).2.2.2 mem_cons_self
    · obtain ⟨i, hi, rfl⟩ := mem_map.1 hline
      exact owes_takeDown hlaid hs hi n
    · exact ⟨_, item?_line (i := .ret) trivial n, fun t ht =>
        ht.mem_pass_of_isReturn rfl rfl not_mem_nil⟩

end Saves

/-! ### Frames -/

def Opens (i : Instr) : Prop :=
  ∀ n (t : Tracker), t.Opening → (t.pass dialect (i.asm n)).1.Opening

theorem Prepares.opens {is : List Instr} (h : Prepares is) (hproper : ∀ i ∈ is, i.Proper) :
    ∀ i ∈ is, Opens i := by
  intro i hi n t ht
  obtain ⟨q, hq, hcomputes⟩ := h i hi
  have haddr : addr ∉ frameRegs ∧ addr ∈ dialect.frameScratch := by decide
  rw [onFree, if_neg haddr.1] at hq
  have hleaves := (hproper i hi).leaves hq n i.render
  have hwritten : dialect.written (i.asm n) = [addr] := hleaves.written
  refine ht.pass hleaves.isReturn (fun k => ?_) (hleaves.restored.trans hcomputes.restored)
  simp [Tracker.isFrameSetup, hwritten, haddr.2]

theorem opens_storeSp (src : Register) (offset : Nat) :
    ∀ i ∈ storeSp src offset, Opens i :=
  forall_mem_append.2 ⟨(spAddress_prepares offset).opens (spAddress_proper offset).1,
    forall_mem_singleton.2 fun _ _ ht => ht.pass rfl (fun _ => rfl) rfl⟩

theorem opens_adjust (hdst : dst ∈ frameRegs) {delta : Int} (hmin : -2 ^ 32 < delta)
    (hmax : delta < 2 ^ 32) : ∀ i ∈ adjust dst "sp" delta, Opens i := by
  unfold adjust
  split
  · refine forall_mem_singleton.2 fun n t ht => ?_
    have hleaves := leaves_near hdst hmin hmax n
    refine ht.pass hleaves.isReturn (fun k => ?_) hleaves.restored
    rw [hleaves.effects k]
    simp [Tracker.isFrameSetup]
  · refine forall_mem_append.2 ⟨(materialize_prepares _).opens (materialize_proper addr_mem _),
      forall_mem_singleton.2 fun n t ht => ?_⟩
    have hleaves : dialect.Leaves _ _
        ((Instr.reg (if delta < 0 then .sub else .add) dst "sp" addr).asm n) := leaves_far hdst n
    refine ht.pass hleaves.isReturn (fun k => ?_) hleaves.restored
    rw [hleaves.effects k]
    simp [Tracker.isFrameSetup]

theorem opens_setup (hsize : f.size < 2 ^ 32) : ∀ i ∈ setup f, Opens i := by
  simp only [setup, forall_mem_append]
  exact ⟨⟨⟨opens_adjust (by decide) (by omega) (by omega), opens_storeSp _ _⟩,
    opens_storeSp _ _⟩, opens_adjust (by decide) (by omega) (by omega)⟩

theorem chain_setup (hproper : ∀ i ∈ setup f, i.Proper) :
    ((setup f).map Instr.line).IsChain Arch.riscv64.Apart := by
  have hmnemonic : ∀ i ∈ setup f, i.mnemonic ∈ "sd" :: plain := by
    intro i hi
    rcases plain_or_sd_of_mem_setup hi with h | ⟨src, a, rfl⟩
    · exact mem_cons_of_mem _ h
    · exact mem_cons_self
  exact chain_lines hproper fun i hi j hj =>
    not_fires_of_mnemonics (by decide) (hmnemonic i hi) (hmnemonic j hj)

theorem getLast?_setup (f : Frame) (h : i ∈ (setup f).getLast?) : i.mnemonic ∈ plain := by
  have hne : adjust "s0" "sp" f.size ≠ [] := by
    unfold adjust
    split <;> simp
  rw [setup, getLast?_append_of_ne_nil _ hne] at h
  exact plain_adjust _ _ _ i (mem_of_getLast? h)

theorem framing (hlaid : f.WellLaid target) (hcompact : f.Compact target) (o : Options) :
    Arch.riscv64.Framing o f (frameView f) ((setup f).map Instr.line) ((saveRegs f).map Instr.line)
      ((epilogue f).map Instr.line) := by
  have hsize := hlaid.size_lt
  have hproper : ∀ i ∈ setup f, i.Proper := fun i hi =>
    prologue_proper hlaid.saved i (mem_append_left _ hi)
  exact
    { view := rfl
      prologue := by
        show ((prologue f).map Instr.render).map Line.instruction = _
        rw [← map_append]
        exact map_map
      epilogue := map_map
      seams := seams hlaid
      setup_ne_nil := by simp [setup, storeSp]
      setup_chain := chain_setup hproper
      setup_last := fun y hy l _ => by
        rw [getLast?_map] at hy
        obtain ⟨i, hi, rfl⟩ := Option.map_eq_some_iff.1 hy
        have hplain := getLast?_setup f hi
        refine apart_of_not_fires (hproper i (mem_of_getLast? hi)).instr?_line fires_of_rule (.inl ?_)
          fun j _ => (not_fires_of_plain hplain j).1
        have hall : ∀ m ∈ plain, m ≠ "j" := by decide
        exact Option.eq_none_iff_forall_ne_some.2 fun l hj => hall _ hplain (jump?_eq_some hj).1
      enter := quiet_setup hlaid
      opening := by
        intro line hline n
        obtain ⟨i, hi, rfl⟩ := mem_map.1 hline
        exact ⟨_, item?_line (hproper i hi) n, opens_setup hsize i hi n⟩
      leave := quiet_epilogue hlaid (Set.Subset.refl _)
      saves := by
        cases hs : f.saved with
        | nil => exact .inl ⟨by rw [saveRegs, hs]; rfl, rfl⟩
        | cons r rs =>
          refine .inr ⟨r, _, _, ?_, hs ▸ firstSave hlaid hcompact hs⟩
          rw [saveRegs_cons hlaid hcompact hs]
          rfl }

end SsaBackend.Riscv64
