import SsaBackend.Proofs.Arm64.Quiet
import SsaBackend.Proofs.Arm64.Peephole
import SsaBackend.Proofs.Check.Restores

/-!
# Where tidying up stops on arm64

Few pairs of instructions are tidied up at all (`Fires`). No two of them are in the setup of a frame,
nor among the instructions that leave it, and the stack pointer is in none of them.
-/

namespace SsaBackend.Arm64

open Asm Check List Listing Peephole

variable {i : Instr}

/-! ### When rules apply -/

def IsCopy (i : AsmInstr) : Prop :=
  i.mnemonic = "mov" ∧ ∃ dst src, i.operands = [dst, src] ∧ isImmediate src = false ∧ dst ≠ "sp" ∧
    src ≠ "sp"

inductive Fires (i j : AsmInstr) : Prop
  | swapBack (hi : IsCopy i) (hj : IsCopy j)
  | reload (hi : i.mnemonic = "str") (hj : j.mnemonic = "ldr") (hops : i.operands = j.operands)
  | storeBack (hi : i.mnemonic = "ldr") (hj : j.mnemonic = "str")
  | cancel (hm : i.mnemonic = "add" ∧ j.mnemonic = "sub" ∨ i.mnemonic = "sub" ∧ j.mnemonic = "add")
      {dst amount : String} (hi : i.operands = [dst, dst, amount])
      (hj : j.operands = [dst, dst, amount])
  | shift (hi : i.mnemonic = "mov") {dst value : String} (hops : i.operands = [dst, value])
      (hvalue : immediate? value ≠ none) (hj : j.mnemonic = "mul")
  | pair (hi : i.mnemonic = "str") (hj : j.mnemonic = "str")
  | test (hi : i.mnemonic = "cmp") (hj : condition? j ≠ none)
  | fuse (hi : i.mnemonic = "mul") (hj : j.mnemonic = "add")

section Fires

variable {i j : AsmInstr}

theorem condition?_of_cmpZeroToTst {r : Replacement} (h : cmpZeroToTst i j = some r) :
    condition? j ≠ none := by
  intro hnone
  simp only [cmpZeroToTst, Option.bind_eq_bind, Option.bind_eq_some_iff] at h
  obtain ⟨ops, -, h⟩ := h
  split at h
  · rw [hnone] at h
    cases h
  · cases h

theorem fires_of_rule {rule : Rule} {r : Replacement} (hrule : rule ∈ commonRules dialect ++ rules)
    (hr : rule i j = some r) : Fires i j := by
  rcases mem_append.1 hrule with hrule | hrule
  · obtain ⟨_, _, hi, hj⟩ | ⟨_, _, hi, hj⟩ | ⟨_, _, hi, hj⟩ := (of_common hrule hr).2
    · exact .swapBack ((move?_eq_some hi).imp_right fun h => ⟨_, _, h⟩)
        ((move?_eq_some hj).imp_right fun h => ⟨_, _, h⟩)
    · obtain ⟨hm, hops, -⟩ := store?_eq_some hi
      obtain ⟨hm', hops', -⟩ := load?_eq_some hj
      exact .reload hm hm' (hops.trans hops'.symm)
    · exact .storeBack (load?_eq_some hi).1 (store?_eq_some hj).1
  · simp only [rules, mem_cons, not_mem_nil, or_false] at hrule
    rcases hrule with rfl | rfl | rfl | rfl | rfl
    · obtain ⟨op, op', hop, dst, amount, w, him, hiops, hjm, hjops, -, -⟩ := cancelAddSub_eq_some hr
      refine .cancel ?_ hiops hjops
      rcases hop with ⟨rfl, rfl⟩ | ⟨rfl, rfl⟩
      · exact .inl ⟨him, hjm⟩
      · exact .inr ⟨him, hjm⟩
    · obtain ⟨_, _, _, _, _, _, _, _, him, hiops, hjm, -, hvalue, -⟩ := mulToShift_eq_some hr
      exact .shift him hiops (by simp [hvalue]) hjm
    · obtain ⟨_, _, _, _, _, _, him, -, hjm, -⟩ := pairStores_eq_some hr
      exact .pair him hjm
    · obtain ⟨_, _, him, -⟩ := cmpZeroToTst_eq_some hr
      exact .test him (condition?_of_cmpZeroToTst hr)
    · obtain ⟨_, _, _, _, _, _, him, -, hjm, -⟩ := fuseMadd_eq_some hr
      exact .fuse him hjm

def firing : List (String × String) :=
  [("str", "ldr"), ("ldr", "str"), ("add", "sub"), ("sub", "add"), ("mov", "mul"), ("str", "str"),
    ("mul", "add")]

theorem Fires.mnemonics (h : Fires i j) :
    IsCopy i ∧ IsCopy j ∨ i.mnemonic = "cmp" ∨ (i.mnemonic, j.mnemonic) ∈ firing := by
  cases h with
  | swapBack hi hj => exact .inl ⟨hi, hj⟩
  | test hi _ => exact .inr (.inl hi)
  | cancel hm =>
    refine .inr (.inr ?_)
    rcases hm with ⟨hi, hj⟩ | ⟨hi, hj⟩ <;> rw [hi, hj] <;> decide
  | reload hi hj | storeBack hi hj | pair hi hj | fuse hi hj =>
    refine .inr (.inr ?_)
    rw [hi, hj]
    decide
  | shift hi _ _ hj =>
    refine .inr (.inr ?_)
    rw [hi, hj]
    decide

theorem not_fires_of_mnemonics {ms ms' : List String}
    (hall : ∀ m ∈ ms, m ≠ "cmp" ∧ ∀ m' ∈ ms', (m, m') ∉ firing) (hi : i.mnemonic ∈ ms)
    (hj : j.mnemonic ∈ ms') (hcopy : ¬IsCopy i ∨ ¬IsCopy j) : ¬Fires i j := by
  intro hfires
  rcases hfires.mnemonics with ⟨hicopy, hjcopy⟩ | hcmp | hpair
  · exact hcopy.elim (fun h => h hicopy) fun h => h hjcopy
  · exact (hall _ hi).1 hcmp
  · exact (hall _ hi).2 _ hj hpair

theorem not_fires_of_first (h : i.mnemonic ∉ "mov" :: "cmp" :: firing.map Prod.fst) : ¬Fires i j := by
  intro hfires
  refine h ?_
  rcases hfires.mnemonics with ⟨hcopy, -⟩ | hcmp | hpair
  · simp [hcopy.1]
  · simp [hcmp]
  · exact mem_cons_of_mem _ (mem_cons_of_mem _ (mem_map_of_mem hpair))

end Fires

theorem instr?_line {m : String} {ops : List String} (hm : m ∈ mnemonics)
    (hops : ∀ o ∈ ops, Legible ['/', '/'] o) :
    instr? dialect (.instruction (Assembly.instructionText m ops)) =
      some ⟨m, ops, 1, Assembly.instructionText m ops⟩ := by
  rw [← toList_commentMark] at hops
  refine instr?_instructionText (by decide) ?_ hops
  rw [toList_commentMark]
  exact isOpcode_of_mem hm

theorem Instr.Proper.instr?_line (h : i.Proper) : instr? dialect i.line = some (i.asm 1) :=
  Arm64.instr?_line (mnemonic_mem i) h.legible

theorem apart_lines {j : Instr} (hi : i.Proper) (hj : j.Proper) (h : ¬Fires (i.asm 1) (j.asm 1)) :
    Arch.arm64.Apart i.line j.line := apart_of_instrs hi.instr?_line fires_of_rule hj.instr?_line h

theorem chain_lines {is : List Instr} (hproper : ∀ i ∈ is, i.Proper)
    (h : ∀ i ∈ is, ∀ j ∈ is, ¬Fires (i.asm 1) (j.asm 1)) :
    (is.map Instr.line).IsChain Arch.arm64.Apart := by
  refine List.Pairwise.isChain (pairwise_of_forall_mem_list ?_)
  simp only [forall_mem_map]
  exact fun i hi j hj => apart_lines (hproper i hi) (hproper j hj) (h i hi j hj)

/-! ### The frame -/

def setup (o : Options) (f : Frame) : List Instr :=
  (if o.pointerAuth then [.paciasp] else []) ++
    [.stpPush "x29" "x30" fixedArea, .mov "x29" (.reg "sp")] ++ lowerStack f

inductive IsSetup : Instr → Prop
  | paciasp : IsSetup .paciasp
  | push : IsSetup (.stpPush "x29" "x30" fixedArea)
  | setFrame : IsSetup (.mov "x29" (.reg "sp"))
  | mov (value : Int) : IsSetup (.mov farSize (.imm value))
  | movz (chunk shift : Nat) : IsSetup (.movz farSize chunk shift)
  | movk (chunk shift : Nat) : IsSetup (.movk farSize chunk shift)
  | sub (a : Arg) : IsSetup (.alu .sub "sp" "sp" a)

theorem isSetup_materialize (value : Int) : ∀ i ∈ materialize farSize value, IsSetup i := by
  intro i hi
  cases literal_materialize _ _ i hi with
  | mov => exact .mov _
  | movz => exact .movz _ _
  | movk => exact .movk _ _

theorem isSetup_of_mem {o : Options} {f : Frame} (h : i ∈ setup o f) : IsSetup i := by
  have hlower : ∀ i ∈ lowerStack f, IsSetup i := by
    unfold lowerStack
    split
    · simp
    · split
      · exact forall_mem_singleton.2 (.sub _)
      · exact forall_mem_append.2
          ⟨isSetup_materialize _, forall_mem_singleton.2 (.sub _)⟩
  simp only [setup, mem_append, mem_cons, not_mem_nil, or_false] at h
  rcases h with (h | rfl | rfl) | h
  · split at h
    · exact mem_singleton.1 h ▸ .paciasp
    · cases h
  · exact .push
  · exact .setFrame
  · exact hlower i h

theorem isImmediate_render_imm (value : Int) : isImmediate (Arg.imm value).render = true := by
  simp [isImmediate, Arg.render, Text.startsWith, String.toList_append]

theorem IsSetup.facts (h : IsSetup i) :
    i.mnemonic ∈ ["paciasp", "stp", "mov", "movz", "movk", "sub"] ∧ ¬IsCopy (i.asm 1) := by
  cases h with
  | setFrame =>
    refine ⟨by decide, ?_⟩
    rintro ⟨-, dst, src, hops, -, -, hsrc⟩
    cases hops
    exact hsrc rfl
  | mov value =>
    refine ⟨by simp [Instr.mnemonic], ?_⟩
    rintro ⟨-, dst, src, hops, himm, -⟩
    cases hops
    rw [isImmediate_render_imm] at himm
    cases himm
  | _ => exact ⟨by simp [Instr.mnemonic, Alu.mnemonic], fun hcopy => by
      simpa [Instr.asm, Instr.mnemonic, Alu.mnemonic] using hcopy.1⟩

theorem IsSetup.not_fires {j : Instr} (hi : IsSetup i) (hj : IsSetup j) :
    ¬Fires (i.asm 1) (j.asm 1) :=
  not_fires_of_mnemonics (by decide) hi.facts.1 hj.facts.1 (.inl hi.facts.2)

theorem not_fires_setFrame (j : AsmInstr) : ¬Fires ((Instr.mov "x29" (.reg "sp")).asm 1) j := by
  intro hfires
  cases hfires with
  | swapBack hcopy => exact IsSetup.setFrame.facts.2 hcopy
  | shift _ hops hvalue =>
    cases hops
    exact hvalue (by decide)
  | reload hm | storeBack hm | pair hm | test hm | fuse hm => exact absurd hm (by decide)
  | cancel hm => exact absurd (hm.imp And.left And.left) (by decide)

theorem not_fires_sub {a : Arg} {regs : List Register} {j : AsmInstr} (h : dialect.Calm regs j) :
    ¬Fires ((Instr.alu .sub "sp" "sp" a).asm 1) j := by
  have hsub : ((Instr.alu .sub "sp" "sp" a).asm 1).mnemonic = "sub" := rfl
  intro hfires
  cases hfires with
  | cancel hm hi hj =>
    cases hi
    have hadd : j.mnemonic = "add" := by
      rcases hm with ⟨hm, -⟩ | ⟨-, hm⟩
      · exact absurd (hsub.symm.trans hm) (by decide)
      · exact hm
    have heffects : stackEffects [] j = [] := h.effects []
    rw [stackEffects, hadd, hj] at heffects
    cases heffects
  | swapBack hcopy => exact absurd (hsub.symm.trans hcopy.1) (by decide)
  | shift hm => exact absurd (hsub.symm.trans hm) (by decide)
  | reload hm | storeBack hm | pair hm | test hm | fuse hm =>
    exact absurd (hsub.symm.trans hm) (by decide)

theorem getLast?_setup (o : Options) (f : Frame) :
    (setup o f).getLast? = some (.mov "x29" (.reg "sp")) ∨
      ∃ a, (setup o f).getLast? = some (.alu .sub "sp" "sp" a) := by
  have hlower : lowerStack f = [] ∨ ∃ is a, lowerStack f = is ++ [.alu .sub "sp" "sp" a] := by
    unfold lowerStack
    split
    · exact .inl rfl
    · split
      · exact .inr ⟨[], _, rfl⟩
      · exact .inr ⟨_, _, rfl⟩
  unfold setup
  rcases hlower with hnil | ⟨is, a, heq⟩
  · exact .inl (by simp [hnil])
  · exact .inr ⟨a, by rw [heq, ← append_assoc, getLast?_concat]⟩

inductive IsLeave : Instr → Prop
  | ldr (dst : Register) (address : Address) : IsLeave (.ldr dst address)
  | release : IsLeave (.mov "sp" (.reg "x29"))
  | pop : IsLeave (.ldpPop "x29" "x30" fixedArea)
  | autiasp : IsLeave .autiasp
  | ret : IsLeave .ret

theorem IsLeave.facts (h : IsLeave i) :
    i.mnemonic ∈ ["ldr", "mov", "ldp", "autiasp", "ret"] ∧ ¬IsCopy (i.asm 1) := by
  cases h with
  | release =>
    refine ⟨by decide, ?_⟩
    rintro ⟨-, dst, src, hops, -, hdst, -⟩
    cases hops
    exact hdst rfl
  | _ => exact ⟨by simp [Instr.mnemonic], fun hcopy => by
      simpa [Instr.asm, Instr.mnemonic] using hcopy.1⟩

theorem IsLeave.not_fires {j : Instr} (hi : IsLeave i) (hj : IsLeave j) :
    ¬Fires (i.asm 1) (j.asm 1) :=
  not_fires_of_mnemonics (by decide) hi.facts.1 hj.facts.1 (.inl hi.facts.2)

theorem not_fires_release (i : AsmInstr) : ¬Fires i ((Instr.mov "sp" (.reg "x29")).asm 1) := by
  intro hfires
  cases hfires with
  | swapBack _ hcopy => exact IsLeave.release.facts.2 hcopy
  | test _ hcond => exact hcond rfl
  | shift _ _ _ hm => exact absurd hm (by decide)
  | reload _ hm | storeBack _ hm | pair _ hm | fuse _ hm => exact absurd hm (by decide)
  | cancel hm => exact absurd (hm.imp And.right And.right) (by decide)

theorem operands_of_fires_ldr {i : AsmInstr} {dst : Register} {a : Address}
    (h : Fires i ((Instr.ldr dst a).asm 1)) : i.mnemonic = "str" ∧ i.operands = [dst, a.render] := by
  have hldr : ((Instr.ldr dst a).asm 1).mnemonic = "ldr" := rfl
  cases h with
  | reload hm _ hops => exact ⟨hm, hops⟩
  | swapBack _ hcopy => exact absurd (hldr.symm.trans hcopy.1) (by decide)
  | test _ hcond => exact absurd rfl hcond
  | shift _ _ _ hm => exact absurd (hldr.symm.trans hm) (by decide)
  | storeBack _ hm | pair _ hm | fuse _ hm => exact absurd (hldr.symm.trans hm) (by decide)
  | cancel hm =>
    rcases hm with ⟨-, hm⟩ | ⟨-, hm⟩ <;> exact absurd (hldr.symm.trans hm) (by decide)

end SsaBackend.Arm64
