import SsaBackend.Peephole
import SsaBackend.Proofs.Amd64.Legal
import SsaBackend.Proofs.Arm64.Peephole
import SsaBackend.Proofs.Arm64.Select
import SsaBackend.Proofs.Riscv64.Select
import SsaBackend.Proofs.Schedule.Refinement
import SsaBackend.Proofs.Semantics

/-!
# Tidying up keeps what code does

On every architecture, the assembly that is generated for a function runs as before after it was
tidied up (`Arch.returns_optimize_iff`). The argument has three parts: every line that is generated
can be read back and has the shape that the rules rely on, no label stands there twice, and every
rule keeps what two such lines do.
-/

namespace SsaBackend

open Asm Peephole Listing List

/-! ### The common rules on amd64 and riscv64 -/

namespace Amd64

def Shape : String → List String → Prop
  | "movq", [src, dst] =>
    ∃ a b : Arg, src = a.render ∧ dst = b.render ∧ (Instr.movq a b).Proper
  | _, _ => True

theorem Instr.Proper.shape {i : Instr} (h : i.Proper) : Shape i.mnemonic i.operands := by
  cases i with
  | movq src dst => exact ⟨src, dst, rfl, rfl, h⟩
  | alu op src dst => cases op <;> trivial
  | setcc cond => cases cond <;> trivial
  | _ => trivial

theorem Instr.Proper.shaped {i : Instr} (h : i.Proper) :
    Shaped dialect.commentMark.toList Shape (.instr i.mnemonic i.operands) :=
  .instr (isOpcode_of_mem (mnemonic_mem i)) h.legible h.shape

theorem eq_reg_of_register? {a : Arg} {r : Register} (h : register? a.render = some r) :
    a = .reg r := by
  cases a with
  | imm value => simp [register?, Text.after?, Arg.render, String.toList_append] at h
  | reg name => simpa [register?, Text.after?, Arg.render, String.toList_append] using h
  | mem offset base =>
    rw [register?_render_mem] at h
    cases h

theorem exists_mem_of_isMemory {a : Arg} (ha : a.Proper) (h : isMemory a.render = true) :
    ∃ offset base, a = .mem offset base := by
  cases a with
  | imm value =>
    rw [isMemory_eq_false (isInert_render_imm value)] at h
    cases h
  | reg r =>
    rw [isMemory_eq_false (isInert_render_reg ha)] at h
    cases h
  | mem offset base => exact ⟨offset, base, rfl⟩

def addressOf (text : String) (s : State) : Option Int64 :=
  (memory? text).bind (Place.address? s)

theorem addressOf_render (offset : Int) (base : Register) (s : State) :
    addressOf (Arg.mem offset base).render s = (Text.word? offset).map (s.get base + ·) := by
  rw [addressOf, memory?_render]
  cases Text.word? offset <;> rfl

theorem exec_movq (host : Host) (src dst : Arg) (s : State) :
    exec host "movq" [src.render, dst.render] s =
      (Instr.movq src dst).op?.bind (Op.exec host s) := by
  rw [← decode_render]
  rfl

theorem transfers (host : Host) : Transfers dialect Shape (exec host) addressOf where
  move {i dst src} hshape hmove := by
    obtain ⟨hm, x, y, hops, hr, hr'⟩ := move?_eq_some hmove
    rw [hm, hops] at hshape ⊢
    simp only [Shape] at hshape
    obtain ⟨a, b, rfl, rfl, hsrc, hdst, -⟩ := hshape
    obtain rfl := eq_reg_of_register? hr
    obtain rfl := eq_reg_of_register? hr'
    refine ⟨(facts_of_mem_wholeRegs hdst).2.2, (facts_of_mem_wholeRegs hsrc).2.2, fun s => ?_⟩
    rw [exec_movq]
    rfl
  store {i r text} hshape hstore := by
    obtain ⟨hm, x, hops, hr, hmem⟩ := store?_eq_some hstore
    rw [hm, hops] at hshape ⊢
    simp only [Shape] at hshape
    obtain ⟨a, b, rfl, rfl, hsrc, hdst, -⟩ := hshape
    obtain ⟨offset, base, rfl⟩ := exists_mem_of_isMemory hdst hmem
    obtain rfl := eq_reg_of_register? hr
    refine ⟨(facts_of_mem_wholeRegs hsrc).2.2, fun s => ?_⟩
    rw [exec_movq, addressOf_render]
    cases hw : Text.word? offset <;>
      simp [Instr.op?, Arg.place?, hw, Op.exec, Place.read, Place.write, Option.map_eq_bind]
  load {i r text} hshape hload := by
    obtain ⟨hm, y, hops, hr, hmem⟩ := load?_eq_some hload
    rw [hm, hops] at hshape ⊢
    simp only [Shape] at hshape
    obtain ⟨a, b, rfl, rfl, hsrc, hdst, hne⟩ := hshape
    obtain ⟨offset, base, rfl⟩ := exists_mem_of_isMemory hsrc hmem
    obtain rfl := eq_reg_of_register? hr
    have hplain := (facts_of_mem_wholeRegs hdst).2.2
    have hbase := (facts_of_mem_wholeRegs hsrc).2.2
    refine ⟨hplain, fun s word => ?_, fun s => ?_⟩
    · rw [addressOf_render, addressOf_render,
        State.get_set_of_ne hplain hbase (hne offset base _ rfl rfl)]
    · rw [exec_movq, addressOf_render]
      cases hw : Text.word? offset <;>
        simp [Instr.op?, Arg.place?, hw, Op.exec, Place.read, Place.write, Option.map_eq_bind]
  poke text s a word := by
    unfold addressOf
    cases memory? text with
    | none => rfl
    | some p => cases p <;> rfl

end Amd64

namespace Riscv64

def Shape : String → List String → Prop
  | "mv", [dst, src] => dst ∈ wholeRegs ∧ src ∈ wholeRegs
  | "ld", [dst, address] =>
    dst ∈ wholeRegs ∧ ∃ a : Address, address = a.render ∧ a.base ∈ wholeRegs ∧ a.base ≠ dst
  | "sd", [src, address] =>
    src ∈ wholeRegs ∧ ∃ a : Address, address = a.render ∧ a.base ∈ wholeRegs
  | _, _ => True

theorem Instr.Proper.shape {i : Instr} (h : i.Proper) : Shape i.mnemonic i.operands := by
  cases i with
  | mv dst src => exact h
  | ld dst address => exact ⟨h.1, address, rfl, h.2⟩
  | sd src address => exact ⟨h.1, address, rfl, h.2⟩
  | reg op dst lhs rhs | imm op dst lhs value => cases op <;> trivial
  | _ => trivial

theorem Instr.Proper.shaped {i : Instr} (h : i.Proper) :
    Shaped dialect.commentMark.toList Shape (.instr i.mnemonic i.operands) :=
  .instr (isOpcode_of_mem (mnemonic_mem i)) h.legible h.shape

def addressOf (text : String) (s : State) : Option Int64 := (mem? text).map fun m => m.address s

theorem addressOf_render (a : Address) (s : State) :
    addressOf a.render s = (Text.word? a.offset).map (s.get a.base + ·) := by
  rw [addressOf, Address.mem?_render, Address.mem?]
  cases Text.word? a.offset <;> rfl

theorem transfers (host : Host) : Transfers dialect Shape (exec host) addressOf where
  move {i dst src} hshape hmove := by
    obtain ⟨hm, hops⟩ := move?_eq_some hmove
    rw [hm, hops] at hshape ⊢
    simp only [Shape] at hshape
    exact ⟨(facts_of_mem_wholeRegs hshape.1).2.2, (facts_of_mem_wholeRegs hshape.2).2.2,
      fun s => rfl⟩
  store {i r text} hshape hstore := by
    obtain ⟨hm, hops⟩ := store?_eq_some hstore
    rw [hm, hops] at hshape ⊢
    simp only [Shape] at hshape
    obtain ⟨hr, a, rfl, hbase⟩ := hshape
    refine ⟨(facts_of_mem_wholeRegs hr).2.2, fun s => ?_⟩
    simp only [exec, decode, addressOf, Address.mem?_render]
    cases a.mem? with
    | none => rfl
    | some m => cases hs : s.store (m.address s) (s.get r) <;> simp [Op.exec, hs]
  load {i r text} hshape hload := by
    obtain ⟨hm, hops⟩ := load?_eq_some hload
    rw [hm, hops] at hshape ⊢
    simp only [Shape] at hshape
    obtain ⟨hr, a, rfl, hbase, hne⟩ := hshape
    have hplain := (facts_of_mem_wholeRegs hr).2.2
    refine ⟨hplain, fun s word => ?_, fun s => ?_⟩
    · rw [addressOf_render, addressOf_render,
        State.get_set_of_ne hplain (facts_of_mem_wholeRegs hbase).2.2 hne]
    · simp only [exec, decode, addressOf, Address.mem?_render]
      cases a.mem? with
      | none => rfl
      | some m => cases hs : s.load (m.address s) <;> simp [Op.exec, hs]
  poke text s a word := by
    unfold addressOf
    cases mem? text <;> rfl

end Riscv64

namespace Arch

/-! ### Rules -/

def Shape : Arch → String → List String → Prop
  | amd64 => Amd64.Shape
  | arm64 => Arm64.Shape
  | riscv64 => Riscv64.Shape

abbrev ShapedLine (arch : Arch) : Line → Prop :=
  Peephole.ShapedLine arch.dialect.commentMark.toList arch.Shape

theorem isMark_commentMark (arch : Arch) : isMark arch.dialect.commentMark.toList = true := by
  cases arch <;> decide

theorem isForeign_commentMark (arch : Arch) :
    isForeign arch.dialect.commentMark.toList = true := by
  cases arch <;> decide

theorem clean_of_all {mark text : List Char}
    (h : text.all (fun c => c != '\n' && c != ':' && !(mark.contains c)) = true) :
    ∀ c ∈ text, c ≠ '\n' ∧ c ≠ ':' ∧ c ∉ mark := by
  simpa [and_assoc] using h

theorem exec_of_jump? {arch : Arch} {i : AsmInstr} {label : String}
    (h : arch.dialect.jump? i = some label) (host : Host) (s : State) :
    arch.exec host i.mnemonic i.operands s = some (.jump label s) := by
  cases arch with
  | amd64 =>
    obtain ⟨hm, hops⟩ := Amd64.jump?_eq_some h
    rw [hm, hops]
    rfl
  | arm64 =>
    obtain ⟨hm, hops⟩ := Arm64.jump?_eq_some h
    rw [hm, hops]
    rfl
  | riscv64 =>
    obtain ⟨hm, hops⟩ := Riscv64.jump?_eq_some h
    rw [hm, hops]
    rfl

theorem faithful (arch : Arch) (host : Host) :
    Faithful arch.dialect (commonRules arch.dialect ++ arch.furtherRules) (arch.exec host)
      arch.ShapedLine := by
  refine faithful_of_keeps arch.isMark_commentMark (fun _ h s => exec_of_jump? h host s) ?_
  intro rule i j r hrule hi hj hr
  rcases mem_append.1 hrule with hrule | hrule
  · cases arch with
    | amd64 => exact (Amd64.transfers host).keeps_common hi hj hrule hr
    | arm64 => exact (Arm64.transfers host).keeps_common hi hj hrule hr
    | riscv64 => exact (Riscv64.transfers host).keeps_common hi hj hrule hr
  · cases arch with
    | amd64 | riscv64 => cases hrule
    | arm64 => exact Arm64.keeps_rules host hi hj hrule hr

/-! ### What is generated -/

inductive ProperLine : Arch → Line → Prop
  | amd64 {i : Amd64.Instr} (h : i.Proper) (hfit : i.Fitting) : ProperLine .amd64 i.line
  | arm64 {i : Arm64.Instr} (h : i.Proper) : ProperLine .arm64 i.line
  | riscv64 {i : Riscv64.Instr} (h : i.Proper) : ProperLine .riscv64 i.line

inductive GeneratedLine (arch : Arch) (name : String) : Line → Prop
  | text : GeneratedLine arch name (.directive ".text")
  | globl : GeneratedLine arch name (.directive (".globl " ++ name))
  | name : GeneratedLine arch name (.label name)
  | label {l : String} (h : isReference l = true) : GeneratedLine arch name (.label l)
  | instruction {line : Line} (h : arch.ProperLine line) : GeneratedLine arch name line

section Lines

variable {arch : Arch} {frame : Frame} (hsaved : ∀ r ∈ frame.saved, r ∈ arch.target.calleeSaved)
variable {name : String}

include hsaved

theorem properLine_prologue (o : Options) :
    ∀ text ∈ arch.isa.prologue o frame, arch.ProperLine (.instruction text) := by
  cases arch with
  | amd64 =>
    exact forall_mem_map.2 fun i hi =>
      .amd64 (Amd64.prologue_proper hsaved i hi) (Amd64.framed_prologue frame i hi).fitting
  | arm64 => exact forall_mem_map.2 fun i hi => .arm64 (Arm64.prologue_proper hsaved o i hi)
  | riscv64 => exact forall_mem_map.2 fun i hi => .riscv64 (Riscv64.prologue_proper hsaved i hi)

theorem properLine_lower (o : Options) {s : Step} (hs : s.Proper arch.target.valueRegs) :
    ∀ text ∈ arch.isa.lower o frame s, arch.ProperLine (.instruction text) := by
  cases arch with
  | amd64 =>
    exact forall_mem_map.2 fun i hi =>
      .amd64 (Amd64.lower_proper (fun _ => hsaved) hs i hi) (Amd64.fitting_lower hs.regular i hi)
  | arm64 => exact forall_mem_map.2 fun i hi => .arm64 (Arm64.lower_proper (fun _ => hsaved) o hs i hi)
  | riscv64 => exact forall_mem_map.2 fun i hi => .riscv64 (Riscv64.lower_proper (fun _ => hsaved) hs i hi)

theorem generatedLine_assemble (o : Options) (name : String) {steps : List Step}
    (hsteps : ∀ s ∈ steps, s.Proper arch.target.valueRegs) :
    ∀ line ∈ arch.isa.assemble o frame name steps, arch.GeneratedLine name line := by
  unfold Isa.assemble
  simp only [forall_mem_append, forall_mem_cons, forall_mem_map, forall_mem_flatMap]
  refine ⟨⟨⟨.text, .globl, .name, by simp⟩, fun text htext =>
    .instruction (properLine_prologue hsaved o text htext)⟩, fun s hs => ?_⟩
  have hproper := hsteps s hs
  cases s with
  | label l => exact forall_mem_singleton.2 (.label hproper)
  | _ => exact forall_mem_map.2 fun text htext =>
      .instruction (properLine_lower hsaved o hproper text htext)

omit hsaved in
theorem shapedLine_label (h : isReference name = true) : arch.ShapedLine (.label name) := by
  refine .cell (c := .label name) (.label (legible_of_isReference arch.isForeign_commentMark h).ne_nil
    fun c hc => isInert_of_isReference arch.isForeign_commentMark h hc)

omit hsaved in
theorem shapedLine_globl (h : isReference name = true) :
    arch.ShapedLine (.directive (".globl " ++ name)) := by
  have hname := legible_of_isReference arch.isForeign_commentMark h
  have hlist : (".globl " ++ name).toList = ".globl ".toList ++ name.toList := String.toList_append
  refine .directive (.directive (by rw [hlist]; rfl) ?_ ?_)
  · intro c hc
    obtain ⟨e, he, heb⟩ := hname.last
    rw [hlist, getLast?_append, he, Option.some_or] at hc
    cases hc
    exact heb
  · rw [hlist]
    refine forall_mem_append.2 ⟨clean_of_all ?_, hname.clean⟩
    cases arch <;> decide

omit hsaved in
theorem ProperLine.shaped {line : Line} (h : arch.ProperLine line) : arch.ShapedLine line := by
  cases h with
  | amd64 h => exact .cell h.shaped
  | arm64 h => exact .cell h.shaped
  | riscv64 h => exact .cell h.shaped

theorem shapedLine_assemble (o : Options) (hname : isReference name = true) {steps : List Step}
    (hsteps : ∀ s ∈ steps, s.Proper arch.target.valueRegs) :
    ∀ line ∈ arch.isa.assemble o frame name steps, arch.ShapedLine line := by
  intro line hline
  cases generatedLine_assemble hsaved o name hsteps line hline with
  | text =>
    refine .directive (.directive rfl ?_ ?_)
    · rintro c ⟨⟩
      decide
    · refine clean_of_all ?_
      cases arch <;> decide
  | globl => exact shapedLine_globl hname
  | name => exact shapedLine_label hname
  | label h => exact shapedLine_label h
  | instruction h => exact h.shaped

end Lines

end Arch

/-! ### Labels -/

theorem labels_codeOf_map (d : Dialect) (texts : List String) :
    labels (codeOf d (texts.map .instruction)) = [] := by
  refine labels_codeOf_eq_nil fun line hline => ?_
  obtain ⟨text, -, rfl⟩ := mem_map.1 hline
  exact ⟨text, rfl⟩

theorem Isa.labels_assemble (isa : Isa) (d : Dialect) (o : Options) (frame : Frame) (name : String)
    (steps : List Step) :
    labels (codeOf d (isa.assemble o frame name steps)) = name :: steps.filterMap Step.label? := by
  have hbody : labels (codeOf d (steps.flatMap (isa.stepLines o frame))) =
      steps.filterMap Step.label? := by
    induction steps with
    | nil => rfl
    | cons s steps ih =>
      rw [flatMap_cons, codeOf_append, labels_append, ih]
      cases s with
      | label l => rfl
      | _ => exact congrArg (· ++ _) (labels_codeOf_map d _)
  have hhead : labels (codeOf d [.directive ".text", .directive (".globl " ++ name), .label name]) =
      [name] := rfl
  rw [assemble, codeOf_append, codeOf_append, labels_append, labels_append, hbody, hhead,
    labels_codeOf_map]
  rfl

/-! ### Generated functions -/

/-- Tidying up does not change what generated code does. From the same state, the function returns
either in both versions or in neither, and it returns to the same place with the same registers,
memory and trace of calls. -/
theorem Arch.returns_optimize_iff {f : Function} (hf : f.IsBuilt) (hcallees : f.CallsSymbols)
    (arch : Arch) (strategy : Strategy) (profile : Option Profile) {alloc : Allocation}
    (halloc : strategy.allocate f arch.target profile = .ok alloc) {layout : List BlockId}
    (hperm : layout.Perm f.blockIds) (hentry : layout.head? = some 0) (o : Options) {a : Assembly}
    {frame : Frame} (hgen : arch.isa.generate f alloc layout o = .ok (a, frame)) (host : Host)
    (s : State) (r : Final) :
    Returns (arch.exec host) (arch.code (arch.optimize a)) f.name s r ↔
      Returns (arch.exec host) (arch.code a) f.name s r := by
  have wf := hf.wellFormed
  obtain ⟨b, rest, rfl⟩ : ∃ b rest, layout = b :: rest := by
    cases layout with
    | nil => cases hentry
    | cons b rest => exact ⟨b, rest, rfl⟩
  obtain ⟨steps, hsteps, ha, -⟩ := Isa.exists_of_generate hgen
  rw [target_isa] at hsteps ha
  rw [Placed.schedule_of_allocate wf arch.nodup_allocatable halloc hperm] at hsteps
  cases hsteps
  have hfits := Strategy.fits_of_allocate wf arch.nodup_allocatable halloc
  have hshaped : ∀ line ∈ a, arch.ShapedLine line := by
    rw [show a = _ from ha]
    refine shapedLine_assemble (fun r hr => Frame.mem_calleeSaved hr) o
      (isReference_of_isSymbol wf.isSymbol_name) fun s hs => ?_
    exact Placed.proper_code (p := ⟨f, alloc, arch.target⟩) hfits.pool wf hcallees hs
  have hlabels : (labels (codeOf arch.dialect a)).Nodup := by
    rw [show a = _ from ha, Isa.labels_assemble]
    refine List.nodup_cons.2 ⟨Placed.name_notMem_labels_code (p := ⟨f, alloc, _⟩) wf b rest, ?_⟩
    refine Placed.nodup_labels_code (p := ⟨f, alloc, arch.target⟩) wf (fun c hc => ?_) ?_
    · exact List.mem_range.1 (hperm.mem_iff.1 hc)
    · exact hperm.nodup_iff.2 List.nodup_range
  obtain ⟨hshaped', hsame⟩ := (arch.faithful host).same_run hshaped hlabels
  have hcode : ∀ {a' : Assembly}, (∀ line ∈ a', arch.ShapedLine line) →
      arch.code a' = codeOf arch.dialect a' := fun h =>
    readCode_render arch.isMark_commentMark fun line hline => (h line hline).written
  rw [optimize, hcode hshaped, hcode hshaped']
  exact (hsame f.name s r).symm

/-- The sample on Arm, with signed return addresses and its blocks in another order. -/
theorem Arch.returns_optimize_drain :
    Function.drain.IsBuilt ∧ Function.drain.CallsSymbols ∧ [0, 2, 1].Perm Function.drain.blockIds ∧
      ∃ alloc a frame, Strategy.linearScan.allocate Function.drain arm64.target none = .ok alloc ∧
        arm64.isa.generate Function.drain alloc [0, 2, 1] ⟨true⟩ = .ok (a, frame) ∧
        ∀ host s r, Returns (arm64.exec host) (arm64.code (arm64.optimize a)) "drain" s r ↔
          Returns (arm64.exec host) (arm64.code a) "drain" s r := by
  have hcallees : Function.drain.CallsSymbols := by decide
  have hperm : [0, 2, 1].Perm Function.drain.blockIds := by decide
  have hcheck : Function.drain.unsupported arm64.isa.target = [] := by decide
  obtain ⟨alloc, halloc⟩ : ∃ alloc,
      Strategy.linearScan.allocate Function.drain arm64.target none = .ok alloc := ⟨_, rfl⟩
  have hgen := Isa.generate_eq hcheck (Placed.schedule_of_allocate
    Function.isBuilt_drain.wellFormed arm64.nodup_allocatable halloc hperm) ⟨true⟩
  exact ⟨Function.isBuilt_drain, hcallees, hperm, alloc, _, _, halloc, hgen, fun host s r =>
    returns_optimize_iff Function.isBuilt_drain hcallees arm64 .linearScan none halloc hperm rfl
      ⟨true⟩ hgen host s r⟩

end SsaBackend
