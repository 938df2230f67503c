import Mathlib.Data.List.DropRight
import SsaBackend.Proofs.Amd64.Select
import SsaBackend.Proofs.Arm64.Select
import SsaBackend.Proofs.Riscv64.Select
import SsaBackend.Proofs.Schedule.Jumps
import SsaBackend.Proofs.Schedule.Refinement

/-!
# Labels of generated code

Instruction selection neither adds nor drops labels, and adds no jumps: what assembly goes to is what
its schedule goes to (`Arch.exists_of_target_assemble`). So the labels of generated code are different, they are
there for every jump and branch, control leaves the code only by returning, and functions with
different names share no label (`Arch.labels_unique_and_closed`).
-/

namespace SsaBackend

open List Listing

variable {l : String} {steps : List Step} {s : Step}

/-- The label that a line is. -/
def Line.label? : Line → Option String
  | label name => some name
  | _ => none

/-- The labels of assembly, in order. -/
def Assembly.labels (a : Assembly) : List String := a.filterMap Line.label?

namespace Dialect

/-- Whether a mnemonic is that of a jump or branch: it takes a label and calls nothing. -/
def isBranch (d : Dialect) (mnemonic : String) : Bool :=
  let i : AsmInstr := ⟨mnemonic, [], 0, mnemonic⟩
  (d.labelOperand? i).isSome && !d.isCall i

/-- The label to which a line may go: the last word of a jump or branch. -/
def target? (d : Dialect) : Line → Option String
  | .instruction text =>
    let (mnemonic, rest) := Text.cutAtBlank text.toList
    if d.isBranch (String.ofList mnemonic) then some (String.ofList (rest.rtakeWhile (· ≠ ' ')))
    else none
  | _ => none

example : Arm64.dialect.target? (.instruction "cbnz x19, .Lf.loop") = some ".Lf.loop" := by decide

/-- Whether a line returns or jumps, so that the line after it is never the next. -/
def isExit (d : Dialect) (line : Line) : Bool :=
  (Peephole.instr? d line).any fun i => d.isReturn i || (d.jump? i).isSome

end Dialect

/-! ### Targets in text -/

theorem rtakeWhile_append_blank {front cs : List Char} (h : ' ' ∉ cs) :
    (front ++ ' ' :: cs).rtakeWhile (· ≠ ' ') = cs := by
  have hall : ∀ c ∈ cs.reverse, decide (c ≠ ' ') = true := by
    intro c hc
    rw [decide_eq_true_eq]
    rintro rfl
    exact h (mem_reverse.1 hc)
  rw [List.rtakeWhile, reverse_append, reverse_cons, append_assoc, takeWhile_append_of_pos hall]
  simp

theorem rtakeWhile_intercalate (css : List (List Char)) {cs : List Char} (h : ' ' ∉ cs) :
    ([',', ' '].intercalate (css ++ [cs])).rtakeWhile (· ≠ ' ') = cs := by
  cases css with
  | nil =>
    refine (congrArg _ (by simp)).trans (rtakeWhile_eq_self_iff.2 fun c hc => ?_)
    rw [decide_eq_true_eq]
    rintro rfl
    exact h hc
  | cons cs' css =>
    have heq : [',', ' '].intercalate (cs' :: css ++ [cs]) =
        ([',', ' '].intercalate (cs' :: css) ++ [',']) ++ ' ' :: cs := by
      rw [Asm.intercalate_concat _ (by simp)]
      simp
    rw [heq, rtakeWhile_append_blank h]

theorem Dialect.target?_instructionText {d : Dialect} {mark : List Char} {m : String}
    (hm : isOpcode mark m = true) {ops : List String} {target? : Option String}
    (hbranch : d.isBranch m = target?.isSome)
    (h : ∀ l, target? = some l → isReference l = true ∧ ∃ init, ops = init ++ [l]) :
    d.target? (.instruction (Assembly.instructionText m ops)) = target? := by
  cases target? with
  | none => simp [Dialect.target?, cutAtBlank_instructionText hm, hbranch]
  | some l =>
    obtain ⟨hl, init, rfl⟩ := h l rfl
    have hblank : ' ' ∉ l.toList := by
      intro hc
      simp only [isReference, Bool.and_eq_true, all_eq_true] at hl
      exact absurd (hl.2 ' ' hc) (by decide)
    simp only [Dialect.target?, cutAtBlank_instructionText hm, String.ofList_toList, hbranch,
      Option.isSome_some, if_true, map_append, map_cons, map_nil, rtakeWhile_intercalate _ hblank]

/-! ### amd64 -/

namespace Amd64

def Instr.target? : Instr → Option String
  | jmp label => some label
  | jne label => some label
  | _ => none

theorem isBranch_mnemonic (i : Instr) : dialect.isBranch i.mnemonic = i.target?.isSome := by
  cases i with
  | alu op =>
    show dialect.isBranch op.mnemonic = false
    cases op <;> decide
  | setcc cond =>
    show dialect.isBranch cond.setMnemonic = false
    cases cond <;> decide
  | _ =>
    simp only [Instr.mnemonic, Instr.target?, Option.isSome]
    decide

theorem target?_render {i : Instr} (h : ∀ l, i.target? = some l → isReference l = true) :
    dialect.target? (.instruction i.render) = i.target? := by
  refine Dialect.target?_instructionText (isOpcode_of_mem (mnemonic_mem i)) (isBranch_mnemonic i)
    fun l hl => ⟨h l hl, ?_⟩
  cases i <;> cases hl <;> exact ⟨[], rfl⟩

variable {rs : List Register} {f : Frame} {s : Step} {i : Instr}

theorem Framed.target? (h : Framed f i) : i.target? = none := by
  cases h <;> rfl

theorem target?_of_mem_lower (hs : s.Regular rs) (hi : i ∈ lower f s) :
    i.target? = none ∨ i.target? = s.target? := by
  by_cases h : s = .epilogue
  · subst h
    exact .inl (framed_epilogue f i hi).target?
  · cases emitted_lower hs h i hi with
    | jmp heq | jne heq => exact .inr (heq ▸ rfl)
    | _ => exact .inl rfl

end Amd64

/-! ### arm64 -/

namespace Arm64

def Instr.target? : Instr → Option String
  | b label => some label
  | cbnz _ label => some label
  | _ => none

theorem isBranch_mnemonic (i : Instr) : dialect.isBranch i.mnemonic = i.target?.isSome := by
  cases i with
  | alu op =>
    show dialect.isBranch op.mnemonic = false
    cases op <;> decide
  | _ =>
    simp only [Instr.mnemonic, Instr.target?, Option.isSome]
    decide

theorem target?_render {i : Instr} (h : ∀ l, i.target? = some l → isReference l = true) :
    dialect.target? (.instruction i.render) = i.target? := by
  refine Dialect.target?_instructionText (isOpcode_of_mem (mnemonic_mem i)) (isBranch_mnemonic i)
    fun l hl => ⟨h l hl, ?_⟩
  cases i <;> cases hl
  · exact ⟨[], rfl⟩
  · exact ⟨[_], rfl⟩

variable {rs : List Register} {f : Frame} {s : Step} {i : Instr}

theorem Framed.target? (h : Framed f i) : i.target? = none := by
  cases h with
  | literal _ h => cases h <;> rfl
  | _ => rfl

theorem Own.target? (h : Own rs i) : i.target? = none := by
  cases h with
  | literal _ h => cases h <;> rfl
  | _ => rfl

theorem target?_of_mem_lower (o : Options) (hs : s.Regular rs) (hi : i ∈ lower o f s) :
    i.target? = none ∨ i.target? = s.target? := by
  by_cases h : s = .epilogue
  · subst h
    exact .inl (framed_epilogue o f i hi).target?
  · cases emitted_lower o hs.within h i hi with
    | own h => exact .inl h.target?
    | jump heq | branch heq => exact .inr (heq ▸ rfl)
    | _ => exact .inl rfl

end Arm64

/-! ### riscv64 -/

namespace Riscv64

def Instr.target? : Instr → Option String
  | j label => some label
  | bnez _ label => some label
  | _ => none

theorem isBranch_mnemonic (i : Instr) : dialect.isBranch i.mnemonic = i.target?.isSome := by
  cases i with
  | reg op | imm op =>
    show dialect.isBranch op.mnemonic = false
    cases op <;> decide
  | _ =>
    simp only [Instr.mnemonic, Instr.target?, Option.isSome]
    decide

theorem target?_render {i : Instr} (h : ∀ l, i.target? = some l → isReference l = true) :
    dialect.target? (.instruction i.render) = i.target? := by
  refine Dialect.target?_instructionText (isOpcode_of_mem (mnemonic_mem i)) (isBranch_mnemonic i)
    fun l hl => ⟨h l hl, ?_⟩
  cases i <;> cases hl
  · exact ⟨[], rfl⟩
  · exact ⟨[_], rfl⟩

variable {rs : List Register} {f : Frame} {s : Step} {i : Instr}

theorem Framed.target? (h : Framed f i) : i.target? = none := by
  cases h with
  | literal h => cases h <;> rfl
  | _ => rfl

theorem Own.target? (h : Own rs i) : i.target? = none := by
  cases h with
  | literal _ h => cases h <;> rfl
  | _ => rfl

theorem target?_of_mem_lower (hs : s.Regular rs) (hi : i ∈ lower f s) :
    i.target? = none ∨ i.target? = s.target? := by
  by_cases h : s = .epilogue
  · subst h
    exact .inl (framed_epilogue f i hi).target?
  · cases emitted_lower hs.within h i hi with
    | own h => exact .inl h.target?
    | jump heq | branch heq => exact .inr (heq ▸ rfl)
    | _ => exact .inl rfl

end Riscv64

/-! ### Assembly -/

def Operand.register? : Operand → Option Register
  | register r => some r
  | immediate _ | stack _ => none

theorem Step.exists_regular (h : ∀ l, s.target? = some l → isReference l = true)
    (hlabel : ∀ name, s ≠ .label name) : ∃ rs, s.Regular rs := by
  refine ⟨s.operands.filterMap Operand.register?, ?_⟩
  have hwithin : ∀ o ∈ s.operands, o.Within (s.operands.filterMap Operand.register?) := by
    intro o ho
    cases o with
    | register r => exact mem_filterMap.2 ⟨_, ho, rfl⟩
    | immediate | stack => trivial
  cases s with
  | label name => exact absurd rfl (hlabel name)
  | call callee args dst =>
    obtain ⟨hargs, hdst⟩ := forall_mem_append.1 hwithin
    exact ⟨hargs, fun d hd => hdst d (Option.mem_toList.2 hd)⟩
  | jump l | branchIf cond l => exact (proper_iff.2 ⟨hwithin, forall_mem_singleton.2 (h l rfl)⟩)
  | _ => exact (proper_iff.2 ⟨hwithin, by simp [names]⟩)

namespace Arch

variable (arch : Arch) (o : Options) (frame : Frame)

theorem target?_of_mem_prologue {text : String} (h : text ∈ arch.isa.prologue o frame) :
    arch.dialect.target? (.instruction text) = none := by
  cases arch with
  | amd64 =>
    obtain ⟨i, hi, rfl⟩ := mem_map.1 h
    have hnone := (Amd64.framed_prologue frame i hi).target?
    exact (Amd64.target?_render (by simp [hnone])).trans hnone
  | arm64 =>
    obtain ⟨i, hi, rfl⟩ := mem_map.1 h
    have hnone := (Arm64.framed_prologue o frame i hi).target?
    exact (Arm64.target?_render (by simp [hnone])).trans hnone
  | riscv64 =>
    obtain ⟨i, hi, rfl⟩ := mem_map.1 h
    have hnone := (Riscv64.framed_prologue frame i hi).target?
    exact (Riscv64.target?_render (by simp [hnone])).trans hnone

theorem target?_of_mem_stepLines (hs : ∀ l, s.target? = some l → isReference l = true) {line : Line}
    (hline : line ∈ arch.isa.stepLines o frame s) (hl : arch.dialect.target? line = some l) :
    s.target? = some l := by
  by_cases hlabel : ∃ name, s = .label name
  · obtain ⟨name, rfl⟩ := hlabel
    rw [mem_singleton.1 hline] at hl
    cases hl
  obtain ⟨rs, hrs⟩ := Step.exists_regular hs fun name heq => hlabel ⟨name, heq⟩
  have hlower : ∀ text ∈ arch.isa.lower o frame s,
      arch.dialect.target? (.instruction text) = some l → s.target? = some l := by
    -- instructions read back as what they are
    have hread : ∀ {t t' : Option String}, t = none ∨ t = s.target? →
        ((∀ l, t = some l → isReference l = true) → t' = t) → t' = some l → s.target? = some l := by
      rintro t t' (rfl | rfl) ht hl
      · cases hl ▸ ht (by simp)
      · exact ht hs ▸ hl
    intro text htext
    cases arch with
    | amd64 =>
      obtain ⟨i, hi, rfl⟩ := mem_map.1 htext
      exact hread (Amd64.target?_of_mem_lower hrs hi) Amd64.target?_render
    | arm64 =>
      obtain ⟨i, hi, rfl⟩ := mem_map.1 htext
      exact hread (Arm64.target?_of_mem_lower o hrs hi) Arm64.target?_render
    | riscv64 =>
      obtain ⟨i, hi, rfl⟩ := mem_map.1 htext
      exact hread (Riscv64.target?_of_mem_lower hrs hi) Riscv64.target?_render
  cases s with
  | label name => exact absurd ⟨name, rfl⟩ hlabel
  | _ =>
    obtain ⟨text, htext, rfl⟩ := mem_map.1 hline
    exact hlower text htext hl

theorem exists_of_target_assemble {name : String}
    (hsteps : ∀ s ∈ steps, ∀ l, s.target? = some l → isReference l = true) {line : Line}
    (hline : line ∈ arch.isa.assemble o frame name steps) (hl : arch.dialect.target? line = some l) :
    ∃ s ∈ steps, s.target? = some l := by
  rw [Isa.assemble, mem_append, mem_append] at hline
  rcases hline with (hline | hline) | hline
  · simp only [mem_cons, not_mem_nil, or_false] at hline
    rcases hline with rfl | rfl | rfl <;> cases hl
  · obtain ⟨text, htext, rfl⟩ := mem_map.1 hline
    rw [arch.target?_of_mem_prologue o frame htext] at hl
    cases hl
  · obtain ⟨s, hs, hline⟩ := mem_flatMap.1 hline
    exact ⟨s, hs, arch.target?_of_mem_stepLines o frame (hsteps s hs) hline hl⟩

end Arch

namespace Assembly

variable (isa : Isa) (o : Options) (frame : Frame)

theorem label_mem_iff {a : Assembly} {name : String} : Line.label name ∈ a ↔ name ∈ a.labels := by
  refine ⟨fun h => mem_filterMap.2 ⟨_, h, rfl⟩, fun h => ?_⟩
  obtain ⟨line, hline, hname⟩ := mem_filterMap.1 h
  cases line with
  | label l => exact Option.some.inj hname ▸ hline
  | _ => cases hname

@[simp] theorem labels_append (a a' : Assembly) : labels (a ++ a') = labels a ++ labels a' :=
  filterMap_append

theorem labels_map_instruction (texts : List String) : labels (texts.map .instruction) = [] :=
  filterMap_eq_nil_iff.2 (by simp [Line.label?])

theorem labels_stepLines (steps : List Step) :
    labels (steps.flatMap (isa.stepLines o frame)) = steps.filterMap Step.label? := by
  rw [labels, filterMap_flatMap, filterMap_eq_flatMap_toList]
  refine flatMap_congr fun s _ => ?_
  cases s with
  | label => rfl
  | _ => exact labels_map_instruction _

theorem labels_assemble (name : String) (steps : List Step) :
    (isa.assemble o frame name steps).labels = name :: steps.filterMap Step.label? := by
  rw [Isa.assemble, labels_append, labels_append, labels_map_instruction, labels_stepLines]
  rfl

end Assembly

/-! ### Exits -/

abbrev Dialect.EndsAtExit (d : Dialect) (lines : List Line) : Prop :=
  ∃ line, lines.getLast? = some line ∧ d.isExit line = true

theorem Dialect.isExit_instructionText {d : Dialect} (hmark : isMark d.commentMark.toList = true)
    {m : String} {ops : List String} (hm : isOpcode d.commentMark.toList m = true)
    (hops : ∀ o ∈ ops, Legible d.commentMark.toList o)
    (h : ∀ n text, d.isReturn ⟨m, ops, n, text⟩ = true ∨ (d.jump? ⟨m, ops, n, text⟩).isSome) :
    d.isExit (.instruction (Assembly.instructionText m ops)) = true := by
  rw [isExit, Asm.instr?_instructionText hmark hm hops]
  simpa using h 1 _

namespace Arch

variable (arch : Arch) (o : Options) (frame : Frame)

theorem endsAtExit_jump (hl : isReference l = true) :
    arch.dialect.EndsAtExit (arch.isa.stepLines o frame (.jump l)) := by
  have hjump : ∀ {d : Dialect} {m : String}, isMark d.commentMark.toList = true →
      isForeign d.commentMark.toList = true → isOpcode d.commentMark.toList m = true →
      (∀ n text, (d.jump? ⟨m, [l], n, text⟩).isSome) →
      d.isExit (.instruction (Assembly.instructionText m [l])) = true := fun hmark hforeign hm h =>
    Dialect.isExit_instructionText hmark hm
      (forall_mem_singleton.2 (legible_of_isReference hforeign hl)) fun n text => .inr (h n text)
  cases arch with
  | amd64 => exact ⟨_, rfl, hjump (m := "jmp") rfl rfl rfl fun _ _ => rfl⟩
  | arm64 => exact ⟨_, rfl, hjump (m := "b") rfl rfl rfl fun _ _ => rfl⟩
  | riscv64 => exact ⟨_, rfl, hjump (m := "j") rfl rfl rfl fun _ _ => rfl⟩

theorem endsAtExit_epilogue :
    arch.dialect.EndsAtExit (arch.isa.stepLines o frame .epilogue) := by
  have hends : ∀ {d : Dialect} {texts init tail : List String} {m : String}, texts = init ++ tail →
      tail.getLast? = some (Assembly.instructionText m []) → isMark d.commentMark.toList = true →
      isOpcode d.commentMark.toList m = true → (∀ n text, d.isReturn ⟨m, [], n, text⟩ = true) →
      d.EndsAtExit (texts.map .instruction) := by
    rintro d _ init tail m rfl hlast hmark hm h
    exact ⟨_, by simp [getLast?_append, hlast], Dialect.isExit_instructionText hmark hm
      (forall_mem_nil _) fun n text => .inl (h n text)⟩
  cases arch with
  | amd64 => exact hends (m := "retq") map_append rfl rfl rfl fun _ _ => rfl
  | arm64 | riscv64 => exact hends (m := "ret") map_append rfl rfl rfl fun _ _ => rfl

theorem endsAtExit_of_getLast? (hs : steps.getLast? = some s) (hexit : s.isExit = true)
    (href : ∀ l, s.target? = some l → isReference l = true) :
    arch.dialect.EndsAtExit (steps.flatMap (arch.isa.stepLines o frame)) := by
  have hlast : arch.dialect.EndsAtExit (arch.isa.stepLines o frame s) := by
    cases s with
    | jump l => exact arch.endsAtExit_jump o frame (href l rfl)
    | epilogue => exact arch.endsAtExit_epilogue o frame
    | _ => cases hexit
  obtain ⟨init, rfl⟩ := getLast?_eq_some_iff.1 hs
  obtain ⟨line, hline, hexit⟩ := hlast
  exact ⟨line, by simp [getLast?_append, hline], hexit⟩

end Arch

theorem exists_last_before {α β : Type} {Marked Good : α → Prop} {mark : β → α} {body : β → List α}
    {groups : List β} (hgroups : ∀ g ∈ groups, (∀ x ∈ body g, ¬ Marked x) ∧
      ∃ x, (body g).getLast? = some x ∧ Good x)
    {front : List α} (hfront : ∀ x ∈ front, ¬ Marked x)
    (hlast : ∃ x, front.getLast? = some x ∧ Good x) {pre post : List α} {x : α}
    (hsplit : front ++ groups.flatMap (fun g => mark g :: body g) = pre ++ x :: post)
    (hx : Marked x) : ∃ y, pre.getLast? = some y ∧ Good y := by
  induction groups generalizing front pre with
  | nil =>
    rw [flatMap_nil, append_nil] at hsplit
    exact absurd hx (hfront x (by simp [hsplit]))
  | cons g groups ih =>
    obtain ⟨hg, hgroups⟩ := forall_mem_cons.1 hgroups
    rw [flatMap_cons, cons_append] at hsplit
    rcases append_eq_append_iff.1 hsplit with ⟨as, rfl, has⟩ | ⟨bs, hbs, hpost⟩
    · cases as with
      | nil => simpa using hlast
      | cons a as =>
        -- the element stands behind the mark of this group
        rw [cons_append] at has
        injection has with _ has
        obtain ⟨y, hy, hgood⟩ := ih hgroups hg.1 hg.2 has
        refine ⟨y, ?_, hgood⟩
        rw [getLast?_append, getLast?_cons, hy]
        rfl
    · cases bs with
      | nil => simpa [hbs] using hlast
      | cons b bs =>
        injection hpost with hb _
        exact absurd hx (hfront x (by simp [hbs, hb]))

namespace Placed

variable {p : Placed} {b : BlockId} {rest : List BlockId}

theorem exists_of_mem_labels_code (hl : l ∈ (p.code (b :: rest)).filterMap Step.label?) :
    ∃ tail, l = ".L" ++ p.func.name ++ "." ++ tail := by
  rw [labels_code, mem_append, mem_map, mem_map] at hl
  rcases hl with ⟨c, -, rfl⟩ | ⟨s, -, rfl⟩
  · exact ⟨p.func.label c, rfl⟩
  · exact ⟨_, p.func.edgeLabel_eq s.pred s.succ⟩

end Placed

theorem eq_of_local_eq {name name' tail tail' : String} (h : '.' ∉ name.toList)
    (h' : '.' ∉ name'.toList) (heq : ".L" ++ name ++ "." ++ tail = ".L" ++ name' ++ "." ++ tail') :
    name = name' := by
  have hlist := congrArg String.toList heq
  simp only [String.toList_append, append_assoc, append_cancel_left_eq] at hlist
  exact String.toList_inj.1 (eq_of_append_dot h h' hlist).1

theorem Placed.disjoint_labels {p q : Placed} (hp : p.func.WellFormed) (hq : q.func.WellFormed)
    (hne : p.func.name ≠ q.func.name) (b c : BlockId) (rest rest' : List BlockId) :
    (p.func.name :: (p.code (b :: rest)).filterMap Step.label?).Disjoint
      (q.func.name :: (q.code (c :: rest')).filterMap Step.label?) := by
  have hpdot := dot_notMem_of_isSymbol hp.isSymbol_name
  have hqdot := dot_notMem_of_isSymbol hq.isSymbol_name
  have hdot : ∀ name tail : String, '.' ∈ (".L" ++ name ++ "." ++ tail).toList := by
    simp [String.toList_append]
  intro l hl hl'
  rcases mem_cons.1 hl with rfl | hl
  · rcases mem_cons.1 hl' with heq | hl'
    · exact hne heq
    · obtain ⟨tail, heq⟩ := exists_of_mem_labels_code hl'
      exact hpdot (heq ▸ hdot _ _)
  · obtain ⟨tail, rfl⟩ := exists_of_mem_labels_code hl
    rcases mem_cons.1 hl' with heq | hl'
    · exact hqdot (heq ▸ hdot _ _)
    · obtain ⟨tail', heq⟩ := exists_of_mem_labels_code hl'
      exact hne (eq_of_local_eq hpdot hqdot heq)

namespace Placed

variable {p : Placed} (wf : p.func.WellFormed)

include wf

theorem isReference_of_target {layout : List BlockId} (hs : s ∈ p.code (0 :: layout))
    (hl : s.target? = some l) : isReference l = true := by
  rcases target_of_mem_code hs hl with ⟨b, -, succ, -, rfl⟩ | ⟨stub, -, rfl⟩
  · exact wf.isReference_blockLabel succ
  · exact wf.isReference_edgeLabel stub.pred stub.succ

end Placed

theorem Isa.assemble_append (isa : Isa) (o : Options) (frame : Frame) (name : String)
    (steps steps' : List Step) :
    isa.assemble o frame name (steps ++ steps') =
      isa.assemble o frame name steps ++ steps'.flatMap (isa.stepLines o frame) := by
  simp [assemble]

def Line.IsEdgeOf (f : Function) (line : Line) : Prop :=
  ∃ pred succ, line = .label (f.edgeLabel pred succ)

theorem Function.WellFormed.not_isEdgeOf {f : Function} (wf : f.WellFormed) {a : Assembly}
    (h : ∀ l ∈ a.labels, l = f.name ∨ ∃ b < f.blocks.length, l = f.blockLabel b) :
    ∀ line ∈ a, ¬ line.IsEdgeOf f := by
  rintro line hline ⟨pred, succ, rfl⟩
  rcases h _ (Assembly.label_mem_iff.1 hline) with hname | ⟨b, hb, hlabel⟩
  · refine dot_notMem_of_isSymbol wf.isSymbol_name ?_
    rw [← hname]
    simp [edgeLabel, String.toList_append]
  · exact wf.edgeLabel_ne_blockLabel pred succ hb hlabel

section Assembled

variable {p : Placed} (wf : p.func.WellFormed) {rest : List BlockId} (arch : Arch) (o : Options)
  (frame : Frame)

include wf

theorem Arch.exists_exit_assemble (hsteps : steps ⊆ p.code (0 :: rest))
    (hexit : ∃ s, steps.getLast? = some s ∧ s.isExit = true) :
    arch.dialect.EndsAtExit (arch.isa.assemble o frame p.func.name steps) := by
  obtain ⟨s, hs, hexit⟩ := hexit
  obtain ⟨line, hline, hexit⟩ := arch.endsAtExit_of_getLast? o frame hs hexit fun l hl =>
    Placed.isReference_of_target wf (hsteps (mem_of_getLast? hs)) hl
  exact ⟨line, by rw [Isa.assemble, getLast?_append, hline]; rfl, hexit⟩

theorem Arch.exists_exit_before (hperm : (0 :: rest).Perm p.func.blockIds) {pre post : List Line}
    {pred succ : BlockId}
    (hsplit : arch.isa.assemble o frame p.func.name (p.code (0 :: rest)) =
      pre ++ .label (p.func.edgeLabel pred succ) :: post) : arch.dialect.EndsAtExit pre := by
  have hlt : ∀ b ∈ 0 :: rest, b < p.func.blocks.length := fun b hb =>
    mem_range.1 (hperm.mem_iff.1 hb)
  -- labels of edges stand in front of the code of edges, and nowhere else
  have hfront : ∀ line ∈ arch.isa.assemble o frame p.func.name
      (p.paramCode ++ (p.layoutCode (0 :: rest)).drop 1), ¬ line.IsEdgeOf p.func := by
    refine wf.not_isEdgeOf fun l hl => ?_
    rw [Assembly.labels_assemble, mem_cons, filterMap_append, mem_append,
      filterMap_label?_eq_nil fun name => Placed.label_notMem_paramCode name] at hl
    rcases hl with rfl | hl | hl
    · exact .inl rfl
    · cases hl
    · obtain ⟨s, hs, hl⟩ := mem_filterMap.1 hl
      cases s with
      | label name =>
        obtain ⟨b, hb, rfl⟩ := Placed.mem_of_label_mem_layoutCode (mem_of_mem_drop hs)
        exact .inr ⟨b, hlt b hb, (Option.some.inj hl).symm⟩
      | _ => cases hl
  have hbody : ∀ s ∈ p.layoutStubs (0 :: rest),
      (∀ line ∈ (p.stubBody s).flatMap (arch.isa.stepLines o frame), ¬ line.IsEdgeOf p.func) ∧
      arch.dialect.EndsAtExit ((p.stubBody s).flatMap (arch.isa.stepLines o frame)) := by
    intro s _
    refine ⟨wf.not_isEdgeOf fun l hl => ?_, ?_⟩
    · rw [Assembly.labels_stepLines,
        filterMap_label?_eq_nil fun name => Placed.label_notMem_stubBody name s] at hl
      cases hl
    · refine arch.endsAtExit_of_getLast? o frame (Placed.getLast?_stubBody s) rfl ?_
      rintro l ⟨⟩
      exact wf.isReference_blockLabel s.succ
  have hassemble : arch.isa.assemble o frame p.func.name (p.code (0 :: rest)) =
      arch.isa.assemble o frame p.func.name (p.paramCode ++ (p.layoutCode (0 :: rest)).drop 1) ++
        (p.layoutStubs (0 :: rest)).flatMap fun s =>
          .label (p.stubLabel s) :: (p.stubBody s).flatMap (arch.isa.stepLines o frame) := by
    rw [Placed.code, Isa.assemble_append, flatMap_assoc]
    rfl
  rw [hassemble] at hsplit
  exact exists_last_before hbody hfront (arch.exists_exit_assemble wf o frame
    (fun s hs => mem_append_left _ hs) (Placed.exists_exit_blocks 0 rest)) hsplit
    ⟨pred, succ, rfl⟩

end Assembled

/-- Labels of generated code are unique and closed, on every architecture and for every way to place
the values and to lay out the blocks. No label stands in the code twice; everything that a jump or
branch goes to is a label of the code; the entry has no label, and nothing goes there; at the end of
the code, and before the code of each edge, stands a jump or a return; and the code of a function with
another name has other labels. -/
theorem Arch.labels_unique_and_closed {f : Function} (hf : f.IsBuilt) (arch : Arch)
    (hcheck : f.unsupported arch.target = []) {alloc : Allocation}
    (htotal : Placed.Total ⟨f, alloc, arch.target⟩) {layout : List BlockId}
    (hperm : layout.Perm f.blockIds) (hentry : layout.head? = some 0) (o : Options) :
    ∃ a frame, arch.isa.generate f alloc layout o = .ok (a, frame) ∧
      a.labels.Nodup ∧
      (∀ line ∈ a, ∀ l, arch.dialect.target? line = some l → l ∈ a.labels) ∧
      f.blockLabel 0 ∉ a.labels ∧
      (∀ line ∈ a, arch.dialect.target? line ≠ some (f.blockLabel 0)) ∧
      (∃ line, a.getLast? = some line ∧ arch.dialect.isExit line = true) ∧
      (∀ pre post pred succ, a = pre ++ .label (f.edgeLabel pred succ) :: post →
        ∃ line, pre.getLast? = some line ∧ arch.dialect.isExit line = true) ∧
      ∀ g : Function, g.IsBuilt → g.name ≠ f.name → ∀ (arch' : Arch) (alloc' : Allocation),
        Placed.Total ⟨g, alloc', arch'.target⟩ → ∀ layout' : List BlockId,
        layout'.Perm g.blockIds → ∀ (o' : Options) (a' : Assembly) (frame' : Frame),
        arch'.isa.generate g alloc' layout' o' = .ok (a', frame') → a.labels.Disjoint a'.labels := by
  have wf := hf.wellFormed
  obtain ⟨rest, rfl⟩ := List.head?_eq_some_iff.1 hentry
  have hlt : ∀ b ∈ 0 :: rest, b < f.blocks.length := fun b hb =>
    List.mem_range.1 (hperm.mem_iff.1 hb)
  have hlabels := fun frame steps => Assembly.labels_assemble arch.isa o frame f.name steps
  have htargets : ∀ line ∈ arch.isa.assemble o (arch.frame f alloc) f.name
      (Placed.code ⟨f, alloc, arch.target⟩ (0 :: rest)), ∀ l, arch.dialect.target? line = some l →
        l ∈ (Placed.code ⟨f, alloc, arch.target⟩ (0 :: rest)).filterMap Step.label? := by
    intro line hline l hl
    obtain ⟨s, hs, hl⟩ := arch.exists_of_target_assemble o _ (fun s hs l hl =>
      Placed.isReference_of_target (p := ⟨f, alloc, arch.target⟩) wf hs hl) hline hl
    exact Placed.target_mem_labels_code (p := ⟨f, alloc, arch.target⟩) wf hperm hs hl
  have hnone := Placed.entry_notMem_labels_code (p := ⟨f, alloc, arch.target⟩) wf hperm
  refine ⟨_, _, generate_of_total wf hcheck htotal hperm o, ?_, ?_, ?_, ?_, ?_, ?_, ?_⟩
  · rw [hlabels, List.nodup_cons]
    exact ⟨Placed.name_notMem_labels_code (p := ⟨f, alloc, _⟩) wf 0 rest,
      Placed.nodup_labels_code (p := ⟨f, alloc, _⟩) wf hlt (hperm.nodup_iff.2 List.nodup_range)⟩
  · intro line hline l hl
    rw [hlabels]
    exact List.mem_cons_of_mem _ (htargets line hline l hl)
  · rw [hlabels, List.mem_cons]
    rintro (hname | hmem)
    · refine dot_notMem_of_isSymbol wf.isSymbol_name ?_
      rw [← hname]
      simp [Function.blockLabel, String.toList_append]
    · exact hnone hmem
  · exact fun line hline hl => hnone (htargets line hline _ hl)
  · exact arch.exists_exit_assemble (p := ⟨f, alloc, _⟩) wf o _ (List.Subset.refl _)
      (Placed.exists_exit_code 0 rest)
  · exact fun pre post pred succ hsplit =>
      arch.exists_exit_before (p := ⟨f, alloc, _⟩) wf o _ hperm hsplit
  · intro g hg hne arch' alloc' htotal' layout' hperm' o' a' frame' hgen
    obtain ⟨steps, hsteps, ha', -⟩ := Isa.exists_of_generate hgen
    rw [arch'.target_isa, Placed.schedule_eq htotal' hg.wellFormed fun b hb =>
      List.mem_range.1 (hperm'.mem_iff.1 hb)] at hsteps
    cases hsteps
    obtain ⟨c, rest', rfl⟩ : ∃ c rest', layout' = c :: rest' := by
      have hmem := hperm'.mem_iff.2 (List.mem_range.2 hg.wellFormed.hasEntry)
      cases layout' with
      | nil => cases hmem
      | cons c rest' => exact ⟨c, rest', rfl⟩
    rw [show a' = _ from ha', hlabels, Assembly.labels_assemble]
    exact Placed.disjoint_labels (p := ⟨f, alloc, _⟩) (q := ⟨g, alloc', _⟩) wf hg.wellFormed hne.symm
      0 c rest rest'

/-- The sample on RISC-V with its blocks in another order. -/
theorem Arch.labels_drain :
    Function.drain.IsBuilt ∧ Function.drain.unsupported riscv64.target = [] ∧
      [0, 2, 1].Perm Function.drain.blockIds ∧
      ∃ alloc a frame, Strategy.graphColoring.allocate Function.drain riscv64.target none = .ok alloc ∧
        Placed.Total ⟨Function.drain, alloc, riscv64.target⟩ ∧
        riscv64.isa.generate Function.drain alloc [0, 2, 1] ⟨false⟩ = .ok (a, frame) ∧
        a.labels.Nodup ∧
        (∀ line ∈ a, ∀ l, riscv64.dialect.target? line = some l → l ∈ a.labels) ∧
        ∃ line, a.getLast? = some line ∧ riscv64.dialect.isExit line = true := by
  have hcheck : Function.drain.unsupported riscv64.target = [] := by decide
  have hperm : [0, 2, 1].Perm Function.drain.blockIds := by decide
  obtain ⟨alloc, halloc⟩ : ∃ alloc,
      Strategy.graphColoring.allocate Function.drain riscv64.target none = .ok alloc := ⟨_, rfl⟩
  have hfits := Strategy.fits_of_allocate Function.isBuilt_drain.wellFormed
    riscv64.nodup_allocatable halloc
  have htotal : Placed.Total ⟨Function.drain, alloc, riscv64.target⟩ := fun v hv =>
    (hfits.domain v).2 hv
  obtain ⟨a, frame, hgen, hnodup, htargets, -, -, hlast, -⟩ := labels_unique_and_closed
    Function.isBuilt_drain riscv64 hcheck htotal hperm rfl ⟨false⟩
  exact ⟨Function.isBuilt_drain, hcheck, hperm, alloc, a, frame, halloc, htotal, hgen, hnodup,
    htargets, hlast⟩

end SsaBackend
