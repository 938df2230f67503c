import SsaBackend.Proofs.Arm64.Decode
import SsaBackend.Proofs.LoadStore

/-!
# What code generation for arm64 writes

The code of a step consists of few kinds of instructions (`emitted_lower`), and so do prologues and
epilogues (`Framed`). All of them are proper (`lower_proper`): their registers exist, chunks of literals
have 16 bits, and no load changes the register that it gets its address from. Loads go through the stack
pointer, the frame pointer and `x17`, which hold no values.
-/

namespace SsaBackend.Arm64

open List

variable {r dst : Register} {i : Instr}

def isFree (r : Register) : Bool := wholeRegs.contains r && !(["sp", "x17", "x29"].contains r)

theorem isFree_iff : isFree r = true ↔ r ∈ wholeRegs ∧ r ∉ ["sp", "x17", "x29"] := by
  simp [isFree]

theorem isFree_of_mem_calleeSaved (h : r ∈ target.calleeSaved) : isFree r = true := by
  revert r
  decide

theorem mem_of_isFree (h : isFree r = true) : r ∈ wholeRegs := (isFree_iff.1 h).1

theorem mem_of_mem_valueRegs (h : r ∈ target.valueRegs) : r ∈ wholeRegs := by
  revert r
  decide

/-! ### Literals and addresses -/

/-- A chunk of a literal with its shift. -/
structure IsChunk (chunk shift : Nat) : Prop where
  chunk : 1 ≤ chunk ∧ chunk ≤ 65535
  shift : shift ∈ [0, 16, 32, 48]

theorem IsChunk.lt {chunk shift : Nat} (h : IsChunk chunk shift) : chunk < 65536 ∧ shift < 64 := by
  have hall : ∀ s ∈ [0, 16, 32, 48], s < 64 := by decide
  exact ⟨Nat.lt_succ_of_le h.chunk.2, hall shift h.shift⟩

theorem isChunk_of_mem {value : Int} {c : Nat × Nat} (h : c ∈ chunks value) : IsChunk c.1 c.2 := by
  simp only [chunks, mem_filterMap] at h
  obtain ⟨shift, hshift, h⟩ := h
  split at h
  · cases h
  · next hne =>
    cases h
    exact ⟨⟨Nat.pos_of_ne_zero hne, Nat.le_of_lt_succ (Nat.mod_lt _ (by decide))⟩, hshift⟩

/-- A part of a literal that is put together in a register. -/
inductive Literal (dst : Register) : Instr → Prop
  | mov {value : Int} (h : -65536 ≤ value ∧ value ≤ 65535) : Literal dst (.mov dst (.imm value))
  | movz {chunk shift : Nat} (h : IsChunk chunk shift) : Literal dst (.movz dst chunk shift)
  | movk {chunk shift : Nat} (h : IsChunk chunk shift) : Literal dst (.movk dst chunk shift)

theorem literal_materialize (dst : Register) (value : Int) :
    ∀ i ∈ materialize dst value, Literal dst i := by
  unfold materialize
  split
  · next h => exact forall_mem_singleton.2 (.mov h)
  · split
    · simp
    · next chunk shift rest heq =>
      have hc : ∀ c ∈ (chunk, shift) :: rest, IsChunk c.1 c.2 := fun c hc =>
        isChunk_of_mem (heq ▸ hc)
      refine forall_mem_cons.2 ⟨.movz (hc (chunk, shift) mem_cons_self), ?_⟩
      exact forall_mem_map.2 fun c hmem => .movk (hc c (mem_cons_of_mem _ hmem))

theorem Literal.proper (hdst : dst ∈ wholeRegs) (h : Literal dst i) : i.Proper := by
  cases h with
  | mov => exact ⟨hdst, trivial⟩
  | movz h | movk h => exact ⟨hdst, h.lt⟩

theorem materialize_proper (hdst : dst ∈ wholeRegs) (value : Int) :
    ∀ i ∈ materialize dst value, i.Proper := fun i hi =>
  (literal_materialize dst value i hi).proper hdst

theorem literal_or_of_mem_spAddress {offset : Nat} (h : i ∈ (spAddress offset).1) :
    Literal farAddr i ∨ i = .alu .add farAddr "sp" (.reg farAddr) := by
  unfold spAddress at h
  split at h
  · cases h
  · rcases mem_append.1 h with h | h
    · exact .inl (literal_materialize _ _ i h)
    · exact .inr (mem_singleton.1 h)

theorem proper_point : (Instr.alu .add farAddr "sp" (.reg farAddr)).Proper :=
  ⟨by decide, by decide, show farAddr ∈ wholeRegs by decide, fun h => by cases h⟩

theorem spAddress_proper (offset : Nat) :
    (∀ i ∈ (spAddress offset).1, i.Proper) ∧ (spAddress offset).2.base ∈ ["sp", "x17", "x29"] := by
  refine ⟨fun i hi => ?_, ?_⟩
  · rcases literal_or_of_mem_spAddress hi with h | rfl
    · exact h.proper (by decide)
    · exact proper_point
  · unfold spAddress
    split <;> simp [farAddr]

theorem offset_spAddress (offset : Nat) :
    (spAddress offset).2.offset % 8 = 0 ∧ (spAddress offset).2.offset ≤ maxOffset := by
  unfold spAddress
  split
  · assumption
  · exact ⟨rfl, Nat.zero_le _⟩

theorem mem_wholeRegs_of_base (h : r ∈ ["sp", "x17", "x29"]) : r ∈ wholeRegs := by
  revert r
  decide

theorem ldr_proper (hdst : isFree dst = true) {a : Address} (ha : a.base ∈ ["sp", "x17", "x29"]) :
    (Instr.ldr dst a).Proper :=
  ⟨mem_of_isFree hdst, mem_wholeRegs_of_base ha, fun heq => (isFree_iff.1 hdst).2 (heq ▸ ha)⟩

/-! ### Steps -/

variable {rs : List Register} {f : Frame} {s : Step}

def compute (f : Frame) (op : BinOp) (work left : Register) (rhs : Operand) : List Instr :=
  match select op with
  | .compare cond =>
    (rightArg f true rhs).1 ++ [.cmp left (rightArg f true rhs).2, .cset work cond]
  | .arith alu =>
    (rightArg f (op = .add || op = .sub) rhs).1 ++
      [.alu alu work left (rightArg f (op = .add || op = .sub) rhs).2]

def pieces : LoadStore Instr where
  target := target
  left := tmp0
  right := tmp1
  result := result
  literal dst value := materialize dst value.toInt
  copy dst src := .mov dst (.reg src)
  point offset := (spAddress offset).1
  loadWord dst offset := .ldr dst (spAddress offset).2
  storeWord src offset := .str src (spAddress offset).2
  fetch dst index := .ldr dst ⟨"x29", fixedArea + 8 * index⟩
  storeAt src base := .str src ⟨base, 0⟩
  compute := compute
  call := .bl
  jump := .b
  branch := .cbnz

theorem passOnStack_eq (index : Nat) (o : Operand) : passOnStack f index o = pieces.pass f index o :=
  append_assoc _ _ _

theorem lower_eq (options : Options) (h : s ≠ .epilogue) : lower options f s = pieces.lower f s := by
  cases s with
  | epilogue => exact absurd rfl h
  | binop op => cases op <;> rfl
  | call callee args dst =>
    simp only [lower, call, passOnStack_eq]
    rfl
  | _ => rfl

def workRegs (rs : List Register) : List Register := pieces.workRegs rs

def Arg.Right (rs : List Register) : Arg → Prop
  | reg r => r ∈ workRegs rs
  | imm value => 0 ≤ value ∧ value ≤ 4095

inductive Own (rs : List Register) : Instr → Prop
  | literal {dst : Register} {i : Instr} (hdst : dst ∈ farAddr :: workRegs rs) (h : Literal dst i) :
    Own rs i
  | point : Own rs (.alu .add farAddr "sp" (.reg farAddr))
  | alu {op : Alu} {dst lhs : Register} {rhs : Arg} (hdst : dst ∈ workRegs rs) (hlhs : lhs ∈ workRegs rs)
    (hrhs : rhs.Right rs) (hop : ∀ value, rhs = .imm value → op = .add ∨ op = .sub) :
    Own rs (.alu op dst lhs rhs)
  | cmp {lhs : Register} {rhs : Arg} (hlhs : lhs ∈ workRegs rs) (hrhs : rhs.Right rs) :
    Own rs (.cmp lhs rhs)
  | cset {dst : Register} (hdst : dst ∈ workRegs rs) (cond : Cond) : Own rs (.cset dst cond)

theorem eq_immediate_of_arithImm? {rhs : Operand} {imm : Int} (h : arithImm? rhs = some imm) :
    ∃ value, rhs = .immediate value ∧ imm = value.toInt ∧ 0 ≤ imm ∧ imm ≤ maxArithImm := by
  cases rhs with
  | immediate value =>
    simp only [arithImm?] at h
    split at h
    · next hfits =>
      cases h
      exact ⟨value, rfl, rfl, hfits⟩
    · cases h
  | register | stack => cases h

theorem rightArg_cases {P : List Instr → Prop} (hnil : P []) {rhs : Operand}
    (hread : P (read f tmp1 rhs).1 ∧ (read f tmp1 rhs).2 ∈ workRegs rs) (allowImm : Bool) :
    P (rightArg f allowImm rhs).1 ∧ (rightArg f allowImm rhs).2.Right rs ∧
      ∀ value, (rightArg f allowImm rhs).2 = .imm value → allowImm = true := by
  unfold rightArg
  split
  · next imm heq =>
    split at heq
    · next hallow =>
      obtain ⟨-, -, -, hbounds⟩ := eq_immediate_of_arithImm? heq
      exact ⟨hnil, hbounds, fun _ _ => hallow⟩
    · cases heq
  · exact ⟨hread.1, hread.2, by simp⟩

theorem emitted_lower (options : Options) (hs : ∀ o ∈ s.operands, o.Within rs)
    (h : s ≠ .epilogue) : ∀ i ∈ lower options f s, pieces.Emitted (Own rs) rs f s i := by
  rw [lower_eq options h]
  refine LoadStore.emitted_lower hs (fun dst hdst value i hi => ?_) (fun offset i hi => ?_)
    fun {op _ _ rhs w l} _ hw hl hread => ?_
  · exact .literal (mem_cons_of_mem _ hdst) (literal_materialize _ _ i hi)
  · rcases literal_or_of_mem_spAddress hi with h | rfl
    · exact .literal mem_cons_self h
    · exact .point
  · have hright := rightArg_cases (P := fun is => ∀ i ∈ is, pieces.Emitted (Own rs) rs f s i) (by simp)
      hread
    show ∀ i ∈ compute f op w l rhs, _
    unfold compute
    split
    · next cond _ =>
      obtain ⟨hsetup, harg, -⟩ := hright true
      exact forall_mem_append.2 ⟨hsetup, forall_mem_cons.2
        ⟨.own (.cmp hl harg), forall_mem_singleton.2 (.own (.cset hw cond))⟩⟩
    · next alu hselect =>
      obtain ⟨hsetup, harg, himm⟩ := hright (op = .add || op = .sub)
      refine forall_mem_append.2 ⟨hsetup,
        forall_mem_singleton.2 (.own (.alu hw hl harg fun value hvalue => ?_))⟩
      have hallow := himm value hvalue
      simp only [Bool.or_eq_true, decide_eq_true_eq] at hallow
      rcases hallow with rfl | rfl
      · exact .inl (Selection.arith.inj hselect).symm
      · exact .inr (Selection.arith.inj hselect).symm

theorem Own.proper (h : Own target.valueRegs i) : i.Proper := by
  have hmem : ∀ {r}, r ∈ farAddr :: workRegs target.valueRegs → r ∈ wholeRegs := by decide
  have hwork : ∀ {r}, r ∈ workRegs target.valueRegs → r ∈ wholeRegs := fun hr =>
    hmem (mem_cons_of_mem _ hr)
  have hright : ∀ {a : Arg}, a.Right target.valueRegs → a.Proper := by
    intro a ha
    cases a with
    | reg r => exact hwork ha
    | imm value => trivial
  cases h with
  | literal hdst h => exact h.proper (hmem hdst)
  | point => exact proper_point
  | @alu op dst lhs rhs hdst hlhs hrhs hop =>
    refine ⟨hwork hdst, hwork hlhs, hright hrhs, ?_⟩
    -- only additions and subtractions take literals
    rintro rfl
    cases rhs with
    | reg r => exact ⟨r, rfl⟩
    | imm value => exact absurd (hop value rfl) (by decide)
  | cmp hlhs hrhs => exact ⟨hwork hlhs, hright hrhs⟩
  | cset hdst => exact hwork hdst

theorem call_or_proper (h : pieces.Emitted (Own target.valueRegs) target.valueRegs f s i)
    (hs : s.Regular target.valueRegs) :
    (∃ callee args dst, s = .call callee args dst ∧ i = .bl callee) ∨ i.Proper := by
  have hwork : ∀ r ∈ workRegs target.valueRegs, isFree r = true := by decide
  have hmem : ∀ {r}, r ∈ workRegs target.valueRegs → r ∈ wholeRegs := fun hr => mem_of_isFree (hwork _ hr)
  cases h with
  | own h => exact .inr h.proper
  | copy hdst hsrc => exact .inr ⟨hmem hdst, hmem hsrc⟩
  | load hdst offset => exact .inr (ldr_proper (hwork _ hdst) (spAddress_proper offset).2)
  | fetch _ hdst => exact .inr (ldr_proper (hwork _ hdst) (by simp))
  | store hsrc => exact .inr ⟨hmem hsrc, mem_wholeRegs_of_base (spAddress_proper _).2⟩
  | storeAt hsrc hbase => exact .inr ⟨hmem hsrc, hmem hbase⟩
  | call heq => exact .inl ⟨_, _, _, heq, rfl⟩
  | jump heq =>
    subst heq
    exact .inr hs
  | branch heq hr =>
    subst heq
    exact .inr ⟨hmem hr, hs.2⟩

/-! ### The frame -/

inductive Framed (f : Frame) : Instr → Prop
  | literal {dst : Register} {i : Instr} (hdst : dst ∈ [farSize, farAddr]) (h : Literal dst i) :
    Framed f i
  | point : Framed f (.alu .add farAddr "sp" (.reg farAddr))
  | lower {a : Arg} (ha : a.Proper) : Framed f (.alu .sub "sp" "sp" a)
  | save {r : Register} (hr : r ∈ f.saved) (offset : Nat) : Framed f (.str r (spAddress offset).2)
  | restore {r : Register} (hr : r ∈ f.saved) (offset : Nat) : Framed f (.ldr r (spAddress offset).2)
  | push : Framed f (.stpPush "x29" "x30" fixedArea)
  | pop : Framed f (.ldpPop "x29" "x30" fixedArea)
  | setFrame : Framed f (.mov "x29" (.reg "sp"))
  | leave : Framed f (.mov "sp" (.reg "x29"))
  | sign : Framed f .paciasp
  | authenticate : Framed f .autiasp
  | ret : Framed f .ret

theorem framed_access {g : Address → Instr} {offset : Nat} (h : Framed f (g (spAddress offset).2)) :
    ∀ i ∈ (spAddress offset).1 ++ [g (spAddress offset).2], Framed f i := by
  refine forall_mem_append.2 ⟨fun i hi => ?_, forall_mem_singleton.2 h⟩
  rcases literal_or_of_mem_spAddress hi with h | rfl
  · exact .literal (by simp) h
  · exact .point

theorem framed_saveRegs (f : Frame) : ∀ i ∈ saveRegs f, Framed f i :=
  forall_mem_flatMap.2 fun _ hr => framed_access (.save (fst_mem_of_mem_zipIdx hr) _)

theorem framed_restoreRegs (f : Frame) : ∀ i ∈ restoreRegs f, Framed f i :=
  forall_mem_flatMap.2 fun _ hr => framed_access (.restore (fst_mem_of_mem_zipIdx hr) _)

theorem framed_prologue (options : Options) (f : Frame) : ∀ i ∈ prologue options f, Framed f i := by
  unfold prologue
  simp only [forall_mem_append, forall_mem_cons]
  refine ⟨⟨⟨?_, .push, .setFrame, by simp⟩, ?_⟩, framed_saveRegs f⟩
  · split
    · exact forall_mem_singleton.2 .sign
    · simp
  · unfold lowerStack
    split
    · simp
    · split
      · exact forall_mem_singleton.2 (.lower trivial)
      · exact forall_mem_append.2 ⟨fun i hi => .literal (by simp) (literal_materialize _ _ i hi),
          forall_mem_singleton.2 (.lower (show farSize ∈ wholeRegs by decide))⟩

theorem framed_epilogue (options : Options) (f : Frame) : ∀ i ∈ epilogue options f, Framed f i := by
  unfold epilogue
  simp only [forall_mem_append, forall_mem_cons]
  refine ⟨⟨⟨framed_restoreRegs f, .leave, .pop, by simp⟩, ?_⟩, .ret, by simp⟩
  split
  · exact forall_mem_singleton.2 .authenticate
  · simp

section Proper

variable (hsaved : ∀ r ∈ f.saved, r ∈ target.calleeSaved)

include hsaved

theorem Framed.proper (h : Framed f i) : i.Proper := by
  have hsp : "sp" ∈ wholeRegs := by decide
  have hfp : "x29" ∈ wholeRegs := by decide
  have hlr : "x30" ∈ wholeRegs := by decide
  cases h with
  | literal hdst h =>
    have hall : ∀ r ∈ [farSize, farAddr], r ∈ wholeRegs := by decide
    exact h.proper (hall _ hdst)
  | point => exact proper_point
  | lower ha => exact ⟨hsp, hsp, ha, fun h => by cases h⟩
  | save hr offset =>
    exact ⟨mem_of_isFree (isFree_of_mem_calleeSaved (hsaved _ hr)),
      mem_wholeRegs_of_base (spAddress_proper offset).2⟩
  | restore hr offset =>
    exact ldr_proper (isFree_of_mem_calleeSaved (hsaved _ hr)) (spAddress_proper offset).2
  | push | pop => exact ⟨hfp, hlr⟩
  | setFrame => exact ⟨hfp, hsp⟩
  | leave => exact ⟨hsp, hfp⟩
  | sign | authenticate | ret => trivial

theorem prologue_proper (options : Options) : ∀ i ∈ prologue options f, i.Proper := fun i hi =>
  (framed_prologue options f i hi).proper hsaved

theorem epilogue_proper (options : Options) : ∀ i ∈ epilogue options f, i.Proper := fun i hi =>
  (framed_epilogue options f i hi).proper hsaved

end Proper

variable (hsaved : s = .epilogue → ∀ r ∈ f.saved, r ∈ target.calleeSaved) (options : Options)

include hsaved

theorem call_or_proper_of_mem_lower (hs : s.Regular target.valueRegs) : ∀ i ∈ lower options f s,
    (∃ callee args dst, s = .call callee args dst ∧ i = .bl callee) ∨ i.Proper := by
  intro i hi
  by_cases h : s = .epilogue
  · subst h
    exact .inr (epilogue_proper (hsaved rfl) options i hi)
  · exact call_or_proper (emitted_lower options hs.within h i hi) hs

theorem lower_proper (hs : s.Proper target.valueRegs) : ∀ i ∈ lower options f s, i.Proper := by
  intro i hi
  rcases call_or_proper_of_mem_lower hsaved options hs.regular i hi with ⟨_, _, _, rfl, rfl⟩ | hproper
  · exact hs.1
  · exact hproper

end SsaBackend.Arm64
