import SsaBackend.Proofs.Riscv64.Literal
import SsaBackend.Proofs.Check.Body

/-!
# Footprints of riscv64 instructions

The text of an instruction shows a tracker which registers it reads, writes, saves and restores, and
for the parts of a literal also what they add up to (`Instr.Proper.leaves`). Instructions that move
the stack pointer or set the frame pointer have no footprint of their own here; they stand in
prologues and epilogues only. Loading the frame pointer back is a load like any other.

The code of a step in the frame is tidy (`lower_tidy`): it reads what the step reads, scratch registers
that it has just written, and the stack and frame pointer; and of the registers that the caller wants
back it stores only saved ones.
-/

namespace SsaBackend.Riscv64

open Listing Text

variable {r : Register}

/-! ### Registers of operands -/

theorem isName_of_mem (h : r ∈ "zero" :: wholeRegs) : isName r.toList = true := by
  revert r
  decide

theorem names_of_mem (h : r ∈ "zero" :: wholeRegs) : names r = [r] := by
  have hruns : nameRuns (r.toList ++ []) = [r.toList] := nameRuns_name (isName_of_mem h) (by simp)
  rw [names_eq, ← List.append_nil r.toList, hruns]
  simp

theorem names_whole (h : r ∈ wholeRegs) : names r = [r] :=
  names_of_mem (List.mem_cons_of_mem _ h)

theorem names_number (value : Int) : names (toString value) = [] := by
  rw [names_eq, ← List.append_nil (toString value).toList, nameRuns_toString_int value (by simp)]
  rfl

theorem flatMap_names_number (value : Int) : [toString value].flatMap names = [] := by
  rw [List.flatMap_singleton, names_number]

theorem Address.names_render {a : Address} (h : a.base ∈ wholeRegs) : names a.render = [a.base] := by
  have hlist : a.render.toList = (toString (a.offset : Int)).toList ++ '(' :: (a.base.toList ++ [')']) :=
    a.toList_render
  have hname := isName_of_mem (List.mem_cons_of_mem _ h)
  rw [names_eq, hlist, nameRuns_toString_int _ (by simp; decide), nameRuns_cons (by decide),
    nameRuns_name hname (by simp; decide)]
  have hclose : nameRuns [')'] = [] := nameRuns_cons (by decide) []
  simp [hclose]

theorem isMemory_of_mem (h : r ∈ wholeRegs) : isMemory r = false := by
  revert r
  decide

/-! ### Footprints -/

def frameRegs : List Register := ["sp", "s0"]

def onFree (dst : Register) (p : Footprint) : Option Footprint :=
  if dst ∈ frameRegs then none else some { p with written := [dst] }

def ImmOp.foresee (op : ImmOp) (lhs : Register) (value : Int) (k : Constants) : Option Int64 :=
  match op with
  | addi | addiw | slli => do return op.apply (← k.get? lhs) (← word? value)
  | andi | ori | xori | sltiu => none

def Instr.footprint? : Instr → Option Footprint
  | li dst value => onFree dst { Footprint.idle with value := fun _ => word? value }
  | lui dst value => onFree dst { Footprint.idle with
      value := fun _ => (word? value).map fun w : Int64 => word (w <<< 12) }
  | mv dst src => onFree dst { Footprint.idle with read := [src], value := fun k => k.get? src }
  | reg _ dst lhs rhs => onFree dst { Footprint.idle with read := [lhs, rhs] }
  | imm op dst lhs value => onFree dst { Footprint.idle with
      read := [lhs], value := op.foresee lhs value }
  | ld dst address =>
    if dst = "sp" then none
    else some { Footprint.idle with restored := [dst], written := [dst], read := [address.base] }
  | sd src address => some { Footprint.idle with saved := [src], read := [src, address.base] }
  | call _ => some { Footprint.idle with isCall := true }
  | j _ => some .idle
  | bnez cond _ => some { Footprint.idle with read := [cond] }
  | ret => none

theorem eq_of_onFree {dst : Register} {p q : Footprint} (h : onFree dst p = some q) :
    dst ∉ frameRegs ∧ q = { p with written := [dst] } := by
  unfold onFree at h
  split at h
  · cases h
  · next hdst =>
    cases h
    exact ⟨hdst, rfl⟩

/-! ### Instructions with a destination -/

def dataMnemonics : List String :=
  ["li", "lui", "mv", "add", "sub", "mul", "div", "and", "or", "xor", "slt", "sltu", "addi", "addiw",
    "andi", "ori", "xori", "slli", "sltiu", "ld"]

theorem RegOp.mnemonic_mem (op : RegOp) : op.mnemonic ∈ dataMnemonics ∧ op.mnemonic ≠ "ld" := by
  cases op <;> decide

theorem ImmOp.mnemonic_mem (op : ImmOp) : op.mnemonic ∈ dataMnemonics ∧ op.mnemonic ≠ "ld" := by
  cases op <;> decide

section Data

variable {m : String} {dst : Register} (rest : List String) (n : Nat) (text : String)

theorem stackEffects_data (hdst : dst ∈ wholeRegs) (hfree : dst ∉ frameRegs) (k : Constants) :
    stackEffects k ⟨m, dst :: rest, n, text⟩ = [] := by
  have hall : ∀ r ∈ wholeRegs, r ∉ frameRegs → r ≠ "sp" ∧ isFramePointer r = false := by decide
  obtain ⟨hsp, hfp⟩ := hall dst hdst hfree
  have hother : otherEffects ⟨m, dst :: rest, n, text⟩ = [] := by simp [otherEffects, hsp]
  unfold stackEffects
  split <;> simp_all [copyEffects, sumEffects]

theorem restored_data (hld : m ≠ "ld") : restored ⟨m, dst :: rest, n, text⟩ = [] := by
  simp [restored, load?, hld]

theorem leaves_data (hm : m ∈ dataMnemonics) (hdst : dst ∈ wholeRegs)
    {effects : Constants → List StackEffect}
    (heffects : ∀ k, stackEffects k ⟨m, dst :: rest, n, text⟩ = effects k)
    {restored read : List Register} {value : Constants → Option Int64}
    (hrestored : Riscv64.restored ⟨m, dst :: rest, n, text⟩ = restored)
    (hread : rest.flatMap names = read)
    (hvalue : ∀ k, constant? k ⟨m, dst :: rest, n, text⟩ = value k) :
    dialect.Leaves effects ⟨[], restored, [dst], read, false, value⟩ ⟨m, dst :: rest, n, text⟩ := by
  have hall : ∀ m ∈ dataMnemonics, dialect.isMnemonic m = true ∧ m ≠ "ret" ∧ m ≠ "jr" ∧ m ≠ "sd" ∧
      m ≠ "call" ∧ m ≠ "jal" ∧ isLinking m = false ∧ withoutDestination.contains m = false ∧
      ["j", "call", "tail"].contains m = false ∧ ["beqz", "bnez"].contains m = false ∧
      twoRegisterBranches.contains m = false := by decide
  obtain ⟨hknown, hret, hjr, hsd, hcall, hjal, hlinking, hwithout, hjump, hzero, htwo⟩ := hall m hm
  have hdestinations : dialect.destinations ⟨m, dst :: rest, n, text⟩ = [0] := by
    show destinations _ = [0]
    rw [destinations, hwithout, hlinking]
    rfl
  have hlabel : dialect.labelOperand? ⟨m, dst :: rest, n, text⟩ = none := by
    show labelOperand? _ = none
    rw [labelOperand?, hjump, hzero, htwo, if_neg hjal]
    rfl
  have hmemory : dialect.isMemory dst = false := isMemory_of_mem hdst
  refine
    { known := hknown
      effects := heffects
      isReturn := by simp [dialect, isReturn, hret, hjr]
      signs := rfl
      authenticates := rfl
      saved := by simp [dialect, saved, store?, hsd]
      restored := hrestored
      written := Dialect.written_of_first rfl hdestinations hmemory (names_whole hdst)
      read := ?_
      isCall := by simp [dialect, hcall, hlinking]
      value := hvalue }
  rw [Dialect.readRegisters_of_first rfl hdestinations hmemory (names_whole hdst) hlabel]
  exact hread

end Data

/-! ### Instructions without a destination -/

def effectMnemonics : List String := ["sd", "call", "j", "bnez"]

theorem leaves_effect {m : String} (hm : m ∈ effectMnemonics) {ops : List String} (n : Nat)
    (text : String) {saved read : List Register} (hsaved : Riscv64.saved ⟨m, ops, n, text⟩ = saved)
    (hread : dialect.readRegisters ⟨m, ops, n, text⟩ = read) :
    dialect.Leaves (fun _ => []) ⟨saved, [], [], read, m = "call", fun _ => none⟩
      ⟨m, ops, n, text⟩ := by
  have hall : ∀ m ∈ effectMnemonics, dialect.isMnemonic m = true ∧ m ≠ "ret" ∧ m ≠ "jr" ∧ m ≠ "ld" ∧
      isLinking m = false ∧ withoutDestination.contains m = true := by decide
  obtain ⟨hknown, hret, hjr, hld, hlinking, hwithout⟩ := hall m hm
  have hdestinations : destinations ⟨m, ops, n, text⟩ = [] := by
    rw [destinations, hwithout]
    rfl
  refine
    { known := hknown
      effects := fun k => ?_
      isReturn := by simp [dialect, isReturn, hret, hjr]
      signs := rfl
      authenticates := rfl
      saved := hsaved
      restored := by simp [dialect, restored, load?, hld]
      written := Dialect.written_of_none hdestinations
      read := hread
      isCall := by simp [dialect, hlinking]
      value := fun k => ?_ }
  · have hother : otherEffects ⟨m, ops, n, text⟩ = [] := by simp [otherEffects, hdestinations]
    show stackEffects k _ = []
    unfold stackEffects
    split <;> simp_all [effectMnemonics]
  · show constant? k _ = none
    unfold constant?
    split <;> simp_all [effectMnemonics]

/-! ### All instructions -/

theorem constant?_imm (op : ImmOp) (dst lhs : Register) (value : Int) (k : Constants) (n : Nat)
    (text : String) : constant? k ⟨op.mnemonic, [dst, lhs, toString value], n, text⟩ =
      op.foresee lhs value k := by
  cases op with
  | addi | addiw | slli =>
    simp only [constant?, ImmOp.mnemonic, ImmOp.foresee, ImmOp.apply, immediate?_toString]
  | andi | ori | xori | sltiu => rfl

theorem Instr.Proper.leaves {i : Instr} (h : i.Proper) {p : Footprint} (hp : i.footprint? = some p)
    (n : Nat) (text : String) :
    dialect.Leaves (fun _ => []) p ⟨i.mnemonic, i.operands, n, text⟩ := by
  cases i with
  | li dst value =>
    obtain ⟨hfree, rfl⟩ := eq_of_onFree hp
    exact leaves_data (m := "li") [toString value] n text (by decide) h
      (stackEffects_data _ n text h hfree) rfl (flatMap_names_number value)
      fun _ => immediate?_toString value
  | lui dst value =>
    obtain ⟨hfree, rfl⟩ := eq_of_onFree hp
    refine leaves_data (m := "lui") [toString value] n text (by decide) h
      (stackEffects_data _ n text h hfree) rfl (flatMap_names_number value)
      fun _ => ?_
    simp only [constant?, immediate?_toString]
    cases word? value <;> rfl
  | mv dst src =>
    obtain ⟨hfree, rfl⟩ := eq_of_onFree hp
    exact leaves_data (m := "mv") [src] n text (by decide) h.1
      (stackEffects_data _ n text h.1 hfree) rfl (by simp [names_whole h.2])
      fun _ => rfl
  | reg op dst lhs rhs =>
    obtain ⟨hfree, rfl⟩ := eq_of_onFree hp
    have hlhs : names lhs = [lhs] := names_of_mem (List.mem_cons.2 h.2.1)
    have hm := op.mnemonic_mem
    refine leaves_data [lhs, rhs] n text hm.1 h.1 (stackEffects_data _ n text h.1 hfree)
      (restored_data _ n text hm.2) (by simp [hlhs, names_whole h.2.2]) fun _ => ?_
    cases op <;> rfl
  | imm op dst lhs value =>
    obtain ⟨hfree, rfl⟩ := eq_of_onFree hp
    have hm := op.mnemonic_mem
    exact leaves_data [lhs, toString value] n text hm.1 h.1
      (stackEffects_data _ n text h.1 hfree) (restored_data _ n text hm.2)
      (by rw [List.flatMap_cons, names_whole h.2, flatMap_names_number]; rfl)
      fun k => constant?_imm op dst lhs value k n text
  | ld dst address =>
    simp only [footprint?] at hp
    split at hp
    · cases hp
    · next hsp =>
      cases hp
      refine leaves_data (m := "ld") [address.render] n text (by decide) h.1 (fun k => ?_) rfl
        (by simp [address.names_render h.2.1]) fun _ => rfl
      simp [stackEffects, otherEffects, hsp]
  | sd src address =>
    cases hp
    refine leaves_effect (m := "sd") (by decide) n text rfl ?_
    rw [Dialect.readRegisters_of_none rfl rfl]
    simp [dialect, operands, names_whole h.1, address.names_render h.2]
  | call callee =>
    cases hp
    exact leaves_effect (m := "call") (by decide) n text rfl rfl
  | j label =>
    cases hp
    exact leaves_effect (m := "j") (by decide) n text rfl rfl
  | bnez cond label =>
    cases hp
    refine leaves_effect (m := "bnez") (by decide) n text rfl ?_
    simp [dialect, Dialect.readRegisters, Dialect.readsAt, destinations, withoutDestination, operands,
      labelOperand?, names_whole h.1]
  | ret => cases hp

/-! ### Tidy code -/

open List

variable {dst : Register}

abbrev TidyIn (f : Frame) (fresh : Set Register) (is : List Instr) (fresh' : Set Register) : Prop :=
  Tidy dialect f.saved Instr.footprint? fresh is fresh'

variable {f : Frame} {F : Set Register}

/-! ### Single instructions -/

theorem tidy_of_onFree {i : Instr} {q : Footprint} (hi : i.footprint? = onFree dst q)
    (hdst : dst ∉ frameRegs) (hread : ∀ r ∈ q.read, r ∈ F) (hsaved : q.saved = [])
    (hcall : q.isCall = false) : TidyIn f F [i] (insert dst F) := by
  rw [onFree, if_neg hdst] at hi
  exact Tidy.write hi hread hsaved hcall mem_cons_self

section Single

variable {dst lhs rhs : Register} (hdst : dst ∉ frameRegs) (hlhs : lhs ∈ F)

include hdst hlhs

theorem mv_tidy : TidyIn f F [.mv dst lhs] (insert dst F) :=
  tidy_of_onFree rfl hdst (forall_mem_singleton.2 hlhs) rfl rfl

theorem imm_tidy (op : ImmOp) (value : Int) : TidyIn f F [.imm op dst lhs value] (insert dst F) :=
  tidy_of_onFree rfl hdst (forall_mem_singleton.2 hlhs) rfl rfl

theorem reg_tidy (op : RegOp) (hrhs : rhs ∈ F) : TidyIn f F [.reg op dst lhs rhs] (insert dst F) :=
  tidy_of_onFree rfl hdst (forall_mem_cons.2 ⟨hlhs, forall_mem_singleton.2 hrhs⟩) rfl rfl

end Single

theorem ld_tidy (hdst : dst ≠ "sp") {a : Address} (hbase : a.base ∈ F) :
    TidyIn f F [.ld dst a] (insert dst F) := by
  have hfoot : (Instr.ld dst a).footprint? = some { Footprint.idle with
      restored := [dst], written := [dst], read := [a.base] } := by rw [Instr.footprint?, if_neg hdst]
  exact Tidy.write hfoot (forall_mem_singleton.2 hbase) rfl rfl mem_cons_self

theorem sd_tidy {src : Register} {a : Address} (hsrc : src ∈ F) (hbase : a.base ∈ F)
    (hsaved : target.isCalleeSaved src = true → src ∈ f.saved) : TidyIn f F [.sd src a] F := by
  refine (Tidy.single rfl ?_ (forall_mem_singleton.2 hsaved)).weaken Set.subset_union_left
  exact forall_mem_cons.2 ⟨hsrc, forall_mem_singleton.2 hbase⟩

/-! ### Literals and addresses -/

theorem Literal.tidy (hdst : dst ∉ frameRegs) {i : Instr} (h : Literal dst i) :
    TidyIn f (insert dst F) [i] (insert dst F) := by
  have hread : dst ∈ insert dst F := Set.mem_insert _ _
  cases h with
  | li | lui =>
    exact Tidy.weaken (tidy_of_onFree rfl hdst (by simp [Footprint.idle]) rfl rfl)
      (Set.subset_insert _ _)
  | shift | add => exact Tidy.weaken (imm_tidy hdst hread _ _) (Set.subset_insert _ _)

theorem materialize_tidy (hdst : dst ∉ frameRegs) (value : Int) :
    TidyIn f F (materialize dst value) (insert dst F) := by
  have hliteral := literal_materialize dst value
  obtain ⟨i, is, heq, hfirst⟩ := exists_first dst value
  rw [heq] at hliteral ⊢
  obtain ⟨hi, his⟩ := forall_mem_cons.1 hliteral
  have hone : TidyIn f F [i] (insert dst F) := by
    cases hi with
    | li | lui => exact tidy_of_onFree rfl hdst (by simp [Footprint.idle]) rfl rfl
    | shift | add => cases hfirst
  refine hone.append ?_
  rw [← flatMap_singleton' is]
  exact Tidy.flatMap fun j hj => (his j hj).tidy hdst

theorem spAddress_tidy (hsp : "sp" ∈ F) (offset : Nat) :
    TidyIn f F (spAddress offset).1 (insert (spAddress offset).2.base F) := by
  unfold spAddress
  split
  · exact Set.insert_subset hsp (Set.Subset.refl _)
  · have haddr : addr ∉ frameRegs := by decide
    refine (materialize_tidy haddr (offset : Int)).append (Tidy.weaken (reg_tidy haddr ?_ .add ?_) ?_)
    · exact Set.mem_insert_of_mem _ hsp
    · exact Set.mem_insert _ _
    · exact Set.insert_subset_insert (Set.subset_insert _ _)

theorem loadSp_tidy (hsp : "sp" ∈ F) (hdst : dst ≠ "sp") (offset : Nat) :
    TidyIn f F (loadSp dst offset) (insert dst F) := by
  refine (spAddress_tidy hsp offset).append (Tidy.weaken (ld_tidy hdst (Set.mem_insert _ _)) ?_)
  exact Set.insert_subset_insert (Set.subset_insert _ _)

theorem storeSp_tidy (hsp : "sp" ∈ F) {src : Register} (hsrc : src ∈ F)
    (hsaved : target.isCalleeSaved src = true → src ∈ f.saved) (offset : Nat) :
    TidyIn f F (storeSp src offset) F := by
  refine (spAddress_tidy hsp offset).append (Tidy.weaken (sd_tidy ?_ ?_ hsaved) ?_)
  · exact Set.mem_insert_of_mem _ hsrc
  · exact Set.mem_insert _ _
  · exact Set.subset_insert _ _

/-! ### Steps -/

theorem registerForm_tidy (op : BinOp) {lhs rhs : Register} (hdst : dst ∉ frameRegs)
    (hzero : "zero" ∈ F) (hlhs : lhs ∈ F) (hrhs : rhs ∈ F) :
    TidyIn f F (registerForm op dst lhs rhs) (insert dst F) := by
  have hin : dst ∈ insert dst F := Set.mem_insert _ _
  have himm : ∀ o, TidyIn f (insert dst F) [.imm o dst dst 1] (insert dst F) := fun o =>
    Tidy.weaken (imm_tidy hdst hin o 1) (Set.subset_insert _ _)
  have hset : TidyIn f (insert dst F) [.reg .sltu dst "zero" dst] (insert dst F) :=
    Tidy.weaken (reg_tidy hdst (Set.mem_insert_of_mem _ hzero) .sltu hin) (Set.subset_insert _ _)
  cases op with
  | add | sub | mul | div | and | or | xor | lt => exact reg_tidy hdst hlhs _ hrhs
  | gt => exact reg_tidy hdst hrhs .slt hlhs
  | eq => exact (reg_tidy hdst hlhs .xor hrhs).append (himm .sltiu)
  | ne => exact (reg_tidy hdst hlhs .xor hrhs).append hset
  | le => exact (reg_tidy hdst hrhs .slt hlhs).append (himm .xori)
  | ge => exact (reg_tidy hdst hlhs .slt hrhs).append (himm .xori)

theorem mem_steady (h : r ∈ ["sp", "s0", "zero", "a0"] ++ target.allocatable) :
    r ∈ dialect.steady := by
  have hall : ∀ r ∈ ["sp", "s0", "zero", "a0"] ++ target.allocatable,
      r ∉ Tracker.clobberedByCall dialect := by decide
  exact hall r h

def workIn (f : Frame) : Set Register :=
  {r | r ∈ workRegs target.valueRegs ∧ (target.isCalleeSaved r = true → r ∈ f.saved)}

theorem facts_of_mem_workIn (h : r ∈ workIn f) : r ∉ frameRegs ∧ r ≠ "sp" := by
  have hall : ∀ r ∈ workRegs target.valueRegs, r ∉ frameRegs ∧ r ≠ "sp" := by decide
  exact hall r h.1

theorem mem_workIn (h : r ∈ workRegs target.valueRegs ∧ target.isCalleeSaved r = false) :
    r ∈ workIn f := ⟨h.1, fun hcallee => by simp [h.2] at hcallee⟩

def tidiness (f : Frame) : LoadStore.Judgement Instr :=
  ⟨TidyIn f, fun h => h, Tidy.append⟩

theorem carriesOperands_tidiness (f : Frame) :
    pieces.CarriesOperands (tidiness f) f (·.Framed target f) (workIn f) dialect.steady where
  left := mem_workIn (show tmp0 ∈ workRegs target.valueRegs ∧ _ by decide)
  right := mem_workIn (show tmp1 ∈ workRegs target.valueRegs ∧ _ by decide)
  result := mem_workIn (show result ∈ workRegs target.valueRegs ∧ _ by decide)
  register h := ⟨mem_append_right _ h.1, h.2⟩
  literal _ hdst := materialize_tidy (facts_of_mem_workIn hdst).1 _
  copy hdst _ hsrc := mv_tidy (facts_of_mem_workIn hdst).1 hsrc
  load hbase hdst _ := loadSp_tidy (hbase (mem_steady (by simp))) (facts_of_mem_workIn hdst).2 _
  store hbase hsrc hfresh _ := storeSp_tidy (hbase (mem_steady (by simp))) hfresh hsrc.2 _

theorem compute_tidy (op : BinOp) {work left : Register} {rhs : Operand} (hbase : dialect.steady ⊆ F)
    (hwork : work ∈ workIn f) (hleft : left ∈ F) (hrhs : rhs.Framed target f) (hright : rhs.FreshIn F) :
    TidyIn f F (compute f op work left rhs) (insert work F) := by
  have hfree := (facts_of_mem_workIn hwork).1
  have hoperands := carriesOperands_tidiness f
  have hread : TidyIn f F (read f tmp1 rhs).1 (insert (read f tmp1 rhs).2 F) :=
    (hoperands.read hbase hrhs hoperands.right hright).1
  unfold compute
  split
  · exact imm_tidy hfree hleft _ _
  · refine hread.append (Tidy.weaken (registerForm_tidy op hfree ?_ ?_ ?_) ?_)
    · exact Set.mem_insert_of_mem _ (hbase (mem_steady (by simp)))
    · exact Set.mem_insert_of_mem _ hleft
    · exact Set.mem_insert _ _
    · exact Set.insert_subset_insert (Set.subset_insert _ _)

theorem lower_tidy {s : Step} (hs : s.Framed target f) (hkept : dialect.steady ⊆ F)
    (hfresh : ∀ o ∈ s.reads, o.FreshIn F) (hlabel : ∀ name, s ≠ .label name)
    (hreturn : s ≠ .epilogue) : TidyIn f F (lower f s) (s.next dialect.steady F) := by
  have hcarries : pieces.Carries (tidiness f) f (·.Framed target f) (workIn f) dialect.steady s :=
    { carriesOperands_tidiness f with
      operands := hs.1
      args := fun r hr => mem_workIn
        ((show ∀ r ∈ target.argRegs, r ∈ workRegs target.valueRegs ∧
          target.isCalleeSaved r = false by decide) r hr)
      ret := ⟨mem_workIn (by decide), mem_steady (by decide)⟩
      fetch := fun _ hbase hdst =>
        ld_tidy (facts_of_mem_workIn hdst).2 (hbase (mem_steady (by simp)))
      compute := fun {F op dst lhs rhs w l} heq hbase hw _ hl hr =>
        compute_tidy op hbase hw hl (hs.1 rhs (by simp [heq, Step.operands])) hr
      storeAt := fun hsrc hsrc' _ hdst => sd_tidy hsrc' hdst hsrc.2
      pass := fun _ hbase hsrc hfresh =>
        storeSp_tidy (hbase (mem_steady (by simp))) hfresh hsrc.2 _
      call := fun _ => Tidy.single rfl (by simp [Footprint.idle]) (by simp [Footprint.idle])
      jump := fun _ => Tidy.weaken
        (Tidy.single rfl (by simp [Footprint.idle]) (by simp [Footprint.idle])) Set.subset_union_left
      branch := fun _ _ hr => Tidy.weaken
        (Tidy.single rfl (forall_mem_singleton.2 hr) (by simp [Footprint.idle]))
        Set.subset_union_left }
  rw [lower_eq hreturn]
  exact hcarries.lower hkept hfresh hlabel

end SsaBackend.Riscv64
