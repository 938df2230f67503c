import SsaBackend.Proofs.Check.Body
import SsaBackend.Proofs.Peephole.Seams
import SsaBackend.Proofs.Peephole.Soundness

/-!
# Faults about the frame

Faults are about the frame, the form of an instruction or its memory operands. A text of legal lines is
therefore accepted exactly if all its memory operands can be encoded and its tracker finds no fault
about the frame (`Arch.isOk_check_iff`).

Calm code neither moves the stack pointer nor touches the return address, and saves only registers that
are restored later (`Dialect.Calm`). In contrast to tidy code it may read registers that a call has
changed, which is worth a warning and no fault. So a tracker that is in the body of a function passes
calm lines, and every stretch that leads back into the body, without a fault about the frame
(`Peephole.Woven.quiet`).

A register that the prologue saved and that has not been restored is owed (`Tracker.Owes`). It stays
owed until it is restored, and a return with such a register is a fault
(`Tracker.Owes.mem_pass_of_isReturn`).
-/

namespace SsaBackend

open Asm Check List Peephole

variable {i : AsmInstr} {t : Tracker} {d : Dialect} {line : Line}

/-! ### When a check accepts a text -/

def Finding.isFrameFault : Finding → Bool
  | fault cause => (fault cause).isFrame
  | warning _ => false

theorem Finding.isFrame_of_isFrameFault {x : Finding} (h : x.isFrameFault = true) :
    x.isFrame = true := by
  cases x with
  | fault cause => exact h
  | warning cause => cases h

theorem Report.isOk_iff {r : Report} : r.isOk = true ↔ ∀ x ∈ r, ∀ c, x.cause ≠ .fault c := by
  rw [isOk, List.isEmpty_iff, errors, List.filterMap_eq_nil_iff]
  refine forall₂_congr fun x _ => ?_
  cases hcause : x.cause with
  | fault c => simp
  | warning w => simp

namespace Asm

theorem item?_of_item? {line : Line} {n : Nat} (h : item? d n line = some (.instr i)) (k : Nat) :
    item? d k line = some (.instr { i with line := k }) := by
  cases line with
  | label | directive => cases h
  | instruction text =>
    obtain ⟨j, hj, heq⟩ := Option.map_eq_some_iff.1 h
    cases heq
    rw [item?, hj]
    rfl

theorem exists_mem_items {a : Assembly} {line : Line} (hline : line ∈ a) {n : Nat}
    (h : item? d n line = some (.instr i)) (m : Nat) :
    ∃ k, .instr { i with line := k } ∈ items d m a := by
  obtain ⟨index, hindex⟩ := mem_iff_getElem?.1 hline
  refine ⟨m + index, mem_filterMap.2 ⟨(line, m + index), ?_, item?_of_item? h _⟩⟩
  exact mem_zipIdx_iff_le_and_getElem?_sub.2 ⟨Nat.le_add_right _ _, by simpa using hindex⟩

end Asm

namespace Check

theorem mem_follow_of_mem_items {items : List Item} (hi : .instr i ∈ items)
    (hknown : d.isMnemonic i.mnemonic = true) {x : Finding} (hx : x ∈ d.operandFindings i)
    (t : Tracker) : ⟨i, x⟩ ∈ follow d t items := by
  induction items generalizing t with
  | nil => cases hi
  | cons item items ih =>
    rcases mem_cons.1 hi with rfl | hmem
    · have hpass : x ∈ (t.pass d i).2 := by
        rw [Tracker.pass, if_pos hknown, Tracker.passKnown]
        simp [hx]
      exact mem_append_left _ (mem_map.2 ⟨x, hpass, rfl⟩)
    · cases item with
      | label | directive => exact ih hmem _
      | instr j => exact mem_append_right _ (ih hmem _)

end Check

theorem Dialect.Legal.isMnemonic (h : d.Legal i) : d.isMnemonic i.mnemonic = true := by
  by_contra hunknown
  have hnames := h.names
  rw [nameFaults, if_neg hunknown] at hnames
  cases hnames

theorem Dialect.mem_operandFindings_of_memoryFault {op : String} (hop : op ∈ i.operands)
    (hmem : d.isMemory op = true) {fault : MemoryFault} (h : d.memoryFault? op = some fault) :
    .fault (.memory op fault) ∈ d.operandFindings i := by
  have hmemory : .memory op fault ∈ d.memoryFaults i :=
    mem_flatMap.2 ⟨op, mem_filter.2 ⟨hop, hmem⟩, by simp [h]⟩
  simp [operandFindings, hmemory]

theorem Dialect.Legal.not_fault (h : d.Legal i)
    (hmem : ∀ op ∈ i.operands, d.isMemory op = true → d.memoryFault? op = none) (c : Fault) :
    .fault c ∉ d.operandFindings i := by
  have hmemory : d.memoryFaults i = [] := by
    refine flatMap_eq_nil_iff.2 fun op hop => ?_
    obtain ⟨hop, hmem'⟩ := mem_filter.1 hop
    rw [hmem op hop hmem']
    rfl
  rw [operandFindings, h.names, hmemory, h.destinations, h.operands]
  simp

namespace Arch

theorem isOk_check_iff {arch : Arch} {a : Assembly}
    (h : ∀ line ∈ a, arch.ShapedLine line ∧ arch.dialect.LegalLine line) :
    (arch.check a.render).isOk = true ↔ (∀ line ∈ a, arch.dialect.Encodable line) ∧
      ∀ x ∈ follow arch.dialect .start (items arch.dialect 1 a), x.cause.isFrameFault = false := by
  have hread := read_render arch.isMark_commentMark fun line hline => (h line hline).1.written
  rw [check, hread, Report.isOk_iff]
  constructor
  · refine fun hok => ⟨fun line hline n i hitem op hop hmem => ?_, fun x hx => ?_⟩
    · -- an operand that cannot be encoded is reported where its line stands
      by_contra hfault
      obtain ⟨fault, hfault⟩ := Option.ne_none_iff_exists'.1 hfault
      obtain ⟨k, hk⟩ := exists_mem_items hline hitem 1
      have hknown := ((h line hline).2 n i hitem).isMnemonic
      have hfind := mem_follow_of_mem_items hk hknown
        (Dialect.mem_operandFindings_of_memoryFault (i := { i with line := k }) hop hmem hfault) .start
      exact hok _ (mem_append_left _ (mem_append_left _ hfind)) _ rfl
    · cases hcause : x.cause with
      | warning w => rfl
      | fault c =>
        exact absurd hcause (hok x (mem_append_left _ (mem_append_left _ hx)) c)
  · rintro ⟨hmem, hframe⟩ x hx c hcause
    cases hfault : x.cause.isFrame with
    | true =>
      have hquiet := hframe x (mem_follow_of_isFrame hx hfault)
      rw [hcause] at hquiet hfault
      exact absurd hfault (by rw [show (Finding.fault c).isFrame = false from hquiet]; decide)
    | false =>
      -- any other fault is about a single instruction
      obtain ⟨hi, hfind⟩ := mem_operandFindings_of_fault hx hcause hfault
      obtain ⟨l, hl, hitem⟩ := mem_filterMap.1 hi
      have hline := fst_mem_of_mem_zipIdx hl
      rw [hcause] at hfind
      exact ((h _ hline).2 _ _ hitem).not_fault (hmem _ hline _ _ hitem) c hfind

end Arch

/-! ### Faults and other findings -/

theorem Finding.isFrameFault_eq_false {x : Finding} (h : x.isFrame = false) :
    x.isFrameFault = false := by
  cases x with
  | fault cause => exact h
  | warning cause => rfl

theorem Check.Quiet.weaken {bad bad' : Finding → Bool} {P Q : Tracker → Prop} {a : Assembly}
    (h : Quiet d bad P a Q) (hbad : ∀ x, bad' x = true → bad x = true) : Quiet d bad' P a Q := by
  intro t n ht
  refine ⟨fun x hx => Bool.eq_false_iff.2 fun hbad' => ?_, (h t n ht).2⟩
  exact Bool.eq_false_iff.1 ((h t n ht).1 x hx) (hbad _ hbad')

/-! ### Calm code -/

namespace Dialect

variable {d : Dialect} {regs : List Register}

structure Calm (d : Dialect) (regs : List Register) (i : AsmInstr) : Prop where
  known : d.isMnemonic i.mnemonic = true
  effects : ∀ k, d.stackEffects k i = []
  isReturn : d.isReturn i = false
  signs : d.signs i = false
  authenticates : d.authenticates i = false
  saved : ∀ r ∈ d.saved i, d.target.isCalleeSaved r = true → r ∈ regs

def footprint (d : Dialect) (i : AsmInstr) : Footprint where
  saved := d.saved i
  restored := d.restored i
  written := d.written i
  read := d.readRegisters i
  isCall := d.isCall i
  value := fun k => d.constant? k i

theorem Calm.leaves (h : d.Calm regs i) : d.Leaves (fun _ => []) (d.footprint i) i :=
  ⟨h.known, h.effects, h.isReturn, h.signs, h.authenticates, rfl, rfl, rfl, rfl, rfl, fun _ => rfl⟩

theorem Leaves.calm {p : Footprint} (h : d.Leaves (fun _ => []) p i)
    (hp : ∀ r ∈ p.saved, d.target.isCalleeSaved r = true → r ∈ regs) : d.Calm regs i :=
  ⟨h.known, h.effects, h.isReturn, h.signs, h.authenticates, h.saved ▸ hp⟩

structure CalmLine (d : Dialect) (regs : List Register) (line : Line) : Prop where
  instr : ∀ n i, item? d n line = some (.instr i) → d.Calm regs i
  label : ∀ name, line = .label name → (Text.afterText? ".L" name).isSome

theorem CalmLine.of_item? {i : Nat → AsmInstr} (hread : ∀ n, item? d n line = some (.instr (i n)))
    (h : ∀ n, d.Calm regs (i n)) :
    d.CalmLine regs line where
  instr n j hj := by
    rw [hread] at hj
    cases hj
    exact h n
  label name hname := by
    have hitem := hread 0
    rw [hname] at hitem
    cases hitem

theorem CalmLine.of_instr? (h : d.CalmLine regs line) (hi : instr? d line = some i) :
    d.Calm regs i := by
  cases line with
  | instruction text => exact h.instr i.line i (by rw [item?, hi]; rfl)
  | label name | directive text => cases hi

end Dialect

theorem Tidy.calmLine {regs : List Register} {α : Type} {footprint? : α → Option Footprint}
    {fresh fresh' : Set Register} {is : List α} {line : α → Line}
    (h : Tidy d regs footprint? fresh is fresh')
    (hread : ∀ i ∈ is, ∀ p, footprint? i = some p → ∀ n, ∃ a,
      item? d n (line i) = some (.instr a) ∧ d.Leaves (fun _ => []) p a) :
    ∀ i ∈ is, d.CalmLine regs (line i) := by
  induction is generalizing fresh with
  | nil => simp
  | cons i is ih =>
    obtain ⟨p, hp, -, hsaved, htail⟩ := h
    obtain ⟨hi, his⟩ := forall_mem_cons.1 hread
    refine forall_mem_cons.2 ⟨?_, ih htail his⟩
    choose a ha hleaves using hi p hp
    exact .of_item? ha fun n => (hleaves n).calm hsaved

def Tracker.Steady (d : Dialect) (v : FrameView) (t : Tracker) : Prop :=
  t.InBody v ∧ t.Fresh d.steady

theorem Tracker.Steady.leave {v : FrameView} (h : t.Steady d v) {p : Footprint}
    (hp : ∀ r ∈ p.saved, d.target.isCalleeSaved r = true → r ∈ v.saved) :
    (t.leave d p).Steady d v := by
  refine ⟨h.1.leave hp, (h.2.leave p).mono ?_⟩
  unfold Footprint.next
  split
  · exact Set.Subset.refl _
  · exact Set.subset_union_left

section Quiet

variable {arch : Arch} {v : FrameView}

theorem Dialect.CalmLine.quiet (h : arch.dialect.CalmLine v.saved line) :
    Quiet arch.dialect Finding.isFrameFault (·.Steady arch.dialect v) [line]
      (·.Steady arch.dialect v) := by
  cases line with
  | label name => exact .label fun t ht =>
      have hpass := ht.1.passLabel (h.label name rfl)
      ⟨hpass.1, hpass.2.mono (Set.subset_univ _)⟩
  | directive text => exact .directive text fun t ht => ht
  | instruction text =>
    cases hi : instr? arch.dialect (.instruction text) with
    | none =>
      intro t n ht
      have hitems : items arch.dialect n [.instruction text] = [] := by simp [item?, hi]
      rw [hitems]
      exact ⟨by simp [follow], ht⟩
    | some i =>
      have hitem : ∀ n, item? arch.dialect n (.instruction text) = some (.instr { i with line := n }) :=
        fun n => by rw [item?, hi]; rfl
      refine .instr hitem fun t n ht => ?_
      have hcalm := h.instr n _ (hitem n)
      rw [Tracker.pass_of_stays hcalm.leaves]
      refine ⟨fun x hx => ?_, ht.leave hcalm.saved⟩
      rcases mem_append.1 hx with hx | hx
      · exact Finding.isFrameFault_eq_false (arch.isFrame_of_mem_operandFindings hx)
      · obtain ⟨r, -, rfl⟩ := mem_map.1 hx
        rfl

theorem Peephole.Woven.quiet {P : Line → Prop} {stretch a : Assembly} (h : Woven P stretch a)
    (hline : ∀ l, P l → arch.dialect.CalmLine v.saved l)
    (hstretch : Quiet arch.dialect Finding.isFrameFault (·.Steady arch.dialect v) stretch
      (·.Steady arch.dialect v)) :
    Quiet arch.dialect Finding.isFrameFault (·.Steady arch.dialect v) a
      (·.Steady arch.dialect v) := by
  induction h with
  | nil => exact .nil fun t ht => ht
  | line hl _ ih => exact (hline _ hl).quiet.append ih
  | stretch _ ih => exact hstretch.append ih

end Quiet

/-! ### What is owed -/

namespace Tracker

variable {d : Dialect}
variable {r : Register}

def ledger (t : Tracker) : Bool × List Register × List Register :=
  (t.inPrologue, t.saved, t.restored)

theorem ledger_pass (hknown : d.isMnemonic i.mnemonic = true) (t : Tracker) :
    ∃ t' : Tracker, t'.ledger = (t.passSetup d (d.stackEffects t.constants i) i).ledger ∧
      (t.pass d i).1.ledger = ((t'.passSaves d i).returnRegisters d i).1.ledger ∧
      ∀ x ∈ ((t'.passSaves d i).returnRegisters d i).2, x ∈ (t.pass d i).2 := by
  have hstack : ∀ t : Tracker, (t.returnStack d i).1.ledger = t.ledger := by
    intro t
    unfold returnStack
    split <;> rfl
  obtain ⟨_, _, _, heffects⟩ := (t.passSetup d (d.stackEffects t.constants i) i).passEffects_eq
    (d.stackEffects t.constants i)
  -- the tracker right before saves are noted
  refine ⟨(((((t.passSetup d (d.stackEffects t.constants i) i).passEffects
    (d.stackEffects t.constants i)).1.returnStack d i).1.passSigning d i).1.passAuthentication
      d i).1.returnAddress d i |>.1, ?_, ?_, fun x hx => ?_⟩
  · obtain ⟨_, _, haddress⟩ := passAddress_eq (d := d) i (((t.passSetup d
      (d.stackEffects t.constants i) i).passEffects (d.stackEffects t.constants i)).1.returnStack d i).1
    rw [haddress]
    refine (hstack _).trans ?_
    rw [heffects]
    rfl
  · rw [pass, if_pos hknown, passKnown]
    rfl
  · rw [pass, if_pos hknown, passKnown]
    simp only [mem_append]
    exact .inl (.inr hx)

theorem mem_saved_passSaves (h : r ∈ t.saved) (i : AsmInstr) : r ∈ (t.passSaves d i).saved := by
  obtain ⟨_, _, _, heq, hkept⟩ := t.passSaves_eq (d := d) i
  rw [heq]
  exact hkept r h

theorem passSaves_fields (t : Tracker) (i : AsmInstr) :
    (t.passSaves d i).inPrologue = t.inPrologue ∧
      (t.passSaves d i).restored = t.restored ++ d.restored i := by
  obtain ⟨_, _, _, heq, -⟩ := t.passSaves_eq (d := d) i
  rw [heq]
  exact ⟨rfl, rfl⟩

theorem ledger_passSetup (t : Tracker) (effects : List StackEffect) (i : AsmInstr) :
    (t.passSetup d effects i).ledger =
      (t.inPrologue && isFrameSetup d effects i, t.saved, t.restored) := by
  unfold passSetup
  split
  · next h => simp [ledger, h]
  · next h =>
    unfold endPrologue
    split
    · next hin => simp [ledger, h]
    · next hin => simp [ledger, hin]

theorem exists_pass_noted (hknown : d.isMnemonic i.mnemonic = true) (hret : d.isReturn i = false)
    (t : Tracker) :
    ∃ t' : Tracker,
      (t'.inPrologue = (t.inPrologue && isFrameSetup d (d.stackEffects t.constants i) i) ∧
        t'.saved = t.saved) ∧
      (t.pass d i).1.inPrologue = t'.inPrologue ∧
      (t.pass d i).1.saved = (t'.passSaves d i).saved ∧
      (t.pass d i).1.restored = t.restored ++ d.restored i := by
  obtain ⟨t', ht', hpass, -⟩ := ledger_pass hknown t
  rw [ledger_passSetup] at ht'
  rw [returnRegisters, if_neg (by simp [hret])] at hpass
  simp only [ledger, Prod.mk.injEq] at ht' hpass
  obtain ⟨hin, hsaved, hrestored⟩ := ht'
  obtain ⟨hin', hsaved', hrestored'⟩ := hpass
  obtain ⟨hkept, hadded⟩ := t'.passSaves_fields (d := d) i
  rw [hadded, hrestored] at hrestored'
  exact ⟨t', ⟨hin, hsaved⟩, hin'.trans hkept, hsaved', hrestored'⟩

def Owes (r : Register) (t : Tracker) : Prop := r ∈ t.saved ∧ r ∉ t.restored

def Opening (t : Tracker) : Prop := t.inPrologue = true ∧ t.restored = []

section Pass

variable {i : AsmInstr} {t : Tracker}

theorem Owes.pass (h : t.Owes r) (hret : d.isReturn i = false) (hr : r ∉ d.restored i) :
    (t.pass d i).1.Owes r := by
  cases hknown : d.isMnemonic i.mnemonic with
  | false =>
    rw [Tracker.pass, hknown]
    exact h
  | true =>
    obtain ⟨t', ⟨-, hsaved⟩, -, hsaved', hrestored⟩ := exists_pass_noted hknown hret t
    refine ⟨?_, ?_⟩
    · rw [hsaved']
      exact mem_saved_passSaves (hsaved ▸ h.1) i
    · rw [hrestored, mem_append, not_or]
      exact ⟨h.2, hr⟩

theorem Owes.mem_pass_of_isReturn (h : t.Owes r) (hknown : d.isMnemonic i.mnemonic = true)
    (hret : d.isReturn i = true) (hr : r ∉ d.restored i) :
    .fault (.notRestored r) ∈ (t.pass d i).2 := by
  obtain ⟨t', ht', -, hfind⟩ := ledger_pass hknown t
  rw [ledger_passSetup] at ht'
  obtain ⟨-, hsaved, hrestored⟩ : _ ∧ t'.saved = t.saved ∧ t'.restored = t.restored := by
    simpa [ledger] using ht'
  have howed : (t'.passSaves d i).Owes r := by
    refine ⟨mem_saved_passSaves (hsaved ▸ h.1) i, ?_⟩
    rw [(t'.passSaves_fields i).2, hrestored, mem_append, not_or]
    exact ⟨h.2, hr⟩
  refine hfind _ ?_
  rw [returnRegisters, hret]
  refine mem_append_left _ (mem_append_left _ (mem_append_left _ ?_))
  exact mem_map.2 ⟨r, mem_filter.2 ⟨howed.1, by simpa using howed.2⟩, rfl⟩

theorem Opening.pass (h : t.Opening) (hret : d.isReturn i = false)
    (hsetup : ∀ k, isFrameSetup d (d.stackEffects k i) i = true) (hr : d.restored i = []) :
    (t.pass d i).1.Opening := by
  cases hknown : d.isMnemonic i.mnemonic with
  | false =>
    rw [Tracker.pass, hknown]
    exact h
  | true =>
    obtain ⟨t', ⟨hin, -⟩, hin', -, hrestored⟩ := exists_pass_noted hknown hret t
    refine ⟨?_, ?_⟩
    · rw [hin', hin, h.1, hsetup]
      rfl
    · rw [hrestored, h.2, hr]
      rfl

theorem Opening.owes_pass (h : t.Opening) (hknown : d.isMnemonic i.mnemonic = true)
    (hret : d.isReturn i = false) (hsaved : d.saved i = [r]) (hr : d.target.isCalleeSaved r = true)
    (hfp : r ≠ d.target.framePointer) (hlink : some r ≠ d.target.linkRegister)
    (hrestored : d.restored i = []) : (t.pass d i).1.Owes r := by
  obtain ⟨t', ⟨hin, -⟩, -, hsaved', hrestored'⟩ := exists_pass_noted hknown hret t
  have hsetup : isFrameSetup d (d.stackEffects t.constants i) i = true := by
    simp [isFrameSetup, hsaved]
  rw [h.1, hsetup] at hin
  refine ⟨?_, ?_⟩
  · rw [hsaved']
    simp [passSaves, hin, hsaved, noteSaved, hfp, hlink, hr, Ascending.mem_insert]
  · rw [hrestored', h.2, hrestored]
    exact not_mem_nil

end Pass

theorem after_of_pass {P : Tracker → Prop} {a : Assembly}
    (h : ∀ line ∈ a, ∀ n, ∃ i, item? d n line = some (.instr i) ∧ ∀ t, P t → P (t.pass d i).1)
    (ht : P t) (n : Nat) : P (after d t (items d n a)) := by
  induction a generalizing t n with
  | nil => exact ht
  | cons line a ih =>
    obtain ⟨hline, ha⟩ := forall_mem_cons.1 h
    obtain ⟨i, hi, hpass⟩ := hline n
    rw [items_cons, hi]
    exact ih ha (hpass t ht) (n + 1)

end Tracker

end SsaBackend
