import SsaBackend.Proofs.Check.Follow

/-!
# Legal instructions

An instruction is legal if its mnemonic and registers exist, no literal stands where it writes, and
its operands are of kinds that it can take (`Dialect.Legal`). Everything that a check finds is about
the frame or about single instructions, apart from warnings about neighbours
(`Check.mem_operandFindings_of_fault`). So a check of lines that are all legal finds nothing about the
form of an instruction (`Check.isForm_of_legal`).

A line can be encoded if the dialect finds nothing wrong with its memory operands. Which operands are
in memory shows in their brackets, and nothing else that code generation writes has any.
-/

namespace SsaBackend

open Asm List Listing

variable {a : Assembly}

/-- Findings about the form of a single instruction: its names, and the kinds of its operands. -/
def Finding.isForm : Finding → Bool
  | fault (.unknownMnemonic _) => true
  | fault (.illegalRegister _) => true
  | fault .immediateDestination => true
  | fault .memoryToMemory => true
  | fault .divisionByZeroRegister => true
  | _ => false

theorem Finding.isForm_eq_false {x : Finding} (h : x.isFrame = true) : x.isForm = false := by
  cases x with
  | fault cause | warning cause => cases cause <;> simp_all [isFrame, isForm]

namespace Tracker

variable {d : Dialect} {i : AsmInstr} {t : Tracker} {x : Finding}

theorem isFrame_of_mem_passEffect {e : StackEffect} (h : x ∈ (t.passEffect e).2) :
    x.isFrame = true := by
  unfold passEffect at h
  dsimp only at h
  split at h
  · rw [mem_singleton.1 h]
    rfl
  · cases h

theorem isFrame_of_mem_passEffects {effects : List StackEffect}
    (h : x ∈ (t.passEffects effects).2) : x.isFrame = true := by
  induction effects generalizing t with
  | nil => cases h
  | cons e effects ih =>
    simp only [passEffects, mem_append] at h
    rcases h with h | h
    · exact isFrame_of_mem_passEffect h
    · exact ih h

theorem isFrame_of_mem_returnStack (h : x ∈ (t.returnStack d i).2) : x.isFrame = true := by
  unfold returnStack at h
  split at h
  · dsimp only at h
    split at h
    · rw [mem_singleton.1 h]
      rfl
    · cases h
  · cases h

theorem isFrame_of_mem_passSigning (h : x ∈ (t.passSigning d i).2) : x.isFrame = true := by
  unfold passSigning at h
  split at h
  · dsimp only at h
    split at h
    · rw [mem_singleton.1 h]
      rfl
    · cases h
  · cases h

theorem isFrame_of_mem_passAuthentication (h : x ∈ (t.passAuthentication d i).2) :
    x.isFrame = true := by
  unfold passAuthentication at h
  split at h
  · dsimp only at h
    split at h
    · cases h
    · rw [mem_singleton.1 h]
      rfl
  · cases h

theorem isFrame_of_mem_returnAddress (h : x ∈ (t.returnAddress d i).2) : x.isFrame = true := by
  unfold returnAddress at h
  split at h
  · dsimp only at h
    split at h
    · rw [mem_singleton.1 h]
      rfl
    · cases h
  · cases h

theorem isFrame_of_mem_returnFindings (h : x ∈ t.returnFindings d) : x.isFrame = true := by
  have hsingle : ∀ {b : Bool} {w : Warning}, (Finding.warning w).isFrame = true →
      x ∈ (if b then [Finding.warning w] else []) → x.isFrame = true := by
    intro b w hw hx
    cases b with
    | false => cases hx
    | true => rwa [mem_singleton.1 hx]
  unfold returnFindings at h
  simp only [mem_append] at h
  rcases h with ((h | h) | h) | h
  · obtain ⟨r, -, rfl⟩ := mem_map.1 h
    rfl
  · exact hsingle rfl h
  · exact hsingle rfl h
  · split at h
    · exact hsingle rfl h
    · cases h

theorem isFrame_of_mem_returnRegisters (h : x ∈ (t.returnRegisters d i).2) : x.isFrame = true := by
  unfold returnRegisters at h
  split at h
  · exact isFrame_of_mem_returnFindings h
  · cases h

theorem isFrame_of_mem_passCall (h : x ∈ (t.passCall d i).2) : x.isFrame = true := by
  obtain ⟨r, -, rfl⟩ := mem_map.1 h
  rfl

theorem mem_pass (h : x ∈ (t.pass d i).2) : x ∈ d.operandFindings i ∨ x.isFrame = true := by
  unfold pass at h
  split at h
  · simp only [passKnown, mem_append] at h
    rcases h with ((((((h | h) | h) | h) | h) | h) | h) | h
    · exact .inl h
    · exact .inr (isFrame_of_mem_passEffects h)
    · exact .inr (isFrame_of_mem_returnStack h)
    · exact .inr (isFrame_of_mem_passSigning h)
    · exact .inr (isFrame_of_mem_passAuthentication h)
    · exact .inr (isFrame_of_mem_returnAddress h)
    · exact .inr (isFrame_of_mem_returnRegisters h)
    · exact .inr (isFrame_of_mem_passCall h)
  · obtain ⟨c, hc, rfl⟩ := mem_map.1 h
    simp [Dialect.operandFindings, hc]

end Tracker

namespace Check

variable {d : Dialect} {x : Diagnostic Finding}

theorem mem_operandFindings_of_follow {items : List Item} {t : Tracker} (h : x ∈ follow d t items)
    (hframe : x.cause.isFrame = false) :
    .instr x.instr ∈ items ∧ x.cause ∈ d.operandFindings x.instr := by
  induction items generalizing t with
  | nil => cases h
  | cons item items ih =>
    cases item with
    | label | directive => exact (ih h).imp_left (mem_cons_of_mem _)
    | instr i =>
      rcases mem_append.1 h with h | h
      · obtain ⟨finding, hfinding, rfl⟩ := mem_map.1 h
        refine ⟨mem_cons_self, (Tracker.mem_pass hfinding).resolve_right ?_⟩
        simpa using hframe
      · exact (ih h).imp_left (mem_cons_of_mem _)

theorem mem_operandFindings_of_fault {items : List Item} (h : x ∈ listing d items) {c : Fault}
    (hcause : x.cause = .fault c) (hframe : x.cause.isFrame = false) :
    .instr x.instr ∈ items ∧ x.cause ∈ d.operandFindings x.instr := by
  rcases mem_follow_or_isNeighbour h with h | h
  · exact mem_operandFindings_of_follow h hframe
  · rw [hcause] at h
    cases h

end Check

/-! ### Legal instructions -/

namespace Dialect

variable {d : Dialect}
variable {i : AsmInstr}

structure Legal (d : Dialect) (i : AsmInstr) : Prop where
  names : d.nameFaults i = []
  destinations : d.destinationFaults i = []
  operands : d.operandFaults i = []

def LegalLine (d : Dialect) (line : Line) : Prop :=
  ∀ n i, item? d n line = some (.instr i) → d.Legal i

theorem nameFaults_eq_nil (hm : d.isMnemonic i.mnemonic = true)
    (h : ∀ o ∈ i.operands.zipIdx, d.labelOperand? i ≠ some o.2 →
      ∀ r ∈ d.registers o.1, d.isRegister r = true) : d.nameFaults i = [] := by
  rw [nameFaults, if_pos hm, flatMap_eq_nil_iff]
  intro o ho
  obtain ⟨ho, hlabel⟩ := mem_filter.1 ho
  rw [map_eq_nil_iff, filter_eq_nil_iff]
  intro r hr
  rw [h o ho (of_decide_eq_true hlabel) r hr]
  decide

theorem nameFaults_eq_nil_of_forall (hm : d.isMnemonic i.mnemonic = true)
    (h : ∀ o ∈ i.operands, ∀ r ∈ d.registers o, d.isRegister r = true) : d.nameFaults i = [] :=
  nameFaults_eq_nil hm fun o ho _ => h o.1 (fst_mem_of_mem_zipIdx ho)

theorem destinationFaults_eq_nil
    (h : ∀ n ∈ d.destinations i, ∀ o ∈ i.operand? n, d.isImmediate o = false) :
    d.destinationFaults i = [] := by
  rw [destinationFaults, map_eq_nil_iff, filter_eq_nil_iff]
  intro o ho
  obtain ⟨n, hn, ho⟩ := mem_filterMap.1 ho
  simp [h n hn o ho]

theorem Legal.isForm_eq_false (h : d.Legal i) {x : Finding} (hx : x ∈ d.operandFindings i) :
    x.isForm = false := by
  unfold operandFindings at hx
  rw [h.names, h.destinations, h.operands, nil_append, append_nil, append_nil] at hx
  rcases mem_append.1 hx with hx | hx
  · obtain ⟨c, hc, rfl⟩ := mem_map.1 hx
    obtain ⟨op, -, hc⟩ := mem_flatMap.1 hc
    obtain ⟨fault, -, rfl⟩ := Option.map_eq_some_iff.1 (Option.mem_toList.1 hc)
    rfl
  · obtain ⟨w, -, rfl⟩ := mem_map.1 hx
    rfl

theorem legal_of_mem_items {n : Nat} (h : ∀ line ∈ a, d.LegalLine line)
    (hi : .instr i ∈ items d n a) : d.Legal i := by
  obtain ⟨l, hl, hitem⟩ := mem_filterMap.1 hi
  exact h l.1 (fst_mem_of_mem_zipIdx hl) l.2 i hitem

end Dialect

theorem Check.isForm_of_legal {d : Dialect} {n : Nat} (h : ∀ line ∈ a, d.LegalLine line)
    {x : Diagnostic Finding} (hx : x ∈ listing d (items d n a)) : x.cause.isForm = false := by
  by_contra hform
  rw [Bool.not_eq_false] at hform
  have hframe : x.cause.isFrame = false := by
    by_contra hframe
    rw [Bool.not_eq_false] at hframe
    rw [Finding.isForm_eq_false hframe] at hform
    cases hform
  cases hcause : x.cause with
  | warning w =>
    rw [hcause] at hform
    cases hform
  | fault c =>
    obtain ⟨hi, hx⟩ := mem_operandFindings_of_fault hx hcause hframe
    rw [(Dialect.legal_of_mem_items h hi).isForm_eq_false hx] at hform
    cases hform

theorem Arch.namesExist_of_legal {arch : Arch}
    (hread : arch.dialect.read a.render = items arch.dialect 1 a)
    (h : ∀ line ∈ a, arch.dialect.LegalLine line) : arch.namesExist a.render = true := by
  rw [namesExist, hread, all_eq_true]
  intro i hi
  obtain ⟨item, hitem, hinstr⟩ := mem_filterMap.1 hi
  obtain rfl : item = .instr i := by cases item <;> cases hinstr; rfl
  rw [(Dialect.legal_of_mem_items h hitem).names]
  rfl

/-! ### Memory operands -/

/-- The memory operands of a line are well formed, and their offsets are in the range of the
target. -/
def Dialect.Encodable (d : Dialect) (line : Line) : Prop :=
  ∀ n i, item? d n line = some (.instr i) →
    ∀ op ∈ i.operands, d.isMemory op = true → d.memoryFault? op = none

namespace Dialect

variable {d : Dialect}

theorem encodable_label (name : String) : d.Encodable (.label name) := fun n i h => by cases h

theorem encodable_directive (text : String) : d.Encodable (.directive text) := fun n i h => by cases h

theorem encodable_iff {line : Line} {i : Nat → AsmInstr} {ops : List String}
    (hread : ∀ n, item? d n line = some (.instr (i n))) (hops : ∀ n, (i n).operands = ops) :
    d.Encodable line ↔ ∀ op ∈ ops, d.isMemory op = true → d.memoryFault? op = none := by
  refine ⟨fun h op hop => h 0 (i 0) (hread 0) op (by rwa [hops]), fun h n j hj op hop => ?_⟩
  rw [hread] at hj
  cases hj
  rw [hops] at hop
  exact h op hop

end Dialect

theorem bracket_notMem {mark cs : List Char} (h : ∀ c ∈ cs, isInert mark c = true) :
    '(' ∉ cs ∧ '[' ∉ cs := by
  have hspecial : ∀ c ∈ ['(', '['], isInert mark c = false := by
    intro c hc
    simp only [mem_cons, not_mem_nil, or_false] at hc
    rcases hc with rfl | rfl <;> simp [isInert]
  refine ⟨fun hmem => ?_, fun hmem => ?_⟩
  · simpa [hspecial] using h _ hmem
  · simpa [hspecial] using h _ hmem

theorem isDecimal_of_mem_toString {n : Nat} {c : Char} (h : c ∈ (toString n).toList) :
    Text.isDecimal c = true := by
  rw [Text.toList_toString_nat] at h
  simp [Text.isDecimal, Nat.isDigit_of_mem_toDigits (by decide) (by decide) h]

theorem toString_append_ne (n : Nat) (rest cs : List Char) : (toString n).toList ++ rest ≠ '-' :: cs := by
  intro heq
  obtain ⟨c, digits, hlist⟩ := exists_cons_of_ne_nil (Text.toString_int_ne_nil n)
  replace hlist : (toString n).toList = c :: digits := hlist
  have hc : Text.isDecimal c = true := isDecimal_of_mem_toString (hlist ▸ mem_cons_self)
  rw [hlist, cons_append, List.cons.injEq] at heq
  rw [heq.1] at hc
  exact absurd hc (by decide)

theorem Text.exists_word?_iff {n lo hi : Int} (hlo : -2 ^ 63 ≤ lo) (hhi : hi < 2 ^ 63) :
    (∃ w, word? n = some w ∧ lo ≤ w.toInt ∧ w.toInt ≤ hi) ↔ lo ≤ n ∧ n ≤ hi := by
  constructor
  · rintro ⟨w, hw, hlow, hhigh⟩
    rw [word?] at hw
    split at hw
    · next hfits =>
      cases hw
      rw [Int64.toInt_ofInt_of_le hfits.1 (Int.lt_add_one_of_le hfits.2)] at hlow hhigh
      exact ⟨hlow, hhigh⟩
    · cases hw
  · rintro ⟨hlow, hhigh⟩
    refine ⟨_, word?_eq_some (by omega) (by omega), ?_⟩
    rw [Int64.toInt_ofInt_of_le (by omega) (by omega)]
    exact ⟨hlow, hhigh⟩

theorem Text.eq_of_map_word?_eq {α : Type} (mk : Register → Int64 → α)
    (hmk : ∀ {r r' w w'}, mk r w = mk r' w' → r = r' ∧ w = w') {r r' : Register} {n m : Nat}
    (hlt : m < 2 ^ 63) (h : (word? n).map (mk r) = (word? m).map (mk r')) : r = r' ∧ n = m := by
  have hlow : -2 ^ 63 ≤ (m : Int) := by omega
  have hhigh : (m : Int) < 2 ^ 63 := by omega
  rw [word?_eq_some hlow hhigh, Option.map_some, Option.map_eq_some_iff] at h
  obtain ⟨w, hword, hw⟩ := h
  obtain ⟨hr, rfl⟩ := hmk hw
  have hrange := (exists_word?_iff hlow hhigh).1 ⟨_, hword, by
    rw [Int64.toInt_ofInt_of_le hlow hhigh]
    exact ⟨Int.le_refl _, Int.le_refl _⟩⟩
  exact ⟨hr, by omega⟩

end SsaBackend
