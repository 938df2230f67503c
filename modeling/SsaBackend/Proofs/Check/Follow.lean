import SsaBackend.Check.Report
import SsaBackend.Proofs.Listing

/-!
# Following assembly

A check follows a text from its first line to its last with a tracker. `Check.Quiet` says that lines
report nothing of a kind from every tracker with a property, and with which property they leave the
tracker; such statements about parts of a text combine to one about the whole
(`Check.Quiet.append`). Of everything a check can find, only what the tracker finds out about stack,
saved registers, return address and calls is about the frame (`Finding.isFrame`): what is wrong with
two instructions next to each other (`Finding.isNeighbour`) or with a single one is something else
(`Check.mem_follow_of_isFrame`, `Arch.isSingle_of_mem_operandFindings`).
-/

namespace SsaBackend

open Asm List

variable {x : Finding}

namespace Finding

/-- Findings about the depth of the stack. -/
def isStack : Finding → Bool
  | fault .stackUnderflow => true
  | warning (.stackImbalance _) => true
  | _ => false

/-- Findings about the frame: the depth of the stack, saved registers, the return address, and
registers that are read after a call changed them. -/
def isFrame : Finding → Bool
  | fault .stackUnderflow => true
  | fault .signedOutsidePrologue => true
  | fault .authenticatedUnsigned => true
  | fault .returnUnauthenticated => true
  | fault (.notRestored _) => true
  | warning (.stackImbalance _) => true
  | warning .framePairUnsaved => true
  | warning .framePointerNotRestored => true
  | warning .linkRegisterNotRestored => true
  | warning (.clobberedRead _) => true
  | _ => false

/-- Findings about two instructions next to each other. -/
def isNeighbour : Finding → Bool
  | warning (.missingPredecessor _ _) => true
  | warning .selfMove => true
  | warning .swapBack => true
  | warning .overwrittenMove => true
  | _ => false

/-- Findings about a single instruction. -/
def isSingle (x : Finding) : Bool := !x.isFrame && !x.isNeighbour

theorem isSingle_iff : x.isSingle = true ↔ x.isFrame = false ∧ x.isNeighbour = false := by
  simp [isSingle]

theorem isStack_eq_false (h : x.isFrame = false) : x.isStack = false := by
  cases x with
  | fault cause | warning cause => cases cause <;> simp_all [isFrame, isStack]

theorem isFrame_eq_false (h : x.isNeighbour = true) : x.isFrame = false := by
  cases x with
  | fault cause | warning cause => cases cause <;> simp_all [isFrame, isNeighbour]

end Finding

/-! ### What an instruction changes -/

namespace Tracker

variable {d : Dialect} (i : AsmInstr) (t : Tracker)

theorem applyEffect_eq (e : StackEffect) : ∃ depth frameDepth tracking, t.applyEffect e =
    { t with depth := depth, frameDepth := frameDepth, tracking := tracking } := by
  cases e with
  | restoreFrame offset =>
    unfold applyEffect
    dsimp only
    split <;> exact ⟨_, _, _, rfl⟩
  | grow | shrink | setFrame | unknown => exact ⟨_, _, _, rfl⟩

theorem passEffects_eq (effects : List StackEffect) : ∃ depth frameDepth tracking,
    (t.passEffects effects).1 =
      { t with depth := depth, frameDepth := frameDepth, tracking := tracking } := by
  induction effects generalizing t with
  | nil => exact ⟨_, _, _, rfl⟩
  | cons e effects ih =>
    obtain ⟨_, _, _, happly⟩ := t.applyEffect_eq e
    obtain ⟨_, _, _, hrest⟩ := ih (t.passEffect e).1
    have hfirst : ∃ depth frameDepth tracking, (t.passEffect e).1 =
        { t with depth := depth, frameDepth := frameDepth, tracking := tracking } := by
      rw [passEffect, happly]
      dsimp only
      split <;> exact ⟨_, _, _, rfl⟩
    obtain ⟨_, _, _, hfirst⟩ := hfirst
    rw [passEffects]
    dsimp only
    rw [hrest, hfirst]
    exact ⟨_, _, _, rfl⟩

theorem passAddress_eq : ∃ signed authenticated,
    (((t.passSigning d i).1.passAuthentication d i).1.returnAddress d i).1 =
      { t with signed := signed, authenticated := authenticated } := by
  unfold passSigning passAuthentication returnAddress
  split <;> split <;> split <;> exact ⟨_, _, rfl⟩

theorem noteSaved_eq (r : Register) :
    ∃ s fp lr, t.noteSaved d r =
        { t with saved := s, framePointerSaved := fp, linkRegisterSaved := lr } ∧
      (∀ r' ∈ s, r' ∈ t.saved ∨ r' = r ∧ d.target.isCalleeSaved r = true) ∧
      (t.framePointerSaved = true → fp = true) ∧ (t.linkRegisterSaved = true → lr = true) ∧
      ∀ r' ∈ t.saved, r' ∈ s := by
  unfold noteSaved
  split
  · exact ⟨_, _, _, rfl, fun _ => .inl, fun _ => rfl, id, fun _ => id⟩
  · split
    · exact ⟨_, _, _, rfl, fun _ => .inl, id, fun _ => rfl, fun _ => id⟩
    · split
      · next hcallee =>
        refine ⟨_, _, _, rfl, fun r' hr' => ?_, id, id, fun r' hr' => Ascending.mem_insert.2 (.inr hr')⟩
        rcases Ascending.mem_insert.1 hr' with rfl | hr'
        · exact .inr ⟨rfl, hcallee⟩
        · exact .inl hr'
      · exact ⟨_, _, _, rfl, fun _ => .inl, id, id, fun _ => id⟩

theorem foldl_noteSaved_eq (rs : List Register) :
    ∃ s fp lr, rs.foldl (noteSaved d) t =
        { t with saved := s, framePointerSaved := fp, linkRegisterSaved := lr } ∧
      (∀ r ∈ s, r ∈ t.saved ∨ r ∈ rs ∧ d.target.isCalleeSaved r = true) ∧
      (t.framePointerSaved = true → fp = true) ∧ (t.linkRegisterSaved = true → lr = true) ∧
      ∀ r ∈ t.saved, r ∈ s := by
  induction rs generalizing t with
  | nil => exact ⟨_, _, _, rfl, fun _ => .inl, id, id, fun _ => id⟩
  | cons r rs ih =>
    obtain ⟨s, fp, lr, heq, hsaved, hfp, hlr, hkept⟩ := t.noteSaved_eq (d := d) r
    obtain ⟨s', fp', lr', heq', hsaved', hfp', hlr', hkept'⟩ := ih (t.noteSaved d r)
    rw [heq] at heq' hsaved' hfp' hlr' hkept'
    refine ⟨s', fp', lr', by rw [foldl_cons, heq, heq'], fun r' hr' => ?_, hfp' ∘ hfp, hlr' ∘ hlr,
      fun r' hr' => hkept' r' (hkept r' hr')⟩
    rcases hsaved' r' hr' with hr' | ⟨hr', hcallee⟩
    · rcases hsaved r' hr' with hr' | ⟨rfl, hcallee⟩
      · exact .inl hr'
      · exact .inr ⟨mem_cons_self, hcallee⟩
    · exact .inr ⟨mem_cons_of_mem _ hr', hcallee⟩

theorem passSaves_eq : ∃ s fp lr, t.passSaves d i =
      { t with
        saved := s
        framePointerSaved := fp
        linkRegisterSaved := lr
        restored := t.restored ++ d.restored i } ∧ ∀ r ∈ t.saved, r ∈ s := by
  unfold passSaves
  split
  · obtain ⟨s, fp, lr, heq, -, -, -, hkept⟩ := t.foldl_noteSaved_eq (d := d) (d.saved i)
    exact ⟨s, fp, lr, by rw [heq], hkept⟩
  · exact ⟨_, _, _, rfl, fun _ => id⟩

/-- What a tracker knows about the stack changes by the effects of an instruction, by a return, and by the
constants that the instruction leaves. -/
theorem pass_eq (hknown : d.isMnemonic i.mnemonic = true) {effects : List StackEffect}
    (heffects : d.stackEffects t.constants i = effects) {u : Tracker}
    (hu : (((t.passSetup d effects i).passEffects effects).1.returnStack d i).1 = u) :
    ∃ s fp lr signed authenticated restored clobbered, (t.pass d i).1 =
      { u with
        saved := s
        framePointerSaved := fp
        linkRegisterSaved := lr
        signed := signed
        authenticated := authenticated
        restored := restored
        clobbered := clobbered
        constants := (d.written i).foldl (fun k r => k.set r (d.constant? u.constants i)) u.constants } := by
  rw [pass, if_pos hknown, passKnown, heffects]
  dsimp only
  obtain ⟨signed, authenticated, haddress⟩ := u.passAddress_eq (d := d) i
  obtain ⟨_, _, _, hsaves, -⟩ :=
    passSaves_eq (d := d) i { u with signed := signed, authenticated := authenticated }
  rw [hu, haddress, hsaves]
  unfold returnRegisters
  split <;> exact ⟨_, _, _, _, _, _, _, rfl⟩

end Tracker

namespace Check

/-! ### Trackers behind listings -/

/-- The tracker behind a listing. -/
def after (d : Dialect) (t : Tracker) : List Item → Tracker
  | [] => t
  | .label name :: items => after d (t.passLabel name) items
  | .directive _ :: items => after d t items
  | .instr i :: items => after d (t.pass d i).1 items

variable {d : Dialect}

theorem after_append (t : Tracker) (items items' : List Item) :
    after d t (items ++ items') = after d (after d t items) items' := by
  induction items generalizing t with
  | nil => rfl
  | cons item items ih => cases item <;> exact ih _

theorem follow_append (t : Tracker) (items items' : List Item) :
    follow d t (items ++ items') = follow d t items ++ follow d (after d t items) items' := by
  induction items generalizing t with
  | nil => rfl
  | cons item items ih =>
    cases item with
    | label | directive => exact ih _
    | instr i => simp only [cons_append, follow, after, ih, append_assoc]

/-! ### Quiet lines -/

def Quiet (d : Dialect) (bad : Finding → Bool) (P : Tracker → Prop) (a : Assembly)
    (Q : Tracker → Prop) : Prop :=
  ∀ t n, P t → (∀ x ∈ follow d t (items d n a), bad x.cause = false) ∧ Q (after d t (items d n a))

namespace Quiet

variable {bad : Finding → Bool} {P P' Q Q' R : Tracker → Prop} {a a' : Assembly}

theorem nil (h : ∀ t, P t → Q t) : Quiet d bad P [] Q := fun t _ ht => ⟨by simp [follow], h t ht⟩

theorem append (h : Quiet d bad P a Q) (h' : Quiet d bad Q a' R) : Quiet d bad P (a ++ a') R := by
  intro t n ht
  obtain ⟨hquiet, hq⟩ := h t n ht
  obtain ⟨hquiet', hr⟩ := h' _ (n + a.length) hq
  rw [items_append, follow_append, after_append]
  exact ⟨forall_mem_append.2 ⟨hquiet, hquiet'⟩, hr⟩

theorem mono (h : Quiet d bad P a Q) (hp : ∀ t, P' t → P t) (hq : ∀ t, Q t → Q' t) :
    Quiet d bad P' a Q' := fun t n ht => (h t n (hp t ht)).imp_right (hq _)

theorem and (h : Quiet d bad P a Q) (h' : Quiet d bad P a Q') :
    Quiet d bad P a (fun t => Q t ∧ Q' t) := fun t n ht =>
  ⟨(h t n ht).1, (h t n ht).2, (h' t n ht).2⟩

theorem label {name : String} (h : ∀ t, P t → Q (t.passLabel name)) :
    Quiet d bad P [.label name] Q := fun t n ht => ⟨by simp [item?, follow], h t ht⟩

theorem directive (text : String) (h : ∀ t, P t → Q t) : Quiet d bad P [.directive text] Q :=
  fun t n ht => ⟨by simp [item?, follow], h t ht⟩

theorem instr {line : Line} {i : Nat → AsmInstr} (hread : ∀ n, item? d n line = some (.instr (i n)))
    (h : ∀ t n, P t → (∀ x ∈ (t.pass d (i n)).2, bad x = false) ∧ Q (t.pass d (i n)).1) :
    Quiet d bad P [line] Q := by
  intro t n ht
  obtain ⟨hquiet, hq⟩ := h t n ht
  simp only [items_cons, items_nil, hread, Option.toList_some, append_nil, follow, after,
    forall_mem_map]
  exact ⟨hquiet, hq⟩

end Quiet

/-! ### Whole reports -/

variable {x : Diagnostic Finding}

theorem of_mem_pairFindings {pair : AsmInstr × AsmInstr} (hx : x ∈ pairFindings d pair) :
    x.cause.isNeighbour = true ∧ (x.instr = pair.1 ∨ x.instr = pair.2) := by
  rcases mem_append.1 hx with hx | hx
  · unfold predecessorFindings at hx
    split at hx
    · split at hx
      · cases hx
      · rw [mem_singleton.1 hx]
        exact ⟨rfl, .inr rfl⟩
    · cases hx
  · unfold moveFindings at hx
    split at hx
    · cases hx
    · split at hx
      · rw [mem_singleton.1 hx]
        exact ⟨rfl, .inl rfl⟩
      · split at hx
        · rw [mem_singleton.1 hx]
          exact ⟨rfl, .inr rfl⟩
        · split at hx
          · rw [mem_singleton.1 hx]
            exact ⟨rfl, .inl rfl⟩
          · cases hx

variable {items : List Item}

theorem isNeighbour_of_mem_firstFindings
    (hx : x ∈ firstFindings d items) : x.cause.isNeighbour = true := by
  unfold firstFindings at hx
  split at hx
  · cases hx
  · split at hx
    · rw [mem_singleton.1 hx]
      rfl
    · cases hx

theorem mem_follow_or_isNeighbour
    (hx : x ∈ listing d items) : x ∈ follow d .start items ∨ x.cause.isNeighbour = true := by
  rcases mem_append.1 hx with hx | hx
  · refine (mem_append.1 hx).imp_right fun hx => ?_
    obtain ⟨pair, -, hx⟩ := mem_flatMap.1 hx
    exact (of_mem_pairFindings hx).1
  · exact .inr (isNeighbour_of_mem_firstFindings hx)

theorem mem_follow_of_isFrame
    (hx : x ∈ listing d items) (hframe : x.cause.isFrame = true) : x ∈ follow d .start items := by
  refine (mem_follow_or_isNeighbour hx).resolve_right fun h => ?_
  rw [Finding.isFrame_eq_false h] at hframe
  cases hframe

end Check

/-! ### Single instructions -/

namespace Arch

theorem isSingle_of_mem_operandFindings (arch : Arch) {i : AsmInstr}
    (hx : x ∈ arch.dialect.operandFindings i) : x.isSingle = true := by
  -- one fact for each list of findings that the check puts together
  have hfaults : ∀ c ∈ arch.dialect.operandFaults i, (Finding.fault c).isSingle = true := by
    intro c hc
    cases arch with
    | amd64 =>
      simp only [dialect, Amd64.dialect] at hc
      split at hc
      · rw [mem_singleton.1 hc]
        rfl
      · cases hc
    | arm64 => cases hc
    | riscv64 =>
      simp only [dialect, Riscv64.dialect, Riscv64.operandFaults] at hc
      split at hc
      · split at hc
        · rw [mem_singleton.1 hc]
          rfl
        · cases hc
      · cases hc
  have hwarnings : ∀ c ∈ arch.dialect.operandWarnings i, (Finding.warning c).isSingle = true := by
    intro c hc
    cases arch with
    | amd64 | arm64 => cases hc
    | riscv64 =>
      simp only [dialect, Riscv64.dialect, Riscv64.operandWarnings] at hc
      split at hc
      · cases hc
      · obtain ⟨operand, -, rfl⟩ := mem_map.1 hc
        rfl
  have hnames : ∀ c ∈ arch.dialect.nameFaults i, (Finding.fault c).isSingle = true := by
    intro c hc
    unfold Dialect.nameFaults at hc
    split at hc
    · obtain ⟨o, -, hc⟩ := mem_flatMap.1 hc
      obtain ⟨r, -, rfl⟩ := mem_map.1 hc
      rfl
    · rw [mem_singleton.1 hc]
      rfl
  have hmemory : ∀ c ∈ arch.dialect.memoryFaults i, (Finding.fault c).isSingle = true := by
    intro c hc
    obtain ⟨op, -, hc⟩ := mem_flatMap.1 hc
    obtain ⟨fault, -, rfl⟩ := Option.map_eq_some_iff.1 (Option.mem_toList.1 hc)
    rfl
  have hdst : ∀ c ∈ arch.dialect.destinationFaults i, (Finding.fault c).isSingle = true := by
    intro c hc
    obtain ⟨op, -, rfl⟩ := mem_map.1 hc
    rfl
  unfold Dialect.operandFindings at hx
  rcases mem_append.1 hx with hx | hx
  · obtain ⟨c, hc, rfl⟩ := mem_map.1 hx
    simp only [mem_append] at hc
    rcases hc with ((hc | hc) | hc) | hc
    · exact hnames c hc
    · exact hmemory c hc
    · exact hdst c hc
    · exact hfaults c hc
  · obtain ⟨c, hc, rfl⟩ := mem_map.1 hx
    exact hwarnings c hc

theorem isFrame_of_mem_operandFindings (arch : Arch) {i : AsmInstr}
    (hx : x ∈ arch.dialect.operandFindings i) : x.isFrame = false :=
  (Finding.isSingle_iff.1 (arch.isSingle_of_mem_operandFindings hx)).1

end Arch

end SsaBackend
