import SsaBackend.Proofs.Amd64.Frame
import SsaBackend.Proofs.Arm64.Frame
import SsaBackend.Proofs.Peephole.Soundness
import SsaBackend.Proofs.Riscv64.Frame

/-!
# The calling convention

A function is entered with its return address on the stack or in a register, and with a stack pointer
that was aligned at the call. Prologue and epilogue keep the calling convention of every architecture
(`Arch.keeps_convention`): the prologue sets up the whole frame and keeps the arguments, and the
epilogue hands everything back, provided that the code in between leaves alone what the frame keeps
for it.

All distances are from the stack pointer of the caller at the call. The return address lies at 8 and
the frame pointer at 16 on every architecture; only the saved registers lie in different places.
-/

namespace SsaBackend.Arch

open Asm List Peephole

/-! ### What the convention speaks of -/

/-- The stack pointer of the caller, in a state at the entry of a function. A call on amd64 has pushed
the return address. -/
def callerSp (arch : Arch) (s : State) : Int64 :=
  match arch with
  | amd64 => s.get "rsp" + 8
  | arm64 => s.get "sp"
  | riscv64 => s.get "sp"

/-- Where a function has to return to, in a state at its entry. -/
def returnAddress? (arch : Arch) (s : State) : Option Int64 :=
  match arch.target.linkRegister with
  | some r => some (s.get r)
  | none => s.load (s.get arch.stackPointer)

/-- How far below the stack pointer of the caller the saved register in position `index` lies. -/
def saveDepth (arch : Arch) (f : Frame) (index : Nat) : Nat :=
  match arch with
  | amd64 => Amd64.saveDepth index
  | arm64 => f.saveDepth index
  | riscv64 => f.saveDepth index

/-- The words that a frame keeps for the way back: the return address, the frame pointer, and the
saved registers. -/
def keptWords (arch : Arch) (f : Frame) (returnAddress : Int64) (s : State) : List (Nat × Int64) :=
  (8, returnAddress) :: (16, s.get arch.target.framePointer) ::
    regWords (arch.saveDepth f) 0 f.saved s

/-- What is noted about return addresses where they are signed. -/
def authEvents (arch : Arch) (o : Options) (e : Asm.Event) : List Asm.Event :=
  if arch = arm64 ∧ o.pointerAuth = true then [e] else []

/-- From `s` at the entry of a function to `s'`, the frame was set up. -/
structure Entered (arch : Arch) (o : Options) (f : Frame) (returnAddress : Int64) (s s' : State) :
    Prop where
  args : ∀ r ∈ arch.target.argRegs, s'.get r = s.get r
  calleeSaved : ∀ r ∈ arch.target.calleeSaved, s'.get r = s.get r
  stackPointer : s'.get arch.stackPointer = below (arch.callerSp s) f.size
  /-- Words are stored inside of the frame. -/
  inside : ∀ w ∈ arch.keptWords f returnAddress s, 8 ≤ w.1 ∧ w.1 ≤ f.size ∧ w.1 % 8 = 0
  distinct : ((arch.keptWords f returnAddress s).map Prod.fst).Nodup
  kept : ∀ w ∈ arch.keptWords f returnAddress s,
    s'.memory (below (arch.callerSp s) w.1) = some w.2
  /-- All other words are as before. -/
  memory : ∀ a, (∀ w ∈ arch.keptWords f returnAddress s, a ≠ below (arch.callerSp s) w.1) →
    s'.memory a = s.memory a
  trace : s'.trace = s.trace ++ arch.authEvents o (.sign (arch.callerSp s))

/-- From `s'` to `s''`, code left alone what the frame keeps for a function that was entered at `s`. -/
structure Intact (arch : Arch) (f : Frame) (returnAddress : Int64) (s s' s'' : State) : Prop where
  stackPointer : s''.get arch.stackPointer = s'.get arch.stackPointer
  framePointer : s''.get arch.target.framePointer = s'.get arch.target.framePointer
  kept : ∀ w ∈ arch.keptWords f returnAddress s,
    s''.memory (below (arch.callerSp s) w.1) = s'.memory (below (arch.callerSp s) w.1)
  calleeSaved : ∀ r ∈ arch.target.calleeSaved, r ∉ f.saved → s''.get r = s'.get r

/-- From `s` to `s'`, a function that was entered at `entry` handed everything back. -/
structure Left (arch : Arch) (o : Options) (entry s s' : State) : Prop where
  result : s'.get arch.target.retReg = s.get arch.target.retReg
  framePointer : s'.get arch.target.framePointer = entry.get arch.target.framePointer
  calleeSaved : ∀ r ∈ arch.target.calleeSaved, s'.get r = entry.get r
  stackPointer : s'.get arch.stackPointer = arch.callerSp entry
  memory : s'.memory = s.memory
  trace : s'.trace = s.trace ++ arch.authEvents o (.authenticate (arch.callerSp entry))

/-- The code of the prologue. -/
def prologueCode (arch : Arch) (o : Options) (f : Frame) : List Cell :=
  arch.code ((arch.isa.prologue o f).map .instruction)

/-- The code of the epilogue. -/
def epilogueCode (arch : Arch) (o : Options) (f : Frame) : List Cell :=
  arch.code ((arch.isa.lower o f .epilogue).map .instruction)

/-! ### Kept words -/

section Kept

variable {arch : Arch} {f : Frame} (hlaid : f.WellLaid arch.target)
include hlaid

theorem saveDepth_facts {index : Nat} (h : index < f.saved.length) :
    16 < arch.saveDepth f index ∧ arch.saveDepth f index ≤ f.size ∧
      arch.saveDepth f index % 8 = 0 := by
  cases arch with
  | amd64 =>
    have hfits := hlaid.fits
    simp only [saveDepth, Amd64.saveDepth, fixedArea] at hfits ⊢
    omega
  | arm64 | riscv64 =>
    obtain ⟨-, hword, hlow, hhigh⟩ := hlaid.saveDepth_facts h
    exact ⟨hlow, hhigh, hword⟩

theorem saveDepth_inj {i j : Nat} (hi : i < f.saved.length) (hj : j < f.saved.length)
    (h : arch.saveDepth f i = arch.saveDepth f j) : i = j := by
  have hdepth := (saveDepth_facts hlaid hi).1
  have hdepth' := (saveDepth_facts hlaid hj).1
  cases arch <;>
    simp only [saveDepth, Amd64.saveDepth, Frame.saveDepth, Frame.saveOffset] at h hdepth hdepth' <;>
    omega

theorem keptWords_inside (returnAddress : Int64) (s : State) :
    ∀ w ∈ arch.keptWords f returnAddress s, 8 ≤ w.1 ∧ w.1 ≤ f.size ∧ w.1 % 8 = 0 := by
  have hfits : 16 ≤ f.size := Nat.le_trans (Nat.le_add_left _ _) hlaid.fits
  refine forall_mem_cons.2 ⟨by omega, forall_mem_cons.2 ⟨by omega, ?_⟩⟩
  intro w hw
  obtain ⟨p, hp, rfl⟩ := mem_map.1 hw
  obtain ⟨hlow, hhigh, hword⟩ := saveDepth_facts hlaid (snd_lt_of_mem_zipIdx hp)
  exact ⟨by omega, hhigh, hword⟩

theorem keptWords_distinct (returnAddress : Int64) (s : State) :
    ((arch.keptWords f returnAddress s).map Prod.fst).Nodup := by
  have hdepths : (regWords (arch.saveDepth f) 0 f.saved s).map Prod.fst =
      (List.range' 0 f.saved.length).map (arch.saveDepth f) := by
    rw [← zipIdx_map_snd 0 f.saved, regWords, map_map, map_map]
    rfl
  have hnodup : (List.range' 0 f.saved.length).Nodup := nodup_range'
  have hindex : ∀ {i}, i ∈ List.range' 0 f.saved.length → i < f.saved.length := fun hi => by
    simpa using hi
  have hlow : ∀ n ∈ (List.range' 0 f.saved.length).map (arch.saveDepth f), 16 < n := by
    intro n hn
    obtain ⟨i, hi, rfl⟩ := mem_map.1 hn
    exact (saveDepth_facts hlaid (hindex hi)).1
  rw [keptWords, map_cons, map_cons, hdepths]
  refine nodup_cons.2 ⟨?_, nodup_cons.2 ⟨?_, ?_⟩⟩
  · rintro (_ | ⟨_, h⟩)
    exact absurd (hlow 8 h) (by decide)
  · exact fun h => absurd (hlow 16 h) (by decide)
  · exact hnodup.map_on fun i hi j hj h => saveDepth_inj hlaid (hindex hi) (hindex hj) h

end Kept

/-! ### Prologue and epilogue on every architecture -/

theorem code_map {arch : Arch} {α : Type} {render : α → String} {cell : α → Cell}
    (hline : ∀ i, (cell i).line = .instruction (render i)) {instrs : List α}
    (h : ∀ i ∈ instrs, Shaped arch.dialect.commentMark.toList arch.Shape (cell i)) :
    arch.code ((instrs.map render).map .instruction) = instrs.map cell := by
  have hlines : (instrs.map render).map Line.instruction = (instrs.map cell).map Cell.line := by
    simp [hline]
  have hshaped : ∀ c ∈ instrs.map cell, Shaped arch.dialect.commentMark.toList arch.Shape c := by
    intro c hc
    obtain ⟨i, hi, rfl⟩ := mem_map.1 hc
    exact h i hi
  rw [hlines]
  exact readCode_map_line arch.isMark_commentMark hshaped

def entryRegs : Arch → List Register
  | amd64 => Amd64.entryRegs
  | arm64 => Arm64.entryRegs
  | riscv64 => Riscv64.entryRegs

def exitRegs : Arch → List Register
  | amd64 => ["rsp"]
  | arm64 => Arm64.exitRegs
  | riscv64 => "ra" :: Riscv64.exitRegs

/-- How far below the stack pointer of the caller the frame pointer points. -/
def framePointerDepth : Arch → Nat
  | amd64 => 16
  | arm64 => 16
  | riscv64 => 0

def withEvents (s : State) (events : List Asm.Event) : State :=
  { s with trace := s.trace ++ events }

theorem withEvents_nil (s : State) : withEvents s [] = s := by simp [withEvents]

theorem authEvents_of_ne {arch : Arch} (h : arch ≠ arm64) (o : Options) (e : Asm.Event) :
    arch.authEvents o e = [] := if_neg fun hboth => h hboth.1

theorem noted_eq (o : Options) (event : Int64 → Asm.Event) (s : State) {top : Int64}
    (htop : s.get "sp" = top) :
    Arm64.noted o event s = withEvents s (arm64.authEvents o (event top)) := by
  subst htop
  unfold Arm64.noted authEvents
  split
  · next hauth => simp [hauth, withEvents, State.log]
  · next hauth => simp [hauth, withEvents]

section Runs

variable {arch : Arch} (o : Options) {f : Frame} (hlaid : f.WellLaid arch.target) (host : Host)
  {s : State}

include hlaid

theorem prologueCode_leads (haligned : (arch.callerSp s).toInt % 8 = 0) {ra : Int64}
    (hra : arch.returnAddress? s = some ra) :
    Leads (arch.exec host) (arch.prologueCode o f) s fun s' =>
      s'.get arch.stackPointer = below (arch.callerSp s) f.size ∧
      s'.get arch.target.framePointer = below (arch.callerSp s) arch.framePointerDepth ∧
      Wrote (arch.callerSp s) arch.entryRegs (arch.keptWords f ra s)
        (withEvents s (arch.authEvents o (.sign (arch.callerSp s)))) s' := by
  cases arch with
  | amd64 =>
    have hcode : amd64.prologueCode o f = (Amd64.prologue f).map Amd64.Instr.cell :=
      code_map (fun i => rfl) fun i hi =>
        (Amd64.prologue_proper hlaid.saved i hi).shaped
    have hsp : s.get "rsp" = below (amd64.callerSp s) 8 := (Int64.add_sub_cancel _ _).symm
    -- the call pushed the return address, so its word is there before the code starts
    have hword : s.memory (below (amd64.callerSp s) 8) = some ra := by
      rw [← load_below haligned (by rfl), ← hsp]
      exact hra
    rw [hcode]
    refine (Amd64.prologue_leads host haligned hlaid hsp).mono fun s' ⟨hsp', hfp', hwrote⟩ =>
      ⟨hsp', hfp', ?_⟩
    rw [authEvents_of_ne (by decide), withEvents_nil]
    exact hwrote.cons hword
  | arm64 =>
    have hcode : arm64.prologueCode o f = (Arm64.prologue o f).map Arm64.Instr.cell :=
      code_map (fun i => rfl) fun i hi =>
        (Arm64.prologue_proper hlaid.saved o i hi).shaped
    cases hra
    rw [hcode]
    refine (Arm64.prologue_leads host hlaid haligned o rfl).mono fun s' ⟨hsp', hfp', hwrote⟩ =>
      ⟨hsp', hfp', ?_⟩
    rw [← noted_eq o .sign s (show s.get "sp" = arm64.callerSp s from rfl)]
    -- `stp` stores the two words of the fixed area in the other order
    have hperm : ((16, s.get "x29") :: (8, s.get "x30") :: regWords f.saveDepth 0 f.saved s).Perm
        (arm64.keptWords f (s.get "x30") s) := List.Perm.swap _ _ _
    have hdistinct := keptWords_distinct hlaid (s.get "x30") s
    have hinside := keptWords_inside hlaid (s.get "x30") s
    have hsize := hlaid.size_lt
    refine hwrote.perm hperm ((hperm.map _).nodup_iff.2 hdistinct) fun w hw => ?_
    have hw' := hinside w (hperm.mem_iff.1 hw)
    omega
  | riscv64 =>
    have hcode : riscv64.prologueCode o f = (Riscv64.prologue f).map Riscv64.Instr.cell :=
      code_map (fun i => rfl) fun i hi =>
        (Riscv64.prologue_proper hlaid.saved i hi).shaped
    cases hra
    rw [hcode]
    refine (Riscv64.prologue_leads host hlaid haligned rfl).mono fun s' ⟨hsp', hfp', hwrote⟩ =>
      ⟨hsp', hfp'.trans (below_zero _).symm, ?_⟩
    rw [authEvents_of_ne (by decide), withEvents_nil]
    exact hwrote

theorem straight_epilogueCode {top : Int64} (haligned : top.toInt % 8 = 0) {entry : State}
    {ra : Int64} (hra : arch.returnAddress? entry = some ra)
    (hsp : s.get arch.stackPointer = below top f.size)
    (hfp : s.get arch.target.framePointer = below top arch.framePointerDepth)
    (hkept : ∀ w ∈ arch.keptWords f ra entry, s.memory (below top w.1) = some w.2) :
    ∃ s', straight (arch.exec host) (arch.epilogueCode o f) s =
        some (.ret ra (withEvents s' (arch.authEvents o (.authenticate top)))) ∧
      s'.get arch.stackPointer = top ∧
      Restored entry.get (f.saved ++ [arch.target.framePointer]) arch.exitRegs s s' := by
  obtain ⟨hword, hkept⟩ := forall_mem_cons.1 hkept
  obtain ⟨hfpword, hkept⟩ := forall_mem_cons.1 hkept
  have hwords : ∀ p ∈ f.saved.zipIdx,
      s.memory (below top (arch.saveDepth f p.2)) = some (entry.get p.1) := forall_mem_map.1 hkept
  cases arch with
  | amd64 =>
    have hcode : amd64.epilogueCode o f = (Amd64.epilogue f).map Amd64.Instr.cell :=
      code_map (fun i => rfl) fun i hi =>
        (Amd64.epilogue_proper hlaid.saved i hi).shaped
    obtain ⟨s', hrun, hsp', hrestored⟩ :=
      Amd64.straight_epilogue host haligned entry.get hlaid hsp hword hfpword hwords
    have hforward : Restored entry.get (f.saved ++ ["rbp"]) ["rsp"] s s' :=
      hrestored.weaken (by simp) (by simp)
    refine ⟨s', ?_, hsp', hforward⟩
    rw [hcode, authEvents_of_ne (by decide), withEvents_nil]
    exact hrun
  | arm64 =>
    have hcode : arm64.epilogueCode o f = (Arm64.epilogue o f).map Arm64.Instr.cell :=
      code_map (fun i => rfl) fun i hi =>
        (Arm64.epilogue_proper hlaid.saved o i hi).shaped
    obtain ⟨_, hrun, s', rfl, hsp', hrestored⟩ :=
      Arm64.straight_epilogue host hlaid haligned entry.get hsp hwords hfp hword hfpword o
    refine ⟨s', ?_, hsp', hrestored⟩
    rw [hcode, ← noted_eq o .authenticate s' hsp']
    exact hrun
  | riscv64 =>
    have hcode : riscv64.epilogueCode o f = (Riscv64.epilogue f).map Riscv64.Instr.cell :=
      code_map (fun i => rfl) fun i hi =>
        (Riscv64.epilogue_proper hlaid.saved i hi).shaped
    cases hra
    obtain ⟨s', hrun, hsp', hrestored⟩ :=
      Riscv64.straight_epilogue host hlaid haligned entry.get hsp hwords hword hfpword
    -- the return address counts as changed, as on the other architectures
    have hpointer : Restored entry.get (f.saved ++ ["s0"]) ("ra" :: Riscv64.exitRegs) s s' := by
      refine hrestored.weaken (fun r hr => ?_) fun r hr => ?_
      · rw [append_assoc]
        exact mem_append.2 ((mem_append.1 hr).imp_right (mem_cons_of_mem _))
      · rcases hr with hr | hr
        · rcases mem_append.1 hr with hr | hr
          · exact (mem_append.1 hr).imp (mem_append_left _) fun hra =>
              mem_cons.2 (.inl (mem_singleton.1 hra))
          · exact .inl (mem_append_right _ hr)
        · exact .inr (mem_cons_of_mem _ hr)
    refine ⟨s', ?_, hsp', hpointer⟩
    rw [hcode, authEvents_of_ne (by decide), withEvents_nil]
    exact hrun

end Runs

/-! ### The convention -/

theorem facts_of_mem_argRegs (arch : Arch) :
    ∀ r ∈ arch.target.argRegs, isPlain r = true ∧ r ∉ arch.entryRegs := by
  cases arch <;> decide

theorem facts_of_mem_calleeSaved (arch : Arch) :
    ∀ r ∈ arch.target.calleeSaved, isPlain r = true ∧ r ∉ arch.entryRegs ∧ r ∉ arch.exitRegs ∧
      r ≠ arch.target.framePointer := by
  cases arch <;> decide

theorem facts_of_retReg (arch : Arch) :
    isPlain arch.target.retReg = true ∧ arch.target.retReg ∉ arch.exitRegs ∧
      arch.target.retReg ∉ arch.target.calleeSaved ∧
      arch.target.retReg ≠ arch.target.framePointer := by
  cases arch <;> decide

section Assemble

variable {arch : Arch} {o : Options} {f : Frame} (hlaid : f.WellLaid arch.target) {ra : Int64}
  {s s' s'' : State}

include hlaid

theorem entered_of_wrote (hsp : s'.get arch.stackPointer = below (arch.callerSp s) f.size)
    (hwrote : Wrote (arch.callerSp s) arch.entryRegs (arch.keptWords f ra s)
      (withEvents s (arch.authEvents o (.sign (arch.callerSp s)))) s') :
    arch.Entered o f ra s s' where
  args r hr := hwrote.get r (arch.facts_of_mem_argRegs r hr).1 (arch.facts_of_mem_argRegs r hr).2
  calleeSaved r hr :=
    hwrote.get r (arch.facts_of_mem_calleeSaved r hr).1 (arch.facts_of_mem_calleeSaved r hr).2.1
  stackPointer := hsp
  inside := keptWords_inside hlaid ra s
  distinct := keptWords_distinct hlaid ra s
  kept w hw := by
    rw [hwrote.memory]
    refine writeBelow_of_mem (keptWords_distinct hlaid ra s) (fun w' hw' => ?_) hw
    have hlt := hlaid.size_lt
    have hinside := keptWords_inside hlaid ra s w' hw'
    omega
  memory a ha := by
    rw [hwrote.memory]
    exact writeBelow_of_ne ha
  trace := hwrote.trace

theorem left_of_restored (hentered : arch.Entered o f ra s s') (hintact : arch.Intact f ra s s' s'')
    {s₁ : State} (hsp : s₁.get arch.stackPointer = arch.callerSp s)
    (hrestored : Restored s.get (f.saved ++ [arch.target.framePointer]) arch.exitRegs s'' s₁) :
    arch.Left o s s'' (withEvents s₁ (arch.authEvents o (.authenticate (arch.callerSp s)))) where
  result := by
    obtain ⟨hplain, hexit, hcallee, hfp⟩ := arch.facts_of_retReg
    refine hrestored.get _ hplain (fun hmem => ?_) hexit
    rcases mem_append.1 hmem with hmem | hmem
    · exact hcallee (hlaid.saved _ hmem)
    · exact hfp (mem_singleton.1 hmem)
  framePointer := hrestored.restored _ (by simp)
  calleeSaved r hr := by
    obtain ⟨hplain, -, hexit, hfp⟩ := arch.facts_of_mem_calleeSaved r hr
    by_cases hsaved : r ∈ f.saved
    · exact hrestored.restored r (mem_append_left _ hsaved)
    · calc s₁.get r = s''.get r := hrestored.get r hplain (by simp [hsaved, hfp]) hexit
        _ = s'.get r := hintact.calleeSaved r hr hsaved
        _ = s.get r := hentered.calleeSaved r hr
  stackPointer := hsp
  memory := hrestored.memory
  trace := congrArg (· ++ _) hrestored.trace

end Assemble

/-- Prologue and epilogue keep the calling convention. From any entry of a function with a frame of
less than 4 GiB, the prologue sets up the frame. From any state after that in which the frame is
intact, the epilogue returns to the right address and hands everything back. Where return addresses
are signed, that happens once at either end, with the same stack pointer. -/
theorem keeps_convention (arch : Arch) (o : Options) (a : Allocation) (outgoing : Nat)
    (hsize : (Frame.ofAllocation arch.target a outgoing).size < 2 ^ 32) (host : Host) {s : State}
    (haligned : (arch.callerSp s).toInt % arch.target.stackAlign = 0) {ra : Int64}
    (hra : arch.returnAddress? s = some ra) :
    ∃ s₁, straight (arch.exec host)
        (arch.prologueCode o (.ofAllocation arch.target a outgoing)) s = some (.next s₁) ∧
      arch.Entered o (.ofAllocation arch.target a outgoing) ra s s₁ ∧
      ∀ s₂, arch.Intact (.ofAllocation arch.target a outgoing) ra s s₁ s₂ →
        ∃ s₃, straight (arch.exec host)
            (arch.epilogueCode o (.ofAllocation arch.target a outgoing)) s₂ = some (.ret ra s₃) ∧
          arch.Left o s s₂ s₃ := by
  have hunits : arch.target.stackAlign = 16 ∧ arch.target.wordSize = 8 := by cases arch <;> decide
  have hlaid := Frame.wellLaid_ofAllocation hunits.1 hunits.2 a outgoing hsize
  have haligned' : (arch.callerSp s).toInt % 8 = 0 := by
    rw [hunits.1] at haligned
    omega
  generalize Frame.ofAllocation arch.target a outgoing = f at hlaid
  obtain ⟨s₁, hrun, hsp, hfp, hwrote⟩ := prologueCode_leads o hlaid host haligned' hra
  have hentered := entered_of_wrote hlaid hsp hwrote
  refine ⟨s₁, hrun, hentered, fun s₂ hintact => ?_⟩
  obtain ⟨s₃, hrun', hsp', hrestored⟩ := straight_epilogueCode o hlaid host haligned' hra
    (hintact.stackPointer.trans hsp) (hintact.framePointer.trans hfp)
    fun w hw => (hintact.kept w hw).trans (hentered.kept w hw)
  exact ⟨_, hrun', left_of_restored hlaid hentered hintact hsp' hrestored⟩

/-- Two values in registers, and a spill area that no offset reaches across. -/
def farAllocation : Allocation :=
  ⟨[(0, .register "x19"), (1, .register "x28"), (2, .stack 40000)], 40008⟩

/-- An entry with an aligned stack pointer and a return address. -/
def farEntry : State where
  regs := fun r => if r = "sp" then 1048576 else if r = "x30" then 4660 else 7
  memory := fun _ => none
  flags := (0, 0)
  trace := []

/-- A frame on Arm that is too large for immediates, below outgoing arguments that put the saved
registers out of reach, with signed return addresses. The empty body leaves it intact. -/
theorem keeps_convention_far :
    (Frame.ofAllocation arm64.target farAllocation 5000).size = 80048 ∧
      (Frame.ofAllocation arm64.target farAllocation 5000).saved = ["x19", "x28"] ∧
      arm64.callerSp farEntry = 1048576 ∧ arm64.returnAddress? farEntry = some 4660 ∧
      ∀ host, ∃ s₁ s₂,
        straight (arm64.exec host) (arm64.prologueCode ⟨true⟩
          (.ofAllocation arm64.target farAllocation 5000)) farEntry = some (.next s₁) ∧
        arm64.Entered ⟨true⟩ (.ofAllocation arm64.target farAllocation 5000) 4660 farEntry s₁ ∧
        straight (arm64.exec host) (arm64.epilogueCode ⟨true⟩
          (.ofAllocation arm64.target farAllocation 5000)) s₁ = some (.ret 4660 s₂) ∧
        arm64.Left ⟨true⟩ farEntry s₁ s₂ := by
  have hsize : (Frame.ofAllocation arm64.target farAllocation 5000).size = 80048 := by decide
  have hra : arm64.returnAddress? farEntry = some 4660 := by decide
  refine ⟨hsize, by decide, by decide, hra, fun host => ?_⟩
  obtain ⟨s₁, hrun, hentered, hbody⟩ := keeps_convention arm64 ⟨true⟩ farAllocation 5000
    (by rw [hsize]; decide) host (s := farEntry) (by decide) hra
  obtain ⟨s₂, hrun', hleft⟩ := hbody s₁ ⟨rfl, rfl, fun _ _ => rfl, fun _ _ _ => rfl⟩
  exact ⟨s₁, s₂, hrun, hentered, hrun', hleft⟩

end SsaBackend.Arch
