import SsaBackend.Proofs.Calls.Arguments
import SsaBackend.Proofs.Check.Encoding

/-!
# The code around a call

The code of a call is cut at the call instruction (`Arch.lower_call`). What comes before puts every
argument into its place (`Arch.beforeCall_leads`); what comes after takes arguments off the stack and
puts the result into its place (`Arch.afterCall_leads`).
-/

namespace SsaBackend

open Asm List

variable {args : List Operand} {dst : Option Operand} {f : Frame}

/-! ### Around the call instruction -/

namespace Amd64

def padding (count : Nat) : Nat := if count % 2 = 1 then 8 else 0

def beforeCall (f : Frame) (args : List Operand) : List Instr :=
  lowerStack (padding (args.drop target.argRegs.length).length) ++
    ((args.drop target.argRegs.length).reverse.flatMap fun o =>
      (source f o).1 ++ [.pushq (source f o).2]) ++
    (target.argRegs.zip args).flatMap fun a => loadReg f a.1 a.2

def afterCall (f : Frame) (args : List Operand) (dst : Option Operand) : List Instr :=
  raiseStack ((args.drop target.argRegs.length).length * 8 +
    padding (args.drop target.argRegs.length).length) ++ dst.elim [] (storeReg f target.retReg)

theorem call_eq (f : Frame) (callee : String) (args : List Operand) (dst : Option Operand) :
    call f callee args dst = beforeCall f args ++ .callq callee :: afterCall f args dst := by
  simp [call, beforeCall, afterCall, padding]

theorem code_call (hargs : ∀ o ∈ args, o.Within target.valueRegs)
    (hdst : ∀ d ∈ dst, d.Within target.valueRegs) :
    Arch.amd64.code (((beforeCall f args).map Instr.render).map .instruction) =
        (beforeCall f args).map Instr.cell ∧
      Arch.amd64.code (((afterCall f args dst).map Instr.render).map .instruction) =
        (afterCall f args dst).map Instr.cell := by
  have hproper : ∀ i ∈ call f "f" args dst, i.Proper :=
    lower_proper (s := .call "f" args dst) (by simp) ⟨by decide, hargs, hdst⟩
  rw [call_eq, forall_mem_append, forall_mem_cons] at hproper
  exact ⟨Arch.code_map (fun _ => rfl) fun i hi => (hproper.1 i hi).shaped,
    Arch.code_map (fun _ => rfl) fun i hi => (hproper.2.2 i hi).shaped⟩

theorem stackArgs_lead (host : Host) {top : Int64} {s : State} {xs : List Int64}
    (hroomy : f.Roomy Arch.amd64.target) (hbody : Arch.amd64.InBody f top s)
    (hargs : ∀ o ∈ args, o.Seated Arch.amd64.target f)
    (hread : args.map (Arch.amd64.readOperand f s) = xs.map some) (hcount : args.length ≤ 16) :
    Leads (exec host) ((lowerStack (padding args.length) ++ args.reverse.flatMap fun o =>
        (source f o).1 ++ [Instr.pushq (source f o).2]).map Instr.cell) s fun s' =>
      s'.get "rsp" = below top (f.size + padding args.length + 8 * args.length) ∧
      Wrote top Arch.amd64.passRegs (passedWords (f.size + padding args.length + 8 * args.length) 0 xs)
        s s' := by
  have hpadding : padding args.length ≤ 8 ∧ padding args.length % 8 = 0 := by
    unfold padding
    split <;> decide
  have hsize := hroomy.size_lt
  have hmod := hroomy.size_mod
  rw [map_append]
  refine (lowerStack_leads host (by omega) hbody.stackPointer).append ?_
  rintro s₁ ⟨hsp, hlowered⟩
  have hlowered : Wrote top Arch.amd64.passRegs [] s s₁ := hlowered.mono (by decide)
  -- operands are addressed from the frame pointer, so they are still where they were
  have hread₁ := Arch.map_readOperand_of_wrote hroomy hbody.aligned hbody.slotBase hlowered (by simp)
    hargs hread
  have hbase₁ : s₁.get "rbp" = below top 16 :=
    (hlowered.get _ (by decide) (by decide)).trans hbody.framePointer
  refine (pushArgs_lead host hroomy hbody.aligned hargs hbase₁ hread₁ (by omega) (by omega) hsp).mono ?_
  rintro s₂ ⟨hsp₂, hwrote⟩
  exact ⟨hsp₂, hlowered.trans hwrote⟩

end Amd64

namespace Arm64

def beforeCall (f : Frame) (args : List Operand) : List Instr :=
  ((args.drop target.argRegs.length).zipIdx.flatMap fun a => passOnStack f a.2 a.1) ++
    (target.argRegs.zip args).flatMap fun a => loadReg f a.1 a.2

theorem call_eq (f : Frame) (callee : String) (args : List Operand) (dst : Option Operand) :
    call f callee args dst =
      beforeCall f args ++ .bl callee :: dst.elim [] (write f target.retReg) := by
  simp [call, beforeCall]

theorem code_call (hargs : ∀ o ∈ args, o.Within target.valueRegs)
    (hdst : ∀ d ∈ dst, d.Within target.valueRegs) :
    Arch.arm64.code (((beforeCall f args).map Instr.render).map .instruction) =
        (beforeCall f args).map Instr.cell ∧
      Arch.arm64.code (((dst.elim [] (write f target.retReg)).map Instr.render).map .instruction) =
        (dst.elim [] (write f target.retReg)).map Instr.cell := by
  have hproper : ∀ i ∈ call f "f" args dst, i.Proper :=
    lower_proper (s := .call "f" args dst) (by simp) ⟨false⟩ ⟨by decide, hargs, hdst⟩
  rw [call_eq, forall_mem_append, forall_mem_cons] at hproper
  exact ⟨Arch.code_map (fun _ => rfl) fun i hi => (hproper.1 i hi).shaped,
    Arch.code_map (fun _ => rfl) fun i hi => (hproper.2.2 i hi).shaped⟩

theorem map_cell_passOnStack (f : Frame) (index : Nat) (o : Operand) :
    (passOnStack f index o).map Instr.cell = Arch.arm64.readCode f Arch.arm64.leftReg o ++
      ((spAddress (index * 8)).1 ++ [Instr.str (Arch.readReg Arch.arm64.leftReg o)
        (spAddress (index * 8)).2]).map Instr.cell := by
  show ((read f tmp0 o).1 ++ (spAddress (index * 8)).1 ++
    [Instr.str (read f tmp0 o).2 (spAddress (index * 8)).2]).map Instr.cell = _
  rw [append_assoc, map_append, map_cell_read, read_snd]
  rfl

end Arm64

namespace Riscv64

def beforeCall (f : Frame) (args : List Operand) : List Instr :=
  ((args.drop target.argRegs.length).zipIdx.flatMap fun a => passOnStack f a.2 a.1) ++
    (target.argRegs.zip args).flatMap fun a => loadReg f a.1 a.2

theorem call_eq (f : Frame) (callee : String) (args : List Operand) (dst : Option Operand) :
    call f callee args dst =
      beforeCall f args ++ .call callee :: dst.elim [] (write f target.retReg) := by
  simp [call, beforeCall]

theorem code_call (hargs : ∀ o ∈ args, o.Within target.valueRegs)
    (hdst : ∀ d ∈ dst, d.Within target.valueRegs) :
    Arch.riscv64.code (((beforeCall f args).map Instr.render).map .instruction) =
        (beforeCall f args).map Instr.cell ∧
      Arch.riscv64.code (((dst.elim [] (write f target.retReg)).map Instr.render).map .instruction) =
        (dst.elim [] (write f target.retReg)).map Instr.cell := by
  have hproper : ∀ i ∈ call f "f" args dst, i.Proper :=
    lower_proper (s := .call "f" args dst) (by simp) ⟨by decide, hargs, hdst⟩
  rw [call_eq, forall_mem_append, forall_mem_cons] at hproper
  exact ⟨Arch.code_map (fun _ => rfl) fun i hi => (hproper.1 i hi).shaped,
    Arch.code_map (fun _ => rfl) fun i hi => (hproper.2.2 i hi).shaped⟩

theorem map_cell_passOnStack (f : Frame) (index : Nat) (o : Operand) :
    (passOnStack f index o).map Instr.cell = Arch.riscv64.readCode f Arch.riscv64.leftReg o ++
      (storeSp (Arch.readReg Arch.riscv64.leftReg o) (index * 8)).map Instr.cell := by
  rw [passOnStack, map_append, map_cell_read, read_snd]
  rfl

end Riscv64

namespace Arch

variable {count : Nat}

def beforeCall (arch : Arch) (f : Frame) (args : List Operand) : Assembly :=
  match arch with
  | amd64 => ((Amd64.beforeCall f args).map Amd64.Instr.render).map .instruction
  | arm64 => ((Arm64.beforeCall f args).map Arm64.Instr.render).map .instruction
  | riscv64 => ((Riscv64.beforeCall f args).map Riscv64.Instr.render).map .instruction

def afterCall (arch : Arch) (f : Frame) (args : List Operand) (dst : Option Operand) : Assembly :=
  match arch with
  | amd64 => ((Amd64.afterCall f args dst).map Amd64.Instr.render).map .instruction
  | arm64 =>
    ((dst.elim [] (Arm64.write f Arm64.target.retReg)).map Arm64.Instr.render).map .instruction
  | riscv64 =>
    ((dst.elim [] (Riscv64.write f Riscv64.target.retReg)).map Riscv64.Instr.render).map .instruction

theorem lower_call (arch : Arch) (o : Options) (f : Frame) (callee : String) (args : List Operand)
    (dst : Option Operand) :
    (arch.isa.lower o f (.call callee args dst)).map .instruction =
      arch.beforeCall f args ++ arch.callLine callee :: arch.afterCall f args dst := by
  cases arch with
  | amd64 =>
    show ((Amd64.call f callee args dst).map Amd64.Instr.render).map Line.instruction = _
    rw [Amd64.call_eq, map_append, map_append]
    rfl
  | arm64 =>
    show ((Arm64.call f callee args dst).map Arm64.Instr.render).map Line.instruction = _
    rw [Arm64.call_eq, map_append, map_append]
    rfl
  | riscv64 =>
    show ((Riscv64.call f callee args dst).map Riscv64.Instr.render).map Line.instruction = _
    rw [Riscv64.call_eq, map_append, map_append]
    rfl

/-! ### Before the call -/

def callDepth (arch : Arch) (f : Frame) (count : Nat) : Nat :=
  match arch with
  | amd64 => f.size + Amd64.padding count + 8 * count
  | arm64 | riscv64 => f.size

variable {arch : Arch} {f : Frame} {top : Int64} {s s' : State} {args : List Operand}
  {xs : List Int64} {dst : Option Operand}

theorem within_of_seated {t : Target} {o : Operand} (ho : o.Seated t f) : o.Within t.valueRegs := by
  cases o with
  | immediate | stack => trivial
  | register r => exact Target.mem_valueRegs ho

theorem stackArgs_le_sixteen (hcount : args.length ≤ arch.target.maxCallArgs) :
    args.length - arch.target.argRegs.length ≤ 16 := by
  have hmax : arch.target.maxStackArgs = 16 := by cases arch <;> rfl
  rw [Target.maxCallArgs, hmax] at hcount
  omega

theorem callDepth_mod (hroomy : f.Roomy arch.target) (count : Nat) :
    arch.callDepth f count % 16 = 0 := by
  have hmod := hroomy.size_mod
  cases arch with
  | amd64 =>
    simp only [callDepth, Amd64.padding]
    split <;> omega
  | arm64 | riscv64 => exact hmod

theorem callDepth_ge (hroomy : f.Roomy arch.target)
    (hfit : arch.target.reservesOutgoing = true → 8 * count ≤ f.outgoingSize) :
    f.size - f.outgoingSize + 8 * count ≤ arch.callDepth f count := by
  have hfits := hroomy.fits
  cases arch with
  | amd64 =>
    simp only [callDepth]
    omega
  | arm64 | riscv64 =>
    have := hfit rfl
    simp only [callDepth]
    omega

theorem callDepth_lt (hroomy : f.Roomy arch.target) (hcount : count ≤ 16) :
    arch.callDepth f count < 2 ^ 64 := by
  have hsize := hroomy.size_lt
  cases arch <;> simp only [callDepth, Amd64.padding] <;> grind

theorem lt_of_mem_callWords (hroomy : f.Roomy arch.target) (hcount : count ≤ 16)
    (hfit : arch.target.reservesOutgoing = true → 8 * count ≤ f.outgoingSize) {ys : List Int64}
    (hys : ys.length = count) :
    ∀ w ∈ passedWords (arch.callDepth f count) 0 ys, f.size - f.outgoingSize < w.1 ∧ w.1 < 2 ^ 64 := by
  have hdepth := callDepth_ge hroomy hfit
  have hlt := callDepth_lt hroomy hcount
  intro w hw
  have := lt_of_mem_passedWords (show f.size - f.outgoingSize + 8 * (0 + ys.length) ≤ _ by omega) w hw
  omega

section Before

variable (host : Host) (hroomy : f.Roomy arch.target) (hbody : arch.InBody f top s)
  (hargs : ∀ o ∈ args, o.Seated arch.target f)
  (hread : args.map (arch.readOperand f s) = xs.map some)

include hroomy hbody hargs hread

theorem loadArgs_after_words {first : List Cell} {depth : Nat} {words : List (Nat × Int64)}
    (hwords : ∀ w ∈ words, f.size - f.outgoingSize < w.1 ∧ w.1 < 2 ^ 64)
    (hfirst : Leads (arch.exec host) first s fun s' =>
      s'.get arch.stackPointer = below top depth ∧ Wrote top arch.passRegs words s s') :
    Leads (arch.exec host)
      (first ++ (arch.target.argRegs.zip args).flatMap fun a => arch.loadCode f a.1 a.2) s fun s' =>
      s'.get arch.stackPointer = below top depth ∧ Wrote top arch.passRegs words s s' ∧
      ∀ p ∈ arch.target.argRegs.zip xs, s'.get p.1 = p.2 := by
  have hpointer : isPlain arch.stackPointer = true ∧
      arch.stackPointer ∉ arch.target.argRegs ++ arch.addressRegs := by
    cases arch <;> decide
  have hnodup : arch.target.argRegs.Nodup := by cases arch <;> decide
  refine hfirst.append ?_
  rintro s₁ ⟨hsp, hwrote⟩
  have hread₁ := map_readOperand_of_wrote hroomy hbody.aligned hbody.slotBase hwrote hwords hargs hread
  refine (loadArgs_lead host hroomy (fun r => id) hnodup hargs hread₁).mono ?_
  rintro s₂ ⟨hagree, hregs⟩
  refine ⟨?_, ?_, hregs⟩
  · exact (hagree.get _ hpointer.1 hpointer.2).trans hsp
  · have hload : Wrote top arch.passRegs [] s₁ s₂ := (hagree.wrote top).mono fun r hr =>
      (mem_append.1 hr).elim (fun h => (arch.mem_of_mem_argRegs r h).2)
        (arch.addressRegs_subset_passRegs r)
    simpa using hwrote.trans hload

theorem beforeCall_leads (hcount : args.length ≤ arch.target.maxCallArgs)
    (hfit : arch.target.reservesOutgoing = true →
      8 * (args.length - arch.target.argRegs.length) ≤ f.outgoingSize) :
    Leads (arch.exec host) (arch.code (arch.beforeCall f args)) s fun s' =>
      s'.get arch.stackPointer =
        below top (arch.callDepth f (args.length - arch.target.argRegs.length)) ∧
      Wrote top arch.passRegs (passedWords (arch.callDepth f (args.length - arch.target.argRegs.length))
        0 (xs.drop arch.target.argRegs.length)) s s' ∧
      ∀ p ∈ arch.target.argRegs.zip xs, s'.get p.1 = p.2 := by
  have hwithin : ∀ o ∈ args, o.Within arch.target.valueRegs := fun o ho =>
    within_of_seated (hargs o ho)
  have hnone : ∀ d ∈ (none : Option Operand), d.Within arch.target.valueRegs := by simp
  have hstack : ∀ o ∈ args.drop arch.target.argRegs.length, o.Seated arch.target f := fun o ho =>
    hargs o (mem_of_mem_drop ho)
  have hreadStack : (args.drop arch.target.argRegs.length).map (arch.readOperand f s) =
      (xs.drop arch.target.argRegs.length).map some := by
    rw [map_drop, hread, map_drop]
  have hlength : (xs.drop arch.target.argRegs.length).length =
      (args.drop arch.target.argRegs.length).length := by
    simpa using (congrArg List.length hreadStack).symm
  have hcount' := stackArgs_le_sixteen hcount
  rw [← length_drop] at hfit hcount' ⊢
  have hwords := lt_of_mem_callWords hroomy hcount' hfit hlength
  -- amd64 pushes the words; the others store them into the area that the frame has for them
  cases arch with
  | amd64 =>
    have hcode : amd64.code (amd64.beforeCall f args) = _ := (Amd64.code_call hwithin hnone).1
    rw [hcode, Amd64.beforeCall, map_append, map_flatMap]
    exact loadArgs_after_words host hroomy hbody hargs hread hwords
      (Amd64.stackArgs_lead host hroomy hbody hstack hreadStack hcount')
  | arm64 =>
    have hcode : arm64.code (arm64.beforeCall f args) = _ := (Arm64.code_call hwithin hnone).1
    have hfree : ∀ r ∈ arm64.workRegs, Arm64.isFree r = true := by decide
    rw [hcode, Arm64.beforeCall, map_append, map_flatMap, map_flatMap]
    simp only [Arm64.map_cell_passOnStack]
    exact loadArgs_after_words host hroomy hbody hargs hread hwords
      (passWords_lead (k := 0) host hroomy hbody.aligned rfl
        (fun src hsrc offset hoffset s t => (Arm64.access host).store (hfree src hsrc) hoffset)
        hbody.stackPointer hstack hreadStack (by simpa using hfit rfl))
  | riscv64 =>
    have hcode : riscv64.code (riscv64.beforeCall f args) = _ := (Riscv64.code_call hwithin hnone).1
    have hfree : ∀ r ∈ riscv64.workRegs, Riscv64.isFree r = true := by decide
    rw [hcode, Riscv64.beforeCall, map_append, map_flatMap, map_flatMap]
    simp only [Riscv64.map_cell_passOnStack]
    exact loadArgs_after_words host hroomy hbody hargs hread hwords
      (passWords_lead (k := 0) host hroomy hbody.aligned rfl
        (fun src hsrc offset hoffset s t => (Riscv64.access host).store (hfree src hsrc) hoffset)
        hbody.stackPointer hstack hreadStack (by simpa using hfit rfl))

end Before

/-! ### After the call -/

structure Finished (arch : Arch) (f : Frame) (top : Int64) (dst : Option Operand) (s s' : State) :
    Prop where
  stackPointer : s'.get arch.stackPointer = below top f.size
  result : ∀ d ∈ dst, arch.readOperand f s' d = some (s.get arch.target.retReg)
  get : ∀ r ∈ arch.target.framePointer :: arch.target.calleeSaved, dst ≠ some (.register r) →
    s'.get r = s.get r
  memory : ∀ n < 2 ^ 64, (∀ slot, dst = some (.stack slot) → n ≠ arch.slotDepth f slot) →
    s'.memory (below top n) = s.memory (below top n)

theorem facts_of_mem_kept (arch : Arch) :
    ∀ r ∈ arch.stackPointer :: arch.target.framePointer :: arch.target.calleeSaved,
      isPlain r = true ∧ r ∉ arch.addressRegs := by
  cases arch <;> decide

section After

variable (host : Host) (hroomy : f.Roomy arch.target)
  (hdst : ∀ d ∈ dst, d.Seated arch.target f ∧ ∀ x, d ≠ .immediate x)

include hroomy hdst

theorem writeResult_leads (hbody : arch.InBody f top s) :
    Leads (arch.exec host) (dst.elim [] (arch.writeCode f arch.target.retReg)) s
      (arch.Finished f top dst s) := by
  have hpointers : arch.stackPointer ∉ arch.target.allocatable := by cases arch <;> decide
  have hret : arch.target.retReg ∈ arch.workRegs := by cases arch <;> decide
  have hkept := arch.facts_of_mem_kept
  cases dst with
  | none => exact .nil ⟨hbody.stackPointer, by simp, fun _ _ _ => rfl, fun _ _ _ => rfl⟩
  | some d =>
    obtain ⟨hseated, hplace⟩ := hdst d rfl
    have hreach := (inReach_of_seated hroomy hseated).mono fun r => Target.mem_valueRegs
    cases d with
    | immediate x => exact absurd rfl (hplace x)
    | register r =>
      obtain ⟨hplain, hfar, -⟩ := arch.facts_of_mem_workRegs r (mem_workRegs_of_mem_valueRegs hreach)
      -- the result's register is allocatable, so it is none of those with a fixed role
      have hother : ∀ r' ∈ arch.stackPointer :: arch.target.framePointer :: arch.target.calleeSaved,
          r' ≠ r → ∀ s', (s.set r (s.get arch.target.retReg)).Agree arch.addressRegs s' →
          s'.get r' = s.get r' := fun r' hr' hne s' h => by
        obtain ⟨hplain', hfar'⟩ := hkept r' hr'
        rw [h.get r' hplain' hfar', State.get_set_of_ne hplain hplain' hne]
      refine (writeCode_leads host hret hreach rfl).mono fun s' h => ⟨?_, ?_, ?_, ?_⟩
      · refine (hother _ mem_cons_self (fun heq => hpointers ?_) s' h).trans hbody.stackPointer
        exact heq ▸ hseated
      · rintro _ ⟨⟩
        exact congrArg some ((h.get r hplain hfar).trans (State.get_set_self hplain))
      · exact fun r' hr' hne => hother r' (mem_cons_of_mem _ hr') (fun heq => hne (heq ▸ rfl)) s' h
      · intro n _ _
        rw [h.memory, State.memory_set]
    | stack slot =>
      obtain ⟨hlow, hhigh, hword⟩ := slotDepth_facts hroomy hseated
      have haligned := hbody.aligned
      -- the word goes to the slot, and no other word of the frame is at its depth
      have hwrite : arch.writeOperand f s (s.get arch.target.retReg) (.stack slot) =
          some (s.poke (below top (arch.slotDepth f slot)) (s.get arch.target.retReg)) := by
        rw [writeOperand, slotAddress_eq hroomy hseated hbody.slotBase]
        exact store_below (by omega) hword s _
      refine (writeCode_leads host hret hreach hwrite).mono fun s' h => ⟨?_, ?_, ?_, ?_⟩
      · obtain ⟨hplain, hfar⟩ := hkept _ mem_cons_self
        exact (h.get _ hplain hfar).trans hbody.stackPointer
      · rintro _ ⟨⟩
        have hbase : s'.get arch.slotBase = below top (arch.baseDepth f) :=
          (h.get _ arch.isPlain_slotBase fun hmem =>
            arch.slotBase_notMem (mem_append_right _ hmem)).trans hbody.slotBase
        rw [readOperand_stack hroomy hseated haligned hbase, h.memory]
        exact if_pos rfl
      · intro r hr _
        obtain ⟨hplain, hfar⟩ := hkept r (mem_cons_of_mem _ hr)
        exact h.get r hplain hfar
      · intro n hn hne
        have hsize := hroomy.size_lt
        rw [h.memory]
        exact if_neg fun heq => hne slot rfl (below_inj top hn (by omega) heq)

theorem afterCall_leads (hargs : ∀ o ∈ args, o.Seated arch.target f)
    (hcount : args.length ≤ arch.target.maxCallArgs) (haligned : top.toInt % 16 = 0)
    (hsp : s.get arch.stackPointer =
      below top (arch.callDepth f (args.length - arch.target.argRegs.length)))
    (hfp : s.get arch.target.framePointer = below top arch.framePointerDepth) :
    Leads (arch.exec host) (arch.code (arch.afterCall f args dst)) s (arch.Finished f top dst s) := by
  have hwithin : ∀ o ∈ args, o.Within arch.target.valueRegs := fun o ho =>
    within_of_seated (hargs o ho)
  have hwithin' : ∀ d ∈ dst, d.Within arch.target.valueRegs := fun d hd =>
    within_of_seated (hdst d hd).1
  cases arch with
  | amd64 =>
    have hcode : amd64.code (amd64.afterCall f args dst) = _ := (Amd64.code_call hwithin hwithin').2
    have hresult : (dst.elim [] (Amd64.storeReg f Amd64.target.retReg)).map Amd64.Instr.cell =
        dst.elim [] (amd64.writeCode f amd64.target.retReg) := by cases dst <;> rfl
    have hbytes : (args.drop Amd64.target.argRegs.length).length * 8 +
        Amd64.padding (args.drop Amd64.target.argRegs.length).length < 2 ^ 32 := by
      have hmax : args.length ≤ 22 := hcount
      rw [length_drop, Amd64.padding]
      split <;> omega
    have hsp' : s.get "rsp" = below top (f.size + ((args.drop Amd64.target.argRegs.length).length * 8 +
        Amd64.padding (args.drop Amd64.target.argRegs.length).length)) := by
      rw [← length_drop] at hsp
      refine hsp.trans (congrArg _ ?_)
      rw [callDepth, Nat.mul_comm, Nat.add_assoc, Nat.add_comm (Amd64.padding _)]
      rfl
    rw [hcode, Amd64.afterCall, map_append, hresult]
    refine (Amd64.raiseStack_leads host s.get hbytes hsp').append ?_
    rintro s₁ ⟨hsp₁, hraised⟩
    -- the result is still in its register when the arguments are off the stack
    have hkept : ∀ r ∈ amd64.target.retReg :: amd64.target.framePointer :: amd64.target.calleeSaved,
        isPlain r = true ∧ r ∉ ["rsp"] := by decide
    have hget : ∀ r ∈ amd64.target.retReg :: amd64.target.framePointer :: amd64.target.calleeSaved,
        s₁.get r = s.get r := fun r hr =>
      hraised.get r (hkept r hr).1 not_mem_nil (hkept r hr).2
    have hbody : amd64.InBody f top s₁ :=
      ⟨haligned, hsp₁, (hget _ (mem_cons_of_mem _ mem_cons_self)).trans hfp⟩
    refine (writeResult_leads host hroomy hdst hbody).mono fun s₂ h => ⟨h.stackPointer, ?_, ?_, ?_⟩
    · exact fun d hd => (h.result d hd).trans (congrArg some (hget _ mem_cons_self))
    · exact fun r hr hne => (h.get r hr hne).trans (hget r (mem_cons_of_mem _ hr))
    · exact fun n hn hne => (h.memory n hn hne).trans (by rw [hraised.memory])
  | arm64 =>
    have hcode : arm64.code (arm64.afterCall f args dst) = dst.elim [] (arm64.writeCode f _) :=
      (Arm64.code_call hwithin hwithin').2.trans (by cases dst <;> rfl)
    rw [hcode]
    exact writeResult_leads host hroomy hdst ⟨haligned, hsp, hfp⟩
  | riscv64 =>
    have hcode : riscv64.code (riscv64.afterCall f args dst) = dst.elim [] (riscv64.writeCode f _) :=
      (Riscv64.code_call hwithin hwithin').2.trans (by cases dst <;> rfl)
    rw [hcode]
    exact writeResult_leads host hroomy hdst ⟨haligned, hsp, hfp⟩

end After

end Arch

end SsaBackend
