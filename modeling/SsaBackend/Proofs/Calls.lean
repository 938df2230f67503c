import SsaBackend.Proofs.Calls.Sequence
import SsaBackend.Proofs.Check.Tidied
import SsaBackend.Proofs.Schedule.Success

/-!
# Calls

Every call keeps the calling convention, on every architecture and for any mix of operands
(`Arch.calls_keep_convention`). At the call instruction the stack pointer is aligned and the arguments
are where the convention wants them, with the values that their operands had. The callee is another
function, of which only is known that it hands back what it has to (`Arch.Preserved`). After it, the
result is in its place and all else is as it was.
-/

namespace SsaBackend

open Asm List

/-- Values are in allocatable registers and in words of the spill area. -/
structure Allocation.Suits (t : Target) (a : Allocation) : Prop where
  register : ∀ v r, a.location? v = some (.register r) → r ∈ t.allocatable
  slot : ∀ v n, a.location? v = some (.stack n) → n % 8 = 0 ∧ n + 8 ≤ a.spillSize

namespace Arch

variable {step : Step}

/-! ### What the convention asks for -/

/-- The word of a stack argument, by its position among those. -/
def outgoingAddress (arch : Arch) (s : State) (index : Nat) : Int64 :=
  s.get arch.stackPointer + Int64.ofNat (8 * index)

/-- From `s` to `s'`, which is at the call instruction, arguments were passed. -/
structure Passed (arch : Arch) (xs : List Int64) (s s' : State) : Prop where
  aligned : (s'.get arch.stackPointer).toInt % 16 = 0
  inRegister : ∀ (i : Nat) r x, arch.target.argRegs[i]? = some r → xs[i]? = some x → s'.get r = x
  onStack : ∀ (i : Nat) x, arch.target.argRegs.length ≤ i → xs[i]? = some x →
    s'.load (arch.outgoingAddress s' (i - arch.target.argRegs.length)) = some x
  calleeSaved : ∀ r ∈ arch.target.calleeSaved, s'.get r = s.get r
  framePointer : s'.get arch.target.framePointer = s.get arch.target.framePointer
  /-- Only the words of stack arguments were stored. -/
  memory : ∀ address, (∀ i, arch.target.argRegs.length ≤ i → i < xs.length →
    address ≠ arch.outgoingAddress s' (i - arch.target.argRegs.length)) →
    s'.memory address = s.memory address
  trace : s'.trace = s.trace

/-- From `s` at the call instruction to `s'` behind it, a callee handed back what it has to. It may
have changed all other registers, the outgoing words, and all memory outside of the frame. -/
structure Preserved (arch : Arch) (f : Frame) (top : Int64) (s s' : State) : Prop where
  calleeSaved : ∀ r ∈ arch.target.calleeSaved, s'.get r = s.get r
  framePointer : s'.get arch.target.framePointer = s.get arch.target.framePointer
  stackPointer : s'.get arch.stackPointer = s.get arch.stackPointer
  frame : ∀ n, n % 8 = 0 → 0 < n → n ≤ f.size - f.outgoingSize →
    s'.memory (below top n) = s.memory (below top n)

/-- From `s` before a call to `s'` after it, where the callee returned at `r`, only the destination has
changed. -/
structure Returned (arch : Arch) (f : Frame) (top : Int64) (dst : Option Operand) (s r s' : State) :
    Prop where
  result : ∀ d ∈ dst, arch.readOperand f s' d = some (r.get arch.target.retReg)
  stackPointer : s'.get arch.stackPointer = s.get arch.stackPointer
  framePointer : s'.get arch.target.framePointer = s.get arch.target.framePointer
  registers : ∀ reg ∈ arch.target.allocatable, dst ≠ some (.register reg) → s'.get reg = s.get reg
  slots : ∀ slot, slot % 8 = 0 → slot + 8 ≤ f.spillSize → dst ≠ some (.stack slot) →
    arch.readOperand f s' (.stack slot) = arch.readOperand f s (.stack slot)
  saved : ∀ index < f.saved.length,
    s'.memory (below top (arch.saveDepth f index)) = s.memory (below top (arch.saveDepth f index))
  /-- The return address and the frame pointer of the caller. -/
  fixed : ∀ n ∈ [8, 16], s'.memory (below top n) = s.memory (below top n)

/-- The lines before and after a call instruction keep the convention, from any state in the body of a
function in which the operands have values. -/
def CallConvention (arch : Arch) (host : Host) (f : Frame) (args : List Operand)
    (dst : Option Operand) (before after : Assembly) : Prop :=
  ∀ (top : Int64) (s : State) (xs : List Int64), arch.InBody f top s →
    args.map (arch.readOperand f s) = xs.map some →
    Leads (arch.exec host) (arch.code before) s fun s₁ => arch.Passed xs s s₁ ∧
      ∀ s₂, arch.Preserved f top s₁ s₂ →
        Leads (arch.exec host) (arch.code after) s₂ (arch.Returned f top dst s s₂)

/-! ### One call -/

theorem below_mod_sixteen {top : Int64} (haligned : top.toInt % 16 = 0) {n : Nat} (hn : n % 16 = 0) :
    (below top n).toInt % 16 = 0 := by
  -- words wrap around at a multiple of 16
  have hnat : (Int64.ofNat n).toInt % 16 = 0 := by
    rw [Int64.toInt_ofNat', Int.bmod_def, show Int64.size = 2 ^ 64 from rfl]
    omega
  rw [below, Int64.toInt_sub, Int.bmod_def]
  omega

section Call

variable {arch : Arch} {f : Frame} {top : Int64} {s s₁ s₂ s₃ : State} {args : List Operand}
  {xs : List Int64} {dst : Option Operand} (hroomy : f.Roomy arch.target)

include hroomy

theorem passed_of_wrote (haligned : top.toInt % 16 = 0) {count : Nat} (hcount : count ≤ 16)
    (hfit : arch.target.reservesOutgoing = true → 8 * count ≤ f.outgoingSize)
    (hlength : (xs.drop arch.target.argRegs.length).length = count)
    (hsp : s₁.get arch.stackPointer = below top (arch.callDepth f count))
    (hwrote : Wrote top arch.passRegs
      (passedWords (arch.callDepth f count) 0 (xs.drop arch.target.argRegs.length)) s s₁)
    (hregs : ∀ p ∈ arch.target.argRegs.zip xs, s₁.get p.1 = p.2) : arch.Passed xs s s₁ := by
  obtain ⟨hsaved, hpointers⟩ := arch.notMem_passRegs
  have hmod := callDepth_mod hroomy count
  have hdepth := callDepth_ge hroomy hfit
  -- the callee counts from the stack pointer up, the frame from its top down
  have haddress : ∀ {i : Nat}, i < count →
      arch.outgoingAddress s₁ i = below top (arch.callDepth f count - 8 * i) := fun hi => by
    rw [outgoingAddress, hsp, below_add top (by omega)]
  have hinside := lt_of_mem_callWords hroomy hcount hfit hlength
  have hlength' := hlength
  rw [List.length_drop] at hlength'
  refine ⟨?_, ?_, ?_, ?_, ?_, ?_, hwrote.trace⟩
  · rw [hsp]
    exact below_mod_sixteen haligned hmod
  · intro i r x hr hx
    exact hregs (r, x) (mem_of_getElem? (getElem?_zip_eq_some.2 ⟨hr, hx⟩))
  · intro i x hi hx
    have hlt := (List.getElem?_eq_some_iff.1 hx).1
    have hmem : (arch.callDepth f count - 8 * (i - arch.target.argRegs.length), x) ∈
        passedWords (arch.callDepth f count) 0 (xs.drop arch.target.argRegs.length) := by
      refine mem_passedWords.2 ⟨i - arch.target.argRegs.length, ?_, by rw [Nat.zero_add]⟩
      rw [getElem?_drop, Nat.add_sub_cancel' hi]
      exact hx
    rw [haddress (by omega), load_below (by omega) (by omega)]
    exact hwrote.memory_of_mem (passedWords_distinct (by rw [hlength]; omega))
      (fun w hw => (hinside w hw).2) hmem
  · exact fun r hr => hwrote.get r (hsaved r hr).1 (hsaved r hr).2
  · obtain ⟨hplain, hmem⟩ := hpointers arch.target.framePointer (by simp)
    exact hwrote.get _ hplain hmem
  · intro address hne
    rw [hwrote.memory]
    refine writeBelow_of_ne fun w hw heq => ?_
    obtain ⟨i, hi, hw⟩ := mem_passedWords.1 hw
    have hlt := (List.getElem?_eq_some_iff.1 hi).1
    rw [List.length_drop] at hlt
    refine hne (arch.target.argRegs.length + i) (by omega) (by omega) ?_
    rw [Nat.add_sub_cancel_left, haddress (by omega), heq, hw, Nat.zero_add]

theorem returned_of_finished (hdst : ∀ d ∈ dst, d.Seated arch.target f) (hbody : arch.InBody f top s)
    {words : List (Nat × Int64)} (hwrote : Wrote top arch.passRegs words s s₁)
    (hwords : ∀ w ∈ words, f.size - f.outgoingSize < w.1 ∧ w.1 < 2 ^ 64)
    (hpreserved : arch.Preserved f top s₁ s₂) (hfinished : arch.Finished f top dst s₂ s₃) :
    arch.Returned f top dst s s₂ s₃ := by
  obtain ⟨hsaved, hpointers⟩ := arch.notMem_passRegs
  have hsize := hroomy.size_lt
  have hfits := hroomy.fits
  simp only [fixedArea] at hfits
  have hfp : s₃.get arch.target.framePointer = s.get arch.target.framePointer := by
    have hne : dst ≠ some (.register arch.target.framePointer) := fun heq => by
      have hmem : arch.target.framePointer ∈ arch.target.allocatable := hdst _ heq
      revert hmem
      clear * -
      cases arch <;> decide
    obtain ⟨hplain, hmem⟩ := hpointers arch.target.framePointer (by simp)
    rw [hfinished.get _ mem_cons_self hne, hpreserved.framePointer, hwrote.get _ hplain hmem]
  have hbody' : arch.InBody f top s₃ :=
    ⟨hbody.aligned, hfinished.stackPointer, hfp.trans hbody.framePointer⟩
  -- a word that the frame keeps, through all three stages
  have hmemory : ∀ n, n % 8 = 0 → 0 < n → n ≤ f.size - f.outgoingSize →
      (∀ slot, dst = some (.stack slot) → n ≠ arch.slotDepth f slot) →
      s₃.memory (below top n) = s.memory (below top n) := by
    intro n hword hpos hle hne
    rw [hfinished.memory n (by omega) hne, hpreserved.frame n hword hpos hle, hwrote.memory]
    refine writeBelow_of_ne fun w hw heq => ?_
    have hw := hwords w hw
    have := below_inj top (by omega) hw.2 heq
    omega
  refine ⟨hfinished.result, hfinished.stackPointer.trans hbody.stackPointer.symm, hfp, ?_, ?_, ?_, ?_⟩
  · intro r hr hne
    have hr := arch.mem_calleeSaved_of_mem_allocatable r hr
    rw [hfinished.get r (mem_cons_of_mem _ hr) hne, hpreserved.calleeSaved r hr,
      hwrote.get r (hsaved r hr).1 (hsaved r hr).2]
  · intro slot hword hfit hne
    have hslot := slotDepth_facts hroomy ⟨hword, hfit⟩
    rw [readOperand_stack hroomy ⟨hword, hfit⟩ hbody.aligned hbody'.slotBase,
      readOperand_stack hroomy ⟨hword, hfit⟩ hbody.aligned hbody.slotBase]
    refine hmemory _ hslot.2.2 (by omega) hslot.2.1 fun slot' heq hdepth => hne ?_
    rw [heq, slotDepth_inj hroomy ⟨hword, hfit⟩ (hdst _ heq) hdepth]
  · intro index hindex
    obtain ⟨hlow, -, hword⟩ := saveDepth_facts hroomy.toWellLaid hindex
    exact hmemory _ hword (by omega) (saveDepth_le hroomy hindex) fun slot heq =>
      (slotDepth_ne_saveDepth hroomy (hdst _ heq) hindex).symm
  · intro n hn
    have hn : n = 8 ∨ n = 16 := by simpa using hn
    refine hmemory n (by omega) (by omega) (by omega) fun slot heq hdepth => ?_
    have := (slotDepth_facts hroomy (hdst _ heq)).1
    omega

theorem callConvention (host : Host) (hargs : ∀ o ∈ args, o.Seated arch.target f)
    (hdst : ∀ d ∈ dst, d.Seated arch.target f ∧ ∀ x, d ≠ .immediate x)
    (hcount : args.length ≤ arch.target.maxCallArgs)
    (hfit : arch.target.reservesOutgoing = true →
      8 * (args.length - arch.target.argRegs.length) ≤ f.outgoingSize) :
    arch.CallConvention host f args dst (arch.beforeCall f args) (arch.afterCall f args dst) := by
  intro top s xs hbody hread
  have hstack := stackArgs_le_sixteen hcount
  have hlength : (xs.drop arch.target.argRegs.length).length =
      args.length - arch.target.argRegs.length := by
    rw [List.length_drop, ← length_map some, ← hread, length_map]
  refine (beforeCall_leads host hroomy hbody hargs hread hcount hfit).mono ?_
  rintro s₁ ⟨hsp, hwrote, hregs⟩
  refine ⟨?_, fun s₂ hpreserved => ?_⟩
  · exact passed_of_wrote hroomy hbody.aligned hstack hfit hlength hsp hwrote hregs
  · obtain ⟨hplain, hmem⟩ := arch.notMem_passRegs.2 arch.target.framePointer (by simp)
    have hfp : s₂.get arch.target.framePointer = below top arch.framePointerDepth := by
      rw [hpreserved.framePointer, hwrote.get _ hplain hmem, hbody.framePointer]
    exact (afterCall_leads host hroomy hdst hargs hcount hbody.aligned
      (hpreserved.stackPointer.trans hsp) hfp).mono fun s₃ hfinished =>
        returned_of_finished hroomy (fun d hd => (hdst d hd).1) hbody hwrote
          (lt_of_mem_callWords hroomy hstack hfit hlength) hpreserved hfinished

end Call

/-! ### All calls of a function -/

section Places

variable {p : Placed}

theorem seated_place (hsuits : p.allocation.Suits p.target) (n : Nat) :
    ∀ v, (p.place v).Seated p.target (.ofAllocation p.target p.allocation n) := by
  refine Placed.forall_place (fun _ => trivial) fun id l hl => ?_
  cases l with
  | register r => exact hsuits.register id r hl
  | stack slot => exact hsuits.slot id slot hl

theorem place_ne_immediate {dst : Option Value} {callee : String} {args : List Value}
    (hstep : p.instructionStep (.call dst callee args) = .ok step) {d : Value} (hd : d ∈ dst)
    (hconst : d.isConstant = false) (x : Int64) : p.place d ≠ .immediate x := by
  obtain ⟨operands, -, hstep⟩ := exists_of_bind_eq_ok hstep
  obtain ⟨result, hresult, -⟩ := exists_of_bind_eq_ok hstep
  obtain rfl : dst = some d := hd
  have hplace : ∀ id, p.allocation.location? id ≠ none →
      (p.allocation.location? id).elim (.immediate 0) Location.toOperand ≠ .immediate x := by
    intro id hid
    obtain ⟨l, hl⟩ := Option.ne_none_iff_exists'.1 hid
    rw [hl]
    cases l <;> exact Operand.noConfusion
  -- otherwise the schedule would have failed at this call
  have hlocated : ∀ id, d.id? = some id → p.allocation.location? id ≠ none := by
    intro id hid hnone
    have hfails : p.operand d = .error (.unallocatedValue p.func.name id) := by
      cases d <;> cases hid <;> simp [Placed.operand, hnone]
    rw [Option.mapM_some, hfails] at hresult
    cases hresult
  cases d with
  | constant => cases hconst
  | parameter id | temporary id => exact hplace id (hlocated id rfl)

end Places

theorem callConvention_place {arch : Arch} {f : Function} (wf : f.WellFormed) {alloc : Allocation}
    (hsuits : alloc.Suits arch.target) (hcheck : f.unsupported arch.target = [])
    (hroomy : (arch.frame f alloc).Roomy arch.target) (host : Host) {b : BlockId}
    {dst : Option Value} {callee : String} {args : List Value}
    (hcall : .call dst callee args ∈ (f.block b).instructions)
    (hstep : Placed.instructionStep ⟨f, alloc, arch.target⟩ (.call dst callee args) = .ok step) :
    args.length ≤ arch.target.maxCallArgs ∧
    arch.CallConvention host (arch.frame f alloc) (args.map (Placed.place ⟨f, alloc, arch.target⟩))
      (dst.map (Placed.place ⟨f, alloc, arch.target⟩))
      (arch.beforeCall (arch.frame f alloc) (args.map (Placed.place ⟨f, alloc, arch.target⟩)))
      (arch.afterCall (arch.frame f alloc) (args.map (Placed.place ⟨f, alloc, arch.target⟩))
        (dst.map (Placed.place ⟨f, alloc, arch.target⟩))) := by
  have hemits : Placed.Emits ⟨f, alloc, arch.target⟩ _ := .instruction hcall
  have hcount : args.length ≤ arch.target.maxCallArgs := by
    simpa [Placed.stepOf, Step.args] using Placed.length_args_le hcheck hemits
  -- the frame reserves as many words as the call with the most stack arguments needs
  have hfit : arch.target.reservesOutgoing = true →
      8 * (args.length - arch.target.argRegs.length) ≤ (arch.frame f alloc).outgoingSize := by
    intro hreserves
    have hle := Placed.length_args_le_outgoingArgs hreserves hemits
    simp only [Placed.stepOf, Step.args, length_map] at hle
    rw [outgoingSize_frame hcheck]
    omega
  have hseated : ∀ v, (Placed.place ⟨f, alloc, arch.target⟩ v).Seated arch.target (arch.frame f alloc) :=
    seated_place hsuits _
  have hblock : f.block b ∈ f.blocks := by
    obtain ⟨k, hk⟩ := mem_iff_getElem?.1 hcall
    exact Function.block_mem (Function.lt_length_of_getElem? hk)
  refine ⟨hcount, callConvention hroomy host (forall_mem_map.2 fun v _ => hseated v) ?_
    (by rwa [length_map]) (by rwa [length_map])⟩
  intro d hd
  obtain ⟨v, hv, rfl⟩ := Option.map_eq_some_iff.1 hd
  exact ⟨hseated v, place_ne_immediate hstep hv (wf.dsts _ hblock _ hcall v hv)⟩

theorem exists_assemble_eq (isa : Isa) (o : Options) (frame : Frame) (name : String)
    {steps : List Step} (h : step ∈ steps) :
    ∃ front back, isa.assemble o frame name steps = front ++ isa.stepLines o frame step ++ back := by
  obtain ⟨pre, post, rfl⟩ := append_of_mem h
  rw [Isa.assemble, flatMap_append, flatMap_cons, ← append_assoc, ← append_assoc]
  exact ⟨_, _, rfl⟩

/-- Every call keeps the calling convention. Of a function whose values are in allocatable registers and
words of the spill area, in a frame of less than 4 GiB, the prologue leads from any entry into the body.
From any state there, and however the operands of a call are mixed, its arguments are passed, the stack
pointer is aligned at the call instruction, and after any callee that hands back what it has to, the
result is in its place and nothing else has changed. -/
theorem calls_keep_convention (arch : Arch) {f : Function} (wf : f.WellFormed) {alloc : Allocation}
    (hsuits : alloc.Suits arch.target) {layout : List BlockId} {o : Options} {a : Assembly}
    {frame : Frame} (hgen : arch.isa.generate f alloc layout o = .ok (a, frame))
    (hsize : frame.size < 2 ^ 32) (host : Host) :
    (∀ s ra, (arch.callerSp s).toInt % 16 = 0 → arch.returnAddress? s = some ra →
      Leads (arch.exec host) (arch.prologueCode o frame) s (arch.InBody frame (arch.callerSp s))) ∧
    ∀ b ∈ layout, ∀ dst callee args, .call dst callee args ∈ (f.block b).instructions →
      args.length ≤ arch.target.maxCallArgs ∧
      ∃ operands result before after front back,
        Placed.instructionStep ⟨f, alloc, arch.target⟩ (.call dst callee args) =
          .ok (.call callee operands result) ∧
        (arch.isa.lower o frame (.call callee operands result)).map .instruction =
          before ++ arch.callLine callee :: after ∧
        a = front ++ (before ++ arch.callLine callee :: after) ++ back ∧
        arch.CallConvention host frame operands result before after := by
  obtain ⟨steps, hsteps, ha, hframe⟩ := Isa.exists_of_generate hgen
  have hcheck : f.unsupported arch.isa.target = [] := by
    cases h : f.unsupported arch.isa.target with
    | nil => rfl
    | cons e es => simp [Isa.generate, h] at hgen
  rw [target_isa] at hsteps ha hframe hcheck
  obtain rfl : frame = arch.frame f alloc := hframe
  have hunits : arch.target.stackAlign = 16 ∧ arch.target.wordSize = 8 := by cases arch <;> decide
  have hroomy : (arch.frame f alloc).Roomy arch.target :=
    Frame.roomy_ofAllocation hunits.1 hunits.2 alloc _ hsize
  refine ⟨fun s ra haligned hra => ?_, fun b hb dst callee args hcall => ?_⟩
  · refine (prologueCode_leads o hroomy.toWellLaid host (by omega) hra).mono ?_
    rintro s' ⟨hsp, hfp, -⟩
    exact ⟨haligned, hsp, hfp⟩
  · obtain ⟨hstep, hmem⟩ := Placed.instructionStep_of_schedule hsteps hb hcall
    obtain ⟨hcount, hconvention⟩ := callConvention_place wf hsuits hcheck hroomy host hcall hstep
    obtain ⟨front, back, hlines⟩ := exists_assemble_eq arch.isa o (arch.frame f alloc) f.name hmem
    have hcut := arch.lower_call o (arch.frame f alloc) callee
      (args.map (Placed.place ⟨f, alloc, arch.target⟩)) (dst.map (Placed.place ⟨f, alloc, arch.target⟩))
    refine ⟨hcount, _, _, _, _, front, back, hstep, hcut, ?_, hconvention⟩
    rw [← hcut]
    exact ha.trans hlines

end Arch

/-- Makes a function that calls another one with nine arguments: its parameters, some of them twice, and
literals. -/
def Draft.relayCalls : List Draft.Call :=
  [.param .int, .param .int, .block "entry",
    .call 0 "spread" ([.parameter 1 1 .int] ++
      (([1, 2, 3, 4, 5] : List Int64).map fun n => .constant n .int) ++
      [.parameter 0 0 .int, .parameter 1 1 .int, .constant 1099511627776 .int]) (some .int),
    .terminate 0 (.ret (some (.temporary 2 .int)))]

/-- The function. -/
def Function.relay : Function := (Draft.ofCalls "relay" (some .int) Draft.relayCalls).toFunction

theorem Function.isBuilt_relay : Function.relay.IsBuilt :=
  ⟨"relay", some .int, Draft.relayCalls, Draft.build_eq_ok_iff.2 ⟨by decide, rfl⟩⟩

/-- The first parameter is in a register. The second one is in the spill area, where the result goes as
well. -/
def Allocation.relay : Allocation := ⟨[(0, .register "rbx"), (1, .stack 0), (2, .stack 0)], 8⟩

theorem Allocation.suits_relay : Allocation.relay.Suits Amd64.target := by
  have hmem : ∀ v l, relay.location? v = some l → (v, l) ∈ relay.entries := by
    intro v l h
    obtain ⟨front, back, hentries, -⟩ := lookup_eq_some_iff.1 h
    simp [hentries]
  refine ⟨fun v r h => ?_, fun v n h => ?_⟩
  · have h := hmem v _ h
    simp only [relay, mem_cons, Prod.mk.injEq, Location.register.injEq, reduceCtorEq, and_false,
      not_mem_nil, or_false] at h
    rw [h.2]
    decide
  · have h := hmem v _ h
    simp only [relay, mem_cons, Prod.mk.injEq, Location.stack.injEq, reduceCtorEq, and_false,
      not_mem_nil, or_false, false_or] at h
    obtain rfl : n = 0 := h.elim And.right And.right
    decide

namespace Arch

/-- In the body of the function, with 7 and -5 as parameters. -/
def relayState : State where
  regs := fun r => if r = "rsp" then 4064 else if r = "rbp" then 4080 else 7
  memory := fun a => if a = 4064 then some (-5) else none
  flags := (0, 0)
  trace := []

/-- Three arguments are pushed on amd64, below a word of padding. The callee returns 99. -/
theorem calls_keep_convention_relay :
    Function.relay.IsBuilt ∧ Allocation.relay.Suits amd64.target ∧
      (amd64.frame Function.relay .relay).size = 32 ∧
      amd64.InBody (amd64.frame Function.relay .relay) 4096 relayState ∧
      ∃ a, amd64.isa.generate Function.relay .relay [0] ⟨false⟩ =
          .ok (a, amd64.frame Function.relay .relay) ∧
        ∀ host, ∃ before after front back,
          a = front ++ (before ++ amd64.callLine "spread" :: after) ++ back ∧
          Leads (amd64.exec host) (amd64.code before) relayState fun s₁ =>
            amd64.Passed [-5, 1, 2, 3, 4, 5, 7, -5, 1099511627776] relayState s₁ ∧
            Leads (amd64.exec host) (amd64.code after) (s₁.set "rax" 99) fun s₃ =>
              amd64.readOperand (amd64.frame Function.relay .relay) s₃ (.stack 0) = some 99 ∧
              s₃.get "rbx" = 7 ∧ s₃.get "rsp" = 4064 := by
  have wf := Function.isBuilt_relay.wellFormed
  have hcheck : Function.relay.unsupported amd64.target = [] := by decide
  have htotal : Placed.Total ⟨Function.relay, .relay, amd64.target⟩ := by
    show ∀ v ∈ Function.relay.definedValues, _
    decide
  have hgen := generate_of_total wf hcheck htotal (show [0].Perm Function.relay.blockIds by decide) ⟨false⟩
  have hbody : amd64.InBody (amd64.frame Function.relay .relay) 4096 relayState :=
    ⟨by decide, by decide, by decide⟩
  refine ⟨Function.isBuilt_relay, Allocation.suits_relay, by decide, hbody, _, hgen, fun host => ?_⟩
  obtain ⟨-, hcalls⟩ :=
    calls_keep_convention amd64 wf Allocation.suits_relay hgen (by decide) host
  obtain ⟨-, operands, result, before, after, front, back, hstep, -, ha, hconvention⟩ :=
    hcalls 0 (by decide) (some (.temporary 2 .int)) "spread" _ List.mem_cons_self
  cases hstep
  refine ⟨before, after, front, back, ha, ?_⟩
  have hread := hconvention 4096 relayState [-5, 1, 2, 3, 4, 5, 7, -5, 1099511627776] hbody rfl
  refine hread.mono ?_
  rintro s₁ ⟨hpassed, hafter⟩
  refine ⟨hpassed, ?_⟩
  have hkept : ∀ r ∈ "rsp" :: "rbp" :: amd64.target.calleeSaved, (s₁.set "rax" 99).get r = s₁.get r := by
    have hother : ∀ r ∈ "rsp" :: "rbp" :: amd64.target.calleeSaved, isPlain r = true ∧ r ≠ "rax" := by
      decide
    exact fun r hr => State.get_set_of_ne (by decide) (hother r hr).1 (hother r hr).2
  have hpreserved : amd64.Preserved (amd64.frame Function.relay .relay) 4096 s₁ (s₁.set "rax" 99) :=
    ⟨fun r hr => hkept r (by simp [hr]), hkept "rbp" (by simp), hkept "rsp" (by simp),
      fun _ _ _ _ => by rw [State.memory_set]⟩
  refine (hafter _ hpreserved).mono fun s₃ hreturned => ⟨?_, ?_, hreturned.stackPointer⟩
  · exact (hreturned.result _ rfl).trans (congrArg some (State.get_set_self (by decide)))
  · exact hreturned.registers "rbx" (by decide) (by decide)

end Arch

end SsaBackend
