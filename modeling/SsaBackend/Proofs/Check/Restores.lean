import SsaBackend.Proofs.Check.Calm
import SsaBackend.Proofs.Check.Generated

/-!
# When tidying up loses a restore

The text of a function is a setup of the frame, saves, and code with copies of one way to leave the
frame in it. Tidying up changes the setup and the ways to leave in no case but one (`Arch.Framing`):
a single saved register that nothing is left behind up to the first return is not restored there,
since it was stored just before. Exactly then tidied text has a fault about the frame
(`Arch.Framing.isFrameFault_iff`).
-/

namespace SsaBackend

open Asm Check Peephole Listing List

variable {x : Line} {lines : Assembly}

structure Frame.Compact (t : Target) (f : Frame) : Prop where
  outgoing : f.outgoingSize ≤ t.maxStackArgs * 8
  saved : f.saved.length ≤ t.calleeSaved.length

namespace Arch

variable (arch : Arch)

abbrev Apart : Line → Line → Prop :=
  Peephole.Apart arch.dialect (commonRules arch.dialect ++ arch.furtherRules)

def BodyLine (regs : List Register) (line : Line) : Prop :=
  arch.ShapedLine line ∧ arch.dialect.CalmLine regs line

def LeadLine (regs : List Register) (stretch : Assembly) (line : Line) : Prop :=
  arch.BodyLine regs line ∧ ∀ y ∈ stretch.head?, arch.Apart line y

def LeadSteps (o : Options) (f : Frame) (stretch : Assembly) (steps : List Step) : Prop :=
  ∀ s ∈ steps, s ≠ .epilogue → ∀ l ∈ arch.isa.stepLines o f s, arch.LeadLine f.saved stretch l

structure FirstSave (regs : List Register) (stretch : Assembly) (r : Register) (x : Line)
    (xs : Assembly) : Prop where
  line : arch.BodyLine regs x
  others : ∀ l ∈ xs, arch.LeadLine regs stretch l
  count : regs.length = xs.length + 1
  kept : xs ≠ [] → ∀ lines, (∀ l ∈ lines, arch.LeadLine regs stretch l) →
    arch.optimize (x :: (xs ++ lines)) ≠ [x]
  owes : ∀ n, ∃ i, item? arch.dialect n x = some (.instr i) ∧
    ∀ t : Tracker, t.Opening → (t.pass arch.dialect i).1.Owes r
  lost : xs = [] → ∃ y ys last, stretch = y :: (ys ++ [last]) ∧
    window arch.dialect (commonRules arch.dialect ++ arch.furtherRules) x y = [x] ∧
    (∀ z ∈ (ys ++ [last]).head?, arch.Apart x z) ∧
    (∀ line ∈ ys, ∀ n, ∃ i, item? arch.dialect n line = some (.instr i) ∧
      ∀ t : Tracker, t.Owes r → (t.pass arch.dialect i).1.Owes r) ∧
    ∀ n, ∃ i, item? arch.dialect n last = some (.instr i) ∧
      ∀ t : Tracker, t.Owes r → .fault (.notRestored r) ∈ (t.pass arch.dialect i).2

structure Framing (o : Options) (f : Frame) (v : FrameView) (setup saves stretch : Assembly) :
    Prop where
  view : v.saved = f.saved
  prologue : (arch.isa.prologue o f).map .instruction = setup ++ saves
  epilogue : arch.isa.stepLines o f .epilogue = stretch
  seams : Seams arch.dialect arch.furtherRules (arch.BodyLine f.saved)
    (arch.LeadLine f.saved stretch) stretch
  setup_ne_nil : setup ≠ []
  setup_chain : setup.IsChain arch.Apart
  setup_last : ∀ y ∈ setup.getLast?, ∀ l, arch.BodyLine f.saved l ∨ l ∈ stretch → arch.Apart y l
  enter : Quiet arch.dialect Finding.isFrame (· = .start) setup fun t =>
    t.InBody v ∧ t.Fresh Set.univ
  opening : ∀ line ∈ setup, ∀ n, ∃ i, item? arch.dialect n line = some (.instr i) ∧
    ∀ t : Tracker, t.Opening → (t.pass arch.dialect i).1.Opening
  leave : Quiet arch.dialect Finding.isFrame (·.Steady arch.dialect v) stretch
    (·.Steady arch.dialect v)
  saves : saves = [] ∧ f.saved = [] ∨ ∃ r x xs, saves = x :: xs ∧ arch.FirstSave f.saved stretch r x xs

/-- Tidied up, nothing but the prologue comes before the first return, and the prologue saves a single
register. -/
def LosesRestore (o : Options) (f : Frame) (name : String) (steps : List Step) : Prop :=
  f.saved.length = 1 ∧ ∃ before rest, steps = before ++ .epilogue :: rest ∧ .epilogue ∉ before ∧
    arch.optimize (arch.isa.assemble o f name before) = arch.isa.assemble o f name []

end Arch

theorem Arch.leadLine_label {arch : Arch} {regs : List Register} {stretch : Assembly} {name : String}
    (hname : isReference name = true) (hlocal : (Text.afterText? ".L" name).isSome) :
    arch.LeadLine regs stretch (.label name) := by
  refine ⟨⟨shapedLine_label hname, fun n i hi => ?_, fun _ heq => ?_⟩, fun y _ => rfl⟩
  · cases hi
  · cases heq
    exact hlocal

theorem Arch.leadLine_of_mem_stepLines {arch : Arch} {regs : List Register} {stretch : Assembly}
    {o : Options} {f : Frame} {s : Step} (hproper : s.Proper arch.target.valueRegs)
    (hlabel : ∀ name, s = .label name → (Text.afterText? ".L" name).isSome)
    (h : (∀ name, s ≠ .label name) →
      ∀ l ∈ (arch.isa.lower o f s).map .instruction, arch.LeadLine regs stretch l) :
    ∀ l ∈ arch.isa.stepLines o f s, arch.LeadLine regs stretch l := by
  cases s with
  | label name => exact forall_mem_singleton.2 (leadLine_label hproper (hlabel name rfl))
  | _ => exact h (by simp)

theorem Arch.FirstSave.eq_nil_of_lost {arch : Arch} {regs : List Register} {stretch : Assembly}
    {r : Register} {xs : Assembly} (h : arch.FirstSave regs stretch r x xs)
    (hlost : arch.optimize (x :: (xs ++ lines)) = [x])
    (hlines : ∀ l ∈ lines, arch.LeadLine regs stretch l) : xs = [] := by
  by_contra hne
  exact h.kept hne lines hlines hlost

theorem Step.takeWhile_append_cons {before : List Step} (h : .epilogue ∉ before) (rest : List Step) :
    (before ++ .epilogue :: rest).takeWhile (· ≠ .epilogue) = before := by
  have hall : ∀ s ∈ before, decide (s ≠ .epilogue) = true := fun s hs =>
    decide_eq_true fun heq => h (heq ▸ hs)
  rw [takeWhile_append_of_pos hall]
  simp

namespace Arch.Framing

variable {arch : Arch} {o : Options} {f : Frame} {v : FrameView} {setup saves stretch : Assembly}
  (h : arch.Framing o f v setup saves stretch)
variable {steps : List Step}

def head (name : String) (setup : Assembly) : Assembly :=
  [.directive ".text", .directive (".globl " ++ name), .label name] ++ setup

include h

theorem assemble_eq (name : String) (steps : List Step) :
    arch.isa.assemble o f name steps =
      head name setup ++ (saves ++ steps.flatMap (arch.isa.stepLines o f)) := by
  rw [Isa.assemble, h.prologue, head]
  simp only [append_assoc]

theorem bodyLine_of_mem_saves : ∀ l ∈ saves, arch.BodyLine f.saved l := by
  rcases h.saves with ⟨rfl, -⟩ | ⟨r, x, xs, rfl, hsave⟩
  · simp
  · exact forall_mem_cons.2 ⟨hsave.line, fun l hl => (hsave.others l hl).1⟩

section Steps

variable {steps : List Step} (hsteps : arch.LeadSteps o f stretch steps)

include hsteps

theorem optimize_assemble (name : String) :
    arch.optimize (arch.isa.assemble o f name steps) = head name setup ++
      arch.optimize (saves ++ steps.flatMap (arch.isa.stepLines o f)) := by
  have hrest : ∀ l ∈ saves ++ steps.flatMap (arch.isa.stepLines o f),
      arch.BodyLine f.saved l ∨ l ∈ stretch := by
    refine forall_mem_append.2 ⟨fun l hl => .inl (h.bodyLine_of_mem_saves l hl), fun l hl => ?_⟩
    obtain ⟨s, hs, hl⟩ := mem_flatMap.1 hl
    by_cases hreturn : s = .epilogue
    · exact .inr (h.epilogue ▸ hreturn ▸ hl)
    · exact .inl (hsteps s hs hreturn l hl).1
  -- no line in front of the setup is an instruction
  have hsilent : ∀ l ∈ [Line.directive ".text", .directive (".globl " ++ name), .label name],
      instr? arch.dialect l = none := by
    simp only [forall_mem_cons]
    exact ⟨rfl, rfl, rfl, by simp⟩
  rw [optimize, optimize, h.assemble_eq, head, append_assoc, run_append_of_silent (by simp) hsilent,
    run_append_of_stretch h.setup_ne_nil h.setup_chain, ← append_assoc]
  exact fun y hy l hl => h.setup_last y hy l (hrest l hl)

theorem stretch_or_leadLine : ∀ s ∈ steps, arch.isa.stepLines o f s = stretch ∨
    ∀ l ∈ arch.isa.stepLines o f s, arch.LeadLine f.saved stretch l := by
  intro s hs
  by_cases hreturn : s = .epilogue
  · exact .inl (hreturn ▸ h.epilogue)
  · exact .inr (hsteps s hs hreturn)

end Steps

variable {name : String} (hname : isSymbol name = true)

include hname

theorem isFrameFault_of_woven {a : Assembly} (ha : Woven (arch.BodyLine f.saved) stretch a) :
    ∀ x ∈ follow arch.dialect .start (items arch.dialect 1 (head name setup ++ a)),
      x.cause.isFrameFault = false := by
  have hstart := Check.Quiet.head arch.dialect Finding.isFrame hname
  have henter := (hstart.append h.enter).weaken fun x => Finding.isFrame_of_isFrameFault
  have hleave := h.leave.weaken fun x => Finding.isFrame_of_isFrameFault
  have hbody := ha.quiet (v := v) (fun l hl => h.view ▸ hl.2) hleave
  refine ((henter.append (hbody.mono ?_ fun _ ht => ht)) .start 1 trivial).1
  exact fun t ht => ⟨ht.1, ht.2.mono (Set.subset_univ _)⟩

theorem isFrameFault_assemble (hsteps : arch.LeadSteps o f stretch steps) :
    ∀ x ∈ follow arch.dialect .start (items arch.dialect 1 (arch.isa.assemble o f name steps)),
      x.cause.isFrameFault = false := by
  rw [h.assemble_eq]
  refine h.isFrameFault_of_woven hname
    (.append_of_forall h.bodyLine_of_mem_saves (.flatMap fun s hs => ?_))
  exact (h.stretch_or_leadLine hsteps s hs).imp_right fun hlead l hl => (hlead l hl).1

theorem opening_after_head :
    (after arch.dialect .start (items arch.dialect 1 (head name setup))).Opening := by
  have hstart : after arch.dialect .start (items arch.dialect 1
      [.directive ".text", .directive (".globl " ++ name), .label name]) = .start :=
    Tracker.passLabel_of_isSymbol hname _
  rw [head, items_append, after_append, hstart]
  exact Tracker.after_of_pass h.opening ⟨rfl, rfl⟩ _

variable {r : Register} {xs : Assembly}

theorem exists_isFrameFault (hsave : arch.FirstSave f.saved stretch r x xs) (hnone : xs = [])
    (rest : Assembly) :
    ∃ z ∈ follow arch.dialect .start
      (items arch.dialect 1 (head name setup ++ x :: (stretch.tail ++ rest))),
      z.cause.isFrameFault = true := by
  obtain ⟨y, ys, last, rfl, -, -, hys, hlast⟩ := hsave.lost hnone
  -- from the save on, through what is left of the epilogue, up to the return
  have howes :
      (after arch.dialect .start (items arch.dialect 1 (head name setup ++ x :: ys))).Owes r := by
    obtain ⟨i, hi, howes⟩ := hsave.owes (1 + (head name setup).length)
    rw [items_append, after_append, items_cons, hi]
    exact Tracker.after_of_pass hys (howes _ (h.opening_after_head hname)) _
  obtain ⟨i, hi, hfault⟩ := hlast (1 + (head name setup ++ x :: ys).length)
  refine ⟨⟨i, .fault (.notRestored r)⟩, ?_, rfl⟩
  have hsplit : head name setup ++ x :: (ys ++ [last] ++ rest) =
      (head name setup ++ x :: ys) ++ last :: rest := by simp
  rw [tail_cons, hsplit, items_append, follow_append, items_cons, hi]
  refine mem_append_right _ (mem_append_left _ ?_)
  exact mem_map_of_mem (hfault _ howes)

omit h hname in
theorem losesRestore_iff (h : arch.Framing o f v setup (x :: xs) stretch)
    (hsave : arch.FirstSave f.saved stretch r x xs) {before rest : List Step}
    (hbefore : .epilogue ∉ before) (hsteps : arch.LeadSteps o f stretch before) :
    arch.LosesRestore o f name (before ++ .epilogue :: rest) ↔
      arch.optimize (x :: (xs ++ before.flatMap (arch.isa.stepLines o f))) = [x] := by
  have hcount : f.saved.length = 1 ↔ xs = [] := by rw [hsave.count]; simp
  constructor
  · rintro ⟨hone, before', rest', heq, hbefore', hrun⟩
    -- both are the steps before the first return
    obtain rfl : before = before' := by
      rw [← Step.takeWhile_append_cons hbefore rest, heq, Step.takeWhile_append_cons hbefore' rest']
    rw [h.optimize_assemble hsteps, h.assemble_eq, append_cancel_left_eq, hcount.1 hone] at hrun
    simpa [hcount.1 hone] using hrun
  · intro hlost
    have hnone : xs = [] := hsave.eq_nil_of_lost hlost <| forall_mem_flatMap.2 fun s hs =>
      hsteps s hs fun heq => hbefore (heq ▸ hs)
    refine ⟨hcount.2 hnone, before, rest, rfl, hbefore, ?_⟩
    rw [h.optimize_assemble hsteps, h.assemble_eq, cons_append, hlost, hnone]
    simp

omit hname in
theorem losesRestore_of_single (hone : f.saved.length = 1) (rest : List Step) :
    arch.LosesRestore o f name (.epilogue :: rest) := by
  refine ⟨hone, [], rest, rfl, not_mem_nil, ?_⟩
  have hnone : arch.LeadSteps o f stretch [] := by simp [LeadSteps]
  rw [h.optimize_assemble hnone, h.assemble_eq]
  rcases h.saves with ⟨rfl, -⟩ | ⟨r, x, xs, rfl, hsave⟩
  · rfl
  · obtain rfl : xs = [] := by simpa [hone] using hsave.count
    rfl

omit hname in
theorem run_of_lost (hsave : arch.FirstSave f.saved stretch r x xs) (hnone : xs = [])
    (hlost : arch.optimize (x :: lines) = [x]) (rest : Assembly) :
    arch.optimize (x :: (lines ++ (stretch ++ rest))) =
      x :: (stretch.tail ++ arch.optimize rest) := by
  obtain ⟨y, ys, last, hstretch, hdrop, hfirst, -⟩ := hsave.lost hnone
  have hlast := h.seams.last
  have hchain := h.seams.chain
  rw [hstretch] at hlast hchain ⊢
  refine Seams.run_of_lost hlost hdrop (by simp) (isChain_cons.1 hchain).2 hfirst ?_
  rw [getLast?_append_of_ne_nil _ (by simp)]
  rwa [← cons_append, getLast?_append_of_ne_nil _ (by simp)] at hlast

theorem isFrameFault_run_iff (hsave : arch.FirstSave f.saved stretch r x xs)
    (hlines : ∀ l ∈ lines, arch.LeadLine f.saved stretch l)
    (hsteps : arch.LeadSteps o f stretch steps) :
    (∀ z ∈ follow arch.dialect .start (items arch.dialect 1 (head name setup ++
        arch.optimize (x :: ((xs ++ lines) ++
          (stretch ++ steps.flatMap (arch.isa.stepLines o f)))))), z.cause.isFrameFault = false) ↔
      arch.optimize (x :: (xs ++ lines)) ≠ [x] := by
  by_cases hlost : arch.optimize (x :: (xs ++ lines)) = [x]
  · have hnone := hsave.eq_nil_of_lost hlost hlines
    refine iff_of_false (fun hquiet => ?_) (not_not.2 hlost)
    rw [h.run_of_lost hsave hnone hlost] at hquiet
    obtain ⟨z, hz, hfault⟩ := h.exists_isFrameFault hname hsave hnone _
    rw [hquiet z hz] at hfault
    cases hfault
  · -- something stands between the save and the restore, so every return is whole
    refine iff_of_true (h.isFrameFault_of_woven hname ?_) hlost
    exact h.seams.woven_run_cons hsave.line (forall_mem_append.2 ⟨hsave.others, hlines⟩) hlost
      (h.stretch_or_leadLine hsteps)

theorem isFrameFault_iff (hsteps : arch.LeadSteps o f stretch steps) :
    (∀ x ∈ follow arch.dialect .start
        (items arch.dialect 1 (arch.optimize (arch.isa.assemble o f name steps))),
      x.cause.isFrameFault = false) ↔ ¬arch.LosesRestore o f name steps := by
  rw [h.optimize_assemble hsteps]
  rcases h.saves with ⟨rfl, hnone⟩ | ⟨r, x, xs, rfl, hsave⟩
  · -- without saves nothing is lost
    refine iff_of_true ?_ fun hloses => ?_
    · exact h.isFrameFault_of_woven hname
        ((h.seams.woven_run (h.stretch_or_leadLine hsteps)).mono fun l => h.seams.sub)
    · rw [LosesRestore, hnone] at hloses
      exact absurd hloses.1 (by simp)
  by_cases hreturn : .epilogue ∈ steps
  · obtain ⟨before, rest, rfl, hbefore⟩ := eq_append_cons_of_mem hreturn
    have hlead : ∀ s ∈ before, ∀ l ∈ arch.isa.stepLines o f s, arch.LeadLine f.saved stretch l :=
      fun s hs => hsteps s (mem_append_left _ hs) fun heq => hbefore (heq ▸ hs)
    have htext : x :: xs ++ (before ++ .epilogue :: rest).flatMap (arch.isa.stepLines o f) =
        x :: ((xs ++ before.flatMap (arch.isa.stepLines o f)) ++
          (stretch ++ rest.flatMap (arch.isa.stepLines o f))) := by
      simp [h.epilogue]
    rw [htext, h.losesRestore_iff hsave hbefore fun s hs _ => hlead s hs]
    exact h.isFrameFault_run_iff hname hsave (forall_mem_flatMap.2 hlead) fun s hs =>
      hsteps s (by simp [hs])
  · -- without a return there is no restore to lose
    have hlines : ∀ l ∈ xs ++ steps.flatMap (arch.isa.stepLines o f),
        arch.LeadLine f.saved stretch l := by
      refine forall_mem_append.2 ⟨hsave.others, forall_mem_flatMap.2 fun s hs => ?_⟩
      exact hsteps s hs fun heq => hreturn (heq ▸ hs)
    refine iff_of_true ?_ fun ⟨_, before, rest, heq, _⟩ => hreturn (by simp [heq])
    have hall := h.seams.forall_mem_run_cons hsave.line hlines
    exact h.isFrameFault_of_woven hname (by simpa [optimize] using Woven.append_of_forall hall .nil)

end Arch.Framing

end SsaBackend
