import SsaBackend.Proofs.Check.Follow

/-!
# The depth of the stack under a check

What a check finds about the depth of the stack depends on little: on what the tracker knows about the
depth (`Pose`), and on what each line does to the stack pointer (`Motion`). A tracker that follows
lines whose motions are plain from the text poses as the motions say, and finds something about the
depth exactly where a pose objects to a motion (`Check.follow_of_steers`).
-/

namespace SsaBackend

open Asm Check

variable {effects : List StackEffect}

/-- What a line does to the stack pointer. -/
inductive Motion
  /-- It stays where it is, which a prologue does not end without. -/
  | stay
  /-- It goes down by `bytes`, or up if `bytes` is negative. -/
  | move (bytes : Int)
  /-- It goes to an unknown place. -/
  | lose
  /-- The function returns. -/
  | ret
  deriving DecidableEq

namespace Motion

/-- What an instruction with given effects does to the stack pointer. -/
def ofEffects (returns : Bool) : List StackEffect → Motion
  | [] => if returns then ret else stay
  | [.grow bytes] => move bytes
  | [.shrink bytes] => move (-bytes)
  | [.setFrame _] => move 0
  | _ => lose

/-- Whether the stack pointer goes somewhere. -/
def isMove : Motion → Bool
  | move _ => true
  | lose => true
  | stay => false
  | ret => false

end Motion

/-- What the text of a line shows about the stack pointer. -/
def Dialect.motion (d : Dialect) (line : Line) : Motion :=
  match item? d 0 line with
  | some (.instr i) => .ofEffects (d.isReturn i) (d.stackEffects [] i)
  | _ => .stay

/-! ### Poses -/

structure Pose where
  inPrologue : Bool
  depth : Int
  bodyDepth : Int
  tracking : Bool

namespace Pose

def settle (p : Pose) : Pose :=
  if p.inPrologue then { p with inPrologue := false, bodyDepth := p.depth } else p

def objects (p : Pose) : Motion → Bool
  | .stay => false
  | .move bytes => p.tracking && p.depth + bytes < 0
  | .lose => false
  | .ret => p.tracking && p.depth ≠ 0

def step (p : Pose) : Motion → Pose
  | .stay => p.settle
  | .move bytes => { p with depth := if p.objects (.move bytes) then 0 else p.depth + bytes }
  | .lose => { p with tracking := false }
  | .ret => { p.settle with depth := p.settle.bodyDepth }

def run (p : Pose) (ms : List Motion) : Pose := ms.foldl step p

def objectsIn (p : Pose) : List Motion → Bool
  | [] => false
  | m :: ms => p.objects m || (p.step m).objectsIn ms

@[simp] theorem run_nil (p : Pose) : p.run [] = p := rfl

@[simp] theorem run_cons (p : Pose) (m : Motion) (ms : List Motion) :
    p.run (m :: ms) = (p.step m).run ms := rfl

theorem run_append (p : Pose) (ms ms' : List Motion) : p.run (ms ++ ms') = (p.run ms).run ms' :=
  List.foldl_append

@[simp] theorem objectsIn_nil (p : Pose) : p.objectsIn [] = false := rfl

@[simp] theorem objectsIn_cons (p : Pose) (m : Motion) (ms : List Motion) :
    p.objectsIn (m :: ms) = (p.objects m || (p.step m).objectsIn ms) := rfl

theorem objectsIn_append (p : Pose) (ms ms' : List Motion) :
    p.objectsIn (ms ++ ms') = (p.objectsIn ms || (p.run ms).objectsIn ms') := by
  induction ms generalizing p with
  | nil => rfl
  | cons m ms ih => rw [List.cons_append, objectsIn_cons, ih, objectsIn_cons, run_cons, Bool.or_assoc]

end Pose

/-! ### Trackers -/

namespace Tracker

def pose (t : Tracker) : Pose := ⟨t.inPrologue, t.depth, t.bodyDepth, t.tracking⟩

theorem pose_endPrologue (t : Tracker) : t.endPrologue.pose = t.pose.settle := by
  cases h : t.inPrologue <;> simp [endPrologue, Pose.settle, pose, h]

variable {d : Dialect} (i : AsmInstr) (t : Tracker)

theorem any_isStack_returnFindings : (t.returnFindings d).any Finding.isStack = false := by
  unfold returnFindings
  rw [List.any_append, List.any_append, List.any_append]
  simp only [Bool.or_eq_false_iff]
  refine ⟨⟨⟨?_, ?_⟩, ?_⟩, ?_⟩
  · simp [Finding.isStack]
  · split <;> rfl
  · split <;> rfl
  · split
    · split <;> rfl
    · rfl

theorem pose_pass (hknown : d.isMnemonic i.mnemonic = true)
    (heffects : d.stackEffects t.constants i = effects) :
    (t.pass d i).1.pose =
      (((t.passSetup d effects i).passEffects effects).1.returnStack d i).1.pose := by
  obtain ⟨_, _, _, _, _, _, _, heq⟩ := t.pass_eq i hknown heffects rfl
  rw [heq]
  rfl

theorem any_isStack_pass (hoperands : ∀ x ∈ d.operandFindings i, x.isStack = false)
    (hknown : d.isMnemonic i.mnemonic = true) (heffects : d.stackEffects t.constants i = effects) :
    (t.pass d i).2.any Finding.isStack =
      (((t.passSetup d effects i).passEffects effects).2.any Finding.isStack ||
        (((t.passSetup d effects i).passEffects effects).1.returnStack d i).2.any
          Finding.isStack) := by
  -- of all that is checked, only effects and returns can give findings about the stack
  have hoperand : (d.operandFindings i).any Finding.isStack = false := by
    simpa using hoperands
  have hsigning : ∀ t : Tracker, (t.passSigning d i).2.any Finding.isStack = false := by
    intro t
    unfold passSigning
    split
    · split <;> rfl
    · rfl
  have hauth : ∀ t : Tracker, (t.passAuthentication d i).2.any Finding.isStack = false := by
    intro t
    unfold passAuthentication
    split
    · split <;> rfl
    · rfl
  have haddress : ∀ t : Tracker, (t.returnAddress d i).2.any Finding.isStack = false := by
    intro t
    unfold returnAddress
    split
    · split <;> rfl
    · rfl
  have hregisters : ∀ t : Tracker, (t.returnRegisters d i).2.any Finding.isStack = false := by
    intro t
    unfold returnRegisters
    split
    · exact t.any_isStack_returnFindings
    · rfl
  have hcalls : ∀ t : Tracker, (t.passCall d i).2.any Finding.isStack = false := by
    intro t
    simp [passCall, Finding.isStack]
  rw [pass, if_pos hknown, passKnown, heffects]
  simp only [List.any_append, hoperand, hsigning, hauth, haddress, hregisters, hcalls,
    Bool.false_or, Bool.or_false]

theorem passEffects_singleton {e : StackEffect} (he : ∀ offset, e ≠ .restoreFrame offset) :
    (t.passEffects [e]).1.pose = t.pose.step (.ofEffects false [e]) ∧
      (t.passEffects [e]).2.any Finding.isStack = t.pose.objects (.ofEffects false [e]) := by
  have hmove : ∀ bytes, (t.applyEffect e).pose =
        ⟨t.inPrologue, t.depth + bytes, t.bodyDepth, t.tracking⟩ →
      (t.passEffects [e]).1.pose = t.pose.step (.move bytes) ∧
        (t.passEffects [e]).2.any Finding.isStack = t.pose.objects (.move bytes) := by
    intro bytes hpose
    obtain ⟨hin, hdepth, hbody, htracking⟩ := Pose.mk.inj hpose
    have hobjects : t.pose.objects (.move bytes) = (t.tracking && decide (t.depth + bytes < 0)) := rfl
    simp only [passEffects, passEffect, htracking, hdepth, Pose.step, ← hobjects]
    cases t.pose.objects (.move bytes) with
    | true => exact ⟨by simp [pose, hin, hbody], rfl⟩
    | false => exact ⟨hpose, rfl⟩
  cases e with
  | grow bytes => exact hmove bytes rfl
  | shrink bytes => exact hmove (-bytes) rfl
  | setFrame offset => exact hmove 0 (by rw [Int.add_zero]; rfl)
  | restoreFrame offset => exact absurd rfl (he offset)
  | unknown => exact ⟨rfl, rfl⟩

theorem returnStack_endPrologue (h : d.isReturn i = true) :
    (t.endPrologue.returnStack d i).1.pose = t.pose.step .ret ∧
      (t.endPrologue.returnStack d i).2.any Finding.isStack = t.pose.objects .ret := by
  have hdepth : t.endPrologue.depth = t.depth := by
    unfold endPrologue
    split <;> rfl
  have htracking : t.endPrologue.tracking = t.tracking := by
    unfold endPrologue
    split <;> rfl
  refine ⟨?_, ?_⟩
  · rw [returnStack, if_pos h, Pose.step, ← pose_endPrologue]
    rfl
  · have hobjects : t.pose.objects .ret = (t.tracking && decide (t.depth ≠ 0)) := rfl
    rw [returnStack, if_pos h, hdepth, htracking, ← hobjects]
    cases t.pose.objects .ret <;> rfl

end Tracker

/-! ### Lines -/

structure Dialect.Steers (d : Dialect) (line : Line) : Prop where
  pose : ∀ t n, (after d t (items d n [line])).pose = t.pose.step (d.motion line)
  findings : ∀ t n, (follow d t (items d n [line])).any (fun x => x.cause.isStack) =
    t.pose.objects (d.motion line)

namespace Dialect.Steers

variable {d : Dialect}

theorem label {name : String} (h : (Text.afterText? ".L" name).isSome) : d.Steers (.label name) where
  pose t n := by
    show (t.passLabel name).pose = t.pose.settle
    rw [Tracker.passLabel, if_pos h, ← Tracker.pose_endPrologue]
    rfl
  findings t n := rfl

theorem instr {line : Line} {i : Nat → AsmInstr} (hread : ∀ n, item? d n line = some (.instr (i n)))
    (hoperands : ∀ i, ∀ x ∈ d.operandFindings i, x.isStack = false)
    (hknown : ∀ n, d.isMnemonic (i n).mnemonic = true) {returns : Bool}
    (hreturn : ∀ n, d.isReturn (i n) = returns) (heffects : ∀ k n, d.stackEffects k (i n) = effects)
    (hsetup : ∀ n, Tracker.isFrameSetup d effects (i n) = !effects.isEmpty)
    (hsingle : effects = [] ∨ returns = false ∧ ∃ e, effects = [e] ∧ ∀ offset, e ≠ .restoreFrame offset) :
    d.Steers line := by
  have hmotion : d.motion line = .ofEffects returns effects := by
    simp only [Dialect.motion, hread, hreturn, heffects]
  have hpass : ∀ (t : Tracker) n, (t.pass d (i n)).1.pose = t.pose.step (d.motion line) ∧
      (t.pass d (i n)).2.any Finding.isStack = t.pose.objects (d.motion line) := by
    intro t n
    rw [Tracker.pose_pass _ _ (hknown n) (heffects _ n),
      Tracker.any_isStack_pass _ _ (hoperands _) (hknown n) (heffects _ n), Tracker.passSetup,
      hsetup, hmotion]
    rcases hsingle with rfl | ⟨rfl, e, rfl, he⟩
    · simp only [List.isEmpty_nil, Bool.not_true, Bool.false_eq_true, if_false, Tracker.passEffects,
        List.any_nil, Bool.false_or]
      cases returns with
      | true => exact Tracker.returnStack_endPrologue _ t (hreturn n)
      | false =>
        rw [Tracker.returnStack, hreturn]
        exact ⟨t.pose_endPrologue, rfl⟩
    · obtain ⟨hpose, hfindings⟩ := t.passEffects_singleton he
      simp only [List.isEmpty_cons, Bool.not_false, if_true, Tracker.returnStack, hreturn,
        Bool.false_eq_true, if_false, List.any_nil, Bool.or_false]
      exact ⟨hpose, hfindings⟩
  refine ⟨fun t n => ?_, fun t n => ?_⟩
  · simp only [items_cons, items_nil, hread, Option.toList_some, List.append_nil, after]
    exact (hpass t n).1
  · simp only [items_cons, items_nil, hread, Option.toList_some, List.append_nil, follow,
      List.any_map]
    exact (hpass t n).2

end Dialect.Steers

theorem Check.follow_of_steers {d : Dialect} {a : Assembly} (h : ∀ line ∈ a, d.Steers line)
    (t : Tracker) (n : Nat) :
    (after d t (items d n a)).pose = t.pose.run (a.map d.motion) ∧
      (follow d t (items d n a)).any (fun x => x.cause.isStack) =
        t.pose.objectsIn (a.map d.motion) := by
  induction a generalizing t n with
  | nil => exact ⟨rfl, rfl⟩
  | cons line a ih =>
    obtain ⟨hline, ha⟩ := List.forall_mem_cons.1 h
    obtain ⟨hpose, hfindings⟩ := ih ha (after d t (items d n [line])) (n + 1)
    have hitems : items d n (line :: a) = items d n [line] ++ items d (n + 1) a :=
      items_append d n [line] a
    rw [hitems, after_append, follow_append, List.any_append, hpose, hfindings, hline.pose,
      hline.findings]
    exact ⟨rfl, rfl⟩

end SsaBackend
