import SsaBackend.Ascending
import SsaBackend.Check.Operands

/-!
# Tracking a function through its text

A tracker follows one function from its label on, instruction by instruction: how deep the stack is,
which registers the prologue saved and which have been restored since, whether the return address is
signed, which registers hold known constants, and which a call may have changed. It starts afresh at
every label of a function, and reports what does not fit together.
-/

namespace SsaBackend

structure Tracker where
  inPrologue : Bool
  saved : List Register
  framePointerSaved : Bool
  linkRegisterSaved : Bool
  signed : Bool
  authenticated : Bool
  restored : List Register
  depth : Int
  bodyDepth : Int
  frameDepth : Option Int
  tracking : Bool
  constants : Constants
  clobbered : List Register

namespace Tracker

def start : Tracker where
  inPrologue := true
  saved := []
  framePointerSaved := false
  linkRegisterSaved := false
  signed := false
  authenticated := false
  restored := []
  depth := 0
  bodyDepth := 0
  frameDepth := none
  tracking := true
  constants := []
  clobbered := []

def endPrologue (t : Tracker) : Tracker :=
  if t.inPrologue then { t with inPrologue := false, bodyDepth := t.depth } else t

/-- Passes a label. A local one is inside a function and may be reached from anywhere in it; any
other starts a function. -/
def passLabel (t : Tracker) (name : String) : Tracker :=
  if (Text.afterText? ".L" name).isSome then { t.endPrologue with constants := [], clobbered := [] }
  else start

def isFrameSetup (d : Dialect) (effects : List StackEffect) (i : AsmInstr) : Bool :=
  !(d.saved i).isEmpty || !effects.isEmpty || d.signs i ||
    (!(d.written i).isEmpty && (d.written i).all d.frameScratch.contains)

def passSetup (d : Dialect) (effects : List StackEffect) (i : AsmInstr) (t : Tracker) : Tracker :=
  if isFrameSetup d effects i then t else t.endPrologue

/-! ### The stack -/

def applyEffect (t : Tracker) : StackEffect → Tracker
  | .grow bytes => { t with depth := t.depth + bytes }
  | .shrink bytes => { t with depth := t.depth - bytes }
  | .setFrame offset => { t with frameDepth := some (t.depth - offset) }
  | .restoreFrame offset =>
    match t.frameDepth with
    | some depth => { t with depth := depth - offset }
    | none => { t with tracking := false }
  | .unknown => { t with tracking := false }

def passEffect (t : Tracker) (e : StackEffect) : Tracker × List Finding :=
  let t := t.applyEffect e
  if t.tracking && t.depth < 0 then ({ t with depth := 0 }, [.fault .stackUnderflow]) else (t, [])

def passEffects (t : Tracker) : List StackEffect → Tracker × List Finding
  | [] => (t, [])
  | e :: es =>
    let (t, findings) := t.passEffect e
    let (t, more) := t.passEffects es
    (t, findings ++ more)

/-- A return leaves the stack as the function found it. The code after it starts from the depth of
the body. -/
def returnStack (d : Dialect) (i : AsmInstr) (t : Tracker) : Tracker × List Finding :=
  if d.isReturn i then
    ({ t with depth := t.bodyDepth },
      if t.tracking && t.depth ≠ 0 then [.warning (.stackImbalance t.depth)] else [])
  else (t, [])

/-! ### Signed return addresses -/

def passSigning (d : Dialect) (i : AsmInstr) (t : Tracker) : Tracker × List Finding :=
  if d.signs i then
    ({ t with signed := true },
      if !t.inPrologue || t.signed then [.fault .signedOutsidePrologue] else [])
  else (t, [])

def passAuthentication (d : Dialect) (i : AsmInstr) (t : Tracker) : Tracker × List Finding :=
  if d.authenticates i then
    ({ t with authenticated := true }, if t.signed then [] else [.fault .authenticatedUnsigned])
  else (t, [])

def returnAddress (d : Dialect) (i : AsmInstr) (t : Tracker) : Tracker × List Finding :=
  if d.isReturn i then
    ({ t with authenticated := false },
      if t.signed && !t.authenticated then [.fault .returnUnauthenticated] else [])
  else (t, [])

/-! ### Saved registers -/

def noteSaved (d : Dialect) (t : Tracker) (r : Register) : Tracker :=
  if r = d.target.framePointer then { t with framePointerSaved := true }
  else if some r = d.target.linkRegister then { t with linkRegisterSaved := true }
  else if d.target.isCalleeSaved r then { t with saved := Ascending.insert r t.saved }
  else t

/-- Notes the registers that an instruction saves, in the prologue, and restores, anywhere. -/
def passSaves (d : Dialect) (i : AsmInstr) (t : Tracker) : Tracker :=
  let t := if t.inPrologue then (d.saved i).foldl (noteSaved d) t else t
  { t with restored := t.restored ++ d.restored i }

def returnFindings (d : Dialect) (t : Tracker) : List Finding :=
  ((t.saved.filter fun r => !t.restored.contains r).map fun r => .fault (.notRestored r)) ++
    (if d.target.linkRegister.isSome && t.framePointerSaved != t.linkRegisterSaved then
      [.warning .framePairUnsaved] else []) ++
    (if t.framePointerSaved && !t.restored.contains d.target.framePointer then
      [.warning .framePointerNotRestored] else []) ++
    (match d.target.linkRegister with
      | some r =>
        if t.linkRegisterSaved && !t.restored.contains r then [.warning .linkRegisterNotRestored]
        else []
      | none => [])

def returnRegisters (d : Dialect) (i : AsmInstr) (t : Tracker) : Tracker × List Finding :=
  if d.isReturn i then ({ t with restored := [] }, t.returnFindings d) else (t, [])

/-! ### Calls and constants -/

def clobberedByCall (d : Dialect) : List Register :=
  d.target.callerSaved.filter fun r => r ≠ d.target.retReg

/-- A register that a call changed is not read before it is written; each is reported once. -/
def passCall (d : Dialect) (i : AsmInstr) (t : Tracker) : Tracker × List Finding :=
  let read := d.readRegisters i
  let left := t.clobbered.filter fun r => !read.contains r && !(d.written i).contains r
  ({ t with clobbered := if d.isCall i then clobberedByCall d else left },
    (read.eraseDups.filter t.clobbered.contains).map fun r => .warning (.clobberedRead r))

def passConstants (d : Dialect) (i : AsmInstr) (t : Tracker) : Tracker :=
  let value := d.constant? t.constants i
  { t with constants := (d.written i).foldl (fun k r => k.set r value) t.constants }

/-! ### Whole instructions -/

def passKnown (d : Dialect) (t : Tracker) (i : AsmInstr) : Tracker × List Finding :=
  let effects := d.stackEffects t.constants i
  let (t, underflow) := (t.passSetup d effects i).passEffects effects
  let (t, imbalance) := t.returnStack d i
  let (t, signing) := t.passSigning d i
  let (t, authentication) := t.passAuthentication d i
  let (t, address) := t.returnAddress d i
  let (t, registers) := (t.passSaves d i).returnRegisters d i
  let (t, calls) := t.passCall d i
  (t.passConstants d i,
    d.operandFindings i ++ underflow ++ imbalance ++ signing ++ authentication ++ address ++
      registers ++ calls)

/-- Passes an instruction. One with an unknown mnemonic is reported and otherwise ignored. -/
def pass (d : Dialect) (t : Tracker) (i : AsmInstr) : Tracker × List Finding :=
  if d.isMnemonic i.mnemonic then t.passKnown d i else (t, (d.nameFaults i).map .fault)

end Tracker

end SsaBackend
