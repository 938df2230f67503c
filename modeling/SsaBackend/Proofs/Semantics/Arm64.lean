import SsaBackend.Arm64.Instr
import SsaBackend.Proofs.Semantics.Assembly

/-!
# What the instructions of arm64 do

An instruction is decoded from its mnemonic and the texts of its operands, and then carried out on
the machine. Arithmetic wraps around, shift amounts count modulo 64, and a division by zero gives
zero. Signing and authenticating the return address leave it as it is but are noted in the trace,
with the stack pointer that they would mix in.
-/

namespace SsaBackend.Arm64

open Asm (State Effect Host Exec)

/-! ### Operands -/

/-- An operand that is read. -/
inductive Source
  | imm (word : Int64)
  | reg (name : Register)

/-- Reads an operand. -/
def source? (text : String) : Option Source :=
  if isImmediate text then (immediate? text).map .imm else some (.reg text)

/-- The value of an operand. -/
def Source.read (s : State) : Source → Int64
  | imm word => word
  | reg r => s.get r

/-- Reads `[base]` or `[base, offset]`. -/
def bracketed? (text : String) : Option (Register × Source) := do
  let inner ← Text.after? '[' text
  if Text.endsWith ']' inner then
    let inner := inner.toList.dropLast
    match Text.cutAtMark? [',', ' '] inner with
    | none => some (String.ofList inner, .imm 0)
    | some (base, offset) => return (String.ofList base, ← source? (String.ofList offset))
  else none

/-- A word in memory. -/
structure Mem where
  base : Register
  offset : Source
  /-- Whether the base is updated before the access. -/
  writeback : Bool
  /-- What is added to the base after the access. -/
  post : Option Source

/-- Reads an address with the operands behind it. -/
def mem? (text : String) (more : List String) : Option Mem := do
  let writeback := Text.endsWith '!' text
  let (base, offset) ←
    bracketed? (if writeback then String.ofList text.toList.dropLast else text)
  return ⟨base, offset, writeback, ← more.head?.mapM source?⟩

namespace Mem

/-- The address that an access uses. -/
def address (m : Mem) (s : State) : Int64 := s.get m.base + m.offset.read s

/-- The state in which an access happens. -/
def before (m : Mem) (s : State) : State :=
  if m.writeback then s.set m.base (m.address s) else s

/-- The state after an access. -/
def after (m : Mem) (s : State) : State :=
  m.post.elim s fun amount => s.set m.base (s.get m.base + amount.read s)

end Mem

/-! ### Instructions -/

/-- An instruction with decoded operands. -/
inductive Op
  | mov (dst : Register) (src : Source)
  | movz (dst : Register) (chunk : Source) (shift : Int64)
  | movk (dst : Register) (chunk : Source) (shift : Int64)
  | alu (op : Alu) (dst lhs : Register) (rhs : Source)
  | lsl (dst lhs : Register) (rhs : Source)
  | madd (dst lhs rhs addend : Register)
  | cmp (lhs : Register) (rhs : Source)
  | tst (lhs : Register) (rhs : Source)
  | cset (dst : Register) (cond : Cond)
  | sign
  | authenticate
  | ldr (dst : Register) (mem : Mem)
  | str (src : Register) (mem : Mem)
  | ldp (first second : Register) (mem : Mem)
  | stp (first second : Register) (mem : Mem)
  | b (label : String)
  | bl (callee : String)
  | cbnz (cond : Register) (label : String)
  | cbz (cond : Register) (label : String)
  | ret

/-- The operation with a given mnemonic. -/
def Alu.ofMnemonic? (mnemonic : String) : Option Alu :=
  [.add, .sub, .mul, .sdiv, .and, .orr, .eor].find? fun op => op.mnemonic = mnemonic

/-- The condition with a given name. -/
def Cond.ofName? (name : String) : Option Cond :=
  [.eq, .ne, .lt, .le, .gt, .ge].find? fun c => c.name = name

/-- Decodes an instruction. -/
def decode (mnemonic : String) (operands : List String) : Option Op :=
  match mnemonic, operands with
  | "mov", [dst, src] => (source? src).map (.mov dst)
  | "movz", dst :: chunk :: rest => do return .movz dst (← source? chunk) (← chunkShift? rest)
  | "movk", dst :: chunk :: rest => do return .movk dst (← source? chunk) (← chunkShift? rest)
  | "lsl", [dst, lhs, rhs] => (source? rhs).map (.lsl dst lhs)
  | "madd", [dst, lhs, rhs, addend] => some (.madd dst lhs rhs addend)
  | "cmp", [lhs, rhs] => (source? rhs).map (.cmp lhs)
  | "tst", [lhs, rhs] => (source? rhs).map (.tst lhs)
  | "cset", [dst, cond] => (Cond.ofName? cond).map (.cset dst)
  | "paciasp", [] => some .sign
  | "autiasp", [] => some .authenticate
  | "ldr", dst :: address :: more => (mem? address more).map (.ldr dst)
  | "str", src :: address :: more => (mem? address more).map (.str src)
  | "ldp", first :: second :: address :: more => (mem? address more).map (.ldp first second)
  | "stp", first :: second :: address :: more => (mem? address more).map (.stp first second)
  | "b", [label] => some (.b label)
  | "bl", [callee] => some (.bl callee)
  | "cbnz", [cond, label] => some (.cbnz cond label)
  | "cbz", [cond, label] => some (.cbz cond label)
  | "ret", [] => some .ret
  | mnemonic, [dst, lhs, rhs] => do
    return .alu (← Alu.ofMnemonic? mnemonic) dst lhs (← source? rhs)
  | _, _ => none

section Decode

variable (dst src lhs rhs address : String) (more : List String)

@[simp] theorem decode_mov : decode "mov" [dst, src] = (source? src).map (.mov dst) := rfl

@[simp] theorem decode_lsl : decode "lsl" [dst, lhs, rhs] = (source? rhs).map (.lsl dst lhs) := rfl

@[simp] theorem decode_cmp : decode "cmp" [lhs, rhs] = (source? rhs).map (.cmp lhs) := rfl

@[simp] theorem decode_tst : decode "tst" [lhs, rhs] = (source? rhs).map (.tst lhs) := rfl

@[simp] theorem decode_ldr :
    decode "ldr" (dst :: address :: more) = (mem? address more).map (.ldr dst) := rfl

@[simp] theorem decode_str :
    decode "str" (src :: address :: more) = (mem? address more).map (.str src) := rfl

@[simp] theorem decode_ldp (first second : String) :
    decode "ldp" (first :: second :: address :: more) =
      (mem? address more).map (.ldp first second) := rfl

@[simp] theorem decode_stp (first second : String) :
    decode "stp" (first :: second :: address :: more) =
      (mem? address more).map (.stp first second) := rfl

@[simp] theorem decode_alu (op : Alu) :
    decode op.mnemonic [dst, lhs, rhs] = (source? rhs).map (.alu op dst lhs) := by
  have hdecode : decode op.mnemonic [dst, lhs, rhs] = do return .alu op dst lhs (← source? rhs) := by
    cases op <;> rfl
  rw [hdecode]
  cases source? rhs <;> rfl

end Decode

/-- What an operation computes. -/
def Alu.apply : Alu → Int64 → Int64 → Int64
  | add, lhs, rhs => lhs + rhs
  | sub, lhs, rhs => lhs - rhs
  | mul, lhs, rhs => lhs * rhs
  | sdiv, lhs, rhs => lhs / rhs
  | and, lhs, rhs => lhs &&& rhs
  | orr, lhs, rhs => lhs ||| rhs
  | eor, lhs, rhs => lhs ^^^ rhs

/-- Whether a condition holds of what was compared. -/
def Cond.holds (flags : Int64 × Int64) : Cond → Bool
  | eq => flags.1 = flags.2
  | ne => flags.1 ≠ flags.2
  | lt => flags.1 < flags.2
  | le => flags.1 ≤ flags.2
  | gt => flags.2 < flags.1
  | ge => flags.2 ≤ flags.1

/-- A word with the 16 bits at `shift` replaced. -/
def insertChunk (word chunk shift : Int64) : Int64 :=
  (word &&& ~~~((0xffff : Int64) <<< shift)) ||| (chunk <<< shift)

/-- Carries out an instruction. -/
def Op.exec (host : Host) (s : State) : Op → Option Effect
  | mov dst src => some (.next (s.set dst (src.read s)))
  | movz dst chunk shift => some (.next (s.set dst (chunk.read s <<< shift)))
  | movk dst chunk shift => some (.next (s.set dst (insertChunk (s.get dst) (chunk.read s) shift)))
  | alu op dst lhs rhs => some (.next (s.set dst (op.apply (s.get lhs) (rhs.read s))))
  | lsl dst lhs rhs => some (.next (s.set dst (s.get lhs <<< rhs.read s)))
  | madd dst lhs rhs addend =>
    some (.next (s.set dst (s.get lhs * s.get rhs + s.get addend)))
  | cmp lhs rhs => some (.next { s with flags := (s.get lhs, rhs.read s) })
  | tst lhs rhs => some (.next { s with flags := (s.get lhs &&& rhs.read s, 0) })
  | cset dst cond => some (.next (s.set dst (if cond.holds s.flags then 1 else 0)))
  | sign => some (.next (s.log (.sign (s.get "sp"))))
  | authenticate => some (.next (s.log (.authenticate (s.get "sp"))))
  | ldr dst m => do
    let word ← (m.before s).load (m.address s)
    return .next (m.after ((m.before s).set dst word))
  | str src m => do
    let stored ← (m.before s).store (m.address s) (s.get src)
    return .next (m.after stored)
  | ldp first second m => do
    let low ← (m.before s).load (m.address s)
    let high ← (m.before s).load (m.address s + 8)
    return .next (m.after (((m.before s).set first low).set second high))
  | stp first second m => do
    let stored ← (m.before s).store (m.address s) (s.get first)
    let stored ← stored.store (m.address s + 8) (s.get second)
    return .next (m.after stored)
  | b label => some (.jump label s)
  | bl callee => do return .next (← s.call target "sp" host callee)
  | cbnz cond label => some (if s.get cond ≠ 0 then .jump label s else .next s)
  | cbz cond label => some (if s.get cond = 0 then .jump label s else .next s)
  | ret => some (.ret (s.get "x30") s)

/-- What an instruction does. -/
def exec (host : Host) : Exec := fun mnemonic operands s =>
  (decode mnemonic operands).bind (Op.exec host s)

end SsaBackend.Arm64
