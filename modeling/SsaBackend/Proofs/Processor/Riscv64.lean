import SsaBackend.Riscv64.Dialect
import SsaBackend.Proofs.Processor.Machine
import SsaBackend.Proofs.Processor.Scanning

/-!
# The instructions of riscv64

What each known mnemonic does. As elsewhere, a literal stands for its number, whether or not it can be
encoded. There are no flags, and all registers are written as a whole.
-/

namespace SsaBackend.Processor.Riscv64

open SsaBackend.Riscv64 (immediate?)

/-! ### Operands -/

/-- The registers by their names in the calling convention, in the order of their numbers from one on. -/
def conventional : List Register :=
  ["ra", "sp", "gp", "tp", "t0", "t1", "t2", "s0", "s1"] ++ numbered "a" 8 ++
    (numbered "s" 12).drop 2 ++ (numbered "t" 7).drop 3

/-- The names of registers: those of the calling convention and those by number. Number zero is always
zero. -/
def views : List (String × View) :=
  [("zero", ⟨none, 0, 64⟩), ("x0", ⟨none, 0, 64⟩)] ++
    conventional.map (fun r => (r, .whole r)) ++
    (((numbered "x" 32).drop 1).zip conventional).map (fun r => (r.1, .whole r.2)) ++
    [("fp", .whole "s0")]

/-- The register of a name. -/
def view? (name : String) : Option View := views.lookup name

/-- A literal. -/
def literal? (operand : String) : Option Word := (immediate? operand).map Int64.toBitVec

/-- Reads `offset(base)`, where the offset may be missing. -/
def address? (text : String) : Option Address := do
  let (offset, rest) ← Text.cutAtMark? ['('] text.toList
  let offset ← if offset.isEmpty then some 0 else literal? (String.ofList offset)
  match rest.reverse with
  | ')' :: name => return .sum (← view? (Text.trim (String.ofList name.reverse))) none offset
  | _ => none

/-! ### Instructions -/

/-- `dst := lhs ∘ rhs` for registers. -/
def compute (f : Word → Word → Word) : List String → Option Operation
  | [dst, lhs, rhs] => do
    let x ← view? lhs
    let y ← view? rhs
    return .set (← view? dst) fun e s => f (x.read e s) (y.read e s)
  | _ => none

/-- `dst := lhs ∘ literal`. -/
def computeWith (f : Word → Word → Word) : List String → Option Operation
  | [dst, lhs, value] => do
    let x ← view? lhs
    let y ← literal? value
    return .set (← view? dst) fun e s => f (x.read e s) y
  | _ => none

/-- `dst := ∘ src`. -/
def computeAlone (f : Word → Word) : List String → Option Operation
  | [dst, src] => do
    let x ← view? src
    return .set (← view? dst) fun e s => f (x.read e s)
  | _ => none

/-- The lower half of a word with its sign. -/
def narrow (x : Word) : Word := (x.setWidth 32).signExtend 64

/-- `dst := ∘ literal`, on top of the address of the instruction if that is asked for. -/
def setLiteral (f : Word → Word) (isRelative : Bool) : List String → Option Operation
  | [dst, value] => do
    let n ← literal? value
    return .set (← view? dst) fun e _ => f n + if isRelative then e.next - 4 else 0
  | _ => none

/-- One if a comparison holds and zero otherwise. -/
def truth (f : Word → Word → Bool) (x y : Word) : Word := if f x y then 1 else 0

/-- Division by zero gives a word of ones. -/
def quotient {width : Nat} (f : BitVec width → BitVec width → BitVec width) (x y : BitVec width) :
    BitVec width :=
  if y = 0 then BitVec.allOnes width else f x y

/-- An operation on the lower halves of words. -/
def onHalves (f : BitVec 32 → BitVec 32 → BitVec 32) (x y : Word) : Word :=
  (f (x.setWidth 32) (y.setWidth 32)).signExtend 64

/-- `f` is what becomes of the bytes that are loaded. -/
def load (bytes : Nat) (f : Word → Word) : List String → Option Operation
  | [dst, address] => do
    let a ← address? address
    return .set (← view? dst) fun e s => f (a.read bytes e s)
  | _ => none

def store (bytes : Nat) : List String → Option Operation
  | [src, address] => do return .store (← view? src).read (← address? address) bytes
  | _ => none

/-- A branch that compares two registers. -/
def branch (f : Word → Word → Bool) : List String → Option Operation
  | [lhs, rhs, label] => do
    let x ← view? lhs
    let y ← view? rhs
    return .jumpIf (fun e s => f (x.read e s) (y.read e s)) label
  | _ => none

/-- A branch that compares a register with zero. -/
def branchZero (expected : Bool) : List String → Option Operation
  | [name, label] => do
    let x ← view? name
    return .jumpIf (fun e s => (x.read e s == 0) == expected) label
  | _ => none

/-- The registers that a callee may change. -/
def volatile : List Register :=
  conventional.filter fun r =>
    !Riscv64.target.calleeSaved.contains r && r ≠ Riscv64.target.framePointer && r ≠ "sp"

/-- A jump that leaves the return address in a register is a call, and one that leaves it nowhere is a
jump for good. -/
def link (dst : View) (target : Setting → State → Control) : Operation :=
  match dst.register with
  | none => { control := target }
  | some _ => { Operation.call volatile with
      writes := (dst, fun e _ => e.next) :: (Operation.call volatile).writes }

/-- A jump to a label that leaves the return address somewhere. -/
def jumpAndLink : List String → Option Operation
  | [name] => some (link (.whole "ra") fun _ _ => .label name)
  | [dst, name] => do return link (← view? dst) fun _ _ => .label name
  | _ => none

/-- Jumps clear the lowest bit of a computed address. -/
def even (x : Word) : Word := x &&& ~~~1#64

/-- A jump to a computed address that leaves the return address somewhere. -/
def jumpAndLinkTo : List String → Option Operation
  | [name] => do
    let x ← view? name
    return link (.whole "ra") fun e s => .address (even (x.read e s))
  | [dst, address] => do
    let a ← address? address
    return link (← view? dst) fun e s => .address (even (a.value e s))
  | [dst, name, offset] => do
    let x ← view? name
    let n ← literal? offset
    return link (← view? dst) fun e s => .address (even (x.read e s + n))
  | _ => none

/-- A jump to the address in a register. -/
def jumpTo : List String → Option Operation
  | [name] => do
    let x ← view? name
    return .jumpTo fun e s => even (x.read e s)
  | _ => none

/-- A jump to a label. -/
def jump : List String → Option Operation
  | [name] => some (.jump name)
  | _ => none

/-- What each mnemonic does. -/
def operations : List (String × (List String → Option Operation)) :=
  [("li", setLiteral id false),
    ("lui", setLiteral (fun n => narrow (n <<< 12)) false),
    ("auipc", setLiteral (fun n => narrow (n <<< 12)) true),
    ("mv", computeAlone id),
    ("add", compute (· + ·)),
    ("addi", computeWith (· + ·)),
    ("addiw", computeWith (onHalves (· + ·))),
    ("sub", compute (· - ·)),
    ("subw", compute (onHalves (· - ·))),
    ("mul", compute (· * ·)),
    ("div", compute (quotient BitVec.sdiv)),
    ("divu", compute (quotient (· / ·))),
    ("divw", compute (onHalves (quotient BitVec.sdiv))),
    ("rem", compute BitVec.srem),
    ("remu", compute (· % ·)),
    ("remw", compute (onHalves BitVec.srem)),
    ("and", compute (· &&& ·)),
    ("andi", computeWith (· &&& ·)),
    ("or", compute (· ||| ·)),
    ("ori", computeWith (· ||| ·)),
    ("xor", compute (· ^^^ ·)),
    ("xori", computeWith (· ^^^ ·)),
    ("slli", computeWith fun x y => x <<< (y.toNat % 64)),
    ("srli", computeWith fun x y => x >>> (y.toNat % 64)),
    ("srai", computeWith fun x y => x.sshiftRight (y.toNat % 64)),
    ("slt", compute (truth BitVec.slt)),
    ("slti", computeWith (truth BitVec.slt)),
    ("sltu", compute (truth BitVec.ult)),
    ("sltiu", computeWith (truth BitVec.ult)),
    ("seqz", computeAlone fun x => truth (· == ·) x 0),
    ("snez", computeAlone fun x => truth (· != ·) x 0),
    ("neg", computeAlone fun x => -x),
    ("not", computeAlone fun x => ~~~x),
    ("ld", load 8 id),
    ("sd", store 8),
    ("lw", load 4 narrow),
    ("sw", store 4),
    ("j", jump),
    ("jal", jumpAndLink),
    ("jalr", jumpAndLinkTo),
    ("jr", jumpTo),
    ("call", fun operands => operands.head?.map fun _ => .call volatile),
    ("tail", jump),
    ("ret", fun _ => jumpTo ["ra"]),
    ("beqz", branchZero true),
    ("bnez", branchZero false),
    ("beq", branch (· == ·)),
    ("bne", branch (· != ·)),
    ("blt", branch BitVec.slt),
    ("bge", branch fun x y => y.sle x),
    ("bltu", branch BitVec.ult),
    ("bgeu", branch fun x y => y.ule x),
    ("nop", fun _ => some .skip)]

/-- What an instruction does. -/
def operation? (i : AsmInstr) : Option Operation :=
  (operations.lookup i.mnemonic).bind fun f => f i.operands

theorem operation?_of_mnemonic {i : AsmInstr} {m : String} {f : List String → Option Operation}
    (hm : i.mnemonic = m) (hform : operations.lookup m = some f) : operation? i = f i.operands := by
  rw [operation?, hm, hform]
  rfl

end SsaBackend.Processor.Riscv64
