import SsaBackend.Arm64.Dialect
import SsaBackend.Peephole.Basic

/-!
# Tidying up arm64 assembly

Rules for pairs of instructions: additions and subtractions that cancel, products with powers of two,
stores of neighbouring words, comparisons with zero, and products that are added at once.
-/

namespace SsaBackend.Arm64

def operandsOf (mnemonic : String) (i : AsmInstr) : Option (List String) :=
  if i.mnemonic = mnemonic then some i.operands else none

def exponent? (value : Int) : Option Nat :=
  if 0 < value ∧ 1 <<< value.toNat.log2 = value.toNat then some value.toNat.log2 else none

def baseOffset? (address : String) : Option (String × Int) := do
  let inner ← Text.after? '[' address
  if Text.endsWith ']' inner then
    let inner := inner.toList.dropLast
    match Text.cutAtMark? [',', ' '] inner with
    | none => some (String.ofList inner, 0)
    | some (base, offset) =>
      return (String.ofList base, (← immediate? (String.ofList offset)).toInt)
  else none

def inverse? (mnemonic : String) : Option String :=
  if mnemonic = "add" then some "sub" else if mnemonic = "sub" then some "add" else none

def cancelAddSub : Rule := fun first second => do
  let undo ← inverse? first.mnemonic
  match first.operands, ← operandsOf undo second with
  | [dst, src, amount], [dst', src', amount'] =>
    if dst = src && dst' = dst && src' = dst && amount = amount' && (immediate? amount).isSome then
      some .dropBoth
    else none
  | _, _ => none

def otherOperand? (name lhs rhs : String) : Option String :=
  if lhs = name then if rhs = name then none else some rhs
  else if rhs = name then some lhs else none

def mulToShift : Rule := fun first second => do
  match ← operandsOf "mov" first, ← operandsOf "mul" second with
  | [constant, value], [dst, lhs, rhs] =>
    let k ← exponent? (← immediate? value).toInt
    let other ← otherOperand? constant lhs rhs
    if k = 0 then none
    else
      some (.replaceSecond
        (Assembly.instructionText "lsl" [dst, other, "#" ++ toString k]))
  | _, _ => none

def pairStores : Rule := fun first second => do
  match ← operandsOf "str" first, ← operandsOf "str" second with
  | [low, address], [high, address'] =>
    let (base, offset) ← baseOffset? address
    let (base', offset') ← baseOffset? address'
    if base = base' ∧ offset' = offset + 8 ∧ offset % 8 = 0 ∧ -256 ≤ offset ∧ offset ≤ 504 then
      some (.merge (Assembly.instructionText "stp" [low, high, address]))
    else none
  | _, _ => none

def condition? (i : AsmInstr) : Option String :=
  match i.mnemonic, i.operands with
  | "cset", [_, condition] => some condition
  | branch, [_] => Text.afterText? "b." branch
  | _, _ => none

/-- `cmp x, #0` before a test that ignores the carry flag: `tst x, x`. The two differ in the carry
flag only. -/
def cmpZeroToTst : Rule := fun first second => do
  match ← operandsOf "cmp" first with
  | [reg, zero] =>
    let condition ← condition? second
    if immediate? zero = some 0 &&
        ["eq", "ne", "lt", "ge", "gt", "le", "mi", "pl"].contains condition then
      some (.replaceFirst (Assembly.instructionText "tst" [reg, reg]))
    else none
  | _ => none

def fuseMadd : Rule := fun first second => do
  match ← operandsOf "mul" first, ← operandsOf "add" second with
  | [product, lhs, rhs], [dst, x, y] =>
    let addend ← otherOperand? product x y
    if dst = product && !isImmediate addend then
      some (.merge (Assembly.instructionText "madd" [dst, lhs, rhs, addend]))
    else none
  | _, _ => none

def rules : List Rule := [cancelAddSub, mulToShift, pairStores, cmpZeroToTst, fuseMadd]

end SsaBackend.Arm64
