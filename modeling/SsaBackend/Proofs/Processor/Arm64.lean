import SsaBackend.Arm64.Dialect
import SsaBackend.Proofs.Processor.Machine
import SsaBackend.Proofs.Processor.Scanning

/-!
# The instructions of arm64

What each known mnemonic does, with all forms of its operands. Texts are taken at their word: a literal
stands for its number, whether or not it can be encoded, and any name of a register may stand where one
is expected. A processor has no other meaning for such texts, so nothing is lost.
-/

namespace SsaBackend.Processor.Arm64

open SsaBackend.Arm64 (immediate? isImmediate isMemory registers chunkShift?)

variable {operand text : String}

/-! ### Operands -/

/-- The names of registers. The lower halves have names of their own, some registers have two names, and
`xzr` and `wzr` name no register. -/
def views : List (String × View) :=
  (numbered "x" 31).map (fun r => (r, .whole r)) ++
    ((numbered "w" 31).zip (numbered "x" 31)).map (fun r => (r.1, .half r.2)) ++
    [("sp", .whole "sp"), ("wsp", .half "sp"), ("xzr", ⟨none, 0, 64⟩), ("wzr", ⟨none, 0, 32⟩),
      ("fp", .whole "x29"), ("lr", .whole "x30"), ("ip0", .whole "x16"), ("ip1", .whole "x17")]

/-- The register of a name. -/
def view? (name : String) : Option View := views.lookup name

/-- A register or a literal. -/
def reading? (operand : String) : Option Reading :=
  ((immediate? operand).map fun n => literal n.toBitVec).or ((view? operand).map View.read)

/-- What a shift or an extension makes of a word, at a given width. -/
def modifiers : List (String × ((width : Nat) → Word → Nat → BitVec width)) :=
  [("lsl", fun w x n => x.setWidth w <<< n), ("lsr", fun w x n => x.setWidth w >>> n),
    ("asr", fun w x n => (x.setWidth w).sshiftRight n),
    ("ror", fun w x n => (x.setWidth w).rotateRight n),
    ("uxtb", fun w x n => (x.setWidth 8).setWidth w <<< n),
    ("uxth", fun w x n => (x.setWidth 16).setWidth w <<< n),
    ("uxtw", fun w x n => (x.setWidth 32).setWidth w <<< n),
    ("uxtx", fun w x n => x.setWidth w <<< n),
    ("sxtb", fun w x n => (x.setWidth 8).signExtend w <<< n),
    ("sxth", fun w x n => (x.setWidth 16).signExtend w <<< n),
    ("sxtw", fun w x n => (x.setWidth 32).signExtend w <<< n),
    ("sxtx", fun w x n => x.signExtend w <<< n)]

/-- Reads `lsl #3`, say, or `sxtw`. -/
def modifier? (text : String) : Option (String × Nat) :=
  match Text.cutAtMark? [' ', '#'] text.toList with
  | some (kind, amount) => (Text.uint32? (String.ofList amount)).map fun n => (String.ofList kind, n)
  | none => some (text, 0)

/-- The last operand of an instruction: a register or a literal, which may be modified. -/
def source? (width : Nat) : List String → Option Reading
  | [operand] => reading? operand
  | [operand, text] => do
    let x ← reading? operand
    let (kind, amount) ← modifier? text
    let f ← modifiers.lookup kind
    return fun e s => (f width (x e s) amount).setWidth 64
  | _ => none

/-- A scaled register in brackets. -/
def index? (name text : String) : Option Index := do
  let view ← view? name
  let (kind, amount) ← modifier? text
  if h : ["lsl", "uxtw", "sxtw", "sxtx"].contains kind ∧ amount < 4 then
    return ⟨view, ["sxtw", "sxtx"].contains kind, ⟨amount, h.2⟩⟩
  else none

/-- Reads what stands in brackets: a base, and an offset or a scaled register behind a comma. -/
def address? (inner : List Char) : Option Address :=
  match Text.cutAtMark? [',', ' '] inner with
  | none => do return .sum (← view? (String.ofList inner)) none 0
  | some (base, rest) => do
    let base ← view? (String.ofList base)
    match immediate? (String.ofList rest), Text.cutAtMark? [',', ' '] rest with
    | some n, _ => return .sum base none n.toBitVec
    | none, none => return .sum base (← index? (String.ofList rest) "lsl") 0
    | none, some (name, text) =>
      return .sum base (← index? (String.ofList name) (String.ofList text)) 0

/-- Reads brackets; tells whether a mark of an update follows them. -/
def bracket? (text : String) : Option (Address × Bool) := do
  let inner ← Text.after? '[' text
  match inner.toList.reverse with
  | ']' :: cs => return (← address? cs.reverse, false)
  | '!' :: ']' :: cs => return (← address? cs.reverse, true)
  | _ => none

/-- An access to memory, and what it leaves in the base. -/
structure Access where
  address : Address
  updates : List (View × Reading)

/-- Reads an address, which may be updated before the access or behind it. -/
def access? : List String → Option Access
  | [text] => do
    let (address, writeback) ← bracket? text
    return ⟨address, if writeback then address.base?.toList.map (·, address.value) else []⟩
  | [text, post] => do
    let (address, writeback) ← bracket? text
    let amount ← reading? post
    if writeback then none
    else return ⟨address, address.base?.toList.map fun v => (v, fun e s => v.read e s + amount e s)⟩
  | _ => none

theorem access?_of_bracket? {a : Address} (h : bracket? text = some (a, false)) :
    access? [text] = some ⟨a, []⟩ := by
  simp [access?, h]

/-- The conditions by name. -/
def conditions : List (String × (Flags → Bool)) :=
  [("eq", fun f => f.zero), ("ne", fun f => !f.zero), ("hs", fun f => f.carry),
    ("cs", fun f => f.carry), ("lo", fun f => !f.carry), ("cc", fun f => !f.carry),
    ("mi", fun f => f.negative), ("pl", fun f => !f.negative), ("vs", fun f => f.overflow),
    ("vc", fun f => !f.overflow), ("hi", fun f => f.carry && !f.zero),
    ("ls", fun f => !f.carry || f.zero), ("ge", fun f => f.negative == f.overflow),
    ("lt", fun f => f.negative != f.overflow),
    ("gt", fun f => !f.zero && f.negative == f.overflow),
    ("le", fun f => f.zero || f.negative != f.overflow), ("al", fun _ => true),
    ("nv", fun _ => true)]

/-- Whether a condition holds. -/
def condition? (name : String) : Option (Flags → Bool) := conditions.lookup name

/-! ### Instructions -/

/-- An operation on words of one width. -/
abbrev Binary := (width : Nat) → BitVec width → BitVec width → BitVec width

/-- An operation at the width of its destination. -/
def Binary.at (f : Binary) (width : Nat) (x y : Word) : Word :=
  (f width (x.setWidth width) (y.setWidth width)).setWidth 64

def move : List String → Option Operation
  | [dst, src] => do return .set (← view? dst) (← reading? src)
  | _ => none

/-- `movz`, `movk` and `movn` put 16 bits somewhere into what `background` makes of the old word. -/
def chunk (background : Word → Word → Word) (f : Word → Word) : List String → Option Operation
  | dst :: chunk :: rest => do
    let dst ← view? dst
    let bits ← immediate? chunk
    let shift ← chunkShift? rest
    if bits.toBitVec < 0x10000#64 ∧ shift.toBitVec < 64#64 ∧ rest.length ≤ 1 then
      return .set dst fun e s =>
        f (background (0xffff#64 <<< shift.toBitVec) (dst.read e s) ||| bits.toBitVec <<< shift.toBitVec)
    else none
  | _ => none

/-- `dst := lhs ∘ rhs`. -/
def compute (f : Binary) : List String → Option Operation
  | dst :: lhs :: rhs => do
    let dst ← view? dst
    let x ← view? lhs
    let y ← source? dst.width rhs
    return .set dst fun e s => f.at dst.width (x.read e s) (y e s)
  | _ => none

/-- `dst := lhs ∘ rhs`, where no literal can stand. -/
def combine (f : Binary) : List String → Option Operation
  | [dst, lhs, rhs] => do
    let dst ← view? dst
    let x ← view? lhs
    let y ← view? rhs
    return .set dst fun e s => f.at dst.width (x.read e s) (y.read e s)
  | _ => none

/-- `dst := 0 ∘ rhs`. -/
def computeAlone (f : Binary) : List String → Option Operation
  | dst :: rhs => do
    let dst ← view? dst
    let y ← source? dst.width rhs
    return .set dst fun e s => f.at dst.width 0 (y e s)
  | _ => none

/-- `dst := addend ∘ lhs * rhs`. -/
def accumulate (f : Binary) : List String → Option Operation
  | [dst, lhs, rhs, addend] => do
    let dst ← view? dst
    let x ← view? lhs
    let y ← view? rhs
    let z ← view? addend
    return .set dst fun e s =>
      f.at dst.width (z.read e s) (Binary.at (fun _ x y => x * y) dst.width (x.read e s) (y.read e s))
  | _ => none

/-- Compares two operands. -/
def compare (f : (width : Nat) → BitVec width → BitVec width → Flags) :
    List String → Option Operation
  | lhs :: rhs => do
    let x ← view? lhs
    let y ← source? x.width rhs
    return { flags := fun e s => f x.width ((x.read e s).setWidth _) ((y e s).setWidth _) }
  | _ => none

/-- `dst := if condition then 1 else 0`. -/
def test : List String → Option Operation
  | [dst, condition] => do
    let dst ← view? dst
    let holds ← condition? condition
    return .set dst fun _ s => if holds s.flags then 1 else 0
  | _ => none

/-- `dst := if condition then lhs else rhs`. -/
def select : List String → Option Operation
  | [dst, lhs, rhs, condition] => do
    let dst ← view? dst
    let x ← view? lhs
    let y ← view? rhs
    let holds ← condition? condition
    return .set dst fun e s => if holds s.flags then x.read e s else y.read e s
  | _ => none

def load : List String → Option Operation
  | dst :: rest => do
    let dst ← view? dst
    let m ← access? rest
    return { writes := (dst, m.address.read (dst.width / 8)) :: m.updates }
  | _ => none

def store : List String → Option Operation
  | src :: rest => do
    let src ← view? src
    let m ← access? rest
    return { Operation.store src.read m.address (src.width / 8) with writes := m.updates }
  | _ => none

/-- The second register gets what stands behind the word of the first. -/
def loadPair : List String → Option Operation
  | first :: second :: rest => do
    let first ← view? first
    let second ← view? second
    let m ← access? rest
    return { writes := (first, m.address.read (first.width / 8)) ::
      (second, (m.address.further (first.width / 8)).read (first.width / 8)) :: m.updates }
  | _ => none

def storePair : List String → Option Operation
  | first :: second :: rest => do
    let first ← view? first
    let second ← view? second
    let m ← access? rest
    let bytes := first.width / 8
    return {
      writes := m.updates
      memory := fun e s => (s.memory.store (m.address.value e s) bytes (first.read e s)).store
        ((m.address.further bytes).value e s) bytes (second.read e s) }
  | _ => none

/-- A jump if a register is zero, or if it is not. -/
def jumpIfZero (expected : Bool) : List String → Option Operation
  | [name, label] => do
    let v ← view? name
    return .jumpIf (fun e s => (v.read e s == 0) == expected) label
  | _ => none

/-- The registers that a callee may change. -/
def volatile : List Register :=
  (numbered "x" 31).filter fun r =>
    !Arm64.target.calleeSaved.contains r && r ≠ Arm64.target.framePointer

def call : List String → Option Operation
  | [_] => some (.call volatile)
  | _ => none

/-- A jump to the address in a register. -/
def jumpTo : List String → Option Operation
  | [name] => do return .jumpTo (← view? name).read
  | _ => none

/-- Signing and authenticating change the return address in ways that depend on secret keys. -/
def signing : List String → Option Operation
  | [] => some (.set (.whole "x30") fun e _ => e.registers "x30")
  | _ => none

/-- What each mnemonic does, conditional branches apart. -/
def operations : List (String × (List String → Option Operation)) :=
  [("mov", move),
    ("movz", chunk (fun _ _ => 0) id),
    ("movk", chunk (fun mask old => old &&& ~~~mask) id),
    ("movn", chunk (fun _ _ => 0) (fun x => ~~~x)),
    ("add", compute fun _ x y => x + y),
    ("sub", compute fun _ x y => x - y),
    ("mul", combine fun _ x y => x * y),
    ("sdiv", combine fun _ x y => x.sdiv y),
    ("udiv", combine fun _ x y => x / y),
    ("msub", accumulate fun _ x y => x - y),
    ("madd", accumulate fun _ x y => x + y),
    ("neg", computeAlone fun _ x y => x - y),
    ("and", compute fun _ x y => x &&& y),
    ("orr", compute fun _ x y => x ||| y),
    ("eor", compute fun _ x y => x ^^^ y),
    ("mvn", computeAlone fun _ _ y => ~~~y),
    ("lsl", compute fun w x y => x <<< (y.toNat % w)),
    ("lsr", compute fun w x y => x >>> (y.toNat % w)),
    ("asr", compute fun w x y => x.sshiftRight (y.toNat % w)),
    ("cmp", compare fun _ => .ofDifference),
    ("cmn", compare fun _ => .ofSum),
    ("tst", compare fun _ x y => .ofResult (x &&& y)),
    ("cset", test),
    ("csel", select),
    ("ldr", load),
    ("str", store),
    ("ldp", loadPair),
    ("stp", storePair),
    ("b", fun operands => operands.head?.map .jump),
    ("bl", call),
    ("blr", call),
    ("br", jumpTo),
    ("cbz", jumpIfZero true),
    ("cbnz", jumpIfZero false),
    ("ret", fun operands => jumpTo (if operands.isEmpty then ["x30"] else operands)),
    ("nop", fun _ => some .skip),
    ("paciasp", signing),
    ("autiasp", signing)]

/-- What an instruction does. -/
def operation? (i : AsmInstr) : Option Operation :=
  match Text.afterText? "b." i.mnemonic, i.operands with
  | some condition, [label] => do
    let holds ← condition? condition
    return .jumpIf (fun _ s => holds s.flags) label
  | some _, _ => none
  | none, operands => (operations.lookup i.mnemonic).bind fun f => f operands

theorem operation?_of_mnemonic {i : AsmInstr} {m : String} {f : List String → Option Operation}
    (hm : i.mnemonic = m) (hbranch : Text.afterText? "b." m = none)
    (hform : operations.lookup m = some f) : operation? i = f i.operands := by
  rw [operation?, hm, hbranch, hform]
  rfl

/-! ### Reading operands -/

theorem view?_of_mem {r : Register} (h : r ∈ numbered "x" 31) : view? r = some (.whole r) := by
  have hall : ∀ r ∈ numbered "x" 31, view? r = some (.whole r) := by decide
  exact hall r h

theorem facts_of_view? {name : String} {v : View} (h : view? name = some v) :
    registers name = [name] ∧ isMemory name = false ∧ isImmediate name = false := by
  have hall : ∀ v ∈ views,
      registers v.1 = [v.1] ∧ isMemory v.1 = false ∧ isImmediate v.1 = false := by
    decide
  exact hall (name, v) (mem_of_lookup h)

theorem immediate?_eq_none (h : isImmediate operand = false) : immediate? operand = none := by
  rw [immediate?, Text.after?_eq_none h]
  rfl

theorem reading?_of_immediate? {n : Int64} (h : immediate? operand = some n) :
    reading? operand = some (literal n.toBitVec) := by
  rw [reading?, h]
  rfl

theorem reading?_of_view? {name : String} {v : View} (h : view? name = some v) :
    reading? name = some v.read := by
  rw [reading?, h, immediate?_eq_none (facts_of_view? h).2.2]
  rfl

theorem view?_of_reading? {x : Reading} (himm : isImmediate operand = false)
    (h : reading? operand = some x) : ∃ v, view? operand = some v ∧ x = v.read := by
  rw [reading?, immediate?_eq_none himm, Option.map_none, Option.none_or] at h
  obtain ⟨v, hv, hx⟩ := Option.map_eq_some_iff.1 h
  exact ⟨v, hv, hx.symm⟩

theorem bracket?_eq_some {a : Address} {writeback : Bool} (h : bracket? text = some (a, writeback)) :
    ∃ inner, address? inner = some a ∧
      text.toList = '[' :: (inner ++ if writeback then [']', '!'] else [']']) := by
  obtain ⟨inner, hinner, hcase⟩ := Option.bind_eq_some_iff.1 h
  rw [Text.after?_eq_some hinner, ← inner.toList.reverse_reverse]
  split at hcase
  · next cs hlist =>
    obtain ⟨_, haddress, ⟨⟩⟩ := Option.bind_eq_some_iff.1 hcase
    exact ⟨cs.reverse, haddress, by simp [hlist]⟩
  · next cs hlist =>
    obtain ⟨_, haddress, ⟨⟩⟩ := Option.bind_eq_some_iff.1 hcase
    exact ⟨cs.reverse, haddress, by simp [hlist]⟩
  · cases hcase

theorem access?_of_not_endsWith {m : Access} (hend : Text.endsWith '!' text = false)
    (h : access? [text] = some m) : ∃ a, bracket? text = some (a, false) ∧ m = ⟨a, []⟩ := by
  obtain ⟨⟨a, writeback⟩, hbracket, ⟨⟩⟩ := Option.bind_eq_some_iff.1 h
  cases writeback with
  | false => exact ⟨a, hbracket, rfl⟩
  | true =>
    obtain ⟨inner, -, htext⟩ := bracket?_eq_some hbracket
    simp [Text.endsWith, htext, List.getLast?_cons] at hend

end SsaBackend.Processor.Arm64
