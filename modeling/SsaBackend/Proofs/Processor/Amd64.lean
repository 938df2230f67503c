import SsaBackend.Amd64.Dialect
import SsaBackend.Proofs.Processor.Machine
import SsaBackend.Proofs.Processor.Scanning

/-!
# The instructions of amd64

What each known mnemonic does, with all forms of its operands. The mnemonic settles the width of the
operands, and at most one of them is in memory. As elsewhere, a literal stands for its number, whether
or not it can be encoded.
-/

namespace SsaBackend.Processor.Amd64

open Option

open SsaBackend.Amd64 (immediate? isMemory register?)

variable {operand : String} {place : Place} {bytes : Nat}

/-! ### Operands -/

/-- The general registers. -/
def general : List Register :=
  ["rax", "rbx", "rcx", "rdx", "rsi", "rdi", "rsp", "rbp"] ++ (numbered "r" 16).drop 8

/-- The names of registers, of all widths that some instruction takes. -/
def views : List (String × View) :=
  general.map (fun r => (r, .whole r)) ++
    ((["eax", "ebx", "ecx", "edx", "esi", "edi", "esp", "ebp"] ++
      ((numbered "r" 16).drop 8).map (· ++ "d")).zip general).map (fun r => (r.1, .half r.2)) ++
    ((["al", "bl", "cl", "dl", "sil", "dil", "spl", "bpl"] ++
      ((numbered "r" 16).drop 8).map (· ++ "b")).zip general).map (fun r => (r.1, ⟨some r.2, 0, 8⟩)) ++
    (["ah", "bh", "ch", "dh"].zip general).map (fun r => (r.1, ⟨some r.2, 8, 8⟩))

/-- The register of a name. -/
def view? (name : String) : Option View := views.lookup name

/-- The register that an operand of a given width is. -/
def sized? (width : Nat) (operand : String) : Option View :=
  ((register? operand).bind view?).filter fun v => v.width = width

/-- Reads the base of an address, which may be missing. -/
def base? (text : String) : Option (Option View) :=
  if text.isEmpty then some none else (sized? 64 text).map some

/-- Reads the index of an address and its scale. -/
def index? (text scale : String) : Option Index := do
  return ⟨← sized? 64 text, false, ← [("1", 0), ("2", 1), ("4", 2), ("8", 3)].lookup scale⟩

/-- The address with a given offset and what stands in parentheses. -/
def sum? (offset : Word) : List String → Option Address
  | [] => some (.sum none none offset)
  | ["%rip"] => some (.relative offset)
  | [base] => do return .sum (← base? base) none offset
  | [base, index] => do return .sum (← base? base) (← index? index "1") offset
  | [base, index, scale] => do return .sum (← base? base) (← index? index scale) offset
  | _ => none

/-- Reads `offset(base, index, scale)`. Without parentheses the offset is the address. -/
def address? (text : String) : Option Address :=
  match Text.cutAtMark? ['('] text.toList with
  | none => (Text.int64? text).map fun n => .sum none none n.toBitVec
  | some (offset, rest) => do
    let offset ← if offset.isEmpty then some 0 else Text.int64? (String.ofList offset)
    match rest.reverse with
    | ')' :: inner => sum? offset.toBitVec (Listing.operands inner.reverse)
    | _ => none

/-- A register or a place in memory. -/
inductive Place
  | register (v : View)
  | memory (a : Address)

namespace Place

/-- What stands in a place of a given number of bytes. -/
def read (bytes : Nat) : Place → Reading
  | register v => v.read
  | memory a => a.read bytes

def isMemory : Place → Bool
  | register _ => false
  | memory _ => true

/-- Puts a word to a place. -/
def assign (bytes : Nat) (x : Reading) : Place → Operation
  | register v => .set v x
  | memory a => .store x a bytes

end Place

/-- Reads a place of a given number of bytes. -/
def place? (bytes : Nat) (operand : String) : Option Place :=
  match register? operand with
  | some _ => (sized? (8 * bytes) operand).map .register
  | none => (address? operand).map .memory

/-- An operand that is read, and whether it is in memory. -/
def source? (bytes : Nat) (operand : String) : Option (Reading × Bool) :=
  ((immediate? operand).map fun n => (literal n.toBitVec, false)).or
    ((place? bytes operand).map fun p => (p.read bytes, p.isMemory))

/-- A source and a destination, of which at most one is in memory. -/
def pair? (bytes : Nat) : List String → Option (Reading × Place)
  | [src, dst] => do
    let (x, isMemory) ← source? bytes src
    let place ← place? bytes dst
    if isMemory && place.isMemory then none else return (x, place)
  | _ => none

/-! ### Instructions -/

def move (bytes : Nat) (operands : List String) : Option Operation := do
  let (x, dst) ← pair? bytes operands
  return dst.assign bytes x

/-- A literal of full width goes to a register. -/
def moveLiteral : List String → Option Operation
  | [src, dst] => do
    let n ← immediate? src
    return .set (← sized? 64 dst) (literal n.toBitVec)
  | _ => none

/-- A byte fills a register. -/
def moveByte : List String → Option Operation
  | [src, dst] => do
    let place ← place? 1 src
    return .set (← sized? 64 dst) (place.read 1)
  | _ => none

/-- The address itself goes to a register. -/
def moveAddress : List String → Option Operation
  | [address, dst] => do return .set (← sized? 64 dst) (← address? address).value
  | _ => none

/-- `dst := dst ∘ src`. -/
def compute (f : Word → Word → Word) (flags : Word → Word → Flags) (operands : List String) :
    Option Operation := do
  let (x, dst) ← pair? 8 operands
  return { dst.assign 8 fun e s => f (dst.read 8 e s) (x e s) with
    flags := fun e s => flags (dst.read 8 e s) (x e s) }

/-- Compares `dst` with `src`. -/
def compare (flags : Word → Word → Flags) (operands : List String) : Option Operation := do
  let (x, dst) ← pair? 8 operands
  return { flags := fun e s => flags (dst.read 8 e s) (x e s) }

/-- `dst := ∘ dst`. -/
def computeAlone (f : Word → Word) (flags : Flags → Word → Flags) : List String → Option Operation
  | [operand] => do
    let dst ← place? 8 operand
    return { dst.assign 8 fun e s => f (dst.read 8 e s) with
      flags := fun e s => flags s.flags (dst.read 8 e s) }
  | _ => none

/-- The flags of a difference, with the carry flag for a borrow. -/
def borrow (x y : Word) : Flags := { Flags.ofDifference x y with carry := x.ult y }

/-- The flags of a product: whether it fits, and otherwise nothing. -/
def fits (x y : Word) (f : Flags) : Flags :=
  { f with carry := x.smulOverflow y, overflow := x.smulOverflow y }

/-- With one operand the product has two words, otherwise one. -/
def multiply : List String → Option Operation
  | [src] => do
    let (y, _) ← source? 8 src
    let x := (View.whole "rax").read
    let product : Setting → State → BitVec 128 := fun e s =>
      (x e s).signExtend 128 * (y e s).signExtend 128
    return {
      writes := [(.whole "rax", fun e s => (product e s).setWidth 64),
        (.whole "rdx", fun e s => (product e s).extractLsb' 64 64)]
      flags := fun e s => fits (x e s) (y e s) e.flags }
  | [src, dst] => do
    let (y, _) ← source? 8 src
    let dst ← sized? 64 dst
    return { Operation.set dst fun e s => dst.read e s * y e s with
      flags := fun e s => fits (dst.read e s) (y e s) e.flags }
  | [factor, src, dst] => do
    let n ← immediate? factor
    let place ← place? 8 src
    return { Operation.set (← sized? 64 dst) fun e s => place.read 8 e s * n.toBitVec with
      flags := fun e s => fits (place.read 8 e s) n.toBitVec e.flags }
  | _ => none

/-- The dividend has two words, and the quotient has to fit one. -/
def divide : List String → Option Operation
  | [src] => do
    let place ← place? 8 src
    let dividend : Setting → State → Int := fun _ s =>
      (s.registers "rdx" ++ s.registers "rax").toInt
    let divisor : Setting → State → Int := fun e s => (place.read 8 e s).toInt
    return {
      writes := [(.whole "rax", fun e s => BitVec.ofInt 64 ((dividend e s).tdiv (divisor e s))),
        (.whole "rdx", fun e s => BitVec.ofInt 64 ((dividend e s).tmod (divisor e s)))]
      flags := fun e _ => e.flags
      isDefined := fun e s => divisor e s ≠ 0 ∧
        Int64.minValue.toInt ≤ (dividend e s).tdiv (divisor e s) ∧
        (dividend e s).tdiv (divisor e s) ≤ Int64.maxValue.toInt }
  | _ => none

/-- Fills a register with the sign of the accumulator. -/
def widen : Operation :=
  .set (.whole "rdx") fun _ s => (s.registers "rax").sshiftRight 63

/-- The conditions by the ends of mnemonics. -/
def conditions : List (String × (Flags → Bool)) :=
  [("e", fun f => f.zero), ("ne", fun f => !f.zero), ("l", fun f => f.negative != f.overflow),
    ("le", fun f => f.zero || f.negative != f.overflow),
    ("g", fun f => !f.zero && f.negative == f.overflow),
    ("ge", fun f => f.negative == f.overflow)]

/-- Sets a byte to the truth of a condition. -/
def test (holds : Flags → Bool) : List String → Option Operation
  | [operand] => do
    return (← place? 1 operand).assign 1 fun _ s => if holds s.flags then 1 else 0
  | _ => none

/-- A jump under a condition. -/
def branch (holds : Flags → Bool) : List String → Option Operation
  | [label] => some (.jumpIf (fun _ s => holds s.flags) label)
  | _ => none

/-- A jump to a label, or to the address in a place behind an asterisk. -/
def jump : List String → Option Operation
  | [operand] =>
    match Text.after? '*' operand with
    | some text => (place? 8 text).map fun p => .jumpTo (p.read 8)
    | none => some (.jump operand)
  | _ => none

def stackPointer : View := .whole "rsp"

def push : List String → Option Operation
  | [src] => do
    let (x, _) ← source? 8 src
    return {
      writes := [(stackPointer, fun _ s => s.registers "rsp" - 8)]
      memory := fun e s => s.memory.store (s.registers "rsp" - 8) 8 (x e s) }
  | _ => none

/-- The word on top of the stack. -/
def top : Reading := fun _ s => s.memory.load (s.registers "rsp") 8

/-- The stack pointer moves before the address of the destination is computed. -/
def pop : List String → Option Operation
  | [dst] => do
    let moved : View × Reading := (stackPointer, fun _ s => s.registers "rsp" + 8)
    match ← place? 8 dst with
    | .register v => return { writes := [moved, (v, top)] }
    | .memory a => return {
        writes := [moved]
        memory := fun e s =>
          s.memory.store (a.value e ({ writes := [moved] : Operation }.after e s)) 8 (top e s) }
  | _ => none

/-- Drops the frame and gets the frame pointer back from the stack. -/
def leave : Operation where
  writes := [(stackPointer, fun _ s => s.registers "rbp" + 8),
    (.whole "rbp", fun _ s => s.memory.load (s.registers "rbp") 8)]

/-- Takes the return address from the stack. -/
def leaveFunction : Operation where
  writes := [(stackPointer, fun _ s => s.registers "rsp" + 8)]
  control := fun e s => .address (top e s)

/-- The registers that a callee may change. -/
def volatile : List Register :=
  general.filter fun r =>
    !Amd64.target.calleeSaved.contains r && r ≠ Amd64.target.framePointer && r ≠ "rsp"

/-- A call leaves the stack pointer as it was, since the callee takes the return address. -/
def call : List String → Option Operation
  | [_] => some (.call volatile)
  | _ => none

/-- An instruction without operands. -/
def alone (op : Operation) : List String → Option Operation
  | [] => some op
  | _ => none

/-- What each mnemonic does. -/
def operations : List (String × (List String → Option Operation)) :=
  [("movq", move 8),
    ("movl", move 4),
    ("movabsq", moveLiteral),
    ("movzbq", moveByte),
    ("leaq", moveAddress),
    ("addq", compute (· + ·) .ofSum),
    ("subq", compute (· - ·) borrow),
    ("imulq", multiply),
    ("idivq", divide),
    ("andq", compute (· &&& ·) fun x y => .ofResult (x &&& y)),
    ("orq", compute (· ||| ·) fun x y => .ofResult (x ||| y)),
    ("xorq", compute (· ^^^ ·) fun x y => .ofResult (x ^^^ y)),
    ("negq", computeAlone (- ·) fun _ x => borrow 0 x),
    ("notq", computeAlone (~~~ ·) fun f _ => f),
    ("cqto", alone widen),
    ("cmpq", compare borrow),
    ("testq", compare fun x y => .ofResult (x &&& y)),
    ("pushq", push),
    ("popq", pop),
    ("call", call),
    ("callq", call),
    ("ret", alone leaveFunction),
    ("retq", alone leaveFunction),
    ("jmp", jump),
    ("leave", alone leave),
    ("nop", fun _ => some .skip)] ++
    conditions.map (fun c => ("set" ++ c.1, test c.2)) ++
    conditions.map (fun c => ("j" ++ c.1, branch c.2))

/-- What an instruction does. -/
def operation? (i : AsmInstr) : Option Operation :=
  (operations.lookup i.mnemonic).bind fun f => f i.operands

theorem operation?_of_mnemonic {i : AsmInstr} {m : String} {f : List String → Option Operation}
    (hm : i.mnemonic = m) (hform : operations.lookup m = some f) : operation? i = f i.operands := by
  rw [operation?, hm, hform]
  rfl

/-! ### Reading operands -/

theorem isWide_of_sized? {v : View} (h : sized? 64 operand = some v) : v.IsWide := by
  have hall : ∀ v ∈ views, v.2.width = 64 → v.2.low = 0 := by decide
  obtain ⟨hview, hwidth⟩ := filter_eq_some_iff.1 h
  obtain ⟨name, -, hv⟩ := bind_eq_some_iff.1 hview
  rw [decide_eq_true_eq] at hwidth
  exact ⟨hall (name, v) (mem_of_lookup hv) hwidth, hwidth⟩

theorem place?_of_register? {name : String} (hname : register? operand = some name)
    (h : place? 8 operand = some place) :
    ∃ v, v.IsWide ∧ view? name = some v ∧ place = .register v := by
  rw [place?, hname] at h
  obtain ⟨v, hv, rfl⟩ := map_eq_some_iff.1 h
  have hview := (filter_eq_some_iff.1 hv).1
  rw [hname, bind_some] at hview
  exact ⟨v, isWide_of_sized? hv, hview, rfl⟩

theorem place?_of_isMemory (hmem : isMemory operand = true) (h : place? bytes operand = some place) :
    ∃ a, address? operand = some a ∧ place = .memory a := by
  have hall : ∀ v ∈ views, '(' ∉ v.1.toList := by decide
  unfold place? at h
  split at h
  · next name hname =>
    obtain ⟨v, hv, -⟩ := map_eq_some_iff.1 h
    have hview := (filter_eq_some_iff.1 hv).1
    rw [hname, bind_some] at hview
    have hmem : '(' ∈ operand.toList := List.contains_iff_mem.1 hmem
    rw [Text.after?_eq_some hname, List.mem_cons] at hmem
    exact absurd (hmem.resolve_left (by decide)) (hall (name, v) (mem_of_lookup hview))
  · obtain ⟨a, ha, rfl⟩ := map_eq_some_iff.1 h
    exact ⟨a, ha, rfl⟩

theorem immediate?_of_register? {name : String} (h : register? operand = some name) :
    immediate? operand = none := by
  have hstart : Text.startsWith '$' operand = false := by
    simp [Text.startsWith, Text.after?_eq_some h]
  rw [immediate?, Text.after?_eq_none hstart]
  rfl

theorem immediate?_of_isMemory (h : isMemory operand = true) : immediate? operand = none := by
  cases himm : immediate? operand with
  | none => rfl
  | some n =>
    obtain ⟨text, htext, hn⟩ := bind_eq_some_iff.1 himm
    have hmem : '(' ∈ operand.toList := List.contains_iff_mem.1 h
    rw [Text.after?_eq_some htext, List.mem_cons] at hmem
    exact absurd (Text.mem_of_int64? hn (hmem.resolve_left (by decide))) (by decide)

theorem pair?_eq_some {src dst : String} {x : Reading}
    (h : pair? bytes [src, dst] = some (x, place)) : place? bytes dst = some place ∧
      ((∃ n, immediate? src = some n ∧ x = literal n.toBitVec) ∨
        immediate? src = none ∧ ∃ p, place? bytes src = some p ∧ x = p.read bytes) := by
  simp only [pair?, bind_eq_bind, bind_eq_some_iff, pure_def] at h
  obtain ⟨y, hsrc, p, hdst, h⟩ := h
  have hpair : x = y.1 ∧ place = p := by grind
  obtain ⟨rfl, rfl⟩ := hpair
  refine ⟨hdst, ?_⟩
  cases himm : immediate? src with
  | some n =>
    rw [source?, himm, map_some, some_or, Option.some.injEq] at hsrc
    exact .inl ⟨n, rfl, by rw [← hsrc]⟩
  | none =>
    rw [source?, himm, map_none, none_or] at hsrc
    obtain ⟨p, hp, rfl⟩ := map_eq_some_iff.1 hsrc
    exact .inr ⟨rfl, p, hp, rfl⟩

theorem move_eq_some {src dst : String} {a : Operation} (himm : immediate? src = none)
    (h : move bytes [src, dst] = some a) :
    ∃ p q, place? bytes src = some p ∧ place? bytes dst = some q ∧
      a = q.assign bytes (p.read bytes) := by
  obtain ⟨⟨x, q⟩, hpair, ⟨⟩⟩ := bind_eq_some_iff.1 h
  obtain ⟨hdst, ⟨n, hn, -⟩ | ⟨-, p, hsrc, rfl⟩⟩ := pair?_eq_some hpair
  · rw [himm] at hn
    cases hn
  · exact ⟨p, q, hsrc, hdst, rfl⟩

end SsaBackend.Processor.Amd64
