import SsaBackend.Proofs.Riscv64.Select
import SsaBackend.Proofs.Semantics.Stack

/-!
# Literals on riscv64

A literal is put together from a signed part of 12 bits and the rest above it. Taking the signed part
off may wrap around, but only in bits that the shift back drops again, so words come out right as long
as they are compared modulo the size of a word (`ofInt_eq_of_emod`).
-/

namespace SsaBackend.Riscv64

open Asm

/-! ### Parts of a word -/

theorem ofInt_eq_of_emod {a b : Int} (h : a % 2 ^ 64 = b % 2 ^ 64) : Int64.ofInt a = Int64.ofInt b := by
  have hmod : a % (Int64.size : Nat) = b % (Int64.size : Nat) := h
  rw [← Int64.toInt_inj, Int64.toInt_ofInt, Int64.toInt_ofInt, ← Int.emod_bmod a, hmod,
    Int.emod_bmod]

theorem ofInt_shiftLeft (a : Int) : Int64.ofInt a <<< Int64.ofInt 12 = Int64.ofInt (a * 4096) := by
  rw [Int64.ofInt_mul]
  exact (mul_eq_shiftLeft (show (Int64.ofInt 4096).toInt = 2 ^ 12 by decide) _).symm

theorem word_ofInt (a : Int) : word (Int64.ofInt a) = Int64.ofInt (a.bmod (2 ^ 32)) := by
  rw [← Int64.toInt_inj, word, Int32.toInt_toInt64, Int64.toInt_toInt32, Int64.toInt_ofInt,
    Int.bmod_bmod_of_dvd (by decide), Int64.toInt_ofInt_of_le]
  · rw [Int.bmod_def]
    omega
  · rw [Int.bmod_def]
    omega

theorem ofInt_high_low (value : Int) :
    Int64.ofInt (high value * 4096 + low value) = Int64.ofInt value := by
  have hlow := low_bounds value
  refine ofInt_eq_of_emod ?_
  simp only [high, UInt64.size, Int.bmod_def (value - low value)]
  omega

theorem high_bounds (value : Int) : -2 ^ 63 ≤ high value ∧ high value < 2 ^ 63 := by
  simp only [high, UInt64.size, Int.bmod_def (value - low value)]
  omega

theorem word_upper (value : Int) :
    word (Int64.ofInt ((value - low value) / 4096 % 1048576) <<< Int64.ofInt 12) =
      Int64.ofInt ((value - low value).bmod (2 ^ 32)) := by
  have hlow := low_bounds value
  rw [ofInt_shiftLeft, word_ofInt]
  refine congrArg Int64.ofInt ?_
  rw [Int.bmod_def, Int.bmod_def]
  omega

theorem word_upper_add_low {value : Int} (hmin : -2 ^ 31 ≤ value) (hmax : value < 2 ^ 31) :
    word (Int64.ofInt ((value - low value).bmod (2 ^ 32)) + Int64.ofInt (low value)) =
      Int64.ofInt value := by
  rw [← Int64.ofInt_add, word_ofInt]
  refine congrArg Int64.ofInt ?_
  rw [Int.bmod_def, Int.bmod_def]
  omega

/-- What a part of a literal makes of the word in its register. -/
def Instr.load (old : Int64) : Instr → Int64
  | li _ value => Int64.ofInt value
  | lui _ value => word (Int64.ofInt value <<< Int64.ofInt 12)
  | imm op _ _ value => op.apply old (Int64.ofInt value)
  | _ => old

/-- Whether a part of a literal does not look at the word in its register. -/
def Instr.isFirst : Instr → Bool
  | li _ _ | lui _ _ => true
  | _ => false

theorem exists_first (dst : Register) (value : Int) :
    ∃ i is, materialize dst value = i :: is ∧ i.isFirst = true := by
  fun_induction materialize dst value with
  | case1 | case2 => exact ⟨_, _, rfl, rfl⟩
  | case3 value _ _ ih =>
    obtain ⟨i, is, heq, hi⟩ := ih
    exact ⟨i, _, by rw [heq, List.cons_append], hi⟩

variable {dst : Register} {value : Int}

theorem foldl_load_addLow (op : ImmOp) (dst : Register) (value : Int) (old : Int64) :
    (addLow op dst value).foldl Instr.load old =
      if low value = 0 then old else op.apply old (Int64.ofInt (low value)) := by
  unfold addLow
  split <;> rfl

theorem foldl_load_materialize (hmin : -2 ^ 63 ≤ value) (hmax : value < 2 ^ 63) (old : Int64) :
    (materialize dst value).foldl Instr.load old = Int64.ofInt value := by
  fun_induction materialize dst value generalizing old with
  | case1 => rfl
  | case2 value hwide hrange =>
    have hbounds : Int32.minValue.toInt = -2 ^ 31 ∧ Int32.maxValue.toInt = 2 ^ 31 - 1 := by decide
    rw [List.foldl_cons, foldl_load_addLow, Instr.load, word_upper]
    split
    · next hzero => rw [hzero, Int.sub_zero, Int.bmod_eq_of_le (by omega) (by omega)]
    · exact word_upper_add_low (by omega) (by omega)
  | case3 value hwide hrange ih =>
    obtain ⟨hhigh, hhigh'⟩ := high_bounds value
    have hshift : Instr.load (Int64.ofInt (high value)) (.imm .slli dst dst 12) =
        Int64.ofInt (high value * 4096) := ofInt_shiftLeft _
    rw [List.foldl_append, ih hhigh hhigh', List.foldl_cons, foldl_load_addLow, hshift,
      ← ofInt_high_low value]
    split
    · next hzero => rw [hzero, Int.add_zero]
    · exact (Int64.ofInt_add _ _).symm

theorem natAbs_high_le (value : Int) : 4096 * (high value).natAbs ≤ value.natAbs + 2048 := by
  have hlow := low_bounds value
  simp only [high, UInt64.size, Int.bmod_def (value - low value)]
  omega

theorem length_materialize_le (dst : Register) (n : Nat) {value : Int}
    (h : value.natAbs ≤ 2 ^ 30 * 4096 ^ n) : (materialize dst value).length ≤ 2 * n + 2 := by
  have hbounds : Int32.minValue.toInt = -2 ^ 31 ∧ Int32.maxValue.toInt = 2 ^ 31 - 1 := by decide
  have hlow : ∀ op value, (addLow op dst value).length ≤ 1 := by
    intro op value
    unfold addLow
    split <;> simp
  induction n generalizing value with
  | zero =>
    rw [materialize]
    split
    · simp
    · rw [if_pos (by omega), List.length_cons]
      have := hlow .addiw value
      omega
  | succ n ih =>
    have hhigh := natAbs_high_le value
    have hih := ih (show (high value).natAbs ≤ 2 ^ 30 * 4096 ^ n by omega)
    have haddi := hlow .addi value
    have haddiw := hlow .addiw value
    rw [materialize]
    split
    · simp
    · split
      · rw [List.length_cons]
        omega
      · rw [List.length_append, List.length_cons]
        omega

/-! ### Loading a literal -/

def Instr.cell (i : Instr) : Cell := .instr i.mnemonic i.operands

abbrev Instr.run (host : Host) (i : Instr) (s : State) : Option Effect :=
  exec host i.mnemonic i.operands s

theorem exec_instr (host : Host) (i : Instr) (s : State) :
    i.run host s = i.op?.bind (Op.exec host s) := by
  rw [Instr.run, exec, decode_render]

theorem exec_imm (host : Host) {lhs : Register} {s : State} (op : ImmOp) (hmin : -2 ^ 63 ≤ value)
    (hmax : value < 2 ^ 63) :
    (Instr.imm op dst lhs value).run host s =
      some (.next (s.set dst (op.apply (s.get lhs) (Int64.ofInt value)))) := by
  rw [exec_instr, Instr.op?, Text.word?_eq_some hmin hmax]
  rfl

theorem Literal.exec (host : Host) {i : Instr} (h : Literal dst i) (s : State) :
    i.run host s = some (.next (s.set dst (i.load (s.get dst)))) := by
  cases h with
  | li h | lui h =>
    rw [exec_instr, Instr.op?, Text.word?_eq_some (by omega) (by omega)]
    rfl
  | shift => exact exec_imm host .slli (by decide) (by decide)
  | add _ h => exact exec_imm host _ (by omega) (by omega)

theorem materialize_leads (host : Host) (hdst : isPlain dst = true) (hmin : -2 ^ 63 ≤ value)
    (hmax : value < 2 ^ 63) (s : State) :
    Leads (exec host) ((materialize dst value).map Instr.cell) s
      (· = s.set dst (Int64.ofInt value)) := by
  have hleads := Leads.gather hdst (fun i hi s => (literal_materialize dst value i hi).exec host s) s
  rwa [foldl_load_materialize hmin hmax] at hleads

end SsaBackend.Riscv64
