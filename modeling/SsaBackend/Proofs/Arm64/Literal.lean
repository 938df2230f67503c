import SsaBackend.Proofs.Arm64.Select
import SsaBackend.Proofs.Semantics.Stack

/-!
# Literals on arm64

A literal that no single move can hold is put together from chunks of 16 bits. Each of them lands above
bits that are all below it, so after the chunks up to a bit the register holds the literal modulo the
power of two of that bit (`insertChunk_mod`). Chunks that are zero change nothing and are left out.
-/

namespace SsaBackend.Arm64

open Asm List

variable {shift : Nat}

/-! ### Chunks -/

theorem and_not_mask {a : Nat} (ha : a < 2 ^ shift) :
    BitVec.ofNat 64 a &&& ~~~(0xffff#64 <<< shift) = BitVec.ofNat 64 a := by
  refine BitVec.eq_of_getLsbD_eq fun i hi => ?_
  rw [BitVec.getLsbD_and, BitVec.getLsbD_not, BitVec.getLsbD_shiftLeft]
  by_cases hlow : i < shift
  · simp [hlow, hi]
  · have hclear : (BitVec.ofNat 64 a).getLsbD i = false := by
      rw [BitVec.getLsbD_ofNat, Nat.testBit_lt_two_pow, Bool.and_false]
      exact Nat.lt_of_lt_of_le ha (Nat.pow_le_pow_right (by decide) (by omega))
    rw [hclear, Bool.false_and]

theorem insertChunk_ofNat {a chunk : Nat} (ha : a < 2 ^ shift) (hchunk : chunk < 65536)
    (hshift : shift ≤ 48) :
    insertChunk (Int64.ofNat a) (Int64.ofNat chunk) (Int64.ofNat shift) =
      Int64.ofNat (a + 2 ^ shift * chunk) := by
  apply Int64.toBitVec_inj.1
  rw [insertChunk, Int64.toBitVec_or, Int64.toBitVec_and, Int64.toBitVec_not,
    toBitVec_shiftLeft_ofNat _ (by omega), toBitVec_shiftLeft_ofNat _ (by omega)]
  show BitVec.ofNat 64 a &&& ~~~(0xffff#64 <<< shift) ||| BitVec.ofNat 64 chunk <<< shift =
    BitVec.ofNat 64 (a + 2 ^ shift * chunk)
  rw [and_not_mask ha]
  have hsum : chunk <<< shift ||| a = a + 2 ^ shift * chunk := by
    rw [← Nat.shiftLeft_add_eq_or_of_lt ha, Nat.shiftLeft_eq, Nat.add_comm, Nat.mul_comm]
  apply BitVec.eq_of_toNat_eq
  rw [BitVec.toNat_or, BitVec.toNat_shiftLeft, BitVec.toNat_ofNat, BitVec.toNat_ofNat,
    BitVec.toNat_ofNat, Nat.mod_eq_of_lt (show chunk < 2 ^ 64 by omega), ← Nat.or_mod_two_pow,
    Nat.or_comm, hsum]

theorem insertChunk_mod (bits : Nat) (hshift : shift ≤ 48) :
    insertChunk (Int64.ofNat (bits % 2 ^ shift)) (Int64.ofNat (bits >>> shift % 65536))
      (Int64.ofNat shift) = Int64.ofNat (bits % 2 ^ (shift + 16)) := by
  rw [insertChunk_ofNat (Nat.mod_lt _ (Nat.two_pow_pos shift)) (Nat.mod_lt _ (by decide)) hshift,
    Nat.shiftRight_eq_div_pow, Nat.pow_add, Nat.mod_mul]

def withChunk (word : Int64) (c : Nat × Nat) : Int64 :=
  insertChunk word (Int64.ofNat c.1) (Int64.ofNat c.2)

def chunkAt? (bits shift : Nat) : Option (Nat × Nat) :=
  if bits >>> shift % 65536 = 0 then none else some (bits >>> shift % 65536, shift)

theorem foldl_chunkAt? (bits : Nat) (hshift : shift ≤ 48) :
    (chunkAt? bits shift).toList.foldl withChunk (Int64.ofNat (bits % 2 ^ shift)) =
      Int64.ofNat (bits % 2 ^ (shift + 16)) := by
  unfold chunkAt?
  split
  · next hzero =>
    rw [Nat.shiftRight_eq_div_pow] at hzero
    rw [Nat.pow_add, Nat.mod_mul, hzero]
    rfl
  · exact insertChunk_mod bits hshift

theorem chunks_eq (value : Int) :
    chunks value = [0, 16, 32, 48].flatMap fun shift =>
      (chunkAt? (value % UInt64.size).toNat shift).toList :=
  filterMap_eq_flatMap_toList _ _

theorem foldl_chunks (value : Int) : (chunks value).foldl withChunk 0 = Int64.ofInt value := by
  have hbits : Int64.ofNat ((value % UInt64.size).toNat % 2 ^ 64) = Int64.ofInt value := by
    have hcast : ((value % UInt64.size).toNat : Int) = value % UInt64.size :=
      Int.toNat_of_nonneg (Int.emod_nonneg _ (by decide))
    rw [← Int64.ofInt_eq_ofNat, ← Int64.toInt_inj, Int64.toInt_ofInt, Int64.toInt_ofInt,
      Int.natCast_emod, hcast]
    exact (Int.emod_bmod _ _).trans (Int.emod_bmod _ _)
  rw [chunks_eq, ← hbits]
  generalize (value % UInt64.size).toNat = bits
  have hnone : (0 : Int64) = Int64.ofNat (bits % 2 ^ 0) := by
    rw [Nat.pow_zero, Nat.mod_one]
    rfl
  simp only [flatMap_cons, flatMap_nil, foldl_append, foldl_nil]
  rw [hnone, foldl_chunkAt? bits (by decide), foldl_chunkAt? bits (by decide),
    foldl_chunkAt? bits (by decide), foldl_chunkAt? bits (by decide)]

theorem chunks_ne_nil {value : Int} (hwide : ¬(-65536 ≤ value ∧ value ≤ 65535))
    (hlow : -2 ^ 63 ≤ value) (hhigh : value < 2 ^ 63) : chunks value ≠ [] := by
  intro hnil
  have hword := foldl_chunks value
  rw [hnil, foldl_nil] at hword
  have hzero := congrArg Int64.toInt hword
  rw [Int64.toInt_ofInt_of_le hlow hhigh] at hzero
  exact hwide (by simp [← hzero])

/-- What a part of a literal makes of the word in its register. -/
def Instr.load (old : Int64) : Instr → Int64
  | mov _ (.imm value) => Int64.ofInt value
  | movz _ chunk shift => withChunk 0 (chunk, shift)
  | movk _ chunk shift => withChunk old (chunk, shift)
  | _ => old

/-- Whether a part of a literal does not look at the word in its register. -/
def Instr.isFirst : Instr → Bool
  | mov _ _ | movz _ _ _ => true
  | _ => false

section Materialize

variable {dst : Register} {value : Int} (hlow : -2 ^ 63 ≤ value) (hhigh : value < 2 ^ 63)

include hlow hhigh

theorem exists_first (dst : Register) : ∃ i is, materialize dst value = i :: is ∧
    i.isFirst = true ∧ ∀ j ∈ is, j.isFirst = false := by
  unfold materialize
  split
  · exact ⟨_, _, rfl, rfl, by simp⟩
  · next hwide =>
    split
    · next hnil => exact absurd hnil (chunks_ne_nil hwide hlow hhigh)
    · exact ⟨_, _, rfl, rfl, forall_mem_map.2 fun _ _ => rfl⟩

theorem foldl_load_materialize (old : Int64) :
    (materialize dst value).foldl Instr.load old = Int64.ofInt value := by
  unfold materialize
  split
  · rfl
  · next hwide =>
    have hword := foldl_chunks value
    split
    · next hnil => exact absurd hnil (chunks_ne_nil hwide hlow hhigh)
    · next hcons =>
      rw [hcons] at hword
      rw [foldl_cons, foldl_map]
      exact hword

end Materialize

/-! ### Loading a literal -/

def Instr.cell (i : Instr) : Cell := .instr i.mnemonic i.operands

abbrev Instr.run (host : Host) (i : Instr) (s : State) : Option Effect :=
  exec host i.mnemonic i.operands s

theorem exec_instr (host : Host) (i : Instr) (h : i.Proper) (s : State) :
    i.run host s = i.op?.bind (Op.exec host s) := by
  rw [Instr.run, exec, decode_render h]

theorem Literal.exec (host : Host) {dst : Register} (hdst : dst ∈ wholeRegs) {i : Instr}
    (h : Literal dst i) (s : State) :
    i.run host s = some (.next (s.set dst (i.load (s.get dst)))) := by
  rw [exec_instr host i (h.proper hdst)]
  cases h with
  | mov h =>
    rw [Instr.op?, Arg.source?, Text.word?_eq_some (by omega) (by omega)]
    rfl
  | movz h =>
    have hlt := h.lt
    rw [Instr.op?, Text.word?_eq_some (by omega) (by omega), Int64.ofInt_eq_ofNat, Instr.load,
      withChunk, insertChunk, Int64.zero_and, Int64.zero_or]
    rfl
  | movk h =>
    have hlt := h.lt
    rw [Instr.op?, Text.word?_eq_some (by omega) (by omega), Int64.ofInt_eq_ofNat]
    rfl

theorem materialize_leads (host : Host) {dst : Register} (hdst : dst ∈ wholeRegs) {value : Int}
    (hlow : -2 ^ 63 ≤ value) (hhigh : value < 2 ^ 63) (s : State) :
    Leads (exec host) ((materialize dst value).map Instr.cell) s
      (· = s.set dst (Int64.ofInt value)) := by
  have hleads := Leads.gather (facts_of_mem_wholeRegs hdst).2.2.1
    (fun i hi s => (literal_materialize dst value i hi).exec host hdst s) s
  rwa [foldl_load_materialize hlow hhigh] at hleads

end SsaBackend.Arm64
