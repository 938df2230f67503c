import SsaBackend.Peephole
import SsaBackend.Proofs.Processor.Stack.Effects
import SsaBackend.Proofs.Processor.Redundancy
import SsaBackend.Proofs.Transfers

/-!
# The common rules on processors

Each of the common rules drops the second of two transfers. Whether a processor misses it is another
matter, which is settled here: a copy back is redundant unless the first copy went from a register to the
one that is always zero, a load unless its address is relative to the instruction, and a store unless
that holds, the load went nowhere, or the load changed a register of the address.
-/

namespace SsaBackend.Arch

open Processor Peephole Option

variable {arch : Arch}

/-- An instruction all of whose registers have 64 bits. -/
def IsWide (arch : Arch) (i : AsmInstr) : Prop :=
  ∀ operand ∈ i.operands, ∀ name ∈ arch.dialect.registers operand, ∀ v ∈ arch.view? name,
    v.width = 64

instance (arch : Arch) (i : AsmInstr) : Decidable (arch.IsWide i) :=
  inferInstanceAs (Decidable (∀ operand ∈ i.operands, ∀ name ∈ arch.dialect.registers operand,
    ∀ v ∈ arch.view? name, v.width = 64))

/-! ### Transfers

What the rules take for a copy, a store or a load is one. -/

def IsCopy (arch : Arch) (dst src : String) (a : Operation) : Prop :=
  ∃ v w, arch.view? dst = some v ∧ arch.view? src = some w ∧ v.IsWide ∧ w.IsWide ∧ a = .copy v w

def IsTransfer (arch : Arch) (make : View → Address → Operation) (p : String × String)
    (a : Operation) : Prop :=
  ∃ v address, arch.view? p.1 = some v ∧ arch.address? p.2 = some address ∧ v.IsWide ∧
    address.IsLow ∧ a = make v address

abbrev IsStore (arch : Arch) : String × String → Operation → Prop :=
  arch.IsTransfer fun v address => .store v.read address 8

abbrev IsLoad (arch : Arch) : String × String → Operation → Prop :=
  arch.IsTransfer fun v address => .load v address 8

theorem IsTransfer.both {make make' : View → Address → Operation} {p : String × String}
    {a b : Operation} (ha : arch.IsTransfer make p a) (hb : arch.IsTransfer make' p b) :
    ∃ v address, arch.register? p.1 = v.register ∧ arch.address? p.2 = some address ∧ v.IsWide ∧
      address.IsLow ∧ a = make v address ∧ b = make' v address := by
  obtain ⟨v, address, hv, haddress, hwide, hlow, rfl⟩ := ha
  obtain ⟨v', address', hv', haddress', -, -, rfl⟩ := hb
  cases hv'.symm.trans hv
  cases haddress'.symm.trans haddress
  exact ⟨v, address, by rw [register?, hv, bind_some], haddress, hwide, hlow, rfl, rfl⟩

variable {text : String} {address : Address}

section Amd64

variable {i : AsmInstr} {a : Operation} {p : String × String} (ha : Amd64.operation? i = some a)

theorem isLow_of_base? {base : Option View} (h : Amd64.base? text = some base) :
    ∀ v, base = some v → v.IsLow := by
  rintro v rfl
  unfold Amd64.base? at h
  split at h
  · cases h
  · obtain ⟨w, hw, ⟨⟩⟩ := map_eq_some_iff.1 h
    exact (Amd64.isWide_of_sized? hw).isLow

theorem isLow_of_index? {scale : String} {index : Index}
    (h : Amd64.index? text scale = some index) : index.view.IsLow := by
  simp only [Amd64.index?, bind_eq_bind, bind_eq_some_iff] at h
  obtain ⟨v, hv, shift, -, ⟨⟩⟩ := h
  exact (Amd64.isWide_of_sized? hv).isLow

theorem isLow_of_sum? {offset : Word} {parts : List String}
    (h : Amd64.sum? offset parts = some address) : address.IsLow := by
  unfold Amd64.sum? at h
  split at h
  all_goals simp only [bind_eq_bind, bind_eq_some_iff, pure_def,
    Option.some.injEq, reduceCtorEq] at h
  · subst h
    simp [Address.IsLow]
  · subst h
    trivial
  · obtain ⟨base, hbase, rfl⟩ := h
    exact ⟨isLow_of_base? hbase, by simp⟩
  all_goals
    obtain ⟨base, hbase, index, hindex, rfl⟩ := h
    refine ⟨isLow_of_base? hbase, ?_⟩
    rintro _ ⟨⟩
    exact isLow_of_index? hindex

theorem isLow_address?_amd64 (h : Amd64.address? text = some address) : address.IsLow := by
  unfold Amd64.address? at h
  split at h
  · obtain ⟨n, -, rfl⟩ := map_eq_some_iff.1 h
    simp [Address.IsLow]
  · dsimp only at h
    split at h
    all_goals
      obtain ⟨offset, -, h⟩ := bind_eq_some_iff.1 h
      split at h
      · exact isLow_of_sum? h
      · cases h

include ha

theorem isCopy_amd64 (h : Amd64.move? i = some p) : IsCopy .amd64 p.1 p.2 a := by
  obtain ⟨hm, src, dst, hops, hsrc, hdst⟩ := Amd64.move?_eq_some h
  rw [Amd64.operation?_of_mnemonic hm rfl, hops] at ha
  obtain ⟨q, q', hq, hq', rfl⟩ := Amd64.move_eq_some (Amd64.immediate?_of_register? hsrc) ha
  obtain ⟨v, hv, hview, rfl⟩ := Amd64.place?_of_register? hdst hq'
  obtain ⟨w, hw, hview', rfl⟩ := Amd64.place?_of_register? hsrc hq
  exact ⟨v, w, hview, hview', hv, hw, rfl⟩

theorem isStore_amd64 (h : Amd64.store? i = some p) : IsStore .amd64 p a := by
  obtain ⟨hm, src, hops, hsrc, hmem⟩ := Amd64.store?_eq_some h
  rw [Amd64.operation?_of_mnemonic hm rfl, hops] at ha
  obtain ⟨q, q', hq, hq', rfl⟩ := Amd64.move_eq_some (Amd64.immediate?_of_register? hsrc) ha
  obtain ⟨address, haddress, rfl⟩ := Amd64.place?_of_isMemory hmem hq'
  obtain ⟨v, hv, hview, rfl⟩ := Amd64.place?_of_register? hsrc hq
  exact ⟨v, address, hview, haddress, hv, isLow_address?_amd64 haddress, rfl⟩

theorem isLoad_amd64 (h : Amd64.load? i = some p) : IsLoad .amd64 p a := by
  obtain ⟨hm, dst, hops, hdst, hmem⟩ := Amd64.load?_eq_some h
  rw [Amd64.operation?_of_mnemonic hm rfl, hops] at ha
  obtain ⟨q, q', hq, hq', rfl⟩ := Amd64.move_eq_some (Amd64.immediate?_of_isMemory hmem) ha
  obtain ⟨address, haddress, rfl⟩ := Amd64.place?_of_isMemory hmem hq
  obtain ⟨v, hv, hview, rfl⟩ := Amd64.place?_of_register? hdst hq'
  exact ⟨v, address, hview, haddress, hv, isLow_address?_amd64 haddress, rfl⟩

end Amd64

variable {name : String}

section Arm64

variable {i : AsmInstr} {a : Operation} {p : String × String} (hwide : IsWide .arm64 i)
  (ha : Arm64.operation? i = some a)

theorem isLow_of_view?_arm64 {v : View} (h : Arm64.view? name = some v) : v.IsLow := by
  have hall : ∀ v ∈ Arm64.views, v.2.low = 0 ∧ (v.2.width = 32 ∨ v.2.width = 64) := by
    decide
  obtain ⟨hlow, hwidth⟩ := hall (name, v) (mem_of_lookup h)
  exact ⟨hlow, hwidth⟩

include hwide in
theorem isWide_of_view?_arm64 {v : View} (hmem : name ∈ i.operands)
    (h : Arm64.view? name = some v) : v.IsWide := by
  refine ⟨(isLow_of_view?_arm64 h).low, hwide name hmem name ?_ v h⟩
  show name ∈ Arm64.registers name
  rw [(Arm64.facts_of_view? h).1]
  exact List.mem_singleton_self name

theorem isLow_of_index?_arm64 {index : Index}
    (h : Arm64.index? name text = some index) : index.view.IsLow := by
  simp only [Arm64.index?, bind_eq_bind, bind_eq_some_iff] at h
  obtain ⟨v, hv, _, -, h⟩ := h
  split at h
  · cases h
    exact isLow_of_view?_arm64 hv
  · cases h

theorem isLow_address?_arm64 {inner : List Char}
    (h : Arm64.address? inner = some address) : address.IsLow := by
  unfold Arm64.address? at h
  split at h
  · obtain ⟨v, hv, ⟨⟩⟩ := bind_eq_some_iff.1 h
    refine ⟨?_, by simp⟩
    rintro _ ⟨⟩
    exact isLow_of_view?_arm64 hv
  · obtain ⟨v, hv, h⟩ := bind_eq_some_iff.1 h
    have hbase : ∀ w, some v = some w → w.IsLow := by
      rintro _ ⟨⟩
      exact isLow_of_view?_arm64 hv
    split at h
    · cases h
      exact ⟨hbase, by simp⟩
    all_goals
      obtain ⟨index, hindex, ⟨⟩⟩ := bind_eq_some_iff.1 h
      refine ⟨hbase, ?_⟩
      rintro _ ⟨⟩
      exact isLow_of_index?_arm64 hindex

theorem exists_address_arm64 (hmark : Text.endsWith '!' p.2 = false) {m : Arm64.Access}
    (hm : Arm64.access? [p.2] = some m) :
    ∃ address, m = ⟨address, []⟩ ∧ Arch.address? .arm64 p.2 = some address ∧ address.IsLow := by
  obtain ⟨address, hbracket, rfl⟩ := Arm64.access?_of_not_endsWith hmark hm
  obtain ⟨inner, haddress, -⟩ := Arm64.bracket?_eq_some hbracket
  exact ⟨address, rfl, by simp [Arch.address?, hbracket], isLow_address?_arm64 haddress⟩

include hwide ha

theorem isCopy_arm64 (h : Arm64.move? i = some p) : IsCopy .arm64 p.1 p.2 a := by
  obtain ⟨hm, hops, himm, -⟩ := Arm64.move?_eq_some h
  rw [Arm64.operation?_of_mnemonic hm rfl rfl, hops] at ha
  simp only [Processor.Arm64.move, bind_eq_bind, bind_eq_some_iff] at ha
  obtain ⟨v, hv, x, hx, ⟨⟩⟩ := ha
  obtain ⟨w, hw, rfl⟩ := Arm64.view?_of_reading? himm hx
  exact ⟨v, w, hv, hw, isWide_of_view?_arm64 hwide (by simp [hops]) hv,
    isWide_of_view?_arm64 hwide (by simp [hops]) hw, rfl⟩

theorem isStore_arm64 (h : Arm64.store? i = some p) : IsStore .arm64 p a := by
  obtain ⟨hm, hops, hmark⟩ := Arm64.store?_eq_some h
  rw [Arm64.operation?_of_mnemonic hm rfl rfl, hops] at ha
  simp only [Processor.Arm64.store, bind_eq_bind, bind_eq_some_iff] at ha
  obtain ⟨v, hv, m, hm, ⟨⟩⟩ := ha
  obtain ⟨address, rfl, haddress, hlow⟩ := exists_address_arm64 hmark hm
  have hv' := isWide_of_view?_arm64 hwide (by simp [hops]) hv
  exact ⟨v, address, hv, haddress, hv', hlow, by simp [Operation.store, hv'.width]⟩

theorem isLoad_arm64 (h : Arm64.load? i = some p) : IsLoad .arm64 p a := by
  obtain ⟨hm, hops, hmark⟩ := Arm64.load?_eq_some h
  rw [Arm64.operation?_of_mnemonic hm rfl rfl, hops] at ha
  simp only [Arm64.load, bind_eq_bind, bind_eq_some_iff] at ha
  obtain ⟨v, hv, m, hm, ⟨⟩⟩ := ha
  obtain ⟨address, rfl, haddress, hlow⟩ := exists_address_arm64 hmark hm
  have hv' := isWide_of_view?_arm64 hwide (by simp [hops]) hv
  exact ⟨v, address, hv, haddress, hv', hlow, by simp [Operation.load, Operation.set, hv'.width]⟩

end Arm64

section Riscv64

variable {i : AsmInstr} {a : Operation} {p : String × String}
  (ha : Riscv64.operation? i = some a)

theorem isWide_of_view?_riscv64 {v : View} (h : Riscv64.view? name = some v) : v.IsWide := by
  have hall : ∀ v ∈ Riscv64.views, v.2.low = 0 ∧ v.2.width = 64 := by decide
  obtain ⟨hlow, hwidth⟩ := hall (name, v) (mem_of_lookup h)
  exact ⟨hlow, hwidth⟩

theorem isLow_address?_riscv64 (h : Riscv64.address? text = some address) : address.IsLow := by
  obtain ⟨_, -, h⟩ := bind_eq_some_iff.1 h
  dsimp only at h
  split at h
  all_goals
    obtain ⟨offset, -, h⟩ := bind_eq_some_iff.1 h
    split at h
    · obtain ⟨v, hv, ⟨⟩⟩ := bind_eq_some_iff.1 h
      refine ⟨?_, by simp⟩
      rintro _ ⟨⟩
      exact (isWide_of_view?_riscv64 hv).isLow
    · cases h

include ha

theorem isCopy_riscv64 (h : Riscv64.move? i = some p) : IsCopy .riscv64 p.1 p.2 a := by
  obtain ⟨hm, hops⟩ := Riscv64.move?_eq_some h
  rw [Riscv64.operation?_of_mnemonic hm rfl, hops] at ha
  simp only [Riscv64.computeAlone, bind_eq_bind, bind_eq_some_iff] at ha
  obtain ⟨w, hw, v, hv, ⟨⟩⟩ := ha
  exact ⟨v, w, hv, hw, isWide_of_view?_riscv64 hv, isWide_of_view?_riscv64 hw, rfl⟩

theorem isStore_riscv64 (h : Riscv64.store? i = some p) : IsStore .riscv64 p a := by
  obtain ⟨hm, hops⟩ := Riscv64.store?_eq_some h
  rw [Riscv64.operation?_of_mnemonic hm rfl, hops] at ha
  simp only [Processor.Riscv64.store, bind_eq_bind, bind_eq_some_iff] at ha
  obtain ⟨v, hv, address, haddress, ⟨⟩⟩ := ha
  exact ⟨v, address, hv, haddress, isWide_of_view?_riscv64 hv, isLow_address?_riscv64 haddress, rfl⟩

theorem isLoad_riscv64 (h : Riscv64.load? i = some p) : IsLoad .riscv64 p a := by
  obtain ⟨hm, hops⟩ := Riscv64.load?_eq_some h
  rw [Riscv64.operation?_of_mnemonic hm rfl, hops] at ha
  simp only [Riscv64.load, bind_eq_bind, bind_eq_some_iff] at ha
  obtain ⟨address, haddress, v, hv, ⟨⟩⟩ := ha
  exact ⟨v, address, hv, haddress, isWide_of_view?_riscv64 hv, isLow_address?_riscv64 haddress, rfl⟩

end Riscv64

variable {length : Nat}

section

variable {arch : Arch} {i j : AsmInstr} {a b : Operation} {p : String × String}

theorem isCopy_of_move? (hwide : arch.IsWide i) (ha : arch.operation? i = some a)
    (h : arch.dialect.move? i = some p) : IsCopy arch p.1 p.2 a := by
  cases arch with
  | amd64 => exact isCopy_amd64 ha h
  | arm64 => exact isCopy_arm64 hwide ha h
  | riscv64 => exact isCopy_riscv64 ha h

theorem isStore_of_store? (hwide : arch.IsWide i) (ha : arch.operation? i = some a)
    (h : arch.dialect.store? i = some p) : IsStore arch p a := by
  cases arch with
  | amd64 => exact isStore_amd64 ha h
  | arm64 => exact isStore_arm64 hwide ha h
  | riscv64 => exact isStore_riscv64 ha h

theorem isLoad_of_load? (hwide : arch.IsWide i) (ha : arch.operation? i = some a)
    (h : arch.dialect.load? i = some p) : IsLoad arch p a := by
  cases arch with
  | amd64 => exact isLoad_amd64 ha h
  | arm64 => exact isLoad_arm64 hwide ha h
  | riscv64 => exact isLoad_riscv64 ha h

/-! ### Rules -/

variable (hi : arch.IsWide i) (hj : arch.IsWide j) (ha : arch.operation? i = some a)
  (hb : arch.operation? j = some b)

include hi hj ha hb in
theorem redundant_of_swapBack (length : Nat) (h : swapBack arch.dialect i j = some .dropSecond) :
    ∃ dst src, arch.dialect.move? i = some (dst, src) ∧
      (Redundant length a b ↔ (arch.register? dst = none → arch.register? src = none)) := by
  obtain ⟨-, dst, src, hmove, hmove'⟩ := swapBack_eq_some h
  obtain ⟨v, w, hv, hw, hvwide, hwwide, rfl⟩ := isCopy_of_move? hi ha hmove
  obtain ⟨w', v', hw', hv', -, -, rfl⟩ := isCopy_of_move? hj hb hmove'
  cases hw'.symm.trans hw
  cases hv'.symm.trans hv
  refine ⟨_, _, hmove, ?_⟩
  rw [redundant_copy_iff hvwide hwwide, register?, register?, hv, hw, bind_some, bind_some]

include hi hj ha hb in
theorem redundant_of_reload (hlength : 1 ≤ length ∧ length ≤ 15)
    (h : reload arch.dialect i j = some .dropSecond) :
    ∃ name text address, arch.dialect.store? i = some (name, text) ∧
      arch.address? text = some address ∧
      (Redundant length a b ↔ ∀ offset, address = .relative offset → arch.register? name = none) := by
  obtain ⟨-, name, text, hstore, hload⟩ := reload_eq_some h
  obtain ⟨v, address, hregister, haddress, hwide, -, rfl, rfl⟩ :=
    (isStore_of_store? hi ha hstore).both (isLoad_of_load? hj hb hload)
  exact ⟨_, _, address, hstore, haddress, hregister ▸ redundant_load_iff hlength hwide address⟩

include hi hj ha hb in
theorem redundant_of_storeBack (hlength : 1 ≤ length ∧ length ≤ 15)
    (h : storeBack arch.dialect i j = some .dropSecond) :
    ∃ name text address, arch.dialect.load? i = some (name, text) ∧
      arch.address? text = some address ∧
      (Redundant length a b ↔ ∃ r, arch.register? name = some r ∧ r ∉ address.registers ∧
        ∀ offset, address ≠ .relative offset) := by
  obtain ⟨-, name, text, hload, hstore⟩ := storeBack_eq_some h
  obtain ⟨v, address, hregister, haddress, hwide, hlow, rfl, rfl⟩ :=
    (isLoad_of_load? hi ha hload).both (isStore_of_store? hj hb hstore)
  exact ⟨_, _, address, hload, haddress, hregister ▸ redundant_store_iff hlength hwide hlow⟩

include hi hj ha hb in
/-- When the second of two instructions can go, for each of the common rules where it drops that
instruction, and for every length that an instruction may have. -/
theorem commonRules_redundant_iff {length : Nat} (hlength : 1 ≤ length ∧ length ≤ 15) :
    (swapBack arch.dialect i j = some .dropSecond →
      ∃ dst src, arch.dialect.move? i = some (dst, src) ∧
        (Redundant length a b ↔ (arch.register? dst = none → arch.register? src = none))) ∧
    (reload arch.dialect i j = some .dropSecond →
      ∃ name text address, arch.dialect.store? i = some (name, text) ∧
        arch.address? text = some address ∧
        (Redundant length a b ↔
          ∀ offset, address = .relative offset → arch.register? name = none)) ∧
    (storeBack arch.dialect i j = some .dropSecond →
      ∃ name text address, arch.dialect.load? i = some (name, text) ∧
        arch.address? text = some address ∧
        (Redundant length a b ↔ ∃ r, arch.register? name = some r ∧ r ∉ address.registers ∧
          ∀ offset, address ≠ .relative offset)) :=
  ⟨redundant_of_swapBack hi hj ha hb length, redundant_of_reload hi hj ha hb hlength,
    redundant_of_storeBack hi hj ha hb hlength⟩

end

/-- A store of what was loaded through two other registers can go. -/
theorem storeBack_indexed : ∃ a b,
    amd64.operation? ⟨"movq", ["8(%rbx, %rcx, 4)", "%rax"], 1, ""⟩ = some a ∧
      amd64.operation? ⟨"movq", ["%rax", "8(%rbx, %rcx, 4)"], 1, ""⟩ = some b ∧ Redundant 5 a b := by
  obtain ⟨a, ha⟩ := Option.isSome_iff_exists.1 (show
    (amd64.operation? ⟨"movq", ["8(%rbx, %rcx, 4)", "%rax"], 1, ""⟩).isSome by decide)
  obtain ⟨b, hb⟩ := Option.isSome_iff_exists.1 (show
    (amd64.operation? ⟨"movq", ["%rax", "8(%rbx, %rcx, 4)"], 1, ""⟩).isSome by decide)
  obtain ⟨name, text, address, hload, haddress, hiff⟩ :=
    (commonRules_redundant_iff (by decide) (by decide) ha hb
      (show 1 ≤ 5 ∧ 5 ≤ 15 by decide)).2.2 (by decide)
  have hparts : some ("rax", "8(%rbx, %rcx, 4)") = some (name, text) :=
    Eq.trans (by decide) hload
  cases hparts
  have hsum : some (.sum (some (.whole "rbx")) (some ⟨.whole "rcx", false, 2⟩) 8) = some address :=
    Eq.trans (by decide) haddress
  cases hsum
  exact ⟨a, b, ha, hb, hiff.2 ⟨"rax", by decide, by decide, by simp⟩⟩

/-- A rule drops an instruction that a processor misses. -/
def Loses (arch : Arch) (rule : Rule) (length : Nat) (i j : AsmInstr) : Prop :=
  arch.IsWide i ∧ arch.IsWide j ∧ rule i j = some .dropSecond ∧ ∃ a b,
    arch.operation? i = some a ∧ arch.operation? j = some b ∧ ¬Redundant length a b

theorem loses_of_forall {rule : Rule} {i j : AsmInstr}
    (hsome : (arch.operation? i).isSome ∧ (arch.operation? j).isSome)
    (hfires : arch.IsWide i ∧ arch.IsWide j ∧ rule i j = some .dropSecond)
    (h : ∀ a b, arch.operation? i = some a → arch.operation? j = some b → ¬Redundant length a b) :
    arch.Loses rule length i j := by
  obtain ⟨a, ha⟩ := isSome_iff_exists.1 hsome.1
  obtain ⟨b, hb⟩ := isSome_iff_exists.1 hsome.2
  exact ⟨hfires.1, hfires.2.1, hfires.2.2, a, b, ha, hb, h a b ha hb⟩

theorem loses_storeBack (hlength : 1 ≤ length ∧ length ≤ 15) {i j : AsmInstr}
    (hsome : (arch.operation? i).isSome ∧ (arch.operation? j).isSome)
    (hfires : arch.IsWide i ∧ arch.IsWide j ∧ storeBack arch.dialect i j = some .dropSecond)
    (h : ∀ p ∈ arch.dialect.load? i, ∀ r ∈ arch.register? p.1, ∀ address ∈ arch.address? p.2,
      r ∈ address.registers) : arch.Loses (storeBack arch.dialect) length i j := by
  refine loses_of_forall hsome hfires fun a b ha hb hredundant => ?_
  obtain ⟨name, text, address, hload, haddress, hiff⟩ :=
    redundant_of_storeBack hfires.1 hfires.2.1 ha hb hlength hfires.2.2
  obtain ⟨r, hr, hnotMem, -⟩ := hiff.1 hredundant
  exact hnotMem (h _ hload r hr address haddress)

/-- A load may change the address, it may be lost, a copy may be lost, and the second of two
instructions may mean another address by the same text. -/
theorem commonRules_lose :
    arm64.Loses (storeBack Arm64.dialect) 4 ⟨"ldr", ["x0", "[x0]"], 1, ""⟩
        ⟨"str", ["x0", "[x0]"], 1, ""⟩ ∧
      riscv64.Loses (storeBack Riscv64.dialect) 4 ⟨"ld", ["zero", "0(a0)"], 1, ""⟩
        ⟨"sd", ["zero", "0(a0)"], 1, ""⟩ ∧
      riscv64.Loses (swapBack Riscv64.dialect) 4 ⟨"mv", ["zero", "a0"], 1, ""⟩
        ⟨"mv", ["a0", "zero"], 1, ""⟩ ∧
      amd64.Loses (reload Amd64.dialect) 7 ⟨"movq", ["%rax", "8(%rip)"], 1, ""⟩
        ⟨"movq", ["8(%rip)", "%rax"], 1, ""⟩ := by
  refine ⟨loses_storeBack (by decide) (by decide) (by decide) (by decide),
    loses_storeBack (by decide) (by decide) (by decide) (by decide), ?_, ?_⟩
  · have hfires : riscv64.IsWide ⟨"mv", ["zero", "a0"], 1, ""⟩ ∧
        riscv64.IsWide ⟨"mv", ["a0", "zero"], 1, ""⟩ ∧ swapBack riscv64.dialect
          ⟨"mv", ["zero", "a0"], 1, ""⟩ ⟨"mv", ["a0", "zero"], 1, ""⟩ = some .dropSecond := by
      decide
    refine loses_of_forall (by decide) hfires fun a b ha hb => ?_
    obtain ⟨dst, src, hmove, hiff⟩ := redundant_of_swapBack hfires.1 hfires.2.1 ha hb 4 hfires.2.2
    have hparts : some ("zero", "a0") = some (dst, src) := Eq.trans (by decide) hmove
    cases hparts
    have hzero : riscv64.register? "zero" = none := by decide
    have hregister : riscv64.register? "a0" = some "a0" := by decide
    simp [hiff, hzero, hregister]
  · have hfires : amd64.IsWide ⟨"movq", ["%rax", "8(%rip)"], 1, ""⟩ ∧
        amd64.IsWide ⟨"movq", ["8(%rip)", "%rax"], 1, ""⟩ ∧ reload amd64.dialect
          ⟨"movq", ["%rax", "8(%rip)"], 1, ""⟩ ⟨"movq", ["8(%rip)", "%rax"], 1, ""⟩ =
            some .dropSecond := by
      decide
    refine loses_of_forall (by decide) hfires fun a b ha hb => ?_
    obtain ⟨name, text, address, hstore, haddress, hiff⟩ :=
      redundant_of_reload hfires.1 hfires.2.1 ha hb (show 1 ≤ 7 ∧ 7 ≤ 15 by decide) hfires.2.2
    have hparts : some ("rax", "8(%rip)") = some (name, text) := Eq.trans (by decide) hstore
    cases hparts
    have hrelative : some (.relative 8) = some address := Eq.trans (by decide) haddress
    cases hrelative
    have hregister : amd64.register? "rax" = some "rax" := by decide
    simp [hiff, hregister]

end SsaBackend.Arch
