import SsaBackend.Proofs.Arm64.Quiet
import SsaBackend.Proofs.Processor.Stack.Ledger
import SsaBackend.Proofs.Riscv64.Quiet

/-!
# Loading literals

The instructions that load a literal, read back from their text, leave exactly that word in the register
on the processor, whatever it held, and change nothing else; and a check that follows constants knows the
word behind them, whatever it knew before. This holds for every word and every name of a register:
`puts_riscv64` and `puts_arm64`. Both come from the same argument. Each instruction leaves in the register
what it makes of the word there (`Dialect.Loads`), and what a dialect says of constants is true of the
processor (`Arch.shows`).
-/

namespace SsaBackend

open List Processor

variable {i : Instr} {arch : Arch}

/-- Instructions put a word under a name, on the processor and in the eyes of a check. -/
structure Arch.Puts (arch : Arch) (name : Register) (v : View) (word : Int64) (is : List AsmInstr) :
    Prop where
  /-- From any state and in any settings all instructions are carried out. Nothing changes but the
  register, if the name stands for one. -/
  run : ∃ ops, is.mapM arch.operation? = some ops ∧ ∀ es : List Setting, es.length = ops.length →
    ∀ s, Processor.run (ops.zip es) s = some ⟨v.register.elim s (s.set · word.toBitVec), .next⟩
  noted : ∀ (t : Tracker) (r : Register),
    (is.foldl (fun t i => t.passConstants arch.dialect i) t).constants.get? r =
      if r = name then some word else t.constants.get? r

namespace Processor

variable {α : Type} {asm : α → Nat → AsmInstr} {name : Register} {isFirst : α → Bool}
  {load : Int64 → α → Int64} {v : View}

theorem knows_singleton {view? : String → Option View} {r : Register}
    (hr : view? name = some (.whole r)) (s : State) :
    Knows view? [(name, Int64.ofBitVec (s.registers r))] s := by
  intro name' c hc
  rw [Constants.get?_cons] at hc
  split at hc
  · next heq =>
    cases hc
    exact ⟨r, heq ▸ hr, rfl⟩
  · cases hc

/-- What an instruction makes of a word is what the processor makes of it. -/
theorem after_of_loads {r : Register} (hr : arch.view? name = some (.whole r)) {i : α}
    (hi : arch.dialect.Loads asm name isFirst load i) {n : Nat} {x : Reading}
    (hop : arch.operation? (asm i n) = some (.set (.whole r) x)) (e : Setting) (s : State) :
    (Operation.set (.whole r) x).after e s =
      s.set r (load (Int64.ofBitVec (s.registers r)) i).toBitVec := by
  have hconstant := hi.constant n [(name, Int64.ofBitVec (s.registers r))] _
    (.inr (by rw [Constants.get?_cons, if_pos rfl]))
  have hword := arch.shows.constant (e := e) hop (knows_singleton hr s) hconstant
    (by rw [hi.written n]; exact mem_singleton_self name) hr
  rw [Operation.after_set, State.registers_set_self] at hword
  rw [Operation.after_set, hword]

theorem run_of_loads (hv : arch.view? name = some v) (hwide : v.IsWide) {is : List α}
    (h : ∀ i ∈ is, arch.dialect.Loads asm name isFirst load i ∧
      ∀ n, ∃ x, arch.operation? (asm i n) = some (.set v x)) (n : Nat) :
    ∃ ops, (Asm.listed asm n is).mapM arch.operation? = some ops ∧
      ∀ es : List Setting, es.length = ops.length → ∀ s, run (ops.zip es) s =
        some ⟨v.register.elim s fun r =>
          s.set r (is.foldl load (Int64.ofBitVec (s.registers r))).toBitVec, .next⟩ := by
  induction is generalizing n with
  | nil =>
    refine ⟨[], rfl, fun es _ s => ?_⟩
    rcases hwide.eq_zero_or with rfl | ⟨r, rfl⟩ <;> simp
  | cons i is ih =>
    obtain ⟨⟨hi, hop⟩, his⟩ := forall_mem_cons.1 h
    obtain ⟨x, hx⟩ := hop n
    obtain ⟨ops, hops, hrun⟩ := ih his (n + 1)
    refine ⟨.set v x :: ops, by rw [Asm.listed_cons, mapM_cons, hx, hops]; rfl, fun es hes s => ?_⟩
    obtain ⟨e, es, rfl⟩ := exists_cons_of_length_eq_add_one hes
    rw [zip_cons_cons, run_of_isPlain ⟨fun _ _ => rfl, fun _ _ => rfl⟩, hrun es (Nat.succ.inj hes)]
    rcases hwide.eq_zero_or with rfl | ⟨r, rfl⟩
    · rfl
    · rw [after_of_loads hv hi hx]
      simp

end Processor

theorem Arch.puts_of_loads {α : Type} {asm : α → Nat → AsmInstr} {name : Register}
    {isFirst : α → Bool} {load : Int64 → α → Int64} {v : View} (hv : arch.view? name = some v)
    (hwide : v.IsWide) {i : α} {is : List α} (hfirst : isFirst i = true)
    (h : ∀ j ∈ i :: is, arch.dialect.Loads asm name isFirst load j ∧
      ∀ n, ∃ x, arch.operation? (asm j n) = some (.set v x)) {word : Int64}
    (hword : ∀ old, (i :: is).foldl load old = word) (n : Nat) :
    arch.Puts name v word (Asm.listed asm n (i :: is)) where
  run := by
    obtain ⟨ops, hops, hrun⟩ := run_of_loads hv hwide h n
    exact ⟨ops, hops, fun es hes s => by rw [hrun es hes s]; simp only [hword]⟩
  noted t r := by
    rw [Dialect.constants_foldl_passConstants]
    split
    · next hr => rw [hr, Dialect.get?_foldl_note hfirst (fun j hj => (h j hj).1) n t.constants 0, hword]
    · next hr => exact Dialect.get?_foldl_note_of_ne (fun j hj => (h j hj).1.written) n _ hr

namespace Riscv64

theorem literal?_toString {value : Int} (hmin : -2 ^ 63 ≤ value) (hmax : value < 2 ^ 63) :
    Processor.Riscv64.literal? (toString value) = some (Int64.ofInt value).toBitVec := by
  rw [Processor.Riscv64.literal?, immediate?_toString, Text.word?_eq_some hmin hmax, Option.map_some]

variable {dst : Register} {v : View} (hdst : Processor.Riscv64.view? dst = some v)

include hdst

theorem facts_of_view? : v.IsWide ∧ isReference dst = true ∧ Text.names dst = [dst] ∧
    isMemory dst = false := by
  have hall : ∀ p ∈ Processor.Riscv64.views, (p.2.low = 0 ∧ p.2.width = 64) ∧
      isReference p.1 = true ∧ Text.names p.1 = [p.1] ∧ isMemory p.1 = false := by decide
  obtain ⟨hwide, hrest⟩ := hall (dst, v) (mem_of_lookup hdst)
  exact ⟨⟨hwide.1, hwide.2⟩, hrest⟩

theorem operation_imm {op : ImmOp} (hop : op ∈ [ImmOp.addi, .addiw, .slli]) {value : Int}
    (hmin : -2 ^ 63 ≤ value) (hmax : value < 2 ^ 63) (n : Nat) :
    ∃ x, Processor.Riscv64.operation? ((Instr.imm op dst dst value).asm n) = some (.set v x) := by
  have hform : ∃ f, Processor.Riscv64.operations.lookup op.mnemonic =
      some (Processor.Riscv64.computeWith f) := by
    simp only [mem_cons, not_mem_nil, or_false] at hop
    rcases hop with rfl | rfl | rfl <;> exact ⟨_, rfl⟩
  obtain ⟨f, hf⟩ := hform
  rw [Processor.Riscv64.operation?_of_mnemonic rfl hf]
  exact ⟨_, by simp only [Instr.asm, Instr.operands, Processor.Riscv64.computeWith,
    literal?_toString hmin hmax, hdst]; rfl⟩

theorem Literal.operation (h : Literal dst i) (n : Nat) :
    ∃ x, Processor.Riscv64.operation? (i.asm n) = some (.set v x) := by
  have hset : ∀ {f : Word → Word} {value : Int}, -2 ^ 63 ≤ value → value < 2 ^ 63 →
      ∃ x, Processor.Riscv64.setLiteral f false [dst, toString value] = some (.set v x) := by
    intro f value hmin hmax
    exact ⟨_, by simp only [Processor.Riscv64.setLiteral, literal?_toString hmin hmax, hdst]; rfl⟩
  cases h with
  | li h | lui h => exact hset (by omega) (by omega)
  | shift => exact operation_imm hdst (by decide) (by decide) (by decide) n
  | add hop h =>
    exact operation_imm hdst (by rcases hop with rfl | rfl <;> decide) (by omega) (by omega) n

theorem Literal.legible (h : Literal dst i) : ∀ o ∈ i.operands, Listing.Legible ['#'] o := by
  have hname : Listing.Legible ['#'] dst :=
    Listing.legible_of_isReference (by decide) (facts_of_view? hdst).2.1
  cases h <;> simp only [Instr.operands, forall_mem_cons, not_mem_nil, false_implies,
    implies_true, and_true, hname, legible_toString]

end Riscv64

/-- Every word in every register, by every name that it has. There are at most eight instructions, and the
literal of each of them has the size that its encoding leaves for it. -/
theorem puts_riscv64 {dst : Register} {v : View} (hdst : Processor.Riscv64.view? dst = some v)
    (value : Int64) :
    ∃ is, Riscv64.dialect.read (Assembly.render
        ((Riscv64.materialize dst value.toInt).map Riscv64.Instr.line)) = is.map .instr ∧
      Arch.riscv64.Puts dst v value is ∧
      (Riscv64.materialize dst value.toInt).length ≤ 8 ∧
      ∀ i ∈ Riscv64.materialize dst value.toInt, Riscv64.Literal dst i := by
  obtain ⟨hwide, -, hnames, hmemory⟩ := Riscv64.facts_of_view? hdst
  have hliteral := Riscv64.literal_materialize dst value.toInt
  have hmin := value.le_toInt
  have hmax := value.toInt_lt
  refine ⟨Asm.listed Riscv64.Instr.asm 1 (Riscv64.materialize dst value.toInt), ?_, ?_, ?_, hliteral⟩
  · refine Asm.read_listed Riscv64.Instr.asm (by decide) (fun i hi => ?_) fun i hi =>
      Riscv64.item?_of_legible ((hliteral i hi).legible hdst)
    exact .instruction (Riscv64.isOpcode_of_mem (Riscv64.mnemonic_mem i)) ((hliteral i hi).legible hdst)
  · have hword : ∀ old, (Riscv64.materialize dst value.toInt).foldl Riscv64.Instr.load old = value := by
      intro old
      rw [Riscv64.foldl_load_materialize hmin hmax, Int64.ofInt_toInt]
    obtain ⟨i, is, heq, hfirst⟩ := Riscv64.exists_first dst value.toInt
    rw [heq] at hliteral hword ⊢
    exact Arch.puts_of_loads (show Arch.riscv64.view? dst = some v from hdst) hwide hfirst
      (fun j hj => ⟨(hliteral j hj).loads hnames hmemory, (hliteral j hj).operation hdst⟩) hword 1
  · exact Riscv64.length_materialize_le dst 3 (by omega)

/-- The largest word, whose lower part wraps around, in the first argument by its number. -/
theorem puts_riscv64_max :
    Processor.Riscv64.view? "x10" = some (.whole "a0") ∧
      ∃ is, Riscv64.dialect.read (Assembly.render
          ((Riscv64.materialize "x10" Int64.maxValue.toInt).map Riscv64.Instr.line)) = is.map .instr ∧
        Arch.riscv64.Puts "x10" (.whole "a0") Int64.maxValue is := by
  have hview : Processor.Riscv64.view? "x10" = some (.whole "a0") := by decide
  obtain ⟨is, hread, hputs, -⟩ := puts_riscv64 hview Int64.maxValue
  exact ⟨hview, is, hread, hputs⟩

namespace Arm64

variable {dst : Register} {v : View} (hdst : Processor.Arm64.view? dst = some v)

include hdst

theorem operation_chunk {m : String} {background : Word → Word → Word}
    (hform : Processor.Arm64.operations.lookup m = some (Processor.Arm64.chunk background id))
    (hbranch : Text.afterText? "b." m = none) {chunk shift : Nat} (h : IsChunk chunk shift) (n : Nat)
    (text : String) :
    ∃ x, Processor.Arm64.operation? ⟨m, Instr.chunkOperands dst chunk shift, n, text⟩ =
      some (.set v x) := by
  obtain ⟨hchunk, hshift⟩ := h.lt
  obtain ⟨rest, hops, hrest, hlength⟩ := chunkOperands_eq dst chunk hshift
  have hbound : ∀ {a b : Nat}, a < b → b < 2 ^ 63 → (Int64.ofNat a).toBitVec < BitVec.ofNat 64 b := by
    intro a b hab hb
    rw [Int64.toBitVec_ofNat', BitVec.lt_def, BitVec.toNat_ofNat, BitVec.toNat_ofNat]
    omega
  rw [Processor.Arm64.operation?_of_mnemonic rfl hbranch hform, hops]
  simp only [Processor.Arm64.chunk, hdst, immediate?_chunk hchunk, hrest, Option.bind_eq_bind,
    Option.bind_some, if_pos (show _ ∧ _ ∧ _ from
      ⟨hbound hchunk (by decide), hbound hshift (by decide), hlength⟩)]
  exact ⟨_, rfl⟩

theorem Literal.operation (h : Literal dst i) (n : Nat) :
    ∃ x, Processor.Arm64.operation? (i.asm n) = some (.set v x) := by
  cases h with
  | @mov value h =>
    have hvalue : immediate? (Arg.imm value).render = some (Int64.ofInt value) := by
      rw [Arg.render, immediate?_number, Text.int64?_toString,
        Text.word?_eq_some (by omega) (by omega)]
    rw [Processor.Arm64.operation?_of_mnemonic (m := "mov") rfl (by decide) rfl]
    exact ⟨_, by simp only [Instr.asm, Instr.operands, Processor.Arm64.move, Processor.Arm64.reading?,
      hdst, hvalue]; rfl⟩
  | movz h => exact operation_chunk (m := "movz") hdst rfl (by decide) h n _
  | movk h => exact operation_chunk (m := "movk") hdst rfl (by decide) h n _

theorem Literal.legible (h : Literal dst i) : ∀ o ∈ i.operands, Listing.Legible ['/', '/'] o := by
  have hall : ∀ p ∈ Processor.Arm64.views, isReference p.1 = true := by decide
  have hname : Listing.Legible ['/', '/'] dst :=
    Listing.legible_of_isReference (by decide) (hall (dst, v) (mem_of_lookup hdst))
  cases h with
  | @mov value =>
    exact forall_mem_cons.2
      ⟨hname, forall_mem_singleton.2 (Arg.Proper.legible (a := .imm value) trivial)⟩
  | movz | movk => exact legible_chunkOperands hname _ _

end Arm64

/-- Every word in every register, by every name that it has as a whole. The first instruction, and no
other, does not look at the register. -/
theorem puts_arm64 {dst : Register} {v : View} (hdst : Processor.Arm64.view? dst = some v)
    (hwide : v.IsWide) (value : Int64) :
    ∃ is, Arm64.dialect.read (Assembly.render
        ((Arm64.materialize dst value.toInt).map Arm64.Instr.line)) = is.map .instr ∧
      Arch.arm64.Puts dst v value is ∧
      (∃ i rest, Arm64.materialize dst value.toInt = i :: rest ∧ i.isFirst = true ∧
        ∀ j ∈ rest, j.isFirst = false) ∧
      ∀ i ∈ Arm64.materialize dst value.toInt, Arm64.Literal dst i := by
  obtain ⟨hregisters, hmemory, -⟩ := Processor.Arm64.facts_of_view? hdst
  have hliteral := Arm64.literal_materialize dst value.toInt
  have hmin := value.le_toInt
  have hmax := value.toInt_lt
  refine ⟨Asm.listed Arm64.Instr.asm 1 (Arm64.materialize dst value.toInt), ?_, ?_,
    Arm64.exists_first hmin hmax dst, hliteral⟩
  · refine Asm.read_listed Arm64.Instr.asm (by decide) (fun i hi => ?_) fun i hi =>
      Arm64.item?_of_legible ((hliteral i hi).legible hdst)
    exact .instruction (Arm64.isOpcode_of_mem (Arm64.mnemonic_mem i)) ((hliteral i hi).legible hdst)
  · have hword : ∀ old, (Arm64.materialize dst value.toInt).foldl Arm64.Instr.load old = value := by
      intro old
      rw [Arm64.foldl_load_materialize hmin hmax, Int64.ofInt_toInt]
    obtain ⟨i, is, heq, hfirst, -⟩ := Arm64.exists_first hmin hmax dst
    rw [heq] at hliteral hword ⊢
    exact Arch.puts_of_loads (show Arch.arm64.view? dst = some v from hdst) hwide hfirst
      (fun j hj => ⟨(hliteral j hj).loads hregisters hmemory, (hliteral j hj).operation hdst⟩) hword 1

/-- A word whose lowest chunk is missing, in a register by its second name. -/
theorem puts_arm64_scratch :
    Processor.Arm64.view? "ip0" = some (.whole "x16") ∧
      ∃ is, Arm64.dialect.read (Assembly.render
          ((Arm64.materialize "ip0" (Int64.ofInt (-0x123456780000)).toInt).map Arm64.Instr.line)) =
            is.map .instr ∧
        Arch.arm64.Puts "ip0" (.whole "x16") (Int64.ofInt (-0x123456780000)) is := by
  have hview : Processor.Arm64.view? "ip0" = some (.whole "x16") := by decide
  obtain ⟨is, hread, hputs, -⟩ := puts_arm64 hview ⟨rfl, rfl⟩ (Int64.ofInt (-0x123456780000))
  exact ⟨hview, is, hread, hputs⟩

end SsaBackend
