import SsaBackend.Proofs.Processor.Stack.Effects

/-!
# The stack pointer of arm64

What the dialect says about sums and differences is what they do, and so is what it says about accesses
that update the stack pointer: of the two ways to write an update it sees one in stores
(`updates_of_preIndex?`) and the other in loads (`updates_of_postIndex`).
-/

namespace SsaBackend.Processor.Arm64

open List Option SsaBackend.Arm64

variable {k k' : Constants} {i : AsmInstr} {op : Operation} {e : Setting} {s : State}
variable {r : Register}

theorem otherEffects_eq_nil (h : .unknown ∉ otherEffects i) : otherEffects i = [] := by
  unfold otherEffects at h ⊢
  split
  · next hcond => simp [hcond] at h
  · rfl

/-! ### More constants -/

variable {n : Int}

theorem amount?_of_within (h : k.Within k') {operand : String}
    (hn : amount? k operand = some n) : amount? k' operand = some n := by
  unfold amount? at hn ⊢
  cases himm : immediate? operand with
  | some c =>
    rw [himm] at hn
    exact hn
  | none =>
    rw [himm, none_or] at hn
    obtain ⟨c, hc, rfl⟩ := map_eq_some_iff.1 hn
    rw [none_or, h operand c hc, map_some]

theorem effects_of_within (h : k.Within k') (hunknown : .unknown ∉ stackEffects k i) :
    stackEffects k' i = stackEffects k i := by
  unfold stackEffects at hunknown ⊢
  split at hunknown <;>
    first | rfl | exact StackEffect.elim_of_le (fun _ => amount?_of_within h) hunknown

theorem constant_of_within (h : k.Within k') {c : Int64} (hc : constant? k i = some c) :
    constant? k' i = some c := by
  unfold constant? at hc ⊢
  split at hc
  · exact hc
  · exact hc
  · obtain ⟨old, hold, hc⟩ := bind_eq_some_iff.1 hc
    rw [h _ old hold]
    exact hc
  · cases hc

theorem effects_of_isReturn (h : i.mnemonic = "ret") : stackEffects k i = [] := by
  have hdest : destinations i = [] := by simp [destinations, withoutDestination, h]
  simp [stackEffects, otherEffects, h, hdest]

/-! ### Updates of the stack pointer -/

variable {cs : List Char}

theorem skip?_eq_some {lead : String} {rest : List Char} (h : skip? lead cs = some rest) :
    cs = lead.toList ++ rest := by
  unfold skip? at h
  split at h
  · next hpre =>
    obtain ⟨tail, rfl⟩ := isPrefixOf_iff_prefix.1 hpre
    cases h
    rw [← String.length_toList, drop_left]
  · cases h

theorem run?_eq_some {p : Char → Bool} {run rest : List Char} (h : run? p cs = some (run, rest)) :
    cs = run ++ rest := by
  unfold run? at h
  split at h
  · cases h
  · cases h
    exact takeWhile_append_dropWhile.symm

theorem offset?_eq_some {offset rest : List Char} (h : offset? cs = some (offset, rest)) :
    cs = offset ++ rest := by
  unfold offset? at h
  split at h
  · obtain ⟨_, hrun, ⟨⟩⟩ := map_eq_some_iff.1 h
    rw [run?_eq_some hrun]
    rfl
  · exact run?_eq_some h

theorem closing?_eq_some (h : closing? cs = some true) : cs = [']', '!'] := by
  unfold closing? at h
  split at h
  · cases h
  · rfl
  · cases h

theorem offset_of_indexed? {base : List Char} {m : MemoryOperand}
    (h : indexed? base cs = some m) : m.offset = none := by
  obtain ⟨_, -, h⟩ := bind_eq_some_iff.1 h
  dsimp only at h
  split at h
  · obtain ⟨_, -, h⟩ := bind_eq_some_iff.1 h
    obtain ⟨_, -, ⟨⟩⟩ := bind_eq_some_iff.1 h
    rfl
  · obtain ⟨_, -, ⟨⟩⟩ := bind_eq_some_iff.1 h
    rfl

variable {text : String}

theorem preIndex?_eq_some (h : preIndex? text = some n) :
    ∃ offset c, text.toList = '[' :: 's' :: 'p' :: ',' :: ' ' :: '#' :: (offset ++ [']', '!']) ∧
      Text.int64? (String.ofList offset) = some c ∧ c.toInt = n := by
  obtain ⟨m, hm, h⟩ := bind_eq_some_iff.1 h
  split at h
  · next hcond =>
    obtain ⟨hbase, hwriteback⟩ : m.base = "sp" ∧ m.writeback = true := by simpa using hcond
    simp only [bind_eq_bind, bind_eq_some_iff] at h
    obtain ⟨offset, hoffset, c, hc, ⟨⟩⟩ := h
    obtain ⟨inner, hskip, hm⟩ := bind_eq_some_iff.1 hm
    obtain ⟨⟨base, behind⟩, hrun, hm⟩ := bind_eq_some_iff.1 hm
    dsimp only at hm
    split at hm
    · next rest hcomma =>
      obtain ⟨⟨digits, tail⟩, hdigits, hm⟩ := bind_eq_some_iff.1 hm
      obtain ⟨writeback, hclosing, ⟨⟩⟩ := bind_eq_some_iff.1 hm
      cases hoffset
      cases hwriteback
      refine ⟨digits, c, ?_, hc, rfl⟩
      obtain rfl : base = ['s', 'p'] := by simpa using congrArg String.toList hbase
      obtain rfl : tail = [']', '!'] := closing?_eq_some hclosing
      rw [skip?_eq_some hskip, run?_eq_some hrun, skip?_eq_some hcomma, offset?_eq_some hdigits]
      rfl
    · rw [offset_of_indexed? hm] at hoffset
      cases hoffset
    · obtain ⟨_, -, ⟨⟩⟩ := bind_eq_some_iff.1 hm
      cases hoffset
  · cases h

theorem view?_stackPointer : view? "sp" = some (.whole "sp") := by decide

theorem bracket?_of_toList {inner : List Char} {a : Address}
    (htext : text.toList = '[' :: (inner ++ [']', '!'])) (ha : address? inner = some a) :
    bracket? text = some (a, true) := by
  simp [bracket?, Text.after?, htext, ha]

theorem bracket?_of_preIndex? (h : preIndex? text = some n) :
    bracket? text = some (.sum (some (.whole "sp")) none (BitVec.ofInt 64 n), true) := by
  obtain ⟨offset, c, htext, hc, rfl⟩ := preIndex?_eq_some h
  have hcut : Text.cutAtMark? [',', ' '] ('s' :: 'p' :: ',' :: ' ' :: '#' :: offset) =
      some (['s', 'p'], '#' :: offset) := rfl
  have himm : immediate? (String.ofList ('#' :: offset)) = some c := by
    simp [immediate?, Text.after?, hc]
  have haddress : address? ('s' :: 'p' :: ',' :: ' ' :: '#' :: offset) =
      some (.sum (some (.whole "sp")) none c.toBitVec) := by
    rw [address?, hcut]
    dsimp only
    rw [show String.ofList ['s', 'p'] = "sp" from rfl, view?_stackPointer, himm]
    rfl
  rw [BitVec.ofInt_int64ToInt]
  exact bracket?_of_toList htext haddress

variable {operands : List String} {m : Access}

theorem updates_of_preIndex? (hlast : operands.getLast? = some text) (hn : preIndex? text = some n)
    (hm : access? operands = some m) :
    ∃ x : Reading, m.updates = [(.whole "sp", x)] ∧
      ∀ e s, x e s = s.registers "sp" + BitVec.ofInt 64 n := by
  unfold access? at hm
  split at hm
  · next operand =>
    obtain rfl : operand = text := Option.some.inj hlast
    rw [bracket?_of_preIndex? hn] at hm
    cases hm
    exact ⟨_, rfl, fun e s => by simp [Address.value]⟩
  · next operand post =>
    obtain rfl : post = text := Option.some.inj hlast
    -- a register or a literal is not in brackets
    simp only [bind_eq_bind, bind_eq_some_iff] at hm
    obtain ⟨_, -, x, hx, -⟩ := hm
    obtain ⟨offset, c, htext, -, -⟩ := preIndex?_eq_some hn
    obtain ⟨v, hv, -⟩ := view?_of_reading? (by simp [isImmediate, Text.startsWith, htext]) hx
    have hmem := (facts_of_view? hv).2.1
    simp [isMemory, Text.startsWith, htext] at hmem
  · cases hm

theorem updates_of_postIndex {post : String} {n : Int64}
    (hn : immediate? post = some n) (hm : access? ["[sp]", post] = some m) :
    ∃ x : Reading, m.updates = [(.whole "sp", x)] ∧
      ∀ e s, x e s = s.registers "sp" + n.toBitVec := by
  have hbracket : bracket? "[sp]" = some (.sum (some (.whole "sp")) none 0, false) := by
    decide
  rw [access?, hbracket, reading?_of_immediate? hn] at hm
  cases hm
  exact ⟨_, rfl, fun e s => by simp [literal]⟩

variable {rest : List String}

/-- An access behind the registers that it loads or stores, and after the writes to these. -/
structure Accesses (operands : List String) (op : Operation) (rest : List String) (m : Access)
    (before : List (View × Reading)) : Prop where
  names : ∃ names, operands = names ++ rest ∧ ∀ name ∈ names, ∃ v, view? name = some v
  access : access? rest = some m
  writes : op.writes = before ++ m.updates

theorem accesses_store (h : store operands = some op) : ∃ rest m, Accesses operands op rest m [] := by
  unfold store at h
  split at h
  · next src rest =>
    simp only [bind_eq_bind, bind_eq_some_iff] at h
    obtain ⟨v, hv, m, hm, ⟨⟩⟩ := h
    exact ⟨rest, m, ⟨[src], rfl, by simp [hv]⟩, hm, rfl⟩
  · cases h

theorem accesses_storePair (h : storePair operands = some op) :
    ∃ rest m, Accesses operands op rest m [] := by
  unfold storePair at h
  split at h
  · next first second rest =>
    simp only [bind_eq_bind, bind_eq_some_iff] at h
    obtain ⟨v, hv, w, hw, m, hm, ⟨⟩⟩ := h
    exact ⟨rest, m, ⟨[first, second], rfl, by simp [hv, hw]⟩, hm, rfl⟩
  · cases h

theorem accesses_load (h : load operands = some op) :
    ∃ rest m before, Accesses operands op rest m before := by
  unfold load at h
  split at h
  · next dst rest =>
    simp only [bind_eq_bind, bind_eq_some_iff] at h
    obtain ⟨v, hv, m, hm, ⟨⟩⟩ := h
    exact ⟨rest, m, [_], ⟨[dst], rfl, by simp [hv]⟩, hm, rfl⟩
  · cases h

theorem accesses_loadPair (h : loadPair operands = some op) :
    ∃ rest m before, Accesses operands op rest m before := by
  unfold loadPair at h
  split at h
  · next first second rest =>
    simp only [bind_eq_bind, bind_eq_some_iff] at h
    obtain ⟨v, hv, w, hw, m, hm, ⟨⟩⟩ := h
    exact ⟨rest, m, [_, _], ⟨[first, second], rfl, by simp [hv, hw]⟩, hm, rfl⟩
  · cases h

theorem follows_store (h : Accesses i.operands op rest m []) (hunknown : .unknown ∉ storeEffects i)
    (hcount : op.changed.count "sp" ≤ (storeEffects i).length) :
    Follows "sp" "x29" (storeEffects i) s (op.after e s) := by
  have hlast : i.operands.getLast? = rest.getLast? := by
    obtain ⟨names, hops, -⟩ := h.names
    have hne : rest ≠ [] := by
      rintro rfl
      cases h.access
    rw [hops, getLast?_append, getLast?_eq_some_getLast hne, some_or]
  unfold storeEffects at hunknown hcount ⊢
  split
  · next hnone =>
    rw [hnone] at hcount
    exact follows_nil hcount e s
  · next text htext =>
    rw [htext] at hunknown hcount
    dsimp only at hunknown hcount
    split
    · next hend =>
      rw [if_pos hend] at hunknown
      cases hn : preIndex? text with
      | none => simp [hn] at hunknown
      | some n =>
        obtain ⟨x, hupdates, hx⟩ := updates_of_preIndex? (hlast ▸ htext) hn h.access
        refine ⟨?_, ?_⟩
        · rw [Operation.after_of_single (h.writes.trans hupdates), hx]
          simp only [elim_some, foldl_cons, foldl_nil]
          split
          · simp [StackEffect.shift, BitVec.ofInt_neg]
          · rfl
        · rw [elim_some]
          split <;> simp [StackEffect.isSetFrame]
    · next hend =>
      rw [if_neg hend] at hcount
      exact follows_nil hcount e s

theorem follows_load {before : List (View × Reading)} (h : Accesses i.operands op rest m before)
    (hunknown : .unknown ∉ loadEffects i) (hcount : op.changed.count "sp" ≤ (loadEffects i).length) :
    Follows "sp" "x29" (loadEffects i) s (op.after e s) := by
  obtain ⟨⟨names, hops, hnames⟩, hm, hwrites⟩ := h
  generalize heffects : loadEffects i = effects at hunknown hcount ⊢
  unfold loadEffects at heffects
  split at heffects
  · next post tail hreverse =>
    have hshape : names ++ rest = tail.reverse ++ ["[sp]", post] := by
      rw [← hops, ← i.operands.reverse_reverse, hreverse]
      simp
    obtain rfl : rest = ["[sp]", post] := by
      rcases rest with _ | ⟨text, _ | ⟨_, _ | _⟩⟩
      · cases hm
      · -- brackets are no name
        rw [append_cons tail.reverse] at hshape
        have hmem : "[sp]" ∈ names := by simp [(append_inj' hshape rfl).1]
        obtain ⟨v, hv⟩ := hnames "[sp]" hmem
        exact absurd (facts_of_view? hv).2.1 (by decide)
      · exact (append_inj' hshape rfl).2
      · cases hm
    cases hn : immediate? post with
    | none => simp [hn, ← heffects] at hunknown
    | some n =>
      rw [hn] at heffects
      subst heffects
      obtain ⟨x, hupdates, hx⟩ := updates_of_postIndex hn hm
      refine ⟨?_, by simp [StackEffect.isSetFrame]⟩
      rw [Operation.after_of_append before (hwrites.trans (by rw [hupdates])) not_mem_nil, hx]
      simp [StackEffect.shift]
  · rw [← heffects] at hunknown
    rw [otherEffects_eq_nil hunknown] at heffects
    subst heffects
    exact follows_nil hcount e s

theorem read_of_amount? (hk : Knows view? k s) {operand : String} {x : Reading}
    (hn : amount? k operand = some n) (hx : reading? operand = some x) :
    x e s = BitVec.ofInt 64 n := by
  unfold amount? at hn
  unfold reading? at hx
  cases himm : immediate? operand with
  | some c =>
    rw [himm] at hn hx
    cases hn
    cases hx
    rw [BitVec.ofInt_int64ToInt]
    rfl
  | none =>
    rw [himm, none_or] at hn
    rw [himm, map_none, none_or] at hx
    obtain ⟨c, hc, rfl⟩ := map_eq_some_iff.1 hn
    obtain ⟨r, hr, hvalue⟩ := hk operand c hc
    obtain ⟨v, hv, rfl⟩ := map_eq_some_iff.1 hx
    rw [Option.some.inj (hv.symm.trans hr), View.read_whole, hvalue, BitVec.ofInt_int64ToInt]

theorem eq_set_of_compute_whole {f : Binary} {dst lhs rhs : String}
    (hr : view? dst = some (.whole r)) (h : compute f [dst, lhs, rhs] = some op) :
    ∃ v y, view? lhs = some v ∧ reading? rhs = some y ∧
      op = .set (.whole r) fun e s => f 64 (v.read e s) (y e s) := by
  simp only [compute, hr, source?, bind_eq_bind, bind_some, bind_eq_some_iff] at h
  obtain ⟨v, hv, y, hy, ⟨⟩⟩ := h
  exact ⟨v, y, hv, hy, by simp [Binary.at]⟩

theorem view?_framePointer : view? "x29" = some (.whole "x29") := by decide

theorem shift_spEffect {base : String} {v : View} (hv : view? base = some v)
    (hknown : spEffect base n ≠ .unknown) : (spEffect base n).isSetFrame = false ∧
      v.read e s + BitVec.ofInt 64 n =
        ((spEffect base n).shift (s.registers "sp", s.registers "x29")).1 := by
  unfold spEffect at hknown ⊢
  split
  · next hbase =>
    cases (hbase ▸ hv).symm.trans view?_stackPointer
    exact ⟨rfl, by simp [StackEffect.shift]⟩
  · next hbase =>
    rw [if_neg hbase] at hknown
    split
    · next hbase' =>
      cases (hbase' ▸ hv).symm.trans view?_framePointer
      exact ⟨rfl, by simp [StackEffect.shift]⟩
    · next hbase' => simp [hbase'] at hknown

theorem shift_spDownEffect {base : String} {v : View} (hv : view? base = some v)
    (hknown : spDownEffect base n ≠ .unknown) : (spDownEffect base n).isSetFrame = false ∧
      v.read e s - BitVec.ofInt 64 n =
        ((spDownEffect base n).shift (s.registers "sp", s.registers "x29")).1 := by
  unfold spDownEffect at hknown ⊢
  split
  · next hbase =>
    cases (hbase ▸ hv).symm.trans view?_stackPointer
    exact ⟨rfl, by simp [StackEffect.shift]⟩
  · next hbase =>
    rw [if_neg hbase] at hknown
    split
    · next hbase' =>
      cases (hbase' ▸ hv).symm.trans view?_framePointer
      exact ⟨rfl, by simp [StackEffect.shift, BitVec.ofInt_neg, BitVec.sub_eq_add_neg]⟩
    · next hbase' => simp [hbase'] at hknown

theorem follows_compute {f : Binary} {effect : String → Int → StackEffect} {base value : String}
    (heffect : ∀ {v n}, view? base = some v → effect base n ≠ .unknown →
      (effect base n).isSetFrame = false ∧ f 64 (v.read e s) (BitVec.ofInt 64 n) =
        ((effect base n).shift (s.registers "sp", s.registers "x29")).1)
    (hk : Knows view? k s) (hop : compute f ["sp", base, value] = some op)
    (hunknown : .unknown ∉ [(amount? k value).elim .unknown (effect base)]) :
    Follows "sp" "x29" [(amount? k value).elim .unknown (effect base)] s (op.after e s) := by
  obtain ⟨v, y, hv, hy, rfl⟩ := eq_set_of_compute_whole view?_stackPointer hop
  cases hn : amount? k value with
  | none => simp [hn] at hunknown
  | some n =>
    rw [hn, elim_some] at hunknown
    obtain ⟨hset, hshift⟩ := heffect (n := n) hv fun h => hunknown (mem_singleton.2 h.symm)
    exact follows_set_stack hset (by rw [elim_some, ← hshift, read_of_amount? hk hn hy])

theorem follows (hop : operation? i = some op) (hk : Knows view? k s)
    (hunknown : .unknown ∉ stackEffects k i)
    (hcount : op.changed.count "sp" ≤ (stackEffects k i).length) :
    Follows "sp" "x29" (stackEffects k i) s (op.after e s) := by
  revert hunknown hcount
  unfold stackEffects
  split <;> intro hunknown hcount
  · next hm =>
    rw [operation?_of_mnemonic hm rfl rfl] at hop
    obtain ⟨rest, m, h⟩ := accesses_storePair hop
    exact follows_store h hunknown hcount
  · next hm =>
    rw [operation?_of_mnemonic hm rfl rfl] at hop
    obtain ⟨rest, m, h⟩ := accesses_store hop
    exact follows_store h hunknown hcount
  · next hm =>
    rw [operation?_of_mnemonic hm rfl rfl] at hop
    obtain ⟨rest, m, before, h⟩ := accesses_loadPair hop
    exact follows_load h hunknown hcount
  · next hm =>
    rw [operation?_of_mnemonic hm rfl rfl] at hop
    obtain ⟨rest, m, before, h⟩ := accesses_load hop
    exact follows_load h hunknown hcount
  · next hm hops =>
    rw [operation?_of_mnemonic hm rfl rfl, hops, move, view?_framePointer,
      reading?_of_view? view?_stackPointer] at hop
    cases hop
    exact follows_set_frame (by decide) (by simp)
  · next hm hops =>
    rw [operation?_of_mnemonic hm rfl rfl, hops, move, view?_stackPointer,
      reading?_of_view? view?_framePointer] at hop
    cases hop
    exact follows_set_stack rfl (by simp [StackEffect.shift])
  · next offset hm hops =>
    rw [operation?_of_mnemonic hm rfl rfl, hops] at hop
    obtain ⟨v, y, hv, hy, rfl⟩ := eq_set_of_compute_whole view?_framePointer hop
    cases hv.symm.trans view?_stackPointer
    cases hn : amount? k offset with
    | none => simp [hn] at hunknown
    | some n => exact follows_set_frame (by decide) (by simp [read_of_amount? hk hn hy])
  · next base value hm hops =>
    rw [operation?_of_mnemonic hm rfl rfl, hops] at hop
    exact follows_compute shift_spEffect hk hop hunknown
  · next base value hm hops =>
    rw [operation?_of_mnemonic hm rfl rfl, hops] at hop
    exact follows_compute shift_spDownEffect hk hop hunknown
  · rw [otherEffects_eq_nil hunknown] at hcount ⊢
    exact follows_nil hcount e s

/-! ### Constants -/

theorem eq_of_mem_written {dst name : String} {v : View}
    (hm : i.mnemonic ≠ "ldp") (hops : i.operands = dst :: rest) (hv : view? dst = some v)
    (h : name ∈ dialect.written i) : name = dst := by
  obtain ⟨operand, hoperand, hname⟩ := mem_flatMap.1 h
  obtain ⟨index, hindex, hat⟩ := mem_filterMap.1 (mem_filter.1 hoperand).1
  have hfirst : index = 0 := by
    simp only [dialect, destinations, if_neg hm] at hindex
    split at hindex
    · cases hindex
    · simpa [hops] using hindex
  rw [AsmInstr.operand?, hops, hfirst] at hat
  cases hat
  rw [show dialect.registers dst = [dst] from (facts_of_view? hv).1] at hname
  exact mem_singleton.1 hname

theorem after_chunk {background : Word → Word → Word} {dst : String}
    (hr : view? dst = some (.whole r)) {bits shift : Int64} (hbits : immediate? text = some bits)
    (hshift : chunkShift? rest = some shift)
    (h : chunk background id (dst :: text :: rest) = some op) :
    (op.after e s).registers r =
      background ((0xffff : Int64) <<< shift).toBitVec (s.registers r) |||
        (bits <<< shift).toBitVec := by
  simp only [chunk, hr, hbits, hshift, bind_eq_bind, bind_some] at h
  split at h
  · next hcond =>
    have hlt : shift.toBitVec.toNat % 64 = shift.toBitVec.toNat :=
      Nat.mod_eq_of_lt (BitVec.lt_def.1 hcond.2.1)
    cases h
    rw [toBitVec_shiftLeft, toBitVec_shiftLeft, hlt]
    simp
  · cases h

theorem constant {c : Int64} {name : String} (hop : operation? i = some op) (hk : Knows view? k s)
    (hc : constant? k i = some c) (hname : name ∈ dialect.written i)
    (hr : view? name = some (.whole r)) : (op.after e s).registers r = c.toBitVec := by
  unfold constant? at hc
  split at hc
  · next dst src hm hops =>
    rw [operation?_of_mnemonic hm rfl rfl, hops] at hop
    simp only [move, reading?_of_immediate? hc, bind_eq_bind, bind_eq_some_iff, bind_some] at hop
    obtain ⟨v, hv, ⟨⟩⟩ := hop
    obtain rfl := eq_of_mem_written (by simp [hm]) hops hv hname
    cases hv.symm.trans hr
    simp [literal]
  · next dst text rest hm hops =>
    rw [operation?_of_mnemonic hm rfl rfl, hops] at hop
    simp only [bind_eq_bind, bind_eq_some_iff] at hc
    obtain ⟨bits, hbits, shift, hshift, ⟨⟩⟩ := hc
    obtain ⟨v, hv, -⟩ := bind_eq_some_iff.1 hop
    obtain rfl := eq_of_mem_written (by simp [hm]) hops hv hname
    rw [after_chunk hr hbits hshift hop]
    exact BitVec.zero_or
  · next dst text rest hm hops =>
    rw [operation?_of_mnemonic hm rfl rfl, hops] at hop
    simp only [bind_eq_bind, bind_eq_some_iff] at hc
    obtain ⟨old, hold, shift, hshift, bits, hbits, ⟨⟩⟩ := hc
    obtain ⟨v, hv, -⟩ := bind_eq_some_iff.1 hop
    obtain rfl := eq_of_mem_written (by simp [hm]) hops hv hname
    obtain ⟨r', hr', hvalue⟩ := hk name old hold
    cases hr'.symm.trans hr
    rw [after_chunk hr hbits hshift hop, hvalue, Int64.toBitVec_or, Int64.toBitVec_and,
      Int64.toBitVec_not]
  · cases hc

theorem shows : Arch.Shows .arm64 where
  effects_of_within := effects_of_within
  constant_of_within h := constant_of_within h
  effects_of_isReturn h := effects_of_isReturn (of_decide_eq_true h)
  follows := follows
  constant := constant

end SsaBackend.Processor.Arm64
