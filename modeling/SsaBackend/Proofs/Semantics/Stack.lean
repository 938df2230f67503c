import SsaBackend.Proofs.Semantics.Assembly
import Mathlib.Algebra.Order.Ring.Int

/-!
# Stretches of code that keep a frame

What a stretch of code does is said by a condition on the state that it leads to (`Leads`). For code
that sets up or takes down a frame, such conditions speak of words at fixed distances below a stack
pointer (`below`), of the words that code wrote (`Wrote`), and of the registers that it may have
changed. Addresses wrap around, so words at different distances are different as long as the distances
are smaller than the address space. Shifts of words multiply by powers of two (`mul_eq_shiftLeft`).
-/

namespace SsaBackend.Asm

open List

/-! ### Shifts of words -/

theorem toBitVec_shiftLeft_ofNat (x : Int64) {k : Nat} (hk : k < 64) :
    (x <<< Int64.ofNat k).toBitVec = x.toBitVec <<< k := by
  have hamount : ∀ k < 64, ((Int64.ofNat k).toBitVec.smod 64).toNat = k := by decide
  rw [Int64.toBitVec_shiftLeft, BitVec.shiftLeft_eq', hamount k hk]

theorem lt_of_toInt_eq_pow {w : Int64} {k : Nat} (h : w.toInt = 2 ^ k) : k < 63 := by
  have hlt := w.toInt_lt
  rw [h] at hlt
  exact (Nat.pow_lt_pow_iff_right (a := 2) (by decide)).1 (by exact_mod_cast hlt)

theorem mul_eq_shiftLeft {w : Int64} {k : Nat} (h : w.toInt = 2 ^ k) (x : Int64) :
    x * w = x <<< Int64.ofNat k := by
  have hk := lt_of_toInt_eq_pow h
  have hw : w.toBitVec = BitVec.twoPow 64 k := by
    rw [← BitVec.toInt_inj, BitVec.toInt_twoPow, if_neg (by omega), if_neg (by omega)]
    exact h
  apply Int64.toBitVec_inj.1
  rw [Int64.toBitVec_mul, hw, toBitVec_shiftLeft_ofNat x (by omega), BitVec.shiftLeft_eq_mul_twoPow]

variable {r : Register} {s' : State} {top : Int64}

/-! ### Stretches -/

variable {exec : Exec}

/-- The code runs through, to a state with a given property. -/
def Leads (exec : Exec) (code : List Cell) (s : State) (Q : State → Prop) : Prop :=
  ∃ s', straight exec code s = some (.next s') ∧ Q s'

namespace Leads

variable {code code' : List Cell} {s : State} {Q Q' : State → Prop}
variable {ops : List String}

theorem nil (h : Q s) : Leads exec [] s Q := ⟨s, rfl, h⟩

theorem instr {m : String} (h : exec m ops s = some (.next s')) (hq : Q s') :
    Leads exec [.instr m ops] s Q :=
  ⟨s', by simp [straight, h, Effect.andThen], hq⟩

theorem append (h : Leads exec code s Q) (h' : ∀ s', Q s' → Leads exec code' s' Q') :
    Leads exec (code ++ code') s Q' := by
  obtain ⟨s', hs, hq⟩ := h
  obtain ⟨s'', hs', hq'⟩ := h' s' hq
  exact ⟨s'', by rw [straight_append, hs]; exact hs', hq'⟩

theorem cons {c : Cell} (h : Leads exec [c] s Q) (h' : ∀ s', Q s' → Leads exec code s' Q') :
    Leads exec (c :: code) s Q' :=
  h.append h'

theorem next {m : String} (h : exec m ops s = some (.next s')) (h' : Leads exec code s' Q) :
    Leads exec (.instr m ops :: code) s Q :=
  (instr (Q := fun s'' => s'' = s') h rfl).cons fun _ heq => heq ▸ h'

theorem mono (h : Leads exec code s Q) (hq : ∀ s', Q s' → Q' s') : Leads exec code s Q' :=
  h.imp fun s' hs => ⟨hs.1, hq s' hs.2⟩

/-- Instructions that each leave in a register what they make of the word there. -/
theorem gather {α : Type} {mnemonic : α → String} {operands : α → List String}
    {load : Int64 → α → Int64} {dst : Register} (hdst : isPlain dst = true) {is : List α}
    (h : ∀ i ∈ is, ∀ s, exec (mnemonic i) (operands i) s =
      some (.next (s.set dst (load (s.get dst) i)))) (s : State) :
    Leads exec (is.map fun i => .instr (mnemonic i) (operands i)) s
      (· = s.set dst (is.foldl load (s.get dst))) := by
  induction is generalizing s with
  | nil => exact .nil (State.set_get hdst).symm
  | cons i is ih =>
    obtain ⟨hi, his⟩ := forall_mem_cons.1 h
    refine .next (hi s) ((ih his _).mono ?_)
    rintro _ rfl
    rw [State.set_set hdst, State.get_set_self hdst]
    rfl

theorem ret (h : Leads exec code s Q) {m : String} {address : Int64}
    (h' : ∀ s', Q s' → ∃ s'', exec m ops s' = some (.ret address s'') ∧ Q' s'') :
    ∃ s', straight exec (code ++ [.instr m ops]) s = some (.ret address s') ∧ Q' s' := by
  obtain ⟨s', hs, hq⟩ := h
  obtain ⟨s'', hexec, hq'⟩ := h' s' hq
  refine ⟨s'', ?_, hq'⟩
  rw [straight_append, hs]
  simp [straight, Effect.andThen, hexec]

end Leads

/-! ### Addresses -/

/-- The address that lies `n` bytes below another. -/
def below (address : Int64) (n : Nat) : Int64 := address - Int64.ofNat n

section Below

variable (address : Int64) {m n : Nat}

@[simp] theorem below_zero : below address 0 = address := Int64.sub_zero _

theorem below_below (m n : Nat) : below (below address m) n = below address (m + n) := by
  rw [below, below, below, Int64.ofNat_add, Int64.sub_sub]

theorem below_sub (m n : Nat) : below address m - Int64.ofNat n = below address (m + n) :=
  below_below address m n

theorem below_add (h : n ≤ m) : below address m + Int64.ofNat n = below address (m - n) := by
  obtain ⟨k, rfl⟩ := Nat.exists_eq_add_of_le' h
  rw [Nat.add_sub_cancel, ← below_below, below, Int64.sub_add_cancel]

theorem below_inj (hm : m < 2 ^ 64) (hn : n < 2 ^ 64) (h : below address m = below address n) :
    m = n := by
  have hnat : Int64.ofNat m = Int64.ofNat n := by
    rw [below, below, Int64.sub_eq_add_neg, Int64.sub_eq_add_neg] at h
    exact Int64.neg_inj.1 (Int64.add_right_inj _ |>.1 h)
  have hbits : m % 2 ^ 64 = n % 2 ^ 64 := congrArg (fun x : Int64 => x.toBitVec.toNat) hnat
  rwa [Nat.mod_eq_of_lt hm, Nat.mod_eq_of_lt hn] at hbits

theorem aligned_below {address : Int64} (haligned : address.toInt % 8 = 0) (hn : n % 8 = 0) :
    (below address n).toInt % 8 = 0 := by
  have hnat : (Int64.ofNat n).toInt % 8 = 0 := by
    rw [Int64.toInt_ofNat', Int.bmod_def, show Int64.size = 2 ^ 64 from rfl]
    omega
  rw [below, Int64.toInt_sub, Int.bmod_def]
  omega

end Below

section Access

variable {top : Int64} (haligned : top.toInt % 8 = 0) {n : Nat} (hn : n % 8 = 0) (s : State)
include haligned hn

theorem store_below (word : Int64) :
    s.store (below top n) word = some (s.poke (below top n) word) :=
  if_pos (aligned_below haligned hn)

theorem load_below : s.load (below top n) = s.memory (below top n) :=
  if_pos (aligned_below haligned hn)

end Access

section Offset

variable {top : Int64} (haligned : top.toInt % 8 = 0) {n offset : Nat} (hle : offset ≤ n)
  (hword : (n - offset) % 8 = 0) {s : State} {sp : Register} (hsp : s.get sp = below top n)
include haligned hle hword hsp

theorem store_offset (word : Int64) : s.store (s.get sp + Int64.ofNat offset) word =
    some (s.poke (below top (n - offset)) word) := by
  rw [hsp, below_add top hle]
  exact store_below haligned hword s word

theorem load_offset :
    s.load (s.get sp + Int64.ofNat offset) = s.memory (below top (n - offset)) := by
  rw [hsp, below_add top hle]
  exact load_below haligned hword s

end Offset

/-! ### Words -/

def writeBelow (top : Int64) (words : List (Nat × Int64)) (memory : Int64 → Option Int64) :
    Int64 → Option Int64 :=
  words.foldl (fun m w a => if a = below top w.1 then some w.2 else m a) memory

section Words

variable {top : Int64} {words : List (Nat × Int64)} {memory : Int64 → Option Int64}

theorem writeBelow_append (words words' : List (Nat × Int64)) (memory : Int64 → Option Int64) :
    writeBelow top (words ++ words') memory = writeBelow top words' (writeBelow top words memory) :=
  foldl_append

theorem writeBelow_of_ne {a : Int64} (h : ∀ w ∈ words, a ≠ below top w.1) :
    writeBelow top words memory a = memory a := by
  induction words generalizing memory with
  | nil => rfl
  | cons w words ih =>
    obtain ⟨hw, hwords⟩ := forall_mem_cons.1 h
    rw [writeBelow, foldl_cons]
    exact (ih hwords).trans (if_neg hw)

theorem writeBelow_of_mem (hnodup : (words.map Prod.fst).Nodup) (hlt : ∀ w ∈ words, w.1 < 2 ^ 64)
    {w : Nat × Int64} (h : w ∈ words) : writeBelow top words memory (below top w.1) = some w.2 := by
  induction words generalizing memory with
  | nil => cases h
  | cons w' words ih =>
    obtain ⟨hw', hwords⟩ := nodup_cons.1 hnodup
    obtain ⟨hltw, hltrest⟩ := forall_mem_cons.1 hlt
    rw [writeBelow, foldl_cons]
    rcases mem_cons.1 h with rfl | h
    · refine (writeBelow_of_ne fun w'' hmem heq => hw' ?_).trans (if_pos rfl)
      rw [below_inj top hltw (hltrest w'' hmem) heq]
      exact mem_map_of_mem hmem
    · exact ih hwords hltrest h

theorem writeBelow_perm {words' : List (Nat × Int64)} (hperm : words.Perm words')
    (hnodup : (words.map Prod.fst).Nodup) (hlt : ∀ w ∈ words, w.1 < 2 ^ 64) :
    writeBelow top words memory = writeBelow top words' memory := by
  funext a
  by_cases h : ∃ w ∈ words, a = below top w.1
  · obtain ⟨w, hw, rfl⟩ := h
    rw [writeBelow_of_mem hnodup hlt hw, writeBelow_of_mem ((hperm.map _).nodup_iff.1 hnodup)
      (fun w' hw' => hlt w' (hperm.mem_iff.2 hw')) (hperm.mem_iff.1 hw)]
  · have hne : ∀ w ∈ words, a ≠ below top w.1 := fun w hw heq => h ⟨w, hw, heq⟩
    rw [writeBelow_of_ne hne, writeBelow_of_ne fun w hw => hne w (hperm.mem_iff.2 hw)]

end Words

structure Wrote (top : Int64) (changed : List Register) (words : List (Nat × Int64))
    (s s' : State) : Prop where
  get : ∀ r, isPlain r = true → r ∉ changed → s'.get r = s.get r
  memory : s'.memory = writeBelow top words s.memory
  trace : s'.trace = s.trace

namespace Wrote

variable {top : Int64} {changed changed' : List Register} {words words' : List (Nat × Int64)}
  {s s' s'' : State}

theorem refl (top : Int64) (changed : List Register) (s : State) : Wrote top changed [] s s :=
  ⟨fun _ _ _ => rfl, rfl, rfl⟩

theorem set (top : Int64) (hr : isPlain r = true) (hmem : r ∈ changed) (word : Int64) (s : State) :
    Wrote top changed [] s (s.set r word) where
  get _ hr' hmem' := State.get_set_of_ne hr hr' fun heq => hmem' (heq ▸ hmem)
  memory := State.memory_set
  trace := State.trace_set

theorem poke (top : Int64) (changed : List Register) (n : Nat) (word : Int64) (s : State) :
    Wrote top changed [(n, word)] s (s.poke (below top n) word) :=
  ⟨fun _ _ _ => rfl, rfl, rfl⟩

variable (h : Wrote top changed words s s')

include h

theorem trans (h' : Wrote top changed words' s' s'') :
    Wrote top changed (words ++ words') s s'' where
  get r hr hmem := (h'.get r hr hmem).trans (h.get r hr hmem)
  memory := by rw [h'.memory, h.memory, writeBelow_append]
  trace := h'.trace.trans h.trace

theorem mono (hsub : ∀ r ∈ changed, r ∈ changed') : Wrote top changed' words s s' where
  get r hr hmem := h.get r hr fun hc => hmem (hsub r hc)
  memory := h.memory
  trace := h.trace

theorem perm (hperm : words.Perm words') (hnodup : (words.map Prod.fst).Nodup)
    (hlt : ∀ w ∈ words, w.1 < 2 ^ 64) : Wrote top changed words' s s' :=
  ⟨h.get, h.memory.trans (writeBelow_perm hperm hnodup hlt), h.trace⟩

theorem cons {n : Nat} {word : Int64} (hword : s.memory (below top n) = some word) :
    Wrote top changed ((n, word) :: words) s s' where
  get := h.get
  memory := by
    have hsame : (fun a => if a = below top n then some word else s.memory a) = s.memory := by
      funext a
      split <;> simp_all
    rw [h.memory, writeBelow, writeBelow, foldl_cons, hsame]
  trace := h.trace

end Wrote

structure Restored (old : Register → Int64) (rs changed : List Register) (s s' : State) : Prop where
  restored : ∀ r ∈ rs, s'.get r = old r
  get : ∀ r, isPlain r = true → r ∉ rs → r ∉ changed → s'.get r = s.get r
  memory : s'.memory = s.memory
  trace : s'.trace = s.trace

namespace Restored

variable {old : Register → Int64} {rs rs' changed : List Register} {s s' s'' : State}

theorem refl (old : Register → Int64) (changed : List Register) (s : State) :
    Restored old [] changed s s :=
  ⟨by simp, fun _ _ _ _ => rfl, rfl, rfl⟩

theorem set_changed (old : Register → Int64) (hr : isPlain r = true) (hmem : r ∈ changed)
    (word : Int64) (s : State) :
    Restored old [] changed s (s.set r word) where
  restored := by simp
  get _ hr' _ hmem' := State.get_set_of_ne hr hr' fun heq => hmem' (heq ▸ hmem)
  memory := State.memory_set
  trace := State.trace_set

theorem set (changed : List Register) (hr : isPlain r = true) {word : Int64} (hword : word = old r)
    (s : State) : Restored old [r] changed s (s.set r word) where
  restored := forall_mem_singleton.2 ((State.get_set_self hr).trans hword)
  get _ hr' hmem _ := State.get_set_of_ne hr hr' (by simpa using hmem)
  memory := State.memory_set
  trace := State.trace_set

variable (h : Restored old rs changed s s')

include h

theorem trans (h' : Restored old rs' changed s' s'')
    (hrs : ∀ r ∈ rs, isPlain r = true ∧ r ∉ changed) :
    Restored old (rs ++ rs') changed s s'' where
  restored r hr := by
    by_cases hr' : r ∈ rs'
    · exact h'.restored r hr'
    · have hfirst := (mem_append.1 hr).resolve_right hr'
      rw [h'.get r (hrs r hfirst).1 hr' (hrs r hfirst).2, h.restored r hfirst]
  get r hr hmem hc := by
    rw [mem_append, not_or] at hmem
    rw [h'.get r hr hmem.2 hc, h.get r hr hmem.1 hc]
  memory := h'.memory.trans h.memory
  trace := h'.trace.trans h.trace

theorem weaken {changed' : List Register} (hrs : ∀ r ∈ rs', r ∈ rs)
    (hchanged : ∀ r, r ∈ rs ∨ r ∈ changed → r ∈ rs' ∨ r ∈ changed') :
    Restored old rs' changed' s s' where
  restored r hr := h.restored r (hrs r hr)
  get r hr hmem hc := h.get r hr (fun hr' => (hchanged r (.inl hr')).elim hmem hc)
    fun hc' => (hchanged r (.inr hc')).elim hmem hc
  memory := h.memory
  trace := h.trace

theorem mono {changed' : List Register} (hsub : ∀ r ∈ changed, r ∈ changed') :
    Restored old rs changed' s s' :=
  h.weaken (fun _ hr => hr) fun r => Or.imp_right (hsub r)

theorem set_after (hrs : ∀ r ∈ rs, isPlain r = true ∧ r ∉ changed) (hr : isPlain r = true)
    (hmem : r ∈ changed) (word : Int64) : Restored old rs changed s (s'.set r word) := by
  have hboth := h.trans (.set_changed old hr hmem word s') hrs
  rwa [append_nil] at hboth

end Restored

theorem Wrote.restored {changed : List Register} {s : State} (h : Wrote top changed [] s s')
    (old : Register → Int64) : Restored old [] changed s s' :=
  ⟨by simp, fun r hr _ => h.get r hr, h.memory, h.trace⟩

/-! ### Code for one register after the other -/

/-- The words of registers, which have places in a frame from the `k`-th one on. -/
def regWords (depth : Nat → Nat) (k : Nat) (rs : List Register) (s : State) : List (Nat × Int64) :=
  (rs.zipIdx k).map fun p => (depth p.2, s.get p.1)

section Loops

variable {emit : Register × Nat → List Cell} {rs changed : List Register} {k : Nat} {s : State}

theorem regWords_eq_of_wrote {words : List (Nat × Int64)} (h : Wrote top changed words s s')
    (hrs : ∀ r ∈ rs, isPlain r = true ∧ r ∉ changed) (depth : Nat → Nat) (k : Nat) :
    regWords depth k rs s' = regWords depth k rs s :=
  map_congr_left fun p hp => by
    obtain ⟨hplain, hkept⟩ := hrs p.1 (fst_mem_of_mem_zipIdx hp)
    rw [h.get p.1 hplain hkept]

theorem Leads.stores (Inv : Nat → State → Prop) (depth : Nat → Nat)
    (hrs : ∀ r ∈ rs, isPlain r = true ∧ r ∉ changed)
    (hstep : ∀ p ∈ rs.zipIdx k, ∀ s, Inv p.2 s → Leads exec (emit p) s fun s' =>
      Inv (p.2 + 1) s' ∧ Wrote top changed [(depth p.2, s.get p.1)] s s') (h : Inv k s) :
    Leads exec ((rs.zipIdx k).flatMap emit) s fun s' => Inv (k + rs.length) s' ∧
      Wrote top changed (regWords depth k rs s) s s' := by
  induction rs generalizing k s with
  | nil => exact .nil ⟨h, .refl top _ s⟩
  | cons r rs ih =>
    obtain ⟨-, hrest⟩ := forall_mem_cons.1 hrs
    rw [zipIdx_cons] at hstep ⊢
    obtain ⟨hhead, htail⟩ := forall_mem_cons.1 hstep
    rw [flatMap_cons]
    refine (hhead s h).append fun s₁ ⟨hinv, hwrote⟩ => (ih hrest htail hinv).mono fun s₂ h₂ => ?_
    refine ⟨?_, ?_⟩
    · rw [length_cons, Nat.add_comm rs.length, ← Nat.add_assoc]
      exact h₂.1
    · -- the registers that were still to be stored are as they were
      have hboth := hwrote.trans h₂.2
      rwa [regWords_eq_of_wrote hwrote hrest] at hboth

theorem Leads.loads {old : Register → Int64} (Inv : State → Prop)
    (hrs : ∀ r ∈ rs, isPlain r = true ∧ r ∉ changed)
    (hstep : ∀ p ∈ rs.zipIdx k, ∀ s, Inv s → Leads exec (emit p) s fun s' =>
      Inv s' ∧ Restored old [p.1] changed s s')
    (h : Inv s) :
    Leads exec ((rs.zipIdx k).flatMap emit) s fun s' => Inv s' ∧ Restored old rs changed s s' := by
  induction rs generalizing k s with
  | nil => exact .nil ⟨h, .refl old _ s⟩
  | cons r rs ih =>
    obtain ⟨hr, hrest⟩ := forall_mem_cons.1 hrs
    rw [zipIdx_cons] at hstep ⊢
    obtain ⟨hhead, htail⟩ := forall_mem_cons.1 hstep
    rw [flatMap_cons]
    refine (hhead s h).append fun s₁ ⟨hinv, hfirst⟩ => (ih hrest htail hinv).mono fun s₂ h₂ => ?_
    exact ⟨h₂.1, hfirst.trans h₂.2 (forall_mem_singleton.2 hr)⟩

end Loops

end SsaBackend.Asm
