import SsaBackend.Proofs.Processor.Stack.Effects

/-!
# The stack pointer of amd64

What the dialect says about pushes and pops, about arithmetic on the stack pointer and about copies from
and to the frame pointer is what these instructions do.
-/

namespace SsaBackend.Processor.Amd64

open List Option SsaBackend.Amd64

variable {k k' : Constants} {i : AsmInstr} {op : Operation} {e : Setting} {s : State}
variable {flags : Word → Word → Flags} {place : Place} {f : Word → Word → Word}

theorem otherEffects_eq_nil (h : .unknown ∉ otherEffects i) : otherEffects i = [] := by
  unfold otherEffects at h ⊢
  split
  · next hcond => simp [hcond] at h
  · rfl

/-! ### More constants -/

variable {operand : String}

theorem amount?_of_within (h : k.Within k') {n : Int}
    (hn : amount? k operand = some n) : amount? k' operand = some n := by
  unfold amount? at hn ⊢
  cases himm : immediate? operand with
  | some c =>
    rw [himm] at hn
    exact hn
  | none =>
    rw [himm, none_or] at hn
    obtain ⟨c, hc, rfl⟩ := map_eq_some_iff.1 hn
    obtain ⟨name, hname, hc⟩ := bind_eq_some_iff.1 hc
    rw [hname, none_or, bind_some, h name c hc, map_some]

theorem effects_of_within (h : k.Within k') (hunknown : .unknown ∉ stackEffects k i) :
    stackEffects k' i = stackEffects k i := by
  unfold stackEffects at hunknown ⊢
  split at hunknown <;>
    first | rfl | exact StackEffect.elim_of_le (fun _ => amount?_of_within h) hunknown

/-! ### Moves of the stack pointer -/

theorem view?_stackPointer : view? "rsp" = some (.whole "rsp") := by decide

variable {src dst : String}

theorem read_of_amount? {x : Reading} (hk : Knows view? k s)
    (hpair : pair? 8 [src, dst] = some (x, place)) {n : Int} (hn : amount? k src = some n) :
    x e s = BitVec.ofInt 64 n := by
  obtain ⟨-, ⟨c, himm, rfl⟩ | ⟨himm, p, hp, rfl⟩⟩ := pair?_eq_some hpair
  · rw [amount?, himm] at hn
    cases hn
    exact (BitVec.ofInt_int64ToInt c).symm
  · rw [amount?, himm, none_or] at hn
    obtain ⟨c, hc, rfl⟩ := map_eq_some_iff.1 hn
    obtain ⟨name, hname, hc⟩ := bind_eq_some_iff.1 hc
    obtain ⟨r, hr, hvalue⟩ := hk name c hc
    obtain ⟨v, -, hv, rfl⟩ := place?_of_register? hname hp
    cases hv.symm.trans hr
    rw [BitVec.ofInt_int64ToInt, ← hvalue]
    exact View.read_whole r e s

variable {name : String} {r : Register}

theorem place?_eq (hname : register? operand = some name) (hr : view? name = some (.whole r))
    (h : place? 8 operand = some place) : place = .register (.whole r) := by
  obtain ⟨v, -, hv, rfl⟩ := place?_of_register? hname h
  rw [Option.some.inj (hv.symm.trans hr)]

theorem eq_copy_of_move {r' : Register} (hsrc : register? src = some r')
    (hdst : register? dst = some r) (hr' : view? r' = some (.whole r'))
    (hr : view? r = some (.whole r)) (h : move 8 [src, dst] = some op) :
    op = .copy (.whole r) (.whole r') := by
  obtain ⟨p, q, hp, hq, rfl⟩ := move_eq_some (immediate?_of_register? hsrc) h
  obtain rfl := place?_eq hsrc hr' hp
  obtain rfl := place?_eq hdst hr hq
  rfl

theorem after_compute (hdst : ∀ place, place? 8 dst = some place → place = .register (.whole r))
    (h : compute f flags [src, dst] = some op) :
    ∃ x, pair? 8 [src, dst] = some (x, .register (.whole r)) ∧
      (op.after e s).registers r = f (s.registers r) (x e s) := by
  obtain ⟨⟨x, place⟩, hpair, ⟨⟩⟩ := bind_eq_some_iff.1 h
  obtain rfl := hdst place (pair?_eq_some hpair).1
  refine ⟨x, hpair, ?_⟩
  rw [← View.read_whole r e s]
  apply Operation.after_of_single
  rfl

theorem after_compute_amount {n : Int} (hk : Knows view? k s) (hn : amount? k src = some n)
    (h : compute f flags [src, "%rsp"] = some op) :
    (op.after e s).registers "rsp" = f (s.registers "rsp") (BitVec.ofInt 64 n) := by
  obtain ⟨x, hpair, hafter⟩ := after_compute (e := e) (s := s)
    (fun place => place?_eq rfl view?_stackPointer) h
  rw [hafter, read_of_amount? hk hpair hn]

variable {operands : List String}

theorem after_push (h : push operands = some op) :
    (op.after e s).registers "rsp" = s.registers "rsp" - 8 := by
  unfold push at h
  split at h
  · obtain ⟨x, -, ⟨⟩⟩ := bind_eq_some_iff.1 h
    apply Operation.after_of_single
    rfl
  · cases h

theorem after_pop (h : pop operands = some op) (hcount : op.changed.count "rsp" ≤ 1) :
    (op.after e s).registers "rsp" = s.registers "rsp" + 8 := by
  unfold pop at h
  split at h
  · obtain ⟨place, -, h⟩ := bind_eq_some_iff.1 h
    cases place with
    | register v =>
      have hwrites : op.writes = [(stackPointer, fun _ s => s.registers "rsp" + 8), (v, top)] := by
        cases h
        rfl
      refine Operation.after_of_append [] hwrites (fun hmem => ?_) e s
      -- a second write to the stack pointer would count
      have hpos := count_pos_iff.2 hmem
      simp only [Operation.changed, hwrites, filterMap_cons, stackPointer, View.register_whole,
        count_cons_self] at hcount hpos
      omega
    | memory a =>
      cases h
      apply Operation.after_of_single
      rfl
  · cases h

theorem after_leave (h : alone leave operands = some op) :
    (op.after e s).registers "rsp" = s.registers "rbp" + 8 := by
  unfold alone at h
  split at h
  · cases h
    apply Operation.after_of_append []
    · rfl
    · decide
  · cases h

theorem follows (hop : operation? i = some op) (hk : Knows view? k s)
    (hunknown : .unknown ∉ stackEffects k i)
    (hcount : op.changed.count "rsp" ≤ (stackEffects k i).length) :
    Follows "rsp" "rbp" (stackEffects k i) s (op.after e s) := by
  have hbase : view? "rbp" = some (.whole "rbp") := by decide
  revert hunknown hcount
  unfold stackEffects
  split <;> intro hunknown hcount
  · next hm =>
    rw [operation?_of_mnemonic hm rfl] at hop
    exact ⟨after_push hop, by simp [StackEffect.isSetFrame]⟩
  · next hm =>
    rw [operation?_of_mnemonic hm rfl] at hop
    exact ⟨after_pop hop hcount, by simp [StackEffect.isSetFrame]⟩
  · next hm =>
    rw [operation?_of_mnemonic hm rfl] at hop
    exact ⟨by simp [StackEffect.shift, after_leave hop], by simp [StackEffect.isSetFrame]⟩
  · next hm hops =>
    rw [operation?_of_mnemonic hm rfl, hops] at hop
    obtain rfl := eq_copy_of_move rfl rfl view?_stackPointer hbase hop
    exact follows_set_frame (by decide) (by simp)
  · next hm hops =>
    rw [operation?_of_mnemonic hm rfl, hops] at hop
    obtain rfl := eq_copy_of_move rfl rfl hbase view?_stackPointer hop
    exact follows_set_stack rfl (by simp [StackEffect.shift])
  · next src hm hops =>
    rw [operation?_of_mnemonic hm rfl, hops] at hop
    cases hn : amount? k src with
    | none => simp [hn] at hunknown
    | some n => exact ⟨after_compute_amount hk hn hop, by simp [StackEffect.isSetFrame]⟩
  · next src hm hops =>
    rw [operation?_of_mnemonic hm rfl, hops] at hop
    cases hn : amount? k src with
    | none => simp [hn] at hunknown
    | some n => exact ⟨after_compute_amount hk hn hop, by simp [StackEffect.isSetFrame]⟩
  · rw [otherEffects_eq_nil hunknown] at hcount ⊢
    exact follows_nil hcount e s

/-! ### Constants -/

theorem mem_of_percentNames {text : String} (h : name ∈ Text.percentNames text) :
    '%' ∈ text.toList := by
  obtain ⟨run, hrun, -⟩ := mem_map.1 h
  generalize text.toList = cs at hrun
  induction cs with
  | nil => cases hrun
  | cons c cs ih =>
    unfold Text.percentNames.go at hrun
    dsimp only at hrun
    split at hrun
    · next hcond =>
      rw [of_decide_eq_true (Bool.and_eq_true_iff.1 hcond).1]
      exact mem_cons_self
    · exact mem_cons_of_mem c (ih hrun)

theorem place?_of_percentNames (h : place? 8 operand = some place) (hmem : isMemory operand = false)
    (hname : name ∈ Text.percentNames operand) (hr : view? name = some (.whole r)) :
    place = .register (.whole r) := by
  have hpercent := mem_of_percentNames hname
  unfold place? at h
  split at h
  · next name' hname' =>
    have hall : ∀ v ∈ views, (Text.percentNames.go ('%' :: v.1.toList)).map String.ofList = [v.1] := by
      decide
    obtain ⟨v, hv, rfl⟩ := map_eq_some_iff.1 h
    have hview := (filter_eq_some_iff.1 hv).1
    rw [hname', bind_some] at hview
    rw [Text.percentNames, Text.after?_eq_some hname', hall (name', v) (mem_of_lookup hview),
      mem_singleton] at hname
    subst hname
    rw [Option.some.inj (hview.symm.trans hr)]
  · obtain ⟨a, ha, rfl⟩ := map_eq_some_iff.1 h
    unfold address? at ha
    split at ha
    · obtain ⟨n, hn, -⟩ := map_eq_some_iff.1 ha
      exact absurd (Text.mem_of_int64? hn hpercent) (by decide)
    · next hcut =>
      have hparen : '(' ∈ operand.toList := by simp [Text.cutAtMark?_eq_some hcut]
      rw [isMemory, Text.mentions, contains_iff_mem.2 hparen] at hmem
      cases hmem

theorem mem_written (hops : i.operands = [src, dst])
    (h : name ∈ dialect.written i) : isMemory dst = false ∧ name ∈ Text.percentNames dst := by
  obtain ⟨operand, hoperand, hname⟩ := mem_flatMap.1 h
  obtain ⟨hmem, hnot⟩ := mem_filter.1 hoperand
  obtain ⟨index, hindex, hat⟩ := mem_filterMap.1 hmem
  have hlast : index = 1 := by
    simp only [dialect, destinations, hops] at hindex
    split at hindex
    · cases hindex
    · simpa using hindex
  rw [AsmInstr.operand?, hops, hlast] at hat
  cases hat
  exact ⟨by simpa [dialect] using hnot, hname⟩

theorem constant {c : Int64} (hop : operation? i = some op)
    (hc : constant? i = some c) (hname : name ∈ dialect.written i)
    (hr : view? name = some (.whole r)) : (op.after e s).registers r = c.toBitVec := by
  unfold constant? at hc
  split at hc
  · next src dst hm hops =>
    rw [operation?_of_mnemonic hm rfl, hops] at hop
    obtain ⟨hmem, hnames⟩ := mem_written hops hname
    obtain ⟨⟨x, place⟩, hpair, ⟨⟩⟩ := bind_eq_some_iff.1 hop
    obtain ⟨hplace, ⟨n, hn, rfl⟩ | ⟨himm, -⟩⟩ := pair?_eq_some hpair
    · obtain rfl := place?_of_percentNames hplace hmem hnames hr
      cases hn.symm.trans hc
      simp [Place.assign, literal]
    · rw [himm] at hc
      cases hc
  · next src dst hm hops =>
    rw [operation?_of_mnemonic hm rfl, hops] at hop
    obtain ⟨hmem, hnames⟩ := mem_written hops hname
    simp only [moveLiteral, bind_eq_bind, bind_eq_some_iff] at hop
    obtain ⟨n, hn, v, hv, ⟨⟩⟩ := hop
    have hplace : place? 8 dst = some (.register v) := by
      obtain ⟨name', hname', -⟩ := bind_eq_some_iff.1 (filter_eq_some_iff.1 hv).1
      simp [place?, hname', hv]
    cases place?_of_percentNames hplace hmem hnames hr
    cases hn.symm.trans hc
    simp [literal]
  · next src dst hm hops =>
    rw [operation?_of_mnemonic hm rfl, hops] at hop
    obtain ⟨hmem, hnames⟩ := mem_written hops hname
    split at hc
    · next heq =>
      cases hc
      subst heq
      obtain ⟨x, hpair, hafter⟩ := after_compute (e := e) (s := s)
        (fun place hplace => place?_of_percentNames hplace hmem hnames hr) hop
      obtain ⟨hplace, ⟨n, hn, -⟩ | ⟨-, p, hp, rfl⟩⟩ := pair?_eq_some hpair
      · -- a literal has no name
        obtain ⟨text, htext, hn⟩ := bind_eq_some_iff.1 hn
        have hpercent := mem_of_percentNames hnames
        rw [Text.after?_eq_some htext, mem_cons] at hpercent
        exact absurd (Text.mem_of_int64? hn (hpercent.resolve_left (by decide))) (by decide)
      · cases hp.symm.trans hplace
        rw [hafter, Place.read, View.read_whole]
        exact BitVec.xor_self
    · cases hc
  · cases hc

theorem effects_of_isReturn (h : isReturn i = true) : stackEffects k i = [] := by
  have hm : i.mnemonic = "ret" ∨ i.mnemonic = "retq" := by simpa [isReturn] using h
  have hdest : destinations i = [] := by
    rcases hm with hm | hm <;> simp [destinations, withoutDestination, hm]
  rcases hm with hm | hm <;> simp [stackEffects, otherEffects, hm, hdest]

theorem shows : Arch.Shows .amd64 where
  effects_of_within := effects_of_within
  constant_of_within _ h := h
  effects_of_isReturn := effects_of_isReturn
  follows := follows
  constant hop _ := constant hop

end SsaBackend.Processor.Amd64
