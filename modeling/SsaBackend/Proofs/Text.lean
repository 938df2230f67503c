import SsaBackend.Text.Number
import SsaBackend.Text.Scan
import Mathlib.Algebra.Order.Ring.Int

/-!
# Texts of numbers, and cutting texts

The decimal text of a number reads back as that number, cutting a text at the first occurrence
of a mark gives the two sides of that mark, and the words of a text are those of its parts.
-/

namespace SsaBackend.Text

open List

variable {cs : List Char}

/-! ### Numbers -/

theorem toList_toString_int (n : Int) :
    (toString n).toList = (if n < 0 then ['-'] else []) ++ Nat.toDigits 10 n.natAbs := by
  cases n with
  | ofNat m =>
    rw [if_neg (show ¬Int.ofNat m < 0 from Int.not_lt.2 (Int.natCast_nonneg m))]
    exact Nat.toList_repr
  | negSucc m =>
    rw [if_pos (Int.negSucc_lt_zero m), Int.toString_eq_repr, Int.repr, String.toList_append,
      Nat.toList_repr]
    rfl

theorem toList_toString_nat (n : Nat) : (toString n).toList = Nat.toDigits 10 n := by simp

variable {c : Char}

theorem isDigit_of_mem_toString_int {n : Int} (h : c ∈ (toString n).toList) :
    c.isDigit = true ∨ c = '-' := by
  rw [toList_toString_int, mem_append] at h
  rcases h with h | h
  · split at h
    · exact .inr (mem_singleton.1 h)
    · contradiction
  · exact .inl (Nat.isDigit_of_mem_toDigits (by decide) (by decide) h)

theorem toString_int_ne_nil (n : Int) : (toString n).toList ≠ [] := by
  rw [toList_toString_int]
  exact append_ne_nil_of_right_ne_nil _ Nat.toDigits_ne_nil

theorem digits?_toDigits (n : Nat) : digits? (Nat.toDigits 10 n) = some n := by
  have hall : (Nat.toDigits 10 n).all Char.isDigit = true :=
    all_eq_true.2 fun c hc => Nat.isDigit_of_mem_toDigits (by decide) (by decide) hc
  have hne : (Nat.toDigits 10 n).isEmpty = false := by simp [Nat.toDigits_ne_nil]
  simp [digits?, hall, hne, Nat.ofDigitChars_toDigits]

theorem integer?_of_digits (h : ∀ c ∈ cs, c.isDigit = true) :
    integer? cs = (digits? cs).map Int.ofNat := by
  unfold integer?
  split
  · exact absurd (h '-' mem_cons_self) (by decide)
  · exact absurd (h '+' mem_cons_self) (by decide)
  · rfl

theorem integer?_toString (n : Int) : integer? (toString n).toList = some n := by
  rw [toList_toString_int]
  split
  · next hneg =>
    rw [singleton_append, integer?, digits?_toDigits]
    show some (-(n.natAbs : Int)) = some n
    exact congrArg some (by omega)
  · next hpos =>
    rw [nil_append, integer?_of_digits fun c hc =>
      Nat.isDigit_of_mem_toDigits (by decide) (by decide) hc, digits?_toDigits]
    exact congrArg some (Int.natAbs_of_nonneg (Int.not_lt.1 hpos))

def word? (n : Int) : Option Int64 :=
  if Int64.minValue.toInt ≤ n ∧ n ≤ Int64.maxValue.toInt then some (Int64.ofInt n) else none

theorem word?_eq_some {n : Int} (h : -2 ^ 63 ≤ n) (h' : n < 2 ^ 63) :
    word? n = some (Int64.ofInt n) := by
  have hmin : Int64.minValue.toInt = -2 ^ 63 := by decide
  have hmax : Int64.maxValue.toInt = 2 ^ 63 - 1 := by decide
  exact if_pos ⟨by omega, by omega⟩

theorem word?_zero : word? 0 = some 0 := word?_eq_some (by decide) (by decide)

theorem int64?_toString (n : Int) : int64? (toString n) = word? n := by
  rw [int64?, integer?_toString, Option.bind_some, word?]

theorem int64?_toString_nat (n : Nat) : int64? (toString n) = word? n := int64?_toString n

theorem int64?_neg_toString (n : Nat) : int64? ("-" ++ toString n) = word? (-(n : Int)) := by
  have hlist : ("-" ++ toString n).toList = '-' :: Nat.toDigits 10 n := by simp
  rw [int64?, hlist, integer?, digits?_toDigits]
  rfl

theorem uint32?_toString {n : Nat} (h : n < UInt32.size) : uint32? (toString n) = some n := by
  rw [uint32?, toList_toString_nat]
  have hdigits : ∀ c ∈ Nat.toDigits 10 n, c.isDigit = true := fun c hc =>
    Nat.isDigit_of_mem_toDigits (by decide) (by decide) hc
  split
  · next heq => exact absurd (hdigits '+' (heq ▸ mem_cons_self)) (by decide)
  · rw [digits?_toDigits, Option.bind_some, if_pos h]

/-! ### Cutting -/

theorem after?_append (c : Char) (text : String) :
    after? c (String.ofList [c] ++ text) = some text := by
  simp [after?, String.toList_append]

theorem cutAtMark?_eq_none {m : Char} {mark : List Char} (h : m ∉ cs) :
    cutAtMark? (m :: mark) cs = none := by
  induction cs with
  | nil => rfl
  | cons c cs ih =>
    rw [mem_cons, not_or] at h
    have hpre : (m :: mark).isPrefixOf (c :: cs) = false := by simp [List.isPrefixOf, h.1]
    simp [cutAtMark?, hpre, ih h.2]

theorem cutAtMark?_append {m : Char} (mark : List Char) (h : m ∉ cs) (rest : List Char) :
    cutAtMark? (m :: mark) (cs ++ (m :: mark ++ rest)) = some (cs, rest) := by
  induction cs with
  | nil =>
    have hpre : (m :: mark).isPrefixOf (m :: mark ++ rest) = true := by
      rw [ isPrefixOf_iff_prefix]
      exact prefix_append _ _
    simp only [nil_append, cons_append] at hpre ⊢
    rw [cutAtMark?, if_pos hpre]
    simp
  | cons c cs ih =>
    rw [mem_cons, not_or] at h
    have hpre : (m :: mark).isPrefixOf (c :: (cs ++ (m :: mark ++ rest))) = false := by
      simp [List.isPrefixOf, h.1]
    rw [cons_append, cutAtMark?, hpre, ih h.2]
    rfl

theorem beforeMark_eq_self {m : Char} {mark : List Char} (h : m ∉ cs) :
    beforeMark (m :: mark) cs = cs := by
  induction cs with
  | nil => rfl
  | cons c cs ih =>
    rw [mem_cons, not_or] at h
    have hpre : (m :: mark).isPrefixOf (c :: cs) = false := by simp [List.isPrefixOf, h.1]
    simp [beforeMark, hpre, ih h.2]

/-! ### Blanks -/

theorem isBlank_of_isAlphanum (h : c.isAlphanum = true) : isBlank c = false := by
  delta Char.isAlphanum Char.isAlpha Char.isUpper Char.isLower at h
  simp only [Char.isDigit, Bool.or_eq_true, Bool.and_eq_true, decide_eq_true_eq, ge_iff_le,
    UInt32.le_iff_toNat_le] at h
  have hn : 48 ≤ c.toNat ∧ c.toNat ≤ 122 := by
    unfold Char.toNat
    rcases h with (h | h) | h <;> revert h <;> simp <;> omega
  simp only [isBlank, inRanges, any_cons, any_nil, Bool.or_false, Bool.or_eq_false_iff,
    Bool.and_eq_false_iff, decide_eq_false_iff_not]
  omega

theorem trimChars_append (blanks : List Char) (hblank : ∀ c ∈ blanks, isBlank c = true)
    (hhead : ∀ c, cs.head? = some c → isBlank c = false)
    (hlast : ∀ c, cs.getLast? = some c → isBlank c = false) : trimChars (blanks ++ cs) = cs := by
  have hfirst : ∀ {l : List Char}, (∀ c, l.head? = some c → isBlank c = false) →
      l.dropWhile isBlank = l := by
    intro l hl
    cases l with
    | nil => rfl
    | cons c l => exact dropWhile_cons_of_neg (by simp [hl c rfl])
  rw [trimChars, dropWhile_append_of_pos hblank, hfirst hhead, hfirst, reverse_reverse]
  intro c hc
  exact hlast c (by rwa [head?_reverse] at hc)

/-! ### Words -/

theorem isWord_of_isNameChar (h : isNameChar c = true) : isWord c = true := by
  simp only [isNameChar, Bool.or_eq_true] at h
  have halphanum : c.isAlphanum = true := by
    delta Char.isAlphanum Char.isAlpha
    rcases h with h | h <;> simp [h]
  simp [isWord, halphanum]

variable {rest : List Char}

section Runs

variable {p : Char → Bool} {cs : List Char}

theorem runsFrom_append (h : ∀ c ∈ cs, p c = true) (run rest : List Char) :
    runsFrom p run (cs ++ rest) = runsFrom p (cs.reverse ++ run) rest := by
  induction cs generalizing run with
  | nil => rfl
  | cons c cs ih =>
    obtain ⟨hc, hcs⟩ := forall_mem_cons.1 h
    rw [cons_append, runsFrom, if_pos hc, ih hcs, reverse_cons, append_assoc]
    rfl

theorem runs_cons (hc : p c = false) (rest : List Char) : runs p (c :: rest) = runs p rest := by
  simp [runs, runsFrom, hc]

theorem runs_append (h : ∀ c ∈ cs, p c = true) (hne : cs ≠ [])
    (hrest : ∀ c ∈ rest.head?, p c = false) : runs p (cs ++ rest) = cs :: runs p rest := by
  rw [runs, runsFrom_append h, append_nil]
  cases rest with
  | nil => simp [runs, runsFrom, hne]
  | cons c rest =>
    have hc := hrest c rfl
    simp [runs, runsFrom, hc, hne]

end Runs

def nameRuns (cs : List Char) : List (List Char) := (runs isWord cs).filter isName

theorem names_eq (s : String) : names s = (nameRuns s.toList).map String.ofList := rfl

section NameRuns

variable {cs : List Char}

theorem nameRuns_cons (hc : isWord c = false) (rest : List Char) :
    nameRuns (c :: rest) = nameRuns rest := by
  rw [nameRuns, runs_cons hc, nameRuns]

theorem nameRuns_name (h : isName cs = true)
    (hrest : ∀ c ∈ rest.head?, isWord c = false) : nameRuns (cs ++ rest) = cs :: nameRuns rest := by
  have hword : ∀ c ∈ cs, isWord c = true := by
    cases cs with
    | nil => simp
    | cons d ds =>
      simp only [isName, Bool.and_eq_true, all_eq_true] at h
      refine forall_mem_cons.2 ⟨isWord_of_isNameChar ?_, fun e he => ?_⟩
      · simp [isNameChar, h.1]
      · exact isWord_of_isNameChar (h.2 e he)
  have hne : cs ≠ [] := by
    rintro rfl
    cases h
  rw [nameRuns, runs_append hword hne hrest, filter_cons, if_pos h, nameRuns]

theorem isLower_of_isDigit (h : c.isDigit = true) : c.isLower = false := by
  delta Char.isLower
  simp only [Char.isDigit, Bool.and_eq_true, decide_eq_true_eq, ge_iff_le,
    UInt32.le_iff_toNat_le, Bool.and_eq_false_iff, decide_eq_false_iff_not] at h ⊢
  have h9 : '9'.val.toNat = 57 := rfl
  have ha : 'a'.val.toNat = 97 := rfl
  omega

theorem nameRuns_digits (h : ∀ c ∈ cs, c.isDigit = true)
    (hrest : ∀ c ∈ rest.head?, isWord c = false) : nameRuns (cs ++ rest) = nameRuns rest := by
  have hword : ∀ e ∈ cs, isWord e = true := fun e he =>
    isWord_of_isNameChar (by simp [isNameChar, h e he])
  cases cs with
  | nil => rfl
  | cons d ds =>
    have hlower := isLower_of_isDigit (h d mem_cons_self)
    rw [nameRuns, runs_append hword (by simp) hrest, filter_cons,
      if_neg (by simp [isName, hlower]), nameRuns]

theorem nameRuns_toString_int (n : Int) (hrest : ∀ c ∈ rest.head?, isWord c = false) :
    nameRuns ((toString n).toList ++ rest) = nameRuns rest := by
  have hdigits : ∀ c ∈ Nat.toDigits 10 n.natAbs, c.isDigit = true := fun c hc =>
    Nat.isDigit_of_mem_toDigits (by decide) (by decide) hc
  rw [toList_toString_int]
  split
  · rw [append_assoc, singleton_append, nameRuns_cons (by decide), nameRuns_digits hdigits hrest]
  · exact nameRuns_digits hdigits hrest

end NameRuns

end SsaBackend.Text
