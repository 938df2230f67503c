import SsaBackend.Text.Number
import SsaBackend.Text.Scan

/-!
# What scanners have found

The scanners of operands, read backwards: what a text looks like of which a scanner has found a part.
-/

namespace SsaBackend.Text

theorem after?_eq_some {c : Char} {text inner : String} (h : after? c text = some inner) :
    text.toList = c :: inner.toList := by
  unfold after? at h
  split at h
  · next d cs hlist =>
    split at h
    · next hd =>
      cases h
      rw [hlist, hd, String.toList_ofList]
    · cases h
  · cases h

theorem after?_eq_none {c : Char} {text : String} (h : startsWith c text = false) :
    after? c text = none := by
  rw [startsWith, beq_eq_false_iff_ne] at h
  unfold after?
  cases hlist : text.toList with
  | nil => rfl
  | cons d cs =>
    rw [hlist, List.head?_cons, ne_eq, Option.some.injEq] at h
    simp [h]

theorem cutAtMark?_eq_some {mark cs before behind : List Char}
    (h : cutAtMark? mark cs = some (before, behind)) : cs = before ++ (mark ++ behind) := by
  induction cs generalizing before behind with
  | nil => cases h
  | cons c cs ih =>
    unfold cutAtMark? at h
    split at h
    · next hpre =>
      cases h
      obtain ⟨rest, hrest⟩ := List.isPrefixOf_iff_prefix.1 hpre
      simp [← hrest]
    · obtain ⟨parts, hparts, hpair⟩ := Option.map_eq_some_iff.1 h
      cases hpair
      simp [← ih hparts]

theorem mem_of_int64? {text : String} {n : Int64} (h : int64? text = some n) {c : Char}
    (hc : c ∈ text.toList) : c ∈ ['-', '+'] ∨ c.isDigit = true := by
  have hdigits : ∀ {cs : List Char} {k : Nat}, digits? cs = some k → c ∈ cs → c.isDigit = true := by
    intro cs k hk hc
    unfold digits? at hk
    split at hk
    · next hcs => exact List.all_eq_true.1 (Bool.and_eq_true_iff.1 hcs).2 c hc
    · cases hk
  obtain ⟨k, hk, -⟩ := Option.bind_eq_some_iff.1 h
  unfold integer? at hk
  split at hk
  · next cs hlist =>
    obtain ⟨m, hm, -⟩ := Option.map_eq_some_iff.1 hk
    obtain ⟨m, hm, -⟩ := Option.bind_eq_some_iff.1 hm
    rw [hlist, List.mem_cons] at hc
    exact hc.imp (fun hc => by simp [hc]) (hdigits hm)
  · next cs hlist =>
    obtain ⟨m, hm, -⟩ := Option.map_eq_some_iff.1 hk
    rw [hlist, List.mem_cons] at hc
    exact hc.imp (fun hc => by simp [hc]) (hdigits hm)
  · obtain ⟨m, hm, -⟩ := Option.map_eq_some_iff.1 hk
    exact .inr (hdigits hm hc)

end SsaBackend.Text
