import Mathlib

/-!
# Support — Longest prefixes

A partial function on strings, and the value it has at the longest prefix of a string that has one.
The prefixes of a string that are longer than a part of it are prefixes of the rest
(`longest_append`): a search that goes through a string part by part finds the longest.
-/

variable {α β : Type}

/-- The value at the longest prefix that has one. -/
def longest (f : List α → Option β) : List α → Option β
  | [] => f []
  | c :: r => (longest (fun p => f (c :: p)) r).or (f [])

section Longest

variable {f g : List α → Option β} {r s : List α} {c : α} {v : β}

/-- The longest prefix of an extension is the longest past the split, if there is one. -/
theorem longest_append :
    longest f (s ++ c :: r) = (longest (fun q => f (s ++ c :: q)) r).or (longest f s) := by
  induction s generalizing f with
  | nil => rfl
  | cons x s ih =>
    rw [List.cons_append, longest, ih, Option.or_assoc]
    rfl

theorem longest_congr (h : ∀ p, p <+: r → f p = g p) : longest f r = longest g r := by
  induction r generalizing f g with
  | nil => exact h [] List.prefix_rfl
  | cons c r ih =>
    rw [longest, longest, ih fun p hp => h (c :: p) (List.cons_prefix_cons.2 ⟨rfl, hp⟩),
      h [] List.nil_prefix]

theorem longest_eq_none : longest f r = none ↔ ∀ p, p <+: r → f p = none := by
  induction r generalizing f with
  | nil =>
    refine ⟨fun h p hp => ?_, fun h => h [] List.prefix_rfl⟩
    rw [List.prefix_nil.1 hp]
    exact h
  | cons c r ih =>
    rw [longest, Option.or_eq_none_iff, ih]
    constructor
    · rintro ⟨hr, hnil⟩ p hp
      rcases p with - | ⟨x, p⟩
      · exact hnil
      · obtain ⟨rfl, hp'⟩ := List.cons_prefix_cons.1 hp
        exact hr p hp'
    · exact fun h => ⟨fun p hp => h _ (List.cons_prefix_cons.2 ⟨rfl, hp⟩), h [] List.nil_prefix⟩

theorem exists_of_longest (h : longest f r = some v) :
    ∃ p, p <+: r ∧ f p = some v ∧ ∀ q, q <+: r → f q ≠ none → q.length ≤ p.length := by
  induction r generalizing f with
  | nil => exact ⟨[], List.prefix_rfl, h, fun q hq _ => hq.length_le⟩
  | cons c r ih =>
    rcases Option.or_eq_some_iff.1 h with h | ⟨hnone, h⟩
    · obtain ⟨p, hp, hf, hmax⟩ := ih h
      refine ⟨c :: p, List.cons_prefix_cons.2 ⟨rfl, hp⟩, hf, fun q hq hne => ?_⟩
      rcases q with - | ⟨x, q⟩
      · exact Nat.zero_le _
      · obtain ⟨rfl, hq'⟩ := List.cons_prefix_cons.1 hq
        exact Nat.succ_le_succ (hmax q hq' hne)
    · refine ⟨[], List.nil_prefix, h, fun q hq hne => ?_⟩
      rcases q with - | ⟨x, q⟩
      · exact Nat.le_refl _
      · obtain ⟨rfl, hq'⟩ := List.cons_prefix_cons.1 hq
        exact absurd (longest_eq_none.1 hnone q hq') hne

/-- What `longest` finds is the value at the longest prefix that has one. -/
theorem longest_eq_some :
    longest f r = some v ↔
      ∃ p, p <+: r ∧ f p = some v ∧ ∀ q, q <+: r → f q ≠ none → q.length ≤ p.length := by
  refine ⟨exists_of_longest, fun ⟨p, hp, hf, hmax⟩ => ?_⟩
  cases hl : longest f r with
  | none =>
    rw [longest_eq_none.1 hl p hp] at hf
    cases hf
  | some w =>
    obtain ⟨q, hq, hg, hmax'⟩ := exists_of_longest hl
    have h₁ := hmax q hq (by rw [hg]; nofun)
    have h₂ := hmax' p hp (by rw [hf]; nofun)
    have hpq : p = q := (List.prefix_of_prefix_length_le hp hq h₂).eq_of_length
      (Nat.le_antisymm h₂ h₁)
    rw [← hf, hpq, hg]

end Longest
