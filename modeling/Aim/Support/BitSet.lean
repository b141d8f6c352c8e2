import Mathlib

/-!
# Support — Sets of bits

A bit vector as the set of its bits, and inclusion as the test `a & !b == 0`.
-/

namespace BitSet

open BitVec

variable {w : ℕ} {a b c : BitVec w}

/-- Every member of `a` is one of `b`. -/
def Within (a b : BitVec w) : Prop := a &&& ~~~b = 0

instance (a b : BitVec w) : Decidable (Within a b) := inferInstanceAs (Decidable (_ = _))

/-- Inclusion, bit by bit. -/
theorem within_iff : Within a b ↔ ∀ i, a.getLsbD i = true → b.getLsbD i = true := by
  constructor
  · intro h i ha
    have hi := congrArg (·.getLsbD i) h
    have hlt : i < w := lt_of_getLsbD ha
    simpa [ha, hlt] using hi
  · intro h
    refine eq_of_getLsbD_eq fun i hi => ?_
    have := h i
    cases ha : a.getLsbD i <;> simp_all

theorem Within.refl (a : BitVec w) : Within a a := within_iff.2 fun _ h => h

theorem Within.trans (h : Within a b) (h' : Within b c) : Within a c :=
  within_iff.2 fun i ha => within_iff.1 h' i (within_iff.1 h i ha)

theorem zero_within (a : BitVec w) : Within 0 a := zero_and

theorem eq_zero_of_within (h : Within a 0) : a = 0 := by
  refine eq_of_getLsbD_eq fun i _ => ?_
  cases ha : a.getLsbD i with
  | false => simp
  | true => exact (within_iff.1 h i ha).symm

theorem and_within_left (a b : BitVec w) : Within (a &&& b) a := by
  rw [within_iff]
  simp +contextual

theorem and_within_right (a b : BitVec w) : Within (a &&& b) b := by
  rw [within_iff]
  simp +contextual

theorem Within.and (h : Within a b) (h' : Within a c) : Within a (b &&& c) := by
  rw [within_iff] at *
  intro i ha
  rw [getLsbD_and, h i ha, h' i ha]
  rfl

/-- A union is within what both sets are within. -/
theorem Within.or (h : Within a c) (h' : Within b c) : Within (a ||| b) c := by
  rw [within_iff] at *
  intro i hab
  rw [getLsbD_or, Bool.or_eq_true] at hab
  exact hab.elim (h i) (h' i)

theorem within_or_left (a b : BitVec w) : Within a (a ||| b) := by
  rw [within_iff]
  simp +contextual

theorem within_or_right (a b : BitVec w) : Within b (a ||| b) := by
  rw [within_iff]
  simp +contextual

/-- A set is within another if it is its own part in it. -/
theorem within_iff_and_eq : Within a b ↔ a &&& b = a := by
  constructor
  · intro h
    refine eq_of_getLsbD_eq fun i _ => ?_
    cases ha : a.getLsbD i with
    | false => simp [ha]
    | true => simp [ha, within_iff.1 h i ha]
  · intro h
    rw [← h]
    exact and_within_right _ _

theorem eq_of_mem_bit {i j : ℕ} (h : (1#w <<< i).getLsbD j = true) : j = i := by
  simp only [getLsbD_shiftLeft, getLsbD_one, Bool.and_eq_true, decide_eq_true_eq,
    Bool.not_eq_true', decide_eq_false_iff_not] at h
  omega

/-- A single bit is in a set that has it. -/
theorem bit_within {i : ℕ} (h : a &&& (1#w <<< i) ≠ 0) : Within (1#w <<< i) a := by
  rw [within_iff]
  intro j hj
  obtain rfl := eq_of_mem_bit hj
  by_contra hn
  refine h (eq_of_getLsbD_eq fun k _ => ?_)
  have hk : (a &&& 1#w <<< j).getLsbD k = false := by
    rw [getLsbD_and, Bool.and_eq_false_iff, ← Bool.not_eq_true, ← Bool.not_eq_true]
    by_cases hkj : k = j
    · subst hkj
      exact .inl hn
    · exact .inr fun hm => hkj (eq_of_mem_bit hm)
  rw [hk]
  exact (getLsbD_zero).symm

end BitSet
