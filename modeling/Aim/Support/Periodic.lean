import Mathlib

/-!
# Support — Periodic events

Events at `first`, `first + period`, `first + 2 * period`, …: how many have come by a reading of the
clock, and which is the first still to come.

* `dueBy`, `firstAfter`: by division, with what they count (`ncard_due`, `isLeast_firstAfter`).
* `Counts`: what a party that takes the events due at each reading has taken in all. A reading takes
  the events since the latest reading before it (`Counts.step`), so the sum is the number of events
  by the latest of the readings, in whatever order they come.
-/

namespace Periodic

open Nat

variable {first period now later : ℕ}

/-- How many of the events have come by `now`. -/
def dueBy (first period now : ℕ) : ℕ :=
  if now < first then 0 else 1 + (now - first) / period

/-- The first event after `now`. -/
def firstAfter (first period now : ℕ) : ℕ := first + dueBy first period now * period

theorem dueBy_of_lt (h : now < first) : dueBy first period now = 0 := if_pos h

theorem dueBy_of_le (h : first ≤ now) : dueBy first period now = 1 + (now - first) / period :=
  if_neg (by omega)

theorem firstAfter_of_lt (h : now < first) : firstAfter first period now = first := by
  rw [firstAfter, dueBy_of_lt h, zero_mul, add_zero]

theorem first_le_firstAfter : first ≤ firstAfter first period now := le_add_right _ _

theorem lt_dueBy_iff (hp : 0 < period) {k : ℕ} :
    k < dueBy first period now ↔ first + k * period ≤ now := by
  rcases lt_or_ge now first with h | h
  · rw [dueBy_of_lt h]
    omega
  · rw [dueBy_of_le h, lt_one_add_iff, le_div_iff_mul_le hp]
    omega

/-- `dueBy` counts the events that have come. -/
theorem ncard_due (hp : 0 < period) :
    {k : ℕ | first + k * period ≤ now}.ncard = dueBy first period now := by
  have : {k : ℕ | first + k * period ≤ now} = Set.Iio (dueBy first period now) :=
    Set.ext fun k => (lt_dueBy_iff hp).symm
  rw [this, ← Finset.coe_Iio, Set.ncard_coe_finset, card_Iio]

theorem lt_firstAfter (hp : 0 < period) : now < firstAfter first period now := by
  by_contra h
  exact absurd ((lt_dueBy_iff hp).2 (not_lt.1 h)) (lt_irrefl _)

/-- `firstAfter` is the first event after `now`. -/
theorem isLeast_firstAfter (hp : 0 < period) :
    IsLeast {t : ℕ | now < t ∧ ∃ k, t = first + k * period} (firstAfter first period now) := by
  refine ⟨⟨lt_firstAfter hp, _, rfl⟩, ?_⟩
  rintro t ⟨ht, k, rfl⟩
  have hk : dueBy first period now ≤ k := by
    by_contra h
    have := (lt_dueBy_iff hp).1 (not_le.1 h)
    omega
  exact Nat.add_le_add_left (Nat.mul_le_mul_right _ hk) _

theorem firstAfter_le (h : first ≤ now) : firstAfter first period now ≤ now + period := by
  have := div_mul_le_self (now - first) period
  rw [firstAfter, dueBy_of_le h, add_mul]
  omega

theorem dueBy_le (h : 0 < first) : dueBy first period now ≤ now := by
  rcases lt_or_ge now first with hlt | hle
  · rw [dueBy_of_lt hlt]
    exact zero_le _
  · have := div_le_self (now - first) period
    rw [dueBy_of_le hle]
    omega

/-- Taking what is due by `now` and then what is due by `later` takes what is due by the later of
the two readings. -/
theorem dueBy_add (hp : 0 < period) :
    dueBy first period now + dueBy (firstAfter first period now) period later =
      dueBy first period (max now later) := by
  refine eq_of_forall_lt_iff fun k => ?_
  rw [lt_dueBy_iff hp]
  rcases lt_or_ge k (dueBy first period now) with hk | hk
  · have := (lt_dueBy_iff hp).1 hk
    omega
  obtain ⟨j, rfl⟩ := Nat.exists_eq_add_of_le hk
  have hj : j < dueBy (firstAfter first period now) period later ↔
      firstAfter first period now + j * period ≤ later := lt_dueBy_iff hp
  have hnow : now < firstAfter first period now := lt_firstAfter hp
  have he : first + (dueBy first period now + j) * period =
      firstAfter first period now + j * period := by
    rw [add_mul, ← add_assoc, firstAfter]
  omega

theorem firstAfter_firstAfter (hp : 0 < period) :
    firstAfter (firstAfter first period now) period later =
      firstAfter first period (max now later) := by
  rw [firstAfter, firstAfter, firstAfter, ← dueBy_add hp, add_mul, add_assoc]
  rfl

/-! ### Taking the events at several readings -/

/-- Of the events from `first` on, `taken` have been taken at readings of which `latest` is the
latest, and `next` is the one to come. -/
structure Counts (first period latest taken next : ℕ) : Prop where
  taken : taken = dueBy first period latest
  next : next = firstAfter first period latest

namespace Counts

variable {latest taken next : ℕ}

theorem start (h : 0 < first) : Counts first period 0 0 first :=
  ⟨(dueBy_of_lt h).symm, (firstAfter_of_lt h).symm⟩

theorem step (hp : 0 < period) (h : Counts first period latest taken next) (now : ℕ) :
    Counts first period (max latest now) (taken + dueBy next period now)
      (firstAfter next period now) := by
  obtain ⟨rfl, rfl⟩ := h
  exact ⟨dueBy_add hp, firstAfter_firstAfter hp⟩

theorem taken_le (h : Counts first period latest taken next) (hf : 0 < first) : taken ≤ latest := by
  rw [h.taken]
  exact dueBy_le hf

theorem next_pos (h : Counts first period latest taken next) (hf : 0 < first) : 0 < next := by
  rw [h.next]
  exact lt_of_lt_of_le hf first_le_firstAfter

end Counts

end Periodic
