import Aim.Support.Table

/-!
# Support — Interning

A writer sends values to a reader, and a value that it has sent before as a number.  Each side keeps
a table of its own: the writer's gives the number of a value, the reader's is the list of the values
in the order in which they came.  Neither has more than `cap` of them, so a value may come that gets
no number, even more than once.

`Synced` is what keeps the two in step: a number of the writer's is the place of its value in the
reader's list.
-/

namespace Interning

variable {α : Type}

section Tables

variable [DecidableEq α]

/-- The writer's table once it has sent a value that it has no number of. -/
def number (cap : ℕ) (t : Table α ℕ) (a : α) : Table α ℕ :=
  if t.entries.length < cap then t.insert a t.entries.length else t

end Tables

/-- The reader's list once such a value came. -/
def record (cap : ℕ) (l : List α) (a : α) : List α := if l.length < cap then l ++ [a] else l

variable [DecidableEq α] {cap : ℕ} {t : Table α ℕ} {l : List α}

/-- The writer's numbers are the places of their values in the reader's list. -/
structure Synced (cap : ℕ) (t : Table α ℕ) (l : List α) : Prop where
  length : t.entries.length = l.length
  bound : l.length ≤ cap
  place : ∀ a i, t.lookup a = some i → l[i]? = some a

namespace Synced

theorem empty : Synced cap (∅ : Table α ℕ) [] :=
  ⟨rfl, Nat.zero_le _, fun a i h => by cases h⟩

/-- A number is below the bound. -/
theorem lt (h : Synced cap t l) {a : α} {i : ℕ} (ha : t.lookup a = some i) : i < cap := by
  obtain ⟨hi, -⟩ := List.getElem?_eq_some_iff.1 (h.place a i ha)
  exact Nat.lt_of_lt_of_le hi h.bound

/-- A value without a number is numbered on both sides or on neither. -/
theorem fresh (h : Synced cap t l) {a : α} (ha : t.lookup a = none) :
    Synced cap (number cap t a) (record cap l a) := by
  rw [number, record, h.length]
  split_ifs with hl
  · refine ⟨?_, ?_, fun b i hb => ?_⟩
    · have hmem : a ∉ t := fun hm => by
        rw [← AList.lookup_isSome, ha] at hm
        cases hm
      rw [AList.entries_insert_of_notMem hmem, List.length_cons, List.length_append, h.length]
      rfl
    · rw [List.length_append]
      exact hl
    · rw [AList.lookup_insert_ite] at hb
      split_ifs at hb with hab
      · cases hb
        rw [hab, List.getElem?_append_right (Nat.le_refl _), Nat.sub_self]
        rfl
      · have hi := h.place b i hb
        obtain ⟨hlt, -⟩ := List.getElem?_eq_some_iff.1 hi
        rw [List.getElem?_append_left hlt, hi]
  · exact h

end Synced

end Interning
