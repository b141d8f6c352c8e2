import Mathlib

/-!
# Support — Patches in nested buffers

Buffers are placed one after the other.  One may have a pointer to it in an earlier one, and other
ranges of a buffer are patched too; `above` says for each buffer where the pointer to it stands.  A
patch goes into the buffer patched or placed last, at or above a running minimum, or into a buffer
above it; there the minimum is the end of the pointer on the way up (`Climbs`).

`Nested` is what this keeps: the patches of every buffer that is still open end at or below its
minimum.  So patches are disjoint (`Nested.patch`, `Nested.child`), although only the minimum of one
buffer is ever stored.
-/

namespace Fixups

open List

/-- A range of a buffer that is patched, with what it is patched for. -/
structure Patch where
  tag : ℕ
  buffer : ℕ
  offset : ℕ
  width : ℕ

/-- Patches of one buffer do not overlap. -/
def Patch.Apart (x y : Patch) : Prop :=
  x.buffer = y.buffer → x.offset + x.width ≤ y.offset ∨ y.offset + y.width ≤ x.offset

instance : Std.Symm Patch.Apart := ⟨fun _ _ h e => (h e.symm).symm⟩

/-- Where the pointer to each buffer stands: the buffer it is in, and its offset there. -/
abbrev Above := List (Option (ℕ × ℕ))

/-- Pointers stand in earlier buffers. -/
def Backward (above : Above) : Prop :=
  ∀ (i p offset : ℕ), above[i]? = some (some (p, offset)) → p < i

/-- From the buffer `c` with the minimum `m` one climbs to `a` with the minimum `b`; `w` is the
width of a pointer. -/
inductive Climbs (above : Above) (w : ℕ) : ℕ → ℕ → ℕ → ℕ → Prop where
  | here (c m : ℕ) : Climbs above w c m c m
  | up {c m p offset a b : ℕ} (h : above[c]? = some (some (p, offset)))
      (hp : Climbs above w p (offset + w) a b) : Climbs above w c m a b

namespace Climbs

variable {above : Above} {w c m a b : ℕ}

theorem le (h : Climbs above w c m a b) (hp : Backward above) : a ≤ c := by
  induction h with
  | here c m => exact le_rfl
  | up hq _ ih => exact ih.trans (hp _ _ _ hq).le

/-- A buffer placed later does not change how one climbs from an earlier one. -/
theorem of_append {q : Option (ℕ × ℕ)} (h : Climbs (above ++ [q]) w c m a b)
    (hp : Backward above) (hc : c < above.length) : Climbs above w c m a b := by
  induction h with
  | here c m => exact .here c m
  | up hq _ ih =>
    rw [getElem?_append_left hc] at hq
    exact .up hq (ih ((hp _ _ _ hq).trans hc))

/-- Climbing on from where one climbed to. -/
theorem trans {a' b' : ℕ} (h : Climbs above w c m a b) (h' : Climbs above w a b a' b') :
    Climbs above w c m a' b' := by
  induction h with
  | here c m => exact h'
  | up hq _ ih => exact .up hq (ih h')

/-- The minimum matters only where one starts. -/
theorem restart (h : Climbs above w c m a b) (hp : Backward above) (m' : ℕ) :
    (a = c ∧ b = m) ∨ (a < c ∧ Climbs above w c m' a b) := by
  cases h with
  | here => exact .inl ⟨rfl, rfl⟩
  | up hq h => exact .inr ⟨(h.le hp).trans_lt (hp _ _ _ hq), .up hq h⟩

end Climbs

/-- What the patches keep: `cursor` is the buffer patched or placed last, `min` its minimum. -/
structure Nested (w : ℕ) (above : Above) (patches : List Patch) (cursor : Option ℕ) (min : ℕ) :
    Prop where
  backward : Backward above
  known : ∀ x ∈ patches, x.buffer < above.length
  placed : ∀ c, cursor = some c → c < above.length
  below : ∀ c a b, cursor = some c → Climbs above w c min a b →
    ∀ x ∈ patches, x.buffer = a → x.offset + x.width ≤ b
  apart : patches.Pairwise Patch.Apart

namespace Nested

variable {w : ℕ} {above : Above} {patches : List Patch} {cursor : Option ℕ} {min : ℕ}

theorem empty : Nested w [] [] none 0 := by
  refine ⟨fun i p offset h => ?_, nofun, nofun, nofun, .nil⟩
  simp at h

variable (h : Nested w above patches cursor min)

include h

/-- **Placing.**  A buffer that no pointer is patched for. -/
theorem root : Nested w (above ++ [none]) patches (some above.length) 0 := by
  refine ⟨fun i p offset hi => ?_, fun x hx => ?_, fun c hc => ?_, fun c a b hc hcl x hx hxa => ?_,
    h.apart⟩
  · by_cases hlt : i < above.length
    · exact h.backward i p offset (getElem?_append_left hlt ▸ hi)
    · rw [getElem?_append_right (Nat.le_of_not_lt hlt)] at hi
      cases hk : i - above.length <;> simp [hk] at hi
  · have := h.known x hx
    simp only [length_append, length_singleton]
    omega
  · cases hc
    simp
  · cases hc
    cases hcl with
    | here => exact absurd (h.known x hx) (by omega)
    | up hq => simp at hq

variable {x : Patch}

/-- **Patching.**  A range of an open buffer. -/
theorem patch {c b : ℕ} (hc : cursor = some c)
    (hb : Climbs above w c min x.buffer b) (hmin : b ≤ x.offset) :
    Nested w above (patches ++ [x]) (some x.buffer) (x.offset + x.width) := by
  have ha : x.buffer < above.length := (hb.le h.backward).trans_lt (h.placed c hc)
  refine ⟨h.backward, fun y hy => ?_, fun d hd => ?_, fun d a' b' hd hcl y hy hya => ?_, ?_⟩
  · rcases mem_append.1 hy with hy | hy
    · exact h.known y hy
    · cases mem_singleton.1 hy
      exact ha
  · cases hd
    exact ha
  · cases hd
    rcases hcl.restart h.backward b with ⟨rfl, rfl⟩ | ⟨hlt, hcl⟩
    · rcases mem_append.1 hy with hy | hy
      · have := h.below c _ b hc hb y hy hya
        omega
      · cases mem_singleton.1 hy
        exact le_rfl
    · rcases mem_append.1 hy with hy | hy
      · exact h.below c a' b' hc (hb.trans hcl) y hy hya
      · cases mem_singleton.1 hy
        omega
  · refine pairwise_append.2 ⟨h.apart, pairwise_singleton _ _, fun y hy z hz e => ?_⟩
    cases mem_singleton.1 hz
    exact .inl ((h.below c _ b hc hb y hy e).trans hmin)

/-- **Placing below.**  A buffer with its pointer patched into an open one. -/
theorem child {c b : ℕ} (hc : cursor = some c)
    (hb : Climbs above w c min x.buffer b) (hmin : b ≤ x.offset) (hw : x.width = w) :
    Nested w (above ++ [some (x.buffer, x.offset)]) (patches ++ [x]) (some above.length) 0 := by
  have h' := h.patch hc hb hmin
  have ha : x.buffer < above.length := h'.placed _ rfl
  refine ⟨fun i p offset hi => ?_, fun y hy => ?_, fun d hd => ?_, fun d a' b' hd hcl y hy hya => ?_,
    h'.apart⟩
  · by_cases hlt : i < above.length
    · exact h.backward i p offset (getElem?_append_left hlt ▸ hi)
    · rw [getElem?_append_right (Nat.le_of_not_lt hlt)] at hi
      cases hk : i - above.length <;> simp [hk] at hi
      omega
  · have := h'.known y hy
    simp only [length_append, length_singleton]
    omega
  · cases hd
    simp
  · cases hd
    cases hcl with
    | here => exact absurd (h'.known y hy) (by omega)
    | up hq hp =>
      simp only [getElem?_concat_length, Option.some.injEq, Prod.mk.injEq] at hq
      obtain ⟨rfl, rfl⟩ := hq
      exact h'.below _ a' b' rfl (hw ▸ hp.of_append h.backward ha) y hy hya

/-- Patches for different things are apart. -/
theorem apart_of_tag {y : Patch} (hx : x ∈ patches)
    (hy : y ∈ patches) (hne : x.tag ≠ y.tag) : x.Apart y :=
  h.apart.forall hx hy fun e => hne (congrArg Patch.tag e)

end Nested

end Fixups
