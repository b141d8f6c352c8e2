import Mathlib

/-!
# Support — Bytes

Little-endian numbers in byte strings, and the checked slices a program reads and overwrites:
both are `none` where an index would be out of bounds.  A text of any characters is split at the
first separator by `List.splitOnce`.
-/

namespace List

variable {α : Type} [DecidableEq α]

/-- `str::split_once`: what stands before and after the first separator. -/
def splitOnce (c : α) : List α → Option (List α × List α)
  | [] => none
  | d :: s => if d = c then some ([], s) else (splitOnce c s).map fun (a, b) => (d :: a, b)

variable {c : α} {s : List α}

/-- The split is at the first separator. -/
theorem splitOnce_eq_some {a b : List α} :
    splitOnce c s = some (a, b) ↔ s = a ++ c :: b ∧ c ∉ a := by
  induction s generalizing a with
  | nil => simp [splitOnce]
  | cons d s ih =>
    rw [splitOnce]
    split_ifs with h
    · subst h
      cases a with
      | nil => simp [eq_comm]
      | cons e a =>
        refine ⟨fun he => by simp at he, ?_⟩
        rintro ⟨he, hd⟩
        rw [(List.cons.inj he).1] at hd
        exact absurd (.head _) hd
    · cases a with
      | nil => simp [h]
      | cons e a =>
        simp only [Option.map_eq_some_iff, Prod.exists, Prod.mk.injEq, List.cons.injEq,
          cons_append, mem_cons, not_or]
        constructor
        · rintro ⟨a', b', hs, ⟨rfl, rfl⟩, rfl⟩
          obtain ⟨rfl, hc⟩ := ih.1 hs
          exact ⟨⟨rfl, rfl⟩, Ne.symm h, hc⟩
        · rintro ⟨⟨rfl, rfl⟩, -, hc⟩
          exact ⟨a, b, ih.2 ⟨rfl, hc⟩, ⟨rfl, rfl⟩, rfl⟩

theorem splitOnce_eq_none (h : c ∉ s) : splitOnce c s = none := by
  cases hs : splitOnce c s with
  | none => rfl
  | some p =>
    obtain ⟨rfl, -⟩ := splitOnce_eq_some.1 hs
    simp at h

end List

abbrev Bytes := List UInt8

namespace Bytes

open List

/-- The `w` low bytes of `n`, least significant first. -/
def ofNat : (w : ℕ) → ℕ → Bytes
  | 0, _ => []
  | w + 1, n => UInt8.ofNat (n % 256) :: ofNat w (n / 256)

/-- The number a byte string spells, least significant byte first. -/
def toNat : Bytes → ℕ
  | [] => 0
  | b :: bs => b.toNat + 256 * toNat bs

/-- The bytes of a text that is ASCII. -/
def ofAscii (s : String) : Bytes := s.toList.map fun c => UInt8.ofNat c.toNat

/-- What stands between the separators. -/
def split (sep : UInt8) : Bytes → List Bytes
  | [] => [[]]
  | b :: bs =>
    if b = sep then [] :: split sep bs
    else
      match split sep bs with
      | [] => [[b]]
      | s :: ss => (b :: s) :: ss

/-- `bytes[offset..offset + len]`. -/
def slice (bytes : Bytes) (offset len : ℕ) : Option Bytes :=
  if offset + len ≤ bytes.length then some ((bytes.drop offset).take len) else none

/-- `bytes[offset..offset + data.len()].copy_from_slice(data)`. -/
def overwrite (bytes : Bytes) (offset : ℕ) (data : Bytes) : Option Bytes :=
  if offset + data.length ≤ bytes.length then
    some (bytes.take offset ++ data ++ bytes.drop (offset + data.length))
  else none

@[simp] theorem length_ofNat (w n : ℕ) : (ofNat w n).length = w := by
  induction w generalizing n with
  | zero => rfl
  | succ w ih => simp [ofNat, ih]

theorem toNat_lt (bs : Bytes) : toNat bs < 256 ^ bs.length := by
  induction bs with
  | nil => simp [toNat]
  | cons b bs ih =>
    have hb : b.toNat < 256 := b.toNat_lt
    simp only [toNat, length_cons, Nat.pow_succ]
    omega

/-- A number is read back modulo its width. -/
theorem toNat_ofNat (w n : ℕ) : toNat (ofNat w n) = n % 256 ^ w := by
  induction w generalizing n with
  | zero => simp [ofNat, toNat, Nat.mod_one]
  | succ w ih =>
    have hb : (UInt8.ofNat (n % 256)).toNat = n % 256 := by simp
    rw [ofNat, toNat, ih, hb, Nat.pow_succ, Nat.mul_comm (256 ^ w), Nat.mod_mul]

variable {bytes : Bytes} {offset len : ℕ}

theorem slice_eq_some (h : offset + len ≤ bytes.length) :
    slice bytes offset len = some ((bytes.drop offset).take len) := if_pos h

variable {out : Bytes}

theorem slice_length (h : slice bytes offset len = some out) : out.length = len := by
  unfold slice at h
  split at h
  · cases h; simp; omega
  · cases h

variable {b s : Bytes} {start : ℕ}

theorem slice_append {r : Bytes} (h : slice b start len = some s) :
    slice (b ++ r) start len = some s := by
  unfold slice at h ⊢
  split at h
  · next hle =>
      rw [if_pos (by rw [length_append]; omega),
        drop_append_of_le_length (by omega),
        take_append_of_le_length (by rw [length_drop]; omega)]
      exact h
  · cases h

theorem slice_take {k : ℕ} (h : start + len ≤ k) :
    slice (b.take k) start len = slice b start len := by
  unfold slice
  rw [length_take]
  by_cases hle : start + len ≤ b.length
  · rw [if_pos (by omega), if_pos hle, drop_take, take_take,
      Nat.min_eq_left (by omega)]
  · rw [if_neg (by omega), if_neg hle]

theorem slice_none (h : b.length < start + len) :
    slice b start len = none := if_neg (by omega)

theorem le_of_slice (h : slice b start len = some s) : start + len ≤ b.length := by
  unfold slice at h
  split at h
  · assumption
  · cases h

theorem slice_middle {pre post : Bytes} (hpre : pre.length = start)
    (hs : s.length = len) : slice (pre ++ s ++ post) start len = some s := by
  rw [slice_eq_some (by simp only [length_append]; omega), append_assoc,
    drop_left' hpre, take_left' hs]

/-- A slice of a slice. -/
theorem slice_slice {a k : ℕ} (h : slice bytes offset len = some out)
    (ha : a + k ≤ len) : slice bytes (offset + a) k = slice out a k := by
  have hlen := slice_length h
  unfold slice at h
  split at h
  · next hle =>
      cases h
      rw [slice_eq_some (by omega), slice_eq_some (by omega), drop_take, take_take,
        drop_drop, Nat.min_eq_left (by omega)]
  · cases h

/-- An overwrite of as many bytes. -/
theorem overwrite_middle {pre old data post : Bytes} (hpre : pre.length = offset)
    (hold : old.length = data.length) :
    overwrite (pre ++ old ++ post) offset data = some (pre ++ data ++ post) := by
  have htake : (pre ++ old ++ post).take offset = pre := by
    rw [append_assoc, take_left' hpre]
  have hdrop : (pre ++ old ++ post).drop (offset + data.length) = post :=
    drop_left' (by rw [length_append]; omega)
  rw [overwrite, if_pos (by simp only [length_append]; omega), htake, hdrop]

section Overwrite

variable {bytes data out : Bytes} {offset : ℕ}

variable (h : overwrite bytes offset data = some out)

include h

theorem overwrite_length : out.length = bytes.length := by
  unfold overwrite at h
  split at h
  · cases h
    simp only [length_append, length_take, length_drop]
    omega
  · cases h

/-- What was written is there. -/
theorem slice_overwrite : slice out offset data.length = some data := by
  unfold overwrite at h
  split at h
  · next hle =>
      cases h
      have ht : (bytes.take offset).length = offset := by rw [length_take]; omega
      rw [slice, if_pos (by simp only [length_append, length_drop]; omega),
        append_assoc, drop_left' ht, take_left]
  · cases h

/-- The rest is as it was. -/
theorem slice_overwrite_ne {a n : ℕ}
    (ha : a + n ≤ offset ∨ offset + data.length ≤ a) : slice out a n = slice bytes a n := by
  have hlen := overwrite_length h
  unfold overwrite at h
  split at h
  · next hle =>
      cases h
      unfold slice
      rw [hlen]
      split
      · have ht : (bytes.take offset).length = offset := by rw [length_take]; omega
        rcases ha with ha | ha
        · rw [append_assoc, drop_append_of_le_length (by omega),
            take_append_of_le_length (by rw [length_drop]; omega), drop_take,
            take_take, Nat.min_eq_left (by omega)]
        · have hd : (bytes.take offset ++ data).length = offset + data.length := by
            rw [length_append, ht]
          rw [drop_append, hd, drop_eq_nil_of_le (by omega), nil_append,
            drop_drop, Nat.add_sub_cancel' ha]
      · rfl
  · cases h

end Overwrite

/-! ### Splitting -/

section Split

variable {sep b : UInt8} {bs bs' : Bytes}

theorem split_ne_nil (sep : UInt8) (bs : Bytes) : split sep bs ≠ [] := by
  cases bs with
  | nil => simp [split]
  | cons b bs =>
    simp only [split]
    split_ifs
    · simp
    · split <;> simp

theorem split_cons_sep : split sep (sep :: bs) = [] :: split sep bs := if_pos rfl

theorem split_cons_ne (bs : Bytes) (h : b ≠ sep) :
    ∃ s ss, split sep bs = s :: ss ∧ split sep (b :: bs) = (b :: s) :: ss := by
  obtain ⟨s, ss, hs⟩ := exists_cons_of_ne_nil (split_ne_nil sep bs)
  exact ⟨s, ss, hs, by rw [split, if_neg h, hs]⟩

/-- The pieces with the separators between them. -/
theorem intercalate_split (sep : UInt8) (bs : Bytes) : [sep].intercalate (split sep bs) = bs := by
  induction bs with
  | nil => rfl
  | cons b bs ih =>
    by_cases hb : b = sep
    · subst hb
      obtain ⟨x, xs, hx⟩ := exists_cons_of_ne_nil (split_ne_nil b bs)
      rw [split_cons_sep]
      rw [hx] at ih ⊢
      simpa [List.intercalate, List.intersperse] using ih
    · obtain ⟨x, xs, hx, hs⟩ := split_cons_ne bs hb
      rw [hx] at ih
      rw [hs]
      cases xs <;> simpa [List.intercalate] using ih

/-- The pieces determine the bytes. -/
theorem split_inj (h : split sep bs = split sep bs') : bs = bs' := by
  rw [← intercalate_split sep bs, h, intercalate_split]

theorem mem_of_split (hs : s ∈ split sep bs) {c : UInt8} (hc : c ∈ s) : c ∈ bs := by
  induction bs generalizing s with
  | nil => simp [split] at hs; subst hs; cases hc
  | cons b bs ih =>
    by_cases hb : b = sep
    · subst hb
      rw [split_cons_sep] at hs
      rcases mem_cons.1 hs with rfl | hs
      · cases hc
      · exact .tail _ (ih hs hc)
    · obtain ⟨x, xs, hx, hsx⟩ := split_cons_ne bs hb
      rw [hsx] at hs
      rcases mem_cons.1 hs with rfl | hs
      · rcases mem_cons.1 hc with rfl | hc
        · exact .head _
        · exact .tail _ (ih (by rw [hx]; exact (.head _)) hc)
      · exact .tail _ (ih (by rw [hx]; exact .tail _ hs) hc)

theorem split_of_not_mem (h : sep ∉ bs) : split sep bs = [bs] := by
  induction bs with
  | nil => rfl
  | cons b bs ih =>
    have hb : b ≠ sep := fun h' => h (h' ▸ mem_cons_self)
    rw [split, if_neg hb, ih fun h' => h (.tail b h')]

theorem split_append (h : sep ∉ s) : split sep (s ++ sep :: bs) = s :: split sep bs := by
  induction s with
  | nil => exact split_cons_sep
  | cons b s ih =>
    have hb : b ≠ sep := fun h' => h (h' ▸ mem_cons_self)
    rw [cons_append, split, if_neg hb, ih fun h' => h (.tail b h')]

/-- The first piece, and what comes after it. -/
theorem split_cases (sep : UInt8) (bs : Bytes) :
    sep ∉ bs ∨ ∃ s rest, sep ∉ s ∧ bs = s ++ sep :: rest := by
  by_cases h : sep ∈ bs
  · obtain ⟨s, rest, rfl, hs⟩ := eq_append_cons_of_mem h
    exact .inr ⟨s, rest, hs, rfl⟩
  · exact .inl h

theorem not_mem_of_mem_split (hs : s ∈ split sep bs) : sep ∉ s := by
  induction bs generalizing s with
  | nil =>
    rw [mem_singleton.1 hs]
    exact not_mem_nil
  | cons b bs ih =>
    by_cases hb : b = sep
    · subst hb
      rw [split_cons_sep] at hs
      rcases mem_cons.1 hs with rfl | hs
      · exact not_mem_nil
      · exact ih hs
    · obtain ⟨x, xs, hx, hsx⟩ := split_cons_ne bs hb
      rw [hsx] at hs
      rcases mem_cons.1 hs with rfl | hs
      · rintro h
        rcases mem_cons.1 h with rfl | h
        · exact hb rfl
        · exact ih (hx ▸ mem_cons_self) h
      · exact ih (hx ▸ mem_cons_of_mem x hs)

/-- An empty last piece is after a separator. -/
theorem getLast_of_split (xs : List Bytes) (hxs : xs ≠ []) (h : split sep bs = xs ++ [[]]) :
    bs.getLast? = some sep := by
  induction bs generalizing xs with
  | nil =>
    obtain ⟨x, xs, rfl⟩ := exists_cons_of_ne_nil hxs
    obtain ⟨-, h⟩ := List.cons.inj h
    exact absurd h.symm (append_ne_nil_of_right_ne_nil xs (cons_ne_nil _ _))
  | cons b bs ih =>
    obtain ⟨x, xs, rfl⟩ := exists_cons_of_ne_nil hxs
    have hlast : bs.getLast? = some sep → (b :: bs).getLast? = some sep := by
      intro hl
      rw [getLast?_cons, hl]
      rfl
    by_cases hb : b = sep
    · subst hb
      rw [split_cons_sep] at h
      obtain ⟨-, h⟩ := List.cons.inj h
      by_cases hx : xs = []
      · rw [hx] at h
        rw [split_inj (h.trans (rfl : _ = split b []))]
        rfl
      · exact hlast (ih xs hx h)
    · obtain ⟨y, ys, hy, hs⟩ := split_cons_ne bs hb
      rw [hs] at h
      obtain ⟨-, h⟩ := List.cons.inj h
      exact hlast (ih (y :: xs) (cons_ne_nil y xs) (by rw [hy, h]; rfl))

end Split

end Bytes
