import Aim.Support.Bytes

/-!
# Support — Decoding what has arrived so far

A decoder that is run again from the start whenever more bytes have arrived: it asks for more, is
done, or refuses.  Such a decoder is steady when it takes each decision on exactly the bytes that
determine it: more bytes change nothing once it has decided, and a request is complete with its last
byte and not before.

* `need`: the decoder asks for a run of bytes and goes on with them; `Steady.need` is the rule for
  it, and `Steady.complete`, `Steady.reject` those for its ends.
* `feed`: the loop around a decoder.  `feed_eq`: over a steady decoder, it comes to what the decoder
  says of all the bytes, however they were cut.
-/

/-- The result of decoding what has been received so far. -/
inductive Decoded (ε α : Type) where
  /-- More bytes are needed. -/
  | incomplete
  /-- A full request and the number of bytes it used. -/
  | complete (request : α) (used : ℕ)
  | reject (code : ε)
  deriving DecidableEq

namespace Decoded

variable {ε α : Type}

/-- The decoder goes on with `len` bytes at `start`, once they are there. -/
def need (start len : ℕ) (k : Bytes → Bytes → Decoded ε α) (bytes : Bytes) : Decoded ε α :=
  match bytes.slice start len with
  | none => .incomplete
  | some s => k s bytes

/-- What a decoder makes of the bytes, given that it has looked at those before `start`. -/
structure Steady (start : ℕ) (dec : Bytes → Decoded ε α) : Prop where
  /-- Bytes that arrive later do not change a decision. -/
  stable : ∀ b r, start ≤ b.length → dec b ≠ .incomplete → dec (b ++ r) = dec b
  /-- A complete request is complete with its last byte. -/
  exact_end : ∀ b a n, start ≤ b.length → dec b = .complete a n →
    start ≤ n ∧ n ≤ b.length ∧ ∀ k, start ≤ k → k < n → dec (b.take k) = .incomplete

theorem Steady.reject (start : ℕ) (e : ε) : Steady start fun _ => (.reject e : Decoded ε α) where
  stable _ _ _ _ := rfl
  exact_end _ _ _ _ h := by cases h

theorem Steady.complete (start : ℕ) (a : α) :
    Steady start fun _ => (.complete a start : Decoded ε α) where
  stable _ _ _ _ := rfl
  exact_end b a' n hb h := by
    cases h
    exact ⟨Nat.le_refl _, hb, fun k hk hlt => absurd hk (by omega)⟩

variable {k : Bytes → Bytes → Decoded ε α}

/-- The decoder may ask for a run of bytes and go on behind it. -/
theorem Steady.need {start len : ℕ}
    (hk : ∀ s, Steady (start + len) (k s)) : Steady start (need start len k) where
  stable b r hb hne := by
    unfold Decoded.need at hne ⊢
    cases hs : b.slice start len with
    | none => rw [hs] at hne; exact absurd rfl hne
    | some s =>
      rw [hs] at hne
      rw [Bytes.slice_append hs]
      exact (hk s).stable b r (Bytes.le_of_slice hs) hne
  exact_end b a n hb h := by
    unfold Decoded.need at h
    cases hs : b.slice start len with
    | none => rw [hs] at h; cases h
    | some s =>
      rw [hs] at h
      obtain ⟨h₁, h₂, h₃⟩ := (hk s).exact_end b a n (Bytes.le_of_slice hs) h
      refine ⟨by omega, h₂, fun j hj hlt => ?_⟩
      unfold Decoded.need
      by_cases hjs : start + len ≤ j
      · rw [Bytes.slice_take hjs, hs]
        exact h₃ j hjs hlt
      · rw [Bytes.slice_none (by rw [List.length_take]; omega)]

/-- The bytes asked for, where they stand. -/
theorem need_middle {start len : ℕ} {bytes pre s post : Bytes} (hb : bytes = pre ++ s ++ post)
    (hpre : pre.length = start) (hs : s.length = len) : need start len k bytes = k s bytes := by
  rw [need, hb, Bytes.slice_middle hpre hs]

/-! ### The loop around a decoder -/

/-- The decoder is run on the bytes received so far until it decides or nothing more comes. -/
def feed (dec : Bytes → Decoded ε α) : Bytes → List Bytes → Decoded ε α
  | bytes, [] => dec bytes
  | bytes, chunk :: chunks =>
    match dec bytes with
    | .incomplete => feed dec (bytes ++ chunk) chunks
    | decided => decided

/-- However the bytes are cut, the loop comes to what the decoder says of all of them. -/
theorem feed_eq {dec : Bytes → Decoded ε α} (h : Steady 0 dec) (bytes : Bytes)
    (chunks : List Bytes) : feed dec bytes chunks = dec (bytes ++ chunks.flatten) := by
  induction chunks generalizing bytes with
  | nil => rw [feed, List.flatten_nil, List.append_nil]
  | cons chunk chunks ih =>
    have hrest : dec bytes ≠ .incomplete → dec bytes = dec (bytes ++ (chunk :: chunks).flatten) :=
      fun hne => (h.stable bytes _ (Nat.zero_le _) hne).symm
    rw [feed]
    cases hd : dec bytes with
    | incomplete => rw [ih, List.flatten_cons, List.append_assoc]
    | complete a n => rw [hd] at hrest; exact hrest nofun
    | reject e => rw [hd] at hrest; exact hrest nofun

end Decoded
