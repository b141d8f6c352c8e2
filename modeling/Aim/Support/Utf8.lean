import Aim.Support.Bytes

/-!
# Support — UTF-8

Decoding of byte strings as the standard library does it: `first` tells whether a string starts with
a character and how many bytes that is, or how many bytes the malformed start has; `valid` is
`str::from_utf8`, and `lossy` is `String::from_utf8_lossy`, which puts U+FFFD in the place of each
malformed part; `chars` gives its characters.  `encode` and `ofChars` are the bytes of characters,
which `chars` reads back.
-/

namespace Utf8

open List UInt8

/-- A continuation byte; past the end there is none. -/
def continues (bs : Bytes) (i : ℕ) : Bool := (bs.getD i 0) &&& 0xc0 == 0x80

/-- The bytes that may follow the first of a character of three or four. -/
def follows (b c : UInt8) : Bool :=
  if b == 0xe0 then 0xa0 ≤ c && c ≤ 0xbf
  else if b == 0xed then 0x80 ≤ c && c ≤ 0x9f
  else if b == 0xf0 then 0x90 ≤ c && c ≤ 0xbf
  else if b == 0xf4 then 0x80 ≤ c && c ≤ 0x8f
  else 0x80 ≤ c && c ≤ 0xbf

/-- The character a string of bytes starts with, if it does, and the bytes to go on after. -/
def first : Bytes → Bool × ℕ
  | [] => (true, 1)
  | b :: bs =>
    if b < 0x80 then (true, 1)
    else if 0xc2 ≤ b && b ≤ 0xdf then
      if continues bs 0 then (true, 2) else (false, 1)
    else if 0xe0 ≤ b && b ≤ 0xef then
      if !follows b (bs.getD 0 0) then (false, 1)
      else if !continues bs 1 then (false, 2) else (true, 3)
    else if 0xf0 ≤ b && b ≤ 0xf4 then
      if !follows b (bs.getD 0 0) then (false, 1)
      else if !continues bs 1 then (false, 2)
      else if !continues bs 2 then (false, 3) else (true, 4)
    else (false, 1)

/-- Whether the first `n` parts of the string are characters. -/
def validTo : ℕ → Bytes → Bool
  | 0, _ => true
  | _ + 1, [] => true
  | n + 1, b :: bs =>
    let (ok, k) := first (b :: bs)
    ok && validTo n ((b :: bs).drop k)

/-- `str::from_utf8` accepts it. -/
def valid (bs : Bytes) : Bool := validTo bs.length bs

/-- U+FFFD. -/
def replacement : Bytes := [0xef, 0xbf, 0xbd]

def lossyTo : ℕ → Bytes → Bytes
  | 0, _ => []
  | _ + 1, [] => []
  | n + 1, b :: bs =>
    let (ok, k) := first (b :: bs)
    (if ok then (b :: bs).take k else replacement) ++ lossyTo n ((b :: bs).drop k)

/-- `String::from_utf8_lossy`. -/
def lossy (bs : Bytes) : Bytes := lossyTo bs.length bs

/-- The character that well-formed bytes encode. -/
def code : Bytes → Char
  | [a] => Char.ofNat a.toNat
  | [a, b] => Char.ofNat (a.toNat % 32 * 64 + b.toNat % 64)
  | [a, b, c] => Char.ofNat ((a.toNat % 16 * 64 + b.toNat % 64) * 64 + c.toNat % 64)
  | [a, b, c, d] =>
    Char.ofNat (((a.toNat % 8 * 64 + b.toNat % 64) * 64 + c.toNat % 64) * 64 + d.toNat % 64)
  | _ => '\uFFFD'

def charsTo : ℕ → Bytes → List Char
  | 0, _ => []
  | _ + 1, [] => []
  | n + 1, b :: bs =>
    let (ok, k) := first (b :: bs)
    (if ok then code ((b :: bs).take k) else '\uFFFD') :: charsTo n ((b :: bs).drop k)

/-- The characters of `String::from_utf8_lossy`. -/
def chars (bs : Bytes) : List Char := charsTo bs.length bs

/-- The UTF-8 bytes of a character. -/
def encode (c : Char) : Bytes :=
  let n := c.toNat
  if n < 0x80 then [UInt8.ofNat n]
  else if n < 0x800 then [UInt8.ofNat (0xc0 + n / 64), UInt8.ofNat (0x80 + n % 64)]
  else if n < 0x10000 then
    [UInt8.ofNat (0xe0 + n / 4096), UInt8.ofNat (0x80 + n / 64 % 64), UInt8.ofNat (0x80 + n % 64)]
  else
    [UInt8.ofNat (0xf0 + n / 262144), UInt8.ofNat (0x80 + n / 4096 % 64),
      UInt8.ofNat (0x80 + n / 64 % 64), UInt8.ofNat (0x80 + n % 64)]

/-- The bytes of a string. -/
def ofChars (s : List Char) : Bytes := s.flatMap encode

theorem first_pos (bs : Bytes) : 0 < (first bs).2 := by
  cases bs with
  | nil => exact Nat.one_pos
  | cons b bs => simp only [first]; split_ifs <;> simp

variable {n : ℕ} {bs : Bytes}

theorem lossyTo_of_validTo (hn : bs.length ≤ n) (h : validTo n bs = true) : lossyTo n bs = bs := by
  induction n generalizing bs with
  | zero => rw [length_eq_zero_iff.1 (Nat.le_zero.1 hn)]; rfl
  | succ n ih =>
    cases bs with
    | nil => rfl
    | cons b bs =>
      simp only [validTo, Bool.and_eq_true] at h
      have hpos := first_pos (b :: bs)
      have hlen : ((b :: bs).drop (first (b :: bs)).2).length ≤ n := by
        rw [length_drop]
        omega
      simp only [lossyTo, h.1, if_true, ih hlen h.2, take_append_drop]

/-- What is valid stays as it is. -/
theorem lossy_of_valid (h : valid bs = true) : lossy bs = bs :=
  lossyTo_of_validTo (Nat.le_refl _) h

/-- ASCII is valid. -/
theorem valid_of_ascii (h : ∀ b ∈ bs, b < 0x80) : valid bs = true := by
  unfold valid
  induction bs with
  | nil => rfl
  | cons b bs ih =>
    have hb : b < 0x80 := h b (.head _)
    simp only [length_cons, validTo, first, hb, if_true, Bool.true_and, drop_succ_cons,
      drop_zero]
    exact ih fun c hc => h c (.tail _ hc)

/-! ### Characters and their bytes -/

theorem toNat_ofNat (h : n < 256) : (UInt8.ofNat n).toNat = n := by
  rw [toNat_ofNat', Nat.mod_eq_of_lt h]

theorem continues_of {i k : ℕ} (h : bs.getD i 0 = UInt8.ofNat (0x80 + k))
    (hk : k < 64) : continues bs i = true := by
  have hall : ∀ k : Fin 64, (UInt8.ofNat (0x80 + k.1) &&& 0xc0 == 0x80) = true := by decide
  rw [continues, h]
  exact hall ⟨k, hk⟩

/-- The second byte of a character is one that may follow. -/
theorem follows_ofNat {m k : ℕ} (hm : m < 256) (hk : k < 64) (h₁ : m = 0xe0 → 32 ≤ k)
    (h₂ : m = 0xed → k < 32) (h₃ : m = 0xf0 → 16 ≤ k) (h₄ : m = 0xf4 → k < 16) :
    follows (UInt8.ofNat m) (UInt8.ofNat (0x80 + k)) = true := by
  have hb : (UInt8.ofNat m).toNat = m := toNat_ofNat hm
  have hc : (UInt8.ofNat (0x80 + k)).toNat = 0x80 + k := toNat_ofNat (by omega)
  simp only [follows, beq_iff_eq, ← UInt8.toNat_inj, UInt8.le_iff_toNat_le, hb, hc,
    UInt8.reduceToNat]
  split_ifs with a b c d
  · simp only [Bool.and_eq_true, decide_eq_true_eq]
    omega
  · simp only [Bool.and_eq_true, decide_eq_true_eq]
    omega
  · simp only [Bool.and_eq_true, decide_eq_true_eq]
    omega
  · simp only [Bool.and_eq_true, decide_eq_true_eq]
    omega
  · simp only [Bool.and_eq_true, decide_eq_true_eq]
    omega

theorem first_encode (c : Char) (bs : Bytes) :
    first (encode c ++ bs) = (true, (encode c).length) := by
  have hc : c.toNat < 0xd800 ∨ 0xdfff < c.toNat ∧ c.toNat < 0x110000 := c.valid
  rw [encode]
  generalize c.toNat = n at hc
  have hrefute : ∀ {b : Bool}, b = true → ¬ (!b) = true := fun hb => by rw [hb]; decide
  split_ifs with h₁ h₂ h₃
  · have hn : (UInt8.ofNat n).toNat = n := toNat_ofNat (by omega)
    have hlt : UInt8.ofNat n < 0x80 := lt_iff_toNat_lt.2 (by rw [hn]; exact h₁)
    simp [first, hlt]
  · have hn : (UInt8.ofNat (0xc0 + n / 64)).toNat = 0xc0 + n / 64 := toNat_ofNat (by omega)
    rw [cons_append, first, if_neg, if_pos, if_pos]
    · rfl
    · exact continues_of rfl (by omega)
    · simp only [le_iff_toNat_le, hn, Bool.and_eq_true, decide_eq_true_eq,
        UInt8.reduceToNat]
      omega
    · simp only [lt_iff_toNat_lt, hn, UInt8.reduceToNat]
      omega
  · have hn : (UInt8.ofNat (0xe0 + n / 4096)).toNat = 0xe0 + n / 4096 := toNat_ofNat (by omega)
    have hf : follows (UInt8.ofNat (0xe0 + n / 4096)) (UInt8.ofNat (0x80 + n / 64 % 64)) = true :=
      follows_ofNat (by omega) (by omega) (by omega) (by omega) (by omega) (by omega)
    rw [cons_append, first, if_neg, if_neg, if_pos, if_neg, if_neg]
    · rfl
    · exact hrefute (continues_of rfl (by omega))
    · exact hrefute hf
    · simp only [le_iff_toNat_le, hn, Bool.and_eq_true, decide_eq_true_eq,
        UInt8.reduceToNat]
      omega
    · simp only [le_iff_toNat_le, hn, Bool.and_eq_true, decide_eq_true_eq,
        UInt8.reduceToNat]
      omega
    · simp only [lt_iff_toNat_lt, hn, UInt8.reduceToNat]
      omega
  · have hn : (UInt8.ofNat (0xf0 + n / 262144)).toNat = 0xf0 + n / 262144 :=
      toNat_ofNat (by omega)
    have hf : follows (UInt8.ofNat (0xf0 + n / 262144)) (UInt8.ofNat (0x80 + n / 4096 % 64)) =
        true := follows_ofNat (by omega) (by omega) (by omega) (by omega) (by omega) (by omega)
    rw [cons_append, first, if_neg, if_neg, if_neg, if_pos, if_neg, if_neg, if_neg]
    · rfl
    · exact hrefute (continues_of rfl (by omega))
    · exact hrefute (continues_of rfl (by omega))
    · exact hrefute hf
    all_goals
      simp only [le_iff_toNat_le, lt_iff_toNat_lt, hn, Bool.and_eq_true,
        decide_eq_true_eq, UInt8.reduceToNat]
      omega

theorem code_encode (c : Char) : code (encode c) = c := by
  have hc : c.toNat < 0xd800 ∨ 0xdfff < c.toNat ∧ c.toNat < 0x110000 := c.valid
  refine Eq.trans ?_ (Char.ofNat_toNat c)
  rw [encode]
  split_ifs with h₁ h₂ h₃
  · rw [code, toNat_ofNat (by omega)]
  · rw [code, toNat_ofNat (by omega), toNat_ofNat (by omega)]
    refine congrArg Char.ofNat ?_
    omega
  · rw [code, toNat_ofNat (by omega), toNat_ofNat (by omega), toNat_ofNat (by omega)]
    refine congrArg Char.ofNat ?_
    omega
  · rw [code, toNat_ofNat (by omega), toNat_ofNat (by omega), toNat_ofNat (by omega),
      toNat_ofNat (by omega)]
    refine congrArg Char.ofNat ?_
    omega

theorem encode_ne_nil (c : Char) : encode c ≠ [] := by
  rw [encode]
  split_ifs <;> exact cons_ne_nil _ _

variable {s : List Char}

theorem charsTo_ofChars (hn : (ofChars s).length ≤ n) : charsTo n (ofChars s) = s := by
  induction s generalizing n with
  | nil =>
    cases n <;> rfl
  | cons c s ih =>
    have hcons : ofChars (c :: s) = encode c ++ ofChars s := flatMap_cons
    obtain ⟨b, bs, hb⟩ := exists_cons_of_ne_nil (encode_ne_nil c)
    have hfirst := first_encode c (ofChars s)
    rw [hcons, length_append] at hn
    have hpos : 0 < (encode c).length := length_pos_iff.2 (encode_ne_nil c)
    obtain ⟨m, rfl⟩ := Nat.exists_eq_add_of_lt (show 0 < n by omega)
    rw [hcons]
    rw [hb, cons_append] at hfirst ⊢
    rw [charsTo, hfirst]
    simp only [if_true]
    rw [← cons_append, ← hb, take_left, drop_left, code_encode, ih (by omega)]

/-- The bytes of a character beyond ASCII are not ASCII. -/
theorem toNat_of_mem_encode {c : Char} {b : UInt8} (h : b ∈ encode c) (hb : b.toNat < 0x80) :
    c.toNat = b.toNat := by
  have hc : c.toNat < 0xd800 ∨ 0xdfff < c.toNat ∧ c.toNat < 0x110000 := c.valid
  rw [encode] at h
  split_ifs at h <;> simp only [mem_cons, not_mem_nil, or_false] at h
  · rw [h, toNat_ofNat (by omega)]
  · rcases h with h | h <;> rw [h, toNat_ofNat (by omega)] at hb <;> omega
  · rcases h with h | h | h <;> rw [h, toNat_ofNat (by omega)] at hb <;> omega
  · rcases h with h | h | h | h <;> rw [h, toNat_ofNat (by omega)] at hb <;> omega

theorem not_mem_ofChars {c : Char} (hc : c.toNat < 0x80) (h : c ∉ s) :
    UInt8.ofNat c.toNat ∉ ofChars s := by
  intro hb
  obtain ⟨d, hd, hb⟩ := mem_flatMap.1 hb
  have hn : (UInt8.ofNat c.toNat).toNat = c.toNat := toNat_ofNat (by omega)
  have := toNat_of_mem_encode hb (by omega)
  rw [hn] at this
  exact h (Char.toNat_inj.1 this ▸ hd)

/-- A string is read back from its bytes. -/
theorem chars_ofChars (s : List Char) : chars (ofChars s) = s := charsTo_ofChars (Nat.le_refl _)

end Utf8
