import Aim.Props.Area

/-!
# Props — Legal names and values

`props/mod`: `is_legal_property_name`, `is_legal_property_value` and `check_type`, with the number
parsers of `libbase` that the types use.  Texts are their UTF-8 bytes; the parser of floating-point
numbers, which is the host's, is a parameter.

A legal name is ASCII with no zero byte, and none of its segments is empty.
-/

namespace Aim.Props

/-! ### Names and values -/

def isAsciiDigit (b : UInt8) : Bool := 48 ≤ b && b ≤ 57

def isAsciiAlphanumeric (b : UInt8) : Bool :=
  isAsciiDigit b || (65 ≤ b && b ≤ 90) || (97 ≤ b && b ≤ 122)

/-- The bytes after `prev` are legal: no doubled dot, and nothing but `[A-Za-z0-9_.@:-]`. -/
def legalAfter : (prev : UInt8) → Bytes → Bool
  | _, [] => true
  | prev, b :: bs =>
    if b = 46 then prev != 46 && legalAfter b bs
    else (b == 95 || b == 45 || b == 64 || b == 58 || isAsciiAlphanumeric b) && legalAfter b bs

def isLegalPropertyName (name : Bytes) : Bool :=
  match name with
  | [] => false
  | b :: bs => b != 46 && (b :: bs).getLast? != some 46 && legalAfter 0 (b :: bs)

/-- The bytes before the first zero byte. -/
def untilNul (value : Bytes) : Bytes := value.takeWhile (· != 0)

def isLegalPropertyValue (name value : Bytes) : Except Bytes Unit :=
  if value.length ≥ PROP_VALUE_MAX ∧ ¬ RO_PREFIX.isPrefixOf name then
    .error (.ofAscii "Property value too long")
  else if ¬ Utf8.valid (untilNul value) then
    .error (.ofAscii "Value is not a UTF8 encoded string")
  else .ok ()

/-! ### Numbers -/

def isCSpace (b : UInt8) : Bool :=
  b == 32 || b == 9 || b == 10 || b == 11 || b == 12 || b == 13

def skipCSpace (s : Bytes) : Bytes := s.dropWhile isCSpace

/-- `char::to_digit`. -/
def toDigit (base : ℕ) (b : UInt8) : Option ℕ :=
  let d :=
    if isAsciiDigit b then b.toNat - 48
    else if 97 ≤ b && b ≤ 122 then b.toNat - 97 + 10
    else if 65 ≤ b && b ≤ 90 then b.toNat - 65 + 10
    else base
  if d < base then some d else none

def hexPrefix (s : Bytes) : Bool :=
  (Bytes.ofAscii "0x").isPrefixOf s || (Bytes.ofAscii "0X").isPrefixOf s

/-- The digits, far past any target type at `none`. -/
def accumulate (base : ℕ) : (value : ℕ) → Bytes → Option ℕ
  | value, [] => some value
  | value, b :: bs =>
    match toDigit base b with
    | none => none
    | some d =>
      let value := value * base + d
      if value > (2 ^ 64 - 1) * 2 then none else accumulate base value bs

/-- The magnitude, and whether the whole input was consumed. -/
def scanDigits (s : Bytes) (base : ℕ) : Option (ℕ × Bool) :=
  let digits :=
    if base = 16 ∧ hexPrefix s ∧ ((s.drop 2).head?.bind (toDigit 16)).isSome then s.drop 2 else s
  let taken := digits.takeWhile fun b => (toDigit base b).isSome
  if taken = [] then none
  else (accumulate base 0 taken).map (·, taken.length == digits.length)

def parseInt (s : Bytes) (min max : ℤ) : Option ℤ :=
  let s := skipCSpace s
  let base := if hexPrefix s then 16 else 10
  let body := skipCSpace s
  let negative := body.head? == some 45
  let body := if body.head? = some 45 ∨ body.head? = some 43 then body.tail else body
  match scanDigits body base with
  | none => none
  | some (magnitude, complete) =>
    let value : ℤ := if negative then -magnitude else magnitude
    if complete ∧ -2 ^ 63 ≤ value ∧ value < 2 ^ 63 ∧ min ≤ value ∧ value ≤ max then some value
    else none

def parseUint (s : Bytes) (max : ℕ) : Option ℕ :=
  let s := skipCSpace s
  if s.head? = some 45 then none
  else
    let base := if hexPrefix s then 16 else 10
    let body := if s.head? = some 43 then s.tail else s
    match scanDigits body base with
    | none => none
    | some (value, complete) => if complete ∧ value < 2 ^ 64 ∧ value ≤ max then some value else none

/-! ### Types -/

/-- The digits of a size, and its unit. -/
def isSize (value : Bytes) : Bool :=
  let digits := value.takeWhile isAsciiDigit
  match value.drop digits.length with
  | [unit] => digits != [] && (unit == 103 || unit == 107 || unit == 109)
  | _ => false

def checkType (parseDouble : Bytes → Bool) (typeString value : Bytes) : Bool :=
  if value = [] then true
  else
    let typeStrings := typeString.split 32
    let kind := typeStrings.headD []
    if kind = .ofAscii "string" then true
    else if kind = .ofAscii "bool" then
      value == .ofAscii "true" || value == .ofAscii "false" || value == .ofAscii "1" ||
        value == .ofAscii "0"
    else if kind = .ofAscii "int" then (parseInt value (-2 ^ 63) (2 ^ 63 - 1)).isSome
    else if kind = .ofAscii "uint" then
      value.head? != some 45 && (parseUint value (2 ^ 64 - 1)).isSome
    else if kind = .ofAscii "double" then parseDouble value
    else if kind = .ofAscii "size" then isSize value
    else if kind = .ofAscii "enum" then typeStrings.tail.contains value
    else false

example : parseInt (.ofAscii " -3") (-2 ^ 63) (2 ^ 63 - 1) = some (-3) := by decide +kernel

example : parseInt (.ofAscii "-0x10") (-2 ^ 63) (2 ^ 63 - 1) = none := by decide +kernel

/-! ### What is legal -/

section Legal

variable {name : Bytes} {prev : UInt8} {bs : Bytes}

theorem legalAfter_ascii (h : legalAfter prev bs = true) : ∀ c ∈ bs, c ≠ 0 ∧ c < 0x80 := by
  induction bs generalizing prev with
  | nil => nofun
  | cons b bs ih =>
    have hb : (b ≠ 0 ∧ b < 0x80) ∧ legalAfter b bs = true := by
      simp only [legalAfter] at h
      split_ifs at h with hd
      · subst hd
        exact ⟨by decide, (Bool.and_eq_true_iff.1 h).2⟩
      obtain ⟨h, hl⟩ := Bool.and_eq_true_iff.1 h
      refine ⟨?_, hl⟩
      simp [isAsciiAlphanumeric, isAsciiDigit, ← UInt8.toNat_inj, UInt8.le_iff_toNat_le] at h
      rw [Ne, ← UInt8.toNat_inj, UInt8.lt_iff_toNat_lt]
      exact ⟨fun h0 => by simp at h0; omega, by simp; omega⟩
    intro c hc
    rcases List.mem_cons.1 hc with rfl | hc
    · exact hb.1
    · exact ih hb.2 c hc

/-- After a dot every segment has a byte, before the first one every other segment. -/
theorem legalAfter_segments (h : legalAfter prev bs = true)
    (hlast : (prev :: bs).getLast? ≠ some 46) :
    (∀ s ∈ (segments bs).tail, s ≠ []) ∧ (prev = 46 → ∀ s ∈ segments bs, s ≠ []) := by
  induction bs generalizing prev with
  | nil => exact ⟨nofun, fun hp => absurd (congrArg some hp) hlast⟩
  | cons b bs ih =>
    simp only [legalAfter] at h
    split_ifs at h with hb
    · subst hb
      obtain ⟨hp, hl⟩ := Bool.and_eq_true_iff.1 h
      exact ⟨(ih hl hlast).2 rfl, fun he => absurd he (by simpa using hp)⟩
    obtain ⟨-, hl⟩ := Bool.and_eq_true_iff.1 h
    obtain ⟨x, xs, hx, hs⟩ := Bytes.split_cons_ne bs hb
    have htail := (ih hl hlast).1
    rw [segments, hx] at htail
    rw [segments, hs]
    refine ⟨htail, fun _ s hs => ?_⟩
    rcases List.mem_cons.1 hs with rfl | hs
    · exact List.cons_ne_nil _ _
    · exact htail s hs

/-- The bytes of a legal name. -/
theorem ascii_of_legal (h : isLegalPropertyName name = true) : ∀ c ∈ name, c ≠ 0 ∧ c < 0x80 := by
  cases name with
  | nil => cases h
  | cons b bs => exact legalAfter_ascii (Bool.and_eq_true_iff.1 h).2

/-- The segments of a legal name. -/
theorem segments_of_legal (h : isLegalPropertyName name = true) :
    ∀ s ∈ segments name, s ≠ [] ∧ ∀ c ∈ s, c ≠ 0 := by
  have hascii := ascii_of_legal h
  intro s hs
  refine ⟨?_, fun c hc => (hascii c (Bytes.mem_of_split hs hc)).1⟩
  cases name with
  | nil => cases h
  | cons b bs =>
    obtain ⟨hb, hl⟩ := Bool.and_eq_true_iff.1 h
    obtain ⟨hb, hlast⟩ := Bool.and_eq_true_iff.1 hb
    refine (legalAfter_segments (?_ : legalAfter 46 (b :: bs) = true) ?_).2 rfl s hs
    · simpa [legalAfter, (by simpa using hb : b ≠ 46)] using hl
    · simpa using hlast

end Legal

end Aim.Props
