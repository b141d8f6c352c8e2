import Aim.Support.Bytes

/-!
# Support — Numerals

Numbers printed in a base up to 16, and the parsers of the standard library: digits after an
optional sign, refused if there are none or if the number is too large.

* `print`, `value`, `value_print`: a numeral and its value.
* `parseNat`, `parseInt`: what the parsers accept.
-/

namespace Numerals

def digitByte (d : ℕ) : UInt8 := UInt8.ofNat (Nat.digitChar d).toNat

/-- The numeral of `n`, in lower case and without leading zeros. -/
def print (base n : ℕ) : Bytes := (Nat.toDigits base n).map fun c => UInt8.ofNat c.toNat

/-- The value of a digit, of either case. -/
def digit (b : UInt8) : Option ℕ :=
  let n := b.toNat
  if 48 ≤ n ∧ n ≤ 57 then some (n - 48)
  else if 97 ≤ n ∧ n ≤ 102 then some (n - 87)
  else if 65 ≤ n ∧ n ≤ 70 then some (n - 55)
  else none

/-- A digit of `base`. -/
def digitOf (base : ℕ) (b : UInt8) : Option ℕ := (digit b).filter (· < base)

/-- The value of digits. -/
def value (base : ℕ) (bs : Bytes) : Option ℕ :=
  bs.foldlM (fun n b => (digitOf base b).map (n * base + ·)) 0

/-- Digits after an optional `+`, below `limit`. -/
def parseNat (base limit : ℕ) (text : Bytes) : Option ℕ :=
  let digits := match text with
    | 43 :: ds => ds
    | ds => ds
  if digits = [] then none else (value base digits).filter (· < limit)

/-- Decimal digits, and their sign, in the range of an `i32`. -/
def signed (negative : Bool) (digits : Bytes) : Option ℤ :=
  if digits = [] then none
  else
    (value 10 digits).bind fun n =>
      let v : ℤ := if negative then -n else n
      if -2 ^ 31 ≤ v ∧ v < 2 ^ 31 then some v else none

/-- Decimal digits after an optional sign. -/
def parseI32 (text : Bytes) : Option ℤ :=
  match text with
  | 45 :: ds => signed true ds
  | 43 :: ds => signed false ds
  | ds => signed false ds

/-- The decimal numeral of an integer. -/
def printInt (v : ℤ) : Bytes :=
  if v < 0 then 45 :: print 10 v.natAbs else print 10 v.natAbs

/-! ### Digits -/

theorem digit_digitByte {d : ℕ} (hd : d < 16) : digit (digitByte d) = some d := by
  interval_cases d <;> rfl

theorem digitOf_digitByte {base d : ℕ} (hb : base ≤ 16) (hd : d < base) :
    digitOf base (digitByte d) = some d := by
  rw [digitOf, digit_digitByte (Nat.lt_of_lt_of_le hd hb)]
  exact Option.filter_some_pos (decide_eq_true hd)

variable {base : ℕ}

/-- The last digit comes off the end. -/
theorem print_cases (hb : 2 ≤ base) (n : ℕ) : ∃ d < base, ∃ pre : Bytes,
    print base n = pre ++ [digitByte d] ∧
      (n = d ∧ pre = [] ∨ n = n / base * base + d ∧ n / base < n ∧ pre = print base (n / base)) := by
  by_cases h : n < base
  · exact ⟨n, h, [], by simp [print, digitByte, Nat.toDigits_of_lt_base h], .inl ⟨rfl, rfl⟩⟩
  · have hpos : 0 < n := by omega
    refine ⟨n % base, Nat.mod_lt _ (by omega), print base (n / base), ?_,
      .inr ⟨(Nat.div_add_mod' n base).symm, Nat.div_lt_self hpos hb, rfl⟩⟩
    simp [print, digitByte, Nat.toDigits_of_base_le (b := base) (by omega) (Nat.le_of_not_lt h)]

theorem print_ne_nil (base n : ℕ) : print base n ≠ [] := by
  simp [print, Nat.toDigits_ne_nil]

variable {n : ℕ} {b : UInt8}

/-- The bytes of a numeral are digits. -/
theorem mem_print (hb : 2 ≤ base) (h : b ∈ print base n) : ∃ d < base, b = digitByte d := by
  induction n using Nat.strongRecOn with
  | ind n ih =>
    obtain ⟨d, hd, pre, he, hpre⟩ := print_cases hb n
    rw [he, List.mem_append, List.mem_singleton] at h
    rcases h with h | h
    · rcases hpre with ⟨-, rfl⟩ | ⟨-, hlt, rfl⟩
      · cases h
      · exact ih _ hlt h
    · exact ⟨d, hd, h⟩

/-- A numeral reads back. -/
theorem value_print (hb : 2 ≤ base) (hb' : base ≤ 16) (n : ℕ) :
    value base (print base n) = some n := by
  induction n using Nat.strongRecOn with
  | ind n ih =>
    obtain ⟨d, hd, pre, he, hpre⟩ := print_cases hb n
    rw [he, value, List.foldlM_append]
    rcases hpre with ⟨rfl, rfl⟩ | ⟨hn, hlt, rfl⟩
    · simp [digitOf_digitByte hb' hd]
    · have hrec : (print base (n / base)).foldlM
          (fun n b => (digitOf base b).map (n * base + ·)) 0 = some (n / base) := ih _ hlt
      rw [hrec]
      simpa [digitOf_digitByte hb' hd] using hn.symm

/-! ### Parsers -/

theorem digitByte_le {d : ℕ} (hd : d < 16) : 48 ≤ digitByte d := by
  interval_cases d <;> decide

/-- A numeral has no byte before `0`. -/
theorem le_of_mem_print (hb : 2 ≤ base) (hb' : base ≤ 16) (h : b ∈ print base n) : 48 ≤ b := by
  obtain ⟨d, hd, rfl⟩ := mem_print hb h
  exact digitByte_le (Nat.lt_of_lt_of_le hd hb')

/-- A decimal numeral has no byte after `9`. -/
theorem mem_decimal_le (h : b ∈ print 10 n) : b ≤ 57 := by
  obtain ⟨d, hd, rfl⟩ := mem_print (by decide) h
  interval_cases d <;> decide

theorem print_ne_cons (hb : 2 ≤ base) (hb' : base ≤ 16) (h : b < 48) (n : ℕ)
    (ds : Bytes) : print base n ≠ b :: ds := by
  intro he
  have hle := le_of_mem_print hb hb' (n := n) (b := b) (by rw [he]; exact (.head _))
  exact absurd hle (UInt8.not_le.2 h)

theorem parseNat_print (hb : 2 ≤ base) (hb' : base ≤ 16) {limit : ℕ} (h : n < limit) :
    parseNat base limit (print base n) = some n := by
  rw [parseNat, if_neg (print_ne_nil base n), value_print hb hb']
  · exact Option.filter_some_pos (decide_eq_true h)
  · exact fun ds => print_ne_cons hb hb' (by decide) n ds

theorem signed_print {v : ℤ} (h : -2 ^ 31 ≤ v ∧ v < 2 ^ 31) {negative : Bool}
    (hv : (if negative then -(v.natAbs : ℤ) else v.natAbs) = v) :
    signed negative (print 10 v.natAbs) = some v := by
  rw [signed, if_neg (print_ne_nil 10 _), value_print (by decide) (by decide), Option.bind_some,
    hv]
  exact if_pos h

theorem parseI32_printInt {v : ℤ} (h : -2 ^ 31 ≤ v ∧ v < 2 ^ 31) :
    parseI32 (printInt v) = some v := by
  have hplain : ∀ b : UInt8, b < 48 → ∀ ds, print 10 v.natAbs ≠ b :: ds := fun b hb ds =>
    print_ne_cons (by decide) (by decide) hb _ ds
  rw [printInt]
  split_ifs with hv
  · exact signed_print h (by rw [if_pos rfl]; omega)
  · rw [parseI32]
    · exact signed_print h (by rw [if_neg (by decide)]; omega)
    · exact fun ds => hplain 45 (by decide) ds
    · exact fun ds => hplain 43 (by decide) ds

end Numerals
