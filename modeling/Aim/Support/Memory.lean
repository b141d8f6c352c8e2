import Aim.Support.Bytes

/-!
# Support — Memory

A stretch of bytes that is read and written in place: runs of bytes, little-endian words, strings
that end at a zero byte.  What a read gives depends on the bytes it covers only (`Agree`), and a
write changes those it covers only.
-/

structure Memory where
  len : ℕ
  byte : ℕ → UInt8

namespace Memory

open List

variable {m m' : Memory} {a b n k v : ℕ} {bs : Bytes}

def zero (len : ℕ) : Memory := ⟨len, fun _ => 0⟩

/-- The `n` bytes from `a` on. -/
def read (m : Memory) (a n : ℕ) : Bytes := (List.range n).map fun i => m.byte (a + i)

def write (m : Memory) (a : ℕ) (bs : Bytes) : Memory :=
  { m with byte := fun i => if a ≤ i ∧ i < a + bs.length then bs.getD (i - a) 0 else m.byte i }

/-- The 32-bit word at `a`. -/
def word (m : Memory) (a : ℕ) : ℕ := (m.read a 4).toNat

def store (m : Memory) (a v : ℕ) : Memory := m.write a (Bytes.ofNat 4 v)

/-- The bytes from `a` up to the first zero byte, or to `limit`. -/
def cString (m : Memory) (a limit : ℕ) : Bytes := (m.read a (limit - a)).takeWhile (· != 0)

/-- The two have the same `n` bytes from `a` on. -/
def Agree (m m' : Memory) (a n : ℕ) : Prop := ∀ i, a ≤ i → i < a + n → m'.byte i = m.byte i

@[simp] theorem len_write : (m.write a bs).len = m.len := rfl

theorem write_nil : m.write a [] = m := by
  have h : ∀ i, ¬ (a ≤ i ∧ i < a) := fun i => by omega
  simp [write, h]

@[simp] theorem len_store : (m.store a v).len = m.len := rfl

@[simp] theorem length_read : (m.read a n).length = n := by simp [read]

variable {i : ℕ}

/-- What is read, byte by byte. -/
theorem getElem_read (h : i < (m.read a n).length) : (m.read a n)[i] = m.byte (a + i) := by
  simp [read]

/-- A word has 32 bits. -/
theorem word_lt : m.word a < 2 ^ 32 := by
  have := Bytes.toNat_lt (m.read a 4)
  rwa [length_read] at this

/-! ### Agreement -/

theorem Agree.refl : Agree m m a n := fun _ _ _ => rfl

theorem Agree.trans {m'' : Memory} (h : Agree m m' a n) (h' : Agree m' m'' a n) : Agree m m'' a n :=
  fun i hi hi' => (h' i hi hi').trans (h i hi hi')

/-- Memories that agree on a range agree on what lies in it. -/
theorem Agree.mono (h : Agree m m' a n) (hb : a ≤ b) (hk : b + k ≤ a + n) : Agree m m' b k :=
  fun i hi hi' => h i (by omega) (by omega)

theorem Agree.read (h : Agree m m' a n) : m'.read a n = m.read a n :=
  map_congr_left fun i hi => h _ (by omega) (by have := mem_range.1 hi; omega)

theorem Agree.word (h : Agree m m' a 4) : m'.word a = m.word a := by
  rw [Memory.word, h.read, Memory.word]

/-- A write changes no byte outside its range. -/
theorem byte_write_ne (h : i < a ∨ a + bs.length ≤ i) : (m.write a bs).byte i = m.byte i :=
  if_neg (by omega)

theorem byte_store_ne (h : i < a ∨ a + 4 ≤ i) : (m.store a v).byte i = m.byte i :=
  byte_write_ne (by rwa [Bytes.length_ofNat])

/-- A write leaves the ranges apart from it as they are. -/
theorem agree_write (h : a + n ≤ b ∨ b + bs.length ≤ a) : Agree m (m.write b bs) a n :=
  fun _ _ _ => byte_write_ne (by omega)

theorem agree_store (h : a + n ≤ b ∨ b + 4 ≤ a) : Agree m (m.store b v) a n :=
  agree_write (by rwa [Bytes.length_ofNat])

theorem read_write_ne (h : a + n ≤ b ∨ b + bs.length ≤ a) :
    (m.write b bs).read a n = m.read a n := (agree_write h).read

theorem read_store_ne (h : a + n ≤ b ∨ b + 4 ≤ a) : (m.store b v).read a n = m.read a n :=
  (agree_store h).read

theorem word_store_ne (h : a + 4 ≤ b ∨ b + 4 ≤ a) : (m.store b v).word a = m.word a :=
  (agree_store h).word

/-- A word of zero bytes. -/
theorem word_of_zero (h : ∀ i, a ≤ i → m.byte i = 0) : m.word a = 0 := by
  simp [word, read, range_succ, Bytes.toNat, h]

/-! ### What is written is read -/

/-- What is written is read. -/
theorem read_write (bs : Bytes) : (m.write a bs).read a bs.length = bs := by
  refine ext_getElem (by simp) fun i h h' => ?_
  rw [getElem_read]
  change (if a ≤ a + i ∧ a + i < a + bs.length then bs.getD (a + i - a) 0 else _) = _
  simp [h']

/-- A word that is stored is read modulo its width. -/
theorem word_store : (m.store a v).word a = v % 2 ^ 32 := by
  have h := read_write (m := m) (a := a) (Bytes.ofNat 4 v)
  rw [Bytes.length_ofNat] at h
  rw [word, store, h]
  exact Bytes.toNat_ofNat 4 v

/-- A range is read in two parts. -/
theorem read_add : m.read a (n + k) = m.read a n ++ m.read (a + n) k := by
  simp [read, range_add, Nat.add_assoc, Function.comp_def]

/-- Two runs, one behind the other, are one run. -/
theorem write_append {bs' : Bytes} (hb : b = a + bs.length) :
    (m.write a bs).write b bs' = m.write a (bs ++ bs') := by
  subst hb
  refine congrArg (Memory.mk m.len) (funext fun i => ?_)
  change (if a + bs.length ≤ i ∧ i < a + bs.length + bs'.length then
      bs'.getD (i - (a + bs.length)) 0
    else if a ≤ i ∧ i < a + bs.length then bs.getD (i - a) 0 else m.byte i) =
    if a ≤ i ∧ i < a + (bs ++ bs').length then (bs ++ bs').getD (i - a) 0 else m.byte i
  rw [length_append]
  simp only [getD_eq_getElem?_getD]
  rcases Nat.lt_or_ge i (a + bs.length) with hi | hi
  · rw [if_neg (by omega)]
    by_cases ha : a ≤ i
    · rw [if_pos ⟨ha, hi⟩, if_pos (by omega), getElem?_append_left (by omega)]
    · rw [if_neg (by omega), if_neg (by omega)]
  · by_cases hi' : i < a + bs.length + bs'.length
    · rw [if_pos ⟨hi, hi'⟩, if_pos (by omega), getElem?_append_right (by omega),
        Nat.sub_add_eq]
    · rw [if_neg (by omega), if_neg (by omega), if_neg (by omega)]

/-! ### Strings -/

/-- A string with a zero byte after it. -/
def writeString (m : Memory) (a : ℕ) (s : Bytes) : Memory := m.write a (s ++ [0])

theorem byte_writeString_ne (h : i < a ∨ a + bs.length + 1 ≤ i) :
    (m.writeString a bs).byte i = m.byte i :=
  byte_write_ne (by rwa [length_append])

theorem agree_writeString (h : a + n ≤ b ∨ b + bs.length + 1 ≤ a) :
    Agree m (m.writeString b bs) a n :=
  fun _ _ _ => byte_writeString_ne (by omega)

theorem read_writeString_ne (h : a + n ≤ b ∨ b + bs.length + 1 ≤ a) :
    (m.writeString b bs).read a n = m.read a n := (agree_writeString h).read

theorem word_writeString_ne (h : a + 4 ≤ b ∨ b + bs.length + 1 ≤ a) :
    (m.writeString b bs).word a = m.word a := (agree_writeString h).word

/-- A string is read with its terminator. -/
theorem read_writeString : (m.writeString a bs).read a (bs.length + 1) = bs ++ [0] := by
  have := read_write (m := m) (a := a) (bs ++ [0])
  rwa [length_append] at this

/-- A string that stands in memory with a zero byte after it. -/
theorem read_string {s : Bytes} (h : m.read a (s.length + 1) = s ++ [0]) :
    m.read a s.length = s := by
  rw [read_add] at h
  exact (append_inj h (by simp)).1

/-- A string without a NUL is read up to its terminator. -/
theorem cString_eq {s : Bytes} {limit : ℕ} (h : m.read a (s.length + 1) = s ++ [0])
    (hs : ∀ c ∈ s, c ≠ 0) (hl : a + s.length + 1 ≤ limit) : m.cString a limit = s := by
  obtain ⟨k, rfl⟩ : ∃ k, limit = a + (s.length + 1 + k) := ⟨limit - (a + s.length + 1), by omega⟩
  rw [cString, Nat.add_sub_cancel_left, read_add, h, append_assoc]
  rw [takeWhile_append_of_pos (by simpa using hs)]
  simp

end Memory
