import Aim.Support.Memory

/-!
# Support — Files

The bytes of a file, with nothing past its end: a write past the end grows the file, with zeros in
between, and so does setting its length.
-/

structure Disk extends Memory where
  beyond : ∀ i, len ≤ i → byte i = 0

namespace Disk

variable {d d' : Disk} {a n i : ℕ} {bs : Bytes}

def empty : Disk := ⟨⟨0, fun _ => 0⟩, fun _ _ => rfl⟩

def ofBytes (bs : Bytes) : Disk where
  len := bs.length
  byte i := bs.getD i 0
  beyond i hi := by simp [hi]

/-- `pwrite`. -/
def write (d : Disk) (a : ℕ) (bs : Bytes) : Disk where
  len := if bs = [] then d.len else max d.len (a + bs.length)
  byte := (d.toMemory.write a bs).byte
  beyond i hi := by
    by_cases h : bs = []
    · subst h
      rw [Memory.write_nil]
      exact d.beyond i hi
    · rw [if_neg h] at hi
      rw [Memory.byte_write_ne (by omega)]
      exact d.beyond i (by omega)

/-- `ftruncate`. -/
def setLen (d : Disk) (n : ℕ) : Disk where
  len := n
  byte i := if i < n then d.byte i else 0
  beyond i hi := if_neg (by omega)

/-- Files of one length and the same bytes are equal. -/
theorem ext_bytes (hl : d.len = d'.len) (hb : ∀ i, i < d.len → d.byte i = d'.byte i) : d = d' := by
  obtain ⟨⟨len, byte⟩, h⟩ := d
  obtain ⟨⟨len', byte'⟩, h'⟩ := d'
  obtain rfl : len = len' := hl
  obtain rfl : byte = byte' := by
    funext i
    rcases Nat.lt_or_ge i len with hi | hi
    · exact hb i hi
    · exact (h i hi).trans (h' i hi).symm
  rfl

/-! ### Writing -/

theorem byte_write : (d.write a bs).byte i =
    if a ≤ i ∧ i < a + bs.length then bs.getD (i - a) 0 else d.byte i := rfl

/-- A write changes no byte outside its range. -/
theorem byte_write_ne (h : i < a ∨ a + bs.length ≤ i) : (d.write a bs).byte i = d.byte i :=
  Memory.byte_write_ne h

/-- A write within the file keeps its length. -/
theorem len_write_of_le (h : a + bs.length ≤ d.len) : (d.write a bs).len = d.len := by
  show (if bs = [] then d.len else max d.len (a + bs.length)) = d.len
  split
  · rfl
  · omega

theorem write_nil : d.write a [] = d :=
  ext_bytes rfl fun _ _ => byte_write_ne (by simp only [List.length_nil]; omega)

/-! ### Reading -/

theorem getD_read (h : i < n) : (d.read a n).getD i 0 = d.byte (a + i) := by
  simp [Memory.read, h]

end Disk
