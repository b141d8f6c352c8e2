import Aim.Support.Memory

/-!
# Support — Stores one after the other

What a reader may find while a writer is under way: the stores of the writer in their order, bytes
and words, and the memory after any number of them.

* `puts_bytesAt`: a run of bytes stored one by one is the run written at once.
* `agree_puts`: a stretch that no store of the list touches is as it was.
-/

namespace Memory

/-- One store: a byte or a 32-bit word. -/
inductive Put where
  | byte (a : ℕ) (b : UInt8)
  | word (a v : ℕ)

/-- Where a store is made, and how many bytes it covers. -/
def Put.start : Put → ℕ
  | .byte a _ => a
  | .word a _ => a

def Put.size : Put → ℕ
  | .byte _ _ => 1
  | .word _ _ => 4

def put (m : Memory) : Put → Memory
  | .byte a b => m.write a [b]
  | .word a v => m.store a v

/-- The memory after the stores. -/
def puts (m : Memory) (ps : List Put) : Memory := ps.foldl put m

/-- The bytes from `a` on, one by one. -/
def bytesAt (a : ℕ) : Bytes → List Put
  | [] => []
  | b :: bs => .byte a b :: bytesAt (a + 1) bs

variable {m : Memory} {a n : ℕ} {bs : Bytes} {ps qs : List Put}

theorem puts_append : m.puts (ps ++ qs) = (m.puts ps).puts qs := List.foldl_append

@[simp] theorem length_bytesAt : (bytesAt a bs).length = bs.length := by
  induction bs generalizing a with
  | nil => rfl
  | cons b bs ih => simp [bytesAt, ih]

theorem mem_bytesAt {p : Put} (h : p ∈ bytesAt a bs) :
    a ≤ p.start ∧ p.start + p.size ≤ a + bs.length := by
  induction bs generalizing a with
  | nil => cases h
  | cons b bs ih =>
    rcases List.mem_cons.1 h with rfl | h
    · simp only [Put.start, Put.size, List.length_cons]
      omega
    · have := ih h
      simp only [List.length_cons]
      omega

/-- Bytes stored one by one are a run of bytes written. -/
theorem puts_bytesAt : m.puts (bytesAt a bs) = m.write a bs := by
  induction bs generalizing m a with
  | nil => exact write_nil.symm
  | cons b bs ih =>
    exact ih.trans (write_append rfl)

@[simp] theorem len_puts : (m.puts ps).len = m.len := by
  induction ps generalizing m with
  | nil => rfl
  | cons p ps ih =>
    refine (ih (m := m.put p)).trans ?_
    cases p <;> rfl

/-- What no store touches is as it was. -/
theorem agree_puts (h : ∀ p ∈ ps, a + n ≤ p.start ∨ p.start + p.size ≤ a) :
    Agree m (m.puts ps) a n := by
  induction ps generalizing m with
  | nil => exact Agree.refl
  | cons p ps ih =>
    have hp := h p (.head _)
    have hput : Agree m (m.put p) a n := by
      cases p with
      | byte b c => exact agree_write hp
      | word b v => exact agree_store hp
    exact hput.trans (ih fun q hq => h q (.tail _ hq))

end Memory
