import Aim.Support.Memory

/-!
# Support — Merkle trees of blocks

A tree over a list of digests of `d` bytes each.  The digests of a level stand one after another in
blocks of `f` digests, the last block filled up with zeros (`level`), and the digests of the blocks
are the next level (`up`), until one digest is left (`root`).

* `entry_level`, `entry_node`: where a digest stands in its level, and in its block.
* `Laid`: the levels of a tree as spans, the first level last.
* `Holds`: a memory with the levels of a tree at their spans.
-/

/-- A part of a span. -/
theorem Memory.read_part {m : Memory} {a n j k : ℕ} (h : j + k ≤ n) :
    ((m.read a n).drop j).take k = m.read (a + j) k := by
  obtain ⟨r, rfl⟩ : ∃ r, n = j + (k + r) := ⟨n - (j + k), by omega⟩
  rw [Memory.read_add, List.drop_left' Memory.length_read, Memory.read_add,
    List.take_left' Memory.length_read]

namespace Merkle

open List Nat

/-- The number of blocks that `n` digests fill. -/
def blocks (f n : ℕ) : ℕ := (n + f - 1) / f

theorem blocks_lt {f n : ℕ} (hf : 1 < f) (hn : 1 < n) : blocks f n < n := by
  rw [blocks, div_lt_iff_lt_mul (by omega)]
  obtain ⟨a, rfl⟩ := Nat.exists_eq_add_of_lt hf
  obtain ⟨b, rfl⟩ := Nat.exists_eq_add_of_lt hn
  have hsub : 1 + b + 1 + (1 + a + 1) - 1 = a + b + 3 := by omega
  nlinarith [zero_le (a * b)]

theorem le_blocks_mul {f n : ℕ} (hf : 0 < f) : n ≤ blocks f n * f := by
  have h := div_add_mod (n + f - 1) f
  have hlt := mod_lt (n + f - 1) hf
  rw [blocks, mul_comm]
  omega

theorem blocks_pos {f n : ℕ} (hf : 0 < f) (hn : 0 < n) : 0 < blocks f n :=
  div_pos (by omega) hf

variable {i : ℕ}

/-- The block of a digest. -/
theorem div_lt_blocks {f n : ℕ} (hf : 0 < f) (hi : i < n) : i / f < blocks f n := by
  rw [div_lt_iff_lt_mul hf]
  exact lt_of_lt_of_le hi (le_blocks_mul hf)

section Trees

variable (hash : Bytes → Bytes) (f d : ℕ)

/-- The digests of a level, one after another, and zeros to the end of the last block. -/
def level (ds : List Bytes) : Bytes :=
  ds.flatten ++ List.replicate (blocks f ds.length * (f * d) - ds.length * d) 0

/-- A block of a level. -/
def node (l : Bytes) (i : ℕ) : Bytes := (l.drop (i * (f * d))).take (f * d)

/-- The digests of the blocks of a level. -/
def up (ds : List Bytes) : List Bytes :=
  (List.range (blocks f ds.length)).map fun i => hash (node f d (level f d ds) i)

@[simp] theorem length_up (ds : List Bytes) : (up hash f d ds).length = blocks f ds.length := by
  simp [up]

/-- The digest that is left. -/
def root (ds : List Bytes) : Bytes :=
  if 1 < f ∧ 1 < ds.length then root (up hash f d ds) else ds.headD []
termination_by ds.length
decreasing_by
  rw [length_up]
  exact blocks_lt (by omega) (by omega)

end Trees

variable {hash : Bytes → Bytes} {f d : ℕ} {ds : List Bytes}

theorem root_up (hf : 1 < f) (hds : 1 < ds.length) :
    root hash f d ds = root hash f d (up hash f d ds) := by
  rw [root, if_pos ⟨hf, hds⟩]

theorem root_one (hds : ds.length ≤ 1) : root hash f d ds = ds.headD [] := by
  rw [root, if_neg (by omega)]

/-! ### Digests of one length -/

theorem length_flatten (h : ∀ x ∈ ds, x.length = d) : ds.flatten.length = ds.length * d := by
  induction ds with
  | nil => simp
  | cons x ds ih =>
    rw [forall_mem_cons] at h
    rw [flatten_cons, length_append, h.1, ih h.2, length_cons, succ_mul,
      add_comm]

/-- A digest among the others. -/
theorem entry_flatten (h : ∀ x ∈ ds, x.length = d) (hi : i < ds.length) :
    (ds.flatten.drop (i * d)).take d = ds[i] := by
  induction ds generalizing i with
  | nil => cases hi
  | cons x ds ih =>
    rw [forall_mem_cons] at h
    rw [flatten_cons]
    cases i with
    | zero => rw [zero_mul, drop_zero, ← h.1, take_left]; rfl
    | succ i =>
      have hd : (i + 1) * d = x.length + i * d := by rw [h.1, succ_mul, add_comm]
      rw [hd, drop_length_add_append, ih h.2 (lt_of_succ_lt_succ hi)]
      rfl

theorem length_mul_le (hf : 0 < f) (n : ℕ) : n * d ≤ blocks f n * (f * d) := by
  rw [← mul_assoc]
  exact mul_le_mul_right d (le_blocks_mul hf)

/-- A digest in its level, -/
theorem entry_level (h : ∀ x ∈ ds, x.length = d) (hi : i < ds.length) :
    ((level f d ds).drop (i * d)).take d = ds[i] := by
  have hle : i * d + d ≤ ds.flatten.length := by
    rw [length_flatten h, ← succ_mul]
    exact mul_le_mul_right d hi
  have hle' : d ≤ (ds.flatten.drop (i * d)).length := by
    rw [length_drop]
    omega
  rw [level, drop_append_of_le_length (by omega), take_append_of_le_length hle',
    entry_flatten h hi]

/-- and in its block. -/
theorem entry_node (hf : 0 < f) (h : ∀ x ∈ ds, x.length = d) (hi : i < ds.length) :
    ((node f d (level f d ds) (i / f)).drop (i % f * d)).take d = ds[i] := by
  have hmod : i % f * d + d ≤ f * d := by
    rw [← succ_mul]
    exact mul_le_mul_right d (mod_lt i hf)
  have hi' : i / f * (f * d) + i % f * d = i * d := by
    rw [← mul_assoc, ← add_mul, mul_comm (i / f), div_add_mod]
  rw [node, drop_take, take_take, min_eq_left (by omega), drop_drop, hi',
    entry_level h hi]

theorem length_of_mem_up (hh : ∀ b, (hash b).length = d) {x : Bytes} (hx : x ∈ up hash f d ds) :
    x.length = d := by
  obtain ⟨i, -, rfl⟩ := mem_map.1 hx
  exact hh _

theorem length_root (hh : ∀ b, (hash b).length = d) (hds : ∀ x ∈ ds, x.length = d)
    (hne : 0 < ds.length) : (root hash f d ds).length = d := by
  induction ds using root.induct hash f d with
  | case1 ds h ih =>
    rw [root_up h.1 h.2]
    refine ih (fun x hx => length_of_mem_up hh hx) ?_
    rw [length_up]
    exact blocks_pos (by omega) hne
  | case2 ds h =>
    rw [root, if_neg h]
    cases ds with
    | nil => cases hne
    | cons x ds => exact hds x (.head _)

/-! ### Trees in memory -/

/-- The spans of the levels of a tree over `n` digests, from the first, which is the last in memory,
to the root's; `b` is the size of a block, and `size` that of all of them. -/
def Laid (f b : ℕ) : (n : ℕ) → List (ℕ × ℕ) → (size : ℕ) → Prop
  | n, [], size => n ≤ 1 ∧ size = 0
  | n, (o, s) :: above, size =>
    1 < n ∧ s = blocks f n * b ∧ Laid f b (blocks f n) above o ∧ size = o + s

/-- The memory has the levels of the tree over `ds` at their spans, from `a` on. -/
def Holds (hash : Bytes → Bytes) (f d a : ℕ) (m : Memory) : List (ℕ × ℕ) → List Bytes → Prop
  | [], _ => True
  | (o, s) :: above, ds =>
    m.read (a + o) s = level f d ds ∧ Holds hash f d a m above (up hash f d ds)

section Spans

variable {b n size : ℕ} {L : List (ℕ × ℕ)}

variable (h : Laid f b n L size)

include h

variable {l : ℕ × ℕ}

theorem Laid.add_le (hl : l ∈ L) : l.1 + l.2 ≤ size := by
  induction L generalizing n size with
  | nil => cases hl
  | cons p above ih =>
    obtain ⟨-, -, habove, rfl⟩ := h
    rcases mem_cons.1 hl with rfl | hl
    · exact le_refl _
    · exact le_trans (ih habove hl) (le_add_right _ _)

/-- **The levels lie apart,** the root's first. -/
theorem Laid.apart : L.Pairwise fun l k => k.1 + k.2 ≤ l.1 := by
  induction L generalizing n size with
  | nil => exact List.Pairwise.nil
  | cons p above ih =>
    obtain ⟨-, -, habove, rfl⟩ := h
    exact pairwise_cons.2 ⟨fun k hk => habove.add_le hk, ih habove⟩

/-- They lie one after another, -/
theorem Laid.next {k : ℕ} {l' : ℕ × ℕ} (hl : L[k]? = some l)
    (hl' : L[k + 1]? = some l') : l.1 = l'.1 + l'.2 := by
  induction L generalizing n size k with
  | nil => cases hl
  | cons p above ih =>
    obtain ⟨-, -, habove, rfl⟩ := h
    cases k with
    | zero =>
      cases hl
      cases above with
      | nil => cases hl'
      | cons p' above =>
        cases hl'
        exact habove.2.2.2
    | succ k => exact ih habove hl hl'

/-- from the start. -/
theorem Laid.first (hl : L.getLast? = some l) : l.1 = 0 := by
  induction L generalizing n size with
  | nil => cases hl
  | cons p above ih =>
    obtain ⟨-, -, habove, rfl⟩ := h
    cases above with
    | nil =>
      cases hl
      exact habove.2
    | cons p' above =>
      exact ih habove hl

end Spans

section Held

variable {a size : ℕ} {m : Memory} {L : List (ℕ × ℕ)}

/-- The digests of the level `k` above the first. -/
def digests (hash : Bytes → Bytes) (f d : ℕ) (ds : List Bytes) : ℕ → List Bytes
  | 0 => ds
  | k + 1 => digests hash f d (up hash f d ds) k

theorem digests_succ (k : ℕ) :
    digests hash f d ds (k + 1) = up hash f d (digests hash f d ds k) := by
  induction k generalizing ds with
  | zero => rfl
  | succ k ih => exact ih

theorem length_of_mem_digests (hh : ∀ b, (hash b).length = d) (hds : ∀ x ∈ ds, x.length = d)
    {k : ℕ} : ∀ x ∈ digests hash f d ds k, x.length = d := by
  cases k with
  | zero => exact hds
  | succ k =>
    rw [digests_succ]
    exact fun x hx => length_of_mem_up hh hx

theorem Laid.get (hash : Bytes → Bytes) (hL : Laid f (f * d) ds.length L size) {k : ℕ} {l : ℕ × ℕ}
    (hl : L[k]? = some l) : l.2 = blocks f (digests hash f d ds k).length * (f * d) := by
  induction L generalizing size ds k with
  | nil => cases hl
  | cons p above ih =>
    obtain ⟨o, s⟩ := p
    obtain ⟨-, rfl, habove, rfl⟩ := hL
    cases k with
    | zero =>
      cases hl
      rfl
    | succ k =>
      rw [← length_up hash f d] at habove
      exact ih habove hl

theorem Holds.get (h : Holds hash f d a m L ds) {k : ℕ} {l : ℕ × ℕ} (hl : L[k]? = some l) :
    m.read (a + l.1) l.2 = level f d (digests hash f d ds k) := by
  induction L generalizing ds k with
  | nil => cases hl
  | cons p above ih =>
    cases k with
    | zero =>
      cases hl
      exact h.1
    | succ k => exact ih h.2 hl

variable {k i : ℕ} {l l' : ℕ × ℕ}

/-- A block of a level, in memory. -/
theorem Holds.node (h : Holds hash f d a m L ds) (hL : Laid f (f * d) ds.length L size)
    (hl : L[k]? = some l) (hi : i < blocks f (digests hash f d ds k).length) :
    m.read (a + l.1 + i * (f * d)) (f * d) = node f d (level f d (digests hash f d ds k)) i := by
  have hle : i * (f * d) + f * d ≤ l.2 := by
    rw [hL.get hash hl, ← succ_mul]
    exact mul_le_mul_right _ hi
  rw [Merkle.node, ← h.get hl, Memory.read_part hle]

variable (hf : 0 < f) (hh : ∀ b, (hash b).length = d) (hds : ∀ x ∈ ds, x.length = d)

include hf hh hds

/-- A digest of a level, in memory. -/
theorem Holds.entry (h : Holds hash f d a m L ds) (hL : Laid f (f * d) ds.length L size)
    (hl : L[k]? = some l) {x : Bytes} (hx : (digests hash f d ds k)[i]? = some x) :
    m.read (a + l.1 + i * d) d = x := by
  obtain ⟨hi, rfl⟩ := List.getElem?_eq_some_iff.1 hx
  have hlen := length_mul_le (d := d) hf (digests hash f d ds k).length
  have hle : i * d + d ≤ l.2 := by
    rw [hL.get hash hl, ← succ_mul]
    exact le_trans (mul_le_mul_right _ hi) hlen
  rw [← Memory.read_part hle, h.get hl, entry_level (length_of_mem_digests hh hds) hi]

/-- **Each level has the digests of the blocks of the one below.** -/
theorem Holds.above (h : Holds hash f d a m L ds) (hL : Laid f (f * d) ds.length L size)
    (hl : L[k]? = some l) (hl' : L[k + 1]? = some l')
    (hi : i < blocks f (digests hash f d ds k).length) :
    m.read (a + l'.1 + i * d) d = hash (m.read (a + l.1 + i * (f * d)) (f * d)) := by
  rw [h.node hL hl hi]
  refine h.entry hf hh hds hL hl' ?_
  rw [digests_succ, up]
  simp [hi]

omit hf in
/-- What follows the digests of a level is zero. -/
theorem Holds.padding (h : Holds hash f d a m L ds) (hl : L[k]? = some l) {j : ℕ}
    (hj : (digests hash f d ds k).length * d ≤ j) (hj' : j < l.2) : m.byte (a + l.1 + j) = 0 := by
  have hread := h.get hl
  have hlen : j < (m.read (a + l.1) l.2).length := by rw [Memory.length_read]; exact hj'
  rw [← Memory.getElem_read hlen]
  simp only [hread, level]
  rw [getElem_append_right (by rw [length_flatten (length_of_mem_digests hh hds)]; exact hj),
    getElem_replicate]

end Held

end Merkle
