import Aim.Props.Area
import Aim.Support.Ternary

/-!
# Props — What the area holds

The area as a store of objects: nodes, property records and long values, each in a range of its own
of the data that is in use, with nothing but zeros past it.  An object depends on the bytes of its
range only, so a write changes the object it is made in and no other.

* `Laid m os`: the memory holds the objects, apart from each other and from the dirty backup area.
* `Laid.grow`, `Laid.cons`, `Laid.poke`: space is taken, an object is made in it, one is changed.
-/

namespace Aim.Props

theorem sizes : PROP_AREA_HEADER_SIZE = 128 ∧ TRIE_NODE_SIZE = 20 ∧ PROP_INFO_SIZE = 96 ∧
    PROP_VALUE_MAX = 92 ∧ DIRTY_BACKUP_AREA = 20 ∧ LONG_OFFSET_FIELD = 60 := by decide

/-- A property as the area holds it. -/
structure Info where
  off : ℕ
  name : Bytes
  value : Bytes
  serial : ℕ
  /-- Where a long value stands. -/
  long : Option ℕ

/-- The trie of an area, its nodes labelled by their offsets. -/
abbrev Tree := Ternary ℕ Bytes Info

abbrev Cell := Ternary.Cell ℕ Bytes Info

/-- A read-only name. -/
def IsRo (name : Bytes) : Prop := RO_PREFIX.isPrefixOf name = true

structure Info.Ok (i : Info) : Prop where
  name : ∀ c ∈ i.name, c ≠ 0 ∧ c < 0x80
  value : ∀ c ∈ i.value, c ≠ 0
  short : i.long = none → i.value.length < PROP_VALUE_MAX ∧ i.serial / 2 ^ 24 = i.value.length ∧
    i.serial % 2 = 0 ∧ (IsRo i.name → i.serial &&& LONG_FLAG = 0)
  long : ∀ t, i.long = some t → IsRo i.name ∧ i.serial &&& LONG_FLAG ≠ 0 ∧ i.off < t

inductive Obj where
  | node (y : Cell)
  | info (i : Info)
  | text (off : ℕ) (bytes : Bytes)

namespace Obj

def start : Obj → ℕ
  | node y => y.i
  | info i => i.off
  | text off _ => off

def size : Obj → ℕ
  | node y => TRIE_NODE_SIZE + y.a.length
  | info i => PROP_INFO_SIZE + i.name.length + 1
  | text _ bytes => bytes.length + 1

/-- The object stands in memory. -/
def At (m : Memory) : Obj → Prop
  | node y =>
    m.data y.i = y.a.length ∧ m.data (y.i + 4) = (y.v.map (·.off)).getD 0 ∧
      m.data (y.i + 8) = y.left.getD 0 ∧ m.data (y.i + 12) = y.right.getD 0 ∧
      m.data (y.i + 16) = y.under.getD 0 ∧
      m.read (PROP_AREA_HEADER_SIZE + (y.i + TRIE_NODE_SIZE)) y.a.length = y.a
  | info i =>
    m.data i.off = i.serial ∧
      m.read (PROP_AREA_HEADER_SIZE + (i.off + PROP_INFO_SIZE)) (i.name.length + 1) = i.name ++ [0] ∧
      match i.long with
      | none =>
        m.read (PROP_AREA_HEADER_SIZE + (i.off + 4)) (i.value.length + 1) = i.value ++ [0]
      | some t => m.data (i.off + LONG_OFFSET_FIELD) = t - i.off
  | text off bytes =>
    m.read (PROP_AREA_HEADER_SIZE + off) (bytes.length + 1) = bytes ++ [0]

/-- A short value fits in its record. -/
def Fits : Obj → Prop
  | info i => i.long = none → i.value.length < PROP_VALUE_MAX
  | _ => True

/-- The object is in the data that is in use, off the dirty backup area. -/
structure Placed (o : Obj) (used : ℕ) : Prop where
  aligned : o.start % 4 = 0
  used : o.start + o.size ≤ used
  clear : o.start + o.size ≤ DIRTY_BACKUP_AREA ∨ DIRTY_BACKUP_AREA + PROP_VALUE_MAX ≤ o.start
  fits : o.Fits

def Apart (o o' : Obj) : Prop :=
  o.start + o.size ≤ o'.start ∨ o'.start + o'.size ≤ o.start

theorem Apart.symm {o o' : Obj} (h : Apart o o') : Apart o' o := Or.symm h

theorem size_pos (o : Obj) : 0 < o.size := by
  cases o <;> simp only [size, TRIE_NODE_SIZE, PROP_INFO_SIZE] <;> omega

end Obj

end Aim.Props

namespace Memory

open Aim.Props

/-- The memories have the same `n` bytes of data from `off` on. -/
def Same (m m' : Memory) (off n : ℕ) : Prop := Agree m m' (PROP_AREA_HEADER_SIZE + off) n

variable {m m' : Memory} {off n k : ℕ}

theorem Same.mono (h : Same m m' off n) (hk : off ≤ k) {j : ℕ} (hj : k + j ≤ off + n) :
    Same m m' k j :=
  Agree.mono h (by omega) (by omega)

theorem Same.data (h : Same m m' off 4) : m'.data off = m.data off := Agree.word h

/-- Data that did not change is read as before. -/
theorem Same.read (h : Same m m' off n) :
    m'.read (PROP_AREA_HEADER_SIZE + off) n = m.read (PROP_AREA_HEADER_SIZE + off) n := Agree.read h

theorem data_lt : m.data off < 2 ^ 32 := word_lt

end Memory

namespace Aim.Props

open Memory
open Prog (run_ok run_err get_ok)

/-- An object depends on the bytes of its range only. -/
theorem Obj.At.congr {o : Obj} {m m' : Memory} (h : o.At m) (hf : o.Fits)
    (hs : Same m m' o.start o.size) : o.At m' := by
  cases o with
  | node y =>
    have hw : ∀ k, k + 4 ≤ TRIE_NODE_SIZE → m'.data (y.i + k) = m.data (y.i + k) := fun k hk =>
      (hs.mono (by simp [Obj.start]) (by simp only [Obj.start, Obj.size]; omega)).data
    obtain ⟨h1, h2, h3, h4, h5, h6⟩ := h
    refine ⟨(hw 0 (by decide)).trans h1, (hw 4 (by decide)).trans h2,
      (hw 8 (by decide)).trans h3, (hw 12 (by decide)).trans h4, (hw 16 (by decide)).trans h5, ?_⟩
    rw [(hs.mono (by simp [Obj.start]) (by simp only [Obj.start, Obj.size]; omega)).read, h6]
  | info i =>
    obtain ⟨h1, h2, h3⟩ := h
    have hw : ∀ k, k + 4 ≤ PROP_INFO_SIZE → m'.data (i.off + k) = m.data (i.off + k) :=
      fun k hk => (hs.mono (by simp [Obj.start]) (by simp only [Obj.start, Obj.size]; omega)).data
    refine ⟨(hw 0 (by decide)).trans h1, ?_, ?_⟩
    · rw [(hs.mono (by simp [Obj.start]) (by simp only [Obj.start, Obj.size]; omega)).read, h2]
    cases hl : i.long with
    | some t =>
      rw [hl] at h3
      exact (hw LONG_OFFSET_FIELD (by decide)).trans h3
    | none =>
      rw [hl] at h3
      have hlt := hf hl
      have hr : m'.read (PROP_AREA_HEADER_SIZE + (i.off + 4)) (i.value.length + 1) =
          m.read (PROP_AREA_HEADER_SIZE + (i.off + 4)) (i.value.length + 1) :=
        (hs.mono (by simp [Obj.start]) (by
          simp only [Obj.start, Obj.size, PROP_INFO_SIZE, PROP_VALUE_MAX] at *
          omega)).read
      exact hr.trans h3
  | text off bytes => exact (Same.read hs).trans h

/-! ### The memory of an area -/

structure Laid (m : Memory) (os : List Obj) : Prop where
  len : 240 ≤ m.len ∧ m.len < 2 ^ 32 + PROP_AREA_HEADER_SIZE
  header : m.word 8 = PROP_AREA_MAGIC ∧ m.word 12 = PROP_AREA_VERSION
  used : DIRTY_BACKUP_AREA + PROP_VALUE_MAX ≤ m.bytesUsed ∧ m.bytesUsed ≤ m.dataSize ∧
    m.bytesUsed % 4 = 0
  clean : ∀ a, PROP_AREA_HEADER_SIZE + m.bytesUsed ≤ a → m.byte a = 0
  holds : ∀ o ∈ os, o.At m ∧ o.Placed m.bytesUsed
  apart : os.Pairwise Obj.Apart

namespace Laid

variable {m m' : Memory} {os os' : List Obj} {o o' : Obj}

theorem dataSize_lt (h : Laid m os) : m.dataSize < 2 ^ 32 := by
  have := h.len
  unfold Memory.dataSize PROP_AREA_HEADER_SIZE at *
  omega

theorem len_eq (h : Laid m os) : m.len = PROP_AREA_HEADER_SIZE + m.dataSize := by
  have := h.len
  unfold Memory.dataSize PROP_AREA_HEADER_SIZE at *
  omega

theorem perm (h : Laid m os) (hp : os.Perm os') : Laid m os' where
  len := h.len
  header := h.header
  used := h.used
  clean := h.clean
  holds o ho := h.holds o (hp.mem_iff.2 ho)
  apart := h.apart.perm hp fun h => h.symm

/-- Space is taken: the memory in use is as before, and there are zeros past the new end. -/
structure Grown (m m' : Memory) : Prop where
  len : m'.len = m.len
  used : m.bytesUsed ≤ m'.bytesUsed ∧ m'.bytesUsed ≤ m.dataSize ∧ m'.bytesUsed % 4 = 0
  same : ∀ a, 4 ≤ a → a < PROP_AREA_HEADER_SIZE + m.bytesUsed → m'.byte a = m.byte a
  clean : ∀ a, PROP_AREA_HEADER_SIZE + m'.bytesUsed ≤ a → m'.byte a = 0

theorem Grown.refl (h : Laid m os) : Grown m m :=
  ⟨rfl, ⟨Nat.le_refl _, h.used.2⟩, fun _ _ _ => rfl, h.clean⟩

/-- Objects stay where they are when the area grows. -/
theorem grow (h : Laid m os) (hg : Grown m m') : Laid m' os := by
  have hd : m'.dataSize = m.dataSize := by rw [Memory.dataSize, hg.len]; rfl
  have hu := h.used
  have hu' := hg.used
  have hword : ∀ a, 4 ≤ a → a + 4 ≤ PROP_AREA_HEADER_SIZE → m'.word a = m.word a := fun a h4 ha =>
    Agree.word fun i hi hi' => hg.same i (by omega) (by omega)
  constructor
  case len => rw [hg.len]; exact h.len
  case header => rw [hword 8 (by decide) (by decide), hword 12 (by decide) (by decide)]; exact h.header
  case used => rw [hd]; exact ⟨by omega, hu'.2⟩
  case clean => exact hg.clean
  case holds =>
    intro o ho
    obtain ⟨hat, hp⟩ := h.holds o ho
    have := hp.used
    refine ⟨hat.congr hp.fits fun i hi hi' => hg.same i ?_ (by omega), hp.aligned, by omega,
      hp.clear, hp.fits⟩
    unfold PROP_AREA_HEADER_SIZE at hi
    omega
  case apart => exact h.apart

/-- An object is made in space that no other has. -/
theorem cons (h : Laid m os) (ho : o.At m) (hp : o.Placed m.bytesUsed)
    (ha : ∀ o' ∈ os, Obj.Apart o o') : Laid m (o :: os) where
  len := h.len
  header := h.header
  used := h.used
  clean := h.clean
  holds o' ho' := by
    rcases List.mem_cons.1 ho' with rfl | ho'
    · exact ⟨ho, hp⟩
    · exact h.holds o' ho'
  apart := List.pairwise_cons.2 ⟨ha, h.apart⟩

/-- An object is changed in its range; the dirty backup area may change. -/
theorem poke (h : Laid m (o :: os)) (hlen : m'.len = m.len)
    (hsame : ∀ a, (a < PROP_AREA_HEADER_SIZE + o.start ∨
      PROP_AREA_HEADER_SIZE + (o.start + o.size) ≤ a) →
      (a < PROP_AREA_HEADER_SIZE + DIRTY_BACKUP_AREA ∨
        PROP_AREA_HEADER_SIZE + (DIRTY_BACKUP_AREA + PROP_VALUE_MAX) ≤ a) → m'.byte a = m.byte a)
    (hat : o'.At m') (hstart : o'.start = o.start) (hsize : o'.size = o.size) (hfits : o'.Fits) :
    Laid m' (o' :: os) := by
  have hd : m'.dataSize = m.dataSize := by rw [Memory.dataSize, hlen]; rfl
  obtain ⟨-, hp⟩ := h.holds o (.head _)
  obtain ⟨hap, hap'⟩ := List.pairwise_cons.1 h.apart
  have hword : ∀ a, a + 4 ≤ PROP_AREA_HEADER_SIZE → m'.word a = m.word a := fun a ha =>
    Agree.word fun i hi hi' => hsame i (.inl (by omega)) (.inl (by omega))
  have hused : m'.bytesUsed = m.bytesUsed := hword 0 (by decide)
  have hu := h.used
  have hpu := hp.used
  constructor
  case len => rw [hlen]; exact h.len
  case header => rw [hword 8 (by decide), hword 12 (by decide)]; exact h.header
  case used => rw [hd, hused]; exact hu
  case clean =>
    intro a ha
    rw [hused] at ha
    rw [hsame a (.inr (by omega)) (.inr (by omega))]
    exact h.clean a ha
  case holds =>
    intro o₁ ho₁
    rw [hused]
    rcases List.mem_cons.1 ho₁ with rfl | ho₁
    · exact ⟨hat, by rw [hstart]; exact hp.aligned, by rw [hstart, hsize]; exact hp.used,
        by rw [hstart, hsize]; exact hp.clear, hfits⟩
    obtain ⟨hat₁, hp₁⟩ := h.holds o₁ (.tail _ ho₁)
    have ha₁ := hap o₁ ho₁
    have hc₁ := hp₁.clear
    refine ⟨hat₁.congr hp₁.fits fun i hi hi' => hsame i ?_ ?_, hp₁⟩
    · unfold Obj.Apart at ha₁
      omega
    · omega
  case apart =>
    refine List.pairwise_cons.2 ⟨fun o₁ ho₁ => ?_, hap'⟩
    have := hap o₁ ho₁
    unfold Obj.Apart at *
    rwa [hstart, hsize]

end Laid

/-! ### Runs of accesses -/

section Run

variable {m : Memory} {os : List Obj} {off n v : ℕ} {bs : Bytes}

/-- Aligned words of the data can be read and written. -/
theorem word_ok (h4 : off % 4 = 0) (hs : off + 4 ≤ m.dataSize) : word off m = .ok (m.data off) m :=
  if_pos ⟨h4, hs⟩

theorem setWord_ok (h4 : off % 4 = 0) (hs : off + 4 ≤ m.dataSize) :
    setWord off v m = .ok () (m.store (PROP_AREA_HEADER_SIZE + off) v) := if_pos ⟨h4, hs⟩

variable {k : ℕ}

@[simp] theorem dataSize_write : (m.write k bs).dataSize = m.dataSize := rfl

theorem writeBytes_ok (hs : off + bs.length ≤ m.dataSize) :
    writeBytes off bs m = .ok () (m.write (PROP_AREA_HEADER_SIZE + off) bs) := if_pos hs

theorem readBytes_ok (hs : off + n ≤ m.dataSize) :
    readBytes off n m = .ok (m.read (PROP_AREA_HEADER_SIZE + off) n) m := if_pos hs

/-- A string is written, and the zero byte after it. -/
theorem writeString_ok {α : Type} {f : Unit → Access α} (hs : off + bs.length + 1 ≤ m.dataSize) :
    (writeBytes off bs >>= fun _ => writeBytes (off + bs.length) [0] >>= f) m =
      f () (m.writeString (PROP_AREA_HEADER_SIZE + off) bs) := by
  rw [run_ok (writeBytes_ok (by omega)),
    run_ok (writeBytes_ok (by exact hs)), write_append (by omega)]
  rfl

@[simp] theorem dataSize_writeString : (m.writeString k bs).dataSize = m.dataSize := rfl

@[simp] theorem dataSize_store : (m.store k v).dataSize = m.dataSize := rfl

theorem validOffset_ok (h : off ≤ m.dataSize) : validOffset off m = .ok off m := if_pos h

end Run

/-! ### Taking space -/

theorem le_align4 (size : ℕ) : size ≤ align4 size := by unfold align4; omega

theorem align4_mod (size : ℕ) : align4 size % 4 = 0 := by unfold align4; omega

section Allocate

variable {m : Memory} {os : List Obj} {size : ℕ}

theorem bytesUsed_store {v : ℕ} (h : v < 2 ^ 32) : (m.store 0 v).bytesUsed = v := by
  rw [Memory.bytesUsed, word_store, Nat.mod_eq_of_lt h]

theorem bytesUsed_store_ne {a v : ℕ} (h : 4 ≤ a) : (m.store a v).bytesUsed = m.bytesUsed :=
  word_store_ne (.inl h)

theorem bytesUsed_writeString {a : ℕ} {bs : Bytes} (h : 4 ≤ a) :
    (m.writeString a bs).bytesUsed = m.bytesUsed :=
  word_writeString_ne (.inl h)

/-- Data is taken from the end, in words. -/
theorem allocate_ok (h : m.bytesUsed + align4 size ≤ m.dataSize) :
    allocate size m = .ok m.bytesUsed (m.store 0 (m.bytesUsed + align4 size)) := by
  change (if m.bytesUsed + align4 size > m.dataSize then _ else _ : Access ℕ) m = _
  rw [if_neg (by omega)]
  rfl

theorem allocate_err (h : m.dataSize < m.bytesUsed + align4 size) :
    allocate size m = .err () m := by
  change (if m.bytesUsed + align4 size > m.dataSize then _ else _ : Access ℕ) m = _
  rw [if_pos h]
  rfl

/-- Space is taken, and nothing but it and the count of what is in use changes. -/
theorem Laid.grown {m' : Memory} (h : Laid m os) (hlen : m'.len = m.len) (hs : size % 4 = 0)
    (hused : m'.bytesUsed = m.bytesUsed + size) (hd : m.bytesUsed + size ≤ m.dataSize)
    (hsame : ∀ a, 4 ≤ a → a < PROP_AREA_HEADER_SIZE + m.bytesUsed ∨
      PROP_AREA_HEADER_SIZE + (m.bytesUsed + size) ≤ a → m'.byte a = m.byte a) :
    Laid.Grown m m' := by
  have hu := h.used
  have hsz := sizes
  refine ⟨hlen, by omega, fun a h4 ha => hsame a h4 (.inl ha), fun a ha => ?_⟩
  rw [hused] at ha
  rw [hsame a (by omega) (.inr ha)]
  exact h.clean a (by omega)

end Allocate

/-! ### Making objects -/

section Make

variable {m : Memory} {os : List Obj} {name value : Bytes} {off : ℕ}

/-- A new node: nothing but its name. -/
def newCell (off : ℕ) (name : Bytes) : Cell := ⟨off, name, none, none, none, none⟩

theorem newTrieNode_err
    (hs : m.dataSize < m.bytesUsed + align4 (TRIE_NODE_SIZE + name.length + 1)) :
    newTrieNode name m = .err () m :=
  run_err (allocate_err hs)

theorem newTrieNode_run (hused : m.bytesUsed = off) (h4 : off % 4 = 0)
    (hs : off + align4 (TRIE_NODE_SIZE + name.length + 1) ≤ m.dataSize) :
    newTrieNode name m = .ok off
      (((m.store 0 (off + align4 (TRIE_NODE_SIZE + name.length + 1))).store
        (PROP_AREA_HEADER_SIZE + off) name.length).writeString
          (PROP_AREA_HEADER_SIZE + (off + TRIE_NODE_SIZE)) name) := by
  have hsz := sizes
  have hal := le_align4 (TRIE_NODE_SIZE + name.length + 1)
  rw [newTrieNode, run_ok (allocate_ok (hused ▸ hs)), hused,
    run_ok (setWord_ok h4 (by rw [dataSize_store]; omega)),
    writeString_ok (by simp only [dataSize_store]; omega)]
  rfl

/-- A node is made past the objects and changes none of them. -/
theorem newTrieNode_ok (h : Laid m os)
    (hs : m.bytesUsed + align4 (TRIE_NODE_SIZE + name.length + 1) ≤ m.dataSize) :
    ∃ m', newTrieNode name m = .ok m.bytesUsed m' ∧ Laid.Grown m m' ∧
      (Obj.node (newCell m.bytesUsed name)).At m' ∧
      m'.bytesUsed = m.bytesUsed + align4 (TRIE_NODE_SIZE + name.length + 1) := by
  have hsz := sizes
  have hd := h.dataSize_lt
  have hu := h.used
  have hal := le_align4 (TRIE_NODE_SIZE + name.length + 1)
  have hzero : ∀ k, m.word (PROP_AREA_HEADER_SIZE + (m.bytesUsed + k)) = 0 := fun k =>
    word_of_zero fun i hi => h.clean i (by omega)
  refine ⟨_, newTrieNode_run rfl hu.2.2 hs, h.grown rfl (align4_mod _) ?_ hs fun a h4 ha => ?_, ?_, ?_⟩
  · simp (disch := omega) only [bytesUsed_writeString, bytesUsed_store_ne, bytesUsed_store]
  · simp (disch := omega) only [byte_writeString_ne, byte_store_ne]
  · simp only [Obj.At, newCell, Memory.data, Option.map_none, Option.getD_none]
    refine ⟨?_, ?_, ?_, ?_, ?_, read_string read_writeString⟩
    · simp (disch := omega) only [word_writeString_ne, word_store, Nat.mod_eq_of_lt]
    all_goals simp (disch := omega) only [word_writeString_ne, word_store_ne, hzero]
  · simp (disch := omega) only [bytesUsed_writeString, bytesUsed_store_ne, bytesUsed_store]

/-- The serial of a long value: the length of the legacy error, and the flag. -/
def longSerial : ℕ := (LONG_LEGACY_ERROR.length * 2 ^ 24) ||| LONG_FLAG

theorem newPropInfo_err
    (hs : m.dataSize < m.bytesUsed + align4 (PROP_INFO_SIZE + name.length + 1)) :
    newPropInfo name value m = .err () m :=
  run_err (allocate_err hs)

theorem newPropInfo_run (hused : m.bytesUsed = off) (h4 : off % 4 = 0)
    (hv : value.length < PROP_VALUE_MAX)
    (hs : off + align4 (PROP_INFO_SIZE + name.length + 1) ≤ m.dataSize) :
    newPropInfo name value m = .ok off
      ((((m.store 0 (off + align4 (PROP_INFO_SIZE + name.length + 1))).writeString
        (PROP_AREA_HEADER_SIZE + (off + PROP_INFO_SIZE)) name).store
          (PROP_AREA_HEADER_SIZE + off) (value.length * 2 ^ 24)).writeString
            (PROP_AREA_HEADER_SIZE + (off + 4)) value) := by
  have hsz := sizes
  have hal := le_align4 (PROP_INFO_SIZE + name.length + 1)
  rw [newPropInfo, run_ok (allocate_ok (hused ▸ hs)), hused, if_neg (Nat.not_le_of_lt hv),
    writeString_ok (by rw [dataSize_store]; omega),
    run_ok (setWord_ok h4 (by simp only [dataSize_writeString, dataSize_store]; omega)),
    writeString_ok (by simp only [dataSize_writeString, dataSize_store]; omega)]
  rfl

/-- The record of a short value. -/
theorem newPropInfo_short (h : Laid m os) (hv : value.length < PROP_VALUE_MAX)
    (hs : m.bytesUsed + align4 (PROP_INFO_SIZE + name.length + 1) ≤ m.dataSize) :
    ∃ m', newPropInfo name value m = .ok m.bytesUsed m' ∧ Laid.Grown m m' ∧
      (Obj.info ⟨m.bytesUsed, name, value, value.length * 2 ^ 24, none⟩).At m' ∧
      m'.bytesUsed = m.bytesUsed + align4 (PROP_INFO_SIZE + name.length + 1) := by
  have hsz := sizes
  have hd := h.dataSize_lt
  have hu := h.used
  have hal := le_align4 (PROP_INFO_SIZE + name.length + 1)
  refine ⟨_, newPropInfo_run rfl hu.2.2 hv hs, h.grown rfl (align4_mod _) ?_ hs fun a h4 ha => ?_,
    ⟨?_, ?_, read_writeString⟩, ?_⟩
  · simp (disch := omega) only [bytesUsed_writeString, bytesUsed_store_ne, bytesUsed_store]
  · simp (disch := omega) only [byte_writeString_ne, byte_store_ne]
  · simp (disch := omega) only [Memory.data, word_writeString_ne, word_store, Nat.mod_eq_of_lt]
  · simp (disch := omega) only [read_writeString_ne, read_store_ne, read_writeString]
  · simp (disch := omega) only [bytesUsed_writeString, bytesUsed_store_ne, bytesUsed_store]

/-- The record of a long value, and the value. -/
theorem newPropInfo_long (h : Laid m os) (hv : PROP_VALUE_MAX ≤ value.length)
    (hs : m.bytesUsed + align4 (PROP_INFO_SIZE + name.length + 1) + align4 (value.length + 1) ≤
      m.dataSize) :
    ∃ m', newPropInfo name value m = .ok m.bytesUsed m' ∧ Laid.Grown m m' ∧
      (Obj.info ⟨m.bytesUsed, name, value, longSerial,
        some (m.bytesUsed + align4 (PROP_INFO_SIZE + name.length + 1))⟩).At m' ∧
      (Obj.text (m.bytesUsed + align4 (PROP_INFO_SIZE + name.length + 1)) value).At m' ∧
      m'.bytesUsed =
        m.bytesUsed + align4 (PROP_INFO_SIZE + name.length + 1) + align4 (value.length + 1) := by
  have hsz := sizes
  have hd := h.dataSize_lt
  have hu := h.used
  have hal := le_align4 (PROP_INFO_SIZE + name.length + 1)
  have hal' := le_align4 (value.length + 1)
  have hmod := align4_mod (PROP_INFO_SIZE + name.length + 1)
  have hmod' := align4_mod (value.length + 1)
  have herr : LONG_LEGACY_ERROR.length = 50 := by decide
  have hserial : longSerial < 2 ^ 32 := by decide
  generalize hsize : align4 (PROP_INFO_SIZE + name.length + 1) = size at *
  have hsecond := @allocate_ok (m.store 0 (m.bytesUsed + size)) (value.length + 1)
  rw [dataSize_store, bytesUsed_store (by omega)] at hsecond
  unfold newPropInfo
  rw [run_ok (allocate_ok (by omega)), hsize, if_pos hv, run_ok (hsecond hs),
    writeString_ok (by simp only [dataSize_store]; omega),
    writeString_ok (by simp only [dataSize_writeString, dataSize_store]; omega),
    run_ok (setWord_ok hu.2.2 (by simp only [dataSize_writeString, dataSize_store]; omega)),
    writeString_ok (by simp only [dataSize_writeString, dataSize_store]; omega),
    run_ok (setWord_ok (by omega) (by simp only [dataSize_writeString, dataSize_store]; omega))]
  refine ⟨_, rfl, h.grown rfl (by omega : (size + align4 (value.length + 1)) % 4 = 0) ?_
    (by omega) fun a h4 ha => ?_, ⟨?_, ?_, ?_⟩, ?_, ?_⟩
  · simp (disch := omega) only [bytesUsed_writeString, bytesUsed_store_ne, bytesUsed_store]
    omega
  · simp (disch := omega) only [byte_writeString_ne, byte_store_ne]
  · simp (disch := omega) only [Memory.data, word_store_ne, word_writeString_ne, word_store]
    exact Nat.mod_eq_of_lt hserial
  · simp (disch := omega) only [read_writeString_ne, read_store_ne, read_writeString]
  · simp (disch := omega) only [Memory.data, word_store, Nat.mod_eq_of_lt]
  · simp (disch := omega) only [Obj.At, read_writeString_ne, read_store_ne, read_writeString]
  · simp (disch := omega) only [bytesUsed_writeString, bytesUsed_store_ne, bytesUsed_store]

/-- There is space for the record of a long value, and none for the value: the record's is lost. -/
theorem newPropInfo_long_err (h : Laid m os) (hv : PROP_VALUE_MAX ≤ value.length)
    (hs : m.bytesUsed + align4 (PROP_INFO_SIZE + name.length + 1) ≤ m.dataSize)
    (hs' : m.dataSize <
      m.bytesUsed + align4 (PROP_INFO_SIZE + name.length + 1) + align4 (value.length + 1)) :
    ∃ m', newPropInfo name value m = .err () m' ∧ Laid.Grown m m' ∧
      m'.bytesUsed = m.bytesUsed + align4 (PROP_INFO_SIZE + name.length + 1) := by
  have hused : (m.store 0 (m.bytesUsed + align4 (PROP_INFO_SIZE + name.length + 1))).bytesUsed =
      m.bytesUsed + align4 (PROP_INFO_SIZE + name.length + 1) :=
    bytesUsed_store (by have := h.dataSize_lt; omega)
  refine ⟨m.store 0 _, ?_,
    h.grown rfl (align4_mod _) hused hs fun a h4 _ => byte_store_ne (.inr h4), hused⟩
  unfold newPropInfo
  rw [run_ok (allocate_ok hs), if_pos hv, run_err (allocate_err (by rwa [hused]))]

end Make

end Aim.Props
