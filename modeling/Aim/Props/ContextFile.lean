import Aim.Props.Trie

/-!
# Props — The file of a trie of contexts

What the serializer writes.  An object is written at the end of the file, and the bytes from there on
are not written again by what comes after it (`Later`), so it is still there in the finished file.

* `Writes w P`: `w` leaves an object with `P` at the offset it returns, if the file is below 4 GiB.
* `NodeIn`: a node of the trie is in a file, with its children in the order of their names and its
  prefixes from the longest to the shortest.
* `serialize_run`: the serializer never fails, and writes the trie and the table of contexts.
-/

namespace Aim.Props.Contexts

open Memory Nat
open Prog (run_ok)

variable {m m' m'' : Memory} {lo lo' a v n : ℕ} {s : Bytes} {contexts : List Bytes}

/-! ### Files that grow -/

/-- `m'` comes after `m`, and has the bytes of `m` from `lo` on. -/
def Later (lo : ℕ) (m m' : Memory) : Prop :=
  m.len ≤ m'.len ∧ ∀ i, lo ≤ i → i < m.len → m'.byte i = m.byte i

theorem Later.refl (lo : ℕ) (m : Memory) : Later lo m m := ⟨le_refl _, fun _ _ _ => rfl⟩

theorem Later.trans (h : Later lo m m') (h' : Later lo m' m'') : Later lo m m'' :=
  ⟨h.1.trans h'.1, fun i hi hm => (h'.2 i hi (hm.trans_le h.1)).trans (h.2 i hi hm)⟩

theorem Later.mono (h : Later lo m m') (hlo : lo ≤ lo') : Later lo' m m' :=
  ⟨h.1, fun i hi hm => h.2 i (hlo.trans hi) hm⟩

/-- What lies past the bound and within the old file is read as before. -/
theorem Later.read (h : Later lo m m') (ha : lo ≤ a) (hn : a + n ≤ m.len) :
    m'.read a n = m.read a n :=
  Agree.read fun i hi hin => h.2 i (ha.trans hi) (by omega)

theorem Later.word (h : Later lo m m') (ha : lo ≤ a) (hn : a + 4 ≤ m.len) : m'.word a = m.word a :=
  Agree.word fun i hi hin => h.2 i (ha.trans hi) (by omega)

/-- A word stored below the bound changes nothing past it. -/
theorem later_store (h : a + 4 ≤ lo) : Later lo m (m.store a v) :=
  ⟨le_refl _, fun _ hi _ => byte_store_ne (.inr (by omega))⟩

theorem u32At_eq (h : a + 4 ≤ m.len) : u32At m a = m.word a := if_pos h

theorem writeU32_run (h : a + 4 ≤ m.len) : writeU32 a v m = .ok () (m.store a v) := if_pos h

theorem writeAll_run (h : a + s.length ≤ m.len) : writeAll a s m = .ok () (m.write a s) := if_pos h

theorem allocate_run : allocate n m = .ok (m.len % 2 ^ 32) (extend m (align4 n)) := rfl

theorem add32_le (a b : ℕ) : add32 a b ≤ a + b := mod_le _ _

/-- A sum of offsets is exact in a file below 4 GiB. -/
theorem add32_eq {b : ℕ} (h : a + b < 2 ^ 32) : add32 a b = a + b := mod_eq_of_lt h

theorem le_align4 (n : ℕ) : n ≤ align4 n := by
  unfold align4
  omega

/-! ### Objects -/

/-- `w` writes an object at the end of the file, and returns where. -/
def Writes (w : Arena ℕ) (P : Memory → ℕ → Prop) : Prop :=
  ∀ m, ∃ o m', w m = .ok o m' ∧ o < 2 ^ 32 ∧ m.len ≤ m'.len ∧
    (m'.len < 2 ^ 32 → Later 0 m m' ∧ ∀ m'', Later m.len m' m'' → P m'' o)

structure StringIn (m : Memory) (s : Bytes) (o : ℕ) : Prop where
  inside : o + s.length + 1 ≤ m.len
  bytes : m.read o (s.length + 1) = s ++ [0]

/-- A string is written with its terminator. -/
theorem writes_string (s : Bytes) : Writes (allocateString s) fun m o => StringIn m s o := by
  intro m
  have hal := le_align4 (s.length + 1)
  have hlen : (extend m (align4 (s.length + 1))).len = m.len + align4 (s.length + 1) := rfl
  refine ⟨m.len % 2 ^ 32, (extend m (align4 (s.length + 1))).write (m.len % 2 ^ 32) s, ?_,
    mod_lt _ (by decide), le_add_right _ _, fun hsmall => ?_⟩
  · rw [allocateString, run_ok allocate_run, run_ok (writeAll_run (by omega))]
    rfl
  rw [len_write] at hsmall
  rw [mod_eq_of_lt (by omega)]
  refine ⟨⟨le_add_right _ _, fun i _ hi => (byte_write_ne (.inl hi)).trans (if_pos hi)⟩,
    fun m'' hm'' => ⟨?_, ?_⟩⟩
  · have := hm''.1
    rw [len_write] at this
    omega
  · rw [hm''.read (le_refl _) (by rw [len_write]; omega), read_add, read_write]
    congr 1
    change [((extend m _).write m.len s).byte (m.len + s.length + 0)] = _
    rw [byte_write_ne (.inr (by omega))]
    exact congrArg (fun c => [c]) (if_neg (by omega))

/-- Of an entry, its name and context. -/
structure EntryIn (contexts : List Bytes) (m : Memory) (e : EntryBuilder) (o : ℕ) : Prop where
  inside : o + PROPERTY_ENTRY_SIZE ≤ m.len
  name : StringIn m e.name (m.word o)
  length : m.word (o + 4) = e.name.length
  context : m.word (o + 8) = indexOf contexts e.context % 2 ^ 32

/-- An entry is written with the string of its name. -/
theorem writes_entry (contexts types : List Bytes) (e : EntryBuilder) :
    Writes (writePropertyEntry contexts types e) fun m o => EntryIn contexts m e o := by
  intro m
  obtain ⟨no, m₂, hstring, hno, hlen₂, hgood⟩ :=
    writes_string e.name (extend m (align4 PROPERTY_ENTRY_SIZE))
  have hlen₁ : (extend m (align4 PROPERTY_ENTRY_SIZE)).len = m.len + 16 := rfl
  have hmod := mod_le m.len (2 ^ 32)
  have h4 := add32_le (m.len % 2 ^ 32) 4
  have h8 := add32_le (m.len % 2 ^ 32) 8
  have h12 := add32_le (m.len % 2 ^ 32) 12
  refine ⟨m.len % 2 ^ 32, (((m₂.store (m.len % 2 ^ 32) no).store (add32 (m.len % 2 ^ 32) 4)
    e.name.length).store (add32 (m.len % 2 ^ 32) 8) (indexOf contexts e.context)).store
    (add32 (m.len % 2 ^ 32) 12) (indexOf types e.type), ?_, mod_lt _ (by decide), ?_, fun hsmall => ?_⟩
  · simp only [writePropertyEntry]
    rw [run_ok allocate_run, run_ok hstring, run_ok (writeU32_run (by omega)),
      run_ok (writeU32_run (by simp only [len_store]; omega)),
      run_ok (writeU32_run (by simp only [len_store]; omega)),
      run_ok (writeU32_run (by simp only [len_store]; omega))]
    rfl
  · simp only [len_store]
    omega
  · simp only [len_store] at hsmall
    rw [mod_eq_of_lt (by omega), add32_eq (by omega), add32_eq (by omega), add32_eq (by omega)]
    obtain ⟨hkeep, hstr⟩ := hgood hsmall
    refine ⟨⟨by simp only [len_store]; omega, fun i _ hi => ?_⟩, fun m'' hm'' => ?_⟩
    · rw [byte_store_ne (.inl (by omega)), byte_store_ne (.inl (by omega)),
        byte_store_ne (.inl (by omega)), byte_store_ne (.inl (by omega)),
        hkeep.2 i (zero_le _) (by omega)]
      exact if_pos hi
    have hlen'' := hm''.1
    simp only [len_store] at hlen''
    have hword : ∀ {k}, m.len ≤ k → k + 4 ≤ m₂.len → m''.word k = _ := fun h h' =>
      hm''.word h (by simpa only [len_store] using h')
    refine ⟨?_, ?_, ?_, ?_⟩
    · change m.len + 16 ≤ _
      omega
    · rw [hword (le_refl _) (by omega), word_store_ne (.inl (by omega)),
        word_store_ne (.inl (by omega)), word_store_ne (.inl (by omega)), word_store,
        mod_eq_of_lt hno]
      refine hstr m'' (.trans ?_ (hm''.mono (by omega)))
      exact ((later_store (by omega)).trans (later_store (by omega))).trans
        ((later_store (by omega)).trans (later_store (by omega)))
    · rw [hword (by omega) (by omega), word_store_ne (.inl (by omega)),
        word_store_ne (.inl (by omega)), word_store]
      have := (hstr m₂ (.refl _ _)).inside
      exact mod_eq_of_lt (by omega)
    · rw [hword (by omega) (by omega), word_store_ne (.inl (by omega)), word_store]

/-! ### Arrays -/

section Array

variable {α : Type} {write : α → Arena ℕ} {P : Memory → α → ℕ → Prop}

/-- The offsets in an array are those of objects. -/
structure ArrayIn (P : Memory → α → ℕ → Prop) (m : Memory) (xs : List α) (array : ℕ) : Prop where
  inside : array + 4 * xs.length ≤ m.len
  get : ∀ i x, xs[i]? = some x → P m x (m.word (array + 4 * i))

variable {xs : List α}

/-- The loop over an array, by induction on what is left: each element is written past what was
there, and its offset goes to the array. -/
theorem fill_run (hw : ∀ x ∈ xs, Writes (write x) fun m o => P m x o) {array index : ℕ}
    (hin : array + 4 * (index + xs.length) ≤ m.len) :
    ∃ m', fill write array index xs m = .ok () m' ∧ m.len ≤ m'.len ∧
      (m'.len < 2 ^ 32 →
        (∀ i < m.len, i < array + 4 * index ∨ array + 4 * (index + xs.length) ≤ i →
          m'.byte i = m.byte i) ∧
        ∀ m'', Later (array + 4 * index) m' m'' →
          ∀ k x, xs[k]? = some x → P m'' x (m''.word (array + 4 * (index + k)))) := by
  induction xs generalizing index m with
  | nil => exact ⟨m, rfl, le_refl _, fun _ => ⟨fun _ _ _ => rfl, fun _ _ _ _ h => by cases h⟩⟩
  | cons x xs ih =>
    rw [List.length_cons] at hin ⊢
    obtain ⟨o, m₁, hwrite, ho, hlen₁, hgood₁⟩ := hw x (.head _) m
    have hadd := add32_le array (4 * index)
    have hin₁ : array + 4 * (index + 1 + xs.length) ≤
        (m₁.store (add32 array (4 * index)) o).len := by
      rw [len_store]
      omega
    obtain ⟨m₃, hfill, hlen₃, hgood₃⟩ := ih (fun y hy => hw y (.tail x hy)) hin₁
    rw [len_store] at hlen₃ hgood₃
    refine ⟨m₃, ?_, by omega, fun hsmall => ?_⟩
    · rw [fill, run_ok hwrite, run_ok (writeU32_run (by omega))]
      exact hfill
    rw [add32_eq (by omega)] at hgood₃
    obtain ⟨hkeep₃, hrest⟩ := hgood₃ hsmall
    obtain ⟨hkeep₁, hhead⟩ := hgood₁ (by omega)
    refine ⟨fun i hi hout => ?_, fun m'' hm'' k y hk => ?_⟩
    · rw [hkeep₃ i (by omega) (by omega), byte_store_ne (by omega), hkeep₁.2 i (zero_le _) hi]
    rcases k with - | k
    · cases hk
      have hword : m''.word (array + 4 * (index + 0)) = o := by
        rw [hm''.word (by omega) (by omega)]
        have hslot : m₃.word (array + 4 * index) =
            (m₁.store (array + 4 * index) o).word (array + 4 * index) :=
          Agree.word fun i _ _ => hkeep₃ i (by omega) (by omega)
        rw [Nat.add_zero, hslot, word_store, Nat.mod_eq_of_lt ho]
      rw [hword]
      refine hhead m'' ⟨by have := hm''.1; omega, fun i hi him => ?_⟩
      rw [hm''.2 i (by omega) (by omega), hkeep₃ i (by omega) (by omega), byte_store_ne (by omega)]
    · have := hrest m'' (hm''.mono (by omega)) k y hk
      rwa [Nat.add_assoc, Nat.add_comm 1 k] at this

/-- One of the lists of a node: its count and its array are in the node. -/
def writeList (write : α → Arena ℕ) (trie count array : ℕ) (xs : List α) : Arena Unit := do
  writeU32 (add32 trie count) xs.length
  let offset ← allocate (4 * xs.length)
  writeU32 (add32 trie array) offset
  fill write offset 0 xs

/-- A list of a node: its count, the offset of its array, and the array. -/
theorem writeList_run (hw : ∀ x ∈ xs, Writes (write x) fun m o => P m x o)
    {trie count array : ℕ} (hcount : trie + count + 4 ≤ m.len)
    (harray : trie + array + 4 ≤ m.len) (hne : count + 4 ≤ array ∨ array + 4 ≤ count) :
    ∃ m', writeList write trie count array xs m = .ok () m' ∧ m.len ≤ m'.len ∧
      (m'.len < 2 ^ 32 →
        (∀ i < m.len, i < trie + count ∨ trie + count + 4 ≤ i →
          i < trie + array ∨ trie + array + 4 ≤ i → m'.byte i = m.byte i) ∧
        m'.word (trie + count) = xs.length ∧ m'.word (trie + array) = m.len ∧
        ∀ m'', Later m.len m' m'' → ArrayIn P m'' xs m.len) := by
  have hc := add32_le trie count
  have ha := add32_le trie array
  have hal : align4 (4 * xs.length) = 4 * xs.length := by
    unfold align4
    omega
  have hmod := mod_le m.len (2 ^ 32)
  have hin : m.len % 2 ^ 32 + 4 * (0 + xs.length) ≤
      ((extend (m.store (add32 trie count) xs.length) (align4 (4 * xs.length))).store
        (add32 trie array) (m.len % 2 ^ 32)).len := by
    change _ ≤ m.len + align4 (4 * xs.length)
    omega
  obtain ⟨m', hfill, hlen, hgood⟩ := fill_run hw hin
  refine ⟨m', ?_, (le_add_right _ _).trans hlen, fun hsmall => ?_⟩
  · rw [writeList, run_ok (writeU32_run (by omega)), run_ok allocate_run,
      run_ok (writeU32_run (by change _ ≤ m.len + _; omega))]
    exact hfill
  change m.len + align4 (4 * xs.length) ≤ m'.len at hlen
  rw [mod_eq_of_lt (by omega), add32_eq (by omega), add32_eq (by omega)] at hgood
  obtain ⟨hkeep, hall⟩ := hgood hsmall
  have hbyte : ∀ i < m.len, m'.byte i = ((m.store (trie + count) xs.length).store
      (trie + array) m.len).byte i := by
    intro i hi
    have hx : (extend (m.store (trie + count) xs.length) (align4 (4 * xs.length))).byte i =
        (m.store (trie + count) xs.length).byte i := if_pos hi
    rw [hkeep i (by change i < m.len + _; omega) (.inl (by omega))]
    change (if _ then _ else (extend _ _).byte i) = _
    rw [hx]
    rfl
  have hword : ∀ a, a + 4 ≤ m.len → m'.word a = ((m.store (trie + count) xs.length).store
      (trie + array) m.len).word a :=
    fun a ha => Agree.word fun i _ hi => hbyte i (by omega)
  refine ⟨fun i hi hi₁ hi₂ => ?_, ?_, ?_, fun m'' hm'' => ⟨?_, fun k x hk => ?_⟩⟩
  · rw [hbyte i hi, byte_store_ne hi₂, byte_store_ne hi₁]
  · rw [hword _ hcount, word_store_ne (by omega), word_store]
    exact mod_eq_of_lt (by omega)
  · rw [hword _ harray, word_store]
    exact mod_eq_of_lt (by omega)
  · have := hm''.1
    omega
  · have := hall m'' hm'' k x hk
    rwa [Nat.zero_add] at this

end Array

/-! ### Sorting -/

theorem less_irrefl (s : Bytes) : s.less s = false := by
  induction s with
  | nil => rfl
  | cons c s ih => simp [Bytes.less, ih]

theorem less_trans {t u : Bytes} (h : s.less t = true) (h' : t.less u = true) : s.less u = true := by
  induction s generalizing t u with
  | nil =>
    rcases t with - | ⟨d, t⟩
    · cases h
    · rcases u with - | ⟨e, u⟩
      · cases h'
      · rfl
  | cons c s ih =>
    rcases t with - | ⟨d, t⟩
    · cases h
    rcases u with - | ⟨e, u⟩
    · cases h'
    simp only [Bytes.less, Bool.or_eq_true, decide_eq_true_eq, Bool.and_eq_true,
      beq_iff_eq] at h h' ⊢
    rcases h with h | ⟨rfl, h⟩ <;> rcases h' with h' | ⟨rfl, h'⟩
    · exact .inl (UInt8.lt_trans h h')
    · exact .inl h
    · exact .inl h'
    · exact .inr ⟨rfl, ih h h'⟩

theorem eq_of_not_less {t : Bytes} (h : s.less t = false) (h' : t.less s = false) : s = t := by
  induction s generalizing t with
  | nil =>
    rcases t with - | ⟨d, t⟩
    · rfl
    · cases h
  | cons c s ih =>
    rcases t with - | ⟨d, t⟩
    · cases h'
    · simp only [Bytes.less, Bool.or_eq_false_iff, decide_eq_false_iff_not, UInt8.not_lt] at h h'
      obtain rfl : c = d := UInt8.le_antisymm h'.1 h.1
      rw [ih (by simpa using h.2) (by simpa using h'.2)]

/-- Objects by their names. -/
theorem strictWeak_name {α : Type} (name : α → Bytes) :
    StrictWeak fun l r => (name l).less (name r) where
  irrefl a := less_irrefl (name a)
  trans _ _ _ := less_trans
  equal a b c h₁ h₂ h₃ h₄ := by
    rw [eq_of_not_less h₁ h₂, eq_of_not_less h₃ h₄]
    exact ⟨less_irrefl _, less_irrefl _⟩

/-- Prefixes are ordered by length alone, the longest first. -/
theorem strictWeak_length :
    StrictWeak fun l r : EntryBuilder => decide (l.name.length > r.name.length) where
  irrefl a := by simp
  trans a b c h h' := by
    simp only [decide_eq_true_eq] at h h' ⊢
    omega
  equal a b c h₁ h₂ h₃ h₄ := by
    simp only [decide_eq_false_iff_not] at h₁ h₂ h₃ h₄ ⊢
    omega

/-! ### Nodes -/

inductive NodeIn (contexts : List Bytes) (m : Memory) : BuilderNode → ℕ → Prop
  | mk {e : EntryBuilder} {cs cs' : List BuilderNode} {ps ps' es es' : List EntryBuilder} {o : ℕ}
      (inside : o + TRIE_NODE_SIZE ≤ m.len) (entry : EntryIn contexts m e (m.word o))
      (prefixPerm : ps'.Perm ps)
      (longestFirst : ps'.Pairwise fun p q => q.name.length ≤ p.name.length)
      (prefixCount : m.word (o + 12) = ps'.length)
      (prefixArray : ArrayIn (EntryIn contexts) m ps' (m.word (o + 16)))
      (exactPerm : es'.Perm es) (exactCount : m.word (o + 20) = es'.length)
      (exactArray : ArrayIn (EntryIn contexts) m es' (m.word (o + 24)))
      (childPerm : cs'.Perm cs)
      (ordered : cs'.Pairwise fun c d => d.entry.name.less c.entry.name = false)
      (childCount : m.word (o + 4) = cs'.length)
      (childInside : m.word (o + 8) + 4 * cs'.length ≤ m.len)
      (childAt : ∀ i c, cs'[i]? = some c → NodeIn contexts m c (m.word (m.word (o + 8) + 4 * i))) :
      NodeIn contexts m (.mk e cs ps es) o

theorem depth_le_depths {c : BuilderNode} {cs : List BuilderNode} (h : c ∈ cs) :
    c.depth ≤ BuilderNode.depths cs := by
  induction cs with
  | nil => cases h
  | cons d cs ih =>
    rcases List.mem_cons.1 h with rfl | h
    · exact le_max_left _ _
    · exact (ih h).trans (le_max_right _ _)

/-- A node is an entry and three lists. -/
theorem writeTrieNode_eq (sorter : Sorter) (contexts types : List Bytes) (fuel : ℕ)
    (e : EntryBuilder) (cs : List BuilderNode) (ps es : List EntryBuilder) :
    writeTrieNode sorter contexts types (fuel + 1) (.mk e cs ps es) = do
      let trie ← allocate TRIE_NODE_SIZE
      let entry ← writePropertyEntry contexts types e
      writeU32 trie entry
      writeList (writePropertyEntry contexts types) trie 12 16
        (sorter.sort (fun l r => decide (l.name.length > r.name.length)) ps)
      writeList (writePropertyEntry contexts types) trie 20 24
        (sorter.sort (fun l r => l.name.less r.name) es)
      writeList (writeTrieNode sorter contexts types fuel) trie 4 8
        (sorter.sort (fun l r => l.entry.name.less r.entry.name) cs)
      return trie := by
  simp only [writeList, Prog.bind_assoc]
  rfl

/-- A node is written with all that is below it, by induction on the depth. -/
theorem writes_node (sorter : Sorter) (contexts types : List Bytes) {fuel : ℕ} {n : BuilderNode}
    (hfuel : n.depth ≤ fuel) :
    Writes (writeTrieNode sorter contexts types fuel n) fun m o => NodeIn contexts m n o := by
  induction fuel generalizing n with
  | zero =>
    obtain ⟨e, cs, ps, es⟩ := n
    rw [BuilderNode.depth] at hfuel
    omega
  | succ fuel ih =>
    obtain ⟨e, cs, ps, es⟩ := n
    rw [BuilderNode.depth] at hfuel
    intro m
    have hcs : ∀ c ∈ sorter.sort (fun l r => l.entry.name.less r.entry.name) cs,
        Writes (writeTrieNode sorter contexts types fuel c) fun m o => NodeIn contexts m c o := by
      intro c hc
      have hmem := (sorter.perm _ cs (strictWeak_name fun c => c.entry.name)).mem_iff.1 hc
      exact ih ((depth_le_depths hmem).trans (by omega))
    have hentry : ∀ (es : List EntryBuilder), ∀ e ∈ es,
        Writes (writePropertyEntry contexts types e) fun m o => EntryIn contexts m e o :=
      fun _ e _ => writes_entry contexts types e
    have hlen₁ : (extend m (align4 TRIE_NODE_SIZE)).len = m.len + 28 := rfl
    have hmod := mod_le m.len (2 ^ 32)
    obtain ⟨eo, m₂, hrun₂, heo, hlen₂, hgood₂⟩ :=
      writes_entry contexts types e (extend m (align4 TRIE_NODE_SIZE))
    obtain ⟨m₄, hrun₄, hlen₄, hgood₄⟩ := writeList_run (m := m₂.store (m.len % 2 ^ 32) eo)
      (hentry (sorter.sort (fun l r => decide (l.name.length > r.name.length)) ps))
      (by rw [len_store]; omega : m.len % 2 ^ 32 + 12 + 4 ≤ _)
      (by rw [len_store]; omega : m.len % 2 ^ 32 + 16 + 4 ≤ _) (by omega)
    rw [len_store] at hlen₄
    obtain ⟨m₅, hrun₅, hlen₅, hgood₅⟩ := writeList_run (m := m₄)
      (hentry (sorter.sort (fun l r => l.name.less r.name) es))
      (by omega : m.len % 2 ^ 32 + 20 + 4 ≤ _) (by omega : m.len % 2 ^ 32 + 24 + 4 ≤ _) (by omega)
    obtain ⟨m₆, hrun₆, hlen₆, hgood₆⟩ := writeList_run (m := m₅) hcs
      (by omega : m.len % 2 ^ 32 + 4 + 4 ≤ _) (by omega : m.len % 2 ^ 32 + 8 + 4 ≤ _) (by omega)
    refine ⟨m.len % 2 ^ 32, m₆, ?_, mod_lt _ (by decide), by omega, fun hsmall => ?_⟩
    · rw [writeTrieNode_eq, run_ok allocate_run, run_ok hrun₂, run_ok (writeU32_run (by omega)),
        run_ok hrun₄, run_ok hrun₅, run_ok hrun₆]
      rfl
    rw [mod_eq_of_lt (by omega)] at hgood₄ hgood₅ hgood₆ ⊢
    obtain ⟨hkeep₂, hentry₂⟩ := hgood₂ (by omega)
    obtain ⟨hkeep₄, hcount₄, harray₄, hall₄⟩ := hgood₄ (by omega)
    obtain ⟨hkeep₅, hcount₅, harray₅, hall₅⟩ := hgood₅ (by omega)
    obtain ⟨hkeep₆, hcount₆, harray₆, hall₆⟩ := hgood₆ (by omega)
    rw [len_store] at hkeep₄ harray₄ hall₄
    -- what is after the node is not written again
    have hlater₃ : Later (m.len + 28) m₂ (m₂.store m.len eo) := later_store (by omega)
    have hlater₄ : Later (m.len + 28) (m₂.store m.len eo) m₄ :=
      ⟨hlen₄, fun i hi him => hkeep₄ i him (by omega) (by omega)⟩
    have hlater₅ : Later (m.len + 28) m₄ m₅ :=
      ⟨hlen₅, fun i hi him => hkeep₅ i him (by omega) (by omega)⟩
    have hlater₆ : Later (m.len + 28) m₅ m₆ :=
      ⟨hlen₆, fun i hi him => hkeep₆ i him (by omega) (by omega)⟩
    refine ⟨⟨by omega, fun i _ hi => ?_⟩, fun m'' hm'' => ?_⟩
    · rw [hkeep₆ i (by omega) (by omega) (by omega), hkeep₅ i (by omega) (by omega) (by omega),
        hkeep₄ i (by omega) (by omega) (by omega), byte_store_ne (.inl hi),
        hkeep₂.2 i (zero_le _) (by omega)]
      exact if_pos hi
    have hword₆ : ∀ k, m.len ≤ k → k + 4 ≤ m₆.len → m''.word k = m₆.word k :=
      fun k hk hk' => hm''.word hk hk'
    have hword₅ : ∀ k, m.len ≤ k → k + 4 ≤ m.len + 28 → k + 4 ≤ m.len + 4 ∨ m.len + 12 ≤ k →
        m''.word k = m₅.word k := by
      intro k hk hk' hout
      rw [hword₆ k hk (by omega)]
      exact Agree.word fun i hi hi' => hkeep₆ i (by omega) (by omega) (by omega)
    have hword₄ : ∀ k, m.len ≤ k → k + 4 ≤ m.len + 4 ∨ m.len + 12 ≤ k → k + 4 ≤ m.len + 20 →
        m''.word k = m₄.word k := by
      intro k hk hout hk'
      rw [hword₅ k hk (by omega) hout]
      exact Agree.word fun i hi hi' => hkeep₅ i (by omega) (by omega) (by omega)
    have hlater₄'' : Later (m.len + 28) m₄ m'' :=
      (hlater₅.trans hlater₆).trans (hm''.mono (by omega))
    have hlen'' := hm''.1
    have hlong := (sorter.sorted _ ps strictWeak_length).imp fun {p q} h =>
      Nat.le_of_not_lt (of_decide_eq_false h)
    have harr := hall₆ m'' (hm''.mono (by omega))
    refine .mk ?_ ?_ (sorter.perm _ ps strictWeak_length) hlong ?_ ?_
      (sorter.perm _ es (strictWeak_name fun e => e.name)) ?_ ?_
      (sorter.perm _ cs (strictWeak_name fun c => c.entry.name))
      (sorter.sorted _ cs (strictWeak_name fun c => c.entry.name)) ?_ ?_ ?_
    · change m.len + 28 ≤ _
      omega
    · have hslot : m₄.word m.len = (m₂.store m.len eo).word m.len :=
        Agree.word fun i hi hi' => hkeep₄ i (by omega) (by omega) (by omega)
      rw [hword₄ _ (le_refl _) (by omega) (by omega), hslot, word_store, mod_eq_of_lt heo]
      exact hentry₂ m'' ((hlater₃.trans hlater₄).trans hlater₄'')
    · rw [hword₄ _ (by omega) (by omega) (by omega), hcount₄]
    · rw [hword₄ _ (by omega) (by omega) (by omega), harray₄]
      exact hall₄ m'' (hlater₄''.mono (by omega))
    · rw [hword₅ _ (by omega) (by omega) (by omega), hcount₅]
    · rw [hword₅ _ (by omega) (by omega) (by omega), harray₅]
      exact hall₅ m'' ((hlater₆.mono (by omega)).trans (hm''.mono (by omega)))
    · rw [hword₆ _ (by omega) (by omega), hcount₆]
    · rw [hword₆ _ (by omega) (by omega), harray₆]
      exact harr.inside
    · intro i c hc
      rw [hword₆ (m.len + 8) (by omega) (by omega), harray₆]
      exact harr.get i c hc

/-! ### The file -/

/-- A table of strings. -/
theorem serializeStrings_run (strings : List Bytes) (m : Memory) :
    ∃ m', serializeStrings strings m = .ok () m' ∧ m.len + 4 ≤ m'.len ∧
      (m'.len < 2 ^ 32 → Later 0 m m' ∧
        ∀ m'', Later m.len m' m'' → ArrayIn StringIn m'' strings (m.len + 4)) := by
  have hal : align4 (4 * strings.length) = 4 * strings.length := by
    unfold align4
    omega
  have hin : (m.len + 4) % 2 ^ 32 + 4 * (0 + strings.length) ≤
      (extend ((extend m (align4 4)).store (m.len % 2 ^ 32) strings.length)
        (align4 (4 * strings.length))).len := by
    change _ ≤ m.len + 4 + align4 (4 * strings.length)
    omega
  obtain ⟨m', hfill, hlen, hgood⟩ := fill_run (P := StringIn) (fun s _ => writes_string s) hin
  change m.len + 4 + align4 (4 * strings.length) ≤ m'.len at hlen
  refine ⟨m', ?_, by omega, fun hsmall => ?_⟩
  · rw [serializeStrings, run_ok allocate_run,
      run_ok (writeU32_run (by change _ ≤ m.len + 4; omega))]
    exact hfill
  rw [mod_eq_of_lt (by omega : m.len < 2 ^ 32), mod_eq_of_lt (by omega)] at hgood
  obtain ⟨hkeep, hall⟩ := hgood hsmall
  refine ⟨⟨by omega, fun i _ hi => ?_⟩, fun m'' hm'' => ⟨?_, fun k s hk => ?_⟩⟩
  · rw [hkeep i (by change i < m.len + 4 + _; omega) (.inl (by omega))]
    refine (if_pos (by change i < m.len + 4; omega)).trans ?_
    rw [byte_store_ne (.inl hi)]
    exact if_pos hi
  · have := hm''.1
    omega
  · have := hall m'' (hm''.mono (by omega)) k s hk
    rwa [Nat.zero_add] at this

/-- A trie and its contexts are in a file. -/
structure FileIn (m : Memory) (b : TrieBuilder) : Prop where
  accepted : accepts m = true
  table : ArrayIn StringIn m b.contexts (m.word 12 + 4)
  root : NodeIn b.contexts m b.root (m.word 20)

/-- Every trie is serialized, and below 4 GiB its file holds it. -/
theorem serialize_run (sorter : Sorter) (b : TrieBuilder) :
    ∃ m, serialize sorter b (.zero 0) = .ok () m ∧ (m.len < 2 ^ 32 → FileIn m b) := by
  obtain ⟨m₃, hrun₃, hlen₃, hgood₃⟩ := serializeStrings_run b.contexts
    ((((extend (.zero 0) (align4 HEADER_SIZE)).store 0 1).store 4 1).store 12 24)
  obtain ⟨m₄, hrun₄, hlen₄, hgood₄⟩ := serializeStrings_run b.types (m₃.store 16 (m₃.len % 2 ^ 32))
  obtain ⟨ro, m₅, hrun₅, hro, hlen₅, hgood₅⟩ :=
    writes_node sorter b.contexts b.types (le_refl b.root.depth)
      (m₄.store 8 (m₄.len % 2 ^ 32))
  change 24 + 4 ≤ m₃.len at hlen₃
  change m₃.len + 4 ≤ m₄.len at hlen₄
  change m₄.len ≤ m₅.len at hlen₅
  refine ⟨(m₅.store 20 ro).store 8 (m₅.len % 2 ^ 32), ?_, fun hsmall => ?_⟩
  · have h0 : (Memory.zero 0).len % 2 ^ 32 = 0 := rfl
    have h4 : add32 0 4 = 4 := rfl
    have h8 : add32 0 8 = 8 := rfl
    have h12 : add32 0 12 = 12 := rfl
    have h16 : add32 0 16 = 16 := rfl
    have h20 : add32 0 20 = 20 := rfl
    have hsize : ∀ m : Memory, size m = .ok (m.len % 2 ^ 32) m := fun _ => rfl
    simp only [serialize]
    rw [run_ok allocate_run, h0]
    simp only [h4, h8, h12, h16, h20]
    have hsize₂ : size (((extend (.zero 0) (align4 HEADER_SIZE)).store 0 1).store 4 1) =
      .ok 24 (((extend (.zero 0) (align4 HEADER_SIZE)).store 0 1).store 4 1) := rfl
    rw [run_ok (writeU32_run (by decide)), run_ok (writeU32_run (by decide)), run_ok hsize₂,
      run_ok (writeU32_run (by decide)), run_ok hrun₃, run_ok (hsize _),
      run_ok (writeU32_run (by omega)), run_ok hrun₄, run_ok (hsize _),
      run_ok (writeU32_run (by omega)), run_ok hrun₅, run_ok (writeU32_run (by omega)),
      run_ok (hsize _)]
    exact writeU32_run (by rw [len_store]; omega)
  change m₅.len < 2 ^ 32 at hsmall
  obtain ⟨hkeep₃, htable⟩ := hgood₃ (by omega)
  obtain ⟨hkeep₄, -⟩ := hgood₄ (by omega)
  obtain ⟨hkeep₅, hnode⟩ := hgood₅ hsmall
  have hlater₅ : Later 24 m₅ ((m₅.store 20 ro).store 8 (m₅.len % 2 ^ 32)) :=
    (later_store (by decide)).trans (later_store (by decide))
  have hlater₄ : Later 24 m₄ ((m₅.store 20 ro).store 8 (m₅.len % 2 ^ 32)) :=
    ((later_store (by decide)).trans (hkeep₅.mono (zero_le _))).trans hlater₅
  have hlater₃ : Later 24 m₃ ((m₅.store 20 ro).store 8 (m₅.len % 2 ^ 32)) :=
    ((later_store (by decide)).trans (hkeep₄.mono (zero_le _))).trans hlater₄
  -- a word of the header that was written before the tables
  have hword : ∀ k, k + 4 ≤ 8 ∨ 12 ≤ k → k + 4 ≤ 16 →
      ((m₅.store 20 ro).store 8 (m₅.len % 2 ^ 32)).word k =
        ((((extend (.zero 0) (align4 HEADER_SIZE)).store 0 1).store 4 1).store 12 24).word k := by
    intro k hk hk'
    rw [word_store_ne (by omega), word_store_ne (by omega), hkeep₅.word (zero_le _) (by
      rw [len_store]; omega), word_store_ne (by omega), hkeep₄.word (zero_le _) (by
      rw [len_store]; omega), word_store_ne (by omega), hkeep₃.word (zero_le _) (by
      change _ ≤ 24; omega)]
  refine ⟨?_, ?_, ?_⟩
  · have hversion : u32At ((m₅.store 20 ro).store 8 (m₅.len % 2 ^ 32)) 4 = 1 := by
      rw [u32At_eq (by change 8 ≤ m₅.len; omega), hword 4 (by decide) (by decide),
        word_store_ne (by decide)]
      exact word_store
    have hlength : u32At ((m₅.store 20 ro).store 8 (m₅.len % 2 ^ 32)) 8 = m₅.len := by
      rw [u32At_eq (by change 12 ≤ m₅.len; omega), word_store, mod_mod, mod_eq_of_lt hsmall]
    rw [accepts, hversion, hlength]
    simp only [len_store, Bool.and_eq_true, decide_eq_true_eq, beq_iff_eq]
    refine ⟨⟨decide_eq_true ?_, le_refl _⟩, trivial⟩
    change 24 ≤ _
    omega
  · rw [hword 12 (by decide) (by decide), word_store]
    exact htable _ hlater₃
  · rw [word_store_ne (by decide), word_store, mod_eq_of_lt hro]
    exact hnode _ (hlater₅.mono (by rw [len_store]; omega))

end Aim.Props.Contexts
