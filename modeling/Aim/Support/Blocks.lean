import Mathlib

/-!
# Support — Blocks

Two things an allocator over a range rests on.  An ordered map as the list of its entries by
increasing key (`SortedMap`), with the lookups an ordered map offers.  And tilings: lists of blocks
`(start, length)` that are disjoint, not empty, and together the whole of `[0, n)`.

* `SortedMap.ext`: two sorted lists with the same entries are equal.
* `Tiles.split`, `Tiles.merge`: a block may be cut in two, and two adjacent blocks joined.
-/

namespace SortedMap

open List

variable {K V : Type} [LinearOrder K]

/-- The keys increase. -/
def Sorted (m : List (K × V)) : Prop := m.Pairwise fun a b => a.1 < b.1

/-- The entry at `k`, replaced or put in its place. -/
def insert (k : K) (v : V) : List (K × V) → List (K × V)
  | [] => [(k, v)]
  | e :: m => if k < e.1 then (k, v) :: e :: m else if k = e.1 then (k, v) :: m
      else e :: insert k v m

/-- The map without an entry at `k`. -/
def erase (k : K) (m : List (K × V)) : List (K × V) := m.filter fun e => e.1 ≠ k

/-- The value at `k`. -/
def find (k : K) (m : List (K × V)) : Option V := (m.find? fun e => e.1 = k).map Prod.snd

/-- The last entry with a key below `k`. -/
def lastBelow (k : K) (m : List (K × V)) : Option (K × V) := (m.filter fun e => e.1 < k).getLast?

variable {m m' : List (K × V)} {k : K} {v : V} {e : K × V}

theorem mem_erase : e ∈ erase k m ↔ e ∈ m ∧ e.1 ≠ k := by simp [erase]

variable (h : Sorted m)

include h

theorem Sorted.erase (k : K) : Sorted (erase k m) := h.filter _

theorem mem_insert : e ∈ insert k v m ↔ e = (k, v) ∨ (e ∈ m ∧ e.1 ≠ k) := by
  induction m with
  | nil => simp [insert]
  | cons a m ih =>
    obtain ⟨ha, hm⟩ := pairwise_cons.1 h
    unfold insert
    split
    · next hlt =>
        have hne : ∀ b ∈ a :: m, b.1 ≠ k := by
          intro b hb
          rcases mem_cons.1 hb with rfl | hb
          · exact ne_of_gt hlt
          · exact ne_of_gt (hlt.trans (ha b hb))
        rw [mem_cons]
        exact or_congr_right ⟨fun hb => ⟨hb, hne e hb⟩, And.left⟩
    · split
      · next heq =>
          have hne : ∀ b ∈ m, b.1 ≠ k := fun b hb => ne_of_gt (heq ▸ ha b hb)
          rw [mem_cons, mem_cons]
          refine or_congr_right ⟨fun hb => ⟨.inr hb, hne e hb⟩, ?_⟩
          rintro ⟨rfl | hb, hk⟩
          · exact absurd heq.symm hk
          · exact hb
      · next hlt heq =>
          rw [mem_cons, ih hm, mem_cons]
          constructor
          · rintro (rfl | rfl | ⟨hb, hk⟩)
            · exact .inr ⟨.inl rfl, fun hk => heq hk.symm⟩
            · exact .inl rfl
            · exact .inr ⟨.inr hb, hk⟩
          · rintro (rfl | ⟨rfl | hb, hk⟩)
            · exact .inr (.inl rfl)
            · exact .inl rfl
            · exact .inr (.inr ⟨hb, hk⟩)

theorem Sorted.insert (k : K) (v : V) : Sorted (insert k v m) := by
  induction m with
  | nil => exact pairwise_singleton _ _
  | cons a m ih =>
    obtain ⟨ha, hm⟩ := pairwise_cons.1 h
    unfold SortedMap.insert
    split
    · next hlt =>
        refine pairwise_cons.2 ⟨fun b hb => ?_, h⟩
        rcases mem_cons.1 hb with rfl | hb
        · exact hlt
        · exact hlt.trans (ha b hb)
    · split
      · next heq => exact pairwise_cons.2 ⟨fun b hb => heq ▸ ha b hb, hm⟩
      next hlt heq =>
        refine pairwise_cons.2 ⟨fun b hb => ?_, ih hm⟩
        rcases (mem_insert hm).1 hb with rfl | ⟨hb, -⟩
        · exact lt_of_le_of_ne (not_lt.1 hlt) fun e => heq e.symm
        · exact ha b hb

theorem Sorted.nodup : m.Nodup := by
  refine List.Pairwise.imp ?_ (show m.Pairwise fun a b => a.1 < b.1 from h)
  rintro a _ hab rfl
  exact lt_irrefl _ hab

/-- A key has one entry. -/
theorem Sorted.unique {a b : K × V} (ha : a ∈ m) (hb : b ∈ m) (hk : a.1 = b.1) : a = b := by
  induction m with
  | nil => cases ha
  | cons c m ih =>
    obtain ⟨hc, hm⟩ := pairwise_cons.1 h
    rcases mem_cons.1 ha with rfl | ha' <;> rcases mem_cons.1 hb with rfl | hb'
    · rfl
    · exact absurd hk (ne_of_lt (hc b hb'))
    · exact absurd hk (ne_of_gt (hc a ha'))
    · exact ih hm ha' hb'

/-- Sorted maps with the same entries are equal. -/
theorem ext (h' : Sorted m') (he : ∀ e, e ∈ m ↔ e ∈ m') : m = m' := by
  refine List.Perm.eq_of_pairwise ?_ h h' ((perm_ext_iff_of_nodup h.nodup h'.nodup).2 he)
  intro a b _ _ hab hba
  exact absurd hab (not_lt.2 hba.le)

theorem find_eq_some : find k m = some v ↔ (k, v) ∈ m := by
  unfold find
  rw [Option.map_eq_some_iff]
  constructor
  · rintro ⟨⟨k', v'⟩, hf, rfl⟩
    have hk : k' = k := by simpa using find?_some hf
    exact hk ▸ mem_of_find?_eq_some hf
  intro hm
  cases hf : m.find? fun e => e.1 = k with
  | none => exact absurd hm fun hm => by simpa using find?_eq_none.1 hf _ hm
  | some e =>
    have hk : e.1 = k := by simpa using find?_some hf
    exact ⟨e, rfl, by rw [h.unique (mem_of_find?_eq_some hf) hm hk]⟩

theorem find_eq_none : find k m = none ↔ ∀ v, (k, v) ∉ m := by
  rw [Option.eq_none_iff_forall_ne_some]
  exact forall_congr' fun v => not_congr (find_eq_some h)

omit h

theorem lastBelow_eq_some (h : lastBelow k m = some e) : e ∈ m ∧ e.1 < k := by
  have := mem_of_getLast? h
  simpa using this

/-- The entry `lastBelow` gives is the greatest below the key. -/
theorem le_lastBelow (h : Sorted m) {b : K × V} (he : lastBelow k m = some e) (hb : b ∈ m)
    (hk : b.1 < k) : b.1 ≤ e.1 := by
  have hs : Sorted (m.filter fun e => e.1 < k) := h.filter _
  have hbm : b ∈ m.filter fun e => e.1 < k := by simp [hb, hk]
  obtain ⟨l, hl⟩ := getLast?_eq_some_iff.1 he
  rw [hl] at hs hbm
  rcases mem_append.1 hbm with hb' | hb'
  · exact ((pairwise_append.1 hs).2.2 b hb' e (by simp)).le
  · rw [mem_singleton.1 hb']

theorem lastBelow_eq_none (h : lastBelow k m = none) {b : K × V} (hb : b ∈ m) : ¬ b.1 < k := by
  intro hk
  have : m.filter (fun e => e.1 < k) = [] := getLast?_eq_none_iff.1 h
  have hbm : b ∈ m.filter fun e => e.1 < k := by simp [hb, hk]
  rw [this] at hbm
  cases hbm

theorem insert_perm (h : Sorted m) (hk : ∀ v', (k, v') ∉ m) :
    (insert k v m).Perm ((k, v) :: m) := by
  refine (perm_ext_iff_of_nodup (h.insert k v).nodup ?_).2 fun e => ?_
  · exact nodup_cons.2 ⟨hk v, h.nodup⟩
  · rw [mem_insert h, mem_cons]
    exact or_congr_right ⟨And.left, fun he => ⟨he, fun e' => hk e.2 (e' ▸ he)⟩⟩

theorem erase_perm (h : Sorted m) (hk : (k, v) ∈ m) : m.Perm ((k, v) :: erase k m) := by
  refine (perm_ext_iff_of_nodup h.nodup ?_).2 fun e => ?_
  · exact nodup_cons.2 ⟨fun hm => (mem_erase.1 hm).2 rfl, (h.erase k).nodup⟩
  rw [mem_cons, mem_erase]
  constructor
  · intro he
    by_cases e' : e.1 = k
    · exact .inl (h.unique he hk e')
    · exact .inr ⟨he, e'⟩
  · rintro (rfl | ⟨he, -⟩)
    · exact hk
    · exact he

end SortedMap

/-! ### Tilings -/

/-- Two blocks have no point in common. -/
def Apart (a b : ℕ × ℕ) : Prop := a.1 + a.2 ≤ b.1 ∨ b.1 + b.2 ≤ a.1

/-- The blocks of `L` are not empty, disjoint, and together `[0, n)`. -/
structure Tiles (L : List (ℕ × ℕ)) (n : ℕ) : Prop where
  pos : ∀ b ∈ L, 0 < b.2
  le : ∀ b ∈ L, b.1 + b.2 ≤ n
  apart : L.Pairwise Apart
  cover : ∀ x < n, ∃ b ∈ L, b.1 ≤ x ∧ x < b.1 + b.2

theorem Apart.symm {a b : ℕ × ℕ} (h : Apart a b) : Apart b a := Or.symm h

instance : Std.Symm Apart := ⟨fun _ _ => Apart.symm⟩

namespace Tiles

variable {L L' : List (ℕ × ℕ)} {n o a b : ℕ}

theorem whole (hn : 0 < n) : Tiles [(0, n)] n where
  pos := by simpa using hn
  le := by simp
  apart := List.pairwise_singleton _ _
  cover := fun x hx => ⟨(0, n), by simp, by simp, by simpa using hx⟩

theorem perm (h : Tiles L n) (hp : L.Perm L') : Tiles L' n where
  pos := fun b hb => h.pos b (hp.mem_iff.2 hb)
  le := fun b hb => h.le b (hp.mem_iff.2 hb)
  apart := (hp.pairwise_iff Apart.symm).1 h.apart
  cover := fun x hx => by
    obtain ⟨b, hb, h₁, h₂⟩ := h.cover x hx
    exact ⟨b, hp.mem_iff.1 hb, h₁, h₂⟩

/-- A block cut in two. -/
theorem split (h : Tiles ((o, a + b) :: L) n) (ha : 0 < a) (hb : 0 < b) :
    Tiles ((o, a) :: (o + a, b) :: L) n := by
  have hle := h.le (o, a + b) (by simp)
  obtain ⟨hap, hL⟩ := List.pairwise_cons.1 h.apart
  refine ⟨?_, ?_, ?_, ?_⟩
  · simp only [List.mem_cons, forall_eq_or_imp]
    exact ⟨ha, hb, fun c hc => h.pos c (.tail _ hc)⟩
  · simp only [List.mem_cons, forall_eq_or_imp]
    exact ⟨by omega, by omega, fun c hc => h.le c (.tail _ hc)⟩
  · have hc : ∀ c ∈ L, Apart (o, a) c ∧ Apart (o + a, b) c := by
      intro c hc
      have := hap c hc
      simp only [Apart] at this ⊢
      omega
    refine List.pairwise_cons.2 ⟨fun c hc' => ?_, List.pairwise_cons.2 ⟨fun c hc' => ?_, hL⟩⟩
    · rcases List.mem_cons.1 hc' with rfl | hc'
      · exact .inl le_rfl
      · exact (hc c hc').1
    · exact (hc c hc').2
  · intro x hx
    obtain ⟨c, hc, h₁, h₂⟩ := h.cover x hx
    rcases List.mem_cons.1 hc with rfl | hc
    · by_cases hxa : x < o + a
      · exact ⟨(o, a), by simp, h₁, hxa⟩
      · exact ⟨(o + a, b), by simp, not_lt.1 hxa, by omega⟩
    · exact ⟨c, by simp [hc], h₁, h₂⟩

/-- Two adjacent blocks joined. -/
theorem merge (h : Tiles ((o, a) :: (o + a, b) :: L) n) : Tiles ((o, a + b) :: L) n := by
  have ha := h.pos (o, a) (by simp)
  have hle := h.le (o + a, b) (by simp)
  obtain ⟨hap, hL⟩ := List.pairwise_cons.1 h.apart
  obtain ⟨hbp, hL⟩ := List.pairwise_cons.1 hL
  refine ⟨?_, ?_, ?_, ?_⟩
  · simp only [List.mem_cons, forall_eq_or_imp]
    exact ⟨Nat.add_pos_left ha b, fun c hc => h.pos c (by simp [hc])⟩
  · simp only [List.mem_cons, forall_eq_or_imp]
    exact ⟨by omega, fun c hc => h.le c (by simp [hc])⟩
  · refine List.pairwise_cons.2 ⟨fun c hc => ?_, hL⟩
    have h₁ := hap c (.tail _ hc)
    have h₂ := hbp c hc
    have hc₀ := h.pos c (by simp [hc])
    simp only [Apart] at h₁ h₂ ⊢
    omega
  · intro x hx
    obtain ⟨c, hc, h₁, h₂⟩ := h.cover x hx
    simp only [List.mem_cons] at hc
    rcases hc with rfl | rfl | hc
    · exact ⟨(o, a + b), by simp, h₁, by omega⟩
    · exact ⟨(o, a + b), by simp, by omega, by omega⟩
    · exact ⟨c, by simp [hc], h₁, h₂⟩

/-- No other block starts inside a block. -/
theorem start_notMem {c d : ℕ × ℕ} (h : Tiles (d :: L) n) (hc : c ∈ L) :
    ¬ (d.1 ≤ c.1 ∧ c.1 < d.1 + d.2) := by
  have hap := (List.pairwise_cons.1 h.apart).1 c hc
  have := h.pos c (.tail _ hc)
  simp only [Apart] at hap
  omega

/-- Of two blocks, the one that starts first ends before the other starts. -/
theorem end_le_start {c d : ℕ × ℕ} (h : Tiles L n) (hc : c ∈ L) (hd : d ∈ L) (hlt : c.1 < d.1) :
    c.1 + c.2 ≤ d.1 := by
  have hne : c ≠ d := fun e => absurd hlt (e ▸ lt_irrefl _)
  have hap : Apart c d := h.apart.forall hc hd hne
  simp only [Apart] at hap
  omega

/-- Blocks that never touch are one block. -/
theorem mem_iff_whole (h : Tiles L n) (hn : 0 < n)
    (hco : ∀ c ∈ L, ∀ d ∈ L, c ≠ d → c.1 + c.2 ≠ d.1) (d : ℕ × ℕ) : d ∈ L ↔ d = (0, n) := by
  obtain ⟨c, hc, h0, hlt⟩ := h.cover 0 hn
  have hle := h.le c hc
  have hc₂ : c.2 = n := by
    by_contra hne
    obtain ⟨e, he, h₁, h₂⟩ := h.cover c.2 (by omega)
    have hce : c ≠ e := by
      rintro rfl
      omega
    have hap : Apart c e := h.apart.forall hc he hce
    have hend := hco c hc e he hce
    simp only [Apart] at hap
    omega
  obtain rfl : c = (0, n) := Prod.ext (Nat.le_zero.1 h0) hc₂
  refine ⟨fun hd => ?_, fun hd => hd ▸ hc⟩
  by_contra hne
  have hap : Apart (0, n) d := h.apart.forall hc hd (Ne.symm hne)
  have := h.pos d hd
  have := h.le d hd
  simp only [Apart] at hap
  omega

end Tiles
