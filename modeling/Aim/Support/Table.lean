import Mathlib

/-!
# Support — Tables

A table is a finite map: `AList` at a constant family.  What a program's `get_mut` does to a map
is `modify`; what a program counts over the values of a map is `total`.

* `lookup_insert_ite`, `lookup_erase_ite`, `lookup_modify`: one equation per update, at any key.
* `total_erase`, `total_insert`: how a sum over the values moves with an update.
* `mapValues`, `retain`: a loop over all the entries, and what it leaves at a key.
-/

/-- A finite map from `K` to `V`. -/
abbrev Table (K V : Type) := AList fun _ : K => V

namespace AList

variable {K V : Type}

/-- The values of the table, in the order of its entries. -/
def values (t : Table K V) : List V := t.entries.map Sigma.snd

/-- The sum of `f` over the values. -/
def total (t : Table K V) (f : V → ℕ) : ℕ := (t.values.map f).sum

theorem total_eq (t : Table K V) (f : V → ℕ) : t.total f = (t.entries.map fun e => f e.2).sum := by
  simp [total, values, List.map_map, Function.comp_def]

variable [DecidableEq K]

/-- The entry at `k`, if any, replaced by its image. -/
def modify (t : Table K V) (k : K) (f : V → V) : Table K V :=
  match t.lookup k with
  | none => t
  | some v => t.insert k (f v)

/-! ### Lookups -/

theorem lookup_insert_ite (t : Table K V) (k k' : K) (v : V) :
    (t.insert k v).lookup k' = if k' = k then some v else t.lookup k' := by
  by_cases h : k' = k
  · subst h; simp
  · simp [h, AList.lookup_insert_ne h]

theorem lookup_erase_ite (t : Table K V) (k k' : K) :
    (t.erase k).lookup k' = if k' = k then none else t.lookup k' := by
  by_cases h : k' = k
  · subst h; simp
  · simp [h, AList.lookup_erase_ne h]

theorem lookup_modify (t : Table K V) (k k' : K) (f : V → V) :
    (t.modify k f).lookup k' = if k' = k then (t.lookup k).map f else t.lookup k' := by
  unfold modify
  cases h : t.lookup k with
  | none =>
    by_cases e : k' = k
    · rw [e, h]; simp
    · simp [e]
  | some v => rw [lookup_insert_ite]; rfl

@[simp] theorem lookup_modify_self (t : Table K V) (k : K) (f : V → V) :
    (t.modify k f).lookup k = (t.lookup k).map f := by simp [lookup_modify]

variable {t : Table K V} {k : K} {v : V}

theorem mem_entries_iff : (⟨k, v⟩ : (_ : K) × V) ∈ t.entries ↔ t.lookup k = some v := by
  rw [← AList.mem_lookup_iff]; rfl

theorem mem_values_iff : v ∈ t.values ↔ ∃ k, t.lookup k = some v := by
  simp only [values, List.mem_map]
  constructor
  · rintro ⟨⟨k, w⟩, h, rfl⟩; exact ⟨k, mem_entries_iff.1 h⟩
  · rintro ⟨k, h⟩; exact ⟨⟨k, v⟩, mem_entries_iff.2 h, rfl⟩

/-! ### All entries at once -/

/-- Every value replaced by its image. -/
def mapValues (t : Table K V) (f : K → V → V) : Table K V where
  entries := t.entries.map fun e => ⟨e.1, f e.1 e.2⟩
  nodupKeys := by
    have h : (t.entries.map fun e => (⟨e.1, f e.1 e.2⟩ : Σ _ : K, V)).keys = t.entries.keys := by
      simp [List.keys, List.map_map, Function.comp_def]
    rw [List.NodupKeys, h]
    exact t.nodupKeys

/-- The entries that pass the test. -/
def retain (t : Table K V) (q : K → V → Bool) : Table K V where
  entries := t.entries.filter fun e => q e.1 e.2
  nodupKeys := t.nodupKeys.sublist List.filter_sublist

theorem lookup_mapValues (t : Table K V) (f : K → V → V) (k : K) :
    (t.mapValues f).lookup k = (t.lookup k).map (f k) := by
  ext v
  rw [Option.map_eq_some_iff, ← mem_entries_iff]
  simp only [mapValues, List.mem_map]
  constructor
  · rintro ⟨⟨k', w⟩, hw, h⟩
    obtain ⟨rfl, rfl⟩ : k' = k ∧ f k' w = v := by simpa using h
    exact ⟨w, mem_entries_iff.1 hw, rfl⟩
  · rintro ⟨w, hw, rfl⟩
    exact ⟨⟨k, w⟩, mem_entries_iff.2 hw, rfl⟩

theorem lookup_retain (t : Table K V) (q : K → V → Bool) (k : K) :
    (t.retain q).lookup k = (t.lookup k).filter (q k) := by
  ext v
  rw [Option.filter_eq_some_iff, ← mem_entries_iff, ← mem_entries_iff]
  simp [retain]

/-! ### Sums over the values -/

/-- The entry at a key, taken out. -/
theorem entries_perm_erase (h : t.lookup k = some v) :
    t.entries.Perm (⟨k, v⟩ :: (t.erase k).entries) := by
  have hk : k ∈ t.entries.keys := AList.mem_keys.1 (AList.lookup_isSome.1 (by simp [h]))
  obtain ⟨w, l₁, l₂, -, he, hr⟩ := List.exists_of_kerase hk
  have hw : t.lookup k = some w := mem_entries_iff.1 (by rw [he]; simp)
  rw [h, Option.some.injEq] at hw
  subst hw
  have hr' : (t.erase k).entries = l₁ ++ l₂ := hr
  rw [hr', he]
  exact List.perm_middle

/-- The entry at a key, taken out of the sum. -/
theorem total_erase (f : V → ℕ) (h : t.lookup k = some v) :
    t.total f = f v + (t.erase k).total f := by
  rw [total_eq, total_eq, ((entries_perm_erase h).map _).sum_eq]
  simp

theorem total_insert (f : V → ℕ) (h : t.lookup k = none) :
    (t.insert k v).total f = f v + t.total f := by
  have hk : k ∉ t := AList.lookup_eq_none.1 h
  rw [total_eq, total_eq, AList.entries_insert_of_notMem hk]
  simp

end AList
