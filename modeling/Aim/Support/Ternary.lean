import Mathlib

/-!
# Support — Ternary search trees

A map from paths (lists of keys) to values, as a tree of search trees: a cell has a label, a key, a
value or none, siblings to its left and right, and a tree of siblings below it for the next key of
the path.  Cells are only ever added, at an empty side of a cell that is there, or given a value.

* `seek` searches siblings for a key, `walk` follows a path, `find` gives the value at its end.
* `place` is the empty side where a missing sibling belongs, `plug` fills one side of a labelled
  cell, `set` gives a labelled cell a value.
* `cells` lists the cells with the labels of their neighbours, as a store keeps them, and `values`
  the values in order.

Nothing is asked of the order: that every cell is reached by the path it was added for (`Reached`)
is all that finding and listing need.  A key is `Sharp` if no two keys compare equal to it.
-/

/-- A ternary search tree with labels `ι`, keys `α` and values `β`. -/
inductive Ternary (ι α β : Type) where
  | nil
  | node (i : ι) (a : α) (v : Option β) (l c r : Ternary ι α β)

namespace Ternary

open List

/-- The sides of a cell. -/
inductive Side where
  | left
  | under
  | right
  deriving DecidableEq

/-- A cell and the labels of its neighbours. -/
structure Cell (ι α β : Type) where
  i : ι
  a : α
  v : Option β
  left : Option ι
  under : Option ι
  right : Option ι

variable {ι α β : Type}

def Cell.side (x : Cell ι α β) : Side → Option ι
  | .left => x.left
  | .under => x.under
  | .right => x.right

def Cell.setSide (x : Cell ι α β) (d : Side) (j : Option ι) : Cell ι α β :=
  match d with
  | .left => { x with left := j }
  | .under => { x with under := j }
  | .right => { x with right := j }

def root : Ternary ι α β → Option ι
  | nil => none
  | node i _ _ _ _ _ => some i

def under : Ternary ι α β → Ternary ι α β
  | nil => nil
  | node _ _ _ _ c _ => c

def value : Ternary ι α β → Option β
  | nil => none
  | node _ _ v _ _ _ => v

def cells : Ternary ι α β → List (Cell ι α β)
  | nil => []
  | node i a v l c r => ⟨i, a, v, l.root, c.root, r.root⟩ :: (l.cells ++ c.cells ++ r.cells)

def labels (t : Ternary ι α β) : List ι := t.cells.map (·.i)

/-- The values, a cell's own between those to its left and those below it. -/
def values : Ternary ι α β → List β
  | nil => []
  | node _ _ v l c r => l.values ++ v.toList ++ c.values ++ r.values

/-- The most sides to follow to a cell. -/
def depth : Ternary ι α β → ℕ
  | nil => 0
  | node _ _ _ l c r => max (max l.depth c.depth) r.depth + 1

section Search

variable (cmp : α → α → Ordering)

/-- The cell among the siblings with the key. -/
def seek : Ternary ι α β → α → Option (Ternary ι α β)
  | nil, _ => none
  | node i a v l c r, s =>
    match cmp s a with
    | .eq => some (node i a v l c r)
    | .lt => seek l s
    | .gt => seek r s

def walk : Ternary ι α β → List α → Option (Ternary ι α β)
  | t, [] => some t
  | t, s :: p => (seek cmp t.under s).bind (walk · p)

def find (t : Ternary ι α β) (p : List α) : Option β := (walk cmp t p).bind value

/-- Where among the siblings the key is missing. -/
def gap : Ternary ι α β → α → Option (ι × Side)
  | nil, _ => none
  | node i a _ l _ r, s =>
    match cmp s a with
    | .eq => none
    | .lt => if l.root = none then some (i, .left) else gap l s
    | .gt => if r.root = none then some (i, .right) else gap r s

/-- Where the cell of the next key belongs. -/
def place (t : Ternary ι α β) (s : α) : Option (ι × Side) :=
  if t.under.root = none then t.root.map (·, .under) else gap cmp t.under s

/-- No two keys compare equal to it. -/
def Sharp (a : α) : Prop := ∀ s s', cmp s a = .eq → cmp s' a = .eq → s = s'

end Search

/-- A cell alone. -/
def leaf (i : ι) (a : α) : Ternary ι α β := node i a none nil nil nil

/-! ### Cells and labels -/

section Cells

variable {t u w : Ternary ι α β} {x i : ι} {d : Side}

@[simp] theorem labels_nil : (nil : Ternary ι α β).labels = [] := rfl

variable {v : Option β}

@[simp] theorem labels_node {a : α} {l c r : Ternary ι α β} :
    (node i a v l c r).labels = i :: (l.labels ++ c.labels ++ r.labels) := by
  simp [labels, cells]

theorem root_eq_none : t.root = none ↔ t = nil := by cases t <;> simp [root]

theorem root_mem_labels (h : t.root = some i) : i ∈ t.labels := by
  cases t with
  | nil => cases h
  | node => cases h; simp

theorem labels_under_sublist : t.under.labels.Sublist t.labels := by
  cases t with
  | nil => exact .refl _
  | node i a v l c r =>
    rw [labels_node]
    exact ((sublist_append_right _ _).trans (sublist_append_left _ _)).cons _

theorem cells_under_subset : t.under.cells ⊆ t.cells := by
  cases t with
  | nil => exact List.Subset.refl _
  | node i a v l c r => simp only [under, cells]; grind

/-- A tree of distinct labels is cut into parts of distinct labels that have none in common. -/
theorem nodup_node {a : α} {l c r : Ternary ι α β} :
    (node i a v l c r).labels.Nodup ↔
      (i ∉ l.labels ∧ i ∉ c.labels ∧ i ∉ r.labels) ∧
      (l.labels.Nodup ∧ c.labels.Nodup ∧ r.labels.Nodup) ∧
      (l.labels.Disjoint c.labels ∧ l.labels.Disjoint r.labels ∧ c.labels.Disjoint r.labels) := by
  simp only [labels_node, nodup_cons, mem_append, nodup_append', disjoint_append_left]
  grind

theorem depth_le : t.depth ≤ t.cells.length := by
  induction t with
  | nil => exact Nat.le_refl _
  | node i a v l c r ihl ihc ihr =>
    simp only [depth, cells, length_cons, length_append]
    omega

/-- The values are those of the cells, in the order of the tree. -/
theorem values_perm : t.values.Perm (t.cells.filterMap (·.v)) := by
  induction t with
  | nil => exact .refl _
  | node i a v l c r ihl ihc ihr =>
    have hcells : ((node i a v l c r).cells.filterMap (·.v)) =
        v.toList ++ (l.cells.filterMap (·.v) ++ c.cells.filterMap (·.v) ++
          r.cells.filterMap (·.v)) := by
      cases v <;> simp [cells]
    rw [hcells, values]
    refine (((ihl.append (.refl _)).append ihc).append ihr).trans ?_
    simp only [append_assoc]
    rw [← append_assoc, ← append_assoc v.toList]
    exact perm_append_comm.append_right _

/-- A side leads to a cell. -/
theorem side_mem {y : Cell ι α β} (hy : y ∈ t.cells) (hd : y.side d = some i) : i ∈ t.labels := by
  induction t with
  | nil => cases hy
  | node j a v l c r ihl ihc ihr =>
    rw [labels_node]
    simp only [cells, mem_cons, mem_append] at hy ⊢
    rcases hy with rfl | (hy | hy) | hy
    · cases d with
      | left => exact .inr (.inl (.inl (root_mem_labels hd)))
      | under => exact .inr (.inl (.inr (root_mem_labels hd)))
      | right => exact .inr (.inr (root_mem_labels hd))
    · exact .inr (.inl (.inl (ihl hy)))
    · exact .inr (.inl (.inr (ihc hy)))
    · exact .inr (.inr (ihr hy))

theorem mem_values {b : β} : b ∈ t.values ↔ ∃ y ∈ t.cells, y.v = some b := by
  induction t with
  | nil => simp [values, cells]
  | node i a v l c r ihl ihc ihr =>
    simp only [values, cells, mem_append, ihl, ihc, ihr, Option.mem_toList, mem_cons]
    grind

end Cells

/-! ### Searching -/

section Seek

variable {cmp : α → α → Ordering} {t u w : Ternary ι α β} {x y i : ι} {d : Side} {s s' : α}
  {p q : List α}

theorem seek_labels (h : seek cmp t s = some u) : u.labels.Sublist t.labels := by
  induction t with
  | nil => cases h
  | node i a v l c r ihl ihc ihr =>
    simp only [seek] at h
    rw [labels_node]
    split at h
    · cases h; rw [labels_node]
    · exact (ihl h).trans (((sublist_append_left _ _).trans
        (sublist_append_left _ _)).cons _)
    · exact (ihr h).trans ((sublist_append_right _ _).cons _)

/-- What a search finds is part of the tree. -/
theorem seek_cells (h : seek cmp t s = some u) : u.cells ⊆ t.cells := by
  induction t with
  | nil => cases h
  | node i a v l c r ihl ihc ihr =>
    simp only [seek] at h
    simp only [cells]
    split at h
    · cases h; exact List.Subset.refl _
    · exact fun y hy => by have := ihl h hy; grind
    · exact fun y hy => by have := ihr h hy; grind

theorem seek_node (h : seek cmp t s = some u) :
    ∃ i a v l c r, u = node i a v l c r ∧ cmp s a = .eq := by
  induction t with
  | nil => cases h
  | node i a v l c r ihl ihc ihr =>
    simp only [seek] at h
    split at h
    · next hs => cases h; exact ⟨_, _, _, _, _, _, rfl, hs⟩
    · exact ihl h
    · exact ihr h

theorem root_seek (h : seek cmp t s = some u) : ∃ x, u.root = some x := by
  obtain ⟨i, a, v, l, c, r, rfl, -⟩ := seek_node h
  exact ⟨i, rfl⟩

/-- Cells found for different keys have no label in common. -/
theorem seek_disjoint (hn : t.labels.Nodup) (hk : ∀ y ∈ t.cells, Sharp cmp y.a)
    (hu : seek cmp t s = some u) (hw : seek cmp t s' = some w) (hne : s ≠ s') {j : ι}
    (hi : i ∈ u.root.toList ++ u.under.labels) (hj : j ∈ w.root.toList ++ w.under.labels) :
    i ≠ j := by
  have own : ∀ {z : Ternary ι α β} {k : ι}, k ∈ z.root.toList ++ z.under.labels → k ∈ z.labels := by
    intro z k hk
    rcases mem_append.1 hk with h | h
    · exact root_mem_labels (by simpa using h)
    · exact labels_under_sublist.subset h
  induction t with
  | nil => cases hu
  | node k a v l c r ihl ihc ihr =>
    have hka : Sharp cmp a := hk _ (.head _)
    obtain ⟨⟨hkl, hkc, hkr⟩, ⟨hl, -, hr⟩, ⟨hlc, hlr, hcr⟩⟩ := nodup_node.1 hn
    have hkl' : ∀ y ∈ l.cells, Sharp cmp y.a := fun y hy => hk y (by simp [cells, hy])
    have hkr' : ∀ y ∈ r.cells, Sharp cmp y.a := fun y hy => hk y (by simp [cells, hy])
    -- what is found on a side lies in that side
    have hinl : ∀ {s z k}, seek cmp l s = some z → k ∈ z.root.toList ++ z.under.labels →
        k ∈ l.labels := fun hz hk => (seek_labels hz).subset (own hk)
    have hinr : ∀ {s z k}, seek cmp r s = some z → k ∈ z.root.toList ++ z.under.labels →
        k ∈ r.labels := fun hz hk => (seek_labels hz).subset (own hk)
    simp only [seek] at hu hw
    split at hu <;> split at hw
    · next h1 _ h2 => exact absurd (hka s s' h1 h2) hne
    · cases hu; have := hinl hw hj; simp [root, under] at hi; rintro rfl; rcases hi with rfl | hi
      exacts [hkl this, hlc this hi]
    · cases hu; have := hinr hw hj; simp [root, under] at hi; rintro rfl; rcases hi with rfl | hi
      exacts [hkr this, hcr hi this]
    · cases hw; have := hinl hu hi; simp [root, under] at hj; rintro rfl; rcases hj with rfl | hj
      exacts [hkl this, hlc this hj]
    · exact ihl hl hkl' hu hw
    · rintro rfl; exact hlr (hinl hu hi) (hinr hw hj)
    · cases hw; have := hinr hu hi; simp [root, under] at hj; rintro rfl; rcases hj with rfl | hj
      exacts [hkr this, hcr hj this]
    · rintro rfl; exact hlr (hinl hw hj) (hinr hu hi)
    · exact ihr hr hkr' hu hw

variable (h : walk cmp t p = some u)

include h

/-- A path is walked in two parts. -/
theorem walk_append : walk cmp t (p ++ q) = walk cmp u q := by
  induction p generalizing t with
  | nil => cases h; rfl
  | cons s p ih =>
    obtain ⟨z, hz, hw⟩ := Option.bind_eq_some_iff.1 h
    rw [cons_append, walk, hz]
    exact ih hw

theorem walk_cells : u.cells ⊆ t.cells := by
  induction p generalizing t with
  | nil => cases h; exact List.Subset.refl _
  | cons s p ih =>
    obtain ⟨z, hz, hw⟩ := Option.bind_eq_some_iff.1 h
    exact fun y hy => cells_under_subset (seek_cells hz (ih hw hy))

theorem walk_under : u.under.cells ⊆ t.under.cells := by
  cases p with
  | nil => cases h; exact List.Subset.refl _
  | cons s p =>
    obtain ⟨z, hz, hu⟩ := Option.bind_eq_some_iff.1 h
    exact fun y hy => seek_cells hz (walk_cells hu (cells_under_subset hy))

theorem walk_labels : u.labels.Sublist t.labels := by
  induction p generalizing t with
  | nil => cases h; exact .refl _
  | cons s p ih =>
    obtain ⟨z, hz, hw⟩ := Option.bind_eq_some_iff.1 h
    exact (ih hw).trans ((seek_labels hz).trans labels_under_sublist)

/-- What a path leads to is the tree itself or lies below it. -/
theorem walk_own (hi : u.root = some i) : i ∈ t.root.toList ++ t.under.labels := by
  cases p with
  | nil => cases h; simp [hi]
  | cons s p =>
    obtain ⟨z, hz, hw⟩ := Option.bind_eq_some_iff.1 h
    exact mem_append_right _
      (((walk_labels hw).trans (seek_labels hz)).subset (root_mem_labels hi))

omit h

theorem root_walk (hx : t.root = some x) (hp : walk cmp t p = some u) : ∃ y, u.root = some y := by
  induction p generalizing t x with
  | nil => cases hp; exact ⟨x, hx⟩
  | cons s p ih =>
    obtain ⟨z, hz, hu⟩ := Option.bind_eq_some_iff.1 hp
    obtain ⟨x', hx'⟩ := root_seek hz
    exact ih hx' hu

theorem root_notMem_under (hn : t.labels.Nodup) (hi : t.root = some i) : i ∉ t.under.labels := by
  cases t with
  | nil => cases hi
  | node => cases hi; exact (nodup_node.1 hn).1.2.1

/-- Each label is at the end of one path. -/
theorem walk_inj (hn : t.labels.Nodup) (hk : ∀ y ∈ t.cells, Sharp cmp y.a)
    (hp : walk cmp t p = some u) (hq : walk cmp t q = some w) (hu : u.root = some i)
    (hw : w.root = some i) : p = q := by
  induction p generalizing t q with
  | nil =>
    cases hp
    cases q with
    | nil => rfl
    | cons s q =>
      obtain ⟨z, hz, hq⟩ := Option.bind_eq_some_iff.1 hq
      exact absurd (((walk_labels hq).trans (seek_labels hz)).subset (root_mem_labels hw))
        (root_notMem_under hn hu)
  | cons s p ih =>
    obtain ⟨z, hz, hp'⟩ := Option.bind_eq_some_iff.1 hp
    cases q with
    | nil =>
      cases hq
      exact absurd (((walk_labels hp').trans (seek_labels hz)).subset (root_mem_labels hu))
        (root_notMem_under hn hw)
    | cons s' q =>
      obtain ⟨z', hz', hq'⟩ := Option.bind_eq_some_iff.1 hq
      have hn' := hn.sublist labels_under_sublist
      have hk' : ∀ y ∈ t.under.cells, Sharp cmp y.a := fun y hy => hk y (cells_under_subset hy)
      by_cases hs : s = s'
      · subst hs
        rw [hz] at hz'
        cases hz'
        rw [ih (hn'.sublist (seek_labels hz)) (fun y hy => hk' y (seek_cells hz hy)) hp' hq']
      · exact absurd rfl
          (seek_disjoint hn' hk' hz hz' hs (walk_own hp' hu) (walk_own hq' hw))

end Seek

/-! ### Where a cell belongs -/

/-- The side of the labelled cell is empty. -/
def Open (t : Ternary ι α β) (x : ι) (d : Side) : Prop := ∀ y ∈ t.cells, y.i = x → y.side d = none

/-- Every cell is at the end of a path. -/
def Reached (cmp : α → α → Ordering) (t : Ternary ι α β) : Prop :=
  ∀ i ∈ t.labels, ∃ p u, walk cmp t p = some u ∧ u.root = some i

section Place

variable {cmp : α → α → Ordering} {t u w : Ternary ι α β} {x y i : ι} {d : Side} {s : α}
  {p : List α} {b : β}

theorem Open.mono (h : Open t x d) (hs : w.cells ⊆ t.cells) : Open w x d := fun y hy => h y (hs hy)

theorem under_eq_nil_of_open (ho : Open t x .under) (hr : t.root = some x) : t.under = nil := by
  cases t with
  | nil => rfl
  | node i a v l c r =>
    cases hr
    exact root_eq_none.1 (ho _ (.head _) rfl)

theorem seek_leaf {a : α} (h : seek cmp (leaf y a : Ternary ι α β) s = some w) : w = leaf y a := by
  simp only [leaf, seek] at h
  split at h <;> cases h
  rfl

/-- A search that fails ends at a cell whose side is free. -/
theorem gap_cell (h : gap cmp t s = some (x, d)) :
    (∃ z ∈ t.cells, z.i = x ∧ z.side d = none) ∧ d ≠ .under := by
  induction t with
  | nil => cases h
  | node i a v l c r ihl ihc ihr =>
    simp only [gap] at h
    split at h
    · cases h
    · split at h
      · next hl => cases h; exact ⟨⟨_, .head _, rfl, hl⟩, nofun⟩
      · obtain ⟨⟨z, hz, hzx⟩, hd⟩ := ihl h
        exact ⟨⟨z, by simp [cells, hz], hzx⟩, hd⟩
    · split at h
      · next hr => cases h; exact ⟨⟨_, .head _, rfl, hr⟩, nofun⟩
      · obtain ⟨⟨z, hz, hzx⟩, hd⟩ := ihr h
        exact ⟨⟨z, by simp [cells, hz], hzx⟩, hd⟩

theorem place_cell (h : place cmp t s = some (x, d)) :
    ∃ z ∈ t.cells, z.i = x ∧ z.side d = none := by
  unfold place at h
  split at h
  · next hu =>
    cases t with
    | nil => cases h
    | node => cases h; exact ⟨_, .head _, rfl, hu⟩
  · obtain ⟨⟨z, hz, hzx⟩, -⟩ := gap_cell h
    exact ⟨z, cells_under_subset hz, hzx⟩

theorem eq_of_label (hn : t.labels.Nodup) {z z' : Cell ι α β} (hz : z ∈ t.cells)
    (hz' : z' ∈ t.cells) (h : z.i = z'.i) : z = z' :=
  inj_on_of_nodup_map hn hz hz' h

/-- Where a cell belongs, there is none. -/
theorem place_open (hn : t.labels.Nodup) (hp : walk cmp t p = some w)
    (h : place cmp w s = some (x, d)) : Open t x d := by
  obtain ⟨z, hz, hzx, hd⟩ := place_cell h
  intro y hy hyx
  rw [eq_of_label hn hy (walk_cells hp hz) (hyx.trans hzx.symm)]
  exact hd

theorem mem_labels_of_gap (h : gap cmp t s = some (x, d)) : x ∈ t.labels := by
  obtain ⟨⟨z, hz, rfl, -⟩, -⟩ := gap_cell h
  exact mem_map_of_mem hz

theorem mem_labels_of_place (h : place cmp t s = some (x, d)) : x ∈ t.labels := by
  obtain ⟨z, hz, rfl, -⟩ := place_cell h
  exact mem_map_of_mem hz

theorem seek_leaf_self (hs : cmp s s = .eq) :
    seek cmp (leaf y s : Ternary ι α β) s = some (leaf y s) := by
  simp [leaf, seek, hs]

/-- A label that is not below the root has a place there. -/
theorem place_ne_none (hs : seek cmp t.under s = none) (hr : t.root ≠ none) :
    ∃ x d, place cmp t s = some (x, d) := by
  have hgap : ∀ {t : Ternary ι α β}, t.root ≠ none → seek cmp t s = none →
      ∃ x d, gap cmp t s = some (x, d) := by
    intro t
    induction t with
    | nil => exact fun h => absurd rfl h
    | node i a v l c r ihl ihc ihr =>
      intro _ hs
      simp only [seek] at hs
      simp only [gap]
      split at hs
      · cases hs
      · split
        · exact ⟨_, _, rfl⟩
        · next hl => exact ihl hl hs
      · split
        · exact ⟨_, _, rfl⟩
        · next hr => exact ihr hr hs
  unfold place
  split
  · obtain ⟨i, hi⟩ := Option.ne_none_iff_exists'.1 hr
    exact ⟨i, .under, by rw [hi]; rfl⟩
  · next h => exact hgap h hs

end Place

/-! ### Adding cells and values -/

variable [DecidableEq ι]

/-- Puts a tree at a side of the labelled cell. -/
def plug (x : ι) (d : Side) (u : Ternary ι α β) : Ternary ι α β → Ternary ι α β
  | nil => nil
  | node i a v l c r =>
    node i a v (if i = x ∧ d = .left then u else plug x d u l)
      (if i = x ∧ d = .under then u else plug x d u c)
      (if i = x ∧ d = .right then u else plug x d u r)

/-- Gives the labelled cell a value. -/
def set (x : ι) (w : β) : Ternary ι α β → Ternary ι α β
  | nil => nil
  | node i a v l c r => node i a (if i = x then some w else v) (set x w l) (set x w c) (set x w r)

section Plug

variable {cmp : α → α → Ordering} {t u w : Ternary ι α β} {x y i : ι} {d : Side} {s : α}
  {p q : List α}

theorem plug_of_notMem (h : x ∉ t.labels) : plug x d u t = t := by
  induction t with
  | nil => rfl
  | node i a v l c r ihl ihc ihr =>
    simp only [labels_node, mem_cons, mem_append, not_or] at h
    have hi : i ≠ x := fun he => h.1 he.symm
    simp [plug, hi, ihl h.2.1.1, ihc h.2.1.2, ihr h.2.2]

@[simp] theorem root_plug : (plug x d u t).root = t.root := by cases t <;> rfl

@[simp] theorem value_plug : (plug x d u t).value = t.value := by cases t <;> rfl

theorem under_plug : (plug x d u t).under =
    if t.root = some x ∧ d = .under then u else plug x d u t.under := by
  cases t with
  | nil => simp [plug, under, root]
  | node => simp [plug, under, root]

/-- Plugging an open side changes no search that ends; one that did not may end at what is new. -/
theorem seek_plug (cmp : α → α → Ordering) (ho : Open t x d) :
    (∀ w, seek cmp t s = some w → seek cmp (plug x d u t) s = some (plug x d u w)) ∧
      (seek cmp t s = none → ∀ w, seek cmp (plug x d u t) s = some w → seek cmp u s = some w) := by
  induction t with
  | nil => exact ⟨nofun, fun _ w h => by cases h⟩
  | node i a v l c r ihl ihc ihr =>
    have hol : Open l x d := ho.mono (by simp only [cells]; grind)
    have hor : Open r x d := ho.mono (by simp only [cells]; grind)
    have hroot := ho _ (mem_cons_self : _ ∈ (node i a v l c r).cells)
    simp only [seek, plug]
    split
    · exact ⟨fun w hw => by cases hw; rfl, nofun⟩
    · split
      · next h =>
        have hl : l = nil := root_eq_none.1 (by simpa [h.1, h.2, Cell.side] using hroot)
        subst hl
        exact ⟨nofun, fun _ w hw => hw⟩
      · exact ihl hol
    · split
      · next h =>
        have hr : r = nil := root_eq_none.1 (by simpa [h.1, h.2, Cell.side] using hroot)
        subst hr
        exact ⟨nofun, fun _ w hw => hw⟩
      · exact ihr hor

/-- A walk is not diverted by a subtree that is put at a free side. -/
theorem walk_plug (ho : Open t x d) (h : walk cmp t p = some w) :
    walk cmp (plug x d u t) p = some (plug x d u w) := by
  induction p generalizing t with
  | nil => cases h; rfl
  | cons s p ih =>
    obtain ⟨z, hz, hw⟩ := Option.bind_eq_some_iff.1 h
    have hu : ¬ (t.root = some x ∧ d = .under) := by
      rintro ⟨hr, rfl⟩
      rw [under_eq_nil_of_open ho hr] at hz
      cases hz
    have hou : Open t.under x d := ho.mono cells_under_subset
    rw [walk, under_plug, if_neg hu, (seek_plug cmp hou).1 z hz]
    exact ih (hou.mono (seek_cells hz)) hw

/-- A cell that is added holds no value: the map is as before. -/
theorem find_plug {a : α} (ho : Open t x d) (p : List α) :
    find cmp (plug x d (leaf y a) t) p = find cmp t p := by
  have hleaf : ∀ q, find cmp (leaf y a : Ternary ι α β) q = none := fun q => by cases q <;> rfl
  induction p generalizing t with
  | nil => exact value_plug
  | cons s p ih =>
    have hou : Open t.under x d := ho.mono cells_under_subset
    simp only [find, walk, under_plug]
    split
    · next h =>
      obtain ⟨hr, rfl⟩ := h
      rw [under_eq_nil_of_open ho hr]
      cases hs : seek cmp (leaf y a) s with
      | none => rfl
      | some w => rw [seek_leaf hs]; exact hleaf p
    · obtain ⟨h1, h2⟩ := seek_plug (s := s) (u := leaf y a) cmp hou
      cases hz : seek cmp t.under s with
      | some z => rw [h1 z hz]; exact ih (hou.mono (seek_cells hz))
      | none =>
        cases hz' : seek cmp (plug x d (leaf y a) t.under) s with
        | none => rfl
        | some z => rw [seek_leaf (h2 hz z hz')]; exact hleaf p

end Plug

section Place

variable {cmp : α → α → Ordering} {t u w : Ternary ι α β} {x y i : ι} {d : Side} {s : α}
  {p : List α}

/-- A cell put where its search ended is found. -/
theorem seek_gap (hn : t.labels.Nodup) (hs : cmp s s = .eq) (h : gap cmp t s = some (x, d)) :
    seek cmp (plug x d (leaf y s) t) s = some (leaf y s) := by
  induction t with
  | nil => cases h
  | node i a v l c r ihl ihc ihr =>
    obtain ⟨⟨hil, -, hir⟩, ⟨hl, -, hr⟩, -⟩ := nodup_node.1 hn
    simp only [gap] at h
    simp only [plug, seek]
    split at h
    · cases h
    · next hlt =>
      split at h
      · cases h; simpa [hlt] using seek_leaf_self hs
      · have hix : i ≠ x := fun he => hil (he ▸ mem_labels_of_gap h)
        simpa [hlt, hix] using ihl hl h
    · next hgt =>
      split at h
      · cases h; simpa [hgt] using seek_leaf_self hs
      · have hix : i ≠ x := fun he => hir (he ▸ mem_labels_of_gap h)
        simpa [hgt, hix] using ihr hr h

/-- The cell that is added is at the end of its path. -/
theorem walk_place (hn : t.labels.Nodup) (hs : cmp s s = .eq) (hp : walk cmp t p = some w)
    (h : place cmp w s = some (x, d)) :
    walk cmp (plug x d (leaf y s) t) (p ++ [s]) = some (leaf y s) := by
  rw [walk_append (walk_plug (place_open hn hp h) hp), walk, under_plug]
  unfold place at h
  split at h
  · next hu =>
    cases w with
    | nil => cases h
    | node => cases h; simp [root, seek_leaf_self hs, walk]
  · have hd := (gap_cell h).2
    have hn' := (hn.sublist (walk_labels hp)).sublist labels_under_sublist
    rw [if_neg fun hx => hd hx.2, seek_gap hn' hs h]
    rfl

end Place

section Cells

variable {cmp : α → α → Ordering} {t u w : Ternary ι α β} {x y i : ι} {d : Side} {s : α}
  {p q : List α} {b : β}

theorem map_of_notMem {f : Cell ι α β → Cell ι α β} (h : x ∉ t.labels) :
    t.cells.map (fun y => if y.i = x then f y else y) = t.cells := by
  refine (map_congr_left fun y hy => if_neg fun he => ?_).trans (map_id _)
  exact h (he ▸ mem_map_of_mem hy)

/-- The other cells, and what a change of one cell leaves of them. -/
theorem cells_perm (hn : t.labels.Nodup) {z : Cell ι α β} (hz : z ∈ t.cells) :
    ∃ zs, t.cells.Perm (z :: zs) ∧ ∀ f : Cell ι α β → Cell ι α β,
      (t.cells.map fun y => if y.i = z.i then f y else y).Perm (f z :: zs) := by
  obtain ⟨as, bs, hab⟩ := append_of_mem hz
  refine ⟨as ++ bs, hab ▸ perm_middle, fun f => ?_⟩
  rw [labels, hab, map_append, map_cons] at hn
  have hne : ∀ y ∈ as ++ bs, y.i ≠ z.i := by
    intro y hy he
    have hn' := (perm_middle.nodup_iff.1 hn)
    rw [← map_append] at hn'
    exact (nodup_cons.1 hn').1 (he ▸ mem_map_of_mem hy)
  have hid : ∀ ys : List (Cell ι α β), (∀ y ∈ ys, y.i ≠ z.i) →
      (ys.map fun y => if y.i = z.i then f y else y) = ys := fun ys h =>
    (map_congr_left fun y hy => if_neg (h y hy)).trans (map_id _)
  rw [hab, map_append, map_cons, if_pos rfl,
    hid as fun y hy => hne y (mem_append_left _ hy),
    hid bs fun y hy => hne y (mem_append_right _ hy)]
  exact perm_middle

/-- The cells after a plug: those of the plugged tree, and the others with one side of one set. -/
theorem cells_plug (hn : t.labels.Nodup) (hx : x ∈ t.labels) (ho : Open t x d) :
    (plug x d u t).cells.Perm
      (u.cells ++ t.cells.map fun y => if y.i = x then y.setSide d u.root else y) := by
  induction t with
  | nil => cases hx
  | node i a v l c r ihl ihc ihr =>
    obtain ⟨⟨hil, hic, hir⟩, ⟨hl, hc, hr⟩, ⟨hlc, hlr, hcr⟩⟩ := nodup_node.1 hn
    have hol : Open l x d := ho.mono (by simp only [cells]; grind)
    have hoc : Open c x d := ho.mono (by simp only [cells]; grind)
    have hor : Open r x d := ho.mono (by simp only [cells]; grind)
    simp only [cells, plug, map_cons, map_append]
    by_cases hi : i = x
    · subst hi
      rw [map_of_notMem hil, map_of_notMem hic, map_of_notMem hir, plug_of_notMem hil,
        plug_of_notMem hic, plug_of_notMem hir]
      have hroot := ho _ (.head _) rfl
      cases d with
      | left =>
        obtain rfl : l = nil := root_eq_none.1 hroot
        simp [Cell.setSide, cells]
        exact perm_middle.symm
      | under =>
        obtain rfl : c = nil := root_eq_none.1 hroot
        simp only [Cell.setSide, cells, true_and, reduceCtorEq, if_false, if_true,
          append_nil]
        refine .trans (.cons _ ?_) perm_middle.symm
        rw [← append_assoc]
        exact perm_append_comm.append_right _
      | right =>
        obtain rfl : r = nil := root_eq_none.1 hroot
        simp only [Cell.setSide, cells, true_and, reduceCtorEq, if_false, if_true,
          append_nil]
        exact .trans (.cons _ perm_append_comm) perm_middle.symm
    · simp only [hi, false_and, if_false, root_plug]
      simp only [labels_node, mem_cons, mem_append, Ne.symm hi, false_or] at hx
      refine .trans (.cons _ ?_) perm_middle.symm
      rcases hx with (hx | hx) | hx
      · have hxc : x ∉ c.labels := fun h => hlc hx h
        have hxr : x ∉ r.labels := fun h => hlr hx h
        rw [plug_of_notMem hxc, plug_of_notMem hxr, map_of_notMem hxc, map_of_notMem hxr]
        simp only [← append_assoc]
        exact ((ihl hl hx hol).append_right _).append_right _
      · have hxl : x ∉ l.labels := fun h => hlc h hx
        have hxr : x ∉ r.labels := fun h => hcr hx h
        rw [plug_of_notMem hxl, plug_of_notMem hxr, map_of_notMem hxl, map_of_notMem hxr]
        simp only [← append_assoc]
        refine .append_right _ (((ihc hc hx hoc).append_left _).trans ?_)
        rw [← append_assoc]
        exact perm_append_comm.append_right _
      · have hxl : x ∉ l.labels := fun h => hlr h hx
        have hxc : x ∉ c.labels := fun h => hcr h hx
        rw [plug_of_notMem hxl, plug_of_notMem hxc, map_of_notMem hxl, map_of_notMem hxc]
        refine ((ihr hr hx hor).append_left _).trans ?_
        rw [← append_assoc]
        refine (perm_append_comm.append_right _).trans ?_
        simp only [← append_assoc]
        exact .refl _

/-- Labels are added and none is lost. -/
theorem labels_plug (hn : t.labels.Nodup) (hx : x ∈ t.labels) (ho : Open t x d) :
    (plug x d u t).labels.Perm (u.labels ++ t.labels) := by
  have h := (cells_plug (u := u) hn hx ho).map (·.i)
  rw [map_append, map_map] at h
  refine h.trans (.of_eq ?_)
  congr 1
  refine map_congr_left fun y _ => ?_
  simp only [Function.comp]
  split
  · cases d <;> rfl
  · rfl

@[simp] theorem root_set : (set x b t).root = t.root := by cases t <;> rfl

theorem cells_set : (set x b t).cells =
    t.cells.map fun y => if y.i = x then { y with v := some b } else y := by
  induction t with
  | nil => rfl
  | node i a v l c r ihl ihc ihr =>
    simp only [set, cells, root_set, ihl, ihc, ihr, map_cons, map_append]
    congr 1
    split <;> rfl

@[simp] theorem labels_set : (set x b t).labels = t.labels := by
  rw [labels, cells_set, map_map, labels]
  refine map_congr_left fun y _ => ?_
  simp only [Function.comp]
  split <;> rfl

/-- A value changes no search. -/
theorem seek_set : seek cmp (set x b t) s = (seek cmp t s).map (set x b) := by
  induction t with
  | nil => rfl
  | node i a v l c r ihl ihc ihr =>
    simp only [set, seek]
    split
    · rfl
    · exact ihl
    · exact ihr

theorem under_set : (set x b t).under = set x b t.under := by cases t <;> rfl

theorem walk_set : walk cmp (set x b t) p = (walk cmp t p).map (set x b) := by
  induction p generalizing t with
  | nil => rfl
  | cons s p ih =>
    rw [walk, under_set, seek_set, walk]
    cases seek cmp t.under s with
    | none => rfl
    | some z => exact ih

theorem value_set : (set x b t).value = if t.root = some x then some b else t.value := by
  cases t with
  | nil => rfl
  | node => simp [set, value, root]

/-- The value at the end of one path is set; the map is as before elsewhere. -/
theorem find_set (hn : t.labels.Nodup) (hk : ∀ y ∈ t.cells, Sharp cmp y.a)
    (hp : walk cmp t p = some u) (hu : u.root = some x) (q : List α) [Decidable (q = p)] :
    find cmp (set x b t) q = if q = p then some b else find cmp t q := by
  rw [find, walk_set]
  split
  · next h => rw [h, hp, Option.map_some, Option.bind_some, value_set, if_pos hu]
  next h =>
  rw [find]
  cases hq : walk cmp t q with
  | none => rfl
  | some w =>
    rw [Option.map_some, Option.bind_some, value_set, if_neg, Option.bind_some]
    exact fun hw => h (walk_inj hn hk hq hp hw hu)

theorem Reached.set (h : Reached cmp t) : Reached cmp (set x b t) := by
  intro i hi
  rw [labels_set] at hi
  obtain ⟨p, u, hp, hu⟩ := h i hi
  exact ⟨p, Ternary.set x b u, by rw [walk_set, hp]; rfl, by rw [root_set, hu]⟩

/-- Every cell is still found at its own path once one is put in its place. -/
theorem Reached.plug (h : Reached cmp t) (hn : t.labels.Nodup) (hs : cmp s s = .eq)
    (hp : walk cmp t p = some w) (hx : place cmp w s = some (x, d)) :
    Reached cmp (plug x d (leaf y s) t) := by
  have ho := place_open hn hp hx
  have hmem := (walk_labels hp).subset (mem_labels_of_place hx)
  intro i hi
  rcases mem_append.1 ((labels_plug hn hmem ho).mem_iff.1 hi) with hi | hi
  · obtain rfl : i = y := by simpa [leaf] using hi
    exact ⟨_, _, walk_place hn hs hp hx, rfl⟩
  · obtain ⟨q, u, hq, hu⟩ := h i hi
    exact ⟨q, _, walk_plug ho hq, by rw [root_plug, hu]⟩

/-- A leaf is added: there is the path to it, and no other is new. -/
theorem isSome_walk_plug (h : Reached cmp t) (hn : t.labels.Nodup) (hs : cmp s s = .eq)
    (hp : walk cmp t p = some w) (hx : place cmp w s = some (x, d)) (hr : t.root = some i)
    (hn' : (plug x d (leaf y s) t).labels.Nodup)
    (hk' : ∀ z ∈ (plug x d (leaf y s) t).cells, Sharp cmp z.a) :
    (walk cmp (plug x d (leaf y s) t) q).isSome = true ↔
      q = p ++ [s] ∨ (walk cmp t q).isSome = true := by
  have ho := place_open hn hp hx
  have hmem := (walk_labels hp).subset (mem_labels_of_place hx)
  constructor
  · intro hq
    obtain ⟨u, hu⟩ := Option.isSome_iff_exists.1 hq
    obtain ⟨j, hj⟩ := root_walk (root_plug.trans hr) hu
    have hlabel := (walk_labels hu).subset (root_mem_labels hj)
    -- the new label ends the new path, and every other one a path it ended before
    rcases mem_append.1 ((labels_plug hn hmem ho).mem_iff.1 hlabel) with hnew | hold
    · obtain rfl : j = y := by simpa [leaf] using hnew
      exact .inl (walk_inj hn' hk' hu (walk_place hn hs hp hx) hj rfl)
    · obtain ⟨q', u', hq', hu'⟩ := h j hold
      have hsame := walk_inj hn' hk' hu (walk_plug ho hq') hj (root_plug.trans hu')
      exact .inr (by rw [hsame, hq']; rfl)
  · rintro (rfl | hq)
    · rw [walk_place hn hs hp hx]
      rfl
    · obtain ⟨u, hu⟩ := Option.isSome_iff_exists.1 hq
      rw [walk_plug ho hu]
      rfl

end Cells

end Ternary
