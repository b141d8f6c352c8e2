import Aim.Props.Layout

/-!
# Props — The area as a map

The trie of an area as a ternary search tree over the segments of property names.  `Holds m t` says
that the memory holds the nodes, records and long values of the tree `t`, in which every node is
reached by the path it was made for.

* Searching: `find` gives the record that the tree has for the segments of a name.
* Making a path: a node that is missing is made and linked where the search ended, and the tree has
  the same properties.
* `Space`: the paths that have a node, and the data in use.  It says which calls find space: `pieces`
  are the allocations of an add, and `make` those of them that fit.
-/

namespace Aim.Props

open Memory List Ternary
open Prog (run_ok run_err get_ok)

/-! ### Comparing names -/

def cmp (a b : Bytes) : Ordering :=
  if cmpPropName a b = 0 then .eq else if cmpPropName a b < 0 then .lt else .gt

variable {a b s : Bytes}

theorem cmp_eq : cmp a b = .eq ↔ cmpPropName a b = 0 := by
  unfold cmp
  split_ifs <;> simp [*]

theorem cmp_lt : cmp a b = .lt ↔ cmpPropName a b < 0 := by
  unfold cmp
  split_ifs <;> simp <;> omega

theorem strncmp_self (a : Bytes) : cmpPropName.strncmp a a = 0 := by
  induction a with
  | nil => rfl
  | cons c a ih => simp [cmpPropName.strncmp, ih]

theorem cmpPropName_self (a : Bytes) : cmpPropName a a = 0 := by
  simp [cmpPropName, strncmp_self]

theorem eq_of_strncmp (hl : s.length = a.length) (ha : ∀ c ∈ a, c ≠ 0)
    (h : cmpPropName.strncmp s a = 0) : s = a := by
  induction a generalizing s with
  | nil => exact length_eq_zero_iff.1 hl
  | cons c a ih =>
    cases s with
    | nil => cases hl
    | cons d s =>
      have hc := ha c (.head _)
      simp only [cmpPropName.strncmp] at h
      split_ifs at h with h1 h2
      · have hdc : d.toNat = c.toNat := by omega
        exact absurd (UInt8.toNat_inj.1 hdc) h1
      · exact absurd (not_not.1 h1 ▸ h2) hc
      · rw [not_not.1 h1, ih (by simpa using hl) (fun c hc => ha c (.tail _ hc)) h]

/-- Only a name itself compares equal to a name with no zero byte. -/
theorem eq_of_cmpPropName (ha : ∀ c ∈ a, c ≠ 0) (h : cmpPropName s a = 0) : s = a := by
  unfold cmpPropName at h
  split_ifs at h
  · cases h
  · exact eq_of_strncmp (by omega) ha h

theorem sharp (ha : ∀ c ∈ a, c ≠ 0) : Ternary.Sharp cmp a := fun _ _ h h' =>
  (eq_of_cmpPropName ha (cmp_eq.1 h)).trans (eq_of_cmpPropName ha (cmp_eq.1 h')).symm

/-! ### Space -/

/-- What decides whether the next calls find space: the paths that have a node, and the data in
use. -/
structure Space where
  paths : List Bytes → Bool
  used : ℕ

/-- An allocation: how much it takes, and the path whose node it is. -/
abbrev Piece := ℕ × Option (List Bytes)

/-- What allocations take in all. -/
def total (os : List Piece) : ℕ := (os.map Prod.fst).sum

namespace Space

/-- An allocation that has space. -/
def took (sp : Space) (o : Piece) : Space :=
  ⟨o.2.elim sp.paths fun p => Function.update sp.paths p true, sp.used + o.1⟩

/-- Allocations one after the other, in data of that size, until one has no space. -/
def make (size : ℕ) : List Piece → Space → Space
  | [], sp => sp
  | o :: os, sp => if sp.used + o.1 ≤ size then make size os (sp.took o) else sp

/-- The nodes that are missing on the way from one path to a longer one. -/
def nodes (sp : Space) : (done rest : List Bytes) → List Piece
  | _, [] => []
  | done, s :: rest =>
    if sp.paths (done ++ [s]) then sp.nodes (done ++ [s]) rest
    else (align4 (TRIE_NODE_SIZE + s.length + 1), some (done ++ [s])) :: sp.nodes (done ++ [s]) rest

/-- The record of a property, and its value if it is long. -/
def record (name value : Bytes) : List Piece :=
  (align4 (PROP_INFO_SIZE + name.length + 1), none) ::
    if PROP_VALUE_MAX ≤ value.length then [(align4 (value.length + 1), none)] else []

/-- The allocations of an add of a new property. -/
def pieces (sp : Space) (name value : Bytes) : List Piece :=
  sp.nodes [] (segments name) ++ record name value

variable {sp sp' : Space} {size : ℕ} {os os' : List Piece}

theorem make_cons {o : Piece} (h : sp.used + o.1 ≤ size) :
    sp.make size (o :: os) = (sp.took o).make size os := if_pos h

theorem make_cons_of_lt {o : Piece} (h : size < sp.used + o.1) : sp.make size (o :: os) = sp :=
  if_neg (Nat.not_le_of_lt h)

theorem used_make (h : sp.used + total os ≤ size) : (sp.make size os).used = sp.used + total os := by
  induction os generalizing sp with
  | nil => rfl
  | cons o os ih =>
    have htotal : total (o :: os) = o.1 + total os := List.sum_cons
    have htook : (sp.took o).used = sp.used + o.1 := rfl
    rw [make_cons (by omega), ih (by omega)]
    omega

/-- What comes after allocations that fit. -/
theorem make_append (h : sp.used + total os ≤ size) :
    sp.make size (os ++ os') = (sp.make size os).make size os' := by
  induction os generalizing sp with
  | nil => rfl
  | cons o os ih =>
    have htotal : total (o :: os) = o.1 + total os := List.sum_cons
    have htook : (sp.took o).used = sp.used + o.1 := rfl
    rw [cons_append, make_cons (by omega), make_cons (by omega), ih (by omega)]

/-- What comes after allocations that do not is not made. -/
theorem make_append_of_lt (h : size < sp.used + total os) :
    sp.make size (os ++ os') = sp.make size os := by
  induction os generalizing sp with
  | nil =>
    cases os' with
    | nil => rfl
    | cons o os' =>
      change size < sp.used at h
      exact make_cons_of_lt (by omega)
  | cons o os ih =>
    have htotal : total (o :: os) = o.1 + total os := List.sum_cons
    have htook : (sp.took o).used = sp.used + o.1 := rfl
    rw [cons_append, make, make]
    split_ifs with ho
    · exact ih (by omega)
    · rfl

/-- A path that no allocation is for keeps what it had. -/
theorem paths_make {q : List Bytes} (h : ∀ o ∈ os, o.2 ≠ some q) :
    (sp.make size os).paths q = sp.paths q := by
  induction os generalizing sp with
  | nil => rfl
  | cons o os ih =>
    obtain ⟨ho, hos⟩ := forall_mem_cons.1 h
    rw [make]
    split_ifs
    · rw [ih hos, took]
      cases hp : o.2 with
      | none => rfl
      | some p => exact Function.update_of_ne (fun he : q = p => ho (he ▸ hp)) ..
    · rfl

theorem length_of_nodes {s : Bytes} {done q : List Bytes} {o : Piece} (ho : o ∈ sp.nodes done [s])
    (hq : o.2 = some q) : q.length = done.length + 1 := by
  rw [nodes, nodes] at ho
  split_ifs at ho
  · cases ho
  · cases mem_singleton.1 ho
    cases hq
    simp

theorem record_none {name value : Bytes} {o : Piece} (ho : o ∈ record name value) : o.2 = none := by
  rw [record] at ho
  split_ifs at ho
  · rcases mem_cons.1 ho with rfl | ho
    · rfl
    · cases mem_singleton.1 ho
      rfl
  · cases mem_singleton.1 ho
    rfl

theorem nodes_congr {done rest : List Bytes}
    (h : ∀ p, done.length < p.length → sp'.paths p = sp.paths p) :
    sp'.nodes done rest = sp.nodes done rest := by
  induction rest generalizing done with
  | nil => rfl
  | cons s rest ih =>
    have hnext := @ih (done ++ [s]) fun p hp => h p (by simp at hp; omega)
    rw [nodes, nodes, h (done ++ [s]) (by simp), hnext]

end Space

theorem total_append (os os' : List Piece) : total (os ++ os') = total os + total os' := by
  rw [total, map_append, sum_append]
  rfl

/-! ### The tree in memory -/

def Info.objects (i : Info) : List Obj :=
  .info i :: (i.long.map fun t => Obj.text t i.value).toList

def cellObjects (y : Cell) : List Obj := .node y :: (y.v.map Info.objects).getD []

def objects (t : Tree) : List Obj := t.cells.flatMap cellObjects

/-- The memory holds the tree. -/
structure Holds (m : Memory) (t : Tree) : Prop where
  laid : Laid m (objects t)
  root : ∃ c, t = .node 0 [] none .nil c .nil
  keys : ∀ y ∈ t.cells, ∀ c ∈ y.a, c ≠ 0
  keyed : ∀ y ∈ t.cells, y.i ≠ 0 → y.a ≠ []
  infos : ∀ y ∈ t.cells, ∀ i, y.v = some i → i.Ok
  reached : Ternary.Reached cmp t
  named : ∀ p i, t.find cmp p = some i → segments i.name = p

/-- The space an area that holds a tree has left. -/
def Holds.space (m : Memory) (t : Tree) : Space := ⟨fun p => (t.walk cmp p).isSome, m.bytesUsed⟩

/-- Where a node has its links. -/
def link : Ternary.Side → ℕ
  | .left => 8
  | .right => 12
  | .under => 16

namespace Holds

variable {m m' : Memory} {t u w : Tree} {y : Cell} {i : Info} {x fuel : ℕ} {alloc : Bool}

theorem mem_node (hy : y ∈ t.cells) : Obj.node y ∈ objects t :=
  mem_flatMap.2 ⟨y, hy, .head _⟩

theorem mem_info (hy : y ∈ t.cells) (hi : y.v = some i) : Obj.info i ∈ objects t :=
  mem_flatMap.2 ⟨y, hy, by simp [cellObjects, hi, Info.objects]⟩

variable {k : ℕ}

theorem mem_text (hy : y ∈ t.cells) (hi : y.v = some i) (hk : i.long = some k) :
    Obj.text k i.value ∈ objects t :=
  mem_flatMap.2 ⟨y, hy, by simp [cellObjects, hi, Info.objects, hk]⟩

section

variable (h : Holds m t)

include h

theorem nodup : t.labels.Nodup := by
  have hp := (pairwise_flatMap.1 h.laid.apart).2
  refine List.Pairwise.map _ (fun y y' hyy he => ?_) hp
  have ha := hyy _ (.head _) _ (.head _)
  have h1 := Obj.size_pos (.node y)
  have h2 := Obj.size_pos (.node y')
  simp only [Obj.Apart, Obj.start] at ha
  omega

theorem sharp : ∀ y ∈ t.cells, Ternary.Sharp cmp y.a := fun y hy =>
  Props.sharp (h.keys y hy)

theorem root_eq : t.root = some 0 := by
  obtain ⟨c, rfl⟩ := h.root
  rfl

/-- All but the root node is past the dirty backup area. -/
theorem far :
    (∀ y ∈ t.under.cells, 112 ≤ y.i) ∧ ∀ y ∈ t.cells, ∀ i, y.v = some i → 112 ≤ i.off := by
  obtain ⟨c, rfl⟩ := h.root
  have hobj : objects (.node 0 [] none .nil c .nil : Tree) =
      .node ⟨0, [], none, none, c.root, none⟩ :: objects c := by
    simp [objects, Ternary.cells, cellObjects, Ternary.root]
  have hl := h.laid
  rw [hobj] at hl
  have key : ∀ o ∈ objects c, 112 ≤ o.start := by
    intro o ho
    have ha := (pairwise_cons.1 hl.apart).1 o ho
    have hc := (hl.holds o (.tail _ ho)).2.clear
    have hp := o.size_pos
    have hsz := sizes
    change 0 + (TRIE_NODE_SIZE + 0) ≤ o.start ∨ o.start + o.size ≤ 0 at ha
    omega
  refine ⟨fun y hy => key _ (mem_node hy), fun y hy i hi => ?_⟩
  simp only [cells, nil_append, append_nil, mem_cons] at hy
  rcases hy with rfl | hy
  · cases hi
  · exact key _ (mem_info hy hi)

theorem node (hy : y ∈ t.cells) :
    (Obj.node y).At m ∧ (Obj.node y).Placed m.bytesUsed := h.laid.holds _ (mem_node hy)

/-- The nodes are in the data that is in use. -/
theorem inside (hy : y ∈ t.cells) :
    y.i % 4 = 0 ∧ y.i + (TRIE_NODE_SIZE + y.a.length) ≤ m.dataSize := by
  have hp := (h.node hy).2
  have hu := h.laid.used
  exact ⟨hp.aligned, Nat.le_trans hp.used hu.2.1⟩

theorem word_run (hy : y ∈ t.cells) (h4 : k % 4 = 0)
    (hk : k + 4 ≤ TRIE_NODE_SIZE) : word (y.i + k) m = .ok (m.data (y.i + k)) m := by
  obtain ⟨ha, hi⟩ := h.inside hy
  exact word_ok (by omega) (by omega)

theorem nodeName_run (hy : y ∈ t.cells) : nodeName y.i m = .ok y.a m := by
  obtain ⟨ha, hi⟩ := h.inside hy
  obtain ⟨hlen, -, -, -, -, hname⟩ := (h.node hy).1
  have hw : word y.i m = .ok y.a.length m := by
    rw [← hlen]
    exact h.word_run (k := 0) hy rfl (by decide)
  rw [nodeName, run_ok hw, readBytes_ok (by omega), hname]

/-- There is no more to search than the data holds. -/
theorem depth_le (hu : u.labels.Sublist t.labels) : u.depth ≤ m.dataSize := by
  have hsub : u.labels ⊆ List.range m.dataSize := by
    intro x hx
    obtain ⟨y, hy, rfl⟩ := mem_map.1 (hu.subset hx)
    have hi := (h.inside hy).2
    have hsz := sizes
    exact mem_range.2 (by omega)
  calc u.depth ≤ u.cells.length := Ternary.depth_le
    _ = u.labels.length := (length_map _).symm
    _ ≤ (List.range m.dataSize).length :=
        (subperm_of_subset (h.nodup.sublist hu) hsub).length_le
    _ = m.dataSize := length_range

/-- Space is taken and the tree is as before. -/
theorem grow (hg : Laid.Grown m m') : Holds m' t :=
  { h with laid := h.laid.grow hg }

end

/-! ### Searching -/

/-- A node that is missing is made, and linked at the side where the search ended. -/
def attach (s : Bytes) (x : ℕ) (d : Ternary.Side) : Access ℕ := do
  let node ← newTrieNode s
  setWord (x + link d) node
  return node

theorem side_run (h : Holds m t) (hy : y ∈ t.cells) (d : Ternary.Side) :
    word (y.i + link d) m = .ok ((y.side d).getD 0) m := by
  obtain ⟨-, -, hl, hr, hu, -⟩ := (h.node hy).1
  cases d with
  | left => exact (h.word_run hy rfl (by decide)).trans (congrArg (Outcome.ok · m) hl)
  | right => exact (h.word_run hy rfl (by decide)).trans (congrArg (Outcome.ok · m) hr)
  | under => exact (h.word_run hy rfl (by decide)).trans (congrArg (Outcome.ok · m) hu)

theorem links_run (h : Holds m t) (hy : y ∈ t.cells) :
    word (y.i + 8) m = .ok (y.left.getD 0) m ∧ word (y.i + 12) m = .ok (y.right.getD 0) m ∧
      word (y.i + 16) m = .ok (y.under.getD 0) m :=
  ⟨h.side_run hy .left, h.side_run hy .right, h.side_run hy .under⟩

theorem validOffset_run (h : Holds m t) (hy : y ∈ t.cells) : validOffset y.i m = .ok y.i m :=
  validOffset_ok (by have := (h.inside hy).2; omega)

theorem cell_of_root (hu : u.root = some x) :
    ∃ y ∈ u.cells, y.i = x ∧ y.under = u.under.root ∧ y.v = u.value := by
  cases u with
  | nil => cases hu
  | node => cases hu; exact ⟨_, .head _, rfl, rfl, rfl⟩

theorem findTrieNode_eq (h : Holds m t) (hy : y ∈ t.cells) (hc : cmp s y.a = .eq) :
    findTrieNode (fuel + 1) y.i s alloc m = .ok y.i m := by
  rw [findTrieNode, run_ok (h.nodeName_run hy), if_pos (cmp_eq.1 hc)]
  rfl

variable {d : Ternary.Side}

/-- A step of the search to a sibling, or its end. -/
theorem findTrieNode_ne (h : Holds m t) (fuel : ℕ) (alloc : Bool) (hy : y ∈ t.cells)
    (hc : cmp s y.a = .lt ∧ d = .left ∨ cmp s y.a = .gt ∧ d = .right) :
    (∀ z ∈ t.under.cells, y.side d = some z.i →
      findTrieNode (fuel + 1) y.i s alloc m = findTrieNode fuel z.i s alloc m) ∧
    (y.side d = none →
      findTrieNode (fuel + 1) y.i s alloc m = if alloc then attach s y.i d m else .err () m) := by
  have hne : ¬ cmpPropName s y.a = 0 := fun he => by rcases hc with hc | hc <;> simp [cmp, he] at hc
  have hlink : (if cmpPropName s y.a < 0 then y.i + 8 else y.i + 12) = y.i + link d := by
    rcases hc with ⟨hc, rfl⟩ | ⟨hc, rfl⟩
    · exact if_pos (cmp_lt.1 hc)
    · exact if_neg fun hlt => by rw [cmp_lt.2 hlt] at hc; cases hc
  refine ⟨fun z hz hd => ?_, fun hd => ?_⟩
  · have hpos := h.far.1 z hz
    have hw := h.side_run hy d
    rw [hd, Option.getD_some] at hw
    rw [findTrieNode, run_ok (h.nodeName_run hy), if_neg hne, hlink, run_ok hw,
      if_pos (by omega : z.i ≠ 0),
      run_ok (h.validOffset_run (cells_under_subset hz))]
  · have hw := h.side_run hy d
    rw [hd] at hw
    rw [findTrieNode, run_ok (h.nodeName_run hy), if_neg hne, hlink, run_ok hw, if_neg (by simp)]
    cases alloc <;> rfl

/-- The search among siblings: the node of the segment, or where it is made. -/
theorem findTrieNode_run (h : Holds m t) (alloc : Bool) (s : Bytes) (hu : u.cells ⊆ t.under.cells)
    (hx : u.root = some x) (hf : u.depth ≤ fuel) :
    (∀ w, u.seek cmp s = some w → findTrieNode fuel x s alloc m = .ok (w.root.getD 0) m) ∧
    (u.seek cmp s = none → ∃ z d, u.gap cmp s = some (z, d) ∧
      findTrieNode fuel x s alloc m = if alloc then attach s z d m else .err () m) := by
  induction u generalizing x fuel with
  | nil => cases hx
  | node i a v l c r ihl ihc ihr =>
    cases hx
    obtain ⟨fuel, rfl⟩ : ∃ k, fuel = k + 1 := ⟨fuel - 1, by simp only [depth] at hf; omega⟩
    have hcell : (⟨i, a, v, l.root, c.root, r.root⟩ : Cell) ∈ t.cells :=
      cells_under_subset (hu (.head _))
    have hul : l.cells ⊆ t.under.cells := fun y hy => hu (by simp [cells, hy])
    have hur : r.cells ⊆ t.under.cells := fun y hy => hu (by simp [cells, hy])
    simp only [depth] at hf
    cases hc : cmp s a with
    | eq =>
      simp only [seek, hc]
      exact ⟨fun w hw => by cases hw; exact h.findTrieNode_eq hcell hc, by simp⟩
    | lt =>
      obtain ⟨hnext, hend⟩ := h.findTrieNode_ne fuel alloc hcell (.inl ⟨hc, rfl⟩)
      simp only [seek, gap, hc]
      cases hl : l.root with
      | none =>
        rw [root_eq_none.1 hl]
        exact ⟨fun _ h => (by cases h), fun _ => ⟨i, .left, rfl, hend hl⟩⟩
      | some z =>
        obtain ⟨y, hy, rfl, -⟩ := cell_of_root hl
        rw [hnext y (hul hy) hl, if_neg (by simp)]
        exact ihl hul hl (by omega)
    | gt =>
      obtain ⟨hnext, hend⟩ := h.findTrieNode_ne fuel alloc hcell (.inr ⟨hc, rfl⟩)
      simp only [seek, gap, hc]
      cases hr : r.root with
      | none =>
        rw [root_eq_none.1 hr]
        exact ⟨fun _ h => (by cases h), fun _ => ⟨i, .right, rfl, hend hr⟩⟩
      | some z =>
        obtain ⟨y, hy, rfl, -⟩ := cell_of_root hr
        rw [hnext y (hur hy) hr, if_neg (by simp)]
        exact ihr hur hr (by omega)

/-- No node is searched for with the empty segment. -/
theorem seek_nil (h : Holds m t) (hu : u.cells ⊆ t.under.cells) : u.seek cmp [] = none := by
  cases hs : u.seek cmp [] with
  | none => rfl
  | some w =>
    obtain ⟨y, hy, hc⟩ : ∃ y ∈ u.cells, cmp [] y.a = .eq := by
      obtain ⟨i, a, v, l, c, r, rfl, hc⟩ := seek_node hs
      exact ⟨_, seek_cells hs (.head _), hc⟩
    have hyt := cells_under_subset (hu hy)
    have hpos := h.far.1 y (hu hy)
    exact absurd (eq_of_cmpPropName (h.keys y hyt) (cmp_eq.1 hc)).symm (h.keyed y hyt (by omega))

/-! ### Making nodes -/

/-- A link of a node is set: its other words are as before. -/
theorem data_store {n j : ℕ} (hn : n < 2 ^ 32) (hk : k % 4 = 0) (hj : j % 4 = 0) :
    (m.store (PROP_AREA_HEADER_SIZE + (x + k)) n).data (x + j) =
      if j = k then n else m.data (x + j) := by
  split
  · next h => rw [h, Memory.data, word_store, Nat.mod_eq_of_lt hn]
  · exact word_store_ne (by omega)

theorem data_store_zero {n : ℕ} (hk : k % 4 = 0) (h0 : 0 < k) :
    (m.store (PROP_AREA_HEADER_SIZE + (x + k)) n).data x = m.data x :=
  word_store_ne (by omega)

theorem at_setSide {n : ℕ} (hn : n < 2 ^ 32) (h : (Obj.node y).At m) :
    (Obj.node (y.setSide d (some n))).At (m.store (PROP_AREA_HEADER_SIZE + (y.i + link d)) n) := by
  obtain ⟨h1, h2, h3, h4, h5, h6⟩ := h
  have hsz := sizes
  cases d <;>
    · simp only [Obj.At, Ternary.Cell.setSide, link, data_store hn]
      refine ⟨(data_store_zero rfl (by decide)).trans h1, ?_, ?_, ?_, ?_,
        (read_store_ne (.inr (by omega))).trans h6⟩ <;> simp [*]

theorem at_setValue (hi : i.off < 2 ^ 32) (h : (Obj.node y).At m) :
    (Obj.node { y with v := some i }).At
      (m.store (PROP_AREA_HEADER_SIZE + (y.i + 4)) i.off) := by
  obtain ⟨h1, h2, h3, h4, h5, h6⟩ := h
  have hsz := sizes
  simp only [Obj.At, data_store hi]
  refine ⟨(data_store_zero rfl (by decide)).trans h1, ?_, ?_, ?_, ?_,
    (read_store_ne (.inr (by omega))).trans h6⟩ <;> simp [*]

/-- The objects of a tree from those of one cell and the others. -/
theorem objects_perm {ys : List Cell} (h : t.cells.Perm (y :: ys)) :
    (objects t).Perm (cellObjects y ++ ys.flatMap cellObjects) :=
  (h.flatMap_right _).trans (.of_eq (by simp [flatMap_cons]))

theorem setSide_eq {n : Option ℕ} : (y.setSide d n).i = y.i ∧
    (y.setSide d n).a = y.a ∧ (y.setSide d n).v = y.v := by
  cases d <;> exact ⟨rfl, rfl, rfl⟩

variable {p : List Bytes}

/-- The root keeps its shape when a node is added. -/
theorem root_plug (h : Holds m t) (hp : t.walk cmp p = some w) (hx : w.place cmp s = some (x, d))
    (u : Tree) : ∃ c, plug x d u t = .node 0 [] none .nil c .nil := by
  have hfar : x = 0 → d = .under := by
    rintro rfl
    unfold place at hx
    split at hx
    · cases hr : w.root with
      | none => rw [hr] at hx; cases hx
      | some => rw [hr] at hx; cases hx; rfl
    · obtain ⟨⟨z, hz, hz0, -⟩, -⟩ := gap_cell hx
      have := h.far.1 z (walk_under hp hz)
      omega
  obtain ⟨c, rfl⟩ := h.root
  refine ⟨if 0 = x ∧ d = .under then u else plug x d u c, ?_⟩
  have h1 : ¬ (0 = x ∧ d = .left) := fun ⟨he, hd⟩ => by rw [hfar he.symm] at hd; cases hd
  have h2 : ¬ (0 = x ∧ d = .right) := fun ⟨he, hd⟩ => by rw [hfar he.symm] at hd; cases hd
  simp [plug, h1, h2]

/-- Making a node: where there is no space nothing changes, else the tree has one more. -/
theorem attach_run (h : Holds m t) (hp : t.walk cmp p = some w) (hx : w.place cmp s = some (x, d))
    (hs : s ≠ []) (hs0 : ∀ c ∈ s, c ≠ 0) :
    (∃ m', m.bytesUsed + align4 (TRIE_NODE_SIZE + s.length + 1) ≤ m.dataSize ∧
      attach s x d m = .ok m.bytesUsed m' ∧ m'.dataSize = m.dataSize ∧
      Holds m' (plug x d (.leaf m.bytesUsed s) t) ∧
      space m' (plug x d (.leaf m.bytesUsed s) t) =
        (space m t).took (align4 (TRIE_NODE_SIZE + s.length + 1), some (p ++ [s]))) ∨
    m.dataSize < m.bytesUsed + align4 (TRIE_NODE_SIZE + s.length + 1) ∧
      attach s x d m = .err () m := by
  by_cases hsp : m.bytesUsed + align4 (TRIE_NODE_SIZE + s.length + 1) ≤ m.dataSize
  case neg => exact .inr ⟨by omega, run_err (newTrieNode_err (by omega))⟩
  obtain ⟨m₁, hrun, hg, hat, hu₁⟩ := newTrieNode_ok h.laid hsp
  obtain ⟨y, hy, rfl, hside⟩ := place_cell hx
  have hyt := walk_cells hp hy
  have hsz := sizes
  have hd := h.laid.dataSize_lt
  have hu := h.laid.used
  have hdata : m₁.dataSize = m.dataSize := by rw [Memory.dataSize, hg.len]; rfl
  obtain ⟨hal, hin⟩ := h.inside hyt
  have hlink : link d % 4 = 0 ∧ link d + 4 ≤ TRIE_NODE_SIZE ∧ 0 < link d := by cases d <;> decide
  -- the new node is apart from all that the tree has
  have hlaid : Laid m₁ (.node (newCell m.bytesUsed s) :: objects t) := by
    refine (h.laid.grow hg).cons hat ⟨hu.2.2, ?_, .inr hu.1, trivial⟩ fun o ho => .inr ?_
    · have hle := le_align4 (TRIE_NODE_SIZE + s.length + 1)
      change m.bytesUsed + (TRIE_NODE_SIZE + s.length) ≤ m₁.bytesUsed
      omega
    · exact (h.laid.holds o ho).2.used
  obtain ⟨ys, hys, hmap⟩ := cells_perm h.nodup hyt
  have hopen := place_open h.nodup hp hx
  have hmem := mem_map_of_mem (f := (·.i)) hyt
  have hcells := (cells_plug (u := .leaf m.bytesUsed s) h.nodup hmem hopen).trans
    ((hmap fun z => z.setSide d (some m.bytesUsed)).append_left _)
  have hfrom : ∀ z ∈ (plug y.i d (.leaf m.bytesUsed s) t).cells,
      z = newCell m.bytesUsed s ∨ ∃ z₀ ∈ t.cells, z.i = z₀.i ∧ z.a = z₀.a ∧ z.v = z₀.v := by
    intro z hz
    rcases mem_cons.1 (hcells.mem_iff.1 hz) with rfl | hz
    · exact .inl rfl
    · rcases mem_cons.1 hz with rfl | hz
      · exact .inr ⟨y, hyt, setSide_eq⟩
      · exact .inr ⟨z, hys.mem_iff.2 (.tail _ hz), rfl, rfl, rfl⟩
  have hself : cmp s s = .eq := cmp_eq.2 (cmpPropName_self s)
  have hh : Holds (m₁.store (PROP_AREA_HEADER_SIZE + (y.i + link d)) m.bytesUsed)
      (plug y.i d (.leaf m.bytesUsed s) t) := by
    refine ⟨?_, ?_, ?_, ?_, ?_, ?_, ?_⟩
    · have hold : Laid m₁ (.node y :: .node (newCell m.bytesUsed s) ::
          ((y.v.map Info.objects).getD [] ++ ys.flatMap cellObjects)) :=
        hlaid.perm (((objects_perm hys).cons _).trans (.swap _ _ _))
      have hnew : Laid (m₁.store (PROP_AREA_HEADER_SIZE + (y.i + link d)) m.bytesUsed)
          (.node (y.setSide d (some m.bytesUsed)) :: _) := hold.poke rfl
        (fun a ha _ => byte_store_ne (by
          simp only [Obj.start, Obj.size] at ha
          omega))
        (at_setSide (by omega) (hold.holds _ (.head _)).1) setSide_eq.1
        (by simp only [Obj.size, setSide_eq]) trivial
      refine hnew.perm (.trans ?_ (hcells.flatMap_right _).symm)
      rw [leaf, cells]
      simp only [flatMap_append, flatMap_cons, cellObjects, setSide_eq]
      exact .swap _ _ _
    · exact h.root_plug hp hx _
    · intro z hz
      rcases hfrom z hz with rfl | ⟨z₀, hz₀, -, ha, -⟩
      · exact hs0
      · rw [ha]; exact h.keys z₀ hz₀
    · intro z hz h0
      rcases hfrom z hz with rfl | ⟨z₀, hz₀, hi, ha, -⟩
      · exact hs
      · rw [ha]; exact h.keyed z₀ hz₀ (hi ▸ h0)
    · intro z hz i hv
      rcases hfrom z hz with rfl | ⟨z₀, hz₀, -, -, hv₀⟩
      · cases hv
      · exact h.infos z₀ hz₀ i (hv₀ ▸ hv)
    · exact h.reached.plug h.nodup hself hp hx
    · intro q i hi
      rw [find_plug hopen] at hi
      exact h.named q i hi
  left
  refine ⟨m₁.store (PROP_AREA_HEADER_SIZE + (y.i + link d)) m.bytesUsed, hsp, ?_, hdata, hh, ?_⟩
  · rw [attach, run_ok hrun, run_ok (setWord_ok (by omega) (by omega))]
    rfl
  · have hpaths : (fun q => ((plug y.i d (.leaf m.bytesUsed s) t).walk cmp q).isSome) =
        Function.update (fun q => (t.walk cmp q).isSome) (p ++ [s]) true := by
      funext q
      rw [Bool.eq_iff_iff, isSome_walk_plug h.reached h.nodup hself hp hx h.root_eq hh.nodup hh.sharp,
        Function.update_apply]
      split_ifs with hq <;> simp [hq]
    have hbytes : (m₁.store (PROP_AREA_HEADER_SIZE + (y.i + link d)) m.bytesUsed).bytesUsed =
        m₁.bytesUsed := bytesUsed_store_ne (by omega)
    rw [space, hpaths, hbytes, hu₁]
    rfl

/-! ### Searching for a path -/

section Path

variable {p : List Bytes} {s : Bytes} {rest : List Bytes}

theorem walk_snoc (hp : t.walk cmp p = some w) (hs : w.under.seek cmp s = some u) :
    t.walk cmp (p ++ [s]) = some u := by
  rw [walk_append hp, walk, hs]
  rfl

variable (h : Holds m t)

include h

theorem depth_under (hp : t.walk cmp p = some w) : w.under.depth ≤ m.dataSize :=
  h.depth_le (labels_under_sublist.trans (walk_labels hp))

/-- A step of the search: the node's children are searched, or there are none. -/
theorem findNode_step (hp : t.walk cmp p = some w) (hx : w.root = some x)
    (hne : s ≠ []) :
    (∀ z, w.under.root = some z → findNode fuel alloc x (s :: rest) m =
      (findTrieNode fuel z s alloc >>= fun y => findNode fuel alloc y rest) m) ∧
    (w.under.root = none → findNode fuel alloc x (s :: rest) m =
      if alloc then (attach s x .under >>= fun z => findTrieNode fuel z s alloc >>= fun y =>
        findNode fuel alloc y rest) m
      else .err () m) := by
  obtain ⟨y, hy, rfl, hyu, -⟩ := cell_of_root hx
  have hword := h.side_run (walk_cells hp hy) .under
  simp only [link, Ternary.Cell.side, hyu] at hword
  refine ⟨fun z hz => ?_, fun hn => ?_⟩
  · obtain ⟨y', hy', rfl, -⟩ := cell_of_root hz
    have hy't := walk_under hp hy'
    have hpos := h.far.1 y' hy't
    rw [hz, Option.getD_some] at hword
    rw [findNode, if_neg hne, run_ok hword, if_pos (by omega : y'.i ≠ 0),
      run_ok (h.validOffset_run (cells_under_subset hy't))]
  · rw [hn, Option.getD_none] at hword
    rw [findNode, if_neg hne, run_ok hword, if_neg (not_not.2 rfl)]
    cases alloc with
    | false => rfl
    | true =>
      rw [if_pos rfl, if_pos rfl, attach]
      simp only [Prog.bind_assoc]
      rfl

theorem findNode_next (hp : t.walk cmp p = some w) (hx : w.root = some x)
    (hz : w.under.seek cmp s = some u) (hf : m.dataSize ≤ fuel) :
    findNode fuel alloc x (s :: rest) m = findNode fuel alloc (u.root.getD 0) rest m := by
  have hne : s ≠ [] := by
    rintro rfl
    rw [h.seek_nil (walk_under hp)] at hz
    cases hz
  cases hr : w.under.root with
  | none => rw [root_eq_none.1 hr] at hz; cases hz
  | some r =>
    have hrun := (h.findTrieNode_run alloc s (walk_under hp) hr
      (Nat.le_trans (h.depth_under hp) hf)).1 u hz
    rw [(h.findNode_step hp hx hne).1 r hr, run_ok hrun]

/-- The search for a node that there is. -/
theorem findNode_some (hp : t.walk cmp p = some w) (hx : w.root = some x)
    (hw : w.walk cmp rest = some u) (hf : m.dataSize ≤ fuel) :
    findNode fuel alloc x rest m = .ok (u.root.getD 0) m := by
  induction rest generalizing p w x with
  | nil =>
    cases hw
    rw [hx]
    rfl
  | cons s rest ih =>
    obtain ⟨z, hz, hw⟩ := Option.bind_eq_some_iff.1 hw
    obtain ⟨x', hx'⟩ := root_seek hz
    rw [h.findNode_next hp hx hz hf, hx']
    exact ih (walk_snoc hp hz) hx' hw

/-- The search for a node that there is not. -/
theorem findNode_none (hp : t.walk cmp p = some w) (hx : w.root = some x)
    (hw : w.walk cmp rest = none) (hf : m.dataSize ≤ fuel) :
    findNode fuel false x rest m = .err () m := by
  induction rest generalizing p w x with
  | nil => cases hw
  | cons s rest ih =>
    by_cases hne : s = []
    · rw [findNode, if_pos hne]
      rfl
    cases hr : w.under.root with
    | none => exact (h.findNode_step hp hx hne).2 hr
    | some r =>
      obtain ⟨hsome, hnone⟩ := h.findTrieNode_run false s
        (walk_under hp) hr (Nat.le_trans (h.depth_under hp) hf)
      rw [(h.findNode_step hp hx hne).1 r hr]
      cases hz : w.under.seek cmp s with
      | none =>
        obtain ⟨_, _, _, hrun⟩ := hnone hz
        exact run_err hrun
      | some z =>
        obtain ⟨x', hx'⟩ := root_seek hz
        rw [walk, hz] at hw
        rw [run_ok (hsome z hz), hx']
        exact ih (walk_snoc hp hz) hx' hw

/-- A step to a node that is made if it is missing. -/
theorem findNode_make (rest : List Bytes) (hp : t.walk cmp p = some w) (hx : w.root = some x)
    (hne : s ≠ []) (hs0 : ∀ c ∈ s, c ≠ 0) (hf : m.dataSize ≤ fuel) :
    ∃ m' t', Holds m' t' ∧ m'.dataSize = m.dataSize ∧ (∀ q, t'.find cmp q = t.find cmp q) ∧
      ((∃ u y, t'.walk cmp (p ++ [s]) = some u ∧ u.root = some y ∧
        findNode fuel true x (s :: rest) m = findNode fuel true y rest m' ∧
        (space m t).used + total ((space m t).nodes p [s]) ≤ m.dataSize ∧
        space m' t' = (space m t).make m.dataSize ((space m t).nodes p [s])) ∨
      findNode fuel true x (s :: rest) m = .err () m' ∧ m' = m ∧ t' = t ∧
        (space m t).paths (p ++ [s]) = false ∧
        m.dataSize < m.bytesUsed + align4 (TRIE_NODE_SIZE + s.length + 1)) := by
  cases hz : w.under.seek cmp s with
  | some u =>
    obtain ⟨y, hy⟩ := root_seek hz
    have hthere : (space m t).nodes p [s] = [] :=
      if_pos (congrArg Option.isSome (walk_snoc hp hz))
    refine ⟨m, t, h, rfl, fun _ => rfl, .inl ⟨u, y, walk_snoc hp hz, hy, ?_, ?_, ?_⟩⟩
    · rw [h.findNode_next hp hx hz hf, hy]
      rfl
    · rw [hthere]
      exact h.laid.used.2.1
    · rw [hthere]
      rfl
  | none =>
    have hgone : (space m t).paths (p ++ [s]) = false := by
      change (t.walk cmp (p ++ [s])).isSome = false
      rw [walk_append hp, walk, hz]
      rfl
    have hnode : (space m t).nodes p [s] =
        [(align4 (TRIE_NODE_SIZE + s.length + 1), some (p ++ [s]))] := by
      rw [Space.nodes, if_neg (by rw [hgone]; exact Bool.false_ne_true), Space.nodes]
    obtain ⟨z, d, hpl⟩ := place_ne_none hz (by rw [hx]; exact Option.some_ne_none x)
    have hself : cmp s s = .eq := cmp_eq.2 (cmpPropName_self s)
    have hopen := place_open h.nodup hp hpl
    have hwalk := walk_place (y := m.bytesUsed) h.nodup hself hp hpl
    -- the node is made where the search of its siblings ends, or as the first child
    have hrun : findNode fuel true x (s :: rest) m =
        (attach s z d >>= fun n => findNode fuel true n rest) m ∨
        findNode fuel true x (s :: rest) m = (attach s z d >>= fun n =>
          findTrieNode fuel n s true >>= fun y => findNode fuel true y rest) m := by
      unfold place at hpl
      cases hr : w.under.root with
      | none =>
        rw [if_pos hr, hx] at hpl
        cases hpl
        exact .inr ((h.findNode_step hp hx hne).2 hr)
      | some r =>
        rw [if_neg (by rw [hr]; exact Option.some_ne_none r)] at hpl
        obtain ⟨z', d', hgap, hrun⟩ := (h.findTrieNode_run true s
          (walk_under hp) hr (Nat.le_trans (h.depth_under hp) hf)).2 hz
        cases hpl.symm.trans hgap
        left
        rw [(h.findNode_step hp hx hne).1 r hr]
        change Prog.bind _ _ _ = Prog.bind _ _ _
        unfold Prog.bind
        rw [hrun]
        rfl
    rcases h.attach_run hp hpl hne hs0 with ⟨m', hroom, hok, hd, h', hspace⟩ | ⟨hroom, herr⟩
    · refine ⟨m', _, h', hd, find_plug hopen, .inl ⟨_, m.bytesUsed, hwalk, rfl, ?_, ?_, ?_⟩⟩
      rotate_left
      · rw [hnode]
        exact hroom
      · rw [hnode, hspace, Space.make_cons (by exact hroom)]
        rfl
      obtain ⟨fuel, rfl⟩ : ∃ k, fuel = k + 1 := by
        have := h.laid.used
        have := sizes
        exact ⟨fuel - 1, by omega⟩
      have hleaf : findTrieNode (fuel + 1) m.bytesUsed s true m' = .ok m.bytesUsed m' :=
        h'.findTrieNode_eq (y := newCell m.bytesUsed s)
          (walk_cells hwalk (.head _)) hself
      rcases hrun with hrun | hrun
      · rw [hrun, run_ok hok]
      · rw [hrun, run_ok hok, run_ok hleaf]
    · refine ⟨m, t, h, rfl, fun _ => rfl, .inr ⟨?_, rfl, rfl, hgone, hroom⟩⟩
      rcases hrun with hrun | hrun <;> rw [hrun, run_err herr]

/-- Making a path: the tree has no other property, and its missing nodes, or as many of them as there
is space for. -/
theorem findNode_alloc (hp : t.walk cmp p = some w) (hx : w.root = some x)
    (hs : ∀ s ∈ rest, s ≠ [] ∧ ∀ c ∈ s, c ≠ 0) (hf : m.dataSize ≤ fuel) :
    ∃ m' t', Holds m' t' ∧ m'.dataSize = m.dataSize ∧ (∀ q, t'.find cmp q = t.find cmp q) ∧
      space m' t' = (space m t).make m.dataSize ((space m t).nodes p rest) ∧
      ((∃ u y, findNode fuel true x rest m = .ok y m' ∧ t'.walk cmp (p ++ rest) = some u ∧
        u.root = some y ∧ m.bytesUsed + total ((space m t).nodes p rest) ≤ m.dataSize) ∨
      findNode fuel true x rest m = .err () m' ∧
        m.dataSize < m.bytesUsed + total ((space m t).nodes p rest)) := by
  induction rest generalizing m t p w x with
  | nil =>
    exact ⟨m, t, h, rfl, fun _ => rfl, rfl,
      .inl ⟨w, x, rfl, by rw [append_nil, hp], hx, h.laid.used.2.1⟩⟩
  | cons s rest ih =>
    obtain ⟨⟨hne, hs0⟩, hs⟩ := forall_mem_cons.1 hs
    obtain ⟨m₁, t₁, h₁, hd₁, hf₁, hnext⟩ := h.findNode_make rest hp hx hne hs0 hf
    rcases hnext with ⟨w₁, x₁, hp₁, hx₁, hrun, hroom, hspace⟩ | ⟨herr, rfl, rfl, hgone, hroom⟩
    · obtain ⟨m', t', h', hd', hf', hmade, hend⟩ := ih h₁ hp₁ hx₁ hs (by omega)
      -- the nodes further on are missing as they were
      have hrest : (space m₁ t₁).nodes (p ++ [s]) rest = (space m t).nodes (p ++ [s]) rest := by
        refine Space.nodes_congr fun q hq => ?_
        rw [hspace, Space.paths_make]
        intro o ho he
        have hlen := Space.length_of_nodes ho he
        simp at hq
        omega
      have hnodes : (space m t).nodes p (s :: rest) =
          (space m t).nodes p [s] ++ (space m t).nodes (p ++ [s]) rest := by
        rw [Space.nodes, Space.nodes]
        split_ifs <;> rfl
      have hused : (space m₁ t₁).used =
          (space m t).used + total ((space m t).nodes p [s]) := by
        rw [hspace, Space.used_make hroom]
      have htotal := total_append ((space m t).nodes p [s]) ((space m t).nodes (p ++ [s]) rest)
      change m₁.bytesUsed = m.bytesUsed + _ at hused
      rw [hrest, hd₁] at hmade hend
      rw [append_assoc] at hend
      refine ⟨m', t', h', hd'.trans hd₁, fun q => (hf' q).trans (hf₁ q), ?_, ?_⟩
      · rw [hnodes, Space.make_append hroom, ← hspace, hmade]
      · rw [hrun, hnodes, htotal, ← Nat.add_assoc, ← hused]
        exact hend
    · have hnodes : (space m₁ t₁).nodes p (s :: rest) =
          (align4 (TRIE_NODE_SIZE + s.length + 1), some (p ++ [s])) ::
            (space m₁ t₁).nodes (p ++ [s]) rest := by
        rw [Space.nodes, if_neg (by rw [hgone]; exact Bool.false_ne_true)]
      refine ⟨m₁, t₁, h₁, rfl, fun _ => rfl, ?_, .inr ⟨herr, ?_⟩⟩
      · rw [hnodes]
        exact (Space.make_cons_of_lt hroom).symm
      · rw [hnodes]
        have htotal : total ((align4 (TRIE_NODE_SIZE + s.length + 1), some (p ++ [s])) ::
            (space m₁ t₁).nodes (p ++ [s]) rest) = align4 (TRIE_NODE_SIZE + s.length + 1) +
              total ((space m₁ t₁).nodes (p ++ [s]) rest) := List.sum_cons
        omega

end Path

/-! ### Properties -/

section Property

variable {name value : Bytes}

theorem walk_nil (h : Holds m t) : t.walk cmp [] = some t ∧ t.root = some 0 := ⟨rfl, h.root_eq⟩

theorem value_run (h : Holds m t) (hy : y ∈ t.cells) :
    word (y.i + 4) m = .ok ((y.v.map (·.off)).getD 0) m :=
  (h.word_run hy rfl (by decide)).trans (congrArg (Outcome.ok · m) (h.node hy).1.2.1)

theorem placed_info (h : Holds m t) (hy : y ∈ t.cells) (hi : y.v = some i) :
    i.off % 4 = 0 ∧ i.off + (PROP_INFO_SIZE + i.name.length + 1) ≤ m.dataSize := by
  have hp := (h.laid.holds _ (mem_info hy hi)).2
  have hu := h.laid.used
  exact ⟨hp.aligned, Nat.le_trans hp.used hu.2.1⟩

/-- The end of the search for a property, at the node of its last segment. -/
theorem findProperty_walk (h : Holds m t) (value : Bytes) (alloc : Bool)
    (hu : t.walk cmp (segments name) = some u) :
    ∃ y ∈ t.cells, u.root = some y.i ∧ y.v = u.value ∧ findProperty name value alloc m =
      (word (y.i + 4) >>= fun prop =>
        if prop ≠ 0 then validOffset prop
        else if !alloc then Prog.throw ()
        else newPropInfo name value >>= fun info => setWord (y.i + 4) info >>= fun _ =>
          Pure.pure info) m := by
  obtain ⟨hp, hx⟩ := h.walk_nil
  obtain ⟨x, hux⟩ := root_walk hx hu
  obtain ⟨y, hy, rfl, -, hv⟩ := cell_of_root hux
  have hrun : findNode m.dataSize alloc 0 (segments name) m = .ok y.i m := by
    rw [h.findNode_some hp hx hu (Nat.le_refl _), hux]
    rfl
  refine ⟨y, walk_cells hu hy, hux, hv, ?_⟩
  rw [findProperty, run_ok get_ok, run_ok hrun]

/-- The search for a property that there is. -/
theorem findProperty_some (h : Holds m t) (hi : t.find cmp (segments name) = some i) :
    findProperty name value alloc m = .ok i.off m := by
  obtain ⟨u, hu, hv⟩ := Option.bind_eq_some_iff.1 hi
  obtain ⟨y, hy, -, hyv, hrun⟩ := h.findProperty_walk value alloc hu
  rw [hv] at hyv
  have hword := h.value_run hy
  have hfar := h.far.2 y hy i hyv
  have hin := (h.placed_info hy hyv).2
  rw [hyv, Option.map_some, Option.getD_some] at hword
  rw [hrun, run_ok hword, if_pos (by omega : i.off ≠ 0)]
  exact validOffset_ok (by omega)

/-- The search for a property that there is not. -/
theorem findProperty_none (h : Holds m t) (hi : t.find cmp (segments name) = none) :
    findProperty name value false m = .err () m := by
  cases hu : t.walk cmp (segments name) with
  | none =>
    obtain ⟨hp, hx⟩ := h.walk_nil
    rw [findProperty, run_ok get_ok, run_err (h.findNode_none hp hx hu (Nat.le_refl _))]
  | some u =>
    obtain ⟨y, hy, -, hyv, hrun⟩ := h.findProperty_walk value false hu
    have hv : u.value = none := by rwa [Ternary.find, hu] at hi
    have hword := h.value_run hy
    rw [hyv, hv] at hword
    rw [hrun, run_ok hword]
    rfl

end Property

end Holds

end Aim.Props
