import Aim.Props.Listing

/-!
# Props — The area is a finite map

The calls on an area, and the map from names to values that they are meant to keep.

* `law`: what a call does to the map and to the space that is left.  An add of a new property fails
  exactly where the nodes it misses, its record and its long value do not fit, and the map stays as
  it is.
* `Represents`: the area is the map.  `find` and `info_value` look a name up in it, `foreach` lists
  it, every offset leads into the data that is in use, and the reader of the same bytes agrees.
* `area_is_map`: an area is the map that its calls make.
-/

namespace Aim.Props

open Memory List Ternary Option
open Prog (run_ok run_err get_ok)

/-! ### Calls -/

/-- `PropertyAreas::update` on the area of the name. -/
def update (name value : Bytes) : Access ℕ := do
  let info ← find name
  updateValue info value

inductive Call where
  | add (name value : Bytes)
  | update (name value : Bytes)

namespace Call

/-- A legal name, a value with no zero byte and not too long; read-only properties are not
updated. -/
def Fit : Call → Prop
  | add name value => Props.Fit name value
  | update name value => Props.Fit name value ∧ ¬ IsRo name

/-- False when the call has failed. -/
def run : Call → Access Bool
  | add name value => Props.add name value
  | update name value => do
    let r ← (Props.update name value).attempt
    return match r with
      | .ok _ => true
      | .error _ => false

end Call

def runs : List Call → Access (List Bool)
  | [] => Pure.pure []
  | c :: cs => do
    let b ← c.run
    let bs ← runs cs
    return b :: bs

/-! ### The map -/

/-- The values of the names that have one. -/
abbrev Map := Bytes → Option Bytes

/-- What a call does: whether it succeeds, and the map and the space after it.  What an add that
fails has found space for stays taken. -/
def law (size : ℕ) : Call → Map × Space → Bool × Map × Space
  | .add name value, (S, sp) =>
    if S name ≠ none then (true, S, sp)
    else if sp.used + total (sp.pieces name value) ≤ size then
      (true, Function.update S name (some value), sp.make size (sp.pieces name value))
    else (false, S, sp.make size (sp.pieces name value))
  | .update name value, (S, sp) =>
    if S name ≠ none then (true, Function.update S name (some value), sp) else (false, S, sp)

def laws (size : ℕ) : List Call → Map × Space → List Bool × Map × Space
  | [], s => ([], s)
  | c :: cs, s =>
    ((law size c s).1 :: (laws size cs (law size c s).2).1, (laws size cs (law size c s).2).2)

/-- A new area: no name has a value, the root is the only node, and the backup area follows it. -/
def fresh : Map × Space :=
  (fun _ => none, ⟨List.isEmpty, TRIE_NODE_SIZE + align4 PROP_VALUE_MAX⟩)

/-! ### The area of a map -/

/-- The node at `x` is `n` links from the root. -/
inductive Node (m : Memory) : (x n : ℕ) → Prop
  | root : Node m 0 0
  | link {x n k : ℕ} : Node m x n → k ∈ [8, 12, 16] → m.data (x + k) ≠ 0 →
      Node m (m.data (x + k)) (n + 1)

/-- A property as the writer has it. -/
def written (info : ℕ) : Access Reader.ReadProperty := do
  let name ← infoName info
  let value ← infoValue info
  let serial ← infoSerial info
  return ⟨name, Utf8.lossy value, serial⟩

def writtenAll : List ℕ → Access (List Reader.ReadProperty)
  | [] => Pure.pure []
  | info :: infos => do
    let p ← written info
    let ps ← writtenAll infos
    return p :: ps

/-- The record at `info` and its value are in the data that is in use. -/
def Inside (m : Memory) (info : ℕ) : Prop :=
  ∃ name value, infoName info m = .ok name m ∧ infoValue info m = .ok value m ∧
    info + (PROP_INFO_SIZE + name.length + 1) ≤ m.bytesUsed ∧
    (m.data info &&& LONG_FLAG ≠ 0 → IsRo name →
      info + m.data (info + LONG_OFFSET_FIELD) + value.length + 1 ≤ m.bytesUsed)

structure Represents (m : Memory) (S : Map) : Prop where
  absent : ∀ name, S name = none → find name m = .err () m
  present : ∀ name value, S name = some value →
    ∃ info, find name m = .ok info m ∧ infoValue info m = .ok value m
  /-- Every property is listed once. -/
  lists : ∃ infos names, foreach m = .ok infos m ∧ names.Nodup ∧
    (∀ name, name ∈ names ↔ S name ≠ none) ∧
    List.Forall₂ (fun info name => infoName info m = .ok name m ∧ find name m = .ok info m)
      infos names
  inside : ∀ x n, Node m x n → x + (TRIE_NODE_SIZE + m.data x) ≤ m.bytesUsed ∧
    (m.data (x + 4) ≠ 0 → Inside m (m.data (x + 4)))
  used : m.bytesUsed ≤ m.dataSize
  accepted : Reader.accepts m = true
  readerFind : ∀ name, Reader.find name m = find name m
  readerGet : ∀ name, Reader.get name m = (find name >>= written) m
  readerForeach : (∀ x n, Node m x n → n ≤ 4096) →
    Reader.foreach m = (foreach >>= writtenAll) m

/-! ### A new area -/

theorem create_spec {len : ℕ} {m : Memory} (hc : create len = some m) :
    m.len = len ∧ 240 ≤ len ∧ m.bytesUsed = 112 ∧ m.word 8 = PROP_AREA_MAGIC ∧
      m.word 12 = PROP_AREA_VERSION ∧ ∀ a, 16 ≤ a → m.byte a = 0 := by
  have hsz := sizes
  unfold create at hc
  split_ifs at hc with hlen
  cases hc
  refine ⟨rfl, by omega, bytesUsed_store (by decide), ?_, ?_, fun a ha => ?_⟩
  · simp (disch := omega) only [word_store_ne, word_store]
    decide
  · simp (disch := omega) only [word_store_ne, word_store]
    decide
  · simp (disch := omega) only [byte_store_ne]
    rfl

theorem create_holds {len : ℕ} {m : Memory} (hc : create len = some m)
    (hl : len < 2 ^ 32 + PROP_AREA_HEADER_SIZE) : Holds m (.node 0 [] none .nil .nil .nil) := by
  have hsz := sizes
  obtain ⟨rfl, hlen, hused, hmagic, hversion, hzero⟩ := create_spec hc
  have hdata : ∀ k, m.data k = 0 := fun k => word_of_zero fun a ha => hzero a (by omega)
  refine ⟨⟨⟨hlen, hl⟩, ⟨hmagic, hversion⟩, ?_, ?_, ?_, ?_⟩, ⟨_, rfl⟩, ?_, ?_, ?_, ?_, ?_⟩
  · rw [Memory.dataSize]
    omega
  · exact fun a ha => hzero a (by omega)
  · intro o ho
    simp only [objects, cells, cellObjects, flatMap_cons, flatMap_nil,
      map_none, getD_none, append_nil, mem_singleton] at ho
    subst ho
    rw [hused]
    exact ⟨⟨hdata _, hdata _, hdata _, hdata _, hdata _, rfl⟩, rfl, by decide, .inl (by decide),
      trivial⟩
  · simp [objects, cells, cellObjects]
  · simp [cells]
  · simp [cells]
  · simp [cells]
  · intro x hx
    simp only [labels_node, labels_nil, append_nil, mem_singleton] at hx
    subst hx
    exact ⟨[], _, rfl, rfl⟩
  · intro p i hi
    cases p <;> cases hi

namespace Holds

variable {m m' : Memory} {t u : Tree} {y : Cell} {i : Info} {x n : ℕ}

/-- The map that a tree holds. -/
def map (t : Tree) : Map := fun name => (t.find cmp (segments name)).map (·.value)

theorem map_empty : map (.node 0 [] none .nil .nil .nil) = fun _ => none := by
  funext name
  rw [map]
  cases segments name <;> rfl

/-! ### Links -/

theorem node_cell (h : Holds m t) (hn : Node m x n) : ∃ y ∈ t.cells, y.i = x := by
  induction hn with
  | root =>
    obtain ⟨c, rfl⟩ := h.root
    exact ⟨_, .head _, rfl⟩
  | @link x n k hn hk h0 ih =>
    obtain ⟨y, hy, rfl⟩ := ih
    have hside : ∃ d : Ternary.Side, m.data (y.i + k) = (y.side d).getD 0 := by
      obtain ⟨-, -, hl, hr, hu, -⟩ := (h.node hy).1
      simp only [mem_cons, not_mem_nil, or_false] at hk
      rcases hk with rfl | rfl | rfl
      · exact ⟨.left, hl⟩
      · exact ⟨.right, hr⟩
      · exact ⟨.under, hu⟩
    obtain ⟨d, hd⟩ := hside
    rw [hd] at h0 ⊢
    cases hz : y.side d with
    | none => rw [hz] at h0; exact absurd rfl h0
    | some z =>
      obtain ⟨y', hy', rfl⟩ := mem_map.1 (side_mem hy hz)
      exact ⟨y', hy', rfl⟩

/-- A step down the tree. -/
theorem node_link (h : Holds m t) (hy : y ∈ t.cells) (hn : Node m y.i n) (d : Ternary.Side) {e : Tree}
    (hd : y.side d = e.root) (he : e.cells ⊆ t.under.cells) (hx : e.root = some x) :
    Node m x (n + 1) := by
  obtain ⟨y', hy', rfl, -⟩ := cell_of_root hx
  have hpos := h.far.1 y' (he hy')
  rw [hx] at hd
  obtain ⟨-, -, hl, hr, hu, -⟩ := (h.node hy).1
  cases d with
  | left =>
    rw [show y.left = some y'.i from hd, getD_some] at hl
    exact hl ▸ hn.link (k := 8) (by simp) (by omega)
  | right =>
    rw [show y.right = some y'.i from hd, getD_some] at hr
    exact hr ▸ hn.link (k := 12) (by simp) (by omega)
  | under =>
    rw [show y.under = some y'.i from hd, getD_some] at hu
    exact hu ▸ hn.link (k := 16) (by simp) (by omega)

/-- A tree has a node as deep as it is. -/
theorem node_deep (h : Holds m t) (hu : u.root = some x) (hn : Node m x n) (hut : u.cells ⊆ t.cells)
    (hs : u.cells.tail ⊆ t.under.cells) : ∃ x', Node m x' (n + u.depth - 1) := by
  induction u generalizing x n with
  | nil => cases hu
  | node i a v l c r ihl ihc ihr =>
    cases hu
    have hcell := hut (.head _)
    have key : ∀ (e : Tree) (d : Ternary.Side),
        (⟨i, a, v, l.root, c.root, r.root⟩ : Cell).side d = e.root → e.cells ⊆ t.under.cells →
        (∀ {x n}, e.root = some x → Node m x n → e.cells ⊆ t.cells →
          e.cells.tail ⊆ t.under.cells → ∃ x', Node m x' (n + e.depth - 1)) →
        1 ≤ e.depth → ∃ x', Node m x' (n + e.depth) := by
      intro e d hd he ih hpos
      cases hx : e.root with
      | none => rw [root_eq_none.1 hx] at hpos; cases hpos
      | some z =>
        obtain ⟨x', hx'⟩ := ih hx (h.node_link hcell hn d hd he hx)
          (fun y hy => cells_under_subset (he hy)) fun y hy => he (mem_of_mem_tail hy)
        exact ⟨x', by rwa [Nat.add_right_comm] at hx'⟩
    have hl : l.cells ⊆ t.under.cells := fun y hy => hs (by simp [cells, hy])
    have hc : c.cells ⊆ t.under.cells := fun y hy => hs (by simp [cells, hy])
    have hr : r.cells ⊆ t.under.cells := fun y hy => hs (by simp [cells, hy])
    rw [depth, Nat.add_sub_assoc (by omega)]
    -- the deepest of the three sides
    rcases Nat.eq_zero_or_pos (max (max l.depth c.depth) r.depth) with h0 | hpos
    · exact ⟨i, by rw [h0]; exact hn⟩
    rcases Nat.le_total (max l.depth c.depth) r.depth with hm | hm
    · rw [Nat.max_eq_right hm] at hpos ⊢
      exact key r .right rfl hr ihr hpos
    rw [Nat.max_eq_left hm] at hpos ⊢
    rcases Nat.le_total l.depth c.depth with hm' | hm'
    · rw [Nat.max_eq_right hm'] at hpos ⊢
      exact key c .under rfl hc ihc hpos
    · rw [Nat.max_eq_left hm'] at hpos ⊢
      exact key l .left rfl hl ihl hpos

theorem depth_of_nodes (h : Holds m t) (hd : ∀ x n, Node m x n → n ≤ 4096) : t.depth ≤ 4097 := by
  have hs : t.cells.tail ⊆ t.under.cells := by
    obtain ⟨c, rfl⟩ := h.root
    simp [cells, under]
  obtain ⟨x', hx'⟩ := h.node_deep h.walk_nil.2 .root (List.Subset.refl _) hs
  have := hd _ _ hx'
  omega

/-! ### The area -/

variable (h : Holds m t)

include h

theorem written_run (hy : y ∈ t.cells) (hi : y.v = some i) :
    written i.off m = .ok (reading i) m := by
  rw [written, run_ok (h.infoName_run hy hi), run_ok (h.infoValue_run hy hi),
    run_ok (h.infoSerial_run hy hi)]
  rfl

theorem writtenAll_run {is : List Info} (hi : ∀ i ∈ is, i ∈ t.values) :
    writtenAll (is.map (·.off)) m = .ok (is.map reading) m := by
  induction is with
  | nil => rfl
  | cons i is ih =>
    obtain ⟨hi, his⟩ := forall_mem_cons.1 hi
    obtain ⟨y, hy, hyv⟩ := mem_values.1 hi
    rw [map_cons, writtenAll, run_ok (h.written_run hy hyv), run_ok (ih his)]
    rfl

/-- A property is found under its own name. -/
theorem find_of_cell (hy : y ∈ t.cells) (hi : y.v = some i) :
    ∃ u, t.walk cmp (segments i.name) = some u ∧ u.root = some y.i ∧ u.value = some i := by
  obtain ⟨p, u, hp, hu⟩ := h.reached y.i (mem_map_of_mem hy)
  obtain ⟨z, hz, hzi, -, hzv⟩ := cell_of_root hu
  obtain rfl := eq_of_label h.nodup (walk_cells hp hz) hy hzi
  rw [hi] at hzv
  have hname := h.named p i (by rw [Ternary.find, hp]; exact hzv.symm)
  exact ⟨u, by rw [hname, hp], hu, hzv.symm⟩

theorem names_nodup : (t.values.map (·.name)).Nodup := by
  refine ((values_perm.map _).nodup_iff).2 (pairwise_map.2 ?_)
  refine pairwise_filterMap.2 ((pairwise_map.1 h.nodup).imp_of_mem ?_)
  intro y z hy hz hne i hi j hj hname
  obtain ⟨u, hu, hux, -⟩ := h.find_of_cell hy hi
  obtain ⟨w, hw, hwx, -⟩ := h.find_of_cell hz hj
  rw [hname, hw] at hu
  cases hu
  exact hne (Option.some.inj (hux.symm.trans hwx))

variable {name : Bytes}

theorem mem_names : name ∈ t.values.map (·.name) ↔ map t name ≠ none := by
  rw [map, Ne, map_eq_none_iff, ← Ne, ne_none_iff_exists']
  constructor
  · intro hn
    obtain ⟨i, hi, rfl⟩ := mem_map.1 hn
    obtain ⟨y, hy, hyv⟩ := mem_values.1 hi
    obtain ⟨u, hu, -, huv⟩ := h.find_of_cell hy hyv
    exact ⟨i, by rw [Ternary.find, hu]; exact huv⟩
  · rintro ⟨i, hi⟩
    obtain ⟨y, hy, hyv⟩ := cell_of_find hi
    exact mem_map.2 ⟨i, mem_values.2 ⟨y, hy, hyv⟩, Bytes.split_inj (h.named _ _ hi)⟩

theorem inside_info (hy : y ∈ t.cells) (hi : y.v = some i) : Inside m i.off := by
  obtain ⟨hat, hpl⟩ := h.laid.holds _ (mem_info hy hi)
  refine ⟨i.name, i.value, h.infoName_run hy hi, h.infoValue_run hy hi, hpl.used, fun hf hro => ?_⟩
  rw [hat.1] at hf
  cases hk : i.long with
  | none => exact absurd (((h.infos y hy i hi).short hk).2.2.2 hro) hf
  | some k =>
    have hlt := ((h.infos y hy i hi).long k hk).2.2
    have htext := (h.laid.holds _ (mem_text hy hi hk)).2.used
    have hrel := hat.2.2
    rw [hk] at hrel
    change k + (i.value.length + 1) ≤ m.bytesUsed at htext
    omega

/-- The area of a tree is the map that the tree holds. -/
theorem represents : Represents m (map t) where
  absent name hn := h.findProperty_none (map_eq_none_iff.1 hn)
  present name value hv := by
    obtain ⟨i, hi, rfl⟩ := map_eq_some_iff.1 hv
    obtain ⟨y, hy, hyv⟩ := cell_of_find hi
    exact ⟨i.off, h.findProperty_some hi, h.infoValue_run hy hyv⟩
  lists := by
    refine ⟨_, t.values.map (·.name), h.foreach_run, h.names_nodup, fun name => h.mem_names, ?_⟩
    rw [forall₂_map_left_iff, forall₂_map_right_iff, forall₂_same]
    intro i hi
    obtain ⟨y, hy, hyv⟩ := mem_values.1 hi
    obtain ⟨u, hu, -, huv⟩ := h.find_of_cell hy hyv
    exact ⟨h.infoName_run hy hyv, h.findProperty_some (by rw [Ternary.find, hu]; exact huv)⟩
  inside x n hn := by
    obtain ⟨y, hy, rfl⟩ := h.node_cell hn
    obtain ⟨⟨hlen, hprop, -⟩, hpl⟩ := h.node hy
    rw [hlen, hprop]
    refine ⟨hpl.used, fun h0 => ?_⟩
    cases hv : y.v with
    | none => rw [hv] at h0; exact absurd rfl h0
    | some i => exact h.inside_info hy hv
  used := h.laid.used.2.1
  accepted := by
    have hlen := h.laid.len.1
    obtain ⟨hmagic, hversion⟩ := h.laid.header
    have hsz := sizes
    simp only [Reader.accepts, hmagic, hversion, BEq.rfl, Bool.and_true, decide_eq_true_eq]
    omega
  readerFind := h.reader_find
  readerGet name := by
    rw [h.get_run]
    cases hi : t.find cmp (segments name) with
    | none => exact (run_err (h.findProperty_none hi)).symm
    | some i =>
      obtain ⟨y, hy, hyv⟩ := cell_of_find hi
      have hfind : find name m = .ok i.off m := h.findProperty_some hi
      rw [run_ok hfind, h.written_run hy hyv]
  readerForeach hd := by
    rw [h.reader_foreach_run (h.depth_of_nodes hd), run_ok h.foreach_run,
      h.writtenAll_run fun _ => id]

omit h

/-! ### Calls -/

theorem map_eq {t' : Tree}
    (hf : ∀ q, t'.find cmp q = if q = segments name then some i else t.find cmp q) :
    map t' = Function.update (map t) name (some i.value) := by
  funext q
  rw [map, hf, Function.update_apply]
  by_cases hq : q = name
  · rw [if_pos hq, if_pos (by rw [hq])]
    rfl
  · rw [if_neg hq, if_neg fun hs : segments q = segments name => hq (Bytes.split_inj hs)]
    rfl

theorem map_congr {t' : Tree} (hf : ∀ q, t'.find cmp q = t.find cmp q) : map t' = map t := by
  funext q
  rw [map, hf, map]

/-- A call does what the law says. -/
theorem run_law (h : Holds m t) {c : Call} (hc : c.Fit) :
    ∃ m' t', c.run m = .ok (law m.dataSize c (map t, space m t)).1 m' ∧ Holds m' t' ∧
      m'.dataSize = m.dataSize ∧ (map t', space m' t') = (law m.dataSize c (map t, space m t)).2 := by
  cases c with
  | add name value =>
    cases hi : t.find cmp (segments name) with
    | some i =>
      refine ⟨m, t, ?_, h, rfl, ?_⟩ <;> rw [law, if_pos (by rw [map, hi]; nofun)]
      exact h.add_some hi
    | none =>
      have hnone : ¬ map t name ≠ none := by rw [map, hi]; exact not_not_intro rfl
      obtain ⟨m', t', h', hd, hspace, ⟨i, -, rfl, hrun, hf, hfits⟩ | ⟨hrun, hf, hfull⟩⟩ :=
        h.add_none hc hi
      · change (space m t).used + _ ≤ _ at hfits
        refine ⟨m', t', ?_, h', hd, ?_⟩ <;> rw [law, if_neg hnone, if_pos hfits]
        · exact hrun
        · rw [map_eq hf, hspace]
      · change _ < (space m t).used + _ at hfull
        refine ⟨m', t', ?_, h', hd, ?_⟩ <;>
          rw [law, if_neg hnone, if_neg (Nat.not_le_of_lt hfull)]
        · exact hrun
        · rw [map_congr hf, hspace]
  | update name value =>
    obtain ⟨hfit, hro⟩ := hc
    cases hi : t.find cmp (segments name) with
    | none =>
      have hnone : ¬ map t name ≠ none := by rw [map, hi]; exact not_not_intro rfl
      refine ⟨m, t, ?_, h, rfl, ?_⟩ <;> rw [law, if_neg hnone]
      have hfind : find name m = .err () m := h.findProperty_none hi
      have hrun : ((update name value).attempt : Access _) m = .ok (.error ()) m := by
        rw [Prog.attempt, update, run_err hfind]
      rw [Call.run, run_ok hrun]
      rfl
    | some i =>
      obtain ⟨m', t', hupd, h', hd, hspace, hf⟩ := h.update_run hi hro hfit.nulFree
        (hfit.short.resolve_right hro)
      refine ⟨m', t', ?_, h', hd, ?_⟩ <;> rw [law, if_pos (by rw [map, hi]; nofun)]
      · have hfind : find name m = .ok i.off m := h.findProperty_some hi
        have hrun : ((update name value).attempt : Access _) m =
            .ok (.ok (nextSerial i.serial value)) m' := by
          rw [Prog.attempt, update, run_ok hfind, hupd]
        rw [Call.run, run_ok hrun]
        rfl
      · rw [map_eq hf, hspace]
        rfl

theorem runs_laws (h : Holds m t) {cs : List Call} (hc : ∀ c ∈ cs, c.Fit) :
    ∃ m' t', runs cs m = .ok (laws m.dataSize cs (map t, space m t)).1 m' ∧ Holds m' t' ∧
      (map t', space m' t') = (laws m.dataSize cs (map t, space m t)).2 := by
  induction cs generalizing m t with
  | nil => exact ⟨m, t, rfl, h, rfl⟩
  | cons c cs ih =>
    obtain ⟨hc, hcs⟩ := forall_mem_cons.1 hc
    obtain ⟨m₁, t₁, hrun, h₁, hd, hlaw⟩ := h.run_law hc
    obtain ⟨m', t', hruns, h', hlaws⟩ := ih h₁ hcs
    rw [hlaw, hd] at hruns hlaws
    refine ⟨m', t', ?_, h', hlaws⟩
    rw [runs, run_ok hrun, run_ok hruns]
    rfl

end Holds

theorem create_laws {len : ℕ} {m₀ : Memory} {calls : List Call} (hc : create len = some m₀)
    (hl : len < 2 ^ 32 + PROP_AREA_HEADER_SIZE) (hf : ∀ c ∈ calls, c.Fit) :
    ∃ m t, runs calls m₀ = .ok (laws (len - PROP_AREA_HEADER_SIZE) calls fresh).1 m ∧ Holds m t ∧
      (Holds.map t, Holds.space m t) = (laws (len - PROP_AREA_HEADER_SIZE) calls fresh).2 := by
  obtain ⟨hlen, -, hused, -⟩ := create_spec hc
  have hstart : (Holds.map (.node 0 [] none .nil .nil .nil),
      Holds.space m₀ (.node 0 [] none .nil .nil .nil)) = fresh := by
    have hpaths : (fun p => (walk cmp (.node 0 [] none .nil .nil .nil : Tree) p).isSome) =
        List.isEmpty := by
      funext p
      cases p <;> rfl
    rw [Holds.map_empty, Holds.space, hpaths, hused]
    rfl
  obtain ⟨m, t, hrun, h, hlaws⟩ := (create_holds hc hl).runs_laws hf
  rw [hstart, Memory.dataSize, hlen] at hrun hlaws
  exact ⟨m, t, hrun, h, hlaws⟩

/-- **The area is a finite map.**  The calls on a new area run without a fault, and each does what
the law says: an add of a new property is refused only if what it needs does not fit in the data.
The area is then the map that the calls make. -/
theorem area_is_map {len : ℕ} {m₀ : Memory} {calls : List Call} (hc : create len = some m₀)
    (hl : len < 2 ^ 32 + PROP_AREA_HEADER_SIZE) (hf : ∀ c ∈ calls, c.Fit) :
    ∃ m, runs calls m₀ = .ok (laws (len - PROP_AREA_HEADER_SIZE) calls fresh).1 m ∧
      m.bytesUsed = (laws (len - PROP_AREA_HEADER_SIZE) calls fresh).2.2.used ∧
      Represents m (laws (len - PROP_AREA_HEADER_SIZE) calls fresh).2.1 := by
  obtain ⟨m, t, hrun, h, hlaws⟩ := create_laws hc hl hf
  refine ⟨m, hrun, ?_, ?_⟩
  · rw [← hlaws]
    rfl
  · rw [← hlaws]
    exact h.represents

/-- Of two properties the second finds space for its node and none for its record. -/
theorem area_is_map_of_two : ∃ m₀ m S, create 512 = some m₀ ∧
    runs [.add (.ofAscii "sys.a") (.ofAscii "1"), .update (.ofAscii "sys.a") (.ofAscii "2"),
      .add (.ofAscii "sys.b") (.ofAscii "3"), .add (.ofAscii "sys.a") (.ofAscii "4")] m₀ =
        .ok [true, true, false, true] m ∧
      m.bytesUsed = 288 ∧ Represents m S ∧ S (.ofAscii "sys.a") = some (.ofAscii "2") ∧
      S (.ofAscii "sys.b") = none := by
  obtain ⟨m, hrun, hused, hrep⟩ := @area_is_map 512 _
    [.add (.ofAscii "sys.a") (.ofAscii "1"), .update (.ofAscii "sys.a") (.ofAscii "2"),
      .add (.ofAscii "sys.b") (.ofAscii "3"), .add (.ofAscii "sys.a") (.ofAscii "4")]
    rfl (by decide) (by
      simp only [forall_mem_cons, Call.Fit, IsRo]
      exact ⟨⟨by decide, by decide +kernel, .inl (by decide)⟩,
        ⟨⟨by decide, by decide +kernel, .inl (by decide)⟩, by decide⟩,
        ⟨by decide, by decide +kernel, .inl (by decide)⟩,
        ⟨by decide, by decide +kernel, .inl (by decide)⟩, nofun⟩)
  refine ⟨_, m, _, rfl, hrun.trans ?_, hused.trans (by decide +kernel), hrep, by decide +kernel,
    by decide +kernel⟩
  exact congrArg (Outcome.ok · m) (by decide +kernel)

/-! ### Wider areas

Offsets are kept in 32 bits.  In an area with more data a node whose name ends 4 GiB further is
followed by a record in the same place. -/

section Wide

variable {name value : Bytes} {m₀ : Memory} {off s : ℕ}

/-- The node of the first name is at 112, and the next free byte is where its name ends, in 32
bits. -/
theorem first_node (hal : align4 (TRIE_NODE_SIZE + name.length + 1) = s) (hlen : name.length < 2 ^ 32)
    (hs : 112 + s ≤ m₀.dataSize) (hused : m₀.bytesUsed = 112) (hdata : ∀ k, m₀.data k = 0) :
    ∃ m, (newTrieNode name >>= fun node => setWord 16 node >>= fun _ => Pure.pure node) m₀ =
        .ok 112 m ∧
      m.dataSize = m₀.dataSize ∧ m.bytesUsed = (112 + s) % 2 ^ 32 ∧ m.data 16 = 112 ∧
      m.data 112 = name.length ∧
      (∀ k, 20 ≤ k → k + 4 ≤ 112 ∨ (116 ≤ k ∧ k + 4 ≤ 132) → m.data k = 0) ∧
      m.read (PROP_AREA_HEADER_SIZE + (112 + TRIE_NODE_SIZE)) name.length = name := by
  have hsz := sizes
  rw [run_ok (newTrieNode_run hused (by decide) (hal ▸ hs)), hal,
    run_ok (setWord_ok (by decide) (by simp only [dataSize_store, dataSize_writeString]; omega))]
  refine ⟨_, rfl, rfl, ?_, word_store.trans (by decide), ?_, fun k hk hk' => ?_, ?_⟩
  · simp (disch := omega) only [bytesUsed, word_store_ne, word_writeString_ne, word_store]
  · simp (disch := omega) only [data, word_store_ne, word_writeString_ne, word_store,
      Nat.mod_eq_of_lt]
  · simp (disch := omega) only [data, word_store_ne, word_writeString_ne]
    exact hdata k
  · rw [read_store_ne (.inr (by omega)), read_string read_writeString]

/-- The first property added to an area gets the node at 112, and then its record. -/
theorem findProperty_first (hal : align4 (TRIE_NODE_SIZE + name.length + 1) = s)
    (hlen : name.length < 2 ^ 32) (hs : 112 + s ≤ m₀.dataSize) (hused : m₀.bytesUsed = 112)
    (hdata : ∀ k, m₀.data k = 0) (hseg : segments name = [name]) (hne : name ≠ []) :
    ∃ m, findProperty name value true m₀ =
        (newPropInfo name value >>= fun info => setWord 116 info >>= fun _ => Pure.pure info) m ∧
      m.dataSize = m₀.dataSize ∧ m.bytesUsed = (112 + s) % 2 ^ 32 ∧ m.data 16 = 112 ∧
      m.data 112 = name.length ∧
      ∀ k, 20 ≤ k → k + 4 ≤ 112 ∨ (116 ≤ k ∧ k + 4 ≤ 132) → m.data k = 0 := by
  have hsz := sizes
  obtain ⟨m, hnode, hd, hu, h16, h112, hzero, hname⟩ := first_node hal hlen hs hused hdata
  have hstart : 132 + name.length ≤ m₀.dataSize := by
    unfold align4 at hal
    omega
  refine ⟨m, ?_, hd, hu, h16, h112, hzero⟩
  have hnm : nodeName 112 m = .ok name m := by
    rw [nodeName, run_ok (word_ok (by decide) (by omega)), h112, readBytes_ok (by omega), hname]
  have hfind : findTrieNode m₀.dataSize 112 name true m = .ok 112 m := by
    obtain ⟨fuel, hfuel⟩ : ∃ fuel, m₀.dataSize = fuel + 1 := ⟨m₀.dataSize - 1, by omega⟩
    rw [hfuel, findTrieNode, run_ok hnm, if_pos (cmpPropName_self name)]
    rfl
  have hpath : findNode m₀.dataSize true 0 [name] m₀ =
      ((newTrieNode name >>= fun node => setWord 16 node >>= fun _ => Pure.pure node) >>= fun z =>
        findTrieNode m₀.dataSize z name true >>= fun y => Pure.pure y) m₀ := by
    rw [findNode, if_neg hne, run_ok (word_ok (by decide) (by omega)), hdata]
    simp only [Prog.bind_assoc]
    rfl
  rw [run_ok hnode, run_ok hfind] at hpath
  rw [findProperty, run_ok get_ok, hseg, run_ok hpath, run_ok (word_ok (by decide) (by omega)),
    hzero 116 (by decide) (by decide)]
  rfl

/-- The record is made over the node: the length of the node's name is gone. -/
theorem overrun_record {m₁ : Memory} (hlen : name.length = 2 ^ 32 - 21) (hused : m₁.bytesUsed = 112)
    (hsize : m₁.dataSize = 2 ^ 32 + 384) (h16 : m₁.data 16 = 112) (h124 : m₁.data 124 = 0) :
    ∃ m, (newPropInfo name [] >>= fun info => setWord 116 info >>= fun _ => Pure.pure info) m₁ =
        .ok 112 m ∧ m.dataSize = 2 ^ 32 + 384 ∧ m.data 16 = 112 ∧ m.data 112 = 0 ∧ m.data 124 = 0 := by
  have hsz := sizes
  have hal : align4 (PROP_INFO_SIZE + name.length + 1) = 2 ^ 32 + 76 := by unfold align4; omega
  rw [run_ok (newPropInfo_run hused (by decide) (by decide) (by omega)), run_ok
    (setWord_ok (by decide) (by simp only [dataSize_store, dataSize_writeString]; omega))]
  refine ⟨_, rfl, hsize, ?_, ?_, ?_⟩
  · exact h16
  · simp (disch := omega) only [data, word_store_ne, word_writeString_ne]
    exact word_store.trans (Nat.zero_mod _)
  · exact h124

theorem add_overrun (hlen : name.length = 2 ^ 32 - 21) (hseg : segments name = [name])
    (hc : create (2 ^ 32 + 512) = some m₀) :
    ∃ m, add name [] m₀ = .ok true m ∧ find name m = .err () m := by
  have hsz := sizes
  obtain ⟨hml, -, hused, -, -, hzero⟩ := create_spec hc
  have hsize : m₀.dataSize = 2 ^ 32 + 384 := by rw [Memory.dataSize]; omega
  have hdata : ∀ k, m₀.data k = 0 := fun k => word_of_zero fun a ha => hzero a (by omega)
  have hne : name ≠ [] := fun h => by rw [h] at hlen; cases hlen
  have hal : align4 (TRIE_NODE_SIZE + name.length + 1) = 2 ^ 32 := by unfold align4; omega
  obtain ⟨m₁, hfirst, hd₁, hu₁, h16, -, hrest⟩ :=
    findProperty_first hal (by omega) (by omega) hused hdata hseg hne
  obtain ⟨m₂, hrec, hd₂, h16', h112', h124'⟩ :=
    overrun_record hlen (hu₁.trans (by decide)) (hd₁.trans hsize) h16
      (hrest 124 (by decide) (by decide))
  refine ⟨m₂, Holds.add_of_ok (hfirst.trans hrec), ?_⟩
  have hnm : nodeName 112 m₂ = .ok [] m₂ := by
    rw [nodeName, run_ok (word_ok (by decide) (by omega)), h112', readBytes_ok (by omega)]
    rfl
  have hlong : cmpPropName name [] = 1 := by
    rw [cmpPropName, if_neg (by simp), if_pos (by simp only [length_nil]; omega)]
  have hfind : findTrieNode (2 ^ 32 + 384) 112 name false m₂ = .err () m₂ := by
    rw [findTrieNode, run_ok hnm, hlong,
      if_neg (by decide), if_neg (by decide), run_ok (word_ok (by decide) (by omega)), h124']
    rfl
  rw [find, findProperty, run_ok get_ok, hd₂, hseg, findNode, if_neg hne]
  refine run_err ?_
  rw [run_ok (word_ok (by decide) (by omega)), h16', if_pos (by decide),
    run_ok (validOffset_ok (by omega))]
  exact run_err hfind

theorem split_replicate {b : UInt8} (hb : b ≠ 46) (n : ℕ) :
    segments (List.replicate n b) = [List.replicate n b] := by
  induction n with
  | zero => rfl
  | succ n ih =>
    obtain ⟨s, ss, hs, hs'⟩ := Bytes.split_cons_ne (List.replicate n b) hb
    rw [segments] at ih
    rw [ih] at hs
    cases hs
    rw [segments, replicate_succ, hs']

theorem legal_replicate (n : ℕ) : isLegalPropertyName (List.replicate (n + 1) 97) = true := by
  have hafter : ∀ n prev, legalAfter prev (List.replicate n 97) = true := by
    intro n
    induction n with
    | zero => exact fun _ => rfl
    | succ n ih => exact fun prev => by rw [replicate_succ, legalAfter, ih]; rfl
  have hlast : (List.replicate (n + 1) (97 : UInt8)).getLast? ≠ some 46 := by
    rw [getLast?_replicate]
    simp
  rw [replicate_succ, isLegalPropertyName, ← replicate_succ, hafter]
  simpa using hlast

/-- In an area with more than 4 GiB of data a property is added and not found. -/
theorem wide_area_loses_property : ∃ len m₀ name m, create len = some m₀ ∧
    (Call.add name []).Fit ∧ runs [.add name []] m₀ = .ok [true] m ∧ find name m = .err () m ∧
      ∀ S, S name ≠ none → ¬ Represents m S := by
  obtain ⟨m₀, hc⟩ : ∃ m₀, create (2 ^ 32 + 512) = some m₀ :=
    ⟨_, by rw [create, if_pos (by decide)]⟩
  generalize hname : List.replicate (2 ^ 32 - 22 + 1) (97 : UInt8) = name
  have hlen : name.length = 2 ^ 32 - 21 := by
    rw [← hname, length_replicate]
    omega
  have hseg : segments name = [name] := by rw [← hname]; exact split_replicate (by decide) _
  obtain ⟨m, hadd, hfind⟩ := add_overrun hlen hseg hc
  refine ⟨_, m₀, name, m, hc, ⟨hname ▸ legal_replicate _, nofun, .inl (by decide)⟩, ?_, hfind,
    fun S hS hrep => ?_⟩
  · rw [runs, Call.run, run_ok hadd]
    rfl
  · obtain ⟨value, hvalue⟩ := ne_none_iff_exists'.1 hS
    obtain ⟨info, hok, -⟩ := hrep.present name value hvalue
    cases hok.symm.trans hfind

end Wide

end Aim.Props
