import Aim.Props.Reader
import Aim.Props.Records

/-!
# Props — Listing and reading

What `foreach` and the reader give over the memory of an area that holds a tree.

* `foreach` lists the records of the tree, left siblings first, then the property of a node, its
  children and its right siblings.
* The reader finds what the writer finds, and reads of a record its name, its value and its serial.
* The reader's listing is the writer's, unless the tree is deeper than it walks.
-/

namespace Aim.Props

open Memory Ternary Reader
open Prog (run_ok run_err get_ok)

namespace Holds

variable {m m' : Memory} {t u w : Tree} {y : Cell} {i : Info} {x fuel : ℕ} {name : Bytes}

/-! ### Walks over the tree -/

section Walk

variable {α : Type}

/-- What a walk gives at the target of a link. -/
def target (next : ℕ → Access (List α)) (offset : ℕ) : Access (List α) := do
  let m ← Prog.get
  if offset ≠ 0 ∧ offset ≤ m.dataSize then next offset else return []

variable {next : ℕ → Access (List α)}

theorem target_tree (h : Holds m t) {e : Tree} {out : List α}
    (he : e.cells ⊆ t.under.cells) (hnext : ∀ x, e.root = some x → next x m = .ok out m)
    (hnil : e = .nil → out = []) : target next (e.root.getD 0) m = .ok out m := by
  rw [target, run_ok get_ok]
  cases hr : e.root with
  | none =>
    rw [hnil (root_eq_none.1 hr)]
    rfl
  | some x =>
    obtain ⟨y, hy, rfl, -⟩ := cell_of_root hr
    have hpos := h.far.1 y (he hy)
    have hin := (h.inside (cells_under_subset (he hy))).2
    rw [Option.getD_some, if_pos ⟨by omega, by omega⟩]
    exact hnext _ hr

theorem target_value (h : Holds m t) (hy : y ∈ t.cells)
    {g : Info → α} (hnext : ∀ i, y.v = some i → next i.off m = .ok [g i] m) :
    target next ((y.v.map (·.off)).getD 0) m = .ok (y.v.toList.map g) m := by
  rw [target, run_ok get_ok]
  cases hv : y.v with
  | none => rfl
  | some i =>
    have hpos := h.far.2 y hy i hv
    have hin := (h.placed_info hy hv).2
    rw [Option.map_some, Option.getD_some, if_pos ⟨by omega, by omega⟩]
    exact hnext i hv

variable {f : ℕ → ℕ → Access (List α)} {prop : ℕ → Access (List α)} {g : Info → α}

/-- The walk visits a node as it should: left siblings, the property, children, right siblings. -/
def Visits (m : Memory) (f : ℕ → ℕ → Access (List α)) (prop : ℕ → Access (List α)) (y : Cell) : Prop :=
  ∀ {fuel : ℕ} {ls ps cs rs : List α}, target (f fuel) (y.left.getD 0) m = .ok ls m →
    target prop ((y.v.map (·.off)).getD 0) m = .ok ps m →
    target (f fuel) (y.under.getD 0) m = .ok cs m → target (f fuel) (y.right.getD 0) m = .ok rs m →
    f (fuel + 1) y.i m = .ok (ls ++ ps ++ cs ++ rs) m

/-- A node is visited with its two sides and its children, whose walks are known. -/
theorem visits_run (h : Holds m t) {a : Bytes} {v : Option Info} {l c r : Tree}
    (hy : (⟨x, a, v, l.root, c.root, r.root⟩ : Cell) ∈ t.cells)
    (hs : ∀ e ∈ [l, c, r], e.cells ⊆ t.under.cells)
    (hprop : ∀ i, v = some i → prop i.off m = .ok [g i] m)
    (hv : Visits m f prop ⟨x, a, v, l.root, c.root, r.root⟩)
    (hd : ∀ e ∈ [l, c, r], ∀ z, e.root = some z → f fuel z m = .ok (e.values.map g) m) :
    f (fuel + 1) x m = .ok ((Ternary.node x a v l c r : Tree).values.map g) m := by
  have hside : ∀ e ∈ [l, c, r], target (f fuel) (e.root.getD 0) m = .ok (e.values.map g) m :=
    fun e he => h.target_tree (hs e he) (hd e he) fun hn => by rw [hn]; rfl
  simp only [values, List.map_append]
  exact hv (hside l (by simp)) (h.target_value hy hprop) (hside c (by simp)) (hside r (by simp))

/-- A walk that visits each node as it should lists the properties of the tree. -/
theorem walk_run (h : Holds m t) (hv : ∀ y ∈ t.cells, Visits m f prop y)
    (hprop : ∀ y ∈ t.cells, ∀ i, y.v = some i → prop i.off m = .ok [g i] m)
    (hd : t.depth ≤ fuel) : f fuel 0 m = .ok (t.values.map g) m := by
  have key : ∀ (u : Tree) (fuel x : ℕ), u.cells ⊆ t.under.cells → u.root = some x → u.depth ≤ fuel →
      f fuel x m = .ok (u.values.map g) m := by
    intro u
    induction u with
    | nil => exact fun _ _ _ hx => by cases hx
    | node i a v l c r ihl ihc ihr =>
      intro fuel x hu hx hd
      cases hx
      simp only [depth] at hd
      obtain ⟨fuel, rfl⟩ : ∃ k, fuel = k + 1 := ⟨fuel - 1, by omega⟩
      have hl : l.cells ⊆ t.under.cells := fun y hy => hu (by simp [cells, hy])
      have hc : c.cells ⊆ t.under.cells := fun y hy => hu (by simp [cells, hy])
      have hr : r.cells ⊆ t.under.cells := fun y hy => hu (by simp [Ternary.cells, hy])
      have hy := Ternary.cells_under_subset (hu (.head _))
      refine h.visits_run hy (by simp [hl, hc, hr]) (hprop _ hy) (hv _ hy) ?_
      simp only [List.forall_mem_cons]
      exact ⟨fun z hz => ihl fuel z hl hz (by omega), fun z hz => ihc fuel z hc hz (by omega),
        fun z hz => ihr fuel z hr hz (by omega), by simp⟩
  obtain ⟨c, rfl⟩ := h.root
  simp only [depth] at hd
  obtain ⟨fuel, rfl⟩ : ∃ k, fuel = k + 1 := ⟨fuel - 1, by omega⟩
  have hy : (⟨0, [], none, none, c.root, none⟩ : Cell) ∈
      (Ternary.node 0 [] none .nil c .nil : Tree).cells := List.mem_cons_self
  refine h.visits_run (l := .nil) (r := .nil) hy ?_ (by simp) (hv _ hy) ?_
  · simp [cells, under]
  · simp only [List.forall_mem_cons]
    exact ⟨fun _ h => (by cases h), fun z hz => key _ fuel z (by simp [under]) hz (by omega),
      fun _ h => (by cases h), by simp⟩

end Walk

/-! ### Listing -/

theorem follow_run {next : ℕ → Access (List ℕ)} {k v : ℕ} (hw : word k m = .ok v m) :
    follow next k m = target next v m := by
  rw [follow, run_ok hw]
  rfl

theorem foreachNode_visits (h : Holds m t) (hy : y ∈ t.cells) :
    Visits m foreachNode (fun prop => Pure.pure [prop]) y := by
  intro fuel ls ps cs rs hl hp hc hr
  obtain ⟨hwl, hwr, hwu⟩ := h.links_run hy
  rw [foreachNode, run_ok ((follow_run hwl).trans hl), run_ok ((follow_run (h.value_run hy)).trans hp),
    run_ok ((follow_run hwu).trans hc), run_ok ((follow_run hwr).trans hr)]
  rfl

/-- The records of the tree are listed. -/
theorem foreach_run (h : Holds m t) : foreach m = .ok (t.values.map (·.off)) m := by
  rw [foreach, run_ok get_ok]
  exact h.walk_run (fun _ => h.foreachNode_visits) (fun _ _ _ _ => rfl)
    (h.depth_le (List.Sublist.refl _))

end Holds

/-! ### The reader's search -/

namespace Reader

open Prog

theorem covers_u32At (k : ℕ) : Covers (word k) (u32At k) := by
  intro m
  unfold word u32At
  by_cases h : k % 4 = 0 ∧ k + 4 ≤ m.dataSize
  · rw [if_pos h, if_pos h.2]
    exact .inl rfl
  · rw [if_neg h]
    exact .inr ⟨_, _, rfl⟩

theorem covers_field (k : ℕ) : Covers (word k) (field k) := by
  intro m
  unfold word field
  by_cases h : k % 4 = 0 ∧ k + 4 ≤ m.dataSize
  · rw [if_pos h, if_pos h.2]
    exact .inl rfl
  · rw [if_neg h]
    exact .inr ⟨_, _, rfl⟩

theorem covers_slice (k n : ℕ) : Covers (readBytes k n) (slice k n) := by
  intro m
  unfold readBytes slice
  split_ifs
  · exact .inl rfl
  · exact .inr ⟨_, _, rfl⟩

theorem covers_nodeName (x : ℕ) : Covers (Props.nodeName x) (nodeName x) :=
  .bind (covers_u32At _) fun _ => covers_slice _ _

theorem covers_findSibling (fuel x : ℕ) (s : Bytes) :
    Covers (findTrieNode fuel x s false) (findSibling fuel x s) := by
  induction fuel generalizing x with
  | zero => exact .refl _
  | succ fuel ih =>
    refine .bind (covers_nodeName x) fun name => .ite (fun _ => .refl _) fun _ =>
      .bind (covers_u32At _) fun offset => ?_
    by_cases h : offset = 0
    · rw [if_neg (not_not.2 h), if_pos h]
      exact .refl _
    · rw [if_pos h, if_neg h]
      exact .bind (.refl _) fun next => ih next

/-- The reader's search, where the writer's returns, returns the same. -/
theorem covers_findNode (fuel x : ℕ) (p : List Bytes) :
    Covers (Props.findNode fuel false x p) (findNode fuel x p) := by
  induction p generalizing x with
  | nil => exact .refl _
  | cons s p ih =>
    refine .ite (fun _ => .refl _) fun _ => .bind (covers_u32At _) fun offset => ?_
    by_cases h : offset = 0
    · rw [if_neg (not_not.2 h), if_pos h]
      exact fun _ => .inl rfl
    · rw [if_pos h, if_neg h]
      exact .bind (.refl _) fun root => .bind (covers_findSibling _ _ _) fun y => ih y

/-- The reader finds what the writer finds. -/
theorem covers_find (name : Bytes) : Covers (Props.find name) (find name) := by
  refine .bind (.refl _) fun m => .bind (covers_findNode _ _ _) fun x =>
    .bind (covers_u32At _) fun prop => ?_
  by_cases h : prop = 0
  · rw [if_neg (not_not.2 h), if_pos h]
    exact .refl _
  · rw [if_pos h, if_neg h]
    exact .refl _

theorem of_covers {α : Type} {x x' : Access α} {m m' : Memory} (h : Covers x x') {a : α}
    (hx : x m = .ok a m') : x' m = .ok a m' := by
  rcases h m with he | ⟨f, s, hf⟩
  · rw [he, hx]
  · cases hx.symm.trans hf

end Reader

/-! ### The reader's listing -/

namespace Holds

open Reader (ReadProperty of_covers covers_u32At covers_slice)

variable {m m' : Memory} {t u w : Tree} {y : Cell} {i : Info} {x fuel : ℕ} {name : Bytes}

/-- The reader finds what the writer finds. -/
theorem reader_find (h : Holds m t) (name : Bytes) : Reader.find name m = find name m := by
  rcases Reader.covers_find name m with he | ⟨f, s, hf⟩
  · exact he
  · cases hi : t.find cmp (segments name) with
    | none => cases (h.findProperty_none hi).symm.trans hf
    | some i => cases (h.findProperty_some hi).symm.trans hf

/-- A property as the reader sees it. -/
def reading (i : Info) : ReadProperty := ⟨i.name, Utf8.lossy i.value, i.serial⟩

theorem cStr_eq {k : ℕ} (hk : k ≤ m.dataSize) :
    cStr k m = .ok (m.cString (PROP_AREA_HEADER_SIZE + k) m.len) m := by
  rw [cStr, Nat.min_eq_left hk]

/-- A record is read with its name, value and serial. -/
theorem read_run (h : Holds m t) (hy : y ∈ t.cells) (hi : y.v = some i) :
    Reader.read i.off m = .ok (reading i) m := by
  have hok := h.infos y hy i hi
  have hin := (h.placed_info hy hi).2
  have hname : cStr (i.off + PROP_INFO_SIZE) m = .ok i.name m := by
    rw [cStr_eq (by omega), h.name_eq hy hi]
  have hserial := of_covers (covers_u32At _) (h.infoSerial_run hy hi)
  rw [Reader.read, run_ok hname, h.lossy_name hy hi, run_ok hserial]
  cases hk : i.long with
  | some k =>
    obtain ⟨(hro : RO_PREFIX.isPrefixOf i.name = true), hflag, -⟩ := hok.long k hk
    obtain ⟨hword, hsum, hend, hstr⟩ := h.long_eq hy hi hk
    have hcstr : cStr (i.off + (k - i.off)) m = .ok i.value m := by
      rw [hsum, cStr_eq (by omega), hstr]
    rw [if_pos hro, if_pos hflag, run_ok (of_covers (covers_u32At _) hword), run_ok hcstr]
    rfl
  | none =>
    obtain ⟨hlt, hlen, heven, hflag⟩ := hok.short hk
    obtain ⟨hread, hend⟩ := h.short_eq hy hi hk
    by_cases hro : RO_PREFIX.isPrefixOf i.name = true
    · have hcstr : cStr (i.off + 4) m = .ok i.value m := by
        rw [cStr_eq (by omega), cString_eq hread hok.value (by rw [h.laid.len_eq]; omega)]
      rw [if_pos hro, if_neg (not_not.2 (hflag hro)), run_ok hcstr]
      rfl
    have hslice : slice (i.off + 4) (i.value.length + 1) m = .ok (i.value ++ [0]) m := by
      rw [← hread]
      exact if_pos (by omega)
    have hval : (i.value ++ [0]).takeWhile (· != 0) = i.value := by
      rw [List.takeWhile_append_of_pos (by simpa using hok.value)]
      simp
    rw [if_neg hro, if_neg (by omega), hlen, run_ok hslice, hval]
    rfl

/-- The reader reads what the writer has. -/
theorem get_run (h : Holds m t) (name : Bytes) :
    Reader.get name m = match t.find cmp (segments name) with
      | none => .err () m
      | some i => .ok (reading i) m := by
  cases hi : t.find cmp (segments name) with
  | none => exact run_err ((h.reader_find name).trans (h.findProperty_none hi))
  | some i =>
    obtain ⟨y, hy, hyv⟩ := cell_of_find hi
    rw [Reader.get, run_ok ((h.reader_find name).trans (h.findProperty_some hi))]
    exact h.read_run hy hyv

theorem reader_follow_run {next : ℕ → Access (List ReadProperty)} {k v : ℕ}
    (hw : word k m = .ok v m) : Reader.follow next k m = target next v m := by
  rw [Reader.follow, run_ok (of_covers (Reader.covers_field k) hw)]
  rfl

theorem walk_visits (h : Holds m t) (hy : y ∈ t.cells) :
    Visits m Reader.walk Reader.walk.readAll y := by
  intro fuel ls ps cs rs hl hp hc hr
  obtain ⟨hwl, hwr, hwu⟩ := h.links_run hy
  rw [Reader.walk, run_ok ((reader_follow_run hwl).trans hl),
    run_ok ((reader_follow_run (h.value_run hy)).trans hp),
    run_ok ((reader_follow_run hwu).trans hc), run_ok ((reader_follow_run hwr).trans hr)]
  rfl

/-- The reader lists what the writer has, in a tree that is not too deep. -/
theorem reader_foreach_run (h : Holds m t) (hd : t.depth ≤ 4097) :
    Reader.foreach m = .ok (t.values.map reading) m := by
  refine h.walk_run (fun _ => h.walk_visits) (fun y hy i hi => ?_) hd
  have ha : ((read i.off).attempt : Access _) m = .ok (.ok (reading i)) m := by
    rw [Prog.attempt, h.read_run hy hi]
  rw [walk.readAll, run_ok ha]
  rfl

end Holds

end Aim.Props
