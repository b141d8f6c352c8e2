import Aim.Props.Legal
import Aim.Props.Map

/-!
# Props — Adding and updating properties

What `add` and `update_value` do to the tree an area holds.

* An add of a property that there is changes nothing; one of a new property gives the tree one more,
  or leaves the tree with the same properties when there is no space.
* An update gives a property another value.
* `info_value` of a record is its value.
-/

namespace Aim.Props

open Memory Ternary List Option
open Prog (run_ok run_err get_ok)

/-- What an add may take: a legal name, a value with no zero byte, and a short one unless the name
is read-only. -/
structure Fit (name value : Bytes) : Prop where
  legal : isLegalPropertyName name = true
  nulFree : ∀ c ∈ value, c ≠ 0
  short : value.length < PROP_VALUE_MAX ∨ IsRo name

theorem and_long_flag (n : ℕ) : n &&& LONG_FLAG = 0 ↔ n / 2 ^ 16 % 2 = 0 := by
  rw [show LONG_FLAG = 2 ^ 16 from rfl, Nat.and_two_pow, Nat.testBit_eq_decide_div_mod_eq]
  by_cases h : n / 2 ^ 16 % 2 = 1 <;> simp

/-- The serial that an update publishes: the length of the value, and the counter two further. -/
def nextSerial (serial : ℕ) (value : Bytes) : ℕ :=
  (value.length * 2 ^ 24) % 2 ^ 32 ||| ((serial ||| 1) + 1) % 2 ^ 24

/-- The record after an update. -/
def Info.updated (i : Info) (value : Bytes) : Info :=
  { i with value := value, serial := nextSerial i.serial value }

namespace Holds

variable {m m' : Memory} {t u w : Tree} {y : Cell} {i : Info} {name value : Bytes}

/-! ### Adding -/

/-- Making a record: where there is no space for all of it some may be lost, else the memory has one
more. -/
theorem newPropInfo_run (h : Holds m t) (hf : Fit name value) :
    ∃ m', Laid.Grown m m' ∧
      m'.bytesUsed = ((space m t).make m.dataSize (Space.record name value)).used ∧
      ((∃ i, newPropInfo name value m = .ok (Info.off i) m' ∧ i.name = name ∧
        i.value = value ∧ i.Ok ∧ Laid m' (i.objects ++ objects t) ∧
        m.bytesUsed + total (Space.record name value) ≤ m.dataSize) ∨
      newPropInfo name value m = .err () m' ∧
        m.dataSize < m.bytesUsed + total (Space.record name value)) := by
  have hu := h.laid.used
  have hsz := sizes
  have hal := le_align4 (PROP_INFO_SIZE + name.length + 1)
  have hmod := align4_mod (PROP_INFO_SIZE + name.length + 1)
  have hused : ∀ o ∈ objects t, o.start + o.size ≤ m.bytesUsed := fun o ho =>
    (h.laid.holds o ho).2.used
  have hmake : (space m t).make m.dataSize (Space.record name value) =
      if m.bytesUsed + align4 (PROP_INFO_SIZE + name.length + 1) ≤ m.dataSize then
        Space.make m.dataSize
          (if PROP_VALUE_MAX ≤ value.length then [(align4 (value.length + 1), none)] else [])
          ((space m t).took (align4 (PROP_INFO_SIZE + name.length + 1), none))
      else space m t := rfl
  have htook : ((space m t).took (align4 (PROP_INFO_SIZE + name.length + 1), none)).used =
      m.bytesUsed + align4 (PROP_INFO_SIZE + name.length + 1) := rfl
  have htotal : total (Space.record name value) = align4 (PROP_INFO_SIZE + name.length + 1) +
      if PROP_VALUE_MAX ≤ value.length then align4 (value.length + 1) else 0 := by
    rw [Space.record, total]
    split_ifs <;> simp
  by_cases hsp : m.bytesUsed + align4 (PROP_INFO_SIZE + name.length + 1) ≤ m.dataSize
  case neg =>
    refine ⟨m, Laid.Grown.refl h.laid, ?_, .inr ⟨newPropInfo_err (by omega), by omega⟩⟩
    rw [hmake, if_neg hsp]
    rfl
  rw [if_pos hsp] at hmake
  by_cases hv : value.length < PROP_VALUE_MAX
  · rw [if_neg (by omega)] at hmake htotal
    obtain ⟨m', hrun, hg, hat, hb⟩ := newPropInfo_short h.laid hv hsp
    refine ⟨m', hg, ?_, .inl ⟨⟨m.bytesUsed, name, value, value.length * 2 ^ 24, none⟩, hrun, rfl, rfl,
      ?_, ?_, by omega⟩⟩
    · rw [hmake, hb]
      rfl
    · refine ⟨ascii_of_legal hf.legal, hf.nulFree, fun _ => ⟨hv, ?_, ?_, fun _ => ?_⟩,
        by intro _ ht; cases ht⟩
      · exact Nat.mul_div_cancel _ (by decide)
      · change value.length * 2 ^ 24 % 2 = 0
        omega
      · rw [and_long_flag]
        change value.length * 2 ^ 24 / 2 ^ 16 % 2 = 0
        omega
    · refine (h.laid.grow hg).cons hat ⟨hu.2.2, ?_, .inr hu.1, fun _ => hv⟩ fun o ho =>
        .inr (hused o ho)
      change m.bytesUsed + (PROP_INFO_SIZE + name.length + 1) ≤ m'.bytesUsed
      omega
  · have hro := hf.short.resolve_left hv
    rw [if_pos (Nat.le_of_not_lt hv)] at hmake htotal
    by_cases hsp' : m.bytesUsed + align4 (PROP_INFO_SIZE + name.length + 1) +
        align4 (value.length + 1) ≤ m.dataSize
    case neg =>
      obtain ⟨m', herr, hg, hb⟩ := newPropInfo_long_err h.laid (Nat.le_of_not_lt hv) hsp (by omega)
      refine ⟨m', hg, ?_, .inr ⟨herr, by omega⟩⟩
      rw [hmake, Space.make_cons_of_lt (by rw [htook]; exact Nat.lt_of_not_le hsp'), hb]
      rfl
    obtain ⟨m', hrun, hg, hat, htext, hb⟩ := newPropInfo_long h.laid (Nat.le_of_not_lt hv) hsp'
    have hal' := le_align4 (value.length + 1)
    refine ⟨m', hg, ?_, .inl ⟨⟨m.bytesUsed, name, value, longSerial,
      some (m.bytesUsed + align4 (PROP_INFO_SIZE + name.length + 1))⟩, hrun, rfl, rfl, ?_, ?_,
      by omega⟩⟩
    · rw [hmake, Space.make_cons (by rw [htook]; exact hsp'), hb]
      rfl
    · refine ⟨ascii_of_legal hf.legal, hf.nulFree, (by intro ht; cases ht),
        fun t ht => ⟨hro, ?_, ?_⟩⟩
      · change longSerial &&& LONG_FLAG ≠ 0
        decide
      · cases ht
        change m.bytesUsed < m.bytesUsed + _
        omega
    · have hend : m.bytesUsed + align4 (PROP_INFO_SIZE + name.length + 1) + (value.length + 1) ≤
          m'.bytesUsed := by omega
      have hlaid := (h.laid.grow hg).cons htext
        ⟨by change (_ + _) % 4 = 0; omega, hend,
          .inr (by change _ ≤ _ + _; omega), trivial⟩
        fun o ho => .inr (Nat.le_trans (hused o ho) (by change _ ≤ _ + _; omega))
      refine hlaid.cons hat ⟨hu.2.2, ?_, .inr hu.1, by intro ht; cases ht⟩
        fun o ho => ?_
      · change m.bytesUsed + (PROP_INFO_SIZE + name.length + 1) ≤ m'.bytesUsed
        omega
      rcases mem_cons.1 ho with rfl | ho
      · left
        change m.bytesUsed + (PROP_INFO_SIZE + name.length + 1) ≤ m.bytesUsed + _
        omega
      · exact .inr (hused o ho)

variable {p : List Bytes} {x : ℕ}

/-- The node at the end of a path is not the root. -/
theorem root_far (h : Holds m t) (hp : t.walk cmp p = some u)
    (hne : p ≠ []) (hx : u.root = some x) : 112 ≤ x := by
  obtain ⟨s, p, rfl⟩ := exists_cons_of_ne_nil hne
  obtain ⟨z, hz, hu⟩ := bind_eq_some_iff.1 hp
  obtain ⟨y, hy, rfl, -⟩ := cell_of_root hx
  exact h.far.1 y (seek_cells hz (walk_cells hu hy))

/-- A property is put at the end of its path. -/
theorem set (h : Holds m t) (hp : t.walk cmp p = some u) (hne : p ≠ [])
    (hx : u.root = some x) (hi : i.Ok) (hn : segments i.name = p)
    (hl : Laid m' (objects (Ternary.set x i t))) : Holds m' (Ternary.set x i t) := by
  have hfar := h.root_far hp hne hx
  have hfrom : ∀ z ∈ (Ternary.set x i t).cells, ∃ z₀ ∈ t.cells, z.i = z₀.i ∧ z.a = z₀.a ∧
      (z.v = z₀.v ∨ z.v = some i) := by
    intro z hz
    rw [cells_set] at hz
    obtain ⟨z₀, hz₀, rfl⟩ := mem_map.1 hz
    refine ⟨z₀, hz₀, ?_⟩
    split
    · exact ⟨rfl, rfl, .inr rfl⟩
    · exact ⟨rfl, rfl, .inl rfl⟩
  refine ⟨hl, ?_, ?_, ?_, ?_, h.reached.set, ?_⟩
  · obtain ⟨c, rfl⟩ := h.root
    exact ⟨Ternary.set x i c, by rw [Ternary.set, if_neg (by omega)]; rfl⟩
  · intro z hz
    obtain ⟨z₀, hz₀, -, ha, -⟩ := hfrom z hz
    rw [ha]
    exact h.keys z₀ hz₀
  · intro z hz h0
    obtain ⟨z₀, hz₀, hi₀, ha, -⟩ := hfrom z hz
    rw [ha]
    exact h.keyed z₀ hz₀ (hi₀ ▸ h0)
  · intro z hz j hj
    obtain ⟨z₀, hz₀, -, -, hv | hv⟩ := hfrom z hz
    · exact h.infos z₀ hz₀ j (hv ▸ hj)
    · cases hv.symm.trans hj
      exact hi
  · intro q j hj
    rw [find_set h.nodup h.sharp hp hx] at hj
    split_ifs at hj with hq
    · cases hj
      rw [hn, hq]
    · exact h.named q j hj

/-- A record that was made is linked to its node. -/
theorem put_run (h : Holds m t) (hp : t.walk cmp p = some u) (hne : p ≠ [])
    (hx : u.root = some x) (hv : u.value = none) (hi : i.Ok) (hn : segments i.name = p)
    (hg : Laid.Grown m m') (hl : Laid m' (i.objects ++ objects t)) :
    ∃ m'', setWord (x + 4) i.off m' = .ok () m'' ∧ m''.dataSize = m.dataSize ∧
      Holds m'' (Ternary.set x i t) ∧ m''.bytesUsed = m'.bytesUsed := by
  have hsz := sizes
  have hdata : m'.dataSize = m.dataSize := by rw [Memory.dataSize, hg.len]; rfl
  obtain ⟨y, hy, hyx, -, hyv⟩ := cell_of_root hx
  subst hyx
  have hyt := walk_cells hp hy
  obtain ⟨hal, hin⟩ := h.inside hyt
  have hio := hl.holds (.info i) (mem_append_left _ (.head _))
  have hused := hio.2.used
  have hlu := hl.used
  have hld := hl.dataSize_lt
  change i.off + (Obj.info i).size ≤ m'.bytesUsed at hused
  obtain ⟨ys, hys, hmap⟩ := cells_perm h.nodup hyt
  refine ⟨_, setWord_ok (by omega) (by omega), hdata, h.set hp hne hx hi hn ?_,
    bytesUsed_store_ne (by omega)⟩
  have hold : Laid m' (.node y :: (i.objects ++ ys.flatMap cellObjects)) := by
    refine hl.perm (((objects_perm hys).append_left _).trans ?_)
    rw [cellObjects, hyv, hv]
    exact perm_middle
  have hnew : Laid (m'.store (PROP_AREA_HEADER_SIZE + (y.i + 4)) i.off)
      (.node { y with v := some i } :: _) := hold.poke rfl
    (fun a ha _ => byte_store_ne (by
      simp only [Obj.start, Obj.size] at ha
      omega))
    (at_setValue (by omega) (hold.holds _ (.head _)).1) rfl rfl trivial
  refine hnew.perm (.symm ?_)
  rw [objects, cells_set]
  exact (hmap fun z => { z with v := some i }).flatMap_right _

theorem add_of_ok (h : findProperty name value true m = .ok x m') :
    add name value m = .ok true m' := by
  have ha : ((findProperty name value true).attempt : Access _) m = .ok (.ok x) m' := by
    rw [Prog.attempt, h]
  rw [add, run_ok ha]
  rfl

theorem add_of_err (h : findProperty name value true m = .err () m') :
    add name value m = .ok false m' := by
  have ha : ((findProperty name value true).attempt : Access _) m = .ok (.error ()) m' := by
    rw [Prog.attempt, h]
  rw [add, run_ok ha]
  rfl

/-- An add of a property that there is. -/
theorem add_some (h : Holds m t) (hi : t.find cmp (segments name) = some i) :
    add name value m = .ok true m := add_of_ok (h.findProperty_some hi)

/-- Neither the paths nor the space depend on the values. -/
theorem space_set {m' : Memory} (hu : m'.bytesUsed = m.bytesUsed) :
    space m' (Ternary.set x i t) = space m t := by
  simp only [space, walk_set, isSome_map, hu]

theorem space_eq {m' : Memory} {sp : Space} (hu : m'.bytesUsed = sp.used)
    (hp : sp.paths = (space m t).paths) : space m' t = sp := by
  rw [space, hu]
  exact congrArg (Space.mk · sp.used) hp.symm

/-- An add of a new property: where there is space for what it needs the tree has it, else the tree
has the same properties. -/
theorem add_none (h : Holds m t) (hf : Fit name value) (hi : t.find cmp (segments name) = none) :
    ∃ m' t', Holds m' t' ∧ m'.dataSize = m.dataSize ∧
      space m' t' = (space m t).make m.dataSize ((space m t).pieces name value) ∧
      ((∃ i : Info, i.name = name ∧ i.value = value ∧ add name value m = .ok true m' ∧
        (∀ q, t'.find cmp q = if q = segments name then some i else t.find cmp q) ∧
        m.bytesUsed + total ((space m t).pieces name value) ≤ m.dataSize) ∨
      (add name value m = .ok false m' ∧ (∀ q, t'.find cmp q = t.find cmp q) ∧
        m.dataSize < m.bytesUsed + total ((space m t).pieces name value))) := by
  obtain ⟨hp, hx⟩ := h.walk_nil
  obtain ⟨m₁, t₁, h₁, hd₁, hf₁, hmade, hrun⟩ := h.findNode_alloc hp hx
    (segments_of_legal hf.legal) (Nat.le_refl _)
  have htotal := total_append ((space m t).nodes [] (segments name)) (Space.record name value)
  rcases hrun with ⟨u, x, hrun, hu, hux, hroom⟩ | ⟨hrun, hroom⟩
  · rw [nil_append] at hu
    have hv : u.value = none := by
      have := hf₁ (segments name)
      rwa [hi, Ternary.find, hu] at this
    obtain ⟨y, hy, rfl, -, hyv⟩ := cell_of_root hux
    have hword := h₁.value_run (walk_cells hu hy)
    rw [hyv, hv, map_none] at hword
    have hfind : findProperty name value true m = (newPropInfo name value >>= fun info =>
        setWord (y.i + 4) info >>= fun _ => Pure.pure info) m₁ := by
      rw [findProperty, run_ok get_ok, run_ok hrun, run_ok hword]
      rfl
    have hused : m₁.bytesUsed = m.bytesUsed + total ((space m t).nodes [] (segments name)) :=
      (congrArg Space.used hmade).trans (Space.used_make hroom)
    -- the record takes data and makes no path
    have hall : (space m t).make m.dataSize ((space m t).pieces name value) =
        (space m₁ t₁).make m.dataSize (Space.record name value) := by
      rw [Space.pieces, Space.make_append hroom, hmade]
    have hpaths : ((space m₁ t₁).make m.dataSize (Space.record name value)).paths =
        (space m₁ t₁).paths := by
      funext q
      refine Space.paths_make fun o ho => ?_
      rw [Space.record_none ho]
      exact (Option.some_ne_none q).symm
    obtain ⟨m₂, hg, hb, ⟨i, hnew, hin, hiv, hok, hl, hroom'⟩ | ⟨hnew, hroom'⟩⟩ :=
      h₁.newPropInfo_run hf
    all_goals rw [hd₁] at hb
    · obtain ⟨m', hset, hd', h', hused'⟩ := h₁.put_run hu (Bytes.split_ne_nil _ _) hux hv hok
        (by rw [hin]) hg hl
      refine ⟨m', _, h', hd'.trans hd₁, ?_, .inl ⟨i, hin, hiv, ?_, fun q => ?_, ?_⟩⟩
      · rw [hall, space_set hused', space_eq hb hpaths]
      · rw [run_ok hnew, run_ok hset] at hfind
        exact add_of_ok hfind
      · rw [find_set h₁.nodup h₁.sharp hu hux, hf₁ q]
      · rw [Space.pieces, htotal]
        omega
    · rw [run_err hnew] at hfind
      refine ⟨m₂, t₁, h₁.grow hg, ?_, ?_, .inr ⟨add_of_err hfind, hf₁, ?_⟩⟩
      · rw [← hd₁, Memory.dataSize, hg.len]
        rfl
      · rw [hall, space_eq hb hpaths]
      · rw [Space.pieces, htotal]
        omega
  · refine ⟨m₁, t₁, h₁, hd₁, ?_, .inr ⟨add_of_err ?_, hf₁, ?_⟩⟩
    · rw [Space.pieces, Space.make_append_of_lt hroom, hmade]
    · rw [findProperty, run_ok get_ok, run_err hrun]
    · rw [Space.pieces, htotal]
      omega

/-! ### Records -/

theorem cell_of_find (hi : t.find cmp p = some i) : ∃ y ∈ t.cells, y.v = some i := by
  obtain ⟨u, hu, hv⟩ := bind_eq_some_iff.1 hi
  cases u with
  | nil => cases hv
  | node => exact ⟨_, walk_cells hu (.head _), hv⟩

section Record

variable (h : Holds m t) (hy : y ∈ t.cells) (hi : y.v = some i)
include h hy hi

theorem infoSerial_run : infoSerial i.off m = .ok i.serial m := by
  have hsz := sizes
  obtain ⟨hal, hin⟩ := h.placed_info hy hi
  rw [infoSerial, word_ok hal (by omega), (h.laid.holds _ (mem_info hy hi)).1.1]

/-- The name of a record as a string in memory. -/
theorem name_eq : m.cString (PROP_AREA_HEADER_SIZE + (i.off + PROP_INFO_SIZE)) m.len = i.name := by
  have hin := (h.placed_info hy hi).2
  refine cString_eq (h.laid.holds _ (mem_info hy hi)).1.2.1
    (fun c hc => ((h.infos y hy i hi).name c hc).1) ?_
  rw [h.laid.len_eq]
  omega

theorem lossy_name : Utf8.lossy i.name = i.name :=
  Utf8.lossy_of_valid (Utf8.valid_of_ascii fun c hc => ((h.infos y hy i hi).name c hc).2)

theorem infoName_run : infoName i.off m = .ok i.name m := by
  have hname : cStringAt (i.off + PROP_INFO_SIZE) m = .ok i.name m :=
    congrArg (Outcome.ok · m) (h.name_eq hy hi)
  rw [infoName, run_ok hname, h.lossy_name hy hi]
  rfl

/-- A long value: the word that leads to it, and the string there. -/
theorem long_eq {k : ℕ} (hk : i.long = some k) :
    word (i.off + LONG_OFFSET_FIELD) m = .ok (k - i.off) m ∧
      i.off + (k - i.off) = k ∧ k + i.value.length + 1 ≤ m.dataSize ∧
      m.cString (PROP_AREA_HEADER_SIZE + k) m.len = i.value := by
  have hsz := sizes
  obtain ⟨hal, hin⟩ := h.placed_info hy hi
  have hok := h.infos y hy i hi
  obtain ⟨-, -, hlt⟩ := hok.long k hk
  obtain ⟨hat, hpl⟩ := h.laid.holds _ (mem_text hy hi hk)
  have hrel := (h.laid.holds _ (mem_info hy hi)).1.2.2
  rw [hk] at hrel
  have hend : k + (i.value.length + 1) ≤ m.dataSize := Nat.le_trans hpl.used h.laid.used.2.1
  refine ⟨?_, by omega, by omega, cString_eq hat hok.value ?_⟩
  · rw [word_ok (by omega) (by omega)]
    exact congrArg (Outcome.ok · m) hrel
  · rw [h.laid.len_eq]
    omega

/-- A short value as bytes in memory. -/
theorem short_eq (hk : i.long = none) :
    m.read (PROP_AREA_HEADER_SIZE + (i.off + 4)) (i.value.length + 1) = i.value ++ [0] ∧
      i.off + 4 + i.value.length + 1 ≤ m.dataSize := by
  have hsz := sizes
  have hin := (h.placed_info hy hi).2
  have hat := (h.laid.holds _ (mem_info hy hi)).1.2.2
  have hlt := ((h.infos y hy i hi).short hk).1
  rw [hk] at hat
  exact ⟨hat, by omega⟩

theorem infoValue_run : infoValue i.off m = .ok i.value m := by
  have hok := h.infos y hy i hi
  rw [infoValue, run_ok (h.infoSerial_run hy hi), run_ok (h.infoName_run hy hi)]
  cases hk : i.long with
  | some k =>
    obtain ⟨hro, hflag, -⟩ := hok.long k hk
    obtain ⟨hword, hsum, hend, hstr⟩ := h.long_eq hy hi hk
    rw [if_pos ⟨hflag, hro⟩, run_ok hword, hsum]
    exact congrArg (Outcome.ok · m) hstr
  | none =>
    obtain ⟨hlt, hlen, -, hflag⟩ := hok.short hk
    obtain ⟨hread, hend⟩ := h.short_eq hy hi hk
    rw [if_neg fun hc => hc.1 (hflag hc.2), hlen, readBytes_ok (by omega)]
    exact congrArg (Outcome.ok · m) (read_string hread)

end Record

/-! ### Updating -/

variable {serial : ℕ}

theorem or_one (hs : serial % 2 = 0) : serial ||| 1 = serial + 1 := by
  have := Nat.two_pow_add_eq_or_of_lt (i := 1) (b := 1) (by decide) (serial / 2)
  rw [show 2 ^ 1 * (serial / 2) = serial by omega] at this
  exact this.symm

theorem nextSerial_ok (hs : serial % 2 = 0) (hv : value.length < PROP_VALUE_MAX) :
    nextSerial serial value / 2 ^ 24 = value.length ∧ nextSerial serial value % 2 = 0 ∧
      nextSerial serial value < 2 ^ 32 := by
  have hsz := sizes
  have hodd := or_one hs
  have hor := Nat.two_pow_add_eq_or_of_lt (i := 24) (b := (serial + 1 + 1) % 2 ^ 24)
    (Nat.mod_lt _ (by decide)) value.length
  have heq : nextSerial serial value = 2 ^ 24 * value.length + (serial + 1 + 1) % 2 ^ 24 := by
    rw [hor, nextSerial, hodd, Nat.mod_eq_of_lt (by omega), Nat.mul_comm]
  omega

/-- The memory after an update: the record has the new value, and nothing but it and the dirty
backup area changed. -/
theorem updateValue_run (hat : (Obj.info i).At m) (hlong : i.long = none) (hal : i.off % 4 = 0)
    (hfar : 112 ≤ i.off) (hin : i.off + (PROP_INFO_SIZE + i.name.length + 1) ≤ m.dataSize)
    (hlt : i.value.length < PROP_VALUE_MAX) (hlen : i.serial / 2 ^ 24 = i.value.length)
    (hs : nextSerial i.serial value < 2 ^ 32) (hv : ∀ c ∈ value, c ≠ 0)
    (hl : value.length < PROP_VALUE_MAX) :
    ∃ m', updateValue i.off value m = .ok (nextSerial i.serial value) m' ∧ m'.len = m.len ∧
      (Obj.info (i.updated value)).At m' ∧
      ∀ a, (a < PROP_AREA_HEADER_SIZE + i.off ∨
          PROP_AREA_HEADER_SIZE + (i.off + (Obj.info i).size) ≤ a) →
        (a < PROP_AREA_HEADER_SIZE + DIRTY_BACKUP_AREA ∨
          PROP_AREA_HEADER_SIZE + (DIRTY_BACKUP_AREA + PROP_VALUE_MAX) ≤ a) →
        m'.byte a = m.byte a := by
  have hsz := sizes
  have hcopied : value.takeWhile (· != 0) = value :=
    takeWhile_eq_self_iff.2 (by simpa using hv)
  have hserial : infoSerial i.off m = .ok i.serial m := by
    rw [infoSerial, word_ok hal (by omega), hat.1]
  unfold updateValue
  rw [run_ok hserial, hlen, run_ok (readBytes_ok (by omega)),
    run_ok (writeBytes_ok (by rw [length_read]; omega)),
    run_ok (setWord_ok hal (by rw [dataSize_write]; omega)), hcopied,
    writeString_ok (by simp only [dataSize_write, dataSize_store]; omega),
    run_ok (setWord_ok hal (by
      simp only [dataSize_write, dataSize_writeString, dataSize_store]; omega))]
  have hold := @length_read m (PROP_AREA_HEADER_SIZE + (i.off + 4)) (i.value.length + 1)
  generalize m.read (PROP_AREA_HEADER_SIZE + (i.off + 4)) (i.value.length + 1) = old at *
  refine ⟨_, rfl, rfl, ?_, fun a ha hd => ?_⟩
  · simp only [Obj.At, Info.updated, hlong]
    refine ⟨word_store.trans (Nat.mod_eq_of_lt hs), ?_, ?_⟩
    · simp (disch := omega) only [read_store_ne, read_writeString_ne, read_write_ne]
      exact hat.2.1
    · rw [read_store_ne (.inr (by omega)), read_writeString]
  · simp only [Obj.size] at ha
    simp (disch := omega) only [byte_store_ne, byte_writeString_ne, byte_write_ne]

/-- An update of a property that is not read-only. -/
theorem update_run (h : Holds m t) (hi : t.find cmp (segments name) = some i) (hro : ¬ IsRo name)
    (hv : ∀ c ∈ value, c ≠ 0) (hl : value.length < PROP_VALUE_MAX) :
    ∃ m' t', updateValue i.off value m = .ok (nextSerial i.serial value) m' ∧ Holds m' t' ∧
      m'.dataSize = m.dataSize ∧ space m' t' = space m t ∧ ∀ q, t'.find cmp q =
        if q = segments name then some (i.updated value) else t.find cmp q := by
  obtain ⟨u, hu, huv⟩ := bind_eq_some_iff.1 hi
  obtain ⟨x, hx⟩ := root_walk h.walk_nil.2 hu
  obtain ⟨y, hy, rfl, -, hyv⟩ := cell_of_root hx
  rw [huv] at hyv
  have hyt := walk_cells hu hy
  have hname : i.name = name := Bytes.split_inj (h.named _ _ hi)
  have hok := h.infos y hyt i hyv
  have hlong : i.long = none := by
    cases hk : i.long with
    | none => rfl
    | some k => exact absurd (hname ▸ (hok.long k hk).1) hro
  obtain ⟨hlt, hlen, heven, -⟩ := hok.short hlong
  obtain ⟨hal, hin⟩ := h.placed_info hyt hyv
  obtain ⟨hn1, hn2, hn3⟩ := nextSerial_ok heven hl
  obtain ⟨m', hrun, hmlen, hat, hsame⟩ := updateValue_run (h.laid.holds _ (mem_info hyt hyv)).1 hlong
    hal (h.far.2 y hyt i hyv) hin hlt hlen hn3 hv hl
  refine ⟨m', Ternary.set y.i (i.updated value) t, hrun,
    h.set hu (Bytes.split_ne_nil _ _) hx ?_ (h.named _ i hi) ?_, ?_, space_set ?_, fun q =>
      find_set h.nodup h.sharp hu hx q⟩
  · exact ⟨hok.name, hv, fun _ => ⟨hl, hn1, hn2, fun hr => absurd (hname ▸ hr) hro⟩,
      fun k hk => absurd (hlong.symm.trans hk) nofun⟩
  · obtain ⟨ys, hys, hmap⟩ := cells_perm h.nodup hyt
    have hold : Laid m (.info i :: .node y :: ys.flatMap cellObjects) := by
      refine h.laid.perm ((objects_perm hys).trans ?_)
      simp only [cellObjects, hyv, map_some, getD_some, Info.objects, hlong,
        map_none, toList_none]
      exact .swap _ _ _
    have hpoke := (hold.poke hmlen hsame hat rfl rfl fun _ => hl).perm (.swap _ _ _)
    -- the words of the node are as before: the record is where it was
    have hnode : (Obj.node { y with v := some (i.updated value) }).At m' := by
      obtain ⟨h1, h2, hrest⟩ := (hpoke.holds _ (.head _)).1
      rw [hyv] at h2
      exact ⟨h1, h2, hrest⟩
    refine (hpoke.poke rfl (fun _ _ _ => rfl) hnode rfl rfl trivial).perm (.symm ?_)
    rw [objects, cells_set]
    refine ((hmap fun z => { z with v := some (i.updated value) }).flatMap_right _).trans (.of_eq ?_)
    simp [cellObjects, Info.objects, Info.updated, hlong]
  · rw [Memory.dataSize, hmlen]
    rfl
  · refine Agree.word fun a _ ha => hsame a ?_ ?_
    · have := sizes
      omega
    · have := sizes
      omega

end Holds

end Aim.Props
