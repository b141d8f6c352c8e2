import Aim.Support.Stores
import Aim.Props.Finite

/-!
# Props — Readers of a property under update

`update_value` stores byte by byte while other processes read.  It copies the old value to the dirty
backup area, marks the serial dirty, writes the new value and publishes the new serial; a reader
takes the value from the record, or from the backup area while the serial is dirty.

* `updateStores`: the stores of an update in their order; `updateValue_stores`: made one after the
  other they are the update.
* `property_never_torn`: after any number of them the reader finds the old value, and the new one
  exactly after the last; the other properties read as before.
* `wide_area_torn`: in an area with more than 4 GiB of data a record may stand in the backup area,
  and a reader finds neither.
-/

namespace Aim.Props

open Memory List Reader
open Prog (run_ok run_err get_ok)

/-! ### The stores of an update -/

/-- The stores of `update_value`, in the order of the program. -/
def updateStores (m : Memory) (info : ℕ) (value : Bytes) : List Put :=
  let serial := m.data info
  let old := m.read (PROP_AREA_HEADER_SIZE + (info + 4)) (serial / 2 ^ 24 + 1)
  let copied := value.takeWhile (· != 0)
  bytesAt (PROP_AREA_HEADER_SIZE + DIRTY_BACKUP_AREA) old ++
    (.word (PROP_AREA_HEADER_SIZE + info) (serial ||| 1) ::
      (bytesAt (PROP_AREA_HEADER_SIZE + (info + 4)) copied ++
        [.byte (PROP_AREA_HEADER_SIZE + (info + 4 + copied.length)) 0,
          .word (PROP_AREA_HEADER_SIZE + info)
            ((value.length * 2 ^ 24) % 2 ^ 32 ||| ((serial ||| 1) + 1) % 2 ^ 24)]))

/-- The memory after the first `k` stores of an update. -/
def partway (m : Memory) (info : ℕ) (value : Bytes) (k : ℕ) : Memory :=
  m.puts ((updateStores m info value).take k)

section Inversion

variable {m m' : Memory} {off n v : ℕ} {bs : Bytes} {u : Unit}

theorem word_eq_ok (h : word off m = .ok v m') : v = m.data off ∧ m' = m := by
  unfold word at h
  split at h
  · cases h
    exact ⟨rfl, rfl⟩
  · cases h

theorem setWord_eq_ok (h : setWord off v m = .ok u m') :
    m' = m.store (PROP_AREA_HEADER_SIZE + off) v := by
  unfold setWord at h
  split at h
  · cases h
    rfl
  · cases h

theorem writeBytes_eq_ok (h : writeBytes off bs m = .ok u m') :
    m' = m.write (PROP_AREA_HEADER_SIZE + off) bs := by
  unfold writeBytes at h
  split at h
  · cases h
    rfl
  · cases h

theorem readBytes_eq_ok (h : readBytes off n m = .ok bs m') :
    bs = m.read (PROP_AREA_HEADER_SIZE + off) n ∧ m' = m := by
  unfold readBytes at h
  split at h
  · cases h
    exact ⟨rfl, rfl⟩
  · cases h

end Inversion

/-- The stores made one after the other are the update, where it does not fault. -/
theorem updateValue_stores {m m' : Memory} {info serial : ℕ} {value : Bytes}
    (h : updateValue info value m = .ok serial m') : m.puts (updateStores m info value) = m' := by
  obtain ⟨s, m₁, h₁, h⟩ := Prog.bind_eq_ok h
  obtain ⟨old, m₂, h₂, h⟩ := Prog.bind_eq_ok h
  obtain ⟨u₃, m₃, h₃, h⟩ := Prog.bind_eq_ok h
  obtain ⟨u₄, m₄, h₄, h⟩ := Prog.bind_eq_ok h
  obtain ⟨u₅, m₅, h₅, h⟩ := Prog.bind_eq_ok h
  obtain ⟨u₆, m₆, h₆, h⟩ := Prog.bind_eq_ok h
  obtain ⟨u₇, m₇, h₇, h⟩ := Prog.bind_eq_ok h
  cases h
  obtain ⟨rfl, rfl⟩ := word_eq_ok h₁
  obtain ⟨rfl, rfl⟩ := readBytes_eq_ok h₂
  rw [setWord_eq_ok h₇, writeBytes_eq_ok h₆, writeBytes_eq_ok h₅, setWord_eq_ok h₄,
    writeBytes_eq_ok h₃]
  unfold updateStores
  rw [puts_append, puts_bytesAt]
  change ((Memory.store _ _ _).puts (bytesAt _ _ ++ _)) = _
  rw [puts_append, puts_bytesAt]
  rfl

/-! ### What a reader finds -/

/-- The reader of a record that is not read-only: it takes the value from the record or from the
backup area, as the serial says. -/
theorem read_mutable {m : Memory} {off serial : ℕ} {name value : Bytes} (hfar : 112 ≤ off)
    (hin : off + (PROP_INFO_SIZE + name.length + 1) ≤ m.dataSize)
    (hlen : m.len = PROP_AREA_HEADER_SIZE + m.dataSize)
    (hname : m.read (PROP_AREA_HEADER_SIZE + (off + PROP_INFO_SIZE)) (name.length + 1) =
      name ++ [0])
    (hascii : ∀ c ∈ name, c ≠ 0 ∧ c < 0x80) (hro : ¬ RO_PREFIX.isPrefixOf name = true)
    (hserial : m.data off = serial) (hvlen : serial / 2 ^ 24 = value.length)
    (hlt : value.length < PROP_VALUE_MAX)
    (hvalue : m.read (PROP_AREA_HEADER_SIZE +
      (if serial % 2 = 1 then DIRTY_BACKUP_AREA else off + 4)) (value.length + 1) = value ++ [0])
    (hnul : ∀ c ∈ value, c ≠ 0) :
    Reader.read off m = .ok ⟨name, Utf8.lossy value, serial⟩ m := by
  have hsz := sizes
  have hcstr : cStr (off + PROP_INFO_SIZE) m = .ok name m := by
    rw [Holds.cStr_eq (by omega), cString_eq hname (fun c hc => (hascii c hc).1) (by omega)]
  have hlossy : Utf8.lossy name = name :=
    Utf8.lossy_of_valid (Utf8.valid_of_ascii fun c hc => (hascii c hc).2)
  have hu32 : u32At off m = .ok serial m := by
    rw [u32At, if_pos (by omega), hserial]
  have hslice : slice (if serial % 2 = 1 then DIRTY_BACKUP_AREA else off + 4)
      (value.length + 1) m = .ok (value ++ [0]) m := by
    rw [← hvalue]
    refine if_pos ?_
    split <;> omega
  have hval : (value ++ [0]).takeWhile (· != 0) = value := by
    rw [takeWhile_append_of_pos (by simpa using hnul)]
    simp
  rw [Reader.read, run_ok hcstr, hlossy, run_ok hu32, if_neg hro, hvlen, run_ok hslice, hval]
  rfl

namespace Holds

variable {m : Memory} {t : Tree} {y : Cell} {i : Info} {name value : Bytes} {k : ℕ}

section Partway

variable (h : Holds m t) (hy : y ∈ t.cells) (hi : y.v = some i) (hlong : i.long = none)
include h hy hi hlong

/-- The stores of an update of a record that stands in the area. -/
theorem updateStores_eq (hnul : ∀ c ∈ value, c ≠ 0) : updateStores m i.off value =
    bytesAt (PROP_AREA_HEADER_SIZE + DIRTY_BACKUP_AREA) (i.value ++ [0]) ++
      (.word (PROP_AREA_HEADER_SIZE + i.off) (i.serial + 1) ::
        (bytesAt (PROP_AREA_HEADER_SIZE + (i.off + 4)) value ++
          [.byte (PROP_AREA_HEADER_SIZE + (i.off + 4 + value.length)) 0,
            .word (PROP_AREA_HEADER_SIZE + i.off) (nextSerial i.serial value)])) := by
  obtain ⟨hvlt, hlen, heven, -⟩ := (h.infos y hy i hi).short hlong
  have hserial : m.data i.off = i.serial := (h.laid.holds _ (mem_info hy hi)).1.1
  have hold := (h.short_eq hy hi hlong).1
  have hcopied : value.takeWhile (· != 0) = value :=
    takeWhile_eq_self_iff.2 (by simpa using hnul)
  have hodd := or_one heven
  unfold updateStores nextSerial
  simp only [hserial, hlen, hold, hcopied, hodd]

variable {ps : List Put}

/-- Before the serial is marked, the record is as it was. -/
theorem read_backing_up (hro : ¬ IsRo i.name)
    (hps : ∀ p ∈ ps, p ∈ bytesAt (PROP_AREA_HEADER_SIZE + DIRTY_BACKUP_AREA) (i.value ++ [0])) :
    read i.off (m.puts ps) = .ok ⟨i.name, Utf8.lossy i.value, i.serial⟩ (m.puts ps) := by
  have hsz := sizes
  have hok := h.infos y hy i hi
  obtain ⟨hvlt, hlen, heven, -⟩ := hok.short hlong
  have hat := (h.laid.holds _ (mem_info hy hi)).1
  have hfar := h.far.2 y hy i hi
  have hin := (h.placed_info hy hi).2
  have hdata : (m.puts ps).dataSize = m.dataSize := by rw [dataSize, len_puts, dataSize]
  have hsame : Same m (m.puts ps) i.off (PROP_INFO_SIZE + i.name.length + 1) := by
    refine agree_puts fun p hp => .inr ?_
    have := (mem_bytesAt (hps p hp)).2
    rw [length_append, length_singleton] at this
    omega
  refine read_mutable hfar (by omega) (by rw [len_puts, h.laid.len_eq, hdata]) ?_ hok.name hro ?_
    hlen hvlt ?_ hok.value
  · rw [(hsame.mono (by omega) (by omega)).read]
    exact hat.2.1
  · rw [(hsame.mono (by omega) (by omega)).data]
    exact hat.1
  · rw [if_neg (by omega), (hsame.mono (by omega) (by omega)).read]
    exact (h.short_eq hy hi hlong).1

/-- While the serial is marked, the backup area has the old value. -/
theorem read_marked (hro : ¬ IsRo i.name)
    (hps : ∀ p ∈ ps, i.off + 4 + PROP_AREA_HEADER_SIZE ≤ p.start ∧
      p.start + p.size ≤ PROP_AREA_HEADER_SIZE + (i.off + PROP_INFO_SIZE)) :
    read i.off (((m.write (PROP_AREA_HEADER_SIZE + DIRTY_BACKUP_AREA) (i.value ++ [0])).store
        (PROP_AREA_HEADER_SIZE + i.off) (i.serial + 1)).puts ps) =
      .ok ⟨i.name, Utf8.lossy i.value, i.serial + 1⟩
        (((m.write (PROP_AREA_HEADER_SIZE + DIRTY_BACKUP_AREA) (i.value ++ [0])).store
          (PROP_AREA_HEADER_SIZE + i.off) (i.serial + 1)).puts ps) := by
  have hsz := sizes
  have hok := h.infos y hy i hi
  obtain ⟨hvlt, hlen, heven, -⟩ := hok.short hlong
  have hat := (h.laid.holds _ (mem_info hy hi)).1
  have hfar := h.far.2 y hy i hi
  have hin := (h.placed_info hy hi).2
  have hlt32 : i.serial < 2 ^ 32 := hat.1 ▸ data_lt
  have hold : (i.value ++ [0]).length = i.value.length + 1 := by simp
  generalize hw : m.write (PROP_AREA_HEADER_SIZE + DIRTY_BACKUP_AREA) (i.value ++ [0]) = w
  generalize hs : w.store (PROP_AREA_HEADER_SIZE + i.off) (i.serial + 1) = s
  have hslen : s.len = m.len := by rw [← hs, ← hw, len_store, len_write]
  have hdata : (s.puts ps).dataSize = m.dataSize := by rw [dataSize, len_puts, hslen, dataSize]
  refine read_mutable hfar (by omega) (by rw [len_puts, hslen, h.laid.len_eq, hdata]) ?_ hok.name
    hro ?_ (by omega) hvlt ?_ hok.value
  · rw [(agree_puts fun p hp => .inr (hps p hp).2).read, ← hs, read_store_ne (.inr (by omega)), ← hw,
      read_write_ne (.inr (by omega))]
    exact hat.2.1
  · have hsame : (s.puts ps).data i.off = s.data i.off :=
      Agree.word (agree_puts fun p hp => .inl (by have := (hps p hp).1; omega))
    rw [hsame, ← hs]
    exact word_store.trans (Nat.mod_eq_of_lt (by omega))
  · rw [if_pos (by omega), (agree_puts fun p hp => .inl (by have := (hps p hp).1; omega)).read, ← hs,
      read_store_ne (.inl (by omega)), ← hw, ← hold, read_write]

/-- Until the last store the reader finds the old value. -/
theorem read_partway (hro : ¬ IsRo i.name) (hnul : ∀ c ∈ value, c ≠ 0)
    (hlt : value.length < PROP_VALUE_MAX) (hk : k < (updateStores m i.off value).length) :
    ∃ serial, read i.off (partway m i.off value k) =
      .ok ⟨i.name, Utf8.lossy i.value, serial⟩ (partway m i.off value k) := by
  have hsz := sizes
  have heq := h.updateStores_eq hy hi hlong hnul
  rw [heq] at hk
  unfold partway
  rw [heq]
  generalize hA : bytesAt (PROP_AREA_HEADER_SIZE + DIRTY_BACKUP_AREA) (i.value ++ [0]) = A at *
  rcases Nat.lt_or_ge A.length k with hlate | hearly
  · -- past the mark: the stores since are in the value of the record
    obtain ⟨j, rfl⟩ : ∃ j, k = A.length + (j + 1) := ⟨k - A.length - 1, by omega⟩
    rw [take_length_add_append, take_succ_cons, puts_append, ← hA, puts_bytesAt]
    simp only [length_append, length_cons, length_bytesAt, length_nil] at hk
    refine ⟨_, h.read_marked hy hi hlong hro fun p hp => ?_⟩
    rw [append_cons, take_append_of_le_length (by
      rw [length_append, length_bytesAt, length_singleton]; omega)] at hp
    rcases mem_append.1 (mem_of_mem_take hp) with hp | hp
    · have := mem_bytesAt hp
      omega
    · cases mem_singleton.1 hp
      simp only [Put.start, Put.size]
      omega
  · rw [take_append_of_le_length hearly]
    exact ⟨_, h.read_backing_up hy hi hlong hro fun p hp => hA ▸ mem_of_mem_take hp⟩

end Partway

end Holds

/-- **No torn reads.**  While a property is updated, one store after the other, the reader finds the
old value until the last store is made and then the new one; every other property reads after the
update as before. -/
theorem property_never_torn {len info : ℕ} {m₀ m : Memory} {calls : List Call}
    {results : List Bool} {name old new : Bytes} (hc : create len = some m₀)
    (hl : len < 2 ^ 32 + PROP_AREA_HEADER_SIZE) (hf : ∀ c ∈ calls, c.Fit)
    (hrun : runs calls m₀ = .ok results m) (hfind : find name m = .ok info m) (hro : ¬ IsRo name)
    (hold : infoValue info m = .ok old m) (hnul : ∀ c ∈ new, c ≠ 0)
    (hlt : new.length < PROP_VALUE_MAX) :
    ∃ serial m', updateValue info new m = .ok serial m' ∧
      partway m info new (updateStores m info new).length = m' ∧
      (∀ k, ∃ p, Reader.read info (partway m info new k) = .ok p (partway m info new k) ∧
        p.name = name ∧
        p.value = Utf8.lossy (if k < (updateStores m info new).length then old else new)) ∧
      ∀ other, other ≠ name → ∀ p,
        Reader.get other m' = .ok p m' ↔ Reader.get other m = .ok p m := by
  obtain ⟨m₁, t, hrun', h, -⟩ := (create_holds hc hl).runs_laws hf
  cases hrun.symm.trans hrun'
  cases hi : t.find cmp (segments name) with
  | none => cases hfind.symm.trans (h.findProperty_none hi)
  | some i =>
    cases hfind.symm.trans (h.findProperty_some hi)
    obtain ⟨y, hy, hyv⟩ := Holds.cell_of_find hi
    cases hold.symm.trans (h.infoValue_run hy hyv)
    obtain rfl : i.name = name := Bytes.split_inj (h.named _ _ hi)
    have hlong : i.long = none := by
      cases hk : i.long with
      | none => rfl
      | some k => exact absurd ((h.infos y hy i hyv).long k hk).1 hro
    obtain ⟨m', t', hupd, h', -, -, hset⟩ := h.update_run hi hro hnul hlt
    have hi' : t'.find cmp (segments i.name) = some (i.updated new) := by rw [hset, if_pos rfl]
    obtain ⟨y', hy', hyv'⟩ := Holds.cell_of_find hi'
    have hall : ∀ k, (updateStores m i.off new).length ≤ k → partway m i.off new k = m' := by
      intro k hk
      rw [partway, take_of_length_le hk, updateValue_stores hupd]
    refine ⟨_, m', hupd, hall _ (Nat.le_refl _), fun k => ?_, fun other hne p => ?_⟩
    · split_ifs with hk
      · obtain ⟨serial, hread⟩ := h.read_partway hy hyv hlong hro hnul hlt hk
        exact ⟨_, hread, rfl, rfl⟩
      · rw [hall k (Nat.le_of_not_lt hk)]
        have hread : read i.off m' = .ok (Holds.reading (i.updated new)) m' :=
          h'.read_run hy' hyv'
        exact ⟨_, hread, rfl, rfl⟩
    · have hkeep : t'.find cmp (segments other) = t.find cmp (segments other) := by
        rw [hset, if_neg fun hs : segments other = segments i.name => hne (Bytes.split_inj hs)]
      rw [h.get_run, h'.get_run, hkeep]
      cases t.find cmp (segments other) with
      | none => exact ⟨nofun, nofun⟩
      | some j => exact ⟨fun hp => by cases hp; rfl, fun hp => by cases hp; rfl⟩

theorem property_never_torn_sys : ∃ m₀ results m info, create 512 = some m₀ ∧
    runs [.add (.ofAscii "sys.a") (.ofAscii "1")] m₀ = .ok results m ∧
    find (.ofAscii "sys.a") m = .ok info m ∧ infoValue info m = .ok (.ofAscii "1") m ∧
    ∃ serial m', updateValue info (.ofAscii "22") m = .ok serial m' ∧
      partway m info (.ofAscii "22") (updateStores m info (.ofAscii "22")).length = m' ∧
      (∀ k, ∃ p, Reader.read info (partway m info (.ofAscii "22") k) =
          .ok p (partway m info (.ofAscii "22") k) ∧ p.name = .ofAscii "sys.a" ∧
        p.value = Utf8.lossy (if k < (updateStores m info (.ofAscii "22")).length
          then .ofAscii "1" else .ofAscii "22")) ∧
      ∀ other, other ≠ .ofAscii "sys.a" → ∀ p,
        Reader.get other m' = .ok p m' ↔ Reader.get other m = .ok p m := by
  have hfit : ∀ c ∈ [Call.add (.ofAscii "sys.a") (.ofAscii "1")], c.Fit := by
    simp only [forall_mem_cons, Call.Fit]
    exact ⟨⟨by decide, by decide +kernel, .inl (by decide)⟩, by simp⟩
  obtain ⟨m₀, hc⟩ : ∃ m₀, create 512 = some m₀ := ⟨_, rfl⟩
  obtain ⟨m, t, hrun, h, hlaws⟩ := create_laws hc (by decide) hfit
  have hadded : Holds.map t (.ofAscii "sys.a") = some (.ofAscii "1") :=
    (congrFun (congrArg Prod.fst hlaws) _).trans (by decide +kernel)
  obtain ⟨info, hfind, hold⟩ := h.represents.present _ _ hadded
  exact ⟨m₀, _, m, info, hc, hrun, hfind, hold,
    property_never_torn hc (by decide) hfit hrun hfind (by simp only [IsRo]; decide) hold
      (by decide +kernel) (by decide)⟩

/-! ### Wider areas

The next free byte is kept in 32 bits.  In an area with more than 4 GiB of data it may come back to
the dirty backup area, and the next record is made there. -/

section Wide

variable {name : Bytes} {m₀ m₁ m : Memory}

/-- A wide area with the long name below its root. -/
structure Long (m : Memory) : Prop where
  size : m.dataSize = 2 ^ 32 + 384
  child : m.data 16 = 112
  name : m.data 112 = 2 ^ 31 - 105

/-- A property of a long name: the next free byte is in the backup area. -/
theorem add_long (hlen : name.length = 2 ^ 31 - 105) (hseg : segments name = [name])
    (hc : create (2 ^ 32 + 512) = some m₀) :
    ∃ m, add name [] m₀ = .ok true m ∧ Long m ∧ m.bytesUsed = 20 ∧ m.data 24 = 0 ∧
      m.data 120 = 0 := by
  have hsz := sizes
  obtain ⟨hml, -, hused, -, -, hzero⟩ := create_spec hc
  have hsize : m₀.dataSize = 2 ^ 32 + 384 := by rw [dataSize, hml]; omega
  have hdata : ∀ k, m₀.data k = 0 := fun k => word_of_zero fun a ha => hzero a (by omega)
  have hne : name ≠ [] := fun h => by rw [h] at hlen; cases hlen
  have hnode : align4 (TRIE_NODE_SIZE + name.length + 1) = 2 ^ 31 - 84 := by unfold align4; omega
  have hrec : align4 (PROP_INFO_SIZE + name.length + 1) = 2 ^ 31 - 8 := by unfold align4; omega
  obtain ⟨m₁, hfirst, hd₁, hu₁, h16, h112, hrest⟩ :=
    findProperty_first hnode (by omega) (by omega) hused hdata hseg hne
  have hu₁ : m₁.bytesUsed = 2 ^ 31 + 28 := hu₁.trans (by decide)
  have hd₁ := hd₁.trans hsize
  rw [run_ok (newPropInfo_run hu₁ (by decide) (by decide : ([] : Bytes).length < _) (by omega)),
    hrec, run_ok (setWord_ok (by decide) (by
      simp only [dataSize_store, dataSize_writeString]; omega))] at hfirst
  generalize hm : Memory.store _ (PROP_AREA_HEADER_SIZE + 116) _ = m at hfirst
  -- the record is far above the words of the first nodes
  have hkeep : ∀ k, k + 4 ≤ 116 ∨ 120 ≤ k ∧ k + 4 ≤ 132 → m.data k = m₁.data k := fun k hk => by
    rw [← hm]
    simp (disch := omega) only [data, word_store_ne, word_writeString_ne]
  refine ⟨m, Holds.add_of_ok hfirst, ⟨by rw [← hm]; exact hd₁, (hkeep 16 (by decide)).trans h16,
    (hkeep 112 (by decide)).trans (h112.trans hlen)⟩, ?_,
    (hkeep 24 (by decide)).trans (hrest 24 (by decide) (by decide)),
    (hkeep 120 (by decide)).trans (hrest 120 (by decide) (by decide))⟩
  rw [← hm]
  simp (disch := omega) only [bytesUsed, word_store_ne, word_writeString_ne, word_store]
  decide

/-- Shorter names are to the left of the long one. -/
theorem Long.findTrieNode_left (h : Long m) {fuel : ℕ} {alloc : Bool} :
    findTrieNode (fuel + 1) 112 [98] alloc m =
      (word 120 >>= fun offset =>
        if offset ≠ 0 then validOffset offset >>= fun next => findTrieNode fuel next [98] alloc
        else if !alloc then Prog.throw ()
        else newTrieNode [98] >>= fun node => setWord 120 node >>= fun _ => Pure.pure node) m := by
  have hsz := sizes
  have hsize := h.size
  have hnm : nodeName 112 m = .ok (m.read (PROP_AREA_HEADER_SIZE + (112 + TRIE_NODE_SIZE))
      (2 ^ 31 - 105)) m := by
    rw [nodeName, run_ok (word_ok (by decide) (by omega)), h.name, readBytes_ok (by omega)]
  have hcmp : cmpPropName [98] (m.read (PROP_AREA_HEADER_SIZE + (112 + TRIE_NODE_SIZE))
      (2 ^ 31 - 105)) = -1 := by
    rw [cmpPropName, if_pos (by rw [length_read]; decide)]
  rw [findTrieNode, run_ok hnm, hcmp]
  rfl

/-- The path of a short name starts at the long one. -/
theorem Long.findNode_of (h : Long m) {alloc : Bool}
    (hleft : findTrieNode (2 ^ 32 + 384) 112 [98] alloc m = .ok 20 m₁) :
    findNode (2 ^ 32 + 384) alloc 0 [[98]] m = .ok 20 m₁ := by
  have hsz := sizes
  have hsize := h.size
  rw [findNode, if_neg (by decide), run_ok (word_ok (by decide) (by omega)), h.child,
    if_pos (by decide), run_ok (validOffset_ok (by omega))]
  exact (run_ok hleft).trans rfl

/-- The node of a second property, where the backup area begins. -/
theorem Long.node_over_backup (h : Long m₁) (hused : m₁.bytesUsed = 20) (h24 : m₁.data 24 = 0)
    (h120 : m₁.data 120 = 0) :
    ∃ m, findNode (2 ^ 32 + 384) true 0 [[98]] m₁ = .ok 20 m ∧ Long m ∧ m.bytesUsed = 44 ∧
      m.data 120 = 20 ∧ m.data 20 = 1 ∧ m.data 24 = 0 ∧
      m.read (PROP_AREA_HEADER_SIZE + 40) 1 = [98] := by
  have hsz := sizes
  have hsize := h.size
  have hal : align4 (TRIE_NODE_SIZE + List.length [(98 : UInt8)] + 1) = 24 := by decide
  have hone : List.length [(98 : UInt8)] = 1 := rfl
  have hnode := @newTrieNode_run m₁ [98] 20 hused (by decide) (by omega)
  rw [hal] at hnode
  generalize hn : Memory.writeString _ _ _ = n at hnode
  have hdn : n.dataSize = 2 ^ 32 + 384 := by rw [← hn]; exact hsize
  have hset : setWord 120 20 n = .ok () (n.store (PROP_AREA_HEADER_SIZE + 120) 20) :=
    setWord_ok (by decide) (by omega)
  have hkeep : ∀ k, k + 4 ≤ 20 ∨ 24 ≤ k ∧ k + 4 ≤ 40 ∨ 42 ≤ k → n.data k = m₁.data k :=
    fun k hk => by
      rw [← hn]
      simp (disch := omega) only [data, word_store_ne, word_writeString_ne]
  have hkeep' : ∀ k, k + 4 ≤ 120 ∨ 124 ≤ k →
      (n.store (PROP_AREA_HEADER_SIZE + 120) 20).data k = n.data k :=
    fun k hk => word_store_ne (by omega)
  refine ⟨n.store (PROP_AREA_HEADER_SIZE + 120) 20, h.findNode_of ?_, ⟨hdn, ?_, ?_⟩, ?_, ?_, ?_, ?_,
    ?_⟩
  · rw [show 2 ^ 32 + 384 = (2 ^ 32 + 383) + 1 from rfl, h.findTrieNode_left,
      run_ok (word_ok (by decide) (by omega)), h120, if_neg (by decide), if_neg (by decide),
      run_ok hnode, run_ok hset]
    rfl
  · rw [hkeep' 16 (by decide), hkeep 16 (by decide), h.child]
  · rw [hkeep' 112 (by decide), hkeep 112 (by decide), h.name]
  · rw [← hn]
    simp (disch := omega) only [bytesUsed, word_store_ne, word_writeString_ne]
    exact word_store.trans (by decide)
  · exact word_store.trans (by decide)
  · rw [hkeep' 20 (by decide), ← hn, data, word_writeString_ne (.inl (by omega)), word_store]
    decide
  · rw [hkeep' 24 (by decide), hkeep 24 (by decide), h24]
  · rw [read_store_ne (.inl (by omega)), ← hn]
    exact read_string read_writeString

/-- A second property: its record is made over the backup area. -/
theorem Long.add_over_backup (h : Long m₁) {old : Bytes} (hold : old.length = 30)
    (hused : m₁.bytesUsed = 20) (h24 : m₁.data 24 = 0) (h120 : m₁.data 120 = 0) :
    ∃ m, add [98] old m₁ = .ok true m ∧ m.dataSize = 2 ^ 32 + 384 ∧ find [98] m = .ok 44 m ∧
      m.data 44 = 30 * 2 ^ 24 ∧ m.read (PROP_AREA_HEADER_SIZE + 48) 31 = old ++ [0] ∧
      m.read (PROP_AREA_HEADER_SIZE + 140) 2 = [98, 0] := by
  have hsz := sizes
  have hal : align4 (PROP_INFO_SIZE + List.length [(98 : UInt8)] + 1) = 100 := by decide
  have hone : List.length [(98 : UInt8)] = 1 := rfl
  have hsize := h.size
  obtain ⟨m₂, hpath, h₂, hused₂, h120, h20, h24, hname⟩ := h.node_over_backup hused h24 h120
  have hd₂ := h₂.size
  have hinfo := @newPropInfo_run m₂ [98] old 44 hused₂ (by decide) (by omega) (by omega)
  rw [hal, hold] at hinfo
  generalize hr : Memory.writeString _ (PROP_AREA_HEADER_SIZE + (44 + 4)) _ = r at hinfo
  have hdr : r.dataSize = 2 ^ 32 + 384 := by rw [← hr]; exact hd₂
  have hset : setWord 24 44 r = .ok () (r.store (PROP_AREA_HEADER_SIZE + 24) 44) :=
    setWord_ok (by decide) (by omega)
  generalize hm : r.store (PROP_AREA_HEADER_SIZE + 24) 44 = m at hset
  have hd : m.dataSize = 2 ^ 32 + 384 := by rw [← hm]; exact hdr
  have hkeep : ∀ k, k + 4 ≤ 24 ∨ 28 ≤ k ∧ k + 4 ≤ 44 ∨ 79 ≤ k ∧ k + 4 ≤ 140 →
      m.data k = m₂.data k := fun k hk => by
    rw [← hm, ← hr]
    simp (disch := omega) only [data, word_store_ne, word_writeString_ne]
  have hlong : Long m :=
    ⟨hd, (hkeep 16 (by decide)).trans h₂.child, (hkeep 112 (by decide)).trans h₂.name⟩
  refine ⟨m, Holds.add_of_ok (x := 44) ?_, hd, ?_, ?_, ?_, ?_⟩
  · rw [findProperty, run_ok get_ok, hsize, show segments [98] = [[98]] from rfl, run_ok hpath,
      run_ok (word_ok (by decide) (by omega)), h24, if_neg (by decide), if_neg (by decide),
      run_ok hinfo, run_ok hset]
    rfl
  · have hnm : nodeName 20 m = .ok [98] m := by
      rw [nodeName, run_ok (word_ok (by decide) (by omega)), hkeep 20 (by decide), h20,
        readBytes_ok (by omega), ← hname, ← hm, ← hr]
      simp (disch := omega) only [read_store_ne, read_writeString_ne]
      rfl
    have hnode : findNode (2 ^ 32 + 384) false 0 [[98]] m = .ok 20 m := by
      refine hlong.findNode_of ?_
      rw [show 2 ^ 32 + 384 = (2 ^ 32 + 382) + 1 + 1 from rfl, hlong.findTrieNode_left,
        run_ok (word_ok (by decide) (by omega)), hkeep 120 (by decide), h120, if_pos (by decide),
        run_ok (validOffset_ok (by omega)), findTrieNode, run_ok hnm, if_pos (by decide)]
      rfl
    have h24' : m.data 24 = 44 := by rw [← hm]; exact word_store.trans (by decide)
    rw [find, findProperty, run_ok get_ok, hd, show segments [98] = [[98]] from rfl, run_ok hnode,
      run_ok (word_ok (by decide) (by omega)), h24', if_pos (by decide), validOffset_ok (by omega)]
  · rw [← hm, ← hr]
    simp (disch := omega) only [data, word_store_ne, word_writeString_ne, word_store]
    decide
  · rw [← hm, ← hr, read_store_ne (.inr (by omega)), show 31 = old.length + 1 by omega]
    exact read_writeString
  · rw [← hm, ← hr]
    simp (disch := omega) only [read_store_ne, read_writeString_ne]
    exact read_writeString

/-- A value that stands for an even serial from its byte 24 on. -/
def straddling : Bytes := .replicate 24 97 ++ [98, 97, 97, 97, 97, 97]

/-- A record in the backup area while its old value is copied there: the serial and the start of
the value are bytes of the copy. -/
theorem read_over_backup (hsize : m.dataSize = 2 ^ 32 + 384)
    (hname : m.read (PROP_AREA_HEADER_SIZE + 140) 2 = [98, 0]) :
    Reader.read 44 (m.write (PROP_AREA_HEADER_SIZE + 20) (straddling ++ [0])) =
      .ok ⟨[98], [97, 97], 0x61616162⟩
        (m.write (PROP_AREA_HEADER_SIZE + 20) (straddling ++ [0])) := by
  have hsz := sizes
  generalize hw : m.write (PROP_AREA_HEADER_SIZE + 20) (straddling ++ [0]) = w
  have hdw : w.dataSize = 2 ^ 32 + 384 := by rw [← hw]; exact hsize
  have hlen : w.dataSize = w.len - PROP_AREA_HEADER_SIZE := rfl
  have hcstr : cStr (44 + PROP_INFO_SIZE) w = .ok [98] w := by
    rw [Holds.cStr_eq (by omega), cString_eq (s := [98]) ?_ (by decide +kernel) (by simp; omega)]
    rw [← hw, read_write_ne (.inr (by decide))]
    exact hname
  have hu32 : u32At 44 w = .ok 0x61616162 w := by
    have hbytes : w.read (PROP_AREA_HEADER_SIZE + 44) 4 = [98, 97, 97, 97] := by rw [← hw]; rfl
    rw [u32At, if_pos (by omega), data, Memory.word, hbytes]
    rfl
  have hslice : slice (44 + 4) (97 + 1) w =
      .ok ([97, 97] ++ (0 :: w.read (PROP_AREA_HEADER_SIZE + 51) 95)) w := by
    rw [slice, if_pos (by omega), show 97 + 1 = 3 + 95 from rfl, read_add,
      show w.read (PROP_AREA_HEADER_SIZE + (44 + 4)) 3 = [97, 97, 0] by rw [← hw]; rfl]
    rfl
  rw [Reader.read, run_ok hcstr, run_ok hu32, if_neg (by decide)]
  rw [show (0x61616162 : ℕ) / 2 ^ 24 = 97 by omega, if_neg (by decide), run_ok hslice]
  rfl

/-- **Torn reads in a wide area.**  The bytes of the backup area are bytes of the record: after the
first half of an update the reader finds neither the old value nor the new one. -/
theorem wide_area_torn : ∃ len m₀ calls results m name info old new k p,
    create len = some m₀ ∧ (∀ c ∈ calls, c.Fit) ∧ runs calls m₀ = .ok results m ∧
    find name m = .ok info m ∧ ¬ IsRo name ∧ infoValue info m = .ok old m ∧
    (∀ c ∈ new, c ≠ 0) ∧ new.length < PROP_VALUE_MAX ∧
    k < (updateStores m info new).length ∧
    Reader.read info (partway m info new k) = .ok p (partway m info new k) ∧
    p.value ≠ Utf8.lossy old ∧ p.value ≠ Utf8.lossy new := by
  have hsz := sizes
  obtain ⟨m₀, hc⟩ : ∃ m₀, create (2 ^ 32 + 512) = some m₀ :=
    ⟨_, by rw [create, if_pos (by decide)]⟩
  have hlegal := legal_replicate (2 ^ 31 - 106)
  have hseg := split_replicate (by decide : (97 : UInt8) ≠ 46) (2 ^ 31 - 106 + 1)
  generalize hname : List.replicate (2 ^ 31 - 106 + 1) (97 : UInt8) = name at hlegal hseg
  have hlen : name.length = 2 ^ 31 - 105 := by
    rw [← hname, length_replicate]
    omega
  obtain ⟨m₁, hadd₁, hlong, hu₁, h24, h120⟩ := add_long hlen hseg hc
  obtain ⟨m, hadd₂, hd, hfind, hserial, hvalue, hinfo⟩ :=
    @Long.add_over_backup m₁ hlong straddling (by decide) hu₁ h24 h120
  -- the copy of the old value comes first
  obtain ⟨p, ps, hstores⟩ : ∃ p ps, updateStores m 44 [99] =
      bytesAt (PROP_AREA_HEADER_SIZE + 20) (straddling ++ [0]) ++ p :: ps := by
    unfold updateStores
    simp only [hserial, show 30 * 2 ^ 24 / 2 ^ 24 + 1 = 31 by omega, hvalue]
    exact ⟨_, _, rfl⟩
  have hcopy : (bytesAt (PROP_AREA_HEADER_SIZE + 20) (straddling ++ [0])).length = 31 := by
    rw [length_bytesAt]
    rfl
  have hread := read_over_backup hd hinfo
  rw [← puts_bytesAt, ← take_left' hcopy, ← hstores] at hread
  refine ⟨_, m₀, [.add name [], .add [98] straddling], [true, true], m, [98], 44, straddling, [99],
    31, _, hc, ?_, ?_, hfind, by simp only [IsRo]; decide, ?_, by decide +kernel, by decide, ?_,
    hread, by decide +kernel, by decide +kernel⟩
  · simp only [forall_mem_cons, Call.Fit]
    exact ⟨⟨hlegal, by simp, .inl (by decide)⟩,
      ⟨by decide, by decide +kernel, .inl (by decide)⟩, by simp⟩
  · have hsecond : runs [.add [98] straddling] m₁ = .ok [true] m := by
      rw [runs, Call.run, run_ok hadd₂]
      rfl
    rw [runs, Call.run, run_ok hadd₁, run_ok hsecond]
    rfl
  · obtain ⟨name, hname⟩ : ∃ name, infoName 44 m = .ok name m := ⟨_, rfl⟩
    rw [infoValue, infoSerial, run_ok (word_ok (by decide) (by omega)), hserial, run_ok hname,
      if_neg fun h => h.1 (by decide), readBytes_ok (by omega)]
    exact congrArg (Outcome.ok · m) (@read_string m _ straddling hvalue)
  · rw [hstores, length_append, hcopy, length_cons]
    omega

end Wide

end Aim.Props
