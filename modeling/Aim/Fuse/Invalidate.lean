import Aim.Fuse.WriteBack

/-!
# Fuse — Invalidation

`invalidate_cache` reads the invalidated range from the server again and then sets the length of the
two files. Where the file grew past the range, the new length fills them with zeros.

* `invalidateCache_spec`: the pages after an invalidation that succeeds.
* `invalidateCache_refreshes`: they are right if and only if the server has zeros past the old size
  outside of the range.
* `invalidation_invents_zeros`: a file that grew, invalidated at its first byte only.
-/

namespace Aim.Fuse

open Prog (wp wp_mono wp_bind)

/-- Nothing is stored through the mapping. -/
def Env.Unmapped (env : Env) : Prop := ∀ t, env.stores t = []

/-- The files are the same. -/
structure SameFiles (w w' : World) : Prop where
  server : w'.server = w.server
  data : w'.data = w.data
  baseline : w'.baseline = w.baseline
  hydrated : w'.hydrated = w.hydrated

theorem Touched.same {env : Env} {w w' : World} (henv : env.Unmapped) (ht : Touched env w w') :
    SameFiles w w' :=
  ⟨ht.server, Disk.ext_bytes ht.len fun p _ => (ht.still p (by simp [henv w.clock])).1, ht.baseline,
    ht.hydrated⟩

namespace Cache

variable {env : Env}

/-- Two equal chunks have no runs to write. -/
theorem writeRuns_equal (check : ℕ → ℕ → Bool) {passes at_ : ℕ} {bytes : Bytes}
    (hp : bytes.length ≤ passes) : writeRuns env check passes at_ bytes bytes = pure () := by
  induction bytes generalizing passes at_ with
  | nil =>
    unfold writeRuns
    rfl
  | cons b bytes ih =>
    obtain ⟨passes, rfl⟩ : ∃ k, passes = k + 1 := ⟨passes - 1, by
      rw [List.length_cons] at hp
      omega⟩
    exact (if_pos rfl).trans (ih (Nat.le_of_succ_le_succ hp))

/-- A clean cache has nothing to flush. -/
theorem flushLocked_clean (henv : env.Unmapped) (w : World) (hw : w.data = w.baseline)
    (offset length : ℕ) :
    wp (fun _ _ => False) (flushLocked env offset length) (fun _ w' => SameFiles w w')
      (fun _ _ => True) w := by
  unfold flushLocked
  refine writeChunks_rule (P := fun _ => SameFiles w) (fun at_ n v hv hle => ?_) _ _ w (by omega)
    ⟨rfl, rfl, rfl, rfl⟩
  have hlen : v.data.len = w.data.len := by rw [hv.data]
  have hbase : v.baseline = v.data := by rw [hv.baseline, hv.data, hw]
  rw [wp_bind]
  refine wp_readData (by omega) fun w₁ ht₁ => ?_
  have h₁ := ht₁.same henv
  rw [wp_bind]
  refine wp_readBaseline (by rw [h₁.baseline, hbase]; omega) fun w₂ ht₂ => ?_
  have h₂ := ht₂.same henv
  have hbase₂ : w₂.baseline = w₁.data := by
    rw [show w₂.baseline = w₁.baseline from h₂.baseline, h₁.baseline, hbase, h₁.data]
  rw [hbase₂, writeRuns_equal _ (by rw [Memory.length_read])]
  exact ⟨(h₂.server.trans h₁.server).trans hv.server, (h₂.data.trans h₁.data).trans hv.data,
    hbase₂ ▸ (h₂.baseline.trans h₁.baseline).trans hv.baseline,
    (h₂.hydrated.trans h₁.hydrated).trans hv.hydrated⟩

/-- The bytes from `offset` to `at_` are the server's, the others as they were. -/
structure Refreshed (new old : Disk) (offset at_ : ℕ) (w : World) : Prop where
  server : w.server = new
  data : ∀ p, w.data.byte p = if offset ≤ p ∧ p < at_ then new.byte p else old.byte p
  baseline : ∀ p, w.baseline.byte p = w.data.byte p

theorem fill_refreshes (henv : env.Unmapped) {new old : Disk} {offset end_ : ℕ}
    (passes at_ : ℕ) (w : World) (hat : offset ≤ at_) (hp : end_ ≤ at_ + passes)
    (h : Refreshed new old offset at_ w) :
    wp (fun _ _ => False) (fill env end_ passes at_)
      (fun _ w' => Refreshed new old offset (max at_ end_) w') (fun _ _ => True) w := by
  refine wp_mono (fill_rule (P := fun at_ w => offset ≤ at_ ∧ Refreshed new old offset at_ w)
    (F := fun _ => True) (fun _ _ _ => trivial) (fun _ _ _ _ => trivial) (fun _ _ _ => trivial)
    (fun _ _ _ => trivial) (fun at_ m w w₁ w₂ w₃ h hle ht₁ ht₂ ht₃ => ?_) passes at_ w hp ⟨hat, h⟩)
    (fun _ _ h' => h'.2) fun _ _ h' => h'
  obtain ⟨hat, h⟩ := h
  have h₁ := ht₁.same henv
  have h₂ := ht₂.same henv
  have h₃ := ht₃.same henv
  have hserver : w₁.server = new := h₁.server.trans h.server
  have hlen : (w₁.server.read at_ m).length = m := Memory.length_read
  have hdata : w₃.data = w.data.write at_ (w₁.server.read at_ m) := by
    rw [h₃.data]
    show w₂.data.write at_ _ = _
    rw [h₂.data, h₁.data]
  have hbase : w₃.baseline = w.baseline := (h₃.baseline.trans h₂.baseline).trans h₁.baseline
  have hnew : ∀ p, (w.data.write at_ (w₁.server.read at_ m)).byte p =
      if offset ≤ p ∧ p < at_ + m then new.byte p else old.byte p := fun p => by
    by_cases hin : at_ ≤ p ∧ p < at_ + m
    · obtain ⟨i, rfl⟩ := Nat.exists_eq_add_of_le hin.1
      rw [Disk.byte_write, if_pos (by rw [hlen]; exact hin), Nat.add_sub_cancel_left,
        Disk.getD_read (by omega), if_pos (by omega), hserver]
    · rw [Disk.byte_write_ne (by omega), h.data p]
      exact if_congr (by omega) rfl rfl
  refine ⟨by omega, (h₃.server.trans h₂.server).trans hserver, fun p => ?_, fun p => ?_⟩
  · rw [hdata, hnew p]
  · rw [hdata, hbase, Disk.byte_write, Disk.byte_write, h.baseline p]

theorem invalidateCache_spec (henv : env.Unmapped) (w : World) (hh : w.hydrated = true)
    (hw : w.data = w.baseline) (offset len : ℕ) :
    wp (fun _ _ => False) (invalidateCache env offset len)
      (fun _ w' => w'.server = w.server ∧ w'.data.len = w.server.len ∧ w'.baseline = w'.data ∧
        ∀ p, p < w.server.len → w'.data.byte p =
          if offset ≤ p ∧ p < min (offset + len) (2 ^ 64 - 1) then w.server.byte p
          else w.data.byte p)
      (fun _ _ => True) w := by
  unfold invalidateCache
  rw [wp_bind, Prog.wp_get, if_neg (by rw [hh]; simp), wp_bind]
  refine wp_mono (flushLocked_clean henv w hw offset len) (fun _ w₁ h₁ => ?_) fun _ _ h' => h'
  rw [wp_bind]
  refine wp_size (fun w₂ ht₂ => ?_) fun _ _ _ => trivial
  have h₂ := ht₂.same henv
  have hserver : w₂.server = w.server := h₂.server.trans h₁.server
  have hdata : w₂.data = w.data := h₂.data.trans h₁.data
  have hbase : w₂.baseline = w.data := by
    rw [h₂.baseline, h₁.baseline, hw]
  rw [wp_bind]
  have hstart : Refreshed w.server w.data offset offset w₂ := by
    refine ⟨hserver, fun p => ?_, fun p => ?_⟩
    · rw [if_neg (by omega), hdata]
    · rw [hbase, hdata]
  refine wp_mono (fill_refreshes henv _ offset w₂ (Nat.le_refl _) (by omega) hstart)
    (fun _ w₃ h₃ => ?_) fun _ _ h' => h'
  rw [Prog.wp_modify, hserver] at *
  refine ⟨h₃.server, rfl, ?_, fun p hp => ?_⟩
  · refine Disk.ext_bytes rfl fun p _ => ?_
    show (if p < w.server.len then w₃.baseline.byte p else 0) =
      if p < w.server.len then w₃.data.byte p else 0
    rw [h₃.baseline p]
  · show (if p < w.server.len then w₃.data.byte p else 0) = _
    rw [if_pos hp, h₃.data p]
    exact if_congr (by omega) rfl rfl

end Cache

/-- A hydrated cache of `old` whose server now has `new`. -/
def World.changed (old new : Disk) : World where
  server := new
  data := old
  baseline := old
  hydrated := true
  clock := 0
  seenData := old
  seenBaseline := old
  sent := []
  stored _ := none

/-- **Invalidation.** After an invalidation that succeeds the pages have the server's size, are the
server's inside the range and past the old size, and are as they were below both sizes elsewhere, if
and only if the server's bytes past the old size and outside of the range are zeros. -/
theorem invalidateCache_refreshes (env : Env) (old new : Disk) (offset len : ℕ) (w : World)
    (henv : env.Unmapped) (hsize : new.len < 2 ^ 64)
    (hok : Cache.invalidateCache env offset len (World.changed old new) = .ok () w) :
    (w.data.len = new.len ∧ w.baseline = w.data ∧
      (∀ p, p < new.len → (offset ≤ p ∧ p < offset + len ∨ old.len ≤ p) →
        w.data.byte p = new.byte p) ∧
      (∀ p, ¬(offset ≤ p ∧ p < offset + len) → p < old.len → p < new.len →
        w.data.byte p = old.byte p)) ↔
    ∀ p, old.len ≤ p → p < new.len → ¬(offset ≤ p ∧ p < offset + len) → new.byte p = 0 := by
  obtain ⟨-, hlen, hbase, hdata⟩ := Prog.wp_ok
    (Cache.invalidateCache_spec henv (World.changed old new) rfl rfl offset len) hok
  have hout : ∀ p, ¬(offset ≤ p ∧ p < offset + len) → p < new.len → w.data.byte p = old.byte p :=
    fun p hp hn => (hdata p hn).trans (if_neg (by omega))
  constructor
  · rintro ⟨-, -, hright, -⟩ p hold hn hp
    rw [← hright p hn (.inr hold), hout p hp hn]
    exact old.beyond p hold
  · intro hzero
    refine ⟨hlen, hbase, fun p hn hp => ?_, fun p hp _ hn => hout p hp hn⟩
    by_cases hin : offset ≤ p ∧ p < offset + len
    · exact (hdata p hn).trans (if_pos (by omega))
    · have hold := hp.resolve_left hin
      rw [hout p hin hn, hzero p hold hn hin]
      exact old.beyond p hold

/-- A server that answers in full, and no mapping. -/
def Env.plain : Env where
  stores _ := []
  answer _ := .ok (2 ^ 64)
  host _ := none

/-- A file that grew by a zero and by a byte that is in the range. -/
theorem invalidateCache_refreshes_grown :
    ∃ w, Cache.invalidateCache Env.plain 3 1
        (World.changed (Disk.ofBytes [1, 2]) (Disk.ofBytes [1, 5, 0, 7])) = .ok () w ∧
      w.data.read 0 4 = [1, 2, 0, 7] ∧ w.data.len = 4 ∧ w.baseline = w.data := by
  refine ⟨_, rfl, by decide, ?_⟩
  have h := (invalidateCache_refreshes Env.plain (Disk.ofBytes [1, 2]) (Disk.ofBytes [1, 5, 0, 7])
    3 1 _ (fun _ => rfl) (by decide) rfl).2 fun p hold hn hp => ?_
  · exact ⟨h.1, h.2.1⟩
  · obtain rfl : p = 2 := by
      have hold' : 2 ≤ p := hold
      have hn' : p < 4 := hn
      omega
    rfl

/-- A file of one byte grows to four, and the server invalidates the first byte: the cache has the
new size, and zeros where the server has 2, 3 and 4. -/
theorem invalidation_invents_zeros :
    ∃ w, Cache.invalidateCache Env.plain 0 1
        (World.changed (Disk.ofBytes [7]) (Disk.ofBytes [1, 2, 3, 4])) = .ok () w ∧
      w.data.len = 4 ∧ w.data.read 0 4 = [1, 0, 0, 0] ∧ w.server.read 0 4 = [1, 2, 3, 4] ∧
      w.baseline.read 0 4 = [1, 0, 0, 0] :=
  ⟨_, rfl, by decide, by decide, by decide, by decide⟩

end Aim.Fuse
