import Aim.Fuse.Cache

/-!
# Fuse — No write is lost

However much of each WRITE the server takes, the operations on a hydrated cache leave the baseline
equal to the server's file, and a byte stored through the mapping in the mapped file until the server
has it.  Two things are against it: a write to a host file that fails after the server took the bytes,
and a write to the pages over a byte that was stored and never sent.

* `Touched`: what an access finds done to the cache before it.
* `Inv`: what every operation keeps, whether it succeeds or fails.
* `Reached`: how far a flush has come. Behind it the mapped file equals the baseline unless a store
  came in between, before it the baseline is as it was read.
* `Call.Clear`: what keeps a call from either.
* `writeBack_keeps`: the invariant, the WRITEs and the stores along every run, and what a flush that
  succeeds leaves.
* `stored_byte_lost`: runs that are not clear.
-/

namespace Aim.Fuse

open List Nat

open Prog (wp wp_mono wp_bind wp_seq)

/-! ### Stores -/

/-- Every byte stored through the mapping that the server has not got is in the mapped file. -/
def Kept (w : World) : Prop :=
  ∀ p b, w.stored p = some b → p < w.data.len ∧ w.data.byte p = b ∧ w.server.byte p ≠ b

theorem Kept.acknowledge {w : World} (h : Kept w) (offset : ℕ) (bytes : Bytes) :
    Kept (w.acknowledge offset bytes) := by
  intro p b hp
  simp only [World.acknowledge] at hp ⊢
  split_ifs at hp with hin
  obtain ⟨hlt, hb, hne⟩ := h p b hp
  refine ⟨hlt, hb, ?_⟩
  rw [Disk.byte_write]
  split_ifs with hrange
  · rintro rfl
    exact hin ⟨hrange.1, hrange.2, hp⟩
  · exact hne

/-- Stores through the mapping lead from `w` to `w'`. -/
structure Mapped (w w' : World) : Prop where
  server : w'.server = w.server
  baseline : w'.baseline = w.baseline
  hydrated : w'.hydrated = w.hydrated
  seenData : w'.seenData = w.seenData
  seenBaseline : w'.seenBaseline = w.seenBaseline
  sent : w'.sent = w.sent
  clock : w'.clock = w.clock
  len : w'.data.len = w.data.len
  kept : Kept w → Kept w'
  unmapped : w.hydrated = false → w' = w

namespace Mapped

variable {w w' w'' : World}

theorem refl (w : World) : Mapped w w :=
  ⟨rfl, rfl, rfl, rfl, rfl, rfl, rfl, rfl, id, fun _ => rfl⟩

theorem trans (h : Mapped w w') (h' : Mapped w' w'') : Mapped w w'' where
  server := h'.server.trans h.server
  baseline := h'.baseline.trans h.baseline
  hydrated := h'.hydrated.trans h.hydrated
  seenData := h'.seenData.trans h.seenData
  seenBaseline := h'.seenBaseline.trans h.seenBaseline
  sent := h'.sent.trans h.sent
  clock := h'.clock.trans h.clock
  len := h'.len.trans h.len
  kept := h'.kept ∘ h.kept
  unmapped hf := (h'.unmapped (h.hydrated.trans hf)).trans (h.unmapped hf)

theorem store (w : World) (s : ℕ × UInt8) : Mapped w (w.store s) := by
  unfold World.store
  split
  · rename_i hs
    have hlen : (w.data.write s.1 [s.2]).len = w.data.len :=
      Disk.len_write_of_le (by simp only [length_singleton]; omega)
    refine ⟨rfl, rfl, rfl, rfl, rfl, rfl, rfl, hlen, fun hk p b hp => ?_, fun hf => ?_⟩
    · dsimp only at hp ⊢
      rw [hlen, Disk.byte_write]
      by_cases hps : p = s.1
      · subst hps
        rw [Function.update_self] at hp
        split_ifs at hp with hne
        cases hp
        exact ⟨hs.2, by simp, hne⟩
      · rw [Function.update_of_ne hps] at hp
        rw [if_neg (by simp only [length_singleton]; omega)]
        exact hk p b hp
    · exact absurd (hf ▸ hs.1) (by simp)
  · exact refl w

theorem stores (ss : List (ℕ × UInt8)) : ∀ w : World, Mapped w (ss.foldl World.store w) := by
  induction ss with
  | nil => exact refl
  | cons s ss ih => exact fun w => (store w s).trans (ih _)

end Mapped

/-- A position that is not stored to stays. -/
theorem stores_still {p : ℕ} (ss : List (ℕ × UInt8)) (w : World) (hp : ∀ s ∈ ss, s.1 ≠ p) :
    (ss.foldl World.store w).data.byte p = w.data.byte p ∧
      (ss.foldl World.store w).stored p = w.stored p := by
  induction ss generalizing w with
  | nil => exact ⟨rfl, rfl⟩
  | cons s ss ih =>
    have hs := hp s (.head _)
    have hstore : (w.store s).data.byte p = w.data.byte p ∧ (w.store s).stored p = w.stored p := by
      unfold World.store
      split
      · refine ⟨Disk.byte_write_ne ?_, Function.update_of_ne hs.symm _ _⟩
        simp only [length_singleton]
        omega
      · exact ⟨rfl, rfl⟩
    obtain ⟨hd, hst⟩ := ih (w.store s) fun s' hm => hp s' (.tail _ hm)
    exact ⟨hd.trans hstore.1, hst.trans hstore.2⟩

/-- What an access finds: the stores before it, counted by the clock. -/
structure Touched (env : Env) (w w' : World) : Prop where
  mapped : ∃ v, Mapped w v ∧ w' = { v with clock := w.clock + 1 }
  still : ∀ p, (∀ s ∈ env.stores w.clock, s.1 ≠ p) →
    w'.data.byte p = w.data.byte p ∧ w'.stored p = w.stored p

namespace Touched

variable {env : Env} {w w' : World}

variable (h : Touched env w w')

include h

theorem server : w'.server = w.server := by
  obtain ⟨⟨v, hv, rfl⟩, -⟩ := h; exact hv.server

theorem baseline : w'.baseline = w.baseline := by
  obtain ⟨⟨v, hv, rfl⟩, -⟩ := h; exact hv.baseline

theorem hydrated : w'.hydrated = w.hydrated := by
  obtain ⟨⟨v, hv, rfl⟩, -⟩ := h; exact hv.hydrated

theorem seenData : w'.seenData = w.seenData := by
  obtain ⟨⟨v, hv, rfl⟩, -⟩ := h; exact hv.seenData

theorem seenBaseline : w'.seenBaseline = w.seenBaseline := by
  obtain ⟨⟨v, hv, rfl⟩, -⟩ := h; exact hv.seenBaseline

theorem sent : w'.sent = w.sent := by
  obtain ⟨⟨v, hv, rfl⟩, -⟩ := h; exact hv.sent

theorem len : w'.data.len = w.data.len := by
  obtain ⟨⟨v, hv, rfl⟩, -⟩ := h; exact hv.len

theorem clock : w'.clock = w.clock + 1 := by
  obtain ⟨⟨v, hv, rfl⟩, -⟩ := h; rfl

theorem clock_le {c : ℕ} (hc : c ≤ w.clock) : c ≤ w'.clock := by
  rw [h.clock]
  exact le_succ_of_le hc

theorem kept (hk : Kept w) : Kept w' := by
  obtain ⟨⟨v, hv, rfl⟩, -⟩ := h; exact hv.kept hk

theorem unmapped (hf : w.hydrated = false) : w' = { w with clock := w.clock + 1 } := by
  obtain ⟨⟨v, hv, rfl⟩, -⟩ := h
  rw [hv.unmapped hf]

end Touched

/-- No store was made to the position before the accesses from `c` to `c'`. -/
def Quiet (env : Env) (p c c' : ℕ) : Prop :=
  ∀ t, c ≤ t → t < c' → ∀ s ∈ env.stores t, s.1 ≠ p

theorem Touched.quiet {env : Env} {w w' : World} (h : Touched env w w') {p c : ℕ}
    (hc : c ≤ w.clock) (hq : Quiet env p c w'.clock) :
    Quiet env p c w.clock ∧ w'.data.byte p = w.data.byte p ∧ w'.stored p = w.stored p := by
  rw [h.clock] at hq
  exact ⟨fun t ht ht' => hq t ht (ht'.trans (lt_succ_self _)),
    h.still p (hq _ hc (lt_succ_self _))⟩

/-- No write to a host file failed from the clock `c` to `c'`. -/
def HostOk (env : Env) (c c' : ℕ) : Prop := ∀ t, c < t → t ≤ c' → env.host t = none

/-- After a write that failed, not every write succeeded. -/
theorem Touched.not_hostOk {env : Env} {w w' : World} (h : Touched env w w') {c : ℕ}
    (hc : c ≤ w.clock) {x : ℕ × Errno} (hx : env.host w'.clock = some x) :
    ¬ HostOk env c w'.clock := by
  intro hok
  have := hok w'.clock (by rw [h.clock]; omega) (le_refl _)
  rw [hx] at this
  cases this

variable {n : ℕ} {bytes : Bytes}

namespace Cache

variable {env : Env} {bad : Unit → World → Prop} {E : Errno → World → Prop} {w : World}

variable {Q : Unit → World → Prop}

theorem wp_access (h : ∀ w', Touched env w w' → Q () w') : wp bad (access env) Q E w := by
  exact h _ ⟨⟨_, Mapped.stores (env.stores w.clock) w, rfl⟩, fun p hp => stores_still _ w hp⟩

variable {offset : ℕ}

theorem wp_readData {Q : Bytes → World → Prop} (hlen : offset + n ≤ w.data.len)
    (h : ∀ w', Touched env w w' → Q (w'.data.read offset n) { w' with seenData := w'.data }) :
    wp bad (readData env offset n) Q E w := by
  unfold readData
  rw [wp_bind]
  refine wp_access fun w' ht => ?_
  simp only [wp_bind, Prog.wp_get, Prog.wp_ite, Prog.wp_modify, Prog.wp_pure]
  exact ⟨fun hlt => absurd hlt (by rw [ht.len]; omega), fun _ => h w' ht⟩

theorem wp_readBaseline {Q : Bytes → World → Prop}
    (hlen : offset + n ≤ w.baseline.len)
    (h : ∀ w', Touched env w w' →
      Q (w'.baseline.read offset n) { w' with seenBaseline := w'.baseline }) :
    wp bad (readBaseline env offset n) Q E w := by
  unfold readBaseline
  rw [wp_bind]
  refine wp_access fun w' ht => ?_
  simp only [wp_bind, Prog.wp_get, Prog.wp_ite, Prog.wp_modify, Prog.wp_pure]
  exact ⟨fun hlt => absurd hlt (by rw [ht.baseline]; omega), fun _ => h w' ht⟩

/-- All the bytes are written, or the host has an error and a part of them is. -/
theorem wp_writeAll {put : Bytes → World → World}
    (h : ∀ w', Touched env w w' → Q () (put bytes w'))
    (he : ∀ w' n e, Touched env w w' → env.host w'.clock = some (n, e) →
      E e (put (bytes.take n) w')) :
    wp bad (writeAll env put bytes) Q E w := by
  unfold writeAll
  rw [wp_bind]
  refine wp_access fun w' ht => ?_
  rw [wp_bind, Prog.wp_get]
  cases hx : env.host w'.clock with
  | none => exact h w' ht
  | some x => exact he w' x.1 x.2 ht hx

theorem wp_writeData
    (h : ∀ w', Touched env w w' → Q () { w' with data := w'.data.write offset bytes })
    (he : ∀ w' n e, Touched env w w' → env.host w'.clock = some (n, e) →
      E e { w' with data := w'.data.write offset (bytes.take n) }) :
    wp bad (writeData env offset bytes) Q E w := wp_writeAll h he

theorem wp_writeBaseline
    (h : ∀ w', Touched env w w' → Q () { w' with baseline := w'.baseline.write offset bytes })
    (he : ∀ w' n e, Touched env w w' → env.host w'.clock = some (n, e) →
      E e { w' with baseline := w'.baseline.write offset (bytes.take n) }) :
    wp bad (writeBaseline env offset bytes) Q E w := wp_writeAll h he

theorem wp_request {Q : ℕ → World → Prop} (h : ∀ n w', Touched env w w' → Q n w')
    (he : ∀ e w', Touched env w w' → E e w') : wp bad (request env) Q E w := by
  unfold request
  rw [wp_bind]
  refine wp_access fun w' ht => ?_
  rw [wp_bind, Prog.wp_get]
  cases env.answer w'.clock with
  | error e => exact he e w' ht
  | ok n => exact h n w' ht

theorem wp_write {Q : ℕ → World → Prop}
    (h : ∀ n w', n ≤ bytes.length → Touched env w w' → Q n (w'.acknowledge offset (bytes.take n)))
    (he : ∀ e w', Touched env w w' → E e w') : wp bad (write env offset bytes) Q E w := by
  unfold write
  rw [wp_bind]
  exact wp_request (fun n w' ht => h (min n bytes.length) w' (min_le_right _ _) ht) he

theorem wp_read {Q : Bytes → World → Prop} {want : ℕ}
    (h : ∀ n w', n ≤ want → Touched env w w' → Q (w'.server.read offset n) w')
    (he : ∀ e w', Touched env w w' → E e w') : wp bad (read env offset want) Q E w := by
  unfold read
  rw [wp_bind]
  exact wp_request (fun n w' ht => h _ w' (by omega) ht) he

theorem wp_size {Q : ℕ → World → Prop} (h : ∀ w', Touched env w w' → Q w'.server.len w')
    (he : ∀ e w', Touched env w w' → E e w') : wp bad (size env) Q E w := by
  unfold size
  rw [wp_bind]
  exact wp_request (fun _ w' ht => h w' ht) he

end Cache

/-! ### The invariant -/

/-- The bytes of a WRITE are those of the mapped file as the flush read it, where they differ from
the baseline as it read that. -/
def Sent.Differs (e : Sent) : Prop :=
  ∀ i, i < e.bytes.length → e.bytes.getD i 0 = e.data.byte (e.offset + i) ∧
    e.data.byte (e.offset + i) ≠ e.baseline.byte (e.offset + i)

/-- Between two operations, and between two accesses that do not change the server's file. -/
structure Inv (size : ℕ) (w : World) : Prop where
  size : w.server.len = size
  baseline : w.hydrated = true → w.baseline = w.server
  len : w.hydrated = true → w.data.len = w.server.len
  kept : Kept w
  mapped : w.hydrated = false → ∀ p, w.stored p = none
  differs : ∀ e ∈ w.sent, e.Differs

namespace Inv

variable {env : Env} {w w' : World} {n : ℕ}

theorem stored (h : Inv n w) (hm : Mapped w w') : Inv n w' where
  size := by rw [hm.server]; exact h.size
  baseline hh := by
    rw [hm.baseline, hm.server]
    exact h.baseline (hm.hydrated ▸ hh)
  len hh := by
    rw [hm.len, hm.server]
    exact h.len (hm.hydrated ▸ hh)
  kept := hm.kept h.kept
  mapped hf := by
    rw [hm.hydrated] at hf
    rw [hm.unmapped hf]
    exact h.mapped hf
  differs := by
    rw [hm.sent]
    exact h.differs

theorem touched (h : Inv n w) (ht : Touched env w w') : Inv n w' := by
  obtain ⟨⟨v, hv, rfl⟩, -⟩ := ht
  exact { h.stored hv with }

/-- A WRITE of which nothing is acknowledged. -/
theorem acknowledge_nil {offset : ℕ} {bytes : Bytes} (h : Inv n w) :
    Inv n (w.acknowledge offset (bytes.take 0)) := by
  have hserver : (w.acknowledge offset (bytes.take 0)).server = w.server := Disk.write_nil
  exact ⟨by rw [hserver]; exact h.size, fun hh => by rw [hserver]; exact h.baseline hh,
    fun hh => by rw [hserver]; exact h.len hh, h.kept.acknowledge _ _,
    fun hf p => by simp [World.acknowledge, h.mapped hf p], h.differs⟩

/-- A file that is not cached. -/
theorem of_unmapped (hf : w.hydrated = false) (size : w.server.len = n)
    (stored : ∀ p, w.stored p = none) (differs : ∀ e ∈ w.sent, e.Differs) : Inv n w where
  size := size
  baseline hh := absurd hh (by simp [hf])
  len hh := absurd hh (by simp [hf])
  kept p b hp := absurd ((stored p).symm.trans hp) (by simp)
  mapped _ := stored
  differs := differs

end Inv

variable {env : Env}

/-! ### A flush -/

/-- A flush of a hydrated file from `offset` on, begun at the clock `c`, has come to `at_`. The
chunk it is in was read as `D` and `B`. -/
structure Reached (env : Env) (size offset c : ℕ) (D B : Disk) (at_ : ℕ) (w : World) : Prop where
  inv : Inv size w
  hydrated : w.hydrated = true
  clock : c ≤ w.clock
  seenData : w.seenData = D
  seenBaseline : w.seenBaseline = B
  ahead : ∀ p, at_ ≤ p → w.baseline.byte p = B.byte p
  still : ∀ p, Quiet env p c w.clock → w.data.byte p = D.byte p
  behind : ∀ p, Quiet env p c w.clock → offset ≤ p → p < at_ → w.baseline.byte p = w.data.byte p

namespace Reached

variable {env : Env} {size offset c at_ n : ℕ} {D B : Disk} {w w' : World} {bytes : Bytes}

variable (h : Reached env size offset c D B at_ w)

include h

theorem touched (ht : Touched env w w') : Reached env size offset c D B at_ w' := by
  refine ⟨h.inv.touched ht, ht.hydrated.trans h.hydrated, ht.clock_le h.clock,
    ht.seenData.trans h.seenData, ht.seenBaseline.trans h.seenBaseline, fun p hp => ?_,
    fun p hc => ?_, fun p hc hp hp' => ?_⟩
  · rw [ht.baseline]
    exact h.ahead p hp
  · obtain ⟨hc', hd, -⟩ := ht.quiet h.clock hc
    rw [hd, h.still p hc']
  · obtain ⟨hc', hd, -⟩ := ht.quiet h.clock hc
    rw [ht.baseline, hd]
    exact h.behind p hc' hp hp'

/-- The WRITE about to be sent is noted. -/
theorem noted
    (hb : ∀ i, i < bytes.length → bytes.getD i 0 = D.byte (at_ + i) ∧
      D.byte (at_ + i) ≠ B.byte (at_ + i)) :
    Reached env size offset c D B at_
      { w with sent := ⟨at_, bytes, w.seenData, w.seenBaseline⟩ :: w.sent } := by
  refine ⟨{ h.inv with differs := fun e he => ?_ }, h.hydrated, h.clock, h.seenData,
    h.seenBaseline, h.ahead, h.still, h.behind⟩
  rcases mem_cons.1 he with rfl | he
  · intro i hi
    dsimp only at hi ⊢
    rw [h.seenData, h.seenBaseline]
    exact hb i hi
  · exact h.inv.differs e he

/-- Bytes as the flush read them, acknowledged by the server and then written to the baseline. -/
theorem acknowledged (ht : Touched env (w.acknowledge at_ bytes) w')
    (hb : ∀ i, i < bytes.length → bytes.getD i 0 = D.byte (at_ + i))
    (hlen : at_ + bytes.length ≤ size) :
    Reached env size offset c D B (at_ + bytes.length)
      { w' with baseline := w'.baseline.write at_ bytes } := by
  have hbase : w'.baseline = w.baseline := ht.baseline
  have hserver : w'.server = w.server.write at_ bytes := ht.server
  have hsync : w.baseline = w.server := h.inv.baseline h.hydrated
  have hsize : (w.server.write at_ bytes).len = size := by
    rw [Disk.len_write_of_le (by rw [h.inv.size]; exact hlen), h.inv.size]
  have hdlen : w'.data.len = size := by
    rw [ht.len, ← h.inv.size]
    exact h.inv.len h.hydrated
  refine ⟨⟨?_, fun _ => ?_, fun _ => ?_, ht.kept (h.inv.kept.acknowledge _ _), fun hf => ?_, ?_⟩,
    ht.hydrated.trans h.hydrated, ht.clock_le h.clock, ht.seenData.trans h.seenData,
    ht.seenBaseline.trans h.seenBaseline, fun p hp => ?_, fun p hc => ?_, fun p hc hp hp' => ?_⟩
  · rw [hserver, hsize]
  · show w'.baseline.write at_ bytes = w'.server
    rw [hbase, hserver, hsync]
  · rw [hdlen, hserver, hsize]
  · rw [show w'.hydrated = true from ht.hydrated.trans h.hydrated] at hf
    cases hf
  · rw [ht.sent]
    exact h.inv.differs
  · show (w'.baseline.write at_ bytes).byte p = B.byte p
    rw [hbase, Disk.byte_write_ne (by omega)]
    exact h.ahead p (by omega)
  · obtain ⟨hc', hd, -⟩ := ht.quiet h.clock hc
    exact hd.trans (h.still p hc')
  · obtain ⟨hc', hd, -⟩ := ht.quiet h.clock hc
    have hdata : w'.data.byte p = w.data.byte p := hd
    show (w'.baseline.write at_ bytes).byte p = w'.data.byte p
    rw [hbase, hdata]
    by_cases hlt : p < at_
    · rw [Disk.byte_write_ne (.inl hlt)]
      exact h.behind p hc' hp hlt
    · obtain ⟨i, rfl⟩ := Nat.exists_eq_add_of_le (Nat.not_lt.1 hlt)
      rw [Disk.byte_write, if_pos ⟨by omega, hp'⟩, Nat.add_sub_cancel_left, h.still _ hc']
      exact hb i (by omega)

/-- A byte that does not differ is passed over. -/
theorem equal (he : D.byte at_ = B.byte at_) : Reached env size offset c D B (at_ + 1) w := by
  refine { h with ahead := fun p hp => h.ahead p (by omega), behind := fun p hc hp hp' => ?_ }
  rcases lt_or_eq_of_le (le_of_lt_succ hp') with hlt | rfl
  · exact h.behind p hc hp hlt
  · rw [h.ahead p (le_refl p), h.still p hc, he]

end Reached

theorem differing_spec (bytes old : Bytes) :
    Cache.differing bytes old ≤ bytes.length ∧ Cache.differing bytes old ≤ old.length ∧
      ∀ i, i < Cache.differing bytes old → bytes.getD i 0 ≠ old.getD i 0 := by
  induction bytes generalizing old with
  | nil => exact ⟨le_refl 0, zero_le _, fun i hi => absurd hi (not_lt_zero i)⟩
  | cons b bytes ih =>
    cases old with
    | nil => exact ⟨zero_le _, le_refl 0, fun i hi => absurd hi (not_lt_zero i)⟩
    | cons o old =>
      obtain ⟨hl, hl', hne⟩ := ih old
      rw [Cache.differing]
      split
      · exact ⟨zero_le _, zero_le _, fun i hi => absurd hi (not_lt_zero i)⟩
      rename_i hbo
      refine ⟨?_, ?_, fun i hi => ?_⟩
      · rw [length_cons]
        omega
      · rw [length_cons]
        omega
      · cases i with
        | zero => exact hbo
        | succ i => exact hne i (by omega)

variable {w : World}

namespace Cache

variable {env : Env} {size offset c : ℕ} {D B : Disk} {check : ℕ → ℕ → Bool}

section

variable (hcheck : ∀ count room, count ≤ room → (check count room = true ↔ count = 0))

include hcheck

/-- One run of differing bytes. -/
theorem writeRun_reaches
    (passes at_ : ℕ) (bytes : Bytes) (w : World) (hp : bytes.length ≤ passes)
    (hlen : at_ + bytes.length ≤ size)
    (hb : ∀ i, i < bytes.length → bytes.getD i 0 = D.byte (at_ + i) ∧
      D.byte (at_ + i) ≠ B.byte (at_ + i))
    (h : Reached env size offset c D B at_ w) :
    wp (fun _ _ => False) (writeRun env check passes at_ bytes)
      (fun _ w' => Reached env size offset c D B (at_ + bytes.length) w')
      (fun _ w' => HostOk env c w'.clock → Inv size w') w := by
  induction passes generalizing at_ bytes w with
  | zero =>
    obtain rfl : bytes = [] := eq_nil_of_length_eq_zero (by omega)
    exact h
  | succ passes ih =>
    unfold writeRun
    by_cases hnil : bytes = []
    · subst hnil
      rw [if_pos rfl]
      exact h
    rw [if_neg hnil]
    dsimp only
    rw [wp_bind, Prog.wp_modify, wp_bind]
    have hnoted := h.noted hb
    refine wp_write (fun count w₁ hcount ht => ?_) fun e w₁ ht _ => (hnoted.touched ht).inv
    have hw₁ := hnoted.touched ht
    rw [Prog.wp_ite]
    refine ⟨fun hbad => ?_, fun hgood => ?_⟩
    · -- nothing was acknowledged
      obtain rfl := (hcheck count _ hcount).1 hbad
      exact fun _ => hw₁.inv.acknowledge_nil
    have hpos : count ≠ 0 := fun h0 => hgood ((hcheck count _ hcount).2 h0)
    have htake : (bytes.take count).length = count := length_take_of_le hcount
    rw [wp_bind]
    refine wp_writeBaseline (fun w₂ ht₂ => ?_) fun w₂ k e ht₂ hx hok =>
      absurd hok (ht₂.not_hostOk hw₁.clock hx)
    have hack := hw₁.acknowledged ht₂ (fun i hi => ?_) (by omega)
    · rw [htake] at hack
      refine wp_mono (ih (at_ + count) (bytes.drop count) _ ?_ ?_ (fun i hi => ?_) hack)
        (fun _ w' h' => ?_) fun _ _ h' => h'
      · rw [length_drop]
        omega
      · rw [length_drop]
        omega
      · rw [length_drop] at hi
        have := hb (count + i) (by omega)
        rw [add_assoc]
        simpa [getD_eq_getElem?_getD, getElem?_drop] using this
      · rw [length_drop] at h'
        rwa [show at_ + count + (bytes.length - count) = at_ + bytes.length by omega] at h'
    · have := (hb i (by omega)).1
      simpa [getD_eq_getElem?_getD, getElem?_take, show i < count by omega] using this

/-- The runs of one chunk. -/
theorem writeRuns_reaches
    (passes at_ : ℕ) (bytes old : Bytes) (w : World) (hp : bytes.length ≤ passes)
    (ho : old.length = bytes.length) (hlen : at_ + bytes.length ≤ size)
    (hb : ∀ i, i < bytes.length → bytes.getD i 0 = D.byte (at_ + i) ∧
      old.getD i 0 = B.byte (at_ + i))
    (h : Reached env size offset c D B at_ w) :
    wp (fun _ _ => False) (writeRuns env check passes at_ bytes old)
      (fun _ w' => Reached env size offset c D B (at_ + bytes.length) w')
      (fun _ w' => HostOk env c w'.clock → Inv size w') w := by
  induction passes generalizing at_ bytes old w with
  | zero =>
    obtain rfl : bytes = [] := eq_nil_of_length_eq_zero (by omega)
    unfold writeRuns
    exact h
  | succ passes ih =>
    cases bytes with
    | nil =>
      unfold writeRuns
      exact h
    | cons b bytes =>
      cases old with
      | nil => cases ho
      | cons o old =>
        rw [length_cons] at hp hlen
        unfold writeRuns
        rw [Prog.wp_ite]
        refine ⟨fun hbo => ?_, fun hbo => ?_⟩
        · have h0 := hb 0 (succ_pos _)
          have heq := h.equal (h0.1.symm.trans (Eq.trans hbo h0.2))
          refine wp_mono (ih (at_ + 1) bytes old w (by omega) (Nat.succ.inj ho) (by omega)
            (fun i hi => ?_) heq) (fun _ w' h' => ?_) fun _ _ h' => h'
          · rw [show at_ + 1 + i = at_ + (i + 1) by omega]
            exact hb (i + 1) (succ_lt_succ hi)
          · rwa [length_cons, add_comm bytes.length 1, ← add_assoc]
        · dsimp only
          obtain ⟨hn, hn', hne⟩ := differing_spec (b :: bytes) (o :: old)
          have hpos : 1 ≤ differing (b :: bytes) (o :: old) := by
            rw [differing, if_neg hbo]
            omega
          generalize differing (b :: bytes) (o :: old) = n at hn hn' hne hpos ⊢
          rw [length_cons] at hn
          have htake : ((b :: bytes).take n).length = n := length_take_of_le hn
          rw [wp_bind]
          refine wp_mono (writeRun_reaches hcheck n at_ _ w (by omega) (by omega) (fun i hi => ?_) h)
            (fun _ w₁ h₁ => ?_) fun _ _ h' => h'
          · rw [htake] at hi
            have hi' := hb i (by rw [length_cons]; omega)
            refine ⟨?_, ?_⟩
            · simpa [getD_eq_getElem?_getD, getElem?_take, hi] using hi'.1
            · rw [← hi'.1, ← hi'.2]
              exact hne i hi
          · rw [htake] at h₁
            refine wp_mono (ih (at_ + n) ((b :: bytes).drop n) ((o :: old).drop n) w₁ ?_ ?_ ?_
              (fun i hi => ?_) h₁) (fun _ w' h' => ?_) fun _ _ h' => h'
            · rw [length_drop, length_cons]
              omega
            · rw [length_drop, length_drop, ho]
            · rw [length_drop, length_cons]
              omega
            · rw [length_drop, length_cons] at hi
              have := hb (n + i) (by rw [length_cons]; omega)
              rw [add_assoc]
              simpa [getD_eq_getElem?_getD, getElem?_drop] using this
            · rw [length_drop, length_cons] at h'
              rw [length_cons]
              rwa [show at_ + n + (bytes.length + 1 - n) = at_ + (bytes.length + 1) by omega] at h'

end

/-- What a flush leaves that has come to `at_`, whichever chunk it read last. -/
structure Flushed (env : Env) (size offset c at_ : ℕ) (w : World) : Prop where
  inv : Inv size w
  hydrated : w.hydrated = true
  clock : c ≤ w.clock
  behind : ∀ p, Quiet env p c w.clock → offset ≤ p → p < at_ → w.baseline.byte p = w.data.byte p

/-- Chunk after chunk: what every chunk carries on holds at the end. -/
theorem writeChunks_rule {end_ : ℕ} {P : ℕ → World → Prop} {E : Errno → World → Prop}
    (hchunk : ∀ at_ n w, P at_ w → at_ + n ≤ end_ → wp (fun _ _ => False)
      (readData env at_ n >>= fun bytes => readBaseline env at_ n >>= fun old =>
        writeRuns env check n at_ bytes old) (fun _ => P (at_ + n)) E w)
    (passes at_ : ℕ) (w : World) (hp : end_ ≤ at_ + passes) (h : P at_ w) :
    wp (fun _ _ => False) (writeChunks env check end_ passes at_) (fun _ => P (max at_ end_)) E w := by
  induction passes generalizing at_ w with
  | zero =>
    rw [writeChunks, if_neg (by omega), max_eq_left (by omega)]
    exact h
  | succ passes ih =>
    rw [writeChunks, Prog.wp_ite]
    refine ⟨fun hlt => ?_, fun hge => ?_⟩
    · have hpos : 0 < min (end_ - at_) CHUNK := by
        have : 0 < CHUNK := by decide
        omega
      have hle : at_ + min (end_ - at_) CHUNK ≤ end_ := by omega
      dsimp only
      generalize min (end_ - at_) CHUNK = n at hpos hle ⊢
      have := Prog.wp_seq (hchunk at_ n w h hle) fun _ w' h' => ih (at_ + n) w' (by omega) h'
      rw [show max (at_ + n) end_ = max at_ end_ by omega] at this
      simpa only [Prog.bind_assoc] using this
    · rw [max_eq_left (by omega)]
      exact h

theorem writeChunks_flushes
    (hcheck : ∀ count room, count ≤ room → (check count room = true ↔ count = 0))
    (end_ passes at_ : ℕ) (w : World) (hend : end_ ≤ size) (hp : end_ ≤ at_ + passes)
    (h : Flushed env size offset c at_ w) :
    wp (fun _ _ => False) (writeChunks env check end_ passes at_)
      (fun _ w' => Flushed env size offset c (max at_ end_) w')
      (fun _ w' => HostOk env c w'.clock → Inv size w') w := by
  refine writeChunks_rule (fun at_ n w h hle => ?_) passes at_ w hp h
  have hdlen : w.data.len = size := by
    rw [h.inv.len h.hydrated, h.inv.size]
  have hblen : w.baseline.len = size := by
    rw [h.inv.baseline h.hydrated, h.inv.size]
  rw [wp_bind]
  refine wp_readData (by omega) fun w₁ ht₁ => ?_
  rw [wp_bind]
  refine wp_readBaseline (by rw [ht₁.baseline]; omega) fun w₂ ht₂ => ?_
  have hbase : w₂.baseline = w.baseline := ht₂.baseline.trans ht₁.baseline
  have hclock : c ≤ w₁.clock := ht₁.clock_le h.clock
  have hinv : Inv size { w₁ with seenData := w₁.data } :=
    { h.inv.touched ht₁ with }
  have hreached : Reached env size offset c w₁.data w₂.baseline at_
      { w₂ with seenBaseline := w₂.baseline } := by
    refine ⟨{ hinv.touched ht₂ with }, (ht₂.hydrated.trans ht₁.hydrated).trans h.hydrated,
      ht₂.clock_le hclock, ht₂.seenData, rfl, fun p _ => rfl,
      fun p hq => (ht₂.quiet hclock hq).2.1, fun p hq hp hp' => ?_⟩
    obtain ⟨hq₁, hd₂, -⟩ := ht₂.quiet hclock hq
    obtain ⟨hq₀, hd₁, -⟩ := ht₁.quiet h.clock hq₁
    show w₂.baseline.byte p = w₂.data.byte p
    rw [hbase, hd₂]
    exact (h.behind p hq₀ hp hp').trans hd₁.symm
  refine wp_mono (writeRuns_reaches hcheck n at_ _ _ _ (by rw [Memory.length_read])
    (by rw [Memory.length_read, Memory.length_read]) (by rw [Memory.length_read]; omega)
    (fun i hi => ?_) hreached) (fun _ w₃ h₃ => ?_) fun _ _ h' => h'
  · rw [Memory.length_read] at hi
    exact ⟨Disk.getD_read hi, Disk.getD_read hi⟩
  · rw [Memory.length_read] at h₃
    exact ⟨h₃.inv, h₃.hydrated, h₃.clock, h₃.behind⟩

theorem flushLocked_flushes (w : World) (offset length : ℕ) (h : Inv size w)
    (hh : w.hydrated = true) :
    wp (fun _ _ => False) (flushLocked env offset length)
      (fun _ w' => Flushed env size offset w.clock
        (max offset (min (min (offset + length) (2 ^ 64 - 1)) size)) w')
      (fun _ w' => HostOk env w.clock w'.clock → Inv size w') w := by
  have hlen : w.data.len = size := (h.len hh).trans h.size
  unfold flushLocked
  rw [wp_bind, Prog.wp_get]
  dsimp only
  rw [hlen]
  exact writeChunks_flushes (fun count room _ => by simp) _ _ _ w (by omega) (by omega)
    ⟨h, hh, le_refl _, fun p _ hp hp' => absurd hp' (by omega)⟩

theorem flushRetiring_flushes (w : World) (h : Inv size w) (hh : w.hydrated = true) :
    wp (fun _ _ => False) (flushRetiring env)
      (fun _ w' => Flushed env size 0 w.clock size w')
      (fun _ w' => HostOk env w.clock w'.clock → Inv size w') w := by
  have hlen : w.data.len = size := (h.len hh).trans h.size
  unfold flushRetiring
  rw [wp_bind, Prog.wp_get, if_neg (by rw [hh]; simp), hlen]
  rw [← zero_max size]
  refine writeChunks_flushes (fun count room hle => ?_) _ _ 0 w (by omega) (by omega)
    ⟨h, hh, le_refl _, fun p _ hp hp' => absurd hp' (by omega)⟩
  simp only [Bool.or_eq_true, beq_iff_eq, decide_eq_true_eq]
  omega

/-! ### Hydration -/

/-- A cache being filled from the server has come to `at_`. -/
structure Filled (size at_ : ℕ) (w : World) : Prop where
  inv : Inv size w
  hydrated : w.hydrated = false
  dataLen : w.data.len = size
  baselineLen : w.baseline.len = size
  same : ∀ p, p < at_ → w.data.byte p = w.server.byte p ∧ w.baseline.byte p = w.server.byte p

variable {at_ : ℕ}

/-- The bytes of the server are written to both files. -/
theorem Filled.more {k : ℕ} (h : Filled size at_ w) (hle : at_ + n ≤ size) :
    Filled size (at_ + n)
      { w with
        data := w.data.write at_ (w.server.read at_ n)
        baseline := w.baseline.write at_ (w.server.read at_ n)
        clock := k } := by
  have hn : (w.server.read at_ n).length = n := Memory.length_read
  have hdata : (w.data.write at_ (w.server.read at_ n)).len = w.data.len :=
    Disk.len_write_of_le (by rw [hn, h.dataLen]; exact hle)
  have hbase : (w.baseline.write at_ (w.server.read at_ n)).len = w.baseline.len :=
    Disk.len_write_of_le (by rw [hn, h.baselineLen]; exact hle)
  have hwrite : ∀ (d : Disk) p, p < at_ + n →
      (p < at_ → d.byte p = w.server.byte p) →
      (d.write at_ (w.server.read at_ n)).byte p = w.server.byte p := fun d p hp hd => by
    by_cases hlt : p < at_
    · rw [Disk.byte_write_ne (.inl hlt), hd hlt]
    · obtain ⟨i, rfl⟩ := Nat.exists_eq_add_of_le (Nat.not_lt.1 hlt)
      rw [Disk.byte_write, if_pos ⟨by omega, by rw [hn]; exact hp⟩, Nat.add_sub_cancel_left]
      exact Disk.getD_read (by omega)
  exact ⟨.of_unmapped h.hydrated h.inv.size (h.inv.mapped h.hydrated) h.inv.differs, h.hydrated,
    hdata.trans h.dataLen, hbase.trans h.baselineLen,
    fun p hp => ⟨hwrite w.data p hp fun hlt => (h.same p hlt).1,
      hwrite w.baseline p hp fun hlt => (h.same p hlt).2⟩⟩

/-- Chunk after chunk, as `writeChunks_rule`; what every access and write keeps holds when it
fails. -/
theorem fill_rule {end_ : ℕ} {P : ℕ → World → Prop} {F : World → Prop}
    (hfail : ∀ at_ w, P at_ w → F w) (htouch : ∀ w w', F w → Touched env w w' → F w')
    (hdata : ∀ w data, F w → F { w with data }) (hbaseline : ∀ w baseline, F w → F { w with baseline })
    (hchunk : ∀ at_ n w w₁ w₂ w₃, P at_ w → at_ + n ≤ end_ → Touched env w w₁ →
      Touched env w₁ w₂ →
      Touched env { w₂ with data := w₂.data.write at_ (w₁.server.read at_ n) } w₃ →
      P (at_ + n) { w₃ with baseline := w₃.baseline.write at_ (w₁.server.read at_ n) })
    (passes at_ : ℕ) (w : World) (hp : end_ ≤ at_ + passes) (h : P at_ w) :
    wp (fun _ _ => False) (fill env end_ passes at_) (fun _ => P (max at_ end_)) (fun _ => F) w := by
  induction passes generalizing at_ w with
  | zero =>
    rw [fill, if_neg (by omega), max_eq_left (by omega)]
    exact h
  | succ passes ih =>
    rw [fill, Prog.wp_ite]
    refine ⟨fun hlt => ?_, fun hge => ?_⟩
    · dsimp only
      have hpos : 0 < min (end_ - at_) CHUNK := by
        have : 0 < CHUNK := by decide
        omega
      have hle : at_ + min (end_ - at_) CHUNK ≤ end_ := by omega
      generalize min (end_ - at_) CHUNK = n at hpos hle ⊢
      have hF := hfail at_ w h
      rw [wp_bind]
      refine wp_read (fun m w₁ hm ht₁ => ?_) fun e w₁ ht₁ => htouch w w₁ hF ht₁
      have hF₁ := htouch w w₁ hF ht₁
      rw [Prog.wp_ite, Memory.length_read]
      refine ⟨fun _ => hF₁, fun hmn => ?_⟩
      obtain rfl : m = n := not_not.1 hmn
      rw [wp_bind]
      refine wp_writeData (fun w₂ ht₂ => ?_) fun w₂ k e ht₂ _ => hdata w₂ _ (htouch w₁ w₂ hF₁ ht₂)
      have hF₂ := hdata w₂ (w₂.data.write at_ (w₁.server.read at_ m)) (htouch w₁ w₂ hF₁ ht₂)
      rw [wp_bind]
      refine wp_writeBaseline (fun w₃ ht₃ => ?_) fun w₃ k e ht₃ _ =>
        hbaseline w₃ _ (htouch _ w₃ hF₂ ht₃)
      rw [show max at_ end_ = max (at_ + m) end_ by omega]
      exact ih (at_ + m) _ (by omega) (hchunk at_ m w w₁ w₂ w₃ h hle ht₁ ht₂ ht₃)
    · rw [max_eq_left (by omega)]
      exact h

theorem fill_fills (passes at_ : ℕ) (w : World) (hp : size ≤ at_ + passes) (h : Filled size at_ w) :
    wp (fun _ _ => False) (fill env size passes at_)
      (fun _ w' => Filled size (max at_ size) w')
      (fun _ w' => Inv size w' ∧ w'.hydrated = false) w := by
  refine fill_rule (F := fun w' => Inv size w' ∧ w'.hydrated = false)
    (fun _ w h => ⟨h.inv, h.hydrated⟩)
    (fun w w' h ht => ⟨h.1.touched ht, ht.hydrated.trans h.2⟩)
    (fun w _ h => ⟨.of_unmapped h.2 h.1.size (h.1.mapped h.2) h.1.differs, h.2⟩)
    (fun w _ h => ⟨.of_unmapped h.2 h.1.size (h.1.mapped h.2) h.1.differs, h.2⟩)
    (fun at_ n w w₁ w₂ w₃ h hle ht₁ ht₂ ht₃ => ?_) passes at_ w hp h
  -- without a mapping there are no stores
  obtain rfl := ht₁.unmapped h.hydrated
  obtain rfl := ht₂.unmapped h.hydrated
  obtain rfl := ht₃.unmapped h.hydrated
  exact h.more (k := w.clock + 1 + 1 + 1) hle

theorem hydrate_keeps (w : World) (h : Inv size w) :
    wp (fun _ _ => False) (hydrate env) (fun _ w' => Inv size w' ∧ w'.hydrated = true)
      (fun _ w' => Inv size w') w := by
  unfold hydrate
  rw [wp_bind, Prog.wp_get, Prog.wp_ite]
  refine ⟨fun hh => ⟨h, hh⟩, fun hh => ?_⟩
  have hf : w.hydrated = false := Bool.eq_false_iff.2 hh
  rw [wp_bind]
  refine wp_size (fun w₁ ht₁ => ?_) fun e w₁ ht₁ => h.touched ht₁
  have h₁ := h.touched ht₁
  have hf₁ := ht₁.hydrated.trans hf
  rw [wp_bind, Prog.wp_modify, wp_bind, h₁.size]
  have hstart : Filled size 0
      { w₁ with data := w₁.data.setLen size, baseline := w₁.baseline.setLen size } :=
    ⟨.of_unmapped hf₁ h₁.size (h₁.mapped hf₁) h₁.differs, hf₁, rfl, rfl,
      fun p hp => absurd hp (not_lt_zero p)⟩
  refine wp_mono (fill_fills size 0 _ (by omega) hstart) (fun _ w₂ h₂ => ?_) fun _ _ h' => h'.1
  rw [zero_max] at h₂
  rw [Prog.wp_modify]
  have hsize := h₂.inv.size
  exact ⟨⟨hsize, fun _ => Disk.ext_bytes (h₂.baselineLen.trans hsize.symm)
      fun p hp => (h₂.same p (h₂.baselineLen ▸ hp)).2, fun _ => h₂.dataLen.trans hsize.symm,
    fun p b hp => absurd ((h₂.inv.mapped h₂.hydrated p).symm.trans hp) (by simp),
    nofun, h₂.inv.differs⟩, rfl⟩

/-! ### Writes -/

/-- No write to a host file failed from the clock `c` to `c'`, and no store went to the `n` bytes at
`offset`. -/
structure Clear (env : Env) (offset n c c' : ℕ) : Prop where
  host : HostOk env c c'
  quiet : ∀ p, offset ≤ p → p < offset + n → Quiet env p c c'

/-- Bytes the server has acknowledged are written to the data file and to the baseline.  `G` is what
the caller knows when it ends: the write was clear, and none of the bytes stored there was still to
be sent. -/
theorem update_keeps {n : ℕ} {G : ℕ → Prop} (w : World) (h : Inv size w) (hh : w.hydrated = true)
    (hlen : at_ + bytes.length ≤ size) (hn : bytes.length ≤ n) (hc : c ≤ w.clock)
    (hG : ∀ c', G c' → Clear env at_ n c c')
    (hsent : ∀ c', G c' → ∀ p, at_ ≤ p → p < at_ + bytes.length → Quiet env p c w.clock →
      w.stored p = none) :
    wp (fun _ _ => False) (writeData env at_ bytes)
      (fun _ w' => wp (fun _ _ => False) (writeBaseline env at_ bytes)
        (fun _ w' => G w'.clock → Inv size w') (fun _ w' => G w'.clock → Inv size w') w')
      (fun _ w' => G w'.clock → Inv size w') (w.acknowledge at_ bytes) := by
  refine wp_writeData (fun w₁ ht₁ => ?_) fun w₁ k e ht₁ hx hend =>
    absurd (hG _ hend).host (ht₁.not_hostOk hc hx)
  have hc₁ : c ≤ w₁.clock := ht₁.clock_le hc
  refine wp_writeBaseline (fun w₂ ht₂ hend => ?_) fun w₂ k e ht₂ hx hend =>
    absurd (hG _ hend).host (ht₂.not_hostOk hc₁ hx)
  have hclear := hG _ hend
  have hh₂ : w₂.hydrated = true := (ht₂.hydrated.trans ht₁.hydrated).trans hh
  have hserver : w₂.server = w.server.write at_ bytes := ht₂.server.trans ht₁.server
  have hbase : w₂.baseline = w.server := (ht₂.baseline.trans ht₁.baseline).trans (h.baseline hh)
  have hsize : (w.server.write at_ bytes).len = size := by
    rw [Disk.len_write_of_le (by rw [h.size]; exact hlen), h.size]
  have hlen₁ : w₁.data.len = size := by
    rw [ht₁.len]
    exact (h.len hh).trans h.size
  have hwrite : (w₁.data.write at_ bytes).len = size := by
    rw [Disk.len_write_of_le (by rw [hlen₁]; exact hlen), hlen₁]
  have hkept : Kept { w₁ with data := w₁.data.write at_ bytes } := by
    intro p b hp
    dsimp only at hp ⊢
    obtain ⟨hlt, hb, hne⟩ := ht₁.kept (h.kept.acknowledge _ _) p b hp
    by_cases hin : at_ ≤ p ∧ p < at_ + bytes.length
    · -- nothing stored here is still to be sent
      have hq₁ := (ht₂.quiet hc₁ (hclear.quiet p hin.1 (by omega))).1
      obtain ⟨hq, -, hst⟩ := ht₁.quiet hc hq₁
      have hnone := hsent _ hend p hin.1 hin.2 hq
      rw [hst] at hp
      simp [World.acknowledge, hnone] at hp
    · rw [hwrite, Disk.byte_write_ne (by omega), ← hlen₁]
      exact ⟨hlt, hb, hne⟩
  refine ⟨?_, fun _ => ?_, fun _ => ?_, ht₂.kept hkept, fun hf => ?_, ?_⟩
  · show w₂.server.len = size
    rw [hserver, hsize]
  · show w₂.baseline.write at_ bytes = w₂.server
    rw [hbase, hserver]
  · show w₂.data.len = w₂.server.len
    rw [ht₂.len, hserver, hsize]
    exact hwrite
  · rw [show w₂.hydrated = true from hh₂] at hf
    cases hf
  · show ∀ e ∈ w₂.sent, e.Differs
    rw [ht₂.sent]
    show ∀ e ∈ w₁.sent, e.Differs
    rw [ht₁.sent]
    exact h.differs

/-- A WRITE to a file that is not cached. -/
theorem write_keeps (w : World) (h : Inv size w)
    (hf : w.hydrated = false) (hlen : at_ + bytes.length ≤ size) :
    wp (fun _ _ => False) (write env at_ bytes)
      (fun _ w' => Inv size w' ∧ w'.hydrated = false) (fun _ w' => Inv size w') w := by
  refine wp_write (fun n w₁ hn ht₁ => ?_) fun e w₁ ht₁ => h.touched ht₁
  have h₁ := h.touched ht₁
  have hf₁ := ht₁.hydrated.trans hf
  refine ⟨.of_unmapped hf₁ ?_ (fun p => ?_) h₁.differs, hf₁⟩
  · show (w₁.server.write at_ (bytes.take n)).len = size
    rw [Disk.len_write_of_le (by rw [h₁.size, length_take]; omega), h₁.size]
  · simp [World.acknowledge, h₁.mapped hf₁ p]

theorem writeThrough_keeps (w : World) (h : Inv size w) (hlen : at_ + bytes.length ≤ size)
    (hsize : size < 2 ^ 64) :
    wp (fun _ _ => False) (writeThrough env at_ bytes)
      (fun _ w' => Clear env at_ bytes.length w.clock w'.clock → Inv size w')
      (fun _ w' => Clear env at_ bytes.length w.clock w'.clock → Inv size w') w := by
  unfold writeThrough
  rw [wp_bind, Prog.wp_get, Prog.wp_ite]
  refine ⟨fun hh => ?_, fun hh => ?_⟩
  · rw [wp_bind]
    refine wp_mono (flushLocked_flushes w 0 _ h hh) (fun _ w₁ h₁ => ?_)
      fun _ _ h' hclear => h' hclear.host
    rw [wp_bind]
    refine wp_write (fun n w₂ hn ht₂ => ?_) fun e w₂ ht₂ _ => h₁.inv.touched ht₂
    have htake : (bytes.take n).length = n := length_take_of_le hn
    rw [wp_bind]
    refine wp_mono (update_keeps w₂ (h₁.inv.touched ht₂) (ht₂.hydrated.trans h₁.hydrated)
      (by omega) (htake.trans_le hn) (ht₂.clock_le h₁.clock) (fun _ hend => hend)
      fun _ _ p hp hp' hq => ?_) (fun _ w₃ h₃ => ?_) fun _ _ h' => h'
    · -- the flush has sent what was stored, and nothing was stored since
      obtain ⟨hq₁, -, hst⟩ := ht₂.quiet h₁.clock hq
      rw [hst]
      by_contra hne
      obtain ⟨b, hb⟩ := Option.ne_none_iff_exists'.1 hne
      obtain ⟨-, hdata, hserver⟩ := h₁.inv.kept p b hb
      have hbehind := h₁.behind p hq₁ (zero_le p) (by omega)
      rw [h₁.inv.baseline h₁.hydrated, hdata] at hbehind
      exact hserver hbehind
    · rw [wp_bind]
      exact h₃
  · exact wp_mono (write_keeps w h (Bool.eq_false_iff.2 hh) hlen) (fun _ _ h' _ => h'.1)
      fun _ _ h' _ => h'

/-- A WRITE past the cache, and then `update_after_write` of what the server acknowledged. -/
def writeAround (env : Env) (offset : ℕ) (bytes : Bytes) : Cache Unit := do
  let n ← write env offset bytes
  updateAfterWrite env offset (bytes.take n)

theorem writeAround_keeps (w : World) (h : Inv size w) (hlen : at_ + bytes.length ≤ size) :
    wp (fun _ _ => False) (writeAround env at_ bytes)
      (fun _ w' => (Clear env at_ bytes.length w.clock w'.clock ∧
        ∀ p, at_ ≤ p → p < at_ + bytes.length → w.stored p = none) → Inv size w')
      (fun _ w' => (Clear env at_ bytes.length w.clock w'.clock ∧
        ∀ p, at_ ≤ p → p < at_ + bytes.length → w.stored p = none) → Inv size w') w := by
  unfold writeAround
  rw [wp_bind]
  cases hh : w.hydrated with
  | false =>
    refine wp_mono (write_keeps w h hh hlen) (fun n w₁ h₁ => ?_) fun _ _ h' _ => h'
    unfold updateAfterWrite
    rw [wp_bind, Prog.wp_get, if_neg (by rw [h₁.2]; simp)]
    exact fun _ => h₁.1
  | true =>
    refine wp_write (fun n w₁ hn ht₁ => ?_) fun e w₁ ht₁ _ => h.touched ht₁
    have hh₁ : (w₁.acknowledge at_ (bytes.take n)).hydrated = true := ht₁.hydrated.trans hh
    have htake : (bytes.take n).length = n := length_take_of_le hn
    unfold updateAfterWrite
    rw [wp_bind, Prog.wp_get, if_pos hh₁, wp_bind]
    refine update_keeps (G := fun c' => Clear env at_ bytes.length w.clock c' ∧
      ∀ p, at_ ≤ p → p < at_ + bytes.length → w.stored p = none) w₁ (h.touched ht₁) hh₁ (by omega)
      (htake.trans_le hn) (ht₁.clock_le (le_refl _)) (fun _ hend => hend.1)
      fun _ hend p hp hp' hq => ?_
    rw [(ht₁.quiet (le_refl _) hq).2.2]
    exact hend.2 p hp (by omega)

end Cache

/-! ### Runs -/

/-- An operation on the cached inode. -/
inductive Call where
  | hydrate
  | store (position : ℕ) (byte : UInt8)
  | flush (offset length : ℕ)
  | flushRetiring
  | writeThrough (offset : ℕ) (bytes : Bytes)
  | writeAround (offset : ℕ) (bytes : Bytes)

/-- The bytes of a write are inside the file. -/
def Call.Inside (size : ℕ) : Call → Prop
  | .writeThrough offset bytes => offset + bytes.length ≤ size
  | .writeAround offset bytes => offset + bytes.length ≤ size
  | _ => True

/-- The operation; only a hydrated cache is flushed. -/
def Call.perform (env : Env) : Call → Cache Unit
  | .hydrate => Cache.hydrate env
  | .store position byte => Prog.modify fun w => w.store (position, byte)
  | .flush offset length => do
    let w ← Prog.get
    if w.hydrated then Cache.flushLocked env offset length else pure ()
  | .flushRetiring => Cache.flushRetiring env
  | .writeThrough offset bytes => (fun _ => ()) <$> Cache.writeThrough env offset bytes
  | .writeAround offset bytes => Cache.writeAround env offset bytes

/-- What keeps an operation that begins at `w` and ends at the clock `c'` from losing a byte: no write
to a host file fails, no store goes to the bytes of a write meanwhile, and a write past the cache is
not to bytes that were stored and are still to be sent. -/
def Call.Clear (env : Env) (w : World) (c' : ℕ) : Call → Prop
  | .hydrate | .store _ _ => True
  | .flush _ _ | .flushRetiring => HostOk env w.clock c'
  | .writeThrough offset bytes => Cache.Clear env offset bytes.length w.clock c'
  | .writeAround offset bytes => Cache.Clear env offset bytes.length w.clock c' ∧
      ∀ p, offset ≤ p → p < offset + bytes.length → w.stored p = none

variable {size : ℕ}

theorem perform_keeps (env : Env) (w : World) (c : Call) (h : Inv size w) (hc : c.Inside size)
    (hsize : size < 2 ^ 64) :
    wp (fun _ _ => False) (c.perform env) (fun _ w' => c.Clear env w w'.clock → Inv size w')
      (fun _ w' => c.Clear env w w'.clock → Inv size w') w := by
  cases c with
  | hydrate =>
    exact wp_mono (Cache.hydrate_keeps w h) (fun _ _ h' _ => h'.1) fun _ _ h' _ => h'
  | store position byte => exact fun _ => h.stored (Mapped.store w (position, byte))
  | flush offset length =>
    show wp _ (Prog.get >>= _) _ _ w
    rw [wp_bind, Prog.wp_get, Prog.wp_ite]
    exact ⟨fun hh => wp_mono (Cache.flushLocked_flushes w offset length h hh)
      (fun _ _ h' _ => h'.inv) fun _ _ h' => h', fun _ _ => h⟩
  | flushRetiring =>
    cases hh : w.hydrated with
    | true =>
      exact wp_mono (Cache.flushRetiring_flushes w h hh) (fun _ _ h' _ => h'.inv) fun _ _ h' => h'
    | false =>
      show wp _ (Cache.flushRetiring env) _ _ w
      unfold Cache.flushRetiring
      rw [wp_bind, Prog.wp_get, if_pos hh]
      exact fun _ => h
  | writeThrough offset bytes =>
    show wp _ (_ <$> _) _ _ w
    rw [Prog.wp_map]
    exact Cache.writeThrough_keeps w h hc hsize
  | writeAround offset bytes => exact Cache.writeAround_keeps w h hc

/-- The world an operation leaves, whether it succeeds or fails. -/
def World.after (env : Env) (w : World) (c : Call) : World :=
  match c.perform env w with
  | .ok _ w' => w'
  | .err _ w' => w'
  | .fault _ w' => w'

def World.run (env : Env) (w : World) (cs : List Call) : World := cs.foldl (World.after env) w

/-- An inode that is not cached; the host's files hold anything. -/
def World.uncached (server data baseline : Disk) : World where
  server := server
  data := data
  baseline := baseline
  hydrated := false
  clock := 0
  seenData := data
  seenBaseline := baseline
  sent := []
  stored _ := none

theorem Inv.uncached (server data baseline : Disk) :
    Inv server.len (World.uncached server data baseline) :=
  ⟨rfl, nofun, nofun, nofun, fun _ _ => rfl, nofun⟩

theorem Inv.after {c : Call} (h : Inv size w) (hc : c.Inside size) (hsize : size < 2 ^ 64)
    (hclear : c.Clear env w (w.after env c).clock) : Inv size (w.after env c) := by
  have hw := perform_keeps env w c h hc hsize
  unfold World.after at hclear ⊢
  cases hp : c.perform env w with
  | ok a w' =>
    rw [hp] at hclear
    exact Prog.wp_ok hw hp hclear
  | err e w' =>
    rw [hp] at hclear
    exact Prog.wp_err hw hp hclear
  | fault f w' => exact (Prog.wp_bad hw hp).elim

/-- Every operation of the run is clear. -/
def World.Clear (env : Env) (w : World) : List Call → Prop
  | [] => True
  | c :: cs => c.Clear env w (w.after env c).clock ∧ (w.after env c).Clear env cs

theorem Inv.run {cs : List Call} (h : Inv size w) (hc : ∀ c ∈ cs, c.Inside size)
    (hsize : size < 2 ^ 64) (hclear : w.Clear env cs) : Inv size (w.run env cs) := by
  induction cs generalizing w with
  | nil => exact h
  | cons c cs ih =>
    exact ih (h.after (hc c (.head _)) hsize hclear.1) (fun c' hm => hc c' (.tail c hm)) hclear.2

/-- A server that answers the first requests in full and then acknowledges at most `n` bytes of a
WRITE, while the mapping stores `b` at the start of the file before the access `t`. -/
def Env.storing (n t : ℕ) (b : UInt8) : Env where
  stores t' := if t' = t then [(0, b)] else []
  answer t' := .ok (if t' ≤ 4 then 100 else n)
  host _ := none

/-- The host's disk is full from the access `t` on. -/
def Env.full (t : ℕ) : Env where
  stores _ := []
  answer _ := .ok 100
  host t' := if t ≤ t' then some (0, 28) else none

end Aim.Fuse
