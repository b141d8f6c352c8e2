import Aim.Mounts.Records

/-!
# Mounts — what keeps the mounts a tree

`Rooted` is what holds of the mounts all through a call, also while a parent is gone and not yet
repaired: ids are distinct, the base's mount is the only one at `/` and its own parent, links to
mounts that are there lead to the same path or above, and they make no cycle.

* `Rooted.append`, `Rooted.subset`, `Rooted.move`, `Rooted.repair`, `Rooted.putOn`: the ways a call
  changes the mounts.
* `Rooted.tree`: when every parent is there, the mounts are a tree.
-/

namespace Mounts

open List

open Prog (wp wp_mono wp_bind wp_pure wp_ite wp_throw)

/-! ### Paths -/

variable {path : Bytes}

theorem below_root (h : path.head? = some slash) : below [slash] path = true := by
  simp [below, h]

variable {child : Bytes}

theorem stripStart_eq_some {rest : Bytes} :
    stripStart path child = some rest ↔ child = path ++ rest := by
  rw [stripStart]
  split_ifs with hp
  · obtain ⟨rest', rfl⟩ := isPrefixOf_iff_prefix.1 hp
    simp [eq_comm]
  · refine ⟨fun h => h.elim, ?_⟩
    rintro rfl
    exact absurd ( isPrefixOf_iff_prefix.2 (prefix_append path rest)) hp

/-- Below a path is what goes on with a slash after it, and below `/` all that is absolute. -/
theorem below_iff : below path child = true ↔
    path = [slash] ∧ child.head? = some slash ∨ ∃ rest, child = path ++ slash :: rest := by
  simp only [below, Bool.or_eq_true, Bool.and_eq_true, decide_eq_true_eq, Option.any_eq_true,
    stripStart_eq_some]
  refine or_congr_right ⟨?_, ?_⟩
  · rintro ⟨_ | ⟨b, rest⟩, rfl, hh⟩
    · cases hh
    · obtain rfl := Option.some.inj hh
      exact ⟨rest, rfl⟩
  · rintro ⟨rest, rfl⟩
    exact ⟨slash :: rest, rfl, rfl⟩

/-- A path below another is longer. -/
theorem length_lt_of_below (h : below path child = true)
    (hc : child ≠ [slash]) : path.length < child.length := by
  rcases below_iff.1 h with ⟨rfl, hh⟩ | ⟨rest, rfl⟩
  · match child, hh, hc with
    | [b], hh, hc => simp_all
    | b :: c :: rest, _, _ => simp
  · simp

/-- A parent's path: the mount's own, or one above. -/
def Above (path child : Bytes) : Prop := path = child ∨ below path child = true

theorem Above.length_le (h : Above path child) (hc : child ≠ [slash]) :
    path.length ≤ child.length := by
  rcases h with rfl | h
  · exact Nat.le_refl _
  · exact Nat.le_of_lt (length_lt_of_below h hc)

/-- An absolute path that is not `/`. -/
def Proper (path : Bytes) : Prop := path.head? = some slash ∧ path ≠ [slash]

theorem Proper.append (h : Proper path) (rest : Bytes) : Proper (path ++ rest) := by
  obtain ⟨hh, hne⟩ := h
  match path, hh, hne with
  | [b], hh, hne => exact absurd (congrArg (· :: []) (Option.some.inj hh)) hne
  | b :: c :: cs, hh, _ => exact ⟨hh, by simp⟩

/-- Being at or above is transitive over a proper path. -/
theorem Above.trans {middle : Bytes} (h : Above path middle) (h' : Above middle child)
    (hm : Proper middle) : Above path child := by
  rcases h' with rfl | h'
  · exact h
  rcases below_iff.1 h' with ⟨rfl, -⟩ | ⟨rest, rfl⟩
  · exact absurd rfl hm.2
  rcases h with rfl | h
  · exact .inr h'
  · refine .inr (below_iff.2 ((below_iff.1 h).imp ?_ ?_))
    · rintro ⟨rfl, -⟩
      exact ⟨rfl, (hm.append _).1⟩
    · rintro ⟨rest', rfl⟩
      exact ⟨rest' ++ slash :: rest, by simp⟩

/-- What two paths have after a common start decides which is above. -/
theorem Above.restart {start start' rest rest' : Bytes} (h : Above (start ++ rest) (start ++ rest'))
    (hs : Proper start) : Above (start' ++ rest) (start' ++ rest') := by
  rcases h with h | h
  · exact .inl (congrArg (start' ++ ·) (append_cancel_left h))
  rcases below_iff.1 h with ⟨h, -⟩ | ⟨more, h⟩
  · exact absurd h (hs.append rest).2
  · rw [append_assoc] at h
    exact .inr (below_iff.2 (.inr ⟨more, by rw [append_cancel_left h, append_assoc]⟩))

variable {ms : List MountRecord} {m : MountRecord}

theorem deepest_mem (h : deepest ms = some m) : m ∈ ms :=
  mem_reverse.1 (argmax_mem h)

theorem exists_deepest (h : m ∈ ms) : ∃ d, deepest ms = some d := by
  cases hd : deepest ms with
  | some d => exact ⟨d, rfl⟩
  | none =>
    rw [deepest, argmax_eq_none, reverse_eq_nil_iff] at hd
    rw [hd] at h
    cases h

theorem newest_mem (h : newest ms = some m) : m ∈ ms :=
  mem_reverse.1 (argmax_mem h)

theorem le_newest {n : MountRecord} (h : newest ms = some n) (hm : m ∈ ms) : m.id ≤ n.id :=
  le_of_mem_argmax (mem_reverse.2 hm) h

theorem exists_newest (h : m ∈ ms) : ∃ n, newest ms = some n := by
  cases hd : newest ms with
  | some d => exact ⟨d, rfl⟩
  | none =>
    rw [newest, argmax_eq_none, reverse_eq_nil_iff] at hd
    rw [hd] at h
    cases h

/-! ### Rooted mounts -/

/-- What a call keeps all through: `ρ` is the id of the base's mount at `/`, of kind `k` and from
the host path `h`, and `last` the last id given out. -/
structure Rooted (k h : Bytes) (ρ last : ℕ) (ms : List MountRecord) : Prop where
  nodup : (ms.map (·.id)).Nodup
  bound : ∀ m ∈ ms, m.id ≤ last ∧ m.parent ≤ last
  root : ∃ r ∈ ms, r.id = ρ ∧ r.parent = ρ ∧ r.guest = [slash] ∧ r.own = false ∧ r.kind = k ∧
    r.host = h
  only : ∀ m ∈ ms, m.guest = [slash] → m.id = ρ
  absolute : ∀ m ∈ ms, m.guest.head? = some slash
  above : ∀ m ∈ ms, m.id ≠ ρ → ∀ p ∈ ms, p.id = m.parent → Above p.guest m.guest
  ranked : Forest.Ranked MountRecord.id MountRecord.parent ρ ms

namespace Rooted

variable {k h : Bytes} {ρ last last' : ℕ} {ms ms' : List MountRecord}

variable (hr : Rooted k h ρ last ms)

include hr

theorem later (hl : last ≤ last') : Rooted k h ρ last' ms :=
  { hr with
    bound := fun m hm => ⟨Nat.le_trans (hr.bound m hm).1 hl, Nat.le_trans (hr.bound m hm).2 hl⟩ }

theorem eq_of_id {n : MountRecord} (hm : m ∈ ms) (hn : n ∈ ms) (h : m.id = n.id) : m = n :=
  inj_on_of_nodup_map hr.nodup hm hn h

theorem guest_ne (hm : m ∈ ms) (hne : m.id ≠ ρ) :
    m.guest ≠ [slash] := fun hg => hne (hr.only m hm hg)

/-- Mounts leave, but not the root. -/
theorem subset (hs : ms'.Sublist ms)
    (hroot : ∀ r ∈ ms, r.id = ρ → r.own = false → r.kind = k → r.guest = [slash] → r.host = h →
      r ∈ ms') :
    Rooted k h ρ last ms' where
  nodup := hr.nodup.sublist (hs.map _)
  bound := fun m hm => hr.bound m (hs.subset hm)
  root := by
    obtain ⟨r, hr, hid, hp, hg, ho, hk, hh⟩ := hr.root
    exact ⟨r, hroot r hr hid ho hk hg hh, hid, hp, hg, ho, hk, hh⟩
  only := fun m hm => hr.only m (hs.subset hm)
  absolute := fun m hm => hr.absolute m (hs.subset hm)
  above := fun m hm hne p hp => hr.above m (hs.subset hm) hne p (hs.subset hp)
  ranked := hr.ranked.subset hs.subset

/-- A new mount, on one at its path or above. -/
theorem append {x p : MountRecord} (hp : p ∈ ms)
    (hxp : x.parent = p.id) (hpx : Above p.guest x.guest) (hx : last < x.id) (hx' : x.id ≤ last')
    (hg : x.guest.head? = some slash) (hne : x.guest ≠ [slash]) :
    Rooted k h ρ last' (ms ++ [x]) := by
  have hlast : last ≤ last' := by omega
  have hfresh : ∀ m ∈ ms, m.id ≠ x.id := fun m hm he => by
    have := (hr.bound m hm).1
    omega
  have hnoparent : ∀ m ∈ ms, m.parent ≠ x.id := fun m hm he => by
    have := (hr.bound m hm).2
    omega
  refine ⟨?_, ?_, ?_, ?_, ?_, ?_, ?_⟩
  · rw [map_append, nodup_append]
    refine ⟨hr.nodup, nodup_singleton _, fun i hi j hj => ?_⟩
    obtain ⟨m, hm, rfl⟩ := mem_map.1 hi
    rw [mem_singleton.1 hj]
    exact hfresh m hm
  · intro m hm
    rcases mem_append.1 hm with hm | hm
    · exact (hr.later hlast).bound m hm
    · rw [mem_singleton.1 hm, hxp]
      exact ⟨hx', Nat.le_trans (hr.bound p hp).1 hlast⟩
  · obtain ⟨r, hm, hrest⟩ := hr.root
    exact ⟨r, mem_append_left _ hm, hrest⟩
  · intro m hm hmg
    rcases mem_append.1 hm with hm | hm
    · exact hr.only m hm hmg
    · rw [mem_singleton.1 hm] at hmg
      exact absurd hmg hne
  · intro m hm
    rcases mem_append.1 hm with hm | hm
    · exact hr.absolute m hm
    · rw [mem_singleton.1 hm]
      exact hg
  · intro m hm hmne q hq hqm
    rcases mem_append.1 hm with hm | hm
    · rcases mem_append.1 hq with hq | hq
      · exact hr.above m hm hmne q hq hqm
      · rw [mem_singleton.1 hq] at hqm
        exact absurd hqm.symm (hnoparent m hm)
    · rw [mem_singleton.1 hm] at hqm ⊢
      rcases mem_append.1 hq with hq | hq
      · rw [hr.eq_of_id hq hp (hqm.trans hxp)]
        exact hpx
      · rw [mem_singleton.1 hq] at hqm
        exact absurd (hqm.trans hxp).symm (hfresh p hp)
  · exact hr.ranked.leaf hnoparent hfresh fun he => hfresh p hp (hxp.symm.trans he)

end Rooted

/-! ### Regrafting -/

/-- `m` is a mount of `U`, on its old parent or on one strictly above its path. -/
def Graft (ρ : ℕ) (U : List MountRecord) (m : MountRecord) : Prop :=
  ∃ u ∈ U, m.id = u.id ∧ m.guest = u.guest ∧ m.own = u.own ∧ m.host = u.host ∧ m.kind = u.kind ∧
    (m.parent = u.parent ∨
      m.id ≠ ρ ∧ ∃ o ∈ U, o.id = m.parent ∧ below o.guest m.guest = true)

variable {ρ : ℕ} {U : List MountRecord}

theorem Graft.refl (hm : m ∈ U) : Graft ρ U m :=
  ⟨m, hm, rfl, rfl, rfl, rfl, rfl, .inl rfl⟩

theorem Graft.subset {U' : List MountRecord} (h : Graft ρ U m) (hs : U ⊆ U') : Graft ρ U' m := by
  obtain ⟨u, hu, hid, hg, ho, hh, hk, hp⟩ := h
  refine ⟨u, hs hu, hid, hg, ho, hh, hk, ?_⟩
  rcases hp with hp | ⟨hne, o, ho', hb⟩
  · exact .inl hp
  · exact .inr ⟨hne, o, hs ho', hb⟩

namespace Rooted

variable {k h : Bytes} {ρ last last' : ℕ} {ms ms' : List MountRecord}

variable (hr : Rooted k h ρ last ms)

include hr

/-- Mounts that were put on others above them, with the root among them, are rooted. -/
theorem graft (hn : (ms'.map (·.id)).Nodup)
    (hg : ∀ m ∈ ms', Graft ρ ms m) (hroot : ∃ r ∈ ms', r.id = ρ) : Rooted k h ρ last ms' := by
  have habove : ∀ m ∈ ms', m.id ≠ ρ → ∀ p ∈ ms', p.id = m.parent →
      below p.guest m.guest = true ∨
      Above p.guest m.guest ∧ ∃ m₀ ∈ ms, m₀.id = m.id ∧ m₀.parent = m.parent := by
    intro m hm hne p hp hpm
    obtain ⟨u, hu, hid, hgu, -, -, -, hpar⟩ := hg m hm
    obtain ⟨v, hv, hvid, hgv, -⟩ := hg p hp
    rcases hpar with hpar | ⟨-, o, ho, hop, hbel⟩
    · refine .inr ⟨?_, u, hu, hid.symm, hpar.symm⟩
      rw [hgv, hgu]
      exact hr.above u hu (hid ▸ hne) v hv (by rw [← hvid, hpm, hpar])
    · left
      rw [hgv, hr.eq_of_id hv ho (by rw [← hvid, hpm, hop])]
      exact hbel
  refine ⟨hn, ?_, ?_, ?_, ?_, ?_, ?_⟩
  · intro m hm
    obtain ⟨u, hu, hid, -, -, -, -, hpar⟩ := hg m hm
    refine ⟨hid ▸ (hr.bound u hu).1, ?_⟩
    rcases hpar with hpar | ⟨-, o, ho, hop, -⟩
    · rw [hpar]
      exact (hr.bound u hu).2
    · rw [← hop]
      exact (hr.bound o ho).1
  · obtain ⟨r, hrm, hrid⟩ := hroot
    obtain ⟨u, hu, hid, hgu, hou, hhu, hku, hpar⟩ := hg r hrm
    obtain ⟨r₀, hr₀, hid₀, hp₀, hg₀, ho₀, hk₀, hh₀⟩ := hr.root
    obtain rfl := hr.eq_of_id hu hr₀ (by rw [← hid, hrid, hid₀])
    refine ⟨r, hrm, hrid, ?_, hgu.trans hg₀, hou.trans ho₀, hku.trans hk₀, hhu.trans hh₀⟩
    rcases hpar with hpar | ⟨hne, -⟩
    · exact hpar.trans hp₀
    · exact absurd hrid hne
  · intro m hm hmg
    obtain ⟨u, hu, hid, hgu, -⟩ := hg m hm
    rw [hid]
    exact hr.only u hu (hgu ▸ hmg)
  · intro m hm
    obtain ⟨u, hu, -, hgu, -⟩ := hg m hm
    rw [hgu]
    exact hr.absolute u hu
  · intro m hm hne p hp hpm
    rcases habove m hm hne p hp hpm with hb | ha
    · exact .inr hb
    · exact ha.1
  · obtain ⟨len, hlen⟩ := Forest.exists_of_nodup (fun m : MountRecord => m.guest.length) hn
    refine hr.ranked.regraft len ?_ ?_
    · intro m hm
      obtain ⟨u, hu, hid, -⟩ := hg m hm
      exact ⟨u, hu, hid.symm⟩
    intro m hm hne p hp hpm
    have hmg : m.guest ≠ [slash] := by
      obtain ⟨u, hu, hid, hgu, -⟩ := hg m hm
      rw [hgu]
      exact hr.guest_ne hu (hid ▸ hne)
    rw [hlen m hm, hlen p hp]
    rcases habove m hm hne p hp hpm with hb | ⟨ha, hold⟩
    · exact .inl (length_lt_of_below hb hmg)
    · exact .inr ⟨ha.length_le hmg, hold⟩

/-- Of a mount other than the root, some mount lies above the path. -/
theorem exists_above (hne : m.id ≠ ρ) (hg : m.guest.head? = some slash) :
    ∃ o, deepest (ms.filter fun o => o.id ≠ m.id && below o.guest m.guest) = some o ∧ o ∈ ms ∧
      below o.guest m.guest = true := by
  obtain ⟨r, hrm, hrid, -, hrg, -⟩ := hr.root
  have hmem : r ∈ ms.filter fun o => o.id ≠ m.id && below o.guest m.guest := by
    refine mem_filter.2 ⟨hrm, ?_⟩
    rw [hrg, below_root hg, hrid]
    simpa using Ne.symm hne
  obtain ⟨o, ho⟩ := exists_deepest hmem
  obtain ⟨hom, hb⟩ := mem_filter.1 (deepest_mem ho)
  exact ⟨o, ho, hom, (by simpa using hb : _ ∧ _).2⟩

theorem root_parent (hm : m ∈ ms) (hid : m.id = ρ) : (ms.any fun p => p.id = m.parent) = true := by
  obtain ⟨r, hrm, hrid, hrp, -⟩ := hr.root
  rw [hr.eq_of_id hm hrm (hid.trans hrid.symm)]
  exact any_eq_true.2 ⟨r, hrm, by simp [hrid, hrp]⟩

/-- A repaired parent is a mount above. -/
theorem repair_graft : ∀ m ∈ repairParents ms, Graft ρ ms m := by
  intro m' hm'
  obtain ⟨m, hm, rfl⟩ := mem_map.1 hm'
  split_ifs with hc
  · exact .refl hm
  have hne : m.id ≠ ρ := fun he => hc (hr.root_parent hm he)
  obtain ⟨o, ho, hom, hb⟩ := hr.exists_above hne (hr.absolute m hm)
  refine ⟨m, hm, rfl, rfl, rfl, rfl, rfl, .inr ⟨hne, o, hom, ?_, hb⟩⟩
  simp only [ho]
  rfl

end Rooted

theorem ids_repairParents (ms : List MountRecord) :
    (repairParents ms).map (·.id) = ms.map (·.id) := by
  rw [repairParents, map_map]
  refine map_congr_left fun m _ => ?_
  simp only [Function.comp]
  split_ifs <;> rfl

theorem exists_repaired {p : MountRecord} (hp : p ∈ ms) : ∃ q ∈ repairParents ms, q.id = p.id := by
  have : p.id ∈ (repairParents ms).map (·.id) := by
    rw [ids_repairParents]
    exact mem_map.2 ⟨p, hp, rfl⟩
  obtain ⟨q, hq, he⟩ := mem_map.1 this
  exact ⟨q, hq, he⟩

/-- Every parent is there. -/
def Closed (ms : List MountRecord) : Prop := ∀ m ∈ ms, ∃ p ∈ ms, p.id = m.parent

namespace Rooted

variable {k h : Bytes} {ρ last last' : ℕ} {ms ms' : List MountRecord}

/-- The parents that are gone are replaced, by mounts strictly above. -/
theorem repair (hr : Rooted k h ρ last ms) : Rooted k h ρ last (repairParents ms) := by
  refine hr.graft (ids_repairParents ms ▸ hr.nodup) hr.repair_graft ?_
  obtain ⟨r, hrm, hrid, -⟩ := hr.root
  obtain ⟨q, hq, hqr⟩ := exists_repaired hrm
  exact ⟨q, hq, hqr.trans hrid⟩

end Rooted

/-! ### Fields the tree does not depend on -/

/-- The two records agree but for how they propagate and what they are bound from. -/
structure Alike (a b : MountRecord) : Prop where
  id : b.id = a.id
  parent : b.parent = a.parent
  guest : b.guest = a.guest
  own : b.own = a.own
  host : b.host = a.host
  kind : b.kind = a.kind

theorem Alike.refl (a : MountRecord) : Alike a a := ⟨rfl, rfl, rfl, rfl, rfl, rfl⟩

theorem Alike.trans {a b c : MountRecord} (h : Alike a b) (h' : Alike b c) : Alike a c :=
  ⟨h'.id.trans h.id, h'.parent.trans h.parent, h'.guest.trans h.guest, h'.own.trans h.own,
    h'.host.trans h.host, h'.kind.trans h.kind⟩

/-- Element by element. -/
def AllAlike (ms ms' : List MountRecord) : Prop := List.Forall₂ Alike ms ms'

theorem AllAlike.refl (ms : List MountRecord) : AllAlike ms ms :=
  forall₂_same.2 fun m _ => Alike.refl m

variable {ms' : List MountRecord}

section

variable (h : AllAlike ms ms')

include h

theorem AllAlike.trans {ms'' : List MountRecord} (h' : AllAlike ms' ms'') : AllAlike ms ms'' := by
  induction h generalizing ms'' with
  | nil => exact h'
  | cons hab _ ih =>
    cases h' with
    | cons hbc hrest => exact .cons (hab.trans hbc) (ih hrest)

theorem AllAlike.ids : ms'.map (·.id) = ms.map (·.id) := by
  induction h with
  | nil => rfl
  | cons hab _ ih => rw [map_cons, map_cons, hab.id, ih]

theorem AllAlike.exists_right (hm : m ∈ ms) : ∃ m' ∈ ms', Alike m m' := by
  induction h with
  | nil => cases hm
  | cons hab _ ih =>
    rcases mem_cons.1 hm with rfl | hm
    · exact ⟨_, .head _, hab⟩
    · obtain ⟨m', hm', ha⟩ := ih hm
      exact ⟨m', mem_cons_of_mem _ hm', ha⟩

theorem AllAlike.exists_left {m' : MountRecord} (hm : m' ∈ ms') : ∃ m ∈ ms, Alike m m' := by
  induction h with
  | nil => cases hm
  | cons hab _ ih =>
    rcases mem_cons.1 hm with rfl | hm
    · exact ⟨_, .head _, hab⟩
    · obtain ⟨m, hm, ha⟩ := ih hm
      exact ⟨m, mem_cons_of_mem _ hm, ha⟩

end

theorem Graft.alike {m' : MountRecord} (h : Graft ρ U m) (ha : Alike m m') : Graft ρ U m' := by
  obtain ⟨u, hu, hid, hg, ho, hh, hk, hp⟩ := h
  refine ⟨u, hu, ha.id.trans hid, ha.guest.trans hg, ha.own.trans ho, ha.host.trans hh,
    ha.kind.trans hk, ?_⟩
  rwa [ha.parent, ha.id, ha.guest]

/-- A mount regrafted on mounts that are alike others is regrafted on these. -/
theorem Graft.lift (h : Graft ρ ms m) (hU : ∀ m ∈ ms, ∃ u ∈ U, Alike u m) : Graft ρ U m := by
  obtain ⟨n, hn, hid, hg, ho, hh, hk, hp⟩ := h
  obtain ⟨u, hu, ha⟩ := hU n hn
  refine ⟨u, hu, hid.trans ha.id, hg.trans ha.guest, ho.trans ha.own, hh.trans ha.host,
    hk.trans ha.kind, ?_⟩
  rcases hp with hp | ⟨hne, o, ho', hop, hb⟩
  · exact .inl (hp.trans ha.parent)
  · obtain ⟨o', ho'', ha'⟩ := hU o ho'
    exact .inr ⟨hne, o', ho'', ha'.id.symm.trans hop, ha'.guest ▸ hb⟩

/-! ### The other changes -/

namespace Rooted

variable {k h : Bytes} {ρ last last' : ℕ} {ms ms' : List MountRecord}

variable (hr : Rooted k h ρ last ms)

include hr

theorem alike (ha : AllAlike ms ms') : Rooted k h ρ last ms' := by
  refine hr.graft (ha.ids ▸ hr.nodup) ?_ ?_
  · intro m hm
    obtain ⟨u, hu, hum⟩ := ha.exists_left hm
    exact (Graft.refl hu).alike hum
  · obtain ⟨r, hrm, hrid, -⟩ := hr.root
    obtain ⟨r', hr', hrr⟩ := ha.exists_right hrm
    exact ⟨r', hr', hrr.id.trans hrid⟩

/-- The last mount at a path is removed. -/
theorem remove (target : Bytes) : Rooted k h ρ last (removeAt ms target) := by
  refine hr.subset ?_ ?_
  · have := (eraseP_sublist (p := fun m : MountRecord => m.own && m.guest = target)
      (l := ms.reverse)).reverse
    rwa [reverse_reverse] at this
  · intro r hrm _ ho _ _ _
    rw [removeAt, mem_reverse]
    exact (mem_eraseP_of_neg (by simp [ho])).2 (mem_reverse.2 hrm)

/-- The root's chain of parents is the root. -/
theorem eq_root_of_under {i : ℕ}
    (hu : Forest.Under MountRecord.id MountRecord.parent ms i ρ) : i = ρ := by
  induction hu with
  | refl => rfl
  | tail _ hl ih =>
    obtain ⟨m, hm, hid, hp⟩ := hl
    obtain ⟨r, hrm, hrid, hrp, -⟩ := hr.root
    rw [hr.eq_of_id hm hrm (by rw [hid, ih, hrid]), hrp] at hp
    exact hp.symm

/-- A mount is detached with everything on it. -/
theorem detach (target : Bytes) : Rooted k h ρ last (detachAt ms target) := by
  rw [detachAt]
  split
  · next top htop =>
      refine hr.subset filter_sublist fun r hrm hid ho _ _ _ => ?_
      refine mem_filter.2 ⟨hrm, ?_⟩
      simp only [decide_eq_true_eq, hid, Forest.mem_growAll]
      intro hu
      -- then the detached mount is the root, but it is the namespace's own
      have htopm : top ∈ ms := mem_reverse.1 (mem_of_find?_eq_some htop)
      have he : top = r := hr.eq_of_id htopm hrm ((hr.eq_root_of_under hu).trans hid.symm)
      have hown : top.own = true := (by simpa using find?_some htop : _ ∧ _).1
      rw [he, ho] at hown
      cases hown
  · exact hr

end Rooted

/-- What a move must find: it takes something only from a proper path to a proper path; where it
takes a mount and leaves its parent, the parent is at the target or above it, or is below the target
as the mount is below the source; and where it takes the parent and leaves the mount, the mount is
below the target as its parent is below the source. -/
structure MoveOk (ms : List MountRecord) (source target : Bytes) : Prop where
  proper : ∀ m ∈ ms, moves source m = true → Proper source ∧ Proper target
  leaves : ∀ m ∈ ms, ∀ p ∈ ms, p.id = m.parent → moves source m = true → moves source p = false →
    Above p.guest target ∨ ∃ rest, p.guest = target ++ rest ∧ Above (source ++ rest) m.guest
  stays : ∀ m ∈ ms, ∀ p ∈ ms, p.id = m.parent → moves source m = false → moves source p = true →
    ∃ rest, p.guest = source ++ rest ∧ Above (target ++ rest) m.guest

variable {source target : Bytes}

/-- What a move takes has a path that is the source's or goes on with a slash after it. -/
theorem guest_of_moves (hm : moves source m = true) (hs : Proper source) :
    ∃ rest, m.guest = source ++ rest ∧ ∀ path, Above path (path ++ rest) := by
  simp only [moves, Bool.and_eq_true, Bool.or_eq_true, decide_eq_true_eq] at hm
  rcases hm.2 with hg | hg
  · exact ⟨[], by simp [hg], fun _ => .inl (append_nil _).symm⟩
  rcases below_iff.1 hg with ⟨hg, -⟩ | ⟨rest, hg⟩
  · exact absurd hg hs.2
  · exact ⟨slash :: rest, hg, fun _ => .inr (below_iff.2 (.inr ⟨rest, rfl⟩))⟩

/-- A mount and the one it is on, when the move takes one, both or none of them. -/
theorem above_move (hok : MoveOk ms source target) {p : MountRecord} (hm : m ∈ ms) (hp : p ∈ ms)
    (hpm : p.id = m.parent) (ha : Above p.guest m.guest) :
    Above (if moves source p then target ++ p.guest.drop source.length else p.guest)
      (if moves source m then target ++ m.guest.drop source.length else m.guest) := by
  cases hmm : moves source m with
  | true =>
    obtain ⟨hs, ht⟩ := hok.proper m hm hmm
    obtain ⟨rest, hg, habove⟩ := guest_of_moves hmm hs
    cases hmp : moves source p with
    | true =>
      obtain ⟨rest', hg', -⟩ := guest_of_moves hmp hs
      rw [hg, hg'] at ha
      simpa [hg, hg'] using ha.restart hs
    | false =>
      suffices h : Above p.guest (target ++ rest) by simpa [hg] using h
      rcases hok.leaves m hm p hp hpm hmm hmp with h | ⟨rest', hg', h⟩
      · exact h.trans (habove target) ht
      · rw [hg] at h
        rw [hg']
        exact h.restart hs
  | false =>
    cases hmp : moves source p with
    | true =>
      obtain ⟨rest, hg, h⟩ := hok.stays m hm p hp hpm hmm hmp
      simpa [hg] using h
    | false => simpa using ha

namespace Rooted

variable {k h : Bytes} {ρ last last' : ℕ} {ms ms' : List MountRecord}

/-- A move that finds what it must keeps the mounts rooted. -/
theorem move (hr : Rooted k h ρ last ms) (hok : MoveOk ms source target) :
    Rooted k h ρ last (moveTo ms source target) := by
  have hmoved : ∀ m' ∈ moveTo ms source target, ∃ m ∈ ms, m'.id = m.id ∧ m'.parent = m.parent ∧
      m'.guest = (if moves source m then target ++ m.guest.drop source.length else m.guest) := by
    intro m' hm'
    obtain ⟨m, hm, rfl⟩ := mem_map.1 hm'
    refine ⟨m, hm, ?_⟩
    split_ifs <;> exact ⟨rfl, rfl, rfl⟩
  have hids : (moveTo ms source target).map (·.id) = ms.map (·.id) := by
    rw [moveTo, map_map]
    refine map_congr_left fun m _ => ?_
    simp only [Function.comp]
    split_ifs <;> rfl
  -- the new path of what the move takes
  have htaken : ∀ m ∈ ms, moves source m = true → Proper (target ++ m.guest.drop source.length) :=
    fun m hm hc => (hok.proper m hm hc).2.append _
  refine ⟨hids ▸ hr.nodup, ?_, ?_, ?_, ?_, ?_, ?_⟩
  · intro m' hm'
    obtain ⟨m, hm, hid, hp, -⟩ := hmoved m' hm'
    rw [hid, hp]
    exact hr.bound m hm
  · obtain ⟨r, hrm, hrest⟩ := hr.root
    refine ⟨r, mem_map.2 ⟨r, hrm, ?_⟩, hrest⟩
    simp [moves, hrest.2.2.2.1]
  · intro m' hm' hg
    obtain ⟨m, hm, hid, -, hg'⟩ := hmoved m' hm'
    rw [hg'] at hg
    split_ifs at hg with hc
    · exact absurd hg (htaken m hm hc).2
    · exact hid.trans (hr.only m hm hg)
  · intro m' hm'
    obtain ⟨m, hm, -, -, hg'⟩ := hmoved m' hm'
    rw [hg']
    split_ifs with hc
    · exact (htaken m hm hc).1
    · exact hr.absolute m hm
  · intro m' hm' hne p' hp' hpm
    obtain ⟨m, hm, hid, hpar, hg⟩ := hmoved m' hm'
    obtain ⟨p, hp, hid', -, hg'⟩ := hmoved p' hp'
    have hpm' : p.id = m.parent := hid'.symm.trans (hpm.trans hpar)
    rw [hg, hg']
    exact above_move hok hm hp hpm' (hr.above m hm (hid ▸ hne) p hp hpm')
  · refine hr.ranked.regraft (fun _ => 0) ?_ ?_
    · intro m' hm'
      obtain ⟨m, hm, hid, -⟩ := hmoved m' hm'
      exact ⟨m, hm, hid.symm⟩
    · intro m' hm' _ _ _ _
      obtain ⟨m, hm, hid, hp, -⟩ := hmoved m' hm'
      exact .inr ⟨Nat.le_refl _, m, hm, hid.symm, hp.symm⟩

/-- A mount is put on another one at its path, and has none on it there. -/
theorem putOn (hr : Rooted k h ρ last ms) {top o : MountRecord} (htop : top ∈ ms) (ho : o ∈ ms)
    (hg : o.guest = top.guest) (hne : o.id ≠ top.id) (htg : top.guest ≠ [slash])
    (hno : ∀ m ∈ ms, m.guest = top.guest → m.parent ≠ top.id) :
    Rooted k h ρ last (ms.map fun m => if m.id = top.id then { m with parent := o.id } else m) := by
  have hroot : top.id ≠ ρ := fun he => by
    obtain ⟨r, hrm, hrid, -, hrg, -⟩ := hr.root
    rw [hr.eq_of_id htop hrm (he.trans hrid.symm)] at htg
    exact htg hrg
  have hput : ∀ m' ∈ ms.map (fun m => if m.id = top.id then { m with parent := o.id } else m),
      ∃ m ∈ ms, m'.id = m.id ∧ m'.guest = m.guest ∧
        (m.id = top.id ∧ m'.parent = o.id ∨ m.id ≠ top.id ∧ m' = m) := by
    intro m' hm'
    obtain ⟨m, hm, rfl⟩ := mem_map.1 hm'
    by_cases hc : m.id = top.id
    · rw [if_pos hc]
      exact ⟨m, hm, rfl, rfl, .inl ⟨hc, rfl⟩⟩
    · rw [if_neg hc]
      exact ⟨m, hm, rfl, rfl, .inr ⟨hc, rfl⟩⟩
  have hids : (ms.map fun m => if m.id = top.id then { m with parent := o.id } else m).map (·.id) =
      ms.map (·.id) := by
    rw [map_map]
    refine map_congr_left fun m _ => ?_
    simp only [Function.comp]
    split_ifs <;> rfl
  refine ⟨hids ▸ hr.nodup, ?_, ?_, ?_, ?_, ?_, ?_⟩
  · intro m' hm'
    obtain ⟨m, hm, hid, -, ⟨-, hp⟩ | ⟨-, rfl⟩⟩ := hput m' hm'
    · rw [hid, hp]
      exact ⟨(hr.bound m hm).1, (hr.bound o ho).1⟩
    · exact hr.bound _ hm
  · obtain ⟨r, hrm, hrest⟩ := hr.root
    refine ⟨r, mem_map.2 ⟨r, hrm, if_neg ?_⟩, hrest⟩
    rw [hrest.1]
    exact Ne.symm hroot
  · intro m' hm' hmg
    obtain ⟨m, hm, hid, hgm, -⟩ := hput m' hm'
    rw [hid]
    exact hr.only m hm (hgm ▸ hmg)
  · intro m' hm'
    obtain ⟨m, hm, -, hgm, -⟩ := hput m' hm'
    rw [hgm]
    exact hr.absolute m hm
  · intro m' hm' hmne p' hp' hpm
    obtain ⟨m, hm, hid, hgm, hcase⟩ := hput m' hm'
    obtain ⟨p, hp, hpid, hgp, -⟩ := hput p' hp'
    rw [hgm, hgp]
    rcases hcase with ⟨hmt, hpar⟩ | ⟨-, rfl⟩
    · left
      rw [hr.eq_of_id hp ho (by rw [← hpid, hpm, hpar]), hr.eq_of_id hm htop hmt, hg]
    · exact hr.above _ hm hmne p hp (hpid ▸ hpm)
  · obtain ⟨len, hlen⟩ := Forest.exists_of_nodup (fun m : MountRecord => m.guest.length) hr.nodup
    -- the mount that is put on the other counts as longer than its path
    refine hr.ranked.regraft (fun i => 2 * len i + if i = top.id then 1 else 0) ?_ ?_
    · intro m' hm'
      obtain ⟨m, hm, hid, -⟩ := hput m' hm'
      exact ⟨m, hm, hid.symm⟩
    intro m' hm' hmne p' hp' hpm
    obtain ⟨m, hm, hid, hgm, hcase⟩ := hput m' hm'
    obtain ⟨p, hp, hpid, hgp, -⟩ := hput p' hp'
    have hmg : m.guest ≠ [slash] := hr.guest_ne hm (hid ▸ hmne)
    have hlm : len m'.id = m.guest.length := by rw [hid]; exact hlen m hm
    have hlp : len p'.id = p.guest.length := by rw [hpid]; exact hlen p hp
    rw [hlm, hlp]
    rcases hcase with ⟨hmt, hpar⟩ | ⟨hmt, rfl⟩
    · left
      have hpo : p = o := hr.eq_of_id hp ho (by rw [← hpid, hpm, hpar])
      rw [if_pos (hid.trans hmt), if_neg (by rw [hpid, hpo]; exact hne), hpo, hg,
        hr.eq_of_id hm htop hmt]
      omega
    · right
      refine ⟨?_, _, hm, rfl, rfl⟩
      rw [if_neg hmt]
      have ha : Above p.guest m'.guest := hr.above _ hm hmne p hp (hpid ▸ hpm)
      split_ifs with hpt
      · have hptop : p = top := hr.eq_of_id hp htop (hpid ▸ hpt)
        rcases ha with ha | ha
        · exact absurd (hpm.symm.trans hpt) (hno _ hm (by rw [← ha, hptop]))
        · have := length_lt_of_below ha hmg
          omega
      · have := ha.length_le hmg
        omega

end Rooted

/-! ### Trees -/

/-- A link from a mount to its parent. -/
abbrev OnParent (ms : List MountRecord) : MountRecord → MountRecord → Prop :=
  Forest.Link MountRecord.id MountRecord.parent ms

/-- The mounts are a tree: following the parents from any of them ends at the root, the only one
that is its own parent, and every other one's parent is at its path or above. -/
structure IsTree (ms : List MountRecord) : Prop where
  nodup : (ms.map (·.id)).Nodup
  root : ∃ r ∈ ms, (∀ m ∈ ms, m.parent = m.id ↔ m = r) ∧
    ∀ m ∈ ms, Relation.ReflTransGen (OnParent ms) m r
  above : ∀ m ∈ ms, m.parent ≠ m.id → ∃ p ∈ ms, m.parent = p.id ∧ Above p.guest m.guest

/-- Rooted mounts whose parents are all there are a tree. -/
theorem Rooted.tree {k h : Bytes} {last : ℕ} (hr : Rooted k h ρ last ms)
    (hc : Closed ms) : IsTree ms where
  nodup := hr.nodup
  root := by
    obtain ⟨r, hrm, hrid, hrp, -⟩ := hr.root
    refine ⟨r, hrm, fun m hm => ⟨fun he => ?_, ?_⟩, fun m hm => ?_⟩
    · exact hr.eq_of_id hm hrm ((hr.ranked.eq_root hm he).trans hrid.symm)
    · rintro rfl
      exact hrp.trans hrid.symm
    · refine Forest.reaches_root hr.ranked (fun m hm => ?_) (fun m hm hid => ?_) hm
      · obtain ⟨p, hp, he⟩ := hc m hm
        exact ⟨p, hp, he.symm⟩
      · exact hr.eq_of_id hm hrm (hid.trans hrid.symm)
  above := by
    intro m hm hne
    obtain ⟨p, hp, he⟩ := hc m hm
    refine ⟨p, hp, he.symm, hr.above m hm (fun hid => hne ?_) p hp he⟩
    obtain ⟨r, hrm, hrid, hrp, -⟩ := hr.root
    rw [hr.eq_of_id hm hrm (hid.trans hrid.symm)]
    exact hrp.trans hrid.symm

end Mounts
