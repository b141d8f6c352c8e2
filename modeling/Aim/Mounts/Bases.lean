import Aim.Mounts.Calls

/-!
# Mounts — bases and clones

What the calls that take mounts from a base do to rooted mounts, and what a clone is.

* `initializeBase_ends`: a base with one mount at `/` gives rooted mounts.
* `replaceBase_ends`: another base with the same mount at `/` keeps them rooted.  All the mounts that
  come up in the call, also those that go, make one rooted table (`Replaced`).
* `bindBase_ends`: the mounts that went are put back, and the newest at the target is put on the one
  before; that keeps the mounts rooted when the base's mount at the target has nothing over it.
* `cloneMounts_ends`: a clone is the same mounts, their ids renamed one to one.
-/

namespace Mounts

open List

open Prog (wp wp_mono)

/-! ### Definitions -/

theorem mem_of_mapM_ok {α β : Type} {f : α → Except Error β} {l : List α} {bs : List β}
    (h : l.mapM f = .ok bs) {b : β} (hb : b ∈ bs) : ∃ a ∈ l, f a = .ok b := by
  induction l generalizing bs with
  | nil =>
    rw [mapM_nil] at h
    obtain rfl : [] = bs := Except.ok.inj h
    cases hb
  | cons a l ih =>
    rw [mapM_cons] at h
    cases ha : f a with
    | error e => rw [ha] at h; cases h
    | ok c =>
      rw [ha] at h
      cases hl : l.mapM f with
      | error e => rw [hl] at h; cases h
      | ok cs =>
        rw [hl] at h
        obtain rfl : c :: cs = bs := Except.ok.inj h
        rcases mem_cons.1 hb with rfl | hb
        · exact ⟨a, .head _, ha⟩
        · obtain ⟨a', ha', he⟩ := ih hl hb
          exact ⟨a', mem_cons_of_mem _ ha', he⟩

variable {base : Bytes} {defs : List MountRecord}

theorem mem_definitions (h : definitions base = .ok defs) {d : MountRecord} (hd : d ∈ defs) :
    d.guest.head? = some slash ∧ d.own = false ∧ d.kind ∈ kinds := by
  rw [definitions] at h
  cases hf : (lines base).mapM fun line => definition line false with
  | error e => rw [hf] at h; cases h
  | ok found =>
    rw [hf] at h
    obtain rfl : found.reduceOption = defs := Except.ok.inj h
    obtain ⟨o, ho, hod⟩ := mem_filterMap.1 hd
    obtain ⟨line, -, hl⟩ := mem_of_mapM_ok hf ho
    exact definition_some (hl.trans (congrArg _ hod))

/-- The base mounts `/` once, a mount of kind `k` from the host path `h`. -/
def BaseOk (k h base : Bytes) : Prop :=
  ∀ defs, definitions base = .ok defs →
    ∃ d, defs.filter (fun d => d.guest = [slash]) = [d] ∧ d.kind = k ∧ d.host = h

/-! ### Initializing -/

variable {d : MountRecord}

theorem root_mem (hd : defs.filter (fun d => d.guest = [slash]) = [d]) :
    d ∈ defs ∧ d.guest = [slash] := by
  have : d ∈ defs.filter fun d => d.guest = [slash] := hd ▸ mem_singleton_self d
  simpa using this

/-- Sorted by length, the mount at `/` is the first. -/
theorem sorted_root (habs : ∀ d ∈ defs, d.guest.head? = some slash)
    (hd : defs.filter (fun d => d.guest = [slash]) = [d]) :
    ∃ rest, defs.insertionSort (fun a b => a.guest.length ≤ b.guest.length) = d :: rest ∧
      ∀ e ∈ rest, e.guest.head? = some slash ∧ e.guest ≠ [slash] := by
  have hperm := perm_insertionSort
    (fun a b : MountRecord => a.guest.length ≤ b.guest.length) defs
  have hsorted : (defs.insertionSort fun a b => a.guest.length ≤ b.guest.length).Pairwise
      fun a b => a.guest.length ≤ b.guest.length :=
    pairwise_insertionSort _ _
  generalize defs.insertionSort (fun a b => a.guest.length ≤ b.guest.length) = l at hperm hsorted
  have hfilter : (l.filter fun d => d.guest = [slash]).Perm [d] := hd ▸ hperm.filter _
  have hl : l.filter (fun d => d.guest = [slash]) = [d] := perm_singleton.1 hfilter
  have hdm := root_mem hl
  cases l with
  | nil => cases hdm.1
  | cons e rest =>
    have habs' : ∀ x ∈ e :: rest, x.guest.head? = some slash :=
      fun x hx => habs x (hperm.subset hx)
    have hlen : e.guest.length ≤ 1 := by
      rcases mem_cons.1 hdm.1 with he | hr
      · rw [← he, hdm.2]; exact Nat.le_refl 1
      · have := (pairwise_cons.1 hsorted).1 d hr
        rw [hdm.2] at this
        exact this
    have heg : e.guest = [slash] := by
      have hh := habs' e (.head _)
      match e.guest, hlen, hh with
      | [b], _, hh => simpa using hh
      | [], _, hh => simp at hh
      | b :: c :: t, hlen, _ => simp at hlen
    rw [filter_cons_of_pos (by simpa using heg)] at hl
    obtain ⟨rfl, hnil⟩ := List.cons.inj hl
    refine ⟨rest, rfl, fun x hx => ⟨habs' x (.tail _ hx), fun hxg => ?_⟩⟩
    simpa [hxg] using filter_eq_nil_iff.1 hnil x hx

variable {last : ℕ}

theorem rooted_singleton {r : MountRecord} (hid : r.id ≤ last) (hp : r.parent = r.id)
    (hg : r.guest = [slash]) (ho : r.own = false) : Rooted r.kind r.host r.id last [r] where
  nodup := nodup_singleton _
  bound := by
    intro m hm
    rw [mem_singleton.1 hm, hp]
    exact ⟨hid, hid⟩
  root := ⟨r, mem_singleton_self r, rfl, hp, hg, ho, rfl, rfl⟩
  only := fun m hm _ => by rw [mem_singleton.1 hm]
  absolute := fun m hm => by rw [mem_singleton.1 hm, hg]; rfl
  above := fun m hm hne => absurd (by rw [mem_singleton.1 hm]) hne
  ranked := ⟨fun _ => 0, fun m hm hne => absurd (by rw [mem_singleton.1 hm]) hne⟩

variable {k h : Bytes}

theorem initializeBase_ends (hb : BaseOk k h base) (ids : Ids) :
    Ends (initializeBase base) (fun ms ids' => k ∈ kinds ∧ (∃ ρ, Rooted k h ρ ids'.last ms) ∧
      Closed ms) ids := by
  refine Ends.bind (Q := fun defs ids' => definitions base = .ok defs)
    (.ofExcept fun defs hd => hd) fun defs ids₀ _ hdefs => ?_
  obtain ⟨d, hd, hdk, hdh⟩ := hb defs hdefs
  have hdm := root_mem hd
  obtain ⟨rest, hrest, hne⟩ := sorted_root (fun d hd => (mem_definitions hdefs hd).1) hd
  dsimp only
  rw [hrest, foldlM_cons]
  refine Ends.bind (Q := fun ms ids' => ∃ ρ, Rooted k h ρ ids'.last ms) ?_
    fun ms₁ ids₁ _ h₁ => ?_
  · refine (Mounts.insert_ends [] d ids₀).bind ?_
    rintro _ ids₁ _ ⟨x, rfl, hx, hlt, hle⟩
    have hroot : Rooted k h x.id ids₁.last [x] := by
      have := rooted_singleton (r := x) hle (by rw [hx.parent]; rfl) (hx.guest.trans hdm.2)
        (hx.own.trans (mem_definitions hdefs hdm.1).2.1)
      rwa [hx.kind, hx.host, hdk, hdh] at this
    refine (Ends.foldlM (fun rest ms ids' => Rooted k h x.id ids'.last ms ∧
      ∀ e ∈ rest, e.guest.head? = some slash ∧ e.guest ≠ [slash]) ⟨hroot, hne⟩ ?_).mono
      fun ms ids' _ h => ⟨x.id, h.1⟩
    rintro e rest ms ids' ⟨hr, hrest⟩
    obtain ⟨hg, hne⟩ := hrest e (.head _)
    exact (hr.insert_ends hg hne).mono fun _ _ _ h =>
      ⟨h, fun x hx => hrest x (.tail _ hx)⟩
  · obtain ⟨ρ, h₁⟩ := h₁
    refine (applyPolicies_ends ms₁ base ids₁).bind fun ms₂ ids₂ hl h₂ => ?_
    exact validated_ends fun hc =>
      ⟨hdk ▸ (mem_definitions hdefs hdm.1).2.2, ⟨ρ, (h₁.later hl).alike h₂⟩, hc⟩

/-! ### Another base -/

/-- What `replaceBase` leaves of the mounts `ms`: with those that went and those that came, they make
the rooted mounts `ms ++ news`. -/
structure Replaced (k h base : Bytes) (ρ last last' : ℕ) (ms news ms' : List MountRecord) : Prop where
  rooted : Rooted k h ρ last' (ms ++ news)
  new : ∀ u ∈ news, last < u.id ∧ u.parent < u.id
  graft : ∀ m ∈ ms', Graft ρ (ms ++ news) m
  nodup : (ms'.map (·.id)).Nodup
  root : ∃ r ∈ ms', r.id = ρ
  installed : ∀ defs, definitions base = .ok defs → ∀ d ∈ defs,
    ∃ n ∈ ms', n.own = false ∧ installs d n = true

variable {ρ : ℕ} {ms : List MountRecord} {last' : ℕ}

theorem Replaced.rooted' {news ms' : List MountRecord}
    (hr : Replaced k h base ρ last last' ms news ms') : Rooted k h ρ last' ms' :=
  hr.rooted.graft hr.nodup hr.graft hr.root

variable {m : MountRecord}

theorem installs_iff :
    installs d m = true ↔ d.guest = m.guest ∧ d.host = m.host ∧ d.kind = m.kind := by
  simp [installs, and_assoc]

theorem installs_alike {m' : MountRecord} (h : installs d m = true) (hid : m'.guest = m.guest)
    (hh : m'.host = m.host) (hk : m'.kind = m.kind) : installs d m' = true := by
  rw [installs_iff] at h ⊢
  rw [hid, hh, hk]
  exact h

variable {ids : Ids}

section Replace

variable {k h base : Bytes} {ρ : ℕ} {ms defs : List MountRecord}

/-- The mounts that are kept, with the new ones. -/
theorem Rooted.keep {last : ℕ} {kept news : List MountRecord} (hU : Rooted k h ρ last (ms ++ news))
    (hkept : kept.Sublist ms) {r : MountRecord} (hr : r ∈ kept) (hg : r.guest = [slash]) :
    Rooted k h ρ last (kept ++ news) := by
  refine hU.subset (hkept.append (List.Sublist.refl _)) fun r' hr' hid _ _ _ _ => ?_
  have hrU : r ∈ ms ++ news := mem_append_left _ (hkept.subset hr)
  rw [hU.eq_of_id hr' hrU (hid.trans (hU.only r hrU hg).symm)]
  exact mem_append_left _ hr

/-- The loop over the definitions. -/
theorem insertBases_ends (hr : Rooted k h ρ ids.last ms) {kept : List MountRecord}
    (hkept : kept.Sublist ms) (hroot : ∃ r ∈ kept, r.guest = [slash] ∧ r.own = false ∧ r.kind = k ∧
      r.host = h)
    (hdefs : ∀ d ∈ defs, d.guest.head? = some slash ∧ d.own = false ∧
      (d.guest = [slash] → d.kind = k ∧ d.host = h)) :
    Ends (defs.foldlM insertBase kept) (fun ms' ids' => ∃ news, ms' = kept ++ news ∧
      Rooted k h ρ ids'.last (ms ++ news) ∧ (∀ u ∈ news, ids.last < u.id ∧ u.parent < u.id) ∧
      ∀ d ∈ defs, ∃ n ∈ ms', n.own = false ∧ installs d n = true) ids := by
  refine (Ends.foldlM (fun rest ms' ids' => ids.last ≤ ids'.last ∧
      (∀ d ∈ rest, d ∈ defs) ∧ ∃ news, ms' = kept ++ news ∧
      Rooted k h ρ ids'.last (ms ++ news) ∧ (∀ u ∈ news, ids.last < u.id ∧ u.parent < u.id) ∧
      ∀ d ∈ defs, d ∈ rest ∨ ∃ n ∈ ms', n.own = false ∧ installs d n = true)
    ⟨Nat.le_refl _, fun _ h => h, [], by simp, by simpa using hr, by simp, fun d hd => .inl hd⟩
    ?_).mono ?_
  · rintro d rest _ ids' ⟨hl, hrest, news, rfl, hU, hnew, hin⟩
    have hd := hrest d (.head _)
    obtain ⟨hdg, hdo, hdr⟩ := hdefs d hd
    have hrest' : ∀ e ∈ rest, e ∈ defs := fun e he => hrest e (.tail _ he)
    rw [insertBase]
    split_ifs with hc
    · obtain ⟨n, hn, hnc⟩ := any_eq_true.1 hc
      refine .pure ⟨hl, hrest', news, rfl, hU, hnew, fun e he => ?_⟩
      rcases hin e he with he | he
      · rcases mem_cons.1 he with rfl | he
        · exact .inr ⟨n, hn, by simpa using hnc⟩
        · exact .inl he
      · exact .inr he
    · -- the mount at `/` is installed
      have hdne : d.guest ≠ [slash] := by
        intro hg
        obtain ⟨r, hrm, hrg, hro, hrk, hrh⟩ := hroot
        obtain ⟨hdk, hdh⟩ := hdr hg
        refine hc (any_eq_true.2 ⟨r, mem_append_left _ hrm, ?_⟩)
        rw [hro, installs_iff.2 ⟨hg.trans hrg.symm, hdh.trans hrh.symm, hdk.trans hrk.symm⟩]
        rfl
      have hsub : (kept ++ news).Sublist (ms ++ news) := hkept.append (List.Sublist.refl _)
      obtain ⟨r, hrm, hrg, -⟩ := hroot
      have hcur := hU.keep hkept hrm hrg
      refine (Mounts.insert_ends (kept ++ news) d ids').mono ?_
      rintro _ ids'' hl' ⟨x, rfl, hx, hlt, hle⟩
      obtain ⟨p, hp, hxp, ha⟩ := hcur.exists_parent hx hdg
      have hpU : p ∈ ms ++ news := hsub.subset hp
      refine ⟨Nat.le_trans hl hl', hrest', news ++ [x], by simp, ?_, ?_, ?_⟩
      · rw [← append_assoc]
        exact hU.append hpU hxp ha hlt hle (hx.guest ▸ hdg) (hx.guest ▸ hdne)
      · intro u hu
        rcases mem_append.1 hu with hu | hu
        · exact hnew u hu
        · rw [mem_singleton.1 hu, hxp]
          have := (hU.bound p hpU).1
          omega
      · intro e he
        rcases hin e he with he | ⟨n, hn, hnc⟩
        · rcases mem_cons.1 he with rfl | he
          · refine .inr ⟨x, by simp, hx.own.trans hdo, ?_⟩
            exact installs_iff.2 ⟨hx.guest.symm, hx.host.symm, hx.kind.symm⟩
          · exact .inl he
        · exact .inr ⟨n, mem_append_left _ hn, hnc⟩
  · rintro ms' ids' _ ⟨-, -, news, rfl, hU, hnew, hin⟩
    exact ⟨news, rfl, hU, hnew, fun d hd => (hin d hd).resolve_left (by simp)⟩

theorem replaceBase_ends {oldBase : Bytes} (hr : Rooted k h ρ ids.last ms) (hb : BaseOk k h base) :
    Ends (replaceBase ms oldBase base) (fun ms' ids' =>
      (∃ news, Replaced k h base ρ ids.last ids'.last ms news ms') ∧ Closed ms') ids := by
  refine Ends.bind (Q := fun defs ids' => ids' = ids ∧ definitions base = .ok defs)
    (.ofExcept fun defs hd => ⟨rfl, hd⟩) ?_
  rintro defs _ - ⟨rfl, hdefs⟩
  obtain ⟨d, hd, hdk, hdh⟩ := hb defs hdefs
  have hdm : ∀ e ∈ defs, e.guest = [slash] ↔ e = d := by
    intro e he
    have : e ∈ defs.filter (fun d => d.guest = [slash]) ↔ e = d := by rw [hd]; simp
    rw [← this, mem_filter]
    simp [he]
  have hdd := root_mem hd
  have hkroot : ∃ r ∈ ms.filter (fun m => m.own || defs.any fun d => installs d m),
      r.guest = [slash] ∧ r.own = false ∧ r.kind = k ∧ r.host = h := by
    obtain ⟨r, hrm, -, -, hrg, hro, hrk, hrh⟩ := hr.root
    refine ⟨r, mem_filter.2 ⟨hrm, ?_⟩, hrg, hro, hrk, hrh⟩
    rw [hro, Bool.false_or]
    refine any_eq_true.2 ⟨d, hdd.1, installs_iff.2 ⟨?_, ?_, ?_⟩⟩
    · rw [hdd.2, hrg]
    · rw [hdh, hrh]
    · rw [hdk, hrk]
  have hall : ∀ e ∈ defs, e.guest.head? = some slash ∧ e.own = false ∧
      (e.guest = [slash] → e.kind = k ∧ e.host = h) := by
    intro e he
    obtain ⟨hg, ho, -⟩ := mem_definitions hdefs he
    refine ⟨hg, ho, fun heg => ?_⟩
    rw [(hdm e he).1 heg]
    exact ⟨hdk, hdh⟩
  refine (insertBases_ends hr filter_sublist hkroot hall).bind ?_
  rintro ms₁ ids₁ hl₁ ⟨news, rfl, hU, hnew, hin⟩
  refine (applyPolicies_ends _ _ ids₁).bind fun ms₂ ids₂ hl₂ h₂ => validated_ends fun hc => ?_
  obtain ⟨r, hrm, hrg, -⟩ := hkroot
  have h₂r : Rooted k h ρ ids₁.last ms₂ := (hU.keep filter_sublist hrm hrg).alike h₂
  refine ⟨⟨news, ⟨hU.later hl₂, hnew, ?_, h₂r.repair.nodup, ?_, ?_⟩⟩, hc⟩
  · intro m hm
    refine (h₂r.repair_graft m hm).lift fun m₂ hm₂ => ?_
    obtain ⟨m₁, hm₁, ha⟩ := h₂.exists_left hm₂
    exact ⟨m₁, (filter_sublist.append (List.Sublist.refl _)).subset hm₁, ha⟩
  · obtain ⟨r, hrm, hrid, -⟩ := h₂r.repair.root
    exact ⟨r, hrm, hrid⟩
  · intro defs' hdefs' e he
    obtain rfl := Except.ok.inj (hdefs.symm.trans hdefs')
    obtain ⟨n, hn, hno, hni⟩ := hin e he
    obtain ⟨n₂, hn₂, ha⟩ := h₂.exists_right hn
    obtain ⟨n₃, hn₃, hid⟩ := exists_repaired hn₂
    obtain ⟨u, hu, huid, hug, huo, huh, huk, -⟩ := h₂r.repair_graft n₃ hn₃
    obtain rfl := h₂r.eq_of_id hu hn₂ (huid.symm.trans hid)
    exact ⟨n₃, hn₃, huo.trans (ha.own.trans hno), installs_alike hni (hug.trans ha.guest)
      (huh.trans ha.host) (huk.trans ha.kind)⟩

end Replace

/-! ### Binding over a target -/

theorem putBack_cons (ms : List MountRecord) (item : MountRecord) (previous : List MountRecord) :
    putBack ms (item :: previous) =
      putBack (if ms.any fun m => m.id = item.id then ms else ms ++ [item]) previous := rfl

variable {previous : List MountRecord}

theorem mem_putBack (h : m ∈ putBack ms previous) : m ∈ ms ∨ m ∈ previous := by
  induction previous generalizing ms with
  | nil => exact .inl h
  | cons item previous ih =>
    rw [putBack_cons] at h
    rcases ih h with h | h
    · split_ifs at h
      · exact .inl h
      · rcases mem_append.1 h with h | h
        · exact .inl h
        · rw [mem_singleton.1 h]
          exact .inr (.head _)
    · exact .inr (.tail _ h)

theorem subset_putBack (ms previous : List MountRecord) : ms ⊆ putBack ms previous := by
  induction previous generalizing ms with
  | nil => exact fun _ h => h
  | cons item previous ih =>
    rw [putBack_cons]
    refine fun m hm => ih _ ?_
    split_ifs
    · exact hm
    · exact mem_append_left _ hm

theorem exists_putBack {item : MountRecord}
    (h : item ∈ previous) : ∃ m ∈ putBack ms previous, m.id = item.id := by
  induction previous generalizing ms with
  | nil => cases h
  | cons i previous ih =>
    rw [putBack_cons]
    rcases mem_cons.1 h with rfl | h
    · split_ifs with hc
      · obtain ⟨m, hm, he⟩ := any_eq_true.1 hc
        exact ⟨m, subset_putBack _ _ hm, by simpa using he⟩
      · exact ⟨item, subset_putBack _ _ (by simp), rfl⟩
    · exact ih h

theorem nodup_putBack (h : (ms.map (·.id)).Nodup) : ((putBack ms previous).map (·.id)).Nodup := by
  induction previous generalizing ms with
  | nil => exact h
  | cons item previous ih =>
    rw [putBack_cons]
    refine ih ?_
    split_ifs with hc
    · exact h
    rw [map_append, map_singleton, nodup_append]
    refine ⟨h, nodup_singleton _, fun i hi j hj => ?_⟩
    obtain ⟨m, hm, rfl⟩ := mem_map.1 hi
    rw [mem_singleton.1 hj]
    exact fun he => hc (any_eq_true.2 ⟨m, hm, by simpa using he⟩)

/-- When one element at most passes the test, the last that does is that one. -/
theorem modifyLast_eq_map {α : Type} {p : α → Bool} {f : α → α} {l : List α}
    (h : l.Pairwise fun a b => ¬ (p a = true ∧ p b = true)) :
    modifyLast p f l = l.map fun a => if p a then f a else a := by
  have hgo : ∀ l : List α, (l.Pairwise fun a b => ¬ (p a = true ∧ p b = true)) →
      modifyLast.go p f l = l.map fun a => if p a then f a else a := by
    intro l hl
    induction l with
    | nil => rfl
    | cons a l ih =>
      rw [modifyLast.go, map_cons]
      obtain ⟨ha, hl⟩ := pairwise_cons.1 hl
      split_ifs with hp
      · have hid : (l.map fun b => if p b then f b else b) = l.map id :=
          map_congr_left fun b hb => if_neg fun hb' => ha b hb ⟨hp, hb'⟩
        rw [hid, map_id]
      · rw [ih hl]
  have hrev : l.reverse.Pairwise fun a b => ¬ (p a = true ∧ p b = true) :=
    pairwise_reverse.2 (h.imp fun hab hba => hab hba.symm)
  rw [modifyLast, hgo _ hrev, map_reverse, reverse_reverse]

/-- The base's mount at the target, if it is installed, has no newer mount over it. -/
def BindOk (ms : List MountRecord) (base target : Bytes) : Prop :=
  ∀ defs d, definitions base = .ok defs → defs.find? (fun d => d.guest = target) = some d →
    ∀ m ∈ ms, m.own = false → installs d m = true → ∀ m' ∈ ms, m'.guest = target → m'.id ≤ m.id

section Bind

variable {k h base target : Bytes} {ρ last last' : ℕ} {ms news ms' : List MountRecord}

variable (hR : Replaced k h base ρ last last' ms news ms')

include hR

/-- Some mount at the target is new, or will be: the installed one is the newest there. -/
theorem Replaced.exists_new
    (hr : Rooted k h ρ last ms) {old : MountRecord}
    (hdefs : definitions base = .ok defs) (hd : defs.find? (fun d => d.guest = target) = some d)
    (hok : BindOk ms base target)
    (hold : newest (ms.filter fun m => m.guest = target) = some old)
    (hl : (newest (ms'.filter fun m => m.guest = target && m.host = d.host)).map (·.id) ≠
      some old.id) :
    ∃ t ∈ ms', t.guest = target ∧ last < t.id := by
  have hdg : d.guest = target := by simpa using find?_some hd
  have holdm : old ∈ ms ∧ old.guest = target := by
    simpa using mem_filter.1 (newest_mem hold)
  obtain ⟨n, hn, hno, hni⟩ := hR.installed defs hdefs d (mem_of_find?_eq_some hd)
  have hni' := installs_iff.1 hni
  have hnf : n ∈ ms'.filter fun m => m.guest = target && m.host = d.host :=
    mem_filter.2 ⟨hn, by simp [← hni'.1, ← hni'.2.1, hdg]⟩
  obtain ⟨l, hlatest⟩ := exists_newest hnf
  rw [hlatest] at hl
  have hlm : l ∈ ms' ∧ l.guest = target := by
    have := mem_filter.1 (newest_mem hlatest)
    simp only [Bool.and_eq_true, decide_eq_true_eq] at this
    exact ⟨this.1, this.2.1⟩
  have hnl : n.id ≤ l.id := le_newest hlatest hnf
  refine ⟨l, hlm.1, hlm.2, ?_⟩
  obtain ⟨u, hu, hid, hug, -⟩ := hR.graft l hlm.1
  rcases mem_append.1 hu with hu | hu
  · -- an older mount at the target is not the latest of that host path
    exfalso
    have hlo : l.id ≤ old.id := by
      rw [hid]
      exact le_newest hold (mem_filter.2 ⟨hu, by simp [← hug, hlm.2]⟩)
    have hlne : l.id ≠ old.id := fun he => hl (congrArg some he)
    obtain ⟨w, hw, hwid, hwg, hwo, hwh, hwk, -⟩ := hR.graft n hn
    rcases mem_append.1 hw with hw | hw
    · have := hok defs d hdefs hd w hw (hwo ▸ hno)
        (installs_iff.2 ⟨by rw [hni'.1, hwg], by rw [hni'.2.1, hwh], by rw [hni'.2.2, hwk]⟩)
        old holdm.1 holdm.2
      omega
    · have := (hR.new w hw).1
      have := (hr.bound old holdm.1).1
      omega
  · rw [hid]
    exact (hR.new u hu).1

/-- The newest mount at the target, a new one, is put on the one before. -/
theorem Replaced.putOn (hr : Rooted k h ρ last ms)
    (ht : target ≠ [slash]) {old : MountRecord} (hold : old ∈ ms) (hog : old.guest = target)
    (hold' : ∃ m ∈ ms', m.id = old.id) (hnew : ∃ t ∈ ms', t.guest = target ∧ last < t.id) :
    Rooted k h ρ last' (Mounts.putOn ms' target old.id) := by
  have hr' := hR.rooted'
  have holdlast := (hr.bound old hold).1
  obtain ⟨o, ho, hoid⟩ := hold'
  obtain ⟨t, htm, htg, htlast⟩ := hnew
  have hog' : o.guest = target := by
    obtain ⟨u, hu, hid, hug, -⟩ := hR.graft o ho
    rw [hug, hR.rooted.eq_of_id hu (mem_append_left _ hold) (hid.symm.trans hoid), hog]
  have htf : t ∈ ms'.filter fun m => m.guest = target && m.id ≠ old.id :=
    mem_filter.2 ⟨htm, by simp [htg, show t.id ≠ old.id by omega]⟩
  obtain ⟨top, htop⟩ := exists_newest htf
  have htopf := mem_filter.1 (newest_mem htop)
  simp only [Bool.and_eq_true, decide_eq_true_eq] at htopf
  obtain ⟨htopm, htopg, htopne⟩ := htopf
  have htoplast : last < top.id := Nat.lt_of_lt_of_le htlast (le_newest htop htf)
  rw [Mounts.putOn, htop]
  dsimp only
  have hpair : ms'.Pairwise fun a b =>
      ¬ ((decide (a.guest = target) && decide (a.id = top.id)) = true ∧
        (decide (b.guest = target) && decide (b.id = top.id)) = true) := by
    refine (pairwise_map.1 hR.nodup).imp fun hab hboth => hab ?_
    simp only [Bool.and_eq_true, decide_eq_true_eq] at hboth
    exact hboth.1.2.trans hboth.2.2.symm
  have hmap : (ms'.map fun m => if (decide (m.guest = target) && decide (m.id = top.id)) = true then
      { m with parent := old.id } else m) =
      ms'.map fun m => if m.id = top.id then { m with parent := o.id } else m := by
    refine map_congr_left fun m hm => ?_
    by_cases hmt : m.id = top.id
    · have hmg : m.guest = target := by rw [hr'.eq_of_id hm htopm hmt, htopg]
      rw [if_pos hmt, if_pos (by simp [hmg, hmt]), hoid]
    · rw [if_neg hmt, if_neg (by simp [hmt])]
  rw [modifyLast_eq_map hpair, hmap]
  refine hr'.putOn htopm ho (hog'.trans htopg.symm) (by rw [hoid]; exact Ne.symm htopne)
    (htopg ▸ ht) fun m hm hmg hmp => ?_
  obtain ⟨u, hu, hid, hug, -, -, -, hpar⟩ := hR.graft m hm
  rcases hpar with hpar | ⟨-, q, hq, hqp, hb⟩
  · rcases mem_append.1 hu with hu | hu
    · have := (hr.bound u hu).2
      omega
    have hlt := hR.new u hu
    have hmf : m ∈ ms'.filter fun m => m.guest = target && m.id ≠ old.id :=
      mem_filter.2 ⟨hm, by simp [hmg.trans htopg, show m.id ≠ old.id by omega]⟩
    have := le_newest htop hmf
    omega
  · -- a mount is not strictly above its own path
    obtain ⟨v, hv, hvid, hvg, -⟩ := hR.graft top htopm
    rw [hR.rooted.eq_of_id hq hv (by rw [hqp, hmp, hvid]), ← hvg, ← hmg] at hb
    exact Nat.lt_irrefl _ (length_lt_of_below hb (by rw [hmg, htopg]; exact ht))

theorem Replaced.putBack (hp : previous ⊆ ms) :
    Replaced k h base ρ last last' ms news (Mounts.putBack ms' previous) where
  rooted := hR.rooted
  new := hR.new
  graft := by
    intro m hm
    rcases mem_putBack hm with hm | hm
    · exact hR.graft m hm
    · exact .refl (mem_append_left _ (hp hm))
  nodup := nodup_putBack hR.nodup
  root := by
    obtain ⟨r, hr, hid⟩ := hR.root
    exact ⟨r, subset_putBack _ _ hr, hid⟩
  installed := by
    intro defs hdefs d hd
    obtain ⟨n, hn, hni⟩ := hR.installed defs hdefs d hd
    exact ⟨n, subset_putBack _ _ hn, hni⟩

/-- A new mount joins what `replaceBase` has left. -/
theorem Replaced.append {last'' : ℕ} {record x : MountRecord} (hx : Inserted ms' record x)
    (hlast : last ≤ last') (hlt : last' < x.id) (hle : x.id ≤ last'')
    (hg : record.guest.head? = some slash) (hne : record.guest ≠ [slash]) :
    Replaced k h base ρ last last'' ms (news ++ [x]) (ms' ++ [x]) := by
  have hr' := hR.rooted'
  obtain ⟨p, hp, hxp, ha⟩ := hr'.exists_parent hx hg
  obtain ⟨u, hu, hid, hug, -⟩ := hR.graft p hp
  have hrU : Rooted k h ρ last'' (ms ++ news ++ [x]) :=
    hR.rooted.append hu (hxp.trans hid) (hug ▸ ha) hlt hle (hx.guest ▸ hg) (hx.guest ▸ hne)
  refine ⟨?_, ?_, ?_, ?_, ?_, ?_⟩
  · rw [← append_assoc]
    exact hrU
  · intro v hv
    rcases mem_append.1 hv with hv | hv
    · exact hR.new v hv
    · rw [mem_singleton.1 hv, hxp]
      have := (hr'.bound p hp).1
      omega
  · intro m hm
    rw [← append_assoc]
    rcases mem_append.1 hm with hm | hm
    · exact (hR.graft m hm).subset (subset_append_left _ _)
    · exact .refl (mem_append_right _ hm)
  · exact (hr'.append hp hxp ha hlt hle (hx.guest ▸ hg) (hx.guest ▸ hne)).nodup
  · obtain ⟨r, hr, hid⟩ := hR.root
    exact ⟨r, mem_append_left _ hr, hid⟩
  · intro defs hdefs d hd
    obtain ⟨n, hn, hni⟩ := hR.installed defs hdefs d hd
    exact ⟨n, mem_append_left _ hn, hni⟩

end Bind

theorem bindBase_ends {oldBase target : Bytes} (hr : Rooted k h ρ ids.last ms)
    (hb : BaseOk k h base) (ht : target ≠ [slash]) (hok : BindOk ms base target) :
    Ends (bindBase ms oldBase base target)
      (fun ms' ids' => Rooted k h ρ ids'.last ms' ∧ Closed ms') ids := by
  refine (replaceBase_ends hr hb).bind ?_
  rintro ms₁ ids₁ hl₁ ⟨⟨news, hR⟩, -⟩
  refine Ends.bind (Q := fun defs ids' => ids' = ids₁ ∧ definitions base = .ok defs)
    (.ofExcept fun defs hd => ⟨rfl, hd⟩) ?_
  rintro defs ids₂ - ⟨rfl, hdefs⟩
  refine Ends.bind (Q := fun d ids' => ids' = ids₂ ∧ defs.find? (fun d => d.guest = target) = some d)
    (.orThrow fun d hd => ⟨rfl, hd⟩) ?_
  rintro d ids₁ - ⟨rfl, hd⟩
  have hdg : d.guest = target := by simpa using find?_some hd
  have hdm := mem_definitions hdefs (mem_of_find?_eq_some hd)
  have hprev : (ms.filter fun m => m.guest = target) ⊆ ms := filter_sublist.subset
  have hback := hR.putBack hprev
  -- what is left to do, once a mount may have been inserted
  have finish : ∀ (news' ms₂ ms' : List MountRecord) (ids₂ : Ids),
      (∀ old, newest (ms.filter fun m => m.guest = target) = old →
        ms' = (old.map (·.id)).elim ms₂ (putOn ms₂ target)) →
      Replaced k h base ρ ids.last ids₂.last ms news' ms₂ →
      (∀ old, newest (ms.filter fun m => m.guest = target) = some old →
        (∃ m ∈ ms₂, m.id = old.id) ∧ ∃ t ∈ ms₂, t.guest = target ∧ ids.last < t.id) →
      Rooted k h ρ ids₂.last ms' := by
    intro news' ms₂ ms' ids₂ hms hR₂ hold
    rw [hms _ rfl]
    cases ho : newest (ms.filter fun m => m.guest = target) with
    | none => exact hR₂.rooted'
    | some old =>
      have holdm : old ∈ ms ∧ old.guest = target := by
        simpa using mem_filter.1 (newest_mem ho)
      obtain ⟨hm, hnew⟩ := hold old ho
      exact hR₂.putOn hr ht holdm.1 holdm.2 hm hnew
  have done : ∀ (ms₂ : List MountRecord) (ids₂ : Ids), Rooted k h ρ ids₂.last ms₂ → ∀ rules,
      Ends (do let ms ← applyPolicies ms₂ rules; validate ms; return ms : M (List MountRecord))
        (fun ms' ids' => Rooted k h ρ ids'.last ms' ∧ Closed ms') ids₂ := by
    intro ms₂ ids₂ hr₂ rules
    refine (applyPolicies_ends ms₂ rules ids₂).bind fun ms₃ ids₃ hl₃ h₃ => ?_
    exact validated_ends fun hc => ⟨(hr₂.later hl₃).alike h₃, hc⟩
  have hbackm : ∀ old, newest (ms.filter fun m => m.guest = target) = some old →
      ∃ m ∈ putBack ms₁ (ms.filter fun m => m.guest = target), m.id = old.id :=
    fun old ho => exists_putBack (newest_mem ho)
  dsimp only
  split_ifs with hc
  · refine (Mounts.insert_ends _ d ids₁).bind ?_
    rintro _ ids₂ hl₂ ⟨x, rfl, hx, hlt, hle⟩
    refine done _ ids₂ (finish _ _ _ ids₂ (fun o ho => by rw [ho]; cases o <;> rfl)
      (hback.append hx hl₁ hlt hle hdm.1 (hdg ▸ ht)) ?_) _
    intro old ho
    obtain ⟨m, hm, hid⟩ := hbackm old ho
    exact ⟨⟨m, mem_append_left _ hm, hid⟩, x, by simp, hx.guest.trans hdg, by omega⟩
  · refine done _ ids₁ (finish _ _ _ ids₁ (fun o ho => by rw [ho]; cases o <;> rfl) hback ?_) _
    intro old ho
    obtain ⟨t, htm, htg⟩ := hR.exists_new hr hdefs hd hok ho (by rw [ho] at hc; exact hc)
    exact ⟨hbackm old ho, t, subset_putBack _ _ htm, htg⟩

/-! ### Cloning -/

/-- The mount under other ids. -/
def MountRecord.rename (f : ℕ → ℕ) (m : MountRecord) : MountRecord :=
  { m with id := f m.id, parent := f m.parent }

/-- The mounts of `ms'` are those of `ms`, their ids renamed one to one. -/
def Renamed (ms ms' : List MountRecord) : Prop :=
  ∃ f : ℕ → ℕ, Set.InjOn f {i | i ∈ ms.map (·.id)} ∧ ms' = ms.map (·.rename f)

theorem Rooted.rename (hr : Rooted k h ρ last ms) (hc : Closed ms) {f : ℕ → ℕ}
    (hf : Set.InjOn f {i | i ∈ ms.map (·.id)}) (hle : ∀ i ∈ ms.map (·.id), f i ≤ last') :
    Rooted k h (f ρ) last' (ms.map (·.rename f)) := by
  have hpar : ∀ m ∈ ms, m.parent ∈ ms.map (·.id) := fun m hm => by
    obtain ⟨p, hp, he⟩ := hc m hm
    exact mem_map.2 ⟨p, hp, he⟩
  obtain ⟨r, hrm, hrid, hrp, hrest⟩ := hr.root
  refine ⟨?_, ?_, ?_, ?_, ?_, ?_, ?_⟩
  · have hn := hr.nodup.map_on fun i hi j hj he => hf hi hj he
    rw [map_map] at hn ⊢
    exact hn
  · simp only [forall_mem_map]
    exact fun m hm => ⟨hle _ (mem_map_of_mem hm), hle _ (hpar m hm)⟩
  · exact ⟨r.rename f, mem_map_of_mem hrm, congrArg f hrid, congrArg f hrp, hrest⟩
  · simp only [forall_mem_map]
    exact fun m hm hg => congrArg f (hr.only m hm hg)
  · simp only [forall_mem_map]
    exact fun m hm => hr.absolute m hm
  · simp only [forall_mem_map]
    intro m hm hne p hp he
    exact hr.above m hm (fun hid => hne (congrArg f hid)) p hp
      (hf (mem_map_of_mem hp) (hpar m hm) he)
  · exact hr.ranked.rename hf (fun _ _ => rfl) (fun _ _ => rfl) hpar

theorem Closed.rename (hc : Closed ms) (f : ℕ → ℕ) : Closed (ms.map (·.rename f)) := by
  simp only [Closed, forall_mem_map]
  intro m hm
  obtain ⟨p, hp, he⟩ := hc m hm
  exact ⟨p.rename f, mem_map_of_mem hp, congrArg f he⟩

/-- An id is translated to the new one at its place. -/
theorem translate_some {b i x : ℕ}
    (h : translate ms ((List.range ms.length).map (b + 1 + ·)) i = some x) :
    ∃ n, (ms.map (·.id))[n]? = some i ∧ n < ms.length ∧ x = b + 1 + n := by
  obtain ⟨l₁, l₂, hl, -⟩ := lookup_eq_some_iff.1 h
  have hm : (i, x) ∈ (ms.map (·.id)).zip ((List.range ms.length).map (b + 1 + ·)) := by
    rw [← mem_reverse, hl]
    simp
  obtain ⟨n, hn⟩ := mem_iff_getElem?.1 hm
  obtain ⟨hid, hx⟩ := getElem?_zip_eq_some.1 hn
  rw [getElem?_map] at hx
  obtain ⟨n', hn', rfl⟩ := Option.map_eq_some_iff.1 hx
  obtain ⟨hlt, rfl⟩ := List.getElem?_eq_some_iff.1 hn'
  rw [length_range] at hlt
  exact ⟨n, hid, hlt, by rw [getElem_range]⟩

theorem exists_translate (hm : m ∈ ms) (b : ℕ) :
    ∃ x, translate ms ((List.range ms.length).map (b + 1 + ·)) m.id = some x := by
  obtain ⟨n, hn⟩ := mem_iff_getElem?.1 hm
  have hlt : n < ms.length := (List.getElem?_eq_some_iff.1 hn).1
  refine Option.isSome_iff_exists.1 (lookup_isSome_iff.2 ⟨(m.id, b + 1 + n), ?_, by simp⟩)
  refine mem_reverse.2 (mem_iff_getElem?.2 ⟨n, getElem?_zip_eq_some.2 ⟨?_, ?_⟩⟩)
  · rw [getElem?_map, hn]
    rfl
  · rw [getElem?_map, getElem?_range hlt]
    rfl

theorem cloneMounts_ends (hr : Rooted k h ρ ids.last ms) (hc : Closed ms) :
    Ends (cloneMounts ms) (fun ms' ids' => Renamed ms ms' ∧
      (∃ ρ', Rooted k h ρ' ids'.last ms') ∧ Closed ms') ids := by
  refine (allocate_ends ms.length ids).bind ?_
  rintro _ ids₁ hl₁ ⟨b, hb, hb', rfl⟩
  set f : ℕ → ℕ := fun i =>
    (translate ms ((List.range ms.length).map (b + 1 + ·)) i).getD 0 with hf
  have hspec : ∀ i ∈ ms.map (·.id),
      ∃ n, (ms.map (·.id))[n]? = some i ∧ n < ms.length ∧ f i = b + 1 + n := by
    intro i hi
    obtain ⟨m, hm, rfl⟩ := mem_map.1 hi
    obtain ⟨x, hx⟩ := exists_translate hm b
    obtain ⟨n, hid, hn, rfl⟩ := translate_some hx
    exact ⟨n, hid, hn, by simp only [hf, hx, Option.getD_some]⟩
  have hinj : Set.InjOn f {i | i ∈ ms.map (·.id)} := by
    intro i hi j hj he
    obtain ⟨n, hn, -, hfi⟩ := hspec i hi
    obtain ⟨n', hn', -, hfj⟩ := hspec j hj
    have : n = n' := by omega
    rw [← this, hn] at hn'
    exact Option.some.inj hn'
  have hle : ∀ i ∈ ms.map (·.id), f i ≤ ids₁.last := by
    intro i hi
    obtain ⟨n, -, hn, hfi⟩ := hspec i hi
    omega
  refine (Ends.mapM (fun m x => x = m.rename f) (fun m ids₂ => ?_) ms).mono fun ms' ids' hl' h => ?_
  · refine Ends.bind (Q := fun p _ => p = f m.parent) (.orThrow fun p hp => ?_) ?_
    · simp only [hf, hp, Option.getD_some]
    · rintro p ids' - rfl
      exact .pure rfl
  · have he : ms' = ms.map (·.rename f) := by
      have := forall₂_map_left_iff.2 (h.imp fun _ _ h => h.symm)
      rwa [forall₂_eq_eq_eq, eq_comm] at this
    rw [he]
    exact ⟨⟨f, hinj, rfl⟩, ⟨f ρ, (hr.rename hc hinj hle).later hl'⟩, hc.rename f⟩

end Mounts
