import Aim.Mounts.Tree

/-!
# Mounts — events and projections

What the calls that take mounts from outside the base do to rooted mounts.

* `Ends`: how a call ends, with the rules for its parts.
* `insert_ends`, `applyPolicies_ends`, `validate_ends`: the parts all the calls are made of.
* `apply_ends`: an event keeps the mounts rooted, if no move takes a mount away from its parent's
  path and nothing is mounted at `/`.
* `syncProjections_ends`: so do the live mounts of other namespaces, if none is at `/`.
-/

namespace Mounts

open List Nat

open Prog (wp wp_mono wp_bind wp_pure wp_ite wp_throw wp_mapM)

/-! ### What a call leaves -/

/-- The call ends with an error or with a value in `Q`; ids are only ever given out. -/
def Ends {α : Type} (x : M α) (Q : α → Ids → Prop) (ids : Ids) : Prop :=
  wp (fun _ _ => False) x (fun a ids' => ids.last ≤ ids'.last ∧ Q a ids')
    (fun _ ids' => ids.last ≤ ids'.last) ids

section Ends

variable {α β : Type} {x : M α} {f : α → M β} {Q Q' : α → Ids → Prop} {P : β → Ids → Prop} {ids : Ids}

/-- One call after another. -/
theorem Ends.bind (hx : Ends x Q ids)
    (hf : ∀ a ids', ids.last ≤ ids'.last → Q a ids' → Ends (f a) P ids') : Ends (x >>= f) P ids := by
  rw [Ends, wp_bind]
  refine wp_mono hx (fun a ids' ha => ?_) fun _ _ h => h
  exact wp_mono (hf a ids' ha.1 ha.2) (fun b ids'' hb => ⟨le_trans ha.1 hb.1, hb.2⟩)
    fun _ _ h => le_trans ha.1 h

theorem Ends.mono (hx : Ends x Q ids) (h : ∀ a ids', ids.last ≤ ids'.last → Q a ids' → Q' a ids') :
    Ends x Q' ids :=
  wp_mono hx (fun a ids' ha => ⟨ha.1, h a ids' ha.1 ha.2⟩) fun _ _ h => h

theorem Ends.pure {a : α} (h : Q a ids) : Ends (Pure.pure a : M α) Q ids := ⟨le_refl _, h⟩

theorem Ends.throw {e : Error} : Ends (Prog.throw e : M α) Q ids := le_refl ids.last

theorem Ends.orThrow {e : Error} {o : Option α} (h : ∀ a, o = some a → Q a ids) :
    Ends (Prog.orThrow e o) Q ids := by
  cases o with
  | none => exact .throw
  | some a => exact .pure (h a rfl)

theorem Ends.ofExcept {o : Except Error α} (h : ∀ a, o = .ok a → Q a ids) :
    Ends (Mounts.ofExcept o) Q ids := by
  cases o with
  | error e => exact .throw
  | ok a => exact .pure (h a rfl)

/-- The rule of the loops. -/
theorem Ends.foldlM {g : α → β → M α} (I : List β → α → Ids → Prop) {bs : List β} {a : α}
    (h : I bs a ids) (step : ∀ b rest a ids, I (b :: rest) a ids → Ends (g a b) (I rest) ids) :
    Ends (bs.foldlM g a) (I []) ids := by
  induction bs generalizing a ids with
  | nil => exact .pure h
  | cons b rest ih =>
    exact (step b rest a ids h).bind fun a' ids' _ ha' => ih ha'

theorem Ends.mapM {g : β → M α} (R : β → α → Prop) (step : ∀ b ids, Ends (g b) (fun a _ => R b a) ids)
    (bs : List β) : Ends (bs.mapM g) (fun as _ => List.Forall₂ R bs as) ids :=
  wp_mono (wp_mapM R (fun ids' => ids.last ≤ ids'.last)
    (fun b s hs => wp_mono (step b s) (fun _ _ ha => ⟨ha.2, le_trans hs ha.1⟩)
      fun _ _ h => le_trans hs h) bs ids (le_refl _))
    (fun _ _ h => ⟨h.2, h.1⟩) fun _ _ h => h

end Ends

/-! ### Ids -/

/-- Ids are taken above every id so far. -/
theorem allocate_ends (count : ℕ) (ids : Ids) :
    Ends (allocate count) (fun l ids' => ∃ b, ids.last ≤ b ∧ b + count ≤ ids'.last ∧
      l = (List.range count).map (b + 1 + ·)) ids := by
  rw [Ends, wp, allocate]
  split_ifs
  · refine ⟨?_, ids.last + ids.others.headD 0, le_add_right _ _, le_refl _, rfl⟩
    exact le_trans (le_add_right _ _) (le_add_right _ _)
  · exact le_add_right _ _

theorem allocateOne_ends (ids : Ids) :
    Ends allocateOne (fun n ids' => ids.last < n ∧ n ≤ ids'.last) ids := by
  refine (allocate_ends 1 ids).bind fun l ids' _ hl => .pure ?_
  obtain ⟨b, hb, hb', rfl⟩ := hl
  simp only [range_one, map_cons, map_nil, headD_cons]
  omega

/-! ### Inserting -/

/-- The record with its id, its parent and its group. -/
structure Inserted (ms : List MountRecord) (record x : MountRecord) : Prop where
  guest : x.guest = record.guest
  own : x.own = record.own
  host : x.host = record.host
  kind : x.kind = record.kind
  parent : x.parent = ((deepest (ms.filter fun m =>
    m.guest = record.guest || below m.guest record.guest)).map (·.id)).getD x.id

/-- A mount is put last, under a new id. -/
theorem insert_ends (ms : List MountRecord) (record : MountRecord) (ids : Ids) :
    Ends (insert ms record) (fun ms' ids' => ∃ x, ms' = ms ++ [x] ∧ Inserted ms record x ∧
      ids.last < x.id ∧ x.id ≤ ids'.last) ids := by
  refine (allocateOne_ends ids).bind fun id ids₁ _ hid => ?_
  dsimp only
  split_ifs
  · refine (allocateOne_ends ids₁).bind fun shared ids₂ hl _ => .pure ?_
    exact ⟨_, rfl, ⟨rfl, rfl, rfl, rfl, rfl⟩, hid.1, le_trans hid.2 hl⟩
  · exact .pure ⟨_, rfl, ⟨rfl, rfl, rfl, rfl, rfl⟩, hid.1, hid.2⟩

variable {k h : Bytes} {ρ : ℕ} {ms : List MountRecord} {record : MountRecord}

/-- On rooted mounts, a mount that is not at `/` is put on one of them. -/
theorem Rooted.exists_parent {last : ℕ} (hr : Rooted k h ρ last ms) {x : MountRecord}
    (hx : Inserted ms record x) (hg : record.guest.head? = some slash) :
    ∃ p ∈ ms, x.parent = p.id ∧ Above p.guest x.guest := by
  obtain ⟨r, hrm, -, -, hrg, -⟩ := hr.root
  have hmem : r ∈ ms.filter fun m => m.guest = record.guest || below m.guest record.guest := by
    refine mem_filter.2 ⟨hrm, ?_⟩
    simp [hrg, below_root hg]
  obtain ⟨p, hp⟩ := exists_deepest hmem
  obtain ⟨hpm, hpg⟩ := mem_filter.1 (deepest_mem hp)
  refine ⟨p, hpm, ?_, ?_⟩
  · rw [hx.parent, hp]
    rfl
  · rw [hx.guest]
    simpa [Above] using hpg

variable {ids : Ids}

/-- A mount that is put below `/` keeps the table rooted. -/
theorem Rooted.insert_ends (hr : Rooted k h ρ ids.last ms)
    (hg : record.guest.head? = some slash) (hne : record.guest ≠ [slash]) :
    Ends (insert ms record) (fun ms' ids' => Rooted k h ρ ids'.last ms') ids := by
  refine (Mounts.insert_ends ms record ids).mono ?_
  rintro _ ids' hl ⟨x, rfl, hx, hlt, hle⟩
  obtain ⟨p, hp, hxp, ha⟩ := hr.exists_parent hx hg
  exact hr.append hp hxp ha hlt hle (hx.guest ▸ hg) (hx.guest ▸ hne)

/-! ### Policies -/

/-- A rule of propagation changes nothing that the tree is made of. -/
theorem applyRule_ends (kind : Bytes) (m : MountRecord) (ids : Ids) :
    Ends (applyRule kind m) (fun m' _ => Alike m m') ids := by
  rw [applyRule]
  split
  · exact .pure ⟨rfl, rfl, rfl, rfl, rfl, rfl⟩
  split
  · exact .pure ⟨rfl, rfl, rfl, rfl, rfl, rfl⟩
  split
  · split
    · exact (allocateOne_ends ids).bind fun _ _ _ _ => .pure ⟨rfl, rfl, rfl, rfl, rfl, rfl⟩
    · exact .pure (Alike.refl m)
  · exact .throw

theorem applyRuleLine_ends (ms : List MountRecord) (line : Bytes) (ids : Ids) :
    Ends (applyRuleLine ms line) (fun ms' _ => AllAlike ms ms') ids := by
  refine Ends.bind (Q := fun _ _ => True) (.ofExcept fun _ _ => trivial) fun r ids' _ _ => ?_
  match r with
  | none => exact .pure (AllAlike.refl ms)
  | some (target, kind, recursive) =>
    refine Ends.mapM Alike (fun m ids => ?_) ms
    split_ifs
    · exact applyRule_ends kind m ids
    · exact .pure (Alike.refl m)

theorem forall₂_modifyLast {α : Type} {R : α → α → Prop} {p : α → Bool} {f : α → α} (l : List α)
    (hrefl : ∀ a, R a a) (hf : ∀ a, R a (f a)) : List.Forall₂ R l (modifyLast p f l) := by
  have hgo : ∀ l : List α, List.Forall₂ R l (modifyLast.go p f l) := by
    intro l
    induction l with
    | nil => exact .nil
    | cons a l ih =>
      rw [modifyLast.go]
      split_ifs
      · exact .cons (hf a) (forall₂_same.2 fun a _ => hrefl a)
      · exact .cons (hrefl a) ih
  rw [modifyLast, ← forall₂_reverse_iff, reverse_reverse]
  exact hgo l.reverse

theorem bindFrom_alike (event : List Bytes) (target source : Bytes) (origin m : MountRecord) :
    Alike m (bindFrom event target source origin m) := by
  rw [bindFrom]
  split
  · split_ifs <;> exact ⟨rfl, rfl, rfl, rfl, rfl, rfl⟩
  · exact ⟨rfl, rfl, rfl, rfl, rfl, rfl⟩

/-- A bind line changes nothing that the tree is made of, either. -/
theorem applyBindLine_ends (event : List Bytes) (ms : List MountRecord) (line : Bytes) (ids : Ids) :
    Ends (applyBindLine event ms line) (fun ms' _ => AllAlike ms ms') ids := by
  rw [applyBindLine]
  split
  · next target source _ =>
      split_ifs
      · dsimp only
        split
        · next origin _ =>
            exact .pure (forall₂_modifyLast ms Alike.refl (bindFrom_alike event target source origin))
        · exact .throw
      · exact .pure (AllAlike.refl ms)
      · exact .pure (AllAlike.refl ms)
  · exact .pure (AllAlike.refl ms)

/-- All the policy lines of an event. -/
theorem applyPolicies_ends (ms : List MountRecord) (event : Bytes) (ids : Ids) :
    Ends (applyPolicies ms event) (fun ms' _ => AllAlike ms ms') ids := by
  refine Ends.bind (Q := fun ms' _ => AllAlike ms ms') ?_ fun ms₁ ids₁ _ h₁ => ?_
  · exact Ends.foldlM (fun _ ms' _ => AllAlike ms ms') (AllAlike.refl ms) fun line _ ms' ids' h =>
      (applyRuleLine_ends ms' line ids').mono fun _ _ _ h' => h.trans h'
  · exact Ends.foldlM (fun _ ms' _ => AllAlike ms ms') h₁ fun line _ ms' ids' h =>
      (applyBindLine_ends _ ms' line ids').mono fun _ _ _ h' => h.trans h'

/-- What `validate` accepts has every parent among its mounts. -/
theorem validate_ends (ms : List MountRecord) (ids : Ids) :
    Ends (validate ms) (fun _ ids' => ids' = ids ∧ Closed ms) ids := by
  rw [validate]
  split_ifs with hv
  · exact .pure ⟨rfl, fun m hm => (hv.2 m hm).2.2⟩
  · exact .throw

/-- A call that ends with the check. -/
theorem validated_ends {α : Type} {Q : α → Ids → Prop} {a : α} {ms : List MountRecord} {ids : Ids}
    (h : Closed ms → Q a ids) : Ends (validate ms >>= fun _ => pure a) Q ids :=
  (validate_ends ms ids).bind fun _ _ _ h' => .pure (h'.1 ▸ h h'.2)

/-! ### Events -/

variable {line : Bytes}

/-- A line that defines a mount names an absolute path and a known kind. -/
theorem definition_some {own : Bool} {d : MountRecord} (h : definition line own = .ok (some d)) :
    d.guest.head? = some slash ∧ d.own = own ∧ d.kind ∈ kinds := by
  rw [definition] at h
  split at h
  · next kind guest host rest _ =>
      by_cases hk : kind ∈ kinds
      · split_ifs at h with hp
        obtain rfl := Option.some.inj (Except.ok.inj h)
        rw [not_or, not_not] at hp
        exact ⟨hp.1, rfl, hk⟩
      · rw [if_pos hk] at h
        cases h
  · cases h

/-- The line does not take a mount away from its parent's path, and defines none at `/`. -/
def LineOk (ms : List MountRecord) (line : Bytes) : Prop :=
  (∀ rest source target, stripStart (Bytes.ofAscii "move\t") line = some rest →
      splitTab rest = some (source, target) → MoveOk ms source target) ∧
    ∀ d, definition line true = .ok (some d) → d.guest ≠ [slash]

/-- All the lines, each with the mounts it finds. -/
def LinesOk : List Bytes → List MountRecord → Ids → Prop
  | [], _, _ => True
  | line :: rest, ms, ids =>
    LineOk ms line ∧ ∀ ms' ids', applyLine ms line ids = .ok ms' ids' → LinesOk rest ms' ids'

variable (hr : Rooted k h ρ ids.last ms)

include hr

/-- One line of an event that fits keeps the table rooted. -/
theorem applyLine_ends (hok : LineOk ms line) :
    Ends (applyLine ms line) (fun ms' ids' => Rooted k h ρ ids'.last ms') ids := by
  rw [applyLine]
  split
  · exact .pure (hr.remove _)
  split
  · exact .pure (hr.detach _)
  split
  · next rest hrest =>
      split
      · next source target hs => exact .pure (hr.move (hok.1 rest source target hrest hs))
      · exact .throw
  · split
    · next d hd => exact hr.insert_ends (definition_some hd).1 (hok.2 d hd)
    · exact .pure hr
    · exact .throw

/-- All the lines, by induction: each fits the mounts it finds. -/
theorem applyLines_ends {event : List Bytes} (hok : LinesOk event ms ids) :
    Ends (event.foldlM applyLine ms) (fun ms' ids' => Rooted k h ρ ids'.last ms') ids := by
  induction event generalizing ms ids with
  | nil => exact .pure hr
  | cons line rest ih =>
    have hline : Ends (applyLine ms line)
        (fun ms' ids' => Rooted k h ρ ids'.last ms' ∧ LinesOk rest ms' ids') ids := by
      have h₁ := applyLine_ends hr hok.1
      rw [Ends, wp] at h₁ ⊢
      cases he : applyLine ms line ids with
      | ok ms' ids' =>
        rw [he] at h₁
        exact ⟨h₁.1, h₁.2, hok.2 ms' ids' he⟩
      | err e ids' => rw [he] at h₁; exact h₁
      | fault f ids' => exact f.elim
    exact hline.bind fun ms' ids' _ h' => ih h'.1 h'.2

theorem apply_ends {event : Bytes} (hok : LinesOk (lines event) ms ids) :
    Ends (apply ms event) (fun ms' ids' => Rooted k h ρ ids'.last ms' ∧ Closed ms') ids := by
  refine (applyLines_ends hr hok).bind fun ms₁ ids₁ _ h₁ => ?_
  refine (applyPolicies_ends ms₁ event ids₁).bind fun ms₂ ids₂ hl h₂ => ?_
  exact validated_ends fun hc => ⟨((h₁.later hl).alike h₂).repair, hc⟩

omit hr

/-! ### Projections -/

/-- Projections that come and go keep the table rooted and closed. -/
theorem syncProjections_ends {live : List MountRecord} (hr : Rooted k h ρ ids.last ms)
    (hk : k ∈ kinds) (hlive : ∀ item ∈ live, item.guest.head? = some slash ∧ item.guest ≠ [slash]) :
    Ends (syncProjections ms live) (fun r ids' => Rooted k h ρ ids'.last r.2 ∧ Closed r.2) ids := by
  have hkp : k ≠ projected := by
    rintro rfl
    exact absurd hk (by decide +kernel)
  have hkept : Rooted k h ρ ids.last
      (ms.filter fun m => m.kind ≠ projected || live.any fun item => same m item) := by
    refine hr.subset filter_sublist fun r hrm _ _ hrk _ _ => mem_filter.2 ⟨hrm, ?_⟩
    simp [hrk, hkp]
  refine Ends.bind (Q := fun ms' ids' => Rooted k h ρ ids'.last ms') ?_ fun ms₁ ids₁ _ h₁ => ?_
  · refine (Ends.foldlM (fun rest ms' ids' => Rooted k h ρ ids'.last ms' ∧
      ∀ item ∈ rest, item.guest.head? = some slash ∧ item.guest ≠ [slash]) ⟨hkept, hlive⟩ ?_).mono
      fun _ _ _ h => h.1
    rintro item rest ms' ids' ⟨hr', hrest⟩
    have hrest' : ∀ item ∈ rest, item.guest.head? = some slash ∧ item.guest ≠ [slash] :=
      fun i hi => hrest i (.tail _ hi)
    obtain ⟨hg, hne⟩ := hrest item (.head _)
    rw [insertLive]
    split_ifs
    · exact .pure ⟨hr', hrest'⟩
    · exact (hr'.insert_ends hg hne).mono fun _ _ _ h => ⟨h, hrest'⟩
  · exact validated_ends fun hc => ⟨h₁.repair, hc⟩

end Mounts
