import Mathlib

/-!
# Support — Following links

A visit of a node that visits the nodes it leads to, with no record of where it has been.  `Follows`
says that a visit calls for the nodes of a list, and for no others.

* `ends_iff`: the visit of a node ends exactly when no chain of links from it goes on forever.
* `not_grounded_of_loop`: one does from a node that leads to itself.
-/

namespace Follow

variable {N S R : Type} {visit : (N → S → Option R) → N → S → Option R} {next : N → List N}
  {f g : N → S → Option R} {x y : N} {s : S} {n k : ℕ}

/-- The visit with a bound on how deep it goes. -/
def run (visit : (N → S → Option R) → N → S → Option R) : (fuel : ℕ) → N → S → Option R
  | 0, _, _ => none
  | fuel + 1, x, s => visit (run visit fuel) x s

/-- A visit that goes on with the nodes of `next`. -/
structure Follows (visit : (N → S → Option R) → N → S → Option R) (next : N → List N) : Prop where
  mono : ∀ {f g x s r}, (∀ y s r, f y s = some r → g y s = some r) → visit f x s = some r →
    visit g x s = some r
  total : ∀ {f x}, (∀ y ∈ next x, ∀ s, ∃ r, f y s = some r) → ∀ s, ∃ r, visit f x s = some r
  calls : ∀ {f x s r}, visit f x s = some r → ∀ y ∈ next x, ∃ s r, f y s = some r

/-- A chain of links from `x` comes to an end. -/
abbrev Grounded (next : N → List N) (x : N) : Prop := Acc (fun y x => y ∈ next x) x

namespace Follows

variable (h : Follows visit next)

include h

variable {r : R}

theorem run_succ (hr : run visit n x s = some r) : run visit (n + 1) x s = some r := by
  induction n generalizing x s r with
  | zero => cases hr
  | succ n ih => exact h.mono (fun _ _ _ => ih) hr

theorem run_mono (hr : run visit n x s = some r) (hk : n ≤ k) : run visit k x s = some r := by
  induction hk with
  | refl => exact hr
  | step _ ih => exact h.run_succ ih

/-- One bound does for all nodes of a list. -/
theorem exists_bound {ys : List N} (hys : ∀ y ∈ ys, ∃ n, ∀ s, ∃ r, run visit n y s = some r) :
    ∃ n, ∀ y ∈ ys, ∀ s, ∃ r, run visit n y s = some r := by
  induction ys with
  | nil => exact ⟨0, nofun⟩
  | cons y ys ih =>
    obtain ⟨⟨n, hn⟩, hys⟩ := List.forall_mem_cons.1 hys
    obtain ⟨k, hk⟩ := ih hys
    refine ⟨max n k, List.forall_mem_cons.2 ⟨fun s => ?_, fun z hz s => ?_⟩⟩
    · obtain ⟨r, hr⟩ := hn s
      exact ⟨r, h.run_mono hr (Nat.le_max_left n k)⟩
    · obtain ⟨r, hr⟩ := hk z hz s
      exact ⟨r, h.run_mono hr (Nat.le_max_right n k)⟩

theorem ends (hx : Grounded next x) : ∃ n, ∀ s, ∃ r, run visit n x s = some r := by
  induction hx with
  | intro x _ ih =>
    obtain ⟨n, hn⟩ := h.exists_bound ih
    exact ⟨n + 1, h.total hn⟩

theorem grounded (hr : run visit n x s = some r) : Grounded next x := by
  induction n generalizing x s r with
  | zero => cases hr
  | succ n ih =>
    refine ⟨x, fun y hy => ?_⟩
    obtain ⟨s, r, hr⟩ := h.calls hr y hy
    exact ih hr

/-- A visit ends exactly where no chain of links goes on forever. -/
theorem ends_iff (s : S) : (∃ n r, run visit n x s = some r) ↔ Grounded next x := by
  constructor
  · rintro ⟨n, r, hr⟩
    exact h.grounded hr
  · intro hx
    obtain ⟨n, hn⟩ := h.ends hx
    exact ⟨n, hn s⟩

end Follows

/-! ### A list of calls -/

section Calls

variable {A : Type} {p q : S → A → Option S} {l : List A} {r : S}

theorem foldlM_mono (h : ∀ a s r, p s a = some r → q s a = some r) (hr : l.foldlM p s = some r) :
    l.foldlM q s = some r := by
  induction l generalizing s with
  | nil => exact hr
  | cons a l ih =>
    obtain ⟨s₁, h₁, hr⟩ := Option.bind_eq_some_iff.1 hr
    exact Option.bind_eq_some_iff.2 ⟨s₁, h a s s₁ h₁, ih hr⟩

theorem foldlM_total (h : ∀ a ∈ l, ∀ s, ∃ r, p s a = some r) (s : S) :
    ∃ r, l.foldlM p s = some r := by
  induction l generalizing s with
  | nil => exact ⟨s, rfl⟩
  | cons a l ih =>
    obtain ⟨ha, hl⟩ := List.forall_mem_cons.1 h
    obtain ⟨s₁, h₁⟩ := ha s
    obtain ⟨r, hr⟩ := ih hl s₁
    exact ⟨r, Option.bind_eq_some_iff.2 ⟨s₁, h₁, hr⟩⟩

theorem foldlM_calls (hr : l.foldlM p s = some r) : ∀ a ∈ l, ∃ s r, p s a = some r := by
  induction l generalizing s with
  | nil => exact nofun
  | cons a l ih =>
    obtain ⟨s₁, h₁, hr⟩ := Option.bind_eq_some_iff.1 hr
    exact List.forall_mem_cons.2 ⟨⟨s, s₁, h₁⟩, ih hr⟩

end Calls

/-- A node that leads to itself is on a chain without an end. -/
theorem not_grounded_of_loop (hx : x ∈ next x) : ¬ Grounded next x := by
  intro h
  induction h with
  | intro x _ ih => exact ih x hx hx

end Follow
