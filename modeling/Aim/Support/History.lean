import Mathlib

/-!
# Support — Histories

A system is a step function of states and labels, and a history the list of the labels it has
taken.  What holds now and did not hold at first began somewhere, and has not ended since:

* `Since starts ends s h`: some label of the history from `s` starts it, and no later one ends it.
  Both may look at the state in which the label is taken.
* `since_of_step`: if a step that leaves `P` true either starts it, or finds it true and does not
  end it, then `P` at the end of a history holds since some label of it.
* `run_induct`: what every step keeps, every history keeps.
-/

namespace History

variable {σ ι : Type} (step : σ → ι → σ)

/-- The state after a history. -/
def run (s : σ) (h : List ι) : σ := h.foldl step s

@[simp] theorem run_nil (s : σ) : run step s [] = s := rfl

@[simp] theorem run_append (s : σ) (h h' : List ι) :
    run step s (h ++ h') = run step (run step s h) h' := List.foldl_append

@[simp] theorem run_cons (s : σ) (i : ι) (h : List ι) :
    run step s (i :: h) = run step (step s i) h := rfl

variable {step} {s : σ}

/-- What every step keeps, every history keeps. -/
theorem run_induct {I : σ → Prop} (h₀ : I s) (hs : ∀ s i, I s → I (step s i))
    (h : List ι) : I (run step s h) := by
  induction h generalizing s with
  | nil => exact h₀
  | cons i h ih => exact ih (hs s i h₀)

variable (step)

/-- A label of the history from `s` starts it, and none after that label ends it. -/
def Since (starts ends : σ → ι → Prop) (s : σ) (h : List ι) : Prop :=
  ∃ before i after, h = before ++ i :: after ∧ starts (run step s before) i ∧
    ∀ mid j rest, after = mid ++ j :: rest → ¬ ends (run step s (before ++ i :: mid)) j

variable {step} {h : List ι} {i : ι}

theorem Since.now {starts ends : σ → ι → Prop}
    (hi : starts (run step s h) i) : Since step starts ends s (h ++ [i]) :=
  ⟨h, i, [], rfl, hi, fun mid j rest hr => by simp at hr⟩

theorem Since.still {starts ends : σ → ι → Prop} (hh : Since step starts ends s h)
    (hi : ¬ ends (run step s h) i) : Since step starts ends s (h ++ [i]) := by
  obtain ⟨before, j, after, rfl, hj, ha⟩ := hh
  refine ⟨before, j, after ++ [i], by simp, hj, fun mid k rest hr => ?_⟩
  -- the label that would end it is the last one, or stood in the history before
  rcases List.eq_nil_or_concat rest with rfl | ⟨rest, l, rfl⟩
  · obtain ⟨rfl, hk⟩ := List.append_inj' hr rfl
    obtain rfl : i = k := by simpa using hk
    exact hi
  · have hr' : after ++ [i] = (mid ++ k :: rest) ++ [l] := by simpa using hr
    exact ha mid k rest (List.append_inj' hr' rfl).1

/-- **What holds now began, and has not ended since.**  `I` is an invariant the steps may use. -/
theorem since_of_step {I P : σ → Prop} {starts ends : σ → ι → Prop} (hI : I s)
    (h₀ : ¬ P s) (hkeep : ∀ s i, I s → I (step s i))
    (hstep : ∀ s i, I s → P (step s i) → starts s i ∨ P s ∧ ¬ ends s i) (h : List ι)
    (hP : P (run step s h)) : Since step starts ends s h := by
  induction h using List.reverseRecOn with
  | nil => exact absurd hP h₀
  | append_singleton h i ih =>
    rw [run_append, run_cons] at hP
    rcases hstep _ i (run_induct hI hkeep h) hP with hi | ⟨hp, hi⟩
    · exact .now hi
    · exact (ih hp).still hi

end History
