import Aim.Support.Table

/-!
# Support — Candidates of an index

Entries are registered under keys, and a query looks at the entries under some keys only.  That
gives what looking at all of them gives, as long as every entry that comes to something is under
one of those keys; the others may be looked at or not, and one may be looked at twice.

* `register`, `under`: the positions registered under a key (`mem_registerAll`).
* `gather`: what candidates come to, in turn, each of them once.
* `gather_agree`: candidates that have the same entries that come to something, give the same.
-/

namespace Candidates

open List

/-! ### Registering -/

section Register

variable {κ : Type} [DecidableEq κ]

def under (t : Table κ (List ℕ)) (key : κ) : List ℕ := (t.lookup key).getD []

def register (i : ℕ) (t : Table κ (List ℕ)) (key : κ) : Table κ (List ℕ) :=
  t.insert key (under t key ++ [i])

variable {t : Table κ (List ℕ)} {key : κ}

theorem mem_register {i j : ℕ} {key' : κ} :
    j ∈ under (register i t key) key' ↔ j ∈ under t key' ∨ j = i ∧ key' = key := by
  rw [under, register, AList.lookup_insert_ite]
  split_ifs with h
  · subst h
    simp
  · simp [h, under]

theorem mem_registerAll {i j : ℕ} {keys : List κ} :
    j ∈ under (keys.foldl (register i) t) key ↔ j ∈ under t key ∨ j = i ∧ key ∈ keys := by
  induction keys generalizing t with
  | nil => simp
  | cons k keys ih =>
    rw [foldl_cons, ih, mem_register, mem_cons, or_assoc, ← and_or_left]

end Register

/-! ### Gathering -/

variable {ε α ρ : Type}

/-- The candidates in turn: one that is allowed, given the results so far, fails, comes to nothing
or comes to a result. -/
def gather (allow : α → List ρ → Bool) (verdict : α → Except ε (Option ρ)) (dest : List ρ)
    (candidates : List α) : Except ε (List ρ) :=
  candidates.foldlM
    (fun dest e => if allow e dest then (fun r => dest ++ r.toList) <$> verdict e else pure dest) dest

/-- The same results, in whatever order and number; or both fail. -/
def Agree : Except ε (List ρ) → Except ε (List ρ) → Prop
  | .ok a, .ok b => ∀ r, r ∈ a ↔ r ∈ b
  | .error _, .error _ => True
  | _, _ => False

section Gather

variable {allow : α → List ρ → Bool} {verdict : α → Except ε (Option ρ)} {of : ρ → α}

theorem gather_nil (dest : List ρ) : gather allow verdict dest [] = .ok dest := rfl

theorem gather_cons (dest : List ρ) (e : α) (es : List α) :
    gather allow verdict dest (e :: es) =
      (if allow e dest then (fun r => dest ++ r.toList) <$> verdict e else pure dest) >>=
        fun dest => gather allow verdict dest es := foldlM_cons ..

theorem gather_append (dest : List ρ) (es es' : List α) :
    gather allow verdict dest (es ++ es') =
      gather allow verdict dest es >>= fun dest => gather allow verdict dest es' :=
  foldlM_append ..

theorem gather_flatten (dest : List ρ) (cuts : List (List α)) :
    cuts.foldlM (gather allow verdict) dest = gather allow verdict dest cuts.flatten := by
  induction cuts generalizing dest with
  | nil => rfl
  | cons es cuts ih =>
    rw [flatten_cons, gather_append]
    exact bind_congr fun dest' => ih dest'

/-- What the candidates come to, besides the results `dest`. -/
def Gathered (verdict : α → Except ε (Option ρ)) (dest : List ρ) (es : List α) :
    Except ε (List ρ) → Prop
  | .ok dest' => (∀ e ∈ es, ∃ o, verdict e = .ok o) ∧
      ∀ r, r ∈ dest' ↔ r ∈ dest ∨ ∃ e ∈ es, verdict e = .ok (some r)
  | .error _ => ∃ e ∈ es, ∃ x, verdict e = .error x

/-- A candidate that does not fail; what it comes to may be there already. -/
theorem Gathered.cons {dest dest' : List ρ} {e : α} {es : List α} {out : Except ε (List ρ)}
    {o : Option ρ} (hv : verdict e = .ok o) (hd : ∀ r, r ∈ dest' ↔ r ∈ dest ∨ o = some r)
    (h : Gathered verdict dest' es out) : Gathered verdict dest (e :: es) out := by
  cases out with
  | error x =>
    obtain ⟨e', he', hx⟩ := h
    exact ⟨e', mem_cons_of_mem _ he', hx⟩
  | ok dest'' =>
    obtain ⟨hok, hmem⟩ := h
    refine ⟨?_, fun r => ?_⟩
    · intro e' he'
      rcases mem_cons.1 he' with rfl | he'
      · exact ⟨o, hv⟩
      · exact hok e' he'
    · rw [hmem, hd, or_assoc, exists_mem_cons_iff, hv, Except.ok.injEq]

/-- **What candidates come to**, when each result is of one candidate, and a candidate is allowed
until its result is there. -/
theorem gathered (hof : ∀ e r, verdict e = .ok (some r) → of r = e)
    (hallow : ∀ e dest, allow e dest = true ↔ ∀ r ∈ dest, of r ≠ e) {dest : List ρ}
    (hdest : ∀ r ∈ dest, verdict (of r) = .ok (some r)) (es : List α) :
    Gathered verdict dest es (gather allow verdict dest es) := by
  induction es generalizing dest with
  | nil => simp [gather_nil, Gathered]
  | cons e es ih =>
    rw [gather_cons]
    by_cases ha : allow e dest = true
    · rw [if_pos ha]
      cases hv : verdict e with
      | error x => exact ⟨e, .head _, x, hv⟩
      | ok o =>
        have hdest' : ∀ r ∈ dest ++ o.toList, verdict (of r) = .ok (some r) := by
          intro r hr
          rcases mem_append.1 hr with hr | hr
          · exact hdest r hr
          · obtain rfl := Option.mem_toList.1 hr
            rw [hof e r hv, hv]
        exact (ih hdest').cons hv fun r => by rw [mem_append, Option.mem_toList]
    · rw [if_neg ha]
      -- its result is there
      rw [hallow] at ha
      push Not at ha
      obtain ⟨r, hr, rfl⟩ := ha
      refine (ih hdest).cons (hdest r hr) fun r' => ⟨.inl, ?_⟩
      rintro (h | h)
      · exact h
      · rwa [← Option.some.inj h]

/-- **Candidates that have the same entries that come to something, give the same.** -/
theorem gather_agree (hof : ∀ e r, verdict e = .ok (some r) → of r = e)
    (hallow : ∀ e dest, allow e dest = true ↔ ∀ r ∈ dest, of r ≠ e) {es es' : List α}
    (h : ∀ e, verdict e ≠ .ok none → (e ∈ es ↔ e ∈ es')) :
    Agree (gather allow verdict [] es) (gather allow verdict [] es') := by
  have hg : Gathered verdict [] es _ := gathered hof hallow (by simp) es
  have hg' : Gathered verdict [] es' _ := gathered hof hallow (by simp) es'
  cases ho : gather allow verdict [] es with
  | ok dest =>
    rw [ho] at hg
    cases ho' : gather allow verdict [] es' with
    | ok dest' =>
      rw [ho'] at hg'
      intro r
      rw [hg.2, hg'.2]
      refine or_congr_right (exists_congr fun e => ?_)
      refine and_congr_left fun hv => h e ?_
      rw [hv]
      simp
    | error x =>
      rw [ho'] at hg'
      obtain ⟨e, he, y, hy⟩ := hg'
      obtain ⟨o, hok⟩ := hg.1 e ((h e (by rw [hy]; simp)).2 he)
      rw [hok] at hy
      cases hy
  | error x =>
    rw [ho] at hg
    obtain ⟨e, he, y, hy⟩ := hg
    cases ho' : gather allow verdict [] es' with
    | ok dest' =>
      rw [ho'] at hg'
      obtain ⟨o, hok⟩ := hg'.1 e ((h e (by rw [hy]; simp)).1 he)
      rw [hok] at hy
      cases hy
    | error x' => trivial

end Gather

end Candidates
