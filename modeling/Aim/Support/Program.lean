import Mathlib

/-!
# Support — Programs

Programs over a state that end with a value, with an error the caller may handle, or with a fault
nobody handles (a failed index, an `unwrap` of nothing).  An error and a fault keep the changes
made before them, as a mutable borrow does: only the control flow is cut short.

`wp bad x Q E s` says how the run of `x` from `s` may end: with a value in `Q`, with an error in
`E`, or with a fault in `bad`.  Specifications are implications from a precondition to `wp`;
`wp_bind` and the rules of the primitives take a program apart, `wp_mono` puts the specification
of a callee in its place, and `wp_forM_range` is the rule of loops.
-/

/-- How a run ends. -/
inductive Outcome (φ ε σ α : Type) where
  | ok (a : α) (s : σ)
  | err (e : ε) (s : σ)
  | fault (f : φ) (s : σ)
  deriving DecidableEq

/-- Whether a run ends with a value. -/
def Outcome.isOk {φ ε σ α : Type} : Outcome φ ε σ α → Bool
  | .ok _ _ => true
  | .err _ _ | .fault _ _ => false

/-- A program: faults in `φ`, errors in `ε`, state `σ`, value `α`. -/
def Prog (φ ε σ α : Type) := σ → Outcome φ ε σ α

namespace Prog

variable {φ ε ε' σ τ α β : Type}

def pure (a : α) : Prog φ ε σ α := fun s => .ok a s

def bind (x : Prog φ ε σ α) (f : α → Prog φ ε σ β) : Prog φ ε σ β := fun s =>
  match x s with
  | .ok a s' => f a s'
  | .err e s' => .err e s'
  | .fault f s' => .fault f s'

instance : Monad (Prog φ ε σ) where
  pure := Prog.pure
  bind := Prog.bind

theorem bind_assoc {γ : Type} (x : Prog φ ε σ α) (f : α → Prog φ ε σ β) (g : β → Prog φ ε σ γ) :
    x >>= f >>= g = x >>= fun a => f a >>= g := by
  funext s
  change Prog.bind (Prog.bind x f) g s = Prog.bind x (fun a => Prog.bind (f a) g) s
  unfold Prog.bind
  cases x s <;> rfl

instance : LawfulMonad (Prog φ ε σ) :=
  LawfulMonad.mk' (Prog φ ε σ)
    (fun x => by
      funext s
      change Prog.bind x Prog.pure s = x s
      unfold Prog.bind
      cases x s <;> rfl)
    (fun _ _ => rfl) bind_assoc

section Run

variable {x : Prog φ ε σ α} {f : α → Prog φ ε σ β} {s s' : σ} {a : α} {e : ε}

/-- A step that returns goes on with its value. -/
theorem run_ok (h : x s = .ok a s') : (x >>= f) s = f a s' := by
  change Prog.bind x f s = _
  rw [Prog.bind, h]

/-- A step that fails ends the program. -/
theorem run_err (h : x s = .err e s') : (x >>= f) s = .err e s' := by
  change Prog.bind x f s = _
  rw [Prog.bind, h]

end Run

/-- The state. -/
def get : Prog φ ε σ σ := fun s => .ok s s

/-- The state, changed. -/
def modify (f : σ → σ) : Prog φ ε σ Unit := fun s => .ok () (f s)

theorem get_ok {s : σ} : (get : Prog φ ε σ σ) s = .ok s s := rfl

/-- A change of the state that also returns a value. -/
def update (f : σ → α × σ) : Prog φ ε σ α := fun s => .ok (f s).1 (f s).2

def throw (e : ε) : Prog φ ε σ α := fun s => .err e s

def fault (f : φ) : Prog φ ε σ α := fun s => .fault f s

/-- The value an option holds; a fault if it holds none. -/
def expect (f : φ) : Option α → Prog φ ε σ α
  | some a => Prog.pure a
  | none => Prog.fault f

/-- The value an option holds; an error if it holds none. -/
def orThrow (e : ε) : Option α → Prog φ ε σ α
  | some a => Prog.pure a
  | none => Prog.throw e

/-- The program with its errors handed to the caller as values. -/
def attempt (x : Prog φ ε' σ α) : Prog φ ε σ (Except ε' α) := fun s =>
  match x s with
  | .ok a s' => .ok (.ok a) s'
  | .err e s' => .ok (.error e) s'
  | .fault f s' => .fault f s'

/-- The program with its errors translated. -/
def mapErr (g : ε' → ε) (x : Prog φ ε' σ α) : Prog φ ε σ α := fun s =>
  match x s with
  | .ok a s' => .ok a s'
  | .err e s' => .err (g e) s'
  | .fault f s' => .fault f s'

/-- A program over a part of the state, run on the whole. -/
def zoom (part : τ → σ) (put : σ → τ → τ) (x : Prog φ ε σ α) : Prog φ ε τ α := fun t =>
  match x (part t) with
  | .ok a s => .ok a (put s t)
  | .err e s => .err e (put s t)
  | .fault f s => .fault f (put s t)

section Run

variable {x : Prog φ ε σ α} {s s' : σ} {a : α} {e : ε}

theorem attempt_ok (h : x s = .ok a s') :
    (x.attempt : Prog φ ε' σ (Except ε α)) s = .ok (.ok a) s' := by
  rw [attempt, h]

theorem attempt_err (h : x s = .err e s') :
    (x.attempt : Prog φ ε' σ (Except ε α)) s = .ok (.error e) s' := by
  rw [attempt, h]

theorem mapErr_ok {g : ε → ε'} (h : x s = .ok a s') : x.mapErr g s = .ok a s' := by
  rw [mapErr, h]

variable {o : Option α}

theorem orThrow_ok (h : o = some a) : (orThrow e o : Prog φ ε σ α) s = .ok a s := by
  subst h
  rfl

theorem orThrow_err (h : o = none) : (orThrow e o : Prog φ ε σ α) s = .err e s := by
  subst h
  rfl

end Run

/-- From a state in `I`, every value the program returns is in `Q`, and the state is in `I` again. -/
def Returns (I : σ → Prop) (x : Prog φ ε σ α) (Q : α → Prop) : Prop :=
  ∀ s a s', I s → x s = .ok a s' → I s' ∧ Q a

section Returns

variable {x : Prog φ ε σ α} {f : α → Prog φ ε σ β} {P : α → Prop} {Q : β → Prop}

/-- A run of a sequence that returns. -/
theorem bind_eq_ok {s s' : σ} {b : β} (h : (x >>= f) s = .ok b s') :
    ∃ a s₁, x s = .ok a s₁ ∧ f a s₁ = .ok b s' := by
  change Prog.bind x f s = _ at h
  unfold Prog.bind at h
  cases hx : x s with
  | ok a s₁ => rw [hx] at h; exact ⟨a, s₁, rfl, h⟩
  | err e s₁ => rw [hx] at h; cases h
  | fault e s₁ => rw [hx] at h; cases h

variable {o : Option α} {a : α}

theorem expect_eq_ok {e : φ} {s s' : σ}
    (h : (expect e o : Prog φ ε σ α) s = .ok a s') : o = some a ∧ s = s' := by
  cases o <;> cases h
  exact ⟨rfl, rfl⟩

/-- The same for a value that is there. -/
theorem expect_bind_eq_ok {e : φ} {s s' : σ} {b : β}
    (h : ((expect e o : Prog φ ε σ α) >>= f) s = .ok b s') : ∃ a, o = some a ∧ f a s = .ok b s' := by
  obtain ⟨a, s₁, ha, hf⟩ := bind_eq_ok h
  obtain ⟨ho, rfl⟩ := expect_eq_ok ha
  exact ⟨a, ho, hf⟩

/-- A value was there, and the state is the same. -/
theorem orThrow_eq_ok {e : ε} {s s' : σ}
    (h : (orThrow e o : Prog φ ε σ α) s = .ok a s') : o = some a ∧ s = s' := by
  cases o <;> cases h
  exact ⟨rfl, rfl⟩

theorem mapErr_eq_ok {g : ε → ε'} {s s' : σ} (h : x.mapErr g s = .ok a s') : x s = .ok a s' := by
  unfold mapErr at h
  cases hx : x s with
  | ok b s₁ => rw [hx] at h; cases h; rfl
  | err e s₁ => rw [hx] at h; cases h
  | fault e s₁ => rw [hx] at h; cases h

variable {I : σ → Prop}

theorem Returns.pure (h : P a) : Returns I (Pure.pure a : Prog φ ε σ α) P := by
  intro s b s' hs hb
  cases hb
  exact ⟨hs, h⟩

/-- The rule of sequences: the second part may use what the first returns. -/
theorem Returns.bind (hx : Returns I x P) (hf : ∀ a, P a → Returns I (f a) Q) :
    Returns I (x >>= f) Q := by
  intro s b s' hs h
  obtain ⟨a, s₁, ha, hb⟩ := bind_eq_ok h
  obtain ⟨hs₁, hP⟩ := hx s a s₁ hs ha
  exact hf a hP s₁ b s' hs₁ hb

/-- The state that is read has the invariant. -/
theorem Returns.get : Returns I (get : Prog φ ε σ σ) I := by
  intro s b s' hs hb
  cases hb
  exact ⟨hs, hs⟩

theorem Returns.throw (e : ε) : Returns I (throw e : Prog φ ε σ α) P := nofun

theorem Returns.fault (e : φ) : Returns I (fault e : Prog φ ε σ α) P := nofun

theorem Returns.expect (e : φ) (o : Option α) :
    Returns I (Prog.expect e o : Prog φ ε σ α) fun a => o = some a := by
  intro s a s' hs h
  obtain ⟨ho, rfl⟩ := expect_eq_ok h
  exact ⟨hs, ho⟩

theorem Returns.orThrow (e : ε) (o : Option α) :
    Returns I (Prog.orThrow e o : Prog φ ε σ α) fun a => o = some a := by
  intro s a s' hs h
  obtain ⟨ho, rfl⟩ := orThrow_eq_ok h
  exact ⟨hs, ho⟩

theorem Returns.mapErr {g : ε → ε'} (hx : Returns I x P) : Returns I (x.mapErr g) P :=
  fun s a s' hs h => hx s a s' hs (mapErr_eq_ok h)

theorem Returns.ite {c : Prop} [Decidable c] {y : Prog φ ε σ α} (hx : c → Returns I x P)
    (hy : ¬ c → Returns I y P) : Returns I (if c then x else y) P := by
  split
  · next h => exact hx h
  · next h => exact hy h

theorem Returns.mono {P' : α → Prop} (hx : Returns I x P) (h : ∀ a, P a → P' a) :
    Returns I x P' := fun s a s' hs ha => (hx s a s' hs ha).imp_right (h a)

end Returns

/-- The second program does what the first does, but where the first ends in a fault. -/
def Covers (x x' : Prog φ ε σ α) : Prop := ∀ s, x' s = x s ∨ ∃ f s', x s = .fault f s'

theorem Covers.refl (x : Prog φ ε σ α) : Covers x x := fun _ => .inl rfl

variable {x : Prog φ ε σ α}

/-- Programs are covered part by part. -/
theorem Covers.bind {x' : Prog φ ε σ α} {k k' : α → Prog φ ε σ β} (hx : Covers x x')
    (hk : ∀ a, Covers (k a) (k' a)) : Covers (x >>= k) (x' >>= k') := by
  intro s
  change Prog.bind x' k' s = Prog.bind x k s ∨ ∃ f s', Prog.bind x k s = .fault f s'
  unfold Prog.bind
  rcases hx s with he | ⟨f, s', hf⟩
  · rw [he]
    cases x s with
    | ok a s' => exact hk a s'
    | err e s' => exact .inl rfl
    | fault f s' => exact .inl rfl
  · rw [hf]
    exact .inr ⟨f, s', rfl⟩

theorem Covers.ite {c : Prop} [Decidable c] {x' y y' : Prog φ ε σ α} (hx : c → Covers x x')
    (hy : ¬ c → Covers y y') : Covers (if c then x else y) (if c then x' else y') := by
  split
  · next h => exact hx h
  · next h => exact hy h

/-- Where a run may end. -/
def wp (bad : φ → σ → Prop) (x : Prog φ ε σ α) (Q : α → σ → Prop) (E : ε → σ → Prop) (s : σ) :
    Prop :=
  match x s with
  | .ok a s' => Q a s'
  | .err e s' => E e s'
  | .fault f s' => bad f s'

variable {bad : φ → σ → Prop} {Q Q' : α → σ → Prop} {E E' : ε → σ → Prop} {s : σ}

/-! ### Consequence -/

/-- **Consequence.** -/
theorem wp_mono (h : wp bad x Q E s) (hQ : ∀ a s', Q a s' → Q' a s')
    (hE : ∀ e s', E e s' → E' e s') : wp bad x Q' E' s := by
  unfold wp at h ⊢
  cases hx : x s with
  | ok a s' => rw [hx] at h; exact hQ a s' h
  | err e s' => rw [hx] at h; exact hE e s' h
  | fault f s' => rw [hx] at h; exact h

variable {s' : σ}

/-- What the specification says of a run whose end is known. -/
theorem wp_ok {a : α} (h : wp bad x Q E s) (hx : x s = .ok a s') : Q a s' := by
  unfold wp at h; rw [hx] at h; exact h

theorem wp_err {e : ε} (h : wp bad x Q E s) (hx : x s = .err e s') : E e s' := by
  unfold wp at h; rw [hx] at h; exact h

theorem wp_bad {f : φ} (h : wp bad x Q E s) (hx : x s = .fault f s') : bad f s' := by
  unfold wp at h; rw [hx] at h; exact h

/-! ### The rules of the constructs -/

@[simp] theorem wp_pure (a : α) : wp bad (Pure.pure a : Prog φ ε σ α) Q E s ↔ Q a s := Iff.rfl

/-- **Sequence.**  The second part is specified by what the first leaves. -/
@[simp] theorem wp_bind (x : Prog φ ε σ β) (f : β → Prog φ ε σ α) :
    wp bad (x >>= f) Q E s ↔ wp bad x (fun b s' => wp bad (f b) Q E s') E s := by
  show wp bad (Prog.bind x f) Q E s ↔ _
  unfold wp Prog.bind
  cases x s <;> exact Iff.rfl

/-- The specification of a callee in its place. -/
theorem wp_seq {x : Prog φ ε σ β} {f : β → Prog φ ε σ α} {R : β → σ → Prop} (h : wp bad x R E s)
    (hf : ∀ b s', R b s' → wp bad (f b) Q E s') : wp bad (x >>= f) Q E s :=
  (wp_bind x f).2 (wp_mono h hf fun _ _ h => h)

@[simp] theorem wp_map (x : Prog φ ε σ β) (f : β → α) :
    wp bad (f <$> x) Q E s ↔ wp bad x (fun b s' => Q (f b) s') E s :=
  wp_bind x _

@[simp] theorem wp_get {Q : σ → σ → Prop} : wp bad (get : Prog φ ε σ σ) Q E s ↔ Q s s := Iff.rfl

@[simp] theorem wp_modify {Q : Unit → σ → Prop} (f : σ → σ) :
    wp bad (modify f : Prog φ ε σ Unit) Q E s ↔ Q () (f s) := Iff.rfl

@[simp] theorem wp_throw (e : ε) : wp bad (throw e : Prog φ ε σ α) Q E s ↔ E e s := Iff.rfl

@[simp] theorem wp_attempt {Q : Except ε' α → σ → Prop} (x : Prog φ ε' σ α) :
    wp bad (attempt x : Prog φ ε σ (Except ε' α)) Q E s ↔
      wp bad x (fun a => Q (.ok a)) (fun e => Q (.error e)) s := by
  unfold wp attempt
  cases x s <;> exact Iff.rfl

@[simp] theorem wp_ite {c : Prop} [Decidable c] (x y : Prog φ ε σ α) :
    wp bad (if c then x else y) Q E s ↔ (c → wp bad x Q E s) ∧ (¬ c → wp bad y Q E s) := by
  by_cases h : c <;> simp [h]

/-- A loop over a range with an accumulator: `I i a` is what holds before the pass for `i`. -/
theorem wp_foldlM_range {f : α → ℕ → Prog φ ε σ α} (I : ℕ → α → σ → Prop) (n : ℕ)
    (step : ∀ i a s, i < n → I i a s → wp bad (f a i) (fun a' s' => I (i + 1) a' s') E s) {a : α}
    (h : I 0 a s) : wp bad ((List.range n).foldlM f a) (fun a' s' => I n a' s') E s := by
  induction n with
  | zero => exact h
  | succ n ih =>
    rw [List.range_succ, List.foldlM_append, wp_bind]
    refine wp_mono (ih fun i a s hi => step i a s (Nat.lt_succ_of_lt hi)) (fun a' s' hI => ?_)
      fun _ _ h => h
    rw [List.foldlM_cons, wp_bind]
    exact step n a' s' (Nat.lt_succ_self n) hI

/-- A loop over a range: `I i` is what holds before the pass for `i`. -/
theorem wp_forM_range {f : ℕ → Prog φ ε σ PUnit} (I : ℕ → σ → Prop) (n : ℕ)
    (step : ∀ i s, i < n → I i s → wp bad (f i) (fun _ s' => I (i + 1) s') E s) (h : I 0 s) :
    wp bad ((List.range n).forM f) (fun _ s' => I n s') E s := by
  induction n with
  | zero => exact h
  | succ n ih =>
    rw [List.range_succ, List.forM_eq_forM, List.forM_append, wp_bind]
    refine wp_mono (ih fun i s hi => step i s (Nat.lt_succ_of_lt hi)) (fun _ s' hI => ?_)
      fun _ _ h => h
    rw [List.forM_cons, wp_bind]
    exact step n s' (Nat.lt_succ_self n) hI

/-- **The rule of `mapM`.**  Each element is related to what it becomes. -/
theorem wp_mapM {f : β → Prog φ ε σ α} (R : β → α → Prop) (I : σ → Prop)
    (step : ∀ b s, I s → wp bad (f b) (fun a s' => R b a ∧ I s') E s) :
    ∀ (bs : List β) (s : σ), I s →
      wp bad (bs.mapM f) (fun as s' => List.Forall₂ R bs as ∧ I s') E s
  | [], _, h => ⟨.nil, h⟩
  | b :: rest, s, h => by
      rw [List.mapM_cons, wp_bind]
      refine wp_mono (step b s h) (fun a s' ha => ?_) fun _ _ h => h
      rw [wp_bind]
      exact wp_mono (wp_mapM R I step rest s' ha.2)
        (fun as s'' has => ⟨.cons ha.1 has.1, has.2⟩) fun _ _ h => h

end Prog
