import Aim.Futex.Pi

/-!
# Futex — A PI futex has one owner

The TID bits of the word are those of the thread that has the futex.  Every access that changes them
does so when they are 0 or its own thread's, but for one: `owner_died` frees the word without the
lock, and its hand-over then stores the word whatever it is.

* `Inv.move` is the frame: what a step of one thread must leave alone for the others.
* `pi_futex_one_owner`: one owner, in every run in which the word is still free when the futex of a
  dead owner is handed over.
* `dead_owner_handed_twice`: a thread that takes the word in between has it, and the first waiter is
  given it too.
-/

namespace Aim.Futex.Pi

open Function

/-! ### The TID bits -/

@[simp] theorem tidBits_owner (t : Owner) : tidBits t.1 = t.1 := t.2.2

@[simp] theorem tidBits_zero : tidBits 0#32 = 0#32 := rfl

theorem tidBits_or (v v' : Word) : tidBits (v ||| v') = tidBits v ||| tidBits v' :=
  BitVec.and_or_distrib_right

theorem tidBits_and (v v' : Word) : tidBits (v &&& v') = v &&& tidBits v' := BitVec.and_assoc ..

@[simp] theorem tidBits_waiters : tidBits FUTEX_WAITERS = 0 := rfl

@[simp] theorem tidBits_ownerDied : tidBits FUTEX_OWNER_DIED = 0 := rfl

@[simp] theorem tidBits_keep (why : Why) : tidBits why.keep = 0 := by
  cases why with
  | unlock => rfl
  | died rest => exact tidBits_ownerDied

/-! ### The invariant -/

namespace State

/-- What holds of a thread, where it is. -/
def At (s : State) (t : Owner) : Pc → Prop
  | .taking _ v => tidBits v = 0
  | .looking | .deciding => s.woken t = true → s.holds t = true
  | .leaving r | .confirming r => r ≠ 0 ∧ (s.woken t = true → s.holds t = true)
  | .returning r => r = 0 → s.holds t = true
  | .handing .unlock => tidBits s.word = t.1
  | .claiming first _ => first ∈ s.queue ∧ s.holds first = true
  | _ => True

structure Inv (s : State) : Prop where
  owner : ∀ t, s.holds t = true → tidBits s.word = t.1
  locked : ∀ t, s.lock = some t ↔ (s.pc t).Locked
  queued : ∀ t ∈ s.queue, (s.pc t).Waits ∧ s.woken t = false
  place : ∀ t, s.At t (s.pc t)

variable {s s' s₁ : State} {t u : Owner} {p q : Pc}

theorem Inv.locked_unique (h : Inv s) (ht : (s.pc t).Locked) (hu : (s.pc u).Locked) : t = u :=
  Option.some.inj (((h.locked t).2 ht).symm.trans ((h.locked u).2 hu))

/-- Nobody has a futex whose TID bits are 0, or those of another. -/
theorem Inv.holds_eq (h : Inv s) (hw : tidBits s.word = 0 ∨ tidBits s.word = t.1)
    (hu : s.holds u = true) : u = t := by
  have ho := h.owner u hu
  rcases hw with hw | hw
  · exact absurd (ho.symm.trans hw) u.2.1
  · exact Subtype.ext (ho.symm.trans hw)

/-- What a step of one thread leaves alone. -/
structure Frame (s s' : State) (t : Owner) : Prop where
  pc : ∀ u, u ≠ t → s'.pc u = s.pc u
  /-- The TID bits change under the lock, or from 0, or from the thread's own. -/
  word : tidBits s'.word = tidBits s.word ∨ tidBits s.word = 0 ∨ tidBits s.word = t.1 ∨
    (s.pc t).Locked
  /-- The thread gives up only what is its own, and not while it waits. -/
  holds : ∀ u, s.holds u = true → s'.holds u = true ∨ u = t ∧ ¬ (s.pc t).Waits
  queue : s'.queue = s.queue ∨ (s.pc t).Locked
  link : ∀ u ∈ s'.queue, u ≠ t → u ∈ s.queue
  woken : ∀ u, u ≠ t → s'.woken u = s.woken u ∨ s'.holds u = true ∧ u ∉ s'.queue
  lock : ∀ u, u ≠ t → (s'.lock = some u ↔ s.lock = some u)

/-- The others are where they were, with what they had. -/
theorem Frame.place (hf : Frame s s' t) (h : Inv s) (hu : u ≠ t) : s'.At u (s'.pc u) := by
  have hat := h.place u
  have hholds : s.holds u = true → s'.holds u = true := fun hs =>
    (hf.holds u hs).resolve_right fun hc => hu hc.1
  have hwoken : (s.woken u = true → s.holds u = true) → s'.woken u = true → s'.holds u = true := by
    intro hw hw'
    rcases hf.woken u hu with he | he
    · exact hholds (hw (he ▸ hw'))
    · exact he.1
  have hunlocked : (s.pc u).Locked → ¬ (s.pc t).Locked := fun hl hl' =>
    hu (h.locked_unique hl hl')
  rw [hf.pc u hu]
  cases hp : s.pc u with
  | looking | deciding =>
    rw [hp] at hat
    exact hwoken hat
  | leaving r | confirming r =>
    rw [hp] at hat
    exact ⟨hat.1, hwoken hat.2⟩
  | returning r =>
    rw [hp] at hat
    exact fun hr => hholds (hat hr)
  | taking once v =>
    rw [hp] at hat
    exact hat
  | handing why =>
    rw [hp] at hat hunlocked
    cases why with
    | died rest => trivial
    | unlock =>
      rcases hf.word with hw | hw | hw | hw
      · exact hw.trans hat
      · exact absurd (hat.symm.trans hw) u.2.1
      · exact absurd (Subtype.ext (hat.symm.trans hw)) hu
      · exact absurd hw (hunlocked trivial)
  | claiming first why =>
    rw [hp] at hat hunlocked
    have hq : s'.queue = s.queue := hf.queue.resolve_right (hunlocked trivial)
    refine ⟨hq ▸ hat.1, (hf.holds first hat.2).resolve_right ?_⟩
    rintro ⟨rfl, hn⟩
    exact hn (h.queued first hat.1).1
  | _ => trivial

theorem at_goto : (s.goto t p).At t p ↔ s.At t p := by
  cases p with
  | handing why => cases why <;> exact Iff.rfl
  | _ => exact Iff.rfl

/-- The frame, and what the step does to its own thread. -/
theorem Inv.move (h : Inv s) (hf : Frame s (s₁.goto t p) t)
    (howner : ∀ u, s₁.holds u = true → tidBits s₁.word = u.1) (hlock : s₁.lock = some t ↔ p.Locked)
    (hqueue : t ∈ s₁.queue → p.Waits ∧ s₁.woken t = false) (hat : s₁.At t p) :
    Inv (s₁.goto t p) := by
  have hself : (s₁.goto t p).pc t = p := update_self ..
  refine ⟨howner, fun u => ?_, fun u hq => ?_, fun u => ?_⟩
  · by_cases hu : u = t
    · rw [hu, hself]
      exact hlock
    · rw [hf.lock u hu, hf.pc u hu]
      exact h.locked u
  · by_cases hu : u = t
    · rw [hu] at hq ⊢
      rw [hself]
      exact hqueue hq
    have hold := h.queued u (hf.link u hq hu)
    rw [hf.pc u hu]
    refine ⟨hold.1, ?_⟩
    rcases hf.woken u hu with he | he
    · exact he.trans hold.2
    · exact absurd hq he.2
  · by_cases hu : u = t
    · rw [hu, hself]
      exact at_goto.2 hat
    · exact hf.place h hu

/-! ### One lemma a step -/

theorem goto_eq_self (hp : s.pc t = p) : s.goto t p = s := by
  rw [State.goto, ← hp, update_eq_self]

theorem Inv.not_queued (h : Inv s) (hp : s.pc t = q) (hw : ¬ q.Waits) : t ∉ s.queue := fun hq =>
  hw (hp ▸ (h.queued t hq).1)

theorem Inv.at_pc (h : Inv s) (hp : s.pc t = q) : s.At t q := hp ▸ h.place t

/-- The lock is as the thread's new place says, and the others' as it was. -/
def Relocks (s s' : State) (t : Owner) (p : Pc) : Prop :=
  (∀ u, u ≠ t → (s'.lock = some u ↔ s.lock = some u)) ∧ (s'.lock = some t ↔ p.Locked)

theorem Inv.keeps (h : Inv s) (hp : s.pc t = q) (hl : p.Locked ↔ q.Locked)
    (he : s'.lock = s.lock) : Relocks s s' t p := by
  rw [Relocks, he]
  exact ⟨fun _ _ => Iff.rfl, (h.locked t).trans (by rw [hp, hl])⟩

theorem Inv.unlocks (h : Inv s) (hp : s.pc t = q) (hl : q.Locked) (hn : ¬ p.Locked)
    (he : s'.lock = none) : Relocks s s' t p := by
  rw [Relocks, he, (h.locked t).2 (hp ▸ hl)]
  exact ⟨fun u hu => ⟨nofun, fun hc => absurd (Option.some.inj hc).symm hu⟩, nofun,
    fun hc => absurd hc hn⟩

theorem locks (hn : s.lock = none) (hl : p.Locked) (he : s'.lock = some t) : Relocks s s' t p := by
  rw [Relocks, he, hn]
  exact ⟨fun u hu => ⟨fun hc => absurd (Option.some.inj hc).symm hu, nofun⟩, fun _ => hl,
    fun _ => rfl⟩

variable (h : Inv s)

include h

variable {lock : Option Owner}

/-- The thread goes on, with nothing changed but the lock. -/
theorem Inv.go (hl : Relocks s { s with lock } t p)
    (hw : t ∈ s.queue → p.Waits) (hat : s.At t p) : Inv ({ s with lock }.goto t p) :=
  h.move ⟨fun _ hu => update_of_ne hu .., .inl rfl, fun _ hs => .inl hs, .inl rfl,
    fun _ hq _ => hq, fun _ _ => .inl rfl, hl.1⟩ h.owner hl.2
    (fun hq => ⟨hw hq, (h.queued t hq).2⟩) (at_goto.1 (at_goto.2 hat))

theorem Inv.goto (hp : s.pc t = q) (hl : p.Locked ↔ q.Locked)
    (hw : q.Waits → p.Waits) (hat : s.At t p) : Inv (s.goto t p) :=
  h.go (h.keeps hp hl rfl) (fun hq => hw (hp ▸ (h.queued t hq).1)) hat

theorem Inv.tryLock (hs : s.tryLock t p = some s') (hp : s.pc t = q) (hl : p.Locked)
    (hw : q.Waits → p.Waits) (hat : s.At t p) : Inv s' := by
  rw [State.tryLock] at hs
  split_ifs at hs with hn
  cases hs
  exact h.go (locks hn hl rfl) (fun hq => hw (hp ▸ (h.queued t hq).1)) hat

/-- The locked section of a thread that does not wait ends, with the word and the waiters as they
were. -/
theorem Inv.leave (hp : s.pc t = q) (hl : q.Locked) (hw : ¬ q.Waits)
    (hn : ¬ p.Locked) (hat : s.At t p) : Inv (s.leave t p) :=
  h.go (h.unlocks hp hl hn rfl) (fun hq => absurd hq (h.not_queued hp hw)) hat

variable {word : Word}

/-- A thread that does not wait changes the word, or who has the futex. -/
theorem Inv.write {holds : Owner → Bool}
    (hp : s.pc t = q) (hw : ¬ q.Waits) (hl : Relocks s { s with lock } t p)
    (hword : tidBits word = tidBits s.word ∨ tidBits s.word = 0 ∨ tidBits s.word = t.1 ∨ q.Locked)
    (hholds : ∀ u, u ≠ t → s.holds u = true → holds u = true)
    (howner : ∀ u, holds u = true → tidBits word = u.1)
    (hat : { s with word, holds, lock }.At t p) :
    Inv ({ s with word, holds, lock }.goto t p) := by
  subst hp
  refine h.move ⟨fun _ hu => update_of_ne hu .., hword, fun u hs => ?_, .inl rfl,
    fun _ hq _ => hq, fun _ _ => .inl rfl, hl.1⟩ howner hl.2
    (fun hq => absurd hq (h.not_queued rfl hw)) hat
  by_cases hu : u = t
  · exact .inr ⟨hu, hw⟩
  · exact .inl (hholds u hu hs)

/-- The word is taken when its TID bits are 0. -/
theorem Inv.take (hp : s.pc t = q) (hw : ¬ q.Waits)
    (hl : Relocks s { s with lock } t p) (hfree : tidBits s.word = 0) (hword : tidBits word = t.1)
    (hat : { s with word, holds := Function.update s.holds t true, lock }.At t p) :
    Inv ({ s with word, holds := Function.update s.holds t true, lock }.goto t p) := by
  refine h.write hp hw hl (.inr (.inl hfree)) (fun u hu hs => ?_) (fun u hs => ?_) hat
  · rwa [update_of_ne hu]
  by_cases hu : u = t
  · rw [hu]
    exact hword
  · rw [update_of_ne hu] at hs
    exact absurd (h.holds_eq (.inl hfree) hs) hu

/-- The thread gives up the futex.  Nobody else has it, or the word stays. -/
theorem Inv.giveUp (hp : s.pc t = q) (hw : ¬ q.Waits) (hl : Relocks s { s with lock } t p)
    (hfree : (tidBits s.word = 0 ∨ tidBits s.word = t.1) ∨ word = s.word)
    (hat : { s with word, holds := Function.update s.holds t false, lock }.At t p) :
    Inv ({ s with word, holds := Function.update s.holds t false, lock }.goto t p) := by
  refine h.write hp hw hl ?_ (fun u hu hs => ?_) (fun u hs => ?_) hat
  · rcases hfree with (hf | hf) | hf
    · exact .inr (.inl hf)
    · exact .inr (.inr (.inl hf))
    · exact .inl (congrArg tidBits hf)
  · rwa [update_of_ne hu]
  · by_cases hu : u = t
    · rw [hu, update_self] at hs
      cases hs
    rw [update_of_ne hu] at hs
    rcases hfree with hf | hf
    · exact absurd (h.holds_eq hf hs) hu
    · rw [hf]
      exact h.owner u hs

variable {first : Owner}

/-- The thread gives the futex to the first waiter. -/
theorem Inv.handOver {why : Why} (hp : s.pc t = .handing why) (hq : first ∈ s.queue)
    (hfree : tidBits s.word = 0 ∨ tidBits s.word = t.1) (hword : tidBits word = first.1) :
    Inv ((({ s with word }.released t).acquired first).goto t (.claiming first why)) := by
  refine h.write hp id (h.keeps hp Iff.rfl rfl) (.inr (.inr (.inr trivial)))
    (fun u hu hs => absurd (h.holds_eq hfree hs) hu) (fun u hs => ?_)
    ⟨hq, update_self ..⟩
  have hs : Function.update (Function.update s.holds t false) first true u = true := hs
  by_cases hu : u = first
  · rw [hu]
    exact hword
  rw [update_of_ne hu] at hs
  by_cases ht : u = t
  · rw [ht, update_self] at hs
    cases hs
  · rw [update_of_ne ht] at hs
    exact absurd (h.holds_eq hfree hs) ht

/-- A new waiter is linked. -/
theorem Inv.link (hp : s.pc t = .linking) :
    Inv ({ s with queue := t :: s.queue, woken := Function.update s.woken t false }.leave t
      .looking) := by
  have hr : Relocks s { s with lock := none } t .looking := h.unlocks hp trivial id rfl
  refine h.move
    ⟨fun _ hu => update_of_ne hu .., .inl rfl, fun _ hs => .inl hs, .inr (hp ▸ trivial),
      fun u hq hu => (List.mem_cons.1 hq).resolve_left hu,
      fun u hu => .inl (update_of_ne hu ..), hr.1⟩ h.owner hr.2 (fun _ => ⟨trivial, update_self ..⟩)
        fun hw => ?_
  change Function.update s.woken t false t = true at hw
  rw [update_self] at hw
  cases hw

omit h

theorem notMem_filter_ne (l : List Owner) : t ∉ l.filter (· ≠ t) := fun hq => by
  simpa using (List.mem_filter.1 hq).2

/-- A waiter that was not claimed unlinks itself. -/
theorem Inv.unlink (h : Inv s) {r : ℤ} (hp : s.pc t = .confirming r) :
    Inv ({ s with queue := s.queue.filter (· ≠ t) }.leave t (.returning r)) := by
  have hr : Relocks s { s with lock := none } t (.returning r) := h.unlocks hp trivial id rfl
  exact h.move
    ⟨fun _ hu => update_of_ne hu .., .inl rfl, fun _ hs => .inl hs, .inr (hp ▸ trivial),
      fun u hq _ => List.mem_of_mem_filter hq, fun _ _ => .inl rfl, hr.1⟩ h.owner hr.2
        (fun hq => absurd hq (notMem_filter_ne _))
    fun h0 => absurd h0 (h.at_pc hp).1

theorem at_ofRest (s : State) (t : Owner) (rest : Option Walk) : s.At t (.ofRest rest) := by
  cases rest <;> trivial

theorem not_locked_ofRest (rest : Option Walk) : ¬ (Pc.ofRest rest).Locked := by
  cases rest <;> exact id

theorem at_after (s : State) (t : Owner) (why : Why) : s.At t why.after := by
  cases why with
  | unlock => trivial
  | died rest => exact at_ofRest s t rest

theorem not_locked_after (why : Why) : ¬ why.after.Locked := by
  cases why with
  | unlock => exact id
  | died rest => exact not_locked_ofRest rest

/-- The new owner is unlinked and claimed. -/
theorem Inv.claim (h : Inv s) {why : Why} (hp : s.pc t = .claiming first why) :
    Inv ({ s with
      queue := s.queue.filter (· ≠ first)
      woken := Function.update s.woken first true }.leave t why.after) := by
  have hr : Relocks s { s with lock := none } t why.after :=
    h.unlocks hp trivial (not_locked_after why) rfl
  refine h.move
    ⟨fun _ hu => update_of_ne hu .., .inl rfl, fun _ hs => .inl hs, .inr (hp ▸ trivial),
      fun u hq _ => List.mem_of_mem_filter hq, fun u _ => ?_, hr.1⟩ h.owner hr.2
    (fun hq => absurd (List.mem_of_mem_filter hq) (h.not_queued hp id)) (at_after _ t why)
  by_cases hu : u = first
  · rw [hu]
    exact .inr ⟨(h.at_pc hp).2, notMem_filter_ne _⟩
  · exact .inl (update_of_ne hu ..)

/-! ### Runs -/

/-- When the futex of a dead owner is handed over, the word is still free. -/
def stillFree (s : State) : Label → Bool
  | .run t =>
    match s.pc t with
    | .handing (.died _) => tidBits s.word = 0
    | _ => true
  | _ => true

/-- The steps that find it so. -/
def quietStep (addr : Addr) (s : State) (l : Label) : Option State :=
  if s.stillFree l then s.step addr l else none

theorem Inv.advance (h : Inv s) (hfree : s.stillFree (.run t) = true) (hs : s.advance t = some s') :
    Inv s' := by
  have hunqueued : s.woken t = true → t ∉ s.queue := fun hw hq => by
    rw [(h.queued t hq).2] at hw
    cases hw
  unfold State.advance at hs
  cases hp : s.pc t with
  | absent | idle | deciding | walking walk => simp [hp] at hs
  | locking once =>
    simp only [hp] at hs
    exact h.tryLock hs hp trivial False.elim trivial
  | loading once =>
    simp only [hp] at hs
    split_ifs at hs with h1 h2 h3 h4 <;> cases hs
    · exact h.goto hp Iff.rfl False.elim h1
    · exact h.leave hp trivial id id fun h0 => absurd h0 (by decide)
    · exact h.leave hp trivial id id fun h0 => absurd h0 (by decide)
    · exact h.goto hp Iff.rfl False.elim trivial
    · exact h.goto hp Iff.rfl False.elim trivial
  | taking once v =>
    have hat : tidBits v = 0 := h.at_pc hp
    simp only [hp] at hs
    split_ifs at hs with h1 <;> cases hs
    · have hword : tidBits (t.1 ||| (v &&& (FUTEX_OWNER_DIED ||| FUTEX_WAITERS))) = t.1 := by
        rw [tidBits_or, tidBits_owner, tidBits_and, tidBits_or]
        simp
      exact h.take hp id (h.unlocks hp trivial id rfl) (h1 ▸ hat) hword
        fun _ => update_self ..
    · exact h.goto hp Iff.rfl False.elim trivial
  | marking v =>
    simp only [hp] at hs
    split_ifs at hs with h1 <;> cases hs
    · have hword : tidBits (v ||| FUTEX_WAITERS) = tidBits s.word := by
        rw [tidBits_or, h1]
        simp
      refine h.write hp id (h.keeps hp Iff.rfl rfl) (.inl hword) (fun _ _ hs => hs)
        (fun u hs => ?_) trivial
      rw [hword]
      exact h.owner u hs
    · exact h.goto hp Iff.rfl False.elim trivial
  | linking =>
    simp only [hp] at hs
    cases hs
    exact h.link hp
  | looking =>
    simp only [hp] at hs
    split_ifs at hs with h1 <;> cases hs
    · exact h.go (h.keeps hp Iff.rfl rfl) (fun hq => absurd hq (hunqueued h1))
        fun _ => h.at_pc hp h1
    · exact h.goto hp Iff.rfl (fun _ => trivial) (show s.At t .looking from h.at_pc hp)
  | leaving r =>
    simp only [hp] at hs
    exact h.tryLock hs hp trivial (fun _ => trivial) (show s.At t (.leaving r) from h.at_pc hp)
  | confirming r =>
    simp only [hp] at hs
    split_ifs at hs with h1 <;> cases hs
    · exact h.go (h.unlocks hp trivial id rfl) (fun hq => absurd hq (hunqueued h1))
        fun _ => (h.at_pc hp).2 h1
    · exact h.unlink hp
  | returning r =>
    simp only [hp] at hs
    cases hs
    exact h.goto hp Iff.rfl False.elim trivial
  | unlocking =>
    simp only [hp] at hs
    exact h.tryLock hs hp trivial False.elim trivial
  | checking =>
    simp only [hp] at hs
    split_ifs at hs with h1 <;> cases hs
    · exact h.leave hp trivial id id trivial
    · exact h.goto hp Iff.rfl False.elim (not_not.1 h1)
  | handing why =>
    have hbits : tidBits s.word = 0 ∨ tidBits s.word = t.1 := by
      cases why with
      | unlock => exact .inr (h.at_pc hp)
      | died rest =>
        simp only [stillFree, hp, decide_eq_true_eq] at hfree
        exact .inl hfree
    simp only [hp] at hs
    split at hs <;> cases hs
    · exact h.giveUp hp id (h.unlocks hp trivial (not_locked_after why) rfl) (.inl hbits)
        (at_after _ t why)
    · next first more hq =>
      refine h.handOver hp (hq ▸ List.mem_cons_self) hbits ?_
      rw [tidBits_or, tidBits_or, tidBits_owner, tidBits_keep]
      split_ifs <;> simp
  | claiming first why =>
    simp only [hp] at hs
    cases hs
    exact h.claim hp
  | dying pi rest =>
    simp only [hp] at hs
    cases hs
    exact h.goto hp Iff.rfl False.elim trivial
  | updating pi rest v =>
    have hrest : (Pc.ofRest rest).Locked ↔ (Pc.updating pi rest v).Locked :=
      iff_of_false (not_locked_ofRest rest) id
    simp only [hp] at hs
    split_ifs at hs with h1 h2 h3 <;> cases hs
    · exact h.goto hp hrest False.elim (at_ofRest s t rest)
    · exact h.giveUp hp id (h.keeps hp Iff.rfl rfl) (.inl (.inr (h2 ▸ not_not.1 h1))) trivial
    · exact h.giveUp hp id (h.keeps hp hrest rfl) (.inl (.inr (h2 ▸ not_not.1 h1)))
        (at_ofRest _ t rest)
    · exact h.goto hp Iff.rfl False.elim trivial
  | burying rest =>
    simp only [hp] at hs
    exact h.tryLock hs hp trivial False.elim trivial

theorem Inv.fault (h : Inv s) (hs : s.fault t = some s') : Inv s' := by
  unfold State.fault at hs
  cases hp : s.pc t with
  | loading once | taking once v | marking v =>
    simp only [hp] at hs
    cases hs
    exact h.leave hp trivial id id fun h0 => absurd h0 (by decide)
  | checking =>
    simp only [hp] at hs
    cases hs
    exact h.leave hp trivial id id trivial
  | handing why =>
    simp only [hp] at hs
    cases hs
    exact h.leave hp trivial id (not_locked_after why) (at_after s t why)
  | dying pi rest | updating pi rest v =>
    simp only [hp] at hs
    cases hs
    exact h.goto hp (iff_of_false (not_locked_ofRest rest) id) False.elim (at_ofRest s t rest)
  | _ => simp [hp] at hs

variable {addr : Addr}

theorem Inv.walk (h : Inv s) {w : Walk} {next : Option Addr}
    (hp : s.pc t = .walking w) : Inv (s.walk addr t w next) := by
  have hrest : ∀ rest, Inv (s.goto t (.ofRest rest)) := fun rest =>
    h.goto hp (iff_of_false (not_locked_ofRest rest) id) False.elim (at_ofRest s t rest)
  have hdied : ∀ uaddr pi rest, Inv (s.ownerDied t addr uaddr pi rest) := by
    intro uaddr pi rest
    rw [State.ownerDied]
    split_ifs
    · exact h.goto hp Iff.rfl False.elim trivial
    · exact hrest rest
  unfold State.walk
  split_ifs
  · exact hdied ..
  · exact hrest none
  · cases next with
    | none => exact hrest none
    | some next => exact hdied ..
  · cases next with
    | none => exact hrest none
    | some next => exact hrest _

/-- Every step keeps the invariant. -/
theorem Inv.step {l : Label} (h : Inv s) (hfree : s.stillFree l = true)
    (hs : s.step addr l = some s') : Inv s' := by
  cases l with
  | born t =>
    simp only [State.step] at hs
    split_ifs at hs with hp
    cases hs
    exact h.giveUp hp id (h.keeps hp Iff.rfl rfl) (.inr rfl) trivial
  | lockPi t once | unlockPi t =>
    simp only [State.step] at hs
    split_ifs at hs with hp
    cases hs
    exact h.goto hp Iff.rfl False.elim trivial
  | fastLock t =>
    simp only [State.step] at hs
    split_ifs at hs with hp
    cases hs
    have hinv : Inv (({ s with word := t.1 }.acquired t).goto t .idle) :=
      h.take hp.1 id (h.keeps hp.1 Iff.rfl rfl) (by rw [hp.2]; rfl) (tidBits_owner t) trivial
    rwa [goto_eq_self (by exact hp.1)] at hinv
  | fastUnlock t =>
    simp only [State.step] at hs
    split_ifs at hs with hp
    cases hs
    have hinv : Inv (({ s with word := 0 }.released t).goto t .idle) :=
      h.giveUp hp.1 id (h.keeps hp.1 Iff.rfl rfl)
        (.inl (.inr (by rw [hp.2]; exact tidBits_owner t))) trivial
    rwa [goto_eq_self (by exact hp.1)] at hinv
  | exit t walk =>
    simp only [State.step] at hs
    split_ifs at hs with hp
    cases hs
    exact h.goto hp (iff_of_false (not_locked_ofRest walk) id) False.elim (at_ofRest s t walk)
  | next t next =>
    simp only [State.step] at hs
    split at hs <;> cases hs
    next w hp => exact h.walk hp
  | run t => exact h.advance hfree hs
  | fault t => exact h.fault hs
  | timeout t | interrupt t =>
    simp only [State.step] at hs
    split_ifs at hs with hp
    cases hs
    exact h.goto hp Iff.rfl (fun _ => trivial) ⟨by decide, h.at_pc hp⟩
  | park t =>
    simp only [State.step] at hs
    split_ifs at hs with hp
    cases hs
    exact h.goto hp Iff.rfl (fun _ => trivial) (show s.At t .deciding from h.at_pc hp)

theorem Inv.of_reachable (hr : Reachable (quietStep addr) s) : Inv s := by
  induction hr with
  | refl => exact ⟨nofun, fun t => ⟨nofun, False.elim⟩, by simp, fun _ => trivial⟩
  | tail _ hs ih =>
    obtain ⟨l, hs⟩ := hs
    rw [quietStep] at hs
    split_ifs at hs with hfree
    exact ih.step hfree hs

/-- **A PI futex has one owner.**  At most one thread has acquired it and not released it, the TID
bits of the word are that thread's, and a `lock_pi` or trylock that returns 0 has acquired it. -/
theorem pi_futex_one_owner {addr : Addr} (hr : Reachable (quietStep addr) s) :
    (∀ t u, s.holds t = true → s.holds u = true → t = u) ∧
      (∀ t, s.holds t = true → tidBits s.word = t.1) ∧
        ∀ t, s.pc t = .returning 0 → s.holds t = true := by
  have h := Inv.of_reachable hr
  refine ⟨fun t u ht hu => ?_, h.owner, fun t hp => ?_⟩
  · exact Subtype.ext ((h.owner t ht).symm.trans (h.owner u hu))
  · have hat := h.place t
    rw [hp] at hat
    exact hat rfl

/-! ### The death of an owner -/

/-- Three threads. -/
def one : Owner := ⟨1, by decide⟩
def two : Owner := ⟨2, by decide⟩
def three : Owner := ⟨3, by decide⟩

/-- The first has the futex and the second waits for it; the first exits, with the futex in its
robust list, and has freed the word. -/
def orphaned : List Label :=
  [.born one, .born two, .born three, .fastLock one, .lockPi two false, .run two, .run two,
    .run two, .run two, .exit one (some ⟨8, 0, 0, 4097, 2048⟩), .next one (some 8), .run one,
    .run one]

/-- The second is handed the futex, and `lock_pi` returns 0. -/
theorem pi_futex_one_owner_orphaned :
    ∃ s, Reachable (quietStep 4096) s ∧ s.pc two = .returning 0 ∧ tidBits s.word = 2 := by
  let ls := orphaned ++ [.run one, .run one, .run one, .run two]
  obtain ⟨s, hs⟩ : ∃ s, exec (quietStep 4096) {} ls = some s := ⟨_, rfl⟩
  have hr : Reachable (quietStep 4096) s := Reachable.exec .refl hs
  have hp : s.pc two = .returning 0 := by cases hs; rfl
  obtain ⟨-, howner, hreturned⟩ := pi_futex_one_owner hr
  exact ⟨s, hr, hp, howner two (hreturned two hp)⟩

/-- **The futex of a dead owner has two.**  The third thread's trylock takes the word that the dying
owner freed; the hand-over stores the second's tid over it. -/
theorem dead_owner_handed_twice :
    ∃ s, Reachable (step 4096) s ∧ s.pc two = .returning 0 ∧ s.pc three = .idle ∧
      s.holds two = true ∧ s.holds three = true ∧ tidBits s.word = 2 := by
  let ls := orphaned ++ [.lockPi three true, .run three, .run three, .run three, .run three,
    .run one, .run one, .run one, .run two]
  obtain ⟨s, hs⟩ : ∃ s, exec (step 4096) {} ls = some s := ⟨_, rfl⟩
  have hr : Reachable (step 4096) s := Reachable.exec .refl hs
  cases hs
  exact ⟨_, hr, rfl, rfl, rfl, rfl, rfl⟩

end State

end Aim.Futex.Pi
