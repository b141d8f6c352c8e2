import Aim.Fmq.Fifo

/-!
# Fmq — No wakeup is lost

Runs of blocking calls.  A side that found too little and has more now either finds its bit set, or
the other side is about to set it; and if it sleeps with the bit set, the other side is about to wake
it (`Wakeful`).  With the FIFO of `Aim.Fmq.Fifo` this is what a message queue promises
(`lossless_fifo`).
-/

namespace Aim.Fmq

/-! ### Sides, bits and waits -/

@[simp] theorem Side.other_other (x : Side) : x.other.other = x := by cases x <;> rfl

theorem Side.other_ne (x : Side) : x.other ≠ x := by cases x <;> decide

theorem Side.eq_or_other (x y : Side) : y = x ∨ y = x.other := by
  cases x <;> cases y <;> decide

theorem Flag.bit_set_self (f : Flag) (x : Side) (b : Bool) : (f.set x b).bit x = b := by
  cases x <;> rfl

/-- In `wait`. -/
def Pc.Waits : Pc → Prop
  | .waitAnd | .waitFutex _ | .asleep => True
  | _ => False

namespace State

variable {c : Config} {s s' : State} {x : Side}

/-! ### The invariant of blocking calls -/

/-- The side's bit is set, or the other side stored its counter and is about to set it. -/
def Signalled (s : State) (x : Side) : Prop :=
  s.flag.bit x = true ∨ (s.thread x.other).pc = .wakeOr

/-- In a run of blocking calls: a reader that loaded the write counter before it changed, and a side
that waits although it is served, are signalled; and a side that sleeps with its bit set is about to
be woken. -/
structure Wakeful (c : Config) (s : State) : Prop where
  blocking (x : Side) : (s.thread x).pc ≠ .idle → (s.thread x).blocking = true
  loaded {w : ℕ} : s.reader.pc = .loadRead w → w ≠ s.writeCounter → s.Signalled .reader
  short (x : Side) : (s.thread x).pc.Waits → s.Served c x → s.Signalled x
  value (x : Side) {v : Flag} : (s.thread x).pc = .waitFutex v → v.bit x = false
  waking (x : Side) : (s.thread x).pc = .asleep → s.flag.bit x = true →
    (s.thread x.other).pc = .wakeFutex

theorem served_iff (hl : s'.thread x = s.thread x) (hr : s'.readCounter = s.readCounter)
    (hw : s'.writeCounter = s.writeCounter) : s'.Served c x ↔ s.Served c x := by
  cases x <;> simp only [Served, thread] at hl ⊢ <;> rw [hl, hr, hw]

namespace Wakeful

variable (h : Wakeful c s)

include h

/-- What one side changes.  The other side stays where it is: it is signalled, or the counters stay
and it is signalled if it was; and if it sleeps with its bit set, this side is about to wake it. -/
theorem change (x : Side) (hother : s'.thread x.other = s.thread x.other)
    (hblocking : (s'.thread x).pc ≠ .idle → (s'.thread x).blocking = true)
    (hsignal : s'.Signalled x.other ∨ s'.readCounter = s.readCounter ∧
      s'.writeCounter = s.writeCounter ∧ (s.Signalled x.other → s'.Signalled x.other))
    (hwake : (s.thread x.other).pc = .asleep → s'.flag.bit x.other = true →
      (s'.thread x).pc = .wakeFutex)
    (hloaded : ∀ w, (s'.thread x).pc = .loadRead w → w = s'.writeCounter)
    (hshort : (s'.thread x).pc.Waits → s'.Served c x → s'.Signalled x)
    (hvalue : ∀ v, (s'.thread x).pc = .waitFutex v → v.bit x = false)
    (hwaking : (s'.thread x).pc = .asleep → s'.flag.bit x = false) : Wakeful c s' := by
  refine ⟨fun y => ?_, fun {w} hp hw => ?_, fun y hp hs => ?_, fun y {v} hp => ?_, fun y hp hb => ?_⟩
  · rcases Side.eq_or_other x y with rfl | rfl
    · exact hblocking
    · rw [hother]; exact h.blocking _
  · rcases Side.eq_or_other x .reader with he | he
    · subst he; exact absurd (hloaded w hp) hw
    rw [he]
    rcases hsignal with hs | ⟨-, hcounter, hs⟩
    · exact hs
    · refine hs (he ▸ h.loaded ?_ (hcounter ▸ hw))
      have hr : s'.thread .reader = s.thread .reader := by rw [he]; exact hother
      exact (congrArg Thread.pc hr).symm.trans hp
  · rcases Side.eq_or_other x y with rfl | rfl
    · exact hshort hp hs
    · rcases hsignal with h' | ⟨hr, hw, h'⟩
      · exact h'
      · exact h' (h.short _ (hother ▸ hp) ((served_iff hother hr hw).1 hs))
  · rcases Side.eq_or_other x y with rfl | rfl
    · exact hvalue v hp
    · exact h.value _ (hother ▸ hp)
  · rcases Side.eq_or_other x y with rfl | rfl
    · exact absurd (hwaking hp) (by rw [hb]; decide)
    · rw [Side.other_other]
      exact hwake (hother ▸ hp) hb

/-- The side makes a step of its own that changes neither the flag nor a counter, and leaves nothing
undone that the other side relies on. -/
theorem setThread {t : Thread} (hblocking : t.pc ≠ .idle → t.blocking = true)
    (hor : (s.thread x).pc = .wakeOr → s.flag.bit x.other = true)
    (hfutex : (s.thread x).pc = .wakeFutex → (s.thread x.other).pc ≠ .asleep)
    (hloaded : ∀ w, t.pc = .loadRead w → w = s.writeCounter)
    (hshort : t.pc.Waits → t.len = (s.thread x).len ∧ (s.Served c x → s.Signalled x))
    (hvalue : ∀ v, t.pc = .waitFutex v → v.bit x = false)
    (hwaking : t.pc = .asleep → s.flag.bit x = false) : Wakeful c (s.setThread x t) := by
  have hx : (s.setThread x t).thread x = t := by rw [thread_setThread, if_pos rfl]
  have hy : (s.setThread x t).thread x.other = s.thread x.other := by
    rw [thread_setThread, if_neg x.other_ne]
  have hr : (s.setThread x t).readCounter = s.readCounter := by cases x <;> rfl
  have hw : (s.setThread x t).writeCounter = s.writeCounter := by cases x <;> rfl
  have hf : (s.setThread x t).flag = s.flag := by cases x <;> rfl
  refine h.change x hy (by rw [hx]; exact hblocking) (.inr ⟨hr, hw, ?_⟩) ?_
    (by rw [hx, hw]; exact hloaded) ?_ (by rw [hx]; exact hvalue) (by rw [hx, hf]; exact hwaking)
  · rintro (hs | hs)
    · exact .inl (hf ▸ hs)
    · exact .inl (hf ▸ hor (x.other_other ▸ hs))
  · intro hp hb
    have := h.waking x.other hp (hf ▸ hb)
    rw [Side.other_other] at this
    exact absurd hp (hfutex this)
  · rw [hx]
    intro hp hs
    obtain ⟨hlen, hsig⟩ := hshort hp
    have hs' : s.Served c x := by
      cases x <;> simp only [Served, State.setThread] at hs ⊢ <;>
        simp only [thread] at hlen <;> rwa [hlen] at hs
    rcases hsig hs' with h' | h'
    · exact .inl (hf ▸ h')
    · exact .inr (hy ▸ h')

/-- The side goes on in its call, having stored nothing. -/
theorem goto {q pc : Pc} (hp : (s.thread x).pc = q) (hq : q.early = true)
    (hloaded : ∀ w, pc = .loadRead w → w = s.writeCounter := by exact nofun)
    (hshort : pc.Waits → s.Served c x → s.Signalled x := by exact False.elim)
    (hvalue : ∀ v, pc = .waitFutex v → v.bit x = false := by exact nofun)
    (hwaking : pc = .asleep → s.flag.bit x = false := by exact nofun) : Wakeful c (s.goto x pc) :=
  h.setThread (fun _ => h.blocking x (by rw [hp]; rintro rfl; cases hq))
    (fun he => by rw [hp] at he; rw [he] at hq; cases hq)
    (fun he => by rw [hp] at he; rw [he] at hq; cases hq)
    hloaded (fun hp => ⟨rfl, hshort hp⟩) hvalue hwaking

theorem finish (b : Bool) (hor : (s.thread x).pc = .wakeOr → s.flag.bit x.other = true)
    (hfutex : (s.thread x).pc = .wakeFutex → (s.thread x.other).pc ≠ .asleep) :
    Wakeful c (s.finish x b) :=
  h.setThread (fun he => absurd rfl he) hor hfutex nofun (fun hp => hp.elim)
    nofun nofun

/-- What the other side relies on while this one is neither about to set its bit nor to wake it. -/
theorem relies {q : Pc} (hp : (s.thread x).pc = q) (hor : q ≠ .wakeOr)
    (hfutex : q ≠ .wakeFutex) : (s.Signalled x.other → s.flag.bit x.other = true) ∧
      ((s.thread x.other).pc = .asleep → s.flag.bit x.other ≠ true) := by
  refine ⟨fun hs => ?_, fun ha hs => ?_⟩
  · rcases hs with hs | hs
    · exact hs
    · rw [Side.other_other, hp] at hs
      exact absurd hs hor
  · have := h.waking x.other ha hs
    rw [Side.other_other, hp] at this
    exact hfutex this

/-- The side sets the other's bit and is about to wake it. -/
theorem signal (hpc : (s.thread x).pc = .wakeOr) :
    Wakeful c (State.goto { s with flag := s.flag.set x.other true } x .wakeFutex) := by
  have hb := h.blocking x (by rw [hpc]; exact nofun)
  cases x
  · exact h.change .reader rfl (fun _ => hb) (.inl (.inl rfl)) (fun _ _ => rfl) nofun
      (fun hp => hp.elim) nofun nofun
  · exact h.change .writer rfl (fun _ => hb) (.inl (.inl rfl)) (fun _ _ => rfl) nofun
      (fun hp => hp.elim) nofun nofun

/-- The side finds its bit set, clears it and tries again. -/
theorem consume (hpc : (s.thread x).pc = .waitAnd) :
    Wakeful c (State.goto { s with flag := s.flag.set x false } x .loadWrite) := by
  have hb := h.blocking x (by rw [hpc]; exact nofun)
  have hbit : (s.flag.set x false).bit x.other = s.flag.bit x.other := by cases x <;> rfl
  obtain ⟨hsig, hwake⟩ := h.relies hpc nofun nofun
  cases x
  · exact h.change .reader rfl (fun _ => hb)
      (.inr ⟨rfl, rfl, fun hs => .inl (hbit.trans (hsig hs))⟩)
      (fun hp hs => absurd (hbit.symm.trans hs) (hwake hp)) nofun (fun hp => hp.elim) nofun nofun
  · exact h.change .writer rfl (fun _ => hb)
      (.inr ⟨rfl, rfl, fun hs => .inl (hbit.trans (hsig hs))⟩)
      (fun hp hs => absurd (hbit.symm.trans hs) (hwake hp)) nofun (fun hp => hp.elim) nofun nofun

/-- A copied byte is no concern of either side's wait. -/
theorem copyByte {pos i : ℕ} (hpc : (s.thread x).pc = .copy pos i) :
    Wakeful c (s.copyByte c x pos i) := by
  have hb := h.blocking x (by rw [hpc]; exact nofun)
  obtain ⟨hsig, hwake⟩ := h.relies hpc nofun nofun
  cases x
  · exact h.change .reader rfl (fun _ => hb) (.inr ⟨rfl, rfl, fun hs => .inl (hsig hs)⟩)
      (fun hp hs => absurd hs (hwake hp)) nofun (fun hp => hp.elim) nofun nofun
  · exact h.change .writer rfl (fun _ => hb) (.inr ⟨rfl, rfl, fun hs => .inl (hsig hs)⟩)
      (fun hp hs => absurd hs (hwake hp)) nofun (fun hp => hp.elim) nofun nofun

/-- The side stores its counter and is about to set the other's bit. -/
theorem store {pos i : ℕ} (hpc : (s.thread x).pc = .copy pos i) :
    Wakeful c ((s.storeCounter x pos).succeed x) := by
  have hb := h.blocking x (by rw [hpc]; exact nofun)
  have hwake := (h.relies hpc nofun nofun).2
  have hs : (s.storeCounter x pos).succeed x = (s.storeCounter x pos).goto x .wakeOr :=
    if_pos (by cases x <;> exact hb)
  rw [hs]
  cases x
  · exact h.change .reader rfl (fun _ => hb) (.inl (.inr rfl))
      (fun hp hs => absurd hs (hwake hp)) nofun (fun hp => hp.elim) nofun nofun
  · exact h.change .writer rfl (fun _ => hb) (.inl (.inr rfl))
      (fun hp hs => absurd hs (hwake hp)) nofun (fun hp => hp.elim) nofun nofun

/-- A side that found too little waits: if there is more now, it is signalled. -/
theorem retry (hf : Fifo c s) (hb : s.written.length < 2 ^ 64) {w : ℕ}
    (hpc : (s.thread x).pc = .loadRead w)
    (ha : available c x w s.readCounter < (s.thread x).len) : Wakeful c (s.retry x) := by
  have hblocking : (s.thread x).blocking = true := h.blocking x (by rw [hpc]; exact nofun)
  rw [show s.retry x = s.goto x .waitAnd from if_pos hblocking]
  refine h.goto hpc rfl nofun (fun _ hs => ?_)
  have hl := hf.length
  have hle := hf.le
  cases x with
  | reader =>
    have hr := hf.reader
    simp only [ReaderFits, show s.reader.pc = _ from hpc] at hr
    have ha : availableToRead w s.readCounter < s.reader.len := ha
    rw [availableToRead_eq hr.2.1 (by omega)] at ha
    have hs : s.reader.len ≤ s.writeCounter - s.readCounter := hs
    exact h.loaded hpc (by omega)
  | writer =>
    have hw := hf.writer.2
    simp only [show s.writer.pc = _ from hpc] at hw
    subst hw
    have ha : availableToWrite c.size s.writeCounter s.readCounter < s.writer.len := ha
    have hs : s.writer.len ≤ c.size - (s.writeCounter - s.readCounter) := hs
    rw [availableToWrite, availableToRead_eq hle (by omega)] at ha
    omega

/-- The futex wake: the other side, if it sleeps, looks at its bit again. -/
theorem wakeOther (hpc : (s.thread x).pc = .wakeFutex) :
    Wakeful c ((s.wakeOther x).finish x true) := by
  unfold State.wakeOther
  split
  · next he =>
      have h' : Wakeful c (s.goto x.other .waitAnd) :=
        h.goto he rfl nofun fun _ => h.short _ (he ▸ trivial)
      refine h'.finish true ?_ ?_
      · rw [thread_goto]
        split
        · exact nofun
        · rw [hpc]; exact nofun
      · intro _
        rw [thread_goto, if_pos rfl]
        exact nofun
  · next he => exact h.finish true (by rw [hpc]; exact nofun) fun _ => he

theorem call (hi : (s.thread x).pc = .idle) (buf : List UInt8) (len : ℕ) :
    Wakeful c (s.call x true buf len) := by
  have start : ∀ pc : Pc, pc = .loadWrite ∨ pc = .wakeOr →
      Wakeful c (s.setThread x { pc, blocking := true, len, buf }) := by
    rintro pc (rfl | rfl)
    all_goals
      exact h.setThread (fun _ => rfl) (by rw [hi]; exact nofun)
        (by rw [hi]; exact nofun) nofun (fun hp => hp.elim) nofun nofun
  unfold State.call
  split
  · have he : (s.setThread x { pc := .loadWrite, blocking := true, len, buf }).succeed x =
        s.setThread x { pc := .wakeOr, blocking := true, len, buf } := by
      cases x <;> rfl
    rw [he]
    exact start _ (.inr rfl)
  · exact start _ (.inl rfl)

theorem step (hf : Fifo c s) (hc : c.eventFlag = true) {l : Label} (hl : l.Blocks)
    (hs : s.step c l = some s') (hb : s'.written.length < 2 ^ 64) : Wakeful c s' := by
  obtain ⟨x, blocking, buf, len, hi, rfl, hbl, -⟩ | ⟨x, ha⟩ := Moves.of_step hs
  · rw [hbl hl]
    exact h.call hi _ _
  generalize hp : (s.thread x).pc = q at ha
  have hshort : q.Waits → s.Served c x → s.Signalled x := fun hw => h.short x (by rw [hp]; exact hw)
  cases ha with
  | load => exact h.goto hp rfl fun w hw => (Pc.loadRead.inj hw).symm
  | short ha =>
    have hwr : (s.retry x).written = s.written := by
      unfold State.retry; split <;> cases x <;> rfl
    exact h.retry hf (hwr ▸ hb) hp ha
  | enough => exact h.goto hp rfl
  | own => exact h.goto hp rfl
  | copy => exact h.copyByte hp
  | store => exact h.store hp
  | signalled hbit => exact h.finish true (fun _ => hbit hc) (by rw [hp]; exact nofun)
  | signal => exact h.signal hp
  | wake => exact h.wakeOther hp
  | unflagged hc' => rw [hc] at hc'; cases hc'
  | consume => exact h.consume hp
  | doze _ hbit =>
    refine h.goto hp rfl nofun (fun _ => hshort trivial) fun v hv => ?_
    rw [← Pc.waitFutex.inj hv, Flag.bit_set_self]
  | sleep => exact h.goto hp rfl nofun (fun _ => hshort trivial) nofun fun _ => h.value x hp
  | again | interrupt => exact h.goto hp rfl nofun fun _ => hshort trivial
  | fail hd =>
    have hq : (s.thread x).pc ≠ .wakeOr ∧ (s.thread x).pc ≠ .wakeFutex := by
      rw [hp]; constructor <;> (rintro rfl; exact hd)
    exact h.finish false (fun he => absurd he hq.1) fun he => absurd he hq.2

omit h

theorem init : Wakeful c {} where
  blocking x h := absurd (by cases x <;> rfl) h
  loaded := nofun
  short x h := by cases x <;> exact h.elim
  value x _ h := by cases x <;> cases h
  waking x h := by cases x <;> cases h

end Wakeful

/-! ### Runs -/

/-- The ring, the counters and the bytes written are the same. -/
def SameQueue (s s' : State) : Prop :=
  s'.ring = s.ring ∧ s'.readCounter = s.readCounter ∧ s'.writeCounter = s.writeCounter ∧
    s'.written = s.written

theorem SameQueue.setThread (t : Thread) : SameQueue s (s.setThread x t) := by
  cases x <;> exact ⟨rfl, rfl, rfl, rfl⟩

theorem SameQueue.retry : SameQueue s (s.retry x) := by
  unfold State.retry; split <;> exact .setThread _

theorem SameQueue.succeed : SameQueue s (s.succeed x) := by
  unfold State.succeed; split <;> exact .setThread _

theorem SameQueue.trans {s'' : State} (h : SameQueue s s') (h' : SameQueue s' s'') :
    SameQueue s s'' :=
  ⟨h'.1.trans h.1, h'.2.1.trans h.2.1, h'.2.2.1.trans h.2.2.1, h'.2.2.2.trans h.2.2.2⟩

theorem SameQueue.wakeOther : SameQueue s (s.wakeOther x) := by
  unfold State.wakeOther
  split
  · exact .setThread _
  · exact ⟨rfl, rfl, rfl, rfl⟩

variable {l : Label}

/-- Only a copy and the store at its end change the queue. -/
theorem step_queue (hs : s.step c l = some s') :
    SameQueue s s' ∨ ∃ x pos i, l = .run x ∧ (s.thread x).pc = .copy pos i ∧
      (s' = s.copyByte c x pos i ∨ s' = (s.storeCounter x pos).succeed x) := by
  have hflag : ∀ {x : Side} (f : Flag) (t : Thread),
      SameQueue s (State.setThread { s with flag := f } x t) := fun {x} f t => by
    cases x <;> exact ⟨rfl, rfl, rfl, rfl⟩
  obtain ⟨x, blocking, buf, len, -, rfl, -⟩ | ⟨x, ha⟩ := Moves.of_step hs
  · refine .inl ?_
    unfold State.call
    split
    · exact SameQueue.trans (.setThread _) .succeed
    · exact .setThread _
  generalize hp : (s.thread x).pc = q at ha
  cases ha with
  | short => exact .inl .retry
  | copy => exact .inr ⟨x, _, _, rfl, hp, .inl rfl⟩
  | store => exact .inr ⟨x, _, _, rfl, hp, .inr rfl⟩
  | signal | consume => exact .inl (hflag _ _)
  | wake => exact .inl (SameQueue.wakeOther.trans (.setThread _))
  | _ => exact .inl (.setThread _)

theorem touched_succeed : ((s.succeed x).thread x).touched = (s.thread x).touched := by
  unfold State.succeed
  split <;> cases x <;> rfl

/-- A step that changes the ring or a counter is one of a call that then has touched the queue. -/
theorem touched_of_change (hs : s.step c l = some s')
    (hc : ¬ (s'.ring = s.ring ∧ s'.readCounter = s.readCounter ∧
      s'.writeCounter = s.writeCounter)) : ∃ x, l = .run x ∧ (s'.thread x).touched = true := by
  rcases step_queue hs with h | ⟨x, pos, i, rfl, -, rfl | rfl⟩
  · exact absurd ⟨h.1, h.2.1, h.2.2.1⟩ hc
  · exact ⟨x, rfl, by cases x <;> rfl⟩
  · exact ⟨x, rfl, by rw [touched_succeed]; cases x <;> rfl⟩

theorem written_step (hs : s.step c l = some s') : s.written <+: s'.written := by
  rcases step_queue hs with h | ⟨x, pos, i, rfl, -, rfl | rfl⟩
  · exact h.2.2.2 ▸ List.prefix_rfl
  · cases x <;> exact List.prefix_rfl
  · rw [(SameQueue.succeed (s := s.storeCounter x pos)).2.2.2]
    cases x
    · exact List.prefix_rfl
    · exact List.prefix_append _ _

variable {ok : Label → Prop}

theorem Reachable.untouched (h : Reachable c ok s) : s.Untouched := by
  induction h with
  | refl => exact fun x => by cases x <;> exact ⟨nofun, nofun⟩
  | tail _ hs ih =>
    obtain ⟨l, -, hs⟩ := hs
    exact ih.step hs

theorem Reachable.fifo (h : Reachable c ok s) (hb : s.written.length < 2 ^ 64) : Fifo c s := by
  induction h with
  | refl => exact .init
  | tail _ hs ih =>
    obtain ⟨l, -, hs⟩ := hs
    exact (ih (lt_of_le_of_lt (written_step hs).length_le hb)).step hs hb

theorem Reachable.wakeful (h : Reachable c Label.Blocks s) (hc : c.eventFlag = true)
    (hb : s.written.length < 2 ^ 64) : Wakeful c s := by
  induction h with
  | refl => exact .init
  | tail hr hs ih =>
    obtain ⟨l, hl, hs⟩ := hs
    have hb' := lt_of_le_of_lt (written_step hs).length_le hb
    exact (ih hb').step (Reachable.fifo hr hb') hc hl hs hb

theorem not_dozes_setThread {y : Side} {t : Thread} (h : ¬ (s.thread y).pc.Dozes)
    (ht : ¬ t.pc.Dozes) : ¬ ((s.setThread x t).thread y).pc.Dozes := by
  rw [thread_setThread]
  split
  · exact ht
  · exact h

/-- Without an EventFlag word no side sleeps. -/
theorem not_dozes_step (hc : c.eventFlag = false) (h : ∀ y, ¬ (s.thread y).pc.Dozes)
    (hs : s.step c l = some s') (y : Side) : ¬ (s'.thread y).pc.Dozes := by
  have hset : ∀ {s₁ : State} {x : Side} {t : Thread}, ¬ (s₁.thread y).pc.Dozes → ¬ t.pc.Dozes →
      ¬ ((s₁.setThread x t).thread y).pc.Dozes := not_dozes_setThread
  have hsucceed : ∀ {s₁ : State} {x : Side}, ¬ (s₁.thread y).pc.Dozes →
      ¬ ((s₁.succeed x).thread y).pc.Dozes := by
    intro s₁ x h
    unfold State.succeed
    split <;> exact hset h id
  obtain ⟨x, blocking, buf, len, -, rfl, -⟩ | ⟨x, ha⟩ := Moves.of_step hs
  · unfold State.call
    split
    · exact hsucceed (hset (h y) id)
    · exact hset (h y) id
  generalize hp : (s.thread x).pc = q at ha
  have hq : ¬ q.Dozes := hp ▸ h x
  cases ha with
  | load | enough | own | signalled | unflagged => exact hset (h y) id
  | short => unfold State.retry; split <;> exact hset (h y) id
  | copy =>
    cases x <;> cases y
    exacts [id, h .writer, h .reader, id]
  | store =>
    refine hsucceed ?_
    cases x <;> cases y
    exacts [h .reader, h .writer, h .reader, h .writer]
  | signal hc' | consume hc' | doze hc' => rw [hc] at hc'; cases hc'
  | wake =>
    refine hset ?_ id
    unfold State.wakeOther
    split
    · exact hset (h y) id
    · exact h y
  | sleep | again | interrupt => exact absurd trivial hq
  | fail hd => exact absurd hd hq

theorem Reachable.eventFlag (h : Reachable c ok s)
    (hx : (s.thread x).pc = .asleep) : c.eventFlag = true := by
  by_contra hc
  have hc : c.eventFlag = false := by simpa using hc
  have hd : ∀ y, ¬ (s.thread y).pc.Dozes := by
    clear hx
    induction h with
    | refl => intro y; cases y <;> exact id
    | tail _ hs ih =>
      obtain ⟨l, -, hs⟩ := hs
      exact not_dozes_step hc ih hs
  exact hd x (hx ▸ trivial)

variable {index : ℕ}

/-- A copy in progress stays in the ring, where its side may touch it. -/
theorem Fifo.mayTouch (h : Fifo c s) (ht : s.Touches c x index) :
    index < c.size ∧ s.MayTouch c x index := by
  obtain ⟨pos, i, j, hpc, -, hj, rfl⟩ := ht
  have hle := h.le
  have hroom := h.room
  cases x with
  | reader =>
    have hr := h.reader
    simp only [ReaderFits, show s.reader.pc = _ from hpc] at hr
    obtain ⟨rfl, -, hlen, -⟩ := hr
    have hj : j < s.reader.len := hj
    rw [show s.thread .reader = s.reader from rfl, ringIndex_eq (by omega) hj]
    exact ⟨Nat.mod_lt _ (by omega), _, Nat.le_add_right _ _, by omega, rfl⟩
  | writer =>
    have hw := h.writer.2
    simp only [show s.writer.pc = _ from hpc] at hw
    obtain ⟨rfl, -, hlen, -⟩ := hw
    have hj : j < s.writer.len := hj
    rw [show s.thread .writer = s.writer from rfl, ringIndex_eq (by omega) hj]
    exact ⟨Nat.mod_lt _ (by omega), _, Nat.le_add_right _ _, by omega, rfl⟩

/-- The bytes to read and the room have no place in common. -/
theorem not_mayTouch_writer (hr : s.MayTouch c .reader index) : ¬ s.MayTouch c .writer index := by
  rintro ⟨q, hq, hq', hi'⟩
  obtain ⟨p, hp, hp', hi⟩ := hr
  have := eq_of_place_eq (hi.symm.trans hi') (by omega) (by omega)
  omega

theorem not_mayTouch_other (ht : s.MayTouch c x index) : ¬ s.MayTouch c x.other index := by
  cases x with
  | reader => exact not_mayTouch_writer ht
  | writer => exact fun hr => not_mayTouch_writer hr ht

/-- **The queue is a lossless FIFO.**  While fewer than 2⁶⁴ bytes are written: the counters are never
more than a ring apart; what successful reads returned is a prefix of what successful writes wrote,
and all of it when the counters agree; a call that failed touched nothing, and whatever changes the
ring or a counter is a touch; a copy in progress stays in the ring and away from where the other side
copies or may copy.  And where all calls block, a side that sleeps although it is served is about to
be woken: the other side stored its counter, and has yet to set the bit, which is clear, or to make
the futex wake that follows. -/
theorem lossless_fifo (c : Config) :
    (∀ s, Reachable c (fun _ => True) s → s.written.length < 2 ^ 64 →
      s.readCounter ≤ s.writeCounter ∧ s.writeCounter - s.readCounter ≤ c.size ∧
      s.returned <+: s.written ∧ (s.readCounter = s.writeCounter → s.returned = s.written) ∧
      (∀ x, (s.thread x).pc = .idle → (s.thread x).result = some false →
        (s.thread x).touched = false) ∧
      (∀ l s', s.step c l = some s' → ¬ (s'.ring = s.ring ∧ s'.readCounter = s.readCounter ∧
        s'.writeCounter = s.writeCounter) → ∃ x, l = .run x ∧ (s'.thread x).touched = true) ∧
      ∀ x index, s.Touches c x index →
        index < c.size ∧ ¬ s.Touches c x.other index ∧ ¬ s.MayTouch c x.other index) ∧
    ∀ s, Reachable c Label.Blocks s → s.written.length < 2 ^ 64 →
      ∀ x, (s.thread x).pc = .asleep → s.Served c x →
        (s.thread x.other).pc = .wakeOr ∧ s.flag.bit x = false ∨
        (s.thread x.other).pc = .wakeFutex := by
  constructor
  · intro s hr hb
    have h := hr.fifo hb
    refine ⟨h.le, by have := h.room; omega, ?_, fun he => ?_, fun x => (hr.untouched x).2,
      fun l s' => touched_of_change, fun x index ht => ?_⟩
    · rw [h.returned]; exact List.take_prefix _ _
    · rw [h.returned, he, ← h.length, List.take_length]
    · obtain ⟨hlt, hm⟩ := h.mayTouch ht
      exact ⟨hlt, fun ht' => not_mayTouch_other hm (h.mayTouch ht').2, not_mayTouch_other hm⟩
  · intro s hr hb x hpc hserved
    have h := hr.wakeful (hr.eventFlag hpc) hb
    by_cases hbit : s.flag.bit x = true
    · exact .inr (h.waking x hpc hbit)
    · rcases h.short x (hpc ▸ trivial) hserved with hs | hs
      · exact absurd hs hbit
      · exact .inl ⟨hs, by simpa using hbit⟩

/-- A reader finds the queue empty, a byte is stored, and the reader goes to sleep before the writer
sets its bit. -/
theorem lossless_fifo_asleep :
    ∃ s, Reachable ⟨4, true⟩ Label.Blocks s ∧ s.reader.pc = .asleep ∧ s.Served ⟨4, true⟩ .reader ∧
      s.written = [7] ∧
      (s.writer.pc = .wakeOr ∧ s.flag.notEmpty = false ∨ s.writer.pc = .wakeFutex) := by
  let ls : List Label := [.read true 1, .run .reader, .run .reader, .write true [7], .run .writer,
    .run .writer, .run .writer, .run .writer, .run .writer, .run .reader, .run .reader]
  obtain ⟨s, hs⟩ : ∃ s, ({} : State).exec ⟨4, true⟩ ls = some s := ⟨_, rfl⟩
  have hr : Reachable ⟨4, true⟩ Label.Blocks s :=
    Reachable.exec .refl (by simp [ls, Label.Blocks]) hs
  cases hs
  exact ⟨_, hr, rfl, Nat.le_refl 1, rfl,
    (lossless_fifo ⟨4, true⟩).2 _ hr (by decide) .reader rfl (Nat.le_refl 1)⟩

end State

end Aim.Fmq
