import Aim.Fmq.Queue

/-!
# Fmq — The ring between the counters

Two invariants of every run.  `Untouched`: a call that failed, or may still fail, wrote nothing.
`Fifo` ties the counters, the ring and the copies in progress to the bytes written so far: the ring
holds the written bytes from the read counter on, the reader has copied what it is to return, and
the writer what it is to add.
-/

namespace Aim.Fmq

open List Nat

/-! ### Places in the ring -/

/-- A copy that wraps goes on at the start of the ring. -/
theorem ringIndex_eq {size pos len i : ℕ} (hs : len ≤ size) (hi : i < len) :
    ringIndex size pos len i = (pos + i) % size := by
  have hpos : pos % size < size := mod_lt _ (by omega)
  rw [ringIndex, ← mod_add_mod]
  generalize pos % size = offset at hpos
  split
  · rw [mod_eq_of_lt (by omega)]
  · rw [mod_eq_sub_mod (by omega), mod_eq_of_lt (by omega)]
    omega

/-- Positions less than a ring apart have places of their own. -/
theorem eq_of_place_eq {size p p' : ℕ} (h : p % size = p' % size) (hle : p ≤ p')
    (hlt : p' < p + size) : p = p' := by
  have hd : (p' - p) % size = 0 := sub_mod_eq_zero_of_mod_eq h.symm
  rw [mod_eq_of_lt (by omega)] at hd
  omega

/-- The difference of the counters, where they did not wrap. -/
theorem availableToRead_eq {w r : ℕ} (hr : r ≤ w) (hw : w < 2 ^ 64) : availableToRead w r = w - r := by
  unfold availableToRead
  rw [show w + 2 ^ 64 - r = (w - r) + 2 ^ 64 by omega, add_mod_right, mod_eq_of_lt (by omega)]

/-! ### What a step can be -/

variable {x : Side} {b : Bool}

theorem Flag.set_of_bit {f : Flag} (h : f.bit x = b) : f.set x b = f := by
  cases x <;> cases h <;> rfl

/-- In the futex wait, or about to be. -/
def Pc.Dozes : Pc → Prop
  | .waitFutex _ | .asleep => True
  | _ => False

/-- What a step of side `x` comes to, from where its call is. -/
inductive Moves (c : Config) (s : State) (x : Side) : Label → Pc → State → Prop where
  | load : Moves c s x (.run x) .loadWrite (s.goto x (.loadRead s.writeCounter))
  | short {w : ℕ} (h : State.available c x w s.readCounter < (s.thread x).len) :
    Moves c s x (.run x) (.loadRead w) (s.retry x)
  | enough {w : ℕ} (h : ¬ State.available c x w s.readCounter < (s.thread x).len) :
    Moves c s x (.run x) (.loadRead w) (s.goto x .loadOwn)
  | own : Moves c s x (.run x) .loadOwn (s.goto x
      (.copy (match x with | .reader => s.readCounter | .writer => s.writeCounter) 0))
  | copy {pos i : ℕ} (h : i < (s.thread x).len) :
    Moves c s x (.run x) (.copy pos i) (s.copyByte c x pos i)
  | store {pos i : ℕ} (h : ¬ i < (s.thread x).len) :
    Moves c s x (.run x) (.copy pos i) ((s.storeCounter x pos).succeed x)
  | signalled (h : c.eventFlag = true → s.flag.bit x.other = true) :
    Moves c s x (.run x) .wakeOr (s.finish x true)
  | signal (hc : c.eventFlag = true) : Moves c s x (.run x) .wakeOr
      (State.goto { s with flag := s.flag.set x.other true } x .wakeFutex)
  | wake : Moves c s x (.run x) .wakeFutex ((s.wakeOther x).finish x true)
  | unflagged (hc : c.eventFlag = false) : Moves c s x (.run x) .waitAnd (s.finish x false)
  | consume (hc : c.eventFlag = true) : Moves c s x (.run x) .waitAnd
      (State.goto { s with flag := s.flag.set x false } x .loadWrite)
  | doze (hc : c.eventFlag = true) (h : s.flag.bit x = false) :
    Moves c s x (.run x) .waitAnd (s.goto x (.waitFutex (s.flag.set x false)))
  | sleep : Moves c s x (.run x) (.waitFutex s.flag) (s.goto x .asleep)
  | again {v : Flag} : Moves c s x (.run x) (.waitFutex v) (s.goto x .waitAnd)
  | interrupt : Moves c s x (.interrupt x) .asleep (s.goto x .waitAnd)
  | fail {q : Pc} (h : q.Dozes) : Moves c s x (.error x) q (s.finish x false)

/-- Everything an access of a thread can do. -/
theorem Moves.of_advance {c : Config} {s s' : State} (hs : s.advance c x = some s') :
    Moves c s x (.run x) (s.thread x).pc s' := by
  unfold State.advance at hs
  dsimp only at hs
  split at hs
  · cases hs
  · cases hs
  · next he => cases hs; rw [he]; exact .load
  · next he =>
      rw [he]
      split at hs <;> cases hs
      exacts [.short ‹_›, .enough ‹_›]
  · next he => cases hs; rw [he]; exact .own
  · next he =>
      rw [he]
      split at hs <;> cases hs
      exacts [.copy ‹_›, .store ‹_›]
  · next he =>
      rw [he]
      split at hs
      · next hc =>
          split at hs <;> cases hs
          · next hb => rw [Flag.set_of_bit hb]; exact .signalled fun _ => hb
          · exact .signal hc
      · next hc => cases hs; exact .signalled fun h => absurd h hc
  · next he => cases hs; rw [he]; exact .wake
  · next he =>
      rw [he]
      split at hs
      · next hc =>
          split at hs <;> cases hs
          · exact .consume hc
          next hb =>
            have hb : s.flag.bit x = false := Bool.eq_false_iff.2 hb
            have hd := Moves.doze (s := s) hc hb
            rw [Flag.set_of_bit hb] at hd ⊢
            exact hd
      · next hc => cases hs; exact .unflagged (Bool.eq_false_iff.2 hc)
  · next he =>
      rw [he]
      split at hs <;> cases hs
      · next hv => subst hv; exact .sleep
      · exact .again

variable {l : Label}

/-- A step starts a call, or is an access of one. -/
theorem Moves.of_step {c : Config} {s s' : State} (hs : s.step c l = some s') :
    (∃ x blocking buf len, (s.thread x).pc = .idle ∧ s' = s.call x blocking buf len ∧
      (l.Blocks → blocking = true) ∧
      match x with | .reader => buf = [] | .writer => buf.length = len) ∨
    ∃ x, Moves c s x l (s.thread x).pc s' := by
  cases l with
  | read blocking len =>
    simp only [State.step] at hs
    split at hs <;> cases hs
    exact .inl ⟨.reader, _, _, _, ‹_›, rfl, id, rfl⟩
  | write blocking buf =>
    simp only [State.step] at hs
    split at hs <;> cases hs
    exact .inl ⟨.writer, _, _, _, ‹_›, rfl, id, rfl⟩
  | run x => exact .inr ⟨x, .of_advance hs⟩
  | interrupt x =>
    simp only [State.step] at hs
    split at hs <;> cases hs
    next he => exact .inr ⟨x, he ▸ .interrupt⟩
  | error x =>
    simp only [State.step] at hs
    split at hs <;> cases hs
    all_goals next he => exact .inr ⟨x, he ▸ .fail trivial⟩

/-! ### What a call did so far -/

/-- Where a call waits, or starts over. -/
def Pc.Restarts : Pc → Prop
  | .loadWrite | .waitAnd | .waitFutex _ | .asleep => True
  | _ => False

/-- The accesses before a call's first write to the ring or its counter. -/
def Pc.early : Pc → Bool
  | .loadWrite | .loadRead _ | .loadOwn | .waitAnd | .waitFutex _ | .asleep => true
  | .idle | .copy _ _ | .wakeOr | .wakeFutex => false

namespace State

/-- A call that wrote nothing yet did not touch the queue, nor did one that failed. -/
def Untouched (s : State) : Prop :=
  ∀ x, ((s.thread x).pc.early = true → (s.thread x).touched = false) ∧
    ((s.thread x).pc = .idle → (s.thread x).result = some false → (s.thread x).touched = false)

variable {c : Config} {s s' : State} {x y : Side}

@[simp] theorem thread_setThread (t : Thread) :
    (s.setThread x t).thread y = if y = x then t else s.thread y := by
  cases x <;> cases y <;> rfl

theorem thread_goto (pc : Pc) :
    (s.goto x pc).thread y = if y = x then { s.thread x with pc } else s.thread y :=
  thread_setThread _

theorem thread_finish (b : Bool) :
    (s.finish x b).thread y =
      if y = x then { s.thread x with pc := .idle, result := some b } else s.thread y :=
  thread_setThread _

section

variable (h : s.Untouched)

include h

theorem Untouched.goto {pc : Pc} (hpc : pc.early = true → (s.thread x).touched = false)
    (hi : pc ≠ .idle) : (s.goto x pc).Untouched := by
  intro y
  rw [thread_goto]
  split
  · exact ⟨hpc, fun he => absurd he hi⟩
  · exact h y

theorem Untouched.finish
    (hb : b = false → (s.thread x).touched = false) : (s.finish x b).Untouched := by
  intro y
  rw [thread_finish]
  split
  · exact ⟨nofun, fun _ hr => hb (Option.some.inj hr)⟩
  · exact h y

theorem Untouched.flag (f : Flag) : Untouched { s with flag := f } := by
  intro y
  cases y
  · exact h .reader
  · exact h .writer

theorem Untouched.succeed : (s.succeed x).Untouched := by
  unfold State.succeed
  split
  · exact h.goto nofun nofun
  · exact h.finish nofun

theorem Untouched.retry (ht : (s.thread x).touched = false) : (s.retry x).Untouched := by
  unfold State.retry
  split
  · exact h.goto (fun _ => ht) nofun
  · exact h.finish fun _ => ht

theorem Untouched.copyByte (pos i : ℕ) : (s.copyByte c x pos i).Untouched := by
  intro y
  cases x <;> cases y
  · exact ⟨nofun, nofun⟩
  · exact h .writer
  · exact h .reader
  · exact ⟨nofun, nofun⟩

theorem Untouched.storeCounter {pos i : ℕ} (hpc : (s.thread x).pc = .copy pos i) :
    (s.storeCounter x pos).Untouched := by
  intro y
  cases x <;> cases y
  · exact ⟨fun he => absurd (congrArg Pc.early hpc ▸ he) nofun, fun hi => absurd (hpc ▸ hi) nofun⟩
  · exact h .writer
  · exact h .reader
  · exact ⟨fun he => absurd (congrArg Pc.early hpc ▸ he) nofun, fun hi => absurd (hpc ▸ hi) nofun⟩

theorem Untouched.wakeOther : (s.wakeOther x).Untouched := by
  unfold State.wakeOther
  split
  · next he => exact h.goto (fun _ => (h x.other).1 (by rw [he]; rfl)) nofun
  · exact h

theorem Untouched.call (blocking : Bool) (buf : List UInt8) (len : ℕ) :
    (s.call x blocking buf len).Untouched := by
  have h' : (s.setThread x { pc := .loadWrite, blocking, len, buf }).Untouched := by
    intro y
    rw [thread_setThread]
    split
    · exact ⟨fun _ => rfl, nofun⟩
    · exact h y
  unfold State.call
  split
  · exact h'.succeed
  · exact h'

/-- A call that fails has touched nothing, along every step. -/
theorem Untouched.step (hs : s.step c l = some s') : s'.Untouched := by
  obtain ⟨x, blocking, buf, len, -, rfl, -⟩ | ⟨x, ha⟩ := Moves.of_step hs
  · exact h.call _ _ _
  have early : (s.thread x).pc.early = true → (s.thread x).touched = false := (h x).1
  generalize hp : (s.thread x).pc = q at ha
  rw [hp] at early
  cases ha with
  | load | enough | doze | sleep | again | interrupt => exact h.goto (fun _ => early rfl) nofun
  | short => exact h.retry (early rfl)
  | own => exact h.goto nofun nofun
  | copy => exact h.copyByte _ _
  | store => exact (h.storeCounter hp).succeed
  | signalled => exact h.finish nofun
  | signal => exact (h.flag _).goto nofun nofun
  | wake => exact h.wakeOther.finish nofun
  | unflagged => exact h.finish fun _ => early rfl
  | consume => exact (h.flag _).goto (fun _ => by cases x <;> exact early rfl) nofun
  | fail hd => exact h.finish fun _ => early (by cases q <;> first | rfl | exact hd.elim)

end

/-! ### The ring holds what was written and not yet read -/

/-- What the reader loaded and copied so far. -/
def ReaderFits (s : State) : Prop :=
  match s.reader.pc with
  | .loadWrite | .waitAnd | .waitFutex _ | .asleep => s.reader.buf = []
  | .loadRead w => s.reader.buf = [] ∧ s.readCounter ≤ w ∧ w ≤ s.writeCounter
  | .loadOwn => s.reader.buf = [] ∧ s.readCounter + s.reader.len ≤ s.writeCounter
  | .copy pos i =>
    pos = s.readCounter ∧ i ≤ s.reader.len ∧ s.readCounter + s.reader.len ≤ s.writeCounter ∧
      s.reader.buf = (s.written.drop s.readCounter).take i
  | .idle | .wakeOr | .wakeFutex => True

/-- What the writer loaded and copied so far. -/
def WriterFits (c : Config) (s : State) : Prop :=
  s.writer.buf.length = s.writer.len ∧
  match s.writer.pc with
  | .loadRead w => w = s.writeCounter
  | .loadOwn => s.writeCounter + s.writer.len ≤ s.readCounter + c.size
  | .copy pos i =>
    pos = s.writeCounter ∧ i ≤ s.writer.len ∧
      s.writeCounter + s.writer.len ≤ s.readCounter + c.size ∧
      ∀ j b, j < i → s.writer.buf[j]? = some b → s.ring ((s.writeCounter + j) % c.size) = b
  | _ => True

structure Fifo (c : Config) (s : State) : Prop where
  length : s.written.length = s.writeCounter
  returned : s.returned = s.written.take s.readCounter
  le : s.readCounter ≤ s.writeCounter
  room : s.writeCounter ≤ s.readCounter + c.size
  holds : ∀ p b, s.readCounter ≤ p → s.written[p]? = some b → s.ring (p % c.size) = b
  reader : s.ReaderFits
  writer : s.WriterFits c

namespace Fifo

section

variable (h : Fifo c s)

include h

/-- The invariant only asks of the reader where it is. -/
theorem setReader (t : Thread) (ht : ReaderFits { s with reader := t }) :
    Fifo c { s with reader := t } :=
  ⟨h.length, h.returned, h.le, h.room, h.holds, ht, h.writer⟩

theorem setWriter (t : Thread) (ht : WriterFits c { s with writer := t }) :
    Fifo c { s with writer := t } :=
  ⟨h.length, h.returned, h.le, h.room, h.holds, h.reader, ht⟩

theorem flag (f : Flag) : Fifo c { s with flag := f } :=
  ⟨h.length, h.returned, h.le, h.room, h.holds, h.reader, h.writer⟩

theorem finish (x : Side) (b : Bool) : Fifo c (s.finish x b) := by
  cases x
  · exact h.setReader _ trivial
  · exact h.setWriter _ ⟨h.writer.1, trivial⟩

theorem gotoWake (x : Side) {pc : Pc} (hpc : pc = .wakeOr ∨ pc = .wakeFutex) :
    Fifo c (s.goto x pc) := by
  rcases hpc with rfl | rfl <;> cases x
  exacts [h.setReader _ trivial, h.setWriter _ ⟨h.writer.1, trivial⟩, h.setReader _ trivial,
    h.setWriter _ ⟨h.writer.1, trivial⟩]

theorem succeed (x : Side) : Fifo c (s.succeed x) := by
  unfold State.succeed
  split
  · exact h.gotoWake x (.inl rfl)
  · exact h.finish x true

/-- The reader copies one more of the bytes it is to return. -/
theorem copyReader {pos i : ℕ} (hpc : s.reader.pc = .copy pos i)
    (hi : i < s.reader.len) : Fifo c (s.copyByte c .reader pos i) := by
  have hr := h.reader
  simp only [ReaderFits, hpc] at hr
  obtain ⟨rfl, -, hle, hbuf⟩ := hr
  have hl := h.length
  have hroom := h.room
  have hlt : s.readCounter + i < s.written.length := by omega
  have hb : s.ring ((s.readCounter + i) % c.size) = s.written[s.readCounter + i] :=
    h.holds _ _ (le_add_right _ _) (getElem?_eq_getElem hlt)
  refine h.setReader _ ⟨rfl, hi, hle, ?_⟩
  show s.reader.buf ++ [s.ring (ringIndex c.size s.readCounter s.reader.len i)] = _
  rw [ringIndex_eq (by omega) hi, hb, hbuf, take_add_one, getElem?_drop,
    getElem?_eq_getElem hlt]
  rfl

/-- The writer copies one more byte into the room. -/
theorem copyWriter {pos i : ℕ} (hpc : s.writer.pc = .copy pos i)
    (hi : i < s.writer.len) : Fifo c (s.copyByte c .writer pos i) := by
  obtain ⟨hbuf, hw⟩ := h.writer
  simp only [hpc] at hw
  obtain ⟨rfl, -, hle, hcopied⟩ := hw
  have hl := h.length
  have hr := h.le
  have hindex : ringIndex c.size s.writeCounter s.writer.len i = (s.writeCounter + i) % c.size :=
    ringIndex_eq (by omega) hi
  refine ⟨h.length, h.returned, h.le, h.room, fun p b hp hb => ?_, h.reader,
    hbuf, rfl, hi, hle, fun j b hj hb => ?_⟩
  · -- the byte goes into the room, so no byte still to be read is lost
    have hp : s.readCounter ≤ p := hp
    have hp' : p < s.written.length := (List.getElem?_eq_some_iff.1 hb).1
    have hne : p % c.size ≠ (s.writeCounter + i) % c.size := fun he => by
      have := eq_of_place_eq he (by omega) (by omega)
      omega
    show Function.update s.ring _ _ (p % c.size) = b
    rw [show s.thread .writer = s.writer from rfl, hindex, Function.update_of_ne hne]
    exact h.holds p b hp hb
  · have hb' : s.writer.buf[j]? = some b := hb
    show Function.update s.ring _ _ ((s.writeCounter + j) % c.size) = b
    rw [show s.thread .writer = s.writer from rfl, hindex]
    by_cases hji : j = i
    · subst hji
      rw [Function.update_self, getD_eq_getElem?_getD, hb']
      rfl
    · have hne : (s.writeCounter + j) % c.size ≠ (s.writeCounter + i) % c.size := fun he => by
        have := eq_of_place_eq he (by omega) (by omega)
        omega
      rw [Function.update_of_ne hne]
      exact hcopied j b (by omega) hb

/-- The reader's store of its counter returns the bytes it copied. -/
theorem storeReader {pos i : ℕ} (hpc : s.reader.pc = .copy pos i) (hi : ¬ i < s.reader.len)
    (hb : s.written.length < 2 ^ 64) : Fifo c ((s.storeCounter .reader pos).succeed .reader) := by
  have hr := h.reader
  simp only [ReaderFits, hpc] at hr
  obtain ⟨rfl, hi', hle, hbuf⟩ := hr
  have hl := h.length
  have hil : i = s.reader.len := by omega
  have hstored : ∀ n, n = s.readCounter + s.reader.len → ∀ t : Thread,
      t.pc = .idle ∨ t.pc = .wakeOr →
      Fifo c { s with readCounter := n, returned := s.returned ++ s.reader.buf, reader := t } := by
    rintro _ rfl t ht
    refine ⟨h.length, ?_, hle, ?_, fun p b hp hb => h.holds p b ?_ hb, ?_, h.writer.1, ?_⟩
    · rw [h.returned, hbuf, hil, take_add]
    · have := h.room
      show s.writeCounter ≤ s.readCounter + s.reader.len + c.size
      omega
    · exact le_trans (le_add_right _ _) hp
    · rcases ht with ht | ht <;> simp only [ReaderFits, ht]
    · have hw := h.writer.2
      have hmore : s.readCounter + c.size ≤ s.readCounter + s.reader.len + c.size := by omega
      cases hpc' : s.writer.pc with
      | loadRead w => rw [hpc'] at hw; exact hw
      | loadOwn =>
        rw [hpc'] at hw
        exact le_trans hw hmore
      | copy pos i =>
        rw [hpc'] at hw
        obtain ⟨h₁, h₂, h₃, h₄⟩ := hw
        exact ⟨h₁, h₂, le_trans h₃ hmore, h₄⟩
      | _ => trivial
  have hc : (s.readCounter + s.reader.len) % 2 ^ 64 = s.readCounter + s.reader.len :=
    mod_eq_of_lt (by omega)
  unfold State.succeed
  split
  exacts [hstored _ hc _ (.inr rfl), hstored _ hc _ (.inl rfl)]

/-- The writer's store of its counter adds the bytes it copied. -/
theorem storeWriter {pos i : ℕ} (hpc : s.writer.pc = .copy pos i)
    (hi : ¬ i < s.writer.len) (hb : (s.written ++ s.writer.buf).length < 2 ^ 64) :
    Fifo c ((s.storeCounter .writer pos).succeed .writer) := by
  obtain ⟨hbuf, hw⟩ := h.writer
  simp only [hpc] at hw
  obtain ⟨rfl, hi', hle, hcopied⟩ := hw
  have hl := h.length
  have hil : i = s.writer.len := by omega
  rw [length_append] at hb
  have hstored : ∀ n, n = s.writeCounter + s.writer.len → ∀ t : Thread,
      (t.pc = .idle ∨ t.pc = .wakeOr) ∧ t.buf = s.writer.buf ∧ t.len = s.writer.len →
      Fifo c { s with writeCounter := n, written := s.written ++ s.writer.buf, writer := t } := by
    rintro _ rfl t ⟨ht, htb, htl⟩
    refine ⟨?_, ?_, ?_, hle, fun p b hp hb => ?_, ?_, by rw [htb, htl]; exact hbuf,
      by rcases ht with ht | ht <;> simp only [ht]⟩
    · show (s.written ++ s.writer.buf).length = _
      rw [length_append, hl, hbuf]
    · show s.returned = (s.written ++ s.writer.buf).take s.readCounter
      rw [take_append_of_le_length (by have := h.le; omega), h.returned]
    · show s.readCounter ≤ s.writeCounter + s.writer.len
      have := h.le
      omega
    · have hb : (s.written ++ s.writer.buf)[p]? = some b := hb
      by_cases hp' : p < s.written.length
      · rw [getElem?_append_left hp'] at hb
        exact h.holds p b hp hb
      · rw [getElem?_append_right (by omega)] at hb
        have hj : p - s.written.length < s.writer.buf.length := (List.getElem?_eq_some_iff.1 hb).1
        have := hcopied (p - s.written.length) b (by omega) hb
        rwa [show s.writeCounter + (p - s.written.length) = p by omega] at this
    · have hr := h.reader
      unfold ReaderFits at hr ⊢
      cases hpc' : s.reader.pc with
      | loadRead w =>
        rw [hpc'] at hr
        exact ⟨hr.1, hr.2.1, le_trans hr.2.2 (le_add_right _ _)⟩
      | loadOwn =>
        rw [hpc'] at hr
        exact ⟨hr.1, le_trans hr.2 (le_add_right _ _)⟩
      | copy pos i =>
        rw [hpc'] at hr
        obtain ⟨h₁, h₂, h₃, h₄⟩ := hr
        refine ⟨h₁, h₂, le_trans h₃ (le_add_right _ _), ?_⟩
        show s.reader.buf = ((s.written ++ s.writer.buf).drop s.readCounter).take i
        rw [drop_append_of_le_length (by omega),
          take_append_of_le_length (by rw [length_drop]; omega), h₄]
      | loadWrite | waitAnd | waitFutex _ | asleep => rw [hpc'] at hr; exact hr
      | idle | wakeOr | wakeFutex => trivial
  have hc : (s.writeCounter + s.writer.len) % 2 ^ 64 = s.writeCounter + s.writer.len :=
    mod_eq_of_lt (by omega)
  unfold State.succeed
  split
  exacts [hstored _ hc _ ⟨.inr rfl, rfl, rfl⟩, hstored _ hc _ ⟨.inl rfl, rfl, rfl⟩]

/-- A side that waits, or starts over, has an empty buffer if it is the reader. -/
theorem buf_of_early (he : s.reader.pc.early = true) : s.reader.buf = [] := by
  have hr := h.reader
  unfold ReaderFits at hr
  cases hpc : s.reader.pc with
  | loadRead w => rw [hpc] at hr; exact hr.1
  | loadOwn => rw [hpc] at hr; exact hr.1
  | loadWrite | waitAnd | waitFutex _ | asleep => rw [hpc] at hr; exact hr
  | idle | copy _ _ | wakeOr | wakeFutex => rw [hpc] at he; cases he

theorem wait {pc : Pc} (he : (s.thread x).pc.early = true)
    (hpc : pc.Restarts) : Fifo c (s.goto x pc) := by
  cases x
  · refine h.setReader _ ?_
    cases pc <;> first | exact hpc.elim | exact h.buf_of_early he
  · refine h.setWriter _ ⟨h.writer.1, ?_⟩
    cases pc <;> first | exact hpc.elim | trivial

theorem retry (he : (s.thread x).pc.early = true) : Fifo c (s.retry x) := by
  unfold State.retry
  split
  · exact h.wait he trivial
  · exact h.finish x false

theorem wakeOther (x : Side) : Fifo c (s.wakeOther x) := by
  unfold State.wakeOther
  split
  · next he => exact h.wait (by rw [he]; rfl) trivial
  · exact h

/-- The side decides on the counters it loaded. -/
theorem decide {w : ℕ} (hpc : (s.thread x).pc = .loadRead w) (hb : s.written.length < 2 ^ 64)
    (ha : ¬ available c x w s.readCounter < (s.thread x).len) : Fifo c (s.goto x .loadOwn) := by
  have hl := h.length
  have hle := h.le
  have hroom := h.room
  cases x with
  | reader =>
    have hr := h.reader
    have hpc : s.reader.pc = .loadRead w := hpc
    have ha : ¬ availableToRead w s.readCounter < s.reader.len := ha
    simp only [ReaderFits, hpc] at hr
    refine h.setReader _ ⟨hr.1, ?_⟩
    show s.readCounter + s.reader.len ≤ s.writeCounter
    rw [availableToRead_eq hr.2.1 (by omega)] at ha
    omega
  | writer =>
    obtain ⟨hbuf, hw⟩ := h.writer
    have hpc : s.writer.pc = .loadRead w := hpc
    have ha : ¬ availableToWrite c.size w s.readCounter < s.writer.len := ha
    simp only [hpc] at hw
    subst hw
    rw [availableToWrite, availableToRead_eq hle (by omega)] at ha
    refine h.setWriter _ ⟨hbuf, ?_⟩
    show s.writeCounter + s.writer.len ≤ s.readCounter + c.size
    omega

theorem call (x : Side) (blocking : Bool) (buf : List UInt8) (len : ℕ)
    (hx : match x with | .reader => buf = [] | .writer => buf.length = len) :
    Fifo c (s.call x blocking buf len) := by
  have h' : Fifo c (s.setThread x { pc := .loadWrite, blocking, len, buf }) := by
    cases x
    · exact h.setReader _ hx
    · exact h.setWriter _ ⟨hx, trivial⟩
  unfold State.call
  split
  · exact h'.succeed x
  · exact h'

/-- **One step** keeps the ring, one case for each access. -/
theorem step (hs : s.step c l = some s') (hb : s'.written.length < 2 ^ 64) : Fifo c s' := by
  obtain ⟨x, blocking, buf, len, -, rfl, -, hx⟩ | ⟨x, ha⟩ := Moves.of_step hs
  · exact h.call x _ _ _ hx
  generalize hp : (s.thread x).pc = q at ha
  have early : q.early = true → (s.thread x).pc.early = true := fun he => by rw [hp]; exact he
  cases ha with
  | load =>
    cases x with
    | reader => exact h.setReader _ ⟨h.buf_of_early (early rfl), h.le, le_rfl⟩
    | writer => exact h.setWriter _ ⟨h.writer.1, rfl⟩
  | short => exact h.retry (early rfl)
  | enough ha => exact h.decide hp (by cases x <;> exact hb) ha
  | own =>
    cases x with
    | reader =>
      have hr := h.reader
      simp only [ReaderFits, show s.reader.pc = _ from hp] at hr
      exact h.setReader _ ⟨rfl, zero_le _, hr.2, hr.1.trans take_zero.symm⟩
    | writer =>
      have hw := h.writer
      simp only [WriterFits, show s.writer.pc = _ from hp] at hw
      exact h.setWriter _
        ⟨hw.1, rfl, zero_le _, hw.2, fun _ _ hj => absurd hj (not_lt_zero _)⟩
  | copy hi =>
    cases x
    exacts [h.copyReader hp hi, h.copyWriter hp hi]
  | store hi =>
    cases x with
    | reader =>
      refine h.storeReader hp hi ?_
      unfold State.succeed at hb
      split at hb <;> exact hb
    | writer =>
      refine h.storeWriter hp hi ?_
      unfold State.succeed at hb
      split at hb <;> exact hb
  | signalled => exact h.finish x true
  | signal => exact (h.flag _).gotoWake x (.inr rfl)
  | wake => exact (h.wakeOther x).finish x true
  | unflagged | fail => exact h.finish x false
  | consume => exact (h.flag _).wait (by cases x <;> exact early rfl) trivial
  | doze | sleep | again | interrupt => exact h.wait (early rfl) trivial

end

theorem init : Fifo c {} where
  length := rfl
  returned := rfl
  le := le_rfl
  room := zero_le _
  holds := fun _ _ _ h => by simp at h
  reader := trivial
  writer := ⟨rfl, trivial⟩

end Fifo

end State

end Aim.Fmq
