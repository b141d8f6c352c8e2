import Mathlib

/-!
# Fmq — The queue

`hal/fmq`: one shared ring of bytes, a read and a write counter, and an EventFlag word.  One thread
reads and one writes; each operation is cut into the accesses it makes to the shared memory (loads
and stores of a counter, the copy of one byte, atomic operations on the flag, the futex calls), and
the two threads' accesses come in any order.

* The counters are 64-bit positions since creation; a position's place in the ring is its remainder
  by the ring size.
* `read` and `write` move all of their bytes or none; the blocking calls retry after `wait` and end
  with `wake`.
* A futex wait sleeps if the word still has the value it was given; a wake, a signal or a spurious
  wakeup ends it, and an error other than `EAGAIN` and `EINTR` makes the call fail.

`written` and `returned` record the bytes of the successful calls, and `touched` whether the current
call wrote to the ring or stored its counter: no step reads them.
-/

namespace Aim.Fmq

/-- The two sides of a queue. -/
inductive Side where
  | reader
  | writer
  deriving DecidableEq

def Side.other : Side → Side
  | .reader => .writer
  | .writer => .reader

/-- The EventFlag word, a bit a field. -/
structure Flag where
  notFull : Bool := false
  notEmpty : Bool := false
  deriving DecidableEq

/-- The bit a side waits for: a reader for `NOT_EMPTY`, a writer for `NOT_FULL`. -/
def Flag.bit (f : Flag) : Side → Bool
  | .reader => f.notEmpty
  | .writer => f.notFull

def Flag.set (f : Flag) (x : Side) (b : Bool) : Flag :=
  match x with
  | .reader => { f with notEmpty := b }
  | .writer => { f with notFull := b }

/-- Where a call is: the access it makes next. -/
inductive Pc where
  /-- No call is under way. -/
  | idle
  /-- `available_to_read` loads the write counter, -/
  | loadWrite
  /-- and then the read counter; the call decides. -/
  | loadRead (w : ℕ)
  /-- The relaxed load of the side's own counter. -/
  | loadOwn
  /-- `copy` at byte position `pos`, `i` bytes done; after the last, the store of the counter. -/
  | copy (pos i : ℕ)
  /-- `wake`: the `fetch_or` on the flag, -/
  | wakeOr
  /-- and the futex wake. -/
  | wakeFutex
  /-- `wait`: the `fetch_and` on the flag, -/
  | waitAnd
  /-- the futex wait for a word that is `value`, -/
  | waitFutex (value : Flag)
  /-- and the sleep in it. -/
  | asleep
  deriving DecidableEq

/-- A side's thread, and the call it makes. -/
structure Thread where
  pc : Pc := .idle
  blocking : Bool := false
  /-- The length of the caller's buffer. -/
  len : ℕ := 0
  /-- A writer's buffer; for a reader, what was copied into it. -/
  buf : List UInt8 := []
  /-- Of the last call. -/
  result : Option Bool := none
  touched : Bool := false

structure State where
  ring : ℕ → UInt8 := fun _ => 0
  readCounter : ℕ := 0
  writeCounter : ℕ := 0
  flag : Flag := {}
  reader : Thread := {}
  writer : Thread := {}
  written : List UInt8 := []
  returned : List UInt8 := []

/-- What `Queue::new` fixes. -/
structure Config where
  /-- Ring size in bytes. -/
  size : ℕ
  eventFlag : Bool

/-! ### Counters and the ring -/

/-- `w.wrapping_sub(r)`. -/
def availableToRead (w r : ℕ) : ℕ := (w + 2 ^ 64 - r) % 2 ^ 64

def availableToWrite (size w r : ℕ) : ℕ := size - availableToRead w r

/-- The place in the ring of byte `i` of a copy of `len` bytes at `pos`: the first span runs to the
end of the ring, the second from its start. -/
def ringIndex (size pos len i : ℕ) : ℕ :=
  let offset := pos % size
  let first := min len (size - offset)
  if i < first then offset + i else i - first

namespace State

def thread (s : State) : Side → Thread
  | .reader => s.reader
  | .writer => s.writer

def setThread (s : State) (x : Side) (t : Thread) : State :=
  match x with
  | .reader => { s with reader := t }
  | .writer => { s with writer := t }

def goto (s : State) (x : Side) (pc : Pc) : State := s.setThread x { s.thread x with pc }

def finish (s : State) (x : Side) (result : Bool) : State :=
  s.setThread x { s.thread x with pc := .idle, result := some result }

/-- A `read` or `write` that failed: a blocking call waits. -/
def retry (s : State) (x : Side) : State :=
  if (s.thread x).blocking then s.goto x .waitAnd else s.finish x false

/-- A `read` or `write` that succeeded: a blocking call wakes the other side. -/
def succeed (s : State) (x : Side) : State :=
  if (s.thread x).blocking then s.goto x .wakeOr else s.finish x true

/-- What the side may move, from the counters it loaded. -/
def available (c : Config) (x : Side) (w r : ℕ) : ℕ :=
  match x with
  | .reader => availableToRead w r
  | .writer => availableToWrite c.size w r

/-- One byte of a copy. -/
def copyByte (c : Config) (s : State) (x : Side) (pos i : ℕ) : State :=
  let t := s.thread x
  let index := ringIndex c.size pos t.len i
  match x with
  | .reader =>
    { s with reader := { t with pc := .copy pos (i + 1), buf := t.buf ++ [s.ring index]
                                touched := true } }
  | .writer =>
    { s with ring := Function.update s.ring index (t.buf.getD i 0)
             writer := { t with pc := .copy pos (i + 1), touched := true } }

/-- The store of the counter. -/
def storeCounter (s : State) (x : Side) (pos : ℕ) : State :=
  let t := s.thread x
  let counter := (pos + t.len) % 2 ^ 64
  match x with
  | .reader =>
    { s with readCounter := counter, returned := s.returned ++ t.buf
             reader := { t with touched := true } }
  | .writer =>
    { s with writeCounter := counter, written := s.written ++ t.buf
             writer := { t with touched := true } }

/-- The futex wake: the other side goes on if it sleeps. -/
def wakeOther (s : State) (x : Side) : State :=
  if (s.thread x.other).pc = .asleep then s.goto x.other .waitAnd else s

/-- The next access of the side's call. -/
def advance (c : Config) (s : State) (x : Side) : Option State :=
  let t := s.thread x
  match t.pc with
  | .idle | .asleep => none
  | .loadWrite => some (s.goto x (.loadRead s.writeCounter))
  | .loadRead w =>
    if available c x w s.readCounter < t.len then some (s.retry x) else some (s.goto x .loadOwn)
  | .loadOwn =>
    some (s.goto x (.copy (match x with | .reader => s.readCounter | .writer => s.writeCounter) 0))
  | .copy pos i =>
    if i < t.len then some (s.copyByte c x pos i) else some ((s.storeCounter x pos).succeed x)
  | .wakeOr =>
    if c.eventFlag then
      let old := s.flag
      let s := { s with flag := s.flag.set x.other true }
      if old.bit x.other then some (s.finish x true) else some (s.goto x .wakeFutex)
    else some (s.finish x true)
  | .wakeFutex => some ((s.wakeOther x).finish x true)
  | .waitAnd =>
    if c.eventFlag then
      let old := s.flag
      let s := { s with flag := s.flag.set x false }
      if old.bit x then some (s.goto x .loadWrite) else some (s.goto x (.waitFutex (old.set x false)))
    else some (s.finish x false)
  | .waitFutex value =>
    if s.flag = value then some (s.goto x .asleep) else some (s.goto x .waitAnd)

/-- A call: an empty buffer moves at once. -/
def call (s : State) (x : Side) (blocking : Bool) (buf : List UInt8) (len : ℕ) : State :=
  let s := s.setThread x { pc := .loadWrite, blocking, len, buf }
  if len = 0 then s.succeed x else s

end State

/-- What happens next. -/
inductive Label where
  | read (blocking : Bool) (len : ℕ)
  | write (blocking : Bool) (buf : List UInt8)
  /-- A side's call makes its next access. -/
  | run (x : Side)
  /-- A side's sleep ends without a wake. -/
  | interrupt (x : Side)
  /-- A side's futex wait fails with an error it does not expect. -/
  | error (x : Side)
  deriving DecidableEq

/-- Whether the label is not the start of a call that does not block. -/
def Label.Blocks : Label → Prop
  | .read blocking _ | .write blocking _ => blocking = true
  | _ => True

namespace State

def step (c : Config) (s : State) : Label → Option State
  | .read blocking len =>
    if s.reader.pc = .idle then some (s.call .reader blocking [] len) else none
  | .write blocking buf =>
    if s.writer.pc = .idle then some (s.call .writer blocking buf buf.length) else none
  | .run x => s.advance c x
  | .interrupt x => if (s.thread x).pc = .asleep then some (s.goto x .waitAnd) else none
  | .error x =>
    match (s.thread x).pc with
    | .waitFutex _ | .asleep => some (s.finish x false)
    | _ => none

/-- A step whose label satisfies `ok`. -/
def Step (c : Config) (ok : Label → Prop) (s s' : State) : Prop := ∃ l, ok l ∧ s.step c l = some s'

/-- The states that steps reach from a new queue. -/
def Reachable (c : Config) (ok : Label → Prop) (s : State) : Prop :=
  Relation.ReflTransGen (Step c ok) {} s

/-- The labels, one after the other. -/
def exec (c : Config) : State → List Label → Option State
  | s, [] => some s
  | s, l :: ls => (s.step c l).bind fun s => exec c s ls

theorem Reachable.exec {c : Config} {ok : Label → Prop} {s s' : State} {ls : List Label}
    (h : Reachable c ok s) (hok : ∀ l ∈ ls, ok l) (hs : s.exec c ls = some s') :
    Reachable c ok s' := by
  induction ls generalizing s with
  | nil => cases hs; exact h
  | cons l ls ih =>
    obtain ⟨s₁, hs₁, hs⟩ := Option.bind_eq_some_iff.1 hs
    exact ih (h.tail ⟨l, hok l (.head _), hs₁⟩)
      (fun l hl => hok l (.tail _ hl)) hs

/-! ### What a side may touch -/

/-- The places in the ring that a copy in progress still touches. -/
def Touches (c : Config) (s : State) (x : Side) (index : ℕ) : Prop :=
  ∃ pos i j, (s.thread x).pc = .copy pos i ∧ i ≤ j ∧ j < (s.thread x).len ∧
    index = ringIndex c.size pos (s.thread x).len j

/-- The places a side may touch, now or later: those of the bytes to read for a reader, and of the
room for a writer. -/
def MayTouch (c : Config) (s : State) (x : Side) (index : ℕ) : Prop :=
  match x with
  | .reader => ∃ p, s.readCounter ≤ p ∧ p < s.writeCounter ∧ index = p % c.size
  | .writer => ∃ p, s.writeCounter ≤ p ∧ p < s.readCounter + c.size ∧ index = p % c.size

/-- What a sleeping side asked for is there. -/
def Served (c : Config) (s : State) : Side → Prop
  | .reader => s.reader.len ≤ s.writeCounter - s.readCounter
  | .writer => s.writer.len ≤ c.size - (s.writeCounter - s.readCounter)

end State

end Aim.Fmq
