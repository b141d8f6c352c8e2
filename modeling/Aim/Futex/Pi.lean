import Aim.Futex.Table

/-!
# Futex — Priority-inheritance locks

`lock_pi`, `unlock_pi` and the death of an owner, on one futex.  The word has the owner's tid; it is
taken and given back by compare-and-swap in user space as long as nobody waits, and handed to the
first waiter otherwise.  Threads interleave at each lock of the bucket, each access to the word and
each access to a waiter.

* `lock_pi` takes a free word, or marks it and queues, all under the bucket's lock.
* `unlock_pi` hands the futex over under the lock (`pi_handoff`).
* An exiting thread walks its robust list.  `owner_died` frees the word by a compare-and-swap without
  the lock, and then hands the futex over under the lock.

The waiters are the PI waiters on this futex, in the bucket's order: those of other futexes, and
waits that are not PI, are never picked by `pi_handoff` and never moved onto or off this futex as PI
waiters.  What the exiting thread reads in its robust list is given to it.  `holds` records who has
acquired the futex and not released it; a thread that dies has it until `owner_died` frees the word.
No step reads it.
-/

namespace Aim.Futex.Pi

def FUTEX_WAITERS : Word := 0x80000000#32
def FUTEX_OWNER_DIED : Word := 0x40000000#32

/-- A tid as the word has it: tids are positive and below `PID_MAX`, so within the mask. -/
abbrev Owner := { v : Word // v ≠ 0 ∧ v &&& FUTEX_TID_MASK = v }

/-- The TID bits. -/
def tidBits (v : Word) : Word := v &&& FUTEX_TID_MASK

/-- Where `exit_robust_list` is: at the entry `e`, with `left` more to go. -/
structure Walk where
  head : Addr
  off : Addr
  pending : Addr
  e : Addr
  left : ℕ
  deriving DecidableEq

/-- What a hand-over is for, and what comes after it. -/
inductive Why where
  | unlock
  /-- The owner died; its walk goes on, if there is more. -/
  | died (rest : Option Walk)
  deriving DecidableEq

/-- Where a thread is: the access it makes next. -/
inductive Pc where
  /-- There is no such thread. -/
  | absent
  /-- In user space. -/
  | idle
  /-- `lock_pi` takes the bucket's lock; `once` for a trylock. -/
  | locking (once : Bool)
  /-- `acquire` loads the word, -/
  | loading (once : Bool)
  /-- and takes it, -/
  | taking (once : Bool) (v : Word)
  /-- or marks it as waited for. -/
  | marking (v : Word)
  /-- `table_wait` links its waiter, -/
  | linking
  /-- loads `woken`, -/
  | looking
  /-- looks at the clock and at its signals, or parks; -/
  | deciding
  /-- leaves with `r`: takes the lock, -/
  | leaving (r : ℤ)
  /-- and loads `woken` again. -/
  | confirming (r : ℤ)
  /-- `lock_pi` returns. -/
  | returning (r : ℤ)
  /-- `unlock_pi` takes the lock, -/
  | unlocking
  /-- and loads the word. -/
  | checking
  /-- `pi_handoff` stores the word, -/
  | handing (why : Why)
  /-- and unlinks and claims the new owner. -/
  | claiming (first : Owner) (why : Why)
  /-- `exit_robust_list` reads its next entry. -/
  | walking (walk : Walk)
  /-- `owner_died` loads the word, -/
  | dying (pi : Bool) (rest : Option Walk)
  /-- updates it, -/
  | updating (pi : Bool) (rest : Option Walk) (v : Word)
  /-- and takes the lock. -/
  | burying (rest : Option Walk)
  deriving DecidableEq

namespace Pc

/-- The walk goes on, or the thread is gone. -/
def ofRest : Option Walk → Pc
  | none => absent
  | some walk => walking walk

/-- Whether the thread holds the bucket's lock. -/
def Locked : Pc → Prop
  | loading _ | taking _ _ | marking _ | linking | confirming _ | checking | handing _
  | claiming _ _ => True
  | _ => False

/-- Whether the thread has a waiter queued or claimed. -/
def Waits : Pc → Prop
  | looking | deciding | leaving _ | confirming _ => True
  | _ => False

end Pc

namespace Why

/-- The arguments `keep` and `none` of `pi_handoff`. -/
def keep : Why → Word
  | unlock => 0
  | died _ => FUTEX_OWNER_DIED

def after : Why → Pc
  | unlock => .idle
  | died rest => .ofRest rest

end Why

structure State where
  word : Word := 0
  lock : Option Owner := none
  queue : List Owner := []
  woken : Owner → Bool := fun _ => false
  pc : Owner → Pc := fun _ => .absent
  holds : Owner → Bool := fun _ => false

namespace State

def goto (s : State) (t : Owner) (pc : Pc) : State :=
  { s with pc := Function.update s.pc t pc }

/-- Takes the bucket's lock if it is free. -/
def tryLock (s : State) (t : Owner) (pc : Pc) : Option State :=
  if s.lock = none then some ({ s with lock := some t }.goto t pc) else none

/-- The end of a locked section. -/
def leave (s : State) (t : Owner) (pc : Pc) : State := { s with lock := none }.goto t pc

/-- The futex is the thread's. -/
def acquired (s : State) (t : Owner) : State := { s with holds := Function.update s.holds t true }

def released (s : State) (t : Owner) : State := { s with holds := Function.update s.holds t false }

/-- `owner_died` at a word that may be this one; the walk goes on with `rest`. -/
def ownerDied (s : State) (t : Owner) (addr uaddr : Addr) (pi : Bool) (rest : Option Walk) : State :=
  s.goto t (if uaddr = addr then .dying pi rest else .ofRest rest)

/-- An entry of the robust list: bit 0 marks a PI futex. -/
def futexOf (walk : Walk) (e : Addr) : Addr := (e &&& ~~~1) + walk.off

/-- The loop of `exit_robust_list`, with what it reads at the entry. -/
def walk (s : State) (addr : Addr) (t : Owner) (w : Walk) (next : Option Addr) : State :=
  if w.left = 0 ∨ w.e = w.head ∨ w.e &&& ~~~1 = 0 then
    if w.pending ≠ 0 then s.ownerDied t addr (futexOf w w.pending) (w.pending &&& 1 ≠ 0) none
    else s.goto t .absent
  else
    match next with
    | none => s.goto t .absent
    | some next =>
      let rest := some { w with e := next, left := w.left - 1 }
      if w.e ≠ w.pending then s.ownerDied t addr (futexOf w w.e) (w.e &&& 1 ≠ 0) rest
      else s.goto t (.ofRest rest)

/-- The thread's next access. -/
def advance (s : State) (t : Owner) : Option State :=
  match s.pc t with
  | .absent | .idle | .deciding | .walking _ => none
  | .locking once => s.tryLock t (.loading once)
  | .loading once =>
    if tidBits s.word = 0 then some (s.goto t (.taking once s.word))
    else if tidBits s.word = t.1 then some (s.leave t (.returning (-EDEADLK)))
    else if once then some (s.leave t (.returning (-EAGAIN)))
    else if s.word &&& FUTEX_WAITERS ≠ 0 then some (s.goto t .linking)
    else some (s.goto t (.marking s.word))
  | .taking once v =>
    if s.word = v then
      let word := t.1 ||| (v &&& (FUTEX_OWNER_DIED ||| FUTEX_WAITERS))
      some (({ s with word }.acquired t).leave t (.returning 0))
    else some (s.goto t (.loading once))
  | .marking v =>
    if s.word = v then some ({ s with word := v ||| FUTEX_WAITERS }.goto t .linking)
    else some (s.goto t (.loading false))
  | .linking =>
    -- the waiter is new, and pushed to the front
    some ({ s with queue := t :: s.queue, woken := Function.update s.woken t false }.leave t
      .looking)
  | .looking => some (s.goto t (if s.woken t then .returning 0 else .deciding))
  | .leaving r => s.tryLock t (.confirming r)
  | .confirming r =>
    -- claimed while leaving: the hand-over counts
    if s.woken t then some (s.leave t (.returning 0))
    else some ({ s with queue := s.queue.filter (· ≠ t) }.leave t (.returning r))
  | .returning _ => some (s.goto t .idle)
  | .unlocking => s.tryLock t .checking
  | .checking =>
    if tidBits s.word ≠ t.1 then some (s.leave t .idle) else some (s.goto t (.handing .unlock))
  | .handing why =>
    -- the word is stored as it was computed, whatever it is by now
    match s.queue with
    | [] => some (({ s with word := why.keep }.released t).leave t why.after)
    | first :: more =>
      let word := first.1 ||| why.keep ||| if more = [] then 0 else FUTEX_WAITERS
      some ((({ s with word }.released t).acquired first).goto t (.claiming first why))
  | .claiming first why =>
    some ({ s with
      queue := s.queue.filter (· ≠ first)
      woken := Function.update s.woken first true }.leave t why.after)
  | .dying pi rest => some (s.goto t (.updating pi rest s.word))
  | .updating pi rest v =>
    if tidBits v ≠ t.1 then some (s.goto t (.ofRest rest))
    else if s.word = v then
      let word := (v &&& FUTEX_WAITERS) ||| FUTEX_OWNER_DIED
      some (({ s with word }.released t).goto t
        (if v &&& FUTEX_WAITERS ≠ 0 ∧ pi then .burying rest else .ofRest rest))
    else some (s.goto t (.updating pi rest s.word))
  | .burying rest => s.tryLock t (.handing (.died rest))

/-- The access to the word faults. -/
def fault (s : State) (t : Owner) : Option State :=
  match s.pc t with
  | .loading _ | .taking _ _ | .marking _ => some (s.leave t (.returning (-EFAULT)))
  | .checking => some (s.leave t .idle)
  | .handing why => some (s.leave t why.after)
  | .dying _ rest | .updating _ rest _ => some (s.goto t (.ofRest rest))
  | _ => none

end State

/-- What happens next. -/
inductive Label where
  /-- A thread is made, with a tid that is free, -/
  | born (t : Owner)
  /-- and calls `lock_pi` or a trylock, -/
  | lockPi (t : Owner) (once : Bool)
  /-- or `unlock_pi`. -/
  | unlockPi (t : Owner)
  /-- The fast paths: 0 to its tid, -/
  | fastLock (t : Owner)
  /-- and its tid to 0. -/
  | fastUnlock (t : Owner)
  /-- A thread exits, with the head of its robust list if there is one. -/
  | exit (t : Owner) (walk : Option Walk)
  /-- The exiting thread reads an entry. -/
  | next (t : Owner) (next : Option Addr)
  /-- A thread makes its next access, -/
  | run (t : Owner)
  /-- or it faults. -/
  | fault (t : Owner)
  /-- A waiting thread finds its deadline passed, -/
  | timeout (t : Owner)
  /-- or a signal, -/
  | interrupt (t : Owner)
  /-- or parks; the park ends, with or without an unpark. -/
  | park (t : Owner)
  deriving DecidableEq

namespace State

/-- What a label does, for the futex at `addr`. -/
def step (addr : Addr) (s : State) : Label → Option State
  | .born t => if s.pc t = .absent then some ((s.released t).goto t .idle) else none
  | .lockPi t once => if s.pc t = .idle then some (s.goto t (.locking once)) else none
  | .unlockPi t => if s.pc t = .idle then some (s.goto t .unlocking) else none
  | .fastLock t =>
    if s.pc t = .idle ∧ s.word = 0 then some ({ s with word := t.1 }.acquired t) else none
  | .fastUnlock t =>
    if s.pc t = .idle ∧ s.word = t.1 then some ({ s with word := 0 }.released t) else none
  | .exit t walk => if s.pc t = .idle then some (s.goto t (.ofRest walk)) else none
  | .next t next =>
    match s.pc t with
    | .walking w => some (s.walk addr t w next)
    | _ => none
  | .run t => s.advance t
  | .fault t => s.fault t
  | .timeout t => if s.pc t = .deciding then some (s.goto t (.leaving (-ETIMEDOUT))) else none
  | .interrupt t => if s.pc t = .deciding then some (s.goto t (.leaving (-EINTR))) else none
  | .park t => if s.pc t = .deciding then some (s.goto t .looking) else none

/-- The states that a step function reaches from a free futex, with no thread yet. -/
def Reachable (step : State → Label → Option State) (s : State) : Prop :=
  Relation.ReflTransGen (fun s s' => ∃ l, step s l = some s') {} s

/-- The labels, one after the other. -/
def exec (step : State → Label → Option State) : State → List Label → Option State
  | s, [] => some s
  | s, l :: ls => (step s l).bind fun s => exec step s ls

theorem Reachable.exec {step : State → Label → Option State} {s s' : State} {ls : List Label}
    (h : Reachable step s) (hs : s.exec step ls = some s') : Reachable step s' := by
  induction ls generalizing s with
  | nil => cases hs; exact h
  | cons l ls ih =>
    obtain ⟨s₁, hs₁, hs⟩ := Option.bind_eq_some_iff.1 hs
    exact ih (h.tail ⟨l, hs₁⟩) hs

end State

end Aim.Futex.Pi
