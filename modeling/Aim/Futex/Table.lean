import Mathlib

/-!
# Futex — The waiter table

`sys/futex`: the in-process table of private futexes.  A blocked thread's waiter stands in the list
of one of 256 buckets, chosen by its address; a wake or a requeue unlinks waiters under the bucket's
lock and claims them, and a waiter whose deadline passes or whose thread has a signal unlinks
itself.  Threads interleave at each lock taken, each atomic load and store of a waiter's `woken` and
`addr`, and each change of a list.

* `table_wait` queues under the lock if its check lets it, looks at `woken` until it is set, and
  leaves through whichever bucket its address names by then.
* `table_wake` and `table_requeue` drain under one or two locks, then claim or move one waiter at a
  time; a claimed waiter may return at once.
* `pi_handoff` (`unlock_pi` and `owner_died`) claims the first PI waiter.

A waiter is on its call's stack: the number of the call stands for its address.  The guest's word is
not the table's: an access that loads it is given what it loads, or a fault.  `claims`, `moves` and
`results` record what calls did, and `seen` the waiters a drain found: no step reads them.
-/

namespace Aim.Futex

/-- A thread's `tid`: a positive `i32`. -/
abbrev Tid := Fin (2 ^ 31)

instance neZero_tid : NeZero (2 ^ 31) := ⟨by decide⟩
abbrev Addr := BitVec 64
abbrev Word := BitVec 32
/-- The number of a call; for a `table_wait`, that of its waiter. -/
abbrev Call := ℕ
/-- An index into the 256 buckets. -/
abbrev Bucket := Fin 256

def EINTR : ℤ := 4
def EPERM : ℤ := 1
def EAGAIN : ℤ := 11
def EFAULT : ℤ := 14
def EDEADLK : ℤ := 35
def ETIMEDOUT : ℤ := 110
def FUTEX_TID_MASK : Word := 0x3fffffff#32

def bucket (addr : Addr) : Bucket :=
  Fin.ofNat 256 (((addr >>> 2) * 0x9e3779b97f4a7c15#64) >>> 56).toNat

structure Waiter where
  addr : Addr := 0
  bitset : Word := 0
  pi : Bool := false
  thread : Tid := 0
  woken : Bool := false
  deriving DecidableEq

/-- Unlinks and returns the waiters `pick` selects, front to back; `pick` carries a state. -/
def drain {σ : Type} (pick : σ → Call → Bool × σ) : σ → List Call → List Call × List Call
  | _, [] => ([], [])
  | x, w :: l =>
    let (hit, x) := pick x w
    let (out, rest) := drain pick x l
    if hit then (w :: out, rest) else (out, w :: rest)

/-- Selects what `hit` does, `left` times at most. -/
def upTo (hit : Call → Bool) (left : ℕ) (w : Call) : Bool × ℕ :=
  let h := decide (0 < left) && hit w
  (h, left - h.toNat)

/-- What `table_wait` runs under the lock before it queues. -/
inductive Check where
  /-- `FUTEX_WAIT`: the word must still be `val`. -/
  | value (val : Word)
  /-- `lock_pi`'s `acquire`: takes a free lock, or marks it as waited for. -/
  | acquire (tid : Word)
  deriving DecidableEq

/-- The check's answer, with the word it loaded last (a fault if none). -/
def Check.run : Check → Option Word → Option ℤ
  | _, none => some (-EFAULT)
  | .value val, some v => if v ≠ val then some (-EAGAIN) else none
  | .acquire tid, some v =>
    if v &&& FUTEX_TID_MASK = 0 then some 0
    else if v &&& FUTEX_TID_MASK = tid then some (-EDEADLK)
    else none

/-- The calls that drain a bucket. -/
inductive Op where
  | wake (addr : Addr) (n : ℕ) (bitset : Word)
  | requeue (addr : Addr) (nwake nreq : ℕ) (addr2 : Addr) (cmp : Option Word)
  /-- `pi_handoff`, for the owner that unlocks or for one that died. -/
  | handoff (addr : Addr) (owner : Option Word)
  deriving DecidableEq

namespace Op

def addr : Op → Addr
  | wake addr _ _ | requeue addr _ _ _ _ | handoff addr _ => addr

/-- Where waiters that are not claimed go. -/
def target : Op → Addr
  | requeue _ _ _ addr2 _ => addr2
  | wake addr _ _ | handoff addr _ => addr

/-- The locks it takes, in order. -/
def buckets : Op → List Bucket
  | wake addr _ _ | handoff addr _ => [bucket addr]
  | requeue addr _ _ addr2 _ =>
    let b1 := bucket addr
    let b2 := bucket addr2
    if b1 = b2 then [b1] else if b1 < b2 then [b1, b2] else [b2, b1]

/-- What makes it return before its drain. -/
def guard : Op → Option Word → Option ℤ
  | wake _ _ _, _ => none
  | requeue _ _ _ _ none, _ => none
  | requeue _ _ _ _ (some _), none => some (-EFAULT)
  | requeue _ _ _ _ (some cmp), some v => if v ≠ cmp then some (-EAGAIN) else none
  | handoff _ _, none => some (-EFAULT)
  | handoff _ none, some _ => none
  | handoff _ (some tid), some v => if v &&& FUTEX_TID_MASK ≠ tid then some (-EPERM) else none

def hit : Op → Waiter → Bool
  | wake addr _ bitset, w => !w.pi && w.addr == addr && w.bitset &&& bitset != 0
  | requeue addr _ _ _ _, w => !w.pi && w.addr == addr
  | handoff addr _, w => w.pi && w.addr == addr

/-- How many it drains at most. -/
def left : Op → ℕ
  | wake _ n _ => n
  | requeue _ nwake nreq _ _ => nwake + nreq
  | handoff _ _ => 1

/-- Whether it claims the waiter it drained as number `i`; the others move. -/
def claims : Op → ℕ → Bool
  | requeue _ nwake _ _ _, i => decide (i % 2 ^ 32 < nwake)
  | wake _ _ _, _ | handoff _ _, _ => true

def result (woken moved : ℕ) : Op → ℤ
  | wake _ _ _ => woken
  | requeue _ _ _ _ _ => woken + moved
  | handoff _ _ => 0

end Op

/-- Where a call is: the access it makes next. -/
inductive Pc where
  /-- No call is under way. -/
  | idle
  /-- `table_wait`: takes the lock, -/
  | entering (check : Check) (b : Bucket)
  /-- and runs the check under it; links. -/
  | queuing (check : Check) (b : Bucket)
  /-- Loads `woken`. -/
  | looking
  /-- Looks at the clock and at its signals; parks. -/
  | deciding
  /-- Returns `r` unless it is claimed: loads its address, -/
  | leaving (r : ℤ)
  /-- takes the lock of that bucket, -/
  | locking (r : ℤ) (b : Bucket)
  /-- loads its address again, -/
  | comparing (r : ℤ) (b : Bucket)
  /-- and loads `woken`; unlinks itself. -/
  | confirming (r : ℤ) (b : Bucket)
  /-- A call that drains has taken `k` of its locks. -/
  | acquire (op : Op) (k : ℕ)
  /-- It has drained; `ws` are still to be claimed or moved, from number `i` on. -/
  | disposing (op : Op) (seen ws : List Call) (i : ℕ) (wakes : List Call) (moved : ℕ)
  /-- It has stored the new address of `w`. -/
  | linking (op : Op) (seen : List Call) (w : Call) (ws : List Call) (i : ℕ) (wakes : List Call)
      (moved : ℕ)

namespace Pc

/-- The locks a call holds. -/
def held : Pc → List Bucket
  | queuing _ b | comparing _ b | confirming _ b => [b]
  | acquire op k => op.buckets.take k
  | disposing op _ _ _ _ _ | linking op _ _ _ _ _ _ => op.buckets
  | _ => []

/-- The waiters a call has unlinked and not yet claimed or linked again. -/
def transit : Pc → List Call
  | disposing _ _ ws _ _ _ => ws
  | linking _ _ w ws _ _ _ => w :: ws
  | _ => []

/-- Whether a call is under way. -/
def Busy : Pc → Prop
  | idle => False
  | _ => True

/-- Whether the call has queued its waiter. -/
def Waits : Pc → Prop
  | looking | deciding | leaving _ | locking _ _ | comparing _ _ | confirming _ _ => True
  | _ => False

end Pc

/-- How a call ended. -/
inductive Outcome where
  /-- A `table_wait` whose check answered. -/
  | answered (r : ℤ)
  /-- A `table_wait` that queued. -/
  | waited (r : ℤ)
  /-- A call that did not come to its drain. -/
  | refused (r : ℤ)
  /-- A call that drained, when the waiters it could hit were `seen`. -/
  | drew (op : Op) (seen : List Call) (r : ℤ)
  deriving DecidableEq

structure Thread where
  call : Call := 0
  pc : Pc := .idle

structure State where
  locks : Bucket → Option Tid := fun _ => none
  heads : Bucket → List Call := fun _ => []
  waiters : Call → Waiter := fun _ => {}
  threads : Tid → Thread := fun _ => {}
  /-- The calls made. -/
  calls : ℕ := 0
  /-- Who claimed whom. -/
  claims : List (Call × Call) := []
  /-- Who moved whom. -/
  moves : List (Call × Call) := []
  results : Call → Option Outcome := fun _ => none

namespace State

def pc (s : State) (t : Tid) : Pc := (s.threads t).pc

def call (s : State) (t : Tid) : Call := (s.threads t).call

/-- The waiter of a thread's call. -/
def waiter (s : State) (t : Tid) : Waiter := s.waiters (s.call t)

def goto (s : State) (t : Tid) (pc : Pc) : State :=
  { s with threads := Function.update s.threads t { s.threads t with pc } }

def lock (s : State) (t : Tid) (b : Bucket) : State :=
  { s with locks := Function.update s.locks b (some t) }

/-- The end of a locked section. -/
def unlock (s : State) (t : Tid) : State :=
  { s with locks := fun b => if s.locks b = some t then none else s.locks b }

def link (s : State) (b : Bucket) (w : Call) : State :=
  { s with heads := Function.update s.heads b (w :: s.heads b) }

def setWaiter (s : State) (w : Call) (waiter : Waiter) : State :=
  { s with waiters := Function.update s.waiters w waiter }

/-- The call returns. -/
def finish (s : State) (t : Tid) (o : Outcome) : State :=
  { (s.unlock t).goto t .idle with results := Function.update s.results (s.call t) (some o) }

/-- A call starts: the next number. -/
def start (s : State) (t : Tid) (pc : Pc) : State :=
  { s with threads := Function.update s.threads t { call := s.calls, pc }, calls := s.calls + 1 }

/-- `Wakes::claim`. -/
def claim (s : State) (t : Tid) (w : Call) : State :=
  { s.setWaiter w { s.waiters w with woken := true } with claims := s.claims ++ [(s.call t, w)] }

/-- The link of a waiter that is moved. -/
def relink (s : State) (t : Tid) (addr : Addr) (w : Call) : State :=
  { s.link (bucket addr) w with moves := s.moves ++ [(s.call t, w)] }

/-- Takes a lock that is free. -/
def tryLock (s : State) (t : Tid) (b : Bucket) (pc : Pc) : Option State :=
  if s.locks b = none then some ((s.lock t b).goto t pc) else none

/-- The waiters in its bucket that a call could hit, in list order. -/
def seen (s : State) (op : Op) : List Call :=
  (s.heads (bucket op.addr)).filter fun w => op.hit (s.waiters w)

/-- The drain of a call that holds its locks. -/
def draw (s : State) (t : Tid) (op : Op) : State :=
  let b := bucket op.addr
  let (ws, rest) := drain (upTo fun w => op.hit (s.waiters w)) op.left (s.heads b)
  { s with heads := Function.update s.heads b rest }.goto t (.disposing op (s.seen op) ws 0 [] 0)

/-- The next access of the thread's call; `word` is the guest's word, for one that loads it. -/
def advance (s : State) (t : Tid) (word : Option Word) : Option State :=
  let w := s.waiter t
  match s.pc t with
  | .idle | .deciding => none
  | .entering check b => s.tryLock t b (.queuing check b)
  | .queuing check b =>
    match check.run word with
    | some r => some (s.finish t (.answered r))
    | none => some (((s.link b (s.call t)).unlock t).goto t .looking)
  | .looking => if w.woken then some (s.finish t (.waited 0)) else some (s.goto t .deciding)
  | .leaving r => some (s.goto t (.locking r (bucket w.addr)))
  | .locking r b => s.tryLock t b (.comparing r b)
  | .comparing r b =>
    -- requeue may have moved the waiter: another bucket's lock is needed
    if b = bucket w.addr then some (s.goto t (.confirming r b))
    else some ((s.unlock t).goto t (.leaving r))
  | .confirming r b =>
    if w.woken then some (s.finish t (.waited 0))
    else
      let (_, rest) := drain (fun (_ : Unit) x => (x == s.call t, ())) () (s.heads b)
      some ({ s with heads := Function.update s.heads b rest }.finish t (.waited r))
  | .acquire op k =>
    match op.buckets[k]? with
    | some b => s.tryLock t b (.acquire op (k + 1))
    | none =>
      match op.guard word with
      | some r => some (s.finish t (.refused r))
      | none => some (s.draw t op)
  | .disposing op seen [] _ wakes moved =>
    some (s.finish t (.drew op seen (op.result wakes.length moved)))
  | .disposing op seen (w :: ws) i wakes moved =>
    if op.claims i then
      some ((s.claim t w).goto t (.disposing op seen ws (i + 1) (wakes ++ [w]) moved))
    else
      some ((s.setWaiter w { s.waiters w with addr := op.target }).goto t
        (.linking op seen w ws i wakes moved))
  | .linking op seen w ws i wakes moved =>
    some ((s.relink t op.target w).goto t (.disposing op seen ws (i + 1) wakes (moved + 1)))

end State

/-- What happens next. -/
inductive Label where
  /-- A thread calls `table_wait`, -/
  | wait (t : Tid) (addr : Addr) (bitset : Word) (pi : Bool) (check : Check)
  /-- or one of the calls that drain. -/
  | call (t : Tid) (op : Op)
  /-- A thread's call makes its next access. -/
  | run (t : Tid) (word : Option Word)
  /-- A waiting thread finds its deadline passed, -/
  | timeout (t : Tid)
  /-- or a signal, -/
  | interrupt (t : Tid)
  /-- or parks; the park ends, with or without an unpark. -/
  | park (t : Tid)
  deriving DecidableEq

/-- The thread that takes the step. -/
def Label.thread : Label → Tid
  | wait t _ _ _ _ | call t _ | run t _ | timeout t | interrupt t | park t => t

namespace State

/-- A waiting thread goes on from where it looks at its clock and signals. -/
def decide (s : State) (t : Tid) (pc : Pc) : Option State :=
  match s.pc t with
  | .deciding => some (s.goto t pc)
  | _ => none

/-- An idle thread starts a call. -/
def begin (s : State) (t : Tid) (pc : Pc) : Option State :=
  match s.pc t with
  | .idle => some (s.start t pc)
  | _ => none

def step (s : State) : Label → Option State
  | .wait t addr bitset pi check =>
    (s.setWaiter s.calls { addr, bitset, pi, thread := t }).begin t (.entering check (bucket addr))
  | .call t op => s.begin t (.acquire op 0)
  | .run t word => s.advance t word
  | .timeout t => s.decide t (.leaving (-ETIMEDOUT))
  | .interrupt t => s.decide t (.leaving (-EINTR))
  | .park t => s.decide t .looking

def Step (s s' : State) : Prop := ∃ l, s.step l = some s'

/-- The states that steps reach from the empty table. -/
def Reachable (s : State) : Prop := Relation.ReflTransGen Step {} s

/-- The labels, one after the other. -/
def exec : State → List Label → Option State
  | s, [] => some s
  | s, l :: ls => (s.step l).bind fun s => exec s ls

variable {ls : List Label}

theorem exec_run {s s' : State} (hs : s.exec ls = some s') : Relation.ReflTransGen Step s s' := by
  induction ls generalizing s with
  | nil => cases hs; exact .refl
  | cons l ls ih =>
    obtain ⟨s₁, hs₁, hs⟩ := Option.bind_eq_some_iff.1 hs
    exact .head ⟨l, hs₁⟩ (ih hs)

theorem Reachable.exec {s s' : State} (h : Reachable s)
    (hs : s.exec ls = some s') : Reachable s' := h.trans (exec_run hs)

/-- The waiter is queued: its call waits, and nothing has claimed it. -/
def Queued (s : State) (w : Call) : Prop :=
  s.call (s.waiters w).thread = w ∧ (s.pc (s.waiters w).thread).Waits ∧ (s.waiters w).woken = false

/-- The calls that claimed a waiter. -/
def claimersOf (s : State) (w : Call) : List Call := (s.claims.filter (·.2 == w)).map (·.1)

/-- The waiters a call claimed. -/
def claimedBy (s : State) (c : Call) : List Call := (s.claims.filter (·.1 == c)).map (·.2)

/-- The waiters a call moved. -/
def movedBy (s : State) (c : Call) : List Call := (s.moves.filter (·.1 == c)).map (·.2)

end State

end Aim.Futex
