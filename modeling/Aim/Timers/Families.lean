import Mathlib

/-!
# Timers — The three families

POSIX timers (`ptimer.rs`), timerfds (`event.rs`) and interval timers (`itimer.rs`): how each reads
the times a guest passes, arms itself and advances when it is due. A time is a 64-bit number of
nanoseconds, and a sum or a product that does not fit wraps, as in the release profile; a `next` of
0 is a timer that is not armed.

The readings of the clocks are inputs. The kqueue, the wake tokens and the delivery of the signals
are left out.
-/

namespace Aim.Timers

inductive Errno where
  | einval
  | esrch
  | ecanceled
  | eagain
  deriving DecidableEq

/-- A guest `struct timespec`. -/
structure Timespec where
  sec : Int64
  nsec : Int64
  deriving DecidableEq

/-- A guest `struct timeval`. -/
structure Timeval where
  sec : Int64
  usec : Int64
  deriving DecidableEq

/-- `u64::MAX`, the end of time. -/
def u64Max : UInt64 := 18446744073709551615

/-- `u64::saturating_add`. -/
def saturatingAdd (a b : UInt64) : UInt64 :=
  if a.toNat + b.toNat < 2 ^ 64 then a + b else u64Max

/-- `u64::saturating_mul`. -/
def saturatingMul (a b : UInt64) : UInt64 :=
  if a.toNat * b.toNat < 2 ^ 64 then a * b else u64Max

/-! ### POSIX timers -/

/-- `park::read_timespec`. -/
def readTimespec (t : Timespec) : Except Errno UInt64 :=
  if t.sec < 0 ∨ ¬(0 ≤ t.nsec ∧ t.nsec < 1000000000) then .error .einval
  else .ok (saturatingAdd (saturatingMul t.sec.toUInt64 1000000000) t.nsec.toUInt64)

namespace Ptimer

inductive TimerClock where
  | wall
  | cpu
  deriving DecidableEq

structure Timer where
  /-- None for SIGEV_NONE. -/
  signo : Option ℕ
  clock : TimerClock
  /-- The next expiry on `clock`; 0 when disarmed. -/
  next : UInt64
  interval : UInt64
  /-- Expiries not signalled while the signal was queued. -/
  overrun : UInt64
  /-- `overrun` when the last signal was taken. -/
  overrunLast : UInt64
  queued : Bool
  /-- Whether a kqueue event is pending for the expiry. -/
  armed : Bool
  deriving DecidableEq

/-- Expirations due at `now` and the next deadline. -/
def advance (next interval now : UInt64) : UInt64 × UInt64 :=
  if next = 0 ∨ now < next then (0, next)
  else if interval = 0 then (1, 0)
  else
    let n := 1 + (now - next) / interval
    (n, next + n * interval)

/-- The reading an expiry goes by: zero leeway fires on time, the wall clock may lag slightly. -/
def Timer.due (tm : Timer) (now : UInt64) : UInt64 :=
  match tm.clock with
  | .wall => max now tm.next
  | .cpu => now

/-- `expired`: the kqueue event of the timer fired, and the clock reads `now` (none when the target
of a CPU clock has exited). The timer, and whether a signal is sent. -/
def expired (now : Option UInt64) (tm : Timer) : Timer × Bool :=
  if tm.armed = false then (tm, false)
  else
    match now with
    | none => ({ tm with next := 0, armed := false }, false)
    | some now =>
      let (n, next) := advance tm.next tm.interval (tm.due now)
      let tm := { tm with next := next, armed := decide (next ≠ 0) }
      if tm.signo.isSome ∧ n ≠ 0 ∧ tm.queued = false then
        ({ tm with queued := true, overrun := saturatingAdd tm.overrun (n - 1) }, true)
      else ({ tm with overrun := saturatingAdd tm.overrun n }, false)

/-- The end of `expired` when the signal could not be sent. -/
def sendFailed (tm : Timer) : Timer := { tm with queued := false }

/-- `i32::MAX as u64`, the most a count of overruns is reported as. -/
def i32Max : UInt64 := 2147483647

/-- `dequeued`: the timer's signal was taken off a queue. The timer, and the count of overruns that
goes with the signal, if the timer fills it in. -/
def dequeued (tm : Timer) : Timer × Option UInt64 :=
  if tm.queued then
    ({ tm with queued := false, overrunLast := tm.overrun, overrun := 0 },
      some (min tm.overrun i32Max))
  else (tm, none)

/-- `timer_getoverrun`. -/
def timerGetoverrun (tm : Timer) : UInt64 := min tm.overrunLast i32Max

def timerAbstime : UInt64 := 1

/-- `timer_settime` of the interval and the value `new`, when the clock reads `now`. -/
def timerSettime (flags : UInt64) (new : Timespec × Timespec) (now : Option UInt64) (tm : Timer) :
    Except Errno Timer :=
  if flags &&& ~~~timerAbstime ≠ 0 then .error .einval
  else do
    let interval ← readTimespec new.1
    let value ← readTimespec new.2
    let absolute := flags &&& timerAbstime ≠ 0
    match now with
    | none => .error .esrch
    | some now =>
      let next :=
        if value = 0 then 0
        else if ¬absolute then saturatingAdd now value
        else max value 1
      .ok { tm with
        interval := interval
        next := next
        overrun := 0
        overrunLast := 0
        armed := decide (next ≠ 0 ∧ tm.signo.isSome) }

end Ptimer

/-! ### Timerfds -/

namespace Timerfd

structure TimerState where
  next : UInt64
  interval : UInt64
  cancelOnSet : Bool
  canceled : Bool
  deriving DecidableEq

def nsOf (ts : Timespec) : Option UInt64 :=
  if 0 ≤ ts.sec ∧ 0 ≤ ts.nsec ∧ ts.nsec < 1000000000 then
    some (ts.sec.toUInt64 * 1000000000 + ts.nsec.toUInt64)
  else none

def tfdTimerAbstime : UInt64 := 1

def tfdTimerCancelOnSet : UInt64 := 2

/-- `timerfd_settime` of the interval and the value `new`, when the clock of the setting reads
`now`; `realtime` says that the timer was created for the realtime clock. -/
def timerfdSettime (realtime : Bool) (flags : UInt64) (new : Timespec × Timespec) (now : UInt64)
    (_ : TimerState) : Except Errno TimerState :=
  if flags &&& ~~~(tfdTimerAbstime ||| tfdTimerCancelOnSet) ≠ 0 then .error .einval
  else
    match nsOf new.1, nsOf new.2 with
    | some interval, some value =>
      let absolute := flags &&& tfdTimerAbstime ≠ 0
      .ok {
        cancelOnSet := decide ((realtime ∧ absolute) ∧ flags &&& tfdTimerCancelOnSet ≠ 0)
        canceled := false
        interval := interval
        next :=
          if value = 0 then 0
          else if ¬absolute then now + value
          else max value 1 }
    | _, _ => .error .einval

/-- Expirations by `now` on the timer's clock since the last read, advancing the deadline. -/
def takeExpirations (s : TimerState) (now : UInt64) : UInt64 × TimerState :=
  if s.next = 0 ∨ now < s.next then (0, s)
  else if s.interval = 0 then (1, { s with next := 0 })
  else
    let n := 1 + (now - s.next) / s.interval
    (n, { s with next := s.next + n * s.interval })

/-- One pass of `TimerFd::read` when the clock reads `now`; a pass that finds nothing ends with
`EAGAIN`, or waits and makes another. -/
def read (s : TimerState) (now : UInt64) : Except Errno UInt64 × TimerState :=
  if s.canceled then
    -- The cancellation is reported once, and the expirations so far go with it.
    (.error .ecanceled, (takeExpirations { s with canceled := false } now).2)
  else
    let (n, s) := takeExpirations s now
    if 0 < n then (.ok n, s) else (.error .eagain, s)

/-- `clock_was_set`, for one timer. -/
def clockWasSet (s : TimerState) : TimerState :=
  if s.cancelOnSet ∧ s.canceled = false then { s with canceled := true } else s

end Timerfd

/-! ### Interval timers -/

namespace Itimer

structure Timer where
  interval : UInt64
  /-- Expiry on the timer's clock, in ns; 0 when disarmed. -/
  next : UInt64
  deriving DecidableEq

/-- The first expiry after `now` of a timer due at `next`, or 0 when it does not repeat. -/
def after (next interval now : UInt64) : UInt64 :=
  if interval = 0 then 0 else next + (1 + (now - next) / interval) * interval

/-- One look of `run` at a timer when its clock reads `t`: the timer, and whether its signal is
sent. -/
def fire (tm : Timer) (t : UInt64) : Timer × Bool :=
  if tm.next = 0 then (tm, false)
  else if tm.next ≤ t then ({ tm with next := after tm.next tm.interval t }, true)
  else (tm, false)

/-- One of the two times of `read_itimerval`. -/
def readTimeval (v : Timeval) : Except Errno UInt64 :=
  if v.sec < 0 ∨ ¬(0 ≤ v.usec ∧ v.usec < 1000000) then .error .einval
  else .ok (saturatingAdd (saturatingMul v.sec.toUInt64 1000000000) (v.usec.toUInt64 * 1000))

def readItimerval (v : Timeval × Timeval) : Except Errno (UInt64 × UInt64) := do
  let interval ← readTimeval v.1
  let value ← readTimeval v.2
  return (interval, value)

/-- `set`: arm (or disarm, with `value` 0) the timer when its clock reads `now`. -/
def set (interval value now : UInt64) : Timer where
  interval := interval
  next := if value = 0 then 0 else now + value

/-- `setitimer`; a null new value disarms. -/
def setitimer (new : Option (Timeval × Timeval)) (now : UInt64) : Except Errno Timer := do
  let (interval, value) ←
    match new with
    | none => .ok (0, 0)
    | some v => readItimerval v
  return set interval value now

end Itimer

end Aim.Timers
