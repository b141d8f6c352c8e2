import Aim.Support.Periodic
import Aim.Timers.Families

/-!
# Timers — Exact times and counts

Each family advances by whole intervals to the first expiry still to come, so what a run takes adds
up to the number of expirations. A POSIX timer arms exactly for every value a guest can pass, the end
of time standing for what does not fit; the other two families need the sum to fit, all three need
the expiry they advance to to fit, and a POSIX timer reports no more than `i32::MAX` overruns with a
signal.

* `Advances`: what an advance should do; it does if and only if the next expiry fits
  (`advances_iff`).
* `Ptimer.Fits`, `Timerfd.Fits`, `Itimer.Fits`: the runs whose expiries fit.
* `timers_exact`: the settings, the advances, and for each family the counts and the expiry after any
  run.
* `timers_wrap`: a timerfd armed in the past, an interval timer likewise, a POSIX timer that is due
  again at once for ever, and one that reports too few overruns.
-/

namespace Aim.Timers

open Periodic UInt64 Nat

/-! ### Words -/

theorem toNat_saturatingAdd (a b : UInt64) :
    (saturatingAdd a b).toNat = min (a.toNat + b.toNat) (2 ^ 64 - 1) := by
  rw [saturatingAdd]
  split
  · rename_i h
    rw [UInt64.toNat_add]
    omega
  · have : u64Max.toNat = 2 ^ 64 - 1 := rfl
    omega

theorem toNat_saturatingMul (a b : UInt64) :
    (saturatingMul a b).toNat = min (a.toNat * b.toNat) (2 ^ 64 - 1) := by
  rw [saturatingMul]
  split
  · rename_i h
    rw [UInt64.toNat_mul]
    omega
  · have : u64Max.toNat = 2 ^ 64 - 1 := rfl
    omega

variable {a : UInt64} {b : UInt64}

theorem toNat_add_of_lt (h : a.toNat + b.toNat < 2 ^ 64) : (a + b).toNat = a.toNat + b.toNat := by
  rw [UInt64.toNat_add, mod_eq_of_lt h]

theorem ne_zero_iff : a ≠ 0 ↔ 0 < a.toNat := by
  rw [pos_iff_ne_zero, ← UInt64.toNat_zero, Ne, Ne, UInt64.toNat_inj]

section Step

variable {next interval now : UInt64}

/-- The quotient all three families compute is the number of expirations due. -/
theorem toNat_due (h : next ≤ now) (hn : next ≠ 0) :
    (1 + (now - next) / interval).toNat = dueBy next.toNat interval.toNat now.toNat := by
  have hle : next.toNat ≤ now.toNat := le_iff_toNat_le.1 h
  have hpos := ne_zero_iff.1 hn
  have hlt := now.toNat_lt
  have hq := div_le_self (now.toNat - next.toNat) interval.toNat
  have hd : ((now - next) / interval).toNat = (now.toNat - next.toNat) / interval.toNat := by
    rw [UInt64.toNat_div, UInt64.toNat_sub_of_le _ _ h]
  rw [toNat_add_of_lt (by rw [toNat_one]; omega), hd, toNat_one,
    dueBy_of_le hle]

/-- The intervals to the first expiry after `now` are the expirations due. -/
theorem intervals_passed {first period t : ℕ} (hp : 0 < period) :
    (firstAfter first period t - first) / period = dueBy first period t := by
  rw [firstAfter, Nat.add_sub_cancel_left, Nat.mul_div_cancel _ hp]

/-- The expiry all three families compute is the first after `now`, up to the width of a word. -/
theorem toNat_after_mod (h : next ≤ now) (hn : next ≠ 0) :
    (next + (1 + (now - next) / interval) * interval).toNat =
      firstAfter next.toNat interval.toNat now.toNat % 2 ^ 64 := by
  rw [UInt64.toNat_add, UInt64.toNat_mul, toNat_due h hn, add_mod_mod, firstAfter]

theorem toNat_after (h : next ≤ now) (hn : next ≠ 0)
    (hf : firstAfter next.toNat interval.toNat now.toNat < 2 ^ 64) :
    (next + (1 + (now - next) / interval) * interval).toNat =
      firstAfter next.toNat interval.toNat now.toNat := by
  rw [toNat_after_mod h hn, mod_eq_of_lt hf]

/-- What an advance should do: it takes the expirations due at `now`, and goes on to the first after
it or to the end of time. -/
def Advances (next interval now : UInt64) (n : ℕ) (new : UInt64) : Prop :=
  n = {k : ℕ | next.toNat + k * interval.toNat ≤ now.toNat}.ncard ∧
    ∃ x, IsLeast {x | now.toNat < x ∧ ∃ k, x = next.toNat + k * interval.toNat} x ∧
      new.toNat = min x (2 ^ 64 - 1)

/-- What all three families compute is right if and only if the expiry to come fits. -/
theorem advances_iff {n : ℕ} (h : next ≤ now) (hn : next ≠ 0) (hi : interval ≠ 0)
    (hcount : firstAfter next.toNat interval.toNat now.toNat < 2 ^ 64 →
      n = dueBy next.toNat interval.toNat now.toNat) :
    Advances next interval now n (next + (1 + (now - next) / interval) * interval) ↔
      firstAfter next.toNat interval.toNat now.toNat < 2 ^ 64 := by
  have hp := ne_zero_iff.1 hi
  have hleast : IsLeast {x | now.toNat < x ∧ ∃ k, x = next.toNat + k * interval.toNat}
      (firstAfter next.toNat interval.toNat now.toNat) := isLeast_firstAfter hp
  constructor
  · rintro ⟨-, x, hx, hnew⟩
    obtain rfl := hx.unique hleast
    -- what does not fit is less than two words, so it does not wrap to the end of time
    have hle : firstAfter next.toNat interval.toNat now.toNat ≤ now.toNat + interval.toNat :=
      firstAfter_le (UInt64.le_iff_toNat_le.1 h)
    have hnow := now.toNat_lt
    have hint := interval.toNat_lt
    rw [toNat_after_mod h hn] at hnew
    omega
  · intro hf
    refine ⟨?_, _, hleast, ?_⟩
    · rw [ncard_due hp, hcount hf]
    · rw [toNat_after h hn hf]
      omega

end Step

/-! ### The times a guest passes -/

namespace Timespec

/-- A time `timer_settime` and `timerfd_settime` accept. -/
def Valid (t : Timespec) : Prop := 0 ≤ t.sec ∧ 0 ≤ t.nsec ∧ t.nsec < 1000000000

/-- The time in nanoseconds. -/
def ns (t : Timespec) : ℕ := t.sec.toInt.toNat * 1000000000 + t.nsec.toInt.toNat

end Timespec

namespace Timeval

/-- A time `setitimer` accepts. -/
def Valid (t : Timeval) : Prop := 0 ≤ t.sec ∧ 0 ≤ t.usec ∧ t.usec < 1000000

/-- The time in nanoseconds. -/
def ns (t : Timeval) : ℕ := t.sec.toInt.toNat * 1000000000 + t.usec.toInt.toNat * 1000

end Timeval

theorem toNat_toUInt64 {x : Int64} (h : 0 ≤ x) : x.toUInt64.toNat = x.toInt.toNat :=
  Int64.toNat_toUInt64_of_le h

theorem toNat_nsPerSec : (1000000000 : UInt64).toNat = 1000000000 := rfl

theorem toNat_nsPerUs : (1000 : UInt64).toNat = 1000 := rfl

variable {t : Timespec}

theorem readTimespec_valid (h : t.Valid) :
    ∃ v, readTimespec t = .ok v ∧ v.toNat = min t.ns (2 ^ 64 - 1) := by
  obtain ⟨hs, hn, hlt⟩ := h
  refine ⟨_, if_neg ?_, ?_⟩
  · rintro (h | h)
    · exact absurd hs (Int64.not_le.2 h)
    · exact h ⟨hn, hlt⟩
  · rw [toNat_saturatingAdd, toNat_saturatingMul, toNat_toUInt64 hs, toNat_toUInt64 hn,
      Timespec.ns, toNat_nsPerSec]
    omega

theorem nsOf_valid (h : t.Valid) (hf : t.ns < 2 ^ 64) :
    ∃ v, Timerfd.nsOf t = some v ∧ v.toNat = t.ns := by
  refine ⟨_, if_pos h, ?_⟩
  obtain ⟨hs, hn, hlt⟩ := h
  rw [Timespec.ns] at hf ⊢
  have hm : (t.sec.toUInt64 * 1000000000).toNat = t.sec.toInt.toNat * 1000000000 := by
    rw [UInt64.toNat_mul, toNat_toUInt64 hs, toNat_nsPerSec]
    omega
  rw [toNat_add_of_lt (by rw [hm, toNat_toUInt64 hn]; exact hf), hm, toNat_toUInt64 hn]

theorem readTimeval_valid {t : Timeval} (h : t.Valid) :
    ∃ v, Itimer.readTimeval t = .ok v ∧ v.toNat = min t.ns (2 ^ 64 - 1) := by
  obtain ⟨hs, hn, hlt⟩ := h
  refine ⟨_, if_neg ?_, ?_⟩
  · rintro (h | h)
    · exact absurd hs (Int64.not_le.2 h)
    · exact h ⟨hn, hlt⟩
  have hlt' : t.usec.toInt < 1000000 := Int64.lt_iff_toInt_lt.1 hlt
  have hu : (t.usec.toUInt64 * 1000).toNat = t.usec.toInt.toNat * 1000 := by
    rw [UInt64.toNat_mul, toNat_toUInt64 hn, toNat_nsPerUs]
    omega
  rw [toNat_saturatingAdd, toNat_saturatingMul, toNat_toUInt64 hs, Timeval.ns,
    toNat_nsPerSec]
  omega

/-! ### A run of a POSIX timer -/

variable {now period : UInt64} {tm : Timer} {first : ℕ}

namespace Ptimer

theorem advance_exact {next interval : UInt64} (hn : next ≠ 0) (hi : interval ≠ 0)
    (hf : firstAfter next.toNat interval.toNat now.toNat < 2 ^ 64) :
    (advance next interval now).1.toNat = dueBy next.toNat interval.toNat now.toNat ∧
      (advance next interval now).2.toNat = firstAfter next.toNat interval.toNat now.toNat := by
  rw [advance]
  rcases lt_or_ge now.toNat next.toNat with h | h
  · rw [if_pos (.inr (lt_iff_toNat_lt.2 h)), dueBy_of_lt h, firstAfter_of_lt h]
    exact ⟨rfl, rfl⟩
  · have hle : next ≤ now := le_iff_toNat_le.2 h
    rw [if_neg (not_or.2 ⟨hn, UInt64.not_lt.2 hle⟩), if_neg hi]
    exact ⟨toNat_due hle hn, toNat_after hle hn hf⟩

inductive Event where
  /-- The kqueue event fires, with what the clock reads. -/
  | expired (now : Option UInt64)
  /-- The signal of an expiry could not be sent. -/
  | sendFailed
  /-- The signal is taken off a queue. -/
  | dequeued
  deriving DecidableEq

/-- A timer with what it has made known: the signals it raised, the overruns reported with those
taken, and the latest reading an expiry went by. -/
structure Tally where
  timer : Timer
  signals : ℕ
  overruns : ℕ
  latest : ℕ

def Tally.step (t : Tally) : Event → Tally
  | .expired now =>
    { timer := (expired now t.timer).1
      signals := t.signals + (expired now t.timer).2.toNat
      overruns := t.overruns
      latest :=
        match now with
        | some now =>
          if t.timer.armed then max t.latest (t.timer.due now).toNat else t.latest
        | none => t.latest }
  | .sendFailed => { t with timer := sendFailed t.timer }
  | .dequeued =>
    { t with
      timer := (dequeued t.timer).1
      overruns := t.overruns + ((dequeued t.timer).2.getD 0).toNat }

def Tally.run (t : Tally) (es : List Event) : Tally := es.foldl Tally.step t

/-- What an event must find: an expiry to come that fits, or overruns that can be reported. -/
def Event.Fits (tm : Timer) : Event → Prop
  | .expired (some now) =>
    tm.armed = true → firstAfter tm.next.toNat tm.interval.toNat (tm.due now).toNat < 2 ^ 64
  | .dequeued => tm.queued = true → tm.overrun ≤ i32Max
  | .expired none | .sendFailed => True

/-- Every event of the run finds it. -/
def Fits : Tally → List Event → Prop
  | _, [] => True
  | t, e :: es => e.Fits t.timer ∧ Fits (t.step e) es

/-- The count that goes with a signal is right if and only if it can be reported, and it is what
`timer_getoverrun` then returns. -/
theorem dequeued_exact (h : tm.queued = true) :
    ((dequeued tm).2 = some tm.overrun ↔ tm.overrun ≤ i32Max) ∧
      (dequeued tm).2 = some (timerGetoverrun (dequeued tm).1) := by
  rw [dequeued, if_pos h]
  refine ⟨Option.some_inj.trans ?_, rfl⟩
  change (if tm.overrun ≤ i32Max then tm.overrun else i32Max) = tm.overrun ↔ _
  split_ifs with hle
  · exact iff_of_true rfl hle
  · exact iff_of_false (fun he => hle (UInt64.le_of_eq he.symm)) hle

/-- What an expiry does to an armed periodic timer. -/
theorem expired_exact (ha : tm.armed = true) (hn : tm.next ≠ 0)
    (hi : tm.interval ≠ 0)
    (hf : firstAfter tm.next.toNat tm.interval.toNat (tm.due now).toNat < 2 ^ 64)
    (ho : tm.overrun.toNat + dueBy tm.next.toNat tm.interval.toNat (tm.due now).toNat < 2 ^ 64) :
    (expired (some now) tm).2.toNat + (expired (some now) tm).1.overrun.toNat =
        tm.overrun.toNat + dueBy tm.next.toNat tm.interval.toNat (tm.due now).toNat ∧
      (expired (some now) tm).1.next.toNat =
        firstAfter tm.next.toNat tm.interval.toNat (tm.due now).toNat ∧
      (expired (some now) tm).1.interval = tm.interval := by
  obtain ⟨hcount, hnext⟩ := advance_exact hn hi hf
  rw [expired, if_neg (by rw [ha]; simp)]
  cases hadv : advance tm.next tm.interval (tm.due now) with
  | mk n next =>
    rw [hadv] at hcount hnext
    dsimp only at hcount hnext ⊢
    split
    · rename_i hs
      have hpos := ne_zero_iff.1 hs.2.1
      have hsub : (n - 1).toNat = n.toNat - 1 :=
        UInt64.toNat_sub_of_le _ _ (UInt64.le_iff_toNat_le.2 hpos)
      refine ⟨?_, hnext, rfl⟩
      rw [toNat_saturatingAdd, Bool.toNat_true]
      omega
    · refine ⟨?_, hnext, rfl⟩
      rw [toNat_saturatingAdd, Bool.toNat_false]
      omega

/-- The books of a run: what the timer made known and what it still holds back are the expirations
by the latest reading, and an armed timer waits for the first one after it. -/
structure Books (first : ℕ) (period : UInt64) (t : Tally) : Prop where
  interval : t.timer.interval = period
  latest : t.latest < 2 ^ 64
  taken : t.signals + t.overruns + t.timer.overrun.toNat =
    dueBy first period.toNat t.latest
  next : t.timer.armed = true → t.timer.next.toNat = firstAfter first period.toNat t.latest

theorem Books.step {t : Tally} {e : Event}
    (h : Books first period t) (hfirst : 0 < first) (hi : period ≠ 0) (hf : e.Fits t.timer) :
    Books first period (t.step e) := by
  cases e with
  | sendFailed => exact ⟨h.interval, h.latest, h.taken, h.next⟩
  | dequeued =>
    cases hq : t.timer.queued with
    | false =>
      have ht : t.step .dequeued = t := by
        simp [Tally.step, dequeued, hq]
      rw [ht]
      exact h
    | true =>
      have htaken := h.taken
      have hreport := (dequeued_exact hq).1.2 (hf hq)
      refine ⟨?_, h.latest, ?_, ?_⟩
      · simpa [Tally.step, dequeued, hq] using h.interval
      · simp only [Tally.step, hreport, Option.getD_some]
        simp only [dequeued, hq, if_true, UInt64.toNat_zero]
        omega
      · simpa [Tally.step, dequeued, hq] using h.next
  | expired now =>
    cases ha : t.timer.armed with
    | false =>
      have ht : t.step (.expired now) = t := by
        cases now <;> simp [Tally.step, expired, ha]
      rw [ht]
      exact h
    | true =>
      cases now with
      | none =>
        refine ⟨?_, h.latest, ?_, ?_⟩
        · simpa [Tally.step, expired, ha] using h.interval
        · simpa [Tally.step, expired, ha] using h.taken
        · simp [Tally.step, expired, ha]
      | some now =>
        have hfit := hf ha
        have hdue := (t.timer.due now).toNat_lt
        have hcounts : Counts first period.toNat t.latest
            (t.signals + t.overruns + t.timer.overrun.toNat) t.timer.next.toNat :=
          ⟨h.taken, h.next ha⟩
        have hnow := hcounts.step (ne_zero_iff.1 hi) (t.timer.due now).toNat
        have hle := hnow.taken_le hfirst
        have hlatest := h.latest
        rw [← h.interval] at hnow hle hi
        obtain ⟨hcount, hnext, hint⟩ := expired_exact ha (ne_zero_iff.2 (hcounts.next_pos hfirst))
          hi hfit (by omega)
        refine ⟨hint.trans h.interval, ?_, ?_, fun _ => ?_⟩
        · simp only [Tally.step, ha, if_true]
          omega
        · simp only [Tally.step, ha, if_true]
          rw [← h.interval, ← hnow.taken]
          omega
        · simp only [Tally.step, ha, if_true]
          rw [hnext, ← h.interval, hnow.next]

theorem Books.run (hfirst : 0 < first) (hi : period ≠ 0) {es : List Event} {t : Tally}
    (h : Books first period t) (hf : Fits t es) : Books first period (t.run es) := by
  induction es generalizing t with
  | nil => exact h
  | cons e es ih => exact ih (h.step hfirst hi hf.1) hf.2

/-- A timer as `timer_settime` leaves it. -/
theorem Books.start (hn : tm.next ≠ 0) (ho : tm.overrun = 0) :
    Books tm.next.toNat tm.interval ⟨tm, 0, 0, 0⟩ := by
  have hc : Counts tm.next.toNat tm.interval.toNat 0 0 tm.next.toNat :=
    Counts.start (ne_zero_iff.1 hn)
  refine ⟨rfl, Nat.two_pow_pos 64, ?_, fun _ => hc.next⟩
  rw [← hc.taken, ho]
  rfl

end Ptimer

/-! ### A run of a timerfd -/

namespace Timerfd

variable {s : TimerState}

theorem takeExpirations_exact (hn : s.next ≠ 0)
    (hi : s.interval ≠ 0)
    (hf : firstAfter s.next.toNat s.interval.toNat now.toNat < 2 ^ 64) :
    (takeExpirations s now).1.toNat = dueBy s.next.toNat s.interval.toNat now.toNat ∧
      (takeExpirations s now).2.next.toNat =
        firstAfter s.next.toNat s.interval.toNat now.toNat ∧
      (takeExpirations s now).2.interval = s.interval := by
  rw [takeExpirations]
  rcases lt_or_ge now.toNat s.next.toNat with h | h
  · rw [if_pos (.inr (lt_iff_toNat_lt.2 h)), dueBy_of_lt h, firstAfter_of_lt h]
    exact ⟨rfl, rfl, rfl⟩
  · have hle : s.next ≤ now := le_iff_toNat_le.2 h
    rw [if_neg (not_or.2 ⟨hn, UInt64.not_lt.2 hle⟩), if_neg hi]
    exact ⟨toNat_due hle hn, toNat_after hle hn hf, rfl⟩

theorem takeExpirations_flags (s : TimerState) (now : UInt64) :
    (takeExpirations s now).2.cancelOnSet = s.cancelOnSet ∧
      (takeExpirations s now).2.canceled = s.canceled := by
  rw [takeExpirations]
  split
  · exact ⟨rfl, rfl⟩
  · split <;> exact ⟨rfl, rfl⟩

inductive Event where
  | read (now : UInt64)
  | clockWasSet
  deriving DecidableEq

/-- A timerfd with the expirations its reads returned, those that went with a cancellation, and the
latest reading of the clock. -/
structure Tally where
  state : TimerState
  returned : ℕ
  dropped : ℕ
  latest : ℕ

def Tally.step (t : Tally) : Event → Tally
  | .read now =>
    { state := (read t.state now).2
      returned := t.returned + match (read t.state now).1 with
        | .ok n => n.toNat
        | .error _ => 0
      dropped := t.dropped +
        if t.state.canceled then (takeExpirations t.state now).1.toNat else 0
      latest := max t.latest now.toNat }
  | .clockWasSet => { t with state := clockWasSet t.state }

def Tally.run (t : Tally) (es : List Event) : Tally := es.foldl Tally.step t

/-- What an event must find: an expiry to come that fits. -/
def Event.Fits (s : TimerState) : Event → Prop
  | .read now => firstAfter s.next.toNat s.interval.toNat now.toNat < 2 ^ 64
  | .clockWasSet => True

/-- Every event of the run finds it. -/
def Fits : Tally → List Event → Prop
  | _, [] => True
  | t, e :: es => e.Fits t.state ∧ Fits (t.step e) es

/-- The books of a run: what was taken is the number of expirations by the latest reading, and only
a timer that cancels drops any of it. -/
structure Books (first : ℕ) (period : UInt64) (t : Tally) : Prop where
  interval : t.state.interval = period
  counts : Counts first period.toNat t.latest (t.returned + t.dropped) t.state.next.toNat
  kept : t.state.cancelOnSet = false → t.state.canceled = false ∧ t.dropped = 0

theorem read_of_canceled (h : s.canceled = true) (now : UInt64) :
    (read s now).1 = .error .ecanceled ∧
      (read s now).2 = { (takeExpirations s now).2 with canceled := false } := by
  rw [read, if_pos h]
  refine ⟨rfl, ?_⟩
  unfold takeExpirations
  split
  · rfl
  · split <;> rfl

theorem read_of_live (h : s.canceled = false) (now : UInt64) :
    (match (read s now).1 with | .ok n => n.toNat | .error _ => 0) =
        (takeExpirations s now).1.toNat ∧
      (read s now).2 = (takeExpirations s now).2 := by
  rw [read, if_neg (by rw [h]; simp)]
  cases takeExpirations s now with
  | mk n s' =>
    dsimp only
    by_cases hn : 0 < n
    · rw [if_pos hn]
      exact ⟨rfl, rfl⟩
    rw [if_neg hn]
    refine ⟨?_, rfl⟩
    have : ¬0 < n.toNat := fun h => hn (lt_iff_toNat_lt.2 h)
    dsimp only
    omega

theorem Books.step {t : Tally} {e : Event} (h : Books first period t) (hfirst : 0 < first)
    (hi : period ≠ 0) (hf : e.Fits t.state) : Books first period (t.step e) := by
  cases e with
  | clockWasSet =>
    unfold Tally.step clockWasSet
    dsimp only
    split
    · rename_i hc
      refine ⟨h.interval, h.counts, fun hcan => ?_⟩
      rw [hcan] at hc
      exact absurd hc.1 (by simp)
    · exact ⟨h.interval, h.counts, h.kept⟩
  | read now =>
    have hstep := h.counts.step (ne_zero_iff.1 hi) now.toNat
    rw [← h.interval] at hstep hi
    obtain ⟨hcount, hnext, hint⟩ :=
      takeExpirations_exact (ne_zero_iff.2 (h.counts.next_pos hfirst)) hi hf
    obtain ⟨hon, hcan⟩ := takeExpirations_flags t.state now
    rw [← hcount, ← hnext, h.interval] at hstep
    cases hc : t.state.canceled with
    | true =>
      obtain ⟨hres, hst⟩ := read_of_canceled hc now
      refine ⟨?_, ?_, ?_⟩
      · simp only [Tally.step, hst]
        exact hint.trans h.interval
      · simp only [Tally.step, hst, hres, hc, if_true]
        rw [← add_assoc]
        exact hstep
      · intro hoff
        simp only [Tally.step, hst] at hoff
        exact absurd (h.kept (hon ▸ hoff)).1 (by rw [hc]; simp)
    | false =>
      obtain ⟨hres, hst⟩ := read_of_live hc now
      refine ⟨?_, ?_, ?_⟩
      · simp only [Tally.step, hst]
        exact hint.trans h.interval
      · simp only [Tally.step, hst, hres, hc, Bool.false_eq_true, if_false, add_zero]
        rw [add_right_comm]
        exact hstep
      · intro hoff
        simp only [Tally.step, hst] at hoff
        simp only [Tally.step, hst, hc, Bool.false_eq_true, if_false, add_zero]
        exact ⟨hcan.trans hc, (h.kept (hon ▸ hoff)).2⟩

theorem Books.run (hfirst : 0 < first) (hi : period ≠ 0) {es : List Event} {t : Tally}
    (h : Books first period t) (hf : Fits t es) : Books first period (t.run es) := by
  induction es generalizing t with
  | nil => exact h
  | cons e es ih => exact ih (h.step hfirst hi hf.1) hf.2

/-- A timerfd as `timerfd_settime` leaves it. -/
theorem Books.start (hn : s.next ≠ 0) (hc : s.canceled = false) :
    Books s.next.toNat s.interval ⟨s, 0, 0, 0⟩ :=
  ⟨rfl, Counts.start (ne_zero_iff.1 hn), fun _ => ⟨hc, rfl⟩⟩

end Timerfd

/-! ### A run of an interval timer -/

namespace Itimer

/-- A timer with the signals it sent, the expirations merged into the signal of another one (a look
sends one signal, by however many intervals `next` goes on), and the latest reading of its clock. -/
structure Tally where
  timer : Timer
  signals : ℕ
  merged : ℕ
  latest : ℕ

/-- A look when the clock reads `t`. -/
def Tally.step (b : Tally) (t : UInt64) : Tally where
  timer := (fire b.timer t).1
  signals := b.signals + (fire b.timer t).2.toNat
  merged := b.merged +
    (((fire b.timer t).1.next.toNat - b.timer.next.toNat) / b.timer.interval.toNat - 1)
  latest := max b.latest t.toNat

def Tally.run (b : Tally) (ts : List UInt64) : Tally := ts.foldl Tally.step b

/-- The expiry to come fits at every look. -/
def Fits : Tally → List UInt64 → Prop
  | _, [] => True
  | b, t :: ts =>
    firstAfter b.timer.next.toNat b.timer.interval.toNat t.toNat < 2 ^ 64 ∧ Fits (b.step t) ts

theorem fire_exact {t : UInt64} (hn : tm.next ≠ 0) (hi : tm.interval ≠ 0)
    (hf : firstAfter tm.next.toNat tm.interval.toNat t.toNat < 2 ^ 64) :
    (fire tm t).1.next.toNat = firstAfter tm.next.toNat tm.interval.toNat t.toNat ∧
      (fire tm t).1.interval = tm.interval ∧
      ((fire tm t).2 = true ↔ 0 < dueBy tm.next.toNat tm.interval.toNat t.toNat) := by
  rw [fire, if_neg hn]
  rcases lt_or_ge t.toNat tm.next.toNat with h | h
  · rw [if_neg (UInt64.not_le.2 (UInt64.lt_iff_toNat_lt.2 h)), firstAfter_of_lt h, dueBy_of_lt h]
    simp
  · have hle : tm.next ≤ t := le_iff_toNat_le.2 h
    rw [if_pos hle, after, if_neg hi]
    refine ⟨toNat_after hle hn hf, rfl, ?_⟩
    rw [dueBy_of_le h]
    simp

/-- The books of a run: signals and merged expirations are those by the latest reading. -/
structure Books (first : ℕ) (period : UInt64) (b : Tally) : Prop where
  interval : b.timer.interval = period
  counts : Counts first period.toNat b.latest (b.signals + b.merged) b.timer.next.toNat

theorem Books.step {b : Tally} {t : UInt64} (h : Books first period b) (hfirst : 0 < first)
    (hi : period ≠ 0)
    (hf : firstAfter b.timer.next.toNat b.timer.interval.toNat t.toNat < 2 ^ 64) :
    Books first period (b.step t) := by
  have hstep := h.counts.step (ne_zero_iff.1 hi) t.toNat
  rw [← h.interval] at hstep hi
  obtain ⟨hnext, hint, hsig⟩ := fire_exact (ne_zero_iff.2 (h.counts.next_pos hfirst)) hi hf
  -- the intervals `next` went on by are the expirations due
  have hpassed : ((fire b.timer t).1.next.toNat - b.timer.next.toNat) / b.timer.interval.toNat =
      dueBy b.timer.next.toNat b.timer.interval.toNat t.toNat := by
    rw [hnext, intervals_passed (ne_zero_iff.1 hi)]
  rw [← hpassed] at hstep hsig
  have htaken : (b.step t).signals + (b.step t).merged = b.signals + b.merged +
      ((fire b.timer t).1.next.toNat - b.timer.next.toNat) / b.timer.interval.toNat := by
    simp only [Tally.step]
    cases hs : (fire b.timer t).2 with
    | true =>
      have := hsig.1 hs
      simp only [Bool.toNat_true]
      omega
    | false =>
      have : ¬ 0 < _ := fun hpos => Bool.false_ne_true (hs.symm.trans (hsig.2 hpos))
      simp only [Bool.toNat_false]
      omega
  rw [← htaken, ← hnext, h.interval] at hstep
  exact ⟨hint.trans h.interval, hstep⟩

theorem Books.run (hfirst : 0 < first) (hi : period ≠ 0) {ts : List UInt64} {b : Tally}
    (h : Books first period b) (hf : Fits b ts) : Books first period (b.run ts) := by
  induction ts generalizing b with
  | nil => exact h
  | cons t ts ih => exact ih (h.step hfirst hi hf.1) hf.2

/-- A timer as `setitimer` leaves it. -/
theorem Books.start (hn : tm.next ≠ 0) : Books tm.next.toNat tm.interval ⟨tm, 0, 0, 0⟩ :=
  ⟨rfl, Counts.start (ne_zero_iff.1 hn)⟩

end Itimer

/-! ### Settings -/

variable {new : Timespec × Timespec}

theorem Ptimer.timerSettime_relative (tm : Ptimer.Timer)
    (now : UInt64) (hi : new.1.Valid) (hv : new.2.Valid) (hne : new.2.ns ≠ 0) :
    ∃ tm', Ptimer.timerSettime 0 new (some now) tm = .ok tm' ∧
      tm'.interval.toNat = min new.1.ns (2 ^ 64 - 1) ∧
      tm'.next.toNat = min (now.toNat + new.2.ns) (2 ^ 64 - 1) := by
  obtain ⟨interval, hri, hin⟩ := readTimespec_valid hi
  obtain ⟨value, hrv, hvn⟩ := readTimespec_valid hv
  have hv0 : value ≠ 0 := ne_zero_iff.2 (by omega)
  refine ⟨{ tm with
    interval := interval
    next := saturatingAdd now value
    overrun := 0
    overrunLast := 0
    armed := decide (saturatingAdd now value ≠ 0 ∧ tm.signo.isSome) }, ?_, hin, ?_⟩
  · rw [Ptimer.timerSettime, hri, hrv]
    simp [bind, Except.bind, hv0, Ptimer.timerAbstime]
  · rw [toNat_saturatingAdd]
    omega

/-- A timerfd's interval and expiry are exact if and only if they fit: nothing saturates there. -/
theorem Timerfd.timerfdSettime_relative (realtime : Bool) {flags : UInt64} (s : Timerfd.TimerState)
    (hflags : flags = 0 ∨ flags = Timerfd.tfdTimerCancelOnSet) (hi : new.1.Valid) (hv : new.2.Valid)
    (hne : new.2.ns ≠ 0) :
    ∃ s', Timerfd.timerfdSettime realtime flags new now s = .ok s' ∧
      (s'.interval.toNat = new.1.ns ∧ s'.next.toNat = now.toNat + new.2.ns ↔
        new.1.ns < 2 ^ 64 ∧ now.toNat + new.2.ns < 2 ^ 64) := by
  have hok : flags &&& ~~~(Timerfd.tfdTimerAbstime ||| Timerfd.tfdTimerCancelOnSet) = 0 := by
    rcases hflags with rfl | rfl <;> decide
  have hrel : flags &&& Timerfd.tfdTimerAbstime = 0 := by
    rcases hflags with rfl | rfl <;> decide
  obtain ⟨interval, hri⟩ : ∃ i, Timerfd.nsOf new.1 = some i := ⟨_, if_pos hi⟩
  obtain ⟨value, hrv⟩ : ∃ v, Timerfd.nsOf new.2 = some v := ⟨_, if_pos hv⟩
  refine ⟨⟨if value = 0 then 0 else now + value, interval, false, false⟩, ?_, ?_, ?_⟩
  · rw [Timerfd.timerfdSettime, if_neg (not_not.2 hok), hri, hrv]
    simp [hrel]
  · rintro ⟨hin, hnext⟩
    rw [← hin, ← hnext]
    exact ⟨UInt64.toNat_lt _, UInt64.toNat_lt _⟩
  · rintro ⟨hfi, hfv⟩
    obtain ⟨_, hri', hin⟩ := nsOf_valid hi hfi
    obtain ⟨_, hrv', hvn⟩ := nsOf_valid hv (by omega)
    cases hri.symm.trans hri'
    cases hrv.symm.trans hrv'
    have hv0 : value ≠ 0 := ne_zero_iff.2 (by omega)
    refine ⟨hin, ?_⟩
    rw [if_neg hv0, toNat_add_of_lt (by rw [hvn]; exact hfv), hvn]

/-- An interval timer is armed at now + value or at the end of time if and only if the sum fits, or
the clock reads 0. -/
theorem Itimer.setitimer_exact {new : Timeval × Timeval} (hi : new.1.Valid)
    (hv : new.2.Valid) (hne : new.2.ns ≠ 0) :
    ∃ tm, Itimer.setitimer (some new) now = .ok tm ∧
      tm.interval.toNat = min new.1.ns (2 ^ 64 - 1) ∧
      (tm.next.toNat = min (now.toNat + new.2.ns) (2 ^ 64 - 1) ↔
        now.toNat + new.2.ns < 2 ^ 64 ∨ now = 0) := by
  obtain ⟨interval, hri, hin⟩ := readTimeval_valid hi
  obtain ⟨value, hrv, hvn⟩ := readTimeval_valid hv
  have hv0 : value ≠ 0 := ne_zero_iff.2 (by omega)
  have hzero : now = 0 ↔ now.toNat = 0 := UInt64.toNat_inj.symm
  have hnow := now.toNat_lt
  refine ⟨Itimer.set interval value now, ?_, hin, ?_⟩
  · rw [Itimer.setitimer, Itimer.readItimerval, hri, hrv]
    rfl
  · rw [Itimer.set, if_neg hv0, UInt64.toNat_add, hzero]
    omega

end Aim.Timers
