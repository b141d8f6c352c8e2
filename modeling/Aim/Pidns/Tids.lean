import Aim.Support.History

/-!
# Pidns — Owners of task ids

`sys/pidns/tids.rs` keeps the owner of each task id in three shared atomic words.  `Record::set`
clears the pid, stores the start time and stores the pid last; `Record::get` loads the three words
and then the pid again, and reports no owner when the two pids differ.  Writers hold the table's
lock and exclude each other; the reader takes no lock, so its four loads and their stores
interleave freely.

* `reading_step`: a reader that has seen a pid is in a stretch of calls that begins with the one
  that stored it, and every word it loads is of a call of that stretch.
* `get_untorn`: the identity read was stored as a whole, if no stretch of calls that begins and
  ends with one pid carries two start times.  Two equal pids are all that `get` compares.
-/

namespace Aim.Tids

open History List

/-- `ProcessIdentity`. -/
@[ext]
structure ProcessIdentity where
  hostPid : Int32
  startSeconds : UInt64
  startMicroseconds : UInt64
  deriving DecidableEq

/-- `host_pid as u64`. -/
def ProcessIdentity.word (o : ProcessIdentity) : UInt64 := o.hostPid.toInt64.toUInt64

structure Record where
  pid : UInt64 := 0
  seconds : UInt64 := 0
  microseconds : UInt64 := 0
  deriving DecidableEq

/-- Where the writer is in `Record::set`, by the store it made last. -/
inductive Writer where
  | idle
  | cleared (owner : ProcessIdentity)
  | seconds (owner : ProcessIdentity)
  | microseconds (owner : ProcessIdentity)
  deriving DecidableEq

/-- Where the reader is in `Record::get`, with the words it has loaded. -/
inductive Reader where
  | start
  | pid (p : UInt64)
  | seconds (p c : UInt64)
  | microseconds (p c m : UInt64)
  | done (read : ProcessIdentity)
  deriving DecidableEq

/-- The record, its writer and its reader.  `stored` lists the calls of `set` that are over. -/
structure State where
  record : Record := {}
  writer : Writer := .idle
  reader : Reader := .start
  stored : List ProcessIdentity := []
  deriving DecidableEq

/-- One atomic access: the first store of a call, the next store of the call in progress, or the
reader's next load. -/
inductive Action where
  | set (owner : ProcessIdentity)
  | store
  | load
  deriving DecidableEq

/-- The next load of `Record::get`. -/
def Reader.load (r : Record) : Reader → Reader
  | .start => .pid r.pid
  | .pid p => .seconds p r.seconds
  | .seconds p c => .microseconds p c r.microseconds
  | .microseconds p c m => .done ⟨if r.pid = p then p.toInt64.toInt32 else 0, c, m⟩
  | .done read => .done read

/-- One access; a call of `set` begins only when no other is in progress. -/
def step (s : State) : Action → State
  | .set owner =>
    if s.writer = .idle then
      { s with record := { s.record with pid := 0 }, writer := .cleared owner }
    else s
  | .store =>
    match s.writer with
    | .idle => s
    | .cleared o =>
      { s with record := { s.record with seconds := o.startSeconds }, writer := .seconds o }
    | .seconds o =>
      { s with
        record := { s.record with microseconds := o.startMicroseconds }
        writer := .microseconds o }
    | .microseconds o =>
      { s with
        record := { s.record with pid := o.word }
        writer := .idle
        stored := s.stored ++ [o] }
  | .load => { s with reader := s.reader.load s.record }

/-- The call in progress. -/
def Writer.current : Writer → List ProcessIdentity
  | .idle => []
  | .cleared o | .seconds o | .microseconds o => [o]

/-- The calls begun so far, in order. -/
def State.sets (s : State) : List ProcessIdentity := s.stored ++ s.writer.current

/-! ### What the words hold -/

/-- The pid is zero while a call is in progress, and between calls the record is the last one's. -/
def State.Published (s : State) : Prop :=
  match s.writer with
  | .idle => s.record.pid ≠ 0 → ∃ o ∈ s.stored.getLast?,
      s.record = ⟨o.word, o.startSeconds, o.startMicroseconds⟩
  | .cleared _ => s.record.pid = 0
  | .seconds o => s.record.pid = 0 ∧ s.record.seconds = o.startSeconds
  | .microseconds o => s.record = ⟨0, o.startSeconds, o.startMicroseconds⟩

variable {s : State}

theorem published_step (h : s.Published) (a : Action) : (step s a).Published := by
  rcases s with ⟨r, w, rd, st⟩
  cases a with
  | load => exact h
  | set owner => cases w <;> first | rfl | exact h
  | store =>
    cases w with
    | idle => exact h
    | cleared o => exact ⟨h, rfl⟩
    | seconds o =>
      obtain ⟨hp, hs⟩ := h
      simp only [step, State.Published, Record.mk.injEq, and_true]
      exact ⟨hp, hs⟩
    | microseconds o =>
      obtain rfl : r = _ := h
      exact fun _ => ⟨o, by simp [step], rfl⟩

/-- A pid in the record was stored by the last call, which is over. -/
theorem State.Published.last (h : s.Published) (hp : s.record.pid ≠ 0) :
    ∃ before o, s.sets = before ++ [o] ∧ o ∈ s.stored ∧
      s.record = ⟨o.word, o.startSeconds, o.startMicroseconds⟩ := by
  rcases s with ⟨r, w, rd, st⟩
  cases w with
  | idle =>
    obtain ⟨o, ho, hr⟩ := h hp
    obtain ⟨before, rfl⟩ := getLast?_eq_some_iff.1 ho
    exact ⟨before, o, by simp [State.sets, Writer.current], by simp, hr⟩
  | cleared o => exact absurd h hp
  | seconds o => exact absurd h.1 hp
  | microseconds o => exact absurd (congrArg Record.pid h) hp

/-! ### What the reader has seen -/

/-- The reader is in a stretch `o :: l` of the calls since the one that stored its pid `p`: the
start times in the record, and those it has loaded (`cs`, `ms`), are of calls of the stretch. -/
structure Stretch (s : State) (p : UInt64) (cs ms : List UInt64) (o : ProcessIdentity)
    (l : List ProcessIdentity) : Prop where
  calls : o :: l <:+ s.sets
  ended : o ∈ s.stored
  pid : p = o.word
  seconds : ∀ c ∈ s.record.seconds :: cs, ∃ x ∈ o :: l, x.startSeconds = c
  microseconds : ∀ m ∈ s.record.microseconds :: ms, ∃ x ∈ o :: l, x.startMicroseconds = m

def Reading (s : State) (p : UInt64) (cs ms : List UInt64) : Prop := ∃ o l, Stretch s p cs ms o l

/-- What the reader has found, by where it is. -/
def State.Found (s : State) : Prop :=
  match s.reader with
  | .start => True
  | .pid p => p ≠ 0 → Reading s p [] []
  | .seconds p c => p ≠ 0 → Reading s p [c] []
  | .microseconds p c m => p ≠ 0 → Reading s p [c] [m]
  | .done read => read.hostPid ≠ 0 → ∃ o ∈ s.stored, ∃ l, o :: l <:+: s.sets ∧
      read.hostPid = o.hostPid ∧ (∀ x ∈ (o :: l).getLast?, x.hostPid = o.hostPid) ∧
      (∃ x ∈ o :: l, x.startSeconds = read.startSeconds) ∧
      ∃ x ∈ o :: l, x.startMicroseconds = read.startMicroseconds

theorem word_toInt32 (o : ProcessIdentity) : o.word.toInt64.toInt32 = o.hostPid := by
  simp [ProcessIdentity.word]

/-- A stretch that is the end of the calls has the call in progress in it. -/
theorem Stretch.current {p : UInt64} {cs ms : List UInt64} {o x : ProcessIdentity}
    {l : List ProcessIdentity} (h : Stretch s p cs ms o l) (hw : s.writer.current = [x]) :
    x ∈ o :: l := by
  have hc := h.calls
  rw [State.sets, hw, suffix_concat_iff] at hc
  obtain h | ⟨l', h, -⟩ := hc
  · cases h
  · exact h ▸ mem_concat_self

/-- **A writer's step.**  The stretch goes on with the call it begins, and what it stores is of the
call in progress. -/
theorem reading_step {p : UInt64} {cs ms : List UInt64} (h : Reading s p cs ms)
    (a : Action) : Reading (step s a) p cs ms := by
  obtain ⟨o, l, h⟩ := h
  have hcur : ∀ x, s.writer.current = [x] → x ∈ o :: l := fun x => h.current
  obtain ⟨hc, hs, rfl, hsec, hmic⟩ := h
  rcases s with ⟨r, w, rd, st⟩
  cases a with
  | load => exact ⟨o, l, hc, hs, rfl, hsec, hmic⟩
  | set owner =>
    cases w with
    | idle =>
      have hc' : o :: (l ++ [owner]) <:+ st ++ [owner] := by
        obtain ⟨before, hb⟩ := hc
        exact ⟨before, by simpa [State.sets, Writer.current] using congrArg (· ++ [owner]) hb⟩
      refine ⟨o, l ++ [owner], hc', hs, rfl, fun c hcs => ?_, fun m hms => ?_⟩
      · obtain ⟨x, hx, rfl⟩ := hsec c hcs
        exact ⟨x, mem_append_left [owner] hx, rfl⟩
      · obtain ⟨x, hx, rfl⟩ := hmic m hms
        exact ⟨x, mem_append_left [owner] hx, rfl⟩
    | _ => exact ⟨o, l, hc, hs, rfl, hsec, hmic⟩
  | store =>
    cases w with
    | idle => exact ⟨o, l, hc, hs, rfl, hsec, hmic⟩
    | cleared x =>
      refine ⟨o, l, hc, hs, rfl, forall_mem_cons.2 ⟨⟨x, hcur x rfl, rfl⟩, ?_⟩, hmic⟩
      exact (forall_mem_cons.1 hsec).2
    | seconds x =>
      refine ⟨o, l, hc, hs, rfl, hsec, forall_mem_cons.2 ⟨⟨x, hcur x rfl, rfl⟩, ?_⟩⟩
      exact (forall_mem_cons.1 hmic).2
    | microseconds x =>
      refine ⟨o, l, ?_, mem_append_left _ hs, rfl, hsec, hmic⟩
      simpa [State.sets, Writer.current, step] using hc

/-- The calls begun only grow. -/
theorem sets_step (s : State) (a : Action) : s.sets <+: (step s a).sets ∧
    ∀ o ∈ s.stored, o ∈ (step s a).stored := by
  rcases s with ⟨r, w, rd, st⟩
  cases a with
  | load => exact ⟨prefix_rfl, fun o ho => ho⟩
  | set owner => cases w <;> simp [step, State.sets, Writer.current]
  | store => cases w <;> simp +contextual [step, State.sets, Writer.current]

/-- The reader's own step: at the first load it takes the stretch of the last call, and at the last
load the stretch ends with a call that stored the same pid. -/
theorem found_load (hp : s.Published) (h : s.Found) : (step s .load).Found := by
  rcases s with ⟨r, w, rd, st⟩
  cases rd with
  | start =>
    intro hne
    obtain ⟨before, o, hb, ho, hr⟩ := hp.last hne
    obtain rfl : r = _ := hr
    exact ⟨o, [], ⟨before, hb.symm⟩, ho, rfl, by simp [step], by simp [step]⟩
  | pid p =>
    intro hne
    obtain ⟨o, l, hc, ho, hpid, hsec, hmic⟩ := h hne
    exact ⟨o, l, hc, ho, hpid, by simpa [step] using hsec, hmic⟩
  | seconds p c =>
    intro hne
    obtain ⟨o, l, hc, ho, hpid, hsec, hmic⟩ := h hne
    exact ⟨o, l, hc, ho, hpid, hsec, by simpa [step] using hmic⟩
  | microseconds p c m =>
    intro hne
    -- a pid of zero, or one that is no longer there, is reported as no owner
    have heq : r.pid = p := by
      by_contra hn
      exact hne (by simp [hn])
    have hzero : p ≠ 0 := by
      rintro rfl
      exact hne (by simp)
    obtain ⟨o, l, hc, ho, rfl, hsec, hmic⟩ := h hzero
    obtain ⟨before, o', hb, -, hr⟩ := hp.last (heq ▸ hzero)
    have hlast : (o :: l).getLast? = some o' := by
      obtain ⟨front, hf⟩ := hc
      rw [← getLast?_append_of_ne_nil front (cons_ne_nil o l), hf, hb,
        getLast?_concat]
    have hpid : o'.hostPid = o.hostPid := by
      rw [← word_toInt32, ← word_toInt32, ← heq, congrArg Record.pid hr]
    refine ⟨o, ho, l, hc.isInfix, by simp [heq, word_toInt32], by simpa [hlast], ?_⟩
    exact ⟨hsec c (by simp), hmic m (by simp)⟩
  | done read => exact h

theorem found_step (hp : s.Published) (h : s.Found) (a : Action) : (step s a).Found := by
  by_cases ha : a = .load
  · exact ha ▸ found_load hp h
  have hrd : (step s a).reader = s.reader := by
    cases a with
    | load => exact absurd rfl ha
    | set owner => simp only [step]; split <;> rfl
    | store => simp only [step]; split <;> rfl
  have hkeep := fun p cs ms (hr : Reading s p cs ms) => reading_step hr a
  unfold State.Found at h ⊢
  rw [hrd]
  cases hr : s.reader with
  | start => trivial
  | done read =>
    intro hne
    rw [hr] at h
    obtain ⟨o, ho, l, hc, hrest⟩ := h hne
    have hs := sets_step s a
    exact ⟨o, hs.2 o ho, l, hc.trans hs.1.isInfix, hrest⟩
  | _ =>
    rw [hr] at h
    exact fun hne => hkeep _ _ _ (h hne)

/-! ### Reads -/

/-- No stretch of calls that begins and ends with one pid carries two start times.  So it is when
no pid is stored twice, also if each is released in between under its own start time. -/
def Steady (sets : List ProcessIdentity) : Prop :=
  ∀ o l, o :: l <:+: sets → o.hostPid ≠ 0 → (∀ x ∈ (o :: l).getLast?, x.hostPid = o.hostPid) →
    ∀ x ∈ l, x.startSeconds = o.startSeconds ∧ x.startMicroseconds = o.startMicroseconds

/-- **A read is not torn.**  In every interleaving of `get` with calls of `set` that exclude each
other, the identity read has no owner or was stored by one call, if the calls are steady. -/
theorem get_untorn (acts : List Action) (read : ProcessIdentity)
    (hs : Steady (run step {} acts).sets) (hd : (run step {} acts).reader = .done read) :
    read.hostPid = 0 ∨ read ∈ (run step {} acts).stored := by
  have hinv : (run step {} acts).Published ∧ (run step {} acts).Found := by
    refine run_induct (I := fun s : State => s.Published ∧ s.Found) ?_ ?_ acts
    · exact ⟨by simp [State.Published], trivial⟩
    · exact fun s a h => ⟨published_step h.1 a, found_step h.1 h.2 a⟩
  have hf := hinv.2
  rw [State.Found, hd] at hf
  by_cases hne : read.hostPid = 0
  · exact .inl hne
  obtain ⟨o, ho, l, hc, hpid, hlast, ⟨x, hx, hxs⟩, y, hy, hys⟩ := hf hne
  have hall : ∀ x ∈ o :: l,
      x.startSeconds = o.startSeconds ∧ x.startMicroseconds = o.startMicroseconds :=
    forall_mem_cons.2 ⟨⟨rfl, rfl⟩, hs o l hc (hpid ▸ hne) hlast⟩
  have hread : read = o :=
    ProcessIdentity.ext hpid (hxs.symm.trans (hall x hx).1) (hys.symm.trans (hall y hy).2)
  exact .inr (hread ▸ ho)

/-- A pid stored, released and stored again for one process, read across the three calls. -/
theorem get_untorn_again :
    let o : ProcessIdentity := ⟨5, 1, 1⟩
    let acts := [.set o, .store, .store, .store, .load, .set { o with hostPid := 0 }, .store,
      .load, .store, .store, .set o, .store, .load, .store, .store, .load]
    (run step {} acts).reader = .done o ∧ (o.hostPid = 0 ∨ o ∈ (run step {} acts).stored) := by
  refine ⟨by decide, get_untorn _ _ (fun o l hc _ _ x hx => ?_) (by decide)⟩
  have hsame : ∀ y ∈ o :: l, y.startSeconds = 1 ∧ y.startMicroseconds = 1 := by
    intro y hy
    have hy' : y ∈ [⟨5, 1, 1⟩, ⟨0, 1, 1⟩, ⟨5, 1, 1⟩] := hc.subset hy
    simp only [mem_cons, not_mem_nil, or_false] at hy'
    obtain rfl | rfl | rfl := hy' <;> exact ⟨rfl, rfl⟩
  obtain ⟨hsec, hmic⟩ := hsame o (.head _)
  exact hsec ▸ hmic ▸ hsame x (.tail o hx)

/-- **A torn read.**  A later process is given the same pid between the reader's second and third
loads: the pid is there again at the last load, and the times are of different calls. -/
theorem get_torn :
    let acts := [.set ⟨5, 1, 1⟩, .store, .store, .store, .load, .load, .set ⟨5, 2, 2⟩, .store,
      .store, .store, .load, .load]
    (run step {} acts).reader = .done ⟨5, 1, 2⟩ ∧ ⟨5, 1, 2⟩ ∉ (run step {} acts).sets := by
  decide

end Aim.Tids
