import Aim.Support.Table

/-!
# Fuse — Write-back errors

A failed write-back of an inode is kept in a file as a sequence number and an error, and every open
file has a cursor into that sequence (`fuse_cache.rs`, as `errseq_t`). `registerFile`, `checkError`,
`recordError` and the three flushes are as in the source, for the open files of one inode; whether
the pages reach the server is an input (`Except Errno Unit`).

Beside them stands what they are for, kept for one open file by somebody who sees the write-backs
that fail (`failed`, which no function reads) and what the calls made through the file return:
`Watch.owed` has the failures since the file was opened that no call has reported to it.

* `Accounts`: what a cursor stands for, the number of unreported failures behind the sequence.
* `fsync_reports`: after every run in which no flush made through a file failed, its fsync reports
  the last failure it has not heard of, or none, and then owes none.
* `own_failure_reported_twice`: the failure of a file's own flush is reported by that fsync and
  again by the next.
-/

namespace Aim.Fuse.Errors

open List AList

/-- A Linux error number. -/
abbrev Errno := ℕ+

/-- What a flush or an fsync returns. -/
abbrev Result := Except Errno Unit

structure State where
  /-- The file of errors: empty, or a sequence number and an error. -/
  errors : Option (ℕ × Errno)
  /-- The sequence number each open file has seen. -/
  cursors : Table ℕ ℕ
  /-- The files that have been closed. -/
  closed : List ℕ
  /-- The write-backs that failed, the oldest first. -/
  failed : List Errno

/-- `error_state`; an error of 0 is none. -/
def State.errorState (s : State) : ℕ × Option Errno :=
  match s.errors with
  | none => (0, none)
  | some (seq, error) => (seq, some error)

def recordError (error : Errno) (s : State) : State :=
  { s with errors := some ((s.errorState.1 + 1) % 2 ^ 64, error) }

def registerFile (file : ℕ) (s : State) : State :=
  let entries := s.cursors.retain fun owner _ => decide (owner ∉ s.closed)
  match entries.lookup file with
  | some _ => { s with cursors := entries }
  | none => { s with cursors := entries.insert file s.errorState.1 }

def checkError (file : ℕ) (s : State) : Result × State :=
  let (sequence, error) := s.errorState
  match s.cursors.lookup file with
  | none => (.ok (), { s with cursors := s.cursors.insert file sequence })
  | some seen =>
    if sequence ≠ seen then
      let s := { s with cursors := s.cursors.insert file sequence }
      match error with
      | some error => (.error error, s)
      | none => (.ok (), s)
    else (.ok (), s)

/-- `flush_locked`, when the write-back gives `result`. -/
def flushLocked (result : Result) (s : State) : Result × State :=
  match result with
  | .error error => (.error error, { s with failed := s.failed ++ [error] })
  | .ok () => (.ok (), s)

/-- `Cache::flush`. -/
def flush (result : Result) (s : State) : Result × State :=
  match flushLocked result s with
  | (.error error, s) => (.error error, recordError error s)
  | (.ok (), s) => (.ok (), s)

/-- `flush_range` over mappings of a cache opened by `source`: what the write-back of each mapping
gives. -/
def flushRange (source : ℕ) : List Result → State → Result × State
  | [], s => (.ok (), s)
  | result :: rest, s =>
    match flush result s with
    | (.error error, s) => (.error error, s)
    | (.ok (), s) =>
      match checkError source s with
      | (.error error, s) => (.error error, s)
      | (.ok (), s) => flushRange source rest s

/-- `flush_file`, the fsync of an open file; an inode without cached pages has nothing to write
back. -/
def flushFile (file : ℕ) (hydrated : Bool) (result : Result) (s : State) : Result × State :=
  let s := registerFile file s
  if hydrated then
    match flushLocked result s with
    | (.error error, s) => (.error error, recordError error s)
    | (.ok (), s) => checkError file s
  else checkError file s

inductive Op where
  | register (file : ℕ)
  | close (file : ℕ)
  | background (result : Result)
  | range (source : ℕ) (results : List Result)
  | fsync (file : ℕ) (hydrated : Bool) (result : Result)

/-- The open file the operation is made through. -/
def Op.file : Op → Option ℕ
  | .register file => some file
  | .close file => some file
  | .background _ => none
  | .range source _ => some source
  | .fsync file _ _ => some file

/-- The operation on the inode; nothing is done through a file that is closed, and what is mapped
was opened before. -/
def State.step (s : State) (op : Op) : Result × State :=
  if ∃ f ∈ s.closed, op.file = some f then (.ok (), s)
  else
    match op with
    | .register file => (.ok (), registerFile file s)
    | .close file => (.ok (), { s with closed := file :: s.closed })
    | .background result => flush result s
    | .range source results =>
      if (s.cursors.lookup source).isSome then flushRange source results s else (.ok (), s)
    | .fsync file hydrated result => flushFile file hydrated result s

/-- An inode nobody has opened. -/
def init : State := ⟨none, ∅, [], []⟩

/-- The inode and what is unreported to one open file, the oldest first; `none` before it is
opened. -/
structure Watch where
  state : State
  owed : Option (List Errno)

/-- The open file that is there from the operation on. -/
def Op.opens : Op → Option ℕ
  | .register file => some file
  | .fsync file _ _ => some file
  | _ => none

/-- A failure is owed from when it happens until a call made through the file returns an error. -/
def Watch.after (file : ℕ) (w : Watch) (op : Op) (r : Result × State) : Watch :=
  let owed := if op.opens = some file then some (w.owed.getD []) else w.owed
  ⟨r.2, if op.file = some file ∧ !r.1.isOk then some []
    else owed.map (· ++ r.2.failed.drop w.state.failed.length)⟩

def Watch.step (file : ℕ) (w : Watch) (op : Op) : Watch := w.after file op (w.state.step op)

def Watch.run (file : ℕ) (w : Watch) (ops : List Op) : Watch := ops.foldl (Watch.step file) w

/-- No flush made through `file` fails: neither its fsyncs' own nor those of its mappings. -/
def Op.Spares (file : ℕ) : Op → Prop
  | .range source results => source = file → ∀ r ∈ results, r = .ok ()
  | .fsync f hydrated result => f = file → hydrated = true → result = .ok ()
  | _ => True

/-! ### What the calls do -/

/-- The failures of some write-backs are on record, and no file is closed. -/
structure Records (new : List Errno) (s s' : State) : Prop where
  closed : s'.closed = s.closed
  failed : s'.failed = s.failed ++ new
  errorState : s'.errorState =
    new.foldl (fun e error => ((e.1 + 1) % 2 ^ 64, some error)) s.errorState

section Calls

variable {file other n : ℕ} {s : State} {error : Errno} {result : Result}

theorem Records.rfl : Records [] s s := ⟨Eq.refl _, (append_nil _).symm, Eq.refl _⟩

theorem Records.trans {new : List Errno} {s' s'' : State} (h : Records [] s s')
    (h' : Records new s' s'') : Records new s s'' where
  closed := h'.closed.trans h.closed
  failed := by rw [h'.failed, h.failed, append_nil]
  errorState := by rw [h'.errorState, h.errorState, foldl_nil]

theorem records_cursors (s : State) (cursors : Table ℕ ℕ) : Records [] s { s with cursors } :=
  ⟨rfl, (append_nil _).symm, rfl⟩

theorem records_error (s : State) (error : Errno) :
    Records [error] s (recordError error { s with failed := s.failed ++ [error] }) := ⟨rfl, rfl, rfl⟩

theorem lookup_retain_live (hc : file ∉ s.closed) :
    (s.cursors.retain fun owner _ => decide (owner ∉ s.closed)).lookup file =
      s.cursors.lookup file := by
  rw [lookup_retain]
  cases s.cursors.lookup file with
  | none => rfl
  | some seen => simp [hc]

theorem records_registerFile (file : ℕ) (s : State) : Records [] s (registerFile file s) := by
  unfold registerFile
  dsimp only
  split
  · exact records_cursors s _
  · exact records_cursors s _

/-- A file that is open keeps its cursor, and one that is opened has seen everything. -/
theorem lookup_registerFile (other : ℕ) (hc : file ∉ s.closed) :
    (registerFile other s).cursors.lookup file =
      if other = file then some ((s.cursors.lookup file).getD s.errorState.1)
      else s.cursors.lookup file := by
  have hlive := lookup_retain_live hc
  unfold registerFile
  dsimp only
  split
  · next seen hseen =>
    rw [hlive]
    split_ifs with ho
    · rw [← hlive, ← ho, hseen]
      rfl
    · rfl
  · next hnone =>
    dsimp only
    rw [lookup_insert_ite]
    split_ifs with h₁ h₂ h₂
    · rw [← hlive, h₁, hnone]
      rfl
    · exact absurd h₁.symm h₂
    · exact absurd h₂.symm h₁
    · exact hlive

theorem records_checkError (file : ℕ) (s : State) : Records [] s (checkError file s).2 := by
  unfold checkError
  dsimp only
  split
  · exact records_cursors s _
  split
  · split <;> exact records_cursors s _
  · exact .rfl

theorem lookup_checkError (ho : other ≠ file) :
    (checkError other s).2.cursors.lookup file = s.cursors.lookup file := by
  unfold checkError
  dsimp only
  split
  · exact lookup_insert_ne ho.symm
  split
  · split <;> exact lookup_insert_ne ho.symm
  · rfl

/-- What is done over the mappings of a file leaves the cursors of the others. -/
theorem flushRange_other (ho : other ≠ file) (results : List Result) (s : State) :
    (flushRange other results s).2.cursors.lookup file = s.cursors.lookup file ∧
      ∃ new, new.length ≤ 1 ∧ Records new s (flushRange other results s).2 := by
  induction results generalizing s with
  | nil => exact ⟨rfl, [], Nat.zero_le 1, .rfl⟩
  | cons result rest ih =>
    unfold flushRange
    cases result with
    | error error => exact ⟨rfl, [error], Nat.le_refl 1, records_error s error⟩
    | ok =>
      have hcheck := records_checkError other s
      have hlookup : (checkError other s).2.cursors.lookup file = _ := lookup_checkError ho
      dsimp only [flush, flushLocked]
      cases hr : checkError other s with
      | mk r s' =>
        rw [hr] at hcheck hlookup
        cases r with
        | error error => exact ⟨hlookup, [], Nat.zero_le 1, hcheck⟩
        | ok =>
          obtain ⟨hkeep, new, hnew, hrec⟩ := ih s'
          exact ⟨hkeep.trans hlookup, new, hnew, hcheck.trans hrec⟩

end Calls

/-! ### What a cursor stands for -/

/-- The cursor of an open file is as far behind the sequence, of at most `n` failures, as there are
failures it has not heard of, and the last of them is the error on file. -/
structure Accounts (file n : ℕ) (w : Watch) : Prop where
  le : w.state.errorState.1 ≤ n
  known : file ∉ w.state.closed → w.state.cursors.lookup file = none → w.owed = none
  owed : file ∉ w.state.closed → ∀ seen, w.state.cursors.lookup file = some seen →
    ∃ owed, w.owed = some owed ∧ seen + owed.length = w.state.errorState.1 ∧
      (owed ≠ [] → w.state.errorState.2 = owed.getLast?)

/-- What is returned to a file that is owed some failures. -/
def report (owed : List Errno) : Result :=
  match owed.getLast? with
  | some error => .error error
  | none => .ok ()

namespace Accounts

variable {file other n : ℕ} {w : Watch} {s' : State} {result : Result}

theorem init : Accounts file 0 ⟨init, none⟩ :=
  ⟨Nat.le_refl 0, fun _ _ => rfl, fun _ seen hs => by cases hs⟩

theorem mono {m : ℕ} (h : Accounts file n w) (hm : n ≤ m) : Accounts file m w :=
  ⟨h.le.trans hm, h.known, h.owed⟩

/-- What is newly on record is owed to a file whose cursor stays. -/
theorem records (h : Accounts file n w) (hn : n + 1 < 2 ^ 64) {new : List Errno}
    (hnew : new.length ≤ 1) (hr : Records new w.state s')
    (hk : file ∉ w.state.closed → s'.cursors.lookup file = w.state.cursors.lookup file) :
    Accounts file (n + 1) ⟨s', w.owed.map (· ++ new)⟩ := by
  have hle := h.le
  have hseq : s'.errorState =
      (w.state.errorState.1 + new.length, new.getLast?.or w.state.errorState.2) := by
    rw [hr.errorState]
    match new, hnew with
    | [], _ => rfl
    | [error], _ => exact Prod.ext (Nat.mod_eq_of_lt (by omega)) rfl
  refine ⟨by rw [hseq]; omega, fun hc hcur => ?_, fun hc seen hcur => ?_⟩
  · rw [hr.closed] at hc
    rw [h.known hc ((hk hc).symm.trans hcur)]
    rfl
  · rw [hr.closed] at hc
    obtain ⟨owed, hu, hlen, hlast⟩ := h.owed hc seen ((hk hc).symm.trans hcur)
    refine ⟨owed ++ new, by rw [hu]; rfl, ?_, fun hne => ?_⟩
    · rw [hseq, length_append]
      omega
    · rw [hseq, getLast?_append]
      cases new with
      | nil => exact hlast (by simpa using hne)
      | cons e new => simp [getLast?_cons]

/-- A file that has just seen everything is owed nothing. -/
theorem settled (hle : w.state.errorState.1 ≤ n) (hr : Records [] w.state s')
    (hcur : s'.cursors.lookup file = some w.state.errorState.1) :
    Accounts file n ⟨s', some []⟩ := by
  have he : s'.errorState = w.state.errorState := hr.errorState
  refine ⟨he ▸ hle, fun _ hnone => ?_, fun _ seen hseen => ?_⟩
  · cases hcur.symm.trans hnone
  · cases hcur.symm.trans hseen
    exact ⟨[], rfl, congrArg Prod.fst he.symm, fun hne => absurd rfl hne⟩

variable (h : Accounts file n w)

include h

/-- Opening a file reports nothing to it. -/
theorem registerFile (hc : file ∉ w.state.closed) :
    Accounts file n ⟨registerFile file w.state, some (w.owed.getD [])⟩ := by
  have hr := records_registerFile file w.state
  have hlookup := lookup_registerFile file hc
  rw [if_pos rfl] at hlookup
  cases hcur : w.state.cursors.lookup file with
  | none =>
    rw [hcur] at hlookup
    rw [h.known hc hcur]
    exact settled h.le hr hlookup
  | some seen =>
    obtain ⟨owed, hu, hrest⟩ := h.owed hc seen hcur
    have he : (Errors.registerFile file w.state).errorState = w.state.errorState := hr.errorState
    rw [hcur] at hlookup
    refine ⟨he ▸ h.le, fun _ hnone => ?_, fun _ seen' hseen => ?_⟩
    · cases hlookup.symm.trans hnone
    · cases hlookup.symm.trans hseen
      exact ⟨owed, by rw [hu]; rfl, he ▸ hrest⟩

/-- What `check_error` reports to an open file is what it has not heard of. -/
theorem checkError_self (hc : file ∉ w.state.closed) {owed : List Errno} (hu : w.owed = some owed) :
    (checkError file w.state).1 = report owed ∧
      (checkError file w.state).2.cursors.lookup file = some w.state.errorState.1 := by
  unfold checkError
  cases hcur : w.state.cursors.lookup file with
  | none => cases (h.known hc hcur).symm.trans hu
  | some seen =>
    obtain ⟨owed', hu', hlen, hlast⟩ := h.owed hc seen hcur
    cases hu.symm.trans hu'
    dsimp only
    by_cases hne : w.state.errorState.1 = seen
    · obtain rfl : owed = [] := eq_nil_of_length_eq_zero (by omega)
      rw [if_neg (not_not.2 hne), hne]
      exact ⟨rfl, hcur⟩
    · have hcons : owed ≠ [] := by
        rintro rfl
        exact hne (by simpa using hlen.symm)
      rw [if_pos hne, hlast hcons, report]
      cases hg : owed.getLast? with
      | none => exact absurd (getLast?_eq_none_iff.1 hg) hcons
      | some error => exact ⟨rfl, lookup_insert _⟩

omit h

theorem isOk_report (owed : List Errno) : (report owed).isOk = true ↔ owed = [] := by
  unfold report
  cases hg : owed.getLast? with
  | none => simpa [Except.isOk, Except.toBool] using getLast?_eq_none_iff.1 hg
  | some e =>
    have hne : owed ≠ [] := fun hnil => by simp [hnil] at hg
    simpa [Except.isOk, Except.toBool] using hne

/-- Either way nothing is owed after a report. -/
theorem told (owed : List Errno) :
    (if !(report owed).isOk then some [] else some owed) = some [] := by
  by_cases hnil : owed = []
  · rw [hnil]
    rfl
  · have hno : (report owed).isOk = false := by
      rw [← Bool.not_eq_true, isOk_report]
      exact hnil
    rw [hno]
    rfl

/-- What is done over the mappings of an open file, while no write-back fails. -/
theorem flushRange_self {results : List Result} {w : Watch} {owed : List Errno}
    (h : Accounts file n w) (hu : w.owed = some owed) (hc : file ∉ w.state.closed)
    (hok : ∀ r ∈ results, r = .ok ()) :
    Records [] w.state (flushRange file results w.state).2 ∧
      Accounts file n ⟨(flushRange file results w.state).2,
        if !(flushRange file results w.state).1.isOk then some [] else some owed⟩ := by
  induction results generalizing w owed with
  | nil =>
    rw [← hu]
    exact ⟨.rfl, h⟩
  | cons result rest ih =>
    have hrec := records_checkError file w.state
    obtain ⟨hres, hcur⟩ := h.checkError_self hc hu
    have hsettled := settled h.le hrec hcur
    have heq : flushRange file (result :: rest) w.state =
        match checkError file w.state with
        | (.error error, s) => (.error error, s)
        | (.ok (), s) => flushRange file rest s := by
      rw [hok result mem_cons_self]
      rfl
    rcases hr : checkError file w.state with ⟨error | _, s'⟩
    · rw [hr] at heq hrec hsettled
      rw [heq]
      exact ⟨hrec, hsettled⟩
    · rw [hr] at heq hrec hres hsettled
      obtain rfl : owed = [] := (isOk_report owed).1 (hres ▸ rfl)
      obtain ⟨hrest, hacc⟩ := ih hsettled rfl (hrec.closed ▸ hc) fun r hm => hok r (.tail _ hm)
      rw [heq]
      exact ⟨hrec.trans hrest, hacc⟩

section After

variable {op : Op} {r : Result × State} {new : List Errno}

theorem after_other (hf : op.file ≠ some file) (hr : Records new w.state r.2) :
    w.after file op r = ⟨r.2, w.owed.map (· ++ new)⟩ := by
  have ho : op.opens ≠ some file := by
    cases op with
    | register | fsync => exact hf
    | close | background | range => nofun
  rw [Watch.after, if_neg ho, if_neg fun h => hf h.1, hr.failed, drop_left]

theorem after_self {owed : Option (List Errno)} (hf : op.file = some file)
    (ho : (if op.opens = some file then some (w.owed.getD []) else w.owed) = owed)
    (hr : Records [] w.state r.2) :
    w.after file op r = ⟨r.2, if !r.1.isOk then some [] else owed⟩ := by
  rw [Watch.after, hr.failed, drop_left, ho]
  simp [hf]

end After

theorem of_closed {s : State} {owed : Option (List Errno)} (hle : s.errorState.1 ≤ n)
    (hc : file ∈ s.closed) : Accounts file n ⟨s, owed⟩ :=
  ⟨hle, fun h => absurd hc h, fun h => absurd hc h⟩

theorem flushFile_ok {hydrated : Bool} (s : State) (hok : hydrated = true → result = .ok ()) :
    flushFile file hydrated result s = checkError file (Errors.registerFile file s) := by
  cases hydrated with
  | false => rfl
  | true =>
    rw [hok rfl]
    rfl

/-- An fsync that does not fail itself reports what is owed. -/
theorem flushFile_self {hydrated : Bool} (h : Accounts file n w) (hc : file ∉ w.state.closed)
    (hok : hydrated = true → result = .ok ()) :
    (flushFile file hydrated result w.state).1 = report (w.owed.getD []) ∧
      Records [] w.state (flushFile file hydrated result w.state).2 ∧
      Accounts file n ⟨(flushFile file hydrated result w.state).2, some []⟩ := by
  have hreg := h.registerFile hc
  have hrec := records_registerFile file w.state
  obtain ⟨hres, hcur⟩ := hreg.checkError_self (hrec.closed ▸ hc) rfl
  have hcheck := records_checkError file (Errors.registerFile file w.state)
  rw [flushFile_ok _ hok]
  exact ⟨hres, hrec.trans hcheck, settled hreg.le hcheck hcur⟩

/-- An operation made through the file. -/
theorem step_self {op : Op} (h : Accounts file n w) (hs : op.Spares file)
    (hf : op.file = some file) (hc : file ∉ w.state.closed) : Accounts file n (w.step file op) := by
  have hstep : w.state.step op = _ := if_neg (by
    rintro ⟨f, hclosed, he⟩
    cases hf.symm.trans he
    exact hc hclosed)
  rw [Watch.step, hstep]
  cases op with
  | register other =>
    cases hf
    have hafter : w.after file (.register file) (.ok (), Errors.registerFile file w.state) = _ :=
      after_self rfl (if_pos rfl) (records_registerFile file w.state)
    exact hafter ▸ h.registerFile hc
  | close other =>
    cases hf
    exact of_closed h.le (.head _)
  | background result => cases hf
  | range source results =>
    cases hf
    have ho : (if Op.opens (.range file results) = some file then some (w.owed.getD [])
        else w.owed) = w.owed := if_neg (Option.some_ne_none file).symm
    dsimp only
    cases hcur : w.state.cursors.lookup file with
    | none =>
      rw [if_neg (by simp), after_self rfl ho .rfl]
      exact h
    | some seen =>
      obtain ⟨owed, hu, -⟩ := h.owed hc seen hcur
      obtain ⟨hrec, hacc⟩ := h.flushRange_self hu hc (hs rfl)
      rw [if_pos Option.isSome_some, after_self rfl ho hrec, hu]
      exact hacc
  | fsync other hydrated result =>
    cases hf
    obtain ⟨hres, hrec, hacc⟩ := h.flushFile_self hc (hs rfl)
    rw [after_self rfl (if_pos rfl) hrec, hres, told]
    exact hacc

/-- What an operation made without the file puts on record; the file's cursor stays. -/
theorem records_step {op : Op} (hf : op.file ≠ some file) (hop : ∀ other, op ≠ .close other)
    (s : State) : ∃ new, new.length ≤ 1 ∧ Records new s (s.step op).2 ∧
      (file ∉ s.closed → (s.step op).2.cursors.lookup file = s.cursors.lookup file) := by
  unfold State.step
  split_ifs
  · exact ⟨[], Nat.zero_le 1, .rfl, fun _ => rfl⟩
  cases op with
  | register other =>
    have ho : other ≠ file := fun ho => hf (congrArg some ho)
    exact ⟨[], Nat.zero_le 1, records_registerFile other s,
      fun hc => (lookup_registerFile _ hc).trans (if_neg ho)⟩
  | close other => exact absurd rfl (hop other)
  | background result =>
    cases result with
    | error error => exact ⟨[error], Nat.le_refl 1, records_error s error, fun _ => rfl⟩
    | ok => exact ⟨[], Nat.zero_le 1, .rfl, fun _ => rfl⟩
  | range source results =>
    dsimp only
    split_ifs
    · obtain ⟨hkeep, new, hnew, hrec⟩ := flushRange_other (fun ho => hf (congrArg some ho)) results s
      exact ⟨new, hnew, hrec, fun _ => hkeep⟩
    · exact ⟨[], Nat.zero_le 1, .rfl, fun _ => rfl⟩
  | fsync other hydrated result =>
    have ho : other ≠ file := fun ho => hf (congrArg some ho)
    have hreg := records_registerFile other s
    have hlookup : file ∉ s.closed → (Errors.registerFile other s).cursors.lookup file = _ :=
      fun hc => (lookup_registerFile _ hc).trans (if_neg ho)
    by_cases hok : hydrated = true → result = .ok ()
    · dsimp only
      rw [flushFile_ok s hok]
      exact ⟨[], Nat.zero_le 1, hreg.trans (records_checkError other _),
        fun hc => (lookup_checkError ho).trans (hlookup hc)⟩
    · obtain ⟨rfl, hresult⟩ := Classical.not_imp.1 hok
      cases result with
      | ok => exact absurd rfl hresult
      | error error =>
        exact ⟨[error], Nat.le_refl 1, hreg.trans (records_error _ error), hlookup⟩

/-- An operation made without the file: what fails in it is owed. -/
theorem step_other {op : Op} (h : Accounts file n w) (hn : n + 1 < 2 ^ 64)
    (hf : op.file ≠ some file) : Accounts file (n + 1) (w.step file op) := by
  by_cases hop : ∃ other, op = .close other
  · obtain ⟨other, rfl⟩ := hop
    have hafter : ∀ s' : State, s'.failed = w.state.failed →
        w.after file (.close other) (.ok (), s') = ⟨s', w.owed⟩ := by
      intro s' he
      simp [Watch.after, he, Op.opens, Except.isOk, Except.toBool]
    unfold Watch.step State.step
    split_ifs
    · exact hafter w.state rfl ▸ h.mono (Nat.le_succ n)
    · refine hafter { w.state with closed := other :: w.state.closed } rfl ▸ ?_
      refine Accounts.mono ⟨h.le, fun hc => h.known ?_, fun hc => h.owed ?_⟩ (Nat.le_succ n)
      · exact fun hm => hc (.tail other hm)
      · exact fun hm => hc (.tail other hm)
  · obtain ⟨new, hnew, hrec, hk⟩ := records_step hf (fun other ho => hop ⟨other, ho⟩) w.state
    rw [Watch.step, after_other hf hrec]
    exact h.records hn hnew hrec hk

/-- One operation: at most one failure more. -/
theorem step {op : Op} (h : Accounts file n w) (hn : n + 1 < 2 ^ 64) (hs : op.Spares file) :
    Accounts file (n + 1) (w.step file op) := by
  by_cases hf : op.file = some file
  · by_cases hc : file ∈ w.state.closed
    · have hstep : w.state.step op = _ := if_pos ⟨file, hc, hf⟩
      rw [Watch.step, hstep]
      exact of_closed (h.le.trans (Nat.le_succ n)) hc
    · exact (h.step_self hs hf hc).mono (Nat.le_succ n)
  · exact h.step_other hn hf

theorem run {ops : List Op} (hs : ∀ op ∈ ops, op.Spares file) (hn : n + ops.length < 2 ^ 64)
    (h : Accounts file n w) : Accounts file (n + ops.length) (w.run file ops) := by
  induction ops generalizing w n with
  | nil => exact h
  | cons op ops ih =>
    rw [length_cons] at hn ⊢
    have hstep := h.step (by omega) (hs op (.head _))
    rw [← Nat.add_assoc, Nat.add_right_comm]
    exact ih (fun op' hm => hs op' (.tail op hm)) (by omega) hstep

end Accounts

end Aim.Fuse.Errors
