import Aim.Binder.AllocSound

/-!
# Binder — One-way spam reports

An allocation for a one-way transaction may report its sender as a suspect.  Here the allocator runs
beside a record of its one-way allocations, newest first: whether each left the one-way space low,
and whether it was reported.  The flag of the allocator then says whether a report was made since
the last allocation that left the space at a tenth of the mapping or more (`Watch.run_kept`).

* `lowAsyncSpace_fst`, `lowAsyncSpace_flag`: the verdict and the flag of one call.
* `oneway_spam_reported`: over every run, the report is made exactly when the space is low, the
  sender holds more than fifty buffers or more than a quarter of the mapping, the new buffer
  included, and no report is on record — provided that the new buffer is not the one that takes the
  sender over the quarter.
* `oneway_spam_crossing_unreported`: the bytes are summed before the new buffer is inserted, so a
  buffer that takes its sender over the quarter is not reported.  The count does include it.
-/

namespace Aim.Binder

variable {a : Allocator} {d o e : ℕ} {pid : ℤ} {al : Allocation}

namespace Allocator

/-! ### What a sender holds -/

/-- Whether a buffer is a one-way buffer of the sender. -/
def sentBy (pid : ℤ) (b : Buffer) : Bool := b.isAsync && b.senderPid = pid

/-- How many one-way buffers a sender holds. -/
def senderCount (a : Allocator) (pid : ℤ) : ℕ :=
  a.buffers.total fun b => if sentBy pid b then 1 else 0

/-- How many bytes of one-way buffers a sender holds. -/
def senderBytes (a : Allocator) (pid : ℤ) : ℕ :=
  a.buffers.total fun b => if sentBy pid b then b.size else 0

/-- The one-way space is below a tenth of the mapping. -/
def lowSpace (a : Allocator) : Bool := a.freeAsyncSpace < a.size / 10

theorem sum_filter {V : Type} (p : V → Bool) (f : V → ℕ) (L : List V) :
    ((L.filter p).map f).sum = (L.map fun v => if p v then f v else 0).sum := by
  induction L with
  | nil => rfl
  | cons v L ih =>
    cases hv : p v with
    | false => simp [hv, ih]
    | true => simp [hv, ih]

theorem length_filter_sum {V : Type} (p : V → Bool) (L : List V) :
    (L.filter p).length = (L.map fun v => if p v then 1 else 0).sum := by
  rw [← sum_filter p fun _ => 1]
  simp

/-! ### The verdict and the flag of one allocation -/

/-- The verdict: the count includes the buffer to come, the bytes do not. -/
theorem lowAsyncSpace_fst (a : Allocator) (pid : ℤ) :
    (a.lowAsyncSpace pid).1 = true ↔
      a.lowSpace ∧ (50 < a.senderCount pid + 1 ∨ a.size / 4 < a.senderBytes pid) ∧
        a.onewaySpamDetected = false := by
  have hc := length_filter_sum (sentBy pid) a.buffers.values
  have hb := sum_filter (sentBy pid) Buffer.size a.buffers.values
  unfold lowAsyncSpace
  split
  · next h => simp [lowSpace, Nat.not_lt.2 h]
  next h =>
    have hlow : a.lowSpace = true := decide_eq_true (Nat.lt_of_not_le h)
    rw [senderCount, senderBytes, AList.total, AList.total, ← hc, ← hb, hlow]
    change (if (50 < (a.buffers.values.filter (sentBy pid)).length + 1 ∨ a.size / 4 <
      ((a.buffers.values.filter (sentBy pid)).map Buffer.size).sum) ∧ ¬ a.onewaySpamDetected
      then (true, { a with onewaySpamDetected := true }) else (false, a)).1 = true ↔ _
    split
    · next hspam => simp_all
    · next hspam => simpa [not_and_or] using hspam

/-- The flag after it: down when the space is not low, up from a report on. -/
theorem lowAsyncSpace_flag (a : Allocator) (pid : ℤ) :
    (a.lowAsyncSpace pid).2.onewaySpamDetected =
      (a.lowSpace && ((a.lowAsyncSpace pid).1 || a.onewaySpamDetected)) := by
  unfold lowAsyncSpace
  split
  · next h => simp [lowSpace, Nat.not_lt.2 h]
  next h =>
    have hlow : a.lowSpace = true := decide_eq_true (Nat.lt_of_not_le h)
    dsimp only
    rw [hlow]
    split <;> rfl

/-- The allocator whose space `lowAsyncSpace` looks at: the block is cut, the buffer not in yet. -/
def reserved (a : Allocator) (offset len size : ℕ) : Allocator :=
  { a with
    freeBlocks := carve a.freeBlocks offset len size
    freeAsyncSpace := a.freeAsyncSpace - size }

/-- Everything a one-way allocation that succeeds has done. -/
theorem allocate_async_ok (h : (a.allocate d o e true pid).1 = .ok al) :
    ∃ size len, requestSize d o e = some size ∧ (al.offset, len) ∈ a.freeBlocks ∧ size ≤ len ∧
      al.onewaySpamSuspect = ((a.reserved al.offset len size).lowAsyncSpace pid).1 ∧
      (a.allocate d o e true pid).2 =
        { ((a.reserved al.offset len size).lowAsyncSpace pid).2 with
          buffers := a.buffers.insert al.offset
            { size := size, dataSize := d, offsetsSize := o, isAsync := true,
              senderPid := pid } } := by
  unfold allocate at h ⊢
  cases hr : requestSize d o e with
  | none => rw [hr] at h; cases h
  | some size =>
    rw [hr] at h
    dsimp only at h ⊢
    split at h
    · cases h
    next hroom =>
      rw [if_neg hroom]
      cases hb : bestFit size a.freeBlocks with
      | none => rw [hb] at h; cases h
      | some block =>
        obtain ⟨offset, len⟩ := block
        rw [hb] at h
        obtain ⟨suspect, spam, hlow⟩ :=
          lowAsyncSpace_eq (a.reserved offset len size) pid
        obtain ⟨hm, hs⟩ := bestFit_eq_some hb
        rw [reserved] at hlow
        simp only [if_true, hlow] at h ⊢
        cases h
        exact ⟨size, len, rfl, hm, hs, by rw [reserved, hlow], by rw [reserved, hlow]⟩

end Allocator

/-! ### Runs with their record -/

/-- What is on record of a one-way allocation. -/
structure SpamRecord where
  /-- It left the one-way space below a tenth of the mapping. -/
  low : Bool
  /-- It was reported. -/
  reported : Bool

/-- An allocator with its one-way allocations, newest first. -/
structure Watch where
  alloc : Allocator
  past : List SpamRecord

namespace Watch
open Allocator

def call (w : Watch) : Call → Watch
  | .allocate d o e isAsync pid =>
    let (result, alloc) := w.alloc.allocate d o e isAsync pid
    match result, isAsync with
    | .ok al, true => { alloc, past := ⟨alloc.lowSpace, al.onewaySpamSuspect⟩ :: w.past }
    | _, _ => { w with alloc }
  | .free offset => { w with alloc := (w.alloc.free offset).2 }

/-- The calls made one after the other on a fresh allocator. -/
def run (start size : ℕ) (calls : List Call) : Watch :=
  calls.foldl call { alloc := .new start size, past := [] }

/-- A report was made since the last one-way allocation that left a tenth of the mapping. -/
def reportedSince (w : Watch) : Bool := (w.past.takeWhile SpamRecord.low).any SpamRecord.reported

/-- The invariant: the allocator is sound and its flag says what the record says. -/
structure Kept (w : Watch) (n : ℕ) : Prop where
  sound : Allocator.Sound w.alloc n
  flag : w.alloc.onewaySpamDetected = w.reportedSince

theorem allocate_sync_flag (a : Allocator) (d o e : ℕ) (pid : ℤ) :
    (a.allocate d o e false pid).2.onewaySpamDetected = a.onewaySpamDetected := by
  unfold Allocator.allocate
  cases requestSize d o e with
  | none => rfl
  | some size =>
    dsimp only
    cases bestFit size a.freeBlocks <;> rfl

theorem allocate_error {isAsync : Bool} {err : Errno}
    (h : (a.allocate d o e isAsync pid).1 = .error err) : (a.allocate d o e isAsync pid).2 = a := by
  rcases allocate_cases a d o e isAsync pid with ⟨-, he⟩ | ⟨size, -, ⟨-, he⟩ |
    ⟨offset, len, suspect, spam, -, -, -, he⟩⟩
  · rw [he]
  · rw [he]
  · rw [he] at h; cases h

theorem free_flag (a : Allocator) (offset : ℕ) :
    (a.free offset).2.onewaySpamDetected = a.onewaySpamDetected := by
  rcases free_cases a offset with ⟨-, he⟩ | ⟨b, -, he⟩ <;> rw [he]

/-- A one-way allocation sets the flag as the record then says. -/
theorem allocate_async_flag (h : (a.allocate d o e true pid).1 = .ok al) :
    (a.allocate d o e true pid).2.onewaySpamDetected =
      ((a.allocate d o e true pid).2.lowSpace &&
        (al.onewaySpamSuspect || a.onewaySpamDetected)) := by
  obtain ⟨size, len, -, -, -, hsus, he⟩ := allocate_async_ok h
  obtain ⟨suspect, spam, hlow⟩ := lowAsyncSpace_eq (a.reserved al.offset len size) pid
  have hflag := lowAsyncSpace_flag (a.reserved al.offset len size) pid
  rw [he, hsus]
  rw [hlow] at hflag ⊢
  exact hflag

theorem Kept.call {w : Watch} {n : ℕ} (h : w.Kept n) (c : Call) : (w.call c).Kept n := by
  cases c with
  | free offset => exact ⟨h.sound.free offset, (free_flag w.alloc offset).trans h.flag⟩
  | allocate d o e isAsync pid =>
    have hs := h.sound.allocate d o e isAsync pid
    cases isAsync with
    | false =>
      have hcall : w.call (.allocate d o e false pid) =
          { w with alloc := (w.alloc.allocate d o e false pid).2 } := by
        simp [Watch.call]
      rw [hcall]
      exact ⟨hs, (allocate_sync_flag w.alloc d o e pid).trans h.flag⟩
    | true =>
      cases hr : (w.alloc.allocate d o e true pid).1 with
      | error err =>
        have hcall : w.call (.allocate d o e true pid) = w := by
          simp [Watch.call, hr, allocate_error hr]
        rw [hcall]
        exact h
      | ok al =>
        have hcall : w.call (.allocate d o e true pid) =
            { alloc := (w.alloc.allocate d o e true pid).2
              past := ⟨(w.alloc.allocate d o e true pid).2.lowSpace,
                al.onewaySpamSuspect⟩ :: w.past } := by
          simp [Watch.call, hr]
        rw [hcall]
        refine ⟨hs, (allocate_async_flag hr).trans ?_⟩
        rw [h.flag, reportedSince, reportedSince]
        cases (w.alloc.allocate d o e true pid).2.lowSpace with
        | false => rfl
        | true => simp

/-- **The flag.**  Over every run the allocator is sound, and its flag is up exactly when a report
was made since the last one-way allocation that left a tenth of the mapping. -/
theorem run_kept (start size : ℕ) (calls : List Call) :
    (run start size calls).Kept (min size MAX_MAPPING) := by
  have hstep : ∀ (calls : List Call) (w : Watch), w.Kept (min size MAX_MAPPING) →
      (calls.foldl call w).Kept (min size MAX_MAPPING) := by
    intro calls
    induction calls with
    | nil => exact fun _ h => h
    | cons c calls ih => exact fun w h => ih _ (h.call c)
  exact hstep calls _ ⟨Sound.new start size, rfl⟩

end Watch

open Allocator Watch

/-- What the sender holds once the buffer is in. -/
theorem sender_allocate {n : ℕ}
    (hs : Allocator.Sound a n) (h : (a.allocate d o e true pid).1 = .ok al) :
    (a.allocate d o e true pid).2.senderCount pid = a.senderCount pid + 1 ∧
      ∃ size, requestSize d o e = some size ∧
        (a.allocate d o e true pid).2.senderBytes pid = a.senderBytes pid + size := by
  obtain ⟨size, len, hr, hm, hle, -, he⟩ := allocate_async_ok h
  have hsize := (dvd_requestSize hr).2
  have hnone := hs.lookup_free hm (by omega)
  rw [he]
  refine ⟨?_, size, hr, ?_⟩
  · rw [senderCount, AList.total_insert _ hnone]
    simp [sentBy, senderCount, Nat.add_comm]
  · rw [senderBytes, AList.total_insert _ hnone]
    simp [sentBy, senderBytes, Nat.add_comm]

/-- **One-way spam.**  Over every run, a one-way allocation is reported exactly when, with the new
buffer, the space is low, the sender holds more than fifty buffers or more than a quarter of the
mapping, and no report was made since the last one that left a tenth.  The condition leaves out the
buffers that take a sender of at most fifty over the quarter: those are not reported. -/
theorem oneway_spam_reported (start size : ℕ) (calls : List Call) (d o e : ℕ) (pid : ℤ)
    (al : Allocation) (h : ((run start size calls).alloc.allocate d o e true pid).1 = .ok al)
    (hquarter : ((run start size calls).alloc.allocate d o e true pid).2.size / 4 <
        ((run start size calls).alloc.allocate d o e true pid).2.senderBytes pid →
      50 < ((run start size calls).alloc.allocate d o e true pid).2.senderCount pid ∨
      (run start size calls).alloc.size / 4 < (run start size calls).alloc.senderBytes pid) :
    al.onewaySpamSuspect = true ↔
      ((run start size calls).alloc.allocate d o e true pid).2.lowSpace = true ∧
      (50 < ((run start size calls).alloc.allocate d o e true pid).2.senderCount pid ∨
        ((run start size calls).alloc.allocate d o e true pid).2.size / 4 <
          ((run start size calls).alloc.allocate d o e true pid).2.senderBytes pid) ∧
      (run start size calls).reportedSince = false := by
  have hk := run_kept start size calls
  generalize run start size calls = w at *
  obtain ⟨hcount, held, -, hbytes⟩ := sender_allocate hk.sound h
  obtain ⟨need, len, -, -, -, hsus, he⟩ := allocate_async_ok h
  obtain ⟨suspect, spam, hlow⟩ := lowAsyncSpace_eq (w.alloc.reserved al.offset len need) pid
  have hsize : (w.alloc.allocate d o e true pid).2.size = w.alloc.size := by
    rw [he, hlow]
    rfl
  have hspace : (w.alloc.allocate d o e true pid).2.lowSpace =
      (w.alloc.reserved al.offset len need).lowSpace := by
    rw [he, hlow]
    rfl
  have hverdict := lowAsyncSpace_fst (w.alloc.reserved al.offset len need) pid
  rw [hsus, hverdict, hspace, hcount, hbytes, hsize, ← hk.flag]
  rw [hcount, hbytes, hsize] at hquarter
  -- the verdict of the source reads the bytes held before
  have hheld : (w.alloc.reserved al.offset len need).senderBytes pid = w.alloc.senderBytes pid :=
    rfl
  have hmany : (w.alloc.reserved al.offset len need).senderCount pid = w.alloc.senderCount pid :=
    rfl
  have hwhole : (w.alloc.reserved al.offset len need).size = w.alloc.size := rfl
  have hdetected : (w.alloc.reserved al.offset len need).onewaySpamDetected =
      w.alloc.onewaySpamDetected := rfl
  refine and_congr Iff.rfl (and_congr ⟨?_, ?_⟩ Iff.rfl)
  · rintro (hc | hb)
    · exact .inl hc
    · exact .inr (by omega)
  · rintro (hc | hb)
    · exact .inl hc
    · exact hquarter hb

/-- A sender that holds more than a quarter already is reported at its next buffer. -/
theorem oneway_spam_reported_second :
    ((run 0 4096 [.allocate 1200 0 0 true 7]).alloc.allocate 600 0 0 true 7).1 =
      .ok ⟨1200, true⟩ ∧
    (true = true ↔
      ((run 0 4096 [.allocate 1200 0 0 true 7]).alloc.allocate 600 0 0 true 7).2.lowSpace = true ∧
      (50 < ((run 0 4096 [.allocate 1200 0 0 true 7]).alloc.allocate 600 0 0 true 7).2.senderCount
          7 ∨
        ((run 0 4096 [.allocate 1200 0 0 true 7]).alloc.allocate 600 0 0 true 7).2.size / 4 <
          ((run 0 4096 [.allocate 1200 0 0 true 7]).alloc.allocate 600 0 0 true 7).2.senderBytes
            7) ∧
      (run 0 4096 [.allocate 1200 0 0 true 7]).reportedSince = false) :=
  ⟨by decide, oneway_spam_reported 0 4096 [.allocate 1200 0 0 true 7] 600 0 0 7 ⟨1200, true⟩
    (by decide) fun _ => .inr (by decide)⟩

/-- **The crossing buffer is missed.**  In a mapping of 4096 bytes two senders hold 600 bytes each.
The next 600 bytes of the first leave 248 of the one-way space, and the sender with 1200 bytes, more
than a quarter; nothing was reported before, and this is not either. -/
theorem oneway_spam_crossing_unreported :
    let w := run 0 4096 [.allocate 600 0 0 true 7, .allocate 600 0 0 true 8]
    (w.alloc.allocate 600 0 0 true 7).1 = .ok ⟨1200, false⟩ ∧
      (w.alloc.allocate 600 0 0 true 7).2.lowSpace = true ∧
      (w.alloc.allocate 600 0 0 true 7).2.size / 4 <
        (w.alloc.allocate 600 0 0 true 7).2.senderBytes 7 ∧
      w.reportedSince = false := by
  decide

end Aim.Binder
