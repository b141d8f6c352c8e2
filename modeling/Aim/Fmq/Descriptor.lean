import Aim.Support.Memory
import Aim.Support.Program

/-!
# Fmq — Queues a peer described

`Queue::from_descriptor` of `hal/fmq` maps a queue as a peer describes it, and the peer may write to
the shared memory at any time: it has a turn before every access.  The counters, the flag and the
ring may overlap, so a store of the queue's own may change any of them.  Here the accesses themselves
are the subject: an access outside the mapping or a copy outside the ring is a fault, and so are a
remainder by zero and a sum that does not fit 64 bits.

* `fromDescriptor_ring`: the ring of an accepted descriptor lies in the mapping.
* `Mapped.Fits`: what a call must find, in the descriptor's offsets and in the shared words.
* `run_contained`: a run of `read`, `write`, `wait` and `wake` has no fault if and only if each call
  finds that.
* `hostile_queue_escapes`: descriptors that are accepted without, and the faults.
-/

namespace Aim.Fmq

/-- One grantor: a range of a file.  The offset is 32 bits wide, the extent 64, both signed. -/
structure Grantor where
  fdIndex : ℤ
  offset : ℤ
  extent : ℤ
  offset_lt : offset < 2 ^ 31 := by decide
  extent_lt : extent < 2 ^ 63 := by decide

/-- The parts of an `MQDescriptor` that are read. -/
structure Descriptor where
  grantors : List Grantor
  /-- How many files its handle has. -/
  fds : ℕ
  quantum : ℤ

/-- Why a descriptor is refused. -/
inductive Refusal where
  | unsupportedGrantors
  | noFd
  | cloneFailed
  | mapFailed
  deriving DecidableEq

/-- A mapped queue: the offsets of the counters, the ring and the EventFlag word. -/
structure Mapped where
  length : ℕ
  read : ℕ
  write : ℕ
  ring : ℕ
  flag : Option ℕ
  /-- Ring size in bytes. -/
  size : ℕ
  quantum : ℕ
  deriving DecidableEq

/-- Where a grantor ends. -/
def Grantor.last (g : Grantor) : ℕ := g.offset.toNat + g.extent.toNat

/-- The sum of an offset and an extent that are not negative fits 64 bits. -/
theorem Grantor.last_lt (g : Grantor) : g.last < 2 ^ 64 := by
  have h₁ := g.offset_lt
  have h₂ := g.extent_lt
  unfold Grantor.last
  omega

/-- Map the queue a peer described; `clone` and `map` say whether the host does its part. -/
def fromDescriptor (clone : Bool) (map : ℕ → Bool) (desc : Descriptor) : Except Refusal Mapped :=
  match desc.grantors with
  | read :: write :: ring :: rest =>
    if desc.grantors.any fun g => g.fdIndex ≠ 0 || g.offset < 0 || g.extent < 0 then
      .error .unsupportedGrantors
    else if desc.fds = 0 then .error .noFd
    else if !clone then .error .cloneFailed
    else
      let last := (desc.grantors.map Grantor.last).max?.getD 0
      if !map last then .error .mapFailed
      else .ok
        { length := last
          read := read.offset.toNat
          write := write.offset.toNat
          ring := ring.offset.toNat
          flag := rest.head?.map fun g => g.offset.toNat
          size := ring.extent.toNat
          quantum := (desc.quantum % 2 ^ 64).toNat }
  | _ => .error .unsupportedGrantors

/-! ### Accesses -/

/-- What goes wrong with an access. -/
inductive Fault where
  /-- An access outside the mapping. -/
  | outside (offset len : ℕ)
  /-- A copy outside the ring. -/
  | outsideRing (offset len : ℕ)
  /-- A remainder by an empty ring's size. -/
  | remainderByZero
  /-- A sum that does not fit. -/
  | overflow
  deriving DecidableEq

/-- How a futex wait ends. -/
inductive FutexWait where
  | woken
  /-- `EAGAIN` or `EINTR`. -/
  | retry
  | failed
  deriving DecidableEq

/-- The mapped file, what the peer stores before each of the next accesses, and how the next waits
end. -/
structure Shared where
  memory : Memory
  turns : List (List (ℕ × Bytes))
  waits : List FutexWait

/-- The peer's turn. -/
def Shared.turn (p : Shared) : Shared :=
  { p with
    memory := (p.turns.headD []).foldl (fun m s => m.write s.1 s.2) p.memory
    turns := p.turns.tail }

abbrev Access := Prog Fault Empty Shared

/-- The end of the next wait. -/
def nextWait : Access FutexWait :=
  Prog.update fun p => (p.waits.headD .failed, { p with waits := p.waits.tail })

/-- Bytes of the queue's own. -/
def put (offset : ℕ) (data : Bytes) : Access Unit :=
  Prog.modify fun p => { p with memory := p.memory.write offset data }

namespace Mapped

open Prog

variable (q : Mapped)

/-- An access to `len` bytes at `offset`, after the peer's turn. -/
def touch (offset len : ℕ) : Access Unit :=
  if offset + len ≤ q.length then Prog.modify Shared.turn else Prog.fault (.outside offset len)

/-- A load of `len` bytes. -/
def load (offset len : ℕ) : Access Bytes := do
  q.touch offset len
  let p ← Prog.get
  return p.memory.read offset len

/-- A load of a counter. -/
def loadCounter (offset : ℕ) : Access ℕ := do
  let bytes ← q.load offset 8
  return bytes.toNat

/-- The `fetch_or` and `fetch_and` of the flag word, which return the old one. -/
def fetchFlag (offset : ℕ) (f : UInt32 → UInt32) : Access UInt32 := do
  let bytes ← q.load offset 4
  let old := UInt32.ofNat bytes.toNat
  put offset (Bytes.ofNat 4 (f old).toNat)
  return old

def availableToRead : Access ℕ := do
  let w ← q.loadCounter q.write
  let r ← q.loadCounter q.read
  return (w + (2 ^ 64 - r)) % 2 ^ 64

def availableToWrite : Access ℕ := do
  let available ← q.availableToRead
  return q.size - available

/-- One span of a copy, at `offset` in the ring: of the data that goes there, if any goes. -/
def span (offset len : ℕ) (toRing : Option Bytes) : Access Bytes := do
  if offset + len ≤ q.size then do
    let old ← q.load (q.ring + offset) len
    match toRing with
    | some data => do
        put (q.ring + offset) data
        return data
    | none => return old
  else Prog.fault (.outsideRing offset len)

/-- Copy between the ring at byte position `pos` and a buffer of `len` bytes, wrapping. -/
def copy (pos len : ℕ) (toRing : Option Bytes) : Access Bytes := do
  if q.size = 0 then Prog.fault .remainderByZero
  else do
    let offset := pos % q.size
    let first := min len (q.size - offset)
    let a ← q.span offset first (toRing.map (·.take first))
    let b ← q.span 0 (len - first) (toRing.map (·.drop first))
    return a ++ b

/-- The store of a counter that has moved on by `len`. -/
def storeCounter (offset value len : ℕ) : Access Unit := do
  if value + len < 2 ^ 64 then do
    q.touch offset 8
    put offset (Bytes.ofNat 8 (value + len))
  else Prog.fault .overflow

/-- Read exactly `len` bytes, or nothing. -/
def readBytes (len : ℕ) : Access (Option Bytes) := do
  if len = 0 then return some []
  else do
    let available ← q.availableToRead
    if available < len then return none
    else do
      let r ← q.loadCounter q.read
      let data ← q.copy r len none
      q.storeCounter q.read r len
      return some data

/-- Write exactly these bytes, or nothing. -/
def writeBytes (data : Bytes) : Access Bool := do
  if data.length = 0 then return true
  else do
    let available ← q.availableToWrite
    if available < data.length then return false
    else do
      let w ← q.loadCounter q.write
      let _ ← q.copy w data.length (some data)
      q.storeCounter q.write w data.length
      return true

/-- `EventFlag::wake`: set the bits; the futex call, when one was clear, is on the same word. -/
def wake (bits : UInt32) : Access Unit :=
  match q.flag with
  | none => Pure.pure ()
  | some flag => do
    let old ← q.fetchFlag flag (· ||| bits)
    if ~~~old &&& bits ≠ 0 then q.touch flag 4 else return ()

/-- `EventFlag::wait`: consume the bits, or sleep until one is set, for at most that many rounds;
`none` if it would go on. -/
def wait (bits : UInt32) : (rounds : ℕ) → Access (Option Bool)
  | 0 => Pure.pure none
  | rounds + 1 =>
    match q.flag with
    | none => Pure.pure (some false)
    | some flag => do
      let old ← q.fetchFlag flag (· &&& ~~~bits)
      if old &&& bits ≠ 0 then return some true
      else do
        q.touch flag 4
        let ended ← nextWait
        if ended = .failed then return some false else wait bits rounds

end Mapped

/-- A call on a queue. -/
inductive QueueCall where
  | read (len : ℕ)
  | write (data : Bytes)
  | wait (bits : UInt32) (rounds : ℕ)
  | wake (bits : UInt32)

/-- The calls of a run; what they return is dropped. -/
def Mapped.call (q : Mapped) : QueueCall → Access Unit
  | .read len => do
      let _ ← q.readBytes len
  | .write data => do
      let _ ← q.writeBytes data
  | .wait bits rounds => do
      let _ ← q.wait bits rounds
  | .wake bits => q.wake bits

/-- The calls one after the other. -/
def Mapped.calls (q : Mapped) (cs : List QueueCall) : Access Unit := cs.forM q.call

/-! ### What a call must find -/

/-- The word at an offset once the peer has had `k` more turns. -/
def Shared.word (p : Shared) (k offset : ℕ) : ℕ :=
  ((Shared.turn^[k] p).memory.read offset 8).toNat

namespace Mapped

variable (q : Mapped)

/-- Both counters lie in the mapping. -/
def CountersIn : Prop := q.read + 8 ≤ q.length ∧ q.write + 8 ≤ q.length

/-- The flag word, if there is one, lies in the mapping. -/
def FlagIn : Prop := ∀ flag, q.flag = some flag → flag + 4 ≤ q.length

/-- How much there is to read by the counters, each as it is when it is loaded. -/
def stored (p : Shared) : ℕ := (p.word 1 q.write + (2 ^ 64 - p.word 2 q.read)) % 2 ^ 64

/-- What a call must find.  A read or a write that is not empty needs its counters in the mapping;
and when there is as much to read, or room for as much, the counter it moves on must have room for
that many bytes more, and what a read takes past the end of the ring must fit the ring. -/
def Fits : QueueCall → Shared → Prop
  | .read len, p => len ≠ 0 → q.CountersIn ∧ (len ≤ q.stored p →
      0 < q.size ∧ len + p.word 3 q.read % q.size ≤ 2 * q.size ∧ p.word 3 q.read + len < 2 ^ 64)
  | .write data, p => data.length ≠ 0 → q.CountersIn ∧
      (data.length ≤ q.size - q.stored p → p.word 3 q.write + data.length < 2 ^ 64)
  | .wait _ rounds, _ => rounds ≠ 0 → q.FlagIn
  | .wake _, _ => q.FlagIn

/-- Every call of the run finds it, in the state in which the call before leaves the memory. -/
def AllFit : List QueueCall → Shared → Prop
  | [], _ => True
  | c :: cs, p => q.Fits c p ∧ ∀ p', q.call c p = .ok () p' → AllFit cs p'

end Mapped

/-! ### Programs without a fault -/

/-- The program has no fault from this state. -/
def Safe {α : Type} (x : Access α) (p : Shared) : Prop := ∃ a p', x p = .ok a p'

section Safe

variable {α β : Type} {x : Access α} {f : α → Access β} {p p' : Shared} {a : α}

theorem safe_pure (a : α) (p : Shared) : Safe (Pure.pure a : Access α) p := ⟨a, p, rfl⟩

theorem not_safe_fault (e : Fault) (p : Shared) : ¬ Safe (Prog.fault e : Access α) p := by
  rintro ⟨a, p', h⟩
  cases h

theorem safe_bind : Safe (x >>= f) p ↔ ∃ a p', x p = .ok a p' ∧ Safe (f a) p' := by
  constructor
  · rintro ⟨b, p'', h⟩
    obtain ⟨a, p', hx, hf⟩ := Prog.bind_eq_ok h
    exact ⟨a, p', hx, b, p'', hf⟩
  · rintro ⟨a, p', hx, b, p'', hf⟩
    exact ⟨b, p'', (Prog.run_ok hx).trans hf⟩

theorem Safe.of_bind (h : Safe (x >>= f) p) : Safe x p := by
  obtain ⟨a, p', hx, -⟩ := safe_bind.1 h
  exact ⟨a, p', hx⟩

/-- A step whose end is known. -/
theorem safe_step (hx : x p = .ok a p') : Safe (x >>= f) p ↔ Safe (f a) p' := by
  refine safe_bind.trans ⟨?_, fun h => ⟨a, p', hx, h⟩⟩
  rintro ⟨b, p'', hb, h⟩
  cases hx.symm.trans hb
  exact h

/-- A last step that cannot fail. -/
theorem safe_map {g : α → β} : Safe (x >>= fun a => Pure.pure (g a)) p ↔ Safe x p :=
  ⟨Safe.of_bind, fun ⟨_, p', hx⟩ => (safe_step hx).2 (safe_pure _ p')⟩

end Safe

namespace Mapped

variable {q : Mapped} {offset len : ℕ} {p : Shared}

theorem touch_ok (h : offset + len ≤ q.length) : q.touch offset len p = .ok () p.turn := by
  rw [touch, if_pos h]
  rfl

theorem le_of_safe_touch (h : Safe (q.touch offset len) p) : offset + len ≤ q.length := by
  by_contra hle
  rw [touch, if_neg hle] at h
  exact not_safe_fault _ p h

theorem load_ok (h : offset + len ≤ q.length) :
    q.load offset len p = .ok (p.turn.memory.read offset len) p.turn :=
  Prog.run_ok (touch_ok h)

theorem loadCounter_ok (h : offset + 8 ≤ q.length) :
    q.loadCounter offset p = .ok (p.word 1 offset) p.turn :=
  Prog.run_ok (load_ok h)

theorem le_of_safe_loadCounter (h : Safe (q.loadCounter offset) p) : offset + 8 ≤ q.length :=
  le_of_safe_touch h.of_bind.of_bind

theorem availableToRead_ok (h : q.CountersIn) :
    q.availableToRead p = .ok (q.stored p) p.turn.turn :=
  (Prog.run_ok (loadCounter_ok h.2)).trans (Prog.run_ok (loadCounter_ok h.1))

theorem availableToWrite_ok (h : q.CountersIn) :
    q.availableToWrite p = .ok (q.size - q.stored p) p.turn.turn :=
  Prog.run_ok (availableToRead_ok h)

/-- The two loads need both counters. -/
theorem countersIn_of_safe (h : Safe q.availableToRead p) : q.CountersIn := by
  have hw := le_of_safe_loadCounter h.of_bind
  exact ⟨le_of_safe_loadCounter ((safe_step (loadCounter_ok hw)).1 h).of_bind, hw⟩

theorem safe_span (hring : q.ring + q.size ≤ q.length) (toRing : Option Bytes) :
    Safe (q.span offset len toRing) p ↔ offset + len ≤ q.size := by
  rw [span]
  split_ifs with h
  · rw [safe_step (load_ok (by omega))]
    cases toRing with
    | none => exact iff_of_true (safe_pure _ _) h
    | some data => exact iff_of_true ⟨data, _, rfl⟩ h
  · exact iff_of_false (not_safe_fault _ p) h

/-- A copy stays in the ring if what goes past its end fits. -/
theorem safe_copy (hring : q.ring + q.size ≤ q.length) (pos : ℕ) (toRing : Option Bytes) :
    Safe (q.copy pos len toRing) p ↔ 0 < q.size ∧ len + pos % q.size ≤ 2 * q.size := by
  rw [copy]
  split_ifs with hs
  · exact iff_of_false (not_safe_fault _ p) fun h => absurd h.1 (by omega)
  have hlt := Nat.mod_lt pos (Nat.pos_of_ne_zero hs)
  have hfirst : pos % q.size + min len (q.size - pos % q.size) ≤ q.size := by omega
  obtain ⟨a, p', ha⟩ := (safe_span (p := p) hring
    (toRing.map (·.take (min len (q.size - pos % q.size))))).2 hfirst
  rw [safe_step ha, safe_map, safe_span hring]
  omega

theorem safe_storeCounter (h : offset + 8 ≤ q.length) {value : ℕ} :
    Safe (q.storeCounter offset value len) p ↔ value + len < 2 ^ 64 := by
  rw [storeCounter]
  split_ifs with hv
  · exact iff_of_true ((safe_step (touch_ok h)).2 ⟨(), _, rfl⟩) hv
  · exact iff_of_false (not_safe_fault _ p) hv

theorem safe_readBytes (hring : q.ring + q.size ≤ q.length) :
    Safe (q.readBytes len) p ↔ q.Fits (.read len) p := by
  rw [readBytes, Fits]
  split_ifs with hlen
  · exact iff_of_true (safe_pure _ p) fun h => absurd hlen h
  rw [imp_iff_right hlen]
  by_cases hin : q.CountersIn
  · rw [safe_step (availableToRead_ok hin), and_iff_right hin]
    split_ifs with hle
    · exact iff_of_true (safe_pure _ _) fun h => absurd h (by omega)
    rw [imp_iff_right (Nat.le_of_not_lt hle), safe_step (loadCounter_ok hin.1), ← and_assoc,
      ← safe_copy hring, safe_bind]
    constructor
    · rintro ⟨data, p', hc, hs⟩
      exact ⟨⟨data, p', hc⟩, (safe_storeCounter hin.1).1 hs.of_bind⟩
    · rintro ⟨⟨data, p', hc⟩, hs⟩
      exact ⟨data, p', hc, safe_map.2 ((safe_storeCounter hin.1).2 hs)⟩
  · exact iff_of_false (fun h => hin (countersIn_of_safe h.of_bind)) fun h => hin h.1

theorem safe_writeBytes (hring : q.ring + q.size ≤ q.length) {data : Bytes} :
    Safe (q.writeBytes data) p ↔ q.Fits (.write data) p := by
  rw [writeBytes, Fits]
  split_ifs with hlen
  · exact iff_of_true (safe_pure _ p) fun h => absurd hlen h
  rw [imp_iff_right hlen]
  by_cases hin : q.CountersIn
  · rw [safe_step (availableToWrite_ok hin), and_iff_right hin]
    split_ifs with hle
    · exact iff_of_true (safe_pure _ _) fun h => absurd h (by omega)
    rw [imp_iff_right (Nat.le_of_not_lt hle), safe_step (loadCounter_ok hin.2)]
    -- a write is never longer than the ring
    have hpos : 0 < q.size := by omega
    have hshort : data.length + p.turn.turn.word 1 q.write % q.size ≤ 2 * q.size := by
      have := Nat.mod_lt (p.turn.turn.word 1 q.write) hpos
      omega
    obtain ⟨copied, p', hc⟩ := (safe_copy (p := p.turn.turn.turn) hring
      (p.turn.turn.word 1 q.write) (some data)).2 ⟨hpos, hshort⟩
    rw [safe_step hc, safe_map, safe_storeCounter hin.2]
    rfl
  · exact iff_of_false (fun h => hin (countersIn_of_safe h.of_bind.of_bind)) fun h => hin h.1

theorem fetchFlag_ok {flag : ℕ} (h : flag + 4 ≤ q.length) (f : UInt32 → UInt32) :
    Safe (q.fetchFlag flag f) p :=
  (safe_step (load_ok h)).2 ⟨_, _, rfl⟩

theorem safe_wake (bits : UInt32) : Safe (q.wake bits) p ↔ q.FlagIn := by
  rw [wake, FlagIn]
  cases hf : q.flag with
  | none => exact iff_of_true (safe_pure _ p) fun flag h => by cases h
  | some flag =>
    constructor
    · rintro h _ ⟨⟩
      exact le_of_safe_touch h.of_bind.of_bind.of_bind
    · intro h
      have hle := h flag rfl
      obtain ⟨old, p', ho⟩ := fetchFlag_ok (p := p) hle (· ||| bits)
      refine (safe_step ho).2 ?_
      split_ifs
      · exact ⟨(), _, touch_ok hle⟩
      · exact safe_pure _ _

theorem safe_wait (bits : UInt32) (rounds : ℕ) :
    Safe (q.wait bits rounds) p ↔ (rounds ≠ 0 → q.FlagIn) := by
  cases rounds with
  | zero => exact iff_of_true (safe_pure _ p) fun h => absurd rfl h
  | succ rounds =>
    constructor
    · intro h _ flag hf
      rw [wait, hf] at h
      exact le_of_safe_touch h.of_bind.of_bind.of_bind
    · intro h
      have hin := h (Nat.succ_ne_zero rounds)
      clear h
      -- each round finds the flag in the mapping
      suffices hall : ∀ n p, Safe (q.wait bits n) p from hall _ p
      intro n
      induction n with
      | zero => exact fun p => safe_pure _ p
      | succ n ih =>
        intro p
        rw [wait]
        cases hf : q.flag with
        | none => exact safe_pure _ p
        | some flag =>
          have hle := hin flag hf
          obtain ⟨old, p', ho⟩ := fetchFlag_ok (p := p) hle (· &&& ~~~bits)
          refine (safe_step ho).2 ?_
          split_ifs
          · exact safe_pure _ _
          · refine (safe_step (touch_ok hle)).2 (safe_bind.2 ⟨_, _, rfl, ?_⟩)
            split_ifs
            · exact safe_pure _ _
            · exact ih _

/-- One call has no fault if and only if it finds what it must. -/
theorem safe_call (hring : q.ring + q.size ≤ q.length) (c : QueueCall) :
    Safe (q.call c) p ↔ q.Fits c p := by
  cases c with
  | read len => exact safe_map.trans (safe_readBytes hring)
  | write data => exact safe_map.trans (safe_writeBytes hring)
  | wait bits rounds => exact safe_map.trans (safe_wait bits rounds)
  | wake bits => exact safe_wake bits

theorem safe_calls (hring : q.ring + q.size ≤ q.length) (cs : List QueueCall) :
    Safe (q.calls cs) p ↔ q.AllFit cs p := by
  induction cs generalizing p with
  | nil => exact iff_of_true (safe_pure _ p) trivial
  | cons c cs ih =>
    refine (safe_bind (f := fun _ => q.calls cs)).trans ?_
    rw [AllFit, ← safe_call hring]
    constructor
    · rintro ⟨_, p', hc, hs⟩
      refine ⟨⟨(), p', hc⟩, fun p'' hc' => ?_⟩
      cases hc.symm.trans hc'
      exact ih.1 hs
    · rintro ⟨⟨_, p', hc⟩, hall⟩
      exact ⟨(), p', hc, ih.2 (hall p' hc)⟩

end Mapped

/-- The ring of an accepted descriptor lies in the mapping. -/
theorem fromDescriptor_ring {clone : Bool} {map : ℕ → Bool} {desc : Descriptor} {q : Mapped}
    (h : fromDescriptor clone map desc = .ok q) :
    q.ring + q.size ≤ q.length ∧ q.length < 2 ^ 64 := by
  unfold fromDescriptor at h
  split at h
  · next read write ring rest hg =>
      split at h
      · cases h
      split at h
      · cases h
      split at h
      · cases h
      dsimp only at h
      split at h
      · cases h
      cases h
      have hring : ring.last ∈ desc.grantors.map Grantor.last :=
        List.mem_map_of_mem (by rw [hg]; simp)
      cases hm : (desc.grantors.map Grantor.last).max? with
      | none =>
        rw [List.max?_eq_none_iff] at hm
        rw [hm] at hring
        cases hring
      | some last =>
        obtain ⟨hmem, hle⟩ := List.max?_eq_some_iff.1 hm
        obtain ⟨g, -, rfl⟩ := List.mem_map.1 hmem
        exact ⟨hle _ hring, g.last_lt⟩
  · cases h

/-- **Hostile descriptors.**  Over a queue a peer described, a run of calls has no fault, whatever the
peer stores and when, if and only if each call finds its counters or its flag in the mapping, a ring
that is not empty and that holds what a read takes past its end, and a counter with room for as many
bytes as it moves on by. -/
theorem run_contained (clone : Bool) (map : ℕ → Bool) (desc : Descriptor) (q : Mapped)
    (h : fromDescriptor clone map desc = .ok q) (cs : List QueueCall) (p : Shared) :
    (∃ p', q.calls cs p = .ok () p') ↔ q.AllFit cs p := by
  rw [← Mapped.safe_calls (fromDescriptor_ring h).1]
  exact ⟨fun ⟨p', hp'⟩ => ⟨(), p', hp'⟩, fun ⟨_, p', hp'⟩ => ⟨p', hp'⟩⟩

/-- The layout libfmq makes: two counters, a ring of eight bytes and the flag. -/
def laidOut : Descriptor := ⟨[⟨0, 0, 8, by decide, by decide⟩, ⟨0, 8, 8, by decide, by decide⟩,
  ⟨0, 16, 8, by decide, by decide⟩, ⟨0, 24, 4, by decide, by decide⟩], 1, 1⟩

/-- A mapped file whose two counters have these values, and a peer that then does nothing. -/
def counters (read write : ℕ) : Shared :=
  ⟨((Memory.zero 64).write 0 (Bytes.ofNat 8 read)).write 8 (Bytes.ofNat 8 write), [], []⟩

/-- With that layout, a peer that stores a counter between two loads does no harm. -/
theorem run_contained_laidOut :
    ∃ p', (Mapped.mk 28 0 8 16 (some 24) 8 1).calls [.write [1, 2, 3], .read 5, .wake 1]
      { counters 7 7 with turns := [[], [], [], [], [], [], [(8, [12])]] } = .ok () p' := by
  refine (run_contained true (fun _ => true) laidOut _ rfl _ _).2 ?_
  refine ⟨?_, fun p' hp' => ⟨?_, fun p'' hp'' => ⟨?_, fun _ _ => trivial⟩⟩⟩
  · exact fun _ => ⟨by unfold Mapped.CountersIn; decide, fun _ => by decide +kernel⟩
  · cases hp'
    exact fun _ => ⟨by unfold Mapped.CountersIn; decide, fun _ => by decide +kernel⟩
  · intro flag hf
    cases hf
    decide

/-- A queue of a descriptor with two counters and a ring, where it is accepted. -/
def described (read write ring : Grantor) : Except Refusal Mapped :=
  fromDescriptor true (fun _ => true) ⟨[read, write, ring], 1, 1⟩

/-- **Accepted, and not contained.**  A counter outside the mapping; a remainder by an empty ring's
size; a read that is longer than the ring leaves it; a read counter that does not fit; and a write
counter that does not fit once the queue's own stores have moved it on. -/
theorem hostile_queue_escapes :
    (∃ q p', described ⟨0, 0, 0, by decide, by decide⟩ ⟨0, 0, 0, by decide, by decide⟩
        ⟨0, 0, 1, by decide, by decide⟩ = .ok q ∧
      q.calls [.read 1] (counters 0 0) = .fault (.outside 0 8) p') ∧
    (∃ q p', described ⟨0, 0, 8, by decide, by decide⟩ ⟨0, 8, 8, by decide, by decide⟩
        ⟨0, 16, 0, by decide, by decide⟩ = .ok q ∧
      q.calls [.read 1] (counters 0 1) = .fault .remainderByZero p') ∧
    (∃ q p', described ⟨0, 0, 8, by decide, by decide⟩ ⟨0, 8, 8, by decide, by decide⟩
        ⟨0, 16, 1, by decide, by decide⟩ = .ok q ∧
      q.calls [.read 3] (counters 0 3) = .fault (.outsideRing 0 2) p') ∧
    (∃ q p', described ⟨0, 0, 8, by decide, by decide⟩ ⟨0, 8, 8, by decide, by decide⟩
        ⟨0, 16, 8, by decide, by decide⟩ = .ok q ∧
      q.calls [.read 1] (counters (2 ^ 64 - 1) 0) = .fault .overflow p') ∧
    ∃ q p', described ⟨0, 0, 8, by decide, by decide⟩ ⟨0, 8, 8, by decide, by decide⟩
        ⟨0, 16, 8, by decide, by decide⟩ = .ok q ∧
      q.calls [.write [1, 2, 3, 4, 5, 6, 7, 8], .read 8, .write [9]]
        (counters (2 ^ 64 - 9) (2 ^ 64 - 9)) = .fault .overflow p' := by
  refine ⟨⟨_, _, rfl, rfl⟩, ⟨_, _, rfl, rfl⟩, ⟨_, _, rfl, rfl⟩, ⟨_, _, rfl, rfl⟩, ⟨_, _, rfl, rfl⟩⟩

end Aim.Fmq
