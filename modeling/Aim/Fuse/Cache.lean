import Aim.Support.Disk
import Aim.Support.Program

/-!
# Fuse — The write-back cache

The cached pages of an inode (`fuse_cache.rs`): the file that is mapped, the baseline it was last
equal to, and the server's own file. `hydrate`, `flush_locked`, `flush_retiring`, `write_through`,
`update_after_write` and `invalidate_cache` are as in the source, one file access or request at a
time; before each of them the environment may store bytes through the mapping, and decides what the
server answers.

* A WRITE is acknowledged for a prefix of its bytes, or fails; a descriptor that cannot be borrowed
  for writing is a WRITE that fails.
* A write to one of the host's files may fail, with a part of it done. The other accesses to these
  files succeed.
* A loop that outlives its passes is a fault.
* `seenData`, `seenBaseline`, `sent` and `stored` keep what happened, and no function reads them.
-/

namespace Aim.Fuse

/-- A Linux error number. -/
abbrev Errno := ℕ+

def EIO : Errno := 5

def CHUNK : ℕ := 128 * 1024

/-- A WRITE of a flush, with the two files as the flush read them. -/
structure Sent where
  offset : ℕ
  bytes : Bytes
  data : Disk
  baseline : Disk

structure World where
  server : Disk
  data : Disk
  baseline : Disk
  /-- Whether the control file has its 8 bytes. -/
  hydrated : Bool
  /-- The number of accesses so far. -/
  clock : ℕ
  /-- The data file when a flush last read from it. -/
  seenData : Disk
  /-- The baseline when a flush last read from it. -/
  seenBaseline : Disk
  sent : List Sent
  /-- The byte last stored through the mapping at a position, until the server has it. -/
  stored : ℕ → Option UInt8

/-- What the cache does not decide, by the number of the access. -/
structure Env where
  /-- The bytes stored through the mapping before the access. -/
  stores : ℕ → List (ℕ × UInt8)
  /-- The error of the request, or how much of it is answered. -/
  answer : ℕ → Except Errno ℕ
  /-- The error of a write to a host file, and how much of it is written. -/
  host : ℕ → Option (ℕ × Errno)

/-- A store through the mapping, which is there once the cache is hydrated. -/
def World.store (w : World) (s : ℕ × UInt8) : World :=
  if w.hydrated ∧ s.1 < w.data.len then
    { w with
      data := w.data.write s.1 [s.2]
      stored := Function.update w.stored s.1 (if w.server.byte s.1 = s.2 then none else some s.2) }
  else w

/-- The server takes the bytes of a WRITE, and has the stored bytes that are among them. -/
def World.acknowledge (w : World) (offset : ℕ) (bytes : Bytes) : World :=
  { w with
    server := w.server.write offset bytes
    stored := fun p =>
      if offset ≤ p ∧ p < offset + bytes.length ∧ w.stored p = some (bytes.getD (p - offset) 0)
      then none else w.stored p }

abbrev Cache := Prog Unit Errno World

namespace Cache

variable (env : Env)

/-- What happens before an access. -/
def access : Cache Unit :=
  Prog.modify fun w =>
    { (env.stores w.clock).foldl World.store w with clock := w.clock + 1 }

/-! ### The host's files -/

/-- `read_exact` of the data file. -/
def readData (offset n : ℕ) : Cache Bytes := do
  access env
  let w ← Prog.get
  if w.data.len < offset + n then Prog.throw EIO
  else do
    Prog.modify fun w => { w with seenData := w.data }
    pure (w.data.read offset n)

/-- `read_exact` of the baseline. -/
def readBaseline (offset n : ℕ) : Cache Bytes := do
  access env
  let w ← Prog.get
  if w.baseline.len < offset + n then Prog.throw EIO
  else do
    Prog.modify fun w => { w with seenBaseline := w.baseline }
    pure (w.baseline.read offset n)

/-- `write_all`, by what writing a part of the bytes does. -/
def writeAll (put : Bytes → World → World) (bytes : Bytes) : Cache Unit := do
  access env
  let w ← Prog.get
  match env.host w.clock with
  | none => Prog.modify (put bytes)
  | some (n, e) => do
    Prog.modify (put (bytes.take n))
    Prog.throw e

/-- `write_all` to the data file. -/
def writeData (offset : ℕ) : Bytes → Cache Unit :=
  writeAll env fun part w => { w with data := w.data.write offset part }

/-- `write_all` to the baseline. -/
def writeBaseline (offset : ℕ) : Bytes → Cache Unit :=
  writeAll env fun part w => { w with baseline := w.baseline.write offset part }

/-! ### Requests -/

/-- The answer to a request. -/
def request : Cache ℕ := do
  access env
  let w ← Prog.get
  match env.answer w.clock with
  | .error e => Prog.throw e
  | .ok n => pure n

/-- `Open::write`: how much of the bytes the server acknowledges. -/
def write (offset : ℕ) (bytes : Bytes) : Cache ℕ := do
  let n ← request env
  let n := min n bytes.length
  Prog.modify fun w => w.acknowledge offset (bytes.take n)
  pure n

/-- `Open::read`. -/
def read (offset want : ℕ) : Cache Bytes := do
  let n ← request env
  let w ← Prog.get
  pure (w.server.read offset (min n (min want (w.server.len - offset))))

/-- `size`: the server's size of the file. -/
def size : Cache ℕ := do
  let _ ← request env
  let w ← Prog.get
  pure w.server.len

/-! ### Reading from the server -/

/-- The loops of `hydrate` and of `invalidate_cache`: from `at_` on, chunk after chunk. -/
def fill (end_ : ℕ) : ℕ → ℕ → Cache Unit
  | 0, at_ => if at_ < end_ then Prog.fault () else pure ()
  | passes + 1, at_ =>
    if at_ < end_ then do
      let want := min (end_ - at_) CHUNK
      let bytes ← read env at_ want
      if bytes.length ≠ want then Prog.throw EIO
      else do
        writeData env at_ bytes
        writeBaseline env at_ bytes
        fill end_ passes (at_ + want)
    else pure ()

def hydrate : Cache Unit := do
  let w ← Prog.get
  if w.hydrated then pure ()
  else do
    let size ← size env
    Prog.modify fun w =>
      { w with data := w.data.setLen size, baseline := w.baseline.setLen size }
    fill env size size 0
    Prog.modify fun w => { w with hydrated := true }

/-! ### Writing to the server -/

/-- How long the two differ from their start. -/
def differing : Bytes → Bytes → ℕ
  | b :: bytes, o :: old => if b = o then 0 else 1 + differing bytes old
  | _, _ => 0

/-- Writes one run of differing bytes; `bad` are the counts that end it with `EIO`. -/
def writeRun (bad : ℕ → ℕ → Bool) : ℕ → ℕ → Bytes → Cache Unit
  | passes, at_, bytes =>
    if bytes = [] then pure ()
    else
      match passes with
      | 0 => Prog.fault ()
      | passes + 1 => do
        Prog.modify fun w =>
          { w with sent := ⟨at_, bytes, w.seenData, w.seenBaseline⟩ :: w.sent }
        let count ← write env at_ bytes
        if bad count bytes.length then Prog.throw EIO
        else do
          writeBaseline env at_ (bytes.take count)
          writeRun bad passes (at_ + count) (bytes.drop count)

/-- Writes the runs of one chunk. -/
def writeRuns (bad : ℕ → ℕ → Bool) : ℕ → ℕ → Bytes → Bytes → Cache Unit
  | passes, at_, bytes, old =>
    match bytes, old, passes with
    | b :: bytes, o :: old, passes + 1 =>
      if b = o then writeRuns bad passes (at_ + 1) bytes old
      else do
        let n := differing (b :: bytes) (o :: old)
        writeRun env bad n at_ ((b :: bytes).take n)
        writeRuns bad passes (at_ + n) ((b :: bytes).drop n) ((o :: old).drop n)
    | _ :: _, _ :: _, 0 => Prog.fault ()
    | _, _, _ => pure ()

/-- Writes the chunks from `at_` to `end_`. -/
def writeChunks (bad : ℕ → ℕ → Bool) (end_ : ℕ) : ℕ → ℕ → Cache Unit
  | 0, at_ => if at_ < end_ then Prog.fault () else pure ()
  | passes + 1, at_ =>
    if at_ < end_ then do
      let n := min (end_ - at_) CHUNK
      let bytes ← readData env at_ n
      let old ← readBaseline env at_ n
      writeRuns env bad n at_ bytes old
      writeChunks bad end_ passes (at_ + n)
    else pure ()

/-- `Cache::flush_locked`. -/
def flushLocked (offset length : ℕ) : Cache Unit := do
  let w ← Prog.get
  let end_ := min (min (offset + length) (2 ^ 64 - 1)) w.data.len
  writeChunks env (fun written _ => written == 0) end_ (end_ - offset) offset

/-- `flush_retiring`, up to the record of its error. -/
def flushRetiring : Cache Unit := do
  let w ← Prog.get
  if w.hydrated = false then pure ()
  else
    writeChunks env (fun count room => count == 0 || decide (room < count)) w.data.len w.data.len 0

def writeThrough (offset : ℕ) (bytes : Bytes) : Cache ℕ := do
  let w ← Prog.get
  if w.hydrated then do
    flushLocked env 0 (2 ^ 64 - 1)
    let n ← write env offset bytes
    writeData env offset (bytes.take n)
    writeBaseline env offset (bytes.take n)
    pure n
  else write env offset bytes

/-- `update_after_write`, of bytes the server has acknowledged. -/
def updateAfterWrite (offset : ℕ) (bytes : Bytes) : Cache Unit := do
  let w ← Prog.get
  if w.hydrated then do
    writeData env offset bytes
    writeBaseline env offset bytes
  else pure ()

def invalidateCache (offset len : ℕ) : Cache Unit := do
  let w ← Prog.get
  if w.hydrated = false then pure ()
  else do
    flushLocked env offset len
    let size ← size env
    let end_ := min (min (offset + len) (2 ^ 64 - 1)) size
    fill env end_ (end_ - offset) offset
    Prog.modify fun w =>
      { w with data := w.data.setLen size, baseline := w.baseline.setLen size }

end Cache

end Aim.Fuse
