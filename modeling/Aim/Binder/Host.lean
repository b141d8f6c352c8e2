import Aim.Binder.References

/-!
# Binder — The calling process and its buffers

What the driver needs from the process that issues an ioctl (`host.rs`): its memory and its fd
table.  The driver never assumes anything of the answers, except that a copy from user memory that
succeeds fills the whole of its buffer.

* `GuestProcess`, and `DirectGuest`: a process with nothing between it and the driver.
* The steps of `binder_transaction()` (`transaction.rs`) around the copy: a buffer is allocated in
  the target's mapping and gets the record of the transaction; the reader installs the files it
  holds (`read.rs`).
-/

namespace Aim.Binder

/-- The calling process, as seen from one ioctl; every call may change it. -/
class GuestProcess (G : Type) where
  copyFromUser : G → (address len : ℕ) → Except Errno { b : Bytes // b.length = len } × G
  copyToUser : G → (address : ℕ) → Bytes → Except Errno Unit × G
  /-- `fget`: the open file behind a guest fd. -/
  getFile : G → (fd : ℕ) → Except Errno File × G
  /-- Install a received file as a new close-on-exec fd. -/
  installFile : G → File → Except Errno ℕ × G
  /-- Whether that many files can be installed in this ioctl. -/
  canInstall : G → ℕ → Bool × G
  /-- Exact delivered buffer and transaction capability for a hosted receiver. -/
  delivered : G → (buffer : ℕ) → TxnId → G
  closeFd : G → (fd : ℕ) → G

/-- The driver's state and the process whose ioctl runs. -/
structure Machine (G : Type) where
  st : State
  guest : G

/-- A driver operation that may ask the calling process. -/
abbrev Run (G ε α : Type) := Prog Fault ε (Machine G) α

variable {G ε α : Type}

/-- A driver operation that asks nothing. -/
def onState (x : Op ε α) : Run G ε α :=
  Prog.zoom Machine.st (fun s m => { m with st := s }) x

/-- A question to the calling process. -/
def ask (f : G → Except Errno α × G) : Run G Errno α := fun m =>
  match f m.guest with
  | (.ok a, g) => .ok a { m with guest := g }
  | (.error e, g) => .err e { m with guest := g }

theorem onState_eq_ok {x : Op ε α} {m m' : Machine G} {a : α} (h : onState x m = .ok a m') :
    x m.st = .ok a m'.st ∧ m'.guest = m.guest := by
  unfold onState Prog.zoom at h
  split at h
  · next hx => cases h; exact ⟨hx, rfl⟩
  · cases h
  · cases h

/-! ### A process the driver sees directly -/

/-- A process, by its memory (nothing where nothing is mapped) and its fd table. -/
structure DirectGuest where
  memory : ℕ → Option UInt8
  files : ℕ → Option File
  /-- The fds that are still free, in the order they are given out. -/
  free : List ℕ := []

namespace DirectGuest

/-- A range of the memory, if all of it is mapped. -/
def load (g : DirectGuest) (address : ℕ) : (len : ℕ) → Option { b : Bytes // b.length = len }
  | 0 => some ⟨[], rfl⟩
  | len + 1 => do
    let b ← g.memory address
    let ⟨bs, h⟩ ← g.load (address + 1) len
    return ⟨b :: bs, congrArg (· + 1) h⟩

/-- The memory with a range overwritten. -/
def store (g : DirectGuest) (address : ℕ) (data : Bytes) : DirectGuest :=
  { g with memory := fun i => if address ≤ i ∧ i < address + data.length then data[i - address]?
      else g.memory i }

end DirectGuest

instance : GuestProcess DirectGuest where
  copyFromUser g address len :=
    match g.load address len with
    | some b => (.ok b, g)
    | none => (.error .EFAULT, g)
  copyToUser g address data :=
    match g.load address data.length with
    | some _ => (.ok (), g.store address data)
    | none => (.error .EFAULT, g)
  getFile g fd :=
    match g.files fd with
    | some file => (.ok file, g)
    | none => (.error .EBADF, g)
  installFile g file :=
    match g.free with
    | [] => (.error 24, g)
    | fd :: free =>
      (.ok fd, { g with free, files := fun i => if i = fd then some file else g.files i })
  canInstall g count := (decide (count ≤ g.free.length), g)
  delivered g _ _ := g
  closeFd g fd := { g with files := fun i => if i = fd then none else g.files i }

/-! ### The buffer of a transaction -/

/-- Why a transaction failed: the BR code for the sender and the errno kept in the extended
error. -/
structure Failure where
  cmd : UInt32
  param : ℤ
  deriving DecidableEq

def fail (cmd : UInt32) (param : Errno) : Failure := ⟨cmd, -param⟩

/-- Where a transaction or reply goes. -/
structure Target where
  proc : ProcId
  thread : Option Tid
  node : Option NodeId
  /-- The transaction a reply answers. -/
  inReplyTo : Option TxnId

namespace State

/-- A buffer in the target's mapping. -/
def allocateBuffer (target : Target) (tr : TransactionData) (extra : ℕ) (oneway : Bool)
    (senderPid : ℤ) : Op Failure Allocation := do
  let s ← Prog.get
  match (s.procs.lookup target.proc).bind (·.alloc) with
  | none =>
    Prog.modify fun s => s.releaseTargetNode target.node
    Prog.throw (fail BR_DEAD_REPLY .ESRCH)
  | some alloc =>
    match alloc.allocate tr.dataSize tr.offsetsSize extra oneway senderPid with
    | (.ok a, alloc) =>
      Prog.modify fun s => s.modifyProc target.proc fun p => { p with alloc := some alloc }
      return a
    | (.error e, _) =>
      Prog.modify fun s => s.releaseTargetNode target.node
      Prog.throw (fail (if e = .ESRCH then BR_DEAD_REPLY else BR_FAILED_REPLY) e)

/-- The record of a new transaction, with its buffer. -/
def insertTxn {ε : Type} (target : Target) (tr : TransactionData) (offset : ℕ)
    (sender : Option (ProcId × Tid)) (creds : Credentials) (delegated : Bool) : Op ε TxnId := do
  let id ← Prog.update nextId
  let txn : Txn :=
    { sender, toProc := some target.proc, toThread := target.thread, code := tr.code
      flags := tr.flags, senderEuid := creds.euid, senderCredentials := creds
      delegatedSender := delegated, targetNode := target.node, buffer := some offset }
  Prog.modify fun s => { s with txns := s.txns.insert id txn }
  let s ← Prog.get
  let _ ← Prog.expect (.missing .buffers) (s.buffer? target.proc offset)
  Prog.modify fun s => s.modifyBuffer target.proc offset fun b =>
    { b with txn := some id, targetNode := target.node
             clearOnFree := tr.flags &&& TF_CLEAR_BUF ≠ 0 }
  return id

end State

open State

/-- `binder_apply_fd_fixups`: install the files in the reader, and the fds in its buffer.  The
result is the fds installed, and whether one failed. -/
def installFixups [GuestProcess G] (proc : ProcId) (offset : ℕ) :
    List FdFixup → List (ℕ × Bool) → Run G ε (List (ℕ × Bool) × Bool)
  | [], installed => pure (installed, false)
  | fixup :: rest, installed => do
    match ← Prog.attempt (ask fun g => GuestProcess.installFile g fixup.file) with
    | .error _ => return (installed, true)
    | .ok fd =>
      onState (Prog.modify fun s => s.modifyProc proc fun p =>
        { p with receive := p.receive.map fun m =>
            ReceiveMemory.write m (offset + fixup.offset) (Bytes.ofNat 4 fd) })
      installFixups proc offset rest (installed ++ [(fd, fixup.inArray)])

end Aim.Binder
