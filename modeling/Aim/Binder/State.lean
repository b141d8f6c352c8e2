import Aim.Support.Program
import Aim.Binder.Alloc

/-!
# Binder — Driver state

The state of `state.rs`: contexts, processes with their threads, nodes, handles and queues,
transactions and death notifications.  The rules that move references live in
`Aim.Binder.References`.

Ids are numbers below a counter.  `wakes` holds the threads whose condition variable is to be
notified, `resumes` the parked reads to resume, both delivered once the lock is released.
-/

namespace Aim.Binder

/-- An open file description in passage; what it is belongs to the fd layer. -/
abbrev File := ℕ
/-- Resumes a parked read. -/
abbrev Resume := ℕ
/-- The callback of a process's reactor. -/
abbrev Notifier := ℕ

structure Credentials where
  pid : ℤ
  euid : UInt32
  securityContext : Option Bytes
  deriving DecidableEq

def LOOPER_POLL : UInt32 := 0x20

inductive ErrorSlot where
  /-- `thread->return_error`: the thread's own failed command. -/
  | ret
  /-- `thread->reply_error`: a failed reply delivered by another thread. -/
  | reply
  deriving DecidableEq

inductive Work where
  | transaction (id : TxnId)
  | transactionComplete
  | onewaySpamSuspect
  | returnError (cmd : UInt32) (slot : ErrorSlot)
  | node (id : NodeId)
  | death (id : DeathId)
  deriving DecidableEq

inductive WorkList where
  | proc (p : ProcId)
  | thread (p : ProcId) (t : Tid)
  deriving DecidableEq

structure ExtendedError where
  id : ℕ := 0
  command : UInt32 := 0
  param : ℤ := 0

/-- A new thread returns to user space from its first read even without work, as
`binder_get_thread` arranges. -/
structure Thread where
  looper : UInt32 := 0
  looperNeedReturn : Bool := true
  todo : List Work := []
  processTodo : Bool := false
  transactionStack : Option TxnId := none
  forwardedSender : Option Credentials := none
  returnError : Option UInt32 := none
  replyError : Option UInt32 := none
  ee : ExtendedError := {}
  interrupted : Bool := false
  /-- The read that would wait here instead returned to its caller; this resumes it. -/
  parked : Option Resume := none

/-- A handle.  Its counts are 32-bit. -/
structure Ref where
  node : NodeId
  strong : ℕ := 0
  weak : ℕ := 0
  death : Option DeathId := none

/-- The memory behind a process's binder mapping. -/
abbrev ReceiveMemory := ℕ → UInt8

/-- A range of the receive memory, written. -/
def ReceiveMemory.write (m : ReceiveMemory) (offset : ℕ) (data : Bytes) : ReceiveMemory := fun i =>
  if offset ≤ i then (data[i - offset]?).getD (m i) else m i

structure Proc where
  context : ℕ
  creds : Credentials
  threads : Table Tid Thread := ∅
  /-- Nodes this process owns, by user pointer. -/
  nodes : Table ℕ NodeId := ∅
  refsByDesc : Table Desc Ref := ∅
  refsByNode : Table NodeId Desc := ∅
  todo : List Work := []
  waitingThreads : List Tid := []
  deliveredDeath : List DeathId := []
  alloc : Option Allocator := none
  receive : Option ReceiveMemory := none
  maxThreads : ℕ := 0
  requestedThreads : ℕ := 0
  requestedThreadsStarted : ℕ := 0
  onewaySpamDetection : Bool := false
  nonblocking : Bool := false
  notifier : Option Notifier := none
  outstandingTxns : ℕ := 0

structure Node where
  proc : Option ProcId
  context : ℕ
  ptr : ℕ
  cookie : ℕ
  internalStrongRefs : ℕ := 0
  localStrongRefs : ℕ := 0
  localWeakRefs : ℕ := 0
  /-- Processes holding a ref, in increasing order. -/
  refs : List ProcId := []
  hasStrongRef : Bool := false
  pendingStrongRef : Bool := false
  hasWeakRef : Bool := false
  pendingWeakRef : Bool := false
  acceptFds : Bool
  txnSecurityCtx : Bool
  hasAsyncTransaction : Bool := false
  asyncTodo : List TxnId := []
  workQueued : Option WorkList := none

inductive DeathState where
  /-- Registered, target alive. -/
  | armed
  | deadBinder
  | deadBinderAndClear
  | clear
  deriving DecidableEq

inductive DeathLocation where
  | queued (l : WorkList)
  | delivered
  deriving DecidableEq

structure Death where
  proc : ProcId
  cookie : ℕ
  state : DeathState
  location : Option DeathLocation

structure FdFixup where
  /-- Offset of the fd word in the target buffer. -/
  offset : ℕ
  file : File
  inArray : Bool

structure Txn where
  /-- The sending thread of a synchronous transaction. -/
  sender : Option (ProcId × Tid)
  fromParent : Option TxnId := none
  toProc : Option ProcId
  toThread : Option Tid
  toParent : Option TxnId := none
  code : UInt32
  flags : UInt32
  senderEuid : UInt32
  senderCredentials : Credentials
  delegatedSender : Bool
  targetNode : Option NodeId
  /-- Offset of the buffer in `toProc`'s allocator. -/
  buffer : Option ℕ
  securityCtx : ℕ := 0
  fdFixups : List FdFixup := []

structure Context where
  name : String
  mgrNode : Option NodeId := none
  mgrUid : Option UInt32 := none

structure State where
  contexts : List Context := []
  procs : Table ProcId Proc := ∅
  nodes : Table NodeId Node := ∅
  txns : Table TxnId Txn := ∅
  deaths : Table DeathId Death := ∅
  lastId : ℕ := 0
  /-- Thread wakes to deliver once the lock is released. -/
  wakes : List (ProcId × Tid) := []
  /-- Parked reads to resume once the lock is released. -/
  resumes : List Resume := []
  /-- External wakes to deliver once the lock is released. -/
  notifications : List (Notifier × Option Tid) := []

/-- The maps and vectors the driver indexes. -/
inductive Index where
  | contexts | procs | threads | nodes | refs | txns | deaths | buffers
  deriving DecidableEq

/-- What ends a driver operation in a panic. -/
inductive Fault where
  /-- An index, or an `unwrap` of a lookup, found nothing. -/
  | missing (index : Index)
  /-- An `unwrap` or `expect` of nothing. -/
  | unwrap
  /-- A slice out of bounds. -/
  | slice
  /-- A 64-bit addition overflowed. -/
  | overflow
  /-- The bound on a loop of the model was reached. -/
  | fuel
  deriving DecidableEq

/-- A driver operation on the locked state. -/
abbrev Op (ε α : Type) := Prog Fault ε State α

namespace State

/-! ### Looking up and changing parts -/

def thread? (s : State) (p : ProcId) (t : Tid) : Option Thread :=
  (s.procs.lookup p).bind fun P => P.threads.lookup t

def ref? (s : State) (p : ProcId) (d : Desc) : Option Ref :=
  (s.procs.lookup p).bind fun P => P.refsByDesc.lookup d

def buffer? (s : State) (p : ProcId) (o : ℕ) : Option Buffer :=
  (s.procs.lookup p).bind fun P => P.alloc.bind fun a => a.buffers.lookup o

def modifyProc (s : State) (p : ProcId) (f : Proc → Proc) : State :=
  { s with procs := s.procs.modify p f }

def modifyThread (s : State) (p : ProcId) (t : Tid) (f : Thread → Thread) : State :=
  s.modifyProc p fun P => { P with threads := P.threads.modify t f }

def modifyNode (s : State) (n : NodeId) (f : Node → Node) : State :=
  { s with nodes := s.nodes.modify n f }

def modifyTxn (s : State) (id : TxnId) (f : Txn → Txn) : State :=
  { s with txns := s.txns.modify id f }

def modifyDeath (s : State) (d : DeathId) (f : Death → Death) : State :=
  { s with deaths := s.deaths.modify d f }

def modifyRef (s : State) (p : ProcId) (d : Desc) (f : Ref → Ref) : State :=
  s.modifyProc p fun P => { P with refsByDesc := P.refsByDesc.modify d f }

def modifyBuffer (s : State) (p : ProcId) (o : ℕ) (f : Buffer → Buffer) : State :=
  s.modifyProc p fun P =>
    { P with alloc := P.alloc.map fun a => { a with buffers := a.buffers.modify o f } }

/-! ### Ids, contexts, processes and threads -/

def nextId (s : State) : ℕ × State := (s.lastId + 1, { s with lastId := s.lastId + 1 })

/-! ### Work queues -/

/-- Wake the thread if it waits for work: notify its wait, or resume its parked read. -/
def wakeWaiter (s : State) (proc : ProcId) (tid : Tid) : State :=
  match s.thread? proc tid with
  | none => s
  | some t =>
    match t.parked with
    | some resume =>
      let s := s.modifyThread proc tid fun t => { t with parked := none }
      let s := s.modifyProc proc fun p =>
        { p with waitingThreads := p.waitingThreads.filter (· ≠ tid) }
      { s with resumes := s.resumes ++ [resume] }
    | none => { s with wakes := s.wakes ++ [(proc, tid)] }

def notify (s : State) (proc : ProcId) (tid : Option Tid) : State :=
  match (s.procs.lookup proc).bind (·.notifier) with
  | some n => { s with notifications := s.notifications ++ [(n, tid)] }
  | none => s

def wakeThread (s : State) (proc : ProcId) (tid : Tid) : State :=
  let s := s.wakeWaiter proc tid
  if (s.thread? proc tid).any fun t => t.looper &&& LOOPER_POLL ≠ 0 then s.notify proc (some tid)
  else s

/-- `binder_enqueue_deferred_thread_work_ilocked`: queued, but the thread does not return to user
space for it alone. -/
def enqueueDeferredThreadWork (s : State) (proc : ProcId) (tid : Tid) (work : Work) : State :=
  s.modifyThread proc tid fun t => { t with todo := t.todo ++ [work] }

def enqueueProcWork (s : State) (proc : ProcId) (work : Work) : State :=
  s.modifyProc proc fun p => { p with todo := p.todo ++ [work] }

def removeWork (s : State) (list : WorkList) (work : Work) : State :=
  match list with
  | .proc p => s.modifyProc p fun P => { P with todo := P.todo.erase work }
  | .thread p t => s.modifyThread p t fun T => { T with todo := T.todo.erase work }

/-- `binder_select_thread_ilocked`. -/
def selectThread (s : State) (proc : ProcId) : Option Tid × State :=
  match s.procs.lookup proc with
  | none => (none, s)
  | some p =>
    (p.waitingThreads.head?,
      s.modifyProc proc fun p => { p with waitingThreads := p.waitingThreads.tail })

/-- `binder_wakeup_thread_ilocked`.  When no thread waits for process work, poll-mode threads (and
an external reactor) must be told instead. -/
def wakeupThread (s : State) (proc : ProcId) : Option Tid → State
  | some tid => s.wakeThread proc tid
  | none => s.notify proc none

/-- `binder_wakeup_proc_ilocked`. -/
def wakeupProc (s : State) (proc : ProcId) : State :=
  let (tid, s) := s.selectThread proc
  s.wakeupThread proc tid

def dequeueNodeWork (s : State) (node : NodeId) : State :=
  match (s.nodes.lookup node).bind (·.workQueued) with
  | none => s
  | some list => (s.modifyNode node fun n => { n with workQueued := none }).removeWork list (.node node)

def dequeueDeathWork (s : State) (death : DeathId) : State :=
  match s.deaths.lookup death with
  | none => s
  | some d =>
    let s := s.modifyDeath death fun d => { d with location := none }
    match d.location with
    | some (.queued list) => s.removeWork list (.death death)
    | some .delivered =>
      s.modifyProc d.proc fun p => { p with deliveredDeath := p.deliveredDeath.filter (· ≠ death) }
    | none => s

end State

end Aim.Binder
