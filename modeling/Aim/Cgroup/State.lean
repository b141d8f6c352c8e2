import Aim.Cgroup.Membership

/-!
# Cgroup — membership fragments

The membership of a hierarchy is a base file and a directory of fragments, one for each process.  A
new thread's membership goes into its process's fragment (`inherit`), so that births in different
processes do not wait for one another.  Everything else is a transaction on the whole
(`transact`): the fragments are folded into the membership, tasks that exited are dropped, and if
the text is not that of the base file, it is written there and the fragments are removed.

The queries about processes and threads are those of a `World`.  File operations are atomic under
their locks.

* `read`, `groupOf`: what the guest sees.
* `inherit`, `transact`, `moveTask`, `threadGone`, `execReset`: the operations on one hierarchy.
* `State`, `Op`, `step`: all hierarchies, and the runs of the guest.
-/

namespace Cgroup

/-! ### Processes and threads -/

/-- What the process and thread tables say. -/
structure World where
  /-- `thread::owner`: the process a tid belongs to, or belonged to last. -/
  owner : Id → Id
  alive : List Id
  /-- The start time of a process. -/
  start : Id → Start
  /-- `procrec::tgid`: the process that the guest sees; it can span several. -/
  tgid : Id → Id
  running : List Id

namespace World

/-- `live`. -/
def live (w : World) (pid : Id) (start : Start) : Bool := pid ∈ w.running && w.start pid = start

/-- Whether a tid is one of `tids(pid)`. -/
def isTask (w : World) (pid tid : Id) : Bool :=
  tid ∈ w.alive && (w.owner tid = pid || w.tgid (w.owner tid) = pid)

end World

/-! ### Reading -/

/-- The files of a hierarchy: the base file, and the fragments by process. -/
structure Files where
  base : Bytes := []
  fragments : List (Id × Bytes) := []

/-- `merge`: the entries replace those of the same tids. -/
def merge (threads fragment : List Entry) : List Entry :=
  fragment.foldl (fun ts e => ts.filter (·.id ≠ e.id) ++ [e]) threads

/-- A fragment counts if its process is the one that wrote it. -/
def inForce (w : World) (pid : Id) (fragment : Membership) : Bool :=
  match fragment.threads.head? with
  | some e => w.live pid e.start
  | none => false

/-- The loop of `fragments`. -/
def mergeFragment (w : World) (m : Membership) (file : Id × Bytes) : Membership :=
  let fragment := parse file.2
  if inForce w file.1 fragment then { m with threads := merge m.threads fragment.threads } else m

/-- `state::read`. -/
def read (w : World) (files : Files) : Membership :=
  files.fragments.foldl (mergeFragment w) (parse files.base)

/-- The root group. -/
def root : Bytes := [47]

/-- The group of a process: its own, or the root. -/
def processGroup (m : Membership) (pid : Id) : Bytes :=
  match m.processes.find? (·.id = pid) with
  | some e => e.group
  | none => root

/-- `group_of`: the thread's own group, or its process's. -/
def groupOf (w : World) (m : Membership) (tid : Id) : Bytes :=
  match m.threads.find? (·.id = tid) with
  | some e => e.group
  | none => processGroup m (w.owner tid)

/-! ### Births -/

/-- A file of the directory is written, and created if it is not there. -/
def writeFile (dir : List (Id × Bytes)) (pid : Id) (text : Bytes) : List (Id × Bytes) :=
  if dir.any (·.1 = pid) then dir.map fun f => if f.1 = pid then (pid, text) else f
  else dir ++ [(pid, text)]

/-- `inherit`: the new thread has a record if its creator has one. -/
def inherit (files : Files) (pid creator tid : Id) (start : Start) : Files :=
  let m := parse files.base
  let isCreator := fun e : Entry => e.id = creator && e.start = start
  let file := files.fragments.lookup pid
  if file = none ∧ m.threads.any isCreator = false then files
  else
    let fragment := parse (file.getD [])
    let threads := fragment.threads.filter (·.start = start)
    match (merge m.threads threads).find? isCreator with
    | some e =>
      let fragment : Membership :=
        ⟨fragment.processes, threads.filter (·.id ≠ tid) ++ [⟨tid, start, e.group⟩]⟩
      { files with fragments := writeFile files.fragments pid fragment.text }
    | none => files

/-! ### Transactions -/

inductive Errno where
  | esrch
  | eacces
  | eio
  deriving DecidableEq

/-- What goes wrong when a transaction is written. -/
inductive Fault where
  | none
  /-- The host does not take the new policy. -/
  | host
  /-- A file operation fails, after so many fragments were removed. -/
  | file (removed : ℕ)
  deriving DecidableEq

/-- `prune`: entries of tasks that exited. -/
def prune (w : World) (m : Membership) : Membership where
  processes := m.processes.filter fun e => w.live e.id e.start
  threads := m.threads.filter fun e =>
    w.live (w.owner e.id) e.start && w.isTask (w.owner e.id) e.id

/-- The failing half of `commit`: the base file and every fragment are written back. -/
def rollback (files : Files) (removed : ℕ) : Files where
  base := files.base
  fragments := files.fragments.foldl (fun dir f => writeFile dir f.1 f.2)
    (files.fragments.drop removed)

/-- `transact`: whether the transaction is made, and what is left of the files. -/
def transact (w : World) (files : Files) (f : Membership → Except Errno Membership)
    (fault : Fault) : Except Errno Unit × Files :=
  match f (prune w (read w files)) with
  | .error e => (.error e, files)
  | .ok m =>
    if m.text ≠ files.base then
      match fault with
      | .none => (.ok (), ⟨m.text, []⟩)
      | .host => (.error .eio, files)
      | .file removed => (.error .eio, rollback files removed)
    else (.ok (), files)

/-- What `tasks` does to the membership. -/
def moveThread (w : World) (tid : Id) (group : Bytes) (m : Membership) : Membership :=
  let threads := m.threads.filter (·.id ≠ tid)
  let owner := w.owner tid
  { m with
    threads := if processGroup m owner ≠ group then threads ++ [⟨tid, w.start owner, group⟩]
      else threads }

/-- The processes that a process of the guest spans. -/
def hosts (w : World) (tid : Id) : List Id :=
  ((w.alive.filter (w.isTask (w.tgid (w.owner tid)))).map w.owner).dedup

/-- What `cgroup.procs` does to the membership. -/
def moveProcess (w : World) (tid : Id) (group : Bytes) (m : Membership) : Membership :=
  let hosts := hosts w tid
  { threads := m.threads.filter fun e => w.owner e.id ∉ hosts
    processes := (m.processes.filter fun e => e.id ∉ hosts) ++
      if group ≠ root then hosts.map fun pid => ⟨pid, w.start pid, group⟩ else [] }

/-- `move_task`: to a group, alone or with its thread group.  The checks of the credentials and of
the group are one answer. -/
def moveTask (w : World) (files : Files) (procs : Bool) (tid : Id) (group : Bytes)
    (allowed : Bool) (fault : Fault) : Except Errno Unit × Files :=
  let owner := w.owner tid
  if owner ∉ w.running ∨ w.isTask owner tid = false then (.error .esrch, files)
  else if !allowed then (.error .eacces, files)
  else if procs then
    if (hosts w tid).any fun pid => pid ∉ w.running then (.error .esrch, files)
    else transact w files (fun m => .ok (moveProcess w tid group m)) fault
  else transact w files (fun m => .ok (moveThread w tid group m)) fault

/-- The records of some threads go, if there are any. -/
def forget (w : World) (files : Files) (gone : Id → Bool) (fault : Fault) : Files :=
  if (read w files).threads.any fun e => gone e.id then
    (transact w files (fun m => .ok { m with threads := m.threads.filter fun e => !gone e.id })
      fault).2
  else files

def threadGone (w : World) (files : Files) (tid : Id) (fault : Fault) : Files :=
  forget w files (fun t => t = tid) fault

/-- `exec_reset`: the program's other threads are gone. -/
def execReset (w : World) (files : Files) (pid : Id) (fault : Fault) : Files :=
  forget w files (fun t => t ≠ pid && w.owner t = pid) fault

/-! ### Runs -/

variable {H : Type} [DecidableEq H]

/-- The guest: its processes and threads, and the files of every hierarchy. -/
structure State (H : Type) where
  world : World
  files : H → Files

inductive Op (H : Type) where
  | birth (creator tid : Id)
  | exit (tid : Id) (fault : H → Fault)
  | exec (pid : Id) (fault : H → Fault)
  /-- A process ends, with the threads it has left. -/
  | ended (pid : Id)
  | move (h : H) (procs : Bool) (tid : Id) (group : Bytes) (allowed : Bool) (fault : Fault)

namespace World

def birth (w : World) (creator tid : Id) : World :=
  { w with
    alive := tid :: w.alive
    owner := Function.update w.owner tid (w.owner creator) }

def without (w : World) (gone : Id → Bool) : World :=
  { w with alive := w.alive.filter fun t => !gone t }

def ended (w : World) (pid : Id) : World :=
  { w.without fun t => w.owner t = pid with running := w.running.filter (· ≠ pid) }

end World

/-- The state after an operation, and whether a move was reported to be made. -/
def step (s : State H) : Op H → Bool × State H
  | .birth creator tid =>
    -- a live thread makes another, whose tid is free
    if creator ∈ s.world.alive ∧ tid ∉ s.world.alive then
      let pid := s.world.owner creator
      (true, ⟨s.world.birth creator tid,
        fun h => inherit (s.files h) pid creator tid (s.world.start pid)⟩)
    else (false, s)
  | .exit tid fault =>
    let w := s.world.without fun t => t = tid
    (true, ⟨w, fun h => threadGone w (s.files h) tid (fault h)⟩)
  | .exec pid fault =>
    let w := s.world.without fun t => t ≠ pid && s.world.owner t = pid
    (true, ⟨w, fun h => execReset w (s.files h) pid (fault h)⟩)
  | .ended pid => (true, ⟨s.world.ended pid, s.files⟩)
  | .move h procs tid group allowed fault =>
    let (r, files) := moveTask s.world (s.files h) procs tid group allowed fault
    (r.isOk, { s with files := Function.update s.files h files })

end Cgroup
