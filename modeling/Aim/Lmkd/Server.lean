import Aim.Support.Bytes
import Aim.Lmkd.Policy

/-!
# Lmkd — The control socket and the kill loop

`server.rs`: the commands of the clients, and `check`, which reads the host's memory and kills the
first victim that can be killed.  What the rest of the system answers is given: for each time lmkd
looks, the `/proc` entries of the processes (`Status`), and for each turn of the kill loop, whether
`kill` succeeds and what the name of the process is (`World`).

A connection is the events it subscribed to.  Packets are their words; what is sent to a client is
given by its contents.  When a check is due is left out: a run may check at any time.
-/

namespace Aim.Lmkd

def LMK_TARGET : ℤ := 0
def LMK_PROCPRIO : ℤ := 1
def LMK_PROCREMOVE : ℤ := 2
def LMK_PROCPURGE : ℤ := 3
def LMK_GETKILLCNT : ℤ := 4
def LMK_SUBSCRIBE : ℤ := 5
def LMK_UPDATE_PROPS : ℤ := 7
def LMK_START_MONITORING : ℤ := 9
def LMK_BOOT_COMPLETED : ℤ := 10
def LMK_PROCS_PRIO : ℤ := 11

def MAX_TARGETS : ℕ := 6
def PROCPRIO_FIELDS : ℕ := 4
def LMK_ASYNC_EVENT_KILL : ℕ := 0
def LMK_ASYNC_EVENT_STAT : ℕ := 1
def PROC_TYPE_APP : ℤ := 0
def PROC_TYPE_SERVICE : ℤ := 1
def MAX_CONNECTIONS : ℕ := 3

/-- `/proc/<pid>/status`. -/
structure Status where
  tgid : ℤ
  rssKb : ℤ

/-- What is found of the processes at one time. -/
abbrev Statuses := ℤ → Option Status

/-- What an `LMK_STAT_KILL_OCCURRED` reports. -/
structure KillStat where
  uid : ℕ
  taskname : Bytes
  oomScore : ℤ
  minOomScore : ℤ
  freeMemKb : ℤ
  rssKb : ℤ

/-- A packet to a client. -/
inductive Sent where
  | prockill (pid : ℤ) (uid : ℕ) (rssKb : ℤ)
  | killOccurred (stat : KillStat)

structure Server where
  /-- For each connection, the bits of the events it subscribed to. -/
  connections : List ℕ
  procs : Procs
  targets : List Target
  bootCompleted : Bool
  level : Level

namespace Server

def new : Server := ⟨[], .empty, [], false, .normal⟩

/-! ### Commands -/

/-- A registration is good: its oom_score_adj and its type are in range, and the process, if there
is one, is a thread group leader. -/
def accepts (status : Statuses) (pid adj ptype : ℤ) : Bool :=
  OOM_SCORE_ADJ_MIN ≤ adj && adj ≤ OOM_SCORE_ADJ_MAX &&
  PROC_TYPE_APP ≤ ptype && ptype ≤ PROC_TYPE_SERVICE &&
  !(status pid).any fun s => s.tgid ≠ pid

def procprio (s : Server) (status : Statuses) (pid : ℤ) (uid : ℕ) (adj ptype : ℤ) : Server :=
  if accepts status pid adj ptype then { s with procs := s.procs.set pid uid adj } else s

/-- The registrations of a packet, one after the other; `statuses k` is what the `k`-th finds. -/
def procsPrio (statuses : ℕ → Statuses) : (k : ℕ) → List ℤ → Server → Server
  | k, pid :: uid :: adj :: ptype :: rest, s =>
    procsPrio statuses (k + 1) rest (s.procprio (statuses k) pid (asU32 uid) adj ptype)
  | _, _, s => s

/-- `chunks_exact(2)`. -/
def targetPairs : List ℤ → List Target
  | minfree :: adj :: rest => ⟨minfree, adj⟩ :: targetPairs rest
  | _ => []

/-- Run a command from connection `i`; returns its reply, if it has one. -/
def command (s : Server) (i : ℕ) (statuses : ℕ → Statuses) (cmd : ℤ) (args : List ℤ) :
    Option (List ℤ) × Server :=
  if cmd = LMK_TARGET then
    if args.length % 2 ≠ 0 ∨ args = [] ∨ MAX_TARGETS < args.length / 2 then (none, s)
    else (none, { s with targets := targetPairs args })
  else if cmd = LMK_PROCPRIO then
    match args with
    -- the process type is optional; an app when missing
    | [pid, uid, adj] => (none, s.procprio (statuses 0) pid (asU32 uid) adj 0)
    | [pid, uid, adj, ptype] => (none, s.procprio (statuses 0) pid (asU32 uid) adj ptype)
    | _ => (none, s)
  else if cmd = LMK_PROCS_PRIO then
    if args = [] ∨ args.length % PROCPRIO_FIELDS ≠ 0 then (none, s)
    else (none, procsPrio statuses 0 args s)
  else if cmd = LMK_PROCREMOVE then
    match args with
    | [pid] => (none, { s with procs := s.procs.remove pid })
    | _ => (none, s)
  else if cmd = LMK_PROCPURGE then
    if args = [] then (none, { s with procs := s.procs.purge }) else (none, s)
  else if cmd = LMK_GETKILLCNT then
    match args with
    | [lo, hi] => (some [LMK_GETKILLCNT, Int.bmod (s.procs.killCount lo hi) (2 ^ 32)], s)
    | _ => (none, s)
  else if cmd = LMK_SUBSCRIBE then
    match args with
    | [event] =>
      if 0 ≤ event ∧ event < 32 then
        (none, { s with connections := s.connections.modify i (· ||| 1 <<< event.toNat) })
      else (none, s)
    | _ => (none, s)
  else if cmd = LMK_UPDATE_PROPS then
    if args = [] then (some [LMK_UPDATE_PROPS, 0], s) else (none, s)
  else if cmd = LMK_START_MONITORING then (none, s)
  else if cmd = LMK_BOOT_COMPLETED then
    if args = [] then
      (some [LMK_BOOT_COMPLETED, if s.bootCompleted then 1 else 0],
        { s with bootCompleted := true })
    else (none, s)
  else (none, s)

/-- Handle one packet of connection `i`; one without a word is ignored. -/
def serve (s : Server) (i : ℕ) (statuses : ℕ → Statuses) (words : List ℤ) :
    Option (List ℤ) × Server :=
  match words with
  | [] => (none, s)
  | cmd :: args => s.command i statuses cmd args

/-- A new connection; all are dropped when there are too many. -/
def accept (s : Server) : Server :=
  let kept := if s.connections.length = MAX_CONNECTIONS then [] else s.connections
  { s with connections := kept ++ [0] }

/-! ### The kill loop -/

/-- What is found and done in one turn of the kill loop. -/
structure World where
  /-- Resident sizes, as the choice of the victim finds them. -/
  rssKb : ℤ → Option ℤ
  /-- The processes, once the victim is chosen. -/
  status : Statuses
  /-- `kill(pid, SIGKILL)` succeeds. -/
  kill : ℤ → Bool
  taskName : ℤ → Option Bytes
  /-- The size of a page. -/
  pageKb : ℕ

/-- A call of `kill(pid, SIGKILL)`, and whether it succeeded. -/
structure Signal where
  pid : ℤ
  ok : Bool
  deriving DecidableEq

def World.sigkill (w : World) (pid : ℤ) : Signal := ⟨pid, w.kill pid⟩

/-- A turn of the kill loop: its victim, and the signal, which is not sent if the pid is now one of
a thread. -/
structure Turn where
  victim : Proc
  signal : Option Signal
  deriving DecidableEq

def Turn.killed (t : Turn) : Bool := t.signal.any Signal.ok

/-- The packets to the subscribed clients after a kill. -/
def notify (s : Server) (w : World) (mem : Memory) (minAdj : ℤ) (v : Proc) : List (ℕ × Sent) :=
  let rssKb := ((w.status v.pid).map Status.rssKb).getD 0
  let stat := (w.taskName v.pid).map fun taskname =>
    { uid := v.uid, taskname, oomScore := v.adj, minOomScore := minAdj,
      freeMemKb := Int.bmod (mem.free * w.pageKb) (2 ^ 64), rssKb : KillStat }
  s.connections.zipIdx.flatMap fun (events, i) =>
    (if events.testBit LMK_ASYNC_EVENT_KILL then [(i, .prockill v.pid v.uid rssKb)] else []) ++
    (match stat with
      | some stat => if events.testBit LMK_ASYNC_EVENT_STAT then [(i, .killOccurred stat)] else []
      | none => [])

/-- What a check does. -/
structure Checked where
  /-- The turns of the kill loop. -/
  turns : List Turn
  sent : List (ℕ × Sent)
  server : Server

/-- Kill the first victim at or above `minAdj` that can be killed.  Every turn takes one process off
the table, so that as many turns as there are processes do (`killLoop_done`). -/
def killLoop (mem : Memory) (worlds : ℕ → World) (minAdj : ℤ) : (fuel k : ℕ) → Server → Checked
  | 0, _, s => ⟨[], [], s⟩
  | fuel + 1, k, s =>
    match s.procs.victim minAdj (worlds k).rssKb with
    | none => ⟨[], [], s⟩
    | some v =>
      let s := { s with procs := s.procs.remove v.pid }
      if ((worlds k).status v.pid).any fun st => st.tgid ≠ v.pid then
        let rest := killLoop mem worlds minAdj fuel (k + 1) s
        { rest with turns := ⟨v, none⟩ :: rest.turns }
      else
        let signal := (worlds k).sigkill v.pid
        if !signal.ok then
          let rest := killLoop mem worlds minAdj fuel (k + 1) s
          { rest with turns := ⟨v, some signal⟩ :: rest.turns }
        else
          ⟨[⟨v, some signal⟩], s.notify (worlds k) mem minAdj v,
            { s with procs := s.procs.killed v.adj }⟩

/-- Read the host's memory and kill once if it calls for it. -/
def check (s : Server) (mem : Memory) (worlds : ℕ → World) : Checked :=
  let s := { s with level := mem.level }
  match minScoreAdj mem s.targets with
  | none => ⟨[], [], s⟩
  | some minAdj => killLoop mem worlds minAdj s.procs.procs.entries.length 0 s

end Server

/-! ### Runs -/

/-- What may happen to the server. -/
inductive Event where
  | packet (i : ℕ) (words : List ℤ) (statuses : ℕ → Statuses)
  | accept
  | closed (i : ℕ)
  | check (mem : Memory) (worlds : ℕ → Server.World)

def Server.step (s : Server) : Event → Server
  | .packet i words statuses => (s.serve i statuses words).2
  | .accept => s.accept
  | .closed i => { s with connections := s.connections.eraseIdx i }
  | .check mem worlds => (s.check mem worlds).server

/-- The server after the events, from its start. -/
def Server.run (events : List Event) : Server := events.foldl step .new

end Aim.Lmkd
