import Aim.Support.Bytes
import Aim.Support.Forest
import Aim.Support.Program

/-!
# Mounts — the mount records of a namespace

A mount namespace keeps its mounts as a list of records, each with the id of its parent.  The base
of the namespace defines mounts line by line; events define more, remove, detach and move them, and
set how they propagate.

Ids come from a counter in a file that all namespaces of the runtime share, so the ids taken by
others in between are part of the state (`Ids`).  A call that fails is not written back.

* `initializeBase`, `replaceBase`, `bindBase`, `apply`, `syncProjections`, `cloneMounts`: the calls.
* `State`, `Op`, `step`: a namespace and the calls made on it.
-/

namespace Mounts

/-! ### Text -/

def slash : UInt8 := 47
def tab : UInt8 := 9

/-- `str::lines`: a line ends with a newline, and a carriage return before it goes too. -/
def lines (text : Bytes) : List Bytes :=
  let parts := Bytes.split 10 text
  let ended := parts.dropLast.map fun l => if l.getLast? = some 13 then l.dropLast else l
  match parts.getLast? with
  | some (b :: bs) => ended ++ [b :: bs]
  | _ => ended

/-- `str::strip_prefix`. -/
def stripStart (start text : Bytes) : Option Bytes :=
  if start.isPrefixOf text then some (text.drop start.length) else none

/-- `trim_end_matches('/')`. -/
def trimSlashes (path : Bytes) : Bytes := (path.reverse.dropWhile (· = slash)).reverse

/-- `str::split_once('\t')`. -/
def splitTab : Bytes → Option (Bytes × Bytes) := List.splitOnce tab

/-- `str::parse::<u64>`. -/
def parseU64 (text : Bytes) : Option ℕ :=
  let digits := match text with
    | 43 :: ds => ds
    | ds => ds
  if digits = [] ∨ digits.any (fun b => b < 48 || 57 < b) then none
  else
    let n := digits.foldl (fun n b => n * 10 + (b.toNat - 48)) 0
    if n < 2 ^ 64 then some n else none

/-! ### Records -/

/-- `MountRecord`: an installed mount. -/
structure MountRecord where
  id : ℕ
  origin : ℕ
  parent : ℕ
  shared : ℕ
  master : ℕ
  kind : Bytes
  guest : Bytes
  host : Bytes
  source : Bytes
  fstype : Bytes
  root : Bytes
  own : Bool
  deriving DecidableEq

inductive Error where
  /-- `EPROTO`. -/
  | protocol
  /-- `EOVERFLOW`. -/
  | overflow
  deriving DecidableEq

/-- The file of ids: the last one given out, and how many the other namespaces take before each of
the next calls of `allocate`. -/
structure Ids where
  last : ℕ
  others : List ℕ
  deriving DecidableEq

abbrev M := Prog Empty Error Ids

/-- `allocate`: the next `count` ids. -/
def allocate (count : ℕ) : M (List ℕ) := fun ids =>
  let old := ids.last + ids.others.headD 0
  let next := old + count
  if next ≤ 2 ^ 31 - 1 then .ok ((List.range count).map (old + 1 + ·)) ⟨next, ids.others.tail⟩
  else .err .overflow ⟨old, ids.others.tail⟩

/-- `allocate(owner, 1)?[0]`. -/
def allocateOne : M ℕ := do
  let ids ← allocate 1
  return ids.headD 0

/-- `below`: the path `child` lies below `parent`. -/
def below (parent child : Bytes) : Bool :=
  (parent = [slash] && child.head? = some slash) ||
    (stripStart parent child).any fun rest => rest.head? = some slash

/-- The kinds a definition may have; a cgroup hierarchy's is `cgroup:` and a controller's name. -/
def kinds : List Bytes :=
  ["root", "ro", "rw", "kernfs", "cgroup2", "bpf", "input", "host-device", "cgroup:blkio",
    "cgroup:cpu", "cgroup:cpuset"].map Bytes.ofAscii

/-- `definition`: the mount a line defines, if it defines one. -/
def definition (line : Bytes) (own : Bool) : Except Error (Option MountRecord) :=
  match Bytes.split tab line with
  | kind :: guest :: host :: rest =>
    if kind ∉ kinds then .ok none
    else if guest.head? ≠ some slash ∨ host.head? ≠ some slash then .error .protocol
    else .ok <| some
      { id := 0, origin := 0, parent := 0, shared := 0, master := 0
        kind := kind, guest := guest, host := host
        source := rest.getD 0 [], fstype := rest.getD 1 []
        root := [slash], own := own }
  | _ => .ok none

/-- The definitions of a base. -/
def definitions (base : Bytes) : Except Error (List MountRecord) := do
  let found ← (lines base).mapM fun line => definition line false
  return found.reduceOption

/-- An error of a pure part, in a call. -/
def ofExcept {α : Type} : Except Error α → M α
  | .ok a => pure a
  | .error e => Prog.throw e

/-- `max_by_key(|m| (m.guest.len(), m.id))`: the longest path, and the last of them. -/
def deepest (ms : List MountRecord) : Option MountRecord :=
  ms.reverse.argmax fun m => toLex (m.guest.length, m.id)

/-- `max_by_key(|m| m.id)`. -/
def newest (ms : List MountRecord) : Option MountRecord := ms.reverse.argmax (·.id)

/-- `insert`: a new mount on the deepest one at its path or above, sharing if that one does. -/
def insert (ms : List MountRecord) (record : MountRecord) : M (List MountRecord) := do
  let id ← allocateOne
  let on := deepest (ms.filter fun m => m.guest = record.guest || below m.guest record.guest)
  let parent := (on.map (·.id)).getD id
  let shares := (ms.find? fun m => m.id = parent).any fun p => p.shared ≠ 0
  let shared ← if record.shared = 0 ∧ shares then allocateOne else pure record.shared
  return ms ++ [{ record with id := id, parent := parent, shared := shared }]

/-! ### Propagation and bind sources -/

/-- What one propagation rule does to a mount it is about. -/
def applyRule (kind : Bytes) (m : MountRecord) : M MountRecord :=
  if kind = Bytes.ofAscii "private" then pure { m with shared := 0, master := 0 }
  else if kind = Bytes.ofAscii "slave" then
    pure { m with master := if m.shared ≠ 0 then m.shared else m.master, shared := 0 }
  else if kind = Bytes.ofAscii "shared" then
    if m.shared = 0 then do
      let id ← allocateOne
      return { m with shared := id }
    else pure m
  else Prog.throw .protocol

/-- The propagation rule of a line: its target, what it makes of the mounts, and whether of those
below the target too. -/
def rule (line : Bytes) : Except Error (Option (Bytes × Bytes × Bool)) :=
  match Bytes.split tab line with
  | [word, target, arg] =>
    if word = Bytes.ofAscii "propagation" then .ok (some (target, arg, true))
    else if word = Bytes.ofAscii "propagation-flags" then
      match parseU64 arg with
      | none => .error .protocol
      | some flags =>
        .ok <| some (target,
          if flags.testBit 19 then Bytes.ofAscii "slave"
          else if flags.testBit 20 then Bytes.ofAscii "shared"
          else Bytes.ofAscii "private",
          flags.testBit 14)
    else .ok none
  | _ => .ok none

/-- The first loop of `apply_policies`, at one line. -/
def applyRuleLine (ms : List MountRecord) (line : Bytes) : M (List MountRecord) := do
  match ← ofExcept (rule line) with
  | none => return ms
  | some (target, kind, recursive) =>
    ms.mapM fun m =>
      if m.guest = target || recursive && below target m.guest then applyRule kind m else pure m

/-- The last propagation an event names for a path. -/
def lastPropagation (event : List Bytes) (path : Bytes) : Option Bytes :=
  (event.filterMap fun line =>
    match Bytes.split tab line with
    | [word, target, kind] =>
      if word = Bytes.ofAscii "propagation" ∧ target = path then some kind else none
    | _ => none).getLast?

/-- `f` of the last element that passes the test. -/
def modifyLast {α : Type} (p : α → Bool) (f : α → α) (l : List α) : List α :=
  let rec go : List α → List α
    | [] => []
    | a :: l => if p a then f a :: l else a :: go l
  (go l.reverse).reverse

/-- What a bind source makes of its target. -/
def bindFrom (event : List Bytes) (target source : Bytes) (origin m : MountRecord) : MountRecord :=
  let root := trimSlashes origin.root ++ source.drop (trimSlashes origin.guest).length
  let m := { m with
    root := if root = [] then [slash] else root
    shared := origin.shared
    master := origin.master }
  match lastPropagation event target with
  | some kind =>
    if kind = Bytes.ofAscii "private" then { m with shared := 0, master := 0 }
    else if kind = Bytes.ofAscii "slave" then { m with shared := 0, master := origin.shared }
    else m
  | none => m

/-- The second loop of `apply_policies`, at one line. -/
def applyBindLine (event : List Bytes) (ms : List MountRecord) (line : Bytes) :
    M (List MountRecord) :=
  match Bytes.split tab line with
  | [word, target, source] =>
    if word = Bytes.ofAscii "bind-source" then
      let origin := deepest (ms.filter fun m =>
        m.guest ≠ target && (m.guest = source || below m.guest source))
      if ms.any fun m => m.guest = target then
        match origin with
        | some origin =>
          pure (modifyLast (fun m => m.guest = target) (bindFrom event target source origin) ms)
        | none => Prog.throw .protocol
      else pure ms
    else pure ms
  | _ => pure ms

def applyPolicies (ms : List MountRecord) (event : Bytes) : M (List MountRecord) := do
  let ms ← (lines event).foldlM applyRuleLine ms
  (lines event).foldlM (applyBindLine (lines event)) ms

/-- `lines.join("\n")`. -/
def joinLines (ls : List Bytes) : Bytes := [10].intercalate ls

/-! ### Parents -/

/-- `repair_parents`: a mount whose parent is gone is put on the deepest mount above its path. -/
def repairParents (ms : List MountRecord) : List MountRecord :=
  ms.map fun m =>
    if ms.any fun p => p.id = m.parent then m
    else
      { m with
        parent := ((deepest (ms.filter fun o => o.id ≠ m.id && below o.guest m.guest)).map
          (·.id)).getD m.id }

def validate (ms : List MountRecord) : M Unit :=
  if (ms.map (·.id)).Nodup ∧ ∀ m ∈ ms, m.id ≠ 0 ∧ m.id ≤ 2 ^ 31 - 1 ∧ ∃ p ∈ ms, p.id = m.parent then
    pure ()
  else Prog.throw .protocol

/-! ### The calls -/

/-- `initialize`: the mounts of a base, shorter paths first. -/
def initializeBase (base : Bytes) : M (List MountRecord) := do
  let defs ← ofExcept (definitions base)
  let defs := defs.insertionSort fun a b => a.guest.length ≤ b.guest.length
  let ms ← defs.foldlM insert []
  let ms ← applyPolicies ms base
  validate ms
  return ms

/-- A definition is installed by the base: at the same path, from the same host path, of the same
kind. -/
def installs (d m : MountRecord) : Bool := d.guest = m.guest && d.host = m.host && d.kind = m.kind

/-- A definition of the base, inserted unless it is installed. -/
def insertBase (ms : List MountRecord) (d : MountRecord) : M (List MountRecord) :=
  if ms.any fun m => !m.own && installs d m then pure ms else insert ms d

def replaceBase (ms : List MountRecord) (oldBase base : Bytes) : M (List MountRecord) := do
  let defs ← ofExcept (definitions base)
  let ms := ms.filter fun m => m.own || defs.any fun d => installs d m
  let ms ← defs.foldlM insertBase ms
  let ms ← applyPolicies ms (joinLines ((lines base).filter fun l => l ∉ lines oldBase))
  let ms := repairParents ms
  validate ms
  return ms

/-- The mounts that have gone, put back at the end. -/
def putBack (ms previous : List MountRecord) : List MountRecord :=
  previous.foldl (fun ms item => if ms.any fun m => m.id = item.id then ms else ms ++ [item]) ms

/-- The newest mount at `target` other than `old` is put on `old`. -/
def putOn (ms : List MountRecord) (target : Bytes) (old : ℕ) : List MountRecord :=
  match newest (ms.filter fun m => m.guest = target && m.id ≠ old) with
  | some top =>
    modifyLast (fun m => m.guest = target && m.id = top.id) (fun m => { m with parent := old }) ms
  | none => ms

/-- `bind_base`: the base with a mount at `target`, over the mounts that are there. -/
def bindBase (ms : List MountRecord) (oldBase base target : Bytes) : M (List MountRecord) := do
  let previous := ms.filter fun m => m.guest = target
  let old := (newest previous).map (·.id)
  let ms ← replaceBase ms oldBase base
  let defs ← ofExcept (definitions base)
  let d ← Prog.orThrow .protocol (defs.find? fun d => d.guest = target)
  let latest := (newest (ms.filter fun m => m.guest = target && m.host = d.host)).map (·.id)
  let ms := putBack ms previous
  let ms ← if latest = old then insert ms d else pure ms
  let ms := match old with
    | some old => putOn ms target old
    | none => ms
  let rules := (lines base).filter fun l =>
    (Bytes.ofAscii "bind-source\t" ++ target ++ [tab]).isPrefixOf l ||
      (Bytes.ofAscii "propagation\t" ++ target ++ [tab]).isPrefixOf l
  let ms ← applyPolicies ms (joinLines rules)
  validate ms
  return ms

/-- `remove`: the last mount of the namespace's own at a path. -/
def removeAt (ms : List MountRecord) (target : Bytes) : List MountRecord :=
  (ms.reverse.eraseP fun m => m.own && m.guest = target).reverse

/-- `detach`: the last mount of the namespace's own at a path, and all that is under it. -/
def detachAt (ms : List MountRecord) (target : Bytes) : List MountRecord :=
  match ms.reverse.find? fun m => m.own && m.guest = target with
  | some top =>
    let detached := Forest.growAll MountRecord.id MountRecord.parent ms (ms.length + 1) {top.id}
    ms.filter fun m => m.id ∉ detached
  | none => ms

/-- Whether a move from a path takes a mount with it. -/
def moves (source : Bytes) (m : MountRecord) : Bool :=
  m.own && (m.guest = source || below source m.guest)

/-- `move`: the namespace's own mounts at a path and below it. -/
def moveTo (ms : List MountRecord) (source target : Bytes) : List MountRecord :=
  ms.map fun m =>
    if moves source m then { m with guest := target ++ m.guest.drop source.length } else m

/-- The loop of `apply`, at one line. -/
def applyLine (ms : List MountRecord) (line : Bytes) : M (List MountRecord) :=
  match stripStart (Bytes.ofAscii "remove\t") line with
  | some target => pure (removeAt ms target)
  | none =>
    match stripStart (Bytes.ofAscii "detach\t") line with
    | some target => pure (detachAt ms target)
    | none =>
      match stripStart (Bytes.ofAscii "move\t") line with
      | some rest =>
        match splitTab rest with
        | some (source, target) => pure (moveTo ms source target)
        | none => Prog.throw .protocol
      | none =>
        match definition line true with
        | .ok (some record) => insert ms record
        | .ok none => pure ms
        | .error e => Prog.throw e

/-- `apply`: an event. -/
def apply (ms : List MountRecord) (event : Bytes) : M (List MountRecord) := do
  let ms ← (lines event).foldlM applyLine ms
  let ms ← applyPolicies ms event
  let ms := repairParents ms
  validate ms
  return ms

/-- The new id of a mount. -/
def translate (ms : List MountRecord) (ids : List ℕ) (id : ℕ) : Option ℕ :=
  ((ms.map (·.id)).zip ids).reverse.lookup id

/-- `clone_mounts`: the same mounts under new ids. -/
def cloneMounts (ms : List MountRecord) : M (List MountRecord) := do
  let ids ← allocate ms.length
  ms.mapM fun m => do
    let parent ← Prog.orThrow .protocol (translate ms ids m.parent)
    -- the id of a mount of the list always has a translation
    return { m with parent := parent, id := (translate ms ids m.id).getD 0 }

def projected : Bytes := Bytes.ofAscii "projected"

/-- A live mount is the one recorded. -/
def same (a b : MountRecord) : Bool :=
  a.guest = b.guest && a.host = b.host && (a.kind ≠ projected || a.origin = b.origin)

/-- A live mount, inserted unless it is recorded. -/
def insertLive (ms : List MountRecord) (item : MountRecord) : M (List MountRecord) :=
  if ms.any fun m => same m item then pure ms else insert ms item

/-- `sync_projections`: the projected mounts are the live ones; and whether any was not. -/
def syncProjections (ms live : List MountRecord) : M (Bool × List MountRecord) := do
  let kept := ms.filter fun m => m.kind ≠ projected || live.any fun item => same m item
  let all ← live.foldlM insertLive kept
  let changed := decide (kept.length ≠ ms.length) || decide (all.length ≠ kept.length)
  let all := repairParents all
  validate all
  return (changed, all)

/-! ### A namespace -/

structure State where
  ids : Ids
  base : Bytes
  mounts : List MountRecord

inductive Op where
  | replaceBase (base : Bytes)
  | bindBase (base target : Bytes)
  | apply (event : Bytes)
  | syncProjections (live : List MountRecord)
  | cloneMounts

/-- The namespace after a call that returns a table of mounts: one that fails leaves the mounts and
the base as they were. -/
def State.after (s : State) (base : Bytes) : Outcome Empty Error Ids (List MountRecord) → State
  | .ok ms ids => ⟨ids, base, ms⟩
  | .err _ ids => { s with ids := ids }
  | .fault f _ => f.elim

def step (s : State) : Op → State
  | .replaceBase base => s.after base (replaceBase s.mounts s.base base s.ids)
  | .bindBase base target => s.after base (bindBase s.mounts s.base base target s.ids)
  | .apply event => s.after s.base (apply s.mounts event s.ids)
  | .syncProjections live =>
    s.after s.base ((Prod.snd <$> syncProjections s.mounts live : M (List MountRecord)) s.ids)
  | .cloneMounts => s.after s.base (cloneMounts s.mounts s.ids)

end Mounts
