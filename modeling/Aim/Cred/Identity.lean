import Aim.Mounts.Records
import Aim.Support.Numerals

/-!
# Credentials — the identity of a process

`cred.rs`: user and group ids, capabilities and securebits under the kernel's rules.

* `Identity` and its text, in which it travels to a forked child and through an exec.
* `execTransform`, `fixSetuid`, `fixSetfsuid`: what the kernel does to the capability sets.
* `setid` … `prctl`: the calls.  A call gets the words it reads from the guest's memory; `none` is a
  fault.
* `Event`, `step`, `run`: the life of a process; at a fork the child is followed.
-/

namespace Cred

open Mounts (lines splitTab tab)

/-- A set of capabilities: bit `i` is capability `i`. -/
abbrev Caps := BitVec 64

def CAP_LAST_CAP : ℕ := 40
def CAP_FULL : Caps := (1#64 <<< (CAP_LAST_CAP + 1)) - 1#64
def CAP_SETGID : ℕ := 6
def CAP_SETUID : ℕ := 7
def CAP_SETPCAP : ℕ := 8
/-- Capabilities that follow the fsuid. -/
def CAP_FS_MASK : Caps :=
  1#64 <<< 0 ||| 1#64 <<< 1 ||| 1#64 <<< 2 ||| 1#64 <<< 3 ||| 1#64 <<< 4 ||| 1#64 <<< 9 |||
    1#64 <<< 27 ||| 1#64 <<< 32

def SECBIT_NOROOT : BitVec 32 := 1#32 <<< 0
def SECBIT_NO_SETUID_FIXUP : BitVec 32 := 1#32 <<< 2
def SECBIT_KEEP_CAPS : BitVec 32 := 1#32 <<< 4
/-- The three flags and their locks. -/
def SECBITS_MASK : BitVec 32 := 0x3f#32

def NGROUPS_MAX : ℕ := 65536
def RLIM_NLIMITS : ℕ := 16

def EPERM : ℤ := 1
def EFAULT : ℤ := 14
def EINVAL : ℤ := 22

/-- The ids of a process, of users or of groups. -/
structure Ids where
  real : UInt32
  eff : UInt32
  saved : UInt32
  fs : UInt32
  deriving DecidableEq

/-- `[v; 4]`. -/
def Ids.all (v : UInt32) : Ids := ⟨v, v, v, v⟩

structure Identity where
  /-- The service it was started for. -/
  service : Bytes := []
  uid : Ids := .all 0
  gid : Ids := .all 0
  groups : List UInt32 := []
  capEff : Caps := CAP_FULL
  capPerm : Caps := CAP_FULL
  capInh : Caps := 0
  capBset : Caps := CAP_FULL
  capAmb : Caps := 0
  securebits : BitVec 32 := 0
  seclabel : Bytes := []
  priority : Int32 := 0
  oomScoreAdj : Int32 := 0
  rlimits : Fin RLIM_NLIMITS → Option (UInt64 × UInt64) := fun _ => none

/-! ### The text of an identity -/

/-- The keys of the identity file. -/
inductive Key where
  | service | uid | gid | euid | egid | suid | sgid | groups
  | capEffective | capPermitted | capInheritable | capAmbient | capBounding
  | securebits | seclabel | priority | oomScoreAdj | rlimit
  deriving DecidableEq

namespace Key

def text : Key → Bytes
  | service => .ofAscii "service"
  | uid => .ofAscii "uid"
  | gid => .ofAscii "gid"
  | euid => .ofAscii "euid"
  | egid => .ofAscii "egid"
  | suid => .ofAscii "suid"
  | sgid => .ofAscii "sgid"
  | groups => .ofAscii "groups"
  | capEffective => .ofAscii "cap_effective"
  | capPermitted => .ofAscii "cap_permitted"
  | capInheritable => .ofAscii "cap_inheritable"
  | capAmbient => .ofAscii "cap_ambient"
  | capBounding => .ofAscii "cap_bounding"
  | securebits => .ofAscii "securebits"
  | seclabel => .ofAscii "seclabel"
  | priority => .ofAscii "priority"
  | oomScoreAdj => .ofAscii "oom_score_adj"
  | rlimit => .ofAscii "rlimit"

def all : List Key :=
  [service, uid, gid, euid, egid, suid, sgid, groups, capEffective, capPermitted, capInheritable,
    capAmbient, capBounding, securebits, seclabel, priority, oomScoreAdj, rlimit]

/-- The key a text names; `none` is a key that is ignored. -/
def ofText (text : Bytes) : Option Key := all.find? (·.text = text)

end Key

def newline : UInt8 := 10
def space : UInt8 := 32

def num : Bytes → Option ℕ
  | 48 :: 120 :: hex => Numerals.parseNat 16 (2 ^ 64) hex
  | v => Numerals.parseNat 10 (2 ^ 64) v

/-- `num(v)? as u32`. -/
def num32 (v : Bytes) : Option UInt32 := (num v).map UInt32.ofNat

def unlimited : Bytes := .ofAscii "unlimited"

def limit (v : Bytes) : Option UInt64 :=
  if v = unlimited then some (UInt64.ofNat (2 ^ 64 - 1)) else (num v).map UInt64.ofNat

def limitText (v : UInt64) : Bytes :=
  if v = UInt64.ofNat (2 ^ 64 - 1) then unlimited else Numerals.print 10 v.toNat

/-- What `parse` has read. -/
structure Parse where
  id : Identity := {}
  euid : Option UInt32 := none
  egid : Option UInt32 := none
  suid : Option UInt32 := none
  sgid : Option UInt32 := none
  capsGiven : Bool := false

namespace Parse

/-- The sets of a file that gives any: those it does not give are empty. -/
def giveCaps (s : Parse) : Parse :=
  if s.capsGiven then s
  else
    { s with
      id := { s.id with capEff := 0, capPerm := 0, capInh := 0, capAmb := 0 }
      capsGiven := true }

def caps (v : Bytes) : Option Caps := (num v).map fun n => BitVec.ofNat 64 n &&& CAP_FULL

/-- One line. -/
def field (s : Parse) (key : Option Key) (value : Bytes) : Option Parse :=
  match key with
  | some .service => some { s with id.service := value }
  | some .uid => (num32 value).map fun v => { s with id.uid := .all v }
  | some .gid => (num32 value).map fun v => { s with id.gid := .all v }
  | some .euid => (num32 value).map fun v => { s with euid := some v }
  | some .egid => (num32 value).map fun v => { s with egid := some v }
  | some .suid => (num32 value).map fun v => { s with suid := some v }
  | some .sgid => (num32 value).map fun v => { s with sgid := some v }
  | some .groups =>
    (((Bytes.split space value).filter (· ≠ [])).mapM num32).map fun g => { s with id.groups := g }
  | some .capEffective => (caps value).map fun v => { s.giveCaps with id.capEff := v }
  | some .capPermitted => (caps value).map fun v => { s.giveCaps with id.capPerm := v }
  | some .capInheritable => (caps value).map fun v => { s.giveCaps with id.capInh := v }
  | some .capAmbient => (caps value).map fun v => { s.giveCaps with id.capAmb := v }
  | some .capBounding => (caps value).map fun v => { s.giveCaps with id.capBset := v }
  | some .securebits =>
    (num value).map fun n => { s with id.securebits := BitVec.ofNat 32 n &&& SECBITS_MASK }
  | some .seclabel => some { s with id.seclabel := value }
  | some .priority =>
    (Numerals.parseI32 value).map fun v => { s with id.priority := Int32.ofInt v }
  | some .oomScoreAdj =>
    (Numerals.parseI32 value).map fun v => { s with id.oomScoreAdj := Int32.ofInt v }
  | some .rlimit =>
    match Bytes.split tab value with
    | [res, soft, hard] => do
      let res ← num res
      if h : res < RLIM_NLIMITS then do
        let soft ← limit soft
        let hard ← limit hard
        some { s with id.rlimits := Function.update s.id.rlimits ⟨res, h⟩ (some (soft, hard)) }
      else some s
    | _ => none
  | none => some s

/-- Ids, and the effective and the saved one if they are given. -/
def ids (base : Ids) (eff saved : Option UInt32) : Ids :=
  let ids : Ids := match eff with
    | some e => { base with eff := e, saved := e, fs := e }
    | none => base
  match saved with
  | some s => { ids with saved := s }
  | none => ids

/-- The identity, once every line is read. -/
def finish (s : Parse) : Identity :=
  let uid := ids s.id.uid s.euid s.suid
  let gid := ids s.id.gid s.egid s.sgid
  let id := { s.id with uid, gid }
  -- init leaves a non-root service without capabilities.
  if s.capsGiven = false ∧ uid.eff ≠ 0 then { id with capEff := 0, capPerm := 0 } else id

end Parse

def parseLine (s : Parse) (line : Bytes) : Option Parse :=
  if line = [] ∨ line.head? = some 35 then some s
  else do
    let (key, value) ← splitTab line
    s.field (Key.ofText key) value

namespace Identity

def parse (text : Bytes) : Option Identity :=
  ((lines text).foldlM parseLine {}).map Parse.finish

/-- `{:#x}`. -/
def hex (n : ℕ) : Bytes := 48 :: 120 :: Numerals.print 16 n

def decimal (v : UInt32) : Bytes := Numerals.print 10 v.toNat

/-- A line that is written only if `c`. -/
def fieldIf (c : Bool) (key : Key) (value : Bytes) : List (Key × Bytes) :=
  if c then [(key, value)] else []

/-- The lines of the text, up to the capabilities. -/
def idFields (id : Identity) : List (Key × Bytes) :=
  List.flatten
    [[(.service, id.service), (.uid, decimal id.uid.real), (.gid, decimal id.gid.real)],
      fieldIf (id.uid.eff ≠ id.uid.real) .euid (decimal id.uid.eff),
      fieldIf (id.gid.eff ≠ id.gid.real) .egid (decimal id.gid.eff),
      fieldIf (id.uid.saved ≠ id.uid.eff) .suid (decimal id.uid.saved),
      fieldIf (id.gid.saved ≠ id.gid.eff) .sgid (decimal id.gid.saved),
      [(.groups, [space].intercalate (id.groups.map decimal))]]

def capFields (id : Identity) : List (Key × Bytes) :=
  [(.capEffective, hex id.capEff.toNat), (.capPermitted, hex id.capPerm.toNat),
    (.capInheritable, hex id.capInh.toNat), (.capAmbient, hex id.capAmb.toNat),
    (.capBounding, hex id.capBset.toNat)]

def attributeFields (id : Identity) : List (Key × Bytes) :=
  fieldIf (id.securebits ≠ 0) .securebits (hex id.securebits.toNat) ++
    [(.seclabel, id.seclabel), (.priority, Numerals.printInt id.priority.toInt),
      (.oomScoreAdj, Numerals.printInt id.oomScoreAdj.toInt)]

def rlimitFields (id : Identity) : List (Key × Bytes) :=
  (List.finRange RLIM_NLIMITS).filterMap fun res =>
    (id.rlimits res).map fun l =>
      (.rlimit, Numerals.print 10 res ++ tab :: (limitText l.1 ++ tab :: limitText l.2))

/-- The lines of the text: their keys and values. -/
def fields (id : Identity) : List (Key × Bytes) :=
  id.idFields ++ (id.capFields ++ (id.attributeFields ++ id.rlimitFields))

def header : Bytes := .ofAscii "# aim-guest-init identity v1"

/-- The text of an identity.  Filesystem ids are not kept. -/
def toText (id : Identity) : Bytes :=
  header ++ newline :: id.fields.flatMap fun (key, value) =>
    key.text ++ tab :: (value ++ [newline])

/-! ### The kernel's rules -/

def capable (id : Identity) (cap : ℕ) : Bool := id.capEff &&& (1#64 <<< cap) ≠ 0

/-- Credentials after the exec of a file with no capabilities and no set-id bits. -/
def execTransform (id : Identity) : Identity :=
  let uid := { id.uid with saved := id.uid.eff, fs := id.uid.eff }
  let gid := { id.gid with saved := id.gid.eff, fs := id.gid.eff }
  let root := id.securebits &&& SECBIT_NOROOT = 0 ∧ (uid.real = 0 ∨ uid.eff = 0)
  let amb := id.capAmb &&& (id.capPerm &&& id.capInh)
  let perm := if root then (id.capInh ||| id.capBset ||| amb) &&& CAP_FULL else amb
  let eff := if root ∧ uid.eff = 0 then perm else amb
  { id with
    uid, gid
    capAmb := amb
    capPerm := perm
    capEff := eff
    securebits := id.securebits &&& ~~~SECBIT_KEEP_CAPS }

/-- The last uid 0 is given up. -/
def dropRoot (id : Identity) (old : Ids) : Identity :=
  if (old.real = 0 ∨ old.eff = 0 ∨ old.saved = 0) ∧
      id.uid.real ≠ 0 ∧ id.uid.eff ≠ 0 ∧ id.uid.saved ≠ 0 then
    if id.securebits &&& SECBIT_KEEP_CAPS = 0 then { id with capPerm := 0, capEff := 0, capAmb := 0 }
    else { id with capAmb := 0 }
  else id

/-- The effective uid is no longer 0. -/
def dropEffective (id : Identity) (old : Ids) : Identity :=
  if old.eff = 0 ∧ id.uid.eff ≠ 0 then { id with capEff := 0 } else id

/-- The effective uid is now 0. -/
def raiseEffective (id : Identity) (old : Ids) : Identity :=
  if old.eff ≠ 0 ∧ id.uid.eff = 0 then { id with capEff := id.capPerm } else id

/-- Fixups after the uids changed. -/
def fixSetuid (id : Identity) (old : Ids) : Identity :=
  if id.securebits &&& SECBIT_NO_SETUID_FIXUP ≠ 0 then id
  else ((id.dropRoot old).dropEffective old).raiseEffective old

def dropFs (id : Identity) (old : UInt32) : Identity :=
  if old = 0 ∧ id.uid.fs ≠ 0 then { id with capEff := id.capEff &&& ~~~CAP_FS_MASK } else id

def raiseFs (id : Identity) (old : UInt32) : Identity :=
  if old ≠ 0 ∧ id.uid.fs = 0 then
    { id with capEff := id.capEff ||| (id.capPerm &&& CAP_FS_MASK) }
  else id

/-- Fixups after the fsuid changed. -/
def fixSetfsuid (id : Identity) (oldFs : UInt32) : Identity :=
  if id.securebits &&& SECBIT_NO_SETUID_FIXUP ≠ 0 then id
  else (id.dropFs oldFs).raiseFs oldFs

end Identity

/-! ### The calls -/

/-- Users or groups: the form of a call. -/
inductive Who where
  | user
  | group
  deriving DecidableEq

namespace Who

def cap : Who → ℕ
  | user => CAP_SETUID
  | group => CAP_SETGID

def ids (w : Who) (id : Identity) : Ids :=
  match w with
  | user => id.uid
  | group => id.gid

/-- The new ids, and the fixups if they are those of users. -/
def set (w : Who) (id : Identity) (new : Ids) : Identity :=
  match w with
  | user => { id with uid := new }.fixSetuid id.uid
  | group => { id with gid := new }

end Who

def KEEP : UInt32 := UInt32.ofNat (2 ^ 32 - 1)

/-- What a call leaves and returns. -/
abbrev Reply := Identity × ℤ

def setid (w : Who) (a0 : UInt64) (id : Identity) : Reply :=
  let v := a0.toUInt32
  if v = KEEP then (id, -EINVAL)
  else
    let old := w.ids id
    if id.capable w.cap then (w.set id (.all v), 0)
    else if v = old.real ∨ v = old.saved then (w.set id { old with eff := v, fs := v }, 0)
    else (id, -EPERM)

/-- An argument, unless it keeps the id. -/
def pick (v old : UInt32) : UInt32 := if v ≠ KEEP then v else old

/-- The ids after `setreuid(r, e)`. -/
def Ids.setre (old : Ids) (r e : UInt32) : Ids where
  real := pick r old.real
  eff := pick e old.eff
  saved := if r ≠ KEEP ∨ (e ≠ KEEP ∧ e ≠ old.real) then pick e old.eff else old.saved
  fs := pick e old.eff

def setreid (w : Who) (a0 a1 : UInt64) (id : Identity) : Reply :=
  let r := a0.toUInt32
  let e := a1.toUInt32
  let old := w.ids id
  if id.capable w.cap = false ∧ ((r ≠ KEEP ∧ r ≠ old.real ∧ r ≠ old.eff) ∨
      (e ≠ KEEP ∧ e ≠ old.real ∧ e ≠ old.eff ∧ e ≠ old.saved)) then (id, -EPERM)
  else (w.set id (old.setre r e), 0)

/-- The ids after `setresuid(r, e, s)`. -/
def Ids.setres (old : Ids) (r e s : UInt32) : Ids where
  real := pick r old.real
  eff := pick e old.eff
  saved := pick s old.saved
  fs := pick e old.eff

def setresid (w : Who) (a0 a1 a2 : UInt64) (id : Identity) : Reply :=
  let new := [a0.toUInt32, a1.toUInt32, a2.toUInt32]
  let old := w.ids id
  if id.capable w.cap = false ∧
      ¬ ∀ v ∈ new, v = KEEP ∨ v ∈ [old.real, old.eff, old.saved] then (id, -EPERM)
  else (w.set id (old.setres a0.toUInt32 a1.toUInt32 a2.toUInt32), 0)

def setfsid (w : Who) (a0 : UInt64) (id : Identity) : Reply :=
  let v := a0.toUInt32
  let old := w.ids id
  if v ≠ KEEP ∧ (id.capable w.cap ∨ v ∈ [old.real, old.eff, old.saved, old.fs]) then
    match w with
    | .user => ({ id with uid.fs := v }.fixSetfsuid old.fs, old.fs.toNat)
    | .group => ({ id with gid.fs := v }, old.fs.toNat)
  else (id, old.fs.toNat)

/-- `list` is the guest's memory, in words. -/
def setgroups (size : UInt64) (list : ℕ → Option UInt32) (id : Identity) : Reply :=
  let size := size.toUInt32.toInt32
  if size < 0 ∨ NGROUPS_MAX < size.toNatClampNeg then (id, -EINVAL)
  else
    match (List.range size.toNatClampNeg).mapM list with
    | none => (id, -EFAULT)
    | some groups =>
      if id.capable CAP_SETGID = false then (id, -EPERM)
      else ({ id with groups }, 0)

def CAP_V1 : UInt32 := 0x19980330
def CAP_V2 : UInt32 := 0x20071026
def CAP_V3 : UInt32 := 0x20080522

/-- `cap_header`: the number of 32-bit data sets, if the version is one of the three. -/
def capHeader (version : Option UInt32) : Except ℤ ℕ :=
  match version with
  | none => .error (-EFAULT)
  | some v =>
    if v = CAP_V1 then .ok 1
    else if v = CAP_V2 ∨ v = CAP_V3 then .ok 2
    else .error (-EINVAL)

/-- A data set: effective, permitted, inheritable. -/
structure CapData where
  eff : UInt32
  perm : UInt32
  inh : UInt32

/-- The sets of the words. -/
def capWords (word : CapData → UInt32) (data : List CapData) : Caps :=
  (data.zipIdx.foldl
    (fun set d => set ||| (word d.1).toUInt64.toBitVec <<< (32 * d.2)) 0) &&& CAP_FULL

/-- `version` is the header's, `self` whether its pid is this process. -/
def capset (version : Option UInt32) (self : Bool) (data : ℕ → Option CapData) (id : Identity) :
    Reply :=
  match capHeader version with
  | .error e => (id, e)
  | .ok n =>
    if self = false then (id, -EPERM)
    else
      match (List.range n).mapM data with
      | none => (id, -EFAULT)
      | some data =>
        let eff := capWords (·.eff) data
        let perm := capWords (·.perm) data
        let inh := capWords (·.inh) data
        if id.capable CAP_SETPCAP = false ∧ inh &&& ~~~(id.capInh ||| id.capPerm) ≠ 0 then
          (id, -EPERM)
        else if inh &&& ~~~(id.capInh ||| id.capBset) ≠ 0 ∨ perm &&& ~~~id.capPerm ≠ 0 ∨
            eff &&& ~~~perm ≠ 0 then (id, -EPERM)
        else
          ({ id with
              capEff := eff, capPerm := perm, capInh := inh
              capAmb := id.capAmb &&& (perm &&& inh) }, 0)

def PR_GET_KEEPCAPS : UInt64 := 7
def PR_SET_KEEPCAPS : UInt64 := 8
def PR_CAPBSET_READ : UInt64 := 23
def PR_CAPBSET_DROP : UInt64 := 24
def PR_GET_SECUREBITS : UInt64 := 27
def PR_SET_SECUREBITS : UInt64 := 28
def PR_CAP_AMBIENT : UInt64 := 47
def PR_CAP_AMBIENT_IS_SET : UInt64 := 1
def PR_CAP_AMBIENT_RAISE : UInt64 := 2
def PR_CAP_AMBIENT_LOWER : UInt64 := 3
def PR_CAP_AMBIENT_CLEAR_ALL : UInt64 := 4

def capBit (c : UInt64) : Option Caps :=
  if c.toNat ≤ CAP_LAST_CAP then some (1#64 <<< c.toNat) else none

/-- Whether a flag or a capability is there. -/
def isSet {w : ℕ} (set bit : BitVec w) : ℤ := if set &&& bit ≠ 0 then 1 else 0

def setKeepcaps (a1 : UInt64) (id : Identity) : Reply :=
  if a1 = 0 ∨ a1 = 1 then
    ({ id with
        securebits := id.securebits &&& ~~~SECBIT_KEEP_CAPS |||
          a1.toUInt32.toBitVec * SECBIT_KEEP_CAPS }, 0)
  else (id, -EINVAL)

def capbsetRead (a1 : UInt64) (id : Identity) : Reply :=
  (id, match capBit a1 with
    | some b => isSet id.capBset b
    | none => -EINVAL)

def capbsetDrop (a1 : UInt64) (id : Identity) : Reply :=
  match capBit a1 with
  | some b =>
    if id.capable CAP_SETPCAP = false then (id, -EPERM)
    else ({ id with capBset := id.capBset &&& ~~~b }, 0)
  | none => (id, -EINVAL)

def setSecurebits (a1 : UInt64) (id : Identity) : Reply :=
  let bits : BitVec 32 := a1.toUInt32.toBitVec
  if bits &&& ~~~SECBITS_MASK ≠ 0 then (id, -EINVAL)
  else
    -- A locked bit, the one above each flag, freezes its flag.
    let locked := (id.securebits >>> 1) &&& 0x15#32
    if (bits ^^^ id.securebits) &&& (locked ||| locked <<< 1) ≠ 0 ∨
        id.capable CAP_SETPCAP = false then (id, -EPERM)
    else ({ id with securebits := bits }, 0)

def capAmbient (a1 a2 : UInt64) (id : Identity) : Reply :=
  if a1 = PR_CAP_AMBIENT_CLEAR_ALL ∧ a2 = 0 then ({ id with capAmb := 0 }, 0)
  else
    match capBit a2 with
    | none => (id, -EINVAL)
    | some b =>
      if a1 = PR_CAP_AMBIENT_IS_SET then (id, isSet id.capAmb b)
      else if a1 = PR_CAP_AMBIENT_LOWER then ({ id with capAmb := id.capAmb &&& ~~~b }, 0)
      else if a1 = PR_CAP_AMBIENT_RAISE then
        if id.capPerm &&& id.capInh &&& b = 0 then (id, -EPERM)
        else ({ id with capAmb := id.capAmb ||| b }, 0)
      else (id, -EINVAL)

/-- The capability options; `none` for any other. -/
def prctl (a0 a1 a2 : UInt64) (id : Identity) : Option Reply :=
  if a0 = PR_GET_KEEPCAPS then some (id, isSet id.securebits SECBIT_KEEP_CAPS)
  else if a0 = PR_SET_KEEPCAPS then some (setKeepcaps a1 id)
  else if a0 = PR_CAPBSET_READ then some (capbsetRead a1 id)
  else if a0 = PR_CAPBSET_DROP then some (capbsetDrop a1 id)
  else if a0 = PR_GET_SECUREBITS then some (id, id.securebits.toNat)
  else if a0 = PR_SET_SECUREBITS then some (setSecurebits a1 id)
  else if a0 = PR_CAP_AMBIENT then some (capAmbient a1 a2 id)
  else none

/-! ### Processes -/

inductive Call where
  | setid (w : Who) (a0 : UInt64)
  | setreid (w : Who) (a0 a1 : UInt64)
  | setresid (w : Who) (a0 a1 a2 : UInt64)
  | setfsid (w : Who) (a0 : UInt64)
  | setgroups (size : UInt64) (list : ℕ → Option UInt32)
  | capset (version : Option UInt32) (self : Bool) (data : ℕ → Option CapData)
  | prctl (a0 a1 a2 : UInt64)

/-- The identity a call leaves. -/
def Call.apply (id : Identity) : Call → Identity
  | setid w a0 => (Cred.setid w a0 id).1
  | setreid w a0 a1 => (Cred.setreid w a0 a1 id).1
  | setresid w a0 a1 a2 => (Cred.setresid w a0 a1 a2 id).1
  | setfsid w a0 => (Cred.setfsid w a0 id).1
  | setgroups size list => (Cred.setgroups size list id).1
  | capset version self data => (Cred.capset version self data id).1
  | prctl a0 a1 a2 => ((Cred.prctl a0 a1 a2 id).getD (id, 0)).1

inductive Event where
  | call (c : Call)
  /-- The child of a fork, with the nice value of the thread that forked. -/
  | fork (nice : Int32)
  /-- An exec in place. -/
  | exec
  /-- An exec by a new `linux-run`, which gets the text on its command line. -/
  | relaunch

/-- `fork_restore`: a text that cannot be read is a process started as root. -/
def forkRestore (text : Bytes) (nice : Int32) : Identity :=
  { (Identity.parse text).getD {} with priority := nice }

/-- An argument of the command line: empty if it has a NUL. -/
def arg (text : Bytes) : Bytes := if 0 ∈ text then [] else text

/-- The identity after an event; `none` if `linux-run` cannot read its text and exits. -/
def step (id : Identity) : Event → Option Identity
  | .call c => some (c.apply id)
  | .fork nice => some (forkRestore id.toText nice)
  | .exec => some id.execTransform
  | .relaunch => Identity.parse (arg id.execTransform.toText)

/-- The identity after a run. -/
def run (id : Identity) (events : List Event) : Option Identity := events.foldlM step id

end Cred
