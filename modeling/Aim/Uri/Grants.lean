import Aim.Support.Table
import Aim.Uri.Uri

/-!
# Uri — the grants of the app host

`UriGrantsManagerService` in the app host: for each target uid, the grants it holds, each with its
modes owned by an activity, a service start or the clipboard, granted with no owner, offered for
persisting, or persisted.

* `UriPermission`: one grant, and what each operation does to its modes.
* `Grants`: the table, and its operations: `check`, `release`, `revokeOwner`, `prunePersisted`,
  `revoke`, `removeForPackage`, `takePersistable`, `releasePersistable`.
* `Op`, `step`: the operations as the labels of one system.

The table is a `BTreeMap`; the order of its uids decides nothing that the operations do or return.
Modes are `i32`s, of which only bits are ever looked at.
-/

namespace UriGrants

/-! ### Modes -/

/-- `Intent.FLAG_GRANT_*`, an `i32`. -/
abbrev Modes := BitVec 32

inductive Mode where
  | read | write
  deriving DecidableEq

/-- `FLAG_GRANT_READ_URI_PERMISSION`, `FLAG_GRANT_WRITE_URI_PERMISSION`. -/
def Mode.flag : Mode → Modes
  | .read => 0x1
  | .write => 0x2

def flagGrantPersistable : Modes := 0x40

def accessModes : Modes := Mode.read.flag ||| Mode.write.flag

/-- `UriPermission.STRENGTH_*`. -/
def strengthNone : ℕ := 0
def strengthOwned : ℕ := 1
def strengthGlobal : ℕ := 2
def strengthPersistable : ℕ := 3

/-- `UriPermission.INVALID_TIME`. -/
def invalidTime : ℤ := -2 ^ 63

/-- `UriGrantsManagerService.MAX_PERSISTED_URI_GRANTS`. -/
def maxPersistedUriGrants : ℕ := 512

def rootUid : ℤ := 0

/-- `UserHandle.USER_ALL`. -/
def userAll : ℤ := -1

def perUserRange : ℤ := 100000

/-- `Downloads.Impl.AUTHORITY`. -/
def downloadsAuthority : Text := "downloads".toList

/-! ### Grants -/

/-- `UriPermissionOwner`: what holds the modes granted for it, which go with it. -/
inductive Owner where
  | activity (token : ℕ)
  | start (id : ℕ)
  | clipboard (id : ℕ)
  deriving DecidableEq

/-- `GrantUri`: a URI in its source user, and whether it grants its descendants. -/
structure GrantUri where
  sourceUser : ℤ
  uri : Uri
  prefixed : Bool
  deriving DecidableEq

namespace GrantUri

/-- What `GrantUri.equals` compares: the strings of the URIs, whatever classes they were parcelled
as. -/
def key (u : GrantUri) : Text × ℤ × Bool := (u.uri.string, u.sourceUser, u.prefixed)

/-- `GrantUri.equals`. -/
def same (u v : GrantUri) : Bool := u.key == v.key

/-- `GrantUri.hashCode`, which orders a uid's grants. -/
def hash (u : GrantUri) : BitVec 32 :=
  ((31 + BitVec.ofInt 32 u.sourceUser) * 31 + Text.javaHash u.uri.string) * 31 +
    if u.prefixed then 1231 else 1237

end GrantUri

/-- `UriPermission`: what a target uid may do with a URI, and why. -/
structure UriPermission where
  sourcePackage : Text
  targetPackage : Text
  targetUid : ℤ
  uri : GrantUri
  /-- Granted with no owner. -/
  global : Modes
  /-- Offered for persisting. -/
  persistable : Modes
  persisted : Modes
  /-- When `persisted` was set. -/
  persistedTime : ℤ
  readOwners : List Owner
  writeOwners : List Owner
  deriving DecidableEq

namespace UriPermission

def new (source target : Text) (targetUid : ℤ) (uri : GrantUri) : UriPermission where
  sourcePackage := source
  targetPackage := target
  targetUid := targetUid
  uri := uri
  global := 0
  persistable := 0
  persisted := 0
  persistedTime := invalidTime
  readOwners := []
  writeOwners := []

/-- Who holds one of its modes. -/
def owners (p : UriPermission) : Mode → List Owner
  | .read => p.readOwners
  | .write => p.writeOwners

def setOwners (p : UriPermission) (owners : List Owner) : Mode → UriPermission
  | .read => { p with readOwners := owners }
  | .write => { p with writeOwners := owners }

/-- `ownedModeFlags`. -/
def owned (p : UriPermission) : Modes :=
  (if p.readOwners = [] then 0 else Mode.read.flag) |||
    if p.writeOwners = [] then 0 else Mode.write.flag

/-- `modeFlags`. -/
def modes (p : UriPermission) : Modes := p.owned ||| p.global ||| p.persisted

/-- `initPersistedModes`, of a grant read from the file. -/
def initPersistedModes (modes : Modes) (created : ℤ) (p : UriPermission) : UriPermission :=
  { p with
    persistable := modes &&& accessModes
    persisted := modes &&& accessModes
    persistedTime := created }

def pushOwner (modes : Modes) (owner : Owner) (p : UriPermission) (m : Mode) : UriPermission :=
  if modes &&& m.flag ≠ 0 ∧ owner ∉ p.owners m then p.setOwners (p.owners m ++ [owner]) m else p

/-- `grantModes`: `modes` granted, owned by `owner` or by nobody, and persistable with
`FLAG_GRANT_PERSISTABLE_URI_PERMISSION`. -/
def grantModes (modes : Modes) (owner : Option Owner) (p : UriPermission) : UriPermission :=
  let p :=
    if modes &&& flagGrantPersistable ≠ 0 then
      { p with persistable := p.persistable ||| modes &&& accessModes }
    else p
  match owner with
  | none => { p with global := p.global ||| modes &&& accessModes }
  | some owner => pushOwner modes owner (pushOwner modes owner p .read) .write

/-- `takePersistableModes` at `now`, and whether what persists changed. -/
def takePersistableModes (modes : Modes) (now : ℤ) (p : UriPermission) : Bool × UriPermission :=
  let modes := modes &&& accessModes
  if modes &&& p.persistable ≠ modes then (false, p)
  else
    let persisted := p.persisted ||| p.persistable &&& modes
    (persisted ≠ p.persisted,
      { p with
        persisted := persisted
        persistedTime := if persisted ≠ 0 then now else p.persistedTime })

/-- `releasePersistableModes`, and whether what persists changed. -/
def releasePersistableModes (modes : Modes) (p : UriPermission) : Bool × UriPermission :=
  let persisted := p.persisted &&& ~~~(modes &&& accessModes)
  (persisted ≠ p.persisted,
    { p with
      persisted := persisted
      persistedTime := if persisted = 0 then invalidTime else p.persistedTime })

/-- One turn of the loop of `revokeModes`. -/
def revokeMode (modes : Modes) (includingOwners : Bool) (p : UriPermission) (m : Mode) :
    UriPermission :=
  if modes &&& m.flag = 0 then p
  else
    let p :=
      if modes &&& flagGrantPersistable ≠ 0 then
        { p with
          persistable := p.persistable &&& ~~~m.flag
          persisted := p.persisted &&& ~~~m.flag }
      else p
    let p := { p with global := p.global &&& ~~~m.flag }
    if includingOwners then p.setOwners [] m else p

/-- `revokeModes`: `modes` revoked, persisted ones with `FLAG_GRANT_PERSISTABLE_URI_PERMISSION`,
owned ones with `includingOwners`; and whether what persists changed. -/
def revokeModes (modes : Modes) (includingOwners : Bool) (p : UriPermission) :
    Bool × UriPermission :=
  let q := revokeMode modes includingOwners (revokeMode modes includingOwners p .read) .write
  (q.persisted ≠ p.persisted,
    { q with persistedTime := if q.persisted = 0 then invalidTime else q.persistedTime })

/-- `getStrength`: how strongly it grants `modes`. -/
def strength (p : UriPermission) (modes : Modes) : ℕ :=
  let modes := modes &&& accessModes
  if p.persistable &&& modes = modes then strengthPersistable
  else if p.global &&& modes = modes then strengthGlobal
  else if p.owned &&& modes = modes then strengthOwned
  else strengthNone

/-- The owner's modes go. -/
def release (owner : Owner) (p : UriPermission) : UriPermission :=
  { p with
    readOwners := p.readOwners.filter (· ≠ owner)
    writeOwners := p.writeOwners.filter (· ≠ owner) }

/-- The owner's `modes` go. -/
def revokeOwner (owner : Owner) (modes : Modes) (p : UriPermission) : UriPermission :=
  { p with
    readOwners :=
      if modes &&& Mode.read.flag ≠ 0 then p.readOwners.filter (· ≠ owner) else p.readOwners
    writeOwners :=
      if modes &&& Mode.write.flag ≠ 0 then p.writeOwners.filter (· ≠ owner) else p.writeOwners }

end UriPermission

/-! ### The grants of one uid -/

namespace Perms

/-- `iter().find(|p| p.uri == *uri)`. -/
def find (ps : List UriPermission) (uri : GrantUri) : Option UriPermission :=
  ps.find? fun p => p.uri.same uri

/-- `f` of what `iter_mut().find(|p| p.uri == *uri)` gives. -/
def modify (uri : GrantUri) (f : UriPermission → UriPermission) :
    List UriPermission → List UriPermission
  | [] => []
  | p :: ps => if p.uri.same uri then f p :: ps else p :: modify uri f ps

/-- `f` of what `find_or_create` gives: a new grant stands after those whose hash is no greater
(`partition_point` of a list in the order of the hashes). -/
def findOrCreate (source target : Text) (targetUid : ℤ) (uri : GrantUri)
    (f : UriPermission → UriPermission) (ps : List UriPermission) : List UriPermission :=
  match find ps uri with
  | some _ => modify uri f ps
  | none =>
    let below := fun p : UriPermission => decide (p.uri.hash.toInt ≤ uri.hash.toInt)
    ps.takeWhile below ++ f (.new source target targetUid uri) :: ps.dropWhile below

/-- `retain(|p| p.modes() != 0)`. -/
def dropSpent (ps : List UriPermission) : List UriPermission := ps.filter fun p => p.modes ≠ 0

end Perms

/-! ### The table -/

/-- `mGrantedUriPermissions`: each target uid's grants, in the order of their hashes. -/
abbrev Grants := Table ℤ (List UriPermission)

/-- What a provider's caller is refused with. -/
inductive Exception where
  | illegalArgument (message : String)
  | security (message : String)
  deriving DecidableEq

namespace Grants

/-- The grants of a uid, none when the table has no entry for it. -/
def perms (g : Grants) (uid : ℤ) : List UriPermission := (g.lookup uid).getD []

/-- `findUriPermissionLocked`. -/
def find (g : Grants) (uid : ℤ) (uri : GrantUri) : Option UriPermission :=
  Perms.find (g.perms uid) uri

/-- `f` of what `find_mut` gives. -/
def modifyPerm (g : Grants) (uid : ℤ) (uri : GrantUri) (f : UriPermission → UriPermission) :
    Grants :=
  g.modify uid (Perms.modify uri f)

/-- `f` of what `findOrCreateUriPermissionLocked` gives. -/
def findOrCreate (g : Grants) (source target : Text) (targetUid : ℤ) (uri : GrantUri)
    (f : UriPermission → UriPermission) : Grants :=
  g.insert targetUid (Perms.findOrCreate source target targetUid uri f (g.perms targetUid))

/-- `removeUriPermissionIfNeededLocked`: the grant of `uri` to `uid` goes when it has no modes
left. -/
def removeIfNeeded (g : Grants) (uid : ℤ) (uri : GrantUri) : Grants :=
  match g.lookup uid with
  | none => g
  | some ps =>
    let ps := ps.filter fun p => !p.uri.same uri || p.modes ≠ 0
    if ps = [] then g.erase uid else g.insert uid ps

/-- `checkUriPermissionLocked`: whether `uid` holds `uri` with `modes`, by its grant or a prefix
one, persistable ones only with `FLAG_GRANT_PERSISTABLE_URI_PERMISSION`. -/
def check (g : Grants) (uri : GrantUri) (uid : ℤ) (modes : Modes) : Bool :=
  let min := if modes &&& flagGrantPersistable ≠ 0 then strengthPersistable else strengthOwned
  if uid = rootUid then true
  else
    match g.lookup uid with
    | none => false
    | some ps =>
      if (Perms.find ps uri).any fun p => min ≤ p.strength modes then true
      else ps.any fun p =>
        p.uri.prefixed && uri.uri.isPathPrefixMatch p.uri.uri && decide (min ≤ p.strength modes)

/-- A loop over the uids that leaves out those with no grants left. -/
def sweep (g : Grants) (f : ℤ → List UriPermission → List UriPermission) : Grants :=
  (g.mapValues f).retain fun _ ps => ps ≠ []

/-- `UriPermissionOwner.removeUriPermissions`: `owner`'s modes go, and with them the grants left
with none. -/
def release (g : Grants) (owner : Owner) : Grants :=
  g.sweep fun _ ps => Perms.dropSpent (ps.map (·.release owner))

/-- `revoke_owner`: `owner`'s `modes` of that very URI go. -/
def revokeOwner (g : Grants) (owner : Owner) (uri : Uri) (sourceUser : ℤ) (modes : Modes) :
    Grants :=
  g.sweep fun _ ps => Perms.dropSpent <| ps.map fun p =>
    if p.uri.sourceUser = sourceUser ∧ p.uri.uri.string = uri.string then
      p.revokeOwner owner modes
    else p

/-- The oldest persisted grants of `uid` beyond `MAX_PERSISTED_URI_GRANTS`. -/
def oldestPersisted (g : Grants) (uid : ℤ) : List GrantUri :=
  if (g.perms uid).length < maxPersistedUriGrants then []
  else
    let persisted := ((g.perms uid).filter fun p => p.persisted ≠ 0).map
      fun p => (p.persistedTime, p.uri)
    ((persisted.insertionSort fun a b => a.1 ≤ b.1).take
      (persisted.length - maxPersistedUriGrants)).map Prod.snd

/-- `maybePrunePersistedUriGrantsLocked`, and whether any was released. -/
def prunePersisted (g : Grants) (uid : ℤ) : Bool × Grants :=
  (g.oldestPersisted uid ≠ [],
    (g.oldestPersisted uid).foldl
      (fun g uri =>
        (g.modifyPerm uid uri fun p => (p.releasePersistableModes (~~~0)).2).removeIfNeeded uid uri)
      g)

/-- Whether `revoke` takes a grant. -/
def revokes (target : Option Text) (uri : GrantUri) (p : UriPermission) : Bool :=
  target.all (· = p.targetPackage) && p.uri.sourceUser = uri.sourceUser &&
    p.uri.uri.isPathPrefixMatch uri.uri

/-- `revokeUriPermissionLocked`: `modes` of the grants of `uri` and below it (to `target`, if named)
revoked; of all its grants when the caller holds it by the provider's permissions, else of its own
grants, not those owned.  And whether what persists changed. -/
def revoke (g : Grants) (target : Option Text) (callingUid : ℤ) (uri : GrantUri) (modes : Modes)
    (callerHolds : Bool) : Bool × Grants :=
  let includingOwners := callerHolds && target.isNone
  let revoked := UriPermission.revokeModes (modes ||| flagGrantPersistable) includingOwners
  let turn := fun uid : ℤ => callerHolds || uid = callingUid
  (g.entries.any fun e => turn e.1 && e.2.any fun p => revokes target uri p && (revoked p).1,
    g.sweep fun uid ps =>
      if turn uid then
        Perms.dropSpent (ps.map fun p => if revokes target uri p then (revoked p).2 else p)
      else ps)

/-- Whether `removeForPackage` takes a grant. -/
def removes (package : Option Text) (persistable targetOnly : Bool) (p : UriPermission) : Bool :=
  (package.all fun package =>
      (!targetOnly && p.sourcePackage = package) || p.targetPackage = package) &&
    (persistable || p.uri.uri.authority ≠ some downloadsAuthority)

/-- `removeUriPermissionsForPackageLocked`: the grants in `user` (in any, with `USER_ALL`) to
`package` (or from it, unless `targetOnly`; every grant, with none) revoked, the persisted ones too
with `persistable`, except DownloadManager's without it; and whether what persists changed. -/
def removeForPackage (g : Grants) (package : Option Text) (user : ℤ) (persistable targetOnly : Bool) :
    Bool × Grants :=
  let turn := fun uid : ℤ => user = userAll || user = uid.tdiv perUserRange
  let revoked := UriPermission.revokeModes
    (if persistable then ~~~0 else ~~~flagGrantPersistable) true
  (g.entries.any fun e =>
      turn e.1 && e.2.any fun p => removes package persistable targetOnly p && (revoked p).1,
    g.sweep fun uid ps =>
      if turn uid then
        ps.filterMap fun p =>
          if removes package persistable targetOnly p then
            if (revoked p).2.modes ≠ 0 then some (revoked p).2 else none
          else some p
      else ps)

/-! ### Persisting -/

/-- `Preconditions.checkFlagsArgument`. -/
def checkFlags (modes allowed : Modes) : Except Exception Unit :=
  if modes &&& allowed ≠ modes then
    .error (.illegalArgument ("Requested flags 0x" ++ String.ofList (Nat.toDigits 16 modes.toNat) ++
      ", but only 0x" ++ String.ofList (Nat.toDigits 16 allowed.toNat) ++ " are allowed"))
  else .ok ()

/-- Whether `take_persistable` may take `modes` of the grant of `uri`. -/
def takes (g : Grants) (uid : ℤ) (modes : Modes) (uri : GrantUri) : Bool :=
  (g.find uid uri).any fun p => modes &&& p.persistable = modes

/-- `take_persistable`'s turn for one of the two grants, with whether what persists changed. -/
def takeOne (uid : ℤ) (modes : Modes) (now : ℤ) (valid : Bool) (uri : GrantUri)
    (r : Bool × Grants) : Bool × Grants :=
  if valid then
    (r.1 || (r.2.find uid uri).any fun p => (p.takePersistableModes modes now).1,
      r.2.modifyPerm uid uri fun p => (p.takePersistableModes modes now).2)
  else r

/-- `takePersistableUriPermission`: the persistable `modes` of the grant of `uri` and of a prefix
one persisted, the oldest beyond the most a uid keeps released; and whether what persists changed. -/
def takePersistable (g : Grants) (uid : ℤ) (uri : Uri) (modes : Modes) (user now : ℤ) :
    Except Exception (Bool × Grants) := do
  checkFlags modes accessModes
  let exact' : GrantUri := ⟨user, uri, false⟩
  let above : GrantUri := ⟨user, uri, true⟩
  if !g.takes uid modes exact' && !g.takes uid modes above then
    throw (.security ("No persistable permission grants found for UID " ++ toString uid ++
      " and Uri " ++ String.ofList uri.string))
  let taken := takeOne uid modes now (g.takes uid modes above) above
    (takeOne uid modes now (g.takes uid modes exact') exact' (false, g))
  let pruned := taken.2.prunePersisted uid
  return (taken.1 || pruned.1, pruned.2)

/-- `release_persistable`'s turn for one of the two grants. -/
def releaseOne (uid : ℤ) (modes : Modes) (uri : GrantUri) (r : Bool × Grants) : Bool × Grants :=
  match r.2.find uid uri with
  | some p =>
    (r.1 || (p.releasePersistableModes modes).1,
      (r.2.modifyPerm uid uri fun p => (p.releasePersistableModes modes).2).removeIfNeeded uid uri)
  | none => r

/-- `releasePersistableUriPermission`: `modes` of the grant of `uri` and of a prefix one no longer
persisted, on behalf of `package` if one is named; and whether what persists changed. -/
def releasePersistable (g : Grants) (uid : ℤ) (uri : Uri) (modes : Modes) (package : Option Text)
    (user : ℤ) : Except Exception (Bool × Grants) := do
  checkFlags modes accessModes
  let exact' : GrantUri := ⟨user, uri, false⟩
  let above : GrantUri := ⟨user, uri, true⟩
  if (g.find uid exact').isNone && (g.find uid above).isNone && package.isNone then
    throw (.security ("No permission grants found for UID " ++ toString uid ++
      " and Uri " ++ String.ofList uri.string))
  return releaseOne uid modes above (releaseOne uid modes exact' (false, g))

end Grants

/-! ### The operations as a system -/

/-- The operations that change the table. -/
inductive Op where
  /-- A grant of `urigrants.xml`. -/
  | load (source target : Text) (uid : ℤ) (uri : GrantUri) (modes : Modes) (created : ℤ)
  /-- `grant_unchecked`, with the provider found. -/
  | grant (source target : Text) (uid : ℤ) (uri : GrantUri) (modes : Modes) (owner : Option Owner)
  | release (owner : Owner)
  | revokeOwner (owner : Owner) (uri : Uri) (sourceUser : ℤ) (modes : Modes)
  | revoke (target : Option Text) (callingUid : ℤ) (uri : GrantUri) (modes : Modes)
      (callerHolds : Bool)
  | takePersistable (uid : ℤ) (uri : Uri) (modes : Modes) (user now : ℤ)
  | releasePersistable (uid : ℤ) (uri : Uri) (modes : Modes) (package : Option Text) (user : ℤ)
  | removeForPackage (package : Option Text) (user : ℤ) (persistable targetOnly : Bool)
  | prune (uid : ℤ)

/-- The table after an operation; one that is refused leaves it as it was. -/
def step (g : Grants) : Op → Grants
  | .load source target uid uri modes created =>
    g.findOrCreate source target uid uri (·.initPersistedModes modes created)
  | .grant source target uid uri modes owner =>
    if modes &&& accessModes = 0 then g
    else g.findOrCreate source target uid uri (·.grantModes modes owner)
  | .release owner => g.release owner
  | .revokeOwner owner uri sourceUser modes => g.revokeOwner owner uri sourceUser modes
  | .revoke target callingUid uri modes callerHolds =>
    (g.revoke target callingUid uri modes callerHolds).2
  | .takePersistable uid uri modes user now =>
    match g.takePersistable uid uri modes user now with
    | .ok r => r.2
    | .error _ => g
  | .releasePersistable uid uri modes package user =>
    match g.releasePersistable uid uri modes package user with
    | .ok r => r.2
    | .error _ => g
  | .removeForPackage package user persistable targetOnly =>
    (g.removeForPackage package user persistable targetOnly).2
  | .prune uid => (g.prunePersisted uid).2

end UriGrants
