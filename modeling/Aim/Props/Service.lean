import Aim.Props.Contexts
import Aim.Props.Finite

/-!
# Props — The property service

`props/areas` and `props/service`: the areas of the contexts with the global serial, and init's rules
for setting a property.

* `PropertyAreas`: one area for each context of the serialized contexts, in which the properties of
  the context are; `add` and `update` bump the global serial.
* `PropertyService`: permissions, control messages, and `propertySet`, which checks, stores and says
  what the caller has to do.

Futex wakes are left out.  The parser of floating-point numbers is a parameter, and so are the policy
and the flags of the service, which may be others at every call.
-/

namespace Aim.Props

open Memory

/-! ### Areas -/

/-- Why an add or update was refused. -/
inductive AreaError where
  | emptyName
  | valueTooLong
  | noContext (name : Bytes)
  | areaFull (context : Bytes)
  | notFound (name : Bytes)

/-- All property areas, and the serialized contexts. -/
structure PropertyAreas where
  info : Memory
  contexts : List Bytes
  areas : List Memory
  serial : Memory

namespace PropertyAreas

def PROPERTIES_SERIAL : Bytes := .ofAscii "properties_serial"

/-- One area for each context, of the size its file has, and one for the global serial; an area that
cannot be made is an assertion that fails. -/
def withMemory (info : Memory) (size : Bytes → ℕ) : Option PropertyAreas :=
  if Contexts.accepts info then do
    let contexts := Contexts.allContexts info
    let areas ← contexts.mapM fun context => create (size context)
    let serial ← create (size PROPERTIES_SERIAL)
    return ⟨info, contexts, areas, serial⟩
  else none

/-- `GetPropAreaForName`. -/
def areaIndexFor (a : PropertyAreas) (name : Bytes) : Option ℕ :=
  let (index, _) := Contexts.propertyInfoIndexes a.info name
  if index < a.areas.length then some index else none

def area (a : PropertyAreas) (index : ℕ) : Memory := a.areas.getD index (.zero 0)

variable {α ε : Type}

/-- An access to one of the areas. -/
def onArea (index : ℕ) (x : Access α) : Prog Fault Unit PropertyAreas α :=
  Prog.zoom (·.area index) (fun m a => { a with areas := a.areas.set index m }) x

/-- `get`: none is an error. -/
def get (name : Bytes) : Prog Fault Unit PropertyAreas Bytes := do
  let a ← Prog.get
  let index ← Prog.orThrow () (a.areaIndexFor name)
  let info ← onArea index (find name)
  let value ← onArea index (infoValue info)
  return Utf8.lossy value

def contains (name : Bytes) : Prog Fault ε PropertyAreas Bool := do
  let a ← Prog.get
  match a.areaIndexFor name with
  | none => return false
  | some index =>
    let r ← (onArea index (find name)).attempt
    return match r with
      | .ok _ => true
      | .error _ => false

/-- The global serial. -/
def areaSerial (a : PropertyAreas) : ℕ := a.serial.serial

def bumpGlobalSerial : Prog Fault ε PropertyAreas Unit :=
  Prog.modify fun a => { a with serial := a.serial.store 4 (a.serial.serial + 1) }

def add (name value : Bytes) : Prog Fault AreaError PropertyAreas Unit := do
  if name = [] then Prog.throw .emptyName
  else if value.length ≥ PROP_VALUE_MAX ∧ ¬ RO_PREFIX.isPrefixOf name then Prog.throw .valueTooLong
  else do
    let a ← Prog.get
    let index ← Prog.orThrow (.noContext name) (a.areaIndexFor name)
    let added ← (onArea index (Props.add name value)).mapErr fun _ =>
      .areaFull (a.contexts.getD index [])
    if !added then Prog.throw (.areaFull (a.contexts.getD index []))
    else bumpGlobalSerial

def update (name value : Bytes) : Prog Fault AreaError PropertyAreas Unit := do
  if value.length ≥ PROP_VALUE_MAX then Prog.throw .valueTooLong
  else do
    let a ← Prog.get
    let index ← Prog.orThrow (.noContext name) (a.areaIndexFor name)
    let info ← (onArea index (find name)).mapErr fun _ => .notFound name
    let _ ← (onArea index (updateValue info value)).mapErr fun _ => .notFound name
    bumpGlobalSerial

end PropertyAreas

/-! ### The service -/

def PROP_SUCCESS : ℕ := 0
def PROP_ERROR_READ_ONLY_PROPERTY : ℕ := 0x000b
def PROP_ERROR_INVALID_NAME : ℕ := 0x0010
def PROP_ERROR_INVALID_VALUE : ℕ := 0x0014
def PROP_ERROR_PERMISSION_DENIED : ℕ := 0x0018
def PROP_ERROR_HANDLE_CONTROL_MESSAGE : ℕ := 0x0020
def PROP_ERROR_SET_FAILED : ℕ := 0x0024

def INIT_CONTEXT : Bytes := .ofAscii "u:r:init:s0"
def RESTORECON_PROPERTY : Bytes := .ofAscii "selinux.restorecon_recursive"
def POWERCTL : Bytes := .ofAscii "sys.powerctl"
def CTL_PREFIX : Bytes := .ofAscii "ctl."

structure Ucred where
  pid : ℤ
  uid : ℕ
  gid : ℕ

/-- init itself. -/
def Ucred.INIT : Ucred := ⟨1, 0, 0⟩

/-- A `ctl.<action>` request for init's main loop. -/
structure ControlMessage where
  action : Bytes
  target : Bytes
  fromPid : ℤ
  deriving DecidableEq

/-- Something the caller must do after a set. -/
inductive SetEffect where
  | changed (name value : Bytes)
  | control (message : ControlMessage)
  | restorecon (path : Bytes)
  | persist (name value : Bytes)
  deriving DecidableEq

/-- init's log text for a failure. -/
inductive SetError where
  | text (message : Bytes)
  /-- `__system_property_update failed: {error:?}` -/
  | updateFailed (error : AreaError)
  /-- `__system_property_add failed: {error:?}` -/
  | addFailed (error : AreaError)

structure SetOutcome where
  /-- None when the reply is sent later. -/
  reply : Option ℕ
  error : Option SetError
  effects : List SetEffect

namespace SetOutcome

def code (code : ℕ) : SetOutcome := ⟨some code, none, []⟩

def failure (code : ℕ) (error : SetError) : SetOutcome := ⟨some code, some error, []⟩

end SetOutcome

/-- What is set on the service but the areas. -/
structure Fields where
  /-- May a source context set a property of a target context? -/
  canSet : (source : Bytes) → (target : Option Bytes) → (name : Bytes) → Ucred → Bool
  parseDouble : Bytes → Bool
  persistentPropertiesLoaded : Bool
  asyncPersistWrites : Bool
  acceptMessages : Bool
  deferredControlReplies : Bool

namespace PropertyService

abbrev Set := Prog Fault Unit PropertyAreas SetOutcome

section Rules

variable (fields : Fields)

/-- No target or source context means deny. -/
def macAllows (name : Bytes) (target : Option Bytes) (source : Bytes) (cred : Ucred) : Bool :=
  target.isSome && source != [] && fields.canSet source target name cred

def checkControlPerms (info : Memory) (name value source : Bytes) (cred : Ucred) : Bool :=
  let legacy := CTL_PREFIX ++ value
  let full := name ++ .ofAscii "$" ++ value
  ((name == .ofAscii "ctl.start" || name == .ofAscii "ctl.stop" || name == .ofAscii "ctl.restart") &&
    macAllows fields legacy (Contexts.propertyInfo info legacy).1 source cred) ||
  macAllows fields full (Contexts.propertyInfo info full).1 source cred

def checkPermissions (info : Memory) (name value source : Bytes) (cred : Ucred) :
    Except (ℕ × Bytes) Unit :=
  if !isLegalPropertyName name then
    .error (PROP_ERROR_INVALID_NAME, .ofAscii "Illegal property name")
  else if CTL_PREFIX.isPrefixOf name then
    if !checkControlPerms fields info name value source cred then
      .error (PROP_ERROR_HANDLE_CONTROL_MESSAGE,
        .ofAscii "Invalid permissions to perform '" ++ name.drop CTL_PREFIX.length ++
          .ofAscii "' on '" ++ value ++ .ofAscii "'")
    else .ok ()
  else
    let (target, type) := Contexts.propertyInfo info name
    if !macAllows fields name target source cred then
      .error (PROP_ERROR_PERMISSION_DENIED, .ofAscii "SELinux permission check failed")
    else
      let type := type.getD (.ofAscii "(null)")
      if !checkType fields.parseDouble type value then
        .error (PROP_ERROR_INVALID_VALUE,
          .ofAscii "Property type check failed, value doesn't match expected type '" ++ type ++
            .ofAscii "'")
      else .ok ()

def sendControlMessage (action target : Bytes) (cred : Ucred) (fromSocket : Bool) : SetOutcome :=
  if !fields.acceptMessages then
    if action = .ofAscii "stop" then .code PROP_SUCCESS
    else .failure PROP_ERROR_HANDLE_CONTROL_MESSAGE
      (.text (.ofAscii "Received control message after shutdown, ignoring"))
  else
    let deferred := fromSocket && fields.deferredControlReplies
    ⟨if deferred then none else some PROP_SUCCESS, none, [.control ⟨action, target, cred.pid⟩]⟩

/-- What a property that was stored, or is never stored, leaves to do. -/
def finishSet (name value : Bytes) (fromSocket : Bool) (error : Option SetError) : SetOutcome :=
  let valueStr := Utf8.lossy value
  let needPersist := (Bytes.ofAscii "persist.").isPrefixOf name ||
    (Bytes.ofAscii "next_boot.").isPrefixOf name
  let persists := name != POWERCTL && fromSocket && fields.persistentPropertiesLoaded && needPersist
  let persist : List SetEffect := if persists then [.persist name valueStr] else []
  if persists && fields.asyncPersistWrites then ⟨none, error, persist⟩
  else ⟨some PROP_SUCCESS, error,
    persist ++ if fields.acceptMessages then [.changed name valueStr] else []⟩

/-- The write itself, without permission checks. -/
def propertySet (name value : Bytes) (fromSocket : Bool) : Set := do
  if !isLegalPropertyName name then
    return .failure PROP_ERROR_INVALID_NAME (.text (.ofAscii "Illegal property name"))
  match isLegalPropertyValue name value with
  | .error error => return .failure PROP_ERROR_INVALID_VALUE (.text error)
  | .ok () =>
    if name = POWERCTL then return finishSet fields name value fromSocket none
    let contained ← PropertyAreas.contains name
    if contained then
      if RO_PREFIX.isPrefixOf name then
        return .failure PROP_ERROR_READ_ONLY_PROPERTY
          (.text (.ofAscii "Read-only property was already set"))
      let r ← (PropertyAreas.update name value).attempt
      -- the result of an update is ignored, but for the log
      return finishSet fields name value fromSocket
        (match r with
        | .ok _ => none
        | .error e => some (.updateFailed e))
    else
      let r ← (PropertyAreas.add name value).attempt
      match r with
      | .error e => return .failure PROP_ERROR_SET_FAILED (.addFailed e)
      | .ok _ => return finishSet fields name value fromSocket none

def handleSet (name value source : Bytes) (cred : Ucred) (fromSocket : Bool) : Set := do
  let a ← Prog.get
  let valueStr := Utf8.lossy value
  match checkPermissions fields a.info name valueStr source cred with
  | .error (code, error) => return .failure code (.text error)
  | .ok () =>
    if CTL_PREFIX.isPrefixOf name then
      return sendControlMessage fields (name.drop CTL_PREFIX.length) valueStr cred fromSocket
    if name = POWERCTL ∧ valueStr = .ofAscii "reboot,userspace" then
      return .failure PROP_ERROR_INVALID_VALUE (.text (.ofAscii "Userspace reboot is deprecated."))
    if name = RESTORECON_PROPERTY ∧ cred.pid ≠ 1 ∧ value ≠ [] then
      return ⟨some PROP_SUCCESS, none, [.restorecon valueStr]⟩
    propertySet fields name value fromSocket

def initSet (name value : Bytes) : Set := handleSet fields name value INIT_CONTEXT .INIT false

def builtinSet (name value : Bytes) : Set := handleSet fields name value INIT_CONTEXT .INIT true

def setNoSocket (name value : Bytes) : Set := propertySet fields name value false

end Rules

end PropertyService

end Aim.Props
