import Aim.Support.Codec
import Aim.Intents.Pattern

/-!
# Parcels — the wire format of libbinder

`parcel.rs`: values are little-endian and every write is padded to 4 bytes.  A string is its length
(-1 for null), its code units and a NUL; a binder is a `flat_binder_object`, whose offset is
recorded, and its stability; a file is a `flat_binder_object` that gets its fd when the parcel is
sent (`installFiles`).

* `Parcel` and its writers.
* `Reader` and its calls; a slice out of bounds is a panic.
* `Exception`, `writeException`, `readException`.
-/

namespace Text

/-- `String::from_utf16`: no unit may be half of a pair. -/
def fromUtf16 : List ℕ → Option Text
  | [] => some []
  | [u] => if 0xd800 ≤ u ∧ u < 0xe000 then none else some [Char.ofNat u]
  | u :: v :: us =>
    if 0xd800 ≤ u ∧ u < 0xdc00 ∧ 0xdc00 ≤ v ∧ v < 0xe000 then
      (fromUtf16 us).map (Char.ofNat (0x10000 + (u - 0xd800) * 0x400 + (v - 0xdc00)) :: ·)
    else if 0xd800 ≤ u ∧ u < 0xe000 then none
    else (fromUtf16 (v :: us)).map (Char.ofNat u :: ·)

end Text

namespace Parcels

open Codec (putU32 putU64)

/-! ### Status codes and constants -/

def BAD_VALUE : Int32 := -22
def NOT_ENOUGH_DATA : Int32 := -61
def BAD_TYPE : Int32 := -2147483647

/-- Why a call does not return a value. -/
inductive Failure where
  | status (code : Int32)
  | panic
  deriving DecidableEq

def STABILITY_SYSTEM : Int32 := 0b001100
def STABILITY_VINTF : Int32 := 0b111111
/-- `SYST`. -/
def HEADER : Int32 := 0x53595354
def STRICT_MODE_PENALTY_GATHER : Int32 := -2147483648
def UNSET_WORK_SOURCE : Int32 := -1
def DEFAULT_SCHED_BITS : UInt32 := 19

def BINDER_TYPE_BINDER : UInt32 := 0x73622a85
def BINDER_TYPE_HANDLE : UInt32 := 0x73682a85
def BINDER_TYPE_FD : UInt32 := 0x66642a85
def FLAT_BINDER_FLAG_ACCEPTS_FDS : UInt32 := 0x100
def FLAT_BINDER_OBJECT_SIZE : ℕ := 24

def EX_SERVICE_SPECIFIC : Int32 := -8
def EX_PARCELABLE : Int32 := -9
def EX_HAS_STRICTMODE_REPLY_HEADER : Int32 := -128
def EX_HAS_NOTED_APPOPS_REPLY_HEADER : Int32 := -127

/-- `next_multiple_of(4)`. -/
def padded (n : ℕ) : ℕ := (n + 3) / 4 * 4

/-- The bytes, padded to 4 with zeros. -/
def fill (bytes : Bytes) : Bytes :=
  bytes ++ List.replicate (padded bytes.length - bytes.length) 0

/-! ### Objects -/

/-- A binder in a parcel. -/
inductive Binder where
  /-- A reference to another process's node. -/
  | handle (handle : UInt32)
  /-- A node of this process, by its pointer. -/
  | local (ptr : UInt64)
  deriving DecidableEq

structure FlatBinderObject where
  kind : UInt32
  flags : UInt32
  binder : UInt64
  cookie : UInt64
  deriving DecidableEq

def FlatBinderObject.encode (o : FlatBinderObject) : Bytes :=
  putU32 o.kind ++ (putU32 o.flags ++ (putU64 o.binder ++ putU64 o.cookie))

def FlatBinderObject.decode (b : Bytes) : FlatBinderObject where
  kind := UInt32.ofNat (Bytes.toNat (b.take 4))
  flags := UInt32.ofNat (Bytes.toNat ((b.drop 4).take 4))
  binder := UInt64.ofNat (Bytes.toNat ((b.drop 8).take 8))
  cookie := UInt64.ofNat (Bytes.toNat ((b.drop 16).take 8))

def FlatBinderObject.handle (o : FlatBinderObject) : UInt32 := o.binder.toUInt32

/-! ### Writing -/

/-- A parcel being written; `F` are the files. -/
structure Parcel (F : Type) where
  data : Bytes := []
  /-- The offsets of the binder objects. -/
  objects : List ℕ := []
  /-- The files of the fd objects, by the objects' offsets. -/
  files : List (ℕ × F) := []

namespace Parcel

variable {F : Type}

def pad (p : Parcel F) : Parcel F := { p with data := fill p.data }

/-- `data.extend_from_slice`. -/
def extend (p : Parcel F) (bytes : Bytes) : Parcel F := { p with data := p.data ++ bytes }

def writeI32 (p : Parcel F) (v : Int32) : Parcel F := p.extend (putU32 v.toUInt32)

def writeU32 (p : Parcel F) (v : UInt32) : Parcel F := p.extend (putU32 v)

def writeI64 (p : Parcel F) (v : Int64) : Parcel F := p.extend (putU64 v.toUInt64)

def writeBool (p : Parcel F) (v : Bool) : Parcel F := p.writeI32 (if v then 1 else 0)

def writeString16 (p : Parcel F) : Option Text → Parcel F
  | none => p.writeI32 (-1)
  | some value =>
    let units := value.utf16
    ((p.writeI32 (Int32.ofNat units.length)).extend
      ((units ++ [0]).flatMap fun u => Bytes.ofNat 2 u)).pad

def writeString8 (p : Parcel F) : Option Text → Parcel F
  | none => p.writeI32 (-1)
  | some value =>
    let bytes := Utf8.ofChars value
    (((p.writeI32 (Int32.ofNat bytes.length)).extend bytes).extend [0]).pad

def writeBinderOf (p : Parcel F) (binder : Option Binder) (stability : Int32) : Parcel F :=
  let object : FlatBinderObject :=
    match binder with
    | some (.handle handle) => ⟨BINDER_TYPE_HANDLE, DEFAULT_SCHED_BITS, handle.toUInt64, 0⟩
    | some (.local ptr) =>
      ⟨BINDER_TYPE_BINDER, DEFAULT_SCHED_BITS ||| FLAT_BINDER_FLAG_ACCEPTS_FDS, ptr, ptr⟩
    | none => ⟨BINDER_TYPE_BINDER, 0, 0, 0⟩
  let p := if binder.isSome then { p with objects := p.objects ++ [p.data.length] } else p
  (p.extend object.encode).writeI32 (if binder.isSome then stability else 0)

def writeBinder (p : Parcel F) (binder : Option Binder) : Parcel F :=
  p.writeBinderOf binder STABILITY_SYSTEM

def writeVintfBinder (p : Parcel F) (binder : Binder) : Parcel F :=
  p.writeBinderOf (some binder) STABILITY_VINTF

def writeFile (p : Parcel F) (file : F) : Parcel F :=
  let at_ := p.data.length
  { data := p.data ++ FlatBinderObject.encode ⟨BINDER_TYPE_FD, 0, 0, 0⟩
    objects := p.objects ++ [at_]
    files := p.files ++ [(at_, file)] }

def writeInterfaceToken (p : Parcel F) (descriptor : Text) : Parcel F :=
  let p := ((p.writeI32 STRICT_MODE_PENALTY_GATHER).writeI32 UNSET_WORK_SOURCE).writeI32 HEADER
  p.writeString16 (some descriptor)

/-- Bytes read from another parcel, with the binder objects and files among them. -/
def writeRawFiles (p : Parcel F) (bytes : Bytes) (objects : List ℕ) (files : List (ℕ × F)) :
    Parcel F :=
  let base := p.data.length
  pad { data := p.data ++ bytes
        objects := p.objects ++ objects.map (base + ·)
        files := p.files ++ files.map fun f => (base + f.1, f.2) }

def writeRaw (p : Parcel F) (bytes : Bytes) (objects : List ℕ) : Parcel F :=
  p.writeRawFiles bytes objects []

/-- Overwrites an int written earlier. -/
def setI32At (p : Parcel F) (at_ : ℕ) (value : Int32) : Option (Parcel F) :=
  (Bytes.overwrite p.data at_ (putU32 value.toUInt32)).map fun data => { p with data }

/-- An fd in the object of a file. -/
def installFile (data : Bytes) (f : (ℕ × F) × UInt32) : Option Bytes :=
  Bytes.overwrite data (f.1.1 + 8) (putU32 f.2)

/-- `LocalProcess::install_files`: an fd for each file, in their order. -/
def installFiles (p : Parcel F) (fds : List UInt32) : Option Bytes :=
  (p.files.zip fds).foldlM installFile p.data

end Parcel

/-! ### Reading -/

/-- A received parcel being read. -/
structure Reader where
  data : Bytes
  objects : List ℕ
  pos : ℕ := 0

abbrev Read (α : Type) := StateT Reader (Except Failure) α

def Reader.remaining (r : Reader) : ℕ := r.data.length - r.pos

/-- Fails with a status code. -/
def fail {α : Type} (code : Int32) : Read α := throw (.status code)

def take (len : ℕ) : Read Bytes := do
  let r ← get
  if r.remaining < max (padded len) len then fail NOT_ENOUGH_DATA
  else if r.data.length < r.pos + len then throw .panic
  else
    set { r with pos := r.pos + padded len }
    pure ((r.data.drop r.pos).take len)

def readI32 : Read Int32 := do
  let b ← take 4
  pure (UInt32.ofNat (Bytes.toNat b)).toInt32

def readU32 : Read UInt32 := do
  let v ← readI32
  pure v.toUInt32

def readI64 : Read Int64 := do
  let b ← take 8
  pure (UInt64.ofNat (Bytes.toNat b)).toInt64

def readBool : Read Bool := do
  let v ← readI32
  pure (v ≠ 0)

/-- Skips `len` bytes, padded. -/
def skip (len : ℕ) : Read Unit := do
  let _ ← take len

/-- The two-byte units of a byte string. -/
def units16 : Bytes → List ℕ
  | a :: b :: bs => Bytes.toNat [a, b] :: units16 bs
  | _ => []

def readString16 : Read (Option Text) := do
  let len ← readI32
  if len < 0 then pure none
  else
    let len := len.toNatClampNeg
    let bytes ← take (len * 2 + 2)
    match Text.fromUtf16 (units16 (bytes.take (2 * len))) with
    | some s => pure (some s)
    | none => fail BAD_VALUE

def readString8 : Read (Option Text) := do
  let len ← readI32
  if len < 0 then pure none
  else
    let len := len.toNatClampNeg
    let bytes ← take (len + 1)
    pure (some (Utf8.chars (bytes.take len)))

def readBinder : Read (Option Binder) := do
  let r ← get
  let raw ← take FLAT_BINDER_OBJECT_SIZE
  let object := FlatBinderObject.decode raw
  let _stability ← readI32
  let recorded := r.objects.contains r.pos
  if object.kind = BINDER_TYPE_BINDER ∧ object.binder = 0 then pure none
  else if object.kind = BINDER_TYPE_BINDER ∧ recorded then pure (some (.local object.binder))
  else if object.kind = BINDER_TYPE_HANDLE ∧ recorded then pure (some (.handle object.handle))
  else fail BAD_TYPE

def readFd : Read UInt32 := do
  let r ← get
  let raw ← take FLAT_BINDER_OBJECT_SIZE
  let object := FlatBinderObject.decode raw
  if object.kind ≠ BINDER_TYPE_FD ∨ r.objects.contains r.pos = false then fail BAD_TYPE
  else pure object.binder.toUInt32

def enforceInterface (descriptor : Text) : Read Unit := do
  let _policy ← readI32
  let _workSource ← readI32
  let header ← readI32
  if header ≠ HEADER then fail BAD_TYPE
  else
    let d ← readString16
    if d = some descriptor then pure () else fail BAD_TYPE

/-- The objects from `start` to `stop`, by their offsets from `start`. -/
def among (objects : List ℕ) (start stop : ℕ) : List ℕ :=
  (objects.filter fun o => start ≤ o ∧ o < stop).map (· - start)

/-- The bytes from `start` to the position, and the binder objects among them. -/
def since (start : ℕ) : Read (Bytes × List ℕ) := do
  let r ← get
  if r.pos < start ∨ r.data.length < r.pos then throw .panic
  else pure ((r.data.take r.pos).drop start, among r.objects start r.pos)

/-! ### Exceptions -/

/-- The payload of an `EX_PARCELABLE`. -/
structure ParcelableException where
  bytes : Bytes
  nullMessage : Bool
  deriving DecidableEq

/-- A Java exception. -/
structure Exception where
  code : Int32
  message : Text
  serviceSpecific : Int32 := 0
  parcelable : Option ParcelableException := none
  deriving DecidableEq

namespace Exception

def new (code : Int32) (message : Text) : Exception := { code, message }

/-- `Exception::parcelable`: no objects may be in the payload. -/
def ofParcelable {F : Type} (message : Option Text) (payload : Parcel F) : Except Int32 Exception :=
  if payload.objects ≠ [] then .error BAD_VALUE
  else
    .ok { code := EX_PARCELABLE
          message := message.getD []
          parcelable := some { bytes := payload.data, nullMessage := message.isNone } }

end Exception

namespace Parcel

variable {F : Type}

/-- `prefix_reply`: the app ops noted for the caller, if there are any. -/
def prefixReply (p : Parcel F) (noted : List (Option Text × List Int64)) : Option (Parcel F) :=
  if noted = [] then some p
  else
    let p := p.writeI32 EX_HAS_NOTED_APPOPS_REPLY_HEADER
    let sizeAt := p.data.length
    let p := (p.writeI32 0).writeI32 (Int32.ofNat noted.length)
    let p := noted.foldl (fun p (tag, mask) => mask.foldl writeI64 (p.writeString16 tag)) p
    p.setI32At sizeAt (Int32.ofNat (p.data.length - sizeAt))

def writeExceptionMessage (p : Parcel F) (noted : List (Option Text × List Int64)) (e : Exception)
    (message : Option Text) : Option (Parcel F) := do
  let p ← p.prefixReply noted
  let p := ((p.writeI32 e.code).writeString16 message).writeI32 0
  if e.code = EX_SERVICE_SPECIFIC then some (p.writeI32 e.serviceSpecific)
  else if e.code = EX_PARCELABLE then
    let start := p.data.length
    let p := p.writeI32 0
    match e.parcelable with
    | some payload =>
      let p := p.writeRaw payload.bytes []
      p.setI32At start (Int32.ofNat (p.data.length - start))
    | none => some p
  else some p

def writeException (p : Parcel F) (noted : List (Option Text × List Int64)) (e : Exception) :
    Option (Parcel F) :=
  let null := e.parcelable.any (·.nullMessage)
  p.writeExceptionMessage noted e (if null then none else some e.message)

end Parcel

/-- A reply header's size counts from itself. -/
def skipHeader : Read Unit := do
  let start ← get
  let size ← readI32
  modify fun r => { r with pos := start.pos + max size.toInt.toNat 4 }

/-- The payload of an `EX_PARCELABLE`, after its size. -/
def readPayload (nullMessage : Bool) : Read ParcelableException := do
  let length ← readI32
  if length < 4 ∨ length.toInt % 4 ≠ 0 then fail BAD_VALUE
  else
    let start ← get
    let _ ← take (length.toNatClampNeg - 4)
    let (bytes, objects) ← since start.pos
    if objects ≠ [] then fail BAD_VALUE
    else pure { bytes, nullMessage }

/-- `readException`: `none` if the callee did not throw. -/
def readException : Read (Option Exception) := do
  let first ← readI32
  let code ← if first = EX_HAS_NOTED_APPOPS_REPLY_HEADER then do
      skipHeader
      readI32
    else pure first
  if code = EX_HAS_STRICTMODE_REPLY_HEADER then do
    skipHeader
    pure none
  else if code = 0 then pure none
  else
    let rawMessage ← readString16
    let trace ← readI32
    let _ ← if 0 < trace then readString16 else pure none
    let serviceSpecific ← if code = EX_SERVICE_SPECIFIC then readI32 else pure 0
    let parcelable ← if code = EX_PARCELABLE then some <$> readPayload rawMessage.isNone
      else pure none
    pure (some { code, message := rawMessage.getD [], serviceSpecific, parcelable })

end Parcels
