import Aim.Support.Codec

/-!
# Daemon — the wire format

The messages between a guest's syscall layer and the binder daemon (`wire.rs`): an ioctl with the
guest memory and files it carries, and its reply.  Numbers are little-endian, byte strings and lists
stand after their length.  A file has a class, and metadata or a receipt if its class says so; a
message keeps these in lists beside that of the fds.

* `Receipt`: `aim_storage::socket_inode::Receipt`, which can only be one that `from_bytes` accepts.
* `validateMetadata`, `encodeFiles`, `decodeFile`: the files of a message.
* `Ioctl`, `IoctlReply`: `validate`, `encode` and `decode`.
-/

namespace Daemon

open Codec

/-- Linux EPROTO: a malformed message. -/
def EPROTO : ℕ := 71

def IOCTL_VERSION : UInt32 := 5

/-! ### Receipts -/

/-- `rotate_left(23)`. -/
def rotateLeft23 (v : UInt64) : UInt64 := (v <<< 23) ||| (v >>> 41)

/-- A socket's receipt; its inode follows from the cookie. -/
structure Receipt where
  generation : Bytes
  cookie : UInt64
  length_generation : generation.length = 16
  generation_ne : generation ≠ List.replicate 16 0
  cookie_ne : cookie ≠ 0
  deriving DecidableEq

namespace Receipt

def inode (r : Receipt) : UInt64 := rotateLeft23 (r.cookie * 0x9e3779b97f4a7c15)

/-- `SOCKRC02`. -/
def magic : Bytes := [83, 79, 67, 75, 82, 67, 48, 50]

def toBytes (r : Receipt) : Bytes :=
  magic ++ r.generation ++ putU64 r.cookie ++ putU64 r.inode

def fromBytes (bytes : Bytes) : Option Receipt :=
  if bytes.length ≠ 40 ∨ bytes.take 8 ≠ magic then none
  else
    let generation := (bytes.drop 8).take 16
    let cookie := UInt64.ofNat (Bytes.toNat ((bytes.drop 24).take 8))
    let inode := UInt64.ofNat (Bytes.toNat ((bytes.drop 32).take 8))
    if h : generation.length = 16 ∧ generation ≠ List.replicate 16 0 ∧ cookie ≠ 0 ∧
        inode = rotateLeft23 (cookie * 0x9e3779b97f4a7c15) then
      some ⟨generation, cookie, h.1, h.2.1, h.2.2.1⟩
    else none

end Receipt

/-! ### The files of a message -/

/-- What is captured of a regular file's open description. -/
structure RegularMetadata where
  flags : UInt64
  uid : UInt32
  gid : UInt32
  identity : { b : Bytes // b.length = 36 }
  writer : Bool
  deriving DecidableEq

def proxyFile : UInt32 := 1
def pathFile : UInt32 := 2
def regularFile : UInt32 := 3
def socketScm : UInt32 := 5
def ptyFile : UInt32 := 7

/-- The capability classes. -/
def validClass (c : UInt32) : Bool :=
  c = 0 ∨ c = proxyFile ∨ c = pathFile ∨ c = regularFile ∨ c = socketScm ∨ c = ptyFile

/-- A number that is 0 or 1. -/
def flag : Reader ℕ Bool := do
  let v ← u32 EPROTO
  if v = 0 then pure false else if v = 1 then pure true else throw EPROTO

def putFlag (b : Bool) : Bytes := putU32 (if b then 1 else 0)

def RegularMetadata.encode (m : RegularMetadata) : Bytes :=
  putU64 m.flags ++ (putU32 m.uid ++ (putU32 m.gid ++ (putCounted m.identity.1 ++ putFlag m.writer)))

def RegularMetadata.decode : Reader ℕ RegularMetadata := do
  let flags ← u64 EPROTO
  let uid ← u32 EPROTO
  let gid ← u32 EPROTO
  let identity ← counted EPROTO
  if h : identity.length = 36 then
    let writer ← flag
    pure { flags, uid, gid, identity := ⟨identity, h⟩, writer }
  else throw EPROTO

/-- What `validate_metadata` asks of one file. -/
def fileOk (c : UInt32) (regular : Option RegularMetadata) (socket : Option Receipt) : Bool :=
  validClass c && (decide (c = regularFile) == regular.isSome) &&
    (decide (c = socketScm) == socket.isSome) &&
    regular.all fun m => decide (m.flags &&& 3 = 1 ∨ m.flags &&& 3 = 2) == m.writer

def validateMetadata (classes : List UInt32) (regular : List (Option RegularMetadata))
    (sockets : List (Option Receipt)) (count : ℕ) : Except ℕ Unit :=
  if classes.length ≠ count ∨ regular.length ≠ count ∨ sockets.length ≠ count then .error EPROTO
  else if ((classes.zip regular).zip sockets).all fun f => fileOk f.1.1 f.1.2 f.2 then .ok ()
  else .error EPROTO

/-- One file of a message. -/
structure FileEntry where
  fd : UInt32
  fileClass : UInt32
  regular : Option RegularMetadata
  socket : Option Receipt
  deriving DecidableEq

def encodeRegular (c : UInt32) (regular : Option RegularMetadata) : Bytes :=
  if c = regularFile then (regular.map RegularMetadata.encode).getD [] else []

def decodeRegular (c : UInt32) : Reader ℕ (Option RegularMetadata) :=
  if c = regularFile then some <$> RegularMetadata.decode else pure none

def decodeSocket (c : UInt32) : Reader ℕ (Option Receipt) :=
  if c = socketScm then do
    let bytes ← counted EPROTO
    match Receipt.fromBytes bytes with
    | some r => pure (some r)
    | none => throw EPROTO
  else pure none

def FileEntry.encode (f : FileEntry) : Bytes :=
  putU32 f.fd ++ (putU32 f.fileClass ++ (encodeRegular f.fileClass f.regular ++
    (f.socket.map fun r => putCounted r.toBytes).getD []))

/-- The body of the loops that read the files. -/
def decodeFile : Reader ℕ FileEntry := do
  let fd ← u32 EPROTO
  let fileClass ← u32 EPROTO
  if !validClass fileClass then throw EPROTO
  let regular ← decodeRegular fileClass
  let socket ← decodeSocket fileClass
  pure { fd, fileClass, regular, socket }

/-- The files by index; what a list does not have is left out. -/
def entries (fds classes : List UInt32) (regular : List (Option RegularMetadata))
    (sockets : List (Option Receipt)) : List FileEntry :=
  fds.mapIdx fun i fd =>
    { fd, fileClass := classes[i]?.getD 0, regular := regular[i]?.join, socket := sockets[i]?.join }

/-! ### Messages -/

/-- One binder ioctl. -/
structure Ioctl where
  cmd : UInt32
  arg : Bytes
  /-- Guest addresses and bytes. -/
  segments : List (UInt64 × Bytes)
  fds : List UInt32
  fileClasses : List UInt32
  regular : List (Option RegularMetadata)
  sockets : List (Option Receipt)
  /-- Placeholder fds. -/
  reserved : List UInt32
  grow : Bool
  deriving DecidableEq

/-- What the syscall layer applies when an ioctl returns. -/
structure IoctlReply where
  status : Int32
  arg : Bytes
  writes : List (UInt64 × Bytes)
  installs : List UInt32
  fileClasses : List UInt32
  regular : List (Option RegularMetadata)
  sockets : List (Option Receipt)
  /-- Buffers and transaction ids. -/
  deliveries : List (UInt64 × UInt64)
  closes : List UInt32
  drain : UInt32
  wantFds : UInt32
  deriving DecidableEq

def putSegment (s : UInt64 × Bytes) : Bytes := putU64 s.1 ++ putCounted s.2

def segment : Reader ℕ (UInt64 × Bytes) := do
  let addr ← u64 EPROTO
  let bytes ← counted EPROTO
  pure (addr, bytes)

def putDelivery (d : UInt64 × UInt64) : Bytes := putU64 d.1 ++ putU64 d.2

def delivery : Reader ℕ (UInt64 × UInt64) := do
  let buffer ← u64 EPROTO
  let id ← u64 EPROTO
  pure (buffer, id)

/-- The version that stands first. -/
def version : Reader ℕ Unit := do
  let v ← u32 EPROTO
  if v ≠ IOCTL_VERSION then throw EPROTO

namespace Ioctl

def validate (io : Ioctl) : Except ℕ Unit :=
  validateMetadata io.fileClasses io.regular io.sockets io.fds.length

def encode (io : Ioctl) : Bytes :=
  putU32 IOCTL_VERSION ++ (putU32 io.cmd ++ (putCounted io.arg ++ (putList putSegment io.segments ++
    (putList FileEntry.encode (entries io.fds io.fileClasses io.regular io.sockets) ++
      (putList putU32 io.reserved ++ putFlag io.grow)))))

def read : Reader ℕ Ioctl := do
  version
  let cmd ← u32 EPROTO
  let arg ← counted EPROTO
  let segments ← list EPROTO segment
  let files ← list EPROTO decodeFile
  let reserved ← list EPROTO (u32 EPROTO)
  let grow ← flag
  let io : Ioctl :=
    { cmd, arg, segments, fds := files.map FileEntry.fd,
      fileClasses := files.map FileEntry.fileClass, regular := files.map FileEntry.regular,
      sockets := files.map FileEntry.socket, reserved, grow }
  liftM io.validate
  pure io

def decode (b : Bytes) : Except ℕ Ioctl := whole EPROTO read b

end Ioctl

namespace IoctlReply

def validate (rep : IoctlReply) : Except ℕ Unit :=
  validateMetadata rep.fileClasses rep.regular rep.sockets rep.installs.length

def encode (rep : IoctlReply) : Bytes :=
  putU32 IOCTL_VERSION ++ (putU32 rep.status.toUInt32 ++ (putCounted rep.arg ++
    (putList putSegment rep.writes ++
      (putList FileEntry.encode
          (entries rep.installs rep.fileClasses rep.regular rep.sockets) ++
        (putList putU32 rep.closes ++ (putU32 rep.drain ++ (putU32 rep.wantFds ++
          putList putDelivery rep.deliveries)))))))

def read : Reader ℕ IoctlReply := do
  version
  let status ← u32 EPROTO
  let arg ← counted EPROTO
  let writes ← list EPROTO segment
  let files ← list EPROTO decodeFile
  let closes ← list EPROTO (u32 EPROTO)
  let drain ← u32 EPROTO
  let wantFds ← u32 EPROTO
  let deliveries ← list EPROTO delivery
  let rep : IoctlReply :=
    { status := status.toInt32, arg, writes, installs := files.map FileEntry.fd,
      fileClasses := files.map FileEntry.fileClass, regular := files.map FileEntry.regular,
      sockets := files.map FileEntry.socket, deliveries, closes, drain, wantFds }
  liftM rep.validate
  pure rep

def decode (b : Bytes) : Except ℕ IoctlReply := whole EPROTO read b

end IoctlReply

end Daemon
