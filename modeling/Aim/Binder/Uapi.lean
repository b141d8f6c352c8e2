import Aim.Support.Bytes

/-!
# Binder — The UAPI

The 64-bit Linux binder interface, protocol version 8, as `uapi.rs` has it: object types,
return numbers, and the byte layouts of the structures that cross the ioctl boundary.  A read or a
write of a field outside its byte string is `none`: the slice index of the source would fail.
-/

namespace Aim.Binder

/-- A positive Linux errno value. -/
abbrev Errno := ℤ

namespace Errno

def EPERM : Errno := 1
def ESRCH : Errno := 3
def EBADF : Errno := 9
def EFAULT : Errno := 14
def EINVAL : Errno := 22
def ENOSPC : Errno := 28

end Errno

/-! ### Numbers -/

def ioc (dir ty nr size : ℕ) : UInt32 :=
  UInt32.ofNat (dir * 2 ^ 30 + size * 2 ^ 16 + ty * 2 ^ 8 + nr)

def io (ty nr : ℕ) : UInt32 := ioc 0 ty nr 0
def FLAT_BINDER_OBJECT_SIZE : ℕ := 24
def FD_OBJECT_SIZE : ℕ := 24
def BUFFER_OBJECT_SIZE : ℕ := 40
def FD_ARRAY_OBJECT_SIZE : ℕ := 32

def packChars (c1 c2 c3 c4 : ℕ) : UInt32 :=
  UInt32.ofNat (c1 * 2 ^ 24 + c2 * 2 ^ 16 + c3 * 2 ^ 8 + c4)

def TYPE_LARGE : ℕ := 0x85
def BINDER_TYPE_BINDER : UInt32 := packChars 0x73 0x62 0x2a TYPE_LARGE
def BINDER_TYPE_WEAK_BINDER : UInt32 := packChars 0x77 0x62 0x2a TYPE_LARGE
def BINDER_TYPE_HANDLE : UInt32 := packChars 0x73 0x68 0x2a TYPE_LARGE
def BINDER_TYPE_WEAK_HANDLE : UInt32 := packChars 0x77 0x68 0x2a TYPE_LARGE
def BINDER_TYPE_FD : UInt32 := packChars 0x66 0x64 0x2a TYPE_LARGE
def BINDER_TYPE_FDA : UInt32 := packChars 0x66 0x64 0x61 TYPE_LARGE
def BINDER_TYPE_PTR : UInt32 := packChars 0x70 0x74 0x2a TYPE_LARGE

def FLAT_BINDER_FLAG_ACCEPTS_FDS : UInt32 := 0x100
def FLAT_BINDER_FLAG_TXN_SECURITY_CTX : UInt32 := 0x1000
def BINDER_BUFFER_FLAG_HAS_PARENT : UInt32 := 0x01

def TF_ACCEPT_FDS : UInt32 := 0x10
def TF_CLEAR_BUF : UInt32 := 0x20

-- returns: type letter 'r'
def BR_DEAD_REPLY : UInt32 := io 0x72 5
def BR_FAILED_REPLY : UInt32 := io 0x72 17

/-- The encoded size of an object of type `kind`, or `none` for an invalid type. -/
def objectSize (kind : UInt32) : Option ℕ :=
  if kind = BINDER_TYPE_BINDER ∨ kind = BINDER_TYPE_WEAK_BINDER ∨ kind = BINDER_TYPE_HANDLE ∨
      kind = BINDER_TYPE_WEAK_HANDLE then some FLAT_BINDER_OBJECT_SIZE
  else if kind = BINDER_TYPE_FD then some FD_OBJECT_SIZE
  else if kind = BINDER_TYPE_PTR then some BUFFER_OBJECT_SIZE
  else if kind = BINDER_TYPE_FDA then some FD_ARRAY_OBJECT_SIZE
  else none

-- A value as bionic's header computes it on arm64.
example : BINDER_TYPE_HANDLE = 0x73682a85 := by decide

/-! ### Fields in byte strings -/

def u32At (bytes : Bytes) (offset : ℕ) : Option UInt32 :=
  (Bytes.slice bytes offset 4).map fun b => UInt32.ofNat (Bytes.toNat b)

def u64At (bytes : Bytes) (offset : ℕ) : Option ℕ := (Bytes.slice bytes offset 8).map Bytes.toNat

/-- The four bytes of a word. -/
def le32 (v : UInt32) : Bytes := Bytes.ofNat 4 v.toNat

/-- The eight bytes of a long word. -/
def le64 (v : ℕ) : Bytes := Bytes.ofNat 8 v

@[simp] theorem length_le32 (v : UInt32) : (le32 v).length = 4 := Bytes.length_ofNat _ _
@[simp] theorem length_le64 (v : ℕ) : (le64 v).length = 8 := Bytes.length_ofNat _ _

/-! ### Structures -/

/-- `struct binder_transaction_data`.  `target` is the handle for a BC and the node pointer for a
BR; `buffer` and `offsets` are the `data.ptr` pair. -/
structure TransactionData where
  target : ℕ := 0
  cookie : ℕ := 0
  code : UInt32 := 0
  flags : UInt32 := 0
  senderPid : ℤ := 0
  senderEuid : UInt32 := 0
  dataSize : ℕ := 0
  offsetsSize : ℕ := 0
  buffer : ℕ := 0
  offsets : ℕ := 0

/-- `struct flat_binder_object`.  `binder` holds the handle for handle types. -/
structure FlatBinderObject where
  kind : UInt32 := 0
  flags : UInt32 := 0
  binder : ℕ := 0
  cookie : ℕ := 0

def FlatBinderObject.decode (bytes : Bytes) : Option FlatBinderObject := do
  return { kind := ← u32At bytes 0, flags := ← u32At bytes 4, binder := ← u64At bytes 8,
           cookie := ← u64At bytes 16 }

def FlatBinderObject.encode (f : FlatBinderObject) : Bytes :=
  le32 f.kind ++ le32 f.flags ++ le64 f.binder ++ le64 f.cookie

def FlatBinderObject.handle (f : FlatBinderObject) : ℕ := f.binder % 2 ^ 32

/-- `struct binder_buffer_object` (`BINDER_TYPE_PTR`). -/
structure BufferObject where
  flags : UInt32
  buffer : ℕ
  length : ℕ
  parent : ℕ
  parentOffset : ℕ

def BufferObject.decode (bytes : Bytes) : Option BufferObject := do
  return { flags := ← u32At bytes 4, buffer := ← u64At bytes 8, length := ← u64At bytes 16,
           parent := ← u64At bytes 24, parentOffset := ← u64At bytes 32 }

def BufferObject.encode (b : BufferObject) : Bytes :=
  le32 BINDER_TYPE_PTR ++ le32 b.flags ++ le64 b.buffer ++ le64 b.length ++ le64 b.parent ++
    le64 b.parentOffset

/-- `struct binder_fd_array_object` (`BINDER_TYPE_FDA`). -/
structure FdArrayObject where
  numFds : ℕ
  parent : ℕ
  parentOffset : ℕ

def FdArrayObject.decode (bytes : Bytes) : Option FdArrayObject := do
  return { numFds := ← u64At bytes 8, parent := ← u64At bytes 16,
           parentOffset := ← u64At bytes 24 }

end Aim.Binder
