import Aim.Support.Merkle
import Aim.Support.Program

/-!
# Fsverity — building the tree

`aim-storage`'s `fsverity/tree.rs`: the Merkle tree of a file is streamed into a metadata file
through one block-sized buffer.  The hashes of the data blocks are written to the first level; each
level is then padded, read back block by block and hashed into the next.  The descriptor has the
root and the options.

SHA-256 and SHA-512 are functions of which only the length of the result is known (`Sha`).  A file
is its bytes: `read_exact` and `write_all` go on until all the bytes are moved, so short reads and
writes do not show, and failures of the host are left out.  A sum of offsets wraps at 64 bits.

* `BuildOptions.new`, `BuildOptions.hash`.
* `levels`: the spans of the levels.
* `build`.
* `Descriptor.fromBytes`.
* `climb`: what `verify_range` does with the hash of a data block.
-/

namespace Fsverity

def EINTR : ℕ := 4
def EIO : ℕ := 5
def EINVAL : ℕ := 22
def EOVERFLOW : ℕ := 75
def EMSGSIZE : ℕ := 90

/-- `Error::Linux`. -/
inductive Error where
  | linux (errno : ℕ)
  deriving DecidableEq

/-- The two hash functions. -/
structure Sha where
  sha256 : Bytes → Bytes
  sha512 : Bytes → Bytes
  length256 : ∀ b, (sha256 b).length = 32
  length512 : ∀ b, (sha512 b).length = 64

/-! ### Options -/

structure BuildOptions where
  algorithm : UInt8
  blockSize : ℕ
  salt : Bytes
  deriving DecidableEq

def isPowerOfTwo (n : ℕ) : Bool := n == 2 ^ n.log2

/-- `trailing_zeros` of a `usize`. -/
def trailingZeros (n : ℕ) : ℕ := ((List.range 64).find? fun i => n.testBit i).getD 64

def divCeil (n k : ℕ) : ℕ := (n + k - 1) / k

namespace BuildOptions

def new (algorithm : UInt8) (blockSize : ℕ) (salt : Bytes) (pageSize fsBlockSize : ℕ) :
    Except Error BuildOptions :=
  if 32 < salt.length then .error (.linux EMSGSIZE)
  else if ¬ (algorithm = 1 ∨ algorithm = 2) ∨ isPowerOfTwo blockSize = false ∨ blockSize < 1024 ∨
      min pageSize fsBlockSize < blockSize then .error (.linux EINVAL)
  else .ok { algorithm, blockSize, salt }

def digestSize (o : BuildOptions) : ℕ := if o.algorithm = 1 then 32 else 64

/-- The hash of the bytes after the salt, which is filled up to a block of the hash function. -/
def hash (sha : Sha) (o : BuildOptions) (bytes : Bytes) : Bytes :=
  let resize (n : ℕ) : Bytes := (o.salt ++ List.replicate n 0).take n
  let salt := if o.salt = [] then [] else resize (if o.algorithm = 1 then 64 else 128)
  if o.algorithm = 1 then sha.sha256 (salt ++ bytes) else sha.sha512 (salt ++ bytes)

def fanout (o : BuildOptions) : ℕ := o.blockSize / o.digestSize

end BuildOptions

/-! ### Levels -/

def checkedMul (a b : ℕ) : Except Error ℕ :=
  if a * b < 2 ^ 64 then .ok (a * b) else .error (.linux EOVERFLOW)

def checkedAdd (a b : ℕ) : Except Error ℕ :=
  if a + b < 2 ^ 64 then .ok (a + b) else .error (.linux EOVERFLOW)

/-- The first loop of `levels`: the sizes of the levels over `hashes` hashes.  It goes on only where
a block has room for two hashes; the smallest block has room for 16. -/
def levelSizes (blockSize fanout hashes : ℕ) : Except Error (List ℕ) :=
  if 1 < fanout ∧ 1 < hashes then do
    let next := divCeil hashes fanout
    let size ← checkedMul next blockSize
    let sizes ← levelSizes blockSize fanout next
    pure (size :: sizes)
  else pure []
termination_by hashes
decreasing_by exact Merkle.blocks_lt (by omega) (by omega)

/-- The second loop of `levels`: the last level is the first in the file. -/
def place : List ℕ → Except Error (List (ℕ × ℕ) × ℕ)
  | [] => pure ([], 0)
  | size :: sizes => do
    let (out, offset) ← place sizes
    let next ← checkedAdd offset size
    pure ((offset, size) :: out, next)

def levels (size : ℕ) (o : BuildOptions) : Except Error (List (ℕ × ℕ)) := do
  let sizes ← levelSizes o.blockSize o.fanout (divCeil size o.blockSize)
  let (out, _) ← place sizes
  pure out

/-! ### Files -/

/-- The bytes of a file; past its end there are none. -/
structure File where
  mem : Memory
  beyond : ∀ i, mem.len ≤ i → mem.byte i = 0

/-- `pwrite`: the file grows to where the bytes end. -/
def File.write (f : File) (offset : ℕ) (bytes : Bytes) : File where
  mem := { f.mem.write offset bytes with len := max f.mem.len (offset + bytes.length) }
  beyond i hi := by
    have hi' : max f.mem.len (offset + bytes.length) ≤ i := hi
    rw [Memory.byte_write_ne (by omega)]
    exact f.beyond i (by omega)

def readExact (f : Memory) (n offset : ℕ) : Except Error Bytes :=
  if n = 0 then .ok []
  else if 2 ^ 63 ≤ offset then .error (.linux EOVERFLOW)
  else if f.len < offset + n then .error (.linux EIO)
  else .ok (f.read offset n)

def writeAll (f : File) (bytes : Bytes) (offset : ℕ) : Except Error File :=
  if bytes = [] then .ok f
  else if 2 ^ 63 ≤ offset + bytes.length then .error (.linux EOVERFLOW)
  else .ok (f.write offset bytes)

/-- The data file. -/
def ofBytes (b : Bytes) : Memory := ⟨b.length, fun i => b.getD i 0⟩

/-! ### Descriptors -/

/-- A descriptor is 256 bytes. -/
structure Descriptor where
  bytes : Memory
  options : BuildOptions

namespace Descriptor

def fromBytes (bytes : Memory) : Except Error Descriptor :=
  if bytes.byte 0 ≠ 1 ∨ ¬ (bytes.byte 1 = 1 ∨ bytes.byte 1 = 2) ∨
      ¬ (10 ≤ bytes.byte 2 ∧ bytes.byte 2 ≤ 16) ∨ 32 < bytes.byte 3 ∨
      (bytes.read 4 4 ++ bytes.read 112 144).any (· ≠ 0) then .error (.linux EIO)
  else
    let options : BuildOptions :=
      { algorithm := bytes.byte 1
        blockSize := 1 <<< (bytes.byte 2).toNat
        salt := bytes.read 80 (bytes.byte 3).toNat }
    if (bytes.read (16 + options.digestSize) (80 - (16 + options.digestSize)) ++
        bytes.read (80 + options.salt.length) (112 - (80 + options.salt.length))).any (· ≠ 0) then
      .error (.linux EIO)
    else .ok { bytes, options }

def dataSize (d : Descriptor) : ℕ := Bytes.toNat (d.bytes.read 8 8)

def root (d : Descriptor) : Bytes := d.bytes.read 16 d.options.digestSize

def levels (d : Descriptor) : Except Error (List (ℕ × ℕ)) :=
  Fsverity.levels d.dataSize d.options

end Descriptor

/-- What `build` writes to the descriptor. -/
def describe (o : BuildOptions) (size : ℕ) (root : Bytes) : Descriptor where
  bytes :=
    ((((Memory.zero 256).write 0
      [1, o.algorithm, UInt8.ofNat (trailingZeros o.blockSize), UInt8.ofNat o.salt.length]).write 8
        (Bytes.ofNat 8 size)).write 16 root).write 80 o.salt
  options := o

/-! ### Building -/

structure State where
  tree : File
  /-- How often `interrupted` was called. -/
  calls : ℕ

/-- A fault is an index out of bounds. -/
abbrev Build := Prog Unit Error State

namespace Build

variable (sha : Sha) (interrupted : ℕ → Bool) (data : Bytes) (treeOffset : ℕ) (o : BuildOptions)

def lift {α : Type} : Except Error α → Build α
  | .ok a => pure a
  | .error e => Prog.throw e

/-- A sum of offsets. -/
def wrap (n : ℕ) : ℕ := n % 2 ^ 64

def check : Build Unit := do
  let s ← Prog.get
  Prog.modify fun s => { s with calls := s.calls + 1 }
  if interrupted s.calls then Prog.throw (.linux EINTR) else pure ()

/-- `write_all` to the tree. -/
def write (bytes : Bytes) (offset : ℕ) : Build Unit := do
  let s ← Prog.get
  let tree ← lift (writeAll s.tree bytes offset)
  Prog.modify fun s => { s with tree }

/-- `read_exact` of the tree. -/
def read (n offset : ℕ) : Build Bytes := do
  let s ← Prog.get
  lift (readExact s.tree.mem n offset)

/-- The buffer, filled with zeros where the data ends. -/
def buffer (bytes : Bytes) : Bytes := bytes ++ List.replicate (o.blockSize - bytes.length) 0

/-- The hash of a data block, to the first level. -/
def leaf (first index : ℕ) : Build Unit := do
  check interrupted
  let offset := index * o.blockSize
  let n := min (data.length - offset) o.blockSize
  let bytes ← lift (readExact (ofBytes data) n offset)
  write (o.hash sha (buffer o bytes)) (wrap (treeOffset + first + index * o.digestSize))

/-- A block of a level: its hash is the root, or goes to the level `above`. -/
def node (offset : ℕ) (above : List (ℕ × ℕ)) (root : Bytes) (index : ℕ) : Build Bytes := do
  check interrupted
  let bytes ← read o.blockSize (wrap (treeOffset + offset + index * o.blockSize))
  let hash := o.hash sha bytes
  match above with
  | [] => pure hash
  | (next, _) :: _ =>
    write hash (wrap (treeOffset + next + index * o.digestSize))
    pure root

/-- The zeros after the hashes of a level. -/
def pad (hashes offset length : ℕ) : Build Unit :=
  let used := hashes * o.digestSize
  let padding := length - used
  if 0 < padding then write (List.replicate padding 0) (wrap (treeOffset + offset + used))
  else pure ()

/-- The loop over the levels; `hashes` is how many the first of them has. -/
def levelLoop : (hashes : ℕ) → List (ℕ × ℕ) → (root : Bytes) → Build Bytes
  | _, [], root => pure root
  | hashes, (offset, length) :: above, root => do
    pad treeOffset o hashes offset length
    let root ← (List.range (length / o.blockSize)).foldlM
      (node sha interrupted treeOffset o offset above) root
    levelLoop (length / o.blockSize) above root

/-- The root of the tree. -/
def root (layout : List (ℕ × ℕ)) : Build Bytes :=
  let blocks := divCeil data.length o.blockSize
  if blocks = 1 then do
    let bytes ← lift (readExact (ofBytes data) data.length 0)
    pure (o.hash sha (buffer o bytes))
  else if 1 < blocks then
    match layout with
    | [] => Prog.fault ()
    | (first, _) :: _ => do
      (List.range blocks).forM (leaf sha interrupted data treeOffset o first)
      levelLoop sha interrupted treeOffset o blocks layout (List.replicate o.digestSize 0)
  else pure (List.replicate o.digestSize 0)

end Build

def build (sha : Sha) (interrupted : ℕ → Bool) (data : Bytes) (treeOffset : ℕ)
    (options : BuildOptions) : Build Descriptor := do
  let o ← Build.lift
    (BuildOptions.new options.algorithm options.blockSize options.salt 65536 65536)
  let layout ← Build.lift (levels data.length o)
  let root ← Build.root sha interrupted data treeOffset o layout
  let descriptor := describe o data.length root
  Build.check interrupted
  pure descriptor

/-- The loop of `verify_range` over the levels, from the hash of a data block: each hash must stand
in its block of the level.  The hash it ends with is compared with the root. -/
def climb (sha : Sha) (tree : File) (treeOffset : ℕ) (o : BuildOptions) :
    List (ℕ × ℕ) → (at_ : ℕ) → (digest : Bytes) → Except Error Bytes
  | [], _, digest => pure digest
  | (offset, _) :: above, at_, digest => do
    let node ← readExact tree.mem o.blockSize
      (Build.wrap (treeOffset + offset + at_ / o.fanout * o.blockSize))
    let entry := at_ % o.fanout * o.digestSize
    if (node.drop entry).take digest.length ≠ digest then .error (.linux EIO)
    else climb sha tree treeOffset o above (at_ / o.fanout) (o.hash sha node)

end Fsverity
