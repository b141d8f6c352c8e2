import Aim.Support.Memory
import Aim.Support.Program
import Aim.Support.Utf8

/-!
# Props — The property area

`props/area`: bionic's `prop_area`, as init writes it.  A 128-byte header, and data in which nodes of
a trie and property records are allocated one after the other; an offset is relative to the data, and
0 stands for none.

* A node has a name (one segment of a property name), a property, two siblings and a first child;
  siblings form a search tree ordered by `cmp_prop_name`.
* A property record has a serial word with the length of its value in the top byte, 92 bytes for the
  value, and the name; a longer value stands elsewhere.
* An add that runs out of space leaves what it allocated.

An access out of bounds, off the alignment or against an assertion of the source is a fault, and so
is a search that does not end; `None` is an error, which leaves the memory as it is by then.
-/

namespace Aim.Props

def PROP_AREA_MAGIC : ℕ := 0x504f5250
def PROP_AREA_VERSION : ℕ := 0xfc6ed0ab
def PROP_VALUE_MAX : ℕ := 92
def PROP_AREA_HEADER_SIZE : ℕ := 128
def TRIE_NODE_SIZE : ℕ := 20
def PROP_INFO_SIZE : ℕ := 96
/-- Bit 16 of a serial. -/
def LONG_FLAG : ℕ := 65536
def LONG_LEGACY_ERROR : Bytes := .ofAscii "Must use __system_property_read_callback() to read"
def LONG_OFFSET_FIELD : ℕ := 60
def DIRTY_BACKUP_AREA : ℕ := 20

def align4 (size : ℕ) : ℕ := (size + 3) / 4 * 4

/-- The names of read-only properties start so. -/
def RO_PREFIX : Bytes := .ofAscii "ro."

inductive Fault where
  | outOfRange
  | diverges
  deriving DecidableEq

/-- An access to the area; its error is the source's `None`. -/
abbrev Access := Prog Fault Unit Memory

end Aim.Props

namespace Memory

open Aim.Props

def dataSize (m : Memory) : ℕ := m.len - PROP_AREA_HEADER_SIZE

/-- A word of the data. -/
def data (m : Memory) (offset : ℕ) : ℕ := m.word (PROP_AREA_HEADER_SIZE + offset)

def bytesUsed (m : Memory) : ℕ := m.word 0

/-- The area serial. -/
def serial (m : Memory) : ℕ := m.word 4

end Memory

namespace Aim.Props

open Prog

/-- The area on zeroed memory; the source asserts that it holds the header, the root node and the
dirty backup area. -/
def create (len : ℕ) : Option Memory :=
  if PROP_AREA_HEADER_SIZE + DIRTY_BACKUP_AREA + PROP_VALUE_MAX ≤ len then
    some ((((Memory.zero len).store 8 PROP_AREA_MAGIC).store 12 PROP_AREA_VERSION).store 4 0
      |>.store 0 (TRIE_NODE_SIZE + align4 PROP_VALUE_MAX))
  else none

/-! ### Accesses to the data -/

def word (offset : ℕ) : Access ℕ := fun m =>
  if offset % 4 = 0 ∧ offset + 4 ≤ m.dataSize then .ok (m.data offset) m else .fault .outOfRange m

def setWord (offset v : ℕ) : Access Unit := fun m =>
  if offset % 4 = 0 ∧ offset + 4 ≤ m.dataSize then
    .ok () (m.store (PROP_AREA_HEADER_SIZE + offset) v)
  else .fault .outOfRange m

def writeBytes (offset : ℕ) (bytes : Bytes) : Access Unit := fun m =>
  if offset + bytes.length ≤ m.dataSize then .ok () (m.write (PROP_AREA_HEADER_SIZE + offset) bytes)
  else .fault .outOfRange m

def readBytes (offset len : ℕ) : Access Bytes := fun m =>
  if offset + len ≤ m.dataSize then .ok (m.read (PROP_AREA_HEADER_SIZE + offset) len) m
  else .fault .outOfRange m

def cStringAt (offset : ℕ) : Access Bytes := fun m =>
  .ok (m.cString (PROP_AREA_HEADER_SIZE + offset) m.len) m

/-- Offsets past the data are null. -/
def validOffset (offset : ℕ) : Access ℕ := fun m =>
  if offset ≤ m.dataSize then .ok offset m else .err () m

/-! ### Allocation -/

def allocate (size : ℕ) : Access ℕ := do
  let aligned := align4 size
  let m ← Prog.get
  let used := m.bytesUsed
  if used + aligned > m.dataSize then Prog.throw ()
  else do
    Prog.modify (·.store 0 (used + aligned))
    return used

def newTrieNode (name : Bytes) : Access ℕ := do
  let offset ← allocate (TRIE_NODE_SIZE + name.length + 1)
  setWord offset name.length
  writeBytes (offset + TRIE_NODE_SIZE) name
  writeBytes (offset + TRIE_NODE_SIZE + name.length) [0]
  return offset

def newPropInfo (name value : Bytes) : Access ℕ := do
  let offset ← allocate (PROP_INFO_SIZE + name.length + 1)
  if value.length ≥ PROP_VALUE_MAX then do
    let longOffset ← allocate (value.length + 1)
    writeBytes longOffset value
    writeBytes (longOffset + value.length) [0]
    let relative := longOffset - offset
    writeBytes (offset + PROP_INFO_SIZE) name
    writeBytes (offset + PROP_INFO_SIZE + name.length) [0]
    let errorLen := LONG_LEGACY_ERROR.length
    setWord offset ((errorLen * 2 ^ 24) ||| LONG_FLAG)
    writeBytes (offset + 4) LONG_LEGACY_ERROR
    writeBytes (offset + 4 + LONG_LEGACY_ERROR.length) [0]
    setWord (offset + LONG_OFFSET_FIELD) relative
  else do
    writeBytes (offset + PROP_INFO_SIZE) name
    writeBytes (offset + PROP_INFO_SIZE + name.length) [0]
    setWord offset (value.length * 2 ^ 24)
    writeBytes (offset + 4) value
    writeBytes (offset + 4 + value.length) [0]
  return offset

/-! ### The trie -/

/-- Shorter names first, then `strncmp`. -/
def cmpPropName (one two : Bytes) : ℤ :=
  if one.length < two.length then -1
  else if one.length > two.length then 1
  else strncmp one two
where
  strncmp : Bytes → Bytes → ℤ
    | a :: as, b :: bs =>
      if a ≠ b then (a.toNat : ℤ) - b.toNat else if a = 0 then 0 else strncmp as bs
    | _, _ => 0

def nodeName (node : ℕ) : Access Bytes := do
  let len ← word node
  readBytes (node + TRIE_NODE_SIZE) len

/-- The sibling of that name among those rooted at `trie`, made if it is missing and `alloc`. -/
def findTrieNode : (fuel trie : ℕ) → (name : Bytes) → (alloc : Bool) → Access ℕ
  | 0, _, _, _ => Prog.fault .diverges
  | fuel + 1, current, name, alloc => do
    let node ← nodeName current
    let ordering := cmpPropName name node
    if ordering = 0 then return current
    else do
      let link := if ordering < 0 then current + 8 else current + 12
      let offset ← word link
      if offset ≠ 0 then do
        let next ← validOffset offset
        findTrieNode fuel next name alloc
      else if !alloc then Prog.throw ()
      else do
        let newNode ← newTrieNode name
        setWord link newNode
        return newNode

/-- What stands between the dots of a name. -/
def segments (name : Bytes) : List Bytes := name.split 46

/-- The node of the remaining segments of a name, from the node of those before. -/
def findNode (fuel : ℕ) (alloc : Bool) : (current : ℕ) → (remaining : List Bytes) → Access ℕ
  | current, [] => Pure.pure current
  | current, segment :: remaining => do
    if segment = [] then Prog.throw ()
    else do
      let children ← word (current + 16)
      let root ←
        if children ≠ 0 then validOffset children
        else if alloc then do
          let node ← newTrieNode segment
          setWord (current + 16) node
          Pure.pure node
        else Prog.throw ()
      let current ← findTrieNode fuel root segment alloc
      findNode fuel alloc current remaining

/-- The offset of the record of a property. -/
def findProperty (name value : Bytes) (alloc : Bool) : Access ℕ := do
  let m ← Prog.get
  let current ← findNode m.dataSize alloc 0 (segments name)
  let prop ← word (current + 4)
  if prop ≠ 0 then validOffset prop
  else if !alloc then Prog.throw ()
  else do
    let info ← newPropInfo name value
    setWord (current + 4) info
    return info

def find (name : Bytes) : Access ℕ := findProperty name [] false

/-- False when there is no space. -/
def add (name value : Bytes) : Access Bool := do
  let r ← (findProperty name value true).attempt
  return match r with
    | .ok _ => true
    | .error _ => false

/-! ### Property records -/

def infoSerial (info : ℕ) : Access ℕ := word info

def infoName (info : ℕ) : Access Bytes := do
  let name ← cStringAt (info + PROP_INFO_SIZE)
  return Utf8.lossy name

def infoValue (info : ℕ) : Access Bytes := do
  let serial ← infoSerial info
  let name ← infoName info
  if serial &&& LONG_FLAG ≠ 0 ∧ RO_PREFIX.isPrefixOf name then do
    let relative ← word (info + LONG_OFFSET_FIELD)
    cStringAt (info + relative)
  else readBytes (info + 4) (serial / 2 ^ 24)

/-- Backs up the old value, marks the record dirty, writes, and publishes the new serial. -/
def updateValue (info : ℕ) (value : Bytes) : Access ℕ := do
  let serial ← infoSerial info
  let oldLen := serial / 2 ^ 24
  let old ← readBytes (info + 4) (oldLen + 1)
  writeBytes DIRTY_BACKUP_AREA old
  let serial := serial ||| 1
  setWord info serial
  -- strlcpy: up to the first zero byte
  let copied := value.takeWhile (· != 0)
  writeBytes (info + 4) copied
  writeBytes (info + 4 + copied.length) [0]
  let newSerial := (value.length * 2 ^ 24) % 2 ^ 32 ||| ((serial + 1) % 2 ^ 24)
  setWord info newSerial
  return newSerial

/-- What `next` gives at the target of a link, if there is one. -/
def follow (next : ℕ → Access (List ℕ)) (link : ℕ) : Access (List ℕ) := do
  let offset ← word link
  let m ← Prog.get
  if offset ≠ 0 ∧ offset ≤ m.dataSize then next offset else return []

/-- Left siblings, the property, children, right siblings. -/
def foreachNode : (fuel node : ℕ) → Access (List ℕ)
  | 0, _ => Prog.fault .diverges
  | fuel + 1, node => do
    let lefts ← follow (foreachNode fuel) (node + 8)
    let props ← follow (fun prop => Pure.pure [prop]) (node + 4)
    let under ← follow (foreachNode fuel) (node + 16)
    let rights ← follow (foreachNode fuel) (node + 12)
    return lefts ++ props ++ under ++ rights

def foreach : Access (List ℕ) := do
  let m ← Prog.get
  foreachNode m.dataSize 0

end Aim.Props
