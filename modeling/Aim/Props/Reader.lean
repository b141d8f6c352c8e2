import Aim.Props.Area

/-!
# Props — The reader of a property area

`PropAreaReader`: the second reader of the same bytes, as bionic reads an area that another process
writes.  Nothing is asserted: a word or a run of bytes outside the data makes the reader give up
(`None`).
-/

namespace Aim.Props.Reader

open Prog

/-- One property as a reader sees it. -/
structure ReadProperty where
  name : Bytes
  value : Bytes
  serial : ℕ
  deriving DecidableEq

/-- `PropAreaReader::new` accepts the bytes. -/
def accepts (m : Memory) : Bool :=
  PROP_AREA_HEADER_SIZE ≤ m.len && m.word 8 == PROP_AREA_MAGIC && m.word 12 == PROP_AREA_VERSION

def u32At (offset : ℕ) : Access ℕ := fun m =>
  if offset + 4 ≤ m.dataSize then .ok (m.data offset) m else .err () m

/-- Offsets beyond the data are null. -/
def obj (offset : ℕ) : Access ℕ := fun m => if offset ≤ m.dataSize then .ok offset m else .err () m

/-- `data.get(offset..offset + len)`. -/
def slice (offset len : ℕ) : Access Bytes := fun m =>
  if offset + len ≤ m.dataSize then .ok (m.read (PROP_AREA_HEADER_SIZE + offset) len) m
  else .err () m

def cStr (offset : ℕ) : Access Bytes := fun m =>
  .ok (m.cString (PROP_AREA_HEADER_SIZE + min offset m.dataSize) m.len) m

def nodeName (node : ℕ) : Access Bytes := do
  let len ← u32At node
  slice (node + TRIE_NODE_SIZE) len

/-- The sibling of that name. -/
def findSibling : (fuel node : ℕ) → (segment : Bytes) → Access ℕ
  | 0, _, _ => Prog.fault .diverges
  | fuel + 1, node, segment => do
    let name ← nodeName node
    let ordering := cmpPropName segment name
    if ordering = 0 then return node
    else do
      let link ← u32At (if ordering < 0 then node + 8 else node + 12)
      if link = 0 then Prog.throw ()
      else do
        let next ← obj link
        findSibling fuel next segment

def findNode (fuel : ℕ) : (current : ℕ) → (remaining : List Bytes) → Access ℕ
  | current, [] => Pure.pure current
  | current, segment :: remaining => do
    if segment = [] then Prog.throw ()
    else do
      let children ← u32At (current + 16)
      if children = 0 then Prog.throw ()
      else do
        let root ← obj children
        let node ← findSibling fuel root segment
        findNode fuel node remaining

def find (name : Bytes) : Access ℕ := do
  let m ← Prog.get
  let current ← findNode m.dataSize 0 (segments name)
  let prop ← u32At (current + 4)
  if prop = 0 then Prog.throw () else obj prop

/-- Read-only names use the long value when flagged; the others go through the dirty backup area
while the serial is dirty. -/
def read (info : ℕ) : Access ReadProperty := do
  let raw ← cStr (info + PROP_INFO_SIZE)
  let name := Utf8.lossy raw
  let serial ← u32At info
  let valueBytes ←
    if RO_PREFIX.isPrefixOf name then
      if serial &&& LONG_FLAG ≠ 0 then do
        let relative ← u32At (info + LONG_OFFSET_FIELD)
        cStr (info + relative)
      else cStr (info + 4)
    else do
      let raw ← slice (if serial % 2 = 1 then DIRTY_BACKUP_AREA else info + 4) (serial / 2 ^ 24 + 1)
      Pure.pure (raw.takeWhile (· != 0))
  return ⟨name, Utf8.lossy valueBytes, serial⟩

def get (name : Bytes) : Access ReadProperty := do
  let info ← find name
  read info

/-- A link, 0 where there is no word. -/
def field (offset : ℕ) : Access ℕ := fun m =>
  .ok (if offset + 4 ≤ m.dataSize then m.data offset else 0) m

/-- What `next` gives at the target of a link, if there is one. -/
def follow (next : ℕ → Access (List ReadProperty)) (link : ℕ) : Access (List ReadProperty) := do
  let offset ← field link
  let m ← Prog.get
  if offset ≠ 0 ∧ offset ≤ m.dataSize then next offset else return []

/-- The properties from a node on; `levels` is how many more levels it looks at. -/
def walk : (levels node : ℕ) → Access (List ReadProperty)
  | 0, _ => Pure.pure []
  | levels + 1, node => do
    let lefts ← follow (walk levels) (node + 8)
    let props ← follow readAll (node + 4)
    let under ← follow (walk levels) (node + 16)
    let rights ← follow (walk levels) (node + 12)
    return lefts ++ props ++ under ++ rights
where
  /-- The property of a node, unless its record cannot be read. -/
  readAll (info : ℕ) : Access (List ReadProperty) := do
    let r ← (read info).attempt
    return match r with
      | .ok p => [p]
      | .error _ => []

/-- A tree is walked to a depth of 4096. -/
def foreach : Access (List ReadProperty) := walk 4097 0

end Aim.Props.Reader
