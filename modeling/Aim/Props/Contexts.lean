import Aim.Props.Area

/-!
# Props — Property contexts

`props/info`: the serialized trie that maps property names to SELinux contexts and types.

* `TrieBuilder.add` spreads an entry over a trie of the segments of its name: a node for each
  segment, with a list of the names that start a longer segment and one of the names that are exact.
* `buildTrie` writes the trie: tables of strings, and nodes and entries that refer to each other by
  offsets into the file.
* `PropertyInfoArea`: the search of the file, by binary search among children and by first match
  among prefixes and exact names.

The sort of the C++ library is a parameter: any that sorts.  A write outside of the arena is a fault.
-/

/-- Byte order of strings. -/
def Bytes.less : Bytes → Bytes → Bool
  | _, [] => false
  | [], _ :: _ => true
  | a :: as, b :: bs => decide (a < b) || (a == b && less as bs)

namespace Aim.Props.Contexts

def HEADER_SIZE : ℕ := 24
def PROPERTY_ENTRY_SIZE : ℕ := 16
def TRIE_NODE_SIZE : ℕ := 28
/-- `u32::MAX`: no context, no type. -/
def NONE : ℕ := 2 ^ 32 - 1

/-- One line of a contexts file. -/
structure PropertyInfoEntry where
  name : Bytes
  context : Bytes
  type : Bytes
  exactMatch : Bool

/-! ### The builder -/

structure EntryBuilder where
  name : Bytes
  context : Option Bytes
  type : Option Bytes

inductive BuilderNode where
  | mk (entry : EntryBuilder) (children : List BuilderNode)
      (prefixes exactMatches : List EntryBuilder)

namespace BuilderNode

def entry : BuilderNode → EntryBuilder
  | mk e _ _ _ => e

def children : BuilderNode → List BuilderNode
  | mk _ cs _ _ => cs

def prefixes : BuilderNode → List EntryBuilder
  | mk _ _ ps _ => ps

def exactMatches : BuilderNode → List EntryBuilder
  | mk _ _ _ es => es

def new (name : Bytes) : BuilderNode := mk ⟨name, none, none⟩ [] [] []

/-- Changes the child of that name, which is added at the end if there is none. -/
def modifyChild (name : Bytes) (f : BuilderNode → Except Bytes BuilderNode) :
    List BuilderNode → Except Bytes (List BuilderNode)
  | [] => do
    let c ← f (new name)
    return [c]
  | c :: cs =>
    if c.entry.name = name then do
      let c ← f c
      return c :: cs
    else do
      let cs ← modifyChild name f cs
      return c :: cs

/-- Changes the node at the end of a path. -/
def modifyAt (f : BuilderNode → Except Bytes BuilderNode) :
    List Bytes → BuilderNode → Except Bytes BuilderNode
  | [], n => f n
  | piece :: pieces, mk e cs ps es => do
    let cs ← modifyChild piece (modifyAt f pieces) cs
    return mk e cs ps es

/-- What an entry does at the node before its last piece. -/
def addLast (entry : PropertyInfoEntry) (last : Bytes) (endsWithDot : Bool) :
    BuilderNode → Except Bytes BuilderNode
  | mk e cs ps es =>
    let added : EntryBuilder := ⟨last, some entry.context, some entry.type⟩
    let duplicate (kind : String) : Bytes :=
      .ofAscii "Duplicate " ++ .ofAscii kind ++ .ofAscii " match detected for '" ++ entry.name ++
        .ofAscii "'"
    if entry.exactMatch then
      if es.any (·.name == last) then .error (duplicate "exact")
      else .ok (mk e cs ps (es ++ [added]))
    else if !endsWithDot then
      if ps.any (·.name == last) then .error (duplicate "prefix")
      else .ok (mk e cs (ps ++ [added]) es)
    else do
      let cs ← modifyChild last (fun
        | mk ce ccs cps ces =>
          if ce.context.isSome || ce.type.isSome then .error (duplicate "prefix")
          else .ok (mk { ce with context := some entry.context, type := some entry.type } ccs cps ces))
        cs
      return mk e cs ps es

mutual

def depth : BuilderNode → ℕ
  | mk _ cs _ _ => depths cs + 1

def depths : List BuilderNode → ℕ
  | [] => 0
  | c :: cs => max c.depth (depths cs)

end

end BuilderNode

/-- `BTreeSet::insert`. -/
def setInsert (s : Bytes) : List Bytes → List Bytes
  | [] => [s]
  | x :: xs => if s = x then x :: xs else if s.less x then s :: x :: xs else x :: setInsert s xs

structure TrieBuilder where
  root : BuilderNode
  contexts : List Bytes
  types : List Bytes

namespace TrieBuilder

def new (defaultContext defaultType : Bytes) : TrieBuilder where
  root := .mk ⟨.ofAscii "root", some defaultContext, some defaultType⟩ [] [] []
  contexts := [defaultContext]
  types := [defaultType]

/-- The pieces of a name, but for an empty last one, and whether there was one. -/
def pieces (name : Bytes) : List Bytes × Bool :=
  let pieces := segments name
  if pieces.getLast? = some [] then (pieces.dropLast, true) else (pieces, false)

def add (b : TrieBuilder) (entry : PropertyInfoEntry) : Except Bytes TrieBuilder :=
  let (pieces, endsWithDot) := pieces entry.name
  match pieces.getLast? with
  | none => .error (.ofAscii "Unable to add '" ++ entry.name ++ .ofAscii "'")
  | some last => do
    let root ← BuilderNode.modifyAt (BuilderNode.addLast entry last endsWithDot) pieces.dropLast b.root
    return ⟨root, setInsert entry.context b.contexts, setInsert entry.type b.types⟩

end TrieBuilder

/-! ### The serializer -/

/-- A comparison that sorts: its equal elements are a partition. -/
structure StrictWeak {α : Type} (less : α → α → Bool) : Prop where
  irrefl : ∀ a, less a a = false
  trans : ∀ a b c, less a b = true → less b c = true → less a c = true
  equal : ∀ a b c, less a b = false → less b a = false → less b c = false → less c b = false →
    less a c = false ∧ less c a = false

/-- `cxx_sort::sort_by`: any function that sorts, whatever the order in which it leaves equal
elements. -/
structure Sorter where
  sort : ∀ {α : Type}, (α → α → Bool) → List α → List α
  perm : ∀ {α : Type} (less : α → α → Bool) (l : List α), StrictWeak less → (sort less l).Perm l
  sorted : ∀ {α : Type} (less : α → α → Bool) (l : List α), StrictWeak less →
    (sort less l).Pairwise fun a b => less b a = false

/-- Programs over the arena; an error is the text of a rejected entry. -/
abbrev Arena := Prog Fault Bytes Memory

/-- `resize(len + n, 0)`. -/
def extend (m : Memory) (n : ℕ) : Memory :=
  ⟨m.len + n, fun i => if i < m.len then m.byte i else 0⟩

def allocate (size : ℕ) : Arena ℕ := fun m => .ok (m.len % 2 ^ 32) (extend m (align4 size))

def writeU32 (offset value : ℕ) : Arena Unit := fun m =>
  if offset + 4 ≤ m.len then .ok () (m.store offset value) else .fault .outOfRange m

/-- `data[start..start + s.len()].copy_from_slice(s)`. -/
def writeAll (offset : ℕ) (s : Bytes) : Arena Unit := fun m =>
  if offset + s.length ≤ m.len then .ok () (m.write offset s) else .fault .outOfRange m

def allocateString (s : Bytes) : Arena ℕ := do
  let offset ← allocate (s.length + 1)
  writeAll offset s
  return offset

def size : Arena ℕ := fun m => .ok (m.len % 2 ^ 32) m

/-- A sum of 32-bit words. -/
def add32 (a b : ℕ) : ℕ := (a + b) % 2 ^ 32

/-- The loops that fill an array: what each element is written as goes to its place. -/
def fill {α : Type} (write : α → Arena ℕ) (array : ℕ) : (index : ℕ) → List α → Arena Unit
  | _, [] => Pure.pure ()
  | index, x :: xs => do
    let offset ← write x
    writeU32 (add32 array (4 * index)) offset
    fill write array (index + 1) xs

def serializeStrings (strings : List Bytes) : Arena Unit := do
  let countOffset ← allocate 4
  writeU32 countOffset strings.length
  let array ← allocate (4 * strings.length)
  fill allocateString array 0 strings

def indexOf (set : List Bytes) : Option Bytes → ℕ
  | none => NONE
  | some value => if value = [] then NONE else (set.findIdx? (· == value)).getD NONE

section Serializer

variable (sorter : Sorter) (contexts types : List Bytes)

def writePropertyEntry (entry : EntryBuilder) : Arena ℕ := do
  let contextIndex := indexOf contexts entry.context
  let typeIndex := indexOf types entry.type
  let offset ← allocate PROPERTY_ENTRY_SIZE
  let nameOffset ← allocateString entry.name
  writeU32 offset nameOffset
  writeU32 (add32 offset 4) entry.name.length
  writeU32 (add32 offset 8) contextIndex
  writeU32 (add32 offset 12) typeIndex
  return offset

def writeTrieNode : (fuel : ℕ) → BuilderNode → Arena ℕ
  | 0, _ => Prog.fault .diverges
  | fuel + 1, node => do
    let trie ← allocate TRIE_NODE_SIZE
    let entry ← writePropertyEntry contexts types node.entry
    writeU32 trie entry
    let prefixes := sorter.sort (fun l r => decide (l.name.length > r.name.length)) node.prefixes
    writeU32 (add32 trie 12) prefixes.length
    let prefixArray ← allocate (4 * prefixes.length)
    writeU32 (add32 trie 16) prefixArray
    fill (writePropertyEntry contexts types) prefixArray 0 prefixes
    let exact := sorter.sort (fun l r => l.name.less r.name) node.exactMatches
    writeU32 (add32 trie 20) exact.length
    let exactArray ← allocate (4 * exact.length)
    writeU32 (add32 trie 24) exactArray
    fill (writePropertyEntry contexts types) exactArray 0 exact
    let children := sorter.sort (fun l r => l.entry.name.less r.entry.name) node.children
    writeU32 (add32 trie 4) children.length
    let childrenArray ← allocate (4 * children.length)
    writeU32 (add32 trie 8) childrenArray
    fill (writeTrieNode fuel) childrenArray 0 children
    return trie

end Serializer

/-- The file of a trie. -/
def serialize (sorter : Sorter) (b : TrieBuilder) : Arena Unit := do
  let header ← allocate HEADER_SIZE
  writeU32 header 1
  writeU32 (add32 header 4) 1
  let contextsOffset ← size
  writeU32 (add32 header 12) contextsOffset
  serializeStrings b.contexts
  let typesOffset ← size
  writeU32 (add32 header 16) typesOffset
  serializeStrings b.types
  let length ← size
  writeU32 (add32 header 8) length
  let root ← writeTrieNode sorter b.contexts b.types b.root.depth b.root
  writeU32 (add32 header 20) root
  let length ← size
  writeU32 (add32 header 8) length

def addAll (b : TrieBuilder) (entries : List PropertyInfoEntry) : Except Bytes TrieBuilder :=
  entries.foldlM TrieBuilder.add b

/-- `build_trie`: the memory it ends with is the file. -/
def buildTrie (sorter : Sorter) (entries : List PropertyInfoEntry)
    (defaultContext defaultType : Bytes) :
    Arena Unit :=
  match addAll (.new defaultContext defaultType) entries with
  | .error e => Prog.throw e
  | .ok b => serialize sorter b

/-! ### The reader -/

/-- `u32_at`: `u32::MAX` outside of the file. -/
def u32At (m : Memory) (offset : ℕ) : ℕ := if offset + 4 ≤ m.len then m.word offset else NONE

def cString (m : Memory) (offset : ℕ) : Bytes := m.cString (min offset m.len) m.len

/-- `PropertyInfoArea::new` accepts the bytes. -/
def accepts (m : Memory) : Bool :=
  HEADER_SIZE ≤ m.len && u32At m 4 ≤ 1 && u32At m 8 == m.len

/-- `from_utf8(..).unwrap_or("")`. -/
def text (bytes : Bytes) : Bytes := if Utf8.valid bytes then bytes else []

def numContexts (m : Memory) : ℕ := u32At m (u32At m 12)

def context (m : Memory) (index : ℕ) : Bytes :=
  text (cString m (u32At m (add32 (add32 (u32At m 12) 4) (4 * index))))

def typeName (m : Memory) (index : ℕ) : Bytes :=
  text (cString m (u32At m (add32 (add32 (u32At m 16) 4) (4 * index))))

/-- All context strings, in index order. -/
def allContexts (m : Memory) : List Bytes := (List.range (numContexts m)).map (context m)

def root (m : Memory) : ℕ := u32At m 20

def nodeEntry (m : Memory) (node : ℕ) : ℕ := u32At m node

def entryName (m : Memory) (entry : ℕ) : Bytes := cString m (u32At m entry)

/-- C `strncmp` over byte slices treated as strings that end at a zero byte. -/
def strncmp : (a b : Bytes) → (n : ℕ) → ℤ
  | _, _, 0 => 0
  | a, b, n + 1 =>
    let x := a.headD 0
    let y := b.headD 0
    if x ≠ y then (x.toNat : ℤ) - y.toNat else if x = 0 then 0 else strncmp a.tail b.tail n

/-- `strncmp` over the length of the name; a child of which the name is the start is greater. -/
def compareChild (childName name : Bytes) : ℤ :=
  let c := strncmp childName name (min name.length (childName.length + 1))
  if c = 0 ∧ childName.length > name.length then 1 else c

/-- The binary search among children. -/
def searchChild (m : Memory) (array : ℕ) (name : Bytes) : (fuel : ℕ) → (bottom top : ℤ) → Option ℕ
  | 0, _, _ => none
  | fuel + 1, bottom, top =>
    if top < bottom then none
    else
      let search := (top + bottom) / 2
      let child := u32At m (add32 array (4 * search.toNat))
      let c := compareChild (entryName m (nodeEntry m child)) name
      if c = 0 then some child
      else if c < 0 then searchChild m array name fuel (search + 1) top
      else searchChild m array name fuel bottom (search - 1)

def findChild (m : Memory) (node : ℕ) (name : Bytes) : Option ℕ :=
  let count := u32At m (add32 node 4)
  let array := u32At m (add32 node 8)
  searchChild m array name (count + 1) 0 (count - 1)

/-- The context and type indexes found so far. -/
abbrev Indexes := ℕ × ℕ

/-- Those of an entry, where it has any. -/
def take (m : Memory) (entry : ℕ) (found : Indexes) : Indexes :=
  (if u32At m (add32 entry 8) ≠ NONE then u32At m (add32 entry 8) else found.1,
    if u32At m (add32 entry 12) ≠ NONE then u32At m (add32 entry 12) else found.2)

/-- The first prefix that matches, from the `i`th on. -/
def scanPrefixes (m : Memory) (array : ℕ) (remaining : Bytes) (found : Indexes) :
    (left i : ℕ) → Indexes
  | 0, _ => found
  | left + 1, i =>
    let entry := u32At m (add32 array (4 * i))
    let prefixLen := u32At m (add32 entry 4)
    if prefixLen > remaining.length then scanPrefixes m array remaining found left (i + 1)
    else if strncmp (entryName m entry) remaining prefixLen = 0 then take m entry found
    else scanPrefixes m array remaining found left (i + 1)

def checkPrefixMatch (m : Memory) (remaining : Bytes) (node : ℕ) (found : Indexes) : Indexes :=
  scanPrefixes m (u32At m (add32 node 16)) remaining found (u32At m (add32 node 12)) 0

/-- The exact match, from the `i`th on. -/
def scanExact (m : Memory) (array : ℕ) (remaining : Bytes) (found : Indexes) :
    (left i : ℕ) → Option Indexes
  | 0, _ => none
  | left + 1, i =>
    let entry := u32At m (add32 array (4 * i))
    if entryName m entry = remaining then some (take m entry found)
    else scanExact m array remaining found left (i + 1)

/-- From a node on: `fuel` is more than the dots of what remains. -/
def lookup (m : Memory) : (fuel node : ℕ) → (remaining : Bytes) → Indexes → Indexes
  | 0, _, _, found => found
  | fuel + 1, node, remaining, found =>
    let found := checkPrefixMatch m remaining node (take m (nodeEntry m node) found)
    let finish : Indexes :=
      match scanExact m (u32At m (add32 node 24)) remaining found (u32At m (add32 node 20)) 0 with
      | some indexes => indexes
      | none => checkPrefixMatch m remaining node found
    match segments remaining with
    | segment :: _ :: _ =>
      match findChild m node segment with
      | some child => lookup m fuel child (remaining.drop (segment.length + 1)) found
      | none => finish
    | _ => finish

def propertyInfoIndexes (m : Memory) (name : Bytes) : Indexes :=
  lookup m (name.length + 1) (root m) name (NONE, NONE)

/-- `GetPropertyInfo`: the context and type strings. -/
def propertyInfo (m : Memory) (name : Bytes) : Option Bytes × Option Bytes :=
  let (context, type) := propertyInfoIndexes m name
  (if context ≠ NONE then some (Contexts.context m context) else none,
    if type ≠ NONE then some (typeName m type) else none)

end Aim.Props.Contexts
