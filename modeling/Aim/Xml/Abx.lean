import Aim.Support.Interning
import Aim.Parcels.Parcel

/-!
# Xml — binary XML

`aim-android-xml`'s `abx.rs`: after the magic, a document is one byte for each token, its event in
the low nibble and the type of its value in the high one, and the data of the token, big-endian.
The names of elements and attributes are interned, and so are the values that were written so.

* `encodeUtf`, `decodeUtf`: the strings, in modified UTF-8 with supplementary characters in four
  bytes.
* `Writer`, `Write.element`, `writeSequence`.
* `Reader`, `Read.step`, `readSequence`.
-/

namespace Xml

/-! ### Documents -/

/-- The value of an attribute.  A floating-point number is its bits, as values are compared by
them. -/
inductive Value where
  | null
  | string (s : Text)
  /-- A string written with `attributeInterned`. -/
  | interned (s : Text)
  | bytesHex (b : Bytes)
  | bytesBase64 (b : Bytes)
  | int (v : Int32)
  | intHex (v : Int32)
  | long (v : Int64)
  | longHex (v : Int64)
  | float (bits : UInt32)
  | double (bits : UInt64)
  | bool (b : Bool)
  deriving DecidableEq

mutual

inductive Node where
  | element (e : Element)
  | token (event : UInt8) (text : Option Text)

inductive Element where
  | mk (name : Text) (attrs : List (Text × Value)) (content : List Node)

end

def Element.name : Element → Text
  | ⟨name, _, _⟩ => name

/-- `element.attrs.push`. -/
def Element.pushAttr : Element → Text × Value → Element
  | ⟨name, attrs, content⟩, a => ⟨name, attrs ++ [a], content⟩

/-- `parent.content.push`. -/
def Element.push : Element → Node → Element
  | ⟨name, attrs, content⟩, n => ⟨name, attrs, content ++ [n]⟩

/-! ### The format -/

def MAGIC : Bytes := [0x41, 0x42, 0x58, 0]

def START_DOCUMENT : UInt8 := 0
def END_DOCUMENT : UInt8 := 1
def START_TAG : UInt8 := 2
def END_TAG : UInt8 := 3
def ATTRIBUTE : UInt8 := 15

def TYPE_NULL : UInt8 := 0x10
def TYPE_STRING : UInt8 := 0x20
def TYPE_STRING_INTERNED : UInt8 := 0x30
def TYPE_BYTES_HEX : UInt8 := 0x40
def TYPE_BYTES_BASE64 : UInt8 := 0x50
def TYPE_INT : UInt8 := 0x60
def TYPE_INT_HEX : UInt8 := 0x70
def TYPE_LONG : UInt8 := 0x80
def TYPE_LONG_HEX : UInt8 := 0x90
def TYPE_FLOAT : UInt8 := 0xa0
def TYPE_DOUBLE : UInt8 := 0xb0
def TYPE_BOOLEAN_TRUE : UInt8 := 0xc0
def TYPE_BOOLEAN_FALSE : UInt8 := 0xd0

/-- The index that marks a new string; also how many a document can intern. -/
def NEW : ℕ := 65535

/-- Why a document is not read or written. -/
inductive Failure where
  /-- `not ABX`. -/
  | notAbx
  /-- `ABX: truncated at …`. -/
  | truncated (at_ : ℕ)
  /-- `ABX: bad string at …`. -/
  | badString (at_ : ℕ)
  /-- `ABX: no interned string …`. -/
  | noInterned (i : ℕ)
  /-- `ABX: value type …`. -/
  | valueType (type : UInt8)
  /-- `ABX: an attribute outside an element`. -/
  | attributeOutside
  /-- `ABX: an end tag outside an element`. -/
  | endOutside
  /-- `ABX: <…> ends with </…>`. -/
  | endsWith (element name : Text)
  /-- `ABX: token … with …`. -/
  | tokenWith (event : UInt8) (value : Value)
  /-- `ABX: <…> does not end`. -/
  | unended (element : Text)
  /-- `ABX: … bytes in one value`. -/
  | tooLong (n : ℕ)
  deriving DecidableEq

/-- `to_be_bytes`. -/
def be (w n : ℕ) : Bytes := (Bytes.ofNat w n).reverse

/-- `from_be_bytes`. -/
def ofBe (b : Bytes) : ℕ := Bytes.toNat b.reverse

/-! ### Strings -/

def encodeUtf (s : Text) : Bytes :=
  s.flatMap fun c => if c = '\x00' then [0xc0, 0x80] else Utf8.encode c

/-- The low bits of a continuation byte. -/
def cont (c : UInt8) : Option ℕ := if c &&& 0xc0 = 0x80 then some (c &&& 0x3f).toNat else none

/-- The UTF-16 units that `decode_utf` makes of the bytes. -/
def decodeUnits : Bytes → Option (List ℕ)
  | [] => some []
  | b :: bs =>
    if 0xf0 ≤ b ∧ b ≤ 0xf4 then
      match bs with
      | c :: d :: e :: bs => do
        let scalar := (((b &&& 7).toNat * 64 + (← cont c)) * 64 + (← cont d)) * 64 + (← cont e)
        -- `char::from_u32` of what is not below 0x10000
        if 0x10000 ≤ scalar ∧ scalar < 0x110000 then
          let units ← decodeUnits bs
          some (Text.utf16 [Char.ofNat scalar] ++ units)
        else none
      | _ => none
    else if 0x01 ≤ b ∧ b ≤ 0x7f then do
      let units ← decodeUnits bs
      some (b.toNat :: units)
    else if 0xc0 ≤ b ∧ b ≤ 0xdf then
      match bs with
      | c :: bs => do
        let unit := (b &&& 0x1f).toNat * 64 + (← cont c)
        let units ← decodeUnits bs
        some (unit :: units)
      | _ => none
    else if 0xe0 ≤ b ∧ b ≤ 0xef then
      match bs with
      | c :: d :: bs => do
        let unit := ((b &&& 0x0f).toNat * 64 + (← cont c)) * 64 + (← cont d)
        let units ← decodeUnits bs
        some (unit :: units)
      | _ => none
    else none

def decodeUtf (b : Bytes) : Option Text := do
  let units ← decodeUnits b
  Text.fromUtf16 units

/-! ### Writing -/

/-- `Writer::default` is the writer of an empty document. -/
structure Writer where
  out : Bytes := MAGIC ++ [START_DOCUMENT ||| TYPE_NULL]
  interned : Table Text ℕ := ∅

def Writer.finish (w : Writer) : Bytes := w.out ++ [END_DOCUMENT ||| TYPE_NULL]

abbrev Write := StateT Writer (Except Failure)

/-- The type of a value. -/
def Value.kind : Value → UInt8
  | null => TYPE_NULL
  | string _ => TYPE_STRING
  | interned _ => TYPE_STRING_INTERNED
  | bytesHex _ => TYPE_BYTES_HEX
  | bytesBase64 _ => TYPE_BYTES_BASE64
  | int _ => TYPE_INT
  | intHex _ => TYPE_INT_HEX
  | long _ => TYPE_LONG
  | longHex _ => TYPE_LONG_HEX
  | float _ => TYPE_FLOAT
  | double _ => TYPE_DOUBLE
  | bool true => TYPE_BOOLEAN_TRUE
  | bool false => TYPE_BOOLEAN_FALSE

namespace Write

/-- `out.extend`. -/
def extend (b : Bytes) : Write Unit := modify fun w => { w with out := w.out ++ b }

def len (n : ℕ) : Write Unit := if n < 2 ^ 16 then extend (be 2 n) else throw (.tooLong n)

def utf (s : Text) : Write Unit := do
  let bytes := encodeUtf s
  len bytes.length
  extend bytes

def interned (s : Text) : Write Unit := do
  let w ← get
  match w.interned.lookup s with
  | some i => extend (be 2 i)
  | none =>
    extend (be 2 NEW)
    utf s
    modify fun w => { w with interned := Interning.number NEW w.interned s }

/-- The data of a value, after its type. -/
def value : Value → Write Unit
  | .null | .bool _ => pure ()
  | .string s => utf s
  | .interned s => interned s
  | .bytesHex b | .bytesBase64 b => do
    len b.length
    extend b
  | .int v | .intHex v => extend (be 4 v.toUInt32.toNat)
  | .long v | .longHex v => extend (be 8 v.toUInt64.toNat)
  | .float bits => extend (be 4 bits.toNat)
  | .double bits => extend (be 8 bits.toNat)

def attribute_ (a : Text × Value) : Write Unit := do
  extend [ATTRIBUTE ||| a.2.kind]
  interned a.1
  value a.2

def attributes : List (Text × Value) → Write Unit
  | [] => pure ()
  | a :: attrs => do
    attribute_ a
    attributes attrs

def startElement (name : Text) (attrs : List (Text × Value)) : Write Unit := do
  extend [START_TAG ||| TYPE_STRING_INTERNED]
  interned name
  attributes attrs

def endElement (name : Text) : Write Unit := do
  extend [END_TAG ||| TYPE_STRING_INTERNED]
  interned name

mutual

def element : Element → Write Unit
  | ⟨name, attrs, content⟩ => do
    startElement name attrs
    nodes content
    endElement name

def nodes : List Node → Write Unit
  | [] => pure ()
  | n :: ns => do
    node n
    nodes ns

def node : Node → Write Unit
  | .element child => element child
  | .token event none => extend [event ||| TYPE_NULL]
  | .token event (some text) => do
    extend [event ||| TYPE_STRING]
    utf text

end

def elements : List Element → Write Unit
  | [] => pure ()
  | e :: es => do
    element e
    elements es

end Write

def writeSequence (roots : List Element) : Except Failure Bytes := do
  let (_, w) ← Write.elements roots {}
  pure w.finish

/-! ### Reading -/

structure Reader where
  bytes : Bytes
  at_ : ℕ
  interned : List Text

abbrev Read := StateT Reader (Except Failure)

/-- What the loop of `read_sequence` has read. -/
structure Document where
  /-- The elements that have not ended, the innermost first. -/
  opened : List Element := []
  roots : List Element := []

namespace Read

def slice (n : ℕ) : Read Bytes := do
  let r ← get
  match Bytes.slice r.bytes r.at_ n with
  | none => throw (.truncated r.at_)
  | some out =>
    set { r with at_ := r.at_ + n }
    pure out

/-- `take` of one byte. -/
def byte : Read UInt8 := do
  let b ← slice 1
  pure (b.headD 0)

def u16 : Read ℕ := do
  let b ← slice 2
  pure (ofBe b)

def utf : Read Text := do
  let len ← u16
  let r ← get
  let b ← slice len
  match decodeUtf b with
  | none => throw (.badString r.at_)
  | some s => pure s

def interned : Read Text := do
  let i ← u16
  if i = NEW then
    let s ← utf
    modify fun r => { r with interned := Interning.record NEW r.interned s }
    pure s
  else
    let r ← get
    match r.interned[i]? with
    | none => throw (.noInterned i)
    | some s => pure s

def bytes : Read Bytes := do
  let len ← u16
  slice len

/-- `u32::from_be_bytes` of what `take` gives. -/
def u32 : Read UInt32 := do
  let b ← slice 4
  pure (UInt32.ofNat (ofBe b))

def u64 : Read UInt64 := do
  let b ← slice 8
  pure (UInt64.ofNat (ofBe b))

def value (kind : UInt8) : Read Value :=
  if kind = TYPE_NULL then pure .null
  else if kind = TYPE_STRING then .string <$> utf
  else if kind = TYPE_STRING_INTERNED then .interned <$> interned
  else if kind = TYPE_BYTES_HEX then .bytesHex <$> bytes
  else if kind = TYPE_BYTES_BASE64 then .bytesBase64 <$> bytes
  else if kind = TYPE_INT then (fun v => .int v.toInt32) <$> u32
  else if kind = TYPE_INT_HEX then (fun v => .intHex v.toInt32) <$> u32
  else if kind = TYPE_LONG then (fun v => .long v.toInt64) <$> u64
  else if kind = TYPE_LONG_HEX then (fun v => .longHex v.toInt64) <$> u64
  else if kind = TYPE_FLOAT then .float <$> u32
  else if kind = TYPE_DOUBLE then .double <$> u64
  else if kind = TYPE_BOOLEAN_TRUE then pure (.bool true)
  else if kind = TYPE_BOOLEAN_FALSE then pure (.bool false)
  else throw (.valueType (kind >>> 4))

/-- The element that ended goes to its parent, or is a root. -/
def close (e : Element) : List Element → List Element → Document
  | [], roots => { opened := [], roots := roots ++ [e] }
  | parent :: opened, roots => { opened := parent.push (.element e) :: opened, roots }

/-- One pass of the loop of `read_sequence`, after the token's byte; `none` ends the document. -/
def step (token : UInt8) (d : Document) : Read (Option Document) :=
  let event := token &&& 0x0f
  let kind := token &&& 0xf0
  if event = START_TAG then do
    let name ← interned
    pure (some { d with opened := ⟨name, [], []⟩ :: d.opened })
  else if event = ATTRIBUTE then do
    let name ← interned
    let v ← value kind
    match d.opened with
    | [] => throw .attributeOutside
    | e :: opened => pure (some { d with opened := e.pushAttr (name, v) :: opened })
  else if event = END_TAG then do
    let name ← interned
    match d.opened with
    | [] => throw .endOutside
    | e :: opened =>
      if e.name ≠ name then throw (.endsWith e.name name)
      else pure (some (close e opened d.roots))
  else if event = START_DOCUMENT then pure (some d)
  else if event = END_DOCUMENT then pure none
  else do
    let v ← value kind
    let text ← match v with
      | .null => pure none
      | .string s => pure (some s)
      | other => throw (.tokenWith event other)
    match d.opened with
    | [] => pure (some d)
    | parent :: opened =>
      pure (some { d with opened := parent.push (.token event text) :: opened })

/-- The loop of `read_sequence`, with at most `n` passes. -/
def loop : ℕ → Document → Read (Option (List Element))
  | 0, _ => pure none
  | n + 1, d => do
    let token ← byte
    match ← step token d with
    | some d => loop n d
    | none =>
      match d.opened.getLast? with
      | some e => throw (.unended e.name)
      | none => pure (some d.roots)

end Read

/-- Every pass of the loop takes a byte, so there are no more passes than bytes. -/
def readSequence (bytes : Bytes) : Except Failure (Option (List Element)) :=
  if MAGIC <+: bytes then
    Prod.fst <$> Read.loop bytes.length {} ⟨bytes, MAGIC.length, []⟩
  else .error .notAbx

end Xml
