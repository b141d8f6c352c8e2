import Aim.Support.Utf8

/-!
# Uri — the parts of a URI

`android.net.Uri` as the package manager and the app host read it: a URI is the class it was
parcelled as and its string, and every part is parsed out of the string each time it is asked for.

Strings are the lists of their characters.  The source indexes them by byte, and only ever cuts
them at the ASCII characters it searched for, so an index here is an index of characters.

* `decode`: `UriCodec.decode`, with its own way of treating a malformed escape.
* `scheme`, `authority`, `host`, `port`, `path`, `pathSegments`, `query`, `fragment`: the parts.
* `isPathPrefixMatch`: `Uri.isPathPrefixMatch`.
-/

/-- A string, as its characters. -/
abbrev Text := List Char

namespace Text

/-- The UTF-16 code units of a string. -/
def utf16 (s : Text) : List ℕ :=
  s.flatMap fun c =>
    if c.toNat < 0x10000 then [c.toNat]
    else [0xd800 + (c.toNat - 0x10000) / 0x400, 0xdc00 + (c.toNat - 0x10000) % 0x400]

/-- `java_hash`: `String.hashCode`, with the arithmetic of an `i32`. -/
def javaHash (s : Text) : BitVec 32 :=
  s.utf16.foldl (fun h c => h * 31 + BitVec.ofNat 32 c) 0

/-- `char::to_digit(16)`. -/
def hexDigit (c : Char) : Option UInt8 :=
  if '0' ≤ c ∧ c ≤ '9' then some (UInt8.ofNat (c.toNat - '0'.toNat))
  else if 'a' ≤ c ∧ c ≤ 'f' then some (UInt8.ofNat (c.toNat - 'a'.toNat + 10))
  else if 'A' ≤ c ∧ c ≤ 'F' then some (UInt8.ofNat (c.toNat - 'A'.toNat + 10))
  else none

/-- The loop of `decode`; `bytes` are the escaped bytes it has not written yet. -/
def decodeFrom (bytes : Bytes) : Text → Text
  | [] => Utf8.chars bytes
  | c :: cs =>
    if c ≠ '%' then Utf8.chars bytes ++ c :: decodeFrom [] cs
    else
      match cs with
      -- an escape cut off by the end of the string ends the decoding
      | [] => Utf8.chars bytes ++ ['�']
      | a :: cs =>
        match hexDigit a with
        -- the partial byte is added after the replacement character
        | none => Utf8.chars bytes ++ '�' :: decodeFrom [0] cs
        | some x =>
          match cs with
          | [] => Utf8.chars bytes ++ ['�']
          | b :: cs =>
            match hexDigit b with
            | none => Utf8.chars bytes ++ '�' :: decodeFrom [x] cs
            | some y => decodeFrom (bytes ++ [x * 16 + y]) cs

/-- `Uri.decode`. -/
def decode (s : Text) : Text := decodeFrom [] s

def isDigit (c : Char) : Bool := '0' ≤ c && c ≤ '9'

/-- The value of a string of digits. -/
def digits (s : Text) : ℕ := s.foldl (fun n c => n * 10 + (c.toNat - '0'.toNat)) 0

/-- `Integer.parseInt`, whose result is an `i32`. -/
def parseInt (s : Text) : Option ℤ :=
  let (negative, ds) := match s with
    | '-' :: ds => (true, ds)
    | '+' :: ds => (false, ds)
    | ds => (false, ds)
  if ds = [] ∨ ds.any (fun c => !isDigit c) then none
  else
    let n : ℤ := if negative then -digits ds else digits ds
    if -2 ^ 31 ≤ n ∧ n < 2 ^ 31 then some n else none

end Text

open Text (decode)

/-- The class a URI was parcelled as. -/
inductive UriKind where
  | stringUri | opaqueUri | hierarchicalUri | preferredHierarchicalUri
  deriving DecidableEq

structure Uri where
  kind : UriKind
  string : Text
  deriving DecidableEq

namespace Uri

/-- `Uri.parse`. -/
def parse (s : Text) : Uri := ⟨.stringUri, s⟩

/-- `findSchemeSeparator`. -/
def ssi (u : Uri) : Option ℕ := u.string.findIdx? (· == ':')

/-- Where the part after the scheme separator starts. -/
def start (u : Uri) : ℕ := (u.ssi.map (· + 1)).getD 0

/-- `findFragmentSeparator`: the first `#` from the scheme separator on. -/
def fsi (u : Uri) : Option ℕ :=
  let start := u.ssi.getD 0
  ((u.string.drop start).findIdx? (· == '#')).map (start + ·)

def scheme (u : Uri) : Option Text := u.ssi.map u.string.take

/-- `StringUri.parseSsp`. -/
def encodedSsp (u : Uri) : Text :=
  match u.fsi with
  | some fsi => if u.start ≤ fsi then (u.string.take fsi).drop u.start else []
  | none => u.string.drop u.start

/-- `StringUri.parseAuthority`: what follows `//` after the scheme separator, up to a path, query or
fragment. -/
def encodedAuthority (u : Uri) : Option Text :=
  if u.kind = .opaqueUri then none
  else
    match u.string.drop u.start with
    | '/' :: '/' :: rest =>
      some (rest.takeWhile fun c => !(c == '/' || c == '\\' || c == '?' || c == '#'))
    | _ => none

/-- The decoded authority. -/
def authority (u : Uri) : Option Text := u.encodedAuthority.map decode

/-- `findPortSeparator`: the last `:` of the authority when only digits follow it. -/
def portSeparator (authority : Text) : Option ℕ :=
  let tail := authority.reverse.takeWhile Text.isDigit
  match authority.reverse.drop tail.length with
  | ':' :: rest => some rest.length
  | _ => none

/-- `str::rfind` of a character. -/
def rfind (c : Char) (s : Text) : Option ℕ :=
  (s.reverse.findIdx? (· == c)).map fun i => s.length - 1 - i

/-- `AbstractHierarchicalUri.parseHost`. -/
def host (u : Uri) : Option Text :=
  u.encodedAuthority.map fun authority =>
    let userInfoEnd := ((rfind '@' authority).map (· + 1)).getD 0
    decode <|
      match portSeparator authority with
      | some port => if userInfoEnd ≤ port then (authority.take port).drop userInfoEnd else []
      | none => authority.drop userInfoEnd

/-- `AbstractHierarchicalUri.parsePort`: -1 without a port or when it is not a number. -/
def port (u : Uri) : ℤ :=
  match u.encodedAuthority with
  | none => -1
  | some authority =>
    match portSeparator authority with
    | none => -1
    | some sep => (Text.parseInt (decode (authority.drop (sep + 1)))).getD (-1)

/-- `HierarchicalUri.generatePath`: a path without a leading `/` gets one when the URI has a scheme
or an authority. -/
def absolute (u : Uri) (path : Text) : Text :=
  let hasSchemeOrAuthority :=
    u.scheme.any (· ≠ []) || u.encodedAuthority.any (· ≠ [])
  if (u.kind = .hierarchicalUri ∨ u.kind = .preferredHierarchicalUri) ∧ hasSchemeOrAuthority ∧
      path ≠ [] ∧ path.head? ≠ some '/' then '/' :: path
  else path

/-- `StringUri.parsePath`, made absolute for a `HierarchicalUri`. -/
def encodedPath (u : Uri) : Option Text :=
  if u.kind = .opaqueUri then none
  else
    let rest := u.string.drop u.start
    let toQuery := fun s : Text => s.takeWhile fun c => !(c == '?' || c == '#')
    if u.kind = .preferredHierarchicalUri ∧ rest = [] then some []
    else if u.ssi.isSome ∧ rest.head? ≠ some '/' then none
    else
      match rest with
      | '/' :: '/' :: s =>
        let s := s.dropWhile fun c => !(c == '/' || c == '\\' || c == '?' || c == '#')
        if s.head? = some '?' ∨ s.head? = some '#' then some (u.absolute [])
        else some (u.absolute (toQuery s))
      | s => some (u.absolute (toQuery s))

/-- The decoded path. -/
def path (u : Uri) : Option Text := u.encodedPath.map decode

/-- `getPathSegments`: the decoded non-empty segments of the path. -/
def pathSegments (u : Uri) : List Text :=
  match u.encodedPath with
  | some p => ((p.splitOn '/').filter (· ≠ [])).map decode
  | none => []

/-- `StringUri.parseQuery`. -/
def encodedQuery (u : Uri) : Option Text :=
  if u.kind = .opaqueUri then none
  else
    let start := u.ssi.getD 0
    match (u.string.drop start).findIdx? (· == '?') with
    | none => none
    | some i =>
      let qsi := start + i
      match u.fsi with
      | none => some (u.string.drop (qsi + 1))
      | some fsi => if fsi < qsi then none else some ((u.string.take fsi).drop (qsi + 1))

/-- The decoded query. -/
def query (u : Uri) : Option Text := u.encodedQuery.map decode

/-- The decoded fragment. -/
def fragment (u : Uri) : Option Text := u.fsi.map fun fsi => decode (u.string.drop (fsi + 1))

/-- The scheme-specific part, decoded. -/
def schemeSpecificPart (u : Uri) : Option Text :=
  let encoded := match u.kind with
    | .stringUri | .opaqueUri => u.encodedSsp
    | .hierarchicalUri | .preferredHierarchicalUri =>
      (match u.encodedAuthority with | some a => '/' :: '/' :: a | none => []) ++
      u.encodedPath.getD [] ++
      (match u.encodedQuery with | some (c :: q) => '?' :: c :: q | _ => [])
  some (decode encoded)

/-- `Uri.isPathPrefixMatch`: the same scheme and authority, and segments that start with those of
`above`. -/
def isPathPrefixMatch (u above : Uri) : Bool :=
  u.scheme == above.scheme && u.authority == above.authority &&
    decide (above.pathSegments.length ≤ u.pathSegments.length) &&
    (u.pathSegments.zip above.pathSegments).all fun (a, b) => a == b

end Uri
