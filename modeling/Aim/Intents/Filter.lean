import Aim.Intents.Pattern

/-!
# Intents — filters

`android.content.IntentFilter` and how it matches an intent: the action, then the data (the scheme,
and by it the scheme-specific part, or the authority and the path; then the MIME type), then the
categories.  A list the original keeps null is `none`, since matching tells null from empty.

Matching fails with the errors of the patterns of URI-relative groups, which are parsed when they
are matched, or panics (`Failure`).  The case mappings of Unicode are a parameter (`CaseMap`).

* `addDataType` and the other `add` functions: how filters are built.
* `findMimeType`, `matchData`, `matchFilter`: matching.
-/

namespace Intents

open Text (utf16 ofUtf16 parseInt)

/-! ### Failures -/

inductive MatchError where
  | nullPattern (kind : ℤ)
  | invalidPattern (message : String)
  | indexOutOfBounds (length index : ℕ)
  deriving DecidableEq

inductive Failure where
  | error (e : MatchError)
  | panic
  deriving DecidableEq

abbrev Result := Except Failure

/-- What may panic. -/
def orPanic {α : Type} : Option α → Result α
  | some a => .ok a
  | none => .error .panic

/-! ### Match values -/

def matchAdjustmentNormal : ℤ := 0x8000
def matchCategoryEmpty : ℤ := 0x0100000
def matchCategoryScheme : ℤ := 0x0200000
def matchCategoryHost : ℤ := 0x0300000
def matchCategoryPort : ℤ := 0x0400000
def matchCategoryPath : ℤ := 0x0500000
def matchCategorySchemeSpecificPart : ℤ := 0x0580000
def matchCategoryType : ℤ := 0x0600000
def noMatchType : ℤ := -1
def noMatchData : ℤ := -2
def noMatchAction : ℤ := -3
def noMatchCategory : ℤ := -4
def noMatchExtras : ℤ := -5

def wildcard : Text := ['*']
def wildcardPath : Text := ['/', '*']

/-! ### Authorities -/

/-- `char::to_uppercase` and `char::to_lowercase`. -/
structure CaseMap where
  toUppercase : Char → List Char
  toLowercase : Char → List Char

/-- `simple`: a case mapping's single character. -/
def simple : List Char → Option Char
  | [c] => some c
  | _ => none

/-- The unit that stands for all the cases of a unit. -/
def CaseMap.fold (cases : CaseMap) (u : ℕ) : ℕ :=
  if 0xd800 ≤ u ∧ u < 0xe000 then u
  else
    let c := Char.ofNat u
    let upper := (simple (cases.toUppercase c)).getD c
    ((simple (cases.toLowercase upper)).getD upper).toNat

def CaseMap.equalsIgnoreCase (cases : CaseMap) (a b : List ℕ) : Bool :=
  a.length = b.length && (a.zip b).all fun (x, y) => x = y || cases.fold x = cases.fold y

structure AuthorityEntry where
  origHost : Text
  /-- Without a leading `*` of a wildcard host. -/
  host : Text
  wild : Bool
  port : ℤ
  deriving DecidableEq

/-- `matches`. -/
def AuthorityEntry.matchUri (cases : CaseMap) (a : AuthorityEntry) (data : Uri) (wildcards : Bool) :
    ℤ :=
  match data.host with
  | none => if wildcards && a.wild && a.host = [] then matchCategoryHost else noMatchData
  | some host =>
    let hostMatches :=
      if !wildcards || host ≠ wildcard then
        let host := utf16 host
        let mine := utf16 a.host
        if a.wild then
          decide (mine.length ≤ host.length) &&
            cases.equalsIgnoreCase (host.drop (host.length - mine.length)) mine
        else cases.equalsIgnoreCase host mine
      else true
    if !hostMatches then noMatchData
    -- with wildcards, ports are ignored
    else if !wildcards && a.port ≥ 0 then
      if a.port ≠ data.port then noMatchData else matchCategoryPort
    else matchCategoryHost

/-! ### URI-relative filters -/

structure UriRelativeFilter where
  uriPart : ℤ
  patternType : ℤ
  filter : Option Text
  deriving DecidableEq

namespace UriRelativeFilter

/-- The matcher of the filter's pattern. -/
def matcher (f : UriRelativeFilter) : Result (Option PatternMatcher) :=
  match f.filter with
  | none =>
    if f.patternType = patternAdvancedGlob then .error (.error (.nullPattern f.patternType))
    else .ok none
  | some pattern =>
    match PatternMatcher.new pattern f.patternType with
    | .ok m => .ok (some m)
    | .error (.illegalArgument message) => .error (.error (.invalidPattern message))
    | .error (.indexOutOfBounds length index) => .error (.error (.indexOutOfBounds length index))

/-- One value against the pattern. -/
def matchValue (f : UriRelativeFilter) (matcher : Option PatternMatcher) :
    Option Text → Result Bool
  | none => .ok false
  | some value =>
    match matcher with
    | some m => orPanic (m.match? (some value))
    | none =>
      if 0 ≤ f.patternType ∧ f.patternType ≤ 4 then .error (.error (.nullPattern f.patternType))
      else .ok false

/-- `String.split`: the empty strings at the end are left out. -/
def splitValues (query : Text) (by' : Char) : List Text :=
  let values := query.splitOn by'
  let kept := (values.drop 1).reverse.dropWhile (· = [])
  let values := values.take 1 ++ kept.reverse
  if values.length = 1 ∧ values.head? = some [] ∧ query ≠ [] then [] else values

/-- `uri_parcel::Filter::match_data`. -/
def matchUri (f : UriRelativeFilter) (data : Uri) : Result Bool := do
  let matcher ← f.matcher
  if f.uriPart = 0 then f.matchValue matcher data.path
  else if f.uriPart = 1 then
    match data.query with
    | none => .ok false
    | some query =>
      let values := splitValues query '&'
      let values := if values.length = 1 then splitValues query ';' else values
      values.anyM fun value => f.matchValue matcher (some value)
  else if f.uriPart = 2 then f.matchValue matcher data.fragment
  else .ok false

end UriRelativeFilter

structure UriRelativeFilterGroup where
  action : ℤ
  filters : List UriRelativeFilter
  deriving DecidableEq

def actionAllow : ℤ := 0

/-- `match_groups`: the first group that matches decides. -/
def matchGroups (data : Uri) : List UriRelativeFilterGroup → Result Bool
  | [] => .ok false
  | group :: groups => do
    if group.filters = [] then matchGroups data groups
    else if ← group.filters.allM fun f => f.matchUri data then .ok (group.action = actionAllow)
    else matchGroups data groups

/-! ### Filters -/

structure IntentFilter where
  actions : List Text := []
  categories : Option (List Text) := none
  schemes : Option (List Text) := none
  ssps : Option (List PatternMatcher) := none
  authorities : Option (List AuthorityEntry) := none
  paths : Option (List PatternMatcher) := none
  uriRelativeFilterGroups : Option (List UriRelativeFilterGroup) := none
  staticTypes : Option (List Text) := none
  /-- The static and the dynamic types; a partial type (`image/*`) is kept as its base. -/
  types : Option (List Text) := none
  mimeGroups : Option (List Text) := none
  hasStaticPartialTypes : Bool := false
  hasDynamicPartialTypes : Bool := false
  /-- Whether the filter asks for extras; no resolution passes an intent's. -/
  extras : Bool := false
  deriving DecidableEq

/-- `mime_type`: the internal form of a type and whether it is partial. -/
def mimeType (ty : Text) : Option (Text × Bool) :=
  let t := utf16 ty
  match t.findIdx? (· = 0x2f) with
  | some slash =>
    if slash > 0 ∧ t.length ≥ slash + 2 then
      if t.length = slash + 2 ∧ t.getD (slash + 1) 0 = 0x2a then
        some (ofUtf16 (t.take slash), true)
      else some (ty, false)
    else none
  | none => none

namespace IntentFilter

def addAction (f : IntentFilter) (action : Text) : IntentFilter :=
  if action ∈ f.actions then f else { f with actions := f.actions ++ [action] }

/-- `add_data_type`: a static type; `none` for a malformed one. -/
def addDataType (f : IntentFilter) (ty : Text) : Option IntentFilter :=
  (mimeType ty).map fun (internal, isPartial) =>
    let staticTypes := f.staticTypes.getD []
    let types := f.types.getD []
    if internal ∈ types then { f with staticTypes := some staticTypes, types := some types }
    else
      { f with
        staticTypes := some (staticTypes ++ [internal]), types := some (types ++ [internal])
        hasStaticPartialTypes := f.hasStaticPartialTypes || isPartial }

def hasAction (f : IntentFilter) (action : Text) : Bool := action ∈ f.actions

def hasCategory (f : IntentFilter) (category : Text) : Bool := category ∈ f.categories.getD []

/-! ### Matching -/

def matchAction (f : IntentFilter) (action : Text) (wildcards : Bool)
    (ignore : Option (List Text)) : Bool :=
  if wildcards && action = wildcard then
    match ignore with
    | none => f.actions ≠ []
    | some ignore => f.actions.any fun a => a ∉ ignore
  else if ignore.any fun ignore => action ∈ ignore then false
  else f.hasAction action

def findMimeType (f : IntentFilter) (ty : Option Text) : Bool :=
  match f.types, ty with
  | some types, some ty =>
    let isPartial := f.hasStaticPartialTypes || f.hasDynamicPartialTypes
    if ty ∈ types then true
    -- an intent wanting every type of the filter
    else if ty = ['*', '/', '*'] then types ≠ []
    -- a filter wanting every type
    else if isPartial && ['*'] ∈ types then true
    else
      let t := utf16 ty
      match t.findIdx? (· = 0x2f) with
      | some slash =>
        if slash > 0 then
          if isPartial && ofUtf16 (t.take slash) ∈ types then true
          else if t.length = slash + 2 ∧ t.getD (slash + 1) 0 = 0x2a then
            types.any fun v => (t.take (slash + 1)).isPrefixOf (utf16 v)
          else false
        else false
      | none => false
  | _, _ => false

def matchDataAuthority (cases : CaseMap) (f : IntentFilter) (data : Option Uri) (wildcards : Bool) :
    ℤ :=
  match data, f.authorities with
  | some data, some authorities =>
    ((authorities.map fun a => a.matchUri cases data wildcards).find? (· ≥ 0)).getD noMatchData
  | _, _ => noMatchData

def hasDataSsp (f : IntentFilter) (ssp : Option Text) (wildcards : Bool) : Result Bool :=
  match f.ssps with
  | none => .ok false
  | some ssps =>
    if wildcards && ssp = some wildcard && ssps ≠ [] then .ok true
    else ssps.anyM fun p => orPanic (p.match? ssp)

def hasDataPath (f : IntentFilter) (path : Option Text) (wildcards : Bool) : Result Bool :=
  match f.paths with
  | none => .ok false
  | some paths =>
    if wildcards && path = some wildcardPath then .ok true
    else paths.anyM fun p => orPanic (p.match? path)

def matchRelRefGroups (f : IntentFilter) (data : Uri) : Result Bool :=
  matchGroups data (f.uriRelativeFilterGroups.getD [])

/-- The part of `match_data` about the scheme-specific part, the authority and the path, for a
filter that has the scheme. -/
def matchSchemeData (cases : CaseMap) (f : IntentFilter) (data : Option Uri) (wildcards : Bool) :
    Result ℤ := do
  let m ←
    match f.ssps, data with
    | some _, some data =>
      if ← f.hasDataSsp data.schemeSpecificPart wildcards then
        pure matchCategorySchemeSpecificPart
      else pure noMatchData
    | _, _ => pure matchCategoryScheme
  if m ≠ matchCategorySchemeSpecificPart ∧ f.authorities.isSome then
    -- without a scheme-specific part, an authority must match
    let auth := f.matchDataAuthority cases data wildcards
    if auth < 0 then return noMatchData
    if f.paths.isNone ∧ f.uriRelativeFilterGroups.isNone then return auth
    let data ← orPanic data
    if ← f.hasDataPath data.path wildcards then return matchCategoryPath
    if ← f.matchRelRefGroups data then return matchCategoryPath
    return noMatchData
  else return m

def matchData (cases : CaseMap) (f : IntentFilter) (ty scheme : Option Text) (data : Option Uri)
    (wildcards : Bool) : Result ℤ := do
  let wildcardWithMimeGroups := wildcards && f.mimeGroups.any (· ≠ [])
  if !wildcardWithMimeGroups && f.types.isNone && f.schemes.isNone then
    return if ty.isNone && data.isNone then matchCategoryEmpty + matchAdjustmentNormal
      else noMatchData
  let m ←
    match f.schemes with
    | some schemes =>
      if scheme.getD [] ∈ schemes ∨ (wildcards ∧ scheme = some wildcard) then
        f.matchSchemeData cases data wildcards
      else pure noMatchData
    | none =>
      -- a type-only filter matches no data, or `content:` and `file:` data
      if scheme.any fun s => s ≠ [] && s ≠ "content".toList && s ≠ "file".toList &&
          !(wildcards && s = wildcard) then pure noMatchData
      else pure matchCategoryEmpty
  if m = noMatchData then return noMatchData
  if wildcardWithMimeGroups then return matchCategoryType
  else if f.types.isSome then
    if f.findMimeType ty then return matchCategoryType + matchAdjustmentNormal
    else return noMatchType
  -- without types, only an intent without one matches
  else if ty.isSome then return noMatchType
  else return m + matchAdjustmentNormal

/-- `match_categories`: whether every category of the intent is the filter's. -/
def matchCategories (f : IntentFilter) : Option (List Text) → Bool
  | none => true
  | some categories =>
    match f.categories with
    | none => categories = []
    | some mine => categories.all fun c => c ∈ mine

/-- `matches`. -/
def matchFilter (cases : CaseMap) (f : IntentFilter) (action ty scheme : Option Text)
    (data : Option Uri) (categories : Option (List Text)) (wildcards : Bool)
    (ignoreActions : Option (List Text)) : Result ℤ := do
  if action.any fun a => !f.matchAction a wildcards ignoreActions then return noMatchAction
  let dataMatch ← f.matchData cases ty scheme data wildcards
  if dataMatch < 0 then return dataMatch
  if !f.matchCategories categories then return noMatchCategory
  if f.extras then return noMatchExtras
  return dataMatch

end IntentFilter

end Intents
