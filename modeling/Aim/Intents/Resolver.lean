import Aim.Support.Candidates
import Aim.Intents.Filter

/-!
# Intents — the resolver

`com.android.server.IntentResolver`: filters indexed by MIME type, scheme and action, and the cuts of
them an intent is matched against.  The six maps of the source are one table here, whose keys say
which map they are of (`Index`).

* `add`: `addFilter`, and what it registers the filter under (`registrations`).
* `query`: `queryIntent`, over the cuts the intent has (`cuts`).
* `queryFromList`: `queryIntentFromList`, over lists of entries.

A builder's answers to `stopped` and `result` are functions of the entry; `allow` also looks at the
results so far.
-/

namespace Intents

open Candidates (under register)

/-- `Entry`: what a resolver reads of its entries. -/
class Entry (E : Type) where
  filter : E → IntentFilter
  package : E → Text

/-- `Build`: what one resolver adds to the shared matching. -/
structure Build (E R : Type) where
  /-- `isFilterStopped`. -/
  stopped : E → Bool
  /-- `allowFilterResult`. -/
  allow : E → List R → Bool
  /-- `newResult`; `none` drops the match. -/
  result : E → ℤ → Option R

/-- The fields of an intent that a resolver reads. -/
structure Intent where
  action : Option Text := none
  data : Option Uri := none
  flags : BitVec 32 := 0
  package : Option Text := none
  categories : Option (List Text) := none

def Intent.scheme (i : Intent) : Option Text := i.data.bind Uri.scheme

/-- `is_excluding_stopped`: of the two flags, the excluding one only. -/
def Intent.isExcludingStopped (i : Intent) : Bool := i.flags &&& 0x30 = 0x10

def categoryDefault : Text := "android.intent.category.DEFAULT".toList

/-! ### The index -/

/-- The maps of a resolver. -/
inductive Index where
  /-- Full MIME types, partial ones as `base/*`. -/
  | type
  | baseType
  | wildType
  | scheme
  /-- Filters with neither a scheme nor a type. -/
  | action
  | typedAction
  deriving DecidableEq

structure IntentResolver (E : Type) where
  entries : List E := []
  index : Table (Index × Text) (List ℕ) := ∅

/-- What a type is registered under. -/
def typeKeys (ty : Text) : List (Index × Text) :=
  match List.splitOnce '/' ty with
  | some (c :: base, _) => [(.type, ty), (.baseType, c :: base)]
  | _ => [(.type, ty ++ ['/', '*']), (.wildType, ty)]

/-- What a filter is registered under, in this order. -/
def registrations (f : IntentFilter) : List (Index × Text) :=
  let schemes := f.schemes.getD []
  let types := f.types.getD []
  schemes.map (fun s => (.scheme, s)) ++ types.flatMap typeKeys ++
    (if schemes = [] ∧ types = [] then f.actions.map fun a => (.action, a) else []) ++
    (if types ≠ [] then f.actions.map fun a => (.typedAction, a) else [])

variable {E R : Type} [Entry E]

def IntentResolver.add (r : IntentResolver E) (entry : E) : IntentResolver E where
  entries := r.entries ++ [entry]
  index := (registrations (Entry.filter entry)).foldl (register r.entries.length) r.index

/-- A resolver with the entries added in turn. -/
def IntentResolver.ofList (entries : List E) : IntentResolver E := entries.foldl .add {}

/-! ### Queries -/

/-- The loop of `build_resolve_list`, at one entry. -/
def resolveEntry (cases : CaseMap) (intent : Intent) (resolvedType : Option Text)
    (defaultOnly : Bool) (build : Build E R) (dest : List R) (entry : E) : Result (List R) := do
  if intent.isExcludingStopped && build.stopped entry then return dest
  if intent.package.any fun p => p ≠ Entry.package entry then return dest
  if !build.allow entry dest then return dest
  let filter := Entry.filter entry
  let matched ← filter.matchFilter cases intent.action resolvedType intent.scheme intent.data
    intent.categories false none
  if matched ≥ 0 ∧ (!defaultOnly || filter.hasCategory categoryDefault) then
    match build.result entry matched with
    | some result => return dest ++ [result]
    | none => return dest
  else return dest

def buildResolveList (cases : CaseMap) (intent : Intent) (resolvedType : Option Text)
    (defaultOnly : Bool) (build : Build E R) (dest : List R) (entries : List E) :
    Result (List R) :=
  entries.foldlM (resolveEntry cases intent resolvedType defaultOnly build) dest

/-- The cuts of the index an intent is matched against. -/
def IntentResolver.cuts (r : IntentResolver E) (intent : Intent) (resolvedType : Option Text) :
    List (List ℕ) :=
  let get := fun ix key => under r.index (ix, key)
  let typed := match resolvedType with
    | none => [[], [], []]
    | some ty =>
      match List.splitOnce '/' ty with
      | some (c :: cs, sub) =>
        let base := c :: cs
        if base ≠ wildcard then
          [if sub ≠ ['*'] then get .type ty else get .baseType base,
            get .wildType base, get .wildType wildcard]
        else
          match intent.action with
          | some action => [get .typedAction action, [], []]
          | none => [[], [], []]
      | _ => [[], [], []]
  let schemed := match intent.scheme with
    | some scheme => get .scheme scheme
    | none => []
  match resolvedType, intent.scheme, intent.action with
  | none, none, some action => [get .action action, [], [], schemed]
  | _, _, _ => typed ++ [schemed]

def IntentResolver.query (r : IntentResolver E) (cases : CaseMap) (intent : Intent)
    (resolvedType : Option Text) (defaultOnly : Bool) (build : Build E R) : Result (List R) :=
  (r.cuts intent resolvedType).foldlM (fun dest cut => do
    let entries ← cut.mapM fun i => orPanic r.entries[i]?
    buildResolveList cases intent resolvedType defaultOnly build dest entries) []

def queryFromList (lists : List (List E)) (cases : CaseMap) (intent : Intent)
    (resolvedType : Option Text) (defaultOnly : Bool) (build : Build E R) : Result (List R) :=
  lists.foldlM (buildResolveList cases intent resolvedType defaultOnly build) []

end Intents
