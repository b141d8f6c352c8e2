import Aim.Props.Service
import Aim.Rc.Inputs
import Aim.Support.Follow
import Aim.Support.Table

/-!
# Props — Loading property files

The `key=value` lines of a property file, collected over the files that it imports.  An import line
loads the other file at once; with a filter only the names that match it are taken from there, and
the imports of such a file are not followed.  Nothing records which files have been loaded.

* `Loader.loadFile`: a file, with a bound on how deep imports go.
* `Loader.next`: the files that a file imports, with their filters.
* `follows_visitFile`: loading goes on with them.
-/

namespace Aim.Props

open Rc

def VENDOR_INIT_CONTEXT : Bytes := .ofAscii "u:r:vendor_init:s0"

def isCSpaceChar (c : Char) : Bool := c.toNat < 128 && isCSpace (UInt8.ofNat c.toNat)

/-- Blanks at the end go, but never the first of all. -/
def trimEnd {α : Type} (blank : α → Bool) (l : List α) : List α := (go l.reverse).reverse
where
  go : List α → List α
    | [] => []
    | [a] => [a]
    | a :: b :: l => if blank a then go (b :: l) else a :: b :: l

/-- A line of a property file. -/
inductive PropLine where
  | skipped
  | imports (file : Text) (filter : Option Text)
  | assigned (key value : Text)

def IMPORT_BLANK : Text := ['i', 'm', 'p', 'o', 'r', 't', ' ']

/-- The file and the filter of an import line, from what stands after `import`. -/
def parseImport (rest : Text) : PropLine :=
  let rest := rest.dropWhile isCSpaceChar
  if ' ' ∈ rest then
    let filter := (rest.dropWhile (· ≠ ' ')).tail.dropWhile isCSpaceChar
    .imports (rest.takeWhile (· ≠ ' ')) (if filter = [] then none else some filter)
  else .imports rest none

/-- What a line says; with a filter import lines are lines like any other. -/
def parsePropLine (filter : Option Text) (raw : Bytes) : PropLine :=
  let line := (raw.takeWhile (· ≠ 0)).dropWhile isCSpace
  if line.head? = some 35 then .skipped
  else
    let line := Utf8.chars (trimEnd isCSpace line)
    if IMPORT_BLANK.isPrefixOf line ∧ filter.getD [] = [] then parseImport (line.drop 7)
    else if '=' ∈ line then
      .assigned (trimEnd isCSpaceChar (line.takeWhile (· ≠ '=')))
        ((line.dropWhile (· ≠ '=')).tail.dropWhile isCSpaceChar)
    else .skipped

/-- Does a filter let a name pass?  `prefix*` lets the names with the prefix pass. -/
def passes (filter : Option Text) (key : Text) : Bool :=
  match filter with
  | none => true
  | some f => if f.getLast? = some '*' then f.dropLast.isPrefixOf key else key = f

/-- What loading reads. -/
structure Loader where
  image : ImageRoot
  properties : Text → Text
  vendorApiLevel : ℕ
  fields : Fields
  info : Memory

/-- What loading collects. -/
structure Loaded where
  diagnostics : List Diagnostic
  properties : Table Text Text

namespace Loader

variable (L : Loader)

def contextOf (filename : Text) : Bytes :=
  if L.vendorApiLevel ≥ ANDROID_API_P ∧
      ["/vendor".toList, "/odm".toList, "/vendor_dlkm".toList, "/odm_dlkm".toList].any
        (·.isPrefixOf filename) then VENDOR_INIT_CONTEXT
  else INIT_CONTEXT

/-- A line that gives a name its value. -/
def assign (filename : Text) (filter : Option Text) (key value : Text) (st : Loaded) : Loaded :=
  if !passes filter key then st
  else if "ctl.".toList.isPrefixOf key ∨ Utf8.ofChars key = POWERCTL ∨
      Utf8.ofChars key = RESTORECON_PROPERTY then
    { st with diagnostics := st.diagnostics ++ [⟨.error, filename, 0,
      "Ignoring disallowed property '".toList ++ key ++
        "' with special meaning in prop file '".toList ++ filename ++ ['\'']⟩] }
  else
    match PropertyService.checkPermissions L.fields L.info (Utf8.ofChars key) (Utf8.ofChars value)
      (L.contextOf filename) .INIT with
    | .ok () =>
      match st.properties.lookup key with
      | none => { st with properties := st.properties.insert key value }
      | some existing =>
        if existing ≠ value then
          { diagnostics := st.diagnostics ++ [⟨.warning, filename, 0,
              "Overriding previous property '".toList ++ key ++ "':'".toList ++ existing ++
                "' with new value '".toList ++ value ++ ['\'']⟩]
            properties := st.properties.insert key value }
        else st
    | .error (_, e) =>
      { st with diagnostics := st.diagnostics ++ [⟨.error, filename, 0,
        "Do not have permissions to set '".toList ++ key ++ "' to '".toList ++ value ++
          "' in property file '".toList ++ filename ++ "': ".toList ++ Utf8.chars e⟩] }

section Visit

variable (load : Text × Option Text → Loaded → Option (Except Text Unit × Loaded))

def loadLine (filename : Text) (filter : Option Text) (st : Loaded) (raw : Bytes) :
    Option Loaded :=
  match parsePropLine filter raw with
  | .skipped => some st
  | .assigned key value => some (L.assign filename filter key value st)
  | .imports file filter =>
    match expandProps file L.properties L.vendorApiLevel with
    | .error e => some { st with diagnostics := st.diagnostics ++
        [⟨.error, filename, 0, "Could not expand filename ': ".toList ++ e⟩] }
    | .ok expanded =>
      (load (expanded, filter) st).map fun
        | (.ok (), st) => st
        | (.error e, st) =>
          { st with diagnostics := st.diagnostics ++ [⟨.warning, filename, 0, e⟩] }

/-- The lines of a file; one newline is appended to it. -/
def linesOf (contents : Bytes) : List Bytes := ((contents ++ [10]).split 10).dropLast

/-- `load_properties_from_file`, with what loads the imports. -/
def visitFile (node : Text × Option Text) (st : Loaded) : Option (Except Text Unit × Loaded) :=
  match L.image.read node.1 with
  | .error e =>
    some (.error ("Couldn't load property file '".toList ++ node.1 ++ "': ".toList ++ e), st)
  | .ok contents =>
    ((linesOf contents).foldlM (L.loadLine load node.1 node.2) st).map (.ok (), ·)

end Visit

/-- `load_properties_from_file`; imports are followed `fuel` deep. -/
def loadFile (fuel : ℕ) (filename : Text) (filter : Option Text) (st : Loaded) :
    Option (Except Text Unit × Loaded) := Follow.run L.visitFile fuel (filename, filter) st

/-! ### Imports -/

/-- The file that a line imports, and its filter. -/
def importLine (filter : Option Text) (raw : Bytes) : Option (Text × Option Text) :=
  match parsePropLine filter raw with
  | .imports file filter =>
    (expandProps file L.properties L.vendorApiLevel).toOption.map (·, filter)
  | _ => none

def next (node : Text × Option Text) : List (Text × Option Text) :=
  match L.image.read node.1 with
  | .error _ => []
  | .ok contents => (linesOf contents).filterMap (L.importLine node.2)

variable {L} {load load' : Text × Option Text → Loaded → Option (Except Text Unit × Loaded)}
  {filename : Text} {filter : Option Text} {raw : Bytes} {st : Loaded}

/-- What a line does: it loads the file that it imports, or nothing. -/
theorem loadLine_cases (L : Loader) (filename : Text) (filter : Option Text) (raw : Bytes) :
    (L.importLine filter raw = none ∧ ∃ d : Loaded → Loaded, ∀ load st,
      L.loadLine load filename filter st raw = some (d st)) ∨
    ∃ node, ∃ d : Except Text Unit × Loaded → Loaded, L.importLine filter raw = some node ∧
      ∀ load st, L.loadLine load filename filter st raw = (load node st).map d := by
  unfold importLine loadLine
  cases parsePropLine filter raw with
  | skipped => exact .inl ⟨rfl, _, fun _ _ => rfl⟩
  | assigned key value => exact .inl ⟨rfl, _, fun _ _ => rfl⟩
  | imports file filter =>
    simp only
    cases expandProps file L.properties L.vendorApiLevel with
    | error e => exact .inl ⟨rfl, _, fun _ _ => rfl⟩
    | ok expanded => exact .inr ⟨_, _, rfl, fun _ _ => rfl⟩

/-- Loading a file goes on with those that it imports. -/
theorem follows_visitFile (L : Loader) : Follow.Follows L.visitFile L.next where
  mono {f g node s r} h hr := by
    unfold visitFile at hr ⊢
    cases hread : L.image.read node.1 with
    | error e =>
      rw [hread] at hr
      exact hr
    | ok contents =>
      rw [hread] at hr
      obtain ⟨r', hr', rfl⟩ := Option.map_eq_some_iff.1 hr
      refine Option.map_eq_some_iff.2 ⟨r', Follow.foldlM_mono (fun raw s r hs => ?_) hr', rfl⟩
      rcases L.loadLine_cases node.1 node.2 raw with ⟨-, d, hd⟩ | ⟨node', d, -, hd⟩
      · rw [hd] at hs ⊢
        exact hs
      · rw [hd] at hs ⊢
        obtain ⟨q, hq, rfl⟩ := Option.map_eq_some_iff.1 hs
        exact Option.map_eq_some_iff.2 ⟨q, h _ _ _ hq, rfl⟩
  total {f node} h s := by
    unfold visitFile
    unfold next at h
    cases hread : L.image.read node.1 with
    | error e => exact ⟨_, rfl⟩
    | ok contents =>
      rw [hread] at h
      have hline : ∀ raw ∈ linesOf contents, ∀ s, ∃ r,
          L.loadLine f node.1 node.2 s raw = some r := by
        intro raw hraw s
        rcases L.loadLine_cases node.1 node.2 raw with ⟨-, d, hd⟩ | ⟨node', d, hnode, hd⟩
        · exact ⟨_, hd f s⟩
        · obtain ⟨r, hr⟩ := h node' (List.mem_filterMap.2 ⟨raw, hraw, hnode⟩) s
          exact ⟨_, by rw [hd, hr]; rfl⟩
      obtain ⟨r, hr⟩ := Follow.foldlM_total hline s
      exact ⟨_, congrArg (Option.map (Except.ok (), ·)) hr⟩
  calls {f node s r} hr := by
    unfold visitFile at hr
    unfold next
    cases hread : L.image.read node.1 with
    | error e => exact nofun
    | ok contents =>
      rw [hread] at hr
      obtain ⟨r', hr', rfl⟩ := Option.map_eq_some_iff.1 hr
      intro node' hnode'
      obtain ⟨raw, hraw, hnode'⟩ := List.mem_filterMap.1 hnode'
      obtain ⟨s, r, hs⟩ := Follow.foldlM_calls hr' raw hraw
      rcases L.loadLine_cases node.1 node.2 raw with ⟨hnone, -⟩ | ⟨node'', d, hnode, hd⟩
      · rw [hnone] at hnode'
        cases hnode'
      rw [hnode] at hnode'
      cases hnode'
      rw [hd] at hs
      obtain ⟨q, hq, -⟩ := Option.map_eq_some_iff.1 hs
      exact ⟨s, q, hq⟩

end Loader

end Aim.Props
