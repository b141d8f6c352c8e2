import Aim.Rc.Inputs
import Aim.Rc.Tokenizer
import Aim.Support.Follow

/-!
# Rc — The parser of init scripts

The sections of a script, line by line, and the files that a script imports.  The imports of a file
are parsed when it ends, in the order of the file and each with its own imports first; nothing
records which files have been parsed.

The parsers of services, triggers and commands are parts of the environment: what they accept makes
no difference to which files are read.

* `Env.parseConfig`: a file or a directory, with a bound on how deep imports go.
* `Env.importsOf`: the paths that the text of a file imports.
* `follows_visitConfig`: parsing goes on with the imports of the files of a path.
-/

namespace Aim.Rc

open List Nat

/-! ### Scripts -/

structure Service (σ : Type) where
  name : Text
  filename : Text
  isOverride : Bool
  updatable : Bool
  vendorSubcontext : Bool
  options : σ

structure Action (τ κ : Type) where
  triggers : τ
  commands : List κ
  filename : Text
  line : ℕ
  vendorSubcontext : Bool

inductive SectionKind where
  | boot
  | apex
deriving DecidableEq

structure ParsedScripts (σ τ κ : Type) where
  services : List (Service σ)
  actions : List (Action τ κ)
  files : List Text
  diagnostics : List Diagnostic
  parseErrorCount : ℕ

inductive OptionOutcome where
  | ok
  | warning (w : Text)
  | error (e : Text)

/-- What a parser has from the start, and the parsers of what stands in a section. -/
structure Env (σ τ κ : Type) where
  properties : Text → Text
  vendorApiLevel : ℕ
  kind : SectionKind
  image : Option ImageRoot
  vendorApexes : List Text
  beginService : (args : List Text) → (filename : Text) → (line : ℕ) → (vendor : Bool) →
    Except Text (Service σ)
  parseOption : Service σ → (args : List Text) → (line : ℕ) → (services : List (Service σ)) →
    Service σ × OptionOutcome
  endServiceChecks : Service σ → Except Text (Option Text)
  parseTriggers : List Text → (vendorApiLevel : ℕ) → Except Text τ
  parseCommand : List Text → (line : ℕ) → Except Text κ

/-- The section that is read. -/
inductive Section (σ τ κ : Type) where
  | service (s : Service σ)
  | action (a : Action τ κ)
  | imports

variable {σ τ κ : Type}

namespace ParsedScripts

/-- A parse error is counted. -/
def error (s : ParsedScripts σ τ κ) (file : Text) (line : ℕ) (message : Text) :
    ParsedScripts σ τ κ :=
  { s with
    parseErrorCount := s.parseErrorCount + 1
    diagnostics := s.diagnostics ++ [⟨.error, file, line, message⟩] }

def logError (s : ParsedScripts σ τ κ) (file : Text) (line : ℕ) (message : Text) :
    ParsedScripts σ τ κ :=
  { s with diagnostics := s.diagnostics ++ [⟨.error, file, line, message⟩] }

def warning (s : ParsedScripts σ τ κ) (file : Text) (line : ℕ) (message : Text) :
    ParsedScripts σ τ κ :=
  { s with diagnostics := s.diagnostics ++ [⟨.warning, file, line, message⟩] }

end ParsedScripts

/-- `GetApexNameFromFileName`. -/
def apexNameFromFileName (path : Text) : Option Text :=
  if "/apex/".toList.isPrefixOf path then some ((path.drop 6).takeWhile (· ≠ '/')) else none

def IMPORT : Text := ['i', 'm', 'p', 'o', 'r', 't']
def SERVICE : Text := ['s', 'e', 'r', 'v', 'i', 'c', 'e']
def ON : Text := ['o', 'n']

namespace Env

variable (env : Env σ τ κ)

def pathInVendorSubcontext (path : Text) : Bool :=
  if env.vendorApiLevel < ANDROID_API_P then false
  else
    match apexNameFromFileName path with
    | some apex => env.vendorApexes.any (· = apex)
    | none => "/vendor".toList.isPrefixOf path || "/odm".toList.isPrefixOf path

def isSectionKeyword (keyword : Text) : Bool :=
  if keyword = SERVICE ∨ keyword = ON then true
  else if keyword = IMPORT then env.kind = .boot
  else false

/-! ### Sections -/

/-- `ServiceParser::EndSection`. -/
def endService (scripts : ParsedScripts σ τ κ) (service : Service σ) (filename : Text) (line : ℕ) :
    Except Text Unit × ParsedScripts σ τ κ :=
  match env.endServiceChecks service with
  | .error e => (.error e, scripts)
  | .ok checked =>
    let scripts := match checked with
      | some w => scripts.warning filename line w
      | none => scripts
    match scripts.services.find? (·.name = service.name) with
    | some old =>
      if !service.isOverride then
        (.error ("ignored duplicate definition of service '".toList ++ service.name ++ ['\'']),
          scripts)
      else if "/apex/".toList.isPrefixOf filename ∧ !old.updatable then
        (.error ("cannot update a non-updatable service '".toList ++ service.name ++
          "' with a config in APEX".toList), scripts)
      else if old.vendorSubcontext ≠ service.vendorSubcontext then
        (.error ("service '".toList ++ service.name ++
          "' overrides another service across the treble boundary.".toList), scripts)
      else
        (.ok (), { scripts with
          services := scripts.services.eraseP (·.name = service.name) ++ [service] })
    | none => (.ok (), { scripts with services := scripts.services ++ [service] })

/-- Actions with no commands are dropped. -/
def endSection (filename : Text) (startLine : ℕ) (current : Option (Section σ τ κ))
    (scripts : ParsedScripts σ τ κ) : ParsedScripts σ τ κ :=
  match current with
  | none => scripts
  | some .imports => scripts
  | some (.action a) =>
    if a.commands.isEmpty then scripts else { scripts with actions := scripts.actions ++ [a] }
  | some (.service s) =>
    match env.endService scripts s filename startLine with
    | (.ok (), scripts) => scripts
    | (.error e, scripts) => scripts.error filename startLine e

/-- The new section, and the path that it imports. -/
def beginSection (args : List Text) (filename : Text) (line : ℕ) :
    Except Text (Section σ τ κ × Option Text) :=
  if args.head? = some SERVICE then
    (env.beginService args filename line (env.pathInVendorSubcontext filename)).map
      fun s => (.service s, none)
  else if args.head? = some ON then
    if args.tail.isEmpty then .error "Actions must have a trigger".toList
    else
      let vendor := env.pathInVendorSubcontext filename
      if "/apex/".toList.isPrefixOf filename ∧ !vendor then
        .error "ParseSection() failed: 'on' is supported for only Vendor APEXes.".toList
      else
        match env.parseTriggers args.tail env.vendorApiLevel with
        | .error e => .error ("ParseTriggers() failed: ".toList ++ e)
        | .ok triggers => .ok (.action ⟨triggers, [], filename, line, vendor⟩, none)
  else
    match args with
    | [_, path] =>
      match expandProps path env.properties env.vendorApiLevel with
      | .error e => .error ("Could not expand import: ".toList ++ e)
      | .ok path => .ok (.imports, some path)
    | _ => .error "single argument needed for import\n".toList

/-- The section and the scripts after a line, with the error of the line. -/
def parseLine (current : Section σ τ κ) (args : List Text) (line : ℕ)
    (scripts : ParsedScripts σ τ κ) :
    Section σ τ κ × ParsedScripts σ τ κ × Option Text :=
  match current with
  | .service s =>
    let (s', outcome) := env.parseOption s args line scripts.services
    match outcome with
    | .ok => (.service s', scripts, none)
    | .warning w => (.service s', scripts.warning s.filename line w, none)
    | .error e => (.service s', scripts, some e)
  | .action a =>
    match env.parseCommand args line with
    | .ok command => (.action { a with commands := a.commands ++ [command] }, scripts, none)
    | .error e => (.action a, scripts, some e)
  | .imports => (.imports, scripts, some "Unexpected line found after import statement".toList)

/-! ### Files -/

/-- The variables of `parse_data`; `imports` are the pending imports, which are empty between
files. -/
structure Reading (σ τ κ : Type) where
  scripts : ParsedScripts σ τ κ
  current : Option (Section σ τ κ)
  startLine : ℕ
  badSectionFound : Bool
  args : List Text
  imports : List (Text × ℕ)

/-- The end of a line that has arguments. -/
def endLine (filename : Text) (line : ℕ) (r : Reading σ τ κ) : Reading σ τ κ :=
  if env.isSectionKeyword (r.args.headD []) then
    let scripts := env.endSection filename r.startLine r.current r.scripts
    match env.beginSection r.args filename line with
    | .ok (s, path) =>
      ⟨scripts, some s, line, false, [], r.imports ++ (path.map (·, line)).toList⟩
    | .error e => ⟨scripts.error filename line e, none, line, true, [], r.imports⟩
  else
    match r.current with
    | some s =>
      let (s', scripts, e) := env.parseLine s r.args line r.scripts
      let scripts := match e with
        | some e => scripts.error filename line e
        | none => scripts
      { r with scripts, current := some s', args := [] }
    | none =>
      if r.badSectionFound then { r with args := [] }
      else
        { r with
          scripts := r.scripts.error filename line "Invalid section keyword found".toList
          args := [] }

def token (filename : Text) (r : Reading σ τ κ) (e : Token × Tokenizer) : Reading σ τ κ :=
  match e.1 with
  | .eof => r
  | .newline => if r.args = [] then r else env.endLine filename e.2.line r
  | .text s => { r with args := r.args ++ [s] }

end Env

/-- The tokens of a file, each with the tokenizer as it is then. -/
def events (contents : Bytes) : List (Token × Tokenizer) :=
  (run (2 * contents.length + 6) (.new contents)).getD []

namespace Env

variable (env : Env σ τ κ) (follow : Text → ParsedScripts σ τ κ →
  Option (Bool × ParsedScripts σ τ κ))

/-- The file up to its end, with the imports that are still to be parsed. -/
def readData (filename : Text) (contents : Bytes) (scripts : ParsedScripts σ τ κ) :
    ParsedScripts σ τ κ × List (Text × ℕ) :=
  let r := (events contents).foldl (env.token filename)
    ⟨{ scripts with files := scripts.files ++ [filename] }, none, 0, false, [], []⟩
  (env.endSection filename r.startLine r.current r.scripts, r.imports)

/-- `ImportParser::EndFile`. -/
def endFile (imports : List (Text × ℕ)) (scripts : ParsedScripts σ τ κ) :
    Option (ParsedScripts σ τ κ) :=
  imports.foldlM (fun scripts p => (follow p.1 scripts).map (·.2)) scripts

def parseData (filename : Text) (contents : Bytes) (scripts : ParsedScripts σ τ κ) :
    Option (ParsedScripts σ τ κ) :=
  let (scripts, imports) := env.readData filename contents scripts
  endFile follow imports scripts

/-- One file of a directory. -/
def parseDirFile (image : ImageRoot) (scripts : ParsedScripts σ τ κ) (file : Text) :
    Option (ParsedScripts σ τ κ) :=
  match image.read file with
  | .ok contents => env.parseData follow file contents scripts
  | .error e => some (scripts.logError file 0 ("could not import file '".toList ++ file ++
      "': Unable to read config file '".toList ++ file ++ "': ".toList ++ e))

def parseConfigDir (image : ImageRoot) (path : Text) (scripts : ParsedScripts σ τ κ) :
    Option (Bool × ParsedScripts σ τ κ) :=
  match image.regularFiles path with
  | .error e =>
    some (false, scripts.warning path 0
      ("Could not import directory '".toList ++ path ++ "': ".toList ++ e))
  | .ok files =>
    ((files.mergeSort fun a b => decide (a ≤ b)).foldlM (env.parseDirFile follow image) scripts).map
      (true, ·)

/-- `Parser::ParseConfig`, with what parses the imports. -/
def visitConfig (path : Text) (scripts : ParsedScripts σ τ κ) :
    Option (Bool × ParsedScripts σ τ κ) :=
  match env.image with
  | none => some (false, scripts.logError path 0 "no image to read scripts from".toList)
  | some image =>
    if image.isDir path then env.parseConfigDir follow image path scripts
    else
      match image.read path with
      | .ok contents => (env.parseData follow path contents scripts).map (true, ·)
      | .error e => some (false, scripts.warning path 0
          ("Unable to read config file '".toList ++ path ++ "': ".toList ++ e))

/-- `Parser::ParseConfig`; imports are followed `fuel` deep. -/
def parseConfig (fuel : ℕ) (path : Text) (scripts : ParsedScripts σ τ κ) :
    Option (Bool × ParsedScripts σ τ κ) := Follow.run env.visitConfig fuel path scripts

end Env

/-! ### Tokens come to an end -/

/-- What a tokenizer still has to do. -/
def Tokenizer.todo (t : Tokenizer) : ℕ := 2 * t.rest.length + if t.nextNewline then 1 else 0

/-- A scan leaves no more to do than its bytes call for. -/
theorem scan_todo {m : Mode} {text bs : Bytes} {n : ℕ} :
    (scan m text n bs).2.todo ≤ 2 * bs.length := by
  fun_induction scan m text n bs
  all_goals first
    | exact le_trans (by assumption) (mul_le_mul_left 2 (by simp only [length_cons]; omega))
    | simp only [Tokenizer.todo, Bool.false_eq_true, if_true, if_false, length_cons]; omega

theorem scan_text_todo {b : UInt8} {text bs : Bytes} {n : ℕ} (hb : b ∉ [0, 10, 32, 9, 13, 35]) :
    (scan .plain text n (b :: bs)).2.todo < 2 * (bs.length + 1) := by
  simp only [mem_cons, not_mem_nil, or_false, not_or] at hb
  obtain ⟨h0, h10, h32, h9, h13, -⟩ := hb
  have hscan : ∀ m text n (cs : Bytes), cs.length ≤ bs.length →
      (scan m text n cs).2.todo < 2 * (bs.length + 1) := fun m text n cs hcs =>
    lt_of_le_of_lt scan_todo (by omega)
  have hite : ∀ {p : Prop} [Decidable p] {x y : Token × Tokenizer} {k : ℕ}, x.2.todo < k →
      y.2.todo < k → (if p then x else y).2.todo < k := by
    intro p _ x y k hx hy
    split
    · exact hx
    · exact hy
  rw [scan.eq_def]
  simp only [h0, h10, h32, h9, h13, or_self, and_false, if_false]
  refine hite (hscan _ _ _ _ (le_refl _)) (hite ?_ (hscan _ _ _ _ (le_refl _)))
  -- an escape takes the byte after it, or two of a continued line
  rcases bs with - | ⟨c, cs⟩
  · exact Nat.two_pos
  have hcs := fun m text n => hscan m text n cs (le_succ _)
  refine hite ?_ (hite (hcs _ _ _) (hite (hcs _ _ _) (hite (hcs _ _ _) (hite (hcs _ _ _)
    (hite ?_ (hite (hcs _ _ _) (hcs _ _ _)))))))
  · exact Nat.mul_lt_mul_of_pos_left (Nat.lt_succ_self _) Nat.two_pos
  · rcases cs with - | ⟨d, ds⟩
    · exact hscan _ _ _ _ (zero_le _)
    · exact hite (hscan _ _ _ _ (by simp only [length_cons]; omega)) (hcs _ _ _)

theorem comment_length {bs : Bytes} : (∃ rest, comment bs = .token .eof rest) ∨
    ∃ rest, comment bs = .token .newline rest ∧ rest.length < bs.length := by
  induction bs with
  | nil => exact .inl ⟨[], rfl⟩
  | cons b bs ih =>
    unfold comment
    split_ifs
    · exact .inl ⟨_, rfl⟩
    · exact .inr ⟨_, rfl, lt_succ_self _⟩
    · rcases ih with h | ⟨rest, hs, hlt⟩
      · exact .inl h
      · exact .inr ⟨rest, hs, lt_succ_of_lt hlt⟩

/-- The first loop leaves less than it found, or the start of a text. -/
theorem start_length {bs : Bytes} : (∃ rest, start bs = .token .eof rest) ∨
    (∃ rest, start bs = .token .newline rest ∧ rest.length < bs.length) ∨
    ∃ b cs, start bs = .text (b :: cs) ∧ b ∉ [0, 10, 32, 9, 13, 35] ∧ cs.length < bs.length := by
  induction bs with
  | nil => exact .inl ⟨[], rfl⟩
  | cons b bs ih =>
    unfold start
    split_ifs with h0 h10 hbl h35
    · exact .inl ⟨_, rfl⟩
    · exact .inr (.inl ⟨_, rfl, lt_succ_self _⟩)
    · rcases ih with h | ⟨rest, hs, hlt⟩ | ⟨c, cs, hs, hc, hlt⟩
      · exact .inl h
      · exact .inr (.inl ⟨rest, hs, lt_succ_of_lt hlt⟩)
      · exact .inr (.inr ⟨c, cs, hs, hc, lt_succ_of_lt hlt⟩)
    · rcases @comment_length bs with h | ⟨rest, hs, hlt⟩
      · exact .inl h
      · exact .inr (.inl ⟨rest, hs, lt_succ_of_lt hlt⟩)
    · refine .inr (.inr ⟨b, bs, rfl, ?_, lt_succ_self _⟩)
      simp_all

/-- Every token but the last leaves less to do. -/
theorem nextToken_todo {t : Tokenizer} (h : t.nextToken.1 ≠ .eof) :
    t.nextToken.2.todo < t.todo := by
  obtain ⟨rest, line, pending⟩ := t
  cases pending with
  | true => simp [Tokenizer.nextToken, Tokenizer.todo]
  | false =>
    rw [Tokenizer.nextToken, if_neg Bool.false_ne_true] at h ⊢
    rcases @start_length rest with ⟨rest', hs⟩ | ⟨rest', hs, hlt⟩ | ⟨b, cs, hs, hb, hlt⟩
    · rw [hs] at h
      exact absurd rfl h
    · rw [hs]
      simp [Tokenizer.todo, hlt]
    · rw [hs]
      have := @scan_text_todo b [] cs line hb
      simp only [Tokenizer.todo] at this ⊢
      omega

/-- So does a newline that was held back. -/
theorem advance_todo {t t' : Tokenizer} {tok : Token} (h : advance t = (tok, t')) (hne : tok ≠ .eof) :
    t'.todo < t.todo := by
  have hnext : t.nextToken.1 = tok ∧ t.nextToken.2.todo = t'.todo := by
    unfold advance at h
    split at h
    · next heq => cases h; rw [heq]; exact ⟨rfl, rfl⟩
    · rw [h]; exact ⟨rfl, rfl⟩
  rw [← hnext.2]
  exact nextToken_todo (hnext.1 ▸ hne)

/-- Every run of the tokenizer ends. -/
theorem run_total {t : Tokenizer} {fuel : ℕ} (h : t.todo < fuel) : ∃ es, run fuel t = some es := by
  induction fuel generalizing t with
  | zero => cases h
  | succ fuel ih =>
    rw [run]
    split
    · exact ⟨_, rfl⟩
    · next tok t' hne heq =>
        have hlt := advance_todo heq hne
        obtain ⟨es, hes⟩ := ih (show t'.todo < fuel by omega)
        exact ⟨_, by rw [hes]; rfl⟩

/-- **The tokenizer ends.**  Calling it until `eof` takes at most `2 n + 6` calls for `n` bytes. -/
theorem events_eq (contents : Bytes) :
    run (2 * contents.length + 6) (.new contents) = some (events contents) := by
  have htodo : (Tokenizer.new contents).todo < 2 * contents.length + 6 := by
    simp [Tokenizer.todo, Tokenizer.new]
    omega
  obtain ⟨es, hes⟩ := run_total htodo
  rw [events, hes]
  rfl

/-! ### Imports -/

/-- The files that a path stands for: those of a directory in their order, or the file itself. -/
def ImageRoot.filesOf (image : ImageRoot) (path : Text) : List Text :=
  if image.isDir path then
    match image.regularFiles path with
    | .error _ => []
    | .ok files => files.mergeSort fun a b => decide (a ≤ b)
  else [path]

/-- The lines of arguments, up to the last newline. -/
def lines : (args : List Text) → List Token → List (List Text)
  | _, [] => []
  | args, .newline :: ts => args :: lines [] ts
  | args, .text s :: ts => lines (args ++ [s]) ts
  | args, .eof :: ts => lines args ts

namespace Env

variable (env : Env σ τ κ)

/-- The path that a line imports. -/
def importLine (args : List Text) : Option Text :=
  match args with
  | [keyword, path] =>
    if keyword = IMPORT ∧ env.kind = .boot then
      (expandProps path env.properties env.vendorApiLevel).toOption
    else none
  | _ => none

/-- The paths that a file imports. -/
def importsOf (contents : Bytes) : List Text :=
  (lines [] ((events contents).map (·.1))).filterMap env.importLine

/-- The paths that the file of a name imports, if it can be read. -/
def importsAt (image : ImageRoot) (file : Text) : List Text :=
  match image.read file with
  | .ok contents => env.importsOf contents
  | .error _ => []

/-- The paths that the files of a path import. -/
def next (path : Text) : List Text :=
  match env.image with
  | none => []
  | some image => (image.filesOf path).flatMap (env.importsAt image)

variable {env} {filename : Text} {line : ℕ} {r : Reading σ τ κ}

theorem importLine_of_ne {keyword : Text} {rest : List Text}
    (h : ¬ (keyword = IMPORT ∧ env.kind = .boot)) : env.importLine (keyword :: rest) = none := by
  rcases rest with - | ⟨path, - | ⟨_, _⟩⟩
  · rfl
  · exact if_neg h
  · rfl

/-- Only an import line imports. -/
theorem beginSection_path {args : List Text} (hkey : env.isSectionKeyword (args.headD []) = true) :
    (env.beginSection args filename line).toOption.bind (·.2) = env.importLine args := by
  rcases args with - | ⟨keyword, rest⟩
  · cases hkey
  change env.isSectionKeyword keyword = true at hkey
  unfold isSectionKeyword at hkey
  unfold beginSection
  split_ifs at hkey with hother himport
  · rw [importLine_of_ne fun h => by rw [h.1] at hother; revert hother; decide]
    rcases hother with rfl | rfl
    · rw [if_pos head?_cons]
      cases env.beginService (SERVICE :: rest) filename line _ <;> rfl
    have hon : ¬ (ON :: rest).head? = some SERVICE := fun h =>
      absurd (Option.some.inj h) (by decide)
    rw [if_neg hon, if_pos head?_cons]
    split
    · rfl
    · simp only
      split
      · rfl
      · cases env.parseTriggers _ env.vendorApiLevel <;> rfl
  · have hs : ¬ (keyword :: rest).head? = some SERVICE := fun h =>
      hother (.inl (Option.some.inj h))
    have ho : ¬ (keyword :: rest).head? = some ON := fun h => hother (.inr (Option.some.inj h))
    rw [if_neg hs, if_neg ho]
    have hboot : keyword = IMPORT ∧ env.kind = .boot := ⟨himport, by simpa using hkey⟩
    rcases rest with - | ⟨path, - | ⟨_, _⟩⟩
    · rfl
    · simp only [importLine, if_pos hboot]
      cases expandProps path env.properties env.vendorApiLevel <;> rfl
    · rfl

/-- A line adds the path it imports, if it does. -/
theorem endLine_imports (hargs : r.args ≠ []) : (env.endLine filename line r).args = [] ∧
    (env.endLine filename line r).imports.map (·.1) =
      r.imports.map (·.1) ++ (env.importLine r.args).toList := by
  obtain ⟨keyword, rest, hr⟩ := exists_cons_of_ne_nil hargs
  unfold endLine
  by_cases hkey : env.isSectionKeyword (r.args.headD []) = true
  · rw [if_pos hkey, ← @beginSection_path _ _ _ env filename line _ hkey]
    rcases env.beginSection r.args filename line with e | ⟨s, - | path⟩ <;> simp [Except.toOption]
  rw [if_neg hkey]
  have hnone : env.importLine r.args = none := by
    rw [hr] at hkey ⊢
    refine importLine_of_ne fun h => hkey ?_
    rw [headD_cons, isSectionKeyword, h.1, h.2]
    decide
  rw [hnone]
  cases r.current with
  | some s => simp
  | none =>
    simp only
    split <;> simp

/-- All the tokens of a file, by induction: its imports are those of its lines. -/
theorem tokens_imports (es : List (Token × Tokenizer)) :
    (es.foldl (env.token filename) r).imports.map (·.1) =
      r.imports.map (·.1) ++ (lines r.args (es.map (·.1))).filterMap env.importLine := by
  induction es generalizing r with
  | nil => exact (append_nil _).symm
  | cons e es ih =>
    obtain ⟨tok, t⟩ := e
    rw [foldl_cons, ih, map_cons]
    cases tok with
    | eof => rfl
    | text s => rfl
    | newline =>
      by_cases hargs : r.args = []
      · have htok : env.token filename r (.newline, t) = r := if_pos hargs
        rw [htok, lines, hargs]
        rfl
      · have htok : env.token filename r (.newline, t) = env.endLine filename t.line r :=
          if_neg hargs
        obtain ⟨hnil, himports⟩ := @endLine_imports _ _ _ env filename t.line r hargs
        rw [htok, hnil, himports, lines, filterMap_cons, append_assoc]
        cases env.importLine r.args <;> rfl

theorem readData_imports {contents : Bytes} {scripts : ParsedScripts σ τ κ} :
    (env.readData filename contents scripts).2.map (·.1) = env.importsOf contents :=
  tokens_imports _

/-! ### Following imports -/

section Follow

variable {follow follow' : Text → ParsedScripts σ τ κ → Option (Bool × ParsedScripts σ τ κ)}
  {image : ImageRoot} {path : Text} {contents : Bytes} {scripts r : ParsedScripts σ τ κ}

/-- A follower that returns more often changes no result. -/
theorem parseData_mono (h : ∀ p s r, follow p s = some r → follow' p s = some r)
    (hr : env.parseData follow filename contents scripts = some r) :
    env.parseData follow' filename contents scripts = some r := by
  refine Follow.foldlM_mono (fun p s r hp => ?_) hr
  obtain ⟨q, hq, rfl⟩ := Option.map_eq_some_iff.1 hp
  exact Option.map_eq_some_iff.2 ⟨q, h _ _ _ hq, rfl⟩

/-- A file is parsed if its imports can be followed. -/
theorem parseData_total (h : ∀ p ∈ env.importsOf contents, ∀ s, ∃ r, follow p s = some r)
    (scripts : ParsedScripts σ τ κ) :
    ∃ r, env.parseData follow filename contents scripts = some r := by
  refine Follow.foldlM_total (fun p hp s => ?_) _
  obtain ⟨r, hr⟩ := h p.1 (readData_imports ▸ mem_map_of_mem hp) s
  exact ⟨r.2, by rw [hr]; rfl⟩

/-- Every import of a parsed file was followed. -/
theorem parseData_calls (hr : env.parseData follow filename contents scripts = some r) :
    ∀ p ∈ env.importsOf contents, ∃ s r, follow p s = some r := by
  intro p hp
  rw [← @readData_imports _ _ _ env filename contents scripts] at hp
  obtain ⟨q, hq, rfl⟩ := mem_map.1 hp
  obtain ⟨s, r, hs⟩ := Follow.foldlM_calls hr q hq
  obtain ⟨r', hr', -⟩ := Option.map_eq_some_iff.1 hs
  exact ⟨s, r', hr'⟩

theorem parseDirFile_mono (h : ∀ p s r, follow p s = some r → follow' p s = some r)
    (hr : env.parseDirFile follow image scripts filename = some r) :
    env.parseDirFile follow' image scripts filename = some r := by
  unfold parseDirFile at hr ⊢
  cases hc : image.read filename with
  | error e => rw [hc] at hr; exact hr
  | ok contents => rw [hc] at hr; exact parseData_mono h hr

theorem parseDirFile_total (h : ∀ p ∈ env.importsAt image filename, ∀ s, ∃ r, follow p s = some r)
    (scripts : ParsedScripts σ τ κ) :
    ∃ r, env.parseDirFile follow image scripts filename = some r := by
  unfold parseDirFile
  unfold importsAt at h
  cases hc : image.read filename with
  | error e => exact ⟨_, rfl⟩
  | ok contents => rw [hc] at h; exact parseData_total h scripts

theorem parseDirFile_calls (hr : env.parseDirFile follow image scripts filename = some r) :
    ∀ p ∈ env.importsAt image filename, ∃ s r, follow p s = some r := by
  unfold parseDirFile at hr
  unfold importsAt
  cases hc : image.read filename with
  | error e => exact nofun
  | ok contents => rw [hc] at hr; exact parseData_calls hr

theorem next_of_dir (himg : env.image = some image) (hdir : image.isDir path = true)
    {files : List Text} (hfiles : image.regularFiles path = .ok files) :
    env.next path = (files.mergeSort fun a b => decide (a ≤ b)).flatMap (env.importsAt image) := by
  rw [next, himg]
  simp only [ImageRoot.filesOf, if_pos hdir, hfiles]

theorem next_of_file (himg : env.image = some image) (hdir : ¬ image.isDir path = true)
    (hread : image.read path = .ok contents) : env.next path = env.importsOf contents := by
  rw [next, himg]
  simp only [ImageRoot.filesOf, if_neg hdir, flatMap_singleton, importsAt, hread]

/-- What parsing a path does: nothing beyond a diagnostic, a file, or the files of a directory. -/
theorem visitConfig_cases (env : Env σ τ κ) (path : Text) :
    (∃ d : ParsedScripts σ τ κ → ParsedScripts σ τ κ,
      ∀ follow s, env.visitConfig follow path s = some (false, d s)) ∧ env.next path = [] ∨
    (∃ contents, env.next path = env.importsOf contents ∧ ∀ follow s,
      env.visitConfig follow path s = (env.parseData follow path contents s).map (true, ·)) ∨
    ∃ image files, env.next path = List.flatMap (env.importsAt image) files ∧ ∀ follow s,
      env.visitConfig follow path s =
        (files.foldlM (env.parseDirFile follow image) s).map (true, ·) := by
  cases himg : env.image with
  | none => exact .inl ⟨⟨_, fun follow s => by rw [visitConfig, himg]⟩, by rw [next, himg]⟩
  | some image =>
    by_cases hdir : image.isDir path = true
    · cases hfiles : image.regularFiles path with
      | error e =>
        refine .inl ⟨⟨fun s => s.warning path 0 ("Could not import directory '".toList ++ path ++
          "': ".toList ++ e), fun follow s => ?_⟩, ?_⟩
        · rw [visitConfig, himg]
          simp only [if_pos hdir, parseConfigDir, hfiles]
        · rw [next, himg]
          simp only [ImageRoot.filesOf, if_pos hdir, hfiles, flatMap_nil]
      | ok files =>
        refine .inr (.inr ⟨image, _, next_of_dir himg hdir hfiles, fun follow s => ?_⟩)
        rw [visitConfig, himg]
        simp only [if_pos hdir, parseConfigDir, hfiles]
    · cases hread : image.read path with
      | error e =>
        refine .inl ⟨⟨fun s => s.warning path 0 ("Unable to read config file '".toList ++ path ++
          "': ".toList ++ e), fun follow s => ?_⟩, ?_⟩
        · rw [visitConfig, himg]
          simp only [if_neg hdir, hread]
        · rw [next, himg]
          simp only [ImageRoot.filesOf, if_neg hdir, flatMap_singleton, importsAt, hread]
      | ok contents =>
        refine .inr (.inl ⟨contents, next_of_file himg hdir hread, fun follow s => ?_⟩)
        rw [visitConfig, himg]
        simp only [if_neg hdir, hread]

/-- Parsing a path goes on with the imports of its files. -/
theorem follows_visitConfig (env : Env σ τ κ) : Follow.Follows env.visitConfig env.next where
  mono {f g path s r} h hr := by
    rcases env.visitConfig_cases path with ⟨⟨d, hd⟩, -⟩ | ⟨contents, -, hv⟩ | ⟨image, files, -, hv⟩
    · rw [hd] at hr ⊢
      exact hr
    · rw [hv] at hr ⊢
      obtain ⟨r', hr', rfl⟩ := Option.map_eq_some_iff.1 hr
      exact Option.map_eq_some_iff.2 ⟨r', parseData_mono h hr', rfl⟩
    · rw [hv] at hr ⊢
      obtain ⟨r', hr', rfl⟩ := Option.map_eq_some_iff.1 hr
      exact Option.map_eq_some_iff.2
        ⟨r', Follow.foldlM_mono (fun _ _ _ => parseDirFile_mono h) hr', rfl⟩
  total {f path} h s := by
    rcases env.visitConfig_cases path with ⟨⟨d, hd⟩, -⟩ | ⟨contents, hn, hv⟩ | ⟨image, files, hn, hv⟩
    · exact ⟨_, hd f s⟩
    · rw [hn] at h
      obtain ⟨r, hr⟩ := @parseData_total _ _ _ env path f contents h s
      exact ⟨_, by rw [hv, hr]; rfl⟩
    · rw [hn] at h
      obtain ⟨r, hr⟩ := Follow.foldlM_total (fun file hf =>
        parseDirFile_total fun p hp => h p (mem_flatMap.2 ⟨file, hf, hp⟩)) s
      exact ⟨_, by rw [hv, hr]; rfl⟩
  calls {f path s r} hr := by
    rcases env.visitConfig_cases path with ⟨-, hn⟩ | ⟨contents, hn, hv⟩ | ⟨image, files, hn, hv⟩
    · rw [hn]
      exact nofun
    · rw [hv] at hr
      obtain ⟨r', hr', rfl⟩ := Option.map_eq_some_iff.1 hr
      rw [hn]
      exact parseData_calls hr'
    · rw [hv] at hr
      obtain ⟨r', hr', rfl⟩ := Option.map_eq_some_iff.1 hr
      rw [hn]
      intro p hp
      obtain ⟨file, hf, hp⟩ := mem_flatMap.1 hp
      obtain ⟨s, r, hs⟩ := Follow.foldlM_calls hr' file hf
      exact parseDirFile_calls hs p hp

end Follow

end Env

end Aim.Rc
