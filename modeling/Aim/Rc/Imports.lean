import Aim.Props.Load
import Aim.Rc.Parser

/-!
# Rc — Files that import files

Scripts and property files name other files to read, and neither loader records where it has been.

* `imports_end`: both loaders end exactly when no chain of imports goes on forever; in a finite file
  system that is when no file leads back to itself.
* `self_import_never_ends`: a script and a property file that import themselves.
-/

namespace Aim.Rc

open Props (Loader Loaded)

variable {σ τ κ : Type}

/-- **Imports end where they have no cycle.**  Whatever has been parsed or loaded before, a script
or a directory of scripts is parsed after finitely many reads exactly when no chain of imports from
it goes on forever; and so is a property file loaded. -/
theorem imports_end (env : Env σ τ κ) (path : Text) (scripts : ParsedScripts σ τ κ) (L : Loader)
    (filename : Text) (filter : Option Text) (st : Loaded) :
    ((∃ fuel r, env.parseConfig fuel path scripts = some r) ↔ Follow.Grounded env.next path) ∧
    ((∃ fuel r, L.loadFile fuel filename filter st = some r) ↔
      Follow.Grounded L.next (filename, filter)) :=
  ⟨env.follows_visitConfig.ends_iff scripts, L.follows_visitFile.ends_iff st⟩

/-- An image with one file. -/
def ImageRoot.single (path : Text) (contents : Bytes) : ImageRoot where
  isDir _ := false
  read p := if p = path then .ok contents else .error "No such file or directory".toList
  regularFiles _ := .error "Not a directory".toList

/-- A parser of boot scripts that knows no services, triggers or commands. -/
def bootEnv (image : ImageRoot) : Env Unit Unit Unit where
  properties _ := []
  vendorApiLevel := 36
  kind := .boot
  image := some image
  vendorApexes := []
  beginService _ _ _ _ := .error []
  parseOption s _ _ _ := (s, .ok)
  endServiceChecks _ := .ok none
  parseTriggers _ _ := .error []
  parseCommand _ _ := .error []

def bootLoader (image : ImageRoot) : Loader where
  image := image
  properties _ := []
  vendorApiLevel := 36
  fields := ⟨fun _ _ _ _ => true, fun _ => true, false, false, false, false⟩
  info := .zero 0

/-- **A file that imports itself.**  With the one file `/a`, whose one line imports it, no depth of
imports is enough, for a script and for a property file. -/
theorem self_import_never_ends :
    (∀ fuel scripts, (bootEnv (.single ['/', 'a'] (.ofAscii "import /a\n"))).parseConfig fuel
      ['/', 'a'] scripts = none) ∧
    ∀ fuel st, (bootLoader (.single ['/', 'a'] (.ofAscii "import /a\n"))).loadFile fuel
      ['/', 'a'] none st = none := by
  constructor
  · intro fuel scripts
    have hloop : ['/', 'a'] ∈
        (bootEnv (.single ['/', 'a'] (.ofAscii "import /a\n"))).next ['/', 'a'] := by
      decide +kernel
    refine Option.eq_none_iff_forall_ne_some.2 fun r hr => ?_
    exact Follow.not_grounded_of_loop hloop ((Env.follows_visitConfig _).grounded hr)
  · intro fuel st
    have hloop : (['/', 'a'], none) ∈
        (bootLoader (.single ['/', 'a'] (.ofAscii "import /a\n"))).next (['/', 'a'], none) := by
      decide +kernel
    refine Option.eq_none_iff_forall_ne_some.2 fun r hr => ?_
    exact Follow.not_grounded_of_loop hloop ((Loader.follows_visitFile _).grounded hr)

end Aim.Rc
