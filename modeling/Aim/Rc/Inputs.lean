import Aim.Support.Utf8

/-!
# Rc — What init reads

The image that scripts and property files are read from, the diagnostics of reading them, and the
expansion of properties in the paths they import.
-/

namespace Aim.Rc

abbrev Text := List Char

inductive Severity where
  | warning
  | error
deriving DecidableEq

structure Diagnostic where
  severity : Severity
  file : Text
  line : ℕ
  message : Text
deriving DecidableEq

/-- The files of the guest: a failed read gives the text of the error. -/
structure ImageRoot where
  isDir : Text → Bool
  read : Text → Except Text Bytes
  /-- In the order of `readdir`. -/
  regularFiles : Text → Except Text (List Text)

def ANDROID_API_P : ℕ := 28
def ANDROID_API_R : ℕ := 30

section Expand

variable (properties : Text → Text) (vendorApiLevel : ℕ) (src : Text)

/-- The value of a property, or the default where it has none. -/
def expandName (name default : Text) : Except Text Text :=
  if name = [] then .error ("invalid zero-length property name in '".toList ++ src ++ ['\''])
  else
    let value := properties name
    if value = [] then
      if default = [] then
        .error ("property '".toList ++ name ++ "' doesn't exist while expanding '".toList ++ src ++
          ['\''])
      else .ok default
    else .ok value

/-- The name in braces and the default after the first `:-`. -/
def splitDefault : Text → Text × Text
  | ':' :: '-' :: cs => ([], cs)
  | c :: cs => (c :: (splitDefault cs).1, (splitDefault cs).2)
  | [] => ([], [])

/-- The loop of `expand_props`; `braced` has what stands after an open brace. -/
def expand : (braced : Option Text) → (dst : Text) → Text → Except Text Text
  | none, dst, [] => .ok dst
  | none, dst, c :: cs =>
    if c = '$' then
      match cs with
      | [] => .ok dst
      | d :: ds =>
        if d = '$' then expand none (dst ++ ['$']) ds
        else if d = '{' then expand (some []) dst ds
        else if vendorApiLevel ≥ ANDROID_API_R then
          .error ("using deprecated syntax for specifying property '".toList ++ (d :: ds) ++
            "', use $\x7bname\x7d instead".toList)
        else (expandName properties src (d :: ds) []).map (dst ++ ·)
    else expand none (dst ++ [c]) cs
  | some _, _, [] =>
    .error ("unexpected end of string in '".toList ++ src ++ "', looking for \x7d".toList)
  | some name, dst, c :: cs =>
    if c = '}' then
      match expandName properties src (splitDefault name).1 (splitDefault name).2 with
      | .error e => .error e
      | .ok value => expand none (dst ++ value) cs
    else expand (some (name ++ [c])) dst cs

end Expand

def expandProps (src : Text) (properties : Text → Text) (vendorApiLevel : ℕ) : Except Text Text :=
  expand properties vendorApiLevel src none [] src

example : expandProps "/init.$\x7bro.hardware\x7d.rc".toList (fun _ => "ranchu".toList) 36 =
    .ok "/init.ranchu.rc".toList := by decide +kernel

end Aim.Rc
