import Aim.Uri.Uri

/-!
# Intents — patterns

`android.os.PatternMatcher`, as the intent filters use it.  Strings are matched by UTF-16 unit.  An
advanced glob is parsed into a list of integers, which also travels in parcels: a negative integer
is a token or a modifier, any other one a unit or a bound.

A matcher that would index out of a slice has no result (`none`).

* `parseAdvanced`: `parseAndVerifyAdvancedPattern`, one step of its loop at a time (`parseStep`).
* `matchGlob`, `matchAdvanced`: the two matchers with loops.
* `PatternMatcher.new`, `PatternMatcher.match?`.
-/

namespace Text

open List

/-- `String::from_utf16_lossy`. -/
def ofUtf16 : List ℕ → Text
  | [] => []
  | [u] => [if 0xd800 ≤ u ∧ u < 0xe000 then '�' else Char.ofNat u]
  | u :: v :: us =>
    if 0xd800 ≤ u ∧ u < 0xdc00 ∧ 0xdc00 ≤ v ∧ v < 0xe000 then
      Char.ofNat (0x10000 + (u - 0xd800) * 0x400 + (v - 0xdc00)) :: ofUtf16 us
    else if 0xd800 ≤ u ∧ u < 0xe000 then '�' :: ofUtf16 (v :: us)
    else Char.ofNat u :: ofUtf16 (v :: us)

/-! ### UTF-16 -/

/-- The units of one character. -/
def units (c : Char) : List ℕ :=
  if c.toNat < 0x10000 then [c.toNat]
  else [0xd800 + (c.toNat - 0x10000) / 0x400, 0xdc00 + (c.toNat - 0x10000) % 0x400]

@[simp] theorem utf16_nil : utf16 [] = [] := rfl

@[simp] theorem utf16_cons (c : Char) (s : Text) : utf16 (c :: s) = units c ++ utf16 s := by
  simp [utf16, units]

@[simp] theorem utf16_append (s t : Text) : utf16 (s ++ t) = utf16 s ++ utf16 t := by
  simp [utf16]

/-- No character is a surrogate. -/
theorem toNat_char (c : Char) : c.toNat < 0xd800 ∨ 0xdfff < c.toNat ∧ c.toNat < 0x110000 := c.valid

/-- The units of a string are those of one string only. -/
theorem units_append_inj {d : Char} {us vs : List ℕ} (h : units c ++ us = units d ++ vs) :
    c = d ∧ us = vs := by
  have hc := toNat_char c
  have hd := toNat_char d
  have hcd : c.toNat = d.toNat ∧ us = vs := by
    unfold units at h
    split_ifs at h with h₁ h₂ h₂
    · simpa using h
    · simp only [cons_append, nil_append, List.cons.injEq] at h
      omega
    · simp only [cons_append, nil_append, List.cons.injEq] at h
      omega
    · simp only [cons_append, nil_append, List.cons.injEq] at h
      refine ⟨?_, h.2.2⟩
      omega
  exact ⟨Char.toNat_inj.1 hcd.1, hcd.2⟩

theorem prefix_of_utf16 {t : Text} (h : utf16 s <+: utf16 t) : s <+: t := by
  induction s generalizing t with
  | nil => exact nil_prefix
  | cons c s ih =>
    obtain ⟨us, h⟩ := h
    cases t with
    | nil =>
      simp only [utf16_cons, utf16_nil, append_eq_nil_iff] at h
      unfold units at h
      split_ifs at h <;> simp at h
    | cons d t =>
      rw [utf16_cons, append_assoc] at h
      obtain ⟨hcd, hst⟩ := units_append_inj h
      exact cons_prefix_cons.2 ⟨hcd, ih ⟨us, hst⟩⟩

theorem ofUtf16_units (c : Char) (us : List ℕ) : ofUtf16 (units c ++ us) = c :: ofUtf16 us := by
  have hc := toNat_char c
  rw [units]
  split_ifs with h
  · have hs : ¬ (0xd800 ≤ c.toNat ∧ c.toNat < 0xe000) := by omega
    cases us with
    | nil => simp only [cons_append, nil_append, ofUtf16, if_neg hs, Char.ofNat_toNat]
    | cons v us =>
      have hs' : ¬ (0xd800 ≤ c.toNat ∧ c.toNat < 0xdc00 ∧ 0xdc00 ≤ v ∧ v < 0xe000) := by omega
      simp only [cons_append, nil_append, ofUtf16, if_neg hs, if_neg hs',
        Char.ofNat_toNat]
  · have hn : 0x10000 + (0xd800 + (c.toNat - 0x10000) / 0x400 - 0xd800) * 0x400 +
        (0xdc00 + (c.toNat - 0x10000) % 0x400 - 0xdc00) = c.toNat := by omega
    rw [cons_append, cons_append, nil_append, ofUtf16, if_pos (by omega), hn,
      Char.ofNat_toNat]

@[simp] theorem ofUtf16_utf16 (s : Text) : ofUtf16 (utf16 s) = s := by
  induction s with
  | nil => rfl
  | cons c s ih => rw [utf16_cons, ofUtf16_units, ih]

/-- A unit below the surrogates is the character itself. -/
theorem mem_utf16 (hc : c.toNat < 0xd800) : c.toNat ∈ utf16 s ↔ c ∈ s := by
  induction s with
  | nil => simp
  | cons d s ih =>
    rw [utf16_cons, mem_append, ih, mem_cons]
    refine or_congr_left ?_
    unfold units
    split_ifs
    · rw [mem_singleton, Char.toNat_inj]
    simp only [mem_cons, not_mem_nil, or_false]
    constructor
    · omega
    · rintro rfl
      omega

/-- Where the first such character is. -/
theorem findIdx?_utf16 {a b : Text} (hc : c.toNat < 0xd800) (ha : c ∉ a) :
    (utf16 (a ++ c :: b)).findIdx? (· = c.toNat) = some (utf16 a).length := by
  have hu : units c = [c.toNat] := if_pos (by omega)
  rw [utf16_append, utf16_cons, hu, findIdx?_append, findIdx?_eq_none_iff.2]
  · simp [findIdx?_cons]
  · intro u hu
    simp only [decide_eq_false_iff_not]
    rintro rfl
    exact ha ((mem_utf16 hc).1 hu)

end Text

namespace Intents

open Text (utf16 ofUtf16 parseInt)

/-! ### Kinds and tokens -/

def patternLiteral : ℤ := 0
def patternPrefix : ℤ := 1
def patternSimpleGlob : ℤ := 2
def patternAdvancedGlob : ℤ := 3
def patternSuffix : ℤ := 4

def charSetStart : ℤ := -1
def charSetInverseStart : ℤ := -2
def charSetStop : ℤ := -3
def charAny : ℤ := -4
def rangeStart : ℤ := -5
def rangeStop : ℤ := -6
def zeroOrMore : ℤ := -7
def oneOrMore : ℤ := -8
def maxPatternStorage : ℕ := 2048

/-- The greatest `i32`. -/
def unbounded : ℤ := 2 ^ 31 - 1

inductive PatternError where
  | illegalArgument (message : String)
  | indexOutOfBounds (length index : ℕ)
  deriving DecidableEq

/-! ### Parsing an advanced glob -/

/-- The variables of the loop of `parse_advanced`. -/
structure Parser where
  ip : ℕ := 0
  out : List ℤ := []
  inSet : Bool := false
  inRange : Bool := false
  inCharClass : Bool := false
  deriving DecidableEq

/-- What the first half of the loop's body leaves to the second. -/
inductive Next where
  /-- The body is left with `continue`. -/
  | again (s : Parser)
  | emit (s : Parser) (c : ℕ) (add : Bool)

/-- A modifier stands after a token. -/
def afterToken (out : List ℤ) : Except PatternError Unit :=
  match out.getLast? with
  | some t =>
    if t = oneOrMore ∨ t = zeroOrMore ∨ t = rangeStop ∨ t = rangeStart then
      .error (.illegalArgument "Modifier must follow a token.")
    else .ok ()
  | none => .error (.illegalArgument "Modifier must follow a token.")

/-- The first half of the body: what the character is. -/
def parseSpecial (pattern : List ℕ) (s : Parser) : Except PatternError Next :=
  let c := pattern.getD s.ip 0
  if c = 0x5b then -- `[`
    if s.inSet then .ok (.emit s c true)
    else
      match pattern[s.ip + 1]? with
      | none => .error (.indexOutOfBounds pattern.length (s.ip + 1))
      | some next =>
        if next = 0x5e then -- `^`
          .ok (.again { s with out := s.out ++ [charSetInverseStart], ip := s.ip + 2, inSet := true })
        else .ok (.again { s with out := s.out ++ [charSetStart], ip := s.ip + 1, inSet := true })
  else if c = 0x5d then -- `]`
    if !s.inSet then .ok (.emit s c true)
    else if s.out.getLast? = some charSetStart ∨ s.out.getLast? = some charSetInverseStart then
      .error (.illegalArgument "You must define characters in a set.")
    else
      .ok (.emit { s with out := s.out ++ [charSetStop], inSet := false, inCharClass := false }
        c false)
  else if c = 0x7b then -- an opening brace
    if s.inSet then .ok (.emit s c false)
    else do
      afterToken s.out
      .ok (.emit { s with out := s.out ++ [rangeStart], ip := s.ip + 1, inRange := true } c false)
  else if c = 0x7d then -- a closing brace
    if s.inRange then
      .ok (.emit { s with out := s.out ++ [rangeStop], inRange := false } c false)
    else .ok (.emit s c false)
  else if c = 0x2a then -- `*`
    if s.inSet then .ok (.emit s c false)
    else do
      afterToken s.out
      .ok (.emit { s with out := s.out ++ [zeroOrMore] } c false)
  else if c = 0x2b then -- `+`
    if s.inSet then .ok (.emit s c false)
    else do
      afterToken s.out
      .ok (.emit { s with out := s.out ++ [oneOrMore] } c false)
  else if c = 0x2e then -- `.`
    if s.inSet then .ok (.emit s c false)
    else .ok (.emit { s with out := s.out ++ [charAny] } c false)
  else if c = 0x5c then -- a backslash
    match pattern[s.ip + 1]? with
    | none => .error (.illegalArgument "Escape found at end of pattern!")
    | some next => .ok (.emit { s with ip := s.ip + 1 } next true)
  else .ok (.emit s c true)

/-- The bounds of a range, from the text between its braces. -/
def parseRange (range : Text) : Except PatternError (ℤ × ℤ) := do
  let bad := PatternError.illegalArgument "Range number format incorrect"
  let number := fun s : Text =>
    match parseInt s with
    | some n => Except.ok n
    | none => .error bad
  let (min, max) ←
    match List.splitOnce ',' range with
    | none => do
      let n ← number range
      pure (n, n)
    | some (a, b) => do
      let min ← number a
      let max ← if b = [] then pure unbounded else number b
      pure (min, max)
  if min > max then
    .error (.illegalArgument "Range quantifier minimum is greater than maximum")
  else pure (min, max)

/-- The second half of the body: what is pushed, by the mode the parser is in. -/
def emit (pattern : List ℕ) (s : Parser) (c : ℕ) (add : Bool) : Except PatternError Parser :=
  if s.inSet then
    if s.inCharClass then
      .ok { s with out := s.out ++ [(c : ℤ)], inCharClass := false, ip := s.ip + 1 }
    else if s.ip + 2 < pattern.length ∧ pattern.getD (s.ip + 1) 0 = 0x2d ∧
        pattern.getD (s.ip + 2) 0 ≠ 0x5d then
      -- the lower end of a range
      .ok { s with out := s.out ++ [(c : ℤ)], inCharClass := true, ip := s.ip + 2 }
    else .ok { s with out := s.out ++ [(c : ℤ), (c : ℤ)], ip := s.ip + 1 }
  else if s.inRange then
    match (pattern.drop s.ip).findIdx? (· = 0x7d) with
    | none => .error (.illegalArgument "Range not ended with '\x7d'")
    | some n => do
      let (min, max) ← parseRange (ofUtf16 ((pattern.drop s.ip).take n))
      .ok { s with out := s.out ++ [min, max], ip := s.ip + n }
  else if add then .ok { s with out := s.out ++ [(c : ℤ)], ip := s.ip + 1 }
  else .ok { s with ip := s.ip + 1 }

/-- One turn of the loop. -/
def parseStep (pattern : List ℕ) (s : Parser) : Except PatternError Parser :=
  if s.out.length > maxPatternStorage - 3 then
    .error (.illegalArgument "Pattern is too large!")
  else
    match parseSpecial pattern s with
    | .error e => .error e
    | .ok (.again s) => .ok s
    | .ok (.emit s c add) => emit pattern s c add

/-- The loop; every turn goes on in the pattern, so it takes at most one for each unit. -/
def parseLoop (pattern : List ℕ) : ℕ → Parser → Except PatternError Parser
  | 0, s => .ok s
  | n + 1, s =>
    if s.ip < pattern.length then
      match parseStep pattern s with
      | .error e => .error e
      | .ok s => parseLoop pattern n s
    else .ok s

def parseAdvanced (pattern : List ℕ) : Except PatternError (List ℤ) :=
  match parseLoop pattern pattern.length {} with
  | .error e => .error e
  | .ok s => if s.inSet then .error (.illegalArgument "Set was not terminated!") else .ok s.out

/-! ### Matching -/

/-- The variables of the loop of `match_glob`. -/
structure Glob where
  ip : ℕ
  im : ℕ
  next : ℕ

/-- One turn of the loop of `match_glob`: its answer, or how it goes on. -/
def globStep (pattern m : List ℕ) (s : Glob) : Option (Bool ⊕ Glob) := do
  let np := pattern.length
  let at' := fun i => pattern.getD i 0
  let escaped := decide (s.next = 0x5c)
  let c := if escaped then at' (s.ip + 1) else s.next
  let ip := if escaped then s.ip + 2 else s.ip + 1
  if at' ip = 0x2a then
    if !escaped && c = 0x2e then
      -- a trailing `.*` matches the rest
      if ip ≥ np - 1 then return .inl true
      let next ← pattern[ip + 1]?
      let (ip, next) := if next = 0x5c then (ip + 2, at' (ip + 2)) else (ip + 1, next)
      -- consume up to the pattern's next character
      match (m.drop s.im).findIdx? (· = next) with
      | none => return .inl false
      | some n => return .inr ⟨ip + 1, s.im + n + 1, at' (ip + 1)⟩
    else
      -- consume only characters equal to the one before `*`
      let n := ((m.drop s.im).takeWhile (· = c)).length
      return .inr ⟨ip + 1, s.im + n, at' (ip + 1)⟩
  else
    let u ← m[s.im]?
    if c ≠ 0x2e ∧ u ≠ c then return .inl false
    return .inr ⟨ip, s.im + 1, at' ip⟩

/-- What `match_glob` answers after its loop. -/
def globEnd (pattern m : List ℕ) (s : Glob) : Bool :=
  if s.ip ≥ pattern.length ∧ s.im ≥ m.length then true
  else
    -- the match string ended with a `.*` left in the pattern
    s.ip + 2 = pattern.length && pattern.getD s.ip 0 = 0x2e && pattern.getD (s.ip + 1) 0 = 0x2a

def globLoop (pattern m : List ℕ) : ℕ → Glob → Option Bool
  | 0, s => some (globEnd pattern m s)
  | n + 1, s =>
    if s.ip < pattern.length ∧ s.im < m.length then
      match globStep pattern m s with
      | none => none
      | some (.inl b) => some b
      | some (.inr s) => globLoop pattern m n s
    else some (globEnd pattern m s)

/-- `match_glob`: `.` is any character, `*` repeats the one before it, a backslash escapes. -/
def matchGlob (pattern m : List ℕ) : Option Bool :=
  if pattern = [] then some (m = [])
  else globLoop pattern m pattern.length ⟨0, 0, pattern.getD 0 0⟩

/-- Whether a unit is in one of the ranges. -/
def inRanges (c : ℕ) : List ℤ → Bool
  | lo :: hi :: rest => (lo ≤ (c : ℤ) && (c : ℤ) ≤ hi) || inRanges c rest
  | _ => false

/-- What a token of the parsed form stands for, and where the next one starts. -/
def token (parsed : List ℤ) (ip : ℕ) : (ℕ → Bool) × ℕ :=
  let t := parsed.getD ip 0
  if t = charAny then (fun _ => true, ip + 1)
  else if t = charSetStart ∨ t = charSetInverseStart then
    let set := (parsed.drop (ip + 1)).takeWhile (· ≠ charSetStop)
    let next := ip + 1 + set.length + 1
    if t = charSetStart then (fun c => inRanges c set, next) else (fun c => !inRanges c set, next)
  else (fun c => (c : ℤ) = t, ip + 1)

/-- How often the token is to match, and where the next one starts. -/
def modifier (parsed : List ℤ) (ip : ℕ) : Option ((ℤ × ℤ) × ℕ) :=
  match parsed[ip]? with
  | none => some ((1, 1), ip)
  | some t =>
    if t = zeroOrMore then some ((0, unbounded), ip + 1)
    else if t = oneOrMore then some ((1, unbounded), ip + 1)
    else if t = rangeStart then do
      let min ← parsed[ip + 1]?
      let max ← parsed[ip + 2]?
      return ((min, max), ip + 4)
    else some ((1, 1), ip)

def advancedLoop (parsed : List ℤ) (m : List ℕ) : ℕ → ℕ → ℕ → Option Bool
  | 0, _, im => some (im ≥ m.length)
  | n + 1, ip, im =>
    if ip < parsed.length then
      let (matches', ip) := token parsed ip
      match modifier parsed ip with
      | none => none
      | some ((min, max), ip) =>
        if min > max then some false
        else
          let matched := (((m.drop im).take max.toNat).takeWhile matches').length
          if (matched : ℤ) < min then some false else advancedLoop parsed m n ip (im + matched)
    else some (im ≥ m.length)

def matchAdvanced (parsed : List ℤ) (m : List ℕ) : Option Bool :=
  advancedLoop parsed m parsed.length 0 0

/-- `android.os.PatternMatcher`. -/
structure PatternMatcher where
  pattern : Text
  kind : ℤ
  /-- An advanced glob's parsed form, which a parcel carries. -/
  parsed : Option (List ℤ)
  deriving DecidableEq

/-- `new_checked`. -/
def PatternMatcher.new (pattern : Text) (kind : ℤ) : Except PatternError PatternMatcher := do
  let parsed ←
    if kind = patternAdvancedGlob then some <$> parseAdvanced (utf16 pattern) else pure none
  return ⟨pattern, kind, parsed⟩

/-- `matches`. -/
def PatternMatcher.match? (p : PatternMatcher) : Option Text → Option Bool
  | none => some false
  | some s =>
    if p.kind = patternLiteral then some (p.pattern = s)
    else if p.kind = patternPrefix then some (p.pattern.isPrefixOf s)
    else if p.kind = patternSimpleGlob then matchGlob (utf16 p.pattern) (utf16 s)
    else if p.kind = patternAdvancedGlob then matchAdvanced (p.parsed.getD []) (utf16 s)
    else if p.kind = patternSuffix then some (p.pattern.isSuffixOf s)
    else some false

end Intents
