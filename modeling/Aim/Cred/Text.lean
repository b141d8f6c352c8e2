import Aim.Cgroup.Membership
import Aim.Cred.Identity

/-!
# Credentials — the text of an identity

An identity reads back from its text, but for the filesystem ids, which follow the effective ones,
if no line of it is broken: the service and the label hold no newline.

* `lines_unlines`, `parseLine_line`: lines are read as they are written.
* `parse_toText`: the round trip.
-/

namespace Bytes

/-- Pieces that hold no separator. -/
theorem split_intercalate {sep : UInt8} {pieces : List Bytes} (h : ∀ p ∈ pieces, sep ∉ p)
    (hne : pieces ≠ []) : split sep ([sep].intercalate pieces) = pieces := by
  induction pieces with
  | nil => exact absurd rfl hne
  | cons p ps ih =>
    have hp := h p (.head _)
    cases ps with
    | nil => simpa [List.intercalate] using split_of_not_mem hp
    | cons q qs =>
      have hrest := ih (fun p hp => h p (.tail _ hp)) (by simp)
      have hjoin : [sep].intercalate (p :: q :: qs) =
          p ++ sep :: [sep].intercalate (q :: qs) := by
        simp [List.intercalate]
      rw [hjoin, split_append hp, hrest]

end Bytes

namespace Cred

open Numerals List Identity
open Mounts (lines tab)

/-! ### Lines -/

/-- What is left of a line that ends with a carriage return. -/
def strip (l : Bytes) : Bytes := if l.getLast? = some 13 then l.dropLast else l

theorem lines_unlines {ls : List Bytes} (h : ∀ l ∈ ls, newline ∉ l) :
    lines (ls.flatMap (· ++ [newline])) = ls.map strip := by
  rw [lines, newline, Cgroup.split_unlines h, dropLast_concat, getLast?_concat]
  rfl

/-- One line of the text. -/
def line (f : Key × Bytes) : Bytes := f.1.text ++ tab :: f.2

theorem toText_eq (id : Identity) :
    id.toText = (header :: id.fields.map line).flatMap (· ++ [newline]) := by
  simp [toText, line, flatMap_map]

theorem ofText_text (k : Key) : Key.ofText k.text = some k := by
  cases k <;> decide +kernel

theorem text_plain (k : Key) : tab ∉ k.text ∧ newline ∉ k.text ∧ 0 ∉ k.text ∧
    ∃ b bs, k.text = b :: bs ∧ b ≠ 35 := by
  cases k <;> exact ⟨by decide +kernel, by decide +kernel, by decide +kernel, _, _, rfl, by decide⟩

theorem strip_append_tab (a v : Bytes) : strip (a ++ tab :: v) = a ++ tab :: strip v := by
  have hlast : (a ++ tab :: v).getLast? = some 13 ↔ v.getLast? = some 13 := by
    rw [getLast?_append, getLast?_cons]
    cases v.getLast? with
    | none => simp [tab]
    | some b => simp
  rw [strip, strip]
  simp only [hlast]
  split_ifs with h
  · cases v with
    | nil => cases h
    | cons b bs => simp
  · rfl

/-- A line is read as its key and value. -/
theorem parseLine_line (s : Parse) (f : Key × Bytes) :
    parseLine s (line f) = s.field (some f.1) f.2 := by
  obtain ⟨htab, -, -, b, bs, htext, hb⟩ := text_plain f.1
  have hline : ¬ (line f = [] ∨ (line f).head? = some 35) := by
    rw [line, htext]
    simpa using hb
  rw [parseLine, if_neg hline, line, Cgroup.splitTab_append htab]
  change s.field (Key.ofText f.1.text) f.2 = _
  rw [ofText_text]

/-! ### Values -/

variable {n : ℕ}

theorem num_print (h : n < 2 ^ 64) : num (print 10 n) = some n := by
  rw [num]
  · exact parseNat_print (by decide) (by decide) h
  · intro hex he
    have hx : (120 : UInt8) ∈ print 10 n := by rw [he]; simp
    exact absurd (mem_decimal_le hx) (by decide)

theorem num32_decimal (v : UInt32) : num32 (decimal v) = some v := by
  rw [num32, decimal, num_print (Nat.lt_trans v.toNat_lt (by decide))]
  simp

theorem num_hex (h : n < 2 ^ 64) : num (hex n) = some n :=
  parseNat_print (by decide) (by decide) h

theorem caps_hex {c : Caps} (h : c &&& CAP_FULL = c) : Parse.caps (hex c.toNat) = some c := by
  rw [Parse.caps, num_hex c.isLt, Option.map_some, BitVec.ofNat_toNat, BitVec.setWidth_eq, h]

theorem limit_limitText (v : UInt64) : limit (limitText v) = some v := by
  rw [limitText]
  split_ifs with h
  · rw [limit, if_pos rfl, h]
  have hne : print 10 v.toNat ≠ unlimited := by
    intro he
    have hu : (117 : UInt8) ∈ print 10 v.toNat := by
      rw [he]
      decide +kernel
    exact absurd (mem_decimal_le hu) (by decide)
  rw [limit, if_neg hne, num_print v.toNat_lt]
  simp

/-- What a line can hold. -/
structure Clean (v : Bytes) : Prop where
  newline : newline ∉ v
  nul : 0 ∉ v

/-- A value that is read as it is written. -/
structure Plain (v : Bytes) : Prop extends Clean v where
  strip : strip v = v

theorem plain_of_le {l : Bytes} (h : ∀ b ∈ l, 14 ≤ b) : Plain l where
  newline hn := absurd (h _ hn) (by decide)
  nul hn := absurd (h _ hn) (by decide)
  strip := if_neg fun hl => absurd (h 13 (mem_of_getLast? hl)) (by decide)

theorem Plain.tab {a v : Bytes} (ha : Plain a) (hv : Plain v) : Plain (a ++ Mounts.tab :: v) where
  newline := by
    rw [mem_append, mem_cons]
    rintro (h | h | h)
    · exact ha.newline h
    · cases h
    · exact hv.newline h
  nul := by
    rw [mem_append, mem_cons]
    rintro (h | h | h)
    · exact ha.nul h
    · cases h
    · exact hv.nul h
  strip := by rw [strip_append_tab, hv.strip]

theorem le_of_mem_decimal {b : UInt8} (hb : b ∈ print 10 n) : 14 ≤ b :=
  UInt8.le_trans (by decide) (le_of_mem_print (by decide) (by decide) hb)

theorem plain_decimal (v : UInt32) : Plain (decimal v) :=
  plain_of_le fun _ hb => le_of_mem_decimal hb

theorem plain_hex (n : ℕ) : Plain (hex n) :=
  plain_of_le fun b hb => by
    rcases mem_cons.1 hb with rfl | hb
    · decide
    rcases mem_cons.1 hb with rfl | hb
    · decide
    exact UInt8.le_trans (by decide) (le_of_mem_print (by decide) (by decide) hb)

theorem plain_printInt (v : ℤ) : Plain (printInt v) :=
  plain_of_le fun b hb => by
    rw [printInt] at hb
    split_ifs at hb
    · rcases mem_cons.1 hb with rfl | hb
      · decide
      · exact le_of_mem_decimal hb
    · exact le_of_mem_decimal hb

theorem le_of_mem_limitText {v : UInt64} {b : UInt8} (hb : b ∈ limitText v) : 14 ≤ b := by
  have hunlimited : ∀ b ∈ unlimited, 14 ≤ b := by decide +kernel
  rw [limitText] at hb
  split_ifs at hb
  · exact hunlimited b hb
  · exact le_of_mem_decimal hb

theorem plain_limitText (v : UInt64) : Plain (limitText v) :=
  plain_of_le fun _ hb => le_of_mem_limitText hb

theorem plain_groups (groups : List UInt32) : Plain ([space].intercalate (groups.map decimal)) := by
  refine plain_of_le ?_
  induction groups with
  | nil => exact fun _ h => nomatch h
  | cons g gs ih =>
    intro b hb
    cases gs with
    | nil =>
      have hg : b ∈ decimal g := by simpa [List.intercalate] using hb
      exact le_of_mem_decimal hg
    | cons g' gs =>
      have hjoin : [space].intercalate ((g :: g' :: gs).map decimal) =
          decimal g ++ space :: [space].intercalate ((g' :: gs).map decimal) := by
        simp [List.intercalate]
      rw [hjoin, mem_append, mem_cons] at hb
      rcases hb with hb | rfl | hb
      · exact le_of_mem_decimal hb
      · decide
      · exact ih b hb

/-- The groups read back. -/
theorem mapM_groups (groups : List UInt32) :
    ((Bytes.split space ([space].intercalate (groups.map decimal))).filter (· ≠ [])).mapM
      num32 = some groups := by
  have hne : ∀ p ∈ groups.map decimal, space ∉ p ∧ p ≠ [] := by
    intro p hp
    obtain ⟨g, -, rfl⟩ := mem_map.1 hp
    refine ⟨fun h => ?_, print_ne_nil 10 _⟩
    exact absurd (le_of_mem_print (by decide) (by decide) h) (by decide)
  cases groups with
  | nil => rfl
  | cons g gs =>
    rw [Bytes.split_intercalate (fun p hp => (hne p hp).1) (by simp),
      filter_eq_self.2 fun p hp => decide_eq_true (hne p hp).2]
    generalize g :: gs = groups
    induction groups with
    | nil => rfl
    | cons g gs ih => simp [num32_decimal, ih]

/-! ### The whole text -/

/-- A field as it is read from its line. -/
def readField (s : Parse) (f : Key × Bytes) : Option Parse := s.field (some f.1) (strip f.2)

theorem foldlM_lines (fs : List (Key × Bytes)) (s : Parse) :
    ((fs.map line).map strip).foldlM parseLine s = fs.foldlM readField s := by
  rw [map_map, foldlM_map]
  congr 1
  funext s f
  rw [Function.comp_apply, line, strip_append_tab]
  exact parseLine_line s (f.1, strip f.2)

variable {id : Identity}

theorem newline_line (h : ∀ f ∈ id.fields, newline ∉ f.2) :
    ∀ l ∈ header :: id.fields.map line, newline ∉ l := by
  intro l hl
  rcases mem_cons.1 hl with rfl | hl
  · decide +kernel
  obtain ⟨f, hf, rfl⟩ := mem_map.1 hl
  rw [line, mem_append, mem_cons]
  rintro (hm | hm | hm)
  · exact (text_plain f.1).2.1 hm
  · cases hm
  · exact h f hf hm

/-- The text is read field by field. -/
theorem parse_toText_eq (h : ∀ f ∈ id.fields, newline ∉ f.2) :
    parse id.toText = (id.fields.foldlM readField {}).map Parse.finish := by
  have hheader : parseLine {} (strip header) = some {} :=
    if_pos (.inr (by decide +kernel))
  rw [parse, toText_eq, lines_unlines (newline_line h), map_cons, foldlM_cons]
  exact congrArg _ (foldlM_lines _ _)

section Fields

variable (s : Parse) (v : UInt32) (rest : List (Key × Bytes))

/-- A field of an id. -/
theorem readField_decimal (k : Key) :
    readField s (k, decimal v) = s.field (some k) (decimal v) := by
  rw [readField, (plain_decimal v).strip]

theorem foldlM_fieldIf {k : Key} {value : Bytes} {c : Bool} {s' : Parse}
    (h : readField s (k, value) = some s') :
    (fieldIf c k value ++ rest).foldlM readField s =
      rest.foldlM readField (if c then s' else s) := by
  cases c with
  | false => rfl
  | true => simp [fieldIf, h]

end Fields

/-- The ids, once their lines are read. -/
theorem read_idFields (id : Identity) (rest : List (Key × Bytes)) :
    (id.idFields ++ rest).foldlM readField {} = rest.foldlM readField
      { id := { service := strip id.service, uid := .all id.uid.real, gid := .all id.gid.real,
                groups := id.groups }
        euid := if id.uid.eff ≠ id.uid.real then some id.uid.eff else none
        egid := if id.gid.eff ≠ id.gid.real then some id.gid.eff else none
        suid := if id.uid.saved ≠ id.uid.eff then some id.uid.saved else none
        sgid := if id.gid.saved ≠ id.gid.eff then some id.gid.saved else none } := by
  have hservice : ∀ s : Parse, readField s (.service, id.service) =
      some { s with id.service := strip id.service } := fun _ => rfl
  have hgroups : ∀ s : Parse, readField s
      (.groups, [space].intercalate (id.groups.map decimal)) =
      some { s with id.groups := id.groups } := by
    intro s
    rw [readField, (plain_groups _).strip, Parse.field, mapM_groups]
    rfl
  have huid : ∀ (s : Parse) v, readField s (.uid, decimal v) =
      some { s with id.uid := .all v } := by
    intro s v
    rw [readField_decimal, Parse.field, num32_decimal, Option.map_some]
  have hgid : ∀ (s : Parse) v, readField s (.gid, decimal v) =
      some { s with id.gid := .all v } := by
    intro s v
    rw [readField_decimal, Parse.field, num32_decimal, Option.map_some]
  have heuid : ∀ (s : Parse) v, readField s (.euid, decimal v) =
      some { s with euid := some v } := by
    intro s v
    rw [readField_decimal, Parse.field, num32_decimal, Option.map_some]
  have hegid : ∀ (s : Parse) v, readField s (.egid, decimal v) =
      some { s with egid := some v } := by
    intro s v
    rw [readField_decimal, Parse.field, num32_decimal, Option.map_some]
  have hsuid : ∀ (s : Parse) v, readField s (.suid, decimal v) =
      some { s with suid := some v } := by
    intro s v
    rw [readField_decimal, Parse.field, num32_decimal, Option.map_some]
  have hsgid : ∀ (s : Parse) v, readField s (.sgid, decimal v) =
      some { s with sgid := some v } := by
    intro s v
    rw [readField_decimal, Parse.field, num32_decimal, Option.map_some]
  simp only [idFields, flatten_cons, flatten_nil, append_assoc,
    cons_append, nil_append, append_nil, foldlM_cons, hservice, huid, hgid,
    Option.bind_eq_bind, Option.bind_some, foldlM_fieldIf _ _ (heuid _ _),
    foldlM_fieldIf _ _ (hegid _ _), foldlM_fieldIf _ _ (hsuid _ _), foldlM_fieldIf _ _ (hsgid _ _),
    hgroups, decide_eq_true_eq]
  congr 1
  split_ifs <;> rfl

/-- After the first of their lines the sets are given. -/
theorem giveCaps_of_given {s : Parse} (h : s.capsGiven = true) : s.giveCaps = s := if_pos h

theorem giveCaps_given (s : Parse) : s.giveCaps.capsGiven = true := by
  rw [Parse.giveCaps]
  split_ifs with h
  · exact h
  · rfl

/-- The capabilities, once their lines are read. -/
theorem read_capFields (h : ∀ c ∈ [id.capEff, id.capPerm, id.capInh, id.capAmb,
    id.capBset], c &&& CAP_FULL = c) (s : Parse) (rest : List (Key × Bytes)) :
    (id.capFields ++ rest).foldlM readField s = rest.foldlM readField
      { s with
        id := { s.id with
          capEff := id.capEff, capPerm := id.capPerm, capInh := id.capInh, capAmb := id.capAmb
          capBset := id.capBset }
        capsGiven := true } := by
  simp only [mem_cons, not_mem_nil, or_false, forall_eq_or_imp, forall_eq] at h
  obtain ⟨h₁, h₂, h₃, h₄, h₅⟩ := h
  have hread : ∀ (s : Parse) (k : Key) (n : ℕ),
      readField s (k, hex n) = s.field (some k) (hex n) := by
    intro s k n
    rw [readField, (plain_hex n).strip]
  simp only [capFields, cons_append, nil_append, foldlM_cons, hread,
    Parse.field, caps_hex h₁, caps_hex h₂, caps_hex h₃, caps_hex h₄, caps_hex h₅, Option.map_some,
    Option.bind_eq_bind, Option.bind_some, giveCaps_given, giveCaps_of_given]
  rw [Parse.giveCaps]
  split_ifs <;> rfl

/-- The attributes, once their lines are read. -/
theorem read_attributeFields (id : Identity) (s : Parse) (hs : s.id.securebits = 0)
    (rest : List (Key × Bytes)) :
    (id.attributeFields ++ rest).foldlM readField s = rest.foldlM readField
      { s with
        id := { s.id with
          securebits := id.securebits &&& SECBITS_MASK, seclabel := strip id.seclabel
          priority := id.priority, oomScoreAdj := id.oomScoreAdj } } := by
  have hbits : readField s (.securebits, hex id.securebits.toNat) =
      some { s with id.securebits := id.securebits &&& SECBITS_MASK } := by
    rw [readField, (plain_hex _).strip, Parse.field,
      num_hex (Nat.lt_trans id.securebits.isLt (by decide)), Option.map_some, BitVec.ofNat_toNat,
      BitVec.setWidth_eq]
  have hlabel : ∀ s : Parse, readField s (.seclabel, id.seclabel) =
      some { s with id.seclabel := strip id.seclabel } := fun _ => rfl
  have hint : ∀ v : Int32, parseI32 (printInt v.toInt) = some v.toInt := fun v =>
    parseI32_printInt ⟨Int32.le_toInt v, Int32.toInt_lt v⟩
  have hpriority : ∀ s : Parse, readField s (.priority, printInt id.priority.toInt) =
      some { s with id.priority := id.priority } := by
    intro s
    rw [readField, (plain_printInt _).strip, Parse.field, hint, Option.map_some, Int32.ofInt_toInt]
  have hoom : ∀ s : Parse, readField s (.oomScoreAdj, printInt id.oomScoreAdj.toInt) =
      some { s with id.oomScoreAdj := id.oomScoreAdj } := by
    intro s
    rw [readField, (plain_printInt _).strip, Parse.field, hint, Option.map_some, Int32.ofInt_toInt]
  simp only [attributeFields, append_assoc, cons_append, nil_append,
    foldlM_fieldIf _ _ hbits, foldlM_cons, hlabel, hpriority, hoom, Option.bind_eq_bind,
    Option.bind_some, decide_eq_true_eq]
  split_ifs with hz
  · rfl
  · rw [not_not] at hz
    obtain ⟨⟨⟩, _, _, _, _, _⟩ := s
    cases hs
    simp [hz]

/-- A limit, once its line is read. -/
theorem read_rlimit (s : Parse) (res : Fin RLIM_NLIMITS) (l : UInt64 × UInt64) :
    readField s (.rlimit, print 10 res ++ tab :: (limitText l.1 ++ tab :: limitText l.2)) =
      some { s with id.rlimits := Function.update s.id.rlimits res (some l) } := by
  have hplain : Plain (print 10 (res : ℕ)) := plain_of_le fun _ hb => le_of_mem_decimal hb
  have htab : ∀ {v : Bytes}, (∀ b ∈ v, 14 ≤ b) → tab ∉ v := fun h ht =>
    absurd (h _ ht) (by decide)
  have hsplit : Bytes.split tab (print 10 res ++ tab :: (limitText l.1 ++ tab :: limitText l.2)) =
      [print 10 res, limitText l.1, limitText l.2] := by
    rw [Bytes.split_append (htab fun _ => le_of_mem_decimal),
      Bytes.split_append (htab fun _ => le_of_mem_limitText),
      Bytes.split_of_not_mem (htab fun _ => le_of_mem_limitText)]
  have hres : num (print 10 (res : ℕ)) = some (res : ℕ) :=
    num_print (Nat.lt_trans res.isLt (by decide))
  rw [readField, (hplain.tab ((plain_limitText _).tab (plain_limitText _))).strip, Parse.field]
  rw [hsplit]
  simp only [hres, limit_limitText, Option.bind_eq_bind, Option.bind_some, dif_pos res.isLt]

/-- The limits, once their lines are read. -/
theorem read_rlimitFields (id : Identity) (s : Parse) (hs : s.id.rlimits = fun _ => none) :
    id.rlimitFields.foldlM readField s = some { s with id.rlimits := id.rlimits } := by
  -- A limit is the identity's once its line is read, and stays as it is until then.
  have key : ∀ (l : List (Fin RLIM_NLIMITS)) (s : Parse),
      (∀ r, s.id.rlimits r = none ∨ s.id.rlimits r = id.rlimits r) →
      ∃ rl, (l.filterMap fun res => (id.rlimits res).map fun l =>
          (Key.rlimit, print 10 res ++ tab :: (limitText l.1 ++ tab :: limitText l.2))).foldlM
            readField s = some { s with id.rlimits := rl } ∧
        (∀ r ∈ l, rl r = id.rlimits r) ∧ ∀ r, s.id.rlimits r = id.rlimits r → rl r = id.rlimits r := by
    intro l
    induction l with
    | nil => exact fun s _ => ⟨s.id.rlimits, rfl, by simp, fun _ h => h⟩
    | cons r l ih =>
      intro s hs
      cases hr : id.rlimits r with
      | none =>
        obtain ⟨rl, hrl, hmem, hkeep⟩ := ih s hs
        refine ⟨rl, by simpa [hr] using hrl, ?_, hkeep⟩
        intro q hq
        rcases mem_cons.1 hq with rfl | hq
        · refine hkeep q ?_
          rcases hs q with h | h
          · rw [h, hr]
          · exact h
        · exact hmem q hq
      | some v =>
        obtain ⟨rl, hrl, hmem, hkeep⟩ := ih
          { s with id.rlimits := Function.update s.id.rlimits r (some v) } (by
            intro q
            by_cases hq : q = r
            · subst hq
              exact .inr (by simp [hr])
            · simpa [Function.update_of_ne hq] using hs q)
        refine ⟨rl, ?_, ?_, ?_⟩
        · simpa [hr, read_rlimit] using hrl
        · intro q hq
          rcases mem_cons.1 hq with rfl | hq
          · exact hkeep q (by simp [hr])
          · exact hmem q hq
        · intro q hq
          refine hkeep q ?_
          by_cases hqr : q = r
          · subst hqr
            simp [hr]
          · simpa [Function.update_of_ne hqr] using hq
  obtain ⟨rl, hrl, hmem, -⟩ := key (List.finRange RLIM_NLIMITS) s
    (by rw [hs]; exact fun _ => .inl rfl)
  have hall : rl = id.rlimits := funext fun r => hmem r (mem_finRange r)
  rw [hall] at hrl
  exact hrl

theorem eq_of_mem_fieldIf {c : Bool} {k : Key} {v : Bytes} {f : Key × Bytes}
    (h : f ∈ fieldIf c k v) : f = (k, v) := by
  cases c with
  | false => cases h
  | true => exact mem_singleton.1 h

/-- Every line holds its value. -/
theorem clean_fields {P : Bytes → Prop} (hP : ∀ v, Plain v → P v)
    (hs : P id.service) (hl : P id.seclabel) : ∀ f ∈ id.fields, P f.2 := by
  have hdec := fun v => hP _ (plain_decimal v)
  have hhex := fun n => hP _ (plain_hex n)
  have hint := fun v => hP _ (plain_printInt v)
  have hopt : ∀ {c : Bool} {k : Key} {v : Bytes} {f : Key × Bytes}, P v →
      f ∈ fieldIf c k v → P f.2 := by
    intro c k v f hv hf
    rw [eq_of_mem_fieldIf hf]
    exact hv
  intro f hf
  simp only [fields, mem_append] at hf
  rcases hf with hf | hf | hf | hf
  · simp only [idFields, flatten_cons, flatten_nil, append_nil,
      mem_append, mem_cons, not_mem_nil, or_false] at hf
    rcases hf with (rfl | rfl | rfl) | hf | hf | hf | hf | rfl
    · exact hs
    · exact hdec _
    · exact hdec _
    · exact hopt (hdec _) hf
    · exact hopt (hdec _) hf
    · exact hopt (hdec _) hf
    · exact hopt (hdec _) hf
    · exact hP _ (plain_groups _)
  · simp only [capFields, mem_cons, not_mem_nil, or_false] at hf
    rcases hf with rfl | rfl | rfl | rfl | rfl <;> exact hhex _
  · simp only [attributeFields, mem_append, mem_cons, not_mem_nil,
      or_false] at hf
    rcases hf with hf | rfl | rfl | rfl
    · exact hopt (hhex _) hf
    · exact hl
    · exact hint _
    · exact hint _
  · obtain ⟨res, -, hres⟩ := mem_filterMap.1 hf
    obtain ⟨l, -, rfl⟩ := Option.map_eq_some_iff.1 hres
    have hplain : Plain (print 10 (res : ℕ)) := plain_of_le fun _ hb => le_of_mem_decimal hb
    exact hP _ (hplain.tab ((plain_limitText _).tab (plain_limitText _)))

/-- What is left of an identity that went through its text. -/
def Identity.restored (id : Identity) : Identity :=
  { id with
    service := strip id.service, seclabel := strip id.seclabel
    uid := { id.uid with fs := id.uid.eff }, gid := { id.gid with fs := id.gid.eff }
    securebits := id.securebits &&& SECBITS_MASK }

/-- The ids that differ are given. -/
theorem ids_restored (u : Ids) :
    Parse.ids (.all u.real) (if u.eff ≠ u.real then some u.eff else none)
      (if u.saved ≠ u.eff then some u.saved else none) = { u with fs := u.eff } := by
  obtain ⟨real, eff, saved, fs⟩ := u
  by_cases he : eff = real
  · subst he
    by_cases hs : saved = eff
    · subst hs
      simp [Parse.ids, Ids.all]
    · simp [Parse.ids, Ids.all, hs]
  · by_cases hs : saved = eff
    · subst hs
      simp [Parse.ids, Ids.all, he]
    · simp [Parse.ids, Ids.all, he, hs]

theorem finish_of_given (s : Parse) (h : s.capsGiven = true) :
    s.finish = { s.id with
      uid := Parse.ids s.id.uid s.euid s.suid, gid := Parse.ids s.id.gid s.egid s.sgid } := by
  rw [Parse.finish, if_neg fun hc => by rw [h] at hc; cases hc.1]

/-- **The text of an identity reads back.** -/
theorem parse_toText (hs : newline ∉ id.service) (hl : newline ∉ id.seclabel)
    (hc : ∀ c ∈ [id.capEff, id.capPerm, id.capInh, id.capAmb, id.capBset], c &&& CAP_FULL = c) :
    parse id.toText = some id.restored := by
  rw [parse_toText_eq (clean_fields (fun _ h => h.newline) hs hl), fields, read_idFields,
    read_capFields hc, read_attributeFields _ _ rfl, read_rlimitFields _ _ rfl, Option.map_some]
  rw [finish_of_given _ rfl]
  rw [ids_restored, ids_restored, restored]

/-- A text that has no NUL is passed as it is. -/
theorem arg_toText (hs : 0 ∉ id.service) (hl : 0 ∉ id.seclabel) : arg id.toText = id.toText := by
  refine if_neg fun h => ?_
  rw [toText_eq] at h
  obtain ⟨l, hl', hm⟩ := mem_flatMap.1 h
  rcases mem_append.1 hm with hm | hm
  · rcases mem_cons.1 hl' with rfl | hl'
    · exact absurd hm (by decide +kernel)
    obtain ⟨f, hf, rfl⟩ := mem_map.1 hl'
    rw [line, mem_append, mem_cons] at hm
    rcases hm with hm | hm | hm
    · exact (text_plain f.1).2.2.1 hm
    · cases hm
    · exact clean_fields (P := (0 ∉ ·)) (fun _ h => h.nul) hs hl f hf hm
  · cases mem_singleton.1 hm

end Cred
