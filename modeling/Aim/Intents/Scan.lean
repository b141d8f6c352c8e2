import Aim.Intents.Resolver

/-!
# Intents — the index is a linear scan

A query looks at the filters of at most four cuts of the index.  It finds what matching every filter
in turn finds (`query_agrees_with_scan`): a filter that matches, or whose matching fails, is in one
of the cuts.

* `registered`: what `add` has registered an entry under.
* `wanted`: a filter whose data matches has neither a scheme nor a type, or has the intent's scheme,
  or finds the intent's type among its own.
* `findMimeType_keys`: it finds a type only if it is registered under a key of one of its cuts.
-/

namespace Intents

open Text (utf16 ofUtf16)
open Candidates List IntentResolver

variable {E R : Type} [Entry E]

/-! ### What is registered -/

theorem entries_ofList (entries : List E) : (ofList entries).entries = entries := by
  have h : ∀ (es : List E) (r : IntentResolver E), (es.foldl .add r).entries = r.entries ++ es := by
    intro es
    induction es with
    | nil => simp
    | cons e es ih => intro r; rw [foldl_cons, ih]; simp [add]
  exact h entries {}

/-- **An entry is under the keys of its filter**, and nothing else is. -/
theorem registered (entries : List E) (j : ℕ) (key : Index × Text) :
    j ∈ under (ofList entries).index key ↔
      ∃ e, entries[j]? = some e ∧ key ∈ registrations (Entry.filter e) := by
  induction entries using List.reverseRecOn with
  | nil => simp [ofList, under]
  | append_singleton entries e ih =>
    have hadd : ofList (entries ++ [e]) = (ofList entries).add e := by
      simp [ofList]
    rw [hadd, add, mem_registerAll, ih, entries_ofList]
    constructor
    · rintro (⟨e', he', hk⟩ | ⟨rfl, hk⟩)
      · have hj : j < entries.length := (List.getElem?_eq_some_iff.1 he').1
        exact ⟨e', by rw [getElem?_append_left hj, he'], hk⟩
      · exact ⟨e, by simp, hk⟩
    rintro ⟨e', he', hk⟩
    by_cases hj : j < entries.length
    · rw [getElem?_append_left hj] at he'
      exact .inl ⟨e', he', hk⟩
    · rw [getElem?_append_right (Nat.le_of_not_lt hj)] at he'
      obtain ⟨h0, rfl⟩ := List.getElem?_eq_some_iff.1 he'
      simp only [length_singleton] at h0
      exact .inr ⟨by omega, by simpa using hk⟩

/-! ### Queries as gatherings -/

/-- What an entry comes to: nothing, or its result. -/
def verdict (cases : CaseMap) (intent : Intent) (resolvedType : Option Text) (defaultOnly : Bool)
    (build : Build E R) (entry : E) : Result (Option R) :=
  if intent.isExcludingStopped && build.stopped entry then .ok none
  else if intent.package.any fun p => p ≠ Entry.package entry then .ok none
  else do
    let matched ← (Entry.filter entry).matchFilter cases intent.action resolvedType intent.scheme
      intent.data intent.categories false none
    return if matched ≥ 0 ∧ (!defaultOnly || (Entry.filter entry).hasCategory categoryDefault) then
      build.result entry matched else none

section Query

variable {cases : CaseMap} {intent : Intent} {ty : Option Text} {defaultOnly : Bool}
  {build : Build E R}

theorem resolveEntry_eq (dest : List R) (e : E) :
    resolveEntry cases intent ty defaultOnly build dest e =
      if build.allow e dest then
        (fun r => dest ++ r.toList) <$> verdict cases intent ty defaultOnly build e
      else pure dest := by
  rw [resolveEntry, verdict]
  by_cases hs : (intent.isExcludingStopped && build.stopped e) = true
  · split_ifs
    · simp [Functor.map, Except.map, pure, Except.pure]
    · rfl
  rw [if_neg hs, if_neg hs]
  by_cases hp : (intent.package.any fun p => p ≠ Entry.package e) = true
  · split_ifs
    · simp [Functor.map, Except.map, pure, Except.pure]
    · rfl
  rw [if_neg hp, if_neg hp]
  cases build.allow e dest with
  | false => rfl
  | true =>
    rw [map_bind]
    refine bind_congr fun matched => ?_
    split_ifs
    · cases build.result e matched <;> simp
    · simp

theorem buildResolveList_eq (dest : List R) (es : List E) :
    buildResolveList cases intent ty defaultOnly build dest es =
      gather build.allow (verdict cases intent ty defaultOnly build) dest es := by
  rw [buildResolveList]
  congr 1
  funext dest e
  exact resolveEntry_eq dest e

theorem queryFromList_eq (lists : List (List E)) :
    queryFromList lists cases intent ty defaultOnly build =
      gather build.allow (verdict cases intent ty defaultOnly build) [] lists.flatten := by
  rw [queryFromList, ← gather_flatten]
  congr 1
  funext dest es
  exact buildResolveList_eq dest es

/-- The keys a query looks under. -/
def cutKeys (intent : Intent) (ty : Option Text) : List (Index × Text) :=
  (match ty with
    | none =>
      match intent.scheme, intent.action with
      | none, some action => [(.action, action)]
      | _, _ => []
    | some ty =>
      match List.splitOnce '/' ty with
      | some (c :: base, sub) =>
        if c :: base ≠ wildcard then
          [if sub ≠ ['*'] then (.type, ty) else (.baseType, c :: base), (.wildType, c :: base),
            (.wildType, wildcard)]
        else intent.action.toList.map fun action => (.typedAction, action)
      | _ => []) ++
    intent.scheme.toList.map fun scheme => (.scheme, scheme)

omit [Entry E] in
theorem mem_cuts (r : IntentResolver E) (i : ℕ) :
    i ∈ (r.cuts intent ty).flatten ↔ ∃ key ∈ cutKeys intent ty, i ∈ under r.index key := by
  unfold cuts cutKeys
  cases ty with
  | none => cases intent.scheme <;> cases intent.action <;> simp
  | some ty =>
    simp only [flatten_append, mem_append, mem_append, or_and_right, exists_or, flatten_singleton]
    refine or_congr ?_ (by cases intent.scheme <;> simp)
    rcases List.splitOnce '/' ty with _ | ⟨_ | ⟨c, base⟩, sub⟩
    · simp
    · simp
    · by_cases hb : c :: base = wildcard
      · cases intent.action <;> simp [hb]
      · by_cases hsub : sub = ['*'] <;> simp [hb, hsub]

/-- The entries of the cuts. -/
def IntentResolver.offered (r : IntentResolver E) (intent : Intent) (ty : Option Text) : List E :=
  (r.cuts intent ty).flatten.filterMap fun i => r.entries[i]?

omit [Entry E] in
theorem mapM_entries {entries : List E} {cut : List ℕ} (h : ∀ i ∈ cut, i < entries.length) :
    (cut.mapM fun i => orPanic entries[i]?) = .ok (cut.filterMap fun i => entries[i]?) := by
  induction cut with
  | nil => rfl
  | cons i cut ih =>
    have hi : entries[i]? = some (entries.get ⟨i, h i (.head _)⟩) :=
      getElem?_eq_getElem (h i (.head _))
    rw [mapM_cons, ih fun j hj => h j (.tail _ hj), filterMap_cons, hi]
    rfl

theorem query_eq (entries : List E) :
    (ofList entries).query cases intent ty defaultOnly build =
      gather build.allow (verdict cases intent ty defaultOnly build) []
        ((ofList entries).offered intent ty) := by
  -- every position of a cut is one of an entry
  have hlt : ∀ cut ∈ (ofList entries).cuts intent ty, ∀ i ∈ cut,
      i < (ofList entries).entries.length := by
    intro cut hc i hi
    obtain ⟨key, -, hk⟩ := (mem_cuts (ofList entries) i).1
      (mem_flatten.2 ⟨cut, hc, hi⟩)
    obtain ⟨e, he, -⟩ := (registered entries i key).1 hk
    rw [entries_ofList]
    exact (List.getElem?_eq_some_iff.1 he).1
  rw [query, offered]
  generalize (ofList entries).cuts intent ty = cuts at hlt
  generalize ([] : List R) = dest
  induction cuts generalizing dest with
  | nil => rfl
  | cons cut cuts ih =>
    rw [foldlM_cons, mapM_entries (hlt cut (.head _)), flatten_cons,
      filterMap_append, gather_append]
    have hcut : ∀ dest : List R, (do
        let entries ← (.ok (cut.filterMap fun i => (ofList entries).entries[i]?) :
          Result (List E))
        buildResolveList cases intent ty defaultOnly build dest entries) =
        gather build.allow (verdict cases intent ty defaultOnly build) dest
          (cut.filterMap fun i => (ofList entries).entries[i]?) :=
      fun dest => buildResolveList_eq dest _
    rw [hcut]
    exact bind_congr fun dest' => ih (fun c hc => hlt c (.tail _ hc)) dest'

theorem mem_offered (entries : List E) (e : E) :
    e ∈ (ofList entries).offered intent ty ↔
      e ∈ entries ∧ ∃ key ∈ cutKeys intent ty, key ∈ registrations (Entry.filter e) := by
  rw [offered, mem_filterMap]
  simp only [mem_cuts, registered, entries_ofList]
  constructor
  · rintro ⟨i, ⟨key, hk, e', he', hr⟩, he⟩
    obtain rfl : e' = e := Option.some.inj (he'.symm.trans he)
    exact ⟨mem_of_getElem? he, key, hk, hr⟩
  · rintro ⟨he, key, hk, hr⟩
    obtain ⟨i, hi⟩ := mem_iff_getElem?.1 he
    exact ⟨i, ⟨key, hk, e, hi, hr⟩, hi⟩

end Query

/-! ### What a match needs -/

variable {f : IntentFilter}

/-- A filter whose data matches, or fails to. -/
theorem wanted {cases : CaseMap} {ty scheme : Option Text} {data : Option Uri}
    (h : ∀ m, f.matchData cases ty scheme data false = .ok m → 0 ≤ m) :
    (f.types = none ∧ f.schemes = none ∧ ty = none ∧ data = none) ∨
      (∃ schemes, f.schemes = some schemes ∧ scheme.getD [] ∈ schemes) ∨
      f.findMimeType ty = true := by
  by_contra hn
  push Not at hn
  obtain ⟨hempty, hschemes, htype⟩ := hn
  -- otherwise the match value is that of a mismatch
  have hneg : ∃ m < 0, f.matchData cases ty scheme data false = .ok m := by
    unfold IntentFilter.matchData
    cases hs : f.schemes with
    | none =>
      cases ht : f.types with
      | none =>
        have hnone : (ty.isNone && data.isNone) = false := by
          cases hty : ty with
          | none => simpa [Option.isSome_iff_ne_none] using hempty ht hs hty
          | some t => rfl
        rw [hnone]
        exact ⟨noMatchData, by decide, rfl⟩
      | some types =>
        simp only [Bool.false_and, Bool.not_false, Bool.true_and, Option.isNone_some,
          Bool.false_eq_true, if_false, Option.isSome_some, if_true, htype]
        split_ifs
        · exact ⟨noMatchData, by decide, rfl⟩
        · exact ⟨noMatchType, by decide, rfl⟩
    | some schemes =>
      simp only [hschemes schemes hs, Bool.false_and, Bool.and_false, Option.isNone_some,
        Bool.false_eq_true, false_and, or_self, if_false]
      exact ⟨noMatchData, by decide, rfl⟩
  obtain ⟨m, hm, he⟩ := hneg
  exact absurd (h m he) (by omega)

/-- A type that a filter finds is one it is registered for. -/
theorem findMimeType_keys {base sub : Text} (hb : '/' ∉ base)
    (h : f.findMimeType (some (base ++ '/' :: sub)) = true) :
    ∃ types, f.types = some types ∧ types ≠ [] ∧ (base ≠ wildcard →
      base ++ '/' :: sub ∈ types ∨ wildcard ∈ types ∨ base ∈ types ∨
        sub = ['*'] ∧ ∃ rest, base ++ '/' :: rest ∈ types) := by
  cases ht : f.types with
  | none => simp [IntentFilter.findMimeType, ht] at h
  | some types =>
    have hfind : (utf16 (base ++ '/' :: sub)).findIdx? (· = 0x2f) = some (utf16 base).length :=
      Text.findIdx?_utf16 (by decide) hb
    have hu : utf16 (base ++ '/' :: sub) = utf16 base ++ 0x2f :: utf16 sub := by
      rw [Text.utf16_append, Text.utf16_cons]
      rfl
    simp only [IntentFilter.findMimeType, ht, hfind] at h
    refine ⟨types, rfl, ?_, fun hbw => ?_⟩
    · rintro rfl
      simp at h
    have hall : base ++ '/' :: sub ≠ ['*', '/', '*'] := by
      intro he
      have hs : List.splitOnce '/' (base ++ '/' :: sub) = some (base, sub) :=
        List.splitOnce_eq_some.2 ⟨rfl, hb⟩
      rw [he] at hs
      exact hbw (congrArg Prod.fst (Option.some.inj hs)).symm
    rw [if_neg hall, hu] at h
    split_ifs at h with h₁ h₂ h₃ h₄ h₅
    · exact .inl h₁
    · exact .inr (.inl (of_decide_eq_true (Bool.and_eq_true_iff.1 h₂).2))
    · rw [take_left, Text.ofUtf16_utf16] at h₄
      exact .inr (.inr (.inl (of_decide_eq_true (Bool.and_eq_true_iff.1 h₄).2)))
    · -- the type asked for is `base/*`
      obtain ⟨v, hv, hp⟩ := any_eq_true.1 h
      obtain ⟨hlen, hstar⟩ := h₅
      have hsub : utf16 sub = [0x2a] := by
        rw [length_append, length_cons] at hlen
        obtain ⟨u, hu'⟩ := length_eq_one_iff.1 (show (utf16 sub).length = 1 by omega)
        rw [hu', getD_eq_getElem?_getD, getElem?_append_right (by omega)] at hstar
        rw [hu', show u = 0x2a by simpa using hstar]
      have hbase : utf16 (base ++ ['/']) <+: utf16 v := by
        rw [take_length_add_append] at hp
        rw [Text.utf16_append]
        exact isPrefixOf_iff_prefix.1 hp
      obtain ⟨rest, rfl⟩ := Text.prefix_of_utf16 hbase
      refine .inr (.inr (.inr ⟨?_, rest, by simpa using hv⟩))
      rw [← Text.ofUtf16_utf16 sub, hsub]
      rfl

/-- The keys of a type that a filter finds, among those a query looks under. -/
theorem exists_typeKey {intent : Intent} {action base sub : Text}
    (ha : intent.action = some action) (haf : action ∈ f.actions) (hb : '/' ∉ base)
    (hne : base ≠ []) (h : f.findMimeType (some (base ++ '/' :: sub)) = true) :
    ∃ key ∈ cutKeys intent (some (base ++ '/' :: sub)), key ∈ registrations f := by
  obtain ⟨types, ht, htn, hkeys⟩ := findMimeType_keys hb h
  have hsplit : ∀ rest, List.splitOnce '/' (base ++ '/' :: rest) = some (base, rest) :=
    fun rest => List.splitOnce_eq_some.2 ⟨rfl, hb⟩
  have hreg : ∀ v ∈ types, ∀ key ∈ typeKeys v, key ∈ registrations f := by
    intro v hv key hk
    simp only [registrations, ht, Option.getD_some, mem_append, mem_flatMap]
    exact .inl (.inl (.inr ⟨v, hv, hk⟩))
  obtain ⟨c, cs, rfl⟩ := exists_cons_of_ne_nil hne
  simp only [cutKeys, hsplit]
  by_cases hw : c :: cs = wildcard
  · -- every type: the typed filters of the action
    refine ⟨(.typedAction, action), by simp [hw, ha], ?_⟩
    simp only [registrations, ht, Option.getD_some, if_pos htn, mem_append]
    exact .inr (mem_map.2 ⟨action, haf, rfl⟩)
  rw [if_pos hw]
  have hbare : ∀ v : Text, '/' ∉ v → typeKeys v = [(.type, v ++ ['/', '*']), (.wildType, v)] := by
    intro v hv
    rw [typeKeys, List.splitOnce_eq_none hv]
  have hfull : ∀ rest, typeKeys (c :: cs ++ '/' :: rest) =
      [(.type, c :: cs ++ '/' :: rest), (.baseType, c :: cs)] := by
    intro rest
    rw [typeKeys, hsplit]
  rcases hkeys hw with hv | hv | hv | ⟨rfl, rest, hv⟩
  · refine ⟨if sub ≠ ['*'] then (.type, c :: cs ++ '/' :: sub) else (.baseType, c :: cs), by simp,
      hreg _ hv _ ?_⟩
    rw [hfull]
    split_ifs <;> simp
  · exact ⟨(.wildType, wildcard), by simp, hreg _ hv _ (by rw [hbare _ (by decide)]; simp)⟩
  · exact ⟨(.wildType, c :: cs), by simp, hreg _ hv _ (by rw [hbare _ hb]; simp)⟩
  · exact ⟨(.baseType, c :: cs), by simp, hreg _ hv _ (by rw [hfull]; simp)⟩

/-! ### The scan -/

/-- The builder keeps each entry once; `of` is the entry of a result. -/
structure KeepsOnce (build : Build E R) (of : R → E) : Prop where
  result : ∀ e m r, build.result e m = some r → of r = e
  allow : ∀ e dest, build.allow e dest = true ↔ ∀ r ∈ dest, of r ≠ e

section

variable {cases : CaseMap} {intent : Intent} {ty : Option Text} {defaultOnly : Bool}
  {build : Build E R} {of : R → E}

variable {e : E}

theorem KeepsOnce.of_verdict (hk : KeepsOnce build of) {r : R}
    (h : verdict cases intent ty defaultOnly build e = .ok (some r)) : of r = e := by
  unfold verdict at h
  split_ifs at h
  · cases h
  · cases h
  cases hm : (Entry.filter e).matchFilter cases intent.action ty intent.scheme intent.data
      intent.categories false none with
  | error x =>
    rw [hm] at h
    cases h
  | ok matched =>
    rw [hm] at h
    have h' := Except.ok.inj h
    split_ifs at h'
    exact hk.result e matched r h'

/-- What comes to something has the action, and its data matches or fails to. -/
theorem matchData_of_verdict {action : Text} (ha : intent.action = some action)
    (h : verdict cases intent ty defaultOnly build e ≠ .ok none) :
    action ∈ (Entry.filter e).actions ∧
      ∀ m, (Entry.filter e).matchData cases ty intent.scheme intent.data false = .ok m → 0 ≤ m := by
  have hmatch : ∀ m, (Entry.filter e).matchFilter cases intent.action ty intent.scheme intent.data
      intent.categories false none = .ok m → 0 ≤ m := by
    intro m hm
    by_contra hneg
    refine h ?_
    unfold verdict
    split_ifs
    · rfl
    · rfl
    · rw [hm]
      exact congrArg Except.ok (if_neg fun hc => hneg hc.1)
  rw [ha] at hmatch
  have hact : (Entry.filter e).matchAction action false none = true := by
    by_contra hn
    have := hmatch noMatchAction (by simp [IntentFilter.matchFilter, hn]; rfl)
    exact absurd this (by decide)
  refine ⟨by simpa [IntentFilter.matchAction, IntentFilter.hasAction] using hact, fun m hm => ?_⟩
  by_contra hneg
  refine hneg (hmatch m ?_)
  unfold IntentFilter.matchFilter
  rw [hm, if_neg (by simp [hact])]
  exact if_pos (by omega)

/-- **The index is a linear scan.**  With a builder that keeps each entry once, a query finds what
matching the entries in turn finds, in any order and however they are cut in lists; or both fail.
No filter has an empty scheme, the intent has an action, and its type, if it has one, has a `/` after
at least one character. -/
theorem query_agrees_with_scan (hk : KeepsOnce build of) {entries : List E} {lists : List (List E)}
    (hl : ∀ e, e ∈ lists.flatten ↔ e ∈ entries)
    (hs : ∀ e ∈ entries, [] ∉ (Entry.filter e).schemes.getD [])
    (ha : intent.action.isSome)
    (hty : ∀ t, ty = some t → ∃ base sub, t = base ++ '/' :: sub ∧ base ≠ [] ∧ '/' ∉ base) :
    Agree ((IntentResolver.ofList entries).query cases intent ty defaultOnly build)
      (queryFromList lists cases intent ty defaultOnly build) := by
  obtain ⟨action, ha⟩ := Option.isSome_iff_exists.1 ha
  rw [query_eq, queryFromList_eq]
  refine gather_agree (fun e r => hk.of_verdict) hk.allow fun e he => ?_
  rw [hl, mem_offered]
  refine ⟨And.left, fun hm => ⟨hm, ?_⟩⟩
  obtain ⟨hact, hdata⟩ := matchData_of_verdict ha he
  rcases wanted hdata with ⟨ht, hsch, rfl, hd⟩ | ⟨schemes, hsch, hmem⟩ | hfind
  · -- neither a scheme nor a type
    have hscheme : intent.scheme = none := by rw [Intent.scheme, hd]; rfl
    refine ⟨(.action, action), by simp [cutKeys, hscheme, ha], ?_⟩
    simp [registrations, ht, hsch, hact]
  · -- the scheme; an intent without one would need an empty one
    cases hscheme : intent.scheme with
    | none =>
      rw [hscheme] at hmem
      refine absurd ?_ (hs e hm)
      rw [hsch]
      exact hmem
    | some scheme =>
      rw [hscheme] at hmem
      refine ⟨(.scheme, scheme), by simp [cutKeys, hscheme], ?_⟩
      simp only [registrations, hsch, Option.getD_some, mem_append]
      exact .inl (.inl (.inl (mem_map.2 ⟨scheme, hmem, rfl⟩)))
  · cases ty with
    | none => simp [IntentFilter.findMimeType] at hfind
    | some t =>
      obtain ⟨base, sub, rfl, hne, hb⟩ := hty t rfl
      exact exists_typeKey ha hact hb hne hfind

end

/-- The builder whose results are the entries and their match values, each entry once. -/
def Build.once [DecidableEq E] (stopped : E → Bool) : Build E (E × ℤ) where
  stopped := stopped
  allow e dest := dest.all fun r => r.1 ≠ e
  result e matched := some (e, matched)

omit [Entry E] in
theorem keepsOnce_once [DecidableEq E] (stopped : E → Bool) :
    KeepsOnce (Build.once stopped) Prod.fst where
  result e m r h := by rw [← Option.some.inj h]
  allow e dest := by simp [Build.once]

/-- A filter and its package. -/
structure PackageFilter where
  package : Text
  filter : IntentFilter
  deriving DecidableEq

instance : Entry PackageFilter := ⟨PackageFilter.filter, PackageFilter.package⟩

/-- Case mappings of a script without cases. -/
def CaseMap.none : CaseMap := ⟨fun c => [c], fun c => [c]⟩

/-- A filter for one action and the MIME types. -/
def viewer (package : String) (types : List String) : PackageFilter where
  package := package.toList
  filter := types.foldl (fun f t => (f.addDataType t.toList).getD f)
    (({} : IntentFilter).addAction "VIEW".toList)

/-- Filters for one type, for another and for every type, and an intent that two of them match. -/
theorem query_agrees_with_scan_view :
    let entries := [viewer "a" ["image/png"], viewer "b" ["text/plain"], viewer "c" ["*/*"]]
    let intent : Intent := { action := some "VIEW".toList }
    let build : Build PackageFilter (PackageFilter × ℤ) := .once fun _ => false
    ((ofList entries).query .none intent (some "image/png".toList) false
        build).toOption.map (·.map fun r => r.1.package) = some [['a'], ['c']] ∧
      Agree ((ofList entries).query .none intent (some "image/png".toList) false build)
        (queryFromList [entries] .none intent (some "image/png".toList) false build) := by
  refine ⟨by decide +kernel, ?_⟩
  refine query_agrees_with_scan (keepsOnce_once _) (by simp) ?_ rfl ?_
  · decide +kernel
  · rintro t ht
    cases ht
    exact ⟨"image".toList, "png".toList, by decide +kernel, by decide +kernel, by decide +kernel⟩

end Intents
