import Aim.Props.Service

/-!
# Props — The law of the property store

The areas of the service as one map from names to values.

* `Sound`: every area holds a tree, a property is in the area of its name, and values are UTF-8.
* `Obeys`: what a call that sets a property may do to the map, to the global serial and in effects.
* `property_store_law`: every call of every run obeys, and a read-only property keeps its value.
-/

namespace Aim.Props

open Memory List Function Option Utf8
open Prog (run_ok run_err get_ok attempt_ok attempt_err mapErr_ok orThrow_ok orThrow_err)

namespace PropertyAreas

variable {a a' : PropertyAreas} {α : Type} {x : Access α} {m m' : Memory} {v : α} {i : ℕ}
  {ts : ℕ → Tree} {name value : Bytes}

/-! ### Accesses to areas -/

def put (a : PropertyAreas) (i : ℕ) (m : Memory) : PropertyAreas := { a with areas := a.areas.set i m }

theorem onArea_ok (h : x (a.area i) = .ok v m) : onArea i x a = .ok v (a.put i m) := by
  rw [onArea, Prog.zoom, h]
  rfl

theorem onArea_err (h : x (a.area i) = .err () m) : onArea i x a = .err () (a.put i m) := by
  rw [onArea, Prog.zoom, h]
  rfl

theorem put_same (hi : i < a.areas.length) : a.put i (a.area i) = a := by
  have h : a.areas.set i (a.area i) = a.areas := by
    rw [area, getD_eq_getElem _ _ hi, set_getElem_self]
  rw [put, h]

theorem area_put (hi : i < a.areas.length) {j : ℕ} :
    (a.put i m).area j = if j = i then m else a.area j := by
  rw [area, put, getD_eq_getElem?_getD, getElem?_set, area, getD_eq_getElem?_getD]
  by_cases hj : i = j
  · rw [if_pos hj, if_pos hj.symm, if_pos hi]
    rfl
  · rw [if_neg hj, if_neg (Ne.symm hj)]

theorem areaIndexFor_lt (h : a.areaIndexFor name = some i) : i < a.areas.length := by
  unfold areaIndexFor at h
  split at h
  split_ifs at h with hi
  cases h
  exact hi

theorem areaIndexFor_put : (a.put i m).areaIndexFor name = a.areaIndexFor name := by
  unfold areaIndexFor put
  simp only [length_set]

/-! ### The map of the areas -/

/-- Every area holds a tree with the properties that belong in it. -/
structure Sound (a : PropertyAreas) (ts : ℕ → Tree) : Prop where
  holds : ∀ i < a.areas.length, Holds (a.area i) (ts i)
  home : ∀ i < a.areas.length, ∀ name, Holds.map (ts i) name ≠ none → a.areaIndexFor name = some i
  utf8 : ∀ i < a.areas.length, ∀ name value, Holds.map (ts i) name = some value →
    Utf8.valid value = true

/-- The values of the names that have one. -/
def store (a : PropertyAreas) (ts : ℕ → Tree) : Map := fun name =>
  (a.areaIndexFor name).bind fun i => Holds.map (ts i) name

theorem get_run (h : Sound a ts) (name : Bytes) :
    get name a = match a.store ts name with
      | some value => .ok value a
      | none => .err () a := by
  rw [get, run_ok get_ok]
  cases hi : a.areaIndexFor name with
  | none =>
    rw [run_err (orThrow_err rfl), store, hi]
    rfl
  | some i =>
    have hlt := areaIndexFor_lt hi
    have hrep := (h.holds i hlt).represents
    rw [run_ok (orThrow_ok rfl), store, hi, bind_some]
    cases hv : Holds.map (ts i) name with
    | none => rw [run_err (onArea_err (hrep.absent name hv)), put_same hlt]
    | some value =>
      obtain ⟨info, hfind, hval⟩ := hrep.present name value hv
      rw [run_ok (onArea_ok hfind), put_same hlt, run_ok (onArea_ok hval), put_same hlt,
        lossy_of_valid (h.utf8 i hlt name value hv)]
      rfl

theorem contains_run {ε : Type} (h : Sound a ts) (name : Bytes) :
    (contains name : Prog Fault ε PropertyAreas Bool) a = .ok (a.store ts name).isSome a := by
  rw [contains, run_ok get_ok]
  cases hi : a.areaIndexFor name with
  | none =>
    rw [store, hi]
    rfl
  | some i =>
    have hlt := areaIndexFor_lt hi
    have hrep := (h.holds i hlt).represents
    rw [store, hi, bind_some]
    cases hv : Holds.map (ts i) name with
    | none =>
      have hfind := onArea_err (hrep.absent name hv)
      rw [put_same hlt] at hfind
      exact run_ok (attempt_err hfind)
    | some value =>
      obtain ⟨info, hfind, -⟩ := hrep.present name value hv
      have hfind := onArea_ok hfind
      rw [put_same hlt] at hfind
      exact run_ok (attempt_ok hfind)

variable {t : Tree}

/-- A property of one area is set: the others are as before. -/
theorem Sound.put (h : Sound a ts) (hi : a.areaIndexFor name = some i) (ht : Holds m t)
    (hmap : Holds.map t = Function.update (Holds.map (ts i)) name (some value) ∨
      Holds.map t = Holds.map (ts i)) (hv : valid value = true) :
    Sound (a.put i m) (Function.update ts i t) := by
  have hlt := areaIndexFor_lt hi
  have hlen : (a.put i m).areas.length = a.areas.length := length_set
  have hval : ∀ n w, Holds.map t n = some w → n = name ∧ w = value ∨ Holds.map (ts i) n = some w := by
    intro n w hw
    rcases hmap with hm | hm
    · rw [hm, update_apply] at hw
      split_ifs at hw with hn
      · cases hw
        exact .inl ⟨hn, rfl⟩
      · exact .inr hw
    · exact .inr (hm ▸ hw)
  refine ⟨fun j hj => ?_, fun j hj n hn => ?_, fun j hj n w hw => ?_⟩
  · rw [area_put hlt, update_apply]
    split_ifs
    · exact ht
    · exact h.holds j (hlen ▸ hj)
  · rw [areaIndexFor_put]
    rw [update_apply] at hn
    split_ifs at hn with hji
    · obtain ⟨w, hw⟩ := ne_none_iff_exists'.1 hn
      rw [hji]
      rcases hval n w hw with ⟨rfl, -⟩ | hold
      · exact hi
      · exact h.home i hlt n (by rw [hold]; nofun)
    · exact h.home j (hlen ▸ hj) n hn
  · rw [update_apply] at hw
    split_ifs at hw with hji
    · rcases hval n w hw with ⟨-, rfl⟩ | hold
      · exact hv
      · exact h.utf8 i hlt n w hold
    · exact h.utf8 j (hlen ▸ hj) n w hw

theorem store_put (hi : a.areaIndexFor name = some i)
    (hmap : Holds.map t = Function.update (Holds.map (ts i)) name (some value)) :
    (a.put i m).store (Function.update ts i t) = Function.update (a.store ts) name (some value) := by
  funext n
  rw [store, areaIndexFor_put, update_apply]
  by_cases hn : n = name
  · subst hn
    rw [if_pos rfl, hi, bind_some, update_self, hmap, update_self]
  rw [if_neg hn, store]
  cases hj : a.areaIndexFor n with
  | none => rfl
  | some j =>
    rw [bind_some, bind_some, update_apply]
    split_ifs with hji
    · rw [hmap, update_of_ne hn, hji]
    · rfl

theorem store_put_same (hmap : Holds.map t = Holds.map (ts i)) :
    (a.put i m).store (Function.update ts i t) = a.store ts := by
  funext n
  rw [store, areaIndexFor_put, store]
  cases hj : a.areaIndexFor n with
  | none => rfl
  | some j =>
    rw [bind_some, bind_some, update_apply]
    split_ifs with hji
    · rw [hmap, hji]
    · rfl

/-! ### Adding and updating -/

/-- A value was stored: the map has it, and the global serial counts it. -/
structure Stored (a : PropertyAreas) (ts : ℕ → Tree) (name value : Bytes) (a' : PropertyAreas)
    (ts' : ℕ → Tree) : Prop where
  sound : Sound a' ts'
  store : a'.store ts' = Function.update (a.store ts) name (some value)
  serial : a'.areaSerial = (a.areaSerial + 1) % 2 ^ 32

/-- Nothing was stored. -/
structure Unstored (a : PropertyAreas) (ts : ℕ → Tree) (a' : PropertyAreas) (ts' : ℕ → Tree) :
    Prop where
  sound : Sound a' ts'
  store : a'.store ts' = a.store ts
  serial : a'.areaSerial = a.areaSerial

theorem Unstored.refl (h : Sound a ts) : Unstored a ts a ts := ⟨h, rfl, rfl⟩

/-- The areas with the global serial bumped. -/
def bumped (a : PropertyAreas) : PropertyAreas :=
  { a with serial := a.serial.store 4 (a.serial.serial + 1) }

theorem bump_ok {ε : Type} : (bumpGlobalSerial : Prog Fault ε PropertyAreas Unit) a = .ok () a.bumped :=
  rfl

theorem Stored.bumped (h : Sound a' ts')
    (hs : a'.store ts' = Function.update (a.store ts) name (some value))
    (hserial : a'.serial = a.serial) : Stored a ts name value a'.bumped ts' := by
  refine ⟨⟨h.holds, h.home, h.utf8⟩, hs, ?_⟩
  rw [areaSerial, PropertyAreas.bumped, Memory.serial, word_store, hserial]
  rfl

/-- An add of a property that there is not. -/
theorem add_run (h : Sound a ts) (hf : Fit name value) (hv : valid value = true)
    (hnone : a.store ts name = none) :
    (∃ a' ts', add name value a = .ok () a' ∧ Stored a ts name value a' ts') ∨
      ∃ e a' ts', add name value a = .err e a' ∧ Unstored a ts a' ts' := by
  have hne : name ≠ [] := by
    rintro rfl
    cases hf.legal
  have hshort : ¬ (value.length ≥ PROP_VALUE_MAX ∧ ¬ RO_PREFIX.isPrefixOf name) := by
    rintro ⟨hl, hro⟩
    rcases hf.short with hs | hs
    · omega
    · exact hro hs
  rw [add, if_neg hne, if_neg hshort, run_ok get_ok]
  cases hi : a.areaIndexFor name with
  | none => exact .inr ⟨_, a, ts, run_err (orThrow_err rfl), .refl h⟩
  | some i =>
    have hlt := areaIndexFor_lt hi
    rw [store, hi, bind_some] at hnone
    rw [run_ok (orThrow_ok rfl)]
    obtain ⟨m', t', h', -, -, ⟨j, -, rfl, hrun, hfind, -⟩ | ⟨hrun, hfind, -⟩⟩ :=
      (h.holds i hlt).add_none hf (map_eq_none_iff.1 hnone)
    · left
      have hmap := Holds.map_eq hfind
      refine ⟨_, _, ?_, .bumped (h.put hi h' (.inl hmap) hv) (store_put hi hmap) rfl⟩
      rw [run_ok (mapErr_ok (onArea_ok hrun))]
      rfl
    · right
      have hmap := Holds.map_congr hfind
      refine ⟨.areaFull (a.contexts.getD i []), _, _, ?_, h.put hi h' (.inr hmap) hv,
        store_put_same hmap, rfl⟩
      rw [run_ok (mapErr_ok (onArea_ok hrun))]
      rfl

/-- An update of a property that there is. -/
theorem update_run (h : Sound a ts) (hf : Fit name value) (hro : ¬ IsRo name)
    (hv : valid value = true) (hsome : a.store ts name ≠ none) :
    ∃ a' ts', update name value a = .ok () a' ∧ Stored a ts name value a' ts' := by
  have hshort := hf.short.resolve_right hro
  rw [update, if_neg (Nat.not_le_of_lt hshort), run_ok get_ok]
  cases hi : a.areaIndexFor name with
  | none =>
    rw [store, hi] at hsome
    exact absurd rfl hsome
  | some i =>
    have hlt := areaIndexFor_lt hi
    rw [store, hi, bind_some] at hsome
    obtain ⟨w, hw⟩ := ne_none_iff_exists'.1 hsome
    obtain ⟨j, hj, -⟩ := map_eq_some_iff.1 hw
    have hfind : find name (a.area i) = .ok j.off (a.area i) := (h.holds i hlt).findProperty_some hj
    have hfind := onArea_ok hfind
    rw [put_same hlt] at hfind
    obtain ⟨m', t', hrun, h', -, -, hset⟩ := (h.holds i hlt).update_run hj hro hf.nulFree hshort
    have hmap := Holds.map_eq hset
    refine ⟨_, _, ?_, .bumped (h.put hi h' (.inl hmap) hv) (store_put hi hmap) rfl⟩
    rw [run_ok (orThrow_ok rfl), run_ok (mapErr_ok hfind), run_ok (mapErr_ok (onArea_ok hrun)),
      bump_ok]

end PropertyAreas

/-! ### Calls that set a property -/

inductive SetCall where
  | handleSet (name value source : Bytes) (cred : Ucred) (fromSocket : Bool)
  | initSet (name value : Bytes)
  | builtinSet (name value : Bytes)
  | setNoSocket (name value : Bytes)

/-- A call, and what is set on the service when it is made. -/
structure Request where
  fields : Fields
  call : SetCall

namespace Request

def name (r : Request) : Bytes :=
  match r.call with
  | .handleSet name _ _ _ _ => name
  | .initSet name _ => name
  | .builtinSet name _ => name
  | .setNoSocket name _ => name

def value (r : Request) : Bytes :=
  match r.call with
  | .handleSet _ value _ _ _ => value
  | .initSet _ value => value
  | .builtinSet _ value => value
  | .setNoSocket _ value => value

def run (r : Request) : PropertyService.Set :=
  match r.call with
  | .handleSet name value source cred fromSocket =>
    PropertyService.handleSet r.fields name value source cred fromSocket
  | .initSet name value => PropertyService.initSet r.fields name value
  | .builtinSet name value => PropertyService.builtinSet r.fields name value
  | .setNoSocket name value => PropertyService.setNoSocket r.fields name value

/-- A value with no zero byte, synchronous persist writes, and messages are accepted. -/
structure Plain (r : Request) : Prop where
  nulFree : ∀ c ∈ r.value, c ≠ 0
  sync : r.fields.asyncPersistWrites = false
  accepts : r.fields.acceptMessages = true

end Request

def serve : List Request → Prog Fault Unit PropertyAreas (List SetOutcome)
  | [] => Pure.pure []
  | r :: rs => do
    let o ← r.run
    let os ← serve rs
    return o :: os

/-- A name that is stored by every set of it. -/
def Ordinary (name : Bytes) : Prop :=
  CTL_PREFIX.isPrefixOf name = false ∧ name ≠ POWERCTL ∧ name ≠ RESTORECON_PROPERTY

def SetEffect.isChanged : SetEffect → Bool
  | changed _ _ => true
  | _ => false

/-- The outcome of a set that was stored. -/
def SetOutcome.stores (o : SetOutcome) (name : Bytes) : Bool :=
  name != POWERCTL && o.effects.any (·.isChanged)

/-- What a call may do to the map and to the global serial. -/
structure Obeys (name value : Bytes) (o : SetOutcome) (S S' : Map) (serial serial' : ℕ) : Prop where
  /-- A call that is answered with an error code changes nothing. -/
  failed : ∀ code, o.reply = some code → code ≠ PROP_SUCCESS → S' = S ∧ o.effects = []
  succeeded : o.reply = some PROP_SUCCESS → Ordinary name →
    S' = Function.update S name (some value) ∧
      o.effects.filter (·.isChanged) = [.changed name value]
  /-- Success is not reported when an update was refused. -/
  refused : o.reply = some PROP_SUCCESS → o.error = none
  readOnly : ∀ n v, IsRo n → S n = some v → S' n = some v
  others : ∀ n, n ≠ name → S' n = S n
  stored : o.stores name = true → S' = Function.update S name (some value)
  unstored : o.stores name = false → S' = S
  serial : serial' = if o.stores name then (serial + 1) % 2 ^ 32 else serial

namespace Obeys

variable {name value : Bytes} {o : SetOutcome} {S : Map} {serial code : ℕ} {e : SetError}

theorem failure (hcode : code ≠ PROP_SUCCESS) :
    Obeys name value (.failure code e) S S serial serial := by
  have hst : (SetOutcome.failure code e).stores name = false := Bool.and_false _
  refine ⟨fun _ _ _ => ⟨rfl, rfl⟩, ?_, ?_, fun _ _ _ h => h, fun _ _ => rfl,
    fun h => Bool.noConfusion (hst.symm.trans h), fun _ => rfl, ?_⟩
  · intro h
    exact absurd (Option.some.inj h) hcode
  · intro h
    exact absurd (Option.some.inj h) hcode
  · rw [hst]
    rfl

/-- A call that succeeds or is answered later, and stores nothing. -/
theorem unchanged (hreply : o.reply = none ∨ o.reply = some PROP_SUCCESS) (herr : o.error = none)
    (hname : ¬ Ordinary name) (hst : o.stores name = false) :
    Obeys name value o S S serial serial := by
  refine ⟨?_, fun _ h => absurd h hname, fun _ => herr, fun _ _ _ h => h, fun _ _ => rfl,
    fun h => Bool.noConfusion (hst.symm.trans h), fun _ => rfl, ?_⟩
  · intro code hc hne
    rcases hreply with hr | hr
    · rw [hr] at hc
      cases hc
    · rw [hr] at hc
      exact absurd (Option.some.inj hc).symm hne
  · rw [hst]
    rfl

/-- A value that was stored; read-only properties are stored once. -/
theorem update {persist : List SetEffect} (hp : name ≠ POWERCTL)
    (hpersist : ∀ e ∈ persist, e.isChanged = false) (hro : IsRo name → S name = none) :
    Obeys name value ⟨some PROP_SUCCESS, none, persist ++ [.changed name value]⟩ S
      (Function.update S name (some value)) serial ((serial + 1) % 2 ^ 32) := by
  have hst : SetOutcome.stores
      ⟨some PROP_SUCCESS, none, persist ++ [.changed name value]⟩ name = true := by
    rw [SetOutcome.stores, any_append, bne_iff_ne.2 hp, Bool.true_and]
    exact Bool.or_true _
  refine ⟨?_, fun _ _ => ⟨rfl, ?_⟩, fun _ => rfl, ?_, fun n hn => update_of_ne hn _ _,
    fun _ => rfl, fun h => Bool.noConfusion (hst.symm.trans h), ?_⟩
  · intro code hc hne
    exact absurd (Option.some.inj hc).symm hne
  · rw [filter_append, filter_eq_nil_iff.2]
    · rfl
    · intro e he
      rw [hpersist e he]
      nofun
  · intro n v hn hv
    rw [update_of_ne, hv]
    rintro rfl
    rw [hro hn] at hv
    cases hv
  · rw [hst]
    rfl

end Obeys

namespace PropertyService

variable {a : PropertyAreas} {ts : ℕ → Tree} {fields : Fields} {name value : Bytes} {fromSocket : Bool}

theorem isLegalPropertyValue_ok (hn : ∀ c ∈ value, c ≠ 0)
    (h : isLegalPropertyValue name value = .ok ()) :
    (value.length < PROP_VALUE_MAX ∨ IsRo name) ∧ valid value = true := by
  have huntil : untilNul value = value := takeWhile_eq_self_iff.2 (by simpa using hn)
  unfold isLegalPropertyValue at h
  split_ifs at h with hlen hutf
  rw [huntil] at hutf
  refine ⟨?_, hutf⟩
  by_cases hs : value.length < PROP_VALUE_MAX
  · exact .inl hs
  · exact .inr (not_not.1 fun hro => hlen ⟨Nat.le_of_not_lt hs, hro⟩)

/-- How a set ends: it fails, or it leaves what is to be done. -/
theorem propertySet_run (fields : Fields) (name : Bytes) (fromSocket : Bool) (h : a.Sound ts)
    (hn : ∀ c ∈ value, c ≠ 0) :
    ∃ o a' ts', propertySet fields name value fromSocket a = .ok o a' ∧
      ((∃ code e, o = .failure code e ∧ code ≠ PROP_SUCCESS ∧ a.Unstored ts a' ts') ∨
      (o = finishSet fields name value fromSocket none ∧ valid value = true ∧
        (name = POWERCTL ∧ a.Unstored ts a' ts' ∨
        name ≠ POWERCTL ∧ (IsRo name → a.store ts name = none) ∧ a.Stored ts name value a' ts'))) := by
  unfold propertySet
  cases hlegal : isLegalPropertyName name with
  | false => exact ⟨_, a, ts, rfl, .inl ⟨_, _, rfl, by decide, .refl h⟩⟩
  | true =>
    cases hvalue : isLegalPropertyValue name value with
    | error e => exact ⟨_, a, ts, rfl, .inl ⟨_, _, rfl, by decide, .refl h⟩⟩
    | ok u =>
      obtain ⟨hshort, hutf⟩ := isLegalPropertyValue_ok hn hvalue
      have hf : Fit name value := ⟨hlegal, hn, hshort⟩
      by_cases hp : name = POWERCTL
      · refine ⟨_, a, ts, ?_, .inr ⟨rfl, hutf, .inl ⟨hp, .refl h⟩⟩⟩
        simp only [Bool.not_true, Bool.false_eq_true, if_false, if_pos hp]
        rfl
      simp only [Bool.not_true, Bool.false_eq_true, if_false, if_neg hp]
      have hc : (PropertyAreas.contains name : Prog Fault Unit _ Bool) a = _ :=
        PropertyAreas.contains_run h name
      cases hsome : a.store ts name with
      | some w =>
        rw [hsome] at hc
        by_cases hro : RO_PREFIX.isPrefixOf name
        · refine ⟨_, a, ts, ?_, .inl ⟨PROP_ERROR_READ_ONLY_PROPERTY,
            .text (.ofAscii "Read-only property was already set"), rfl, by decide, .refl h⟩⟩
          rw [run_ok hc, if_pos isSome_some, if_pos hro]
          rfl
        · obtain ⟨a', ts', hrun, hst⟩ :=
            PropertyAreas.update_run h hf hro hutf (by rw [hsome]; nofun)
          refine ⟨_, a', ts', ?_, .inr ⟨rfl, hutf, .inr ⟨hp, fun hr => absurd hr hro, hst⟩⟩⟩
          rw [run_ok hc, if_pos isSome_some, if_neg hro]
          exact run_ok (attempt_ok hrun)
      | none =>
        rw [hsome] at hc
        rcases PropertyAreas.add_run h hf hutf hsome with
          ⟨a', ts', hrun, hst⟩ | ⟨e, a', ts', hrun, hst⟩
        · exact ⟨_, a', ts', (run_ok hc).trans (run_ok (attempt_ok hrun)),
            .inr ⟨rfl, hutf, .inr ⟨hp, fun _ => rfl, hst⟩⟩⟩
        · exact ⟨_, a', ts', (run_ok hc).trans (run_ok (attempt_err hrun)),
            .inl ⟨_, _, rfl, by decide, hst⟩⟩

/-- What is left to do after a set with synchronous writes. -/
theorem finishSet_eq (name : Bytes) (fromSocket : Bool) (hsync : fields.asyncPersistWrites = false)
    (hacc : fields.acceptMessages = true)
    (hv : valid value = true) :
    ∃ persist : List SetEffect, (∀ e ∈ persist, e.isChanged = false) ∧
      finishSet fields name value fromSocket none =
        ⟨some PROP_SUCCESS, none, persist ++ [.changed name value]⟩ := by
  unfold finishSet
  simp only [hsync, hacc, lossy_of_valid hv, Bool.and_false, Bool.false_eq_true, if_false, if_true]
  refine ⟨_, ?_, rfl⟩
  intro e he
  split_ifs at he
  · rw [mem_singleton.1 he]
    rfl
  · cases he

theorem propertySet_obeys (name : Bytes) (fromSocket : Bool) (h : a.Sound ts) (hn : ∀ c ∈ value, c ≠ 0)
    (hsync : fields.asyncPersistWrites = false) (hacc : fields.acceptMessages = true) :
    ∃ o a' ts', propertySet fields name value fromSocket a = .ok o a' ∧ a'.Sound ts' ∧
      Obeys name value o (a.store ts) (a'.store ts') a.areaSerial a'.areaSerial := by
  obtain ⟨o, a', ts', hrun, hend⟩ := propertySet_run fields name fromSocket h hn
  refine ⟨o, a', ts', hrun, ?_⟩
  rcases hend with ⟨code, e, rfl, hcode, hun⟩ | ⟨ho, hv, hend⟩
  · refine ⟨hun.sound, ?_⟩
    rw [hun.store, hun.serial]
    exact .failure hcode
  obtain ⟨persist, hpersist, hfin⟩ := finishSet_eq name fromSocket hsync hacc hv
  rw [ho, hfin]
  rcases hend with ⟨hp, hun⟩ | ⟨hp, hro, hst⟩
  · refine ⟨hun.sound, ?_⟩
    rw [hun.store, hun.serial]
    refine .unchanged (.inr rfl) rfl (fun hord => hord.2.1 hp) ?_
    rw [SetOutcome.stores, hp, bne_self_eq_false, Bool.false_and]
  · refine ⟨hst.sound, ?_⟩
    rw [hst.store, hst.serial]
    exact .update hp hpersist hro

theorem checkPermissions_code {info : Memory} {source : Bytes} {cred : Ucred} {code : ℕ} {e : Bytes}
    (h : checkPermissions fields info name value source cred = .error (code, e)) :
    code ≠ PROP_SUCCESS := by
  unfold checkPermissions at h
  dsimp only at h
  split_ifs at h <;> cases h <;> decide

/-- What a call is answered that stores nothing. -/
inductive Idle (fields : Fields) (name value : Bytes) : SetOutcome → Prop
  | failure {code : ℕ} (e : SetError) : code ≠ PROP_SUCCESS → Idle fields name value (.failure code e)
  | control (action : Bytes) (cred : Ucred) (fromSocket : Bool) : CTL_PREFIX.isPrefixOf name = true →
      Idle fields name value (sendControlMessage fields action (Utf8.lossy value) cred fromSocket)
  | restorecon : name = RESTORECON_PROPERTY →
      Idle fields name value ⟨some PROP_SUCCESS, none, [.restorecon (Utf8.lossy value)]⟩

theorem Idle.obeys {o : SetOutcome} {S : Map} {serial : ℕ} (h : Idle fields name value o)
    (hacc : fields.acceptMessages = true) : Obeys name value o S S serial serial := by
  cases h with
  | failure e hcode => exact .failure hcode
  | control action cred fromSocket hctl =>
    unfold sendControlMessage
    rw [hacc]
    refine .unchanged ?_ rfl (fun hord => Bool.noConfusion (hctl.symm.trans hord.1))
      (Bool.and_false _)
    change (if _ then none else _) = none ∨ (if _ then none else _) = some PROP_SUCCESS
    split_ifs
    · exact .inl rfl
    · exact .inr rfl
  | restorecon hname =>
    exact .unchanged (.inr rfl) rfl (fun hord => hord.2.2 hname) (Bool.and_false _)

theorem handleSet_cases (fields : Fields) (name value source : Bytes) (cred : Ucred)
    (fromSocket : Bool) (a : PropertyAreas) :
    (∃ o, handleSet fields name value source cred fromSocket a = .ok o a ∧ Idle fields name value o) ∨
      handleSet fields name value source cred fromSocket a =
        propertySet fields name value fromSocket a := by
  rw [handleSet, run_ok get_ok]
  rcases hperm : checkPermissions fields a.info name (lossy value) source cred with ⟨code, e⟩ | u
  · exact .inl ⟨_, rfl, .failure _ (checkPermissions_code hperm)⟩
  by_cases hctl : CTL_PREFIX.isPrefixOf name
  · refine .inl ⟨_, ?_, .control (name.drop CTL_PREFIX.length) cred fromSocket hctl⟩
    simp only [if_pos hctl]
    rfl
  by_cases hpow : name = POWERCTL ∧ lossy value = .ofAscii "reboot,userspace"
  · refine .inl ⟨.failure PROP_ERROR_INVALID_VALUE
      (.text (.ofAscii "Userspace reboot is deprecated.")), ?_, .failure _ (by decide)⟩
    simp only [if_neg hctl, if_pos hpow]
    rfl
  by_cases hcon : name = RESTORECON_PROPERTY ∧ cred.pid ≠ 1 ∧ value ≠ []
  · refine .inl ⟨_, ?_, .restorecon hcon.1⟩
    simp only [if_neg hctl, if_neg hpow, if_pos hcon]
    rfl
  · right
    simp only [if_neg hctl, if_neg hpow, if_neg hcon]

end PropertyService

/-! ### Runs -/

open PropertyAreas (Sound)

/-- A call stores nothing, or it is a set. -/
theorem Request.run_cases (r : Request) (a : PropertyAreas) :
    (∃ o, r.run a = .ok o a ∧ PropertyService.Idle r.fields r.name r.value o) ∨
      ∃ fromSocket, r.run a = PropertyService.propertySet r.fields r.name r.value fromSocket a := by
  obtain ⟨fields, call⟩ := r
  cases call with
  | handleSet name value source cred fromSocket =>
    exact (PropertyService.handleSet_cases fields name value source cred fromSocket a).imp_right
      (⟨fromSocket, ·⟩)
  | initSet name value =>
    exact (PropertyService.handleSet_cases fields name value INIT_CONTEXT .INIT false a).imp_right
      (⟨false, ·⟩)
  | builtinSet name value =>
    exact (PropertyService.handleSet_cases fields name value INIT_CONTEXT .INIT true a).imp_right
      (⟨true, ·⟩)
  | setNoSocket name value => exact .inr ⟨false, rfl⟩

variable {a : PropertyAreas} {ts : ℕ → Tree} {r : Request}

theorem Request.run_obeys (h : a.Sound ts) (hr : r.Plain) :
    ∃ o a' ts', r.run a = .ok o a' ∧ a'.Sound ts' ∧
      Obeys r.name r.value o (a.store ts) (a'.store ts') a.areaSerial a'.areaSerial := by
  obtain ⟨hn, hsync, hacc⟩ := hr
  rcases r.run_cases a with ⟨o, hrun, hidle⟩ | ⟨fromSocket, hrun⟩
  · exact ⟨o, a, ts, hrun, h, hidle.obeys hacc⟩
  · rw [hrun]
    exact PropertyService.propertySet_obeys _ _ h hn hsync hacc

/-- Whatever is set on the service, a call keeps the read-only properties. -/
theorem Request.run_sound (h : a.Sound ts) (hn : ∀ c ∈ r.value, c ≠ 0) :
    ∃ o a' ts', r.run a = .ok o a' ∧ a'.Sound ts' ∧
      ∀ n v, IsRo n → a.store ts n = some v → a'.store ts' n = some v := by
  rcases r.run_cases a with ⟨o, hrun, -⟩ | ⟨fromSocket, hrun⟩
  · exact ⟨o, a, ts, hrun, h, fun _ _ _ hv => hv⟩
  obtain ⟨o, a', ts', hset, hend⟩ := PropertyService.propertySet_run r.fields r.name fromSocket h hn
  refine ⟨o, a', ts', hrun.trans hset, ?_⟩
  rcases hend with ⟨-, -, -, -, hun⟩ | ⟨-, -, ⟨-, hun⟩ | ⟨-, hro, hst⟩⟩
  · exact ⟨hun.sound, fun n v _ hv => hun.store ▸ hv⟩
  · exact ⟨hun.sound, fun n v _ hv => hun.store ▸ hv⟩
  refine ⟨hst.sound, fun n v hn hv => ?_⟩
  rw [hst.store, update_of_ne, hv]
  rintro rfl
  rw [hro hn] at hv
  cases hv

theorem serve_sound {rs : List Request} (h : a.Sound ts) (hrs : ∀ r ∈ rs, ∀ c ∈ r.value, c ≠ 0) :
    ∃ os a' ts', serve rs a = .ok os a' ∧ a'.Sound ts' ∧
      ∀ n v, IsRo n → a.store ts n = some v → a'.store ts' n = some v := by
  induction rs generalizing a ts with
  | nil => exact ⟨[], a, ts, rfl, h, fun _ _ _ hv => hv⟩
  | cons r rs ih =>
    obtain ⟨o, a₁, ts₁, hrun, h₁, hro₁⟩ := Request.run_sound h (hrs r (.head _))
    obtain ⟨os, a₂, ts₂, hserve, h₂, hro₂⟩ := ih h₁ fun q hq => hrs q (.tail r hq)
    refine ⟨o :: os, a₂, ts₂, ?_, h₂, fun n v hn hv => hro₂ n v hn (hro₁ n v hn hv)⟩
    rw [serve, run_ok hrun, run_ok hserve]
    rfl

/-- What `get` returns for every name. -/
def PropertyAreas.Shows (a : PropertyAreas) (S : Map) : Prop :=
  ∀ name, PropertyAreas.get name a = match S name with
    | some value => .ok value a
    | none => .err () a

theorem exists_of_mem_mapM {α β : Type} {f : α → Option β} {l : List α} {l' : List β}
    (h : l.mapM f = some l') {y : β} (hy : y ∈ l') : ∃ x ∈ l, f x = some y := by
  induction l generalizing l' with
  | nil =>
    cases h
    cases hy
  | cons x l ih =>
    rw [mapM_cons] at h
    obtain ⟨z, hz, l₁, hl, rfl⟩ := by
      simpa only [Option.bind_eq_bind, Option.bind_eq_some_iff, Option.pure_def, Option.some_inj]
        using h
    rcases mem_cons.1 hy with rfl | hy
    · exact ⟨x, .head _, hz⟩
    · obtain ⟨x', hx', hf⟩ := ih hl hy
      exact ⟨x', mem_cons_of_mem x hx', hf⟩

/-- The areas of a new service have no properties. -/
theorem PropertyAreas.withMemory_sound {info : Memory} {size : Bytes → ℕ}
    (hmade : PropertyAreas.withMemory info size = some a)
    (hsize : ∀ context, size context < 2 ^ 32 + PROP_AREA_HEADER_SIZE) :
    a.Sound fun _ => .node 0 [] none .nil .nil .nil := by
  unfold PropertyAreas.withMemory at hmade
  split_ifs at hmade
  obtain ⟨areas, hareas, serial, hserial, rfl⟩ := by
    simpa only [Option.bind_eq_bind, Option.bind_eq_some_iff, Option.pure_def, Option.some_inj]
      using hmade
  refine ⟨fun i hi => ?_, fun i _ name hn => ?_, fun i _ name value hv => ?_⟩
  · change i < areas.length at hi
    have hmem : areas.getD i (.zero 0) ∈ areas := by
      rw [getD_eq_getElem _ _ hi]
      exact getElem_mem hi
    obtain ⟨context, -, hc⟩ := exists_of_mem_mapM hareas hmem
    exact create_holds hc (hsize context)
  · exact absurd (by rw [Holds.map_empty]) hn
  · rw [Holds.map_empty] at hv
    cases hv

/-- **The law of the property store.**  Every call of every run on the areas of a new service is
answered and obeys, and what a read-only property has before the call it has after the run. -/
theorem property_store_law {info : Memory} {size : Bytes → ℕ} {a : PropertyAreas}
    (hmade : PropertyAreas.withMemory info size = some a)
    (hsize : ∀ context, size context < 2 ^ 32 + PROP_AREA_HEADER_SIZE)
    {before after : List Request} {r : Request} (hplain : ∀ q ∈ before ++ r :: after, q.Plain) :
    ∃ os a₁ S₁ o a₂ S₂ os' a₃ S₃,
      serve before a = .ok os a₁ ∧ a₁.Shows S₁ ∧
      r.run a₁ = .ok o a₂ ∧ a₂.Shows S₂ ∧ Obeys r.name r.value o S₁ S₂ a₁.areaSerial a₂.areaSerial ∧
      serve after a₂ = .ok os' a₃ ∧ a₃.Shows S₃ ∧
      ∀ name value, IsRo name → S₁ name = some value → S₃ name = some value := by
  obtain ⟨os, a₁, ts₁, hrun₁, h₁, -⟩ := serve_sound (PropertyAreas.withMemory_sound hmade hsize)
    fun q hq => (hplain q (mem_append_left _ hq)).nulFree
  obtain ⟨o, a₂, ts₂, hrun₂, h₂, hob⟩ := Request.run_obeys h₁
    (hplain r (mem_append_right _ (.head _)))
  obtain ⟨os', a₃, ts₃, hrun₃, h₃, hro⟩ := serve_sound h₂
    fun q hq => (hplain q (mem_append_right _ (.tail r hq))).nulFree
  exact ⟨os, a₁, _, o, a₂, _, os', a₃, _, hrun₁, PropertyAreas.get_run h₁, hrun₂,
    PropertyAreas.get_run h₂, hob, hrun₃, PropertyAreas.get_run h₃,
    fun n v hn hv => hro n v hn (hob.readOnly n v hn hv)⟩

/-- A serialized trie of one context, `string`, which is the type of its properties too. -/
def oneContext : Memory where
  len := 84
  byte i := ([1, 0, 0, 0, 1, 0, 0, 0, 84, 0, 0, 0, 24, 0, 0, 0, 24, 0, 0, 0, 40, 0, 0, 0,
    1, 0, 0, 0, 32, 0, 0, 0, 115, 116, 114, 105, 110, 103, 0, 0,
    68, 0, 0, 0, 0, 0, 0, 0, 0, 0, 0, 0, 0, 0, 0, 0, 0, 0, 0, 0, 0, 0, 0, 0, 0, 0, 0, 0,
    32, 0, 0, 0, 6, 0, 0, 0, 0, 0, 0, 0, 0, 0, 0, 0] : Bytes).getD i 0

/-- Every context may set every property. -/
def permissive : Fields where
  canSet _ _ _ _ := true
  parseDouble _ := false
  persistentPropertiesLoaded := true
  asyncPersistWrites := false
  acceptMessages := true
  deferredControlReplies := false

def setBy (pid : ℤ) (name value : String) : Request :=
  ⟨permissive, .handleSet (.ofAscii name) (.ofAscii value) (.ofAscii "u:r:shell:s0") ⟨pid, 0, 0⟩ true⟩

/-- A read-only property is stored, the next set of it is refused, and it keeps its value. -/
theorem property_store_law_of_three :
    ∃ a, PropertyAreas.withMemory oneContext (fun _ => 1024) = some a ∧
      ∃ os a₁ S₁ o a₂ S₂ os' a₃ S₃,
        serve [setBy 7 "ro.b" "1"] a = .ok os a₁ ∧ a₁.Shows S₁ ∧
        S₁ (.ofAscii "ro.b") = some (.ofAscii "1") ∧
        (setBy 8 "ro.b" "2").run a₁ = .ok o a₂ ∧ o.reply = some PROP_ERROR_READ_ONLY_PROPERTY ∧
        a₂.Shows S₂ ∧ Obeys (.ofAscii "ro.b") (.ofAscii "2") o S₁ S₂ a₁.areaSerial a₂.areaSerial ∧
        serve [setBy 9 "a.b" "x"] a₂ = .ok os' a₃ ∧ a₃.Shows S₃ ∧
        S₃ (.ofAscii "ro.b") = some (.ofAscii "1") := by
  -- what is read between the two sets, and the answer to the second
  have hseen : (PropertyAreas.withMemory oneContext fun _ => 1024).map (fun a =>
      ((serve [setBy 7 "ro.b" "1"] >>= fun _ => PropertyAreas.get (.ofAscii "ro.b") >>= fun value =>
        (setBy 8 "ro.b" "2").run >>= fun o => Pure.pure (value, o.reply)) a).casesOn
          (motive := fun _ => Option (Bytes × Option ℕ)) (fun seen _ => some seen)
          (fun _ _ => none) fun _ _ => none) =
      some (some (.ofAscii "1", some PROP_ERROR_READ_ONLY_PROPERTY)) := by decide +kernel
  obtain ⟨a, ha, hseen⟩ := map_eq_some_iff.1 hseen
  have hplain : ∀ q ∈ [setBy 7 "ro.b" "1"] ++ setBy 8 "ro.b" "2" :: [setBy 9 "a.b" "x"],
      q.Plain := by
    simp only [cons_append, nil_append, forall_mem_cons]
    exact ⟨⟨by decide +kernel, rfl, rfl⟩, ⟨by decide +kernel, rfl, rfl⟩,
      ⟨by decide +kernel, rfl, rfl⟩, nofun⟩
  obtain ⟨os, a₁, S₁, o, a₂, S₂, os', a₃, S₃, hserve, hshows, hrun, hshows₂, hob, hserve', hshows₃,
    hkeep⟩ := property_store_law ha (fun _ => by decide) hplain
  have hget := hshows (.ofAscii "ro.b")
  rw [run_ok hserve] at hseen
  cases hS : S₁ (.ofAscii "ro.b") with
  | none =>
    rw [hS] at hget
    rw [run_err hget] at hseen
    cases hseen
  | some value =>
    rw [hS] at hget
    rw [run_ok hget, run_ok hrun] at hseen
    obtain ⟨rfl, hreply⟩ := Prod.mk.inj (Option.some.inj hseen)
    exact ⟨a, ha, os, a₁, S₁, o, a₂, S₂, os', a₃, S₃, hserve, hshows, hS, hrun, hreply, hshows₂, hob,
      hserve', hshows₃, hkeep _ _ (by simp only [IsRo]; decide) hS⟩

end Aim.Props
