import Aim.Props.Store

/-!
# Props — What the guest reads

init reads a property through the area that it writes, the guest by a reader of its own over the
bytes of the area.  They agree as long as no value has a zero byte (`guest_reads_the_same`): init
takes the length of a value from the serial, the guest reads up to the first zero byte, and an update
copies up to a zero byte and stores the whole length (`guest_reads_less`).
-/

namespace Aim.Props

open Prog (run_ok)

namespace PropertyAreas

variable {a : PropertyAreas} {ts : ℕ → Tree}

/-- init and the guest read the same value of a name, or none. -/
def Agrees (a : PropertyAreas) (name : Bytes) : Prop :=
  match a.areaIndexFor name with
  | none => get name a = .err () a
  | some i =>
    (∃ p, get name a = .ok p.value a ∧ Reader.get name (a.area i) = .ok p (a.area i)) ∨
      get name a = .err () a ∧ Reader.get name (a.area i) = .err () (a.area i)

theorem Sound.agrees (h : Sound a ts) (name : Bytes) : a.Agrees name := by
  have hget := get_run h name
  unfold Agrees
  rw [store] at hget
  cases hi : a.areaIndexFor name with
  | none =>
    rw [hi] at hget
    exact hget
  | some i =>
    have hlt := areaIndexFor_lt hi
    have hguest := (h.holds i hlt).get_run name
    rw [hi, Option.bind_some] at hget
    have hutf := h.utf8 i hlt name
    rw [Holds.map] at hget hutf
    cases hfind : (ts i).find cmp (segments name) with
    | none =>
      rw [hfind] at hget hguest
      exact .inr ⟨hget, hguest⟩
    | some info =>
      rw [hfind] at hget hguest hutf
      refine .inl ⟨Holds.reading info, ?_, hguest⟩
      rw [hget, Holds.reading, Utf8.lossy_of_valid (hutf info.value rfl)]
      rfl

end PropertyAreas

/-- **init and the guest read the same.**  After every run of calls whose values have no zero byte,
whatever is set on the service at each of them. -/
theorem guest_reads_the_same {info : Memory} {size : Bytes → ℕ} {a : PropertyAreas}
    (hmade : PropertyAreas.withMemory info size = some a)
    (hsize : ∀ context, size context < 2 ^ 32 + PROP_AREA_HEADER_SIZE) {rs : List Request}
    (hn : ∀ r ∈ rs, ∀ c ∈ r.value, c ≠ 0) :
    ∃ os a', serve rs a = .ok os a' ∧ ∀ name, a'.Agrees name := by
  obtain ⟨os, a', ts', hrun, h, -⟩ := serve_sound (PropertyAreas.withMemory_sound hmade hsize) hn
  exact ⟨os, a', hrun, h.agrees⟩

theorem guest_reads_the_same_of_two :
    ∃ a, PropertyAreas.withMemory oneContext (fun _ => 512) = some a ∧
      ∃ os a', serve [setBy 7 "a" "abc", setBy 7 "a" "x"] a = .ok os a' ∧ ∀ name, a'.Agrees name := by
  obtain ⟨a, ha⟩ := Option.isSome_iff_exists.1
    (by decide +kernel : (PropertyAreas.withMemory oneContext fun _ => 512).isSome = true)
  exact ⟨a, ha, guest_reads_the_same ha (fun _ => by decide) (by decide +kernel)⟩

/-- What init and the guest read of a name after a run. -/
def readings (a : PropertyAreas) (rs : List Request) (name : Bytes) : Option (Bytes × Bytes) :=
  match serve rs a with
  | .ok _ a' =>
    match PropertyAreas.get name a', a'.areaIndexFor name with
    | .ok value _, some i =>
      match Reader.get name (a'.area i) with
      | .ok p _ => some (value, p.value)
      | _ => none
    | _, _ => none
  | _ => none

theorem not_agrees_of_readings {a : PropertyAreas} {rs : List Request} {name value value' : Bytes}
    (h : readings a rs name = some (value, value')) (hne : value ≠ value') :
    ∃ os a', serve rs a = .ok os a' ∧ ¬ a'.Agrees name := by
  unfold readings at h
  split at h
  next os a' hrun =>
    refine ⟨os, a', hrun, fun hagree => hne ?_⟩
    unfold PropertyAreas.Agrees at hagree
    split at h
    next w s i hget hi =>
      rw [hi] at hagree
      split at h
      next p s' hread =>
        cases h
        rcases hagree with ⟨q, hq, hq'⟩ | ⟨hq, -⟩
        · cases hq.symm.trans hget
          cases hq'.symm.trans hread
          rfl
        · cases hq.symm.trans hget
      · cases h
    · cases h
  · cases h

/-- A value with a zero byte replaces a longer one: init reads the end of the old value after it. -/
theorem guest_reads_less :
    ∃ a os a', PropertyAreas.withMemory oneContext (fun _ => 512) = some a ∧
      isLegalPropertyValue (.ofAscii "a") (.ofAscii "x\x00y") = .ok () ∧
      serve [setBy 7 "a" "abc", setBy 7 "a" "x\x00y"] a = .ok os a' ∧
      ¬ a'.Agrees (.ofAscii "a") ∧
      readings a [setBy 7 "a" "abc", setBy 7 "a" "x\x00y"] (.ofAscii "a") =
        some (.ofAscii "x\x00c", .ofAscii "x") := by
  have h : ((PropertyAreas.withMemory oneContext fun _ => 512).bind fun a =>
      readings a [setBy 7 "a" "abc", setBy 7 "a" "x\x00y"] (.ofAscii "a")) =
        some (.ofAscii "x\x00c", .ofAscii "x") := by decide +kernel
  obtain ⟨a, ha, hread⟩ := Option.bind_eq_some_iff.1 h
  obtain ⟨os, a', hrun, hnot⟩ := not_agrees_of_readings hread (by decide)
  exact ⟨a, os, a', ha, rfl, hrun, hnot, hread⟩

end Aim.Props
