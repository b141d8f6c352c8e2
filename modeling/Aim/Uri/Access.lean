import Aim.Support.History
import Aim.Uri.Entries

/-!
# Uri — what a grant holds, and since when

A grant holds a mode through an owner, through a grant with no owner, or as a persisted mode
(`Hold`).  `Op.gives` says which operation makes a grant hold a mode so, and `Op.ends` which one
takes that away; neither looks at what the grant's flags become.

* `held_since`: what a grant holds after any operations was given to it by one of them, and no
  later one has ended it.
* `check_only_if_held`: hence, what `check` answers.  It also counts the modes a grant offers for
  persisting, which no release takes away, so the grants must offer none that they do not hold.
* `offered_outlives_owner`: without that, an owner's release leaves the access open.
-/

namespace UriGrants

/-! ### Bits -/

def Mode.bit : Mode → ℕ
  | .read => 0
  | .write => 1

/-- The mode is among `ms`. -/
def Modes.has (ms : Modes) (m : Mode) : Bool := ms.getLsbD m.bit

namespace Modes

variable {a b : Modes} {m n : Mode}

theorem and_flag_eq_zero : a &&& m.flag = 0 ↔ a.has m = false := by
  have h : m.flag = BitVec.twoPow 32 m.bit := by cases m <;> rfl
  rw [h, BitVec.and_twoPow, has]
  cases m <;> cases a.getLsbD _ <;> decide

@[simp] theorem has_or : (a ||| b).has m = (a.has m || b.has m) := BitVec.getLsbD_or

@[simp] theorem has_and : (a &&& b).has m = (a.has m && b.has m) := BitVec.getLsbD_and

@[simp] theorem has_not : (~~~a).has m = !a.has m := by
  cases m <;> simp [has, Mode.bit]

@[simp] theorem has_zero : Modes.has 0#32 m = false := by cases m <;> rfl

@[simp] theorem has_all : Modes.has 4294967295#32 m = true := by cases m <;> rfl

@[simp] theorem has_flag : m.flag.has n = decide (m = n) := by cases m <;> cases n <;> rfl

@[simp] theorem has_accessModes : accessModes.has m = true := by cases m <;> rfl

@[simp] theorem has_flagGrantPersistable : flagGrantPersistable.has m = false := by cases m <;> rfl

/-- Modes that are all there are there one by one. -/
theorem has_of_and_eq (h : a &&& b = b) (hb : b.has m = true) : a.has m = true := by
  rw [← h, has_and, Bool.and_eq_true] at hb
  exact hb.1

end Modes

/-! ### Holding a mode -/

/-- Why a grant holds a mode. -/
inductive Hold where
  | owner (o : Owner)
  | ownerless
  | persisted
  deriving DecidableEq

/-- The grant holds `m`, for that reason. -/
def UriPermission.Holds (p : UriPermission) (m : Mode) : Hold → Prop
  | .owner o => o ∈ p.owners m
  | .ownerless => p.global.has m = true
  | .persisted => p.persisted.has m = true

/-- The reason for a mode that `grantModes` gives. -/
def Hold.ofGrant : Option Owner → Hold
  | none => .ownerless
  | some o => .owner o

namespace UriPermission

variable {p : UriPermission} {m : Mode} {h : Hold} {modes : Modes}

theorem setOwners_owners (os : List Owner) (n : Mode) :
    (p.setOwners os n).owners m = if m = n then os else p.owners m := by
  cases m <;> cases n <;> rfl

theorem setOwners_global (os : List Owner) (n : Mode) : (p.setOwners os n).global = p.global := by
  cases n <;> rfl

theorem setOwners_persisted (os : List Owner) (n : Mode) :
    (p.setOwners os n).persisted = p.persisted := by
  cases n <;> rfl

/-- Which modes the grant has, all reasons taken together. -/
theorem has_modes : p.modes.has m = true ↔ ∃ h, p.Holds m h := by
  have hne : p.owned.has m = true ↔ p.owners m ≠ [] := by
    cases m <;> by_cases hr : p.readOwners = [] <;> by_cases hw : p.writeOwners = [] <;>
      simp [owned, owners, hr, hw]
  have howned : p.owned.has m = true ↔ ∃ o, o ∈ p.owners m :=
    hne.trans ⟨List.exists_mem_of_ne_nil _, fun ⟨_, ho⟩ => List.ne_nil_of_mem ho⟩
  simp only [modes, Modes.has_or, Bool.or_eq_true, howned]
  constructor
  · rintro ((⟨o, ho⟩ | hg) | hp)
    · exact ⟨.owner o, ho⟩
    · exact ⟨.ownerless, hg⟩
    · exact ⟨.persisted, hp⟩
  · rintro ⟨_ | _ | _, hh⟩
    · exact .inl (.inl ⟨_, hh⟩)
    · exact .inl (.inr hh)
    · exact .inr hh

/-- A new grant holds nothing. -/
theorem holds_new {s t : Text} {uid : ℤ} {uri : GrantUri} : ¬ (new s t uid uri).Holds m h := by
  cases h <;> cases m <;> simp [Holds, new, owners]

theorem holds_initPersistedModes {created : ℤ}
    (hh : (p.initPersistedModes modes created).Holds m h) :
    h = .persisted ∧ modes.has m = true ∨ h ≠ .persisted ∧ p.Holds m h := by
  cases h with
  | owner o => cases m <;> exact .inr ⟨by simp, hh⟩
  | ownerless => exact .inr ⟨by simp, hh⟩
  | persisted => exact .inl ⟨rfl, by simpa [Holds, initPersistedModes] using hh⟩

variable {o : Owner} {n : Mode}

theorem holds_pushOwner (hh : (pushOwner modes o p n).Holds m h) :
    h = .owner o ∧ modes.has m = true ∨ p.Holds m h := by
  rw [pushOwner] at hh
  split_ifs at hh with hc
  · cases h with
    | owner o' =>
      simp only [Holds, setOwners_owners] at hh
      split_ifs at hh with hm
      · rcases List.mem_append.1 hh with ho | ho
        · exact .inr (hm ▸ ho)
        · obtain rfl := List.mem_singleton.1 ho
          refine .inl ⟨rfl, ?_⟩
          rw [hm]
          simpa using mt Modes.and_flag_eq_zero.2 hc.1
      · exact .inr hh
    | ownerless => exact .inr (by simpa only [Holds, setOwners_global] using hh)
    | persisted => exact .inr (by simpa only [Holds, setOwners_persisted] using hh)
  · exact .inr hh

/-- Granting gives the modes to the owner, or without one, and nothing else. -/
theorem holds_grantModes {owner : Option Owner} (hh : (p.grantModes modes owner).Holds m h) :
    h = .ofGrant owner ∧ modes.has m = true ∨ p.Holds m h := by
  have hoffer : ∀ q : UriPermission,
      (if modes &&& flagGrantPersistable ≠ 0 then
        { q with persistable := q.persistable ||| modes &&& accessModes } else q).Holds m h →
      q.Holds m h := by
    intro q hq
    split_ifs at hq
    · cases h <;> cases m <;> exact hq
    · exact hq
  cases owner with
  | none =>
    by_cases hg : h = .ownerless
    · subst hg
      simp only [Holds, grantModes, Modes.has_or, Modes.has_and, Modes.has_accessModes,
        Bool.and_true, Bool.or_eq_true] at hh
      rcases hh with hh | hh
      · exact .inr (hoffer p hh)
      · exact .inl ⟨rfl, hh⟩
    · refine .inr (hoffer p ?_)
      cases h with
      | owner o => cases m <;> exact hh
      | ownerless => exact absurd rfl hg
      | persisted => exact hh
  | some o =>
    rcases holds_pushOwner hh with h₁ | h₁
    · exact .inl h₁
    · rcases holds_pushOwner h₁ with h₂ | h₂
      · exact .inl h₂
      · exact .inr (hoffer p h₂)

/-- Taking persists what is offered for persisting. -/
theorem holds_takePersistableModes {now : ℤ} (hh : (p.takePersistableModes modes now).2.Holds m h) :
    h = .persisted ∧ modes.has m = true ∧ p.persistable.has m = true ∨ p.Holds m h := by
  rw [takePersistableModes] at hh
  dsimp only at hh
  by_cases hc : modes &&& accessModes &&& p.persistable ≠ modes &&& accessModes
  · rw [if_pos hc] at hh
    exact .inr hh
  rw [if_neg hc] at hh
  cases h with
  | owner o => cases m <;> exact .inr hh
  | ownerless => exact .inr hh
  | persisted =>
    simp only [Holds, Modes.has_or, Modes.has_and, Modes.has_accessModes, Bool.and_true,
      Bool.or_eq_true, Bool.and_eq_true] at hh
    rcases hh with hh | hh
    · exact .inr hh
    · exact .inl ⟨rfl, hh.2, hh.1⟩

/-- Releasing ends the persisted modes. -/
theorem holds_releasePersistableModes (hh : (p.releasePersistableModes modes).2.Holds m h) :
    p.Holds m h ∧ ¬ (h = .persisted ∧ modes.has m = true) := by
  cases h with
  | owner o => cases m <;> exact ⟨hh, by simp⟩
  | ownerless => exact ⟨hh, by simp⟩
  | persisted => simpa [Holds, releasePersistableModes] using hh

/-- A released owner holds nothing. -/
theorem holds_release (hh : (p.release o).Holds m h) : p.Holds m h ∧ h ≠ .owner o := by
  cases h with
  | owner o' =>
    cases m <;>
    · obtain ⟨hm, hne⟩ := List.mem_filter.1 hh
      exact ⟨hm, by simpa using hne⟩
  | ownerless => exact ⟨hh, by simp⟩
  | persisted => exact ⟨hh, by simp⟩

/-- Revoking an owner ends the modes it is revoked for. -/
theorem holds_revokeOwner (hh : (p.revokeOwner o modes).Holds m h) :
    p.Holds m h ∧ ¬ (h = .owner o ∧ modes.has m = true) := by
  cases h with
  | owner o' =>
    cases m <;>
    · simp only [Holds, revokeOwner, owners] at hh
      split_ifs at hh with hm
      · obtain ⟨hm, hne⟩ := List.mem_filter.1 hh
        exact ⟨hm, by simp_all⟩
      · rw [ne_eq, not_not, Modes.and_flag_eq_zero] at hm
        exact ⟨hh, by simp [hm]⟩
  | ownerless => exact ⟨hh, by simp⟩
  | persisted => exact ⟨hh, by simp⟩

/-- What `revokeModes` takes away. -/
def Revoked (modes : Modes) (includingOwners : Bool) (m : Mode) : Hold → Prop
  | .owner _ => modes.has m = true ∧ includingOwners = true
  | .ownerless => modes.has m = true
  | .persisted => modes.has m = true ∧ modes &&& flagGrantPersistable ≠ 0

theorem holds_revokeMode {b : Bool} (hh : (revokeMode modes b p n).Holds m h) :
    p.Holds m h ∧ (m = n → ¬ Revoked modes b m h) := by
  by_cases hn : modes &&& n.flag = 0
  · rw [revokeMode, if_pos hn] at hh
    rw [Modes.and_flag_eq_zero] at hn
    refine ⟨hh, ?_⟩
    rintro rfl
    cases h <;> simp [Revoked, hn]
  · rw [revokeMode, if_neg hn] at hh
    cases h with
    | owner o =>
      cases m <;> cases n <;> cases b <;> by_cases hp : modes &&& flagGrantPersistable = 0#32 <;>
        simp_all [Holds, Revoked, owners, setOwners]
    | ownerless =>
      cases m <;> cases n <;> cases b <;> by_cases hp : modes &&& flagGrantPersistable = 0#32 <;>
        simp_all [Holds, Revoked, setOwners]
    | persisted =>
      cases m <;> cases n <;> cases b <;> by_cases hp : modes &&& flagGrantPersistable = 0#32 <;>
        simp_all [Holds, Revoked, setOwners]

/-- Revoking modes ends them for every owner, and the persisted ones if asked to. -/
theorem holds_revokeModes {b : Bool} (hh : (p.revokeModes modes b).2.Holds m h) :
    p.Holds m h ∧ ¬ Revoked modes b m h := by
  have hq : (revokeMode modes b (revokeMode modes b p .read) .write).Holds m h := by
    cases h <;> cases m <;> exact hh
  obtain ⟨h₁, hw⟩ := holds_revokeMode hq
  obtain ⟨h₀, hr⟩ := holds_revokeMode h₁
  refine ⟨h₀, ?_⟩
  cases m with
  | read => exact hr rfl
  | write => exact hw rfl

end UriPermission

/-! ### Giving and ending -/

/-- The operation makes the grant of `uri` to `uid` hold `m`, for that reason. -/
def Op.gives (uid : ℤ) (uri : GrantUri) (m : Mode) (h : Hold) (g : Grants) : Op → Prop
  | .load _ _ u v modes _ =>
    u = uid ∧ v.key = uri.key ∧ modes.has m = true ∧ h = .persisted
  | .grant _ _ u v modes owner =>
    u = uid ∧ v.key = uri.key ∧ modes.has m = true ∧ h = .ofGrant owner
  | .takePersistable u v modes user _ =>
    u = uid ∧ v.string = uri.uri.string ∧ user = uri.sourceUser ∧ modes.has m = true ∧
      h = .persisted ∧ g.takes uid modes uri = true
  | _ => False

/-- The operation takes `m` away from the grant `p` of `uid`, when it is held for that reason. -/
def Op.ends (uid : ℤ) (p : UriPermission) (m : Mode) (h : Hold) (g : Grants) : Op → Prop
  | .load _ _ u v modes _ =>
    u = uid ∧ v.key = p.uri.key ∧ modes.has m = false ∧ h = .persisted
  | .grant .. => False
  | .release owner => h = .owner owner
  | .revokeOwner owner v user modes =>
    h = .owner owner ∧ v.string = p.uri.uri.string ∧ user = p.uri.sourceUser ∧ modes.has m = true
  | .revoke target callingUid v modes callerHolds =>
    (callerHolds = true ∨ uid = callingUid) ∧ Grants.revokes target v p = true ∧
      modes.has m = true ∧ ((∃ o, h = .owner o) → callerHolds = true ∧ target = none)
  | .takePersistable u v modes user now =>
    u = uid ∧ (∃ r, g.takePersistable u v modes user now = .ok r) ∧ h = .persisted ∧
      ∃ w ∈ (g.taken u v modes user now).oldestPersisted u, w.key = p.uri.key
  | .releasePersistable u v modes package user =>
    u = uid ∧ (∃ r, g.releasePersistable u v modes package user = .ok r) ∧
      v.string = p.uri.uri.string ∧ user = p.uri.sourceUser ∧ modes.has m = true ∧ h = .persisted
  | .removeForPackage package user persistable targetOnly =>
    (user = userAll ∨ user = uid.tdiv perUserRange) ∧
      Grants.removes package persistable targetOnly p = true ∧
      (h = .persisted → persistable = true)
  | .prune u => u = uid ∧ h = .persisted ∧ ∃ w ∈ g.oldestPersisted u, w.key = p.uri.key

section Step

variable {g : Grants} {uid u : ℤ} {v w : GrantUri} {m : Mode} {h : Hold} {modes : Modes}

open Grants UriPermission

theorem persistable_flag (modes : Modes) :
    (modes ||| flagGrantPersistable) &&& flagGrantPersistable ≠ 0 := by
  intro hz
  have := congrArg (fun x : BitVec 32 => x.getLsbD 6) hz
  simp [flagGrantPersistable] at this

variable {q : UriPermission} {op : Op}

/-- What a grant holds after its turn it held before, and the operation does not end it. -/
theorem Op.holds_turn {p : UriPermission} (hs : op.sweeps = true)
    (hq : op.turn uid p = some q) (hh : q.Holds m h) : p.Holds m h ∧ ¬ op.ends uid p m h g := by
  cases op with
  | release owner =>
    rw [unspent_eq_some hq] at hh
    exact holds_release hh
  | revokeOwner owner v user modes =>
    rw [unspent_eq_some hq] at hh
    split_ifs at hh with hc
    · obtain ⟨hp, hn⟩ := holds_revokeOwner hh
      exact ⟨hp, fun he => hn ⟨he.1, he.2.2.2⟩⟩
    · exact ⟨hh, fun he => hc ⟨he.2.2.1.symm, he.2.1.symm⟩⟩
  | revoke target callingUid v modes callerHolds =>
    simp only [turn] at hq
    split_ifs at hq with ht hr
    · rw [unspent_eq_some hq] at hh
      obtain ⟨hp, hn⟩ := holds_revokeModes hh
      refine ⟨hp, fun he => hn ?_⟩
      obtain ⟨-, -, hm, ho⟩ := he
      cases h with
      | owner o =>
        obtain ⟨hc, rfl⟩ := ho ⟨o, rfl⟩
        simp [UriPermission.Revoked, hm, hc]
      | ownerless => simp [UriPermission.Revoked, hm]
      | persisted => exact ⟨by simp [hm], persistable_flag modes⟩
    · rw [unspent_eq_some hq] at hh
      exact ⟨hh, fun he => hr he.2.1⟩
    · obtain rfl := Option.some.inj hq
      exact ⟨hh, fun he => ht (by simpa using he.1)⟩
  | removeForPackage package user persistable targetOnly =>
    simp only [turn] at hq
    by_cases ht : (user = userAll || user = uid.tdiv perUserRange) = true
    · rw [if_pos ht] at hq
      by_cases hr : removes package persistable targetOnly p = true
      · rw [if_pos hr] at hq
        rw [unspent_eq_some hq] at hh
        obtain ⟨hp, hn⟩ := holds_revokeModes hh
        refine ⟨hp, fun he => hn ?_⟩
        cases h with
        | owner o => cases persistable <;> simp [UriPermission.Revoked]
        | ownerless => cases persistable <;> simp [UriPermission.Revoked]
        | persisted =>
          rw [he.2.2 rfl]
          exact ⟨by simp, by decide⟩
      · rw [if_neg hr] at hq
        obtain rfl := Option.some.inj hq
        exact ⟨hh, fun he => hr he.2.1⟩
    · rw [if_neg ht] at hq
      obtain rfl := Option.some.inj hq
      exact ⟨hh, fun he => ht (by simpa using he.1)⟩
  | _ => cases hs

/-- What is left to a grant, after the persisted modes of one grant are released. -/
theorem holds_released (hw : g.Wf)
    (hq : ((g.modifyPerm u w fun p => (p.releasePersistableModes modes).2).removeIfNeeded u w).find
      uid v = some q) (hh : q.Holds m h) :
    ∃ p, g.find uid v = some p ∧ p.Holds m h ∧
      ¬ (h = .persisted ∧ modes.has m = true ∧ uid = u ∧ v.key = w.key) := by
  rw [find_removeIfNeeded (hw.modifyPerm (releasePersistableModes_uri · modes)),
    find_modifyPerm (releasePersistableModes_uri · modes)] at hq
  by_cases hc : uid = u ∧ v.key = w.key
  · rw [if_pos hc, if_pos hc] at hq
    obtain ⟨hq, -⟩ := Option.filter_eq_some_iff.1 hq
    obtain ⟨p, hp, rfl⟩ := Option.map_eq_some_iff.1 hq
    obtain ⟨hh', hn⟩ := holds_releasePersistableModes hh
    exact ⟨p, hp, hh', fun he => hn ⟨he.1, he.2.1⟩⟩
  · rw [if_neg hc, if_neg hc] at hq
    exact ⟨q, hq, hh, fun he => hc he.2.2⟩

/-- Pruning ends the persisted modes of the oldest grants. -/
theorem holds_prunePersisted (hw : g.Wf)
    (hq : (g.prunePersisted u).2.find uid v = some q) (hh : q.Holds m h) :
    ∃ p, g.find uid v = some p ∧ p.Holds m h ∧
      ¬ (u = uid ∧ h = .persisted ∧ ∃ w ∈ g.oldestPersisted u, w.key = v.key) := by
  rw [prunePersisted_eq] at hq
  -- the list is that of the table before the loop
  generalize g.oldestPersisted u = l at hq ⊢
  induction l generalizing g with
  | nil => exact ⟨q, hq, hh, by simp⟩
  | cons w l ih =>
    obtain ⟨p₁, hp₁, hh₁, hn₁⟩ := ih hw.pruneOne hq
    obtain ⟨p, hp, hh', hn⟩ := holds_released hw hp₁ hh₁
    refine ⟨p, hp, hh', ?_⟩
    rintro ⟨rfl, rfl, x, hx, hxv⟩
    rcases List.mem_cons.1 hx with rfl | hx
    · exact hn ⟨rfl, by simp, rfl, hxv.symm⟩
    · exact hn₁ ⟨rfl, rfl, x, hx, hxv⟩

variable {r : Bool × Grants} {now : ℤ}

theorem holds_takeOne {valid : Bool}
    (hq : (takeOne u modes now valid w r).2.find uid v = some q) (hh : q.Holds m h) :
    (∃ p, r.2.find uid v = some p ∧ p.Holds m h) ∨
      h = .persisted ∧ modes.has m = true ∧ uid = u ∧ v.key = w.key ∧ valid = true := by
  rw [takeOne] at hq
  split_ifs at hq with hv
  · rw [find_modifyPerm (takePersistableModes_uri · modes now)] at hq
    split_ifs at hq with hc
    · obtain ⟨p, hp, rfl⟩ := Option.map_eq_some_iff.1 hq
      rcases holds_takePersistableModes hh with hh | hh
      · exact .inr ⟨hh.1, hh.2.1, hc.1, hc.2, hv⟩
      · exact .inl ⟨p, hp, hh⟩
    · exact .inl ⟨q, hq, hh⟩
  · exact .inl ⟨q, hq, hh⟩

theorem takes_congr (hk : v.key = w.key) : g.takes uid modes v = g.takes uid modes w := by
  rw [takes, takes, find_congr hk]

/-- What is held after taking was held before, or is what taking gives. -/
theorem holds_taken {uri : Uri} {user : ℤ}
    (hq : (g.taken u uri modes user now).find uid v = some q) (hh : q.Holds m h) :
    (∃ p, g.find uid v = some p ∧ p.Holds m h) ∨
      (Op.takePersistable u uri modes user now).gives uid v m h g := by
  have gives : ∀ b, h = .persisted → modes.has m = true → uid = u →
      v.key = (⟨user, uri, b⟩ : GrantUri).key → g.takes u modes ⟨user, uri, b⟩ = true →
      (Op.takePersistable u uri modes user now).gives uid v m h g := by
    rintro b rfl hm rfl hk ht
    have hk' := hk
    simp only [GrantUri.key, Prod.mk.injEq] at hk'
    exact ⟨rfl, hk'.1.symm, hk'.2.1.symm, hm, rfl, (takes_congr hk).trans ht⟩
  rcases holds_takeOne hq hh with ⟨p, hp, hh⟩ | ⟨hp, hm, hu, hk, ht⟩
  · rcases holds_takeOne hp hh with hh | ⟨hp, hm, hu, hk, ht⟩
    · exact .inl hh
    · exact .inr (gives _ hp hm hu hk ht)
  · exact .inr (gives _ hp hm hu hk ht)

theorem holds_releaseOne (hw : r.2.Wf)
    (hq : (releaseOne u modes w r).2.find uid v = some q) (hh : q.Holds m h) :
    ∃ p, r.2.find uid v = some p ∧ p.Holds m h ∧
      ¬ (h = .persisted ∧ modes.has m = true ∧ uid = u ∧ v.key = w.key) := by
  rw [releaseOne] at hq
  split at hq
  · exact holds_released hw hq hh
  next hn =>
    refine ⟨q, hq, hh, ?_⟩
    rintro ⟨-, -, rfl, hk⟩
    rw [find_congr hk, hn] at hq
    cases hq

/-- **What one operation can do.**  A grant that holds a mode after it either was given it by the
operation, or held it before and the operation does not end it. -/
theorem holds_step (hw : g.Wf) (hq : (step g op).find uid v = some q) (hh : q.Holds m h) :
    op.gives uid v m h g ∨ ∃ p, g.find uid v = some p ∧ p.Holds m h ∧ ¬ op.ends uid p m h g := by
  have key_of_find : ∀ {p : UriPermission}, g.find uid v = some p → p.uri.key = v.key :=
    fun hp => (Perms.find_some hp).2
  cases hs : op.sweeps with
  | true =>
    rw [find_of_sweeps hw hs] at hq
    obtain ⟨p, hp, hq⟩ := Option.bind_eq_some_iff.1 hq
    exact .inr ⟨p, hp, Op.holds_turn hs hq hh⟩
  | false =>
    cases op with
    | load source target u w modes created =>
      rw [step, find_findOrCreate (initPersistedModes_uri · modes created)] at hq
      split_ifs at hq with hc
      · obtain rfl := Option.some.inj hq
        obtain ⟨rfl, hk⟩ := hc
        rcases holds_initPersistedModes hh with ⟨hp, hm⟩ | ⟨hp, hh⟩
        · exact .inl ⟨rfl, hk.symm, hm, hp⟩
        right
        cases hf : g.find uid w with
        | none => rw [hf] at hh; exact absurd hh holds_new
        | some p =>
          rw [hf] at hh
          exact ⟨p, (find_congr hk).trans hf, hh, fun he => hp he.2.2.2⟩
      · refine .inr ⟨q, hq, hh, fun he => hc ⟨he.1.symm, ?_⟩⟩
        rw [← key_of_find hq, he.2.1]
    | grant source target u w modes owner =>
      rw [step] at hq
      split_ifs at hq with ha
      · exact .inr ⟨q, hq, hh, id⟩
      rw [find_findOrCreate (grantModes_uri · modes owner)] at hq
      split_ifs at hq with hc
      · obtain rfl := Option.some.inj hq
        obtain ⟨rfl, hk⟩ := hc
        rcases holds_grantModes hh with ⟨hp, hm⟩ | hh
        · exact .inl ⟨rfl, hk.symm, hm, hp⟩
        right
        cases hf : g.find uid w with
        | none => rw [hf] at hh; exact absurd hh holds_new
        | some p =>
          rw [hf] at hh
          exact ⟨p, (find_congr hk).trans hf, hh, id⟩
      · exact .inr ⟨q, hq, hh, id⟩
    | takePersistable u uri modes user now =>
      rcases takePersistable_cases g u uri modes user now with ⟨e, he⟩ | ⟨-, b, hb⟩
      · simp only [step, he] at hq
        refine .inr ⟨q, hq, hh, ?_⟩
        rintro ⟨-, ⟨r, hr⟩, -⟩
        rw [he] at hr
        cases hr
      · simp only [step, hb] at hq
        obtain ⟨p₁, hp₁, hh₁, hn⟩ := holds_prunePersisted hw.takeOne.takeOne hq hh
        rcases holds_taken hp₁ hh₁ with ⟨p, hp, hh'⟩ | hg
        · refine .inr ⟨p, hp, hh', ?_⟩
          rintro ⟨hu, -, hper, x, hx, hk⟩
          exact hn ⟨hu, hper, x, hx, hk.trans (key_of_find hp)⟩
        · exact .inl hg
    | releasePersistable u uri modes package user =>
      rcases releasePersistable_cases g u uri modes package user with ⟨e, he⟩ | ⟨b, hb⟩
      · simp only [step, he] at hq
        refine .inr ⟨q, hq, hh, ?_⟩
        rintro ⟨-, ⟨r, hr⟩, -⟩
        rw [he] at hr
        cases hr
      · simp only [step, hb] at hq
        obtain ⟨p₁, hp₁, hh₁, hn₁⟩ := holds_releaseOne hw.releaseOne hq hh
        obtain ⟨p, hp, hh', hn⟩ := holds_releaseOne hw hp₁ hh₁
        refine .inr ⟨p, hp, hh', ?_⟩
        rintro ⟨rfl, -, hstr, hus, hm, hper⟩
        have hk := key_of_find hp
        simp only [GrantUri.key, Prod.mk.injEq] at hk
        cases hb : v.prefixed with
        | true => exact hn₁ ⟨hper, hm, rfl, by simp [GrantUri.key, hb, hstr, hus, hk]⟩
        | false => exact hn ⟨hper, hm, rfl, by simp [GrantUri.key, hb, hstr, hus, hk]⟩
    | prune u =>
      obtain ⟨p, hp, hh', hn⟩ := holds_prunePersisted hw hq hh
      refine .inr ⟨p, hp, hh', ?_⟩
      rintro ⟨hu, hper, x, hx, hk⟩
      exact hn ⟨hu, hper, x, hx, hk.trans (key_of_find hp)⟩
    | _ => cases hs

/-- **What a grant holds was given to it, and not ended since.** -/
theorem held_since (ops : List Op)
    (hq : (History.run step ∅ ops).find uid v = some q) (hh : q.Holds m h) :
    History.Since step (fun g op => op.gives uid v m h g)
      (fun g op => ∃ p, g.find uid v = some p ∧ op.ends uid p m h g) ∅ ops := by
  refine History.since_of_step (I := Wf) (P := fun g => ∃ p, g.find uid v = some p ∧ p.Holds m h)
    Wf.empty ?_ (fun g op hw => hw.step op) ?_ ops ⟨q, hq, hh⟩
  · rintro ⟨p, hp, -⟩
    cases hp
  rintro g op hw ⟨q, hq, hh⟩
  rcases holds_step hw hq hh with hg | ⟨p, hp, hh', hn⟩
  · exact .inl hg
  · refine .inr ⟨⟨p, hp, hh'⟩, ?_⟩
    rintro ⟨p', hp', he⟩
    obtain rfl := Option.some.inj (hp.symm.trans hp')
    exact hn he

end Step

/-! ### What `check` answers -/

/-- The grant is of that very URI, or of a prefix above it. -/
def UriPermission.Covers (p : UriPermission) (uri : GrantUri) : Prop :=
  p.uri.key = uri.key ∨ p.uri.prefixed = true ∧ uri.uri.isPathPrefixMatch p.uri.uri = true

namespace Grants

variable {g : Grants} {uid : ℤ} {uri : GrantUri} {asked : Modes}

/-- `check` asks each grant that covers the URI for the strength of the modes. -/
theorem check_eq (hu : uid ≠ rootUid) :
    g.check uri uid asked =
      let min := if asked &&& flagGrantPersistable ≠ 0 then strengthPersistable else strengthOwned
      ((g.find uid uri).any (fun p => min ≤ p.strength asked) ||
        (g.perms uid).any fun p =>
          p.uri.prefixed && uri.uri.isPathPrefixMatch p.uri.uri &&
            decide (min ≤ p.strength asked)) := by
  simp only [check, if_neg hu, find, perms]
  cases g.lookup uid with
  | none => rfl
  | some ps =>
    simp only [Option.getD_some]
    cases (Perms.find ps uri).any _ <;> simp

/-- A true answer has a grant behind it. -/
theorem exists_of_check (hu : uid ≠ rootUid) (hp : asked &&& flagGrantPersistable = 0)
    (h : g.check uri uid asked = true) :
    ∃ p ∈ g.perms uid, p.Covers uri ∧ strengthOwned ≤ p.strength asked := by
  rw [check_eq hu] at h
  simp only [hp, ne_eq, not_true_eq_false, if_false, Bool.or_eq_true] at h
  rcases h with h | h
  · obtain ⟨p, hf, hs⟩ := (Option.any_eq_true _ _).1 h
    obtain ⟨hm, hk⟩ := Perms.find_some hf
    exact ⟨p, hm, .inl hk, by simpa using hs⟩
  · obtain ⟨p, hm, hs⟩ := List.any_eq_true.1 h
    simp only [Bool.and_eq_true, decide_eq_true_eq] at hs
    exact ⟨p, hm, .inr hs.1, hs.2⟩

end Grants

/-- A grant of some strength offers each asked mode for persisting, or has it. -/
theorem UriPermission.has_of_strength {p : UriPermission} {asked : Modes} {m : Mode}
    (h : strengthOwned ≤ p.strength asked) (hm : asked.has m = true) :
    p.persistable.has m = true ∨ p.modes.has m = true := by
  have ha : (asked &&& accessModes).has m = true := by simp [hm]
  rw [strength] at h
  split_ifs at h with h₁ h₂ h₃
  · exact .inl (Modes.has_of_and_eq h₁ ha)
  · exact .inr (by simp [modes, Modes.has_of_and_eq h₂ ha])
  · exact .inr (by simp [modes, Modes.has_of_and_eq h₃ ha])
  · exact absurd h (by decide)

/-- **Access ends with the grant.**  After any operations, `check` lets `uid` have the asked modes
only if one grant of it, of that URI or of a prefix above it, holds each of them for a reason that
one of the operations gave and none has ended since — provided that no such grant offers for
persisting an asked mode that it does not hold. -/
theorem check_only_if_held (ops : List Op) {uid : ℤ} {uri : GrantUri} {asked : Modes}
    (hu : uid ≠ rootUid) (hp : asked &&& flagGrantPersistable = 0)
    (hoffer : ∀ p ∈ (History.run step ∅ ops).perms uid, p.Covers uri → ∀ m, asked.has m = true →
      p.persistable.has m = true → p.modes.has m = true)
    (h : (History.run step ∅ ops).check uri uid asked = true) :
    ∃ p ∈ (History.run step ∅ ops).perms uid, p.Covers uri ∧ ∀ m, asked.has m = true →
      ∃ k, p.Holds m k ∧ History.Since step (fun g op => op.gives uid p.uri m k g)
        (fun g op => ∃ q, g.find uid p.uri = some q ∧ op.ends uid q m k g) ∅ ops := by
  obtain ⟨p, hmem, hc, hs⟩ := Grants.exists_of_check hu hp h
  refine ⟨p, hmem, hc, fun m hm => ?_⟩
  have hmodes : p.modes.has m = true :=
    (UriPermission.has_of_strength hs hm).elim (hoffer p hmem hc m hm) id
  obtain ⟨k, hk⟩ := UriPermission.has_modes.1 hmodes
  have hw : (History.run step ∅ ops).Wf :=
    History.run_induct Grants.Wf.empty (fun _ op hw => hw.step op) ops
  exact ⟨k, hk, held_since ops ((hw uid).find_of_mem hmem) hk⟩

/-- A URI in the user 0. -/
def sampleUri (s : String) (prefixed : Bool) : GrantUri := ⟨0, .parse s.toList, prefixed⟩

/-- Reading below a prefix has persisted; it is granted once more, with writing, for an activity,
which goes. -/
def persisting : List Op :=
  [.load [] [] 10001 (sampleUri "content://a/b" true) 1 5,
    .grant [] [] 10001 (sampleUri "content://a/b" true) (3 ||| flagGrantPersistable)
      (some (.activity 7)),
    .release (.activity 7)]

/-- A URI below the prefix may still be read, and no more be written. -/
theorem check_only_if_held_of_persisted :
    (History.run step ∅ persisting).check (sampleUri "content://a/b/c" false) 10001 1 = true ∧
    (History.run step ∅ persisting).perms 10001 ≠ [] ∧
    (∀ p ∈ (History.run step ∅ persisting).perms 10001, p.persistable = 3 ∧ p.modes = 1) ∧
    ∃ p ∈ (History.run step ∅ persisting).perms 10001,
      p.Covers (sampleUri "content://a/b/c" false) ∧ ∀ m, Modes.has 1 m = true →
        ∃ k, p.Holds m k ∧ History.Since step (fun g op => op.gives 10001 p.uri m k g)
          (fun g op => ∃ q, g.find 10001 p.uri = some q ∧ op.ends 10001 q m k g) ∅ persisting := by
  have hcheck : (History.run step ∅ persisting).check (sampleUri "content://a/b/c" false) 10001 1 =
      true := by decide +kernel
  have hmodes : ∀ p ∈ (History.run step ∅ persisting).perms 10001,
      p.persistable = 3 ∧ p.modes = 1 := by decide +kernel
  refine ⟨hcheck, by decide +kernel, hmodes, ?_⟩
  refine check_only_if_held _ (by decide) (by decide) (fun p hp _ m hm _ => ?_) hcheck
  rw [(hmodes p hp).2]
  exact hm

/-- The operations of `offered_outlives_owner`: reading is granted to be persisted, for an
activity; writing is granted with no owner; the activity goes. -/
def offered : List Op :=
  [.grant [] [] 10001 (sampleUri "content://a/b" false) (1 ||| flagGrantPersistable)
      (some (.activity 7)),
    .grant [] [] 10001 (sampleUri "content://a/b" false) 2 none,
    .release (.activity 7)]

/-- **An offer outlives its owner.**  The uid may still read, and no grant of it holds reading for
any reason. -/
theorem offered_outlives_owner :
    (History.run step ∅ offered).check (sampleUri "content://a/b" false) 10001 1 = true ∧
      ¬ ∃ p ∈ (History.run step ∅ offered).perms 10001,
        p.Covers (sampleUri "content://a/b" false) ∧ ∀ m, Modes.has 1 m = true →
        ∃ k, p.Holds m k ∧ History.Since step (fun g op => op.gives 10001 p.uri m k g)
          (fun g op => ∃ q, g.find 10001 p.uri = some q ∧ op.ends 10001 q m k g) ∅ offered := by
  refine ⟨by decide +kernel, ?_⟩
  rintro ⟨p, hp, -, hall⟩
  obtain ⟨k, hk, -⟩ := hall .read rfl
  have hnone : ∀ p ∈ (History.run step ∅ offered).perms 10001, p.modes.has .read = false := by
    decide +kernel
  exact absurd (UriPermission.has_modes.2 ⟨k, hk⟩) (by rw [hnone p hp]; simp)

end UriGrants
