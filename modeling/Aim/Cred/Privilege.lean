import Aim.Cred.Text
import Aim.Support.BitSet

/-!
# Credentials — dropped privilege

What one event can do to an identity, and what a run of them can.

* `Sound`: the effective set is within the permitted one, the ambient set within the permitted and the
  inheritable one, no set has a capability there is not, and the service and the label are lines.
* `Moves`: what an event can do.  The bounding set only shrinks, ids come from those there are unless
  the process may set any, and the permitted set grows only by an exec as root.
* `Dropped`: no permitted capability and no uid 0.
-/

namespace Cred

open BitSet List

/-- The real, the effective and the saved id. -/
def Ids.three (u : Ids) : List UInt32 := [u.real, u.eff, u.saved]

structure Sound (id : Identity) : Prop where
  eff : Within id.capEff id.capPerm
  ambPerm : Within id.capAmb id.capPerm
  ambInh : Within id.capAmb id.capInh
  full : ∀ c ∈ [id.capEff, id.capPerm, id.capInh, id.capAmb, id.capBset], Within c CAP_FULL
  service : Clean id.service
  seclabel : Clean id.seclabel

variable {id : Identity}

/-- The sets that follow from the others. -/
theorem Sound.of_perm (eff : Within id.capEff id.capPerm) (ambPerm : Within id.capAmb id.capPerm)
    (ambInh : Within id.capAmb id.capInh) (perm : Within id.capPerm CAP_FULL)
    (inh : Within id.capInh CAP_FULL) (bset : Within id.capBset CAP_FULL)
    (service : Clean id.service) (seclabel : Clean id.seclabel) : Sound id where
  eff := eff
  ambPerm := ambPerm
  ambInh := ambInh
  full := by
    simp only [mem_cons, not_mem_nil, or_false, forall_eq_or_imp, forall_eq]
    exact ⟨eff.trans perm, perm, inh, ambPerm.trans perm, bset⟩
  service := service
  seclabel := seclabel

namespace Sound

variable {id : Identity} (h : Sound id)
include h

theorem perm : Within id.capPerm CAP_FULL := h.full _ (by simp)

theorem inh : Within id.capInh CAP_FULL := h.full _ (by simp)

theorem bset : Within id.capBset CAP_FULL := h.full _ (by simp)

end Sound

/-- What an event can do to an identity. -/
structure Moves (id id' : Identity) : Prop where
  sound : Sound id'
  bset : Within id'.capBset id.capBset
  uid : id.capable CAP_SETUID = true ∨ ∀ v ∈ id'.uid.three, v ∈ id.uid.three
  gid : id.capable CAP_SETGID = true ∨ ∀ v ∈ id'.gid.three, v ∈ id.gid.three
  groups : id.capable CAP_SETGID = true ∨ id'.groups = id.groups
  perm : Within id'.capPerm id.capPerm ∨ id.uid.real = 0 ∨ id.uid.eff = 0

/-! ### Calls that leave the sets or the ids -/

/-- Only the capability sets change, and they shrink. -/
structure Fixed (id id' : Identity) : Prop where
  eq : ∃ eff perm inh bset amb bits, id' = { id with
    capEff := eff, capPerm := perm, capInh := inh, capBset := bset, capAmb := amb
    securebits := bits }
  eff : Within id'.capEff id'.capPerm
  ambPerm : Within id'.capAmb id'.capPerm
  ambInh : Within id'.capAmb id'.capInh
  perm : Within id'.capPerm id.capPerm
  inh : Within id'.capInh CAP_FULL
  bset : Within id'.capBset id.capBset

theorem Fixed.refl (h : Sound id) : Fixed id id where
  eq := ⟨_, _, _, _, _, _, rfl⟩
  eff := h.eff
  ambPerm := h.ambPerm
  ambInh := h.ambInh
  perm := .refl _
  inh := h.inh
  bset := .refl _

variable {id' : Identity}

/-- A call that leaves the ids moves them as it may. -/
theorem Fixed.moves (h : Sound id) (hf : Fixed id id') : Moves id id' := by
  obtain ⟨⟨eff, perm, inh, bset, amb, bits, rfl⟩, heff, hap, hai, hperm, hinh, hbset⟩ := hf
  exact ⟨.of_perm heff hap hai (hperm.trans h.perm) hinh (hbset.trans h.bset) h.service h.seclabel,
    hbset, .inr fun _ hv => hv, .inr fun _ hv => hv, .inr rfl, .inl hperm⟩

theorem Fixed.sound (h : Sound id) (hf : Fixed id id') : Sound id' :=
  (hf.moves h).sound

theorem Fixed.trans {id₁ id₂ id₃ : Identity} (h : Fixed id₁ id₂) (h' : Fixed id₂ id₃) :
    Fixed id₁ id₃ where
  eq := by
    obtain ⟨_, _, _, _, _, _, rfl⟩ := h.eq
    obtain ⟨_, _, _, _, _, _, rfl⟩ := h'.eq
    exact ⟨_, _, _, _, _, _, rfl⟩
  eff := h'.eff
  ambPerm := h'.ambPerm
  ambInh := h'.ambInh
  perm := h'.perm.trans h.perm
  inh := h'.inh
  bset := h'.bset.trans h.bset

section

variable (h : Sound id)

include h

/-- An effective set that is permitted. -/
theorem Fixed.of_eff {eff : Caps} (he : Within eff id.capPerm) :
    Fixed id { id with capEff := eff } :=
  ⟨⟨_, _, _, _, _, _, rfl⟩, he, h.ambPerm, h.ambInh, .refl _, h.inh, .refl _⟩

/-- An ambient set that may be. -/
theorem Fixed.of_amb {amb : Caps} (hp : Within amb id.capPerm)
    (hi : Within amb id.capInh) : Fixed id { id with capAmb := amb } :=
  ⟨⟨_, _, _, _, _, _, rfl⟩, h.eff, hp, hi, .refl _, h.inh, .refl _⟩

theorem Fixed.of_securebits (bits : BitVec 32) : Fixed id { id with securebits := bits } :=
  ⟨⟨_, _, _, _, _, _, rfl⟩, h.eff, h.ambPerm, h.ambInh, .refl _, h.inh, .refl _⟩

theorem dropRoot_fixed (old : Ids) : Fixed id (id.dropRoot old) := by
  rw [Identity.dropRoot]
  split_ifs
  · exact ⟨⟨_, _, _, _, _, _, rfl⟩, .refl _, .refl _, zero_within _, zero_within _, h.inh, .refl _⟩
  · exact .of_amb h (zero_within _) (zero_within _)
  · exact .refl h

theorem dropEffective_fixed (old : Ids) : Fixed id (id.dropEffective old) := by
  rw [Identity.dropEffective]
  split_ifs
  · exact .of_eff h (zero_within _)
  · exact .refl h

theorem raiseEffective_fixed (old : Ids) : Fixed id (id.raiseEffective old) := by
  rw [Identity.raiseEffective]
  split_ifs
  · exact .of_eff h (.refl _)
  · exact .refl h

/-- The fixups only take from the sets, or make what is permitted effective. -/
theorem fixSetuid_fixed (old : Ids) : Fixed id (id.fixSetuid old) := by
  rw [Identity.fixSetuid]
  split_ifs
  · exact .refl h
  · have h₁ := dropRoot_fixed h old
    have h₂ := dropEffective_fixed (h₁.sound h) old
    have h₃ := raiseEffective_fixed (h₂.sound (h₁.sound h)) old
    exact (h₁.trans h₂).trans h₃

theorem fixSetfsuid_fixed (old : UInt32) : Fixed id (id.fixSetfsuid old) := by
  have hdrop : Fixed id (id.dropFs old) := by
    rw [Identity.dropFs]
    split_ifs
    · exact .of_eff h ((and_within_left _ _).trans h.eff)
    · exact .refl h
  have hraise : ∀ {id : Identity}, Sound id → Fixed id (id.raiseFs old) := by
    intro id h
    rw [Identity.raiseFs]
    split_ifs
    · exact .of_eff h (h.eff.or (and_within_left _ _))
    · exact .refl h
  rw [Identity.fixSetfsuid]
  split_ifs
  · exact .refl h
  · exact hdrop.trans (hraise (hdrop.sound h))

/-- `capset` stays within the permitted set. -/
theorem capset_fixed (version : Option UInt32) (self : Bool)
    (data : ℕ → Option CapData) : Fixed id (capset version self data id).1 := by
  rw [capset]
  cases capHeader version with
  | error e => exact .refl h
  | ok n =>
    dsimp only
    split_ifs
    · exact .refl h
    cases (List.range n).mapM data with
    | none => exact .refl h
    | some data =>
      dsimp only
      split_ifs with h₁ h₂
      · exact .refl h
      · exact .refl h
      simp only [ne_eq, not_or, not_not] at h₂
      obtain ⟨hinh, hperm, heff⟩ := h₂
      refine ⟨⟨_, _, _, _, _, _, rfl⟩, heff, ?_, ?_, hperm, ?_, .refl _⟩
      · exact (and_within_right _ _).trans (and_within_left _ _)
      · exact (and_within_right _ _).trans (and_within_right _ _)
      · exact and_within_right _ _

theorem setSecurebits_fixed (a1 : UInt64) : Fixed id (setSecurebits a1 id).1 := by
  rw [setSecurebits]
  dsimp only
  split_ifs
  · exact .refl h
  · exact .refl h
  · exact .of_securebits h _

end

theorem capBit_eq {c : UInt64} {b : Caps} (h : capBit c = some b) : b = 1#64 <<< c.toNat := by
  rw [capBit] at h
  split_ifs at h
  cases h
  rfl

/-- An ambient capability is raised only where it is permitted and inheritable. -/
theorem capAmbient_fixed (h : Sound id) (a1 a2 : UInt64) : Fixed id (capAmbient a1 a2 id).1 := by
  rw [capAmbient]
  by_cases hclear : a1 = PR_CAP_AMBIENT_CLEAR_ALL ∧ a2 = 0
  · rw [if_pos hclear]
    exact .of_amb h (zero_within _) (zero_within _)
  rw [if_neg hclear]
  cases hb : capBit a2 with
  | none => exact .refl h
  | some b =>
    obtain rfl := capBit_eq hb
    dsimp only
    split_ifs with _ _ _ hraise
    · exact .refl h
    · exact .of_amb h ((and_within_left _ _).trans h.ambPerm)
        ((and_within_left _ _).trans h.ambInh)
    · exact .refl h
    · have hbit := bit_within hraise
      exact .of_amb h (h.ambPerm.or (hbit.trans (and_within_left _ _)))
        (h.ambInh.or (hbit.trans (and_within_right _ _)))
    · exact .refl h

theorem setKeepcaps_fixed (h : Sound id) (a1 : UInt64) : Fixed id (setKeepcaps a1 id).1 := by
  rw [setKeepcaps]
  split_ifs
  · exact .of_securebits h _
  · exact .refl h

/-- The bounding set only shrinks. -/
theorem capbsetDrop_fixed (h : Sound id) (a1 : UInt64) : Fixed id (capbsetDrop a1 id).1 := by
  rw [capbsetDrop]
  cases capBit a1 with
  | none => exact .refl h
  | some b =>
    split_ifs
    · exact .refl h
    · exact ⟨⟨_, _, _, _, _, _, rfl⟩, h.eff, h.ambPerm, h.ambInh, .refl _, h.inh,
        and_within_left _ _⟩

/-- Every prctl on capabilities and securebits leaves the ids. -/
theorem prctl_fixed (h : Sound id) {a0 a1 a2 : UInt64} {r : Reply}
    (hr : prctl a0 a1 a2 id = some r) : Fixed id r.1 := by
  rw [prctl] at hr
  split_ifs at hr <;> cases hr
  · exact .refl h
  · exact setKeepcaps_fixed h a1
  · exact .refl h
  · exact capbsetDrop_fixed h a1
  · exact .refl h
  · exact setSecurebits_fixed h a1
  · exact capAmbient_fixed h a1 a2

/-! ### Calls that change the ids -/

theorem Moves.refl (h : Sound id) : Moves id id := (Fixed.refl h).moves h

/-- New ids of users or groups, any if the process may set them. -/
theorem set_moves (h : Sound id) {w : Who} {new : Ids}
    (hnew : id.capable w.cap = true ∨ ∀ v ∈ new.three, v ∈ (w.ids id).three) :
    Moves id (w.set id new) := by
  cases w with
  | group =>
    exact ⟨⟨h.eff, h.ambPerm, h.ambInh, h.full, h.service, h.seclabel⟩, .refl _,
      .inr fun _ hv => hv, hnew, .inr rfl, .inl (.refl _)⟩
  | user =>
    have hs : Sound { id with uid := new } :=
      ⟨h.eff, h.ambPerm, h.ambInh, h.full, h.service, h.seclabel⟩
    have hf := fixSetuid_fixed hs id.uid
    have hm := hf.moves hs
    obtain ⟨eff, perm, inh, bset, amb, bits, he⟩ := hf.eq
    change Moves id (Identity.fixSetuid { id with uid := new } id.uid)
    rw [he] at hf hm ⊢
    exact ⟨hm.sound, hf.bset, hnew, .inr fun _ hv => hv, .inr rfl, .inl hf.perm⟩

/-- Without the capability, `setuid` and `setgid` go to an id that is already there. -/
theorem setid_moves (h : Sound id) (w : Who) (a0 : UInt64) : Moves id (setid w a0 id).1 := by
  rw [setid]
  dsimp only
  split_ifs with _ hcap hv
  · exact .refl h
  · exact set_moves h (.inl hcap)
  · refine set_moves h (.inr fun v hm => ?_)
    simp only [Ids.three, mem_cons, not_mem_nil, or_false] at hm ⊢
    rcases hm with rfl | rfl | rfl
    · exact .inl rfl
    · exact hv.imp_right .inr
    · exact .inr (.inr rfl)
  · exact .refl h

theorem pick_mem {v old : UInt32} {ids : List UInt32} (h : v = KEEP ∨ v ∈ ids) (ho : old ∈ ids) :
    pick v old ∈ ids := by
  rw [pick]
  split_ifs with hv
  · exact h.resolve_left hv
  · exact ho

section

variable (h : Sound id)

include h

theorem setreid_moves (w : Who) (a0 a1 : UInt64) : Moves id (setreid w a0 a1 id).1 := by
  rw [setreid]
  split_ifs with hdenied
  · exact .refl h
  refine set_moves h ?_
  cases hcap : id.capable w.cap with
  | true => exact .inl rfl
  | false =>
    simp only [hcap, true_and, not_or, not_and, not_not] at hdenied
    have hr : a0.toUInt32 = KEEP ∨ a0.toUInt32 ∈ (w.ids id).three := by
      by_cases hk : a0.toUInt32 = KEEP
      · exact .inl hk
      by_cases hreal : a0.toUInt32 = (w.ids id).real
      · exact .inr (by simp [Ids.three, hreal])
      · exact .inr (by simp [Ids.three, hdenied.1 hk hreal])
    have he : a1.toUInt32 = KEEP ∨ a1.toUInt32 ∈ (w.ids id).three := by
      by_cases hk : a1.toUInt32 = KEEP
      · exact .inl hk
      by_cases hreal : a1.toUInt32 = (w.ids id).real
      · exact .inr (by simp [Ids.three, hreal])
      by_cases heff : a1.toUInt32 = (w.ids id).eff
      · exact .inr (by simp [Ids.three, heff])
      · exact .inr (by simp [Ids.three, hdenied.2 hk hreal heff])
    have heff : pick a1.toUInt32 (w.ids id).eff ∈ (w.ids id).three :=
      pick_mem he (by simp [Ids.three])
    refine .inr fun v hm => ?_
    rw [Ids.three, Ids.setre] at hm
    simp only [mem_cons, not_mem_nil, or_false] at hm
    rcases hm with rfl | rfl | rfl
    · exact pick_mem hr (by simp [Ids.three])
    · exact heff
    · split_ifs
      · exact heff
      · simp [Ids.three]

theorem setresid_moves (w : Who) (a0 a1 a2 : UInt64) : Moves id (setresid w a0 a1 a2 id).1 := by
  rw [setresid]
  split_ifs with hdenied
  · exact .refl h
  refine set_moves h ?_
  cases hcap : id.capable w.cap with
  | true => exact .inl rfl
  | false =>
    rw [hcap] at hdenied
    simp only [true_and, not_not] at hdenied
    refine .inr fun v hm => ?_
    rw [Ids.three] at hm
    simp only [mem_cons, not_mem_nil, or_false] at hm
    rcases hm with rfl | rfl | rfl
    · exact pick_mem (hdenied _ (by simp)) (by simp [Ids.three])
    · exact pick_mem (hdenied _ (by simp)) (by simp [Ids.three])
    · exact pick_mem (hdenied _ (by simp)) (by simp [Ids.three])

theorem setfsid_moves (w : Who) (a0 : UInt64) : Moves id (setfsid w a0 id).1 := by
  rw [setfsid.eq_def]
  dsimp only
  split_ifs
  · cases w with
    | group =>
      exact ⟨⟨h.eff, h.ambPerm, h.ambInh, h.full, h.service, h.seclabel⟩, .refl _,
        .inr fun _ hv => hv, .inr fun _ hv => hv, .inr rfl, .inl (.refl _)⟩
    | user =>
      have hs : Sound { id with uid.fs := a0.toUInt32 } :=
        ⟨h.eff, h.ambPerm, h.ambInh, h.full, h.service, h.seclabel⟩
      have hf := fixSetfsuid_fixed hs id.uid.fs
      have hm := hf.moves hs
      obtain ⟨eff, perm, inh, bset, amb, bits, he⟩ := hf.eq
      change Moves id (Identity.fixSetfsuid { id with uid.fs := a0.toUInt32 } id.uid.fs)
      rw [he] at hf hm ⊢
      exact ⟨hm.sound, hf.bset, .inr fun _ hv => hv, .inr fun _ hv => hv, .inr rfl,
        .inl hf.perm⟩
  · exact .refl h

/-- Groups change only with the capability. -/
theorem setgroups_moves (size : UInt64) (list : ℕ → Option UInt32) :
    Moves id (setgroups size list id).1 := by
  rw [setgroups]
  split_ifs with _ hcap
  · exact .refl h
  · cases (List.range size.toUInt32.toInt32.toNatClampNeg).mapM list <;> exact .refl h
  cases (List.range size.toUInt32.toInt32.toNatClampNeg).mapM list with
  | none => exact .refl h
  | some groups =>
    exact ⟨⟨h.eff, h.ambPerm, h.ambInh, h.full, h.service, h.seclabel⟩, .refl _,
      .inr fun _ hv => hv, .inr fun _ hv => hv, .inl (Bool.eq_true_of_not_eq_false hcap),
      .inl (.refl _)⟩

/-- Every call moves ids and sets as it may. -/
theorem call_moves (c : Call) : Moves id (c.apply id) := by
  cases c with
  | setid w a0 => exact setid_moves h w a0
  | setreid w a0 a1 => exact setreid_moves h w a0 a1
  | setresid w a0 a1 a2 => exact setresid_moves h w a0 a1 a2
  | setfsid w a0 => exact setfsid_moves h w a0
  | setgroups size list => exact setgroups_moves h size list
  | capset version self data => exact (capset_fixed h version self data).moves h
  | prctl a0 a1 a2 =>
    rw [Call.apply]
    cases hr : Cred.prctl a0 a1 a2 id with
    | none => exact .refl h
    | some r => exact (prctl_fixed h hr).moves h

end

/-! ### Execs and forks -/

/-- An exec gives no capability that was neither inheritable nor in the bounding set. -/
theorem execTransform_perm (h : Sound id) :
    Within id.execTransform.capPerm (id.capInh ||| id.capBset) := by
  have hamb : Within (id.capAmb &&& (id.capPerm &&& id.capInh)) (id.capInh ||| id.capBset) :=
    ((and_within_left _ _).trans h.ambInh).trans (within_or_left _ _)
  rw [Identity.execTransform]
  dsimp only
  split_ifs
  · exact (and_within_left _ _).trans ((Within.refl _).or hamb)
  · exact hamb

/-- So does an exec. -/
theorem execTransform_moves (h : Sound id) : Moves id id.execTransform := by
  have hambPerm : Within (id.capAmb &&& (id.capPerm &&& id.capInh)) id.capPerm :=
    (and_within_left _ _).trans h.ambPerm
  have hamb : Within (id.capAmb &&& (id.capPerm &&& id.capInh)) id.capInh :=
    (and_within_left _ _).trans h.ambInh
  have hroot : Within (id.capAmb &&& (id.capPerm &&& id.capInh))
      ((id.capInh ||| id.capBset ||| id.capAmb &&& (id.capPerm &&& id.capInh)) &&& CAP_FULL) :=
    (within_or_right _ _).and (hamb.trans h.inh)
  have hids : ∀ u : Ids, ∀ v ∈ Ids.three { u with saved := u.eff, fs := u.eff }, v ∈ u.three := by
    intro u v hv
    simp only [Ids.three, mem_cons, not_mem_nil, or_false] at hv ⊢
    rcases hv with rfl | rfl | rfl
    · exact .inl rfl
    · exact .inr (.inl rfl)
    · exact .inr (.inl rfl)
  rw [Identity.execTransform]
  by_cases hr : id.securebits &&& SECBIT_NOROOT = 0 ∧ (id.uid.real = 0 ∨ id.uid.eff = 0)
  · simp only [hr, if_true, true_and]
    refine ⟨.of_perm ?_ hroot hamb (and_within_right _ _) h.inh h.bset h.service h.seclabel,
      .refl _, .inr (hids _), .inr (hids _), .inr rfl, .inr hr.2⟩
    split_ifs
    · exact .refl _
    · exact hroot
  · simp only [hr, if_false, false_and]
    exact ⟨.of_perm (.refl _) (.refl _) hamb (hambPerm.trans h.perm) h.inh h.bset h.service
      h.seclabel, .refl _, .inr (hids _), .inr (hids _), .inr rfl, .inl hambPerm⟩

theorem strip_clean {v : Bytes} (h : Clean v) : Clean (strip v) := by
  rw [strip]
  split_ifs
  · exact ⟨fun hm => h.newline (mem_of_mem_dropLast hm),
      fun hm => h.nul (mem_of_mem_dropLast hm)⟩
  · exact h

section

variable (h : Sound id)

include h

theorem restored_moves : Moves id id.restored :=
  ⟨⟨h.eff, h.ambPerm, h.ambInh, h.full, strip_clean h.service, strip_clean h.seclabel⟩, .refl _,
    .inr fun _ hv => hv, .inr fun _ hv => hv, .inr rfl, .inl (.refl _)⟩

/-- The text of a sound identity is read back, so that a fork carries it. -/
theorem Sound.parse_toText : Identity.parse id.toText = some id.restored :=
  Cred.parse_toText h.service.newline h.seclabel.newline fun c hc =>
    within_iff_and_eq.1 (h.full c hc)

theorem step_fork (nice : Int32) :
    step id (.fork nice) = some { id.restored with priority := nice } := by
  rw [step, forkRestore, h.parse_toText]
  rfl

theorem step_relaunch : step id .relaunch = some id.execTransform.restored := by
  have hs := (execTransform_moves h).sound
  rw [step, arg_toText hs.service.nul hs.seclabel.nul, hs.parse_toText]

/-- Every event, one case a constructor. -/
theorem step_moves (e : Event) : ∃ id', step id e = some id' ∧ Moves id id' := by
  cases e with
  | call c => exact ⟨_, rfl, call_moves h c⟩
  | exec => exact ⟨_, rfl, execTransform_moves h⟩
  | fork nice =>
    have hs := (restored_moves h).sound
    exact ⟨_, step_fork h nice,
      ⟨h.eff, h.ambPerm, h.ambInh, h.full, hs.service, hs.seclabel⟩, .refl _,
      .inr fun _ hv => hv, .inr fun _ hv => hv, .inr rfl, .inl (.refl _)⟩
  | relaunch =>
    have hm := execTransform_moves h
    have hr := restored_moves hm.sound
    exact ⟨_, step_relaunch h, hr.sound, hm.bset, hm.uid, hm.gid, hm.groups, hm.perm⟩

/-- A whole run, by induction on its events. -/
theorem run_sound (events : List Event) : ∃ id', run id events = some id' ∧ Sound id' := by
  induction events generalizing id with
  | nil => exact ⟨id, rfl, h⟩
  | cons e events ih =>
    obtain ⟨id₁, h₁, hm⟩ := step_moves h e
    obtain ⟨id₂, h₂, hs⟩ := ih hm.sound
    exact ⟨id₂, by rw [run, foldlM_cons, h₁]; exact h₂, hs⟩

end

/-- No permitted capability, and ids that are among those of `base`, none of them the user 0. -/
structure Dropped (base id : Identity) : Prop where
  sound : Sound id
  perm : id.capPerm = 0
  uid : ∀ v ∈ id.uid.three, v ∈ base.uid.three
  gid : ∀ v ∈ id.gid.three, v ∈ base.gid.three

variable {base : Identity}

section

variable (h : Dropped base id)

include h

theorem Dropped.eff : id.capEff = 0 :=
  eq_zero_of_within (h.perm ▸ h.sound.eff)

theorem Dropped.amb : id.capAmb = 0 :=
  eq_zero_of_within (h.perm ▸ h.sound.ambPerm)

/-- What was given up does not come back. -/
theorem Dropped.moves (hz : 0 ∉ base.uid.three) (hm : Moves id id') : Dropped base id' := by
  have hcap : ∀ c, ¬ id.capable c = true := by
    intro c hc
    simp [Identity.capable, h.eff] at hc
  have hroot : ¬ (id.uid.real = 0 ∨ id.uid.eff = 0) := by
    rintro (h0 | h0)
    · exact hz (h0 ▸ h.uid _ (by simp [Ids.three]))
    · exact hz (h0 ▸ h.uid _ (by simp [Ids.three]))
  exact
    { sound := hm.sound
      perm := eq_zero_of_within (h.perm ▸ hm.perm.resolve_right hroot)
      uid := fun v hv => h.uid v (hm.uid.resolve_left (hcap _) v hv)
      gid := fun v hv => h.gid v (hm.gid.resolve_left (hcap _) v hv) }

/-- Dropped privilege stays dropped along every run. -/
theorem Dropped.run (hz : 0 ∉ base.uid.three)
    (events : List Event) : ∃ id', run id events = some id' ∧ Dropped base id' := by
  induction events generalizing id with
  | nil => exact ⟨id, rfl, h⟩
  | cons e events ih =>
    obtain ⟨id₁, h₁, hm⟩ := step_moves h.sound e
    obtain ⟨id₂, h₂, hd⟩ := ih (h.moves hz hm)
    exact ⟨id₂, by rw [Cred.run, foldlM_cons, h₁]; exact h₂, hd⟩

end

/-- **Dropped privilege does not come back.** -/
theorem dropped_privilege_stays_dropped {id : Identity} (h : Sound id) (events : List Event) :
    ∃ id', run id events = some id' ∧ Sound id' ∧
      (∀ e id'', step id' e = some id'' →
        Within id''.capBset id'.capBset ∧
        (e = .exec ∨ e = .relaunch → Within id''.capPerm (id'.capInh ||| id'.capBset)) ∧
        (id'.capable CAP_SETUID = false → ∀ v ∈ id''.uid.three, v ∈ id'.uid.three) ∧
        (id'.capable CAP_SETGID = false →
          (∀ v ∈ id''.gid.three, v ∈ id'.gid.three) ∧ id''.groups = id'.groups)) ∧
      (id'.capPerm = 0 → 0 ∉ id'.uid.three → ∀ later, ∃ id'', run id' later = some id'' ∧
        id''.capPerm = 0 ∧ id''.capEff = 0 ∧ id''.capAmb = 0 ∧
        (∀ v ∈ id''.uid.three, v ∈ id'.uid.three) ∧ ∀ v ∈ id''.gid.three, v ∈ id'.gid.three) := by
  obtain ⟨id', hrun, hs⟩ := run_sound h events
  refine ⟨id', hrun, hs, ?_, ?_⟩
  · intro e id'' hstep
    obtain ⟨_, hstep', hm⟩ := step_moves hs e
    obtain rfl := Option.some.inj (hstep'.symm.trans hstep)
    refine ⟨hm.bset, ?_, ?_, ?_⟩
    · rintro (rfl | rfl)
      · cases hstep
        exact execTransform_perm hs
      · cases (step_relaunch hs).symm.trans hstep
        exact execTransform_perm hs
    · exact fun hc => hm.uid.resolve_left (by simp [hc])
    · exact fun hc => ⟨hm.gid.resolve_left (by simp [hc]), hm.groups.resolve_left (by simp [hc])⟩
  · intro hperm hz later
    have hd : Dropped id' id' := ⟨hs, hperm, fun _ hv => hv, fun _ hv => hv⟩
    obtain ⟨id'', hlater, hd'⟩ := hd.run hz later
    exact ⟨id'', hlater, hd'.perm, hd'.eff, hd'.amb, hd'.uid, hd'.gid⟩

/-- Root that becomes a user, forks and execs. -/
theorem dropped_privilege_stays_dropped_user :
    ∃ id', run {} [.call (.setresid .user 1000 1000 1000), .fork 0, .relaunch] = some id' ∧
      Sound id' := by
  have hs : Sound {} := .of_perm (.refl _) (zero_within _) (zero_within _) (.refl _)
    (zero_within _) (.refl _) ⟨nofun, nofun⟩ ⟨nofun, nofun⟩
  obtain ⟨id', hrun, hs', -⟩ := dropped_privilege_stays_dropped hs
    [.call (.setresid .user 1000 1000 1000), .fork 0, .relaunch]
  exact ⟨id', hrun, hs'⟩

/-- A label with a newline: the child of a process without privilege is root. -/
theorem broken_label_forks_root :
    ∃ id : Identity, Within id.capEff id.capPerm ∧ Within id.capAmb (id.capPerm &&& id.capInh) ∧
      id.capPerm = 0 ∧ 0 ∉ id.uid.three ∧
      (step id (.fork 0)).map (fun i => (i.uid, i.capPerm, i.capEff)) =
        some (.all 0, CAP_FULL, CAP_FULL) :=
  ⟨{ uid := .all 1000, gid := .all 1000, capEff := 0, capPerm := 0, seclabel := [97, 10, 98] },
    by decide, by decide, rfl, by decide, by decide +kernel⟩

end Cred
