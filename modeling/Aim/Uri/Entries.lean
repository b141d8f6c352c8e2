import Aim.Uri.Grants

/-!
# Uri — one grant of the table

The operations of the grants, seen at one uid and one URI.  No uid has two grants of the same URI
(`Wf`), so what an operation does to the table is told by what it does to each grant:

* `find_sweep`, `find_modifyPerm`, `find_findOrCreate`, `find_removeIfNeeded`: the grant that the
  basic operations leave at a uid and a URI.
* `Wf.step`: every operation keeps the URIs of a uid's grants distinct.
-/

namespace UriGrants

open List UriPermission

/-- Grants are looked up by the key of their URI. -/
theorem GrantUri.same_iff {u v : GrantUri} : u.same v = true ↔ u.key = v.key := beq_iff_eq

namespace UriPermission

variable (p : UriPermission)

theorem setOwners_uri (os : List Owner) (m : Mode) : (p.setOwners os m).uri = p.uri := by
  cases m <;> rfl

theorem pushOwner_uri (modes : Modes) (o : Owner) (m : Mode) :
    (pushOwner modes o p m).uri = p.uri := by
  rw [pushOwner]
  split_ifs
  · exact setOwners_uri p _ m
  · rfl

/-- Granting modes keeps the URI of the grant, as every operation on one does. -/
theorem grantModes_uri (modes : Modes) (o : Option Owner) : (p.grantModes modes o).uri = p.uri := by
  cases o with
  | none => simp only [grantModes]; split_ifs <;> rfl
  | some o => simp only [grantModes, pushOwner_uri]; split_ifs <;> rfl

theorem initPersistedModes_uri (modes : Modes) (created : ℤ) :
    (p.initPersistedModes modes created).uri = p.uri := rfl

theorem takePersistableModes_uri (modes : Modes) (now : ℤ) :
    (p.takePersistableModes modes now).2.uri = p.uri := by
  simp only [takePersistableModes]
  split_ifs <;> rfl

theorem releasePersistableModes_uri (modes : Modes) :
    (p.releasePersistableModes modes).2.uri = p.uri := rfl

theorem revokeMode_uri (modes : Modes) (b : Bool) (m : Mode) :
    (revokeMode modes b p m).uri = p.uri := by
  simp only [revokeMode]
  split_ifs <;> simp [setOwners_uri]

theorem revokeModes_uri (modes : Modes) (b : Bool) : (p.revokeModes modes b).2.uri = p.uri := by
  simp only [revokeModes, revokeMode_uri]

end UriPermission

/-! ### Lists of grants -/

variable {p : UriPermission} {source target : Text} {uid : ℤ}

namespace Perms

variable {ps : List UriPermission} {uri v : GrantUri} {f : UriPermission → UriPermission}

/-- No two grants of the list are of the same URI. -/
def Distinct (ps : List UriPermission) : Prop := (ps.map fun p => p.uri.key).Nodup

theorem find_cons (p : UriPermission) (ps : List UriPermission) (uri : GrantUri) :
    find (p :: ps) uri = if p.uri.key = uri.key then some p else find ps uri := by
  by_cases h : p.uri.key = uri.key
  · rw [if_pos h]
    exact find?_cons_of_pos (GrantUri.same_iff.2 h)
  · rw [if_neg h]
    exact find?_cons_of_neg fun hs => h (GrantUri.same_iff.1 hs)

/-- What is found is a grant of the list under that key. -/
theorem find_some (h : find ps uri = some p) : p ∈ ps ∧ p.uri.key = uri.key :=
  ⟨mem_of_find?_eq_some h, GrantUri.same_iff.1 (by simpa using find?_some h)⟩

theorem find_eq_none : find ps uri = none ↔ ∀ p ∈ ps, p.uri.key ≠ uri.key := by
  simp [find, find?_eq_none, GrantUri.same_iff]

theorem find_congr (h : uri.key = v.key) : find ps uri = find ps v := by
  simp only [find, GrantUri.same, h]

/-- Where the URIs are distinct, each grant is found under its own. -/
theorem Distinct.find_of_mem (hd : Distinct ps) (hp : p ∈ ps) : find ps p.uri = some p := by
  cases h : find ps p.uri with
  | none => exact absurd rfl (find_eq_none.1 h p hp)
  | some q =>
    obtain ⟨hq, hk⟩ := find_some h
    rw [inj_on_of_nodup_map hd hq hp hk]

variable {g : UriPermission → Option UriPermission}

theorem Distinct.filterMap (hd : Distinct ps)
    (hg : ∀ p q, g p = some q → q.uri = p.uri) : Distinct (ps.filterMap g) := by
  refine List.Nodup.sublist (?_ : List.Sublist _ (ps.map fun p => p.uri.key)) hd
  clear hd
  induction ps with
  | nil => exact .slnil
  | cons p ps ih =>
    cases h : g p with
    | none => rw [filterMap_cons_none h]; exact .cons _ ih
    | some q =>
      rw [filterMap_cons_some h, map_cons, hg p q h]
      exact .cons_cons _ ih

/-- A change of each grant by itself is a change of the one found. -/
theorem find_filterMap (hd : Distinct ps) (hg : ∀ p q, g p = some q → q.uri = p.uri) :
    find (ps.filterMap g) uri = (find ps uri).bind g := by
  induction ps with
  | nil => rfl
  | cons p ps ih =>
    have hd' : Distinct ps := (nodup_cons.1 hd).2
    rw [find_cons]
    cases h : g p with
    | none =>
      rw [filterMap_cons_none h, ih hd']
      split_ifs with hk
      · -- no other grant of the list is of this URI
        have hn : find ps uri = none := find_eq_none.2 fun q hq hqk =>
          (nodup_cons.1 hd).1 (mem_map.2 ⟨q, hq, hqk.trans hk.symm⟩)
        simp [hn, h]
      · rfl
    | some q =>
      rw [filterMap_cons_some h, find_cons, hg p q h, ih hd']
      split_ifs with hk
      · simp [h]
      · rfl

theorem map_key_modify (hf : ∀ p, (f p).uri = p.uri) :
    (modify uri f ps).map (fun p => p.uri.key) = ps.map fun p => p.uri.key := by
  induction ps with
  | nil => rfl
  | cons p ps ih =>
    rw [modify]
    split_ifs
    · simp [hf]
    · simp [ih]

/-- `modify` changes the grant at its URI and no other. -/
theorem find_modify (hf : ∀ p, (f p).uri = p.uri) :
    find (modify uri f ps) v = if v.key = uri.key then (find ps v).map f else find ps v := by
  induction ps with
  | nil => simp [modify, find]
  | cons p ps ih =>
    rw [modify]
    split_ifs with hp hv hv
    · rw [find_cons, find_cons, hf, GrantUri.same_iff.1 hp, if_pos hv.symm, if_pos hv.symm]; rfl
    · rw [find_cons, find_cons, hf, GrantUri.same_iff.1 hp, if_neg (Ne.symm hv),
        if_neg (Ne.symm hv)]
    · rw [GrantUri.same_iff] at hp
      rw [find_cons, find_cons, if_neg (fun h => hp (h.trans hv)),
        if_neg (fun h => hp (h.trans hv)), ih, if_pos hv]
    · rw [find_cons, find_cons, ih, if_neg hv]

/-- A grant that is inserted in order is found, and the others as before. -/
theorem find_insert {below : UriPermission → Bool} (hn : find ps p.uri = none) :
    find (ps.takeWhile below ++ p :: ps.dropWhile below) v =
      if v.key = p.uri.key then some p else find ps v := by
  have hsplit : find ps v = (find (ps.takeWhile below) v).or (find (ps.dropWhile below) v) := by
    rw [find, find, find, ← find?_append, takeWhile_append_dropWhile]
  have hcons : find (p :: ps.dropWhile below) v =
      if v.key = p.uri.key then some p else find (ps.dropWhile below) v := by
    rw [find_cons]
    simp only [eq_comm]
  have hall : find (ps.takeWhile below ++ p :: ps.dropWhile below) v =
      (find (ps.takeWhile below) v).or (find (p :: ps.dropWhile below) v) := find?_append
  rw [hall, hcons]
  split_ifs with hk
  · have : find (ps.takeWhile below) v = none := find_eq_none.2 fun q hq hqk =>
      find_eq_none.1 hn q (takeWhile_subset _ hq) (hqk.trans hk)
    rw [this]; rfl
  · exact hsplit.symm

/-- `find_or_create` changes the grant that is there, or a new one. -/
theorem find_findOrCreate (hf : ∀ p, (f p).uri = p.uri) :
    find (findOrCreate source target uid uri f ps) v =
      if v.key = uri.key then some (f ((find ps uri).getD (.new source target uid uri)))
      else find ps v := by
  rw [findOrCreate]
  cases h : find ps uri with
  | some p =>
    simp only [find_modify hf, Option.getD_some]
    split_ifs with hv
    · rw [find_congr hv, h]; rfl
    · rfl
  | none =>
    have hu : (f (.new source target uid uri)).uri = uri := hf _
    have hn : find ps (f (.new source target uid uri)).uri = none := by rw [hu]; exact h
    simp only [find_insert hn, hu, Option.getD_none]

/-- A grant is created only where none has its URI. -/
theorem Distinct.findOrCreate (hd : Distinct ps)
    (hf : ∀ p, (f p).uri = p.uri) : Distinct (findOrCreate source target uid uri f ps) := by
  rw [Perms.findOrCreate]
  cases h : find ps uri with
  | some p => simpa only [Distinct, map_key_modify hf] using hd
  | none =>
    have hu : (f (.new source target uid uri)).uri = uri := hf _
    have hp : ((f (.new source target uid uri)) :: ps).map (fun p => p.uri.key) |>.Nodup := by
      rw [map_cons, nodup_cons, hu]
      exact ⟨fun hm => by
        obtain ⟨q, hq, hk⟩ := mem_map.1 hm
        exact find_eq_none.1 h q hq hk, hd⟩
    refine (List.Perm.nodup_iff (List.Perm.map _ (List.Perm.trans ?_ perm_middle.symm))).1 hp
    rw [takeWhile_append_dropWhile]

end Perms

/-! ### The table -/

namespace Grants

open UriPermission (takePersistableModes_uri releasePersistableModes_uri)

variable {g : Grants} {uid u : ℤ} {uri v : GrantUri} {f : UriPermission → UriPermission}

/-- No uid has two grants of the same URI. -/
def Wf (g : Grants) : Prop := ∀ uid, Perms.Distinct (g.perms uid)

theorem Wf.empty : Wf ∅ := fun _ => nodup_nil

theorem find_congr (h : uri.key = v.key) : g.find uid uri = g.find uid v := Perms.find_congr h

/-- An insertion is to the grants of one uid. -/
theorem perms_insert (ps : List UriPermission) :
    perms (g.insert u ps) uid = if uid = u then ps else g.perms uid := by
  rw [perms, AList.lookup_insert_ite]
  split <;> rfl

theorem perms_modify {h : List UriPermission → List UriPermission} (hn : h [] = []) :
    perms (g.modify u h) uid = if uid = u then h (g.perms uid) else g.perms uid := by
  rw [perms, AList.lookup_modify]
  split_ifs with e
  · subst e
    cases hl : g.lookup uid <;> simp [perms, hl, hn]
  · rfl

variable {h : ℤ → List UriPermission → List UriPermission}

/-- A sweep changes the grants of every uid. -/
theorem perms_sweep (hn : h uid [] = []) : (g.sweep h).perms uid = h uid (g.perms uid) := by
  rw [perms, sweep, AList.lookup_retain, AList.lookup_mapValues, perms]
  cases g.lookup uid with
  | none => simp [hn]
  | some ps =>
    by_cases he : h uid ps = [] <;> simp [Option.filter, he]

/-- `remove_uri_permission_if_needed` drops a grant that has no mode left. -/
theorem perms_removeIfNeeded :
    (g.removeIfNeeded u uri).perms uid =
      if uid = u then (g.perms uid).filter fun p => !p.uri.same uri || p.modes ≠ 0
      else g.perms uid := by
  rw [removeIfNeeded]
  split
  · next hl =>
      split_ifs with e
      · subst e; simp [perms, hl]
      · rfl
  next ps hl =>
    have hps : g.perms u = ps := by simp [perms, hl]
    dsimp only
    split_ifs with he e e
    · subst e
      rw [perms, AList.lookup_erase_ite, if_pos rfl, hps, he]; rfl
    · rw [perms, AList.lookup_erase_ite, if_neg e]; rfl
    · subst e
      rw [perms_insert, if_pos rfl, hps]
    · rw [perms_insert, if_neg e]

/-! ### The grant at one uid and one URI -/

/-- What a loop over the uids leaves, when its turn for a uid treats each grant by itself. -/
theorem find_sweep (hw : g.Wf) {k : UriPermission → Option UriPermission}
    (hh : ∀ ps, h uid ps = ps.filterMap k) (hk : ∀ p q, k p = some q → q.uri = p.uri) :
    (g.sweep h).find uid uri = (g.find uid uri).bind k := by
  rw [find, perms_sweep (by rw [hh]; rfl), hh, Perms.find_filterMap (hw uid) hk]
  rfl

theorem find_modifyPerm (hf : ∀ p, (f p).uri = p.uri) :
    (g.modifyPerm u uri f).find uid v =
      if uid = u ∧ v.key = uri.key then (g.find uid v).map f else g.find uid v := by
  rw [find, modifyPerm, perms_modify rfl]
  by_cases e : uid = u
  · simp only [e, if_true, Perms.find_modify hf, true_and]; rfl
  · simp only [e, if_false, false_and]; rfl

theorem find_findOrCreate (hf : ∀ p, (f p).uri = p.uri) :
    (g.findOrCreate source target u uri f).find uid v =
      if uid = u ∧ v.key = uri.key then
        some (f ((g.find uid uri).getD (.new source target u uri)))
      else g.find uid v := by
  rw [find, findOrCreate, perms_insert]
  by_cases e : uid = u
  · subst e
    simp only [if_true, Perms.find_findOrCreate hf, true_and]; rfl
  · simp only [e, if_false, false_and]; rfl

/-- The grant at one place is dropped if it has no mode left. -/
theorem find_removeIfNeeded (hw : g.Wf) :
    (g.removeIfNeeded u uri).find uid v =
      if uid = u ∧ v.key = uri.key then (g.find uid v).filter fun p => p.modes ≠ 0
      else g.find uid v := by
  rw [find, perms_removeIfNeeded]
  by_cases e : uid = u
  · subst e
    have hk : ∀ p q : UriPermission,
        Option.guard (fun p => !p.uri.same uri || decide (p.modes ≠ 0)) p = some q →
          q.uri = p.uri := by
      intro p q h
      rw [Option.guard_eq_some_iff] at h
      rw [h.1]
    simp only [if_true, true_and]
    rw [← filterMap_eq_filter, Perms.find_filterMap (hw uid) hk]
    cases h : Perms.find (g.perms uid) v with
    | none => simp [find, h]
    | some p =>
      have hp := (Perms.find_some h).2
      by_cases hv : v.key = uri.key
      · simp [find, h, hv, GrantUri.same, hp, Option.guard, Option.filter]
      · simp [find, h, hv, GrantUri.same, hp, Option.guard]
  · simp only [e, if_false, false_and]; rfl

/-! ### The loop of `prunePersisted` -/

/-- One turn of the loop of `prunePersisted`. -/
def pruneOne (uid : ℤ) (g : Grants) (uri : GrantUri) : Grants :=
  (g.modifyPerm uid uri fun p => (p.releasePersistableModes (~~~0)).2).removeIfNeeded uid uri

/-- Pruning takes the oldest grants one after another. -/
theorem prunePersisted_eq (uid : ℤ) :
    (g.prunePersisted uid).2 = (g.oldestPersisted uid).foldl (pruneOne uid) g := rfl

/-! ### Distinct URIs -/

theorem Wf.findOrCreate (hw : g.Wf) (hf : ∀ p, (f p).uri = p.uri) :
    (g.findOrCreate source target u uri f).Wf := by
  intro uid
  rw [Grants.findOrCreate, perms_insert]
  split_ifs
  · exact (hw u).findOrCreate hf
  · exact hw uid

theorem Wf.modifyPerm (hw : g.Wf) (hf : ∀ p, (f p).uri = p.uri) : (g.modifyPerm u uri f).Wf := by
  intro uid
  rw [Grants.modifyPerm, perms_modify rfl]
  split_ifs
  · rw [Perms.Distinct, Perms.map_key_modify hf]
    exact hw uid
  · exact hw uid

theorem Wf.removeIfNeeded (hw : g.Wf) : (g.removeIfNeeded u uri).Wf := by
  intro uid
  rw [perms_removeIfNeeded]
  split_ifs
  · exact List.Nodup.sublist (List.Sublist.map _ filter_sublist) (hw uid)
  · exact hw uid

theorem Wf.pruneOne (hw : g.Wf) : (pruneOne u g uri).Wf :=
  (hw.modifyPerm (releasePersistableModes_uri · _)).removeIfNeeded

/-- Pruning keeps the URIs distinct, as each of its turns does. -/
theorem Wf.prunePersisted (hw : g.Wf) : (g.prunePersisted u).2.Wf := by
  rw [prunePersisted_eq]
  induction g.oldestPersisted u generalizing g with
  | nil => exact hw
  | cons uri l ih => exact ih hw.pruneOne

variable {modes : Modes} {r : Bool × Grants}

theorem Wf.takeOne {now : ℤ} {valid : Bool} (hw : r.2.Wf) :
    (takeOne u modes now valid uri r).2.Wf := by
  rw [Grants.takeOne]
  split_ifs
  · exact hw.modifyPerm (takePersistableModes_uri · modes now)
  · exact hw

/-- The table once `takePersistable` has taken the modes. -/
def taken (g : Grants) (uid : ℤ) (uri : Uri) (modes : Modes) (user now : ℤ) : Grants :=
  (takeOne uid modes now (g.takes uid modes ⟨user, uri, true⟩) ⟨user, uri, true⟩
    (takeOne uid modes now (g.takes uid modes ⟨user, uri, false⟩) ⟨user, uri, false⟩ (false, g))).2

/-- The table once `releasePersistable` has released the modes. -/
def released (g : Grants) (uid : ℤ) (uri : Uri) (modes : Modes) (user : ℤ) : Grants :=
  (releaseOne uid modes ⟨user, uri, true⟩
    (releaseOne uid modes ⟨user, uri, false⟩ (false, g))).2

variable {allowed : Modes}

/-- Flags within the allowed ones pass. -/
theorem checkFlags_ok (h : modes &&& allowed = modes) :
    checkFlags modes allowed = .ok () := if_neg (not_not.2 h)

theorem checkFlags_err (h : modes &&& allowed ≠ modes) :
    ∃ e, checkFlags modes allowed = .error e := ⟨_, if_pos h⟩

/-- Taking is refused, or is a turn for each form of the URI and then a pruning. -/
theorem takePersistable_cases (g : Grants) (uid : ℤ) (uri : Uri) (modes : Modes) (user now : ℤ) :
    (∃ e, g.takePersistable uid uri modes user now = .error e) ∨
      modes &&& accessModes = modes ∧ ∃ b, g.takePersistable uid uri modes user now =
        .ok (b, ((g.taken uid uri modes user now).prunePersisted uid).2) := by
  by_cases hf : modes &&& accessModes = modes
  · simp only [takePersistable, checkFlags_ok hf]
    by_cases hv : (!g.takes uid modes ⟨user, uri, false⟩ && !g.takes uid modes ⟨user, uri, true⟩) =
        true
    · left
      simp only [hv]
      exact ⟨_, rfl⟩
    · right
      simp only [hv]
      exact ⟨hf, _, rfl⟩
  · left
    obtain ⟨e, he⟩ := checkFlags_err hf
    simp only [takePersistable, he]
    exact ⟨e, rfl⟩

/-- Releasing is refused, or is a turn for each form of the URI. -/
theorem releasePersistable_cases (g : Grants) (uid : ℤ) (uri : Uri) (modes : Modes)
    (package : Option Text) (user : ℤ) :
    (∃ e, g.releasePersistable uid uri modes package user = .error e) ∨
      ∃ b, g.releasePersistable uid uri modes package user =
        .ok (b, g.released uid uri modes user) := by
  by_cases hf : modes &&& accessModes = modes
  · simp only [releasePersistable, checkFlags_ok hf]
    by_cases hv : ((g.find uid ⟨user, uri, false⟩).isNone && (g.find uid ⟨user, uri, true⟩).isNone &&
        package.isNone) = true
    · left
      simp only [hv]
      exact ⟨_, rfl⟩
    · right
      simp only [hv]
      exact ⟨_, rfl⟩
  · left
    obtain ⟨e, he⟩ := checkFlags_err hf
    simp only [releasePersistable, he]
    exact ⟨e, rfl⟩

theorem Wf.releaseOne (hw : r.2.Wf) : (releaseOne u modes uri r).2.Wf := by
  rw [Grants.releaseOne]
  split
  · exact (hw.modifyPerm (releasePersistableModes_uri · modes)).removeIfNeeded
  · exact hw

end Grants

/-! ### The operations that treat each grant by itself -/

/-- A grant stays while it has modes. -/
def UriPermission.unspent (p : UriPermission) : Option UriPermission :=
  if p.modes ≠ 0 then some p else none

/-- What is left of a grant of `uid` after an operation that goes over all the grants; none but
these four does. -/
def Op.turn (uid : ℤ) (p : UriPermission) : Op → Option UriPermission
  | .release owner => (p.release owner).unspent
  | .revokeOwner owner uri sourceUser modes =>
    UriPermission.unspent <|
      if p.uri.sourceUser = sourceUser ∧ p.uri.uri.string = uri.string then
        p.revokeOwner owner modes
      else p
  | .revoke target callingUid uri modes callerHolds =>
    if callerHolds || uid = callingUid then
      UriPermission.unspent <|
        if Grants.revokes target uri p then
          (p.revokeModes (modes ||| flagGrantPersistable) (callerHolds && target.isNone)).2
        else p
    else some p
  | .removeForPackage package user persistable targetOnly =>
    if user = userAll || user = uid.tdiv perUserRange then
      if Grants.removes package persistable targetOnly p then
        (p.revokeModes (if persistable then ~~~0 else ~~~flagGrantPersistable) true).2.unspent
      else some p
    else some p
  | _ => some p

/-- The operations `Op.turn` tells about. -/
def Op.sweeps : Op → Bool
  | .release _ | .revokeOwner .. | .revoke .. | .removeForPackage .. => true
  | _ => false

variable {q : UriPermission}

theorem UriPermission.unspent_eq_some (h : p.unspent = some q) : q = p := by
  rw [unspent] at h
  split_ifs at h
  exact (Option.some.inj h).symm

/-- What a change leaves without a mode goes. -/
theorem Perms.dropSpent_map (ps : List UriPermission) (f : UriPermission → UriPermission) :
    dropSpent (ps.map f) = ps.filterMap fun p => (f p).unspent := by
  rw [dropSpent, ← filterMap_eq_filter]
  simp [Option.guard, UriPermission.unspent]

variable {op : Op}

/-- An operation that sweeps gives each grant its turn. -/
theorem step_of_sweeps (g : Grants) (h : op.sweeps = true) :
    step g op = g.sweep fun uid ps => ps.filterMap fun p => op.turn uid p := by
  have some_id : ∀ ps : List UriPermission, ps.filterMap (fun p => some p) = ps := fun ps =>
    filterMap_some
  cases op with
  | release owner =>
    simp only [step, Grants.release, Perms.dropSpent_map]
    rfl
  | revokeOwner owner uri sourceUser modes =>
    simp only [step, Grants.revokeOwner, Perms.dropSpent_map]
    rfl
  | revoke target callingUid uri modes callerHolds =>
    simp only [step, Grants.revoke, Perms.dropSpent_map, Op.turn]
    congr 1
    funext uid ps
    split_ifs
    · rfl
    · exact (some_id ps).symm
  | removeForPackage package user persistable targetOnly =>
    simp only [step, Grants.removeForPackage, Op.turn]
    congr 1
    funext uid ps
    by_cases ht : (user = userAll || user = uid.tdiv perUserRange) = true
    · simp only [ht, if_true, UriPermission.unspent]
    · simp only [ht]
      exact (some_id ps).symm
  | _ => cases h

/-- A turn keeps the URI of the grant. -/
theorem Op.turn_uri (h : op.turn uid p = some q) : q.uri = p.uri := by
  cases op with
  | release owner => rw [unspent_eq_some h]; rfl
  | revokeOwner owner uri sourceUser modes =>
    rw [unspent_eq_some h]
    split_ifs <;> rfl
  | revoke target callingUid uri modes callerHolds =>
    simp only [turn] at h
    split_ifs at h
    · rw [unspent_eq_some h, revokeModes_uri]
    · rw [unspent_eq_some h]
    · exact congrArg _ (Option.some.inj h).symm
  | removeForPackage package user persistable targetOnly =>
    simp only [turn] at h
    split_ifs at h
    · rw [unspent_eq_some h, revokeModes_uri]
    · rw [unspent_eq_some h, revokeModes_uri]
    · exact congrArg _ (Option.some.inj h).symm
    · exact congrArg _ (Option.some.inj h).symm
  | _ => exact congrArg _ (Option.some.inj h).symm

variable {g : Grants}

/-- Under an operation that sweeps, the grant at one place has its own turn. -/
theorem find_of_sweeps (hw : g.Wf) (h : op.sweeps = true) (uid : ℤ)
    (uri : GrantUri) : (step g op).find uid uri = (g.find uid uri).bind fun p => op.turn uid p := by
  rw [step_of_sweeps g h]
  exact Grants.find_sweep hw (fun _ => rfl) fun _ _ => Op.turn_uri

theorem Grants.Wf.sweep (hw : g.Wf) (h : op.sweeps = true) : (step g op).Wf := by
  intro uid
  rw [step_of_sweeps g h, perms_sweep rfl]
  exact (hw uid).filterMap fun _ _ => Op.turn_uri

/-- **No uid ever has two grants of the same URI.** -/
theorem Grants.Wf.step (hw : g.Wf) (op : Op) : (step g op).Wf := by
  cases op with
  | load source target uid uri modes created =>
    exact hw.findOrCreate fun p => initPersistedModes_uri p modes created
  | grant source target uid uri modes owner =>
    simp only [UriGrants.step]
    split_ifs
    · exact hw
    · exact hw.findOrCreate fun p => grantModes_uri p modes owner
  | takePersistable uid uri modes user now =>
    rcases takePersistable_cases g uid uri modes user now with ⟨e, he⟩ | ⟨-, b, hb⟩
    · simpa only [UriGrants.step, he] using hw
    · simp only [UriGrants.step, hb]
      exact hw.takeOne.takeOne.prunePersisted
  | releasePersistable uid uri modes package user =>
    rcases releasePersistable_cases g uid uri modes package user with ⟨e, he⟩ | ⟨b, hb⟩
    · simpa only [UriGrants.step, he] using hw
    · simp only [UriGrants.step, hb]
      exact hw.releaseOne.releaseOne
  | prune uid => exact hw.prunePersisted
  | _ => exact hw.sweep rfl

end UriGrants
