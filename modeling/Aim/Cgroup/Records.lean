import Aim.Cgroup.State

/-!
# Cgroup — the records of a hierarchy

The base file and the fragments in force hold records of threads.  As long as no tid has two, the
membership that is read is all of them together (`read_eq`), in whatever order.

* `Inv`: what holds of the files of a hierarchy between operations.
* `Inv.perm`, `rollback_perm`: the order of a directory says nothing, and a commit that fails leaves
  the files as they were but for that.
* `transact_ends`: what a transaction leaves.  One whose text is that of the base file writes
  nothing, which is right only if no fragment is in force.
-/

namespace Cgroup

open List

/-! ### Records -/

/-- The records of a fragment, if it is in force. -/
def fragmentRecords (w : World) (f : Id × Bytes) : List Entry :=
  if inForce w f.1 (parse f.2) then (parse f.2).threads else []

/-- The records of the threads. -/
def records (w : World) (files : Files) : List Entry :=
  (parse files.base).threads ++ files.fragments.flatMap (fragmentRecords w)

/-- No tid has two. -/
def Distinct (es : List Entry) : Prop := (es.map (·.id)).Nodup

variable {es : List Entry} {e : Entry}

theorem Distinct.eq (h : Distinct es) {e' : Entry} (he : e ∈ es) (he' : e' ∈ es)
    (hid : e.id = e'.id) : e = e' := inj_on_of_nodup_map h he he' hid

variable {es' : List Entry}

theorem Distinct.sublist (h : Distinct es) (hs : es'.Sublist es) :
    Distinct es' := List.Nodup.sublist (hs.map _) h

theorem Distinct.perm (h : Distinct es) (hp : es'.Perm es) : Distinct es' :=
  (hp.map _).nodup_iff.2 h

theorem distinct_append_singleton (h : Distinct es)
    (he : ∀ x ∈ es, x.id ≠ e.id) : Distinct (es ++ [e]) := by
  rw [Distinct, map_append, nodup_append]
  refine ⟨h, nodup_singleton _, fun i hi j hj => ?_⟩
  obtain ⟨x, hx, rfl⟩ := mem_map.1 hi
  rw [mem_singleton.1 hj]
  exact he x hx

theorem merge_eq {threads fragment : List Entry} (h : Distinct (threads ++ fragment)) :
    merge threads fragment = threads ++ fragment := by
  induction fragment generalizing threads with
  | nil => simp [merge]
  | cons e es ih =>
    have hne : ∀ x ∈ threads, decide (x.id ≠ e.id) = true := by
      intro x hx
      rw [Distinct, map_append, nodup_append] at h
      exact decide_eq_true (h.2.2 x.id (mem_map_of_mem hx) e.id (by simp))
    have hfilter : threads.filter (·.id ≠ e.id) = threads := filter_eq_self.2 hne
    have hstep : merge threads (e :: es) = merge (threads ++ [e]) es := by
      rw [merge, foldl_cons, hfilter, merge]
    rw [hstep, ih (by rwa [append_assoc]), append_assoc, singleton_append]

/-- **The membership is all the records together.** -/
theorem read_eq {w : World} {files : Files} (h : Distinct (records w files)) :
    read w files = ⟨(parse files.base).processes, records w files⟩ := by
  have hfold : ∀ (fs : List (Id × Bytes)) (m : Membership),
      Distinct (m.threads ++ fs.flatMap (fragmentRecords w)) →
      fs.foldl (mergeFragment w) m =
        ⟨m.processes, m.threads ++ fs.flatMap (fragmentRecords w)⟩ := by
    intro fs
    induction fs with
    | nil => simp
    | cons f fs ih =>
      intro m hm
      rw [flatMap_cons, ← append_assoc] at hm
      have hf : mergeFragment w m f = ⟨m.processes, m.threads ++ fragmentRecords w f⟩ := by
        rw [mergeFragment, fragmentRecords]
        split_ifs with hi
        · rw [merge_eq]
          refine hm.sublist ?_
          rw [fragmentRecords, if_pos hi]
          exact sublist_append_left _ _
        · simp
      rw [foldl_cons, hf, ih _ hm, flatMap_cons, append_assoc]
  exact hfold files.fragments (parse files.base) h

/-! ### Groups -/

variable {t : Id}

theorem find?_eq (h : Distinct es) (he : e ∈ es)
    (ht : e.id = t) : es.find? (·.id = t) = some e := by
  cases hf : es.find? (·.id = t) with
  | none =>
    have := find?_eq_none.1 hf e he
    simp [ht] at this
  | some e' =>
    have hid : e'.id = t := by simpa using find?_some hf
    rw [h.eq (mem_of_find?_eq_some hf) he (hid.trans ht.symm)]

theorem find?_congr (h' : Distinct es')
    (hm : ∀ e, e.id = t → (e ∈ es ↔ e ∈ es')) : es.find? (·.id = t) = es'.find? (·.id = t) := by
  cases hf : es.find? (·.id = t) with
  | some e =>
    have hid : e.id = t := by simpa using find?_some hf
    rw [find?_eq h' ((hm e hid).1 (mem_of_find?_eq_some hf)) hid]
  | none =>
    refine (find?_eq_none.2 fun e he => ?_).symm
    intro hid
    have hid : e.id = t := by simpa using hid
    have := find?_eq_none.1 hf e ((hm e hid).2 he)
    simp [hid] at this

variable {m : Membership}

/-- The group of a thread depends on its own record and on its process's group. -/
theorem groupOf_congr {w w' : World} {m' : Membership} (h' : Distinct m'.threads) {t' : Id}
    (ht : t = t') (ho : w.owner t = w'.owner t')
    (hm : ∀ e, e.id = t → (e ∈ m.threads ↔ e ∈ m'.threads))
    (hp : processGroup m (w.owner t) = processGroup m' (w.owner t)) :
    groupOf w m t = groupOf w' m' t' := by
  subst ht
  rw [groupOf, groupOf, find?_congr h' hm, hp, ho]

/-! ### The invariant -/

/-- What holds of the files of a hierarchy between operations.  A record of a thread that exited may
be left; it does not matter until the tid is given out again. -/
structure Inv (w : World) (files : Files) : Prop where
  base : ∃ m : Membership, m.Plain ∧ files.base = m.text
  fragments : ∀ f ∈ files.fragments, ∃ es : List Entry,
    (∀ e ∈ es, PlainGroup e.group ∧ e.start = w.start f.1) ∧
      f.2 = (⟨[], es⟩ : Membership).text
  keys : (files.fragments.map Prod.fst).Nodup
  ids : Distinct (records w files)
  processes : ∀ e ∈ (parse files.base).processes, e.start = w.start e.id
  starts : ∀ e ∈ records w files, e.id ∈ w.alive → e.start = w.start (w.owner e.id)
  owners : ∀ f ∈ files.fragments, ∀ e ∈ fragmentRecords w f, e.id ∈ w.alive → w.owner e.id = f.1

/-- A live thread's process is running. -/
def World.Ok (w : World) : Prop := ∀ t ∈ w.alive, w.owner t ∈ w.running

section Inv

variable {w : World} {files files' : Files}

theorem Inv.plain (h : Inv w files) : (parse files.base).Plain := by
  obtain ⟨m, hm, he⟩ := h.base
  rw [he, parse_text hm]
  exact hm

variable {f : Id × Bytes}

theorem Inv.fragment (h : Inv w files) (hf : f ∈ files.fragments) :
    (parse f.2).processes = [] ∧
      ∀ e ∈ (parse f.2).threads, PlainGroup e.group ∧ e.start = w.start f.1 := by
  obtain ⟨es, hes, he⟩ := h.fragments f hf
  rw [he, parse_text ⟨by simp, fun e he => (hes e he).1⟩]
  exact ⟨rfl, hes⟩

theorem mem_fragmentRecords (h : e ∈ fragmentRecords w f) : e ∈ (parse f.2).threads := by
  rw [fragmentRecords] at h
  split_ifs at h
  · exact h
  · cases h

theorem Inv.plain_records (h : Inv w files) : ∀ e ∈ records w files, PlainGroup e.group := by
  intro e he
  rcases mem_append.1 he with he | he
  · exact h.plain.2 e he
  · obtain ⟨f, hf, he⟩ := mem_flatMap.1 he
    exact ((h.fragment hf).2 e (mem_fragmentRecords he)).1

theorem records_perm (hb : files'.base = files.base) (hp : files'.fragments.Perm files.fragments) :
    (records w files').Perm (records w files) := by
  rw [records, hb]
  exact (List.Perm.refl _).append (hp.flatMap_right _)

/-- The order of the directory says nothing. -/
theorem Inv.perm (h : Inv w files) (hb : files'.base = files.base)
    (hp : files'.fragments.Perm files.fragments) : Inv w files' where
  base := hb ▸ h.base
  fragments f hf := h.fragments f (hp.mem_iff.1 hf)
  keys := (hp.map _).nodup_iff.2 h.keys
  ids := h.ids.perm (records_perm hb hp)
  processes := hb ▸ h.processes
  starts e he := h.starts e ((records_perm hb hp).mem_iff.1 he)
  owners f hf := h.owners f (hp.mem_iff.1 hf)

theorem Inv.groupOf_perm (h : Inv w files) (hb : files'.base = files.base)
    (hp : files'.fragments.Perm files.fragments) (t : Id) :
    groupOf w (read w files') t = groupOf w (read w files) t := by
  have h' := h.perm hb hp
  rw [read_eq h.ids, read_eq h'.ids]
  refine groupOf_congr h.ids rfl rfl (fun e _ => (records_perm hb hp).mem_iff) ?_
  rw [hb]
  rfl

/-! ### Writing back -/

variable {dir : List (Id × Bytes)} {pid : Id}

theorem mem_writeFile {text : Bytes} :
    f ∈ writeFile dir pid text ↔ f = (pid, text) ∨ f ∈ dir ∧ f.1 ≠ pid := by
  rw [writeFile]
  split_ifs with h
  · rw [mem_map]
    constructor
    · rintro ⟨g, hg, rfl⟩
      split_ifs with hp
      · exact .inl rfl
      · exact .inr ⟨hg, hp⟩
    · rintro (rfl | ⟨hf, hp⟩)
      · obtain ⟨g, hg, hp⟩ := any_eq_true.1 h
        exact ⟨g, hg, if_pos (by simpa using hp)⟩
      · exact ⟨f, hf, if_neg hp⟩
  · have hn : ∀ g ∈ dir, g.1 ≠ pid := fun g hg he =>
      h (any_eq_true.2 ⟨g, hg, by simpa using he⟩)
    rw [mem_append, mem_singleton]
    exact ⟨fun h => h.elim (fun h => .inr ⟨h, hn f h⟩) .inl, fun h => h.elim .inr fun h => .inl h.1⟩

theorem keys_writeFile (h : (dir.map Prod.fst).Nodup) (pid : Id)
    (text : Bytes) : ((writeFile dir pid text).map Prod.fst).Nodup := by
  rw [writeFile]
  split_ifs with hp
  · rw [map_map]
    have he : (dir.map (Prod.fst ∘ fun f => if f.1 = pid then (pid, text) else f)) =
        dir.map Prod.fst := by
      refine map_congr_left fun f _ => ?_
      rw [Function.comp_apply]
      split_ifs with hf
      · exact hf.symm
      · rfl
    rw [he]
    exact h
  · have hn : ∀ g ∈ dir, g.1 ≠ pid := fun g hg he =>
      hp (any_eq_true.2 ⟨g, hg, by simpa using he⟩)
    rw [map_append, nodup_append]
    refine ⟨h, nodup_singleton _, fun i hi j hj => ?_⟩
    obtain ⟨g, hg, rfl⟩ := mem_map.1 hi
    rw [mem_singleton.1 hj]
    exact hn g hg

/-- Writing files back over what is left of them. -/
theorem foldl_writeFile (fs : List (Id × Bytes)) (hfs : (fs.map Prod.fst).Nodup)
    (dir : List (Id × Bytes)) (hd : (dir.map Prod.fst).Nodup) :
    ((fs.foldl (fun dir f => writeFile dir f.1 f.2) dir).map Prod.fst).Nodup ∧
      ∀ g, g ∈ fs.foldl (fun dir f => writeFile dir f.1 f.2) dir ↔
        g ∈ fs ∨ g ∈ dir ∧ ∀ f ∈ fs, g.1 ≠ f.1 := by
  induction fs generalizing dir with
  | nil => exact ⟨hd, by simp⟩
  | cons f fs ih =>
    rw [map_cons, nodup_cons] at hfs
    obtain ⟨hn, hm⟩ := ih hfs.2 (writeFile dir f.1 f.2) (keys_writeFile hd f.1 f.2)
    refine ⟨hn, fun g => ?_⟩
    rw [foldl_cons, hm, mem_writeFile, mem_cons, forall_mem_cons]
    constructor
    · rintro (h | ⟨h | ⟨h, hne⟩, hall⟩)
      · exact .inl (.inr h)
      · exact .inl (.inl h)
      · exact .inr ⟨h, hne, hall⟩
    · rintro ((rfl | h) | ⟨h, hne, hall⟩)
      · refine .inr ⟨.inl rfl, fun g' hg' he => hfs.1 ?_⟩
        rw [he]
        exact mem_map_of_mem hg'
      · exact .inl h
      · exact .inr ⟨.inr ⟨h, hne⟩, hall⟩

/-- A commit that fails leaves the files as they were. -/
theorem rollback_perm (h : (files.fragments.map Prod.fst).Nodup) (removed : ℕ) :
    (rollback files removed).fragments.Perm files.fragments := by
  have hdrop : ((files.fragments.drop removed).map Prod.fst).Nodup :=
    List.Nodup.sublist ((drop_sublist _ _).map _) h
  obtain ⟨hn, hm⟩ := foldl_writeFile files.fragments h _ hdrop
  refine (perm_ext_iff_of_nodup (List.Nodup.of_map _ hn) (List.Nodup.of_map _ h)).2 ?_
  intro g
  refine (hm g).trans ?_
  constructor
  · rintro (hg | ⟨hg, -⟩)
    · exact hg
    · exact mem_of_mem_drop hg
  · exact .inl

/-! ### Transactions -/

/-- What a membership must be to be written. -/
structure Good (w : World) (m : Membership) : Prop where
  plain : m.Plain
  ids : Distinct m.threads
  processes : ∀ e ∈ m.processes, e.start = w.start e.id
  starts : ∀ e ∈ m.threads, e.id ∈ w.alive → e.start = w.start (w.owner e.id)

theorem Inv.good (h : Inv w files) : Good w (read w files) := by
  rw [read_eq h.ids]
  exact ⟨⟨h.plain.1, h.plain_records⟩, h.ids, h.processes, h.starts⟩

theorem Good.prune (h : Good w m) : Good w (prune w m) where
  plain := ⟨fun e he => h.plain.1 e (mem_of_mem_filter he),
    fun e he => h.plain.2 e (mem_of_mem_filter he)⟩
  ids := h.ids.sublist filter_sublist
  processes e he := h.processes e (mem_of_mem_filter he)
  starts e he := h.starts e (mem_of_mem_filter he)

theorem find?_filter_of {p : Entry → Bool} (h : ∀ e ∈ es, e.id = pid → p e = true) :
    (es.filter p).find? (·.id = pid) = es.find? (·.id = pid) := by
  induction es with
  | nil => rfl
  | cons e es ih =>
    have ih := ih fun e' he' => h e' (.tail _ he')
    rw [filter_cons]
    by_cases hid : e.id = pid
    · rw [if_pos (h e (.head _) hid)]
      simp [hid]
    · split_ifs
      · simp [hid, ih]
      · simp [hid, ih]

/-- Pruning does not touch the live threads. -/
theorem Good.groupOf_prune (h : Good w m) (hok : w.Ok)
    (ht : t ∈ w.alive) : groupOf w (Cgroup.prune w m) t = groupOf w m t := by
  refine groupOf_congr h.ids rfl rfl (fun e he => ?_) ?_
  · refine ⟨mem_of_mem_filter, fun hm => mem_filter.2 ⟨hm, ?_⟩⟩
    have hs := h.starts e hm (he ▸ ht)
    have hr := hok t ht
    subst he
    simp [World.live, World.isTask, hs, hr, ht]
  · rw [processGroup, processGroup, Cgroup.prune, find?_filter_of]
    intro e he hid
    have hr := hok t ht
    simp [World.live, h.processes e he, hid, hr]

/-- What a transaction has written is what is read. -/
theorem Good.committed (h : Good w m) : Inv w ⟨m.text, []⟩ ∧ read w ⟨m.text, []⟩ = m := by
  have hp : parse m.text = m := parse_text h.plain
  have hr : records w ⟨m.text, []⟩ = m.threads := by simp [records, hp]
  refine ⟨⟨⟨m, h.plain, rfl⟩, by simp, by simp, ?_, ?_, ?_, by simp⟩, ?_⟩
  · rw [hr]
    exact h.ids
  · rw [hp]
    exact h.processes
  · rw [hr]
    exact h.starts
  · exact hp

/-- **What a transaction leaves.**  If the text it comes to is that of the base file, no fragment is
in force. -/
theorem transact_ends (h : Inv w files) (f : Membership → Except Errno Membership) (fault : Fault)
    (hgood : ∀ m, f (prune w (read w files)) = .ok m → Good w m)
    (hquiet : ∀ m, f (prune w (read w files)) = .ok m → m.text = files.base →
      ∀ x ∈ files.fragments, fragmentRecords w x = []) :
    Inv w (transact w files f fault).2 ∧
      ((transact w files f fault).1 = .ok () → ∃ m, f (prune w (read w files)) = .ok m ∧
        read w (transact w files f fault).2 = m) ∧
      ((transact w files f fault).1 ≠ .ok () → ∀ t,
        groupOf w (read w (transact w files f fault).2) t = groupOf w (read w files) t) := by
  rw [transact]
  cases hf : f (prune w (read w files)) with
  | error e => exact ⟨h, by simp, fun _ _ => rfl⟩
  | ok m =>
    have hg := hgood m hf
    dsimp only
    by_cases ht : m.text ≠ files.base
    · rw [if_pos ht]
      cases fault with
      | none => exact ⟨hg.committed.1, fun _ => ⟨m, rfl, hg.committed.2⟩, by simp⟩
      | host => exact ⟨h, by simp, fun _ _ => rfl⟩
      | file removed =>
        have hp := rollback_perm h.keys removed
        have hb : (rollback files removed).base = files.base := rfl
        exact ⟨h.perm hb hp, by simp, fun _ t => h.groupOf_perm hb hp t⟩
    · rw [if_neg ht]
      rw [not_not] at ht
      refine ⟨h, fun _ => ⟨m, rfl, ?_⟩, by simp⟩
      have hnone : files.fragments.flatMap (fragmentRecords w) = [] :=
        flatMap_eq_nil_iff.2 (hquiet m hf ht)
      rw [read_eq h.ids, records, hnone, append_nil, ← ht, parse_text hg.plain]

end Inv

end Cgroup
