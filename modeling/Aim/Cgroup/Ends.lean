import Aim.Cgroup.Records

/-!
# Cgroup — what the operations leave

Every operation on the files of a hierarchy keeps their invariant, and says what becomes of the
groups of the live threads.

* `forget_ends`: the records of threads that exited go, and nothing else changes.
* `moveTask_ends`: a move sets the groups of the threads it takes, or fails and sets none.
* `Inv.ended`: a process ends with its threads.
* `inherit_ends`: a new thread is in its creator's group.
-/

namespace Cgroup

open List

variable {w : World} {files : Files}

/-! ### Exits -/

/-- If a transaction comes to the text of the base file, no fragment is in force. -/
def Rewrites (w : World) (files : Files) (f : Membership → Membership) : Prop :=
  (f (prune w (read w files))).text = files.base →
    ∀ x ∈ files.fragments, inForce w x.1 (parse x.2) = false

theorem Rewrites.quiet {f : Membership → Membership} (h : Rewrites w files f) :
    ∀ m, (.ok (f (prune w (read w files))) : Except Errno Membership) = .ok m →
      m.text = files.base → ∀ x ∈ files.fragments, fragmentRecords w x = [] := by
  rintro m hm ht x hx
  cases hm
  rw [fragmentRecords, h ht x hx]
  rfl

/-- The membership without the records of some threads. -/
def dropRecords (gone : Id → Bool) (m : Membership) : Membership :=
  { m with threads := m.threads.filter fun e => !gone e.id }

variable {m : Membership}

theorem Good.dropRecords (h : Good w m) (gone : Id → Bool) :
    Good w (dropRecords gone m) where
  plain := ⟨h.plain.1, fun e he => h.plain.2 e (mem_of_mem_filter he)⟩
  ids := h.ids.sublist filter_sublist
  processes := h.processes
  starts e he := h.starts e (mem_of_mem_filter he)

variable {gone : Id → Bool}

theorem Good.groupOf_dropRecords (h : Good w m) {t : Id}
    (ht : gone t = false) : groupOf w (Cgroup.dropRecords gone m) t = groupOf w m t := by
  refine groupOf_congr h.ids rfl rfl (fun e he => ?_) rfl
  refine ⟨mem_of_mem_filter, fun hm => mem_filter.2 ⟨hm, ?_⟩⟩
  rw [he, ht]
  rfl

/-- Records of what is gone are dropped, and nobody alive changes group. -/
theorem forget_ends (h : Inv w files) (hok : w.Ok) (fault : Fault)
    (hgone : ∀ t ∈ w.alive, gone t = false)
    (hfit : (∃ e ∈ (read w files).threads, gone e.id = true) →
      Rewrites w files (dropRecords gone)) :
    Inv w (forget w files gone fault) ∧ ∀ t ∈ w.alive,
      groupOf w (read w (forget w files gone fault)) t = groupOf w (read w files) t := by
  rw [forget]
  split_ifs with hany
  · have hfit := hfit (by simpa using hany)
    have hgood := (h.good.prune).dropRecords gone
    obtain ⟨hinv, hdone, hfailed⟩ := transact_ends h
      (fun m => .ok (dropRecords gone m)) fault (fun m hm => by cases hm; exact hgood) hfit.quiet
    refine ⟨hinv, fun t ht => ?_⟩
    by_cases hr : (transact w files (fun m => .ok (dropRecords gone m)) fault).1 = .ok ()
    · obtain ⟨m, hm, hread⟩ := hdone hr
      cases hm
      refine (congrArg (groupOf w · t) hread).trans ?_
      rw [h.good.prune.groupOf_dropRecords (hgone t ht), h.good.groupOf_prune hok ht]
    · exact hfailed hr t
  · exact ⟨h, fun _ _ => rfl⟩

/-! ### Moves -/

variable {t : Id} {e : Entry}

theorem find?_append_singleton {es : List Entry}
    (h : ∀ x ∈ es, x.id ≠ t) (he : e.id = t) : (es ++ [e]).find? (·.id = t) = some e := by
  have hnone : es.find? (·.id = t) = none :=
    find?_eq_none.2 fun x hx => by simpa using h x hx
  rw [find?_append, hnone]
  simp [he]

variable {group : Bytes} {tid : Id}

theorem Good.moveThread (h : Good w m)
    (hg : PlainGroup group) : Good w (moveThread w tid group m) := by
  have hrest : ∀ e ∈ m.threads.filter (·.id ≠ tid), e ∈ m.threads ∧ e.id ≠ tid := by
    simp
  have hmem : ∀ e ∈ (Cgroup.moveThread w tid group m).threads,
      e ∈ m.threads ∨ e = ⟨tid, w.start (w.owner tid), group⟩ := by
    intro e he
    rw [Cgroup.moveThread] at he
    split_ifs at he
    · rcases mem_append.1 he with he | he
      · exact .inl (hrest e he).1
      · exact .inr (mem_singleton.1 he)
    · exact .inl (hrest e he).1
  refine ⟨⟨h.plain.1, fun e he => ?_⟩, ?_, h.processes, fun e he ha => ?_⟩
  · rcases hmem e he with he | rfl
    · exact h.plain.2 e he
    · exact hg
  · rw [Cgroup.moveThread]
    split_ifs
    · exact distinct_append_singleton (h.ids.sublist filter_sublist)
        fun x hx => (hrest x hx).2
    · exact h.ids.sublist filter_sublist
  · rcases hmem e he with he | rfl
    · exact h.starts e he ha
    · rfl

/-- A moved thread is in its new group, and no other thread moves. -/
theorem Good.groupOf_moveThread (h : Good w m) (t : Id) :
    groupOf w (Cgroup.moveThread w tid group m) t = if t = tid then group else groupOf w m t := by
  have hrest : ∀ e ∈ m.threads.filter (·.id ≠ tid), e.id ≠ tid := by
    simp
  split_ifs with ht
  · subst ht
    by_cases hp : processGroup m (w.owner t) = group
    · -- the thread has no record, and its process is in the group
      have hnone : (m.threads.filter (·.id ≠ t)).find? (·.id = t) = none :=
        find?_eq_none.2 fun x hx => by simpa using hrest x hx
      simp only [groupOf, Cgroup.moveThread, hp, ne_eq, not_true_eq_false, if_false]
      rw [hnone]
      exact hp
    · simp only [groupOf, Cgroup.moveThread, ne_eq, hp, not_false_eq_true, if_true]
      rw [find?_append_singleton hrest rfl]
  · refine groupOf_congr h.ids rfl rfl (fun e he => ?_) rfl
    have hne : e.id ≠ tid := he ▸ ht
    have hne' : e ≠ ⟨tid, w.start (w.owner tid), group⟩ := fun hc => hne (congrArg Entry.id hc)
    rw [Cgroup.moveThread]
    split_ifs
    · simp [hne, hne']
    · simp [hne]

variable {tid pid : Id}

theorem mem_hosts :
    pid ∈ hosts w tid ↔ ∃ t ∈ w.alive,
      (w.owner t = w.tgid (w.owner tid) ∨ w.tgid (w.owner t) = w.tgid (w.owner tid)) ∧
        w.owner t = pid := by
  rw [hosts, mem_dedup, mem_map]
  constructor
  · rintro ⟨t, ht, rfl⟩
    have ht := mem_filter.1 ht
    exact ⟨t, ht.1, by simpa [World.isTask, ht.1] using ht.2, rfl⟩
  · rintro ⟨t, ht, hp, rfl⟩
    exact ⟨t, mem_filter.2 ⟨ht, by simpa [World.isTask, ht] using hp⟩, rfl⟩

theorem Good.moveProcess (h : Good w m)
    (hg : PlainGroup group) : Good w (moveProcess w tid group m) := by
  have hmem : ∀ e ∈ (Cgroup.moveProcess w tid group m).processes,
      e ∈ m.processes ∨ ∃ pid, e = ⟨pid, w.start pid, group⟩ := by
    intro e he
    rcases mem_append.1 he with he | he
    · exact .inl (mem_of_mem_filter he)
    · split_ifs at he
      · obtain ⟨pid, -, rfl⟩ := mem_map.1 he
        exact .inr ⟨pid, rfl⟩
      · cases he
  refine ⟨⟨fun e he => ?_, fun e he => h.plain.2 e (mem_of_mem_filter he)⟩,
    h.ids.sublist filter_sublist, fun e he => ?_,
    fun e he => h.starts e (mem_of_mem_filter he)⟩
  · rcases hmem e he with he | ⟨pid, rfl⟩
    · exact h.plain.1 e he
    · exact hg
  · rcases hmem e he with he | ⟨pid, rfl⟩
    · exact h.processes e he
    · rfl

theorem processGroup_moveProcess (pid : Id) :
    processGroup (moveProcess w tid group m) pid =
      if pid ∈ hosts w tid then group else processGroup m pid := by
  have hold : pid ∈ hosts w tid →
      (m.processes.filter fun e => e.id ∉ hosts w tid).find? (·.id = pid) = none := by
    intro hp
    refine find?_eq_none.2 fun e he hid => ?_
    have hid : e.id = pid := by simpa using hid
    have hn := (mem_filter.1 he).2
    rw [hid] at hn
    exact (of_decide_eq_true hn) hp
  have hkeep : pid ∉ hosts w tid →
      (m.processes.filter fun e => e.id ∉ hosts w tid).find? (·.id = pid) =
        m.processes.find? (·.id = pid) :=
    fun hp => find?_filter_of fun e _ hid => decide_eq_true (hid ▸ hp)
  have hnew : ((hosts w tid).map fun p => (⟨p, w.start p, group⟩ : Entry)).find? (·.id = pid) =
      if pid ∈ hosts w tid then some ⟨pid, w.start pid, group⟩ else none := by
    induction hosts w tid with
    | nil => rfl
    | cons p ps ih =>
      rw [map_cons, find?_cons, ih]
      by_cases hp : p = pid
      · simp [hp]
      · simp [hp, Ne.symm hp]
  rw [processGroup, moveProcess, find?_append]
  by_cases hp : pid ∈ hosts w tid
  · rw [hold hp, if_pos hp]
    by_cases hr : group = root
    · simp [hr]
    · rw [if_pos hr, hnew, if_pos hp]
      rfl
  · rw [hkeep hp, if_neg hp, processGroup]
    by_cases hr : group = root
    · simp [hr]
    · rw [if_pos hr, hnew, if_neg hp, Option.or_none]

/-- A moved process takes all its threads along. -/
theorem Good.groupOf_moveProcess (h : Good w m) (t : Id) :
    groupOf w (Cgroup.moveProcess w tid group m) t =
      if w.owner t ∈ hosts w tid then group else groupOf w m t := by
  split_ifs with ht
  · have hnone : (Cgroup.moveProcess w tid group m).threads.find? (·.id = t) = none := by
      refine find?_eq_none.2 fun e he hid => ?_
      have hid : e.id = t := by simpa using hid
      have hn := (mem_filter.1 he).2
      rw [hid] at hn
      exact (of_decide_eq_true hn) ht
    rw [groupOf, hnone, processGroup_moveProcess]
    exact if_pos ht
  · refine groupOf_congr h.ids rfl rfl (fun e he => ?_) ?_
    · refine ⟨mem_of_mem_filter, fun hm => mem_filter.2 ⟨hm, ?_⟩⟩
      rw [he]
      exact decide_eq_true ht
    · rw [processGroup_moveProcess, if_neg ht]

/-- The threads that a move takes. -/
def Moves (w : World) (procs : Bool) (tid t : Id) : Prop :=
  if procs then
    t ∈ w.alive ∧ (w.owner t = w.tgid (w.owner tid) ∨ w.tgid (w.owner t) = w.tgid (w.owner tid))
  else t = tid

instance (w : World) (procs : Bool) (tid t : Id) : Decidable (Moves w procs tid t) := by
  unfold Moves
  infer_instance

/-- What a move does to the membership. -/
def moved (w : World) (procs : Bool) (tid : Id) (group : Bytes) (m : Membership) : Membership :=
  if procs then moveProcess w tid group m else moveThread w tid group m

variable {procs : Bool}

theorem Good.moved (h : Good w m) (hg : PlainGroup group) : Good w (moved w procs tid group m) := by
  rw [Cgroup.moved]
  split_ifs
  · exact h.moveProcess hg
  · exact h.moveThread hg

/-- Both kinds of move, by what they move. -/
theorem Good.groupOf_moved (h : Good w m) (ht : t ∈ w.alive) :
    groupOf w (Cgroup.moved w procs tid group m) t =
      if Moves w procs tid t then group else groupOf w m t := by
  cases procs with
  | false => exact h.groupOf_moveThread t
  | true =>
    refine (h.groupOf_moveProcess t).trans (if_congr ?_ rfl rfl)
    rw [mem_hosts]
    constructor
    · rintro ⟨x, -, hx, ho⟩
      exact ⟨ht, ho ▸ hx⟩
    · rintro ⟨-, hx⟩
      exact ⟨t, ht, hx, rfl⟩

/-- **What a move leaves.** -/
theorem moveTask_ends (h : Inv w files) (hok : w.Ok) (allowed : Bool) (fault : Fault)
    (hg : PlainGroup group) (hfit : Rewrites w files (moved w procs tid group)) :
    Inv w (moveTask w files procs tid group allowed fault).2 ∧ ∀ t ∈ w.alive,
      groupOf w (read w (moveTask w files procs tid group allowed fault).2) t =
        if (moveTask w files procs tid group allowed fault).1.isOk ∧ Moves w procs tid t then group
        else groupOf w (read w files) t := by
  have hrefused : ∀ e : Errno, Inv w ((.error e, files) : Except Errno Unit × Files).2 ∧
      ∀ t ∈ w.alive, groupOf w (read w ((.error e, files) : Except Errno Unit × Files).2) t =
        if ((.error e, files) : Except Errno Unit × Files).1.isOk ∧ Moves w procs tid t then group
        else groupOf w (read w files) t := by
    intro e
    refine ⟨h, fun t _ => ?_⟩
    simp [Except.isOk, Except.toBool]
  have hmade : Inv w (transact w files (fun m => .ok (moved w procs tid group m)) fault).2 ∧
      ∀ t ∈ w.alive,
        groupOf w
          (read w (transact w files (fun m => .ok (moved w procs tid group m)) fault).2) t =
          if (transact w files (fun m => .ok (moved w procs tid group m)) fault).1.isOk ∧
              Moves w procs tid t then group
          else groupOf w (read w files) t := by
    obtain ⟨hinv, hdone, hfailed⟩ := transact_ends h
      (fun m => .ok (moved w procs tid group m)) fault
      (fun m hm => by cases hm; exact h.good.prune.moved hg) hfit.quiet
    refine ⟨hinv, fun t ht => ?_⟩
    cases hr : (transact w files (fun m => .ok (moved w procs tid group m)) fault).1 with
    | ok u =>
      obtain ⟨m, hm, hread⟩ := hdone hr
      cases hm
      rw [hread, h.good.prune.groupOf_moved ht, h.good.groupOf_prune hok ht]
      simp [Except.isOk, Except.toBool]
    | error e =>
      rw [hfailed (by simp [hr]) t]
      simp [Except.isOk, Except.toBool]
  rw [moveTask]
  split_ifs with h1 h2 h3 h4
  · exact hrefused .esrch
  · exact hrefused .eacces
  · exact hrefused .esrch
  · subst h3
    exact hmade
  · rw [Bool.not_eq_true] at h3
    subst h3
    exact hmade

/-! ### Ends of threads and processes -/

theorem Inv.without (h : Inv w files) (gone : Id → Bool) : Inv (w.without gone) files where
  base := h.base
  fragments := h.fragments
  keys := h.keys
  ids := h.ids
  processes := h.processes
  starts e he ha := h.starts e he (mem_of_mem_filter ha)
  owners f hf e he ha := h.owners f hf e he (mem_of_mem_filter ha)

theorem live_ended {p : Id} {start : Start} (h : p ≠ pid) :
    (w.ended pid).live p start = w.live p start := by
  simp [World.live, World.ended, World.without, h]

/-- The records of a process that ended do not count. -/
theorem fragmentRecords_ended {f : Id × Bytes} :
    fragmentRecords (w.ended pid) f = if f.1 = pid then [] else fragmentRecords w f := by
  split_ifs with hp
  · have hdead : ∀ start, (w.ended pid).live f.1 start = false := by
      simp [World.live, World.ended, hp]
    have hf : inForce (w.ended pid) f.1 (parse f.2) = false := by
      rw [inForce]
      cases (parse f.2).threads.head? with
      | none => rfl
      | some e => exact hdead e.start
    rw [fragmentRecords, hf]
    rfl
  · have hf : inForce (w.ended pid) f.1 (parse f.2) = inForce w f.1 (parse f.2) := by
      rw [inForce, inForce]
      cases (parse f.2).threads.head? with
      | none => rfl
      | some e => exact live_ended hp
    rw [fragmentRecords, fragmentRecords, hf]

theorem records_ended_sublist : (records (w.ended pid) files).Sublist (records w files) := by
  refine (List.Sublist.refl _).append ?_
  induction files.fragments with
  | nil => exact List.Sublist.refl _
  | cons f fs ih =>
    rw [flatMap_cons, fragmentRecords_ended]
    refine List.Sublist.append ?_ ih
    split_ifs
    · exact nil_sublist _
    · exact List.Sublist.refl _

theorem mem_alive_ended : t ∈ (w.ended pid).alive ↔ t ∈ w.alive ∧ w.owner t ≠ pid := by
  simp [World.ended, World.without]

/-- The fragment of a process that ended holds no record of a live thread. -/
theorem Inv.ended (h : Inv w files) (pid : Id) :
    Inv (w.ended pid) files ∧ ∀ t ∈ (w.ended pid).alive,
      groupOf (w.ended pid) (read (w.ended pid) files) t = groupOf w (read w files) t := by
  have hinv : Inv (w.ended pid) files :=
    { base := h.base
      fragments := h.fragments
      keys := h.keys
      ids := h.ids.sublist records_ended_sublist
      processes := h.processes
      starts := fun e he ha =>
        h.starts e (records_ended_sublist.subset he) (mem_alive_ended.1 ha).1
      owners := fun f hf e he ha => by
        rw [fragmentRecords_ended] at he
        split_ifs at he
        · cases he
        · exact h.owners f hf e he (mem_alive_ended.1 ha).1 }
  refine ⟨hinv, fun t ht => ?_⟩
  rw [read_eq h.ids, read_eq hinv.ids]
  refine groupOf_congr h.ids rfl rfl (fun e he => ?_) rfl
  refine ⟨fun hm => records_ended_sublist.subset hm, fun hm => ?_⟩
  rcases mem_append.1 hm with hm | hm
  · exact mem_append_left _ hm
  obtain ⟨f, hf, hm⟩ := mem_flatMap.1 hm
  refine mem_append_right _ (mem_flatMap.2 ⟨f, hf, ?_⟩)
  have halive := mem_alive_ended.1 ht
  rw [← he] at halive
  rw [fragmentRecords_ended, if_neg]
  · exact hm
  · rw [← h.owners f hf e hm halive.1]
    exact halive.2

/-! ### Births -/

variable {creator : Id}

theorem owner_birth (h : t ≠ tid) : (w.birth creator tid).owner t = w.owner t :=
  Function.update_of_ne h _ _

theorem owner_birth_self :
    (w.birth creator tid).owner tid = w.owner creator := Function.update_self _ _ _

/-- A new thread has no record left from another of its tid. -/
theorem Inv.birth (h : Inv w files) (hfree : ∀ e ∈ records w files, e.id ≠ tid) :
    Inv (w.birth creator tid) files where
  base := h.base
  fragments := h.fragments
  keys := h.keys
  ids := h.ids
  processes := h.processes
  starts e he ha := by
    have hne := hfree e he
    rw [owner_birth hne]
    exact h.starts e he ((mem_cons.1 ha).resolve_left hne)
  owners f hf e he ha := by
    have hne := hfree e (mem_append_right _ (mem_flatMap.2 ⟨f, hf, he⟩))
    rw [owner_birth hne]
    exact h.owners f hf e he ((mem_cons.1 ha).resolve_left hne)

variable {dir : List (Id × Bytes)} {text : Bytes}

theorem mem_of_lookup (h : dir.lookup pid = some text) : (pid, text) ∈ dir := by
  induction dir with
  | nil => cases h
  | cons f fs ih =>
    rw [lookup_cons] at h
    by_cases hp : pid = f.1
    · subst hp
      simp at h
      subst h
      exact .head _
    · rw [beq_false_of_ne hp] at h
      exact .tail _ (ih h)

theorem not_mem_of_lookup (h : dir.lookup pid = none) : ∀ f ∈ dir, f.1 ≠ pid := by
  intro f hf hp
  rw [lookup_eq_none_iff] at h
  simpa [hp] using h f hf

/-- A file that is written again: the records of the others stay where they are. -/
theorem flatMap_writeFile (hkeys : (dir.map Prod.fst).Nodup) {g : Id × Bytes → List Entry}
    {new : List Entry}
    (hnew : g (pid, text) = ((dir.lookup pid).elim [] fun t => g (pid, t)) ++ new) :
    ((writeFile dir pid text).flatMap g).Perm (dir.flatMap g ++ new) := by
  cases hl : dir.lookup pid with
  | none =>
    have hn := not_mem_of_lookup hl
    have hany : dir.any (·.1 = pid) = false := by
      rw [any_eq_false]
      intro f hf
      simpa using hn f hf
    rw [hl] at hnew
    rw [writeFile, hany, if_neg (by simp), flatMap_append, flatMap_singleton, hnew]
    exact List.Perm.refl _
  | some old =>
    obtain ⟨l, r, rfl⟩ := append_of_mem (mem_of_lookup hl)
    rw [hl] at hnew
    rw [map_append, map_cons, nodup_append, nodup_cons] at hkeys
    have hleft : ∀ f ∈ l, f.1 ≠ pid := fun f hf =>
      hkeys.2.2 f.1 (mem_map_of_mem hf) pid (.head _)
    have hright : ∀ f ∈ r, f.1 ≠ pid := fun f hf hp =>
      hkeys.2.1.1 (mem_map.2 ⟨f, hf, hp⟩)
    have hsame : ∀ fs : List (Id × Bytes), (∀ f ∈ fs, f.1 ≠ pid) →
        (fs.map fun f => if f.1 = pid then (pid, text) else f) = fs := by
      intro fs hfs
      refine (map_congr_left fun f hf => if_neg (hfs f hf)).trans (map_id _)
    rw [writeFile, if_pos (by simp), map_append, map_cons, hsame l hleft,
      hsame r hright, if_pos rfl]
    simp only [flatMap_append, flatMap_cons, hnew, Option.elim_some, append_assoc]
    refine (List.Perm.refl _).append ((List.Perm.refl _).append ?_)
    exact perm_append_comm

/-- The records in a process's own fragment. -/
def ownRecords (w : World) (files : Files) (pid : Id) : List Entry :=
  (files.fragments.lookup pid).elim [] fun text => fragmentRecords w (pid, text)

variable (h : Inv w files)

include h

theorem Inv.ownRecords_eq (hrun : pid ∈ w.running) :
    (parse ((files.fragments.lookup pid).getD [])).processes = [] ∧
      (parse ((files.fragments.lookup pid).getD [])).threads = ownRecords w files pid ∧
        ∀ e ∈ ownRecords w files pid, e.start = w.start pid ∧ e ∈ records w files := by
  rw [ownRecords]
  cases hl : files.fragments.lookup pid with
  | none => exact ⟨rfl, rfl, by simp⟩
  | some text =>
    have hmem := mem_of_lookup hl
    obtain ⟨hp, ht⟩ := h.fragment hmem
    have hforce : fragmentRecords w (pid, text) = (parse text).threads := by
      rw [fragmentRecords]
      cases hhead : (parse text).threads.head? with
      | none =>
        rw [head?_eq_none_iff] at hhead
        simp [hhead]
      | some e =>
        have he := (ht e (mem_of_head? hhead)).2
        simp [inForce, hhead, World.live, hrun, he]
    refine ⟨hp, hforce.symm, fun e he => ⟨?_, ?_⟩⟩
    · exact (ht e (mem_fragmentRecords he)).2
    · exact mem_append_right _ (mem_flatMap.2 ⟨_, hmem, he⟩)

theorem Inv.owner_own (he : e ∈ ownRecords w files pid)
    (ha : e.id ∈ w.alive) : w.owner e.id = pid := by
  rw [ownRecords] at he
  cases hl : files.fragments.lookup pid with
  | none =>
    rw [hl] at he
    cases he
  | some text =>
    rw [hl] at he
    exact h.owners _ (mem_of_lookup hl) e he ha

theorem Inv.distinct_own (pid : Id) :
    Distinct ((parse files.base).threads ++ ownRecords w files pid) := by
  refine h.ids.sublist ((List.Sublist.refl _).append ?_)
  rw [ownRecords]
  cases hl : files.fragments.lookup pid with
  | none => exact nil_sublist _
  | some text =>
    obtain ⟨l, r, hlr⟩ := append_of_mem (mem_of_lookup hl)
    rw [hlr, flatMap_append]
    exact (sublist_append_left _ _).trans (sublist_append_right _ _)

/-- A live thread's record is in the base file or in its own process's fragment. -/
theorem Inv.mem_own (ht : t ∈ w.alive) (he : e ∈ records w files)
    (hid : e.id = t) : e ∈ (parse files.base).threads ++ ownRecords w files (w.owner t) := by
  rcases mem_append.1 he with he | he
  · exact mem_append_left _ he
  obtain ⟨⟨pid, text⟩, hf, he⟩ := mem_flatMap.1 he
  refine mem_append_right _ ?_
  have ho : w.owner t = pid := hid ▸ h.owners _ hf e he (hid.symm ▸ ht)
  cases hl : files.fragments.lookup pid with
  | none => exact absurd rfl (not_mem_of_lookup hl _ hf)
  | some text' =>
    have heq := inj_on_of_nodup_map h.keys hf (mem_of_lookup hl) rfl
    cases heq
    rw [ownRecords, ho, hl]
    exact he

/-- **What a birth writes**: nothing, or one record in the process's fragment. -/
theorem inherit_cases (hok : w.Ok) (hc : creator ∈ w.alive)
    (hfree : ∀ e ∈ records w files, e.id ≠ tid) :
    (inherit files (w.owner creator) creator tid (w.start (w.owner creator)) = files ∧
        ∀ e ∈ records w files, e.id ≠ creator) ∨
      ∃ e ∈ records w files, e.id = creator ∧
        inherit files (w.owner creator) creator tid (w.start (w.owner creator)) =
          { files with
            fragments := writeFile files.fragments (w.owner creator)
              (⟨[], ownRecords w files (w.owner creator) ++
                [⟨tid, w.start (w.owner creator), e.group⟩]⟩ : Membership).text } := by
  obtain ⟨hprocs, hthreads, hown⟩ := h.ownRecords_eq (hok creator hc)
  have hcreator : ∀ e ∈ records w files, e.id = creator →
      (e.id = creator && e.start = w.start (w.owner creator)) = true := by
    intro e he hid
    have hs := h.starts e he (hid.symm ▸ hc)
    simp [hid, hs]
  rw [inherit]
  dsimp only
  rw [hthreads, hprocs]
  split_ifs with hnone
  · -- no fragment, and no record of the creator in the base file
    refine .inl ⟨rfl, fun e he hid => ?_⟩
    have hm := h.mem_own hc he hid
    rw [ownRecords, hnone.1] at hm
    simp only [Option.elim_none, append_nil] at hm
    exact any_eq_false.1 hnone.2 e hm (hcreator e he hid)
  · have hstart : (ownRecords w files (w.owner creator)).filter
        (·.start = w.start (w.owner creator)) = ownRecords w files (w.owner creator) :=
      filter_eq_self.2 fun e he => decide_eq_true (hown e he).1
    have htid : (ownRecords w files (w.owner creator)).filter (·.id ≠ tid) =
        ownRecords w files (w.owner creator) :=
      filter_eq_self.2 fun e he => decide_eq_true (hfree e (hown e he).2)
    rw [hstart, htid, merge_eq (h.distinct_own _)]
    split
    · next e hfind =>
        have hm := mem_of_find?_eq_some hfind
        have hid := find?_some hfind
        rw [Bool.and_eq_true, decide_eq_true_eq] at hid
        refine .inr ⟨e, ?_, hid.1, rfl⟩
        rcases mem_append.1 hm with hm | hm
        · exact mem_append_left _ hm
        · exact (hown e hm).2
    · next hfind =>
        refine .inl ⟨rfl, fun e he hid => ?_⟩
        exact find?_eq_none.1 hfind e (h.mem_own hc he hid) (hcreator e he hid)

/-- The fragment that a birth writes. -/
theorem fragmentRecords_own (hok : w.Ok)
    (hc : creator ∈ w.alive) (tid : Id) (hg : PlainGroup group) :
    (∀ e ∈ ownRecords w files (w.owner creator) ++ [⟨tid, w.start (w.owner creator), group⟩],
        PlainGroup e.group ∧ e.start = w.start (w.owner creator)) ∧
      fragmentRecords w (w.owner creator,
          (⟨[], ownRecords w files (w.owner creator) ++
            [⟨tid, w.start (w.owner creator), group⟩]⟩ : Membership).text) =
        ownRecords w files (w.owner creator) ++ [⟨tid, w.start (w.owner creator), group⟩] := by
  obtain ⟨-, -, hown⟩ := h.ownRecords_eq (hok creator hc)
  have hall : ∀ e ∈ ownRecords w files (w.owner creator) ++
      [⟨tid, w.start (w.owner creator), group⟩],
        PlainGroup e.group ∧ e.start = w.start (w.owner creator) := by
    intro e he
    rcases mem_append.1 he with he | he
    · exact ⟨h.plain_records e (hown e he).2, (hown e he).1⟩
    · rw [mem_singleton.1 he]
      exact ⟨hg, rfl⟩
  refine ⟨hall, ?_⟩
  rw [fragmentRecords, parse_text ⟨by simp, fun e he => (hall e he).1⟩]
  rw [inForce]
  split
  · next e hhead =>
      simp [World.live, (hall e (mem_of_head? hhead)).2, hok creator hc]
  · next hhead => simp at hhead

/-- **A birth copies the creator's group.** -/
theorem inherit_ends (hok : w.Ok) (hc : creator ∈ w.alive)
    (ht : tid ∉ w.alive) (hfree : ∀ e ∈ records w files, e.id ≠ tid) :
    let files' := inherit files (w.owner creator) creator tid (w.start (w.owner creator))
    let w' := w.birth creator tid
    Inv w' files' ∧
      (∀ t ∈ w.alive, groupOf w' (read w' files') t = groupOf w (read w files) t) ∧
      groupOf w' (read w' files') tid = groupOf w (read w files) creator := by
  intro files' w'
  have hread : ∀ fs, read w' fs = read w fs := fun _ => rfl
  have hbirth : Inv w' files := h.birth hfree
  have howner : ∀ t ∈ w.alive, w'.owner t = w.owner t := fun t hta =>
    owner_birth fun hc => ht (hc ▸ hta)
  have hself : w'.owner tid = w.owner creator := owner_birth_self
  rcases inherit_cases h hok hc hfree with ⟨hsame, hnone⟩ | ⟨e, he, hid, hwrite⟩
  · have hsame : files' = files := hsame
    rw [hsame, hread]
    refine ⟨hbirth, fun t hta => ?_, ?_⟩
    · rw [groupOf, groupOf, howner t hta]
    have hfind : ∀ t, (∀ e ∈ records w files, e.id ≠ t) →
        (read w files).threads.find? (·.id = t) = none := by
      intro t hn
      rw [read_eq h.ids]
      exact find?_eq_none.2 fun e he => by simpa using hn e he
    rw [groupOf, groupOf, hfind tid hfree, hfind creator hnone, hself]
  · obtain ⟨hall, hfrag⟩ := fragmentRecords_own h hok hc tid (h.plain_records e he)
    have hperm : (records w files').Perm
        (records w files ++ [⟨tid, w.start (w.owner creator), e.group⟩]) := by
      rw [show files' = _ from hwrite, records, records, append_assoc]
      exact (List.Perm.refl _).append (flatMap_writeFile h.keys hfrag)
    have hmem : ∀ x, x ∈ records w files' ↔
        x ∈ records w files ∨ x = ⟨tid, w.start (w.owner creator), e.group⟩ := by
      intro x
      rw [hperm.mem_iff, mem_append, mem_singleton]
    have hids : Distinct (records w files') :=
      (distinct_append_singleton h.ids hfree).perm hperm
    have hbase : files'.base = files.base := by rw [show files' = _ from hwrite]
    have hinv : Inv w' files' := by
      refine ⟨hbase ▸ h.base, fun f hf => ?_, ?_, hids, hbase ▸ h.processes, fun x hx hxa => ?_,
        fun f hf x hx hxa => ?_⟩
      · rw [show files' = _ from hwrite] at hf
        rcases mem_writeFile.1 hf with rfl | ⟨hf, -⟩
        · exact ⟨_, hall, rfl⟩
        · exact h.fragments f hf
      · rw [show files' = _ from hwrite]
        exact keys_writeFile h.keys _ _
      · rcases (hmem x).1 hx with hx | rfl
        · exact hbirth.starts x hx hxa
        · rw [hself]
          rfl
      · rw [show files' = _ from hwrite] at hf
        rcases mem_writeFile.1 hf with rfl | ⟨hf, -⟩
        · have hx : x ∈ ownRecords w files (w.owner creator) ++ _ := hfrag ▸ hx
          rcases mem_append.1 hx with hx | hx
          · exact hbirth.owner_own hx hxa
          · rw [mem_singleton.1 hx]
            exact hself
        · exact hbirth.owners f hf x hx hxa
    refine ⟨hinv, fun t hta => ?_, ?_⟩
    · rw [hread, read_eq h.ids, read_eq hids]
      refine groupOf_congr h.ids rfl (howner t hta) (fun x hx => ?_) ?_
      · rw [hmem]
        refine or_iff_left fun hxe => ht ?_
        rw [hxe] at hx
        have hx : tid = t := hx
        exact hx ▸ hta
      · rw [hbase]
        rfl
    · rw [hread, read_eq h.ids, read_eq hids, groupOf, groupOf,
        find?_eq hids ((hmem _).2 (.inr rfl)) rfl, find?_eq h.ids he hid]

end Cgroup
