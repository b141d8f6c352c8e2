import Aim.Cgroup.Ends

/-!
# Cgroup — membership is a plain table

The files of a hierarchy stand for a table that has the group of each live thread: a new thread
starts in its creator's group, a move of a process sets all its threads, a move of a thread sets that
one, and a thread that exits leaves the table (`Plain.after`).

* `membership_is_a_table`: what is read is the table, after every run that fits.
* `move_out_of_fragment_lost`: a transaction that comes to the text of the base file writes nothing,
  and leaves the fragments in force.  A thread with a record in a fragment, moved back to its
  process's group, is reported to have moved and has not.
-/

namespace Cgroup

/-! ### The table -/

section Table

variable {H : Type} [DecidableEq H]

/-- The group of each live thread, by hierarchy. -/
abbrev Plain (H : Type) := H → Id → Option Bytes

/-- What an operation does to the table; `done` says whether it was made. -/
def Plain.after (p : Plain H) (w : World) (done : Bool) : Op H → Plain H
  | .birth creator tid => fun h t => if done ∧ t = tid then p h creator else p h t
  | .exit tid _ => fun h t => if t = tid then none else p h t
  | .exec pid _ => fun h t => if t ≠ pid ∧ w.owner t = pid then none else p h t
  | .ended pid => fun h t => if w.owner t = pid then none else p h t
  | .move h procs tid group _ _ => fun h' t =>
    if done ∧ h' = h ∧ Moves w procs tid t then some group else p h' t

/-- The files and the table after a run. -/
def run (s : State H) (p : Plain H) : List (Op H) → State H × Plain H
  | [] => (s, p)
  | op :: ops => run (step s op).2 (p.after s.world (step s op).1 op) ops

/-- The operations that the files follow: the tid of a new thread has no record left, the name of a
group can be written in a line, and a transaction that comes to the text of the base file finds no
fragment in force. -/
def Fits (s : State H) : Op H → Prop
  | .birth _ tid => ∀ h, ∀ e ∈ (read s.world (s.files h)).threads, e.id ≠ tid
  | .exit tid _ => ∀ h, (∃ e ∈ (read s.world (s.files h)).threads, e.id = tid) →
      Rewrites (s.world.without fun t => t = tid) (s.files h) (dropRecords fun t => t = tid)
  | .exec pid _ => ∀ h,
      (∃ e ∈ (read s.world (s.files h)).threads, e.id ≠ pid ∧ s.world.owner e.id = pid) →
        Rewrites (s.world.without fun t => t ≠ pid && s.world.owner t = pid) (s.files h)
          (dropRecords fun t => t ≠ pid && s.world.owner t = pid)
  | .ended _ => True
  | .move h procs tid group _ _ =>
    PlainGroup group ∧ Rewrites s.world (s.files h) (moved s.world procs tid group)

def AllFit (s : State H) : List (Op H) → Prop
  | [] => True
  | op :: ops => Fits s op ∧ AllFit (step s op).2 ops

/-- The table has the groups that are read. -/
def Shows (s : State H) (p : Plain H) : Prop :=
  ∀ h t, p h t =
    if t ∈ s.world.alive then some (groupOf s.world (read s.world (s.files h)) t) else none

structure Sound (s : State H) (p : Plain H) : Prop where
  world : s.world.Ok
  files : ∀ h, Inv s.world (s.files h)
  shows : Shows s p

variable {s : State H} {p : Plain H}

omit [DecidableEq H] in
theorem Sound.erase (hs : Sound s p) (gone : Id → Bool)
    (fault : H → Fault)
    (hfit : ∀ h, (∃ e ∈ (read (s.world.without gone) (s.files h)).threads, gone e.id = true) →
      Rewrites (s.world.without gone) (s.files h) (dropRecords gone)) :
    Sound ⟨s.world.without gone, fun h => forget (s.world.without gone) (s.files h) gone (fault h)⟩
      fun h t => if gone t then none else p h t := by
  have hok : (s.world.without gone).Ok := fun t ht => hs.world t (List.mem_of_mem_filter ht)
  have hgone : ∀ t, t ∈ (s.world.without gone).alive ↔ t ∈ s.world.alive ∧ gone t = false := by
    simp [World.without]
  have hforget := fun h => forget_ends ((hs.files h).without gone) hok (fault h)
    (fun t ht => ((hgone t).1 ht).2) (hfit h)
  refine ⟨hok, fun h => (hforget h).1, fun h t => ?_⟩
  by_cases ht : t ∈ (s.world.without gone).alive
  · have ha := (hgone t).1 ht
    rw [if_pos ht, (hforget h).2 t ht, hs.shows h t, if_pos ha.1, if_neg (by simp [ha.2])]
    rfl
  rw [if_neg ht, hs.shows h t]
  by_cases ha : t ∈ s.world.alive
  · have hg : gone t = true := by
      by_contra hg
      exact ht ((hgone t).2 ⟨ha, by simpa using hg⟩)
    rw [if_pos hg]
  · rw [if_neg ha, ite_self]

omit [DecidableEq H] in
theorem Sound.ended (hs : Sound s p) (pid : Id) :
    Sound ⟨s.world.ended pid, s.files⟩ fun h t => if s.world.owner t = pid then none else p h t := by
  refine ⟨fun t ht => ?_, fun h => ((hs.files h).ended pid).1, fun h t => ?_⟩
  · have ht := mem_alive_ended.1 ht
    exact List.mem_filter.2 ⟨hs.world t ht.1, decide_eq_true ht.2⟩
  by_cases ht : t ∈ (s.world.ended pid).alive
  · have ha := mem_alive_ended.1 ht
    rw [if_pos ht, ((hs.files h).ended pid).2 t ht, if_neg ha.2, hs.shows h t, if_pos ha.1]
  · rw [if_neg ht, hs.shows h t]
    by_cases ho : s.world.owner t = pid
    · rw [if_pos ho]
    · rw [if_neg ho, if_neg fun ha => ht (mem_alive_ended.2 ⟨ha, ho⟩)]

omit [DecidableEq H] in
theorem Sound.birth (hs : Sound s p) {creator tid : Id} (hc : creator ∈ s.world.alive)
    (ht : tid ∉ s.world.alive) (hfree : ∀ h, ∀ e ∈ (read s.world (s.files h)).threads, e.id ≠ tid) :
    Sound ⟨s.world.birth creator tid, fun h => inherit (s.files h) (s.world.owner creator) creator
        tid (s.world.start (s.world.owner creator))⟩
      fun h t => if t = tid then p h creator else p h t := by
  have hends := fun h => inherit_ends (hs.files h) hs.world hc ht (by
    have hf := hfree h
    rw [read_eq (hs.files h).ids] at hf
    exact hf)
  have halive : ∀ t, t ∈ (s.world.birth creator tid).alive ↔ t = tid ∨ t ∈ s.world.alive :=
    fun _ => List.mem_cons
  refine ⟨fun t hta => ?_, fun h => (hends h).1, fun h t => ?_⟩
  · rcases (halive t).1 hta with rfl | hta
    · rw [owner_birth_self]
      exact hs.world creator hc
    · have hne : t ≠ tid := fun he => ht (he ▸ hta)
      rw [owner_birth hne]
      exact hs.world t hta
  · by_cases he : t = tid
    · subst he
      rw [if_pos rfl, if_pos ((halive t).2 (.inl rfl)), (hends h).2.2, hs.shows h creator, if_pos hc]
    · rw [if_neg he, hs.shows h t]
      by_cases hta : t ∈ s.world.alive
      · rw [if_pos hta, if_pos ((halive t).2 (.inr hta)), (hends h).2.1 t hta]
      · rw [if_neg hta, if_neg fun hm => hta (((halive t).1 hm).resolve_left he)]

variable {procs allowed : Bool} {tid : Id} {group : Bytes} {fault : Fault}

theorem alive_of_moved {w : World} {files : Files} {t : Id}
    (h : (moveTask w files procs tid group allowed fault).1.isOk = true)
    (hm : Moves w procs tid t) : t ∈ w.alive := by
  cases procs with
  | true => exact hm.1
  | false =>
    have ht : t = tid := hm
    by_contra hdead
    rw [moveTask, if_pos (.inr (by simp [World.isTask, ← ht, hdead]))] at h
    cases h

theorem Sound.move (hs : Sound s p) {h : H} (hg : PlainGroup group)
    (hfit : Rewrites s.world (s.files h) (moved s.world procs tid group)) :
    Sound { s with
        files := Function.update s.files h
          (moveTask s.world (s.files h) procs tid group allowed fault).2 }
      fun h' t =>
        if (moveTask s.world (s.files h) procs tid group allowed fault).1.isOk ∧ h' = h ∧
          Moves s.world procs tid t then some group else p h' t := by
  obtain ⟨hinv, hgroups⟩ := moveTask_ends (hs.files h) hs.world allowed fault hg hfit
  refine ⟨hs.world, fun h' => ?_, fun h' t => ?_⟩
  · by_cases hh : h' = h
    · subst hh
      simpa using hinv
    · simpa [hh] using hs.files h'
  dsimp only
  by_cases hh : h' = h
  · subst hh
    rw [Function.update_self]
    by_cases ht : t ∈ s.world.alive
    · rw [hgroups t ht, hs.shows h' t]
      split_ifs with h1 h2 h2
      · rfl
      · exact absurd ⟨h1.1, h1.2.2⟩ h2
      · exact absurd ⟨h2.1, rfl, h2.2⟩ h1
      · rfl
    · rw [if_neg ht, if_neg fun hm => ht (alive_of_moved hm.1 hm.2.2), hs.shows h' t, if_neg ht]
  · rw [Function.update_of_ne hh, if_neg fun hm => hh hm.2.1]
    exact hs.shows h' t

/-- One operation keeps the files and the table in step. -/
theorem Sound.step (hs : Sound s p) {op : Op H} (hfit : Fits s op) :
    Sound (step s op).2 (p.after s.world (step s op).1 op) := by
  cases op with
  | birth creator tid =>
    rw [Cgroup.step]
    split_ifs with hb
    · simpa [Plain.after] using hs.birth hb.1 hb.2 hfit
    · simpa [Plain.after] using hs
  | exit tid fault =>
    have hfit : ∀ h, (∃ e ∈ (read s.world (s.files h)).threads, decide (e.id = tid) = true) → _ :=
      fun h he => hfit h (by simpa using he)
    have herase := hs.erase (fun t => t = tid) fault hfit
    simp only [decide_eq_true_eq] at herase
    exact herase
  | exec pid fault =>
    have hfit : ∀ h, (∃ e ∈ (read s.world (s.files h)).threads,
        (decide (e.id ≠ pid) && decide (s.world.owner e.id = pid)) = true) → _ :=
      fun h he => hfit h (by simpa using he)
    have herase := hs.erase (fun t => t ≠ pid && s.world.owner t = pid) fault hfit
    simp only [Bool.and_eq_true, decide_eq_true_eq] at herase
    exact herase
  | ended pid => exact hs.ended pid
  | move h procs tid group allowed fault => exact hs.move hfit.1 hfit.2

theorem Sound.run (hs : Sound s p) {ops : List (Op H)}
    (hfit : AllFit s ops) : Sound (run s p ops).1 (run s p ops).2 := by
  induction ops generalizing s p with
  | nil => exact hs
  | cons op ops ih => exact ih (hs.step hfit.1) hfit.2

omit [DecidableEq H] in
/-- At first no file is there, and every thread is in the root group. -/
theorem sound_empty {w : World} (hok : w.Ok) :
    Sound (H := H) ⟨w, fun _ => {}⟩ fun _ t => if t ∈ w.alive then some root else none := by
  refine ⟨hok, fun _ => ?_, fun _ t => rfl⟩
  have hparse : parse [] = {} := rfl
  exact ⟨⟨⟨[], []⟩, ⟨by simp, by simp⟩, rfl⟩, by simp, by simp, List.nodup_nil, by simp [hparse],
    by simp [records, hparse], by simp⟩

/-- **Membership is a plain table.**  From empty files, what is read for every live thread is the
table's entry, after every run that fits. -/
theorem membership_is_a_table {w : World} (hok : w.Ok) (ops : List (Op H))
    (hfit : AllFit ⟨w, fun _ => {}⟩ ops) (h : H) (t : Id) :
    let r := run ⟨w, fun _ => {}⟩ (fun _ t => if t ∈ w.alive then some root else none) ops
    r.2 h t = if t ∈ r.1.world.alive then
      some (groupOf r.1.world (read r.1.world (r.1.files h)) t) else none :=
  ((sound_empty hok).run hfit).shows h t

end Table

/-- One process, with its first thread. -/
def oneProcess : World where
  owner := fun _ => 10
  alive := [10]
  start := fun _ => (1, 0)
  tgid := id
  running := [10]

/-- The thread moves to `/a` and makes another; the process moves to `/b`, and the tid of the second
thread is used again. -/
def reuse : List (Op Unit) :=
  [.move () false 10 [47, 97] true .none, .birth 10 20, .move () true 10 [47, 98] true .none,
    .exit 20 fun _ => .none, .birth 10 20]

theorem membership_is_a_table_reuse :
    let r := run ⟨oneProcess, fun _ => {}⟩
      (fun _ t => if t ∈ oneProcess.alive then some root else none) reuse
    groupOf r.1.world (read r.1.world (r.1.files ())) 20 = [47, 98] := by
  have hok : oneProcess.Ok := fun _ _ => List.mem_singleton_self 10
  have hfit : AllFit ⟨oneProcess, fun _ => {}⟩ reuse := by
    refine ⟨?_, ?_, ?_, ?_, ?_, trivial⟩
    · exact ⟨⟨by decide, by decide⟩, by unfold Rewrites; decide +kernel⟩
    · exact fun () => by decide +kernel
    · exact ⟨⟨by decide, by decide⟩, by unfold Rewrites; decide +kernel⟩
    · exact fun () => by unfold Rewrites; decide +kernel
    · exact fun () => by decide +kernel
  have h := membership_is_a_table hok reuse hfit () 20
  dsimp only at h
  rw [if_pos (by decide +kernel)] at h
  decide +kernel

/-- **A move that is not made.**  Thread 20 has its creator's group `/a`, by a record in a fragment.
Moved to its process's group, it needs no record, and the text is that of the base file: the move is
reported, and the fragment stays in force. -/
theorem move_out_of_fragment_lost :
    let r := run ⟨oneProcess, fun _ => {}⟩
      (fun _ t => if t ∈ oneProcess.alive then some root else none)
      [.move () false 10 [47, 97] true .none, .birth 10 20]
    let op : Op Unit := .move () false 20 root true .none
    let s := (step r.1 op).2
    (step r.1 op).1 = true ∧ r.2.after r.1.world true op () 20 = some root ∧
      groupOf s.world (read s.world (s.files ())) 20 = [47, 97] := by
  decide +kernel

end Cgroup
