import Aim.Lmkd.Server

/-!
# Lmkd — Whom a check kills

The server runs beside a record of what was registered and removed, newest first.  A registration
stands (`standing`) when no removal of its pid, no purge and no newer registration of it came after.

* `run_standing`: over every run, the processes on the table are those whose registration stands.
* `killLoop_turns`: every turn of the kill loop takes the highest of those still on the table.
* `check_relieves`: a check ends with a kill or with nothing left to kill.
* `check_kills`: what a check sends SIGKILL to.  That the pids are positive needs that those of the
  standing registrations are: `procprio` does not check it.
* `check_kills_every_process`: a client registers the pid `-1`, and the next check kills every
  process it may.
-/

namespace Aim.Lmkd

open Server List AList

/-! ### What stands -/

/-- What a packet or a check did to the registrations. -/
inductive Deed where
  | registered (pid : ℤ) (uid : ℕ) (adj : ℤ)
  | removed (pid : ℤ)
  | purged

/-- The registration of a pid that stands, in a record with the newest first. -/
def standing : List Deed → ℤ → Option (ℕ × ℤ)
  | [], _ => none
  | .registered q uid adj :: past, pid => if pid = q then some (uid, adj) else standing past pid
  | .removed q :: past, pid => if pid = q then none else standing past pid
  | .purged :: _, _ => none

/-- A registration, if it is good. -/
def procprioDeed (status : Statuses) (pid uid adj ptype : ℤ) : List Deed :=
  if accepts status pid adj ptype then [.registered pid (asU32 uid) adj] else []

/-- The registrations of an `LMK_PROCS_PRIO`, newest first. -/
def procsPrioDeeds (statuses : ℕ → Statuses) : ℕ → List ℤ → List Deed
  | k, pid :: uid :: adj :: ptype :: rest =>
    procsPrioDeeds statuses (k + 1) rest ++ procprioDeed (statuses k) pid uid adj ptype
  | _, _ => []

/-- What a command says about registrations. -/
def commandDeeds (statuses : ℕ → Statuses) (cmd : ℤ) (args : List ℤ) : List Deed :=
  if cmd = LMK_PROCPRIO then
    match args with
    | [pid, uid, adj] => procprioDeed (statuses 0) pid uid adj 0
    | [pid, uid, adj, ptype] => procprioDeed (statuses 0) pid uid adj ptype
    | _ => []
  else if cmd = LMK_PROCS_PRIO then
    if args.length % PROCPRIO_FIELDS = 0 then procsPrioDeeds statuses 0 args else []
  else if cmd = LMK_PROCREMOVE then
    match args with
    | [pid] => [.removed pid]
    | _ => []
  else if cmd = LMK_PROCPURGE ∧ args = [] then [.purged]
  else []

/-- What an event does to the registrations: a check removes the victim of every turn. -/
def Server.deeds (s : Server) : Event → List Deed
  | .packet _ (cmd :: args) statuses => commandDeeds statuses cmd args
  | .check mem worlds => ((s.check mem worlds).turns.map fun t => .removed t.victim.pid).reverse
  | _ => []

/-- The server with the record of its registrations. -/
structure Watch where
  server : Server
  past : List Deed

def Watch.step (w : Watch) (e : Event) : Watch := ⟨w.server.step e, w.server.deeds e ++ w.past⟩

/-- The events one after the other, from the start. -/
def Watch.run (events : List Event) : Watch := events.foldl step ⟨.new, []⟩

/-- The processes on the table are those whose registration stands, under their pids. -/
structure Stands (p : Procs) (past : List Deed) : Prop where
  keyed : ∀ pid q, p.procs.lookup pid = some q → q.pid = pid
  same : ∀ pid, (p.procs.lookup pid).map (fun q => (q.uid, q.adj)) = standing past pid

/-- The signal to a victim: none if its pid is now one of a thread. -/
def Server.World.signal (w : World) (pid : ℤ) : Option Signal :=
  if (w.status pid).any fun st => st.tgid ≠ pid then none else some (w.sigkill pid)

/-- Everything a turn of the kill loop can do: there is no victim; the victim is not killed, and the
loop goes on; it is killed. -/
theorem killLoop_cases (mem : Memory) (worlds : ℕ → World) (minAdj : ℤ) (fuel k : ℕ) (s : Server) :
    (s.procs.victim minAdj (worlds k).rssKb = none ∧
      killLoop mem worlds minAdj (fuel + 1) k s = ⟨[], [], s⟩) ∨
    ∃ v t, s.procs.victim minAdj (worlds k).rssKb = some v ∧ t = ⟨v, (worlds k).signal v.pid⟩ ∧
      ((t.killed = false ∧
        (killLoop mem worlds minAdj (fuel + 1) k s).turns = t ::
          (killLoop mem worlds minAdj fuel (k + 1)
            { s with procs := s.procs.remove v.pid }).turns ∧
        (killLoop mem worlds minAdj (fuel + 1) k s).sent =
          (killLoop mem worlds minAdj fuel (k + 1) { s with procs := s.procs.remove v.pid }).sent ∧
        (killLoop mem worlds minAdj (fuel + 1) k s).server =
          (killLoop mem worlds minAdj fuel (k + 1)
            { s with procs := s.procs.remove v.pid }).server) ∨
      (t.killed ∧ killLoop mem worlds minAdj (fuel + 1) k s =
        ⟨[t], Server.notify { s with procs := s.procs.remove v.pid } (worlds k) mem minAdj v,
          { s with procs := (s.procs.remove v.pid).killed v.adj }⟩)) := by
  rw [Server.killLoop]
  cases hv : s.procs.victim minAdj (worlds k).rssKb with
  | none => exact .inl ⟨rfl, rfl⟩
  | some v =>
    refine .inr ⟨v, _, rfl, rfl, ?_⟩
    unfold World.signal
    dsimp only
    split
    · exact .inl ⟨rfl, rfl, rfl, rfl⟩
    · split
      · next h => exact .inl ⟨by simpa [Turn.killed] using h, rfl, rfl, rfl⟩
      · next h => exact .inr ⟨by simpa [Turn.killed] using h, rfl⟩

variable {p : Procs}

theorem keyed_remove (h : ∀ pid q, p.procs.lookup pid = some q → q.pid = pid)
    (gone pid : ℤ) (q : Proc) (hq : (p.remove gone).procs.lookup pid = some q) : q.pid = pid := by
  rw [Procs.remove, lookup_erase_ite] at hq
  split at hq
  · cases hq
  · exact h pid q hq

namespace Stands

variable {p : Procs} {past : List Deed}

theorem set (h : Stands p past) (pid : ℤ) (uid : ℕ) (adj : ℤ) :
    Stands (p.set pid uid adj) (.registered pid uid adj :: past) where
  keyed pid' q hq := by
    rw [Procs.set, lookup_insert_ite] at hq
    split at hq
    · next he => cases hq; exact he.symm
    · exact h.keyed pid' q hq
  same pid' := by
    rw [Procs.set, lookup_insert_ite, standing]
    split
    · rfl
    · exact h.same pid'

theorem remove (h : Stands p past) (pid : ℤ) : Stands (p.remove pid) (.removed pid :: past) where
  keyed := keyed_remove h.keyed pid
  same pid' := by
    rw [Procs.remove, lookup_erase_ite, standing]
    split
    · rfl
    · exact h.same pid'

theorem purge (p : Procs) (past : List Deed) : Stands p.purge (.purged :: past) where
  keyed _ _ hq := by cases hq
  same _ := rfl

theorem killed (h : Stands p past) (adj : ℤ) : Stands (p.killed adj) past := ⟨h.keyed, h.same⟩

theorem procprio {s : Server} (h : Stands s.procs past) (status : Statuses)
    (pid uid adj ptype : ℤ) :
    Stands (s.procprio status pid (asU32 uid) adj ptype).procs
      (procprioDeed status pid uid adj ptype ++ past) := by
  unfold Server.procprio procprioDeed
  split
  · exact h.set pid (asU32 uid) adj
  · exact h

theorem procsPrio (statuses : ℕ → Statuses) (k : ℕ) (args : List ℤ) (s : Server)
    (h : Stands s.procs past) :
    Stands (procsPrio statuses k args s).procs (procsPrioDeeds statuses k args ++ past) := by
  fun_induction Server.procsPrio statuses k args s generalizing past with
  | case1 k pid uid adj ptype rest s ih =>
    rw [procsPrioDeeds, append_assoc]
    exact ih (h.procprio (statuses k) pid uid adj ptype)
  | case2 k args s hne =>
    rw [procsPrioDeeds]
    · exact h
    · exact hne

/-- The commands that are not about registrations leave them alone. -/
theorem command_procs_other (s : Server) (i : ℕ) (statuses : ℕ → Statuses) (cmd : ℤ) (args : List ℤ)
    (h₁ : cmd ≠ LMK_PROCPRIO) (h₂ : cmd ≠ LMK_PROCS_PRIO) (h₃ : cmd ≠ LMK_PROCREMOVE)
    (h₄ : cmd ≠ LMK_PROCPURGE) : (s.command i statuses cmd args).2.procs = s.procs := by
  unfold Server.command
  rw [if_neg h₁, if_neg h₂, if_neg h₃, if_neg h₄]
  split
  · split <;> rfl
  split
  · split <;> rfl
  split
  · split
    · split <;> rfl
    · rfl
  split
  · split <;> rfl
  split
  · rfl
  · split
    · split <;> rfl
    · rfl

theorem command {s : Server} (h : Stands s.procs past) (i : ℕ) (statuses : ℕ → Statuses) (cmd : ℤ)
    (args : List ℤ) :
    Stands (s.command i statuses cmd args).2.procs (commandDeeds statuses cmd args ++ past) := by
  by_cases h₁ : cmd = LMK_PROCPRIO
  · subst h₁
    unfold commandDeeds
    unfold Server.command
    match args with
    | [pid, uid, adj] => exact h.procprio (statuses 0) pid uid adj 0
    | [pid, uid, adj, ptype] => exact h.procprio (statuses 0) pid uid adj ptype
    | [] | [_] | [_, _] | _ :: _ :: _ :: _ :: _ :: _ => exact h
  by_cases h₂ : cmd = LMK_PROCS_PRIO
  · subst h₂
    unfold commandDeeds
    unfold Server.command
    rw [if_neg (by decide), if_neg h₁, if_pos rfl]
    by_cases hargs : args = []
    · subst hargs
      exact h
    by_cases hlen : args.length % PROCPRIO_FIELDS = 0
    · rw [if_pos hlen, if_neg (by simp [hargs, hlen])]
      exact h.procsPrio statuses 0 args s
    · rw [if_neg hlen, if_pos (.inr hlen)]
      exact h
  by_cases h₃ : cmd = LMK_PROCREMOVE
  · subst h₃
    unfold commandDeeds
    unfold Server.command
    match args with
    | [pid] => exact h.remove pid
    | [] | _ :: _ :: _ => exact h
  by_cases h₄ : cmd = LMK_PROCPURGE
  · subst h₄
    unfold commandDeeds
    rw [if_neg h₁, if_neg h₂, if_neg h₃]
    unfold Server.command
    rw [if_neg (by decide), if_neg h₁, if_neg h₂, if_neg h₃, if_pos rfl]
    by_cases hargs : args = []
    · rw [if_pos hargs, if_pos ⟨rfl, hargs⟩]
      exact purge s.procs past
    · rw [if_neg hargs, if_neg fun e => hargs e.2]
      exact h
  rw [command_procs_other s i statuses cmd args h₁ h₂ h₃ h₄]
  unfold commandDeeds
  rw [if_neg h₁, if_neg h₂, if_neg h₃, if_neg fun e => h₄ e.1]
  exact h

/-- The kill loop removes the victim of every turn, and no other process. -/
theorem killLoop {mem : Memory} {worlds : ℕ → World} {minAdj : ℤ} (fuel k : ℕ) (s : Server)
    (h : Stands s.procs past) :
    Stands (killLoop mem worlds minAdj fuel k s).server.procs
      (((killLoop mem worlds minAdj fuel k s).turns.map fun t => .removed t.victim.pid).reverse ++
        past) := by
  induction fuel generalizing k s past with
  | zero => exact h
  | succ fuel ih =>
    rcases killLoop_cases mem worlds minAdj fuel k s with ⟨-, he⟩ | ⟨v, t, -, rfl, hrest | ⟨-, he⟩⟩
    · rw [he]
      exact h
    · obtain ⟨-, ht, -, hs⟩ := hrest
      rw [ht, hs, map_cons, reverse_cons, append_assoc]
      exact ih (k + 1) { s with procs := s.procs.remove v.pid } (h.remove v.pid)
    · rw [he]
      exact (h.remove v.pid).killed v.adj

theorem step {w : Watch} (h : Stands w.server.procs w.past) (e : Event) :
    Stands (w.step e).server.procs (w.step e).past := by
  cases e with
  | packet i words statuses =>
    cases words with
    | nil => exact h
    | cons cmd args => exact h.command i statuses cmd args
  | accept => exact h
  | closed i => exact h
  | check mem worlds =>
    change Stands (w.server.check mem worlds).server.procs
      (((w.server.check mem worlds).turns.map fun t => .removed t.victim.pid).reverse ++ w.past)
    unfold Server.check
    dsimp only
    cases minScoreAdj mem w.server.targets with
    | none => exact h
    | some minAdj => exact h.killLoop _ 0 { w.server with level := mem.level }

end Stands

/-- Over every run, the processes on the table are those whose registration stands. -/
theorem run_standing (events : List Event) :
    Stands (Watch.run events).server.procs (Watch.run events).past := by
  have hsteps : ∀ (events : List Event) (w : Watch), Stands w.server.procs w.past →
      Stands (events.foldl Watch.step w).server.procs (events.foldl Watch.step w).past := by
    intro events
    induction events with
    | nil => exact fun _ h => h
    | cons e events ih => exact fun w h => ih _ (h.step e)
  exact hsteps events _ ⟨fun _ _ hq => (by cases hq), fun _ => rfl⟩

/-- The record is kept beside the server and does not touch it. -/
theorem run_server (events : List Event) : (Watch.run events).server = Server.run events := by
  have hsteps : ∀ (events : List Event) (w : Watch),
      (events.foldl Watch.step w).server = events.foldl Server.step w.server := by
    intro events
    induction events with
    | nil => exact fun _ => rfl
    | cons e events ih => exact fun w => ih _
  exact hsteps events _

/-! ### The turns of a check -/

section Turns

variable {mem : Memory} {worlds : ℕ → World} {minAdj : ℤ}

/-- What one turn does: it takes the highest at or above the bound of those that no turn before
took, and signals it. -/
structure Takes (p : Procs) (worlds : ℕ → World) (minAdj : ℤ) (before : List Turn) (t : Turn) :
    Prop where
  registered : p.procs.lookup t.victim.pid = some t.victim
  fresh : t.victim.pid ∉ before.map fun t => t.victim.pid
  above : minAdj ≤ t.victim.adj
  highest : ∀ q pid, p.procs.lookup pid = some q → (pid ∉ before.map fun t => t.victim.pid) →
    minAdj ≤ q.adj → q.adj ≤ t.victim.adj
  signal : t.signal = (worlds before.length).signal t.victim.pid

theorem takes_victim (worlds : ℕ → World)
    (hkey : ∀ pid q, p.procs.lookup pid = some q → q.pid = pid) {v : Proc}
    (hv : p.victim minAdj (worlds 0).rssKb = some v) :
    Takes p worlds minAdj [] ⟨v, (worlds 0).signal v.pid⟩ := by
  obtain ⟨hmem, hmin, hmax⟩ := Procs.victim_eq_some hv
  obtain ⟨pid, hpid⟩ := mem_values_iff.1 hmem
  refine ⟨?_, not_mem_nil, hmin, fun q pid hq _ => hmax q (mem_values_iff.2 ⟨pid, hq⟩), rfl⟩
  rw [hkey pid v hpid]
  exact hpid

/-- A turn on the table without a process is one on the table, after the turn that took it. -/
theorem Takes.cons {before : List Turn} {t u : Turn}
    (h : Takes (p.remove u.victim.pid) (fun k => worlds (k + 1)) minAdj before t) :
    Takes p worlds minAdj (u :: before) t := by
  have hne : t.victim.pid ≠ u.victim.pid := by
    intro he
    have hreg := h.registered
    rw [Procs.remove, lookup_erase_ite, if_pos he] at hreg
    cases hreg
  refine ⟨?_, ?_, h.above, fun q pid hq hfresh hmin => ?_, h.signal⟩
  · have hreg := h.registered
    rwa [Procs.remove, lookup_erase_ite, if_neg hne] at hreg
  · rw [map_cons, mem_cons, not_or]
    exact ⟨hne, h.fresh⟩
  · rw [map_cons, mem_cons, not_or] at hfresh
    refine h.highest q pid ?_ hfresh.2 hmin
    rw [Procs.remove, lookup_erase_ite, if_neg hfresh.1]
    exact hq

/-- Every turn of the kill loop takes the highest still there, and a kill is the last turn. -/
theorem killLoop_turns (fuel k : ℕ) (s : Server)
    (hkey : ∀ pid q, s.procs.procs.lookup pid = some q → q.pid = pid)
    (before : List Turn) (t : Turn) (after : List Turn)
    (h : (killLoop mem worlds minAdj fuel k s).turns = before ++ t :: after) :
    Takes s.procs (fun i => worlds (k + i)) minAdj before t ∧ (t.killed → after = []) := by
  induction fuel generalizing k s before with
  | zero => exact absurd h.symm (by simp [killLoop])
  | succ fuel ih =>
    rcases killLoop_cases mem worlds minAdj fuel k s with ⟨-, he⟩ | ⟨v, u, hv, rfl, hrest | ⟨-, he⟩⟩
    · rw [he] at h
      exact absurd h.symm (by simp)
    · obtain ⟨hne, ht, -⟩ := hrest
      rw [ht] at h
      cases before with
      | nil =>
        cases h
        exact ⟨takes_victim (fun i => worlds (k + i)) hkey hv, fun hk => by
          rw [hne] at hk
          cases hk⟩
      | cons u before =>
        injection h with hu hrest
        obtain ⟨htakes, hlast⟩ := ih (k + 1) { s with procs := s.procs.remove v.pid }
          (keyed_remove hkey v.pid) before hrest
        subst hu
        simp only [Nat.add_right_comm k 1] at htakes
        exact ⟨htakes.cons, hlast⟩
    · rw [he] at h
      cases before with
      | nil =>
        cases h
        exact ⟨takes_victim (fun i => worlds (k + i)) hkey hv, fun _ => rfl⟩
      | cons u before =>
        injection h with _ hrest
        exact absurd hrest.symm (by simp)

/-- A kill is counted at the adj of its victim, and at no other. -/
theorem killLoop_counts (fuel k : ℕ) (s : Server) (t : Turn)
    (ht : t ∈ (killLoop mem worlds minAdj fuel k s).turns) (hk : t.killed) (adj : ℤ) :
    (killLoop mem worlds minAdj fuel k s).server.procs.kills.lookup adj =
      if adj = t.victim.adj then some (((s.procs.kills.lookup adj).getD 0 + 1) % 2 ^ 32)
      else s.procs.kills.lookup adj := by
  induction fuel generalizing k s with
  | zero => cases ht
  | succ fuel ih =>
    rcases killLoop_cases mem worlds minAdj fuel k s with ⟨-, he⟩ | ⟨v, u, hv, rfl, hrest | ⟨-, he⟩⟩
    · rw [he] at ht
      cases ht
    · obtain ⟨hne, hturns, -, hs⟩ := hrest
      rw [hturns] at ht
      rw [hs]
      rcases mem_cons.1 ht with rfl | ht
      · rw [hne] at hk
        cases hk
      · exact ih (k + 1) { s with procs := s.procs.remove v.pid } ht
    · rw [he] at ht ⊢
      obtain rfl := mem_singleton.1 ht
      rw [Procs.killed, lookup_insert_ite]
      split
      · next h => rw [h]; rfl
      · rfl

/-- A process that is off the table stays off it. -/
theorem killLoop_removed (fuel k : ℕ) (s : Server) (pid : ℤ)
    (h : s.procs.procs.lookup pid = none ∨
      pid ∈ (killLoop mem worlds minAdj fuel k s).turns.map fun t => t.victim.pid) :
    (killLoop mem worlds minAdj fuel k s).server.procs.procs.lookup pid = none := by
  induction fuel generalizing k s with
  | zero => exact h.resolve_right (by simp [killLoop])
  | succ fuel ih =>
    rcases killLoop_cases mem worlds minAdj fuel k s with ⟨-, he⟩ | ⟨v, u, hv, rfl, hrest | ⟨-, he⟩⟩
    · rw [he] at h ⊢
      exact h.resolve_right (by simp)
    · obtain ⟨-, hturns, -, hs⟩ := hrest
      rw [hs]
      refine ih (k + 1) { s with procs := s.procs.remove v.pid } ?_
      change (s.procs.procs.erase v.pid).lookup pid = none ∨ _
      rw [lookup_erase_ite]
      rw [hturns, map_cons, mem_cons] at h
      rcases h with h | h | h
      · exact .inl (by rw [h]; simp)
      · exact .inl (if_pos h)
      · exact .inr h
    · rw [he] at h ⊢
      change (s.procs.procs.erase v.pid).lookup pid = none
      rw [lookup_erase_ite]
      rcases h with h | h
      · rw [h]; simp
      · exact if_pos (mem_singleton.1 h)

/-- With a turn for each process, the loop ends with a kill or with nothing left to kill. -/
theorem killLoop_done (fuel k : ℕ) (s : Server) (hfuel : s.procs.procs.entries.length ≤ fuel)
    (hkey : ∀ pid q, s.procs.procs.lookup pid = some q → q.pid = pid) :
    (∃ t ∈ (killLoop mem worlds minAdj fuel k s).turns, t.killed) ∨
      ∀ q ∈ (killLoop mem worlds minAdj fuel k s).server.procs.procs.values, q.adj < minAdj := by
  induction fuel generalizing k s with
  | zero =>
    right
    simp [killLoop, AList.values, length_eq_zero_iff.1 (Nat.le_zero.1 hfuel)]
  | succ fuel ih =>
    rcases killLoop_cases mem worlds minAdj fuel k s with ⟨hv, he⟩ | ⟨v, u, hv, rfl, hrest | ⟨hk, he⟩⟩
    · rw [he]
      exact .inr (Procs.victim_eq_none hv)
    · obtain ⟨-, hturns, -, hs⟩ := hrest
      obtain ⟨pid, hpid⟩ := mem_values_iff.1 (Procs.victim_eq_some hv).1
      obtain rfl := hkey pid v hpid
      have hless := (entries_perm_erase hpid).length_eq
      rw [hs, hturns]
      rcases ih (k + 1) { s with procs := s.procs.remove v.pid } (by
          change (s.procs.procs.erase v.pid).entries.length ≤ fuel
          simp only [length_cons] at hless
          omega) (keyed_remove hkey v.pid) with ⟨t, ht, hk⟩ | hleft
      · exact .inl ⟨t, mem_cons_of_mem _ ht, hk⟩
      · exact .inr hleft
    · rw [he]
      exact .inl ⟨_, mem_singleton.2 rfl, hk⟩

end Turns

/-! ### Checks -/

/-- If a kill is the last turn, there is at most one. -/
theorem length_killed_le {turns : List Turn}
    (h : ∀ earlier t later, turns = earlier ++ t :: later → t.killed → later = []) :
    (turns.filter Turn.killed).length ≤ 1 := by
  induction turns with
  | nil => exact Nat.zero_le _
  | cons t turns ih =>
    by_cases hk : t.killed
    · rw [h [] t turns rfl hk]
      exact length_filter_le _ _
    · rw [filter_cons_of_neg hk]
      exact ih fun earlier u later he => h (t :: earlier) u later (by rw [he]; rfl)

theorem Server.World.pid_signal {w : World} {pid : ℤ} {signal : Signal}
    (h : signal ∈ w.signal pid) : signal.pid = pid := by
  unfold World.signal at h
  split at h
  · cases h
  · cases h
    rfl

/-- The turns of a check are those of the kill loop at the threshold, if there is one. -/
theorem check_cases (s : Server) (mem : Memory) (worlds : ℕ → World) :
    (minScoreAdj mem s.targets = none ∧
      s.check mem worlds = ⟨[], [], { s with level := mem.level }⟩) ∨
    ∃ minAdj, minScoreAdj mem s.targets = some minAdj ∧
      s.check mem worlds = killLoop mem worlds minAdj s.procs.procs.entries.length 0
        { s with level := mem.level } := by
  unfold Server.check
  dsimp only
  cases minScoreAdj mem s.targets with
  | none => exact .inl ⟨rfl, rfl⟩
  | some minAdj => exact .inr ⟨minAdj, rfl, rfl⟩

/-- **The kills of a check.**  In every reachable state: at most one turn of a check kills; every
turn takes a pid whose registration stands and that no turn before took, at or above the threshold
and with the highest oom_score_adj of those left, and no other pid is passed to `kill`; there is no
turn at normal pressure; after the check the victims are off the table, and a kill is counted once at
the adj of its victim.  The pids passed are positive if those of the standing registrations are. -/
theorem check_kills (events : List Event) (mem : Memory) (worlds : ℕ → World) :
    let before := Server.run events
    let past := (Watch.run events).past
    let c := before.check mem worlds
    (c.turns.filter Turn.killed).length ≤ 1 ∧
    (∀ earlier t later, c.turns = earlier ++ t :: later →
      (∀ signal ∈ t.signal, signal.pid = t.victim.pid) ∧
      standing past t.victim.pid = some (t.victim.uid, t.victim.adj) ∧
      (t.victim.pid ∉ earlier.map fun t => t.victim.pid) ∧
      ∃ minAdj, minScoreAdj mem before.targets = some minAdj ∧ minAdj ≤ t.victim.adj ∧
        ∀ pid uid adj, standing past pid = some (uid, adj) →
          (pid ∉ earlier.map fun t => t.victim.pid) → minAdj ≤ adj → adj ≤ t.victim.adj) ∧
    (mem.level = .normal → c.turns = []) ∧
    (∀ t ∈ c.turns, c.server.procs.procs.lookup t.victim.pid = none ∧
      (t.killed → ∀ adj, c.server.procs.kills.lookup adj =
        if adj = t.victim.adj then some (((before.procs.kills.lookup adj).getD 0 + 1) % 2 ^ 32)
        else before.procs.kills.lookup adj)) ∧
    ((∀ pid, standing past pid ≠ none → 0 < pid) →
      ∀ t ∈ c.turns, ∀ signal ∈ t.signal, 0 < signal.pid) := by
  intro before past c
  have hstands := run_standing events
  rw [run_server] at hstands
  rcases check_cases before mem worlds with ⟨hnone, he⟩ | ⟨minAdj, hmin, he⟩
  · have hc : c.turns = [] := congrArg Checked.turns he
    rw [hc]
    refine ⟨Nat.zero_le _, fun earlier t later h => ?_, fun _ => rfl, ?_, ?_⟩
    · exact absurd h.symm (by simp)
    · exact forall_mem_nil _
    · exact fun _ => forall_mem_nil _
  have hc : c = killLoop mem worlds minAdj before.procs.procs.entries.length 0
      { before with level := mem.level } := he
  have hturns := @killLoop_turns mem worlds minAdj before.procs.procs.entries.length 0
    { before with level := mem.level } hstands.keyed
  rw [← hc] at hturns
  have hsignal : ∀ earlier t later, c.turns = earlier ++ t :: later →
      (∀ signal ∈ t.signal, signal.pid = t.victim.pid) ∧
        standing past t.victim.pid = some (t.victim.uid, t.victim.adj) := by
    intro earlier t later h
    have ht := (hturns earlier t later h).1
    refine ⟨fun signal hs => World.pid_signal (ht.signal ▸ hs), ?_⟩
    rw [← hstands.same, ht.registered]
    rfl
  refine ⟨length_killed_le fun earlier t later h => (hturns earlier t later h).2,
    fun earlier t later h => ?_, fun hnormal => ?_, fun t ht => ⟨?_, fun hk adj => ?_⟩, ?_⟩
  · have ht := (hturns earlier t later h).1
    obtain ⟨hpid, hst⟩ := hsignal earlier t later h
    refine ⟨hpid, hst, ht.fresh, minAdj, hmin, ht.above, ?_⟩
    intro pid uid adj hpid hfresh habove
    rw [← hstands.same] at hpid
    obtain ⟨q, hq, hqa⟩ := Option.map_eq_some_iff.1 hpid
    cases hqa
    exact ht.highest q pid hq hfresh habove
  · rw [minScoreAdj, hnormal] at hmin
    cases hmin
  · rw [hc] at ht ⊢
    exact killLoop_removed _ 0 _ _ (.inr (mem_map_of_mem ht))
  · rw [hc] at ht ⊢
    exact killLoop_counts _ 0 _ t ht hk adj
  · intro hpos t ht signal hs
    obtain ⟨earlier, later, h⟩ := append_of_mem ht
    obtain ⟨hpid, hst⟩ := hsignal earlier t later h
    rw [hpid signal hs]
    exact hpos _ (by rw [hst]; exact Option.some_ne_none _)

/-- No process is there, and every signal is delivered, but to process 12. -/
def deaf : World := ⟨fun _ => none, fun _ => none, fun pid => pid ≠ 12, fun _ => none, 4⟩

/-- A client registers process 12 at 950 and process 13 at 900.  The check at warning level cannot
kill the first and kills the second. -/
theorem check_kills_second :
    let events := [.accept, .packet 0 [ LMK_PROCPRIO, 12, 10012, 950, 0] fun _ _ => none,
      .packet 0 [ LMK_PROCPRIO, 13, 10013, 900, 0] fun _ _ => none]
    let c := (Server.run events).check ⟨.warn, 0, 0⟩ fun _ => deaf
    c.turns = [⟨⟨12, 10012, 950, 1⟩, some ⟨12, false⟩⟩, ⟨⟨13, 10013, 900, 2⟩, some ⟨13, true⟩⟩] ∧
      (∃ minAdj ≤ 900, ∀ pid uid adj, standing (Watch.run events).past pid = some (uid, adj) →
        pid ∉ [12] → minAdj ≤ adj → adj ≤ 900) ∧
      c.server.procs.procs.lookup 13 = none ∧ c.server.procs.kills.lookup 900 = some 1 ∧
      ∀ t ∈ c.turns, ∀ signal ∈ t.signal, 0 < signal.pid := by
  intro events c
  have hturns : c.turns =
      [⟨⟨12, 10012, 950, 1⟩, some ⟨12, false⟩⟩, ⟨⟨13, 10013, 900, 2⟩, some ⟨13, true⟩⟩] := by decide
  obtain ⟨-, hturn, -, hafter, hpos⟩ := check_kills events ⟨.warn, 0, 0⟩ fun _ => deaf
  obtain ⟨-, -, -, minAdj, -, habove, hhighest⟩ := hturn [_] _ [] hturns
  obtain ⟨hgone, hcount⟩ := hafter ⟨⟨13, 10013, 900, 2⟩, some ⟨13, true⟩⟩ (by rw [hturns]; simp)
  refine ⟨hturns, ⟨minAdj, habove, hhighest⟩, hgone, hcount rfl 900, hpos fun pid hpid => ?_⟩
  by_contra hle
  exact hpid ((if_neg (by omega : pid ≠ 13)).trans (if_neg (by omega : pid ≠ 12)))

/-- **Every process at once.**  The pid of a registration is not checked: `-1` has no `/proc` entry
that could say otherwise.  The next check passes it to `kill`, for which it is every process. -/
theorem check_kills_every_process :
    let events := [.accept, .packet 0 [ LMK_PROCPRIO, -1, 0, 1000, 0] fun _ _ => none]
    ((Server.run events).check ⟨.warn, 0, 0⟩ fun _ => deaf).turns =
      [⟨⟨-1, 0, 1000, 1⟩, some ⟨-1, true⟩⟩] := by
  decide

theorem standing_removed {pids : List ℤ} {past : List Deed} {pid : ℤ} (h : pid ∉ pids) :
    standing (pids.map .removed ++ past) pid = standing past pid := by
  induction pids with
  | nil => rfl
  | cons q pids ih =>
    rw [mem_cons, not_or] at h
    exact (if_neg h.1).trans (ih h.2)

/-- **A check that kills nothing leaves nothing to kill**, in every reachable state: each process at
or above the threshold had its turn, in which its pid was found to be one of a thread or the signal
failed. -/
theorem check_relieves (events : List Event) (mem : Memory) (worlds : ℕ → World) :
    let s := Server.run events
    let c := s.check mem worlds
    (∃ t ∈ c.turns, t.killed) ∨ ∀ minAdj ∈ minScoreAdj mem s.targets,
      (∀ q ∈ c.server.procs.procs.values, q.adj < minAdj) ∧
      ∀ pid uid adj, standing (Watch.run events).past pid = some (uid, adj) → minAdj ≤ adj →
        ∃ k, (c.turns[k]?.map fun t => t.victim.pid) = some pid ∧
          (((worlds k).status pid).any (fun st => st.tgid ≠ pid) ∨ (worlds k).kill pid = false) := by
  intro s c
  rcases check_cases s mem worlds with ⟨hnone, -⟩ | ⟨minAdj, hmin, he⟩
  · exact .inr (by simp [hnone])
  have hstands := run_standing events
  rw [run_server] at hstands
  have hc : c = killLoop mem worlds minAdj s.procs.procs.entries.length 0
    { s with level := mem.level } := he
  by_cases hkilled : ∃ t ∈ c.turns, t.killed
  · exact .inl hkilled
  have hleft : ∀ q ∈ c.server.procs.procs.values, q.adj < minAdj := by
    rw [hc] at hkilled ⊢
    exact (killLoop_done _ 0 { s with level := mem.level } le_rfl hstands.keyed).resolve_left hkilled
  refine .inr fun m hm => ?_
  obtain rfl : minAdj = m := Option.some.inj (hmin.symm.trans hm)
  refine ⟨hleft, fun pid uid adj hpid habove => ?_⟩
  -- After the check the registration does not stand any more, so that a turn took it.
  have htaken : pid ∈ c.turns.map fun t => t.victim.pid := by
    by_contra hnot
    have hafter : Stands c.server.procs ((c.turns.map fun t => .removed t.victim.pid).reverse ++ _) :=
      hc ▸ hstands.killLoop _ 0 { s with level := mem.level }
    have hsame := hafter.same pid
    rw [show (c.turns.map fun t => Deed.removed t.victim.pid).reverse =
      (c.turns.map fun t => t.victim.pid).reverse.map .removed by simp [Function.comp_def],
      standing_removed (by simpa using hnot), hpid] at hsame
    obtain ⟨q, hq, hadj⟩ := Option.map_eq_some_iff.1 hsame
    cases hadj
    have := hleft q (mem_values_iff.2 ⟨pid, hq⟩)
    omega
  obtain ⟨t, ht, rfl⟩ := mem_map.1 htaken
  obtain ⟨earlier, later, h⟩ := append_of_mem ht
  have hsignal := (killLoop_turns _ 0 { s with level := mem.level } hstands.keyed earlier t later
    (hc ▸ h)).1.signal
  rw [Nat.zero_add, World.signal] at hsignal
  refine ⟨earlier.length, by simp [h], ?_⟩
  split_ifs at hsignal with hreused
  · exact .inl hreused
  · refine .inr (Bool.eq_false_iff.2 fun hk => hkilled ⟨t, ht, ?_⟩)
    rw [Turn.killed, hsignal]
    exact hk

end Aim.Lmkd
