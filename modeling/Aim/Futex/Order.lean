import Aim.Futex.Exact

/-!
# Futex — Last come, first served

`link` pushes a waiter at the head of its bucket's list and `drain` takes waiters from there, so
every list has the waiter that came last in front (`newest_first`).  A call that claims fewer
waiters than it could hit claims those that came last, and a requeue turns the waiters it moves
around and puts them in front of those already queued at the new address (`last_come_first_served`).

`record` runs the table and notes beside it who came when: a link is an arrival, also that of a
waiter a requeue moves.
-/

namespace Aim.Futex

open List Function

/-! ### Who is ahead of whom -/

section Lists

variable {v w : Call} {l ms base seen order : List Call}

/-- In a list without duplicates, one of two is ahead of the other. -/
theorem not_ahead_both (hn : l.Nodup) (h : [v, w].Sublist l) : ¬ [w, v].Sublist l := by
  induction l with
  | nil => cases h
  | cons x l ih =>
    have hx := (nodup_cons.1 hn).1
    intro h'
    rcases sublist_cons_iff.1 h with h | ⟨_, he, hw⟩
    · rcases sublist_cons_iff.1 h' with h' | ⟨_, he, -⟩
      · exact ih (nodup_cons.1 hn).2 h h'
      · exact hx ((List.cons.inj he).1 ▸ h.subset (by simp))
    · obtain ⟨rfl, rfl⟩ := List.cons.inj he
      rcases sublist_cons_iff.1 h' with h' | ⟨_, he, -⟩
      · exact hx (h'.subset (by simp))
      · exact hx ((List.cons.inj he).1 ▸ hw.subset (by simp))

theorem ahead_append (hv : v ∈ l) (hw : w ∈ base) : [v, w].Sublist (l ++ base) :=
  (singleton_sublist.2 hv).append (singleton_sublist.2 hw)

/-- The first `n` of a list that is newest first came before none of the others, unless there are
none. -/
theorem take_first_come (hs : seen.reverse.Sublist order) (hn : seen.Nodup) (n : ℕ) :
    (∀ w ∈ seen.take n, ∀ v ∈ seen, v ∉ seen.take n → ¬ [v, w].Sublist order) ↔
      n = 0 ∨ seen.length ≤ n := by
  refine ⟨fun h => ?_, ?_⟩
  · by_contra hc
    have hw : seen[0] ∈ seen.take n := mem_take_iff_getElem.2 ⟨0, by omega, rfl⟩
    have hv : seen[n] ∈ seen.drop n := mem_drop_iff_getElem.2 ⟨0, by omega, rfl⟩
    have hahead : [seen[0], seen[n]].Sublist seen := by
      conv_rhs => rw [← take_append_drop n seen]
      exact ahead_append hw hv
    exact h _ hw _ (mem_of_mem_drop hv)
      (fun hv' => disjoint_take_drop hn le_rfl hv' hv) (hahead.reverse.trans hs)
  · rintro (rfl | hle) w hw v hv hv'
    · simp at hw
    · exact absurd (by rwa [take_of_length_le hle]) hv'

/-- A list that is turned around keeps its order if it has one entry at most. -/
theorem reverse_in_order (hn : (ms.reverse ++ base).Nodup) :
    (∀ v w, [v, w].Sublist ms → [v, w].Sublist (ms.reverse ++ base)) ↔ ms.length ≤ 1 := by
  refine ⟨fun h => ?_, fun hl v w hvw => absurd hvw.length_le (by simp; omega)⟩
  by_contra hl
  obtain ⟨v, w, ms, rfl⟩ : ∃ v w ms', ms = v :: w :: ms' := by
    rcases ms with _ | ⟨v, _ | ⟨w, ms⟩⟩
    · simp at hl
    · simp at hl
    · exact ⟨v, w, ms, rfl⟩
  have hvw : [v, w].Sublist (v :: w :: ms) := by simp
  exact not_ahead_both hn (h v w hvw) (hvw.reverse.trans (sublist_append_left ..))

/-- What is put in front of a list does not stand behind it. -/
theorem append_behind (hn : (ms.reverse ++ base).Nodup) (P : Call → Prop) :
    (∀ v w, v ∈ base → P v → w ∈ ms → [v, w].Sublist (ms.reverse ++ base)) ↔
      ms = [] ∨ ∀ v ∈ base, ¬ P v := by
  refine ⟨fun h => ?_, ?_⟩
  · by_contra hc
    push Not at hc
    obtain ⟨hne, v, hv, hP⟩ := hc
    obtain ⟨w, hw⟩ := exists_mem_of_ne_nil _ hne
    exact not_ahead_both hn (h v w hv hP hw) (ahead_append (mem_reverse.2 hw) hv)
  · rintro (rfl | h) v w hv hP hw
    · cases hw
    · exact absurd hP (h v hv)

theorem drain_sublist {σ : Type} (pick : σ → Call → Bool × σ) (x : σ) (l : List Call) :
    (drain pick x l).2.Sublist l := by
  induction l generalizing x with
  | nil => exact .refl _
  | cons w l ih =>
    simp only [drain]
    split
    · exact (ih _).cons w
    · exact (ih _).cons_cons w

end Lists

/-- How many of the drained waiters a call has dealt with. -/
def Pc.dealt : Pc → ℕ
  | .disposing _ _ _ i _ _ | .linking _ _ _ _ i _ _ => i
  | _ => 0

namespace State

/-- Who came when: a waiter that is linked comes last, wherever it was before. -/
def arrive (s : State) (order : List Call) : Label → List Call
  | .run t word =>
    match s.pc t with
    | .queuing check _ =>
      if check.run word = none then order.filter (· ≠ s.call t) ++ [s.call t] else order
    | .linking _ _ w _ _ _ _ => order.filter (· ≠ w) ++ [w]
    | _ => order
  | _ => order

/-- The labels, one after the other, and who came when. -/
def record : State → List Call → List Label → Option (State × List Call)
  | s, order, [] => some (s, order)
  | s, order, l :: ls => (s.step l).bind fun s' => record s' (s.arrive order l) ls

variable {s s' : State} {t : Tid} {w c : Call} {order seen base : List Call} {op : Op} {l : Label}

/-! ### The lists are newest first -/

/-- A step unlinks waiters, or links one that stands nowhere. -/
def Relinked (s : State) (l : Label) (order : List Call) (s' : State) : Prop :=
  (∀ b, (s'.heads b).Sublist (s.heads b)) ∧ s.arrive order l = order ∨
    ∃ b w, (∀ b', w ∉ s.heads b') ∧ s'.heads = Function.update s.heads b (w :: s.heads b) ∧
      s.arrive order l = order.filter (· ≠ w) ++ [w]

theorem relinked (h : Inv s) (order : List Call) (hs : s.step l = some s') :
    s.Relinked l order s' := by
  have same (he : s'.heads = s.heads) (ha : s.arrive order l = order) : s.Relinked l order s' :=
    .inl ⟨fun b => by rw [he], ha⟩
  have cut {b : Bucket} {rest : List Call} (he : s'.heads = Function.update s.heads b rest)
      (hr : rest.Sublist (s.heads b)) (ha : s.arrive order l = order) :
      s.Relinked l order s' := by
    refine .inl ⟨fun b' => ?_, ha⟩
    rw [he, update_apply]
    split
    · next hbb => exact hbb ▸ hr
    · exact .refl _
  cases l with
  | wait t addr bitset pi check =>
    simp only [State.step, begin] at hs
    split at hs <;> cases hs
    exact same rfl rfl
  | call t op =>
    simp only [State.step, begin] at hs
    split at hs <;> cases hs
    exact same rfl rfl
  | timeout t | interrupt t | park t =>
    simp only [State.step, State.decide] at hs
    split at hs <;> cases hs
    exact same rfl rfl
  | run t word =>
    simp only [State.step, State.advance, State.tryLock] at hs
    cases hp : s.pc t with
    | queuing check b =>
      simp only [hp] at hs
      split at hs <;> cases hs
      · next hr => exact same rfl (by simp [arrive, hp, hr])
      next hr =>
        refine .inr ⟨b, s.call t, fun b' hw => ?_, rfl, by simp [arrive, hp, hr]⟩
        have hq := (h.linked b' _ hw).1.2.1
        rw [show (s.waiters (s.call t)).thread = t from (h.at_pc hp).1, hp] at hq
        exact hq
    | linking op seen w ws i wakes moved =>
      simp only [hp] at hs
      cases hs
      have hw : w ∈ (s.pc t).transit := by rw [hp]; exact .head _
      exact .inr ⟨bucket op.target, w, h.notMem_heads hw, rfl, by simp [arrive, hp]⟩
    | confirming r b =>
      simp only [hp] at hs
      split at hs <;> cases hs
      · exact same rfl (by simp [arrive, hp])
      · exact cut rfl (drain_sublist ..) (by simp [arrive, hp])
    | acquire op k =>
      simp only [hp] at hs
      split at hs
      · split at hs <;> cases hs
        exact same rfl (by simp [arrive, hp])
      · split at hs <;> cases hs
        · exact same rfl (by simp [arrive, hp])
        · exact cut rfl (drain_sublist ..) (by simp [arrive, hp])
    | disposing op seen ws i wakes moved =>
      cases ws <;> simp only [hp] at hs <;> (try split at hs) <;> cases hs
      all_goals exact same rfl (by simp [arrive, hp])
    | _ =>
      simp only [hp] at hs
      first
        | cases hs; done
        | (try split at hs) <;> cases hs <;> exact same rfl (by simp [arrive, hp])

/-- Each list is newest first. -/
def NewestFirst (s : State) (order : List Call) : Prop := ∀ b, (s.heads b).reverse.Sublist order

theorem NewestFirst.step (h : Inv s) (hf : s.NewestFirst order) (hs : s.step l = some s') :
    s'.NewestFirst (s.arrive order l) := by
  intro b
  rcases relinked h order hs with ⟨hsub, ha⟩ | ⟨b₁, w, hw, hheads, ha⟩
  · rw [ha]
    exact (hsub b).reverse.trans (hf b)
  have hrest : (s.heads b).reverse.Sublist (order.filter (· ≠ w)) := by
    have := (hf b).filter (· ≠ w)
    rwa [filter_eq_self.2] at this
    intro v hv
    exact decide_eq_true fun he => hw b (he ▸ mem_reverse.1 hv)
  rw [ha, hheads]
  by_cases hb : b = b₁
  · subst hb
    rw [update_self, reverse_cons]
    exact hrest.append (.refl _)
  · rw [update_of_ne hb]
    exact hrest.trans (sublist_append_left ..)

theorem newest_first {ls : List Label} (h : Reachable s) (hf : s.NewestFirst order)
    {order' : List Call} (hs : s.record order ls = some (s', order')) :
    Reachable s' ∧ s'.NewestFirst order' := by
  induction ls generalizing s order with
  | nil => cases hs; exact ⟨h, hf⟩
  | cons l ls ih =>
    obtain ⟨s₁, hs₁, hs⟩ := Option.bind_eq_some_iff.1 hs
    exact ih (h.tail ⟨l, hs₁⟩) (hf.step (.of_reachable h) hs₁) hs

/-! ### What a requeue has moved -/

/-- The thread's call makes its next access. -/
def Acts (t : Tid) (s s' : State) : Prop := ∃ word, s.step (.run t word) = some s'

theorem Acts.run (h : Relation.ReflTransGen (Acts t) s s') : Relation.ReflTransGen Step s s' :=
  h.lift id fun _ _ ⟨word, hs⟩ => ⟨.run t word, hs⟩

/-- The list of the new address: the waiters a call has moved so far, the last of them in front. -/
def Laid (s : State) (t : Tid) (op : Op) (seen base : List Call) : Prop :=
  s.heads (bucket op.target) =
    (((op.drawn seen).take (s.pc t).dealt).drop op.quota).reverse ++ base

variable {word : Option Word}

theorem Laid.advance (h : Inv s) (hd : (s.pc t).Drew op seen)
    (hl : s.Laid t op seen base) (hs : s.advance t word = some s')
    (hr : s'.results (s.call t) = none) : s'.Laid t op seen base := by
  unfold State.advance at hs
  unfold Laid at hl ⊢
  cases hp : s.pc t with
  | disposing op' seen' ws i wakes moved =>
    rw [hp] at hd hl
    obtain ⟨rfl, rfl⟩ := hd
    have hat : op'.Progress seen' ws i wakes moved _ _ := h.at_pc hp
    cases ws with
    | nil =>
      simp only [hp] at hs
      cases hs
      cases (update_self ..).symm.trans hr
    | cons w ws =>
      simp only [hp] at hs
      split at hs <;> cases hs
      · next hc =>
          rw [pc_goto, if_pos rfl]
          have hm := hat.movedBy.symm.trans (hat.claim hc).movedBy
          exact hl.trans (by rw [Pc.dealt, hm]; rfl)
      · rw [pc_goto, if_pos rfl]
        exact hl
  | linking op' seen' w ws i wakes moved =>
    rw [hp] at hd hl
    obtain ⟨rfl, rfl⟩ := hd
    obtain ⟨hat, hc, -⟩ : op'.Progress seen' (w :: ws) i wakes moved _ _ ∧ _ := h.at_pc hp
    simp only [hp] at hs
    cases hs
    rw [pc_goto, if_pos rfl]
    change Function.update s.heads _ _ _ = _
    rw [update_self, hl, Pc.dealt, Pc.dealt, ← (hat.move hc).movedBy, ← hat.movedBy,
      reverse_append]
    rfl
  | _ => rw [hp] at hd; exact hd.elim

theorem Laid.run (h : Reachable s) (hd : s.Drew t c op seen) (hl : s.Laid t op seen base)
    (hs : Relation.ReflTransGen (Acts t) s s') (hr : s'.results c = none) :
    s'.Laid t op seen base := by
  induction hs with
  | refl => exact hl
  | @tail s₁ s₂ hs₁ hs ih =>
    obtain ⟨word, hl⟩ := hs
    obtain ⟨h₁, hd₁⟩ := hd.run h (Acts.run hs₁)
    have hr₁ := results_eq_none hl hr
    rcases hd₁ with ⟨rfl, hd₁⟩ | ⟨r, hr'⟩
    · exact (ih hr₁).advance (.of_reachable h₁) hd₁ hl hr
    · rw [hr'] at hr₁; cases hr₁

/-- A call that is done has turned the waiters it moved around. -/
theorem moved_reversed {k i moved : ℕ} {wakes : List Call} {s₁ s₂ : State} (h : Reachable s)
    (hp : s.pc t = .acquire op k) (hk : op.buckets[k]? = none) (hg : op.guard word = none)
    (hs₁ : s.step (.run t word) = some s₁) (hs₂ : Relation.ReflTransGen (Acts t) s₁ s₂)
    (hp₂ : s₂.pc t = .disposing op seen [] i wakes moved) (hcall : s₂.call t = s.call t) :
    s₂.movedBy (s.call t) = (op.drawn (s.seen op)).drop op.quota ∧
      s₂.heads (bucket op.target) =
        (s₂.movedBy (s.call t)).reverse ++ s₁.heads (bucket op.target) := by
  have hd := Drew.start hp hk hg hs₁
  have hl : s₁.Laid t op (s.seen op) (s₁.heads (bucket op.target)) := by
    have hdealt : (s₁.pc t).dealt = 0 := by
      simp only [State.step, State.advance, hp, hk, hg] at hs₁
      cases hs₁
      rw [State.draw, pc_goto, if_pos rfl]
      rfl
    rw [Laid, hdealt]
    simp
  obtain ⟨h₂, hd₂⟩ := hd.run (h.tail ⟨_, hs₁⟩) (Acts.run hs₂)
  have hinv₂ := Inv.of_reachable h₂
  have hr : s₂.results (s.call t) = none := hcall ▸ (hinv₂.busy t (hp₂ ▸ trivial)).2
  obtain rfl : seen = s.seen op := by
    rcases hd₂ with ⟨-, hd₂⟩ | ⟨r, hr'⟩
    · rw [hp₂] at hd₂; exact hd₂.2
    · rw [hr] at hr'; cases hr'
  have hat : op.Progress (s.seen op) [] i wakes moved _ _ := hinv₂.at_pc hp₂
  rw [hcall] at hat
  have hheads := hl.run (h.tail ⟨_, hs₁⟩) hd hs₂ hr
  rw [Laid, hp₂, Pc.dealt, ← hat.movedBy] at hheads
  exact ⟨hat.done.2.1, hheads⟩

/-! ### Last come, first served -/

/-- First come, first served: no waiter that could have been claimed instead came earlier. -/
def FirstCome (s : State) (order : List Call) (op : Op) (claimed : List Call) : Prop :=
  ∀ w ∈ claimed, ∀ v, s.Queued v → op.hit (s.waiters v) = true → v ∉ claimed →
    ¬ [v, w].Sublist order

theorem quota_le (op : Op) : op.quota ≤ op.left := by
  cases op <;> simp [Op.quota, Op.left]

/-- **Last come, first served.**  After every run of the table, a call that comes to its drain

* has claimed, when it returns, the waiters that came last among those it could hit: none of the
  others came earlier if and only if it claims none or all of them (a wake of `n` has the quota `n`,
  the handoff of a PI lock has 1);
* has, when it is done moving waiters and no other thread has acted, put them in front of those
  queued at the new address, the last of them first: they keep their order if and only if it moved
  one at most, and are behind those queued there if and only if it moved none or there were none. -/
theorem last_come_first_served {ls : List Label} (hs : ({} : State).record [] ls = some (s, order))
    {t : Tid} {op : Op} {k : ℕ} {word : Option Word} {s₁ : State}
    (hp : s.pc t = .acquire op k) (hk : op.buckets[k]? = none) (hg : op.guard word = none)
    (hs₁ : s.step (.run t word) = some s₁) :
    (∀ s₂ o, Relation.ReflTransGen Step s₁ s₂ → s₂.results (s.call t) = some o →
      (s.FirstCome order op (s₂.claimedBy (s.call t)) ↔
        op.quota = 0 ∨ (s.seen op).length ≤ op.quota)) ∧
    (∀ s₂ seen i wakes moved, Relation.ReflTransGen (Acts t) s₁ s₂ → s₂.call t = s.call t →
      s₂.pc t = .disposing op seen [] i wakes moved →
      let b := bucket op.target
      let ms := s₂.movedBy (s.call t)
      ms = (op.drawn (s.seen op)).drop op.quota ∧
      s₂.heads b = ms.reverse ++ s₁.heads b ∧
      ((∀ v w, [v, w].Sublist ms → [v, w].Sublist (s₂.heads b)) ↔ ms.length ≤ 1) ∧
      ((∀ v w, v ∈ s₁.heads b → (s₁.waiters v).addr = op.target → w ∈ ms →
        [v, w].Sublist (s₂.heads b)) ↔
        ms = [] ∨ ∀ v ∈ s₁.heads b, (s₁.waiters v).addr ≠ op.target)) := by
  obtain ⟨h, hf⟩ := newest_first .refl (fun _ => .refl _) hs
  have hinv := Inv.of_reachable h
  refine ⟨fun s₂ o hs₂ ho => ?_, fun s₂ seen i wakes moved hs₂ hcall hp₂ => ?_⟩
  · obtain ⟨hc, -, -⟩ := Drew.returned h hp hk hg hs₁ hs₂ ho
    have hseen : (s.seen op).reverse.Sublist order :=
      (filter_sublist.reverse).trans (hf (bucket op.addr))
    rw [hc, Op.drawn, take_take, min_eq_left (quota_le op),
      ← take_first_come hseen (hinv.seen_nodup op)]
    simp only [FirstCome, mem_seen hinv hp hk, and_imp]
  · obtain ⟨hms, hheads⟩ := moved_reversed h hp hk hg hs₁ hs₂ hp₂ hcall
    have hr : Reachable s₂ := (h.tail ⟨_, hs₁⟩).trans (Acts.run hs₂)
    have hn := (Inv.of_reachable hr).nodup (bucket op.target)
    rw [hheads] at hn
    intro b ms
    rw [show s₂.heads b = ms.reverse ++ s₁.heads b from hheads]
    exact ⟨hms, rfl, reverse_in_order hn, append_behind hn _⟩

/-- Two threads wait on an address, one after the other. -/
def twoWaits : List Label :=
  [.wait 1 4096 1 false (.value 5), .run 1 none, .run 1 (some 5),
    .wait 2 4096 1 false (.value 5), .run 2 none, .run 2 (some 5)]

/-- A wake of both leaves none that came earlier. -/
theorem last_come_first_served_both :
    ∃ s order s₂, ({} : State).record [] (twoWaits ++ [.call 3 (.wake 4096 2 1), .run 3 none]) =
        some (s, order) ∧
      s.exec (List.replicate 4 (.run 3 none)) = some s₂ ∧ s₂.claimedBy 2 = [1, 0] ∧
      s.FirstCome order (.wake 4096 2 1) (s₂.claimedBy 2) := by
  obtain ⟨⟨s, order⟩, hs⟩ : ∃ x, ({} : State).record []
      (twoWaits ++ [.call 3 (.wake 4096 2 1), .run 3 none]) = some x := ⟨_, rfl⟩
  obtain ⟨s₁, hs₁⟩ : ∃ s₁, s.step (.run 3 none) = some s₁ := by cases hs; exact ⟨_, rfl⟩
  obtain ⟨s₂, hs₂⟩ : ∃ s₂, s₁.exec (List.replicate 3 (.run 3 none)) = some s₂ := by
    cases hs; cases hs₁; exact ⟨_, rfl⟩
  have hcall : s.call 3 = 2 := by cases hs; rfl
  have hall := (last_come_first_served hs (t := 3) (by cases hs; rfl) rfl rfl hs₁).1 _ _
    (exec_run hs₂) (by cases hs; cases hs₁; cases hs₂; rfl)
  rw [hcall] at hall
  refine ⟨s, order, s₂, hs, ?_, ?_, hall.2 (.inr ?_)⟩
  · exact Option.bind_eq_some_iff.2 ⟨s₁, hs₁, hs₂⟩
  · cases hs; cases hs₁; cases hs₂; rfl
  · cases hs; decide

/-- **A wake of one starves the first.**  Of two waiters, a wake claims the one that came last. -/
theorem newest_woken_first :
    ∃ s order s₂, ({} : State).record [] (twoWaits ++ [.call 3 (.wake 4096 1 1), .run 3 none]) =
        some (s, order) ∧
      s.exec (List.replicate 3 (.run 3 none)) = some s₂ ∧
      s₂.results 2 = some (.drew (.wake 4096 1 1) [1, 0] 1) ∧ s₂.Queued 0 ∧
      ¬ s.FirstCome order (.wake 4096 1 1) (s₂.claimedBy 2) := by
  refine ⟨_, _, _, rfl, rfl, rfl, ⟨rfl, trivial, rfl⟩, fun h => ?_⟩
  exact h 1 (by decide) 0 ⟨rfl, trivial, rfl⟩ rfl (by decide) (.refl _)

end State

end Aim.Futex
