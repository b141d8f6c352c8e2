import Aim.Futex.Invariant

/-!
# Futex — Waits and wakes are exact

What a call that drains has done when it returns, what a `table_wait` that returned can say about
its claim, and where queued waiters stand in between.  `Drew` follows a call from its drain to its
return over the steps of all threads, and `Moved` the waiters it has moved so far.  And the locks of
the buckets do not deadlock.
-/

namespace Aim.Futex

open List

namespace State

variable {s s' : State} {t : Tid} {w c : Call} {o : Outcome}

/-! ### From the drain to the return -/

/-- What a thread's step leaves to the others. -/
theorem step_frame {l : Label} (hs : s.step l = some s') :
    (∀ u, u ≠ l.thread → s'.threads u = s.threads u) ∧
      (s'.results = s.results ∨ (s.pc l.thread).Busy ∧
        ∃ o, s'.results = Function.update s.results (s.call l.thread) (some o)) := by
  have hgoto : ∀ (s₁ : State) (t : Tid) (p : Pc), s₁.threads = s.threads →
      ∀ u, u ≠ t → (s₁.goto t p).threads u = s.threads u := fun s₁ t p h u hu => by
    rw [State.goto, h]; exact Function.update_of_ne hu ..
  cases l with
  | wait t addr bitset pi check =>
    simp only [State.step, begin] at hs
    split at hs <;> cases hs
    exact ⟨fun u hu => Function.update_of_ne hu .., .inl rfl⟩
  | call t op =>
    simp only [State.step, begin] at hs
    split at hs <;> cases hs
    exact ⟨fun u hu => Function.update_of_ne hu .., .inl rfl⟩
  | run t word =>
    simp only [State.step, State.advance, State.tryLock] at hs
    repeat' split at hs
    all_goals first
      | cases hs; done
      | (cases hs; exact ⟨hgoto _ t _ rfl, .inl rfl⟩)
      | (cases hs
         refine ⟨hgoto _ t _ rfl, .inr ⟨?_, _, rfl⟩⟩
         simp only [Label.thread, *]
         trivial)
  | timeout t =>
    simp only [State.step, State.decide] at hs
    split at hs <;> cases hs
    exact ⟨hgoto _ t _ rfl, .inl rfl⟩
  | interrupt t =>
    simp only [State.step, State.decide] at hs
    split at hs <;> cases hs
    exact ⟨hgoto _ t _ rfl, .inl rfl⟩
  | park t =>
    simp only [State.step, State.decide] at hs
    split at hs <;> cases hs
    exact ⟨hgoto _ t _ rfl, .inl rfl⟩

/-- A call has drained by `op` what it saw, and deals with it or has returned. -/
def Drew (s : State) (t : Tid) (c : Call) (op : Op) (seen : List Call) : Prop :=
  s.call t = c ∧ (s.pc t).Drew op seen ∨ ∃ r, s.results c = some (.drew op seen r)

variable {op : Op} {seen : List Call} {word : Option Word}

theorem Drew.advance (hd : (s.pc t).Drew op seen)
    (hs : s.advance t word = some s') : s'.Drew t (s.call t) op seen := by
  unfold State.advance at hs
  cases hp : s.pc t with
  | disposing op' seen' ws i wakes moved =>
    rw [hp] at hd
    obtain ⟨rfl, rfl⟩ := hd
    cases ws with
    | nil =>
      simp only [hp] at hs
      cases hs
      exact .inr ⟨_, Function.update_self ..⟩
    | cons w ws =>
      simp only [hp] at hs
      split at hs <;> cases hs
      · exact .inl ⟨call_goto, by rw [pc_goto, if_pos rfl]; exact ⟨rfl, rfl⟩⟩
      · exact .inl ⟨call_goto, by rw [pc_goto, if_pos rfl]; exact ⟨rfl, rfl⟩⟩
  | linking op' seen' w ws i wakes moved =>
    rw [hp] at hd
    obtain ⟨rfl, rfl⟩ := hd
    simp only [hp] at hs
    cases hs
    exact .inl ⟨call_goto, by rw [pc_goto, if_pos rfl]; exact ⟨rfl, rfl⟩⟩
  | _ => rw [hp] at hd; exact hd.elim

theorem Drew.step {l : Label} (h : Inv s) (hd : s.Drew t c op seen)
    (hs : s.step l = some s') : s'.Drew t c op seen := by
  obtain ⟨hthreads, hresults⟩ := step_frame hs
  rcases hd with ⟨rfl, hd⟩ | ⟨r, hr⟩
  · by_cases ht : t = l.thread
    · cases l with
      | run u word =>
        obtain rfl : t = u := ht
        exact Drew.advance hd hs
      | wait u _ _ _ _ | call u _ =>
        obtain rfl : t = u := ht
        simp only [State.step, begin] at hs
        split at hs <;> cases hs
        next hi =>
        have hi : s.pc t = .idle := hi
        rw [hi] at hd
        exact hd.elim
      | timeout u | interrupt u | park u =>
        obtain rfl : t = u := ht
        simp only [State.step, State.decide] at hs
        split at hs <;> cases hs
        next hi => rw [hi] at hd; exact hd.elim
    · have := hthreads t ht
      exact .inl ⟨by rw [call, this]; rfl, by rw [pc, this]; exact hd⟩
  · refine .inr ⟨r, ?_⟩
    rcases hresults with he | ⟨hb, o, he⟩
    · rw [he, hr]
    · rw [he, Function.update_of_ne, hr]
      rintro rfl
      rw [(h.busy _ hb).2] at hr
      cases hr

theorem Drew.run (h : Reachable s) (hd : s.Drew t c op seen)
    (hs : Relation.ReflTransGen Step s s') : Reachable s' ∧ s'.Drew t c op seen := by
  induction hs with
  | refl => exact ⟨h, hd⟩
  | tail _ hs ih =>
    obtain ⟨l, hl⟩ := hs
    exact ⟨ih.1.tail ⟨l, hl⟩, ih.2.step (.of_reachable ih.1) hl⟩

variable {k : ℕ}

theorem Drew.start (hp : s.pc t = .acquire op k)
    (hk : op.buckets[k]? = none) (hg : op.guard word = none)
    (hs : s.step (.run t word) = some s') : s'.Drew t (s.call t) op (s.seen op) := by
  simp only [State.step, State.advance, hp, hk, hg] at hs
  cases hs
  exact .inl ⟨call_goto, by rw [State.draw, pc_goto, if_pos rfl]; exact ⟨rfl, rfl⟩⟩

/-- What a call that drained has done by its return. -/
theorem Drew.returned {s₁ s₂ : State} (h : Reachable s) (hp : s.pc t = .acquire op k)
    (hk : op.buckets[k]? = none) (hg : op.guard word = none) (hs : s.step (.run t word) = some s₁)
    (hr : Relation.ReflTransGen Step s₁ s₂) (ho : s₂.results (s.call t) = some o) :
    s₂.claimedBy (s.call t) = (op.drawn (s.seen op)).take op.quota ∧
      s₂.movedBy (s.call t) = (op.drawn (s.seen op)).drop op.quota ∧
      o = .drew op (s.seen op) (op.result (s₂.claimedBy (s.call t)).length
        (s₂.movedBy (s.call t)).length) := by
  have hd := Drew.start hp hk hg hs
  obtain ⟨h₂, hd₂⟩ := hd.run (h.tail ⟨_, hs⟩) hr
  have hinv := Inv.of_reachable h₂
  rcases hd₂ with ⟨hc, hd⟩ | ⟨r, hr⟩
  · have hb : (s₂.pc t).Busy := by
      revert hd
      cases s₂.pc t <;> simp [Pc.Drew, Pc.Busy]
    rw [← hc, (hinv.busy t hb).2] at ho
    cases ho
  · rw [hr] at ho
    cases ho
    obtain ⟨-, hcb, hmb, rfl⟩ := hinv.settled _ _ hr
    exact ⟨hcb, hmb, rfl⟩

/-! ### What a call has moved -/

/-- A step of another thread leaves a bucket alone whose lock the call holds, and what the call has
moved. -/
theorem locked_frame (h : Inv s) {l : Label} {b : Bucket} (hs : s.step l = some s')
    (ht : l.thread ≠ t) (hbusy : (s.pc t).Busy) (hb : s.locks b = some t) :
    s'.heads b = s.heads b ∧ (∀ w ∈ s.heads b, (s'.waiters w).addr = (s.waiters w).addr) ∧
      s'.movedBy (s.call t) = s.movedBy (s.call t) := by
  have hother : ∀ b' ∈ (s.pc l.thread).held, ∀ rest,
      Function.update s.heads b' rest b = s.heads b := by
    intro b' hb' rest
    refine Function.update_of_ne ?_ ..
    rintro rfl
    exact ht (Option.some.inj (((h.held _ _).2 hb').symm.trans hb))
  cases l with
  | wait u addr bitset pi check =>
    simp only [State.step, begin] at hs
    split at hs <;> cases hs
    refine ⟨rfl, fun w hw => congrArg Waiter.addr ?_, rfl⟩
    exact Function.update_of_ne (h.lt (h.linked b w hw).1).ne ..
  | call u op =>
    simp only [State.step, begin] at hs
    split at hs <;> cases hs
    exact ⟨rfl, fun _ _ => rfl, rfl⟩
  | timeout u | interrupt u | park u =>
    simp only [State.step, State.decide] at hs
    split at hs <;> cases hs
    exact ⟨rfl, fun _ _ => rfl, rfl⟩
  | run u word =>
    simp only [State.step, State.advance, State.tryLock] at hs
    change u ≠ t at ht
    change ∀ b' ∈ (s.pc u).held, _ at hother
    cases hp : s.pc u with
    | queuing check b' | confirming r b' =>
      simp only [hp] at hs
      rw [hp] at hother
      split at hs <;> cases hs
      · exact ⟨rfl, fun _ _ => rfl, rfl⟩
      · exact ⟨hother b' (mem_singleton_self b') _, fun _ _ => rfl, rfl⟩
    | acquire op k =>
      simp only [hp] at hs
      split at hs
      · split at hs <;> cases hs
        exact ⟨rfl, fun _ _ => rfl, rfl⟩
      · next hk =>
        split at hs <;> cases hs
        · exact ⟨rfl, fun _ _ => rfl, rfl⟩
        · have hheld : (s.pc u).held = op.buckets := by
            rw [hp]; exact take_of_length_le (getElem?_eq_none_iff.1 hk)
          exact ⟨hother _ (hheld ▸ op.bucket_addr_mem) _, fun _ _ => rfl, rfl⟩
    | disposing op seen ws i wakes moved =>
      cases ws with
      | nil =>
        simp only [hp] at hs
        cases hs
        exact ⟨rfl, fun _ _ => rfl, rfl⟩
      | cons w ws =>
        have hw : w ∈ (s.pc u).transit := by rw [hp]; exact .head _
        have hne : ∀ v ∈ s.heads b, v ≠ w := fun v hv he => h.notMem_heads hw b (he ▸ hv)
        simp only [hp] at hs
        split at hs <;> cases hs <;>
          exact ⟨rfl, fun v hv => congrArg Waiter.addr (Function.update_of_ne (hne v hv) ..), rfl⟩
    | linking op seen w ws i wakes moved =>
      simp only [hp] at hs
      cases hs
      rw [hp] at hother
      refine ⟨hother _ op.bucket_target_mem _, fun _ _ => rfl, ?_⟩
      refine (movedBy_append s _ (s.call u) (s.call t) w rfl).trans ?_
      rw [if_neg fun he => ht (h.own u t (hp ▸ trivial) hbusy he.symm), append_nil]
    | idle | entering | looking | deciding | leaving | locking | comparing =>
      simp only [hp] at hs
      first
        | cases hs; done
        | (try split at hs) <;> cases hs <;> exact ⟨rfl, fun _ _ => rfl, rfl⟩

/-- The waiters a call has moved so far have the new address and stand in its bucket's list. -/
def Moved (s : State) (c : Call) (op : Op) : Prop :=
  ∀ w ∈ s.movedBy c, w ∈ s.heads (bucket op.target) ∧ (s.waiters w).addr = op.target

theorem Moved.advance (h : Inv s) (hd : (s.pc t).Drew op seen) (hm : s.Moved (s.call t) op)
    (hs : s.advance t word = some s') : s'.Moved (s.call t) op := by
  unfold State.advance at hs
  cases hp : s.pc t with
  | disposing op' seen' ws i wakes moved =>
    cases ws with
    | nil =>
      simp only [hp] at hs
      cases hs
      exact hm
    | cons w ws =>
      have hw : w ∈ (s.pc t).transit := by rw [hp]; exact .head _
      simp only [hp] at hs
      split at hs <;> cases hs <;> intro v hv
      all_goals
        obtain ⟨hin, haddr⟩ := hm v hv
        refine ⟨hin, (congrArg Waiter.addr (Function.update_of_ne ?_ ..)).trans haddr⟩
        rintro rfl
        exact h.notMem_heads hw _ hin
  | linking op' seen' w ws i wakes moved =>
    rw [hp] at hd
    obtain ⟨rfl, rfl⟩ := hd
    have haddr : (s.waiters w).addr = op'.target := (h.at_pc hp).2.2
    simp only [hp] at hs
    cases hs
    intro v hv
    have hmoved := movedBy_append s _ (s.call t) (s.call t) w rfl
    rw [if_pos rfl] at hmoved
    refine ⟨(Lists.mem_link _ v).2 ?_, ?_⟩
    all_goals rcases mem_append.1 (hmoved ▸ hv) with hv | hv
    · exact .inr (hm v hv).1
    · exact .inl ⟨rfl, mem_singleton.1 hv⟩
    · exact (hm v hv).2
    · rw [mem_singleton.1 hv]
      exact haddr
  | _ => rw [hp] at hd; exact hd.elim

theorem Moved.step {l : Label} (h : Inv s) (hd : (s.pc t).Drew op seen)
    (hm : s.Moved (s.call t) op) (hs : s.step l = some s') : s'.Moved (s.call t) op := by
  by_cases ht : l.thread = t
  · cases l with
    | run u word =>
      obtain rfl : u = t := ht
      exact hm.advance h hd hs
    | wait u _ _ _ _ | call u _ =>
      obtain rfl : u = t := ht
      simp only [State.step, begin] at hs
      split at hs <;> cases hs
      next hi =>
      have hi : s.pc u = .idle := hi
      rw [hi] at hd
      exact hd.elim
    | timeout u | interrupt u | park u =>
      obtain rfl : u = t := ht
      simp only [State.step, State.decide] at hs
      split at hs <;> cases hs
      next hi => rw [hi] at hd; exact hd.elim
  · have hheld : (s.pc t).held = op.buckets ∧ (s.pc t).Busy := by
      revert hd
      cases s.pc t <;> simp [Pc.Drew, Pc.held, Pc.Busy] <;> rintro rfl _ <;> rfl
    obtain ⟨hheads, haddr, hmoved⟩ := locked_frame h hs ht hheld.2
      ((h.held _ t).2 (hheld.1 ▸ op.bucket_target_mem))
    intro w hw
    obtain ⟨hin, ha⟩ := hm w (hmoved ▸ hw)
    exact ⟨hheads ▸ hin, (haddr w hin).trans ha⟩

/-- A call that has not returned had not before. -/
theorem results_eq_none {l : Label} (hs : s.step l = some s') (hr : s'.results c = none) :
    s.results c = none := by
  rcases (step_frame hs).2 with he | ⟨-, o, he⟩
  · rwa [he] at hr
  · rw [he, Function.update_apply] at hr
    split at hr
    · cases hr
    · exact hr

theorem Moved.run (h : Reachable s) (hd : s.Drew t c op seen) (hm : s.Moved c op)
    (hs : Relation.ReflTransGen Step s s') (hr : s'.results c = none) : s'.Moved c op := by
  induction hs with
  | refl => exact hm
  | @tail s₁ s₂ hs₁ hs ih =>
    obtain ⟨l, hl⟩ := hs
    obtain ⟨h₁, hd₁⟩ := hd.run h hs₁
    have hr₁ := results_eq_none hl hr
    rcases hd₁ with ⟨rfl, hd₁⟩ | ⟨r, hr'⟩
    · exact (ih hr₁).step (.of_reachable h₁) hd₁ hl
    · rw [hr'] at hr₁; cases hr₁

/-- When a call that drained returns, what it has moved is queued at the new address. -/
theorem Moved.returned {s₁ s₂ : State} (h : Reachable s) (hp : s.pc t = .acquire op k)
    (hk : op.buckets[k]? = none) (hg : op.guard word = none) (hs : s.step (.run t word) = some s₁)
    (hrun : Relation.ReflTransGen Step s₁ s') (hr : s'.results (s.call t) = none)
    (hlast : Step s' s₂) (hw : w ∈ s₂.movedBy (s.call t)) :
    s₂.Queued w ∧ (s₂.waiters w).addr = op.target ∧ w ∈ s₂.heads (bucket op.target) := by
  have hd := Drew.start hp hk hg hs
  have h₁ : Reachable s₁ := h.tail ⟨_, hs⟩
  have hnone : s₁.movedBy (s.call t) = [] := by
    have hmn := ((Inv.of_reachable h).at_pc hp).2
    simp only [State.step, State.advance, hp, hk, hg] at hs
    cases hs
    exact hmn
  have hm : s₁.Moved (s.call t) op := fun v hv => by rw [hnone] at hv; cases hv
  obtain ⟨h', hd'⟩ := hd.run h₁ hrun
  have hm' := hm.run h₁ hd hrun hr
  rcases hd' with ⟨hc, hd'⟩ | ⟨r, hr'⟩
  · obtain ⟨l, hl⟩ := hlast
    rw [← hc] at hm' hw
    obtain ⟨hin, haddr⟩ := hm'.step (.of_reachable h') hd' hl w hw
    exact ⟨((Inv.of_reachable (h'.tail ⟨l, hl⟩)).linked _ w hin).1, haddr, hin⟩
  · rw [hr'] at hr; cases hr

/-- Outside a locked section, the waiters in the bucket are those queued on the address. -/
theorem mem_seen (h : Inv s) (hp : s.pc t = .acquire op k)
    (hk : op.buckets[k]? = none) : w ∈ s.seen op ↔ s.Queued w ∧ op.hit (s.waiters w) = true := by
  refine ⟨h.seen_queued, fun ⟨hq, hhit⟩ => mem_filter.2 ⟨?_, hhit⟩⟩
  have haddr : (s.waiters w).addr = op.addr := op.addr_of_hit hhit
  rcases h.found w hq with hw | ⟨u, hu⟩
  · rwa [haddr] at hw
  -- whoever has the waiter in hand holds the bucket's lock, as this call does
  have h1 := (h.held _ u).2 (h.carried u w hu).2.1
  have hheld : (s.pc t).held = op.buckets := by
    rw [hp]; exact take_of_length_le (getElem?_eq_none_iff.1 hk)
  have h2 := (h.held (bucket op.addr) t).2 (hheld ▸ op.bucket_addr_mem)
  rw [haddr, h2] at h1
  rw [← Option.some.inj h1, hp] at hu
  cases hu

/-! ### Waits and wakes are exact -/

/-- A call's waiter is unclaimed until it is claimed once. -/
theorem claimersOf_eq (h : Inv s) (w : Call) :
    ((s.waiters w).woken = true ↔ ∃ c, s.claimersOf w = [c]) ∧
      ((s.waiters w).woken = false ↔ s.claimersOf w = []) := by
  have := h.counted w
  cases hw : (s.waiters w).woken with
  | true =>
    rw [hw, if_pos rfl, length_eq_one_iff] at this
    obtain ⟨c, hc⟩ := this
    simp [hc]
  | false =>
    rw [hw, if_neg Bool.false_ne_true, length_eq_zero_iff] at this
    simp [this]

theorem buckets_sorted (op : Op) : op.buckets.Pairwise (· < ·) := by
  cases op <;> simp only [Op.buckets, pairwise_singleton]
  split_ifs with he hlt
  · exact pairwise_singleton _ _
  · exact pairwise_pair.2 hlt
  · exact pairwise_pair.2 (lt_of_le_of_ne (not_lt.1 hlt) (Ne.symm he))

/-- A call that cannot go on is idle, looks at its clock, or needs a taken lock after those it
holds. -/
theorem advance_eq_none (h : s.advance t word = none) :
    s.pc t = .idle ∨ s.pc t = .deciding ∨
      ∃ b u, s.locks b = some u ∧ ∀ b' ∈ (s.pc t).held, b' < b := by
  have htaken : ∀ {b p}, s.tryLock t b p = none → ∃ u, s.locks b = some u := by
    intro b p hb
    unfold tryLock at hb
    split_ifs at hb with hfree
    exact Option.ne_none_iff_exists'.1 hfree
  unfold State.advance at h
  cases hp : s.pc t with
  | idle => exact .inl rfl
  | deciding => exact .inr (.inl rfl)
  | entering _ b | locking _ b =>
    obtain ⟨u, hu⟩ := htaken (by simpa only [hp] using h)
    exact .inr (.inr ⟨b, u, hu, fun _ hb => (by cases hb)⟩)
  | acquire op k =>
    simp only [hp] at h
    split at h
    · next b hb =>
        obtain ⟨u, hu⟩ := htaken h
        refine .inr (.inr ⟨b, u, hu, fun b' hb' => ?_⟩)
        obtain ⟨hk, rfl⟩ := List.getElem?_eq_some_iff.1 hb
        obtain ⟨j, hj, rfl⟩ := mem_take_iff_getElem.1 hb'
        exact pairwise_iff_getElem.1 (buckets_sorted op) j k _ hk (by omega)
    · split at h <;> cases h
  | disposing op seen ws i wakes moved =>
    cases ws <;> simp only [hp] at h
    · cases h
    · split at h <;> cases h
  | leaving | linking =>
    simp only [hp] at h
    cases h
  | queuing | looking | comparing | confirming =>
    simp only [hp] at h
    split at h <;> cases h

/-- **The locks do not deadlock.**  A call that is under way and does not look at its clock has a
next access, or a call that holds a lock has one. -/
theorem locks_never_deadlock (hs : Reachable s) (hidle : s.pc t ≠ .idle)
    (hdeciding : s.pc t ≠ .deciding) :
    ∃ u, (u = t ∨ ∃ b, s.locks b = some u) ∧ ∀ word, ∃ s', s.step (.run u word) = some s' := by
  by_contra! hno
  -- the holder of a lock could wait only for the holder of a later one
  have hfree : ∀ b u, s.locks b ≠ some u := by
    intro b
    induction b using WellFoundedGT.induction with
    | _ b ih =>
      intro u hu
      have hheld := ((Inv.of_reachable hs).held b u).1 hu
      obtain ⟨word, hn⟩ := hno u (.inr ⟨b, hu⟩)
      rcases advance_eq_none (Option.eq_none_iff_forall_ne_some.2 hn) with hp | hp | ⟨b', v, hv, hlt⟩
      · rw [hp] at hheld
        cases hheld
      · rw [hp] at hheld
        cases hheld
      · exact ih b' (hlt b hheld) v hv
  obtain ⟨word, hn⟩ := hno t (.inl rfl)
  rcases advance_eq_none (Option.eq_none_iff_forall_ne_some.2 hn) with hp | hp | ⟨b, u, hu, -⟩
  · exact hidle hp
  · exact hdeciding hp
  · exact hfree b u hu

/-- A wake that needs the lock another one holds. -/
theorem locks_never_deadlock_held :
    ∃ s, Reachable s ∧ s.advance 1 none = none ∧
      ∃ u, (u = 1 ∨ ∃ b, s.locks b = some u) ∧ ∀ word, ∃ s', s.step (.run u word) = some s' := by
  obtain ⟨s, hs⟩ : ∃ s, ({} : State).exec
    [.call 1 (.wake 4096 1 1), .call 2 (.wake 4096 1 1), .run 2 none] = some s := ⟨_, rfl⟩
  have hr : Reachable s := Reachable.exec .refl hs
  cases hs
  exact ⟨_, hr, rfl, locks_never_deadlock hr (fun h => (by cases h)) fun h => (by cases h)⟩

end State

end Aim.Futex
