import Aim.Futex.Table

/-!
# Futex — Where the waiters are

What every step of every thread keeps.  A queued waiter is in the list of its bucket, or in the
hands of one call that drained it and holds the lock of its bucket; a call's locks are those its
place says; a waiter is claimed once if its `woken` is set and never otherwise.

* `Lists` is the part about locks and lists, `Inv` adds what holds of calls under way (`At`) and of
  those that returned (`Settled`).
* `Lists.touch` and `Inv.framed` are the frames: a step of one thread moves some waiters, and must
  leave the rest alone for the others.
* One lemma a step, and `Inv.of_reachable`.
-/

namespace Aim.Futex

open List Function

/-! ### Draining a list -/

variable {σ : Type}

theorem drain_upTo_fst (hit : Call → Bool) (left : ℕ) (l : List Call) :
    (drain (upTo hit) left l).1 = (l.filter hit).take left := by
  induction l generalizing left with
  | nil => simp [drain]
  | cons w l ih =>
    cases left with
    | zero => simp [drain, upTo, ih]
    | succ n => by_cases hw : hit w <;> simp [drain, upTo, ih, hw]

theorem drain_perm (pick : σ → Call → Bool × σ) (x : σ) (l : List Call) :
    ((drain pick x l).1 ++ (drain pick x l).2).Perm l := by
  induction l generalizing x with
  | nil => exact .refl _
  | cons w l ih =>
    simp only [drain]
    split
    · exact (ih _).cons w
    · exact perm_middle.trans ((ih _).cons w)

variable {l : List Call}

/-- A list without duplicates is cut in two. -/
theorem drain_nodup (pick : σ → Call → Bool × σ) (x : σ) (h : l.Nodup) :
    (drain pick x l).1.Nodup ∧ (drain pick x l).2.Nodup ∧
      ∀ w, w ∈ (drain pick x l).2 ↔ w ∈ l ∧ w ∉ (drain pick x l).1 := by
  have hp := drain_perm pick x l
  obtain ⟨h1, h2, hd⟩ := nodup_append.1 (hp.nodup_iff.2 h)
  refine ⟨h1, h2, fun w => ?_⟩
  rw [← hp.mem_iff, mem_append]
  constructor
  · exact fun hw => ⟨.inr hw, fun hw' => hd w hw' w hw rfl⟩
  · rintro ⟨hw | hw, hn⟩
    · exact absurd hw hn
    · exact hw

/-- A waiter that drains itself. -/
theorem mem_drain_self (c : Call) (l : List Call) (w : Call) :
    w ∈ (drain (fun (_ : Unit) x => (x == c, ())) () l).2 ↔ w ∈ l ∧ w ≠ c := by
  induction l with
  | nil => simp [drain]
  | cons v l ih =>
    by_cases hv : v = c <;> simp [drain, hv, ih] <;> grind

/-! ### What a step changes -/

namespace State

variable {s : State} {t u : Tid} {b : Bucket} {w : Call} {p : Pc} {o : Outcome}

@[simp] theorem pc_goto : (s.goto t p).pc u = if u = t then p else s.pc u := by
  by_cases h : u = t <;> simp [goto, pc, h]

@[simp] theorem call_goto : (s.goto t p).call u = s.call u := by
  by_cases h : u = t <;> simp [goto, call, h]

@[simp] theorem pc_finish : (s.finish t o).pc u = if u = t then .idle else s.pc u := pc_goto

@[simp] theorem call_finish : (s.finish t o).call u = s.call u := call_goto

@[simp] theorem pc_start : (s.start t p).pc u = if u = t then p else s.pc u := by
  by_cases h : u = t <;> simp [start, pc, h]

@[simp] theorem call_start : (s.start t p).call u = if u = t then s.calls else s.call u := by
  by_cases h : u = t <;> simp [start, call, h]

theorem claimedBy_append (s : State) (cs : List (Call × Call)) (c d w : Call)
    (h : cs = s.claims ++ [(c, w)]) :
    { s with claims := cs }.claimedBy d = s.claimedBy d ++ if d = c then [w] else [] := by
  subst h
  by_cases hd : d = c
  · subst hd; simp [claimedBy]
  · simp [claimedBy, hd, Ne.symm hd]

theorem claimersOf_append (s : State) (cs : List (Call × Call)) (c v w : Call)
    (h : cs = s.claims ++ [(c, w)]) :
    { s with claims := cs }.claimersOf v = s.claimersOf v ++ if v = w then [c] else [] := by
  subst h
  by_cases hv : v = w
  · subst hv; simp [claimersOf]
  · simp [claimersOf, hv, Ne.symm hv]

theorem movedBy_append (s : State) (ms : List (Call × Call)) (c d w : Call)
    (h : ms = s.moves ++ [(c, w)]) :
    { s with moves := ms }.movedBy d = s.movedBy d ++ if d = c then [w] else [] := by
  subst h
  by_cases hd : d = c
  · subst hd; simp [movedBy]
  · simp [movedBy, hd, Ne.symm hd]

end State

theorem Pc.Waits.busy {p : Pc} (h : p.Waits) : p.Busy := by
  cases p <;> first | exact h.elim | trivial

/-! ### The invariant -/

/-- How many of the drained waiters are claimed. -/
def Op.quota : Op → ℕ
  | .wake _ n _ => n
  | .requeue _ nwake _ _ _ => nwake
  | .handoff _ _ => 1

/-- What a call drained. -/
def Op.drawn (op : Op) (seen : List Call) : List Call := seen.take op.left

/-- A call has dealt with the first `i` waiters it drained. -/
structure Op.Progress (op : Op) (seen ws : List Call) (i : ℕ) (wakes : List Call) (moved : ℕ)
    (claimedBy movedBy : List Call) : Prop where
  nodup : seen.Nodup
  short : seen.length ≤ 2 ^ 31
  index : i ≤ (op.drawn seen).length
  todo : ws = (op.drawn seen).drop i
  wakes : wakes = claimedBy
  moved : moved = movedBy.length
  claimedBy : claimedBy = ((op.drawn seen).take i).take op.quota
  movedBy : movedBy = ((op.drawn seen).take i).drop op.quota

namespace Op

theorem bucket_addr_mem (op : Op) : bucket op.addr ∈ op.buckets := by
  cases op <;> simp only [addr, buckets]
  case requeue => split_ifs with h <;> simp
  all_goals simp

theorem bucket_target_mem (op : Op) : bucket op.target ∈ op.buckets := by
  cases op <;> simp only [target, buckets]
  case requeue => split_ifs with h <;> simp [h]
  all_goals simp

theorem addr_of_hit (op : Op) {x : Waiter} (h : op.hit x = true) : x.addr = op.addr := by
  cases op <;> simp [hit] at h
  case wake => exact h.1.2
  all_goals exact h.2

/-- The claimed waiters are the first of those drained. -/
theorem claims_eq (op : Op) {i : ℕ} (hi : i < op.left) (hs : i < 2 ^ 32) :
    op.claims i = decide (i < op.quota) := by
  cases op with
  | requeue => exact decide_eq_decide.2 (by rw [Nat.mod_eq_of_lt hs, quota])
  | wake => exact (decide_eq_true hi).symm
  | handoff => exact (decide_eq_true hi).symm

namespace Progress

variable {op : Op} {seen ws wakes cs ms : List Call} {w : Call} {i moved : ℕ}

theorem start (hn : seen.Nodup) (hl : seen.length ≤ 2 ^ 31) :
    op.Progress seen (op.drawn seen) 0 [] 0 [] [] :=
  ⟨hn, hl, Nat.zero_le _, rfl, rfl, rfl, by simp, by simp⟩

section

variable (h : op.Progress seen (w :: ws) i wakes moved cs ms)

include h

theorem index_lt : ∃ hi : i < (op.drawn seen).length, (op.drawn seen)[i] = w := by
  have hd := h.todo
  have hi : i < (op.drawn seen).length := by
    by_contra hn
    rw [drop_eq_nil_of_le (not_lt.1 hn)] at hd
    cases hd
  exact ⟨hi, by rw [drop_eq_getElem_cons hi] at hd; exact (List.cons.inj hd).1.symm⟩

theorem todo_tail : ws = (op.drawn seen).drop (i + 1) := by
  have hd := h.todo
  rw [drop_eq_getElem_cons h.index_lt.1] at hd
  exact (List.cons.inj hd).2

theorem take_succ : (op.drawn seen).take (i + 1) = (op.drawn seen).take i ++ [w] := by
  obtain ⟨hi, rfl⟩ := h.index_lt
  exact take_succ_eq_append_getElem hi

theorem claims_iff : op.claims i = true ↔ i < op.quota := by
  have hi := h.index_lt.1
  have hl := h.short
  rw [drawn, length_take] at hi
  rw [op.claims_eq (by omega) (by omega), decide_eq_true_iff]

theorem length_take :
    ((op.drawn seen).take i).length = i := length_take_of_le h.index

theorem claim (hc : op.claims i = true) :
    op.Progress seen ws (i + 1) (wakes ++ [w]) moved (cs ++ [w]) ms := by
  have hi := h.claims_iff.1 hc
  have hlen : ((op.drawn seen).take i).length ≤ op.quota := h.length_take.trans_le hi.le
  have hlen' : ((op.drawn seen).take (i + 1)).length ≤ op.quota :=
    (length_take_le _ _).trans hi
  refine ⟨h.nodup, h.short, h.index_lt.1, h.todo_tail, by rw [h.wakes], h.moved, ?_, ?_⟩
  · rw [take_of_length_le hlen', h.take_succ, h.claimedBy, take_of_length_le hlen]
  · rw [drop_of_length_le hlen', h.movedBy, drop_of_length_le hlen]

theorem move (hc : op.claims i = false) :
    op.Progress seen ws (i + 1) wakes (moved + 1) cs (ms ++ [w]) := by
  have hi : op.quota ≤ i := not_lt.1 fun hi => by simp [h.claims_iff.2 hi] at hc
  have hlen := h.length_take
  refine ⟨h.nodup, h.short, h.index_lt.1, h.todo_tail, h.wakes, by simp [h.moved], ?_, ?_⟩
  · rw [h.take_succ, h.claimedBy, take_append_of_le_length (by omega)]
  · rw [h.take_succ, h.movedBy, drop_append_of_le_length (by omega)]

end

/-- All drained waiters are dealt with. -/
theorem done (h : op.Progress seen [] i wakes moved cs ms) :
    cs = (op.drawn seen).take op.quota ∧ ms = (op.drawn seen).drop op.quota ∧
      wakes.length = cs.length ∧ moved = ms.length := by
  have hi : (op.drawn seen).length ≤ i := drop_eq_nil_iff.1 h.todo.symm
  have := h.claimedBy
  have := h.movedBy
  rw [take_of_length_le hi] at *
  exact ⟨‹_›, ‹_›, by rw [h.wakes], h.moved⟩

end Progress

end Op

/-- Whether the call has drained by `op`, when it saw `seen`. -/
def Pc.Drew (op : Op) (seen : List Call) : Pc → Prop
  | .disposing op' seen' _ _ _ _ | .linking op' seen' _ _ _ _ _ => op' = op ∧ seen' = seen
  | _ => False

namespace State

/-- What holds of a call where it is. -/
def AtPc (s : State) (t : Tid) : Pc → Prop
  | .idle => True
  | .entering _ b | .queuing _ b =>
    (s.waiter t).thread = t ∧ bucket (s.waiter t).addr = b ∧ (s.waiter t).woken = false
  | .looking | .deciding => (s.waiter t).thread = t
  | .leaving r | .locking r _ | .comparing r _ => (s.waiter t).thread = t ∧ r ≠ 0
  | .confirming r b => (s.waiter t).thread = t ∧ r ≠ 0 ∧ bucket (s.waiter t).addr = b
  | .acquire _ _ => s.claimedBy (s.call t) = [] ∧ s.movedBy (s.call t) = []
  | .disposing op seen ws i wakes moved =>
    op.Progress seen ws i wakes moved (s.claimedBy (s.call t)) (s.movedBy (s.call t))
  | .linking op seen w ws i wakes moved =>
    op.Progress seen (w :: ws) i wakes moved (s.claimedBy (s.call t)) (s.movedBy (s.call t)) ∧
      op.claims i = false ∧ (s.waiters w).addr = op.target

def At (s : State) (t : Tid) : Prop := s.AtPc t (s.pc t)

/-- What holds of a call that returned. -/
def Settled (s : State) (c : Call) : Outcome → Prop
  | .answered _ => (s.waiters c).woken = false
  | .waited r => (s.waiters c).woken = true ↔ r = 0
  | .refused _ => s.claimedBy c = [] ∧ s.movedBy c = []
  | .drew op seen r =>
    seen.Nodup ∧ s.claimedBy c = (op.drawn seen).take op.quota ∧
      s.movedBy c = (op.drawn seen).drop op.quota ∧
      r = op.result (s.claimedBy c).length (s.movedBy c).length

/-- Where the locks are and where the queued waiters are: in the list of their bucket, or with a call
that holds its lock. -/
structure Lists (s : State) : Prop where
  held : ∀ b t, s.locks b = some t ↔ b ∈ (s.pc t).held
  nodup : ∀ b, (s.heads b).Nodup
  linked : ∀ b w, w ∈ s.heads b → s.Queued w ∧ bucket (s.waiters w).addr = b
  carried : ∀ t w, w ∈ (s.pc t).transit → s.Queued w ∧
    bucket (s.waiters w).addr ∈ (s.pc t).held ∧ w ∉ s.heads (bucket (s.waiters w).addr)
  once : ∀ t, (s.pc t).transit.Nodup
  found : ∀ w, s.Queued w →
    w ∈ s.heads (bucket (s.waiters w).addr) ∨ ∃ t, w ∈ (s.pc t).transit

structure Inv (s : State) : Prop extends Lists s where
  busy : ∀ t, (s.pc t).Busy → s.call t < s.calls ∧ s.results (s.call t) = none
  own : ∀ t u, (s.pc t).Busy → (s.pc u).Busy → s.call t = s.call u → t = u
  fresh : ∀ c, s.calls ≤ c → (s.waiters c).woken = false ∧ s.results c = none ∧
    s.claimedBy c = [] ∧ s.movedBy c = []
  counted : ∀ w, (s.claimersOf w).length = if (s.waiters w).woken then 1 else 0
  here : ∀ t, s.At t
  settled : ∀ c o, s.results c = some o → s.Settled c o

variable {s s' s₁ : State} {t u : Tid} {b : Bucket} {w c : Call} {p q : Pc} {o : Outcome}
variable {op : Op} {seen ws wakes : List Call} {i moved : ℕ}

theorem At.congr (h : s.At t) (hp : s'.pc t = s.pc t)
    (ht : (s'.waiter t).thread = (s.waiter t).thread)
    (hw : ¬ (s.pc t).Waits → (s'.waiter t).woken = (s.waiter t).woken)
    (ha : ((s.pc t).Waits → bucket (s.waiter t).addr ∈ (s.pc t).held) →
      (s'.waiter t).addr = (s.waiter t).addr)
    (hc : s'.claimedBy (s'.call t) = s.claimedBy (s.call t))
    (hm : s'.movedBy (s'.call t) = s.movedBy (s.call t))
    (hl : ∀ w ∈ (s.pc t).transit, (s'.waiters w).addr = (s.waiters w).addr) : s'.At t := by
  unfold At at h ⊢
  rw [hp]
  cases hq : s.pc t <;> simp_all [AtPc, Pc.transit, Pc.Waits, Pc.held]

theorem At.of_idle (h : ¬ (s.pc t).Busy) : s.At t := by
  unfold At
  revert h
  cases s.pc t <;> simp [AtPc, Pc.Busy]

theorem at_goto : (s.goto t p).At t ↔ s.AtPc t p := by
  rw [At, pc_goto, if_pos rfl]
  cases p <;> simp only [AtPc, waiter, call_goto] <;> rfl

theorem Settled.congr (h : s.Settled c o) (hw : (s'.waiters c).woken = (s.waiters c).woken)
    (hc : s'.claimedBy c = s.claimedBy c) (hm : s'.movedBy c = s.movedBy c) : s'.Settled c o := by
  cases o <;> simp_all [Settled]

/-- A thread's step matters to its own call's waiter only. -/
theorem queued_goto (hp : s.pc t = q) (hth : s₁.threads = s.threads)
    (ht : (s₁.waiters w).thread = (s.waiters w).thread)
    (hk : (s₁.waiters w).woken = (s.waiters w).woken) (hw : w = s.call t → (p.Waits ↔ q.Waits)) :
    (s₁.goto t p).Queued w ↔ s.Queued w := by
  have hpc : (s₁.goto t p).pc (s.waiters w).thread =
      if (s.waiters w).thread = t then p else s.pc (s.waiters w).thread := by
    rw [pc_goto, pc, hth]; rfl
  change (s₁.goto t p).call (s₁.waiters w).thread = w ∧
    ((s₁.goto t p).pc (s₁.waiters w).thread).Waits ∧ (s₁.waiters w).woken = false ↔ _
  rw [Queued, call_goto, call, hth, ht, hk, hpc]
  refine and_congr_right fun hc => and_congr_left fun _ => ?_
  split
  · next hu => rw [hu, hp]; exact hw (by rw [← hc, hu]; rfl)
  · rfl

/-! ### Where a waiter is -/

/-- What `Lists` says of one waiter. -/
structure Placed (s : State) (w : Call) : Prop where
  linked : ∀ b, w ∈ s.heads b → s.Queued w ∧ bucket (s.waiters w).addr = b
  carried : ∀ t, w ∈ (s.pc t).transit → s.Queued w ∧
    bucket (s.waiters w).addr ∈ (s.pc t).held ∧ w ∉ s.heads (bucket (s.waiters w).addr)
  found : s.Queued w → w ∈ s.heads (bucket (s.waiters w).addr) ∨ ∃ t, w ∈ (s.pc t).transit

namespace Placed

theorem nowhere (hq : ¬ s.Queued w) (hh : ∀ b, w ∉ s.heads b) (ht : ∀ u, w ∉ (s.pc u).transit) :
    s.Placed w :=
  ⟨fun b hb => absurd hb (hh b), fun u hu => absurd hu (ht u), fun h => absurd h hq⟩

theorem inList (hq : s.Queued w) (hh : ∀ b, w ∈ s.heads b ↔ bucket (s.waiters w).addr = b)
    (ht : ∀ u, w ∉ (s.pc u).transit) : s.Placed w :=
  ⟨fun b hb => ⟨hq, (hh b).1 hb⟩, fun u hu => absurd hu (ht u), fun _ => .inl ((hh _).2 rfl)⟩

theorem inHand (hq : s.Queued w) (hh : ∀ b, w ∉ s.heads b) (ht : ∀ u, w ∈ (s.pc u).transit ↔ u = t)
    (hl : bucket (s.waiters w).addr ∈ (s.pc t).held) : s.Placed w :=
  ⟨fun b hb => absurd hb (hh b), fun u hu => ⟨hq, (ht u).1 hu ▸ hl, hh _⟩,
    fun _ => .inr ⟨t, (ht t).2 rfl⟩⟩

end Placed

namespace Lists

section

variable (h : Lists s)

include h

/-- Two calls do not have one waiter in hand. -/
theorem carrier (ht : w ∈ (s.pc t).transit) (hu : w ∈ (s.pc u).transit) : t = u := by
  have h1 := (h.held _ t).2 (h.carried t w ht).2.1
  have h2 := (h.held _ u).2 (h.carried u w hu).2.1
  exact Option.some.inj (h1.symm.trans h2)

/-- A waiter in a call's hands is in no list. -/
theorem notMem_heads (hw : w ∈ (s.pc t).transit) (b : Bucket) : w ∉ s.heads b := by
  intro hb
  have := h.carried t w hw
  rw [(h.linked b w hb).2] at this
  exact this.2.2 hb

/-- The held locks when a thread keeps its own. -/
theorem held_same (hp : s.pc t = q) (hl : p.held = q.held) (b : Bucket) (u : Tid) :
    s.locks b = some u ↔ b ∈ (if u = t then p else s.pc u).held := by
  rw [h.held]
  split
  · next hu => rw [hu, hp, hl]
  · rfl

/-- The held locks once a thread has taken one more. -/
theorem held_lock (hb : s.locks b = none)
    (hp : ∀ b', b' ∈ p.held ↔ b' = b ∨ b' ∈ (s.pc t).held) (b' : Bucket) (u : Tid) :
    (s.lock t b).locks b' = some u ↔ b' ∈ (if u = t then p else s.pc u).held := by
  change Function.update s.locks b (some t) b' = some u ↔ _
  have hn : ∀ u, b ∉ (s.pc u).held := fun u hu => by simp [(h.held b u).2 hu] at hb
  by_cases hbb : b' = b
  · subst hbb
    by_cases hu : u = t
    · simp [hu, hp]
    · simp [hu, Ne.symm hu, hn]
  · rw [update_of_ne hbb, h.held]
    by_cases hu : u = t
    · simp [hu, hp, hbb]
    · simp [hu]

/-- The held locks once a thread has left its section. -/
theorem held_unlock (hp : p.held = []) (b : Bucket) (u : Tid) :
    (s.unlock t).locks b = some u ↔ b ∈ (if u = t then p else s.pc u).held := by
  change (if s.locks b = some t then none else s.locks b) = some u ↔ _
  by_cases hu : u = t
  · subst hu
    by_cases hb : s.locks b = some u <;> simp [hb, hp]
  · rw [if_neg hu, ← h.held]
    by_cases hb : s.locks b = some t
    · simp [hb, Ne.symm hu]
    · rw [if_neg hb]

/-- A step of `t` moves the waiters of `W`, and each of them is where it should be again. -/
theorem touch (W : Call → Prop) (hp : s.pc t = q)
    (hpc : ∀ u, s'.pc u = if u = t then p else s.pc u)
    (held : ∀ b u, s'.locks b = some u ↔ b ∈ (if u = t then p else s.pc u).held)
    (nodup : ∀ b, (s'.heads b).Nodup) (once : p.transit.Nodup)
    (keeps : q.transit = [] ∨ p.held = q.held) (placed : ∀ w, W w → s'.Placed w)
    (same : ∀ w, ¬ W w → (s'.Queued w ↔ s.Queued w) ∧ s'.waiters w = s.waiters w ∧
      (∀ b, w ∈ s'.heads b ↔ w ∈ s.heads b) ∧ (w ∈ p.transit ↔ w ∈ q.transit)) : Lists s' := by
  have hall : ∀ w, s'.Placed w := fun w => by
    by_cases hw : W w
    · exact placed w hw
    obtain ⟨hq, ha, hh, htr⟩ := same w hw
    have htr : ∀ u, w ∈ (s'.pc u).transit ↔ w ∈ (s.pc u).transit := fun u => by
      rw [hpc]; split
      · next hu => rw [hu, hp, htr]
      · rfl
    refine ⟨fun b => ?_, fun u hu => ?_, ?_⟩
    · rw [hh, hq, ha]; exact h.linked b w
    · rw [htr] at hu
      have hl : (s'.pc u).held = (s.pc u).held := by
        rw [hpc]; split
        · next hut =>
          rw [hut, hp] at hu
          rw [hut, hp, keeps.resolve_left (ne_nil_of_mem hu)]
        · rfl
      rw [hq, ha, hl, hh]
      exact h.carried u w hu
    · rw [hq, ha, hh]
      simp only [htr]
      exact h.found w
  refine ⟨fun b u => by rw [hpc, held], nodup, fun b w => (hall w).linked b,
    fun u w => (hall w).carried u, fun u => ?_, fun w => (hall w).found⟩
  rw [hpc]; split
  exacts [once, h.once u]

end

theorem mem_link (b' : Bucket) (v : Call) :
    v ∈ (s.link b w).heads b' ↔ b' = b ∧ v = w ∨ v ∈ s.heads b' := by
  change v ∈ Function.update s.heads b _ b' ↔ _
  rw [update_apply]
  grind

theorem nodup_link (h : Lists s) (hw : ∀ b, w ∉ s.heads b) (b' : Bucket) :
    ((s.link b w).heads b').Nodup := by
  change (Function.update s.heads b _ b').Nodup
  rw [update_apply]; split
  exacts [nodup_cons.2 ⟨hw b, h.nodup b⟩, h.nodup b']

/-- Each queued waiter is on a thread of its own. -/
theorem length_le (hn : l.Nodup) (hq : ∀ w ∈ l, s.Queued w) : l.length ≤ 2 ^ 31 := by
  have hinj : (l.map fun w => (s.waiters w).thread).Nodup :=
    hn.map_on fun v hv w hw he => by rw [← (hq v hv).1, ← (hq w hw).1, he]
  simpa using hinj.length_le_card

end Lists

/-! ### What the others rely on -/

/-- What a step of `t`, whose call is `c`, leaves alone. -/
structure Frame (s s' : State) (t : Tid) (c : Call) : Prop where
  threads : ∀ u, u ≠ t → s'.threads u = s.threads u
  results : ∀ d, d ≠ c → s'.results d = s.results d
  thread : ∀ w, w ≠ c → (s'.waiters w).thread = (s.waiters w).thread
  woken : ∀ w, w ≠ c → ¬ s.Queued w → (s'.waiters w).woken = (s.waiters w).woken
  addr : ∀ w, w ≠ c ∨ s.Queued w → w ∉ (s.pc t).transit →
    (s'.waiters w).addr = (s.waiters w).addr
  claimed : ∀ d, d ≠ c → s'.claimedBy d = s.claimedBy d
  moved : ∀ d, d ≠ c → s'.movedBy d = s.movedBy d

theorem Frame.of_eq (ht : ∀ u, u ≠ t → s'.threads u = s.threads u)
    (hr : ∀ d, d ≠ c → s'.results d = s.results d) (hw : s'.waiters = s.waiters)
    (hc : s'.claims = s.claims) (hm : s'.moves = s.moves) : Frame s s' t c :=
  ⟨ht, hr, fun _ _ => by rw [hw], fun _ _ _ => by rw [hw], fun _ _ _ => by rw [hw],
    fun _ _ => by rw [claimedBy, hc]; rfl, fun _ _ => by rw [movedBy, hm]; rfl⟩

namespace Inv

theorem not_queued (h : Inv s) (hp : s.pc t = q) (hw : ¬ q.Waits) (hb : q.Busy) :
    ¬ s.Queued (s.call t) := by
  subst hp
  rintro ⟨hc, hq, -⟩
  have := h.own _ _ hq.busy hb hc
  exact hw (this ▸ hq)

theorem lt (h : Inv s) (hq : s.Queued w) : w < s.calls := by
  obtain ⟨hc, hw, -⟩ := hq
  rw [← hc]
  exact (h.busy _ hw.busy).1

theorem at_pc (h : Inv s) (hp : s.pc t = q) : s.AtPc t q := hp ▸ h.here t

/-- A thread takes a step, and what other calls and finished calls rely on is as before. -/
theorem framed (h : Inv s) (F : Frame s s' t c) (hl : Lists s')
    (apart : ∀ u, u ≠ t → (s.pc u).Busy → s.call u ≠ c) (calls : s.calls ≤ s'.calls)
    (new : c < s'.calls) (mine : (s'.pc t).Busy → s'.call t = c ∧ s'.results c = none)
    (counted : ∀ w, (s'.claimersOf w).length = if (s'.waiters w).woken then 1 else 0)
    (here : s'.At t) (settled : ∀ o, s'.results c = some o → s'.Settled c o) : Inv s' := by
  have hpc : ∀ u, u ≠ t → s'.pc u = s.pc u := fun u hu => by rw [pc, F.threads u hu]; rfl
  have hcall : ∀ u, u ≠ t → s'.call u = s.call u := fun u hu => by rw [call, F.threads u hu]; rfl
  have hne : ∀ u, u ≠ t → (s'.pc u).Busy → (s'.pc t).Busy → s'.call u ≠ s'.call t := by
    intro u hu hb hb'
    rw [hpc u hu] at hb
    rw [hcall u hu, (mine hb').1]
    exact apart u hu hb
  constructor
  case toLists => exact hl
  case busy =>
    intro u hu
    by_cases hut : u = t
    · subst hut
      rw [(mine hu).1]
      exact ⟨new, (mine hu).2⟩
    · rw [hpc u hut] at hu
      rw [hcall u hut, F.results _ (apart u hut hu)]
      exact ⟨(h.busy u hu).1.trans_le calls, (h.busy u hu).2⟩
  case own =>
    intro u v hu hv he
    by_cases hut : u = t
    · subst hut
      by_contra hvt
      exact hne v (Ne.symm hvt) hv hu he.symm
    by_cases hvt : v = t
    · subst hvt
      exact absurd he (hne u hut hu hv)
    rw [hpc u hut] at hu
    rw [hpc v hvt] at hv
    rw [hcall u hut, hcall v hvt] at he
    exact h.own u v hu hv he
  case fresh =>
    intro d hd
    have hd' := calls.trans hd
    have hne : d ≠ c := (new.trans_le hd).ne'
    rw [F.woken d hne fun hq => (h.lt hq).not_ge hd', F.results d hne, F.claimed d hne,
      F.moved d hne]
    exact h.fresh d hd'
  case counted => exact counted
  case here =>
    intro u
    by_cases hu : u = t
    · rw [hu]; exact here
    by_cases hub : (s.pc u).Busy
    · have hne := apart u hu hub
      have hw : s'.waiter u = s'.waiters (s.call u) := by rw [waiter, hcall u hu]
      refine (h.here u).congr (hpc u hu) (by rw [hw]; exact F.thread _ hne) (fun hn => ?_)
        (fun hn => ?_) (by rw [hcall u hu, F.claimed _ hne]) (by rw [hcall u hu, F.moved _ hne])
        fun w hw' => F.addr w (.inr (h.carried u w hw').1) fun ht => hu (h.carrier hw' ht)
      · rw [hw]; exact F.woken _ hne (h.not_queued rfl hn hub)
      rw [hw]
      refine F.addr _ (.inl hne) fun ht => hu ?_
      -- a waiter in hand is queued, and its lock is with the call that has it in hand
      obtain ⟨hq, hlock, -⟩ := h.carried t _ ht
      have hwaits : (s.pc u).Waits := by
        by_contra hn'
        exact h.not_queued rfl hn' hub hq
      exact Option.some.inj (((h.held _ u).2 (hn hwaits)).symm.trans ((h.held _ t).2 hlock))
    · exact .of_idle (by rwa [hpc u hu])
  case settled =>
    intro d o ho
    by_cases hd : d = c
    · subst hd; exact settled o ho
    rw [F.results d hd] at ho
    have hq : ¬ s.Queued d := fun hq => by
      have := (h.busy _ hq.2.1.busy).2
      rw [hq.1, ho] at this; cases this
    exact (h.settled d o ho).congr (F.woken d hd hq) (F.claimed d hd) (F.moved d hd)

/-- A thread's call goes on. -/
theorem move (h : Inv s) (hb : (s.pc t).Busy) (hl : Lists (s₁.goto t p))
    (F : Frame s (s₁.goto t p) t (s.call t))
    (same : s₁.threads = s.threads ∧ s₁.calls = s.calls ∧ s₁.results = s.results)
    (counted : ∀ w, (s₁.claimersOf w).length = if (s₁.waiters w).woken then 1 else 0)
    (here : s₁.AtPc t p) : Inv (s₁.goto t p) := by
  obtain ⟨hth, hcalls, hres⟩ := same
  have hnone : (s₁.goto t p).results (s.call t) = none := by
    change s₁.results _ = none
    rw [hres]; exact (h.busy t hb).2
  refine h.framed F hl (fun u hu hub he => hu (h.own u t hub hb he)) hcalls.ge
    ((h.busy t hb).1.trans_eq hcalls.symm) (fun _ => ⟨?_, hnone⟩) counted (at_goto.2 here)
    fun o ho => ?_
  · rw [call_goto, call, hth]; rfl
  · rw [hnone] at ho; cases ho

/-! ### Steps that leave the lists alone -/

/-- From one place of a call to the next, with no waiter in hand. -/
structure Turn (q p : Pc) : Prop where
  busy : q.Busy
  before : q.transit = []
  after : p.transit = []
  waits : p.Waits ↔ q.Waits

theorem turn (h : Inv s) {locks : Bucket → Option Tid} (hp : s.pc t = q) (T : Turn q p)
    (held : ∀ b u, locks b = some u ↔ b ∈ (if u = t then p else s.pc u).held)
    (here : s.AtPc t q → s.AtPc t p) : Inv ({ s with locks }.goto t p) := by
  have hl : Lists ({ s with locks }.goto t p) := by
    refine h.touch (fun _ => False) hp (fun _ => pc_goto) held h.nodup (by rw [T.after]; simp)
      (.inl T.before) (fun _ => False.elim) fun w _ => ⟨queued_goto hp rfl rfl rfl fun _ => T.waits,
      rfl, fun _ => Iff.rfl, by rw [T.before, T.after]⟩
  exact h.move (hp ▸ T.busy) hl (.of_eq (fun _ hu => update_of_ne hu ..) (fun _ _ => rfl) rfl rfl rfl)
    ⟨rfl, rfl, rfl⟩ h.counted (by cases p <;> exact here (h.at_pc hp))

/-- A call that goes on without a lock taken or left. -/
theorem goto (h : Inv s) (hp : s.pc t = q) (T : Turn q p) (hl : p.held = q.held)
    (here : s.AtPc t q → s.AtPc t p) : Inv (s.goto t p) :=
  h.turn hp T (h.held_same hp hl) here

/-- A call that takes one more lock. -/
theorem tryLock (h : Inv s) (hs : s.tryLock t b p = some s') (hp : s.pc t = q) (T : Turn q p)
    (hl : ∀ b', b' ∈ p.held ↔ b' = b ∨ b' ∈ q.held) (here : s.AtPc t q → s.AtPc t p) : Inv s' := by
  unfold State.tryLock at hs
  split at hs <;> cases hs
  next hfree => exact h.turn hp T (h.held_lock hfree (hp ▸ hl)) here

/-! ### Returning and starting -/

/-- A call returns, and its waiter is in no list and with no other call. -/
theorem finish (h : Inv s) {heads : Bucket → List Call} (hp : s.pc t = q) (hb : q.Busy)
    (ht : q.transit = []) (hn : ∀ b, (heads b).Nodup)
    (hh : ∀ b w, w ∈ heads b ↔ w ∈ s.heads b ∧ w ≠ s.call t) (hc : ∀ u, s.call t ∉ (s.pc u).transit)
    (ho : s.Settled (s.call t) o) : Inv ({ s with heads }.finish t o) := by
  subst hp
  have hpc : ∀ u, (State.finish { s with heads } t o).pc u = if u = t then .idle else s.pc u :=
    fun _ => pc_finish
  have hl : Lists ({ s with heads }.finish t o) := by
    refine h.touch (· = s.call t) rfl hpc (h.held_unlock rfl) hn nodup_nil (.inl ht) ?_
      fun w hw => ⟨?_, rfl, fun b => (hh b w).trans (and_iff_left hw), by rw [ht]; rfl⟩
    · rintro _ rfl
      refine .nowhere ?_ (fun b hb' => ((hh b _).1 hb').2 rfl) fun u => ?_
      · rintro ⟨hcall, hw, -⟩
        rw [hpc] at hw
        split at hw
        · exact hw
        · next hu =>
          rw [call_finish] at hcall
          exact hu (h.own _ _ hw.busy hb hcall)
      · rw [hpc]; split
        exacts [not_mem_nil, hc u]
    · exact queued_goto (show s.pc t = s.pc t from rfl) rfl rfl rfl fun he => absurd he hw
  refine h.framed
    (.of_eq (fun _ hu => update_of_ne hu ..) (fun _ hd => update_of_ne hd ..) rfl rfl rfl) hl
    (fun u hu hub he => hu (h.own u t hub hb he)) le_rfl (h.busy t hb).1 (fun hb' => ?_) h.counted
    (.of_idle (by rw [hpc, if_pos rfl]; exact id)) fun o' ho' => ?_
  · rw [hpc, if_pos rfl] at hb'
    exact hb'.elim
  · change Function.update s.results (s.call t) (some o) (s.call t) = some o' at ho'
    rw [update_self] at ho'
    cases ho'
    exact ho.congr rfl rfl rfl

/-- A call returns that has no queued waiter. -/
theorem finish_unqueued (h : Inv s) (hp : s.pc t = q) (hb : q.Busy) (ht : q.transit = [])
    (hq : ¬ s.Queued (s.call t)) (ho : s.Settled (s.call t) o) : Inv (s.finish t o) :=
  h.finish hp hb ht h.nodup
    (fun b _ => ⟨fun hw => ⟨hw, fun he => hq (he ▸ (h.linked b _ hw).1)⟩, And.left⟩)
    (fun u hu => hq (h.carried u _ hu).1) ho

/-- A `table_wait` returns that was claimed. -/
theorem finish_woken (h : Inv s) (hp : s.pc t = q) (hb : q.Busy) (ht : q.transit = [])
    (hw : (s.waiter t).woken = true) : Inv (s.finish t (.waited 0)) := by
  refine h.finish_unqueued hp hb ht (fun hq => ?_) ⟨fun _ => rfl, fun _ => hw⟩
  rw [waiter, hq.2.2] at hw
  cases hw

/-- A call starts; its number is new, and so is the waiter of that number. -/
theorem start (h : Inv s) {x : Waiter} (hi : s.pc t = .idle) (hx : x.woken = false)
    (hw : ¬ p.Waits) (hl : p.held = []) (ht : p.transit = [])
    (here : ((s.setWaiter s.calls x).start t p).At t) : Inv ((s.setWaiter s.calls x).start t p) := by
  have hpc : ∀ u, ((s.setWaiter s.calls x).start t p).pc u = if u = t then p else s.pc u :=
    fun _ => pc_start
  have hcall : ∀ u, ((s.setWaiter s.calls x).start t p).call u =
      if u = t then s.calls else s.call u := fun _ => call_start
  have hwait : ∀ w, w ≠ s.calls →
      ((s.setWaiter s.calls x).start t p).waiters w = s.waiters w :=
    fun w hw => update_of_ne hw ..
  have hlt : ∀ w, s.Queued w → w ≠ s.calls := fun w hq => (h.lt hq).ne
  have hl : Lists ((s.setWaiter s.calls x).start t p) := by
    refine h.touch (· = s.calls) hi hpc (h.held_same hi hl) h.nodup (by rw [ht]; exact .nil)
      (.inl rfl) ?_ fun w hne => ⟨?_, hwait w hne, fun _ => Iff.rfl, by rw [ht]; rfl⟩
    · rintro _ rfl
      refine .nowhere ?_ (fun b hb => hlt _ (h.linked b _ hb).1 rfl) fun u => ?_
      · rintro ⟨hc, hq, -⟩
        rw [hpc] at hq
        split at hq
        · exact hw hq
        · next hu =>
          rw [hcall, if_neg hu] at hc
          exact (h.busy _ hq.busy).1.ne hc
      · rw [hpc]; split
        · rw [ht]; exact not_mem_nil
        · exact fun hu => hlt _ (h.carried u _ hu).1 rfl
    · rw [Queued, hwait w hne, hpc, hcall]
      split
      · next hu =>
        refine iff_of_false (fun hq => hw hq.2.1) fun hq => ?_
        have := hq.2.1
        rwa [hu, hi] at this
      · rfl
  have F : Frame s ((s.setWaiter s.calls x).start t p) t s.calls :=
    ⟨fun _ hu => update_of_ne hu .., fun _ _ => rfl, fun w hw => by rw [hwait w hw],
      fun w hw _ => by rw [hwait w hw], fun w hw _ => by rw [hwait w (hw.elim id (hlt w))],
      fun _ _ => rfl, fun _ _ => rfl⟩
  refine h.framed F hl (fun u _ hub => (h.busy u hub).1.ne) (Nat.le_succ _) (Nat.lt_succ_self _)
    (fun _ => ⟨by rw [hcall, if_pos rfl], (h.fresh _ le_rfl).2.1⟩) (fun w => ?_) here fun o ho => ?_
  · have hcount := h.counted w
    by_cases hw : w = s.calls
    · subst hw
      rw [(h.fresh _ le_rfl).1] at hcount
      rw [show ((s.setWaiter s.calls x).start t p).waiters s.calls = x from
        update_self .., hx]
      exact hcount
    · rw [hwait w hw]; exact hcount
  · rw [show ((s.setWaiter s.calls x).start t p).results = s.results from rfl,
      (h.fresh _ le_rfl).2.1] at ho
    cases ho

/-! ### Queueing and draining -/

section

variable (h : Inv s)

include h

/-- A `table_wait` whose check lets it queue. -/
theorem queue {check : Check} (hp : s.pc t = .queuing check b) :
    Inv (((s.link b (s.call t)).unlock t).goto t .looking) := by
  obtain ⟨hth, hbk, hwk⟩ := h.at_pc hp
  have hnq : ¬ s.Queued (s.call t) := h.not_queued hp id trivial
  have hnh : ∀ b, s.call t ∉ s.heads b := fun b hb => hnq (h.linked b _ hb).1
  have hl : Lists (((s.link b (s.call t)).unlock t).goto t .looking) := by
    refine h.touch (· = s.call t) hp (fun _ => pc_goto) (h.held_unlock rfl)
      (h.nodup_link hnh) nodup_nil (.inl rfl) ?_
      fun w hw => ⟨queued_goto hp rfl rfl rfl fun he => absurd he hw, rfl, fun b' => ?_, Iff.rfl⟩
    · rintro _ rfl
      refine .inList ⟨call_goto.trans (congrArg s.call hth), ?_, hwk⟩ (fun b' => ?_) fun u => ?_
      · rw [pc_goto, if_pos (by exact hth)]; trivial
      · refine (Lists.mem_link b' _).trans ?_
        rw [or_iff_left (hnh b'), and_iff_left rfl, eq_comm, ← hbk]
        rfl
      · rw [pc_goto]; split
        exacts [not_mem_nil, fun hu => hnq (h.carried u _ hu).1]
    · exact (Lists.mem_link b' w).trans (or_iff_right fun he => hw he.2)
  exact h.move (hp ▸ trivial) hl
    (.of_eq (fun _ hu => update_of_ne hu ..) (fun _ _ => rfl) rfl rfl rfl) ⟨rfl, rfl, rfl⟩ h.counted hth

theorem seen_nodup (op : Op) : (s.seen op).Nodup := (h.nodup _).filter _

theorem seen_queued (hw : w ∈ s.seen op) : s.Queued w ∧ op.hit (s.waiters w) = true :=
  ⟨(h.linked _ w (mem_filter.1 hw).1).1, (mem_filter.1 hw).2⟩

/-- A call that holds its locks drains. -/
theorem draw {k : ℕ} (hp : s.pc t = .acquire op k) (hk : op.buckets[k]? = none) :
    Inv (s.draw t op) := by
  obtain ⟨hcn, hmn⟩ := h.at_pc hp
  have hlock : op.buckets.take k = op.buckets :=
    take_of_length_le (getElem?_eq_none_iff.1 hk)
  set hit : Call → Bool := fun w => op.hit (s.waiters w) with hhit
  have hfst := drain_upTo_fst hit op.left (s.heads (bucket op.addr))
  obtain ⟨hout, hrest, hmem⟩ := drain_nodup (upTo hit) op.left (h.nodup (bucket op.addr))
  rw [State.draw, ← hhit]
  generalize drain (upTo hit) op.left (s.heads (bucket op.addr)) = d at *
  obtain ⟨out, rest⟩ := d
  dsimp only at hfst hout hrest hmem ⊢
  have hsub : ∀ w ∈ out, w ∈ s.heads (bucket op.addr) := fun w hw => by
    rw [hfst] at hw
    exact (mem_filter.1 (mem_of_mem_take hw)).1
  have hheads : ∀ b w, w ∈ Function.update s.heads (bucket op.addr) rest b ↔
      w ∈ s.heads b ∧ (b = bucket op.addr → w ∉ out) := fun b w => by
    rw [update_apply]; split
    · next hb => rw [hb, hmem w]; simp
    · next hb => simp [hb]
  have hl : Lists ({ s with heads := Function.update s.heads (bucket op.addr) rest }.goto t
      (.disposing op (s.seen op) out 0 [] 0)) := by
    refine h.touch (· ∈ out) hp (fun _ => pc_goto) (h.held_same hp hlock.symm) (fun b => ?_) hout
      (.inl rfl) (fun w hw => ?_) fun w hw => ⟨queued_goto hp rfl rfl rfl fun _ => Iff.rfl, rfl,
        fun b => (hheads b w).trans (and_iff_left fun _ => hw), iff_of_false hw not_mem_nil⟩
    · change (Function.update s.heads (bucket op.addr) rest b).Nodup
      rw [update_apply]; split
      exacts [hrest, h.nodup b]
    obtain ⟨hq, hb⟩ := h.linked _ w (hsub w hw)
    refine .inHand (t := t) ?_ (fun b hb' => ?_) (fun u => ?_) ?_
    · exact Iff.mpr (queued_goto hp rfl rfl rfl fun _ => Iff.rfl) hq
    · obtain ⟨hb', hn⟩ := (hheads b w).1 hb'
      exact hn ((h.linked b w hb').2.symm.trans hb) hw
    · rw [pc_goto]; split
      · next hu => exact iff_of_true hw hu
      · next hu => exact iff_of_false (fun hu => h.notMem_heads hu _ (hsub w hw)) hu
    · rw [pc_goto, if_pos rfl]
      change bucket (s.waiters w).addr ∈ op.buckets
      rw [hb]
      exact op.bucket_addr_mem
  refine h.move (hp ▸ trivial) hl
    (.of_eq (fun _ hu => update_of_ne hu ..) (fun _ _ => rfl) rfl rfl rfl) ⟨rfl, rfl, rfl⟩ h.counted ?_
  change op.Progress _ out 0 [] 0 (s.claimedBy (s.call t)) (s.movedBy (s.call t))
  rw [hcn, hmn, hfst]
  exact .start (h.seen_nodup op)
    (Lists.length_le (h.seen_nodup op) fun w hw => (h.seen_queued hw).1)

/-- The first of the waiters in hand is done with: no other call has it, nor has this one twice. -/
theorem dropped (hp : s.pc t = q) (hq : q.transit = w :: ws) (hp' : p.transit = ws)
    (hth : s₁.threads = s.threads) (u : Tid) : w ∉ ((s₁.goto t p).pc u).transit := by
  have hnd := h.once t
  rw [hp, hq] at hnd
  rw [pc_goto, pc, hth]; split
  · rw [hp']; exact (nodup_cons.1 hnd).1
  · next hu =>
    refine fun hw => hu (h.carrier hw (t := u) ?_)
    rw [hp, hq]; exact .head _

/-- A call claims a waiter it drained. -/
theorem claim (hp : s.pc t = .disposing op seen (w :: ws) i wakes moved) (hc : op.claims i = true) :
    Inv ((s.claim t w).goto t (.disposing op seen ws (i + 1) (wakes ++ [w]) moved)) := by
  have hw : w ∈ (s.pc t).transit := by rw [hp]; exact .head _
  have hqw := (h.carried t w hw).1
  have hwait : ∀ v, v ≠ w → (s.claim t w).waiters v = s.waiters v :=
    fun v hv => update_of_ne hv ..
  have hself : (s.claim t w).waiters w = { s.waiters w with woken := true } :=
    update_self ..
  have hfield : ∀ v, ((s.claim t w).waiters v).thread = (s.waiters v).thread ∧
      ((s.claim t w).waiters v).addr = (s.waiters v).addr := fun v => by
    by_cases hv : v = w
    · rw [hv, hself]; exact ⟨rfl, rfl⟩
    · rw [hwait v hv]; exact ⟨rfl, rfl⟩
  have hcb : ∀ c, (s.claim t w).claimedBy c = s.claimedBy c ++ if c = s.call t then [w] else [] :=
    fun c => claimedBy_append s _ (s.call t) c w rfl
  have hl : Lists ((s.claim t w).goto t (.disposing op seen ws (i + 1) (wakes ++ [w]) moved)) := by
    refine h.touch (· = w) hp (fun _ => pc_goto) (h.held_same hp rfl) h.nodup ?_ (.inr rfl) ?_
      fun v hv => ⟨queued_goto hp rfl (hfield v).1 (by rw [hwait v hv]) fun _ => Iff.rfl,
        hwait v hv, fun _ => Iff.rfl, (mem_cons.trans (or_iff_right hv)).symm⟩
    · have := h.once t
      rw [hp] at this
      exact (nodup_cons.1 this).2
    rintro _ rfl
    refine .nowhere (fun hq => ?_) (h.notMem_heads hw) (h.dropped hp rfl rfl rfl)
    have hwoken := hq.2.2
    change ((s.claim t _).waiters _).woken = false at hwoken
    rw [hself] at hwoken
    cases hwoken
  refine h.move (hp ▸ trivial) hl
    ⟨fun _ hu => update_of_ne hu .., fun _ _ => rfl, fun v _ => (hfield v).1,
      fun v _ hv => congrArg _ (hwait v fun he => hv (he ▸ hqw)), fun v _ _ => (hfield v).2,
      fun d hd => (hcb d).trans (by rw [if_neg hd, append_nil]), fun _ _ => rfl⟩
    ⟨rfl, rfl, rfl⟩ (fun v => ?_) ?_
  · have hco : (s.claim t w).claimersOf v = s.claimersOf v ++ if v = w then [s.call t] else [] :=
      claimersOf_append s _ (s.call t) v w rfl
    have hcount := h.counted v
    rw [hco]
    by_cases hv : v = w
    · subst hv
      rw [hqw.2.2] at hcount
      simpa [hself] using hcount
    · simpa [hv, hwait v hv] using hcount
  · change op.Progress _ _ _ _ _ ((s.claim t w).claimedBy (s.call t)) (s.movedBy (s.call t))
    rw [hcb, if_pos rfl]
    exact Op.Progress.claim (h.at_pc hp) hc

/-- A call stores the new address of a waiter it drained. -/
theorem readdress (hp : s.pc t = .disposing op seen (w :: ws) i wakes moved)
    (hc : op.claims i = false) :
    Inv ((s.setWaiter w { s.waiters w with addr := op.target }).goto t
      (.linking op seen w ws i wakes moved)) := by
  have hw : w ∈ (s.pc t).transit := by rw [hp]; exact .head _
  have hqw := (h.carried t w hw).1
  set s₁ := s.setWaiter w { s.waiters w with addr := op.target }
  have hwait : ∀ v, v ≠ w → s₁.waiters v = s.waiters v := fun v hv => update_of_ne hv ..
  have hself : s₁.waiters w = { s.waiters w with addr := op.target } := update_self ..
  have hfield : ∀ v, (s₁.waiters v).thread = (s.waiters v).thread ∧
      (s₁.waiters v).woken = (s.waiters v).woken := fun v => by
    by_cases hv : v = w
    · rw [hv, hself]; exact ⟨rfl, rfl⟩
    · rw [hwait v hv]; exact ⟨rfl, rfl⟩
  have hq : ∀ v, (s₁.goto t (.linking op seen w ws i wakes moved)).Queued v ↔ s.Queued v :=
    fun v => queued_goto hp rfl (hfield v).1 (hfield v).2 fun _ => Iff.rfl
  have hl : Lists (s₁.goto t (.linking op seen w ws i wakes moved)) := by
    refine h.touch (· = w) hp (fun _ => pc_goto) (h.held_same hp rfl) h.nodup
      (by have := h.once t; rwa [hp] at this) (.inr rfl) ?_
      fun v hv => ⟨hq v, hwait v hv, fun _ => Iff.rfl, Iff.rfl⟩
    rintro v rfl
    refine .inHand (t := t) ((hq v).2 hqw) (h.notMem_heads hw) (fun u => ?_) ?_
    · rw [pc_goto]; split
      · next hu => exact iff_of_true (.head _) hu
      · next hu => exact iff_of_false (fun hv => hu (h.carrier hv hw)) hu
    · rw [pc_goto, if_pos rfl]
      change bucket (s₁.waiters v).addr ∈ op.buckets
      rw [hself]
      exact op.bucket_target_mem
  refine h.move (hp ▸ trivial) hl
    ⟨fun _ hu => update_of_ne hu .., fun _ _ => rfl, fun v _ => (hfield v).1,
      fun v _ _ => (hfield v).2, fun v _ hv => congrArg _ (hwait v fun he => hv (he ▸ hw)),
      fun _ _ => rfl, fun _ _ => rfl⟩
    ⟨rfl, rfl, rfl⟩ (fun v => by rw [(hfield v).2]; exact h.counted v)
    ⟨h.at_pc hp, hc, by rw [hself]⟩

/-- A call links a waiter it moves. -/
theorem relink (hp : s.pc t = .linking op seen w ws i wakes moved) :
    Inv ((s.relink t op.target w).goto t (.disposing op seen ws (i + 1) wakes (moved + 1))) := by
  have hw : w ∈ (s.pc t).transit := by rw [hp]; exact .head _
  obtain ⟨hprog, hc, hto⟩ := h.at_pc hp
  have hmb : ∀ c, (s.relink t op.target w).movedBy c =
      s.movedBy c ++ if c = s.call t then [w] else [] :=
    fun c => movedBy_append s _ (s.call t) c w rfl
  have hl : Lists ((s.relink t op.target w).goto t
      (.disposing op seen ws (i + 1) wakes (moved + 1))) := by
    refine h.touch (· = w) hp (fun _ => pc_goto) (h.held_same hp rfl)
      (h.nodup_link (h.notMem_heads hw)) ?_ (.inr rfl) ?_ fun v hv =>
        ⟨queued_goto hp rfl rfl rfl fun _ => Iff.rfl, rfl,
          fun b => (Lists.mem_link b v).trans (or_iff_right fun he => hv he.2),
          (mem_cons.trans (or_iff_right hv)).symm⟩
    · have := h.once t
      rw [hp] at this
      exact (nodup_cons.1 this).2
    rintro v rfl
    refine .inList (Iff.mpr (queued_goto hp rfl rfl rfl fun _ => Iff.rfl) (h.carried t v hw).1)
      (fun b => ?_) (h.dropped hp rfl rfl rfl)
    refine (Lists.mem_link b v).trans ?_
    rw [or_iff_left (h.notMem_heads hw b), and_iff_left rfl, eq_comm, ← hto]
    rfl
  refine h.move (hp ▸ trivial) hl
    ⟨fun _ hu => update_of_ne hu .., fun _ _ => rfl, fun _ _ => rfl, fun _ _ _ => rfl,
      fun _ _ _ => rfl, fun _ _ => rfl, fun d hd => (hmb d).trans (by rw [if_neg hd, append_nil])⟩
    ⟨rfl, rfl, rfl⟩ h.counted ?_
  change op.Progress _ _ _ _ _ (s.claimedBy (s.call t))
    ((s.relink t op.target w).movedBy (s.call t))
  rw [hmb, if_pos rfl]
  exact hprog.move hc

/-- A waiter that was not claimed unlinks itself and returns. -/
theorem withdraw {r : ℤ} (hp : s.pc t = .confirming r b) (hw : ¬ (s.waiter t).woken = true) :
    Inv (State.finish { s with
      heads := Function.update s.heads b
        (drain (fun (_ : Unit) x => (x == s.call t, ())) () (s.heads b)).2 } t (.waited r)) := by
  obtain ⟨hth, hr, hbk⟩ := h.at_pc hp
  have hlock : s.locks b = some t := (h.held b t).2 (by rw [hp]; exact mem_singleton_self b)
  refine h.finish hp trivial rfl (fun b' => ?_) (fun b' w => ?_) (fun u hu => ?_) ?_
  · rw [update_apply]
    split
    · exact (drain_nodup _ _ (h.nodup b)).2.1
    · exact h.nodup b'
  · rw [update_apply]
    split
    · next he => rw [mem_drain_self, he]
    · next he =>
      refine ⟨fun hw => ⟨hw, fun hc => he ?_⟩, And.left⟩
      rw [← (h.linked b' w hw).2, hc]
      exact hbk
  · have hu' := (h.carried u _ hu).2.1
    have : s.locks b = some u := (h.held b u).2 (hbk ▸ hu')
    rw [hlock] at this
    rw [← Option.some.inj this, hp] at hu
    cases hu
  · exact ⟨fun hw' => absurd hw' hw, fun he => absurd he hr⟩

end

/-! ### Every step keeps the invariant -/

theorem initial : Inv {} := by
  have hq : ∀ w, ¬ ({} : State).Queued w := fun w h => h.2.1
  constructor
  case toLists =>
    constructor
    case held => exact fun b t => ⟨nofun, nofun⟩
    case nodup => exact fun b => nodup_nil
    case linked => exact nofun
    case carried => exact nofun
    case once => exact fun t => nodup_nil
    case found => exact fun w h => (hq w h).elim
  case busy => exact fun t h => h.elim
  case own => exact fun t u h => h.elim
  case fresh => exact fun c _ => ⟨rfl, rfl, rfl, rfl⟩
  case counted => exact fun w => rfl
  case here => exact fun t => trivial
  case settled => exact nofun

theorem advance (h : Inv s) {word : Option Word} (hs : s.advance t word = some s') : Inv s' := by
  unfold State.advance at hs
  cases hp : s.pc t with
  | idle => simp [hp] at hs
  | deciding => simp [hp] at hs
  | entering check b =>
    simp only [hp] at hs
    exact h.tryLock hs hp ⟨trivial, rfl, rfl, Iff.rfl⟩ (by simp [Pc.held]) id
  | queuing check b =>
    simp only [hp] at hs
    split at hs <;> cases hs
    · exact h.finish_unqueued hp trivial rfl (h.not_queued hp id trivial) (h.at_pc hp).2.2
    · exact h.queue hp
  | looking =>
    simp only [hp] at hs
    split at hs <;> cases hs
    · next hw => exact h.finish_woken hp trivial rfl hw
    · exact h.goto hp ⟨trivial, rfl, rfl, Iff.rfl⟩ rfl id
  | leaving r =>
    simp only [hp] at hs
    cases hs
    exact h.goto hp ⟨trivial, rfl, rfl, Iff.rfl⟩ rfl id
  | locking r b =>
    simp only [hp] at hs
    exact h.tryLock hs hp ⟨trivial, rfl, rfl, Iff.rfl⟩ (by simp [Pc.held]) id
  | comparing r b =>
    simp only [hp] at hs
    split at hs <;> cases hs
    · next hb => exact h.goto hp ⟨trivial, rfl, rfl, Iff.rfl⟩ rfl fun here => ⟨here.1, here.2, hb.symm⟩
    · exact h.turn hp ⟨trivial, rfl, rfl, Iff.rfl⟩ (h.held_unlock rfl) id
  | confirming r b =>
    simp only [hp] at hs
    split at hs <;> cases hs
    · next hw => exact h.finish_woken hp trivial rfl hw
    · next hw => exact h.withdraw hp hw
  | acquire op k =>
    simp only [hp] at hs
    split at hs
    · next b hb =>
      refine h.tryLock hs hp ⟨trivial, rfl, rfl, Iff.rfl⟩ (fun b' => ?_) id
      rw [Pc.held, Pc.held, take_add_one, hb]
      simp [or_comm]
    · next hk =>
      split at hs <;> cases hs
      · exact h.finish_unqueued hp trivial rfl (h.not_queued hp id trivial) (h.at_pc hp)
      · exact h.draw hp hk
  | disposing op seen ws i wakes moved =>
    cases ws with
    | nil =>
      simp only [hp] at hs
      cases hs
      have hprog : op.Progress .. := h.at_pc hp
      obtain ⟨hc, hm, hl, hn⟩ := hprog.done
      exact h.finish_unqueued hp trivial rfl (h.not_queued hp id trivial)
        ⟨hprog.nodup, hc, hm, by rw [hl, hn]⟩
    | cons w ws =>
      simp only [hp] at hs
      split at hs <;> cases hs
      · next hc => exact h.claim hp hc
      · next hc => exact h.readdress hp (Bool.eq_false_iff.2 hc)
  | linking op seen w ws i wakes moved =>
    simp only [hp] at hs
    cases hs
    exact h.relink hp

theorem decide (h : Inv s) (hs : s.decide t p = some s') (hp : p.transit = []) (hw : p.Waits)
    (hl : p.held = []) (here : (s.waiter t).thread = t → s.AtPc t p) : Inv s' := by
  unfold State.decide at hs
  split at hs <;> cases hs
  next hd =>
  exact h.goto hd ⟨trivial, rfl, hp, iff_of_true hw trivial⟩ hl here

theorem step (h : Inv s) {l : Label} (hs : s.step l = some s') : Inv s' := by
  cases l with
  | wait t addr bitset pi check =>
    simp only [State.step, begin] at hs
    split at hs <;> cases hs
    next hi =>
    refine h.start hi rfl id rfl rfl ?_
    rw [At, pc_start, if_pos rfl, AtPc, waiter, call_start, if_pos rfl]
    simp [State.start, setWaiter]
  | call t op =>
    simp only [State.step, begin] at hs
    split at hs <;> cases hs
    next hi =>
    have hself : s.setWaiter s.calls (s.waiters s.calls) = s := by simp [setWaiter]
    have := h.start (p := .acquire op 0) hi (h.fresh _ le_rfl).1 id rfl rfl
    rw [hself] at this
    refine this ?_
    rw [At, pc_start, if_pos rfl, AtPc, call_start, if_pos rfl]
    exact (h.fresh _ le_rfl).2.2
  | run t word => exact h.advance hs
  | timeout t => exact h.decide hs rfl trivial rfl fun ht => ⟨ht, by decide⟩
  | interrupt t => exact h.decide hs rfl trivial rfl fun ht => ⟨ht, by decide⟩
  | park t => exact h.decide hs rfl trivial rfl id

theorem of_reachable (h : Reachable s) : Inv s := by
  induction h with
  | refl => exact initial
  | tail _ hs ih =>
    obtain ⟨l, hl⟩ := hs
    exact ih.step hl

end Inv

end State

end Aim.Futex
