import Aim.Support.Table

/-!
# Lmkd — Whom to kill, and when

`policy.rs`: the pressure level of the host bounds how deep lmkd may go, and the `LMK_TARGET` levels
may take it deeper (`minScoreAdj`); the processes ActivityManager registered, with the next one to
kill (`Procs.victim`); and the kill counters.

Words are 32-bit and signed, as integers; a counter is 32 bits wide and wraps.  `seq` does not.
-/

namespace Aim.Lmkd

open List

def OOM_SCORE_ADJ_MIN : ℤ := -1000
def OOM_SCORE_ADJ_MAX : ℤ := 1000
def PERCEPTIBLE_APP_ADJ : ℤ := 200
def CACHED_APP_MIN_ADJ : ℤ := 900

/-- The host's memory pressure level. -/
inductive Level where
  | normal
  | warn
  | critical
  deriving DecidableEq

/-- The host's memory, in guest pages. -/
structure Memory where
  level : Level
  free : ℕ
  file : ℕ

/-- One `LMK_TARGET` pair: below `minfree` pages, kill down to `adj`. -/
structure Target where
  minfree : ℤ
  adj : ℤ

/-- `as u64` of a signed word: a negative one wraps to the top. -/
def asU64 (x : ℤ) : ℕ := (x % 2 ^ 64).toNat

/-- `as u32` of a signed word. -/
def asU32 (x : ℤ) : ℕ := (x % 2 ^ 32).toNat

/-- The bound of a level; none at normal pressure. -/
def levelBound : Level → Option ℤ
  | .normal => none
  | .warn => some CACHED_APP_MIN_ADJ
  | .critical => some PERCEPTIBLE_APP_ADJ

/-- The lowest oom_score_adj to kill at, or none for no kill. -/
def minScoreAdj (mem : Memory) (targets : List Target) : Option ℤ := do
  let bound ← levelBound mem.level
  let byMinfree := (targets.find? fun t =>
    mem.free < asU64 t.minfree && mem.file < asU64 t.minfree).map Target.adj
  return byMinfree.elim bound (min · bound)

/-- A registered process. -/
structure Proc where
  pid : ℤ
  uid : ℕ
  adj : ℤ
  /-- When it was last prioritized: larger is more recent. -/
  seq : ℕ
  deriving DecidableEq

/-- The element no later one is better than, where a better one takes the place of the best. -/
def select {α : Type} (better : α → α → Bool) : List α → Option α
  | [] => none
  | x :: xs => some (xs.foldl (fun best x => if better x best then x else best) x)

/-- The processes ActivityManager registered, and the kills so far. -/
structure Procs where
  procs : Table ℤ Proc
  seq : ℕ
  kills : Table ℤ ℕ

namespace Procs

def empty : Procs := ⟨∅, 0, ∅⟩

/-- Register `pid`, or give it a new oom_score_adj. -/
def set (p : Procs) (pid : ℤ) (uid : ℕ) (adj : ℤ) : Procs :=
  { p with seq := p.seq + 1, procs := p.procs.insert pid ⟨pid, uid, adj, p.seq + 1⟩ }

def remove (p : Procs) (pid : ℤ) : Procs := { p with procs := p.procs.erase pid }

def purge (p : Procs) : Procs := { p with procs := ∅ }

/-- The heavier one is better, then the less recently prioritized. -/
def heavier (rssKb : ℤ → Option ℤ) (p best : Proc) : Bool :=
  let r := (rssKb p.pid).getD 0
  let r' := (rssKb best.pid).getD 0
  r' < r || (r' = r && p.seq ≤ best.seq)

/-- The next process to kill at or above `minAdj`, given each one's resident size in kB. -/
def victim (p : Procs) (minAdj : ℤ) (rssKb : ℤ → Option ℤ) : Option Proc := do
  let adj ← ((p.procs.values.filter fun q => minAdj ≤ q.adj).map Proc.adj).max?
  let tied := p.procs.values.filter fun q => q.adj = adj
  if adj ≤ PERCEPTIBLE_APP_ADJ then select (heavier rssKb) tied
  else select (fun q best => q.seq < best.seq) tied

/-- Count a kill at `adj`. -/
def killed (p : Procs) (adj : ℤ) : Procs :=
  { p with kills := p.kills.insert adj (((p.kills.lookup adj).getD 0 + 1) % 2 ^ 32) }

/-- `LMK_GETKILLCNT`: kills with oom_score_adj between the two; all kills when `lo` is above
`OOM_SCORE_ADJ_MAX`. -/
def killCount (p : Procs) (lo hi : ℤ) : ℕ :=
  if hi < lo then 0
  else
    let counted := p.kills.entries.filter fun e =>
      OOM_SCORE_ADJ_MAX < lo || (lo ≤ e.1 && e.1 ≤ hi)
    (counted.map Sigma.snd).sum % 2 ^ 32

end Procs

/-! ### Lemmas -/

/-- What is selected is an element, and no element is missed for want of one. -/
theorem select_mem {α : Type} {better : α → α → Bool} {L : List α} {a : α}
    (h : select better L = some a) : a ∈ L := by
  have hfold : ∀ (xs : List α) (x : α),
      xs.foldl (fun best x => if better x best then x else best) x ∈ x :: xs := by
    intro xs
    induction xs with
    | nil => exact fun x => mem_singleton.2 rfl
    | cons y ys ih =>
      intro x
      rw [foldl_cons]
      rcases mem_cons.1 (ih (if better y x then y else x)) with hm | hm
      · rw [hm]
        split
        · exact .tail _ (.head _)
        · exact .head _
      · exact .tail _ (.tail _ hm)
  cases L with
  | nil => cases h
  | cons x xs =>
    cases h
    exact hfold xs x

theorem select_eq_none {α : Type} {better : α → α → Bool} {L : List α} :
    select better L = none ↔ L = [] := by
  cases L <;> simp [select]

namespace Procs

variable {minAdj : ℤ} {rssKb : ℤ → Option ℤ}

/-- The victim is registered at or above the bound, and no other that is has a higher adj. -/
theorem victim_eq_some {p : Procs} {v : Proc} (h : p.victim minAdj rssKb = some v) :
    v ∈ p.procs.values ∧ minAdj ≤ v.adj ∧
      ∀ q ∈ p.procs.values, minAdj ≤ q.adj → q.adj ≤ v.adj := by
  obtain ⟨adj, hmax, h⟩ := Option.bind_eq_some_iff.1 h
  obtain ⟨hmem, hle⟩ := max?_eq_some_iff.1 hmax
  obtain ⟨q, hq, rfl⟩ := mem_map.1 hmem
  have hv : v ∈ p.procs.values.filter fun r => r.adj = q.adj := by
    split at h <;> exact select_mem h
  obtain ⟨hv, he⟩ := mem_filter.1 hv
  have he : v.adj = q.adj := of_decide_eq_true he
  have hq := of_decide_eq_true (mem_filter.1 hq).2
  refine ⟨hv, he ▸ hq, fun r hr hmin => ?_⟩
  rw [he]
  exact hle r.adj (mem_map_of_mem (mem_filter.2 ⟨hr, decide_eq_true hmin⟩))

/-- There is a victim as long as one is registered at or above the bound. -/
theorem victim_eq_none {p : Procs}
    (h : p.victim minAdj rssKb = none) : ∀ q ∈ p.procs.values, q.adj < minAdj := by
  intro q hq
  by_contra hmin
  have hq' : q ∈ p.procs.values.filter fun q => minAdj ≤ q.adj :=
    mem_filter.2 ⟨hq, decide_eq_true (Int.not_lt.1 hmin)⟩
  cases hmax : ((p.procs.values.filter fun q => minAdj ≤ q.adj).map Proc.adj).max? with
  | none =>
    rw [max?_eq_none_iff, map_eq_nil_iff] at hmax
    rw [hmax] at hq'
    cases hq'
  | some adj =>
    obtain ⟨r, hr, he⟩ := mem_map.1 (max?_eq_some_iff.1 hmax).1
    have hr' : r ∈ p.procs.values.filter fun q => q.adj = adj :=
      mem_filter.2 ⟨(mem_filter.1 hr).1, decide_eq_true he⟩
    have hne : p.procs.values.filter (fun q => q.adj = adj) ≠ [] := ne_nil_of_mem hr'
    rw [victim, hmax] at h
    dsimp only [Option.bind_eq_bind, Option.bind_some] at h
    split at h <;> exact hne (select_eq_none.1 h)

end Procs

end Aim.Lmkd
