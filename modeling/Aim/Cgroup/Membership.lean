import Aim.Mounts.Records

/-!
# Cgroup — the membership file

Which group each task of a hierarchy is in, as a text file: a line for each process that left the
root and for each thread that was moved alone.  A task that no line names is in its process's group,
a process in the root.

* `parse`, `text`: `Membership::parse` and `Membership::text`.  A negative id is never written, and
  is not read.
* `parse_text`: what is written is read back, unless the name of a group has a newline in it or ends
  with a carriage return (`Plain`).
-/

namespace Cgroup

open List

open Mounts (lines splitTab parseU64 tab)

/-- A pid or tid, which is a positive `i32`. -/
abbrev Id := Fin (2 ^ 31)

instance neZero_id : NeZero (2 ^ 31) := ⟨by decide⟩

instance : LawfulBEq Id := inferInstance

/-- A process's start time, which tells it from a later one of the same pid. -/
abbrev Start := UInt64 × UInt64

/-- `(pid, start, group)`, or `(tid, owner's start, group)`. -/
structure Entry where
  id : Id
  start : Start
  group : Bytes
  deriving DecidableEq

structure Membership where
  processes : List Entry := []
  threads : List Entry := []
  deriving DecidableEq

/-! ### Text -/

/-- A number as it is printed. -/
def decimal (n : ℕ) : Bytes := (Nat.toDigits 10 n).map fun c => UInt8.ofNat c.toNat

/-- A line of the file, without its newline. -/
def Entry.line (kind : UInt8) (e : Entry) : Bytes :=
  kind :: tab :: (decimal e.id ++ tab :: (decimal e.start.1.toNat ++
    tab :: (decimal e.start.2.toNat ++ tab :: e.group)))

/-- The lines of the file: `P` for a process, `T` for a thread. -/
def Membership.lines (m : Membership) : List Bytes :=
  m.processes.map (Entry.line 80) ++ m.threads.map (Entry.line 84)

def Membership.text (m : Membership) : Bytes := m.lines.flatMap (· ++ [10])

/-- `str::splitn` at tabs. -/
def splitn : ℕ → Bytes → List Bytes
  | 0, _ => []
  | 1, s => [s]
  | n + 2, s =>
    match splitTab s with
    | some (a, b) => a :: splitn (n + 1) b
    | none => [s]

/-- `str::parse::<i32>`. -/
def parseId (text : Bytes) : Option Id :=
  (parseU64 text).bind fun n => if h : n < 2 ^ 31 then some ⟨n, h⟩ else none

/-- The entry of a line and its kind. -/
def parseLine (line : Bytes) : Option (Bytes × Entry) :=
  match splitn 5 line with
  | [kind, id, sec, usec, group] => do
    let id ← parseId id
    let sec ← parseU64 sec
    let usec ← parseU64 usec
    return (kind, ⟨id, (UInt64.ofNat sec, UInt64.ofNat usec), group⟩)
  | _ => none

def Membership.push (m : Membership) (line : Bytes) : Membership :=
  match parseLine line with
  | some (kind, e) =>
    if kind = [80] then { m with processes := m.processes ++ [e] }
    else if kind = [84] then { m with threads := m.threads ++ [e] }
    else m
  | none => m

def parse (text : Bytes) : Membership := (Mounts.lines text).foldl .push {}

/-! ### What is written is read back -/

theorem decimal_ne_nil (n : ℕ) : decimal n ≠ [] := by
  simp [decimal, Nat.toDigits_ne_nil]

/-- The digit `d` as a byte. -/
theorem digitChar_byte {d : ℕ} (h : d < 10) :
    (UInt8.ofNat (Nat.digitChar d).toNat).toNat = 48 + d := by
  have : ∀ d < 10, (UInt8.ofNat (Nat.digitChar d).toNat).toNat = 48 + d := by decide
  exact this d h

/-- A number ends with its last digit. -/
theorem decimal_cases (n : ℕ) : ∃ d < 10, ∃ pre : Bytes,
    decimal n = pre ++ [UInt8.ofNat (Nat.digitChar d).toNat] ∧
      (n = d ∧ pre = [] ∨ n = n / 10 * 10 + d ∧ n / 10 < n ∧ pre = decimal (n / 10)) := by
  by_cases h : n < 10
  · exact ⟨n, h, [], by simp [decimal, Nat.toDigits_of_lt_base h], .inl ⟨rfl, rfl⟩⟩
  · refine ⟨n % 10, Nat.mod_lt _ (by decide), decimal (n / 10), ?_, .inr ⟨by omega, by omega, rfl⟩⟩
    simp [decimal, Nat.toDigits_of_base_le (b := 10) (by decide) (Nat.le_of_not_lt h)]

theorem digit_of_mem_decimal {n : ℕ} {b : UInt8} (h : b ∈ decimal n) :
    48 ≤ b.toNat ∧ b.toNat ≤ 57 := by
  induction n using Nat.strongRecOn with
  | _ n ih =>
    obtain ⟨d, hd, pre, he, hpre⟩ := decimal_cases n
    rw [he] at h
    rcases mem_append.1 h with h | h
    · rcases hpre with ⟨-, rfl⟩ | ⟨-, hlt, rfl⟩
      · cases h
      · exact ih _ hlt h
    · rw [mem_singleton.1 h, digitChar_byte hd]
      omega

/-- The value of the digits. -/
theorem foldl_decimal (n : ℕ) :
    (decimal n).foldl (fun n (b : UInt8) => n * 10 + (b.toNat - 48)) 0 = n := by
  induction n using Nat.strongRecOn with
  | _ n ih =>
    obtain ⟨d, hd, pre, he, hpre⟩ := decimal_cases n
    rw [he, foldl_append, foldl_cons, digitChar_byte hd,
      Nat.add_sub_cancel_left]
    rcases hpre with ⟨rfl, rfl⟩ | ⟨hn, hlt, rfl⟩
    · simp
    · rw [ih _ hlt]
      exact hn.symm

theorem parseU64_decimal {n : ℕ} (h : n < 2 ^ 64) : parseU64 (decimal n) = some n := by
  have hdigits : ∀ b ∈ decimal n, 48 ≤ b ∧ b ≤ 57 := fun b hb => digit_of_mem_decimal hb
  have hplus : ∀ ds, decimal n ≠ 43 :: ds := by
    intro ds he
    have := (hdigits 43 (he ▸ mem_cons_self)).1
    exact absurd this (by decide)
  have hany : ¬ (decimal n = [] ∨ (decimal n).any (fun b => b < 48 || 57 < b) = true) := by
    rw [not_or, Bool.not_eq_true, any_eq_false]
    refine ⟨decimal_ne_nil n, fun b hb => ?_⟩
    obtain ⟨h₁, h₂⟩ := hdigits b hb
    simp [UInt8.not_lt.2 h₁, UInt8.not_lt.2 h₂]
  rw [parseU64, if_neg hany, foldl_decimal, if_pos h]
  exact hplus

theorem parseId_decimal (i : Id) : parseId (decimal i) = some i := by
  have hi : (i : ℕ) < 2 ^ 31 := i.isLt
  rw [parseId, parseU64_decimal (Nat.lt_trans hi (by decide)), Option.bind_some, dif_pos hi]

theorem tab_not_mem_decimal (n : ℕ) : tab ∉ decimal n := by
  intro h
  exact absurd (digit_of_mem_decimal h).1 (by decide)

theorem splitTab_append {a b : Bytes} (h : tab ∉ a) : splitTab (a ++ tab :: b) = some (a, b) :=
  splitOnce_eq_some.2 ⟨rfl, h⟩

theorem parseLine_line (kind : UInt8) (hk : kind ≠ tab) (e : Entry) :
    parseLine (e.line kind) = some ([kind], e) := by
  have hsplit : splitn 5 (e.line kind) =
      [[kind], decimal e.id, decimal e.start.1.toNat, decimal e.start.2.toNat, e.group] := by
    have hkind : splitTab (e.line kind) = some ([kind], _) :=
      splitTab_append (a := [kind]) (by simpa using Ne.symm hk)
    simp only [splitn, hkind, splitTab_append (tab_not_mem_decimal _)]
  rw [parseLine, hsplit]
  simp only [parseId_decimal, parseU64_decimal (UInt64.toNat_lt _), Option.pure_def,
    Option.bind_eq_bind, Option.bind_some, UInt64.ofNat_toNat]

/-- The name of a group that a line can hold. -/
def PlainGroup (g : Bytes) : Prop := 10 ∉ g ∧ g.getLast? ≠ some 13

/-- Every name of a group is one that a line can hold. -/
def Membership.Plain (m : Membership) : Prop :=
  (∀ e ∈ m.processes, PlainGroup e.group) ∧ ∀ e ∈ m.threads, PlainGroup e.group

variable {ls : List Bytes}

theorem split_unlines (h : ∀ l ∈ ls, (10 : UInt8) ∉ l) :
    Bytes.split 10 (ls.flatMap (· ++ [10])) = ls ++ [[]] := by
  induction ls with
  | nil => rfl
  | cons l ls ih =>
    rw [flatMap_cons, append_assoc, singleton_append,
      Bytes.split_append (h l (.head _)),
      ih fun l' hl' => h l' (.tail _ hl'), cons_append]

theorem lines_unlines (h : ∀ l ∈ ls, PlainGroup l) :
    Mounts.lines (ls.flatMap (· ++ [10])) = ls := by
  have hcr : (ls.map fun l => if l.getLast? = some 13 then l.dropLast else l) = ls.map id :=
    map_congr_left fun l hl => if_neg (h l hl).2
  rw [Mounts.lines, split_unlines fun l hl => (h l hl).1, dropLast_concat, hcr, map_id,
    getLast?_concat]

variable {kind : UInt8}

theorem plainGroup_line (hk : kind ≠ 10) {e : Entry} (h : PlainGroup e.group) :
    PlainGroup (e.line kind) := by
  have hd : ∀ n, (10 : UInt8) ∉ decimal n := fun n hm =>
    absurd (digit_of_mem_decimal hm).1 (by decide)
  constructor
  · simp [Entry.line, Ne.symm hk, hd, h.1, tab]
  have hlast : ∀ pre : Bytes, (pre ++ tab :: e.group).getLast? ≠ some 13 := by
    intro pre
    rw [getLast?_append, getLast?_cons]
    cases hg : e.group.getLast? with
    | none => simp [tab]
    | some b => simpa [hg] using h.2
  have := hlast (kind :: tab :: (decimal e.id ++ tab :: (decimal e.start.1.toNat ++
    tab :: decimal e.start.2.toNat)))
  simpa [Entry.line] using this

theorem foldl_push (hk : kind ≠ tab) (es : List Entry) (m : Membership) :
    (es.map (Entry.line kind)).foldl .push m =
      if kind = 80 then { m with processes := m.processes ++ es }
      else if kind = 84 then { m with threads := m.threads ++ es } else m := by
  induction es generalizing m with
  | nil => split_ifs <;> simp
  | cons e es ih =>
    rw [map_cons, foldl_cons, Membership.push, parseLine_line kind hk]
    split_ifs <;> simp_all

/-- **What is written is read back.** -/
theorem parse_text {m : Membership} (h : m.Plain) : parse m.text = m := by
  have hl : ∀ l ∈ m.lines, PlainGroup l := by
    intro l hl
    rcases mem_append.1 hl with hl | hl
    · obtain ⟨e, he, rfl⟩ := mem_map.1 hl
      exact plainGroup_line (by decide) (h.1 e he)
    · obtain ⟨e, he, rfl⟩ := mem_map.1 hl
      exact plainGroup_line (by decide) (h.2 e he)
  rw [parse, Membership.text, lines_unlines hl, Membership.lines, foldl_append,
    foldl_push (by decide), foldl_push (by decide)]
  simp

end Cgroup
