import Aim.Support.Codec
import Aim.Support.Utf8

/-!
# Fork — The state carried to a child

`sys/fork/state.rs` writes a process's state into one blob for the fork child to read back.  The
values have no tags: the child makes the calls of `Reader` that match the calls of `Writer` it was
written with (`Ty`, a call; a sequence of calls is a `pair` of the first and the others).  A reader
that runs short, or finds a string that is no UTF-8, turns bad, and then reads zeros and empties.

* `Law`: what was written is read back, from less of it the reader ends bad, and a bad reader
  reads the zero value and stays as it is.  `Law.bind` carries it through calls that follow a
  count, a length or a presence byte.
* `fork_state_round_trip`: it holds of every type.
-/

namespace Aim.Fork

open List

/-- `Reader`; `buf` has the bytes not read yet. -/
structure Reader where
  buf : Bytes
  bad : Bool := false
  deriving DecidableEq

abbrev Read (α : Type) := StateM Reader α

/-- A `String`: its bytes are UTF-8. -/
abbrev Str := { b : Bytes // Utf8.valid b = true }

namespace Reader

/-- `Reader::intact`. -/
def intact (r : Reader) : Bool := !r.bad

def invalidate : Read Unit := modify fun r => { r with bad := true }

def take (n : ℕ) : Read Bytes := fun r =>
  if r.bad || r.buf.length < n then ([], { r with bad := true })
  else (r.buf.take n, { r with buf := r.buf.drop n })

def u64 : Read UInt64 :=
  (fun b => if b.length = 8 then UInt64.ofNat (Bytes.toNat b) else 0) <$> take 8

def i64 : Read Int64 := UInt64.toInt64 <$> u64

def u32 : Read UInt32 := UInt64.toUInt32 <$> u64

def i32 : Read Int32 := Int64.toInt32 <$> i64

def bool : Read Bool := (fun b => b.head?.any (· != 0)) <$> take 1

/-- `Reader::bytes` and `Reader::path`. -/
def bytes : Read Bytes := do
  let n ← u64
  if (← get).buf.length < n.toNat then
    invalidate
    return []
  take n.toNat

def str : Read Str := do
  let b ← bytes
  if h : Utf8.valid b = true then return ⟨b, h⟩
  invalidate
  return ⟨[], rfl⟩

def opt {α : Type} (f : Read α) : Read (Option α) := do
  if ← bool then some <$> f else return none

/-- The loop of `Reader::seq`. -/
def times {α : Type} (f : Read α) : ℕ → Read (List α)
  | 0 => return []
  | n + 1 => do
    if (← get).bad then return []
    let x ← f
    return x :: (← times f n)

def seq {α : Type} (f : Read α) : Read (List α) := do times f (← u64).toNat

end Reader

/-! ### What a process writes -/

namespace Writer

variable {α : Type}

def u64 (v : UInt64) : Bytes := Codec.putU64 v

def i64 (v : Int64) : Bytes := u64 v.toUInt64

def u32 (v : UInt32) : Bytes := u64 v.toUInt64

def i32 (v : Int32) : Bytes := i64 v.toInt64

def bool (v : Bool) : Bytes := [v.toUInt8]

/-- `Writer::bytes`, `Writer::str` and `Writer::path`. -/
def bytes (v : Bytes) : Bytes := u64 (.ofNat v.length) ++ v

def opt (f : α → Bytes) (v : Option α) : Bytes := bool v.isSome ++ v.elim [] f

def seq (f : α → Bytes) (v : List α) : Bytes := u64 (.ofNat v.length) ++ v.flatMap f

end Writer

/-- A call of `Writer`, and the call of `Reader` that matches it. -/
inductive Ty where
  | u64 | i64 | u32 | i32 | bool | bytes | str | unit
  | opt (t : Ty)
  | seq (t : Ty)
  | pair (t u : Ty)

/-- What is written and read. -/
def Ty.Val : Ty → Type
  | .u64 => UInt64
  | .i64 => Int64
  | .u32 => UInt32
  | .i32 => Int32
  | .bool => Bool
  | .bytes => Bytes
  | .str => Str
  | .unit => Unit
  | .opt t => Option t.Val
  | .seq t => List t.Val
  | .pair t u => t.Val × u.Val

def Ty.write : (t : Ty) → t.Val → Bytes
  | .u64 => Writer.u64
  | .i64 => Writer.i64
  | .u32 => Writer.u32
  | .i32 => Writer.i32
  | .bool => Writer.bool
  | .bytes => Writer.bytes
  | .str => fun v => Writer.bytes v.1
  | .unit => fun _ => []
  | .opt t => Writer.opt t.write
  | .seq t => Writer.seq t.write
  | .pair t u => fun v => t.write v.1 ++ u.write v.2

def Ty.read : (t : Ty) → Read t.Val
  | .u64 => Reader.u64
  | .i64 => Reader.i64
  | .u32 => Reader.u32
  | .i32 => Reader.i32
  | .bool => Reader.bool
  | .bytes => Reader.bytes
  | .str => Reader.str
  | .unit => return ()
  | .opt t => Reader.opt t.read
  | .seq t => Reader.seq t.read
  | .pair t u => do return (← t.read, ← u.read)

/-- The zero or empty value. -/
def Ty.zero : (t : Ty) → t.Val
  | .u64 => (0 : UInt64)
  | .i64 => (0 : Int64)
  | .u32 => (0 : UInt32)
  | .i32 => (0 : Int32)
  | .bool => false
  | .bytes => ([] : Bytes)
  | .str => ⟨[], rfl⟩
  | .unit => ()
  | .opt _ => none
  | .seq _ => []
  | .pair t u => (t.zero, u.zero)

/-- Lengths are those a `Vec` can have. -/
def Ty.Fits : (t : Ty) → t.Val → Prop
  | .bytes => fun (v : Bytes) => v.length < 2 ^ 64
  | .str => fun v => v.1.length < 2 ^ 64
  | .opt t => fun (v : Option t.Val) => ∀ x ∈ v, t.Fits x
  | .seq t => fun (v : List t.Val) => v.length < 2 ^ 64 ∧ ∀ x ∈ v, t.Fits x
  | .pair t u => fun v => t.Fits v.1 ∧ u.Fits v.2
  | _ => fun _ => True

/-! ### The law of a call -/

variable {α β : Type}

/-- The reader's call inverts the writer's, notices what is missing, and is stuck once bad. -/
structure Law (enc : α → Bytes) (dec : Read α) (zero : α) (P : α → Prop) : Prop where
  whole : ∀ v rest, P v → dec ⟨enc v ++ rest, false⟩ = (v, ⟨rest, false⟩)
  short : ∀ v b, P v → b <+: enc v → b ≠ enc v → (dec ⟨b, false⟩).2.bad = true
  stuck : ∀ b, dec ⟨b, true⟩ = (zero, ⟨b, true⟩)

variable {enc : α → Bytes} {dec : Read α} {zero : α} {P : α → Prop} {e : β → Bytes}
  {d : α → Read β} {z : β} {Q : β → Prop} {f : β → α}

/-- Of less than what was written, the first part is all there, or the reader turns bad. -/
theorem Law.cut (h : Law enc dec zero P) {v : α} {b c : Bytes} (hv : P v) (hb : b <+: enc v ++ c)
    (hne : b ≠ enc v ++ c) : (∃ d, d <+: c ∧ d ≠ c ∧ dec ⟨b, false⟩ = (v, ⟨d, false⟩)) ∨
      ∃ a r, dec ⟨b, false⟩ = (a, ⟨r, true⟩) := by
  by_cases hx : enc v <+: b
  · obtain ⟨d, rfl⟩ := hx
    exact .inl ⟨d, (prefix_append_right_inj _).1 hb, fun hd => hne (hd ▸ rfl), h.whole v d hv⟩
  · have hb' := ( prefix_or_prefix_of_prefix hb (prefix_append _ _)).resolve_right hx
    have hbad := h.short v b hv hb' fun he => hx (he ▸ prefix_rfl)
    exact .inr ⟨_, _, Prod.ext rfl (congrArg (Reader.mk _) hbad)⟩

/-- A call followed by one that depends on what it read. -/
theorem Law.bind (h : Law enc dec zero P) (hP : ∀ b, Q b → P (f b))
    (whole : ∀ v rest, Q v → d (f v) ⟨e v ++ rest, false⟩ = (v, ⟨rest, false⟩))
    (short : ∀ v b, Q v → b <+: e v → b ≠ e v → (d (f v) ⟨b, false⟩).2.bad = true)
    (stays : ∀ a b, (d a ⟨b, true⟩).2.bad = true) (stuck : ∀ b, d zero ⟨b, true⟩ = (z, ⟨b, true⟩)) :
    Law (fun v => enc (f v) ++ e v) (dec >>= d) z Q := by
  have hbind : ∀ r, (dec >>= d) r = d (dec r).1 (dec r).2 := fun r => rfl
  refine ⟨fun v rest hv => ?_, fun v b hv hb hne => ?_, fun b => ?_⟩
  · rw [hbind, append_assoc, h.whole _ _ (hP v hv)]
    exact whole v rest hv
  · rcases h.cut (hP v hv) hb hne with ⟨c, hc, hne, hdec⟩ | ⟨a, r, hdec⟩
    · rw [hbind, hdec]
      exact short v c hv hc hne
    · rw [hbind, hdec]
      exact stays a r
  · rw [hbind, h.stuck]
    exact stuck b

theorem Law.map {g : α → β} (h : Law enc dec zero P) (hP : ∀ v, Q v → P (f v))
    (hg : ∀ v, Q v → g (f v) = v) : Law (fun v => enc (f v)) (g <$> dec) (g zero) Q := by
  have := h.bind (e := fun _ => []) (d := fun a => pure (g a)) (z := g zero) hP
    (fun v rest hv => by simp [pure, StateT.pure, hg v hv])
    (fun v b _ hb hne => absurd (prefix_nil.1 hb) hne) (fun a b => rfl) fun b => rfl
  simpa using this

/-! ### The calls -/

theorem law_take (n : ℕ) : Law id (Reader.take n) [] (·.length = n) := by
  refine ⟨fun v rest hv => ?_, fun v b hv hb hne => ?_, fun b => ?_⟩
  · have hle : ¬ v.length + rest.length < v.length := by omega
    simp [Reader.take, ← hv, hle]
  · have hlt : b.length < n :=
      hv ▸ Nat.lt_of_le_of_ne hb.length_le fun he => hne (hb.eq_of_length he)
    simp [Reader.take, hlt]
  · simp [Reader.take]

theorem law_u64 : Law Writer.u64 Reader.u64 0 fun _ => True :=
  (law_take 8).map (fun v _ => Codec.length_putU64 v) fun v _ => by
    exact Codec.ofNat_putU64 v

theorem law_i64 : Law Writer.i64 Reader.i64 0 fun _ => True :=
  law_u64.map (fun _ _ => trivial) fun v _ => by simp

theorem law_u32 : Law Writer.u32 Reader.u32 0 fun _ => True :=
  law_u64.map (fun _ _ => trivial) fun v _ => by simp

theorem law_i32 : Law Writer.i32 Reader.i32 0 fun _ => True :=
  law_i64.map (fun _ _ => trivial) fun v _ => by simp

theorem law_bool : Law Writer.bool Reader.bool false fun _ => True :=
  (law_take 1).map (fun _ _ => rfl) fun v _ => by cases v <;> rfl

theorem toNat_length {n : ℕ} (h : n < 2 ^ 64) : (UInt64.ofNat n).toNat = n := by
  exact Nat.mod_eq_of_lt h

/-- The length is looked at twice. -/
theorem bytes_eq : Reader.bytes = Reader.u64 >>= fun n => Reader.take n.toNat := by
  have hrun : ∀ (n : UInt64) (r : Reader), (if r.buf.length < n.toNat then do
      Reader.invalidate
      return [] else Reader.take n.toNat : Read Bytes) r = Reader.take n.toNat r := by
    intro n r
    split
    · next h => simp [Reader.take, h, Reader.invalidate]; rfl
    · rfl
  exact funext fun r => hrun _ _

theorem law_bytes : Law Writer.bytes Reader.bytes [] (·.length < 2 ^ 64) := by
  rw [bytes_eq]
  refine law_u64.bind (fun _ _ => trivial) (fun v rest hv => ?_) (fun v b hv hb hne => ?_)
    (fun n b => by rw [(law_take _).stuck]) (law_take 0).stuck
  · rw [toNat_length hv]
    exact (law_take v.length).whole v rest rfl
  · rw [toNat_length hv]
    exact (law_take v.length).short v b rfl hb hne

theorem law_str : Law (fun v : Str => Writer.bytes v.1) Reader.str ⟨[], rfl⟩
    (·.1.length < 2 ^ 64) := by
  have := law_bytes.bind (f := fun v : Str => v.1) (e := fun _ => []) (Q := (·.1.length < 2 ^ 64))
    (d := fun b => if h : Utf8.valid b = true then pure ⟨b, h⟩ else do
      Reader.invalidate
      return ⟨[], rfl⟩) (z := ⟨[], rfl⟩) (fun v hv => hv) (fun v rest _ => ?_)
    (fun v b _ hb hne => absurd (prefix_nil.1 hb) hne) (fun a b => ?_) fun b => rfl
  · simp only [append_nil] at this
    exact this
  · rw [dif_pos v.2]
    rfl
  · split <;> rfl

theorem law_opt (h : Law enc dec zero P) :
    Law (Writer.opt enc) (Reader.opt dec) none fun v => ∀ x ∈ v, P x := by
  refine law_bool.bind (fun _ _ => trivial) (fun v rest hv => ?_) (fun v b hv hb hne => ?_)
    (fun a b => ?_) fun b => rfl
  · cases v with
    | none => rfl
    | some x =>
      exact congrArg (fun p : α × Reader => (some p.1, p.2)) (h.whole x rest (hv x rfl))
  · cases v with
    | none => exact absurd (prefix_nil.1 hb) hne
    | some x => exact h.short x b (hv x rfl) hb hne
  · cases a with
    | false => rfl
    | true => exact congrArg (·.2.bad) (h.stuck b)

theorem times_bad (n : ℕ) (b : Bytes) : Reader.times dec n ⟨b, true⟩ = ([], ⟨b, true⟩) := by
  cases n <;> rfl

theorem times_succ (n : ℕ) (b : Bytes) : Reader.times dec (n + 1) ⟨b, false⟩ =
    ((dec ⟨b, false⟩).1 :: (Reader.times dec n (dec ⟨b, false⟩).2).1,
      (Reader.times dec n (dec ⟨b, false⟩).2).2) := rfl

/-- The elements, one after the other; a reader that turns bad in one of them stops. -/
theorem law_times (h : Law enc dec zero P) : ∀ v : List α, (∀ x ∈ v, P x) →
    (∀ rest, Reader.times dec v.length ⟨v.flatMap enc ++ rest, false⟩ = (v, ⟨rest, false⟩)) ∧
    ∀ b, b <+: v.flatMap enc → b ≠ v.flatMap enc →
      (Reader.times dec v.length ⟨b, false⟩).2.bad = true
  | [], _ => ⟨fun _ => rfl, fun b hb hne => absurd (prefix_nil.1 hb) hne⟩
  | x :: v, hv => by
    obtain ⟨hx, hv⟩ := forall_mem_cons.1 hv
    obtain ⟨hwhole, hshort⟩ := law_times h v hv
    rw [flatMap_cons, length_cons]
    refine ⟨fun rest => ?_, fun b hb hne => ?_⟩
    · rw [times_succ, append_assoc, h.whole x _ hx, hwhole]
    · rcases h.cut hx hb hne with ⟨c, hc, hne, hdec⟩ | ⟨a, r, hdec⟩
      · rw [times_succ, hdec]
        exact hshort c hc hne
      · rw [times_succ, hdec, times_bad]

theorem law_seq (h : Law enc dec zero P) : Law (Writer.seq enc) (Reader.seq dec) []
    fun v => v.length < 2 ^ 64 ∧ ∀ x ∈ v, P x := by
  refine law_u64.bind (fun _ _ => trivial) (fun v rest hv => ?_) (fun v b hv hb hne => ?_)
    (fun n b => by rw [times_bad]) (times_bad 0)
  · rw [toNat_length hv.1]
    exact (law_times h v hv.2).1 rest
  · rw [toNat_length hv.1]
    exact (law_times h v hv.2).2 b hb hne

theorem law_pair {d : Read β} (h : Law enc dec zero P)
    (h' : Law e d z Q) : Law (fun v : α × β => enc v.1 ++ e v.2)
      (do return (← dec, ← d)) (zero, z) fun v => P v.1 ∧ Q v.2 := by
  have hrun : ∀ a r, (do return (a, ← d) : Read (α × β)) r = ((a, (d r).1), (d r).2) :=
    fun a r => rfl
  refine h.bind (fun v hv => hv.1) (fun v rest hv => ?_) (fun v b hv hb hne => ?_)
    (fun a b => ?_) fun b => ?_
  · rw [hrun, h'.whole _ _ hv.2]
  · exact h'.short v.2 b hv.2 hb hne
  · rw [hrun, h'.stuck]
  · rw [hrun, h'.stuck]

/-- Every call obeys the law. -/
theorem Ty.law : (t : Ty) → Law t.write t.read t.zero t.Fits
  | .u64 => law_u64
  | .i64 => law_i64
  | .u32 => law_u32
  | .i32 => law_i32
  | .bool => law_bool
  | .bytes => law_bytes
  | .str => law_str
  | .unit => ⟨fun _ _ _ => rfl, fun _ _ _ hb hne => absurd (prefix_nil.1 hb) hne, fun _ => rfl⟩
  | .opt t => law_opt t.law
  | .seq t => law_seq t.law
  | .pair t u => law_pair t.law u.law

/-- **The state round trip.**  Whatever is written is read back by the same calls, with nothing
left; of less than all of it, the calls end with a reader that is not intact; and a reader that is
not intact gives the zero or empty value, whatever is read. -/
theorem fork_state_round_trip (t : Ty) :
    (∀ v, t.Fits v → t.read ⟨t.write v, false⟩ = (v, ⟨[], false⟩) ∧
      ∀ b, b <+: t.write v → b ≠ t.write v → (t.read ⟨b, false⟩).2.intact = false) ∧
    ∀ r : Reader, r.intact = false → t.read r = (t.zero, r) := by
  refine ⟨fun v hv => ⟨?_, fun b hb hne => ?_⟩, fun r hr => ?_⟩
  · simpa using t.law.whole v [] hv
  · simp [Reader.intact, t.law.short v b hv hb hne]
  · obtain ⟨b, bad⟩ := r
    obtain rfl : bad = true := by simpa [Reader.intact] using hr
    exact t.law.stuck b

/-- Two integers after their count, bytes after theirs, and an option, in an option. -/
theorem fork_state_round_trip_nested :
    let t : Ty := .opt (.pair (.seq .i32) (.pair .bytes (.opt .u64)))
    let v : t.Val := some (([5, -2] : List Int32), ([7, 8, 9] : Bytes), some (3 : UInt64))
    let b : Bytes := [1, 2, 0, 0, 0, 0, 0, 0, 0, 5, 0, 0, 0, 0, 0, 0, 0,
      254, 255, 255, 255, 255, 255, 255, 255, 3, 0, 0, 0, 0, 0, 0, 0, 7, 8, 9,
      1, 3, 0, 0, 0, 0, 0, 0]
    t.write v = b ++ [0] ∧ t.read ⟨b ++ [0], false⟩ = (v, ⟨[], false⟩) ∧
      (t.read ⟨b, false⟩).2.intact = false := by
  intro t v b
  have hwrite : t.write v = b ++ [0] := by decide +kernel
  have hfits : t.Fits v := by
    intro x hx
    obtain rfl := Option.some.inj hx
    exact ⟨⟨by decide, fun _ _ => trivial⟩, by change 3 < 2 ^ 64; decide, fun _ _ => trivial⟩
  obtain ⟨hwhole, hshort⟩ := (fork_state_round_trip t).1 v hfits
  rw [hwrite] at hwhole hshort
  exact ⟨hwrite, hwhole, hshort b ⟨[0], rfl⟩ (by decide)⟩

end Aim.Fork
