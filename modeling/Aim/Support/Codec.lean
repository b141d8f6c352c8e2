import Aim.Support.Bytes

/-!
# Support — Codecs

Values laid out one after another in a byte string, and readers that take them off its front.  A
reader inverts an encoding (`Inverts`) when it reads every encoded value back, whatever follows, and
reads nothing but what the encoding of its result is.

* `u32`, `u64`, `counted`: little-endian numbers, and byte strings after their length.
* `Inverts.pair`, `Inverts.map`, `Inverts.list`: values built of others, and lists after their length.
* `Inverts.bind_reads`, `Inverts.bind_eq`: a reader that goes on after another.
* `Inverts.exact`: what a reader makes of whole byte strings.
-/

namespace Codec

open List

/-- A reader of byte strings. -/
abbrev Reader (E α : Type) := StateT Bytes (Except E) α

/-- The reader reads the values that satisfy `P` back from their encodings, and nothing else. -/
structure Inverts {E α : Type} (enc : α → Bytes) (dec : Reader E α) (P : α → Prop) : Prop where
  reads : ∀ a, P a → ∀ rest, dec (enc a ++ rest) = .ok (a, rest)
  only : ∀ bs a rest, dec bs = .ok (a, rest) → P a ∧ bs = enc a ++ rest

variable {E α β : Type}

/-! ### One reader after another -/

variable {dec : Reader E α} {bs rest : Bytes} {a : α} {f : α → Reader E β}

theorem bind_reads (h : dec bs = .ok (a, rest)) : (dec >>= f) bs = f a rest := by
  change (dec bs >>= fun p => f p.1 p.2) = _
  rw [h]
  rfl

theorem bind_exact {b : β} (h : (dec >>= f) bs = .ok (b, rest)) :
    ∃ a mid, dec bs = .ok (a, mid) ∧ f a mid = .ok (b, rest) := by
  change (dec bs >>= fun p => f p.1 p.2) = _ at h
  cases hd : dec bs with
  | error e =>
    rw [hd] at h
    cases h
  | ok p =>
    rw [hd] at h
    exact ⟨p.1, p.2, rfl, h⟩

theorem pure_exact {b : α} (h : (pure a : Reader E α) bs = .ok (b, rest)) : b = a ∧ rest = bs := by
  cases h
  exact ⟨rfl, rfl⟩

/-- A value that is checked once it is read. -/
theorem checked_exact {v : Except E Unit} {b : α}
    (h : ((liftM v : Reader E Unit) >>= fun _ => pure a) bs = .ok (b, rest)) :
    v = .ok () ∧ b = a ∧ rest = bs := by
  cases v with
  | error e => cases h
  | ok u =>
    cases h
    exact ⟨rfl, rfl, rfl⟩

namespace Inverts

variable {enc : α → Bytes} {dec : Reader E α} {P : α → Prop}

variable (h : Inverts enc dec P)

include h

/-- The first value read, and what is left. -/
theorem bind_eq {b : β} (hb : (dec >>= f) bs = .ok (b, rest)) :
    ∃ a mid, P a ∧ bs = enc a ++ mid ∧ f a mid = .ok (b, rest) := by
  obtain ⟨a, mid, ha, hf⟩ := bind_exact hb
  obtain ⟨hP, he⟩ := h.only bs a mid ha
  exact ⟨a, mid, hP, he, hf⟩

theorem bind_reads (ha : P a) (f : α → Reader E β) (rest : Bytes) :
    (dec >>= f) (enc a ++ rest) = f a rest :=
  Codec.bind_reads (h.reads a ha rest)

/-- Two values, the second laid out as the first says. -/
theorem pair {enc' : α → β → Bytes} {dec' : α → Reader E β}
    {Q : α → β → Prop} (h' : ∀ a, P a → Inverts (enc' a) (dec' a) (Q a)) :
    Inverts (fun p => enc p.1 ++ enc' p.1 p.2)
      (do let a ← dec; let b ← dec' a; pure (a, b)) fun p => P p.1 ∧ Q p.1 p.2 where
  reads := by
    rintro ⟨a, b⟩ ⟨ha, hb⟩ rest
    rw [append_assoc, h.bind_reads ha, (h' a ha).bind_reads hb]
    rfl
  only := by
    rintro bs ⟨a, b⟩ rest hbs
    obtain ⟨x, mid, hx, rfl, hf⟩ := h.bind_eq hbs
    obtain ⟨y, mid', hy, rfl, hp⟩ := (h' x hx).bind_eq hf
    obtain ⟨hab, rfl⟩ := pure_exact hp
    cases hab
    exact ⟨⟨hx, hy⟩, (append_assoc _ _ _).symm⟩

/-- A value that stands for another. -/
theorem map {f : α → β} {g : β → α} (hgf : ∀ a, P a → g (f a) = a) (hfg : ∀ b, f (g b) = b) :
    Inverts (fun b => enc (g b)) (f <$> dec) fun b => P (g b) where
  reads b hb rest := by
    rw [map_eq_pure_bind, h.bind_reads hb, hfg]
    rfl
  only bs b rest hb := by
    rw [map_eq_pure_bind] at hb
    obtain ⟨a, mid, ha, rfl, hp⟩ := h.bind_eq hb
    obtain ⟨rfl, rfl⟩ := pure_exact hp
    rw [hgf a ha]
    exact ⟨ha, rfl⟩

theorem congr {enc' : α → Bytes} {Q : α → Prop} (hQ : ∀ a, Q a ↔ P a)
    (henc : ∀ a, P a → enc' a = enc a) : Inverts enc' dec Q where
  reads a ha rest := by
    rw [henc a ((hQ a).1 ha)]
    exact h.reads a ((hQ a).1 ha) rest
  only bs a rest hb := by
    obtain ⟨ha, he⟩ := h.only bs a rest hb
    rw [henc a ha]
    exact ⟨(hQ a).2 ha, he⟩

end Inverts

/-- Nothing is read. -/
theorem inverts_pure (a : α) : Inverts (fun _ => []) (pure a : Reader E α) (· = a) where
  reads := by
    rintro _ rfl rest
    rfl
  only bs b rest hb := by
    obtain ⟨rfl, rfl⟩ := pure_exact hb
    exact ⟨rfl, rfl⟩

/-! ### Numbers and byte strings -/

section Bytes

variable (e : E)

/-- The next `n` bytes. -/
def take (n : ℕ) : Reader E Bytes := fun bs =>
  if bs.length < n then .error e else .ok (bs.take n, bs.drop n)

def u32 : Reader E UInt32 := (fun b => UInt32.ofNat (Bytes.toNat b)) <$> take e 4

def u64 : Reader E UInt64 := (fun b => UInt64.ofNat (Bytes.toNat b)) <$> take e 8

/-- A byte string after its length. -/
def counted : Reader E Bytes := do
  let n ← u32 e
  take e n.toNat

/-- `n` values. -/
def times (dec : Reader E α) : ℕ → Reader E (List α)
  | 0 => pure []
  | n + 1 => do
    let a ← dec
    let as ← times dec n
    pure (a :: as)

/-- A list after its length. -/
def list (dec : Reader E α) : Reader E (List α) := do
  let n ← u32 e
  times dec n.toNat

end Bytes

def putU32 (v : UInt32) : Bytes := Bytes.ofNat 4 v.toNat

def putU64 (v : UInt64) : Bytes := Bytes.ofNat 8 v.toNat

/-- The length as a `u32`, then the bytes. -/
def putCounted (b : Bytes) : Bytes := putU32 (UInt32.ofNat b.length) ++ b

def putList (enc : α → Bytes) (l : List α) : Bytes :=
  putU32 (UInt32.ofNat l.length) ++ l.flatMap enc

variable (e : E)

theorem inverts_take (n : ℕ) : Inverts (fun b => b) (take e n) (·.length = n) where
  reads := by
    rintro b rfl rest
    rw [take, if_neg (by simp), take_left, drop_left]
  only bs b rest hb := by
    rw [take] at hb
    split_ifs at hb with hn
    cases hb
    refine ⟨?_, (take_append_drop n bs).symm⟩
    rw [length_take]
    omega

variable {b : Bytes}

/-- A number of `w` bytes. -/
theorem ofNat_toNat : Bytes.ofNat b.length (Bytes.toNat b) = b := by
  induction b with
  | nil => rfl
  | cons c b ih =>
    have hc : c.toNat < 256 := c.toNat_lt
    have hmod : (c.toNat + 256 * Bytes.toNat b) % 256 = c.toNat := by omega
    have hdiv : (c.toNat + 256 * Bytes.toNat b) / 256 = Bytes.toNat b := by omega
    rw [length_cons, Bytes.toNat, Bytes.ofNat, hmod, hdiv, ih, UInt8.ofNat_toNat]

theorem putU32_ofNat (hb : b.length = 4) : putU32 (UInt32.ofNat (Bytes.toNat b)) = b := by
  have hlt := Bytes.toNat_lt b
  rw [hb] at hlt
  rw [putU32, UInt32.toNat_ofNat_of_lt' hlt, ← hb, ofNat_toNat]

theorem ofNat_putU32 (v : UInt32) : UInt32.ofNat (Bytes.toNat (putU32 v)) = v := by
  have hv : v.toNat < 256 ^ 4 := v.toNat_lt
  rw [putU32, Bytes.toNat_ofNat, Nat.mod_eq_of_lt hv, UInt32.ofNat_toNat]

@[simp] theorem length_putU32 (v : UInt32) : (putU32 v).length = 4 := Bytes.length_ofNat _ _

theorem putU64_ofNat (hb : b.length = 8) : putU64 (UInt64.ofNat (Bytes.toNat b)) = b := by
  have hlt := Bytes.toNat_lt b
  rw [hb] at hlt
  rw [putU64, UInt64.toNat_ofNat_of_lt' hlt, ← hb, ofNat_toNat]

theorem ofNat_putU64 (v : UInt64) : UInt64.ofNat (Bytes.toNat (putU64 v)) = v := by
  have hv : v.toNat < 256 ^ 8 := v.toNat_lt
  rw [putU64, Bytes.toNat_ofNat, Nat.mod_eq_of_lt hv, UInt64.ofNat_toNat]

@[simp] theorem length_putU64 (v : UInt64) : (putU64 v).length = 8 := Bytes.length_ofNat _ _

theorem inverts_u32 : Inverts putU32 (u32 e) fun _ => True :=
  ((inverts_take e 4).map (fun _ hb => putU32_ofNat hb) ofNat_putU32).congr
    (fun v => iff_of_true trivial (length_putU32 v)) fun _ _ => rfl

theorem inverts_u64 : Inverts putU64 (u64 e) fun _ => True :=
  ((inverts_take e 8).map (fun _ hb => putU64_ofNat hb) ofNat_putU64).congr
    (fun v => iff_of_true trivial (length_putU64 v)) fun _ _ => rfl

/-- What a length says is read. -/
theorem Inverts.counted (size : α → ℕ) {enc : α → Bytes} {dec : ℕ → Reader E α} {P : α → Prop}
    (h : ∀ n, Inverts enc (dec n) fun a => size a = n ∧ P a) :
    Inverts (fun a => putU32 (UInt32.ofNat (size a)) ++ enc a)
      (do let n ← u32 e; dec n.toNat) fun a => size a < 2 ^ 32 ∧ P a where
  reads a ha rest := by
    have hn : (UInt32.ofNat (size a)).toNat = size a := UInt32.toNat_ofNat_of_lt' ha.1
    rw [append_assoc, (inverts_u32 e).bind_reads trivial, hn]
    exact (h _).reads a ⟨rfl, ha.2⟩ rest
  only bs a rest hb := by
    obtain ⟨n, mid, -, rfl, hd⟩ := (inverts_u32 e).bind_eq hb
    obtain ⟨⟨hn, ha⟩, rfl⟩ := (h n.toNat).only mid a rest hd
    rw [hn, UInt32.ofNat_toNat]
    exact ⟨⟨n.toNat_lt, ha⟩, rfl⟩

theorem inverts_counted : Inverts putCounted (Codec.counted e) (·.length < 2 ^ 32) := by
  refine (Inverts.counted e List.length (P := fun _ => True) fun n => ?_).congr
    (fun b => ?_) fun _ _ => rfl
  · exact (inverts_take e n).congr (fun b => and_iff_left trivial) fun _ _ => rfl
  · exact (and_iff_left trivial).symm

variable {enc : α → Bytes} {P : α → Prop}

theorem Inverts.times (h : Inverts enc dec P)
    (n : ℕ) : Inverts (fun l => l.flatMap enc) (Codec.times dec n)
      fun l => l.length = n ∧ ∀ a ∈ l, P a := by
  induction n with
  | zero =>
    refine (inverts_pure []).congr (fun l => ?_) fun l hl => ?_
    · rw [length_eq_zero_iff]
      exact ⟨And.left, fun hl => ⟨hl, by simp [hl]⟩⟩
    · rw [hl]
      rfl
  | succ n ih =>
    refine ⟨fun l hl rest => ?_, fun bs l rest hb => ?_⟩
    · cases l with
      | nil => cases hl.1
      | cons a as =>
        rw [flatMap_cons, append_assoc, Codec.times,
          h.bind_reads (hl.2 a (.head _)),
          ih.bind_reads ⟨Nat.succ.inj hl.1, fun b hb => hl.2 b (.tail a hb)⟩]
        rfl
    · obtain ⟨a, mid, ha, rfl, hf⟩ := h.bind_eq hb
      obtain ⟨as, mid', has, rfl, hp⟩ := ih.bind_eq hf
      obtain ⟨rfl, rfl⟩ := pure_exact hp
      refine ⟨⟨congrArg Nat.succ has.1, ?_⟩, ?_⟩
      · exact forall_mem_cons.2 ⟨ha, has.2⟩
      · rw [flatMap_cons, append_assoc]

/-- A list after its length. -/
theorem Inverts.list (h : Inverts enc dec P) :
    Inverts (putList enc) (Codec.list e dec) fun l => l.length < 2 ^ 32 ∧ ∀ a ∈ l, P a :=
  Inverts.counted e List.length fun n => h.times n

/-! ### Whole byte strings -/

/-- What a reader makes of all of a byte string. -/
def whole (dec : Reader E α) (bs : Bytes) : Except E α := do
  let (a, rest) ← dec bs
  if rest.length ≠ 0 then .error e else .ok a

theorem Inverts.whole_iff (h : Inverts enc dec P) : whole e dec bs = .ok a ↔ P a ∧ bs = enc a := by
  constructor
  · intro hb
    rw [whole] at hb
    cases hd : dec bs with
    | error e' =>
      rw [hd] at hb
      cases hb
    | ok p =>
      obtain ⟨b, rest⟩ := p
      rw [hd] at hb
      change (if rest.length ≠ 0 then Except.error e else .ok b) = .ok a at hb
      split_ifs at hb with hr
      cases hb
      obtain ⟨ha, rfl⟩ := h.only bs _ rest hd
      rw [length_eq_zero_iff.1 (not_not.1 hr), append_nil]
      exact ⟨ha, rfl⟩
  · rintro ⟨ha, rfl⟩
    have hr := h.reads a ha []
    rw [append_nil] at hr
    rw [whole, hr]
    rfl

/-- What a decoder must do for values that have one encoding each. -/
structure Exact (enc : α → Bytes) (dec : Bytes → Except E α) (P : α → Prop) : Prop where
  decode_encode : ∀ a, P a → dec (enc a) = .ok a
  encode_decode : ∀ b a, dec b = .ok a → P a ∧ enc a = b
  /-- A message that goes on is refused, -/
  extended : ∀ a b, P a → b ≠ [] → ∀ a', dec (enc a ++ b) ≠ .ok a'
  /-- and so is one that is cut off. -/
  truncated : ∀ a b b', P a → enc a = b ++ b' → b' ≠ [] → ∀ a', dec b ≠ .ok a'

/-- **One encoding for each value.** -/
theorem Inverts.exact (h : Inverts enc dec P) : Exact enc (whole e dec) P := by
  -- a value whose encoding starts a byte string is the one read there
  have hstart : ∀ a a' b b', P a → P a' → enc a ++ b = enc a' ++ b' → b = b' := by
    intro a a' b b' ha ha' he
    have hr := h.reads a ha b
    rw [he, h.reads a' ha' b'] at hr
    exact (Prod.mk.inj (Except.ok.inj hr)).2.symm
  refine ⟨fun a ha => (h.whole_iff e).2 ⟨ha, rfl⟩, fun b a hb => ?_, fun a b ha hb a' hd => ?_,
    fun a b b' ha he hb a' hd => ?_⟩
  · obtain ⟨ha, rfl⟩ := (h.whole_iff e).1 hb
    exact ⟨ha, rfl⟩
  · obtain ⟨ha', he⟩ := (h.whole_iff e).1 hd
    exact hb (hstart a a' b [] ha ha' (he.trans (append_nil _).symm))
  · obtain ⟨ha', rfl⟩ := (h.whole_iff e).1 hd
    exact hb (hstart a a' [] b' ha ha' ((append_nil _).trans he)).symm

end Codec
