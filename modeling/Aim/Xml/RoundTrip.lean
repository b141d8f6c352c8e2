import Aim.Xml.Abx
import Aim.Parcels.Pieces

/-!
# Xml — Round trip

What the writer writes of a document, the reader reads back.

* `decodeUtf_encodeUtf`: strings.
* `Inverts w r a`: the reader `r` makes `a` of what `w` writes, and the strings that are interned on
  the two sides stay in step (`Interning.Synced`).
* `Passes w d d'`: what `w` writes takes the loop of the reader from `d` to `d'`.  An element is
  read by the passes for its start, its content and its end (`Passes.element`).
* `readSequence_ne_none`: whatever the bytes are, the loop ends before its passes run out.
-/

namespace Xml

open List Nat

open Interning (Synced)

/-! ### Strings -/

theorem cont_ofNat {k : ℕ} (hk : k < 64) : cont (UInt8.ofNat (0x80 + k)) = some k := by
  have hall : ∀ k : Fin 64, cont (UInt8.ofNat (0x80 + k.1)) = some k.1 := by decide +kernel
  exact hall ⟨k, hk⟩

variable {n : ℕ}

theorem range_iff {a b : UInt8} (hn : n < 256) :
    a ≤ UInt8.ofNat n ∧ UInt8.ofNat n ≤ b ↔ a.toNat ≤ n ∧ n ≤ b.toNat := by
  rw [UInt8.le_iff_toNat_le, UInt8.le_iff_toNat_le, Utf8.toNat_ofNat hn]

section Units

variable (bs : Bytes) {j k l m n : ℕ}

theorem decodeUnits_one (h₁ : 1 ≤ n) (h₂ : n ≤ 0x7f) :
    decodeUnits (UInt8.ofNat n :: bs) = (decodeUnits bs).map (n :: ·) := by
  have hn : n < 256 := by omega
  rw [decodeUnits.eq_def]
  simp only [range_iff hn, UInt8.reduceToNat, Utf8.toNat_ofNat hn]
  rw [if_neg (by omega), if_pos ⟨h₁, h₂⟩]
  cases decodeUnits bs <;> rfl

theorem decodeUnits_two (hj : j < 32) (hk : k < 64) (h : n = j * 64 + k) :
    decodeUnits (UInt8.ofNat (0xc0 + j) :: UInt8.ofNat (0x80 + k) :: bs) =
      (decodeUnits bs).map (n :: ·) := by
  have hn : 0xc0 + j < 256 := by omega
  have hall : ∀ j : Fin 32, (UInt8.ofNat (0xc0 + j.1) &&& 0x1f).toNat = j.1 := by decide +kernel
  rw [decodeUnits.eq_def]
  simp only [range_iff hn, UInt8.reduceToNat, cont_ofNat hk, hall ⟨j, hj⟩]
  rw [if_neg (by omega), if_neg (by omega), if_pos (by omega), h]
  cases decodeUnits bs <;> rfl

theorem decodeUnits_three (hj : j < 16) (hk : k < 64) (hl : l < 64)
    (h : n = (j * 64 + k) * 64 + l) :
    decodeUnits (UInt8.ofNat (0xe0 + j) :: UInt8.ofNat (0x80 + k) :: UInt8.ofNat (0x80 + l) :: bs) =
      (decodeUnits bs).map (n :: ·) := by
  have hn : 0xe0 + j < 256 := by omega
  have hall : ∀ j : Fin 16, (UInt8.ofNat (0xe0 + j.1) &&& 0x0f).toNat = j.1 := by decide +kernel
  rw [decodeUnits.eq_def]
  simp only [range_iff hn, UInt8.reduceToNat, cont_ofNat hk, cont_ofNat hl, hall ⟨j, hj⟩]
  rw [if_neg (by omega), if_neg (by omega), if_neg (by omega), if_pos (by omega), h]
  cases decodeUnits bs <;> rfl

theorem decodeUnits_four (hj : j < 5) (hk : k < 64) (hl : l < 64) (hm : m < 64)
    (h : n = ((j * 64 + k) * 64 + l) * 64 + m) (hn : 0x10000 ≤ n ∧ n < 0x110000) :
    decodeUnits (UInt8.ofNat (0xf0 + j) :: UInt8.ofNat (0x80 + k) :: UInt8.ofNat (0x80 + l) ::
      UInt8.ofNat (0x80 + m) :: bs) =
        (decodeUnits bs).map (Text.utf16 [Char.ofNat n] ++ ·) := by
  have hb : 0xf0 + j < 256 := by omega
  have hall : ∀ j : Fin 5, (UInt8.ofNat (0xf0 + j.1) &&& 7).toNat = j.1 := by decide +kernel
  rw [decodeUnits.eq_def]
  simp only [range_iff hb, UInt8.reduceToNat, cont_ofNat hk, cont_ofNat hl, cont_ofNat hm,
    hall ⟨j, hj⟩]
  rw [if_pos (by omega)]
  change (if 0x10000 ≤ ((j * 64 + k) * 64 + l) * 64 + m ∧ _ then _ else _) = _
  rw [← h, if_pos hn]
  cases decodeUnits bs <;> rfl

end Units

/-- The units of a character are read from its bytes. -/
theorem decodeUnits_char (c : Char) (bs : Bytes) :
    decodeUnits ((if c = '\x00' then [0xc0, 0x80] else Utf8.encode c) ++ bs) =
      (decodeUnits bs).map (Text.utf16 [c] ++ ·) := by
  by_cases h0 : c = '\x00'
  · rw [if_pos h0, h0]
    exact decodeUnits_two bs (j := 0) (k := 0) (by decide) (by decide) rfl
  have hc := Text.toNat_char c
  have hpos : c.toNat ≠ 0 := fun h => h0 (Char.toNat_inj.1 h)
  rw [if_neg h0, Utf8.encode, Text.utf16_cons, Text.utf16_nil, append_nil, Text.units]
  by_cases h₁ : c.toNat < 0x80
  · rw [if_pos h₁, if_pos (by omega)]
    exact decodeUnits_one bs (by omega) (by omega)
  by_cases h₂ : c.toNat < 0x800
  · rw [if_neg h₁, if_pos h₂, if_pos (by omega)]
    exact decodeUnits_two bs (by omega) (by omega) (by omega)
  by_cases h₃ : c.toNat < 0x10000
  · rw [if_neg h₁, if_neg h₂, if_pos h₃, if_pos h₃]
    exact decodeUnits_three bs (by omega) (by omega) (by omega) (by omega)
  have hunits : [0xd800 + (c.toNat - 0x10000) / 0x400, 0xdc00 + (c.toNat - 0x10000) % 0x400] =
      Text.utf16 [Char.ofNat c.toNat] := by
    rw [Char.ofNat_toNat, Text.utf16_cons, Text.utf16_nil, append_nil, Text.units,
      if_neg h₃]
  rw [if_neg h₁, if_neg h₂, if_neg h₃, if_neg h₃, hunits]
  exact decodeUnits_four bs (by omega) (by omega) (by omega) (by omega) (by omega) (by omega)

/-- A string is decoded from its encoding. -/
theorem decodeUnits_encodeUtf (s : Text) : decodeUnits (encodeUtf s) = some s.utf16 := by
  induction s with
  | nil => rfl
  | cons c s ih =>
    have hcons : encodeUtf (c :: s) =
        (if c = '\x00' then [0xc0, 0x80] else Utf8.encode c) ++ encodeUtf s := flatMap_cons
    rw [hcons, decodeUnits_char, ih, Option.map_some, ← Text.utf16_append]
    rfl

/-- A string is read back from its bytes. -/
theorem decodeUtf_encodeUtf (s : Text) : decodeUtf (encodeUtf s) = some s := by
  rw [decodeUtf, decodeUnits_encodeUtf]
  exact Text.fromUtf16_utf16 s

/-! ### Numbers -/

/-- A number below the width is read from its bytes. -/
theorem ofBe_be {w : ℕ} (h : n < 256 ^ w) : ofBe (be w n) = n := by
  rw [ofBe, be, reverse_reverse, Bytes.toNat_ofNat, mod_eq_of_lt h]

@[simp] theorem length_be (w n : ℕ) : (be w n).length = w := by
  rw [be, length_reverse, Bytes.length_ofNat]

/-! ### One call after another -/

/-- A call that returns goes on with its value. -/
theorem bind_ok {σ α β : Type} {m : StateT σ (Except Failure) α}
    {f : α → StateT σ (Except Failure) β} {s s' : σ} {a : α} (h : m s = .ok (a, s')) :
    (m >>= f) s = f a s' := by
  change (m s >>= fun p => f p.1 p.2) = _
  rw [h]
  rfl

theorem bind_exact {σ α β : Type} {m : StateT σ (Except Failure) α}
    {f : α → StateT σ (Except Failure) β} {s s' : σ} {c : β} (h : (m >>= f) s = .ok (c, s')) :
    ∃ a s₁, m s = .ok (a, s₁) ∧ f a s₁ = .ok (c, s') := by
  change (m s >>= fun p => f p.1 p.2) = _ at h
  cases hm : m s with
  | error e =>
    rw [hm] at h
    cases h
  | ok p =>
    rw [hm] at h
    exact ⟨p.1, p.2, rfl, h⟩

/-- The writer adds `b`, and its table changes from `t` to `t'`. -/
def Writes (w : Write Unit) (b : Bytes) (t t' : Table Text ℕ) : Prop :=
  ∀ out, w ⟨out, t⟩ = .ok ((), ⟨out ++ b, t'⟩)

/-- The reader makes `a` of `b`, wherever it is, and its strings change from `l` to `l'`. -/
def Reads {α : Type} (r : Read α) (a : α) (b : Bytes) (l l' : List Text) : Prop :=
  ∀ pre post, r ⟨pre ++ (b ++ post), pre.length, l⟩ =
    .ok (a, ⟨pre ++ (b ++ post), pre.length + b.length, l'⟩)

variable {s : Text}

namespace Writes

variable {w w' : Write Unit} {b b' : Bytes} {t t' t'' : Table Text ℕ}

theorem pure : Writes (Pure.pure ()) [] t t := fun out => by
  rw [append_nil]
  rfl

theorem extend (b : Bytes) : Writes (Write.extend b) b t t := fun _ => rfl

theorem bind (h : Writes w b t t') (h' : Writes w' b' t' t'') :
    Writes (w >>= fun _ => w') (b ++ b') t t'' := by
  intro out
  rw [bind_ok (h out), h' (out ++ b), append_assoc]

theorem len (h : n < 2 ^ 16) : Writes (Write.len n) (be 2 n) t t := by
  rw [Write.len, if_pos h]
  exact extend _

theorem utf (h : (encodeUtf s).length < 2 ^ 16) :
    Writes (Write.utf s) (be 2 (encodeUtf s).length ++ encodeUtf s) t t :=
  (len h).bind (extend _)

theorem interned_old {i : ℕ} (h : t.lookup s = some i) :
    Writes (Write.interned s) (be 2 i) t t := by
  intro out
  rw [Write.interned, bind_ok rfl]
  dsimp only
  rw [h]
  exact extend _ out

theorem interned_new (h : t.lookup s = none) (hs : (encodeUtf s).length < 2 ^ 16) :
    Writes (Write.interned s) (be 2 NEW ++ (be 2 (encodeUtf s).length ++ encodeUtf s)) t
      (Interning.number NEW t s) := by
  have hmod : Writes (modify fun w => { w with interned := Interning.number NEW w.interned s }) []
      t (Interning.number NEW t s) := fun out => by
    rw [append_nil]
    rfl
  have hall := (extend (be 2 NEW)).bind ((utf hs).bind hmod)
  intro out
  rw [Write.interned, bind_ok rfl]
  dsimp only
  rw [h, ← append_nil (be 2 (encodeUtf s).length ++ encodeUtf s)]
  exact hall out

end Writes

variable {b : Bytes}

namespace Reads

variable {α β : Type} {r : Read α} {a : α} {b b' : Bytes} {l l' l'' : List Text}

theorem pure (a : α) : Reads (Pure.pure a) a [] l l := fun _ _ => rfl

variable {f : α → Read β} {c : β}

theorem bind (h : Reads r a b l l') (h' : Reads (f a) c b' l' l'') :
    Reads (r >>= f) c (b ++ b') l l'' := by
  intro pre post
  have h₁ := h pre (b' ++ post)
  have h₂ := h' (pre ++ b) post
  simp only [append_assoc, length_append, add_assoc] at h₁ h₂ ⊢
  rw [bind_ok h₁]
  exact h₂

/-- The rest reads nothing. -/
theorem bind_nil (h : Reads r a b l l') (h' : Reads (f a) c [] l' l'') :
    Reads (r >>= f) c b l l'' := by
  have hb := h.bind h'
  rwa [append_nil] at hb

theorem map (h : Reads r a b l l') (g : α → β) : Reads (g <$> r) (g a) b l l' := by
  rw [map_eq_pure_bind]
  exact h.bind_nil (pure _)

theorem get {f : Reader → Read α} (h : ∀ s, Reads (f s) a b l l') :
    Reads (MonadState.get >>= f) a b l l' := fun pre post => h _ pre post

theorem slice (b : Bytes) : Reads (Read.slice b.length) b b l l := by
  intro pre post
  have hs : Bytes.slice (pre ++ (b ++ post)) pre.length b.length = some b := by
    rw [Bytes.slice_eq_some (by simp), drop_left, take_left]
  rw [Read.slice, bind_ok rfl]
  dsimp only
  rw [hs]
  rfl

theorem u16 (h : n < 2 ^ 16) : Reads Read.u16 n (be 2 n) l l := by
  have hs := (slice (l := l) (be 2 n)).map ofBe
  rw [length_be, ofBe_be h] at hs
  exact hs

theorem utf (h : (encodeUtf s).length < 2 ^ 16) :
    Reads Read.utf s (be 2 (encodeUtf s).length ++ encodeUtf s) l l := by
  refine (u16 h).bind (get fun r₀ => ?_)
  refine (slice (encodeUtf s)).bind_nil ?_
  rw [decodeUtf_encodeUtf]
  exact pure s

theorem interned_old {i : ℕ} (hi : i < NEW) (h : l[i]? = some s) :
    Reads Read.interned s (be 2 i) l l := by
  refine (u16 (Nat.lt_trans hi (by decide))).bind_nil ?_
  rw [if_neg (Nat.ne_of_lt hi)]
  intro pre post
  rw [bind_ok rfl]
  dsimp only
  rw [h]
  rfl

theorem interned_new (h : (encodeUtf s).length < 2 ^ 16) :
    Reads Read.interned s (be 2 NEW ++ (be 2 (encodeUtf s).length ++ encodeUtf s)) l
      (Interning.record NEW l s) := by
  refine (u16 (by decide)).bind ?_
  rw [if_pos rfl]
  exact (utf h).bind_nil fun _ _ => rfl

theorem bytes (h : b.length < 2 ^ 16) : Reads Read.bytes b (be 2 b.length ++ b) l l :=
  (u16 h).bind (slice b)

theorem u32 (v : UInt32) : Reads Read.u32 v (be 4 v.toNat) l l := by
  have hs := (slice (l := l) (be 4 v.toNat)).map fun b => UInt32.ofNat (ofBe b)
  rw [length_be, ofBe_be v.toNat_lt, UInt32.ofNat_toNat] at hs
  exact hs

theorem u64 (v : UInt64) : Reads Read.u64 v (be 8 v.toNat) l l := by
  have hs := (slice (l := l) (be 8 v.toNat)).map fun b => UInt64.ofNat (ofBe b)
  rw [length_be, ofBe_be v.toNat_lt, UInt64.ofNat_toNat] at hs
  exact hs

end Reads

/-- The reader makes `a` of what the writer writes, and their strings stay in step. -/
def Inverts {α : Type} (w : Write Unit) (r : Read α) (a : α) : Prop :=
  ∀ t l, Synced NEW t l →
    ∃ b t' l', Synced NEW t' l' ∧ Writes w b t t' ∧ Reads r a b l l'

namespace Inverts

variable {α β : Type} {w w' : Write Unit} {r : Read α} {a : α}

theorem pure (a : α) : Inverts (Pure.pure ()) (Pure.pure a) a :=
  fun t l h => ⟨[], t, l, h, Writes.pure, .pure a⟩

theorem bind {f : α → Read β} {c : β} (h : Inverts w r a) (h' : Inverts w' (f a) c) :
    Inverts (w >>= fun _ => w') (r >>= f) c := by
  intro t l hs
  obtain ⟨b, t', l', hs', hw, hr⟩ := h t l hs
  obtain ⟨b', t'', l'', hs'', hw', hr'⟩ := h' t' l' hs'
  exact ⟨b ++ b', t'', l'', hs'', hw.bind hw', hr.bind hr'⟩

theorem map (h : Inverts w r a) (g : α → β) : Inverts w (g <$> r) (g a) := by
  intro t l hs
  obtain ⟨b, t', l', hs', hw, hr⟩ := h t l hs
  exact ⟨b, t', l', hs', hw, hr.map g⟩

/-- Where no string is interned. -/
theorem plain (hw : ∀ t, Writes w b t t) (hr : ∀ l, Reads r a b l l) : Inverts w r a :=
  fun t l hs => ⟨b, t, l, hs, hw t, hr l⟩

theorem utf (h : (encodeUtf s).length < 2 ^ 16) : Inverts (Write.utf s) Read.utf s :=
  plain (fun _ => Writes.utf h) fun _ => .utf h

/-- **Interned strings.**  A string that has a number is sent by it; one that has none is sent
itself, whether or not there is room to number it. -/
theorem interned (h : (encodeUtf s).length < 2 ^ 16) :
    Inverts (Write.interned s) Read.interned s := by
  intro t l hs
  cases ht : t.lookup s with
  | some i =>
    exact ⟨_, t, l, hs, Writes.interned_old ht, .interned_old (hs.lt ht) (hs.place s i ht)⟩
  | none => exact ⟨_, _, _, hs.fresh ht, Writes.interned_new ht h, .interned_new h⟩

theorem bytes (h : b.length < 2 ^ 16) :
    Inverts (do Write.len b.length; Write.extend b) Read.bytes b :=
  plain (fun _ => (Writes.len h).bind (Writes.extend b)) fun _ => .bytes h

theorem u32 (v : UInt32) : Inverts (Write.extend (be 4 v.toNat)) Read.u32 v :=
  plain (fun _ => Writes.extend _) fun _ => .u32 v

theorem u64 (v : UInt64) : Inverts (Write.extend (be 8 v.toNat)) Read.u64 v :=
  plain (fun _ => Writes.extend _) fun _ => .u64 v

end Inverts

/-! ### Values -/

/-- What fits the lengths of the format. -/
def Value.Fits : Value → Prop
  | string s | interned s => (encodeUtf s).length < 2 ^ 16
  | bytesHex b | bytesBase64 b => b.length < 2 ^ 16
  | _ => True

/-- A value of each kind is read back. -/
theorem Inverts.value {v : Value} (h : v.Fits) : Inverts (Write.value v) (Read.value v.kind) v := by
  cases v with
  | null => exact Inverts.pure _
  | string s => exact (Inverts.utf h).map _
  | interned s => exact (Inverts.interned h).map _
  | bytesHex b => exact (Inverts.bytes h).map _
  | bytesBase64 b => exact (Inverts.bytes h).map _
  | int v =>
    have hv := (Inverts.u32 v.toUInt32).map fun v => Value.int v.toInt32
    rwa [Int32.toInt32_toUInt32] at hv
  | intHex v =>
    have hv := (Inverts.u32 v.toUInt32).map fun v => Value.intHex v.toInt32
    rwa [Int32.toInt32_toUInt32] at hv
  | long v =>
    have hv := (Inverts.u64 v.toUInt64).map fun v => Value.long v.toInt64
    rwa [Int64.toInt64_toUInt64] at hv
  | longHex v =>
    have hv := (Inverts.u64 v.toUInt64).map fun v => Value.longHex v.toInt64
    rwa [Int64.toInt64_toUInt64] at hv
  | float bits => exact (Inverts.u32 bits).map _
  | double bits => exact (Inverts.u64 bits).map _
  | bool b => cases b <;> exact Inverts.pure _

/-! ### Passes of the loop -/

/-- What the writer writes takes the loop of the reader from `d` to `d'`, in no more passes than
there are bytes. -/
def Passes (w : Write Unit) (d d' : Document) : Prop :=
  ∀ t l, Synced NEW t l →
    ∃ b t' l' k, Synced NEW t' l' ∧ k ≤ b.length ∧ Writes w b t t' ∧
      ∀ n pre post, Read.loop (n + k) d ⟨pre ++ (b ++ post), pre.length, l⟩ =
        Read.loop n d' ⟨pre ++ (b ++ post), pre.length + b.length, l'⟩

theorem Reads.byte (b : UInt8) {l : List Text} : Reads Read.byte b [b] l l :=
  (Reads.slice [b]).map fun b => b.headD 0

namespace Passes

variable {w w' : Write Unit} {d d' d'' : Document}

theorem refl : Passes (pure ()) d d :=
  fun t l hs => ⟨[], t, l, 0, hs, le_refl _, Writes.pure, fun _ _ _ => rfl⟩

theorem trans (h : Passes w d d') (h' : Passes w' d' d'') : Passes (w >>= fun _ => w') d d'' := by
  intro t l hs
  obtain ⟨b, t', l', k, hs', hk, hw, hr⟩ := h t l hs
  obtain ⟨b', t'', l'', k', hs'', hk', hw', hr'⟩ := h' t' l' hs'
  refine ⟨b ++ b', t'', l'', k' + k, hs'', ?_, hw.bind hw', fun n pre post => ?_⟩
  · rw [length_append]
    omega
  · have h₁ := hr (n + k') pre (b' ++ post)
    have h₂ := hr' n (pre ++ b) post
    simp only [append_assoc, length_append, add_assoc] at h₁ h₂ ⊢
    rw [h₁, h₂]

/-- One pass: a token and its data. -/
theorem token {token : UInt8} (h : Inverts w (Read.step token d) (some d')) :
    Passes (Write.extend [token] >>= fun _ => w) d d' := by
  intro t l hs
  obtain ⟨b, t', l', hs', hw, hr⟩ := h t l hs
  refine ⟨[token] ++ b, t', l', 1, hs', by simp, (Writes.extend _).bind hw, fun n pre post => ?_⟩
  have h₁ := Reads.byte token (l := l) pre (b ++ post)
  have h₂ := hr (pre ++ [token]) post
  simp only [append_assoc, length_append, add_assoc] at h₁ h₂ ⊢
  rw [Read.loop, bind_ok h₁, bind_ok h₂]

end Passes

namespace Inverts

variable {α β : Type} {w : Write Unit} {r : Read α} {a : α}

/-- The rest reads nothing. -/
theorem bind_nil {f : α → Read β} {c : β} (h : Inverts w r a) (h' : f a = Pure.pure c) :
    Inverts w (r >>= f) c := by
  intro t l hs
  obtain ⟨b, t', l', hs', hw, hr⟩ := h t l hs
  refine ⟨b, t', l', hs', hw, hr.bind_nil ?_⟩
  rw [h']
  exact .pure c

end Inverts

/-! ### Elements -/

section Elements

variable {name : Text} {attrs : List (Text × Value)} {content : List Node}
  {opened roots : List Element}

def AttrFits (a : Text × Value) : Prop := (encodeUtf a.1).length < 2 ^ 16 ∧ a.2.Fits

mutual

/-- Every string and byte array fits, and the tokens of the content have events of their own. -/
def Element.Fits : Element → Prop
  | ⟨name, attrs, content⟩ =>
    (encodeUtf name).length < 2 ^ 16 ∧ (∀ a ∈ attrs, AttrFits a) ∧ NodesFit content

def NodesFit : List Node → Prop
  | [] => True
  | n :: ns => n.Fits ∧ NodesFit ns

def Node.Fits : Node → Prop
  | .element e => e.Fits
  | .token event text =>
    4 ≤ event ∧ event ≤ 14 ∧ ∀ s ∈ text, (encodeUtf s).length < 2 ^ 16

end

theorem attribute_bits (v : Value) :
    (ATTRIBUTE ||| v.kind) &&& 0x0f = ATTRIBUTE ∧ (ATTRIBUTE ||| v.kind) &&& 0xf0 = v.kind := by
  cases v with
  | bool b => cases b <;> decide
  | _ =>
    simp only [Value.kind]
    decide

/-- An attribute goes to the open element. -/
theorem Passes.attribute_ {a : Text × Value} (h : AttrFits a) :
    Passes (Write.attribute_ a) { opened := ⟨name, attrs, content⟩ :: opened, roots }
      { opened := ⟨name, attrs ++ [a], content⟩ :: opened, roots } := by
  refine .token ?_
  obtain ⟨hevent, hkind⟩ := attribute_bits a.2
  unfold Read.step
  dsimp only
  rw [hevent, hkind, if_neg (by decide), if_pos rfl]
  exact (Inverts.interned h.1).bind ((Inverts.value h.2).bind_nil rfl)

theorem Passes.attributes {more : List (Text × Value)} (h : ∀ a ∈ more, AttrFits a) :
    Passes (Write.attributes more) { opened := ⟨name, attrs, content⟩ :: opened, roots }
      { opened := ⟨name, attrs ++ more, content⟩ :: opened, roots } := by
  induction more generalizing attrs with
  | nil =>
    rw [append_nil]
    exact .refl
  | cons a more ih =>
    rw [append_cons]
    exact (Passes.attribute_ (h a (.head _))).trans
      (ih fun b hb => h b (.tail a hb))

/-- The start of an element opens it, with its attributes. -/
theorem Passes.startElement (hname : (encodeUtf name).length < 2 ^ 16)
    (hattrs : ∀ a ∈ attrs, AttrFits a) :
    Passes (Write.startElement name attrs) { opened, roots }
      { opened := ⟨name, attrs, []⟩ :: opened, roots } := by
  have hstart : Passes (Write.extend [START_TAG ||| TYPE_STRING_INTERNED] >>= fun _ =>
      Write.interned name) { opened, roots } { opened := ⟨name, [], []⟩ :: opened, roots } :=
    .token ((Inverts.interned hname).bind_nil rfl)
  have h := hstart.trans (.attributes hattrs)
  rw [bind_assoc] at h
  exact h

/-- The end of an element closes it. -/
theorem Passes.endElement (hname : (encodeUtf name).length < 2 ^ 16) :
    Passes (Write.endElement name) { opened := ⟨name, attrs, content⟩ :: opened, roots }
      (Read.close ⟨name, attrs, content⟩ opened roots) :=
  .token ((Inverts.interned hname).bind_nil (if_neg (not_not.2 rfl)))

variable {event : UInt8}

variable (h₁ : 4 ≤ event)

include h₁

variable {kind : UInt8}

/-- A token of the content is none of the others. -/
theorem contentToken_bits (h₂ : event ≤ 14) (hkind : kind = TYPE_NULL ∨ kind = TYPE_STRING) :
    (event ||| kind) &&& 0x0f = event ∧ (event ||| kind) &&& 0xf0 = kind ∧ event ≠ START_TAG ∧
      event ≠ ATTRIBUTE ∧ event ≠ END_TAG ∧ event ≠ START_DOCUMENT ∧ event ≠ END_DOCUMENT := by
  have hall : ∀ e : Fin 15, 4 ≤ e.1 → ∀ kind ∈ [TYPE_NULL, TYPE_STRING],
      (UInt8.ofNat e.1 ||| kind) &&& 0x0f = UInt8.ofNat e.1 ∧
      (UInt8.ofNat e.1 ||| kind) &&& 0xf0 = kind ∧ UInt8.ofNat e.1 ≠ START_TAG ∧
      UInt8.ofNat e.1 ≠ ATTRIBUTE ∧ UInt8.ofNat e.1 ≠ END_TAG ∧
      UInt8.ofNat e.1 ≠ START_DOCUMENT ∧ UInt8.ofNat e.1 ≠ END_DOCUMENT := by
    decide +kernel
  have h := hall ⟨event.toNat, lt_succ_of_le h₂⟩ h₁ kind (by simpa using hkind)
  rwa [UInt8.ofNat_toNat] at h

/-- A token of the content goes to the open element, with its text if it has one. -/
theorem Passes.contentToken {w : Write Unit} {v : Value} {text : Option Text} (h₂ : event ≤ 14)
    (hkind : kind = TYPE_NULL ∨ kind = TYPE_STRING)
    (hv : Inverts w (Read.value kind) v)
    (htext : v = .null ∧ text = none ∨ ∃ s, v = .string s ∧ text = some s) :
    Passes (Write.extend [event ||| kind] >>= fun _ => w)
      { opened := ⟨name, attrs, content⟩ :: opened, roots }
      { opened := ⟨name, attrs, content ++ [.token event text]⟩ :: opened, roots } := by
  refine .token ?_
  obtain ⟨hevent, hk, ha, hb, hc, hd, he⟩ := contentToken_bits h₁ h₂ hkind
  unfold Read.step
  dsimp only
  rw [hevent, hk, if_neg ha, if_neg hb, if_neg hc, if_neg hd, if_neg he]
  refine hv.bind_nil ?_
  rcases htext with ⟨rfl, rfl⟩ | ⟨s, rfl, rfl⟩ <;> rfl

theorem Passes.emptyToken (h₂ : event ≤ 14) :
    Passes (Write.extend [event ||| TYPE_NULL])
      { opened := ⟨name, attrs, content⟩ :: opened, roots }
      { opened := ⟨name, attrs, content ++ [.token event none]⟩ :: opened, roots } := by
  rw [← bind_pure_unit (x := Write.extend [event ||| TYPE_NULL])]
  exact .contentToken h₁ h₂ (.inl rfl) (Inverts.pure Value.null) (.inl ⟨rfl, rfl⟩)

theorem Passes.textToken {text : Text} (h₂ : event ≤ 14)
    (htext : (encodeUtf text).length < 2 ^ 16) :
    Passes (Write.extend [event ||| TYPE_STRING] >>= fun _ => Write.utf text)
      { opened := ⟨name, attrs, content⟩ :: opened, roots }
      { opened := ⟨name, attrs, content ++ [.token event (some text)]⟩ :: opened, roots } :=
  .contentToken h₁ h₂ (.inr rfl) ((Inverts.utf htext).map Value.string)
    (.inr ⟨text, rfl, rfl⟩)

omit h₁

mutual

/-- **An element** goes to its parent, or to the roots. -/
theorem Passes.element : ∀ (e : Element), e.Fits → ∀ opened roots : List Element,
    Passes (Write.element e) { opened, roots } (Read.close e opened roots)
  | ⟨name, attrs, content⟩, h, opened, roots => by
      obtain ⟨hname, hattrs, hcontent⟩ := h
      rw [Write.element]
      exact (Passes.startElement hname hattrs).trans
        ((Passes.nodes content hcontent name attrs [] opened roots).trans (Passes.endElement hname))

/-- The content of an element, node by node. -/
theorem Passes.nodes : ∀ (ns : List Node), NodesFit ns → ∀ (name : Text)
    (attrs : List (Text × Value)) (content : List Node) (opened roots : List Element),
    Passes (Write.nodes ns) { opened := ⟨name, attrs, content⟩ :: opened, roots }
      { opened := ⟨name, attrs, content ++ ns⟩ :: opened, roots }
  | [], _, _, _, content, _, _ => by
      rw [Write.nodes, append_nil]
      exact .refl
  | n :: ns, h, name, attrs, content, opened, roots => by
      rw [Write.nodes, append_cons]
      exact (Passes.node n h.1 name attrs content opened roots).trans
        (.nodes ns h.2 name attrs (content ++ [n]) opened roots)

theorem Passes.node : ∀ (n : Node), n.Fits → ∀ (name : Text)
    (attrs : List (Text × Value)) (content : List Node) (opened roots : List Element),
    Passes (Write.node n) { opened := ⟨name, attrs, content⟩ :: opened, roots }
      { opened := ⟨name, attrs, content ++ [n]⟩ :: opened, roots }
  | .element e, h, name, attrs, content, opened, roots => by
      rw [Write.node]
      exact .element e h (⟨name, attrs, content⟩ :: opened) roots
  | .token event none, h, name, attrs, content, opened, roots => by
      rw [Write.node]
      exact .emptyToken h.1 h.2.1
  | .token event (some text), h, name, attrs, content, opened, roots => by
      rw [Write.node]
      exact .textToken h.1 h.2.1 (h.2.2 text rfl)

end

/-- The roots of a document, one after another. -/
theorem Passes.elements {es : List Element} (h : ∀ e ∈ es, e.Fits) (roots : List Element) :
    Passes (Write.elements es) { opened := [], roots } { opened := [], roots := roots ++ es } := by
  induction es generalizing roots with
  | nil =>
    rw [append_nil]
    exact .refl
  | cons e es ih =>
    rw [append_cons]
    exact (Passes.element e (h e (.head _)) [] roots).trans
      (ih (fun f hf => h f (.tail e hf)) (roots ++ [e]))

end Elements

/-! ### Every pass takes a byte -/

/-- A slice that is read lies within the bytes and moves the reader past it. -/
theorem slice_ok {r r' : Reader} (h : Read.slice n r = .ok (b, r')) :
    r.at_ + n ≤ r.bytes.length ∧ b.length = n ∧ r' = { r with at_ := r.at_ + n } ∧
      Bytes.slice r.bytes r.at_ n = some b := by
  rw [Read.slice, bind_ok rfl] at h
  cases hs : Bytes.slice r.bytes r.at_ n with
  | none =>
    rw [hs] at h
    cases h
  | some out =>
    rw [hs] at h
    cases h
    refine ⟨?_, Bytes.slice_length hs, rfl, rfl⟩
    by_contra hfit
    rw [Bytes.slice, if_neg hfit] at hs
    cases hs

/-- The reader goes on in the same bytes. -/
def Advances {α : Type} (m : Read α) : Prop :=
  ∀ r a r', m r = .ok (a, r') → r'.bytes = r.bytes ∧ r.at_ ≤ r'.at_

namespace Advances

variable {α β : Type} {m : Read α}

theorem pure (a : α) : Advances (Pure.pure a) := by
  intro r b r' h
  cases h
  exact ⟨rfl, le_refl _⟩

theorem throw (e : Failure) : Advances (MonadExcept.throw e : Read α) := fun _ _ _ h => nomatch h

theorem bind {f : α → Read β} (h : Advances m) (h' : ∀ a, Advances (f a)) : Advances (m >>= f) := by
  intro r b r' hb
  obtain ⟨a, r₁, hm, hf⟩ := bind_exact hb
  obtain ⟨hb₁, hle₁⟩ := h r a r₁ hm
  obtain ⟨hb₂, hle₂⟩ := h' a r₁ b r' hf
  exact ⟨hb₂.trans hb₁, le_trans hle₁ hle₂⟩

theorem map (h : Advances m) (g : α → β) : Advances (g <$> m) := by
  rw [map_eq_pure_bind]
  exact h.bind fun a => pure _

theorem ite {c : Prop} [Decidable c] {m' : Read α} (h : Advances m) (h' : Advances m') :
    Advances (if c then m else m') := by
  split_ifs
  · exact h
  · exact h'

theorem get : Advances MonadState.get := by
  intro r a r' h
  cases h
  exact ⟨rfl, le_refl _⟩

theorem slice (n : ℕ) : Advances (Read.slice n) := by
  intro r a r' h
  obtain ⟨-, -, rfl, -⟩ := slice_ok h
  exact ⟨rfl, le_add_right _ _⟩

theorem utf : Advances Read.utf := by
  refine ((slice 2).bind fun _ => pure _).bind fun n => get.bind fun r => (slice n).bind fun b => ?_
  split
  · exact throw _
  · exact pure _

theorem interned : Advances Read.interned := by
  refine ((slice 2).bind fun _ => pure _).bind fun i => ?_
  split_ifs
  · refine utf.bind fun s => Advances.bind ?_ fun _ => pure s
    intro r a r' h
    cases h
    exact ⟨rfl, le_refl _⟩
  · refine get.bind fun r => ?_
    split
    · exact throw _
    · exact pure _

theorem value (kind : UInt8) : Advances (Read.value kind) := by
  have hbytes : Advances Read.bytes := ((slice 2).bind fun _ => pure _).bind fun n => slice n
  have hu32 : Advances Read.u32 := (slice 4).bind fun _ => pure _
  have hu64 : Advances Read.u64 := (slice 8).bind fun _ => pure _
  exact ite (pure _) (ite (utf.map _) (ite (interned.map _) (ite (hbytes.map _) (ite (hbytes.map _)
    (ite (hu32.map _) (ite (hu32.map _) (ite (hu64.map _) (ite (hu64.map _) (ite (hu32.map _)
      (ite (hu64.map _) (ite (pure _) (ite (pure _) (throw _)))))))))))))

theorem step (token : UInt8) (d : Document) : Advances (Read.step token d) := by
  refine ite (interned.bind fun _ => pure _)
    (ite (interned.bind fun _ => (value _).bind fun _ => ?_) (ite (interned.bind fun _ => ?_)
      (ite (pure _) (ite (pure _) ((value _).bind fun v => ?_)))))
  · split
    · exact throw _
    · exact pure _
  · split
    · exact throw _
    · exact ite (throw _) (pure _)
  · cases v with
    | null | string =>
      refine (pure _).bind fun text => ?_
      split
      · exact pure _
      · exact pure _
    | _ =>
      refine (throw _).bind fun text => ?_
      split
      · exact pure _
      · exact pure _

end Advances

/-- The loop ends before its passes do. -/
theorem loop_ne_none {d : Document} {r : Reader} (h : r.bytes.length - r.at_ < n)
    (r' : Reader) : Read.loop n d r ≠ .ok (none, r') := by
  induction n generalizing d r with
  | zero => exact absurd h (not_lt_zero _)
  | succ n ih =>
    intro hl
    rw [Read.loop] at hl
    obtain ⟨token, r₁, hbyte, hl⟩ := bind_exact hl
    obtain ⟨next, r₂, hstep, hl⟩ := bind_exact hl
    obtain ⟨b, r₀, hslice, hr₀⟩ := bind_exact hbyte
    obtain ⟨hbytes, hle⟩ := Advances.step token d r₁ next r₂ hstep
    cases hr₀
    obtain ⟨hfit, -, rfl, -⟩ := slice_ok hslice
    cases next with
    | some d' =>
      refine ih ?_ hl
      change r.at_ + 1 ≤ r₂.at_ at hle
      change r₂.bytes = r.bytes at hbytes
      rw [hbytes]
      omega
    | none =>
      cases hd : d.opened.getLast? with
      | none =>
        simp only [hd] at hl
        cases hl
      | some e =>
        simp only [hd] at hl
        cases hl

/-- Reading ends: with the elements, or with a failure. -/
theorem readSequence_ne_none (bytes : Bytes) : readSequence bytes ≠ .ok none := by
  intro h
  rw [readSequence] at h
  split_ifs at h with hmagic
  have hlen : MAGIC.length ≤ bytes.length := hmagic.length_le
  cases hl : Read.loop bytes.length {} ⟨bytes, MAGIC.length, []⟩ with
  | error e =>
    rw [hl] at h
    cases h
  | ok p =>
    rw [hl] at h
    obtain ⟨x, r'⟩ := p
    cases h
    refine loop_ne_none ?_ r' hl
    simp only [MAGIC, length_cons, length_nil] at hlen ⊢
    omega

/-! ### Documents -/

/-- The end of the document, where every element has ended. -/
theorem loop_end (n : ℕ) (roots : List Element) (pre : Bytes) (l : List Text) :
    Prod.fst <$> Read.loop (n + 1) { opened := [], roots }
      ⟨pre ++ [END_DOCUMENT ||| TYPE_NULL], pre.length, l⟩ = .ok (some roots) := by
  have hb := Reads.byte (END_DOCUMENT ||| TYPE_NULL) (l := l) pre []
  rw [append_nil] at hb
  rw [Read.loop, bind_ok hb]
  rfl

/-- **Binary XML round trip.**  Any sequence of elements whose strings and byte arrays fit their
lengths is written, and read back as it was, however many strings it interns; and any string is
decoded from its encoding. -/
theorem sequence_round_trip :
    (∀ roots : List Element, (∀ e ∈ roots, e.Fits) →
      ∃ bytes, writeSequence roots = .ok bytes ∧ readSequence bytes = .ok (some roots)) ∧
    ∀ s : Text, decodeUtf (encodeUtf s) = some s := by
  refine ⟨fun roots h => ?_, decodeUtf_encodeUtf⟩
  have hstart : Passes (Write.extend [START_DOCUMENT ||| TYPE_NULL] >>= fun _ => pure ()) {} {} :=
    .token (Inverts.pure _)
  obtain ⟨b, t, l, k, -, hk, hw, hr⟩ :=
    hstart.trans (.elements h []) ∅ [] Synced.empty
  refine ⟨MAGIC ++ (b ++ [END_DOCUMENT ||| TYPE_NULL]), ?_, ?_⟩
  · have hout : Write.elements roots {} = .ok ((), ⟨MAGIC ++ b, t⟩) := hw MAGIC
    rw [writeSequence, hout]
    change Except.ok (MAGIC ++ b ++ [END_DOCUMENT ||| TYPE_NULL]) = _
    rw [append_assoc]
  · have hlen : (MAGIC ++ (b ++ [END_DOCUMENT ||| TYPE_NULL])).length =
        b.length - k + 4 + 1 + k := by
      simp only [length_append, MAGIC, length_cons, length_nil]
      omega
    rw [readSequence, if_pos (prefix_append _ _), hlen, hr]
    have hend := loop_end (b.length - k + 4) roots (MAGIC ++ b) l
    rwa [append_assoc, length_append] at hend

/-- A document with a value of every type, and elements and tokens among each other. -/
def sample : Element :=
  ⟨"a".toList, [("n".toList, .null), ("s".toList, .string "é\x00😀".toList),
      ("i".toList, .interned "a".toList), ("x".toList, .bytesHex [0, 255]),
      ("y".toList, .bytesBase64 []), ("d".toList, .int (-1)), ("e".toList, .intHex 16),
      ("l".toList, .long 5), ("m".toList, .longHex (-5)), ("f".toList, .float 0x7fc00001),
      ("g".toList, .double 0x8000000000000000), ("t".toList, .bool true),
      ("b".toList, .bool false)],
    [.token 4 (some "text".toList), .element ⟨"a".toList, [], []⟩, .token 14 none]⟩

theorem sequence_round_trip_values :
    (∀ e ∈ [sample, sample], e.Fits) ∧
      ∃ bytes, writeSequence [sample, sample] = .ok bytes ∧
        readSequence bytes = .ok (some [sample, sample]) := by
  have hfits : ∀ e ∈ [sample, sample], e.Fits := by
    simp only [sample, Element.Fits, NodesFit, Node.Fits, AttrFits, Value.Fits, mem_cons,
      not_mem_nil, or_false, or_self, forall_eq, forall_eq', forall_eq_or_imp, false_imp_iff,
      imp_true_iff, and_true, Option.mem_def, Option.some.injEq, reduceCtorEq]
    decide +kernel
  exact ⟨hfits, sequence_round_trip.1 [sample, sample] hfits⟩

end Xml
