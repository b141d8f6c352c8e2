import Aim.Parcels.RoundTrip

/-!
# Parcels — Exceptions

The layout of an exception depends on its code: a service-specific error has a word more, a
parcelable one an envelope whose size is patched in afterwards.

* `Exception.Built`: the exceptions that are built.
* `framing`: the bytes of an exception.
* `readException_fits`: what can be read at all.
-/

namespace Parcels

open Codec Parcel

variable {F : Type}

/-- The exceptions that `Exception::new` and `Exception::parcelable` build, the first with an error
word if it is service-specific. -/
inductive Exception.Built : Exception → Prop where
  | new (code : Int32) (message : Text) : Built (.new code message)
  | serviceSpecific (message : Text) (word : Int32) :
    Built { Exception.new EX_SERVICE_SPECIFIC message with serviceSpecific := word }
  | parcelable {F : Type} {message : Option Text} {payload : Parcel F} {e : Exception}
    (sound : payload.Sound) (h : Exception.ofParcelable message payload = .ok e) : Built e

/-- The envelope of a payload: its size counts from itself. -/
def envelope : Option ParcelableException → Bytes
  | some payload => putU32 (Int32.ofNat (4 + padded payload.bytes.length)).toUInt32 ++
      fill payload.bytes
  | none => putU32 0

/-- What follows the stack trace. -/
def detail (e : Exception) : Bytes :=
  if e.code = EX_SERVICE_SPECIFIC then putU32 e.serviceSpecific.toUInt32
  else if e.code = EX_PARCELABLE then envelope e.parcelable
  else []

/-- The bytes of an exception and its message. -/
def framing (e : Exception) (message : Option Text) : Bytes :=
  putU32 e.code.toUInt32 ++ (string16 message ++ (putU32 (0 : Int32).toUInt32 ++ detail e))

/-! ### Writing -/

/-- A size that is patched in after the payload. -/
theorem setI32At_envelope (p : Parcel F) (hp : 4 ∣ p.data.length) (payload : ParcelableException) :
    ((p.writeI32 0).writeRaw payload.bytes []).setI32At p.data.length
      (Int32.ofNat (((p.writeI32 0).writeRaw payload.bytes []).data.length - p.data.length)) =
        some (p.append { data := envelope (some payload) }) := by
  have hraw : (p.writeI32 0).writeRaw payload.bytes [] =
      p.append { data := putU32 (0 : Int32).toUInt32 ++ fill payload.bytes } :=
    ((Appends.i32 0).comp (.raw (by simp))).eq p hp
  have hlen : (p.data ++ (putU32 (0 : Int32).toUInt32 ++ fill payload.bytes)).length -
      p.data.length = 4 + padded payload.bytes.length := by
    simp
  have hset := Bytes.overwrite_append (a := p.data) (b := putU32 (0 : Int32).toUInt32)
    (d := putU32 (Int32.ofNat (4 + padded payload.bytes.length)).toUInt32)
    (c := fill payload.bytes) (by simp)
  rw [hraw, setI32At, append_data, hlen, hset]
  rfl

theorem appends_head (code : Int32) (message : Option Text) : Appends (F := F)
    (fun p => ((p.writeI32 code).writeString16 message).writeI32 0)
    { data := putU32 code.toUInt32 ++ (string16 message ++ putU32 (0 : Int32).toUInt32) } := by
  have h := ((Appends.i32 (F := F) code).comp (.string16 message)).comp (.i32 0)
  exact h

/-- An exception is written as its framing. -/
theorem writeExceptionMessage_eq (p : Parcel F) (hp : 4 ∣ p.data.length) (e : Exception)
    (message : Option Text) :
    p.writeExceptionMessage [] e message = some (p.append { data := framing e message }) := by
  have hhead := appends_head (F := F) e.code message
  have hframe : ∀ d, detail e = d → (p.append { data := framing e message }) =
      (((p.writeI32 e.code).writeString16 message).writeI32 0).append { data := d } := by
    rintro d rfl
    rw [hhead.eq p hp]
    simp [Parcel.append, framing]
  have hq : 4 ∣ (((p.writeI32 e.code).writeString16 message).writeI32 0).data.length := by
    rw [hhead.eq p hp, append_data, List.length_append]
    exact Nat.dvd_add hp hhead.sound.aligned
  change (if e.code = EX_SERVICE_SPECIFIC then _ else _) = _
  split_ifs with hs hpar
  · rw [hframe _ (if_pos hs)]
    exact congrArg some ((Appends.i32 e.serviceSpecific).eq _ hq)
  · have hd : detail e = envelope e.parcelable := by rw [detail, if_neg hs, if_pos hpar]
    rw [hframe _ hd]
    cases hpay : e.parcelable with
    | none => exact congrArg some ((Appends.i32 0).eq _ hq)
    | some payload => exact setI32At_envelope _ hq payload
  · have hd : detail e = [] := by rw [detail, if_neg hs, if_neg hpar]
    rw [hframe _ hd]
    exact congrArg some (append_empty _).symm

/-! ### Reading -/

/-- The envelope of a payload is read back. -/
theorem Reads.payload {payload : ParcelableException} (hwords : 4 ∣ payload.bytes.length)
    (hlen : payload.bytes.length + 4 < 2 ^ 31) :
    Reads (readPayload payload.nullMessage) payload (envelope (some payload)) [] := by
  have hsize : 4 + padded payload.bytes.length < 2 ^ 31 := by
    rw [padded_of_dvd hwords]
    omega
  have hgood : ¬ (Int32.ofNat (4 + padded payload.bytes.length) < 4 ∨
      (Int32.ofNat (4 + padded payload.bytes.length)).toInt % 4 ≠ 0) := by
    have h4 : (4 : Int32).toInt = 4 := rfl
    have hpad := dvd_padded payload.bytes.length
    rw [Int32.lt_iff_toInt_lt, Int32.toInt_ofNat_of_lt hsize]
    omega
  refine (Reads.i32 _ []).bind_plain ?_
  rw [if_neg hgood, Int32.toNatClampNeg_ofNat_of_lt hsize, Nat.add_sub_cancel_left,
    padded_of_dvd hwords, fill_of_dvd hwords]
  intro pre post recorded hrec
  rw [get_bind, bind_ok (Reads.take_words hwords [] pre post recorded hrec),
    bind_ok (since_ok pre payload.bytes post recorded), hrec]
  rfl

/-- What an exception keeps to, and the message it is written with. -/
structure Framed (e : Exception) (message : Option Text) : Prop where
  message_eq : message.getD [] = e.message
  word : e.code ≠ EX_SERVICE_SPECIFIC → e.serviceSpecific = 0
  plain : e.code ≠ EX_PARCELABLE → e.parcelable = none
  payload : e.code = EX_PARCELABLE → ∃ payload, e.parcelable = some payload ∧
    payload.nullMessage = message.isNone ∧ 4 ∣ payload.bytes.length

variable {e : Exception}

/-- A framing is read back as its exception. -/
theorem Reads.exception {message : Option Text} (he : Framed e message)
    (h0 : e.code ≠ 0) (h128 : e.code ≠ EX_HAS_STRICTMODE_REPLY_HEADER)
    (h127 : e.code ≠ EX_HAS_NOTED_APPOPS_REPLY_HEADER)
    (hmsg : ∀ t ∈ message, t.utf16.length < 2 ^ 31)
    (hlen : ∀ payload ∈ e.parcelable, payload.bytes.length + 4 < 2 ^ 31) :
    Reads readException (some e) (framing e message) [] := by
  obtain ⟨code, text, word, parcelable⟩ := e
  obtain ⟨rfl, hword, hplain, hpayload⟩ := he
  refine (Reads.i32 _ []).bind_plain ?_
  rw [if_neg h127]
  change Reads (if code = EX_HAS_STRICTMODE_REPLY_HEADER then _ else _) _ _ _
  rw [if_neg h128, if_neg h0]
  refine (Reads.string16 hmsg).bind_plain ((Reads.i32 _ []).bind_plain ?_)
  refine .bind_nil (a := none) (.pure none) ?_
  rw [detail]
  dsimp only
  by_cases hs : code = EX_SERVICE_SPECIFIC
  · have hp : code ≠ EX_PARCELABLE := by
      rw [hs]
      decide
    obtain rfl := hplain hp
    simp only [if_pos hs, if_neg hp]
    exact (Reads.i32 word []).map _
  · obtain rfl := hword hs
    rw [if_neg hs, if_neg hs]
    refine .bind_nil (.pure 0) ?_
    by_cases hp : code = EX_PARCELABLE
    · obtain ⟨payload, rfl, hnull, hwords⟩ := hpayload hp
      rw [if_pos hp, if_pos hp, ← hnull]
      have hread := (Reads.payload hwords (hlen payload rfl)).map some
      exact hread.map _
    · obtain rfl := hplain hp
      rw [if_neg hp, if_neg hp]
      exact .pure _

/-! ### What is read at all -/

/-- What a framing has room for: a parcelable exception comes with its payload, and the lengths are
32-bit words. -/
structure Exception.Fits (e : Exception) : Prop where
  payload : e.code = EX_PARCELABLE → e.parcelable.isSome
  message : e.message.utf16.length < 2 ^ 31
  length : ∀ payload ∈ e.parcelable, payload.bytes.length + 4 < 2 ^ 31

variable {α β : Type} {r r' : Reader}

/-- A sequence of calls that returns is two calls that return. -/
theorem of_bind_ok {m : Read α} {f : α → Read β} {b : β} (h : (m >>= f) r = .ok (b, r')) :
    ∃ a s, m r = .ok (a, s) ∧ f a s = .ok (b, r') := by
  cases hm : m r with
  | error e =>
    have hf : (m >>= f) r = (m r >>= fun x => f x.1 x.2) := rfl
    rw [hf, hm] at h
    cases h
  | ok x => exact ⟨x.1, x.2, rfl, (bind_ok hm).symm.trans h⟩

/-- The same where both cases of a condition go on alike. -/
theorem of_ite_bind_ok {c : Prop} [Decidable c] {m m' : Read α} {f : α → Read β} {b : β}
    (h : (if c then m >>= f else m' >>= f) r = .ok (b, r')) :
    ∃ a s, (if c then m else m') r = .ok (a, s) ∧ f a s = .ok (b, r') := by
  split_ifs at h ⊢
  · exact of_bind_ok h
  · exact of_bind_ok h

theorem length_units_ofNat {u : ℕ} (hu : u < 0x10000) :
    (Text.units (Char.ofNat u)).length = 1 := by
  have h : (Char.ofNat u).toNat < 0x10000 := by
    rw [Char.toNat_ofNat]
    split_ifs
    · exact hu
    · decide
  rw [Text.units, if_pos h]
  rfl

theorem length_units_le (c : Char) : (Text.units c).length ≤ 2 := by
  unfold Text.units
  split_ifs
  · exact Nat.le_succ 1
  · exact Nat.le_refl 2

/-- A string has as many units as it was decoded from, or fewer. -/
theorem length_utf16_le {us : List ℕ} {s : Text} (hus : ∀ u ∈ us, u < 0x10000)
    (h : Text.fromUtf16 us = some s) : s.utf16.length ≤ us.length := by
  induction us using Text.fromUtf16.induct generalizing s with
  | case1 =>
    cases h
    exact Nat.le_refl _
  | case2 u hs => simp [Text.fromUtf16, hs] at h
  | case3 u hs =>
    rw [Text.fromUtf16, if_neg hs] at h
    cases h
    simp [length_units_ofNat (hus u (.head _))]
  | case4 u v us hs ih =>
    rw [Text.fromUtf16, if_pos hs] at h
    obtain ⟨t, ht, rfl⟩ := Option.map_eq_some_iff.1 h
    have hle := ih (fun w hw => hus w (.tail _ (.tail _ hw))) ht
    have hc := length_units_le (Char.ofNat (0x10000 + (u - 0xd800) * 0x400 + (v - 0xdc00)))
    rw [Text.utf16_cons, List.length_append, List.length_cons, List.length_cons]
    omega
  | case5 u v us hs hs' =>
    rw [Text.fromUtf16, if_neg hs, if_pos hs'] at h
    cases h
  | case6 u v us hs hs' ih =>
    rw [Text.fromUtf16, if_neg hs, if_neg hs'] at h
    obtain ⟨t, ht, rfl⟩ := Option.map_eq_some_iff.1 h
    have hle := ih (fun w hw => hus w (.tail _ hw)) ht
    rw [Text.utf16_cons, List.length_append, length_units_ofNat (hus u (.head _)),
      List.length_cons]
    omega

theorem units16_spec (b : Bytes) :
    2 * (units16 b).length ≤ b.length ∧ ∀ u ∈ units16 b, u < 0x10000 := by
  induction b using units16.induct with
  | case1 a b bs ih =>
    refine ⟨by simp only [units16, List.length_cons]; omega, fun u hu => ?_⟩
    rcases List.mem_cons.1 hu with rfl | hu
    · have hlt := Bytes.toNat_lt [a, b]
      simpa using hlt
    · exact ih.2 u hu
  | case2 b hb => simp [units16]

/-- A string that is read is not longer than its length word can say. -/
theorem readString16_length {s : Option Text} (h : readString16 r = .ok (s, r')) :
    (s.getD []).utf16.length < 2 ^ 31 := by
  obtain ⟨len, r₁, -, h⟩ := of_bind_ok h
  split_ifs at h with hneg
  · cases h
    decide
  obtain ⟨bytes, r₂, -, h⟩ := of_bind_ok h
  cases ht : Text.fromUtf16 (units16 (bytes.take (2 * len.toNatClampNeg))) with
  | none =>
    rw [ht] at h
    cases h
  | some t =>
    rw [ht] at h
    cases h
    have hunits := units16_spec (bytes.take (2 * len.toNatClampNeg))
    have hle := length_utf16_le hunits.2 ht
    have hlen := len.toNatClampNeg_lt
    have htake := List.length_take_le (2 * len.toNatClampNeg) bytes
    rw [Option.getD_some]
    omega

theorem take_ok {len : ℕ} {b : Bytes} (h : take len r = .ok (b, r')) :
    r'.pos = r.pos + padded len := by
  rw [take, get_bind] at h
  split_ifs at h
  · cases h
  · cases h
  · cases h
    rfl

theorem since_length {start : ℕ} {x : Bytes × List ℕ} (h : since start r = .ok (x, r')) :
    x.1.length = r.pos - start := by
  rw [since, get_bind] at h
  split_ifs at h with hin
  · cases h
  · cases h
    rw [List.length_drop, List.length_take]
    omega

/-- The size of a payload that is read was a word. -/
theorem readPayload_length {nullMessage : Bool} {payload : ParcelableException}
    (h : readPayload nullMessage r = .ok (payload, r')) : payload.bytes.length + 4 < 2 ^ 31 := by
  obtain ⟨length, r₁, -, h⟩ := of_bind_ok h
  split_ifs at h with hbad
  · cases h
  rw [get_bind] at h
  obtain ⟨taken, r₂, htake, h⟩ := of_bind_ok h
  obtain ⟨⟨bytes, objects⟩, r₃, hsince, h⟩ := of_bind_ok h
  dsimp only at h
  split_ifs at h
  · cases h
  cases h
  have hpos := take_ok htake
  have hlen := since_length hsince
  have hlt := length.toNatClampNeg_lt
  have hdvd : padded (length.toNatClampNeg - 4) = length.toNatClampNeg - 4 := by
    have hcast : (length.toNatClampNeg : ℤ) = length.toInt := by
      have h4 : (4 : Int32).toInt = 4 := rfl
      rw [Int32.lt_iff_toInt_lt] at hbad
      rw [Int32.toNatClampNeg, Int.toNat_of_nonneg (by omega)]
    exact padded_of_dvd (by omega)
  dsimp only at hlen ⊢
  omega

/-- What a framing has room for is all that is ever read. -/
theorem readException_fits (h : readException r = .ok (some e, r')) : e.Fits := by
  obtain ⟨first, r₁, -, h⟩ := of_bind_ok h
  -- The code comes first, or after a header of noted app-ops.
  obtain ⟨code, r₂, h⟩ : ∃ code r₂, (if code = EX_HAS_STRICTMODE_REPLY_HEADER then _ else
      if code = 0 then _ else readString16 >>= _) r₂ = Except.ok (some e, r') := by
    split_ifs at h
    · obtain ⟨-, s, -, h⟩ := of_bind_ok h
      obtain ⟨code, s', -, h⟩ := of_bind_ok h
      exact ⟨code, s', h⟩
    · exact ⟨first, r₁, h⟩
  by_cases h128 : code = EX_HAS_STRICTMODE_REPLY_HEADER
  · rw [if_pos h128] at h
    obtain ⟨-, s, -, h⟩ := of_bind_ok h
    cases h
  by_cases h0 : code = 0
  · rw [if_neg h128, if_pos h0] at h
    cases h
  rw [if_neg h128, if_neg h0] at h
  obtain ⟨message, r₃, hmessage, h⟩ := of_bind_ok h
  obtain ⟨trace, r₄, -, h⟩ := of_bind_ok h
  obtain ⟨_, r₅, -, h⟩ := of_ite_bind_ok h
  obtain ⟨word, r₆, -, h⟩ := of_ite_bind_ok h
  obtain ⟨parcelable, r₇, hparcelable, h⟩ := of_ite_bind_ok h
  cases h
  have hpayload : (code = EX_PARCELABLE → parcelable.isSome) ∧
      ∀ payload ∈ parcelable, payload.bytes.length + 4 < 2 ^ 31 := by
    split_ifs at hparcelable with hc
    · rw [map_eq_pure_bind] at hparcelable
      obtain ⟨payload, s, hread, h⟩ := of_bind_ok hparcelable
      cases h
      exact ⟨fun _ => rfl, fun _ h => Option.some.inj h ▸ readPayload_length hread⟩
    · cases hparcelable
      exact ⟨fun h => absurd h hc, fun _ h => nomatch h⟩
  exact ⟨hpayload.1, readString16_length hmessage, hpayload.2⟩

/-- The message that `writeException` writes. -/
def Exception.message? (e : Exception) : Option Text :=
  if e.parcelable.any (·.nullMessage) then none else some e.message

theorem Exception.Built.framed (h : e.Built)
    (hpar : e.code = EX_PARCELABLE → e.parcelable.isSome) : Framed e e.message? := by
  cases h with
  | new code message =>
    refine ⟨rfl, fun _ => rfl, fun _ => rfl, fun hc => ?_⟩
    cases hpar hc
  | serviceSpecific message word =>
    refine ⟨rfl, fun hc => absurd rfl hc, fun _ => rfl, fun hc => ?_⟩
    cases hpar hc
  | @parcelable F message payload e hsound h =>
    rw [Exception.ofParcelable] at h
    split_ifs at h
    cases h
    cases message <;> exact ⟨rfl, fun _ => rfl, fun hc => absurd rfl hc,
      fun _ => ⟨_, rfl, rfl, hsound.aligned⟩⟩

/-- **Exceptions.**  An exception that is built is read back from where it is written, whatever
follows, and written again as the same bytes, if and only if it fits its framing: without its payload
or with a length that is no 32-bit word it never is. -/
theorem exceptions_are_framed {e : Exception} (hb : e.Built) (h0 : e.code ≠ 0)
    (h128 : e.code ≠ EX_HAS_STRICTMODE_REPLY_HEADER)
    (h127 : e.code ≠ EX_HAS_NOTED_APPOPS_REPLY_HEADER)
    (p : Parcel F) (hp : p.Sound) (post : Bytes) :
    (∃ q e', p.writeException [] e = some q ∧
      readException ⟨q.data ++ post, q.objects, p.data.length⟩ =
        .ok (some e', ⟨q.data ++ post, q.objects, q.data.length⟩) ∧
      e' = e ∧ p.writeException [] e' = some q) ↔ e.Fits := by
  constructor
  · rintro ⟨q, e', -, hread, rfl, -⟩
    exact readException_fits hread
  intro hfits
  have hmsg : ∀ t ∈ e.message?, t.utf16.length < 2 ^ 31 := by
    intro t ht
    rw [Exception.message?] at ht
    split_ifs at ht
    · cases ht
    · cases ht
      exact hfits.message
  have hwrite := writeExceptionMessage_eq p hp.aligned e e.message?
  have hread := Reads.exception (hb.framed hfits.payload) h0 h128 h127 hmsg hfits.length
  refine ⟨_, e, hwrite, ?_, rfl, hwrite⟩
  have hr := hread p.data post _ (among_past hp.inside _)
  simpa [Parcel.append] using hr

/-- An exception with a payload and a null message, after an int. -/
theorem exceptions_are_framed_parcelable :
    ∃ q e', (({} : Parcel Unit).writeI32 7).writeException []
        { code := EX_PARCELABLE, message := [], parcelable := some ⟨[1, 2, 3, 4], true⟩ } = some q ∧
      readException ⟨q.data ++ [], q.objects, 4⟩ =
        .ok (some e', ⟨q.data ++ [], q.objects, q.data.length⟩) ∧
      e' = { code := EX_PARCELABLE, message := [], parcelable := some ⟨[1, 2, 3, 4], true⟩ } ∧
      (({} : Parcel Unit).writeI32 7).writeException [] e' = some q := by
  have hb := @Exception.Built.parcelable Unit none ⟨[1, 2, 3, 4], [], []⟩ _ ⟨⟨1, rfl⟩, nofun⟩ rfl
  have hp : (({} : Parcel Unit).writeI32 7).Sound := ⟨⟨1, rfl⟩, by simp [writeI32, Parcel.extend]⟩
  refine (exceptions_are_framed hb ?_ ?_ ?_ _ hp []).2 ⟨fun _ => rfl, ?_, ?_⟩ <;> decide

/-- `Exception::new` gives `EX_PARCELABLE` no payload, and its framing is refused. -/
theorem payload_missing_refused :
    (Exception.new EX_PARCELABLE ['x']).Built ∧
      ∃ q, ({} : Parcel Unit).writeException [] (Exception.new EX_PARCELABLE ['x']) = some q ∧
        readException ⟨q.data, q.objects, 0⟩ = .error (.status BAD_VALUE) :=
  ⟨.new _ _, _, rfl, rfl⟩

end Parcels
