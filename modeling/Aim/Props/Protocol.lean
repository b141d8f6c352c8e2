import Aim.Support.Arrival
import Aim.Props.Area

/-!
# Props — The property socket

`props/protocol`: the requests on the `property_service` socket, as they are decoded from the bytes
received so far, and the encodings of a client; and `read_request` of the guest's init, which
decodes again whenever bytes arrive.

* `decodeRequest_steady`: a decision is taken on exactly the bytes that determine it.
* `decodeRequest_setprop2`, `decodeRequest_setprop`: requests are read back.
* `readRequest_eq`: the outcome of a connection does not depend on how its bytes were cut.

Words are little-endian.  The time limit of a connection ends the list of its chunks.
-/

namespace Aim.Props.Protocol

def PROP_NAME_MAX : ℕ := 32
def PROP_MSG_SETPROP : ℕ := 1
def PROP_MSG_SETPROP2 : ℕ := 0x00020001
def PROP_ERROR_READ_CMD : ℕ := 0x0004
def PROP_ERROR_READ_DATA : ℕ := 0x0008
def PROP_ERROR_INVALID_CMD : ℕ := 0x001B
/-- `RecvString` refuses larger strings. -/
def MAX_STRING_LEN : ℕ := 0xffff

/-- A decoded request. -/
inductive Request where
  | setProp2 (name value : Bytes)
  /-- The legacy message, strings cut at their last byte. -/
  | setProp (name value : Bytes)
  deriving DecidableEq

/-! ### The decoder -/

open Decoded List Bytes

def readU32 (start : ℕ) (k : ℕ → Bytes → Decoded ℕ Request) : Bytes → Decoded ℕ Request :=
  need start 4 fun word => k (Bytes.toNat word)

/-- The bytes up to a NUL. -/
def cString (bytes : Bytes) : Bytes := bytes.takeWhile (· ≠ 0)

/-- One turn of the loop over the two strings: a length, and that many bytes. -/
def readString (start : ℕ) (k : Bytes → ℕ → Bytes → Decoded ℕ Request) :
    Bytes → Decoded ℕ Request :=
  readU32 start fun len =>
    if MAX_STRING_LEN < len then fun _ => .reject PROP_ERROR_READ_DATA
    else need (start + 4) len fun string => k string (start + 4 + len)

/-- The legacy message: two fields of a fixed size, closed by a NUL. -/
def decodeSetprop (bytes : Bytes) : Decoded ℕ Request :=
  let total := 4 + PROP_NAME_MAX + PROP_VALUE_MAX
  if bytes.length < total then .incomplete
  else
    let name := (bytes.drop 4).take PROP_NAME_MAX
    let value := (bytes.drop (4 + PROP_NAME_MAX)).take PROP_VALUE_MAX
    let name := name.set (PROP_NAME_MAX - 1) 0
    let value := value.set (PROP_VALUE_MAX - 1) 0
    .complete (.setProp (cString name) (cString value)) total

/-- Decodes a request from the bytes received so far on a connection. -/
def decodeRequest : Bytes → Decoded ℕ Request :=
  readU32 0 fun cmd =>
    if cmd = PROP_MSG_SETPROP then decodeSetprop
    else if cmd = PROP_MSG_SETPROP2 then
      readString 4 fun name start => readString start fun value start _ =>
        .complete (.setProp2 name value) start
    else fun _ => .reject PROP_ERROR_INVALID_CMD

/-- What a connection that ends before a full request gets. -/
def truncatedReply (bytes : Bytes) : Option ℕ :=
  match bytes.slice 0 4 with
  | none => some PROP_ERROR_READ_CMD
  | some word =>
    if word.toNat = PROP_MSG_SETPROP2 then some PROP_ERROR_READ_DATA
    else if word.toNat = PROP_MSG_SETPROP then none
    else some PROP_ERROR_INVALID_CMD

/-! ### The encodings of a client -/

def encodeSetprop2 (name value : Bytes) : Bytes :=
  Bytes.ofNat 4 PROP_MSG_SETPROP2 ++ Bytes.ofNat 4 name.length ++ name ++
    Bytes.ofNat 4 value.length ++ value

/-- The legacy message; `none` where a copy would be out of bounds. -/
def encodeSetprop (name value : Bytes) : Option Bytes := do
  let out : Bytes := List.replicate (4 + PROP_NAME_MAX + PROP_VALUE_MAX) 0
  let out ← out.overwrite 0 (Bytes.ofNat 4 PROP_MSG_SETPROP)
  let n := min name.length (PROP_NAME_MAX - 1)
  let out ← out.overwrite 4 (name.take n)
  let v := min value.length (PROP_VALUE_MAX - 1)
  out.overwrite (4 + PROP_NAME_MAX) (value.take v)

/-! ### The connection -/

/-- What comes of a connection. -/
inductive Connection where
  /-- The request goes to init. -/
  | request (r : Request)
  /-- It is closed, after a reply if there is one. -/
  | closed (reply : Option ℕ)
  deriving DecidableEq

/-- Reads one request: until it decodes, the peer closes (an empty chunk) or no time is left. -/
def readRequest : Bytes → List Bytes → Connection
  | bytes, chunks =>
    match decodeRequest bytes with
    | .complete request _ => .request request
    | .reject code => .closed (some code)
    | .incomplete =>
      match chunks with
      | [] => .closed (truncatedReply bytes)
      | [] :: _ => .closed (truncatedReply bytes)
      | chunk :: chunks => readRequest (bytes ++ chunk) chunks
  termination_by structural _ chunks => chunks

/-! ### Decisions are steady -/

variable {start : ℕ} {k : ℕ → Bytes → Decoded ℕ Request}

theorem Steady.readU32 (hk : ∀ n, Steady (start + 4) (k n)) : Steady start (readU32 start k) :=
  .need fun _ => hk _

variable {k : Bytes → ℕ → Bytes → Decoded ℕ Request}

theorem Steady.readString
    (hk : ∀ s next, Steady next (k s next)) : Steady start (readString start k) := by
  refine Steady.readU32 fun len => ?_
  split
  · exact .reject _ _
  · exact .need fun s => hk s _

/-- The legacy message asks for its two fields. -/
theorem decodeSetprop_eq : decodeSetprop = need 4 PROP_NAME_MAX fun name =>
    need (4 + PROP_NAME_MAX) PROP_VALUE_MAX fun value _ =>
      .complete (.setProp (cString (name.set (PROP_NAME_MAX - 1) 0))
        (cString (value.set (PROP_VALUE_MAX - 1) 0))) (4 + PROP_NAME_MAX + PROP_VALUE_MAX) := by
  funext bytes
  unfold decodeSetprop need slice
  by_cases hn : 4 + PROP_NAME_MAX ≤ bytes.length
  · rw [if_pos hn]
    dsimp only
    by_cases hv : 4 + PROP_NAME_MAX + PROP_VALUE_MAX ≤ bytes.length
    · rw [if_pos hv, if_neg (by omega)]
    · rw [if_neg hv, if_pos (by omega)]
  · rw [if_neg hn, if_pos (by omega)]

theorem decodeSetprop_steady : Steady 4 decodeSetprop := by
  rw [decodeSetprop_eq]
  exact .need fun _ => .need fun _ => .complete _ _

/-- **Decisions are steady.** -/
theorem decodeRequest_steady : Steady 0 decodeRequest := by
  refine Steady.readU32 fun cmd => ?_
  split
  · exact decodeSetprop_steady
  · split
    · exact Steady.readString fun name _ => Steady.readString fun value next =>
        .complete next (Request.setProp2 name value)
    · exact .reject _ _

/-! ### Requests are read back -/

section Reads

variable {start : ℕ} {bytes : Bytes} (pre post : Bytes)

theorem readU32_middle {k : ℕ → Bytes → Decoded ℕ Request} {n : ℕ}
    (hb : bytes = pre ++ ofNat 4 n ++ post) (hpre : pre.length = start)
    (hn : n < 256 ^ 4) : readU32 start k bytes = k n bytes := by
  rw [readU32, need_middle hb hpre (length_ofNat 4 n), toNat_ofNat,
    Nat.mod_eq_of_lt hn]

theorem readString_middle {s : Bytes} (hb : bytes = pre ++ ofNat 4 s.length ++ s ++ post)
    (hpre : pre.length = start) (hs : s.length ≤ MAX_STRING_LEN) :
    readString start k bytes = k s (start + 4 + s.length) bytes := by
  have hlen : s.length < 256 ^ 4 := Nat.lt_of_le_of_lt hs (by decide)
  rw [readString, readU32_middle pre (s ++ post) (by rw [hb]; simp) hpre hlen,
    if_neg (by omega), need_middle hb (by simp [hpre]) rfl]

end Reads

/-- A request of the second protocol is read back. -/
theorem decodeRequest_setprop2 {name value : Bytes} (hn : name.length ≤ MAX_STRING_LEN)
    (hv : value.length ≤ MAX_STRING_LEN) :
    decodeRequest (encodeSetprop2 name value) =
      .complete (.setProp2 name value) (encodeSetprop2 name value).length := by
  have hcmd : encodeSetprop2 name value = [] ++ ofNat 4 PROP_MSG_SETPROP2 ++
      (ofNat 4 name.length ++ name ++ ofNat 4 value.length ++ value) := by
    simp [encodeSetprop2]
  have hname : encodeSetprop2 name value = ofNat 4 PROP_MSG_SETPROP2 ++
      ofNat 4 name.length ++ name ++ (ofNat 4 value.length ++ value) := by
    simp [encodeSetprop2]
  have hvalue : encodeSetprop2 name value = ofNat 4 PROP_MSG_SETPROP2 ++
      ofNat 4 name.length ++ name ++ ofNat 4 value.length ++ value ++ [] := by
    simp [encodeSetprop2]
  have hstart : (ofNat 4 PROP_MSG_SETPROP2 ++ ofNat 4 name.length ++ name).length =
      4 + 4 + name.length := by
    simp only [length_append, length_ofNat]
  rw [decodeRequest, readU32_middle _ _ hcmd length_nil (by decide), if_neg (by decide),
    if_pos rfl, readString_middle _ _ hname (length_ofNat 4 _) hn,
    readString_middle _ _ hvalue hstart hv, hname]
  congr 1
  simp only [length_append, length_ofNat]
  omega

/-- A copy into zeros. -/
theorem overwrite_zeros (pre : Bytes) {data : Bytes} {offset m : ℕ} (k : ℕ)
    (hpre : pre.length = offset) (hm : m = data.length + k) :
    overwrite (pre ++ List.replicate m 0) offset data =
      some (pre ++ data ++ List.replicate k 0) := by
  rw [hm, ← replicate_append_replicate, ← append_assoc,
    overwrite_middle hpre length_replicate]

/-- The legacy message: its fields, each filled up with zeros. -/
theorem encodeSetprop_eq {name value : Bytes} (hn : name.length < PROP_NAME_MAX)
    (hv : value.length < PROP_VALUE_MAX) :
    encodeSetprop name value = some (ofNat 4 PROP_MSG_SETPROP ++
      (name ++ List.replicate (PROP_NAME_MAX - name.length) 0) ++
      (value ++ List.replicate (PROP_VALUE_MAX - value.length) 0)) := by
  have hn' : name.take (min name.length (PROP_NAME_MAX - 1)) = name :=
    take_of_length_le (by omega)
  have hv' : value.take (min value.length (PROP_VALUE_MAX - 1)) = value :=
    take_of_length_le (by omega)
  have hcmd : overwrite (List.replicate (4 + PROP_NAME_MAX + PROP_VALUE_MAX) 0) 0
      (ofNat 4 PROP_MSG_SETPROP) = some (ofNat 4 PROP_MSG_SETPROP ++
        List.replicate (PROP_NAME_MAX + PROP_VALUE_MAX) 0) := by
    have hm : 4 + PROP_NAME_MAX + PROP_VALUE_MAX =
        (ofNat 4 PROP_MSG_SETPROP).length + (PROP_NAME_MAX + PROP_VALUE_MAX) := by
      rw [length_ofNat, Nat.add_assoc]
    have h := overwrite_zeros [] _ length_nil hm
    rwa [nil_append] at h
  have hname : overwrite (ofNat 4 PROP_MSG_SETPROP ++
      List.replicate (PROP_NAME_MAX + PROP_VALUE_MAX) 0) 4 name =
        some (ofNat 4 PROP_MSG_SETPROP ++ name ++
          List.replicate (PROP_NAME_MAX - name.length + PROP_VALUE_MAX) 0) :=
    overwrite_zeros _ _ (length_ofNat 4 _) (by omega)
  have hvalue : overwrite (ofNat 4 PROP_MSG_SETPROP ++
      (name ++ List.replicate (PROP_NAME_MAX - name.length) 0) ++ List.replicate PROP_VALUE_MAX 0)
        (4 + PROP_NAME_MAX) value = some (ofNat 4 PROP_MSG_SETPROP ++
          (name ++ List.replicate (PROP_NAME_MAX - name.length) 0) ++ value ++
          List.replicate (PROP_VALUE_MAX - value.length) 0) := by
    refine overwrite_zeros _ _ ?_ (by omega)
    simp only [length_append, length_ofNat, length_replicate]
    omega
  have hsplit : ofNat 4 PROP_MSG_SETPROP ++ name ++
      List.replicate (PROP_NAME_MAX - name.length + PROP_VALUE_MAX) 0 =
        ofNat 4 PROP_MSG_SETPROP ++ (name ++
          List.replicate (PROP_NAME_MAX - name.length) 0) ++ List.replicate PROP_VALUE_MAX 0 := by
    rw [← replicate_append_replicate]
    simp only [append_assoc]
  unfold encodeSetprop
  simp only [hn', hv', hcmd, hname, hsplit, Option.bind_eq_bind, Option.bind_some]
  rw [hvalue, append_assoc (ofNat 4 PROP_MSG_SETPROP ++ _) value]

theorem cString_padded {s : Bytes} {n : ℕ} (h : 0 ∉ s) (hs : s.length < n) :
    cString ((s ++ List.replicate (n - s.length) 0).set (n - 1) 0) = s := by
  have hset : (s ++ List.replicate (n - s.length) 0).set (n - 1) 0 =
      s ++ 0 :: List.replicate (n - s.length - 1) 0 := by
    rw [set_append_right _ _ (by omega), set_replicate_self, ← replicate_succ,
      Nat.sub_add_cancel (by omega)]
  rw [hset, cString, takeWhile_append_of_pos]
  · simp
  · intro b hb
    exact decide_eq_true fun he => h (he ▸ hb)

/-- A legacy request is read back, if its strings fit their fields with a NUL and have none. -/
theorem decodeRequest_setprop {name value : Bytes} (hn : name.length < PROP_NAME_MAX)
    (hv : value.length < PROP_VALUE_MAX) (hn₀ : 0 ∉ name) (hv₀ : 0 ∉ value) :
    ∃ bytes, encodeSetprop name value = some bytes ∧
      decodeRequest bytes = .complete (.setProp name value) bytes.length := by
  have hname : (name ++ List.replicate (PROP_NAME_MAX - name.length) (0 : UInt8)).length =
      PROP_NAME_MAX := by
    simp only [length_append, length_replicate]
    omega
  have hvalue : (value ++ List.replicate (PROP_VALUE_MAX - value.length) (0 : UInt8)).length =
      PROP_VALUE_MAX := by
    simp only [length_append, length_replicate]
    omega
  refine ⟨_, encodeSetprop_eq hn hv, ?_⟩
  have hfront : (ofNat 4 PROP_MSG_SETPROP ++
      (name ++ List.replicate (PROP_NAME_MAX - name.length) 0)).length = 4 + PROP_NAME_MAX := by
    rw [length_append, hname, length_ofNat]
  rw [decodeRequest, readU32_middle [] _ (by rw [nil_append, append_assoc])
      length_nil (by decide), if_pos rfl, decodeSetprop_eq,
    need_middle rfl (length_ofNat 4 _) hname,
    need_middle (append_nil _).symm hfront hvalue, cString_padded hn₀ hn,
    cString_padded hv₀ hv]
  simp only [length_append, length_ofNat] at hname hvalue ⊢
  rw [hname, hvalue]

/-! ### Connections -/

/-- What a connection comes to, given what its bytes decode to. -/
def settle (bytes : Bytes) : Connection :=
  match decodeRequest bytes with
  | .complete request _ => .request request
  | .reject code => .closed (some code)
  | .incomplete => .closed (truncatedReply bytes)

/-- A connection settles what all its bytes are, however they were cut. -/
theorem readRequest_eq (bytes : Bytes) (chunks : List Bytes) (h : [] ∉ chunks) :
    readRequest bytes chunks = settle (bytes ++ chunks.flatten) := by
  induction chunks generalizing bytes with
  | nil =>
    rw [readRequest, flatten_nil, append_nil, settle]
  | cons chunk chunks ih =>
    have hstable := decodeRequest_steady.stable bytes (chunk :: chunks).flatten (Nat.zero_le _)
    cases chunk with
    | nil => exact absurd (.head _) h
    | cons b bs =>
      rw [readRequest, settle]
      cases hd : decodeRequest bytes with
      | complete request n =>
        rw [hd] at hstable
        rw [hstable nofun]
      | reject code =>
        rw [hd] at hstable
        rw [hstable nofun]
      | incomplete =>
        rw [ih _ fun hm => h (.tail _ hm), settle, flatten_cons,
          append_assoc]
      all_goals simp

/-- **The property socket.**  A decision stands whatever follows, and a request is complete with its
last byte and not before.  Every request of the second protocol within the limit is read back, and
every legacy one whose strings have no NUL and fit their fields; and a connection comes to the same
however its bytes were cut. -/
theorem property_socket_decoding :
    (∀ b r request n, decodeRequest b = .complete request n →
      decodeRequest (b ++ r) = .complete request n ∧ n ≤ b.length ∧
      ∀ p, p <+: b.take n → p ≠ b.take n → decodeRequest p = .incomplete) ∧
    (∀ b r code, decodeRequest b = .reject code → decodeRequest (b ++ r) = .reject code) ∧
    (∀ name value : Bytes, name.length ≤ MAX_STRING_LEN → value.length ≤ MAX_STRING_LEN →
      decodeRequest (encodeSetprop2 name value) =
        .complete (.setProp2 name value) (encodeSetprop2 name value).length) ∧
    (∀ name value : Bytes, name.length < PROP_NAME_MAX → value.length < PROP_VALUE_MAX →
      0 ∉ name → 0 ∉ value →
      ∃ bytes, encodeSetprop name value = some bytes ∧
        decodeRequest bytes = .complete (.setProp name value) bytes.length) ∧
    ∀ chunks : List Bytes, [] ∉ chunks →
      feed decodeRequest [] chunks = decodeRequest chunks.flatten ∧
      readRequest [] chunks = settle chunks.flatten := by
  have hs := decodeRequest_steady
  refine ⟨fun b r request n h => ?_, fun b r code h => ?_, fun _ _ => decodeRequest_setprop2,
    fun _ _ => decodeRequest_setprop, fun chunks h => ⟨feed_eq hs [] chunks,
      readRequest_eq [] chunks h⟩⟩
  · obtain ⟨-, hle, hshort⟩ := hs.exact_end b request n (Nat.zero_le _) h
    refine ⟨(hs.stable b r (Nat.zero_le _) (by rw [h]; nofun)).trans h, hle, fun p hp hne => ?_⟩
    have hlt : p.length < n := by
      refine Nat.lt_of_le_of_ne (Nat.le_trans hp.length_le (length_take_le n b)) fun he => ?_
      exact hne (hp.eq_of_length (by rw [he, length_take, Nat.min_eq_left hle]))
    have hp' : p = b.take p.length := prefix_iff_eq_take.1 (hp.trans ( take_prefix n b))
    rw [hp']
    exact hshort p.length (Nat.zero_le _) hlt
  · exact (hs.stable b r (Nat.zero_le _) (by rw [h]; nofun)).trans h

/-- The connection of a client that sends `a` = `b` in two parts. -/
theorem property_socket_decoding_two :
    readRequest [] [(encodeSetprop2 [97] [98]).take 9, (encodeSetprop2 [97] [98]).drop 9] =
      .request (.setProp2 [97] [98]) := by
  decide

/-- A name with a NUL fits the field of the legacy message, but is cut there. -/
theorem setprop_nul_cut :
    (encodeSetprop [97, 0, 98] [99]).map decodeRequest =
      some (.complete (.setProp [97] [99]) 128) := by
  decide +kernel

end Aim.Props.Protocol
