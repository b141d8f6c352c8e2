import Aim.Parcels.Pieces

/-!
# Parcels — Round trips

A parcel is read back by the calls that correspond to its writes, and a span between two of its
values can be spliced into another parcel.

* `Item`, `Call`, `Value`: a write, the reader's call for it and what the call yields.
* `Item.sent`: the piece a write adds, once its file has an fd.
* `installFiles_writeAll`: what is sent is the pieces, one after another.
-/

namespace Bytes

theorem ofNat_add (v w n : ℕ) : ofNat (v + w) n = ofNat v n ++ ofNat w (n / 256 ^ v) := by
  induction v generalizing n with
  | zero => simp [ofNat]
  | succ v ih =>
    rw [Nat.succ_add, ofNat, ofNat, ih, List.cons_append, Nat.div_div_eq_div_mul, Nat.pow_succ,
      Nat.mul_comm 256]

/-- Bytes overwritten by as many others. -/
theorem overwrite_append {a b d c : Bytes} (h : d.length = b.length) :
    overwrite (a ++ (b ++ c)) a.length d = some (a ++ (d ++ c)) := by
  have hfit : a.length + d.length ≤ (a ++ (b ++ c)).length := by
    simp only [List.length_append]
    omega
  rw [overwrite, if_pos hfit, List.take_left, h, List.drop_length_add_append, List.drop_left,
    List.append_assoc]

end Bytes

namespace Parcels

open Codec Parcel Utf8

variable {F : Type}

/-! ### Strings -/

/-- The code units of a string and their NUL. -/
def bytes16 (s : Text) : Bytes := (s.utf16 ++ [0]).flatMap (Bytes.ofNat 2)

def string16 : Option Text → Bytes
  | none => putU32 (-1 : Int32).toUInt32
  | some s => putU32 (Int32.ofNat s.utf16.length).toUInt32 ++ fill (bytes16 s)

def string8 : Option Text → Bytes
  | none => putU32 (-1 : Int32).toUInt32
  | some s =>
    putU32 (Int32.ofNat (Utf8.ofChars s).length).toUInt32 ++ fill (Utf8.ofChars s ++ [0])

theorem length_flatMap_ofNat (us : List ℕ) : (us.flatMap (Bytes.ofNat 2)).length = 2 * us.length := by
  induction us with
  | nil => rfl
  | cons u us ih =>
    rw [List.flatMap_cons, List.length_append, Bytes.length_ofNat, List.length_cons]
    omega

theorem units16_flatMap {us : List ℕ} (h : ∀ u ∈ us, u < 0x10000) :
    units16 (us.flatMap (Bytes.ofNat 2)) = us := by
  induction us with
  | nil => rfl
  | cons u us ih =>
    have hu : Bytes.toNat (Bytes.ofNat 2 u) = u := by
      rw [Bytes.toNat_ofNat]
      exact Nat.mod_eq_of_lt (h u (.head _))
    have hus := ih fun v hv => h v (.tail _ hv)
    exact congrArg₂ List.cons hu hus

theorem not_neg_ofNat {n : ℕ} (hn : n < 2 ^ 31) : ¬ Int32.ofNat n < 0 := by
  rw [Int32.lt_iff_toInt_lt, Int32.toInt_ofNat_of_lt hn]
  exact Int.not_lt.2 (Int.natCast_nonneg n)

theorem Appends.string16 (s : Option Text) :
    Appends (F := F) (·.writeString16 s) { data := string16 s } := by
  cases s with
  | none => exact .i32 (-1)
  | some s => exact (Appends.i32 _).comp (.extend_pad _)

theorem Appends.string8 (s : Option Text) :
    Appends (F := F) (·.writeString8 s) { data := string8 s } := by
  cases s with
  | none => exact .i32 (-1)
  | some s =>
    have h := (Appends.i32 (F := F) (Int32.ofNat (ofChars s).length)).comp
      (.extend_pad (ofChars s ++ [0]))
    refine ⟨h.sound, fun p hp => Eq.trans ?_ (h.eq p hp)⟩
    simp [writeString8, Parcel.extend]

variable {s : Option Text}

theorem Reads.string16 (h : ∀ t ∈ s, t.utf16.length < 2 ^ 31) :
    Reads readString16 s (string16 s) [] := by
  cases s with
  | none =>
    exact (Reads.i32 (-1) []).bind_plain (Reads.pure none)
  | some t =>
    have ht := h t rfl
    refine (Reads.i32 _ []).bind_plain ?_
    have hlen : (bytes16 t).length = t.utf16.length * 2 + 2 := by
      rw [bytes16, length_flatMap_ofNat, List.length_append, List.length_singleton]
      omega
    have htake : (bytes16 t).take (2 * t.utf16.length) = t.utf16.flatMap (Bytes.ofNat 2) := by
      rw [bytes16, List.flatMap_append, List.take_left' (length_flatMap_ofNat _)]
    rw [if_neg (not_neg_ofNat ht), Int32.toNatClampNeg_ofNat_of_lt ht]
    dsimp only
    rw [← hlen, ← List.append_nil (fill (bytes16 t))]
    refine (Reads.take_fill _ []).bind_plain ?_
    rw [htake, units16_flatMap fun u hu => Text.utf16_lt hu, Text.fromUtf16_utf16]
    exact Reads.pure _

theorem Reads.string8 (h : ∀ t ∈ s, (ofChars t).length < 2 ^ 31) :
    Reads readString8 s (string8 s) [] := by
  cases s with
  | none =>
    exact (Reads.i32 (-1) []).bind_plain (Reads.pure none)
  | some t =>
    have ht := h t rfl
    refine (Reads.i32 _ []).bind_plain ?_
    have hlen : (ofChars t ++ [0]).length = (ofChars t).length + 1 := by simp
    rw [if_neg (not_neg_ofNat ht), Int32.toNatClampNeg_ofNat_of_lt ht]
    dsimp only
    rw [← hlen]
    have hread := (Reads.take_fill (ofChars t ++ [0]) []).map fun b =>
      some (chars (b.take (ofChars t).length))
    rwa [List.take_left, chars_ofChars] at hread

/-! ### Objects -/

theorem decode_encode (o : FlatBinderObject) : FlatBinderObject.decode o.encode = o := by
  have h4 : o.encode.drop 4 = putU32 o.flags ++ (putU64 o.binder ++ putU64 o.cookie) :=
    List.drop_left' (length_putU32 _)
  have h8 : o.encode.drop 8 = putU64 o.binder ++ putU64 o.cookie := by
    rw [show 8 = 4 + 4 from rfl, ← List.drop_drop, h4, List.drop_left' (length_putU32 _)]
  have h16 : o.encode.drop 16 = putU64 o.cookie := by
    rw [show 16 = 8 + 8 from rfl, ← List.drop_drop, h8, List.drop_left' (length_putU64 _)]
  have h0 : o.encode.take 4 = putU32 o.kind := List.take_left' (length_putU32 _)
  rw [FlatBinderObject.decode, h0, h4, h8, h16, List.take_left' (length_putU32 _),
    List.take_left' (length_putU64 _), List.take_of_length_le (Nat.le_of_eq (length_putU64 _)),
    ofNat_putU32,    ofNat_putU32, ofNat_putU64, ofNat_putU64]

theorem length_encode (o : FlatBinderObject) : o.encode.length = 24 := by
  simp [FlatBinderObject.encode]

theorem contains_of_among {recorded : List ℕ} {start stop : ℕ} {o : List ℕ}
    (h : among recorded start stop = 0 :: o) : recorded.contains start = true := by
  have h0 : 0 ∈ among recorded start stop := by rw [h]; exact .head _
  obtain ⟨x, hx, hxs⟩ := List.mem_map.1 h0
  rw [List.mem_filter, decide_eq_true_eq] at hx
  rw [List.contains_iff_mem, (by omega : start = x)]
  exact hx.1

/-- The object of a binder. -/
def object : Option Binder → FlatBinderObject
  | some (.handle handle) => ⟨BINDER_TYPE_HANDLE, DEFAULT_SCHED_BITS, handle.toUInt64, 0⟩
  | some (.local ptr) =>
    ⟨BINDER_TYPE_BINDER, DEFAULT_SCHED_BITS ||| FLAT_BINDER_FLAG_ACCEPTS_FDS, ptr, ptr⟩
  | none => ⟨BINDER_TYPE_BINDER, 0, 0, 0⟩

def binderPiece (b : Option Binder) (stability : Int32) : Parcel F where
  data := (object b).encode ++ putU32 (if b.isSome then stability else 0).toUInt32
  objects := if b.isSome then [0] else []

theorem Appends.binder (b : Option Binder) (stability : Int32) :
    Appends (F := F) (·.writeBinderOf b stability) (binderPiece b stability) where
  sound := by
    constructor
    · simp [binderPiece, length_encode]
    · cases b <;> simp [binderPiece, length_encode]
  eq p _ := by
    rcases b with _ | _ | _ <;>
      simp [writeBinderOf, binderPiece, object, Parcel.append, Parcel.extend, writeI32]

/-- What the reader makes of an object and a stability. -/
theorem readBinder_eq (o : FlatBinderObject) (stability : Int32) (pre post : Bytes)
    (recorded : List ℕ) {r : Bool} (hr : recorded.contains pre.length = r) :
    readBinder ⟨pre ++ (o.encode ++ putU32 stability.toUInt32 ++ post), recorded, pre.length⟩ =
      (if o.kind = BINDER_TYPE_BINDER ∧ o.binder = 0 then pure none
        else if o.kind = BINDER_TYPE_BINDER ∧ r then pure (some (.local o.binder))
        else if o.kind = BINDER_TYPE_HANDLE ∧ r then pure (some (.handle o.handle))
        else fail BAD_TYPE : Read (Option Binder))
        ⟨pre ++ (o.encode ++ putU32 stability.toUInt32 ++ post), recorded,
          pre.length + (o.encode ++ putU32 stability.toUInt32).length⟩ := by
  have h₁ := Reads.take_words ⟨6, length_encode o⟩ _ pre (putU32 stability.toUInt32 ++ post)
    recorded rfl
  have h₂ := Reads.i32 stability _ (pre ++ o.encode) post recorded rfl
  simp only [length_encode, List.append_assoc, List.length_append, Nat.add_assoc] at h₁ h₂ ⊢
  rw [readBinder, get_bind, FLAT_BINDER_OBJECT_SIZE, bind_ok h₁, bind_ok h₂, decode_encode, hr]

theorem Reads.binder {b : Option Binder} (h : b ≠ some (.local 0)) (stability : Int32) :
    Reads readBinder b (binderPiece (F := F) b stability).data
      (binderPiece (F := F) b stability).objects := by
  intro pre post recorded hrec
  rcases b with _ | handle | ptr
  · exact (readBinder_eq _ _ pre post recorded rfl).trans (by rfl)
  · refine (readBinder_eq _ _ pre post recorded (contains_of_among hrec)).trans ?_
    have hkind : (object (some (.handle handle))).kind ≠ BINDER_TYPE_BINDER := by
      change BINDER_TYPE_HANDLE ≠ BINDER_TYPE_BINDER
      decide
    have hhandle : (object (some (.handle handle))).handle = handle :=
      UInt32.toUInt32_toUInt64 handle
    rw [if_neg fun c => hkind c.1, if_neg fun c => hkind c.1, hhandle]
    rfl
  · refine (readBinder_eq _ _ pre post recorded (contains_of_among hrec)).trans ?_
    have hptr : (object (some (.local ptr))).binder ≠ 0 := fun h0 => h (by rw [← h0]; rfl)
    rw [if_neg fun c => hptr c.2]
    rfl

def filePiece (file : F) (fd : UInt32) : Parcel F where
  data := FlatBinderObject.encode ⟨BINDER_TYPE_FD, 0, fd.toUInt64, 0⟩
  objects := [0]
  files := [(0, file)]

theorem Appends.file (file : F) : Appends (·.writeFile file) (filePiece file 0) where
  sound := by
    constructor
    · exact ⟨6, length_encode _⟩
    · simp [filePiece, length_encode]
  eq p _ := by simp [writeFile, filePiece, Parcel.append]

theorem Reads.file (file : F) (fd : UInt32) : Reads readFd fd (filePiece file fd).data [0] := by
  intro pre post recorded hrec
  have hobject := length_encode ⟨BINDER_TYPE_FD, 0, fd.toUInt64, 0⟩
  have h₁ := Reads.take_words ⟨6, hobject⟩ _ pre post recorded rfl
  rw [hobject] at h₁
  rw [readFd, get_bind, FLAT_BINDER_OBJECT_SIZE, filePiece, bind_ok h₁, decode_encode,
    contains_of_among hrec, UInt32.toUInt32_toUInt64]
  rfl

/-! ### Tokens and raw spans -/

def token (descriptor : Text) : Bytes :=
  putU32 STRICT_MODE_PENALTY_GATHER.toUInt32 ++ (putU32 UNSET_WORK_SOURCE.toUInt32 ++
    (putU32 HEADER.toUInt32 ++ string16 (some descriptor)))

theorem Appends.token (descriptor : Text) :
    Appends (F := F) (·.writeInterfaceToken descriptor) { data := token descriptor } := by
  have h := (((Appends.i32 (F := F) STRICT_MODE_PENALTY_GATHER).comp (.i32 UNSET_WORK_SOURCE)).comp
    (.i32 HEADER)).comp (.string16 (some descriptor))
  rw [append_assoc, append_assoc] at h
  exact h

theorem Reads.token {descriptor : Text} (h : descriptor.utf16.length < 2 ^ 31) :
    Reads (enforceInterface descriptor) () (token descriptor) [] := by
  refine (Reads.i32 _ []).bind_plain ((Reads.i32 _ []).bind_plain ((Reads.i32 _ []).bind_plain ?_))
  rw [if_neg (by simp), ← List.append_nil (Parcels.string16 _)]
  have hs : ∀ t ∈ some descriptor, t.utf16.length < 2 ^ 31 := by
    rintro t ⟨⟩
    exact h
  refine (Reads.string16 hs).bind_plain ?_
  rw [if_pos rfl]
  exact Reads.pure ()

/-- A raw span of `len` bytes: its bytes and the objects among them. -/
def readRaw (len : ℕ) : Read (Bytes × List ℕ) := do
  let r ← get
  skip len
  let (bytes, objects) ← since r.pos
  pure (bytes.take len, objects)

/-- What is read since `pre`. -/
theorem since_ok (pre bytes post : Bytes) (recorded : List ℕ) :
    since pre.length ⟨pre ++ (bytes ++ post), recorded, pre.length + bytes.length⟩ =
      .ok ((bytes, among recorded pre.length (pre.length + bytes.length)),
        ⟨pre ++ (bytes ++ post), recorded, pre.length + bytes.length⟩) := by
  have hin : ¬ (pre.length + bytes.length < pre.length ∨
      (pre ++ (bytes ++ post)).length < pre.length + bytes.length) := by
    simp only [List.length_append]
    omega
  have hspan : ((pre ++ (bytes ++ post)).take (pre.length + bytes.length)).drop pre.length =
      bytes := by
    rw [← List.append_assoc, List.take_left' List.length_append, List.drop_left]
  rw [since, get_bind, if_neg hin]
  dsimp only
  rw [hspan]
  rfl

theorem Reads.raw (b : Bytes) (o : List ℕ) : Reads (readRaw b.length) (b, o) (fill b) o := by
  intro pre post recorded hrec
  have hskip : skip b.length ⟨pre ++ (fill b ++ post), recorded, pre.length⟩ =
      .ok ((), ⟨pre ++ (fill b ++ post), recorded, pre.length + (fill b).length⟩) :=
    bind_ok (Reads.take_fill b o pre post recorded hrec)
  have htake : (fill b).take b.length = b := List.take_left
  rw [readRaw, get_bind, bind_ok hskip, bind_ok (since_ok pre (fill b) post recorded), hrec]
  dsimp only
  rw [htake]
  rfl

/-! ### Items -/

/-- One write. -/
inductive Item (F : Type) where
  | i32 (v : Int32)
  | u32 (v : UInt32)
  | i64 (v : Int64)
  | bool (v : Bool)
  | string16 (s : Option Text)
  | string8 (s : Option Text)
  | binder (b : Option Binder)
  | vintfBinder (b : Binder)
  /-- A file, and the fd its process gives it for the send. -/
  | file (file : F) (fd : UInt32)
  | interfaceToken (descriptor : Text)
  | raw (bytes : Bytes) (objects : List ℕ)

/-- A reader's call. -/
inductive Call where
  | i32
  | u32
  | i64
  | bool
  | string16
  | string8
  | binder
  | fd
  | interfaceToken (descriptor : Text)
  | raw (len : ℕ)

/-- What a call yields. -/
inductive Value where
  | i32 (v : Int32)
  | u32 (v : UInt32)
  | i64 (v : Int64)
  | bool (v : Bool)
  | string (s : Option Text)
  | binder (b : Option Binder)
  | fd (fd : UInt32)
  | unit
  | raw (bytes : Bytes) (objects : List ℕ)
  deriving DecidableEq

def Call.read : Call → Read Value
  | i32 => do let v ← readI32; pure (.i32 v)
  | u32 => do let v ← readU32; pure (.u32 v)
  | i64 => do let v ← readI64; pure (.i64 v)
  | bool => do let v ← readBool; pure (.bool v)
  | string16 => do let v ← readString16; pure (.string v)
  | string8 => do let v ← readString8; pure (.string v)
  | binder => do let v ← readBinder; pure (.binder v)
  | fd => do let v ← readFd; pure (.fd v)
  | interfaceToken descriptor => do let _ ← enforceInterface descriptor; pure .unit
  | raw len => do let v ← readRaw len; pure (.raw v.1 v.2)

/-- The calls, one after another. -/
def readAll (calls : List Call) : Read (List Value) := calls.mapM Call.read

namespace Item

def write (p : Parcel F) : Item F → Parcel F
  | i32 v => p.writeI32 v
  | u32 v => p.writeU32 v
  | i64 v => p.writeI64 v
  | bool v => p.writeBool v
  | string16 s => p.writeString16 s
  | string8 s => p.writeString8 s
  | binder b => p.writeBinder b
  | vintfBinder b => p.writeVintfBinder b
  | file f _ => p.writeFile f
  | interfaceToken descriptor => p.writeInterfaceToken descriptor
  | raw bytes objects => p.writeRaw bytes objects

/-- The writes, one after another. -/
def writeAll (xs : List (Item F)) (p : Parcel F) : Parcel F := xs.foldl write p

/-- The reader's call for a write. -/
def call : Item F → Call
  | i32 _ => .i32
  | u32 _ => .u32
  | i64 _ => .i64
  | bool _ => .bool
  | string16 _ => .string16
  | string8 _ => .string8
  | binder _ => .binder
  | vintfBinder _ => .binder
  | file _ _ => .fd
  | interfaceToken descriptor => .interfaceToken descriptor
  | raw bytes _ => .raw bytes.length

/-- The value written. -/
def value : Item F → Value
  | i32 v => .i32 v
  | u32 v => .u32 v
  | i64 v => .i64 v
  | bool v => .bool v
  | string16 s => .string s
  | string8 s => .string s
  | binder b => .binder b
  | vintfBinder b => .binder (some b)
  | file _ fd => .fd fd
  | interfaceToken _ => .unit
  | raw bytes objects => .raw bytes objects

/-- The fd of a file. -/
def fd? : Item F → Option UInt32
  | file _ fd => some fd
  | _ => none

/-- Texts have a length that fits an `i32`, no binder is at address 0 and the objects of a raw span
are in it. -/
def Fits : Item F → Prop
  | string16 s => ∀ t ∈ s, t.utf16.length < 2 ^ 31
  | string8 s => ∀ t ∈ s, (Utf8.ofChars t).length < 2 ^ 31
  | binder b => b ≠ some (.local 0)
  | vintfBinder b => b ≠ .local 0
  | interfaceToken descriptor => descriptor.utf16.length < 2 ^ 31
  | raw bytes objects => ∀ o ∈ objects, o < bytes.length
  | _ => True

/-- The piece a write adds, with the fd of its file. -/
def sent : Item F → Parcel F
  | file f fd => filePiece f fd
  | x => x.write {}

/-- The pieces, one after another. -/
def sentAll : List (Item F) → Parcel F
  | [] => {}
  | x :: xs => x.sent.append (sentAll xs)

/-- The write of a file that has no fd yet. -/
def unsent : Item F → Item F
  | file f _ => file f 0
  | x => x

theorem write_empty {f : Parcel F → Parcel F} {q : Parcel F} (h : Appends f q) : f {} = q :=
  (h.eq {} ⟨0, rfl⟩).trans (empty_append q)

variable {x : Item F}

/-- A write adds its piece. -/
theorem appends (h : x.Fits) : Appends (write · x) x.unsent.sent := by
  have key : ∀ {f : Parcel F → Parcel F} {q : Parcel F}, Appends f q → Appends f (f {}) := by
    intro f q hf
    rw [write_empty hf]
    exact hf
  cases x with
  | i32 v => exact key (.i32 v)
  | u32 v => exact key (.extend ⟨1, length_putU32 v⟩)
  | i64 v => exact key (.extend ⟨2, length_putU64 _⟩)
  | bool v => exact key (.i32 _)
  | string16 s => exact key (.string16 s)
  | string8 s => exact key (.string8 s)
  | binder b => exact key (.binder b _)
  | vintfBinder b => exact key (.binder (some b) _)
  | file f fd => exact .file f
  | interfaceToken d => exact key (.token d)
  | raw b o => exact key (.raw h)

/-- A call reads its piece. -/
theorem reads (h : x.Fits) : Reads x.call.read x.value x.sent.data x.sent.objects := by
  have key : ∀ {α : Type} {m : Read α} {a : α} {f : Parcel F → Parcel F} {q : Parcel F} (g : α → Value),
      Appends f q → Reads m a q.data q.objects →
      Reads (do let v ← m; pure (g v)) (g a) (f {}).data (f {}).objects := by
    intro α m a f q g hf hm
    rw [write_empty hf]
    exact hm.map g
  cases x with
  | i32 v => exact key _ (.i32 v) (.i32 v [])
  | u32 v => exact key _ (.extend ⟨1, length_putU32 v⟩) (.u32 v [])
  | i64 v => exact key _ (.extend ⟨2, length_putU64 _⟩) (.i64 v [])
  | bool v =>
    have hv := (Reads.i32 (if v then 1 else 0) []).map fun n => (n ≠ 0 : Bool)
    cases v <;> exact key _ (.i32 _) hv
  | string16 s => exact key _ (.string16 s) (.string16 h)
  | string8 s => exact key _ (.string8 s) (.string8 h)
  | binder b => exact key _ (.binder b _) (.binder h _)
  | vintfBinder b =>
    have hb : some b ≠ some (.local 0) := fun c => h (Option.some.inj c)
    exact key _ (.binder (some b) _) (.binder hb _)
  | file f fd => exact (Reads.file f fd).map _
  | interfaceToken d => exact key (fun _ => .unit) (.token d) (.token h)
  | raw b o => exact key (fun v => .raw v.1 v.2) (.raw h) (.raw b o)

/-- The fd of a file changes no length and no object. -/
theorem sent_unsent (x : Item F) : x.sent.data.length = x.unsent.sent.data.length ∧
    x.sent.objects = x.unsent.sent.objects ∧ x.sent.files = x.unsent.sent.files := by
  cases x with
  | file f fd => exact ⟨(length_encode _).trans (length_encode _).symm, rfl, rfl⟩
  | _ => exact ⟨rfl, rfl, rfl⟩

theorem sound_sent (h : x.Fits) : x.sent.Sound := by
  obtain ⟨hlen, hobj, -⟩ := x.sent_unsent
  obtain ⟨⟨haligned, hinside⟩, -⟩ := appends h
  exact ⟨by rwa [hlen], by rwa [hlen, hobj]⟩

/-! ### Sequences -/

variable {xs ys : List (Item F)}

theorem sentAll_append (xs ys : List (Item F)) :
    sentAll (xs ++ ys) = (sentAll xs).append (sentAll ys) := by
  induction xs with
  | nil => exact (empty_append _).symm
  | cons x xs ih =>
    rw [List.cons_append, sentAll, sentAll, ih, append_assoc]

theorem sentAll_unsent (xs : List (Item F)) :
    (sentAll xs).data.length = (sentAll (xs.map unsent)).data.length ∧
      (sentAll xs).objects = (sentAll (xs.map unsent)).objects := by
  induction xs with
  | nil => exact ⟨rfl, rfl⟩
  | cons x xs ih =>
    obtain ⟨hlen, hobj, -⟩ := x.sent_unsent
    constructor
    · simp only [List.map_cons, sentAll, append_data, List.length_append, hlen, ih.1]
    · simp only [List.map_cons, sentAll, Parcel.append, hlen, hobj, ih.2]

theorem sound_sentAll (h : ∀ x ∈ xs, x.Fits) : (sentAll xs).Sound := by
  induction xs with
  | nil => exact sound_empty
  | cons x xs ih =>
    exact (sound_sent (h x (.head _))).append
      (ih fun y hy => h y (.tail _ hy))

theorem appends_all (h : ∀ x ∈ xs, x.Fits) : Appends (writeAll xs) (sentAll (xs.map unsent)) := by
  induction xs with
  | nil => exact ⟨sound_empty, fun p _ => (append_empty p).symm⟩
  | cons x xs ih =>
    exact (appends (h x (.head _))).comp
      (ih fun y hy => h y (.tail _ hy))

theorem reads_all (h : ∀ x ∈ xs, x.Fits) :
    Reads (readAll (xs.map call)) (xs.map value) (sentAll xs).data (sentAll xs).objects := by
  induction xs with
  | nil => exact Reads.pure []
  | cons x xs ih =>
    have hx := h x (.head _)
    have hxs := ih fun y hy => h y (.tail _ hy)
    rw [readAll, List.map_cons, List.mapM_cons]
    exact Reads.bind (sound_sent hx).inside (reads hx) (hxs.map _)

theorem sent_of_fd?_eq_none (hx : x.fd? = none) : x.unsent = x ∧ x.unsent.sent.files = [] := by
  cases x with
  | file f fd => cases hx
  | string16 s => cases s <;> exact ⟨rfl, rfl⟩
  | string8 s => cases s <;> exact ⟨rfl, rfl⟩
  | binder b => cases b <;> exact ⟨rfl, rfl⟩
  | _ => exact ⟨rfl, rfl⟩

/-- The fd goes to the place of the object's handle. -/
theorem installFile_filePiece (pre post : Bytes) (f : F) (fd : UInt32) :
    installFile (pre ++ ((filePiece f 0).data ++ post)) ((pre.length + 0, f), fd) =
      some (pre ++ ((filePiece f fd).data ++ post)) := by
  have hdata : ∀ n : UInt32, (filePiece f n).data =
      putU32 BINDER_TYPE_FD ++ (putU32 0 ++ (putU32 n ++ (putU32 0 ++ putU64 0))) := by
    intro n
    have hn : n.toNat / 256 ^ 4 = 0 := Nat.div_eq_of_lt n.toNat_lt
    have hfd : putU64 n.toUInt64 = putU32 n ++ putU32 0 := by
      rw [putU64, putU32, UInt32.toNat_toUInt64, Bytes.ofNat_add 4 4, hn]
      rfl
    rw [filePiece, FlatBinderObject.encode, hfd, List.append_assoc]
  have h := Bytes.overwrite_append (a := pre ++ (putU32 BINDER_TYPE_FD ++ putU32 0))
    (b := putU32 0) (c := putU32 0 ++ (putU64 0 ++ post)) (d := putU32 fd) rfl
  have hlen : (pre ++ (putU32 BINDER_TYPE_FD ++ putU32 0)).length = pre.length + 0 + 8 := by simp
  rw [hlen] at h
  rw [hdata, hdata, installFile]
  simpa using h

/-- Each file's fd goes to its object, whatever is around. -/
theorem install_all (xs : List (Item F)) (pre post : Bytes) :
    (((sentAll (xs.map unsent)).files.map fun f => (pre.length + f.1, f.2)).zip
        (xs.filterMap fd?)).foldlM installFile
      (pre ++ ((sentAll (xs.map unsent)).data ++ post)) =
        some (pre ++ ((sentAll xs).data ++ post)) := by
  induction xs generalizing pre with
  | nil => rfl
  | cons x xs ih =>
    have hrest := ih (pre ++ x.sent.data)
    rw [List.length_append, (sent_unsent x).1] at hrest
    cases hfd : x.fd? with
    | none =>
      obtain ⟨hx, hfiles⟩ := sent_of_fd?_eq_none hfd
      rw [hx] at hfiles hrest
      simpa [sentAll, Parcel.append, hfiles, hx, hfd, Function.comp_def, Nat.add_assoc] using hrest
    | some fd =>
      obtain ⟨f, rfl⟩ : ∃ f, x = file f fd := by
        cases x <;> cases hfd
        exact ⟨_, rfl⟩
      have hstep := installFile_filePiece pre ((sentAll (xs.map unsent)).data ++ post) f fd
      have hfiles : (filePiece f 0).files = [(0, f)] := rfl
      simp only [List.map_cons, unsent, sentAll, Parcel.append, sent, hfiles,
        List.filterMap_cons, fd?, List.map_map, List.cons_append, List.nil_append,
        List.zip_cons_cons, List.foldlM_cons, List.append_assoc, Function.comp_def,
          Nat.add_assoc] at hstep hrest ⊢
      rw [hstep]
      exact hrest

/-- What is sent is the pieces with their fds. -/
theorem installFiles_writeAll (h : ∀ x ∈ xs, x.Fits) :
    (writeAll xs {}).installFiles (xs.filterMap fd?) = some (sentAll xs).data := by
  have hinstall := install_all xs [] []
  simp only [List.length_nil, Nat.zero_add, List.map_id', List.nil_append, List.append_nil]
    at hinstall
  rw [write_empty (appends_all h), installFiles]
  exact hinstall

theorem writeAll_objects (h : ∀ x ∈ xs, x.Fits) :
    (writeAll xs {}).objects = (sentAll xs).objects := by
  rw [write_empty (appends_all h), (sentAll_unsent xs).2]

end Item

open Item

/-- **Round trip.**  A parcel is read back, to its end, by the calls for its writes; and a span
between two of its values reads back from any parcel it is written to, its objects shifted. -/
theorem parcel_round_trip (xs : List (Item F)) (h : ∀ x ∈ xs, x.Fits) :
    ∃ data, (writeAll xs {}).installFiles (xs.filterMap fd?) = some data ∧
      readAll (xs.map call) ⟨data, (writeAll xs {}).objects, 0⟩ =
        .ok (xs.map value, ⟨data, (writeAll xs {}).objects, data.length⟩) ∧
      ((∀ x ∈ xs, x.unsent = x) → data = (writeAll xs {}).data) ∧
      ∀ a b c, xs = a ++ (b ++ c) → ∃ start stop bytes objects,
        readAll (a.map call) ⟨data, (writeAll xs {}).objects, 0⟩ =
          .ok (a.map value, ⟨data, (writeAll xs {}).objects, start⟩) ∧
        readAll (b.map call) ⟨data, (writeAll xs {}).objects, start⟩ =
          .ok (b.map value, ⟨data, (writeAll xs {}).objects, stop⟩) ∧
        since start ⟨data, (writeAll xs {}).objects, stop⟩ =
          .ok ((bytes, objects), ⟨data, (writeAll xs {}).objects, stop⟩) ∧
        ∀ {G : Type} (q : Parcel G), q.Sound →
          (q.writeRaw bytes objects).objects =
            q.objects ++ (writeAll b {}).objects.map (q.data.length + ·) ∧
          readAll (b.map call)
              ⟨(q.writeRaw bytes objects).data, (q.writeRaw bytes objects).objects,
                q.data.length⟩ =
            .ok (b.map value, ⟨(q.writeRaw bytes objects).data, (q.writeRaw bytes objects).objects,
              (q.writeRaw bytes objects).data.length⟩) := by
  refine ⟨(sentAll xs).data, installFiles_writeAll h, ?_, ?_, ?_⟩
  · have hread := reads_all h [] [] _ (among_self (sound_sentAll h).inside)
    rw [writeAll_objects h]
    simpa using hread
  · intro hxs
    rw [write_empty (appends_all h), List.map_congr_left hxs, List.map_id']
  · rintro a b c rfl
    have ha : ∀ x ∈ a, x.Fits := fun x hx => h x (List.mem_append_left _ hx)
    have hb : ∀ x ∈ b, x.Fits := fun x hx =>
      h x (List.mem_append_right _ (List.mem_append_left _ hx))
    have hc : ∀ x ∈ c, x.Fits := fun x hx =>
      h x (List.mem_append_right _ (List.mem_append_right _ hx))
    have hA := sound_sentAll ha
    have hB := sound_sentAll hb
    have hBC := hB.append (sound_sentAll hc)
    rw [writeAll_objects h, sentAll_append, sentAll_append]
    have hfirst := among_append_left hA hBC
    have hspan := among_append_mid hA hB (sound_sentAll hc)
    refine ⟨(sentAll a).data.length, (sentAll a).data.length + (sentAll b).data.length,
      (sentAll b).data, (sentAll b).objects, ?_, ?_, ?_, ?_⟩
    · simpa using reads_all ha [] _ _ hfirst
    · exact reads_all hb _ _ _ hspan
    · have hsince := since_ok (sentAll a).data (sentAll b).data (sentAll c).data
        ((sentAll a).append ((sentAll b).append (sentAll c))).objects
      rwa [hspan] at hsince
    · intro G q hq
      have hraw := Appends.raw (F := G) hB.inside
      rw [fill_of_dvd hB.aligned] at hraw
      rw [hraw.eq q hq.aligned, writeAll_objects hb]
      refine ⟨rfl, ?_⟩
      have hread := reads_all hb q.data [] _ (among_append_right hq hraw.sound)
      rwa [List.append_nil, ← List.length_append] at hread

/-- A text, a binder, a file and a span with a binder in it. -/
theorem parcel_round_trip_mixed :
    ∃ data, (writeAll [.string16 (some ['a']), .binder (some (.handle 3)), .file () 5,
        .raw (List.replicate 28 0) [0]] {}).installFiles [5] = some data ∧
      readAll [.string16, .binder, .fd, .raw 28] ⟨data, [8, 36, 60], 0⟩ =
        .ok ([.string (some ['a']), .binder (some (.handle 3)), .fd 5,
          .raw (List.replicate 28 0) [0]], ⟨data, [8, 36, 60], data.length⟩) := by
  have hfits : ∀ x ∈ [Item.string16 (some ['a']), .binder (some (.handle 3)), .file () 5,
      .raw (List.replicate 28 0) [0]], x.Fits := by
    intro x hx
    simp only [List.mem_cons, List.not_mem_nil, or_false] at hx
    rcases hx with rfl | rfl | rfl | rfl
    · rintro t ⟨⟩
      decide
    · exact nofun
    · trivial
    · simp [Fits]
  obtain ⟨data, hdata, hread, -⟩ := parcel_round_trip _ hfits
  exact ⟨data, hdata, hread⟩

/-- A binder at address 0 is read as null. -/
theorem local_zero_reads_null :
    (Item.binder (some (.local 0)) : Item Unit).value = .binder (some (.local 0)) ∧
      ∃ r, readAll [.binder] ⟨(writeAll [.binder (some (.local 0))] ({} : Parcel Unit)).data,
        (writeAll [.binder (some (.local 0))] ({} : Parcel Unit)).objects, 0⟩ =
          .ok ([.binder none], r) :=
  ⟨rfl, _, rfl⟩

end Parcels
