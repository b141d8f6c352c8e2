import Aim.Support.Fixups
import Aim.Binder.Copy

/-!
# Binder — Scatter-gather buffers

What a transaction that `copy_transaction` accepted looks like in its target's buffer.  The objects
are those the sender's offsets array names (`sentAt`); the payload of each pointer object has its
place behind the offsets (`payloadStart`), and pointer objects and fd arrays patch the payload of
the object they name as their parent.

`Scattered` is the layout: objects and payloads in order, every patch inside its payload, and no two
patches overlapping.  `validate_fixup` looks only at the buffer patched last and those above it;
that this is enough is `Aim.Support.Fixups`, whose climbing is its loop (`validateFixup_returns`).

`Copied` is what the copy keeps, object by object: the layout so far, every payload as it was read
from the sender but for its patches, and every pointer, in the object and in its parent, with the
address of its payload.
-/

namespace Aim.Binder

open State List Bytes Nat
open Prog (Returns)

variable {G ε : Type}

/-! ### What the sender answers -/

/-- The bytes read from the sender; nothing is asked for none. -/
def Fetches [GuestProcess G] (g : G) (address len : ℕ) (bytes : Bytes) (g' : G) : Prop :=
  (len = 0 ∧ bytes = [] ∧ g' = g) ∨
  (len ≠ 0 ∧ ∃ h, GuestProcess.copyFromUser g address len = (.ok ⟨bytes, h⟩, g'))

theorem Fetches.length [GuestProcess G] {g g' : G} {address len : ℕ} {bytes : Bytes}
    (h : Fetches g address len bytes g') : bytes.length = len := by
  rcases h with ⟨rfl, rfl, -⟩ | ⟨-, h, -⟩
  · rfl
  · exact h

/-- The sender after questions for its memory and its files. -/
inductive Asked [GuestProcess G] (g : G) : G → Prop
  | refl : Asked g g
  | copyFromUser {g' : G} (h : Asked g g') (address len : ℕ) :
      Asked g (GuestProcess.copyFromUser g' address len).2
  | getFile {g' : G} (h : Asked g g') (fd : ℕ) : Asked g (GuestProcess.getFile g' fd).2

/-- Since `g` the sender was asked for its memory and its files only. -/
def Answered [GuestProcess G] (g : G) (m : Machine G) : Prop := Asked g m.guest

theorem ask_eq_ok {α : Type} {m m' : Machine G} {f : G → Except Errno α × G} {a : α}
    (h : ask f m = .ok a m') : f m.guest = (.ok a, m'.guest) ∧ m'.st = m.st := by
  unfold ask at h
  split at h
  · next he => cases h; exact ⟨he, rfl⟩
  · cases h

section Answers

variable [GuestProcess G] {g : G}

theorem onState_returns {α : Type} (x : Op ε α) :
    Returns (Answered g) (onState x : Run G ε α) fun _ => True := by
  intro m a m' hm h
  refine ⟨?_, trivial⟩
  rw [Answered, (onState_eq_ok h).2]
  exact hm

theorem senderFile_returns (fd : UInt32) :
    Returns (Answered g) (senderFile fd : Run G Failure File) fun _ => True := by
  refine .mapErr fun m a m' hm h => ⟨?_, trivial⟩
  have hfile := Asked.getFile hm fd.toNat
  rwa [(ask_eq_ok h).1] at hfile

end Answers

/-! ### The objects as they were sent -/

inductive SentObject where
  /-- A binder or a handle. -/
  | flat
  | fd
  | array (a : FdArrayObject)
  | buffer (b : BufferObject)

/-- An object of the data area. -/
structure Sent where
  offset : ℕ
  size : ℕ
  object : SentObject

def sentObject (kind : UInt32) (bytes : Bytes) : Option SentObject :=
  if kind = BINDER_TYPE_PTR then (BufferObject.decode bytes).map .buffer
  else if kind = BINDER_TYPE_FDA then (FdArrayObject.decode bytes).map .array
  else if kind = BINDER_TYPE_FD then some .fd
  else some .flat

/-- The object that an entry of the offsets array names. -/
def sentAt (data offsets : Bytes) (index : ℕ) : Option Sent := do
  let offset ← u64At offsets (index * 8)
  let kind ← u32At data offset
  let size ← objectSize kind
  let bytes ← Bytes.slice data offset size
  let object ← sentObject kind bytes
  return ⟨offset, size, object⟩

/-- What an object patches: the object whose payload it is, the offset there, and how much. -/
def SentObject.patch : SentObject → Option (ℕ × ℕ × ℕ)
  | .buffer b =>
    if b.flags &&& BINDER_BUFFER_FLAG_HAS_PARENT = 0 then none
    else some (b.parent, b.parentOffset, 8)
  | .array a => some (a.parent, a.parentOffset, a.numFds * 4)
  | .flat | .fd => none

/-- The room an object's payload takes. -/
def SentObject.room : SentObject → ℕ
  | .buffer b => (b.length + 7) / 8 * 8
  | .flat | .fd | .array _ => 0

/-- Where the payload of an object starts. -/
def payloadStart (data offsets : Bytes) (sgStart : ℕ) : ℕ → ℕ
  | 0 => sgStart
  | i + 1 => payloadStart data offsets sgStart i +
      ((sentAt data offsets i).map fun o => o.object.room).getD 0

/-- The fd words an object leaves to the receiver. -/
def fdSlots (data offsets : Bytes) (sgStart i : ℕ) : List ℕ :=
  match sentAt data offsets i with
  | some ⟨offset, _, .fd⟩ => [offset + 8]
  | some ⟨_, _, .array a⟩ => (List.range a.numFds).map fun k =>
    payloadStart data offsets sgStart a.parent + a.parentOffset + k * 4
  | _ => []

/-- **The layout.**  The first `count` objects and their payloads, the objects below `dataEnd` and
the payloads from `sgStart` to `sgEnd`. -/
structure Scattered (data offsets : Bytes) (count dataEnd sgStart sgEnd : ℕ) : Prop where
  sent : ∀ i < count, ∃ o, sentAt data offsets i = some o
  objects : ∀ i < count, ∀ o, sentAt data offsets i = some o → o.offset + o.size ≤ dataEnd
  objectsApart : ∀ i j o o', i < j → j < count → sentAt data offsets i = some o →
    sentAt data offsets j = some o' → o.offset + o.size ≤ o'.offset
  payloads : ∀ i < count, ∀ o b, sentAt data offsets i = some o → o.object = .buffer b →
    8 ∣ payloadStart data offsets sgStart i ∧ sgStart ≤ payloadStart data offsets sgStart i ∧
      payloadStart data offsets sgStart i + b.length ≤ sgEnd
  payloadsApart : ∀ i j o b, i < j → j < count → sentAt data offsets i = some o →
    o.object = .buffer b →
    payloadStart data offsets sgStart i + b.length ≤ payloadStart data offsets sgStart j
  patches : ∀ i < count, ∀ o p offset width, sentAt data offsets i = some o →
    o.object.patch = some (p, offset, width) →
    p < i ∧ ∃ o' b, sentAt data offsets p = some o' ∧ o'.object = .buffer b ∧
      offset + width ≤ b.length
  patchesApart : ∀ i j o o' p p' offset offset' width width', i ≠ j → i < count → j < count →
    sentAt data offsets i = some o → sentAt data offsets j = some o' →
    o.object.patch = some (p, offset, width) → o'.object.patch = some (p', offset', width') →
    payloadStart data offsets sgStart p + offset + width ≤
        payloadStart data offsets sgStart p' + offset' ∨
      payloadStart data offsets sgStart p' + offset' + width' ≤
        payloadStart data offsets sgStart p + offset

/-- No object patches a part of the payload of the object `i`. -/
def Unpatched (data offsets : Bytes) (count i k len : ℕ) : Prop :=
  ∀ j < count, ∀ o offset width, sentAt data offsets j = some o →
    o.object.patch = some (i, offset, width) → k + len ≤ offset ∨ offset + width ≤ k

section Layout

variable {data offsets : Bytes} {sgStart : ℕ} {i : ℕ} {o : Sent}

theorem payloadStart_succ (sgStart : ℕ) (h : sentAt data offsets i = some o) :
    payloadStart data offsets sgStart (i + 1) =
      payloadStart data offsets sgStart i + o.object.room := by
  rw [payloadStart, h]
  rfl

theorem payloadStart_mono {j : ℕ} (h : i ≤ j) :
    payloadStart data offsets sgStart i ≤ payloadStart data offsets sgStart j := by
  induction h with
  | refl => exact le_rfl
  | step _ ih => exact ih.trans (le_add_right _ _)

theorem le_payloadStart (data offsets : Bytes) (sgStart i : ℕ) :
    sgStart ≤ payloadStart data offsets sgStart i := payloadStart_mono (zero_le i)

theorem dvd_payloadStart (data offsets : Bytes) (hs : 8 ∣ sgStart) (i : ℕ) :
    8 ∣ payloadStart data offsets sgStart i := by
  induction i with
  | zero => exact hs
  | succ i ih =>
    refine Nat.dvd_add ih ?_
    cases sentAt data offsets i with
    | none => exact Nat.dvd_zero _
    | some o =>
      cases ho : o.object <;> simp [ho, SentObject.room, dvd_mul_left]

variable {b : BufferObject}

theorem le_room : b.length ≤ (SentObject.buffer b).room := by
  simp only [SentObject.room]
  omega

/-- A payload ends where the next one starts. -/
theorem payload_le (sgStart : ℕ) {j : ℕ} (h : sentAt data offsets i = some o)
    (hb : o.object = .buffer b) (hij : i < j) :
    payloadStart data offsets sgStart i + b.length ≤ payloadStart data offsets sgStart j := by
  have hle : payloadStart data offsets sgStart (i + 1) ≤ payloadStart data offsets sgStart j :=
    payloadStart_mono hij
  rw [payloadStart_succ sgStart h, hb] at hle
  have := le_room (b := b)
  omega

end Layout

/-! ### What the copy keeps -/

/-- Where the pointer to a placed payload stands. -/
def PlacedPtr.above (p : PlacedPtr) : Option (ℕ × ℕ) := p.parent.map fun q => (q, p.parentOffset)

section Copied

variable (data offsets : Bytes) (sgStart : ℕ)

/-- The placed payload is that of the object `i`. -/
def PlacedAs (n i : ℕ) (p : PlacedPtr) : Prop :=
  i < n ∧ ∃ o b, sentAt data offsets i = some o ∧ o.object = .buffer b ∧
    p.objectOffset = o.offset ∧ p.targetOffset = payloadStart data offsets sgStart i ∧
    p.length = b.length

/-- The payloads placed and the patches made by the first `n` objects; `ix` are the objects of the
placed payloads. -/
structure Tree (n : ℕ) (c : Copying) (ix : List ℕ) (patches : List Fixups.Patch) : Prop where
  nested : Fixups.Nested 8 (c.placed.map PlacedPtr.above) patches c.lastFixupObj c.lastFixupMin
  placed : List.Forall₂ (PlacedAs data offsets sgStart n) ix c.placed
  distinct : ix.Nodup
  patched : ∀ i < n, ∀ o p offset width, sentAt data offsets i = some o →
    o.object.patch = some (p, offset, width) →
    ∃ k, ix[k]? = some p ∧ ⟨i, k, offset, width⟩ ∈ patches

/-- The pointer object `b` as it is delivered, with the address of its payload. -/
def delivered (address : ℕ) (b : BufferObject) (i : ℕ) : Bytes :=
  { b with buffer := (address + payloadStart data offsets sgStart i) % 2 ^ 64 }.encode

/-- What holds once the first `n` objects are translated; `g` is the sender before. -/
structure Copied [GuestProcess G] (g : G) (env : CopyEnv) (size n : ℕ) (c : Copying) : Prop where
  length : c.image.length = size
  sent : ∀ i < n, ∃ o, sentAt data offsets i = some o
  objects : ∀ i < n, ∀ o, sentAt data offsets i = some o → o.offset + o.size ≤ c.offMin
  objectsApart : ∀ i j o o', i < j → j < n → sentAt data offsets i = some o →
    sentAt data offsets j = some o' → o.offset + o.size ≤ o'.offset
  offMin : c.offMin ≤ env.dataSize
  cursor : c.sgCursor = payloadStart data offsets sgStart n
  cursor_le : c.sgCursor ≤ env.sgEnd
  -- the objects still to come, and the offsets array, are as they were sent
  unread : ∀ a k, c.offMin ≤ a → a + k ≤ env.dataSize →
    Bytes.slice c.image a k = Bytes.slice data a k
  array : ∀ a k, a + k ≤ offsets.length →
    Bytes.slice c.image (env.offStart + a) k = Bytes.slice offsets a k
  fixups : c.fixups.map (·.offset) = (List.range n).flatMap (fdSlots data offsets sgStart)
  patches : ∀ i < n, ∀ o p offset width, sentAt data offsets i = some o →
    o.object.patch = some (p, offset, width) →
    p < i ∧ ∃ o' b, sentAt data offsets p = some o' ∧ o'.object = .buffer b ∧
      offset + width ≤ b.length
  pointers : ∀ i < n, ∀ o b p offset, sentAt data offsets i = some o → o.object = .buffer b →
    o.object.patch = some (p, offset, 8) →
    Bytes.slice c.image (payloadStart data offsets sgStart p + offset) 8 =
      some (le64 ((env.vmStart + payloadStart data offsets sgStart i) % 2 ^ 64))
  pointing : ∀ i < n, ∀ o b, sentAt data offsets i = some o → o.object = .buffer b →
    Bytes.slice c.image o.offset BUFFER_OBJECT_SIZE =
      some (delivered data offsets sgStart env.vmStart b i)
  -- the payloads are as they were sent
  payloads : ∀ i < n, ∀ o b, sentAt data offsets i = some o → o.object = .buffer b →
    ∃ g₁ g₂ bytes, Asked g g₁ ∧ Fetches g₁ b.buffer b.length bytes g₂ ∧
      ∀ k len, k + len ≤ b.length → Unpatched data offsets n i k len →
        Bytes.slice c.image (payloadStart data offsets sgStart i + k) len = Bytes.slice bytes k len
  tree : ∃ ix patches, Tree data offsets sgStart n c ix patches

/-- The areas of the image. -/
structure Areas (env : CopyEnv) : Prop where
  data : env.dataSize ≤ env.offStart
  offsets : env.offStart + offsets.length ≤ sgStart
  sgStart : 8 ∣ sgStart
  sgEnd : 8 ∣ env.sgEnd

end Copied

variable {ix : List ℕ} {patches : List Fixups.Patch}

section Facts

/-- A patch in the payload of a pointer before the object `i`. -/
def Inside (data offsets : Bytes) (i p offset width : ℕ) : Prop :=
  p < i ∧ ∃ o b, sentAt data offsets p = some o ∧ o.object = .buffer b ∧ offset + width ≤ b.length

variable {data offsets : Bytes} {sgStart n size : ℕ} {c : Copying} {env : CopyEnv}

/-- Patches of the payloads, wherever these are, do not overlap. -/
theorem Tree.patchesApart
    (h : Tree data offsets sgStart n c ix patches)
    (hin : ∀ i < n, ∀ o p offset width, sentAt data offsets i = some o →
      o.object.patch = some (p, offset, width) → Inside data offsets i p offset width)
    {i j p p' offset offset' width width' : ℕ} {o o' : Sent} (hne : i ≠ j) (hi : i < n) (hj : j < n)
    (ho : sentAt data offsets i = some o) (ho' : sentAt data offsets j = some o')
    (hp : o.object.patch = some (p, offset, width))
    (hp' : o'.object.patch = some (p', offset', width')) :
    payloadStart data offsets sgStart p + offset + width ≤
        payloadStart data offsets sgStart p' + offset' ∨
      payloadStart data offsets sgStart p' + offset' + width' ≤
        payloadStart data offsets sgStart p + offset := by
  obtain ⟨-, q, b, hq, hb, hle⟩ := hin i hi o p offset width ho hp
  obtain ⟨-, q', b', hq', hb', hle'⟩ := hin j hj o' p' offset' width' ho' hp'
  rcases lt_trichotomy p p' with hlt | rfl | hlt
  · have := payload_le sgStart hq hb hlt
    omega
  · -- one payload: the two patches are of one placed buffer
    obtain ⟨k, hk, hx⟩ := h.patched i hi o p offset width ho hp
    obtain ⟨k', hk', hy⟩ := h.patched j hj o' p offset' width' ho' hp'
    have hkk : k = k' :=
      (List.getElem?_inj (List.getElem?_eq_some_iff.1 hk).1 h.distinct).1 (hk.trans hk'.symm)
    have := h.nested.apart_of_tag hx hy hne hkk
    dsimp only at this
    omega
  · have := payload_le sgStart hq' hb' hlt
    omega

end Facts

/-! ### What the parts of the copy return -/

variable {I : Machine G → Prop}

theorem addOffset_returns (a b : ℕ) :
    Returns I (addOffset a b : Run G ε ℕ) fun v => v = a + b := by
  refine (Returns.expect _ _).mono fun v hv => ?_
  unfold checkedAdd at hv
  split at hv <;> cases hv
  rfl

/-- The loop of `validate_fixup` climbs. -/
theorem validateFixupFrom_returns (placed : List PlacedPtr) (parent offset : ℕ) :
    ∀ (fuel cursor min : ℕ),
      Returns I (validateFixupFrom placed parent offset fuel cursor min : Run G ε Bool) fun v =>
        v = true → ∃ b, Fixups.Climbs (placed.map PlacedPtr.above) 8 cursor min parent b ∧
          b ≤ offset
  | 0, _, _ => .fault _
  | fuel + 1, cursor, min => by
      unfold validateFixupFrom
      refine .ite (fun hc => .pure fun hv => ?_) fun _ => ?_
      · subst hc
        exact ⟨min, .here _ _, of_decide_eq_true hv⟩
      refine .bind (.expect _ _) fun p hp => ?_
      cases hq : p.parent with
      | none => exact .pure nofun
      | some up =>
        refine .bind (addOffset_returns _ _) fun m hm => ?_
        subst hm
        refine (validateFixupFrom_returns placed parent offset fuel up _).mono fun v ih hv => ?_
        obtain ⟨b, hb, hle⟩ := ih hv
        refine ⟨b, .up (c := cursor) ?_ hb, hle⟩
        rw [getElem?_map, hp]
        simp [PlacedPtr.above, hq]

theorem validateFixup_returns (placed : List PlacedPtr) (parent offset : ℕ) (last : Option ℕ)
    (min : ℕ) :
    Returns I (validateFixup placed parent offset last min : Run G ε Bool) fun v =>
      v = true → ∃ cursor b, last = some cursor ∧
        Fixups.Climbs (placed.map PlacedPtr.above) 8 cursor min parent b ∧ b ≤ offset := by
  unfold validateFixup
  cases last with
  | none => exact .pure nofun
  | some cursor =>
    refine (validateFixupFrom_returns placed parent offset _ cursor min).mono fun v h hv => ?_
    obtain ⟨b, hb, hle⟩ := h hv
    exact ⟨cursor, b, rfl, hb, hle⟩

section Parts

variable {data offsets : Bytes} {sgStart n : ℕ} {c : Copying} {env : CopyEnv}

theorem objectSize_pos {kind : UInt32} {size : ℕ} (h : objectSize kind = some size) : 0 < size := by
  unfold objectSize at h
  split_ifs at h <;> cases h <;> decide

/-- The entry of the offsets array, as an object's place says. -/
theorem offset_of_sentAt {i : ℕ} {o : Sent} (h : sentAt data offsets i = some o) :
    u64At offsets (i * 8) = some o.offset ∧ 0 < o.size := by
  unfold sentAt at h
  simp only [Option.bind_eq_bind, Option.bind_eq_some_iff, Option.pure_def, Option.some.injEq] at h
  obtain ⟨offset, ho, kind, -, size, hs, bytes, -, object, -, rfl⟩ := h
  exact ⟨ho, objectSize_pos hs⟩

/-- **The parent.**  The placed payload that is found is that of the object named. -/
theorem findParent_returns
    (harray : ∀ a k, a + k ≤ offsets.length →
      slice c.image (env.offStart + a) k = slice offsets a k)
    (hlen : n * 8 ≤ offsets.length)
    (hsent : ∀ i < n, ∃ o, sentAt data offsets i = some o)
    (hapart : ∀ i j o o', i < j → j < n → sentAt data offsets i = some o →
      sentAt data offsets j = some o' → o.offset + o.size ≤ o'.offset)
    (hplaced : List.Forall₂ (PlacedAs data offsets sgStart n) ix c.placed) (parent : ℕ) :
    Returns I (findParent env c n parent : Run G Failure ℕ) fun k =>
      parent < n ∧ ix[k]? = some parent := by
  unfold findParent
  refine .ite (fun h => ?_) fun _ => .throw _
  obtain ⟨hlt, -⟩ := h
  refine .bind (addOffset_returns _ _) fun at_ hat => ?_
  subst hat
  refine .bind (Returns.expect _ _) fun entry hentry => ?_
  refine (Returns.orThrow _ _).mono fun k hk => ⟨hlt, ?_⟩
  rw [u64At, harray _ _ (by omega)] at hentry
  obtain ⟨o, ho⟩ := hsent parent hlt
  have hoff := (offset_of_sentAt ho).1
  obtain rfl : o.offset = entry := Option.some.inj (hoff.symm.trans hentry)
  obtain ⟨hkl, hp, -⟩ := findIdx?_eq_some_iff_getElem.1 hk
  have hki : k < ix.length := hplaced.length_eq ▸ hkl
  have has := (forall₂_iff_get.1 hplaced).2 k hki hkl
  obtain ⟨hin, o', b, ho', -, hobj, -, -⟩ := has
  have heq : o'.offset = o.offset := hobj.symm.trans (of_decide_eq_true hp)
  rw [getElem?_eq_getElem hki]
  congr 1
  -- objects at one place are one object, as places increase
  rcases lt_trichotomy ix[k] parent with hlt' | he | hlt'
  · have h1 := hapart _ _ o' o hlt' hlt ho' ho
    have h2 := (offset_of_sentAt ho').2
    omega
  · exact he
  · have h1 := hapart _ _ o o' hlt' hin ho ho'
    have h2 := (offset_of_sentAt ho).2
    omega

/-- **The payload**, as the sender has it, at the cursor. -/
theorem copyPayload_returns [GuestProcess G] {g : G} (c : Copying) (bp : BufferObject)
    (hroom : c.sgCursor + bp.length ≤ c.image.length) :
    Returns (Answered g) (copyPayload c bp : Run G Failure Bytes) fun image =>
      image.length = c.image.length ∧
      (∀ a k, a + k ≤ c.sgCursor ∨ c.sgCursor + bp.length ≤ a →
        slice image a k = slice c.image a k) ∧
      ∃ g₁ g₂ bytes, Asked g g₁ ∧ Fetches g₁ bp.buffer bp.length bytes g₂ ∧
        slice image c.sgCursor bp.length = some bytes := by
  intro m image m' hm h
  unfold copyPayload at h
  by_cases h0 : bp.length = 0
  · rw [if_pos h0] at h
    cases h
    refine ⟨hm, rfl, fun _ _ _ => rfl, _, _, [], hm, .inl ⟨h0, rfl, rfl⟩, ?_⟩
    rw [slice_eq_some hroom, h0]
    rfl
  · rw [if_neg h0] at h
    obtain ⟨_, -, h⟩ := Prog.expect_bind_eq_ok h
    obtain ⟨payload, m₁, h₁, h⟩ := Prog.bind_eq_ok h
    obtain ⟨hask, -⟩ := ask_eq_ok (Prog.mapErr_eq_ok h₁)
    obtain ⟨hover, rfl⟩ := Prog.expect_eq_ok h
    have hasked := Asked.copyFromUser hm bp.buffer bp.length
    rw [hask] at hasked
    refine ⟨hasked, overwrite_length hover,
      fun a k ha => slice_overwrite_ne hover (payload.2.symm ▸ ha), _, _, payload.1, hm,
      .inr ⟨h0, payload.2, hask⟩, ?_⟩
    have hslice := slice_overwrite hover
    rwa [payload.2] at hslice

end Parts

/-! ### One object -/

section Step

variable {data offsets : Bytes} {sgStart n size : ℕ} {c c' : Copying} {env : CopyEnv} {o : Sent}
  [GuestProcess G] {g : G}

/-- An object that patches nothing and places nothing. -/
theorem Tree.skip (h : Tree data offsets sgStart n c ix patches)
    (hn : sentAt data offsets n = some o) (ho : o.object.patch = none) (hp : c'.placed = c.placed)
    (hl : c'.lastFixupObj = c.lastFixupObj) (hm : c'.lastFixupMin = c.lastFixupMin) :
    Tree data offsets sgStart (n + 1) c' ix patches := by
  refine ⟨?_, ?_, h.distinct, fun i hi o' p offset width ho' hpatch => ?_⟩
  · rw [hp, hl, hm]
    exact h.nested
  · rw [hp]
    exact h.placed.imp fun i p hip => ⟨hip.1.trans (lt_succ_self n), hip.2⟩
  · rcases Nat.lt_succ_iff_lt_or_eq.1 hi with hi | rfl
    · exact h.patched i hi o' p offset width ho' hpatch
    · rw [hn] at ho'
      cases ho'
      rw [ho] at hpatch
      cases hpatch

theorem Copied.patches_succ (h : Copied data offsets sgStart g env size n c)
    (hn : sentAt data offsets n = some o)
    (hpatch : ∀ p offset width, o.object.patch = some (p, offset, width) →
      Inside data offsets n p offset width) :
    ∀ i < n + 1, ∀ o p offset width, sentAt data offsets i = some o →
      o.object.patch = some (p, offset, width) → Inside data offsets i p offset width := by
  intro i hi o' p offset width ho' hp
  rcases Nat.lt_succ_iff_lt_or_eq.1 hi with hi | rfl
  · exact h.patches i hi o' p offset width ho' hp
  · cases hn.symm.trans ho'
    exact hpatch p offset width hp

/-- The next object, whatever it is. -/
theorem Copied.step (h : Copied data offsets sgStart g env size n c)
    (hn : sentAt data offsets n = some o) (hlo : c.offMin ≤ o.offset)
    (hhi : o.offset + o.size ≤ env.dataSize) (hoff : c'.offMin = o.offset + o.size)
    (hcur : c'.sgCursor = c.sgCursor + o.object.room) (hle : c'.sgCursor ≤ env.sgEnd)
    (hlen : c'.image.length = c.image.length)
    (hunread : ∀ a k, o.offset + o.size ≤ a → a + k ≤ env.dataSize →
      slice c'.image a k = slice c.image a k)
    (harray : ∀ a k, a + k ≤ offsets.length →
      slice c'.image (env.offStart + a) k = slice c.image (env.offStart + a) k)
    (hfix : c'.fixups.map (·.offset) =
      c.fixups.map (·.offset) ++ fdSlots data offsets sgStart n)
    (hpatch : ∀ p offset width, o.object.patch = some (p, offset, width) →
      Inside data offsets n p offset width)
    (hpointers : ∀ i < n + 1, ∀ o b p offset, sentAt data offsets i = some o →
      o.object = .buffer b → o.object.patch = some (p, offset, 8) →
      slice c'.image (payloadStart data offsets sgStart p + offset) 8 =
        some (le64 ((env.vmStart + payloadStart data offsets sgStart i) % 2 ^ 64)))
    (hpointing : ∀ i < n + 1, ∀ o b, sentAt data offsets i = some o → o.object = .buffer b →
      slice c'.image o.offset BUFFER_OBJECT_SIZE =
        some (delivered data offsets sgStart env.vmStart b i))
    (hpayloads : ∀ i < n + 1, ∀ o b, sentAt data offsets i = some o → o.object = .buffer b →
      ∃ g₁ g₂ bytes, Asked g g₁ ∧ Fetches g₁ b.buffer b.length bytes g₂ ∧
        ∀ k len, k + len ≤ b.length → Unpatched data offsets (n + 1) i k len →
          slice c'.image (payloadStart data offsets sgStart i + k) len = slice bytes k len)
    (htree : ∃ ix patches, Tree data offsets sgStart (n + 1) c' ix patches) :
    Copied data offsets sgStart g env size (n + 1) c' := by
  refine ⟨hlen.trans h.length, fun i hi => ?_, fun i hi o' ho' => ?_,
    fun i j o₁ o₂ hij hj h₁ h₂ => ?_, hoff ▸ hhi, ?_, hle, fun a k ha hk => ?_, fun a k ha => ?_, ?_,
    h.patches_succ hn hpatch, hpointers, hpointing, hpayloads, htree⟩
  · rcases Nat.lt_succ_iff_lt_or_eq.1 hi with hi | rfl
    · exact h.sent i hi
    · exact ⟨o, hn⟩
  · rcases Nat.lt_succ_iff_lt_or_eq.1 hi with hi | rfl
    · have := h.objects i hi o' ho'
      omega
    · cases hn.symm.trans ho'
      exact hoff.ge
  · rcases Nat.lt_succ_iff_lt_or_eq.1 hj with hj | rfl
    · exact h.objectsApart i j o₁ o₂ hij hj h₁ h₂
    · cases hn.symm.trans h₂
      exact (h.objects i hij o₁ h₁).trans hlo
  · rw [hcur, h.cursor, payloadStart_succ sgStart hn]
  · rw [hunread a k (hoff ▸ ha) hk]
    exact h.unread a k (by omega) hk
  · rw [harray a k ha]
    exact h.array a k ha
  · rw [hfix, h.fixups, range_succ, flatMap_append]
    simp

variable {offset width : ℕ}

/-- The pointers patched so far lie in the payloads placed so far. -/
theorem Copied.pointer_range (h : Copied data offsets sgStart g env size n c) {i p : ℕ} (hi : i < n)
    (ho : sentAt data offsets i = some o) (hp : o.object.patch = some (p, offset, width)) :
    sgStart ≤ payloadStart data offsets sgStart p + offset ∧
      payloadStart data offsets sgStart p + offset + width ≤ c.sgCursor := by
  obtain ⟨hpi, o', b, ho', hb, hle⟩ := h.patches i hi o p offset width ho hp
  have h₁ := payload_le sgStart ho' hb (hpi.trans hi)
  have h₀ : payloadStart data offsets sgStart 0 ≤ payloadStart data offsets sgStart p :=
    payloadStart_mono (zero_le p)
  rw [h.cursor]
  simp only [payloadStart] at h₀
  omega

/-- What an object is says how long it is. -/
theorem size_of_sentAt {i : ℕ} {o : Sent} (h : sentAt data offsets i = some o) :
    (∀ b, o.object = .buffer b → o.size = BUFFER_OBJECT_SIZE) ∧
      (o.object = .fd → o.size = FD_OBJECT_SIZE) := by
  unfold sentAt at h
  simp only [Option.bind_eq_bind, Option.bind_eq_some_iff, Option.pure_def, Option.some.injEq] at h
  obtain ⟨offset, -, kind, -, size, hs, bytes, -, object, hobj, rfl⟩ := h
  unfold sentObject at hobj
  split_ifs at hobj with h₁ h₂ h₃
  · rw [h₁] at hs
    refine ⟨fun _ _ => (Option.some.inj hs).symm, fun ho => ?_⟩
    dsimp only at ho
    simp [ho] at hobj
  · refine ⟨fun b ho => ?_, fun ho => ?_⟩ <;> dsimp only at ho <;> simp [ho] at hobj
  · cases hobj
    rw [h₃] at hs
    exact ⟨fun _ ho => (by cases ho), fun _ => (Option.some.inj hs).symm⟩
  · cases hobj
    exact ⟨fun _ ho => (by cases ho), fun ho => (by cases ho)⟩

/-- The pointer objects translated so far end below the next object. -/
theorem Copied.object_le (h : Copied data offsets sgStart g env size n c) {b : BufferObject} {i : ℕ}
    (hi : i < n) (ho : sentAt data offsets i = some o) (hb : o.object = .buffer b) :
    o.offset + BUFFER_OBJECT_SIZE ≤ c.offMin :=
  (size_of_sentAt ho).1 b hb ▸ h.objects i hi o ho

/-- A part of a payload placed so far lies between the offsets and the cursor. -/
theorem Copied.payload_range (h : Copied data offsets sgStart g env size n c) {b : BufferObject}
    {i k len : ℕ} (hi : i < n) (ho : sentAt data offsets i = some o) (hb : o.object = .buffer b)
    (hk : k + len ≤ b.length) :
    sgStart ≤ payloadStart data offsets sgStart i + k ∧
      payloadStart data offsets sgStart i + k + len ≤ c.sgCursor := by
  have h₁ := payload_le sgStart ho hb hi
  have h₀ := le_payloadStart data offsets sgStart i
  rw [h.cursor]
  omega

/-- An object whose translation changes only its own bytes. -/
theorem Copied.inPlace (hA : Areas offsets sgStart env)
    (h : Copied data offsets sgStart g env size n c) (hn : sentAt data offsets n = some o)
    (hlo : c.offMin ≤ o.offset) (hhi : o.offset + o.size ≤ env.dataSize)
    (hobj : ∀ b, o.object ≠ .buffer b) (hoff : c'.offMin = o.offset + o.size)
    (hcur : c'.sgCursor = c.sgCursor) (hlen : c'.image.length = c.image.length)
    (himage : ∀ a k, a + k ≤ o.offset ∨ o.offset + o.size ≤ a →
      slice c'.image a k = slice c.image a k)
    (hfix : c'.fixups.map (·.offset) =
      c.fixups.map (·.offset) ++ fdSlots data offsets sgStart n)
    (hpatch : ∀ p offset width, o.object.patch = some (p, offset, width) →
      Inside data offsets n p offset width)
    (htree : ∃ ix patches, Tree data offsets sgStart (n + 1) c' ix patches) :
    Copied data offsets sgStart g env size (n + 1) c' := by
  have hd := hA.data
  have ho := hA.offsets
  refine h.step hn hlo hhi hoff ?_ (hcur ▸ h.cursor_le) hlen (fun a k ha _ => himage a k (.inr ha))
    (fun a k _ => himage _ k (by omega)) hfix hpatch (fun i hi o' b p offset ho' hb hp => ?_)
    (fun i hi o' b ho' hb => ?_) (fun i hi o' b ho' hb => ?_) htree
  · cases hk : o.object with
    | buffer b => exact absurd hk (hobj b)
    | flat | fd | array _ => exact hcur
  all_goals rcases Nat.lt_succ_iff_lt_or_eq.1 hi with hi | rfl
  · have hr := h.pointer_range hi ho' hp
    rw [himage _ _ (by omega)]
    exact h.pointers i hi o' b p offset ho' hb hp
  · cases hn.symm.trans ho'
    exact absurd hb (hobj b)
  · have hle := h.object_le hi ho' hb
    rw [himage _ _ (by omega)]
    exact h.pointing i hi o' b ho' hb
  · cases hn.symm.trans ho'
    exact absurd hb (hobj b)
  · obtain ⟨g₁, g₂, bytes, hasked, hfetch, hbytes⟩ := h.payloads i hi o' b ho' hb
    refine ⟨g₁, g₂, bytes, hasked, hfetch, fun k len hk hu => ?_⟩
    have hr := h.payload_range hi ho' hb hk
    rw [himage _ _ (by omega)]
    exact hbytes k len hk fun j hj => hu j (hj.trans (lt_succ_self n))
  · cases hn.symm.trans ho'
    exact absurd hb (hobj b)

/-- The copy with the bytes of an object replaced. -/
def Replaces (offset len : ℕ) (c c' : Copying) : Prop :=
  ∃ bytes image, bytes.length = len ∧ Bytes.overwrite c.image offset bytes = some image ∧
    c' = { c with image }

theorem put_returns (c : Copying) (offset : ℕ) (bytes : Bytes) :
    Returns (Answered g) (c.put offset bytes : Run G ε Copying) (Replaces offset bytes.length c) := by
  unfold Copying.put
  refine .bind (.expect _ _) fun image h => .pure ⟨bytes, image, rfl, h, rfl⟩

theorem putFlat_returns (c : Copying) (offset : ℕ) (f : FlatBinderObject) :
    Returns (Answered g) (c.put offset f.encode : Run G ε Copying)
      (Replaces offset FLAT_BINDER_OBJECT_SIZE c) := by
  have hlen : f.encode.length = FLAT_BINDER_OBJECT_SIZE := by
    simp [FlatBinderObject.encode, FLAT_BINDER_OBJECT_SIZE]
  exact hlen ▸ put_returns c offset f.encode

theorem copyBinder_returns (c : Copying) (offset : ℕ) (object : Bytes) (strong : Bool) :
    Returns (Answered g) (copyBinder env c offset object strong : Run G Failure Copying)
      (Replaces offset FLAT_BINDER_OBJECT_SIZE c) := by
  unfold copyBinder
  refine .bind (.expect _ _) fun fp _ => .bind (onState_returns _) fun node _ =>
    .bind .get fun m _ => .bind (.expect _ _) fun k _ => .ite (fun _ => .throw _) fun _ => ?_
  exact .bind (.mapErr (onState_returns _)) fun desc _ => .bind (onState_returns _) fun _ _ =>
    putFlat_returns _ _ _

theorem copyHandle_returns (c : Copying) (offset : ℕ) (object : Bytes) (strong : Bool) :
    Returns (Answered g) (copyHandle env c offset object strong : Run G Failure Copying)
      (Replaces offset FLAT_BINDER_OBJECT_SIZE c) := by
  unfold copyHandle
  refine .bind (.expect _ _) fun fp _ => .bind .get fun m _ => .bind (.orThrow _ _) fun r _ =>
    .bind (.expect _ _) fun k _ => .ite (fun _ => ?_) fun _ => ?_
  all_goals exact .bind (.mapErr (onState_returns _)) fun _ _ => .bind (onState_returns _) fun _ _ =>
    putFlat_returns _ _ _

theorem copyFd_returns (c : Copying) (offset : ℕ) (object : Bytes) :
    Returns (Answered g) (copyFd env c offset object : Run G Failure Copying) fun c' =>
      ∃ file, Replaces offset object.length
        { c with fixups := c.fixups ++ [⟨offset + 8, file, false⟩] } c' := by
  unfold copyFd
  refine .ite (fun _ => .throw _) fun _ => .bind (.expect _ _) fun fd _ =>
    .bind (senderFile_returns _) fun file _ => .bind (addOffset_returns _ _) fun at_ hat => ?_
  subst hat
  refine .bind (.expect _ _) fun object' ho => ?_
  rw [← overwrite_length ho]
  exact (put_returns _ _ _).mono fun c' h => ⟨file, h⟩

/-- The translation of a binder, a handle or an fd. -/
theorem Copied.replaced (hA : Areas offsets sgStart env)
    (h : Copied data offsets sgStart g env size n c) (hn : sentAt data offsets n = some o)
    (hlo : c.offMin ≤ o.offset) (hhi : o.offset + o.size ≤ env.dataSize)
    (hobj : ∀ b, o.object ≠ .buffer b) (hnone : o.object.patch = none) {F : List FdFixup}
    (hfix : F.map (·.offset) = fdSlots data offsets sgStart n)
    (hr : Replaces o.offset o.size
      { c with offMin := o.offset + o.size, fixups := c.fixups ++ F } c') :
    Copied data offsets sgStart g env size (n + 1) c' := by
  obtain ⟨bytes, image, hb, himage, rfl⟩ := hr
  obtain ⟨ix, patches, ht⟩ := h.tree
  refine h.inPlace hA hn hlo hhi hobj rfl rfl (overwrite_length himage)
    (fun a k ha => slice_overwrite_ne himage (by omega)) ?_ (fun p offset width hp => ?_)
    ⟨ix, patches, ht.skip hn hnone rfl rfl rfl⟩
  · rw [map_append, hfix]
  · rw [hnone] at hp
    cases hp

theorem copyArrayFds_returns (image : Bytes) (base : ℕ) :
    ∀ (l : List ℕ) (fixups : List FdFixup),
      Returns (Answered g) (copyArrayFds image base l fixups : Run G Failure (List FdFixup)) fun fs =>
        ∃ added, fs = fixups ++ added ∧ added.map (·.offset) = l.map fun k => base + k * 4
  | [], fixups => .pure ⟨[], (append_nil _).symm, rfl⟩
  | i :: rest, fixups => by
      unfold copyArrayFds
      refine .bind (addOffset_returns _ _) fun at_ hat => .bind (.expect _ _) fun fd _ =>
        .bind (senderFile_returns _) fun file _ => ?_
      subst hat
      refine (copyArrayFds_returns image base rest _).mono fun fs hfs => ?_
      obtain ⟨added, rfl, hadded⟩ := hfs
      exact ⟨⟨base + i * 4, file, true⟩ :: added, by simp, by simp [hadded]⟩

/-- The object whose payload was found. -/
theorem Tree.parent (h : Tree data offsets sgStart n c ix patches) {k p : ℕ} (hk : ix[k]? = some p)
    {ptr : PlacedPtr} (hptr : c.placed[k]? = some ptr) :
    p < n ∧ ∃ o b, sentAt data offsets p = some o ∧ o.object = .buffer b ∧
      ptr.targetOffset = payloadStart data offsets sgStart p ∧ ptr.length = b.length := by
  obtain ⟨hki, rfl⟩ := List.getElem?_eq_some_iff.1 hk
  obtain ⟨hkp, rfl⟩ := List.getElem?_eq_some_iff.1 hptr
  obtain ⟨hlt, o, b, ho, hb, -, ht, hl⟩ := (forall₂_iff_get.1 h.placed).2 k hki hkp
  exact ⟨hlt, o, b, ho, hb, ht, hl⟩

/-- The patches once the object `n` made one. -/
theorem Tree.patched_succ {ix' : List ℕ} (h : Tree data offsets sgStart n c ix patches)
    (hn : sentAt data offsets n = some o) (hix : ∀ (k p : ℕ), ix[k]? = some p → ix'[k]? = some p)
    {k p : ℕ} (hk : ix[k]? = some p) (ho : o.object.patch = some (p, offset, width)) :
    ∀ i < n + 1, ∀ o p offset' width', sentAt data offsets i = some o →
      o.object.patch = some (p, offset', width') →
      ∃ k', ix'[k']? = some p ∧
        (⟨i, k', offset', width'⟩ : Fixups.Patch) ∈ patches ++ [⟨n, k, offset, width⟩] := by
  intro i hi o' p' offset' width' ho' hp'
  rcases Nat.lt_succ_iff_lt_or_eq.1 hi with hi | rfl
  · obtain ⟨k', hk', hm⟩ := h.patched i hi o' p' offset' width' ho' hp'
    exact ⟨k', hix k' p' hk', mem_append_left _ hm⟩
  · cases hn.symm.trans ho'
    cases ho.symm.trans hp'
    exact ⟨k, hix k p hk, by simp⟩

variable {object : Bytes}

/-- **An fd array.** -/
theorem copyFda_returns (hA : Areas offsets sgStart env)
    (h : Copied data offsets sgStart g env size n c) (hlen : (n + 1) * 8 ≤ offsets.length)
    (hlo : c.offMin ≤ offset) (hhi : offset + FD_ARRAY_OBJECT_SIZE ≤ env.dataSize)
    (hn : ∀ a, FdArrayObject.decode object = some a →
      sentAt data offsets n = some ⟨offset, FD_ARRAY_OBJECT_SIZE, .array a⟩) :
    Returns (Answered g) (copyFda env { c with offMin := offset + FD_ARRAY_OBJECT_SIZE } n object :
        Run G Failure Copying)
      (Copied data offsets sgStart g env size (n + 1)) := by
  obtain ⟨ix, patches, ht⟩ := h.tree
  unfold copyFda
  refine .bind (.expect _ _) fun fda hfda => ?_
  have hn := hn fda hfda
  refine .bind (findParent_returns h.array (by omega) h.sent h.objectsApart ht.placed _)
    fun k hk => ?_
  obtain ⟨hpn, hk⟩ := hk
  refine .bind (validateFixup_returns _ _ _ _ _) fun valid hvalid => ?_
  refine .ite (fun _ => .throw _) fun hv => ?_
  obtain ⟨cursor, b, hcur, hclimb, hb⟩ := hvalid (by simpa using hv)
  refine .bind (.orThrow _ _) fun fdBytes hbytes => ?_
  obtain rfl : fda.numFds * 4 = fdBytes := by split_ifs at hbytes; exact Option.some.inj hbytes
  refine .bind (.expect _ _) fun ptr hptr => .ite (fun _ => .throw _) fun hfit => ?_
  obtain ⟨-, o', bp, ho', hbp, htarget, hptrlen⟩ := ht.parent hk hptr
  refine .bind (addOffset_returns _ _) fun base hbase => .ite (fun _ => .throw _) fun _ =>
    .ite (fun _ => .throw _) fun _ => ?_
  subst hbase
  refine .bind (copyArrayFds_returns _ _ _ _) fun fixups hfixups => ?_
  obtain ⟨added, rfl, hadded⟩ := hfixups
  refine .bind (addOffset_returns _ _) fun min hmin => .pure ?_
  subst hmin
  have hpatch : (Sent.mk offset FD_ARRAY_OBJECT_SIZE (.array fda)).object.patch =
      some (fda.parent, fda.parentOffset, fda.numFds * 4) := rfl
  refine h.inPlace hA hn hlo hhi nofun rfl rfl rfl (fun _ _ _ => rfl) ?_
    (fun p off width hp => ?_) ⟨ix, patches ++ [⟨n, k, fda.parentOffset, fda.numFds * 4⟩], ?_⟩
  · simp only [map_append, hadded, htarget, fdSlots, hn]
  · cases hpatch.symm.trans hp
    exact ⟨hpn, o', bp, ho', hbp, by omega⟩
  · refine ⟨ht.nested.patch hcur hclimb hb, ?_, ht.distinct,
      ht.patched_succ hn (fun _ _ h => h) hk hpatch⟩
    exact ht.placed.imp fun i p hip => ⟨hip.1.trans (lt_succ_self n), hip.2⟩

/-- How the parent of the pointer object `n` is fixed up: there is none, or the address of the copy
is patched in the payload of the object it names. -/
def ParentFixed (data offsets : Bytes) (sgStart n : ℕ) (ix : List ℕ) (c : Copying) (image : Bytes)
    (bp : BufferObject) (address : ℕ) (r : Option ℕ × Bytes) : Prop :=
  (bp.flags &&& BINDER_BUFFER_FLAG_HAS_PARENT = 0 ∧ r = (none, image)) ∨
  (bp.flags &&& BINDER_BUFFER_FLAG_HAS_PARENT ≠ 0 ∧ ∃ k cursor b o' b', r.1 = some k ∧
    ix[k]? = some bp.parent ∧ c.lastFixupObj = some cursor ∧
    Fixups.Climbs (c.placed.map PlacedPtr.above) 8 cursor c.lastFixupMin k b ∧
    b ≤ bp.parentOffset ∧ bp.parent < n ∧ sentAt data offsets bp.parent = some o' ∧
    o'.object = .buffer b' ∧ bp.parentOffset + 8 ≤ b'.length ∧
    Bytes.overwrite image (payloadStart data offsets sgStart bp.parent + bp.parentOffset)
      (le64 address) = some r.2)

omit [GuestProcess G] in
theorem fixParent_returns
    (ht : Tree data offsets sgStart n c ix patches)
    (harray : ∀ a k, a + k ≤ offsets.length →
      slice c.image (env.offStart + a) k = slice offsets a k)
    (hlen : n * 8 ≤ offsets.length)
    (hsent : ∀ i < n, ∃ o, sentAt data offsets i = some o)
    (hapart : ∀ i j o o', i < j → j < n → sentAt data offsets i = some o →
      sentAt data offsets j = some o' → o.offset + o.size ≤ o'.offset) (bp : BufferObject) :
    Returns I (fixParent env c n bp : Run G Failure (Option ℕ × Bytes))
      (ParentFixed data offsets sgStart n ix c c.image bp bp.buffer) := by
  unfold fixParent
  refine .ite (fun hf => .pure (.inl ⟨hf, rfl⟩)) fun hf => ?_
  refine .bind (findParent_returns harray hlen hsent hapart ht.placed _) fun k hk => ?_
  obtain ⟨hpn, hk⟩ := hk
  refine .bind (validateFixup_returns _ _ _ _ _) fun valid hvalid => ?_
  refine .ite (fun _ => .throw _) fun hv => ?_
  obtain ⟨cursor, b, hcur, hclimb, hb⟩ := hvalid (by simpa using hv)
  refine .bind (.expect _ _) fun ptr hptr => .ite (fun _ => .throw _) fun hfit => ?_
  obtain ⟨-, o', b', ho', hb', htarget, hptrlen⟩ := ht.parent hk hptr
  refine .bind (addOffset_returns _ _) fun at_ hat => ?_
  subst hat
  refine .bind (.expect _ _) fun image himage => .pure (.inr ⟨hf, ?_⟩)
  exact ⟨k, cursor, b, o', b', rfl, hk, hcur, hclimb, hb, hpn, ho', hb', by omega, htarget ▸ himage⟩

variable {image : Bytes} {bp : BufferObject} {address : ℕ} {r : Option ℕ × Bytes}

variable (h : ParentFixed data offsets sgStart n ix c image bp address r)

include h

/-- What a pointer object patches, once its parent is fixed up. -/
theorem ParentFixed.inside {p : ℕ} (hp : (SentObject.buffer bp).patch = some (p, offset, width)) :
    Inside data offsets n p offset width := by
  simp only [SentObject.patch] at hp
  rcases h with ⟨hf, -⟩ | ⟨hf, k, cur, b, o', b', -, -, -, -, -, hpn, ho', hb', hin, -⟩
  · rw [if_pos hf] at hp
    cases hp
  · rw [if_neg hf] at hp
    cases hp
    exact ⟨hpn, o', b', ho', hb', hin⟩

/-- The rest of the image is as it was. -/
theorem ParentFixed.slice
    {a k : ℕ}
    (ha : ∀ p offset, (SentObject.buffer bp).patch = some (p, offset, 8) →
      a + k ≤ payloadStart data offsets sgStart p + offset ∨
        payloadStart data offsets sgStart p + offset + 8 ≤ a) :
    slice r.2 a k = slice image a k := by
  rcases h with ⟨hf, rfl⟩ | ⟨hf, k, cur, b, o', b', -, -, -, -, -, -, -, -, -, himage⟩
  · rfl
  · exact slice_overwrite_ne himage
      (ha bp.parent bp.parentOffset (by simp only [SentObject.patch, if_neg hf]))

/-- The pointer itself. -/
theorem ParentFixed.pointer {p : ℕ} (hp : (SentObject.buffer bp).patch = some (p, offset, width)) :
    Bytes.slice r.2 (payloadStart data offsets sgStart p + offset) 8 = some (le64 address) := by
  simp only [SentObject.patch] at hp
  rcases h with ⟨hf, -⟩ | ⟨hf, k, cur, b, o', b', -, -, -, -, -, -, -, -, -, himage⟩
  · rw [if_pos hf] at hp
    cases hp
  · rw [if_neg hf] at hp
    cases hp
    have := slice_overwrite himage
    rwa [length_le64] at this

omit h

theorem align8_eq {v w : ℕ} (h : align8 v = some w) : w = (v + 7) / 8 * 8 := by
  unfold align8 checkedAdd at h
  split at h <;> cases h
  rfl

/-- The payloads once that of the object `n` is placed, whose parent is `parent`. -/
theorem Tree.place
    (h : Tree data offsets sgStart n c ix patches)
    (hn : sentAt data offsets n = some o) (hobj : o.object = .buffer bp)
    (hparent : ParentFixed data offsets sgStart n ix c image bp address r)
    (hplaced : c'.placed = c.placed ++ [⟨o.offset, payloadStart data offsets sgStart n, bp.length,
      r.1, bp.parentOffset⟩])
    (hlast : c'.lastFixupObj = some c.placed.length) (hmin : c'.lastFixupMin = 0) :
    ∃ patches', Tree data offsets sgStart (n + 1) c' (ix ++ [n]) patches' := by
  have hpl : List.Forall₂ (PlacedAs data offsets sgStart (n + 1)) (ix ++ [n]) c'.placed := by
    rw [hplaced]
    refine rel_append (h.placed.imp fun i p hip => ⟨hip.1.trans (lt_succ_self n), hip.2⟩)
      (.cons ⟨lt_succ_self n, o, bp, hn, hobj, rfl, rfl, rfl⟩ .nil)
  have hnot : n ∉ ix := fun hm => by
    obtain ⟨k, hk, rfl⟩ := mem_iff_getElem.1 hm
    have hk' : k < c.placed.length := h.placed.length_eq ▸ hk
    exact absurd ((forall₂_iff_get.1 h.placed).2 k hk hk').1 (lt_irrefl _)
  have hdist : (ix ++ [n]).Nodup := nodup_append.2 ⟨h.distinct, nodup_singleton n,
    fun a ha b hb => by cases mem_singleton.1 hb; exact fun e => hnot (e ▸ ha)⟩
  have hix : ∀ (k p : ℕ), ix[k]? = some p → (ix ++ [n])[k]? = some p := fun k p hk => by
    rw [List.getElem?_append_left (List.getElem?_eq_some_iff.1 hk).1]
    exact hk
  have hlen : c.placed.length = (c.placed.map PlacedPtr.above).length := by rw [length_map]
  rcases hparent with ⟨hf, rfl⟩ | ⟨hf, k, cursor, b, -, -, hr, hk, hcur, hclimb, hb, -⟩
  · refine ⟨patches, ?_, hpl, hdist, fun i hi o' p offset width ho' hp => ?_⟩
    · rw [hplaced, hlast, hmin, hlen, map_append]
      exact h.nested.root
    rcases Nat.lt_succ_iff_lt_or_eq.1 hi with hi | rfl
    · obtain ⟨k, hk, hm⟩ := h.patched i hi o' p offset width ho' hp
      exact ⟨k, hix k p hk, hm⟩
    · cases hn.symm.trans ho'
      simp [hobj, SentObject.patch, hf] at hp
  · refine ⟨patches ++ [⟨n, k, bp.parentOffset, 8⟩], ?_, hpl, hdist,
      h.patched_succ hn hix hk (by simp [hobj, SentObject.patch, hf])⟩
    rw [hplaced, hlast, hmin, hlen, map_append, hr]
    exact h.nested.child (x := ⟨n, k, bp.parentOffset, 8⟩) hcur hclimb hb rfl

theorem length_bufferObject (b : BufferObject) : b.encode.length = BUFFER_OBJECT_SIZE := by
  simp [BufferObject.encode, BUFFER_OBJECT_SIZE]

/-- A pointer object whose payload is copied (`image₁`), whose parent is fixed up (`r.2`) and whose
own bytes are replaced (`image₃`). -/
theorem Copied.ptr (hA : Areas offsets sgStart env)
    (h : Copied data offsets sgStart g env size n c) (hlo : c.offMin ≤ offset)
    (hhi : offset + BUFFER_OBJECT_SIZE ≤ env.dataSize)
    (hn : sentAt data offsets n = some ⟨offset, BUFFER_OBJECT_SIZE, .buffer bp⟩)
    (hfit : c.sgCursor + bp.length ≤ env.sgEnd) {image₁ image₃ : Bytes}
    (hlen₁ : image₁.length = c.image.length)
    (h₁ : ∀ a k, a + k ≤ c.sgCursor ∨ c.sgCursor + bp.length ≤ a →
      slice image₁ a k = slice c.image a k)
    (hsent : ∃ g₁ g₂ bytes, Asked g g₁ ∧ Fetches g₁ bp.buffer bp.length bytes g₂ ∧
      slice image₁ c.sgCursor bp.length = some bytes) (ht : Tree data offsets sgStart n c ix patches)
    (h₂ : ParentFixed data offsets sgStart n ix c image₁ bp
      ((env.vmStart + c.sgCursor) % 2 ^ 64) r)
    (h₃ : overwrite r.2 offset
      { bp with buffer := (env.vmStart + c.sgCursor) % 2 ^ 64 : BufferObject }.encode = some image₃)
    (hc : c' = { c with
      offMin := offset + BUFFER_OBJECT_SIZE, image := image₃
      sgCursor := c.sgCursor + (bp.length + 7) / 8 * 8
      placed := c.placed ++ [⟨offset, c.sgCursor, bp.length, r.1, bp.parentOffset⟩]
      lastFixupObj := some c.placed.length, lastFixupMin := 0 }) :
    Copied data offsets sgStart g env size (n + 1) c' := by
  have hd := hA.data
  have ho := hA.offsets
  have hcur := h.cursor
  have hlen₃ := length_bufferObject { bp with buffer := (env.vmStart + c.sgCursor) % 2 ^ 64 }
  have hsg : sgStart ≤ c.sgCursor := hcur ▸ le_payloadStart data offsets sgStart n
  obtain ⟨patches', ht'⟩ : ∃ patches', Tree data offsets sgStart (n + 1) c' (ix ++ [n]) patches' := by
    subst hc
    exact ht.place hn rfl h₂ (by rw [← hcur]) rfl rfl
  subst hc
  have hin : ∀ p off width, (SentObject.buffer bp).patch = some (p, off, width) →
      Inside data offsets n p off width := fun p off width hp => h₂.inside hp
  have hlen₂ : r.2.length = image₁.length := by
    rcases h₂ with ⟨-, rfl⟩ | ⟨-, k, cur, b, o', b', -, -, -, -, -, -, -, -, -, himage⟩
    · rfl
    · exact overwrite_length himage
  -- bytes outside the payload, the pointer to it and the object
  have hkeep : ∀ a k, (a + k ≤ c.sgCursor ∨ c.sgCursor + bp.length ≤ a) →
      (∀ p off, (SentObject.buffer bp).patch = some (p, off, 8) →
        a + k ≤ payloadStart data offsets sgStart p + off ∨
          payloadStart data offsets sgStart p + off + 8 ≤ a) →
      (a + k ≤ offset ∨ offset + BUFFER_OBJECT_SIZE ≤ a) →
      slice image₃ a k = slice c.image a k := by
    intro a k ha hp hobj
    rw [slice_overwrite_ne h₃ (hlen₃ ▸ hobj), h₂.slice hp]
    exact h₁ a k ha
  -- the pointer lies behind the offsets
  have hbehind : ∀ p off, sgStart ≤ payloadStart data offsets sgStart p + off := fun p off =>
    (le_payloadStart data offsets sgStart p).trans (le_add_right _ _)
  have hpad : c.sgCursor + (bp.length + 7) / 8 * 8 ≤ env.sgEnd := by
    obtain ⟨x, hx⟩ := hcur ▸ dvd_payloadStart data offsets hA.sgStart n
    obtain ⟨y, hy⟩ := hA.sgEnd
    omega
  refine h.step hn hlo hhi rfl rfl hpad ?_ (fun a k ha hk => ?_) (fun a k ha => ?_) ?_ hin
    (fun i hi o b p off hoi hb hp => ?_) (fun i hi o b hoi hb => ?_) (fun i hi o b hoi hb => ?_)
    ⟨_, _, ht'⟩
  · exact (overwrite_length h₃).trans (hlen₂.trans hlen₁)
  · exact hkeep a k (.inl (by omega)) (fun p off _ => .inl (by have := hbehind p off; omega))
      (.inr ha)
  · exact hkeep _ k (.inl (by omega)) (fun p off _ => .inl (by have := hbehind p off; omega))
      (.inr (by omega))
  · simp [fdSlots, hn]
  · rcases Nat.lt_succ_iff_lt_or_eq.1 hi with hi' | rfl
    · have hr := h.pointer_range hi' hoi hp
      rw [hkeep _ 8 (.inl (by omega)) (fun p' off' hp' => ?_) (.inr (by omega))]
      · exact h.pointers i hi' o b p off hoi hb hp
      · exact ht'.patchesApart (h.patches_succ hn hin) hi'.ne hi (lt_succ_self n) hoi hn hp hp'
    · cases hn.symm.trans hoi
      have := hbehind p off
      rw [slice_overwrite_ne h₃ (.inr (by omega)), ← hcur]
      exact h₂.pointer hp
  · rcases Nat.lt_succ_iff_lt_or_eq.1 hi with hi' | rfl
    · have hle := h.object_le hi' hoi hb
      rw [hkeep _ _ (.inl (by omega))
        (fun p off _ => .inl (by have := hbehind p off; omega)) (.inl (by omega))]
      exact h.pointing i hi' o b hoi hb
    · cases hn.symm.trans hoi
      cases hb
      have hown := slice_overwrite h₃
      rw [hlen₃] at hown
      rw [hown, delivered, ← hcur]
  · rcases Nat.lt_succ_iff_lt_or_eq.1 hi with hi' | rfl
    · obtain ⟨g₁, g₂, bytes, hasked, hfetch, hbytes⟩ := h.payloads i hi' o b hoi hb
      refine ⟨g₁, g₂, bytes, hasked, hfetch, fun k len hk hu => ?_⟩
      have hr := h.payload_range hi' hoi hb hk
      rw [hkeep _ _ (.inl (by omega)) (fun p off hp => ?_) (.inr (by omega))]
      · exact hbytes k len hk fun j hj => hu j (hj.trans (lt_succ_self n))
      · -- the pointer is in this payload, and not in the part, or in another payload
        obtain ⟨hpn, o', b', ho', hb', hle⟩ := hin p off 8 hp
        rcases lt_trichotomy p i with hlt | rfl | hlt
        · have := payload_le sgStart ho' hb' hlt
          omega
        · have := hu n (lt_succ_self n) _ off 8 hn hp
          omega
        · have := payload_le sgStart hoi hb hlt
          omega
    · cases hn.symm.trans hoi
      cases hb
      obtain ⟨g₁, g₂, bytes, hasked, hfetch, hbytes⟩ := hsent
      refine ⟨g₁, g₂, bytes, hasked, hfetch, fun k len hk _ => ?_⟩
      rw [← hcur, slice_overwrite_ne h₃ (.inr (by omega)), h₂.slice fun p off hp => ?_]
      · exact slice_slice hbytes hk
      · obtain ⟨hpn, o', b', ho', hb', hle⟩ := hin p off 8 hp
        have := payload_le sgStart ho' hb' hpn
        omega

/-- **A pointer object.** -/
theorem copyPtr_returns (hA : Areas offsets sgStart env) (hsize : env.sgEnd ≤ size)
    (h : Copied data offsets sgStart g env size n c) (hlen : (n + 1) * 8 ≤ offsets.length)
    (hlo : c.offMin ≤ offset) (hhi : offset + BUFFER_OBJECT_SIZE ≤ env.dataSize)
    (hn : ∀ b, BufferObject.decode object = some b →
      sentAt data offsets n = some ⟨offset, BUFFER_OBJECT_SIZE, .buffer b⟩) :
    Returns (Answered g) (copyPtr env { c with offMin := offset + BUFFER_OBJECT_SIZE } n offset object :
        Run G Failure Copying)
      (Copied data offsets sgStart g env size (n + 1)) := by
  obtain ⟨ix, patches, ht⟩ := h.tree
  have ho := hA.offsets
  have hsg : sgStart ≤ c.sgCursor := h.cursor ▸ payloadStart_mono (i := 0) (zero_le n)
  unfold copyPtr
  refine .bind (.expect _ _) fun bp hbp => ?_
  refine .bind (.expect _ _) fun room hroom => ?_
  obtain ⟨hle, rfl⟩ : c.sgCursor ≤ env.sgEnd ∧ env.sgEnd - c.sgCursor = room := by
    split_ifs at hroom with hle
    exact ⟨hle, Option.some.inj hroom⟩
  refine .ite (fun _ => .throw _) fun hfit => ?_
  refine .bind (copyPayload_returns _ bp (by rw [h.length]; dsimp only; omega))
    fun image₁ himage₁ => ?_
  obtain ⟨hlen₁, h₁, hsent⟩ := himage₁
  dsimp only at hlen₁ h₁ hsent
  refine .bind (.expect _ _) fun padded hpadded => ?_
  obtain rfl := align8_eq hpadded
  refine .bind (addOffset_returns _ _) fun cursor hcursor => ?_
  subst hcursor
  have ht₁ : Tree data offsets sgStart n
      { c with offMin := offset + BUFFER_OBJECT_SIZE, image := image₁
               sgCursor := c.sgCursor + (bp.length + 7) / 8 * 8 } ix patches :=
    ⟨ht.nested, ht.placed, ht.distinct, ht.patched⟩
  refine .bind (fixParent_returns ht₁ (fun a k ha => ?_) (by omega) h.sent h.objectsApart _)
    fun r hr => ?_
  · rw [h₁ _ _ (by omega)]
    exact h.array a k ha
  refine .bind (.expect _ _) fun image₃ h₃ => .pure ?_
  exact h.ptr hA hlo hhi (hn bp hbp) (by omega) hlen₁ h₁ hsent ht hr h₃ (by simp)

theorem sentAt_eq {kind : UInt32}
    (ho : u64At offsets (n * 8) = some offset) (hk : u32At data offset = some kind)
    (hs : objectSize kind = some size) (hb : slice data offset size = some object) :
    sentAt data offsets n = (sentObject kind object).map fun k => ⟨offset, size, k⟩ := by
  simp only [sentAt, ho, hk, hs, hb, Option.bind_eq_bind, Option.bind_some, Option.pure_def]
  cases sentObject kind object <;> rfl

omit [GuestProcess G] in
theorem objectKind_returns (c : Copying) (offset : ℕ) :
    Returns I (objectKind env c offset : Run G ε UInt32) fun kind =>
      kind = 0 ∨ (offset + 4 ≤ env.dataSize ∧ u32At c.image offset = some kind) := by
  unfold objectKind
  refine .ite (fun _ => .bind (addOffset_returns _ _) fun stop hstop => ?_)
    fun _ => .pure (.inl rfl)
  subst hstop
  exact .ite (fun hle => (Returns.expect _ _).mono fun kind hk => .inr ⟨hle, hk⟩)
    fun _ => .pure (.inl rfl)

/-- **One entry of the offsets array.** -/
theorem copyObject_returns (hA : Areas offsets sgStart env) (hsize : env.sgEnd ≤ size)
    (h : Copied data offsets sgStart g env size n c) (hlen : (n + 1) * 8 ≤ offsets.length) :
    Returns (Answered g) (copyObject env c n : Run G Failure Copying)
      (Copied data offsets sgStart g env size (n + 1)) := by
  unfold copyObject
  refine .bind (addOffset_returns _ _) fun at_ hat => ?_
  subst hat
  refine .bind (.expect _ _) fun offset hoffset => ?_
  rw [u64At, h.array _ _ (by omega)] at hoffset
  refine .bind (objectKind_returns c offset) fun kind hkind => ?_
  refine .bind (.orThrow _ _) fun osize hosize => .ite (fun _ => .throw _) fun hlo => ?_
  have hlo : c.offMin ≤ offset := Nat.le_of_not_lt hlo
  have hzero : objectSize 0 = none := by decide
  obtain ⟨hdata, hkind⟩ := hkind.resolve_left fun h0 => by
    rw [h0, hzero] at hosize
    cases hosize
  rw [u32At, h.unread _ _ hlo hdata] at hkind
  refine .bind (addOffset_returns _ _) fun stop hstop => .ite (fun _ => .throw _) fun hhi => ?_
  subst hstop
  have hhi : offset + osize ≤ env.dataSize := Nat.le_of_not_lt hhi
  refine .bind (.expect _ _) fun object hobject => ?_
  have hlenO := slice_length hobject
  have hobject : slice data offset osize = some object :=
    (h.unread _ _ hlo hhi).symm.trans hobject
  have hn := sentAt_eq (n := n) hoffset hkind hosize hobject
  -- a binder or a handle
  have hflat : ∀ c', objectSize kind = some FLAT_BINDER_OBJECT_SIZE →
      sentObject kind object = some .flat →
      Replaces offset FLAT_BINDER_OBJECT_SIZE { c with offMin := offset + osize } c' →
      Copied data offsets sgStart g env size (n + 1) c' := by
    intro c' hs ho hr
    obtain rfl : FLAT_BINDER_OBJECT_SIZE = osize := Option.some.inj (hs.symm.trans hosize)
    rw [ho] at hn
    exact h.replaced hA hn hlo hhi nofun rfl (F := []) (by simp [fdSlots, hn]) (by simpa using hr)
  refine .ite (fun hk => ?_) fun hb => .ite (fun hk => ?_) fun hh => .ite (fun hk => ?_) fun hf =>
    .ite (fun hk => ?_) fun ha => ?_
  · refine (copyBinder_returns _ _ _ _).mono fun c' hc => hflat c' ?_ ?_ hc
    · rcases hk with rfl | rfl <;> decide
    · rcases hk with rfl | rfl <;> rfl
  · refine (copyHandle_returns _ _ _ _).mono fun c' hc => hflat c' ?_ ?_ hc
    · rcases hk with rfl | rfl <;> decide
    · rcases hk with rfl | rfl <;> rfl
  · subst hk
    have ho : sentObject BINDER_TYPE_FD object = some .fd := rfl
    rw [ho] at hn
    refine (copyFd_returns _ _ _).mono fun c' hc => ?_
    obtain ⟨file, hr⟩ := hc
    rw [hlenO] at hr
    exact h.replaced hA hn hlo hhi nofun rfl (by simp [fdSlots, hn]) hr
  · subst hk
    obtain rfl : FD_ARRAY_OBJECT_SIZE = osize := Option.some.inj hosize
    refine copyFda_returns hA h hlen hlo hhi fun a hdec => ?_
    have ho : sentObject BINDER_TYPE_FDA object = (FdArrayObject.decode object).map .array := rfl
    rw [hn, ho, hdec]
    rfl
  · obtain rfl : kind = BINDER_TYPE_PTR := by
      unfold objectSize at hosize
      split_ifs at hosize with hflat' hptr
      · tauto
      · exact hptr
    obtain rfl : BUFFER_OBJECT_SIZE = osize := Option.some.inj hosize
    refine copyPtr_returns hA hsize h hlen hlo hhi fun b hdec => ?_
    have ho : sentObject BINDER_TYPE_PTR object = (BufferObject.decode object).map .buffer := rfl
    rw [hn, ho, hdec]
    rfl

/-- The entries of the offsets array, one after the other. -/
theorem copyObjects_returns (hA : Areas offsets sgStart env) (hsize : env.sgEnd ≤ size) :
    ∀ (k n : ℕ) (c : Copying), Copied data offsets sgStart g env size n c →
      (n + k) * 8 ≤ offsets.length →
      Returns (Answered g) (copyObjects env ((List.range k).map (n + ·)) c : Run G Failure Copying)
        (Copied data offsets sgStart g env size (n + k))
  | 0, n, c, h, _ => .pure h
  | k + 1, n, c, h, hlen => by
      have hl : (List.range (k + 1)).map (n + ·) = n :: (List.range k).map ((n + 1) + ·) := by
        rw [range_succ_eq_map, map_cons, map_map]
        congr 1
        exact map_congr_left fun i _ => by simp; omega
      rw [hl, copyObjects]
      refine .bind (copyObject_returns hA hsize h (by omega)) fun c' hc' => ?_
      have := copyObjects_returns hA hsize k (n + 1) c' hc' (by omega)
      rwa [add_assoc, add_comm 1 k] at this

end Step

end Aim.Binder
