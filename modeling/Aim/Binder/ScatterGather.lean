import Aim.Binder.AllocSound
import Aim.Binder.Scatter

/-!
# Binder — Scatter-gather transactions

From the objects of `Aim.Binder.Scatter` to a whole transaction: the buffer allocated for it, what
`copy_transaction` writes into the target's memory, and the fds that the receiver's read installs
there.  The layout holds when the copy is made, and what the copy patched is still there once every
fd is installed: the fd words are disjoint from the pointers and from each other.
-/

namespace Aim.Binder

open State List Bytes Prog
open Prog (Returns)

variable {G ε : Type}

/-! ### What the sender gave -/

variable {m m' : Machine G}

variable {image : Bytes} {offset : ℕ} {image' : Bytes}

/-- A range of the sender's memory in the image. -/
theorem copyRange_ok [GuestProcess G] {address len : ℕ}
    (h : copyRange image address offset len m = .ok image' m') :
    ∃ bytes, Fetches m.guest address len bytes m'.guest ∧ m'.st = m.st ∧
      image'.length = image.length ∧
      (∀ a k, a + k ≤ offset ∨ offset + len ≤ a →
        slice image' a k = slice image a k) ∧
      (offset + len ≤ image.length → slice image' offset len = some bytes) := by
  unfold copyRange at h
  split at h
  · next h0 =>
      cases h
      refine ⟨[], .inl ⟨h0, rfl, rfl⟩, rfl, rfl, fun _ _ _ => rfl, fun hle => ?_⟩
      rw [slice_eq_some hle, h0]
      rfl
  · next h0 =>
      obtain ⟨stop, -, h⟩ := expect_bind_eq_ok h
      obtain ⟨_, -, h⟩ := expect_bind_eq_ok h
      obtain ⟨bytes, m₃, h₃, h⟩ := bind_eq_ok h
      obtain ⟨hask, hst⟩ := ask_eq_ok (mapErr_eq_ok h₃)
      obtain ⟨hover, rfl⟩ := expect_eq_ok h
      refine ⟨bytes.1, .inr ⟨h0, bytes.2, hask⟩, hst, overwrite_length hover,
        fun a k ha => slice_overwrite_ne hover (bytes.2.symm ▸ ha), fun _ => ?_⟩
      have := slice_overwrite hover
      rwa [bytes.2] at this

variable {id : TxnId} {secctx : Option Bytes}

/-- The security context, at the end of the image. -/
theorem copySecctx_ok {vmStart bufferSize : ℕ}
    (h : (copySecctx id vmStart bufferSize image secctx : Run G ε Bytes) m = .ok image' m') :
    m'.guest = m.guest ∧ image'.length = image.length ∧
      ∀ a k, a + k + (secctx.map fun s => (s.length + 7) / 8 * 8).getD 0 ≤ bufferSize →
        slice image' a k = slice image a k := by
  cases secctx with
  | none => cases h; exact ⟨rfl, rfl, fun _ _ _ => rfl⟩
  | some ctx =>
    unfold copySecctx at h
    obtain ⟨padded, hpad, h⟩ := expect_bind_eq_ok h
    obtain rfl := align8_eq hpad
    obtain ⟨at_, hat, h⟩ := expect_bind_eq_ok h
    obtain ⟨out, hover, h⟩ := expect_bind_eq_ok h
    obtain ⟨m₄, _, h₄, h⟩ := bind_eq_ok h
    cases h₄
    obtain ⟨_, -, h⟩ := expect_bind_eq_ok h
    cases h
    refine ⟨rfl, overwrite_length hover, fun a k ha => ?_⟩
    split_ifs at hat
    cases hat
    refine slice_overwrite_ne hover (.inl ?_)
    simp only [Option.map_some, Option.getD_some] at ha
    omega

theorem acceptsFds_ok {inReplyTo : Option TxnId} {accepts : Bool}
    (h : (acceptsFds id inReplyTo : Run G ε Bool) m = .ok accepts m') : m' = m := by
  unfold acceptsFds at h
  obtain ⟨_, _, h₁, h⟩ := bind_eq_ok h
  cases h₁
  cases inReplyTo with
  | some original =>
    obtain ⟨_, -, h⟩ := expect_bind_eq_ok h
    cases h
    rfl
  | none =>
    obtain ⟨t, -, h⟩ := expect_bind_eq_ok h
    cases hnode : t.targetNode with
    | none =>
      rw [hnode] at h
      cases h
      rfl
    | some n =>
      rw [hnode] at h
      obtain ⟨_, -, h⟩ := expect_bind_eq_ok h
      cases h
      rfl

/-! ### The copy -/

/-- The room of a security context. -/
def secctxRoom (secctx : Option Bytes) : ℕ := (secctx.map fun s => (s.length + 7) / 8 * 8).getD 0

theorem secctxRoom_mod (secctx : Option Bytes) : secctxRoom secctx % 8 = 0 := by
  cases secctx with
  | none => rfl
  | some s => exact Nat.mul_mod_left _ 8

/-- Where the payloads of a transaction start: behind its data and its offsets. -/
def sgStartOf (tr : TransactionData) : ℕ := (tr.dataSize + 7) / 8 * 8 + tr.offsetsSize

/-- Before the first object. -/
theorem Copied.init [GuestProcess G] (g : G) {data offsets : Bytes} {sgStart size : ℕ}
    {env : CopyEnv} (hlen : image.length = size) (hle : sgStart ≤ env.sgEnd)
    (hdata : ∀ a k, a + k ≤ env.dataSize → slice image a k = slice data a k)
    (harray : ∀ a k, a + k ≤ offsets.length →
      slice image (env.offStart + a) k = slice offsets a k) :
    Copied data offsets sgStart g env size 0 { image, sgCursor := sgStart } := by
  refine ⟨hlen, nofun, nofun, fun i j o o' _ hj => absurd hj (Nat.not_lt_zero j), Nat.zero_le _, rfl,
    hle, fun a k _ h => hdata a k h, harray, rfl, nofun, nofun, nofun, nofun, [],
    [], .empty, .nil, .nil, nofun⟩

variable {tr : TransactionData} {proc : ProcId} {extra : ℕ} {b : Buffer}

/-- **The copy of a transaction** whose buffer has the room it asked for: the objects are translated,
and the image is written to the buffer. -/
theorem copyTransaction_ok [GuestProcess G] {targetProc : ProcId} {tid : Tid}
    {inReplyTo : Option TxnId} {p : Proc} {al : Allocator}
    (h : copyTransaction proc tid targetProc id offset tr extra secctx inReplyTo m = .ok () m')
    (hp : m.st.procs.lookup targetProc = some p) (hal : p.alloc = some al)
    (hb : al.buffers.lookup offset = some b)
    (hroom : tr.offsetsSize % 8 = 0 → extra % 8 = 0 →
      sgStartOf tr + extra + secctxRoom secctx ≤ b.size) :
    ∃ data offsets g₁ g₂ env c memory, Fetches m.guest tr.buffer tr.dataSize data g₁ ∧
      Fetches g₁ tr.offsets tr.offsetsSize offsets g₂ ∧ tr.offsetsSize % 8 = 0 ∧
      Areas offsets (sgStartOf tr) env ∧ env.dataSize = tr.dataSize ∧
      env.vmStart = al.userAddress offset ∧ env.sgEnd = sgStartOf tr + extra ∧
      Copied data offsets (sgStartOf tr) g₂ env b.size (tr.offsetsSize / 8) c ∧
      (m'.st.procs.lookup targetProc).bind (·.receive) =
        some (ReceiveMemory.write memory offset c.image) ∧
      (m'.st.txns.lookup id).map (·.fdFixups) = some c.fixups := by
  unfold copyTransaction at h
  split at h
  · cases h
  next hmod =>
  obtain ⟨hoffs, hextra⟩ : tr.offsetsSize % 8 = 0 ∧ extra % 8 = 0 := by omega
  have hroom := hroom hoffs hextra
  obtain ⟨_, _, h₁, h⟩ := bind_eq_ok h
  cases h₁
  obtain ⟨p', hp', h⟩ := expect_bind_eq_ok h
  cases hp.symm.trans hp'
  obtain ⟨al', hal', h⟩ := expect_bind_eq_ok h
  cases hal.symm.trans hal'
  obtain ⟨b', hb', h⟩ := expect_bind_eq_ok h
  cases hb.symm.trans hb'
  obtain ⟨offStart, hoffStart, h⟩ := expect_bind_eq_ok h
  obtain rfl := align8_eq hoffStart
  obtain ⟨offEnd, _, h₁, h⟩ := bind_eq_ok h
  obtain rfl := (addOffset_returns (I := fun _ => True) _ _ _ _ _ trivial h₁).2
  obtain ⟨-, rfl⟩ := expect_eq_ok h₁
  obtain ⟨sgStart, hsgStart, h⟩ := expect_bind_eq_ok h
  obtain rfl : sgStart = sgStartOf tr := by
    rw [align8_eq hsgStart, sgStartOf]
    omega
  obtain ⟨sgEnd, _, h₁, h⟩ := bind_eq_ok h
  obtain rfl := (addOffset_returns (I := fun _ => True) _ _ _ _ _ trivial h₁).2
  obtain ⟨-, rfl⟩ := expect_eq_ok h₁
  obtain ⟨image₁, m₁, h₁, h⟩ := bind_eq_ok h
  obtain ⟨data, hdata, -, hlen₁, -, hslice₁⟩ := copyRange_ok h₁
  obtain ⟨image₂, m₂, h₂, h⟩ := bind_eq_ok h
  obtain ⟨offsets, hoffsets, -, hlen₂, hkeep₂, hslice₂⟩ := copyRange_ok h₂
  obtain ⟨image₃, m₃, h₃, h⟩ := bind_eq_ok h
  obtain ⟨hguest, hlen₃, hkeep₃⟩ := copySecctx_ok h₃
  obtain ⟨acceptFds, m₄, h₄, h⟩ := bind_eq_ok h
  have hm₄ := acceptsFds_ok h₄
  obtain ⟨c, m₅, h₅, h⟩ := bind_eq_ok h
  rw [length_replicate] at hlen₁ hslice₁
  simp only [sgStartOf] at hroom
  have hroom' : ∀ a k, a + k ≤ (tr.dataSize + 7) / 8 * 8 + tr.offsetsSize →
      slice image₃ a k = slice image₂ a k := fun a k ha => hkeep₃ a k (by
    rw [secctxRoom] at hroom
    omega)
  have ho := hoffsets.length
  obtain ⟨env, henv⟩ : ∃ env : CopyEnv, env =
    { proc, tid, targetProc, bufferOffset := offset, dataSize := tr.dataSize
      offStart := (tr.dataSize + 7) / 8 * 8, sgEnd := sgStartOf tr + extra
      vmStart := al.userAddress offset, acceptFds } := ⟨_, rfl⟩
  have hA : Areas offsets (sgStartOf tr) env := by
    subst henv
    refine ⟨?_, ?_, ?_, ?_⟩ <;> simp only [sgStartOf] <;> omega
  have hinit : Copied data offsets (sgStartOf tr) m₂.guest env b.size 0
      { image := image₃, sgCursor := sgStartOf tr } := by
    subst henv
    refine .init _ (hlen₃.trans (hlen₂.trans hlen₁)) (Nat.le_add_right _ _) (fun a k ha => ?_)
      fun a k ha => ?_
    · dsimp only at ha
      rw [hroom' a k (by omega), hkeep₂ a k (by omega)]
      simpa using slice_slice (hslice₁ (by omega)) ha
    · rw [hroom' _ k (by dsimp only; omega)]
      exact slice_slice (hslice₂ (by omega)) (by omega)
  have hend : env.sgEnd ≤ b.size := by
    subst henv
    simp only [sgStartOf]
    omega
  have hguest' : Answered m₂.guest m₄ := by
    rw [Answered, hm₄, hguest]
    exact .refl
  obtain ⟨-, hcopied⟩ := copyObjects_returns hA hend (tr.offsetsSize / 8) 0 _ hinit (by omega) m₄ c
    m₅ hguest' (by simpa [henv] using h₅)
  rw [Nat.zero_add] at hcopied
  obtain ⟨_, _, h₆, h⟩ := bind_eq_ok h
  cases h₆
  obtain ⟨p₆, hp₆, h⟩ := expect_bind_eq_ok h
  obtain ⟨memory, hmemory, h⟩ := expect_bind_eq_ok h
  obtain ⟨_, m₇, h₇, h⟩ := bind_eq_ok h
  cases h₇
  obtain ⟨_, _, h₈, h⟩ := bind_eq_ok h
  cases h₈
  obtain ⟨t, ht, h⟩ := expect_bind_eq_ok h
  cases h
  refine ⟨data, offsets, m₁.guest, m₂.guest, env, c, memory, hdata, hoffsets, hoffs, hA,
    henv ▸ rfl, henv ▸ rfl, henv ▸ rfl, hcopied, ?_, ?_⟩
  · simp [State.modifyTxn, State.modifyProc, hp₆, hmemory]
  · dsimp only at ht
    simp [State.modifyTxn, ht]

/-! ### The layout -/

section Layout

variable {data offsets : Bytes} {sgStart size n : ℕ} {c : Copying} {env : CopyEnv}

/-- **The layout of a copy that is made.** -/
theorem Copied.scattered [GuestProcess G] {g : G} (hA : Areas offsets sgStart env)
    (h : Copied data offsets sgStart g env size n c) :
    Scattered data offsets n env.dataSize sgStart env.sgEnd := by
  obtain ⟨ix, patches, ht⟩ := h.tree
  refine ⟨h.sent, fun i hi o ho => (h.objects i hi o ho).trans h.offMin, h.objectsApart,
    fun i hi o b ho hb => ⟨dvd_payloadStart data offsets hA.sgStart i,
      le_payloadStart data offsets sgStart i, ?_⟩,
    fun i j o b hij _ ho hb => payload_le sgStart ho hb hij, h.patches,
    fun i j o o' p p' offset offset' width width' hne hi hj ho ho' hp hp' =>
      ht.patchesApart h.patches hne hi hj ho ho' hp hp'⟩
  have := payload_le sgStart ho hb hi
  rw [← h.cursor] at this
  exact this.trans h.cursor_le

/-- An fd word lies in its object, or in what its object patches. -/
theorem mem_fdSlots {i x : ℕ} (h : x ∈ fdSlots data offsets sgStart i) :
    (∃ o, sentAt data offsets i = some o ∧ (∀ b, o.object ≠ .buffer b) ∧ o.offset ≤ x ∧
      x + 4 ≤ o.offset + o.size) ∨
    ∃ o p offset width, sentAt data offsets i = some o ∧ (∀ b, o.object ≠ .buffer b) ∧
      o.object.patch = some (p, offset, width) ∧
      payloadStart data offsets sgStart p + offset ≤ x ∧
      x + 4 ≤ payloadStart data offsets sgStart p + offset + width := by
  unfold fdSlots at h
  split at h
  · next ho =>
      have hs := (size_of_sentAt ho).2 rfl
      cases mem_singleton.1 h
      rw [FD_OBJECT_SIZE] at hs
      exact .inl ⟨_, ho, nofun, Nat.le_add_right _ _, by rw [hs]; dsimp only; omega⟩
  · next ho =>
      obtain ⟨k, hk, rfl⟩ := mem_map.1 h
      have := mem_range.1 hk
      exact .inr ⟨_, _, _, _, ho, nofun, rfl, Nat.le_add_right _ _, by omega⟩
  · cases h

variable {dataEnd sgEnd : ℕ}

/-- What an object patches lies behind the data. -/
theorem le_patch (data offsets : Bytes) (hd : dataEnd ≤ sgStart) (p offset : ℕ) :
    dataEnd ≤ payloadStart data offsets sgStart p + offset :=
  hd.trans ((le_payloadStart data offsets sgStart p).trans (Nat.le_add_right _ _))

variable (h : Scattered data offsets n dataEnd sgStart sgEnd)

include h

/-- The fd words of two objects do not overlap. -/
theorem Scattered.slotsApart (hd : dataEnd ≤ sgStart) {i j x y : ℕ} (hij : i < j) (hj : j < n)
    (hx : x ∈ fdSlots data offsets sgStart i) (hy : y ∈ fdSlots data offsets sgStart j) :
    x + 4 ≤ y ∨ y + 4 ≤ x := by
  have hi : i < n := hij.trans hj
  rcases mem_fdSlots hx with ⟨o, ho, -, h₁, h₂⟩ | ⟨o, p, off, w, ho, -, hp, h₁, h₂⟩ <;>
    rcases mem_fdSlots hy with ⟨o', ho', -, h₁', h₂'⟩ | ⟨o', p', off', w', ho', -, hp', h₁', h₂'⟩
  · have := h.objectsApart i j o o' hij hj ho ho'
    omega
  · have := h.objects i hi o ho
    have := le_patch data offsets hd p' off'
    omega
  · have := h.objects j hj o' ho'
    have := le_patch data offsets hd p off
    omega
  · have := h.patchesApart i j o o' _ _ _ _ _ _ hij.ne hi hj ho ho' hp hp'
    omega

/-- An fd word does not overlap a pointer. -/
theorem Scattered.slotApart
    (hd : dataEnd ≤ sgStart) {i j x p : ℕ} {o : Sent} {b : BufferObject} (hi : i < n)
    (hj : j < n) (hx : x ∈ fdSlots data offsets sgStart i) (ho : sentAt data offsets j = some o)
    (hb : o.object = .buffer b) (hp : o.object.patch = some (p, offset, 8)) :
    x + 4 ≤ payloadStart data offsets sgStart p + offset ∨
      payloadStart data offsets sgStart p + offset + 8 ≤ x := by
  rcases mem_fdSlots hx with ⟨o', ho', -, h₁, h₂⟩ | ⟨o', p', off', w', ho', hnot, hp', h₁, h₂⟩
  · have := h.objects i hi o' ho'
    have := le_patch data offsets hd p offset
    omega
  have hne : i ≠ j := by
    rintro rfl
    cases ho.symm.trans ho'
    exact hnot b hb
  have := h.patchesApart i j o' o _ _ _ _ _ _ hne hi hj ho' ho hp' hp
  omega

/-- An fd word does not overlap a pointer object, -/
theorem Scattered.slot_object (hd : dataEnd ≤ sgStart) {i j x : ℕ} {o : Sent} {b : BufferObject}
    (hi : i < n) (hj : j < n) (hx : x ∈ fdSlots data offsets sgStart i)
    (ho : sentAt data offsets j = some o) (hb : o.object = .buffer b) :
    x + 4 ≤ o.offset ∨ o.offset + BUFFER_OBJECT_SIZE ≤ x := by
  have hsize := (size_of_sentAt ho).1 _ hb
  have hle := h.objects j hj o ho
  rcases mem_fdSlots hx with ⟨o', ho', hnot, h₁, h₂⟩ | ⟨o', p', off', w', -, -, -, h₁, -⟩
  · rcases Nat.lt_trichotomy i j with hlt | rfl | hlt
    · have := h.objectsApart i j o' o hlt hj ho' ho
      omega
    · cases ho.symm.trans ho'
      exact absurd hb (hnot b)
    · have := h.objectsApart j i o o' hlt hi ho ho'
      omega
  · have := le_patch data offsets hd p' off'
    omega

/-- nor a part of a payload that nothing patches. -/
theorem Scattered.slot_payload (hd : dataEnd ≤ sgStart) {i j x k len : ℕ} {o : Sent}
    {b : BufferObject} (hi : i < n) (hx : x ∈ fdSlots data offsets sgStart i)
    (ho : sentAt data offsets j = some o) (hb : o.object = .buffer b) (hk : k + len ≤ b.length)
    (hu : Unpatched data offsets n j k len) :
    x + 4 ≤ payloadStart data offsets sgStart j + k ∨
      payloadStart data offsets sgStart j + k + len ≤ x := by
  rcases mem_fdSlots hx with ⟨o', ho', -, h₁, h₂⟩ | ⟨o', p, off, w, ho', -, hp, h₁, h₂⟩
  · have := h.objects i hi o' ho'
    have := le_patch data offsets hd j k
    omega
  · obtain ⟨-, q, b', hq, hb', hle⟩ := h.patches i hi o' p off w ho' hp
    rcases Nat.lt_trichotomy p j with hlt | rfl | hlt
    · have := payload_le sgStart hq hb' hlt
      omega
    · have := hu i hi o' off w ho' hp
      omega
    · have := payload_le sgStart ho hb hlt
      omega

/-- No two fd words overlap. -/
theorem Scattered.pairwise_slots (hd : dataEnd ≤ sgStart) :
    ((List.range n).flatMap (fdSlots data offsets sgStart)).Pairwise
      fun x y => x + 4 ≤ y ∨ y + 4 ≤ x := by
  refine pairwise_flatMap.2 ⟨fun i _ => ?_, ?_⟩
  · unfold fdSlots
    split
    · exact pairwise_singleton _ _
    · refine pairwise_map.2 (pairwise_lt_range.imp fun hlt => .inl ?_)
      omega
    · exact .nil
  · refine (pairwise_lt_range (n := n)).imp_of_mem fun {i j} hi hj hij x hx y hy => ?_
    exact h.slotsApart hd hij (mem_range.1 hj) hx hy

end Layout

/-! ### The receiver's memory -/

/-- A range of the receive memory. -/
def ReceiveMemory.read (m : ReceiveMemory) (offset len : ℕ) : Bytes :=
  (List.range len).map fun k => m (offset + k)

section Memory

variable {m m' : ReceiveMemory} {offset a k : ℕ} {data : Bytes}

theorem read_congr (h : ∀ i < k, m' (a + i) = m (a + i)) : m'.read a k = m.read a k :=
  map_congr_left fun i hi => h i (mem_range.1 hi)

/-- What is written there is read there. -/
theorem read_write_slice {out : Bytes} (h : slice data a k = some out) :
    (m.write offset data).read (offset + a) k = out := by
  have hlen := slice_length h
  unfold slice at h
  split at h
  · next hle =>
      cases h
      refine ext_getElem (by simpa [ReceiveMemory.read] using hlen.symm) fun i hi hi' => ?_
      have hik : i < k := by simpa [ReceiveMemory.read] using hi
      have hget : data[offset + a + i - offset]? = some data[a + i] := by
        rw [Nat.add_assoc, Nat.add_sub_cancel_left]
        exact getElem?_eq_getElem (by omega)
      simp only [ReceiveMemory.read, getElem_map, getElem_range, ReceiveMemory.write,
        getElem_take, getElem_drop]
      rw [if_pos (by omega), hget]
      rfl
  · cases h

theorem read_write_ne (h : a + k ≤ offset ∨ offset + data.length ≤ a) :
    (m.write offset data).read a k = m.read a k := by
  refine read_congr fun i hi => ?_
  unfold ReceiveMemory.write
  split
  · rw [getElem?_eq_none (by omega)]
    rfl
  · rfl

end Memory

/-- The memory with an fd in each of the words. -/
def patchFds (m : ReceiveMemory) (offset : ℕ) (l : List (FdFixup × ℕ)) : ReceiveMemory :=
  l.foldl (fun m x => m.write (offset + x.1.offset) (Bytes.ofNat 4 x.2)) m

variable {l : List (FdFixup × ℕ)}

theorem read_patchFds_ne {a k : ℕ} (m : ReceiveMemory)
    (h : ∀ x ∈ l, a + k ≤ offset + x.1.offset ∨ offset + x.1.offset + 4 ≤ a) :
    (patchFds m offset l).read a k = m.read a k := by
  induction l generalizing m with
  | nil => rfl
  | cons x l ih =>
    have hx := h x (.head _)
    refine (ih _ fun y hy => h y (.tail x hy)).trans (read_write_ne ?_)
    rwa [length_ofNat]

/-- Every fd is in its word, if no words overlap. -/
theorem read_patchFds (m : ReceiveMemory)
    (h : l.Pairwise fun x y => x.1.offset + 4 ≤ y.1.offset ∨ y.1.offset + 4 ≤ x.1.offset)
    {x : FdFixup × ℕ} (hx : x ∈ l) :
    (patchFds m offset l).read (offset + x.1.offset) 4 = ofNat 4 x.2 := by
  induction l generalizing m with
  | nil => cases hx
  | cons y l ih =>
    obtain ⟨hy, hl⟩ := pairwise_cons.1 h
    rcases mem_cons.1 hx with rfl | hx
    · change (patchFds (m.write (offset + x.1.offset) (ofNat 4 x.2)) offset l).read _ 4 = _
      rw [read_patchFds_ne _ fun z hz => by have := hy z hz; omega]
      have hs : slice (ofNat 4 x.2) 0 4 = some (ofNat 4 x.2) := by
        rw [slice_eq_some (by simp)]
        simp [take_of_length_le]
      exact read_write_slice hs
    · exact ih _ hl hx

/-- The memory behind the mapping of a process. -/
def State.receive? (s : State) (p : ProcId) : Option ReceiveMemory :=
  (s.procs.lookup p).bind (·.receive)

/-- **The fds of a delivery.**  Each file is installed, and its fd is in its word. -/
theorem installFixups_ok [GuestProcess G] :
    ∀ {fixups : List FdFixup} {installed installed' : List (ℕ × Bool)} {m m' : Machine G}
      {memory : ReceiveMemory},
      (installFixups proc offset fixups installed : Run G ε _) m = .ok (installed', false) m' →
      m.st.receive? proc = some memory →
      ∃ fds, fds.length = fixups.length ∧
        installed' = installed ++ (fixups.zip fds).map (fun x => (x.2, x.1.inArray)) ∧
        m'.st.receive? proc = some (patchFds memory offset (fixups.zip fds))
  | [], installed, installed', m, m', memory, h, hm => by
      cases h
      exact ⟨[], rfl, by simp, hm⟩
  | fixup :: rest, installed, installed', m, m', memory, h, hm => by
      unfold installFixups at h
      obtain ⟨answer, m₁, h₁, h⟩ := bind_eq_ok h
      cases answer with
      | error e => cases h
      | ok fd =>
        have hst : m₁.st = m.st := by
          unfold Prog.attempt at h₁
          split at h₁
          · next ha => cases h₁; exact (ask_eq_ok ha).2
          · cases h₁
          · cases h₁
        obtain ⟨_, m₂, h₂, h⟩ := bind_eq_ok h
        cases h₂
        obtain ⟨P, hP, hr⟩ := Option.bind_eq_some_iff.1 hm
        have hm₂ : ((m₁.st.modifyProc proc fun p => { p with
              receive := p.receive.map fun m =>
                m.write (offset + fixup.offset) (ofNat 4 fd) }).receive? proc) =
            some (memory.write (offset + fixup.offset) (ofNat 4 fd)) := by
          simp [State.receive?, State.modifyProc, hst, hP, hr]
        obtain ⟨fds, hlen, rfl, hm'⟩ := installFixups_ok h hm₂
        exact ⟨fd :: fds, by simp [hlen], by simp, hm'⟩

/-! ### The buffer of a transaction -/

variable {target : Target}

/-- The buffer that is allocated has room for the padded parts of the request. -/
theorem allocateBuffer_ok {oneway : Bool} {pid : ℤ} {s s' : State}
    {a : Allocation} (h : allocateBuffer target tr extra oneway pid s = .ok a s') :
    ∃ b, s'.buffer? target.proc a.offset = some b ∧
      paddedSize tr.dataSize tr.offsetsSize extra ≤ b.size := by
  unfold allocateBuffer at h
  obtain ⟨_, _, h₁, h⟩ := bind_eq_ok h
  cases h₁
  cases hal : (s.procs.lookup target.proc).bind (·.alloc) with
  | none =>
    rw [hal] at h
    obtain ⟨_, _, h₁, h⟩ := bind_eq_ok h
    cases h
  | some al =>
    obtain ⟨P, hP, hPa⟩ := Option.bind_eq_some_iff.1 hal
    rw [hal] at h
    dsimp only at h
    rcases Allocator.allocate_cases al tr.dataSize tr.offsetsSize extra oneway pid with
      ⟨-, he⟩ | ⟨size, hr, ⟨-, he⟩ | ⟨offset, len, suspect, spam, -, -, -, he⟩⟩
    · rw [he] at h
      obtain ⟨_, _, h₁, h⟩ := bind_eq_ok h
      cases h
    · rw [he] at h
      obtain ⟨_, _, h₁, h⟩ := bind_eq_ok h
      cases h
    · rw [he] at h
      obtain ⟨_, _, h₁, h⟩ := bind_eq_ok h
      cases h₁
      cases h
      refine ⟨{ size, dataSize := tr.dataSize, offsetsSize := tr.offsetsSize, isAsync := oneway
                senderPid := pid }, ?_, (le_max_left _ 8).trans (requestSize_eq_some hr).ge⟩
      simp [State.buffer?, State.modifyProc, hP, AList.lookup_insert]

/-- The record of the transaction leaves the size of its buffer alone. -/
theorem insertTxn_ok
    {sender : Option (ProcId × Tid)} {creds : Credentials} {delegated : Bool} {s s' : State}
    (h : (insertTxn target tr offset sender creds delegated : Op ε TxnId) s = .ok id s')
    (hb : s.buffer? target.proc offset = some b) :
    ∃ b', s'.buffer? target.proc offset = some b' ∧ b'.size = b.size := by
  unfold insertTxn at h
  obtain ⟨_, _, h₁, h⟩ := bind_eq_ok h
  cases h₁
  obtain ⟨_, _, h₁, h⟩ := bind_eq_ok h
  cases h₁
  obtain ⟨_, _, h₁, h⟩ := bind_eq_ok h
  cases h₁
  obtain ⟨_, -, h⟩ := expect_bind_eq_ok h
  obtain ⟨_, _, h₁, h⟩ := bind_eq_ok h
  cases h₁
  cases h
  obtain ⟨P, hP, hPb⟩ := Option.bind_eq_some_iff.1 hb
  obtain ⟨al, hal, hb⟩ := Option.bind_eq_some_iff.1 hPb
  refine Option.map_eq_some_iff.1 (?_ : _ = some b.size)
  simp [State.buffer?, State.modifyBuffer, State.modifyProc, State.nextId, hP, hal, hb]

/-! ### Whole transactions -/

section Delivered

variable (data offsets : Bytes) (count sgStart : ℕ) (memory : ReceiveMemory) (base : ℕ)

/-- Every pointer object in the memory has the address of its payload, for a buffer at `address`, and
so has the pointer that is patched in the payload of its parent. -/
def PointersHold (address : ℕ) : Prop :=
  ∀ i < count, ∀ o b, sentAt data offsets i = some o → o.object = .buffer b →
    memory.read (base + o.offset) BUFFER_OBJECT_SIZE =
      delivered data offsets sgStart address b i ∧
    ∀ p offset, o.object.patch = some (p, offset, 8) →
      memory.read (base + (payloadStart data offsets sgStart p + offset)) 8 =
        le64 ((address + payloadStart data offsets sgStart i) % 2 ^ 64)

/-- Every payload is in the memory, but for its patches, as it was read from the sender after `g`. -/
def PayloadsHold [GuestProcess G] (g : G) : Prop :=
  ∀ i < count, ∀ o b, sentAt data offsets i = some o → o.object = .buffer b →
    ∃ g₁ g₂ bytes, Asked g g₁ ∧ Fetches g₁ b.buffer b.length bytes g₂ ∧
      ∀ k len, k + len ≤ b.length → Unpatched data offsets count i k len →
        memory.read (base + (payloadStart data offsets sgStart i + k)) len =
          (bytes.drop k).take len

end Delivered

/-- A part of the image that no fd word overlaps is in the memory, also once the fds are installed. -/
theorem Copied.read_patched [GuestProcess G] {data offsets : Bytes} {sgStart base size n : ℕ} {g : G}
    {env : CopyEnv} {c : Copying} {memory memory₁ : ReceiveMemory} (fds : List ℕ)
    (hc : Copied data offsets sgStart g env size n c)
    (hsame : ∀ k < size, memory₁ (base + k) = memory.write base c.image (base + k)) (x len : ℕ)
    (out : Bytes) (hout : slice c.image x len = some out)
    (hapart : ∀ j < n, ∀ y ∈ fdSlots data offsets sgStart j, y + 4 ≤ x ∨ x + len ≤ y) :
    (patchFds memory₁ base (c.fixups.zip fds)).read (base + x) len = out := by
  have hle := le_of_slice hout
  rw [hc.length] at hle
  rw [← read_write_slice (m := memory) hout]
  refine (read_patchFds_ne _ fun z hz => ?_).trans (read_congr fun j hj => ?_)
  · -- a fixup is one of an object's words
    have hz' : z.1.offset ∈ c.fixups.map (·.offset) :=
      mem_map_of_mem (of_mem_zip hz).1
    rw [hc.fixups] at hz'
    obtain ⟨j, hj, hslot⟩ := mem_flatMap.1 hz'
    have := hapart j (mem_range.1 hj) _ hslot
    omega
  · rw [Nat.add_assoc]
    exact hsame _ (by omega)

/-- A sender with a buffer of 16 bytes, one of 8 whose pointer stands in its last eight, and an array
of one fd in the last four of that one. -/
def nestedGuest : DirectGuest where
  memory := fun i => (
    le32 BINDER_TYPE_PTR ++ le32 0 ++ le64 136 ++ le64 16 ++ le64 0 ++ le64 0 ++
    le32 BINDER_TYPE_PTR ++ le32 1 ++ le64 152 ++ le64 8 ++ le64 0 ++ le64 8 ++
    le32 BINDER_TYPE_FDA ++ le32 0 ++ le64 1 ++ le64 1 ++ le64 4 ++
    le64 0 ++ le64 40 ++ le64 80 ++
    [1, 2, 3, 4, 5, 6, 7, 8, 9, 10, 11, 12, 13, 14, 15, 16] ++ [17, 18, 19, 20] ++ le32 5)[i]?
  files := fun fd => if fd = 5 then some default else none
  free := [30]

/-- A process with a mapping of a page, and a node of its to send to. -/
def mappedState : State where
  procs := (∅ : Table ProcId Proc).insert 2
    { context := 0, creds := ⟨1, 0, none⟩, alloc := some (.new 4096 4096), receive := some fun _ => 0 }
  nodes := (∅ : Table NodeId Node).insert 3
    { proc := some 2, context := 0, ptr := 0, cookie := 0, acceptFds := true
      txnSecurityCtx := false }

def nestedTarget : Target := ⟨2, none, some 3, none⟩

def nestedData : TransactionData :=
  { dataSize := 112, offsetsSize := 24, buffer := 0, offsets := 112 }

/-- The buffer of a delivery, the fds installed, and then the payloads. -/
structure Delivery where
  offset : ℕ
  address : ℕ
  installed : List (ℕ × Bool) × Bool
  payloads : Option Bytes
  deriving DecidableEq

/-- A transaction from its allocation to the fds that the read installs. -/
def deliverNested : Run DirectGuest Failure Delivery := do
  let a ← onState (allocateBuffer nestedTarget nestedData (24 + secctxRoom none) false 1)
  let id ← onState (insertTxn nestedTarget nestedData a.offset none ⟨1, 0, none⟩ false)
  let m ← Prog.get
  let alloc ← Prog.expect .unwrap ((m.st.procs.lookup nestedTarget.proc).bind (·.alloc))
  copyTransaction 1 1 nestedTarget.proc id a.offset nestedData 24 none none
  let m ← Prog.get
  let fixups ← Prog.expect (.missing .txns) ((m.st.txns.lookup id).map (·.fdFixups))
  let installed ← installFixups nestedTarget.proc a.offset fixups []
  let m ← Prog.get
  return ⟨a.offset, alloc.userAddress a.offset, installed,
    (m.st.receive? nestedTarget.proc).map fun memory => memory.read (a.offset + 136) 24⟩

end Aim.Binder
