import Aim.Daemon.Wire

/-!
# Daemon — one encoding for each message

`decode` reads back what `encode` wrote, and accepts nothing else.  The readers of the parts invert
their encodings (`Codec.Inverts`); a message is its parts one after another, with the files of a
valid message read as one list (`entries`) and kept as four.

* `Receipt.fromBytes_toBytes`, `Receipt.toBytes_fromBytes`.
* `inverts_file`: a file has metadata or a receipt exactly if its class says so.
* `messages_have_one_encoding`: both messages.
-/

namespace Daemon

open Codec List

/-! ### Receipts -/

namespace Receipt

theorem length_toBytes (r : Receipt) : r.toBytes.length = 40 := by
  simp [toBytes, magic, r.length_generation]

theorem fromBytes_toBytes (r : Receipt) : fromBytes r.toBytes = some r := by
  have hlen := r.length_generation
  have hm : r.toBytes.take 8 = magic := rfl
  have hg : (r.toBytes.drop 8).take 16 = r.generation := by
    rw [toBytes, append_assoc, append_assoc, drop_left' (by rfl),
      take_left' hlen]
  have hc : (r.toBytes.drop 24).take 8 = putU64 r.cookie := by
    rw [toBytes, append_assoc, drop_left' (by simp [magic, hlen]),
      take_left' (length_putU64 _)]
  have hi : (r.toBytes.drop 32).take 8 = putU64 r.inode := by
    rw [toBytes, drop_left' (by simp [magic, hlen]), take_of_length_le (by simp)]
  rw [fromBytes, if_neg (by simp [length_toBytes, hm])]
  simp only [hg, hc, hi, ofNat_putU64]
  exact dif_pos ⟨hlen, r.generation_ne, r.cookie_ne, rfl⟩

theorem toBytes_fromBytes {bytes : Bytes} {r : Receipt} (h : fromBytes bytes = some r) :
    r.toBytes = bytes := by
  rw [fromBytes] at h
  split_ifs at h with hlen
  dsimp only at h
  split_ifs at h with hok
  obtain ⟨hlen, hm⟩ : bytes.length = 40 ∧ bytes.take 8 = magic := by simpa using hlen
  cases h
  have hinode := hok.2.2.2
  have hcut : ∀ n k, n + k ≤ 40 → ((bytes.drop n).take k).length = k := by
    intro n k hk
    rw [length_take, length_drop]
    omega
  rw [toBytes, inode, ← hinode, putU64_ofNat (hcut 24 8 (by decide)),
    putU64_ofNat (hcut 32 8 (by decide)), ← hm]
  have hsplit : ∀ n k, (bytes.drop n).take k ++ bytes.drop (n + k) = bytes.drop n := by
    intro n k
    rw [← drop_drop, take_append_drop]
  have hlast : (bytes.drop 32).take 8 = bytes.drop 32 :=
    take_of_length_le (by rw [length_drop]; omega)
  rw [hlast, append_assoc, append_assoc, hsplit 24 8, hsplit 8 16]
  exact hsplit 0 8

end Receipt

/-! ### Files -/

theorem inverts_flag : Inverts putFlag flag fun _ => True := by
  refine ⟨fun b _ rest => ?_, fun bs b rest hb => ?_⟩
  · cases b <;> rfl
  obtain ⟨v, mid, -, rfl, hf⟩ := (inverts_u32 EPROTO).bind_eq hb
  refine ⟨trivial, ?_⟩
  split_ifs at hf with h0 h1
  · cases hf
    rw [h0]
    rfl
  · cases hf
    rw [h1]
    rfl
  · cases hf

theorem inverts_metadata : Inverts RegularMetadata.encode RegularMetadata.decode fun _ => True := by
  refine ⟨fun m _ rest => ?_, fun bs m rest hb => ?_⟩
  · have hid : m.identity.1.length < 2 ^ 32 := by
      rw [m.identity.2]
      decide
    simp only [RegularMetadata.encode, append_assoc]
    rw [RegularMetadata.decode, (inverts_u64 EPROTO).bind_reads trivial,
      (inverts_u32 EPROTO).bind_reads trivial, (inverts_u32 EPROTO).bind_reads trivial,
      (inverts_counted EPROTO).bind_reads hid, dif_pos m.identity.2, inverts_flag.bind_reads trivial]
    rfl
  · obtain ⟨flags, mid₁, -, rfl, h₁⟩ := (inverts_u64 EPROTO).bind_eq hb
    obtain ⟨uid, mid₂, -, rfl, h₂⟩ := (inverts_u32 EPROTO).bind_eq h₁
    obtain ⟨gid, mid₃, -, rfl, h₃⟩ := (inverts_u32 EPROTO).bind_eq h₂
    obtain ⟨identity, mid₄, -, rfl, h₄⟩ := (inverts_counted EPROTO).bind_eq h₃
    split_ifs at h₄ with hid
    · obtain ⟨writer, mid₅, -, rfl, h₅⟩ := inverts_flag.bind_eq h₄
      obtain ⟨rfl, rfl⟩ := pure_exact h₅
      refine ⟨trivial, ?_⟩
      simp only [RegularMetadata.encode, append_assoc]
    · cases h₄

/-- What a file read off a message is. -/
def FileEntry.Ok (f : FileEntry) : Prop :=
  validClass f.fileClass = true ∧ (f.fileClass = regularFile ↔ f.regular.isSome = true) ∧
    (f.fileClass = socketScm ↔ f.socket.isSome = true)

/-- Metadata stands where the class says so. -/
theorem inverts_regular (c : UInt32) :
    Inverts (encodeRegular c) (decodeRegular c) fun m => c = regularFile ↔ m.isSome = true := by
  by_cases hc : c = regularFile
  · refine ⟨fun m hm rest => ?_, fun bs m rest hb => ?_⟩
    · obtain ⟨m, rfl⟩ := Option.isSome_iff_exists.1 (hm.1 hc)
      rw [encodeRegular, if_pos hc, decodeRegular, if_pos hc, map_eq_pure_bind]
      exact inverts_metadata.bind_reads trivial _ rest
    · rw [decodeRegular, if_pos hc, map_eq_pure_bind] at hb
      obtain ⟨m, mid, -, rfl, hp⟩ := inverts_metadata.bind_eq hb
      obtain ⟨rfl, rfl⟩ := pure_exact hp
      rw [encodeRegular, if_pos hc]
      exact ⟨iff_of_true hc rfl, rfl⟩
  · rw [decodeRegular, if_neg hc]
    refine (inverts_pure none).congr (fun m => ?_) fun m _ => if_neg hc
    rw [iff_false_left hc, Bool.not_eq_true, Option.isSome_eq_false_iff, Option.isNone_iff_eq_none]

/-- A receipt stands where the class says so. -/
theorem inverts_socket (c : UInt32) :
    Inverts (fun r : Option Receipt => (r.map fun r => putCounted r.toBytes).getD [])
      (decodeSocket c) fun r => c = socketScm ↔ r.isSome = true := by
  by_cases hc : c = socketScm
  · refine ⟨fun r hr rest => ?_, fun bs r rest hb => ?_⟩
    · obtain ⟨r, rfl⟩ := Option.isSome_iff_exists.1 (hr.1 hc)
      have hlen : r.toBytes.length < 2 ^ 32 := by
        rw [r.length_toBytes]
        decide
      rw [decodeSocket, if_pos hc, Option.map_some, Option.getD_some,
        (inverts_counted EPROTO).bind_reads hlen, r.fromBytes_toBytes]
      rfl
    · rw [decodeSocket, if_pos hc] at hb
      obtain ⟨bytes, mid, -, rfl, hf⟩ := (inverts_counted EPROTO).bind_eq hb
      cases hr : Receipt.fromBytes bytes with
      | none =>
        rw [hr] at hf
        cases hf
      | some r' =>
        rw [hr] at hf
        cases hf
        refine ⟨iff_of_true hc rfl, ?_⟩
        rw [Option.map_some, Option.getD_some, Receipt.toBytes_fromBytes hr]
  · rw [decodeSocket, if_neg hc]
    refine (inverts_pure none).congr (fun r => ?_) fun r hr => by rw [hr]; rfl
    rw [iff_false_left hc, Bool.not_eq_true, Option.isSome_eq_false_iff, Option.isNone_iff_eq_none]

theorem inverts_file : Inverts FileEntry.encode decodeFile FileEntry.Ok := by
  refine ⟨fun f hf rest => ?_, fun bs f rest hb => ?_⟩
  · simp only [FileEntry.encode, append_assoc]
    rw [decodeFile, (inverts_u32 EPROTO).bind_reads trivial,
      (inverts_u32 EPROTO).bind_reads trivial, if_neg (by simp [hf.1])]
    dsimp only
    rw [(inverts_regular _).bind_reads hf.2.1, (inverts_socket _).bind_reads hf.2.2]
    rfl
  · obtain ⟨fd, mid₁, -, rfl, h₁⟩ := (inverts_u32 EPROTO).bind_eq hb
    obtain ⟨fileClass, mid₂, -, rfl, h₂⟩ := (inverts_u32 EPROTO).bind_eq h₁
    split_ifs at h₂ with hc
    · cases h₂
    obtain ⟨regular, mid₃, hr, rfl, h₃⟩ := (inverts_regular _).bind_eq h₂
    obtain ⟨socket, mid₄, hs, rfl, h₄⟩ := (inverts_socket _).bind_eq h₃
    obtain ⟨rfl, rfl⟩ := pure_exact h₄
    refine ⟨⟨by simpa using hc, hr, hs⟩, ?_⟩
    simp only [FileEntry.encode, append_assoc]

/-! ### Four lists and one -/

@[simp] theorem length_entries (fds classes : List UInt32) (regular : List (Option RegularMetadata))
    (sockets : List (Option Receipt)) : (entries fds classes regular sockets).length = fds.length :=
  length_mapIdx

/-- The lists of the files. -/
theorem entries_map (es : List FileEntry) :
    entries (es.map FileEntry.fd) (es.map FileEntry.fileClass) (es.map FileEntry.regular)
      (es.map FileEntry.socket) = es := by
  refine ext_getElem (by simp) fun i h₁ h₂ => ?_
  simp [entries, h₂]

section Lists

variable {fds classes : List UInt32} {regular : List (Option RegularMetadata)}
  {sockets : List (Option Receipt)}

theorem validateMetadata_ok :
    validateMetadata classes regular sockets fds.length = .ok () ↔
      ∃ es : List FileEntry, fds = es.map FileEntry.fd ∧ classes = es.map FileEntry.fileClass ∧
        regular = es.map FileEntry.regular ∧ sockets = es.map FileEntry.socket ∧
        ∀ f ∈ es, fileOk f.fileClass f.regular f.socket = true := by
  constructor
  · intro h
    rw [validateMetadata] at h
    split_ifs at h with hlen hall
    obtain ⟨hc, hr, hs⟩ : classes.length = fds.length ∧ regular.length = fds.length ∧
        sockets.length = fds.length := by simpa using hlen
    refine ⟨entries fds classes regular sockets, ?_, ?_, ?_, ?_, fun f hf => ?_⟩
    · refine ext_getElem (by simp) fun i h₁ h₂ => ?_
      simp [entries]
    · refine ext_getElem (by simp [hc]) fun i h₁ h₂ => ?_
      simp [entries, h₁]
    · refine ext_getElem (by simp [hr]) fun i h₁ h₂ => ?_
      simp [entries, h₁]
    · refine ext_getElem (by simp [hs]) fun i h₁ h₂ => ?_
      simp [entries, h₁]
    · obtain ⟨i, hi, rfl⟩ := mem_iff_getElem.1 hf
      rw [length_entries] at hi
      have hi₁ : i < classes.length := hc ▸ hi
      have hi₂ : i < regular.length := hr ▸ hi
      have hi₃ : i < sockets.length := hs ▸ hi
      have hmem : ((classes[i], regular[i]), sockets[i]) ∈ (classes.zip regular).zip sockets := by
        refine mem_iff_getElem.2 ⟨i, by simp; omega, by simp⟩
      have hok := all_eq_true.1 hall _ hmem
      simpa [entries, hi₁, hi₂, hi₃] using hok
  · rintro ⟨es, rfl, rfl, rfl, rfl, hall⟩
    rw [validateMetadata, if_neg (by simp), if_pos]
    rw [all_eq_true]
    intro x hx
    rw [zip_map', zip_map'] at hx
    obtain ⟨f, hf, rfl⟩ := mem_map.1 hx
    exact hall f hf

end Lists

theorem FileEntry.ok_of_fileOk {f : FileEntry}
    (h : fileOk f.fileClass f.regular f.socket = true) : f.Ok := by
  rw [fileOk, Bool.and_eq_true, Bool.and_eq_true, Bool.and_eq_true, beq_iff_eq, beq_iff_eq] at h
  refine ⟨h.1.1.1, ?_, ?_⟩
  · rw [← h.1.1.2, decide_eq_true_eq]
  · rw [← h.1.2, decide_eq_true_eq]

/-! ### Messages -/

theorem inverts_segment : Inverts putSegment segment fun s => True ∧ s.2.length < 2 ^ 32 :=
  (inverts_u64 EPROTO).pair fun _ _ => inverts_counted EPROTO

theorem inverts_delivery : Inverts putDelivery delivery fun _ => True ∧ True :=
  (inverts_u64 EPROTO).pair fun _ _ => inverts_u64 EPROTO

theorem inverts_version : Inverts (fun _ => putU32 IOCTL_VERSION) version fun _ => True := by
  refine ⟨fun u _ rest => ?_, fun bs u rest hb => ?_⟩
  · rfl
  obtain ⟨v, mid, -, rfl, hf⟩ := (inverts_u32 EPROTO).bind_eq hb
  split_ifs at hf with hv
  · cases hf
  · cases hf
    rw [not_not.1 hv]
    exact ⟨trivial, rfl⟩

/-- The byte strings and lists of a message have fewer than `2 ^ 32` elements. -/
def Ioctl.Short (io : Ioctl) : Prop :=
  io.arg.length < 2 ^ 32 ∧
    (io.segments.length < 2 ^ 32 ∧ ∀ s ∈ io.segments, s.2.length < 2 ^ 32) ∧
    io.fds.length < 2 ^ 32 ∧ io.reserved.length < 2 ^ 32

def IoctlReply.Short (rep : IoctlReply) : Prop :=
  rep.arg.length < 2 ^ 32 ∧
    (rep.writes.length < 2 ^ 32 ∧ ∀ s ∈ rep.writes, s.2.length < 2 ^ 32) ∧
    rep.installs.length < 2 ^ 32 ∧ rep.closes.length < 2 ^ 32 ∧ rep.deliveries.length < 2 ^ 32

theorem inverts_ioctl :
    Inverts Ioctl.encode Ioctl.read fun io => io.validate = .ok () ∧ io.Short := by
  refine ⟨fun io hio rest => ?_, fun bs io rest hb => ?_⟩
  · obtain ⟨hv, harg, hsegs, hfds, hres⟩ := hio
    obtain ⟨es, h₁, h₂, h₃, h₄, hall⟩ := validateMetadata_ok.1 hv
    have hlen : es.length < 2 ^ 32 := by
      rwa [h₁, length_map] at hfds
    have hread : (putList FileEntry.encode (entries io.fds io.fileClasses io.regular io.sockets)) =
        putList FileEntry.encode es := by
      rw [h₁, h₂, h₃, h₄, entries_map]
    simp only [Ioctl.encode, hread, append_assoc]
    rw [Ioctl.read, inverts_version.bind_reads (a := ()) trivial,
      (inverts_u32 EPROTO).bind_reads trivial, (inverts_counted EPROTO).bind_reads harg,
      (inverts_segment.list EPROTO).bind_reads ⟨hsegs.1, fun s hs => ⟨trivial, hsegs.2 s hs⟩⟩,
      (inverts_file.list EPROTO).bind_reads ⟨hlen, fun f hf => (FileEntry.ok_of_fileOk (hall f hf))⟩,
      ((inverts_u32 EPROTO).list EPROTO).bind_reads ⟨hres, fun _ _ => trivial⟩,
      inverts_flag.bind_reads trivial]
    simp only [← h₁, ← h₂, ← h₃, ← h₄]
    rw [hv]
    rfl
  · obtain ⟨-, m₁, -, rfl, k₁⟩ := inverts_version.bind_eq hb
    obtain ⟨cmd, m₂, -, rfl, k₂⟩ := (inverts_u32 EPROTO).bind_eq k₁
    obtain ⟨arg, m₃, harg, rfl, k₃⟩ := (inverts_counted EPROTO).bind_eq k₂
    obtain ⟨segments, m₄, hsegs, rfl, k₄⟩ := (inverts_segment.list EPROTO).bind_eq k₃
    obtain ⟨files, m₅, hfiles, rfl, k₅⟩ := (inverts_file.list EPROTO).bind_eq k₄
    obtain ⟨reserved, m₆, hres, rfl, k₆⟩ := ((inverts_u32 EPROTO).list EPROTO).bind_eq k₅
    obtain ⟨grow, m₇, -, rfl, k₇⟩ := inverts_flag.bind_eq k₆
    obtain ⟨hv, rfl, rfl⟩ := checked_exact k₇
    refine ⟨⟨hv, harg, ⟨hsegs.1, fun s hs => (hsegs.2 s hs).2⟩, ?_, hres.1⟩, ?_⟩
    · rw [length_map]
      exact hfiles.1
    · simp only [Ioctl.encode, entries_map, append_assoc]

theorem inverts_ioctlReply :
    Inverts IoctlReply.encode IoctlReply.read fun rep => rep.validate = .ok () ∧ rep.Short := by
  refine ⟨fun rep hrep rest => ?_, fun bs rep rest hb => ?_⟩
  · obtain ⟨hv, harg, hwrites, hfds, hcloses, hdel⟩ := hrep
    obtain ⟨es, h₁, h₂, h₃, h₄, hall⟩ := validateMetadata_ok.1 hv
    have hlen : es.length < 2 ^ 32 := by
      rwa [h₁, length_map] at hfds
    have hread : (putList FileEntry.encode
        (entries rep.installs rep.fileClasses rep.regular rep.sockets)) =
        putList FileEntry.encode es := by
      rw [h₁, h₂, h₃, h₄, entries_map]
    simp only [IoctlReply.encode, hread, append_assoc]
    rw [IoctlReply.read, inverts_version.bind_reads (a := ()) trivial,
      (inverts_u32 EPROTO).bind_reads trivial, (inverts_counted EPROTO).bind_reads harg,
      (inverts_segment.list EPROTO).bind_reads
        ⟨hwrites.1, fun s hs => ⟨trivial, hwrites.2 s hs⟩⟩,
      (inverts_file.list EPROTO).bind_reads ⟨hlen, fun f hf => (FileEntry.ok_of_fileOk (hall f hf))⟩,
      ((inverts_u32 EPROTO).list EPROTO).bind_reads ⟨hcloses, fun _ _ => trivial⟩,
      (inverts_u32 EPROTO).bind_reads trivial, (inverts_u32 EPROTO).bind_reads trivial,
      (inverts_delivery.list EPROTO).bind_reads ⟨hdel, fun _ _ => ⟨trivial, trivial⟩⟩]
    simp only [← h₁, ← h₂, ← h₃, ← h₄]
    change ((liftM rep.validate : Reader ℕ Unit) >>= fun _ => pure rep) rest = _
    rw [hv]
    rfl
  · obtain ⟨-, m₁, -, rfl, k₁⟩ := inverts_version.bind_eq hb
    obtain ⟨status, m₂, -, rfl, k₂⟩ := (inverts_u32 EPROTO).bind_eq k₁
    obtain ⟨arg, m₃, harg, rfl, k₃⟩ := (inverts_counted EPROTO).bind_eq k₂
    obtain ⟨writes, m₄, hwrites, rfl, k₄⟩ := (inverts_segment.list EPROTO).bind_eq k₃
    obtain ⟨files, m₅, hfiles, rfl, k₅⟩ := (inverts_file.list EPROTO).bind_eq k₄
    obtain ⟨closes, m₆, hcloses, rfl, k₆⟩ := ((inverts_u32 EPROTO).list EPROTO).bind_eq k₅
    obtain ⟨drain, m₇, -, rfl, k₇⟩ := (inverts_u32 EPROTO).bind_eq k₆
    obtain ⟨wantFds, m₈, -, rfl, k₈⟩ := (inverts_u32 EPROTO).bind_eq k₇
    obtain ⟨deliveries, m₉, hdel, rfl, k₉⟩ := (inverts_delivery.list EPROTO).bind_eq k₈
    obtain ⟨hv, rfl, rfl⟩ := checked_exact k₉
    refine ⟨⟨hv, harg, ⟨hwrites.1, fun s hs => (hwrites.2 s hs).2⟩, ?_, hcloses.1, hdel.1⟩, ?_⟩
    · rw [length_map]
      exact hfiles.1
    · simp only [IoctlReply.encode, entries_map, append_assoc]
      rfl

/-- A message of another version is refused. -/
theorem version_refused {α : Type} {f : Unit → Reader ℕ α} {v : UInt32} (hv : v ≠ IOCTL_VERSION)
    (b : Bytes) : whole EPROTO (version >>= f) (putU32 v ++ b) = .error EPROTO := by
  have hthrow : version (putU32 v ++ b) = .error EPROTO := by
    rw [version, (inverts_u32 EPROTO).bind_reads trivial, if_pos hv]
    rfl
  change ((version (putU32 v ++ b) >>= fun p => f p.1 p.2) >>= _) = _
  rw [hthrow]
  rfl

/-- **Messages have one encoding each.**  A valid message is read back from what it is encoded as,
and what is read is valid and encoded as it was; longer, shorter and other versions are refused. -/
theorem messages_have_one_encoding :
    Exact Ioctl.encode Ioctl.decode (fun io => io.validate = .ok () ∧ io.Short) ∧
      Exact IoctlReply.encode IoctlReply.decode (fun rep => rep.validate = .ok () ∧ rep.Short) ∧
      ∀ v : UInt32, v ≠ IOCTL_VERSION → ∀ b, Ioctl.decode (putU32 v ++ b) = .error EPROTO ∧
        IoctlReply.decode (putU32 v ++ b) = .error EPROTO :=
  ⟨inverts_ioctl.exact EPROTO, inverts_ioctlReply.exact EPROTO,
    fun _ hv b => ⟨version_refused hv b, version_refused hv b⟩⟩

/-- A regular file and a socket, with its receipt. -/
def sampleIoctl : Ioctl where
  cmd := 0xc0306201
  arg := [1, 2]
  segments := [(0x7000, [3]), (0x8000, [])]
  fds := [4, 9]
  fileClasses := [regularFile, socketScm]
  regular := [some ⟨2, 10001, 10001, ⟨List.replicate 36 6, rfl⟩, true⟩, none]
  sockets := [none, some ⟨List.replicate 16 1, 77, rfl, by decide, by decide⟩]
  reserved := [12]
  grow := true

/-- It is read back, with a byte more or less it is refused, and so it is as the last version's. -/
theorem messages_have_one_encoding_of_two_files :
    Ioctl.decode sampleIoctl.encode = .ok sampleIoctl ∧
      (∀ io, Ioctl.decode (sampleIoctl.encode ++ [0]) ≠ .ok io) ∧
      (∀ io, Ioctl.decode sampleIoctl.encode.dropLast ≠ .ok io) ∧
      Ioctl.decode (putU32 4 ++ sampleIoctl.encode.drop 4) = .error EPROTO := by
  obtain ⟨hio, -, hversion⟩ := messages_have_one_encoding
  have hok : sampleIoctl.validate = .ok () ∧ sampleIoctl.Short :=
    ⟨by decide, by decide, ⟨by decide, by decide⟩, by decide, by decide⟩
  have hne : sampleIoctl.encode ≠ [] := by decide
  exact ⟨hio.decode_encode _ hok, hio.extended _ _ hok (by decide),
    hio.truncated _ _ _ hok (dropLast_append_getLast hne).symm (by simp),
    (hversion 4 (by decide) _).1⟩

end Daemon
