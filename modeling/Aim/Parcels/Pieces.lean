import Aim.Parcels.Parcel

/-!
# Parcels — Pieces

What a writer adds to a parcel does not depend on the parcel, and what a reader makes of a span does
not depend on where the span is.

* `Parcel.append`: a parcel after another, its objects and files shifted to their new places.
* `Appends f q`: the writer `f` adds the piece `q`.
* `Reads m a bytes objects`: the reader `m` makes `a` of `bytes`, wherever they are, if `objects` are
  the objects recorded among them.
-/

namespace Text

theorem fromUtf16_units (c : Char) (us : List ℕ) :
    fromUtf16 (units c ++ us) = (fromUtf16 us).map (c :: ·) := by
  have hc := toNat_char c
  rw [units]
  split_ifs with h
  · have hs : ¬ (0xd800 ≤ c.toNat ∧ c.toNat < 0xe000) := by omega
    cases us with
    | nil => simp [fromUtf16, hs, Char.ofNat_toNat]
    | cons v us =>
      have hs' : ¬ (0xd800 ≤ c.toNat ∧ c.toNat < 0xdc00 ∧ 0xdc00 ≤ v ∧ v < 0xe000) := by omega
      rw [List.cons_append, List.nil_append, fromUtf16, if_neg hs', if_neg hs, Char.ofNat_toNat]
  · have hn : 0x10000 + (0xd800 + (c.toNat - 0x10000) / 0x400 - 0xd800) * 0x400 +
        (0xdc00 + (c.toNat - 0x10000) % 0x400 - 0xdc00) = c.toNat := by omega
    rw [List.cons_append, List.cons_append, List.nil_append, fromUtf16, if_pos (by omega), hn,
      Char.ofNat_toNat]

theorem fromUtf16_utf16 (s : Text) : fromUtf16 (utf16 s) = some s := by
  induction s with
  | nil => rfl
  | cons c s ih =>
    rw [utf16_cons, fromUtf16_units, ih]
    rfl

theorem utf16_lt {s : Text} {u : ℕ} (hu : u ∈ utf16 s) : u < 0x10000 := by
  induction s with
  | nil => cases hu
  | cons c s ih =>
    have hc := toNat_char c
    rw [utf16_cons, List.mem_append] at hu
    rcases hu with hu | hu
    · rw [units] at hu
      split_ifs at hu with h
      · rw [List.mem_singleton] at hu
        omega
      · simp only [List.mem_cons, List.not_mem_nil, or_false] at hu
        omega
    · exact ih hu

end Text

namespace Parcels

open Codec

/-! ### Padding -/

theorem dvd_padded (n : ℕ) : 4 ∣ padded n := ⟨_, Nat.mul_comm _ _⟩

theorem le_padded (n : ℕ) : n ≤ padded n := by
  unfold padded
  omega

@[simp] theorem length_fill (b : Bytes) : (fill b).length = padded b.length := by
  have hb := le_padded b.length
  rw [fill, List.length_append, List.length_replicate]
  omega

variable {n : ℕ}

theorem padded_of_dvd (hn : 4 ∣ n) : padded n = n := by
  unfold padded
  omega

variable {b : Bytes}

theorem fill_of_dvd (hb : 4 ∣ b.length) : fill b = b := by
  rw [fill, padded_of_dvd hb, Nat.sub_self]
  exact List.append_nil b

/-- Padding what follows whole words. -/
theorem fill_append {a : Bytes} (ha : 4 ∣ a.length) (b : Bytes) : fill (a ++ b) = a ++ fill b := by
  have hpad : padded (a.length + b.length) - (a.length + b.length) =
      padded b.length - b.length := by
    unfold padded
    omega
  rw [fill, fill, List.length_append, hpad, List.append_assoc]

/-! ### Appending -/

namespace Parcel

variable {F : Type} {p q : Parcel F}

/-- The second parcel after the first. -/
def append (p q : Parcel F) : Parcel F where
  data := p.data ++ q.data
  objects := p.objects ++ q.objects.map (p.data.length + ·)
  files := p.files ++ q.files.map fun f => (p.data.length + f.1, f.2)

@[simp] theorem append_data (p q : Parcel F) : (p.append q).data = p.data ++ q.data := rfl

theorem append_assoc (p q r : Parcel F) : (p.append q).append r = p.append (q.append r) := by
  simp [append, Nat.add_assoc, Function.comp_def]

theorem append_empty (p : Parcel F) : p.append {} = p := by simp [append]

theorem empty_append (p : Parcel F) : append {} p = p := by simp [append]

/-- What every writer keeps: the parcel is whole words, and its objects are in it. -/
structure Sound (p : Parcel F) : Prop where
  aligned : 4 ∣ p.data.length
  inside : ∀ o ∈ p.objects, o < p.data.length

theorem sound_empty : ({} : Parcel F).Sound := ⟨⟨0, rfl⟩, fun _ h => nomatch h⟩

theorem Sound.append (hp : p.Sound) (hq : q.Sound) : (p.append q).Sound where
  aligned := by
    rw [append_data, List.length_append]
    exact Nat.dvd_add hp.aligned hq.aligned
  inside := by
    intro o ho
    rw [append_data, List.length_append]
    rcases List.mem_append.1 ho with ho | ho
    · exact Nat.lt_add_right _ (hp.inside o ho)
    · obtain ⟨o', ho', rfl⟩ := List.mem_map.1 ho
      exact Nat.add_lt_add_left (hq.inside o' ho') _

end Parcel

open Parcel

variable {F : Type}

/-- The writer adds the piece `q` to every parcel. -/
structure Appends (f : Parcel F → Parcel F) (q : Parcel F) : Prop where
  sound : q.Sound
  eq : ∀ p : Parcel F, 4 ∣ p.data.length → f p = p.append q

namespace Appends

variable {f g : Parcel F → Parcel F} {q r : Parcel F}

theorem comp (hf : Appends f q) (hg : Appends g r) : Appends (fun p => g (f p)) (q.append r) where
  sound := hf.sound.append hg.sound
  eq p hp := by
    have hfp : 4 ∣ (p.append q).data.length := by
      rw [append_data, List.length_append]
      exact Nat.dvd_add hp hf.sound.aligned
    rw [hf.eq p hp, hg.eq _ hfp, append_assoc]

/-- Whole words. -/
theorem extend (hb : 4 ∣ b.length) : Appends (F := F) (·.extend b) { data := b } where
  sound := ⟨hb, fun _ h => nomatch h⟩
  eq p _ := by simp [Parcel.extend, Parcel.append]

theorem i32 (v : Int32) : Appends (F := F) (·.writeI32 v) { data := putU32 v.toUInt32 } :=
  extend ⟨1, length_putU32 _⟩

/-- Bytes and their padding. -/
theorem extend_pad (b : Bytes) : Appends (F := F) (fun p => (p.extend b).pad) { data := fill b } where
  sound := by
    refine ⟨?_, fun _ h => nomatch h⟩
    rw [length_fill]
    exact dvd_padded _
  eq p hp := by simp [pad, Parcel.extend, Parcel.append, fill_append hp]

/-- A raw span, if its objects are in it. -/
theorem raw {objects : List ℕ} (h : ∀ o ∈ objects, o < b.length) :
    Appends (F := F) (·.writeRaw b objects) { data := fill b, objects } where
  sound := by
    refine ⟨?_, fun o ho => ?_⟩
    · rw [length_fill]
      exact dvd_padded _
    · rw [length_fill]
      exact Nat.lt_of_lt_of_le (h o ho) (le_padded _)
  eq p hp := by simp [writeRaw, writeRawFiles, pad, Parcel.append, fill_append hp]

end Appends

/-! ### Reading a span -/

/-- The reader makes `a` of `bytes`, and goes past them, wherever they are. -/
def Reads {α : Type} (m : Read α) (a : α) (bytes : Bytes) (objects : List ℕ) : Prop :=
  ∀ (pre post : Bytes) (recorded : List ℕ),
    among recorded pre.length (pre.length + bytes.length) = objects →
      m ⟨pre ++ (bytes ++ post), recorded, pre.length⟩ =
        .ok (a, ⟨pre ++ (bytes ++ post), recorded, pre.length + bytes.length⟩)

variable {α β : Type}

variable {m : Read α} {f : α → Read β} {a : α}

theorem bind_ok {r r' : Reader} (h : m r = .ok (a, r')) : (m >>= f) r = f a r' := by
  change (m r >>= fun p => f p.1 p.2) = _
  rw [h]
  rfl

theorem get_bind (f : Reader → Read α) (r : Reader) : (get >>= f) r = f r r := rfl

variable {recorded o o' : List ℕ} {start : ℕ}

/-- The objects among the first bytes. -/
theorem among_left {m : ℕ} (ho : ∀ x ∈ o, x < n)
    (h : among recorded start (start + (n + m)) = o ++ o'.map (n + ·)) :
    among recorded start (start + n) = o := by
  have hf : (among recorded start (start + (n + m))).filter (· < n) =
      among recorded start (start + n) := by
    rw [among, List.filter_map, List.filter_filter]
    congr 1
    apply List.filter_congr
    simp only [Function.comp_apply, ← Bool.decide_and, decide_eq_decide]
    omega
  rw [← hf, h, List.filter_append, List.filter_eq_self.2 (by simpa using ho),
    List.filter_eq_nil_iff.2, List.append_nil]
  intro x hx
  obtain ⟨y, -, rfl⟩ := List.mem_map.1 hx
  simp

/-- The objects among the bytes that follow. -/
theorem among_right {m : ℕ} (ho : ∀ x ∈ o, x < n)
    (h : among recorded start (start + (n + m)) = o ++ o'.map (n + ·)) :
    among recorded (start + n) (start + n + m) = o' := by
  have hf : ((among recorded start (start + (n + m))).filter (n ≤ ·)).map (· - n) =
      among recorded (start + n) (start + n + m) := by
    rw [among, List.filter_map, List.filter_filter, List.map_map]
    have hfl : recorded.filter (fun x => decide (n ≤ x - start) &&
        decide (start ≤ x ∧ x < start + (n + m))) =
        recorded.filter fun x => decide (start + n ≤ x ∧ x < start + n + m) := by
      apply List.filter_congr
      simp only [← Bool.decide_and, decide_eq_decide]
      omega
    simp only [Function.comp_def, hfl]
    apply List.map_congr_left
    omega
  rw [← hf, h, List.filter_append, List.filter_eq_nil_iff.2, List.nil_append,
    List.filter_eq_self.2]
  · simp [Function.comp_def]
  · intro x hx
    obtain ⟨y, -, rfl⟩ := List.mem_map.1 hx
    simp
  · intro x hx
    have := ho x hx
    simp only [decide_eq_true_eq]
    omega

theorem among_self (h : ∀ o ∈ recorded, o < n) : among recorded 0 (0 + n) = recorded := by
  rw [among, List.filter_eq_self.2]
  · exact List.map_id' recorded
  · intro o ho
    have := h o ho
    simp only [decide_eq_true_eq]
    omega

theorem among_past (h : ∀ o ∈ recorded, o < start) (stop : ℕ) : among recorded start stop = [] := by
  rw [among, List.filter_eq_nil_iff.2]
  · rfl
  · intro o ho
    have := h o ho
    simp only [decide_eq_true_eq]
    omega

section Among

variable {p q r : Parcel F}

theorem among_append (hp : p.Sound) (hq : q.Sound) :
    among (p.append q).objects 0 (0 + (p.data.length + q.data.length)) =
      p.objects ++ q.objects.map (p.data.length + ·) := by
  have h := among_self (hp.append hq).inside
  rwa [append_data, List.length_append] at h

theorem among_append_left (hp : p.Sound) (hq : q.Sound) :
    among (p.append q).objects 0 (0 + p.data.length) = p.objects :=
  among_left hp.inside (among_append hp hq)

theorem among_append_right (hp : p.Sound) (hq : q.Sound) :
    among (p.append q).objects p.data.length (p.data.length + q.data.length) = q.objects := by
  have h := among_right hp.inside (among_append hp hq)
  rwa [Nat.zero_add] at h

theorem among_append_mid (hp : p.Sound) (hq : q.Sound) (hr : r.Sound) :
    among (p.append (q.append r)).objects p.data.length (p.data.length + q.data.length) =
      q.objects := by
  have h := among_append_right hp (hq.append hr)
  rw [append_data, List.length_append] at h
  exact among_left hq.inside h

end Among

namespace Reads

theorem pure (a : α) : Reads (Pure.pure a) a [] [] := fun _ _ _ _ => rfl

variable {c : β}

/-- One reader after another. -/
theorem bind {b' : Bytes} (ho : ∀ x ∈ o, x < b.length) (hm : Reads m a b o)
    (hf : Reads (f a) c b' o') : Reads (m >>= f) c (b ++ b') (o ++ o'.map (b.length + ·)) := by
  intro pre post recorded h
  rw [List.length_append] at h
  have hm' := hm pre (b' ++ post) recorded (among_left ho h)
  have hf' := hf (pre ++ b) post recorded
    (by simpa [Nat.add_assoc] using among_right ho h)
  simp only [List.append_assoc, List.length_append, Nat.add_assoc] at hm' hf' ⊢
  rw [bind_ok hm']
  exact hf'

/-- Where no objects are. -/
theorem bind_plain {b' : Bytes}
    (hm : Reads m a b []) (hf : Reads (f a) c b' []) : Reads (m >>= f) c (b ++ b') [] :=
  bind (o := []) (fun _ h => nomatch h) hm hf

/-- After a step that reads nothing. -/
theorem bind_nil (hm : Reads m a [] []) (hf : Reads (f a) c b []) : Reads (m >>= f) c b [] :=
  bind_plain hm hf

theorem map (hm : Reads m a b o) (g : α → β) : Reads (do let x ← m; Pure.pure (g x)) (g a) b o := by
  intro pre post recorded h
  rw [bind_ok (hm pre post recorded h)]
  rfl

/-- `take` of bytes that are padded. -/
theorem take_fill (b : Bytes) (o : List ℕ) : Reads (take b.length) b (fill b) o := by
  intro pre post recorded _
  have hb := le_padded b.length
  have hfit : ¬ (pre ++ (fill b ++ post)).length - pre.length < max (padded b.length) b.length := by
    simp only [List.length_append, length_fill]
    omega
  have hlen : ¬ (pre ++ (fill b ++ post)).length < pre.length + b.length := by
    simp only [List.length_append, length_fill]
    omega
  have hdrop : ((pre ++ (fill b ++ post)).drop pre.length).take b.length = b := by
    rw [List.drop_left, fill, List.append_assoc, List.take_left]
  change (if _ < _ then _ else _ : Read Bytes) _ = _
  rw [Reader.remaining, if_neg hfit, if_neg hlen]
  change Except.ok (((pre ++ (fill b ++ post)).drop pre.length).take b.length, _) = _
  rw [hdrop, length_fill]

/-- `take` of whole words. -/
theorem take_words (hb : 4 ∣ b.length) (o : List ℕ) : Reads (take b.length) b b o := by
  have h := take_fill b o
  rwa [fill_of_dvd hb] at h

theorem i32 (v : Int32) (o : List ℕ) : Reads readI32 v (putU32 v.toUInt32) o := by
  have h : Reads (take 4) _ (putU32 v.toUInt32) o := take_words ⟨1, length_putU32 _⟩ o
  have hv := h.map fun b => (UInt32.ofNat (Bytes.toNat b)).toInt32
  rwa [ofNat_putU32] at hv

theorem u32 (v : UInt32) (o : List ℕ) : Reads readU32 v (putU32 v) o := by
  have h := (i32 v.toInt32 o).map Int32.toUInt32
  rwa [UInt32.toUInt32_toInt32] at h

theorem i64 (v : Int64) (o : List ℕ) : Reads readI64 v (putU64 v.toUInt64) o := by
  have h : Reads (take 8) _ (putU64 v.toUInt64) o := take_words ⟨2, length_putU64 _⟩ o
  have hv := h.map fun b => (UInt64.ofNat (Bytes.toNat b)).toInt64
  rwa [ofNat_putU64] at hv

end Reads

end Parcels
