import Aim.Fsverity.Tree

/-!
# Fsverity — the tree that is built

`build` leaves the Merkle tree of the data in the metadata file, whatever the file had before, or is
interrupted.

* `levels_ok`: the spans of the levels are laid out as `Merkle.Laid` says.
* `leaves_ends`, `pad_ends`, `nodes_up`, `levelLoop_ends`: what the loops leave in the file, the
  levels as `Merkle.Holds` says.
* `climb_ok`: the chain of every data block ends at the root.
* `climb_root`: a chain that ends there starts at the hash of its place, unless hashes collide.
* `fromBytes_describe`: the descriptor is read back.
* `build_verifies`: all of it, as `Verified` has it.
* `only_own_blocks_verify`: no other block's chain ends at the root, unless hashes collide.
-/

namespace Fsverity

open List Merkle Nat Memory

open Prog (wp wp_mono wp_bind wp_pure)
open Merkle (Laid Holds)

variable {sha : Sha} {interrupted : ℕ → Bool} {data : Bytes} {T : ℕ} {o : BuildOptions}

/-! ### Options -/

/-- What `BuildOptions::new` accepts, for pages and blocks of 64 KiB. -/
structure Valid (o : BuildOptions) : Prop where
  algorithm : o.algorithm = 1 ∨ o.algorithm = 2
  block : ∃ k, 10 ≤ k ∧ k ≤ 16 ∧ o.blockSize = 2 ^ k
  salt : o.salt.length ≤ 32

theorem digestSize_eq (o : BuildOptions) : o.digestSize = 32 ∨ o.digestSize = 64 := by
  rw [BuildOptions.digestSize]
  split_ifs
  · exact .inl rfl
  · exact .inr rfl

theorem digestSize_pos (o : BuildOptions) : 0 < o.digestSize := by
  rcases digestSize_eq o with h | h <;> rw [h] <;> decide

@[simp] theorem length_hash (b : Bytes) : (o.hash sha b).length = o.digestSize := by
  unfold BuildOptions.hash BuildOptions.digestSize
  by_cases h : o.algorithm = 1
  · simp only [if_pos h]
    exact sha.length256 _
  · simp only [if_neg h]
    exact sha.length512 _

namespace Valid

variable (hv : Valid o)

include hv

theorem new_ok : BuildOptions.new o.algorithm o.blockSize o.salt 65536 65536 = .ok o := by
  obtain ⟨k, hk, hk', hb⟩ := hv.block
  have hpow : isPowerOfTwo o.blockSize = true := by
    rw [hb, isPowerOfTwo, log2_two_pow, beq_self_eq_true]
  have hle : 2 ^ 10 ≤ o.blockSize := by
    rw [hb]
    exact Nat.pow_le_pow_right (by decide) hk
  have hge : o.blockSize ≤ 2 ^ 16 := by
    rw [hb]
    exact Nat.pow_le_pow_right (by decide) hk'
  have hok : ¬ (¬ (o.algorithm = 1 ∨ o.algorithm = 2) ∨ isPowerOfTwo o.blockSize = false ∨
      o.blockSize < 1024 ∨ min 65536 65536 < o.blockSize) := by
    rintro (h | h | h | h)
    · exact h hv.algorithm
    · rw [hpow] at h
      cases h
    · omega
    · omega
  rw [BuildOptions.new, if_neg (not_lt.2 hv.salt), if_neg hok]

/-- A block has room for 16 hashes or more, -/
theorem fanout_lt : 1 < o.fanout := by
  obtain ⟨k, hk, -, hb⟩ := hv.block
  have hle : 2 ^ 10 ≤ o.blockSize := by
    rw [hb]
    exact Nat.pow_le_pow_right (by decide) hk
  have hd := digestSize_eq o
  refine lt_of_lt_of_le (by decide : 1 < 16) ((le_div_iff_mul_le (digestSize_pos o)).2 ?_)
  rcases hd with hd | hd <;> rw [hd] <;> omega

/-- and no room left. -/
theorem block_eq : o.blockSize = o.fanout * o.digestSize := by
  obtain ⟨k, hk, -, hb⟩ := hv.block
  have hdvd : o.digestSize ∣ o.blockSize := by
    rw [hb]
    rcases digestSize_eq o with hd | hd <;> rw [hd]
    · exact pow_dvd_pow 2 (by omega : 5 ≤ k)
    · exact pow_dvd_pow 2 (by omega : 6 ≤ k)
  exact (Nat.div_mul_cancel hdvd).symm

theorem block_pos : 0 < o.blockSize := by
  rw [hv.block_eq]
  exact mul_pos (by have := hv.fanout_lt; omega) (digestSize_pos o)

end Valid

/-! ### Levels -/

/-- The size of the levels of a tree over `n` hashes. -/
def treeSize (b f n : ℕ) : ℕ :=
  if 1 < f ∧ 1 < n then treeSize b f (divCeil n f) + divCeil n f * b else 0
termination_by n
decreasing_by exact Merkle.blocks_lt (by omega) (by omega)

theorem treeSize_step {b f n : ℕ} (hf : 1 < f) (hn : 1 < n) :
    treeSize b f n = treeSize b f (divCeil n f) + divCeil n f * b := by
  rw [treeSize, if_pos ⟨hf, hn⟩]

theorem levelSizes_place {b f : ℕ} (hf : 1 < f) (n : ℕ) (h : treeSize b f n < 2 ^ 64) :
    ∃ sizes L, levelSizes b f n = .ok sizes ∧ place sizes = .ok (L, treeSize b f n) ∧
      Laid f b n L (treeSize b f n) := by
  induction n using Nat.strong_induction_on with
  | _ n ih =>
    by_cases hn : 1 < n
    · rw [treeSize_step hf hn] at h ⊢
      obtain ⟨sizes, L, hs, hp, hL⟩ := ih (divCeil n f) (blocks_lt hf hn) (by omega)
      refine ⟨divCeil n f * b :: sizes, (treeSize b f (divCeil n f), divCeil n f * b) :: L,
        ?_, ?_, hn, rfl, hL, rfl⟩
      · rw [levelSizes, if_pos ⟨hf, hn⟩]
        simp only [checkedMul, if_pos (show divCeil n f * b < 2 ^ 64 by omega), hs]
        rfl
      · rw [place, hp]
        change (checkedAdd (treeSize b f (divCeil n f)) (divCeil n f * b) >>= _) = _
        rw [checkedAdd, if_pos h]
        rfl
    · rw [levelSizes, treeSize, if_neg (by omega), if_neg (by omega)]
      exact ⟨[], [], rfl, rfl, by omega, rfl⟩

theorem levels_ok (hv : Valid o) {size : ℕ}
    (h : treeSize o.blockSize o.fanout (divCeil size o.blockSize) < 2 ^ 64) :
    ∃ L, levels size o = .ok L ∧ Laid o.fanout o.blockSize (divCeil size o.blockSize) L
      (treeSize o.blockSize o.fanout (divCeil size o.blockSize)) := by
  obtain ⟨sizes, L, hs, hp, hL⟩ := levelSizes_place hv.fanout_lt _ h
  refine ⟨L, ?_, hL⟩
  rw [levels, hs]
  change (place sizes >>= _) = _
  rw [hp]
  rfl

/-! ### Calls -/

/-- How a part of `build` may end: with what `Q` says, or interrupted. -/
def Ends (interrupted : ℕ → Bool) {α : Type} (x : Build α) (Q : α → State → Prop) (s : State) :
    Prop :=
  wp (fun _ _ => False) x Q (fun e _ => e = .linux EINTR ∧ ∃ k, interrupted k = true) s

namespace Ends

variable {α β : Type} {Q Q' : α → State → Prop} {s : State}

theorem mono {x : Build α} (h : Ends interrupted x Q s) (hQ : ∀ a s', Q a s' → Q' a s') :
    Ends interrupted x Q' s := wp_mono h hQ fun _ _ h => h

theorem bind {x : Build β} {f : β → Build α}
    (h : Ends interrupted x (fun b s' => Ends interrupted (f b) Q s') s) :
    Ends interrupted (x >>= f) Q s := (wp_bind x f).2 h

theorem lift {e : Except Error α} {a : α} (he : e = .ok a) (h : Q a s) :
    Ends interrupted (Build.lift e) Q s := by
  rw [he]
  exact h

/-- Either nothing is done, or the call is interrupted. -/
theorem check {Q : Unit → State → Prop} (h : Q () { s with calls := s.calls + 1 }) :
    Ends interrupted (Build.check interrupted) Q s := by
  refine bind (bind ?_)
  change Ends interrupted (if interrupted s.calls then _ else _) Q { s with calls := s.calls + 1 }
  split_ifs with hi
  · exact ⟨rfl, s.calls, hi⟩
  · exact h

theorem write {Q : Unit → State → Prop} {bytes : Bytes} {offset : ℕ} (hb : 0 < bytes.length)
    (ho : offset + bytes.length < 2 ^ 63) (h : Q () { s with tree := s.tree.write offset bytes }) :
    Ends interrupted (Build.write bytes offset) Q s := by
  have hw : writeAll s.tree bytes offset = .ok (s.tree.write offset bytes) := by
    rw [writeAll, if_neg (ne_nil_of_length_pos hb), if_neg (by omega)]
  exact bind (bind (lift hw h))

theorem read {Q : Bytes → State → Prop} {n offset : ℕ} (hn : 0 < n) (ho : offset + n < 2 ^ 63)
    (hl : offset + n ≤ s.tree.mem.len) (h : Q (s.tree.mem.read offset n) s) :
    Ends interrupted (Build.read n offset) Q s := by
  have hr : readExact s.tree.mem n offset = .ok (s.tree.mem.read offset n) := by
    rw [readExact, if_neg (by omega), if_neg (by omega), if_neg (by omega)]
  exact bind (lift hr h)

end Ends

/-! ### Data blocks -/

/-- A block of the data, filled up with zeros. -/
def block (data : Bytes) (b i : ℕ) : Bytes :=
  let part := (data.drop (i * b)).take b
  part ++ List.replicate (b - part.length) 0

/-- The hashes of the data blocks. -/
def leaves (sha : Sha) (o : BuildOptions) (data : Bytes) : List Bytes :=
  (List.range (divCeil data.length o.blockSize)).map fun i => o.hash sha (block data o.blockSize i)

@[simp] theorem length_leaves :
    (leaves sha o data).length = divCeil data.length o.blockSize := by simp [leaves]

theorem length_of_mem_leaves : ∀ x ∈ leaves sha o data, x.length = o.digestSize := by
  intro x hx
  obtain ⟨i, -, rfl⟩ := mem_map.1 hx
  exact length_hash _

theorem read_ofBytes {n offset : ℕ} (h : offset + n ≤ data.length) :
    (ofBytes data).read offset n = (data.drop offset).take n := by
  refine ext_getElem ?_ fun i h₁ h₂ => ?_
  · rw [length_read, length_take, length_drop]
    omega
  rw [length_read] at h₁
  rw [getElem_read, getElem_take, getElem_drop]
  change data.getD (offset + i) 0 = _
  rw [getD_eq_getElem?_getD, getElem?_eq_getElem (by omega)]
  rfl

/-- The buffer that a data block is read to. -/
theorem read_block {i : ℕ} (hi : i < divCeil data.length o.blockSize) (hb : 0 < o.blockSize)
    (hd : data.length < 2 ^ 63) :
    ∃ bytes, readExact (ofBytes data) (min (data.length - i * o.blockSize) o.blockSize)
        (i * o.blockSize) = .ok bytes ∧
      Build.buffer o bytes = block data o.blockSize i := by
  have hlt : i * o.blockSize < data.length := by
    have := div_mul_le_self (data.length + o.blockSize - 1) o.blockSize
    have hle : (i + 1) * o.blockSize ≤ divCeil data.length o.blockSize * o.blockSize :=
      mul_le_mul_right _ hi
    rw [succ_mul] at hle
    rw [divCeil] at hle
    omega
  refine ⟨(data.drop (i * o.blockSize)).take o.blockSize, ?_, rfl⟩
  rw [readExact, if_neg (by omega), if_neg (by omega), if_neg (by change ¬ data.length < _; omega),
    read_ofBytes (by omega)]
  congr 1
  rw [← length_drop, take_eq_take_iff]
  omega

/-! ### Writing hashes one after another -/

theorem read_push {f : File} {a n : ℕ} {xs y : Bytes} (h : f.mem.read a n = xs) :
    (f.write (a + n) y).mem.read a (n + y.length) = xs ++ y := by
  change (f.mem.write (a + n) y).read a (n + y.length) = _
  rw [read_add, read_write_ne (.inl (le_refl _)), h, read_write]

/-- One more hash. -/
theorem read_hash {f : File} {a d i : ℕ} {ds : List Bytes} {x : Bytes} (hx : ds[i]? = some x)
    (hd : x.length = d) (h : f.mem.read a (i * d) = (ds.take i).flatten) :
    (f.write (a + i * d) x).mem.read a ((i + 1) * d) = (ds.take (i + 1)).flatten := by
  have htake : ds.take (i + 1) = ds.take i ++ [x] := by
    rw [take_add_one, hx]
    rfl
  subst hd
  rw [succ_mul, read_push h, htake, flatten_append, flatten_singleton]

theorem wrap_eq {n : ℕ} (h : n < 2 ^ 64) : Build.wrap n = n := mod_eq_of_lt h

/-- The first level gets the hashes of the data blocks. -/
theorem leaves_ends (hv : Valid o) (hd : data.length < 2 ^ 63) {first : ℕ}
    (hT : T + first + divCeil data.length o.blockSize * o.digestSize < 2 ^ 63) (s : State) :
    Ends interrupted ((List.range (divCeil data.length o.blockSize)).forM
        (Build.leaf sha interrupted data T o first))
      (fun _ s' => s'.tree.mem.read (T + first) (divCeil data.length o.blockSize * o.digestSize) =
          (leaves sha o data).flatten ∧
        (divCeil data.length o.blockSize = 0 ∨
          T + first + divCeil data.length o.blockSize * o.digestSize ≤ s'.tree.mem.len)) s := by
  refine .mono (Q := fun _ s' => _) (Prog.wp_forM_range
    (fun i s => s.tree.mem.read (T + first) (i * o.digestSize) =
        ((leaves sha o data).take i).flatten ∧
      (i = 0 ∨ T + first + i * o.digestSize ≤ s.tree.mem.len)) _ ?_ ?_) ?_
  · rintro i s hi ⟨hread, hlen⟩
    obtain ⟨bytes, hbytes, hblock⟩ := read_block (o := o) hi hv.block_pos hd
    have hle : (i + 1) * o.digestSize ≤ divCeil data.length o.blockSize * o.digestSize :=
      mul_le_mul_right _ hi
    have hadd : (i + 1) * o.digestSize = i * o.digestSize + o.digestSize := succ_mul i _
    have hpos := digestSize_pos o
    refine Ends.bind (Ends.check (Ends.bind (Ends.lift hbytes ?_)))
    rw [hblock, wrap_eq (by omega)]
    have hleaf : (leaves sha o data)[i]? = some (o.hash sha (block data o.blockSize i)) := by
      simp [leaves, hi]
    refine Ends.write (by rw [length_hash]; exact hpos) (by rw [length_hash]; omega) ⟨?_, .inr ?_⟩
    · exact read_hash hleaf (length_hash _) hread
    · change _ ≤ max s.tree.mem.len _
      rw [length_hash]
      omega
  · exact ⟨by simp [Memory.read], .inl rfl⟩
  · rintro _ s' ⟨hread, hlen⟩
    rw [take_of_length_le (by rw [length_leaves])] at hread
    exact ⟨hread, hlen⟩

/-! ### Levels of the tree -/

section Level

variable {ds : List Bytes} {offset length : ℕ} {s : State}

/-- From `a` on, the file has the bytes it had. -/
def Above (a : ℕ) (f f' : File) : Prop :=
  f.mem.len ≤ f'.mem.len ∧ ∀ x, a ≤ x → f'.mem.byte x = f.mem.byte x

section Above

variable {a a' n : ℕ} {f f' f'' : File}

theorem Above.refl : Above a f f := ⟨le_refl _, fun _ _ => rfl⟩

theorem Above.trans (h : Above a f f') (h' : Above a f' f'') : Above a f f'' :=
  ⟨le_trans h.1 h'.1, fun x hx => (h'.2 x hx).trans (h.2 x hx)⟩

theorem Above.mono (h : Above a f f') (ha : a ≤ a') : Above a' f f' :=
  ⟨h.1, fun x hx => h.2 x (le_trans ha hx)⟩

theorem Above.read (h : Above a f f') (ha : a ≤ a') : f'.mem.read a' n = f.mem.read a' n :=
  Memory.Agree.read fun x hx _ => h.2 x (le_trans ha hx)

theorem above_write {bytes : Bytes} (h : n + bytes.length ≤ a) : Above a f (f.write n bytes) :=
  ⟨le_max_left _ _, fun _ hx => byte_write_ne (.inr (le_trans h hx))⟩

end Above

/-- After the padding the level is whole. -/
theorem pad_ends (hv : Valid o) (hlength : length = blocks o.fanout ds.length * o.blockSize)
    (hT : T + offset + length < 2 ^ 63)
    (hread : s.tree.mem.read (T + offset) (ds.length * o.digestSize) = ds.flatten)
    (hlen : T + offset + ds.length * o.digestSize ≤ s.tree.mem.len) :
    Ends interrupted (Build.pad T o ds.length offset length)
      (fun _ s' => s'.tree.mem.read (T + offset) length = level o.fanout o.digestSize ds ∧
        T + offset + length ≤ s'.tree.mem.len ∧ Above (T + offset + length) s.tree s'.tree) s := by
  have hf := hv.fanout_lt
  have hle : ds.length * o.digestSize ≤ length := by
    rw [hlength, hv.block_eq]
    exact length_mul_le (by omega) _
  have hlevel : level o.fanout o.digestSize ds =
      ds.flatten ++ List.replicate (length - ds.length * o.digestSize) 0 := by
    rw [level, hlength, ← hv.block_eq]
  rw [Build.pad, hlevel]
  split_ifs with hpad
  · rw [wrap_eq (by omega)]
    refine .write (by rw [length_replicate]; exact hpad)
      (by rw [length_replicate]; omega) ⟨?_, ?_, ?_⟩
    · have hpush := read_push (y := List.replicate (length - ds.length * o.digestSize) 0) hread
      rwa [length_replicate, Nat.add_sub_cancel' hle] at hpush
    · change _ ≤ max _ (_ + (List.replicate _ _).length)
      rw [length_replicate]
      omega
    · refine above_write ?_
      rw [length_replicate]
      omega
  · have heq : length = ds.length * o.digestSize := by omega
    refine ⟨?_, ?_, Above.refl⟩
    · rw [heq, Nat.sub_self, hread, replicate_zero, append_nil]
    · rw [heq]
      exact hlen

/-- A block of the level is read as it is. -/
theorem read_node (hv : Valid o) {m : Memory} {i : ℕ} (hi : i < blocks o.fanout ds.length)
    (hlength : length = blocks o.fanout ds.length * o.blockSize)
    (hlevel : m.read (T + offset) length = level o.fanout o.digestSize ds) :
    i * o.blockSize + o.blockSize ≤ length ∧
      m.read (T + offset + i * o.blockSize) o.blockSize =
        node o.fanout o.digestSize (level o.fanout o.digestSize ds) i := by
  have hle : i * o.blockSize + o.blockSize ≤ length := by
    rw [hlength, ← succ_mul]
    exact mul_le_mul_right _ hi
  refine ⟨hle, ?_⟩
  rw [← read_part hle, hlevel, node, ← hv.block_eq]

/-- The last level is one block, whose hash is the root. -/
theorem nodes_root (hv : Valid o) (hone : blocks o.fanout ds.length = 1)
    (hlength : length = blocks o.fanout ds.length * o.blockSize) (hT : T + offset + length < 2 ^ 63)
    (hlevel : s.tree.mem.read (T + offset) length = level o.fanout o.digestSize ds)
    (hlen : T + offset + length ≤ s.tree.mem.len) (root : Bytes) :
    Ends interrupted ((List.range 1).foldlM (Build.node sha interrupted T o offset []) root)
      (fun r s' => up (o.hash sha) o.fanout o.digestSize ds = [r] ∧ s'.tree = s.tree) s := by
  have hpos := hv.block_pos
  refine .mono (Q := fun _ s' => _) (Prog.wp_foldlM_range
    (fun i r s' => s'.tree = s.tree ∧
      (i = 1 → up (o.hash sha) o.fanout o.digestSize ds = [r])) 1 ?_ ?_) ?_
  · rintro i r s' hi ⟨htree, -⟩
    obtain rfl : i = 0 := by omega
    obtain ⟨hle, hnode⟩ := read_node hv (by omega : 0 < _) hlength hlevel
    refine Ends.bind (Ends.check (Ends.bind ?_))
    rw [wrap_eq (by omega)]
    refine Ends.read hpos (by omega) ?_ ⟨htree, fun _ => ?_⟩
    · change _ ≤ s'.tree.mem.len
      rw [htree]
      omega
    · change _ = [o.hash sha (s'.tree.mem.read _ _)]
      rw [htree, hnode, up, hone]
      rfl
  · exact ⟨rfl, by simp⟩
  · rintro r s' ⟨htree, hr⟩
    exact ⟨hr rfl, htree⟩

/-- The hashes of the blocks of a level go to the one above. -/
theorem nodes_up (hv : Valid o) {next size : ℕ} {above : List (ℕ × ℕ)}
    (hoffset : offset = next + size) (hsize : blocks o.fanout ds.length * o.digestSize ≤ size)
    (hlength : length = blocks o.fanout ds.length * o.blockSize) (hT : T + offset + length < 2 ^ 63)
    (hlevel : s.tree.mem.read (T + offset) length = level o.fanout o.digestSize ds)
    (hlen : T + offset + length ≤ s.tree.mem.len) (root : Bytes) :
    Ends interrupted ((List.range (blocks o.fanout ds.length)).foldlM
        (Build.node sha interrupted T o offset ((next, size) :: above)) root)
      (fun _ s' => s'.tree.mem.read (T + next) (blocks o.fanout ds.length * o.digestSize) =
          (up (o.hash sha) o.fanout o.digestSize ds).flatten ∧
        Above (T + offset) s.tree s'.tree) s := by
  have hpos := hv.block_pos
  refine .mono (Q := fun _ s' => _) (Prog.wp_foldlM_range
    (fun i _ s' => s'.tree.mem.read (T + next) (i * o.digestSize) =
        ((up (o.hash sha) o.fanout o.digestSize ds).take i).flatten ∧
      Above (T + offset) s.tree s'.tree) _ ?_ ?_) ?_
  · rintro i r s' hi ⟨hread, habove⟩
    obtain ⟨hle, hnode⟩ := read_node hv hi hlength hlevel
    have hmul : (i + 1) * o.digestSize ≤ blocks o.fanout ds.length * o.digestSize :=
      mul_le_mul_right _ hi
    have hadd : (i + 1) * o.digestSize = i * o.digestSize + o.digestSize := succ_mul i _
    have hup : (up (o.hash sha) o.fanout o.digestSize ds)[i]? = some (o.hash sha
        (node o.fanout o.digestSize (level o.fanout o.digestSize ds) i)) := by
      simp [up, hi]
    refine Ends.bind (Ends.check (Ends.bind ?_))
    rw [wrap_eq (by omega)]
    refine Ends.read hpos (by omega) (le_trans (by omega) habove.1) (Ends.bind ?_)
    rw [wrap_eq (by omega), habove.read (by omega), hnode]
    refine .write (by rw [length_hash]; exact digestSize_pos o)
      (by rw [length_hash]; omega) ⟨read_hash hup (length_hash _) hread, habove.trans ?_⟩
    refine above_write ?_
    rw [length_hash]
    omega
  · exact ⟨by simp [Memory.read], Above.refl⟩
  · rintro _ s' ⟨hread, habove⟩
    rw [take_of_length_le (by rw [length_up])] at hread
    exact ⟨hread, habove⟩

/-- **The loop over the levels** leaves the tree over the hashes, and its root. -/
theorem levelLoop_ends (hv : Valid o) {above : List (ℕ × ℕ)} {size : ℕ}
    (hL : Laid o.fanout o.blockSize ds.length ((offset, length) :: above) size)
    (hT : T + size < 2 ^ 63)
    (hread : s.tree.mem.read (T + offset) (ds.length * o.digestSize) = ds.flatten)
    (hlen : T + offset + ds.length * o.digestSize ≤ s.tree.mem.len) (root : Bytes) :
    Ends interrupted
      (Build.levelLoop sha interrupted T o ds.length ((offset, length) :: above) root)
      (fun r s' => r = Merkle.root (o.hash sha) o.fanout o.digestSize ds ∧
        Holds (o.hash sha) o.fanout o.digestSize T s'.tree.mem ((offset, length) :: above) ds ∧
        T + size ≤ s'.tree.mem.len ∧ Above (T + size) s.tree s'.tree) s := by
  induction above generalizing ds offset length size s root with
  | nil =>
    obtain ⟨hn, hlength, ⟨hone, rfl⟩, rfl⟩ := hL
    have hf := hv.fanout_lt
    have hpos : 0 < blocks o.fanout ds.length := blocks_pos (by omega) (by omega)
    have hdiv : length / o.blockSize = 1 := by
      rw [hlength, Nat.mul_div_cancel _ hv.block_pos]
      omega
    rw [Build.levelLoop, hdiv]
    refine .bind (.mono (pad_ends hv hlength (by omega) hread hlen) ?_)
    rintro _ s₁ ⟨hlevel, hlen₁, habove⟩
    refine .bind (.mono
      (nodes_root hv (by omega) hlength (by omega) hlevel hlen₁ root) ?_)
    rintro r s₂ ⟨hup, htree⟩
    refine ⟨?_, ⟨?_, trivial⟩, ?_, ?_⟩
    · rw [root_up hf hn, hup, root_one (by simp)]
      rfl
    · rw [htree]
      exact hlevel
    · rw [htree]
      omega
    · rw [htree]
      exact habove.mono (by omega)
  | cons p above ih =>
    obtain ⟨next, size'⟩ := p
    obtain ⟨hn, hlength, hL', rfl⟩ := hL
    have hnext := hL'
    obtain ⟨-, hsize', -, hoffset⟩ := hnext
    have hf := hv.fanout_lt
    have hdiv : length / o.blockSize = blocks o.fanout ds.length := by
      rw [hlength, Nat.mul_div_cancel _ hv.block_pos]
    have hfit : blocks o.fanout ds.length * o.digestSize ≤ size' := by
      rw [hsize', hv.block_eq]
      exact length_mul_le (by omega) _
    rw [Build.levelLoop, hdiv]
    refine .bind (.mono (pad_ends hv hlength (by omega) hread hlen) ?_)
    rintro _ s₁ ⟨hlevel, hlen₁, habove₁⟩
    refine .bind (.mono
      (nodes_up hv hoffset hfit hlength (by omega) hlevel hlen₁ root) ?_)
    rintro r s₂ ⟨hread₂, habove₂⟩
    rw [← length_up (o.hash sha) o.fanout o.digestSize] at hL' hread₂ hfit ⊢
    have hlen₂ := habove₂.1
    refine .mono (ih hL' (by omega) hread₂ (by omega) r) ?_
    rintro r' s₃ ⟨hroot, hholds, -, habove₃⟩
    have hlen₃ := habove₃.1
    refine ⟨?_, ⟨?_, hholds⟩, by omega, ?_⟩
    · rw [root_up hf hn]
      exact hroot
    · rw [habove₃.read (le_refl _), habove₂.read (le_refl _)]
      exact hlevel
    · exact (habove₁.mono (by omega)).trans ((habove₂.trans habove₃).mono (by omega))

end Level

/-! ### The root -/

/-- The root of the tree over the data; that of an empty file is all zeros. -/
def treeRoot (sha : Sha) (o : BuildOptions) (data : Bytes) : Bytes :=
  if data = [] then List.replicate o.digestSize 0
  else Merkle.root (o.hash sha) o.fanout o.digestSize (leaves sha o data)

theorem divCeil_pos (hv : Valid o) : 0 < divCeil data.length o.blockSize ↔ data ≠ [] := by
  have hb := hv.block_pos
  rw [divCeil, Nat.div_pos_iff, ← length_pos_iff]
  omega

theorem root_ends (hv : Valid o) (hd : data.length < 2 ^ 63) {L : List (ℕ × ℕ)} {size : ℕ}
    (hL : Laid o.fanout o.blockSize (divCeil data.length o.blockSize) L size)
    (hT : T + size < 2 ^ 63) (s : State) :
    Ends interrupted (Build.root sha interrupted data T o L)
      (fun r s' => r = treeRoot sha o data ∧
        Holds (o.hash sha) o.fanout o.digestSize T s'.tree.mem L (leaves sha o data) ∧
        (L = [] ∨ T + size ≤ s'.tree.mem.len)) s := by
  have hpos := @divCeil_pos data o hv
  unfold Build.root
  dsimp only
  cases L with
  | nil =>
    obtain ⟨hle, -⟩ := hL
    split_ifs with hone hmany
    · have hdata : data ≠ [] := hpos.1 (by omega)
      have hlen : data.length ≤ o.blockSize := by
        have h := le_blocks_mul (n := data.length) hv.block_pos
        change _ ≤ divCeil data.length o.blockSize * _ at h
        rwa [hone, one_mul] at h
      obtain ⟨bytes, hbytes, hblock⟩ := read_block (o := o) (i := 0) (by omega) hv.block_pos hd
      rw [Nat.zero_mul, Nat.sub_zero, Nat.min_eq_left hlen] at hbytes
      have hleaves : leaves sha o data = [o.hash sha (block data o.blockSize 0)] := by
        rw [leaves, hone]
        rfl
      refine .bind (.lift hbytes ⟨?_, trivial, .inl rfl⟩)
      rw [treeRoot, if_neg hdata, hleaves, root_one (by simp), hblock]
      rfl
    · omega
    · have hdata : data = [] := by
        by_contra h
        have := hpos.2 h
        omega
      refine ⟨?_, trivial, .inl rfl⟩
      rw [treeRoot, if_pos hdata]
  | cons p above =>
    obtain ⟨first, length⟩ := p
    have hn := hL.1
    have hfirst : divCeil data.length o.blockSize * o.digestSize ≤ length := by
      rw [hL.2.1, hv.block_eq]
      exact length_mul_le (by have := hv.fanout_lt; omega) _
    have hsize := hL.2.2.2
    rw [if_neg (by omega), if_pos hn]
    refine .bind (.mono (leaves_ends hv hd (by omega) s) ?_)
    rintro _ s₁ ⟨hread, hlen⟩
    rw [← @length_leaves sha data o] at hL hread hlen hn ⊢
    refine .mono (levelLoop_ends hv hL hT hread (by omega) _) ?_
    rintro r s₂ ⟨hr, hholds, hlen₂, -⟩
    refine ⟨?_, hholds, .inr hlen₂⟩
    rw [treeRoot, if_neg (hpos.1 (by rw [← @length_leaves sha data o]; omega))]
    exact hr

/-! ### Verification -/

/-- **The chain of a hash** ends at the root. -/
theorem climb_ok (hv : Valid o) {tree : File} {ds : List Bytes} {L : List (ℕ × ℕ)} {size i : ℕ}
    (hds : ∀ x ∈ ds, x.length = o.digestSize) (hL : Laid o.fanout o.blockSize ds.length L size)
    (hT : T + size < 2 ^ 63) (hlen : L = [] ∨ T + size ≤ tree.mem.len)
    (h : Holds (o.hash sha) o.fanout o.digestSize T tree.mem L ds) {x : Bytes}
    (hx : ds[i]? = some x) :
    climb sha tree T o L i x = .ok (root (o.hash sha) o.fanout o.digestSize ds) := by
  induction L generalizing ds size i x with
  | nil =>
    obtain ⟨hle, -⟩ := hL
    obtain ⟨hi, rfl⟩ := List.getElem?_eq_some_iff.1 hx
    obtain rfl : i = 0 := by omega
    rw [root_one hle, climb]
    cases ds with
    | nil => cases hi
    | cons y ds => rfl
  | cons p above ih =>
    obtain ⟨offset, length⟩ := p
    obtain ⟨hn, hlength, hL', rfl⟩ := hL
    obtain ⟨hi, rfl⟩ := List.getElem?_eq_some_iff.1 hx
    have hf := hv.fanout_lt
    have hblock : i / o.fanout < blocks o.fanout ds.length :=
      div_lt_blocks (by omega) hi
    obtain ⟨hle, hnode⟩ := read_node hv hblock hlength h.1
    have hpos := hv.block_pos
    have hfit : T + (offset + length) ≤ tree.mem.len := by
      rcases hlen with hnil | hlen
      · cases hnil
      · exact hlen
    have hread : readExact tree.mem o.blockSize (T + offset + i / o.fanout * o.blockSize) =
        .ok (node o.fanout o.digestSize (level o.fanout o.digestSize ds)
          (i / o.fanout)) := by
      rw [readExact, if_neg (by omega), if_neg (by omega), if_neg (by omega), hnode]
    have hentry := entry_node (by omega : 0 < o.fanout) hds hi
    have hx' : (ds[i]).length = o.digestSize := hds _ (getElem_mem hi)
    rw [climb, wrap_eq (by omega), hread]
    change (if _ ≠ _ then _ else _) = _
    rw [hx', hentry, if_neg (not_not.2 rfl), root_up hf hn]
    rw [← length_up (o.hash sha) o.fanout o.digestSize] at hL'
    refine ih (fun y hy => length_of_mem_up (fun _ => length_hash _) hy) hL' (by omega)
      (.inr (by omega)) h.2 ?_
    simp [up, hblock]

/-! ### Chains that end at the root -/

/-- A block of the tree file has the hash of another block of the tree over `ds`. -/
def Collides (sha : Sha) (o : BuildOptions) (tree : File) (ds : List Bytes) : Prop :=
  ∃ a k i, let ds := digests (o.hash sha) o.fanout o.digestSize ds k
    let x := tree.mem.read a o.blockSize
    let y := node o.fanout o.digestSize (level o.fanout o.digestSize ds) i
    i < blocks o.fanout ds.length ∧ x ≠ y ∧ o.hash sha x = o.hash sha y

/-- A chain that ends at the root starts at the hash of its place. -/
theorem climb_root (hv : Valid o) {tree : File} {ds : List Bytes} {L : List (ℕ × ℕ)} {size i : ℕ}
    {x : Bytes} (hds : ∀ x ∈ ds, x.length = o.digestSize)
    (hL : Laid o.fanout o.blockSize ds.length L size) (hi : i < ds.length)
    (hx : x.length = o.digestSize)
    (h : climb sha tree T o L i x = .ok (root (o.hash sha) o.fanout o.digestSize ds)) :
    ds[i]? = some x ∨ Collides sha o tree ds := by
  induction L generalizing ds size i x with
  | nil =>
    cases h
    obtain rfl : i = 0 := by have := hL.1; omega
    rw [root_one hL.1]
    cases ds with
    | nil => cases hi
    | cons y ds => exact .inl rfl
  | cons p above ih =>
    obtain ⟨hn, -, hL', -⟩ := hL
    have hf := hv.fanout_lt
    have hblock := div_lt_blocks (by omega : 0 < o.fanout) hi
    rw [climb, readExact, if_neg hv.block_pos.ne'] at h
    split_ifs at h
    · cases h
    · cases h
    change (if _ ≠ _ then _ else _) = _ at h
    split_ifs at h with hentry
    rw [root_up hf hn] at h
    rw [← length_up (o.hash sha) o.fanout o.digestSize] at hL' hblock
    rcases ih (fun y hy => length_of_mem_up (fun _ => length_hash _) hy) hL' hblock
      (length_hash _) h with hup | ⟨a, k, hc⟩
    · -- the hash of the block is right: so is the block, or the two collide
      rw [length_up] at hblock
      simp only [up, getElem?_map, getElem?_range hblock, Option.map_some, Option.some.injEq] at hup
      refine (em _).elim (fun heq => .inl ?_) fun hne => .inr ⟨_, 0, _, hblock, hne, hup.symm⟩
      dsimp only [digests] at heq
      rw [heq, hx, entry_node (by omega) hds hi, not_not] at hentry
      exact hentry ▸ getElem?_eq_getElem hi
    · exact .inr ⟨a, k + 1, hc⟩

/-! ### The descriptor -/

section Describe

variable {size : ℕ} {root : Bytes}

/-- The descriptor is zero but for its fields. -/
theorem byte_describe {i : ℕ} (h₁ : 4 ≤ i) (h₂ : i < 8 ∨ 16 ≤ i)
    (h₃ : i < 16 ∨ 16 + root.length ≤ i)
    (h₄ : i < 80 ∨ 80 + o.salt.length ≤ i) : (describe o size root).bytes.byte i = 0 := by
  rw [describe]
  dsimp only
  rw [byte_write_ne (by omega), byte_write_ne (by omega),
    byte_write_ne (by rw [Bytes.length_ofNat]; omega), byte_write_ne]
  · rfl
  · right
    exact h₁

theorem any_read {m : Memory} {a n : ℕ} (h : ∀ i, a ≤ i → i < a + n → m.byte i = 0) :
    (m.read a n).any (· ≠ 0) = false := by
  rw [any_eq_false]
  intro b hb
  obtain ⟨i, hi, rfl⟩ := mem_map.1 hb
  have := mem_range.1 hi
  rw [h _ (by omega) (by omega)]
  decide

theorem head_describe : (describe o size root).bytes.read 0 4 =
    [1, o.algorithm, UInt8.ofNat (trailingZeros o.blockSize), UInt8.ofNat o.salt.length] := by
  rw [describe]
  dsimp only
  rw [read_write_ne (by omega), read_write_ne (by omega),
    read_write_ne (by omega)]
  exact read_write _

theorem salt_describe : (describe o size root).bytes.read 80 o.salt.length = o.salt := by
  rw [describe]
  exact read_write _

theorem root_describe (hroot : root.length = o.digestSize) :
    (describe o size root).root = root := by
  have hd := digestSize_eq o
  rw [Descriptor.root, describe]
  dsimp only
  rw [read_write_ne (by omega), ← hroot, read_write]

theorem dataSize_describe (hsize : size < 2 ^ 64) : (describe o size root).dataSize = size := by
  have hread : ∀ m : Memory, (m.write 8 (Bytes.ofNat 8 size)).read 8 8 = Bytes.ofNat 8 size := by
    intro m
    have h := @read_write m 8 (Bytes.ofNat 8 size)
    rwa [Bytes.length_ofNat] at h
  rw [Descriptor.dataSize, describe]
  dsimp only
  rw [read_write_ne (by omega), read_write_ne (by omega), hread, Bytes.toNat_ofNat]
  exact mod_eq_of_lt hsize

/-- What `from_bytes` accepts. -/
theorem fromBytes_ok (hv : Valid o) {m : Memory} {k : ℕ} (hb : o.blockSize = 2 ^ k) (hk : 10 ≤ k)
    (hk' : k ≤ 16) (hhead : m.read 0 4 = [1, o.algorithm, UInt8.ofNat k, UInt8.ofNat o.salt.length])
    (hsalt : m.read 80 o.salt.length = o.salt)
    (hzero : ∀ i, 4 ≤ i → i < 8 ∨ 16 + o.digestSize ≤ i → i < 80 ∨ 80 + o.salt.length ≤ i →
      m.byte i = 0) : Descriptor.fromBytes m = .ok ⟨m, o⟩ := by
  have hd := digestSize_eq o
  have hlen := hv.salt
  have hlog : ∀ k : Fin 17, 10 ≤ k.1 → 10 ≤ UInt8.ofNat k.1 ∧ UInt8.ofNat k.1 ≤ 16 := by
    decide +kernel
  have hfour : m.read 0 4 = [m.byte 0, m.byte 1, m.byte 2, m.byte 3] := rfl
  rw [hfour] at hhead
  simp only [List.cons.injEq] at hhead
  obtain ⟨h0, h1, h2, h3, -⟩ := hhead
  have hsaltLen : (UInt8.ofNat o.salt.length).toNat = o.salt.length := by
    rw [UInt8.toNat_ofNat', mod_eq_of_lt (by omega)]
  have hshift : 1 <<< (UInt8.ofNat k).toNat = o.blockSize := by
    rw [UInt8.toNat_ofNat', mod_eq_of_lt (by omega), one_shiftLeft, hb]
  have hfirst : ¬ (m.byte 0 ≠ 1 ∨ ¬ (m.byte 1 = 1 ∨ m.byte 1 = 2) ∨
      ¬ (10 ≤ m.byte 2 ∧ m.byte 2 ≤ 16) ∨ 32 < m.byte 3 ∨
      (m.read 4 4 ++ m.read 112 144).any (· ≠ 0)) := by
    rw [h0, h1, h2, h3, any_append,
      any_read fun i _ _ => hzero i (by omega) (by omega) (by omega),
      any_read fun i _ _ => hzero i (by omega) (by omega) (by omega)]
    rintro (h | h | h | h | h)
    · exact h rfl
    · exact h hv.algorithm
    · exact h (hlog ⟨k, by omega⟩ hk)
    · rw [UInt8.lt_iff_toNat_lt, hsaltLen] at h
      change 32 < _ at h
      omega
    · cases h
  have hrest : (m.read (16 + o.digestSize) (80 - (16 + o.digestSize)) ++
      m.read (80 + o.salt.length) (112 - (80 + o.salt.length))).any (· ≠ 0) = false := by
    rw [any_append, any_read fun i _ _ => hzero i (by omega) (by omega) (by omega),
      any_read fun i _ _ => hzero i (by omega) (by omega) (by omega)]
    rfl
  rw [Descriptor.fromBytes, if_neg hfirst]
  simp only [h1, h2, h3, hsaltLen, hshift, hsalt]
  rw [hrest, if_neg Bool.false_ne_true]

/-- **The descriptor is read back.** -/
theorem fromBytes_describe (hv : Valid o) (hroot : root.length = o.digestSize) :
    Descriptor.fromBytes (describe o size root).bytes = .ok (describe o size root) := by
  obtain ⟨k, hk, hk', hb⟩ := hv.block
  have hlog : ∀ k : Fin 17, 10 ≤ k.1 → trailingZeros (2 ^ k.1) = k.1 := by decide +kernel
  have hhead := @head_describe o size root
  rw [hb, hlog ⟨k, by omega⟩ hk] at hhead
  refine fromBytes_ok hv hb hk hk' hhead salt_describe fun i h₁ h₂ h₃ => ?_
  have hd := digestSize_eq o
  exact byte_describe h₁ (by omega) (by omega) h₃

end Describe

/-! ### The tree that is built -/

/-- The file has the Merkle tree of the data from `T` on, as the descriptor says. -/
structure Verified (sha : Sha) (o : BuildOptions) (data : Bytes) (T : ℕ) (tree : File)
    (d : Descriptor) (L : List (ℕ × ℕ)) : Prop where
  levels : d.levels = .ok L
  /-- The root's level is the first, -/
  first : ∀ l, L.getLast? = some l → l.1 = 0
  /-- a level follows the one above it, -/
  next : ∀ k l l', L[k]? = some l → L[k + 1]? = some l' → l.1 = l'.1 + l'.2
  /-- and no two overlap. -/
  apart : L.Pairwise fun l k => k.1 + k.2 ≤ l.1
  /-- The first level has the hash of every data block, and then zeros, -/
  leaf : ∀ l, L[0]? = some l → ∀ i < divCeil data.length o.blockSize,
    tree.mem.read (T + l.1 + i * o.digestSize) o.digestSize =
      o.hash sha (block data o.blockSize i)
  leafPadding : ∀ l, L[0]? = some l → ∀ j, divCeil data.length o.blockSize * o.digestSize ≤ j →
    j < l.2 → tree.mem.byte (T + l.1 + j) = 0
  /-- each other has the hash of every block of the level below, and then zeros. -/
  above : ∀ k l l', L[k]? = some l → L[k + 1]? = some l' → ∀ i < l.2 / o.blockSize,
    tree.mem.read (T + l'.1 + i * o.digestSize) o.digestSize =
      o.hash sha (tree.mem.read (T + l.1 + i * o.blockSize) o.blockSize)
  abovePadding : ∀ k l l', L[k]? = some l → L[k + 1]? = some l' →
    ∀ j, l.2 / o.blockSize * o.digestSize ≤ j → j < l'.2 → tree.mem.byte (T + l'.1 + j) = 0
  root : d.root = treeRoot sha o data
  empty : data = [] → d.root = List.replicate o.digestSize 0
  single : divCeil data.length o.blockSize = 1 → d.root = o.hash sha (block data o.blockSize 0)
  /-- Every data block verifies. -/
  chain : ∀ i < divCeil data.length o.blockSize,
    climb sha tree T o L i (o.hash sha (block data o.blockSize i)) = .ok d.root
  accepted : Descriptor.fromBytes d.bytes = .ok d
  options : d.options = o
  size : d.dataSize = data.length

theorem length_treeRoot (hv : Valid o) : (treeRoot sha o data).length = o.digestSize := by
  rw [treeRoot]
  split_ifs with hdata
  · exact length_replicate
  · refine length_root (fun _ => length_hash _) length_of_mem_leaves ?_
    rw [length_leaves]
    exact (divCeil_pos hv).2 hdata

theorem verified (hv : Valid o) (hd : data.length < 2 ^ 63) {L : List (ℕ × ℕ)} {size : ℕ}
    {tree : File} (hlevels : levels data.length o = .ok L)
    (hL : Laid o.fanout o.blockSize (divCeil data.length o.blockSize) L size)
    (hT : T + size < 2 ^ 63)
    (hholds : Holds (o.hash sha) o.fanout o.digestSize T tree.mem L (leaves sha o data))
    (hlen : L = [] ∨ T + size ≤ tree.mem.len) :
    Verified sha o data T tree (describe o data.length (treeRoot sha o data)) L := by
  have hf : 0 < o.fanout := lt_of_succ_lt hv.fanout_lt
  have hlength : ∀ b, (o.hash sha b).length = o.digestSize := fun _ => length_hash _
  have hroot := @root_describe o data.length _ (@length_treeRoot sha data o hv)
  have hsize := @dataSize_describe o data.length (treeRoot sha o data) (by omega)
  have hleaf : ∀ i, i < divCeil data.length o.blockSize →
      (leaves sha o data)[i]? = some (o.hash sha (block data o.blockSize i)) := by
    intro i hi
    simp [leaves, hi]
  have hL' := hL
  rw [← @length_leaves sha data o, hv.block_eq] at hL'
  -- the number of hashes of the levels above
  have hcount : ∀ k l, L[k]? = some l → l.2 / o.blockSize =
      (digests (o.hash sha) o.fanout o.digestSize (leaves sha o data) (k + 1)).length := by
    intro k l hl
    rw [hL'.get (o.hash sha) hl, ← hv.block_eq, Nat.mul_div_cancel _ hv.block_pos,
      digests_succ, length_up]
  have hempty : data = [] → treeRoot sha o data = List.replicate o.digestSize 0 := fun h => if_pos h
  have hmerkle : 0 < divCeil data.length o.blockSize → treeRoot sha o data =
      root (o.hash sha) o.fanout o.digestSize (leaves sha o data) :=
    fun h => if_neg ((divCeil_pos hv).1 h)
  refine ⟨?_, fun l => hL.first, fun k l l' => hL.next, hL.apart, ?_, ?_, ?_, ?_, hroot, ?_, ?_, ?_,
    fromBytes_describe hv (length_treeRoot hv), rfl, hsize⟩
  · rw [Descriptor.levels, hsize]
    exact hlevels
  · intro l hl i hi
    exact hholds.entry hf hlength length_of_mem_leaves hL' hl (hleaf i hi)
  · intro l hl j hj hj'
    rw [← @length_leaves sha data o] at hj
    exact hholds.padding hlength length_of_mem_leaves hl hj hj'
  · intro k l l' hl hl' i hi
    rw [hcount k l hl, digests_succ, length_up] at hi
    have h := hholds.above hf hlength length_of_mem_leaves hL' hl hl' hi
    rwa [← hv.block_eq] at h
  · intro k l l' hl hl' j hj hj'
    rw [hcount k l hl] at hj
    exact hholds.padding hlength length_of_mem_leaves hl' hj hj'
  · rw [hroot]
    exact hempty
  · intro hone
    have hleaves : leaves sha o data = [o.hash sha (block data o.blockSize 0)] := by
      rw [leaves, hone]
      rfl
    rw [hroot, hmerkle (by omega), hleaves, root_one (by simp)]
    rfl
  · intro i hi
    rw [hroot, hmerkle (by omega)]
    rw [← @length_leaves sha data o] at hL
    exact climb_ok hv length_of_mem_leaves hL hT hlen hholds (hleaf i hi)

/-- What is never interrupted returns. -/
theorem Ends.exists_ok {α : Type} {x : Build α} {Q : α → State → Prop} {s : State}
    (h : Ends interrupted x Q s) (hk : ∀ k, interrupted k = false) :
    ∃ a s', x s = .ok a s' ∧ Q a s' := by
  unfold Ends wp at h
  cases hx : x s with
  | ok a s' =>
    rw [hx] at h
    exact ⟨a, s', rfl, h⟩
  | err e s' =>
    rw [hx] at h
    obtain ⟨-, k, hi⟩ := h
    rw [hk k] at hi
    cases hi
  | fault f s' =>
    rw [hx] at h
    exact h.elim

theorem build_ends (hv : Valid o) (hd : data.length < 2 ^ 63)
    (hT : T + treeSize o.blockSize o.fanout (divCeil data.length o.blockSize) < 2 ^ 63)
    (tree : File) :
    ∃ L, levels data.length o = .ok L ∧ Ends interrupted (build sha interrupted data T o)
      (fun d s => Verified sha o data T s.tree d L) ⟨tree, 0⟩ := by
  obtain ⟨L, hlevels, hL⟩ := @levels_ok o hv data.length (by omega)
  refine ⟨L, hlevels, .bind (.lift hv.new_ok (.bind (.lift hlevels (.bind
    (.mono (root_ends hv hd hL hT _) ?_)))))⟩
  rintro root s ⟨rfl, hholds, hlen⟩
  exact .bind (.check (verified hv hd hlevels hL hT hholds hlen))

/-- **The fs-verity tree.**  Whatever the metadata file has, the tree of the data is built in it, or
the build was interrupted. -/
theorem build_verifies (sha : Sha) (interrupted : ℕ → Bool) (data : Bytes) (tree : File) (T : ℕ)
    (o : BuildOptions) (hv : Valid o) (hd : data.length < 2 ^ 63)
    (hT : T + treeSize o.blockSize o.fanout (divCeil data.length o.blockSize) < 2 ^ 63) :
    (∃ d s L, build sha interrupted data T o ⟨tree, 0⟩ = .ok d s ∧
      Verified sha o data T s.tree d L) ∨
    ∃ s k, build sha interrupted data T o ⟨tree, 0⟩ = .err (.linux EINTR) s ∧
      interrupted k = true := by
  obtain ⟨L, -, h⟩ := @build_ends sha interrupted data T o hv hd hT tree
  unfold Ends wp at h
  cases hb : build sha interrupted data T o ⟨tree, 0⟩ with
  | ok d s =>
    rw [hb] at h
    exact .inl ⟨d, s, L, rfl, h⟩
  | err e s =>
    rw [hb] at h
    obtain ⟨rfl, k, hk⟩ := h
    exact .inr ⟨s, k, rfl, hk⟩
  | fault f s =>
    rw [hb] at h
    exact h.elim

/-! ### A tree of two levels

32 blocks of sevens and one byte more, with the SHA-256 digests of the blocks of their tree. -/

namespace Sevens

def contents : Bytes := List.replicate 32769 7

def options : BuildOptions := ⟨1, 1024, [9]⟩

/-- A digest as it is printed. -/
def digest (n : ℕ) : Bytes := (Bytes.ofNat 32 n).reverse

def full : Bytes := digest 0x29d0110d3af1c492fd951d64fd629f857010b9b48c47907699e1e404826a2ef8
def last : Bytes := digest 0xeec37c7d8b1bd020137b65411cab6b669b06c5402c328bc1cd8f6e6e71171d5a
def lower : Bytes := digest 0xa94edf36cbc458dbd25d2c33fc26ecfa4f9f77a9e4e27e85317ec128bbc6bfa6
def upper : Bytes := digest 0xdf5b0f22cabb6749c7ea50d76d24c93af3ea7aa1dcb8a2989abc93e65b10874a
def top : Bytes := digest 0x39cc622021f95a0a4777e75301f3c4ff5706fe1a4a4df9610743fe15b31fd1e4

/-- The blocks of the tree, each with its digest after the salt. -/
def table : List (Bytes × Bytes) :=
  [(List.replicate 1024 7, full), (7 :: List.replicate 1023 0, last),
    ((List.replicate 32 full).flatten, lower), (last ++ List.replicate 992 0, upper),
    (lower ++ upper ++ List.replicate 960 0, top)]

/-- SHA-256 on these blocks. -/
def sha256 : Sha where
  sha256 b := ((table.lookup (b.drop 64)).getD [] ++ List.replicate 32 0).take 32
  sha512 _ := List.replicate 64 0
  length256 _ := by simp
  length512 _ := length_replicate

theorem valid : Valid options := ⟨.inl rfl, ⟨10, by decide, by decide, rfl⟩, by decide⟩

theorem length_contents : contents.length = 32769 := length_replicate

theorem treeSize_contents : treeSize options.blockSize options.fanout
    (divCeil contents.length options.blockSize) = 3072 := by
  rw [length_contents]
  change treeSize 1024 32 33 = _
  rw [treeSize_step (by decide) (by decide), treeSize_step (by decide) (by decide), treeSize,
    if_neg (by decide)]
  rfl

theorem levels_contents : levels contents.length options = .ok [(1024, 2048), (0, 1024)] := by
  rw [length_contents]
  change (levelSizes 1024 32 33 >>= _) = _
  rw [levelSizes, if_pos (by decide)]
  change ((.ok 2048 >>= fun size => levelSizes 1024 32 2 >>= fun sizes =>
    (pure (size :: sizes) : Except Error _)) >>= _) = _
  rw [levelSizes, if_pos (by decide)]
  change ((.ok 2048 >>= fun size => (.ok 1024 >>= fun size => levelSizes 1024 32 1 >>= fun sizes =>
    (pure (size :: sizes) : Except Error _)) >>= fun sizes => pure (size :: sizes)) >>= _) = _
  rw [levelSizes, if_neg (by decide)]
  rfl

theorem block_contents (i : ℕ) : block contents options.blockSize i =
    List.replicate (min 1024 (32769 - i * 1024)) 7 ++
      List.replicate (1024 - min 1024 (32769 - i * 1024)) 0 := by
  simp only [block, contents, drop_replicate, take_replicate, length_replicate]
  rfl

theorem leaves_contents : leaves sha256 options contents = List.replicate 32 full ++ [last] := by
  simp only [leaves, length_contents, block_contents]
  decide +kernel

theorem treeRoot_contents : treeRoot sha256 options contents = top := by
  have hup : up (options.hash sha256) 32 32 (List.replicate 32 full ++ [last]) = [lower, upper] := by
    decide +kernel
  have hup' : up (options.hash sha256) 32 32 [lower, upper] = [top] := by decide +kernel
  rw [treeRoot, if_neg ((divCeil_pos valid).1 (by rw [length_contents]; decide)), leaves_contents]
  change root _ 32 32 _ = _
  rw [root_up (by decide) (by simp), hup, root_up (by decide) (by simp), hup',
    root_one (by simp)]
  rfl

end Sevens

open Sevens

/-- The tree of 33 blocks. -/
theorem build_verifies_two_levels :
    ∃ d s, build sha256 (fun _ => false) contents 512 options ⟨⟨Memory.zero 0, fun _ _ => rfl⟩, 0⟩ =
        .ok d s ∧
      Verified sha256 options contents 512 s.tree d [(1024, 2048), (0, 1024)] ∧ d.root = top := by
  rcases build_verifies sha256 (fun _ => false) contents ⟨zero 0, fun _ _ => rfl⟩ 512 _ valid
    (by rw [length_contents]; decide) (by rw [treeSize_contents]; decide) with ⟨d, s, L, hb, h⟩ |
      ⟨s, k, -, hk⟩
  · have hlevels := h.levels
    rw [Descriptor.levels, h.size, h.options, levels_contents] at hlevels
    cases hlevels
    exact ⟨d, s, hb, h, h.root.trans treeRoot_contents⟩
  · cases hk

/-! ### Blocks that verify -/

/-- **Only the file's own blocks verify.**  Whatever the tree file has: bytes whose chain ends at the
root of the data have the hash of the data's own block, or two blocks of trees collide. -/
theorem only_own_blocks_verify (hv : Valid o) {tree : File} {L : List (ℕ × ℕ)} {i : ℕ} {bytes : Bytes}
    (hT : treeSize o.blockSize o.fanout (divCeil data.length o.blockSize) < 2 ^ 64)
    (hlevels : levels data.length o = .ok L) (hi : i < divCeil data.length o.blockSize)
    (h : climb sha tree T o L i (o.hash sha bytes) = .ok (treeRoot sha o data)) :
    o.hash sha bytes = o.hash sha (block data o.blockSize i) ∨
      Collides sha o tree (leaves sha o data) := by
  obtain ⟨L', hlevels', hL⟩ := levels_ok hv hT
  cases hlevels.symm.trans hlevels'
  rw [treeRoot, if_neg ((divCeil_pos hv).1 (by omega))] at h
  rw [← @length_leaves sha data o] at hL
  rcases climb_root hv length_of_mem_leaves hL (by rwa [length_leaves]) (length_hash _) h with
    hx | hc
  · simp only [leaves, getElem?_map, getElem?_range hi, Option.map_some, Option.some.injEq] at hx
    exact .inl hx.symm
  · exact .inr hc

/-- The last of 33 blocks, through the two levels of their tree. -/
theorem only_own_blocks_verify_two_levels :
    ∃ tree, climb sha256 tree 512 options [(1024, 2048), (0, 1024)] 32
        (options.hash sha256 (7 :: List.replicate 1023 0)) = .ok top ∧
      (options.hash sha256 (7 :: List.replicate 1023 0) =
        options.hash sha256 (block contents options.blockSize 32) ∨
      Collides sha256 options tree (List.replicate 32 full ++ [last])) := by
  have hlast : block contents options.blockSize 32 = 7 :: List.replicate 1023 0 := by
    rw [block_contents]
    decide +kernel
  obtain ⟨L, hL, h⟩ := @build_ends sha256 (fun _ => false) contents 512 _ valid
    (by rw [length_contents]; decide) (by rw [treeSize_contents]; decide)
    ⟨zero 0, fun _ _ => rfl⟩
  cases hL.symm.trans levels_contents
  have hi : 32 < divCeil contents.length options.blockSize := by
    rw [length_contents]
    decide
  obtain ⟨d, s, -, hv⟩ := h.exists_ok fun _ => rfl
  have hclimb := hv.chain 32 hi
  rw [hv.root, hlast] at hclimb
  have hown := only_own_blocks_verify valid (by rw [treeSize_contents]; decide) levels_contents hi
    hclimb
  rw [treeRoot_contents] at hclimb
  rw [leaves_contents] at hown
  exact ⟨s.tree, hclimb, hown⟩

end Fsverity
