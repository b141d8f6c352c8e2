import Aim.Binder.Alloc

/-!
# Binder — The allocator is sound

What holds of an allocator after any sequence of `allocate` and `free` calls.  Free blocks and
buffers tile the mapping, free blocks are never adjacent, buffers sit at multiples of eight, and the
async budget is what the async buffers leave of half the mapping (`Sound`).

* `allocate_cases`, `free_cases`: everything one call can do.
* `Sound.allocate`, `Sound.free`: each call keeps the invariant.
* `free_allocate`: freeing what was just allocated restores the free list.
* `freed_mapping_whole`: so does freeing all, in any order.
-/

namespace Aim.Binder

open List SortedMap Option

/-! ### Padded sizes and the best fit -/

/-- The sum of the padded parts of a request. -/
def paddedSize (dataSize offsetsSize extraSize : ℕ) : ℕ :=
  (dataSize + 7) / 8 * 8 + (offsetsSize + 7) / 8 * 8 + (extraSize + 7) / 8 * 8

/-- A request is refused exactly when its parts or their padded sum do not fit 64 bits; the size
of any other is its padded sum, eight at least. -/
theorem requestSize_eq (d o e : ℕ) :
    requestSize d o e =
      if d + 7 < 2 ^ 64 ∧ o + 7 < 2 ^ 64 ∧ e + 7 < 2 ^ 64 ∧ paddedSize d o e < 2 ^ 64 then
        some (max (paddedSize d o e) 8)
      else none := by
  simp only [requestSize, align8, checkedAdd, paddedSize, bind, pure]
  by_cases hd : d + 7 < 2 ^ 64 <;> by_cases ho : o + 7 < 2 ^ 64 <;>
    by_cases he : e + 7 < 2 ^ 64 <;>
    simp only [hd, ho, he, if_true, if_false, map_some, map_none, bind_some,
      bind_none, true_and, false_and, and_false]
  · by_cases h₁ : (d + 7) / 8 * 8 + (o + 7) / 8 * 8 < 2 ^ 64
    · simp only [h₁, if_true, bind_some]
      by_cases h₂ : (d + 7) / 8 * 8 + (o + 7) / 8 * 8 + (e + 7) / 8 * 8 < 2 ^ 64
      · simp only [h₂, if_true, bind_some]
      · simp only [h₂, if_false, bind_none]
    · have h₂ : ¬ (d + 7) / 8 * 8 + (o + 7) / 8 * 8 + (e + 7) / 8 * 8 < 2 ^ 64 := by omega
      simp only [h₁, h₂, if_false, bind_none]
  · split <;> simp

variable {size : ℕ}

theorem requestSize_eq_some {d o e : ℕ} (h : requestSize d o e = some size) :
    size = max (paddedSize d o e) 8 := by
  rw [requestSize_eq] at h
  split at h
  · exact (Option.some.inj h).symm
  · cases h

theorem dvd_requestSize {d o e : ℕ} (h : requestSize d o e = some size) : 8 ∣ size ∧ 8 ≤ size := by
  rw [requestSize_eq_some h, paddedSize]
  omega

theorem betterFit_cases (best : Option (ℕ × ℕ)) (b : ℕ × ℕ) :
    betterFit best b = some b ∨ betterFit best b = best ∧ best ≠ none := by
  cases best with
  | none => exact .inl rfl
  | some m =>
    unfold betterFit
    dsimp only
    split
    · exact .inl rfl
    · exact .inr ⟨rfl, nofun⟩

/-- The fold ends with nothing only if it starts so over no block, and else with a block it saw. -/
theorem foldl_betterFit (L : List (ℕ × ℕ)) (best : Option (ℕ × ℕ)) :
    (L.foldl betterFit best = none ↔ best = none ∧ L = []) ∧
      ∀ b, L.foldl betterFit best = some b → b ∈ L ∨ best = some b := by
  induction L generalizing best with
  | nil => exact ⟨by simp, fun b hb => .inr hb⟩
  | cons a L ih =>
    obtain ⟨h₁, h₂⟩ := ih (betterFit best a)
    rw [foldl_cons]
    rcases betterFit_cases best a with hc | ⟨hc, hn⟩
    · refine ⟨by rw [h₁, hc]; simp, fun b hb => .inl ?_⟩
      rcases h₂ b hb with hm | he
      · exact .tail _ hm
      · rw [hc] at he; cases he; exact .head _
    · refine ⟨by rw [h₁, hc]; simp [hn], fun b hb => ?_⟩
      rcases h₂ b hb with hm | he
      · exact .inl (.tail _ hm)
      · exact .inr (hc ▸ he)

variable {L : List (ℕ × ℕ)} {b : ℕ × ℕ}

theorem bestFit_eq_some (h : bestFit size L = some b) : b ∈ L ∧ size ≤ b.2 := by
  rcases (foldl_betterFit _ _).2 b h with hb | hb
  · simpa using hb
  · cases hb

theorem bestFit_eq_none : bestFit size L = none ↔ ∀ b ∈ L, b.2 < size := by
  rw [bestFit, (foldl_betterFit _ _).1]
  simp

/-! ### One call -/

namespace Allocator

/-- The allocator, as `lowAsyncSpace` may leave it, differs in the spam flag alone. -/
theorem lowAsyncSpace_eq (a : Allocator) (pid : ℤ) :
    ∃ suspect spam, a.lowAsyncSpace pid = (suspect, { a with onewaySpamDetected := spam }) := by
  unfold lowAsyncSpace
  split
  · exact ⟨_, _, rfl⟩
  · dsimp only
    split
    · exact ⟨_, _, rfl⟩
    · exact ⟨_, a.onewaySpamDetected, rfl⟩

/-- Everything `allocate` can do. -/
theorem allocate_cases (a : Allocator) (d o e : ℕ) (isAsync : Bool) (pid : ℤ) :
    (requestSize d o e = none ∧ a.allocate d o e isAsync pid = (.error .EINVAL, a)) ∨
    ∃ size, requestSize d o e = some size ∧
      ((((isAsync = true ∧ a.freeAsyncSpace < size) ∨ ∀ b ∈ a.freeBlocks, b.2 < size) ∧
          a.allocate d o e isAsync pid = (.error .ENOSPC, a)) ∨
      ∃ offset len suspect spam,
        (isAsync = true → size ≤ a.freeAsyncSpace) ∧ (offset, len) ∈ a.freeBlocks ∧ size ≤ len ∧
        a.allocate d o e isAsync pid = (.ok ⟨offset, suspect⟩,
          { a with
            freeBlocks := carve a.freeBlocks offset len size
            buffers := a.buffers.insert offset
              { size := size, dataSize := d, offsetsSize := o, isAsync := isAsync,
                senderPid := pid }
            freeAsyncSpace := if isAsync then a.freeAsyncSpace - size else a.freeAsyncSpace
            onewaySpamDetected := spam })) := by
  unfold allocate
  cases hr : requestSize d o e with
  | none => exact .inl ⟨rfl, rfl⟩
  | some size =>
    refine .inr ⟨size, rfl, ?_⟩
    dsimp only
    split
    · next h => exact .inl ⟨.inl h, rfl⟩
    next h =>
      cases hb : bestFit size a.freeBlocks with
      | none => exact .inl ⟨.inr (bestFit_eq_none.1 hb), rfl⟩
      | some b =>
        obtain ⟨offset, len⟩ := b
        obtain ⟨hm, hs⟩ := bestFit_eq_some hb
        cases isAsync with
        | false => exact .inr ⟨offset, len, false, a.onewaySpamDetected, nofun, hm, hs, rfl⟩
        | true =>
          obtain ⟨suspect, spam, he⟩ := lowAsyncSpace_eq
            { a with freeBlocks := carve a.freeBlocks offset len size
                     freeAsyncSpace := a.freeAsyncSpace - size } pid
          refine .inr ⟨offset, len, suspect, spam, fun _ => ?_, hm, hs, ?_⟩
          · exact not_lt.1 fun hlt => h ⟨rfl, hlt⟩
          · simp only [he, if_true]

/-- The block a freed buffer becomes, and the free blocks it does not join. -/
def coalesce (blocks : List (ℕ × ℕ)) (offset size : ℕ) : (ℕ × ℕ) × List (ℕ × ℕ) :=
  joinNext (joinPrev blocks offset size).1 (offset + size) (joinPrev blocks offset size).2

/-- Everything `free` can do. -/
theorem free_cases (a : Allocator) (offset : ℕ) :
    (a.buffers.lookup offset = none ∧ a.free offset = (none, a)) ∨
    ∃ buffer, a.buffers.lookup offset = some buffer ∧ a.free offset = (some buffer,
      { a with
        freeBlocks := SortedMap.insert (coalesce a.freeBlocks offset buffer.size).1.1
          (coalesce a.freeBlocks offset buffer.size).1.2
          (coalesce a.freeBlocks offset buffer.size).2
        buffers := a.buffers.erase offset
        freeAsyncSpace :=
          if buffer.isAsync then a.freeAsyncSpace + buffer.size else a.freeAsyncSpace }) := by
  unfold free
  cases hb : a.buffers.lookup offset with
  | none => exact .inl ⟨rfl, rfl⟩
  | some buffer => exact .inr ⟨buffer, rfl, rfl⟩

/-! ### The invariant -/

/-- The blocks of the mapping: the free ones and the buffers. -/
def blocks (a : Allocator) : List (ℕ × ℕ) :=
  a.freeBlocks ++ a.buffers.entries.map fun e => (e.1, e.2.size)

/-- What a buffer takes of the async space. -/
def asyncSize (b : Buffer) : ℕ := if b.isAsync then b.size else 0

/-- **The invariant.**  A mapping of no bytes has its one empty block and no buffer for ever. -/
structure Sound (a : Allocator) (n : ℕ) : Prop where
  size : a.size = n
  sorted : SortedMap.Sorted a.freeBlocks
  tiled : Tiles a.blocks n ∨ (n = 0 ∧ a.freeBlocks = [(0, 0)] ∧ a.buffers = ∅)
  coalesced : ∀ b ∈ a.freeBlocks, ∀ c ∈ a.freeBlocks, b ≠ c → b.1 + b.2 ≠ c.1
  freeAligned : ∀ b ∈ a.freeBlocks, 8 ∣ b.1
  bufferAligned : ∀ o b, a.buffers.lookup o = some b → 8 ∣ o ∧ 8 ∣ b.size
  space : a.freeAsyncSpace + a.buffers.total asyncSize = n / 2

theorem Sound.new (start size : ℕ) : Sound (new start size) (min size MAX_MAPPING) where
  size := rfl
  sorted := pairwise_singleton _ _
  tiled := by
    rcases Nat.eq_zero_or_pos (min size MAX_MAPPING) with h | h
    · exact .inr ⟨h, by simp [Allocator.new, h], rfl⟩
    · exact .inl (Tiles.whole h)
  coalesced := by simp [Allocator.new]
  freeAligned := by simp [Allocator.new]
  bufferAligned := by simp [Allocator.new]
  space := rfl

/-! ### Allocation keeps the invariant -/

section Carve

variable {F B : List (ℕ × ℕ)} {n offset len size : ℕ}

theorem mem_carve (hF : SortedMap.Sorted F) (hb : b ∈ carve F offset len size) :
    (b ∈ F ∧ b.1 ≠ offset) ∨ (b = (offset + size, len - size) ∧ size < len) := by
  unfold carve at hb
  dsimp only at hb
  split at hb
  · next h =>
      rcases (mem_insert (hF.erase offset)).1 hb with rfl | ⟨hb, -⟩
      · exact .inr ⟨rfl, h⟩
      · exact .inl (mem_erase.1 hb)
  · exact .inl (mem_erase.1 hb)

theorem sorted_carve (hF : SortedMap.Sorted F) : SortedMap.Sorted (carve F offset len size) := by
  unfold carve
  dsimp only
  split
  · exact (hF.erase offset).insert _ _
  · exact hF.erase offset

/-- Cutting a buffer off a free block keeps the tiling. -/
theorem tiles_carve (hF : SortedMap.Sorted F) (hT : Tiles (F ++ B) n) (hm : (offset, len) ∈ F)
    (h₀ : 0 < size) (hs : size ≤ len) :
    Tiles (carve F offset len size ++ (offset, size) :: B) n := by
  have hT' : Tiles ((offset, len) :: (SortedMap.erase offset F ++ B)) n :=
    hT.perm ((erase_perm hF hm).append_right B)
  unfold carve
  dsimp only
  split
  · next hlt =>
      obtain ⟨r, rfl⟩ := Nat.exists_eq_add_of_le hs
      have hk : ∀ v, (offset + size, v) ∉ SortedMap.erase offset F := fun v hv =>
        hT'.start_notMem (mem_append_left B hv) ⟨by simp, by simpa using hlt⟩
      have hp := insert_perm (v := size + r - size) (hF.erase offset) hk
      rw [Nat.add_sub_cancel_left] at hp ⊢
      refine (hT'.split h₀ (by omega)).perm ?_
      refine (List.Perm.swap _ _ _).trans (.trans ?_ (hp.append_right _).symm)
      exact .cons _ perm_middle.symm
  · next hlt =>
      obtain rfl : size = len := by omega
      exact hT'.perm perm_middle.symm

end Carve

variable {a : Allocator} {n : ℕ}

/-- An allocator that has no bytes has no block for a buffer. -/
theorem Sound.tiles_of_mem (h : Sound a n)
    (hb : b ∈ a.freeBlocks) (hpos : 0 < b.2) : Tiles a.blocks n := by
  rcases h.tiled with hT | ⟨-, hf, -⟩
  · exact hT
  · rw [hf, mem_singleton] at hb
    rw [hb] at hpos
    exact absurd hpos (lt_irrefl 0)

/-- The keys of the buffers are not those of free blocks. -/
theorem Sound.lookup_free (h : Sound a n) {offset len : ℕ}
    (hm : (offset, len) ∈ a.freeBlocks) (hpos : 0 < len) : a.buffers.lookup offset = none := by
  by_contra hne
  obtain ⟨b, hb⟩ := ne_none_iff_exists'.1 hne
  have hT := (h.tiles_of_mem hm hpos).perm ((erase_perm h.sorted hm).append_right _)
  have hB : (offset, b.size) ∈ a.buffers.entries.map fun e => (e.1, e.2.size) :=
    mem_map.2 ⟨⟨offset, b⟩, AList.mem_entries_iff.2 hb, rfl⟩
  exact hT.start_notMem (mem_append_right _ hB) ⟨le_rfl, by simpa using hpos⟩

theorem Sound.allocate (h : Sound a n) (d o e : ℕ) (isAsync : Bool)
    (pid : ℤ) : Sound (a.allocate d o e isAsync pid).2 n := by
  rcases allocate_cases a d o e isAsync pid with ⟨-, he⟩ | ⟨size, hr, ⟨-, he⟩ |
    ⟨offset, len, suspect, spam, hspace, hm, hs, he⟩⟩
  · rw [he]; exact h
  · rw [he]; exact h
  rw [he]
  obtain ⟨hdvd, hsize⟩ := dvd_requestSize hr
  have hpos : 0 < len := by omega
  have hT := h.tiles_of_mem hm hpos
  have hnone := h.lookup_free hm hpos
  have hnotin : offset ∉ a.buffers := AList.lookup_eq_none.1 hnone
  refine ⟨h.size, sorted_carve h.sorted, .inl ?_, ?_, ?_, ?_, ?_⟩
  · simp only [blocks, AList.entries_insert_of_notMem hnotin, map_cons]
    exact tiles_carve h.sorted hT hm (by omega) hs
  · -- the rest of a cut block ends where the whole block did, and starts at the new buffer
    intro b hb c hc hne
    rcases mem_carve h.sorted hb with ⟨hb, hbo⟩ | ⟨rfl, hb⟩ <;>
      rcases mem_carve h.sorted hc with ⟨hc, hco⟩ | ⟨rfl, hc⟩
    · exact h.coalesced b hb c hc hne
    · intro hadj
      have hbT : b ∈ a.blocks := mem_append_left _ hb
      have hmT : (offset, len) ∈ a.blocks := mem_append_left _ hm
      have hb₀ := hT.pos b hbT
      simp only at hadj
      rcases lt_or_gt_of_ne hbo with hlt | hgt
      · have := hT.end_le_start hbT hmT hlt
        simp only at this
        omega
      · have := hT.end_le_start hmT hbT hgt
        simp only at this
        omega
    · have hne' : ((offset, len) : ℕ × ℕ) ≠ c := fun e => hco (e ▸ rfl)
      have := h.coalesced (offset, len) hm c hc hne'
      simp only at this ⊢
      omega
    · exact absurd rfl hne
  · intro b hb
    have ho := h.freeAligned _ hm
    rcases mem_carve h.sorted hb with ⟨hb, -⟩ | ⟨rfl, -⟩
    · exact h.freeAligned b hb
    · exact Nat.dvd_add ho hdvd
  · intro o' b hb
    rw [AList.lookup_insert_ite] at hb
    split at hb
    · next e' => cases hb; exact ⟨e' ▸ h.freeAligned _ hm, hdvd⟩
    · exact h.bufferAligned o' b hb
  · have hsp := h.space
    rw [AList.total_insert _ hnone]
    cases isAsync with
    | false => simpa [asyncSize] using hsp
    | true =>
      have := hspace rfl
      simp only [asyncSize, if_true]
      omega

/-! ### Freeing keeps the invariant -/

section Coalesce

variable {F B : List (ℕ × ℕ)} {n offset size : ℕ}

/-- Everything `joinPrev` can do. -/
theorem joinPrev_cases (F : List (ℕ × ℕ)) (offset size : ℕ) :
    (∃ p l, (p, l) ∈ F ∧ p + l = offset ∧
      joinPrev F offset size = ((p, size + l), SortedMap.erase p F)) ∨
    joinPrev F offset size = ((offset, size), F) ∧
      ∀ e, SortedMap.lastBelow offset F = some e → e.1 + e.2 ≠ offset := by
  unfold joinPrev
  cases hl : SortedMap.lastBelow offset F with
  | none => exact .inr ⟨rfl, nofun⟩
  | some e =>
    obtain ⟨p, l⟩ := e
    dsimp only
    split
    · next h => exact .inl ⟨p, l, (lastBelow_eq_some hl).1, h, rfl⟩
    · next h => exact .inr ⟨rfl, fun e he => by cases he; exact h⟩

/-- Everything `joinNext` can do. -/
theorem joinNext_cases (hF : SortedMap.Sorted F) (block : ℕ × ℕ) (next : ℕ) :
    (∃ l, (next, l) ∈ F ∧
      joinNext block next F = ((block.1, block.2 + l), SortedMap.erase next F)) ∨
    joinNext block next F = (block, F) ∧ ∀ v, (next, v) ∉ F := by
  unfold joinNext
  cases hf : SortedMap.find next F with
  | none => exact .inr ⟨rfl, (find_eq_none hF).1 hf⟩
  | some l => exact .inl ⟨l, (find_eq_some hF).1 hf, rfl⟩

theorem sorted_joinPrev (hF : SortedMap.Sorted F) :
    SortedMap.Sorted (joinPrev F offset size).2 := by
  rcases joinPrev_cases F offset size with ⟨p, l, -, -, he⟩ | ⟨he, -⟩
  · rw [he]; exact hF.erase p
  · rw [he]; exact hF

theorem tiles_joinPrev (hF : SortedMap.Sorted F) (hT : Tiles ((offset, size) :: (F ++ B)) n) :
    Tiles ((joinPrev F offset size).1 :: ((joinPrev F offset size).2 ++ B)) n := by
  rcases joinPrev_cases F offset size with ⟨p, l, hm, rfl, he⟩ | ⟨he, -⟩
  · rw [he, Nat.add_comm size l]
    refine Tiles.merge (hT.perm ?_)
    exact (List.Perm.cons _ ((erase_perm hF hm).append_right B)).trans (.swap _ _ _)
  · rw [he]; exact hT

theorem joinPrev_end (F : List (ℕ × ℕ)) (offset size : ℕ) :
    (joinPrev F offset size).1.1 + (joinPrev F offset size).1.2 = offset + size := by
  rcases joinPrev_cases F offset size with ⟨p, l, -, rfl, he⟩ | ⟨he, -⟩
  · rw [he]; dsimp only; omega
  · rw [he]

/-- Coalescing keeps the tiling. -/
theorem tiles_coalesce (hF : SortedMap.Sorted F) (hT : Tiles ((offset, size) :: (F ++ B)) n) :
    Tiles ((coalesce F offset size).1 :: ((coalesce F offset size).2 ++ B)) n := by
  have hT' := tiles_joinPrev hF hT
  have hF' : SortedMap.Sorted (joinPrev F offset size).2 := sorted_joinPrev hF
  rcases joinNext_cases hF' (joinPrev F offset size).1 (offset + size) with ⟨l, hm, he⟩ | ⟨he, -⟩
  · rw [coalesce, he]
    refine Tiles.merge (hT'.perm (.cons _ ?_))
    rw [joinPrev_end]
    exact (erase_perm hF' hm).append_right B
  · rw [coalesce, he]; exact hT'

theorem sorted_coalesce (hF : SortedMap.Sorted F) :
    SortedMap.Sorted (coalesce F offset size).2 := by
  have hF' : SortedMap.Sorted (joinPrev F offset size).2 := sorted_joinPrev hF
  rcases joinNext_cases hF' (joinPrev F offset size).1 (offset + size) with ⟨l, hm, he⟩ | ⟨he, -⟩
  · rw [coalesce, he]; exact hF'.erase _
  · rw [coalesce, he]; exact hF'

theorem mem_joinPrev (hb : b ∈ (joinPrev F offset size).2) : b ∈ F := by
  rcases joinPrev_cases F offset size with ⟨p, l, -, -, he⟩ | ⟨he, -⟩
  · rw [he] at hb; exact (mem_erase.1 hb).1
  · rw [he] at hb; exact hb

variable (hF : SortedMap.Sorted F)

include hF

theorem mem_coalesce (hb : b ∈ (coalesce F offset size).2) : b ∈ (joinPrev F offset size).2 := by
  have hF' : SortedMap.Sorted (joinPrev F offset size).2 := sorted_joinPrev hF
  rcases joinNext_cases hF' (joinPrev F offset size).1 (offset + size) with ⟨l, hm, he⟩ | ⟨he, -⟩
  · rw [coalesce, he] at hb; exact (mem_erase.1 hb).1
  · rw [coalesce, he] at hb; exact hb

/-- The coalesced block starts where its first part does. -/
theorem coalesce_start : (coalesce F offset size).1.1 = (joinPrev F offset size).1.1 := by
  have hF' : SortedMap.Sorted (joinPrev F offset size).2 := sorted_joinPrev hF
  rcases joinNext_cases hF' (joinPrev F offset size).1 (offset + size) with ⟨l, hm, he⟩ | ⟨he, -⟩ <;>
    rw [coalesce, he]

/-- No free block that is left ends where the coalesced block starts. -/
theorem end_ne_start (hT : Tiles ((offset, size) :: (F ++ B)) n)
    (hco : ∀ b ∈ F, ∀ c ∈ F, b ≠ c → b.1 + b.2 ≠ c.1)
    (hb : b ∈ (joinPrev F offset size).2) : b.1 + b.2 ≠ (joinPrev F offset size).1.1 := by
  have hbF := mem_joinPrev hb
  rcases joinPrev_cases F offset size with ⟨p, l, hm, -, he⟩ | ⟨he, hlast⟩
  · rw [he] at hb ⊢
    exact hco b hbF (p, l) hm fun e => (mem_erase.1 hb).2 (e ▸ rfl)
  rw [he]
  intro hadj
  have hb₀ := hT.pos b (by simp [hbF])
  have hlt : b.1 < offset := by simp only at hadj; omega
  cases hl : SortedMap.lastBelow offset F with
  | none => exact lastBelow_eq_none hl hbF hlt
  | some e =>
    obtain ⟨heF, helt⟩ := lastBelow_eq_some hl
    have hle := le_lastBelow hF hl hbF hlt
    rcases hle.lt_or_eq with hlt' | heq
    · have := hT.end_le_start (d := e) (by simp [hbF]) (by simp [heF]) hlt'
      simp only at hadj
      omega
    · exact hlast e hl (hF.unique hbF heF heq ▸ hadj)

/-- No free block that is left starts where the coalesced block ends. -/
theorem start_ne_end (hco : ∀ b ∈ F, ∀ c ∈ F, b ≠ c → b.1 + b.2 ≠ c.1)
    {c : ℕ × ℕ} (hc : c ∈ (coalesce F offset size).2) :
    (coalesce F offset size).1.1 + (coalesce F offset size).1.2 ≠ c.1 := by
  have hcF := mem_joinPrev (mem_coalesce hF hc)
  have hF' : SortedMap.Sorted (joinPrev F offset size).2 := sorted_joinPrev hF
  have hend := joinPrev_end F offset size
  rcases joinNext_cases hF' (joinPrev F offset size).1 (offset + size) with ⟨l, hm, he⟩ | ⟨he, hno⟩
  · rw [coalesce, he] at hc ⊢
    have hne : ((offset + size, l) : ℕ × ℕ) ≠ c := fun e => (mem_erase.1 hc).2 (e ▸ rfl)
    have := hco _ (mem_joinPrev hm) c hcF hne
    simp only at this ⊢
    omega
  · rw [coalesce, he] at hc ⊢
    rw [hend]
    exact fun e => hno c.2 (e ▸ hc)

end Coalesce

variable {offset : ℕ} {b : Buffer}

theorem Sound.tiles_of_buffer (h : Sound a n)
    (hb : a.buffers.lookup offset = some b) : Tiles a.blocks n := by
  rcases h.tiled with hT | ⟨-, -, hB⟩
  · exact hT
  · rw [hB] at hb; cases hb

/-- The tiling with a buffer taken out of the buffers. -/
theorem Sound.tiles_out (h : Sound a n) (hb : a.buffers.lookup offset = some b) :
    Tiles ((offset, b.size) :: (a.freeBlocks ++
      (a.buffers.erase offset).entries.map fun e => (e.1, e.2.size))) n := by
  refine (h.tiles_of_buffer hb).perm (.trans ?_ perm_middle)
  exact .append_left _ ((AList.entries_perm_erase hb).map _)

theorem Sound.free (h : Sound a n) (offset : ℕ) : Sound (a.free offset).2 n := by
  rcases free_cases a offset with ⟨-, he⟩ | ⟨b, hb, he⟩
  · rw [he]; exact h
  rw [he]
  have hF := h.sorted
  have hT := h.tiles_out hb
  have hC := tiles_coalesce hF hT
  have hS : SortedMap.Sorted (coalesce a.freeBlocks offset b.size).2 := sorted_coalesce hF
  have hk : ∀ v, ((coalesce a.freeBlocks offset b.size).1.1, v) ∉
      (coalesce a.freeBlocks offset b.size).2 := by
    intro v hv
    have hp := hC.pos _ (.head _)
    exact hC.start_notMem (mem_append_left _ hv) ⟨le_rfl, by simpa using hp⟩
  refine ⟨h.size, hS.insert _ _, .inl ?_, ?_, ?_, ?_, ?_⟩
  · exact hC.perm ((insert_perm hS hk).append_right _).symm
  · intro c hc d hd hne
    rcases (mem_insert hS).1 hc with rfl | ⟨hc, -⟩ <;>
      rcases (mem_insert hS).1 hd with rfl | ⟨hd, -⟩
    · exact absurd rfl hne
    · exact start_ne_end hF h.coalesced hd
    · have hc' := mem_coalesce hF hc
      have := end_ne_start hF hT h.coalesced hc'
      rw [← coalesce_start hF] at this
      exact this
    · exact h.coalesced c (mem_joinPrev (mem_coalesce hF hc)) d
        (mem_joinPrev (mem_coalesce hF hd)) hne
  · intro c hc
    rcases (mem_insert hS).1 hc with rfl | ⟨hc, -⟩
    · have hstart : (coalesce a.freeBlocks offset b.size).1.1 =
          (joinPrev a.freeBlocks offset b.size).1.1 := coalesce_start hF
      rw [hstart]
      rcases joinPrev_cases a.freeBlocks offset b.size with ⟨p, l, hm, -, he⟩ | ⟨he, -⟩
      · rw [he]; exact h.freeAligned (p, l) hm
      · rw [he]; exact (h.bufferAligned offset b hb).1
    · exact h.freeAligned c (mem_joinPrev (mem_coalesce hF hc))
  · intro o' b' hb'
    rw [AList.lookup_erase_ite] at hb'
    split at hb'
    · cases hb'
    · exact h.bufferAligned o' b' hb'
  · have hsp := h.space
    rw [AList.total_erase _ hb, asyncSize] at hsp
    dsimp only
    split
    · next hasync => rw [if_pos hasync] at hsp; omega
    · next hasync => rw [if_neg hasync] at hsp; omega

/-- A block cut off a free block coalesces with the rest of that block and with no other. -/
theorem coalesce_carve {F B : List (ℕ × ℕ)} {len : ℕ} (hF : SortedMap.Sorted F)
    (hT : Tiles (F ++ B) n) (hco : ∀ b ∈ F, ∀ c ∈ F, b ≠ c → b.1 + b.2 ≠ c.1)
    (hm : (offset, len) ∈ F) (h₀ : 0 < size) (hs : size ≤ len) :
    coalesce (carve F offset len size) offset size =
      ((offset, len), SortedMap.erase offset F) := by
  have hC : SortedMap.Sorted (carve F offset len size) := sorted_carve hF
  have hprev : joinPrev (carve F offset len size) offset size =
      ((offset, size), carve F offset len size) := by
    rcases joinPrev_cases (carve F offset len size) offset size with ⟨p, l, hp, hadj, -⟩ | ⟨he, -⟩
    · rcases mem_carve hF hp with ⟨hp, hne⟩ | ⟨he, -⟩
      · exact absurd hadj (hco (p, l) hp (offset, len) hm fun e => hne (congrArg Prod.fst e))
      · cases he; omega
    · exact he
  have hT' := hT.perm ((erase_perm hF hm).append_right B)
  have hfree : ∀ v, (offset + size, v) ∈ SortedMap.erase offset F → size = len ∧ False := by
    intro v hv
    by_cases hlt : size < len
    · exact absurd ⟨Nat.le_add_right _ _, by simpa using hlt⟩
        (hT'.start_notMem (mem_append_left B hv))
    · obtain rfl : size = len := by omega
      have hv' := mem_erase.1 hv
      exact absurd rfl (hco _ hm _ hv'.1 fun e => hv'.2 (congrArg Prod.fst e).symm)
  rw [coalesce, hprev]
  dsimp only
  rcases joinNext_cases hC (offset, size) (offset + size) with ⟨l, hl, he⟩ | ⟨he, hno⟩
  · rw [he]
    rcases mem_carve hF hl with ⟨hl, hne⟩ | ⟨heq, hlt⟩
    · exact absurd (hfree l (mem_erase.2 ⟨hl, hne⟩)).2 id
    obtain rfl : l = len - size := congrArg Prod.snd heq
    refine Prod.ext (Prod.ext rfl (Nat.add_sub_cancel' hs)) ?_
    refine SortedMap.ext (hC.erase _) (hF.erase _) fun b => ?_
    rw [mem_erase, carve, if_pos hlt, mem_insert (hF.erase offset)]
    constructor
    · rintro ⟨rfl | ⟨hb, -⟩, hne⟩
      · exact absurd rfl hne
      · exact hb
    · exact fun hb => ⟨.inr ⟨hb, fun e => (hfree b.2 (e ▸ hb)).2⟩,
        fun e => (hfree b.2 (e ▸ hb)).2⟩
  · rw [he]
    have hge : ¬ size < len := fun hlt => hno (len - size) (by
      rw [carve, if_pos hlt]
      exact (mem_insert (hF.erase offset)).2 (.inl rfl))
    rw [carve, if_neg hge]
    exact Prod.ext (Prod.ext rfl (by dsimp only; omega)) rfl

/-- **Freeing what was just allocated restores the free list.** -/
theorem free_allocate (h : Sound a n) {d o e : ℕ} {isAsync : Bool}
    {pid : ℤ} {al : Allocation} (hal : (a.allocate d o e isAsync pid).1 = .ok al) :
    ((a.allocate d o e isAsync pid).2.free al.offset).2.freeBlocks = a.freeBlocks := by
  rcases allocate_cases a d o e isAsync pid with ⟨-, he⟩ | ⟨size, hr, ⟨-, he⟩ |
    ⟨offset, len, suspect, spam, hspace, hm, hs, he⟩⟩
  · rw [he] at hal; cases hal
  · rw [he] at hal; cases hal
  have hf := free_cases (a.allocate d o e isAsync pid).2 offset
  rw [he] at hal hf ⊢
  cases hal
  have hsize := (dvd_requestSize hr).2
  have hT := h.tiles_of_mem hm (b := (offset, len)) (by dsimp only; omega)
  rcases hf with ⟨hnone, -⟩ | ⟨b, hb, hf⟩
  · rw [AList.lookup_insert] at hnone; cases hnone
  rw [AList.lookup_insert] at hb
  cases hb
  rw [hf]
  dsimp only
  rw [coalesce_carve h.sorted hT h.coalesced hm (by omega) hs]
  refine SortedMap.ext ((h.sorted.erase _).insert _ _) h.sorted fun b => ?_
  rw [mem_insert (h.sorted.erase _)]
  constructor
  · rintro (rfl | ⟨hb, -⟩)
    · exact hm
    · exact (mem_erase.1 hb).1
  · intro hb
    by_cases hk : b.1 = offset
    · exact .inl (h.sorted.unique hb hm hk)
    · exact .inr ⟨mem_erase.2 ⟨hb, hk⟩, hk⟩

/-! ### Runs -/

/-- A call of the allocator. -/
inductive Call where
  | allocate (dataSize offsetsSize extraSize : ℕ) (isAsync : Bool) (senderPid : ℤ)
  | free (offset : ℕ)

/-- An allocator, with the sizes each live buffer was requested with. -/
structure Ledger where
  alloc : Allocator
  requests : Table ℕ (ℕ × ℕ × ℕ)

namespace Ledger

def call (l : Ledger) : Call → Ledger
  | .allocate d o e isAsync pid =>
    let (result, alloc) := l.alloc.allocate d o e isAsync pid
    match result with
    | .ok al => { alloc, requests := l.requests.insert al.offset (d, o, e) }
    | .error _ => { l with alloc }
  | .free offset => { alloc := (l.alloc.free offset).2, requests := l.requests.erase offset }

/-- The calls made one after the other on a fresh allocator. -/
def run (start size : ℕ) (calls : List Call) : Ledger :=
  calls.foldl call { alloc := .new start size, requests := ∅ }

/-- Every buffer has room for the padded parts of its request. -/
def Backed (l : Ledger) : Prop :=
  ∀ offset b, l.alloc.buffers.lookup offset = some b →
    ∃ d o e, l.requests.lookup offset = some (d, o, e) ∧ paddedSize d o e ≤ b.size

theorem Backed.call {l : Ledger} (h : l.Backed) (c : Call) : (l.call c).Backed := by
  cases c with
  | allocate d o e isAsync pid =>
    simp only [Ledger.call]
    rcases allocate_cases l.alloc d o e isAsync pid with ⟨-, he⟩ | ⟨size, hr, ⟨-, he⟩ |
      ⟨offset, len, suspect, spam, -, -, -, he⟩⟩
    · rw [he]; exact h
    · rw [he]; exact h
    rw [he]
    intro offset' b hb
    dsimp only at hb ⊢
    rw [AList.lookup_insert_ite] at hb ⊢
    split at hb
    · cases hb
      exact ⟨d, o, e, by simp_all, requestSize_eq_some hr ▸ le_max_left _ _⟩
    · next hne => rw [if_neg hne]; exact h offset' b hb
  | free offset =>
    simp only [Ledger.call]
    rcases free_cases l.alloc offset with ⟨hnone, he⟩ | ⟨b, -, he⟩ <;> rw [he] <;>
      intro offset' b' hb' <;> dsimp only at hb' ⊢
    · have hne : offset' ≠ offset := fun e => by rw [e, hnone] at hb'; cases hb'
      rw [AList.lookup_erase_ite, if_neg hne]
      exact h offset' b' hb'
    · rw [AList.lookup_erase_ite] at hb' ⊢
      split at hb'
      · cases hb'
      · next hne => rw [if_neg hne]; exact h offset' b' hb'

theorem sound_call {l : Ledger} (h : Sound l.alloc n) (c : Call) : Sound (l.call c).alloc n := by
  cases c with
  | allocate d o e isAsync pid =>
    have hs := h.allocate d o e isAsync pid
    simp only [call]
    cases hr : l.alloc.allocate d o e isAsync pid with
    | mk result alloc =>
      rw [hr] at hs
      cases result <;> exact hs
  | free offset => exact h.free offset

/-- Every reachable allocator keeps the invariant, and every buffer is as large as asked. -/
theorem run_sound (start size : ℕ) (calls : List Call) :
    Sound (run start size calls).alloc (min size MAX_MAPPING) ∧ (run start size calls).Backed := by
  have hstep : ∀ (calls : List Call) (l : Ledger),
      Sound l.alloc (min size MAX_MAPPING) ∧ l.Backed →
      Sound (calls.foldl call l).alloc (min size MAX_MAPPING) ∧ (calls.foldl call l).Backed := by
    intro calls
    induction calls with
    | nil => exact fun _ h => h
    | cons c calls ih => exact fun l h => ih _ ⟨sound_call h.1 c, h.2.call c⟩
  refine hstep calls _ ⟨Sound.new start size, fun offset b hb => ?_⟩
  cases hb

end Ledger

/-- What one call of `allocate` returns: a request that does not fit 64 bits is invalid, any other
fails exactly for want of room, and a failure changes nothing. -/
theorem allocate_result (a : Allocator) (d o e : ℕ) (isAsync : Bool) (pid : ℤ) :
    (requestSize d o e = none → (a.allocate d o e isAsync pid).1 = .error .EINVAL) ∧
    (∀ size, requestSize d o e = some size →
      ((a.allocate d o e isAsync pid).1 = .error .ENOSPC ↔
        (∀ b ∈ a.freeBlocks, b.2 < size) ∨ (isAsync = true ∧ a.freeAsyncSpace < size))) ∧
    ∀ err, (a.allocate d o e isAsync pid).1 = .error err →
      (a.allocate d o e isAsync pid).2 = a := by
  rcases allocate_cases a d o e isAsync pid with ⟨hr, he⟩ | ⟨size, hr, ⟨hc, he⟩ |
    ⟨offset, len, suspect, spam, hspace, hm, hs, he⟩⟩
  · rw [he]; exact ⟨fun _ => rfl, fun size hs => (by rw [hr] at hs; cases hs), fun _ _ => rfl⟩
  · rw [he]
    refine ⟨fun hn => (by rw [hr] at hn; cases hn), fun size' hs' => ?_, fun _ _ => rfl⟩
    obtain rfl : size = size' := by rw [hr] at hs'; exact Option.some.inj hs'
    exact ⟨fun _ => hc.symm, fun _ => rfl⟩
  · rw [he]
    refine ⟨fun hn => (by rw [hr] at hn; cases hn), fun size' hs' => ?_, nofun⟩
    obtain rfl : size = size' := by rw [hr] at hs'; exact Option.some.inj hs'
    refine ⟨nofun, ?_⟩
    rintro (hall | ⟨ha, hlt⟩)
    · have := hall _ hm
      dsimp only at this
      omega
    · have := hspace ha
      omega

/-- **The receive-buffer allocator.**  After any calls on `Allocator::new(start, size)`: free
blocks and buffers tile the mapping; free blocks are not adjacent; every buffer starts at a
multiple of eight and has room for what was asked; the async space is accounted for; `allocate`
refuses a request whose padded total does not fit 64 bits with `EINVAL`, fails with `ENOSPC`
exactly when no free block is large enough or an async request exceeds the async space, and then
changes nothing; and freeing what was just allocated restores the free list. -/
theorem allocator_invariants (start size : ℕ) (calls : List Call) :
    let l := Ledger.run start size calls
    let n := min size MAX_MAPPING
    (Tiles l.alloc.blocks n ∨
      (n = 0 ∧ l.alloc.freeBlocks = [(0, 0)] ∧ l.alloc.buffers = ∅)) ∧
    (∀ b ∈ l.alloc.freeBlocks, ∀ c ∈ l.alloc.freeBlocks, b ≠ c → b.1 + b.2 ≠ c.1) ∧
    (∀ offset b, l.alloc.buffers.lookup offset = some b → 8 ∣ offset ∧
      ∃ d o e, l.requests.lookup offset = some (d, o, e) ∧ paddedSize d o e ≤ b.size) ∧
    l.alloc.freeAsyncSpace + l.alloc.buffers.total asyncSize = n / 2 ∧
    ∀ d o e isAsync pid,
      let r := l.alloc.allocate d o e isAsync pid
      (requestSize d o e = none → r.1 = .error .EINVAL) ∧
      (∀ need, requestSize d o e = some need →
        (r.1 = .error .ENOSPC ↔ (∀ b ∈ l.alloc.freeBlocks, b.2 < need) ∨
          (isAsync = true ∧ l.alloc.freeAsyncSpace < need))) ∧
      (∀ err, r.1 = .error err → r.2 = l.alloc) ∧
      ∀ al, r.1 = .ok al → (r.2.free al.offset).2.freeBlocks = l.alloc.freeBlocks := by
  obtain ⟨h, hb⟩ := Ledger.run_sound start size calls
  refine ⟨h.tiled, h.coalesced, fun offset b hl => ⟨(h.bufferAligned offset b hl).1, hb offset b hl⟩,
    h.space, fun d o e isAsync pid => ?_⟩
  obtain ⟨h₁, h₂, h₃⟩ := allocate_result (Ledger.run start size calls).alloc d o e isAsync pid
  exact ⟨h₁, h₂, h₃, fun al hal => free_allocate h hal⟩

/-- A request of 2⁶⁴ − 1 bytes finds no free block large enough, and fails with `EINVAL`, not
`ENOSPC`. -/
theorem allocate_max_einval :
    (∀ b ∈ (new 0x100000 4096).freeBlocks, b.2 < 2 ^ 64 - 1) ∧
      ((new 0x100000 4096).allocate (2 ^ 64 - 1) 0 0 false 1).1 = .error .EINVAL ∧
      ((new 0x100000 4096).allocate (2 ^ 64 - 1) 0 0 false 1).1 ≠ .error .ENOSPC := by
  refine ⟨by decide, rfl, ?_⟩
  intro h
  exact absurd (Except.error.inj h) (by decide)

/-- **Nothing is left of freed buffers.**  After any calls that leave none, in whatever order they
were freed, the mapping is one free block and the async space is whole. -/
theorem freed_mapping_whole (start size : ℕ) (calls : List Call) (hsize : 0 < size) :
    let a := (Ledger.run start size calls).alloc
    a.buffers = ∅ → a.freeBlocks = [(0, min size MAX_MAPPING)] ∧
      a.freeAsyncSpace = min size MAX_MAPPING / 2 := by
  intro a hfreed
  obtain ⟨h, -⟩ := Ledger.run_sound start size calls
  have hspace := h.space
  rw [hfreed] at hspace
  refine ⟨SortedMap.ext h.sorted (pairwise_singleton _ _) fun e => ?_, hspace⟩
  have hn : 0 < min size MAX_MAPPING := by simp [hsize, MAX_MAPPING]
  rcases h.tiled with hT | ⟨hn₀, -⟩
  · rw [blocks, hfreed] at hT
    rw [mem_singleton]
    exact Tiles.mem_iff_whole (by simpa using hT) hn h.coalesced e
  · omega

/-- Three buffers, the middle one freed last. -/
theorem freed_mapping_whole_three :
    (Ledger.run 0 4096 [.allocate 8 0 0 false 1, .allocate 100 8 0 true 1, .allocate 16 0 0 false 1,
      .free 0, .free 120, .free 8]).alloc.freeBlocks = [(0, 4096)] :=
  (freed_mapping_whole 0 4096 _ (by decide) rfl).1

end Allocator

end Aim.Binder
