import Aim.Support.Table
import Aim.Support.Blocks
import Aim.Binder.Uapi

/-!
# Binder — The receive-buffer allocator

The per-process allocator of `alloc.rs`: best fit over the mapped range, half of it reserved for
one-way transactions, and the one-way spam heuristic.  Offsets and sizes are 64-bit; additions the
source checks are checked here, and the others stay below the mapping's size.
-/

namespace Aim.Binder

abbrev ProcId := ℕ
abbrev NodeId := ℕ
abbrev TxnId := ℕ
abbrev DeathId := ℕ
/-- A guest (Linux) thread id. -/
abbrev Tid := ℤ
/-- A handle: a descriptor in a process's table. -/
abbrev Desc := ℕ

/-- Linux caps a binder mapping at 4 MiB. -/
def MAX_MAPPING : ℕ := 4 * 1024 * 1024

/-- `u64::checked_add`, and `usize::checked_add` on a 64-bit host. -/
def checkedAdd (a b : ℕ) : Option ℕ := if a + b < 2 ^ 64 then some (a + b) else none

/-- The next multiple of eight, if it fits. -/
def align8 (value : ℕ) : Option ℕ := (checkedAdd value 7).map fun v => v / 8 * 8

/-- An object translated into a buffer, released when the buffer is freed. -/
inductive BufferRecord where
  /-- A local node reference (`BINDER_TYPE_(WEAK_)BINDER` in the buffer). -/
  | binder (node : NodeId) (strong : Bool)
  /-- A handle in the buffer owner's table. -/
  | handle (desc : Desc) (strong : Bool)
  deriving DecidableEq

/-- One allocated transaction buffer. -/
structure Buffer where
  size : ℕ
  dataSize : ℕ
  offsetsSize : ℕ
  txn : Option TxnId := none
  delivery : Option (Tid × TxnId) := none
  targetNode : Option NodeId := none
  isAsync : Bool
  allowUserFree : Bool := false
  clearOnFree : Bool := false
  senderPid : ℤ
  /-- Objects translated into this buffer, released when it is freed. -/
  objects : List BufferRecord := []
  /-- Fds installed from fd arrays, closed by the owner when it is freed. -/
  fdaFds : List ℕ := []

structure Allocator where
  vmStart : ℕ
  size : ℕ
  /-- Free blocks: offset and length, by offset. -/
  freeBlocks : List (ℕ × ℕ)
  buffers : Table ℕ Buffer
  freeAsyncSpace : ℕ
  onewaySpamDetected : Bool

structure Allocation where
  offset : ℕ
  onewaySpamSuspect : Bool
  deriving DecidableEq

/-- The better of two blocks: the shorter, then the one at the lower offset. -/
def betterFit (best : Option (ℕ × ℕ)) (b : ℕ × ℕ) : Option (ℕ × ℕ) :=
  match best with
  | none => some b
  | some m => if b.2 < m.2 ∨ (b.2 = m.2 ∧ b.1 < m.1) then some b else some m

/-- The free block with the least length, then the least offset, among those of `size` or more. -/
def bestFit (size : ℕ) (blocks : List (ℕ × ℕ)) : Option (ℕ × ℕ) :=
  (blocks.filter fun b => size ≤ b.2).foldl betterFit none

/-- The padded size of a request; `none` where it does not fit. -/
def requestSize (dataSize offsetsSize extraSize : ℕ) : Option ℕ := do
  let data ← align8 dataSize
  let offsets ← align8 offsetsSize
  let a ← checkedAdd data offsets
  let extra ← align8 extraSize
  let total ← checkedAdd a extra
  return max total 8

namespace Allocator

def new (vmStart size : ℕ) : Allocator :=
  let size := min size MAX_MAPPING
  { vmStart, size, freeBlocks := [(0, size)], buffers := ∅, freeAsyncSpace := size / 2,
    onewaySpamDetected := false }

/-- `debug_low_async_space_locked`: flag a sender that holds too much of the target's async space,
once per episode. -/
def lowAsyncSpace (a : Allocator) (senderPid : ℤ) : Bool × Allocator :=
  if a.size / 10 ≤ a.freeAsyncSpace then (false, { a with onewaySpamDetected := false })
  else
    let mine := a.buffers.values.filter fun b => b.isAsync && b.senderPid = senderPid
    -- the buffer being allocated is not inserted yet: count it too
    if (50 < mine.length + 1 ∨ a.size / 4 < (mine.map Buffer.size).sum) ∧ ¬ a.onewaySpamDetected
    then (true, { a with onewaySpamDetected := true })
    else (false, a)

/-- The free list after `size` bytes are cut off the front of the block `(offset, len)`. -/
def carve (blocks : List (ℕ × ℕ)) (offset len size : ℕ) : List (ℕ × ℕ) :=
  let blocks := SortedMap.erase offset blocks
  if size < len then SortedMap.insert (offset + size) (len - size) blocks else blocks

/-- `binder_alloc_new_buf`. -/
def allocate (a : Allocator) (dataSize offsetsSize extraSize : ℕ) (isAsync : Bool)
    (senderPid : ℤ) : Except Errno Allocation × Allocator :=
  match requestSize dataSize offsetsSize extraSize with
  | none => (.error .EINVAL, a)
  | some size =>
    if isAsync ∧ a.freeAsyncSpace < size then (.error .ENOSPC, a)
    else match bestFit size a.freeBlocks with
      | none => (.error .ENOSPC, a)
      | some (offset, len) =>
        let a := { a with freeBlocks := carve a.freeBlocks offset len size }
        let (suspect, a) :=
          if isAsync then
            lowAsyncSpace { a with freeAsyncSpace := a.freeAsyncSpace - size } senderPid
          else (false, a)
        let buffer := { size, dataSize, offsetsSize, isAsync, senderPid : Buffer }
        (.ok ⟨offset, suspect⟩, { a with buffers := a.buffers.insert offset buffer })

/-- The address of an offset, in 64-bit arithmetic. -/
def userAddress (a : Allocator) (offset : ℕ) : ℕ := (a.vmStart + offset) % 2 ^ 64

/-- A block to be freed joined with the free block that ends where it starts, if one does. -/
def joinPrev (blocks : List (ℕ × ℕ)) (offset size : ℕ) : (ℕ × ℕ) × List (ℕ × ℕ) :=
  match SortedMap.lastBelow offset blocks with
  | some (prev, prevLen) =>
    if prev + prevLen = offset then ((prev, size + prevLen), SortedMap.erase prev blocks)
    else ((offset, size), blocks)
  | none => ((offset, size), blocks)

/-- A block to be freed joined with the free block at `next`, where it ends. -/
def joinNext (block : ℕ × ℕ) (next : ℕ) (blocks : List (ℕ × ℕ)) : (ℕ × ℕ) × List (ℕ × ℕ) :=
  match SortedMap.find next blocks with
  | some nextLen => ((block.1, block.2 + nextLen), SortedMap.erase next blocks)
  | none => (block, blocks)

/-- Return a buffer to the free list, coalescing neighbours. -/
def free (a : Allocator) (offset : ℕ) : Option Buffer × Allocator :=
  match a.buffers.lookup offset with
  | none => (none, a)
  | some buffer =>
    let space := if buffer.isAsync then a.freeAsyncSpace + buffer.size else a.freeAsyncSpace
    let (block, blocks) := joinPrev a.freeBlocks offset buffer.size
    let (block, blocks) := joinNext block (offset + buffer.size) blocks
    (some buffer, { a with freeBlocks := SortedMap.insert block.1 block.2 blocks
                           buffers := a.buffers.erase offset
                           freeAsyncSpace := space })

end Allocator

end Aim.Binder
