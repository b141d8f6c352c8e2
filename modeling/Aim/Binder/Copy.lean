import Aim.Binder.Host

/-!
# Binder — The copy of a transaction

`copy_transaction`: the target buffer is built in an image (data, offsets, scatter-gather payloads,
security context), every object in it translated, and the image written into the target's mapping
in one copy.  Every number of the sender's structures is a 64-bit value of its choice: additions of
offsets are checked, and a slice of the image out of its bounds is a fault.
-/

namespace Aim.Binder

variable {G ε : Type}

/-- A `BINDER_TYPE_PTR` object already placed in the target buffer. -/
structure PlacedPtr where
  /-- Offset of the object in the data area. -/
  objectOffset : ℕ
  /-- Offset of its copied payload in the target buffer. -/
  targetOffset : ℕ
  length : ℕ
  parent : Option ℕ
  parentOffset : ℕ

/-- An addition of offsets. -/
def addOffset (a b : ℕ) : Run G ε ℕ := Prog.expect .overflow (checkedAdd a b)

/-- A part of the image. -/
def sliceOf (bytes : Bytes) (offset len : ℕ) : Run G ε Bytes :=
  Prog.expect .slice (Bytes.slice bytes offset len)

/-- The image with a part overwritten. -/
def overwriteAt (bytes : Bytes) (offset : ℕ) (data : Bytes) : Run G ε Bytes :=
  Prog.expect .slice (Bytes.overwrite bytes offset data)

/-- The loop of `validate_fixup`.  Moving up to an ancestor, fixups continue after the pointer to
the child we came from. -/
def validateFixupFrom (placed : List PlacedPtr) (parent fixupOffset : ℕ) :
    ℕ → (cursor min : ℕ) → Run G ε Bool
  | 0, _, _ => Prog.fault .fuel
  | fuel + 1, cursor, min =>
    if cursor = parent then pure (decide (min ≤ fixupOffset))
    else do
      let p ← Prog.expect .slice placed[cursor]?
      match p.parent with
      | none => pure false
      | some up => do
        let min ← addOffset p.parentOffset 8
        validateFixupFrom placed parent fixupOffset fuel up min

/-- `binder_validate_fixup`: fixups must go into the last fixed-up buffer or one of its ancestors,
at increasing offsets. -/
def validateFixup (placed : List PlacedPtr) (parent fixupOffset : ℕ) (lastObj : Option ℕ)
    (lastMin : ℕ) : Run G ε Bool :=
  match lastObj with
  | none => pure false
  | some cursor => validateFixupFrom placed parent fixupOffset (cursor + 1) cursor lastMin

/-- What the translation of an object reads. -/
structure CopyEnv where
  proc : ProcId
  tid : Tid
  targetProc : ProcId
  bufferOffset : ℕ
  dataSize : ℕ
  offStart : ℕ
  sgEnd : ℕ
  /-- The buffer's address in the target. -/
  vmStart : ℕ
  acceptFds : Bool

/-- What it changes: the image, and the state of the checks. -/
structure Copying where
  image : Bytes
  offMin : ℕ := 0
  sgCursor : ℕ
  placed : List PlacedPtr := []
  lastFixupObj : Option ℕ := none
  lastFixupMin : ℕ := 0
  fixups : List FdFixup := []

section Objects

variable (env : CopyEnv)

/-- An object's encoding in the image, replaced. -/
def Copying.put (c : Copying) (offset : ℕ) (object : Bytes) : Run G ε Copying := do
  let image ← overwriteAt c.image offset object
  return { c with image }

/-- `BINDER_TYPE_(WEAK_)BINDER`: the sender's own object becomes a handle of the target. -/
def copyBinder (c : Copying) (offset : ℕ) (object : Bytes) (strong : Bool) :
    Run G Failure Copying := do
  let fp ← Prog.expect .slice (FlatBinderObject.decode object)
  let node ← onState (State.newNode env.proc fp.binder fp.cookie fp.flags)
  let m ← Prog.get
  let n ← Prog.expect (.missing .nodes) (m.st.nodes.lookup node)
  if n.cookie ≠ fp.cookie then Prog.throw (fail BR_FAILED_REPLY .EINVAL)
  else
    let desc ← Prog.mapErr (fail BR_FAILED_REPLY)
      (onState (State.incRefForNode env.targetProc node strong (some (env.proc, env.tid))))
    onState (Prog.modify fun s => s.record env.targetProc env.bufferOffset (.handle desc strong))
    let kind := if strong then BINDER_TYPE_HANDLE else BINDER_TYPE_WEAK_HANDLE
    c.put offset { fp with kind, binder := desc, cookie := 0 : FlatBinderObject }.encode

/-- `BINDER_TYPE_(WEAK_)HANDLE`: back at its owner the owner sees its own object; for another
process it becomes a handle of that process. -/
def copyHandle (c : Copying) (offset : ℕ) (object : Bytes) (strong : Bool) :
    Run G Failure Copying := do
  let fp ← Prog.expect .slice (FlatBinderObject.decode object)
  let m ← Prog.get
  let r ← Prog.orThrow (fail BR_FAILED_REPLY .EINVAL) (m.st.getRef env.proc fp.handle strong)
  let n ← Prog.expect (.missing .nodes) (m.st.nodes.lookup r.node)
  if n.proc = some env.targetProc then do
    Prog.mapErr (fail BR_FAILED_REPLY) (onState (State.incNode r.node strong false none))
    onState (Prog.modify fun s =>
      s.record env.targetProc env.bufferOffset (.binder r.node strong))
    let kind := if strong then BINDER_TYPE_BINDER else BINDER_TYPE_WEAK_BINDER
    c.put offset { fp with kind, binder := n.ptr, cookie := n.cookie : FlatBinderObject }.encode
  else do
    let desc ← Prog.mapErr (fail BR_FAILED_REPLY)
      (onState (State.incRefForNode env.targetProc r.node strong none))
    onState (Prog.modify fun s => s.record env.targetProc env.bufferOffset (.handle desc strong))
    c.put offset { fp with binder := desc, cookie := 0 : FlatBinderObject }.encode

/-- `fget` for the sender's fd. -/
def senderFile [GuestProcess G] (fd : UInt32) : Run G Failure File :=
  Prog.mapErr (fun _ => fail BR_FAILED_REPLY .EBADF)
    (ask fun g => GuestProcess.getFile g fd.toNat)

/-- `BINDER_TYPE_FD`: the file is taken along; the receiver writes the fd. -/
def copyFd [GuestProcess G] (c : Copying) (offset : ℕ) (object : Bytes) :
    Run G Failure Copying := do
  if env.acceptFds = false then Prog.throw (fail BR_FAILED_REPLY .EPERM)
  else
    let fd ← Prog.expect .slice (u32At object 8)
    let file ← senderFile fd
    let at_ ← addOffset offset 8
    let c := { c with fixups := c.fixups ++ [FdFixup.mk at_ file false] }
    let object ← overwriteAt object 8 (List.replicate 8 0)
    c.put offset object

/-- The placed pointer object an fd array or a pointer names as its parent, by its position in the
offsets array. -/
def findParent (c : Copying) (index parent : ℕ) : Run G Failure ℕ :=
  if parent < index ∧ c.placed ≠ [] then do
    let at_ ← addOffset env.offStart (parent * 8)
    let entry ← Prog.expect .slice (u64At c.image at_)
    Prog.orThrow (fail BR_FAILED_REPLY .EINVAL) (c.placed.findIdx? (·.objectOffset = entry))
  else Prog.throw (fail BR_FAILED_REPLY .EINVAL)

/-- The files of an fd array. -/
def copyArrayFds [GuestProcess G] (image : Bytes) (base : ℕ) :
    List ℕ → List FdFixup → Run G Failure (List FdFixup)
  | [], fixups => pure fixups
  | i :: rest, fixups => do
    let at_ ← addOffset base (i * 4)
    let fd ← Prog.expect .slice (u32At image at_)
    let file ← senderFile fd
    copyArrayFds image base rest (fixups ++ [FdFixup.mk at_ file true])

/-- `BINDER_TYPE_FDA`: an array of fds inside a buffer already placed. -/
def copyFda [GuestProcess G] (c : Copying) (index : ℕ) (object : Bytes) :
    Run G Failure Copying := do
  let fda ← Prog.expect .slice (FdArrayObject.decode object)
  let parent ← findParent env c index fda.parent
  let valid ← validateFixup c.placed parent fda.parentOffset c.lastFixupObj c.lastFixupMin
  if ¬ valid then Prog.throw (fail BR_FAILED_REPLY .EINVAL)
  else
    let fdBytes ← Prog.orThrow (fail BR_FAILED_REPLY .EINVAL)
      (if fda.numFds * 4 < 2 ^ 64 then some (fda.numFds * 4) else none)
    let ptr ← Prog.expect .slice c.placed[parent]?
    if ptr.length < fdBytes ∨ ptr.length - fdBytes < fda.parentOffset then
      Prog.throw (fail BR_FAILED_REPLY .EINVAL)
    else
      let base ← addOffset ptr.targetOffset fda.parentOffset
      if base % 4 ≠ 0 then Prog.throw (fail BR_FAILED_REPLY .EINVAL)
      else if fda.numFds ≠ 0 ∧ env.acceptFds = false then
        Prog.throw (fail BR_FAILED_REPLY .EPERM)
      else
        let fixups ← copyArrayFds c.image base (List.range fda.numFds) c.fixups
        let min ← addOffset fda.parentOffset fdBytes
        return { c with fixups, lastFixupObj := some parent, lastFixupMin := min }

/-- The parent of a pointer object: the pointer embedded in it is pointed at the copy. -/
def fixParent (c : Copying) (index : ℕ) (bp : BufferObject) :
    Run G Failure (Option ℕ × Bytes) := do
  if bp.flags &&& BINDER_BUFFER_FLAG_HAS_PARENT = 0 then return (none, c.image)
  else
    let p ← findParent env c index bp.parent
    let valid ← validateFixup c.placed p bp.parentOffset c.lastFixupObj c.lastFixupMin
    if ¬ valid then Prog.throw (fail BR_FAILED_REPLY .EINVAL)
    else
      let ptr ← Prog.expect .slice c.placed[p]?
      if ptr.length < 8 ∨ ptr.length - 8 < bp.parentOffset then
        Prog.throw (fail BR_FAILED_REPLY .EINVAL)
      else
        let at_ ← addOffset ptr.targetOffset bp.parentOffset
        let image ← overwriteAt c.image at_ (le64 bp.buffer)
        return (some p, image)

/-- The payload of a pointer object, copied from the sender to the cursor. -/
def copyPayload [GuestProcess G] (c : Copying) (bp : BufferObject) : Run G Failure Bytes := do
  if bp.length = 0 then return c.image
  else
    let _ ← sliceOf c.image c.sgCursor bp.length
    let payload ← Prog.mapErr (fun _ => fail BR_FAILED_REPLY .EFAULT)
      (ask fun g => GuestProcess.copyFromUser g bp.buffer bp.length)
    overwriteAt c.image c.sgCursor payload.1

/-- `BINDER_TYPE_PTR`: the payload is copied, and the parent's pointer to it fixed up. -/
def copyPtr [GuestProcess G] (c : Copying) (index offset : ℕ) (object : Bytes) :
    Run G Failure Copying := do
  let bp ← Prog.expect .slice (BufferObject.decode object)
  let room ← Prog.expect .overflow (if c.sgCursor ≤ env.sgEnd then some (env.sgEnd - c.sgCursor)
    else none)
  if room < bp.length then Prog.throw (fail BR_FAILED_REPLY .EINVAL)
  else
    let image ← copyPayload c bp
    let targetOffset := c.sgCursor
    let bp := { bp with buffer := (env.vmStart + c.sgCursor) % 2 ^ 64 }
    let padded ← Prog.expect .overflow (align8 bp.length)
    let sgCursor ← addOffset c.sgCursor padded
    let c := { c with image, sgCursor }
    let (parent, image) ← fixParent env c index bp
    let image ← overwriteAt image offset bp.encode
    let placed := c.placed ++ [PlacedPtr.mk offset targetOffset bp.length parent bp.parentOffset]
    return { c with image, placed, lastFixupObj := some (placed.length - 1), lastFixupMin := 0 }

/-- The type of the object at an offset of the sender's choice; zero if no object can be there. -/
def objectKind (c : Copying) (offset : ℕ) : Run G ε UInt32 := do
  if offset % 4 = 0 then
    let stop ← addOffset offset 4
    if stop ≤ env.dataSize then Prog.expect .slice (u32At c.image offset) else return 0
  else return 0

/-- One entry of the offsets array. -/
def copyObject [GuestProcess G] (c : Copying) (index : ℕ) : Run G Failure Copying := do
  let at_ ← addOffset env.offStart (index * 8)
  let offset ← Prog.expect .slice (u64At c.image at_)
  let kind ← objectKind env c offset
  let size ← Prog.orThrow (fail BR_FAILED_REPLY .EINVAL) (objectSize kind)
  if offset < c.offMin then Prog.throw (fail BR_FAILED_REPLY .EINVAL)
  else
    let stop ← addOffset offset size
    if env.dataSize < stop then Prog.throw (fail BR_FAILED_REPLY .EINVAL)
    else
      let c := { c with offMin := stop }
      let object ← sliceOf c.image offset size
      if kind = BINDER_TYPE_BINDER ∨ kind = BINDER_TYPE_WEAK_BINDER then
        copyBinder env c offset object (kind = BINDER_TYPE_BINDER)
      else if kind = BINDER_TYPE_HANDLE ∨ kind = BINDER_TYPE_WEAK_HANDLE then
        copyHandle env c offset object (kind = BINDER_TYPE_HANDLE)
      else if kind = BINDER_TYPE_FD then copyFd env c offset object
      else if kind = BINDER_TYPE_FDA then copyFda env c index object
      else copyPtr env c index offset object

/-- The entries of the offsets array, one after the other. -/
def copyObjects [GuestProcess G] : List ℕ → Copying → Run G Failure Copying
  | [], c => pure c
  | index :: rest, c => do
    let c ← copyObject env c index
    copyObjects rest c

end Objects

/-- A range of the sender's memory, copied into the image. -/
def copyRange [GuestProcess G] (image : Bytes) (address offset len : ℕ) :
    Run G Failure Bytes := do
  if len = 0 then return image
  else
    let stop ← addOffset offset len
    let _ ← sliceOf image offset (stop - offset)
    let bytes ← Prog.mapErr (fun _ => fail BR_FAILED_REPLY .EFAULT)
      (ask fun g => GuestProcess.copyFromUser g address len)
    overwriteAt image offset bytes.1

/-- The security context, at the end of the buffer. -/
def copySecctx (id : TxnId) (vmStart bufferSize : ℕ) (image : Bytes) :
    Option Bytes → Run G ε Bytes
  | none => pure image
  | some ctx => do
    let padded ← Prog.expect .overflow (align8 ctx.length)
    let at_ ← Prog.expect .overflow
      (if padded ≤ bufferSize then some (bufferSize - padded) else none)
    let image ← overwriteAt image at_ ctx
    let m ← Prog.get
    let _ ← Prog.expect (.missing .txns) (m.st.txns.lookup id)
    onState (Prog.modify fun s =>
      s.modifyTxn id fun t => { t with securityCtx := (vmStart + at_) % 2 ^ 64 })
    return image

/-- Whether the receiver of this transaction or reply takes files. -/
def acceptsFds (id : TxnId) (inReplyTo : Option TxnId) : Run G ε Bool := do
  let m ← Prog.get
  match inReplyTo with
  | some original =>
    let t ← Prog.expect (.missing .txns) (m.st.txns.lookup original)
    return t.flags &&& TF_ACCEPT_FDS ≠ 0
  | none =>
    let t ← Prog.expect (.missing .txns) (m.st.txns.lookup id)
    match t.targetNode with
    | none => return false
    | some n =>
      let n ← Prog.expect (.missing .nodes) (m.st.nodes.lookup n)
      return n.acceptFds

/-- Build the target buffer and write it into the target's mapping. -/
def copyTransaction [GuestProcess G] (proc : ProcId) (tid : Tid) (targetProc : ProcId)
    (id : TxnId) (bufferOffset : ℕ) (tr : TransactionData) (extraBuffersSize : ℕ)
    (secctx : Option Bytes) (inReplyTo : Option TxnId) : Run G Failure Unit := do
  if tr.offsetsSize % 8 ≠ 0 ∨ extraBuffersSize % 8 ≠ 0 then
    Prog.throw (fail BR_FAILED_REPLY .EINVAL)
  else
    let m ← Prog.get
    let p ← Prog.expect (.missing .procs) (m.st.procs.lookup targetProc)
    let alloc ← Prog.expect .unwrap p.alloc
    let buffer ← Prog.expect (.missing .buffers) (alloc.buffers.lookup bufferOffset)
    let vmStart := alloc.userAddress bufferOffset
    let offStart ← Prog.expect .overflow (align8 tr.dataSize)
    let offEnd ← addOffset offStart tr.offsetsSize
    let sgStart ← Prog.expect .overflow (align8 offEnd)
    let sgEnd ← addOffset sgStart extraBuffersSize
    let image ← copyRange (List.replicate buffer.size 0) tr.buffer 0 tr.dataSize
    let image ← copyRange image tr.offsets offStart tr.offsetsSize
    let image ← copySecctx id vmStart buffer.size image secctx
    let acceptFds ← acceptsFds id inReplyTo
    let env : CopyEnv :=
      { proc, tid, targetProc, bufferOffset, dataSize := tr.dataSize, offStart, sgEnd, vmStart
        acceptFds }
    let c ← copyObjects env (List.range (tr.offsetsSize / 8)) { image, sgCursor := sgStart }
    let m ← Prog.get
    let p ← Prog.expect (.missing .procs) (m.st.procs.lookup targetProc)
    let _ ← Prog.expect .unwrap p.receive
    onState (Prog.modify fun s => s.modifyProc targetProc fun p =>
      { p with receive := p.receive.map fun memory =>
          ReceiveMemory.write memory bufferOffset c.image })
    let m ← Prog.get
    let _ ← Prog.expect (.missing .txns) (m.st.txns.lookup id)
    onState (Prog.modify fun s => s.modifyTxn id fun t => { t with fdFixups := c.fixups })

end Aim.Binder
