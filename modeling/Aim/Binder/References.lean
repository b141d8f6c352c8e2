import Aim.Binder.State

/-!
# Binder — References

The reference-counting rules of `state.rs`: nodes, their counts, and the handles processes hold to
them.  `dec_node` subtracts with saturation; the record says where that would have gone below zero.
-/

namespace Aim.Binder

/-! ### Counts of a node -/

/-- The count `dec_node` decrements. -/
def Node.dec (n : Node) (strong internal : Bool) : Node :=
  if strong then
    if internal then { n with internalStrongRefs := n.internalStrongRefs - 1 }
    else { n with localStrongRefs := n.localStrongRefs - 1 }
  else if internal then n
  else { n with localWeakRefs := n.localWeakRefs - 1 }

/-- Whether references of the kind `dec_node` dropped are left. -/
def Node.held (n : Node) (strong : Bool) : Bool :=
  if strong then n.localStrongRefs ≠ 0 || n.internalStrongRefs ≠ 0
  else n.localWeakRefs ≠ 0 || !n.refs.isEmpty

namespace State

/-! ### Nodes -/

def isContextManager {ε : Type} (node : NodeId) : Op ε Bool := do
  let s ← Prog.get
  match s.nodes.lookup node with
  | none => return false
  | some n =>
    let c ← Prog.expect (.missing .contexts) s.contexts[n.context]?
    return c.mgrNode = some node

/-- `binder_new_node`: the existing node for `ptr`, or a new one. -/
def newNode {ε : Type} (proc : ProcId) (ptr cookie : ℕ) (flags : UInt32) : Op ε NodeId := do
  let s ← Prog.get
  let p ← Prog.expect (.missing .procs) (s.procs.lookup proc)
  match p.nodes.lookup ptr with
  | some id => return id
  | none =>
    Prog.update fun s =>
      let (id, s) := s.nextId
      let node : Node :=
        { proc := some proc, context := p.context, ptr, cookie
          acceptFds := flags &&& FLAT_BINDER_FLAG_ACCEPTS_FDS ≠ 0
          txnSecurityCtx := flags &&& FLAT_BINDER_FLAG_TXN_SECURITY_CTX ≠ 0 }
      (id, { s with nodes := s.nodes.insert id node }.modifyProc proc fun p =>
        { p with nodes := p.nodes.insert ptr id })

/-- Put the node's work on the todo list of a thread. -/
def queueNodeWork (s : State) (id : NodeId) (p : ProcId) (t : Tid) : State :=
  (s.modifyNode id fun n => { n with workQueued := some (.thread p t) })
    |>.enqueueDeferredThreadWork p t (.node id)

/-- The strong half of `inc_node`, once it is allowed. -/
def incNodeStrong (s : State) (id : NodeId) (internal hasStrong : Bool)
    (target : Option (ProcId × Tid)) : State :=
  let s := s.modifyNode id fun n =>
    if internal then { n with internalStrongRefs := n.internalStrongRefs + 1 }
    else { n with localStrongRefs := n.localStrongRefs + 1 }
  match target with
  | some (p, t) => if hasStrong then s else (s.dequeueNodeWork id).queueNodeWork id p t
  | none => s

/-- The weak half of `inc_node`. -/
def incNodeWeak (s : State) (id : NodeId) (internal : Bool) (node : Node)
    (target : Option (ProcId × Tid)) : State :=
  let s := if internal then s
    else s.modifyNode id fun n => { n with localWeakRefs := n.localWeakRefs + 1 }
  match target with
  | some (p, t) =>
    if node.hasWeakRef ∨ node.workQueued.isSome then s else s.queueNodeWork id p t
  | none => s

/-- `binder_inc_node_nilocked`.  `target` is the thread whose todo list receives the node work
(`target_list`). -/
def incNode (id : NodeId) (strong internal : Bool) (target : Option (ProcId × Tid)) :
    Op Errno Unit := do
  let isMgr ← isContextManager id
  let s ← Prog.get
  let node ← Prog.orThrow .EINVAL (s.nodes.lookup id)
  if strong then
    if internal ∧ target.isNone ∧ node.internalStrongRefs = 0 ∧
        ¬ (node.proc.isSome ∧ isMgr ∧ node.hasStrongRef) then
      Prog.throw .EINVAL
    else Prog.modify fun s => s.incNodeStrong id internal node.hasStrongRef target
  else Prog.modify fun s => s.incNodeWeak id internal node target

/-- Drops a node nothing refers to any more. -/
def removeNode (s : State) (id : NodeId) : State :=
  { s with nodes := s.nodes.erase id }

/-- The end of `dec_node`, for a node with no references of the kind left: the owner is told to
take its reports back, or the node is freed. -/
def dropNode (s : State) (id : NodeId) (node : Node) : State :=
  match node.proc with
  | some proc =>
    if node.hasStrongRef || node.hasWeakRef then
      if node.workQueued.isNone then
        ((s.modifyNode id fun n => { n with workQueued := some (.proc proc) })
          |>.enqueueProcWork proc (.node id)).wakeupProc proc
      else s
    else if node.refs.isEmpty && node.localStrongRefs = 0 && node.localWeakRefs = 0 then
      ((s.dequeueNodeWork id).modifyProc proc fun p =>
        { p with nodes := p.nodes.erase node.ptr }).removeNode id
    else s
  | none =>
    if node.refs.isEmpty && node.localStrongRefs = 0 && node.localWeakRefs = 0 then
      s.removeNode id
    else s

/-- `binder_dec_node_nilocked` plus the free it may call for. -/
def decNode (s : State) (id : NodeId) (strong internal : Bool) : State :=
  match s.nodes.lookup id with
  | none => s
  | some n =>
    let s := s.modifyNode id fun n => n.dec strong internal
    let n := n.dec strong internal
    if n.held strong then s else s.dropNode id n

/-! ### Handles -/

/-- `binder_get_ref_olocked`. -/
def getRef (s : State) (proc : ProcId) (desc : Desc) (needStrong : Bool) : Option Ref :=
  (s.ref? proc desc).filter fun r => !needStrong || r.strong ≠ 0

/-- The lowest descriptor from `desc` on that is not among `used`, which increase. -/
def lowestFree (desc : Desc) : List Desc → Desc
  | [] => desc
  | used :: rest => if desc < used then desc else lowestFree (used + 1) rest

/-- A set of processes kept in increasing order, with one more. -/
def insertHolder (proc : ProcId) (refs : List ProcId) : List ProcId :=
  if proc ∈ refs then refs else refs.orderedInsert (· ≤ ·) proc

/-- `binder_cleanup_ref_olocked` + `binder_free_ref`. -/
def cleanupRef (s : State) (proc : ProcId) (desc : Desc) : State :=
  match s.ref? proc desc with
  | none => s
  | some r =>
    let s := s.modifyProc proc fun p =>
      { p with refsByDesc := p.refsByDesc.erase desc, refsByNode := p.refsByNode.erase r.node }
    let s := if r.strong ≠ 0 then s.decNode r.node true true else s
    let s := s.modifyNode r.node fun n => { n with refs := n.refs.erase proc }
    let s := s.decNode r.node false true
    match r.death with
    | none => s
    | some death =>
      let s := s.dequeueDeathWork death
      { s with deaths := s.deaths.erase death }

/-- A 32-bit count, incremented. -/
def wrapSucc (n : ℕ) : ℕ := (n + 1) % 2 ^ 32

/-- `binder_inc_ref_olocked`. -/
def incRef (proc : ProcId) (desc : Desc) (strong : Bool) (target : Option (ProcId × Tid)) :
    Op Errno Unit := do
  let s ← Prog.get
  let _ ← Prog.expect (.missing .procs) (s.procs.lookup proc)
  let r ← Prog.expect (.missing .refs) (s.ref? proc desc)
  if (if strong then r.strong else r.weak) = 0 then incNode r.node strong true target
  Prog.modify fun s =>
    s.modifyRef proc desc fun r =>
      if strong then { r with strong := wrapSucc r.strong } else { r with weak := wrapSucc r.weak }

/-- `binder_inc_ref_for_node`: the handle `proc` holds for `node`, created with the lowest free
descriptor if needed. -/
def incRefForNode (proc : ProcId) (node : NodeId) (strong : Bool)
    (target : Option (ProcId × Tid)) : Op Errno Desc := do
  let s ← Prog.get
  let p ← Prog.orThrow .ESRCH (s.procs.lookup proc)
  match p.refsByNode.lookup node with
  | some desc =>
    incRef proc desc strong target
    return desc
  | none =>
    let isMgr ← isContextManager node
    let first := if isMgr then 0 else 1
    let used := p.refsByDesc.keys.filter (first ≤ ·)
    let desc := lowestFree first (used.insertionSort (· ≤ ·))
    Prog.modify fun s => s.modifyProc proc fun p =>
      { p with refsByDesc := p.refsByDesc.insert desc { node }
               refsByNode := p.refsByNode.insert node desc }
    let s ← Prog.get
    let _ ← Prog.orThrow .EINVAL (s.nodes.lookup node)
    Prog.modify fun s => s.modifyNode node fun n => { n with refs := insertHolder proc n.refs }
    match ← Prog.attempt (incRef proc desc strong target) with
    | .ok () => return desc
    | .error e =>
      Prog.modify fun s => s.cleanupRef proc desc
      Prog.throw e

def releaseTargetNode (s : State) (node : Option NodeId) : State :=
  match node with
  | some node => s.decNode node true false
  | none => s

def record (s : State) (proc : ProcId) (offset : ℕ) (r : BufferRecord) : State :=
  s.modifyBuffer proc offset fun b => { b with objects := b.objects ++ [r] }

end State

end Aim.Binder
