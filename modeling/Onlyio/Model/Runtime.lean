import Onlyio.Model.State

/-!
# Tasks and submissions (`task.rs`, the `send_*` functions of `runtime.rs`)

The functions of the source under their own names, over the thread's state. A `Task` handle that is
followed after its allocation was freed is the fault `dangling`. Handles on the Rust stack are not
values of the model: where one goes out of scope, the model calls `release`, as `Drop for Task`
does.

The five single-shot `send_*` functions differ in the opcode only (`sendOne`), and so do the two
multishot ones (`sendMultishot`). `send_commit_write` sets `MULTIPLE_MASK` on the current task and
not on the stored number, and keeps its own body.
-/

namespace Onlyio

variable {σ : Type}

/-! ## `task.rs` -/

/-- Follow a `Task` handle. -/
def deref (p : TaskPtr) : Rt σ (RawTask σ) := do
  match (← get).heap[p]? with
  | some raw => if raw.freed then throw .dangling else pure raw
  | none => throw .dangling

/-- Write to the allocation behind `p`. -/
def writeRaw (p : TaskPtr) (f : RawTask σ → RawTask σ) : Rt σ Unit :=
  modify fun s => s.modifyRaw p f

/-- Record an event of task `p`. -/
def logEvent (p : TaskPtr) (e : Event) : Rt σ Unit :=
  writeRaw p fun raw => { raw with log := raw.log ++ [e] }

/-- `Task::new`: one handle, number `0`, not yet in the slab. -/
def taskNew (future : AsyncBlock σ) : Rt σ TaskPtr := do
  let p := (← get).heap.length
  modify fun s => { s with heap := s.heap ++ [{
    future, refCounter := 1, syscallNb := 0, slabIdx := none, freed := false
    log := [.spawned future.locals] }] }
  return p

/-- The body `inc_rc` and `add_rc` share: the checked addition, then the assertion that compares
old and new counter under `MULTIPLE_MASK`. -/
def bumpRc (overflow mask : Panic) (p : TaskPtr) (count : UInt16) : Rt σ Unit := do
  let rc := (← deref p).refCounter
  if rc.toNat + count.toNat < 2 ^ 16 then
    if rc ||| multipleMask = (rc + count) ||| multipleMask then throw (.panic mask)
    else writeRaw p fun raw => { raw with refCounter := rc + count }
  else throw (.panic overflow)

/-- `Task::inc_rc`. -/
def incRc (p : TaskPtr) : Rt σ Unit := bumpRc .incRcOverflow .incRcMask p 1

/-- `Task::add_rc`. -/
def addRc (p : TaskPtr) (count : UInt16) : Rt σ Unit := bumpRc .addRcOverflow .addRcMask p count

/-- `Clone for Task`. -/
def taskClone (p : TaskPtr) : Rt σ TaskPtr := do
  incRc p
  return p

/-- `Task::augmente_syscall_nb`. -/
def augmenteSyscallNb (p : TaskPtr) : Rt σ Unit := do
  let nb := (← deref p).syscallNb
  writeRaw p fun raw => { raw with syscallNb := taskAugmente nb }

/-- `Task::set_multishot`. -/
def setMultishot (p : TaskPtr) : Rt σ Unit := do
  let nb := (← deref p).syscallNb
  writeRaw p fun raw => { raw with syscallNb := setMultiple nb }

/-! ## Buffers -/

/-- `release_read_buf`: `Runtime::release_buf_to_ring`. -/
def releaseReadBuf (bufIdx : UInt32) : Rt σ Unit := do
  let s ← get
  let mem ← liftExcept (s.bufRing.release s.buffer bufIdx)
  modify fun s => { s with bufRing := mem }

/-- `Clone for WBuffer`, on the runtime's pool. -/
def wBufferClone (b : WBuffer) : Rt σ WBuffer := do
  let (b', pool) ← liftExcept (b.clone (← get).buffer)
  modify fun s => { s with buffer := pool }
  return b'

/-- `Drop for WBuffer`, on the runtime's pool. -/
def wBufferDrop (b : WBuffer) : Rt σ Unit := do
  let pool ← liftExcept (b.drop (← get).buffer)
  modify fun s => { s with buffer := pool }

/-- `WBuffer::write`, on the runtime's pool. -/
def wBufferWrite (b : WBuffer) (fdIdx len : UInt32) (userData : UInt64) : Rt σ WriteFixed := do
  let (entry, pool) ← liftExcept (b.write fdIdx len userData (← get).buffer)
  modify fun s => { s with buffer := pool }
  return entry

/-- `alloc_write_buffer`. -/
def allocWriteBuffer : Rt σ WBuffer := do
  let (b, pool) ← liftExcept (← get).buffer.allocWrite
  modify fun s => { s with buffer := pool }
  return b

/-- `Drop for RwBuffer`. -/
def rwBufferDrop (b : RwBuffer) : Rt σ Unit :=
  if b.committed then pure () else releaseReadBuf b.bufIdx

/-- Drop glue of a library value. A `CommitFuture` and the streams have no `Drop`. -/
def dropValue : Value → Rt σ Unit
  | .rwBuffer b => rwBufferDrop b
  | .commitFn b _ => rwBufferDrop b
  | .wBuffer b => wBufferDrop b
  | .writeMultiple (.init _ b _) => wBufferDrop b
  | .writeMultiple (.pending _ _ _ _ b) => wBufferDrop b
  | _ => pure ()

/-- Drop the locals of an `async` block, last declared first. -/
def dropLocals : List (Option Value) → Rt σ Unit
  | [] => pure ()
  | v :: rest => do
    dropLocals rest
    match v with
    | some v => dropValue v
    | none => pure ()

/-- `drop_fn`: the future of `p` is dropped in place. -/
def dropFn (p : TaskPtr) : Rt σ Unit := do
  let locals := (← deref p).future.locals
  writeRaw p fun raw => { raw with future := { raw.future with locals := [] } }
  dropLocals locals
  logEvent p .dropped

/-- `Task::release` up to its last expression, with what its `drop_fn` does. At zero the future is
dropped, the allocation given back, and the slot queued in `RUNTIME_FREE_LIST`. -/
def releaseRef (drop : TaskPtr → Rt σ Unit) (p : TaskPtr) : Rt σ Unit := do
  let rc := (← deref p).refCounter
  if rc = 0 then throw (.panic .releaseUnderflow)
  else
    writeRaw p fun raw => { raw with refCounter := rc - 1 }
    if rc - 1 = 0 then
      drop p
      let raw ← deref p
      writeRaw p fun raw => { raw with freed := true }
      match raw.slabIdx with
      | some i => modify fun s => { s with runtimeFreeList := s.runtimeFreeList ++ [i] }
      | none => pure ()

/-- `*counter`, the last expression of `Task::release`. It is evaluated after `dealloc` too: then it
reads memory that is no longer the task's, and has no value. -/
def readCounter (p : TaskPtr) : Rt σ (Option UInt16) := do
  return (← get).heap[p]?.bind fun raw => if raw.freed then none else some raw.refCounter

/-- `Task::release`, and so `Drop for Task`. Its callers discard the counter. -/
def release (p : TaskPtr) : Rt σ Unit := do
  releaseRef dropFn p
  let _ ← readCounter p

/-- The last read stops nothing, and nothing depends on it. -/
theorem discard_readCounter (x : Rt σ Unit) (p : TaskPtr) :
    (do x; let _ ← readCounter p) = x := by
  funext s
  simp only [bind, EStateM.bind]
  cases x s <;> rfl

theorem release_eq (p : TaskPtr) : (release p : Rt σ Unit) = releaseRef dropFn p :=
  discard_readCounter _ p

/-! ## `runtime.rs` -/

/-- `rt.tasks[idx]`. -/
def tasksIndex (idx : SlabIdx) : Rt σ TaskPtr := do
  liftExcept ((← get).tasks.index idx)

/-- `rt.tasks.insert(task)`, with the `set_task_idx` inside it. -/
def tasksInsert (p : TaskPtr) : Rt σ SlabIdx := do
  let (idx, tasks) ← liftExcept ((← get).tasks.insert p)
  modify fun s => { s with tasks }
  writeRaw p fun raw => { raw with slabIdx := some idx }
  return idx

/-- `Runtime::set_current_task_multiple(true)`, the only call the source makes. -/
def setCurrentTaskMultiple : Rt σ Unit :=
  modify fun s => { s with currentTask.tag.syscallNb := setMultiple s.currentTask.tag.syscallNb }

/-- `Runtime::current_udata`. -/
def currentUdata : Rt σ UInt64 := do
  return (← get).currentTask.payload.intoUserData

/-- `self.pending.push(sqe)`, recorded in the log of the task whose code submits. -/
def pushPending (me : Caller) (op : SqeOp) (userData : UInt64) (oversize : Bool) : Rt σ Unit := do
  let s ← get
  let sqe : Sqe := { op, userData, id := s.nextSqe, caller := me, oversize }
  logEvent me.task (.submit sqe (s.rivals me.task sqe.payload.syscallNb))
  modify fun s => { s with pending := s.pending ++ [sqe], nextSqe := s.nextSqe + 1 }

/-- `WBuffer::submit`, on the runtime's pool: `sqe_queue_push`, with no reference to any task. -/
def wBufferSubmit (me : Caller) (b : WBuffer) (fdIdx len : UInt32) : Rt σ Unit := do
  let (entry, pool) ← liftExcept (b.submit fdIdx len (← get).buffer)
  pushPending me (.writeFixed entry.fd entry.ptr entry.len entry.bufIndex) entry.userData false
  modify fun s => { s with buffer := pool }

/-- The body of the single-shot `send_*` functions. -/
def sendOne (me : Caller) (op : BufPool 1 → SqeOp) : Rt σ Unit := do
  let udata ← currentUdata
  let taskIdx := (← get).currentTask.tag.taskIdx
  incRc (← tasksIndex taskIdx)
  pushPending me (op (← get).buffer) udata false

/-- `Runtime::send_read`. -/
def sendRead (me : Caller) (fd : UInt32) : Rt σ Unit := sendOne me fun _ => .read fd

/-- `Runtime::send_accept`. -/
def sendAccept (me : Caller) (listenFd : Int32) : Rt σ Unit := sendOne me fun _ => .accept listenFd

/-- `Runtime::send_write`. -/
def sendWrite (me : Caller) (fd : UInt32) (bufId : UInt16) (len : UInt32) : Rt σ Unit :=
  sendOne me fun pool => .writeFixed fd (pool.writeBufPtr bufId) len bufId

/-- `Runtime::send_connect`: `addr` is a pointer, and has to stay valid until the CQE. -/
def sendConnect (me : Caller) (fd : UInt32) (addr : Nat) (addrLen : UInt32) : Rt σ Unit :=
  sendOne me fun _ => .connect fd addr addrLen

/-- `Runtime::send_socket`. -/
def sendSocket (me : Caller) : Rt σ Unit := sendOne me fun _ => .socket

/-- The body of `send_recv_multishot` and `send_accept_multishot`: `MULTIPLE_MASK` on both sides. -/
def sendMultishot (me : Caller) (op : SqeOp) : Rt σ Unit := do
  setCurrentTaskMultiple
  let udata ← currentUdata
  let taskIdx := (← get).currentTask.tag.taskIdx
  setMultishot (← tasksIndex taskIdx)
  incRc (← tasksIndex taskIdx)
  pushPending me op udata false

/-- `Runtime::send_recv_multishot`. -/
def sendRecvMultishot (me : Caller) (fd : UInt32) : Rt σ Unit := sendMultishot me (.recvMulti fd)

/-- `Runtime::send_accept_multishot`. -/
def sendAcceptMultishot (me : Caller) (listenFd : Int32) : Rt σ Unit :=
  sendMultishot me (.acceptMulti listenFd)

/-- `Runtime::send_commit_write`: `MULTIPLE_MASK` on the current task, not on the stored number. -/
def sendCommitWrite (me : Caller) (ptr : Nat) (fdIdx len : UInt32) (bufId : UInt16) :
    Rt σ Unit := do
  setCurrentTaskMultiple
  let udata ← currentUdata
  let taskIdx := (← get).currentTask.tag.taskIdx
  incRc (← tasksIndex taskIdx)
  pushPending me (.writeFixed fdIdx ptr len bufId) udata false

/-- The loop of `send_multiple_write`: `buffer.clone().write(fd, len, user_data)` for each
descriptor, with `response_gen = idx as u16`. -/
def sendMultipleLoop (me : Caller) (payload : UserDataPayload) (buffer : WBuffer) (len : UInt32)
    (oversize : Bool) : List UInt32 → Nat → Rt σ Unit
  | [], _ => pure ()
  | fd :: fds, idx => do
    let b ← wBufferClone buffer
    let e ← wBufferWrite b fd len
      { payload with responseGen := UInt16.ofNat idx }.intoUserData
    pushPending me (.writeFixed e.fd e.ptr e.len e.bufIndex) e.userData oversize
    sendMultipleLoop me payload buffer len oversize fds (idx + 1)

/-- `Runtime::send_multiple_write`; `buffer` goes out of scope at the end. -/
def sendMultipleWrite (me : Caller) (fds : List UInt32) (buffer : WBuffer) (len : UInt32) :
    Rt σ Unit := do
  let payload := (← get).currentTask.payload
  sendMultipleLoop me payload buffer len (65535 < fds.length) fds 0
  addRc (← tasksIndex payload.taskIdx) (UInt16.ofNat fds.length)
  wBufferDrop buffer

/-- `Runtime::advance_syscall_nb`. -/
def advanceSyscallNb (tag : Tag) : Rt σ Unit := do
  augmenteSyscallNb (← tasksIndex tag.taskIdx)

/-- `Runtime::free_unsed_slab_slot`, the loop over the free list. -/
def freeSlots : List SlabIdx → Rt σ Unit
  | [] => pure ()
  | idx :: rest => do
    let tasks ← liftExcept ((← get).tasks.removeDroppedTask idx)
    modify fun s => { s with tasks }
    freeSlots rest

/-- `Runtime::free_unsed_slab_slot`. -/
def freeUnsedSlabSlot : Rt σ Unit := do
  freeSlots (← get).runtimeFreeList
  modify fun s => { s with runtimeFreeList := [] }

end Onlyio
