import Onlyio.Model.Slab
import Onlyio.Model.BufPool

/-!
# The data of the runtime

The thread's whole state is one flat record (`State`): the fields of `GLOBAL_RUNTIME`, the other
thread-locals (`CURRENT_TASK`, `RUNTIME_FREE_LIST`, `RUNTIME_WAKE_LIST`), the task allocations, and
the kernel's side of the ring.

A task is an allocation in `heap`; a `Task` handle is its index (`TaskPtr`), and an allocation is
never reused, so that a handle names one task for ever. The future stored inline is an `async` block
(`AsyncBlock`): where its code stands and the library values it owns.

Three things are recorded for the specification only, and no function of the model reads them:
the `id`, `caller` and `oversize` of an SQE, and the `log` of a task.
-/

namespace Onlyio

/-! ## The library's futures (`calls/`) -/

/-- `libc::sockaddr_in`, as `connect` fills it. -/
structure SockAddr where
  ip : UInt32
  port : UInt16
  deriving Repr, DecidableEq

/-- `AcceptFuture`. -/
inductive AcceptFuture where
  | pending (fd : Int32)
  | submited
  deriving Repr, DecidableEq

/-- `ReadFuture`. -/
inductive ReadFuture where
  | init (fd : UInt32)
  | pending (fd : UInt32)
  deriving Repr, DecidableEq

/-- `WriteFuture`. -/
inductive WriteFuture where
  | init (fd : UInt32) (bufId : UInt16) (len : UInt32)
  | pending
  deriving Repr, DecidableEq

/-- `CommitFuture`. -/
inductive CommitFuture where
  | init (ptr : Nat) (bufIdx fdIdx len : UInt32)
  | pending (bufIdx : UInt32)
  deriving Repr, DecidableEq

/-- `SocketFuture`. -/
inductive SocketFuture where
  | createSocket (addr : SockAddr)
  | connecting (fd : UInt32) (addr : SockAddr)
  | pending
  deriving Repr, DecidableEq

/-- `WriteResult`: `Failed` and `Partial`. -/
inductive WriteResult where
  | failed (fd : UInt32)
  | short (fd len : UInt32)
  deriving Repr, DecidableEq

/-- `WriteMultipleFuture`. -/
inductive WriteMultipleFuture where
  | init (fds : List UInt32) (buffer : WBuffer) (len : UInt32)
  | pending (inFligthCount : UInt16) (fds : List UInt32) (faileds : List WriteResult)
      (len : UInt32) (buffer : WBuffer)
  | poisoned
  deriving Repr, DecidableEq

/-- `AcceptStreamState` and `ReadStreamState`. -/
inductive StreamState where
  | init
  | running
  | done
  deriving Repr, DecidableEq

/-- `AcceptStream`. -/
structure AcceptStream where
  listenFd : Int32
  state : StreamState
  deriving Repr, DecidableEq

/-- `ReadStream`. -/
structure ReadStream where
  fd : UInt32
  state : StreamState
  deriving Repr, DecidableEq

/-- `Poll`. -/
inductive Poll (α : Type) where
  | pending
  | ready (a : α)
  deriving Repr, DecidableEq

/-- A library value an `async` block owns. The `async fn`s `accept`, `read`, `write`, `connect` and
`write_multiple` only wrap their future, and share its states; `commit` holds the `RwBuffer`
until its first poll (`commitFn`). `returned` is any of these futures after `Ready`. -/
inductive Value where
  | accept (f : AcceptFuture)
  | read (f : ReadFuture)
  | write (f : WriteFuture)
  | commitFn (buf : RwBuffer) (len : UInt32)
  | commit (f : CommitFuture)
  | socket (f : SocketFuture)
  | writeMultiple (f : WriteMultipleFuture)
  | acceptStream (s : AcceptStream)
  | readStream (s : ReadStream)
  | rwBuffer (b : RwBuffer)
  | wBuffer (b : WBuffer)
  | returned
  deriving Repr, DecidableEq

/-- A local variable of an `async` block. A variable is never reused. -/
abbrev Var := Nat

/-- What a `Ready` poll hands to the code. A `RwBuffer` is stored in a fresh local; the code gets
that local and the public field `bytes`. -/
inductive Resp where
  | accepted (fd : UInt32)
  | acceptFailed (err : Int32)
  | buffer (v : Var) (bytes : UInt32)
  | readFailed (err : Int32)
  | written (result : Int32)
  | connected (fd : UInt32)
  | wroteMultiple (faileds : List WriteResult)
  | item (fd : UInt32)
  | none
  deriving Repr, DecidableEq

/-! ## Submissions and completions -/

/-- A `Task` handle. -/
abbrev TaskPtr := Nat

/-- The opcodes, with the arguments the runtime fills in. A CONNECT carries the address of a
`sockaddr_in` and its size. -/
inductive SqeOp where
  | read (fd : UInt32)
  | accept (fd : Int32)
  | writeFixed (fd : UInt32) (ptr : Nat) (len : UInt32) (bufIndex : UInt16)
  | recvMulti (fd : UInt32)
  | acceptMulti (fd : Int32)
  | connect (fd : UInt32) (addr : Nat) (addrLen : UInt32)
  | socket
  deriving Repr, DecidableEq

/-- The opcodes that may answer with `IORING_CQE_F_MORE`. -/
def SqeOp.isMultishot : SqeOp → Bool
  | .recvMulti _ | .acceptMulti _ => true
  | _ => false

/-- The opcodes that make the kernel select a buffer. -/
def SqeOp.selects : SqeOp → Bool
  | .read _ | .recvMulti _ => true
  | _ => false

/-- The future or stream whose poll submits: the task whose code runs, and the local polled. -/
structure Caller where
  task : TaskPtr
  var : Var
  deriving Repr, DecidableEq

/-- A submission queue entry. `id`, `caller` and `oversize` are for the specification; `oversize`
marks a fan-out of more than 65535 descriptors, whose count the source truncates. -/
structure Sqe where
  op : SqeOp
  userData : UInt64
  id : Nat
  caller : Caller
  oversize : Bool
  deriving Repr, DecidableEq

/-- The payload stamped into an SQE. -/
def Sqe.payload (q : Sqe) : UserDataPayload := UserDataPayload.fromUserData q.userData

/-- A completion queue entry: the kernel echoes the `user_data` of the SQE it answers. -/
structure Cqe where
  sqe : Sqe
  result : Int32
  flags : UInt32
  deriving Repr, DecidableEq

/-- `cqe.user_data()`. -/
def Cqe.userData (c : Cqe) : UInt64 := c.sqe.userData

/-- `cqueue::more`: `IORING_CQE_F_MORE`. -/
def more (flags : UInt32) : Bool := flags &&& 2 != 0

/-- `cqueue::buffer_select`: the buffer id when `IORING_CQE_F_BUFFER` is set. -/
def bufferSelect (flags : UInt32) : Option UInt16 :=
  if flags &&& 1 != 0 then some (flags >>> 16).toUInt16 else none

/-! ## The current task -/

/-- `Tag`. -/
structure Tag where
  taskIdx : SlabIdx
  syscallNb : UInt16
  deriving Repr, DecidableEq

/-- `TaskInfo`. -/
structure TaskInfo where
  tag : Tag
  result : Int32
  flags : UInt32
  responseGen : UInt16
  deriving Repr, DecidableEq

namespace TaskInfo

/-- `TaskInfo::dummy`: `SlabIdx::dummy()`, `i32::MIN`, `u32::MAX`, `u16::MAX`. -/
def dummy : TaskInfo := ⟨⟨0xFFFFFFFF, 0⟩, Int32.minValue, 0xFFFFFFFF, 0xFFFF⟩

/-- `TaskInfo::initial_poll`. -/
def initialPoll (taskIdx : SlabIdx) : TaskInfo := ⟨⟨taskIdx, 0⟩, Int32.maxValue, 0, 0xFFFF⟩

/-- `TaskInfo::from_entry`. -/
def fromEntry (entry : Cqe) : TaskInfo :=
  let payload := UserDataPayload.fromUserData entry.userData
  ⟨⟨payload.taskIdx, payload.syscallNb⟩, entry.result, entry.flags, payload.responseGen⟩

/-- `TaskInfo::set_to_next_task`. -/
def setToNextTask (info : TaskInfo) : TaskInfo :=
  ⟨⟨info.tag.taskIdx, tagAugmente info.tag.syscallNb⟩, Int32.minValue, 0, 0⟩

/-- `Into<UserDataPayload> for &TaskInfo`. -/
def payload (info : TaskInfo) : UserDataPayload :=
  ⟨info.tag.taskIdx, info.responseGen, info.tag.syscallNb⟩

end TaskInfo

/-! ## Tasks -/

/-- What happens to one task, in order. -/
inductive Event where
  /-- The task is created; its block has captured these values. -/
  | spawned (captured : List (Option Value))
  /-- `Task::poll` is called, with this `CURRENT_TASK`. -/
  | poll (info : TaskInfo)
  /-- `Task::poll` returns `Ready`, while `rivals` outstanding SQEs of the task carry its number. -/
  | ready (rivals : Nat)
  /-- The code polls the future or stream in local `v`, in this `CURRENT_TASK`, while `rivals`
  outstanding SQEs of the task carry the number of `CURRENT_TASK`; `none` is `Pending`. -/
  | call (v : Var) (before : Value) (info : TaskInfo) (rivals : Nat) (out : Option Resp)
  /-- An SQE is queued, while `rivals` outstanding SQEs of the task carry the same number. -/
  | submit (sqe : Sqe) (rivals : Nat)
  /-- `handle_cqe_entry` gets a completion for the task; `others` are the numbers of its
  outstanding SQEs besides the one that is answered. -/
  | cqe (entry : Cqe) (cls : SyscallNbCompResult) (others : List UInt16)
  /-- `drop_fn` has run. -/
  | dropped
  deriving Repr, DecidableEq

/-- The task got a completion that its number had outrun. -/
def Event.isExpired : Event → Bool
  | .cqe _ .expired _ => true
  | _ => false

theorem Event.exists_of_isExpired {ev : Event} (h : ev.isExpired = true) :
    ∃ e others, ev = .cqe e .expired others := by
  unfold isExpired at h
  split at h
  · exact ⟨_, _, rfl⟩
  · cases h

/-- The future of a task: `code` is `none` once the block has returned. -/
structure AsyncBlock (σ : Type) where
  code : Option σ
  locals : List (Option Value)

/-- `RawTask`, with the future behind it. -/
structure RawTask (σ : Type) where
  future : AsyncBlock σ
  refCounter : UInt16
  syscallNb : UInt16
  slabIdx : Option SlabIdx
  /-- The allocation was given back (`dealloc`). -/
  freed : Bool
  log : List Event

/-! ## The state -/

/-- The ring: entries pushed but not consumed, SQEs consumed whose last completion is not
handled, and completions not handled, oldest first. -/
structure IoUring where
  entries : Nat
  sq : List Sqe
  inflight : List Sqe
  cq : List Cqe

/-- The thread: `GLOBAL_RUNTIME`, the other thread-locals, the task allocations and the ring. -/
structure State (σ : Type) where
  tasks : Slab TaskPtr
  ring : IoUring
  buffer : BufPool 1
  pending : List Sqe
  bufRing : BufRing
  currentTask : TaskInfo
  runtimeFreeList : List SlabIdx
  runtimeWakeList : List TaskInfo
  heap : List (RawTask σ)
  /-- The locals of running calls whose address is taken, each at its address. -/
  stack : List SockAddr
  /-- The `id` of the next SQE. -/
  nextSqe : Nat

variable {σ : Type}

namespace State

/-- The SQEs that are pending, in the submission queue, or in the kernel with their last
completion not handled. -/
def outstanding (s : State σ) : List Sqe := s.pending ++ s.ring.sq ++ s.ring.inflight

/-- The outstanding SQEs of task `p` that carry the number `nb`. -/
def rivals (s : State σ) (p : TaskPtr) (nb : UInt16) : Nat :=
  s.outstanding.countP fun q => q.caller.task = p && q.payload.syscallNb = nb

/-- The numbers of the outstanding SQEs of task `p` besides `q`. -/
def others (s : State σ) (p : TaskPtr) (q : Sqe) : List UInt16 :=
  (s.outstanding.filter fun q' => q'.caller.task = p && q'.id != q.id).map
    fun q' => q'.payload.syscallNb

/-- What is read at the address of a local, if its call still runs. -/
def sockAddrAt (s : State σ) (addr : Nat) : Option SockAddr := s.stack[addr]?

/-- Rewrite the allocation behind `p`. -/
def modifyRaw (s : State σ) (p : TaskPtr) (f : RawTask σ → RawTask σ) : State σ :=
  { s with heap := s.heap.modify p f }

end State

/-- Code that runs on the thread. -/
abbrev Rt (σ : Type) := EStateM Fault (State σ)

/-- A fallible operation on a part of the state. -/
def liftExcept {α : Type} : Except Fault α → Rt σ α
  | .ok a => pure a
  | .error e => throw e

end Onlyio
