import Onlyio.Model.Exec
import Mathlib.Logic.Function.Basic

/-!
# The abstract machine: what the scheduler sees

The thread's state without the buffers and with the slab as the map it stands for. `Core` is what
the runtime knows of the tasks and of the ring; the futures stay beside it. The stack of polls in
progress, which the code keeps on the Rust stack, is explicit here: a `Frame` holds the handles its
poll owns and the `CURRENT_TASK` that a `spawn` restores.

Each operation of the runtime is a function on `Core`. `Polled` says what polling a library value
does: submit (one SQE, a multishot, a commit, a fan-out), read the context, or take one completion
of a fan-out.
-/

namespace Onlyio

/-! ## The state -/

/-- The allocation of a task without its future. -/
structure Cell where
  refCounter : Nat
  syscallNb : UInt16
  slabIdx : Option SlabIdx
  freed : Bool
  log : List Event

/-- The cell of a task that was never spawned. -/
def Cell.absent : Cell :=
  { refCounter := 0, syscallNb := 0, slabIdx := none, freed := true, log := [] }

/-- What the runtime knows of the tasks and of the ring. -/
structure Core where
  slots : SlabIdx → Option TaskPtr
  cell : TaskPtr → Cell
  /-- The tasks spawned so far are those below. -/
  spawned : Nat
  pending : List Sqe
  sq : List Sqe
  inflight : List Sqe
  cq : List Cqe
  current : TaskInfo
  freeList : List SlabIdx
  nextSqe : Nat

/-- How a poll was started: by `spawn`, which saved a context, or by `handle_cqe_entry`. -/
inductive Role where
  | spawn (oldContext : TaskInfo)
  | handle (final : Bool)
  deriving DecidableEq

/-- A poll in progress; `result` is set when the block has suspended or returned. -/
structure Frame where
  task : TaskPtr
  role : Role
  result : Option (Poll Unit)
  deriving DecidableEq

/-- The handles a frame releases when its poll is over: `task` and `copy` of `spawn`, the clone of
`handle_cqe_entry` and the token of an SQE whose last completion it handles. -/
def Frame.refs (f : Frame) : Nat :=
  match f.role with
  | .spawn _ => 2
  | .handle final => if final then 2 else 1

/-- The abstract state. -/
structure Config (σ : Type) where
  core : Core
  fut : TaskPtr → AsyncBlock σ
  stack : List Frame

/-! ## Operations -/

namespace Core

/-- The outstanding SQEs. -/
def outstanding (c : Core) : List Sqe := c.pending ++ c.sq ++ c.inflight

/-- The outstanding SQEs of `p` that carry `nb`. -/
def rivals (c : Core) (p : TaskPtr) (nb : UInt16) : Nat :=
  c.outstanding.countP fun q => q.caller.task = p && q.payload.syscallNb = nb

/-- The numbers of the outstanding SQEs of `p` besides `q`. -/
def others (c : Core) (p : TaskPtr) (q : Sqe) : List UInt16 :=
  (c.outstanding.filter fun q' => q'.caller.task = p && q'.id != q.id).map
    fun q' => q'.payload.syscallNb

/-- Rewrite the cell of `p`. -/
def modifyCell (c : Core) (p : TaskPtr) (f : Cell → Cell) : Core :=
  { c with cell := Function.update c.cell p (f (c.cell p)) }

/-- Record an event of `p`. -/
def logAt (c : Core) (p : TaskPtr) (e : Event) : Core :=
  c.modifyCell p fun cl => { cl with log := cl.log ++ [e] }

/-- `n` more references to `p`. -/
def bump (c : Core) (p : TaskPtr) (n : Nat) : Core :=
  c.modifyCell p fun cl => { cl with refCounter := cl.refCounter + n }

/-- Rewrite the stored number of `p`. -/
def mapNb (c : Core) (p : TaskPtr) (f : UInt16 → UInt16) : Core :=
  c.modifyCell p fun cl => { cl with syscallNb := f cl.syscallNb }

/-- The stored number of `p`. -/
def stored (c : Core) (p : TaskPtr) : UInt16 := (c.cell p).syscallNb

/-- The SQE that is queued next. -/
def nextEntry (c : Core) (me : Caller) (op : SqeOp) (userData : UInt64) (oversize : Bool) : Sqe :=
  { op, userData, id := c.nextSqe, caller := me, oversize }

/-- Queue an SQE. -/
def push (c : Core) (me : Caller) (op : SqeOp) (userData : UInt64) (oversize : Bool) : Core :=
  let sqe := c.nextEntry me op userData oversize
  let c' := c.logAt me.task (.submit sqe (c.rivals me.task sqe.payload.syscallNb))
  { c' with pending := c'.pending ++ [sqe], nextSqe := c'.nextSqe + 1 }

/-- `MULTIPLE_MASK` on the current task. -/
def setMultipleCurrent (c : Core) : Core :=
  { c with current.tag.syscallNb := setMultiple c.current.tag.syscallNb }

/-- A single-shot submission. -/
def sendOne (c : Core) (me : Caller) (op : SqeOp) : Core :=
  (c.bump me.task 1).push me op c.current.payload.intoUserData false

/-- A multishot submission: `MULTIPLE_MASK` on both sides. -/
def sendMultishot (c : Core) (me : Caller) (op : SqeOp) : Core :=
  let c := c.setMultipleCurrent
  ((c.mapNb me.task setMultiple).bump me.task 1).push me op c.current.payload.intoUserData false

/-- A commit: `MULTIPLE_MASK` on the current task only. -/
def sendCommit (c : Core) (me : Caller) (op : SqeOp) : Core :=
  c.setMultipleCurrent.sendOne me op

/-- The submissions of a fan-out: one SQE per descriptor, `response_gen` from `idx` on. -/
def pushAll (c : Core) (me : Caller) (payload : UserDataPayload) (ptr : Nat) (bufIndex : UInt16)
    (len : UInt32) (oversize : Bool) : List UInt32 → Nat → Core
  | [], _ => c
  | fd :: fds, idx =>
    (c.push me (.writeFixed fd ptr len bufIndex)
      { payload with responseGen := UInt16.ofNat idx }.intoUserData oversize).pushAll
        me payload ptr bufIndex len oversize fds (idx + 1)

/-- A fan-out; the count of references is truncated to 16 bits. -/
def fanOut (c : Core) (me : Caller) (buffer : WBuffer) (len : UInt32) (fds : List UInt32) : Core :=
  (c.pushAll me c.current.payload buffer.ptr buffer.index len (65535 < fds.length) fds 0).bump
    me.task (fds.length % 2 ^ 16)

/-- The last completion of a fan-out is taken: both numbers advance. -/
def advance (c : Core) (p : TaskPtr) : Core :=
  { c.mapNb p taskAugmente with current := c.current.setToNextTask }

/-- Whether releasing `n` references frees `p`. -/
def frees (c : Core) (p : TaskPtr) (n : Nat) : Bool := (c.cell p).refCounter = n

/-- `n` references to `p` are released; at zero the task is freed. -/
def release (c : Core) (p : TaskPtr) (n : Nat) : Core :=
  if c.frees p n then
    { c.modifyCell p (fun cl =>
        { cl with refCounter := 0, freed := true, log := cl.log ++ [.dropped] }) with
      freeList := c.freeList ++ (c.cell p).slabIdx.toList }
  else c.modifyCell p fun cl => { cl with refCounter := cl.refCounter - n }

/-- A task that has captured the values `L` is created in slot `i` and polled for the first time. -/
def enter (c : Core) (i : SlabIdx) (L : List (Option Value)) : Core :=
  { c with
    slots := Function.update c.slots i (some c.spawned)
    cell := Function.update c.cell c.spawned {
      refCounter := 2, syscallNb := 0, slabIdx := some i, freed := false,
      log := [.spawned L, .poll (.initialPoll i)] }
    spawned := c.spawned + 1
    current := .initialPoll i }

/-- The oldest completion is taken. -/
def take (c : Core) (e : Cqe) (cq : List Cqe) : Core :=
  { c with cq, inflight := if more e.flags then c.inflight else c.inflight.erase e.sqe }

/-- The context in which a completion is delivered, and the stored number then. -/
def deliver (c : Core) (p : TaskPtr) (e : Cqe) : SyscallNbCompResult → Core
  | .normal =>
    { c.mapNb p taskAugmente with current :=
      { TaskInfo.fromEntry e with tag.syscallNb := (TaskInfo.fromEntry e).tag.syscallNb + 1 } }
  | _ => { c with current := .fromEntry e }

/-- A completion is handed to its task: the clone, the record, the context, the poll. -/
def accept (c : Core) (p : TaskPtr) (e : Cqe) (cls : SyscallNbCompResult) : Core :=
  let c := ((c.bump p 1).logAt p (.cqe e cls (c.others p e.sqe))).deliver p e cls
  c.logAt p (.poll c.current)

end Core

/-! ## Polling a value -/

/-- A value whose poll submits one single-shot SQE, and the value it becomes. -/
inductive Sends (info : TaskInfo) : Value → SqeOp → Value → Prop where
  | accept (fd : Int32) : Sends info (.accept (.pending fd)) (.accept fd) (.accept .submited)
  | read (fd : UInt32) : Sends info (.read (.init fd)) (.read fd) (.read (.pending fd))
  | write (fd : UInt32) (bufId : UInt16) (len : UInt32) (ptr : Nat) :
      Sends info (.write (.init fd bufId len)) (.writeFixed fd ptr len bufId) (.write .pending)
  | socket (addr : SockAddr) :
      Sends info (.socket (.createSocket addr)) .socket (.socket (.connecting 0 addr))
  | connect (addr : SockAddr) :
      Sends info (.socket (.connecting 0 addr)) (.connect info.result.toUInt32 0 sockAddrSize)
        (.socket (.connecting info.result.toUInt32 addr))

theorem Sends.single {info : TaskInfo} {v v' : Value} {op : SqeOp} (h : Sends info v op v') :
    op.isMultishot = false := by
  cases h <;> rfl

/-- A stream that is polled for the first time. -/
inductive Opens : Value → SqeOp → Value → Prop where
  | accept (fd : Int32) :
      Opens (.acceptStream ⟨fd, .init⟩) (.acceptMulti fd) (.acceptStream ⟨fd, .running⟩)
  | read (fd : UInt32) :
      Opens (.readStream ⟨fd, .init⟩) (.recvMulti fd) (.readStream ⟨fd, .running⟩)

/-- A `commit` that is polled for the first time. -/
inductive Commits : Value → SqeOp → Value → Prop where
  | first (b : RwBuffer) (len : UInt32) :
      Commits (.commitFn b len) (.writeFixed b.fdIdx b.ptr len b.bufIdx.toUInt16)
        (.commit (.pending b.bufIdx))
  | init (ptr : Nat) (bufIdx fdIdx len : UInt32) :
      Commits (.commit (.init ptr bufIdx fdIdx len)) (.writeFixed fdIdx ptr len bufIdx.toUInt16)
        (.commit (.pending bufIdx))

/-- The state of a stream after an item with these flags. -/
def StreamState.next (flags : UInt32) : StreamState := if more flags then .running else .done

/-- A value whose poll reads the context and is ready. -/
inductive Resolves (info : TaskInfo) : Value → Out → Value → Prop where
  | accepted (h : 0 ≤ info.result) :
      Resolves info (.accept .submited) (.ready (.accepted info.result.toUInt32)) .returned
  | acceptFailed (h : ¬ 0 ≤ info.result) :
      Resolves info (.accept .submited) (.ready (.acceptFailed info.result)) .returned
  | readFailed (fd : UInt32) (h : info.result ≤ 0) :
      Resolves info (.read (.pending fd)) (.ready (.readFailed info.result)) .returned
  | read (fd : UInt32) (b : RwBuffer) (h : ¬ info.result ≤ 0)
      (hb : bufferSelect info.flags = some b.bufIdx.toUInt16) (hn : b.bytes = info.result.toUInt32)
      (hc : b.committed = false) : Resolves info (.read (.pending fd)) (.buffer b) .returned
  | written : Resolves info (.write .pending) (.ready (.written info.result)) .returned
  | committed (bufIdx : UInt32) :
      Resolves info (.commit (.pending bufIdx)) (.ready (.written info.result)) .returned
  | connected (fd : UInt32) (addr : SockAddr) (h : fd ≠ 0) :
      Resolves info (.socket (.connecting fd addr)) (.ready (.connected fd)) .returned
  | accepting (fd : Int32) (h : ¬ info.result < 0) :
      Resolves info (.acceptStream ⟨fd, .running⟩) (.ready (.item info.result.toUInt32))
        (.acceptStream ⟨fd, .next info.flags⟩)
  | acceptEnd (fd : Int32) (h : info.result < 0) :
      Resolves info (.acceptStream ⟨fd, .running⟩) (.ready .none) (.acceptStream ⟨fd, .done⟩)
  | acceptDone (fd : Int32) :
      Resolves info (.acceptStream ⟨fd, .done⟩) (.ready .none) (.acceptStream ⟨fd, .done⟩)
  | reading (fd : UInt32) (b : RwBuffer) (h : ¬ info.result < 0)
      (hb : bufferSelect info.flags = some b.bufIdx.toUInt16) (hn : b.bytes = info.result.toUInt32)
      (hc : b.committed = false) :
      Resolves info (.readStream ⟨fd, .running⟩) (.buffer b) (.readStream ⟨fd, .next info.flags⟩)
  | readEnd (fd : UInt32) (h : info.result < 0) :
      Resolves info (.readStream ⟨fd, .running⟩) (.ready .none) (.readStream ⟨fd, .done⟩)
  | readDone (fd : UInt32) :
      Resolves info (.readStream ⟨fd, .done⟩) (.ready .none) (.readStream ⟨fd, .done⟩)

/-- What polling a value does. -/
inductive Polled (me : Caller) (c : Core) : Value → Out → Value → Core → Prop where
  | send {v v' : Value} {op : SqeOp} (h : Sends c.current v op v') :
      Polled me c v .pending v' (c.sendOne me op)
  | opens {v v' : Value} {op : SqeOp} (h : Opens v op v') :
      Polled me c v .pending v' (c.sendMultishot me op)
  | commit {v v' : Value} {op : SqeOp} (h : Commits v op v') :
      Polled me c v .pending v' (c.sendCommit me op)
  | fanOut (fds : List UInt32) (b : WBuffer) (len : UInt32) (h : fds.length % 2 ^ 16 ≠ 0) :
      Polled me c (.writeMultiple (.init fds b len)) .pending
        (.writeMultiple (.pending (UInt16.ofNat fds.length) fds [] len b)) (c.fanOut me b len fds)
  | fanOne {n : UInt16} {fds : List UInt32} {faileds : List WriteResult} {len fd : UInt32}
      {b : WBuffer} (h : n ≠ 0) (hn : n - 1 ≠ 0)
      (hfd : fds[c.current.responseGen.toNat]? = some fd) (hused : fd ≠ 0xFFFFFFFF) :
      Polled me c (.writeMultiple (.pending n fds faileds len b)) .pending
        (.writeMultiple (.pending (n - 1) (fds.set c.current.responseGen.toNat 0xFFFFFFFF)
          (pushResult faileds fd c.current.result len) len b)) c
  | fanLast {n : UInt16} {fds : List UInt32} {faileds : List WriteResult} {len fd : UInt32}
      {b : WBuffer} (h : n ≠ 0) (hn : n - 1 = 0)
      (hfd : fds[c.current.responseGen.toNat]? = some fd) (hused : fd ≠ 0xFFFFFFFF) :
      Polled me c (.writeMultiple (.pending n fds faileds len b))
        (.ready (.wroteMultiple (pushResult faileds fd c.current.result len))) .returned
        (c.advance me.task)
  | resolve {v v' : Value} {out : Out} (h : Resolves c.current v out v') : Polled me c v out v' c

end Onlyio
