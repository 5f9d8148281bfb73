import Onlyio.Model.Calls

/-!
# Tasks that run, and whole runs

The code of the tasks is a parameter: `code : Code σ` says what an `async` block does next at each
of its points, and at which of them the program may begin one. An instruction polls, drops or moves
a library value, spawns, suspends the block or returns; every `async` block written over the library
that does not call `WBuffer::submit` is such a code, adaptive and non-terminating ones included.
`Machine.Submits` adds that call. `pollFn` runs a block until it suspends or returns, with fuel,
since a block may also loop for ever inside one poll; `spawn` runs the child in the middle of its
parent's poll.

A run is a sequence of commands (`Cmd`): calls the program makes from outside any poll, the calls
`block_on` makes, and the kernel's moves. `act` executes one command, so that a concrete run
evaluates; `RunWith` is what is reached when every step meets a condition.
-/

namespace Onlyio

variable {σ : Type}

/-! ## Code -/

/-- The type of a library value, as `rustc` sees it. -/
inductive Kind where
  | future
  | acceptStream
  | readStream
  | rwBuffer
  | wBuffer
  deriving Repr, DecidableEq

/-- The type of a value. -/
def Value.kind : Value → Kind
  | .acceptStream _ => .acceptStream
  | .readStream _ => .readStream
  | .rwBuffer _ => .rwBuffer
  | .wBuffer _ => .wBuffer
  | _ => .future

/-- A call that builds a future: nothing happens before its first poll. -/
inductive Op where
  | accept (listenFd : Int32)
  | read (fd : UInt32)
  | write (fd : UInt32) (bufId : UInt16) (len : UInt32)
  | connect (addr : SockAddr)
  /-- `RwBuffer::commit`, which consumes the buffer. -/
  | commit (buf : Var) (len : UInt32)
  /-- `WBuffer::write_multiple`, which consumes the buffer. -/
  | writeMultiple (buf : Var) (fds : List UInt32) (len : UInt32)
  deriving Repr, DecidableEq

/-- A call that builds a stream. -/
inductive StreamOp where
  | acceptStream (listenFd : Int32)
  | readStream (fd : UInt32)
  deriving Repr, DecidableEq

/-- What an `async` block does next; `σ` is the rest of its code. -/
inductive Instr (σ : Type) where
  /-- The block returns. -/
  | ret
  /-- The block's poll returns `Pending`; the next one continues at `k`. -/
  | suspend (k : σ)
  | make (op : Op) (k : Var → σ)
  | makeStream (op : StreamOp) (k : Var → σ)
  /-- `Future::poll`, or `poll_next` of a stream; `none` is `Pending`. -/
  | poll (v : Var) (k : Option Resp → σ)
  | drop (v : Var) (k : σ)
  /-- `spawn(child)`, where `child` is an `async move` block that takes `moved`. -/
  | spawn (child : σ) (moved : List (Kind × Var)) (k : σ)
  /-- `alloc_write_buffer`. -/
  | allocWrite (k : Var → σ)
  | cloneWrite (v : Var) (k : Var → σ)

/-- The code of a program. -/
structure Code (σ : Type) where
  /-- What a block does next at each of its points. -/
  instr : σ → Instr σ
  /-- The points where a block begins that is spawned from outside any poll. -/
  entry : σ → Bool

instance : CoeFun (Code σ) fun _ => σ → Instr σ := ⟨Code.instr⟩

/-! ## Locals -/

/-- Rewrite the locals of `p`'s block. -/
def writeLocals (p : TaskPtr) (f : List (Option Value) → List (Option Value)) : Rt σ Unit :=
  writeRaw p fun raw => { raw with future := { raw.future with locals := f raw.future.locals } }

/-- The value in local `v`. -/
def getLocal (p : TaskPtr) (v : Var) : Rt σ Value := do
  match (← deref p).future.locals[v]? with
  | some (some val) => return val
  | _ => throw .illTyped

/-- Move the value out of local `v`. -/
def takeLocal (p : TaskPtr) (v : Var) : Rt σ Value := do
  let val ← getLocal p v
  writeLocals p fun locals => locals.set v none
  return val

/-- Bind a value to a fresh local. -/
def addLocal (p : TaskPtr) (val : Value) : Rt σ Var := do
  let v := (← deref p).future.locals.length
  writeLocals p fun locals => locals ++ [some val]
  return v

/-- Move the captured values of a spawned block out of the locals. -/
def takeMoved (p : TaskPtr) : List (Kind × Var) → Rt σ (List (Option Value))
  | [] => return []
  | (kind, v) :: rest => do
    let val ← takeLocal p v
    if val.kind = kind then return some val :: (← takeMoved p rest)
    else throw .illTyped

/-- The future a call builds. -/
def makeValue (p : TaskPtr) : Op → Rt σ Value
  | .accept fd => return .accept (.pending fd)
  | .read fd => return .read (.init fd)
  | .write fd bufId len => return .write (.init fd bufId len)
  | .connect addr => return .socket (.createSocket addr)
  | .commit buf len => do
    match ← takeLocal p buf with
    | .rwBuffer b => return .commitFn b len
    | _ => throw .illTyped
  | .writeMultiple buf fds len => do
    match ← takeLocal p buf with
    | .wBuffer b => return .writeMultiple (.init fds b len)
    | _ => throw .illTyped

/-- The stream a call builds. -/
def StreamOp.value : StreamOp → Value
  | .acceptStream fd => .acceptStream ⟨fd, .init⟩
  | .readStream fd => .readStream ⟨fd, .init⟩

/-! ## One instruction -/

/-- What the poll of a block does after one instruction. -/
inductive Ctl (σ : Type) where
  | fin (r : Poll Unit)
  | again
  | spawn (child : AsyncBlock σ)

/-- The block of `p` continues at `k`. -/
def goto (p : TaskPtr) (k : σ) : Rt σ (Ctl σ) := do
  writeRaw p fun raw => { raw with future := { raw.future with code := some k } }
  return .again

/-- Bind what a poll handed back. -/
def bindOut (p : TaskPtr) : Out → Rt σ (Option Resp)
  | .pending => return none
  | .ready r => return some r
  | .buffer b => do
    let v ← addLocal p (.rwBuffer b)
    return some (.buffer v b.bytes)

/-- Poll the value in local `v` of `p`'s block. -/
def pollLocal (p : TaskPtr) (v : Var) : Rt σ (Option Resp) := do
  let val ← getLocal p v
  let s ← get
  let info := s.currentTask
  let (out, val') ← pollValue ⟨p, v⟩ val
  writeLocals p fun locals => locals.set v (some val')
  let r ← bindOut p out
  logEvent p (.call v val info (s.rivals p info.tag.syscallNb) r)
  return r

/-- The block of `p` returns: its locals are dropped, then `Task::poll` returns `Ready`. -/
def finish (p : TaskPtr) : Rt σ Unit := do
  let raw ← deref p
  let rivals := (← get).rivals p raw.syscallNb
  writeRaw p fun raw => { raw with future := ⟨none, []⟩ }
  dropLocals raw.future.locals
  logEvent p (.ready rivals)

/-- Execute the next instruction of `p`'s block. -/
def stepCode (code : Code σ) (p : TaskPtr) : Rt σ (Ctl σ) := do
  match (← deref p).future.code with
  | none => throw (.panic .resumed)
  | some c =>
    match code c with
    | .ret => do
      finish p
      return .fin (.ready ())
    | .suspend k => do
      let _ ← goto p k
      return .fin .pending
    | .make op k => do
      let val ← makeValue p op
      let v ← addLocal p val
      goto p (k v)
    | .makeStream op k => do
      let v ← addLocal p op.value
      goto p (k v)
    | .poll v k => do
      let r ← pollLocal p v
      goto p (k r)
    | .drop v k => do
      dropValue (← takeLocal p v)
      goto p k
    | .spawn child moved k => do
      let locals ← takeMoved p moved
      let _ ← goto p k
      return .spawn ⟨some child, locals⟩
    | .allocWrite k => do
      let b ← allocWriteBuffer
      let v ← addLocal p (.wBuffer b)
      goto p (k v)
    | .cloneWrite v k => do
      match ← getLocal p v with
      | .wBuffer b =>
        let b' ← wBufferClone b
        let v' ← addLocal p (.wBuffer b')
        goto p (k v')
      | _ => throw .illTyped

/-! ## Polls, spawns and completions -/

/-- `Task::poll`: `poll_fn` is called unconditionally. -/
def taskPoll (pollFn : TaskPtr → Rt σ (Poll Unit)) (p : TaskPtr) : Rt σ (Poll Unit) := do
  logEvent p (.poll (← get).currentTask)
  pollFn p

/-- `spawn`, up to the first poll. -/
def spawnBegin (future : AsyncBlock σ) : Rt σ (TaskPtr × TaskInfo) := do
  let task ← taskNew future
  let copy ← taskClone task
  let taskIdx ← tasksInsert copy
  let oldContext := (← get).currentTask
  modify fun s => { s with currentTask := .initialPoll taskIdx }
  return (task, oldContext)

/-- `spawn`, after the first poll: `task.release()`, the context restored, `task` dropped. -/
def spawnEnd (task : TaskPtr) (oldContext : TaskInfo) : Rt σ Unit := do
  release task
  modify fun s => { s with currentTask := oldContext }
  release task

/-- `spawn`. -/
def spawn (pollFn : TaskPtr → Rt σ (Poll Unit)) (future : AsyncBlock σ) : Rt σ Unit := do
  let (task, oldContext) ← spawnBegin future
  let _ ← taskPoll pollFn task
  spawnEnd task oldContext

/-- `poll_fn` of a task whose future is an `async` block over `code`. -/
def pollFn (code : Code σ) : Nat → TaskPtr → Rt σ (Poll Unit)
  | 0, _ => throw .fuel
  | n + 1, p => do
    match ← stepCode code p with
    | .fin r => return r
    | .again => pollFn code n p
    | .spawn child => do
      spawn (pollFn code n) child
      pollFn code n p

/-- The dispatch of `Runtime::handle_cqe_entry` on a classified completion. -/
def dispatch (pollFn : TaskPtr → Rt σ (Poll Unit)) (task : TaskPtr) (taskInfo : TaskInfo) :
    SyscallNbCompResult → Rt σ Unit
  | .error => throw (.panic .newerSqe)
  | .expired => pure ()
  | .normal => do
    if taskInfo.tag.syscallNb = 0xFFFF then throw (.panic .tagOverflow)
    else
      augmenteSyscallNb task
      modify fun s => { s with currentTask :=
        { taskInfo with tag.syscallNb := taskInfo.tag.syscallNb + 1 } }
      let _ ← taskPoll pollFn task
  | .multiple => do
    modify fun s => { s with currentTask := taskInfo }
    let _ ← taskPoll pollFn task

/-- `Runtime::handle_cqe_entry`; the clone goes out of scope at the end. -/
def handleCqeEntry (pollFn : TaskPtr → Rt σ (Poll Unit)) (entry : Cqe) : Rt σ Unit := do
  let isMultishoot := more entry.flags
  let taskInfo := TaskInfo.fromEntry entry
  let task ← taskClone (← tasksIndex taskInfo.tag.taskIdx)
  let cls := evaluateSyscallNb (← deref task).syscallNb taskInfo.tag.syscallNb
  logEvent task (.cqe entry cls ((← get).others task entry.sqe))
  dispatch pollFn task taskInfo cls
  if !isMultishoot then release task
  release task

/-- The wake-list loop of `block_on`. -/
def drainWakeList (pollFn : TaskPtr → Rt σ (Poll Unit)) : Nat → Rt σ Unit
  | 0 => throw .fuel
  | n + 1 => do
    match (← get).runtimeWakeList with
    | [] => pure ()
    | awake :: rest =>
      modify fun s => { s with runtimeWakeList := rest, currentTask := awake }
      let task ← taskClone (← tasksIndex awake.tag.taskIdx)
      let _ ← taskPoll pollFn task
      release task
      drainWakeList pollFn n

/-! ## The ring -/

/-- `Runtime::submit_and_wait`, as far as the state goes: `push_multiple` takes the whole batch or
refuses it. -/
def submitAndWait : Rt σ Unit := do
  let s ← get
  if s.ring.sq.length + s.pending.length ≤ s.ring.entries then
    modify fun s => { s with ring.sq := s.ring.sq ++ s.pending, pending := [] }
  else throw (.panic .sqFull)

/-- The kernel consumes the oldest entry of the submission queue. -/
def kernelConsume : Rt σ Unit := do
  match (← get).ring.sq with
  | [] => throw .notKernel
  | q :: sq => modify fun s => { s with ring.sq := sq, ring.inflight := s.ring.inflight ++ [q] }

/-- The kernel posts a completion of the SQE `id`: only a multishot one may answer with
`F_MORE`, and nothing follows an answer without it. -/
def kernelComplete (id : Nat) (result : Int32) (flags : UInt32) : Rt σ Unit := do
  let s ← get
  match s.ring.inflight.find? (fun q => q.id == id) with
  | none => throw .notKernel
  | some q =>
    if (s.ring.cq.all fun c => c.sqe.id != id || more c.flags) && (!more flags || q.op.isMultishot)
    then modify fun s => { s with ring.cq := s.ring.cq ++ [⟨q, result, flags⟩] }
    else throw .notKernel

/-- `block_on` takes the oldest completion; the kernel is done with an SQE at its last one. -/
def takeCqe : Rt σ Cqe := do
  match (← get).ring.cq with
  | [] => throw .notKernel
  | c :: cq =>
    modify fun s => { s with
      ring.cq := cq
      ring.inflight := if more c.flags then s.ring.inflight else s.ring.inflight.erase c.sqe }
    return c

/-! ## Runs -/

/-- One move of a run. A poll that the command causes gets `fuel` instructions per block. -/
inductive Cmd (σ : Type) where
  /-- `spawn` from outside any poll, as `block_on` begins. -/
  | spawn (fuel : Nat) (c : σ)
  | submit
  | consume
  | complete (id : Nat) (result : Int32) (flags : UInt32)
  /-- `handle_cqe_entry` on the oldest completion. -/
  | handle (fuel : Nat)
  /-- `free_unsed_slab_slot`. -/
  | free
  /-- The wake-list loop. -/
  | drain (fuel : Nat)

/-- Execute a command. -/
def act (code : Code σ) : Cmd σ → Rt σ Unit
  | .spawn fuel c =>
    if code.entry c then spawn (pollFn code fuel) ⟨some c, []⟩ else throw .illTyped
  | .submit => submitAndWait
  | .consume => kernelConsume
  | .complete id result flags => kernelComplete id result flags
  | .handle fuel => do handleCqeEntry (pollFn code fuel) (← takeCqe)
  | .free => freeUnsedSlabSlot
  | .drain fuel => drainWakeList (pollFn code fuel) fuel

/-- `Runtime::new(DEFAULT_RING_ENTRIES, DEFAULT_MAX_CONNECTIONS)` and the other thread-locals, with
the buffers at address `base`. -/
def State.new (base : Nat) : Except Fault (State σ) := do
  let buffer ← BufPool.new base 512 512
  let tasks ← Slab.withCapacity ⟨16, by decide⟩
  return {
    tasks
    ring := { entries := 1024, sq := [], inflight := [], cq := [] }
    buffer
    pending := []
    bufRing := BufRing.new base buffer.readCount
    currentTask := .dummy
    runtimeFreeList := []
    runtimeWakeList := []
    heap := []
    stack := []
    nextSqe := 0 }

/-- The states reached from a fresh thread by commands that each meet `ok`. -/
inductive RunWith (code : Code σ) (ok : State σ → State σ → Prop) : State σ → Prop where
  | new {base : Nat} {s : State σ} (h : State.new base = .ok s) : RunWith code ok s
  | act {s s' : State σ} (cmd : Cmd σ) (h : RunWith code ok s)
      (ha : act code cmd s = .ok () s') (hok : ok s s') : RunWith code ok s'

theorem RunWith.mono {code : Code σ} {ok ok' : State σ → State σ → Prop}
    (hok : ∀ s s', ok s s' → ok' s s') {s : State σ} (h : RunWith code ok s) :
    RunWith code ok' s := by
  induction h with
  | new h => exact .new h
  | act cmd _ ha hs ih => exact .act cmd ih ha (hok _ _ hs)

/-- The states reached from a fresh thread. -/
abbrev Reachable (code : Code σ) : State σ → Prop := RunWith code fun _ _ => True

/-- Execute commands as long as each one succeeds and meets `ok`. -/
def script (code : Code σ) (ok : State σ → State σ → Bool) :
    List (Cmd σ) → State σ → Option (State σ)
  | [], s => some s
  | cmd :: cmds, s =>
    match act code cmd s with
    | .ok _ s' => if ok s s' then script code ok cmds s' else none
    | .error _ _ => none

/-- Execute commands on a fresh thread, with the buffers at address `0`. -/
def freshScript (code : Code σ) (ok : State σ → State σ → Bool) (cmds : List (Cmd σ)) :
    Option (State σ) :=
  match State.new 0 with
  | .ok s => script code ok cmds s
  | .error _ => none

theorem RunWith.script {code : Code σ} {ok : State σ → State σ → Prop}
    {okb : State σ → State σ → Bool} (hok : ∀ s s', okb s s' = true → ok s s')
    {cmds : List (Cmd σ)} :
    ∀ {s s' : State σ}, RunWith code ok s → script code okb cmds s = some s' →
      RunWith code ok s' := by
  induction cmds with
  | nil =>
    intro s s' hr h
    obtain rfl := Option.some.inj h
    exact hr
  | cons cmd cmds ih =>
    intro s s' hr h
    simp only [Onlyio.script] at h
    split at h
    · rename_i u s1 hact
      split at h
      · rename_i hb
        exact ih (.act cmd hr hact (hok s s1 hb)) h
      · cases h
    · cases h

/-- What a script reaches is reached by a run. -/
theorem RunWith.of_script {code : Code σ} {ok : State σ → State σ → Prop}
    {okb : State σ → State σ → Bool} (hok : ∀ s s', okb s s' = true → ok s s')
    {cmds : List (Cmd σ)} {s : State σ} (h : freshScript code okb cmds = some s) :
    RunWith code ok s := by
  unfold freshScript at h
  split at h
  · rename_i s0 h0
    exact RunWith.script hok (.new h0) h
  · cases h

end Onlyio
