import Onlyio.Model.Exec

/-!
# Wakers (`Waker`, the wake list of `block_on`)

A `Waker` is the payload of a task, and owns one reference to it. No function of the crate makes
one; `Waker.new` is what its owner has to do, the conversion of the payload and `inc_rc`. `awake`
forgets the waker and queues a context made from its payload; `Drop` gives its reference back,
through the slab and inside a borrow of the runtime, so that a future dropped then must not return a
read buffer.

`drainPolled` is the body of the wake-list loop up to the poll.
-/

namespace Onlyio

variable {σ : Type}

/-- `Waker`. -/
structure Waker where
  payload : UserDataPayload
  deriving Repr, DecidableEq

/-- `TaskInfo::from_waker`: the number is the `response_gen` of the payload. -/
def TaskInfo.fromWaker (waker : Waker) : TaskInfo :=
  ⟨⟨waker.payload.taskIdx, waker.payload.responseGen⟩, Int32.minValue, 0xFFFFFFFF,
    waker.payload.responseGen⟩

/-- A waker that owns a reference to the task its payload names. -/
def Waker.new (payload : UserDataPayload) : Rt σ Waker := do
  incRc (← tasksIndex payload.taskIdx)
  return ⟨payload⟩

/-- `Waker::awake`. -/
def Waker.awake (waker : Waker) : Rt σ Unit :=
  modify fun s => { s with runtimeWakeList := s.runtimeWakeList ++ [.fromWaker waker] }

/-- Drop glue of a library value inside `GLOBAL_RUNTIME.with_borrow_mut`. -/
def borrowedDropValue : Value → Rt σ Unit
  | .rwBuffer b => if b.committed then pure () else throw (.panic .borrowed)
  | .commitFn b _ => if b.committed then pure () else throw (.panic .borrowed)
  | v => dropValue v

/-- The locals of an `async` block, last declared first. -/
def borrowedDropLocals : List (Option Value) → Rt σ Unit
  | [] => pure ()
  | v :: rest => do
    borrowedDropLocals rest
    match v with
    | some v => borrowedDropValue v
    | none => pure ()

/-- `drop_fn`, inside the borrow. -/
def borrowedDropFn (p : TaskPtr) : Rt σ Unit := do
  let locals := (← deref p).future.locals
  writeRaw p fun raw => { raw with future := { raw.future with locals := [] } }
  borrowedDropLocals locals
  logEvent p .dropped

/-- `Task::release`, inside the borrow. -/
def borrowedRelease (p : TaskPtr) : Rt σ Unit := do
  releaseRef borrowedDropFn p
  let _ ← readCounter p

theorem borrowedRelease_eq (p : TaskPtr) :
    (borrowedRelease p : Rt σ Unit) = releaseRef borrowedDropFn p :=
  discard_readCounter _ p

/-- `Drop for Waker`. -/
def Waker.drop (waker : Waker) : Rt σ Unit := do
  borrowedRelease (← tasksIndex waker.payload.taskIdx)

/-- One turn of the wake-list loop, up to the poll; `none` when the list is empty. -/
def drainPolled : Rt σ (Option TaskPtr) := do
  match (← get).runtimeWakeList with
  | [] => return none
  | awake :: rest =>
    modify fun s => { s with runtimeWakeList := rest, currentTask := awake }
    let task ← taskClone (← tasksIndex awake.tag.taskIdx)
    logEvent task (.poll (← get).currentTask)
    return some task

/-- The rest of a turn, and the turns after it. -/
def drainNext (f : TaskPtr → Rt σ (Poll Unit)) (n : Nat) : Option TaskPtr → Rt σ Unit
  | none => pure ()
  | some task => do
    let _ ← f task
    release task
    drainWakeList f n

theorem drain_eq (f : TaskPtr → Rt σ (Poll Unit)) (n : Nat) :
    drainWakeList f (n + 1) = drainPolled >>= drainNext f n := by
  simp only [drainWakeList, drainPolled, bind_assoc]
  refine bind_congr fun s => ?_
  cases s.runtimeWakeList with
  | nil => rfl
  | cons awake rest => simp only [taskPoll, bind_assoc, pure_bind, drainNext]

end Onlyio
