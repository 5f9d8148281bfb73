import Onlyio.Model.Exec

/-!
# The life of a thread (`Runtime::block_on`, `Drop for Slab`)

`block_on` as the source writes it, one move after another: the root is spawned, and the loop
submits, waits, collects the completions, handles them and drains the wake list, with a check of
`tasks.count()` after the spawn, after the wait and at the end of each iteration. The kernel may
move between any two of these. `submit_and_wait` may return `Err` after the entries were pushed, and
then `block_on` returns it; another `block_on` or a `spawn` may follow on the same thread.

At the end of the thread the runtime is dropped. Its thread-local is being destroyed then, so
`release_read_buf` does nothing.
-/

namespace Onlyio

variable {σ : Type}

/-- Where `block_on` stands. -/
inductive Stage where
  /-- Between two calls of `block_on`. -/
  | idle
  /-- About to free the slots and to compare `tasks.count()` with zero; the loop goes on with
  `next`. -/
  | check (next : Stage)
  /-- About to call `submit_and_wait`. -/
  | submit
  /-- About to collect the completions. -/
  | collect
  /-- `n` completions are collected and not handled. -/
  | entries (n : Nat)
  /-- `Ok(())`. -/
  | returned
  deriving DecidableEq

/-- The states that a thread goes through, with where its `block_on` stands. -/
inductive Thread (code : Code σ) : Stage → State σ → Prop where
  | new {base : Nat} {s : State σ} (h : State.new base = .ok s) : Thread code .idle s
  | consume {stage : Stage} {s s' : State σ} (ht : Thread code stage s)
      (ha : act code .consume s = .ok () s') : Thread code stage s'
  | complete {stage : Stage} {s s' : State σ} (id : Nat) (result : Int32) (flags : UInt32)
      (ht : Thread code stage s) (ha : act code (.complete id result flags) s = .ok () s') :
      Thread code stage s'
  /-- `spawn`, outside `block_on`. -/
  | spawn {s s' : State σ} (fuel : Nat) (c : σ) (ht : Thread code .idle s)
      (ha : act code (.spawn fuel c) s = .ok () s') : Thread code .idle s'
  /-- `block_on` begins. -/
  | blockOn {s s' : State σ} (fuel : Nat) (c : σ) (ht : Thread code .idle s)
      (ha : act code (.spawn fuel c) s = .ok () s') : Thread code (.check .submit) s'
  | free {next : Stage} {s s' : State σ} (ht : Thread code (.check next) s)
      (ha : act code .free s = .ok () s') :
      Thread code (if s'.tasks.count = 0 then .returned else next) s'
  /-- `submit_and_wait` returns `Err`, and so does `block_on`. -/
  | err {s s' : State σ} (ht : Thread code .submit s) (ha : act code .submit s = .ok () s') :
      Thread code .idle s'
  | wait {s s' : State σ} (ht : Thread code .submit s) (ha : act code .submit s = .ok () s') :
      Thread code (.check .collect) s'
  /-- Without completions `block_on` panics. -/
  | collect {s : State σ} (ht : Thread code .collect s) (hne : s.ring.cq ≠ []) :
      Thread code (.entries s.ring.cq.length) s
  | handle {n : Nat} {s s' : State σ} (fuel : Nat) (ht : Thread code (.entries (n + 1)) s)
      (ha : act code (.handle fuel) s = .ok () s') : Thread code (.entries n) s'
  | drain {s s' : State σ} (fuel : Nat) (ht : Thread code (.entries 0) s)
      (ha : act code (.drain fuel) s = .ok () s') : Thread code (.check .submit) s'
  | leave {s : State σ} (ht : Thread code .returned s) : Thread code .idle s

/-- One move of a thread or of the kernel. -/
inductive Move (σ : Type) where
  | consume
  | complete (id : Nat) (result : Int32) (flags : UInt32)
  | spawn (fuel : Nat) (c : σ)
  | blockOn (fuel : Nat) (c : σ)
  | free
  | err
  | wait
  | collect
  | handle (fuel : Nat)
  | drain (fuel : Nat)
  | leave

/-- The state after a command that succeeds. -/
def ran (code : Code σ) (cmd : Cmd σ) (s : State σ) : Option (State σ) :=
  match act code cmd s with
  | .ok _ s' => some s'
  | .error _ _ => none

/-- Execute a move. -/
def threadMove (code : Code σ) (s : State σ) : Stage → Move σ → Option (Stage × State σ)
  | stage, .consume => (ran code .consume s).map fun s' => (stage, s')
  | stage, .complete id result flags =>
    (ran code (.complete id result flags) s).map fun s' => (stage, s')
  | .idle, .spawn fuel c => (ran code (.spawn fuel c) s).map fun s' => (.idle, s')
  | .idle, .blockOn fuel c => (ran code (.spawn fuel c) s).map fun s' => (.check .submit, s')
  | .check next, .free =>
    (ran code .free s).map fun s' => (if s'.tasks.count = 0 then .returned else next, s')
  | .submit, .err => (ran code .submit s).map fun s' => (.idle, s')
  | .submit, .wait => (ran code .submit s).map fun s' => (.check .collect, s')
  | .collect, .collect => if s.ring.cq.isEmpty then none else some (.entries s.ring.cq.length, s)
  | .entries (n + 1), .handle fuel => (ran code (.handle fuel) s).map fun s' => (.entries n, s')
  | .entries 0, .drain fuel => (ran code (.drain fuel) s).map fun s' => (.check .submit, s')
  | .returned, .leave => some (.idle, s)
  | _, _ => none

/-- Execute moves. -/
def threadScript (code : Code σ) : List (Move σ) → Stage → State σ → Option (Stage × State σ)
  | [], stage, s => some (stage, s)
  | m :: moves, stage, s => (threadMove code s stage m).bind fun c =>
    threadScript code moves c.1 c.2

/-- Execute moves on a fresh thread, with the buffers at address `0`. -/
def freshThread (code : Code σ) (moves : List (Move σ)) : Option (Stage × State σ) :=
  match State.new 0 with
  | .ok s => threadScript code moves .idle s
  | .error _ => none

section Script

variable {code : Code σ} {s s' : State σ} {stage stage' : Stage}

theorem ran_eq {cmd : Cmd σ} (h : ran code cmd s = some s') : act code cmd s = .ok () s' := by
  unfold ran at h
  split at h
  · rename_i ha
    rw [ha, Option.some.inj h]
  · cases h

theorem Thread.move {m : Move σ} (ht : Thread code stage s)
    (h : threadMove code s stage m = some (stage', s')) : Thread code stage' s' := by
  unfold threadMove at h
  split at h
  case h_8 =>
    split at h
    · cases h
    · rename_i hne
      obtain ⟨rfl, rfl⟩ := Prod.mk.inj (Option.some.inj h)
      exact .collect ht (by simpa using hne)
  case h_11 =>
    obtain ⟨rfl, rfl⟩ := Prod.mk.inj (Option.some.inj h)
    exact .leave ht
  case h_12 => cases h
  all_goals
    obtain ⟨s1, hran, heq⟩ := Option.map_eq_some_iff.mp h
    obtain ⟨rfl, rfl⟩ := Prod.mk.inj heq
  · exact .consume ht (ran_eq hran)
  · exact .complete _ _ _ ht (ran_eq hran)
  · exact .spawn _ _ ht (ran_eq hran)
  · exact .blockOn _ _ ht (ran_eq hran)
  · exact .free ht (ran_eq hran)
  · exact .err ht (ran_eq hran)
  · exact .wait ht (ran_eq hran)
  · exact .handle _ ht (ran_eq hran)
  · exact .drain _ ht (ran_eq hran)

theorem Thread.script {moves : List (Move σ)} (ht : Thread code stage s)
    (h : threadScript code moves stage s = some (stage', s')) : Thread code stage' s' := by
  induction moves generalizing stage s with
  | nil =>
    obtain ⟨rfl, rfl⟩ := Prod.mk.inj (Option.some.inj h)
    exact ht
  | cons m moves ih =>
    obtain ⟨c, hc, h⟩ := Option.bind_eq_some_iff.mp h
    exact ih (ht.move hc) h

/-- What moves reach, a thread reaches. -/
theorem Thread.of_moves {moves : List (Move σ)} (h : freshThread code moves = some (stage, s)) :
    Thread code stage s := by
  unfold freshThread at h
  split at h
  · rename_i s0 h0
    exact (Thread.new h0).script h
  · cases h

end Script

/-! ## The end of the thread -/

/-- Drop glue of a library value while `GLOBAL_RUNTIME` is destroyed: `release_read_buf` finds the
thread-local gone and does nothing. A `WBuffer` reaches its pool through its own pointer. -/
def lateDropValue : Value → Rt σ Unit
  | .wBuffer b => wBufferDrop b
  | .writeMultiple (.init _ b _) => wBufferDrop b
  | .writeMultiple (.pending _ _ _ _ b) => wBufferDrop b
  | _ => pure ()

/-- The locals of an `async` block, last declared first. -/
def lateDropLocals : List (Option Value) → Rt σ Unit
  | [] => pure ()
  | v :: rest => do
    lateDropLocals rest
    match v with
    | some v => lateDropValue v
    | none => pure ()

/-- `drop_fn`, then. -/
def lateDropFn (p : TaskPtr) : Rt σ Unit := do
  let locals := (← deref p).future.locals
  writeRaw p fun raw => { raw with future := { raw.future with locals := [] } }
  lateDropLocals locals
  logEvent p .dropped

/-- `Drop for Task`, and so `Task::release`, then. -/
def lateRelease (p : TaskPtr) : Rt σ Unit := do
  releaseRef lateDropFn p
  let _ ← readCounter p

theorem lateRelease_eq (p : TaskPtr) : (lateRelease p : Rt σ Unit) = releaseRef lateDropFn p :=
  discard_readCounter _ p

/-- `Drop for SlabSlot`. -/
def slotDrop (slot : SlabSlot TaskPtr) : Rt σ Unit :=
  if slot.isFree then pure ()
  else
    match slot with
    | .task p => lateRelease p
    | .idx _ => throw .dangling

/-- The loop of `Drop for Slab`. -/
def dropSlots : List (SlabSlot TaskPtr) → Rt σ Unit
  | [] => pure ()
  | slot :: slots => do
    slotDrop slot
    dropSlots slots

/-- `Drop for Slab`, when the runtime is dropped. -/
def slabDrop : Rt σ Unit := do
  dropSlots (← get).tasks.slots

end Onlyio
