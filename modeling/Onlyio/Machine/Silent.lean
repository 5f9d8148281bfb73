import Onlyio.Machine.Invariant
import Onlyio.Machine.Stack
import Onlyio.Storage.SlabMap

/-!
# From the thread's state to the abstract machine

`State.core` and `State.fut` are the abstraction: the slab becomes the map it stands for, the
buffers are forgotten. `Silent` programs change nothing else: all the buffer traffic, and every drop
of a library value.

Faults are sorted at the same time. A fault is `soft` when the accounts do not exclude it: a pool
that is exhausted, a completion without a buffer, a counter that overflows. The others are a
followed dangling handle, a counter that underflows, a failed assertion of the slab, and a
completion newer than its task.
-/

namespace Onlyio

open Lib

variable {σ α β : Type}

/-! ## The abstraction -/

/-- A task's allocation without its future. -/
def RawTask.cell (raw : RawTask σ) : Cell :=
  { refCounter := raw.refCounter.toNat, syscallNb := raw.syscallNb, slabIdx := raw.slabIdx,
    freed := raw.freed, log := raw.log }

namespace State

/-- What the scheduler sees of a state. -/
def core (s : State σ) : Core :=
  { slots := s.tasks.get?
    cell := fun p => match s.heap[p]? with
      | some raw => raw.cell
      | none => .absent
    spawned := s.heap.length
    pending := s.pending
    sq := s.ring.sq
    inflight := s.ring.inflight
    cq := s.ring.cq
    current := s.currentTask
    freeList := s.runtimeFreeList
    nextSqe := s.nextSqe }

/-- The futures. -/
def fut (s : State σ) (p : TaskPtr) : AsyncBlock σ :=
  match s.heap[p]? with
  | some raw => raw.future
  | none => ⟨none, []⟩

/-- The abstract state, with the polls in progress. -/
def config (s : State σ) (st : List Frame) : Config σ := ⟨s.core, s.fut, st⟩

/-- What the abstraction forgets and the code relies on, with the wake list `l`. -/
structure Rep (s : State σ) (l : List TaskInfo := []) : Prop where
  sized : s.tasks.slots.length = s.tasks.len.toNat
  pos : 0 < s.tasks.len.toNat
  entries : s.ring.entries = 1024
  wakeList : s.runtimeWakeList = l
  stack : s.stack = []

variable {s : State σ} {p : TaskPtr} {raw : RawTask σ} {f : RawTask σ → RawTask σ}

theorem core_cell (h : s.heap[p]? = some raw) : s.core.cell p = raw.cell := by
  simp only [core, h]

theorem fut_eq (h : s.heap[p]? = some raw) : s.fut p = raw.future := by
  simp only [fut, h]

/-- A live task has an allocation. -/
theorem exists_raw (h : (s.core.cell p).freed = false) :
    ∃ raw, s.heap[p]? = some raw ∧ raw.freed = false := by
  cases hr : s.heap[p]? with
  | none =>
    simp only [core, hr] at h
    cases h
  | some raw =>
    rw [core_cell hr] at h
    exact ⟨raw, rfl, h⟩

theorem core_modifyRaw (h : s.heap[p]? = some raw) :
    (s.modifyRaw p f).core =
      { s.core with cell := Function.update s.core.cell p (f raw).cell } := by
  unfold core modifyRaw
  simp only [List.length_modify, Core.mk.injEq, true_and, and_true]
  funext q
  rw [Function.update_apply, List.getElem?_modify]
  by_cases hq : q = p
  · subst hq
    simp [h]
  · simp only [hq, if_false, Ne.symm hq, if_false]
    cases s.heap[q]? <;> rfl

theorem fut_modifyRaw (h : s.heap[p]? = some raw) :
    (s.modifyRaw p f).fut = Function.update s.fut p (f raw).future := by
  funext q
  unfold fut modifyRaw
  rw [Function.update_apply, List.getElem?_modify]
  by_cases hq : q = p
  · subst hq
    simp [h]
  · simp only [hq, if_false, Ne.symm hq, if_false]
    cases s.heap[q]? <;> rfl

/-- A write to the future alone. -/
theorem core_modifyRaw_eq (h : s.heap[p]? = some raw) (hf : (f raw).cell = raw.cell) :
    (s.modifyRaw p f).core = s.core := by
  rw [core_modifyRaw h, hf, ← core_cell h, Function.update_eq_self]

/-- A write to the rest of the allocation. -/
theorem fut_modifyRaw_eq (h : s.heap[p]? = some raw) (hf : (f raw).future = raw.future) :
    (s.modifyRaw p f).fut = s.fut := by
  rw [fut_modifyRaw h, hf, ← fut_eq h, Function.update_eq_self]

theorem Rep.modifyRaw {l : List TaskInfo} (h : s.Rep l) (p : TaskPtr) (f : RawTask σ → RawTask σ) :
    (s.modifyRaw p f).Rep l := ⟨h.sized, h.pos, h.entries, h.wakeList, h.stack⟩

end State

/-! ## Faults -/

/-- The faults that the accounts leave possible. -/
def Fault.soft : Fault → Bool
  | .dangling => false
  | .panic .newerSqe => false
  | .panic .releaseUnderflow => false
  | .panic .indexOutOfBounds => false
  | .panic (.slotLibre _) => false
  | .panic (.removeOutOfBounds _ _) => false
  | .panic (.removeLibre _) => false
  | _ => true

/-- Only soft faults. -/
def SoftErrors (x : Except Fault α) : Prop := ∀ e, x = .error e → e.soft = true

theorem SoftErrors.bind {x : Except Fault α} {f : α → Except Fault β} (hx : SoftErrors x)
    (hf : ∀ a, SoftErrors (f a)) : SoftErrors (x >>= f) := by
  intro e he
  cases x with
  | error e' =>
    obtain rfl := Except.error.inj he
    exact hx _ rfl
  | ok a => exact hf a e he

theorem softErrors_ok (a : α) : SoftErrors (.ok a) := fun _ h => nomatch h

theorem softErrors_error {e : Fault} (h : e.soft = true) : SoftErrors (.error e : Except Fault α) :=
  fun _ he => Except.error.inj he ▸ h

theorem softErrors_ite {c : Prop} [Decidable c] {x y : Except Fault α} (hx : SoftErrors x)
    (hy : SoftErrors y) : SoftErrors (if c then x else y) := by
  split
  · exact hx
  · exact hy

section Pool

variable {N : Nat}

theorem softErrors_rcAt (p : BufPool N) (a : UInt32) : SoftErrors (p.rcAt a) := by
  unfold BufPool.rcAt
  refine softErrors_ite (softErrors_error rfl) ?_
  dsimp only
  split
  · exact softErrors_ok _
  · exact softErrors_error rfl

theorem softErrors_drop (b : WBuffer) (p : BufPool N) : SoftErrors (b.drop p) := by
  unfold WBuffer.drop BufPool.decRc
  exact (softErrors_rcAt _ _).bind fun _ => softErrors_ite (softErrors_ok _) (softErrors_error rfl)

theorem softErrors_write (b : WBuffer) (fdIdx len : UInt32) (ud : UInt64) (p : BufPool N) :
    SoftErrors (b.write fdIdx len ud p) := by
  unfold WBuffer.write
  exact (softErrors_drop b p).bind fun _ => softErrors_ok _

theorem softErrors_clone (b : WBuffer) (p : BufPool N) : SoftErrors (b.clone p) := by
  unfold WBuffer.clone
  exact (softErrors_rcAt _ _).bind fun _ => softErrors_ite
    (softErrors_ite (softErrors_ok _) (softErrors_error rfl)) (softErrors_error rfl)

theorem softErrors_allocWrite (p : BufPool N) : SoftErrors p.allocWrite := by
  unfold BufPool.allocWrite
  split
  · exact softErrors_error rfl
  · exact (softErrors_rcAt _ _).bind fun _ =>
      softErrors_ite (softErrors_ok _) (softErrors_error rfl)

theorem softErrors_release (mem : BufRing) (p : BufPool 1) (bufIdx : UInt32) :
    SoftErrors (mem.release p bufIdx) := by
  unfold BufRing.release
  exact SoftErrors.bind (softErrors_ite (softErrors_ok _) (softErrors_error rfl))
    fun _ => softErrors_ok _

end Pool

/-! ## Silent programs -/

/-- Two states that differ in the buffers only. -/
def Same (s s' : State σ) : Prop := s' = { s with buffer := s'.buffer, bufRing := s'.bufRing }

namespace Same

variable {s s' s'' : State σ}

theorem refl (s : State σ) : Same s s := rfl

theorem core (h : Same s s') : s'.core = s.core := by rw [h]; rfl

theorem fut (h : Same s s') : s'.fut = s.fut := by rw [h]; rfl

theorem current (h : Same s s') : s'.currentTask = s.currentTask := by rw [h]

theorem heap (h : Same s s') : s'.heap = s.heap := by rw [h]

theorem rep {l : List TaskInfo} (h : Same s s') (hr : s.Rep l) : s'.Rep l := by
  rw [h]
  exact ⟨hr.sized, hr.pos, hr.entries, hr.wakeList, hr.stack⟩

theorem trans (h1 : Same s s') (h2 : Same s' s'') : Same s s'' := by
  unfold Same at *
  rw [h2, h1]

end Same

/-- A program that changes the buffers only, and fails softly. -/
def Silent (x : Rt σ α) : Prop :=
  ∀ s, wp x (fun _ s' => Same s s') (fun e s' => e.soft = true ∧ Same s s') s

theorem Silent.bind {x : Rt σ α} {f : α → Rt σ β} (hx : Silent x) (hf : ∀ a, Silent (f a)) :
    Silent (x >>= f) := by
  intro s
  rw [wp_bind]
  refine wp_mono (hx s) (fun a s1 h1 => ?_) fun _ _ h => h
  exact wp_mono (hf a s1) (fun _ _ h2 => h1.trans h2) fun _ _ h2 => ⟨h2.1, h1.trans h2.2⟩

theorem silent_pure (a : α) : Silent (pure a : Rt σ α) := fun s => Same.refl s

theorem silent_get : Silent (get : Rt σ (State σ)) := fun s => Same.refl s

theorem silent_throw {e : Fault} (h : e.soft = true) : Silent (throw e : Rt σ α) :=
  fun s => ⟨h, Same.refl s⟩

theorem silent_liftExcept {x : Except Fault α} (h : SoftErrors x) :
    Silent (liftExcept x : Rt σ α) := by
  cases x with
  | ok a => exact silent_pure a
  | error e => exact silent_throw (h e rfl)

theorem silent_setBuffer (pool : BufPool 1) :
    Silent (modify fun s => { s with buffer := pool } : Rt σ Unit) := fun _ => rfl

theorem silent_setBufRing (mem : BufRing) :
    Silent (modify fun s => { s with bufRing := mem } : Rt σ Unit) := fun _ => rfl

theorem silent_releaseReadBuf (bufIdx : UInt32) : Silent (releaseReadBuf bufIdx : Rt σ Unit) :=
  silent_get.bind fun _ =>
    (silent_liftExcept (softErrors_release _ _ _)).bind fun _ => silent_setBufRing _

theorem silent_wBufferClone (b : WBuffer) : Silent (wBufferClone b : Rt σ WBuffer) :=
  silent_get.bind fun _ => (silent_liftExcept (softErrors_clone _ _)).bind fun _ =>
    (silent_setBuffer _).bind fun _ => silent_pure _

theorem silent_wBufferDrop (b : WBuffer) : Silent (wBufferDrop b : Rt σ Unit) :=
  silent_get.bind fun _ => (silent_liftExcept (softErrors_drop _ _)).bind fun _ =>
    silent_setBuffer _

theorem silent_wBufferWrite (b : WBuffer) (fdIdx len : UInt32) (ud : UInt64) :
    Silent (wBufferWrite b fdIdx len ud : Rt σ WriteFixed) :=
  silent_get.bind fun _ => (silent_liftExcept (softErrors_write _ _ _ _ _)).bind fun _ =>
    (silent_setBuffer _).bind fun _ => silent_pure _

theorem silent_allocWriteBuffer : Silent (allocWriteBuffer : Rt σ WBuffer) :=
  silent_get.bind fun _ => (silent_liftExcept (softErrors_allocWrite _)).bind fun _ =>
    (silent_setBuffer _).bind fun _ => silent_pure _

theorem silent_rwBufferDrop (b : RwBuffer) : Silent (rwBufferDrop b : Rt σ Unit) := by
  unfold rwBufferDrop
  split
  · exact silent_pure _
  · exact silent_releaseReadBuf _

theorem silent_dropValue (v : Value) : Silent (dropValue v : Rt σ Unit) := by
  unfold dropValue
  split
  · exact silent_rwBufferDrop _
  · exact silent_rwBufferDrop _
  · exact silent_wBufferDrop _
  · exact silent_wBufferDrop _
  · exact silent_wBufferDrop _
  · exact silent_pure _

theorem silent_dropLocals (L : List (Option Value)) : Silent (dropLocals L : Rt σ Unit) := by
  induction L with
  | nil => exact silent_pure _
  | cons v L ih =>
    refine ih.bind fun _ => ?_
    cases v with
    | none => exact silent_pure _
    | some v => exact silent_dropValue v

end Onlyio
