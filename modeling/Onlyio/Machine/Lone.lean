import Onlyio.Model.Await
import Onlyio.Machine.Simulate

/-!
# A thread with one task

The simulation says what a command does if it succeeds. That a command does succeed is shown here
for a thread whose only task awaits accepts and a fan-out of one descriptor, instruction by
instruction (`Total`: returns, with a postcondition). With it, runs of any length are built by
induction.

* `Lone.poll_accept`, `Lone.poll_fan`: the poll that takes a connection and submits the next
  operation.
* **`Parked.next`**: one turn of the loop of `block_on`.
-/

namespace Onlyio

open Lib

variable {τ : Type} {A : τ → Await.Instr τ}

/-- `x` returns, with `Q`. -/
abbrev Total {ε S α : Type} (x : EStateM ε S α) (Q : α → S → Prop) (s : S) : Prop :=
  wp x Q (fun _ _ => False) s

theorem Total.ok {ε S α : Type} {x : EStateM ε S α} {Q : α → S → Prop} {s : S}
    (h : Total x Q s) : ∃ a s', x s = .ok a s' ∧ Q a s' := by
  unfold Total wp at h
  cases hx : x s with
  | ok a s' =>
    rw [hx] at h
    exact ⟨a, s', rfl, h⟩
  | error e s' =>
    rw [hx] at h
    exact h.elim

theorem Total.mono {ε S α : Type} {x : EStateM ε S α} {Q Q' : α → S → Prop} {s : S}
    (h : Total x Q s) (hQ : ∀ a s', Q a s' → Q' a s') : Total x Q' s :=
  wp_mono h hQ fun _ _ hf => hf

/-! ## States -/

/-- The thread has one task, which is not freed: its block, its counter and its number. -/
structure Lone (b : AsyncBlock (Await.Point τ)) (rc nb : UInt16) (s : State (Await.Point τ)) :
    Prop where
  slot : s.tasks.index 0 = .ok 0
  heap : ∃ log, s.heap = [{
    future := b, refCounter := rc, syscallNb := nb, slabIdx := some 0, freed := false, log }]

/-- Only the task, the SQEs that it has queued and the write pool have changed. -/
def Queues (s s' : State (Await.Point τ)) (queued : List Sqe) (pool : BufPool 1) : Prop :=
  s' = { s with
    heap := s'.heap, nextSqe := s'.nextSqe, pending := s.pending ++ queued, buffer := pool }

theorem Queues.trans {s s1 s2 : State (Await.Point τ)} {qs qs' : List Sqe} {pool pool' : BufPool 1}
    (h : Queues s s1 qs pool) (h' : Queues s1 s2 qs' pool') : Queues s s2 (qs ++ qs') pool' := by
  unfold Queues at h h' ⊢
  rw [h', h]
  simp

/-- An SQE that is stamped with the current task. -/
structure Current (s : State (Await.Point τ)) (q : Sqe) : Prop where
  taskIdx : q.payload.taskIdx = s.currentTask.tag.taskIdx
  nb : q.payload.syscallNb = s.currentTask.tag.syscallNb

/-- A pool in which the handle `b` can be cloned twice and dropped twice. -/
structure Lends (pool : BufPool 1) (b : WBuffer) (p1 p2 p3 p4 : BufPool 1) : Prop where
  clone : b.clone pool = .ok (b, p1)
  cloneAgain : b.clone p1 = .ok (b, p2)
  drop : b.drop p2 = .ok p3
  dropAgain : b.drop p3 = .ok p4

/-! ## Instructions -/

section Instructions

variable {s : State (Await.Point τ)} {L : List (Option Value)} {v : Var} {k : Resp → τ} {t : τ}
  {rc nb : UInt16}

theorem inc_two : ¬ (2 : UInt16) ||| multipleMask = 3 ||| multipleMask := by decide

/-- A connection is accepted. -/
theorem step_accepted (h : Lone ⟨some (.poll v k), L⟩ rc nb s)
    (hv : L[v]? = some (some (.accept .submited))) (hres : 0 ≤ s.currentTask.result) :
    Total (stepCode (awaited A) 0) (fun c s' => c = .again ∧ Queues s s' [] s.buffer ∧
      Lone ⟨some (.run (k (.accepted s.currentTask.result.toUInt32))), L.set v (some .returned)⟩
        rc nb s') s := by
  obtain ⟨hslot, log, hheap⟩ := h
  simp [Total, -bind_pure_comp, stepCode, deref, hheap, awaited, awaitedInstr, pollLocal, getLocal,
    hv, pollValue, AcceptFuture.poll, currentResult, hres, writeLocals, writeRaw, State.modifyRaw,
    bindOut, logEvent, goto, Await.Point.after]
  exact ⟨by simp [Queues], hslot, _, rfl⟩

theorem step_await_accept {fd : Int32} (h : Lone ⟨some (.run t), L⟩ rc nb s)
    (hA : A t = .await (.accept fd) k) :
    Total (stepCode (awaited A) 0) (fun c s' => c = .again ∧ Queues s s' [] s.buffer ∧
      Lone ⟨some (.poll L.length k), L ++ [some (.accept (.pending fd))]⟩ rc nb s') s := by
  obtain ⟨hslot, log, hheap⟩ := h
  simp [Total, -bind_pure_comp, stepCode, deref, hheap, awaited, awaitedInstr, hA, makeValue,
    addLocal, writeLocals, writeRaw, State.modifyRaw, goto]
  exact ⟨by simp [Queues], hslot, _, rfl⟩

theorem step_submit_accept {fd : Int32} (h : Lone ⟨some (.poll v k), L⟩ 2 nb s)
    (hv : L[v]? = some (some (.accept (.pending fd)))) (hidx : s.currentTask.tag.taskIdx = 0) :
    Total (stepCode (awaited A) 0) (fun c s' => c = .again ∧
      (∃ q, Current s q ∧ Queues s s' [q] s.buffer) ∧
      Lone ⟨some (.suspend v k), L.set v (some (.accept .submited))⟩ 3 nb s') s := by
  obtain ⟨hslot, log, hheap⟩ := h
  simp [Total, -bind_pure_comp, stepCode, deref, hheap, awaited, awaitedInstr, pollLocal, getLocal,
    hv, pollValue, AcceptFuture.poll, sendAccept, sendOne, currentUdata, tasksIndex, hidx, hslot,
    liftExcept, incRc, bumpRc, inc_two, pushPending, writeLocals, writeRaw,
    State.modifyRaw, bindOut, logEvent, goto, Await.Point.after]
  refine ⟨⟨_, ⟨?_, ?_⟩, rfl⟩, hslot, _, rfl⟩
  · simp [Sqe.payload, TaskInfo.payload]
  · simp [Sqe.payload, TaskInfo.payload]

theorem step_suspend (h : Lone ⟨some (.suspend v k), L⟩ rc nb s) :
    Total (stepCode (awaited A) 0) (fun c s' => c = .fin .pending ∧ Queues s s' [] s.buffer ∧
      Lone ⟨some (.poll v k), L⟩ rc nb s') s := by
  obtain ⟨hslot, log, hheap⟩ := h
  simp [Total, -bind_pure_comp, stepCode, deref, hheap, awaited, awaitedInstr, writeRaw,
    State.modifyRaw, goto]
  exact ⟨by simp [Queues], hslot, _, rfl⟩

theorem step_allocWrite {k : Var → τ} {b : WBuffer} {pool : BufPool 1}
    (h : Lone ⟨some (.run t), L⟩ rc nb s) (hA : A t = .allocWrite k)
    (hpool : s.buffer.allocWrite = .ok (b, pool)) :
    Total (stepCode (awaited A) 0) (fun c s' => c = .again ∧ Queues s s' [] pool ∧
      Lone ⟨some (.run (k L.length)), L ++ [some (.wBuffer b)]⟩ rc nb s') s := by
  obtain ⟨hslot, log, hheap⟩ := h
  simp [Total, -bind_pure_comp, stepCode, deref, hheap, awaited, awaitedInstr, hA, allocWriteBuffer,
    hpool, liftExcept, addLocal, writeLocals, writeRaw, State.modifyRaw, goto]
  exact ⟨by simp [Queues], hslot, _, rfl⟩

theorem step_await_fan {u : Var} {b : WBuffer} {fds : List UInt32} {len : UInt32}
    (h : Lone ⟨some (.run t), L⟩ rc nb s) (hA : A t = .await (.writeMultiple u fds len) k)
    (hu : L[u]? = some (some (.wBuffer b))) :
    Total (stepCode (awaited A) 0) (fun c s' => c = .again ∧ Queues s s' [] s.buffer ∧
      Lone ⟨some (.poll L.length k),
        L.set u none ++ [some (.writeMultiple (.init fds b len))]⟩ rc nb s') s := by
  obtain ⟨hslot, log, hheap⟩ := h
  simp [Total, -bind_pure_comp, stepCode, deref, hheap, awaited, awaitedInstr, hA, makeValue,
    takeLocal, getLocal, hu, addLocal, writeLocals, writeRaw, State.modifyRaw, goto]
  exact ⟨by simp [Queues], hslot, _, rfl⟩

theorem step_submit_fan {b : WBuffer} {fd len : UInt32} {p1 p2 p3 p4 : BufPool 1}
    (h : Lone ⟨some (.poll v k), L⟩ 2 nb s)
    (hv : L[v]? = some (some (.writeMultiple (.init [fd] b len))))
    (hidx : s.currentTask.tag.taskIdx = 0) (hpool : Lends s.buffer b p1 p2 p3 p4) :
    Total (stepCode (awaited A) 0) (fun c s' => c = .again ∧
      (∃ q, Current s q ∧ q.payload.responseGen = 0 ∧ Queues s s' [q] p4) ∧
      Lone ⟨some (.suspend v k),
      L.set v (some (.writeMultiple (.pending 1 [fd] [] len b)))⟩ 3 nb s') s := by
  obtain ⟨hslot, log, hheap⟩ := h
  have hwrite : ∀ ud, b.write fd len ud p2 = .ok (⟨fd, b.ptr, len, b.index, ud⟩, p3) := by
    intro ud
    simp only [WBuffer.write, hpool.drop, bind, Except.bind]
    rfl
  simp [Total, -bind_pure_comp, stepCode, deref, hheap, awaited, awaitedInstr, pollLocal, getLocal,
    hv, pollValue, WriteMultipleFuture.poll, wBufferClone, hpool.clone, sendMultipleWrite,
    sendMultipleLoop, hpool.cloneAgain, wBufferWrite, hwrite, wBufferDrop, hpool.dropAgain,
    tasksIndex, TaskInfo.payload, hidx, hslot, liftExcept, addRc, bumpRc, inc_two, pushPending,
    writeLocals, writeRaw, State.modifyRaw, bindOut, logEvent, goto, Await.Point.after]
  refine ⟨⟨_, ⟨?_, ?_⟩, ?_, rfl⟩, hslot, _, rfl⟩
  · simp [Sqe.payload, hidx]
  · simp [Sqe.payload]
  · simp [Sqe.payload]

end Instructions

/-! ## Polls -/

section Polls

variable {s : State (Await.Point τ)} {L : List (Option Value)} {v : Var} {k k' : Resp → τ}
  {nb : UInt16} {n : Nat} {p : TaskPtr}

theorem pollFn_again {σ : Type} {code : Code σ} {s : State σ} {Q : Poll Unit → State σ → Prop}
    (h : Total (stepCode code p) (fun c s' => c = .again ∧ Total (pollFn code n p) Q s') s) :
    Total (pollFn code (n + 1) p) Q s := by
  simp only [Total, pollFn, wp_bind]
  refine Total.mono h ?_
  rintro _ s' ⟨rfl, h'⟩
  exact h'

theorem pollFn_fin {σ : Type} {code : Code σ} {s : State σ} {Q : Poll Unit → State σ → Prop}
    (r : Poll Unit) (h : Total (stepCode code p) (fun c s' => c = .fin r ∧ Q r s') s) :
    Total (pollFn code (n + 1) p) Q s := by
  simp only [Total, pollFn, wp_bind]
  refine Total.mono h ?_
  rintro _ s' ⟨rfl, h'⟩
  exact h'

/-- The block suspends after it has submitted. -/
theorem Lone.poll_suspend {rc : UInt16} {s0 : State (Await.Point τ)} {qs : List Sqe}
    {pool : BufPool 1} (h : Lone ⟨some (.suspend v k), L⟩ rc nb s) (hq : Queues s0 s qs pool) :
    Total (pollFn (awaited A) (n + 1) 0) (fun _ s' =>
      Queues s0 s' qs pool ∧ Lone ⟨some (.poll v k), L⟩ rc nb s') s := by
  refine pollFn_fin .pending (Total.mono (step_suspend h) ?_)
  rintro _ s' ⟨rfl, hq', h'⟩
  have hall := hq.trans hq'
  rw [List.append_nil, show s.buffer = pool by rw [hq]] at hall
  exact ⟨rfl, hall, h'⟩

/-- A poll that takes a connection and submits the next accept. -/
theorem Lone.poll_accept {fd : Int32} (h : Lone ⟨some (.poll v k), L⟩ 2 nb s)
    (hv : L[v]? = some (some (.accept .submited))) (hres : 0 ≤ s.currentTask.result)
    (hidx : s.currentTask.tag.taskIdx = 0)
    (hA : A (k (.accepted s.currentTask.result.toUInt32)) = .await (.accept fd) k') :
    Total (pollFn (awaited A) 4 0) (fun _ s' => ∃ q, Current s q ∧ Queues s s' [q] s.buffer ∧
      Lone ⟨some (.poll L.length k'), L.set v (some .returned) ++
      [some (.accept .submited)]⟩ 3 nb s') s := by
  refine pollFn_again (Total.mono (step_accepted h hv hres) ?_)
  rintro _ s1 ⟨rfl, hq1, h1⟩
  refine ⟨rfl, pollFn_again (Total.mono (step_await_accept h1 hA) ?_)⟩
  rintro _ s2 ⟨rfl, hq2, h2⟩
  have hq : Queues s s2 [] s.buffer := by
    have hall := hq1.trans hq2
    rwa [show s1.buffer = s.buffer by rw [hq1]] at hall
  have hcur : s2.currentTask = s.currentTask := by rw [hq]
  refine ⟨rfl, pollFn_again (Total.mono
    (step_submit_accept h2 List.getElem?_concat_length (hcur ▸ hidx)) ?_)⟩
  rintro _ s3 ⟨rfl, ⟨q, hcurq, hq3⟩, h3⟩
  rw [show s2.buffer = s.buffer by rw [hq]] at hq3
  refine ⟨rfl, Total.mono (h3.poll_suspend (hq.trans hq3)) ?_⟩
  rintro _ s4 ⟨hq4, h4⟩
  refine ⟨q, ⟨hcur ▸ hcurq.taskIdx, hcur ▸ hcurq.nb⟩, hq4, ?_⟩
  rw [List.set_append_right _ _ (Nat.le_refl _), Nat.sub_self, List.length_set] at h4
  exact h4

/-- A poll that takes a connection and submits a fan-out of one descriptor. -/
theorem Lone.poll_fan {kb : Var → τ} {b : WBuffer} {fd len : UInt32} {p0 p1 p2 p3 p4 : BufPool 1}
    (h : Lone ⟨some (.poll v k), L⟩ 2 nb s) (hv : L[v]? = some (some (.accept .submited)))
    (hres : 0 ≤ s.currentTask.result) (hidx : s.currentTask.tag.taskIdx = 0)
    (hA : A (k (.accepted s.currentTask.result.toUInt32)) = .allocWrite kb)
    (hfan : ∀ u, A (kb u) = .await (.writeMultiple u [fd] len) k')
    (halloc : s.buffer.allocWrite = .ok (b, p0)) (hpool : Lends p0 b p1 p2 p3 p4) :
    Total (pollFn (awaited A) 5 0) (fun _ s' => ∃ q L' u, Current s q ∧ q.payload.responseGen = 0 ∧
      Queues s s' [q] p4 ∧ L'[u]? = some (some (.writeMultiple (.pending 1 [fd] [] len b))) ∧
      Lone ⟨some (.poll u k'), L'⟩ 3 nb s') s := by
  refine pollFn_again (Total.mono (step_accepted h hv hres) ?_)
  rintro _ s1 ⟨rfl, hq1, h1⟩
  have hbuf1 : s1.buffer = s.buffer := by rw [hq1]
  refine ⟨rfl, pollFn_again (Total.mono (step_allocWrite h1 hA (hbuf1 ▸ halloc)) ?_)⟩
  rintro _ s2 ⟨rfl, hq2, h2⟩
  have hu : (L.set v (some .returned) ++ [some (.wBuffer b)])[(L.set v (some .returned)).length]? =
      some (some (.wBuffer b)) := List.getElem?_concat_length
  generalize L.set v (some .returned) ++ [some (.wBuffer b)] = L2 at h2 hu
  refine ⟨rfl, pollFn_again (Total.mono (step_await_fan h2 (hfan _) hu) ?_)⟩
  rintro _ s3 ⟨rfl, hq3, h3⟩
  generalize hL3 : L2.set (L.set v (some .returned)).length none = L3 at h3
  have hlen : L2.length = L3.length := by rw [← hL3, List.length_set]
  have hbuf3 : s3.buffer = p0 := by rw [hq3, hq2]
  have hq := (hq1.trans hq2).trans hq3
  have hcur : s3.currentTask = s.currentTask := by rw [hq]
  rw [hlen] at h3
  refine ⟨rfl, pollFn_again (Total.mono (step_submit_fan h3 List.getElem?_concat_length
    (hcur ▸ hidx) (hbuf3 ▸ hpool)) ?_)⟩
  rintro _ s4 ⟨rfl, ⟨q, hcurq, hgen, hq4⟩, h4⟩
  refine ⟨rfl, Total.mono (h4.poll_suspend (hq.trans hq4)) ?_⟩
  rintro _ s5 ⟨hq5, h5⟩
  refine ⟨q, _, _, ⟨hcur ▸ hcurq.taskIdx, hcur ▸ hcurq.nb⟩, hgen, hq5, ?_, h5⟩
  rw [List.getElem?_set_self (by simp)]

end Polls

/-! ## Turns of the loop -/

section Turns

variable {s : State (Await.Point τ)} {b b' : AsyncBlock (Await.Point τ)} {nb : UInt16}
  {pool pool' : BufPool 1} {q : Sqe} {n : Nat}

theorem Lone.release {rc : UInt16} (h : Lone b rc nb s) (hrc : rc ≠ 0) (hrc' : rc - 1 ≠ 0) :
    Total (release 0) (fun _ s' => Queues s s' [] s.buffer ∧ Lone b (rc - 1) nb s') s := by
  obtain ⟨hslot, log, hheap⟩ := h
  simp [Total, release_eq, releaseRef, deref, hheap, hrc, hrc', writeRaw, State.modifyRaw]
  exact ⟨by simp [Queues], hslot, _, rfl⟩

/-- Between two commands: the task has suspended with one SQE queued, and the ring is empty. -/
structure Parked (b : AsyncBlock (Await.Point τ)) (nb : UInt16) (pool : BufPool 1) (q : Sqe)
    (s : State (Await.Point τ)) : Prop where
  lone : Lone b 1 nb s
  ring : s.ring = ⟨1024, [], [], []⟩
  buffer : s.buffer = pool
  pending : s.pending = [q]
  taskIdx : q.payload.taskIdx = 0
  nb : q.payload.syscallNb = nb

/-- The SQE is submitted and answered. -/
theorem Parked.complete {code : Code (Await.Point τ)} (h : Parked b nb pool q s)
    (hr : Reachable code s) (res : Int32) :
    Reachable code { s with pending := [], ring := ⟨1024, [], [q], [⟨q, res, 0⟩]⟩ } := by
  have hs : s = { s with pending := [q], ring := ⟨1024, [], [], []⟩ } := by
    rw [← h.pending, ← h.ring]
  rw [hs] at hr
  have hr1 := (hr.act .submit rfl trivial).act .consume rfl trivial
  refine hr1.act (.complete q.id res 0) ?_ trivial
  simp [act, kernelComplete, bind, EStateM.bind, get_run, more]
  rfl

/-- **One turn of the loop**: the SQE is submitted, answered with `res`, and the answer is
handled. -/
theorem Parked.next {code : Code (Await.Point τ)} {R : Sqe → AsyncBlock (Await.Point τ) → Prop}
    (h : Parked b nb pool q s) (hr : Reachable code s) (hnb : isMultiple nb = false) (res : Int32)
    (hpoll : ∀ s1, Lone b 2 (nb + 1) s1 → s1.currentTask.tag = ⟨0, nb + 1⟩ →
      s1.currentTask.result = res → s1.buffer = pool →
      Total (pollFn code n 0) (fun _ s2 => ∃ q' b', Current s1 q' ∧ Queues s1 s2 [q'] pool' ∧
        Lone b' 3 (nb + 1) s2 ∧ R q' b') s1) :
    ∃ s' q' b', Reachable code s' ∧ Parked b' (nb + 1) pool' q' s' ∧ R q' b' := by
  have hr1 := h.complete hr res
  have hidx := h.taskIdx
  have hqnb := h.nb
  have hbuf := h.buffer
  obtain ⟨hslot, log, hheap⟩ := h.lone
  have hfe : (TaskInfo.fromEntry ⟨q, res, 0⟩).tag = ⟨0, nb⟩ := by
    show Tag.mk q.payload.taskIdx q.payload.syscallNb = _
    rw [hidx, hqnb]
  have hev := evaluate_of_eq nb
  rw [hnb, if_neg Bool.false_ne_true] at hev
  have hmax : nb ≠ 0xFFFF := by
    rintro rfl
    exact absurd hnb (by decide)
  have hmask : ¬ (1 : UInt16) ||| multipleMask = 2 ||| multipleMask := by decide
  have hmore : more 0 = false := by decide
  suffices hwp : Total (act code (.handle n)) (fun _ s' => ∃ q' b',
      Parked b' (nb + 1) pool' q' s' ∧ R q' b')
      { s with pending := [], ring := ⟨1024, [], [q], [⟨q, res, 0⟩]⟩ } by
    obtain ⟨_, s', hok, q', b', hw, hR⟩ := hwp.ok
    exact ⟨s', q', b', hr1.act (.handle n) hok trivial, hw, hR⟩
  simp [Total, -bind_pure_comp, act, takeCqe, handleCqeEntry, hfe, hmore, tasksIndex, hslot,
    liftExcept, taskClone, incRc, bumpRc, deref, hheap, hmask, writeRaw,
    State.modifyRaw, logEvent, hev, dispatch, hmax, augmenteSyscallNb, taskPoll,
    (taskAugmente_of_not_multiple hnb).1]
  refine Total.mono (hpoll _ ⟨hslot, _, rfl⟩ rfl rfl hbuf) ?_
  rintro _ s2 ⟨q', b', hcur, hq, h2, hR⟩
  refine Total.mono (h2.release (by decide) (by decide)) ?_
  rintro _ s3 ⟨hq3, h3⟩
  refine Total.mono (h3.release (by decide) (by decide)) ?_
  rintro _ s4 ⟨hq4, h4⟩
  have hall := (hq.trans hq3).trans hq4
  have hbuf4 : s3.buffer = pool' := by rw [hq3, hq]
  refine ⟨q', b', ⟨h4, ?_, ?_, ?_, hcur.taskIdx, hcur.nb⟩, hR⟩
  · rw [hall]
  · rw [hall, hbuf4]
  · rw [hall]
    simp

/-- The first task of a fresh thread takes the first slot. -/
theorem insert_new {base : Nat} (h : State.new base = .ok s) :
    ∃ tasks, s.tasks.insert 0 = .ok (0, tasks) ∧ tasks.index 0 = .ok 0 := by
  unfold State.new at h
  cases hb : (BufPool.new base 512 512 : Except Fault (BufPool 1)) with
  | error e => simp [hb, bind, Except.bind] at h
  | ok pool =>
    have ht : (Slab.withCapacity ⟨16, by decide⟩ : Except Fault (Slab TaskPtr)) =
      .ok ⟨Slab.chained 0 16, 0, 16, 0⟩ := rfl
    simp only [hb, ht, bind, Except.bind, pure, Except.pure, Except.ok.injEq] at h
    subst h
    exact ⟨_, rfl, rfl⟩

/-- A fresh thread spawns a block that begins with an accept. -/
theorem Parked.first {base : Nat} {t : τ} {fd : Int32} {k : Resp → τ} (h : State.new base = .ok s)
    (hA : A t = .await (.accept fd) k) :
    ∃ s' q, Reachable (awaited A) s' ∧
      Parked ⟨some (.poll 0 k), [some (.accept .submited)]⟩ 0 s.buffer q s' := by
  obtain ⟨tasks, hins, hidx⟩ := insert_new h
  obtain ⟨-, hheap, hpend, hsq, hin, hcq, -⟩ := State.new_spec h
  have hring : s.ring = ⟨1024, [], [], []⟩ := by
    obtain ⟨⟨-, -, hentries, -⟩, -⟩ := State.new_spec h
    calc s.ring = ⟨s.ring.entries, s.ring.sq, s.ring.inflight, s.ring.cq⟩ := rfl
      _ = ⟨1024, [], [], []⟩ := by rw [hentries, hsq, hin, hcq]
  have hmask : ¬ (1 : UInt16) ||| multipleMask = 2 ||| multipleMask := by decide
  suffices hwp : Total (act (awaited A) (.spawn 3 (.run t))) (fun _ s' => ∃ q,
      Parked ⟨some (.poll 0 k), [some (.accept .submited)]⟩ 0 s.buffer q s') s by
    obtain ⟨_, s', hok, q, hw⟩ := hwp.ok
    exact ⟨s', q, (RunWith.new h).act _ hok trivial, hw⟩
  simp [Total, -bind_pure_comp, act, awaited, spawn, spawnBegin, taskNew, hheap, taskClone, incRc,
    bumpRc, deref, hmask, tasksInsert, hins, liftExcept, writeRaw, State.modifyRaw,
    taskPoll, logEvent]
  refine pollFn_again (Total.mono (step_await_accept ⟨hidx, _, rfl⟩ hA) ?_)
  rintro _ s2 ⟨rfl, hq2, h2⟩
  have hcur : s2.currentTask = .initialPoll 0 := by rw [hq2]
  refine ⟨rfl, pollFn_again (Total.mono
    (step_submit_accept h2 List.getElem?_concat_length (by rw [hcur]; rfl)) ?_)⟩
  rintro _ s3 ⟨rfl, ⟨q, hcurq, hq3⟩, h3⟩
  refine ⟨rfl, Total.mono (h3.poll_suspend (hq2.trans hq3)) ?_⟩
  rintro _ s4 ⟨hq4, h4⟩
  simp only [spawnEnd, wp_bind, wp_modify]
  refine Total.mono (h4.release (by decide) (by decide)) ?_
  rintro _ s5 ⟨hq5, h5⟩
  have h5' : Lone _ 2 0 { s5 with currentTask := s.currentTask } := ⟨h5.slot, h5.heap⟩
  refine Total.mono (h5'.release (by decide) (by decide)) ?_
  rintro _ s6 ⟨hq6, h6⟩
  refine ⟨q, h6, ?_, ?_, ?_, ?_, ?_⟩
  · rw [hq6, hq5, hq4]
    exact hring
  · rw [hq6, hq5, hq4, hq2]
  · rw [hq6, hq5, hq4]
    simp [hpend]
  · rw [hcurq.taskIdx, hcur]
    rfl
  · rw [hcurq.nb, hcur]
    rfl

end Turns

end Onlyio
