import Onlyio.Machine.Blind
import Onlyio.Machine.WakeRuns

/-!
# Runs in which blocks submit write buffers

`WBuffer::submit` queues an SQE that belongs to no task: its `user_data` is that of the slot, and no
reference is taken. It is no instruction of a block. In a `SubmittingRun` the block that runs may
submit a write buffer of its own at any of its points, so that a block that calls it is covered
wherever it does.

* `submitLocal_spec`: what is queued.
* `submittingRun_nil_iff`: a run without a submit is a run of `WakeStep`s.
* `submitTop_step`, `SubmittingRun.steps`: runs that evaluate.
* `WakeStep.without`: a step of the thread is one of the thread without the writes, or none.
* `SubmitStep.without`: a submit gives the buffer up there, and queues nothing.
* **`SubmittingRun.apart`**: the accounts balance without the writes, as long as no completion of
  one is handled.
-/

namespace Onlyio

open Lib

variable {σ : Type} {code : Code σ}

/-! ## The call -/

section Call

variable {p : TaskPtr} {v : Var} {fdIdx len : UInt32} {s s' : State σ}

/-- `b.submit(fd_idx, len)`, where `b` is local `v` of `p`'s block. -/
def submitLocal (p : TaskPtr) (v : Var) (fdIdx len : UInt32) : Rt σ Unit := do
  match ← takeLocal p v with
  | .wBuffer b => wBufferSubmit ⟨p, v⟩ b fdIdx len
  | _ => throw .illTyped

/-- The write `q` of slot `a` is queued between the two states, and nothing else is submitted or
polled. -/
structure QueuesWrite (s : State σ) (a : UInt32) (q : Sqe) (s' : State σ) : Prop where
  userData : q.userData = wbufWriteUdata a
  pending : s'.pending = s.pending ++ [q]
  ring : s'.ring = s.ring
  current : s'.currentTask = s.currentTask
  /-- No task gets a reference. -/
  counters : s'.heap.map RawTask.refCounter = s.heap.map RawTask.refCounter

theorem State.modifyRaw_counters {f : RawTask σ → RawTask σ}
    (hf : ∀ raw, (f raw).refCounter = raw.refCounter) :
    (s.modifyRaw p f).heap.map RawTask.refCounter = s.heap.map RawTask.refCounter := by
  apply List.ext_getElem?
  intro t
  rw [List.getElem?_map, List.getElem?_map, State.modifyRaw, List.getElem?_modify]
  cases s.heap[t]? with
  | none => rfl
  | some raw =>
    by_cases ht : p = t
    · simp [ht, hf]
    · simp [ht]

/-- A submit drops the buffer, and its entry is stamped with the slot. -/
theorem WBuffer.submit_ok {b : WBuffer} {pool pool' : BufPool 1} {entry : WriteFixed}
    (h : b.submit fdIdx len pool = .ok (entry, pool')) :
    b.drop pool = .ok pool' ∧ entry.userData = wbufWriteUdata b.absIdx := by
  unfold WBuffer.submit WBuffer.write at h
  cases hdrop : b.drop pool with
  | error e =>
    rw [hdrop] at h
    cases h
  | ok pool1 =>
    rw [hdrop] at h
    cases h
    exact ⟨rfl, rfl⟩

/-- The write `q` is queued, and its task records it. -/
def State.queueWrite (s : State σ) (q : Sqe) (n : Nat) (pool : BufPool 1) : State σ :=
  { s.modifyRaw q.caller.task fun raw => { raw with log := raw.log ++ [.submit q n] } with
    pending := s.pending ++ [q]
    nextSqe := s.nextSqe + 1
    buffer := pool }

theorem wBufferSubmit_ok {b : WBuffer} (h : wBufferSubmit ⟨p, v⟩ b fdIdx len s = .ok () s') :
    ∃ q n pool, q.userData = wbufWriteUdata b.absIdx ∧ q.caller = ⟨p, v⟩ ∧ q.id = s.nextSqe ∧
      b.drop s.buffer = .ok pool ∧ s' = s.queueWrite q n pool := by
  rw [wBufferSubmit, bind_of_ok (get_run s)] at h
  cases hb : b.submit fdIdx len s.buffer with
  | error e =>
    rw [hb] at h
    cases h
  | ok r =>
    obtain ⟨entry, pool⟩ := r
    obtain ⟨hdrop, hud⟩ := WBuffer.submit_ok hb
    rw [hb] at h
    cases h
    exact ⟨_, _, pool, hud, rfl, rfl, hdrop, rfl⟩

/-- To move a value out of a local touches the block only. -/
theorem wp_takeLocal_queue (p : TaskPtr) (v : Var) :
    wp (takeLocal p v) (fun _ s' => s'.pending = s.pending ∧ s'.ring = s.ring ∧
      s'.nextSqe = s.nextSqe ∧ s'.currentTask = s.currentTask ∧
      s'.heap.map RawTask.refCounter = s.heap.map RawTask.refCounter) (fun _ _ => True) s := by
  simp only [takeLocal, getLocal, deref, wp_bind, wp_get]
  cases s.heap[p]? with
  | none => trivial
  | some raw =>
    simp only
    split
    · simp only [wp_throw]
    · simp only [wp_pure]
      split
      · simp only [wp_pure, writeLocals, writeRaw, wp_modify]
        exact ⟨rfl, rfl, rfl, rfl, State.modifyRaw_counters fun _ => rfl⟩
      · simp only [wp_throw]

/-- **A submit queues one SQE, stamped with the slot of the buffer.** -/
theorem submitLocal_spec (h : submitLocal p v fdIdx len s = .ok () s') :
    ∃ (b : WBuffer) (q : Sqe), q.caller = ⟨p, v⟩ ∧ QueuesWrite s b.absIdx q s' := by
  obtain ⟨val, s1, htake, h⟩ := bind_ok h
  obtain ⟨hpending, hring, -, hcurrent, hcounters⟩ := wp_ok (wp_takeLocal_queue p v) htake
  cases val with
  | wBuffer b =>
    obtain ⟨q, n, pool, hud, hq, -, -, rfl⟩ := wBufferSubmit_ok h
    refine ⟨b, q, hq, hud, ?_, hring, hcurrent, ?_⟩
    · show s1.pending ++ [q] = _
      rw [hpending]
    · rw [← hcounters]
      exact State.modifyRaw_counters fun _ => rfl
  | _ => cases h

end Call

/-! ## Runs -/

/-- The block that runs submits a write buffer of its own, with the SQE `q`. -/
inductive SubmitStep : Scene σ → Sqe → Scene σ → Prop where
  | submit {L : Wakers} {s s' : State σ} {p : TaskPtr} {role : Role} {st : List Frame} {v : Var}
      {fdIdx len : UInt32} {q : Sqe} (h : submitLocal p v fdIdx len s = .ok () s')
      (hq : s'.pending = s.pending ++ [q]) :
      SubmitStep ⟨L, s, ⟨p, role, none⟩ :: st⟩ q ⟨L, s', ⟨p, role, none⟩ :: st⟩

/-- What a thread reaches whose blocks submit write buffers too, with the SQEs of the submits, the
last one first. -/
inductive SubmittingRun (code : Code σ) : List Sqe → Scene σ → Prop where
  | new {base : Nat} {s : State σ} (h : State.new base = .ok s) :
      SubmittingRun code [] ⟨.empty, s, []⟩
  | step {W : List Sqe} {g g' : Scene σ} (h : SubmittingRun code W g) (hs : WakeStep code g g') :
      SubmittingRun code W g'
  | submit {W : List Sqe} {g g' : Scene σ} {q : Sqe} (h : SubmittingRun code W g)
      (hs : SubmitStep g q g') : SubmittingRun code (q :: W) g'

section Runs

variable {W : List Sqe} {g g' : Scene σ}

theorem SubmittingRun.wakeRun (h : SubmittingRun code W g) (hW : W = []) : WakeRun code g := by
  induction h with
  | new h => exact .new h
  | step _ hs ih => exact (ih hW).step hs
  | submit => cases hW

/-- **Without a submit these are the runs with wakers.** -/
theorem submittingRun_nil_iff : SubmittingRun code [] g ↔ WakeRun code g := by
  refine ⟨fun h => h.wakeRun rfl, fun h => ?_⟩
  induction h with
  | new h => exact .new h
  | step _ hs ih => exact ih.step hs

/-! ## Concrete runs -/

/-- The block on top submits the buffer in local `v`. -/
def submitTop (v : Var) (fdIdx len : UInt32) : Scene σ → Option (Scene σ)
  | ⟨L, s, ⟨p, role, none⟩ :: st⟩ =>
    after (submitLocal p v fdIdx len s) fun _ s' => some ⟨L, s', ⟨p, role, none⟩ :: st⟩
  | _ => none

theorem submitTop_step {v : Var} {fdIdx len : UInt32} (h : submitTop v fdIdx len g = some g') :
    ∃ q, SubmitStep g q g' := by
  unfold submitTop at h
  split at h
  · obtain ⟨_, s', hs, h⟩ := after_eq_some h
    cases h
    obtain ⟨b, q, -, hq⟩ := submitLocal_spec hs
    exact ⟨q, .submit hs hq.pending⟩
  · cases h

/-- Moves between the submits. -/
theorem SubmittingRun.steps (h : SubmittingRun code W g)
    (hs : Relation.ReflTransGen (WakeStep code) g g') : SubmittingRun code W g' := by
  induction hs with
  | refl => exact h
  | tail _ hs ih => exact ih.step hs

end Runs

/-! ## A step, without the writes -/

/-- No completion of an SQE of `W` was handled. -/
def State.Unhandled (W : List Sqe) (s : State σ) : Prop :=
  ∀ raw ∈ s.heap, ∀ e cls others, Event.cqe e cls others ∈ raw.log → e.sqe ∉ W

/-- The same thread without the writes `W`. -/
def Scene.without (W : List Sqe) (logs : TaskPtr → List Event) (g : Scene σ) : Scene σ :=
  { g with state := g.state.without W logs }

section Steps

variable {W : List Sqe} {s s' : State σ} {g g' : Scene σ} {logs : TaskPtr → List Event} {q : Sqe}

theorem State.Unhandled.of_grows (h : s'.Unhandled W) (hgrows : s.Grows s') : s.Unhandled W := by
  intro raw hraw e cls others he
  obtain ⟨p, hp⟩ := List.mem_iff_getElem?.mp hraw
  obtain ⟨raw', hraw', hlog⟩ := hgrows p raw hp
  exact h raw' (List.mem_of_getElem? hraw') e cls others (hlog.subset he)

theorem State.Unhandled.of_cons (h : s.Unhandled (q :: W)) : s.Unhandled W :=
  fun raw hraw e cls others he hW => h raw hraw e cls others he (List.mem_cons_of_mem q hW)

/-- Nothing is set aside. -/
theorem Recorded.nil (s : State σ) :
    Recorded [] s fun p => (s.heap[p]?.map RawTask.log).getD [] := by
  refine ⟨fun q hq => absurd hq List.not_mem_nil, fun q hq => absurd hq List.not_mem_nil,
    fun p raw hraw => ?_⟩
  rw [hraw]
  exact .refl raw.log

/-- A program that is blind to the writes records only. -/
theorem Blind.grows {α : Type} {x : Rt σ α} {a : α} (hx : Blind [] x) (h : x s = .ok a s') :
    s.Grows s' :=
  (hx s _ (.nil s) a s' h).1

/-- A completion that is handled is recorded. -/
theorem handlePolled_unhandled {e : Cqe} {p : TaskPtr} {polled : Bool}
    (h : handlePolled s = .ok (e, p, polled) s') (hW : s'.Unhandled W) :
    ∀ e cq, s.ring.cq = e :: cq → e.sqe ∉ W := by
  intro e0 cq hcq
  obtain ⟨cq', hcq'⟩ := handlePolled_head h
  obtain ⟨rfl, -⟩ := List.cons.inj (hcq.symm.trans hcq')
  unfold handlePolled at h
  obtain ⟨e1, s1, -, h1⟩ := bind_ok h
  obtain ⟨_, s2, -, h2⟩ := bind_ok h1
  obtain ⟨t, s3, -, h3⟩ := bind_ok h2
  obtain ⟨raw, s4, hd, h4⟩ := bind_ok h3
  obtain ⟨rfl, hraw, -⟩ := deref_ok hd
  obtain ⟨_, s6, hget, h5⟩ := bind_ok h4
  obtain ⟨_, s7, hlog, h6⟩ := bind_ok h5
  cases hget
  have he := wp_ok (wp_dispatchPolled e1 t _ _) h6
  obtain rfl : e0 = e1 := he
  -- the record is there before the dispatch, and stays
  have hlogged := logEvent_ok hlog hraw
  obtain ⟨raw', hraw', hlonger⟩ := (Blind.dispatchPolled e0 t _ _).grows h6 t _ hlogged
  exact hW raw' (List.mem_of_getElem? hraw') e0 _ _
    (hlonger.subset (List.mem_append_right _ List.mem_cons_self))

/-- The commands that poll nothing. -/
theorem stutters_idle {cmd : Cmd σ} (hcmd : cmd.idle = true) : Stutters W (act code cmd) := by
  cases cmd with
  | submit => exact Blind.submitAndWait.stutters
  | consume => exact stutters_kernelConsume
  | complete id result flags => exact stutters_kernelComplete id result flags
  | free => exact Blind.freeUnsedSlabSlot.stutters
  | spawn | handle | drain => cases hcmd

/-- **A step of the thread is one of the thread without the writes, or none**, as long as no
completion of a write is handled. -/
theorem WakeStep.without (hs : WakeStep code g g') (h : Recorded W g.state logs)
    (hW : g'.state.Unhandled W) : g.state.Grows g'.state ∧ ∃ logs', Recorded W g'.state logs' ∧
      (g'.without W logs' = g.without W logs ∨
        WakeStep code (g.without W logs) (g'.without W logs')) := by
  cases hs with
  | @idle L s s' cmd hcmd ha =>
    obtain ⟨hgrows, logs', h', heq | hrun⟩ := stutters_idle hcmd _ _ h _ ha
    · exact ⟨hgrows, logs', h', .inl (congrArg (Scene.mk L · []) heq)⟩
    · exact ⟨hgrows, logs', h', .inr (.idle cmd hcmd hrun)⟩
  | main hx hs =>
    obtain ⟨hgrows, logs', h', hrun⟩ := (Blind.spawnPolled _).mirrors h _ _ hs
    exact ⟨hgrows, logs', h', .inr (.main hx hrun)⟩
  | handle hh =>
    obtain ⟨hgrows, logs', h', hrun⟩ :=
      Mirrors.handlePolled h (handlePolled_unhandled hh hW) _ _ hh
    exact ⟨hgrows, logs', h', .inr (.handle hrun)⟩
  | skip hh h1 =>
    have hW1 := hW.of_grows ((Blind.handleEnd _ _).grows h1)
    obtain ⟨hgrows1, logs1, hlogs1, hrun1⟩ :=
      Mirrors.handlePolled h (handlePolled_unhandled hh hW1) _ _ hh
    obtain ⟨hgrows, logs', h', hrun⟩ := (Blind.handleEnd _ _).mirrors hlogs1 _ _ h1
    exact ⟨hgrows1.trans hgrows, logs', h', .inr (.skip hrun1 hrun)⟩
  | drain hq hd =>
    obtain ⟨hgrows, logs', h', hrun⟩ := Blind.drainPolled.mirrors h _ _ hd
    exact ⟨hgrows, logs', h', .inr (.drain hq hrun)⟩
  | again hc =>
    obtain ⟨hgrows, logs', h', hrun⟩ := (Blind.stepCode _ _).mirrors h _ _ hc
    exact ⟨hgrows, logs', h', .inr (.again hrun)⟩
  | fin hc =>
    obtain ⟨hgrows, logs', h', hrun⟩ := (Blind.stepCode _ _).mirrors h _ _ hc
    exact ⟨hgrows, logs', h', .inr (.fin hrun)⟩
  | child hb hs =>
    obtain ⟨hgrows1, logs1, hlogs1, hrun1⟩ := (Blind.stepCode _ _).mirrors h _ _ hb
    obtain ⟨hgrows, logs', h', hrun⟩ := (Blind.spawnPolled _).mirrors hlogs1 _ _ hs
    exact ⟨hgrows1.trans hgrows, logs', h', .inr (.child hrun1 hrun)⟩
  | spawned he =>
    obtain ⟨hgrows, logs', h', hrun⟩ := (Blind.spawnEnd _ _).mirrors h _ _ he
    exact ⟨hgrows, logs', h', .inr (.spawned hrun)⟩
  | handled he =>
    obtain ⟨hgrows, logs', h', hrun⟩ := (Blind.releases _ _).mirrors h _ _ he
    exact ⟨hgrows, logs', h', .inr (.handled hrun)⟩
  | waker hp hw =>
    obtain ⟨hgrows, logs', h', hrun⟩ := (Blind.waker_new _).mirrors h _ _ hw
    exact ⟨hgrows, logs', h', .inr (.waker hp hrun)⟩
  | awake hw ha =>
    obtain ⟨hgrows, logs', h', hrun⟩ := (Blind.waker_awake _).mirrors h _ _ ha
    exact ⟨hgrows, logs', h', .inr (.awake hw hrun)⟩
  | drop hw hd =>
    obtain ⟨hgrows, logs', h', hrun⟩ := (Blind.waker_drop _).mirrors h _ _ hd
    exact ⟨hgrows, logs', h', .inr (.drop hw hrun)⟩

theorem WakeStep.grows (hs : WakeStep code g g') : g.state.Grows g'.state :=
  (hs.without (.nil g.state) fun _ _ _ _ _ _ => List.not_mem_nil).1

end Steps

/-! ## A submit, without the writes -/

/-- A submit as the thread without the writes sees it: the buffer is given up, and the identity of
the SQE stays unused. -/
def discardLocal (p : TaskPtr) (v : Var) : Rt σ Unit := do
  match ← takeLocal p v with
  | .wBuffer b =>
    wBufferDrop b
    modify fun s => { s with nextSqe := s.nextSqe + 1 }
  | _ => throw .illTyped

section Discard

variable {W : List Sqe} {s s1 s' : State σ} {logs : TaskPtr → List Event} {q : Sqe} {p : TaskPtr}
  {v : Var} {fdIdx len : UInt32}

/-- One of the writes is new. -/
theorem notMem_write {r : Sqe} (h : r ∉ W → r.id < q.id) : r ∉ q :: W ↔ r ∉ W := by
  rw [List.mem_cons, not_or]
  refine ⟨And.right, fun hW => ⟨?_, hW⟩⟩
  rintro rfl
  exact Nat.lt_irrefl _ (h hW)

theorem apart_cons {sqes : List Sqe} (h : ∀ r ∈ apart W sqes, r.id < q.id) :
    apart (q :: W) sqes = apart W sqes := by
  refine List.filter_congr fun r hr => decide_eq_decide.mpr (notMem_write fun hW => ?_)
  exact h r (List.mem_filter.mpr ⟨hr, decide_eq_true hW⟩)

/-- The write is recorded. -/
theorem Recorded.write {n : Nat} {pool : BufPool 1} (h : Recorded W s logs)
    (hp : q.caller.task < s.heap.length) (hid : q.id = s.nextSqe) :
    Recorded (q :: W) (s.queueWrite q n pool) logs := by
  refine ⟨fun r hr => ?_, fun r hr => ?_, fun t raw hraw => ?_⟩
  · obtain rfl | hr := List.mem_cons.mp hr
    · exact hid ▸ Nat.lt_succ_self _
    · exact Nat.lt_succ_of_lt (h.fresh r hr)
  · rw [show (s.queueWrite q n pool).heap.length = s.heap.length from List.length_modify ..]
    obtain rfl | hr := List.mem_cons.mp hr
    · exact hp
    · exact h.callers r hr
  · have hheap := State.modifyRaw_getElem? s q.caller.task t fun raw =>
      { raw with log := raw.log ++ [.submit q n] }
    obtain ⟨raw0, hraw0, rfl⟩ := Option.map_eq_some_iff.mp (hheap.symm.trans hraw)
    have hold := h.omits t raw0 hraw0
    by_cases ht : q.caller.task = t
    · rw [if_pos ht, writesOf, List.filter_cons_of_pos (by simp [ht])]
      exact .write q n hold
    · rw [if_neg ht, writesOf, List.filter_cons_of_neg (by simp [ht])]
      exact hold

/-- Without the writes only the buffer and the identity are gone. -/
theorem State.queueWrite_without {n : Nat} {pool : BufPool 1}
    (hring : RingInv (s.without W logs).core) (hid : q.id = s.nextSqe) :
    (s.queueWrite q n pool).without (q :: W) logs =
      { s.without W logs with buffer := pool, nextSqe := s.nextSqe + 1 } := by
  have hlt : ∀ r ∈ (s.without W logs).core.outstanding, r.id < q.id := hid ▸ hring.lt
  have hpending : apart (q :: W) (s.pending ++ [q]) = apart W s.pending := by
    have hold := apart_cons (q := q) fun r hr =>
      hlt r (List.mem_append_left _ (List.mem_append_left _ hr))
    rw [apart, List.filter_append, ← apart, hold]
    simp
  have hsq : apart (q :: W) s.ring.sq = apart W s.ring.sq :=
    apart_cons fun r hr => hlt r (List.mem_append_left _ (List.mem_append_right _ hr))
  have hinflight : apart (q :: W) s.ring.inflight = apart W s.ring.inflight :=
    apart_cons fun r hr => hlt r (List.mem_append_right _ hr)
  have hcq : s.ring.cq.filter (fun e => e.sqe ∉ q :: W) = s.ring.cq.filter fun e => e.sqe ∉ W := by
    refine List.filter_congr fun e he => decide_eq_decide.mpr (notMem_write fun hW => ?_)
    have hleft : e ∈ (s.without W logs).core.cq := List.mem_filter.mpr ⟨he, decide_eq_true hW⟩
    exact hlt e.sqe (List.mem_append_right _ (hring.answered e hleft))
  -- the record is one that the logs without the writes do not have
  have hheap : (s.without W logs).modifyRaw q.caller.task id =
      (s.modifyRaw q.caller.task fun raw =>
        { raw with log := raw.log ++ [.submit q n] }).without W logs :=
    State.without_modifyRaw (fun _ => rfl) fun _ _ => rfl
  simp only [State.modifyRaw, List.modify_id] at hheap
  simp only [State.without, State.queueWrite, State.modifyRaw, State.mk.injEq] at hheap ⊢
  simp only [hpending, hsq, hinflight, hcq, hheap, and_self]

/-- The SQE that is queued, and the state after the buffer was taken. -/
theorem submitLocal_queued (hs : submitLocal p v fdIdx len s = .ok () s')
    (hq : s'.pending = s.pending ++ [q]) : ∃ b s1 n pool,
      takeLocal p v s = .ok (.wBuffer b) s1 ∧ b.drop s1.buffer = .ok pool ∧
      q.caller = ⟨p, v⟩ ∧ q.id = s1.nextSqe ∧ s' = s1.queueWrite q n pool := by
  obtain ⟨val, s1, htake, h1⟩ := bind_ok hs
  obtain ⟨hpending, -⟩ := wp_ok (wp_takeLocal_queue p v) htake
  cases val with
  | wBuffer b =>
    obtain ⟨q', n, pool, -, hcaller, hid, hdrop, rfl⟩ := wBufferSubmit_ok h1
    have hlast : s1.pending ++ [q'] = s.pending ++ [q] := hq
    rw [hpending] at hlast
    obtain rfl := List.singleton_inj.mp (List.append_cancel_left hlast)
    exact ⟨b, s1, n, pool, htake, hdrop, hcaller, hid, rfl⟩
  | _ => cases h1

/-- **A submit gives the buffer up**, for the thread without the writes. -/
theorem submitLocal_without (h : Recorded W s logs) (hring : RingInv (s.without W logs).core)
    (hp : p < s.heap.length) (hs : submitLocal p v fdIdx len s = .ok () s')
    (hq : s'.pending = s.pending ++ [q]) :
    ∃ logs', Recorded (q :: W) s' logs' ∧
      discardLocal p v (s.without W logs) = .ok () (s'.without (q :: W) logs') := by
  obtain ⟨b, s1, n, pool, htake, hdrop, hcaller, hid, rfl⟩ := submitLocal_queued hs hq
  obtain ⟨-, logs1, hlogs1, htake'⟩ := (Blind.takeLocal p v).mirrors h _ _ htake
  obtain ⟨hpending, hring1, hnext, -, hcounters⟩ := wp_ok (wp_takeLocal_queue p v) htake
  have hp1 : q.caller.task < s1.heap.length := by
    rw [hcaller, ← List.length_map RawTask.refCounter, hcounters, List.length_map]
    exact hp
  have hring' : RingInv (s1.without W logs1).core := by
    refine hring.congr ?_ ?_ ?_ ?_ hnext
    · exact congrArg (apart W) hpending
    · exact congrArg (fun r : IoUring => apart W r.sq) hring1
    · exact congrArg (fun r : IoUring => apart W r.inflight) hring1
    · exact congrArg (fun r : IoUring => r.cq.filter fun e => e.sqe ∉ W) hring1
  have hdrop' : wBufferDrop b (s1.without W logs1) =
      .ok () { s1.without W logs1 with buffer := pool } := by
    rw [wBufferDrop, bind_of_ok (get_run _), show (s1.without W logs1).buffer = s1.buffer from rfl,
      hdrop]
    rfl
  refine ⟨logs1, hlogs1.write hp1 hid, ?_⟩
  rw [State.queueWrite_without hring' hid]
  exact (bind_of_ok htake').trans (bind_of_ok hdrop')

theorem submitLocal_grows (hs : submitLocal p v fdIdx len s = .ok () s')
    (hq : s'.pending = s.pending ++ [q]) : s.Grows s' := by
  obtain ⟨b, s1, n, pool, htake, -, -, -, rfl⟩ := submitLocal_queued hs hq
  exact ((Blind.takeLocal p v).grows htake).trans (.log s1 _ _)

/-- What a buffer that is given up changes. -/
structure Discards (p : TaskPtr) (v : Var) (s s' : State σ) : Prop where
  core : s'.core = { s.core with nextSqe := s.core.nextSqe + 1 }
  fut : s'.fut = Function.update s.fut p { s.fut p with locals := (s.fut p).locals.set v none }
  rep : ∀ {l : List TaskInfo}, s.Rep l → s'.Rep l
  buffer : ∃ b, (s.fut p).locals[v]? = some (some (.wBuffer b))

theorem discardLocal_spec (h : discardLocal p v s = .ok () s')
    (hlive : (s.core.cell p).freed = false) : Discards p v s s' := by
  obtain ⟨val, s1, htake, h1⟩ := bind_ok h
  obtain ⟨hval, hrw⟩ := wp_ok (wp_takeLocal v hlive) htake
  cases val with
  | wBuffer b =>
    obtain ⟨_, s2, hdrop, h2⟩ := bind_ok h1
    have hsame := wp_ok (silent_wBufferDrop b s1) hdrop
    cases h2
    refine ⟨?_, hsame.fut.trans hrw.fut, fun hr => ?_, b, hval⟩
    · rw [← hrw.core, ← hsame.core]
      rfl
    · obtain ⟨hsized, hpos, hentries, hlist, hstack⟩ := hsame.rep (hrw.rep hr)
      exact ⟨hsized, hpos, hentries, hlist, hstack⟩
  | _ => cases h1

end Discard

/-- The block that runs, that of the task `p`, gives a write buffer of its own up. -/
inductive DiscardStep (p : TaskPtr) : Scene σ → Scene σ → Prop where
  | discard {L : Wakers} {s s' : State σ} {role : Role} {st : List Frame} {v : Var}
      (h : discardLocal p v s = .ok () s') :
      DiscardStep p ⟨L, s, ⟨p, role, none⟩ :: st⟩ ⟨L, s', ⟨p, role, none⟩ :: st⟩

/-- An identity of an SQE stays unused. -/
theorem Inv.skipId {c : Core} {st : List Frame} {H : TaskPtr → Nat} (h : Inv c st H) :
    Inv { c with nextSqe := c.nextSqe + 1 } st H := by
  refine ⟨h.slab.congr rfl rfl (fun _ => rfl) (fun _ => rfl) h.slab.fresh,
    h.refs.congr (.refl _) (fun _ => .rfl) (fun _ => rfl) (fun _ => rfl) fun _ => rfl,
    ⟨h.ring.ids, fun q hq => Nat.lt_succ_of_lt (h.ring.lt q hq), h.ring.whole, h.ring.large,
      h.ring.answered, h.ring.last, h.ring.shots⟩, ?_, h.drops⟩
  have hidx : ∀ t, (c.cell t).freed = false →
      (Core.cell { c with nextSqe := c.nextSqe + 1 } t).slabIdx = (c.cell t).slabIdx :=
    fun _ _ => rfl
  exact h.ctx.congr hidx fun f hf => h.live_of_mem hf

section Apart

variable {W : List Sqe} {g g' : Scene σ} {logs : TaskPtr → List Event} {q : Sqe}

theorem Sound.discard {p : TaskPtr} (h : Sound g) (hs : DiscardStep p g g') : Sound g' := by
  cases hs with
  | discard hd =>
    have hspec := discardLocal_spec hd h.inv.live_top
    refine ⟨hspec.rep h.rep, ?_, h.nodup, fun w hw => ?_⟩
    · rw [hspec.core]
      exact h.inv.skipId
    · rw [hspec.core]
      exact h.named w hw

theorem SubmitStep.grows (hs : SubmitStep g q g') : g.state.Grows g'.state := by
  cases hs with
  | submit h hq => exact submitLocal_grows h hq

/-- The identity of the write is a new one. -/
theorem SubmitStep.id_eq (hs : SubmitStep g q g') : q.id = g.state.nextSqe := by
  cases hs with
  | submit h hq =>
    obtain ⟨b, s1, n, pool, htake, -, -, hid, -⟩ := submitLocal_queued h hq
    obtain ⟨-, -, hnext, -⟩ := wp_ok (wp_takeLocal_queue _ _) htake
    exact hid.trans hnext

theorem SubmitStep.without (hs : SubmitStep g q g') (h : Recorded W g.state logs)
    (hsound : Sound (g.without W logs)) : ∃ logs', Recorded (q :: W) g'.state logs' ∧
      DiscardStep q.caller.task (g.without W logs) (g'.without (q :: W) logs') := by
  cases hs with
  | @submit L s s' p role st v fdIdx len q hs hq =>
    have hlt : p < (s.without W logs).core.spawned :=
      hsound.inv.slab.lt_spawned hsound.inv.live_top
    have hp : p < s.heap.length := by simpa [State.core, State.without] using hlt
    obtain ⟨logs', h', hrun⟩ := submitLocal_without h hsound.inv.ring hp hs hq
    obtain ⟨_, _, _, _, -, -, hcaller, -⟩ := submitLocal_queued hs hq
    rw [hcaller]
    exact ⟨logs', h', .discard hrun⟩

theorem State.without_nil (s : State σ) :
    (s.without [] fun p => (s.heap[p]?.map RawTask.log).getD []) = s := by
  have hall : ∀ sqes, apart [] sqes = sqes := fun sqes => by simp [apart]
  have hheap : (s.heap.mapIdx fun p raw =>
      { raw with log := (s.heap[p]?.map RawTask.log).getD [] }) = s.heap := by
    refine List.ext_getElem? fun p => ?_
    rw [List.getElem?_mapIdx]
    cases s.heap[p]? <;> rfl
  simp [State.without, hall, hheap]

/-- **The accounts balance without the writes**, as long as no completion of one is handled. -/
theorem SubmittingRun.apart (h : SubmittingRun code W g) (hW : g.state.Unhandled W) :
    ∃ logs, Recorded W g.state logs ∧ Sound (g.without W logs) := by
  induction h with
  | @new base s h =>
    refine ⟨_, .nil s, ?_⟩
    rw [Scene.without, State.without_nil]
    exact .new h
  | step _ hs ih =>
    obtain ⟨logs, hlogs, hsound⟩ := ih (hW.of_grows hs.grows)
    obtain ⟨-, logs', hlogs', heq | hstep⟩ := hs.without hlogs hW
    · exact ⟨logs', hlogs', heq ▸ hsound⟩
    · exact ⟨logs', hlogs', hsound.step hstep⟩
  | submit _ hs ih =>
    obtain ⟨logs, hlogs, hsound⟩ := ih (hW.of_cons.of_grows hs.grows)
    obtain ⟨logs', hlogs', hstep⟩ := hs.without hlogs hsound
    exact ⟨logs', hlogs', hsound.discard hstep⟩

end Apart

end Onlyio
