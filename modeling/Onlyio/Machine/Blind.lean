import Onlyio.Machine.Within
import Onlyio.Model.Waker
import Mathlib.Data.List.Induction

/-!
# The thread without the submitted writes

The SQEs of write buffers that blocks submit belong to no task. Until a completion of one is handled
no function of the model looks at them: what it does on the thread, it does on the thread without
them.

* `State.without`: the thread without the SQEs `W`, and with logs that omit their submissions.
* `Blind W`: a program that does the same without them. There is one lemma for each function.
* `Mirrors.takeCqe`, `Mirrors.handlePolled`: the oldest completion, when it is none of theirs.
* `stutters_kernelConsume`, `stutters_kernelComplete`: the kernel, which may serve one of them.
-/

namespace Onlyio

open Lib

variable {σ α β : Type} {W : List Sqe}

/-! ## The thread without the writes -/

/-- The SQEs that are not among `W`. -/
def apart (W sqes : List Sqe) : List Sqe := sqes.filter fun q => q ∉ W

/-- The thread without the SQEs `W`, where the tasks have recorded `logs`. -/
def State.without (W : List Sqe) (logs : TaskPtr → List Event) (s : State σ) : State σ :=
  { s with
    ring := { s.ring with
      sq := apart W s.ring.sq
      inflight := apart W s.ring.inflight
      cq := s.ring.cq.filter fun e => e.sqe ∉ W }
    pending := apart W s.pending
    heap := s.heap.mapIdx fun p raw => { raw with log := logs p } }

/-- An event without what it says of the SQEs outstanding. -/
def Event.uncounted : Event → Event
  | .ready _ => .ready 0
  | .call v val info _ r => .call v val info 0 r
  | .submit q _ => .submit q 0
  | .cqe e cls _ => .cqe e cls []
  | ev => ev

/-- The second log is the first one without the submissions of the SQEs `W`, the last one first. -/
inductive Omits : List Sqe → List Event → List Event → Prop where
  | nil : Omits [] [] []
  | both {W : List Sqe} {log log' : List Event} {ev ev' : Event} (h : Omits W log log')
      (hev : ev'.uncounted = ev.uncounted) : Omits W (log ++ [ev]) (log' ++ [ev'])
  | write {W : List Sqe} {log log' : List Event} (q : Sqe) (n : Nat) (h : Omits W log log') :
      Omits (q :: W) (log ++ [.submit q n]) log'

/-- The SQEs of `W` that the task `p` submitted. -/
def writesOf (p : TaskPtr) (W : List Sqe) : List Sqe := W.filter fun q => q.caller.task = p

/-- The SQEs `W` were queued, and `logs` are the logs without them. -/
structure Recorded (W : List Sqe) (s : State σ) (logs : TaskPtr → List Event) : Prop where
  fresh : ∀ q ∈ W, q.id < s.nextSqe
  callers : ∀ q ∈ W, q.caller.task < s.heap.length
  omits : ∀ (p : TaskPtr) (raw : RawTask σ), s.heap[p]? = some raw →
    Omits (writesOf p W) raw.log (logs p)

/-- No task is gone, and no log is shorter. -/
def State.Grows (s s' : State σ) : Prop :=
  ∀ (p : TaskPtr) (raw : RawTask σ), s.heap[p]? = some raw →
    ∃ raw' : RawTask σ, s'.heap[p]? = some raw' ∧ raw.log <+: raw'.log

/-- What `x` does at `s`, `y` does without the writes. -/
def Mirrors (W : List Sqe) (x y : Rt σ α) (s : State σ) (logs : TaskPtr → List Event) : Prop :=
  ∀ a s', x s = .ok a s' → s.Grows s' ∧
    ∃ logs', Recorded W s' logs' ∧ y (s.without W logs) = .ok a (s'.without W logs')

/-- A program that does the same without the writes. -/
def Blind (W : List Sqe) (x : Rt σ α) : Prop :=
  ∀ s logs, Recorded W s logs → Mirrors W x x s logs

section Lemmas

variable {s s' s'' : State σ} {logs : TaskPtr → List Event} {p : TaskPtr}

theorem Omits.refl (log : List Event) : Omits [] log log := by
  induction log using List.reverseRecOn with
  | nil => exact .nil
  | append_singleton log ev ih => exact .both ih rfl

/-- Where no SQE is set aside, the logs differ in the counts. -/
theorem Omits.uncounted {log log' : List Event} (h : Omits W log log') (hW : W = []) :
    log'.map Event.uncounted = log.map Event.uncounted := by
  induction h with
  | nil => rfl
  | both h hev ih => rw [List.map_append, List.map_append, ih hW, List.map_singleton,
      List.map_singleton, hev]
  | write => cases hW

theorem apart_concat {sqes : List Sqe} {q : Sqe} (hq : q ∉ W) :
    apart W (sqes ++ [q]) = apart W sqes ++ [q] := by
  simp [apart, hq]

theorem State.without_getElem? {raw : RawTask σ} (h : s.heap[p]? = some raw) :
    (s.without W logs).heap[p]? = some { raw with log := logs p } := by
  rw [State.without, List.getElem?_mapIdx, h]
  rfl

theorem State.modifyRaw_getElem? (s : State σ) (p t : TaskPtr) (f : RawTask σ → RawTask σ) :
    (s.modifyRaw p f).heap[t]? = s.heap[t]?.map fun raw => if p = t then f raw else raw := by
  simp [State.modifyRaw, List.getElem?_modify]

theorem deref_ok {raw : RawTask σ} (h : deref p s = .ok raw s') :
    s' = s ∧ s.heap[p]? = some raw ∧ raw.freed = false := by
  rw [deref, bind_of_ok (get_run s)] at h
  cases hraw : s.heap[p]? with
  | none =>
    rw [hraw] at h
    cases h
  | some raw0 =>
    rw [hraw] at h
    cases hfreed : raw0.freed with
    | true =>
      simp only [hfreed] at h
      cases h
    | false =>
      simp only [hfreed] at h
      cases h
      exact ⟨rfl, rfl, hfreed⟩

theorem logEvent_ok {raw : RawTask σ} {ev : Event} (h : logEvent p ev s = .ok () s')
    (hraw : s.heap[p]? = some raw) :
    s'.heap[p]? = some { raw with log := raw.log ++ [ev] } := by
  cases h
  rw [State.modifyRaw_getElem?, hraw, Option.map_some, if_pos rfl]

/-- To write to an allocation, with the writes and without. -/
theorem State.without_modifyRaw {f g : RawTask σ → RawTask σ} {logs' : TaskPtr → List Event}
    (hself : ∀ raw, g { raw with log := logs p } = { f raw with log := logs' p })
    (hothers : ∀ t, p ≠ t → logs' t = logs t) :
    (s.without W logs).modifyRaw p g = (s.modifyRaw p f).without W logs' := by
  have hheap : ((s.without W logs).modifyRaw p g).heap =
      ((s.modifyRaw p f).without W logs').heap := by
    refine List.ext_getElem? fun t => ?_
    rw [State.modifyRaw_getElem?, State.without, State.without, List.getElem?_mapIdx,
      List.getElem?_mapIdx, State.modifyRaw_getElem?]
    cases s.heap[t]? with
    | none => rfl
    | some raw =>
      by_cases ht : p = t
      · subst ht
        simp [hself]
      · simp [ht, hothers t ht]
  simp only [State.modifyRaw, State.without] at hheap ⊢
  rw [hheap]

theorem State.Grows.refl (s : State σ) : s.Grows s := fun _ raw h => ⟨raw, h, List.prefix_rfl⟩

theorem State.Grows.trans (h : s.Grows s') (h' : s'.Grows s'') : s.Grows s'' := by
  intro p raw hraw
  obtain ⟨raw1, hraw1, hlog1⟩ := h p raw hraw
  obtain ⟨raw2, hraw2, hlog2⟩ := h' p raw1 hraw1
  exact ⟨raw2, hraw2, hlog1.trans hlog2⟩

theorem State.Grows.of_heap (h : s'.heap = s.heap) : s.Grows s' := fun _ raw hraw =>
  ⟨raw, h ▸ hraw, List.prefix_rfl⟩

/-- One more event. -/
theorem State.Grows.log (s : State σ) (p : TaskPtr) (ev : Event) :
    s.Grows (s.modifyRaw p fun raw => { raw with log := raw.log ++ [ev] }) := by
  intro t raw hraw
  refine ⟨_, by rw [State.modifyRaw_getElem?, hraw]; rfl, ?_⟩
  split
  · exact List.prefix_append _ _
  · exact List.prefix_rfl

/-- A task that is not there has submitted nothing. -/
theorem Recorded.writesOf_fresh (h : Recorded W s logs) (hp : p = s.heap.length) :
    writesOf p W = [] := by
  refine List.filter_eq_nil_iff.mpr fun q hq heq => ?_
  have hlt := h.callers q hq
  rw [of_decide_eq_true heq, hp] at hlt
  exact Nat.lt_irrefl _ hlt

theorem Recorded.congr (h : Recorded W s logs) (hheap : s'.heap = s.heap)
    (hnext : s'.nextSqe = s.nextSqe) : Recorded W s' logs :=
  ⟨hnext ▸ h.fresh, hheap ▸ h.callers, hheap ▸ h.omits⟩

end Lemmas

/-! ## The rules -/

namespace Mirrors

variable {s : State σ} {logs : TaskPtr → List Event}

theorem bind {x y : Rt σ α} {f g : α → Rt σ β} (hx : Mirrors W x y s logs)
    (hf : ∀ a s' logs', Recorded W s' logs' → Mirrors W (f a) (g a) s' logs') :
    Mirrors W (x >>= f) (y >>= g) s logs := by
  intro b s' hr
  obtain ⟨a, s1, hxa, hfb⟩ := bind_ok hr
  obtain ⟨hgrows1, logs1, h1, hy⟩ := hx a s1 hxa
  obtain ⟨hgrows2, logs2, h2, hg⟩ := hf a s1 logs1 h1 b s' hfb
  exact ⟨hgrows1.trans hgrows2, logs2, h2, (bind_of_ok hy).trans hg⟩

theorem look {f g : State σ → Rt σ α} (h : Mirrors W (f s) (g (s.without W logs)) s logs) :
    Mirrors W (get >>= f) (get >>= g) s logs := h

/-- Two events that differ in their counts. -/
theorem logEvent (h : Recorded W s logs) {p : TaskPtr} {ev ev' : Event}
    (hev : ev'.uncounted = ev.uncounted) : Mirrors W (logEvent p ev) (logEvent p ev') s logs := by
  intro a s' hr
  cases hr
  refine ⟨.log s p ev, Function.update logs p (logs p ++ [ev']),
    ⟨h.fresh, ?_, fun t raw hraw => ?_⟩, congrArg (EStateM.Result.ok ()) ?_⟩
  · simpa [State.modifyRaw] using h.callers
  · rw [State.modifyRaw_getElem?] at hraw
    obtain ⟨raw0, hraw0, rfl⟩ := Option.map_eq_some_iff.mp hraw
    by_cases ht : p = t
    · subst ht
      rw [if_pos rfl, Function.update_self]
      exact .both (h.omits p raw0 hraw0) hev
    · rw [if_neg ht, Function.update_of_ne (Ne.symm ht)]
      exact h.omits t raw0 hraw0
  · refine State.without_modifyRaw (fun raw => ?_) fun t ht => Function.update_of_ne (Ne.symm ht) ..
    rw [Function.update_self]

end Mirrors

namespace Blind

variable {p : TaskPtr}

theorem mirrors {x : Rt σ α} (hx : Blind W x) {s : State σ} {logs : TaskPtr → List Event}
    (h : Recorded W s logs) : Mirrors W x x s logs := hx s logs h

theorem ret (a : α) : Blind W (pure a : Rt σ α) := by
  intro s logs h b s' hr
  cases hr
  exact ⟨.refl s, logs, h, rfl⟩

theorem fail (e : Fault) : Blind W (throw e : Rt σ α) := fun _ _ _ _ _ hr => nomatch hr

theorem bind {x : Rt σ α} {f : α → Rt σ β} (hx : Blind W x) (hf : ∀ a, Blind W (f a)) :
    Blind W (x >>= f) :=
  fun s logs h => (hx s logs h).bind fun a s' logs' h' => hf a s' logs' h'

theorem look {f : State σ → Rt σ α} (hf : ∀ s, Blind W (f s))
    (hl : ∀ (s : State σ) logs, f (s.without W logs) = f s) : Blind W (get >>= f) := by
  intro s logs h
  refine .look ?_
  rw [hl]
  exact hf s s logs h

theorem update {f : State σ → State σ}
    (hf : ∀ (s : State σ) logs, f (s.without W logs) = (f s).without W logs)
    (hheap : ∀ s, (f s).heap = s.heap) (hnext : ∀ s, (f s).nextSqe = s.nextSqe) :
    Blind W (modify f : Rt σ Unit) := by
  intro s logs h a s' hr
  cases hr
  exact ⟨.of_heap (hheap s), logs, h.congr (hheap s) (hnext s),
    congrArg (EStateM.Result.ok ()) (hf s logs)⟩

theorem liftExcept (x : Except Fault α) : Blind W (liftExcept x : Rt σ α) := by
  cases x with
  | ok a => exact .ret a
  | error e => exact .fail e

theorem cond {c : Prop} [Decidable c] {x y : Rt σ α} (hx : Blind W x) (hy : Blind W y) :
    Blind W (if c then x else y) := by
  split
  · exact hx
  · exact hy

/-- What follows a handle does not read the log. -/
theorem deref {f : RawTask σ → Rt σ α} (hf : ∀ raw, Blind W (f raw))
    (hl : ∀ raw log, f { raw with log } = f raw) : Blind W (deref p >>= f) := by
  intro s logs h a s' hr
  obtain ⟨raw, s1, hd, hrest⟩ := bind_ok hr
  obtain ⟨rfl, hraw, hfreed⟩ := deref_ok hd
  obtain ⟨hgrows, logs', h', hrun⟩ := hf raw s1 logs h a s' hrest
  refine ⟨hgrows, logs', h', ?_⟩
  have hd : Onlyio.deref p (s1.without W logs) =
      .ok { raw with log := logs p } (s1.without W logs) := by
    rw [Onlyio.deref, bind_of_ok (get_run _), State.without_getElem? hraw]
    simp only [hfreed]
    rfl
  rw [bind_of_ok hd, hl]
  exact hrun

theorem writeRaw {f : RawTask σ → RawTask σ}
    (hf : ∀ raw log, f { raw with log } = { f raw with log }) : Blind W (writeRaw p f) := by
  have hlog : ∀ raw : RawTask σ, (f raw).log = raw.log := by
    intro raw
    rw [show f raw = { f raw with log := raw.log } from hf raw raw.log]
  intro s logs h a s' hr
  cases hr
  refine ⟨fun t raw hraw => ?_, logs, ⟨h.fresh, ?_, fun t raw hraw => ?_⟩,
    congrArg (EStateM.Result.ok ()) (State.without_modifyRaw (fun raw => hf raw _) fun _ _ => rfl)⟩
  · refine ⟨_, by rw [State.modifyRaw_getElem?, hraw]; rfl, ?_⟩
    split
    · exact (hlog raw).symm ▸ List.prefix_rfl
    · exact List.prefix_rfl
  · simpa [State.modifyRaw] using h.callers
  · rw [State.modifyRaw_getElem?] at hraw
    obtain ⟨raw0, hraw0, rfl⟩ := Option.map_eq_some_iff.mp hraw
    split
    · rw [hlog]
      exact h.omits t raw0 hraw0
    · exact h.omits t raw0 hraw0

theorem logEvent (p : TaskPtr) (ev : Event) : Blind W (logEvent p ev : Rt σ Unit) :=
  fun _ _ h => .logEvent h rfl

/-! ## Tasks -/

theorem taskNew (future : AsyncBlock σ) : Blind W (taskNew future) := by
  intro s logs h a s' hr
  cases hr
  have hget : ∀ {heap : List (RawTask σ)} {t raw}, heap[t]? = some raw → t < heap.length :=
    fun hraw => (List.getElem?_eq_some_iff.mp hraw).1
  refine ⟨fun t raw hraw => ⟨raw, ?_, List.prefix_rfl⟩,
    Function.update logs s.heap.length [.spawned future.locals], ⟨h.fresh, ?_, ?_⟩, ?_⟩
  · exact (List.getElem?_append_left (hget hraw)).trans hraw
  · intro q hq
    rw [List.length_append]
    exact Nat.lt_add_right _ (h.callers q hq)
  · intro t raw hraw
    by_cases ht : t = s.heap.length
    · subst ht
      rw [List.getElem?_concat_length] at hraw
      cases hraw
      rw [h.writesOf_fresh rfl, Function.update_self]
      exact .refl _
    · rw [Function.update_of_ne ht]
      have hlt : t < s.heap.length := by
        have hlen := hget hraw
        rw [List.length_append, List.length_singleton] at hlen
        exact Nat.lt_of_le_of_ne (Nat.le_of_lt_succ hlen) ht
      exact h.omits t raw ((List.getElem?_append_left hlt).symm.trans hraw)
  · have hold : (s.heap.mapIdx fun p raw => { raw with
        log := Function.update logs s.heap.length [.spawned future.locals] p }) =
        s.heap.mapIdx fun p raw => { raw with log := logs p } := by
      refine List.mapIdx_eq_mapIdx_iff.mpr fun t ht => ?_
      rw [Function.update_of_ne (Nat.ne_of_lt ht)]
    rw [show Onlyio.taskNew future (s.without W logs) = .ok (s.without W logs).heap.length
      { s.without W logs with heap := (s.without W logs).heap ++ [_] } from rfl]
    simp [State.without, hold]

theorem bumpRc (overflow mask : Panic) (p : TaskPtr) (count : UInt16) :
    Blind W (bumpRc overflow mask p count : Rt σ Unit) := by
  refine .deref (fun raw => ?_) fun _ _ => rfl
  exact .cond (.cond (.fail _) (.writeRaw fun _ _ => rfl)) (.fail _)

theorem incRc (p : TaskPtr) : Blind W (incRc p : Rt σ Unit) := .bumpRc _ _ p 1

theorem addRc (p : TaskPtr) (count : UInt16) : Blind W (addRc p count : Rt σ Unit) :=
  .bumpRc _ _ p count

theorem taskClone (p : TaskPtr) : Blind W (taskClone p : Rt σ TaskPtr) :=
  .bind (.incRc p) fun _ => .ret p

theorem augmenteSyscallNb (p : TaskPtr) : Blind W (augmenteSyscallNb p : Rt σ Unit) :=
  .deref (fun _ => .writeRaw fun _ _ => rfl) fun _ _ => rfl

theorem setMultishot (p : TaskPtr) : Blind W (setMultishot p : Rt σ Unit) :=
  .deref (fun _ => .writeRaw fun _ _ => rfl) fun _ _ => rfl

theorem tasksIndex (i : SlabIdx) : Blind W (tasksIndex i : Rt σ TaskPtr) :=
  .look (fun _ => .liftExcept _) fun _ _ => rfl

theorem tasksInsert (p : TaskPtr) : Blind W (tasksInsert p : Rt σ SlabIdx) := by
  refine .look (fun s => .bind (.liftExcept _) fun r => ?_) fun _ _ => rfl
  exact .bind (.update (fun _ _ => rfl) (fun _ => rfl) fun _ => rfl) fun _ =>
    .bind (.writeRaw fun _ _ => rfl) fun _ => .ret _

/-! ## Buffers -/

theorem setBuffer (pool : BufPool 1) :
    Blind W (modify fun s => { s with buffer := pool } : Rt σ Unit) :=
  .update (fun _ _ => rfl) (fun _ => rfl) fun _ => rfl

theorem releaseReadBuf (bufIdx : UInt32) : Blind W (releaseReadBuf bufIdx : Rt σ Unit) := by
  refine .look (fun s => .bind (.liftExcept _) fun mem => ?_) fun _ _ => rfl
  exact .update (fun _ _ => rfl) (fun _ => rfl) fun _ => rfl

theorem wBufferClone (b : WBuffer) : Blind W (wBufferClone b : Rt σ WBuffer) :=
  .look (fun _ => .bind (.liftExcept _) fun _ => .bind (.setBuffer _) fun _ => .ret _) fun _ _ =>
    rfl

theorem wBufferDrop (b : WBuffer) : Blind W (wBufferDrop b : Rt σ Unit) :=
  .look (fun _ => .bind (.liftExcept _) fun _ => .setBuffer _) fun _ _ => rfl

theorem wBufferWrite (b : WBuffer) (fdIdx len : UInt32) (userData : UInt64) :
    Blind W (wBufferWrite b fdIdx len userData : Rt σ WriteFixed) :=
  .look (fun _ => .bind (.liftExcept _) fun _ => .bind (.setBuffer _) fun _ => .ret _) fun _ _ =>
    rfl

theorem allocWriteBuffer : Blind W (allocWriteBuffer : Rt σ WBuffer) :=
  .look (fun _ => .bind (.liftExcept _) fun _ => .bind (.setBuffer _) fun _ => .ret _) fun _ _ =>
    rfl

theorem rwBufferDrop (b : RwBuffer) : Blind W (rwBufferDrop b : Rt σ Unit) :=
  .cond (.ret ()) (.releaseReadBuf _)

theorem dropValue (val : Value) : Blind W (dropValue val : Rt σ Unit) := by
  unfold Onlyio.dropValue
  split
  · exact .rwBufferDrop _
  · exact .rwBufferDrop _
  · exact .wBufferDrop _
  · exact .wBufferDrop _
  · exact .wBufferDrop _
  · exact .ret ()

theorem dropLocals (L : List (Option Value)) : Blind W (dropLocals L : Rt σ Unit) := by
  induction L with
  | nil => exact .ret ()
  | cons v rest ih =>
    refine .bind ih fun _ => ?_
    cases v with
    | none => exact .ret ()
    | some val => exact .dropValue val

theorem dropFn (p : TaskPtr) : Blind W (dropFn p : Rt σ Unit) := by
  refine .deref (fun raw => ?_) fun _ _ => rfl
  exact .bind (.writeRaw fun _ _ => rfl) fun _ => .bind (.dropLocals _) fun _ => .logEvent p _

/-! ## Releases -/

theorem releaseRef {drop : TaskPtr → Rt σ Unit} (hdrop : ∀ p, Blind W (drop p)) (p : TaskPtr) :
    Blind W (releaseRef drop p) := by
  refine .deref (fun raw => ?_) fun _ _ => rfl
  refine .cond (.fail _) (.bind (.writeRaw fun _ _ => rfl) fun _ => .cond ?_ (.ret ()))
  refine .bind (hdrop p) fun _ => .deref (fun raw => ?_) fun _ _ => rfl
  refine .bind (.writeRaw fun _ _ => rfl) fun _ => ?_
  cases raw.slabIdx with
  | none => exact .ret ()
  | some i => exact .update (fun _ _ => rfl) (fun _ => rfl) fun _ => rfl

theorem release (p : TaskPtr) : Blind W (release p : Rt σ Unit) := by
  rw [release_eq]
  exact .releaseRef .dropFn p

theorem borrowedDropValue (val : Value) : Blind W (borrowedDropValue val : Rt σ Unit) := by
  unfold Onlyio.borrowedDropValue
  split
  · exact .cond (.ret ()) (.fail _)
  · exact .cond (.ret ()) (.fail _)
  · exact .dropValue _

theorem borrowedDropLocals (L : List (Option Value)) :
    Blind W (borrowedDropLocals L : Rt σ Unit) := by
  induction L with
  | nil => exact .ret ()
  | cons v rest ih =>
    refine .bind ih fun _ => ?_
    cases v with
    | none => exact .ret ()
    | some val => exact .borrowedDropValue val

theorem borrowedDropFn (p : TaskPtr) : Blind W (borrowedDropFn p : Rt σ Unit) := by
  refine .deref (fun raw => ?_) fun _ _ => rfl
  exact .bind (.writeRaw fun _ _ => rfl) fun _ =>
    .bind (.borrowedDropLocals _) fun _ => .logEvent p _

theorem waker_new (payload : UserDataPayload) : Blind W (Waker.new payload : Rt σ Waker) :=
  .bind (.tasksIndex _) fun p => .bind (.incRc p) fun _ => .ret _

theorem waker_awake (w : Waker) : Blind W (w.awake : Rt σ Unit) :=
  .update (fun _ _ => rfl) (fun _ => rfl) fun _ => rfl

theorem waker_drop (w : Waker) : Blind W (w.drop : Rt σ Unit) := by
  refine .bind (.tasksIndex _) fun p => ?_
  rw [borrowedRelease_eq]
  exact .releaseRef .borrowedDropFn p

theorem freeUnsedSlabSlot : Blind W (freeUnsedSlabSlot : Rt σ Unit) := by
  have hslots : ∀ free, Blind W (freeSlots free : Rt σ Unit) := by
    intro free
    induction free with
    | nil => exact .ret ()
    | cons i rest ih =>
      refine .look (fun s => .bind (.liftExcept _) fun tasks => ?_) fun _ _ => rfl
      exact .bind (.update (fun _ _ => rfl) (fun _ => rfl) fun _ => rfl) fun _ => ih
  refine .look (fun s => .bind (hslots _) fun _ => ?_) fun _ _ => rfl
  exact .update (fun _ _ => rfl) (fun _ => rfl) fun _ => rfl

/-! ## Submissions -/

/-- The SQE of a task is none of the writes. -/
theorem pushPending (me : Caller) (op : SqeOp) (userData : UInt64) (oversize : Bool) :
    Blind W (pushPending me op userData oversize : Rt σ Unit) := by
  intro s logs h
  have hnew : ∀ q ∈ W, q.id ≠ s.nextSqe := fun q hq => Nat.ne_of_lt (h.fresh q hq)
  refine .look (.bind (.logEvent h rfl) fun _ s1 logs1 h1 a s' hr => ?_)
  cases hr
  refine ⟨.of_heap rfl, logs1, ⟨fun q hq => Nat.lt_succ_of_lt (h1.fresh q hq), h1.callers,
    h1.omits⟩, congrArg (EStateM.Result.ok ()) ?_⟩
  simp only [State.without]
  rw [apart_concat fun hq => hnew _ hq rfl]

theorem currentUdata : Blind W (currentUdata : Rt σ UInt64) :=
  .look (fun _ => .ret _) fun _ _ => rfl

theorem setCurrentTaskMultiple : Blind W (setCurrentTaskMultiple : Rt σ Unit) :=
  .update (fun _ _ => rfl) (fun _ => rfl) fun _ => rfl

theorem sendOne (me : Caller) (op : BufPool 1 → SqeOp) : Blind W (sendOne me op : Rt σ Unit) := by
  refine .bind .currentUdata fun ud => .look (fun s => ?_) fun _ _ => rfl
  exact .bind (.tasksIndex _) fun p => .bind (.incRc p) fun _ =>
    .look (fun _ => .pushPending me _ _ _) fun _ _ => rfl

theorem sendMultishot (me : Caller) (op : SqeOp) : Blind W (sendMultishot me op : Rt σ Unit) := by
  refine .bind .setCurrentTaskMultiple fun _ => .bind .currentUdata fun ud =>
    .look (fun s => ?_) fun _ _ => rfl
  exact .bind (.tasksIndex _) fun p => .bind (.setMultishot p) fun _ =>
    .bind (.tasksIndex _) fun p => .bind (.incRc p) fun _ => .pushPending me _ _ _

theorem sendCommitWrite (me : Caller) (ptr : Nat) (fdIdx len : UInt32) (bufId : UInt16) :
    Blind W (sendCommitWrite me ptr fdIdx len bufId : Rt σ Unit) := by
  refine .bind .setCurrentTaskMultiple fun _ => .bind .currentUdata fun ud =>
    .look (fun s => ?_) fun _ _ => rfl
  exact .bind (.tasksIndex _) fun p => .bind (.incRc p) fun _ => .pushPending me _ _ _

theorem sendMultipleLoop (me : Caller) (payload : UserDataPayload) (buffer : WBuffer)
    (len : UInt32) (oversize : Bool) (fds : List UInt32) (idx : Nat) :
    Blind W (sendMultipleLoop me payload buffer len oversize fds idx : Rt σ Unit) := by
  induction fds generalizing idx with
  | nil => exact .ret ()
  | cons fd fds ih =>
    exact .bind (.wBufferClone _) fun b => .bind (.wBufferWrite _ _ _ _) fun e =>
      .bind (.pushPending me _ _ _) fun _ => ih _

theorem sendMultipleWrite (me : Caller) (fds : List UInt32) (buffer : WBuffer) (len : UInt32) :
    Blind W (sendMultipleWrite me fds buffer len : Rt σ Unit) := by
  refine .look (fun s => .bind (.sendMultipleLoop me _ _ _ _ fds 0) fun _ => ?_) fun _ _ => rfl
  exact .bind (.tasksIndex _) fun p => .bind (.addRc p _) fun _ => .wBufferDrop _

/-! ## Polling a value -/

theorem currentResult : Blind W (currentResult : Rt σ Int32) :=
  .look (fun _ => .ret _) fun _ _ => rfl

theorem currentCqeFlags : Blind W (currentCqeFlags : Rt σ UInt32) :=
  .look (fun _ => .ret _) fun _ _ => rfl

theorem checkoutRead (bufIdx fdIdx bytes : UInt32) {f : RwBuffer → Rt σ α}
    (hf : ∀ b, Blind W (f b)) : Blind W (do
      let b ← Onlyio.liftExcept ((← get).buffer.checkoutRead bufIdx fdIdx bytes)
      f b) :=
  .look (fun _ => .bind (.liftExcept _) hf) fun _ _ => rfl

theorem acceptPoll (me : Caller) (f : AcceptFuture) :
    Blind W (f.poll me : Rt σ (Poll (Except Int32 UInt32) × AcceptFuture)) := by
  cases f with
  | pending fd => exact .bind (.sendOne me _) fun _ => .ret _
  | submited => exact .bind .currentResult fun r => .cond (.ret _) (.ret _)

theorem readPoll (me : Caller) (f : ReadFuture) :
    Blind W (f.poll me : Rt σ (Poll (Except Int32 RwBuffer) × ReadFuture)) := by
  cases f with
  | init fd => exact .bind (.sendOne me _) fun _ => .ret _
  | pending fd =>
    refine .bind .currentResult fun bytes => .bind .currentCqeFlags fun flags => .cond ?_ ?_
    · cases bufferSelect flags with
      | none => exact .ret _
      | some bufId => exact .bind (.releaseReadBuf _) fun _ => .ret _
    · cases bufferSelect flags with
      | none => exact .fail _
      | some bufId => exact .checkoutRead _ _ _ fun b => .ret _

theorem writePoll (me : Caller) (f : WriteFuture) :
    Blind W (f.poll me : Rt σ (Poll Int32 × WriteFuture)) := by
  cases f with
  | init fd bufId len => exact .bind (.sendOne me _) fun _ => .ret _
  | pending => exact .bind .currentResult fun _ => .ret _

theorem commitPoll (me : Caller) (f : CommitFuture) :
    Blind W (f.poll me : Rt σ (Poll Int32 × CommitFuture)) := by
  cases f with
  | init ptr bufIdx fdIdx len => exact .bind (.sendCommitWrite me _ _ _ _) fun _ => .ret _
  | pending bufIdx => exact .bind (.releaseReadBuf _) fun _ => .bind .currentResult fun _ => .ret _

/-- The frame of the call is not one of the writes. -/
theorem withLocal {f : Nat → Rt σ Unit} (hf : ∀ ptr, Blind W (f ptr))
    (hfree : ∀ ptr, StackFree (f ptr)) (addr : SockAddr) : Blind W (withLocal addr f) := by
  intro s logs h a s' hr
  rw [StackFree.withLocal_eq hfree] at hr
  obtain ⟨hgrows, logs', h', hrun⟩ := hf _ s logs h a s' hr
  refine ⟨hgrows, logs', h', ?_⟩
  rw [StackFree.withLocal_eq hfree]
  exact hrun

theorem socketPoll (me : Caller) (f : SocketFuture) :
    Blind W (f.poll me : Rt σ (Poll UInt32 × SocketFuture)) := by
  cases f with
  | createSocket addr => exact .bind (.sendOne me _) fun _ => .ret _
  | connecting fd addr =>
    refine .cond (.bind .currentResult fun r => .bind ?_ fun _ => .ret _) (.ret _)
    exact .withLocal (fun _ => .sendOne me _) (fun _ => .sendOne me _) addr
  | pending => exact .fail _

theorem writeMultiplePoll (me : Caller) (f : WriteMultipleFuture) :
    Blind W (f.poll me : Rt σ (Poll (List WriteResult) × WriteMultipleFuture)) := by
  cases f with
  | init fds buffer len =>
    exact .bind (.wBufferClone _) fun _ => .bind (.sendMultipleWrite me _ _ _) fun _ => .ret _
  | pending n fds faileds len buffer =>
    refine .cond (.fail _) (.look (fun s => ?_) fun _ _ => rfl)
    dsimp only
    split
    · exact .fail _
    · refine .cond (.fail _) (.cond ?_ (.ret _))
      refine .bind (.bind (.tasksIndex _) fun p => .augmenteSyscallNb p) fun _ => .bind ?_ fun _ =>
        .ret _
      exact .update (fun _ _ => rfl) (fun _ => rfl) fun _ => rfl
  | poisoned => exact .fail _

theorem acceptNext (me : Caller) (st : AcceptStream) :
    Blind W (st.pollNext me : Rt σ (Poll (Option UInt32) × AcceptStream)) := by
  obtain ⟨fd, state⟩ := st
  cases state with
  | init => exact .bind (.sendMultishot me _) fun _ => .ret _
  | running =>
    exact .bind .currentResult fun r => .cond (.ret _) (.bind .currentCqeFlags fun _ => .ret _)
  | done => exact .ret _

theorem readNext (me : Caller) (st : ReadStream) :
    Blind W (st.pollNext me : Rt σ (Poll (Option RwBuffer) × ReadStream)) := by
  obtain ⟨fd, state⟩ := st
  cases state with
  | init => exact .bind (.sendMultishot me _) fun _ => .ret _
  | running =>
    refine .bind .currentResult fun r => .bind .currentCqeFlags fun flags => .cond (.ret _) ?_
    cases bufferSelect flags with
    | none => exact .fail _
    | some bufId => exact .checkoutRead _ _ _ fun b => .ret _
  | done => exact .ret _

theorem pollValue (me : Caller) (val : Value) :
    Blind W (pollValue me val : Rt σ (Out × Value)) := by
  cases val with
  | accept f =>
    refine .bind (.acceptPoll me f) fun r => ?_
    obtain ⟨_ | _ | _, f⟩ := r <;> exact .ret _
  | read f =>
    refine .bind (.readPoll me f) fun r => ?_
    obtain ⟨_ | _ | _, f⟩ := r <;> exact .ret _
  | write f =>
    refine .bind (.writePoll me f) fun r => ?_
    obtain ⟨_ | _, f⟩ := r <;> exact .ret _
  | commitFn b len =>
    refine .bind (.commitPoll me _) fun r => ?_
    obtain ⟨_ | _, f⟩ := r <;> exact .ret _
  | commit f =>
    refine .bind (.commitPoll me f) fun r => ?_
    obtain ⟨_ | _, f⟩ := r <;> exact .ret _
  | socket f =>
    refine .bind (.socketPoll me f) fun r => ?_
    obtain ⟨_ | _, f⟩ := r <;> exact .ret _
  | writeMultiple f =>
    refine .bind (.writeMultiplePoll me f) fun r => ?_
    obtain ⟨_ | faileds, f⟩ := r
    · exact .ret _
    · exact .bind (.dropValue _) fun _ => .ret _
  | acceptStream st =>
    refine .bind (.acceptNext me st) fun r => ?_
    obtain ⟨_ | _ | _, st⟩ := r <;> exact .ret _
  | readStream st =>
    refine .bind (.readNext me st) fun r => ?_
    obtain ⟨_ | _ | _, st⟩ := r <;> exact .ret _
  | rwBuffer b | wBuffer b | returned => exact .fail _

/-! ## Blocks -/

theorem writeLocals (p : TaskPtr) (f : List (Option Value) → List (Option Value)) :
    Blind W (writeLocals p f : Rt σ Unit) := .writeRaw fun _ _ => rfl

theorem getLocal (p : TaskPtr) (v : Var) : Blind W (getLocal p v : Rt σ Value) := by
  refine .deref (fun raw => ?_) fun _ _ => rfl
  split
  · exact .ret _
  · exact .fail _

theorem takeLocal (p : TaskPtr) (v : Var) : Blind W (takeLocal p v : Rt σ Value) :=
  .bind (.getLocal p v) fun _ => .bind (.writeLocals p _) fun _ => .ret _

theorem addLocal (p : TaskPtr) (val : Value) : Blind W (addLocal p val : Rt σ Var) :=
  .deref (fun _ => .bind (.writeLocals p _) fun _ => .ret _) fun _ _ => rfl

theorem takeMoved (p : TaskPtr) (moved : List (Kind × Var)) :
    Blind W (takeMoved p moved : Rt σ (List (Option Value))) := by
  induction moved with
  | nil => exact .ret _
  | cons m rest ih =>
    exact .bind (.takeLocal p _) fun val => .cond (.bind ih fun _ => .ret _) (.fail _)

theorem makeValue (p : TaskPtr) (op : Op) : Blind W (makeValue p op : Rt σ Value) := by
  cases op with
  | commit buf len =>
    refine .bind (.takeLocal p buf) fun val => ?_
    cases val with
    | rwBuffer b => exact .ret _
    | _ => exact .fail _
  | writeMultiple buf fds len =>
    refine .bind (.takeLocal p buf) fun val => ?_
    cases val with
    | wBuffer b => exact .ret _
    | _ => exact .fail _
  | _ => exact .ret _

theorem goto (p : TaskPtr) (k : σ) : Blind W (goto p k) :=
  .bind (.writeRaw fun _ _ => rfl) fun _ => .ret _

theorem bindOut (p : TaskPtr) (out : Out) : Blind W (bindOut p out : Rt σ (Option Resp)) := by
  cases out with
  | buffer b => exact .bind (.addLocal p _) fun _ => .ret _
  | pending | ready => exact .ret _

theorem pollLocal (p : TaskPtr) (v : Var) : Blind W (pollLocal p v : Rt σ (Option Resp)) := by
  refine .bind (.getLocal p v) fun val s logs h => .look ?_
  refine .bind ((pollValue _ val).mirrors h) fun r s1 logs1 h1 => ?_
  refine .bind ((writeLocals p _).mirrors h1) fun _ s2 logs2 h2 => ?_
  refine .bind ((bindOut p r.1).mirrors h2) fun r s3 logs3 h3 => ?_
  exact .bind (.logEvent h3 rfl) fun _ s4 logs4 h4 => (ret r).mirrors h4

theorem finish (p : TaskPtr) : Blind W (finish p : Rt σ Unit) := by
  refine .deref (fun raw s logs h => .look ?_) fun _ _ => rfl
  refine .bind ((writeRaw fun _ _ => rfl).mirrors h) fun _ s1 logs1 h1 => ?_
  exact .bind ((dropLocals _).mirrors h1) fun _ s2 logs2 h2 => .logEvent h2 rfl

/-- **One instruction.** -/
theorem stepCode (code : Code σ) (p : TaskPtr) : Blind W (stepCode code p) := by
  refine .deref (fun raw => ?_) fun _ _ => rfl
  cases raw.future.code with
  | none => exact .fail _
  | some x =>
    dsimp only
    cases code x with
    | ret => exact .bind (.finish p) fun _ => .ret _
    | suspend k => exact .bind (.goto p k) fun _ => .ret _
    | make op k =>
      exact .bind (.makeValue p op) fun val => .bind (.addLocal p val) fun v => .goto p _
    | makeStream op k => exact .bind (.addLocal p _) fun v => .goto p _
    | poll v k => exact .bind (.pollLocal p v) fun r => .goto p _
    | drop v k =>
      exact .bind (.takeLocal p v) fun val => .bind (.dropValue val) fun _ => .goto p k
    | spawn child moved k =>
      exact .bind (.takeMoved p moved) fun L => .bind (.goto p k) fun _ => .ret _
    | allocWrite k =>
      exact .bind .allocWriteBuffer fun b => .bind (.addLocal p _) fun v => .goto p _
    | cloneWrite v k =>
      refine .bind (.getLocal p v) fun val => ?_
      cases val with
      | wBuffer b => exact .bind (.wBufferClone b) fun b => .bind (.addLocal p _) fun v => .goto p _
      | _ => exact .fail _

/-! ## The beginning and the end of a poll -/

theorem spawnPolled (b : AsyncBlock σ) : Blind W (spawnPolled b) := by
  refine .bind ?_ fun r => .look (fun s => .bind (.logEvent _ _) fun _ => .ret _) fun _ _ => rfl
  refine .bind (.taskNew b) fun p => .bind (.taskClone p) fun copy =>
    .bind (.tasksInsert copy) fun i => .look (fun s => ?_) fun _ _ => rfl
  exact .bind (.update (fun _ _ => rfl) (fun _ => rfl) fun _ => rfl) fun _ => .ret _

theorem spawnEnd (p : TaskPtr) (old : TaskInfo) : Blind W (spawnEnd p old : Rt σ Unit) :=
  .bind (.release p) fun _ => .bind (.update (fun _ _ => rfl) (fun _ => rfl) fun _ => rfl) fun _ =>
    .release p

theorem releases (p : TaskPtr) (final : Bool) : Blind W (do
    if final then Onlyio.release p
    Onlyio.release p : Rt σ Unit) := by
  cases final with
  | true => exact .bind (.release p) fun _ => .release p
  | false => exact .release p

theorem drainPolled : Blind W (drainPolled : Rt σ (Option TaskPtr)) := by
  refine .look (fun s => ?_) fun _ _ => rfl
  cases s.runtimeWakeList with
  | nil => exact .ret _
  | cons info rest =>
    refine .bind (.update (fun _ _ => rfl) (fun _ => rfl) fun _ => rfl) fun _ =>
      .bind (.tasksIndex _) fun p => .bind (.taskClone p) fun p =>
        .look (fun s => ?_) fun _ _ => rfl
    exact .bind (.logEvent p _) fun _ => .ret _

theorem dispatchPolled (e : Cqe) (p : TaskPtr) (info : TaskInfo) (cls : SyscallNbCompResult) :
    Blind W (dispatchPolled e p info cls : Rt σ (Cqe × TaskPtr × Bool)) := by
  have hcurrent : ∀ info : TaskInfo,
      Blind W (modify fun s => { s with currentTask := info } : Rt σ Unit) := fun _ =>
    .update (fun _ _ => rfl) (fun _ => rfl) fun _ => rfl
  have hpoll : Blind W (do
      Onlyio.logEvent p (.poll (← get).currentTask)
      return (e, p, true) : Rt σ (Cqe × TaskPtr × Bool)) :=
    .look (fun _ => .bind (.logEvent p _) fun _ => .ret _) fun _ _ => rfl
  cases cls with
  | error => exact .fail _
  | expired => exact .ret _
  | normal =>
    exact .cond (.fail _) (.bind (.augmenteSyscallNb p) fun _ => .bind (hcurrent _) fun _ => hpoll)
  | multiple => exact .bind (hcurrent _) fun _ => hpoll

theorem handleEnd (e : Cqe) (p : TaskPtr) : Blind W (handleEnd e p : Rt σ Unit) := by
  unfold Onlyio.handleEnd
  cases !more e.flags with
  | true => exact .bind (.release p) fun _ => .release p
  | false => exact .release p

/-! ## The ring -/

theorem submitAndWait : Blind W (submitAndWait : Rt σ Unit) := by
  intro s logs h a s' hr
  rw [Onlyio.submitAndWait, bind_of_ok (get_run s)] at hr
  split at hr
  · rename_i hroom
    cases hr
    have hfewer : (s.without W logs).ring.sq.length + (s.without W logs).pending.length ≤
        (s.without W logs).ring.entries :=
      Nat.le_trans (Nat.add_le_add (List.length_filter_le ..) (List.length_filter_le ..)) hroom
    refine ⟨.of_heap rfl, logs, h.congr rfl rfl, ?_⟩
    rw [Onlyio.submitAndWait, bind_of_ok (get_run _), if_pos hfewer, modify_run]
    refine congrArg (EStateM.Result.ok ()) ?_
    simp [State.without, apart, List.filter_append]
  · cases hr

end Blind

section Ring

variable {s s' : State σ} {logs : TaskPtr → List Event}

/-- The oldest completion, when it answers no write. -/
theorem Mirrors.takeCqe (h : Recorded W s logs)
    (hhead : ∀ e cq, s.ring.cq = e :: cq → e.sqe ∉ W) : Mirrors W takeCqe takeCqe s logs := by
  intro e s' hr
  cases hcq : s.ring.cq with
  | nil =>
    rw [Onlyio.takeCqe, bind_of_ok (get_run s), hcq] at hr
    cases hr
  | cons e' cq =>
    rw [Onlyio.takeCqe, bind_of_ok (get_run s), hcq] at hr
    cases hr
    have hW := hhead e cq hcq
    have hcq' : (s.without W logs).ring.cq = e :: cq.filter fun e => e.sqe ∉ W := by
      simp [State.without, hcq, hW]
    refine ⟨.of_heap rfl, logs, h.congr rfl rfl, ?_⟩
    rw [Onlyio.takeCqe, bind_of_ok (get_run _), hcq']
    refine congrArg (EStateM.Result.ok e) ?_
    simp only [State.without]
    cases more e.flags with
    | true => rfl
    | false => simp [apart, List.erase_filter]

theorem Mirrors.handlePolled (h : Recorded W s logs)
    (hhead : ∀ e cq, s.ring.cq = e :: cq → e.sqe ∉ W) :
    Mirrors W handlePolled handlePolled s logs := by
  refine .bind (.takeCqe h hhead) fun e s1 logs1 h1 => ?_
  refine .bind ((Blind.tasksIndex _).mirrors h1) fun p s2 logs2 h2 => ?_
  refine .bind ((Blind.taskClone p).mirrors h2) fun p s3 logs3 h3 => ?_
  have hrest : ∀ raw : RawTask σ, Blind W (do
      let cls := evaluateSyscallNb raw.syscallNb (TaskInfo.fromEntry e).tag.syscallNb
      Onlyio.logEvent p (.cqe e cls ((← get).others p e.sqe))
      dispatchPolled e p (TaskInfo.fromEntry e) cls : Rt σ (Cqe × TaskPtr × Bool)) :=
    fun raw s logs h =>
    .look (.bind (.logEvent h rfl) fun _ s4 logs4 h4 => (Blind.dispatchPolled e p _ _).mirrors h4)
  exact (Blind.deref hrest fun _ _ => rfl).mirrors h3

/-- A program that does the same without the writes, or nothing. -/
def Stutters (W : List Sqe) (x : Rt σ Unit) : Prop :=
  ∀ s logs, Recorded W s logs → ∀ s', x s = .ok () s' → s.Grows s' ∧ ∃ logs',
    Recorded W s' logs' ∧ (s'.without W logs' = s.without W logs ∨
      x (s.without W logs) = .ok () (s'.without W logs'))

theorem Blind.stutters {x : Rt σ Unit} (hx : Blind W x) : Stutters W x := by
  intro s logs h s' hr
  obtain ⟨hgrows, logs', h', hrun⟩ := hx s logs h () s' hr
  exact ⟨hgrows, logs', h', .inr hrun⟩

/-- The kernel takes an SQE, which may be a write. -/
theorem stutters_kernelConsume : Stutters W (kernelConsume : Rt σ Unit) := by
  intro s logs h s' hr
  cases hsq : s.ring.sq with
  | nil =>
    rw [kernelConsume, bind_of_ok (get_run s), hsq] at hr
    cases hr
  | cons q sq =>
    rw [kernelConsume, bind_of_ok (get_run s), hsq] at hr
    cases hr
    refine ⟨.of_heap rfl, logs, h.congr rfl rfl, ?_⟩
    by_cases hq : q ∈ W
    · exact .inl (by simp [State.without, hsq, apart, hq])
    · have hsq' : (s.without W logs).ring.sq = q :: apart W sq := by
        simp [State.without, hsq, apart, hq]
      right
      rw [kernelConsume, bind_of_ok (get_run _), hsq']
      exact congrArg (EStateM.Result.ok ()) (by simp [State.without, apart_concat hq])

theorem find?_apart {sqes : List Sqe} {q : Sqe} {r : Sqe → Bool} (h : sqes.find? r = some q)
    (hq : q ∉ W) : (apart W sqes).find? r = some q := by
  rw [apart, List.find?_filter]
  obtain ⟨hr, before, rest, rfl, hbefore⟩ := List.find?_eq_some_iff_append.mp h
  refine List.find?_eq_some_iff_append.mpr ⟨by simp [hq, hr], before, rest, rfl, fun q' hq' => ?_⟩
  have hno : r q' = false := by simpa using hbefore q' hq'
  simp [hno]

/-- The kernel posts a completion, which may be that of a write. -/
theorem stutters_kernelComplete (id : Nat) (result : Int32) (flags : UInt32) :
    Stutters W (kernelComplete id result flags : Rt σ Unit) := by
  intro s logs h s' hr
  cases hq : s.ring.inflight.find? (fun q => q.id == id) with
  | none =>
    rw [kernelComplete, bind_of_ok (get_run s), hq] at hr
    cases hr
  | some q =>
    rw [kernelComplete, bind_of_ok (get_run s), hq] at hr
    simp only at hr
    split at hr
    · rename_i hok
      cases hr
      refine ⟨.of_heap rfl, logs, h.congr rfl rfl, ?_⟩
      by_cases hW : q ∈ W
      · exact .inl (by simp [State.without, hW])
      · have hq' : (s.without W logs).ring.inflight.find? (fun q => q.id == id) = some q :=
          find?_apart hq hW
        have hok' : (((s.without W logs).ring.cq.all fun c => c.sqe.id != id || more c.flags) &&
            (!more flags || q.op.isMultishot)) = true := by
          rw [Bool.and_eq_true, List.all_eq_true] at hok ⊢
          exact ⟨fun e he => hok.1 e (List.mem_of_mem_filter he), hok.2⟩
        right
        rw [kernelComplete, bind_of_ok (get_run _), hq']
        simp only
        rw [if_pos hok']
        exact congrArg (EStateM.Result.ok ()) (by simp [State.without, hW])
    · cases hr

end Ring

end Onlyio
