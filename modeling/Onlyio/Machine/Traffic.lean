import Onlyio.Machine.Isolate
import Onlyio.Machine.WakeRuns

/-!
# What passes over the ring

SQEs go from the poll that submits them to `pending`, to the submission queue and to the kernel;
completions come back over the completion queue. Both queues are lists here whose ends move, so what
has passed is a history beside them: `Traffic`.

* `WakeEffect.ringStep`: what any step of a thread does to the queues and to the records of the
  tasks. Either its poll queues SQEs and records them, or one end of one queue moves.
-/

namespace Onlyio

open Lib

variable {σ : Type} {code : Code σ}

/-! ## The history -/

/-- What the kernel has consumed and what it has posted, oldest first. -/
structure Traffic where
  consumed : List Sqe
  posted : List Cqe

/-- From the queues `r` to the queues `r'`: what has left the submission queue, and what has come to
the completion queue. -/
def Traffic.next (T : Traffic) (r r' : IoUring) : Traffic where
  consumed := T.consumed ++ r.sq.take (r.sq.length - r'.sq.length)
  posted := T.posted ++ r'.cq.drop r.cq.length

/-- A run of a thread with wakers, and the history of its ring. -/
inductive Carried (code : Code σ) : Traffic → Scene σ → Prop where
  | new {base : Nat} {s : State σ} (h : State.new base = .ok s) :
      Carried code ⟨[], []⟩ ⟨.empty, s, []⟩
  | step {T : Traffic} {g g' : Scene σ} (h : Carried code T g) (hs : WakeStep code g g') :
      Carried code (T.next g.state.ring g'.state.ring) g'

theorem Carried.wakeRun {T : Traffic} {g : Scene σ} (h : Carried code T g) : WakeRun code g := by
  induction h with
  | new h => exact .new h
  | step _ hs ih => exact ih.step hs

/-! ## What is recorded -/

/-- The completions that a task has received. -/
def received (log : List Event) : List Cqe := log.filterMap Event.cqe?

theorem received_append (log evs : List Event) :
    received (log ++ evs) = received log ++ received evs :=
  List.filterMap_append

/-- From `c` to `c'` the task `p` records the submissions `sent` and the completions `got`, and no
other task any. -/
structure Adds (p : TaskPtr) (c c' : Core) (sent : List Sqe) (got : List Cqe) : Prop where
  submitted : submitted (c'.cell p).log = submitted (c.cell p).log ++ sent
  received : received (c'.cell p).log = received (c.cell p).log ++ got
  others : ∀ q, q ≠ p → Onlyio.submitted (c'.cell q).log = Onlyio.submitted (c.cell q).log ∧
    Onlyio.received (c'.cell q).log = Onlyio.received (c.cell q).log

/-- The queues are the same. -/
structure SameQueues (c c' : Core) : Prop where
  pending : c'.pending = c.pending
  sq : c'.sq = c.sq
  inflight : c'.inflight = c.inflight
  cq : c'.cq = c.cq
  nextSqe : c'.nextSqe = c.nextSqe

section Adds

variable {p : TaskPtr} {c c1 c' : Core} {sent sent' : List Sqe} {got got' : List Cqe}

namespace Adds

theorem of_logs (h : ∀ q, (c'.cell q).log = (c.cell q).log) : Adds p c c' [] [] where
  submitted := by rw [h, List.append_nil]
  received := by rw [h, List.append_nil]
  others q _ := ⟨by rw [h], by rw [h]⟩

theorem trans (h1 : Adds p c c1 sent got) (h2 : Adds p c1 c' sent' got') :
    Adds p c c' (sent ++ sent') (got ++ got') where
  submitted := by rw [h2.submitted, h1.submitted, List.append_assoc]
  received := by rw [h2.received, h1.received, List.append_assoc]
  others q hq :=
    ⟨(h2.others q hq).1.trans (h1.others q hq).1, (h2.others q hq).2.trans (h1.others q hq).2⟩

/-- What is recorded is what the logs of the tasks tell. -/
theorem congr (h : Adds p c c1 sent got) (hcell : c'.cell = c1.cell) : Adds p c c' sent got := by
  refine ⟨?_, ?_, fun q hq => ?_⟩
  · rw [hcell, h.submitted]
  · rw [hcell, h.received]
  · rw [hcell]
    exact h.others q hq

theorem modifyCell (c : Core) (p : TaskPtr) {f : Cell → Cell} (evs : List Event)
    (hf : ∀ cl, (f cl).log = cl.log ++ evs) :
    Adds p c (c.modifyCell p f) (Onlyio.submitted evs) (Onlyio.received evs) where
  submitted := by rw [Core.modifyCell_self, hf, submitted_append]
  received := by rw [Core.modifyCell_self, hf, received_append]
  others q hq := by
    rw [Core.modifyCell_ne c f hq]
    exact ⟨rfl, rfl⟩

theorem edit (c : Core) (p : TaskPtr) {f : Cell → Cell} (hf : ∀ cl, (f cl).log = cl.log) :
    Adds p c (c.modifyCell p f) [] [] :=
  modifyCell c p [] fun cl => by rw [hf, List.append_nil]

theorem logAt (c : Core) (p : TaskPtr) (e : Event) :
    Adds p c (c.logAt p e) (Onlyio.submitted [e]) (Onlyio.received [e]) :=
  modifyCell c p [e] fun _ => rfl

theorem bump (c : Core) (p : TaskPtr) (n : Nat) :
    Adds p c (c.bump p n) [] [] := edit c p fun _ => rfl

theorem mapNb (c : Core) (p : TaskPtr) (f : UInt16 → UInt16) :
    Adds p c (c.mapNb p f) [] [] := edit c p fun _ => rfl

theorem setMultipleCurrent (c : Core) (p : TaskPtr) :
    Adds p c c.setMultipleCurrent [] [] := .of_logs fun _ => rfl

theorem deliver (c : Core) (p : TaskPtr) (e : Cqe) (cls : SyscallNbCompResult) :
    Adds p c (c.deliver p e cls) [] [] := by
  cases cls with
  | normal => exact (mapNb c p taskAugmente).congr rfl
  | expired | multiple | error => exact .of_logs fun _ => rfl

/-- A completion that is handed to its task is recorded. -/
theorem accept (c : Core) (p : TaskPtr) (e : Cqe) (cls : SyscallNbCompResult) :
    Adds p c (c.accept p e cls) [] [e] := by
  have hcqe := (bump c p 1).trans (logAt (c.bump p 1) p (.cqe e cls ((c.bump p 1).others p e.sqe)))
  exact (hcqe.trans (deliver _ p e cls)).trans (logAt _ p (.poll _))

theorem release (c : Core) (p : TaskPtr) (n : Nat) : Adds p c (c.release p n) [] [] := by
  unfold Core.release
  split
  · exact (modifyCell c p (f := fun cl =>
      { cl with refCounter := 0, freed := true, log := cl.log ++ [.dropped] })
        [.dropped] fun _ => rfl).congr rfl
  · exact edit c p fun _ => rfl

/-- A new task has recorded nothing of the ring. -/
theorem enter (habsent : c.cell c.spawned = .absent) (i : SlabIdx) (L : List (Option Value)) :
    Adds c.spawned c (c.enter i L) [] [] := by
  refine ⟨?_, ?_, fun q hq => ?_⟩
  · show Onlyio.submitted (Function.update c.cell c.spawned _ c.spawned).log = _
    rw [Function.update_self, habsent]
    rfl
  · show Onlyio.received (Function.update c.cell c.spawned _ c.spawned).log = _
    rw [Function.update_self, habsent]
    rfl
  · show Onlyio.submitted (Function.update c.cell c.spawned _ q).log = _ ∧
      Onlyio.received (Function.update c.cell c.spawned _ q).log = _
    rw [Function.update_of_ne hq]
    exact ⟨rfl, rfl⟩

/-- What a value submits is recorded. -/
theorem push (c : Core) (me : Caller) (op : SqeOp) (userData : UInt64) (oversize : Bool) :
    Adds me.task c (c.push me op userData oversize) [c.nextEntry me op userData oversize] [] :=
  (logAt c me.task (.submit (c.nextEntry me op userData oversize)
    (c.rivals me.task (c.nextEntry me op userData oversize).payload.syscallNb))).congr rfl

theorem pushAll (me : Caller) (payload : UserDataPayload) (ptr : Nat)
    (bufIndex : UInt16) (len : UInt32) (oversize : Bool) (fds : List UInt32) :
    ∀ (c : Core) (i : Nat), ∃ new,
      (c.pushAll me payload ptr bufIndex len oversize fds i).pending = c.pending ++ new ∧
      Adds me.task c (c.pushAll me payload ptr bufIndex len oversize fds i) new [] := by
  induction fds with
  | nil => exact fun c i => ⟨[], (List.append_nil _).symm, .of_logs fun _ => rfl⟩
  | cons fd fds ih =>
    intro c i
    obtain ⟨new, hp, hadds⟩ := ih (c.push me (.writeFixed fd ptr len bufIndex)
      { payload with responseGen := UInt16.ofNat i }.intoUserData oversize) (i + 1)
    refine ⟨_, hp.trans (List.append_assoc ..), (push c me _ _ oversize).trans hadds⟩

end Adds

/-- A poll of a value records what it queues. -/
theorem Polled.adds {me : Caller} {v v' : Value} {out : Out} (h : Polled me c v out v' c') :
    ∃ new, c'.pending = c.pending ++ new ∧ Adds me.task c c' new [] := by
  cases h with
  | @send v v' op h =>
    exact ⟨_, rfl, (Adds.bump c me.task 1).trans (.push _ me op _ false)⟩
  | @opens v v' op h =>
    have hnb := (Adds.setMultipleCurrent c me.task).trans (.mapNb _ me.task setMultiple)
    exact ⟨_, rfl, (hnb.trans (.bump _ me.task 1)).trans (.push _ me op _ false)⟩
  | @commit v v' op h =>
    have hrc := (Adds.setMultipleCurrent c me.task).trans (.bump _ me.task 1)
    exact ⟨_, rfl, hrc.trans (.push _ me op _ false)⟩
  | fanOut fds b len hne =>
    obtain ⟨new, hp, hadds⟩ :=
      Adds.pushAll me c.current.payload b.ptr b.index len (65535 < fds.length) fds c 0
    have hall := hadds.trans (.bump _ me.task (fds.length % 2 ^ 16))
    rw [List.append_nil] at hall
    exact ⟨new, hp, hall⟩
  | fanLast h hn hfd hused =>
    exact ⟨[], (List.append_nil _).symm, (Adds.mapNb c me.task taskAugmente).congr rfl⟩
  | fanOne | resolve => exact ⟨[], (List.append_nil _).symm, .of_logs fun _ => rfl⟩

end Adds

/-! ## What a step does to the ring -/

/-- One step, for the queues and the records. -/
inductive RingStep (c c' : Core) : Prop where
  /-- A poll of `p` queues and records `new`, or nothing happens. -/
  | poll (p : TaskPtr) (new : List Sqe) (hpending : c'.pending = c.pending ++ new)
      (hnext : c'.nextSqe = c.nextSqe + new.length)
      (hids : new.map Sqe.id = List.range' c.nextSqe new.length)
      (hmine : ∀ q ∈ new, q.caller.task = p) (hsq : c'.sq = c.sq) (hin : c'.inflight = c.inflight)
      (hcq : c'.cq = c.cq) (h : Adds p c c' new [])
  /-- `submit_and_wait` pushes what is pending. -/
  | submit (h : c' = { c with sq := c.sq ++ c.pending, pending := [] })
  /-- The kernel consumes the oldest entry. -/
  | consume (q : Sqe) (sq : List Sqe) (hsq : c.sq = q :: sq)
      (h : c' = { c with sq, inflight := c.inflight ++ [q] })
  /-- The kernel posts a completion. -/
  | complete (e : Cqe) (hin : e.sqe ∈ c.inflight) (h : c' = { c with cq := c.cq ++ [e] })
  /-- The loop takes the oldest completion, and the submitter of its SQE records it. -/
  | take (e : Cqe) (cq : List Cqe) (hcq : c.cq = e :: cq) (hq : SameQueues (c.take e cq) c')
      (h : Adds e.sqe.caller.task (c.take e cq) c' [] [e])

theorem RingStep.quiet {c c' : Core} (p : TaskPtr) (hq : SameQueues c c') (h : Adds p c c' [] []) :
    RingStep c c' :=
  .poll p [] (hq.pending.trans (List.append_nil _).symm) hq.nextSqe rfl
  (by simp) hq.sq hq.inflight hq.cq h

theorem SameQueues.refl (c : Core) : SameQueues c c := ⟨rfl, rfl, rfl, rfl, rfl⟩

theorem SameQueues.logAt (c : Core) (p : TaskPtr) (e : Event) : SameQueues c (c.logAt p e) :=
    ⟨rfl, rfl, rfl, rfl, rfl⟩

theorem SameQueues.accept (c : Core) (p : TaskPtr) (e : Cqe) (cls : SyscallNbCompResult) :
    SameQueues c (c.accept p e cls) := by
  cases cls <;> exact ⟨rfl, rfl, rfl, rfl, rfl⟩

theorem SameQueues.release (c : Core) (p : TaskPtr) (n : Nat) : SameQueues c (c.release p n) := by
  unfold Core.release
  split <;> exact ⟨rfl, rfl, rfl, rfl, rfl⟩

theorem SameQueues.trans {c c1 c' : Core} (h1 : SameQueues c c1) (h2 : SameQueues c1 c') :
    SameQueues c c' :=
  ⟨h2.pending.trans h1.pending, h2.sq.trans h1.sq, h2.inflight.trans h1.inflight, h2.cq.trans h1.cq,
    h2.nextSqe.trans h1.nextSqe⟩

theorem Step.ringStep {g g' : Config σ} (hs : Step code g g') {W : TaskPtr → Nat}
    (hinv : Inv g.core g.stack W) : RingStep g.core g'.core := by
  cases hs with
  | @locals c _ _ p | @suspend c _ _ p => exact .quiet p (.refl c) (.of_logs fun _ => rfl)
  | @poll c c' fut st p role x L v k val val' out hf hx hv h =>
    obtain ⟨m, new, evs, -, heff⟩ := h.effect
    obtain ⟨new', hp, hadds⟩ := h.adds
    obtain rfl : new' = new := List.append_cancel_left (hp.symm.trans heff.pending)
    have hlog :=
      hadds.trans (.logAt c' p
      (.call v val c.current (c.rivals p c.current.tag.syscallNb) (out.resp L.length)))
    exact .poll p new' heff.pending heff.nextSqe heff.ids (fun q hq => (heff.mine q hq).1)
      heff.sq heff.inflight heff.cq
      (by rwa [show submitted [Event.call ..] = [] from rfl, List.append_nil] at hlog)
  | @ret c _ _ p => exact .quiet p ⟨rfl, rfl, rfl, rfl, rfl⟩ (.logAt c p (.ready _))
  | @spawn c _ _ _ _ _ _ _ _ _ taken _ i hf hx hm hi =>
    exact .quiet c.spawned ⟨rfl, rfl, rfl, rfl, rfl⟩
      (.enter (hinv.slab.fresh _ (Nat.le_refl _)) i taken)
  | @main c _ _ i hx hi =>
    exact .quiet c.spawned ⟨rfl, rfl, rfl, rfl, rfl⟩
      (.enter (hinv.slab.fresh _ (Nat.le_refl _)) i [])
  | @spawnEnd c _ _ t =>
    exact .quiet t ((SameQueues.release c t 2).trans ⟨rfl, rfl, rfl, rfl, rfl⟩)
      ((Adds.release c t 2).congr rfl)
  | @handleEnd c _ p final => exact .quiet p (.release c p _) (.release c p _)
  | @skip c fut e cq p he hp hcls =>
    obtain ⟨rfl, -⟩ := hinv.cqe_owner he hp
    have hlog := Adds.logAt (c.take e cq) e.sqe.caller.task
      (.cqe e .expired ((c.take e cq).others e.sqe.caller.task e.sqe))
    exact .take e cq he ((SameQueues.logAt _ _ _).trans (.release _ _ _))
      (hlog.trans (.release _ _ _))
  | @handle c fut e cq p he hp hcls =>
    obtain ⟨rfl, -⟩ := hinv.cqe_owner he hp
    exact .take e cq he (.accept _ _ e _) (.accept _ _ e _)
  | submit => exact .submit rfl
  | consume h => exact .consume _ _ h rfl
  | complete hq hlast hmore => exact .complete _ hq rfl
  | @free c => exact .quiet 0 ⟨rfl, rfl, rfl, rfl, rfl⟩ (.of_logs fun _ => rfl)

/-- A waker touches no queue. -/
theorem WakeEffect.ringStep {g g' : Scene σ} (he : WakeEffect code g g') (h : Sound g) :
    RingStep g.state.core g'.state.core := by
  cases he with
  | step hs => exact hs.ringStep h.inv
  | @wake L s s' w rest hq hc hf =>
    have hcur : Adds w.2 s.core { s.core with current := .fromWaker w.1 } [] [] :=
      .of_logs fun _ => rfl
    have hlog : Adds w.2 s.core (s.core.wake w.2 (.fromWaker w.1)) [] [] :=
      (hcur.trans (.bump _ w.2 1)).trans (.logAt _ w.2 (.poll (.fromWaker w.1)))
    exact .quiet w.2 (hc ▸ ⟨rfl, rfl, rfl, rfl, rfl⟩) (hc ▸ hlog)
  | @waker L s s' st payload p hslot hlive hc hf =>
    exact .quiet p (hc ▸ ⟨rfl, rfl, rfl, rfl, rfl⟩) (hc ▸ .bump s.core p 1)
  | @awake L s s' st w hw hc hf =>
    exact .quiet w.2 (hc ▸ .refl s.core) (.of_logs fun q => by rw [hc])
  | @drop L s s' st w hw hc hf =>
    exact .quiet w.2 (hc ▸ .release s.core w.2 1) (hc ▸ .release s.core w.2 1)

end Onlyio
