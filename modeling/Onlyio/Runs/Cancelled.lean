import Onlyio.Runs.SingleShot
import Onlyio.Runs.CrossTalk

/-!
# Operations that are dropped before they complete

A future that is dropped after its first poll leaves its SQE with the kernel. The number of a task
advances when a completion is accepted and not when an SQE is submitted, so the operation that the
task awaits next carries the number of the dropped one, and the dispatcher cannot tell their
completions apart. Only the order saves it: once an operation has been resolved, whatever was
submitted before it is stale.

* `cancelled`: the code of blocks that await single-shot operations and start others without
  awaiting them.
* **`in_order_run`**: as long as the completions of a task come in order, every operation is
  resolved by its own completion and every other completion is `Expired`; and the next completion is
  classified so exactly if it comes in order too.
* `dropped_read_resolves_accept`: a dropped `read` whose completion resolves the `accept` after it.
-/

namespace Onlyio

open Lib

/-! ## The code -/

/-- `accept`, `read` and `write`. -/
def Op.singleShot : Op → Bool
  | .accept _ | .read _ | .write _ _ _ => true
  | _ => false

namespace Cancel

/-- What a block does next. -/
inductive Instr (τ : Type) where
  | ret
  | spawn (child : τ) (moved : List (Kind × Var)) (k : τ)
  /-- `op.await`. -/
  | await (op : Op) (k : Resp → τ)
  /-- Build the future and poll it once; the block may drop it at any time, and never polls it
  again. -/
  | start (op : Op) (k : Var → τ)
  | drop (v : Var) (k : τ)
  | allocWrite (k : Var → τ)
  | cloneWrite (v : Var) (k : Var → τ)

/-- A point of such a block. -/
inductive Point (τ : Type) where
  | run (t : τ)
  /-- About to poll the awaited value. -/
  | poll (v : Var) (k : Resp → τ)
  /-- About to suspend, after `Pending`. -/
  | suspend (v : Var) (k : Resp → τ)
  /-- About to poll the value that is only started. -/
  | start (v : Var) (k : τ)

variable {τ : Type}

/-- After a poll of the awaited value. -/
def Point.after (v : Var) (k : Resp → τ) : Option Resp → Point τ
  | none => .suspend v k
  | some r => .run (k r)

/-- The instructions of a block that builds single-shot operations only. -/
def Instr.singleShot : Instr τ → Bool
  | .await op _ | .start op _ => op.singleShot
  | _ => true

end Cancel

variable {τ : Type}

/-- What such a block compiles to. -/
def cancelledInstr (A : τ → Cancel.Instr τ) : Cancel.Point τ → Instr (Cancel.Point τ)
  | .run t =>
    match A t with
    | .ret => .ret
    | .spawn child moved k => .spawn (.run child) moved (.run k)
    | .await op k => .make op fun v => .poll v k
    | .start op k => .make op fun v => .start v (k v)
    | .drop v k => .drop v (.run k)
    | .allocWrite k => .allocWrite fun v => .run (k v)
    | .cloneWrite v k => .cloneWrite v fun v' => .run (k v')
  | .poll v k => .poll v (.after v k)
  | .suspend v k => .suspend (.poll v k)
  | .start v k => .poll v fun _ => .run k

/-- The code of a program whose blocks cancel. -/
def cancelled (A : τ → Cancel.Instr τ) : Code (Cancel.Point τ) where
  instr := cancelledInstr A
  entry
    | .run _ => true
    | _ => false

/-! ## What a log says -/

/-- What the log of a task says of its operations. -/
structure History where
  /-- How many were resolved. -/
  resolved : Nat
  /-- The SQE that was submitted last. -/
  last : Option Sqe
  /-- The SQEs after whose submission an operation was resolved. -/
  since : Sqe → Bool
  /-- The block has returned. -/
  returned : Bool

namespace History

/-- One more event. -/
def after (H : History) : Event → History
  | .submit q _ => { H with last := some q, since := fun r => !decide (r = q) && H.since r }
  | .call _ _ _ _ (some _) => { H with resolved := H.resolved + 1, since := fun _ => true }
  | .ready _ => { H with returned := true }
  | _ => H

/-- The history that a log records. -/
def of (log : List Event) : History := log.foldl after ⟨0, none, fun _ => false, false⟩

theorem of_append (log evs : List Event) : of (log ++ evs) = evs.foldl after (of log) :=
  List.foldl_append

/-- The task awaits the operation that submitted `q`. -/
def awaits (H : History) (q : Sqe) : Bool := H.last = some q && !H.returned

/-- The completion of `q` comes in order: the task awaits it, or has resolved an operation since,
and its number has not wrapped. -/
def inOrder (H : History) (q : Sqe) : Bool := H.awaits q || H.since q && H.resolved < 32768

end History

/-- The completion that is handled comes in order. -/
def Event.inOrder (before : List Event) : Event → Bool
  | .cqe e _ _ => (History.of before).inOrder e.sqe
  | _ => true

/-- The completions of the task came in order. -/
def InOrder (log : List Event) : Prop := Along (fun before ev => ev.inOrder before = true) log

/-- A completion is `Expired` exactly if the task does not await it, and then it starts no poll. -/
def Event.heeded (before : List Event) : Event → Bool
  | .cqe e cls _ => decide (cls = .expired) != (History.of before).awaits e.sqe
  | .poll _ =>
    match before.getLast? with
    | some (.cqe _ .expired _) => false
    | _ => true
  | _ => true

/-- Every completion was heeded as the task asks. -/
def Heeded (log : List Event) : Prop := Along (fun before ev => ev.heeded before = true) log

/-! ## The invariant -/

/-- The numbers of a task that has resolved `n` operations, and of its outstanding SQEs. -/
structure Counted (V : View (Cancel.Point τ)) (n : Nat) : Prop where
  nb : V.nb.toNat = min n 32768
  single : ∀ q ∈ V.outs, q.op.isMultishot = false
  old : ∀ q ∈ V.outs, (History.of V.log).since q = true → n < 32768 → q.nb.toNat < n
  new : ∀ q ∈ V.outs, (History.of V.log).since q = false → q.nb = V.nb

/-- The block runs, between operations. -/
structure Idle (V : View (Cancel.Point τ)) (cur : TaskInfo) : Prop where
  nb : cur.tag.syscallNb = V.nb
  counted : Counted V (History.of V.log).resolved
  returned : (History.of V.log).returned = false

/-- The operation in local `v` is about to be polled for the first time. -/
def Begins (V : View (Cancel.Point τ)) (cur : TaskInfo) (v : Var) : Prop :=
  Idle V cur ∧ ∃ val, V.block.locals[v]? = some (some val) ∧ val.starts = true

/-- The operation in local `v` is about to be polled with its completion. -/
structure Answered (p : TaskPtr) (V : View (Cancel.Point τ)) (cur : TaskInfo) (v : Var) : Prop where
  nb : cur.tag.syscallNb = V.nb
  stored : V.nb.toNat = min ((History.of V.log).resolved + 1) 32768
  single : ∀ q ∈ V.outs, q.op.isMultishot = false
  old : ∀ q ∈ V.outs, (History.of V.log).resolved + 1 < 32768 →
    q.nb.toNat < (History.of V.log).resolved + 1
  returned : (History.of V.log).returned = false
  entry : ∃ e, lastCqe V.log = some e ∧ e.sqe.caller = ⟨p, v⟩ ∧ cur.result = e.result ∧
    cur.flags = e.flags
  val : ∃ val, V.block.locals[v]? = some (some val) ∧ val.submitted = true

/-- The block awaits the operation in local `v`. -/
structure Awaiting (p : TaskPtr) (V : View (Cancel.Point τ)) (v : Var) : Prop where
  counted : Counted V (History.of V.log).resolved
  returned : (History.of V.log).returned = false
  sqe : ∃ q ∈ V.outs, (History.of V.log).last = some q ∧ q.caller = ⟨p, v⟩ ∧ q.nb = V.nb
  val : ∃ val, V.block.locals[v]? = some (some val) ∧ val.submitted = true

/-- The block has returned. -/
structure Gone (V : View (Cancel.Point τ)) : Prop where
  counted : Counted V (History.of V.log).resolved
  returned : (History.of V.log).returned = true

/-- Where a task stands that cancels operations. -/
def Stands (p : TaskPtr) (V : View (Cancel.Point τ)) : Prop :=
  match V.phase, V.block.code with
  | .on cur, some (.run _) => Idle V cur
  | .on cur, some (.start v _) => Begins V cur v
  | .on cur, some (.poll v _) => Begins V cur v ∨ Answered p V cur v
  | .on _, some (.suspend v _) => Awaiting p V v
  | .on _, none => False
  | _, some (.poll v _) => Awaiting p V v
  | _, some _ => False
  | _, none => Gone V

/-- What is known of such a task. -/
structure Orderly (p : TaskPtr) (V : View (Cancel.Point τ)) : Prop where
  owned : Owned p V.log
  heeded : Heeded V.log
  stands : Stands p V

/-! ## Points -/

section Points

variable {A : τ → Cancel.Instr τ} {x : Cancel.Point τ}

/-- A point at which a value is polled. -/
theorem cancelled_poll {v : Var} {k : Option Resp → Cancel.Point τ}
    (h : cancelled A x = .poll v k) :
    (∃ k', x = .poll v k' ∧ k = .after v k') ∨ ∃ y, x = .start v y ∧ k = fun _ => .run y := by
  cases x with
  | run t =>
    simp only [cancelled, cancelledInstr] at h
    cases hA : A t <;> simp [hA] at h
  | poll w k' =>
    simp only [cancelled, cancelledInstr, Instr.poll.injEq] at h
    obtain ⟨rfl, rfl⟩ := h
    exact .inl ⟨k', rfl, rfl⟩
  | suspend w k' => simp [cancelled, cancelledInstr] at h
  | start w y =>
    simp only [cancelled, cancelledInstr, Instr.poll.injEq] at h
    obtain ⟨rfl, rfl⟩ := h
    exact .inr ⟨y, rfl, rfl⟩

/-- A point at which the block suspends. -/
theorem cancelled_suspend {k : Cancel.Point τ} (h : cancelled A x = .suspend k) :
    ∃ v k', x = .suspend v k' ∧ k = .poll v k' := by
  cases x with
  | run t =>
    simp only [cancelled, cancelledInstr] at h
    cases hA : A t <;> simp [hA] at h
  | poll w k' => simp [cancelled, cancelledInstr] at h
  | suspend w k' =>
    simp only [cancelled, cancelledInstr, Instr.suspend.injEq] at h
    exact ⟨w, k', rfl, h.symm⟩
  | start w y => simp [cancelled, cancelledInstr] at h

/-- A point at which the block does anything else. -/
theorem cancelled_run {i : Instr (Cancel.Point τ)} (h : cancelled A x = i)
    (hp : ∀ v k, i ≠ .poll v k) (hs : ∀ k, i ≠ .suspend k) : ∃ t, x = .run t := by
  subst h
  cases x with
  | run t => exact ⟨t, rfl⟩
  | poll w k' => exact absurd rfl (hp w (.after w k'))
  | suspend w k' => exact absurd rfl (hs (.poll w k'))
  | start w y => exact absurd rfl (hp w fun _ => .run y)

theorem cancelled_spawn {t : τ} {child k : Cancel.Point τ} {moved : List (Kind × Var)}
    (h : cancelled A (.run t) = .spawn child moved k) : ∃ c u, child = .run c ∧ k = .run u := by
  simp only [cancelled, cancelledInstr] at h
  cases hA : A t with
  | spawn c moved u =>
    simp only [hA, Instr.spawn.injEq] at h
    exact ⟨c, u, h.1.symm, h.2.2.symm⟩
  | _ => simp [hA] at h

theorem Makes.starts {L L' : List (Option Value)} {op : Op} {val : Value} (h : Makes L op val L')
    (hop : op.singleShot = true) : val.starts = true := by
  cases h <;> first | rfl | cases hop

/-- An instruction on the locals: the block runs on, or is about to poll an operation it has
built. -/
theorem cancelled_local {t : τ} {y : Cancel.Point τ} {L L' : List (Option Value)}
    (hA : (A t).singleShot = true) (h : LocalStep L (cancelled A (.run t)) y L') :
    (∃ u, y = .run u) ∨ ∃ v val, ((∃ k, y = .poll v k) ∨ ∃ k, y = .start v k) ∧
      L'[v]? = some (some val) ∧ val.starts = true := by
  simp only [cancelled, cancelledInstr] at h
  cases hAt : A t with
  | await op k =>
    rw [hAt] at h hA
    cases h with
    | make hm => exact .inr ⟨_, _, .inl ⟨k, rfl⟩, List.getElem?_concat_length, hm.starts hA⟩
  | start op k =>
    rw [hAt] at h hA
    cases h with
    | make hm => exact .inr ⟨_, _, .inr ⟨_, rfl⟩, List.getElem?_concat_length, hm.starts hA⟩
  | drop | allocWrite | cloneWrite =>
    rw [hAt] at h
    cases h
    exact .inl ⟨_, rfl⟩
  | ret | spawn =>
    rw [hAt] at h
    cases h

end Points

/-! ## Steps -/

section Steps

variable {A : τ → Cancel.Instr τ} {p : TaskPtr} {V V' : View (Cancel.Point τ)} {cur : TaskInfo}
  {v : Var} {n : Nat}

theorem Counted.congr (h : Counted V n) (hnb : V'.nb = V.nb) (houts : ∀ q ∈ V'.outs, q ∈ V.outs)
    (hsince : (History.of V'.log).since = (History.of V.log).since) : Counted V' n := by
  refine ⟨hnb ▸ h.nb, fun q hq => h.single q (houts q hq), fun q hq => ?_, fun q hq => ?_⟩
  · rw [hsince]
    exact h.old q (houts q hq)
  · rw [hsince, hnb]
    exact h.new q (houts q hq)

/-- A completion that comes in order is classified as the task asks, and only such a one. -/
theorem Counted.inOrder_iff (h : Counted V (History.of V.log).resolved) {q : Sqe} (hq : q ∈ V.outs)
    (hawaits : (History.of V.log).awaits q = true → q.nb = V.nb) :
    (evaluateSyscallNb V.nb q.nb = if (History.of V.log).awaits q then
        (if isMultiple V.nb then .multiple else .normal) else .expired) ↔
      (History.of V.log).inOrder q = true := by
  unfold History.inOrder
  cases haw : (History.of V.log).awaits q with
  | true => simp [hawaits haw, evaluate_of_eq]
  | false =>
    have hnb := h.nb
    simp only [Bool.false_eq_true, if_false, Bool.false_or, Bool.and_eq_true, decide_eq_true_eq]
    rw [evaluate_expired_iff, rank_lt_iff]
    constructor
    · intro hlt
      have hn : (History.of V.log).resolved < 32768 := by omega
      refine ⟨?_, hn⟩
      by_contra hsince
      rw [h.new q hq (by simpa using hsince)] at hlt
      exact Nat.lt_irrefl _ hlt
    · rintro ⟨hsince, hn⟩
      have hlt := h.old q hq hsince hn
      omega

theorem Idle.goto (h : Idle V cur) (b : AsyncBlock (Cancel.Point τ)) (ph : Phase) :
    Idle { V with block := b, phase := ph } cur :=
  ⟨h.nb, h.counted.congr rfl (fun _ hq => hq) rfl, h.returned⟩

/-- The first poll of an operation. -/
theorem Idle.submit (h : Idle V cur) {me : Caller} {op : SqeOp} {q : Sqe} {val : Value} {m m' : Nat}
    {b : AsyncBlock (Cancel.Point τ)} (hq : Stamped me cur op q) (hop : op.isMultishot = false) :
    Idle { V with
      outs := V.outs + ([q] : List Sqe), phase := .on cur, block := b
      log := V.log ++ [.submit q m] ++ [.call v val cur m' none] } cur := by
  have hhist : History.of (V.log ++ [.submit q m] ++ [.call v val cur m' none]) =
      { History.of V.log with
        last := some q, since := fun r => !decide (r = q) && (History.of V.log).since r } := by
    simp [History.of_append, History.after]
  have hnb : q.nb = V.nb := hq.nb.trans h.nb
  have hmem : ∀ r ∈ V.outs + ([q] : List Sqe), r = q ∨ r ∈ V.outs := by simp [or_comm]
  refine ⟨h.nb, ⟨?_, ?_, ?_, ?_⟩, ?_⟩
  · rw [hhist]
    exact h.counted.nb
  · intro r hr
    rcases hmem r hr with rfl | hr
    · rw [hq.op, hop]
    · exact h.counted.single r hr
  · intro r hr hsince
    simp only [hhist, Bool.and_eq_true, Bool.not_eq_true', decide_eq_false_iff_not] at hsince ⊢
    exact h.counted.old r ((hmem r hr).resolve_left hsince.1) hsince.2
  · intro r hr hsince
    by_cases heq : r = q
    · rw [heq, hnb]
    · refine h.counted.new r ((hmem r hr).resolve_left heq) ?_
      simp only [hhist] at hsince
      simpa [heq] using hsince
  · rw [hhist]
    exact h.returned

/-- What the first poll of an operation does. -/
theorem Begins.call (h : Begins V cur v) {cur' : TaskInfo} {val val' : Value}
    {out : Out} {nb' : UInt16} {new : List Sqe} {evs : List Event}
    (hv : V.block.locals[v]? = some (some val))
    (hc : Called ⟨p, v⟩ cur V.nb V.outs val out val' cur' nb' new evs) :
    ∃ op q, Stamped ⟨p, v⟩ cur op q ∧ op.isMultishot = false ∧ val'.submitted = true ∧
      out = .pending ∧ cur' = cur ∧ nb' = V.nb ∧ new = [q] ∧
      evs = [.submit q (V.outs.countP fun r => r.nb = q.nb)] := by
  obtain ⟨-, val1, hval, hstarts⟩ := h
  obtain rfl : val1 = val := Option.some.inj (Option.some.inj (hval.symm.trans hv))
  obtain ⟨op, q, hsend, hq, hrest⟩ := hc.of_starts hstarts
  exact ⟨op, q, hq, hsend.single, hsend.submitted hstarts, hrest⟩

/-- After it the block awaits the operation. -/
theorem Begins.awaiting (h : Begins V cur v) {op : SqeOp} {q : Sqe} {val val' : Value} {m m' : Nat}
    {code : Option (Cancel.Point τ)} (hv : V.block.locals[v]? = some (some val))
    (hq : Stamped ⟨p, v⟩ cur op q) (hop : op.isMultishot = false) (hsub : val'.submitted = true) :
    Awaiting p { V with
      outs := V.outs + ([q] : List Sqe), phase := .on cur
      block := ⟨code, V.block.locals.set v (some val')⟩
      log := V.log ++ [.submit q m] ++ [.call v val cur m' none] } v := by
  obtain ⟨hidle, -⟩ := h
  have hidle' : Idle { V with
      outs := V.outs + ([q] : List Sqe), phase := .on cur
      block := ⟨code, V.block.locals.set v (some val')⟩
      log := V.log ++ [.submit q m] ++ [.call v val cur m' none] } cur := hidle.submit hq hop
  obtain ⟨hlt, -⟩ := List.getElem?_eq_some_iff.mp hv
  refine ⟨hidle'.counted, hidle'.returned, ⟨q, by simp, ?_, hq.caller, hq.nb.trans hidle.nb⟩, val',
    List.getElem?_set_self hlt, hsub⟩
  simp [History.of_append, History.after]

/-- The poll that resolves an operation. -/
theorem Answered.resolve (h : Answered p V cur v) {val : Value} {r : Resp} {m : Nat}
    {b : AsyncBlock (Cancel.Point τ)} :
    Idle { V with phase := .on cur, block := b, log := V.log ++
    [.call v val cur m (some r)] } cur := by
  have hhist : History.of (V.log ++ [.call v val cur m (some r)]) =
      { History.of V.log with
        resolved := (History.of V.log).resolved + 1, since := fun _ => true } := by
    simp [History.of_append, History.after]
  refine ⟨h.nb, ⟨?_, h.single, fun q hq _ => ?_, fun q _ hsince => ?_⟩, ?_⟩
  · rw [hhist]
    exact h.stored
  · rw [hhist]
    exact h.old q hq
  · simp [hhist] at hsince
  · rw [hhist]
    exact h.returned

theorem Awaiting.awaits_iff (h : Awaiting p V v) {q : Sqe} :
    (History.of V.log).awaits q = true ↔ (History.of V.log).last = some q := by
  simp [History.awaits, h.returned]

theorem Awaiting.nb_of_awaits (h : Awaiting p V v) {q : Sqe}
    (hq : (History.of V.log).awaits q = true) : q.nb = V.nb := by
  obtain ⟨q', -, hlast, -, hnb⟩ := h.sqe
  rw [h.awaits_iff, hlast] at hq
  obtain rfl := Option.some.inj hq
  exact hnb

theorem Gone.not_awaits (h : Gone V) (q : Sqe) : (History.of V.log).awaits q = false := by
  simp [History.awaits, h.returned]

/-- A task that no poll is in progress of awaits an operation, or has returned. -/
theorem Stands.cases (h : Stands p V) (hoff : ∀ cur, V.phase ≠ .on cur) :
    (∃ v k, V.block.code = some (.poll v k) ∧ Awaiting p V v) ∨ V.block.code = none ∧ Gone V := by
  unfold Stands at h
  cases hph : V.phase with
  | on cur => exact absurd hph (hoff cur)
  | _ =>
    cases hcode : V.block.code with
    | none =>
      rw [hph, hcode] at h
      exact .inr ⟨rfl, h⟩
    | some x =>
      rw [hph, hcode] at h
      cases x with
      | poll v k => exact .inl ⟨v, k, rfl, h⟩
      | run | suspend | start => cases h

theorem Awaiting.stands {k : Resp → τ} (h : Awaiting p V v) (hoff : ∀ cur, V.phase ≠ .on cur)
    (hcode : V.block.code = some (.poll v k)) : Stands p V := by
  unfold Stands
  cases hph : V.phase with
  | on cur => exact absurd hph (hoff cur)
  | _ =>
    rw [hcode]
    exact h

theorem Gone.stands (h : Gone V) (hoff : ∀ cur, V.phase ≠ .on cur) (hcode : V.block.code = none) :
    Stands p V := by
  unfold Stands
  cases hph : V.phase with
  | on cur => exact absurd hph (hoff cur)
  | _ =>
    rw [hcode]
    exact h

/-- How the dispatcher classifies the next completion of the task. -/
theorem Stands.inOrder_iff (h : Stands p V) (hoff : V.phase = .off) {q : Sqe} (hq : q ∈ V.outs) :
    (evaluateSyscallNb V.nb q.nb = if (History.of V.log).awaits q then
        (if isMultiple V.nb then .multiple else .normal) else .expired) ↔
      (History.of V.log).inOrder q = true := by
  rcases h.cases (by simp [hoff]) with ⟨v, k, -, ha⟩ | ⟨-, hg⟩
  · exact ha.counted.inOrder_iff hq ha.nb_of_awaits
  · refine hg.counted.inOrder_iff hq fun haw => ?_
    rw [hg.not_awaits q] at haw
    cases haw

/-- An event that no operation is about. -/
theorem History.of_cqe (log : List Event) (e : Cqe) (cls : SyscallNbCompResult)
    (others : List UInt16) : of (log ++ [.cqe e cls others]) = of log := by
  simp [of_append, after]

theorem Orderly.settle (h : Orderly p V) (hoff : V.phase = .off) : Orderly p V.settle := by
  unfold View.settle
  split
  · rename_i houts
    have hhist : History.of (V.log ++ [.dropped]) = History.of V.log := by
      simp [History.of_append, History.after]
    refine ⟨h.owned.snoc rfl, h.heeded.snoc rfl, ?_⟩
    rcases h.stands.cases (by simp [hoff]) with ⟨v, k, -, ha⟩ | ⟨hcode, hg⟩
    · obtain ⟨q, hq, -⟩ := ha.sqe
      rw [houts] at hq
      exact absurd hq (Multiset.notMem_zero q)
    · refine Gone.stands ⟨?_, ?_⟩ (by simp [hoff]) hcode
      · rw [hhist]
        exact hg.counted.congr rfl (fun _ hq => hq) (by rw [hhist])
      · rw [hhist]
        exact hg.returned
  · exact h

/-- A completion that is not accepted. -/
theorem Orderly.skip (h : Orderly p V) {e : Cqe} {others : List UInt16}
    (ha : Arrives V e .expired others) (hin : (History.of V.log).inOrder e.sqe = true) :
    Orderly p { V with outs := V.answered e, log := V.log ++ [.cqe e .expired others] } := by
  have hcls := (h.stands.inOrder_iff ha.off ha.mem).mpr hin
  rw [← ha.cls] at hcls
  have haw : (History.of V.log).awaits e.sqe = false := by
    by_contra haw
    rw [Bool.not_eq_false] at haw
    rw [haw, if_pos rfl] at hcls
    split at hcls <;> cases hcls
  have hsub : ∀ q ∈ V.answered e, q ∈ V.outs := fun _ => View.mem_of_answered
  refine ⟨h.owned.snoc rfl, h.heeded.snoc ?_, ?_⟩
  · simp [Event.heeded, haw]
  · rcases h.stands.cases (by simp [ha.off]) with ⟨v, k, hcode, hw⟩ | ⟨hcode, hg⟩
    · refine Awaiting.stands ⟨?_, ?_, ?_, hw.val⟩ (by simp [ha.off]) hcode
      · rw [History.of_cqe]
        exact hw.counted.congr rfl hsub (by rw [History.of_cqe])
      · rw [History.of_cqe]
        exact hw.returned
      · obtain ⟨q, hq, hlast, hcaller, hnb⟩ := hw.sqe
        refine ⟨q, ?_, by rw [History.of_cqe]; exact hlast, hcaller, hnb⟩
        have hne : q ≠ e.sqe := by
          rintro rfl
          rw [hw.awaits_iff.mpr hlast] at haw
          cases haw
        show q ∈ if _ then _ else _
        split
        · exact hq
        · exact (Multiset.mem_erase_of_ne hne).mpr hq
    · refine Gone.stands ⟨?_, ?_⟩ (by simp [ha.off]) hcode
      · rw [History.of_cqe]
        exact hg.counted.congr rfl hsub (by rw [History.of_cqe])
      · rw [History.of_cqe]
        exact hg.returned

/-- A completion that is accepted is the one that the task awaits. -/
theorem Orderly.accept (h : Orderly p V) {e : Cqe} {cls : SyscallNbCompResult}
    {others : List UInt16} (ha : Arrives V e cls others) (hcls : cls = .normal ∨ cls = .multiple)
    (hin : (History.of V.log).inOrder e.sqe = true) :
    Orderly p { V with
      nb := if cls = .normal then taskAugmente V.nb else V.nb
      outs := V.answered e
      phase := .on (e.context cls)
      log := V.log ++ [.cqe e cls others, .poll (e.context cls)] } := by
  have heval := (h.stands.inOrder_iff ha.off ha.mem).mpr hin
  rw [← ha.cls] at heval
  have haw : (History.of V.log).awaits e.sqe = true := by
    by_contra haw
    rw [if_neg haw] at heval
    subst heval
    simp at hcls
  have hexp : cls ≠ .expired := by
    rintro rfl
    simp at hcls
  have hlog : V.log ++ [.cqe e cls others, .poll (e.context cls)] =
      V.log ++ [.cqe e cls others] ++ [.poll (e.context cls)] := by simp
  have hhist : History.of (V.log ++ [.cqe e cls others, .poll (e.context cls)]) =
      History.of V.log := by simp [History.of_append, History.after]
  have hheeded : Heeded (V.log ++ [.cqe e cls others] ++ [.poll (e.context cls)]) := by
    refine (h.heeded.snoc ?_).snoc ?_
    · simp [Event.heeded, haw, hexp]
    · rcases hcls with rfl | rfl <;> simp [Event.heeded]
  refine ⟨hlog ▸ (h.owned.snoc rfl).snoc rfl, hlog ▸ hheeded, ?_⟩
  rcases h.stands.cases (by simp [ha.off]) with ⟨v, k, hcode, hw⟩ | ⟨-, hg⟩
  · obtain ⟨q, hq, hlast, hcaller, hnb⟩ := hw.sqe
    obtain rfl : q = e.sqe := Option.some.inj (hlast.symm.trans (hw.awaits_iff.mp haw))
    have hn := hw.counted.nb
    obtain ⟨hresult, hflags⟩ := e.context_result cls
    unfold Stands
    rw [hcode]
    refine .inr ⟨ha.context_nb hcls, ?_, ?_, ?_, ?_, ⟨e, ?_, hcaller, hresult, hflags⟩, hw.val⟩
    · rw [hhist, ha.cls_eq hcls]
      cases hm : isMultiple V.nb with
      | true =>
        rw [isMultiple_iff] at hm
        simp only [if_true, reduceCtorEq, if_false]
        omega
      | false =>
        rw [isMultiple_false_iff] at hm
        have haug := toNat_taskAugmente V.nb
        simp only [Bool.false_eq_true, if_false, if_true]
        omega
    · exact fun q hq => hw.counted.single q (View.mem_of_answered hq)
    · intro q hq hlt
      rw [hhist] at hlt ⊢
      cases hsince : (History.of V.log).since q with
      | true =>
        exact Nat.lt_succ_of_lt (hw.counted.old q (View.mem_of_answered hq) hsince (by omega))
      | false =>
        rw [hw.counted.new q (View.mem_of_answered hq) hsince]
        omega
    · rw [hhist]
      exact hw.returned
    · rw [lastCqe, List.filterMap_append]
      exact List.getLast?_concat
  · rw [hg.not_awaits] at haw
    cases haw

/-- **Every step of a task whose completions come in order.** -/
theorem Orderly.step (hA : ∀ t, (A t).singleShot = true) (hs : TaskStep (cancelled A) p V V')
    (hin : InOrder V'.log) (h : Orderly p V) : Orderly p V' := by
  have hstands := h.stands
  cases hs with
  | @locals cur x y L L' hon hb hl =>
    obtain ⟨t, rfl⟩ := cancelled_run rfl (fun v k hx => by rw [hx] at hl; cases hl)
      fun k hx => by rw [hx] at hl; cases hl
    simp only [Stands, hon, hb] at hstands
    refine ⟨h.owned, h.heeded, ?_⟩
    rcases cancelled_local (hA t) hl with ⟨u, rfl⟩ | ⟨v, val, ⟨k, rfl⟩ | ⟨k, rfl⟩, hval, hstarts⟩
    · simp only [Stands, hon]
      exact hstands.goto _ _
    · simp only [Stands, hon]
      exact .inl ⟨hstands.goto _ _, val, hval, hstarts⟩
    · simp only [Stands, hon]
      exact ⟨hstands.goto _ _, val, hval, hstarts⟩
  | @spawn cur x child k L L' taken moved hon hb hx hm =>
    obtain ⟨t, rfl⟩ := cancelled_run hx (fun _ _ h => by cases h) fun _ h => by cases h
    obtain ⟨c, u, rfl, rfl⟩ := cancelled_spawn hx
    simp only [Stands, hon, hb] at hstands
    refine ⟨h.owned, h.heeded, ?_⟩
    simp only [Stands, hon]
    exact hstands.goto _ _
  | @call cur cur' x L v k val val' out nb' new evs hon hb hx hv hc =>
    have hcode : V.block.code = some x := by rw [hb]
    obtain rfl : L = V.block.locals := by rw [hb]
    clear hb
    rcases cancelled_poll hx with ⟨k', rfl, rfl⟩ | ⟨y, rfl, rfl⟩
    · simp only [Stands, hon, hcode] at hstands
      rcases hstands with hbegins | hans
      · obtain ⟨op, q, hq, hop, hsub, rfl, rfl, rfl, rfl, rfl⟩ := hbegins.call hv hc
        exact ⟨(h.owned.snoc rfl).snoc rfl, (h.heeded.snoc rfl).snoc rfl,
          hbegins.awaiting hv hq hop hsub⟩
      · obtain ⟨val1, hval, hsub⟩ := hans.val
        obtain rfl : val1 = val := Option.some.inj (Option.some.inj (hval.symm.trans hv))
        obtain ⟨hres, rfl, rfl, rfl, rfl, rfl, hready⟩ := hc.of_submitted hsub
        obtain ⟨r, hr⟩ := hready V.block.locals.length
        rw [hr]
        simp only [List.append_nil, Multiset.coe_nil, Multiset.add_zero]
        refine ⟨h.owned.snoc ?_, h.heeded.snoc rfl, ?_⟩
        · obtain ⟨e, he, hcaller, hresult, hflags⟩ := hans.entry
          simp [Event.owned, he, hcaller, hresult, hflags]
        · simp only [Stands, Cancel.Point.after]
          exact hans.resolve
    · simp only [Stands, hon, hcode] at hstands
      obtain ⟨op, q, hq, hop, -, rfl, rfl, rfl, rfl, rfl⟩ := hstands.call hv hc
      refine ⟨(h.owned.snoc rfl).snoc rfl, (h.heeded.snoc rfl).snoc rfl, ?_⟩
      simp only [Stands]
      exact hstands.1.submit hq hop
  | suspend hon hb hx =>
    obtain ⟨v, k', rfl, rfl⟩ := cancelled_suspend hx
    simp only [Stands, hon, hb] at hstands
    refine ⟨h.owned, h.heeded, Awaiting.stands ?_ (fun _ h => by cases h) rfl⟩
    exact ⟨hstands.counted.congr rfl (fun _ hq => hq) rfl, hstands.returned, hstands.sqe,
      by simpa [hb] using hstands.val⟩
  | ret hon hb hx =>
    obtain ⟨t, rfl⟩ := cancelled_run hx (fun _ _ h => by cases h) fun _ h => by cases h
    simp only [Stands, hon, hb] at hstands
    have hhist : History.of (V.log ++ [.ready (V.rivals V.nb)]) =
        { History.of V.log with returned := true } := by simp [History.of_append, History.after]
    refine ⟨h.owned.snoc rfl, h.heeded.snoc rfl, Gone.stands ⟨?_, ?_⟩ (fun _ h => by cases h) rfl⟩
    · rw [hhist]
      exact hstands.counted.congr rfl (fun _ hq => hq) (by rw [hhist])
    · rw [hhist]
  | leave hover hlive =>
    refine Orderly.settle ⟨h.owned, h.heeded, ?_⟩ rfl
    rcases hstands.cases (by simp [hover]) with ⟨v, k, hcode, hw⟩ | ⟨hcode, hg⟩
    · refine Awaiting.stands ?_ (fun _ h => by cases h) hcode
      exact ⟨hw.counted.congr rfl (fun _ hq => hq) rfl, hw.returned, hw.sqe, hw.val⟩
    · exact Gone.stands ⟨hg.counted.congr rfl (fun _ hq => hq) rfl, hg.returned⟩
        (fun _ h => by cases h) hcode
  | @skip e others harr =>
    have hlog := View.settle_log { V with
      outs := V.answered e, log := V.log ++ [.cqe e .expired others] }
    exact (h.skip harr (Along.snoc_iff.mp (hin.of_prefix hlog)).2).settle harr.off
  | @accept e cls others harr hcls =>
    have hlog : V.log ++ [.cqe e cls others] <+: V.log ++
        [.cqe e cls others, .poll (e.context cls)] :=
      ⟨[.poll (e.context cls)], by simp⟩
    exact h.accept harr hcls (Along.snoc_iff.mp (hin.of_prefix hlog)).2

theorem Orderly.born (i : SlabIdx) (t : τ) (L : List (Option Value)) :
    Orderly p (.born i (Cancel.Point.run t) L) := by
  have hnone : Counted (.born i (Cancel.Point.run t) L) 0 := by
    refine ⟨rfl, fun q hq => ?_, fun q hq => ?_, fun q hq => ?_⟩ <;>
      exact absurd hq (Multiset.notMem_zero q)
  have howned : Owned p ([.spawned L] ++ [.poll (.initialPoll i)]) :=
    ((Owned.nil (p := p)).snoc rfl).snoc rfl
  have hheeded : Heeded ([] ++ [.spawned L] ++ [.poll (.initialPoll i)]) :=
    (Along.nil.snoc rfl).snoc rfl
  exact ⟨howned, hheeded, rfl, hnone, rfl⟩

/-- What is known of a task as long as its completions come in order. -/
theorem Orderly.isLocal (hA : ∀ t, (A t).singleShot = true) :
    Local (cancelled A) (fun _ => true) fun p V => InOrder V.log → Orderly p V where
  main p i x hx _ := by
    cases x with
    | run t => exact .born i t []
    | poll | suspend | start => cases hx
  spawn t i _ _ _ hx _ _ _ := by
    obtain ⟨u, rfl⟩ := cancelled_run hx (fun _ _ => nofun) fun _ => nofun
    obtain ⟨c, -, rfl, -⟩ := cancelled_spawn hx
    exact .born i c _
  step hs _ h hin := (h (hin.of_prefix hs.log)).step hA hs hin

end Steps

/-! ## Runs -/

/-- **Completions that come in order resolve their own operation**, in every state that tasks reach
which await single-shot operations, start others and drop them when they like. The next completion
is accepted if the task awaits it and `Expired` otherwise, exactly if it comes in order too. -/
theorem in_order_run {A : τ → Cancel.Instr τ} (hA : ∀ t, (A t).singleShot = true)
    {s : State (Cancel.Point τ)} (h : Reachable (cancelled A) s) {p : TaskPtr}
    {raw : RawTask (Cancel.Point τ)} (hraw : s.heap[p]? = some raw) (hin : InOrder raw.log) :
    Owned p raw.log ∧ Heeded raw.log ∧
    ∀ e cq, s.ring.cq = e :: cq → e.sqe.caller.task = p →
      ((evaluateSyscallNb raw.syscallNb e.sqe.nb = if (History.of raw.log).awaits e.sqe then
          (if isMultiple raw.syscallNb then .multiple else .normal) else .expired) ↔
        (History.of raw.log).inOrder e.sqe = true) := by
  obtain ⟨hrep, hinv⟩ := h.inv
  have ho := ((Orderly.isLocal hA).reachable h).raw hraw hin
  refine ⟨ho.owned, ho.heeded, fun e cq he hp => ?_⟩
  have hmem :=
    mem_outstanding_of_inflight (hinv.ring.head_inflight (show s.core.cq = e :: cq from he))
  refine ho.stands.inOrder_iff rfl ?_
  exact Multiset.mem_coe.mpr (List.mem_filter.mpr ⟨hmem, decide_eq_true hp⟩)

/-- A block that drops a `read` after its first poll and then accepts a connection. -/
def readDropped : Nat → Cancel.Instr Nat
  | 0 => .start (.read 5) fun _ => 1
  | 1 => .drop 0 2
  | 2 => .await (.accept 4) fun _ => 3
  | _ => .ret

instance (log : List Event) : Decidable (InOrder log) :=
  inferInstanceAs (Decidable (Along (fun before ev => ev.inOrder before = true) log))

instance (log : List Event) : Decidable (Heeded log) :=
  inferInstanceAs (Decidable (Along (fun before ev => ev.heeded before = true) log))

theorem dropped_read_resolves_accept :
    ∃ s, Reachable (cancelled readDropped) s ∧ ∃ raw, s.heap[0]? = some raw ∧ ¬ Heeded raw.log ∧
      ¬ Owned 0 raw.log := by
  have hrun : (freshScript (cancelled readDropped) (fun _ _ => true)
      [.spawn 9 (.run 0), .submit, .consume, .consume, .complete 0 4 1, .handle 9]).any (fun s =>
      s.heap[0]?.any fun raw => !decide (Heeded raw.log) && !decide (Owned 0 raw.log)) = true := by
    decide +kernel
  obtain ⟨s, hs, hc⟩ := (Option.any_eq_true _ _).mp hrun
  obtain ⟨raw, hraw, hc⟩ := (Option.any_eq_true _ _).mp hc
  rw [Bool.and_eq_true] at hc
  exact ⟨s, .of_script (fun _ _ _ => trivial) hs, raw, hraw, by simpa using hc.1, by
    simpa using hc.2⟩

theorem in_order_run_stale :
    ∃ s, freshScript (cancelled readDropped) (fun _ _ => true)
        [.spawn 9 (.run 0), .submit, .consume, .consume, .complete 1 7 0, .handle 9,
          .complete 0 0 0, .handle 9] = some s ∧
      ∃ raw, s.heap[0]? = some raw ∧ InOrder raw.log ∧
        (∃ e others, .cqe e .expired others ∈ raw.log) ∧ Owned 0 raw.log ∧ Heeded raw.log := by
  have hrun : (freshScript (cancelled readDropped) (fun _ _ => true)
      [.spawn 9 (.run 0), .submit, .consume, .consume, .complete 1 7 0, .handle 9, .complete 0 0 0,
        .handle 9]).any (fun s => s.heap[0]?.any fun raw => decide (InOrder raw.log) &&
          raw.log.any Event.isExpired) = true := by
    decide +kernel
  obtain ⟨s, hs, hc⟩ := (Option.any_eq_true _ _).mp hrun
  obtain ⟨raw, hraw, hc⟩ := (Option.any_eq_true _ _).mp hc
  rw [Bool.and_eq_true, decide_eq_true_eq, List.any_eq_true] at hc
  obtain ⟨hin, ev, hev, hexp⟩ := hc
  have hreach : Reachable (cancelled readDropped) s := .of_script (fun _ _ _ => trivial) hs
  have hsingle : ∀ t, (readDropped t).singleShot = true := by
    intro t
    unfold readDropped
    split <;> rfl
  obtain ⟨howned, hheeded, -⟩ := in_order_run hsingle hreach hraw hin
  obtain ⟨e, others, rfl⟩ := Event.exists_of_isExpired hexp
  exact ⟨s, hs, raw, hraw, hin, ⟨e, others, hev⟩, howned, hheeded⟩

end Onlyio
