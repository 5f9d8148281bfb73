import Onlyio.Runs.StreamEnd
import Onlyio.Machine.Within
import Onlyio.Machine.Leaves
import Mathlib.Data.List.TakeWhile

/-!
# Loops over a multishot stream

`while let Some(x) = stream.next().await { .. }`, with a body that awaits nothing. A stream that
runs takes its item from `CURRENT_TASK`, and nothing marks it as taken: a second `next()` in the
same poll yields the same completion again. The loop suspends nowhere, so a completion that
announces more keeps the poll in the loop for ever, and no later one is handled.

* `Streams.loop_more`: no fuel is enough.
* **`stream_loop_delivers_iff`**: the loop delivers a sequence of completions exactly when the first
  one is an error or the last.
* `wp_pollFn_spins`: a block that stands in such a loop, in any run, with any body.
-/

namespace Onlyio

open Lib

variable {σ S I : Type}

/-- One poll of a task at `while let Some(x) = stream.next().await { body(x) }`: what the loop
yields, whether it is over, and the stream. -/
def nextLoop (next : S → Rt σ (Poll (Option I) × S)) (body : I → Rt σ Unit) :
    Nat → S → Rt σ (List I × Bool × S)
  | 0, _ => throw .fuel
  | n + 1, st => do
    match ← next st with
    | (.pending, st) => return ([], false, st)
    | (.ready none, st) => return ([], true, st)
    | (.ready (some x), st) => do
      body x
      let (xs, ended, st) ← nextLoop next body n st
      return (x :: xs, ended, st)

/-- Poll the task once in each of these states, until the loop is over. -/
def loopEach (next : S → Rt σ (Poll (Option I) × S)) (body : I → Rt σ Unit) (fuel : Nat) :
    List (State σ) → S → Except Fault (List I × Bool)
  | [], _ => .ok ([], false)
  | s :: polls, st =>
    match nextLoop next body fuel st s with
    | .error e _ => .error e
    | .ok (xs, true, _) _ => .ok (xs, true)
    | .ok (xs, false, st) _ =>
      match loopEach next body fuel polls st with
      | .error e => .error e
      | .ok (ys, ended) => .ok (xs ++ ys, ended)

/-- The completions of one multishot operation: all but the last announce that there will be
more. -/
def Multishot (cqes : List TaskInfo) : Prop :=
  ∀ i c, cqes[i]? = some c → i + 1 < cqes.length → more c.flags = true

/-- The completions that a loop has to deliver: those before the first error. -/
def delivered (cqes : List TaskInfo) : List TaskInfo :=
  cqes.takeWhile fun c => !decide (c.result < 0)

/-- `None` follows an error, and the completion without `F_MORE`. -/
def closes (cqes : List TaskInfo) : Bool := cqes.any fun c => decide (c.result < 0) || !more c.flags

/-- The first completion is an error or the last. -/
def EndsAtOnce : List TaskInfo → Prop
  | [] => True
  | c :: _ => c.result < 0 ∨ more c.flags = false

/-- A loop body, in the states in which the completions are handled: it returns, and leaves
`CURRENT_TASK` and the pool as they were. A `spawn` restores the context. -/
structure LoopBody (body : I → Rt σ Unit) (polls : List (State σ)) : Prop where
  keeps : ∀ x s s', body x s = .ok () s' →
    s'.currentTask = s.currentTask ∧ s'.buffer.readCount = s.buffer.readCount
  returns : ∀ x, ∀ s ∈ polls, ∃ s', body x s = .ok () s'

/-! ## A stream that runs -/

/-- What `poll_next` of a stream does once it has submitted, in the states `ok`. -/
structure Streams (next : S → Rt σ (Poll (Option I) × S)) (running done : S) (ok : State σ → Prop)
    (item : State σ → I) : Prop where
  item : ∀ s, ok s → ¬ s.currentTask.result < 0 → next running s =
    .ok (.ready (some (item s)), if more s.currentTask.flags then running else done) s
  error : ∀ s, s.currentTask.result < 0 → next running s = .ok (.ready none, done) s
  ended : ∀ s, next done s = .ok (.ready none, done) s

namespace Streams

variable {next : S → Rt σ (Poll (Option I) × S)} {running done : S} {ok : State σ → Prop}
  {item : State σ → I} {body : I → Rt σ Unit} {s : State σ} {polls : List (State σ)}

/-- No fuel is enough for a completion that announces more: the loop yields it again and again. -/
theorem loop_more (h : Streams next running done ok item)
    (hbody : ∀ x s s', ok s → body x s = .ok () s' → s'.currentTask = s.currentTask ∧ ok s')
    (hok : ok s) (hres : ¬ s.currentTask.result < 0)
    (hmore : more s.currentTask.flags = true) (fuel : Nat) :
    ∃ e s', nextLoop next body fuel running s = .error e s' := by
  induction fuel generalizing s with
  | zero => exact ⟨.fuel, s, rfl⟩
  | succ n ih =>
    have hnext := h.item s hok hres
    rw [if_pos hmore] at hnext
    simp only [nextLoop, bind, EStateM.bind, hnext]
    cases hb : body (item s) s with
    | error e s' => exact ⟨e, s', rfl⟩
    | ok _ s1 =>
      obtain ⟨hctx, hok1⟩ := hbody _ _ _ hok hb
      -- the second `next()` meets the same context
      obtain ⟨e, s', hloop⟩ := ih hok1 (hctx ▸ hres) (hctx ▸ hmore)
      exact ⟨e, s', by simp only [hloop]⟩

/-- An error ends the loop. -/
theorem loop_error (h : Streams next running done ok item)
    (hres : s.currentTask.result < 0) (n : Nat) :
    nextLoop next body (n + 1) running s = .ok ([], true, done) s := by
  simp only [nextLoop, bind, EStateM.bind, h.error s hres, pure, EStateM.pure]

/-- So does the last completion, after its item. -/
theorem loop_last (h : Streams next running done ok item) (hok : ok s)
    (hres : ¬ s.currentTask.result < 0) (hmore : more s.currentTask.flags = false) {s' : State σ}
    (hb : body (item s) s = .ok () s') (n : Nat) :
    nextLoop next body (n + 2) running s = .ok ([item s], true, done) s' := by
  have hnext := h.item s hok hres
  rw [hmore, if_neg Bool.false_ne_true] at hnext
  simp only [nextLoop, bind, EStateM.bind, hnext, hb, h.ended, pure, EStateM.pure]

/-- A poll that suspends before the stream runs. -/
theorem loopEach_init {init : S} {s0 s1 : State σ}
    (h0 : next init s0 = .ok (.pending, running) s1) (n : Nat) :
    loopEach next body (n + 1) (s0 :: polls) init = loopEach next body (n + 1) polls running := by
  simp only [loopEach, nextLoop, bind, EStateM.bind, h0, pure, EStateM.pure]
  cases loopEach next body (n + 1) polls running with
  | error e => rfl
  | ok r => rfl

/-- Where the polls of the completions return, the first one ends the loop. -/
theorem ends_of_loopEach (h : Streams next running done ok item)
    (hbody : ∀ x s s', ok s → body x s = .ok () s' → s'.currentTask = s.currentTask ∧ ok s')
    (hok : ∀ s ∈ polls, ok s) {fuel : Nat} {r : List I × Bool}
    (hloop : loopEach next body fuel polls running = .ok r) :
    EndsAtOnce (polls.map State.currentTask) := by
  cases polls with
  | nil => exact trivial
  | cons s polls =>
    by_contra hne
    simp only [List.map_cons, EndsAtOnce, not_or, Bool.not_eq_false] at hne
    obtain ⟨e, s', herr⟩ := h.loop_more hbody (hok s List.mem_cons_self) hne.1 hne.2 fuel
    simp only [loopEach, herr] at hloop
    cases hloop

/-- The polls of the completions, when the first one ends the loop. -/
theorem loopEach_of_ends (h : Streams next running done ok item)
    (hret : ∀ x, ∀ s ∈ polls, ∃ s', body x s = .ok () s') (hok : ∀ s ∈ polls, ok s)
    (hcqes : Multishot (polls.map State.currentTask))
    (hends : EndsAtOnce (polls.map State.currentTask)) (n : Nat) :
    loopEach next body (n + 2) polls running =
      .ok ((polls.takeWhile fun s => !decide (s.currentTask.result < 0)).map item,
        closes (polls.map State.currentTask)) := by
  cases polls with
  | nil => rfl
  | cons s polls =>
    simp only [List.map_cons, closes, List.any_cons]
    by_cases hres : s.currentTask.result < 0
    · simp only [loopEach, h.loop_error hres (n + 1), List.takeWhile_cons, hres,
        decide_true, Bool.not_true, Bool.false_eq_true, if_false, List.map_nil, Bool.true_or]
    · have hmore : more s.currentTask.flags = false := hends.resolve_left hres
      obtain ⟨s', hb⟩ := hret (item s) s List.mem_cons_self
      -- nothing follows a completion without `F_MORE`
      obtain rfl : polls = [] := by
        cases polls with
        | nil => rfl
        | cons t polls =>
          have hm := hcqes 0 _ rfl (by simp)
          rw [hmore] at hm
          cases hm
      simp only [loopEach, h.loop_last (hok s List.mem_cons_self) hres hmore hb n,
        List.takeWhile_cons, hres, hmore, decide_false, Bool.not_false, if_true, List.takeWhile_nil,
        List.map_cons, List.map_nil, Bool.or_true, Bool.true_or]

end Streams

/-! ## The two streams -/

variable {polls : List (State σ)} {s0 : State σ}

theorem acceptStream_streams (me : Caller) (fd : Int32) :
    Streams (σ := σ) (AcceptStream.pollNext me) ⟨fd, .running⟩ ⟨fd, .done⟩ (fun _ => True)
      (fun s => s.currentTask.result.toUInt32) where
  item s _ hres := by
    simp only [AcceptStream.pollNext, currentResult, currentCqeFlags, bind, EStateM.bind, get_run,
      pure, EStateM.pure, if_neg hres]
  error s hres := by
    simp only [AcceptStream.pollNext, currentResult, bind, EStateM.bind, get_run, pure,
      EStateM.pure, if_pos hres]
  ended _ := rfl

/-- A result that is no error comes with a buffer of the pool. -/
def State.Attached (n : UInt32) (s : State σ) : Prop :=
  s.buffer.readCount = n ∧ (¬ s.currentTask.result < 0 →
    ∃ id, bufferSelect s.currentTask.flags = some id ∧ id.toUInt32 < n)

theorem readStream_streams (me : Caller) (fd n : UInt32) :
    Streams (σ := σ) (ReadStream.pollNext me) ⟨fd, .running⟩ ⟨fd, .done⟩ (State.Attached n)
      (fun s => checkedOut s fd ((bufferSelect s.currentTask.flags).getD 0)) where
  item s hs hres := by
    obtain ⟨hcount, hattached⟩ := hs
    obtain ⟨id, hid, hlt⟩ := hattached hres
    rw [pollNext_item me fd hres hid (hcount ▸ hlt), hid]
    split <;> rfl
  error s hres := pollNext_error hres
  ended _ := rfl

/-- The first poll of an accept stream submits. -/
theorem State.Polling.acceptNext_init (hs : s0.Polling)
    (hroom : ∀ p raw, s0.tasks.index s0.currentTask.tag.taskIdx = .ok p → s0.heap[p]? = some raw →
      raw.refCounter.toNat + 1 < 2 ^ 16) (me : Caller) (fd : Int32) :
    ∃ s', AcceptStream.pollNext me ⟨fd, .init⟩ s0 = .ok (.pending, ⟨fd, .running⟩) s' := by
  obtain ⟨s', hok⟩ := hs.sendMultishot_ok hroom me (.acceptMulti fd)
  refine ⟨s', ?_⟩
  simp only [AcceptStream.pollNext, sendAcceptMultishot, bind, EStateM.bind, hok,
    pure, EStateM.pure]

theorem delivered_map (polls : List (State σ)) : delivered (polls.map State.currentTask) =
    (polls.takeWhile fun s => !decide (s.currentTask.result < 0)).map State.currentTask := by
  rw [delivered, List.takeWhile_map]
  rfl

/-- **What a loop over a stream delivers.** The first poll submits. Whatever states the completions
are handled in, and whatever the body does, the loop yields the results before the first error, one
for each completion, followed by `None` after an error or after the last completion, and each of its
polls ends, if and only if the first completion is an error or the last. -/
theorem stream_loop_delivers_iff (me : Caller) (hs : s0.Polling)
    (hroom : ∀ p raw, s0.tasks.index s0.currentTask.tag.taskIdx = .ok p → s0.heap[p]? = some raw →
      raw.refCounter.toNat + 1 < 2 ^ 16) (hcqes : Multishot (polls.map State.currentTask)) :
    (∀ (fd : Int32) (body : UInt32 → Rt σ Unit), LoopBody body polls →
      ((∃ fuel, loopEach (AcceptStream.pollNext me) body fuel (s0 :: polls) ⟨fd, .init⟩ =
        .ok ((delivered (polls.map State.currentTask)).map fun c => c.result.toUInt32,
          closes (polls.map State.currentTask))) ↔ EndsAtOnce (polls.map State.currentTask))) ∧
    (∀ (fd n : UInt32) (body : RwBuffer → Rt σ Unit), LoopBody body polls →
      (∀ s ∈ polls, s.Attached n) →
        ((∃ fuel xs, loopEach (ReadStream.pollNext me) body fuel (s0 :: polls) ⟨fd, .init⟩ =
          .ok (xs, closes (polls.map State.currentTask)) ∧
        xs.map (fun b => (some b.bufIdx, b.fdIdx, b.bytes)) =
          (delivered (polls.map State.currentTask)).map fun c =>
            ((bufferSelect c.flags).map UInt16.toUInt32, fd, c.result.toUInt32)) ↔
        EndsAtOnce (polls.map State.currentTask))) := by
  constructor
  · intro fd body hbody
    have hstream := acceptStream_streams (σ := σ) me fd
    obtain ⟨s1, h0⟩ := hs.acceptNext_init hroom me fd
    constructor
    · rintro ⟨fuel, hloop⟩
      cases fuel with
      | zero => cases hloop
      | succ n =>
        rw [Streams.loopEach_init h0] at hloop
        exact hstream.ends_of_loopEach (fun x s s' _ hb => ⟨(hbody.keeps x s s' hb).1, trivial⟩)
          (fun _ _ => trivial) hloop
    · intro hends
      refine ⟨2, ?_⟩
      rw [Streams.loopEach_init h0,
        hstream.loopEach_of_ends hbody.returns (fun _ _ => trivial) hcqes hends 0,
        delivered_map, List.map_map]
      rfl
  · intro fd n body hbody hattached
    have hstream := readStream_streams (σ := σ) me fd n
    obtain ⟨s1, h0⟩ := hs.pollNext_init hroom me fd
    constructor
    · rintro ⟨fuel, xs, hloop, -⟩
      cases fuel with
      | zero => cases hloop
      | succ m =>
        rw [Streams.loopEach_init h0] at hloop
        refine hstream.ends_of_loopEach (fun x s s' hok hb => ?_) hattached hloop
        obtain ⟨hctx, hcount⟩ := hbody.keeps x s s' hb
        exact ⟨hctx, hcount.trans hok.1, hctx ▸ hok.2⟩
    · intro hends
      refine ⟨2, _, (Streams.loopEach_init h0 1).trans
        (hstream.loopEach_of_ends hbody.returns hattached hcqes hends 0), ?_⟩
      rw [delivered_map, List.map_map, List.map_map]
      refine List.map_congr_left fun s hmem => ?_
      -- each item that is yielded comes with its buffer
      have hres : ¬ s.currentTask.result < 0 := by
        have hp := List.mem_takeWhile_imp hmem
        simpa using hp
      obtain ⟨id, hid, -⟩ := (hattached s ((List.takeWhile_sublist _).subset hmem)).2 hres
      simp only [Function.comp_apply, checkedOut, hid, Option.getD_some, Option.map_some]

/-- One completion, which is the last: connection `7`, and four bytes in buffer `3`. -/
theorem stream_loop_delivers_last :
    ∃ s, accepted = some s ∧
      (∃ fuel, loopEach (AcceptStream.pollNext ⟨0, 0⟩) (fun _ => pure ()) fuel
        [s, s.received 7 0] ⟨3, .init⟩ = .ok ([7], true)) ∧
      ∃ fuel xs, loopEach (ReadStream.pollNext ⟨0, 0⟩) (fun _ => pure ()) fuel
        [s, s.received 4 0x30001] ⟨5, .init⟩ =
          .ok (xs, true) ∧ xs.map (fun b => (some b.bufIdx, b.fdIdx, b.bytes)) =
          [(some 3, 5, 4)] := by
  obtain ⟨s, hs, hpolling, hcount, hroom⟩ := exists_accepted
  have hsingle : ∀ t : State (Await.Point Nat), Multishot ([t].map State.currentTask) := by
    intro t i c _ hlt
    simp at hlt
  have hbody : ∀ (I : Type) (polls : List (State (Await.Point Nat))),
      LoopBody (fun _ : I => (pure () : Rt (Await.Point Nat) Unit)) polls := by
    refine fun I polls => ⟨fun _ t t' h => ?_, fun _ t _ => ⟨t, rfl⟩⟩
    obtain rfl : t = t' := by cases h; rfl
    exact ⟨rfl, rfl⟩
  have hid : bufferSelect 0x30001 = some 3 := by decide
  have hattached : (s.received 4 0x30001).Attached 512 := ⟨hcount, fun _ => ⟨3, hid, by decide⟩⟩
  have hpure : ∀ (result : Int32) (flags : UInt32), ¬ result < 0 → more flags = false →
      delivered ([s.received result flags].map State.currentTask) =
      [(s.received result flags).currentTask] ∧
        closes ([s.received result flags].map State.currentTask) = true := by
    intro result flags hres hmore
    simp [delivered, closes, State.received, hres, hmore]
  obtain ⟨hd7, hc7⟩ := hpure 7 0 (by decide) (by decide)
  obtain ⟨hd4, hc4⟩ := hpure 4 0x30001 (by decide) (by decide)
  have h7 : more 0 = false := by decide
  have h4 : more 0x30001 = false := by decide
  have hacc := ((stream_loop_delivers_iff ⟨0, 0⟩ hpolling hroom (hsingle (s.received 7 0))).1
    3 _ (hbody _ _)).mpr (.inr h7)
  have hread := ((stream_loop_delivers_iff ⟨0, 0⟩ hpolling hroom (hsingle (s.received 4 0x30001))).2
    5 512 _ (hbody _ _) (by simpa using hattached)).mpr (.inr h4)
  rw [hd7, hc7] at hacc
  rw [hd4, hc4, List.map_cons, show bufferSelect (s.received 4 0x30001).currentTask.flags =
    some 3 from hid] at hread
  exact ⟨s, hs, hacc, hread⟩

/-! ## A block in the loop -/

/-- The instruction polls only the stream in local `v`, keeps it, and goes on in `R` unless the
stream ends. -/
def Instr.stays (v : Var) (R : σ → Prop) : Instr σ → Prop
  | .ret | .suspend _ => False
  | .make _ k | .makeStream _ k | .allocWrite k | .cloneWrite _ k => ∀ u, R (k u)
  | .poll w k => w = v ∧ ∀ r, r ≠ .none → R (k (some r))
  | .drop w k => w ≠ v ∧ R k
  | .spawn _ moved k => (∀ m ∈ moved, m.2 ≠ v) ∧ R k

/-- A stream that has submitted and is not over. -/
inductive Value.RunningStream : Value → Prop where
  | accept (fd : Int32) : RunningStream (.acceptStream ⟨fd, .running⟩)
  | read (fd : UInt32) : RunningStream (.readStream ⟨fd, .running⟩)

/-- The block stands in the loop `R` over the stream in local `v`, while `CURRENT_TASK` holds a
completion that announces more. -/
structure Spinning (R : σ → Prop) (v : Var) (info : TaskInfo) (b : AsyncBlock σ) : Prop where
  item : ¬ info.result < 0
  more : more info.flags = true
  point : ∃ x, b.code = some x ∧ R x
  stream : ∃ val, b.locals[v]? = some (some val) ∧ val.RunningStream

section Spin

variable {code : Code σ} {p : TaskPtr} {v : Var} {R : σ → Prop} {info : TaskInfo}

/-- The instructions on the locals. -/
theorem LocalStep.keeps_stream {L L' : List (Option Value)} {i : Instr σ} {y : σ} {val : Value}
    (h : LocalStep L i y L') (hi : i.stays v R) (hv : L[v]? = some (some val))
    (hval : val.RunningStream) : R y ∧ L'[v]? = some (some val) := by
  have hlt : v < L.length := (List.getElem?_eq_some_iff.mp hv).1
  cases h with
  | make hm =>
    refine ⟨hi _, ?_⟩
    cases hm with
    | accept | read | write | connect => rwa [List.getElem?_append_left hlt]
    | commit buf len b hb | writeMultiple buf fds len b hb =>
      have hne : buf ≠ v := by
        rintro rfl
        rw [hb] at hv
        cases hv
        cases hval
      rwa [List.getElem?_append_left (by simpa using hlt), List.getElem?_set_ne hne]
  | makeStream | allocWrite | cloneWrite => exact ⟨hi _, by rwa [List.getElem?_append_left hlt]⟩
  | drop w k => exact ⟨hi.2, by rwa [List.getElem?_set_ne hi.1]⟩

theorem Moves.keeps_other {L L' taken : List (Option Value)} {moved : List (Kind × Var)}
    (h : Moves L moved taken L') (hm : ∀ m ∈ moved, m.2 ≠ v) : L'[v]? = L[v]? := by
  induction h with
  | nil L => rfl
  | cons val hw hk _ ih =>
    rw [ih fun m hmem => hm m (List.mem_cons_of_mem _ hmem),
      List.getElem?_set_ne (hm _ List.mem_cons_self)]

/-- The stream yields the completion once more. -/
theorem Polled.again {me : Caller} {c c' : Core} {val val' : Value} {out : Out}
    (h : Polled me c val out val' c') (hval : val.RunningStream) (hres : ¬ c.current.result < 0)
    (hmore : more c.current.flags = true) (k : Var) :
    val' = val ∧ c' = c ∧ ∃ r, out.resp k = some r ∧ r ≠ .none := by
  cases hval with
  | accept fd =>
    cases h with
    | send h | opens h | commit h => cases h
    | resolve h =>
      cases h with
      | accepting _ _ =>
        refine ⟨?_, rfl, _, rfl, nofun⟩
        simp [StreamState.next, hmore]
      | acceptEnd _ hneg => exact absurd hneg hres
  | read fd =>
    cases h with
    | send h | opens h | commit h => cases h
    | resolve h =>
      cases h with
      | reading _ b =>
        refine ⟨?_, rfl, _, rfl, nofun⟩
        simp [StreamState.next, hmore]
      | readEnd _ hneg => exact absurd hneg hres

/-- One instruction: the block stays in the loop. -/
theorem Step.spins {c c' : Core} {fut fut' : TaskPtr → AsyncBlock σ} {role : Role}
    {r : Option (Poll Unit)} {st : List Frame} (hR : ∀ x, R x → (code x).stays v R)
    (h : Step code ⟨c, fut, ⟨p, role, none⟩ :: st⟩ ⟨c', fut', ⟨p, role, r⟩ :: st⟩)
    (hs : Spinning R v c.current (fut p)) : r = none ∧ Spinning R v c'.current (fut' p) := by
  obtain ⟨hres, hmore, ⟨x, hx, hin⟩, val, hv, hval⟩ := hs
  have hstay := hR x hin
  cases h with
  | locals hf h =>
    rw [hf] at hx hv
    obtain rfl := Option.some.inj hx
    obtain ⟨hy, hv'⟩ := h.keeps_stream hstay hv hval
    refine ⟨rfl, hres, hmore, ⟨_, ?_, hy⟩, val, ?_, hval⟩ <;> rw [Function.update_self]
    exact hv'
  | @poll _ _ _ _ _ _ _ L w k val₁ val' out hf hc hw h =>
    rw [hf] at hx hv
    obtain rfl := Option.some.inj hx
    rw [hc] at hstay
    obtain ⟨rfl, hk⟩ := hstay
    obtain rfl := Option.some.inj (Option.some.inj (hw.symm.trans hv))
    obtain ⟨rfl, rfl, resp, hresp, hne⟩ := h.again hval hres hmore L.length
    refine ⟨rfl, hres, hmore, ⟨_, by rw [Function.update_self], ?_⟩, _, ?_, hval⟩
    · rw [hresp]
      exact hk resp hne
    · rw [Function.update_self]
      have hlt : w < L.length := (List.getElem?_eq_some_iff.mp hv).1
      have hset : (L.set w (some val'))[w]? = some (some val') := List.getElem?_set_self hlt
      cases out with
      | pending | ready => exact hset
      | buffer b =>
        rw [Out.bind, List.getElem?_append_left (by simpa using hlt)]
        exact hset
  | suspend hf hc =>
    rw [hf] at hx
    obtain rfl := Option.some.inj hx
    rw [hc] at hstay
    exact hstay.elim
  | ret hf hc =>
    rw [hf] at hx
    obtain rfl := Option.some.inj hx
    rw [hc] at hstay
    exact hstay.elim

/-- **A poll in the loop does not return**, whatever the body is and whatever it spawns. -/
theorem wp_pollFn_spins (hR : ∀ x, R x → (code x).stays v R) (n : Nat) :
    ∀ (role : Role) (st : List Frame) (s : State σ), Inv s.core (⟨p, role, none⟩ :: st) → s.Rep →
      Spinning R v s.core.current (s.fut p) →
      wp (pollFn code n p) (fun _ _ => False) (fun _ _ => True) s := by
  induction n with
  | zero => exact fun _ _ _ _ _ _ => trivial
  | succ n ih =>
    intro role st s hinv hr hs
    simp only [pollFn, wp_bind]
    refine wp_mono (wp_stepCode role st (hinv.running hr))
      (fun ctl s1 h1 => ?_) fun _ _ _ => trivial
    cases ctl with
    | fin r => cases (Step.spins hR h1.2 hs).1
    | again => exact ih role st s1 (Inv.step h1.2 hinv) h1.1 (Step.spins hR h1.2 hs).2
    | spawn b =>
      obtain ⟨x, L, child, moved, k, taken, L', hf, hx, hm, rfl, hrw⟩ := id h1
      have hrep1 := hrw.rep hr
      have hsp := wp_and
        (wp_spawn (wp_pollFn code n) _ (⟨p, role, none⟩ :: st) hinv hrw.core.symm hrep1
          (Spawning.enters h1))
        (wp_spawn_leaves (wp_pollFn_leaves code n) _ (⟨p, role, none⟩ :: st) hinv hrep1
          (Spawning.enters h1))
      simp only [wp_bind]
      refine wp_mono hsp (fun _ s2 hpost => ?_) fun _ _ _ => trivial
      obtain ⟨⟨hrep2, hs2⟩, h2, hctx⟩ := hpost
      refine ih role st s2 (Inv.steps hs2 hinv) hrep2 ?_
      -- the block and its context are as before the child
      obtain ⟨hres, hmore, ⟨y, hy, hin⟩, val, hv, hval⟩ := hs
      rw [hf] at hy hv
      obtain rfl := Option.some.inj hy
      have hstay := hR _ hin
      rw [hx] at hstay
      have hplt : p < s1.core.spawned := hrw.core ▸ hinv.slab.lt_spawned hinv.live_top
      have hfut : s2.fut p = ⟨some k, L'⟩ := by
        have := h2.fut p hplt (Nat.ne_of_lt hplt)
        exact this.trans hrw.fut_self
      rw [hctx, hrw.core, hfut]
      exact ⟨hres, hmore, ⟨k, rfl, hstay.2⟩, val, by rw [hm.keeps_other hstay.1]; exact hv, hval⟩

/-- The completion that brings a block into the loop is never handled to the end. -/
theorem handle_spins {s s1 : State σ} {e : Cqe} (hr : Reachable code s)
    (h : handlePolled s = .ok (e, p, true) s1) (hR : ∀ x, R x → (code x).stays v R)
    (hs : Spinning R v s1.currentTask (s1.fut p)) (fuel : Nat) (s' : State σ) :
    act code (.handle fuel) s ≠ .ok () s' := by
  intro hact
  have hcalls : CallsAt (fun f => do handleCqeEntry f (← takeCqe)) s p s1 :=
    .of_first handle_eq h rfl
  obtain ⟨role, st, hm⟩ := (Within.handle hr hcalls).midway rfl
  have hspin := wp_pollFn_spins hR fuel role st s1 hm.inv hm.rep hs
  have hret : wp (act code (.handle fuel)) (fun _ _ => False) (fun _ _ => True) s := by
    simp only [act, handle_eq, wp_bind]
    rw [wp_def]
    refine ⟨fun r t hok => ?_, fun _ _ _ => trivial⟩
    obtain ⟨rfl, rfl⟩ : r = (e, p, true) ∧ t = s1 := by
      rw [h] at hok
      cases hok
      exact ⟨rfl, rfl⟩
    simp only [if_true, wp_bind]
    exact wp_mono hspin (fun _ _ hf => hf.elim) fun _ _ _ => trivial
  exact wp_ok hret hact

end Spin

/-! ## A server -/

/-- `while let Some(_) = stream.next().await { spawn(async {}) }` on the listener `3`. -/
def serve : Code Nat where
  instr
    | 0 => .makeStream (.acceptStream 3) fun _ => 1
    | 1 => .poll 0 fun
      | none => 2
      | some .none => 4
      | some _ => 3
    | 2 => .suspend 1
    | 3 => .spawn 4 [] 1
    | _ => .ret
  entry _ := true

/-- The points of its loop. -/
theorem serve_stays (x : Nat) (hx : x = 1 ∨ x = 3) : (serve x).stays 0 fun y => y = 1 ∨ y = 3 := by
  rcases hx with rfl | rfl
  · refine ⟨rfl, fun r hr => ?_⟩
    cases r with
    | none => exact absurd rfl hr
    | _ => exact .inr rfl
  · exact ⟨(nofun), .inl rfl⟩

/-- The server waits for its first connection, and the completion has arrived. -/
def oneConnection : Option (State Nat) :=
  freshScript serve (fun _ _ => true) [.spawn 9 0, .submit, .consume, .complete 0 7 2]

/-- Whether the handling of the oldest completion polls task `0` with the given context, in the
loop. -/
def spinsOn (result : Int32) (flags : UInt32) (s : State Nat) : Bool :=
  match handlePolled s with
  | .ok (_, p, polled) s1 => p == 0 && polled && s1.currentTask.result == result &&
  s1.currentTask.flags == flags &&
    s1.heap[0]?.any fun raw => raw.future.code == some 1 &&
      raw.future.locals == [some (.acceptStream ⟨3, .running⟩)]
  | .error _ _ => false

/-- One connection, with more to come: `handle_cqe_entry` does not return, whatever the fuel. -/
theorem accept_loop_never_returns :
    ∃ s, oneConnection = some s ∧
    (s.ring.cq.map fun c => (c.sqe.op, c.result, c.flags)) = [(.acceptMulti 3, 7, 2)] ∧
      ∀ fuel s', act serve (.handle fuel) s ≠ .ok () s' := by
  have hany : oneConnection.any (fun s => spinsOn 7 2 s &&
      (s.ring.cq.map fun c => (c.sqe.op, c.result, c.flags)) == [(.acceptMulti 3, 7, 2)]) =
        true := by
    decide +kernel
  obtain ⟨s, hs, hok⟩ := (Option.any_eq_true _ _).mp hany
  rw [Bool.and_eq_true, beq_iff_eq] at hok
  obtain ⟨hspin, hcq⟩ := hok
  refine ⟨s, hs, hcq, fun fuel s' => ?_⟩
  have hr : Reachable serve s := RunWith.of_script (fun _ _ _ => trivial) hs
  unfold spinsOn at hspin
  split at hspin
  · rename_i e p polled s1 hpolled
    simp only [Bool.and_eq_true, beq_iff_eq] at hspin
    obtain ⟨⟨⟨⟨rfl, rfl⟩, hres⟩, hflags⟩, hraw⟩ := hspin
    obtain ⟨raw, hraw, hfut⟩ := (Option.any_eq_true _ _).mp hraw
    simp only [Bool.and_eq_true, beq_iff_eq] at hfut
    have hfut0 : s1.fut 0 = raw.future := State.fut_eq hraw
    refine handle_spins hr hpolled serve_stays ⟨?_, ?_, ⟨1, ?_, .inl rfl⟩, _, ?_, .accept 3⟩ fuel s'
    · rw [hres]
      decide
    · rw [hflags]
      rfl
    · rw [hfut0]
      exact hfut.1
    · rw [hfut0, hfut.2]
      rfl
  · cases hspin

end Onlyio
