import Onlyio.Lib.Replay
import Onlyio.Machine.Local
import Mathlib.Data.Set.Basic

/-!
# A task alone

What a task can tell of a run: the contexts of its polls, the operations it submits, the responses
its code gets. An `Isolate` runs the program of one task, without a slab, a ring or other tasks: it
goes on by itself until its poll is over, and takes the answers to its own submissions one after
another.

Nothing that the other tasks decide enters: not the slab index, not the identity of an SQE, which is
named by its rank among the submissions of the task, and not the address where the buffers lie. The
values are kept `bare` of these. A program is followed inside a region `R` of its points that uses
no write buffer.

* `Called.turn`: polling a value, from the side of the task, is a function of the value and the
  context.
* **`TaskStep.follow`**: a step of the task, in any run, is a move of `Isolate`.
-/

namespace Onlyio

open Lib

variable {σ : Type}

/-! ## What a task can tell -/

/-- The context of a poll, without the slab index. -/
def TaskInfo.bare (info : TaskInfo) : TaskInfo := { info with tag.taskIdx := 0 }

/-- A buffer, wherever its pool lies. -/
def RwBuffer.bare (b : RwBuffer) : RwBuffer := { b with ptr := 0 }

/-- An operation, wherever the pool lies; the index of the buffer stays. -/
def SqeOp.bare : SqeOp → SqeOp
  | .writeFixed fd _ len bufIndex => .writeFixed fd 0 len bufIndex
  | op => op

/-- A value, wherever the pool lies. -/
def Value.bare : Value → Value
  | .rwBuffer b => .rwBuffer b.bare
  | .commitFn b len => .commitFn b.bare len
  | .commit (.init _ bufIdx fdIdx len) => .commit (.init 0 bufIdx fdIdx len)
  | v => v

def Out.bare : Out → Out
  | .buffer b => .buffer b.bare
  | out => out

/-- The locals of a block, wherever the pool lies. -/
def bareLocals (L : List (Option Value)) : List (Option Value) := L.map (Option.map Value.bare)

def AsyncBlock.bare (b : AsyncBlock σ) : AsyncBlock σ := ⟨b.code, bareLocals b.locals⟩

def Phase.bare : Phase → Phase
  | .on cur => .on cur.bare
  | ph => ph

/-- A value that owns no write buffer. -/
def Value.plain : Value → Bool
  | .wBuffer _ | .writeMultiple _ => false
  | _ => true

/-- A submission: the operation, the local whose poll submits it, and the `user_data` without the
slab index. -/
structure Ticket where
  op : SqeOp
  var : Var
  responseGen : UInt16
  syscallNb : UInt16
  deriving Repr, DecidableEq

def Sqe.ticket (q : Sqe) : Ticket :=
  ⟨q.op.bare, q.caller.var, q.payload.responseGen, q.payload.syscallNb⟩

/-- What a task takes part in, in order. -/
inductive Seen where
  | poll (info : TaskInfo)
  | submit (t : Ticket)
  | call (v : Var) (info : TaskInfo) (out : Option Resp)
  | ready
  deriving Repr, DecidableEq

def Seen.ticket? : Seen → Option Ticket
  | .submit t => some t
  | _ => none

def Event.seen : Event → Option Seen
  | .poll info => some (.poll info.bare)
  | .submit q _ => some (.submit q.ticket)
  | .call v _ info _ out => some (.call v info.bare out)
  | .ready _ => some .ready
  | .spawned _ | .cqe _ _ _ | .dropped => none

/-- What a task has seen. -/
def trail (log : List Event) : List Seen := log.filterMap Event.seen

def Event.sqe? : Event → Option Sqe
  | .submit q _ => some q
  | _ => none

/-- The SQEs that a task has submitted. -/
def submitted (log : List Event) : List Sqe := log.filterMap Event.sqe?

def Event.cqe? : Event → Option Cqe
  | .cqe e _ _ => some e
  | _ => none

/-- A completion, as its task can tell it: which of the task's submissions it answers, and how. -/
structure Answer where
  rank : Nat
  result : Int32
  flags : UInt32
  deriving Repr, DecidableEq

/-- The completions that a task has received. -/
def answers (log : List Event) : List Answer :=
  (log.filterMap Event.cqe?).map fun e => ⟨(submitted log).idxOf e.sqe, e.result, e.flags⟩

/-! ## The machine -/

/-- A task alone. -/
structure Isolate (σ : Type) where
  nb : UInt16
  block : AsyncBlock σ
  phase : Phase
  trail : List Seen

/-- What polling a value does: what it hands back, the value it becomes, the context and the number
after it, and the operation it submits. -/
structure Turn where
  out : Out
  value : Value
  cur : TaskInfo
  nb : UInt16
  op : Option SqeOp

/-- The submission that a poll of local `v` makes, in the context after it. -/
def Turn.ticket (t : Turn) (v : Var) : List Seen :=
  (t.op.map fun op => Seen.submit ⟨op, v, t.cur.responseGen, t.cur.tag.syscallNb⟩).toList

section Turn

variable (cur : TaskInfo) (nb : UInt16)

/-- A single-shot submission. -/
def Turn.sends (op : SqeOp) (v : Value) : Turn := ⟨.pending, v, cur, nb, some op⟩

/-- A multishot submission. -/
def Turn.opens (op : SqeOp) (v : Value) : Turn :=
  ⟨.pending, v, cur.multiple, setMultiple nb, some op⟩

/-- The write of a commit. -/
def Turn.commits (op : SqeOp) (v : Value) : Turn := ⟨.pending, v, cur.multiple, nb, some op⟩

/-- The context is read. -/
def Turn.resolves (out : Out) (v : Value) : Turn := ⟨out, v, cur, nb, none⟩

/-- The buffer that the context names, read from `fd`. -/
def TaskInfo.buffer (cur : TaskInfo) (fd : UInt32) : Option Out :=
  (bufferSelect cur.flags).map fun bufId =>
    .buffer ⟨0, bufId.toUInt32, fd, cur.result.toUInt32, false⟩

/-- Polling a value that owns no write buffer, in the context `cur`, by a task with the number
`nb`. -/
def Value.turn : Value → Option Turn
  | .accept (.pending fd) => some (.sends cur nb (.accept fd) (.accept .submited))
  | .accept .submited =>
    if 0 ≤ cur.result then some
      (.resolves cur nb (.ready (.accepted cur.result.toUInt32)) .returned)
    else some (.resolves cur nb (.ready (.acceptFailed cur.result)) .returned)
  | .read (.init fd) => some (.sends cur nb (.read fd) (.read (.pending fd)))
  | .read (.pending fd) =>
    if cur.result ≤ 0 then some (.resolves cur nb (.ready (.readFailed cur.result)) .returned)
    else (cur.buffer fd).map fun out => .resolves cur nb out .returned
  | .write (.init fd bufId len) =>
    some (.sends cur nb (.writeFixed fd 0 len bufId) (.write .pending))
  | .write .pending => some (.resolves cur nb (.ready (.written cur.result)) .returned)
  | .commitFn b len =>
    some (.commits cur nb (.writeFixed b.fdIdx 0 len b.bufIdx.toUInt16)
      (.commit (.pending b.bufIdx)))
  | .commit (.init _ bufIdx fdIdx len) =>
    some (.commits cur nb (.writeFixed fdIdx 0 len bufIdx.toUInt16) (.commit (.pending bufIdx)))
  | .commit (.pending _) => some (.resolves cur nb (.ready (.written cur.result)) .returned)
  | .socket (.createSocket addr) => some (.sends cur nb .socket (.socket (.connecting 0 addr)))
  | .socket (.connecting fd addr) =>
    if fd = 0 then
      some (.sends cur nb (.connect cur.result.toUInt32 0 sockAddrSize)
        (.socket (.connecting cur.result.toUInt32 addr)))
    else some (.resolves cur nb (.ready (.connected fd)) .returned)
  | .acceptStream ⟨fd, .init⟩ =>
    some (.opens cur nb (.acceptMulti fd) (.acceptStream ⟨fd, .running⟩))
  | .acceptStream ⟨fd, .running⟩ =>
    if cur.result < 0 then some (.resolves cur nb (.ready .none) (.acceptStream ⟨fd, .done⟩))
    else some (.resolves cur nb (.ready (.item cur.result.toUInt32))
      (.acceptStream ⟨fd, .next cur.flags⟩))
  | .acceptStream ⟨fd, .done⟩ => some (.resolves cur nb (.ready .none) (.acceptStream ⟨fd, .done⟩))
  | .readStream ⟨fd, .init⟩ => some (.opens cur nb (.recvMulti fd) (.readStream ⟨fd, .running⟩))
  | .readStream ⟨fd, .running⟩ =>
    if cur.result < 0 then some (.resolves cur nb (.ready .none) (.readStream ⟨fd, .done⟩))
    else (cur.buffer fd).map fun out => .resolves cur nb out (.readStream ⟨fd, .next cur.flags⟩)
  | .readStream ⟨fd, .done⟩ => some (.resolves cur nb (.ready .none) (.readStream ⟨fd, .done⟩))
  | .socket .pending | .writeMultiple _ | .rwBuffer _ | .wBuffer _ | .returned => none

end Turn

/-- The future that a call builds, and the locals it leaves. -/
def built (L : List (Option Value)) : Op → Option (Value × List (Option Value))
  | .accept fd => some (.accept (.pending fd), L)
  | .read fd => some (.read (.init fd), L)
  | .write fd bufId len => some (.write (.init fd bufId len), L)
  | .connect addr => some (.socket (.createSocket addr), L)
  | .commit buf len =>
    match L[buf]? with
    | some (some (.rwBuffer b)) => some (.commitFn b len, L.set buf none)
    | _ => none
  | .writeMultiple _ _ _ => none

namespace Isolate

/-- The block goes on at `x`. -/
def goto (S : Isolate σ) (x : σ) (L : List (Option Value)) : Isolate σ :=
  { S with block := ⟨some x, L⟩ }

/-- The value in local `v` was polled. -/
def polled (S : Isolate σ) (v : Var) (k : Option Resp → σ) (cur : TaskInfo) (t : Turn) :
    Isolate σ :=
  let L := S.block.locals
  { nb := t.nb
    block := ⟨some (k (t.out.resp L.length)), t.out.bind (L.set v (some t.value))⟩
    phase := .on t.cur
    trail := S.trail ++ t.ticket v ++ [.call v cur (t.out.resp L.length)] }

/-- One instruction at `x`, in the context `cur`. -/
def run (S : Isolate σ) (cur : TaskInfo) (L : List (Option Value)) : Instr σ → Option (Isolate σ)
  | .ret => some { S with
      block := ⟨none, []⟩, phase := .over (.ready ()), trail := S.trail ++ [.ready] }
  | .suspend k => some { S with block := ⟨some k, L⟩, phase := .over .pending }
  | .make op k => (built L op).map fun r => S.goto (k r.2.length) (r.2 ++ [some r.1])
  | .makeStream op k => some (S.goto (k L.length) (L ++ [some op.value]))
  | .poll v k => L[v]?.join.bind fun val => (val.turn cur S.nb).map fun t => S.polled v k cur t
  | .drop v k => some (S.goto k (L.set v none))
  | .spawn _ moved k => some (S.goto k (moved.foldl (fun L m => L.set m.2 none) L))
  | .allocWrite _ | .cloneWrite _ _ => none

/-- The machine goes on by itself. -/
def next (prog : σ → Instr σ) (S : Isolate σ) : Option (Isolate σ) :=
  match S.phase with
  | .off => none
  | .over _ => some { S with phase := .off }
  | .on cur => S.block.code.bind fun x => S.run cur S.block.locals (prog x)

/-- The submissions so far. -/
def sent (S : Isolate σ) : List Ticket := S.trail.filterMap Seen.ticket?

/-- A poll in the context `cur`. -/
def wake (S : Isolate σ) (nb : UInt16) (cur : TaskInfo) : Isolate σ :=
  { S with nb, phase := .on cur, trail := S.trail ++ [.poll cur] }

/-- The machine takes an answer. -/
def take (S : Isolate σ) (a : Answer) : Option (Isolate σ) :=
  S.sent[a.rank]?.bind fun t =>
    match evaluateSyscallNb S.nb t.syscallNb with
    | .error => none
    | .expired => some S
    | .normal =>
      some (S.wake (taskAugmente S.nb) ⟨⟨0, t.syscallNb + 1⟩, a.result, a.flags, t.responseGen⟩)
    | .multiple => some (S.wake S.nb ⟨⟨0, t.syscallNb⟩, a.result, a.flags, t.responseGen⟩)

/-- The first poll of a task. -/
def start (x : σ) (L : List (Option Value)) : Isolate σ :=
  { nb := 0, block := ⟨some x, L⟩, phase := .on (.initialPoll 0)
    trail := [.poll (.initialPoll 0)] }

end Isolate

/-- The task that runs `prog`. -/
def isolate (prog : σ → Instr σ) : Reactor (Isolate σ) Answer := ⟨Isolate.next prog, Isolate.take⟩

/-! ## Polling a value -/

/-- The buffer `b` is read from the descriptor of `val`, and named by a completion. -/
def Value.Lends (val : Value) (b : RwBuffer) : Prop :=
  b.bufIdx.toUInt16.toUInt32 = b.bufIdx ∧
  (val = .read (.pending b.fdIdx) ∨ ∃ st, val = .readStream ⟨b.fdIdx, st⟩)

section Called

variable {me : Caller} {cur cur' : TaskInfo} {nb nb' : UInt16} {outs : Multiset Sqe}
  {val val' : Value} {out : Out} {new : List Sqe} {evs : List Event} {op : SqeOp} {q : Sqe}

theorem Stamped.ticket (h : Stamped me cur op q) :
    q.ticket = ⟨op.bare, me.var, cur.responseGen, cur.tag.syscallNb⟩ := by
  unfold Sqe.ticket
  rw [h.op, h.caller, h.payload]
  rfl

/-- The buffer that the context names. -/
theorem Resolves.buffer_eq {b : RwBuffer} (hb : bufferSelect cur.flags = some b.bufIdx.toUInt16)
    (hn : b.bytes = cur.result.toUInt32) (hc : b.committed = false)
    (hidx : b.bufIdx.toUInt16.toUInt32 = b.bufIdx) :
    cur.bare.buffer b.fdIdx = some (Out.buffer b).bare := by
  have hflags : bufferSelect cur.bare.flags = some b.bufIdx.toUInt16 := hb
  have hres : b.bytes = cur.bare.result.toUInt32 := hn
  unfold TaskInfo.buffer
  rw [hflags, ← hres, Option.map_some, hidx, ← hc]
  rfl

theorem Sends.turn (h : Sends cur val op val') :
    val.bare.turn cur.bare nb = some (.sends cur.bare nb op.bare val'.bare) := by
  cases h <;> rfl

theorem Opens.turn (h : Opens val op val') :
    val.bare.turn cur.bare nb = some (.opens cur.bare nb op.bare val'.bare) := by
  cases h <;> rfl

theorem Commits.turn (h : Commits val op val') :
    val.bare.turn cur.bare nb = some (.commits cur.bare nb op.bare val'.bare) := by
  cases h <;> rfl

theorem Resolves.turn (h : Resolves cur val out val') (hl : ∀ b, out = .buffer b → val.Lends b) :
    val.bare.turn cur.bare nb = some (.resolves cur.bare nb out.bare val'.bare) := by
  cases h with
  | accepted h => exact if_pos h
  | acceptFailed h => exact if_neg h
  | readFailed fd h => exact if_pos h
  | read fd b h hb hn hc =>
    obtain ⟨hidx, heq | ⟨st, heq⟩⟩ := hl b rfl
    · cases heq
      have hbuf : cur.bare.buffer b.fdIdx = _ := buffer_eq hb hn hc hidx
      refine (if_neg h).trans ?_
      rw [hbuf]
      rfl
    · cases heq
  | written | committed | acceptDone | readDone => rfl
  | connected fd addr h => exact if_neg h
  | accepting fd h => exact if_neg h
  | acceptEnd fd h => exact if_pos h
  | reading fd b h hb hn hc =>
    obtain ⟨hidx, heq | ⟨st, heq⟩⟩ := hl b rfl
    · cases heq
    · cases heq
      have hbuf : cur.bare.buffer b.fdIdx = _ := buffer_eq hb hn hc hidx
      refine (if_neg h).trans ?_
      rw [hbuf]
      rfl
  | readEnd fd h => exact if_pos h

/-- **Polling a value**, from the side of the task. -/
theorem Called.turn (h : Called me cur nb outs val out val' cur' nb' new evs)
    (hp : val.plain = true) (hl : ∀ b, out = .buffer b → val.Lends b) :
    ∃ op, val.bare.turn cur.bare nb = some ⟨out.bare, val'.bare, cur'.bare, nb', op⟩ ∧
      trail evs = Turn.ticket ⟨out.bare, val'.bare, cur'.bare, nb', op⟩ me.var ∧
      (∀ q ∈ new, q ∈ submitted evs) ∧ val'.plain = true := by
  have hone : ∀ {q : Sqe} {info : TaskInfo} {op : SqeOp} (n : Nat), Stamped me info op q →
      trail [.submit q n] = [.submit ⟨op.bare, me.var, info.responseGen, info.tag.syscallNb⟩] ∧
      ∀ q' ∈ [q], q' ∈ submitted [.submit q n] := by
    intro q info op n hq
    have ht : trail [.submit q n] = [.submit q.ticket] := rfl
    rw [ht, hq.ticket]
    exact ⟨rfl, fun q' hq' => hq'⟩
  cases h with
  | @send _ _ op q h hq =>
    have h1 := hone (outs.countP fun r => r.nb = q.nb) hq
    refine ⟨some op.bare, h.turn, h1.1, h1.2, ?_⟩
    cases h <;> rfl
  | @opens _ _ op q h hq =>
    have h1 := hone (outs.countP fun r => r.nb = q.nb) hq
    refine ⟨some op.bare, h.turn, h1.1, h1.2, ?_⟩
    cases h <;> rfl
  | @commit _ _ op q h hq =>
    have h1 := hone (outs.countP fun r => r.nb = q.nb) hq
    refine ⟨some op.bare, h.turn, h1.1, h1.2, ?_⟩
    cases h <;> rfl
  | fanOut | fanOne | fanLast => cases hp
  | resolve h =>
    refine ⟨none, h.turn hl, rfl, fun _ hq => hq, ?_⟩
    cases h <;> rfl

end Called

/-! ## Instructions -/

/-- The block stays in `R`, and uses no write buffer. -/
def Instr.Stays (R : Set σ) : Instr σ → Prop
  | .ret => True
  | .suspend k | .drop _ k | .spawn _ _ k => k ∈ R
  | .make _ k | .makeStream _ k => ∀ v, k v ∈ R
  | .poll _ k => ∀ r, k r ∈ R
  | .allocWrite _ | .cloneWrite _ _ => False

/-- A block that begins in `R` stays there. -/
def Confined (prog : σ → Instr σ) (R : Set σ) : Prop := ∀ x ∈ R, (prog x).Stays R

/-- The locals own no write buffer. -/
def PlainLocals (L : List (Option Value)) : Prop := Held (fun _ val => val.plain = true) L

section Locals

variable {L L' taken : List (Option Value)} {v : Var} {val : Value} {op : Op} {i : Instr σ}
  {y : σ} {R : Set σ}

theorem bareLocals_getElem? (L : List (Option Value)) (v : Var) :
    (bareLocals L)[v]? = L[v]?.map (Option.map Value.bare) := List.getElem?_map

theorem bareLocals_set (L : List (Option Value)) (v : Var) (val : Option Value) :
    bareLocals (L.set v val) = (bareLocals L).set v (val.map Value.bare) := List.map_set

theorem bareLocals_snoc (L : List (Option Value)) (val : Value) :
    bareLocals (L ++ [some val]) = bareLocals L ++ [some val.bare] := List.map_append

theorem bareLocals_length (L : List (Option Value)) :
    (bareLocals L).length = L.length := List.length_map _

theorem bareLocals_bind (L : List (Option Value)) (out : Out) :
    bareLocals (out.bind L) = out.bare.bind (bareLocals L) := by
  cases out with
  | buffer b => exact bareLocals_snoc L (.rwBuffer b)
  | pending | ready => rfl

theorem Out.resp_bare (n : Var) (out : Out) : out.bare.resp n = out.resp n := by
  cases out <;> rfl

theorem StreamOp.value_bare (op : StreamOp) : op.value.bare = op.value := by
  cases op <;> rfl

theorem StreamOp.value_plain (op : StreamOp) : op.value.plain = true := by
  cases op <;> rfl

/-- A call that builds a future. -/
theorem Makes.built (h : Makes L op val L') (hL : PlainLocals L) :
    built (bareLocals L) op = some (val.bare, bareLocals L') ∧ val.plain = true ∧
    PlainLocals L' := by
  cases h with
  | accept | read | write | connect => exact ⟨rfl, rfl, hL⟩
  | commit buf len b h =>
    refine ⟨?_, rfl, hL.set_none buf⟩
    simp only [Onlyio.built, bareLocals_getElem?, h, bareLocals_set]
    rfl
  | writeMultiple buf fds len b h => cases hL buf _ h

/-- What moves its captured values into a spawned block leaves the other locals. -/
theorem Moves.left {moved : List (Kind × Var)} (h : Moves L moved taken L') :
    bareLocals L' = moved.foldl (fun L m => L.set m.2 none) (bareLocals L) := by
  induction h with
  | nil L => rfl
  | @cons L taken L' kind v moved val hv hk hm ih =>
    rw [ih, bareLocals_set]
    rfl

/-- An instruction that only touches the locals. -/
theorem LocalStep.run (h : LocalStep L i y L') (hi : i.Stays R) (hL : PlainLocals L) (S : Isolate σ)
    (cur : TaskInfo) :
    S.run cur (bareLocals L) i = some (S.goto y (bareLocals L')) ∧ y ∈ R ∧ PlainLocals L' := by
  cases h with
  | @make op k val L' h =>
    obtain ⟨hb, hval, hL'⟩ := h.built hL
    refine ⟨?_, hi _, hL'.append hval⟩
    simp only [Isolate.run, hb, bareLocals_snoc, Option.map_some, bareLocals_length]
  | makeStream op k =>
    refine ⟨?_, hi _, hL.append op.value_plain⟩
    simp only [Isolate.run, bareLocals_snoc, bareLocals_length, op.value_bare]
  | drop v k val h =>
    refine ⟨?_, hi, hL.set_none v⟩
    simp only [Isolate.run, bareLocals_set]
    rfl
  | allocWrite | cloneWrite => exact hi.elim

end Locals

/-! ## Logs -/

section Logs

variable {log evs : List Event}

theorem trail_append (log evs : List Event) : trail (log ++ evs) = trail log ++ trail evs :=
  List.filterMap_append

theorem submitted_append (log evs : List Event) :
    submitted (log ++ evs) = submitted log ++ submitted evs :=
  List.filterMap_append

/-- The submissions of a trail are those of the log. -/
theorem tickets_trail (log : List Event) :
    (trail log).filterMap Seen.ticket? = (submitted log).map Sqe.ticket := by
  induction log with
  | nil => rfl
  | cons ev log ih =>
    have hcons : ∀ l, trail (ev :: l) = trail [ev] ++ trail l := fun l => trail_append [ev] l
    have hsub : ∀ l, submitted (ev :: l) = submitted [ev] ++ submitted l := fun l =>
      submitted_append [ev] l
    rw [hcons, hsub, List.filterMap_append, List.map_append, ih]
    cases ev <;> rfl

/-- Every completion answers one of the SQEs that were submitted before. -/
def Asked (log : List Event) : Prop := ∀ e ∈ log.filterMap Event.cqe?, e.sqe ∈ submitted log

theorem Asked.append (h : Asked log)
    (hevs : ∀ e ∈ evs.filterMap Event.cqe?, e.sqe ∈ submitted log) : Asked (log ++ evs) := by
  intro e he
  rw [List.filterMap_append, List.mem_append] at he
  rw [submitted_append]
  exact List.mem_append_left _ (he.elim (h e) (hevs e))

/-- The answers to earlier submissions stay what they were. -/
theorem answers_append (h : Asked log)
    (hevs : ∀ e ∈ evs.filterMap Event.cqe?, e.sqe ∈ submitted log) :
    answers (log ++ evs) = answers log ++ (evs.filterMap Event.cqe?).map fun e =>
      ⟨(submitted log).idxOf e.sqe, e.result, e.flags⟩ := by
  unfold answers
  rw [List.filterMap_append, List.map_append, submitted_append]
  congr 1 <;> refine List.map_congr_left fun e he => ?_
  · rw [List.idxOf_append_of_mem (h e he)]
  · rw [List.idxOf_append_of_mem (hevs e he)]

end Logs

/-! ## Steps -/

/-- The machine `S` is where the task of `V` is. -/
structure Follows (R : Set σ) (V : View σ) (S : Isolate σ) : Prop where
  nb : S.nb = V.nb
  phase : S.phase = V.phase.bare
  trail : S.trail = trail V.log
  /-- A freed task has no block. -/
  block : V.freed = false → S.block = V.block.bare
  code : ∀ x, V.block.code = some x → x ∈ R
  plain : PlainLocals V.block.locals
  live : V.phase ≠ .off → V.freed = false
  sent : ∀ q ∈ V.outs, q ∈ submitted V.log
  asked : Asked V.log

/-- The buffers that a step hands out come from the values it polls. -/
def Lent (code : Code σ) (V V' : View σ) : Prop :=
  ∀ {x : σ} {L : List (Option Value)} {v : Var} {k : Option Resp → σ} {val : Value} {b : RwBuffer},
    V.block = ⟨some x, L⟩ → code x = .poll v k → L[v]? = some (some val) →
      V'.block.locals[L.length]? = some (some (.rwBuffer b)) → val.Lends b

section Follows

variable {code : Code σ} {prog : σ → Instr σ} {R : Set σ} {p : TaskPtr} {V V' : View σ}
  {S : Isolate σ}

theorem Follows.sent_getElem? (h : Follows R V S) {q : Sqe} (hq : q ∈ V.outs) :
    S.sent[(submitted V.log).idxOf q]? = some q.ticket := by
  unfold Isolate.sent
  rw [h.trail, tickets_trail, List.getElem?_map, List.getElem?_idxOf (h.sent q hq), Option.map_some]

/-- The block of a task that runs. -/
theorem Follows.running (h : Follows R V S) {cur : TaskInfo} {x : σ} {L : List (Option Value)}
    (hon : V.phase = .on cur) (hb : V.block = ⟨some x, L⟩) :
    S.block = ⟨some x, bareLocals L⟩ ∧ S.phase = .on cur.bare ∧ x ∈ R ∧ PlainLocals L ∧
    V.freed = false := by
  have hlive : V.freed = false := h.live (by simp [hon])
  refine ⟨?_, ?_, h.code x (by rw [hb]), ?_, hlive⟩
  · rw [h.block hlive, hb]
    rfl
  · rw [h.phase, hon]
    rfl
  · have hp := h.plain
    rwa [hb] at hp

/-- The machine makes the step of the block that runs. -/
theorem Isolate.next_run {cur : TaskInfo} {x : σ} {L : List (Option Value)}
    (hb : S.block = ⟨some x, L⟩) (hon : S.phase = .on cur) :
    S.next prog = S.run cur L (prog x) := by
  unfold Isolate.next
  rw [hon, hb]
  rfl

/-- A settled task is the same to the machine. -/
theorem Follows.settle (h : Follows R V S) (hoff : V.phase = .off) :
    Follows R V.settle S ∧ answers V.settle.log = answers V.log := by
  unfold View.settle
  by_cases h0 : V.outs = 0
  · rw [if_pos h0]
    have hlog : answers (V.log ++ [.dropped]) = answers V.log := by
      have hquiet : ∀ e ∈ [Event.dropped].filterMap Event.cqe?, e.sqe ∈ submitted V.log :=
        fun e he => absurd he List.not_mem_nil
      rw [answers_append h.asked hquiet]
      exact List.append_nil _
    refine ⟨⟨h.nb, h.phase, ?_, fun hf => ?_, h.code, Held.nil, fun hne => absurd hoff hne,
      fun q hq => ?_, h.asked.append fun e he => absurd he List.not_mem_nil⟩, hlog⟩
    · rw [h.trail, trail_append]
      exact (List.append_nil _).symm
    · cases hf
    · rw [submitted_append]
      exact List.mem_append_left _ (h.sent q hq)
  · rw [if_neg h0]
    exact ⟨h, rfl⟩

/-- The block of the task goes on. -/
theorem Follows.goto (h : Follows R V S) {y : σ} {L : List (Option Value)} (hy : y ∈ R)
    (hL : PlainLocals L) : Follows R { V with block := ⟨some y, L⟩ } (S.goto y (bareLocals L)) :=
  ⟨h.nb, h.phase, h.trail, fun _ => rfl, fun _ hx => Option.some.inj hx ▸ hy, hL, h.live,
    h.sent, h.asked⟩

/-- A completion that the task takes. -/
theorem Follows.accept (h : Follows R V S) {e : Cqe} {cls : SyscallNbCompResult}
    {others : List UInt16} (ha : Arrives V e cls others) (hcls : cls = .normal ∨ cls = .multiple) :
    ∃ S', S.take ⟨(submitted V.log).idxOf e.sqe, e.result, e.flags⟩ = some S' ∧ Follows R { V with
      nb := if cls = .normal then taskAugmente V.nb else V.nb
      outs := V.answered e
      phase := .on (e.context cls)
      log := V.log ++ [.cqe e cls others, .poll (e.context cls)] } S' := by
  have hsub : e.sqe ∈ submitted V.log := h.sent _ ha.mem
  have hfollows : ∀ {S' : Isolate σ}, S'.nb = (if cls = .normal then taskAugmente V.nb else V.nb) →
      S'.phase = .on (e.context cls).bare → S'.trail = S.trail ++ [.poll (e.context cls).bare] →
      S'.block = S.block → Follows R { V with
        nb := if cls = .normal then taskAugmente V.nb else V.nb
        outs := V.answered e
        phase := .on (e.context cls)
        log := V.log ++ [.cqe e cls others, .poll (e.context cls)] } S' := by
    intro S' hnb hph htr hb
    refine ⟨hnb, hph, ?_, fun hf => hb.trans (h.block hf), h.code, h.plain, fun _ => ha.live,
      fun q hq => ?_, h.asked.append fun e' he' => ?_⟩
    · rw [htr, h.trail, trail_append]
      rfl
    · rw [submitted_append]
      exact List.mem_append_left _ (h.sent q (View.mem_of_answered hq))
    · rw [List.mem_singleton.mp he']
      exact hsub
  have hn : S.sent[(submitted V.log).idxOf e.sqe]? = some e.sqe.ticket := h.sent_getElem? ha.mem
  have hcls' : cls = evaluateSyscallNb S.nb e.sqe.ticket.syscallNb := by
    rw [h.nb]
    exact ha.cls
  rcases hcls with rfl | rfl
  · refine ⟨S.wake (taskAugmente S.nb) (e.context .normal).bare, ?_, hfollows ?_ rfl rfl rfl⟩
    · simp only [Isolate.take, hn, Option.bind_some, ← hcls']
      rfl
    · rw [if_pos rfl, ← h.nb]
      rfl
  · refine ⟨S.wake S.nb (e.context .multiple).bare, ?_, hfollows h.nb rfl rfl rfl⟩
    simp only [Isolate.take, hn, Option.bind_some, ← hcls']
    rfl

/-- A completion that has expired changes nothing for the task. -/
theorem Follows.skip (h : Follows R V S) {e : Cqe} {others : List UInt16}
    (ha : Arrives V e .expired others) :
    S.take ⟨(submitted V.log).idxOf e.sqe, e.result, e.flags⟩ = some S ∧ Follows R { V with
      outs := V.answered e, log := V.log ++ [.cqe e .expired others] } S := by
  have hsub : e.sqe ∈ submitted V.log := h.sent _ ha.mem
  have hn : S.sent[(submitted V.log).idxOf e.sqe]? = some e.sqe.ticket := h.sent_getElem? ha.mem
  have hcls : .expired = evaluateSyscallNb S.nb e.sqe.ticket.syscallNb := by
    rw [h.nb]
    exact ha.cls
  refine ⟨?_, h.nb, h.phase, ?_, h.block, h.code, h.plain, h.live, fun q hq => ?_,
    h.asked.append fun e' he' => ?_⟩
  · simp only [Isolate.take, hn, Option.bind_some, ← hcls]
  · rw [h.trail, trail_append]
    exact (List.append_nil _).symm
  · rw [submitted_append]
    exact List.mem_append_left _ (h.sent q (View.mem_of_answered hq))
  · rw [List.mem_singleton.mp he']
    exact hsub

/-- A completion is an answer. -/
theorem Follows.answers_cqe (h : Follows R V S) {e : Cqe} {cls : SyscallNbCompResult}
    {others : List UInt16} (ha : Arrives V e cls others) (evs : List Event)
    (hevs : evs.filterMap Event.cqe? = []) : answers (V.log ++ .cqe e cls others :: evs) =
      answers V.log ++ [⟨(submitted V.log).idxOf e.sqe, e.result, e.flags⟩] := by
  have hcqe : (Event.cqe e cls others :: evs).filterMap Event.cqe? = [e] := by
    rw [← hevs]
    rfl
  rw [answers_append h.asked, hcqe]
  · rfl
  · intro e' he'
    rw [hcqe, List.mem_singleton] at he'
    subst he'
    exact h.sent _ ha.mem

/-- The block polls a value. -/
theorem Follows.call (h : Follows R V S) {cur cur' : TaskInfo} {x : σ}
    {L : List (Option Value)} {v : Var} {k : Option Resp → σ} {val val' : Value} {out : Out}
    {nb' : UInt16} {new : List Sqe} {evs : List Event} {n : Nat} (hon : V.phase = .on cur)
    (hb : V.block = ⟨some x, L⟩) (hx : prog x = .poll v k) (hk : ∀ r, k r ∈ R)
    (hv : L[v]? = some (some val))
    (hcall : Called ⟨p, v⟩ cur V.nb V.outs val out val' cur' nb' new evs)
    (hl : ∀ b, out = .buffer b → val.Lends b) : ∃ S', S.next prog = some S' ∧
      answers (V.log ++ evs ++ [.call v val cur n (out.resp L.length)]) = answers V.log ∧
      Follows R { V with
        nb := nb'
        outs := V.outs + (new : Multiset Sqe)
        phase := .on cur'
        block := ⟨some (k (out.resp L.length)), out.bind (L.set v (some val'))⟩
        log := V.log ++ evs ++ [.call v val cur n (out.resp L.length)] } S' := by
  obtain ⟨hSb, hSon, hxR, hL, hlive⟩ := h.running hon hb
  obtain ⟨op, hturn, htrail, hnew, hplain⟩ := hcall.turn (hL v val hv) hl
  -- a poll of a value brings no completion
  have hquiet : ∀ e ∈ (evs ++ [Event.call v val cur n (out.resp L.length)]).filterMap
      Event.cqe?, False := by
    intro e he
    obtain ⟨ev, hev, hcqe⟩ := List.mem_filterMap.mp he
    rcases List.mem_append.mp hev with hev | hev
    · obtain ⟨q, m, rfl⟩ := hcall.submits ev hev
      cases hcqe
    · rw [List.mem_singleton.mp hev] at hcqe
      cases hcqe
  refine ⟨S.polled v k cur.bare ⟨out.bare, val'.bare, cur'.bare, nb', op⟩, ?_, ?_, ?_⟩
  · rw [Isolate.next_run hSb hSon, hx]
    have hget : (bareLocals L)[v]?.join = some val.bare := by
      rw [bareLocals_getElem?, hv]
      rfl
    rw [← h.nb] at hturn
    simp only [Isolate.run, hget, Option.bind_some, hturn, Option.map_some]
  · rw [List.append_assoc, answers_append h.asked fun e he => (hquiet e he).elim,
      List.eq_nil_iff_forall_not_mem.mpr hquiet]
    exact List.append_nil _
  · refine ⟨rfl, rfl, ?_, fun _ => ?_, fun _ hy => Option.some.inj hy ▸ hk _, ?_, fun _ => hlive,
      fun q hq => ?_, ?_⟩
    · simp only [Isolate.polled, hSb, bareLocals_length, Out.resp_bare, h.trail,
        trail_append, htrail]
      rfl
    · simp only [Isolate.polled, hSb, bareLocals_length, Out.resp_bare]
      simp only [AsyncBlock.bare, bareLocals_bind, bareLocals_set]
      rfl
    · exact Held.bind (Held.set (fun u val' hu _ => hL u val' hu) hplain) (fun _ => rfl) out
    · rw [List.append_assoc, submitted_append, submitted_append, List.mem_append, List.mem_append]
      rcases Multiset.mem_add.mp hq with hq | hq
      · exact .inl (h.sent q hq)
      · exact .inr (.inl (hnew q hq))
    · rw [List.append_assoc]
      exact h.asked.append fun e he => (hquiet e he).elim

/-- **A step of the task is a move of the machine**, and a completion of the task is its input. -/
theorem TaskStep.follow (h : TaskStep code p V V') (hf : Follows R V S)
    (hprog : ∀ x ∈ R, code x = prog x) (hconf : Confined prog R) (hl : Lent code V V') :
    ∃ ins S', Replay (isolate prog) S ins S' ∧ answers V'.log = answers V.log ++ ins ∧
    Follows R V' S' := by
  have hnext : ∀ {T : Isolate σ}, S.next prog = some T → Replay (isolate prog) S [] T := fun hn =>
    Replay.refl.next hn
  have hstays : ∀ {x : σ}, x ∈ R → (code x).Stays R := by
    intro x hx
    rw [hprog x hx]
    exact hconf x hx
  cases h with
  | @locals cur x y L L' hon hb hloc =>
    obtain ⟨hSb, hSon, hxR, hL, -⟩ := hf.running hon hb
    obtain ⟨hrun, hy, hL'⟩ := hloc.run (hstays hxR) hL S cur.bare
    refine ⟨[], _, hnext ?_, (List.append_nil _).symm, hf.goto hy hL'⟩
    rw [Isolate.next_run hSb hSon, ← hprog x hxR, hrun]
  | @spawn cur x child k L L' taken moved hon hb hx hm =>
    obtain ⟨hSb, hSon, hxR, hL, -⟩ := hf.running hon hb
    have hk := hstays hxR
    rw [hx] at hk
    refine ⟨[], _, hnext ?_, (List.append_nil _).symm, hf.goto hk (Held.moves hm hL).1⟩
    rw [Isolate.next_run hSb hSon, ← hprog x hxR, hx, hm.left]
    rfl
  | @call cur cur' x L v k val val' out nb' new evs hon hb hx hv hcall =>
    obtain ⟨-, -, hxR, -, -⟩ := hf.running hon hb
    have hk := hstays hxR
    rw [hx] at hk
    obtain ⟨S', hn, ha, hf'⟩ :=
      hf.call (n := V.rivals cur.tag.syscallNb) hon hb ((hprog x hxR).symm.trans hx) hk hv hcall
      fun b hout => hl hb hx hv (by
        subst hout
        have hlen : L.length = (L.set v (some val')).length := by rw [List.length_set]
        rw [hlen]
        exact List.getElem?_concat_length)
    exact ⟨[], S', hnext hn, ha.trans (List.append_nil _).symm, hf'⟩
  | @suspend cur x k L hon hb hx =>
    obtain ⟨hSb, hSon, hxR, hL, hlive⟩ := hf.running hon hb
    have hk := hstays hxR
    rw [hx] at hk
    refine ⟨[], _,
      hnext (T := { S with block := ⟨some k, bareLocals L⟩, phase := .over .pending }) ?_,
      (List.append_nil _).symm, hf.nb, rfl, hf.trail, fun _ => rfl, fun _ hy =>
      Option.some.inj hy ▸ hk, hL, fun _ => hlive, hf.sent, hf.asked⟩
    rw [Isolate.next_run hSb hSon, ← hprog x hxR, hx]
    rfl
  | @ret cur x L hon hb hx =>
    obtain ⟨hSb, hSon, hxR, hL, hlive⟩ := hf.running hon hb
    have hquiet : ∀ e ∈ [Event.ready (V.rivals V.nb)].filterMap Event.cqe?,
        e.sqe ∈ submitted V.log :=
      fun e he => absurd he List.not_mem_nil
    refine ⟨[], _, hnext (T := { S with
        block := ⟨none, []⟩, phase := .over (.ready ()), trail := S.trail ++ [.ready] }) ?_, ?_,
      hf.nb, rfl, ?_, fun _ => rfl, fun _ hy => absurd hy (by simp), Held.nil, fun _ =>
        hlive, fun q hq => ?_,
      hf.asked.append hquiet⟩
    · rw [Isolate.next_run hSb hSon, ← hprog x hxR, hx]
      rfl
    · rw [answers_append hf.asked hquiet]
      rfl
    · rw [trail_append, hf.trail]
      rfl
    · rw [submitted_append]
      exact List.mem_append_left _ (hf.sent q hq)
  | @leave r hover hlive =>
    have hoff : Follows R { V with phase := .off } { S with phase := .off } :=
      ⟨hf.nb, rfl, hf.trail, hf.block, hf.code, hf.plain, fun hne => absurd rfl hne,
        hf.sent, hf.asked⟩
    obtain ⟨hset, ha⟩ := hoff.settle rfl
    refine ⟨[], _, hnext ?_, ha.trans (List.append_nil _).symm, hset⟩
    unfold Isolate.next
    rw [hf.phase, hover]
    rfl
  | @skip e others ha =>
    obtain ⟨ht, hskip⟩ := hf.skip ha
    obtain ⟨hset, hans⟩ := hskip.settle ha.off
    refine ⟨_, S, Replay.refl.take ?_ ht, hans.trans (hf.answers_cqe ha [] rfl), hset⟩
    show S.next prog = none
    unfold Isolate.next
    rw [hf.phase, ha.off]
    rfl
  | @accept e cls others ha hcls =>
    obtain ⟨S', ht, hacc⟩ := hf.accept ha hcls
    refine ⟨_, S', Replay.refl.take ?_ ht, hf.answers_cqe ha [.poll (e.context cls)] rfl, hacc⟩
    show S.next prog = none
    unfold Isolate.next
    rw [hf.phase, ha.off]
    rfl

end Follows

end Onlyio
