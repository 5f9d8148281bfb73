import Onlyio.Machine.Simulate
import Mathlib.Data.Multiset.Filter

/-!
# One task's view of the machine

Most properties of the runtime are about one task: its number, its outstanding SQEs, its block, its
log. `View` is what one task has, and `TaskStep` what can happen to it: its block makes one
instruction, its poll ends, a completion is handed to it or skipped. The contexts that `spawn` saves
for the polls in progress below the top are part of the view, so a property of views says what a
task sees when it is polled, whatever ran in between.

* `Polled.called`: polling a value, from the side of the task.
* `Step.view_held`: a step of the machine, when tasks are held from outside.
* **`Step.view`**: a step of the machine is a step of one task, or the birth of one, and changes the
  view of no other.
-/

namespace Onlyio

open Lib

variable {σ : Type}

/-! ## Views -/

/-- Whether a poll of the task is in progress. -/
inductive Phase where
  | off
  /-- The block runs, in this context. -/
  | on (cur : TaskInfo)
  /-- The block has suspended or returned, and its poll has not ended. -/
  | over (r : Poll Unit)

/-- What one task has. -/
@[ext] structure View (σ : Type) where
  nb : UInt16
  /-- Its outstanding SQEs. -/
  outs : Multiset Sqe
  block : AsyncBlock σ
  log : List Event
  phase : Phase
  freed : Bool

/-- The number stamped into an SQE. -/
def Sqe.nb (q : Sqe) : UInt16 := q.payload.syscallNb

/-- The outstanding SQEs of `p`. -/
def Core.own (c : Core) (p : TaskPtr) : Multiset Sqe :=
  (c.outstanding.filter fun q => q.caller.task = p : List Sqe)

/-- The phase of `p`, when the top of the stack runs in `cur`. -/
def phaseOf : TaskInfo → List Frame → TaskPtr → Phase
  | _, [], _ => .off
  | cur, f :: st, p =>
    if f.task = p then
      match f.result with
      | none => .on cur
      | some r => .over r
    else
      match f.role with
      | .spawn old => phaseOf old st p
      | .handle _ => .off

/-- The view of `p`. -/
def Config.view (g : Config σ) (p : TaskPtr) : View σ :=
  { nb := g.core.stored p
    outs := g.core.own p
    block := g.fut p
    log := (g.core.cell p).log
    phase := phaseOf g.core.current g.stack p
    freed := (g.core.cell p).freed }

namespace View

/-- The outstanding SQEs that carry `nb`. -/
def rivals (V : View σ) (nb : UInt16) : Nat := V.outs.countP fun q => q.nb = nb

/-- A task that is polled for the first time. -/
def born (i : SlabIdx) (child : σ) (locals : List (Option Value)) : View σ :=
  { nb := 0, outs := 0, block := ⟨some child, locals⟩
    log := [.spawned locals, .poll (.initialPoll i)]
    phase := .on (.initialPoll i), freed := false }

/-- The outstanding SQEs after the completion `e`. -/
def answered (V : View σ) (e : Cqe) : Multiset Sqe :=
  if more e.flags then V.outs else V.outs.erase e.sqe

/-- A task that no poll refers to is freed when it has no outstanding SQE. -/
def settle (V : View σ) : View σ :=
  if V.outs = 0 then
    { V with freed := true, block := { V.block with locals := [] }, log := V.log ++ [.dropped] }
  else V

/-- A task that no poll refers to, and that is held by `n` references from outside. -/
def settleUnless (V : View σ) (n : Nat) : View σ := if n = 0 then V.settle else V

end View

/-! ## Steps of one task -/

/-- `MULTIPLE_MASK` on a context. -/
def TaskInfo.multiple (info : TaskInfo) : TaskInfo :=
  { info with tag.syscallNb := setMultiple info.tag.syscallNb }

/-- An SQE that `me` submits in the context `info`. -/
structure Stamped (me : Caller) (info : TaskInfo) (op : SqeOp) (q : Sqe) : Prop where
  caller : q.caller = me
  op : q.op = op
  payload : q.payload = info.payload

theorem Stamped.nb {me : Caller} {info : TaskInfo} {op : SqeOp} {q : Sqe}
    (h : Stamped me info op q) : q.nb = info.tag.syscallNb := congrArg _ h.payload

/-- The entries of a fan-out. -/
structure FanOut (me : Caller) (info : TaskInfo) (fds : List UInt32) (new : List Sqe) : Prop where
  caller : ∀ q ∈ new, q.caller = me
  nb : ∀ q ∈ new, q.nb = info.tag.syscallNb
  single : ∀ q ∈ new, q.op.isMultishot = false
  plain : ∀ q ∈ new, q.op.selects = false
  gens : new.map (fun q => q.payload.responseGen) = (List.range fds.length).map UInt16.ofNat

/-- What polling a value does, in the context `cur`, to a task with the number `nb` and the
outstanding SQEs `outs`: the value it becomes, the context and the number after it, the SQEs it
submits and the events it records. -/
inductive Called (me : Caller) (cur : TaskInfo) (nb : UInt16) (outs : Multiset Sqe) :
    Value → Out → Value → TaskInfo → UInt16 → List Sqe → List Event → Prop where
  | send {v v' : Value} {op : SqeOp} {q : Sqe} (h : Sends cur v op v') (hq : Stamped me cur op q) :
      Called me cur nb outs v .pending v' cur nb [q]
        [.submit q (outs.countP fun r => r.nb = q.nb)]
  | opens {v v' : Value} {op : SqeOp} {q : Sqe} (h : Opens v op v')
      (hq : Stamped me cur.multiple op q) :
      Called me cur nb outs v .pending v' cur.multiple (setMultiple nb) [q]
        [.submit q (outs.countP fun r => r.nb = q.nb)]
  | commit {v v' : Value} {op : SqeOp} {q : Sqe} (h : Commits v op v')
      (hq : Stamped me cur.multiple op q) :
      Called me cur nb outs v .pending v' cur.multiple nb [q]
        [.submit q (outs.countP fun r => r.nb = q.nb)]
  | fanOut {fds : List UInt32} {b : WBuffer} {len : UInt32} {new : List Sqe} {evs : List Event}
      (h : fds.length % 2 ^ 16 ≠ 0) (hnew : FanOut me cur fds new)
      (hev : ∀ e ∈ evs, ∃ q n, e = .submit q n)
      (hops : new.map Sqe.op = fds.map fun fd => .writeFixed fd b.ptr len b.index)
      (hmine : ∀ q n, .submit q n ∈ evs → q ∈ new) :
      Called me cur nb outs (.writeMultiple (.init fds b len)) .pending
        (.writeMultiple (.pending (UInt16.ofNat fds.length) fds [] len b)) cur nb new evs
  | fanOne {n : UInt16} {fds : List UInt32} {faileds : List WriteResult} {len fd : UInt32}
      {b : WBuffer} (h : n ≠ 0) (hn : n - 1 ≠ 0) (hfd : fds[cur.responseGen.toNat]? = some fd)
      (hused : fd ≠ 0xFFFFFFFF) :
      Called me cur nb outs (.writeMultiple (.pending n fds faileds len b)) .pending
        (.writeMultiple (.pending (n - 1) (fds.set cur.responseGen.toNat 0xFFFFFFFF)
          (pushResult faileds fd cur.result len) len b)) cur nb [] []
  | fanLast {n : UInt16} {fds : List UInt32} {faileds : List WriteResult} {len fd : UInt32}
      {b : WBuffer} (h : n ≠ 0) (hn : n - 1 = 0) (hfd : fds[cur.responseGen.toNat]? = some fd)
      (hused : fd ≠ 0xFFFFFFFF) :
      Called me cur nb outs (.writeMultiple (.pending n fds faileds len b))
        (.ready (.wroteMultiple (pushResult faileds fd cur.result len))) .returned
        cur.setToNextTask (taskAugmente nb) [] []
  | resolve {v v' : Value} {out : Out} (h : Resolves cur v out v') :
      Called me cur nb outs v out v' cur nb [] []

/-- An SQE that `me` submits alone, where the task has the number `nb` before and `nb'` after: it
carries the number of the task, or a commit has set `MULTIPLE_MASK` in it that the task does not
have. -/
structure Submission (me : Caller) (nb nb' : UInt16) (q : Sqe) : Prop where
  caller : q.caller = me
  next : nb' = nb ∨ nb' = setMultiple nb
  same : isMultiple nb = true → q.nb = nb
  nb : q.nb = nb' ∨ q.nb = setMultiple nb' ∧ isMultiple nb' = false
  shots : q.op.isMultishot = true → isMultiple q.nb = true

section Submission

variable {me : Caller} {cur : TaskInfo} {nb : UInt16} {v v' : Value} {op : SqeOp} {q : Sqe}

theorem Sends.submission (h : Sends cur v op v') (hq : Stamped me cur op q)
    (hcur : cur.tag.syscallNb = nb) : Submission me nb nb q := by
  have hnb := hq.nb.trans hcur
  refine ⟨hq.caller, .inl rfl, fun _ => hnb, .inl hnb, fun hm => ?_⟩
  rw [hq.op, h.single] at hm
  cases hm

theorem Stamped.submission_opens (hq : Stamped me cur.multiple op q)
    (hcur : cur.tag.syscallNb = nb) : Submission me nb (setMultiple nb) q := by
  have hnb : q.nb = setMultiple nb := hq.nb.trans (congrArg setMultiple hcur)
  exact ⟨hq.caller, .inr rfl, fun hm => hnb.trans (setMultiple_of_isMultiple hm), .inl hnb,
    fun _ => hnb ▸ isMultiple_setMultiple nb⟩

theorem Stamped.submission_commit (hq : Stamped me cur.multiple op q)
    (hcur : cur.tag.syscallNb = nb) : Submission me nb nb q := by
  have hnb : q.nb = setMultiple nb := hq.nb.trans (congrArg setMultiple hcur)
  refine ⟨hq.caller, .inl rfl, fun hm => hnb.trans (setMultiple_of_isMultiple hm), ?_,
    fun _ => hnb ▸ isMultiple_setMultiple nb⟩
  cases hm : isMultiple nb with
  | true => exact .inl (hnb.trans (setMultiple_of_isMultiple hm))
  | false => exact .inr ⟨hnb, rfl⟩

end Submission

/-- The context in which a completion is delivered. -/
def Cqe.context (e : Cqe) : SyscallNbCompResult → TaskInfo
  | .normal => { TaskInfo.fromEntry e with
      tag.syscallNb := (TaskInfo.fromEntry e).tag.syscallNb + 1 }
  | _ => .fromEntry e

/-- A completion that reaches a task which is not being polled, with its classification and the
numbers of the other outstanding SQEs. -/
structure Arrives (V : View σ) (e : Cqe) (cls : SyscallNbCompResult) (others : List UInt16) :
    Prop where
  off : V.phase = .off
  live : V.freed = false
  mem : e.sqe ∈ V.outs
  shots : more e.flags = true → e.sqe.op.isMultishot = true
  cls : cls = evaluateSyscallNb V.nb e.sqe.nb
  others : (others : Multiset UInt16) = (V.outs.erase e.sqe).map Sqe.nb

theorem View.mem_of_answered {V : View σ} {e : Cqe} {q : Sqe} (h : q ∈ V.answered e) :
    q ∈ V.outs := by
  unfold View.answered at h
  split at h
  · exact h
  · exact Multiset.mem_of_mem_erase h

/-- A task takes the completions that carry its number. -/
theorem Arrives.nb_eq {V : View σ} {e : Cqe} {cls : SyscallNbCompResult} {others : List UInt16}
    (h : Arrives V e cls others) (hcls : cls = .normal ∨ cls = .multiple) : e.sqe.nb = V.nb := by
  rw [h.cls] at hcls
  exact (evaluate_accepts_iff V.nb e.sqe.nb).mp hcls

theorem Arrives.cls_eq {V : View σ} {e : Cqe} {cls : SyscallNbCompResult} {others : List UInt16}
    (h : Arrives V e cls others) (hcls : cls = .normal ∨ cls = .multiple) :
    cls = if isMultiple V.nb then .multiple else .normal := by
  rw [h.cls, h.nb_eq hcls, evaluate_of_eq]

/-- While a completion is handled, `CURRENT_TASK` has the number of the task. -/
theorem Arrives.context_nb {V : View σ} {e : Cqe} {cls : SyscallNbCompResult} {others : List UInt16}
    (h : Arrives V e cls others) (hcls : cls = .normal ∨ cls = .multiple) :
    (e.context cls).tag.syscallNb = if cls = .normal then taskAugmente V.nb else V.nb := by
  have hnb : (TaskInfo.fromEntry e).tag.syscallNb = V.nb := h.nb_eq hcls
  have heq := h.cls_eq hcls
  cases hm : isMultiple V.nb with
  | true =>
    rw [hm] at heq
    subst heq
    exact hnb
  | false =>
    rw [hm] at heq
    subst heq
    show (TaskInfo.fromEntry e).tag.syscallNb + 1 = taskAugmente V.nb
    rw [hnb, (taskAugmente_of_not_multiple hm).1]

theorem Cqe.context_result (e : Cqe) (cls : SyscallNbCompResult) :
    (e.context cls).result = e.result ∧ (e.context cls).flags = e.flags := by
  cases cls <;> exact ⟨rfl, rfl⟩

/-- Polling a value records submissions only. -/
theorem Called.submits {me : Caller} {cur cur' : TaskInfo} {nb nb' : UInt16} {outs : Multiset Sqe}
    {v v' : Value} {out : Out} {new : List Sqe} {evs : List Event}
    (h : Called me cur nb outs v out v' cur' nb' new evs) : ∀ e ∈ evs, ∃ q n, e = .submit q n := by
  cases h with
  | send | opens | commit => exact fun e he => ⟨_, _, List.mem_singleton.mp he⟩
  | fanOut h hnew hev => exact hev
  | fanOne | fanLast | resolve => exact fun e he => nomatch he

/-- What it submits, it submits itself. -/
theorem Called.callers {me : Caller} {cur cur' : TaskInfo} {nb nb' : UInt16} {outs : Multiset Sqe}
    {v v' : Value} {out : Out} {new : List Sqe} {evs : List Event}
    (h : Called me cur nb outs v out v' cur' nb' new evs) : ∀ q ∈ new, q.caller = me := by
  cases h with
  | send h hq | opens h hq | commit h hq =>
    exact fun q hmem => List.mem_singleton.mp hmem ▸ hq.caller
  | fanOut h hnew => exact hnew.caller
  | fanOne | fanLast | resolve => exact fun q hmem => nomatch hmem

theorem Called.mem_new {me : Caller} {cur cur' : TaskInfo} {nb nb' : UInt16} {outs : Multiset Sqe}
    {v v' : Value} {out : Out} {new : List Sqe} {evs : List Event}
    (h : Called me cur nb outs v out v' cur' nb' new evs) {q : Sqe} {n : Nat}
    (he : .submit q n ∈ evs) : q ∈ new := by
  cases h with
  | send | opens | commit =>
    obtain ⟨rfl, -⟩ := Event.submit.inj (List.mem_singleton.mp he)
    exact List.mem_singleton_self _
  | fanOut h hnew hev hops hmine => exact hmine q n he
  | fanOne | fanLast | resolve => cases he

theorem Called.inner {me : Caller} {cur cur' : TaskInfo} {nb nb' : UInt16} {outs : Multiset Sqe}
    {v v' : Value} {out : Out} {new : List Sqe} {evs : List Event}
    (h : Called me cur nb outs v out v' cur' nb' new evs) (w : Var) (val : Value) (info : TaskInfo)
    (n : Nat) (r : Option Resp) : ∀ e ∈ evs ++ [.call w val info n r], e.inner = true := by
  intro e he
  rcases List.mem_append.mp he with he | he
  · obtain ⟨q, n, rfl⟩ := h.submits e he
    rfl
  · rw [List.mem_singleton.mp he]
    rfl

/-- One step of the task `p`. -/
inductive TaskStep (code : Code σ) (p : TaskPtr) : View σ → View σ → Prop where
  | locals {V : View σ} {cur : TaskInfo} {x y : σ} {L L' : List (Option Value)}
      (hon : V.phase = .on cur) (hb : V.block = ⟨some x, L⟩) (h : LocalStep L (code x) y L') :
      TaskStep code p V { V with block := ⟨some y, L'⟩ }
  | spawn {V : View σ} {cur : TaskInfo} {x child k : σ} {L L' taken : List (Option Value)}
      {moved : List (Kind × Var)} (hon : V.phase = .on cur) (hb : V.block = ⟨some x, L⟩)
      (hx : code x = .spawn child moved k) (hm : Moves L moved taken L') :
      TaskStep code p V { V with block := ⟨some k, L'⟩ }
  | call {V : View σ} {cur cur' : TaskInfo} {x : σ} {L : List (Option Value)} {v : Var}
      {k : Option Resp → σ} {val val' : Value} {out : Out} {nb' : UInt16} {new : List Sqe}
      {evs : List Event} (hon : V.phase = .on cur) (hb : V.block = ⟨some x, L⟩)
      (hx : code x = .poll v k) (hv : L[v]? = some (some val))
      (h : Called ⟨p, v⟩ cur V.nb V.outs val out val' cur' nb' new evs) :
      TaskStep code p V { V with
        nb := nb'
        outs := V.outs + (new : Multiset Sqe)
        phase := .on cur'
        block := ⟨some (k (out.resp L.length)), out.bind (L.set v (some val'))⟩
        log := V.log ++ evs ++
          [.call v val cur (V.rivals cur.tag.syscallNb) (out.resp L.length)] }
  | suspend {V : View σ} {cur : TaskInfo} {x k : σ} {L : List (Option Value)}
      (hon : V.phase = .on cur) (hb : V.block = ⟨some x, L⟩) (hx : code x = .suspend k) :
      TaskStep code p V { V with block := ⟨some k, L⟩, phase := .over .pending }
  | ret {V : View σ} {cur : TaskInfo} {x : σ} {L : List (Option Value)}
      (hon : V.phase = .on cur) (hb : V.block = ⟨some x, L⟩) (hx : code x = .ret) :
      TaskStep code p V { V with
        block := ⟨none, []⟩, phase := .over (.ready ()), log := V.log ++ [.ready (V.rivals V.nb)] }
  | leave {V : View σ} {r : Poll Unit} (hover : V.phase = .over r) (hlive : V.freed = false) :
      TaskStep code p V (View.settle { V with phase := .off })
  | skip {V : View σ} {e : Cqe} {others : List UInt16} (h : Arrives V e .expired others) :
      TaskStep code p V (View.settle { V with
        outs := V.answered e, log := V.log ++ [.cqe e .expired others] })
  | accept {V : View σ} {e : Cqe} {cls : SyscallNbCompResult} {others : List UInt16}
      (h : Arrives V e cls others) (hcls : cls = .normal ∨ cls = .multiple) :
      TaskStep code p V { V with
        nb := if cls = .normal then taskAugmente V.nb else V.nb
        outs := V.answered e
        phase := .on (e.context cls)
        log := V.log ++ [.cqe e cls others, .poll (e.context cls)] }

/-- Where a new task comes from: the program, or the block of a task that runs. -/
inductive Born (code : Code σ) (views : TaskPtr → View σ) : View σ → Prop where
  | main (i : SlabIdx) {x : σ} (hx : code.entry x = true) : Born code views (.born i x [])
  | spawn {p : TaskPtr} {cur : TaskInfo} {x child k : σ} {L L' taken : List (Option Value)}
      {moved : List (Kind × Var)} (i : SlabIdx) (hon : (views p).phase = .on cur)
      (hb : (views p).block = ⟨some x, L⟩) (hx : code x = .spawn child moved k)
      (hm : Moves L moved taken L') : Born code views (.born i child taken)

/-! ## What a change leaves of the other views -/

section Own

variable {c c' : Core} {p t : TaskPtr}

theorem mem_own {q : Sqe} : q ∈ c.own p ↔ q ∈ c.outstanding ∧ q.caller.task = p := by
  simp [Core.own]

theorem own_congr (h : c'.outstanding.Perm c.outstanding) (p : TaskPtr) : c'.own p = c.own p :=
  Multiset.coe_eq_coe.mpr (h.filter _)

theorem rivals_own (c : Core) (p : TaskPtr) (nb : UInt16) :
    c.rivals p nb = (c.own p).countP fun q => q.nb = nb := by
  unfold Core.own
  rw [Multiset.coe_countP, List.countP_filter, Core.rivals]
  exact List.countP_congr fun q _ => by rw [Bool.and_comm]; rfl

theorem Effect.own {k : Nat} {new : List Sqe} {evs : List Event} (h : Effect t c c' k new evs)
    (p : TaskPtr) : c'.own p = c.own p + if p = t then (new : Multiset Sqe) else 0 := by
  have hperm := h.perm.filter fun q => decide (q.caller.task = p)
  rw [List.filter_append] at hperm
  unfold Core.own
  rw [Multiset.coe_eq_coe.mpr hperm, ← Multiset.coe_add]
  congr 1
  split
  · rename_i hp
    rw [List.filter_eq_self.mpr]
    intro q hq
    simp [(h.mine q hq).1, hp]
  · rename_i hp
    rw [List.filter_eq_nil_iff.mpr]
    · rfl
    · intro q hq
      simp [(h.mine q hq).1, Ne.symm hp]

theorem own_release (c : Core) (t : TaskPtr) (n : Nat) (p : TaskPtr) :
    (c.release t n).own p = c.own p := by
  unfold Core.own
  rw [release_outstanding]

/-- The last completion of an SQE takes it off its task's outstanding ones. -/
theorem own_take {e : Cqe} {cq : List Cqe} (hin : e.sqe ∈ c.inflight) (p : TaskPtr) :
    (c.take e cq).own p =
      if p = e.sqe.caller.task ∧ more e.flags = false then (c.own p).erase e.sqe else c.own p := by
  cases hm : more e.flags with
  | true =>
    unfold Core.own
    rw [take_outstanding_of_more hm]
    simp
  | false =>
    have hperm := (take_perm cq hin hm).filter fun q => decide (q.caller.task = p)
    have hown : c.own p = (List.filter (fun q => decide (q.caller.task = p))
        (e.sqe :: (c.take e cq).outstanding) : List Sqe) := Multiset.coe_eq_coe.mpr hperm
    by_cases hp : p = e.sqe.caller.task
    · rw [if_pos ⟨hp, rfl⟩, hown, List.filter_cons_of_pos (by simp [hp]), ← Multiset.cons_coe,
        Multiset.erase_cons_head]
      rfl
    · rw [if_neg (fun h => hp h.1), hown, List.filter_cons_of_neg (by simp [Ne.symm hp])]
      rfl

/-- The numbers of a task's other outstanding SQEs, as the log has them. -/
theorem others_eq (hr : RingInv c) {e : Cqe} {cq : List Cqe} (hin : e.sqe ∈ c.inflight)
    (p : TaskPtr) :
    (((c.take e cq).others p e.sqe : List UInt16) : Multiset UInt16) =
      ((c.own p).erase e.sqe).map Sqe.nb := by
  have hmem : e.sqe ∈ c.outstanding := mem_outstanding_of_inflight hin
  have hnd : c.outstanding.Nodup := List.Nodup.of_map _ hr.ids
  have hinj : ∀ q ∈ c.outstanding, q.id = e.sqe.id → q = e.sqe := fun q hq hid =>
    List.inj_on_of_nodup_map hr.ids hq hmem hid
  have herase : (c.own p).erase e.sqe =
      ((c.take e cq).outstanding.filter fun q => q.caller.task = p && q.id != e.sqe.id :
        List Sqe) := by
    unfold Core.own
    rw [Multiset.coe_erase]
    refine Multiset.coe_eq_coe.mpr ((List.perm_ext_iff_of_nodup ?_ ?_).mpr fun q => ?_)
    · exact (hnd.filter _).erase _
    · refine List.Nodup.filter _ ?_
      cases hm : more e.flags with
      | true => rwa [take_outstanding_of_more hm]
      | false => exact (List.nodup_cons.mp ((take_perm cq hin hm).nodup_iff.mp hnd)).2
    · rw [(hnd.filter _).mem_erase_iff]
      simp only [List.mem_filter, decide_eq_true_eq, Bool.and_eq_true, bne_iff_ne, ne_eq]
      constructor
      · rintro ⟨hne, hq, htask⟩
        refine ⟨?_, htask, fun hid => hne (hinj q hq hid)⟩
        cases hm : more e.flags with
        | true => rwa [take_outstanding_of_more hm]
        | false =>
          rcases List.mem_cons.mp ((take_perm cq hin hm).mem_iff.mp hq) with rfl | hq
          · exact absurd rfl hne
          · exact hq
      · rintro ⟨hq, htask, hid⟩
        exact ⟨fun heq => hid (heq ▸ rfl), take_outstanding_subset hq, htask⟩
  rw [herase]
  rfl

end Own

/-! ## A step of the machine is a step of one task -/

section Step

variable {code : Code σ} {c c' : Core} {fut : TaskPtr → AsyncBlock σ} {st : List Frame}
  {p t : TaskPtr} {W : TaskPtr → Nat}

theorem stamped_nextEntry (c : Core) (me : Caller) (op : SqeOp) (info : TaskInfo) :
    Stamped me info op (c.nextEntry me op info.payload.intoUserData false) :=
  ⟨rfl, rfl, Core.payload_nextEntry c me op info.payload false⟩

/-- Polling a value, from the side of the task. -/
theorem Polled.called {v : Var} {val val' : Value} {out : Out}
    (h : Polled ⟨p, v⟩ c val out val' c') :
    ∃ k new evs, Called ⟨p, v⟩ c.current (c.stored p) (c.own p) val out val' c'.current
      (c'.stored p) new evs ∧ Effect p c c' k new evs := by
  cases h with
  | @send _ _ op h =>
    have hq := stamped_nextEntry c ⟨p, v⟩ op c.current
    refine ⟨_, _, _, ?_, .sendOne c ⟨p, v⟩ op⟩
    have hst : (c.sendOne ⟨p, v⟩ op).stored p = c.stored p := by
      simp [Core.sendOne, Core.push, Core.bump, Core.logAt, Core.stored]
    rw [hst, rivals_own, ← hq.nb]
    exact .send h hq
  | @opens _ _ op h =>
    have hq := stamped_nextEntry c ⟨p, v⟩ op c.current.multiple
    refine ⟨_, _, _, ?_, .sendMultishot c ⟨p, v⟩ op⟩
    have hst : (c.sendMultishot ⟨p, v⟩ op).stored p = setMultiple (c.stored p) := by
      simp [Core.sendMultishot, Core.setMultipleCurrent, Core.mapNb, Core.push, Core.bump,
        Core.logAt, Core.stored]
    rw [hst, rivals_own, ← show _ = setMultiple c.current.tag.syscallNb from hq.nb]
    exact .opens h hq
  | @commit _ _ op h =>
    have hq := stamped_nextEntry c ⟨p, v⟩ op c.current.multiple
    refine ⟨_, _, _, ?_, .sendCommit c ⟨p, v⟩ op⟩
    have hst : (c.sendCommit ⟨p, v⟩ op).stored p = c.stored p := by
      simp [Core.sendCommit, Core.setMultipleCurrent, Core.sendOne, Core.push, Core.bump,
        Core.logAt, Core.stored]
    rw [hst, rivals_own, ← show _ = setMultiple c.current.tag.syscallNb from hq.nb]
    exact .commit h hq
  | fanOut fds b len h =>
    obtain ⟨new, evs, hgen, hops, hbatch, hev, hcur, hst, heff⟩ := Effect.fanOut c ⟨p, v⟩ b len fds
    refine ⟨_, new, evs, ?_, heff⟩
    rw [hcur, show (c.fanOut ⟨p, v⟩ b len fds).stored p = c.stored p from hst]
    have hsub : ∀ e ∈ evs, ∃ q n, e = .submit q n := fun e he => by
      obtain ⟨q, n, heq, -⟩ := hev e he
      exact ⟨q, n, heq⟩
    have hmine : ∀ q n, .submit q n ∈ evs → q ∈ new := fun q n he => by
      obtain ⟨q', n', heq, hq⟩ := hev _ he
      obtain ⟨rfl, -⟩ := Event.submit.inj heq
      exact hq
    exact .fanOut h ⟨fun q hq => (hbatch q hq).caller, fun q hq => (hbatch q hq).syscallNb,
      fun q hq => (hbatch q hq).single, fun q hq => (hbatch q hq).plain, hgen⟩ hsub hops hmine
  | fanOne h hn hfd hused => exact ⟨_, _, _, .fanOne h hn hfd hused, .refl _ _⟩
  | fanLast h hn hfd hused =>
    refine ⟨_, _, _, ?_, .advance c p⟩
    have hst : (c.advance p).stored p = taskAugmente (c.stored p) := by
      simp [Core.advance, Core.mapNb, Core.stored]
    rw [hst]
    exact .fanLast h hn hfd hused
  | resolve h => exact ⟨_, _, _, .resolve h, .refl _ _⟩

/-- A view is made of six parts. -/
theorem view_congr {g g' : Config σ} (hcell : g'.core.cell p = g.core.cell p)
    (hown : g'.core.own p = g.core.own p) (hfut : g'.fut p = g.fut p)
    (hph : phaseOf g'.core.current g'.stack p = phaseOf g.core.current g.stack p) :
    g'.view p = g.view p := by
  simp only [Config.view, Core.stored, hcell, hown, hfut, hph]

theorem phaseOf_top (cur : TaskInfo) {role : Role} {r : Option (Poll Unit)} :
    phaseOf cur (⟨p, role, r⟩ :: st) p = match r with
      | none => .on cur
      | some r => .over r := by
  simp [phaseOf]

/-- A frame of another task: only the context it saved matters. -/
theorem phaseOf_ne {cur : TaskInfo} {f : Frame} (h : f.task ≠ p) :
    phaseOf cur (f :: st) p = match f.role with
      | .spawn old => phaseOf old st p
      | .handle _ => .off := by
  simp [phaseOf, h]

theorem phaseOf_eq_off {cur : TaskInfo} (h : p ∉ st.map Frame.task) : phaseOf cur st p = .off := by
  induction st generalizing cur with
  | nil => rfl
  | cons f st ih =>
    rw [List.map_cons, List.mem_cons, not_or] at h
    rw [phaseOf_ne (Ne.symm h.1)]
    cases f.role with
    | spawn old => exact ih h.2
    | handle _ => rfl

/-- The block on top makes a step: its own view changes, and no other. -/
theorem view_ne_of_effect {k : Nat} {new : List Sqe} {evs : List Event}
    (he : Effect t c c' k new evs) {role : Role} {r r' : Option (Poll Unit)} {b : AsyncBlock σ}
    (hp : p ≠ t) :
    (⟨c', Function.update fut t b, ⟨t, role, r'⟩ :: st⟩ : Config σ).view p =
      (⟨c, fut, ⟨t, role, r⟩ :: st⟩ : Config σ).view p := by
  refine view_congr (he.others p hp) ?_ (Function.update_of_ne hp ..) ?_
  · show c'.own p = c.own p
    rw [he.own, if_neg hp, Multiset.add_zero]
  · rw [phaseOf_ne (Ne.symm hp), phaseOf_ne (Ne.symm hp)]

/-- Releasing references changes the view of the task they refer to, and no other. -/
theorem view_ne_of_release {n : Nat} (cur : TaskInfo) {st' : List Frame}
    (hph : phaseOf cur st' p = phaseOf c.current st p) (hp : p ≠ t) :
    (⟨{ c.release t n with current := cur }, dropFut c t n fut, st'⟩ : Config σ).view p =
      (⟨c, fut, st⟩ : Config σ).view p := by
  refine view_congr (release_cell_ne hp) (own_release c t n p) ?_ hph
  show dropFut c t n fut p = fut p
  unfold dropFut
  split
  · exact Function.update_of_ne hp ..
  · rfl

theorem release_freed (hlive : (c.cell t).freed = false) (n : Nat) :
    ((c.release t n).cell t).freed = c.frees t n := by
  by_cases hf : c.frees t n = true
  · simp [Core.release, hf]
  · simp [Core.release, hf, hlive]

/-- The view of a task whose references are released, when its poll is over: it is settled, unless
it is held from outside. -/
theorem view_release {n : Nat} {cur : TaskInfo} (hlive : (c.cell t).freed = false)
    (hoff : t ∉ st.map Frame.task) (hinv : Inv { c.release t n with current := cur } st W) :
    (⟨{ c.release t n with current := cur }, dropFut c t n fut, st⟩ : Config σ).view t =
      View.settleUnless {
        nb := c.stored t, outs := c.own t, block := fut t, log := (c.cell t).log
        phase := .off, freed := false } (W t) := by
  have hiff : c.frees t n = true ↔ c.own t = 0 ∧ W t = 0 := by
    rw [← release_freed hlive, show ((c.release t n).cell t).freed = true ↔ _ from
      hinv.freed_iff_refs t, Multiset.eq_zero_iff_forall_notMem]
    simp only [mem_own, not_and]
    show (∀ q ∈ (c.release t n).outstanding, _) ∧ _ ↔ _
    rw [release_outstanding]
    refine and_congr_right fun _ => and_iff_right ?_
    rintro f hf rfl
    exact hoff (List.mem_map_of_mem hf)
  have hown : Core.own { c.release t n with current := cur } t = c.own t := own_release c t n t
  have hph : phaseOf cur st t = .off := phaseOf_eq_off hoff
  simp only [Config.view, hown, hph, View.settleUnless, View.settle, dropFut, Core.stored]
  by_cases hf : c.frees t n = true
  · rw [if_pos (hiff.mp hf).2, if_pos (hiff.mp hf).1, if_pos hf, Function.update_self]
    simp [Core.release, hf]
  · have hkeep : ∀ V V' : View σ, (if W t = 0 then if c.own t = 0 then V' else V else V) = V := by
      intro V V'
      by_cases hW : W t = 0
      · rw [if_pos hW, if_neg fun h => hf (hiff.mpr ⟨h, hW⟩)]
      · rw [if_neg hW]
    rw [hkeep, if_neg hf]
    simp [Core.release, hf, hlive]

theorem logAt_cell_ne (c : Core) (hp : p ≠ t) (e : Event) : (c.logAt t e).cell p = c.cell p :=
  Core.modifyCell_ne c _ hp

theorem Inv.own_fresh (h : Inv c st W) : c.own c.spawned = 0 := by
  refine Multiset.eq_zero_of_forall_notMem fun q hq => ?_
  obtain ⟨hmem, htask⟩ := mem_own.mp hq
  exact Nat.lt_irrefl _ (htask ▸ h.slab.lt_spawned (h.owner_slot hmem).2)

/-- The view of a task that is created. -/
theorem Inv.view_enter (h : Inv c st W) {st' : List Frame} {i : SlabIdx} {x : σ} {role : Role}
    {L : List (Option Value)} : (⟨c.enter i L, Function.update fut c.spawned ⟨some x, L⟩,
      ⟨c.spawned, role, none⟩ :: st'⟩ : Config σ).view c.spawned = .born i x L := by
  have hown : (c.enter i L).own c.spawned = 0 := h.own_fresh
  simp only [Config.view, View.born, hown, phaseOf_top, Function.update_self, Core.stored]
  simp [Core.enter]

/-- The other tasks do not see it. -/
theorem view_enter_ne {i : SlabIdx} {L : List (Option Value)} {b : AsyncBlock σ}
    (hp : p ≠ c.spawned) : (⟨c.enter i L, Function.update fut c.spawned b,
      ⟨c.spawned, .spawn c.current, none⟩ :: st⟩ : Config σ).view p =
      (⟨c, fut, st⟩ : Config σ).view p :=
  view_congr (Function.update_of_ne hp ..) rfl (Function.update_of_ne hp ..)
    (phaseOf_ne (Ne.symm hp))

/-- A task is created in a slot that was free. -/
theorem Step.created {g g' : Config σ} (hs : Step code g g') {p : TaskPtr}
    (hge : g.core.spawned ≤ p) (hlt : p < g'.core.spawned) :
    ∃ i, g.core.slots i = none ∧ (g'.core.cell p).slabIdx = some i ∧
      (g'.core.cell p).freed = false := by
  have hold : ∀ {c c' : Core}, c'.spawned = c.spawned → c.spawned ≤ p → p < c'.spawned → False :=
    fun heq h1 h2 => Nat.not_lt.mpr h1 (heq ▸ h2)
  have henter : ∀ {c : Core} {i : SlabIdx} {L : List (Option Value)}, c.spawned ≤ p →
      p < (c.enter i L).spawned →
      ((c.enter i L).cell p).slabIdx = some i ∧ ((c.enter i L).cell p).freed = false :=
    fun {c i L} h1 h2 => by
    obtain rfl : p = c.spawned := Nat.le_antisymm (Nat.le_of_lt_succ h2) h1
    simp [Core.enter]
  cases hs with
  | spawn hf hx hm hi => exact ⟨_, hi, henter hge hlt⟩
  | main _ hi => exact ⟨_, hi, henter hge hlt⟩
  | poll hf hx hv h =>
    obtain ⟨_, _, _, -, heff⟩ := h.effect
    exact (hold (heff.trans (.logAt _ _ rfl)).spawned hge hlt).elim
  | spawnEnd => exact (hold (release_spawned ..) hge hlt).elim
  | @skip c _ e cq t _ _ _ =>
    exact (hold (release_spawned ((c.take e cq).logAt t _) ..) hge hlt).elim
  | handleEnd => exact (hold (release_spawned ..) hge hlt).elim
  | handle he hp hcls =>
    rcases hcls with hcls | hcls <;> rw [hcls] at hlt <;> exact (hold rfl hge hlt).elim
  | locals | suspend | ret | submit | consume | complete | free => exact (hold rfl hge hlt).elim

/-- Each task has one poll in progress at most. -/
theorem Step.nodup {g g' : Config σ} (hs : Step code g g') (hinv : Inv g.core g.stack W)
    (h : (g.stack.map Frame.task).Nodup) : (g'.stack.map Frame.task).Nodup := by
  cases hs with
  | spawn =>
    refine List.nodup_cons.mpr ⟨fun hmem => ?_, h⟩
    obtain ⟨f, hf, heq⟩ := List.mem_map.mp hmem
    have hlt := hinv.slab.lt_spawned (hinv.live_of_mem hf)
    exact Nat.lt_irrefl _ (heq ▸ hlt)
  | spawnEnd => exact (List.nodup_cons.mp h).2
  | main | handle => exact List.nodup_singleton _
  | handleEnd | skip | submit | consume | complete | free => exact List.nodup_nil
  | locals | poll | suspend | ret => exact h

/-- The view of a task whose completion is taken off the ring. -/
theorem arrives {g : Config σ} {e : Cqe} {cq : List Cqe} (hinv : Inv g.core g.stack W)
    (hst : g.stack = []) (he : g.core.cq = e :: cq)
    (hp : g.core.slots e.sqe.payload.taskIdx = some p) :
    Arrives (g.view p) e (evaluateSyscallNb (g.core.stored p) e.sqe.payload.syscallNb)
        ((g.core.take e cq).others p e.sqe) ∧
      (g.core.take e cq).own p = (g.view p).answered e := by
  obtain ⟨howner, hlive⟩ := hinv.cqe_owner he hp
  have hin := hinv.ring.head_inflight he
  refine ⟨⟨by simp [Config.view, hst, phaseOf], hlive, ?_, ?_, rfl, ?_⟩, ?_⟩
  · exact mem_own.mpr ⟨mem_outstanding_of_inflight hin, howner.symm⟩
  · exact hinv.ring.shots e (he ▸ List.mem_cons_self)
  · exact others_eq hinv.ring hin p
  · rw [own_take hin, View.answered]
    cases more e.flags <;> simp [howner, Config.view]

/-- A completion that another task gets. -/
theorem own_take_ne {e : Cqe} {cq : List Cqe} (hinv : Inv c st W) (he : c.cq = e :: cq)
    (ht : t = e.sqe.caller.task) (hp : p ≠ t) : (c.take e cq).own p = c.own p := by
  rw [own_take (hinv.ring.head_inflight he), if_neg]
  rintro ⟨h, -⟩
  exact hp (h.trans ht.symm)

section Accept

variable (c : Core) (e : Cqe) (cls : SyscallNbCompResult) (t p : TaskPtr)

theorem accept_cell : (c.accept p e cls).cell p =
    { c.cell p with
      refCounter := (c.cell p).refCounter + 1
      syscallNb := if cls = .normal then taskAugmente (c.cell p).syscallNb else (c.cell p).syscallNb
      log := (c.cell p).log ++ [.cqe e cls (c.others p e.sqe), .poll (e.context cls)] } := by
  cases cls <;> simp [Core.accept, Core.deliver, Core.logAt, Core.bump, Core.mapNb, Cqe.context]

theorem accept_cell_ne {t p : TaskPtr} (hp : p ≠ t) : (c.accept t e cls).cell p = c.cell p := by
  cases cls <;> simp [Core.accept, Core.deliver, Core.logAt, Core.bump, Core.mapNb,
    Core.modifyCell, Function.update_of_ne hp]

theorem accept_own : (c.accept t e cls).own p = c.own p := by
  cases cls <;> rfl

theorem accept_current : (c.accept t e cls).current = e.context cls := by
  cases cls <;> rfl

end Accept

/-- The view of a task that a completion polls. -/
theorem view_accept {c : Core} {e : Cqe} {cq : List Cqe} {cls : SyscallNbCompResult} {role : Role}
    (hown : (c.take e cq).own p = View.answered ((⟨c, fut, []⟩ : Config σ).view p) e) :
    (⟨(c.take e cq).accept p e cls, fut, [⟨p, role, none⟩]⟩ : Config σ).view p =
      { (⟨c, fut, []⟩ : Config σ).view p with
        nb := if cls = .normal then taskAugmente (c.stored p) else c.stored p
        outs := ((⟨c, fut, []⟩ : Config σ).view p).answered e
        phase := .on (e.context cls)
        log := (c.cell p).log ++ [.cqe e cls ((c.take e cq).others p e.sqe),
          .poll (e.context cls)] } := by
  have hcell := accept_cell (c.take e cq) e cls p
  refine View.ext ?_ ((accept_own _ e _ p p).trans hown) rfl ?_ ?_ ?_
  · show (Core.cell _ p).syscallNb = _
    rw [hcell]
    rfl
  · show (Core.cell _ p).log = _
    rw [hcell]
    rfl
  · show phaseOf _ _ p = _
    rw [phaseOf_top, accept_current]
  · show (Core.cell _ p).freed = _
    rw [hcell]
    rfl

/-- The view of a task that skips a completion. -/
theorem Inv.view_skip {c : Core} (hinv : Inv c st W) {e : Cqe} {cq : List Cqe} {ev : Event}
    {n : Nat} (he : c.cq = e :: cq) (ht : c.slots e.sqe.payload.taskIdx = some p)
    (hown : (c.take e cq).own p = View.answered ((⟨c, fut, []⟩ : Config σ).view p) e)
    (hinv' : Inv (((c.take e cq).logAt p ev).release p n) [] W) :
    (⟨((c.take e cq).logAt p ev).release p n, dropFut ((c.take e cq).logAt p ev) p n fut, []⟩ :
      Config σ).view p = View.settleUnless { (⟨c, fut, []⟩ : Config σ).view p with
        outs := ((⟨c, fut, []⟩ : Config σ).view p).answered e
        log := (c.cell p).log ++ [ev] } (W p) := by
  have hlive := (hinv.cqe_owner he ht).2
  have hcell : ((c.take e cq).logAt p ev).cell p =
      { c.cell p with log := (c.cell p).log ++ [ev] } := Core.modifyCell_self ..
  have hown' : ((c.take e cq).logAt p ev).own p = _ := hown
  refine (view_release (hcell ▸ hlive) List.not_mem_nil hinv').trans
    (congrArg (View.settleUnless · (W p)) ?_)
  refine View.ext ?_ hown' rfl ?_ rfl hlive.symm
  · rw [Core.stored, hcell]
    rfl
  · rw [hcell]

theorem dropFut_logAt_take (c : Core) (e : Cqe) (cq : List Cqe) (t : TaskPtr) (ev : Event)
    (n : Nat) : dropFut c t n fut = dropFut ((c.take e cq).logAt t ev) t n fut := by
  simp [dropFut, Core.frees, Core.logAt, Core.take]

/-- A step of a task that is held from outside: it is not freed at the end of its poll, or when a
completion is skipped. -/
inductive HeldStep : View σ → View σ → Prop where
  | leave {V : View σ} {r : Poll Unit} (hover : V.phase = .over r) :
      HeldStep V { V with phase := .off }
  | skip {V : View σ} {e : Cqe} {others : List UInt16} (h : Arrives V e .expired others) :
      HeldStep V { V with outs := V.answered e, log := V.log ++ [.cqe e .expired others] }

/-- The end of a poll. -/
theorem leave_held {V : View σ} {r : Poll Unit} (hover : V.phase = .over r)
    (hlive : V.freed = false) (n : Nat) :
    TaskStep code p V (View.settleUnless { V with phase := .off } n) ∨
      0 < n ∧ HeldStep V (View.settleUnless { V with phase := .off } n) := by
  unfold View.settleUnless
  by_cases hn : n = 0
  · rw [if_pos hn]
    exact .inl (.leave hover hlive)
  · rw [if_neg hn]
    exact .inr ⟨Nat.pos_of_ne_zero hn, .leave hover⟩

/-- A completion that is skipped. -/
theorem skip_held {V : View σ} {e : Cqe} {others : List UInt16}
    (h : Arrives V e .expired others) (n : Nat) : TaskStep code p V (View.settleUnless { V with
        outs := V.answered e, log := V.log ++ [.cqe e .expired others] } n) ∨
      0 < n ∧ HeldStep V (View.settleUnless { V with
        outs := V.answered e, log := V.log ++ [.cqe e .expired others] } n) := by
  unfold View.settleUnless
  by_cases hn : n = 0
  · rw [if_pos hn]
    exact .inl (.skip h)
  · rw [if_neg hn]
    exact .inr ⟨Nat.pos_of_ne_zero hn, .skip h⟩

/-- A step of the machine is a step of one task, or the birth of one; a task that is held from
outside is not freed by it. -/
theorem Step.view_held {g g' : Config σ} (hs : Step code g g') (hinv : Inv g.core g.stack W)
    (hnd : (g.stack.map Frame.task).Nodup) (p : TaskPtr) :
    g'.view p = g.view p ∨ TaskStep code p (g.view p) (g'.view p) ∨
      p = g.core.spawned ∧ Born code g.view (g'.view p) ∨ 0 < W p ∧
      HeldStep (g.view p) (g'.view p) := by
  have hinv' := Inv.step hs hinv
  -- a task that is released is freed, or held from outside
  have hheld : ∀ {V V' : View σ} {P Q : Prop}, V' = g'.view p →
      TaskStep code p V V' ∨ 0 < W p ∧ HeldStep V V' →
      P ∨ TaskStep code p V (g'.view p) ∨ Q ∨ 0 < W p ∧ HeldStep V (g'.view p) := by
    rintro V V' P Q rfl (h | h)
    · exact .inr (.inl h)
    · exact .inr (.inr (.inr h))
  cases hs with
  | @locals c fut st t role x y L L' hf h =>
    by_cases hp : p = t
    · subst hp
      have hstep : TaskStep code p _ _ :=
        .locals (V := Config.view ⟨c, fut, ⟨p, role, none⟩ :: st⟩ p) (phaseOf_top _) hf h
      refine .inr (.inl ?_)
      convert hstep using 1
      simp [Config.view, phaseOf]
    · exact .inl (view_ne_of_effect (.refl t c) hp)
  | @poll c c' fut st t role x L v k val val' out hf hx hv h =>
    obtain ⟨kk, new, evs, hcalled, heff⟩ := h.called
    have heff' := heff.trans (.logAt c' t (e := .call v val c.current
      (c.rivals t c.current.tag.syscallNb) (out.resp L.length)) rfl)
    by_cases hp : p = t
    · subst hp
      have hstep : TaskStep code p _ _ := .call (V := Config.view ⟨c, fut, ⟨p, role, none⟩ :: st⟩ p)
        (phaseOf_top _) hf hx hv hcalled
      refine .inr (.inl ?_)
      convert hstep using 1
      have hown := heff'.own p
      have hlog := heff'.log
      have hfreed := heff'.freed
      rw [if_pos rfl, List.append_nil] at hown
      rw [rivals_own] at hown hlog hfreed ⊢
      simp only [Config.view, phaseOf_top, hown, hlog, hfreed, Core.stored_logAt,
        Function.update_self, List.append_assoc]
      rfl
    · exact .inl (view_ne_of_effect heff' hp)
  | @suspend c fut st t role x k L hf hx =>
    by_cases hp : p = t
    · subst hp
      have hstep : TaskStep code p _ _ :=
        .suspend (V := Config.view ⟨c, fut, ⟨p, role, none⟩ :: st⟩ p) (phaseOf_top _) hf hx
      refine .inr (.inl ?_)
      convert hstep using 1
      simp [Config.view, phaseOf]
    · exact .inl (view_ne_of_effect (.refl t c) hp)
  | @ret c fut st t role x L hf hx =>
    by_cases hp : p = t
    · subst hp
      have hstep : TaskStep code p _ _ := .ret (V := Config.view ⟨c, fut, ⟨p, role, none⟩ :: st⟩ p)
        (phaseOf_top _) hf hx
      refine .inr (.inl ?_)
      convert hstep using 1
      rw [rivals_own]
      simp [Config.view, phaseOf, Core.logAt, Core.own, Core.stored, Core.outstanding,
        Core.modifyCell, View.rivals]
    · refine .inl (view_congr (logAt_cell_ne c hp _) rfl (Function.update_of_ne hp ..) ?_)
      rw [phaseOf_ne (Ne.symm hp), phaseOf_ne (Ne.symm hp)]
  | @spawn c fut st t role x child k L L' taken moved i hf hx hm hi =>
    have hlt : t < c.spawned := hinv.slab.lt_spawned hinv.live_top
    by_cases hnew : p = c.spawned
    · subst hnew
      refine .inr (.inr (.inl ⟨rfl, ?_⟩))
      rw [hinv.view_enter]
      exact .spawn i (phaseOf_top _) hf hx hm
    · rw [view_enter_ne hnew]
      by_cases hp : p = t
      · subst hp
        have hstep : TaskStep code p _ _ :=
          .spawn (V := Config.view ⟨c, fut, ⟨p, role, none⟩ :: st⟩ p) (phaseOf_top _) hf hx hm
        refine .inr (.inl ?_)
        convert hstep using 1
        simp [Config.view, phaseOf]
      · exact .inl (view_ne_of_effect (.refl t c) hp)
  | @main c fut x i hx hi =>
    by_cases hnew : p = c.spawned
    · subst hnew
      refine .inr (.inr (.inl ⟨rfl, ?_⟩))
      rw [hinv.view_enter]
      exact .main i hx
    · exact .inl (view_enter_ne hnew)
  | @spawnEnd c fut st t old r =>
    by_cases hp : p = t
    · subst hp
      have hlive : (c.cell p).freed = false := hinv.live_top
      refine hheld ?_ (leave_held (phaseOf_top c.current) hlive (W p))
      rw [view_release hlive (List.nodup_cons.mp hnd).1 hinv']
      simp [Config.view, hlive]
    · refine .inl (view_ne_of_release old ?_ hp)
      rw [phaseOf_ne (Ne.symm hp)]
  | @handleEnd c fut t final r =>
    by_cases hp : p = t
    · subst hp
      have hlive : (c.cell p).freed = false := hinv.live_top
      have hover : phaseOf c.current [⟨p, .handle final, some r⟩] p = .over r :=
        phaseOf_top c.current
      refine hheld ?_ (leave_held hover hlive (W p))
      refine Eq.symm ((view_release hlive List.not_mem_nil hinv').trans ?_)
      simp [Config.view, hlive]
    · refine .inl (view_ne_of_release (c.release t _).current ?_ hp)
      rw [phaseOf_ne (Ne.symm hp)]
      rfl
  | @skip c fut e cq t he ht hcls =>
    obtain ⟨howner, hlive⟩ := hinv.cqe_owner he ht
    obtain ⟨harr, hans⟩ := arrives hinv rfl he ht
    generalize hev : Event.cqe e .expired ((c.take e cq).others t e.sqe) = ev at hinv' hheld ⊢
    rw [dropFut_logAt_take c e cq t ev] at hheld ⊢
    by_cases hp : p = t
    · subst hp
      rw [show evaluateSyscallNb _ _ = .expired from hcls] at harr
      refine hheld ?_ (skip_held harr (W p))
      rw [hinv.view_skip he ht hans hinv', ← hev]
      rfl
    · have hlog : (⟨(c.take e cq).logAt t ev, fut, []⟩ : Config σ).view p =
          (⟨c, fut, []⟩ : Config σ).view p :=
        view_congr (logAt_cell_ne _ hp _) (own_take_ne hinv he howner hp) rfl rfl
      rw [← hlog]
      exact .inl (view_ne_of_release (Core.release _ t _).current rfl hp)
  | @handle c fut e cq t he ht hcls =>
    obtain ⟨howner, hlive⟩ := hinv.cqe_owner he ht
    obtain ⟨harr, hans⟩ := arrives hinv rfl he ht
    by_cases hp : p = t
    · subst hp
      refine .inr (.inl ?_)
      rw [view_accept hans]
      exact .accept harr hcls
    · refine .inl (view_congr (accept_cell_ne _ e _ hp) ?_ rfl (phaseOf_ne (Ne.symm hp)))
      exact (accept_own _ e _ t p).trans (own_take_ne hinv he howner hp)
  | @submit c fut h =>
    refine .inl (view_congr rfl (own_congr ?_ p) rfl rfl)
    simp only [Core.outstanding, List.nil_append]
    exact List.perm_append_comm.append_right _
  | @consume c fut q sq h =>
    refine .inl (view_congr rfl (own_congr ?_ p) rfl rfl)
    simp only [Core.outstanding, h, List.append_assoc]
    refine List.Perm.append_left _ ?_
    rw [← List.append_assoc]
    exact List.perm_append_comm
  | complete hq hlast hmore => exact .inl rfl
  | free => exact .inl rfl

/-- **A step of the machine is a step of one task**, or the birth of one. -/
theorem Step.view {g g' : Config σ} (hs : Step code g g') (hinv : Inv g.core g.stack)
    (hnd : (g.stack.map Frame.task).Nodup) (p : TaskPtr) :
    g'.view p = g.view p ∨ TaskStep code p (g.view p) (g'.view p) ∨
      p = g.core.spawned ∧ Born code g.view (g'.view p) := by
  obtain h | h | h | ⟨h, -⟩ := hs.view_held hinv hnd p
  · exact .inl h
  · exact .inr (.inl h)
  · exact .inr (.inr h)
  · exact (Nat.lt_irrefl 0 h).elim

end Step

end Onlyio
