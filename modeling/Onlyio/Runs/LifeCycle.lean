import Onlyio.Machine.Local
import Onlyio.Runs.Cancelled

/-!
# The life of a task

A task is created, polled once by `spawn`, and from then on polled once by each completion that
carries its number, in a context made of that completion; the calls of one poll pass the context on,
and change it only where they say so. `Life.next` is that protocol, one event after another, with
what the runtime keeps for a task: its number, the context and whether its block has returned.

* `Called.life`: polling a value changes the context and the number as the protocol says.
* `Lives.isLocal`: the history of a task follows the protocol, by its steps.
* **`life_cycle`**: in every reachable state the protocol, run on the history of a task, ends in the
  state that the task is in; the task was polled once at its birth and once for each completion it
  accepted.
* `Life.returned_skips`, `Life.gone_last`: what may follow `Ready`, and that nothing follows the
  drop of a future.
-/

namespace Onlyio

variable {σ : Type} {code : Code σ}

/-! ## The protocol -/

/-- Where the history of a task stands. -/
inductive Life where
  | unborn
  | created
  /-- Polled before and not freed: whether the block has returned, the number of the task, and the
  context that its last poll was left with. -/
  | alive (returned : Bool) (nb : UInt16) (cur : TaskInfo)
  /-- A completion was accepted and its poll follows. -/
  | due (nb : UInt16) (cur : TaskInfo)
  | gone
  deriving Repr, DecidableEq

/-- The context after a poll of the value that handed back `out`. -/
def Value.contextAfter (out : Option Resp) (cur : TaskInfo) : Value → TaskInfo
  | .acceptStream ⟨_, .init⟩ | .readStream ⟨_, .init⟩
  | .commitFn _ _ | .commit (.init _ _ _ _) => cur.multiple
  | .writeMultiple (.pending _ _ _ _ _) => if out.isSome then cur.setToNextTask else cur
  | _ => cur

/-- The number of the task after a poll of the value that handed back `out`. -/
def Value.numberAfter (out : Option Resp) (nb : UInt16) : Value → UInt16
  | .acceptStream ⟨_, .init⟩ | .readStream ⟨_, .init⟩ => setMultiple nb
  | .writeMultiple (.pending _ _ _ _ _) => if out.isSome then taskAugmente nb else nb
  | _ => nb

/-- After a completion, by its class. -/
def Life.completed (returned : Bool) (nb : UInt16) (cur : TaskInfo) (e : Cqe) :
    SyscallNbCompResult → Option Life
  | .expired => some (.alive returned nb cur)
  | .normal => if returned then none else some (.due (taskAugmente nb) (e.context .normal))
  | .multiple => if returned then none else some (.due nb (e.context .multiple))
  | .error => none

/-- After an event; `none` is an event that does not occur there. -/
def Life.next : Life → Event → Option Life
  | .unborn, .spawned _ => some .created
  | .created, .poll info =>
    if info = .initialPoll info.tag.taskIdx then some (.alive false 0 info) else none
  | .alive false nb cur, .submit _ _ => some (.alive false nb cur)
  | .alive false nb cur, .call _ val info _ out =>
    if info = cur then some
      (.alive false (val.numberAfter out nb) (val.contextAfter out cur)) else none
  | .alive false nb cur, .ready _ => some (.alive true nb cur)
  | .alive returned nb cur, .cqe e cls _ =>
    if cls = evaluateSyscallNb nb e.sqe.nb then Life.completed returned nb cur e cls else none
  | .due nb cur, .poll info => if info = cur then some (.alive false nb cur) else none
  | .alive _ _ _, .dropped => some .gone
  | _, _ => none

/-- After a whole history. -/
def Life.after (log : List Event) : Option Life := log.foldlM Life.next .unborn

namespace Life

variable {log evs : List Event} {l l' : Life} {e : Event}

theorem after_append (h : Life.after log = some l) (hl : evs.foldlM Life.next l = some l') :
    Life.after (log ++ evs) = some l' := by
  unfold Life.after at h ⊢
  rw [List.foldlM_append, h]
  exact hl

theorem after_snoc (h : Life.after log = some l) (hl : l.next e = some l') :
    Life.after (log ++ [e]) = some l' := by
  refine after_append h ?_
  rw [List.foldlM_cons, hl]
  rfl

/-- A history, cut before an event. -/
theorem of_after_cons (h : Life.after (log ++ e :: evs) = some l') :
    ∃ l l1, Life.after log = some l ∧ l.next e = some l1 ∧ evs.foldlM Life.next l1 = some l' := by
  unfold Life.after at h
  rw [List.foldlM_append, Option.bind_eq_bind, Option.bind_eq_some_iff] at h
  obtain ⟨l, hl, h⟩ := h
  rw [List.foldlM_cons, Option.bind_eq_bind, Option.bind_eq_some_iff] at h
  obtain ⟨l1, hnext, h⟩ := h
  exact ⟨l, l1, hl, hnext, h⟩

theorem next_dropped (returned : Bool) (nb : UInt16) (cur : TaskInfo) :
    (Life.alive returned nb cur).next .dropped = some .gone := by
  cases returned <;> rfl

theorem of_next_dropped (h : l.next .dropped = some l') : l' = .gone := by
  cases l with
  | alive returned nb cur =>
    rw [next_dropped] at h
    exact (Option.some.inj h).symm
  | unborn | created | due | gone => cases h

theorem of_next_ready {n : Nat} (h : l.next (.ready n) = some l') :
    ∃ nb cur, l' = .alive true nb cur := by
  cases l with
  | alive returned nb cur =>
    cases returned with
    | false => exact ⟨nb, cur, (Option.some.inj h).symm⟩
    | true => cases h
  | unborn | created | due | gone => cases h

theorem next_cqe (returned : Bool) (nb : UInt16) (cur : TaskInfo) (e : Cqe)
    (cls : SyscallNbCompResult) (others : List UInt16) :
    (Life.alive returned nb cur).next (.cqe e cls others) =
      if cls = evaluateSyscallNb nb e.sqe.nb then Life.completed returned nb cur e
      cls else none := by
  cases returned <;> rfl

/-- Submissions change nothing. -/
theorem submits {nb : UInt16} {cur : TaskInfo} (h : ∀ e ∈ evs, ∃ q n, e = .submit q n) :
    evs.foldlM Life.next (.alive false nb cur) = some (.alive false nb cur) := by
  induction evs with
  | nil => rfl
  | cons e evs ih =>
    obtain ⟨q, n, rfl⟩ := h e List.mem_cons_self
    rw [List.foldlM_cons]
    exact ih fun e' he' => h e' (List.mem_cons_of_mem _ he')

end Life

/-! ## Counting polls -/

/-- A completion that is accepted. -/
def Event.isAccepted : Event → Bool
  | .cqe _ .normal _ | .cqe _ .multiple _ => true
  | _ => false

/-- The polls that the events so far call for. -/
def Life.polls (accepted : Nat) : Life → Nat
  | .alive _ _ _ | .gone => accepted + 1
  | _ => accepted

/-- **Each accepted completion polls its task once**, and `spawn` did before them. -/
theorem Life.polls_eq {log : List Event} {l : Life} (h : Life.after log = some l) :
    log.countP Event.isPoll = l.polls (log.countP Event.isAccepted) := by
  induction log using List.reverseRecOn generalizing l with
  | nil =>
    obtain rfl := Option.some.inj h
    rfl
  | append_singleton log e ih =>
    obtain ⟨l0, l1, h0, hnext, hl⟩ := Life.of_after_cons h
    cases hl
    have hcount := ih h0
    rw [List.countP_append, List.countP_append, hcount, List.countP_singleton,
      List.countP_singleton]
    unfold Life.next at hnext
    split at hnext
    case h_2 | h_4 | h_7 =>
      obtain ⟨-, hl⟩ := Option.ite_none_right_eq_some.mp hnext
      cases hl
      simp [Life.polls, Event.isPoll, Event.isAccepted]
    case h_6 =>
      obtain ⟨-, hl⟩ := Option.ite_none_right_eq_some.mp hnext
      unfold Life.completed at hl
      split at hl
      · cases hl
        simp [Life.polls, Event.isPoll, Event.isAccepted]
      · obtain ⟨-, hl⟩ := Option.ite_none_left_eq_some.mp hl
        cases hl
        simp [Life.polls, Event.isPoll, Event.isAccepted]
      · obtain ⟨-, hl⟩ := Option.ite_none_left_eq_some.mp hl
        cases hl
        simp [Life.polls, Event.isPoll, Event.isAccepted]
      · cases hl
    case h_9 => cases hnext
    all_goals
      cases hnext
      simp [Life.polls, Event.isPoll, Event.isAccepted]

/-! ## The protocol and a task -/

/-- What polling a value does to the context and to the number is what the protocol says. -/
theorem Called.life {me : Caller} {cur cur' : TaskInfo} {nb nb' : UInt16}
    {outs : Multiset Sqe} {v v' : Value} {out : Out} {new : List Sqe} {evs : List Event}
    (h : Called me cur nb outs v out v' cur' nb' new evs) (n : Var) :
    cur' = v.contextAfter (out.resp n) cur ∧ nb' = v.numberAfter (out.resp n) nb := by
  cases h with
  | send h => cases h <;> exact ⟨rfl, rfl⟩
  | opens h => cases h <;> exact ⟨rfl, rfl⟩
  | commit h => cases h <;> exact ⟨rfl, rfl⟩
  | fanOut | fanOne | fanLast => exact ⟨rfl, rfl⟩
  | resolve h => cases h <;> exact ⟨rfl, rfl⟩

/-- The protocol stands where the task does. -/
inductive Life.Of (V : View σ) : Life → Prop where
  | alive {returned : Bool} {cur : TaskInfo} (hlive : V.freed = false)
      (hret : returned = V.block.code.isNone) (hcur : ∀ info, V.phase = .on info → info = cur) :
      Life.Of V (.alive returned V.nb cur)
  | gone (hfreed : V.freed = true) (hoff : V.phase = .off) : Life.Of V .gone

/-- A poll of a block that has returned has begun. It ends with a panic. -/
def View.stuck (V : View σ) : Prop := (∃ info, V.phase = .on info) ∧ V.block.code = none

/-- The history of a task follows the protocol. -/
def Lives (V : View σ) : Prop := (∃ l, Life.after V.log = some l ∧ l.Of V) ∨ V.stuck

namespace Lives

variable {V V' : View σ}

/-- While a block runs, its context is the one of the protocol. -/
theorem running (h : Lives V) {cur : TaskInfo} {x : σ} {L : List (Option Value)}
    (hon : V.phase = .on cur) (hb : V.block = ⟨some x, L⟩) :
    V.freed = false ∧ Life.after V.log = some (.alive false V.nb cur) := by
  rcases h with ⟨l, hlog, hof⟩ | ⟨-, hnone⟩
  · cases hof with
    | @alive returned _ hlive hret hcur =>
      have hfalse : returned = false := by rw [hret, hb, Option.isNone_some]
      rw [hfalse, ← hcur cur hon] at hlog
      exact ⟨hlive, hlog⟩
    | gone hfreed hoff =>
      rw [hoff] at hon
      cases hon
  · rw [hb] at hnone
    cases hnone

/-- Outside a poll the protocol stands where the task does. -/
theorem waiting (h : Lives V) (hon : ∀ info, V.phase ≠ .on info) (hlive : V.freed = false) :
    ∃ cur, Life.after V.log = some (.alive V.block.code.isNone V.nb cur) := by
  rcases h with ⟨l, hlog, hof⟩ | ⟨⟨info, hinfo⟩, -⟩
  · cases hof with
    | alive _ hret => exact ⟨_, hret ▸ hlog⟩
    | gone hfreed =>
      rw [hlive] at hfreed
      cases hfreed
  · exact absurd hinfo (hon info)

/-- A task between its polls, which may be freed. -/
theorem settle {cur : TaskInfo}
    (hlog : Life.after V.log = some (.alive V.block.code.isNone V.nb cur)) (hlive : V.freed = false)
    (hoff : V.phase = .off) : Lives V.settle := by
  unfold View.settle
  by_cases houts : V.outs = 0
  · rw [if_pos houts]
    exact .inl ⟨.gone, Life.after_snoc hlog (Life.next_dropped ..), .gone rfl hoff⟩
  · rw [if_neg houts]
    refine .inl ⟨_, hlog, .alive hlive rfl fun info hinfo => ?_⟩
    rw [hoff] at hinfo
    cases hinfo

/-- An instruction that records nothing. -/
theorem quiet {cur : TaskInfo} {x y : σ} {L L' : List (Option Value)} (h : Lives V)
    (hon : V.phase = .on cur) (hb : V.block = ⟨some x, L⟩) {phase : Phase}
    (hphase : ∀ info, phase = .on info → info = cur) :
    Lives { V with block := ⟨some y, L'⟩, phase } := by
  obtain ⟨hlive, hlog⟩ := h.running hon hb
  exact .inl ⟨_, hlog, .alive hlive rfl hphase⟩

theorem born (i : SlabIdx) (x : σ) (L : List (Option Value)) : Lives (.born i x L) := by
  refine .inl ⟨.alive false 0 (.initialPoll i), ?_, .alive rfl rfl fun info hinfo => ?_⟩
  · simp [Life.after, View.born, Life.next, TaskInfo.initialPoll]
  · cases hinfo
    rfl

end Lives

/-- **The history of a task follows the protocol**, step by step. -/
theorem Lives.isLocal (code : Code σ) : Local code (fun _ => true) fun _ => Lives := by
  constructor
  · intro t i x hx
    exact .born i x []
  · intro p V cur x child k L L' taken moved t i hV hon hb hx hm hrec
    exact .born i child taken
  · intro p V V' hs hrec hV
    cases hs with
    | locals hon hb h =>
      rename_i cur x y L L'
      exact hV.quiet hon hb fun info hinfo => Phase.on.inj (hinfo.symm.trans hon)
    | spawn hon hb hx hm =>
      exact hV.quiet hon hb fun info hinfo => Phase.on.inj (hinfo.symm.trans hon)
    | suspend hon hb hx => exact hV.quiet hon hb fun info hinfo => nomatch hinfo
    | @call cur cur' x L v k val val' out nb' new evs hon hb hx hv h =>
      obtain ⟨hlive, hlog⟩ := hV.running hon hb
      obtain ⟨hcur, hnb⟩ := h.life L.length
      refine .inl ⟨.alive false nb' cur', ?_,
        .alive hlive rfl fun info hinfo => (Phase.on.inj hinfo).symm⟩
      refine Life.after_snoc (Life.after_append hlog (Life.submits h.submits)) ?_
      rw [hcur, hnb]
      exact if_pos rfl
    | @ret cur x L hon hb hx =>
      obtain ⟨hlive, hlog⟩ := hV.running hon hb
      exact .inl ⟨.alive true V.nb cur, Life.after_snoc hlog rfl,
        .alive hlive rfl fun info hinfo => nomatch hinfo⟩
    | leave hover hlive =>
      obtain ⟨cur, hlog⟩ := hV.waiting (fun info hinfo => nomatch hover.symm.trans hinfo) hlive
      exact Lives.settle hlog hlive rfl
    | @skip e others h =>
      obtain ⟨cur, hlog⟩ := hV.waiting (fun info hinfo => nomatch h.off.symm.trans hinfo) h.live
      have hskip : (Life.alive V.block.code.isNone V.nb cur).next (.cqe e .expired others) =
          some (.alive V.block.code.isNone V.nb cur) := by
        rw [Life.next_cqe, if_pos h.cls]
        rfl
      exact Lives.settle (Life.after_snoc hlog hskip) h.live h.off
    | @accept e cls others h hcls =>
      obtain ⟨cur, hlog⟩ := hV.waiting (fun info hinfo => nomatch h.off.symm.trans hinfo) h.live
      cases hcode : V.block.code with
      | none => exact .inr ⟨⟨_, rfl⟩, hcode⟩
      | some x =>
        rw [hcode, Option.isNone_some] at hlog
        refine .inl ⟨.alive false (if cls = .normal then taskAugmente V.nb else V.nb)
          (e.context cls), ?_, .alive h.live (by simp [hcode]) fun info hinfo =>
            (Phase.on.inj hinfo).symm⟩
        refine Life.after_append hlog ?_
        rw [List.foldlM_cons, Life.next_cqe, if_pos h.cls]
        rcases hcls with rfl | rfl <;> simp [Life.completed, Life.next]

/-! ## Whole runs -/

section Ends

variable {log evs : List Event} {l l' : Life} {nb : UInt16} {cur : TaskInfo}

/-- Nothing happens to a task that is freed. -/
theorem Life.gone_last (h : evs.foldlM Life.next .gone = some l') : evs = [] := by
  cases evs with
  | nil => rfl
  | cons e evs =>
    rw [List.foldlM_cons] at h
    cases e <;> cases h

/-- A task whose block has returned skips what still arrives, and is dropped. -/
theorem Life.returned_skips (h : evs.foldlM Life.next (.alive true nb cur) = some l') :
    ∀ e ∈ evs, e = .dropped ∨ e.isExpired = true := by
  induction evs with
  | nil => exact fun e he => nomatch he
  | cons e evs ih =>
    rw [List.foldlM_cons, Option.bind_eq_bind, Option.bind_eq_some_iff] at h
    obtain ⟨l1, h1, h⟩ := h
    cases e with
    | dropped =>
      rw [Life.next_dropped, Option.some.injEq] at h1
      subst h1
      rw [Life.gone_last h]
      exact fun e he => .inl (List.mem_singleton.mp he)
    | cqe entry cls others =>
      rw [Life.next_cqe, Option.ite_none_right_eq_some] at h1
      obtain ⟨-, h1⟩ := h1
      cases cls with
      | expired =>
        cases h1
        rw [List.forall_mem_cons]
        exact ⟨.inr rfl, ih h⟩
      | normal | multiple | error => cases h1
    | spawned | poll | ready | call | submit => cases h1

end Ends

/-- The protocol stands where the task does, between two commands. -/
def Life.Matches (raw : RawTask σ) : Life → Prop
  | .alive returned nb _ => raw.freed = false ∧ raw.syscallNb = nb ∧
  raw.future.code.isNone = returned
  | .gone => raw.freed = true
  | _ => False

/-- **Every task lives by the protocol**, in every reachable state: run on the history of the task,
it ends where the task is, so that the number of the task, the class of each completion and the
context of each call are determined by what happened to this task before. The task was polled once
at its birth and once for each completion it accepted; after `Ready` it only skips completions,
until its future is dropped, and nothing follows that. -/
theorem life_cycle {s : State σ} (hr : Reachable code s) {p : TaskPtr} {raw : RawTask σ}
    (hraw : s.heap[p]? = some raw) :
    (∃ l, Life.after raw.log = some l ∧ l.Matches raw) ∧
    raw.log.countP Event.isPoll = raw.log.countP Event.isAccepted + 1 ∧
    (∀ before after n, raw.log = before ++ .ready n :: after → ∀ e ∈ after, e = .dropped ∨
      e.isExpired = true) ∧
    ∀ before after, raw.log = before ++ .dropped :: after → after = [] := by
  have hlife : ∃ l, Life.after raw.log = some l ∧ l.Matches raw ∧ ∀ n, l.polls n = n + 1 := by
    rcases ((Lives.isLocal code).reachable hr).raw hraw with ⟨l, hlog, hof⟩ | ⟨⟨info, hinfo⟩, -⟩
    · cases hof with
      | alive hlive hret => exact ⟨_, hlog, ⟨hlive, rfl, hret.symm⟩, fun n => rfl⟩
      | gone hfreed => exact ⟨_, hlog, hfreed, fun n => rfl⟩
    · cases hinfo
  obtain ⟨l, hlog, hmatch, hpolls⟩ := hlife
  refine ⟨⟨l, hlog, hmatch⟩, (Life.polls_eq hlog).trans (hpolls _), fun before after n heq => ?_,
    fun before after heq => ?_⟩
  · rw [heq] at hlog
    obtain ⟨l0, l1, h0, h1, h⟩ := Life.of_after_cons hlog
    obtain ⟨nb, cur, rfl⟩ := Life.of_next_ready h1
    exact Life.returned_skips h
  · rw [heq] at hlog
    obtain ⟨l0, l1, h0, h1, h⟩ := Life.of_after_cons hlog
    rw [Life.of_next_dropped h1] at h
    exact Life.gone_last h

/-- A task that has skipped the completion of a `read` that it dropped, and is freed. -/
theorem life_cycle_stale : ∃ s raw, Reachable (cancelled readDropped) s ∧ s.heap[0]? = some raw ∧
    (raw.log.countP Event.isExpired, raw.log.countP Event.isAccepted) = (1, 1) ∧
    Life.after raw.log = some .gone ∧ raw.log.countP Event.isPoll = 2 := by
  have hrun : (freshScript (cancelled readDropped) (fun _ _ => true)
    [.spawn 9 (.run 0), .submit, .consume, .consume,
      .complete 1 7 0, .handle 9, .complete 0 0 0, .handle 9]).any
      (fun s => s.heap[0]?.any fun raw =>
        raw.freed && raw.log.countP Event.isExpired == 1 && raw.log.countP Event.isAccepted == 1) =
            true := by
    decide +kernel
  obtain ⟨s, hs, hc⟩ := (Option.any_eq_true _ _).mp hrun
  obtain ⟨raw, hraw, hc⟩ := (Option.any_eq_true _ _).mp hc
  rw [Bool.and_eq_true, Bool.and_eq_true, beq_iff_eq, beq_iff_eq] at hc
  obtain ⟨⟨hfreed, hexpired⟩, haccepted⟩ := hc
  have hreach : Reachable (cancelled readDropped) s := .of_script (fun _ _ _ => trivial) hs
  obtain ⟨⟨l, hlog, hmatch⟩, hpolls, -⟩ := life_cycle hreach hraw
  refine ⟨s, raw, hreach, hraw, Prod.ext hexpired haccepted, ?_, by rw [hpolls, haccepted]⟩
  cases l with
  | gone => exact hlog
  | alive =>
    have hlive := hmatch.1
    rw [hfreed] at hlive
    cases hlive
  | unborn | created | due => exact hmatch.elim

end Onlyio
