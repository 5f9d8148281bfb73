import Onlyio.Machine.Local
import Onlyio.Machine.Lone

/-!
# The two numbers of a running task

The number of a task is kept in the task and in `CURRENT_TASK`, and three functions advance it:
`Task::augmente_syscall_nb`, `Tag::augmente_syscall_nb` through `set_to_next_task`, and the `+= 1`
of `handle_cqe_entry`. The first and the third agree on every number that `handle_cqe_entry` meets,
also at the wrap, where both go from `0x7FFF` to `0x8000`; the second goes to `0`.

* `tagAugmente_eq_iff`: where the increments agree.
* **`number_agreement_run`**: in every run, the two numbers of a task whose code runs are equal at
  every instruction, if it has made no commit and ended no fan-out at rank `0x7FFF`.
* `fan_out_ends_at_wrap`: a run of 32766 accepts and one fan-out, after which they differ.
-/

namespace Onlyio

open Lib

variable {σ : Type}

/-! ## The increments -/

/-- The increments of `CURRENT_TASK` and of the task agree exactly before the wrap. -/
theorem tagAugmente_eq_iff (nb : UInt16) : tagAugmente nb = taskAugmente nb ↔ rank nb ≠ 0x7FFF := by
  constructor
  · intro h hr
    have hnat := congrArg UInt16.toNat h
    rw [rank_eq_iff] at hr
    rw [toNat_tagAugmente, toNat_taskAugmente] at hnat
    omega
  · exact fun h => (augmente_of_rank h).1

/-! ## The condition -/

/-- A commit. -/
def Value.commits : Value → Bool
  | .commitFn _ _ | .commit _ => true
  | _ => false

/-- No fan-out takes its last completion at rank `0x7FFF`. -/
def endsBeforeWrap : Event → Bool
  | .call _ (.writeMultiple (.pending _ _ _ _ _)) info _ (some _) =>
    rank info.tag.syscallNb != 0x7FFF
  | _ => true

/-- No commit is polled. -/
def Event.commitless : Event → Bool
  | .call _ val _ _ _ => !val.commits
  | _ => true

/-- What a task has done so far: no commit, and no fan-out that ended at the wrap. -/
def KeepsNumber (log : List Event) : Prop :=
  ∀ e ∈ log, e.commitless = true ∧ endsBeforeWrap e = true

/-! ## The invariant -/

/-- While the block runs, `CURRENT_TASK` has the number of the task. -/
def Agrees (V : View σ) : Prop := ∀ cur, V.phase = .on cur → cur.tag.syscallNb = V.nb

namespace Agrees

variable {code : Code σ} {p : TaskPtr} {V V' : View σ}

/-- Polling a value other than a commit advances both numbers, or neither. -/
theorem call {me : Caller} {cur cur' : TaskInfo} {nb nb' : UInt16} {outs : Multiset Sqe}
    {val val' : Value} {out : Out} {new : List Sqe} {evs : List Event} {v : Var} {n m : Nat}
    (h : Called me cur nb outs val out val' cur' nb' new evs) (hcur : cur.tag.syscallNb = nb)
    (hval : val.commits = false)
    (hok : endsBeforeWrap (.call v val cur n (out.resp m)) = true) : cur'.tag.syscallNb = nb' := by
  cases h with
  | send | fanOut | fanOne | resolve => exact hcur
  | opens => exact congrArg setMultiple hcur
  | commit h => cases h <;> cases hval
  | fanLast =>
    have hrank : rank nb ≠ 0x7FFF := by
      rw [← hcur]
      simpa [endsBeforeWrap, Out.resp] using hok
    show tagAugmente cur.tag.syscallNb = _
    rw [hcur]
    exact (tagAugmente_eq_iff nb).mpr hrank

theorem settle (h : Agrees V) : Agrees V.settle := by
  unfold View.settle
  split
  · exact h
  · exact h

/-- **Every step of a task that has made no commit.** -/
theorem step (hs : TaskStep code p V V') (hok : KeepsNumber V'.log) (h : Agrees V) : Agrees V' := by
  cases hs with
  | locals | spawn => exact h
  | @call cur cur' x L v k val val' out nb' new evs hon hb hx hv hc =>
    obtain ⟨hcommit, hwrap⟩ := hok _ (List.mem_append_right _ (List.mem_singleton_self _))
    have hval : val.commits = false := Bool.not_eq_true' _ ▸ hcommit
    rintro _ ⟨⟩
    exact call hc (h cur hon) hval hwrap
  | suspend | ret =>
    rintro _ ⟨⟩
  | leave =>
    refine settle fun cur hon => ?_
    cases hon
  | skip harr => exact settle h
  | accept harr hcls =>
    rintro _ ⟨⟩
    exact harr.context_nb hcls

theorem born (i : SlabIdx) (x : σ) (L : List (Option Value)) : Agrees (.born i x L) := by
  rintro _ ⟨⟩
  rfl

theorem isLocal : Local code (fun _ => true) fun _ V => KeepsNumber V.log → Agrees V where
  main _ i _ _ _ := born i _ _
  spawn _ i _ _ _ _ _ _ _ := born i _ _
  step hs _ h hok := step hs hok (h fun e he => hok e (hs.log.subset he))

end Agrees

/-- **Number agreement.** `Tag::augmente_syscall_nb` agrees with the task's increment exactly before
the wrap, and the `+= 1` of the dispatcher on every number that it meets. In every run, and at every
instruction of every poll with which the run goes on, a task whose code runs, and which has made no
commit and ended no fan-out at the wrap, finds in `CURRENT_TASK` the number that it stores, so an
SQE that it submits now is accepted. -/
theorem number_agreement_run {code : Code σ} {s : State σ} (h : Reachable code s) :
    (∀ nb, tagAugmente nb = taskAugmente nb ↔ rank nb ≠ 0x7FFF) ∧
    (∀ nb, isMultiple nb = false → taskAugmente nb = nb + 1) ∧
    ∀ g, Steps code (s.config []) g → ∀ p cur, phaseOf g.core.current g.stack p = .on cur →
      KeepsNumber (g.core.cell p).log →
        cur.tag.syscallNb = g.core.stored p ∧
        evaluateSyscallNb (g.core.stored p) cur.tag.syscallNb =
          if isMultiple (g.core.stored p) then .multiple else .normal := by
  refine ⟨tagAugmente_eq_iff, fun nb hnb => (taskAugmente_of_not_multiple hnb).1, ?_⟩
  intro g hg p cur hon hok
  have hviews := Agrees.isLocal.steps hg (fun _ _ _ => rfl) (Agrees.isLocal.reachable h)
  have hlt : p < g.core.spawned := by
    by_contra hge
    have hoff : phaseOf g.core.current g.stack p = .off := phaseOf_eq_off fun hmem => by
      obtain ⟨f, hf, rfl⟩ := List.mem_map.mp hmem
      exact hge (hviews.inv.slab.lt_spawned (hviews.inv.live_of_mem hf))
    rw [hoff] at hon
    cases hon
  have heq : cur.tag.syscallNb = g.core.stored p := hviews.all p hlt hok cur hon
  exact ⟨heq, by rw [heq, evaluate_of_eq]⟩

/-! ## A fan-out that ends at the wrap -/

/-- Where the block `wrapTask` stands. -/
inductive WrapStage where
  | accepts (n : Nat)
  | fan (v : Var)
  | done

/-- A block that accepts `n` connections and then writes one buffer to one of them. -/
def wrapTask : WrapStage → Await.Instr WrapStage
  | .accepts (n + 1) => .await (.accept 4) fun _ => .accepts n
  | .accepts 0 => .allocWrite .fan
  | .fan v => .await (.writeMultiple v [5] 4) fun _ => .done
  | .done => .ret

/-- The answer to an accept of `wrapTask` is about to be handled. -/
def answered (s : State (Await.Point WrapStage)) : Bool :=
  match s.core.cq with
  | e :: _ => s.core.slots e.sqe.payload.taskIdx = some 0 &&
    evaluateSyscallNb (s.core.stored 0) e.sqe.payload.syscallNb = .normal
  | [] => false

theorem number_agreement_run_accept :
    ∃ s, Reachable (awaited wrapTask) s ∧ ∃ g cur, Steps (awaited wrapTask) (s.config []) g ∧
      phaseOf g.core.current g.stack 0 = .on cur ∧ KeepsNumber (g.core.cell 0).log ∧
        cur.tag.syscallNb = g.core.stored 0 := by
  have hrun : (freshScript (awaited wrapTask) (fun _ _ => true)
      [.spawn 9 (.run (.accepts 1)), .submit, .consume, .complete 0 7 0]).any
      (fun s => answered s && s.records fun e => e.commitless && endsBeforeWrap e) = true :=
        by decide +kernel
  obtain ⟨s, hs, hc⟩ := (Option.any_eq_true _ _).mp hrun
  rw [Bool.and_eq_true, answered] at hc
  obtain ⟨hc, hrec⟩ := hc
  split at hc
  · rename_i e cq he
    rw [Bool.and_eq_true, decide_eq_true_eq, decide_eq_true_eq] at hc
    have hhandle : Step (awaited wrapTask) (s.config []) _ := .handle he hc.1 (.inl hc.2)
    generalize evaluateSyscallNb (s.core.stored 0) e.sqe.payload.syscallNb = cls at hhandle
    generalize hc1 : (s.core.take e cq).accept 0 e cls = c1 at hhandle
    have hr : Reachable (awaited wrapTask) s := .of_script (fun _ _ _ => trivial) hs
    have hok : KeepsNumber (c1.cell 0).log := by
      intro ev hev
      simp only [← hc1, accept_cell, List.mem_append, List.mem_cons, List.not_mem_nil,
        or_false] at hev
      rcases hev with hev | rfl | rfl
      · exact Bool.and_eq_true _ _ ▸ State.records_iff.mp hrec 0 ev hev
      · exact ⟨rfl, rfl⟩
      · exact ⟨rfl, rfl⟩
    exact ⟨s, hr, _, c1.current, .single hhandle, rfl, hok,
      ((number_agreement_run hr).2.2 _ (.single hhandle) 0 _ rfl hok).1⟩
  · cases hc

section Wrap

variable {pool : BufPool 1} {q : Sqe} {s : State (Await.Point WrapStage)}

/-- Each completed accept advances the number by one. -/
theorem wrapTask_accepts (n : Nat) : ∀ {pre : List (Option Value)} {nb : UInt16} {q : Sqe}
    {s : State (Await.Point WrapStage)}, Reachable (awaited wrapTask) s →
    Parked ⟨some (.poll pre.length fun _ => .accepts n), pre ++ [some (.accept .submited)]⟩
      nb pool q s → nb.toNat + n < 32768 →
    ∃ s' q' pre' nb', nb'.toNat = nb.toNat + n ∧ Reachable (awaited wrapTask) s' ∧
      Parked ⟨some (.poll pre'.length fun _ => .accepts 0), pre' ++ [some (.accept .submited)]⟩
        nb' pool q' s' := by
  induction n with
  | zero => exact fun hr hw _ => ⟨_, _, _, _, rfl, hr, hw⟩
  | succ n ih =>
    intro pre nb q s hr hw hlt
    have hpoll : ∀ s1, Lone ⟨some (.poll pre.length fun _ => .accepts (n + 1)),
        pre ++ [some (.accept .submited)]⟩ 2 (nb + 1) s1 → s1.currentTask.tag = ⟨0, nb + 1⟩ →
        s1.currentTask.result = 7 → s1.buffer = pool →
        Total (pollFn (awaited wrapTask) 4 0) (fun _ s2 => ∃ q' b', Current s1 q' ∧
          Queues s1 s2 [q'] pool ∧ Lone b' 3 (nb + 1) s2 ∧
          b' = ⟨some (.poll (pre ++ [some Value.returned]).length fun _ => .accepts n),
            (pre ++ [some Value.returned]) ++ [some (.accept .submited)]⟩) s1 := by
      intro s1 h1 htag hres hbuf
      have hA : wrapTask (.accepts (n + 1)) = .await (.accept 4) fun _ => .accepts n := rfl
      refine Total.mono (h1.poll_accept List.getElem?_concat_length (by rw [hres]; decide)
        (by rw [htag]) hA) ?_
      rintro _ s2 ⟨q', hcur, hq, h2⟩
      refine ⟨q', _, hcur, hbuf ▸ hq, h2, ?_⟩
      simp
    obtain ⟨s1, q1, b1, hr1, hw1, rfl⟩ :=
      hw.next hr ((isMultiple_false_iff nb).mpr (by omega)) 7 hpoll
    have hnb : (nb + 1).toNat = nb.toNat + 1 := by
      rw [UInt16.toNat_add]
      exact Nat.mod_eq_of_lt (show nb.toNat + 1 < 65536 by omega)
    obtain ⟨s2, q2, pre2, nb2, hnb2, hr2, hw2⟩ := ih hr1 hw1 (by rw [hnb]; omega)
    exact ⟨s2, q2, pre2, nb2, by omega, hr2, hw2⟩

/-- The last completion of the fan-out, two steps of the abstract machine after the answer. -/
theorem wrapTask_ends {L : List (Option Value)} {u : Var} {k : Resp → WrapStage} {b : WBuffer}
    (hr : Reachable (awaited wrapTask) s) (hw : Parked ⟨some (.poll u k), L⟩ 0x7FFE pool q s)
    (hgen : q.payload.responseGen = 0)
    (hu : L[u]? = some (some (.writeMultiple (.pending 1 [5] [] 4 b)))) :
    ∃ s', Reachable (awaited wrapTask) s' ∧ ∃ g cur, Steps (awaited wrapTask) (s'.config []) g ∧
      phaseOf g.core.current g.stack 0 = .on cur ∧ cur.tag.syscallNb = 0 ∧
      g.core.stored 0 = 0x8000 := by
  refine ⟨_, hw.complete hr 4, ?_⟩
  generalize hs' : ({ s with pending := [], ring := ⟨1024, [], [q], [⟨q, 4, 0⟩]⟩ } :
    State (Await.Point WrapStage)) = s'
  obtain ⟨hslot, log, hheap⟩ := hw.lone
  have hcq : s'.core.cq = ⟨q, 4, 0⟩ :: [] := by rw [← hs']; rfl
  have hraw : s'.heap[0]? = some ⟨⟨some (.poll u k), L⟩, 1, 0x7FFE, some 0, false, log⟩ := by
    rw [← hs', hheap]
    rfl
  have hnb : s'.core.stored 0 = 0x7FFE := by
    rw [Core.stored, State.core_cell hraw]
    rfl
  have hfut : s'.fut 0 = ⟨some (.poll u k), L⟩ := State.fut_eq hraw
  have hslots : s'.core.slots q.payload.taskIdx = some 0 := by
    rw [hw.taskIdx, ← hs']
    exact Slab.get?_of_index hslot
  have hcls : evaluateSyscallNb (s'.core.stored 0) q.payload.syscallNb = .normal := by
    rw [hnb, hw.nb]
    decide
  have hhandle : Step (awaited wrapTask) ⟨s'.core, s'.fut, []⟩ _ :=
    .handle hcq hslots (.inl hcls)
  have hfinal : more (⟨q, 4, 0⟩ : Cqe).flags = false := show more 0 = false by decide
  rw [show (⟨q, 4, 0⟩ : Cqe).sqe = q from rfl, hcls, hfinal] at hhandle
  generalize hc1 : (s'.core.take ⟨q, 4, 0⟩ []).accept 0 ⟨q, 4, 0⟩ .normal = c1 at hhandle
  have hcur1 : c1.current = ⟨⟨0, 0x7FFF⟩, 4, 0, 0⟩ := by
    rw [← hc1, accept_current]
    show TaskInfo.mk ⟨q.payload.taskIdx, q.payload.syscallNb + 1⟩ 4 0 q.payload.responseGen = _
    rw [hw.taskIdx, hw.nb, hgen]
    rfl
  have hnb1 : c1.stored 0 = 0x7FFF := by
    rw [← hc1, Core.stored, accept_cell]
    show taskAugmente (s'.core.stored 0) = _
    rw [hnb]
    decide
  have hlast : Polled ⟨0, u⟩ c1 (.writeMultiple (.pending 1 [5] [] 4 b)) _ .returned
      (c1.advance 0) :=
    .fanLast (by decide) (by decide) (by rw [hcur1]; rfl) (by decide)
  have hpoll : Step (awaited wrapTask) ⟨c1, s'.fut, [⟨0, .handle true, none⟩]⟩ _ :=
    .poll hfut rfl hu hlast
  refine ⟨_, (c1.advance 0).current, (Relation.ReflTransGen.single hhandle).tail hpoll, ?_, ?_, ?_⟩
  · simp [phaseOf, Core.logAt, Core.modifyCell]
  · show tagAugmente c1.current.tag.syscallNb = 0
    rw [hcur1]
    decide
  · rw [Core.stored_logAt]
    show (Function.update c1.cell 0 _ 0).syscallNb = _
    rw [Function.update_self]
    show taskAugmente (c1.stored 0) = _
    rw [hnb1]
    decide

/-- A fresh thread has a write buffer to lend. -/
theorem lends_new : ∃ s : State (Await.Point WrapStage), State.new 0 = .ok s ∧
    ∃ b p0 p1 p2 p3 p4, s.buffer.allocWrite = .ok (b, p0) ∧ Lends p0 b p1 p2 p3 p4 :=
  ⟨_, rfl, _, _, _, _, _, _, rfl, ⟨rfl, rfl, rfl, rfl⟩⟩

/-- **After 32766 accepts, a fan-out ends at the wrap**: the block goes on with the number `0` in
`CURRENT_TASK` while the task stores `0x8000`. -/
theorem fan_out_ends_at_wrap :
    ∃ s : State (Await.Point WrapStage), Reachable (awaited wrapTask) s ∧
      ∃ g p cur, Steps (awaited wrapTask) (s.config []) g ∧
        phaseOf g.core.current g.stack p = .on cur ∧ cur.tag.syscallNb = 0 ∧
        g.core.stored p = 0x8000 := by
  obtain ⟨s0, hnew, b, p0, p1, p2, p3, p4, halloc, hlends⟩ := lends_new
  obtain ⟨s1, q1, hr1, hw1⟩ := Parked.first (A := wrapTask) hnew
    (show wrapTask (.accepts 32766) = .await (.accept 4) fun _ => .accepts 32765 from rfl)
  obtain ⟨s2, q2, pre, nb, hnb, hr2, hw2⟩ := @wrapTask_accepts _ 32765 [] _ _ _ hr1 hw1 (by decide)
  have hpoll : ∀ s3, Lone ⟨some (.poll pre.length fun _ => .accepts 0),
      pre ++ [some (.accept .submited)]⟩ 2 (nb + 1) s3 → s3.currentTask.tag = ⟨0, nb + 1⟩ →
      s3.currentTask.result = 7 → s3.buffer = s0.buffer →
      Total (pollFn (awaited wrapTask) 5 0) (fun _ s4 => ∃ q' b', Current s3 q' ∧
        Queues s3 s4 [q'] p4 ∧ Lone b' 3 (nb + 1) s4 ∧ q'.payload.responseGen = 0 ∧
        ∃ L u, L[u]? = some (some (.writeMultiple (.pending 1 [5] [] 4 b))) ∧
          b' = ⟨some (.poll u fun _ => .done), L⟩) s3 := by
    intro s3 h3 htag hres hbuf
    have hA : wrapTask (.accepts 0) = .allocWrite .fan := rfl
    have hfan : ∀ u, wrapTask (.fan u) = .await (.writeMultiple u [5] 4) fun _ => .done :=
      fun _ => rfl
    refine Total.mono (h3.poll_fan List.getElem?_concat_length (by rw [hres]; decide)
      (by rw [htag]) hA hfan (hbuf ▸ halloc) hlends) ?_
    rintro _ s4 ⟨q', L, u, hcur, hgen, hq, hu, h4⟩
    exact ⟨q', _, hcur, hq, h4, hgen, L, u, hu, rfl⟩
  obtain ⟨s3, q3, b3, hr3, hw3, hgen, L, u, hu, rfl⟩ :=
    hw2.next hr2 ((isMultiple_false_iff nb).mpr (by rw [hnb]; decide)) 7 hpoll
  have hnb3 : nb + 1 = 0x7FFE := by
    rw [← UInt16.toNat_inj, UInt16.toNat_add, hnb]
    rfl
  rw [hnb3] at hw3
  obtain ⟨s4, hr4, g, cur, hg, hon, hcur, hst⟩ := wrapTask_ends hr3 hw3 hgen hu
  exact ⟨s4, hr4, g, 0, cur, hg, hon, hcur, hst⟩

end Wrap

end Onlyio
