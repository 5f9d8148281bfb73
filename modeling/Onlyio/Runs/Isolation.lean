import Onlyio.Machine.Lent
import Onlyio.Machine.Submits
import Onlyio.Runs.WakeContext

/-!
# Tasks do not see each other

A task that uses no write buffer and is held by no waker is an `Isolate`: in every run, whatever the
other tasks are and however their polls and spawns fall between its own, it is where the machine is
after the completions of its own SQEs. Two runs in which it begins as the same block and receives
the same completions are the same to it. The other tasks may submit write buffers, as long as no
completion of one is handled: until then the task cannot tell the run from the one without them.

* `WakeEffect.view`: what a step of the thread is to one task.
* `TaskRun.isolate`: in every run the task is where its machine is.
* `submittingTask_nil_iff`: these runs are the ones in which no write buffer is submitted.
* `SubmittingTask.isolate`: the same beside writes, in the thread without them.
* **`isolation_run`**: two runs.
-/

namespace Onlyio

open Lib

variable {σ : Type} {code : Code σ} {p : TaskPtr} {g g' : Scene σ} {x : σ} {L : List (Option Value)}

/-! ## The steps of a thread, for one task -/

/-- A step of the thread is a step of the task `p`, its birth, or nothing to it, when no waker holds
it. -/
theorem WakeEffect.view (he : WakeEffect code g g') (h : Sound g) (hp : g.wakers.refs p = 0) :
    g'.view p = g.view p ∨ TaskStep code p (g.view p) (g'.view p) ∨
      p = g.state.core.spawned ∧ Born code (g.state.config g.stack).view (g'.view p) := by
  obtain heq | hstep | hborn | ⟨hpos, -⟩ := he.views h p
  · exact .inl heq
  · exact .inr (.inl hstep)
  · exact .inr (.inr hborn)
  · exact absurd hp (Nat.pos_iff_ne_zero.mp hpos)

/-! ## The runs of a task -/

/-- What a thread reaches after the task `p` began as the block at `x` with the captured values `L`,
when no waker of it was ever made. -/
inductive TaskRun (code : Code σ) (x : σ) (L : List (Option Value)) (p : TaskPtr) :
    Scene σ → Prop where
  | born {g g' : Scene σ} (h : WakeRun code g) (hs : WakeStep code g g')
      (hp : p = g.state.heap.length)
      (hb : g'.state.heap[p]?.map RawTask.future = some ⟨some x, L⟩) : TaskRun code x L p g'
  | step {g g' : Scene σ} (h : TaskRun code x L p g) (hs : WakeStep code g g')
      (hw : g'.wakers.refs p = 0) : TaskRun code x L p g'

theorem TaskRun.wakeRun (h : TaskRun code x L p g) : WakeRun code g := by
  induction h with
  | born h hs => exact h.step hs
  | step _ hs _ ih => exact ih.step hs

/-- The same for a thread whose blocks submit write buffers too, with the SQEs of the submits. -/
inductive SubmittingTask (code : Code σ) (x : σ) (L : List (Option Value)) (p : TaskPtr) :
    List Sqe → Scene σ → Prop where
  | born {W : List Sqe} {g g' : Scene σ} (h : SubmittingRun code W g) (hs : WakeStep code g g')
      (hp : p = g.state.heap.length)
      (hb : g'.state.heap[p]?.map RawTask.future = some ⟨some x, L⟩) :
      SubmittingTask code x L p W g'
  | step {W : List Sqe} {g g' : Scene σ} (h : SubmittingTask code x L p W g)
      (hs : WakeStep code g g') (hw : g'.wakers.refs p = 0) : SubmittingTask code x L p W g'
  | submit {W : List Sqe} {g g' : Scene σ} {q : Sqe} (h : SubmittingTask code x L p W g)
      (hs : SubmitStep g q g') : SubmittingTask code x L p (q :: W) g'

theorem SubmittingTask.taskRun {W : List Sqe} (h : SubmittingTask code x L p W g) (hW : W = []) :
    TaskRun code x L p g := by
  induction h with
  | born h hs hp hb => exact .born (h.wakeRun hW) hs hp hb
  | step _ hs hw ih => exact .step (ih hW) hs hw
  | submit => cases hW

/-- Without a submit these are the runs of a task above. -/
theorem submittingTask_nil_iff : SubmittingTask code x L p [] g ↔ TaskRun code x L p g := by
  refine ⟨fun h => h.taskRun rfl, fun h => ?_⟩
  induction h with
  | born h hs hp hb => exact .born (submittingRun_nil_iff.mpr h) hs hp hb
  | step _ hs hw ih => exact .step ih hs hw

/-- The machine of a task, in the state `g`. -/
structure Isolated (R : Set σ) (prog : σ → Instr σ) (x : σ) (L : List (Option Value))
    (p : TaskPtr) (g : Scene σ) (S : Isolate σ) : Prop where
  sound : Sound g
  begun : (g.view p).log ≠ []
  refs : g.wakers.refs p = 0
  replay : Replay (isolate prog) (.start x (bareLocals L)) (answers (g.log p)) S
  follows : Follows R (g.view p) S

theorem Isolated.lt {R : Set σ} {prog : σ → Instr σ} {S : Isolate σ}
    (h : Isolated R prog x L p g S) : p < g.state.core.spawned := by
  by_contra hge
  have habsent := h.sound.inv.slab.fresh p (Nat.le_of_not_lt hge)
  exact h.begun (congrArg Cell.log habsent)

/-- A task that is new has just begun its first poll. -/
theorem WakeEffect.born (he : WakeEffect code g g') (h : Sound g) (hp : p = g.state.core.spawned)
    (hlt : p < g'.state.core.spawned) : g'.wakers = g.wakers ∧ Born code g.view (g'.view p) := by
  have hold : g'.state.core.spawned = g.state.core.spawned → False := by
    intro heq
    rw [heq] at hlt
    exact Nat.lt_irrefl _ (hp ▸ hlt)
  cases he with
  | wake hq hc | waker hslot hlive hc | awake hw hc =>
    exact (hold ((congrArg Core.spawned hc).trans rfl)).elim
  | drop hw hc =>
    exact (hold ((congrArg Core.spawned hc).trans (release_spawned ..))).elim
  | @step L s s' st st' hs =>
    refine ⟨rfl, ?_⟩
    have hfreed : (s.core.cell p).freed = true := by
      rw [h.inv.slab.fresh p (Nat.le_of_eq hp.symm)]
      rfl
    obtain heq | hstep | ⟨-, hborn⟩ | ⟨hpos, -⟩ := hs.view_held h.inv h.nodup p
    · obtain ⟨i, -, -, hlive⟩ := hs.created (Nat.le_of_eq hp.symm) hlt
      have hsame : (s'.core.cell p).freed = (s.core.cell p).freed := congrArg View.freed heq
      rw [hfreed] at hsame
      exact absurd (hsame.symm.trans hlive) (by simp)
    · have hold : p < s.core.spawned := hstep.not_fresh h.inv
      exact absurd hold (Nat.not_lt.mpr (Nat.le_of_eq hp.symm))
    · exact hborn
    · exact absurd (h.refs_fresh (Nat.le_of_eq hp.symm)) (Nat.pos_iff_ne_zero.mp hpos)

theorem Born.eq_born {views : TaskPtr → View σ} {V : View σ} (h : Born code views V) :
    ∃ i y L, V = .born i y L := by
  cases h with
  | main i hx => exact ⟨i, _, _, rfl⟩
  | spawn i hon hb hx hm => exact ⟨i, _, _, rfl⟩

section Isolated

variable {R : Set σ} {prog : σ → Instr σ}

/-- A task that has just begun is where its machine begins. -/
theorem Follows.born (hx : x ∈ R) (hL : PlainLocals L) (i : SlabIdx) :
    Follows R (.born i x L) (.start x (bareLocals L)) :=
  ⟨rfl, rfl, rfl, fun _ => rfl, fun _ hy => Option.some.inj hy ▸ hx, hL, fun _ => rfl,
    fun _ hq => absurd hq (Multiset.notMem_zero _), fun _ he => absurd he List.not_mem_nil⟩

/-- A task that is born is where its machine begins. -/
theorem Isolated.born (h : Sound g) (hs : WakeStep code g g') (hp : p = g.state.heap.length)
    (hb : g'.state.heap[p]?.map RawTask.future = some ⟨some x, L⟩) (hx : x ∈ R)
    (hL : PlainLocals L) : ∃ S, Isolated R prog x L p g' S := by
  obtain ⟨-, he⟩ := hs.effect h
  -- the task is there, so it is new
  obtain ⟨raw, hraw, hfut⟩ := Option.map_eq_some_iff.mp hb
  have hlt : p < g'.state.core.spawned := (List.getElem?_eq_some_iff.mp hraw).1
  obtain ⟨hW, hborn⟩ := he.born h hp hlt
  obtain ⟨i, y, L', hview⟩ := hborn.eq_born
  have hblock : (g'.view p).block = ⟨some x, L⟩ := (State.fut_eq hraw).trans hfut
  rw [hview] at hblock
  obtain ⟨hy, rfl⟩ : some y = some x ∧ L' = L := AsyncBlock.mk.inj hblock
  obtain rfl := Option.some.inj hy
  refine ⟨.start y (bareLocals L'), h.step hs, ?_, ?_, ?_, ?_⟩
  · rw [hview]
    exact List.cons_ne_nil _ _
  · rw [hW]
    exact h.refs_fresh (Nat.le_of_eq hp.symm)
  · rw [Scene.log_eq, hview]
    exact .refl
  · rw [hview]
    exact .born hx hL i

/-- A step of the thread is a move of the machine, or none. -/
theorem Isolated.step {S : Isolate σ} (hS : Isolated R prog x L p g S) (hs : WakeStep code g g')
    (hw : g'.wakers.refs p = 0) (hprog : ∀ y ∈ R, code y = prog y) (hconf : Confined prog R) :
    ∃ S', Isolated R prog x L p g' S' := by
  obtain ⟨-, he⟩ := hs.effect hS.sound
  obtain heq | hstep | ⟨hnew, -⟩ := he.view hS.sound hS.refs
  · refine ⟨S, hS.sound.step hs, heq ▸ hS.begun, hw, ?_, heq ▸ hS.follows⟩
    rw [Scene.log_eq, heq, ← Scene.log_eq]
    exact hS.replay
  · obtain ⟨ins, S', hrep, hans, hfol⟩ :=
      hstep.follow hS.follows hprog hconf (hs.lent hS.sound hS.lt)
    have hbegun : (g'.view p).log ≠ [] := fun hnil =>
      hS.begun (List.prefix_nil.mp (hnil ▸ hstep.log))
    refine ⟨S', hS.sound.step hs, hbegun, hw, ?_, hfol⟩
    rw [Scene.log_eq, hans, ← Scene.log_eq]
    exact hS.replay.trans hrep
  · exact absurd hnew (Nat.ne_of_lt hS.lt)

/-- **In every run the task is where its machine is.** -/
theorem TaskRun.isolate (h : TaskRun code x L p g) (hx : x ∈ R) (hL : PlainLocals L)
    (hprog : ∀ y ∈ R, code y = prog y) (hconf : Confined prog R) :
    ∃ S, Isolated R prog x L p g S := by
  induction h with
  | born h hs hp hb => exact Isolated.born h.sound hs hp hb hx hL
  | step _ hs hw ih =>
    obtain ⟨S, hS⟩ := ih
    exact hS.step hs hw hprog hconf

/-- A task that owns no write buffer gives none up. -/
theorem DiscardStep.other {t : TaskPtr} (hs : DiscardStep t g g') (h : Sound g)
    (hplain : PlainLocals (g.view p).block.locals) : t ≠ p ∧ g'.view p = g.view p := by
  cases hs with
  | discard hd =>
    have hspec := discardLocal_spec hd h.inv.live_top
    have hne : t ≠ p := by
      rintro rfl
      obtain ⟨b, hb⟩ := hspec.buffer
      cases hplain _ _ hb
    have hcell := congrFun (congrArg Core.cell hspec.core) p
    have hown := congrArg (Core.own · p) hspec.core
    have hfut := (congrFun hspec.fut p).trans (Function.update_of_ne (Ne.symm hne) _ _)
    have hcur := congrArg Core.current hspec.core
    exact ⟨hne, view_congr hcell hown hfut (congrArg (phaseOf · _ p) hcur)⟩

theorem Isolated.discard {S : Isolate σ} {t : TaskPtr} (hS : Isolated R prog x L p g S)
    (hs : DiscardStep t g g') : t ≠ p ∧ Isolated R prog x L p g' S := by
  obtain ⟨hne, hview⟩ := hs.other hS.sound hS.follows.plain
  have hwakers : g'.wakers = g.wakers := by
    cases hs
    rfl
  refine ⟨hne, hS.sound.discard hs, hview ▸ hS.begun, hwakers ▸ hS.refs, ?_, hview ▸ hS.follows⟩
  rw [Scene.log_eq, hview, ← Scene.log_eq]
  exact hS.replay

/-- The task is where its machine is, in the thread without the writes, none of which is its own. -/
structure Apart (R : Set σ) (prog : σ → Instr σ) (x : σ) (L : List (Option Value)) (p : TaskPtr)
    (W : List Sqe) (g : Scene σ) (logs : TaskPtr → List Event) (S : Isolate σ) : Prop where
  recorded : Recorded W g.state logs
  others : writesOf p W = []
  isolated : Isolated R prog x L p (g.without W logs) S

/-- **Beside writes of which no completion is handled, the task is where its machine is.** -/
theorem SubmittingTask.isolate {W : List Sqe} (h : SubmittingTask code x L p W g)
    (hW : g.state.Unhandled W) (hx : x ∈ R) (hL : PlainLocals L)
    (hprog : ∀ y ∈ R, code y = prog y) (hconf : Confined prog R) :
    ∃ logs S, Apart R prog x L p W g logs S := by
  induction h with
  | @born W g g' h hs hp hb =>
    obtain ⟨logs, hlogs, hsound⟩ := h.apart (hW.of_grows hs.grows)
    obtain ⟨-, logs', hlogs', hstep⟩ := hs.without hlogs hW
    obtain ⟨raw, hraw, hfut⟩ := Option.map_eq_some_iff.mp hb
    have hlen : ∀ (g : Scene σ) logs, (g.without W logs).state.heap.length = g.state.heap.length :=
      fun g logs => List.length_mapIdx
    obtain heq | hstep := hstep
    · -- a step that does nothing makes no task
      have hsame := congrArg (fun g : Scene σ => g.state.heap.length) heq
      rw [hlen, hlen, ← hp] at hsame
      exact absurd (List.getElem?_eq_some_iff.mp hraw).1 (hsame ▸ Nat.lt_irrefl _)
    · have hb' : (g'.without W logs').state.heap[p]?.map RawTask.future = some ⟨some x, L⟩ := by
        rw [Scene.without, State.without_getElem? hraw, Option.map_some]
        exact congrArg some hfut
      obtain ⟨S, hS⟩ := Isolated.born hsound hstep (hp.trans (hlen g logs).symm) hb' hx hL
      exact ⟨logs', S, hlogs', hlogs.writesOf_fresh hp, hS⟩
  | step _ hs hw ih =>
    obtain ⟨logs, S, hlogs, hothers, hS⟩ := ih (hW.of_grows hs.grows)
    obtain ⟨-, logs', hlogs', heq | hstep⟩ := hs.without hlogs hW
    · exact ⟨logs', S, hlogs', hothers, heq ▸ hS⟩
    · obtain ⟨S', hS'⟩ := hS.step hstep hw hprog hconf
      exact ⟨logs', S', hlogs', hothers, hS'⟩
  | @submit W g g' q _ hs ih =>
    obtain ⟨logs, S, hlogs, hothers, hS⟩ := ih (hW.of_cons.of_grows hs.grows)
    obtain ⟨logs', hlogs', hstep⟩ := hs.without hlogs hS.sound
    obtain ⟨hne, hS'⟩ := hS.discard hstep
    refine ⟨logs', S, hlogs', ?_, hS'⟩
    rw [writesOf, List.filter_cons_of_neg (by simpa using hne)]
    exact hothers

section Uncounted

variable {log log' : List Event}

theorem filterMap_uncounted {β : Type} {f : Event → Option β} (hf : ∀ ev, f ev.uncounted = f ev)
    (h : log'.map Event.uncounted = log.map Event.uncounted) :
    log'.filterMap f = log.filterMap f := by
  have hmap : ∀ log : List Event, log.filterMap f = (log.map Event.uncounted).filterMap f := by
    intro log
    rw [List.filterMap_map]
    exact congrArg (List.filterMap · log) (funext fun ev => (hf ev).symm)
  rw [hmap log', hmap log, h]

/-- A task cannot tell how many SQEs are outstanding. -/
theorem trail_uncounted (h : log'.map Event.uncounted = log.map Event.uncounted) :
    Onlyio.trail log' = Onlyio.trail log :=
  filterMap_uncounted (fun ev => by cases ev <;> rfl) h

theorem answers_uncounted (h : log'.map Event.uncounted = log.map Event.uncounted) :
    answers log' = answers log := by
  have hsent : submitted log' = submitted log :=
    filterMap_uncounted (fun ev => by cases ev <;> rfl) h
  have hcqes : log'.filterMap Event.cqe? = log.filterMap Event.cqe? :=
    filterMap_uncounted (fun ev => by cases ev <;> rfl) h
  unfold answers
  rw [hsent, hcqes]

end Uncounted

/-- The logs of the task, in the thread and without the writes. -/
theorem Apart.log {S : Isolate σ} {W : List Sqe} {logs : TaskPtr → List Event}
    (h : Apart R prog x L p W g logs S) :
    ((g.without W logs).log p).map Event.uncounted = (g.log p).map Event.uncounted := by
  unfold Scene.log
  cases hraw : g.state.heap[p]? with
  | none => rw [Scene.without, State.without, List.getElem?_mapIdx, hraw]; rfl
  | some raw =>
    rw [Scene.without, State.without_getElem? hraw]
    exact (h.others ▸ h.recorded.omits p raw hraw).uncounted rfl

theorem Isolated.trail {S : Isolate σ} (h : Isolated R prog x L p g S) :
    S.trail = Onlyio.trail (g.log p) := by
  rw [Scene.log_eq]
  exact h.follows.trail

/-- A task that is not being polled waits. -/
theorem Isolated.waiting {S : Isolate σ} (h : Isolated R prog x L p g S)
    (hoff : p ∉ g.stack.map Frame.task) : S.next prog = none := by
  have hphase : (g.view p).phase = .off := phaseOf_eq_off hoff
  unfold Isolate.next
  rw [h.follows.phase, hphase]
  rfl

theorem Value.plain_bare (val : Value) : val.bare.plain = val.plain := by
  cases val with
  | commit f => cases f <;> rfl
  | _ => rfl

/-- Whether locals own a write buffer does not depend on the pool. -/
theorem PlainLocals.bare {L₁ L₂ : List (Option Value)} (h : PlainLocals L₁)
    (hL : bareLocals L₁ = bareLocals L₂) : PlainLocals L₂ := by
  intro u val hu
  have hget : L₁[u]?.map (Option.map Value.bare) = some (some val.bare) := by
    rw [← bareLocals_getElem?, hL, bareLocals_getElem?, hu]
    rfl
  obtain ⟨o, ho, hval⟩ := Option.map_eq_some_iff.mp hget
  obtain ⟨val₁, rfl, hbare⟩ := Option.map_eq_some_iff.mp hval
  rw [← val.plain_bare, ← hbare, val₁.plain_bare]
  exact h u val₁ ho

/-- The program of a task and the block it begins as are the same in two runs. -/
structure SameTask (R : Set σ) (code₁ code₂ : Code σ) (x : σ) (L₁ L₂ : List (Option Value)) :
    Prop where
  same : ∀ y ∈ R, code₁ y = code₂ y
  confined : Confined code₁.instr R
  begins : x ∈ R
  plain : PlainLocals L₁
  captured : bareLocals L₁ = bareLocals L₂

/-- The machine of the task in two runs. -/
theorem SameTask.isolated {code₁ code₂ : Code σ} {L₁ L₂ : List (Option Value)} {p₁ p₂ : TaskPtr}
    {g₁ g₂ : Scene σ} (h : SameTask R code₁ code₂ x L₁ L₂) (h₁ : TaskRun code₁ x L₁ p₁ g₁)
    (h₂ : TaskRun code₂ x L₂ p₂ g₂) :
    (∃ S₁, Isolated R code₁.instr x L₁ p₁ g₁ S₁) ∧ ∃ S₂, Isolated R code₁.instr x L₁ p₂ g₂ S₂ := by
  refine ⟨h₁.isolate h.begins h.plain (fun _ _ => rfl) h.confined, ?_⟩
  obtain ⟨S₂, hS₂⟩ :=
    h₂.isolate h.begins (h.plain.bare h.captured) (fun y hy => (h.same y hy).symm) h.confined
  exact ⟨S₂, hS₂.sound, hS₂.begun, hS₂.refs, h.captured ▸ hS₂.replay, hS₂.follows⟩

/-- **Two runs are the same to a task** that begins as the same block in both, and has received the
same completions: its polls, their contexts, what it submits and the responses its code gets. Other
tasks may submit write buffers, as long as no completion of one is handled. -/
theorem isolation_run {code₁ code₂ : Code σ} {L₁ L₂ : List (Option Value)} {p₁ p₂ : TaskPtr}
    {W₁ W₂ : List Sqe} {g₁ g₂ : Scene σ} (h : SameTask R code₁ code₂ x L₁ L₂)
    (h₁ : SubmittingTask code₁ x L₁ p₁ W₁ g₁) (h₂ : SubmittingTask code₂ x L₂ p₂ W₂ g₂)
    (hW₁ : g₁.state.Unhandled W₁) (hW₂ : g₂.state.Unhandled W₂)
    (hoff₁ : p₁ ∉ g₁.stack.map Frame.task) (hoff₂ : p₂ ∉ g₂.stack.map Frame.task)
    (hans : answers (g₁.log p₁) = answers (g₂.log p₂)) :
    trail (g₁.log p₁) = trail (g₂.log p₂) := by
  obtain ⟨logs₁, S₁, hS₁⟩ := h₁.isolate hW₁ h.begins h.plain (fun _ _ => rfl) h.confined
  obtain ⟨logs₂, S₂, hS₂⟩ := h₂.isolate hW₂ h.begins (h.plain.bare h.captured)
    (fun y hy => (h.same y hy).symm) h.confined
  rw [← answers_uncounted hS₁.log, ← answers_uncounted hS₂.log] at hans
  have hreplay₂ := hans ▸ h.captured ▸ hS₂.isolated.replay
  have heq : S₁ = S₂ :=
    hS₁.isolated.replay.unique hreplay₂ (hS₁.isolated.waiting hoff₁) (hS₂.isolated.waiting hoff₂)
  rw [← trail_uncounted hS₁.log, ← trail_uncounted hS₂.log, ← hS₁.isolated.trail,
    ← hS₂.isolated.trail, heq]

end Isolated

/-! ## A task alone, and spawned by a stream -/

/-- Execute moves that leave no waker of the task `p`. -/
def taskScript (code : Code σ) (p : TaskPtr) (ms : List (WakeMove σ)) (g : Scene σ) :
    Option (Scene σ) :=
  ms.foldlM (fun g m => (wakeMove code m g).filter fun g' => g'.wakers.refs p == 0) g

theorem SubmittingTask.script {W : List Sqe} {ms : List (WakeMove σ)} : ∀ {g g' : Scene σ},
    SubmittingTask code x L p W g → taskScript code p ms g = some g' →
    SubmittingTask code x L p W g' := by
  induction ms with
  | nil =>
    intro g g' h hs
    cases hs
    exact h
  | cons m ms ih =>
    intro g g' h hs
    unfold taskScript at hs
    rw [List.foldlM_cons, Option.bind_eq_bind, Option.bind_eq_some_iff] at hs
    obtain ⟨g1, hm, hs⟩ := hs
    obtain ⟨hm, hrefs⟩ := Option.filter_eq_some_iff.mp hm
    exact ih (h.step (wakeMove_step hm) (beq_iff_eq.mp hrefs)) hs

/-- The task `p` is at `x`, with no local. -/
def Scene.beginsAt [DecidableEq σ] (g : Scene σ) (p : TaskPtr) (x : σ) : Bool :=
  (g.state.heap[p]?.map RawTask.future).any fun b => b.code == some x && b.locals.isEmpty

/-- Execute a move that begins the task `p` at `x`, and moves that leave no waker of it. -/
def beginTask [DecidableEq σ] (code : Code σ) (x : σ) (p : TaskPtr) (birth : WakeMove σ)
    (rest : List (WakeMove σ)) (g : Scene σ) : Option (Scene σ) :=
  if p = g.state.heap.length then
    ((wakeMove code birth g).filter fun g' => g'.beginsAt p x).bind (taskScript code p rest)
  else none

/-- The same on a fresh thread, after other moves. -/
def freshTask [DecidableEq σ] (code : Code σ) (x : σ) (p : TaskPtr) (before : List (WakeMove σ))
    (birth : WakeMove σ) (rest : List (WakeMove σ)) : Option (Scene σ) :=
  (freshWakes code before).bind (beginTask code x p birth rest)

theorem SubmittingTask.begin [DecidableEq σ] {W : List Sqe} {birth : WakeMove σ}
    {rest : List (WakeMove σ)} (h : SubmittingRun code W g)
    (hb : beginTask code x p birth rest g = some g') : SubmittingTask code x [] p W g' := by
  unfold beginTask at hb
  split at hb
  · rename_i hp
    obtain ⟨g1, hg1, hb⟩ := Option.bind_eq_some_iff.mp hb
    obtain ⟨hg1, hbegins⟩ := Option.filter_eq_some_iff.mp hg1
    refine (SubmittingTask.born h (wakeMove_step hg1) hp ?_).script hb
    unfold Scene.beginsAt at hbegins
    obtain ⟨⟨c, L⟩, hfut, hbegins⟩ := (Option.any_eq_true _ _).mp hbegins
    rw [Bool.and_eq_true, beq_iff_eq, List.isEmpty_iff] at hbegins
    obtain ⟨rfl, rfl⟩ := hbegins
    exact hfut
  · cases hb

theorem TaskRun.fresh [DecidableEq σ] {before rest : List (WakeMove σ)} {birth : WakeMove σ}
    (h : freshTask code x p before birth rest = some g) : TaskRun code x [] p g := by
  obtain ⟨g0, hg0, h⟩ := Option.bind_eq_some_iff.mp h
  exact submittingTask_nil_iff.mp (.begin (submittingRun_nil_iff.mpr (.fresh hg0)) h)

/-- A task that accepts one connection and reads from it once. -/
def acceptsAndReads : Nat → Instr Nat
  | 0 => .make (.accept 3) fun _ => 1
  | 1 => .poll 0 fun r => if r.isSome then 3 else 2
  | 2 => .suspend 1
  | 3 => .make (.read 7) fun _ => 4
  | 4 => .poll 1 fun r => if r.isSome then 6 else 5
  | 5 => .suspend 4
  | _ => .ret

/-- The program spawns the task. -/
def readsAlone : Code Nat := ⟨acceptsAndReads, fun x => x == 0⟩

/-- The program spawns a task that spawns one for each connection of a stream. -/
def readsPerItem : Code Nat where
  instr
    | 7 => .makeStream (.acceptStream 9) fun _ => 8
    | 8 => .poll 0 fun r => if r.isSome then 9 else 10
    | 9 => .spawn 0 [] 10
    | 10 => .suspend 8
    | n => acceptsAndReads n
  entry x := x == 7

/-- The task alone, after its first poll has begun. -/
def aloneMoves : List (WakeMove Nat) :=
  [.run, .run, .run, .leave, .idle .submit, .idle .consume, .idle (.complete 0 5 0), .handle,
    .run, .run, .run, .run, .leave, .idle .submit, .idle .consume, .idle (.complete 1 0 0), .handle,
    .run, .run, .leave]

/-- The first connection of the stream. -/
def untilItem : List (WakeMove Nat) :=
  [.main 7, .run, .run, .run, .leave, .idle .submit, .idle .consume,
    .idle (.complete 0 11 2), .handle, .run]

/-- The task, after its first poll has begun in that of its parent, and a second one between its
completions. -/
def nestedMoves : List (WakeMove Nat) :=
  [.run, .run, .run, .leave, .run, .leave, .idle .submit, .idle .consume, .idle (.complete 1 5 0),
    .idle (.complete 0 12 2), .handle, .run, .run, .run, .run, .leave, .handle, .run, .run, .run,
    .run, .run, .leave, .run, .leave, .idle .submit, .idle .consume, .idle .consume,
    .idle (.complete 2 0 0), .handle, .run, .run, .leave]

/-- What is seen of a task: the polls under way, the tasks, and the answers. -/
def Scene.heard (g : Scene σ) (p : TaskPtr) : List TaskPtr × Nat × List Answer :=
  (g.stack.map Frame.task, g.state.heap.length, answers (g.log p))

theorem le_six {y : Nat} (h : y ≤ 6) : y = 0 ∨ y = 1 ∨ y = 2 ∨ y = 3 ∨ y = 4 ∨ y = 5 ∨
    y = 6 := by omega

theorem acceptsAndReads_confined : Confined acceptsAndReads {y | y ≤ 6} := by
  intro y hy
  obtain rfl | rfl | rfl | rfl | rfl | rfl | rfl := le_six hy
  all_goals simp [acceptsAndReads, Instr.Stays]
  all_goals
    intro r
    split <;> decide

theorem readsPerItem_same (y : Nat) (hy : y ∈ {y : Nat | y ≤ 6}) :
    readsAlone y = readsPerItem y := by
  obtain rfl | rfl | rfl | rfl | rfl | rfl | rfl := le_six hy
  all_goals rfl

theorem readsPerItem_sameTask : SameTask {y | y ≤ 6} readsAlone readsPerItem 0 [] [] := by
  refine ⟨readsPerItem_same, acceptsAndReads_confined, Nat.zero_le 6, ?_, rfl⟩
  intro v val hv
  cases hv

/-- The program also submits a write buffer. -/
def readsBesideWrite : Code Nat where
  instr
    | 11 => .allocWrite fun _ => 12
    | 12 => .suspend 12
    | n => readsPerItem n
  entry x := x == 7 || x == 11

/-- The first poll of the task in that of its parent, and the first one of the task that writes, as
far as its submit. -/
def untilWrite : List (WakeMove Nat) := [.run, .run, .run, .leave, .run, .leave, .main 11, .run]

/-- What comes after the submit: its completion is the last one. -/
def besideWrite : List (WakeMove Nat) :=
  [.run, .leave, .idle .submit, .idle .consume, .idle .consume, .idle (.complete 1 5 0),
    .idle (.complete 0 12 2), .handle, .run, .run, .run, .run, .leave, .handle, .run, .run, .run,
    .run, .run, .leave, .run, .leave, .idle .submit, .idle .consume, .idle .consume,
    .idle (.complete 3 0 0), .idle (.complete 2 4 0), .handle, .run, .run, .leave]

theorem readsBesideWrite_sameTask : SameTask {y | y ≤ 6} readsAlone readsBesideWrite 0 [] [] := by
  refine ⟨fun y hy => ?_, acceptsAndReads_confined, Nat.zero_le 6, ?_, rfl⟩
  · obtain rfl | rfl | rfl | rfl | rfl | rfl | rfl := le_six hy
    all_goals rfl
  · intro v val hv
    cases hv

/-- The identities of the SQEs whose completions were handled. -/
def State.handled (s : State σ) : List Nat :=
  s.heap.flatMap fun raw => (raw.log.filterMap Event.cqe?).map fun e => e.sqe.id

theorem State.unhandled_of_id {s : State σ} {q : Sqe} (h : q.id ∉ s.handled) :
    s.Unhandled [q] := by
  intro raw hraw e cls others he hq
  obtain rfl := List.mem_singleton.mp hq
  refine h (List.mem_flatMap.mpr ⟨raw, hraw, List.mem_map.mpr ⟨e, ?_, rfl⟩⟩)
  exact List.mem_filterMap.mpr ⟨_, he, rfl⟩

/-- The task alone, and spawned within a poll of its parent, which is polled once more between the
completions that the task receives. Another task submits a write buffer, whose completion is not
handled yet. -/
theorem isolation_run_nested : ∃ g₁ g₂ q, SubmittingTask readsAlone 0 [] 0 [] g₁ ∧
    SubmittingTask readsBesideWrite 0 [] 1 [q] g₂ ∧ g₂.state.heap.length = 4 ∧
    g₂.state.ring.cq.map (fun e => e.sqe.id) = [q.id] ∧
    answers (g₂.log 1) = [⟨0, 5, 0⟩, ⟨1, 0, 0⟩] ∧ trail (g₁.log 0) = trail (g₂.log 1) := by
  have halone : (freshTask readsAlone 0 0 [] (.main 0) aloneMoves).map (Scene.heard · 0) =
      some ([], 1, [⟨0, 5, 0⟩, ⟨1, 0, 0⟩]) := by
    decide +kernel
  have hbeside : (freshTask readsBesideWrite 0 1 untilItem .run untilWrite).bind (fun g =>
      ((submitTop 0 5 4 g).bind (taskScript readsBesideWrite 1 besideWrite)).map fun g' =>
        (g.state.nextSqe, g'.heard 1, g'.state.handled, g'.state.ring.cq.map fun e => e.sqe.id)) =
      some (2, ([], 4, [⟨0, 5, 0⟩, ⟨1, 0, 0⟩]), [0, 0, 1, 3], [2]) := by
    decide +kernel
  obtain ⟨g₁, hg₁, halone⟩ := Option.map_eq_some_iff.mp halone
  obtain ⟨g3, hg3, hbeside⟩ := Option.bind_eq_some_iff.mp hbeside
  obtain ⟨g₂, hg₂, hbeside⟩ := Option.map_eq_some_iff.mp hbeside
  obtain ⟨g4, hg4, hg₂⟩ := Option.bind_eq_some_iff.mp hg₂
  simp only [Scene.heard, Prod.mk.injEq] at halone hbeside
  obtain ⟨hoff₁, -, hans₁⟩ := halone
  obtain ⟨hnext, ⟨hoff₂, hlen, hans₂⟩, hhandled, hcq⟩ := hbeside
  obtain ⟨q, hq⟩ := submitTop_step hg4
  have hid : q.id = 2 := hq.id_eq.trans hnext
  have h₁ := submittingTask_nil_iff.mpr (TaskRun.fresh hg₁)
  have h₂ := ((submittingTask_nil_iff.mpr (TaskRun.fresh hg3)).submit hq).script hg₂
  have hW₁ : g₁.state.Unhandled [] := fun _ _ _ _ _ _ => List.not_mem_nil
  have hW₂ : g₂.state.Unhandled [q] := State.unhandled_of_id (by rw [hid, hhandled]; decide)
  refine ⟨g₁, g₂, q, h₁, h₂, hlen, hid ▸ hcq, hans₂, ?_⟩
  exact isolation_run readsBesideWrite_sameTask h₁ h₂ hW₁ hW₂ (by simp [hoff₁]) (by simp [hoff₂])
    (hans₁.trans hans₂.symm)

end Onlyio
