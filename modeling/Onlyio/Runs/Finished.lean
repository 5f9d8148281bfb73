import Onlyio.Machine.WakeViews
import Onlyio.Runs.Wakers

/-!
# Futures that have returned

`Task::poll` documents that a future is not polled again after `Ready`, and calls `poll_fn`
unconditionally. What keeps a finished future from being polled is the number: a completion reaches
`poll_fn` exactly when it carries the number that its task stores, and the number of a finished task
does not move any more. So everything depends on the SQEs that are outstanding when the block
returns. The wake-list loop polls without a number: it polls whatever task its entry names.

* **`finished_run`**: in a run with wakers where no block returns while one of its outstanding SQEs
  carries its number, and the loop takes no waker of a task that has returned, no future is polled
  after `Ready`.
* `finished_act`: nor in a command that fails, where there are no wakers.
* `finished_polled_again`: a stream dropped before its end, whose next completion polls the block
  that has returned.
-/

namespace Onlyio

variable {σ : Type}

/-- `Task::poll` has returned `Ready`. -/
def Event.isReady : Event → Bool
  | .ready _ => true
  | _ => false

theorem Event.quiet {e : Event} (h : e.inner = true) : e.isPoll = false ∧ e.isReady = false := by
  cases e <;> first | exact ⟨rfl, rfl⟩ | cases h

/-- No poll starts after `Ready`. -/
def PolledUntilReady (log : List Event) : Prop :=
  log.Pairwise fun a b => a.isReady = true → b.isPoll = false

/-- A block returns only when none of its outstanding SQEs carries its number. -/
def returnsAlone : Event → Bool
  | .ready rivals => rivals == 0
  | _ => true

/-- A task that has returned has no SQE outstanding that carries its number. -/
structure Finished (V : View σ) : Prop where
  log : PolledUntilReady V.log
  code : ∀ e ∈ V.log, e.isReady = true → V.block.code = none
  outs : ∀ e ∈ V.log, e.isReady = true → ∀ q ∈ V.outs, q.nb ≠ V.nb

theorem PolledUntilReady.append {log evs : List Event} (h : PolledUntilReady log)
    (hevs : evs.Pairwise fun a b => a.isReady = true → b.isPoll = false)
    (hnew : ∀ a ∈ log, a.isReady = true → ∀ b ∈ evs, b.isPoll = false) :
    PolledUntilReady (log ++ evs) :=
  List.pairwise_append.mpr ⟨h, hevs, fun a ha b hb hready => hnew a ha hready b hb⟩

/-- Events that start no poll keep the order, whatever they are. -/
theorem PolledUntilReady.append_quiet {log evs : List Event} (h : PolledUntilReady log)
    (hq : ∀ e ∈ evs, e.isPoll = false) : PolledUntilReady (log ++ evs) :=
  h.append (List.pairwise_of_forall_mem_list fun _ _ b hb _ => hq b hb) fun _ _ _ b hb => hq b hb

namespace Finished

variable {V V' : View σ}

/-- While there is code to run, the block has not returned. -/
theorem not_ready (h : Finished V) {x : σ} {L : List (Option Value)} (hb : V.block = ⟨some x, L⟩) :
    ∀ e ∈ V.log, e.isReady = false := by
  intro e he
  by_contra hready
  have hcode := h.code e he (by simpa using hready)
  rw [hb] at hcode
  cases hcode

/-- A step of a block that has not returned, which records no `Ready`. -/
theorem of_not_ready (hlog : PolledUntilReady V'.log) (hn : ∀ e ∈ V'.log, e.isReady = false) :
    Finished V' := by
  refine ⟨hlog, fun e he hready => ?_, fun e he hready => ?_⟩ <;>
  · rw [hn e he] at hready
    cases hready

/-- More quiet events, and fewer SQEs. -/
theorem mono (h : Finished V) (V' : View σ) (evs : List Event) (hlog : V'.log = V.log ++ evs)
    (hq : ∀ e ∈ evs, e.isPoll = false ∧ e.isReady = false) (hcode : V'.block.code = V.block.code)
    (hnb : V'.nb = V.nb) (hsub : ∀ q ∈ V'.outs, q ∈ V.outs) : Finished V' := by
  have hold : ∀ e ∈ V'.log, e.isReady = true → e ∈ V.log := fun e he hready => by
    rw [hlog] at he
    rcases List.mem_append.mp he with he | he
    · exact he
    · rw [(hq e he).2] at hready
      cases hready
  refine ⟨?_, fun e he hr => ?_, fun e he hr q hout => ?_⟩
  · rw [hlog]
    exact h.log.append_quiet fun e he => (hq e he).1
  · rw [hcode]
    exact h.code e (hold e he hr) hr
  · rw [hnb]
    exact h.outs e (hold e he hr) hr q (hsub q hout)

theorem settle (h : Finished V) : Finished V.settle := by
  unfold View.settle
  split
  · exact h.mono _ [.dropped] rfl (by simp [Event.isPoll, Event.isReady]) rfl rfl
      fun _ hq => hq
  · exact h

/-- **Every step of a task keeps it finished**, when its block returns alone. -/
theorem step {code : Code σ} {p : TaskPtr} (hs : TaskStep code p V V')
    (hok : ∀ e ∈ V'.log, returnsAlone e = true) (h : Finished V) : Finished V' := by
  cases hs with
  | locals hon hb => exact of_not_ready h.log (h.not_ready hb)
  | spawn hon hb => exact of_not_ready h.log (h.not_ready hb)
  | suspend hon hb => exact of_not_ready h.log (h.not_ready hb)
  | call hon hb hx hv hcall =>
    simp only [List.append_assoc]
    refine of_not_ready
      (h.log.append_quiet fun e he => (Event.quiet (hcall.inner _ _ _ _ _ e he)).1) fun e he => ?_
    rcases List.mem_append.mp he with he | he
    · exact h.not_ready hb e he
    · exact (Event.quiet (hcall.inner _ _ _ _ _ e he)).2
  | ret hon hb hx =>
    have hrivals : V.rivals V.nb = 0 := by
      simpa [returnsAlone] using hok (.ready (V.rivals V.nb)) (by simp)
    refine ⟨h.log.append_quiet (by simp [Event.isPoll]), fun _ _ _ => rfl, fun _ _ _ q hq => ?_⟩
    exact Multiset.countP_eq_zero.mp hrivals q hq
  | leave hover =>
    exact (h.mono { V with phase := .off } [] (List.append_nil _).symm (by simp) rfl rfl
      fun _ hq => hq).settle
  | @skip e others harr =>
    refine (h.mono { V with
      outs := V.answered e, log := V.log ++ [.cqe e .expired others] } _ rfl
      (by simp [Event.isPoll, Event.isReady]) rfl rfl fun q hq => ?_).settle
    exact View.mem_of_answered hq
  | accept harr hcls =>
    have hn : ∀ e ∈ V.log, e.isReady = false := by
      intro e he
      by_contra hready
      exact h.outs e he (by simpa using hready) _ harr.mem (harr.nb_eq hcls)
    refine of_not_ready
      (h.log.append (by simp [Event.isReady]) fun a ha hready => ?_) fun e he => ?_
    · rw [hn a ha] at hready
      cases hready
    · rcases List.mem_append.mp he with he | he
      · exact hn e he
      · simp only [List.mem_cons, List.not_mem_nil, or_false] at he
        rcases he with rfl | rfl <;> rfl

theorem born (i : SlabIdx) (x : σ) (L : List (Option Value)) : Finished (.born i x L) :=
  of_not_ready (by simp [PolledUntilReady, View.born, Event.isReady])
    (by simp [View.born, Event.isReady])

theorem isLocal (code : Code σ) : Local code returnsAlone fun _ => Finished where
  main _ i _ _ := born i _ []
  spawn _ i _ _ _ _ _ _ := born i _ _
  step hs hok h := step hs hok h

end Finished

/-- The wakers that the wake-list loop takes in a step. -/
def Scene.taken (g g' : Scene σ) : List (Waker × TaskPtr) :=
  g'.wakers.drained.drop g.wakers.drained.length

/-- Blocks return alone, and the loop takes no waker of a task whose block has returned. -/
def finishesAlone (g g' : Scene σ) : Bool :=
  g'.state.records returnsAlone && (g.taken g').all fun w => !(g.log w.2).any Event.isReady

/-- What the wakers of a task do keeps it finished, when none is taken after `Ready`. -/
theorem Finished.waker {g g' : Scene σ} {p : TaskPtr} (hc : finishesAlone g g' = true)
    (hs : WakerStep p g g') (h : Finished (g.view p)) : Finished (g'.view p) := by
  cases hs with
  | held hs =>
    generalize g.view p = V at h hs
    generalize g'.view p = V' at hs
    cases hs with
    | leave => exact h.mono _ [] (List.append_nil _).symm (by simp) rfl rfl fun _ hq => hq
    | skip => exact h.mono _ _ rfl (by simp [Event.isPoll, Event.isReady]) rfl rfl fun _ hq =>
        View.mem_of_answered hq
  | @woken w hw hd hoff hv =>
    subst hw
    have htaken : g.taken g' = [w] := by simp [Scene.taken, hd]
    have hn : ∀ e ∈ (g.view w.2).log, e.isReady = false := by
      rw [finishesAlone, htaken, Bool.and_eq_true] at hc
      simpa [Scene.log_eq] using hc.2
    rw [hv]
    refine .of_not_ready
      (h.log.append (by simp [Event.isReady]) fun a ha hready => ?_) fun e he => ?_
    · rw [hn a ha] at hready
      cases hready
    · rcases List.mem_append.mp he with he | he
      · exact hn e he
      · rw [List.mem_singleton.mp he]
        rfl
  | dropped n hoff hv =>
    rw [hv]
    unfold View.settleUnless
    split
    · exact h.settle
    · exact h

/-- **A completed future is not polled again**, by no completion and by no wake, in every run whose
blocks return only when none of their outstanding SQEs carries their number, and whose wake-list
loop takes no waker of a task that has returned. The poll that starts is recorded before the block
is called. -/
theorem finished_run {code : Code σ} {g : Scene σ}
    (h : WakeRunWith code (fun g g' => finishesAlone g g' = true) g) :
    ∀ raw ∈ g.state.heap, PolledUntilReady raw.log := by
  have hrec : ∀ g g' : Scene σ, finishesAlone g g' = true →
      g'.state.records returnsAlone = true := by
    intro g g' hc
    rw [finishesAlone, Bool.and_eq_true] at hc
    exact hc.1
  have hall := (Finished.isLocal code).wakes hrec (fun p g g' hc hs hf => hf.waker hc hs) h
  intro raw hraw
  obtain ⟨p, hp⟩ := List.mem_iff_getElem?.mp hraw
  have hlog : (g.view p).log = raw.log := by
    rw [← Scene.log_eq, Scene.log, hp]
    rfl
  rw [← hlog]
  exact (hall p (List.getElem?_eq_some_iff.mp hp).1).log

/-- Without wakers, no command polls a completed future either, and not either one that then
fails. -/
theorem finished_act {code : Code σ} {s : State σ}
    (h : RunWith code (fun _ s' => s'.records returnsAlone) s) :
    (∀ raw ∈ s.heap, PolledUntilReady raw.log) ∧
    ∀ cmd e s', act code cmd s = .error e s' → s'.records returnsAlone →
      ∀ raw ∈ s'.heap, PolledUntilReady raw.log := by
  have hlog : ∀ {s : State σ} {c : Core}, (∀ p, PolledUntilReady (c.cell p).log) → Trails c s.core →
      ∀ raw ∈ s.heap, PolledUntilReady raw.log := by
    intro s c hc ht raw hraw
    obtain ⟨p, hp⟩ := List.mem_iff_getElem?.mp hraw
    obtain ⟨evs, heq, hq⟩ := ht p
    rw [State.core_cell hp] at heq
    rw [show raw.log = _ from heq]
    exact (hc p).append_quiet hq
  have hall : ∀ {g : Config σ}, Views (fun _ => Finished) g →
      ∀ p, PolledUntilReady (g.core.cell p).log := by
    intro g hg p
    by_cases hp : p < g.core.spawned
    · exact (hg.all p hp).log
    · rw [hg.inv.slab.fresh p (Nat.le_of_not_lt hp)]
      exact List.Pairwise.nil
  refine ⟨hlog (hall ((Finished.isLocal code).run h)) (Trails.refl _), fun cmd e s' he hrec => ?_⟩
  obtain ⟨g, hg, ht⟩ := (Finished.isLocal code).fail h he hrec
  exact hlog (hall hg) ht

/-! ## A stream that is dropped before its end -/

/-- A block that takes one connection from an `accept_stream` and returns. -/
def firstConnection : Nat → Await.Instr Nat
  | 0 => .stream (.acceptStream 4) fun _ => 1
  | 1 => .next 0 fun _ => 2
  | _ => .ret

/-- Its stream answers once more after it has returned. -/
def firstConnectionRun : List (Cmd (Await.Point Nat)) :=
  [.spawn 9 (.run 0), .submit, .consume, .complete 0 7 2, .handle 9, .complete 0 8 2]

instance (log : List Event) : Decidable (PolledUntilReady log) :=
  inferInstanceAs (Decidable (List.Pairwise _ log))

theorem finished_polled_again :
    ∃ s s', Reachable (awaited firstConnection) s ∧
      act (awaited firstConnection) (.handle 9) s = .error (.panic .resumed) s' ∧
      ∃ raw ∈ s'.heap, ¬ PolledUntilReady raw.log := by
  have hrun :
      (freshScript (awaited firstConnection) (fun _ _ => true) firstConnectionRun).any (fun s =>
        (failure (awaited firstConnection) (.handle 9) s).any fun r =>
          decide (r.1 = .panic .resumed) && r.2.heap.any fun raw =>
            !decide (PolledUntilReady raw.log)) = true := by decide +kernel
  obtain ⟨s, hs, hact⟩ := (Option.any_eq_true _ _).mp hrun
  obtain ⟨⟨e, s'⟩, hf, hc⟩ := (Option.any_eq_true _ _).mp hact
  rw [Bool.and_eq_true, decide_eq_true_eq] at hc
  obtain ⟨rfl, hlogs⟩ := hc
  obtain ⟨raw, hraw, hlog⟩ := List.any_eq_true.mp hlogs
  exact ⟨s, s', .of_script (fun _ _ _ => trivial) hs, failure_eq_some hf, raw, hraw, by
    simpa using hlog⟩

/-- The task is woken while it waits, and returns in the poll of the wake. -/
theorem finished_run_woken :
    ∃ g, freshWakesWith wokenOnce finishesAlone thenWoken = some g ∧ g.wakers.drained.length = 1 ∧
      (∃ raw ∈ g.state.heap, ∃ e ∈ raw.log, e.isReady = true) ∧
      ∀ raw ∈ g.state.heap, PolledUntilReady raw.log := by
  have hrun : (freshWakesWith wokenOnce finishesAlone thenWoken).any
      (fun g => decide (g.wakers.drained.length = 1) &&
        g.state.heap.any fun raw => raw.log.any Event.isReady) = true := by decide +kernel
  obtain ⟨g, hg, hc⟩ := (Option.any_eq_true _ _).mp hrun
  rw [Bool.and_eq_true, decide_eq_true_eq] at hc
  obtain ⟨raw, hraw, hready⟩ := List.any_eq_true.mp hc.2
  exact ⟨g, hg, hc.1, ⟨raw, hraw, List.any_eq_true.mp hready⟩, finished_run (.fresh hg)⟩

end Onlyio
