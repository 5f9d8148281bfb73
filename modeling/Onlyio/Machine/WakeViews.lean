import Onlyio.Machine.WakeRuns
import Onlyio.Machine.Local

/-!
# One task's view, with wakers

To its task a waker does three things: as long as it is there the task is not freed, a wake polls
the task, and the drop of the last one frees it. Everything else that a run with wakers does to a
task is a `TaskStep`.

* `WakerStep`: what happens to a task because of its wakers.
* **`WakeEffect.views`**: a step of the thread is a step of one task, the birth of one, or a step of
  its wakers, and changes the view of no other.
* `WakeRunWith`: the runs with wakers whose steps meet a condition.
* **`Local.wakes`**: a local property that the wakers keep holds of every task, in every state of
  every run.
-/

namespace Onlyio

open Lib

variable {σ : Type} {code : Code σ} {g g' : Scene σ} {p : TaskPtr}

/-! ## Steps -/

/-- The view of `p`. -/
def Scene.view (g : Scene σ) (p : TaskPtr) : View σ := (g.state.config g.stack).view p

/-- What the task `p` has recorded. -/
def Scene.log (g : Scene σ) (p : TaskPtr) : List Event := (g.state.heap[p]?.map RawTask.log).getD []

theorem Scene.log_eq (g : Scene σ) (p : TaskPtr) : g.log p = (g.view p).log := by
  show _ = (g.state.core.cell p).log
  unfold Scene.log
  cases h : g.state.heap[p]? with
  | none => simp [State.core, h, Cell.absent]
  | some raw =>
    rw [State.core_cell h]
    rfl

/-- A task that is polled with the context `info` of the wake list. -/
def View.woken (V : View σ) (info : TaskInfo) : View σ :=
  { V with phase := .on info, log := V.log ++ [.poll info] }

/-- What happens to the task `p` because of its wakers. -/
inductive WakerStep (p : TaskPtr) (g g' : Scene σ) : Prop where
  /-- A poll ends, or a completion is skipped, and the task is held. -/
  | held (h : HeldStep (g.view p) (g'.view p))
  /-- The wake-list loop takes one of its wakers. -/
  | woken {w : Waker × TaskPtr} (hw : w.2 = p) (hd : g'.wakers.drained = g.wakers.drained ++ [w])
      (hoff : (g.view p).phase = .off) (hv : g'.view p = (g.view p).woken (.fromWaker w.1))
  /-- A waker is dropped, and `n` are left. -/
  | dropped (n : Nat) (hoff : (g.view p).phase = .off) (hv : g'.view p = (g.view p).settleUnless n)

/-- The step of the wake-list loop, for the task that it polls. -/
theorem view_wake {c c' : Core} {fut : TaskPtr → AsyncBlock σ} {info : TaskInfo}
    (hc : c' = c.wake p info) : (⟨c', fut, [⟨p, .handle false, none⟩]⟩ : Config σ).view p =
      ((⟨c, fut, []⟩ : Config σ).view p).woken info := by
  subst hc
  have hphase : phaseOf (c.wake p info).current [⟨p, .handle false, none⟩] p =
    .on info := phaseOf_top _
  refine View.ext ?_ rfl rfl ?_ hphase ?_ <;>
    simp [Config.view, View.woken, Core.wake, Core.stored, Core.logAt, Core.bump]

/-- A reference more changes no view. -/
theorem view_bump {c : Core} {fut : TaskPtr → AsyncBlock σ} {st : List Frame} (t : TaskPtr) :
    (⟨c.bump t 1, fut, st⟩ : Config σ).view p = (⟨c, fut, st⟩ : Config σ).view p := by
  by_cases hpt : p = t
  · subst hpt
    unfold Config.view Core.stored Core.bump
    simp only [Core.modifyCell_self]
    rfl
  · have hcell : (c.bump t 1).cell p = c.cell p := Core.modifyCell_ne _ _ hpt
    exact view_congr hcell rfl rfl rfl

/-- A reference to a task that is being polled is never the last one. -/
theorem view_release_polled {c : Core} {fut : TaskPtr → AsyncBlock σ} {st : List Frame}
    {W : TaskPtr → Nat} {n : Nat} (hinv : Inv (c.release p n) st W) (hp : p ∈ st.map Frame.task)
    (hlive : (c.cell p).freed = false) :
    (⟨c.release p n, dropFut c p n fut, st⟩ : Config σ).view p =
    (⟨c, fut, st⟩ : Config σ).view p := by
  obtain ⟨f, hf, rfl⟩ := List.mem_map.mp hp
  have hkeep : c.frees f.task n = false := (release_freed hlive n).symm.trans (hinv.live_of_mem hf)
  refine View.ext ?_ (own_release c _ n _) ?_ ?_ ?_ ?_
  · exact release_syscallNb n _
  · simp [Config.view, dropFut, hkeep]
  · simp [Config.view, Core.release, hkeep]
  · simp only [Config.view, release_current]
  · simp [Config.view, Core.release, hkeep]

/-- **A step of the thread is a step of one task**, the birth of one, or what its wakers do to
it. -/
theorem WakeEffect.views (he : WakeEffect code g g') (h : Sound g) (p : TaskPtr) :
    g'.view p = g.view p ∨ TaskStep code p (g.view p) (g'.view p) ∨
      p = g.state.core.spawned ∧ Born code g.view (g'.view p) ∨ 0 < g.wakers.refs p ∧
      WakerStep p g g' := by
  obtain ⟨W, hinv'⟩ : ∃ W, Inv g'.state.core g'.stack W := ⟨_, he.inv h⟩
  cases he with
  | step hs =>
    obtain heq | hstep | hborn | ⟨hpos, hheld⟩ := hs.view_held h.inv h.nodup p
    · exact .inl heq
    · exact .inr (.inl hstep)
    · exact .inr (.inr (.inl hborn))
    · exact .inr (.inr (.inr ⟨hpos, .held hheld⟩))
  | @wake L s s' w rest hq hc hf =>
    by_cases hp : w.2 = p
    · subst hp
      have hpos : 0 < L.refs w.2 :=
        Wakers.refs_pos (List.mem_append_right _ (hq ▸ List.mem_cons_self))
      refine .inr (.inr (.inr ⟨hpos, .woken rfl rfl rfl ?_⟩))
      simp only [Scene.view, State.config, hf]
      exact view_wake hc
    · have hcell : s'.core.cell p = s.core.cell p := by
        rw [hc]
        exact (logAt_cell_ne _ (Ne.symm hp) _).trans (Core.modifyCell_ne _ _ (Ne.symm hp))
      refine .inl (view_congr hcell ?_ (congrFun hf p) (phaseOf_ne hp))
      show s'.core.own p = s.core.own p
      rw [hc]
      rfl
  | @waker L s s' st payload t hslot hlive hc hf =>
    refine .inl ?_
    show (s'.config st).view p = (s.config st).view p
    rw [State.config, hc, hf, view_bump]
    rfl
  | @awake L s s' st w hw hc hf =>
    refine .inl ?_
    show (s'.config st).view p = (s.config st).view p
    rw [State.config, hc, hf]
    rfl
  | @drop L s s' st w hw hc hf =>
    have hall : w ∈ L.all := List.mem_append_left _ (List.mem_append_left _ hw)
    have hlive := (h.slot hall).1
    have hview : Scene.view ⟨{ L with held := L.held.erase w }, s', st⟩ p =
        (⟨{ s.core.release w.2 1 with current := s.core.current }, dropFut s.core w.2 1 s.fut, st⟩ :
          Config σ).view p := by
      show (s'.config st).view p = _
      rw [State.config, hc, hf, ← release_current s.core w.2 1]
    rw [hc] at hinv'
    by_cases hp : p = w.2
    · subst hp
      by_cases hmem : w.2 ∈ st.map Frame.task
      · refine .inl (hview.trans ?_)
        rw [← release_current s.core w.2 1]
        exact view_release_polled hinv' hmem hlive
      · have hoff : phaseOf s.core.current st w.2 = .off := phaseOf_eq_off hmem
        refine .inr (.inr (.inr ⟨Wakers.refs_pos hall, .dropped (W w.2) hoff ?_⟩))
        have hinv2 : Inv { s.core.release w.2 1 with current := s.core.current } st W := by
          rw [← release_current s.core w.2 1]
          exact hinv'
        refine hview.trans (.trans (view_release hlive hmem hinv2) ?_)
        exact congrArg (View.settleUnless · (W w.2)) (View.ext rfl rfl rfl rfl hoff.symm hlive.symm)
    · refine .inl (hview.trans ?_)
      exact view_ne_of_release s.core.current rfl hp

/-- A task that is created is not freed. -/
theorem WakeEffect.created (he : WakeEffect code g g') (hge : g.state.core.spawned ≤ p)
    (hlt : p < g'.state.core.spawned) : (g'.view p).freed = false := by
  have hold : g'.state.core.spawned = g.state.core.spawned → False := by
    intro heq
    rw [heq] at hlt
    exact Nat.not_lt.mpr hge hlt
  cases he with
  | wake hq hc | waker hslot hlive hc | awake hw hc =>
    exact (hold ((congrArg Core.spawned hc).trans rfl)).elim
  | drop hw hc => exact (hold ((congrArg Core.spawned hc).trans (release_spawned ..))).elim
  | step hs =>
    obtain ⟨i, -, -, hlive⟩ := hs.created hge hlt
    exact hlive

/-- A task that is not spawned yet is freed, to its view. -/
theorem Sound.fresh (h : Sound g) (hp : g.state.core.spawned ≤ p) : (g.view p).freed = true := by
  show (g.state.core.cell p).freed = true
  rw [h.inv.slab.fresh p hp]
  rfl

/-- A task that was never spawned is held by no waker. -/
theorem Sound.refs_fresh (h : Sound g) (hp : g.state.core.spawned ≤ p) : g.wakers.refs p = 0 := by
  by_contra hne
  have hlive := h.inv.refs.live_of_pos (p := p) (Nat.add_pos_right _ (Nat.pos_of_ne_zero hne))
  exact absurd (h.inv.slab.lt_spawned hlive) (Nat.not_lt.mpr hp)

/-! ## Runs under a condition -/

/-- What a thread with wakers reaches by steps that meet the condition `cond`. -/
inductive WakeRunWith (code : Code σ) (cond : Scene σ → Scene σ → Prop) : Scene σ → Prop where
  | new {base : Nat} {s : State σ} (h : State.new base = .ok s) :
      WakeRunWith code cond ⟨.empty, s, []⟩
  | step {g g' : Scene σ} (h : WakeRunWith code cond g) (hs : WakeStep code g g') (hc : cond g g') :
      WakeRunWith code cond g'

section Run

variable {cond : Scene σ → Scene σ → Prop} {ok : Event → Bool} {φ : TaskPtr → View σ → Prop}

theorem WakeRunWith.wakeRun (h : WakeRunWith code cond g) : WakeRun code g := by
  induction h with
  | new h => exact .new h
  | step _ hs _ ih => exact ih.step hs

/-- **A local property that the wakers keep** holds of every task in every run whose steps meet the
condition. -/
theorem Local.wakes (h : Local code ok φ) (hrec : ∀ g g' : Scene σ, cond g g' →
    g'.state.records ok = true) (hw : ∀ (p : TaskPtr) (g g' : Scene σ), cond g g' →
    WakerStep p g g' → φ p (g.view p) → φ p (g'.view p)) (hr :
    WakeRunWith code cond g) : ∀ p < g.state.core.spawned, φ p (g.view p) := by
  induction hr with
  | new hnew =>
    intro p hp
    obtain ⟨-, hheap, -⟩ := State.new_spec hnew
    simp [State.core, hheap] at hp
  | @step g g' hr hs hc ih =>
    intro p hp
    have hsound := hr.wakeRun.sound
    have he := (hs.effect hsound).2
    have hlog : ∀ e ∈ (g'.view p).log, ok e = true := State.records_iff.mp (hrec g g' hc) p
    obtain heq | hstep | ⟨rfl, hborn⟩ | ⟨hpos, hstep⟩ := he.views hsound p
    · by_cases hlt : p < g.state.core.spawned
      · rw [heq]
        exact ih p hlt
      · have hfreed := he.created (Nat.le_of_not_lt hlt) hp
        rw [heq, hsound.fresh (Nat.le_of_not_lt hlt)] at hfreed
        cases hfreed
    · exact h.step hstep hlog (ih p (hstep.not_fresh hsound.inv))
    · generalize g'.view g.state.core.spawned = V at hborn hlog
      cases hborn with
      | main i hx => exact h.main _ i hx
      | @spawn q _ _ _ _ _ _ _ _ i hon hb hx hm =>
        refine h.spawn _ i (ih q ?_) hon hb hx hm (hlog _ List.mem_cons_self)
        exact (TaskStep.spawn hon hb hx hm : TaskStep code q _ _).not_fresh hsound.inv
    · refine hw p g g' hc hstep (ih p ?_)
      by_contra hge
      rw [hsound.refs_fresh (Nat.le_of_not_lt hge)] at hpos
      exact Nat.lt_irrefl 0 hpos

end Run

/-! ## Concrete runs -/

/-- Execute moves as long as each one succeeds and meets the condition. -/
def wakeScriptWith (code : Code σ) (ok : Scene σ → Scene σ → Bool) :
    List (WakeMove σ) → Scene σ → Option (Scene σ)
  | [], g => some g
  | m :: ms, g =>
    match wakeMove code m g with
    | some g' => if ok g g' then wakeScriptWith code ok ms g' else none
    | none => none

/-- Execute moves on a fresh thread, with the buffers at address `0`. -/
def freshWakesWith (code : Code σ) (ok : Scene σ → Scene σ → Bool) (ms : List (WakeMove σ)) :
    Option (Scene σ) :=
  match State.new 0 with
  | .ok s => wakeScriptWith code ok ms ⟨.empty, s, []⟩
  | .error _ => none

theorem WakeRunWith.script {ok : Scene σ → Scene σ → Bool} {ms : List (WakeMove σ)} :
    ∀ {g g' : Scene σ}, WakeRunWith code (fun g g' => ok g g' = true) g →
    wakeScriptWith code ok ms g = some g' →
      WakeRunWith code (fun g g' => ok g g' = true) g' := by
  induction ms with
  | nil =>
    intro g g' h hs
    obtain rfl := Option.some.inj hs
    exact h
  | cons m ms ih =>
    intro g g' h hs
    unfold wakeScriptWith at hs
    split at hs
    · rename_i g1 hm
      split at hs
      · rename_i hok
        exact ih (h.step (wakeMove_step hm) hok) hs
      · cases hs
    · cases hs

theorem WakeRunWith.fresh {ok : Scene σ → Scene σ → Bool} {ms : List (WakeMove σ)}
    (h : freshWakesWith code ok ms = some g) : WakeRunWith code (fun g g' => ok g g' = true) g := by
  unfold freshWakesWith at h
  split at h
  · rename_i s hs
    exact (WakeRunWith.new hs).script h
  · cases h

end Onlyio
