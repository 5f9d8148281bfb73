import Onlyio.Runs.Isolation

/-!
# Every task of a run is a machine of its own

`Isolation` compares two runs at the same point. Here the runs are compared at different points, and
a whole run is taken apart into machines.

* **`causality_run`**: what a task has seen depends on nothing but the completions it has received
  so far; later ones only add to it.
* **`reachable_isolates`**: in a program without write buffers every task of every reachable state
  is where its machine is, so the scheduler, the slab and the ring add nothing to what the tasks do
  one by one.
-/

namespace Onlyio

open Lib

variable {σ : Type} {code : Code σ} {R : Set σ} {prog : σ → Instr σ} {S S' : Isolate σ}

/-! ## Nothing seen is forgotten -/

theorem Isolate.run_trail {cur : TaskInfo} {L : List (Option Value)} {i : Instr σ}
    (h : S.run cur L i = some S') : S.trail <+: S'.trail := by
  unfold run at h
  cases i with
  | ret =>
    cases h
    exact List.prefix_append _ _
  | poll v k =>
    obtain ⟨val, -, h⟩ := Option.bind_eq_some_iff.mp h
    obtain ⟨t, -, rfl⟩ := Option.map_eq_some_iff.mp h
    exact (List.prefix_append _ _).trans (List.prefix_append _ _)
  | make op k =>
    obtain ⟨r, -, rfl⟩ := Option.map_eq_some_iff.mp h
    exact List.prefix_refl _
  | allocWrite k | cloneWrite v k => cases h
  | suspend k | makeStream op k | drop v k | spawn child moved k =>
    cases h
    exact List.prefix_refl _

theorem Isolate.next_trail (h : S.next prog = some S') : S.trail <+: S'.trail := by
  unfold next at h
  split at h
  · cases h
  · cases h
    exact List.prefix_refl _
  · obtain ⟨x, -, h⟩ := Option.bind_eq_some_iff.mp h
    exact run_trail h

theorem Isolate.take_trail {a : Answer} (h : S.take a = some S') : S.trail <+: S'.trail := by
  unfold take at h
  obtain ⟨t, -, h⟩ := Option.bind_eq_some_iff.mp h
  split at h
  · cases h
  · cases h
    exact List.prefix_refl _
  all_goals
    cases h
    exact List.prefix_append _ _

theorem Replay.trail {ins : List Answer} (h : Replay (isolate prog) S ins S') :
    S.trail <+: S'.trail := by
  refine h.invariant (R := fun S S' => S.trail <+: S'.trail) (List.prefix_refl _) ?_ ?_
  · intro S₁ S₂ hn hp
    exact hp.trans (Isolate.next_trail hn)
  · intro S₁ a S₂ ht hp
    exact hp.trans (Isolate.take_trail ht)

/-! ## Two runs at different points -/

section Runs

variable {code₁ code₂ : Code σ} {x : σ} {L₁ L₂ : List (Option Value)} {p₁ p₂ : TaskPtr}
  {g₁ g₂ : Scene σ}

/-- **What a task has seen depends only on the completions that it has received**: the run in which
it has received more goes on where the other one stands, in the middle of a poll too. -/
theorem causality_run (h : SameTask R code₁ code₂ x L₁ L₂) (h₁ : TaskRun code₁ x L₁ p₁ g₁)
    (h₂ : TaskRun code₂ x L₂ p₂ g₂) (hoff : p₂ ∉ g₂.stack.map Frame.task)
    (hans : answers (g₁.log p₁) <+: answers (g₂.log p₂)) :
    trail (g₁.log p₁) <+: trail (g₂.log p₂) := by
  obtain ⟨⟨S₁, hS₁⟩, S₂, hS₂⟩ := h.isolated h₁ h₂
  obtain ⟨later, hlater⟩ := hans
  rw [← hS₁.trail, ← hS₂.trail]
  obtain hgoes | ⟨-, hback⟩ := hS₁.replay.follow (hlater ▸ hS₂.replay)
  · exact Replay.trail hgoes
  · -- the first run is not ahead of a machine that waits
    have heq : S₁ = S₂ := hback.eq_of_waiting (hS₂.waiting hoff)
    exact heq ▸ List.prefix_refl _

/-- The task alone in the poll of its first completion, and the nested one after both of its
completions. -/
theorem causality_run_nested : ∃ g₁ g₂, TaskRun readsAlone 0 [] 0 g₁ ∧
    TaskRun readsPerItem 0 [] 1 g₂ ∧ g₁.stack.map Frame.task = [0] ∧
    answers (g₁.log 0) = [⟨0, 5, 0⟩] ∧ answers (g₂.log 1) = [⟨0, 5, 0⟩, ⟨1, 0, 0⟩] ∧
    trail (g₁.log 0) <+: trail (g₂.log 1) := by
  have halone : (freshTask readsAlone 0 0 [] (.main 0) (aloneMoves.take 10)).map (Scene.heard · 0) =
      some ([0], 1, [⟨0, 5, 0⟩]) := by
    decide +kernel
  have hnested : (freshTask readsPerItem 0 1 untilItem .run nestedMoves).map (Scene.heard · 1) =
      some ([], 3, [⟨0, 5, 0⟩, ⟨1, 0, 0⟩]) := by
    decide +kernel
  obtain ⟨g₁, hg₁, halone⟩ := Option.map_eq_some_iff.mp halone
  obtain ⟨g₂, hg₂, hnested⟩ := Option.map_eq_some_iff.mp hnested
  simp only [Scene.heard, Prod.mk.injEq] at halone hnested
  obtain ⟨hon₁, -, hans₁⟩ := halone
  obtain ⟨hoff₂, -, hans₂⟩ := hnested
  have hfirst : answers (g₁.log 0) <+: answers (g₂.log 1) := by
    rw [hans₁, hans₂]
    exact List.prefix_append [_] [_]
  exact ⟨g₁, g₂, .fresh hg₁, .fresh hg₂, hon₁, hans₁, hans₂,
    causality_run readsPerItem_sameTask (.fresh hg₁) (.fresh hg₂) (by simp [hoff₂]) hfirst⟩

end Runs

/-! ## Every task of a run -/

/-- A step spawns one task at most. -/
theorem Step.spawned_le {g g' : Config σ} (hs : Step code g g') :
    g'.core.spawned ≤ g.core.spawned + 1 := by
  cases hs with
  | spawn | main => exact Nat.le_refl _
  | poll hf hx hv h =>
    obtain ⟨_, _, _, -, heff⟩ := h.effect
    exact Nat.le_succ_of_le (Nat.le_of_eq heff.spawned)
  | spawnEnd | handleEnd => exact Nat.le_succ_of_le (Nat.le_of_eq (release_spawned ..))
  | skip => exact Nat.le_succ_of_le (Nat.le_of_eq (release_spawned ..))
  | handle he hp hcls => rcases hcls with hcls | hcls <;> rw [hcls] <;> exact Nat.le_succ _
  | locals | suspend | ret | submit | consume | complete | free => exact Nat.le_succ _

theorem WakeEffect.spawned_le {g g' : Scene σ} (he : WakeEffect code g g') :
    g'.state.core.spawned ≤ g.state.core.spawned + 1 := by
  cases he with
  | step hs => exact hs.spawned_le
  | wake hq hc | waker hslot hlive hc | awake hw hc =>
    rw [hc]
    exact Nat.le_succ _
  | drop hw hc =>
    rw [hc, release_spawned]
    exact Nat.le_succ _

/-- Without wakers every task that was spawned has a run of its own, from values that own no write
buffer. -/
def Solitary (code : Code σ) (g : Scene σ) : Prop :=
  WakeRun code g ∧ g.wakers = .empty ∧
    ∀ p, p < g.state.heap.length → ∃ x L, TaskRun code x L p g ∧ PlainLocals L

/-- A task that is being polled is there. -/
theorem Sound.lt_of_on {g : Scene σ} (h : Sound g) {p : TaskPtr} {cur : TaskInfo}
    (hon : (g.view p).phase = .on cur) : p < g.state.core.spawned := by
  by_cases hmem : p ∈ g.stack.map Frame.task
  · obtain ⟨f, hf, rfl⟩ := List.mem_map.mp hmem
    exact h.inv.slab.lt_spawned (h.inv.live_of_mem hf)
  · have hoff : (g.view p).phase = .off := phaseOf_eq_off hmem
    rw [hoff] at hon
    cases hon

/-- A task of a run was spawned with the values that it has captured, and no waker holds it. -/
theorem TaskRun.spawned {x : σ} {L : List (Option Value)} {p : TaskPtr} {g : Scene σ}
    (h : TaskRun code x L p g) : g.wakers.refs p = 0 ∧ [Event.spawned L] <+: g.log p := by
  induction h with
  | @born g g' h hs hp hb =>
    obtain ⟨-, he⟩ := hs.effect h.sound
    obtain ⟨raw, hraw, hfut⟩ := Option.map_eq_some_iff.mp hb
    obtain ⟨hW, hborn⟩ := he.born h.sound hp (List.getElem?_eq_some_iff.mp hraw).1
    obtain ⟨i, y, L', hview⟩ := hborn.eq_born
    have hblock : (g'.view p).block = ⟨some x, L⟩ := (State.fut_eq hraw).trans hfut
    rw [hview] at hblock
    obtain ⟨-, rfl⟩ : some y = some x ∧ L' = L := AsyncBlock.mk.inj hblock
    refine ⟨?_, ?_⟩
    · rw [hW]
      exact h.sound.refs_fresh (Nat.le_of_eq hp.symm)
    · rw [Scene.log_eq, hview]
      exact List.prefix_append [Event.spawned L'] [_]
  | @step g g' h hs hw ih =>
    obtain ⟨hrefs, hlog⟩ := ih
    have hsound := h.wakeRun.sound
    obtain ⟨-, he⟩ := hs.effect hsound
    refine ⟨hw, ?_⟩
    rw [Scene.log_eq] at hlog ⊢
    obtain heq | hstep | ⟨hnew, -⟩ := he.view hsound hrefs
    · rwa [heq]
    · exact hlog.trans hstep.log
    · have habsent := hsound.inv.slab.fresh p (Nat.le_of_eq hnew.symm)
      have hnil : (g.view p).log = [] := congrArg Cell.log habsent
      rw [hnil] at hlog
      exact absurd (List.prefix_nil.mp hlog) (List.cons_ne_nil _ _)

section Program

variable (hcode : ∀ x, (code x).Stays Set.univ)

include hcode

/-- What a new task has captured owns no write buffer. -/
theorem Solitary.captured {g : Scene σ} (h : Solitary code g) {V : View σ}
    (hb : Born code g.view V) : PlainLocals V.block.locals := by
  obtain ⟨hrun, -, htasks⟩ := h
  cases hb with
  | main i hx => exact Held.nil
  | spawn i hon hb hx hm =>
    obtain ⟨x, L, ht, hL⟩ := htasks _ (hrun.sound.lt_of_on hon)
    obtain ⟨S, hS⟩ := ht.isolate (R := Set.univ) trivial hL (fun _ _ => rfl) fun y _ => hcode y
    have hplain := hS.follows.plain
    rw [hb] at hplain
    intro v val hv
    obtain ⟨u, hval⟩ := (Held.moves hm hplain).2 v val hv
    exact hval

theorem solitary_closed : StepClosed code (Solitary code) := by
  intro g g' h hs hw
  obtain ⟨hrun, hempty, htasks⟩ := id h
  obtain ⟨-, he⟩ := hs.effect hrun.sound
  refine ⟨hrun.step hs, hw.trans hempty, fun p hp => ?_⟩
  by_cases hold : p < g.state.heap.length
  · obtain ⟨x, L, ht, hL⟩ := htasks p hold
    refine ⟨x, L, ht.step hs ?_, hL⟩
    rw [hw, hempty]
    rfl
  · have hnew : p = g.state.heap.length :=
      Nat.le_antisymm (Nat.le_of_lt_succ (Nat.lt_of_lt_of_le hp he.spawned_le))
      (Nat.le_of_not_lt hold)
    obtain ⟨-, hborn⟩ := he.born hrun.sound hnew hp
    have hplain := h.captured hcode hborn
    obtain ⟨i, y, L, hview⟩ := hborn.eq_born
    have hfut : g'.state.fut p = ⟨some y, L⟩ := congrArg View.block hview
    have hraw : g'.state.heap[p]? = some g'.state.heap[p] := List.getElem?_eq_getElem hp
    refine ⟨y, L, .born hrun hs hnew ?_, ?_⟩
    · rw [hraw, ← hfut, State.fut_eq hraw]
      rfl
    · rw [hview] at hplain
      exact hplain

theorem RunWith.solitary {ok : State σ → State σ → Prop} {s : State σ} (h : RunWith code ok s) :
    Solitary code ⟨.empty, s, []⟩ := by
  induction h with
  | new h =>
    refine ⟨.new h, rfl, fun p hp => ?_⟩
    have hheap := (State.new_spec h).2.1
    simp [hheap] at hp
  | act cmd h ha hok ih => exact (solitary_closed hcode).act ih h.inv.1.wakeList ha

/-- **A reachable state is its tasks' machines**, when the program uses no write buffer: each task
stands where its machine waits after the completions that it has received. -/
theorem reachable_isolates {s : State σ} (h : Reachable code s) {p : TaskPtr} {raw : RawTask σ}
    (hraw : s.heap[p]? = some raw) :
    ∃ x L S, [.spawned L] <+: raw.log ∧
    Replay (isolate code.instr) (.start x (bareLocals L)) (answers raw.log) S ∧
      S.next code.instr = none ∧ S.trail = trail raw.log ∧ S.nb = raw.syscallNb ∧
      (raw.freed = false → S.block = raw.future.bare) := by
  obtain ⟨hrun, -, htasks⟩ := h.solitary hcode
  obtain ⟨x, L, ht, hL⟩ := htasks p (List.getElem?_eq_some_iff.mp hraw).1
  obtain ⟨S, hS⟩ := ht.isolate (R := Set.univ) trivial hL (fun _ _ => rfl) fun y _ => hcode y
  have hlog : Scene.log ⟨.empty, s, []⟩ p = raw.log := by
    unfold Scene.log
    rw [hraw]
    rfl
  have hfollows := hS.follows
  rw [show Scene.view ⟨.empty, s, []⟩ p = _ from State.view_eq hraw] at hfollows
  exact ⟨x, L, S, hlog ▸ ht.spawned.2, hlog ▸ hS.replay, hS.waiting List.not_mem_nil,
    hlog ▸ hS.trail, hfollows.nb, hfollows.block⟩

end Program

theorem readsPerItem_stays (x : Nat) : (readsPerItem x).Stays Set.univ := by
  unfold readsPerItem
  dsimp only
  split
  · exact fun _ => trivial
  · exact fun _ => trivial
  · trivial
  · trivial
  · unfold acceptsAndReads
    split <;> first | trivial | exact fun _ => trivial

/-- A task that a stream has spawned, after its first completion. -/
theorem reachable_isolates_nested : ∃ s raw, Reachable readsPerItem s ∧ s.heap[1]? = some raw ∧
    answers raw.log = [⟨0, 5, 0⟩] ∧ ∃ x L S, [.spawned L] <+: raw.log ∧
      Replay (isolate readsPerItem.instr) (.start x (bareLocals L)) [⟨0, 5, 0⟩] S ∧
      S.trail = trail raw.log := by
  have hrun : (freshScript readsPerItem (fun _ _ => true)
    [.spawn 9 7, .submit, .consume, .complete 0 11 2, .handle 9,
      .submit, .consume, .complete 1 5 0, .handle 9]).any (fun s =>
        s.heap[1]?.any fun raw => answers raw.log == [⟨0, 5, 0⟩]) = true := by
    decide +kernel
  obtain ⟨s, hs, hc⟩ := (Option.any_eq_true _ _).mp hrun
  obtain ⟨raw, hraw, hans⟩ := (Option.any_eq_true _ _).mp hc
  rw [beq_iff_eq] at hans
  have hr : Reachable readsPerItem s := .of_script (fun _ _ _ => trivial) hs
  obtain ⟨x, L, S, hborn, hrep, -, htrail, -⟩ := reachable_isolates readsPerItem_stays hr hraw
  exact ⟨s, raw, hr, hraw, hans, x, L, S, hborn, hans ▸ hrep, htrail⟩

end Onlyio
