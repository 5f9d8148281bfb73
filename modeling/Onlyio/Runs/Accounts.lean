import Onlyio.Machine.View
import Onlyio.Model.Await

/-!
# Reference counts and completion routing over whole runs

What the accounting invariant says of the thread's own state, for every code and every order of
commands.

* **`references_run`**: between two commands the counter of a live task is the number of its
  outstanding SQEs, its future is dropped once, when that number reaches zero and no poll of it is
  in progress, and no command decrements a zero counter.
* **`routing_run`**: the slot that an outstanding SQE names holds the task that submitted it, which
  is live; the deferred free list repeats no index, no slab assertion fails, and no new task gets an
  index that a completion can still name.

Both speak about the polls in progress too (`Steps` from a state between two commands).
-/

namespace Onlyio

open Lib

variable {σ : Type} {code : Code σ} {s : State σ}

/-- No fan-out has more than 65535 descriptors. -/
def Narrow (_ s' : State σ) : Prop := ∀ q ∈ s'.outstanding, q.oversize = false

theorem RunWith.narrow (h : RunWith code Narrow s) : ∀ q ∈ s.outstanding, q.oversize = false := by
  cases h with
  | new h =>
    obtain ⟨-, -, hp, hsq, hin, -⟩ := State.new_spec h
    simp [State.outstanding, hp, hsq, hin]
  | act cmd h ha hok => exact hok

/-- How a command can fail in a state that a run reaches. -/
theorem soft_or_newer {ok : State σ → State σ → Prop} (h : RunWith code ok s) {cmd : Cmd σ}
    {e : Fault} {s' : State σ} (he : act code cmd s = .error e s') :
    e.soft = true ∨ e = .panic .newerSqe := by
  obtain ⟨hrep, hinv⟩ := h.inv
  rcases wp_error (wp_act cmd hinv hrep) he with ⟨_, -, hsoft⟩ | ⟨hnew, -⟩
  · exact .inl hsoft.1
  · exact .inr hnew

/-- **Reference counts are exact.** Between two commands, a live task's counter is the number of its
outstanding SQEs; the future is dropped once, at the step after which no SQE and no poll refers to
its task; no command releases a task whose counter is zero, or that is freed. -/
theorem references_run (h : RunWith code Narrow s) :
    (∀ p raw, s.heap[p]? = some raw →
      (raw.freed = false →
        raw.refCounter.toNat = s.outstanding.countP fun q => q.caller.task = p) ∧
      (raw.freed = true ↔ ∀ q ∈ s.outstanding, q.caller.task ≠ p) ∧
      raw.log.count .dropped = if raw.freed then 1 else 0) ∧
    (∀ g, Steps code (s.config []) g → ∀ p < g.core.spawned,
      ((g.core.cell p).freed = true ↔
        (∀ q ∈ g.core.outstanding, q.caller.task ≠ p) ∧ ∀ f ∈ g.stack, f.task ≠ p) ∧
      (g.core.cell p).log.count .dropped = if (g.core.cell p).freed then 1 else 0) ∧
    ∀ cmd e s', act code cmd s = .error e s' → e ≠ .panic .releaseUnderflow ∧ e ≠ .dangling := by
  obtain ⟨-, hinv⟩ := h.inv
  refine ⟨fun p raw hraw => ?_, fun g hg p hp => ?_, fun cmd e s' he => ?_⟩
  · have hcell := State.core_cell hraw
    refine ⟨fun hlive => ?_, ?_, ?_⟩
    · have hcell' : (s.core.cell p).freed = false := by rw [hcell]; exact hlive
      have hcounted : s.core.counted p = s.outstanding.countP fun q => q.caller.task = p :=
        List.countP_congr fun q hq => by simp [h.narrow q hq]
      obtain ⟨-, ⟨-, heq⟩ | ⟨⟨q, hmem, -, hover⟩, -⟩⟩ := hinv.refs.live p hcell'
      · rw [hcell, hcounted] at heq
        exact heq
      · have hq : q ∈ s.outstanding :=
          List.mem_append_left _ (List.mem_append_left _ hmem)
        rw [h.narrow q hq] at hover
        cases hover
    · have hiff := hinv.freed_iff p
      rw [hcell] at hiff
      exact hiff.trans (and_iff_left (by simp))
    · have hlt : p < s.core.spawned := (List.getElem?_eq_some_iff.mp hraw).1
      have hdrop := hinv.drops p hlt
      rw [hcell] at hdrop
      exact hdrop
  · have hinv' := Inv.steps hg hinv
    exact ⟨hinv'.freed_iff p, hinv'.drops p hp⟩
  · rcases soft_or_newer h he with hsoft | rfl
    · constructor <;> rintro rfl <;> cases hsoft
    · exact ⟨nofun, nofun⟩

/-- **Completions find their task.** In every state that a run reaches, and inside every poll, the
slot that an outstanding SQE names holds the live task that submitted it; so no slab assertion
fails, and a task is created at an index that no outstanding SQE names. -/
theorem routing_run (h : Reachable code s) :
    (∀ q ∈ s.outstanding, s.tasks.index q.payload.taskIdx = .ok q.caller.task ∧
      ∃ raw, s.heap[q.caller.task]? = some raw ∧ raw.freed = false) ∧
    s.runtimeFreeList.Nodup ∧
    (∀ g, Steps code (s.config []) g →
      (∀ q ∈ g.core.outstanding, g.core.slots q.payload.taskIdx = some q.caller.task ∧
        (g.core.cell q.caller.task).freed = false) ∧
      g.core.freeList.Nodup ∧
      ∀ g', Step code g g' → ∀ p, g.core.spawned ≤ p → p < g'.core.spawned →
        ∃ i, (g'.core.cell p).slabIdx = some i ∧ ∀ q ∈ g.core.outstanding, q.payload.taskIdx ≠ i) ∧
    ∀ cmd e s', act code cmd s = .error e s' → e ≠ .dangling ∧ e ≠ .panic .indexOutOfBounds ∧
      (∀ i, e ≠ .panic (.slotLibre i)) ∧ (∀ i len, e ≠ .panic (.removeOutOfBounds i len)) ∧
      ∀ i, e ≠ .panic (.removeLibre i) := by
  obtain ⟨hrep, hinv⟩ := h.inv
  refine ⟨fun q hq => ?_, hinv.slab.nodup, fun g hg => ?_, fun cmd e s' he => ?_⟩
  · obtain ⟨hslot, hlive⟩ := hinv.owner_slot hq
    exact ⟨Slab.index_of_get? hslot hrep.sized, State.exists_raw hlive⟩
  · have hinv' := Inv.steps hg hinv
    refine ⟨fun q hq => hinv'.owner_slot hq, hinv'.slab.nodup, fun g' hst p hge hlt => ?_⟩
    obtain ⟨i, hfree, hidx, -⟩ := Step.created hst hge hlt
    refine ⟨i, hidx, ?_⟩
    rintro q hq rfl
    rw [(hinv'.owner_slot hq).1] at hfree
    cases hfree
  · rcases soft_or_newer h he with hsoft | rfl
    · refine ⟨?_, ?_, ?_, ?_, ?_⟩ <;> intros <;> rintro rfl <;> cases hsoft
    · exact ⟨nofun, nofun, nofun, nofun, nofun⟩

/-! ## A run with a deferred slot -/

/-- A server: it spawns a child that reads once, then awaits an `accept`. -/
def serverCode : Nat → Await.Instr Nat
  | 0 => .spawn 1 [] 2
  | 1 => .await (.read 5) fun _ => 3
  | 2 => .await (.accept 4) fun _ => 3
  | _ => .ret

/-- The child ends, and a second server starts before its slot is drained. -/
def serverRun : List (Cmd (Await.Point Nat)) :=
  [.spawn 9 (.run 0), .submit, .consume, .consume, .complete 0 0 0, .handle 9, .spawn 9 (.run 0)]

theorem references_run_server :
    ∃ s, freshScript (awaited serverCode) (fun _ s' => s'.outstanding.all fun q => !q.oversize)
        serverRun = some s ∧ s.heap.length = 4 ∧ s.outstanding.length = 3 ∧
      ∀ p raw, s.heap[p]? = some raw → raw.freed = false →
        raw.refCounter.toNat = s.outstanding.countP fun q => q.caller.task = p := by
  have hrun : (freshScript (awaited serverCode)
      (fun _ s' => s'.outstanding.all fun q => !q.oversize) serverRun).any (fun s =>
        s.heap.length == 4 && s.outstanding.length == 3) = true := by decide +kernel
  obtain ⟨s, hs, hc⟩ := (Option.any_eq_true _ _).mp hrun
  rw [Bool.and_eq_true, beq_iff_eq, beq_iff_eq] at hc
  have hr : RunWith (awaited serverCode) Narrow s :=
    .of_script (fun s s' hb q hq => by simpa using List.all_eq_true.mp hb q hq) hs
  exact ⟨s, hs, hc.1, hc.2, fun p raw hraw => ((references_run hr).1 p raw hraw).1⟩

theorem routing_run_server :
    ∃ s, freshScript (awaited serverCode) (fun _ _ => true) serverRun = some s ∧
      s.runtimeFreeList = [1] ∧ s.outstanding.length = 3 ∧
      ∀ q ∈ s.outstanding, s.tasks.index q.payload.taskIdx = .ok q.caller.task := by
  have hrun : (freshScript (awaited serverCode) (fun _ _ => true) serverRun).any (fun s =>
      s.runtimeFreeList == [1] && s.outstanding.length == 3) = true := by decide +kernel
  obtain ⟨s, hs, hc⟩ := (Option.any_eq_true _ _).mp hrun
  rw [Bool.and_eq_true, beq_iff_eq, beq_iff_eq] at hc
  have hr : Reachable (awaited serverCode) s := .of_script (fun _ _ _ => trivial) hs
  exact ⟨s, hs, hc.1, hc.2, fun q hq => ((routing_run hr).1 q hq).1⟩

end Onlyio
