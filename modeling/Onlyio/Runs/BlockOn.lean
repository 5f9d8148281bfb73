import Onlyio.Model.Thread
import Onlyio.Machine.Simulate
import Onlyio.Runs.Buffers
import Onlyio.Model.Await

/-!
# `block_on` waits for something, and ends with everything

`block_on` decides on `tasks.count()`, the number of occupied slots. A slot stays occupied until its
index is taken off the deferred free list, so the number lags behind the tasks, but each of the
three checks empties the list first. After it, a slot is occupied exactly when its task is live, and
a live task that no poll refers to has an outstanding SQE.

* **`block_on_run`**: whenever `block_on` reaches `submit_and_wait`, an SQE of a live task is
  outstanding; and when it returns `Ok(())` the slab and the free list are empty, nothing is
  outstanding, and every future was dropped. Also after calls that returned `Err`.

An SQE is outstanding from the poll that submits it until `block_on` takes its last completion.
-/

namespace Onlyio

open Lib

variable {σ : Type} {code : Code σ} {s s' : State σ} {stage : Stage}

/-! ## The thread's states are those of a run -/

theorem Thread.reachable (h : Thread code stage s) : Reachable code s := by
  induction h with
  | new h => exact .new h
  | consume _ ha ih | complete _ _ _ _ ha ih | spawn _ _ _ ha ih | blockOn _ _ _ ha ih
  | free _ ha ih | err _ ha ih | wait _ ha ih | handle _ _ ha ih | drain _ _ ha ih =>
    exact .act _ ih ha trivial
  | collect _ _ ih | leave _ ih => exact ih

/-! ## The slab after a check -/

/-- A slot whose index is not queued holds a live task. -/
theorem live_of_slot (hinv : Inv s.core []) (hfree : s.runtimeFreeList = [])
    {i : SlabIdx} {p : TaskPtr} (hslot : s.tasks.get? i = some p) :
    (s.core.cell p).freed = false := by
  by_contra hf
  have hmem : i ∈ s.runtimeFreeList := hinv.slab.stale i p hslot (by simpa using hf)
  rw [hfree] at hmem
  cases hmem

/-- A live task has an outstanding SQE. -/
theorem outstanding_of_live (hinv : Inv s.core []) {p : TaskPtr}
    (hlive : (s.core.cell p).freed = false) : ∃ q ∈ s.outstanding, q.caller.task = p := by
  by_contra hnone
  have hfreed := (hinv.freed_iff p).mpr ⟨fun q hq heq => hnone ⟨q, hq, heq⟩, by simp⟩
  rw [hlive] at hfreed
  cases hfreed

/-- `free_unsed_slab_slot` empties the list. -/
theorem freeList_of_free (ha : act code .free s = .ok () s') : s'.runtimeFreeList = [] := by
  have hw : wp (act code .free) (fun _ s' => s'.runtimeFreeList = []) (fun _ _ => True) s := by
    simp only [act, freeUnsedSlabSlot, wp_bind, wp_get, wp_modify]
    exact wp_trivial _ s
  have hok := wp_ok hw ha
  exact hok

/-- The kernel touches neither the slab nor the list. -/
theorem kernelConsume_spec (ha : act code .consume s = .ok () s') :
    s'.tasks = s.tasks ∧ s'.runtimeFreeList = s.runtimeFreeList := by
  have hw : wp (act code .consume) (fun _ s' => s'.tasks = s.tasks ∧
    s'.runtimeFreeList = s.runtimeFreeList)
      (fun _ _ => True) s := by
    simp only [act, kernelConsume, wp_bind, wp_get]
    cases s.ring.sq with
    | nil => trivial
    | cons q sq => exact ⟨rfl, rfl⟩
  have hok := wp_ok hw ha
  exact hok

/-! ## The loop -/

/-- What `block_on` knows where it stands. -/
def Stage.Knows (s : State σ) : Stage → Prop
  | .check .submit | .check .collect => True
  | .check _ => False
  | .submit => s.runtimeFreeList = [] ∧ s.tasks.count ≠ 0
  | .returned => s.runtimeFreeList = [] ∧ s.tasks.count = 0
  | .idle | .collect | .entries _ => True

theorem Stage.Knows.congr (h : stage.Knows s) (htasks : s'.tasks = s.tasks)
    (hfree : s'.runtimeFreeList = s.runtimeFreeList) : stage.Knows s' := by
  unfold Stage.Knows at h ⊢
  split <;> simp_all

theorem Thread.knows (h : Thread code stage s) : stage.Knows s := by
  induction h with
  | new | spawn | blockOn | err | wait | collect | handle | drain | leave => trivial
  | consume _ ha ih =>
    obtain ⟨htasks, hfree⟩ := kernelConsume_spec ha
    exact ih.congr htasks hfree
  | complete _ _ _ _ ha ih =>
    obtain ⟨q, -, rfl⟩ := kernelComplete_spec ha
    exact ih.congr rfl rfl
  | @free next s s' _ ha ih =>
    have hfree := freeList_of_free ha
    split
    · exact ⟨hfree, by assumption⟩
    · rename_i hcount
      cases next with
      | submit => exact ⟨hfree, hcount⟩
      | collect => trivial
      | idle | check | entries | returned => cases ih

/-- **`block_on` waits for something, and ends with everything.** Whenever a thread reaches
`submit_and_wait`, an SQE of a live task is outstanding. When `block_on` returns `Ok(())`, the slab
and the free list are empty, nothing is outstanding, and every task is freed, its future dropped
once. -/
theorem block_on_run (h : Thread code stage s) (hlen : s.tasks.len.toNat < 2 ^ 31) :
    (stage = .submit → ∃ q ∈ s.outstanding, ∃ raw, s.heap[q.caller.task]? = some raw ∧
      raw.freed = false) ∧
    (stage = .returned → s.tasks.count = 0 ∧ s.runtimeFreeList = [] ∧ s.outstanding = [] ∧
      ∀ raw ∈ s.heap, raw.freed = true ∧ raw.log.count .dropped = 1) := by
  have hknows := h.knows
  obtain ⟨hrep, hinv⟩ := h.reachable.inv
  obtain ⟨posted, back, haudit⟩ := h.reachable.audited
  have hwf := haudit.owns.ledger.slab hlen
  refine ⟨?_, ?_⟩
  · rintro rfl
    obtain ⟨hfree, hcount⟩ := hknows
    rw [ne_eq, hwf.count_eq_zero_iff, not_forall] at hcount
    obtain ⟨i, hi⟩ := hcount
    obtain ⟨p, hp⟩ := Option.ne_none_iff_exists'.mp hi
    have hlive := live_of_slot hinv hfree hp
    obtain ⟨q, hq, rfl⟩ := outstanding_of_live hinv hlive
    exact ⟨q, hq, State.exists_raw hlive⟩
  · rintro rfl
    obtain ⟨hfree, hcount⟩ := hknows
    have hempty := hwf.count_eq_zero_iff.mp hcount
    have hfreed : ∀ (p : TaskPtr) (raw : RawTask σ), s.heap[p]? = some raw → raw.freed = true := by
      intro p raw hraw
      by_contra hlive
      have hcell : (s.core.cell p).freed = false := by
        rw [State.core_cell hraw]
        exact Bool.eq_false_iff.mpr hlive
      obtain ⟨i, -, hslot⟩ := hinv.slab.home p hcell
      exact absurd (hslot.symm.trans (hempty i)) (by simp)
    refine ⟨hcount, hfree, List.eq_nil_iff_forall_not_mem.mpr fun q hq => ?_, fun raw hraw => ?_⟩
    · have hslot := (hinv.owner_slot hq).1
      exact absurd (hslot.symm.trans (hempty _)) (by simp)
    · obtain ⟨p, hp⟩ := List.mem_iff_getElem?.mp hraw
      have hdrop := hinv.drops p (List.getElem?_eq_some_iff.mp hp).1
      rw [State.core_cell hp] at hdrop
      refine ⟨hfreed p raw hp, hdrop.trans ?_⟩
      exact if_pos (hfreed p raw hp)

/-! ## A second `block_on`, after an `Err` -/

/-- A task that reads once. -/
def readerCode : Nat → Await.Instr Nat
  | 0 => .await (.read 5) fun _ => 1
  | _ => .ret

/-- The first `block_on` returns `Err`; the second one waits for both readers. -/
def readerMoves : List (Move (Await.Point Nat)) :=
  [.blockOn 9 (.run 0), .free, .err, .blockOn 9 (.run 0), .free, .wait, .consume, .consume,
    .complete 1 0 0, .free, .collect, .handle 9, .drain 9, .free]

/-- The other reader ends too. -/
def lastMoves : List (Move (Await.Point Nat)) :=
  [.wait, .complete 0 0 0, .free, .collect, .handle 9, .drain 9, .free]

theorem block_on_run_readers :
    (∃ s, freshThread (awaited readerCode) readerMoves = some (.submit, s) ∧
      ∃ q ∈ s.outstanding, ∃ raw, s.heap[q.caller.task]? = some raw ∧ raw.freed = false) ∧
    ∃ s, freshThread (awaited readerCode) (readerMoves ++ lastMoves) = some (.returned, s) ∧
      s.heap.length = 2 ∧ s.outstanding = [] := by
  have hsubmit : (freshThread (awaited readerCode) readerMoves).any (fun c =>
      c.1 == .submit && c.2.tasks.len.toNat < 2 ^ 31) = true := by decide +kernel
  have hend : (freshThread (awaited readerCode) (readerMoves ++ lastMoves)).any (fun c =>
      c.1 == .returned && c.2.tasks.len.toNat < 2 ^ 31 && c.2.heap.length == 2) = true :=
        by decide +kernel
  obtain ⟨⟨stage, s⟩, hs, hc⟩ := (Option.any_eq_true _ _).mp hsubmit
  obtain ⟨⟨stage', s'⟩, hs', hc'⟩ := (Option.any_eq_true _ _).mp hend
  simp only [Bool.and_eq_true, beq_iff_eq, decide_eq_true_eq] at hc hc'
  obtain ⟨rfl, hlen⟩ := hc
  obtain ⟨⟨rfl, hlen'⟩, hheap⟩ := hc'
  exact ⟨⟨s, hs, (block_on_run (.of_moves hs) hlen).1 rfl⟩, s', hs', hheap,
    ((block_on_run (.of_moves hs') hlen').2 rfl).2.2.1⟩

end Onlyio
