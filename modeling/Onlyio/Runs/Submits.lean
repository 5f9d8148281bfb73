import Onlyio.Runs.Internal
import Onlyio.Runs.Isolation
import Onlyio.Runs.NestedSpawn

/-!
# What a submitted write buffer does to tasks

`WBuffer::submit` stamps its SQE with the slot of the buffer, and `handle_cqe_entry` takes that for
the slot of a task. So the SQE of a block need not name its task, and a task may be polled by the
completion of a write that another one submitted. The write pool begins at slot 512, so that many
tasks have to come before that one.

* `submit_stamped_iff`: when a submit stamps its SQE as the other operations do.
* `submit_not_stamped`: a nested block whose SQE names neither its task nor its number.
* `spawn_returned`: what is left of a block that returns in its first poll.
* `WakeRun.spent`, `WakeRun.cleared`: a thread after any number of them, before and after their
  slots are freed.
* `isolation_lost_by_submit`: a task that is polled once in one run and twice in another.
-/

namespace Onlyio

open Lib

variable {σ : Type} {code : Code σ}

/-! ## The SQE -/

section Stamp

variable {s s' : State σ} {a : UInt32} {q : Sqe}

theorem QueuesWrite.payload (h : QueuesWrite s a q s') : q.payload = ⟨a, 0, multipleMask⟩ := by
  unfold Sqe.payload
  rw [h.userData, wbufWriteUdata_eq, UserDataPayload.fromUserData_intoUserData]

/-- **A submit stamps its SQE as the other operations do exactly where slot and number happen to
agree.** -/
theorem submit_stamped_iff {p : TaskPtr} {v : Var} {fdIdx len : UInt32}
    (h : submitLocal p v fdIdx len s = .ok () s') :
    ∃ (b : WBuffer) (q : Sqe), s'.pending = s.pending ++ [q] ∧ q.caller = ⟨p, v⟩ ∧
      (q.payload = s.currentTask.payload ↔
        s.currentTask.tag = ⟨b.absIdx, multipleMask⟩ ∧ s.currentTask.responseGen = 0) := by
  obtain ⟨b, q, hcaller, hq⟩ := submitLocal_spec h
  refine ⟨b, q, hq.pending, hcaller, ?_⟩
  rw [hq.payload]
  obtain ⟨⟨i, nb⟩, result, flags, gen⟩ := s.currentTask
  simp only [TaskInfo.payload, UserDataPayload.mk.injEq, Tag.mk.injEq]
  constructor
  · rintro ⟨rfl, rfl, rfl⟩
    exact ⟨⟨rfl, rfl⟩, rfl⟩
  · rintro ⟨⟨rfl, rfl⟩, rfl⟩
    exact ⟨rfl, rfl, rfl⟩

end Stamp

/-- A block that spawns another one, which submits a write buffer. -/
def submitsNested : Code Nat where
  instr
    | 0 => .spawn 1 [] 3
    | 1 => .allocWrite fun _ => 2
    | k => .suspend k
  entry x := x == 0

/-- The tasks with their slots, and the SQEs with the task that submitted them. -/
def Scene.stamps (g : Scene σ) : List (Option SlabIdx) × List (TaskPtr × UserDataPayload) :=
  (g.state.heap.map RawTask.slabIdx, g.state.outstanding.map fun q => (q.caller.task, q.payload))

/-- The nested block is task 1 in slot 1, and its SQE carries slot 512 and the number
`MULTIPLE_MASK`. -/
theorem submit_not_stamped : ∃ g q, SubmittingRun submitsNested [q] g ∧
    g.stamps = ([some 0, some 1], [(1, ⟨512, 0, multipleMask⟩)]) ∧ ¬ g.state.Stamps := by
  have hrun : (((freshWakes submitsNested [.main 0, .run, .run]).bind (submitTop 0 5 4)).bind
      (wakeScript submitsNested [.run, .leave])).map Scene.stamps =
        some ([some 0, some 1], [(1, ⟨512, 0, multipleMask⟩)]) := by
    decide +kernel
  obtain ⟨g, hg, hstamps⟩ := Option.map_eq_some_iff.mp hrun
  obtain ⟨g2, hg2, hg⟩ := Option.bind_eq_some_iff.mp hg
  obtain ⟨g1, hg1, hg2⟩ := Option.bind_eq_some_iff.mp hg2
  obtain ⟨q, hq⟩ := submitTop_step hg2
  have h2 := (submittingRun_nil_iff.mpr (WakeRun.fresh hg1)).submit hq
  refine ⟨g, q, h2.steps (wakeScript_steps hg), hstamps, fun hs => ?_⟩
  obtain ⟨hslots, hsqes⟩ := Prod.mk.inj hstamps
  obtain ⟨q, rest, hout, hq, -⟩ := List.map_eq_cons_iff.mp hsqes
  obtain ⟨hcaller, hpayload⟩ := Prod.mk.inj hq
  obtain ⟨raw, hraw, hidx, -⟩ := hs.sqe q (hout ▸ List.mem_cons_self)
  have hslot : (g.state.heap.map RawTask.slabIdx)[1]? = some (some 1) := by
    rw [hslots]
    rfl
  rw [hcaller] at hraw
  rw [List.getElem?_map, hraw, Option.map_some, hidx, hpayload] at hslot
  exact absurd hslot (by decide)

/-! ## Blocks that return at once -/

theorem modify_concat {α : Type} (xs : List α) (a : α) (f : α → α) :
    (xs ++ [a]).modify xs.length f = xs ++ [f a] := by
  simp [List.modify_eq_set_getElem?]

/-- What is left of a task whose block returned in its first poll. -/
def returned (i : SlabIdx) : RawTask σ :=
  ⟨⟨none, []⟩, 0, 0, some i, true, [.spawned [], .poll (.initialPoll i), .ready 0, .dropped]⟩

section Returned

variable {s : State σ} {x : σ} {i : SlabIdx} {tasks : Slab TaskPtr} {xs : List (RawTask σ)}
  {log : List Event}

theorem spawnBegin_run (hins : s.tasks.insert s.heap.length = .ok (i, tasks)) :
    spawnBegin ⟨some x, []⟩ s = .ok (s.heap.length, s.currentTask)
      { s with
        tasks
        currentTask := .initialPoll i
        heap := s.heap ++ [⟨⟨some x, []⟩, 2, 0, some i, false, [.spawned []]⟩] } := by
  have hmask : ¬ (1 : UInt16) ||| multipleMask = 2 ||| multipleMask := by decide
  simp [spawnBegin, taskNew, taskClone, incRc, bumpRc, tasksInsert, deref, writeRaw, liftExcept,
    State.modifyRaw, bind, EStateM.bind, pure, EStateM.pure, get_run, modify_run,
    modify_concat, hins, hmask]

/-- The only poll of a block that returns. -/
theorem taskPoll_ret (hheap : s.heap = xs ++ [⟨⟨some x, []⟩, 2, 0, some i, false, log⟩])
    (hx : code x = .ret) (hout : s.outstanding = []) :
    taskPoll (pollFn code 1) xs.length s = .ok (.ready ())
      { s with
        heap := xs ++
          [⟨⟨none, []⟩, 2, 0, some i, false, log ++ [.poll s.currentTask, .ready 0]⟩] } := by
  obtain ⟨tasks, ring, buffer, pending, bufRing, currentTask, freeList, wakeList, heap,
    stack, nextSqe⟩ := s
  cases hheap
  simp only [State.outstanding] at hout
  simp [taskPoll, pollFn, stepCode, finish, dropLocals, logEvent, deref, writeRaw,
    State.modifyRaw, State.rivals, State.outstanding, hx, hout, bind, EStateM.bind, pure,
    EStateM.pure, get_run, modify_run, modify_concat]

/-- The two handles of `spawn` are the last ones. -/
theorem spawnEnd_run {old : TaskInfo}
    (hheap : s.heap = xs ++ [⟨⟨none, []⟩, 2, 0, some i, false, log⟩]) :
    spawnEnd xs.length old s = .ok ()
      { s with
        currentTask := old
        runtimeFreeList := s.runtimeFreeList ++ [i]
        heap := xs ++ [⟨⟨none, []⟩, 0, 0, some i, true, log ++ [.dropped]⟩] } := by
  obtain ⟨tasks, ring, buffer, pending, bufRing, currentTask, freeList, wakeList, heap,
    stack, nextSqe⟩ := s
  cases hheap
  simp [spawnEnd, release_eq, releaseRef, dropFn, dropLocals, logEvent, deref, writeRaw,
    State.modifyRaw, bind, EStateM.bind, pure, EStateM.pure, get_run, modify_run, modify_concat]

/-- **A block that returns in its first poll leaves a freed task**, whose slot waits to be given
back. -/
theorem spawn_returned (hx : code x = .ret) (hout : s.outstanding = [])
    (hins : s.tasks.insert s.heap.length = .ok (i, tasks)) :
    spawn (pollFn code 1) ⟨some x, []⟩ s = .ok ()
      { s with
        tasks
        runtimeFreeList := s.runtimeFreeList ++ [i]
        heap := s.heap ++ [returned i] } := by
  unfold spawn
  refine (bind_of_ok (spawnBegin_run hins)).trans ?_
  refine (bind_of_ok (taskPoll_ret (by rfl) hx (by exact hout))).trans ?_
  exact (spawnEnd_run (by rfl)).trans rfl

end Returned

/-! ## A slab that only grows -/

/-- A slab of `len` slots that holds the tasks `0 .. n`, each in its own slot. -/
def filledSlab (n len : Nat) : Slab TaskPtr where
  slots := (List.range n).map .task ++ if n < len then Slab.chained n len else []
  head := UInt32.ofNat n
  len := UInt32.ofNat len
  taskCount := UInt32.ofNat n

theorem Slab.chained_cons {α : Type} {lo hi : Nat} (h : lo < hi) :
    (chained lo hi : List (SlabSlot α)) =
      freeSlot (UInt32.ofNat (lo + 1)) :: if lo + 1 < hi then chained (lo + 1) hi else [] := by
  obtain ⟨k, rfl⟩ := Nat.exists_eq_add_of_lt h
  unfold chained
  cases k with
  | zero => simp
  | succ k =>
    have hlo : lo + (k + 1) + 1 - 1 - lo = k + 1 := by omega
    have hlo' : lo + (k + 1) + 1 - 1 - (lo + 1) = k := by omega
    rw [hlo, hlo', List.range'_succ, if_pos (by omega)]
    rfl

/-- `insert` takes the next slot. -/
theorem filledSlab_fill {n len : Nat} (h : n < len) (hsmall : len < 2 ^ 31) :
    (filledSlab n len).fill n = .ok (UInt32.ofNat n, filledSlab (n + 1) len) := by
  have hn : (UInt32.ofNat n).toNat = n := toNat_ofNat_index (by omega)
  have hnext : (freeSlot (UInt32.ofNat (n + 1)) : SlabSlot TaskPtr).nextFree =
      .ok (UInt32.ofNat (n + 1)) :=
    nextFree_freeSlot _ (by rw [toNat_ofNat_index (by omega)]; omega)
  have hslots : (filledSlab n len).slots = (List.range n).map .task ++
      freeSlot (UInt32.ofNat (n + 1)) :: if n + 1 < len then Slab.chained (n + 1) len else [] := by
    simp only [filledSlab, if_pos h, Slab.chained_cons h]
  have hget : (filledSlab n len).slots[(filledSlab n len).head.toNat]? =
      some (freeSlot (UInt32.ofNat (n + 1))) := by
    rw [hslots, show (filledSlab n len).head = UInt32.ofNat n from rfl, hn]
    simp
  have hset : ((filledSlab n len).slots.set n (.task n)) = (filledSlab (n + 1) len).slots := by
    rw [hslots]
    simp [filledSlab, List.range_succ]
  have hcount : UInt32.ofNat n + 1 = UInt32.ofNat (n + 1) := (UInt32.ofNat_add n 1).symm
  unfold Slab.fill
  rw [hget]
  simp only [hnext]
  rw [show (filledSlab n len).head = UInt32.ofNat n from rfl, hn, hset,
    show (filledSlab n len).taskCount = UInt32.ofNat n from rfl, hcount]
  rfl

theorem filledSlab_insert {n len : Nat} (h : n < len) (hsmall : len < 2 ^ 31) :
    (filledSlab n len).insert n = .ok (UInt32.ofNat n, filledSlab (n + 1) len) := by
  have hne : UInt32.ofNat n ≠ UInt32.ofNat len := by
    intro he
    have hnat := congrArg UInt32.toNat he
    rw [toNat_ofNat_index (by omega), toNat_ofNat_index (by omega)] at hnat
    omega
  unfold Slab.insert
  rw [if_neg (show ¬ (filledSlab n len).head = (filledSlab n len).len from hne),
    filledSlab_fill h hsmall]

/-- A full slab doubles first. -/
theorem filledSlab_grows {n : Nat} (hpos : 0 < n) (hsmall : 2 * n < 2 ^ 31) :
    (filledSlab n n).insert n = .ok (UInt32.ofNat n, filledSlab (n + 1) (2 * n)) := by
  have hgrowth : (filledSlab n n).growth = .ok (filledSlab n (2 * n)) := by
    have hn : (UInt32.ofNat n).toNat = n := toNat_ofNat_index (by omega)
    have hroom : UInt32.ofNat n ≠ 0xFFFFFFFF := by
      intro he
      have hnat := congrArg UInt32.toNat he
      rw [hn, show (0xFFFFFFFF : UInt32).toNat = 4294967295 from rfl] at hnat
      omega
    have htwice : UInt32.ofNat n * 2 = UInt32.ofNat (2 * n) := by
      rw [Nat.mul_comm]
      exact (UInt32.ofNat_mul n 2).symm
    unfold Slab.growth
    simp only [show (filledSlab n n).len = UInt32.ofNat n from rfl, if_neg hroom, hn, htwice]
    rw [if_pos (by omega), toNat_ofNat_index hsmall]
    simp [filledSlab, show n < 2 * n by omega]
  unfold Slab.insert
  rw [if_pos (show (filledSlab n n).head = (filledSlab n n).len from rfl), hgrowth]
  exact filledSlab_fill (by omega) hsmall

/-- The same slab when the first `k` tasks have been taken out, in order. -/
def clearedSlab (k n len : Nat) : Slab TaskPtr where
  slots := (List.range k).map (fun i => freeSlot (UInt32.ofNat (if i = 0 then n else i - 1))) ++
    ((List.range' k (n - k)).map .task ++ if n < len then Slab.chained n len else [])
  head := UInt32.ofNat (if k = 0 then n else k - 1)
  len := UInt32.ofNat len
  taskCount := UInt32.ofNat (n - k)

theorem clearedSlab_take {k n len : Nat} (hk : k < n) (hn : n ≤ len) (hsmall : len < 2 ^ 31) :
    (clearedSlab k n len).removeDroppedTask (UInt32.ofNat k) = .ok (clearedSlab (k + 1) n len) := by
  have hidx : (UInt32.ofNat k).toNat = k := toNat_ofNat_index (by omega)
  have hrest : (List.range' k (n - k)).map SlabSlot.task =
      .task k :: (List.range' (k + 1) (n - (k + 1))).map SlabSlot.task := by
    rw [show n - k = n - (k + 1) + 1 by omega, List.range'_succ, List.map_cons]
  have hget : (clearedSlab k n len).slots[k]? = some (.task k) := by
    simp [clearedSlab, hrest]
  have hset : (clearedSlab k n len).slots.set k (freeSlot (clearedSlab k n len).head) =
      (clearedSlab (k + 1) n len).slots := by
    simp [clearedSlab, hrest, List.range_succ]
  have hroom : ¬ (clearedSlab k n len).len ≤ UInt32.ofNat k := by
    rw [UInt32.le_iff_toNat_le, hidx, show (clearedSlab k n len).len = UInt32.ofNat len from rfl,
      toNat_ofNat_index hsmall]
    omega
  have hcount : UInt32.ofNat (n - k) - 1 = UInt32.ofNat (n - (k + 1)) := by
    rw [show n - k = n - (k + 1) + 1 by omega, UInt32.ofNat_add]
    exact UInt32.add_sub_cancel _ _
  unfold Slab.removeDroppedTask Slab.take
  rw [if_neg hroom, hidx, hget]
  simp only [SlabSlot.isTask, if_true]
  rw [hset, show (clearedSlab k n len).taskCount = UInt32.ofNat (n - k) from rfl, hcount]
  rfl

/-! ## A thread full of tasks that have returned -/

/-- The thread `s` after `n` blocks that returned at once, none of whose slots was given back. -/
def State.spent (s : State σ) (n len : Nat) : State σ :=
  { s with
    tasks := filledSlab n len
    heap := (List.range n).map fun k => returned (UInt32.ofNat k)
    runtimeFreeList := (List.range n).map UInt32.ofNat }

section Spent

variable {s : State σ} {x : σ} {n m len : Nat}

theorem State.new_spent {base : Nat} (h : State.new base = .ok s) :
    s = s.spent 0 16 ∧ s.outstanding = [] := by
  have htasks : s.tasks = filledSlab 0 16 := by
    have hcap : Slab.withCapacity ⟨16, by decide⟩ = .ok (filledSlab 0 16) := rfl
    unfold State.new at h
    cases hb : (BufPool.new base 512 512 : Except Fault (BufPool 1)) with
    | error e => simp [hb, bind, Except.bind] at h
    | ok pool =>
      simp only [hb, hcap, bind, Except.bind, pure, Except.pure, Except.ok.injEq] at h
      rw [← h]
  obtain ⟨-, hheap, hpending, hsq, hinflight, -, hfree, -⟩ := State.new_spec h
  refine ⟨?_, by rw [State.outstanding, hpending, hsq, hinflight]; rfl⟩
  unfold State.spent
  rw [← htasks, List.range_zero, List.map_nil, List.map_nil, ← hheap, ← hfree]

/-- One more of them. -/
theorem WakeRun.spent_succ {len' : Nat} (hx : code x = .ret) (hentry : code.entry x = true)
    (hout : s.outstanding = [])
    (hins : (filledSlab n len).insert n = .ok (UInt32.ofNat n, filledSlab (n + 1) len'))
    (h : WakeRun code ⟨.empty, s.spent n len, []⟩) :
    WakeRun code ⟨.empty, s.spent (n + 1) len', []⟩ := by
  have hlen : (s.spent n len).heap.length = n := by simp [State.spent]
  have hspawn := spawn_returned (s := s.spent n len) hx hout (by rw [hlen]; exact hins)
  refine WakeRun.closed.spawn h hentry (hspawn.trans ?_)
  simp only [State.spent, List.range_succ, List.map_append, List.map_cons, List.map_nil]

/-- They fill the slab. -/
theorem WakeRun.spent_fill (hx : code x = .ret) (hentry : code.entry x = true)
    (hout : s.outstanding = []) (hnm : n ≤ m) (hlen : m ≤ len) (hsmall : len < 2 ^ 31)
    (h : WakeRun code ⟨.empty, s.spent n len, []⟩) : WakeRun code ⟨.empty, s.spent m len, []⟩ := by
  induction m, hnm using Nat.le_induction with
  | base => exact h
  | succ m _ ih =>
    exact (ih (by omega)).spent_succ hx hentry hout (filledSlab_insert (by omega) hsmall)

/-- **A thread can fill its slab, of whatever length, with tasks that are gone.** -/
theorem WakeRun.spent {base k : Nat} (hnew : State.new base = .ok s) (hx : code x = .ret)
    (hentry : code.entry x = true) (hk : 16 * 2 ^ k < 2 ^ 31) :
    WakeRun code ⟨.empty, s.spent (16 * 2 ^ k) (16 * 2 ^ k), []⟩ := by
  obtain ⟨hfresh, hout⟩ := State.new_spent hnew
  induction k with
  | zero =>
    have h0 : WakeRun code ⟨.empty, s.spent 0 16, []⟩ := hfresh ▸ .new hnew
    exact h0.spent_fill hx hentry hout (by decide) (by decide) (by decide)
  | succ k ih =>
    have hdouble : 16 * 2 ^ (k + 1) = 2 * (16 * 2 ^ k) := by
      rw [Nat.pow_succ]
      omega
    rw [hdouble] at hk ⊢
    have hpos : 0 < 16 * 2 ^ k := Nat.mul_pos (by decide) (Nat.two_pow_pos k)
    have hfull := (ih (by omega)).spent_succ hx hentry hout (filledSlab_grows hpos hk)
    exact hfull.spent_fill hx hentry hout (by omega) (Nat.le_refl _) hk

/-- The slots are given back one after another. -/
theorem freeSlots_cleared (hn : n ≤ len) (hsmall : len < 2 ^ 31) : ∀ {j k : Nat}, k + j = n →
    freeSlots ((List.range' k j).map UInt32.ofNat)
    { s.spent n len with tasks := clearedSlab k n len } =
      .ok () { s.spent n len with tasks := clearedSlab n n len } := by
  intro j
  induction j with
  | zero =>
    intro k hk
    obtain rfl : k = n := hk
    rfl
  | succ j ih =>
    intro k hk
    have htake := clearedSlab_take (show k < n by omega) hn hsmall
    have hlift : liftExcept ((clearedSlab k n len).removeDroppedTask (UInt32.ofNat k))
        { s.spent n len with tasks := clearedSlab k n len } =
          .ok (clearedSlab (k + 1) n len) { s.spent n len with tasks := clearedSlab k n len } := by
      rw [htake]
      rfl
    rw [List.range'_succ, List.map_cons]
    exact (bind_of_ok hlift).trans (ih (k := k + 1) (by omega))

/-- The thread `s` after `n` blocks that returned at once, all of whose slots were given back. -/
def State.cleared (s : State σ) (n len : Nat) : State σ :=
  { s.spent n len with tasks := clearedSlab n n len, runtimeFreeList := [] }

/-- **`free_unsed_slab_slot` empties the slab**, and its free list begins at the slot freed last. -/
theorem WakeRun.cleared (hn : n ≤ len) (hsmall : len < 2 ^ 31)
    (h : WakeRun code ⟨.empty, s.spent n len, []⟩) :
    WakeRun code ⟨.empty, s.cleared n len, []⟩ := by
  have hfilled : filledSlab n len = clearedSlab 0 n len := by
    simp [filledSlab, clearedSlab, List.range_eq_range']
  have hfree : freeSlots (s.spent n len).runtimeFreeList (s.spent n len) =
      .ok () { s.spent n len with tasks := clearedSlab n n len } := by
    have hslots := freeSlots_cleared (s := s) hn hsmall (Nat.zero_add n)
    rw [← hfilled, ← List.range_eq_range'] at hslots
    exact hslots
  exact h.step (.idle .free rfl (bind_of_ok hfree))

end Spent

/-! ## Two runs of one task -/

/-- The task takes one connection of a stream. Other tasks return at once, or submit a write
buffer. -/
def takesOne : Code Nat where
  instr
    | 0 => .makeStream (.acceptStream 4) fun _ => 1
    | 1 => .poll 0 fun r => if r.isSome then 3 else 2
    | 2 => .suspend 1
    | 5 => .allocWrite fun _ => 3
    | _ => .ret
  entry _ := true

/-- The first poll of the task. -/
def opensStream : List (WakeMove Nat) := [.run, .run, .run, .leave]

/-- The completions of its own SQEs that a task was handed. -/
def ownCqes (p : TaskPtr) (log : List Event) : List Cqe :=
  (log.filterMap Event.cqe?).filter fun e => e.sqe.caller.task = p

/-- What is seen of a task: the polls under way, the slots, its own completions, and how long its
trail is. -/
def Scene.own (g : Scene σ) (p : TaskPtr) : List TaskPtr × UInt32 × List Cqe × Nat :=
  (g.stack.map Frame.task, g.state.tasks.len, ownCqes p (g.log p), (trail (g.log p)).length)

/-- The slots of 513 tasks that returned are free, slot 512 first. Task 513 opens its stream there,
task 514 submits the write buffer of slot 512, and the write completes with 4. -/
def besideSubmit (s : State Nat) : Option (Scene Nat) :=
  ((beginTask takesOne 0 513 (.main 0) (opensStream ++ [.main 5, .run])
    ⟨.empty, s.cleared 513 1024, []⟩).bind (submitTop 0 5 4)).bind
    (taskScript takesOne 513
      [.run, .leave, .idle .submit, .idle .free, .idle .consume, .idle .consume,
        .idle (.complete 1 4 0), .handle, .run, .run, .leave])

/-- **The completion of another task's write polls the task**: alone it has been polled once, beside
a submit twice, and no SQE of its own was answered in either run. -/
theorem isolation_lost_by_submit : ∃ g₁ g₂ q, SubmittingTask takesOne 0 [] 0 [] g₁ ∧
    SubmittingTask takesOne 0 [] 513 [q] g₂ ∧ g₁.own 0 = ([], 16, [], 3) ∧
    g₂.own 513 = ([], 1024, [], 6) ∧ trail (g₁.log 0) ≠ trail (g₂.log 513) := by
  have halone : (freshTask takesOne 0 0 [] (.main 0) opensStream).map (Scene.own · 0) =
      some ([], 16, [], 3) := by
    decide +kernel
  have hbeside : ((State.new 0 : Except Fault (State Nat)).toOption.bind besideSubmit).map
    (Scene.own · 513) =
      some ([], 1024, [], 6) := by
    decide +kernel
  obtain ⟨g₁, hg₁, hown₁⟩ := Option.map_eq_some_iff.mp halone
  obtain ⟨g₂, hg₂, hown₂⟩ := Option.map_eq_some_iff.mp hbeside
  obtain ⟨s, hs, hg₂⟩ := Option.bind_eq_some_iff.mp hg₂
  have hnew := toOption_eq_some.mp hs
  have hspent : WakeRun takesOne ⟨.empty, s.spent 512 512, []⟩ :=
    WakeRun.spent (k := 5) (x := 3) hnew rfl rfl (by decide)
  have hgrown : WakeRun takesOne ⟨.empty, s.spent 513 1024, []⟩ :=
    hspent.spent_succ (x := 3) rfl rfl (State.new_spent hnew).2
    (filledSlab_grows (by decide) (by decide))
  have hcleared := submittingRun_nil_iff.mpr (hgrown.cleared (by decide) (by decide))
  obtain ⟨g4, hg4, hg₂⟩ := Option.bind_eq_some_iff.mp hg₂
  obtain ⟨g3, hg3, hg4⟩ := Option.bind_eq_some_iff.mp hg4
  obtain ⟨q, hq⟩ := submitTop_step hg4
  have h₂ := ((SubmittingTask.begin hcleared hg3).submit hq).script hg₂
  refine ⟨g₁, g₂, q, submittingTask_nil_iff.mpr (.fresh hg₁), h₂, hown₁, hown₂, fun heq => ?_⟩
  have hlength := congrArg List.length heq
  rw [show (trail (g₁.log 0)).length = 3 from congrArg (fun o => o.2.2.2) hown₁,
    show (trail (g₂.log 513)).length = 6 from congrArg (fun o => o.2.2.2) hown₂] at hlength
  cases hlength

end Onlyio
