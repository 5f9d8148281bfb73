import Onlyio.Machine.WakeRuns
import Onlyio.Runs.Memory

/-!
# Dropping a waker

`Drop for Waker` gives the reference back inside `GLOBAL_RUNTIME.with_borrow_mut`. If it is the last
one, the future is dropped there too, and a read buffer that was not committed then asks for the
runtime once more.

* `WakeRun.holding`: with wakers, too, the pool counts what the blocks hold.
* `wp_borrowedRelease`: when a release inside the borrow fails, and what it leaves.
* **`WakeRun.wp_drop`, `WakeRun.drop_iff`**: a waker can be dropped unless its reference is the last
  one and the block of its task holds such a buffer.
-/

namespace Onlyio

open Lib

variable {σ : Type} {code : Code σ} {g : Scene σ} {s : State σ} {p : TaskPtr} {raw : RawTask σ}

/-! ## The pool, with wakers -/

section Holding

variable {base : Nat}

theorem intact_spawnPolled (b : AsyncBlock σ) :
    Intact base (itemsOf b.locals) (spawnPolled b : Rt σ (TaskPtr × TaskInfo)) fun _ => 0 := by
  refine .seq (intact_spawnBegin b) fun r => .look fun s => ?_
  exact .seq (intact_logEvent r.1 _) fun _ => .ret _ rfl

theorem intact_spawnEnd (task : TaskPtr) (old : TaskInfo) :
    Intact base 0 (spawnEnd task old : Rt σ Unit) fun _ => 0 :=
  .seq (intact_release task) fun _ => .seq (intact_modify fun _ => ⟨rfl, rfl, rfl⟩) fun _ =>
    intact_release task

theorem intact_releases (final : Bool) (task : TaskPtr) : Intact base 0 (do
    if final then release task
    release task : Rt σ Unit) fun _ => 0 := by
  cases final with
  | true => exact .seq (intact_release task) fun _ => intact_release task
  | false => exact intact_release task

theorem intact_dispatchPolled (e : Cqe) (task : TaskPtr) (info : TaskInfo) (stored : UInt16) :
    Intact base 0 (dispatchPolled e task info (evaluateSyscallNb stored info.tag.syscallNb) :
      Rt σ (Cqe × TaskPtr × Bool)) fun _ => 0 := by
  have hpoll : ∀ cur : TaskInfo, Intact base 0 (do
      modify fun s => { s with currentTask := cur }
      logEvent task (.poll (← get).currentTask)
      return (e, task, true) : Rt σ (Cqe × TaskPtr × Bool)) fun _ => 0 := fun cur =>
    .seq (intact_modify fun _ => ⟨rfl, rfl, rfl⟩) fun _ => .look fun s =>
      .seq (intact_logEvent task _) fun _ => .ret _ rfl
  rcases evaluate_cases stored info.tag.syscallNb with ⟨heq, he⟩ | ⟨-, he⟩ | ⟨-, -, he⟩
  · rw [he]
    cases hm : isMultiple stored with
    | true => exact hpoll info
    | false =>
      -- a number below the mask can grow
      have hne : info.tag.syscallNb ≠ 0xFFFF := by
        intro hmax
        rw [← heq, hmax] at hm
        exact absurd hm (by decide)
      refine .cond (fun h => absurd h hne) fun _ => ?_
      exact .seq (intact_of_careful fun _ => guard_augmenteSyscallNb task) fun _ => hpoll _
  · rw [he]
    exact .ret _ rfl
  · rw [he]
    exact Intact.fail rfl

theorem intact_handlePolled :
    Intact base 0 (handlePolled : Rt σ (Cqe × TaskPtr × Bool)) fun _ => 0 := by
  have htake : Intact base 0 (takeCqe : Rt σ Cqe) fun _ => 0 := .look fun s => by
    cases s.ring.cq with
    | nil => exact Intact.fail rfl
    | cons e cq => exact .seq (intact_modify fun _ => ⟨rfl, rfl, rfl⟩) fun _ => .ret e rfl
  refine .seq htake fun e => .seq (intact_of_careful fun _ => guard_tasksIndex _) fun q => ?_
  refine .seq (intact_of_careful fun _ => guard_taskClone q) fun task => ?_
  refine .seq (intact_of_careful fun _ => guard_deref task) fun raw => .look fun s => ?_
  exact .seq (intact_logEvent task _) fun _ => intact_dispatchPolled e task _ _

theorem intact_drainPolled : Intact base 0 (drainPolled : Rt σ (Option TaskPtr)) fun _ => 0 := by
  refine .look fun s => ?_
  cases s.runtimeWakeList with
  | nil => exact .ret none rfl
  | cons awake rest =>
    refine .seq (intact_modify fun _ => ⟨rfl, rfl, rfl⟩) fun _ => ?_
    refine .seq (intact_of_careful fun _ => guard_tasksIndex _) fun q => ?_
    refine .seq (intact_of_careful fun _ => guard_taskClone q) fun task => .look fun s => ?_
    exact .seq (intact_logEvent task _) fun _ => .ret _ rfl

theorem intact_wakerNew (payload : UserDataPayload) :
    Intact base 0 (Waker.new payload : Rt σ Waker) fun _ => 0 :=
  .seq (intact_of_careful fun _ => guard_tasksIndex _) fun q =>
    .seq (intact_of_careful fun _ => guard_incRc q) fun _ => .ret _ rfl

/-- A run of a program that is intact, and keeps what it is given. -/
theorem Intact.kept {α : Type} {X : Multiset Item} {x : Rt σ α} {a : α} {s' : State σ}
    (hx : Intact base X x fun _ => 0) (hs : Holding base s X) (h : x s = .ok a s') :
    Holding base s' 0 := by
  have h' := wp_ok (hx.run hs) h
  exact h'

theorem holding_stepCode {s' : State σ} {c : Ctl σ} (hs : Holding base s 0)
    (h : stepCode code p s = .ok c s') : Holding base s' c.items := by
  have h' := wp_ok ((intact_stepCode code p).run hs) h
  exact h'

theorem intact_awake (w : Waker) : Intact base 0 (w.awake : Rt σ Unit) fun _ => 0 :=
  intact_modify fun _ => ⟨rfl, rfl, rfl⟩

/-- A drop that succeeds does what a release outside the borrow does. -/
theorem holding_drop {s' : State σ} {w : Waker} (h : w.drop s = .ok () s') (hs : Holding base s 0) :
    Holding base s' 0 := by
  obtain ⟨q, s1, hq, h⟩ := bind_ok h
  have h1 := Intact.kept (intact_of_careful fun _ => guard_tasksIndex _) hs hq
  exact Intact.kept (intact_release q) h1 (returns_release q _ _ _ h)

/-- **Every run with wakers** keeps the slab and the pool sound, and each buffer in its slot. -/
theorem WakeRun.holding (h : WakeRun code g) : ∃ base, Holding base g.state 0 := by
  induction h with
  | new h => exact ⟨_, holding_new h⟩
  | step _ hs ih =>
    obtain ⟨base, ih⟩ := ih
    refine ⟨base, ?_⟩
    cases hs with
    | idle cmd _ h => exact Intact.kept (intact_act code cmd) ih h
    | main _ h => exact Intact.kept (intact_spawnPolled _) ih h
    | handle h => exact Intact.kept intact_handlePolled ih h
    | skip h h1 => exact Intact.kept (intact_releases _ _) (Intact.kept intact_handlePolled ih h) h1
    | drain _ h => exact Intact.kept intact_drainPolled ih h
    | again h | fin h => exact holding_stepCode ih h
    | child hb h => exact Intact.kept (intact_spawnPolled _) (holding_stepCode ih hb) h
    | spawned h => exact Intact.kept (intact_spawnEnd _ _) ih h
    | handled h => exact Intact.kept (intact_releases _ _) ih h
    | waker _ h => exact Intact.kept (intact_wakerNew _) ih h
    | awake _ h => exact Intact.kept (intact_awake _) ih h
    | drop _ h => exact holding_drop h ih

end Holding

/-! ## A release inside the borrow -/

/-- The value asks for the runtime when it is dropped. -/
def Value.borrows : Value → Bool
  | .rwBuffer b | .commitFn b _ => !b.committed
  | _ => false

/-- Some value of the block asks for the runtime when it is dropped. -/
def asksBack (L : List (Option Value)) : Bool := L.any fun o => o.any Value.borrows

theorem wp_borrowedDropValue (val : Value) {F : Multiset Item}
    (h : Pooled s.buffer (handlesAt (F + val.items))) :
    wp (borrowedDropValue val : Rt σ Unit)
      (fun _ s' => val.borrows = false ∧ ∃ pool, s' = { s with buffer := pool } ∧
        Pooled pool (handlesAt F))
      (fun e s' => val.borrows = true ∧ e = .panic .borrowed ∧ s' = s) s := by
  have hdrop : ∀ b : WBuffer, val.items = {.write b} → wp (wBufferDrop b : Rt σ Unit)
      (fun _ s' => ∃ pool, s' = { s with buffer := pool } ∧ Pooled pool (handlesAt F))
        (fun _ _ => False) s := by
    intro b hval
    rw [hval] at h
    obtain ⟨pool, hpool, h'⟩ := h.drop (handlesAt_pos F b)
    simp only [wBufferDrop, wp_bind, wp_get, hpool]
    refine ⟨pool, rfl, ?_⟩
    simpa only [handlesAt_snoc, Nat.add_sub_cancel] using h'
  have hheld : ∀ b : WBuffer, val.items = {.write b} → val.borrows = false →
    wp (wBufferDrop b : Rt σ Unit)
      (fun _ s' => val.borrows = false ∧ ∃ pool, s' = { s with buffer := pool } ∧
        Pooled pool (handlesAt F))
      (fun e s' => val.borrows = true ∧ e = .panic .borrowed ∧ s' = s) s :=
    fun b hval hb => wp_mono (hdrop b hval) (fun _ _ h => ⟨hb, h⟩) fun _ _ he => he.elim
  have hkeep : (∀ a, handlesAt val.items a = 0) →
      ∃ pool, s = { s with buffer := pool } ∧ Pooled pool (handlesAt F) := by
    intro hnone
    have heq : handlesAt (F + val.items) = handlesAt F := by
      funext a
      rw [handlesAt_add, hnone, Nat.add_zero]
    exact ⟨s.buffer, rfl, heq ▸ h⟩
  have hread : ∀ b : RwBuffer, val.items = {.read b} → val.borrows = !b.committed →
      wp (if b.committed then pure () else throw (.panic .borrowed) : Rt σ Unit)
        (fun _ s' => val.borrows = false ∧ ∃ pool, s' = { s with buffer := pool } ∧
          Pooled pool (handlesAt F))
        (fun e s' => val.borrows = true ∧ e = .panic .borrowed ∧ s' = s) s := by
    intro b hval hb
    rw [wp_ite]
    refine ⟨fun hc =>
      ⟨by rw [hb, hc]; rfl, hkeep fun a => by rw [hval, handlesAt_read]⟩, fun hc => ?_⟩
    exact ⟨by rw [hb, Bool.eq_false_iff.mpr hc]; rfl, rfl, rfl⟩
  have hbroken : ∀ a, handlesAt ({.broken} : Multiset Item) a = 0 := fun a => by
    unfold handlesAt
    rw [Multiset.countP_eq_zero]
    rintro t ht
    rw [Multiset.mem_singleton.mp ht]
    exact id
  cases val with
  | rwBuffer b => exact hread b rfl rfl
  | commitFn b len => exact hread b rfl rfl
  | wBuffer b => exact hheld b rfl rfl
  | writeMultiple f =>
    cases f with
    | init fds b len => exact hheld b rfl rfl
    | pending n fds faileds len b => exact hheld b rfl rfl
    | poisoned => exact ⟨rfl, hkeep hbroken⟩
  | commit f => cases f with
    | init => exact ⟨rfl, hkeep hbroken⟩
    | pending id => exact ⟨rfl, hkeep fun _ => rfl⟩
  | socket f => cases f with
    | pending => exact ⟨rfl, hkeep hbroken⟩
    | createSocket | connecting => exact ⟨rfl, hkeep fun _ => rfl⟩
  | accept | read | write | acceptStream | readStream | returned => exact ⟨rfl, hkeep fun _ => rfl⟩

/-- The locals are dropped without the runtime when none of them asks for it. -/
theorem wp_borrowedDropLocals (L : List (Option Value)) :
    ∀ {s : State σ} {F : Multiset Item}, Pooled s.buffer (handlesAt (F + itemsOf L)) →
      wp (borrowedDropLocals L : Rt σ Unit)
        (fun _ s' => asksBack L = false ∧ ∃ pool, s' = { s with buffer := pool } ∧
          Pooled pool (handlesAt F))
        (fun e s' => asksBack L = true ∧ e = .panic .borrowed ∧
          ∃ pool, s' = { s with buffer := pool }) s := by
  induction L with
  | nil =>
    intro s F h
    exact ⟨rfl, s.buffer, rfl, by simpa [itemsOf] using h⟩
  | cons o rest ih =>
    intro s F h
    have hsum : F + itemsOf (o :: rest) = F + slotItems o + itemsOf rest := by
      rw [itemsOf, List.map_cons, List.sum_cons, ← add_assoc]
      rfl
    have hasks : asksBack (o :: rest) = (o.any Value.borrows || asksBack rest) := List.any_cons
    rw [hsum] at h
    simp only [borrowedDropLocals, wp_bind]
    refine wp_mono (ih h) (fun _ s1 h1 => ?_) fun e s1 he => ?_
    · obtain ⟨hrest, pool, rfl, h1⟩ := h1
      rw [hasks, hrest, Bool.or_false]
      cases o with
      | none =>
        refine ⟨rfl, pool, rfl, ?_⟩
        rwa [show slotItems none = 0 from rfl, add_zero] at h1
      | some val =>
        refine wp_mono (wp_borrowedDropValue (s := { s with buffer := pool }) val h1)
          (fun _ s2 h2 => h2) fun e s2 he => ?_
        exact ⟨he.1, he.2.1, pool, he.2.2⟩
    · rw [hasks, he.1, Bool.or_true]
      exact ⟨rfl, he.2⟩

/-- The allocation of a task whose drop was cut short: no reference is left, and it is not freed. -/
def stranded (raw : RawTask σ) : RawTask σ :=
  { raw with refCounter := 0, future := { raw.future with locals := [] } }

/-- **A release inside the borrow** fails when it is the last one and a value of the block asks for
the runtime. -/
theorem wp_borrowedRelease {base : Nat} (hraw : s.heap[p]? = some raw) (hlive : raw.freed = false)
    (hrc : raw.refCounter ≠ 0) (hs : Holding base s 0) :
    wp (borrowedRelease p) (fun _ _ => raw.refCounter = 1 → asksBack raw.future.locals = false)
      (fun e s' => (raw.refCounter = 1 ∧ asksBack raw.future.locals = true) ∧ e = .panic .borrowed ∧
        ∃ pool, s' = { s with heap := s.heap.modify p stranded, buffer := pool }) s := by
  have hone : raw.refCounter - 1 = 0 ↔ raw.refCounter = 1 := UInt16.sub_eq_iff_eq_add
  rw [borrowedRelease_eq]
  simp only [releaseRef, wp_bind, wp_deref hraw hlive, hrc, if_false, wp_writeRaw]
  rw [wp_ite]
  refine ⟨fun hz => ?_, fun hz => fun h1 => (hz (hone.mpr h1)).elim⟩
  have hraw1 : (s.modifyRaw p fun r => { r with refCounter := raw.refCounter - 1 }).heap[p]? =
      some { raw with refCounter := raw.refCounter - 1 } := by simp [State.modifyRaw, hraw]
  simp only [borrowedDropFn, wp_bind, wp_deref hraw1 hlive, wp_writeRaw]
  generalize hs2 :
    State.modifyRaw _ p (fun r => { r with future := { r.future with locals := [] } }) = s2
  have hs2' : s2 = { s with heap := s.heap.modify p stranded } := by
    rw [← hs2, hz]
    simp only [State.modifyRaw, List.modify_modify_eq]
    rfl
  -- what the other blocks hold is not touched
  obtain ⟨rest, hpool⟩ :
      ∃ rest, Pooled s2.buffer (handlesAt (rest + itemsOf raw.future.locals)) := by
    have hmoved := (hs.writeFut (F := 0) (X := 0) (Y := itemsOf raw.future.locals) hraw
      (fun b => { b with locals := [] }) (by rw [add_zero]; exact zero_add _)).pool
    rw [zero_add] at hmoved
    exact ⟨_, by rw [hs2']; exact hmoved⟩
  refine wp_mono (wp_borrowedDropLocals _ hpool) (fun _ s3 h3 => ?_) fun e s3 he => ?_
  · obtain ⟨hno, pool, rfl, -⟩ := h3
    simp only [logEvent, wp_writeRaw]
    generalize hs4 : State.modifyRaw _ p (fun r => { r with log := r.log ++ [Event.dropped] }) = s4
    have hraw4 : s4.heap[p]? = some { stranded raw with log := raw.log ++ [.dropped] } := by
      rw [← hs4, hs2']
      simp [State.modifyRaw, hraw, stranded]
    simp only [wp_deref hraw4 hlive]
    cases (stranded raw).slabIdx with
    | none => exact fun _ => hno
    | some i => exact fun _ => hno
  · obtain ⟨hask, he, pool, rfl⟩ := he
    exact ⟨⟨hone.mp hz, hask⟩, he, pool, by rw [hs2']⟩

/-- **A waker is dropped**, unless its reference is the last one and the block of its task asks for
the runtime. -/
theorem WakeRun.wp_drop (h : WakeRun code g) {w : Waker × TaskPtr} (hw : w ∈ g.wakers.held)
    (hraw : g.state.heap[w.2]? = some raw) :
    wp w.1.drop (fun _ _ => raw.refCounter = 1 → asksBack raw.future.locals = false)
      (fun e s' => (raw.refCounter = 1 ∧ asksBack raw.future.locals = true) ∧ e = .panic .borrowed ∧
        ∃ pool, s' = { g.state with heap := g.state.heap.modify w.2 stranded, buffer := pool })
        g.state := by
  obtain ⟨base, hhold⟩ := h.holding
  have hall : w ∈ g.wakers.all := List.mem_append_left _ (List.mem_append_left _ hw)
  obtain ⟨hlive, hslot⟩ := h.sound.slot hall
  have hpos := (h.sound.inv.refs.live w.2 hlive).1
  rw [State.core_cell hraw] at hlive hpos
  have hrc : raw.refCounter ≠ 0 := by
    intro hzero
    simp [RawTask.cell, hzero] at hpos
  have hidx : g.state.tasks.index w.1.payload.taskIdx = .ok w.2 :=
    Slab.index_of_get? hslot h.sound.rep.sized
  simp only [Waker.drop, tasksIndex, wp_bind, wp_get, hidx]
  exact wp_borrowedRelease hraw hlive hrc hhold

/-- When a drop succeeds. -/
theorem WakeRun.drop_iff (h : WakeRun code g) {w : Waker × TaskPtr} (hw : w ∈ g.wakers.held)
    (hraw : g.state.heap[w.2]? = some raw) :
    (∃ s', w.1.drop g.state = .ok () s') ↔
      (raw.refCounter = 1 → asksBack raw.future.locals = false) := by
  have hdrop := h.wp_drop hw hraw
  constructor
  · rintro ⟨s', hs'⟩
    exact wp_ok hdrop hs'
  · intro hno
    cases hs' : w.1.drop g.state with
    | ok u s' => exact ⟨s', rfl⟩
    | error e s' =>
      obtain ⟨⟨hlast, hask⟩, -⟩ := wp_error hdrop hs'
      cases (hno hlast).symm.trans hask

end Onlyio
