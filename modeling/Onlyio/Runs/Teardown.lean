import Onlyio.Runs.BlockOn
import Onlyio.Runs.FanOut

/-!
# The runtime is dropped

The slab's copy of a task has no reference of its own, and `Drop for Slab` releases it like an owned
handle. A task that is freed keeps its slot until its index is taken off the free list, and then the
release reads memory that was given back. A task with two outstanding SQEs or more survives its
release.

* `wp_lateRelease`, `wp_dropSlots`: one slot, all slots.
* **`teardown_drops_once_iff`**: when dropping the runtime does what it should.
-/

namespace Onlyio

open Lib

variable {σ : Type} {code : Code σ} {s s' : State σ} {p : TaskPtr} {raw : RawTask σ}

/-! ## One release -/

/-- Only the pool changes, and it lets go of what the values hold. -/
theorem wp_lateDropValue (val : Value) {F : UInt32 → Nat}
    (h : Pooled s.buffer fun a => F a + val.tokens.count (.write a)) :
    wp (lateDropValue val : Rt σ Unit)
    (fun _ s' => ∃ pool, s' = { s with buffer := pool } ∧ Pooled pool F)
      (fun _ _ => False) s := by
  have hdrop : ∀ b : WBuffer, val.tokens = {.write b.absIdx} → wp (wBufferDrop b : Rt σ Unit)
      (fun _ s' => ∃ pool, s' = { s with buffer := pool } ∧ Pooled pool F)
        (fun _ _ => False) s := by
    intro b hval
    rw [hval] at h
    obtain ⟨pool, hpool, h'⟩ := h.drop (b := b) (by simp)
    simp only [wBufferDrop, wp_bind, wp_get, hpool]
    refine ⟨pool, rfl, ?_⟩
    simpa only [count_write_singleton, Nat.add_sub_cancel] using h'
  have hkeep : (∀ a, val.tokens.count (.write a) = 0) → ∃ pool, s = { s with buffer := pool } ∧
      Pooled pool F := by
    intro hnone
    refine ⟨s.buffer, rfl, ?_⟩
    simpa only [hnone, Nat.add_zero] using h
  have htoken : ∀ (b : RwBuffer) a, ({b.token} : Multiset Token).count (.write a) =
      0 := by
    intro b a
    unfold RwBuffer.token
    split <;> simp
  cases val with
  | wBuffer b => exact hdrop b rfl
  | writeMultiple f =>
    cases f with
    | init fds b len => exact hdrop b rfl
    | pending n fds faileds len b => exact hdrop b rfl
    | poisoned => exact hkeep fun a => rfl
  | rwBuffer b => exact hkeep (htoken b)
  | commitFn b len => exact hkeep (htoken b)
  | commit f => cases f <;> exact hkeep fun a => by simp [Value.tokens]
  | accept | read | write | socket | acceptStream | readStream | returned =>
    exact hkeep fun a => rfl

theorem wp_lateDropLocals (L : List (Option Value)) :
    ∀ {s : State σ} {F : UInt32 → Nat},
    Pooled s.buffer (fun a => F a + (tokensOf L).count (.write a)) →
      wp (lateDropLocals L : Rt σ Unit)
      (fun _ s' => ∃ pool, s' = { s with buffer := pool } ∧ Pooled pool F)
        (fun _ _ => False) s := by
  induction L with
  | nil =>
    intro s F h
    exact ⟨s.buffer, rfl, h⟩
  | cons o rest ih =>
    intro s F h
    have hsum : ∀ a, F a + (tokensOf (o :: rest)).count (.write a) =
        F a + (slotTokens o).count (.write a) + (tokensOf rest).count (.write a) := fun a => by
      rw [tokensOf, List.map_cons, List.sum_cons, Multiset.count_add, ← Nat.add_assoc]
      rfl
    simp only [hsum] at h
    simp only [lateDropLocals, wp_bind]
    refine wp_mono (ih (F := fun a => F a + (slotTokens o).count (.write a)) h)
      (fun _ s1 h1 => ?_) fun _ _ he => he
    obtain ⟨pool, rfl, h1⟩ := h1
    cases o with
    | none => exact ⟨pool, rfl, h1⟩
    | some val => exact wp_lateDropValue (s := { s with buffer := pool }) val h1

/-- The allocation of a task whose last reference was given up. -/
def buried (raw : RawTask σ) : RawTask σ :=
  { raw with
    refCounter := 0
    future := { raw.future with locals := [] }
    log := raw.log ++ [.dropped]
    freed := true }

/-- The allocation after one release. -/
def released (raw : RawTask σ) : RawTask σ :=
  if raw.refCounter = 1 then buried raw else { raw with refCounter := raw.refCounter - 1 }

/-- The handles to write slots are those of the blocks. -/
def WritesHeld (s : State σ) : Prop := Pooled s.buffer fun a => s.tokens.count (.write a)

theorem tokens_of_heap (hheap : s'.heap = s.heap.modify p released) (hraw : s.heap[p]? = some raw) :
    s'.tokens + (if raw.refCounter = 1 then tokensOf raw.future.locals else 0) = s.tokens := by
  have hsum := sum_map_modify hraw released fun raw => tokensOf raw.future.locals
  have htokens : ∀ s : State σ, s.tokens =
      (s.heap.map fun raw => tokensOf raw.future.locals).sum := by
    intro s
    rw [State.tokens, State.locals, List.map_map]
    rfl
  rw [htokens, htokens, hheap]
  split
  · rename_i hone
    simp only [released, hone, if_true, buried] at hsum
    exact hsum.trans (add_zero _)
  · rename_i hmany
    simp only [released, hmany, if_false] at hsum
    exact (add_zero _).trans (add_right_cancel hsum)

/-- A heap in which only the allocation of `p` was written. -/
theorem heap_eq_modify {f : RawTask σ → RawTask σ} (hraw : s.heap[p]? = some raw)
    (hp : s'.heap[p]? = some (f raw)) (hother : ∀ i, p ≠ i → s'.heap[i]? = s.heap[i]?) :
    s'.heap = s.heap.modify p f := by
  refine List.ext_getElem? fun i => ?_
  rw [List.getElem?_modify]
  by_cases hi : p = i
  · subst hi
    simp [hraw, hp]
  · simp [hi, hother i hi]

/-- **One release**: it fails on a task that is freed, and drops the future when the counter is
one. -/
theorem wp_lateRelease (hraw : s.heap[p]? = some raw) (hrc : raw.freed = false → raw.refCounter ≠ 0)
    (hpool : WritesHeld s) :
    wp (lateRelease p) (fun _ s' => raw.freed = false ∧
    s'.heap = s.heap.modify p released ∧ WritesHeld s')
      (fun _ _ => raw.freed = true) s := by
  cases hfreed : raw.freed with
  | true => simp [lateRelease_eq, releaseRef, deref, hraw, hfreed]
  | false =>
    have h0 := hrc hfreed
    have hlt : p < s.heap.length := (List.getElem?_eq_some_iff.mp hraw).1
    have hone : raw.refCounter - 1 = 0 ↔ raw.refCounter = 1 := UInt16.sub_eq_iff_eq_add
    simp only [lateRelease_eq, releaseRef, wp_bind, wp_deref hraw hfreed, h0, if_false, wp_writeRaw]
    rw [wp_ite]
    refine ⟨fun hz => ?_, fun hz => ?_⟩
    · have hrc1 := hone.mp hz
      have hraw1 : (s.modifyRaw p fun r => { r with refCounter := raw.refCounter - 1 }).heap[p]? =
          some { raw with refCounter := raw.refCounter - 1 } := by simp [State.modifyRaw, hraw]
      simp only [lateDropFn, wp_bind, wp_deref hraw1 hfreed, wp_writeRaw]
      -- the pool as it will be, without the handles of this block
      let after : State σ := { s with heap := s.heap.modify p released }
      have htok := tokens_of_heap (show after.heap = s.heap.modify p released from rfl) hraw
      rw [if_pos hrc1] at htok
      have hpool1 : Pooled s.buffer fun a =>
          after.tokens.count (.write a) + (tokensOf raw.future.locals).count (.write a) := by
        unfold WritesHeld at hpool
        simpa only [← htok, Multiset.count_add] using hpool
      refine wp_mono (wp_lateDropLocals _ hpool1) (fun _ s3 h3 => ?_) fun _ _ he => he.elim
      obtain ⟨pool, rfl, hpool3⟩ := h3
      simp only [logEvent, wp_writeRaw]
      generalize hs4 :
        State.modifyRaw _ p (fun r => { r with log := r.log ++ [Event.dropped] }) = s4
      have hraw4 : s4.heap[p]? = some { buried raw with freed := false } := by
        rw [← hs4]
        simp [State.modifyRaw, hraw, buried, hz, hfreed]
      have hpool4 : s4.buffer = pool := by rw [← hs4]; rfl
      simp only [wp_deref hraw4 rfl]
      have hafter : (s4.modifyRaw p fun r => { r with freed := true }).heap =
          s.heap.modify p released := by
        refine heap_eq_modify hraw ?_ fun i hi => ?_
        · simp [State.modifyRaw, hraw4, released, hrc1, buried]
        · rw [← hs4]
          simp [State.modifyRaw, hi]
      have hheld : ∀ s5 : State σ, s5.heap = s.heap.modify p released → s5.buffer = pool →
          WritesHeld s5 := by
        intro s5 hheap5 hpool5
        have htok5 := tokens_of_heap hheap5 hraw
        rw [if_pos hrc1, ← htok] at htok5
        unfold WritesHeld
        rw [hpool5, add_right_cancel htok5]
        exact hpool3
      cases hidx : (buried raw).slabIdx with
      | none => exact ⟨trivial, hafter, hheld _ hafter hpool4⟩
      | some i => exact ⟨trivial, hafter, hheld _ hafter hpool4⟩
    · have hmany : raw.refCounter ≠ 1 := fun h => hz (hone.mpr h)
      have hafter : (s.modifyRaw p fun r => { r with refCounter := raw.refCounter - 1 }).heap =
          s.heap.modify p released := by
        refine heap_eq_modify hraw ?_ fun i hi => ?_
        · simp [State.modifyRaw, hraw, released, hmany]
        · simp [State.modifyRaw, hi]
      refine ⟨trivial, hafter, ?_⟩
      have htok := tokens_of_heap hafter hraw
      rw [if_neg hmany, add_zero] at htok
      unfold WritesHeld
      rw [htok]
      exact hpool

/-! ## All slots -/

/-- The tasks in the slots. -/
def occupants (slots : List (SlabSlot TaskPtr)) : List TaskPtr := slots.filterMap SlabSlot.task?

/-- **The whole slab**: every task in a slot is released once; it fails exactly when one of them is
freed. -/
theorem wp_dropSlots (slots : List (SlabSlot TaskPtr)) :
    ∀ {s : State σ}, (∀ slot ∈ slots, slot.isFree = true ∨ ∃ p, slot = .task p) →
    (occupants slots).Nodup →
      (∀ p ∈ occupants slots, ∃ raw, s.heap[p]? = some raw ∧
        (raw.freed = false → raw.refCounter ≠ 0)) →
      WritesHeld s →
      wp (dropSlots slots)
        (fun _ s' => (∀ p ∈ occupants slots, ∀ raw, s.heap[p]? = some raw → raw.freed = false) ∧
          ∀ i, s'.heap[i]? = if i ∈ occupants slots then (s.heap[i]?).map released else s.heap[i]?)
        (fun _ _ => ∃ p ∈ occupants slots, ∃ raw, s.heap[p]? = some raw ∧ raw.freed = true) s := by
  induction slots with
  | nil =>
    intro s _ _ _ _
    exact ⟨fun p hp => (nomatch hp), fun i => rfl⟩
  | cons slot slots ih =>
    intro s hslots hnodup hheap hpool
    have hrest : ∀ slot' ∈ slots, slot'.isFree = true ∨ ∃ p, slot' = .task p :=
      fun slot' h => hslots slot' (List.mem_cons_of_mem _ h)
    simp only [dropSlots, wp_bind]
    cases slot with
    | idx word =>
      have hfree : (SlabSlot.idx word : SlabSlot TaskPtr).isFree = true := by
        rcases hslots _ List.mem_cons_self with h | ⟨p, h⟩
        · exact h
        · cases h
      simp only [slotDrop, hfree, if_true, wp_pure]
      exact ih hrest hnodup hheap hpool
    | task p =>
      have hcons : occupants (.task p :: slots) = p :: occupants slots := rfl
      rw [hcons, List.nodup_cons] at hnodup
      rw [hcons] at hheap ⊢
      obtain ⟨raw, hraw, hrc⟩ := hheap p List.mem_cons_self
      simp only [slotDrop, SlabSlot.isFree, Bool.false_eq_true, if_false]
      refine wp_mono (wp_lateRelease hraw hrc hpool) (fun _ s1 h1 => ?_)
        fun _ _ hfreed => ⟨p, List.mem_cons_self, raw, hraw, hfreed⟩
      obtain ⟨hlive, hheap1, hpool1⟩ := h1
      -- the other tasks have their allocations as before
      have hsame : ∀ i, p ≠ i → s1.heap[i]? = s.heap[i]? := fun i hi => by
        rw [hheap1, List.getElem?_modify]
        simp [hi]
      have hne : ∀ q ∈ occupants slots, p ≠ q := fun q hq heq => hnodup.1 (heq ▸ hq)
      refine wp_mono (ih (s := s1) hrest hnodup.2 (fun q hq => ?_) hpool1)
        (fun _ s2 h2 => ?_) fun _ _ he => ?_
      · rw [hsame q (hne q hq)]
        exact hheap q (List.mem_cons_of_mem _ hq)
      · obtain ⟨hlive2, hheap2⟩ := h2
        refine ⟨fun q hq raw' hraw' => ?_, fun i => ?_⟩
        · rcases List.mem_cons.mp hq with rfl | hq
          · obtain rfl := Option.some.inj (hraw.symm.trans hraw')
            exact hlive
          · exact hlive2 q hq raw' (by rw [hsame q (hne q hq)]; exact hraw')
        · rw [hheap2]
          by_cases hi : p = i
          · subst hi
            rw [if_neg hnodup.1, if_pos List.mem_cons_self, hheap1, List.getElem?_modify]
            simp
          · rw [hsame i hi]
            simp [Ne.symm hi]
      · obtain ⟨q, hq, raw', hraw', hfreed⟩ := he
        exact ⟨q, List.mem_cons_of_mem _ hq, raw', by
          rw [← hsame q (hne q hq)]; exact hraw', hfreed⟩

/-! ## The end of a thread -/

/-- Every future that is left is dropped once, and no task that is freed is touched. -/
def TornDown (s s' : State σ) : Prop :=
  ∀ (p : TaskPtr) raw, s.heap[p]? = some raw →
    if raw.freed then s'.heap[p]? = some raw
    else ∃ raw', s'.heap[p]? = some raw' ∧ raw'.freed = true ∧ raw'.log.count .dropped = 1

theorem mem_occupants :
    p ∈ occupants s.tasks.slots ↔ ∃ j : Nat, s.tasks.slots[j]? = some (.task p) := by
  unfold occupants
  rw [List.mem_filterMap]
  constructor
  · rintro ⟨slot, hslot, hp⟩
    obtain ⟨j, hj⟩ := List.mem_iff_getElem?.mp hslot
    cases slot with
    | idx word => cases hp
    | task q =>
      obtain rfl := Option.some.inj hp
      exact ⟨j, hj⟩
  · rintro ⟨j, hj⟩
    exact ⟨.task p, List.mem_of_getElem? hj, rfl⟩

/-- Every position of the slab has an index. -/
theorem exists_slabIdx (hrep : s.Rep) {j : Nat} (hj : s.tasks.slots[j]? = some (.task p)) :
    ∃ i : SlabIdx, i.toNat = j ∧ s.tasks.get? i = some p := by
  have hlt : j < 2 ^ 32 := by
    have h1 := (List.getElem?_eq_some_iff.mp hj).1
    rw [hrep.sized] at h1
    exact Nat.lt_trans h1 (UInt32.toNat_lt _)
  have hnat : (UInt32.ofNat j).toNat = j := UInt32.toNat_ofNat_of_lt' hlt
  refine ⟨UInt32.ofNat j, hnat, Slab.get?_eq_some.mpr ?_⟩
  rwa [hnat]

/-- The tasks in the slots are those that are live, and those that wait in the free list. -/
theorem mem_occupants_iff (hrep : s.Rep) (hinv : Inv s.core []) (hraw : s.heap[p]? = some raw) :
    p ∈ occupants s.tasks.slots ↔ raw.freed = false ∨
    ∃ i ∈ s.runtimeFreeList, s.tasks.get? i = some p := by
  have hcell := State.core_cell hraw
  rw [mem_occupants]
  constructor
  · rintro ⟨j, hj⟩
    obtain ⟨i, -, hi⟩ := exists_slabIdx hrep hj
    cases hf : raw.freed with
    | false => exact .inl rfl
    | true => exact .inr ⟨i, hinv.slab.stale i p hi (by rw [hcell]; exact hf), hi⟩
  · rintro (hf | ⟨i, -, hi⟩)
    · obtain ⟨i, -, hi⟩ := hinv.slab.home p (by rw [hcell]; exact hf)
      exact ⟨i.toNat, Slab.get?_eq_some.mp hi⟩
    · exact ⟨i.toNat, Slab.get?_eq_some.mp hi⟩

/-- No task is in two slots. -/
theorem nodup_occupants (hrep : s.Rep) (hinv : Inv s.core []) :
    (occupants s.tasks.slots).Nodup := by
  unfold occupants
  rw [List.Nodup, List.pairwise_filterMap, List.pairwise_iff_getElem]
  intro i j hi hj hij p hp q hq heq
  have htask : ∀ {k : Nat} (hk : k < s.tasks.slots.length), s.tasks.slots[k].task? = some p →
      ∃ x : SlabIdx, x.toNat = k ∧ (s.core.cell p).slabIdx = some x := fun {k} hk hp => by
    have hslot : s.tasks.slots[k]? = some (.task p) := by
      rw [List.getElem?_eq_getElem hk]
      cases hs : s.tasks.slots[k] with
      | idx word => rw [hs] at hp; cases hp
      | task r => rw [hs] at hp; rw [Option.some.inj hp]
    obtain ⟨x, hx, hget⟩ := exists_slabIdx hrep hslot
    exact ⟨x, hx, hinv.slab.slot x p hget⟩
  obtain ⟨x, hx, hxp⟩ := htask hi hp
  obtain ⟨y, hy, hyp⟩ := htask hj (heq ▸ hq)
  obtain rfl := Option.some.inj (hxp.symm.trans hyp)
  exact absurd (hx.symm.trans hy) (Nat.ne_of_lt hij)

/-- What dropping the slab does between two commands. -/
theorem wp_slabDrop (hr : Reachable code s) :
    wp slabDrop (fun _ s' => s.runtimeFreeList = [] ∧ ∀ (p : TaskPtr) raw, s.heap[p]? = some raw →
        s'.heap[p]? = some (if raw.freed then raw else released raw))
      (fun _ _ => s.runtimeFreeList ≠ []) s := by
  obtain ⟨hrep, hinv⟩ := hr.inv
  obtain ⟨posted, back, hb⟩ := hr.audited
  have hpool : WritesHeld s := by
    have h := hb.owns.ledger.pool
    rwa [add_zero] at h
  have hheap : ∀ p ∈ occupants s.tasks.slots,
      ∃ raw, s.heap[p]? = some raw ∧ (raw.freed = false → raw.refCounter ≠ 0) := fun p hp => by
    obtain ⟨j, hj⟩ := mem_occupants.mp hp
    obtain ⟨i, -, hi⟩ := exists_slabIdx hrep hj
    have hlt : p < s.heap.length := by
      by_contra hge
      have hcell := hinv.slab.slot i p hi
      rw [hinv.slab.fresh p (Nat.le_of_not_lt hge)] at hcell
      cases hcell
    have hraw := List.getElem?_eq_getElem hlt
    refine ⟨_, hraw, fun hf hzero => ?_⟩
    have hpos := (hinv.refs.live p (by rw [State.core_cell hraw]; exact hf)).1
    rw [State.core_cell hraw] at hpos
    simp [RawTask.cell, hzero] at hpos
  simp only [slabDrop, wp_bind, wp_get]
  refine wp_mono
    (wp_dropSlots s.tasks.slots hb.owns.ledger.linked (nodup_occupants hrep hinv) hheap hpool)
      (fun _ s' hpost => ?_) fun _ _ hpost => ?_
  · obtain ⟨hlive, hs'⟩ := hpost
    have hfree : s.runtimeFreeList = [] := by
      by_contra hne
      obtain ⟨i, hi⟩ := List.exists_mem_of_ne_nil _ hne
      obtain ⟨p, hslot, hf⟩ := hinv.slab.queued i hi
      obtain ⟨j, hj⟩ : ∃ j : Nat, s.tasks.slots[j]? = some (.task p) :=
        ⟨_, Slab.get?_eq_some.mp hslot⟩
      obtain ⟨raw, hraw, -⟩ := hheap p (mem_occupants.mpr ⟨j, hj⟩)
      have := hlive p (mem_occupants.mpr ⟨j, hj⟩) raw hraw
      rw [State.core_cell hraw] at hf
      cases this.symm.trans hf
    refine ⟨hfree, fun p raw hraw => ?_⟩
    rw [hs', hraw]
    have hmem := mem_occupants_iff hrep hinv hraw
    simp only [hfree, List.not_mem_nil, false_and, exists_false, or_false] at hmem
    cases hf : raw.freed with
    | false => simp [hmem.mpr hf]
    | true => simp [hmem, hf]
  · obtain ⟨p, hp, raw, hraw, hf⟩ := hpost
    rcases (mem_occupants_iff hrep hinv hraw).mp hp with hlive | ⟨i, hi, -⟩
    · cases hlive.symm.trans hf
    · exact List.ne_nil_of_mem hi

/-- **Teardown.** Dropping the runtime of a thread outside `block_on` drops every future that is
left once, and touches no freed task, exactly when no freed task waits in the free list and every
task that is left has one reference. -/
theorem teardown_drops_once_iff (h : Thread code .idle s) :
    (∃ s', slabDrop s = .ok () s' ∧ TornDown s s') ↔
      s.runtimeFreeList = [] ∧ ∀ raw ∈ s.heap, raw.freed = false → raw.refCounter = 1 := by
  obtain ⟨hrep, hinv⟩ := h.reachable.inv
  have hdropped : ∀ (p : TaskPtr) raw, s.heap[p]? = some raw → raw.freed = false →
      raw.log.count .dropped = 0 := fun p raw hraw hf => by
    have hdrop := hinv.drops p (List.getElem?_eq_some_iff.mp hraw).1
    rw [State.core_cell hraw] at hdrop
    exact hdrop.trans (if_neg (by rw [show raw.cell.freed = raw.freed from rfl, hf]; simp))
  have hw := wp_slabDrop h.reachable
  constructor
  · rintro ⟨s', hs', htorn⟩
    obtain ⟨hfree, hheap⟩ := wp_ok hw hs'
    refine ⟨hfree, fun raw hraw hf => ?_⟩
    obtain ⟨p, hp⟩ := List.mem_iff_getElem?.mp hraw
    have hraw' := htorn p raw hp
    simp only [hf, Bool.false_eq_true, if_false] at hraw'
    obtain ⟨raw', hp', hfreed, -⟩ := hraw'
    rw [hheap p raw hp, hf] at hp'
    obtain rfl := Option.some.inj hp'
    by_contra hmany
    simp [released, hmany, hf] at hfreed
  · rintro ⟨hfree, hone⟩
    cases hs' : slabDrop s with
    | error e s1 => exact absurd hfree (wp_error hw hs')
    | ok u s1 =>
      refine ⟨s1, rfl, fun p raw hraw => ?_⟩
      rw [(wp_ok hw hs').2 p raw hraw]
      cases hf : raw.freed with
      | true => simp
      | false =>
        have hrc := hone raw (List.mem_of_getElem? hraw) hf
        simp [released, hrc, buried, hdropped p raw hraw hf]

/-- `block_on` has returned `Err` while its only task reads. -/
theorem teardown_drops_once_reader :
    ∃ s, freshThread (awaited readerCode) [.blockOn 9 (.run 0), .free, .err] = some (.idle, s) ∧
      s.heap.map RawTask.freed = [false] ∧ ∃ s', slabDrop s = .ok () s' ∧ TornDown s s' := by
  have hrun : (freshThread (awaited readerCode) [.blockOn 9 (.run 0), .free, .err]).any (fun c =>
      decide (c.1 = .idle ∧ c.2.heap.map RawTask.freed = [false] ∧ c.2.runtimeFreeList = [] ∧
        ∀ raw ∈ c.2.heap, raw.freed = false → raw.refCounter = 1)) = true := by decide +kernel
  obtain ⟨⟨stage, s⟩, hs, hc⟩ := (Option.any_eq_true _ _).mp hrun
  obtain ⟨rfl, hfreed, hfree, hone⟩ := of_decide_eq_true hc
  exact ⟨s, hs, hfreed, (teardown_drops_once_iff (.of_moves hs)).mpr ⟨hfree, hone⟩⟩

/-- A block that returns at once. -/
def returnsAtOnce : Nat → Await.Instr Nat := fun _ => .ret

/-- Dropping the slab touches a freed task. -/
def touchesFreed (s : State σ) : Bool :=
  match slabDrop s with
  | .error .dangling _ => true
  | _ => false

/-- Dropping the slab leaves one future undropped. -/
def leaksOne (s : State σ) : Bool :=
  match slabDrop s with
  | .ok _ s' => decide (s'.heap.map RawTask.freed = [false])
  | _ => false

/-- A task that returned at once was freed inside `spawn`: dropping the runtime releases it again. A
fan-out of two entries has two references: one release does not drop its future. -/
theorem teardown_double_release_and_leak :
    (∃ s s', freshThread (awaited returnsAtOnce) [.spawn 9 (.run 0)] = some (.idle, s) ∧
      s.heap.map RawTask.freed = [true] ∧ slabDrop s = .error .dangling s') ∧
    ∃ s s', freshThread (awaited broadcast) [.spawn 9 (.run 0)] = some (.idle, s) ∧
      s.runtimeFreeList = [] ∧ slabDrop s = .ok () s' ∧ s'.heap.map RawTask.freed = [false] ∧
      ¬ TornDown s s' := by
  have hfirst : (freshThread (awaited returnsAtOnce) [.spawn 9 (.run 0)]).any (fun c =>
      decide (c.1 = .idle ∧ c.2.heap.map RawTask.freed = [true]) && touchesFreed c.2) = true := by
    decide +kernel
  have hsecond : (freshThread (awaited broadcast) [.spawn 9 (.run 0)]).any (fun c =>
      decide (c.1 = .idle ∧ c.2.runtimeFreeList = [] ∧ c.2.heap.map RawTask.freed = [false]) &&
        leaksOne c.2) = true := by decide +kernel
  obtain ⟨⟨stage, s⟩, hs, hc⟩ := (Option.any_eq_true _ _).mp hfirst
  obtain ⟨⟨stage2, s2⟩, hs2, hc2⟩ := (Option.any_eq_true _ _).mp hsecond
  rw [Bool.and_eq_true, decide_eq_true_eq] at hc hc2
  obtain ⟨⟨rfl, hfreed⟩, hdrop⟩ := hc
  obtain ⟨⟨rfl, hfree2, hlive2⟩, hdrop2⟩ := hc2
  constructor
  · simp only at hdrop hfreed
    unfold touchesFreed at hdrop
    split at hdrop
    · rename_i s' heq
      exact ⟨s, s', hs, hfreed, heq⟩
    · cases hdrop
  · simp only at hdrop2 hfree2 hlive2
    unfold leaksOne at hdrop2
    split at hdrop2
    · rename_i u s' heq
      have hheap := of_decide_eq_true hdrop2
      refine ⟨s2, s', hs2, hfree2, heq, hheap, fun htorn => ?_⟩
      obtain ⟨raw, hraw⟩ := List.map_eq_singleton_iff.mp hlive2
      obtain ⟨raw', hraw'⟩ := List.map_eq_singleton_iff.mp hheap
      have hp := htorn 0 raw (by rw [hraw.1]; rfl)
      rw [hraw.2, hraw'.1] at hp
      obtain ⟨r, hr, hrf, -⟩ := hp
      obtain rfl := Option.some.inj hr
      cases hrf.symm.trans hraw'.2
    · cases hdrop2

end Onlyio
