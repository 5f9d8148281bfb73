import Onlyio.Machine.Traffic
import Onlyio.Runs.Isolation

/-!
# The ring loses nothing and repeats nothing

The SQEs of all tasks go through one list and one queue, and the completions come back through
another queue to a slab that reuses its slots. Whatever the interleaving, the kernel gets every SQE
once and in the order in which the tasks submitted them, and each task gets every completion of its
own SQEs once and in the order in which the kernel posted them.

* `RingAgrees.step`: one step, for the histories of both queues.
* **`submissions_in_order`**, **`completions_delivered_once`**: every state of every run, wakers
  included.
-/

namespace Onlyio

open Lib

variable {σ : Type} {code : Code σ} {T : Traffic} {c c' : Core} {p : TaskPtr}

/-! ## The histories and the records -/

/-- The completions of the task `p` among these. -/
def cqesOf (p : TaskPtr) (es : List Cqe) : List Cqe := es.filter fun e => e.sqe.caller.task = p

/-- The SQEs of the task `p` among these. -/
def sqesOf (p : TaskPtr) (qs : List Sqe) : List Sqe := qs.filter fun q => q.caller.task = p

/-- No completion among these is the last one of `q`. -/
def unanswered (es : List Cqe) (q : Sqe) : Bool := es.all fun e => e.sqe.id != q.id || more e.flags

/-- The history of the ring and the records of the tasks agree. -/
structure RingAgrees (T : Traffic) (c : Core) : Prop where
  ids : (T.consumed ++ c.sq ++ c.pending).map Sqe.id = List.range c.nextSqe
  sent : ∀ p, sqesOf p (T.consumed ++ c.sq ++ c.pending) = submitted (c.cell p).log
  got : ∀ p, cqesOf p T.posted = received (c.cell p).log ++ cqesOf p c.cq
  known : ∀ e ∈ T.posted, e.sqe ∈ T.consumed
  inflight : c.inflight = T.consumed.filter fun q =>
    unanswered (received (c.cell q.caller.task).log) q

theorem sqesOf_append (p : TaskPtr) (l l' : List Sqe) :
    sqesOf p (l ++ l') = sqesOf p l ++ sqesOf p l' :=
  List.filter_append ..

theorem cqesOf_append (p : TaskPtr) (l l' : List Cqe) :
    cqesOf p (l ++ l') = cqesOf p l ++ cqesOf p l' :=
  List.filter_append ..

theorem sqesOf_own {l : List Sqe} (h : ∀ q ∈ l, q.caller.task = p) (r : TaskPtr) :
    sqesOf r l = if r = p then l else [] := by
  unfold sqesOf
  by_cases hr : r = p
  · rw [if_pos hr, List.filter_eq_self]
    exact fun q hq => by simp [h q hq, hr]
  · rw [if_neg hr, List.filter_eq_nil_iff]
    exact fun q hq => by simp [h q hq, Ne.symm hr]

theorem unanswered_append (es : List Cqe) (e : Cqe) (q : Sqe) :
    unanswered (es ++ [e]) q = (unanswered es q && (e.sqe.id != q.id || more e.flags)) := by
  simp [unanswered]

namespace RingAgrees

/-- Two SQEs with the same identity are the same. -/
theorem eq_of_id (h : RingAgrees T c) {q r : Sqe} (hq : q ∈ T.consumed ++ c.sq)
    (hr : r ∈ T.consumed ++ c.sq) (hid : q.id = r.id) : q = r := by
  have hnodup : ((T.consumed ++ c.sq ++ c.pending).map Sqe.id).Nodup := h.ids ▸ List.nodup_range
  exact List.inj_on_of_nodup_map hnodup (List.mem_append_left _ hq) (List.mem_append_left _ hr) hid

/-- What a task has received was posted. -/
theorem posted_of_received (h : RingAgrees T c) {e : Cqe} (he : e ∈ received (c.cell p).log) :
    e ∈ T.posted := by
  have hmem : e ∈ cqesOf p T.posted := by
    rw [h.got p]
    exact List.mem_append_left _ he
  exact List.mem_of_mem_filter hmem

/-! ## One step -/

/-- A poll that queues `new`. -/
theorem poll (h : RingAgrees T c) {new : List Sqe} (hpending : c'.pending = c.pending ++ new)
    (hnext : c'.nextSqe = c.nextSqe + new.length)
    (hids : new.map Sqe.id = List.range' c.nextSqe new.length)
    (hmine : ∀ q ∈ new, q.caller.task = p) (hsq : c'.sq = c.sq) (hin : c'.inflight = c.inflight)
    (hcq : c'.cq = c.cq) (hadds : Adds p c c' new []) : RingAgrees T c' := by
  have hgot : ∀ r, received (c'.cell r).log = received (c.cell r).log := by
    intro r
    by_cases hr : r = p
    · rw [hr, hadds.received, List.append_nil]
    · exact (hadds.others r hr).2
  refine ⟨?_, fun r => ?_, fun r => ?_, h.known, ?_⟩
  · have hrange : List.range c.nextSqe ++ List.range' c.nextSqe new.length =
        List.range (c.nextSqe + new.length) := by
      rw [List.range_eq_range', List.range_eq_range', ← List.range'_append_1, Nat.zero_add]
    rw [hsq, hpending, hnext, ← List.append_assoc, List.map_append, h.ids, hids, hrange]
  · rw [hsq, hpending, ← List.append_assoc, sqesOf_append, h.sent r, sqesOf_own hmine r]
    by_cases hr : r = p
    · rw [if_pos hr, hr, hadds.submitted]
    · rw [if_neg hr, List.append_nil, (hadds.others r hr).1]
  · rw [hgot, hcq, h.got r]
  · rw [hin, h.inflight]
    simp only [hgot]

theorem consume (h : RingAgrees T c) {q : Sqe} {sq : List Sqe} (hsq : c.sq = q :: sq) :
    RingAgrees { T with consumed := T.consumed ++ [q] }
    { c with sq, inflight := c.inflight ++ [q] } := by
  have hqueue : T.consumed ++ [q] ++ sq = T.consumed ++ c.sq := by rw [hsq, List.append_assoc]; rfl
  refine ⟨?_, fun r => ?_, h.got, fun e he => List.mem_append_left _ (h.known e he), ?_⟩
  · show ((T.consumed ++ [q] ++ sq) ++ c.pending).map Sqe.id = _
    rw [hqueue, h.ids]
  · show sqesOf r ((T.consumed ++ [q] ++ sq) ++ c.pending) = _
    rw [hqueue, h.sent r]
  · -- the SQE is consumed for the first time, so nothing has answered it
    have hnodup : ((T.consumed ++ c.sq ++ c.pending).map Sqe.id).Nodup := h.ids ▸ List.nodup_range
    have hfresh : unanswered (received (c.cell q.caller.task).log) q = true := by
      refine List.all_eq_true.mpr fun e he => ?_
      have hmem := h.known e (h.posted_of_received he)
      have hne : e.sqe.id ≠ q.id := by
        rw [hsq, List.map_append, List.map_append, List.append_assoc] at hnodup
        exact (List.nodup_append.mp hnodup).2.2 _ (List.mem_map_of_mem hmem) _ (by simp)
      simp [hne]
    show c.inflight ++ [q] = _
    rw [List.filter_append, h.inflight, List.filter_singleton, hfresh]
    rfl

theorem complete (h : RingAgrees T c) {e : Cqe} (hin : e.sqe ∈ c.inflight) :
    RingAgrees { T with posted := T.posted ++ [e] } { c with cq := c.cq ++ [e] } := by
  refine ⟨h.ids, h.sent, fun r => ?_, fun e' he => ?_, h.inflight⟩
  · show cqesOf r (T.posted ++ [e]) = _ ++ cqesOf r (c.cq ++ [e])
    rw [cqesOf_append, cqesOf_append, h.got r, List.append_assoc]
  · obtain he | he := List.mem_append.mp he
    · exact h.known e' he
    · rw [List.mem_singleton.mp he]
      rw [h.inflight] at hin
      exact List.mem_of_mem_filter hin

/-- The last completion of an SQE takes it out of flight. -/
theorem inflight_take (h : RingAgrees T c) {e : Cqe} {cq : List Cqe} (hin : e.sqe ∈ c.inflight)
    (hadds : Adds e.sqe.caller.task (c.take e cq) c' [] [e]) :
    (c.take e cq).inflight = T.consumed.filter fun q =>
      unanswered (received (c'.cell q.caller.task).log) q := by
  have hknown : e.sqe ∈ T.consumed := by
    rw [h.inflight] at hin
    exact List.mem_of_mem_filter hin
  -- only the answered SQE is told apart by the new record
  have hnow : ∀ q ∈ T.consumed, unanswered (received (c'.cell q.caller.task).log) q =
      (unanswered (received (c.cell q.caller.task).log) q && (q != e.sqe || more e.flags)) := by
    intro q hq
    have hid : (e.sqe.id != q.id) = (q != e.sqe) := by
      by_cases heq : q = e.sqe
      · rw [heq, bne_self_eq_false, bne_self_eq_false]
      · have hne : e.sqe.id ≠ q.id := fun hid =>
          heq (h.eq_of_id (List.mem_append_left _ hknown) (List.mem_append_left _ hq) hid).symm
        rw [bne_iff_ne.mpr hne, bne_iff_ne.mpr heq]
    by_cases ht : q.caller.task = e.sqe.caller.task
    · rw [ht, hadds.received, unanswered_append, hid]
      rfl
    · have hne : (q != e.sqe) = true := bne_iff_ne.mpr fun heq =>
        ht (congrArg (fun q => q.caller.task) heq)
      rw [(hadds.others _ ht).2, hne, Bool.true_or, Bool.and_true]
      rfl
  rw [List.filter_congr hnow]
  unfold Core.take
  by_cases hmore : more e.flags = true
  · simp only [hmore, if_true, Bool.or_true, Bool.and_true]
    exact h.inflight
  · have hnodup : T.consumed.Nodup := by
      have hmap : ((T.consumed ++ c.sq ++ c.pending).map Sqe.id).Nodup := h.ids ▸ List.nodup_range
      rw [List.append_assoc] at hmap
      exact (List.Nodup.of_map _ hmap).of_append_left
    simp only [hmore, Bool.or_false]
    rw [h.inflight, (hnodup.filter _).erase_eq_filter, List.filter_filter]
    exact List.filter_congr fun q _ => Bool.and_comm ..

theorem take (h : RingAgrees T c) {e : Cqe} {cq : List Cqe} (hin : e.sqe ∈ c.inflight)
    (hcq : c.cq = e :: cq) (hq : SameQueues (c.take e cq) c')
    (hadds : Adds e.sqe.caller.task (c.take e cq) c' [] [e]) : RingAgrees T c' := by
  refine ⟨?_, fun r => ?_, fun r => ?_, h.known, ?_⟩
  · rw [hq.sq, hq.pending, hq.nextSqe]
    exact h.ids
  · rw [hq.sq, hq.pending]
    refine (h.sent r).trans ?_
    by_cases hr : r = e.sqe.caller.task
    · rw [hr, hadds.submitted, List.append_nil]
      rfl
    · exact (hadds.others r hr).1.symm
  · have hgot := h.got r
    rw [hcq] at hgot
    rw [hq.cq, hgot]
    show _ = _ ++ cqesOf r cq
    by_cases hr : r = e.sqe.caller.task
    · rw [hr, hadds.received, List.append_assoc]
      show received (c.cell _).log ++ cqesOf _ ([e] ++ cq) = _
      rw [cqesOf_append]
      simp [cqesOf]
      rfl
    · rw [(hadds.others r hr).2]
      show _ ++ cqesOf r ([e] ++ cq) = received (c.cell r).log ++ _
      rw [cqesOf_append]
      simp [cqesOf, Ne.symm hr]
  · rw [hq.inflight]
    exact h.inflight_take hin hadds

/-- **One step keeps the histories and the records in agreement.** -/
theorem step (h : RingAgrees T c) (hr : RingInv c) (hs : RingStep c c') :
    RingAgrees ⟨T.consumed ++ c.sq.take (c.sq.length - c'.sq.length),
    T.posted ++ c'.cq.drop c.cq.length⟩ c' := by
  cases hs with
  | poll p new hpending hnext hids hmine hsq hin hcq hadds =>
    rw [hsq, hcq, Nat.sub_self, List.take_zero, List.append_nil, List.drop_length, List.append_nil]
    exact h.poll hpending hnext hids hmine hsq hin hcq hadds
  | submit heq =>
    subst heq
    have hlen : c.sq.length - (c.sq ++ c.pending).length = 0 := by simp
    rw [hlen, List.take_zero, List.append_nil, List.drop_length, List.append_nil]
    have hall : T.consumed ++ (c.sq ++ c.pending) ++ [] = T.consumed ++ c.sq ++ c.pending := by simp
    refine ⟨?_, fun r => ?_, h.got, h.known, h.inflight⟩
    · exact (congrArg (List.map Sqe.id) hall).trans h.ids
    · exact (congrArg (sqesOf r) hall).trans (h.sent r)
  | consume q sq hsq heq =>
    subst heq
    have hone : c.sq.take (c.sq.length - sq.length) = [q] := by simp [hsq]
    show RingAgrees ⟨T.consumed ++ c.sq.take (c.sq.length - sq.length), _⟩ _
    rw [hone, List.drop_length, List.append_nil]
    exact h.consume hsq
  | complete e hin heq =>
    subst heq
    show RingAgrees ⟨T.consumed ++ c.sq.take (c.sq.length - c.sq.length), T.posted ++
      (c.cq ++ [e]).drop c.cq.length⟩ _
    rw [Nat.sub_self, List.take_zero, List.append_nil, List.drop_left]
    exact h.complete hin
  | take e cq hcq hq hadds =>
    have hsq : c'.sq = c.sq := hq.sq
    have hdrop : c'.cq.drop c.cq.length = [] := by
      rw [hq.cq, hcq]
      exact List.drop_eq_nil_of_le (Nat.le_succ _)
    rw [hsq, hdrop, Nat.sub_self, List.take_zero, List.append_nil, List.append_nil]
    exact h.take (hr.head_inflight hcq) hcq hq hadds

end RingAgrees

/-! ## Every run -/

theorem State.new_nextSqe {base : Nat} {s : State σ} (h : State.new base = .ok s) :
    s.nextSqe = 0 := by
  unfold State.new at h
  cases hb : (BufPool.new base 512 512 : Except Fault (BufPool 1)) with
  | error e => simp [hb, bind, Except.bind] at h
  | ok pool =>
    cases ht : (Slab.withCapacity ⟨16, by decide⟩ : Except Fault (Slab TaskPtr)) with
    | error e => simp [hb, ht, bind, Except.bind] at h
    | ok tasks =>
      simp only [hb, ht, bind, Except.bind, pure, Except.pure, Except.ok.injEq] at h
      rw [← h]

theorem ringAgrees_new {base : Nat} {s : State σ} (h : State.new base = .ok s) :
    RingAgrees ⟨[], []⟩ s.core := by
  obtain ⟨-, hheap, hp, hsq, hin, hcq, -, -⟩ := State.new_spec h
  have hcell : ∀ q, s.core.cell q = .absent := fun q => by simp [State.core, hheap]
  have hpending : s.core.pending = [] := hp
  have hqueue : s.core.sq = [] := hsq
  have hcomps : s.core.cq = [] := hcq
  have hnext : s.core.nextSqe = 0 := State.new_nextSqe h
  refine ⟨?_, fun r => ?_, fun r => ?_, fun e he => absurd he List.not_mem_nil, hin⟩
  · rw [hqueue, hpending, hnext]
    rfl
  · rw [hqueue, hpending, hcell]
    rfl
  · rw [hcomps, hcell]
    rfl

theorem Carried.agrees {g : Scene σ} (h : Carried code T g) : RingAgrees T g.state.core := by
  induction h with
  | new h => exact ringAgrees_new h
  | step h hs ih =>
    have hsound := h.wakeRun.sound
    obtain ⟨-, he⟩ := hs.effect hsound
    exact ih.step hsound.inv.ring (he.ringStep hsound)

/-! ## Runs that evaluate -/

/-- Execute moves, with the history of the ring. -/
def carriedScript (code : Code σ) (ms : List (WakeMove σ)) (c : Traffic × Scene σ) :
    Option (Traffic × Scene σ) :=
  ms.foldlM (fun c m => (wakeMove code m c.2).map fun g' =>
  (c.1.next c.2.state.ring g'.state.ring, g')) c

/-- Execute moves on a fresh thread. -/
def freshCarried (code : Code σ) (ms : List (WakeMove σ)) : Option (Traffic × Scene σ) :=
  match State.new 0 with
  | .ok s => carriedScript code ms (⟨[], []⟩, ⟨.empty, s, []⟩)
  | .error _ => none

theorem Carried.script {ms : List (WakeMove σ)} :
    ∀ {c d : Traffic × Scene σ}, Carried code c.1 c.2 → carriedScript code ms c = some d →
    Carried code d.1 d.2 := by
  induction ms with
  | nil =>
    intro c d h hs
    cases hs
    exact h
  | cons m ms ih =>
    intro c d h hs
    unfold carriedScript at hs
    rw [List.foldlM_cons, Option.bind_eq_bind, Option.bind_eq_some_iff] at hs
    obtain ⟨c1, hm, hs⟩ := hs
    obtain ⟨g', hmove, rfl⟩ := Option.map_eq_some_iff.mp hm
    exact ih (h.step (wakeMove_step hmove)) hs

theorem Carried.fresh {ms : List (WakeMove σ)} {d : Traffic × Scene σ}
    (h : freshCarried code ms = some d) : Carried code d.1 d.2 := by
  unfold freshCarried at h
  split at h
  · rename_i s hs
    exact Carried.script (c := (_, _)) (.new hs) h
  · cases h

/-! ## Both ways -/

section Runs

variable {g : Scene σ}

/-- **The kernel gets every SQE once, in the order of submission**: what it has consumed, what waits
in the submission queue and what is pending are together the SQEs `0, 1, …` so far, and those of a
task among them are what the task has submitted, in its order. -/
theorem submissions_in_order (h : Carried code T g) :
    (T.consumed ++ g.state.ring.sq ++ g.state.pending).map Sqe.id = List.range g.state.nextSqe ∧
    ∀ p raw, g.state.heap[p]? = some raw →
      sqesOf p (T.consumed ++ g.state.ring.sq ++ g.state.pending) = submitted raw.log := by
  refine ⟨h.agrees.ids, fun p raw hraw => ?_⟩
  have hsent := h.agrees.sent p
  rw [State.core_cell hraw] at hsent
  exact hsent

/-- A stream that has spawned a second task, in the poll that spawns it. -/
theorem submissions_in_order_stream :
    ∃ T g, Carried readsPerItem T g ∧ T.consumed.map Sqe.id = [0, 1] ∧
    g.state.pending.map Sqe.id = [2] ∧ g.stack.map Frame.task = [2, 0] ∧
    ∀ p raw, g.state.heap[p]? = some raw →
      sqesOf p (T.consumed ++ g.state.ring.sq ++ g.state.pending) = submitted raw.log := by
  have hrun : (freshCarried readsPerItem (untilItem ++ [.run] ++ nestedMoves.take 20)).map (fun c =>
      (c.1.consumed.map Sqe.id, c.2.state.pending.map Sqe.id, c.2.stack.map Frame.task)) =
      some ([0, 1], [2], [2, 0]) := by
    decide +kernel
  obtain ⟨⟨T, g⟩, hc, hobs⟩ := Option.map_eq_some_iff.mp hrun
  rw [Prod.mk.injEq, Prod.mk.injEq] at hobs
  exact ⟨T, g, .fresh hc, hobs.1, hobs.2.1, hobs.2.2, (submissions_in_order (.fresh hc)).2⟩

/-- A completion is that of a task. -/
theorem Carried.task_of_posted (h : Carried code T g) {e : Cqe} (he : e ∈ T.posted) :
    ∃ raw, g.state.heap[e.sqe.caller.task]? = some raw := by
  have hsent := h.agrees.sent e.sqe.caller.task
  have hmem : e.sqe ∈ sqesOf e.sqe.caller.task
      (T.consumed ++ g.state.core.sq ++ g.state.core.pending) := by
    refine List.mem_filter.mpr ⟨?_, by simp⟩
    exact List.mem_append_left _ (List.mem_append_left _ (h.agrees.known e he))
  by_contra hnone
  have habsent : g.state.core.cell e.sqe.caller.task = .absent := by
    refine h.wakeRun.sound.inv.slab.fresh _ (Nat.le_of_not_lt fun hlt => hnone ?_)
    exact ⟨_, List.getElem?_eq_getElem hlt⟩
  rw [hsent, habsent] at hmem
  cases hmem

/-- **Every completion is delivered once, in order, to the task that submitted its SQE**: those of a
task that the kernel has posted are what the task has received and then what still waits in the
completion queue. An SQE is in flight from when the kernel consumes it until its task has received
its last completion. -/
theorem completions_delivered_once (h : Carried code T g) :
    (∀ e ∈ T.posted, ∃ raw, g.state.heap[e.sqe.caller.task]? = some raw) ∧
    (∀ p raw, g.state.heap[p]? = some raw →
      cqesOf p T.posted = received raw.log ++ cqesOf p g.state.ring.cq) ∧
    ∀ q raw, g.state.heap[q.caller.task]? = some raw → (q ∈ g.state.ring.inflight ↔
      q ∈ T.consumed ∧ ∀ e ∈ received raw.log, e.sqe.id = q.id → more e.flags = true) := by
  refine ⟨fun e he => h.task_of_posted he, fun p raw hraw => ?_, fun q raw hraw => ?_⟩
  · have hgot := h.agrees.got p
    rw [State.core_cell hraw] at hgot
    exact hgot
  · have hinflight : g.state.ring.inflight =
        T.consumed.filter fun q => unanswered (received (g.state.core.cell q.caller.task).log) q :=
        h.agrees.inflight
    rw [hinflight, List.mem_filter, State.core_cell hraw]
    refine and_congr_right fun _ => ?_
    show (received raw.log).all _ = true ↔ _
    rw [List.all_eq_true]
    refine forall₂_congr fun e he => ?_
    by_cases hid : e.sqe.id = q.id <;> simp [hid]

/-- Completions of two tasks: one is being handled, one waits. -/
theorem completions_delivered_once_stream : ∃ T g, Carried readsPerItem T g ∧
    T.posted.map (fun e => (e.sqe.id, e.result)) = [(0, 11), (1, 5), (0, 12)] ∧
    g.state.ring.cq.map (fun e => e.sqe.id) = [0] ∧ g.stack.map Frame.task = [1] ∧
    ∀ p raw, g.state.heap[p]? = some raw →
    cqesOf p T.posted = received raw.log ++ cqesOf p g.state.ring.cq := by
  have hrun : (freshCarried readsPerItem (untilItem ++ [.run] ++ nestedMoves.take 12)).map (fun c =>
      (c.1.posted.map (fun e => (e.sqe.id, e.result)), c.2.state.ring.cq.map (fun e => e.sqe.id),
        c.2.stack.map Frame.task)) = some ([(0, 11), (1, 5), (0, 12)], [0], [1]) := by
    decide +kernel
  obtain ⟨⟨T, g⟩, hc, hobs⟩ := Option.map_eq_some_iff.mp hrun
  rw [Prod.mk.injEq, Prod.mk.injEq] at hobs
  exact ⟨T, g, .fresh hc, hobs.1, hobs.2.1, hobs.2.2, (completions_delivered_once (.fresh hc)).2.1⟩

end Runs

end Onlyio
