import Onlyio.Machine.Account

/-!
# Every step keeps the accounts

The remaining operations of the machine, one lemma each: a task is created (`Inv.enter`), a
completion is taken off the ring (`RefInv.take`), handed over (`Inv.accept`) or skipped, a poll ends
(`Inv.endPoll`), the loop submits and drains the deferred list, the kernel consumes and completes.

* **`Inv.step`**: every step of the abstract machine keeps the accounting invariant.
-/

namespace Onlyio

variable {c : Core} {st : List Frame} {H W : TaskPtr → Nat} {p : TaskPtr}

/-! ## A task is created -/

theorem SlabInv.enter (h : SlabInv c) {i : SlabIdx} (hi : c.slots i = none)
    (L : List (Option Value)) : SlabInv (c.enter i L) := by
  have habsent := h.fresh c.spawned (Nat.le_refl _)
  have hslots : ∀ j, (c.enter i L).slots j = if j = i then some c.spawned else c.slots j :=
    fun j => Function.update_apply ..
  have hself : (c.enter i L).cell c.spawned = {
      refCounter := 2, syscallNb := 0, slabIdx := some i, freed := false,
      log := [.spawned L, .poll (.initialPoll i)] } := Function.update_self ..
  have hother : ∀ q, q ≠ c.spawned → (c.enter i L).cell q = c.cell q := fun q hq =>
    Function.update_of_ne hq ..
  have hold : ∀ j q, c.slots j = some q → q ≠ c.spawned := fun j q hq heq => by
    have := h.slot j q hq
    rw [heq, habsent] at this
    cases this
  refine ⟨fun j q hq => ?_, fun q hq => ?_, fun j q hq hf => ?_, fun j hj => ?_, h.nodup,
    fun q hq => ?_⟩
  · rw [hslots] at hq
    split at hq
    · obtain rfl := Option.some.inj hq
      rw [hself, ‹j = i›]
    · rw [hother q (hold j q hq)]
      exact h.slot j q hq
  · by_cases hqs : q = c.spawned
    · subst hqs
      exact ⟨i, by rw [hself], by rw [hslots, if_pos rfl]⟩
    · rw [hother q hqs] at hq ⊢
      obtain ⟨j, hj, hs⟩ := h.home q hq
      refine ⟨j, hj, ?_⟩
      rw [hslots, if_neg (fun heq => by rw [heq, hi] at hs; cases hs), hs]
  · rw [hslots] at hq
    split at hq
    · obtain rfl := Option.some.inj hq
      rw [hself] at hf
      cases hf
    · rw [hother q (hold j q hq)] at hf
      exact h.stale j q hq hf
  · obtain ⟨q, hq, hf⟩ := h.queued j hj
    refine ⟨q, ?_, by rw [hother q (hold j q hq), hf]⟩
    rw [hslots, if_neg (fun heq => by rw [heq, hi] at hq; cases hq), hq]
  · rw [hother q (Nat.lt_of_succ_le hq).ne']
    exact h.fresh q (Nat.le_of_succ_le hq)

theorem Inv.enter (h : Inv c st W) {i : SlabIdx} (hi : c.slots i = none) (L : List (Option Value)) :
    Inv (c.enter i L) (⟨c.spawned, .spawn c.current, none⟩ :: st) W := by
  have habsent := h.slab.fresh c.spawned (Nat.le_refl _)
  have hself : (c.enter i L).cell c.spawned = {
      refCounter := 2, syscallNb := 0, slabIdx := some i, freed := false,
      log := [.spawned L, .poll (.initialPoll i)] } := Function.update_self ..
  have hother : ∀ q, q ≠ c.spawned → (c.enter i L).cell q = c.cell q := fun q hq =>
    Function.update_of_ne hq ..
  obtain ⟨hno, hH⟩ := h.refs.spent c.spawned (by rw [habsent]; rfl)
  have hrefs : ∀ q, refsOn (⟨c.spawned, .spawn c.current, none⟩ :: st) q + W q =
      (if c.spawned = q then 2 else 0) + (refsOn st q + W q) := fun q => Nat.add_assoc ..
  refine ⟨h.slab.enter hi L, ⟨fun q hq => ?_, fun q hq => ?_, fun r hr => ?_⟩, ?_, ⟨?_, ?_⟩, ?_⟩
  · by_cases hqs : q = c.spawned
    · subst hqs
      have hzero : (c.enter i L).counted c.spawned = 0 :=
        List.countP_eq_zero.mpr fun r hr => by simp [hno r hr]
      rw [hself, hrefs, if_pos rfl, hH, hzero]
      exact ⟨Nat.two_pos, .inl ⟨fun ⟨r, hr, hc, _⟩ =>
        hno r (List.mem_append_left _ (List.mem_append_left _ hr)) hc, rfl⟩⟩
    · rw [hother q hqs] at hq ⊢
      rw [hrefs, if_neg (Ne.symm hqs), Nat.zero_add]
      exact h.refs.live q hq
  · by_cases hqs : q = c.spawned
    · rw [hqs, hself] at hq
      cases hq
    · rw [hother q hqs] at hq
      rw [hrefs, if_neg (Ne.symm hqs), Nat.zero_add]
      exact h.refs.spent q hq
  · rw [hother _ (hno r hr)]
    exact h.refs.owner r hr
  · exact h.ring.congr rfl rfl rfl rfl rfl
  · rw [hself]
    rfl
  · exact Ctx.congr (fun q hq => by rw [hother q fun heq => by rw [heq, habsent] at hq; cases hq])
      (fun f hf => h.live_of_mem hf) h.ctx
  · intro q hq
    by_cases hqs : q = c.spawned
    · subst hqs
      rw [hself]
      rfl
    · rw [hother q hqs]
      exact h.drops q (Nat.lt_of_le_of_ne (Nat.le_of_lt_succ hq) hqs)

/-! ## A poll ends -/

theorem refsOn_cons (f : Frame) (st : List Frame) (W : TaskPtr → Nat) :
    Function.update (fun p => refsOn (f :: st) p + W p) f.task
    (refsOn (f :: st) f.task + W f.task - f.refs) =
      fun p => refsOn st p + W p := by
  funext q
  by_cases hq : q = f.task
  · subst hq
    rw [Function.update_self]
    simp only [refsOn, if_true]
    omega
  · rw [Function.update_of_ne hq]
    simp [refsOn, Ne.symm hq]

/-- The references of a frame are released, and the context is what the frame's role restores. -/
theorem Inv.endPoll {f : Frame} (h : Inv c (f :: st) W) (cur : TaskInfo) (hctx : Ctx c cur st) :
    Inv { c.release f.task f.refs with current := cur } st W := by
  have hle : f.refs ≤ refsOn (f :: st) f.task + W f.task := by
    simp only [refsOn, if_true]
    omega
  have hr := h.refs.release h.ring h.live_top hle
  rw [refsOn_cons] at hr
  have hlive : ∀ g ∈ st, (c.cell g.task).freed = false := fun g hg =>
    h.live_of_mem (List.mem_cons_of_mem _ hg)
  have ht := Touch.current (c.release f.task f.refs) cur
  refine ⟨(h.slab.release h.live_top _).touch ht, hr.touch ht, (h.ring.release _ _).touch ht, ?_,
    (h.drops.release h.live_top _).touch ht⟩
  exact (hctx.release hlive f.refs).touch ht fun g hg =>
    hr.live_of_pos (Nat.add_pos_left (refsOn_pos_of_mem hg) _)

/-! ## A completion -/

section Completion

variable {e : Cqe} {cq : List Cqe}

theorem RingInv.head_inflight (h : RingInv c) (he : c.cq = e :: cq) : e.sqe ∈ c.inflight :=
  h.answered e (by rw [he]; exact List.mem_cons_self)

theorem mem_outstanding_of_inflight {q : Sqe} (h : q ∈ c.inflight) : q ∈ c.outstanding :=
  List.mem_append_right _ h

theorem take_outstanding_subset {q : Sqe} (h : q ∈ (c.take e cq).outstanding) :
    q ∈ c.outstanding := by
  simp only [Core.outstanding, Core.take, List.mem_append] at h ⊢
  rcases h with h | h
  · exact .inl h
  · right
    split at h
    · exact h
    · exact List.mem_of_mem_erase h

/-- The last completion of an SQE takes it off the outstanding ones. -/
theorem take_perm (cq : List Cqe) (hin : e.sqe ∈ c.inflight) (hfinal : more e.flags = false) :
    c.outstanding.Perm (e.sqe :: (c.take e cq).outstanding) := by
  simp only [Core.outstanding, Core.take, hfinal, if_false, Bool.false_eq_true]
  exact ((List.perm_cons_erase hin).append_left _).trans List.perm_middle

theorem take_outstanding_of_more (hmore : more e.flags = true) :
    (c.take e cq).outstanding = c.outstanding := by
  simp [Core.outstanding, Core.take, hmore]

theorem RingInv.take (h : RingInv c) (he : c.cq = e :: cq) : RingInv (c.take e cq) := by
  have hin := h.head_inflight he
  have hlast := h.last
  rw [he, List.pairwise_cons] at hlast
  have hshots := h.shots
  rw [he] at hshots
  refine ⟨?_, fun q hq => h.lt q (take_outstanding_subset hq), fun q hq => ?_, h.large,
    fun e' he' => ?_, hlast.2, fun e' he' => hshots e' (List.mem_cons_of_mem _ he')⟩
  · by_cases hmore : more e.flags = true
    · rw [take_outstanding_of_more hmore]
      exact h.ids
    · have := ((take_perm cq hin (by simpa using hmore)).map Sqe.id).nodup_iff.mp h.ids
      rw [List.map_cons, List.nodup_cons] at this
      exact this.2
  · simp only [Core.take, List.mem_append] at hq
    refine h.whole q (List.mem_append.mpr ?_)
    rcases hq with hq | hq
    · exact .inl hq
    · right
      split at hq
      · exact hq
      · exact List.mem_of_mem_erase hq
  · have hmem := h.answered e' (by rw [he]; exact List.mem_cons_of_mem _ he')
    simp only [Core.take]
    split
    · exact hmem
    · rename_i hmore
      refine (List.mem_erase_of_ne fun heq => hmore ?_).mpr hmem
      exact hlast.1 e' he' (by rw [heq])

/-- The token of an SQE whose last completion is taken. -/
def token (e : Cqe) (q : TaskPtr) : Nat :=
  if q = e.sqe.caller.task ∧ more e.flags = false then 1 else 0

/-- The reference of a completed SQE becomes a reference of its handler. -/
theorem RefInv.take (h : RefInv c H) (hr : RingInv c) (he : c.cq = e :: cq) :
    RefInv (c.take e cq) fun q => H q + token e q := by
  have hin := hr.head_inflight he
  by_cases hmore : more e.flags = true
  · have htoken : (fun q => H q + token e q) = H := funext fun q => by simp [token, hmore]
    rw [htoken]
    refine h.congr ?_ (fun _ => Iff.rfl) (fun _ => rfl) (fun _ => rfl) fun _ => rfl
    rw [take_outstanding_of_more hmore]
  · have hmore : more e.flags = false := by simpa using hmore
    have hperm := take_perm cq hin hmore
    have hwhole := hr.whole e.sqe (List.mem_append_right _ hin)
    have hcount : ∀ q, c.counted q = (c.take e cq).counted q + token e q := fun q => by
      rw [Core.counted, hperm.countP_eq, List.countP_cons]
      simp only [token, hmore, hwhole, eq_comm (a := q)]
      simp [Core.counted]
    refine ⟨fun q hq => ?_, fun q hq => ?_, fun r hr => h.owner r (take_outstanding_subset hr)⟩
    · obtain ⟨hpos, hbal⟩ := h.live q hq
      refine ⟨hpos, ?_⟩
      have := hcount q
      rcases hbal with ⟨ht, hbal⟩ | ⟨ht, hbal⟩
      · exact .inl ⟨ht, show (c.cell q).refCounter = _ by omega⟩
      · exact .inr ⟨ht, show _ < (c.cell q).refCounter by omega⟩
    · obtain ⟨hno, hH⟩ := h.spent q hq
      refine ⟨fun r hr => hno r (take_outstanding_subset hr), ?_⟩
      have hne : q ≠ e.sqe.caller.task := fun heq =>
        hno e.sqe (mem_outstanding_of_inflight hin) heq.symm
      simp [hH, token, hne]

/-- The slot that a completion names holds the submitter of its SQE. -/
theorem Inv.cqe_owner (h : Inv c st W) (he : c.cq = e :: cq)
    (hp : c.slots e.sqe.payload.taskIdx = some p) :
    p = e.sqe.caller.task ∧ (c.cell p).freed = false := by
  obtain ⟨hslot, hlive⟩ := h.owner_slot (mem_outstanding_of_inflight (h.ring.head_inflight he))
  rw [hp, Option.some.injEq] at hslot
  exact ⟨hslot, hslot ▸ hlive⟩

/-- One more handle. -/
theorem RefInv.bump (h : RefInv c H) (hp : (c.cell p).freed = false) (k : Nat) :
    RefInv (c.bump p k) (Function.update H p (H p + k)) := by
  have he := Effect.bump c p k
  refine ⟨fun q hq => ?_, fun q hq => ?_, fun r hr => ?_⟩
  · rw [he.freed_eq] at hq
    obtain ⟨hpos, hbal⟩ := h.live q hq
    by_cases hqp : q = p
    · subst hqp
      rw [he.refCounter, Function.update_self]
      refine ⟨by omega, ?_⟩
      rcases hbal with ⟨ht, hbal⟩ | ⟨ht, hbal⟩
      · exact .inl ⟨ht, show _ = c.counted q + _ by omega⟩
      · exact .inr ⟨ht, show c.counted q + _ < _ by omega⟩
    · rw [he.others q hqp, Function.update_of_ne hqp]
      exact ⟨hpos, hbal⟩
  · rw [he.freed_eq] at hq
    have hqp : q ≠ p := fun heq => by rw [heq, hp] at hq; cases hq
    rw [Function.update_of_ne hqp]
    exact h.spent q hq
  · rw [he.slabIdx_eq]
    exact h.owner r hr

/-- A completion that is handed to its task. -/
theorem Inv.accept (h : Inv c [] W) (he : c.cq = e :: cq)
    (hp : c.slots e.sqe.payload.taskIdx = some p) (cls : SyscallNbCompResult) :
    Inv ((c.take e cq).accept p e cls) [⟨p, .handle (!more e.flags), none⟩] W := by
  obtain ⟨howner, hlive⟩ := h.cqe_owner he hp
  have hlt : p < c.spawned := h.slab.lt_spawned hlive
  have hslab : SlabInv (c.take e cq) :=
    h.slab.congr rfl rfl (fun _ => rfl) (fun _ => rfl) h.slab.fresh
  have hring : RingInv ((c.take e cq).bump p 1) := (h.ring.take he).congr rfl rfl rfl rfl rfl
  have hdrop : DropInv (c.take e cq) := h.drops
  have hbump := Effect.bump (c.take e cq) p 1
  -- the clone: one more reference, held by the handler
  have hH : Function.update (fun q => refsOn [] q + W q + token e q) p
    (refsOn [] p + W p + token e p + 1) =
      fun q => refsOn [⟨p, .handle (!more e.flags), none⟩] q + W q := by
    funext q
    by_cases hq : q = p
    · subst hq
      rw [Function.update_self]
      simp only [refsOn, Frame.refs, token, howner, true_and, if_true]
      cases more e.flags <;> simp <;> omega
    · rw [Function.update_of_ne hq]
      simp [refsOn, Ne.symm hq, token, ← howner, hq]
  have hrefs := (h.refs.take h.ring he).bump hlive 1
  rw [hH] at hrefs
  -- the record, the context and the poll touch no account
  have ht : Touch ((c.take e cq).bump p 1) ((c.take e cq).accept p e cls) := by
    refine Touch.trans (Touch.trans (Touch.logAt ((c.take e cq).bump p 1) (p := p)
      (e := .cqe e cls ((c.take e cq).others p e.sqe)) hlt (by simp))
      (Touch.deliver _ (p := p) e cls hlt)) ?_
    exact Touch.logAt _ (by cases cls <;> exact hlt) (by simp)
  refine ⟨(hslab.effect hbump hlive).touch ht, hrefs.touch ht, hring.touch ht, ⟨?_, rfl⟩,
    (hdrop.effect hbump).touch ht⟩
  have hidx : ((c.take e cq).accept p e cls).current.tag.taskIdx = e.sqe.payload.taskIdx := by
    cases cls <;> rfl
  rw [ht.slabIdx, hbump.slabIdx_eq, hidx]
  exact h.slab.slot _ p hp

/-- A completion that is skipped. -/
theorem Inv.skip (h : Inv c [] W) (he : c.cq = e :: cq)
    (hp : c.slots e.sqe.payload.taskIdx = some p) (ev : Event) (hev : ev ≠ .dropped) :
    Inv (((c.take e cq).logAt p ev).release p (if more e.flags then 0 else 1)) [] W := by
  obtain ⟨howner, hlive⟩ := h.cqe_owner he hp
  have ht : Touch (c.take e cq) ((c.take e cq).logAt p ev) :=
    Touch.logAt _ (h.slab.lt_spawned hlive) hev
  have hlive' : (((c.take e cq).logAt p ev).cell p).freed = false := by
    rw [ht.freed]
    exact hlive
  have hslab : SlabInv (c.take e cq) :=
    h.slab.congr rfl rfl (fun _ => rfl) (fun _ => rfl) h.slab.fresh
  have hdrop : DropInv (c.take e cq) := h.drops
  have hring := (h.ring.take he).touch ht
  have hrefs := (h.refs.take h.ring he).touch ht
  have hn : (if more e.flags then 0 else 1) = token e p := by
    simp only [token, howner, true_and]
    cases more e.flags <;> rfl
  have hr := hrefs.release hring hlive' (n := if more e.flags then 0 else 1)
    (hn.le.trans (Nat.le_add_left _ _))
  refine ⟨(hslab.touch ht).release hlive' _, ?_, hring.release _ _, trivial,
    (hdrop.touch ht).release hlive' _⟩
  have hH : Function.update (fun q => refsOn [] q + W q + token e q) p
      (refsOn [] p + W p + token e p - if more e.flags then 0 else 1) = fun q =>
        refsOn [] q + W q := by
    funext q
    by_cases hq : q = p
    · subst hq
      rw [Function.update_self, ← hn, Nat.add_sub_cancel]
    · rw [Function.update_of_ne hq]
      simp [token, ← howner, hq]
  rwa [hH] at hr

end Completion

/-! ## The loop and the kernel -/

/-- Submitting moves the pending SQEs; none of them is of a truncated fan-out, whose batch would
not have fitted. -/
theorem Inv.submit (h : Inv c [] W) (hfit : c.sq.length + c.pending.length ≤ 1024) :
    Inv { c with sq := c.sq ++ c.pending, pending := [] } [] W := by
  have hwhole : ∀ q ∈ c.pending, q.oversize = false := fun q hq => by
    by_contra hover
    have := h.ring.large q hq (by simpa using hover)
    omega
  have hperm : Core.outstanding { c with sq := c.sq ++ c.pending, pending := [] } |>.Perm
      c.outstanding := by
    simp only [Core.outstanding, List.nil_append]
    exact List.perm_append_comm.append_right _
  refine ⟨h.slab.congr rfl rfl (fun _ => rfl) (fun _ => rfl) h.slab.fresh, ?_, ?_, trivial, h.drops⟩
  · refine h.refs.congr hperm (fun p => ⟨?_, ?_⟩) (fun _ => rfl) (fun _ => rfl) fun _ => rfl
    · rintro ⟨q, hq, -⟩
      exact absurd hq List.not_mem_nil
    rintro ⟨q, hq, -, hover⟩
    rw [hwhole q hq] at hover
    cases hover
  · refine ⟨?_, fun q hq => h.ring.lt q (hperm.mem_iff.mp hq), fun q hq => ?_,
      fun q hq => absurd hq List.not_mem_nil, h.ring.answered, h.ring.last, h.ring.shots⟩
    · rw [(hperm.map Sqe.id).nodup_iff]
      exact h.ring.ids
    · simp only [List.mem_append] at hq
      rcases hq with (hq | hq) | hq
      · exact h.ring.whole q (List.mem_append_left _ hq)
      · exact hwhole q hq
      · exact h.ring.whole q (List.mem_append_right _ hq)

theorem Inv.consume (h : Inv c [] W) {q : Sqe} {sq : List Sqe} (hq : c.sq = q :: sq) :
    Inv { c with sq, inflight := c.inflight ++ [q] } [] W := by
  have hperm : Core.outstanding { c with sq, inflight := c.inflight ++ [q] } |>.Perm
      c.outstanding := by
    simp only [Core.outstanding, hq, List.append_assoc]
    refine List.Perm.append_left _ ?_
    rw [← List.append_assoc]
    exact List.perm_append_comm
  refine ⟨h.slab.congr rfl rfl (fun _ => rfl) (fun _ => rfl) h.slab.fresh,
    h.refs.congr hperm (fun _ => Iff.rfl) (fun _ => rfl) (fun _ => rfl) fun _ => rfl, ?_, trivial,
    h.drops⟩
  refine ⟨?_, fun r hr => h.ring.lt r (hperm.mem_iff.mp hr), fun r hr => h.ring.whole r ?_,
    h.ring.large, fun e he => List.mem_append_left _ (h.ring.answered e he), h.ring.last,
    h.ring.shots⟩
  · rw [(hperm.map Sqe.id).nodup_iff]
    exact h.ring.ids
  · rw [hq]
    simp only [List.mem_append, List.mem_cons] at hr ⊢
    tauto

theorem Inv.complete (h : Inv c [] W) {q : Sqe} {result : Int32} {flags : UInt32}
    (hq : q ∈ c.inflight) (hlast : ∀ e ∈ c.cq, e.sqe.id = q.id → more e.flags = true)
    (hmore : more flags = true → q.op.isMultishot = true) :
    Inv { c with cq := c.cq ++ [⟨q, result, flags⟩] } [] W := by
  refine ⟨h.slab.congr rfl rfl (fun _ => rfl) (fun _ => rfl) h.slab.fresh,
    h.refs.congr (.refl _) (fun _ => Iff.rfl) (fun _ => rfl) (fun _ => rfl) fun _ => rfl,
    ⟨h.ring.ids, h.ring.lt, h.ring.whole, h.ring.large, fun e he => ?_, ?_, fun e he => ?_⟩,
    trivial, h.drops⟩
  · rcases List.mem_append.mp he with he | he
    · exact h.ring.answered e he
    · rw [List.mem_singleton.mp he]
      exact hq
  · rw [List.pairwise_append]
    refine ⟨h.ring.last, List.pairwise_singleton _ _, fun e he e' he' hid => hlast e he ?_⟩
    rw [← hid, List.mem_singleton.mp he']
  · rcases List.mem_append.mp he with he | he
    · exact h.ring.shots e he
    · rw [List.mem_singleton.mp he]
      exact hmore

/-- Draining the deferred list empties exactly the slots of the freed tasks. -/
theorem Inv.free (h : Inv c [] W) :
    Inv { c with slots := fun i => if i ∈ c.freeList then none else c.slots i, freeList := [] }
      [] W := by
  refine ⟨⟨fun i p hp => ?_, fun p hp => ?_, fun i p hp hf => ?_, fun i hi => (nomatch hi),
    List.nodup_nil, h.slab.fresh⟩, ?_, ?_, trivial, h.drops⟩
  · dsimp only at hp
    split at hp
    · cases hp
    · exact h.slab.slot i p hp
  · obtain ⟨i, hi, hs⟩ := h.slab.home p hp
    refine ⟨i, hi, ?_⟩
    have hlive : i ∉ c.freeList := fun hmem => by
      obtain ⟨q, hq, hf⟩ := h.slab.queued i hmem
      rw [hs, Option.some.injEq] at hq
      rw [← hq] at hf
      exact absurd (hf.symm.trans hp) (by decide)
    simp only [hlive, if_false]
    exact hs
  · dsimp only at hp
    split at hp
    · cases hp
    · rename_i hmem
      exact absurd (h.slab.stale i p hp hf) hmem
  · exact h.refs.congr (.refl _) (fun _ => Iff.rfl) (fun _ => rfl) (fun _ => rfl) fun _ => rfl
  · exact h.ring.congr rfl rfl rfl rfl rfl

/-! ## One step -/

/-- `Inv` does not look at the result of a frame. -/
theorem Inv.result {role : Role} {r r' : Option (Poll Unit)} (h : Inv c (⟨p, role, r⟩ :: st) W) :
    Inv c (⟨p, role, r'⟩ :: st) W :=
  ⟨h.slab, h.refs, h.ring, h.ctx, h.drops⟩

/-- **Every step keeps the accounting invariant.** -/
theorem Inv.step {σ : Type} {code : Code σ} {g g' : Config σ} (hs : Step code g g')
    (h : Inv g.core g.stack W) : Inv g'.core g'.stack W := by
  cases hs with
  | locals => exact h
  | poll hf hx hv hpoll =>
    obtain ⟨k, new, evs, hb, he⟩ := hpoll.effect
    have hinv := h.effect he hb
    exact hinv.touch (Touch.logAt _ (hinv.slab.lt_spawned hinv.live_top) (by simp)) rfl
  | suspend => exact h.result
  | ret =>
    exact (h.touch (Touch.logAt _ (h.slab.lt_spawned h.live_top) (by simp)) rfl).result
  | spawn hf hx hm hi => exact h.enter hi _
  | main _ hi => exact h.enter hi []
  | spawnEnd => exact h.endPoll _ h.ctx.2
  | skip he hp hcls => exact h.skip he hp _ (by simp)
  | handle he hp hcls => exact h.accept he hp _
  | @handleEnd c fut p final r =>
    have := h.endPoll (c.release p (if final then 2 else 1)).current trivial
    cases final <;> exact this
  | submit hfit => exact h.submit hfit
  | consume hq => exact h.consume hq
  | complete hq hlast hmore => exact h.complete hq hlast hmore
  | free => exact h.free

end Onlyio
