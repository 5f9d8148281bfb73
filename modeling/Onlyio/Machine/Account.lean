import Onlyio.Machine.Effect
import Mathlib.Data.List.Nodup
import Mathlib.Data.List.Perm.Subperm

/-!
# The accounting invariant

Three accounts have to agree: the reference counter of a task, the slab with its deferred free list,
and the SQEs that name a slab index. `Inv` joins them, with what the ring guarantees and with the
saved contexts, for every state of the abstract machine, polls in progress included.

* `SlabInv`: a live task sits in its slot; a freed one stays there exactly until the deferred list
  is drained.
* `RefInv c H`: the counter of a live task is its outstanding SQEs plus the `H` handles that polls
  in progress hold. A fan-out that truncates its count only makes the counter too large.
* `RingInv`: SQEs are distinct, and completions answer SQEs in flight, the last one last.
* **`Inv.step`**: every step keeps `Inv`.
* `Inv.owner_slot`: the slot an outstanding SQE names holds its submitter, which is live.
-/

namespace Onlyio

/-! ## The accounts -/

/-- The references that the polls in progress hold to `p`. -/
def refsOn : List Frame → TaskPtr → Nat
  | [], _ => 0
  | f :: st, p => (if f.task = p then f.refs else 0) + refsOn st p

/-- The outstanding SQEs of `p` that its counter counts. -/
def Core.counted (c : Core) (p : TaskPtr) : Nat :=
  c.outstanding.countP fun q => q.caller.task = p && !q.oversize

/-- A fan-out of `p` has truncated its count. -/
def Core.Truncated (c : Core) (p : TaskPtr) : Prop :=
  ∃ q ∈ c.pending, q.caller.task = p ∧ q.oversize = true

/-- The slab, the allocations and the deferred free list. -/
structure SlabInv (c : Core) : Prop where
  slot : ∀ i p, c.slots i = some p → (c.cell p).slabIdx = some i
  home : ∀ p, (c.cell p).freed = false → ∃ i, (c.cell p).slabIdx = some i ∧ c.slots i = some p
  stale : ∀ i p, c.slots i = some p → (c.cell p).freed = true → i ∈ c.freeList
  queued : ∀ i ∈ c.freeList, ∃ p, c.slots i = some p ∧ (c.cell p).freed = true
  nodup : c.freeList.Nodup
  fresh : ∀ p, c.spawned ≤ p → c.cell p = .absent

/-- The reference counters, when the polls in progress hold `H`. -/
structure RefInv (c : Core) (H : TaskPtr → Nat) : Prop where
  live : ∀ p, (c.cell p).freed = false → 0 < (c.cell p).refCounter ∧
    (¬ c.Truncated p ∧ (c.cell p).refCounter = c.counted p + H p ∨
      c.Truncated p ∧ c.counted p + H p < (c.cell p).refCounter)
  spent : ∀ p, (c.cell p).freed = true → (∀ q ∈ c.outstanding, q.caller.task ≠ p) ∧ H p = 0
  owner : ∀ q ∈ c.outstanding, (c.cell q.caller.task).slabIdx = some q.payload.taskIdx

/-- The ring. -/
structure RingInv (c : Core) : Prop where
  ids : (c.outstanding.map Sqe.id).Nodup
  lt : ∀ q ∈ c.outstanding, q.id < c.nextSqe
  whole : ∀ q ∈ c.sq ++ c.inflight, q.oversize = false
  large : ∀ q ∈ c.pending, q.oversize = true → 65535 < c.pending.length
  answered : ∀ e ∈ c.cq, e.sqe ∈ c.inflight
  last : c.cq.Pairwise fun e e' => e'.sqe.id = e.sqe.id → more e.flags = true
  shots : ∀ e ∈ c.cq, more e.flags = true → e.sqe.op.isMultishot = true

/-- Each poll in progress has, as current task or as the context that will be restored, one that
names its task's slot. -/
def Ctx (c : Core) : TaskInfo → List Frame → Prop
  | _, [] => True
  | cur, f :: st => (c.cell f.task).slabIdx = some cur.tag.taskIdx ∧
    match f.role with
    | .spawn old => Ctx c old st
    | .handle _ => st = []

/-- The future of a task is dropped once, when the task is freed. -/
def DropInv (c : Core) : Prop :=
  ∀ p, p < c.spawned → (c.cell p).log.count .dropped = if (c.cell p).freed then 1 else 0

/-- **The accounting invariant**, when `W` references are held outside of the polls in progress. -/
structure Inv (c : Core) (st : List Frame) (W : TaskPtr → Nat := fun _ => 0) : Prop where
  slab : SlabInv c
  refs : RefInv c fun p => refsOn st p + W p
  ring : RingInv c
  ctx : Ctx c c.current st
  drops : DropInv c

variable {c c' : Core} {st : List Frame} {H W : TaskPtr → Nat} {p : TaskPtr}

/-! ## What follows at once -/

theorem SlabInv.lt_spawned (h : SlabInv c) (hp : (c.cell p).freed = false) : p < c.spawned := by
  by_contra hge
  rw [h.fresh p (Nat.le_of_not_lt hge)] at hp
  cases hp

/-- The slot an outstanding SQE names holds its submitter, which is live. -/
theorem Inv.owner_slot (h : Inv c st W) {q : Sqe} (hq : q ∈ c.outstanding) :
    c.slots q.payload.taskIdx = some q.caller.task ∧ (c.cell q.caller.task).freed = false := by
  have hlive : (c.cell q.caller.task).freed = false := by
    by_contra hf
    exact (h.refs.spent _ (by simpa using hf)).1 q hq rfl
  obtain ⟨i, hi, hs⟩ := h.slab.home _ hlive
  have hown := h.refs.owner q hq
  rw [hi, Option.some.injEq] at hown
  exact ⟨hown ▸ hs, hlive⟩

/-- A task whose handle a poll in progress holds is live. -/
theorem RefInv.live_of_pos (h : RefInv c H) (hp : 0 < H p) : (c.cell p).freed = false := by
  by_contra hf
  have := (h.spent p (by simpa using hf)).2
  omega

theorem Frame.refs_pos (f : Frame) : 0 < f.refs := by
  unfold Frame.refs
  split
  · decide
  · split <;> decide

theorem Inv.live_top {f : Frame} (h : Inv c (f :: st) W) : (c.cell f.task).freed = false := by
  refine h.refs.live_of_pos ?_
  have := f.refs_pos
  simp only [refsOn, if_true]
  omega

/-- The task whose block runs is the one in the current slot. -/
theorem Inv.current_slot {f : Frame} (h : Inv c (f :: st) W) :
    c.slots c.current.tag.taskIdx = some f.task := by
  obtain ⟨i, hi, hs⟩ := h.slab.home _ h.live_top
  have hctx := h.ctx.1
  rw [hi, Option.some.injEq] at hctx
  exact hctx ▸ hs

theorem Inv.counter_ge (h : RefInv c H) (hp : (c.cell p).freed = false) :
    H p ≤ (c.cell p).refCounter := by
  obtain ⟨-, h1 | h1⟩ := h.live p hp <;> omega

/-! ## Parts that a change does not touch -/

theorem SlabInv.congr (h : SlabInv c) (hslots : c'.slots = c.slots)
    (hfree : c'.freeList = c.freeList) (hidx : ∀ q, (c'.cell q).slabIdx = (c.cell q).slabIdx)
    (hfreed : ∀ q, (c'.cell q).freed = (c.cell q).freed)
    (hfresh : ∀ q, c'.spawned ≤ q → c'.cell q = .absent) : SlabInv c' := by
  refine ⟨fun i q => ?_, fun q => ?_, fun i q => ?_, fun i => ?_, ?_, hfresh⟩
  · rw [hslots, hidx]
    exact h.slot i q
  · rw [hfreed, hidx, hslots]
    exact h.home q
  · rw [hslots, hfreed, hfree]
    exact h.stale i q
  · rw [hfree, hslots]
    intro hi
    obtain ⟨q, hq, hf⟩ := h.queued i hi
    exact ⟨q, hq, by rw [hfreed, hf]⟩
  · rw [hfree]
    exact h.nodup

theorem Ctx.congr (hidx : ∀ q, (c.cell q).freed = false → (c'.cell q).slabIdx = (c.cell q).slabIdx)
    : ∀ {st : List Frame} {cur : TaskInfo}, (∀ f ∈ st, (c.cell f.task).freed = false) →
      Ctx c cur st → Ctx c' cur st := by
  intro st
  induction st with
  | nil => exact fun _ h => h
  | cons f st ih =>
    rintro cur hlive ⟨h1, h2⟩
    refine ⟨by rw [hidx _ (hlive f List.mem_cons_self), h1], ?_⟩
    split
    · rename_i old hrole
      rw [hrole] at h2
      exact ih (fun g hg => hlive g (List.mem_cons_of_mem _ hg)) h2
    · rename_i final hrole
      rw [hrole] at h2
      exact h2

theorem refsOn_pos_of_mem {f : Frame} (hf : f ∈ st) : 0 < refsOn st f.task := by
  induction st with
  | nil => cases hf
  | cons g st ih =>
    have hg := g.refs_pos
    rcases List.mem_cons.mp hf with rfl | hf
    · simp only [refsOn, if_true]
      omega
    · have := ih hf
      simp only [refsOn]
      omega

theorem Inv.live_of_mem (h : Inv c st W) {f : Frame} (hf : f ∈ st) :
    (c.cell f.task).freed = false :=
  h.refs.live_of_pos (Nat.add_pos_left (refsOn_pos_of_mem hf) _)

/-- A task is freed iff nothing refers to it: no outstanding SQE, no poll in progress, nothing
else. -/
theorem Inv.freed_iff_refs (h : Inv c st W) (p : TaskPtr) :
    (c.cell p).freed = true ↔
      (∀ q ∈ c.outstanding, q.caller.task ≠ p) ∧ (∀ f ∈ st, f.task ≠ p) ∧ W p = 0 := by
  constructor
  · intro hf
    obtain ⟨hno, hH⟩ := h.refs.spent p hf
    refine ⟨hno, ?_, (Nat.add_eq_zero_iff.mp hH).2⟩
    rintro f hmem rfl
    have hlive := h.live_of_mem hmem
    rw [hf] at hlive
    cases hlive
  · rintro ⟨hq, hst, hW⟩
    by_contra hlive
    rw [Bool.not_eq_true] at hlive
    have hH : refsOn st p = 0 := by
      clear h
      induction st with
      | nil => rfl
      | cons f st ih =>
        rw [refsOn, if_neg (hst f List.mem_cons_self), Nat.zero_add]
        exact ih fun g hg => hst g (List.mem_cons_of_mem _ hg)
    have hcount : c.counted p = 0 := by
      refine List.countP_eq_zero.mpr fun q hmem => ?_
      simp [hq q hmem]
    obtain ⟨hpos, ⟨-, heq⟩ | ⟨⟨q, hmem, htask, -⟩, -⟩⟩ := h.refs.live p hlive
    · omega
    · refine hq q ?_ htask
      simp [Core.outstanding, hmem]

theorem Inv.freed_iff (h : Inv c st) (p : TaskPtr) :
    (c.cell p).freed = true ↔
      (∀ q ∈ c.outstanding, q.caller.task ≠ p) ∧ ∀ f ∈ st, f.task ≠ p := by
  rw [h.freed_iff_refs, and_iff_left rfl]

theorem Ctx.idx {cur cur' : TaskInfo} (h : Ctx c cur st)
    (hidx : cur'.tag.taskIdx = cur.tag.taskIdx) : Ctx c cur' st := by
  cases st with
  | nil => trivial
  | cons f st => exact ⟨by rw [hidx]; exact h.1, h.2⟩

/-! ## A block runs -/

section Effect

variable {k : Nat} {new : List Sqe} {evs : List Event}

theorem Effect.perm (h : Effect p c c' k new evs) :
    c'.outstanding.Perm (c.outstanding ++ new) := by
  simp only [Core.outstanding, h.pending, h.sq, h.inflight, List.append_assoc]
  rw [← List.append_assoc c.sq]
  exact List.perm_append_comm.append_left c.pending

theorem Effect.slabIdx_eq (h : Effect p c c' k new evs) (q : TaskPtr) :
    (c'.cell q).slabIdx = (c.cell q).slabIdx := by
  by_cases hq : q = p
  · rw [hq, h.slabIdx]
  · rw [h.others q hq]

theorem Effect.freed_eq (h : Effect p c c' k new evs) (q : TaskPtr) :
    (c'.cell q).freed = (c.cell q).freed := by
  by_cases hq : q = p
  · rw [hq, h.freed]
  · rw [h.others q hq]

theorem SlabInv.effect (h : SlabInv c) (he : Effect p c c' k new evs)
    (hp : (c.cell p).freed = false) : SlabInv c' := by
  refine h.congr he.slots he.freeList he.slabIdx_eq he.freed_eq fun q hq => ?_
  rw [he.spawned] at hq
  have hne : q ≠ p := (Nat.lt_of_lt_of_le (h.lt_spawned hp) hq).ne'
  rw [he.others q hne, h.fresh q hq]

/-- The references and SQEs that a running block adds balance. -/
theorem RefInv.effect (h : RefInv c H) (he : Effect p c c' k new evs) (hb : Balanced k new)
    (hp : (c.cell p).freed = false) (hctx : (c.cell p).slabIdx = some c.current.tag.taskIdx) :
    RefInv c' H := by
  have hcount : ∀ q, c'.counted q = c.counted q +
      new.countP fun r => decide (r.caller.task = q) && !r.oversize := fun q => by
    rw [Core.counted, he.perm.countP_eq, List.countP_append]
    rfl
  have hzero : ∀ q, q ≠ p → c'.counted q = c.counted q := fun q hq => by
    rw [hcount, List.countP_eq_zero.mpr, Nat.add_zero]
    intro r hr
    simp [(he.mine r hr).1, Ne.symm hq]
  have htrunc : ∀ q, c'.Truncated q ↔ c.Truncated q ∨ ∃ r ∈ new, r.caller.task = q ∧
      r.oversize = true :=
    fun q => by
    simp only [Core.Truncated, he.pending, List.mem_append, or_and_right, exists_or]
  refine ⟨fun q hq => ?_, fun q hq => ?_, fun r hr => ?_⟩
  · rw [he.freed_eq] at hq
    obtain ⟨hpos, hbal⟩ := h.live q hq
    by_cases hqp : q = p
    · subst hqp
      rw [he.refCounter]
      refine ⟨by omega, ?_⟩
      rcases hb with ⟨hsmall, hk⟩ | ⟨hbig, hlen, hk⟩
      · have hnew : c'.counted q = c.counted q + k := by
          rw [hcount, hk, List.countP_eq_length.mpr]
          intro r hr
          simp [(he.mine r hr).1, hsmall r hr]
        have hsame : c'.Truncated q ↔ c.Truncated q := by
          rw [htrunc, or_iff_left]
          rintro ⟨r, hr, -, hover⟩
          rw [hsmall r hr] at hover
          cases hover
        rw [hsame, hnew]
        rcases hbal with ⟨ht, hbal⟩ | ⟨ht, hbal⟩
        · exact .inl ⟨ht, by omega⟩
        · exact .inr ⟨ht, by omega⟩
      · have hnew : c'.counted q = c.counted q := by
          rw [hcount, List.countP_eq_zero.mpr, Nat.add_zero]
          intro r hr
          simp [hbig r hr]
        obtain ⟨r, hr⟩ := List.exists_mem_of_length_pos (show 0 < new.length by omega)
        refine .inr ⟨(htrunc q).mpr (.inr ⟨r, hr, (he.mine r hr).1, hbig r hr⟩), ?_⟩
        rw [hnew]
        omega
    · have hsame : c'.Truncated q ↔ c.Truncated q := by
        rw [htrunc, or_iff_left]
        rintro ⟨r, hr, hcaller, -⟩
        exact hqp (hcaller.symm.trans (he.mine r hr).1)
      rw [he.others q hqp, hzero q hqp, hsame]
      exact ⟨hpos, hbal⟩
  · rw [he.freed_eq] at hq
    obtain ⟨hno, hH⟩ := h.spent q hq
    refine ⟨fun r hr => ?_, hH⟩
    rcases List.mem_append.mp (he.perm.mem_iff.mp hr) with hr | hr
    · exact hno r hr
    · rintro rfl
      rw [(he.mine r hr).1, hp] at hq
      cases hq
  · rcases List.mem_append.mp (he.perm.mem_iff.mp hr) with hr | hr
    · rw [he.slabIdx_eq, h.owner r hr]
    · rw [he.slabIdx_eq, (he.mine r hr).1, hctx, (he.mine r hr).2]

theorem RingInv.effect (h : RingInv c) (he : Effect p c c' k new evs) (hb : Balanced k new) :
    RingInv c' := by
  have hids : ∀ r ∈ new, c.nextSqe ≤ r.id ∧ r.id < c.nextSqe + new.length := fun r hr => by
    have := List.mem_map_of_mem (f := Sqe.id) hr
    rw [he.ids, List.mem_range'_1] at this
    exact this
  refine ⟨?_, fun r hr => ?_, ?_, fun r hr hover => ?_, ?_, ?_, ?_⟩
  · rw [(he.perm.map Sqe.id).nodup_iff, List.map_append, he.ids, List.nodup_append]
    refine ⟨h.ids, List.nodup_range', fun a ha b hb hab => ?_⟩
    obtain ⟨r, hr, rfl⟩ := List.mem_map.mp ha
    have := h.lt r hr
    rw [List.mem_range'_1] at hb
    omega
  · rw [he.nextSqe]
    rcases List.mem_append.mp (he.perm.mem_iff.mp hr) with hr | hr
    · have := h.lt r hr
      omega
    · exact (hids r hr).2
  · rw [he.sq, he.inflight]
    exact h.whole
  · rw [he.pending] at hr ⊢
    rw [List.length_append]
    rcases List.mem_append.mp hr with hr | hr
    · have := h.large r hr hover
      omega
    · rcases hb with ⟨hsmall, -⟩ | ⟨-, hlen, -⟩
      · rw [hsmall r hr] at hover
        cases hover
      · omega
  · rw [he.cq, he.inflight]
    exact h.answered
  · rw [he.cq]
    exact h.last
  · rw [he.cq]
    exact h.shots

theorem DropInv.effect (h : DropInv c) (he : Effect p c c' k new evs) : DropInv c' := by
  intro q hq
  rw [he.spawned] at hq
  rw [he.freed_eq, ← h q hq]
  by_cases hqp : q = p
  · subst hqp
    rw [he.log, List.count_append, Nat.add_eq_left, List.count_eq_zero]
    exact fun hd => by simpa [Event.inner] using he.inner _ hd
  · rw [he.others q hqp]

/-- The block on top of the stack runs. -/
theorem Inv.effect {f : Frame} (h : Inv c (f :: st) W) (he : Effect f.task c c' k new evs)
    (hb : Balanced k new) : Inv c' (f :: st) W := by
  refine ⟨h.slab.effect he h.live_top, h.refs.effect he hb h.live_top h.ctx.1,
    h.ring.effect he hb, ?_, h.drops.effect he⟩
  exact (Ctx.congr (fun q _ => he.slabIdx_eq q) (fun g hg => h.live_of_mem hg) h.ctx).idx he.idx

end Effect

/-! ## A change that no account sees -/

/-- Only numbers, the current task, and events other than `dropped` change. -/
structure Touch (c c' : Core) : Prop where
  slots : c'.slots = c.slots
  spawned : c'.spawned = c.spawned
  freeList : c'.freeList = c.freeList
  pending : c'.pending = c.pending
  sq : c'.sq = c.sq
  inflight : c'.inflight = c.inflight
  cq : c'.cq = c.cq
  nextSqe : c'.nextSqe = c.nextSqe
  slabIdx : ∀ q, (c'.cell q).slabIdx = (c.cell q).slabIdx
  freed : ∀ q, (c'.cell q).freed = (c.cell q).freed
  refCounter : ∀ q, (c'.cell q).refCounter = (c.cell q).refCounter
  drops : ∀ q, (c'.cell q).log.count .dropped = (c.cell q).log.count .dropped
  fresh : ∀ q, c.spawned ≤ q → c'.cell q = c.cell q

namespace Touch

variable {c1 c2 : Core}

theorem trans (h1 : Touch c c1) (h2 : Touch c1 c2) : Touch c c2 where
  slots := by rw [h2.slots, h1.slots]
  spawned := by rw [h2.spawned, h1.spawned]
  freeList := by rw [h2.freeList, h1.freeList]
  pending := by rw [h2.pending, h1.pending]
  sq := by rw [h2.sq, h1.sq]
  inflight := by rw [h2.inflight, h1.inflight]
  cq := by rw [h2.cq, h1.cq]
  nextSqe := by rw [h2.nextSqe, h1.nextSqe]
  slabIdx q := by rw [h2.slabIdx, h1.slabIdx]
  freed q := by rw [h2.freed, h1.freed]
  refCounter q := by rw [h2.refCounter, h1.refCounter]
  drops q := by rw [h2.drops, h1.drops]
  fresh q hq := by rw [h2.fresh q (by rw [h1.spawned]; exact hq), h1.fresh q hq]

theorem current (c : Core) (cur : TaskInfo) : Touch c { c with current := cur } := by
  constructor <;> simp

/-- A rewritten cell that keeps its references and its place. -/
theorem modifyCell (c : Core) {p : TaskPtr} {f : Cell → Cell} (hp : p < c.spawned)
    (hs : (f (c.cell p)).slabIdx = (c.cell p).slabIdx)
    (hf : (f (c.cell p)).freed = (c.cell p).freed)
    (hr : (f (c.cell p)).refCounter = (c.cell p).refCounter)
    (hd : (f (c.cell p)).log.count .dropped = (c.cell p).log.count .dropped) :
    Touch c (c.modifyCell p f) := by
  have hcell : ∀ q, (c.modifyCell p f).cell q = if q = p then f (c.cell p) else c.cell q :=
    fun q => Function.update_apply ..
  refine ⟨rfl, rfl, rfl, rfl, rfl, rfl, rfl, rfl, fun q => ?_, fun q => ?_, fun q => ?_,
    fun q => ?_, fun q hq => ?_⟩
  · rw [hcell]
    split
    · subst_vars; exact hs
    · rfl
  · rw [hcell]
    split
    · subst_vars; exact hf
    · rfl
  · rw [hcell]
    split
    · subst_vars; exact hr
    · rfl
  · rw [hcell]
    split
    · subst_vars; exact hd
    · rfl
  · rw [hcell, if_neg (Nat.lt_of_lt_of_le hp hq).ne']

theorem logAt (c : Core) {p : TaskPtr} {e : Event} (hp : p < c.spawned) (he : e ≠ .dropped) :
    Touch c (c.logAt p e) :=
  modifyCell c hp rfl rfl rfl (by simp [List.count_append, he])

theorem mapNb (c : Core) {p : TaskPtr} (f : UInt16 → UInt16) (hp : p < c.spawned) :
    Touch c (c.mapNb p f) :=
  modifyCell c hp rfl rfl rfl rfl

/-- What a delivery changes beside the reference count. -/
theorem deliver (c : Core) {p : TaskPtr} (e : Cqe) (cls : SyscallNbCompResult)
    (hp : p < c.spawned) : Touch c (c.deliver p e cls) := by
  cases cls with
  | normal => exact (mapNb c taskAugmente hp).trans (current _ _)
  | expired => exact current c _
  | multiple => exact current c _
  | error => exact current c _

end Touch

theorem SlabInv.touch (h : SlabInv c) (ht : Touch c c') : SlabInv c' :=
  h.congr ht.slots ht.freeList ht.slabIdx ht.freed fun q hq => by
    rw [ht.spawned] at hq
    rw [ht.fresh q hq, h.fresh q hq]

theorem RingInv.congr (h : RingInv c) (hp : c'.pending = c.pending) (hs : c'.sq = c.sq)
    (hi : c'.inflight = c.inflight) (hc : c'.cq = c.cq) (hn : c'.nextSqe = c.nextSqe) :
    RingInv c' := by
  obtain ⟨h1, h2, h3, h4, h5, h6, h7⟩ := h
  refine ⟨?_, ?_, ?_, ?_, ?_, ?_, ?_⟩ <;> simp only [Core.outstanding, hp, hs, hi, hc, hn] at *
  all_goals assumption

/-- The references, under a change that keeps the SQEs as a whole. -/
theorem RefInv.congr (h : RefInv c H) (hperm : c'.outstanding.Perm c.outstanding)
    (htrunc : ∀ p, c'.Truncated p ↔ c.Truncated p)
    (hidx : ∀ q, (c'.cell q).slabIdx = (c.cell q).slabIdx)
    (hfreed : ∀ q, (c'.cell q).freed = (c.cell q).freed)
    (hrc : ∀ q, (c'.cell q).refCounter = (c.cell q).refCounter) : RefInv c' H := by
  have hcount : ∀ q, c'.counted q = c.counted q := fun q => hperm.countP_eq _
  refine ⟨fun q hq => ?_, fun q hq => ?_, fun r hr => ?_⟩
  · rw [hfreed] at hq
    rw [hrc, hcount, htrunc]
    exact h.live q hq
  · rw [hfreed] at hq
    exact ⟨fun r hr => (h.spent q hq).1 r (hperm.mem_iff.mp hr), (h.spent q hq).2⟩
  · rw [hidx]
    exact h.owner r (hperm.mem_iff.mp hr)

theorem RefInv.touch (h : RefInv c H) (ht : Touch c c') : RefInv c' H := by
  refine h.congr ?_ (fun q => ?_) ht.slabIdx ht.freed ht.refCounter
  · rw [Core.outstanding, ht.pending, ht.sq, ht.inflight]
    exact .refl _
  · rw [Core.Truncated, ht.pending]
    rfl

theorem RingInv.touch (h : RingInv c) (ht : Touch c c') : RingInv c' :=
  h.congr ht.pending ht.sq ht.inflight ht.cq ht.nextSqe

theorem DropInv.touch (h : DropInv c) (ht : Touch c c') : DropInv c' := by
  intro q hq
  rw [ht.spawned] at hq
  rw [ht.drops, ht.freed]
  exact h q hq

theorem Ctx.touch {cur : TaskInfo} (h : Ctx c cur st) (ht : Touch c c')
    (hlive : ∀ f ∈ st, (c.cell f.task).freed = false) : Ctx c' cur st :=
  h.congr (fun q _ => ht.slabIdx q) hlive

/-- A change that no account sees keeps the invariant, if the contexts still fit. -/
theorem Inv.touch (h : Inv c st W) (ht : Touch c c')
    (hidx : c'.current.tag.taskIdx = c.current.tag.taskIdx) : Inv c' st W :=
  ⟨h.slab.touch ht, h.refs.touch ht, h.ring.touch ht,
    (h.ctx.touch ht fun _ hf => h.live_of_mem hf).idx hidx, h.drops.touch ht⟩

/-! ## References are released -/

section Release

theorem release_of_frees {n : Nat} (hf : c.frees p n = true) :
    c.release p n = { c.modifyCell p (fun cl =>
        { cl with refCounter := 0, freed := true, log := cl.log ++ [.dropped] }) with
      freeList := c.freeList ++ (c.cell p).slabIdx.toList } := if_pos hf

theorem release_of_not_frees {n : Nat} (hf : ¬ c.frees p n = true) :
    c.release p n = c.modifyCell p fun cl =>
    { cl with refCounter := cl.refCounter - n } := if_neg hf

theorem release_cell_ne {n : Nat} {q : TaskPtr} (hq : q ≠ p) :
    (c.release p n).cell q = c.cell q := by
  unfold Core.release
  split
  · exact Function.update_of_ne hq ..
  · exact Function.update_of_ne hq ..

theorem release_slabIdx (n : Nat) (q : TaskPtr) :
    ((c.release p n).cell q).slabIdx = (c.cell q).slabIdx := by
  by_cases hq : q = p
  · subst hq
    unfold Core.release
    split <;> simp
  · rw [release_cell_ne hq]

theorem release_syscallNb (n : Nat) (q : TaskPtr) :
    ((c.release p n).cell q).syscallNb = (c.cell q).syscallNb := by
  by_cases hq : q = p
  · subst hq
    unfold Core.release
    split <;> simp
  · rw [release_cell_ne hq]

theorem RingInv.release (h : RingInv c) (p : TaskPtr) (n : Nat) : RingInv (c.release p n) := by
  unfold Core.release
  split <;> exact h.congr rfl rfl rfl rfl rfl

theorem release_outstanding (c : Core) (p : TaskPtr) (n : Nat) :
    (c.release p n).outstanding = c.outstanding := by
  unfold Core.release
  split <;> rfl

theorem release_pending (c : Core) (p : TaskPtr) (n : Nat) :
    (c.release p n).pending = c.pending := by
  unfold Core.release
  split <;> rfl

theorem release_current (c : Core) (p : TaskPtr) (n : Nat) :
    (c.release p n).current = c.current := by
  unfold Core.release
  split <;> rfl

theorem release_spawned (c : Core) (p : TaskPtr) (n : Nat) :
    (c.release p n).spawned = c.spawned := by
  unfold Core.release
  split <;> rfl

theorem SlabInv.release (h : SlabInv c) (hp : (c.cell p).freed = false) (n : Nat) :
    SlabInv (c.release p n) := by
  obtain ⟨i, hi, hslot⟩ := h.home p hp
  have hlt := h.lt_spawned hp
  by_cases hf : c.frees p n = true
  · have hfresh : i ∉ c.freeList := fun hmem => by
      obtain ⟨q, hq, hfreed⟩ := h.queued i hmem
      rw [hslot, Option.some.injEq] at hq
      rw [← hq, hp] at hfreed
      cases hfreed
    have hslots : (c.release p n).slots = c.slots := by rw [release_of_frees hf]; rfl
    have hlist : (c.release p n).freeList = c.freeList ++ [i] := by
      rw [release_of_frees hf, hi]; rfl
    have hself : ((c.release p n).cell p).freed = true := by
      rw [release_of_frees hf]; simp
    refine ⟨fun j q hq => ?_, fun q hq => ?_, fun j q hq hfr => ?_, fun j hj => ?_, ?_,
      fun q hq => ?_⟩
    · rw [release_slabIdx]
      exact h.slot j q (hslots ▸ hq)
    · have hne : q ≠ p := fun heq => by rw [heq, hself] at hq; cases hq
      rw [release_cell_ne hne] at hq ⊢
      rw [hslots]
      exact h.home q hq
    · rw [hlist, List.mem_append]
      rw [hslots] at hq
      by_cases hqp : q = p
      · subst hqp
        have := h.slot j q hq
        rw [hi, Option.some.injEq] at this
        exact .inr (by simp [this])
      · rw [release_cell_ne hqp] at hfr
        exact .inl (h.stale j q hq hfr)
    · rw [hlist, List.mem_append, List.mem_singleton] at hj
      rw [hslots]
      rcases hj with hj | rfl
      · obtain ⟨q, hq, hfr⟩ := h.queued j hj
        refine ⟨q, hq, ?_⟩
        rw [release_cell_ne (fun heq => by rw [heq, hp] at hfr; cases hfr), hfr]
      · exact ⟨p, hslot, hself⟩
    · rw [hlist, List.nodup_append]
      exact ⟨h.nodup, List.nodup_singleton i, fun a ha b hb hab =>
        hfresh (List.mem_singleton.mp hb ▸ hab ▸ ha)⟩
    · rw [release_spawned] at hq
      rw [release_cell_ne (Nat.lt_of_lt_of_le hlt hq).ne', h.fresh q hq]
  · rw [release_of_not_frees hf]
    refine h.congr rfl rfl (fun q => ?_) (fun q => ?_) fun q hq => ?_
    · rw [← release_of_not_frees hf, release_slabIdx]
    · by_cases hq : q = p
      · subst hq
        simp
      · rw [Core.modifyCell_ne _ _ hq]
    · rw [Core.modifyCell_ne _ _ (Nat.lt_of_lt_of_le hlt hq).ne', h.fresh q hq]

/-- Handles are given back: at zero, nothing names the task any more. -/
theorem RefInv.release (h : RefInv c H) (hr : RingInv c) {n : Nat}
    (hp : (c.cell p).freed = false) (hn : n ≤ H p) :
    RefInv (c.release p n) (Function.update H p (H p - n)) := by
  obtain ⟨hpos, hbal⟩ := h.live p hp
  have hcount : ∀ q, (c.release p n).counted q = c.counted q := fun q => by
    rw [Core.counted, release_outstanding]; rfl
  have htrunc : ∀ q, (c.release p n).Truncated q ↔ c.Truncated q := fun q => by
    rw [Core.Truncated, release_pending]; rfl
  have hother : ∀ q, q ≠ p → Function.update H p (H p - n) q = H q := fun q hq =>
    Function.update_of_ne hq ..
  refine ⟨fun q hq => ?_, fun q hq => ?_, fun r hr => ?_⟩
  · rw [hcount, htrunc]
    by_cases hqp : q = p
    · subst hqp
      have hf : ¬ c.frees q n = true := fun hf => by
        rw [release_of_frees hf] at hq
        simp at hq
      have hne : (c.cell q).refCounter ≠ n := by simpa [Core.frees] using hf
      rw [release_of_not_frees hf, Function.update_self, Core.modifyCell_self]
      show 0 < (c.cell q).refCounter - n ∧ _
      refine ⟨by omega, ?_⟩
      rcases hbal with ⟨ht, hbal⟩ | ⟨ht, hbal⟩
      · exact .inl ⟨ht, show (c.cell q).refCounter - n = _ by omega⟩
      · exact .inr ⟨ht, show _ < (c.cell q).refCounter - n by omega⟩
    · rw [release_cell_ne hqp] at hq ⊢
      rw [hother q hqp]
      exact h.live q hq
  · rw [release_outstanding]
    by_cases hqp : q = p
    · subst hqp
      have hf : c.frees q n = true := by
        by_contra hf
        rw [release_of_not_frees hf] at hq
        simp [hp] at hq
      have hrc : (c.cell q).refCounter = n := by simpa [Core.frees] using hf
      rw [Function.update_self]
      obtain ⟨ht, hbal⟩ | ⟨-, hbal⟩ := hbal
      · refine ⟨fun r hmem hcaller => ?_, by omega⟩
        have hzero : c.counted q = 0 := by omega
        have hno := List.countP_eq_zero.mp hzero r hmem
        have hover : r.oversize = true := by simpa [hcaller] using hno
        rw [Core.outstanding, List.append_assoc, List.mem_append] at hmem
        rcases hmem with hmem | hmem
        · exact ht ⟨r, hmem, hcaller, hover⟩
        · rw [hr.whole r hmem] at hover
          cases hover
      · omega
    · rw [release_cell_ne hqp] at hq
      rw [hother q hqp]
      exact h.spent q hq
  · rw [release_outstanding] at hr
    rw [release_slabIdx]
    exact h.owner r hr

theorem DropInv.release (h : DropInv c) (hp : (c.cell p).freed = false) (n : Nat) :
    DropInv (c.release p n) := by
  intro q hq
  rw [release_spawned] at hq
  by_cases hqp : q = p
  · subst hqp
    have hd := h q hq
    rw [hp] at hd
    unfold Core.release
    split
    · simp [List.count_append, hd]
    · simp [hd, hp]
  · rw [release_cell_ne hqp]
    exact h q hq

theorem Ctx.release {cur : TaskInfo} (h : Ctx c cur st)
    (hlive : ∀ f ∈ st, (c.cell f.task).freed = false) (n : Nat) : Ctx (c.release p n) cur st :=
  h.congr (fun q _ => release_slabIdx n q) hlive

end Release

end Onlyio
