import Onlyio.Storage.WritePool

/-!
# Writes in flight

The documentation of `WBuffer` says that `submit` forgets the handle, so that the slot's counter
keeps counting the write until `on_write_cqe` gives it back. The code lets the handle go out of
scope. Every submission then takes one count too many: the counter of a slot is its handles and its
writes in flight, less the submissions ever made.

* `SubmitRun.pool`: a run with submissions is a run of the write pool in which a submission drops
  one handle and its completion another one.
* **`submit_keeps_slot_iff`**: a slot is kept for its writes exactly when it was never submitted.
-/

namespace Onlyio

variable {N : Nat}

/-- A pool, the handles into it that are alive, the slots of the writes in flight, and the slots of
all writes submitted so far. -/
structure SubmitState (N : Nat) where
  pool : BufPool N
  handles : List WBuffer
  inflight : List UInt32
  submitted : List UInt32

/-- The number of live handles to the slot `a`. -/
def SubmitState.live (st : SubmitState N) (a : UInt32) : Nat :=
  st.handles.countP fun b => b.absIdx = a

/-- The states reached from `BufPool::new(r, w)`, when each write in flight completes once and its
completion goes to `on_write_cqe`. -/
inductive SubmitRun (r w : UInt32) : SubmitState N → Prop where
  | new {base : Nat} {p : BufPool N} (h : BufPool.new base r w = .ok p) :
      SubmitRun r w ⟨p, [], [], []⟩
  | allocWrite {st : SubmitState N} {b : WBuffer} {p : BufPool N} (hr : SubmitRun r w st)
      (h : st.pool.allocWrite = .ok (b, p)) :
      SubmitRun r w { st with pool := p, handles := st.handles ++ [b] }
  | clone {st : SubmitState N} {b b' : WBuffer} {p : BufPool N} (hr : SubmitRun r w st)
      (hlive : b ∈ st.handles) (hc : b.clone st.pool = .ok (b', p)) :
      SubmitRun r w { st with pool := p, handles := st.handles ++ [b'] }
  | drop {st : SubmitState N} {b : WBuffer} {p : BufPool N} (hr : SubmitRun r w st)
      (hlive : b ∈ st.handles) (hd : b.drop st.pool = .ok p) :
      SubmitRun r w { st with pool := p, handles := st.handles.erase b }
  | submit {st : SubmitState N} {b : WBuffer} {p : BufPool N} {e : WriteFixed}
      (fdIdx len : UInt32) (hr : SubmitRun r w st) (hlive : b ∈ st.handles)
      (hs : b.submit fdIdx len st.pool = .ok (e, p)) :
      SubmitRun r w ⟨p, st.handles.erase b, st.inflight ++ [b.absIdx], st.submitted ++ [b.absIdx]⟩
  | complete {st : SubmitState N} {a : UInt32} {p : BufPool N} (hr : SubmitRun r w st)
      (hmem : a ∈ st.inflight) (hc : st.pool.onWriteCqe a = .ok p) :
      SubmitRun r w { st with pool := p, inflight := st.inflight.erase a }

/-- The slot `a` is kept until the kernel is done with it: its counter is its handles and its writes
in flight, it is neither free nor handed out while a write is in flight, and a completion is counted
without fault and frees the slot exactly when it is the last use. -/
structure Kept (r : UInt32) (st : SubmitState N) (a : UInt32) : Prop where
  rc : ∃ c, st.pool.writeRc[a.toNat - r.toNat]? = some c ∧
    c.toNat = st.live a + st.inflight.count a
  busy : a ∈ st.inflight → a ∉ st.pool.writeFree ∧
    ∀ b p, st.pool.allocWrite = .ok (b, p) → b.absIdx ≠ a
  last : a ∈ st.inflight → ∃ p, st.pool.onWriteCqe a = .ok p ∧
    (a ∈ p.writeFree ↔ st.live a = 0 ∧ st.inflight.count a = 1)

/-! ## A run with submissions is a run of the pool -/

/-- Only the text of the assertion differs. -/
theorem BufPool.decRc_ok {p p' : BufPool N} {a : UInt32} {libre libre' : Panic}
    (h : p.decRc a libre = .ok p') : p.decRc a libre' = .ok p' := by
  simp only [BufPool.decRc, bind, Except.bind] at h ⊢
  split at h
  · cases h
  · split at h
    · rename_i hrc
      rw [if_pos hrc]
      exact h
    · cases h

theorem WBuffer.clone_ok {p p' : BufPool N} {b b' : WBuffer} (h : b.clone p = .ok (b', p')) :
    b' = b ∧ ∀ b2 : WBuffer, b2.absIdx = b.absIdx → b2.clone p = .ok (b2, p') := by
  simp only [WBuffer.clone, bind, Except.bind] at h
  split at h
  · cases h
  · rename_i x hx
    split at h
    · split at h
      · rename_i hpos hlt
        obtain ⟨rfl, rfl⟩ := Prod.mk.inj (Except.ok.inj h)
        refine ⟨rfl, fun b2 hb2 => ?_⟩
        simp only [WBuffer.clone, hb2, hx, bind, Except.bind, if_pos hpos, if_pos hlt]
      · cases h
    · cases h

/-- A counter that goes down has a handle of the pool's own account. -/
theorem PoolRun.decRc {r w : UInt32} {ps : PoolState N} (hr : PoolRun r w ps) {a : UInt32}
    {libre : Panic} {p : BufPool N} (ha : InPool r w a) (h : ps.pool.decRc a libre = .ok p) :
    ∃ hd ∈ ps.handles, hd.buf.absIdx = a ∧ PoolRun r w ⟨p, ps.handles.erase hd, ps.allocs⟩ := by
  have hi := hr.inv
  obtain ⟨c, hc, hcl⟩ := hi.rcAt ha
  have hpos : 0 < liveAt ps.handles a := by
    simp only [BufPool.decRc, hc, bind, Except.bind] at h
    split at h
    · rename_i hlt
      rw [← hcl]
      exact UInt32.lt_iff_toNat_lt.mp hlt
    · cases h
  obtain ⟨hd, hmem, habs⟩ := List.countP_pos_iff.mp hpos
  have habs : hd.buf.absIdx = a := of_decide_eq_true habs
  subst habs
  exact ⟨hd, hmem, rfl, .drop hr hmem (BufPool.decRc_ok h)⟩

theorem PoolRun.clone_of {r w : UInt32} {ps : PoolState N} (hr : PoolRun r w ps) {b b' : WBuffer}
    {p : BufPool N} (ha : InPool r w b.absIdx) (h : b.clone ps.pool = .ok (b', p)) :
    ∃ hd : Handle, hd.buf.absIdx = b.absIdx ∧
      PoolRun r w ⟨p, ps.handles ++ [⟨hd.buf, hd.root⟩], ps.allocs⟩ := by
  obtain ⟨c, hc, hcl⟩ := hr.inv.rcAt ha
  have hpos : 0 < liveAt ps.handles b.absIdx := by
    simp only [WBuffer.clone, hc, bind, Except.bind] at h
    split at h
    · rename_i hlt
      rw [← hcl]
      exact UInt32.lt_iff_toNat_lt.mp hlt
    · cases h
  obtain ⟨hd, hmem, habs⟩ := List.countP_pos_iff.mp hpos
  have habs : hd.buf.absIdx = b.absIdx := of_decide_eq_true habs
  exact ⟨hd, habs, .clone hr hmem ((WBuffer.clone_ok h).2 hd.buf habs)⟩

/-- A state with submissions, over a state of the pool's own account. -/
structure Accounted (r w : UInt32) (st : SubmitState N) (ps : PoolState N) : Prop where
  run : PoolRun r w ps
  pool : ps.pool = st.pool
  count : ∀ a, liveAt ps.handles a + st.submitted.count a = st.live a + st.inflight.count a
  inPool : ∀ b ∈ st.handles, InPool r w b.absIdx
  inflight : ∀ a ∈ st.inflight, a ∈ st.submitted ∧ InPool r w a

section Accounted

variable {r w : UInt32} {st : SubmitState N} {ps : PoolState N}

theorem SubmitState.countP_erase {hs : List WBuffer} {b : WBuffer} (hlive : b ∈ hs) (a : UInt32) :
    (hs.erase b).countP (fun b' => b'.absIdx = a) + (if b.absIdx = a then 1 else 0) =
      hs.countP fun b' => b'.absIdx = a := by
  have hperm := (List.perm_cons_erase hlive).countP_eq fun b' => decide (b'.absIdx = a)
  simp only [hperm, List.countP_cons, decide_eq_true_eq]

/-- A new handle on both sides. -/
theorem Accounted.push (h : Accounted r w st ps) {b : WBuffer} {hd : Handle}
    {p : BufPool N} {n : Nat} (heq : hd.buf.absIdx = b.absIdx)
    (hrun : PoolRun r w ⟨p, ps.handles ++ [hd], n⟩) :
    Accounted r w { st with pool := p, handles := st.handles ++ [b] }
      ⟨p, ps.handles ++ [hd], n⟩ := by
  refine ⟨hrun, rfl, fun a => ?_, fun b' hb' => ?_, h.inflight⟩
  · have hcount := h.count a
    simp only [SubmitState.live, List.countP_append, List.countP_singleton,
      PoolInv.liveAt_append, heq, decide_eq_true_eq] at hcount ⊢
    omega
  · rcases List.mem_append.mp hb' with hb' | hb'
    · exact h.inPool b' hb'
    · rw [List.mem_singleton.mp hb', ← heq]
      exact hrun.inv.inPool hd (List.mem_append_right _ (List.mem_singleton_self hd))

/-- **A run with submissions is a run of the write pool**, in which a submission drops one handle
and its completion another one. -/
theorem SubmitRun.pool (hr : SubmitRun r w st) : ∃ ps, Accounted r w st ps := by
  induction hr with
  | new h => exact ⟨⟨_, [], 0⟩, .new h, rfl, fun _ => rfl, fun _ hb => (nomatch hb),
    fun _ ha => (nomatch ha)⟩
  | @allocWrite st b p hr h ih =>
    obtain ⟨ps, hps⟩ := ih
    exact ⟨_, hps.push rfl (.allocWrite hps.run (hps.pool ▸ h))⟩
  | @clone st b b' p hr hlive hc ih =>
    obtain ⟨ps, hps⟩ := ih
    obtain ⟨hd, habs, hrun⟩ := hps.run.clone_of (hps.inPool b hlive) (hps.pool ▸ hc)
    exact ⟨_, hps.push (habs.trans (congrArg _ (WBuffer.clone_ok hc).1.symm)) hrun⟩
  | @drop st b p hr hlive hd ih =>
    obtain ⟨ps, hps⟩ := ih
    obtain ⟨hdl, hmem, habs, hrun⟩ := hps.run.decRc (hps.inPool b hlive) (hps.pool ▸ hd)
    refine ⟨_, hrun, rfl, fun a => ?_, fun b' hb' => hps.inPool b' (List.mem_of_mem_erase hb'),
      hps.inflight⟩
    have h1 := PoolInv.liveAt_erase hmem a
    have h2 := SubmitState.countP_erase hlive a
    have h3 := hps.count a
    rw [habs] at h1
    simp only [SubmitState.live] at h3 ⊢
    omega
  | @submit st b p e fdIdx len hr hlive hs ih =>
    obtain ⟨ps, hps⟩ := ih
    rw [WBuffer.submit, write_eq_drop] at hs
    cases hd : b.drop st.pool with
    | error e => rw [hd] at hs; cases hs
    | ok p' =>
      rw [hd] at hs
      obtain ⟨-, rfl⟩ := Prod.mk.inj (Except.ok.inj hs)
      obtain ⟨hdl, hmem, habs, hrun⟩ := hps.run.decRc (hps.inPool b hlive) (hps.pool ▸ hd)
      refine ⟨_, hrun, rfl, fun a => ?_, fun b' hb' => hps.inPool b' (List.mem_of_mem_erase hb'),
        fun a ha => ?_⟩
      · have h1 := PoolInv.liveAt_erase hmem a
        have h2 := SubmitState.countP_erase hlive a
        have h3 := hps.count a
        rw [habs] at h1
        simp only [SubmitState.live, List.count_append, List.count_singleton, beq_iff_eq] at h3 ⊢
        omega
      · rcases List.mem_append.mp ha with ha | ha
        · exact ⟨List.mem_append_left _ (hps.inflight a ha).1, (hps.inflight a ha).2⟩
        · exact ⟨List.mem_append_right _ ha, List.mem_singleton.mp ha ▸ hps.inPool b hlive⟩
  | @complete st a p hr hmem hc ih =>
    obtain ⟨ps, hps⟩ := ih
    obtain ⟨hdl, hmemh, habs, hrun⟩ := hps.run.decRc (hps.inflight a hmem).2 (hps.pool ▸ hc)
    refine ⟨_, hrun, rfl, fun a' => ?_, hps.inPool,
      fun a' ha' => hps.inflight a' (List.mem_of_mem_erase ha')⟩
    have h1 := PoolInv.liveAt_erase hmemh a'
    have h2 := (List.perm_cons_erase hmem).count_eq a'
    have h3 := hps.count a'
    rw [habs] at h1
    simp only [SubmitState.live, List.count_cons, beq_iff_eq] at h2 h3 ⊢
    omega

/-- **A slot is kept for its writes exactly when it was never submitted.** -/
theorem submit_keeps_slot_iff (hr : SubmitRun r w st) {a : UInt32} (ha : InPool r w a) :
    Kept r st a ↔ a ∉ st.submitted := by
  obtain ⟨ps, hps⟩ := hr.pool
  obtain ⟨c, hc, hcl⟩ := hps.run.inv.rc a ha
  rw [hps.pool] at hc
  have hcount := hps.count a
  constructor
  · rintro ⟨⟨c', hc', hkept⟩, -, -⟩
    obtain rfl := Option.some.inj (hc.symm.trans hc')
    rw [← List.count_eq_zero]
    omega
  · intro hnot
    have hzero := List.count_eq_zero.mpr hnot
    have hidle : a ∉ st.inflight := fun hmem => hnot (hps.inflight a hmem).1
    exact ⟨⟨c, hc, by omega⟩, fun h => absurd h hidle, fun h => absurd h hidle⟩

end Accounted

/-! ## A pool of two slots, of which one is submitted -/

/-- `alloc_write` twice, then a submission of the first buffer. -/
def submittedOne : SubmitState 1 :=
  ⟨⟨0, 1, [1], [0, 1]⟩, [⟨8192, 2⟩], [1], [1]⟩

theorem submittedOne_run : SubmitRun 1 2 submittedOne := by
  have h0 : SubmitRun 1 2 (⟨⟨0, 1, [1, 2], [0, 0]⟩, [], [], []⟩ : SubmitState 1) :=
    .new (show BufPool.new 0 1 2 = .ok _ by decide)
  have h1 : SubmitRun 1 2 (⟨⟨0, 1, [2], [1, 0]⟩, [⟨4096, 1⟩], [], []⟩ : SubmitState 1) :=
    .allocWrite h0 (by decide)
  have h2 : SubmitRun 1 2
      (⟨⟨0, 1, [], [1, 1]⟩, [⟨4096, 1⟩, ⟨8192, 2⟩], [], []⟩ : SubmitState 1) :=
    .allocWrite h1 (by decide)
  exact .submit 5 4 h2 (b := ⟨4096, 1⟩) (by decide) rfl

/-- The slot that was not submitted is kept, the other one is not. -/
theorem submit_keeps_slot_of_two : Kept 1 submittedOne 2 ∧ ¬ Kept 1 submittedOne 1 := by
  refine ⟨(submit_keeps_slot_iff submittedOne_run ⟨by decide, by decide⟩).mpr (by decide), ?_⟩
  rw [submit_keeps_slot_iff submittedOne_run ⟨by decide, by decide⟩]
  decide

/-- While the kernel still reads the submitted slot, `alloc_write` hands it out, and its completion
meets a zero counter. -/
theorem submitted_slot_handed_out :
    ∃ st : SubmitState 1, SubmitRun 1 2 st ∧ 1 ∈ st.inflight ∧ 1 ∈ st.pool.writeFree ∧
      (∃ p, st.pool.allocWrite = .ok (⟨4096, 1⟩, p)) ∧
      st.pool.onWriteCqe 1 = .error (.panic .writeCqeLibre) ∧ ¬ Kept 1 st 1 := by
  refine ⟨submittedOne, submittedOne_run, by decide, by decide, ⟨⟨0, 1, [], [1, 1]⟩, by decide⟩,
    by decide, ?_⟩
  intro h
  exact (h.busy (by decide)).1 (by decide)

end Onlyio
