import Onlyio.Model.BufPool
import Mathlib.Data.List.Nodup

/-!
# The write pool

`write_free` and `write_rc` are two accounts of one fact: which slots have a live handle. `PoolRun`
is every sequence of `alloc_write`, `clone`, drop and `write` on live handles; each handle remembers
the `alloc_write` it descends from, so that sharing can be stated. `PoolInv` is what every operation
keeps, and `PoolInv.slot` is the one argument behind all four: a slot's counter, its number of
handles and its place in the queue change together.

* `PoolInv.allocWrite`, `PoolInv.clone`, `PoolInv.drop`: the operations keep the invariant.
* `PoolRun.inv`: every sequence does.
* **`write_pool_run`**: the representation invariant, and that no operation on a live handle fails.
-/

namespace Onlyio

/-- A live `WBuffer`, with the number of the `alloc_write` it descends from. -/
structure Handle where
  buf : WBuffer
  root : Nat
  deriving DecidableEq

/-- A pool and the handles into it that are alive. -/
structure PoolState (N : Nat) where
  pool : BufPool N
  handles : List Handle
  /-- Calls of `alloc_write` so far. -/
  allocs : Nat

variable {N : Nat}

/-- The number of live handles to the slot `a`. -/
def liveAt (hs : List Handle) (a : UInt32) : Nat := hs.countP fun h => h.buf.absIdx = a

/-- The states reached from `BufPool::new(r, w)` by operations on live handles. -/
inductive PoolRun (r w : UInt32) : PoolState N → Prop where
  | new {base : Nat} {p : BufPool N} (h : BufPool.new base r w = .ok p) : PoolRun r w ⟨p, [], 0⟩
  | allocWrite {st : PoolState N} {b : WBuffer} {p : BufPool N} (hr : PoolRun r w st)
      (h : st.pool.allocWrite = .ok (b, p)) :
      PoolRun r w ⟨p, st.handles ++ [⟨b, st.allocs⟩], st.allocs + 1⟩
  | clone {st : PoolState N} {h : Handle} {b : WBuffer} {p : BufPool N} (hr : PoolRun r w st)
      (hlive : h ∈ st.handles) (hc : h.buf.clone st.pool = .ok (b, p)) :
      PoolRun r w ⟨p, st.handles ++ [⟨b, h.root⟩], st.allocs⟩
  | drop {st : PoolState N} {h : Handle} {p : BufPool N} (hr : PoolRun r w st)
      (hlive : h ∈ st.handles) (hd : h.buf.drop st.pool = .ok p) :
      PoolRun r w ⟨p, st.handles.erase h, st.allocs⟩
  | write {st : PoolState N} {h : Handle} {p : BufPool N} {e : WriteFixed} {fdIdx len : UInt32}
      {userData : UInt64} (hr : PoolRun r w st) (hlive : h ∈ st.handles)
      (hw : h.buf.write fdIdx len userData st.pool = .ok (e, p)) :
      PoolRun r w ⟨p, st.handles.erase h, st.allocs⟩

/-- The slots of the write pool. -/
def InPool (r w a : UInt32) : Prop := r.toNat ≤ a.toNat ∧ a.toNat < r.toNat + w.toNat

/-- What every operation keeps. -/
structure PoolInv (r w : UInt32) (st : PoolState N) : Prop where
  readCount : st.pool.readCount = r
  length : st.pool.writeRc.length = w.toNat
  nodup : st.pool.writeFree.Nodup
  free_iff : ∀ a, a ∈ st.pool.writeFree ↔ InPool r w a ∧ liveAt st.handles a = 0
  rc : ∀ a, InPool r w a →
    ∃ c, st.pool.writeRc[a.toNat - r.toNat]? = some c ∧ c.toNat = liveAt st.handles a
  inPool : ∀ h ∈ st.handles, InPool r w h.buf.absIdx
  root : ∀ h ∈ st.handles, ∀ h' ∈ st.handles, h.buf.absIdx = h'.buf.absIdx → h.root = h'.root

namespace PoolInv

variable {r w : UInt32} {st : PoolState N}

/-- `rcAt` finds the counter of every slot of the pool. -/
theorem rcAt (hi : PoolInv r w st) {a : UInt32} (ha : InPool r w a) :
    ∃ c, st.pool.rcAt a = .ok (a.toNat - r.toNat, c) ∧ c.toNat = liveAt st.handles a := by
  obtain ⟨c, hc, hlive⟩ := hi.rc a ha
  refine ⟨c, ?_, hlive⟩
  have hge : ¬ a < r := by
    rw [UInt32.lt_iff_toNat_lt]
    exact Nat.not_lt.mpr ha.1
  simp only [BufPool.rcAt, hi.readCount, hge, if_false, hc]

/-- A slot's counter, its number of handles and its place in the queue change together. -/
theorem slot (hi : PoolInv r w st) {a : UInt32} (ha : InPool r w a) {c : UInt32}
    {free : List UInt32} {hs : List Handle} {n : Nat}
    (hc : c.toNat = liveAt hs a) (hother : ∀ b, b ≠ a → liveAt hs b = liveAt st.handles b)
    (hnodup : free.Nodup)
    (hfree : ∀ b, b ∈ free ↔ if b = a then liveAt hs a = 0 else b ∈ st.pool.writeFree)
    (hin : ∀ h ∈ hs, InPool r w h.buf.absIdx)
    (hroot : ∀ h ∈ hs, ∀ h' ∈ hs, h.buf.absIdx = h'.buf.absIdx → h.root = h'.root) :
    PoolInv r w (⟨{ st.pool with
      writeFree := free, writeRc := st.pool.writeRc.set (a.toNat - r.toNat) c }, hs, n⟩ :
      PoolState N) := by
  refine ⟨hi.readCount, by simpa using hi.length, hnodup, fun b => ?_, fun b hb => ?_, hin, hroot⟩
  · show b ∈ free ↔ _
    rw [hfree b]
    by_cases hba : b = a
    · subst hba
      simp [ha]
    · simp only [hba, if_false, hi.free_iff b, hother b hba]
  · by_cases hba : b = a
    · subst hba
      obtain ⟨c', hc', -⟩ := hi.rc b hb
      exact ⟨c, by simp [(List.getElem?_eq_some_iff.mp hc').1], hc⟩
    · obtain ⟨c', hc', hlive⟩ := hi.rc b hb
      have hne : a.toNat - r.toNat ≠ b.toNat - r.toNat := fun he => by
        have h1 := ha.1
        have h2 := hb.1
        exact hba (UInt32.toNat_inj.mp (by omega))
      refine ⟨c', ?_, by rw [hlive, hother b hba]⟩
      show (st.pool.writeRc.set _ c)[_]? = _
      rw [List.getElem?_set_ne hne, hc']

theorem liveAt_append (hs : List Handle) (h : Handle) (a : UInt32) :
    liveAt (hs ++ [h]) a = liveAt hs a + if h.buf.absIdx = a then 1 else 0 := by
  simp [liveAt, List.countP_append, List.countP_cons]

theorem liveAt_erase {hs : List Handle} {h : Handle} (hlive : h ∈ hs) (a : UInt32) :
    liveAt (hs.erase h) a + (if h.buf.absIdx = a then 1 else 0) = liveAt hs a := by
  have hperm := (List.perm_cons_erase hlive).countP_eq fun h' => decide (h'.buf.absIdx = a)
  simp only [liveAt, hperm, List.countP_cons, decide_eq_true_eq]

theorem liveAt_pos {hs : List Handle} {h : Handle} (hlive : h ∈ hs) :
    0 < liveAt hs h.buf.absIdx :=
  List.countP_pos_iff.mpr ⟨h, hlive, by simp⟩

/-- `BufPool::new`. -/
theorem new {base : Nat} {p : BufPool N} (h : BufPool.new base r w = .ok p) (n : Nat) :
    PoolInv r w ⟨p, [], n⟩ := by
  unfold BufPool.new at h
  split at h
  · split at h
    · rename_i hsum
      obtain rfl := Except.ok.inj h
      have hmem : ∀ a : UInt32,
          a ∈ (List.range' r.toNat w.toNat).map UInt32.ofNat ↔ InPool r w a := fun a => by
        simp only [List.mem_map, List.mem_range'_1, InPool]
        constructor
        · rintro ⟨i, hi, rfl⟩
          rw [UInt32.toNat_ofNat_of_lt' (by simp only [UInt32.size]; omega)]
          exact hi
        · exact fun ha => ⟨a.toNat, ha, UInt32.ofNat_toNat⟩
      refine ⟨rfl, List.length_replicate, ?_, fun a => ?_, fun a ha => ⟨0, ?_, rfl⟩, ?_, ?_⟩
      · refine List.Nodup.map_on (fun x hx y hy he => ?_) List.nodup_range'
        rw [List.mem_range'_1] at hx hy
        have := congrArg UInt32.toNat he
        rwa [UInt32.toNat_ofNat_of_lt' (by simp only [UInt32.size]; omega),
          UInt32.toNat_ofNat_of_lt' (by simp only [UInt32.size]; omega)] at this
      · show a ∈ (List.range' r.toNat w.toNat).map UInt32.ofNat ↔ _
        rw [hmem a]
        simp [liveAt]
      · have := ha.1
        have := ha.2
        rw [List.getElem?_replicate, if_pos (by omega)]
      · exact fun h hh => nomatch hh
      · exact fun h hh => nomatch hh
    · cases h
  · cases h

/-- `alloc_write` fails exactly when every slot has a live handle, and then as it announces. -/
theorem allocWrite_error_iff (hi : PoolInv r w st) :
    (∃ e, st.pool.allocWrite = .error e) ↔
      ∀ a, InPool r w a → ∃ h ∈ st.handles, h.buf.absIdx = a := by
  have hlive : ∀ a, (∃ h ∈ st.handles, h.buf.absIdx = a) ↔ liveAt st.handles a ≠ 0 := fun a => by
    rw [← Nat.pos_iff_ne_zero, liveAt, List.countP_pos_iff]
    simp
  cases hfree : st.pool.writeFree with
  | nil =>
    refine ⟨fun _ a ha => (hlive a).mpr fun h0 => ?_, fun _ => ⟨.panic .poolExhausted, ?_⟩⟩
    · have := (hi.free_iff a).mpr ⟨ha, h0⟩
      rw [hfree] at this
      cases this
    · simp only [BufPool.allocWrite, hfree]
  | cons a rest =>
    have hmem : a ∈ st.pool.writeFree := by rw [hfree]; exact List.mem_cons_self
    obtain ⟨ha, h0⟩ := (hi.free_iff a).mp hmem
    obtain ⟨c, hc, hc0⟩ := hi.rcAt ha
    obtain rfl : c = 0 := UInt32.toNat_inj.mp (by rw [hc0, h0]; rfl)
    constructor
    · rintro ⟨e, he⟩
      simp [BufPool.allocWrite, hfree, hc, bind, Except.bind] at he
    · intro hall
      exact absurd h0 ((hlive a).mp (hall a ha))

/-- The first free slot goes to a new handle. -/
theorem allocWrite (hi : PoolInv r w st) {b : WBuffer} {p : BufPool N}
    (h : st.pool.allocWrite = .ok (b, p)) (n : Nat) :
    PoolInv r w ⟨p, st.handles ++ [⟨b, st.allocs⟩], n⟩ := by
  cases hfree : st.pool.writeFree with
  | nil => simp [BufPool.allocWrite, hfree] at h
  | cons a rest =>
    have hnodup := hi.nodup
    have hmem : a ∈ st.pool.writeFree := by rw [hfree]; exact List.mem_cons_self
    obtain ⟨ha, h0⟩ := (hi.free_iff a).mp hmem
    obtain ⟨c, hc, hc0⟩ := hi.rcAt ha
    obtain rfl : c = 0 := UInt32.toNat_inj.mp (by rw [hc0, h0]; rfl)
    simp only [BufPool.allocWrite, hfree, hc, bind, Except.bind, if_true, Except.ok.injEq,
      Prod.mk.injEq] at h
    obtain ⟨rfl, rfl⟩ := h
    have hnone : ∀ h' ∈ st.handles, h'.buf.absIdx ≠ a := fun h' hh' he => by
      have := liveAt_pos hh'
      rw [he, h0] at this
      exact absurd this (lt_irrefl 0)
    rw [hfree, List.nodup_cons] at hnodup
    refine hi.slot ha ?_ (fun b hb => ?_) hnodup.2 (fun b => ?_) ?_ ?_
    · rw [liveAt_append, h0]
      simp
    · rw [liveAt_append, if_neg (Ne.symm hb), Nat.add_zero]
    · rw [liveAt_append, hfree]
      by_cases hb : b = a
      · subst hb
        simp [hnodup.1]
      · simp [hb]
    · intro h' hh'
      rcases List.mem_append.mp hh' with hh' | hh'
      · exact hi.inPool h' hh'
      · rw [List.mem_singleton.mp hh']
        exact ha
    · intro h1 hh1 h2 hh2 he
      rcases List.mem_append.mp hh1 with hh1 | hh1 <;> rcases List.mem_append.mp hh2 with hh2 | hh2
      · exact hi.root h1 hh1 h2 hh2 he
      · rw [List.mem_singleton.mp hh2] at he
        exact absurd he (hnone h1 hh1)
      · rw [List.mem_singleton.mp hh1] at he
        exact absurd he.symm (hnone h2 hh2)
      · rw [List.mem_singleton.mp hh1, List.mem_singleton.mp hh2]

/-- What `clone` of a live handle does. -/
theorem clone_spec (hi : PoolInv r w st) {h : Handle} (hlive : h ∈ st.handles) :
    ∃ c, st.pool.rcAt h.buf.absIdx = .ok (h.buf.absIdx.toNat - r.toNat, c) ∧
      c.toNat = liveAt st.handles h.buf.absIdx ∧
      h.buf.clone st.pool = if c.toNat + 1 < 2 ^ 32 then
        .ok (h.buf, { st.pool with
          writeRc := st.pool.writeRc.set (h.buf.absIdx.toNat - r.toNat) (c + 1) })
        else .error (.panic .writeRcOverflow) := by
  obtain ⟨c, hc, hcl⟩ := hi.rcAt (hi.inPool h hlive)
  have hpos : c > 0 := UInt32.lt_iff_toNat_lt.mpr (by rw [hcl]; exact liveAt_pos hlive)
  refine ⟨c, hc, hcl, ?_⟩
  simp only [WBuffer.clone, hc, bind, Except.bind, hpos, if_true]

theorem clone (hi : PoolInv r w st) {h : Handle} (hlive : h ∈ st.handles) {b : WBuffer}
    {p : BufPool N} (hc : h.buf.clone st.pool = .ok (b, p)) (n : Nat) :
    PoolInv r w ⟨p, st.handles ++ [⟨b, h.root⟩], n⟩ := by
  obtain ⟨c, -, hcl, hclone⟩ := hi.clone_spec hlive
  rw [hclone] at hc
  split at hc
  · rename_i hlt
    obtain ⟨rfl, rfl⟩ := Prod.mk.inj (Except.ok.inj hc)
    have hpos := liveAt_pos hlive
    refine hi.slot (hi.inPool h hlive) ?_ (fun b hb => ?_) hi.nodup (fun b => ?_) ?_ ?_
    · rw [liveAt_append, if_pos rfl, UInt32.toNat_add, ← hcl]
      exact Nat.mod_eq_of_lt hlt
    · rw [liveAt_append, if_neg (Ne.symm hb), Nat.add_zero]
    · rw [liveAt_append, if_pos rfl]
      by_cases hb : b = h.buf.absIdx
      · subst hb
        simp only [hi.free_iff, if_true]
        omega
      · simp [hb]
    · intro h' hh'
      rcases List.mem_append.mp hh' with hh' | hh'
      · exact hi.inPool h' hh'
      · rw [List.mem_singleton.mp hh']
        exact hi.inPool h hlive
    · intro h1 hh1 h2 hh2 he
      rcases List.mem_append.mp hh1 with hh1 | hh1 <;> rcases List.mem_append.mp hh2 with hh2 | hh2
      · exact hi.root h1 hh1 h2 hh2 he
      · rw [List.mem_singleton.mp hh2] at he ⊢
        exact hi.root h1 hh1 h hlive he
      · rw [List.mem_singleton.mp hh1] at he ⊢
        exact hi.root h hlive h2 hh2 he
      · rw [List.mem_singleton.mp hh1, List.mem_singleton.mp hh2]
  · cases hc

/-- A live handle is dropped without fault, and the invariant stays. -/
theorem drop (hi : PoolInv r w st) {h : Handle} (hlive : h ∈ st.handles) (n : Nat) :
    ∃ p, h.buf.drop st.pool = .ok p ∧ PoolInv r w ⟨p, st.handles.erase h, n⟩ := by
  obtain ⟨c, hc, hcl⟩ := hi.rcAt (hi.inPool h hlive)
  have hpos : c > 0 := UInt32.lt_iff_toNat_lt.mpr (by rw [hcl]; exact liveAt_pos hlive)
  have hsub : (c - 1).toNat = c.toNat - 1 :=
    UInt32.toNat_sub_of_le _ _ (UInt32.le_iff_toNat_le.mpr (UInt32.lt_iff_toNat_lt.mp hpos))
  have herase := fun a => liveAt_erase hlive a
  have hself := herase h.buf.absIdx
  rw [if_pos rfl] at hself
  have hzero : c - 1 = 0 ↔ liveAt (st.handles.erase h) h.buf.absIdx = 0 := by
    rw [← UInt32.toNat_inj, hsub, hcl, ← hself]
    simp
  have hnot : h.buf.absIdx ∉ st.pool.writeFree := fun hm => by
    have := ((hi.free_iff _).mp hm).2
    omega
  have hdrop : h.buf.drop st.pool = .ok { st.pool with
      writeRc := st.pool.writeRc.set (h.buf.absIdx.toNat - r.toNat) (c - 1)
      writeFree := if c - 1 = 0 then st.pool.writeFree ++ [h.buf.absIdx]
        else st.pool.writeFree } := by
    simp only [WBuffer.drop, BufPool.decRc, hc, bind, Except.bind, hpos, if_true]
  refine ⟨_, hdrop, ?_⟩
  refine hi.slot (hi.inPool h hlive) ?_ (fun b hb => ?_) ?_ (fun b => ?_) ?_ ?_
  · rw [hsub, hcl]
    omega
  · have := herase b
    rwa [if_neg (Ne.symm hb), Nat.add_zero] at this
  · split
    · exact List.nodup_append.mpr ⟨hi.nodup, List.nodup_singleton _, fun a ha b hb he =>
        hnot (List.mem_singleton.mp hb ▸ he ▸ ha)⟩
    · exact hi.nodup
  · by_cases hb : b = h.buf.absIdx
    · subst hb
      rw [if_pos rfl, ← hzero]
      split
      · rename_i h0
        simp [h0]
      · rename_i h0
        simp [h0, hnot]
    · rw [if_neg hb]
      split
      · simp [hb]
      · rfl
  · exact fun h' hh' => hi.inPool h' (List.mem_of_mem_erase hh')
  · exact fun h1 hh1 h2 hh2 =>
      hi.root h1 (List.mem_of_mem_erase hh1) h2 (List.mem_of_mem_erase hh2)

end PoolInv

theorem write_eq_drop (b : WBuffer) (fdIdx len : UInt32) (userData : UInt64) (p : BufPool N) :
    b.write fdIdx len userData p = (b.drop p).map fun p' =>
      ({ fd := fdIdx, ptr := b.ptr, len, bufIndex := b.index, userData }, p') := by
  unfold WBuffer.write
  cases b.drop p <;> rfl

/-- Every sequence of operations keeps the invariant. -/
theorem PoolRun.inv {r w : UInt32} {st : PoolState N} (hr : PoolRun r w st) : PoolInv r w st := by
  induction hr with
  | new h => exact .new h 0
  | allocWrite hr h ih => exact ih.allocWrite h _
  | clone hr hlive hc ih => exact ih.clone hlive hc _
  | @drop st h p hr hlive hd ih =>
    obtain ⟨p', hp', hinv⟩ := ih.drop hlive st.allocs
    obtain rfl := Except.ok.inj (hp'.symm.trans hd)
    exact hinv
  | @write st h p e fdIdx len userData hr hlive hw ih =>
    obtain ⟨p', hp', hinv⟩ := ih.drop hlive st.allocs
    rw [write_eq_drop, hp'] at hw
    obtain ⟨-, rfl⟩ := Prod.mk.inj (Except.ok.inj hw)
    exact hinv

/-- **The representation invariant of the write pool.** In every state reached: `write_free` has no
index twice and holds exactly the slots whose counter is `0`; a slot's counter is its number of live
handles; handles to one slot descend from one `alloc_write`; `alloc_write` fails exactly when
every slot has a live handle, with its own panic; and no operation on a live handle fails. -/
theorem write_pool_run {r w : UInt32} {st : PoolState N} (hr : PoolRun r w st) :
    st.pool.writeFree.Nodup ∧
    (∀ a : UInt32, a ∈ st.pool.writeFree ↔
      InPool r w a ∧ st.pool.writeRc[a.toNat - r.toNat]? = some 0) ∧
    (∀ a, InPool r w a →
      ∃ c, st.pool.writeRc[a.toNat - r.toNat]? = some c ∧ c.toNat = liveAt st.handles a) ∧
    (∀ h ∈ st.handles, InPool r w h.buf.absIdx) ∧
    (∀ h ∈ st.handles, ∀ h' ∈ st.handles, h.root ≠ h'.root → h.buf.absIdx ≠ h'.buf.absIdx) ∧
    (st.pool.allocWrite = .error (.panic .poolExhausted) ↔
      ∀ a, InPool r w a → ∃ h ∈ st.handles, h.buf.absIdx = a) ∧
    (∀ e, st.pool.allocWrite = .error e → e = .panic .poolExhausted) ∧
    ∀ h ∈ st.handles,
      (∃ p, h.buf.drop st.pool = .ok p) ∧
      (∀ fdIdx len userData, ∃ e p, h.buf.write fdIdx len userData st.pool = .ok (e, p)) ∧
      (st.handles.length + 1 < 2 ^ 32 → ∃ p, h.buf.clone st.pool = .ok (h.buf, p)) := by
  have hi := hr.inv
  have herror : ∀ e, st.pool.allocWrite = .error e → e = .panic .poolExhausted := fun e he => by
    have hall := hi.allocWrite_error_iff.mp ⟨e, he⟩
    cases hfree : st.pool.writeFree with
    | nil =>
      simp only [BufPool.allocWrite, hfree] at he
      exact (Except.error.inj he).symm
    | cons a rest =>
      obtain ⟨ha, h0⟩ := (hi.free_iff a).mp (by rw [hfree]; exact List.mem_cons_self)
      obtain ⟨h, hh, rfl⟩ := hall a ha
      exact absurd h0 (Nat.pos_iff_ne_zero.mp (PoolInv.liveAt_pos hh))
  refine ⟨hi.nodup, fun a => ?_, hi.rc, hi.inPool, fun h hh h' hh' hne he =>
    hne (hi.root h hh h' hh' he), ?_, herror, fun h hh => ⟨?_, fun fdIdx len userData => ?_, ?_⟩⟩
  · rw [hi.free_iff]
    refine and_congr_right fun ha => ?_
    obtain ⟨c, hc, hcl⟩ := hi.rc a ha
    rw [hc, ← hcl, Option.some.injEq, ← UInt32.toNat_inj]
    rfl
  · rw [← hi.allocWrite_error_iff]
    exact ⟨fun he => ⟨_, he⟩, fun ⟨e, he⟩ => herror e he ▸ he⟩
  · obtain ⟨p, hp, -⟩ := hi.drop hh st.allocs
    exact ⟨p, hp⟩
  · obtain ⟨p, hp, -⟩ := hi.drop hh st.allocs
    rw [write_eq_drop, hp]
    exact ⟨_, _, rfl⟩
  · intro hlen
    obtain ⟨c, -, hcl, hclone⟩ := hi.clone_spec hh
    have hle : liveAt st.handles h.buf.absIdx ≤ st.handles.length := List.countP_le_length
    rw [hclone, if_pos (by omega)]
    exact ⟨_, rfl⟩

/-- A pool of one read and one write slot, with the slot handed out and cloned. -/
theorem write_pool_run_cloned :
    ∃ st : PoolState 1, PoolRun 1 1 st ∧ st.handles.length = 2 ∧
      st.pool.allocWrite = .error (.panic .poolExhausted) := by
  have h0 : PoolRun 1 1 (⟨⟨0, 1, [1], [0]⟩, [], 0⟩ : PoolState 1) :=
    .new (show BufPool.new 0 1 1 = .ok _ by decide)
  have h1 : PoolRun 1 1 (⟨⟨0, 1, [], [1]⟩, [⟨⟨4096, 1⟩, 0⟩], 1⟩ : PoolState 1) :=
    .allocWrite h0 (by decide)
  have h2 : PoolRun 1 1 (⟨⟨0, 1, [], [2]⟩, [⟨⟨4096, 1⟩, 0⟩, ⟨⟨4096, 1⟩, 0⟩], 1⟩ : PoolState 1) :=
    .clone h1 (h := ⟨⟨4096, 1⟩, 0⟩) (by decide) (by decide)
  refine ⟨_, h2, rfl, (write_pool_run h2).2.2.2.2.2.1.mpr fun a ha => ?_⟩
  have ha1 : 1 ≤ a.toNat := ha.1
  have ha2 : a.toNat < 2 := ha.2
  obtain rfl : a = 1 := UInt32.toNat_inj.mp (show a.toNat = 1 by omega)
  exact ⟨⟨⟨4096, 1⟩, 0⟩, by decide, rfl⟩

end Onlyio
