import Onlyio.Storage.WritePool
import Onlyio.Runs.StreamEnd
import Mathlib.Order.Interval.Set.Basic
import Mathlib.Data.Set.Lattice
import Mathlib.Order.CompletePartialOrder

/-!
# Pointers and registered indices

A `WRITE_FIXED` entry names its bytes twice: by a pointer, and by an index into the table that
`build_iovecs` registered. `WBuffer` and `RwBuffer` carry both, computed from one absolute index.
`send_write` gets a single number and uses it as an index from the first write slot for the pointer
and as an absolute index for the table; no number is both.

* `PoolReached.fixed`: the pool stays where it is, and handles point into their slot.
* `mem_buildIovecs`, `disjoint_iovecs`: the registered table.
* **`fixed_write_agrees_iff`**: pointer and index agree on every path except `send_write`, where
  they agree only on empty writes given by the absolute index.
-/

namespace Onlyio

open Lib

variable {N : Nat} {r w a : UInt32} {base : Nat}

/-! ## Reachable pools -/

/-- The pools reached from `BufPool::new(r, w)` on an allocation at `base`, by any operations, with
the handles that are alive. -/
inductive PoolReached (r w : UInt32) (base : Nat) : BufPool N → List WBuffer → Prop where
  | new {p : BufPool N} (h : BufPool.new base r w = .ok p) : PoolReached r w base p []
  | allocWrite {p p' : BufPool N} {hs : List WBuffer} {b : WBuffer} (hr : PoolReached r w base p hs)
      (h : p.allocWrite = .ok (b, p')) : PoolReached r w base p' (hs ++ [b])
  | clone {p p' : BufPool N} {hs : List WBuffer} {b b' : WBuffer} (hr : PoolReached r w base p hs)
      (hb : b ∈ hs) (h : b.clone p = .ok (b', p')) : PoolReached r w base p' (hs ++ [b'])
  | drop {p p' : BufPool N} {hs : List WBuffer} {b : WBuffer} (hr : PoolReached r w base p hs)
      (hb : b ∈ hs) (h : b.drop p = .ok p') : PoolReached r w base p' (hs.erase b)
  | write {p p' : BufPool N} {hs : List WBuffer} {b : WBuffer} {fdIdx len : UInt32}
      {userData : UInt64} {e : WriteFixed} (hr : PoolReached r w base p hs) (hb : b ∈ hs)
      (h : b.write fdIdx len userData p = .ok (e, p')) : PoolReached r w base p' (hs.erase b)
  | submit {p p' : BufPool N} {hs : List WBuffer} {b : WBuffer} {fdIdx len : UInt32}
      {e : WriteFixed} (hr : PoolReached r w base p hs) (hb : b ∈ hs)
      (h : b.submit fdIdx len p = .ok (e, p')) : PoolReached r w base p' (hs.erase b)
  | onWriteCqe {p p' : BufPool N} {hs : List WBuffer} (a : UInt32) (hr : PoolReached r w base p hs)
      (h : p.onWriteCqe a = .ok p') : PoolReached r w base p' hs

/-- What no operation on a pool changes. -/
structure PoolFixed (r w : UInt32) (base : Nat) (p : BufPool N) : Prop where
  base : p.base = base
  readCount : p.readCount = r
  length : p.writeRc.length = w.toNat
  free : ∀ a ∈ p.writeFree, InPool r w a

/-- A handle points to the slot of its index. -/
structure Points (N : Nat) (r w : UInt32) (base : Nat) (b : WBuffer) : Prop where
  inPool : InPool r w b.absIdx
  ptr : b.ptr = base + b.absIdx.toNat * BufPool.bufSize N

theorem PoolFixed.rcAt {p : BufPool N} (h : PoolFixed r w base p) {rel : Nat} {rc : UInt32}
    (ha : p.rcAt a = .ok (rel, rc)) : InPool r w a := by
  unfold BufPool.rcAt at ha
  rw [h.readCount] at ha
  split at ha
  · cases ha
  · rename_i hge
    rw [UInt32.lt_iff_toNat_lt, Nat.not_lt] at hge
    simp only at ha
    split at ha
    · rename_i hrc
      have hlt := (List.getElem?_eq_some_iff.mp hrc).1
      rw [h.length] at hlt
      exact ⟨hge, by omega⟩
    · cases ha

/-- A counter that goes down. -/
theorem PoolFixed.decRc {p p' : BufPool N} {libre : Panic} (h : PoolFixed r w base p)
    (hd : p.decRc a libre = .ok p') : PoolFixed r w base p' := by
  simp only [BufPool.decRc, bind, Except.bind] at hd
  split at hd
  · cases hd
  · rename_i x hx
    split at hd
    · obtain rfl := Except.ok.inj hd
      refine ⟨h.base, h.readCount, by simpa using h.length, fun b hb => ?_⟩
      simp only at hb
      split at hb
      · rcases List.mem_append.mp hb with hb | hb
        · exact h.free b hb
        · rw [List.mem_singleton] at hb
          exact hb ▸ h.rcAt hx
      · exact h.free b hb
    · cases hd

theorem PoolFixed.write {p p' : BufPool N} {b : WBuffer} {fdIdx len : UInt32} {userData : UInt64}
    {e : WriteFixed} (h : PoolFixed r w base p) (hw : b.write fdIdx len userData p = .ok (e, p')) :
    PoolFixed r w base p' ∧
    e = { fd := fdIdx, ptr := b.ptr, len, bufIndex := b.index, userData } := by
  simp only [WBuffer.write, bind, Except.bind, pure, Except.pure] at hw
  split at hw
  · cases hw
  · rename_i hd
    obtain ⟨rfl, rfl⟩ := Prod.mk.inj (Except.ok.inj hw)
    exact ⟨h.decRc hd, rfl⟩

theorem PoolReached.fixed {p : BufPool N} {hs : List WBuffer} (hr : PoolReached r w base p hs) :
    PoolFixed r w base p ∧ ∀ b ∈ hs, Points N r w base b := by
  induction hr with
  | @new p h =>
    have hi := PoolInv.new h 0
    refine ⟨⟨?_, hi.readCount, hi.length, fun a ha => ((hi.free_iff a).mp ha).1⟩,
      fun b hb => nomatch hb⟩
    unfold BufPool.new at h
    split at h
    · split at h
      · obtain rfl := Except.ok.inj h
        rfl
      · cases h
    · cases h
  | @allocWrite p p' hs b _ h ih =>
    obtain ⟨hfix, hpts⟩ := ih
    unfold BufPool.allocWrite at h
    split at h
    · cases h
    · rename_i a free hfree
      simp only [bind, Except.bind] at h
      have hin : InPool r w a := hfix.free a (hfree ▸ List.mem_cons_self)
      split at h
      · cases h
      · split at h
        · obtain ⟨rfl, rfl⟩ := Prod.mk.inj (Except.ok.inj h)
          refine ⟨⟨hfix.base, hfix.readCount, by simpa using hfix.length, fun c hc => ?_⟩,
            fun b hb => ?_⟩
          · exact hfix.free c (hfree ▸ List.mem_cons_of_mem a hc)
          · rcases List.mem_append.mp hb with hb | hb
            · exact hpts b hb
            · rw [List.mem_singleton] at hb
              subst hb
              exact ⟨hin, by rw [hfix.base]⟩
        · cases h
  | @clone p p' hs b b' _ hb h ih =>
    obtain ⟨hfix, hpts⟩ := ih
    simp only [WBuffer.clone, bind, Except.bind] at h
    split at h
    · cases h
    · split at h
      · split at h
        · obtain ⟨rfl, rfl⟩ := Prod.mk.inj (Except.ok.inj h)
          refine ⟨⟨hfix.base, hfix.readCount, by simpa using hfix.length, hfix.free⟩,
            fun b' hb' => ?_⟩
          rcases List.mem_append.mp hb' with hb' | hb'
          · exact hpts b' hb'
          · rw [List.mem_singleton] at hb'
            exact hb' ▸ hpts b hb
        · cases h
      · cases h
  | drop _ _ h ih => exact ⟨ih.1.decRc h, fun b hb => ih.2 b (List.mem_of_mem_erase hb)⟩
  | write _ _ h ih => exact ⟨(ih.1.write h).1, fun b hb => ih.2 b (List.mem_of_mem_erase hb)⟩
  | submit _ _ h ih => exact ⟨(ih.1.write h).1, fun b hb => ih.2 b (List.mem_of_mem_erase hb)⟩
  | onWriteCqe a _ h ih => exact ⟨ih.1.decRc h, ih.2⟩

/-! ## The registered table -/

/-- The bytes of a table entry. -/
def Iovec.bytes (e : Iovec) : Set Nat := Set.Ico e.iovBase (e.iovBase + e.iovLen)

theorem PoolFixed.buildIovecs {p : BufPool N} (h : PoolFixed r w base p) (i : Nat) :
    p.buildIovecs[i]? = if i < r.toNat + w.toNat then
      some ⟨base + i * BufPool.bufSize N, BufPool.bufSize N⟩ else none := by
  simp only [BufPool.buildIovecs, h.base, h.readCount, h.length, List.getElem?_map]
  split
  · rename_i hi
    rw [List.getElem?_range hi]
    rfl
  · rename_i hi
    rw [List.getElem?_eq_none (by simpa using Nat.not_lt.mp hi)]
    rfl

/-- Different entries have no byte in common. -/
theorem PoolFixed.disjoint_iovecs {p : BufPool N} (h : PoolFixed r w base p)
    {i j : Nat} {e e' : Iovec} (hi : p.buildIovecs[i]? = some e) (hj : p.buildIovecs[j]? = some e')
    (hij : i ≠ j) : Disjoint e.bytes e'.bytes := by
  rw [h.buildIovecs] at hi hj
  split at hi
  · split at hj
    · obtain rfl := Option.some.inj hi
      obtain rfl := Option.some.inj hj
      rw [Set.disjoint_left]
      rintro x ⟨h1, h2⟩ ⟨h3, h4⟩
      simp only at h1 h2 h3 h4
      rcases Nat.lt_or_gt_of_ne hij with hlt | hlt
      · have hmul := Nat.mul_le_mul_right (BufPool.bufSize N) hlt
        rw [Nat.succ_mul] at hmul
        omega
      · have hmul := Nat.mul_le_mul_right (BufPool.bufSize N) hlt
        rw [Nat.succ_mul] at hmul
        omega
    · cases hj
  · cases hi

/-! ## The four paths -/

/-- How a `WRITE_FIXED` entry comes about. -/
inductive Via where
  | sendWrite (bufId : UInt16)
  | sendCommitWrite
  | submit
  | write

/-- The entry in the queue, as far as its bytes go. -/
structure FixedWrite where
  ptr : Nat
  len : UInt32
  index : UInt16

/-- The `WRITE_FIXED` entries that the library builds for a caller who holds the slot `a`. The
number that `send_write` gets for a write slot is its absolute index, which `WBuffer::index`
returns, or its index from the first write slot, which `write_buf_ptr` asks for. -/
inductive BuildsWrite (r w : UInt32) (base : Nat) :
    (N : Nat) → Via → UInt32 → FixedWrite → Prop where
  | sendWrite {σ : Type} {s s' : State σ} {hs : List WBuffer} {me : Caller} {fd len a : UInt32}
      {bufId index : UInt16} {q : Sqe} {ptr : Nat} (hr : PoolReached r w base s.buffer hs)
      (ha : InPool r w a) (hid : bufId.toNat = a.toNat ∨ r.toNat + bufId.toNat = a.toNat)
      (h : sendWrite me fd bufId len s = .ok () s') (hq : s'.pending = s.pending ++ [q])
      (hop : q.op = .writeFixed fd ptr len index) :
      BuildsWrite r w base 1 (.sendWrite bufId) a ⟨ptr, len, index⟩
  | sendCommitWrite {σ : Type} {s s' : State σ} {p : BufPool 1} {hs : List WBuffer} {me : Caller}
      {bufIdx fdIdx bytes len : UInt32} {b : RwBuffer} {q : Sqe} {ptr : Nat} {index : UInt16}
      (hr : PoolReached r w base p hs) (hb : p.checkoutRead bufIdx fdIdx bytes = .ok b)
      (h : sendCommitWrite me b.ptr b.fdIdx len b.bufIdx.toUInt16 s = .ok () s')
      (hq : s'.pending = s.pending ++ [q]) (hop : q.op = .writeFixed b.fdIdx ptr len index) :
      BuildsWrite r w base 1 .sendCommitWrite b.bufIdx ⟨ptr, len, index⟩
  | submit {N : Nat} {p p' : BufPool N} {hs : List WBuffer} {b : WBuffer} {fdIdx len : UInt32}
      {e : WriteFixed} (hr : PoolReached r w base p hs) (hb : b ∈ hs)
      (h : b.submit fdIdx len p = .ok (e, p')) :
      BuildsWrite r w base N .submit b.absIdx ⟨e.ptr, e.len, e.bufIndex⟩
  | write {N : Nat} {p p' : BufPool N} {hs : List WBuffer} {b : WBuffer} {fdIdx len : UInt32}
      {userData : UInt64} {e : WriteFixed} (hr : PoolReached r w base p hs) (hb : b ∈ hs)
      (h : b.write fdIdx len userData p = .ok (e, p')) :
      BuildsWrite r w base N .write b.absIdx ⟨e.ptr, e.len, e.bufIndex⟩

/-- Pointer and index agree: the bytes lie in the entry of the index, and that is the slot `a`. -/
structure Addresses (table : List Iovec) (a : UInt32) (f : FixedWrite) : Prop where
  slot : f.index.toNat = a.toNat
  inside : ∃ e, table[f.index.toNat]? = some e ∧ Set.Ico f.ptr (f.ptr + f.len.toNat) ⊆ e.bytes

/-- The writes whose pointer and index agree. -/
def Via.Sound (a len : UInt32) : Via → Prop
  | .sendWrite bufId => len = 0 ∧ bufId.toNat = a.toNat
  | _ => True

/-! ## What is queued -/

section Queued

variable {σ : Type} {s s' : State σ} {me : Caller}

theorem wp_incRc_frame (p : TaskPtr) :
    wp (incRc p) (fun _ s' => s'.pending = s.pending ∧ s'.buffer = s.buffer)
    (fun _ _ => True) s := by
  simp only [incRc, bumpRc, deref, wp_bind, wp_get]
  cases s.heap[p]? with
  | none => trivial
  | some raw =>
    simp only
    rw [wp_ite]
    refine ⟨fun _ => trivial, fun _ => ?_⟩
    rw [wp_pure, wp_ite]
    refine ⟨fun _ => ?_, fun _ => trivial⟩
    rw [wp_ite]
    exact ⟨fun _ => trivial, fun _ => ⟨rfl, rfl⟩⟩

/-- Looking up the task, counting the reference and queueing. -/
theorem wp_enqueue (i : SlabIdx) (op : BufPool 1 → SqeOp) (udata : UInt64) :
    wp (do
        incRc (← tasksIndex i)
        pushPending me (op (← get).buffer) udata false)
      (fun _ s' => ∃ q, s'.pending = s.pending ++ [q] ∧ q.op = op s.buffer)
        (fun _ _ => True) s := by
  simp only [wp_bind, tasksIndex, wp_get]
  cases s.tasks.index i with
  | error e => trivial
  | ok p =>
    simp only [liftExcept, wp_pure]
    refine wp_mono (wp_incRc_frame p) (fun _ s1 h1 => ?_) fun _ _ h => h
    simp only [pushPending, logEvent, writeRaw, wp_bind, wp_get, wp_modify]
    exact ⟨_, by rw [State.modifyRaw, h1.1], by rw [h1.2]⟩

theorem sendOne_queued {op : BufPool 1 → SqeOp} (h : sendOne me op s = .ok () s') :
    ∃ q, s'.pending = s.pending ++ [q] ∧ q.op = op s.buffer := by
  have hw : wp (sendOne me op) (fun _ s' => ∃ q, s'.pending = s.pending ++ [q] ∧ q.op = op s.buffer)
      (fun _ _ => True) s := by
    simp only [sendOne, currentUdata]
    rw [wp_bind, wp_bind, wp_get, wp_pure, wp_bind, wp_get]
    exact wp_enqueue _ op _
  exact wp_ok hw h

theorem sendCommitWrite_queued {ptr : Nat} {fdIdx len : UInt32} {bufId : UInt16}
    (h : sendCommitWrite me ptr fdIdx len bufId s = .ok () s') :
    ∃ q, s'.pending = s.pending ++ [q] ∧ q.op = .writeFixed fdIdx ptr len bufId := by
  have hw : wp (sendCommitWrite me ptr fdIdx len bufId)
      (fun _ s' => ∃ q, s'.pending = s.pending ++ [q] ∧ q.op = .writeFixed fdIdx ptr len bufId)
      (fun _ _ => True) s := by
    simp only [sendCommitWrite, setCurrentTaskMultiple, currentUdata]
    rw [wp_bind, wp_modify, wp_bind, wp_bind, wp_get, wp_pure, wp_bind, wp_get]
    exact wp_enqueue _ (fun _ => .writeFixed fdIdx ptr len bufId) _
  exact wp_ok hw h

end Queued

/-! ## All paths -/

/-- The pointer and the index of one absolute index. -/
theorem PoolFixed.addresses {p : BufPool N} {f : FixedWrite} (h : PoolFixed r w base p)
    (ha : a.toNat < r.toNat + w.toNat) (hslot : f.index.toNat = a.toNat)
    (hptr : f.ptr = base + a.toNat * BufPool.bufSize N) (hlen : f.len.toNat ≤ BufPool.bufSize N) :
    Addresses p.buildIovecs a f := by
  refine ⟨hslot, ⟨base + a.toNat * BufPool.bufSize N, BufPool.bufSize N⟩, ?_, ?_⟩
  · rw [hslot, h.buildIovecs, if_pos ha]
  · rw [hptr]
    exact Set.Ico_subset_Ico_right (by simpa using hlen)

theorem readCount_pos {p : BufPool N} (h : BufPool.new base r w = .ok p) : 0 < r.toNat := by
  unfold BufPool.new at h
  split at h
  · rename_i hpos
    exact UInt32.lt_iff_toNat_lt.mp hpos.1
  · cases h

theorem toNat_toUInt16_index {i : UInt32} (h : i.toNat < 65536) : i.toUInt16.toNat = i.toNat := by
  rw [UInt32.toNat_toUInt16]
  exact Nat.mod_eq_of_lt h

/-- **Pointer and registered index.** For every pool of `r + w ≤ 65536` slots, every reachable state
and every length up to `BUF_SIZE`, the entries of `send_commit_write`, `submit` and `write` name the
slot that the caller holds by pointer and by index. Those of `send_write` do so if and only if they
are empty and were given the absolute index. The registered entries are disjoint. -/
theorem fixed_write_agrees_iff {p0 : BufPool N} {via : Via} {f : FixedWrite}
    (hnew : BufPool.new base r w = .ok p0) (hrw : r.toNat + w.toNat ≤ 65536)
    (hlen : f.len.toNat ≤ BufPool.bufSize N) (hb : BuildsWrite r w base N via a f) :
    (Addresses p0.buildIovecs a f ↔ via.Sound a f.len) ∧
    ∀ (i j : Nat) (e e' : Iovec), p0.buildIovecs[i]? = some e →
    p0.buildIovecs[j]? = some e' → i ≠ j →
      Disjoint e.bytes e'.bytes := by
  have hfix : PoolFixed r w base p0 := (PoolReached.fixed (.new hnew)).1
  have hpos := readCount_pos hnew
  refine ⟨?_, fun i j e e' hi hj hij => hfix.disjoint_iovecs hi hj hij⟩
  cases hb with
  | @sendWrite σ s s' hs me fd len a bufId index q ptr hr ha hid h hq hop =>
    obtain ⟨q', hq', hop'⟩ := sendOne_queued h
    obtain rfl : q = q' := by
      rw [hq] at hq'
      exact List.singleton_inj.mp (List.append_cancel_left hq')
    rw [hop] at hop'
    obtain ⟨-, rfl, -, rfl⟩ := SqeOp.writeFixed.inj hop'
    have hs := hr.fixed.1
    constructor
    · rintro ⟨hslot, e, he, hinside⟩
      have hslot : index.toNat = a.toNat := hslot
      refine ⟨?_, hslot⟩
      -- the first byte is `read_count` slots away from the entry
      by_contra hne
      have hpos' : 0 < len.toNat := Nat.pos_of_ne_zero fun h0 => hne (UInt32.toNat_inj.mp h0)
      have hfirst := hinside ⟨Nat.le_refl _, Nat.lt_add_of_pos_right hpos'⟩
      rw [hfix.buildIovecs, if_pos (by show index.toNat < _; rw [hslot]; exact ha.2)] at he
      obtain rfl := Option.some.inj he
      obtain ⟨-, hlt⟩ := hfirst
      simp only [BufPool.writeBufPtr, hs.base, hs.readCount] at hlt
      have hmul := Nat.mul_le_mul_right (BufPool.bufSize 1)
        (show index.toNat + 1 ≤ r.toNat + index.toNat by omega)
      rw [Nat.succ_mul] at hmul
      omega
    · rintro ⟨hzero, hslot⟩
      have hzero : len = 0 := hzero
      subst hzero
      refine ⟨hslot, ⟨base + index.toNat * BufPool.bufSize 1, BufPool.bufSize 1⟩, ?_, ?_⟩
      · show p0.buildIovecs[index.toNat]? = _
        rw [hfix.buildIovecs, if_pos (by rw [hslot]; exact ha.2)]
      · show Set.Ico _ (_ + 0) ⊆ _
        rw [Nat.add_zero, Set.Ico_self]
        exact Set.empty_subset _
  | @sendCommitWrite σ s s' p hs me bufIdx fdIdx bytes len b q ptr index hr hb h hq hop =>
    obtain ⟨q', hq', hop'⟩ := sendCommitWrite_queued h
    obtain rfl : q = q' := by
      rw [hq] at hq'
      exact List.singleton_inj.mp (List.append_cancel_left hq')
    rw [hop] at hop'
    obtain ⟨-, rfl, -, rfl⟩ := SqeOp.writeFixed.inj hop'
    have hp := hr.fixed.1
    unfold BufPool.checkoutRead at hb
    split at hb
    · rename_i hlt
      obtain rfl := Except.ok.inj hb
      rw [hp.readCount, UInt32.lt_iff_toNat_lt] at hlt
      refine ⟨fun _ => trivial, fun _ => hfix.addresses (by simp only; omega) ?_ ?_ hlen⟩
      · exact toNat_toUInt16_index (by simp only; omega)
      · show p.base + _ = _
        rw [hp.base]
    · cases hb
  | @submit _ p p' hs b fdIdx len e hr hb h =>
    obtain ⟨hp, hpts⟩ := hr.fixed
    obtain ⟨-, rfl⟩ := hp.write h
    have hin := (hpts b hb).inPool
    refine ⟨fun _ => trivial, fun _ => hfix.addresses hin.2 ?_ (hpts b hb).ptr hlen⟩
    exact toNat_toUInt16_index (Nat.lt_of_lt_of_le hin.2 hrw)
  | @write _ p p' hs b fdIdx len userData e hr hb h =>
    obtain ⟨hp, hpts⟩ := hr.fixed
    obtain ⟨-, rfl⟩ := hp.write h
    have hin := (hpts b hb).inPool
    refine ⟨fun _ => trivial, fun _ => hfix.addresses hin.2 ?_ (hpts b hb).ptr hlen⟩
    exact toNat_toUInt16_index (Nat.lt_of_lt_of_le hin.2 hrw)

/-! ## A write through `send_write` -/

/-- A task takes the first write buffer and calls `send_write` with the number `bufId`: the state
before the call, the buffer, the state after it and the entry. -/
def sendingWrite (bufId : UInt16) :
    Option (State (Await.Point Nat) × WBuffer × State (Await.Point Nat) × Sqe) := do
  let s ← accepted
  match allocWriteBuffer s with
  | .ok b s0 =>
    match sendWrite ⟨0, 0⟩ 7 bufId 4 s0 with
    | .ok _ s1 => (s1.pending.getLast?).map fun q => (s0, b, s1, q)
    | .error _ _ => none
  | .error _ _ => none

/-- The pool that `Runtime::new` builds at address `0`. -/
def freshPool : BufPool 1 := ⟨0, 512, (List.range' 512 512).map UInt32.ofNat, List.replicate 512 0⟩

/-- Slot `512` is the caller's. Its absolute index gives a pointer past the whole allocation, its
index from the first write slot gives the table entry of a read slot. -/
theorem send_write_mismatch :
    (∃ s0 b s1 q, sendingWrite 512 = some (s0, b, s1, q) ∧ b.absIdx = 512 ∧ b.index = 512 ∧
      q.op = .writeFixed 7 (1024 * 4096) 4 512 ∧
      ¬ Addresses freshPool.buildIovecs 512 ⟨1024 * 4096, 4, 512⟩) ∧
    ∃ s0 b s1 q, sendingWrite 0 = some (s0, b, s1, q) ∧ b.absIdx = 512 ∧
      q.op = .writeFixed 7 (512 * 4096) 4 0 ∧
      ¬ Addresses freshPool.buildIovecs 512 ⟨512 * 4096, 4, 0⟩ := by
  have habs : (sendingWrite 512).any (fun x => x.2.1.absIdx == 512 && x.2.1.index == 512 &&
      x.2.2.2.op == .writeFixed 7 (1024 * 4096) 4 512) = true := by decide +kernel
  have hrel : (sendingWrite 0).any (fun x => x.2.1.absIdx == 512 &&
      x.2.2.2.op == .writeFixed 7 (512 * 4096) 4 0) = true := by decide +kernel
  obtain ⟨⟨s0, b, s1, q⟩, hx, hok⟩ := (Option.any_eq_true _ _).mp habs
  obtain ⟨⟨s0', b', s1', q'⟩, hx', hok'⟩ := (Option.any_eq_true _ _).mp hrel
  simp only [Bool.and_eq_true, beq_iff_eq] at hok hok'
  refine ⟨⟨s0, b, s1, q, hx, hok.1.1, hok.1.2, hok.2, ?_⟩, s0', b', s1', q', hx',
    hok'.1, hok'.2, ?_⟩
  · rintro ⟨-, e, he, hinside⟩
    have hentry : freshPool.buildIovecs[(512 : UInt16).toNat]? = some ⟨512 * 4096, 4096⟩ :=
      by decide +kernel
    obtain rfl := Option.some.inj (hentry.symm.trans he)
    have hfirst := hinside (show 1024 * 4096 ∈ Set.Ico (1024 * 4096) (1024 * 4096 + 4) by simp)
    obtain ⟨-, hlt⟩ := hfirst
    exact absurd hlt (by decide)
  · rintro ⟨hslot, -⟩
    exact absurd hslot (by decide)

/-- The first write buffer, and `write` of four bytes of it. -/
theorem fixed_write_agrees_write :
    ∃ (b : WBuffer) (e : WriteFixed), b.absIdx = 512 ∧
      Addresses freshPool.buildIovecs b.absIdx ⟨e.ptr, e.len, e.bufIndex⟩ := by
  have hnew : BufPool.new 0 512 512 = .ok freshPool := by decide +kernel
  have hany : (match freshPool.allocWrite with
    | .ok (b, p) => match b.write 7 4 0 p with
      | .ok (e, _) => b.absIdx == 512 && e.len == 4
      | .error _ => false
    | .error _ => false) = true := by decide +kernel
  split at hany
  · rename_i b p halloc
    split at hany
    · rename_i e p' hw
      simp only [Bool.and_eq_true, beq_iff_eq] at hany
      have hlen : e.len.toNat ≤ BufPool.bufSize 1 := by
        rw [hany.2]
        decide
      have hb : BuildsWrite 512 512 0 1 .write b.absIdx ⟨e.ptr, e.len, e.bufIndex⟩ :=
        .write (.allocWrite (.new hnew) halloc) (List.mem_append_right _ List.mem_cons_self) hw
      exact ⟨b, e, hany.1, (fixed_write_agrees_iff hnew (by decide) hlen hb).1.mpr trivial⟩
    · cases hany
  · cases hany

end Onlyio
