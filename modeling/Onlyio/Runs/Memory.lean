import Onlyio.Machine.Intact
import Onlyio.Machine.Simulate
import Onlyio.Runs.Buffers

/-!
# What a run does to the memory of the runtime

`intact_act` over whole runs. The slab and the pool are sound between any two commands, and every
buffer that a block holds lies in its slot; so a command that fails does not fail by a fault of the
runtime's own.

* **`no_internal_fault`**: no run touches memory that it must not touch, or fails an assertion about
  the slab, the counters of a task or the write pool.
* **`slices_in_place`**: the slices of a buffer (`read_slice`, `write_slice`, `Deref`) lie in the
  `iovec` that is registered under its index, and those of two slots have no byte in common.
* **`write_pool_conserved`**: `write_rc` counts the handles that the blocks hold, and `write_free`
  lists the rest.
-/

namespace Onlyio

open Lib

variable {σ : Type} {code : Code σ} {s s' : State σ} {e : Fault} {cmd : Cmd σ}

/-! ## Whole runs -/

theorem holding_new {base : Nat} (h : State.new base = .ok s) : Holding s.buffer.base s 0 := by
  have hl := (audited_new h).owns.ledger
  obtain ⟨-, hheap, -⟩ := State.new_spec h
  have hitems : s.items = 0 := by simp [State.items, State.locals, hheap]
  have htokens : s.tokens = 0 := by simp [State.tokens, State.locals, hheap]
  have hpool := hl.pool
  rw [htokens] at hpool
  unfold Holding
  rw [hitems]
  refine ⟨hl.pos, hl.slab, hpool, fun t ht => ?_, rfl, rfl⟩
  rw [add_zero] at ht
  exact absurd ht (Multiset.notMem_zero t)

/-- **Every run** keeps the slab and the pool sound, and each buffer in its slot. -/
theorem RunWith.holding {ok : State σ → State σ → Prop} (h : RunWith code ok s) :
    Holding s.buffer.base s 0 := by
  induction h with
  | new h => exact holding_new h
  | act cmd h ha hok ih =>
    have h' := wp_ok ((intact_act code cmd).run ih) ha
    exact h'.base.symm ▸ h'

/-- **No internal fault**: a command that fails in a reachable state, while the slab has fewer than
`2^31` slots, has followed no freed handle, read no slot outside the slab, reached no `unreachable`,
and met no failed assertion of the slab, of the counters of a task or of the write pool. -/
theorem no_internal_fault (h : Reachable code s) (ha : act code cmd s = .error e s')
    (hlen : s'.tasks.len.toNat < 2 ^ 31) : e.internal = false := by
  obtain ⟨hrep, hinv⟩ := h.inv
  have hblame := wp_error ((intact_act code cmd).run h.holding) ha
  rcases wp_error (wp_act cmd hinv hrep) ha with ⟨g', -, hsoft, -⟩ | ⟨rfl, -, -⟩
  · by_contra hint
    exact absurd (hblame hsoft (Bool.eq_true_of_not_eq_false hint)) (Nat.not_le_of_lt hlen)
  · rfl

/-- A block that holds two handles to one write slot and one to another while it reads, and one that
polls a `read` once too often. -/
def hoarder : Code Nat where
  instr
    | 0 => .allocWrite fun _ => 1
    | 1 => .cloneWrite 0 fun _ => 2
    | 2 => .allocWrite fun _ => 3
    | 3 => .make (.read 5) fun _ => 4
    | 4 => .poll 3 fun _ => 5
    | 5 => .suspend 6
    | 10 => .make (.read 5) fun _ => 11
    | 11 => .poll 0 fun _ => 12
    | 12 => .suspend 13
    | 13 => .poll 0 fun _ => 14
    | 14 => .poll 0 fun _ => 15
    | _ => .ret
  entry _ := true

/-- How a command fails. -/
def failure (code : Code σ) (cmd : Cmd σ) (s : State σ) : Option (Fault × State σ) :=
  match act code cmd s with
  | .ok _ _ => none
  | .error e s' => some (e, s')

theorem failure_eq_some (h : failure code cmd s = some (e, s')) : act code cmd s = .error e s' := by
  unfold failure at h
  split at h
  · cases h
  · rename_i heq
    rw [heq]
    cases h
    rfl

/-- The second block is resumed after its `read` returned. -/
theorem no_internal_fault_resumed : ∃ s s', Reachable hoarder s ∧
    act hoarder (.handle 9) s = .error (.panic .resumed) s' ∧
    (Fault.panic .resumed).internal = false := by
  have hrun : (freshScript hoarder (fun _ _ => true)
    [.spawn 9 10, .submit, .consume, .complete 0 9 0x70001]).any
      (fun s => (failure hoarder (.handle 9) s).any fun r =>
        decide (r.1 = .panic .resumed) && decide (r.2.tasks.len.toNat < 2 ^ 31)) = true := by
    decide +kernel
  obtain ⟨s, hs, hc⟩ := (Option.any_eq_true _ _).mp hrun
  obtain ⟨⟨e, s'⟩, hf, hc⟩ := (Option.any_eq_true _ _).mp hc
  rw [Bool.and_eq_true, decide_eq_true_eq, decide_eq_true_eq] at hc
  obtain ⟨rfl, hlen⟩ := hc
  have hreach : Reachable hoarder s := .of_script (fun _ _ _ => trivial) hs
  have ha := failure_eq_some hf
  exact ⟨s, s', hreach, ha, no_internal_fault hreach ha hlen⟩

/-! ## Slices -/

/-- Byte `i` of the memory is one of the slice. -/
def Slice.Covers (a : Slice) (i : Nat) : Prop := a.ptr ≤ i ∧ i < a.ptr + a.len

/-- Each byte of `a` is one of `b`. -/
def Slice.Inside (a b : Slice) : Prop := ∀ i, a.Covers i → b.Covers i

/-- No byte of `a` is one of `b`. -/
def Slice.Apart (a b : Slice) : Prop := ∀ i, a.Covers i → ¬ b.Covers i

/-- A slice of the same start that is not longer. -/
theorem Slice.inside_of_le {p m n : Nat} (h : m ≤ n) : Slice.Inside ⟨p, m⟩ ⟨p, n⟩ :=
  fun _ hi => ⟨hi.1, Nat.lt_of_lt_of_le hi.2 (Nat.add_le_add_left h p)⟩

/-- The slot of a buffer, as an index into the registered `iovec`s. -/
def Item.slot : Item → UInt32
  | .read b => b.bufIdx
  | .write b => b.absIdx
  | .broken => 0

/-- The slices that a buffer hands out. -/
def Item.slices : Item → List Slice
  | .read b => [b.readSlice, b.writeSlice 1]
  | .write b => [b.writeSlice 1, b.derefSlice 1]
  | .broken => []

/-- The kernel has written no more than a slot holds. -/
def Item.Fits : Item → Prop
  | .read b => b.bytes.toNat ≤ BufPool.bufSize 1
  | _ => True

/-- Slot `i` of the allocation at `base`. -/
def slotAt (base i : Nat) : Slice := ⟨base + i * BufPool.bufSize 1, BufPool.bufSize 1⟩

theorem slotAt_apart {i j : Nat} (base : Nat) (h : i ≠ j) :
    (slotAt base i).Apart (slotAt base j) := by
  have hstep : ∀ {i j : Nat}, i < j →
      base + i * BufPool.bufSize 1 + BufPool.bufSize 1 ≤ base + j * BufPool.bufSize 1 := by
    intro i j hij
    rw [Nat.add_assoc, ← Nat.succ_mul]
    exact Nat.add_le_add_left (Nat.mul_le_mul_right _ hij) _
  intro k hi hj
  unfold slotAt Slice.Covers at hi hj
  rcases Nat.lt_or_gt_of_ne h with hlt | hgt
  · exact Nat.not_lt_of_le ((hstep hlt).trans hj.1) hi.2
  · exact Nat.not_lt_of_le ((hstep hgt).trans hi.1) hj.2

namespace Item

variable {base : Nat} {t : Item}

/-- The slot of a buffer in place is one of the table. -/
theorem Sound.slot_lt (h : t.Sound base) : t.slot.toNat < 1024 := by
  cases t with
  | read b => exact Nat.lt_trans h.idx (by decide)
  | write b => exact h.idx.2
  | broken => exact h.elim

/-- The slices of a buffer in place lie in its slot. -/
theorem Sound.slices_inside (h : t.Sound base) (hfits : t.Fits) :
    ∀ x ∈ t.slices, x.Inside (slotAt base t.slot.toNat) := by
  cases t with
  | read b =>
    have hb : b.ptr = base + b.bufIdx.toNat * BufPool.bufSize 1 := h.ptr
    unfold slices
    rw [List.forall_mem_cons, List.forall_mem_singleton]
    unfold RwBuffer.readSlice RwBuffer.writeSlice slotAt slot
    rw [hb]
    exact ⟨Slice.inside_of_le hfits, Slice.inside_of_le (Nat.le_refl _)⟩
  | write b =>
    have hb : b.ptr = base + b.absIdx.toNat * BufPool.bufSize 1 := h.ptr
    unfold slices
    rw [List.forall_mem_cons, List.forall_mem_singleton]
    unfold WBuffer.writeSlice WBuffer.derefSlice slotAt slot
    rw [hb]
    exact ⟨Slice.inside_of_le (Nat.le_refl _), Slice.inside_of_le (Nat.le_refl _)⟩
  | broken => exact h.elim

end Item

/-- Each slot is registered under its index. -/
theorem getElem?_buildIovecs {p : BufPool 1} {i : Nat}
    (h : i < p.readCount.toNat + p.writeRc.length) :
    p.buildIovecs[i]? = some ⟨(slotAt p.base i).ptr, (slotAt p.base i).len⟩ := by
  unfold BufPool.buildIovecs
  rw [List.getElem?_map, List.getElem?_range h]
  rfl

theorem Pooled.length {p : BufPool 1} {live : UInt32 → Nat} (h : Pooled p live) :
    p.writeRc.length = 512 := by
  obtain ⟨st, rfl, hinv, -⟩ := h
  exact hinv.length

/-- **The slices of a buffer lie in its slot.** In every reachable state, whatever the kernel
answers, a buffer in a local of any block (a `WBuffer` inside a future too) has a slot that is
registered under its index, and each slice that it hands out lies there, if the kernel wrote no more
than fits. So the slices of two slots have no byte in common, and a `RwBuffer` never shares its slot
with a `WBuffer`. -/
theorem slices_in_place (h : Reachable code s) :
    (∀ t ∈ s.items, ∃ v, s.buffer.buildIovecs[t.slot.toNat]? = some v ∧
      (t.Fits → ∀ x ∈ t.slices, x.Inside ⟨v.iovBase, v.iovLen⟩)) ∧
    (∀ t ∈ s.items, ∀ t' ∈ s.items, t.Fits → t'.Fits → t.slot ≠ t'.slot →
      ∀ x ∈ t.slices, ∀ x' ∈ t'.slices, x.Apart x') ∧
    ∀ b w, .read b ∈ s.items → .write w ∈ s.items → b.bufIdx ≠ w.absIdx := by
  have hold : Holding s.buffer.base s 0 := h.holding
  have hsound : ∀ t ∈ s.items, t.Sound s.buffer.base := fun t ht =>
    hold.sound t (Multiset.mem_add.mpr (.inl ht))
  refine ⟨fun t ht => ?_, fun t ht t' ht' hfits hfits' hne x hx x' hx' => ?_,
    fun b w hb hw heq => ?_⟩
  · refine ⟨_, getElem?_buildIovecs ?_, (hsound t ht).slices_inside⟩
    rw [hold.pool.readCount, hold.pool.length]
    exact (hsound t ht).slot_lt
  · have hslot : t.slot.toNat ≠ t'.slot.toNat := fun heq => hne (UInt32.toNat_inj.mp heq)
    intro i hi hi'
    exact slotAt_apart s.buffer.base hslot i ((hsound t ht).slices_inside hfits x hx i hi)
      ((hsound t' ht').slices_inside hfits' x' hx' i hi')
  · have hread : b.bufIdx.toNat < 512 := (hsound _ hb).idx
    have hwrite : 512 ≤ w.absIdx.toNat := (hsound _ hw).idx.1
    rw [heq] at hread
    exact absurd hread (Nat.not_lt_of_le hwrite)

/-- A slot that is counted has a handle. -/
theorem exists_write_of_handlesAt {T : Multiset Item} {a : UInt32} (h : handlesAt T a ≠ 0) :
    ∃ w, .write w ∈ T ∧ w.absIdx = a := by
  obtain ⟨t, ht, hholds⟩ := Multiset.countP_pos.mp (Nat.pos_of_ne_zero h)
  cases t with
  | write w => exact ⟨w, ht, hholds⟩
  | read b => exact hholds.elim
  | broken => exact hholds.elim

/-- Handles to two slots. -/
theorem slices_in_place_held : ∃ s w w', Reachable hoarder s ∧ .write w ∈ s.items ∧
    .write w' ∈ s.items ∧ (w.absIdx, w'.absIdx) = (512, 513) ∧
    (w.writeSlice 1).Apart (w'.writeSlice 1) := by
  have hrun : (freshScript hoarder (fun _ _ => true) [.spawn 9 0]).any
      (fun s => decide (handlesAt s.items 512 ≠ 0) && decide (handlesAt s.items 513 ≠ 0)) =
        true := by
    decide +kernel
  obtain ⟨s, hs, hc⟩ := (Option.any_eq_true _ _).mp hrun
  rw [Bool.and_eq_true, decide_eq_true_eq, decide_eq_true_eq] at hc
  obtain ⟨w, hw, ha⟩ := exists_write_of_handlesAt hc.1
  obtain ⟨w', hw', ha'⟩ := exists_write_of_handlesAt hc.2
  have hne : w.absIdx ≠ w'.absIdx := by
    rw [ha, ha']
    decide
  have hreach : Reachable hoarder s := .of_script (fun _ _ _ => trivial) hs
  obtain ⟨-, hapart, -⟩ := slices_in_place hreach
  refine ⟨s, w, w', hreach, hw, hw', Prod.ext ha ha', ?_⟩
  exact hapart _ hw _ hw' True.intro True.intro hne _ List.mem_cons_self _ List.mem_cons_self

/-! ## The write pool -/

/-- **`write_rc` counts the handles.** In every reachable state the counter of a write slot is the
number of handles to it in the locals of all blocks, futures included, and `write_free` lists each
slot without a handle once: no slot leaks, whatever is cloned, moved into a block, dropped with a
task or written to many descriptors. -/
theorem write_pool_conserved (h : Reachable code s) :
    (∀ a, InPool 512 512 a → ∃ c, s.buffer.writeRc[a.toNat - 512]? = some c ∧
      c.toNat = handlesAt s.items a) ∧
    s.buffer.writeFree.Nodup ∧
    (∀ a, a ∈ s.buffer.writeFree ↔ InPool 512 512 a ∧ handlesAt s.items a = 0) ∧
    ∀ b, .write b ∈ s.items → InPool 512 512 b.absIdx := by
  have hold : Holding s.buffer.base s 0 := h.holding
  obtain ⟨st, hst, hinv, hlive⟩ := hold.pool
  rw [add_zero] at hlive
  rw [← hst]
  refine ⟨fun a ha => ?_, hinv.nodup, fun a => ?_, fun b hb => ?_⟩
  · obtain ⟨c, hc, hcount⟩ := hinv.rc a ha
    exact ⟨c, hc, hcount.trans (hlive a)⟩
  · rw [hinv.free_iff, hlive]
  · exact (hold.sound _ (Multiset.mem_add.mpr (.inl hb))).idx

/-- Two handles to the first slot, which the pool counts and does not list as free. -/
theorem write_pool_conserved_cloned : ∃ s, Reachable hoarder s ∧ handlesAt s.items 512 = 2 ∧
    s.buffer.writeRc[0]? = some 2 ∧ 512 ∉ s.buffer.writeFree := by
  have hrun : (freshScript hoarder (fun _ _ => true) [.spawn 9 0]).any
      (fun s => decide (handlesAt s.items 512 = 2)) = true := by
    decide +kernel
  obtain ⟨s, hs, hc⟩ := (Option.any_eq_true _ _).mp hrun
  rw [decide_eq_true_eq] at hc
  have hreach : Reachable hoarder s := .of_script (fun _ _ _ => trivial) hs
  obtain ⟨hrc, -, hfree, -⟩ := write_pool_conserved hreach
  obtain ⟨c, hc0, hcount⟩ := hrc 512 ⟨by decide, by decide⟩
  rw [hc] at hcount
  obtain rfl : c = 2 := UInt32.toNat_inj.mp hcount
  refine ⟨s, hreach, hc, hc0, fun hmem => ?_⟩
  rw [((hfree 512).mp hmem).2] at hc
  cases hc

end Onlyio
