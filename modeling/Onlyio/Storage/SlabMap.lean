import Onlyio.Model.Slab
import Onlyio.Lib.Chain
import Mathlib.Data.List.Induction

/-!
# The slab is a finite map with fresh keys

`Slab.WF` is what every operation keeps while `len` stays below `2^31`: the intrusive free list
visits exactly the free slots (`Lib.FreeChain`), every other slot holds a task, and `task_count`
counts them. A link is stored shifted by one bit, so from `2^31` on it no longer fits its word.

* `link_freeSlot`: a link below `2^31` is read back.
* `insert_spec`, `take_spec`, `growth_spec`: what each operation does to the map `get?`.
* `WF.withCapacity`, `WF.insert`, `WF.take`: the invariant, from the first state on.
* **`slab_run_refines`**: after any sequence of operations the slab stands for the map that the
  sequence describes, and the next operation does to it what a map would do.
-/

namespace Onlyio

open Lib

variable {α : Type}

/-! ## Links -/

/-- `next_free` of slot `i`, when there is one. -/
def Slab.link (s : Slab α) (i : Nat) : Option Nat :=
  match s.slots[i]? with
  | some slot => slot.nextFree.toOption.map UInt32.toNat
  | none => none

theorem toNat_freeWord (next : UInt32) (h : next.toNat < 2 ^ 31) :
    (next <<< 1 ||| 1).toNat = next.toNat * 2 + 1 := by
  have hshift : (next <<< 1).toNat = next.toNat <<< 1 := by
    rw [UInt32.toNat_shiftLeft]
    have : next.toNat <<< 1 < 2 ^ 32 := by rw [Nat.shiftLeft_eq]; omega
    simpa using Nat.mod_eq_of_lt this
  rw [UInt32.toNat_or, hshift, show (1 : UInt32).toNat = 1 from rfl,
    ← Nat.shiftLeft_add_eq_or_of_lt (i := 1) (by decide) next.toNat, Nat.shiftLeft_eq]

/-- `free_slot` sets bit 0. -/
theorem isFree_freeSlot (next : UInt32) : (freeSlot next : SlabSlot α).isFree = true := by
  simp only [freeSlot, SlabSlot.isFree, beq_iff_eq]
  apply UInt32.toNat_inj.mp
  rw [UInt32.toNat_and, UInt32.toNat_or, show (1 : UInt32).toNat = 1 from rfl,
    Nat.and_or_distrib_right, Nat.and_self, Nat.and_one_is_mod]
  rcases Nat.mod_two_eq_zero_or_one (next <<< 1).toNat with hbit | hbit <;> rw [hbit] <;> rfl

theorem isTask_freeSlot (next : UInt32) : (freeSlot next : SlabSlot α).isTask = false := by
  have hfree := isFree_freeSlot (α := α) next
  simp only [freeSlot, SlabSlot.isFree, beq_iff_eq] at hfree
  simp only [freeSlot, SlabSlot.isTask, hfree]
  rfl

theorem toNat_ofNat_index {i : Nat} (h : i < 2 ^ 31) : (UInt32.ofNat i).toNat = i :=
  UInt32.toNat_ofNat_of_lt' (by simp only [UInt32.size]; omega)

theorem nextFree_freeSlot (next : UInt32) (h : next.toNat < 2 ^ 31) :
    (freeSlot next : SlabSlot α).nextFree = .ok next := by
  have hfree := isFree_freeSlot (α := α) next
  simp only [freeSlot] at hfree
  simp only [freeSlot, SlabSlot.nextFree, hfree, if_true, Except.ok.injEq]
  apply UInt32.toNat_inj.mp
  rw [UInt32.toNat_shiftRight, toNat_freeWord next h]
  simp only [show (1 : UInt32).toNat % 32 = 1 from rfl, Nat.shiftRight_eq_div_pow]
  omega

/-- A slot that holds a link below `2^31` gives it back. -/
theorem Slab.link_freeSlot {s : Slab α} {i : Nat} {next : UInt32}
    (hs : s.slots[i]? = some (freeSlot next)) (h : next.toNat < 2 ^ 31) :
    s.link i = some next.toNat := by
  simp [Slab.link, hs, nextFree_freeSlot next h, Except.toOption]

theorem Slab.link_isSome_iff {s : Slab α} {i : Nat} :
    (s.link i).isSome ↔ ∃ slot, s.slots[i]? = some slot ∧ slot.isFree = true := by
  unfold Slab.link
  cases s.slots[i]? with
  | none => simp
  | some slot =>
    cases slot with
    | task t => simp [SlabSlot.nextFree, SlabSlot.isFree, Except.toOption]
    | idx w =>
      simp only [SlabSlot.nextFree]
      split
      · rename_i hw
        simp [hw, Except.toOption]
      · rename_i hw
        simpa [Except.toOption] using hw

/-! ## The invariant -/

/-- What holds between two operations, while `len` is below `2^31`. -/
structure Slab.WF (s : Slab α) : Prop where
  small : s.len.toNat < 2 ^ 31
  pos : 0 < s.len.toNat
  sized : s.slots.length = s.len.toNat
  chain : ∃ l, FreeChain s.link s.head.toNat s.len.toNat l
  occupied : ∀ i, i < s.len.toNat → s.link i = none → ∃ t, s.slots[i]? = some (.task t)
  counted : s.taskCount.toNat = s.slots.countP SlabSlot.isTask

namespace Slab

variable {s s' : Slab α} {i : SlabIdx} {t : α}

theorem get?_eq_some : s.get? i = some t ↔ s.slots[i.toNat]? = some (.task t) := by
  unfold get?
  rcases s.slots[i.toNat]? with _ | _ | _ <;> simp [SlabSlot.task?]

theorem get?_eq_none_of_link {j : Nat} (h : s.link i.toNat = some j) : s.get? i = none := by
  rw [Option.eq_none_iff_forall_ne_some]
  intro t ht
  simp [link, get?_eq_some.mp ht, SlabSlot.nextFree, Except.toOption] at h

theorem link_eq_none_of_get? (h : s.get? i = some t) : s.link i.toNat = none := by
  simp [link, get?_eq_some.mp h, SlabSlot.nextFree, Except.toOption]

/-- The map after one slot was overwritten. -/
theorem get?_set {j : SlabIdx} {slot : SlabSlot α} (hj : j.toNat < s.slots.length)
    (hs : s'.slots = s.slots.set j.toNat slot) :
    s'.get? i = if i = j then slot.task? else s.get? i := by
  unfold get?
  rw [hs, List.getElem?_set]
  by_cases h : i = j
  · subst h
    simp [hj]
  · have : j.toNat ≠ i.toNat := fun he => h (UInt32.toNat_inj.mp he.symm)
    simp [h, this]

/-- The links after one slot was overwritten. -/
theorem link_set_ne {j k : Nat} {slot : SlabSlot α} (hs : s'.slots = s.slots.set j slot)
    (hne : k ≠ j) : s'.link k = s.link k := by
  unfold link
  rw [hs, List.getElem?_set_ne (Ne.symm hne)]

/-! ## Growth -/

/-- The slots `growth` and `with_capacity` write. -/
theorem chained_getElem? {lo hi : Nat} (h : lo < hi) (k : Nat) :
    (chained lo hi : List (SlabSlot α))[k]? =
      if k < hi - lo then some (freeSlot (UInt32.ofNat (lo + k + 1))) else none := by
  unfold chained
  rw [List.getElem?_append]
  simp only [List.length_map, List.length_range', List.getElem?_map]
  by_cases h1 : k < hi - 1 - lo
  · rw [if_pos h1, if_pos (by omega), List.getElem?_range' h1]
    simp
  · rw [if_neg h1]
    by_cases h2 : k < hi - lo
    · have hk : k - (hi - 1 - lo) = 0 := by omega
      have hi' : lo + k + 1 = hi := by omega
      simp [hk, h2, hi']
    · rw [if_neg h2, List.getElem?_eq_none (by simp; omega)]

theorem length_chained {lo hi : Nat} (h : lo < hi) :
    (chained lo hi : List (SlabSlot α)).length = hi - lo := by
  simp only [chained, List.length_append, List.length_map, List.length_range', List.length_cons,
    List.length_nil]
  omega

theorem exists_freeSlot_of_mem_chained {lo hi : Nat} {slot : SlabSlot α}
    (h : slot ∈ chained lo hi) : ∃ next, slot = freeSlot next := by
  rcases List.mem_append.mp h with h | h
  · obtain ⟨i, -, rfl⟩ := List.mem_map.mp h
    exact ⟨_, rfl⟩
  · exact ⟨_, List.mem_singleton.mp h⟩

theorem countP_chained (lo hi : Nat) :
    (chained lo hi : List (SlabSlot α)).countP SlabSlot.isTask = 0 := by
  rw [List.countP_eq_zero]
  intro slot hslot
  obtain ⟨next, rfl⟩ := exists_freeSlot_of_mem_chained hslot
  rw [isTask_freeSlot]
  exact Bool.false_ne_true

/-- What `growth` does: the old slots stay, and chained ones follow them. -/
theorem growth_spec (h : s.growth = .ok s') (hpos : 0 < s.len.toNat) :
    s.len.toNat < s'.len.toNat ∧ s'.head = s.head ∧ s'.taskCount = s.taskCount ∧
      s'.slots = s.slots ++ chained s.len.toNat s'.len.toNat := by
  unfold growth at h
  simp only at h
  split at h
  · cases h
  · rename_i hmax
    obtain rfl := Except.ok.inj h
    refine ⟨?_, rfl, rfl, rfl⟩
    have hlt : s.len.toNat < 4294967295 := by
      have h1 : s.len.toNat ≠ (4294967295 : UInt32).toNat := fun he => hmax (UInt32.toNat_inj.mp he)
      have h2 := s.len.toNat_lt
      have h3 : (4294967295 : UInt32).toNat = 4294967295 := rfl
      omega
    show s.len.toNat < UInt32.toNat (if _ then _ else _)
    split
    · rename_i hd
      rw [UInt32.toNat_mul, show (2 : UInt32).toNat = 2 from rfl, Nat.mod_eq_of_lt hd]
      omega
    · exact hlt

/-- `growth` keeps every stored task at its index, and stores no other. -/
theorem growth_get? (h : s.growth = .ok s') (hpos : 0 < s.len.toNat) : s'.get? = s.get? := by
  obtain ⟨hlt, -, -, hslots⟩ := growth_spec h hpos
  funext i
  unfold get?
  rw [hslots, List.getElem?_append]
  split
  · rfl
  · rw [chained_getElem? hlt, List.getElem?_eq_none (by omega : s.slots.length ≤ i.toNat)]
    split
    · rfl
    · rfl

/-- `growth` keeps the allocation as long as `len` says. -/
theorem growth_sized (h : s.growth = .ok s') (hpos : 0 < s.len.toNat)
    (hsized : s.slots.length = s.len.toNat) : s'.slots.length = s'.len.toNat := by
  obtain ⟨hlt, -, -, hslots⟩ := growth_spec h hpos
  rw [hslots, List.length_append, length_chained hlt, hsized]
  omega

/-- A full slab that grows is well formed again. -/
theorem WF.growth (h : s.WF) (hfull : s.head = s.len) (hg : s.growth = .ok s')
    (hsmall : s'.len.toNat < 2 ^ 31) : s'.WF := by
  obtain ⟨hlt, hhead, hcount, hslots⟩ := growth_spec hg h.pos
  have hsized := growth_sized hg h.pos h.sized
  obtain ⟨l, hl⟩ := h.chain
  have hnil : l = [] := hl.head_eq_iff.mp (by rw [hfull])
  have hold : ∀ i, i < s.len.toNat → s'.slots[i]? = s.slots[i]? := fun i hi => by
    rw [hslots, List.getElem?_append_left (by rw [h.sized]; exact hi)]
  have hnone : ∀ i, i < s.len.toNat → s.link i = none := fun i _ => by
    have := hl.mem_iff i
    simpa [hnil] using this
  have hnew : ∀ i, s.len.toNat ≤ i → i < s'.len.toNat →
      s'.slots[i]? = some (freeSlot (UInt32.ofNat (i + 1))) := fun i h1 h2 => by
    rw [hslots, List.getElem?_append_right (by rw [h.sized]; exact h1), h.sized,
      chained_getElem? (by omega), if_pos (by omega)]
    congr 3
    omega
  refine ⟨hsmall, by omega, hsized, ⟨List.range' s.len.toNat (s'.len.toNat - s.len.toNat), ?_⟩,
    ?_, ?_⟩
  · rw [hhead, hfull]
    refine FreeChain.grow (by omega) (fun i hi => ?_) (fun i h1 h2 => ?_) fun i hi => ?_
    · rw [← hnone i hi]
      simp only [link, hold i hi]
    · have hi : (UInt32.ofNat (i + 1)).toNat = i + 1 := toNat_ofNat_index (by omega)
      rw [link_freeSlot (hnew i h1 h2) (by rw [hi]; omega), hi]
    · simp [link, List.getElem?_eq_none (hsized ▸ hi : s'.slots.length ≤ i)]
  · intro i hi hlink
    by_cases h1 : i < s.len.toNat
    · rw [hold i h1]
      exact h.occupied i h1 (hnone i h1)
    · have hi' : (UInt32.ofNat (i + 1)).toNat = i + 1 := toNat_ofNat_index (by omega)
      rw [link_freeSlot (hnew i (by omega) hi) (by rw [hi']; omega)] at hlink
      cases hlink
  · rw [hcount, hslots, List.countP_append, countP_chained, h.counted]
    rfl

/-! ## `with_capacity` -/

/-- A fresh slab: as long as asked, and every slot is free. -/
theorem withCapacity_spec {c : { c : UInt32 // c ≠ 0 }}
    (h : (withCapacity c : Except Fault (Slab α)) = .ok s) :
    s.slots = chained 0 s.len.toNat ∧ s.len = c.val ∧ s.head = 0 ∧ s.taskCount = 0 ∧
      0 < s.len.toNat := by
  unfold withCapacity at h
  simp only at h
  split at h
  · obtain rfl := Except.ok.inj h
    have hne : c.val.toNat ≠ 0 := fun he => c.property (UInt32.toNat_inj.mp he)
    exact ⟨rfl, rfl, rfl, rfl, Nat.pos_of_ne_zero hne⟩
  · cases h

theorem withCapacity_get? {c : { c : UInt32 // c ≠ 0 }}
    (h : (withCapacity c : Except Fault (Slab α)) = .ok s) : s.get? = fun _ => none := by
  obtain ⟨hslots, -, -, -, hpos⟩ := withCapacity_spec h
  funext i
  unfold get?
  rw [hslots, chained_getElem? hpos]
  split
  · rfl
  · rfl

theorem WF.withCapacity {c : { c : UInt32 // c ≠ 0 }}
    (h : (Slab.withCapacity c : Except Fault (Slab α)) = .ok s) (hsmall : s.len.toNat < 2 ^ 31) :
    s.WF := by
  obtain ⟨hslots, -, hhead, hcount, hpos⟩ := withCapacity_spec h
  have hsized : s.slots.length = s.len.toNat := by rw [hslots, length_chained hpos, Nat.sub_zero]
  have hlink : ∀ i, i < s.len.toNat → s.link i = some (i + 1) := fun i hi => by
    have hi' : (UInt32.ofNat (0 + i + 1)).toNat = i + 1 := by
      rw [toNat_ofNat_index (by omega), Nat.zero_add]
    have hslot : s.slots[i]? = some (freeSlot (UInt32.ofNat (0 + i + 1))) := by
      rw [hslots, chained_getElem? hpos, if_pos (by omega)]
    rw [link_freeSlot hslot (by omega), hi']
  refine ⟨hsmall, hpos, hsized, ⟨List.range' 0 (s.len.toNat - 0), ?_⟩, fun i hi hn => ?_, ?_⟩
  · rw [hhead]
    refine FreeChain.grow (Nat.zero_le _) (fun i hi => absurd hi (Nat.not_lt_zero i))
      (fun i _ hi => hlink i hi) fun i hi => ?_
    simp [link, List.getElem?_eq_none (hsized ▸ hi : s.slots.length ≤ i)]
  · rw [hlink i hi] at hn
    cases hn
  · rw [hcount, hslots, countP_chained]
    rfl

/-! ## `insert` -/

/-- What `insert` does once there is a free slot. -/
theorem fill_spec (h : s.fill t = .ok (i, s')) :
    ∃ slot next, s.slots[s.head.toNat]? = some slot ∧ slot.nextFree = .ok next ∧ i = s.head ∧
      s' = { s with
        slots := s.slots.set s.head.toNat (.task t)
        head := next
        taskCount := s.taskCount + 1 } := by
  unfold fill at h
  split at h
  · cases h
  · rename_i slot hslot
    split at h
    · cases h
    · rename_i next hnext
      obtain ⟨rfl, rfl⟩ := Prod.mk.inj (Except.ok.inj h)
      exact ⟨slot, next, hslot, hnext, rfl, rfl⟩

theorem fill_get? (h : s.fill t = .ok (i, s')) :
    s.get? i = none ∧ s'.get? = Function.update s.get? i (some t) ∧ s'.len = s.len ∧
      s'.slots.length = s.slots.length ∧ i.toNat < s.slots.length := by
  obtain ⟨slot, next, hslot, hnext, rfl, rfl⟩ := fill_spec h
  have hlt := (List.getElem?_eq_some_iff.mp hslot).1
  refine ⟨?_, ?_, rfl, by simp, hlt⟩
  · apply get?_eq_none_of_link (j := next.toNat)
    simp [link, hslot, hnext, Except.toOption]
  · funext j
    rw [get?_set hlt rfl, Function.update_apply]
    rfl

/-- **What `insert` does to the map**, growth included: a key that was not there is bound. -/
theorem insert_spec (h : s.insert t = .ok (i, s')) (hpos : 0 < s.len.toNat)
    (hsized : s.slots.length = s.len.toNat) :
    s.get? i = none ∧ s'.get? = Function.update s.get? i (some t) ∧
      s'.slots.length = s'.len.toNat ∧ s.len.toNat ≤ s'.len.toNat ∧ i.toNat < s'.len.toNat := by
  unfold insert at h
  split at h
  · split at h
    · cases h
    · rename_i s1 hg
      obtain ⟨h1, h2, h3, h4, h5⟩ := fill_get? h
      have hsized1 := growth_sized hg hpos hsized
      have hget := growth_get? hg hpos
      rw [hget] at h1 h2
      rw [h3, h4]
      exact ⟨h1, h2, hsized1, (growth_spec hg hpos).1.le, hsized1 ▸ h5⟩
  · obtain ⟨h1, h2, h3, h4, h5⟩ := fill_get? h
    rw [h3, h4]
    exact ⟨h1, h2, hsized, le_refl _, hsized ▸ h5⟩

theorem len_le_insert (h : s.insert t = .ok (i, s')) (hpos : 0 < s.len.toNat) :
    s.len.toNat ≤ s'.len.toNat := by
  unfold insert at h
  split at h
  · split at h
    · cases h
    · rename_i s1 hg
      rw [(fill_get? h).2.2.1]
      exact (growth_spec hg hpos).1.le
  · rw [(fill_get? h).2.2.1]

/-- A slab with a free slot accepts a task, and stays well formed. -/
theorem WF.fill (h : s.WF) (hne : s.head ≠ s.len) (t : α) :
    ∃ i s', s.fill t = .ok (i, s') ∧ s'.WF := by
  obtain ⟨l, hl⟩ := h.chain
  have hmem := hl.head_mem fun he => hne (UInt32.toNat_inj.mp he)
  have hlt : s.head.toNat < s.slots.length := h.sized ▸ hl.lt _ hmem
  obtain ⟨c, hc⟩ := Option.isSome_iff_exists.mp ((hl.mem_iff _).mp hmem)
  obtain ⟨slot, hslot⟩ : ∃ slot, s.slots[s.head.toNat]? = some slot :=
    ⟨_, List.getElem?_eq_getElem hlt⟩
  simp only [link, hslot] at hc
  cases hnext : slot.nextFree with
  | error e => simp [hnext, Except.toOption] at hc
  | ok next =>
    have hfill : s.fill t = .ok (s.head, { s with
        slots := s.slots.set s.head.toNat (.task t)
        head := next
        taskCount := s.taskCount + 1 }) := by
      simp only [Slab.fill, hslot, hnext]
    refine ⟨_, _, hfill, h.small, h.pos, by simpa using h.sized, ⟨l.tail, ?_⟩, ?_, ?_⟩
    · refine hl.pop ?_ ?_ fun j hj => link_set_ne rfl hj
      · simp [link, hslot, hnext, Except.toOption]
      · simp [link, hlt, SlabSlot.nextFree, Except.toOption]
    · intro j hj hlink
      by_cases he : j = s.head.toNat
      · subst he
        exact ⟨t, by simp [hlt]⟩
      · rw [link_set_ne rfl he] at hlink
        obtain ⟨t', ht'⟩ := h.occupied j hj hlink
        exact ⟨t', by simpa [List.getElem?_set_ne (Ne.symm he)] using ht'⟩
    · have hslot' : s.slots[s.head.toNat] = slot := (List.getElem?_eq_some_iff.mp hslot).2
      have hfree : slot.isTask = false := by
        cases slot with
        | task t' => simp [SlabSlot.nextFree] at hnext
        | idx w =>
          simp only [SlabSlot.nextFree, SlabSlot.isFree, beq_iff_eq] at hnext
          split at hnext
          · rename_i hw
            simp [SlabSlot.isTask, hw]
          · cases hnext
      have hcount : (s.taskCount + 1).toNat = s.taskCount.toNat + 1 := by
        have h1 := h.counted
        have h2 := List.countP_le_length (p := SlabSlot.isTask) (l := s.slots)
        have h3 := h.sized
        have h4 := h.small
        rw [UInt32.toNat_add, show (1 : UInt32).toNat = 1 from rfl]
        omega
      show (s.taskCount + 1).toNat = (s.slots.set s.head.toNat (.task t)).countP _
      rw [hcount, List.countP_set hlt, hslot', hfree, h.counted]
      rfl

/-- `insert` keeps the invariant, as long as the slab stays below `2^31`. -/
theorem WF.insert (h : s.WF) (hi : s.insert t = .ok (i, s')) (hsmall : s'.len.toNat < 2 ^ 31) :
    s'.WF := by
  unfold Slab.insert at hi
  split at hi
  · rename_i hfull
    split at hi
    · cases hi
    · rename_i s1 hg
      have hs1 : s1.WF := h.growth hfull hg ((fill_get? hi).2.2.1 ▸ hsmall)
      have hne : s1.head ≠ s1.len := fun he => by
        have hlt := (growth_spec hg h.pos).1
        rw [← he, (growth_spec hg h.pos).2.1, hfull] at hlt
        exact absurd hlt (lt_irrefl _)
      obtain ⟨i1, s2, h2, hwf⟩ := hs1.fill hne t
      obtain ⟨-, rfl⟩ := Prod.mk.inj (Except.ok.inj (h2.symm.trans hi))
      exact hwf
  · rename_i hne
    obtain ⟨i1, s2, h2, hwf⟩ := h.fill hne t
    obtain ⟨-, rfl⟩ := Prod.mk.inj (Except.ok.inj (h2.symm.trans hi))
    exact hwf

/-- `insert` does not fail while the slab has room below `2^31`. -/
theorem WF.insert_ok (h : s.WF) (hroom : s.head ≠ s.len ∨ s.len.toNat * 2 < 2 ^ 31) (t : α) :
    ∃ i s', s.insert t = .ok (i, s') ∧ s'.len.toNat < 2 ^ 31 := by
  unfold Slab.insert
  by_cases hfull : s.head = s.len
  · have hroom : s.len.toNat * 2 < 2 ^ 31 := hroom.resolve_left fun hne => hne hfull
    have hlen : (s.len * 2).toNat = s.len.toNat * 2 := by
      rw [UInt32.toNat_mul, show (2 : UInt32).toNat = 2 from rfl]
      exact Nat.mod_eq_of_lt (by omega)
    have hmax : s.len ≠ 4294967295 := fun he => by
      rw [he] at hroom
      exact absurd hroom (by decide)
    obtain ⟨s1, hg, hs1⟩ : ∃ s1, s.growth = .ok s1 ∧ s1.len = s.len * 2 := by
      unfold Slab.growth
      simp only [hmax, if_false, show s.len.toNat * 2 < 2 ^ 32 by omega, if_true]
      exact ⟨_, rfl, rfl⟩
    have hsmall : s1.len.toNat < 2 ^ 31 := by rw [hs1, hlen]; exact hroom
    have hne : s1.head ≠ s1.len := fun he => by
      have hlt := (growth_spec hg h.pos).1
      rw [← he, (growth_spec hg h.pos).2.1, hfull] at hlt
      exact absurd hlt (lt_irrefl _)
    obtain ⟨i, s2, h2, hwf⟩ := (h.growth hfull hg hsmall).fill hne t
    simp only [hfull, if_true, hg, h2]
    exact ⟨i, s2, rfl, hwf.small⟩
  · obtain ⟨i, s2, h2, hwf⟩ := h.fill hfull t
    simp only [hfull, if_false, h2]
    exact ⟨i, s2, rfl, hwf.small⟩

/-! ## `remove` and `remove_dropped_task` -/

/-- **What taking a task out does**: the key is unbound, everything else stays. -/
theorem take_spec (hget : s.get? i = some t) (hsized : s.slots.length = s.len.toNat) :
    ∃ s', s.take i = .ok (.task t, s') ∧ s'.get? = Function.update s.get? i none ∧
      s'.len = s.len ∧ s'.slots.length = s.slots.length ∧
      s'.slots = s.slots.set i.toNat (freeSlot s.head) ∧ s'.head = i ∧
      s'.taskCount = s.taskCount - 1 := by
  have hslot := get?_eq_some.mp hget
  have hlt := (List.getElem?_eq_some_iff.mp hslot).1
  have hlen : ¬ s.len ≤ i := by
    rw [UInt32.le_iff_toNat_le]
    omega
  refine ⟨{ s with
      slots := s.slots.set i.toNat (freeSlot s.head)
      head := i
      taskCount := s.taskCount - 1 }, ?_, ?_, rfl, ?_, rfl, rfl, rfl⟩
  · simp only [take, hlen, if_false, hslot, SlabSlot.isTask, if_true]
  · funext j
    rw [get?_set hlt rfl, Function.update_apply]
    rfl
  · exact List.length_set

/-- Taking a task out keeps the invariant. -/
theorem WF.take (h : s.WF) (hget : s.get? i = some t) :
    ∃ s', s.take i = .ok (.task t, s') ∧ s'.get? = Function.update s.get? i none ∧ s'.WF := by
  obtain ⟨s', htake, hmap, hlen, hlength, hslots, hhead, hcount⟩ := take_spec hget h.sized
  have hslot := get?_eq_some.mp hget
  have hlt := (List.getElem?_eq_some_iff.mp hslot).1
  obtain ⟨l, hl⟩ := h.chain
  have hsmall : s.head.toNat < 2 ^ 31 := by
    have := h.small
    by_cases he : s.head.toNat = s.len.toNat
    · omega
    · have := hl.lt _ (hl.head_mem he)
      omega
  refine ⟨s', htake, hmap, hlen ▸ h.small, hlen ▸ h.pos, by rw [hlength, hlen, h.sized],
    ⟨i.toNat :: l, ?_⟩, fun j hj hlink => ?_, ?_⟩
  · rw [hhead, hlen]
    refine hl.push (by rw [← h.sized]; exact hlt) (link_eq_none_of_get? hget) ?_
      fun j hj => link_set_ne hslots hj
    exact link_freeSlot (by rw [hslots, List.getElem?_set_self hlt]) hsmall
  · by_cases he : j = i.toNat
    · subst he
      rw [link_freeSlot (by rw [hslots, List.getElem?_set_self hlt]) hsmall] at hlink
      cases hlink
    · rw [link_set_ne hslots he] at hlink
      rw [hslots, List.getElem?_set_ne (Ne.symm he)]
      exact h.occupied j (hlen ▸ hj) hlink
  · have hslot' : s.slots[i.toNat] = .task t := (List.getElem?_eq_some_iff.mp hslot).2
    have hpos : 0 < s.slots.countP SlabSlot.isTask :=
      List.countP_pos_iff.mpr ⟨_, List.mem_of_getElem? hslot, rfl⟩
    rw [hcount, hslots, List.countP_set hlt, hslot', isTask_freeSlot, ← h.counted]
    rw [← h.counted] at hpos
    have hle : (1 : UInt32) ≤ s.taskCount := UInt32.le_iff_toNat_le.mpr hpos
    rw [UInt32.toNat_sub_of_le _ _ hle]
    rfl

theorem len_removeDroppedTask (h : s.removeDroppedTask i = .ok s') : s'.len = s.len := by
  unfold Slab.removeDroppedTask Slab.take at h
  split at h
  · cases h
  · rename_i htake
    obtain rfl := Except.ok.inj h
    split at htake
    · cases htake
    · split at htake
      · cases htake
      · split at htake
        · obtain ⟨-, rfl⟩ := Prod.mk.inj (Except.ok.inj htake)
          rfl
        · cases htake

/-- What is taken out was a task. -/
theorem WF.removeDroppedTask (h : s.WF) (hr : s.removeDroppedTask i = .ok s') : s'.WF := by
  obtain ⟨t, ht⟩ : ∃ t, s.get? i = some t := by
    unfold Slab.removeDroppedTask at hr
    split at hr
    · cases hr
    · rename_i slot s1 htake
      unfold Slab.take at htake
      split at htake
      · cases htake
      · rename_i hlen
        split at htake
        · cases htake
        · rename_i old hold
          split at htake
          · rename_i htask
            have hlink : s.link i.toNat = none := by
              cases old with
              | task t => exact link_eq_none_of_get? (get?_eq_some.mpr hold)
              | idx word =>
                have hnot : ¬ word &&& 1 = 1 := by
                  simp only [SlabSlot.isTask, beq_iff_eq] at htask
                  rw [htask]
                  decide
                simp [link, hold, SlabSlot.nextFree, SlabSlot.isFree, hnot, Except.toOption]
            rw [UInt32.le_iff_toNat_le] at hlen
            obtain ⟨t, ht⟩ := h.occupied i.toNat (by omega) hlink
            exact ⟨t, get?_eq_some.mpr ht⟩
          · cases htake
  obtain ⟨s1, htake, -, hwf⟩ := h.take ht
  simp only [Slab.removeDroppedTask, htake] at hr
  obtain rfl := Except.ok.inj hr
  exact hwf

/-- The count is zero exactly when no slot is occupied. -/
theorem WF.count_eq_zero_iff (h : s.WF) : s.count = 0 ↔ ∀ i, s.get? i = none := by
  have hcount : s.count = 0 ↔ ∀ slot ∈ s.slots, ¬ slot.isTask = true := by
    rw [count, ← UInt32.toNat_inj, h.counted]
    exact List.countP_eq_zero
  rw [hcount]
  constructor
  · intro hnone i
    rw [Option.eq_none_iff_forall_ne_some]
    intro t ht
    exact hnone _ (List.mem_of_getElem? (get?_eq_some.mp ht)) rfl
  · intro hnone slot hslot htask
    obtain ⟨j, hj⟩ := List.mem_iff_getElem?.mp hslot
    have hlt : j < s.len.toNat := by
      rw [← h.sized]
      exact (List.getElem?_eq_some_iff.mp hj).1
    have hsmall := h.small
    -- a slot that is linked is free, so this one holds a task
    have hlink : s.link j = none := by
      rw [← Option.not_isSome_iff_eq_none, link_isSome_iff]
      rintro ⟨slot', hj', hfree⟩
      obtain rfl := Option.some.inj (hj.symm.trans hj')
      cases slot with
      | task t => cases hfree
      | idx word =>
        simp only [SlabSlot.isFree, SlabSlot.isTask, beq_iff_eq] at hfree htask
        rw [htask] at hfree
        cases hfree
    obtain ⟨t, ht⟩ := h.occupied j hlt hlink
    have hget : s.get? (UInt32.ofNat j) = some t := by
      rw [get?_eq_some, toNat_ofNat_index (by omega)]
      exact ht
    rw [hnone] at hget
    cases hget

/-- Every slot holds a task or is free. Unlike `WF` this needs no bound. -/
def Linked (s : Slab α) : Prop := ∀ slot ∈ s.slots, slot.isFree = true ∨ ∃ t, slot = .task t

theorem Linked.withCapacity {c : { c : UInt32 // c ≠ 0 }}
    (h : (withCapacity c : Except Fault (Slab α)) = .ok s) : s.Linked := by
  intro slot hslot
  rw [(withCapacity_spec h).1] at hslot
  obtain ⟨next, rfl⟩ := exists_freeSlot_of_mem_chained hslot
  exact .inl (isFree_freeSlot next)

theorem Linked.set (h : s.Linked) {j : Nat} {slot : SlabSlot α} (hs : s'.slots = s.slots.set j slot)
    (hslot : slot.isFree = true ∨ ∃ t, slot = .task t) : s'.Linked := by
  intro slot' hslot'
  rw [hs] at hslot'
  rcases List.mem_or_eq_of_mem_set hslot' with hmem | rfl
  · exact h slot' hmem
  · exact hslot

theorem Linked.insert (h : s.Linked) (hi : s.insert t = .ok (i, s')) (hpos : 0 < s.len.toNat) :
    s'.Linked := by
  have hfill : ∀ {s1 : Slab α}, s1.Linked → s1.fill t = .ok (i, s') → s'.Linked := by
    intro s1 h1 hf
    unfold fill at hf
    split at hf
    · cases hf
    · split at hf
      · cases hf
      · obtain ⟨-, rfl⟩ := Prod.mk.inj (Except.ok.inj hf)
        exact h1.set rfl (.inr ⟨t, rfl⟩)
  unfold Slab.insert at hi
  split at hi
  · split at hi
    · cases hi
    · rename_i s1 hg
      refine hfill (fun slot hslot => ?_) hi
      rw [(growth_spec hg hpos).2.2.2] at hslot
      rcases List.mem_append.mp hslot with hslot | hslot
      · exact h slot hslot
      · obtain ⟨next, rfl⟩ := exists_freeSlot_of_mem_chained hslot
        exact .inl (isFree_freeSlot next)
  · exact hfill h hi

theorem Linked.removeDroppedTask (h : s.Linked) (hr : s.removeDroppedTask i = .ok s') :
    s'.Linked := by
  unfold Slab.removeDroppedTask Slab.take at hr
  split at hr
  · cases hr
  · rename_i htake
    obtain rfl := Except.ok.inj hr
    split at htake
    · cases htake
    · split at htake
      · cases htake
      · split at htake
        · obtain ⟨-, rfl⟩ := Prod.mk.inj (Except.ok.inj htake)
          exact h.set rfl (.inl (isFree_freeSlot _))
        · cases htake

theorem remove_spec (h : s.WF) (hget : s.get? i = some t) :
    ∃ s', s.remove i = .ok (t, s') ∧ s'.get? = Function.update s.get? i none ∧ s'.WF := by
  obtain ⟨s', htake, hmap, hwf⟩ := h.take hget
  exact ⟨s', by simp only [remove, htake], hmap, hwf⟩

theorem removeDroppedTask_spec (h : s.WF) (hget : s.get? i = some t) :
    ∃ s', s.removeDroppedTask i = .ok s' ∧ s'.get? = Function.update s.get? i none ∧ s'.WF := by
  obtain ⟨s', htake, hmap, hwf⟩ := h.take hget
  exact ⟨s', by simp only [removeDroppedTask, htake], hmap, hwf⟩

end Slab

/-! ## Whole sequences of operations -/

/-- An operation that was made, with what it returned. -/
inductive SlabEvent (α : Type) where
  | inserted (i : SlabIdx) (t : α)
  /-- `remove` returned `t`. -/
  | removed (i : SlabIdx) (t : α)
  /-- `remove_dropped_task`. -/
  | dropped (i : SlabIdx)

/-- A map under one operation. -/
def SlabEvent.apply (m : SlabIdx → Option α) : SlabEvent α → SlabIdx → Option α
  | .inserted i t => Function.update m i (some t)
  | .removed i _ => Function.update m i none
  | .dropped i => Function.update m i none

/-- The map that a sequence of operations describes. -/
def contents (h : List (SlabEvent α)) : SlabIdx → Option α :=
  h.foldl SlabEvent.apply fun _ => none

/-- The task of the latest `insert` at index `i`. -/
def latestInsert (i : SlabIdx) (h : List (SlabEvent α)) : Option α :=
  h.foldl (fun acc e => match e with
    | .inserted j t => if j = i then some t else acc
    | _ => acc) none

/-- The slabs reached from `with_capacity(c)` by operations on occupied indices that keep `len`
below `2^31`, with the operations made. -/
inductive SlabRun (c : { c : UInt32 // c ≠ 0 }) : List (SlabEvent α) → Slab α → Prop where
  | withCapacity {s : Slab α} (h : Slab.withCapacity c = .ok s) (hsmall : s.len.toNat < 2 ^ 31) :
      SlabRun c [] s
  | insert {h : List (SlabEvent α)} {s s' : Slab α} {i : SlabIdx} {t : α} (hr : SlabRun c h s)
      (hi : s.insert t = .ok (i, s')) (hsmall : s'.len.toNat < 2 ^ 31) :
      SlabRun c (h ++ [.inserted i t]) s'
  | remove {h : List (SlabEvent α)} {s s' : Slab α} {i : SlabIdx} {t : α} (hr : SlabRun c h s)
      (hocc : (s.get? i).isSome) (hi : s.remove i = .ok (t, s')) :
      SlabRun c (h ++ [.removed i t]) s'
  | removeDroppedTask {h : List (SlabEvent α)} {s s' : Slab α} {i : SlabIdx} (hr : SlabRun c h s)
      (hocc : (s.get? i).isSome) (hi : s.removeDroppedTask i = .ok s') :
      SlabRun c (h ++ [.dropped i]) s'

theorem contents_append (h : List (SlabEvent α)) (e : SlabEvent α) :
    contents (h ++ [e]) = e.apply (contents h) := by
  simp [contents]

/-- What the map holds at `i` was stored by the latest `insert` there. -/
theorem latestInsert_of_contents {i : SlabIdx} {t : α} (h : List (SlabEvent α)) :
    contents h i = some t → latestInsert i h = some t := by
  induction h using List.reverseRecOn with
  | nil => exact fun hc => nomatch hc
  | append_singleton h e ih =>
    rw [contents_append]
    cases e with
    | inserted j t' =>
      intro hc
      simp only [SlabEvent.apply, Function.update_apply] at hc
      simp only [latestInsert, List.foldl_append, List.foldl_cons, List.foldl_nil]
      by_cases hj : i = j
      · simpa [hj] using hc
      · rw [if_neg hj] at hc
        rw [if_neg (Ne.symm hj)]
        exact ih hc
    | removed j t' =>
      intro hc
      simp only [SlabEvent.apply, Function.update_apply] at hc
      split at hc
      · cases hc
      · simpa [latestInsert] using ih hc
    | dropped j =>
      intro hc
      simp only [SlabEvent.apply, Function.update_apply] at hc
      split at hc
      · cases hc
      · simpa [latestInsert] using ih hc

/-- Every slab that a sequence of operations reaches is well formed and stands for its map. -/
theorem SlabRun.wf {c : { c : UInt32 // c ≠ 0 }} {h : List (SlabEvent α)} {s : Slab α}
    (hr : SlabRun c h s) : s.WF ∧ s.get? = contents h := by
  induction hr with
  | withCapacity hc hsmall => exact ⟨.withCapacity hc hsmall, Slab.withCapacity_get? hc⟩
  | insert hr hi hsmall ih =>
    obtain ⟨hwf, hmap⟩ := ih
    refine ⟨hwf.insert hi hsmall, ?_⟩
    rw [contents_append, (Slab.insert_spec hi hwf.pos hwf.sized).2.1, hmap]
    rfl
  | remove hr hocc hi ih =>
    obtain ⟨hwf, hmap⟩ := ih
    obtain ⟨t, ht⟩ := Option.isSome_iff_exists.mp hocc
    obtain ⟨s1, h1, hmap1, hwf1⟩ := Slab.remove_spec hwf ht
    obtain ⟨rfl, rfl⟩ := Prod.mk.inj (Except.ok.inj (h1.symm.trans hi))
    refine ⟨hwf1, ?_⟩
    rw [contents_append, hmap1, hmap]
    rfl
  | removeDroppedTask hr hocc hi ih =>
    obtain ⟨hwf, hmap⟩ := ih
    obtain ⟨t, ht⟩ := Option.isSome_iff_exists.mp hocc
    obtain ⟨s1, h1, hmap1, hwf1⟩ := Slab.removeDroppedTask_spec hwf ht
    obtain rfl := Except.ok.inj (h1.symm.trans hi)
    refine ⟨hwf1, ?_⟩
    rw [contents_append, hmap1, hmap]
    rfl

/-- **The slab refines a finite map with fresh keys.** After any sequence of operations from
`with_capacity(c)` with `len` below `2^31`: the free list from `head` visits every free slot once
and ends at `len`; every other slot holds a task; `task_count` counts them; the slab stands for
`contents h`; and the next `insert`, `remove`, `remove_dropped_task` or `growth` acts on that
map. -/
theorem slab_run_refines {c : { c : UInt32 // c ≠ 0 }} {h : List (SlabEvent α)} {s : Slab α}
    (hr : SlabRun c h s) :
    (∃ l, Path s.link s.len.toNat s.head.toNat l ∧ l.Nodup ∧
      ∀ i, i ∈ l ↔ ∃ slot, s.slots[i]? = some slot ∧ slot.isFree = true) ∧
    (∀ i : Nat, i < s.len.toNat → (∃ slot, s.slots[i]? = some slot ∧ slot.isFree = true) ∨
      ∃ t, s.slots[i]? = some (.task t)) ∧
    s.count.toNat = s.slots.countP SlabSlot.isTask ∧
    s.get? = contents h ∧
    (∀ t, s.head ≠ s.len ∨ s.len.toNat * 2 < 2 ^ 31 →
      ∃ i s', s.insert t = .ok (i, s') ∧ s'.len.toNat < 2 ^ 31) ∧
    (∀ t i s', s.insert t = .ok (i, s') →
      s.get? i = none ∧ s'.get? = Function.update s.get? i (some t)) ∧
    (∀ i, (s.get? i).isSome → ∃ t s', s.remove i = .ok (t, s') ∧ latestInsert i h = some t ∧
      s'.get? = Function.update s.get? i none) ∧
    (∀ i, (s.get? i).isSome → ∃ s', s.removeDroppedTask i = .ok s' ∧
      s'.get? = Function.update s.get? i none) ∧
    ∀ s', s.growth = .ok s' → s'.get? = s.get? := by
  obtain ⟨hwf, hmap⟩ := hr.wf
  obtain ⟨l, hl⟩ := hwf.chain
  refine ⟨⟨l, hl.path, hl.nodup, fun i => ?_⟩, fun i hi => ?_, hwf.counted, hmap,
    fun t hroom => hwf.insert_ok hroom t, fun t i s' hi => ?_, fun i hocc => ?_, fun i hocc => ?_,
    fun s' hg => Slab.growth_get? hg hwf.pos⟩
  · rw [hl.mem_iff, Slab.link_isSome_iff]
  · cases hlink : s.link i with
    | none => exact .inr (hwf.occupied i hi hlink)
    | some j => exact .inl (Slab.link_isSome_iff.mp (by rw [hlink]; rfl))
  · obtain ⟨hfresh, hupd, -⟩ := Slab.insert_spec hi hwf.pos hwf.sized
    exact ⟨hfresh, hupd⟩
  · obtain ⟨t, ht⟩ := Option.isSome_iff_exists.mp hocc
    obtain ⟨s', h1, hupd, -⟩ := Slab.remove_spec hwf ht
    exact ⟨t, s', h1, latestInsert_of_contents h (hmap ▸ ht), hupd⟩
  · obtain ⟨t, ht⟩ := Option.isSome_iff_exists.mp hocc
    obtain ⟨s', h1, hupd, -⟩ := Slab.removeDroppedTask_spec hwf ht
    exact ⟨s', h1, hupd⟩

/-- The two slots of `free_list_reuse`: filled, then the first one taken out again. -/
theorem slab_run_refines_reuse :
    ∃ (h : List (SlabEvent Nat)) (s : Slab Nat), SlabRun ⟨2, by decide⟩ h s ∧
      s.get? 0 = none ∧ s.get? 1 = some 8 ∧ s.get? = contents h := by
  have h0 : SlabRun ⟨2, by decide⟩ ([] : List (SlabEvent Nat)) ⟨[.idx 3, .idx 5], 0, 2, 0⟩ :=
    .withCapacity (by decide) (by decide)
  have h1 : SlabRun ⟨2, by decide⟩ [SlabEvent.inserted 0 7] ⟨[.task 7, .idx 5], 1, 2, 1⟩ :=
    .insert h0 (by decide) (by decide)
  have h2 : SlabRun ⟨2, by decide⟩ [SlabEvent.inserted 0 7, .inserted 1 8]
      ⟨[.task 7, .task 8], 2, 2, 2⟩ := .insert h1 (by decide) (by decide)
  have h3 : SlabRun ⟨2, by decide⟩ [SlabEvent.inserted 0 7, .inserted 1 8, .removed 0 7]
      ⟨[.idx 5, .task 8], 0, 2, 1⟩ := .remove h2 (by decide) (by decide)
  exact ⟨_, _, h3, by decide, by decide, (slab_run_refines h3).2.2.2.1⟩

end Onlyio
