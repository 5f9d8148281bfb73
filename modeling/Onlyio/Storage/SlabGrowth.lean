import Onlyio.Storage.SlabMap

/-!
# The slab at every size

A free link is stored as `(next << 1) | 1` in 32 bits and read back with `>> 1`: 31 bits of it
survive. `with_capacity` asks for a capacity of at most `u32::MAX / 2`, so that every link fits, but
`growth` doubles the length up to `u32::MAX`. From `2^31` on the sentinel of the free list, `len`
itself, is read back as another index.

* `nextFree_freeSlot_iff`: the links that are read back.
* `SlabReach`: every slab the code admits, with the links that were written, growths in between
  included.
* `SlabReach.small`, `SlabReach.no_path`: below `2^31` the slab is well formed, from there on the
  free list never arrives at `len`.
* **`slab_growth_sound_iff`**: links, free list and `insert` are sound exactly as long as `len <
  2^31`.
* `grown_slab_meets_task`: at `2^31` the free list leads back to a live task.
-/

namespace Onlyio

open Lib

variable {α : Type}

/-! ## Links -/

/-- `next_free` gives back 31 bits of what `free_slot` was given. -/
theorem nextFree_freeSlot_mod (next : UInt32) :
    ∃ back : UInt32, (freeSlot next : SlabSlot α).nextFree = .ok back ∧
    back.toNat = next.toNat % 2 ^ 31 := by
  have hfree := isFree_freeSlot (α := α) next
  have hshift : (next <<< 1).toNat = (next.toNat % 2 ^ 31) <<< 1 := by
    rw [UInt32.toNat_shiftLeft]
    show next.toNat <<< 1 % 2 ^ 32 = _
    rw [Nat.shiftLeft_eq, Nat.shiftLeft_eq]
    omega
  have hword : (next <<< 1 ||| 1).toNat = next.toNat % 2 ^ 31 * 2 + 1 := by
    rw [UInt32.toNat_or, hshift, show (1 : UInt32).toNat = 1 from rfl,
      ← Nat.shiftLeft_add_eq_or_of_lt (by decide : 1 < 2 ^ 1), Nat.shiftLeft_eq]
  refine ⟨(next <<< 1 ||| 1) >>> 1, ?_, ?_⟩
  · simp only [freeSlot] at hfree
    simp only [freeSlot, SlabSlot.nextFree, hfree, if_true]
  · rw [UInt32.toNat_shiftRight, hword]
    simp only [show (1 : UInt32).toNat % 32 = 1 from rfl, Nat.shiftRight_eq_div_pow]
    omega

/-- A link is read back exactly when it is below `2^31`. -/
theorem nextFree_freeSlot_iff (next : UInt32) :
    (freeSlot next : SlabSlot α).nextFree = .ok next ↔ next.toNat < 2 ^ 31 := by
  refine ⟨fun h => ?_, nextFree_freeSlot next⟩
  obtain ⟨back, hback, hmod⟩ := nextFree_freeSlot_mod (α := α) next
  obtain rfl := Except.ok.inj (hback.symm.trans h)
  omega

/-- No slot reads a link of `2^31` or more. -/
theorem nextFree_lt {slot : SlabSlot α} {next : UInt32} (h : slot.nextFree = .ok next) :
    next.toNat < 2 ^ 31 := by
  cases slot with
  | task t => cases h
  | idx word =>
    simp only [SlabSlot.nextFree] at h
    split at h
    · obtain rfl := Except.ok.inj h
      rw [UInt32.toNat_shiftRight]
      have hlt := word.toNat_lt
      simp only [show (1 : UInt32).toNat % 32 = 1 from rfl, Nat.shiftRight_eq_div_pow]
      omega
    · cases h

/-! ## Every slab the code admits -/

/-- The links that `with_capacity` (from `0`) and `growth` (from the old length) write: the slot,
and the index that is encoded there. -/
def linksFrom (lo hi : Nat) : List (Nat × UInt32) :=
  (List.range' lo (hi - 1 - lo)).map (fun i => (i, UInt32.ofNat (i + 1))) ++
    [(hi - 1, UInt32.ofNat hi)]

/-- The slabs reached from `with_capacity(c)`, with the links written so far. An `insert` into a
full slab is a `growth` and an `insert` into the slab that has grown. -/
inductive SlabReach (c : { c : UInt32 // c ≠ 0 }) : List (Nat × UInt32) → Slab α → Prop where
  | withCapacity {s : Slab α} (h : Slab.withCapacity c = .ok s) :
      SlabReach c (linksFrom 0 s.len.toNat) s
  | growth {links : List (Nat × UInt32)} {s s' : Slab α} (hr : SlabReach c links s)
      (hfull : s.head = s.len) (h : s.growth = .ok s') :
      SlabReach c (links ++ linksFrom s.len.toNat s'.len.toNat) s'
  | insert {links : List (Nat × UInt32)} {s s' : Slab α} {i : SlabIdx} {t : α}
      (hr : SlabReach c links s) (hroom : s.head ≠ s.len) (h : s.insert t = .ok (i, s')) :
      SlabReach c links s'
  | remove {links : List (Nat × UInt32)} {s s' : Slab α} {i : SlabIdx} {t : α}
      (hr : SlabReach c links s) (hocc : (s.get? i).isSome) (h : s.remove i = .ok (t, s')) :
      SlabReach c (links ++ [(i.toNat, s.head)]) s'
  | removeDroppedTask {links : List (Nat × UInt32)} {s s' : Slab α} {i : SlabIdx}
      (hr : SlabReach c links s) (hocc : (s.get? i).isSome) (h : s.removeDroppedTask i = .ok s') :
      SlabReach c (links ++ [(i.toNat, s.head)]) s'

/-- The growth of a slab is sound: every link is read back as it was encoded, the free list visits
the free slots and ends at `len`, and the slot that `insert` takes holds no task. -/
structure GrowthSound (links : List (Nat × UInt32)) (s : Slab α) : Prop where
  decodes : ∀ l ∈ links, (freeSlot l.2 : SlabSlot α).nextFree = .ok l.2
  chain : ∃ l, Path s.link s.len.toNat s.head.toNat l ∧ l.Nodup ∧
    ∀ i, i ∈ l ↔ ∃ slot, s.slots[i]? = some slot ∧ slot.isFree = true
  target : s.get? s.head = none
  fresh : ∀ t i s', s.insert t = .ok (i, s') → s.get? i = none ∧
    s'.get? = Function.update s.get? i (some t)

/-- `remove` does to the slab what `remove_dropped_task` does. -/
theorem Slab.removeDroppedTask_of_remove {s s' : Slab α} {i : SlabIdx} {t : α}
    (h : s.remove i = .ok (t, s')) : s.removeDroppedTask i = .ok s' := by
  unfold Slab.remove at h
  unfold Slab.removeDroppedTask
  split at h
  · cases h
  · rename_i htake
    obtain ⟨-, rfl⟩ := Prod.mk.inj (Except.ok.inj h)
    rw [htake]
  · cases h

/-- The slot that was taken out is the head of the free list, inside the slab. -/
theorem Slab.head_of_removeDroppedTask {s s' : Slab α} {i : SlabIdx}
    (h : s.removeDroppedTask i = .ok s') : s'.head = i ∧ i.toNat < s'.len.toNat := by
  unfold Slab.removeDroppedTask Slab.take at h
  split at h
  · cases h
  · rename_i htake
    obtain rfl := Except.ok.inj h
    split at htake
    · cases htake
    · rename_i hlen
      rw [UInt32.le_iff_toNat_le, Nat.not_le] at hlen
      split at htake
      · cases htake
      · split at htake
        · obtain ⟨-, rfl⟩ := Prod.mk.inj (Except.ok.inj htake)
          exact ⟨rfl, hlen⟩
        · cases htake

theorem mem_linksFrom {lo hi : Nat} {l : Nat × UInt32} (h : l ∈ linksFrom lo hi) :
    ∃ k ≤ hi, l.2 = UInt32.ofNat k := by
  rcases List.mem_append.mp h with h | h
  · obtain ⟨i, hi, rfl⟩ := List.mem_map.mp h
    rw [List.mem_range'_1] at hi
    exact ⟨i + 1, by omega, rfl⟩
  · rw [List.mem_singleton] at h
    exact ⟨hi, Nat.le_refl hi, h ▸ rfl⟩

theorem sentinel_mem_linksFrom (lo : Nat) (len : UInt32) :
    (len.toNat - 1, len) ∈ linksFrom lo len.toNat := by
  refine List.mem_append_right _ ?_
  rw [List.mem_singleton, UInt32.ofNat_toNat]

namespace SlabReach

variable {c : { c : UInt32 // c ≠ 0 }} {links : List (Nat × UInt32)} {s s' : Slab α}

theorem len_pos (hr : SlabReach c links s) : 0 < s.len.toNat := by
  induction hr with
  | withCapacity h => exact (Slab.withCapacity_spec h).2.2.2.2
  | growth _ _ h ih => exact Nat.lt_trans ih (Slab.growth_spec h ih).1
  | insert _ _ h ih => exact Nat.lt_of_lt_of_le ih (Slab.len_le_insert h ih)
  | remove _ _ h ih => rwa [Slab.len_removeDroppedTask (Slab.removeDroppedTask_of_remove h)]
  | removeDroppedTask _ _ h ih => rwa [Slab.len_removeDroppedTask h]

/-- Below `2^31` the slab is well formed, and every link that was written fits. -/
theorem small (hr : SlabReach c links s) (hsmall : s.len.toNat < 2 ^ 31) :
    s.WF ∧ ∀ l ∈ links, l.2.toNat < 2 ^ 31 := by
  have hfits : ∀ {lo hi : Nat}, hi < 2 ^ 31 → ∀ l ∈ linksFrom lo hi, l.2.toNat < 2 ^ 31 := by
    intro lo hi hlt l hl
    obtain ⟨k, hk, he⟩ := mem_linksFrom hl
    rw [he, toNat_ofNat_index (by omega)]
    omega
  have hhead : ∀ {s : Slab α}, s.WF → s.head.toNat < 2 ^ 31 := by
    intro s hwf
    obtain ⟨l, hl⟩ := hwf.chain
    have hlen := hwf.small
    by_cases he : s.head.toNat = s.len.toNat
    · omega
    · have hlt := hl.lt _ (hl.head_mem he)
      omega
  have hremove : ∀ {links : List (Nat × UInt32)} {s s' : Slab α} {i : SlabIdx},
      (s.WF ∧ ∀ l ∈ links, l.2.toNat < 2 ^ 31) → s.removeDroppedTask i = .ok s' →
        s'.WF ∧ ∀ l ∈ links ++ [(i.toNat, s.head)], l.2.toNat < 2 ^ 31 := by
    intro links s s' i ih h
    refine ⟨ih.1.removeDroppedTask h, fun l hl => ?_⟩
    rcases List.mem_append.mp hl with hl | hl
    · exact ih.2 l hl
    · rw [List.mem_singleton] at hl
      exact hl ▸ hhead ih.1
  induction hr with
  | withCapacity h => exact ⟨.withCapacity h hsmall, hfits hsmall⟩
  | growth hr hfull h ih =>
    have hlt := (Slab.growth_spec h hr.len_pos).1
    obtain ⟨hwf, hold⟩ := ih (Nat.lt_trans hlt hsmall)
    refine ⟨hwf.growth hfull h hsmall, fun l hl => ?_⟩
    rcases List.mem_append.mp hl with hl | hl
    · exact hold l hl
    · exact hfits hsmall l hl
  | insert hr _ h ih =>
    obtain ⟨hwf, hold⟩ := ih (Nat.lt_of_le_of_lt (Slab.len_le_insert h hr.len_pos) hsmall)
    exact ⟨hwf.insert h hsmall, hold⟩
  | remove _ _ h ih =>
    have hdrop := Slab.removeDroppedTask_of_remove h
    exact hremove (ih (by rwa [Slab.len_removeDroppedTask hdrop] at hsmall)) hdrop
  | removeDroppedTask _ _ h ih =>
    exact hremove (ih (by rwa [Slab.len_removeDroppedTask h] at hsmall)) h

/-- The length itself is among the links: it is the sentinel of the last growth. -/
theorem sentinel (hr : SlabReach c links s) : ∃ i, (i, s.len) ∈ links := by
  induction hr with
  | withCapacity h => exact ⟨_, sentinel_mem_linksFrom 0 _⟩
  | growth _ _ _ _ => exact ⟨_, List.mem_append_right _ (sentinel_mem_linksFrom _ _)⟩
  | insert _ hroom h ih =>
    simp only [Slab.insert, hroom, if_false] at h
    rwa [(Slab.fill_get? h).2.2.1]
  | remove _ _ h ih =>
    rw [Slab.len_removeDroppedTask (Slab.removeDroppedTask_of_remove h)]
    exact ih.imp fun i hi => List.mem_append_left _ hi
  | removeDroppedTask _ _ h ih =>
    rw [Slab.len_removeDroppedTask h]
    exact ih.imp fun i hi => List.mem_append_left _ hi

/-- From `2^31` on, `head` is never `len`: no link leads there. -/
theorem head_ne_len (hr : SlabReach c links s) (hbig : 2 ^ 31 ≤ s.len.toNat) : s.head ≠ s.len := by
  have hremove : ∀ {s s' : Slab α} {i : SlabIdx}, s.removeDroppedTask i = .ok s' →
      s'.head ≠ s'.len := by
    intro s s' i h he
    obtain ⟨hhead, hlt⟩ := Slab.head_of_removeDroppedTask h
    rw [← he, hhead] at hlt
    exact Nat.lt_irrefl _ hlt
  cases hr with
  | withCapacity h =>
    obtain ⟨-, -, hhead, -, hpos⟩ := Slab.withCapacity_spec h
    rw [hhead]
    exact fun he => Nat.lt_irrefl _ (by rw [← he] at hpos; exact hpos)
  | growth hr hfull h =>
    obtain ⟨hlt, hhead, -, -⟩ := Slab.growth_spec h hr.len_pos
    rw [hhead, hfull]
    exact fun he => Nat.lt_irrefl _ (by rw [he] at hlt; exact hlt)
  | insert _ hroom h =>
    simp only [Slab.insert, hroom, if_false] at h
    obtain ⟨slot, next, -, hnext, -, rfl⟩ := Slab.fill_spec h
    intro he
    have hlt := nextFree_lt hnext
    have heq : next = _ := he
    rw [heq] at hlt
    exact Nat.not_le.mpr hlt hbig
  | remove _ _ h => exact hremove (Slab.removeDroppedTask_of_remove h)
  | removeDroppedTask _ _ h => exact hremove h

/-- From `2^31` on, no path of links arrives at `len`. -/
theorem no_path (hr : SlabReach c links s) (hbig : 2 ^ 31 ≤ s.len.toNat) (l : List Nat) :
    ¬ Path s.link s.len.toNat s.head.toNat l := by
  have hlink : ∀ (l : List Nat) {a : Nat}, a ≠ s.len.toNat → ¬ Path s.link s.len.toNat a l := by
    intro l
    induction l with
    | nil => exact fun hne hp => hne hp
    | cons b l ih =>
      rintro a - ⟨rfl, next, hnext, hp⟩
      refine ih (fun he => ?_) hp
      -- a link has 31 bits
      unfold Slab.link at hnext
      split at hnext
      · obtain ⟨n, hn, rfl⟩ := Option.map_eq_some_iff.mp hnext
        rename_i slot _
        have hok : slot.nextFree = .ok n := by
          cases hs : slot.nextFree with
          | error e =>
            rw [hs] at hn
            cases hn
          | ok m =>
            rw [hs] at hn
            rw [Option.some.inj hn]
        have hlt := nextFree_lt hok
        omega
      · cases hnext
  exact hlink l fun he => hr.head_ne_len hbig (UInt32.toNat_inj.mp he)

end SlabReach

/-- **The slab is sound exactly below `2^31`.** For every capacity that `with_capacity` accepts and
every slab that is reached from it, at any number of growths: every link written so far is read back
as it was encoded, the free list runs through the free slots to `len`, and `insert` takes a free
slot, if and only if `len < 2^31`. -/
theorem slab_growth_sound_iff {c : { c : UInt32 // c ≠ 0 }}
    {links : List (Nat × UInt32)} {s : Slab α} (hr : SlabReach c links s) :
    GrowthSound links s ↔ s.len.toNat < 2 ^ 31 := by
  constructor
  · intro h
    obtain ⟨i, hi⟩ := hr.sentinel
    have hback : (freeSlot s.len : SlabSlot α).nextFree = .ok s.len := h.decodes (i, s.len) hi
    rw [nextFree_freeSlot_iff] at hback
    exact hback
  · intro hsmall
    obtain ⟨hwf, hlinks⟩ := hr.small hsmall
    obtain ⟨l, hl⟩ := hwf.chain
    refine ⟨fun l hl => nextFree_freeSlot l.2 (hlinks l hl),
      ⟨l, hl.path, hl.nodup, fun i => ?_⟩, ?_, fun t i s' h => ?_⟩
    · rw [hl.mem_iff, Slab.link_isSome_iff]
    · by_cases hfull : s.head.toNat = s.len.toNat
      · -- a full slab has no slot at `len`; `insert` writes the one that `growth` puts there
        unfold Slab.get?
        rw [List.getElem?_eq_none (by rw [hwf.sized, hfull])]
        rfl
      · obtain ⟨j, hj⟩ := Option.isSome_iff_exists.mp ((hl.mem_iff _).mp (hl.head_mem hfull))
        exact Slab.get?_eq_none_of_link hj
    · obtain ⟨hfresh, hupd, -⟩ := Slab.insert_spec h hwf.pos hwf.sized
      exact ⟨hfresh, hupd⟩

/-- The two slots of `free_list_reuse` and one growth: a slab of four with three tasks. -/
theorem slab_growth_sound_four :
    ∃ (links : List (Nat × UInt32)) (s : Slab Nat), SlabReach ⟨2, by decide⟩ links s ∧ s.len = 4 ∧
      GrowthSound links s := by
  have h0 : SlabReach (α := Nat) ⟨2, by decide⟩ _ ⟨[.idx 3, .idx 5], 0, 2, 0⟩ :=
    .withCapacity (by decide)
  have h1 : SlabReach (α := Nat) ⟨2, by decide⟩ _ ⟨[.task 7, .idx 5], 1, 2, 1⟩ :=
    .insert h0 (by decide) (i := 0) (t := 7) (by decide)
  have h2 : SlabReach (α := Nat) ⟨2, by decide⟩ _ ⟨[.task 7, .task 8], 2, 2, 2⟩ :=
    .insert h1 (by decide) (i := 1) (t := 8) (by decide)
  have h3 : SlabReach (α := Nat) ⟨2, by decide⟩ _ ⟨[.task 7, .task 8, .idx 7, .idx 9], 2, 4, 2⟩ :=
    .growth h2 rfl (by decide)
  have h4 : SlabReach (α := Nat) ⟨2, by decide⟩ _ ⟨[.task 7, .task 8, .task 9, .idx 9], 3, 4, 3⟩ :=
    .insert h3 (by decide) (i := 2) (t := 9) (by decide)
  exact ⟨_, _, h4, rfl, (slab_growth_sound_iff h4).mpr (by decide)⟩

/-! ## A slab of `2^31` slots -/

/-- A slab of `len` slots that was filled in order up to `k`, and nothing taken out. -/
structure Filled (s : Slab Nat) (len : UInt32) (k : Nat) : Prop where
  len_eq : s.len = len
  sized : s.slots.length = len.toNat
  head : s.head = UInt32.ofNat k
  task : ∀ i, i < k → s.slots[i]? = some (.task 0)
  free : ∀ i, k ≤ i → i < len.toNat → s.slots[i]? = some (freeSlot (UInt32.ofNat (i + 1)))

namespace Filled

variable {s s' : Slab Nat} {len : UInt32} {k : Nat}

theorem withCapacity {c : { c : UInt32 // c ≠ 0 }} (h : Slab.withCapacity c = .ok s) :
    Filled s c.val 0 := by
  obtain ⟨hslots, hlen, hhead, -, hpos⟩ := Slab.withCapacity_spec h
  rw [hlen] at hslots hpos
  refine ⟨hlen, ?_, hhead, fun i hi => absurd hi (Nat.not_lt_zero i), fun i _ hi => ?_⟩
  · rw [hslots, Slab.length_chained hpos, Nat.sub_zero]
  · rw [hslots, Slab.chained_getElem? hpos, if_pos (by omega), Nat.zero_add]

/-- `insert` fills the next slot, and `head` becomes what is read back of the link there. -/
theorem fill (h : Filled s len k) (hk : k < len.toNat) {next : UInt32}
    (hnext : (freeSlot (UInt32.ofNat (k + 1)) : SlabSlot Nat).nextFree = .ok next) :
    ∃ s', s.head ≠ s.len ∧ s.insert 0 = .ok (UInt32.ofNat k, s') ∧ s'.len = len ∧
      s'.slots.length = len.toNat ∧ s'.head = next ∧
      (∀ i, i < k + 1 → s'.slots[i]? = some (.task 0)) ∧ ∀ i, k + 1 ≤ i → i < len.toNat →
        s'.slots[i]? = some (freeSlot (UInt32.ofNat (i + 1))) := by
  have hhead : s.head.toNat = k := by
    rw [h.head]
    exact UInt32.toNat_ofNat_of_lt' (Nat.lt_trans hk len.toNat_lt)
  have hroom : s.head ≠ s.len := by
    intro he
    rw [he, h.len_eq] at hhead
    omega
  refine ⟨{ s with slots := s.slots.set k (.task 0), head := next, taskCount := s.taskCount + 1 },
    hroom, ?_, h.len_eq, by rw [List.length_set, h.sized], rfl, fun i hi => ?_,
    fun i hlo hhi => ?_⟩
  · simp only [Slab.insert, hroom, if_false, Slab.fill, hhead, h.free k (Nat.le_refl k) hk, hnext]
    rw [h.head]
  · by_cases he : i = k
    · rw [he, List.getElem?_set_self (by rw [h.sized]; exact hk)]
    · rw [List.getElem?_set_ne (Ne.symm he)]
      exact h.task i (by omega)
  · rw [List.getElem?_set_ne (by omega)]
    exact h.free i (by omega) hhi

/-- Inserting on, as long as every link that is read is below `2^31`. -/
theorem insert_upto {c : { c : UInt32 // c ≠ 0 }} {links : List (Nat × UInt32)}
    (hr : SlabReach c links s) (h : Filled s len k) {m : Nat} (hkm : k ≤ m) (hlen : m ≤ len.toNat)
    (hsmall : m < 2 ^ 31) : ∃ s', SlabReach c links s' ∧ Filled s' len m := by
  induction m, hkm using Nat.le_induction with
  | base => exact ⟨s, hr, h⟩
  | succ m _ ih =>
    obtain ⟨s1, hr1, h1⟩ := ih (by omega) (by omega)
    have hnext : (freeSlot (UInt32.ofNat (m + 1)) : SlabSlot Nat).nextFree =
        .ok (UInt32.ofNat (m + 1)) :=
      nextFree_freeSlot _ (by rw [toNat_ofNat_index hsmall]; exact hsmall)
    obtain ⟨s2, hroom, hins, hl, hsized, hhead, htask, hfree⟩ := h1.fill (by omega) hnext
    exact ⟨s2, .insert hr1 hroom hins, hl, hsized, hhead, htask, hfree⟩

theorem growth (h : Filled s len len.toNat) (hpos : 0 < len.toNat) (hg : s.growth = .ok s') :
    s.head = s.len ∧ Filled s' s'.len len.toNat := by
  have hhead : s.head = len := by rw [h.head, UInt32.ofNat_toNat]
  have hspec := Slab.growth_spec hg (by rw [h.len_eq]; exact hpos)
  have hsized := Slab.growth_sized hg (by rw [h.len_eq]; exact hpos) (by rw [h.len_eq, h.sized])
  obtain ⟨hlt, hkeep, -, hslots⟩ := hspec
  rw [h.len_eq] at hlt hslots
  refine ⟨by rw [hhead, h.len_eq], rfl, hsized, by
    rw [hkeep, h.head], fun i hi => ?_, fun i hlo hhi => ?_⟩
  · rw [hslots, List.getElem?_append_left (by rw [h.sized]; exact hi)]
    exact h.task i hi
  · rw [hslots, List.getElem?_append_right (by rw [h.sized]; exact hlo), h.sized,
      Slab.chained_getElem? hlt, if_pos (by omega)]
    congr 3
    omega

end Filled

/-- The slab of `with_capacity(2^30)` is filled, grows to `2^31`, and is filled again. The last
slot's link is `2^31` and is read back as `0`: the slab does not look full, and the slot that the
next `insert` takes is that of the first task. The `debug_assert!` of `next_free` panics there;
without it the task is overwritten. -/
theorem grown_slab_meets_task :
    ∃ (links : List (Nat × UInt32)) (s : Slab Nat), SlabReach ⟨0x40000000, by decide⟩ links s ∧
      s.len = 0x80000000 ∧ (freeSlot s.len : SlabSlot Nat).nextFree = .ok 0 ∧ s.head = 0 ∧
      s.get? 0 = some 0 ∧ (∀ l, ¬ Path s.link s.len.toNat s.head.toNat l) ∧
      s.insert 1 = .error (.panic .nextFree) ∧ ¬ GrowthSound links s := by
  have hhalf : (0x40000000 : UInt32).toNat = 0x40000000 := rfl
  have hfull : (0x80000000 : UInt32).toNat = 0x80000000 := rfl
  -- the capacity is admitted, and its slots are filled
  obtain ⟨s0, h0⟩ : ∃ s0 : Slab Nat, Slab.withCapacity ⟨0x40000000, by decide⟩ = .ok s0 := by
    unfold Slab.withCapacity
    exact ⟨_, if_pos (by decide)⟩
  obtain ⟨s1, hr1, h1⟩ :=
    Filled.insert_upto (.withCapacity h0) (.withCapacity h0) (Nat.zero_le 0x40000000)
    (Nat.le_of_eq hhalf.symm) (by decide)
  -- the slab doubles
  obtain ⟨s2, hg, hlen2⟩ : ∃ s2, s1.growth = .ok s2 ∧ s2.len = 0x80000000 := by
    unfold Slab.growth
    refine ⟨_, if_neg (by rw [h1.len_eq]; decide), ?_⟩
    rw [h1.len_eq]
    rfl
  obtain ⟨hhead1, h2⟩ := Filled.growth h1 (by decide) hg
  rw [hlen2] at h2
  obtain ⟨s3, hr3, h3⟩ :=
    Filled.insert_upto (.growth hr1 hhead1 hg) h2 (show 0x40000000 ≤ 0x7FFFFFFF by decide)
    (by rw [hfull]; decide) (by decide)
  -- the last link has its top bit cut off
  have hlast : (freeSlot (UInt32.ofNat (0x7FFFFFFF + 1)) : SlabSlot Nat).nextFree =
    .ok 0 := by decide
  obtain ⟨s, hroom, hins, hlen, -, hhead, htask, -⟩ := h3.fill (by rw [hfull]; decide) hlast
  have hr := SlabReach.insert hr3 hroom hins
  have hbig : 2 ^ 31 ≤ s.len.toNat := by rw [hlen, hfull]; decide
  have hslot : s.slots[s.head.toNat]? = some (.task 0) := by
    rw [hhead]
    exact htask 0 (by decide)
  refine ⟨_, s, hr, hlen, ?_, hhead, Slab.get?_eq_some.mpr (htask 0 (by decide)),
    hr.no_path hbig, ?_, ?_⟩
  · rw [hlen]
    decide
  · simp only [Slab.insert, hr.head_ne_len hbig, if_false, Slab.fill, hslot, SlabSlot.nextFree]
  · intro hsound
    obtain ⟨l, hl, -⟩ := hsound.chain
    exact hr.no_path hbig l hl

end Onlyio
