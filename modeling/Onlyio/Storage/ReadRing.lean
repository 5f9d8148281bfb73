import Onlyio.Model.BufPool
import Mathlib.Data.List.Range
import Mathlib.Data.Nat.Bitwise
import Mathlib.Data.Int.ModEq

/-!
# The ring of read buffers

The `buf_ring` is memory shared with the kernel: 16 bytes an entry, and the tail in the last two
bytes of entry `0`. The kernel keeps the head. `ReadRing mem base n head ids` says what the bytes
mean: the entries from `head` on are those of `ids`, in order, and the tail is where they end.

* `load_write`, `load_write_ne`: bytes that are stored are loaded, others stay.
* `ReadRing.new`: every slot of the pool is in the ring.
* `ReadRing.release_eq`, **`ReadRing.release`**: `release_buf_to_ring` appends one id and touches no
  other entry.
* `ReadRing.take`: the kernel takes the id at the head.
-/

namespace Onlyio

namespace BufRing

/-- Load `n` bytes at `off`, little-endian. -/
def load (mem : BufRing) (off : Nat) : Nat → Nat
  | 0 => 0
  | n + 1 => (mem off).toNat + 256 * mem.load (off + 1) n

variable {mem mem' : BufRing} {off n v : Nat}

theorem readU16_eq_load (mem : BufRing) (off : Nat) : mem.readU16 off = mem.load off 2 := rfl

theorem load_congr (h : ∀ i, off ≤ i → i < off + n → mem' i = mem i) :
    mem'.load off n = mem.load off n := by
  induction n generalizing off with
  | zero => rfl
  | succ n ih =>
    rw [load, load, h off (Nat.le_refl off) (by omega), ih fun i h1 h2 => h i (by omega) (by omega)]

theorem load_eq_mod (h : ∀ i, i < n → (mem (off + i)).toNat = v / 256 ^ i % 256) :
    mem.load off n = v % 256 ^ n := by
  induction n generalizing off v with
  | zero => simp [load, Nat.mod_one]
  | succ n ih =>
    have hrest : mem.load (off + 1) n = v / 256 % 256 ^ n := ih fun i hi => by
      rw [Nat.add_assoc, Nat.add_comm 1 i, h (i + 1) (by omega), Nat.pow_succ',
        Nat.div_div_eq_div_mul]
    have hfirst := h 0 (Nat.succ_pos n)
    rw [Nat.add_zero, Nat.pow_zero, Nat.div_one] at hfirst
    rw [load, hrest, hfirst, Nat.pow_succ', Nat.mod_mul]

/-- What is stored is loaded. -/
theorem load_write (mem : BufRing) (off n v : Nat) :
    (mem.write off n v).load off n = v % 256 ^ n := by
  refine load_eq_mod fun i hi => ?_
  rw [write, if_pos ⟨Nat.le_add_right off i, by omega⟩, Nat.add_sub_cancel_left]
  exact UInt8.toNat_ofNat'

/-- What is stored elsewhere changes nothing. -/
theorem load_write_ne (mem : BufRing) {off n o m : Nat} (v : Nat) (h : o + m ≤ off ∨ off + n ≤ o) :
    (mem.write off n v).load o m = mem.load o m := by
  refine load_congr fun i h1 h2 => ?_
  rw [write, if_neg]
  omega

/-- Entry `j` of the ring is that of the slot `id`. -/
structure Entry (mem : BufRing) (base j : Nat) (id : UInt32) : Prop where
  addr : mem.load (j * 16) 8 = (base + id.toNat * BufPool.bufSize 1) % 2 ^ 64
  len : mem.load (j * 16 + 8) 4 = BufPool.bufSize 1
  bid : mem.load (j * 16 + 12) 2 = id.toNat % 2 ^ 16

theorem entry_writeEntry (mem : BufRing) (base j : Nat) (id : UInt32) :
    (mem.writeEntry (j * 16) (base + id.toNat * BufPool.bufSize 1)
      (BufPool.bufSize 1) id.toNat).Entry base j id := by
  unfold writeEntry
  refine ⟨?_, ?_, ?_⟩
  · rw [load_write_ne _ _ (by omega), load_write_ne _ _ (by omega), load_write]
    rfl
  · rw [load_write_ne _ _ (by omega), load_write]
    rfl
  · rw [load_write]
    rfl

theorem Entry.congr {base j : Nat} {id : UInt32} (h : mem.Entry base j id)
    (hmem : ∀ i, j * 16 ≤ i → i < j * 16 + 14 → mem' i = mem i) : mem'.Entry base j id where
  addr := (load_congr fun i h1 h2 => hmem i h1 (by omega)).trans h.addr
  len := (load_congr fun i h1 h2 => hmem i (by omega) (by omega)).trans h.len
  bid := (load_congr fun i h1 h2 => hmem i (by omega) (by omega)).trans h.bid

end BufRing

/-- The ring of `n` entries holds `ids`, from `head` on. -/
structure ReadRing (mem : BufRing) (base n head : Nat) (ids : List UInt32) : Prop where
  tail : mem.readU16 14 = (head + ids.length) % 2 ^ 16
  room : ids.length ≤ n
  entry : ∀ i id, ids[i]? = some id → mem.Entry base ((head + i) % n) id

namespace ReadRing

variable {mem : BufRing} {base n head : Nat} {ids : List UInt32}

/-- The kernel takes the id at the head. -/
theorem take {id : UInt32} (h : ReadRing mem base n head (id :: ids)) :
    ReadRing mem base n (head + 1) ids where
  tail := by
    rw [h.tail, List.length_cons]
    congr 1
    omega
  room := Nat.le_of_succ_le h.room
  entry i id hi := by
    have he := h.entry (i + 1) id hi
    rwa [← Nat.add_assoc, Nat.add_right_comm] at he

/-- Two places of a ring that is not full are different. -/
theorem slot_ne {i j : Nat} (hij : i < j) (hj : j < n) : (head + i) % n ≠ (head + j) % n := by
  intro heq
  have hdvd : n ∣ head + j - (head + i) := (Nat.modEq_iff_dvd' (by omega)).mp heq
  have hle := Nat.le_of_dvd (by omega) hdvd
  omega

/-- The stores of `release_buf_to_ring`, with the place of the entry. -/
theorem release_eq {p : BufPool 1} {k : Nat} {idx : UInt32} (h : ReadRing mem p.base n head ids)
    (hn : n = 2 ^ k) (hk : k ≤ 15) (hcount : p.readCount.toNat = n) (hidx : idx < p.readCount) :
    mem.release p idx = .ok ((mem.writeEntry ((head + ids.length) % n * 16)
      (p.base + idx.toNat * BufPool.bufSize 1) (BufPool.bufSize 1) idx.toNat).write 14 2
        (mem.readU16 14 + 1)) := by
  have hdvd : n ∣ 2 ^ 16 := hn ▸ Nat.pow_dvd_pow 2 (by omega)
  have hslot : mem.readU16 14 &&& (p.readCount.toNat - 1) = (head + ids.length) % n := by
    rw [hcount, h.tail, hn, Nat.and_two_pow_sub_one_eq_mod, ← hn, Nat.mod_mod_of_dvd _ hdvd]
  simp only [BufRing.release, BufPool.readBufAddr, hidx, if_true, hslot, bind, Except.bind, pure,
    Except.pure]

/-- `release_buf_to_ring`: the id comes after the others, and no entry before it changes. -/
theorem release {p : BufPool 1} {k : Nat} {idx : UInt32} (h : ReadRing mem p.base n head ids)
    (hn : n = 2 ^ k) (hk : k ≤ 15) (hcount : p.readCount.toNat = n) (hidx : idx < p.readCount)
    (hroom : ids.length < n) :
    ∃ mem', mem.release p idx = .ok mem' ∧ ReadRing mem' p.base n head (ids ++ [idx]) := by
  have hrel := h.release_eq hn hk hcount hidx
  generalize hs : (head + ids.length) % n = slot at hrel
  refine ⟨_, hrel, ?_, ?_, ?_⟩
  · rw [BufRing.readU16_eq_load, BufRing.load_write, h.tail, List.length_append,
      List.length_singleton]
    omega
  · rw [List.length_append, List.length_singleton]
    exact hroom
  · intro i id hi
    -- the tail is in bytes that no entry has
    have hbytes : ∀ j b, j * 16 ≤ b → b < j * 16 + 14 → ∀ mem' : BufRing, ∀ v,
        mem'.write 14 2 v b = mem' b := by
      intro j b h1 h2 mem' v
      rw [BufRing.write, if_neg]
      omega
    rcases Nat.lt_trichotomy i ids.length with hi' | rfl | hi'
    · rw [List.getElem?_append_left hi'] at hi
      have hne : (head + i) % n ≠ slot := hs ▸ slot_ne hi' hroom
      refine (h.entry i id hi).congr fun b h1 h2 => ?_
      rw [hbytes _ b h1 h2]
      simp only [BufRing.writeEntry, BufRing.write]
      rw [if_neg (by omega), if_neg (by omega), if_neg (by omega)]
    · rw [List.getElem?_concat_length] at hi
      obtain rfl := Option.some.inj hi
      rw [hs]
      exact (BufRing.entry_writeEntry mem p.base slot idx).congr fun b h1 h2 => hbytes _ b h1 h2 _ _
    · rw [List.getElem?_eq_none (by simp; omega)] at hi
      cases hi

/-- `Runtime::new`: every read slot is available. -/
theorem new (base : Nat) {readCount : UInt32} (h : readCount.toNat ≤ 2 ^ 15) :
    ReadRing (.new base readCount) base readCount.toNat 0
      ((List.range readCount.toNat).map UInt32.ofNat) := by
  have hfill : ∀ m ≤ readCount.toNat, ∀ j < m, ((List.range m).foldl (fun (mem : BufRing) i =>
      mem.writeEntry (i * 16) (base + i * BufPool.bufSize 1) (BufPool.bufSize 1) i)
        fun _ => 0).Entry base j (UInt32.ofNat j) := by
    intro m
    induction m with
    | zero => exact fun _ j hj => absurd hj (Nat.not_lt_zero j)
    | succ m ih =>
      intro hm j hj
      rw [List.range_succ, List.foldl_append]
      have hnat : (UInt32.ofNat m).toNat = m :=
        UInt32.toNat_ofNat_of_lt' (by show m < 2 ^ 32; omega)
      rcases Nat.lt_succ_iff_lt_or_eq.mp hj with hj | rfl
      · refine (ih (by omega) j hj).congr fun b h1 h2 => ?_
        simp only [List.foldl, BufRing.writeEntry, BufRing.write]
        rw [if_neg (by omega), if_neg (by omega), if_neg (by omega)]
      · have he := BufRing.entry_writeEntry ((List.range j).foldl (fun (mem : BufRing) i =>
          mem.writeEntry (i * 16) (base + i * BufPool.bufSize 1) (BufPool.bufSize 1) i) fun _ => 0)
          base j (UInt32.ofNat j)
        rwa [hnat] at he
  refine ⟨?_, ?_, fun i id hi => ?_⟩
  · rw [BufRing.readU16_eq_load, BufRing.new, BufRing.load_write]
    simp
  · simp
  · rw [List.getElem?_map] at hi
    obtain ⟨j, hj, rfl⟩ := Option.map_eq_some_iff.mp hi
    obtain ⟨hlt, heq⟩ := List.getElem?_eq_some_iff.mp hj
    rw [List.length_range] at hlt
    rw [List.getElem_range] at heq
    subst heq
    rw [Nat.zero_add, Nat.mod_eq_of_lt hlt]
    refine (hfill _ (Nat.le_refl _) i hlt).congr fun b h1 h2 => ?_
    rw [BufRing.new, BufRing.write, if_neg]
    omega

end ReadRing

end Onlyio
