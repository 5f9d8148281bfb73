import Onlyio.Storage.ReadRing
import Mathlib.Data.List.Nodup
import Mathlib.Data.List.Perm.Subperm

/-!
# The ring over whole runs

The kernel advances the head of the `buf_ring`, the runtime gives ids back with
`release_buf_to_ring`. Both count in 16 bits and take the place of an entry from the low bits of the
counter. Entry `0` shares its last two bytes with the tail, and is itself rewritten once a lap.

* `RingRun.ring`: after any run the ring holds what was given and not taken, in order.
* **`ring_run`**: the distance of tail and head is the number of ids in the ring, each of them is
  there once, in the order of release, and the next release touches neither an entry that is not
  consumed nor the tail, which it advances by one.
-/

namespace Onlyio

open BufRing

/-- The ring in memory, the kernel's head, every id that was given to the kernel so far, and how
many of them it has taken. -/
structure RingState where
  mem : BufRing
  head : UInt16
  given : List UInt32
  taken : Nat

/-- The ids in the ring, in the order of their release. -/
def RingState.ids (st : RingState) : List UInt32 := st.given.drop st.taken

/-- The rings reached from `Runtime::new`, when the kernel takes an entry only while head and tail
differ and the runtime releases only ids that are not in the ring. -/
inductive RingRun (base : Nat) (n : UInt32) : RingState → Prop where
  | new : RingRun base n ⟨.new base n, 0, (List.range n.toNat).map UInt32.ofNat, 0⟩
  | consume {st : RingState} (hr : RingRun base n st) (hne : st.head.toNat ≠ st.mem.readU16 14) :
      RingRun base n { st with head := st.head + 1, taken := st.taken + 1 }
  | release {st : RingState} {p : BufPool 1} {idx : UInt32} {mem : BufRing} (hr : RingRun base n st)
      (hbase : p.base = base) (hcount : p.readCount = n) (hout : idx ∉ st.ids)
      (h : st.mem.release p idx = .ok mem) :
      RingRun base n { st with mem, given := st.given ++ [idx] }

/-- What every run keeps: the bytes hold the ids in the ring, which are slots of the pool, each
once. -/
structure RingSound (base : Nat) (n : UInt32) (st : RingState) : Prop where
  ring : ReadRing st.mem base n.toNat st.taken st.ids
  head : st.head.toNat = st.taken % 2 ^ 16
  taken : st.taken ≤ st.given.length
  nodup : st.ids.Nodup
  lt : ∀ id ∈ st.ids, id < n

namespace RingSound

variable {base k : Nat} {n idx : UInt32} {st : RingState}

/-- An id that is not in the ring finds a free place. -/
theorem room (h : RingSound base n st) (hidx : idx < n) (hout : idx ∉ st.ids) :
    st.ids.length < n.toNat := by
  have hnodup : (idx :: st.ids).Nodup := List.nodup_cons.mpr ⟨hout, h.nodup⟩
  have hsub : (idx :: st.ids).map UInt32.toNat ⊆ List.range n.toNat := by
    intro i hi
    obtain ⟨id, hid, rfl⟩ := List.mem_map.mp hi
    rw [List.mem_range]
    rcases List.mem_cons.mp hid with rfl | hid
    · exact UInt32.lt_iff_toNat_lt.mp hidx
    · exact UInt32.lt_iff_toNat_lt.mp (h.lt id hid)
  have hinj : ((idx :: st.ids).map UInt32.toNat).Nodup := 
    List.Nodup.map (fun _ _ he => UInt32.toNat_inj.mp he) hnodup
  have hle := (List.subperm_of_subset hinj hsub).length_le
  rwa [List.length_map, List.length_cons, List.length_range] at hle

theorem new (hn : n.toNat ≤ 2 ^ 15) :
    RingSound base n ⟨.new base n, 0, (List.range n.toNat).map UInt32.ofNat, 0⟩ := by
  have hnat : ∀ i < n.toNat, (UInt32.ofNat i).toNat = i := fun i hi =>
    UInt32.toNat_ofNat_of_lt' (Nat.lt_trans hi n.toNat_lt)
  refine ⟨ReadRing.new base hn, rfl, Nat.zero_le _, ?_, fun id hid => ?_⟩
  · refine List.Nodup.map_on (fun i hi j hj he => ?_) List.nodup_range
    rw [← hnat i (List.mem_range.mp hi), ← hnat j (List.mem_range.mp hj), he]
  · obtain ⟨i, hi, rfl⟩ := List.mem_map.mp hid
    rw [UInt32.lt_iff_toNat_lt, hnat i (List.mem_range.mp hi)]
    exact List.mem_range.mp hi

/-- The kernel takes the id at the head; the ring was not empty. -/
theorem consume (h : RingSound base n st) (hne : st.head.toNat ≠ st.mem.readU16 14) :
    RingSound base n { st with head := st.head + 1, taken := st.taken + 1 } := by
  have hlt : st.taken < st.given.length := by
    by_contra hge
    have hids : st.ids = [] := List.drop_eq_nil_of_le (Nat.not_lt.mp hge)
    rw [h.ring.tail, hids, h.head] at hne
    exact hne rfl
  have hcons : st.ids = st.given[st.taken] :: st.given.drop (st.taken + 1) :=
    List.drop_eq_getElem_cons hlt
  have hring := h.ring
  have hnodup := h.nodup
  rw [hcons] at hring hnodup
  refine ⟨hring.take, ?_, hlt, (List.nodup_cons.mp hnodup).2, fun id hid => h.lt id ?_⟩
  · show (st.head + 1).toNat = (st.taken + 1) % 2 ^ 16
    rw [UInt16.toNat_add, h.head]
    show (st.taken % 2 ^ 16 + 1) % 2 ^ 16 = _
    omega
  · rw [hcons]
    exact List.mem_cons_of_mem _ hid

/-- A released id comes last. -/
theorem release {p : BufPool 1} {mem : BufRing} (h : RingSound base n st)
    (hn : n.toNat = 2 ^ k) (hk : k ≤ 15) (hbase : p.base = base) (hcount : p.readCount = n)
    (hout : idx ∉ st.ids) (hrel : st.mem.release p idx = .ok mem) :
    RingSound base n { st with mem, given := st.given ++ [idx] } := by
  subst hbase hcount
  have hidx : idx < p.readCount := by
    by_contra hge
    simp [BufRing.release, BufPool.readBufAddr, hge, bind, Except.bind] at hrel
  obtain ⟨mem', hmem', hring⟩ := h.ring.release hn hk rfl hidx (h.room hidx hout)
  obtain rfl := Except.ok.inj (hmem'.symm.trans hrel)
  have hids : (st.given ++ [idx]).drop st.taken = st.ids ++ [idx] :=
    List.drop_append_of_le_length h.taken
  refine ⟨?_, h.head, ?_, ?_, fun id hid => ?_⟩
  · unfold RingState.ids
    rw [hids]
    exact hring
  · simp only [List.length_append]
    exact Nat.le_trans h.taken (Nat.le_add_right _ _)
  · unfold RingState.ids
    rw [hids]
    exact List.nodup_append.mpr ⟨h.nodup, List.nodup_singleton idx, fun a ha b hb he => by
      rw [List.mem_singleton] at hb
      exact hout (hb ▸ he ▸ ha)⟩
  · unfold RingState.ids at hid
    rw [hids] at hid
    rcases List.mem_append.mp hid with hid | hid
    · exact h.lt id hid
    · rw [List.mem_singleton] at hid
      exact hid ▸ hidx

end RingSound

theorem RingRun.inv {base k : Nat} {n : UInt32} {st : RingState} (hr : RingRun base n st)
    (hn : n.toNat = 2 ^ k) (hk : k ≤ 15) : RingSound base n st := by
  induction hr with
  | new => exact .new (hn ▸ Nat.pow_le_pow_right (by decide) hk)
  | consume _ hne ih => exact ih.consume hne
  | release _ hbase hcount hout h ih => exact ih.release hn hk hbase hcount hout h

/-- The places of a ring of `2^k` entries do not depend on the lap of the head. -/
theorem place_eq {n taken k : Nat} {head : UInt16} (hn : n = 2 ^ k) (hk : k ≤ 15)
    (h : head.toNat = taken % 2 ^ 16) (i : Nat) : (head.toNat + i) % n = (taken + i) % n := by
  have hdvd : n ∣ 2 ^ 16 := hn ▸ Nat.pow_dvd_pow 2 (by omega)
  rw [h, Nat.add_mod, Nat.mod_mod_of_dvd _ hdvd, ← Nat.add_mod]

/-- **The ring over whole runs.** For a ring of `n = 2^k` entries, `n ≤ 32768`, after any
interleaving of consumptions and releases: `tail - head` modulo `2^16` is the number of ids in the
ring, at most `n`; each id is there once, in the order of release, in the entries from `head` on,
with its address, length and id. A further release succeeds; its stores before the last one leave
the tail alone, the last one advances it by one modulo `2^16`; and no byte of an entry that is not
consumed changes. -/
theorem ring_run {base k : Nat} {n : UInt32} {st : RingState} (hr : RingRun base n st)
    (hn : n.toNat = 2 ^ k) (hk : k ≤ 15) :
    (st.mem.readU16 14 + 2 ^ 16 - st.head.toNat) % 2 ^ 16 = st.ids.length ∧
      st.ids.length ≤ n.toNat ∧
    st.ids.Nodup ∧
    (∀ i id, st.ids[i]? = some id →
      st.mem.load ((st.head.toNat + i) % n.toNat * 16) 8 =
      (base + id.toNat * BufPool.bufSize 1) % 2 ^ 64 ∧
        st.mem.load ((st.head.toNat + i) % n.toNat * 16 + 8) 4 = BufPool.bufSize 1 ∧
      st.mem.load ((st.head.toNat + i) % n.toNat * 16 + 12) 2 = id.toNat) ∧
    ∀ (p : BufPool 1) (idx : UInt32), p.base = base → p.readCount = n → idx < n → idx ∉ st.ids →
      ∃ slot < n.toNat, ∃ entered mem,
        entered = st.mem.writeEntry (slot * 16) (base + idx.toNat * BufPool.bufSize 1)
        (BufPool.bufSize 1)
          idx.toNat ∧
        (∀ b, b = 14 ∨ b = 15 → ¬ (slot * 16 ≤ b ∧ b < slot * 16 + 14) ∧ entered b = st.mem b) ∧
        st.mem.release p idx = .ok mem ∧ mem = entered.write 14 2 (st.mem.readU16 14 + 1) ∧
        mem.readU16 14 = (st.mem.readU16 14 + 1) % 2 ^ 16 ∧
        ∀ i < st.ids.length, ∀ b, b / 16 = (st.head.toNat + i) % n.toNat → b ≠ 14 → b ≠ 15 →
          mem b = st.mem b := by
  have hinv := hr.inv hn hk
  have hplace := place_eq hn hk hinv.head
  have hle : n.toNat ≤ 2 ^ 15 := hn ▸ Nat.pow_le_pow_right (by decide) hk
  have hpos : 0 < n.toNat := hn ▸ Nat.two_pow_pos k
  refine ⟨?_, hinv.ring.room, hinv.nodup, fun i id hi => ?_, fun p idx hbase hcount hidx hout => ?_⟩
  · have hroom := hinv.ring.room
    rw [hinv.ring.tail, hinv.head]
    omega
  · have he := hinv.ring.entry i id hi
    have hid := UInt32.lt_iff_toNat_lt.mp (hinv.lt id (List.mem_of_getElem? hi))
    rw [hplace]
    refine ⟨he.addr, he.len, he.bid.trans (Nat.mod_eq_of_lt ?_)⟩
    omega
  · subst hbase hcount
    have hroom := hinv.room hidx hout
    have hrel := hinv.ring.release_eq hn hk rfl hidx
    refine ⟨(st.taken + st.ids.length) % p.readCount.toNat, Nat.mod_lt _ hpos, _, _, rfl,
      fun b hb => ?_, hrel, rfl, ?_, fun i hi b hb h14 h15 => ?_⟩
    · refine ⟨by omega, ?_⟩
      simp only [BufRing.writeEntry, BufRing.write]
      rw [if_neg (by omega), if_neg (by omega), if_neg (by omega)]
    · rw [readU16_eq_load, load_write]
      rfl
    · -- the entry of the release is none of the unconsumed ones
      have hne : (st.taken + i) % p.readCount.toNat ≠
          (st.taken + st.ids.length) % p.readCount.toNat :=
        ReadRing.slot_ne hi hroom
      rw [hplace] at hb
      simp only [BufRing.writeEntry, BufRing.write]
      rw [if_neg (by omega), if_neg (by omega), if_neg (by omega), if_neg (by omega)]

/-- A ring of two: the kernel takes id `0`, which then comes back behind id `1`. -/
theorem ring_run_of_two :
    ∃ st : RingState, RingRun 4096 2 st ∧ st.ids = [1, 0] ∧ st.mem.readU16 14 = 3 ∧ st.head = 1 ∧
      (st.mem.readU16 14 + 2 ^ 16 - st.head.toNat) % 2 ^ 16 = st.ids.length := by
  let pool : BufPool 1 := ⟨4096, 2, [2], [0]⟩
  have h1 : RingRun 4096 2 ⟨.new 4096 2, 1, [0, 1], 1⟩ := RingRun.new.consume (by decide +kernel)
  have hlt : (0 : UInt32) < pool.readCount := by decide
  have hrel :=
    (h1.inv (k := 1) rfl (by decide)).ring.release_eq (p := pool) (k := 1) rfl (by decide) rfl hlt
  have h2 := h1.release (p := pool) rfl rfl (by decide) hrel
  exact ⟨_, h2, rfl, by decide +kernel, rfl, (ring_run h2 (k := 1) rfl (by decide)).1⟩

end Onlyio
