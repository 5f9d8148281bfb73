import Onlyio.Lib.Custody
import Onlyio.Storage.ReadRing
import Onlyio.Storage.WriteSubmit
import Onlyio.Storage.SlabMap
import Onlyio.Model.Exec
import Mathlib.Algebra.Order.Group.Multiset

/-!
# Who holds the buffers

The abstract machine forgets the buffers. Here they are counted, for every code: a `Token` is a
handle to a write slot, the id of a read slot or of a commit that waits, or something that the
runtime has done with a read slot and not recorded yet. The values of all blocks hold
`State.tokens`, and the logs have settled `State.recorded`.

`Ledger` ties the tokens to the state: the counters of the write pool are the handles; the ids that
came back to the ring are those that futures took from completions, less the ones still held; each
completion with a buffer is on the ring or recorded; and the slab is well formed as long as it is
short.

* `Pooled.alloc`, `Pooled.clone`, `Pooled.drop`: the write pool, counted by tokens.
* `Ledger.congr`, `Ledger.record`: what touches no buffer, and the record of an event.
* **`Ledger.trade`**: how tokens may change, with its cases `repool`, `giveBack` and `exchange`.
-/

namespace Onlyio

open Lib

variable {σ : Type}

/-! ## What values hold -/

/-- What a value holds, or what the runtime has done and not recorded yet. -/
inductive Token where
  /-- A handle to a write slot. -/
  | write (slot : UInt32)
  /-- A `RwBuffer` that gives its slot back when it is dropped. -/
  | read (id : UInt32)
  /-- A commit that waits, and gives the slot back when it is ready. -/
  | commit (id : UInt32)
  /-- A value that the library never makes. -/
  | spoiled
  /-- A completion with this buffer was taken off the ring. -/
  | arrived (id : UInt32)
  /-- A future took the buffer from the context. -/
  | took (id : UInt32)
  /-- A commit has submitted its write. -/
  | committed (id : UInt32)
  /-- A commit was ready. -/
  | settled (id : UInt32)
  deriving DecidableEq

/-- What a `RwBuffer` holds. -/
def RwBuffer.token (b : RwBuffer) : Token := if b.committed then .spoiled else .read b.bufIdx

/-- What a value holds. -/
def Value.tokens : Value → Multiset Token
  | .wBuffer b | .writeMultiple (.init _ b _) | .writeMultiple (.pending _ _ _ _ b) =>
    {.write b.absIdx}
  | .rwBuffer b | .commitFn b _ => {b.token}
  | .commit (.pending id) => {.commit id}
  | .commit (.init _ _ _ _) => {.spoiled}
  | _ => 0

/-- What a poll hands back. -/
def Out.tokens : Out → Multiset Token
  | .buffer b => {b.token}
  | _ => 0

/-- What a local holds. -/
def slotTokens (o : Option Value) : Multiset Token := o.elim 0 Value.tokens

/-- What the locals of a block hold. -/
def tokensOf (L : List (Option Value)) : Multiset Token := (L.map slotTokens).sum

/-! ## What events record -/

/-- The read slot that a completion carries. -/
def selected (flags : UInt32) : Option UInt32 := (bufferSelect flags).map UInt16.toUInt32

/-- The completion carries the slot. -/
def Cqe.carries (id : UInt32) (e : Cqe) : Bool := selected e.flags = some id

/-- What a completion brings. -/
def Cqe.arrival (e : Cqe) : Multiset Token := (selected e.flags).elim 0 fun id => {.arrived id}

theorem Cqe.count_arrival (e : Cqe) (id : UInt32) :
    e.arrival.count (.arrived id) = if e.carries id then 1 else 0 := by
  cases hb : selected e.flags with
  | none => simp [Cqe.arrival, Cqe.carries, hb]
  | some id' => simp [Cqe.arrival, Cqe.carries, hb, Multiset.count_singleton, eq_comm]

theorem Cqe.count_arrival_ne (e : Cqe) {t : Token} (ht : ∀ id, t ≠ .arrived id) :
    e.arrival.count t = 0 := by
  cases hb : selected e.flags with
  | none => simp [Cqe.arrival, hb]
  | some id => simp [Cqe.arrival, hb, ht id]

/-- What polling a value in the context `info` does with a read slot. -/
def Value.owes (info : TaskInfo) : Value → Bool → Multiset Token
  | .read (.pending _), true => (selected info.flags).elim 0 fun id => {.took id}
  | .readStream ⟨_, .running⟩, true =>
    if info.result < 0 then 0 else (selected info.flags).elim 0 fun id => {.took id}
  | .commit (.pending id), true => {.settled id}
  | .commitFn b _, false => {.committed b.bufIdx}
  | _, _ => 0

/-- What an event records of the read slots. -/
def Event.owes : Event → Multiset Token
  | .cqe e _ _ => e.arrival
  | .call _ val info _ r => val.owes info r.isSome
  | _ => 0

/-- What is recorded, and not held. -/
def Token.deed : Token → Bool
  | .arrived _ | .took _ | .committed _ | .settled _ => true
  | _ => false

theorem Event.owes_deed (ev : Event) : ∀ t ∈ ev.owes, t.deed = true := by
  have hopt : ∀ (o : Option UInt32) (g : UInt32 → Token), (∀ id, (g id).deed = true) →
      ∀ t ∈ o.elim (0 : Multiset Token) fun id => {g id}, t.deed = true := by
    intro o g hg t ht
    cases o with
    | none => simp at ht
    | some id =>
      obtain rfl := Multiset.mem_singleton.mp ht
      exact hg id
  cases ev with
  | cqe e cls others => exact hopt _ .arrived fun _ => rfl
  | call v val info rivals r =>
    show ∀ t ∈ val.owes info r.isSome, t.deed = true
    generalize r.isSome = b
    unfold Value.owes
    split
    · exact hopt _ .took fun _ => rfl
    · split
      · simp
      · exact hopt _ .took fun _ => rfl
    · simp [Token.deed]
    · simp [Token.deed]
    · simp
  | spawned | poll | ready | submit | dropped => simp [Event.owes]

/-- An event holds nothing. -/
theorem Event.owes_held (ev : Event) (x : UInt32) : ev.owes.count (.read x) = 0 ∧
    ev.owes.count (.write x) = 0 ∧ ev.owes.count (.commit x) = 0 := by
  have hnot : ∀ t : Token, t.deed = false → ev.owes.count t = 0 := fun t ht =>
    Multiset.count_eq_zero.mpr fun hmem => by
      rw [ev.owes_deed t hmem] at ht
      cases ht
  exact ⟨hnot _ rfl, hnot _ rfl, hnot _ rfl⟩

namespace State

/-- The locals of all blocks. -/
def locals (s : State σ) : List (List (Option Value)) := s.heap.map fun raw => raw.future.locals

/-- The logs of all tasks. -/
def logs (s : State σ) : List (List Event) := s.heap.map RawTask.log

/-- What the blocks hold. -/
def tokens (s : State σ) : Multiset Token := (s.locals.map tokensOf).sum

/-- What the logs record. -/
def recorded (s : State σ) : Multiset Token := (s.logs.map fun log => (log.map Event.owes).sum).sum

end State

/-! ## The write pool -/

/-- The pool of 512 read and 512 write slots, when there are `live a` handles to the slot `a`. -/
def Pooled (p : BufPool 1) (live : UInt32 → Nat) : Prop :=
  ∃ st : PoolState 1, st.pool = p ∧ PoolInv 512 512 st ∧ ∀ a, liveAt st.handles a = live a

namespace Pooled

variable {p p' : BufPool 1} {live live' : UInt32 → Nat} {b b' : WBuffer}

theorem readCount (h : Pooled p live) : p.readCount = 512 := by
  obtain ⟨st, rfl, hinv, -⟩ := h
  exact hinv.readCount

/-- A slot with a token has a handle. -/
theorem handle {st : PoolState 1} (hlive : ∀ a, liveAt st.handles a = live a)
    (hpos : 0 < live b.absIdx) : ∃ hd ∈ st.handles, hd.buf.absIdx = b.absIdx := by
  rw [← hlive] at hpos
  obtain ⟨hd, hmem, habs⟩ := List.countP_pos_iff.mp hpos
  exact ⟨hd, hmem, of_decide_eq_true habs⟩

theorem alloc (h : Pooled p live) (ha : p.allocWrite = .ok (b, p')) :
    Pooled p' (fun a => live a + if b.absIdx = a then 1 else 0) := by
  obtain ⟨st, rfl, hinv, hlive⟩ := h
  refine ⟨_, rfl, hinv.allocWrite ha 0, fun a => ?_⟩
  rw [PoolInv.liveAt_append, hlive]

theorem clone (h : Pooled p live) (hpos : 0 < live b.absIdx) (hc : b.clone p = .ok (b', p')) :
    b' = b ∧ Pooled p' (fun a => live a + if b.absIdx = a then 1 else 0) := by
  obtain ⟨st, rfl, hinv, hlive⟩ := h
  obtain ⟨rfl, hsame⟩ := WBuffer.clone_ok hc
  obtain ⟨hd, hmem, habs⟩ := handle hlive hpos
  refine ⟨rfl, _, rfl, hinv.clone hmem (hsame hd.buf habs) 0, fun a => ?_⟩
  rw [PoolInv.liveAt_append, hlive, habs]

/-- A handle is dropped without fault. -/
theorem drop (h : Pooled p live) (hpos : 0 < live b.absIdx) :
    ∃ p', b.drop p = .ok p' ∧ Pooled p' (fun a => live a - if b.absIdx = a then 1 else 0) := by
  obtain ⟨st, rfl, hinv, hlive⟩ := h
  obtain ⟨hd, hmem, habs⟩ := handle hlive hpos
  obtain ⟨p', hdrop, hinv'⟩ := hinv.drop hmem 0
  refine ⟨p', ?_, _, rfl, hinv', fun a => ?_⟩
  · unfold WBuffer.drop at hdrop ⊢
    rwa [habs] at hdrop
  · have herase := PoolInv.liveAt_erase hmem a
    rw [habs, hlive] at herase
    show liveAt (st.handles.erase hd) a = live a - if b.absIdx = a then 1 else 0
    omega

end Pooled

/-- The base address stays. -/
theorem BufPool.allocWrite_base {N : Nat} {p p' : BufPool N} {b : WBuffer}
    (h : p.allocWrite = .ok (b, p')) : p'.base = p.base := by
  simp only [BufPool.allocWrite, bind, Except.bind] at h
  split at h
  · cases h
  · split at h
    · cases h
    · split at h
      · obtain ⟨-, rfl⟩ := Prod.mk.inj (Except.ok.inj h)
        rfl
      · cases h

theorem WBuffer.clone_base {N : Nat} {p p' : BufPool N} {b b' : WBuffer}
    (h : b.clone p = .ok (b', p')) : p'.base = p.base := by
  simp only [WBuffer.clone, bind, Except.bind] at h
  split at h
  · cases h
  · split at h
    · split at h
      · obtain ⟨-, rfl⟩ := Prod.mk.inj (Except.ok.inj h)
        rfl
      · cases h
    · cases h

theorem WBuffer.drop_base {N : Nat} {p p' : BufPool N} {b : WBuffer} (h : b.drop p = .ok p') :
    p'.base = p.base := by
  simp only [WBuffer.drop, BufPool.decRc, bind, Except.bind] at h
  split at h
  · cases h
  · split at h
    · obtain rfl := Except.ok.inj h
      rfl
    · cases h

/-! ## The ledger -/

/-- What is fixed while the runtime runs: the completions that the kernel has posted so far, the
address of the buffers, and the ring as it was, with the ids that had come back to it. -/
structure Epoch where
  posted : List Cqe
  base : Nat
  back : List UInt32
  mem : BufRing

/-- The ring after the ids `back` came back to it, one by one. -/
inductive Returned (m : Epoch) : List UInt32 → BufRing → Prop where
  | start : Returned m m.back m.mem
  | release {back : List UInt32} {mem mem' : BufRing} {p : BufPool 1} {id : UInt32}
      (h : Returned m back mem) (hbase : p.base = m.base) (hcount : p.readCount = 512)
      (hr : mem.release p id = .ok mem') : Returned m (back ++ [id]) mem'

/-- The tokens `T` are those that exist. -/
structure Ledger (m : Epoch) (s : State σ) (T : Multiset Token) : Prop where
  pos : 0 < s.tasks.len.toNat
  slab : s.tasks.len.toNat < 2 ^ 31 → s.tasks.WF
  linked : s.tasks.Linked
  base : s.buffer.base = m.base
  pool : Pooled s.buffer fun a => T.count (.write a)
  reads : ∃ back, Returned m back s.bufRing ∧ ∀ id,
    back.count id + T.count (.read id) + (s.recorded + T).count (.committed id) =
      (s.recorded + T).count (.took id) + (s.recorded + T).count (.settled id)
  commits : ∀ id, (s.recorded + T).count (.settled id) + T.count (.commit id) ≤
    (s.recorded + T).count (.committed id)
  sound : .spoiled ∉ T
  cq : ∀ e ∈ s.ring.cq, e ∈ m.posted
  posted : ∀ id, m.posted.countP (Cqe.carries id) =
    s.ring.cq.countP (Cqe.carries id) + (s.recorded + T).count (.arrived id)
  logged : ∀ log ∈ s.logs, ∀ e cls others, .cqe e cls others ∈ log → e ∈ m.posted

/-- The tokens `X` may become `Y` while the ids `new` come back to the ring. -/
structure Trade (new : List UInt32) (X Y : Multiset Token) : Prop where
  read : ∀ x, new.count x + Y.count (.read x) + Y.count (.committed x) + X.count (.took x) +
      X.count (.settled x) =
    X.count (.read x) + X.count (.committed x) + Y.count (.took x) + Y.count (.settled x)
  commit : ∀ x, Y.count (.settled x) + Y.count (.commit x) + X.count (.committed x) ≤
    X.count (.settled x) + X.count (.commit x) + Y.count (.committed x)
  arrived : ∀ x, Y.count (.arrived x) = X.count (.arrived x)
  sound : .spoiled ∉ Y

namespace Trade

variable (id : UInt32)

theorem count_eq (x : UInt32) : [id].count x = if x = id then 1 else 0 := by
  rw [List.count_singleton]
  by_cases h : x = id
  · simp [h]
  · simp [h, Ne.symm h]

/-- A `RwBuffer` is dropped. -/
theorem drop : Trade [id] {.read id} 0 := by
  constructor <;> simp [count_eq, Multiset.count_singleton]

/-- A read fails, and gives its buffer back. -/
theorem failed : Trade [id] 0 {.took id} := by
  constructor <;> simp [count_eq, Multiset.count_singleton]

/-- A commit is ready, and gives its buffer back. -/
theorem settle : Trade [id] {.commit id} {.settled id} := by
  constructor <;> simp [count_eq, Multiset.count_singleton]

/-- A future takes a buffer. -/
theorem checkout : Trade [] 0 ({.read id} + {.took id}) := by
  constructor <;> simp [Multiset.count_cons, Multiset.count_singleton]

/-- A commit submits its write. -/
theorem submit : Trade [] {.read id} ({.commit id} + {.committed id}) := by
  constructor <;> simp [Multiset.count_cons, Multiset.count_singleton]

/-- A commit that waits is dropped. -/
theorem forget : Trade [] {.commit id} 0 := by
  constructor <;> simp

/-- Handles to write slots only. -/
theorem writes {X Y : Multiset Token} (hX : ∀ t ∈ X, ∃ a, t = .write a)
    (hY : ∀ t ∈ Y, ∃ a, t = .write a) : Trade [] X Y := by
  have hnot : ∀ {U : Multiset Token}, (∀ t ∈ U, ∃ a, t = Token.write a) → ∀ t, (∀ a, t ≠ .write a) →
      U.count t = 0 := fun hU t ht => Multiset.count_eq_zero.mpr fun hmem => by
    obtain ⟨a, rfl⟩ := hU t hmem
    exact ht a rfl
  refine ⟨fun x => ?_, fun x => ?_, fun x => ?_, Multiset.count_eq_zero.mp (hnot hY _ (by simp))⟩
  · simp [hnot hX, hnot hY]
  · simp [hnot hX, hnot hY]
  · simp [hnot hX, hnot hY]

end Trade

namespace Ledger

variable {m : Epoch} {s s' : State σ} {T T' F : Multiset Token}

/-- The ledger is about these parts of the state. -/
theorem congr (h : Ledger m s T) (htasks : s'.tasks = s.tasks) (hbuffer : s'.buffer = s.buffer)
    (hmem : s'.bufRing = s.bufRing) (hcq : s'.ring.cq = s.ring.cq) (hlogs : s'.logs = s.logs) :
    Ledger m s' T := by
  have hrec : s'.recorded = s.recorded := by simp only [State.recorded, hlogs]
  obtain ⟨back, hback, hids⟩ := h.reads
  refine ⟨htasks ▸ h.pos, htasks ▸ h.slab, htasks ▸ h.linked, hbuffer ▸ h.base, hbuffer ▸ h.pool,
    ⟨back, hmem ▸ hback, ?_⟩, ?_, h.sound, hcq ▸ h.cq, ?_, hlogs ▸ h.logged⟩
  · rw [hrec]
    exact hids
  · rw [hrec]
    exact h.commits
  · rw [hrec, hcq]
    exact h.posted

/-- What was done is recorded. -/
theorem record (h : Ledger m s T) (htasks : s'.tasks = s.tasks) (hbuffer : s'.buffer = s.buffer)
    (hmem : s'.bufRing = s.bufRing) (hcq : s'.ring.cq = s.ring.cq)
    (hall : s'.recorded + T' = s.recorded + T)
    (hheld : ∀ x, T'.count (.read x) = T.count (.read x) ∧
    T'.count (.write x) = T.count (.write x) ∧
      T'.count (.commit x) = T.count (.commit x)) (hsound : .spoiled ∉ T')
    (hlogged : ∀ log ∈ s'.logs, ∀ e cls others, .cqe e cls others ∈ log → e ∈ m.posted) :
    Ledger m s' T' := by
  obtain ⟨back, hback, hids⟩ := h.reads
  refine ⟨htasks ▸ h.pos, htasks ▸ h.slab, htasks ▸ h.linked, hbuffer ▸ h.base, ?_,
    ⟨back, hmem ▸ hback, fun id => ?_⟩, fun id => ?_, hsound, hcq ▸ h.cq, fun id => ?_, hlogged⟩
  · rw [hbuffer]
    simp only [(hheld _).2.1]
    exact h.pool
  · rw [hall, (hheld id).1]
    exact hids id
  · rw [hall, (hheld id).2.2]
    exact h.commits id
  · rw [hall, hcq]
    exact h.posted id

/-- Tokens are traded, while the ids `new` come back to the ring. -/
theorem trade {new : List UInt32} (h : Ledger m s (F + T)) (hT : Trade new T T')
    (htasks : s'.tasks = s.tasks) (hcq : s'.ring.cq = s.ring.cq) (hlogs : s'.logs = s.logs)
    (hbase : s'.buffer.base = s.buffer.base)
    (hpool : Pooled s'.buffer fun a => (F + T').count (.write a))
    (hmem : ∀ back, Returned m back s.bufRing → Returned m (back ++ new) s'.bufRing) :
    Ledger m s' (F + T') := by
  have hrec : s'.recorded = s.recorded := by simp only [State.recorded, hlogs]
  obtain ⟨back, hback, hids⟩ := h.reads
  refine ⟨htasks ▸ h.pos, htasks ▸ h.slab, htasks ▸ h.linked, hbase.trans h.base, hpool,
    ⟨back ++ new, hmem back hback, fun x => ?_⟩, fun x => ?_, ?_, hcq ▸ h.cq, fun x =>
      ?_, hlogs ▸ h.logged⟩
  · have h1 := hids x
    have h2 := hT.read x
    simp only [hrec, Multiset.count_add, List.count_append] at h1 ⊢
    omega
  · have h1 := h.commits x
    have h2 := hT.commit x
    simp only [hrec, Multiset.count_add] at h1 ⊢
    omega
  · intro hmem
    rcases Multiset.mem_add.mp hmem with hmem | hmem
    · exact h.sound (Multiset.mem_add.mpr (.inl hmem))
    · exact hT.sound hmem
  · have h1 := h.posted x
    simp only [hrec, hcq, Multiset.count_add, hT.arrived] at h1 ⊢
    exact h1

/-- Handles to write slots come and go. -/
theorem repool {p : BufPool 1} (h : Ledger m s (F + T)) (hbase : p.base = s.buffer.base)
    (hpool : Pooled p fun a => (F + T').count (.write a)) (hT : Trade [] T T') :
    Ledger m { s with buffer := p } (F + T') :=
  h.trade hT rfl rfl rfl hbase hpool fun back hb => by rwa [List.append_nil]

/-- A read slot goes back to the ring. -/
theorem giveBack {mem : BufRing} {id : UInt32} (h : Ledger m s (F + T))
    (hr : s.bufRing.release s.buffer id = .ok mem) (hT : Trade [id] T T')
    (hwrite : ∀ a, T'.count (.write a) = T.count (.write a)) :
    Ledger m { s with bufRing := mem } (F + T') := by
  refine h.trade hT rfl rfl rfl rfl ?_ fun back hb => .release hb h.base h.pool.readCount hr
  have hpool := h.pool
  simp only [Multiset.count_add, hwrite] at hpool ⊢
  exact hpool

/-- Tokens are exchanged for others. -/
theorem exchange (h : Ledger m s (F + T)) (hT : Trade [] T T')
    (hwrite : ∀ a, T'.count (.write a) = T.count (.write a)) : Ledger m s (F + T') := by
  refine h.trade hT rfl rfl rfl rfl ?_ fun back hb => by rwa [List.append_nil]
  have hpool := h.pool
  simp only [Multiset.count_add, hwrite] at hpool ⊢
  exact hpool

/-- The oldest completion is taken off the ring. -/
theorem arrive {e : Cqe} {cq : List Cqe} (h : Ledger m s T) (hcq : s.ring.cq = e :: cq)
    (inflight : List Sqe) :
    Ledger m { s with ring := { s.ring with cq, inflight } } (T + e.arrival) := by
  have hne : ∀ t : Token, (∀ id, t ≠ .arrived id) →
      (T + e.arrival).count t = T.count t := by
    intro t ht
    rw [Multiset.count_add, e.count_arrival_ne ht, Nat.add_zero]
  have hrec : ∀ t : Token, (∀ id, t ≠ .arrived id) →
      (s.recorded + (T + e.arrival)).count t = (s.recorded + T).count t := fun t ht => by
    simp only [Multiset.count_add, e.count_arrival_ne ht, Nat.add_zero]
  obtain ⟨back, hback, hids⟩ := h.reads
  refine ⟨h.pos, h.slab, h.linked, h.base, ?_, ⟨back, hback, fun id => ?_⟩, fun id => ?_, ?_, ?_,
    fun id => ?_, h.logged⟩
  · simp only [hne _ (by simp : ∀ id, Token.write _ ≠ .arrived id)]
    exact h.pool
  · show _ + (T + e.arrival).count _ + (s.recorded + (T + e.arrival)).count _ =
      (s.recorded + (T + e.arrival)).count _ + (s.recorded + (T + e.arrival)).count _
    rw [hne _ (by simp), hrec _ (by simp), hrec _ (by simp), hrec _ (by simp)]
    exact hids id
  · show (s.recorded + (T + e.arrival)).count _ + (T + e.arrival).count _ ≤
      (s.recorded + (T + e.arrival)).count _
    rw [hne _ (by simp), hrec _ (by simp), hrec _ (by simp)]
    exact h.commits id
  · intro hmem
    refine h.sound (Multiset.count_pos.mp ?_)
    rw [← hne _ (by simp)]
    exact Multiset.count_pos.mpr hmem
  · exact fun e' he' => h.cq e' (by rw [hcq]; exact List.mem_cons_of_mem e he')
  · have hposted := h.posted id
    show _ = cq.countP _ + (s.recorded + (T + e.arrival)).count _
    rw [hcq, List.countP_cons] at hposted
    rw [Multiset.count_add] at hposted
    rw [Multiset.count_add, Multiset.count_add, e.count_arrival, hposted]
    omega

end Ledger

end Onlyio
