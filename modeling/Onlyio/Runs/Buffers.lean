import Onlyio.Machine.Holdings

/-!
# Buffers over whole runs

The ledger holds between any two commands of any run (`RunWith.audited`), whatever the code and the
kernel do. For the read slots the kernel has a part: it takes the slot at the head of the `buf_ring`
and attaches its id to one completion of a read. A `ReadRun` is a run with such a kernel, and
records the completions that it has posted.

* **`RunWith.audited`**: the slab, the write pool and the read slots of a run are accounted for.
* **`ReadRun.places`**: as long as no buffer is taken more often than it arrives, every slot is in
  the ring, in a completion, in a `RwBuffer`, or was lost, and the logs say how often.
-/

namespace Onlyio

open Lib

variable {σ : Type} {code : Code σ}

/-! ## What logs record -/

/-- What a log records of the read slots. -/
def deeds (log : List Event) : Multiset Token := (log.map Event.owes).sum

theorem deeds_append (log evs : List Event) : deeds (log ++ evs) = deeds log + deeds evs := by
  simp [deeds]

theorem deeds_singleton (ev : Event) : deeds [ev] = ev.owes := by
  simp [deeds]

/-- Submissions record nothing of the read slots. -/
theorem deeds_submits {evs : List Event} (h : ∀ e ∈ evs, ∃ q n, e = .submit q n) :
    deeds evs = 0 := by
  refine List.sum_eq_zero fun T hT => ?_
  obtain ⟨e, he, rfl⟩ := List.mem_map.mp hT
  obtain ⟨q, n, rfl⟩ := h e he
  rfl

/-- How often an optional slot is `id`, as a token. -/
theorem count_elim (o : Option UInt32) (f : UInt32 → Token) (hf : ∀ a b, f a = f b → a = b)
    (id : UInt32) :
    (o.elim (0 : Multiset Token) fun x => {f x}).count (f id) = o.toList.count id := by
  cases o with
  | none => rfl
  | some x =>
    by_cases hx : x = id
    · subst hx
      simp
    · have hne : f id ≠ f x := fun heq => hx (hf id x heq).symm
      simp [hne, hx]

theorem count_elim_ne (o : Option UInt32) {f : UInt32 → Token} {t : Token} (hf : ∀ a, f a ≠ t) :
    (o.elim (0 : Multiset Token) fun x => {f x}).count t = 0 := by
  cases o with
  | none => rfl
  | some x =>
    exact Multiset.count_eq_zero.mpr fun hmem => hf x (Multiset.mem_singleton.mp hmem).symm

theorem count_sum (t : Token) (l : List (Multiset Token)) :
    l.sum.count t = (l.map (Multiset.count t)).sum :=
  map_list_sum (Multiset.countAddMonoidHom t) l

theorem State.count_recorded (s : State σ) (t : Token) :
    s.recorded.count t = (s.heap.map fun raw => (deeds raw.log).count t).sum := by
  simp only [State.recorded, State.logs, count_sum, List.map_map]
  rfl

/-! ## The ledger of a run -/

/-- A value holds nothing that is recorded. -/
theorem Value.tokens_deed (val : Value) : ∀ t ∈ val.tokens, t.deed = false := by
  have htoken : ∀ b : RwBuffer, b.token.deed = false := fun b => by
    unfold RwBuffer.token
    split <;> rfl
  intro t ht
  unfold Value.tokens at ht
  split at ht
  · exact (Multiset.mem_singleton.mp ht) ▸ rfl
  · exact (Multiset.mem_singleton.mp ht) ▸ rfl
  · exact (Multiset.mem_singleton.mp ht) ▸ rfl
  · exact (Multiset.mem_singleton.mp ht) ▸ htoken _
  · exact (Multiset.mem_singleton.mp ht) ▸ htoken _
  · exact (Multiset.mem_singleton.mp ht) ▸ rfl
  · exact (Multiset.mem_singleton.mp ht) ▸ rfl
  · exact absurd ht (Multiset.notMem_zero t)

theorem State.count_tokens_deed (s : State σ) {t : Token} (ht : t.deed = true) :
    s.tokens.count t = 0 := by
  have hsum : ∀ l : List (Multiset Token), (∀ T ∈ l, T.count t = 0) →
      l.sum.count t = 0 := by
    intro l hl
    exact List.sum_induction (fun T : Multiset Token => T.count t = 0)
      (fun T U hT hU => by rw [Multiset.count_add, hT, hU]) (Multiset.count_zero t) hl
  refine hsum _ fun T hT => ?_
  obtain ⟨L, -, rfl⟩ := List.mem_map.mp hT
  refine hsum _ fun T hT => ?_
  obtain ⟨o, -, rfl⟩ := List.mem_map.mp hT
  cases o with
  | none => exact Multiset.count_zero t
  | some val =>
    refine Multiset.count_eq_zero.mpr fun hmem => ?_
    rw [val.tokens_deed t hmem] at ht
    cases ht

/-- The kernel has posted `posted`, the ids `back` have come back, and the blocks hold the rest. -/
structure Audited (posted : List Cqe) (back : List UInt32) (s : State σ) : Prop where
  owns : Owns ⟨posted, s.buffer.base, back, s.bufRing⟩ 0 s 0
  back : ∀ id, back.count id + s.tokens.count (.read id) + s.recorded.count (.committed id) =
    s.recorded.count (.took id) + s.recorded.count (.settled id)

section Audited

variable {posted : List Cqe} {back : List UInt32} {s s' : State σ}

theorem Returned.prefix {m : Epoch} {mem : BufRing} {back : List UInt32} (h : Returned m back mem) :
    ∃ new, back = m.back ++ new := by
  induction h with
  | start => exact ⟨[], (List.append_nil _).symm⟩
  | release h _ _ _ ih =>
    obtain ⟨new, rfl⟩ := ih
    exact ⟨new ++ [_], List.append_assoc ..⟩

/-- Between two commands a new epoch begins. -/
theorem Owns.audited {m : Epoch} (h : Owns m 0 s 0) :
    ∃ back, Returned m back s.bufRing ∧ Audited m.posted back s := by
  obtain ⟨back, hback, hids⟩ := h.ledger.reads
  refine ⟨back, hback,
    ⟨⟨h.ledger.pos, h.ledger.slab, h.ledger.linked, rfl, h.ledger.pool,
      ⟨back, .start, hids⟩, h.ledger.commits, h.ledger.sound, h.ledger.cq, h.ledger.posted,
      h.ledger.logged⟩, h.heap⟩,
    fun id => ?_⟩
  have hid := hids id
  simpa only [add_zero, Multiset.count_add, s.count_tokens_deed (t := .committed id) rfl,
    s.count_tokens_deed (t := .took id) rfl, s.count_tokens_deed (t := .settled id) rfl] using hid

theorem audited_new {base : Nat} (h : State.new base = .ok s) : Audited [] [] s := by
  unfold State.new at h
  cases hb : (BufPool.new base 512 512 : Except Fault (BufPool 1)) with
  | error e => simp [hb, bind, Except.bind] at h
  | ok pool =>
    cases ht : (Slab.withCapacity ⟨16, by decide⟩ : Except Fault (Slab TaskPtr)) with
    | error e => simp [hb, ht, bind, Except.bind] at h
    | ok tasks =>
      simp only [hb, ht, bind, Except.bind, pure, Except.pure, Except.ok.injEq] at h
      subst h
      refine ⟨⟨⟨(Slab.withCapacity_spec ht).2.2.2.2, fun hsmall => .withCapacity ht hsmall,
        .withCapacity ht, rfl,
        ⟨_, rfl, .new hb 0, fun a => rfl⟩, ⟨[], .start, fun id => rfl⟩, fun id =>
          Nat.le_refl _, ?_, ?_,
        fun id => rfl, ?_⟩, Nat.zero_le _⟩, fun id => rfl⟩
      · exact Multiset.notMem_zero _
      · exact fun e he => nomatch he
      · exact fun log hlog => nomatch hlog

namespace Audited

/-- Each completion with a buffer is on the ring or recorded. -/
theorem posted_eq (h : Audited posted back s) (id : UInt32) : posted.countP (Cqe.carries id) =
    s.ring.cq.countP (Cqe.carries id) + s.recorded.count (.arrived id) := by
  have hposted := h.owns.ledger.posted id
  simpa only [add_zero, Multiset.count_add,
    s.count_tokens_deed (t := .arrived id) rfl] using hposted

/-- A commit was ready or waits at most once. -/
theorem commits_le (h : Audited posted back s) (id : UInt32) :
    s.recorded.count (.settled id) + s.tokens.count (.commit id) ≤
    s.recorded.count (.committed id) := by
  have hcommits := h.owns.ledger.commits id
  simpa only [add_zero, Multiset.count_add, s.count_tokens_deed (t := .committed id) rfl,
    s.count_tokens_deed (t := .settled id) rfl] using hcommits

/-- A command that is not the kernel's completion. -/
theorem act (h : Audited posted back s) {cmd : Cmd σ} (ha : Onlyio.act code cmd s = .ok () s')
    (hcmd : ∀ id result flags, cmd ≠ .complete id result flags) :
    ∃ back', Returned ⟨posted, s.buffer.base, back, s.bufRing⟩ back' s'.bufRing ∧
      s'.buffer.base = s.buffer.base ∧ Audited posted back' s' := by
  have hw := owns_act (n := 0) code cmd hcmd s 0 (by rw [zero_add]; exact h.owns)
  have h' := wp_ok hw ha
  rw [zero_add] at h'
  obtain ⟨back', hback, hb⟩ := h'.audited
  exact ⟨back', hback, h'.ledger.base, hb⟩

end Audited

theorem kernelComplete_spec {id : Nat} {result : Int32} {flags : UInt32}
    (h : kernelComplete id result flags s = .ok () s') :
    ∃ q ∈ s.ring.inflight, s' = { s with ring.cq := s.ring.cq ++ [⟨q, result, flags⟩] } := by
  have hw : wp (kernelComplete id result flags) (fun _ s' => ∃ q ∈ s.ring.inflight,
      s' = { s with ring.cq := s.ring.cq ++ [⟨q, result, flags⟩] }) (fun _ _ => True) s := by
    simp only [kernelComplete, wp_bind, wp_get]
    cases hq : s.ring.inflight.find? fun q => q.id == id with
    | none => trivial
    | some q =>
      simp only
      rw [wp_ite]
      exact ⟨fun _ => ⟨q, List.mem_of_find?_eq_some hq, rfl⟩, fun _ => trivial⟩
  exact wp_ok hw h

/-- The kernel posts a completion. -/
theorem Audited.complete (h : Audited posted back s) {id : Nat} {result : Int32} {flags : UInt32}
    (ha : Onlyio.act code (.complete id result flags) s = .ok () s') :
    ∃ e, s'.ring.cq = s.ring.cq ++ [e] ∧ s'.bufRing = s.bufRing ∧ s'.buffer = s.buffer ∧
      Audited (posted ++ [e]) back s' := by
  obtain ⟨q, -, rfl⟩ := kernelComplete_spec ha
  have hl := h.owns.ledger
  have hids : ∀ id, back.count id + (s.tokens + 0).count (.read id) +
      (s.recorded + (s.tokens + 0)).count (.committed id) =
      (s.recorded + (s.tokens + 0)).count (.took id) +
        (s.recorded + (s.tokens + 0)).count (.settled id) := by
    intro id
    have hid := h.back id
    simpa only [add_zero, Multiset.count_add, s.count_tokens_deed (t := .committed id) rfl,
      s.count_tokens_deed (t := .took id) rfl, s.count_tokens_deed (t := .settled id) rfl] using hid
  refine ⟨⟨q, result, flags⟩, rfl, rfl, rfl,
    ⟨⟨hl.pos, hl.slab, hl.linked, rfl, hl.pool, ⟨back, .start, hids⟩, hl.commits, hl.sound,
      fun e he => ?_, fun id => ?_, fun log hlog e cls others he => ?_⟩, h.owns.heap⟩,
    h.back⟩
  · rcases List.mem_append.mp he with he | he
    · exact List.mem_append_left _ (hl.cq e he)
    · exact List.mem_append_right _ he
  · have hposted := hl.posted id
    show (posted ++ [_]).countP _ = (s.ring.cq ++ [_]).countP _ + _
    rw [List.countP_append, List.countP_append, hposted, Nat.add_right_comm]
    rfl
  · exact List.mem_append_left _ (hl.logged log hlog e cls others he)

/-- **Every run** is audited. -/
theorem RunWith.audited {ok : State σ → State σ → Prop} (hr : RunWith code ok s) :
    ∃ posted back, Audited posted back s := by
  induction hr with
  | new h => exact ⟨[], [], audited_new h⟩
  | act cmd hr ha hok ih =>
    obtain ⟨posted, back, hb⟩ := ih
    by_cases hcmd : ∃ id result flags, cmd = .complete id result flags
    · obtain ⟨id, result, flags, rfl⟩ := hcmd
      obtain ⟨e, -, -, -, hb'⟩ := hb.complete ha
      exact ⟨posted ++ [e], back, hb'⟩
    · obtain ⟨back', -, -, hb'⟩ := hb.act ha fun id result flags heq =>
        hcmd ⟨id, result, flags, heq⟩
      exact ⟨posted, back', hb'⟩

end Audited

/-! ## The kernel and the ring -/

/-- The ids that the kernel has taken from the ring, in order. -/
def drawn (posted : List Cqe) : List UInt32 := posted.filterMap fun e => selected e.flags

/-- The ids in the ring, from the kernel's head to the tail. -/
def BufRing.available (mem : BufRing) (head : Nat) : List Nat :=
  (List.range ((mem.readU16 14 + 2 ^ 16 - head % 2 ^ 16) % 2 ^ 16)).map fun i =>
    mem.readU16 ((head + i) % 512 * 16 + 12)

/-- The kernel attaches a buffer to completions of reads only, and takes the one at its head. -/
structure Selects (head : Nat) (mem : BufRing) (e : Cqe) : Prop where
  op : ∀ id, selected e.flags = some id → e.sqe.op.selects = true
  first : ∀ id, selected e.flags = some id → (mem.available head).head? = some id.toNat

/-- In how many places the read slot `id` is: among the entries of the ring from the kernel's head
to the tail, the completions that were not handled, the `RwBuffer`s, and the commits that wait. -/
def State.places (s : State σ) (head : Nat) (id : UInt32) : Nat :=
  (s.bufRing.available head).count id.toNat + s.ring.cq.countP (Cqe.carries id) +
    s.tokens.count (.read id) + s.tokens.count (.commit id)

/-- A run with such a kernel, which has posted `posted`, when every state that is reached meets
`ok`. -/
inductive ReadRun (code : Code σ) (ok : State σ → Prop) : List Cqe → State σ → Prop where
  | new {base : Nat} {s : State σ} (h : State.new base = .ok s) : ReadRun code ok [] s
  | act {posted : List Cqe} {s s' : State σ} (cmd : Cmd σ) (hr : ReadRun code ok posted s)
      (ha : act code cmd s = .ok () s') (hcmd : ∀ id result flags, cmd ≠ .complete id result flags)
      (hok : ok s') : ReadRun code ok posted s'
  | complete {posted : List Cqe} {s s' : State σ} {id : Nat} {result : Int32}
      {flags : UInt32} (e : Cqe) (hr : ReadRun code ok posted s)
      (ha : act code (.complete id result flags) s = .ok () s') (he : s'.ring.cq = s.ring.cq ++ [e])
      (hk : Selects (drawn posted).length s.bufRing e) (hok : ok s') :
      ReadRun code ok (posted ++ [e]) s'

/-- Execute commands with such a kernel, as long as each one succeeds and leads to a state that is
`ok`. -/
def readScript (code : Code σ) (ok : State σ → Bool) :
    List (Cmd σ) → List Cqe → State σ → Option (List Cqe × State σ)
  | [], posted, s => some (posted, s)
  | cmd :: cmds, posted, s =>
    match act code cmd s with
    | .ok _ s' =>
      if ok s' then
        match cmd with
        | .complete _ _ _ =>
          match s'.ring.cq.getLast? with
          | some e =>
            if (selected e.flags).all fun id => e.sqe.op.selects &&
                (s.bufRing.available (drawn posted).length).head? == some id.toNat then
              readScript code ok cmds (posted ++ [e]) s'
            else none
          | none => none
        | _ => readScript code ok cmds posted s'
      else none
    | .error _ _ => none

/-- Execute commands with such a kernel, on a fresh thread. -/
def freshReadScript (code : Code σ) (ok : State σ → Bool) (cmds : List (Cmd σ)) :
    Option (List Cqe × State σ) :=
  match State.new 0 with
  | .ok s => readScript code ok cmds [] s
  | .error _ => none

/-- The read slots. -/
def readSlots : List UInt32 := (List.range 512).map UInt32.ofNat

section Ring

variable {ok : State σ → Prop} {posted : List Cqe} {s : State σ}

theorem ReadRun.run (hr : ReadRun code ok posted s) : RunWith code (fun _ s' => ok s') s := by
  induction hr with
  | new h => exact .new h
  | act cmd _ ha _ hok ih => exact .act cmd ih ha hok
  | complete e _ ha _ _ hok ih => exact .act _ ih ha hok

theorem ReadRun.selects (hr : ReadRun code ok posted s) :
    ∀ e ∈ posted, ∀ id, selected e.flags = some id → e.sqe.op.selects = true := by
  induction hr with
  | new h => exact fun e he => nomatch he
  | act cmd hr ha hcmd hok ih => exact ih
  | complete e hr ha he hk hok ih =>
    intro e' he'
    rcases List.mem_append.mp he' with he' | he'
    · exact ih e' he'
    · rw [List.mem_singleton.mp he']
      exact hk.op

theorem count_drawn (posted : List Cqe) (id : UInt32) :
    (drawn posted).count id = posted.countP (Cqe.carries id) := by
  induction posted with
  | nil => rfl
  | cons e posted ih =>
    rw [List.countP_cons, ← ih]
    cases hb : selected e.flags with
    | none => simp [drawn, Cqe.carries, hb]
    | some id' => simp [drawn, Cqe.carries, hb, List.count_cons]

theorem toNat_ofNat_slot {i : Nat} (h : i < 512) : (UInt32.ofNat i).toNat = i :=
  UInt32.toNat_ofNat_of_lt' (by show i < 2 ^ 32; omega)

theorem mem_readSlots {id : UInt32} : id ∈ readSlots ↔ id < 512 := by
  rw [readSlots, List.mem_map, UInt32.lt_iff_toNat_lt]
  constructor
  · rintro ⟨i, hi, rfl⟩
    rw [toNat_ofNat_slot (List.mem_range.mp hi)]
    exact List.mem_range.mp hi
  · exact fun h => ⟨id.toNat, List.mem_range.mpr h, UInt32.ofNat_toNat⟩

theorem nodup_readSlots : readSlots.Nodup := by
  refine List.Nodup.map_on (fun i hi j hj heq => ?_) List.nodup_range
  have hnat := congrArg UInt32.toNat heq
  rwa [toNat_ofNat_slot (List.mem_range.mp hi), toNat_ofNat_slot (List.mem_range.mp hj)] at hnat

theorem count_readSlots (id : UInt32) : readSlots.count id = if id < 512 then 1 else 0 := by
  rw [nodup_readSlots.count]
  simp only [mem_readSlots]

theorem lt_of_count {ids : List UInt32}
    (h : ∀ id, ids.count id ≤ if id < 512 then 1 else 0) {id : UInt32} (hid : id ∈ ids) :
    id < 512 := by
  have hpos := List.count_pos_iff.mpr hid
  have hle := h id
  by_contra hge
  rw [if_neg hge] at hle
  omega

/-- Slots that are all different are at most 512. -/
theorem length_le_of_count {ids : List UInt32}
    (h : ∀ id, ids.count id ≤ if id < 512 then 1 else 0) : ids.length ≤ 512 := by
  have hnodup : ids.Nodup := List.nodup_iff_count_le_one.mpr fun id =>
    (h id).trans (by split <;> omega)
  have hlen := (hnodup.subperm fun id hid => mem_readSlots.mpr (lt_of_count h hid)).length_le
  simpa [readSlots] using hlen

/-- What the memory means is what it says. -/
theorem ReadRing.available_eq {mem : BufRing} {base head : Nat} {ids : List UInt32}
    (h : ReadRing mem base 512 head ids) (hids : ∀ id ∈ ids, id < 512) :
    mem.available head = ids.map UInt32.toNat := by
  have hroom := h.room
  have hlen : (mem.readU16 14 + 2 ^ 16 - head % 2 ^ 16) % 2 ^ 16 = ids.length := by
    rw [h.tail]
    omega
  refine List.ext_getElem? fun i => ?_
  rw [BufRing.available, hlen, List.getElem?_map, List.getElem?_map]
  cases hi : ids[i]? with
  | none =>
    rw [List.getElem?_eq_none (by simpa using List.getElem?_eq_none_iff.mp hi)]
    rfl
  | some id =>
    have hlt : i < ids.length := (List.getElem?_eq_some_iff.mp hi).1
    have hid := UInt32.lt_iff_toNat_lt.mp (hids id (List.mem_of_getElem? hi))
    have hbid : mem.readU16 ((head + i) % 512 * 16 + 12) = id.toNat := by
      rw [BufRing.readU16_eq_load, (h.entry i id hi).bid]
      exact Nat.mod_eq_of_lt (Nat.lt_trans hid (by decide))
    rw [List.getElem?_range hlt]
    exact congrArg some hbid

/-- The ids that came back while the runtime ran are behind the others. -/
theorem ReadRing.returned {m : Epoch} {mem : BufRing} {head : Nat} {ids new : List UInt32}
    (h : ReadRing m.mem m.base 512 head ids) (hr : Returned m (m.back ++ new) mem)
    (hroom : ids.length + new.length ≤ 512) : ReadRing mem m.base 512 head (ids ++ new) := by
  generalize hback : m.back ++ new = back at hr
  induction hr generalizing new with
  | start =>
    obtain rfl : new = [] := List.self_eq_append_right.mp hback.symm
    rwa [List.append_nil]
  | @release back mem mem' p id hr hbase hcount hrel ih =>
    obtain ⟨old, rfl⟩ := hr.prefix
    rw [List.append_assoc] at hback
    obtain rfl := List.append_cancel_left hback
    rw [List.length_append, List.length_singleton] at hroom
    have hring := ih (by omega) rfl
    have hidx : id < p.readCount := by
      by_contra hge
      simp [BufRing.release, BufPool.readBufAddr, hge, bind, Except.bind] at hrel
    rw [← hbase] at hring ⊢
    obtain ⟨mem1, hrel1, hring1⟩ := hring.release (show 512 = 2 ^ 9 from rfl) (by omega)
      (by rw [hcount]; rfl) hidx (by rw [List.length_append]; omega)
    obtain rfl := Except.ok.inj (hrel1.symm.trans hrel)
    rwa [List.append_assoc] at hring1

/-- The ring of a state: the slots that were there at first or came back, less those that the kernel
took. -/
structure Stocked (posted : List Cqe) (back ids : List UInt32) (s : State σ) : Prop where
  audited : Audited posted back s
  order : readSlots ++ back = drawn posted ++ ids
  ring : ReadRing s.bufRing s.buffer.base 512 (drawn posted).length ids

/-- Where each slot is: in the ring, in a completion or in a `RwBuffer`, or the logs say how often
it arrived and was not taken, or was committed and did not come back. -/
theorem Audited.count_eq {back ids : List UInt32} (h : Audited posted back s)
    (horder : readSlots ++ back = drawn posted ++ ids) (id : UInt32) :
    ids.count id + s.ring.cq.countP (Cqe.carries id) + s.tokens.count (.read id) +
        s.recorded.count (.arrived id) + s.recorded.count (.committed id) =
      (if id < 512 then 1 else 0) + s.recorded.count (.took id) +
        s.recorded.count (.settled id) := by
  have h1 := congrArg (List.count id) horder
  have h2 := h.back id
  have h3 := h.posted_eq id
  rw [List.count_append, List.count_append, count_readSlots, count_drawn] at h1
  omega

theorem Audited.ids_le {back ids : List UInt32} (h : Audited posted back s)
    (horder : readSlots ++ back = drawn posted ++ ids)
    (hfair : ∀ id, s.recorded.count (.took id) ≤ s.recorded.count (.arrived id)) (id : UInt32) :
    ids.count id ≤ if id < 512 then 1 else 0 := by
  have h1 := h.count_eq horder id
  have h2 := h.commits_le id
  have h3 := hfair id
  omega

theorem stocked_new {base : Nat} (h : State.new base = .ok s) : Stocked [] [] readSlots s := by
  have horder : readSlots ++ [] = drawn [] ++ readSlots := by
    rw [List.append_nil, drawn, List.filterMap_nil, List.nil_append]
  refine ⟨audited_new h, horder, ?_⟩
  unfold State.new at h
  cases hb : (BufPool.new base 512 512 : Except Fault (BufPool 1)) with
  | error e => simp [hb, bind, Except.bind] at h
  | ok pool =>
    cases ht : (Slab.withCapacity ⟨16, by decide⟩ : Except Fault (Slab TaskPtr)) with
    | error e => simp [hb, ht, bind, Except.bind] at h
    | ok tasks =>
      simp only [hb, ht, bind, Except.bind, pure, Except.pure, Except.ok.injEq] at h
      subst h
      have hpool : pool.base = base ∧ pool.readCount = 512 := by
        unfold BufPool.new at hb
        split at hb
        · split at hb
          · obtain rfl := Except.ok.inj hb
            exact ⟨rfl, rfl⟩
          · cases hb
        · cases hb
      show ReadRing (.new base pool.readCount) pool.base 512 0 readSlots
      rw [hpool.1, hpool.2]
      exact ReadRing.new base (show (512 : UInt32).toNat ≤ 2 ^ 15 by decide)

/-- Every such run is audited, with what the kernel has posted. -/
theorem ReadRun.audited (hr : ReadRun code ok posted s) : ∃ back, Audited posted back s := by
  induction hr with
  | new h => exact ⟨[], audited_new h⟩
  | act cmd hr ha hcmd hok ih =>
    obtain ⟨back, hb⟩ := ih
    obtain ⟨back', -, -, hb'⟩ := hb.act ha hcmd
    exact ⟨back', hb'⟩
  | complete e hr ha he hk hok ih =>
    obtain ⟨back, hb⟩ := ih
    obtain ⟨e', he', -, -, hb'⟩ := hb.complete ha
    obtain rfl : e = e' := List.singleton_inj.mp (List.append_cancel_left (he.symm.trans he'))
    exact ⟨back, hb'⟩

/-- **The ring of a run** is accounted for, as long as no buffer is taken more often than it
arrives. -/
theorem ReadRun.stocked (hfair : ∀ {posted : List Cqe} {s : State σ}, ReadRun code ok posted s →
      ∀ id, s.recorded.count (.took id) ≤ s.recorded.count (.arrived id))
    (hr : ReadRun code ok posted s) : ∃ back ids, Stocked posted back ids s := by
  induction hr with
  | new h => exact ⟨[], readSlots, stocked_new h⟩
  | @act posted s s' cmd hr ha hcmd hok ih =>
    obtain ⟨back, ids, hst⟩ := ih
    obtain ⟨back', hback, hbase, hb⟩ := hst.audited.act ha hcmd
    obtain ⟨new, rfl⟩ := hback.prefix
    have horder : readSlots ++ (back ++ new) = drawn posted ++ (ids ++ new) := by
      rw [← List.append_assoc, hst.order, List.append_assoc]
    refine ⟨back ++ new, ids ++ new, hb, horder, ?_⟩
    have hlen := length_le_of_count (hb.ids_le horder (hfair (.act cmd hr ha hcmd hok)))
    rw [List.length_append] at hlen
    rw [hbase]
    exact hst.ring.returned hback hlen
  | @complete posted s s' _ _ _ e hr ha he hk hok ih =>
    obtain ⟨back, ids, hst⟩ := ih
    obtain ⟨e', he', hmem, hbuf, hb⟩ := hst.audited.complete ha
    obtain rfl : e = e' := List.singleton_inj.mp (List.append_cancel_left (he.symm.trans he'))
    have hring := hst.ring
    rw [← hmem, ← hbuf] at hring
    cases hsel : selected e.flags with
    | none =>
      have hdrawn : drawn (posted ++ [e]) = drawn posted := by simp [drawn, hsel]
      exact ⟨back, ids, hb, hdrawn ▸ hst.order, hdrawn ▸ hring⟩
    | some id =>
      have hdrawn : drawn (posted ++ [e]) = drawn posted ++ [id] := by simp [drawn, hsel]
      -- the kernel takes the slot at its head
      have hlt := fun x (hx : x ∈ ids) => lt_of_count (hst.audited.ids_le hst.order (hfair hr)) hx
      have hfirst := hk.first id hsel
      rw [hst.ring.available_eq hlt] at hfirst
      cases ids with
      | nil => cases hfirst
      | cons x ids =>
        obtain rfl : x = id := UInt32.toNat_inj.mp (Option.some.inj hfirst)
        refine ⟨back, ids, hb, ?_, ?_⟩
        · rw [hdrawn, hst.order, List.append_assoc]
          rfl
        · rw [hdrawn, List.length_append]
          exact hring.take

/-- **Where each read slot is**, in every state of such a run. -/
theorem ReadRun.places (hfair : ∀ {posted : List Cqe} {s : State σ}, ReadRun code ok posted s →
      ∀ id, s.recorded.count (.took id) ≤ s.recorded.count (.arrived id))
    (hr : ReadRun code ok posted s) (id : UInt32) :
    (s.bufRing.available (drawn posted).length).count id.toNat + s.ring.cq.countP (Cqe.carries id) +
        s.tokens.count (.read id) + s.recorded.count (.arrived id) +
        s.recorded.count (.committed id) =
      (if id < 512 then 1 else 0) + s.recorded.count (.took id) +
        s.recorded.count (.settled id) := by
  obtain ⟨back, ids, hst⟩ := hr.stocked hfair
  have hlt := fun x (hx : x ∈ ids) => lt_of_count (hst.audited.ids_le hst.order (hfair hr)) hx
  rw [hst.ring.available_eq hlt, List.count_map_of_injective _ _ fun a b => UInt32.toNat_inj.mp]
  exact hst.audited.count_eq hst.order id

theorem ReadRun.script {okb : State σ → Bool} (hok : ∀ s, okb s = true → ok s)
    {cmds : List (Cmd σ)} :
    ∀ {posted posted' : List Cqe} {s s' : State σ}, ReadRun code ok posted s →
      readScript code okb cmds posted s = some (posted', s') → ReadRun code ok posted' s' := by
  induction cmds with
  | nil =>
    intro posted posted' s s' hr h
    obtain ⟨rfl, rfl⟩ := Prod.mk.inj (Option.some.inj h)
    exact hr
  | cons cmd cmds ih =>
    intro posted posted' s s' hr h
    rw [readScript] at h
    split at h
    · rename_i s1 ha
      split at h
      · rename_i hokb
        split at h
        · rename_i id result flags
          split at h
          · rename_i e he
            split at h
            · rename_i hsel
              refine ih (.complete e hr ha ?_ ?_ (hok _ hokb)) h
              · obtain ⟨q, -, rfl⟩ := kernelComplete_spec ha
                simp only [List.getLast?_concat, Option.some.injEq] at he
                rw [← he]
              · have hall : ∀ id, selected e.flags = some id → e.sqe.op.selects = true ∧
                    (s.bufRing.available (drawn posted).length).head? =
                      some id.toNat := by
                  intro id hid
                  simpa [hid] using hsel
                exact ⟨fun id hid => (hall id hid).1, fun id hid => (hall id hid).2⟩
            · cases h
          · cases h
        · rename_i hcmd
          exact ih (.act cmd hr ha (fun id result flags heq => hcmd id result flags heq)
            (hok _ hokb)) h
      · cases h
    · cases h

/-- What a script reaches is reached by a run. -/
theorem ReadRun.of_script {okb : State σ → Bool} (hok : ∀ s, okb s = true → ok s)
    {cmds : List (Cmd σ)} (h : freshReadScript code okb cmds = some (posted, s)) :
    ReadRun code ok posted s := by
  unfold freshReadScript at h
  split at h
  · rename_i s0 h0
    exact ReadRun.script hok (.new h0) h
  · cases h

end Ring

end Onlyio
