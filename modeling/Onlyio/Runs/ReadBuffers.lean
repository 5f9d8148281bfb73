import Onlyio.Runs.Buffers
import Onlyio.Runs.SingleShot

/-!
# Read buffers of tasks that await their operations

A task that awaits every operation where it builds it, and opens no stream, takes each buffer that
the kernel brings: while it awaits a read, the completion of the read is the only one outstanding,
and it is never `Expired`. The commit that it awaits is ready before it goes on. `Keeps` says so of
one task, and over a run the counts of `ReadRun.places` come out even.

* **`read_buffers_run`**: in every state of every run, each read slot is in exactly one place.

A fan-out may get stuck, with completions that expire. These are completions of writes and bring no
buffer; the locals of such a task are dropped with it.
-/

namespace Onlyio

open Lib

variable {σ τ : Type}

/-! ## What one task records -/

/-- The instructions of a block that opens no stream. -/
def Await.Instr.streamless : Await.Instr τ → Bool
  | .stream _ _ | .next _ _ => false
  | _ => true

/-- The slot that the poll of a value takes from the context. -/
def Value.due (info : TaskInfo) : Value → Option UInt32
  | .read (.pending _) => selected info.flags
  | _ => none

/-- The slot of a commit that waits. -/
def Value.committing : Value → Option UInt32
  | .commit (.pending id) => some id
  | _ => none

/-- Every slot that arrived was taken, except `due`, and every commit was ready, except one of
`waits`. -/
structure Tallied (log : List Event) (due waits : Option UInt32) : Prop where
  took : ∀ id, (deeds log).count (.took id) + due.toList.count id = (deeds log).count (.arrived id)
  commits : ∀ id, (deeds log).count (.committed id) =
    (deeds log).count (.settled id) + waits.toList.count id

namespace Tallied

variable {log evs : List Event} {due due' waits waits' : Option UInt32}

/-- More events, which record `D`. -/
theorem append (h : Tallied log due waits) {D : Multiset Token} (hevs : deeds evs = D)
    (htook : ∀ id, D.count (.took id) + due'.toList.count id = due.toList.count id +
    D.count (.arrived id)) (hcommits : ∀ id, D.count (.committed id) + waits.toList.count id =
      D.count (.settled id) + waits'.toList.count id) : Tallied (log ++ evs) due' waits' := by
  refine ⟨fun id => ?_, fun id => ?_⟩
  · have h1 := h.took id
    have h2 := htook id
    rw [deeds_append, hevs, Multiset.count_add, Multiset.count_add]
    omega
  · have h1 := h.commits id
    have h2 := hcommits id
    rw [deeds_append, hevs, Multiset.count_add, Multiset.count_add]
    omega

/-- Events that record nothing of the read slots. -/
theorem quiet (h : Tallied log due waits) (hevs : deeds evs = 0) : Tallied (log ++ evs) due waits :=
  h.append hevs (fun id => by simp) fun id => by simp

/-- A completion arrives. -/
theorem arrive (h : Tallied log none waits) {e : Cqe} (hevs : deeds evs = e.arrival) :
    Tallied (log ++ evs) (selected e.flags) waits := by
  refine h.append hevs (fun id => ?_) fun id => ?_
  · rw [e.count_arrival_ne (t := .took id) (by simp), Cqe.arrival,
      count_elim _ .arrived (fun a b => Token.arrived.inj), zero_add]
    exact (zero_add _).symm
  · rw [e.count_arrival_ne (t := .committed id) (by simp),
      e.count_arrival_ne (t := .settled id) (by simp)]

/-- A read is ready, and takes the buffer. -/
theorem take (h : Tallied log due waits)
    (hevs : deeds evs = due.elim (0 : Multiset Token) fun id => {.took id}) :
    Tallied (log ++ evs) none waits := by
  refine h.append hevs (fun id => ?_) fun id => ?_
  · rw [count_elim _ .took (fun a b => Token.took.inj),
      count_elim_ne _ (t := .arrived id) (by simp)]
    rfl
  · rw [count_elim_ne _ (t := .committed id) (by simp),
      count_elim_ne _ (t := .settled id) (by simp)]

/-- A commit submits its write. -/
theorem commit {id : UInt32} (h : Tallied log due none) (hevs : deeds evs = {.committed id}) :
    Tallied (log ++ evs) due (some id) := by
  refine h.append hevs (fun x => by simp) fun x => ?_
  have hcount := count_elim (some id) .committed (fun a b => Token.committed.inj) x
  simpa using hcount

/-- The commit is ready. -/
theorem settle {id : UInt32} (h : Tallied log due (some id)) (hevs : deeds evs = {.settled id}) :
    Tallied (log ++ evs) due none := by
  refine h.append hevs (fun x => by simp) fun x => ?_
  have hcount := count_elim (some id) .settled (fun a b => Token.settled.inj) x
  simpa using hcount.symm

end Tallied

/-! ## Operations -/

/-- An operation of an awaiting block, other than a stream and a fan-out that waits. -/
def Value.operation : Value → Bool
  | .accept _ | .read _ | .write _ | .socket _ | .commitFn _ _ | .commit (.pending _)
  | .writeMultiple (.init _ _ _) => true
  | _ => false

/-- The block awaits the operation in local `v`, which has submitted the only outstanding SQE. -/
structure AwaitsOperation (V : View (Await.Point τ)) (val : Value) (q : Sqe) : Prop where
  operation : val.operation = true
  outs : V.outs = {q}
  rank : rank q.nb = rank V.nb
  single : q.op.isMultishot = false
  selects : q.op.selects = true → ∃ fd, val = .read (.pending fd)
  tallied : Tallied V.log none val.committing

/-- The outstanding SQEs of a fan-out, which carry `nb`. -/
structure Fanned (outs : Multiset Sqe) (nb : UInt16) : Prop where
  nb : ∀ q ∈ outs, q.nb = nb
  single : ∀ q ∈ outs, q.op.isMultishot = false
  plain : ∀ q ∈ outs, q.op.selects = false

/-- The block awaits a fan-out with the count `n`: every entry that counts is outstanding, or no
completion will be accepted. -/
structure AwaitsFanOut (V : View (Await.Point τ)) (n : UInt16) (nb : UInt16) : Prop where
  fanned : Fanned V.outs nb
  count : V.outs.card = n.toNat ∨ nb ≠ V.nb
  tallied : Tallied V.log none none

/-- The block awaits the value in local `v`. -/
def AwaitsValue (V : View (Await.Point τ)) (v : Var) : Prop :=
  SettledBut v V.block.locals ∧
    ((∃ val q, V.block.locals[v]? = some (some val) ∧ AwaitsOperation V val q) ∨
      ∃ n fds faileds len b nb, V.block.locals[v]? =
        some (some (.writeMultiple (.pending n fds faileds len b))) ∧ AwaitsFanOut V n nb)

/-- The block is about to poll the value in local `v`: an operation, with nothing outstanding, or a
fan-out, one of whose completions has started the poll. -/
def PollsValue (V : View (Await.Point τ)) (cur : TaskInfo) (v : Var) : Prop :=
  SettledBut v V.block.locals ∧ rank cur.tag.syscallNb = rank V.nb ∧
    ((∃ val, V.block.locals[v]? = some (some val) ∧ val.operation = true ∧ V.outs = 0 ∧
        Tallied V.log (val.due cur) val.committing) ∨
      ∃ n fds faileds len b nb, V.block.locals[v]? =
        some (some (.writeMultiple (.pending n fds faileds len b))) ∧ Fanned V.outs nb ∧
        V.outs.card + 1 = n.toNat ∧ Tallied V.log none none)

/-- The block runs on, with nothing outstanding. -/
structure RunsOn (V : View (Await.Point τ)) (cur : TaskInfo) : Prop where
  outs : V.outs = 0
  rank : rank cur.tag.syscallNb = rank V.nb
  settled : Settled V.block.locals
  tallied : Tallied V.log none none

/-- Nothing of the block is left. -/
structure Vacant (V : View (Await.Point τ)) : Prop where
  outs : V.outs = 0
  locals : V.block.locals = []
  tallied : Tallied V.log none none

/-- Where a task stands that awaits its operations and opens no stream. -/
def Keeps (_ : TaskPtr) (V : View (Await.Point τ)) : Prop :=
  match V.phase with
  | .on cur =>
    match V.block.code with
    | some (.run _) => RunsOn V cur
    | some (.poll v _) => PollsValue V cur v
    | some (.suspend v _) => AwaitsValue V v
    | none => False
  | _ => (∃ v k, V.block.code = some (.poll v k) ∧ AwaitsValue V v) ∨ Vacant V

/-! ## Steps -/

section Steps

variable {A : τ → Await.Instr τ} {p : TaskPtr} {V V' : View (Await.Point τ)} {cur : TaskInfo}

/-- An instruction on the locals: the block runs on, or has built an operation and awaits it. -/
theorem Settled.awaits {t : τ} {y : Await.Point τ} {L L' : List (Option Value)}
    (hA : (A t).streamless = true) (h : LocalStep L (awaited A (.run t)) y L') (hL : Settled L) :
    (∃ u, y = .run u ∧ Settled L') ∨
    ∃ v k val, y = .poll v k ∧ L'[v]? = some (some val) ∧ SettledBut v L' ∧ val.operation = true ∧
      val.committing = none ∧ ∀ info, val.due info = none := by
  simp only [awaited, awaitedInstr] at h
  cases hAt : A t with
  | await op k =>
    rw [hAt] at h
    cases h with
    | @make _ _ val L' hm =>
      have hL' : Settled L' := by
        cases hm with
        | accept | read | write | connect => exact hL
        | commit buf | writeMultiple buf => exact hL.set_none buf
      refine .inr ⟨_, _, val, rfl, List.getElem?_concat_length, ?_, ?_⟩
      · exact Held.append (hL'.mono fun _ _ hu _ => hu) fun hne => absurd rfl hne
      · cases hm <;> exact ⟨rfl, rfl, fun _ => rfl⟩
  | drop v k =>
    rw [hAt] at h
    cases h with
    | drop => exact .inl ⟨_, rfl, hL.set_none v⟩
  | allocWrite k =>
    rw [hAt] at h
    cases h with
    | allocWrite => exact .inl ⟨_, rfl, hL.append rfl⟩
  | cloneWrite v k =>
    rw [hAt] at h
    cases h with
    | cloneWrite => exact .inl ⟨_, rfl, hL.append rfl⟩
  | stream | next =>
    rw [hAt] at hA
    cases hA
  | ret | spawn =>
    rw [hAt] at h
    cases h

/-- What the poll of an operation records. -/
theorem deeds_call {evs : List Event} (hevs : ∀ e ∈ evs, ∃ q n, e = .submit q n)
    (cur : TaskInfo) (v : Var) (val : Value) (m : Nat) (r : Option Resp) :
    deeds (evs ++ [.call v val cur m r]) = val.owes cur r.isSome := by
  rw [deeds_append, deeds_submits hevs, deeds_singleton, zero_add]
  rfl

/-- The poll of an operation submits its SQE. -/
theorem Sends.awaits {nb : UInt16} {val val' : Value} {op : SqeOp} {q : Sqe} {v : Var}
    {log : List Event} {block : AsyncBlock (Await.Point τ)} {phase : Phase} {freed : Bool}
    {m n : Nat} (h : Sends cur val op val') (hq : Stamped ⟨p, v⟩ cur op q)
    (hrank : rank cur.tag.syscallNb = rank nb) (ht : Tallied log (val.due cur) val.committing) :
    AwaitsOperation ⟨nb, {q}, block, log ++ [.submit q m] ++ [.call v val cur n none], phase,
    freed⟩ val' q := by
  have hsub : ∀ e ∈ [Event.submit q m], ∃ q n, e = .submit q n :=
    fun e he => ⟨q, m, List.mem_singleton.mp he⟩
  have hsel : op.selects = true → ∃ fd, val' = .read (.pending fd) := by
    cases h with
    | read fd => exact fun _ => ⟨fd, rfl⟩
    | accept | write | socket | connect => exact fun hsel => nomatch hsel
  refine ⟨by cases h <;> rfl, rfl, hq.nb ▸ hrank, hq.op ▸ h.single, hq.op ▸ hsel, ?_⟩
  have hnew := deeds_call hsub cur v val n none
  rw [List.append_assoc]
  cases h <;> exact ht.quiet hnew

/-- The poll of a commit submits its write. -/
theorem Commits.awaits {nb : UInt16} {val val' : Value} {op : SqeOp} {q : Sqe} {v : Var}
    {log : List Event} {block : AsyncBlock (Await.Point τ)} {phase : Phase} {freed : Bool}
    {m n : Nat} (h : Commits val op val') (hval : val.operation = true)
    (hq : Stamped ⟨p, v⟩ cur.multiple op q) (hrank : rank cur.tag.syscallNb = rank nb)
    (ht : Tallied log (val.due cur) val.committing) :
    AwaitsOperation ⟨nb, {q}, block, log ++ [.submit q m] ++ [.call v val cur n none], phase,
    freed⟩ val' q := by
  have hsub : ∀ e ∈ [Event.submit q m], ∃ q n, e = .submit q n :=
    fun e he => ⟨q, m, List.mem_singleton.mp he⟩
  have hnb : rank q.nb = rank nb := by
    rw [hq.nb]
    exact (rank_setMultiple _).trans hrank
  rw [List.append_assoc]
  cases h with
  | first b len =>
    have hop := hq.op
    refine ⟨rfl, rfl, hnb, by
      rw [hop]; rfl, fun hsel => ?_, ht.commit (deeds_call hsub cur v _ n none)⟩
    rw [hop] at hsel
    cases hsel
  | init => cases hval

/-- The entries of a fan-out that begins. -/
theorem FanOut.awaits {fds : List UInt32} {b : WBuffer} {len : UInt32} {new : List Sqe}
    {evs : List Event} {nb : UInt16} {v : Var} {log : List Event}
    {block : AsyncBlock (Await.Point τ)} {phase : Phase} {freed : Bool} {n : Nat}
    (h : FanOut ⟨p, v⟩ cur fds new) (hfds : fds.length ≤ 65535)
    (hevs : ∀ e ∈ evs, ∃ q n, e = .submit q n) (ht : Tallied log none none) :
    AwaitsFanOut
    ⟨nb, new, block, log ++ evs ++ [.call v (.writeMultiple (.init fds b len)) cur n none],
      phase, freed⟩ (UInt16.ofNat fds.length) cur.tag.syscallNb := by
  have hlen : new.length = fds.length := by simpa using congrArg List.length h.gens
  have hcount : (UInt16.ofNat fds.length).toNat = fds.length := by
    rw [UInt16.toNat_ofNat']
    omega
  refine ⟨⟨h.nb, h.single, h.plain⟩, .inl ?_, ?_⟩
  · show new.length = _
    rw [hcount, hlen]
  · rw [List.append_assoc]
    exact ht.quiet (deeds_call hevs cur v _ n none)

/-- An operation that is ready. -/
theorem Resolves.runsOn {val val' : Value} {out : Out} {v : Var} {log : List Event} {n k : Nat}
    (h : Resolves cur val out val') (hval : val.operation = true)
    (ht : Tallied log (val.due cur) val.committing) : val' = .returned ∧ ∃ r, out.resp k = some r ∧
      Tallied (log ++ [.call v val cur n (some r)]) none none := by
  have hnil : ∀ e ∈ ([] : List Event), ∃ q n, e = .submit q n := fun e he => nomatch he
  have hnew := fun r => deeds_call hnil cur v val n (some r)
  cases h with
  | accepted | acceptFailed | written | connected => exact ⟨rfl, _, rfl, ht.quiet (hnew _)⟩
  | readFailed | read => exact ⟨rfl, _, rfl, ht.take (hnew _)⟩
  | committed => exact ⟨rfl, _, rfl, ht.settle (hnew _)⟩
  | accepting | acceptEnd | acceptDone | reading | readEnd | readDone => cases hval

/-- Both increments keep the ranks equal. -/
theorem rank_augmente {a b : UInt16} (h : rank a = rank b) :
    rank (tagAugmente a) = rank (taskAugmente b) := by
  have hnat := congrArg UInt16.toNat h
  rw [toNat_rank, toNat_rank] at hnat
  rw [← UInt16.toNat_inj, toNat_rank, toNat_rank, toNat_tagAugmente, toNat_taskAugmente, hnat]
  omega

/-- A poll of the awaited value, when the block goes on with `y`. -/
theorem PollsValue.call {v : Var} {k : Resp → τ} {L : List (Option Value)}
    {val val' : Value} {out : Out} {cur' : TaskInfo} {nb' : UInt16} {new : List Sqe}
    {evs : List Event} {m : Nat} (h : PollsValue V cur v) (hb : V.block = ⟨some (.poll v k), L⟩)
    (hv : L[v]? = some (some val))
    (hc : Called ⟨p, v⟩ cur V.nb V.outs val out val' cur' nb' new evs)
    (hfits : ∀ fds b len, val = .writeMultiple (.init fds b len) → fds.length ≤ 65535) :
    Keeps p { V with
      nb := nb'
      outs := V.outs + (new : Multiset Sqe)
      phase := .on cur'
      block := ⟨some (Await.Point.after v k (out.resp L.length)), out.bind (L.set v (some val'))⟩
      log := V.log ++ evs ++ [.call v val cur m (out.resp L.length)] } := by
  obtain ⟨hrest, hrank, h⟩ := h
  have hL : V.block.locals = L := congrArg AsyncBlock.locals hb
  rw [hL] at hrest h
  obtain ⟨hlt, -⟩ := List.getElem?_eq_some_iff.mp hv
  have hset : (L.set v (some val'))[v]? = some (some val') := List.getElem?_set_self hlt
  have hbut : SettledBut v (L.set v (some val')) :=
    Held.set (hrest.mono fun _ _ hu _ => hu) fun hne => absurd rfl hne
  rcases h with ⟨val1, hv1, hop, houts, ht⟩ | ⟨n, fds, faileds, len, b, nb, hv1, hfan, hcount, ht⟩
  · obtain rfl := Option.some.inj (Option.some.inj (hv1.symm.trans hv))
    cases hc with
    | send hs hq =>
      rw [houts, zero_add]
      exact ⟨hbut, .inl ⟨val', _, hset, hs.awaits hq hrank ht⟩⟩
    | opens hs => cases hs <;> cases hop
    | commit hs hq =>
      rw [houts, zero_add]
      exact ⟨hbut, .inl ⟨val', _, hset, hs.awaits hop hq hrank ht⟩⟩
    | fanOut hne hnew hevs =>
      rw [houts, zero_add]
      exact ⟨hbut, .inr ⟨_, _, _, _, _, _, hset, hnew.awaits (hfits _ _ _ rfl) hevs ht⟩⟩
    | fanOne | fanLast => cases hop
    | resolve hs =>
      obtain ⟨rfl, r, hr, ht'⟩ := hs.runsOn (v := v) (n := m) (k := L.length) hop ht
      rw [hr, List.append_nil]
      refine ⟨by simpa using houts, hrank, ?_, ht'⟩
      exact (Held.set hrest rfl).bind (fun _ => rfl) out
  · obtain rfl := Option.some.inj (Option.some.inj (hv1.symm.trans hv))
    have hnil : ∀ e ∈ ([] : List Event), ∃ q n, e = .submit q n := fun e he => nomatch he
    have hquiet : ∀ r, Tallied (V.log ++ [] ++
        [.call v (.writeMultiple (.pending n fds faileds len b)) cur m r]) none none := fun r => by
      rw [List.append_assoc]
      exact ht.quiet (deeds_call hnil cur v _ m r)
    cases hc with
    | send hs => cases hs
    | opens hs => cases hs
    | commit hs => cases hs
    | resolve hs => cases hs
    | fanOne hn hn1 hfd hused =>
      refine ⟨hbut, .inr ⟨_, _, _, _, _, nb, hset, ?_, .inl ?_, hquiet none⟩⟩
      · simpa using hfan
      · have hle : (1 : UInt16).toNat ≤ n.toNat := by
          rw [← hcount]
          exact Nat.le_add_left 1 _
        show (V.outs + 0).card = (n - 1).toNat
        rw [UInt16.toNat_sub_of_le _ _ (UInt16.le_iff_toNat_le.mpr hle), ← hcount, add_zero]
        rfl
    | fanLast hn hn1 hfd hused =>
      have hone : n = 1 := UInt16.sub_eq_iff_eq_add.mp hn1
      refine ⟨?_, ?_, Held.set hrest rfl, hquiet _⟩
      · rw [hone] at hcount
        have hnone : V.outs = 0 := Multiset.card_eq_zero.mp (by simpa using hcount)
        rw [hnone]
        rfl
      · exact rank_augmente hrank

/-- A fan-out has at most 65535 descriptors. -/
def Event.fits : Event → Bool
  | .call _ (.writeMultiple (.init fds _ _)) _ _ _ => fds.length ≤ 65535
  | _ => true

/-- What a run records: the kernel attaches buffers to reads only, and fan-outs fit their count. -/
def Event.lawful : Event → Bool
  | .cqe e _ _ => (selected e.flags).isNone || e.sqe.op.selects
  | ev => ev.fits

theorem deeds_accept (e : Cqe) (cls : SyscallNbCompResult) (others : List UInt16)
    (info : TaskInfo) : deeds [.cqe e cls others, .poll info] = e.arrival := by
  simp [deeds, Event.owes]

/-- The completion of the awaited operation starts the poll that takes it. -/
theorem AwaitsOperation.accept {val : Value} {q : Sqe} {e : Cqe} {cls : SyscallNbCompResult}
    {others : List UInt16} (h : AwaitsOperation V val q) (ha : Arrives V e cls others)
    (hlaw : (Event.cqe e cls others).lawful = true) : V.answered e = 0 ∧ cls ≠ .expired ∧
      Tallied (V.log ++ [.cqe e cls others, .poll (e.context cls)]) (val.due (e.context cls))
      val.committing := by
  obtain rfl : e.sqe = q := by
    have hmem := ha.mem
    rwa [h.outs, Multiset.mem_singleton] at hmem
  have hfinal : more e.flags = false := by
    by_contra hm
    have hmulti := ha.shots (by simpa using hm)
    rw [h.single] at hmulti
    cases hmulti
  refine ⟨?_, ?_, ?_⟩
  · simp [View.answered, hfinal, h.outs]
  · rintro rfl
    have hlt := (evaluate_expired_iff _ _).mp ha.cls.symm
    rw [h.rank] at hlt
    exact UInt16.lt_irrefl _ hlt
  · -- a value that is no read awaits an SQE to which the kernel attaches no buffer
    have hdue : val.due (e.context cls) = selected e.flags := by
      have hflags := congrArg selected (e.context_result cls).2
      cases hsel : selected e.flags with
      | none =>
        unfold Value.due
        split
        · exact hflags.trans hsel
        · rfl
      | some id =>
        have hop : e.sqe.op.selects = true := by simpa [Event.lawful, hsel] using hlaw
        obtain ⟨fd, rfl⟩ := h.selects hop
        exact hflags.trans hsel
    rw [hdue]
    exact h.tallied.arrive (deeds_accept e cls others _)

/-- A completion of a fan-out is one of a write, and the last of its entry. -/
theorem Fanned.arrives {nb : UInt16} {e : Cqe} {cls : SyscallNbCompResult} {others : List UInt16}
    (h : Fanned V.outs nb) (ha : Arrives V e cls others)
    (hlaw : (Event.cqe e cls others).lawful = true) :
    e.sqe.nb = nb ∧ V.answered e = V.outs.erase e.sqe ∧ (V.answered e).card + 1 = V.outs.card ∧
      Fanned (V.answered e) nb ∧ e.arrival = 0 := by
  have hfinal : more e.flags = false := by
    by_contra hm
    have hmulti := ha.shots (by simpa using hm)
    rw [h.single _ ha.mem] at hmulti
    cases hmulti
  have hans : V.answered e = V.outs.erase e.sqe := by simp [View.answered, hfinal]
  have hsub : ∀ q ∈ V.answered e, q ∈ V.outs := fun q hq => View.mem_of_answered hq
  refine ⟨h.nb _ ha.mem, hans, ?_,
    ⟨fun q hq => h.nb q (hsub q hq), fun q hq => h.single q (hsub q hq),
      fun q hq => h.plain q (hsub q hq)⟩, ?_⟩
  · rw [hans]
    exact Multiset.card_erase_add_one ha.mem
  · have hnone : selected e.flags = none := by
      simpa [Event.lawful, h.plain _ ha.mem] using hlaw
    rw [Cqe.arrival, hnone]
    rfl

/-- What a task awaits does not depend on the poll. -/
theorem AwaitsValue.congr {v : Var} (h : AwaitsValue V v) (hnb : V'.nb = V.nb)
    (houts : V'.outs = V.outs) (hlocals : V'.block.locals = V.block.locals)
    (hlog : V'.log = V.log) : AwaitsValue V' v := by
  obtain ⟨hrest, h⟩ := h
  rw [← hlocals] at hrest h
  rcases h with ⟨val, q, hv, h⟩ | ⟨n, fds, faileds, len, b, nb, hv, h⟩
  · exact ⟨hrest, .inl ⟨val, q, hv, h.operation, houts ▸ h.outs, hnb ▸ h.rank, h.single, h.selects,
      hlog ▸ h.tallied⟩⟩
  · exact ⟨hrest, .inr ⟨n, fds, faileds, len, b, nb, hv, houts ▸ h.fanned, houts ▸ hnb ▸ h.count,
      hlog ▸ h.tallied⟩⟩

/-- A completion reaches a task that waits. -/
theorem Keeps.waits (h : Keeps p V) {e : Cqe} {cls : SyscallNbCompResult} {others : List UInt16}
    (ha : Arrives V e cls others) : ∃ v k, V.block.code = some (.poll v k) ∧ AwaitsValue V v := by
  rw [Keeps, ha.off] at h
  rcases h with h | h
  · exact h
  · have hmem := ha.mem
    rw [h.outs] at hmem
    exact absurd hmem (Multiset.notMem_zero _)

/-- A task that waits is not freed, or nothing of it is left. -/
theorem Keeps.settle (hoff : V.phase = .off)
    (h : (∃ v k, V.block.code = some (.poll v k) ∧ AwaitsValue V v) ∨ Vacant V) :
    Keeps p V.settle := by
  unfold View.settle
  split
  · rename_i houts
    have hlog : ∀ waits, Tallied V.log none waits → waits = none →
        Tallied (V.log ++ [.dropped]) none none := by
      rintro waits ht rfl
      exact ht.quiet (deeds_singleton _)
    simp only [Keeps, hoff]
    rcases h with ⟨v, k, hx, hrest, ⟨val, q, hv, h⟩ | ⟨n, fds, faileds, len, b, nb, hv, h⟩⟩ | h
    · exact absurd (h.outs.symm.trans houts) (Multiset.singleton_ne_zero q)
    · exact .inr ⟨houts, rfl, hlog _ h.tallied rfl⟩
    · exact .inr ⟨houts, rfl, hlog _ h.tallied rfl⟩
  · simpa only [Keeps, hoff] using h

/-- **Every step of a task that awaits its operations** leads to where `Keeps` says. -/
theorem Keeps.step (hA : ∀ t, (A t).streamless = true) (hs : TaskStep (awaited A) p V V')
    (hlaw : ∀ e ∈ V'.log, e.lawful = true) (h : Keeps p V) : Keeps p V' := by
  cases hs with
  | @locals cur x y L L' hon hb hl =>
    obtain ⟨t, rfl⟩ := awaited_run rfl (fun v k hx => by rw [hx] at hl; cases hl)
      fun k hx => by rw [hx] at hl; cases hl
    simp only [Keeps, hon, hb] at h ⊢
    have hL : Settled L := by simpa only [hb] using h.settled
    rcases hL.awaits (hA t) hl with ⟨u, rfl, hL'⟩ | ⟨v, k, val, rfl, hv, hrest, hop, hwaits, hdue⟩
    · exact ⟨h.outs, h.rank, hL', h.tallied⟩
    · refine ⟨hrest, h.rank, .inl ⟨val, hv, hop, h.outs, ?_⟩⟩
      rw [hwaits, hdue]
      exact h.tallied
  | @spawn cur x child k L L' taken moved hon hb hx hm =>
    obtain ⟨t, c, u, rfl, rfl, rfl⟩ := awaited_spawn hx
    simp only [Keeps, hon, hb] at h ⊢
    have hL : Settled L := by simpa only [hb] using h.settled
    exact ⟨h.outs, h.rank, (hL.moves hm).1, h.tallied⟩
  | @call cur cur' x L v k val val' out nb' new evs hon hb hx hv hc =>
    obtain ⟨-, k', rfl, rfl | ⟨t, rfl, ht⟩⟩ := awaited_poll hx
    · simp only [Keeps, hon, hb] at h
      refine PollsValue.call h hb hv hc fun fds b len hval => ?_
      subst hval
      simpa [Event.lawful, Event.fits] using hlaw _
        (List.mem_append_right _ (List.mem_singleton_self _))
    · have hnext := hA t
      rw [ht] at hnext
      cases hnext
  | suspend hon hb hx =>
    obtain ⟨v, k', rfl, rfl⟩ := awaited_suspend hx
    simp only [Keeps, hon, hb] at h
    exact .inl ⟨v, k', rfl, h.congr rfl rfl (by rw [hb]) rfl⟩
  | ret hon hb hx =>
    obtain ⟨t, rfl⟩ := awaited_run hx (fun _ _ => nofun) fun _ => nofun
    simp only [Keeps, hon, hb] at h
    exact .inr ⟨h.outs, rfl, h.tallied.quiet (deeds_singleton _)⟩
  | leave hover hlive =>
    rw [Keeps, hover] at h
    refine Keeps.settle rfl ?_
    rcases h with ⟨v, k, hx, h⟩ | h
    · exact .inl ⟨v, k, hx, h.congr rfl rfl rfl rfl⟩
    · exact .inr ⟨h.outs, h.locals, h.tallied⟩
  | @skip e others harr =>
    have hlaw' : (Event.cqe e .expired others).lawful = true :=
      hlaw _ ((View.settle_log _).subset (List.mem_append_right _ List.mem_cons_self))
    obtain ⟨v, k, hx, hrest, ⟨val, q, hv, h⟩ | ⟨n, fds, faileds, len, b, nb, hv, h⟩⟩ := h.waits harr
    · exact absurd rfl (h.accept harr hlaw').2.1
    · obtain ⟨hnb, -, -, hfan, harrival⟩ := h.fanned.arrives harr hlaw'
      have hlt := (evaluate_expired_iff _ _).mp harr.cls.symm
      refine Keeps.settle harr.off
        (.inl ⟨v, k, hx, hrest, .inr ⟨n, fds, faileds, len, b, nb, hv, hfan, .inr ?_, ?_⟩⟩)
      · rintro rfl
        rw [hnb] at hlt
        exact UInt16.lt_irrefl _ hlt
      · exact h.tallied.quiet ((deeds_singleton _).trans harrival)
  | @accept e cls others harr hcls =>
    have hlaw' : (Event.cqe e cls others).lawful = true := hlaw _ (by simp)
    obtain ⟨v, k, hx, hrest, ⟨val, q, hv, h⟩ | ⟨n, fds, faileds, len, b, nb, hv, h⟩⟩ := h.waits harr
    · obtain ⟨houts, -, ht⟩ := h.accept harr hlaw'
      simp only [Keeps, hx]
      exact ⟨hrest, congrArg rank (harr.context_nb hcls), .inl ⟨val, hv, h.operation, houts, ht⟩⟩
    · obtain ⟨hnb, -, hcard, hfan, harrival⟩ := h.fanned.arrives harr hlaw'
      simp only [Keeps, hx]
      refine ⟨hrest, congrArg rank (harr.context_nb hcls),
        .inr ⟨n, fds, faileds, len, b, nb, hv, hfan, ?_, ?_⟩⟩
      · rcases h.count with hcount | hne
        · exact hcard.trans hcount
        · exact absurd (hnb.symm.trans (harr.nb_eq hcls)) hne
      · exact h.tallied.quiet ((deeds_accept e cls others _).trans harrival)

theorem Keeps.born (i : SlabIdx) (t : τ) {L : List (Option Value)} (hL : Settled L) :
    Keeps p (.born i (Await.Point.run t) L) := by
  simp only [Keeps, View.born]
  exact ⟨rfl, rfl, hL, fun id => rfl, fun id => rfl⟩

theorem Keeps.isLocal (hA : ∀ t, (A t).streamless = true) :
    Local (awaited A) Event.lawful Keeps where
  main p i x hx := by
    cases x with
    | run t => exact .born i t Held.nil
    | poll | suspend => cases hx
  spawn t i h hon hb hx hm _ := by
    obtain ⟨t, c, u, rfl, rfl, rfl⟩ := awaited_spawn hx
    simp only [Keeps, hon, hb] at h
    have hL := h.settled
    rw [hb] at hL
    exact .born i c ((hL.moves hm).2.mono fun _ _ ⟨_, hval⟩ => hval)
  step hs hlaw h := h.step hA hs hlaw

/-! ## Between two commands -/

/-- What a value holds of commits that wait. -/
theorem Value.count_commit (val : Value) (id : UInt32) :
    val.tokens.count (.commit id) = val.committing.toList.count id := by
  have htoken : ∀ b : RwBuffer, ({b.token} : Multiset Token).count (.commit id) = 0 := fun b => by
    unfold RwBuffer.token
    split <;> simp
  cases val with
  | rwBuffer b => exact htoken b
  | commitFn b len => exact htoken b
  | commit f =>
    cases f with
    | init => simp [Value.tokens, Value.committing]
    | pending x => exact count_elim (some x) .commit (fun a b => Token.commit.inj) id
  | wBuffer b => simp [Value.tokens, Value.committing]
  | writeMultiple f => cases f <;> simp [Value.tokens, Value.committing]
  | accept | read | write | socket | acceptStream | readStream | returned => rfl

theorem SettledBut.drop {L : List (Option Value)} {v : Var} (h : SettledBut v L) :
    Settled (L.set v none) := by
  intro u val hu
  rw [List.getElem?_set] at hu
  split at hu
  · split at hu <;> simp at hu
  · rename_i hne
    exact h u val hu (Ne.symm hne)

/-- A value that is settled is no commit that waits. -/
theorem Settled.count_commit {L : List (Option Value)} (h : Settled L) (id : UInt32) :
    (tokensOf L).count (.commit id) = 0 := by
  rw [tokensOf, count_sum]
  refine List.sum_eq_zero fun n hn => ?_
  obtain ⟨T, hT, rfl⟩ := List.mem_map.mp hn
  obtain ⟨o, ho, rfl⟩ := List.mem_map.mp hT
  cases o with
  | none => rfl
  | some val =>
    obtain ⟨u, hu⟩ := List.mem_iff_getElem?.mp ho
    have hsettled := h u val hu
    show val.tokens.count _ = 0
    rw [val.count_commit]
    cases val <;> first | rfl | cases hsettled

/-- Only the awaited value can be a commit that waits. -/
theorem count_commit {L : List (Option Value)} {v : Var} {val : Value} (hrest : SettledBut v L)
    (hv : L[v]? = some (some val)) (id : UInt32) :
    (tokensOf L).count (.commit id) = val.committing.toList.count id := by
  have hset := congrArg (Multiset.count (.commit id)) (tokensOf_set hv none)
  rw [Multiset.count_add, Multiset.count_add, hrest.drop.count_commit, zero_add] at hset
  exact hset.symm.trans (val.count_commit id)

/-- Between two commands, what a task has recorded and what it holds are even. -/
theorem Keeps.even (h : Keeps p V) (hoff : V.phase = .off) (id : UInt32) :
    (deeds V.log).count (.took id) = (deeds V.log).count (.arrived id) ∧
    (deeds V.log).count (.committed id) =
      (deeds V.log).count (.settled id) + (tokensOf V.block.locals).count (.commit id) := by
  simp only [Keeps, hoff] at h
  rcases h with ⟨v, k, hx, hrest, ⟨val, q, hv, h⟩ | ⟨n, fds, faileds, len, b, nb, hv, h⟩⟩ | h
  · rw [count_commit hrest hv]
    exact ⟨h.tallied.took id, h.tallied.commits id⟩
  · rw [count_commit hrest hv]
    exact ⟨h.tallied.took id, h.tallied.commits id⟩
  · rw [h.locals]
    exact ⟨h.tallied.took id, h.tallied.commits id⟩

end Steps

section Runs

variable {A : τ → Await.Instr τ} {posted : List Cqe} {s : State (Await.Point τ)}

theorem ReadRun.lawful {code : Code σ} {s : State σ}
    (hr : ReadRun code (fun s => s.records Event.fits) posted s) (hfits : s.records Event.fits) :
    s.records Event.lawful := by
  obtain ⟨back, hb⟩ := hr.audited
  simp only [State.records, List.all_eq_true] at hfits ⊢
  intro raw hraw ev hev
  have hev' := hfits raw hraw ev hev
  cases ev with
  | cqe e cls others =>
    have hmem := hb.owns.ledger.logged raw.log (List.mem_map_of_mem hraw) e cls others hev
    cases hsel : selected e.flags with
    | none => simp [Event.lawful, hsel]
    | some id => simp [Event.lawful, hr.selects e hmem id hsel]
  | call | spawned | poll | ready | submit | dropped => exact hev'

theorem ReadRun.runLawful {code : Code σ} {s : State σ}
    (hr : ReadRun code (fun s => s.records Event.fits) posted s) :
    RunWith code (fun _ s' => s'.records Event.lawful) s := by
  induction hr with
  | new h => exact .new h
  | act cmd hr ha hcmd hok ih => exact .act cmd ih ha ((ReadRun.act cmd hr ha hcmd hok).lawful hok)
  | complete e hr ha he hk hok ih =>
    exact .act _ ih ha ((ReadRun.complete e hr ha he hk hok).lawful hok)

/-- Over all tasks, what is recorded and what is held are even. -/
theorem even_run (hA : ∀ t, (A t).streamless = true)
    (hr : RunWith (awaited A) (fun _ s' => s'.records Event.lawful) s) (id : UInt32) :
    s.recorded.count (.took id) = s.recorded.count (.arrived id) ∧
    s.recorded.count (.committed id) = s.recorded.count (.settled id) +
    s.tokens.count (.commit id) := by
  have hview := (Keeps.isLocal hA).run hr
  have heven : ∀ raw ∈ s.heap, (deeds raw.log).count (.took id) =
    (deeds raw.log).count (.arrived id) ∧
      (deeds raw.log).count (.committed id) =
        (deeds raw.log).count (.settled id) + (tokensOf raw.future.locals).count (.commit id) := by
    intro raw hraw
    obtain ⟨p, hp⟩ := List.mem_iff_getElem?.mp hraw
    exact (hview.raw hp).even rfl id
  have htok : s.tokens.count (.commit id) =
      (s.heap.map fun raw => (tokensOf raw.future.locals).count (.commit id)).sum := by
    simp only [State.tokens, State.locals, count_sum, List.map_map]
    rfl
  rw [s.count_recorded, s.count_recorded, s.count_recorded, s.count_recorded, htok,
    ← List.sum_map_add]
  exact ⟨congrArg List.sum (List.map_congr_left fun raw hraw => (heven raw hraw).1),
    congrArg List.sum (List.map_congr_left fun raw hraw => (heven raw hraw).2)⟩

/-- **Each read slot is in exactly one place**, in every state of every run whose tasks await their
operations and open no stream: in the ring, in a completion that was not handled, in a `RwBuffer`,
or in a commit that waits. -/
theorem read_buffers_run (hA : ∀ t, (A t).streamless = true)
    (hr : ReadRun (awaited A) (fun s => s.records Event.fits) posted s) :
    (∀ id, s.places (drawn posted).length id = if id < s.buffer.readCount then 1 else 0) ∧
      .spoiled ∉ s.tokens := by
  obtain ⟨back, hb⟩ := hr.audited
  refine ⟨fun id => ?_, fun hmem => hb.owns.ledger.sound (Multiset.mem_add.mpr (.inl hmem))⟩
  have hplaces := hr.places (fun hr id => ((even_run hA hr.runLawful id).1).le) id
  obtain ⟨htook, hcommits⟩ := even_run hA hr.runLawful id
  rw [hb.owns.ledger.pool.readCount, State.places]
  omega

end Runs

/-! ## A run with a commit that waits -/

/-- An echo server: it reads once, and writes the buffer back. -/
def echoCode : Nat → Await.Instr Nat
  | 0 => .await (.read 5) fun _ => 1
  | 1 => .await (.commit 1 10) fun _ => 2
  | _ => .ret

/-- The kernel reads ten bytes into slot 0. -/
def echoRun : List (Cmd (Await.Point Nat)) :=
  [.spawn 9 (.run 0), .submit, .consume, .complete 0 10 1, .handle 9]

theorem read_buffers_run_echo : ∃ posted s, freshReadScript (awaited echoCode)
      (fun s => s.records Event.fits) echoRun = some (posted, s) ∧ s.tokens.count (.commit 0) = 1 ∧
    ∀ id, s.places (drawn posted).length id = if id < s.buffer.readCount then 1 else 0 := by
  have hrun : (freshReadScript (awaited echoCode) (fun s => s.records Event.fits) echoRun).any
      (fun c => c.2.tokens.count (.commit 0) == 1) = true := by decide +kernel
  obtain ⟨⟨posted, s⟩, hs, hc⟩ := (Option.any_eq_true _ _).mp hrun
  have hA : ∀ t, (echoCode t).streamless = true := fun t => by
    unfold echoCode
    split <;> rfl
  exact ⟨posted, s, hs, beq_iff_eq.mp hc, (read_buffers_run hA (.of_script (fun _ h => h) hs)).1⟩

end Onlyio
