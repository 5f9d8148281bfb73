import Onlyio.Machine.Within
import Onlyio.Runs.FanOut
import Onlyio.Runs.ReadBuffers

/-!
# The buffer of a fan-out

The entries of `write_multiple` hold no count of the pool: each clone is dropped as soon as its
entry is built. What keeps the slot is the one handle in the future, the future is kept by the task,
and the task by its references, one for each entry. `FanKeeps` says where a task stands that awaits
its futures: its outstanding SQEs belong to the future it awaits, and a fan-out that is ready has
none left.

* `FanKeeps.isLocal`: every step of such a task keeps that.
* `Within.owns`: between two instructions of a poll the counts of the pool are the handles in the
  blocks.
* **`fan_out_keeps_buffer`**: both together.
-/

namespace Onlyio

open Lib

variable {σ τ : Type}

/-! ## Where a task stands -/

/-- The instructions of a block that opens no stream and writes to at most 1024 descriptors at
once. -/
def Await.Instr.fansOut : Await.Instr τ → Bool
  | .stream _ _ | .next _ _ => false
  | .await (.writeMultiple _ fds _) _ => fds.length ≤ 1024
  | _ => true

/-- No fan-out began in local `v`. -/
def NoFanAt (log : List Event) (v : Var) : Prop :=
  ∀ fds b len info n out, Event.call v (.writeMultiple (.init fds b len)) info n out ∉ log

/-- The SQEs `outs` are the entries of the fan-out in local `v`, with the buffer `b`. -/
structure Fan (log : List Event) (outs : Multiset Sqe) (v : Var) (b : WBuffer) (len : UInt32)
    (nb : UInt16) : Prop where
  caller : ∀ q ∈ outs, q.caller.var = v
  op : ∀ q ∈ outs, ∃ fd, q.op = .writeFixed fd b.ptr len b.index
  nb : ∀ q ∈ outs, q.nb = nb
  first : ∀ fds b' len' info n out, .call v (.writeMultiple (.init fds b' len')) info n out ∈ log →
    b' = b ∧ len' = len

theorem Fan.single {log : List Event} {outs : Multiset Sqe} {v : Var} {b : WBuffer}
    {len : UInt32} {nb : UInt16} (h : Fan log outs v b len nb) {q : Sqe} (hq : q ∈ outs) :
    q.op.isMultishot = false := by
  obtain ⟨fd, hop⟩ := h.op q hq
  rw [hop]
  rfl

/-- The block awaits the value in local `v`: one SQE of it is outstanding, or it is a fan-out, and
every entry that counts is outstanding, or no completion will be accepted. -/
def FanAwaits (V : View (Await.Point τ)) (v : Var) : Prop :=
  (∃ val q, V.block.locals[v]? = some (some val) ∧ val.operation = true ∧
      (∀ fds b len, val ≠ .writeMultiple (.init fds b len)) ∧ V.outs = {q} ∧ q.caller.var = v ∧
      q.op.isMultishot = false ∧ NoFanAt V.log v) ∨
    ∃ n fds faileds len b nb,
      V.block.locals[v]? = some (some (.writeMultiple (.pending n fds faileds len b))) ∧
      Fan V.log V.outs v b len nb ∧ (V.outs.card = n.toNat ∨ nb ≠ V.nb)

/-- The block is about to poll the value in local `v`. -/
def FanPolls (V : View (Await.Point τ)) (v : Var) : Prop :=
  (∃ val, V.block.locals[v]? = some (some val) ∧ val.operation = true ∧
      (∀ fds b len, val = .writeMultiple (.init fds b len) → fds.length ≤ 1024) ∧ V.outs = 0 ∧
      NoFanAt V.log v) ∨
    ∃ n fds faileds len b nb,
      V.block.locals[v]? = some (some (.writeMultiple (.pending n fds faileds len b))) ∧
      Fan V.log V.outs v b len nb ∧ V.outs.card + 1 = n.toNat

/-- The locals that are not there yet were never polled. -/
def FanFresh (V : View (Await.Point τ)) : Prop :=
  ∀ u, V.block.locals.length ≤ u → NoFanAt V.log u

/-- Where a task stands that awaits its futures and opens no stream. -/
def FanKeeps (V : View (Await.Point τ)) : Prop :=
  match V.phase with
  | .on _ =>
    FanFresh V ∧
    match V.block.code with
    | some (.run _) => V.outs = 0
    | some (.poll v _) => FanPolls V v
    | some (.suspend v _) => FanAwaits V v
    | none => False
  | _ => (∃ v k, V.block.code = some (.poll v k) ∧ FanFresh V ∧ FanAwaits V v) ∨ V.outs = 0

/-! ## Steps -/

section Steps

variable {A : τ → Await.Instr τ} {p : TaskPtr} {V V' : View (Await.Point τ)}
  {log evs : List Event} {v : Var}

theorem NoFanAt.append (h : NoFanAt log v)
    (hevs : ∀ fds b len info n out,
    Event.call v (.writeMultiple (.init fds b len)) info n out ∉ evs) : NoFanAt (log ++ evs) v := by
  intro fds b len info n out hmem
  rcases List.mem_append.mp hmem with hmem | hmem
  · exact h fds b len info n out hmem
  · exact hevs fds b len info n out hmem

/-- Only a call can begin a fan-out. -/
def Event.isCall : Event → Bool
  | .call _ _ _ _ _ => true
  | _ => false

theorem NoFanAt.quiet (h : NoFanAt log v) (hevs : ∀ e ∈ evs, e.isCall = false) :
    NoFanAt (log ++ evs) v := by
  refine h.append fun fds b len info n out hmem => ?_
  cases hevs _ hmem

theorem Fan.quiet {outs outs' : Multiset Sqe} {b : WBuffer} {len : UInt32} {nb : UInt16}
    (h : Fan log outs v b len nb) (hle : ∀ q ∈ outs', q ∈ outs)
    (hevs : ∀ e ∈ evs, e.isCall = false) : Fan (log ++ evs) outs' v b len nb := by
  refine ⟨fun q hq => h.caller q (hle q hq), fun q hq => h.op q (hle q hq),
    fun q hq => h.nb q (hle q hq), fun fds b' len' info n out hmem => ?_⟩
  rcases List.mem_append.mp hmem with hmem | hmem
  · exact h.first fds b' len' info n out hmem
  · cases hevs _ hmem

/-- An instruction on the locals: the block runs on, or has built an operation and awaits it. -/
theorem fansOut_local {t : τ} {y : Await.Point τ} {L L' : List (Option Value)}
    (hA : (A t).fansOut = true) (h : LocalStep L (awaited A (.run t)) y L') :
    L.length ≤ L'.length ∧ ((∃ u, y = .run u) ∨
      ∃ k val, y = .poll L.length k ∧ L'[L.length]? = some (some val) ∧ val.operation = true ∧
        ∀ fds b len, val = .writeMultiple (.init fds b len) → fds.length ≤ 1024) := by
  simp only [awaited, awaitedInstr] at h
  cases hAt : A t with
  | await op k =>
    rw [hAt] at h hA
    cases h with
    | @make _ _ val L' hm =>
      have hlen : L'.length = L.length := by cases hm <;> simp
      refine ⟨by simp [hlen], .inr ⟨k, val, by rw [hlen], ?_, ?_, ?_⟩⟩
      · rw [← hlen]
        exact List.getElem?_concat_length
      · cases hm <;> rfl
      · rintro fds b len rfl
        cases hm with
        | writeMultiple => simpa [Await.Instr.fansOut] using hA
  | drop v k =>
    rw [hAt] at h
    cases h with
    | drop => exact ⟨by simp, .inl ⟨_, rfl⟩⟩
  | allocWrite k =>
    rw [hAt] at h
    cases h with
    | allocWrite => exact ⟨by simp, .inl ⟨_, rfl⟩⟩
  | cloneWrite v k =>
    rw [hAt] at h
    cases h with
    | cloneWrite => exact ⟨by simp, .inl ⟨_, rfl⟩⟩
  | stream | next =>
    rw [hAt] at hA
    cases hA
  | ret | spawn =>
    rw [hAt] at h
    cases h

/-- What a call adds to the log of the other locals. -/
theorem NoFanAt.call {u : Var} {val : Value} {info : TaskInfo} {n : Nat} {out : Option Resp}
    (h : NoFanAt log u) (hevs : ∀ e ∈ evs, ∃ q n, e = .submit q n)
    (hval : u = v → ∀ fds b len, val ≠ .writeMultiple (.init fds b len)) :
    NoFanAt (log ++ evs ++ [.call v val info n out]) u := by
  have hcall : ∀ e ∈ evs, e.isCall = false := fun e he => by
    obtain ⟨q, n, rfl⟩ := hevs e he
    rfl
  refine (h.quiet hcall).append fun fds b len info' n' out' hmem => ?_
  obtain ⟨rfl, rfl, -⟩ := Event.call.inj (List.mem_singleton.mp hmem)
  exact hval rfl fds b len rfl

/-- A fan-out begins: its entries name its buffer. -/
theorem FanOut.fan {cur : TaskInfo} {fds : List UInt32} {b : WBuffer} {len : UInt32}
    {new : List Sqe} {m : Nat} (h : FanOut ⟨p, v⟩ cur fds new)
    (hops : new.map Sqe.op = fds.map fun fd => .writeFixed fd b.ptr len b.index)
    (hevs : ∀ e ∈ evs, ∃ q n, e = .submit q n) (hno : NoFanAt log v) :
    Fan (log ++ evs ++ [.call v (.writeMultiple (.init fds b len)) cur m none]) new v b len
    cur.tag.syscallNb := by
  refine ⟨fun q hq => congrArg Caller.var (h.caller q hq), fun q hq => ?_, h.nb,
    fun fds' b' len' info n out hmem => ?_⟩
  · have hop : q.op ∈ new.map Sqe.op := List.mem_map_of_mem hq
    rw [hops] at hop
    obtain ⟨fd, -, hfd⟩ := List.mem_map.mp hop
    exact ⟨fd, hfd.symm⟩
  · rcases List.mem_append.mp hmem with hmem | hmem
    · have hcall : ∀ e ∈ evs, e.isCall = false := fun e he => by
        obtain ⟨q, n, rfl⟩ := hevs e he
        rfl
      exact absurd hmem (hno.quiet hcall fds' b' len' info n out)
    · obtain ⟨-, hval, -⟩ := Event.call.inj (List.mem_singleton.mp hmem)
      simp only [Value.writeMultiple.injEq, WriteMultipleFuture.init.injEq] at hval
      exact hval.2

/-- As many entries as the future counts. -/
theorem FanOut.card {cur : TaskInfo} {fds : List UInt32} {new : List Sqe} {me : Caller}
    (h : FanOut me cur fds new) (hsize : fds.length ≤ 1024) :
    new.length = (UInt16.ofNat fds.length).toNat := by
  have hlen : new.length = fds.length := by simpa using congrArg List.length h.gens
  rw [hlen, UInt16.toNat_ofNat']
  omega

/-- One SQE of an operation is queued, and its poll is pending. -/
theorem FanAwaits.sent {nb : UInt16} {L : List (Option Value)} {val val' : Value} {q : Sqe}
    {cur : TaskInfo} {x : Await.Point τ} {phase : Phase} {freed : Bool} {m : Nat}
    (hv : v < L.length) (hq : q.caller.var = v) (hsingle : q.op.isMultishot = false)
    (hop : val'.operation = true) (hval : ∀ fds b len, val ≠ .writeMultiple (.init fds b len))
    (hval' : ∀ fds b len, val' ≠ .writeMultiple (.init fds b len)) (hno : NoFanAt log v)
    (hevs : ∀ e ∈ evs, ∃ q n, e = .submit q n) :
    FanAwaits ⟨nb, {q}, ⟨some x, L.set v (some val')⟩, log ++ evs ++ [.call v val cur m none],
    phase, freed⟩ v :=
  .inl ⟨val', q, List.getElem?_set_self hv, hop, hval', rfl, hq, hsingle,
    hno.call hevs fun _ => hval⟩

/-- The first or a later poll of an operation other than a fan-out that waits. -/
theorem FanPolls.operation {cur cur' : TaskInfo} {k : Resp → τ} {L : List (Option Value)}
    {val val' : Value} {out : Out} {nb' : UInt16} {new : List Sqe} {m : Nat} (hv : v < L.length)
    (hop : val.operation = true) (hsize : ∀ fds b len, val = .writeMultiple (.init fds b len) →
    fds.length ≤ 1024) (houts : V.outs = 0) (hno : NoFanAt V.log v)
    (hc : Called ⟨p, v⟩ cur V.nb V.outs val out val' cur' nb' new evs) :
    (out = .pending ∧ FanAwaits { V with
      nb := nb', outs := V.outs + (new : Multiset Sqe), phase := .on cur'
      block := ⟨some (.suspend v k), L.set v (some val')⟩
      log := V.log ++ evs ++ [.call v val cur m none] } v) ∨
    (∃ r, out.resp L.length = some r) ∧ new = [] := by
  have hevs := hc.submits
  cases hc with
  | send hs hq =>
    refine .inl ⟨rfl, ?_⟩
    rw [houts] at hevs
    rw [houts, zero_add]
    have hsingle := hs.single
    rw [← hq.op] at hsingle
    cases hs <;> exact .sent hv (congrArg Caller.var hq.caller) hsingle rfl (by simp)
      (by simp) hno hevs
  | opens hs => cases hs <;> cases hop
  | commit hs hq =>
    refine .inl ⟨rfl, ?_⟩
    rw [houts] at hevs
    rw [houts, zero_add]
    cases hs with
    | first b len =>
      exact .sent hv (congrArg Caller.var hq.caller) (by rw [hq.op]; rfl) rfl (by simp)
        (by simp) hno hevs
    | init => cases hop
  | fanOut hne hnew _ hops =>
    refine .inl ⟨rfl, ?_⟩
    rw [houts, zero_add]
    exact .inr ⟨_, _, _, _, _, _, List.getElem?_set_self hv, hnew.fan hops hevs hno,
      .inl (hnew.card (hsize _ _ _ rfl))⟩
  | fanOne | fanLast => cases hop
  | resolve hs => exact .inr ⟨by cases hs <;> exact ⟨_, rfl⟩, rfl⟩

/-- A completion of a fan-out is taken: it goes on waiting, or was the last. -/
theorem FanPolls.fan {cur cur' : TaskInfo} {k : Resp → τ} {L : List (Option Value)}
    {val' : Value} {out : Out} {nb nb' : UInt16} {new : List Sqe} {m : Nat} {n : UInt16}
    {fds : List UInt32} {faileds : List WriteResult} {len : UInt32} {b : WBuffer}
    (hv : v < L.length) (hfan : Fan V.log V.outs v b len nb) (hcount : V.outs.card + 1 = n.toNat)
    (hc : Called ⟨p, v⟩ cur V.nb V.outs (.writeMultiple (.pending n fds faileds len b)) out val'
    cur' nb' new evs) : (out = .pending ∧ FanAwaits { V with
      nb := nb', outs := V.outs + (new : Multiset Sqe), phase := .on cur'
      block := ⟨some (.suspend v k), L.set v (some val')⟩
      log := V.log ++ evs ++
        [.call v (.writeMultiple (.pending n fds faileds len b)) cur m none] } v) ∨
    (∃ r, out.resp L.length = some r) ∧ V.outs = 0 ∧ new = [] := by
  cases hc with
  | send hs => cases hs
  | opens hs => cases hs
  | commit hs => cases hs
  | resolve hs => cases hs
  | fanOne hn hn1 hfd hused =>
    refine .inl ⟨rfl, .inr ⟨_, _, _, _, _, nb, List.getElem?_set_self hv, ?_, .inl ?_⟩⟩
    · refine ⟨fun q hq => hfan.caller q (by simpa using hq),
        fun q hq => hfan.op q (by simpa using hq), fun q hq => hfan.nb q (by simpa using hq),
        fun fds' b' len' info n' out hmem => ?_⟩
      simp only [List.append_nil] at hmem
      rcases List.mem_append.mp hmem with hmem | hmem
      · exact hfan.first fds' b' len' info n' out hmem
      · obtain ⟨-, hval, -⟩ := Event.call.inj (List.mem_singleton.mp hmem)
        cases hval
    · have hle : (1 : UInt16).toNat ≤ n.toNat := by
        rw [← hcount]
        exact Nat.le_add_left 1 _
      show (V.outs + 0).card = (n - 1).toNat
      rw [UInt16.toNat_sub_of_le _ _ (UInt16.le_iff_toNat_le.mpr hle), ← hcount, add_zero]
      rfl
  | fanLast hn hn1 hfd hused =>
    obtain rfl : n = 1 := UInt16.sub_eq_iff_eq_add.mp hn1
    refine .inr ⟨⟨_, rfl⟩, Multiset.card_eq_zero.mp ?_, rfl⟩
    simpa using hcount

/-- A poll of the awaited value. -/
theorem FanPolls.call {cur cur' : TaskInfo} {k : Resp → τ} {L : List (Option Value)}
    {val val' : Value} {out : Out} {nb' : UInt16} {new : List Sqe} {m : Nat} (h : FanPolls V v)
    (hfresh : FanFresh V) (hb : V.block = ⟨some (.poll v k), L⟩) (hv : L[v]? = some (some val))
    (hc : Called ⟨p, v⟩ cur V.nb V.outs val out val' cur' nb' new evs) :
    FanKeeps { V with
      nb := nb'
      outs := V.outs + (new : Multiset Sqe)
      phase := .on cur'
      block := ⟨some (Await.Point.after v k (out.resp L.length)), out.bind (L.set v (some val'))⟩
      log := V.log ++ evs ++ [.call v val cur m (out.resp L.length)] } := by
  have hL : V.block.locals = L := congrArg AsyncBlock.locals hb
  rw [FanFresh, hL] at hfresh
  unfold FanPolls at h
  rw [hL] at h
  obtain ⟨hlt, -⟩ := List.getElem?_eq_some_iff.mp hv
  constructor
  · intro u hu
    have hle : L.length ≤ u := by
      have hbind := Out.length_le_bind (L.set v (some val')) out
      rw [List.length_set] at hbind
      exact hbind.trans hu
    exact (hfresh u hle).call hc.submits fun he => absurd hlt (he ▸ Nat.not_lt.mpr hle)
  · rcases h with ⟨val1, hv1, hop, hsize, houts, hno⟩ | ⟨n, fds, faileds, len, b, nb,
      hv1, hfan, hcount⟩
    · obtain rfl := Option.some.inj (Option.some.inj (hv1.symm.trans hv))
      rcases FanPolls.operation (k := k) (m := m) hlt hop hsize houts hno hc with
        ⟨rfl, hawaits⟩ | ⟨⟨r, hr⟩, rfl⟩
      · exact hawaits
      · rw [hr]
        show V.outs + 0 = 0
        rw [houts, add_zero]
    · obtain rfl := Option.some.inj (Option.some.inj (hv1.symm.trans hv))
      rcases FanPolls.fan (k := k) (m := m) hlt hfan hcount hc with
        ⟨rfl, hawaits⟩ | ⟨⟨r, hr⟩, houts, rfl⟩
      · exact hawaits
      · rw [hr]
        show V.outs + 0 = 0
        rw [houts, add_zero]

/-- What a task awaits does not depend on the poll. -/
theorem FanAwaits.congr (h : FanAwaits V v) (hnb : V'.nb = V.nb) (houts : V'.outs = V.outs)
    (hlocals : V'.block.locals = V.block.locals) (hlog : V'.log = V.log) : FanAwaits V' v := by
  unfold FanAwaits
  rw [hnb, houts, hlocals, hlog]
  exact h

/-- A completion reaches a task that waits. -/
theorem FanKeeps.waits (h : FanKeeps V) {e : Cqe} {cls : SyscallNbCompResult} {others : List UInt16}
    (ha : Arrives V e cls others) : ∃ v k, V.block.code = some (.poll v k) ∧ FanFresh V ∧
    FanAwaits V v := by
  rw [FanKeeps, ha.off] at h
  rcases h with h | h
  · exact h
  · have hmem := ha.mem
    rw [h] at hmem
    exact absurd hmem (Multiset.notMem_zero _)

/-- What a completion leaves outstanding of what a task awaits: nothing, or one entry less. -/
theorem FanAwaits.answered (h : FanAwaits V v) {e : Cqe} {cls : SyscallNbCompResult}
    {others : List UInt16} (ha : Arrives V e cls others) :
    (∃ val, V.block.locals[v]? = some (some val) ∧ val.operation = true ∧
      (∀ fds b len, val ≠ .writeMultiple (.init fds b len)) ∧ V.answered e = 0 ∧ NoFanAt V.log v) ∨
    ∃ n fds faileds len b nb,
      V.block.locals[v]? = some (some (.writeMultiple (.pending n fds faileds len b))) ∧
      Fan V.log V.outs v b len nb ∧ (V.outs.card = n.toNat ∨ nb ≠ V.nb) ∧ e.sqe.nb = nb ∧
      (V.answered e).card + 1 = V.outs.card := by
  have hfinal : e.sqe.op.isMultishot = false → V.answered e = V.outs.erase e.sqe := by
    intro hsingle
    have hmore : more e.flags = false := by
      by_contra hm
      have hmulti := ha.shots (by simpa using hm)
      rw [hsingle] at hmulti
      cases hmulti
    simp [View.answered, hmore]
  rcases h with ⟨val, q, hv, hop, hne, houts, hcaller, hsingle, hno⟩ | ⟨n, fds, faileds, len, b, nb,
    hv, hfan, hcount⟩
  · obtain rfl : e.sqe = q := by
      have hmem := ha.mem
      rwa [houts, Multiset.mem_singleton] at hmem
    refine .inl ⟨val, hv, hop, hne, ?_, hno⟩
    rw [hfinal hsingle, houts]
    simp
  · refine .inr ⟨n, fds, faileds, len, b, nb, hv, hfan, hcount, hfan.nb _ ha.mem, ?_⟩
    rw [hfinal (hfan.single ha.mem)]
    exact Multiset.card_erase_add_one ha.mem

theorem FanKeeps.settle (hoff : V.phase = .off)
    (h : (∃ v k, V.block.code = some (.poll v k) ∧ FanFresh V ∧ FanAwaits V v) ∨ V.outs = 0) :
    FanKeeps V.settle := by
  unfold View.settle
  split
  · rename_i houts
    simp only [FanKeeps, hoff]
    exact .inr houts
  · simpa only [FanKeeps, hoff] using h

/-- **Every step of a task that awaits its futures.** -/
theorem FanKeeps.step (hA : ∀ t, (A t).fansOut = true) (hs : TaskStep (awaited A) p V V')
    (h : FanKeeps V) : FanKeeps V' := by
  cases hs with
  | @locals cur x y L L' hon hb hl =>
    obtain ⟨t, rfl⟩ := awaited_run rfl (fun v k hx => by rw [hx] at hl; cases hl)
      fun k hx => by rw [hx] at hl; cases hl
    simp only [FanKeeps, hon, hb] at h ⊢
    obtain ⟨hfresh, houts⟩ := h
    rw [FanFresh, hb] at hfresh
    obtain ⟨hle, hy⟩ := fansOut_local (hA t) hl
    refine ⟨fun u hu => hfresh u (hle.trans hu), ?_⟩
    rcases hy with ⟨u, rfl⟩ | ⟨k, val, rfl, hval, hop, hsize⟩
    · exact houts
    · exact .inl ⟨val, hval, hop, hsize, houts, hfresh _ (Nat.le_refl _)⟩
  | @spawn cur x child k L L' taken moved hon hb hx hm =>
    obtain ⟨t, c, u, rfl, rfl, rfl⟩ := awaited_spawn hx
    simp only [FanKeeps, hon, hb] at h ⊢
    obtain ⟨hfresh, houts⟩ := h
    rw [FanFresh, hb] at hfresh
    exact ⟨fun u hu => hfresh u (hm.length_eq ▸ hu), houts⟩
  | @call cur cur' x L v k val val' out nb' new evs hon hb hx hv hc =>
    obtain ⟨-, k', rfl, rfl | ⟨t, rfl, ht⟩⟩ := awaited_poll hx
    · simp only [FanKeeps, hon, hb] at h
      exact h.2.call h.1 hb hv hc
    · have hnext := hA t
      rw [ht] at hnext
      cases hnext
  | suspend hon hb hx =>
    obtain ⟨v, k', rfl, rfl⟩ := awaited_suspend hx
    simp only [FanKeeps, hon, hb] at h
    refine .inl ⟨v, k', rfl, ?_, h.2.congr rfl rfl (by rw [hb]) rfl⟩
    have hfresh := h.1
    rwa [FanFresh, hb] at hfresh
  | ret hon hb hx =>
    obtain ⟨t, rfl⟩ := awaited_run hx (fun _ _ => nofun) fun _ => nofun
    simp only [FanKeeps, hon, hb] at h
    exact .inr h.2
  | leave hover hlive =>
    rw [FanKeeps, hover] at h
    refine FanKeeps.settle rfl ?_
    rcases h with ⟨v, k, hx, hfresh, h⟩ | h
    · exact .inl ⟨v, k, hx, hfresh, h.congr rfl rfl rfl rfl⟩
    · exact .inr h
  | @skip e others harr =>
    obtain ⟨v, k, hx, hfresh, h⟩ := h.waits harr
    have hquiet : ∀ ev ∈ [Event.cqe e .expired others], ev.isCall = false := fun ev hev => by
      rw [List.mem_singleton.mp hev]
      rfl
    refine FanKeeps.settle harr.off ?_
    rcases h.answered harr with ⟨val, hv, hop, hne, hans, hno⟩ | ⟨n, fds, faileds, len, b, nb, hv,
      hfan, hcount, hnb, hcard⟩
    · exact .inr hans
    · -- an entry that expired does not carry the number of the task
      have hlt := (evaluate_expired_iff _ _).mp harr.cls.symm
      have hother : nb ≠ V.nb := by
        rintro rfl
        rw [hnb] at hlt
        exact UInt16.lt_irrefl _ hlt
      refine .inl ⟨v, k, hx, fun u hu => (hfresh u hu).quiet hquiet,
        .inr ⟨n, fds, faileds, len, b, nb, hv, ?_, .inr hother⟩⟩
      exact hfan.quiet (fun q hq => View.mem_of_answered hq) hquiet
  | @accept e cls others harr hcls =>
    obtain ⟨v, k, hx, hfresh, h⟩ := h.waits harr
    have hquiet : ∀ ev ∈ [Event.cqe e cls others, .poll (e.context cls)],
        ev.isCall = false := by
      intro ev hev
      simp only [List.mem_cons, List.not_mem_nil, or_false] at hev
      rcases hev with rfl | rfl <;> rfl
    simp only [FanKeeps, hx]
    refine ⟨fun u hu => (hfresh u hu).quiet hquiet, ?_⟩
    rcases h.answered harr with ⟨val, hv, hop, hne, hans, hno⟩ | ⟨n, fds, faileds, len, b, nb, hv,
      hfan, hcount, hnb, hcard⟩
    · exact .inl ⟨val, hv, hop, fun fds b len he => absurd he (hne fds b len), hans,
        hno.quiet hquiet⟩
    · refine .inr
        ⟨n, fds, faileds, len, b, nb, hv,
        hfan.quiet (fun q hq => View.mem_of_answered hq) hquiet, ?_⟩
      rcases hcount with hcount | hother
      · exact hcard.trans hcount
      · exact absurd (hnb.symm.trans (harr.nb_eq hcls)) hother

theorem FanKeeps.isLocal (hA : ∀ t, (A t).fansOut = true) :
    Local (awaited A) (fun _ => true) fun _ V => FanKeeps V where
  main _ i x hx := by
    cases x with
    | run t => exact ⟨fun u _ fds b len info n out hmem => by simp [View.born] at hmem, rfl⟩
    | poll | suspend => cases hx
  spawn _ i _ hon hb hx hm _ := by
    obtain ⟨t, c, u, rfl, rfl, rfl⟩ := awaited_spawn hx
    exact ⟨fun u _ fds b len info n out hmem => by simp [View.born] at hmem, rfl⟩
  step hs _ h := h.step hA hs

/-- The entry `q` writes from the buffer `b`, and the future that submitted it holds a handle to
`b`. -/
def HoldsFan (V : View (Await.Point τ)) (q : Sqe) (b : WBuffer) (len : UInt32) : Prop :=
  (∃ fd, q.op = .writeFixed fd b.ptr len b.index) ∧
    ∃ c fds faileds, V.block.locals[q.caller.var]? =
    some (some (.writeMultiple (.pending c fds faileds len b)))

section Holds

variable {q : Sqe} {fds : List UInt32} {b : WBuffer} {len : UInt32} {info : TaskInfo} {n : Nat}
  {out : Option Resp} (hq : q ∈ V.outs)
    (hev : .call q.caller.var (.writeMultiple (.init fds b len)) info n out ∈ V.log)
include hq hev

theorem Fan.holds {c : UInt16} {fds' : List UInt32} {faileds : List WriteResult}
    {len' : UInt32} {b' : WBuffer} {nb : UInt16} (h : Fan V.log V.outs v b' len' nb)
    (hv : V.block.locals[v]? = some (some (.writeMultiple (.pending c fds' faileds len' b')))) :
    HoldsFan V q b len := by
  obtain rfl := h.caller q hq
  obtain ⟨rfl, rfl⟩ := h.first _ _ _ _ _ _ hev
  exact ⟨h.op q hq, c, fds', faileds, hv⟩

theorem FanAwaits.holds (h : FanAwaits V v) : HoldsFan V q b len := by
  rcases h with ⟨val, q', hv, hop, hne, houts, hcaller, hsingle, hno⟩ | ⟨c, fds', faileds, len',
    b', nb, hv, hf, -⟩
  · rw [houts, Multiset.mem_singleton] at hq
    subst hq hcaller
    exact absurd hev (hno fds b len info n out)
  · exact hf.holds hq hev hv

/-- **The buffer of a fan-out is in the block** as long as one of its entries is outstanding. -/
theorem FanKeeps.holds (h : FanKeeps V) : HoldsFan V q b len := by
  have hnone : V.outs ≠ 0 := fun houts => absurd (houts ▸ hq) (Multiset.notMem_zero q)
  unfold FanKeeps at h
  split at h
  · obtain ⟨-, h⟩ := h
    split at h
    · exact absurd h hnone
    · rcases h with ⟨val, hv, hop, hsize, houts, hno⟩ | ⟨c, fds', faileds, len', b', nb, hv, hf, -⟩
      · exact absurd houts hnone
      · exact hf.holds hq hev hv
    · exact h.holds hq hev
    · exact h.elim
  · rcases h with ⟨v, k, -, -, h⟩ | houts
    · exact h.holds hq hev
    · exact absurd houts hnone

end Holds

end Steps

/-! ## What is left of a fan-out that is ready -/

/-- The fan-out in local `v` was ready. -/
def Resolved (log : List Event) (v : Var) : Prop :=
  ∃ f info n r, .call v (.writeMultiple f) info n (some r) ∈ log

/-- Nothing is left of a fan-out that was ready, nor of a task that was freed. -/
structure Spent (V : View σ) : Prop where
  live : V.phase ≠ .off → V.freed = false
  freed : V.freed = true → V.block.locals = []
  lt : V.freed = false → V.block.code.isSome → ∀ v, Resolved V.log v → v < V.block.locals.length
  returned : ∀ v, Resolved V.log v → ∀ val, V.block.locals[v]? = some (some val) → val = .returned

theorem Resolved.of_append {log evs : List Event} {v : Var} (h : Resolved (log ++ evs) v)
    (hevs : ∀ e ∈ evs, e.isCall = false) : Resolved log v := by
  obtain ⟨f, info, n, r, hmem⟩ := h
  rcases List.mem_append.mp hmem with hmem | hmem
  · exact ⟨f, info, n, r, hmem⟩
  · cases hevs _ hmem

/-- A fan-out that is ready leaves nothing, and is not polled again. -/
theorem Called.spent {me : Caller} {cur cur' : TaskInfo} {nb nb' : UInt16} {outs : Multiset Sqe}
    {val val' : Value} {out : Out} {new : List Sqe} {evs : List Event}
    (h : Called me cur nb outs val out val' cur' nb' new evs) : val ≠ .returned ∧
      ∀ f r n, val = .writeMultiple f → out.resp n = some r → val' = .returned := by
  cases h with
  | send h | opens h | commit h | resolve h => cases h <;> exact ⟨nofun, nofun⟩
  | fanOut | fanOne => exact ⟨nofun, fun _ _ _ _ h => nomatch h⟩
  | fanLast => exact ⟨nofun, fun _ _ _ _ _ => rfl⟩

section Spent

variable {code : Code σ} {p : TaskPtr} {V V' : View σ}

theorem Spent.edit {cur : TaskInfo} {x y : σ} {L L' : List (Option Value)} (h : Spent V)
    (hon : V.phase = .on cur) (hb : V.block = ⟨some x, L⟩) (hlen : L.length ≤ L'.length)
    (hold : Held (fun u val => L[u]? = some (some val) ∨ L.length ≤ u) L') :
    Spent { V with block := ⟨some y, L'⟩ } := by
  have hlive := h.live (by rw [hon]; exact nofun)
  have hlt : ∀ v, Resolved V.log v → v < L.length := fun v hv => by
    have := h.lt hlive (by rw [hb]; rfl) v hv
    rwa [hb] at this
  refine ⟨h.live, fun hf => ?_, fun _ _ v hv => Nat.lt_of_lt_of_le (hlt v hv) hlen,
    fun v hv val hval => ?_⟩
  · exact absurd (hlive.symm.trans hf) nofun
  · have hval' := (hold v val hval).resolve_right (Nat.not_le.mpr (hlt v hv))
    exact h.returned v hv val (by rw [hb]; exact hval')

theorem Spent.settle (h : Spent V) (hoff : V.phase = .off) : Spent V.settle := by
  unfold View.settle
  split
  · refine ⟨fun hne => absurd hoff hne, fun _ => rfl, nofun, fun v _ val hval => ?_⟩
    cases hval
  · exact h

/-- Events that are no calls. -/
theorem Spent.quiet {evs : List Event} {nb : UInt16} {outs : Multiset Sqe}
    {phase : Phase} (h : Spent V) (hlive : V.freed = false) (hevs : ∀ e ∈ evs, e.isCall = false) :
    Spent { V with nb := nb, outs := outs, phase := phase, log := V.log ++ evs } :=
  ⟨fun _ => hlive, h.freed, fun hf hx v hv => h.lt hf hx v (hv.of_append hevs),
    fun v hv => h.returned v (hv.of_append hevs)⟩

theorem Spent.step (hs : TaskStep code p V V') (h : Spent V) : Spent V' := by
  cases hs with
  | locals hon hb hl =>
    obtain ⟨hlen, hold⟩ := hl.origin
    exact h.edit hon hb hlen hold
  | @spawn cur x child k L L' taken moved hon hb hx hm =>
    have hold : Held (fun u val => L[u]? = some (some val)) L := fun u val hu => hu
    exact h.edit hon hb (Nat.le_of_eq hm.length_eq.symm)
      ((hold.moves hm).1.mono fun u val hu => .inl hu)
  | @call cur cur' x L v k val val' out nb' new evs hon hb hx hv hc =>
    have hlive := h.live (by rw [hon]; exact nofun)
    have hL : V.block.locals = L := congrArg AsyncBlock.locals hb
    obtain ⟨hvlt, -⟩ := List.getElem?_eq_some_iff.mp hv
    have hlen : L.length ≤ (out.bind (L.set v (some val'))).length := by
      have hbind := Out.length_le_bind (L.set v (some val')) out
      rwa [List.length_set] at hbind
    have hsub : ∀ e ∈ evs, e.isCall = false := fun e he => by
      obtain ⟨q, n, rfl⟩ := hc.submits e he
      rfl
    -- what was resolved before is not what is polled now
    have hold : ∀ u, Resolved V.log u → u < L.length ∧ u ≠ v := fun u hu => by
      refine ⟨hL ▸ h.lt hlive (by rw [hb]; rfl) u hu, ?_⟩
      rintro rfl
      exact hc.spent.1 (h.returned u hu val (hL ▸ hv))
    have hsplit : ∀ u,
      Resolved (V.log ++ evs ++
      [.call v val cur (V.rivals cur.tag.syscallNb) (out.resp L.length)]) u →
        Resolved V.log u ∨ u = v ∧ val' = .returned := by
      rintro u ⟨f, info, n, r, hmem⟩
      rcases List.mem_append.mp hmem with hmem | hmem
      · exact .inl (Resolved.of_append ⟨f, info, n, r, hmem⟩ hsub)
      · obtain ⟨rfl, rfl, -, -, hr⟩ := Event.call.inj (List.mem_singleton.mp hmem)
        exact .inr ⟨rfl, hc.spent.2 f r _ rfl hr.symm⟩
    have hget : ∀ u < L.length, (out.bind (L.set v (some val')))[u]? =
        (L.set v (some val'))[u]? := by
      intro u hu
      cases out with
      | buffer b => exact List.getElem?_append_left (by rwa [List.length_set])
      | pending | ready => rfl
    refine ⟨fun _ => hlive, fun hf => absurd (hlive.symm.trans hf) nofun, fun _ _ u hu => ?_,
      fun u hu w hw => ?_⟩
    · rcases hsplit u hu with hu | ⟨rfl, -⟩
      · exact Nat.lt_of_lt_of_le (hold u hu).1 hlen
      · exact Nat.lt_of_lt_of_le hvlt hlen
    · rcases hsplit u hu with hu | ⟨rfl, hret⟩
      · obtain ⟨hlt, hne⟩ := hold u hu
        have hw' : (out.bind (L.set v (some val')))[u]? = some (some w) := hw
        rw [hget u hlt, List.getElem?_set_ne (Ne.symm hne)] at hw'
        exact h.returned u hu w (hL ▸ hw')
      · have hw' : (out.bind (L.set u (some val')))[u]? = some (some w) := hw
        rw [hget u hvlt, List.getElem?_set_self hvlt] at hw'
        exact (Option.some.inj (Option.some.inj hw')).symm.trans hret
  | @suspend cur x k L hon hb hx =>
    have hlive := h.live (by rw [hon]; exact nofun)
    have hkeep := h.edit (y := k) hon hb (Nat.le_refl _) fun u val hu => .inl hu
    exact ⟨fun _ => hlive, hkeep.freed, hkeep.lt, hkeep.returned⟩
  | ret hon hb hx =>
    have hlive := h.live (by rw [hon]; exact nofun)
    exact ⟨fun _ => hlive, fun _ => rfl, nofun, fun v _ val hval => nomatch hval⟩
  | leave hover hlive =>
    exact Spent.settle ⟨fun hne => absurd rfl hne, h.freed, h.lt, h.returned⟩ rfl
  | @skip e others harr =>
    have hquiet : ∀ ev ∈ [Event.cqe e .expired others], ev.isCall = false := by
      intro ev hev
      rw [List.mem_singleton.mp hev]
      rfl
    exact Spent.settle
      ⟨fun _ => harr.live, h.freed, fun hf hx v hv => h.lt hf hx v (hv.of_append hquiet),
        fun v hv => h.returned v (hv.of_append hquiet)⟩ harr.off
  | @accept e cls others harr hcls =>
    refine h.quiet harr.live fun ev hev => ?_
    simp only [List.mem_cons, List.not_mem_nil, or_false] at hev
    rcases hev with rfl | rfl <;> rfl

theorem Spent.born (i : SlabIdx) (x : σ) (L : List (Option Value)) : Spent (.born i x L) := by
  have hnone : ∀ v, ¬ Resolved (View.born i x L).log v := by
    rintro v ⟨f, info, n, r, hmem⟩
    simp [View.born] at hmem
  refine ⟨fun _ => rfl, ?_, fun _ _ v hv => absurd hv (hnone v), fun v hv => absurd hv (hnone v)⟩
  rintro ⟨⟩

theorem Spent.isLocal (code : Code σ) : Local code (fun _ => true) fun _ V => Spent V where
  main _ i x _ := .born i x []
  spawn _ i _ _ _ _ _ _ := .born i _ _
  step hs _ h := h.step hs

end Spent

/-! ## The ledger inside a poll -/

section Ledger

variable {code : Code σ} {m : Epoch} {n : Nat} {s : State σ}

theorem owns_spawnPolled (b : AsyncBlock σ) :
    Triple (Owns m n) (tokensOf b.locals) (spawnPolled b : Rt σ (TaskPtr × TaskInfo)) fun _ => 0 :=
  .seq (owns_spawnBegin b) fun r => owns_logPoll r.1 (.ret _ rfl)

theorem owns_dispatchPolled (e : Cqe) (task : TaskPtr) (info : TaskInfo)
    (cls : SyscallNbCompResult) :
    Triple (Owns m n) 0 (dispatchPolled e task info cls : Rt σ (Cqe × TaskPtr × Bool))
      fun _ => 0 := by
  cases cls with
  | error => exact .fail _
  | expired => exact .ret _ rfl
  | normal =>
    refine .cond (fun _ => .fail _) fun _ => ?_
    refine .seq (owns_of_books fun _ => books_augmenteSyscallNb task) fun _ => ?_
    exact .seq (owns_currentTask _) fun _ => owns_logPoll task (.ret _ rfl)
  | multiple => exact .seq (owns_currentTask _) fun _ => owns_logPoll task (.ret _ rfl)

/-- The handling of a completion, up to the poll. -/
theorem owns_handlePolled :
    Triple (Owns m n) 0 (handlePolled : Rt σ (Cqe × TaskPtr × Bool)) fun _ => 0 := by
  refine owns_takeCqe fun e he => ?_
  refine .seq (owns_of_books fun _ => books_tasksIndex _) fun q => ?_
  refine .seq (owns_of_books fun _ => books_taskClone q) fun task => ?_
  refine owns_deref fun s raw F hraw hs => ?_
  simp only [wp_bind, wp_get]
  refine wp_mono (owns_logCqe he hraw _ _ hs) (fun _ s1 h1 => ?_) fun _ _ h => h
  exact owns_dispatchPolled e task _ _ s1 F h1

/-- **Inside a poll**, between two instructions, the ledger holds. -/
theorem Within.owns {ps : List TaskPtr} (h : Within code s ps) : ∃ m, Owns m 0 s 0 := by
  induction h with
  | main hr hx h =>
    obtain ⟨posted, back, hb⟩ := hr.audited
    obtain ⟨old, hp⟩ := h.spawnPolled
    exact ⟨_, (owns_spawnPolled _).run hb.owns hp⟩
  | handle hr h =>
    obtain ⟨posted, back, hb⟩ := hr.audited
    obtain ⟨r, hp, -⟩ := h.handlePolled
    exact ⟨_, owns_handlePolled.run hb.owns hp⟩
  | again hw h ih =>
    obtain ⟨m, hm⟩ := ih
    exact ⟨m, (owns_stepCode code _).run hm h⟩
  | child hw hb h ih =>
    obtain ⟨m, hm⟩ := ih
    obtain ⟨old, hp⟩ := h.spawnPolled
    exact ⟨m, (owns_spawnPolled _).run ((owns_stepCode code _).run hm hb) hp⟩
  | spawned hw hb h ih =>
    obtain ⟨m, hm⟩ := ih
    have hsp := (owns_stepCode code _).run hm hb
    exact ⟨m, (owns_spawn (fun p => owns_pollFn code _ p) _).run hsp h⟩

end Ledger

/-! ## Runs -/

/-- The write slots and the fan-outs of a state. -/
structure State.KeepsFans (s : State σ) : Prop where
  /-- While an entry of a fan-out is outstanding, its slot is counted and not free. -/
  entry : ∀ q ∈ s.outstanding, ∀ raw : RawTask σ, s.heap[q.caller.task]? = some raw →
    ∀ fds b len info n out,
    .call q.caller.var (.writeMultiple (.init fds b len)) info n out ∈ raw.log →
      (∃ fd, q.op = .writeFixed fd b.ptr len b.index) ∧
      (∃ c, s.buffer.writeRc[b.absIdx.toNat - 512]? = some c ∧ 1 ≤ c.toNat) ∧
        b.absIdx ∉ s.buffer.writeFree ∧
      ∀ b' s', allocWriteBuffer s = .ok b' s' → b'.absIdx ≠ b.absIdx
  /-- Every count is a handle in a block. -/
  count : ∀ a, InPool 512 512 a →
    ∃ c, s.buffer.writeRc[a.toNat - 512]? = some c ∧ c.toNat = s.tokens.count (.write a)
  /-- A task that was freed has given its handles back. -/
  freed : ∀ raw ∈ s.heap, raw.freed = true → tokensOf raw.future.locals = 0
  /-- So has a fan-out that was ready. -/
  resolved : ∀ raw ∈ s.heap, ∀ v, Resolved raw.log v →
    ∀ val, raw.future.locals[v]? = some (some val) → val.tokens = 0

/-- The counts of the pool. -/
theorem Pooled.count {p : BufPool 1} {live : UInt32 → Nat} (h : Pooled p live) {a : UInt32}
    (ha : InPool 512 512 a) : ∃ c, p.writeRc[a.toNat - 512]? = some c ∧ c.toNat = live a := by
  obtain ⟨st, rfl, hinv, hlive⟩ := h
  obtain ⟨c, hc, hcount⟩ := hinv.rc a ha
  exact ⟨c, hc, hcount.trans (hlive a)⟩

/-- A slot with a handle is not free. -/
theorem Pooled.not_free {p : BufPool 1} {live : UInt32 → Nat} (h : Pooled p live) {a : UInt32}
    (ha : 0 < live a) : InPool 512 512 a ∧ a ∉ p.writeFree := by
  obtain ⟨st, rfl, hinv, hlive⟩ := h
  rw [← hlive] at ha
  obtain ⟨hd, hmem, habs⟩ := List.countP_pos_iff.mp ha
  obtain rfl := of_decide_eq_true habs
  refine ⟨hinv.inPool hd hmem, fun hfree => ?_⟩
  have hzero := ((hinv.free_iff _).mp hfree).2
  rw [hzero] at ha
  exact absurd ha (Nat.lt_irrefl 0)

/-- `alloc_write` takes a free slot. -/
theorem allocWriteBuffer_free {s s' : State σ} {b : WBuffer} (h : allocWriteBuffer s = .ok b s') :
    b.absIdx ∈ s.buffer.writeFree := by
  have hw : wp allocWriteBuffer (fun b _ => b.absIdx ∈ s.buffer.writeFree) (fun _ _ => True) s := by
    simp only [allocWriteBuffer, wp_bind, wp_get]
    cases ha : s.buffer.allocWrite with
    | error e => trivial
    | ok r =>
      obtain ⟨b, pool⟩ := r
      show b.absIdx ∈ s.buffer.writeFree
      unfold BufPool.allocWrite at ha
      split at ha
      · cases ha
      · rename_i a free hfree
        cases hrc : s.buffer.rcAt a with
        | error e => simp [hrc, bind, Except.bind] at ha
        | ok rc =>
          simp only [hrc, bind, Except.bind] at ha
          split at ha
          · obtain ⟨rfl, -⟩ := Prod.mk.inj (Except.ok.inj ha)
            rw [hfree]
            exact List.mem_cons_self
          · cases ha
  exact wp_ok (Q := fun b _ => b.absIdx ∈ s.buffer.writeFree) hw h

/-- The views of the tasks and the ledger, together. -/
theorem State.KeepsFans.of_views {s : State (Await.Point τ)} {st : List Frame} {m : Epoch}
    (hfan : Views (fun _ V => FanKeeps V) (s.config st))
    (hspent : Views (fun _ V => Spent V) (s.config st)) (howns : Owns m 0 s 0) : s.KeepsFans := by
  have hpool : Pooled s.buffer fun a => s.tokens.count (.write a) := by
    have h := howns.ledger.pool
    rwa [add_zero] at h
  have hview : ∀ raw ∈ s.heap, ∃ V : View (Await.Point τ), Spent V ∧ V.block = raw.future ∧
      V.log = raw.log ∧ V.freed = raw.freed := fun raw hraw => by
    obtain ⟨p, hp⟩ := List.mem_iff_getElem?.mp hraw
    obtain ⟨hlt, -⟩ := List.getElem?_eq_some_iff.mp hp
    have hcell := State.core_cell hp
    exact ⟨_, hspent.all p hlt, State.fut_eq hp, congrArg Cell.log hcell, congrArg Cell.freed hcell⟩
  refine ⟨fun q hq raw hraw fds b len info n out hev => ?_, fun a ha => hpool.count ha,
    fun raw hraw hf => ?_, fun raw hraw v hv val hval => ?_⟩
  · obtain ⟨hlt, -⟩ := List.getElem?_eq_some_iff.mp hraw
    have hlog : ((s.config st).view q.caller.task).log = raw.log :=
      congrArg Cell.log (State.core_cell hraw)
    have hblock : ((s.config st).view q.caller.task).block = raw.future := State.fut_eq hraw
    obtain ⟨hop, c, fds', faileds, hval⟩ :=
      (hfan.all _ hlt).holds (mem_own.mpr ⟨hq, rfl⟩) (by rw [hlog]; exact hev)
    rw [hblock] at hval
    -- the handle in the future is one of those that are counted
    have hpos : 0 < s.tokens.count (.write b.absIdx) := by
      obtain ⟨rest, htok, -⟩ := exists_rest hraw hval
      rw [htok, Multiset.count_add]
      simp [Value.tokens]
    obtain ⟨ha, hfree⟩ := hpool.not_free hpos
    obtain ⟨rc, hrc, hcount⟩ := hpool.count ha
    refine ⟨hop, ⟨rc, hrc, hcount ▸ hpos⟩, hfree, fun b' s' halloc heq => ?_⟩
    exact hfree (heq ▸ allocWriteBuffer_free halloc)
  · obtain ⟨V, hV, hblock, -, hfreed⟩ := hview raw hraw
    rw [← hblock, hV.freed (hfreed.trans hf)]
    rfl
  · obtain ⟨V, hV, hblock, hlog, -⟩ := hview raw hraw
    rw [← hlog] at hv
    rw [← hblock] at hval
    rw [hV.returned v hv val hval]
    rfl

/-- **A fan-out keeps its buffer.** In every run of tasks that await their futures, open no stream
and write to at most 1024 descriptors at once, between any two instructions of any poll: while an
entry of a fan-out is outstanding, its slot is counted, not free, and not handed out; and every
count is that of a handle in a block, of which a fan-out that was ready and a task that was freed
have none. -/
theorem fan_out_keeps_buffer {A : τ → Await.Instr τ} (hA : ∀ t, (A t).fansOut = true) :
    (∀ s, Reachable (awaited A) s → s.KeepsFans) ∧ ∀ s p ps, Within (awaited A) s (p :: ps) →
      s.KeepsFans := by
  constructor
  · intro s hr
    obtain ⟨posted, back, hb⟩ := hr.audited
    exact .of_views ((FanKeeps.isLocal hA).reachable hr) ((Spent.isLocal _).reachable hr) hb.owns
  · intro s p ps hw
    obtain ⟨role, st, hm⟩ := hw.midway rfl
    obtain ⟨s0, hr, hs⟩ := hm.start
    obtain ⟨m, howns⟩ := hw.owns
    exact .of_views
      ((FanKeeps.isLocal hA).steps hs (fun _ _ _ => rfl) ((FanKeeps.isLocal hA).reachable hr))
        ((Spent.isLocal _).steps hs (fun _ _ _ => rfl) ((Spent.isLocal _).reachable hr)) howns

/-- One of two entries has completed: the slot of the other is still counted. -/
theorem fan_out_keeps_buffer_of_two :
    ∃ s, freshScript (awaited broadcast) (fun _ _ => true)
        [.spawn 9 (.run 0), .submit, .consume, .consume, .complete 0 4 0, .handle 9] = some s ∧
      s.outstanding.map (fun q => q.op) = [.writeFixed 6 (512 * 4096) 4 512] ∧
        s.buffer.writeRc[0]? = some 1 ∧
      s.KeepsFans := by
  have hrun : (freshScript (awaited broadcast) (fun _ _ => true)
      [.spawn 9 (.run 0), .submit, .consume, .consume, .complete 0 4 0, .handle 9]).any (fun s =>
        decide (s.outstanding.map (fun q => q.op) = [.writeFixed 6 (512 * 4096) 4 512] ∧
          s.buffer.writeRc[0]? = some 1)) = true := by decide +kernel
  obtain ⟨s, hs, hc⟩ := (Option.any_eq_true _ _).mp hrun
  obtain ⟨hout, hrc⟩ := of_decide_eq_true hc
  have hA : ∀ t, (broadcast t).fansOut = true := fun t => by
    unfold broadcast
    split <;> rfl
  exact ⟨s, hs, hout, hrc, (fan_out_keeps_buffer hA).1 s (.of_script (fun _ _ _ => trivial) hs)⟩

end Onlyio
