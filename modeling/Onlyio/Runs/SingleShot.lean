import Onlyio.Machine.Local
import Onlyio.Model.Await

/-!
# Single-shot operations, awaited one at a time

A task that awaits nothing but `accept`, `read` and `write` goes in rounds: a first poll submits one
SQE, its completion starts one poll of the task, and that poll resolves the operation. `Round` is
one such operation from beginning to end, with everything the log records of it, and `Single` says
where in a round the task stands.

* **`single_shot_run`**: in every state of every run, the log of a task is a sequence of rounds, one
  per operation and in order, and then either the submission of the operation it awaits, whose SQE
  is the only one outstanding, or its return, after which it is freed.

Numbers may wrap: after 32768 operations the number is `0x8000` and stays, and completions are taken
as `Multiple` from then on.
-/

namespace Onlyio

variable {τ : Type}

/-! ## The operations -/

/-- The instructions of a block that awaits single-shot operations only. -/
def Await.Instr.singleShot : Await.Instr τ → Bool
  | .await (.accept _) _ | .await (.read _) _ | .await (.write _ _ _) _ => true
  | .await _ _ | .stream _ _ | .next _ _ => false
  | _ => true

/-- A single-shot operation that was not polled yet. -/
def Value.starts : Value → Bool
  | .accept (.pending _) | .read (.init _) | .write (.init _ _ _) => true
  | _ => false

/-- A single-shot operation or a connection that was not polled yet. -/
def Value.begins : Value → Bool
  | .socket (.createSocket _) => true
  | val => val.starts

theorem Value.begins_of_starts {val : Value} (h : val.starts = true) : val.begins = true := by
  unfold begins
  split
  · rfl
  · exact h

/-- A single-shot operation that has submitted its SQE. -/
def Value.submitted : Value → Bool
  | .accept .submited | .read (.pending _) | .write .pending => true
  | _ => false

/-- A value that no completion is for: a buffer, or a future that was ready. -/
def Value.settled : Value → Bool
  | .rwBuffer _ | .wBuffer _ | .returned => true
  | _ => false

/-- All locals are settled. -/
def Settled (L : List (Option Value)) : Prop := Held (fun _ val => val.settled = true) L

/-- All locals are settled, except the one at `v`. -/
def SettledBut (v : Var) (L : List (Option Value)) : Prop :=
  Held (fun u val => u ≠ v → val.settled = true) L

section Called

variable {me : Caller} {cur cur' : TaskInfo} {nb nb' : UInt16} {outs : Multiset Sqe}
  {v v' : Value} {out : Out} {new : List Sqe} {evs : List Event} {op : SqeOp}

theorem Sends.submitted (h : Sends cur v op v') (hv : v.starts = true) : v'.submitted = true := by
  cases h <;> first | rfl | cases hv

/-- The first poll of an operation submits its SQE. -/
theorem Called.of_begins (h : Called me cur nb outs v out v' cur' nb' new evs)
    (hv : v.begins = true) : ∃ op q, Sends cur v op v' ∧ Stamped me cur op q ∧ out = .pending ∧
      cur' = cur ∧ nb' = nb ∧ new = [q] ∧
      evs = [.submit q (outs.countP fun r => r.nb = q.nb)] := by
  cases h with
  | send h hq => exact ⟨_, _, h, hq, rfl, rfl, rfl, rfl, rfl⟩
  | opens h => cases h <;> cases hv
  | commit h => cases h <;> cases hv
  | fanOut | fanOne | fanLast => cases hv
  | resolve h => cases h <;> cases hv

/-- The first poll of a single-shot operation submits its SQE. -/
theorem Called.of_starts (h : Called me cur nb outs v out v' cur' nb' new evs)
    (hv : v.starts = true) : ∃ op q, Sends cur v op v' ∧ Stamped me cur op q ∧ out = .pending ∧
      cur' = cur ∧ nb' = nb ∧ new = [q] ∧
      evs = [.submit q (outs.countP fun r => r.nb = q.nb)] :=
  h.of_begins (Value.begins_of_starts hv)

/-- The second one resolves it, with the context it finds. -/
theorem Called.of_submitted (h : Called me cur nb outs v out v' cur' nb' new evs)
    (hv : v.submitted = true) : Resolves cur v out .returned ∧ v' = .returned ∧ cur' = cur ∧
      nb' = nb ∧ new = [] ∧ evs = [] ∧ ∀ n, ∃ r, out.resp n = some r := by
  cases h with
  | send h => cases h <;> cases hv
  | opens h => cases h <;> cases hv
  | commit h => cases h <;> cases hv
  | fanOut | fanOne | fanLast => cases hv
  | resolve h =>
    have hret : v' = .returned := by cases h <;> first | rfl | cases hv
    subst hret
    refine ⟨h, rfl, rfl, rfl, rfl, rfl, fun n => ?_⟩
    cases h <;> exact ⟨_, rfl⟩

end Called

/-! ## Rounds -/

/-- One operation, from its first poll to its result. -/
structure Round where
  var : Var
  /-- The future when it is polled first and second. -/
  first : Value
  second : Value
  /-- `CURRENT_TASK` at the first and second poll. -/
  info : TaskInfo
  context : TaskInfo
  entry : Cqe
  cls : SyscallNbCompResult
  resp : Resp

namespace Round

/-- What the log has of a round. -/
def events (r : Round) : List Event :=
  [.submit r.entry.sqe 0, .call r.var r.first r.info 0 none, .cqe r.entry r.cls [], .poll r.context,
    .call r.var r.second r.context 0 (some r.resp)]

/-- The completion is the one of the SQE that the operation submitted, and its result and flags are
what the operation resolves with. -/
structure Own (p : TaskPtr) (r : Round) : Prop where
  caller : r.entry.sqe.caller = ⟨p, r.var⟩
  sends : Sends r.info r.first r.entry.sqe.op r.second
  accepted : r.cls = .normal ∨ r.cls = .multiple
  final : more r.entry.flags = false
  result : r.context.result = r.entry.result
  flags : r.context.flags = r.entry.flags
  resolves : ∃ out n, Resolves r.context r.second out .returned ∧ out.resp n = some r.resp

end Round

/-- The log of task `p`: its creation, its first poll, the rounds, and `tail`. -/
structure Past (p : TaskPtr) (log : List Event) (rounds : List Round) (tail : List Event) :
    Prop where
  own : ∀ r ∈ rounds, r.Own p
  order : rounds.Pairwise fun a b => a.var < b.var
  log : ∃ captured info,
    log = .spawned captured :: .poll info :: rounds.flatMap Round.events ++ tail

namespace Past

variable {p : TaskPtr} {log tail : List Event} {rounds : List Round}

theorem append (h : Past p log rounds tail) (evs : List Event) :
    Past p (log ++ evs) rounds (tail ++ evs) := by
  obtain ⟨captured, info, hlog⟩ := h.log
  exact ⟨h.own, h.order, captured, info, by rw [hlog, List.append_assoc]⟩

/-- A round is over. -/
theorem round {r : Round} (h : Past p log rounds r.events) (hown : r.Own p)
    (hbound : ∀ a ∈ rounds, a.var < r.var) : Past p log (rounds ++ [r]) [] := by
  obtain ⟨captured, info, hlog⟩ := h.log
  refine ⟨fun a ha => ?_, ?_, captured, info, by rw [hlog]; simp⟩
  · rcases List.mem_append.mp ha with ha | ha
    · exact h.own a ha
    · rw [List.mem_singleton.mp ha]
      exact hown
  · refine List.pairwise_append.mpr ⟨h.order, List.pairwise_singleton _ _, fun a ha b hb => ?_⟩
    rw [List.mem_singleton.mp hb]
    exact hbound a ha

end Past

/-! ## Where a task stands -/

/-- The block runs, and nothing of it is outstanding. -/
structure Runs (p : TaskPtr) (V : View (Await.Point τ)) (cur : TaskInfo) (rounds : List Round)
    (n : Var) (tail : List Event) : Prop where
  live : V.freed = false
  outs : V.outs = 0
  nb : cur.tag.syscallNb = V.nb
  past : Past p V.log rounds tail
  bound : ∀ r ∈ rounds, r.var < n

/-- The operation in local `v` has submitted `q`, the only outstanding SQE. -/
structure Pends (p : TaskPtr) (V : View (Await.Point τ)) (v : Var) (rounds : List Round)
    (first second : Value) (info : TaskInfo) (q : Sqe) : Prop where
  live : V.freed = false
  outs : V.outs = {q}
  caller : q.caller = ⟨p, v⟩
  nb : q.nb = V.nb
  starts : first.starts = true
  sends : Sends info first q.op second
  val : V.block.locals[v]? = some (some second)
  rest : SettledBut v V.block.locals
  past : Past p V.log rounds [.submit q 0, .call v first info 0 none]
  bound : ∀ r ∈ rounds, r.var < v

/-- The completion of the operation in local `v` has started the poll in progress. -/
structure Resumes (p : TaskPtr) (V : View (Await.Point τ)) (cur : TaskInfo) (v : Var)
    (rounds : List Round) (first second : Value) (info : TaskInfo) (e : Cqe)
    (cls : SyscallNbCompResult) : Prop where
  runs : Runs p V cur rounds v
    [.submit e.sqe 0, .call v first info 0 none, .cqe e cls [], .poll cur]
  caller : e.sqe.caller = ⟨p, v⟩
  starts : first.starts = true
  sends : Sends info first e.sqe.op second
  accepted : cls = .normal ∨ cls = .multiple
  final : more e.flags = false
  context : cur = e.context cls
  val : V.block.locals[v]? = some (some second)
  rest : SettledBut v V.block.locals

/-- The block runs: between operations, before the first or the second poll of one, or about to
suspend. -/
def Working (p : TaskPtr) (V : View (Await.Point τ)) (cur : TaskInfo) : Prop :=
  match V.block.code with
  | some (.run _) => ∃ rounds, Runs p V cur rounds V.block.locals.length [] ∧ Settled V.block.locals
  | some (.poll v _) =>
    (∃ rounds val, Runs p V cur rounds v [] ∧ V.block.locals[v]? = some (some val) ∧
      val.starts = true ∧ SettledBut v V.block.locals) ∨
    ∃ rounds first second info e cls, Resumes p V cur v rounds first second info e cls
  | some (.suspend v _) => ∃ rounds first second info q, Pends p V v rounds first second info q
  | none => False

/-- The block awaits an operation. -/
def Waiting (p : TaskPtr) (V : View (Await.Point τ)) : Prop :=
  ∃ v k rounds first second info q, V.block.code = some (.poll v k) ∧
    Pends p V v rounds first second info q

/-- The block has returned, and has recorded `tail` then. -/
def Over (p : TaskPtr) (V : View (Await.Point τ)) (tail : List Event) : Prop :=
  V.outs = 0 ∧ ∃ rounds, Past p V.log rounds tail

/-- Where a task stands that awaits single-shot operations. -/
def Single (p : TaskPtr) (V : View (Await.Point τ)) : Prop :=
  match V.phase with
  | .on cur => Working p V cur
  | .over _ => Waiting p V ∨ Over p V [.ready 0]
  | .off => Waiting p V ∨ V.freed = true ∧ Over p V [.ready 0, .dropped]

/-! ## Steps -/

section Steps

variable {A : τ → Await.Instr τ} {p : TaskPtr} {V V' : View (Await.Point τ)} {cur : TaskInfo}

/-- An instruction on the locals: the block runs on, or has built an operation and awaits it. -/
theorem Settled.local {t : τ} {y : Await.Point τ} {L L' : List (Option Value)}
    (hA : (A t).singleShot = true) (h : LocalStep L (awaited A (.run t)) y L') (hL : Settled L) :
    (∃ u, y = .run u ∧ Settled L' ∧ L.length ≤ L'.length) ∨
    ∃ k val, y = .poll L.length k ∧ L' = L ++ [some val] ∧ val.starts = true := by
  simp only [awaited, awaitedInstr] at h
  cases hAt : A t with
  | await op k =>
    rw [hAt] at h hA
    cases h with
    | make hm => cases hm <;> first | exact .inr ⟨_, _, rfl, rfl, rfl⟩ | cases hA
  | drop v k =>
    rw [hAt] at h
    cases h with
    | drop => exact .inl ⟨_, rfl, hL.set_none v, by simp⟩
  | allocWrite k =>
    rw [hAt] at h
    cases h with
    | allocWrite => exact .inl ⟨_, rfl, hL.append rfl, by simp⟩
  | cloneWrite v k =>
    rw [hAt] at h
    cases h with
    | cloneWrite => exact .inl ⟨_, rfl, hL.append rfl, by simp⟩
  | stream | next =>
    rw [hAt] at hA
    cases hA
  | ret | spawn =>
    rw [hAt] at h
    cases h

/-- The first poll of an operation. -/
theorem Runs.first {rounds : List Round} {v : Var} {val val' : Value} {op : SqeOp} {q : Sqe}
    {code : Option (Await.Point τ)} (h : Runs p V cur rounds v [])
    (hval : V.block.locals[v]? = some (some val)) (hs : val.starts = true)
    (hrest : SettledBut v V.block.locals) (hsend : Sends cur val op val')
    (hq : Stamped ⟨p, v⟩ cur op q) :
    Pends p { V with
      outs := V.outs + ([q] : List Sqe), phase := .on cur
      block := ⟨code, V.block.locals.set v (some val')⟩
      log := V.log ++ [.submit q (V.outs.countP fun r => r.nb = q.nb)] ++
        [.call v val cur (V.rivals cur.tag.syscallNb) none] } v rounds val val' cur q where
  live := h.live
  outs := by simp [h.outs]
  caller := hq.caller
  nb := hq.nb.trans h.nb
  starts := hs
  sends := hq.op ▸ hsend
  val := by
    obtain ⟨hlt, -⟩ := List.getElem?_eq_some_iff.mp hval
    exact List.getElem?_set_self hlt
  rest := Held.set (hrest.mono fun _ _ hu _ => hu) fun hne => absurd rfl hne
  past := by
    have hpast := h.past.append [.submit q 0, .call v val cur 0 none]
    simpa [View.rivals, h.outs] using hpast
  bound := h.bound

/-- The second poll of an operation ends its round. -/
theorem Resumes.second {rounds : List Round} {v : Var} {first second : Value} {info : TaskInfo}
    {e : Cqe} {cls : SyscallNbCompResult} {out : Out} {r : Resp} {n : Nat} {log : List Event}
    (h : Resumes p V cur v rounds first second info e cls)
    (hres : Resolves cur second out .returned) (hr : out.resp n = some r)
    (hlog : log = V.log ++ [.call v second cur 0 (some r)]) :
    ∃ rounds', Past p log rounds' [] ∧ ∀ a ∈ rounds', a.var < v + 1 := by
  let R : Round := ⟨v, first, second, info, cur, e, cls, r⟩
  have hown : R.Own p := by
    obtain ⟨hresult, hflags⟩ := e.context_result cls
    rw [← h.context] at hresult hflags
    exact ⟨h.caller, h.sends, h.accepted, h.final, hresult, hflags, out, n, hres, hr⟩
  have hpast : Past p log rounds R.events := hlog ▸ h.runs.past.append _
  refine ⟨rounds ++ [R], hpast.round hown h.runs.bound, fun a ha => ?_⟩
  rcases List.mem_append.mp ha with ha | ha
  · exact Nat.lt_succ_of_lt (h.runs.bound a ha)
  · rw [List.mem_singleton.mp ha]
    exact Nat.lt_succ_self v

/-- The outstanding SQE of an operation is the one that is answered. -/
theorem Pends.arrives {rounds : List Round} {v : Var} {first second : Value} {info : TaskInfo}
    {q : Sqe} {e : Cqe} {cls : SyscallNbCompResult} {others : List UInt16}
    (h : Pends p V v rounds first second info q) (ha : Arrives V e cls others) :
    e.sqe = q ∧ others = [] ∧ more e.flags = false ∧ V.answered e = 0 ∧
      cls = if isMultiple V.nb then .multiple else .normal := by
  have he : e.sqe = q := by
    have hmem := ha.mem
    rwa [h.outs, Multiset.mem_singleton] at hmem
  have hfinal : more e.flags = false := by
    by_contra hm
    have hmulti := ha.shots (by simpa using hm)
    rw [he, h.sends.single] at hmulti
    cases hmulti
  have hothers := ha.others
  rw [h.outs, he] at hothers
  refine ⟨he, by simpa using hothers, hfinal, ?_, ?_⟩
  · simp [View.answered, hfinal, h.outs, he]
  · rw [ha.cls, he, h.nb, evaluate_of_eq]

/-- The completion of the awaited operation starts the poll that takes it. -/
theorem Pends.resume {rounds : List Round} {v : Var} {first second : Value} {info : TaskInfo}
    {q : Sqe} {e : Cqe} {cls : SyscallNbCompResult} {others : List UInt16}
    (h : Pends p V v rounds first second info q) (ha : Arrives V e cls others)
    (hcls : cls = .normal ∨ cls = .multiple) :
    Resumes p { V with
      nb := if cls = .normal then taskAugmente V.nb else V.nb
      outs := V.answered e
      phase := .on (e.context cls)
      log := V.log ++ [.cqe e cls others, .poll (e.context cls)] } (e.context cls) v rounds
      first second info e cls := by
  obtain ⟨rfl, rfl, hfinal, houts, -⟩ := h.arrives ha
  exact ⟨⟨h.live, houts, ha.context_nb hcls, h.past.append _, h.bound⟩, h.caller, h.starts, h.sends,
    hcls, hfinal, rfl, h.val, h.rest⟩

theorem Single.off (h : Single p V) (hoff : V.phase = .off) (hlive : V.freed = false) :
    Waiting p V := by
  rw [Single, hoff] at h
  rcases h with h | ⟨hfreed, -⟩
  · exact h
  · rw [hlive] at hfreed
    cases hfreed

/-- **Every step of a task that awaits single-shot operations** leads to where `Single` says. -/
theorem Single.step (hA : ∀ t, (A t).singleShot = true) (hs : TaskStep (awaited A) p V V')
    (h : Single p V) : Single p V' := by
  cases hs with
  | @locals cur x y L L' hon hb hl =>
    obtain ⟨t, rfl⟩ := awaited_run rfl (fun v k hx => by rw [hx] at hl; cases hl)
      fun k hx => by rw [hx] at hl; cases hl
    simp only [Single, Working, hon, hb] at h ⊢
    obtain ⟨rounds, hr, hL⟩ := h
    rcases hL.local (hA t) hl with ⟨u, rfl, hL', hlen⟩ | ⟨k, val, rfl, rfl, hval⟩
    · exact ⟨rounds, ⟨hr.live, hr.outs, hr.nb, hr.past, fun r hm => (hr.bound r hm).trans_le hlen⟩,
        hL'⟩
    · exact .inl ⟨rounds, val, ⟨hr.live, hr.outs, hr.nb, hr.past, hr.bound⟩, by simp, hval,
        Held.append (hL.mono fun _ _ hu _ => hu) fun hne => absurd rfl hne⟩
  | @spawn cur x child k L L' taken moved hon hb hx hm =>
    obtain ⟨t, c, u, rfl, rfl, rfl⟩ := awaited_spawn hx
    simp only [Single, Working, hon, hb] at h ⊢
    obtain ⟨rounds, hr, hL⟩ := h
    refine ⟨rounds, ⟨hr.live, hr.outs, hr.nb, hr.past, fun r hr' => ?_⟩, (hL.moves hm).1⟩
    rw [hm.length_eq]
    exact hr.bound r hr'
  | @call cur cur' x L v k val val' out nb' new evs hon hb hx hv hc =>
    obtain ⟨-, k', rfl, rfl | ⟨t, rfl, ht⟩⟩ := awaited_poll hx
    · simp only [Single, Working, hon, hb] at h
      rcases h with ⟨rounds, val, hr, hval, hstarts, hrest⟩ | ⟨rounds, first, second,
        info, e, cls, h⟩
      · obtain rfl : val = _ := Option.some.inj (Option.some.inj (hval.symm.trans hv))
        obtain ⟨op, q, hsend, hq, rfl, rfl, rfl, rfl, rfl⟩ := hc.of_starts hstarts
        have hb' : L = V.block.locals := by rw [hb]
        subst hb'
        exact ⟨rounds, val, val', cur', q, hr.first hv hstarts hrest hsend hq⟩
      · obtain rfl : second = val := Option.some.inj (Option.some.inj (h.val.symm.trans (hb ▸ hv)))
        obtain ⟨hres, rfl, rfl, rfl, rfl, rfl, hready⟩ :=
          hc.of_submitted (h.sends.submitted h.starts)
        obtain ⟨r, hr⟩ := hready L.length
        have hriv : V.rivals cur'.tag.syscallNb = 0 := by simp [View.rivals, h.runs.outs]
        obtain ⟨rounds', hpast, hbound⟩ := h.second hres hr rfl
        have hrest : SettledBut v L := by simpa [hb] using h.rest
        obtain ⟨hlt, -⟩ := List.getElem?_eq_some_iff.mp hv
        simp only [Single, Working, hr, Await.Point.after]
        refine ⟨rounds', ⟨h.runs.live, by simp [h.runs.outs], h.runs.nb, ?_, fun a ha => ?_⟩, ?_⟩
        · simpa [hriv, hr] using hpast
        · refine (hbound a ha).trans_le (le_trans ?_ (out.length_le_bind _))
          rwa [List.length_set]
        · exact (Held.set hrest rfl).bind (fun _ => rfl) out
    · have hnext := hA t
      rw [ht] at hnext
      cases hnext
  | suspend hon hb hx =>
    obtain ⟨v, k', rfl, rfl⟩ := awaited_suspend hx
    simp only [Single, Working, hon, hb] at h
    obtain ⟨rounds, first, second, info, q, h⟩ := h
    exact .inl ⟨v, k', rounds, first, second, info, q, rfl, h.live, h.outs, h.caller,
      h.nb, h.starts, h.sends, by simpa [hb] using h.val, by
      simpa [hb] using h.rest, h.past, h.bound⟩
  | ret hon hb hx =>
    obtain ⟨t, rfl⟩ := awaited_run hx (fun _ _ h => by cases h) fun _ h => by cases h
    simp only [Single, Working, hon, hb] at h
    obtain ⟨rounds, hr, hL⟩ := h
    refine .inr ⟨hr.outs, rounds, ?_⟩
    simpa [View.rivals, hr.outs] using hr.past.append [.ready 0]
  | leave hover hlive =>
    rw [Single, hover] at h
    rcases h with ⟨v, k, rounds, first, second, info, q, hx, h⟩ | ⟨houts, rounds, hpast⟩
    · rw [View.settle, if_neg (by simp [h.outs])]
      exact .inl ⟨v, k, rounds, first, second, info, q, hx, h.live, h.outs, h.caller,
        h.nb, h.starts, h.sends, h.val, h.rest, h.past, h.bound⟩
    · rw [View.settle, if_pos houts]
      exact .inr ⟨rfl, houts, rounds, hpast.append [.dropped]⟩
  | skip harr =>
    obtain ⟨v, k, rounds, first, second, info, q, hx, h⟩ := h.off harr.off harr.live
    obtain ⟨-, -, -, -, hcls⟩ := h.arrives harr
    split at hcls <;> cases hcls
  | accept harr hcls =>
    obtain ⟨v, k, rounds, first, second, info, q, hx, h⟩ := h.off harr.off harr.live
    simp only [Single, Working, hx]
    exact .inr ⟨rounds, first, second, info, _, _, h.resume harr hcls⟩

theorem Single.born (i : SlabIdx) (t : τ) {L : List (Option Value)} (hL : Settled L) :
    Single p (.born i (Await.Point.run t) L) := by
  have hpast : Past p [.spawned L, .poll (.initialPoll i)] [] [] :=
    ⟨fun _ hr => (nomatch hr), .nil, L, .initialPoll i, rfl⟩
  simp only [Single, Working, View.born]
  exact ⟨[], ⟨rfl, rfl, rfl, hpast, fun _ hr => nomatch hr⟩, hL⟩

theorem Single.isLocal (hA : ∀ t, (A t).singleShot = true) :
    Local (awaited A) (fun _ => true) Single where
  main p i x hx := by
    cases x with
    | run t => exact .born i t Held.nil
    | poll | suspend => cases hx
  spawn t i h hon hb hx hm _ := by
    obtain ⟨t, c, u, rfl, rfl, rfl⟩ := awaited_spawn hx
    simp only [Single, Working, hon, hb] at h
    obtain ⟨rounds, hr, hL⟩ := h
    exact .born i c ((hL.moves hm).2.mono fun _ _ ⟨_, hval⟩ => hval)
  step hs _ h := h.step hA hs

end Steps

/-- Between two commands, task `p` has been through `rounds` and awaits the operation in local `v`:
it has polled it once, `q` is its only outstanding SQE, and the completion will be accepted. -/
structure AwaitsOne (s : State (Await.Point τ)) (p : TaskPtr) (raw : RawTask (Await.Point τ))
    (rounds : List Round) (v : Var) (q : Sqe) : Prop where
  live : raw.freed = false
  past : ∃ first second info, Sends info first q.op second ∧
    Past p raw.log rounds [.submit q 0, .call v first info 0 none]
  later : ∀ r ∈ rounds, r.var < v
  only : (s.outstanding.filter fun q => q.caller.task = p) = [q]
  caller : q.caller = ⟨p, v⟩
  accepts : evaluateSyscallNb raw.syscallNb q.nb =
    if isMultiple raw.syscallNb then .multiple else .normal

/-- Between two commands, task `p` has been through `rounds`, has returned and is freed. -/
structure HasReturned (s : State (Await.Point τ)) (p : TaskPtr) (raw : RawTask (Await.Point τ))
    (rounds : List Round) : Prop where
  freed : raw.freed = true
  past : Past p raw.log rounds [.ready 0, .dropped]
  none : (s.outstanding.filter fun q => q.caller.task = p) = []

/-- **Single-shot operations resolve with their own completion**, in every state that tasks reach
which await `accept`, `read` and `write` one at a time and spawn in between: the log of a task is a
sequence of rounds, and the task awaits one more operation or has returned. No completion is newer
than its task. -/
theorem single_shot_run {A : τ → Await.Instr τ} (hA : ∀ t, (A t).singleShot = true)
    {s : State (Await.Point τ)} (h : Reachable (awaited A) s) :
    (∀ p raw, s.heap[p]? = some raw → ∃ rounds,
      (∃ v q, AwaitsOne s p raw rounds v q) ∨ HasReturned s p raw rounds) ∧
    ∀ cmd e s', act (awaited A) cmd s = .error e s' → e ≠ .panic .newerSqe := by
  obtain ⟨hrep, hinv⟩ := h.inv
  have hviews := (Single.isLocal hA).reachable h
  refine ⟨fun p raw hraw => ?_, fun _ _ _ => not_newer hrep hinv fun q hq => ?_⟩
  · rcases hviews.raw hraw with ⟨v, k, rounds, first, second, info, q, -, hp⟩ |
      ⟨hfreed, houts, rounds, hpast⟩
    · have hacc : evaluateSyscallNb raw.syscallNb q.nb = _ :=
        (congrArg _ hp.nb).trans (evaluate_of_eq raw.syscallNb)
      exact ⟨rounds, .inl ⟨v, q, hp.live, ⟨first, second, info, hp.sends, hp.past⟩, hp.bound,
        Multiset.coe_eq_singleton.mp hp.outs, hp.caller, hacc⟩⟩
    · exact ⟨rounds, .inr ⟨hfreed, hpast, (Multiset.coe_eq_zero _).mp houts⟩⟩
  · obtain ⟨-, hlive⟩ := hinv.owner_slot hq
    have hview := hviews.all _ (hinv.slab.lt_spawned hlive)
    obtain ⟨v, k, rounds, first, second, info, q', -, hp⟩ := hview.off rfl hlive
    have hmem : q ∈ (s.core.own q.caller.task) := mem_own.mpr ⟨hq, rfl⟩
    rw [show s.core.own q.caller.task = {q'} from hp.outs, Multiset.mem_singleton] at hmem
    subst hmem
    rw [show q.payload.syscallNb = s.core.stored q.caller.task from hp.nb, evaluate_of_eq]
    split <;> simp

/-- A server that accepts a connection, spawns a block that reads from it once, and accepts
again. -/
inductive AcceptAndRead where
  | accept
  | spawn
  | read
  | done

/-- The code of `AcceptAndRead`. -/
def AcceptAndRead.code : AcceptAndRead → Await.Instr AcceptAndRead
  | .accept => .await (.accept 4) fun _ => .spawn
  | .spawn => .spawn .read [] .accept
  | .read => .await (.read 5) fun _ => .done
  | .done => .ret

theorem single_shot_run_accept :
    ∃ s, freshScript (awaited AcceptAndRead.code) (fun _ _ => true)
        [.spawn 9 (.run .accept), .submit, .consume, .complete 0 5 0, .handle 9, .submit, .consume,
          .consume, .complete 1 0 0, .handle 9] = some s ∧
      s.heap.length = 2 ∧ s.outstanding.length = 1 ∧
      ∀ p raw, s.heap[p]? = some raw → ∃ rounds,
        (∃ v q, AwaitsOne s p raw rounds v q) ∨ HasReturned s p raw rounds := by
  have hrun : (freshScript (awaited AcceptAndRead.code) (fun _ _ => true)
      [.spawn 9 (.run .accept), .submit, .consume, .complete 0 5 0, .handle 9, .submit, .consume,
        .consume, .complete 1 0 0, .handle 9]).any
      (fun s => s.heap.length == 2 && s.outstanding.length == 1) = true := by decide +kernel
  obtain ⟨s, hs, hc⟩ := (Option.any_eq_true _ _).mp hrun
  rw [Bool.and_eq_true, beq_iff_eq, beq_iff_eq] at hc
  refine ⟨s, hs, hc.1, hc.2, ?_⟩
  exact (single_shot_run (fun t => by cases t <;> rfl) (.of_script (fun _ _ _ => trivial) hs)).1

end Onlyio
