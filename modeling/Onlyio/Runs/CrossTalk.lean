import Onlyio.Machine.Local
import Onlyio.Machine.Isolate
import Onlyio.Model.Await
import Onlyio.Lib.History

/-!
# Streams beside other operations

Every SQE that a task submits with `MULTIPLE_MASK` set carries the same number, so the dispatcher
does not know which of them a completion is for: the value that the block polls next takes it. The
block awaits what it submitted last, so it sees its own completions as long as the completions that
poll it answer its last SQE, and a stream that is open is polled while its own SQE is the last one.

* **`own_completion_run`**: in every run of tasks that await `accept`, `read`, `write`, `commit` and
  streams, whatever a task resolves is resolved by the last completion that it was handed, and that
  one is its own, if its completions come in that order.
* `commit_takes_stream_completion`: a commit that a completion of the open `read_stream` resolves.
-/

namespace Onlyio

open Lib

variable {τ : Type}

/-! ## The property -/

/-- A future or stream that has submitted an SQE and reads its result from `CURRENT_TASK`. -/
def Value.waits : Value → Bool
  | .accept .submited | .read (.pending _) | .write .pending | .commit (.pending _) => true
  | .acceptStream ⟨_, .running⟩ | .readStream ⟨_, .running⟩ => true
  | _ => false

/-- The completion that an event hands to the task. -/
def Event.entry : Event → Option Cqe
  | .cqe entry _ _ => some entry
  | _ => none

/-- The last completion that was handed to the task. -/
def lastCqe (log : List Event) : Option Cqe := (log.filterMap Event.entry).getLast?

/-- What a value of task `p` is resolved with is the last completion, and it answers an SQE that the
value submitted itself. -/
def Event.owned (p : TaskPtr) (before : List Event) : Event → Bool
  | .call v val info _ (some _) => !val.waits || (lastCqe before).any fun e =>
      e.sqe.caller = ⟨p, v⟩ && info.result = e.result && info.flags = e.flags
  | _ => true

/-- Whatever `p` resolves is resolved by its own completion. -/
def Owned (p : TaskPtr) (log : List Event) : Prop :=
  ∀ i (ev : Event), log[i]? = some ev → ev.owned p (log.take i) = true

theorem lastCqe_append_of_not {log evs : List Event} (h : ∀ ev ∈ evs, ev.entry = none) :
    lastCqe (log ++ evs) = lastCqe log := by
  rw [lastCqe, List.filterMap_append, List.filterMap_eq_nil_iff.mpr h, List.append_nil]
  rfl

namespace Owned

variable {p : TaskPtr} {log evs : List Event}

theorem along_iff : Owned p log ↔ Along (fun before ev => ev.owned p before = true) log := Iff.rfl

theorem nil : Owned p [] := along_iff.mpr .nil

theorem snoc {ev : Event} (h : Owned p log) (hev : ev.owned p log = true) :
    Owned p (log ++ [ev]) :=
  along_iff.mpr ((along_iff.mp h).snoc hev)

/-- Events that resolve nothing. -/
theorem append (h : Owned p log) (hevs : ∀ before, ∀ ev ∈ evs, ev.owned p before = true) :
    Owned p (log ++ evs) :=
  along_iff.mpr ((along_iff.mp h).append hevs)

end Owned

/-! ## The condition -/

/-- The instructions of a block that awaits single-shot operations, commits and streams. -/
def Await.Instr.streams : Await.Instr τ → Bool
  | .await (.connect _) _ | .await (.writeMultiple _ _ _) _ => false
  | _ => true

/-- A stream that has submitted its SQE. -/
def Value.isOpen : Value → Bool
  | .acceptStream ⟨_, .running⟩ | .readStream ⟨_, .running⟩ => true
  | _ => false

/-- The SQE that the task submitted last. -/
def lastSqe (log : List Event) : Option Sqe := (submitted log).getLast?

/-- A completion that polls the task answers the SQE that it submitted last, and a stream that is
open is polled while that SQE is its own. -/
def Event.timely (p : TaskPtr) (before : List Event) : Event → Bool
  | .cqe e cls _ => cls = .expired || lastSqe before = some e.sqe
  | .call v val _ _ _ => !val.isOpen || (lastSqe before).any fun q => q.caller = ⟨p, v⟩
  | _ => true

/-- The completions of `p` come in time. -/
def Timely (p : TaskPtr) (log : List Event) : Prop :=
  Along (fun before ev => ev.timely p before = true) log

theorem lastSqe_append_of_not {log evs : List Event} (h : ∀ ev ∈ evs, ev.sqe? = none) :
    lastSqe (log ++ evs) = lastSqe log := by
  rw [lastSqe, submitted, List.filterMap_append, List.filterMap_eq_nil_iff.mpr h, List.append_nil]
  rfl

theorem lastSqe_submit (log : List Event) (q : Sqe) (n : Nat) :
    lastSqe (log ++ [.submit q n]) = some q := by
  rw [lastSqe, submitted, List.filterMap_append]
  exact List.getLast?_concat

/-! ## The values of a block -/

/-- The values of such a block. -/
def Value.streams : Value → Bool
  | .socket _ | .writeMultiple _ => false
  | _ => true

/-- The block awaits the value in local `u`. -/
def Await.Point.awaits (u : Var) : Await.Point τ → Bool
  | .poll v _ | .suspend v _ => v = u
  | .run _ => false

/-- What is known of a value while its block is at `x`: if it waits, it is a stream, or the block
awaits it. -/
def MayWait (x : Await.Point τ) (u : Var) (val : Value) : Prop :=
  val.streams = true ∧ (val.waits = true → val.isOpen = true ∨ x.awaits u = true)

/-- The values of a block. -/
def Tidy (V : View (Await.Point τ)) : Prop := ∀ x, V.block.code = some x →
    Held (MayWait x) V.block.locals

section Values

variable {me : Caller} {cur cur' : TaskInfo} {nb nb' : UInt16} {outs : Multiset Sqe}
  {v v' : Value} {out : Out} {new : List Sqe} {evs : List Event} {x y : Await.Point τ}
    {u : Var} {val : Value}

/-- A stream waits on after an item with `F_MORE`. -/
theorem Resolves.isOpen (h : Resolves cur v out v') (hw : v'.waits = true) : v'.isOpen = true := by
  have hnext : ∀ (flags : UInt32) {w : StreamState → Value}, (w .done).waits = false →
      (w .running).isOpen = true → (w (.next flags)).waits = true →
        (w (.next flags)).isOpen = true := by
    intro flags w hdone hopen hw
    unfold StreamState.next at hw ⊢
    split
    · exact hopen
    · rename_i hm
      rw [if_neg hm, hdone] at hw
      cases hw
  cases h with
  | accepting fd => exact hnext _ (w := fun st => .acceptStream ⟨fd, st⟩) rfl rfl hw
  | reading fd => exact hnext _ (w := fun st => .readStream ⟨fd, st⟩) rfl rfl hw
  | _ => cases hw

/-- Polling a value submits one SQE, or reads the context. -/
theorem Called.of_streams (h : Called me cur nb outs v out v' cur' nb' new evs)
    (hv : v.streams = true) : v'.streams = true ∧
    ((out = .pending ∧ ∃ q n, q.caller = me ∧ evs = [.submit q n]) ∨
      (∀ n, ∃ r, out.resp n = some r) ∧ cur' = cur ∧ evs = [] ∧
        (v'.waits = true → v'.isOpen = true)) := by
  cases h with
  | send h hq => exact ⟨(by cases h <;> first | rfl | cases hv), .inl ⟨rfl, _, _, hq.caller, rfl⟩⟩
  | opens h hq => exact ⟨(by cases h <;> rfl), .inl ⟨rfl, _, _, hq.caller, rfl⟩⟩
  | commit h hq => exact ⟨(by cases h <;> rfl), .inl ⟨rfl, _, _, hq.caller, rfl⟩⟩
  | fanOut | fanOne | fanLast => cases hv
  | resolve h =>
    have hready : ∀ n, ∃ r, out.resp n = some r := fun n => by cases h <;> exact ⟨_, rfl⟩
    have hstreams : v'.streams = true := by cases h <;> simp only [Value.streams]
    exact ⟨hstreams, .inr ⟨hready, rfl, rfl, h.isOpen⟩⟩

/-- An instruction builds no value that waits. -/
theorem Builds.streams {i : Await.Instr τ} {val : Value} (h : Builds i val)
    (hi : i.streams = true) : val.streams = true ∧ val.waits = false := by
  cases h with
  | await k h => cases h <;> first | exact ⟨rfl, rfl⟩ | cases hi
  | stream op k => cases op <;> exact ⟨rfl, rfl⟩
  | allocWrite | cloneWrite => exact ⟨rfl, rfl⟩

theorem MayWait.of_not_waits (h : val.streams = true ∧ val.waits = false) : MayWait x u val := by
  refine ⟨h.1, fun hw => ?_⟩
  rw [h.2] at hw
  cases hw

/-- A block between two operations awaits nothing, and what waits waits on. -/
theorem MayWait.of_run {t : τ} (h : MayWait (.run t) u val) : MayWait y u val :=
  ⟨h.1, fun hw => .inl ((h.2 hw).resolve_right nofun)⟩

end Values

namespace Tidy

variable {A : τ → Await.Instr τ} {p : TaskPtr} {V V' : View (Await.Point τ)}

theorem settle (h : Tidy V) : Tidy V.settle := by
  unfold View.settle
  split
  · exact fun x _ => Held.nil
  · exact h

/-- **Every step of a task.** -/
theorem step (hA : ∀ t, (A t).streams = true) (hs : TaskStep (awaited A) p V V') (h : Tidy V) :
    Tidy V' := by
  cases hs with
  | @locals cur x y L L' hon hb hl =>
    obtain ⟨t, rfl⟩ := awaited_run rfl (fun v k hx => by rw [hx] at hl; cases hl)
      fun k hx => by rw [hx] at hl; cases hl
    have hheld : Held (MayWait y) L := by
      rw [show L = V.block.locals by rw [hb]]
      exact (h _ (by rw [hb])).mono fun u val hu => hu.of_run
    obtain ⟨hheld', -⟩ := hheld.of_local hl fun val hval => .of_not_waits (hval.streams (hA t))
    intro x hx
    obtain rfl := Option.some.inj hx
    exact hheld'
  | @spawn cur x child k L L' taken moved hon hb hx hm =>
    obtain ⟨t, c, u, rfl, rfl, rfl⟩ := awaited_spawn hx
    have hheld : Held (MayWait (.run u)) L := by
      rw [show L = V.block.locals by rw [hb]]
      exact (h _ (by rw [hb])).mono fun u val hu => hu.of_run
    intro x hx
    obtain rfl := Option.some.inj hx
    exact (hheld.moves hm).1
  | @call cur cur' x L v k val val' out nb' new evs hon hb hx hv hc =>
    obtain ⟨hsusp, k', rfl, hpoint⟩ := awaited_poll hx
    have hheld : Held (MayWait x) L := by
      rw [show L = V.block.locals by rw [hb]]
      exact h _ (by rw [hb])
    have hothers : Held (fun u val => u ≠ v → val.streams = true ∧
        (val.waits = true → val.isOpen = true)) L := by
      refine hheld.mono fun u val' hu hne => ⟨hu.1, fun hw => (hu.2 hw).resolve_right fun haw => ?_⟩
      obtain rfl | ⟨t, rfl, -⟩ := hpoint
      · exact hne (of_decide_eq_true haw).symm
      · cases haw
    intro y hy
    obtain rfl := Option.some.inj hy
    have hset : val'.streams = true → (val'.waits = true → val'.isOpen = true ∨
        (Await.Point.after v k' (out.resp L.length)).awaits v = true) →
        Held (MayWait (.after v k' (out.resp L.length))) (out.bind (L.set v (some val'))) := by
      intro hs' hw
      refine Held.bind (Held.set (hothers.mono fun u val hu hne => ?_) ⟨hs', hw⟩)
        (fun _ => ⟨rfl, nofun⟩) out
      exact ⟨(hu hne).1, fun hw => .inl ((hu hne).2 hw)⟩
    obtain ⟨hs', ⟨rfl, q, n, -, rfl⟩ | ⟨-, -, -, hw⟩⟩ := hc.of_streams (hheld v val hv).1
    · exact hset hs' fun _ => .inr (decide_eq_true rfl)
    · exact hset hs' fun hwaits => .inl (hw hwaits)
  | suspend hon hb hx =>
    obtain ⟨v, k', rfl, rfl⟩ := awaited_suspend hx
    intro y hy
    obtain rfl := Option.some.inj hy
    have hheld := h _ (by rw [hb])
    rw [hb] at hheld
    exact hheld.mono fun u val hu => hu
  | ret => exact fun x hx => nomatch hx
  | leave => exact Tidy.settle h
  | skip => exact Tidy.settle h
  | accept => exact h

/-- What a block captures. -/
theorem born (i : SlabIdx) (t : τ) {L : List (Option Value)}
    (hL : Held (fun _ val => val.streams = true ∧ (val.waits = true → val.isOpen = true)) L) :
    Tidy (.born i (Await.Point.run t) L) := by
  intro x hx
  obtain rfl := Option.some.inj hx
  exact hL.mono fun u val hval => ⟨hval.1, fun hw => .inl (hval.2 hw)⟩

end Tidy

/-! ## Where a task stands -/

/-- The SQE that the task submitted last is that of the value in local `v`. -/
def Sent (p : TaskPtr) (log : List Event) (v : Var) : Prop := ∃ q, lastSqe log = some q ∧
    q.caller = ⟨p, v⟩

/-- The context is that of the last completion, which answers the SQE that was submitted last. -/
def InTime (log : List Event) (cur : TaskInfo) : Prop :=
  ∀ q, lastSqe log = some q → ∃ e, lastCqe log = some e ∧ e.sqe = q ∧ cur.result = e.result ∧
  cur.flags = e.flags

/-- A block that runs reads the completion of its last SQE. A value that it is about to poll is new,
or has submitted that SQE; while no poll is in progress it has. -/
def Attends (p : TaskPtr) (V : View (Await.Point τ)) : Prop := ∀ x, V.block.code = some x →
  match V.phase, x with
  | .on cur, .run _ => InTime V.log cur
  | .on cur, .poll v _ => InTime V.log cur ∧
      ∀ val, V.block.locals[v]? = some (some val) → val.waits = true → Sent p V.log v
  | _, .suspend v _ | _, .poll v _ => Sent p V.log v
  | _, .run _ => False

section Steps

variable {A : τ → Await.Instr τ} {p : TaskPtr} {V V' : View (Await.Point τ)} {cur : TaskInfo}
  {log evs : List Event} {v : Var}

theorem Sent.append (h : Sent p log v) (hevs : ∀ ev ∈ evs, ev.sqe? = none) :
    Sent p (log ++ evs) v := by
  obtain ⟨q, hq, hcaller⟩ := h
  exact ⟨q, (lastSqe_append_of_not hevs).trans hq, hcaller⟩

theorem InTime.append (h : InTime log cur) (hsqe : ∀ ev ∈ evs, ev.sqe? = none)
    (hcqe : ∀ ev ∈ evs, ev.entry = none) : InTime (log ++ evs) cur := by
  intro q hq
  rw [lastSqe_append_of_not hsqe] at hq
  rw [lastCqe_append_of_not hcqe]
  exact h q hq

/-- An operation that is built is about to be polled. -/
theorem awaited_local {t : τ} {y : Await.Point τ} {L L' : List (Option Value)}
    (hA : (A t).streams = true) (h : LocalStep L (awaited A (.run t)) y L') :
    (∃ u, y = .run u) ∨ ∃ v k val, y = .poll v k ∧ L'[v]? = some (some val) ∧
      val.waits = false := by
  simp only [awaited, awaitedInstr] at h
  cases hAt : A t with
  | await op k =>
    rw [hAt] at h hA
    cases h with
    | make hm =>
      exact .inr ⟨_, k, _, rfl, List.getElem?_concat_length, ((Builds.await k hm).streams hA).2⟩
  | stream | drop | allocWrite | cloneWrite =>
    rw [hAt] at h
    cases h
    exact .inl ⟨_, rfl⟩
  | ret | spawn | next =>
    rw [hAt] at h
    cases h

theorem Attends.settle (h : Attends p V) (hoff : V.phase = .off) : Attends p V.settle := by
  unfold View.settle
  split
  · intro x hx
    have hmode := h x hx
    rw [hoff] at hmode
    simp only [hoff]
    cases x with
    | run t => exact hmode
    | poll v k | suspend v k => exact hmode.append (by simp [Event.sqe?])
  · exact h

/-- What is resolved while the context is in time is resolved by its own completion. -/
theorem InTime.owned (h : InTime log cur) {val : Value} {n : Nat} {r : Option Resp}
    (hsent : val.waits = true → Sent p log v) : Event.owned p log (.call v val cur n r) = true := by
  cases r with
  | none => rfl
  | some r =>
    cases hwaits : val.waits with
    | false => simp [Event.owned, hwaits]
    | true =>
      obtain ⟨q, hq, hcaller⟩ := hsent hwaits
      obtain ⟨e, he, rfl, hres, hflags⟩ := h q hq
      simp [Event.owned, he, hcaller, hres, hflags]

/-- The completion that polls the block is the one that it awaits. -/
theorem Sent.accept (h : Sent p log v) {e : Cqe} {cls : SyscallNbCompResult} {others : List UInt16}
    (ht : Event.timely p log (.cqe e cls others) = true) (hcls : cls = .normal ∨ cls = .multiple) :
    InTime (log ++ [.cqe e cls others, .poll (e.context cls)]) (e.context cls) ∧
      Sent p (log ++ [.cqe e cls others, .poll (e.context cls)]) v := by
  have hlast : lastSqe log = some e.sqe := by
    rcases hcls with rfl | rfl <;> simpa [Event.timely] using ht
  have hsqe : lastSqe (log ++ [.cqe e cls others, .poll (e.context cls)]) = some e.sqe :=
    (lastSqe_append_of_not (by simp [Event.sqe?])).trans hlast
  have hcqe : lastCqe (log ++ [.cqe e cls others, .poll (e.context cls)]) = some e := by
    rw [lastCqe, List.filterMap_append]
    exact List.getLast?_concat
  obtain ⟨hresult, hflags⟩ := e.context_result cls
  refine ⟨fun q hq => ⟨e, hcqe, Option.some.inj (hsqe.symm.trans hq), hresult, hflags⟩, ?_⟩
  exact h.append (by simp [Event.sqe?])

theorem Owned.settle (h : Owned p V.log) : Owned p V.settle.log := by
  unfold View.settle
  split
  · exact h.snoc rfl
  · exact h

/-- A block that runs is in time. -/
theorem Attends.inTime {x : Await.Point τ} (h : Attends p V) (hon : V.phase = .on cur)
    (hx : V.block.code = some x) (hsusp : x.suspended = false) : InTime V.log cur := by
  have hmode := h x hx
  rw [hon] at hmode
  cases x with
  | run t => exact hmode
  | poll v k => exact hmode.1
  | suspend v k => cases hsusp

/-- What waits and is polled in time has submitted the last SQE: an open stream as its completions
are in time, anything else as the block awaits it. -/
theorem Attends.sent {x : Await.Point τ} {k : Resp → τ} {val : Value} {n : Nat} {r : Resp}
    (h : Attends p V) (htidy : Tidy V) (hon : V.phase = .on cur) (hx : V.block.code = some x)
    (hpoint : x = .poll v k ∨ ∃ t, x = .run t ∧ A t = .next v k)
    (hv : V.block.locals[v]? = some (some val))
    (ht : Event.timely p V.log (.call v val cur n (some r)) = true) (hwaits : val.waits = true) :
    Sent p V.log v := by
  obtain hopen | hawaits := (htidy x hx v val hv).2 hwaits
  · simp only [Event.timely, hopen, Bool.not_true, Bool.false_or] at ht
    obtain ⟨q, hq, hcaller⟩ := (Option.any_eq_true _ _).mp ht
    exact ⟨q, hq, of_decide_eq_true hcaller⟩
  · obtain rfl | ⟨t, rfl, -⟩ := hpoint
    · have hmode := h _ hx
      rw [hon] at hmode
      exact hmode.2 val hv hwaits
    · cases hawaits

/-- The completion that polls a block comes in time. -/
theorem Attends.accept {e : Cqe} {cls : SyscallNbCompResult} {others : List UInt16}
    {nb : UInt16} {outs : Multiset Sqe} (h : Attends p V) (hoff : V.phase = .off)
    (ht : Event.timely p V.log (.cqe e cls others) = true)
    (hcls : cls = .normal ∨ cls = .multiple) : Attends p { V with
      nb, outs, phase := .on (e.context cls)
      log := V.log ++ [.cqe e cls others, .poll (e.context cls)] } := by
  intro x hx
  have hmode := h x hx
  rw [hoff] at hmode
  cases x with
  | run t => cases hmode
  | poll v k =>
    obtain ⟨htime, hsent⟩ := hmode.accept ht hcls
    exact ⟨htime, fun _ _ _ => hsent⟩
  | suspend v k => exact (hmode.accept ht hcls).2

/-- **Every step of a task whose completions come in time.** -/
theorem Attends.step (hA : ∀ t, (A t).streams = true) (hs : TaskStep (awaited A) p V V')
    (htidy : Tidy V) (ht : Timely p V'.log) (hown : Owned p V.log) (h : Attends p V) :
    Owned p V'.log ∧ Attends p V' := by
  cases hs with
  | @locals cur x y L L' hon hb hl =>
    obtain ⟨t, rfl⟩ := awaited_run rfl (fun v k hx => by rw [hx] at hl; cases hl)
      fun k hx => by rw [hx] at hl; cases hl
    have hmode := h _ (by rw [hb])
    rw [hon] at hmode
    refine ⟨hown, fun z hz => ?_⟩
    obtain rfl := Option.some.inj hz
    rw [hon]
    obtain ⟨u, rfl⟩ | ⟨v, k, val, rfl, hv, hnew⟩ := awaited_local (hA t) hl
    · exact hmode
    · refine ⟨hmode, fun val' hv' hw => ?_⟩
      obtain rfl := Option.some.inj (Option.some.inj (hv.symm.trans hv'))
      rw [hnew] at hw
      cases hw
  | @spawn cur x child k L L' taken moved hon hb hx hm =>
    obtain ⟨t, c, u, rfl, rfl, rfl⟩ := awaited_spawn hx
    have hmode := h _ (by rw [hb])
    rw [hon] at hmode
    refine ⟨hown, fun z hz => ?_⟩
    obtain rfl := Option.some.inj hz
    rw [hon]
    exact hmode
  | @call cur cur' x L v k val val' out nb' new evs hon hb hx hv hc =>
    obtain ⟨hsusp, k', rfl, hpoint⟩ := awaited_poll hx
    have hcode : V.block.code = some x := by rw [hb]
    have hval : V.block.locals[v]? = some (some val) := by rwa [hb]
    obtain ⟨-, ⟨rfl, q, n, hcaller, rfl⟩ | ⟨hready, rfl, rfl, -⟩⟩ :=
      hc.of_streams (htidy x hcode v val hval).1
    · -- the value is polled for the first time
      refine ⟨(hown.snoc rfl).snoc rfl, fun z hz => ?_⟩
      obtain rfl := Option.some.inj hz
      have hsent : Sent p (V.log ++ [.submit q n]) v := ⟨q, lastSqe_submit _ q n, hcaller⟩
      exact hsent.append (by simp [Event.sqe?])
    · -- it resolves, in the context of the completion of its SQE
      obtain ⟨r, hr⟩ := hready L.length
      rw [List.append_nil, hr] at ht ⊢
      have htime := h.inTime hon hcode hsusp
      have hsent := h.sent htidy hon hcode hpoint hval (Along.snoc_iff.mp ht).2
      refine ⟨hown.snoc (htime.owned hsent), fun z hz => ?_⟩
      obtain rfl := Option.some.inj hz
      exact htime.append (by simp [Event.sqe?]) (by simp [Event.entry])
  | suspend hon hb hx =>
    obtain ⟨v, k', rfl, rfl⟩ := awaited_suspend hx
    have hmode := h _ (by rw [hb])
    rw [hon] at hmode
    refine ⟨hown, fun z hz => ?_⟩
    obtain rfl := Option.some.inj hz
    exact hmode
  | ret => exact ⟨hown.snoc rfl, fun z hz => nomatch hz⟩
  | leave hover =>
    refine ⟨Owned.settle (V := { V with phase := .off }) hown, Attends.settle (fun x hx => ?_) rfl⟩
    have hmode := h x hx
    rw [hover] at hmode
    cases x with
    | run | poll | suspend => exact hmode
  | @skip e others harr =>
    refine ⟨Owned.settle (hown.snoc rfl), Attends.settle (fun x hx => ?_) harr.off⟩
    have hmode := h x hx
    rw [harr.off] at hmode ⊢
    cases x with
    | run t => exact hmode
    | poll v k | suspend v k => exact hmode.append (by simp [Event.sqe?])
  | @accept e cls others harr hcls =>
    have hcqe : Timely p (V.log ++ [.cqe e cls others]) := by
      refine ht.of_prefix ⟨[.poll (e.context cls)], ?_⟩
      simp
    refine ⟨?_, h.accept harr.off (Along.snoc_iff.mp hcqe).2 hcls⟩
    rw [show ([.cqe e cls others, .poll (e.context cls)] : List Event) = [.cqe e cls others] ++
      [.poll _] from rfl, ← List.append_assoc]
    exact (hown.snoc rfl).snoc rfl

/-- What is known of a task that awaits streams and other operations. -/
structure Heedful (p : TaskPtr) (V : View (Await.Point τ)) : Prop where
  tidy : Tidy V
  stands : Timely p V.log → Owned p V.log ∧ Attends p V

theorem Heedful.born (i : SlabIdx) (t : τ) {L : List (Option Value)}
    (hL : Held (fun _ val => val.streams = true ∧ (val.waits = true → val.isOpen = true)) L) :
    Heedful p (.born i (Await.Point.run t) L) := by
  refine ⟨.born i t hL, fun _ => ⟨((Owned.nil (p := p)).snoc rfl).snoc rfl, fun x hx => ?_⟩⟩
  obtain rfl := Option.some.inj hx
  exact fun q hq => nomatch hq

theorem Heedful.isLocal (hA : ∀ t, (A t).streams = true) :
    Local (awaited A) (fun _ => true) Heedful where
  main p i x hx := by
    cases x with
    | run t => exact .born i t Held.nil
    | poll | suspend => cases hx
  spawn t i h hon hb hx hm _ := by
    obtain ⟨t, c, u, rfl, rfl, rfl⟩ := awaited_spawn hx
    have hheld := h.tidy _ (by rw [hb])
    rw [hb] at hheld
    refine .born i c fun w val hw => ?_
    obtain ⟨v, hs, hwait⟩ := (hheld.moves hm).2 w val hw
    exact ⟨hs, fun hwaits => (hwait hwaits).resolve_right nofun⟩
  step hs _ h := by
    refine ⟨h.tidy.step hA hs, fun ht => ?_⟩
    obtain ⟨hown, hstands⟩ := h.stands (ht.of_prefix hs.log)
    exact hstands.step hA hs h.tidy ht hown

end Steps

/-- **What a task resolves is resolved by its own completion**, in every run of tasks that await
single-shot operations, commits and streams, if its completions come in time: one that polls the
task answers the SQE that it submitted last, and an open stream is polled while that SQE is its
own. -/
theorem own_completion_run {A : τ → Await.Instr τ} (hA : ∀ t, (A t).streams = true)
    {s : State (Await.Point τ)} (h : Reachable (awaited A) s) (p : TaskPtr)
    {raw : RawTask (Await.Point τ)} (hraw : s.heap[p]? = some raw) (ht : Timely p raw.log) :
    Owned p raw.log :=
  ((((Heedful.isLocal hA).reachable h).raw hraw).stands ht).1

/-! ## A stream that stays open -/

instance (p : TaskPtr) (log : List Event) : Decidable (Owned p log) :=
  decidable_of_iff' _ Owned.along_iff

/-- A block that commits the first buffer of a `read_stream`, as an echo server does. -/
def echoFirst : Nat → Await.Instr Nat
  | 0 => .stream (.readStream 5) fun _ => 1
  | 1 => .next 0 fun
    | .buffer _ _ => 2
    | _ => 3
  | 2 => .await (.commit 1 4) fun _ => 3
  | _ => .ret

/-- More data arrives before the write is done. -/
def echoFirstRun : List (Cmd (Await.Point Nat)) :=
  [.spawn 9 (.run 0), .submit, .consume, .complete 0 4 3, .handle 9, .submit, .consume,
    .complete 0 4 0x10003, .handle 9]

def SqeOp.isWriteFixed : SqeOp → Bool
  | .writeFixed _ _ _ _ => true
  | _ => false

theorem SqeOp.eq_of_isWriteFixed {op : SqeOp} (h : op.isWriteFixed = true) :
    ∃ fd ptr len buf, op = .writeFixed fd ptr len buf := by
  cases op with
  | writeFixed fd ptr len buf => exact ⟨fd, ptr, len, buf, rfl⟩
  | _ => cases h

theorem commit_takes_stream_completion :
    ∃ s, Reachable (awaited echoFirst) s ∧ ∃ p raw, s.heap[p]? = some raw ∧ ¬ Owned p raw.log ∧
      ∃ q ∈ s.outstanding, q.caller.task = p ∧
      ∃ fd ptr len buf, q.op = .writeFixed fd ptr len buf := by
  have hrun : (freshScript (awaited echoFirst) (fun _ _ => true) echoFirstRun).any (fun s =>
      s.heap[0]?.any (fun raw => !decide (Owned 0 raw.log)) && s.outstanding.any fun q =>
        q.caller.task = 0 && q.op.isWriteFixed) = true := by decide +kernel
  obtain ⟨s, hs, hc⟩ := (Option.any_eq_true _ _).mp hrun
  rw [Bool.and_eq_true] at hc
  obtain ⟨raw, hraw, hown⟩ := (Option.any_eq_true _ _).mp hc.1
  obtain ⟨q, hq, hop⟩ := List.any_eq_true.mp hc.2
  rw [Bool.and_eq_true, decide_eq_true_eq] at hop
  exact ⟨s, .of_script (fun _ _ _ => trivial) hs, 0, raw, hraw, by simpa using hown, q, hq, hop.1,
    SqeOp.eq_of_isWriteFixed hop.2⟩

instance (p : TaskPtr) (log : List Event) : Decidable (Timely p log) :=
  inferInstanceAs (Decidable (Along _ log))

/-- The write is done before more data arrives. -/
def echoFirstInTime : List (Cmd (Await.Point Nat)) :=
  [.spawn 9 (.run 0), .submit, .consume, .complete 0 4 3, .handle 9, .submit, .consume,
    .complete 1 4 0, .handle 9]

/-- The commit beside the open stream is resolved by its own completion. -/
theorem own_completion_run_echo :
    ∃ s raw, Reachable (awaited echoFirst) s ∧ s.heap[0]? = some raw ∧ s.outstanding ≠ [] ∧
      raw.log.countP (fun ev => ev.entry.isSome) = 2 ∧ Timely 0 raw.log ∧ Owned 0 raw.log := by
  have hrun : (freshScript (awaited echoFirst) (fun _ _ => true) echoFirstInTime).any (fun s =>
      !s.outstanding.isEmpty && s.heap[0]?.any fun raw =>
        raw.log.countP (fun ev => ev.entry.isSome) == 2 && decide (Timely 0 raw.log)) = true :=
          by decide +kernel
  obtain ⟨s, hs, hc⟩ := (Option.any_eq_true _ _).mp hrun
  rw [Bool.and_eq_true] at hc
  obtain ⟨raw, hraw, hlog⟩ := (Option.any_eq_true _ _).mp hc.2
  rw [Bool.and_eq_true, decide_eq_true_eq] at hlog
  have hreach : Reachable (awaited echoFirst) s := .of_script (fun _ _ _ => trivial) hs
  refine ⟨s, raw, hreach, hraw, by simpa using hc.1, beq_iff_eq.mp hlog.1, hlog.2, ?_⟩
  refine own_completion_run (fun t => ?_) hreach 0 hraw hlog.2
  match t with
  | 0 | 1 | 2 | _ + 3 => rfl

end Onlyio
