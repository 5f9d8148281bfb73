import Onlyio.Runs.SingleShot
import Onlyio.Lib.History

/-!
# One connection

`SocketFuture` submits SOCKET, takes the slot number from its completion, submits CONNECT on that
slot and resolves with it. It has no state of its own for "socket created": it takes a stored
descriptor `0` for "not yet", and the result of SOCKET for a slot, whatever its sign.

* `Exchange`: the two steps, as the log of a task has them.
* `PolledWhenAnswered`: the connection is polled again only after its SQE was answered. It is read
  off the log: nothing is asked of the code, nor of any other task.
* **`exchange_run`**: in every state that is reached such a connection is an `Exchange`, if SOCKET
  gave a positive result.
* `connect_addr_gone`: the address that CONNECT carries is that of a local which is gone before the
  kernel reads it.
-/

namespace Onlyio

open Lib

variable {σ : Type}

/-! ## The exchange -/

/-- The events of one future: its SQEs, their completions and its polls. -/
def Event.concerns (me : Caller) : Event → Bool
  | .submit q _ => q.caller = me
  | .call v _ _ _ _ => v = me.var
  | .cqe e _ _ => e.sqe.caller = me
  | _ => false

/-- What the log has of one future. -/
def about (me : Caller) (log : List Event) : List Event := log.filter fun ev => ev.concerns me

/-- How far a connection has come. -/
inductive Progress where
  | made
  | opening (q : Sqe)
  | opened (slot : UInt32)
  | connecting (slot : UInt32) (q : Sqe)
  | connected (slot : UInt32)
  | resolved (slot : UInt32)

/-- **The two steps of a connection**: one SOCKET, one CONNECT on the slot that SOCKET returned, and
the slot as the result after the completion of CONNECT. -/
inductive Exchange (me : Caller) (addr : SockAddr) : Progress → List Event → Prop where
  | made : Exchange me addr .made []
  | opening {q : Sqe} (info : TaskInfo) (n m : Nat) (hq : q.caller = me) (hop : q.op = .socket) :
      Exchange me addr (.opening q)
        [.submit q n, .call me.var (.socket (.createSocket addr)) info m none]
  | opened {e : Cqe} {evs : List Event} (cls : SyscallNbCompResult) (others : List UInt16)
      (h : Exchange me addr (.opening e.sqe) evs) (hres : 0 < e.result) :
      Exchange me addr (.opened e.result.toUInt32) (evs ++ [.cqe e cls others])
  | connecting {slot : UInt32} {q : Sqe} {evs : List Event} (info : TaskInfo) (n m : Nat)
      (h : Exchange me addr (.opened slot) evs) (hq : q.caller = me)
      (hop : q.op = .connect slot 0 sockAddrSize) : Exchange me addr (.connecting slot q)
        (evs ++ [.submit q n, .call me.var (.socket (.connecting 0 addr)) info m none])
  | connected {slot : UInt32} {e : Cqe} {evs : List Event} (cls : SyscallNbCompResult)
      (others : List UInt16) (h : Exchange me addr (.connecting slot e.sqe) evs) :
      Exchange me addr (.connected slot) (evs ++ [.cqe e cls others])
  | resolved {slot : UInt32} {evs : List Event} (info : TaskInfo) (m : Nat)
      (h : Exchange me addr (.connected slot) evs) :
      Exchange me addr (.resolved slot)
        (evs ++ [.call me.var (.socket (.connecting slot addr)) info m (some (.connected slot))])

namespace Progress

/-- The SQE that is outstanding. -/
def sqe : Progress → Option Sqe
  | .opening q | .connecting _ q => some q
  | _ => none

/-- The operations submitted so far. -/
def ops : Progress → List SqeOp
  | .made => []
  | .opening _ | .opened _ => [.socket]
  | .connecting slot _ | .connected slot | .resolved slot => [.socket, .connect slot 0 sockAddrSize]

/-- The future at this point. -/
def value (addr : SockAddr) : Progress → Value
  | .made => .socket (.createSocket addr)
  | .opening _ | .opened _ => .socket (.connecting 0 addr)
  | .connecting slot _ | .connected slot => .socket (.connecting slot addr)
  | .resolved _ => .returned

end Progress

/-- The operation that an event submits. -/
def Event.submission : Event → Option SqeOp
  | .submit q _ => some q.op
  | _ => none

/-- The result of a SOCKET. -/
def Event.socketResult : Event → Option Int32
  | .cqe e _ _ => if e.sqe.op = .socket then some e.result else none
  | _ => none

/-- Every SOCKET that was answered has a positive result. -/
def PositiveSlots (log : List Event) : Prop := ∀ r ∈ log.filterMap Event.socketResult, 0 < r

theorem PositiveSlots.pos {log : List Event} (h : PositiveSlots log) {e : Cqe}
    {cls : SyscallNbCompResult} {others : List UInt16} (he : .cqe e cls others ∈ log)
    (hop : e.sqe.op = .socket) : 0 < e.result :=
  h _ (List.mem_filterMap.mpr ⟨_, he, if_pos hop⟩)

/-- The polls of one future and the completions of its SQEs. -/
def Event.turns (me : Caller) : Event → Bool
  | .call v _ _ _ _ => v = me.var
  | .cqe e _ _ => e.sqe.caller = me
  | _ => false

/-- The last poll or completion of one future. -/
def lastTurn (me : Caller) (log : List Event) : Option Event :=
  (log.filter fun ev => ev.turns me).getLast?

/-- A poll of the connection in `me` that is not its first comes after a completion of its SQE; the
one after SOCKET is in the context of that completion. -/
def Event.polledWhenAnswered (me : Caller) (before : List Event) : Event → Bool
  | .call v (.socket (.connecting fd _)) info _ _ =>
    v != me.var || match lastTurn me before with
      | some (.cqe e _ _) => fd != 0 || info.result == e.result
      | _ => false
  | _ => true

/-- The connection in `me` was polled again only when its SQE was answered. -/
def PolledWhenAnswered (me : Caller) (log : List Event) : Prop :=
  Along (fun before ev => ev.polledWhenAnswered me before = true) log

/-! ## What the events say -/

/-- A poll of a `SocketFuture`. -/
def Event.dials : Event → Bool
  | .call _ (.socket _) _ _ _ => true
  | _ => false

def Value.dials : Value → Bool
  | .socket _ => true
  | _ => false

section Events

variable {me : Caller} {addr : SockAddr} {prog : Progress} {log evs : List Event}

theorem about_append (me : Caller) (log evs : List Event) :
    about me (log ++ evs) = about me log ++ about me evs := List.filter_append ..

theorem about_of_not (h : ∀ ev ∈ evs, ev.concerns me = false) :
    about me (log ++ evs) = about me log := by
  have hnil : about me evs = [] := List.filter_eq_nil_iff.mpr fun ev hev => by
    rw [h ev hev]; exact nofun
  rw [about_append, hnil, List.append_nil]

theorem toUInt32_ne_zero {r : Int32} (h : 0 < r) : r.toUInt32 ≠ 0 := by
  intro h0
  cases r with
  | ofUInt32 u =>
    subst h0
    exact absurd h (by decide)

/-- The slot of a connection is positive. -/
theorem Exchange.slot_ne (h : Exchange me addr prog evs) {slot : UInt32}
    (hslot : prog = .opened slot ∨ (∃ q, prog = .connecting slot q) ∨ prog = .connected slot) :
    slot ≠ 0 := by
  induction h with
  | made | opening => simp at hslot
  | opened cls others h hres =>
    obtain rfl : _ = slot := by simpa using hslot
    exact toUInt32_ne_zero hres
  | connecting info n m h hq hop ih =>
    obtain rfl : _ = slot := by simpa using hslot
    exact ih (.inl rfl)
  | connected cls others h ih =>
    obtain rfl : _ = slot := by simpa using hslot
    exact ih (.inr (.inl ⟨_, rfl⟩))
  | resolved => simp at hslot

/-- The operations that a connection has submitted. -/
theorem Exchange.ops (h : Exchange me addr prog evs) :
    evs.filterMap Event.submission = prog.ops := by
  induction h with
  | made => rfl
  | opening info n m hq hop => simp [Event.submission, Progress.ops, hop]
  | connecting info n m h hq hop ih => simp [Event.submission, ih, Progress.ops, hop]
  | opened _ _ _ _ ih | connected _ _ _ ih | resolved _ _ _ ih =>
    rw [List.filterMap_append, ih]
    rfl

/-- It is the connection that was asked for. -/
theorem Exchange.addr_eq (h : Exchange me addr prog evs) {v : Var} {a : SockAddr}
    {info : TaskInfo} {n : Nat} {r : Option Resp}
    (hc : .call v (.socket (.createSocket a)) info n r ∈ evs) : a = addr := by
  induction h with
  | made => cases hc
  | opening => simp_all
  | opened cls others h hres ih => exact ih (by simpa using hc)
  | connecting info n m h hq hop ih => exact ih (by simpa using hc)
  | connected cls others h ih => exact ih (by simpa using hc)
  | resolved info m h ih => exact ih (by simpa using hc)

theorem Exchange.op_socket {q : Sqe} (h : Exchange me addr (.opening q) evs) : q.op = .socket := by
  cases h with
  | opening _ _ _ _ hop => exact hop

theorem Exchange.single (h : Exchange me addr prog evs) {q : Sqe} (hq : prog.sqe = some q) :
    q.caller = me ∧ q.op.isMultishot = false := by
  cases h with
  | opening _ _ _ hc hop | connecting _ _ _ _ hc hop =>
    obtain rfl := Option.some.inj hq
    exact ⟨hc, by rw [hop]; rfl⟩
  | made | opened | connected | resolved => cases hq

/-! ## The last turn -/

theorem lastTurn_of_not (h : ∀ ev ∈ evs, ev.turns me = false) :
    lastTurn me (log ++ evs) = lastTurn me log := by
  have hnil : evs.filter (fun ev => ev.turns me) = [] :=
    List.filter_eq_nil_iff.mpr fun ev hev => by rw [h ev hev]; exact nofun
  rw [lastTurn, List.filter_append, hnil, List.append_nil, lastTurn]

theorem lastTurn_snoc {ev : Event} (h : ev.turns me = true) :
    lastTurn me (log ++ [ev]) = some ev := by
  rw [lastTurn, List.filter_append, List.filter_singleton, h, cond_true, List.getLast?_concat]

theorem lastTurn_about (me : Caller) (log : List Event) :
    lastTurn me (about me log) = lastTurn me log := by
  have hboth : ∀ ev : Event, (ev.turns me && ev.concerns me) = ev.turns me := fun ev => by
    cases ev <;> simp [Event.turns, Event.concerns]
  simp only [lastTurn, about, List.filter_filter, hboth]

/-- A connection whose last turn is a completion waits to be polled. -/
theorem Exchange.answered (h : Exchange me addr prog evs) {e : Cqe} {cls : SyscallNbCompResult}
    {others : List UInt16} (hlast : lastTurn me evs = some (.cqe e cls others)) :
    prog = .opened e.result.toUInt32 ∨ ∃ slot, prog = .connected slot := by
  have hcall : ∀ (evs : List Event) {val : Value} {info : TaskInfo} {n : Nat} {r : Option Resp},
      lastTurn me (evs ++ [.call me.var val info n r]) ≠ some (.cqe e cls others) := by
    intro evs val info n r hl
    rw [lastTurn_snoc (by simp [Event.turns])] at hl
    cases hl
  cases h with
  | made => cases hlast
  | opening => exact absurd hlast (hcall [_])
  | opened _ _ h =>
    rw [lastTurn_snoc (by simp [Event.turns, (h.single rfl).1])] at hlast
    cases hlast
    exact .inl rfl
  | connecting =>
    rw [← List.singleton_append, ← List.append_assoc] at hlast
    exact absurd hlast (hcall _)
  | connected => exact .inr ⟨_, rfl⟩
  | resolved => exact absurd hlast (hcall _)

end Events

/-! ## How a local stands to its connection -/

/-- The SQE of a connection that is outstanding. -/
def Progress.outs (prog : Progress) : Multiset Sqe :=
  match prog.sqe with
  | some q => {q}
  | none => 0

/-- Where the local `me` stands: nothing has happened to it, it holds no connection, or it holds one
that has come as far as its events say. -/
inductive Dialing (me : Caller) (V : View σ) : Prop where
  | quiet (hno : about me V.log = []) (houts : ∀ q ∈ V.outs, q.caller ≠ me)
  | other (hlt : V.block.code.isSome → V.freed = false → me.var < V.block.locals.length)
      (hno : ∀ ev ∈ about me V.log, ev.dials = false)
      (hval : ∀ val, V.block.locals[me.var]? = some (some val) → val.dials = false)
  | dials {addr : SockAddr} {prog : Progress}
      (hlt : V.block.code.isSome → V.freed = false → me.var < V.block.locals.length)
      (hex : Exchange me addr prog (about me V.log)) (hmade : prog ≠ .made)
      (houts : V.outs.filter (fun q => q.caller = me) = prog.outs)
      (hval : ∀ val, V.block.locals[me.var]? = some (some val) → val = prog.value addr)

section Steps

variable {code : Code σ} {p : TaskPtr} {v u : Var} {V V' : View σ}
  {cur cur' : TaskInfo} {me : Caller}

/-- What a poll records of the other futures of its task: nothing. -/
theorem about_call_ne {u : Var} (hu : u ≠ v) {log evs : List Event} {val : Value}
    {info : TaskInfo} {n : Nat} {r : Option Resp} (hevs : ∀ ev ∈ evs, ∃ q m, ev = .submit q m ∧
    q.caller = ⟨p, v⟩) : about ⟨p, u⟩ (log ++ evs ++ [.call v val info n r]) =
    about ⟨p, u⟩ log := by
  rw [about_of_not, about_of_not]
  · intro ev hev
    obtain ⟨q, m, rfl, hq⟩ := hevs ev hev
    simp [Event.concerns, hq, Ne.symm hu]
  · intro ev hev
    rw [List.mem_singleton.mp hev]
    simp [Event.concerns, Ne.symm hu]

/-- What it records of the future that is polled. -/
theorem about_submit_call {log : List Event} {q : Sqe} (hq : q.caller = ⟨p, v⟩)
    (m : Nat) (val : Value) (info : TaskInfo) (n : Nat) (r : Option Resp) :
    about ⟨p, v⟩ (log ++ [.submit q m] ++ [.call v val info n r]) =
      about ⟨p, v⟩ log ++ [.submit q m, .call v val info n r] := by
  rw [about_append, about_append, List.append_assoc]
  simp [about, Event.concerns, hq]

theorem about_call (log : List Event) (val : Value) (info : TaskInfo) (n : Nat) (r : Option Resp) :
    about ⟨p, v⟩ (log ++ [.call v val info n r]) = about ⟨p, v⟩ log ++ [.call v val info n r] := by
  rw [about_append]
  simp [about, Event.concerns]

/-- A value that is no connection becomes none. -/
theorem Called.not_dials {nb nb' : UInt16} {outs : Multiset Sqe} {val val' : Value} {out : Out}
    {new : List Sqe} {evs : List Event} (h : Called me cur nb outs val out val' cur' nb' new evs)
    (hval : val.dials = false) : val'.dials = false := by
  cases h with
  | send h => cases h <;> first | rfl | cases hval
  | opens h | commit h => cases h <;> rfl
  | fanOut | fanOne | fanLast => rfl
  | resolve h => cases h <;> rfl

/-- The log and the SQEs of the local are as before. -/
theorem Dialing.congr (h : Dialing me V) (hlog : about me V'.log = about me V.log)
    (houts : V'.outs.filter (fun q => q.caller = me) = V.outs.filter fun q => q.caller = me)
    (hlt : (V.block.code.isSome → V.freed = false → me.var < V.block.locals.length) →
      V'.block.code.isSome → V'.freed = false → me.var < V'.block.locals.length)
    (hval : (V.block.code.isSome → V.freed = false → me.var < V.block.locals.length) →
      ∀ val, V'.block.locals[me.var]? = some (some val) →
      V.block.locals[me.var]? = some (some val)) :
    Dialing me V' := by
  cases h with
  | quiet hno hq =>
    refine .quiet (hlog.trans hno) fun q hmem heq => ?_
    have hin : q ∈ V'.outs.filter fun q => q.caller = me := Multiset.mem_filter.mpr ⟨hmem, heq⟩
    rw [houts] at hin
    exact hq q (Multiset.mem_of_mem_filter hin) heq
  | other hl hno hv =>
    exact .other (hlt hl) (fun ev hev => hno ev (hlog ▸ hev)) fun val h => hv val (hval hl val h)
  | dials hl hex hmade ho hv =>
    exact .dials (hlt hl) (hlog ▸ hex) hmade (houts.trans ho) fun val h => hv val (hval hl val h)

theorem Out.getElem?_bind {L : List (Option Value)} (h : v < L.length) (out : Out) :
    (out.bind L)[v]? = L[v]? := by
  cases out with
  | buffer b => exact List.getElem?_append_left h
  | pending | ready => rfl

/-- What a settled task has recorded. -/
theorem View.log_settle_mem {ev : Event} (h : ev ∈ V.log) : ev ∈ V.settle.log := by
  unfold settle
  split
  · exact List.mem_append_left _ h
  · exact h

/-- The block edits its locals. -/
theorem Dialing.edit {x y : σ} {L L' : List (Option Value)} (h : Dialing me V)
    (hlive : V.freed = false) (hb : V.block = ⟨some x, L⟩) (hlen : L.length ≤ L'.length)
    (hold : Held (fun u val => L[u]? = some (some val) ∨ L.length ≤ u) L') :
    Dialing me { V with block := ⟨some y, L'⟩ } := by
  refine h.congr rfl rfl (fun hl _ _ => ?_) fun hl val hval => ?_
  · rw [hb] at hl
    exact Nat.lt_of_lt_of_le (hl rfl hlive) hlen
  · rw [hb] at hl ⊢
    exact (hold me.var val hval).resolve_right (Nat.not_le.mpr (hl rfl hlive))

/-- A completion of the task. -/
theorem Dialing.answer {e : Cqe} {cls : SyscallNbCompResult} {others : List UInt16}
    (h : Dialing me V) (ha : Arrives V e cls others) (hpos : e.sqe.caller = me →
    e.sqe.op = .socket → 0 < e.result) (houts : V'.outs = V.answered e) (hlog :
    about me V'.log = about me (V.log ++ [.cqe e cls others])) (hblock : V'.block = V.block)
    (hfreed : V'.freed = V.freed) : Dialing me V' := by
  by_cases hme : e.sqe.caller = me
  · have habout : about me V'.log = about me V.log ++ [.cqe e cls others] := by
      rw [hlog, about_append]
      simp [about, Event.concerns, hme]
    cases h with
    | quiet hno hq => exact absurd hme (hq _ ha.mem)
    | other hlt hno hval =>
      rw [← hblock, ← hfreed] at hlt
      refine .other hlt (fun ev hev => ?_) fun val hv => hval val (hblock ▸ hv)
      rw [habout] at hev
      rcases List.mem_append.mp hev with hev | hev
      · exact hno ev hev
      · rw [List.mem_singleton.mp hev]
        rfl
    | @dials addr prog hlt hex hmade ho hval =>
      have hin : e.sqe ∈ prog.outs := ho ▸ Multiset.mem_filter.mpr ⟨ha.mem, hme⟩
      have hsqe : prog.sqe = some e.sqe := by
        unfold Progress.outs at hin
        split at hin
        · rename_i q hq
          rw [hq, Multiset.mem_singleton.mp hin]
        · cases hin
      have hfinal : more e.flags = false := by
        by_contra hmore
        have hop := (hex.single hsqe).2
        rw [ha.shots (by simpa using hmore)] at hop
        cases hop
      -- its one SQE is answered for good
      have hgone : V'.outs.filter (fun q => q.caller = me) = 0 := by
        rw [← Multiset.cons_erase ha.mem,
          Multiset.filter_cons_of_pos (p := fun q : Sqe => q.caller = me) _ hme] at ho
        have hone : prog.outs = {e.sqe} := by rw [Progress.outs, hsqe]
        rw [hone] at ho
        rw [houts, View.answered, hfinal]
        exact (Multiset.cons_inj_right _).mp ho
      rw [← hblock, ← hfreed] at hlt
      have hval' : ∀ val, V'.block.locals[me.var]? = some (some val) →
          val = prog.value addr := fun val hv =>
        hval val (hblock ▸ hv)
      cases prog with
      | opening q =>
        obtain rfl : q = e.sqe := Option.some.inj hsqe
        have hexch : Exchange me addr (.opened e.result.toUInt32) (about me V'.log) := by
          rw [habout]
          exact .opened cls others hex (hpos hme hex.op_socket)
        exact .dials hlt hexch (fun hmade => by cases hmade) hgone hval'
      | connecting slot q =>
        obtain rfl : q = e.sqe := Option.some.inj hsqe
        have hexch : Exchange me addr (.connected slot) (about me V'.log) := by
          rw [habout]
          exact .connected cls others hex
        exact .dials hlt hexch (fun hmade => by cases hmade) hgone hval'
      | made | opened | connected | resolved => cases hsqe
  · refine h.congr (hlog.trans (about_of_not fun ev hev => ?_)) ?_
      (fun hl => ?_) fun _ val hv => hblock ▸ hv
    · rw [List.mem_singleton.mp hev]
      exact decide_eq_false hme
    · rw [houts]
      unfold View.answered
      split
      · rfl
      · conv_rhs => rw [← Multiset.cons_erase ha.mem]
        exact (Multiset.filter_cons_of_neg (p := fun q : Sqe => q.caller = me) _ hme).symm
    · rw [hblock, hfreed]
      exact hl

/-- No poll refers to the task any more. -/
theorem Dialing.settle (h : Dialing me V) : Dialing me V.settle := by
  unfold View.settle
  split
  · refine h.congr (about_of_not fun ev hev => ?_) rfl (fun _ _ hf => nomatch hf) fun _ val hv =>
      nomatch hv
    rw [List.mem_singleton.mp hev]
    rfl
  · exact h

/-- What a poll records, beside the poll itself. -/
theorem Called.submits_self {nb nb' : UInt16} {outs : Multiset Sqe} {val val' : Value} {out : Out}
    {new : List Sqe} {evs : List Event}
    (h : Called ⟨p, v⟩ cur nb outs val out val' cur' nb' new evs) :
    ∀ ev ∈ evs, ∃ q m, ev = .submit q m ∧ q.caller = ⟨p, v⟩ := by
  intro ev hev
  obtain ⟨q, m, rfl⟩ := h.submits ev hev
  exact ⟨q, m, rfl, h.callers q (h.mem_new hev)⟩

/-- A connection that may be polled again was answered. -/
theorem answer_of_polled {before : List Event} {fd : UInt32} {addr : SockAddr}
    {info : TaskInfo} {n : Nat} {r : Option Resp}
    (h : Event.polledWhenAnswered me before
    (.call me.var (.socket (.connecting fd addr)) info n r) = true) : ∃ e cls others,
      lastTurn me before = some (.cqe e cls others) ∧ (fd = 0 → info.result = e.result) := by
  simp only [Event.polledWhenAnswered, bne_self_eq_false, Bool.false_or] at h
  split at h
  · rename_i e cls others hlast
    refine ⟨e, cls, others, hlast, fun h0 => ?_⟩
    simpa [h0] using h
  · cases h

/-- The log of a value that is no connection has no polls of one. -/
theorem Called.about_not_dials {nb nb' : UInt16} {outs : Multiset Sqe} {val val' : Value}
    {out : Out} {new : List Sqe} {log evs : List Event} {n : Nat} {r : Option Resp}
    (h : Called ⟨p, v⟩ cur nb outs val out val' cur' nb' new evs)
    (hno : ∀ ev ∈ about ⟨p, v⟩ log, ev.dials = false) (hval : val.dials = false) :
    ∀ ev ∈ about ⟨p, v⟩ (log ++ evs ++ [.call v val cur n r]), ev.dials = false := by
  intro ev hev
  rw [about_append, about_append] at hev
  rcases List.mem_append.mp hev with hev | hev
  · rcases List.mem_append.mp hev with hev | hev
    · exact hno ev hev
    · obtain ⟨q, m, rfl⟩ := h.submits ev (List.mem_of_mem_filter hev)
      rfl
  · rw [List.mem_singleton.mp (List.mem_of_mem_filter hev)]
    cases val with
    | socket f => cases hval
    | _ => rfl

/-- The submissions of a poll are no turn. -/
theorem Called.lastTurn_eq {nb nb' : UInt16} {outs : Multiset Sqe} {val val' : Value}
    {out : Out} {new : List Sqe} {log evs : List Event}
    (h : Called ⟨p, v⟩ cur nb outs val out val' cur' nb' new evs) :
    lastTurn ⟨p, v⟩ (log ++ evs) = lastTurn ⟨p, v⟩ (about ⟨p, v⟩ log) := by
  rw [lastTurn_about]
  refine lastTurn_of_not fun ev hev => ?_
  obtain ⟨q, m, rfl⟩ := h.submits ev hev
  rfl

/-- **A poll of a connection** takes it one step on: to SOCKET, to CONNECT on the slot of SOCKET, to
the slot as its result. -/
theorem Exchange.call {nb nb' : UInt16} {outs : Multiset Sqe} {val val' : Value} {out : Out}
    {new : List Sqe} {log evs : List Event} {n len : Nat} {addr : SockAddr} {prog : Progress}
    (h : Exchange ⟨p, v⟩ addr prog (about ⟨p, v⟩ log)) (hval : val = prog.value addr)
    (hc : Called ⟨p, v⟩ cur nb outs val out val' cur' nb' new evs)
    (hpolled : Event.polledWhenAnswered ⟨p, v⟩ (log ++ evs)
      (.call v val cur n (out.resp len)) = true) :
    ∃ next, next ≠ .made ∧ val' = next.value addr ∧ prog.outs + (new : Multiset Sqe) = next.outs ∧
      Exchange ⟨p, v⟩ addr next
        (about ⟨p, v⟩ (log ++ evs ++ [.call v val cur n (out.resp len)])) := by
  have hanswer : ∀ {fd : UInt32}, val = .socket (.connecting fd addr) → ∃ e : Cqe,
      (prog = .opened e.result.toUInt32 ∨ ∃ slot, prog = .connected slot) ∧
        (fd = 0 → cur.result = e.result) := by
    rintro fd rfl
    obtain ⟨e, cls, others, hlast, hres⟩ := answer_of_polled hpolled
    rw [hc.lastTurn_eq] at hlast
    exact ⟨e, h.answered hlast, hres⟩
  generalize hlog : about ⟨p, v⟩ log = before at h
  cases h with
  | made =>
    subst hval
    cases hc with
    | @send _ _ op q hs hq =>
      cases hs
      refine ⟨.opening q, nofun, rfl, rfl, ?_⟩
      rw [about_submit_call hq.caller, hlog]
      exact .opening _ _ _ hq.caller hq.op
    | opens h | commit h | resolve h => cases h
  | opening | connecting =>
    obtain ⟨e, ho | ⟨slot, ho⟩, -⟩ := hanswer hval <;> cases ho
  | @opened e _ cls others h hpos =>
    -- SOCKET has completed: CONNECT on the slot it returned
    obtain ⟨e', ho | ⟨slot, ho⟩, hres⟩ := hanswer hval
    · injection ho with hslot
      subst hval
      cases hc with
      | @send _ _ op q hs hq =>
        cases hs
        have hcur : cur.result.toUInt32 = e.result.toUInt32 := by rw [hres rfl, hslot]
        refine ⟨.connecting e.result.toUInt32 q, nofun, ?_, rfl, ?_⟩
        · rw [hcur]
          rfl
        · rw [about_submit_call hq.caller, hlog]
          exact .connecting _ _ _ (.opened cls others h hpos) hq.caller (by rw [hq.op, hcur])
      | opens h | commit h => cases h
      | resolve h =>
        cases h with
        | connected _ _ hne => exact absurd rfl hne
    · cases ho
  | @connected slot e _ cls others h =>
    -- CONNECT has completed
    subst hval
    have hslot := (Exchange.connected cls others h).slot_ne (.inr (.inr rfl))
    cases hc with
    | send hs hq =>
      cases hs with
      | connect => exact absurd rfl hslot
    | opens h | commit h => cases h
    | resolve hr =>
      cases hr with
      | connected =>
        refine ⟨.resolved slot, nofun, rfl, rfl, ?_⟩
        rw [List.append_nil, about_call, hlog]
        exact .resolved _ _ (.connected cls others h)
  | resolved =>
    subst hval
    cases hc with
    | send h | opens h | commit h | resolve h => cases h

/-- What is polled is no connection, or one that has come as far as its events say. -/
theorem Dialing.polled {val val' : Value} {out : Out} {nb' : UInt16} {new : List Sqe}
    {evs : List Event} {n : Nat} {r : Option Resp} (h : Dialing ⟨p, v⟩ V)
    (hv : V.block.locals[v]? = some (some val))
    (hc : Called ⟨p, v⟩ cur V.nb V.outs val out val' cur' nb' new evs)
    (hpolled : Event.polledWhenAnswered ⟨p, v⟩ (V.log ++ evs) (.call v val cur n r) = true) :
    ((∀ ev ∈ about ⟨p, v⟩ V.log, ev.dials = false) ∧ val.dials = false) ∨
      ∃ addr prog, Exchange ⟨p, v⟩ addr prog (about ⟨p, v⟩ V.log) ∧ val = prog.value addr ∧
        V.outs.filter (fun q => q.caller = ⟨p, v⟩) = prog.outs := by
  cases h with
  | other _ hno hval => exact .inl ⟨hno, hval val hv⟩
  | dials _ hex _ houts hval => exact .inr ⟨_, _, hex, hval val hv, houts⟩
  | quiet hno houts =>
    by_cases hdials : val.dials = false
    · exact .inl ⟨fun ev hev => absurd (hno ▸ hev) (List.not_mem_nil), hdials⟩
    · cases val with
      | socket f =>
        cases f with
        | createSocket addr =>
          exact .inr ⟨addr, .made, hno ▸ .made, rfl, Multiset.filter_eq_nil.mpr houts⟩
        | connecting fd addr =>
          -- a connection whose first steps are not this local's
          obtain ⟨e, cls, others, hlast, -⟩ := answer_of_polled hpolled
          rw [hc.lastTurn_eq, hno] at hlast
          cases hlast
        | pending =>
          cases hc with
          | send h | opens h | commit h | resolve h => cases h
      | _ => exact absurd rfl hdials

/-- The local itself is polled. -/
theorem Dialing.call {x : σ} {L : List (Option Value)} {k : Option Resp → σ}
    {val val' : Value} {out : Out} {nb' : UInt16} {new : List Sqe} {evs : List Event} {n : Nat}
    (h : Dialing ⟨p, v⟩ V) (hb : V.block = ⟨some x, L⟩) (hv : L[v]? = some (some val))
    (hc : Called ⟨p, v⟩ cur V.nb V.outs val out val' cur' nb' new evs)
    (hpolled : Event.polledWhenAnswered ⟨p, v⟩ (V.log ++ evs)
    (.call v val cur n (out.resp L.length)) = true) : Dialing ⟨p, v⟩ { V with
      nb := nb', outs := V.outs + (new : Multiset Sqe), phase := .on cur'
      block := ⟨some (k (out.resp L.length)), out.bind (L.set v (some val'))⟩
      log := V.log ++ evs ++ [.call v val cur n (out.resp L.length)] } := by
  obtain ⟨hlt, -⟩ := List.getElem?_eq_some_iff.mp hv
  have hset : v < (L.set v (some val')).length := by rwa [List.length_set]
  have hlen : v < (out.bind (L.set v (some val'))).length :=
    Nat.lt_of_lt_of_le hset (out.length_le_bind _)
  have hself : ∀ val1, (out.bind (L.set v (some val')))[v]? = some (some val1) →
      val1 = val' := fun val1 h1 => by
    rw [out.getElem?_bind hset, List.getElem?_set_self hlt] at h1
    exact (Option.some.inj (Option.some.inj h1)).symm
  obtain ⟨hno, hval⟩ | ⟨addr, prog, hex, hval, houts⟩ := h.polled (by rwa [hb]) hc hpolled
  · exact .other (fun _ _ => hlen) (hc.about_not_dials hno hval) fun val1 h1 =>
      hself val1 h1 ▸ hc.not_dials hval
  · obtain ⟨next, hmade, rfl, hnext, hex'⟩ := hex.call hval hc hpolled
    refine .dials (fun _ _ => hlen) hex' hmade ?_ hself
    -- every SQE of the poll is this connection's
    have hnew : (new : Multiset Sqe).filter (fun q => q.caller = ⟨p, v⟩) = new :=
      Multiset.filter_eq_self.mpr hc.callers
    show (V.outs + _).filter _ = _
    rw [Multiset.filter_add, houts, hnew, hnext]

/-- **Every step of a task**: a connection that is polled when its SQE was answered, and whose
SOCKET succeeds, goes on. -/
theorem Dialing.step (hs : TaskStep code p V V') (hlive : V.phase ≠ .off → V.freed = false)
    (h : Dialing ⟨p, v⟩ V) (hpolled : PolledWhenAnswered ⟨p, v⟩ V'.log)
    (hpos : PositiveSlots (about ⟨p, v⟩ V'.log)) : Dialing ⟨p, v⟩ V' := by
  have hslot : ∀ {e : Cqe} {cls : SyscallNbCompResult} {others : List UInt16},
    .cqe e cls others ∈ V'.log →
      e.sqe.caller = ⟨p, v⟩ → e.sqe.op = .socket → 0 < e.result := fun hmem hme hop =>
    hpos.pos (List.mem_filter.mpr ⟨hmem, decide_eq_true hme⟩) hop
  cases hs with
  | locals hon hb hl =>
    obtain ⟨hlen, hold⟩ := hl.origin
    exact h.edit (hlive (by rw [hon]; exact nofun)) hb hlen hold
  | @spawn cur x child k L L' taken moved hon hb hx hm =>
    have hold : Held (fun u val => L[u]? = some (some val)) L := fun _ _ hu => hu
    exact h.edit (hlive (by rw [hon]; exact nofun)) hb (Nat.le_of_eq hm.length_eq.symm)
      ((hold.moves hm).1.mono fun _ _ hu => .inl hu)
  | @call cur cur' x L u k val val' out nb' new evs hon hb hx hu hc =>
    have hfree := hlive (by rw [hon]; exact nofun)
    by_cases huv : u = v
    · subst huv
      exact h.call hb hu hc (Along.snoc_iff.mp hpolled).2
    · -- another local is polled
      have hcallers := hc.callers
      refine h.congr (about_call_ne (Ne.symm huv) hc.submits_self) ?_
        (fun hl _ _ => ?_) fun hl val1 h1 => ?_
      · show (V.outs + (new : Multiset Sqe)).filter _ = _
        rw [Multiset.filter_add]
        have hnone : (new : Multiset Sqe).filter (fun q => q.caller = ⟨p, v⟩) = 0 := by
          refine Multiset.filter_eq_nil.mpr fun q hq heq => huv ?_
          exact congrArg Caller.var ((hcallers q hq).symm.trans heq)
        rw [hnone]
        exact Multiset.add_zero _
      · rw [hb] at hl
        exact Nat.lt_of_lt_of_le (hl rfl hfree)
          ((List.length_set ..).symm.le.trans (out.length_le_bind _))
      · rw [hb] at hl ⊢
        rw [out.getElem?_bind ((hl rfl hfree).trans_eq (List.length_set ..).symm),
          List.getElem?_set_ne huv] at h1
        exact h1
  | suspend hon hb hx =>
    exact h.congr rfl rfl (fun hl => by rw [hb] at hl; exact hl) fun hl val hval => by
      rw [hb]; exact hval
  | ret hon hb hx =>
    refine h.congr (about_of_not fun ev hev => ?_) rfl (fun _ hcode => nomatch hcode)
      fun _ val hval => nomatch hval
    rw [List.mem_singleton.mp hev]
    rfl
  | leave hover hlive' =>
    have hoff : Dialing ⟨p, v⟩ { V with phase := .off } :=
      h.congr rfl rfl (fun hl => hl) fun _ _ hval => hval
    exact hoff.settle
  | @skip e others ha =>
    have hcqe : .cqe e .expired others ∈ V.log ++ [.cqe e .expired others] :=
      List.mem_append_right _ List.mem_cons_self
    refine Dialing.settle (h.answer ha (fun hme hop => ?_) rfl rfl rfl rfl)
    exact hslot (View.log_settle_mem hcqe) hme hop
  | @accept e cls others ha hcls =>
    refine h.answer ha (hslot (List.mem_append_right _ List.mem_cons_self)) rfl ?_ rfl rfl
    show about ⟨p, v⟩ (V.log ++ ([.cqe e cls others] ++ [.poll (e.context cls)])) = _
    rw [← List.append_assoc]
    refine about_of_not fun ev hev => ?_
    rw [List.mem_singleton.mp hev]
    rfl

/-- A poll of a task that is freed is not in progress. -/
theorem TaskStep.live (hs : TaskStep code p V V') (h : V.phase ≠ .off → V.freed = false) :
    V'.phase ≠ .off → V'.freed = false := by
  have hsettle : ∀ {U : View σ}, U.phase = .off → U.settle.phase ≠ .off →
      U.settle.freed = false := by
    intro U hoff hne
    unfold View.settle at hne
    split at hne <;> exact absurd hoff hne
  cases hs with
  | locals hon | spawn hon | call hon | suspend hon | ret hon =>
    exact fun _ => h (by rw [hon]; exact nofun)
  | leave => exact hsettle rfl
  | skip ha => exact hsettle ha.off
  | accept ha => exact fun _ => ha.live

/-- What is known of the local `v` of every task. -/
theorem Dialing.isLocal (v : Var) : Local code (fun _ => true) fun p V =>
    (V.phase ≠ .off → V.freed = false) ∧
      (PolledWhenAnswered ⟨p, v⟩ V.log → PositiveSlots (about ⟨p, v⟩ V.log) →
        Dialing ⟨p, v⟩ V) where
  main _ _ _ _ :=
    ⟨fun _ => rfl, fun _ _ => .quiet rfl fun _ hq => absurd hq (Multiset.notMem_zero _)⟩
  spawn _ _ _ _ _ _ _ _ :=
    ⟨fun _ => rfl, fun _ _ => .quiet rfl fun _ hq => absurd hq (Multiset.notMem_zero _)⟩
  step hs _ h := by
    refine ⟨hs.live h.1, fun hpolled hpos => ?_⟩
    refine (h.2 (hpolled.of_prefix hs.log) fun r hr => hpos r ?_).step hs h.1 hpolled hpos
    obtain ⟨ev, hev, hres⟩ := List.mem_filterMap.mp hr
    exact List.mem_filterMap.mpr ⟨ev, (hs.log.filter _).subset hev, hres⟩

end Steps

/-! ## Runs -/

/-- **A connection is an exchange in two steps**, in every state of every program: if it is polled
again only when its SQE was answered and SOCKET gave a positive result, it has submitted SOCKET and
then CONNECT on the slot that SOCKET returned, once each, and has resolved with that slot or not
yet. -/
theorem exchange_run {code : Code σ} {s : State σ} (h : Reachable code s) {p : TaskPtr}
    {raw : RawTask σ} (hraw : s.heap[p]? = some raw) {v : Var}
    (hpolled : PolledWhenAnswered ⟨p, v⟩ raw.log) (hpos : PositiveSlots (about ⟨p, v⟩ raw.log))
    {addr : SockAddr} {info : TaskInfo} {n : Nat} {r : Option Resp}
    (hc : .call v (.socket (.createSocket addr)) info n r ∈ raw.log) :
    ∃ prog, Exchange ⟨p, v⟩ addr prog (about ⟨p, v⟩ raw.log) ∧ ∀ q, prog.sqe = some q →
    q ∈ s.outstanding := by
  have hmem : .call v (.socket (.createSocket addr)) info n r ∈ about ⟨p, v⟩ raw.log :=
    List.mem_filter.mpr ⟨hc, decide_eq_true rfl⟩
  cases (((Dialing.isLocal v).reachable h).raw hraw).2 hpolled hpos with
  | quiet hno =>
    have hno : about ⟨p, v⟩ raw.log = [] := hno
    rw [hno] at hmem
    cases hmem
  | other _ hno => cases hno _ hmem
  | @dials addr' prog _ hex _ houts =>
    obtain rfl := hex.addr_eq hmem
    refine ⟨prog, hex, fun q hq => ?_⟩
    have hin : q ∈ prog.outs := by
      rw [Progress.outs, hq]
      exact Multiset.mem_singleton_self q
    rw [← houts] at hin
    have hown : q ∈ (s.outstanding.filter fun q => q.caller.task = p : List Sqe) :=
      Multiset.mem_of_mem_filter hin
    exact List.mem_of_mem_filter hown

/-- The address that a CONNECT carries leads to `addr` while `SocketFuture::poll` runs, and nowhere
when the kernel reads it: no call stands in any state that the kernel sees. -/
theorem connect_addr_gone {code : Code σ} {s : State σ} (h : Reachable code s) (addr : SockAddr) :
    State.sockAddrAt { s with stack := s.stack ++ [addr] } s.stack.length = some addr ∧
      ∀ ptr, s.sockAddrAt ptr = none := by
  refine ⟨List.getElem?_concat_length, fun ptr => ?_⟩
  rw [State.sockAddrAt, h.inv.1.stack]
  rfl

end Onlyio
