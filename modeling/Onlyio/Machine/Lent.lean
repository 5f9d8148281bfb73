import Onlyio.Machine.Isolate
import Onlyio.Machine.Wakes

/-!
# Where a buffer comes from

The abstract machine does not say from which descriptor a buffer that a poll hands out was read. The
code does: `checkout_read` copies the descriptor of the future or stream that is polled.

* `wp_pollValue_lends`: a buffer comes from the value that is polled.
* `wp_stepCode_lends`: where the block of a task polls a local, so does the buffer it gets.
* **`WakeStep.lent`**: of every step of a run with wakers.
-/

namespace Onlyio

open Lib

variable {σ : Type} {code : Code σ} {s : State σ} {me : Caller} {p : TaskPtr} {l : List TaskInfo}

/-! ## Polling a value -/

/-- What a poll hands back is no buffer, or one of the value that was polled. -/
def LendsOut (val : Value) (r : Out × Value) : Prop := ∀ b, r.1 = .buffer b → val.Lends b

theorem wp_checkoutRead_lends {bufId : UInt16} (fdIdx bytes : UInt32)
    {Q : RwBuffer → State σ → Prop} {E : Fault → State σ → Prop} (hE : ∀ e, E e s)
    (hQ : ∀ b : RwBuffer, b.bufIdx = bufId.toUInt32 → b.fdIdx = fdIdx → Q b s) :
    wp (liftExcept (s.buffer.checkoutRead bufId.toUInt32 fdIdx bytes) : Rt σ RwBuffer) Q E s := by
  unfold BufPool.checkoutRead
  split
  · exact hQ _ rfl rfl
  · exact hE _

theorem LendsOut.pending (val val' : Value) : LendsOut val (.pending, val') := by
  intro b hb
  cases hb

theorem LendsOut.ready (val val' : Value) (r : Resp) : LendsOut val (.ready r, val') := by
  intro b hb
  cases hb

theorem wp_poll_read_lends (f : ReadFuture) :
    wp (pollValue me (.read f)) (fun r _ => LendsOut (.read f) r) (fun _ _ => True) s := by
  cases f with
  | init fd =>
    simp only [pollValue, ReadFuture.poll, wp_bind, wp_pure]
    exact wp_of_forall (fun _ _ => .pending _ _) fun _ _ => trivial
  | pending fd =>
    simp only [pollValue, ReadFuture.poll, wp_bind, wp_currentResult, wp_currentCqeFlags, wp_ite]
    refine ⟨fun _ => ?_, fun _ => ?_⟩
    · cases bufferSelect s.core.current.flags with
      | none => exact .ready _ _ _
      | some bufId =>
        simp only [wp_bind, wp_pure]
        exact wp_of_forall (fun _ _ => .ready _ _ _) fun _ _ => trivial
    · cases bufferSelect s.core.current.flags with
      | none => trivial
      | some bufId =>
        simp only [wp_bind, wp_get]
        refine wp_checkoutRead_lends fd _ (fun _ => trivial) fun b hidx hfd b' hb => ?_
        cases hb
        refine ⟨?_, .inl (by rw [hfd])⟩
        rw [hidx, UInt16.toUInt16_toUInt32]

theorem wp_poll_readStream_lends (st : ReadStream) :
    wp (pollValue me (.readStream st)) (fun r _ => LendsOut (.readStream st) r)
    (fun _ _ => True) s := by
  obtain ⟨fd, state⟩ := st
  cases state with
  | init =>
    simp only [pollValue, ReadStream.pollNext, wp_bind, wp_pure]
    exact wp_of_forall (fun _ _ => .pending _ _) fun _ _ => trivial
  | running =>
    simp only [pollValue, ReadStream.pollNext, wp_bind, wp_currentResult, wp_ite, wp_pure,
      wp_currentCqeFlags]
    refine ⟨fun _ => .ready _ _ _, fun _ => ?_⟩
    cases bufferSelect s.core.current.flags with
    | none => trivial
    | some bufId =>
      simp only [wp_bind, wp_get]
      refine wp_checkoutRead_lends fd _ (fun _ => trivial) fun b hidx hfd b' hb => ?_
      cases hb
      refine ⟨?_, .inr ⟨.running, by rw [hfd]⟩⟩
      rw [hidx, UInt16.toUInt16_toUInt32]
  | done =>
    simp only [pollValue, ReadStream.pollNext, wp_bind, wp_pure]
    exact .ready _ _ _

/-- **A buffer comes from the value that is polled.** -/
theorem wp_pollValue_lends (me : Caller) (val : Value) :
    wp (pollValue me val) (fun r _ => LendsOut val r) (fun _ _ => True) s := by
  -- every other future and stream is ready with a plain response
  have hplain : ∀ {α : Type} {x : Rt σ α} {f : α → Rt σ (Out × Value)},
      (∀ a s, wp (f a) (fun r _ => LendsOut val r) (fun _ _ => True) s) →
      wp (x >>= f) (fun r _ => LendsOut val r) (fun _ _ => True) s := by
    intro α x f hf
    rw [wp_bind]
    exact wp_of_forall (fun a s1 => hf a s1) fun _ _ => trivial
  cases val with
  | accept f =>
    refine hplain fun r s1 => ?_
    obtain ⟨(_ | (_ | _)), f'⟩ := r
    · exact .pending _ _
    · exact .ready _ _ _
    · exact .ready _ _ _
  | read f => exact wp_poll_read_lends f
  | write f =>
    refine hplain fun r s1 => ?_
    obtain ⟨(_ | _), f'⟩ := r
    · exact .pending _ _
    · exact .ready _ _ _
  | commitFn b len =>
    refine hplain fun r s1 => ?_
    obtain ⟨(_ | _), f'⟩ := r
    · exact .pending _ _
    · exact .ready _ _ _
  | commit f =>
    refine hplain fun r s1 => ?_
    obtain ⟨(_ | _), f'⟩ := r
    · exact .pending _ _
    · exact .ready _ _ _
  | socket f =>
    refine hplain fun r s1 => ?_
    obtain ⟨(_ | _), f'⟩ := r
    · exact .pending _ _
    · exact .ready _ _ _
  | writeMultiple f =>
    refine hplain fun r s1 => ?_
    obtain ⟨(_ | _), f'⟩ := r
    · exact .pending _ _
    · simp only [wp_bind, wp_pure]
      exact wp_of_forall (fun _ _ => .ready _ _ _) fun _ _ => trivial
  | acceptStream st =>
    refine hplain fun r s1 => ?_
    obtain ⟨(_ | (_ | _)), f'⟩ := r
    · exact .pending _ _
    · exact .ready _ _ _
    · exact .ready _ _ _
  | readStream st => exact wp_poll_readStream_lends st
  | rwBuffer | wBuffer | returned => trivial

/-! ## The block of a task -/

/-- Where a block polls a local, a buffer that it gets comes from there. -/
theorem wp_stepCode_lends {x : σ} {L : List (Option Value)} {v : Var} {k : Option Resp → σ}
    (h : Running s p l) (hf : s.fut p = ⟨some x, L⟩) (hx : code x = .poll v k) :
    wp (stepCode code p) (fun _ s' => ∀ val b, L[v]? = some (some val) →
      (s'.fut p).locals[L.length]? = some (some (.rwBuffer b)) → val.Lends b)
        (fun _ _ => True) s := by
  simp only [stepCode, wp_bind]
  refine wp_derefLocals h.live fun raw hraw => ?_
  simp only [hraw, hf, hx, wp_bind]
  refine wp_mono (wp_pollLocal_and v h fun val => wp_pollValue_lends ⟨p, v⟩ val)
    (fun r s1 hpost => ?_) fun _ _ _ => trivial
  obtain ⟨val, val', out, c', hval, hlends, hpoll, -, hc1, hf1, -⟩ := hpost
  rw [hf] at hval hf1
  obtain ⟨kk, new, evs, -, heff⟩ := hpoll.effect
  have hlive1 : (s1.core.cell p).freed = false := by
    rw [hc1, (Effect.logAt c' p (e := .call v val s.core.current _ r) rfl).freed, heff.freed]
    exact h.live
  refine wp_mono (wp_goto (k r) hlive1 _) (fun ctl s2 hpost => ?_) fun _ _ he => he
  obtain ⟨-, h2⟩ := hpost
  rw [hf1, Function.update_self] at h2
  intro val0 b hval0 hb
  rw [hval, Option.some.injEq, Option.some.injEq] at hval0
  subst hval0
  rw [h2.fut_self] at hb
  cases out with
  | buffer b' =>
    have hlen : L.length = (L.set v (some val')).length := by rw [List.length_set]
    rw [hlen] at hb
    have hb' : some (some (Value.rwBuffer b')) = some (some (.rwBuffer b)) :=
      List.getElem?_concat_length.symm.trans hb
    simp only [Option.some.injEq, Value.rwBuffer.injEq] at hb'
    exact hlends b (by rw [hb'])
  | pending | ready =>
    rw [List.getElem?_eq_none (by simp [Out.bind])] at hb
    cases hb

/-! ## Steps -/

section Steps

variable {x : σ} {L : List (Option Value)} {v : Var} {k : Option Resp → σ}

theorem dropFut_no_local (c : Core) (t : TaskPtr) (n : Nat) {fut : TaskPtr → AsyncBlock σ}
    (hf : fut p = ⟨some x, L⟩) : (dropFut c t n fut p).locals[L.length]? = none := by
  have hsame : (fut p).locals[L.length]? = none := by
    rw [hf]
    exact List.getElem?_eq_none (Nat.le_refl _)
  unfold dropFut
  split
  · by_cases hp : p = t
    · subst hp
      rw [Function.update_self]
      exact List.getElem?_nil
    · rw [Function.update_of_ne hp]
      exact hsame
  · exact hsame

/-- A block that is about to poll gets no new local before it does. -/
theorem Step.no_local {g g' : Config σ} (hs : Step code g g') (hlt : p < g.core.spawned)
    (hf : g.fut p = ⟨some x, L⟩) (hx : code x = .poll v k) :
    (∃ role st, g.stack = ⟨p, role, none⟩ :: st ∧ g'.stack = g.stack) ∨
      (g'.fut p).locals[L.length]? = none := by
  have hsame : ∀ {b : AsyncBlock σ}, b = g.fut p → b.locals[L.length]? = none := by
    rintro b rfl
    rw [hf]
    exact List.getElem?_eq_none (Nat.le_refl _)
  -- the instruction of the block is a poll, and no other
  have hpoll : ∀ {y : σ} {L' : List (Option Value)}, g.fut p = ⟨some y, L'⟩ →
      code y = .poll v k := by
    intro y L' hy
    rw [hf, AsyncBlock.mk.injEq, Option.some.injEq] at hy
    rw [← hy.1, hx]
  cases hs with
  | @locals c fut st t role y z L1 L2 hf1 h =>
    by_cases hp : p = t
    · subst hp
      rw [hpoll hf1] at h
      cases h
    · exact .inr (hsame (Function.update_of_ne hp _ _))
  | @poll c c' fut st t role y L1 v1 k1 val val' out hf1 hx1 hv h =>
    by_cases hp : p = t
    · subst hp
      exact .inl ⟨role, st, rfl, rfl⟩
    · exact .inr (hsame (Function.update_of_ne hp _ _))
  | @suspend c fut st t role y k1 L1 hf1 hx1 =>
    by_cases hp : p = t
    · subst hp
      rw [hpoll hf1] at hx1
      cases hx1
    · exact .inr (hsame (Function.update_of_ne hp _ _))
  | @ret c fut st t role y L1 hf1 hx1 =>
    by_cases hp : p = t
    · subst hp
      rw [hpoll hf1] at hx1
      cases hx1
    · exact .inr (hsame (Function.update_of_ne hp _ _))
  | @spawn c fut st t role y child k1 L1 L2 taken moved i hf1 hx1 hm hi =>
    by_cases hp : p = t
    · subst hp
      rw [hpoll hf1] at hx1
      cases hx1
    · refine .inr (hsame ?_)
      show Function.update (Function.update fut t _) c.spawned _ p = fut p
      rw [Function.update_of_ne (Nat.ne_of_lt hlt), Function.update_of_ne hp]
  | main => exact .inr (hsame (Function.update_of_ne (Nat.ne_of_lt hlt) _ _))
  | spawnEnd | skip | handleEnd => exact .inr (dropFut_no_local _ _ _ hf)
  | handle | submit | consume | complete | free => exact .inr (hsame rfl)

/-- The block of a step that gives it a new local is on top of the stack, and no waker moves. -/
theorem WakeEffect.no_local {g g' : Scene σ} (he : WakeEffect code g g')
    (hlt : p < g.state.core.spawned) (hf : g.state.fut p = ⟨some x, L⟩) (hx : code x = .poll v k) :
    (g'.wakers = g.wakers ∧ ∃ role st, g.stack = ⟨p, role, none⟩ :: st ∧ g'.stack = g.stack) ∨
      (g'.state.fut p).locals[L.length]? = none := by
  have hsame : ∀ {s' : State σ}, s'.fut = g.state.fut → (s'.fut p).locals[L.length]? = none := by
    intro s' heq
    rw [heq, hf]
    exact List.getElem?_eq_none (Nat.le_refl _)
  cases he with
  | step hs =>
    obtain h | h := hs.no_local hlt hf hx
    · exact .inl ⟨rfl, h⟩
    · exact .inr h
  | wake hq hc hfut => exact .inr (hsame hfut)
  | waker hslot hlive hc hfut => exact .inr (hsame hfut)
  | awake hw hc hfut => exact .inr (hsame hfut)
  | drop hw hc hfut =>
    refine .inr ?_
    rw [hfut]
    exact dropFut_no_local _ _ _ hf

/-- **The buffers that a step hands out come from the values it polls.** -/
theorem WakeStep.lent {g g' : Scene σ} (hs : WakeStep code g g') (h : Sound g)
    (hlt : p < g.state.core.spawned) :
    Lent code ((g.state.config g.stack).view p) ((g'.state.config g'.stack).view p) := by
  intro x L v k val b hf hx hv hb
  have hf : g.state.fut p = ⟨some x, L⟩ := hf
  have hb : (g'.state.fut p).locals[L.length]? = some (some (.rwBuffer b)) := hb
  obtain ⟨hW, role, st, hst, heq⟩ | hnone := (hs.effect h).2.no_local hlt hf hx
  · have hheld := congrArg (fun W : Wakers => W.held.length) hW
    cases hs with
    | idle | main | handle | skip | drain => cases hst
    | again hc =>
      cases hst
      exact wp_ok (wp_stepCode_lends (h.inv.running h.rep) hf hx) hc val b hv hb
    | fin hc =>
      cases hst
      cases heq
    | child hc hsp =>
      have hlen := congrArg List.length heq
      simp at hlen
    | spawned | handled => cases hst
    | waker hp hw => simp at hheld
    | awake hw ha | drop hw ha =>
      simp only [List.length_erase_of_mem hw] at hheld
      have hpos := List.length_pos_of_mem hw
      omega
  · rw [hnone] at hb
    cases hb

end Steps

end Onlyio
