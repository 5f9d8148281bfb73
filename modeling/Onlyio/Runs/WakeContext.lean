import Onlyio.Machine.WakeViews
import Onlyio.Runs.Agreement

/-!
# The context of a woken task

A waker is made from the context of a task: its index, a `response_gen` and its number. `from_waker`
reads the number of the new context from `response_gen`, so the woken task runs in its own context
only if the two fields are equal; otherwise its submissions carry a number that is not its own.

* `InContext.step`: what a step leaves of the agreement between a poll's context, the SQEs that it
  has submitted and the number of the task, when the poll does not renumber SQEs it has submitted
  itself.
* **`wake_context_iff`**: the poll of a wake runs in the task's own context, and its SQEs are
  accepted, if and only if the payload has its number in both fields.
* `woken_out_of_context`: a wake after which the dispatcher panics.
-/

namespace Onlyio

open Lib

variable {σ : Type} {code : Code σ}

/-! ## Polls that keep their number -/

/-- The SQEs from `first` on carry the number of the task, and so does the context of its poll. -/
structure InContext (first : Nat) (V : View σ) : Prop where
  on : ∀ cur, V.phase = .on cur → cur.tag.syscallNb = V.nb
  outs : ∀ q ∈ V.outs, first ≤ q.id → q.nb = V.nb

/-- Polling `val` gives no other number to a task with SQEs from `first` on: a commit sets
`MULTIPLE_MASK` in the context only, a stream sets it for SQEs without it too, and the end of a
fan-out moves on to the next number, from rank `0x7FFF` to another one in the context than in the
task. -/
def Steady (first : Nat) (V : View σ) : Value → Prop
  | .commitFn _ _ | .commit (.init _ _ _ _) => isMultiple V.nb = true
  | .acceptStream ⟨_, .init⟩ | .readStream ⟨_, .init⟩ => isMultiple V.nb = true ∨
  ∀ q ∈ V.outs, q.id < first
  | .writeMultiple (.pending n _ _ _ _) => n - 1 = 0 → rank V.nb ≠ 0x7FFF ∧
  ∀ q ∈ V.outs, q.id < first
  | _ => True

section View

variable {first : Nat} {V V' : View σ} {p : TaskPtr}

theorem Called.steady {me : Caller} {cur cur' : TaskInfo} {val val' : Value}
    {out : Out} {nb' : UInt16} {new : List Sqe} {evs : List Event}
    (h : Called me cur V.nb V.outs val out val' cur' nb' new evs) (hcur : cur.tag.syscallNb = V.nb)
    (hs : Steady first V val) : cur'.tag.syscallNb = nb' ∧ (∀ q ∈ new, q.nb = nb') ∧
    (nb' = V.nb ∨ ∀ q ∈ V.outs, q.id < first) := by
  cases h with
  | send h hq =>
    refine ⟨hcur, fun q hmem => ?_, .inl rfl⟩
    rw [List.mem_singleton.mp hmem]
    exact hq.nb.trans hcur
  | opens h hq =>
    refine ⟨congrArg setMultiple hcur, fun q hmem => ?_, ?_⟩
    · rw [List.mem_singleton.mp hmem]
      exact hq.nb.trans (congrArg setMultiple hcur)
    · have hopen : isMultiple V.nb = true ∨ ∀ q ∈ V.outs, q.id < first := by
        cases h <;> exact hs
      exact hopen.imp setMultiple_of_isMultiple id
  | commit h hq =>
    have hm : isMultiple V.nb = true := by
      cases h <;> exact hs
    have hnb : cur.multiple.tag.syscallNb = V.nb :=
      (congrArg setMultiple hcur).trans (setMultiple_of_isMultiple hm)
    refine ⟨hnb, fun q hmem => ?_, .inl rfl⟩
    rw [List.mem_singleton.mp hmem]
    exact hq.nb.trans hnb
  | fanOut h hnew => exact ⟨hcur, fun q hq => (hnew.nb q hq).trans hcur, .inl rfl⟩
  | fanOne => exact ⟨hcur, fun q hq => (nomatch hq), .inl rfl⟩
  | fanLast h hn =>
    obtain ⟨hrank, hout⟩ := hs hn
    refine ⟨?_, fun q hq => (nomatch hq), .inr hout⟩
    show tagAugmente cur.tag.syscallNb = taskAugmente V.nb
    rw [hcur]
    exact (tagAugmente_eq_iff V.nb).mpr hrank
  | resolve => exact ⟨hcur, fun q hq => (nomatch hq), .inl rfl⟩

/-- The poll in progress is steady at its next call. -/
def SteadyNext (code : Code σ) (first : Nat) (V : View σ) : Prop :=
  ∀ cur x L v k val, V.phase = .on cur → V.block = ⟨some x, L⟩ → code x = .poll v k →
    L[v]? = some (some val) → Steady first V val

/-- How often the task was polled. -/
def View.polls (V : View σ) : Nat := V.log.countP Event.isPoll

theorem InContext.off (h : InContext first V) (hnb : V'.nb = V.nb)
    (houts : ∀ q ∈ V'.outs, q ∈ V.outs) (hoff : ∀ cur, V'.phase ≠ .on cur) :
    InContext first V' where
  on cur hon := (hoff cur hon).elim
  outs q hq hid := hnb ▸ h.outs q (houts q hq) hid

theorem InContext.settle (h : InContext first V) (hoff : ∀ cur, V.phase ≠ .on cur) :
    InContext first V.settle := by
  unfold View.settle
  split
  · exact h.off rfl (fun _ hq => hq) hoff
  · exact h

/-- **A step of the task.** -/
theorem InContext.step (h : InContext first V) (hs : TaskStep code p V V')
    (hsteady : SteadyNext code first V) (hpolls : V'.polls = V.polls) : InContext first V' := by
  cases hs with
  | locals hon => exact ⟨h.on, h.outs⟩
  | spawn hon => exact ⟨h.on, h.outs⟩
  | call hon hb hx hv hc =>
    obtain ⟨hcur, hnew, hnb⟩ := hc.steady (h.on _ hon) (hsteady _ _ _ _ _ _ hon hb hx hv)
    refine ⟨fun cur heq => ?_, fun q hq hid => ?_⟩
    · cases heq
      exact hcur
    · rcases Multiset.mem_add.mp hq with hq | hq
      · obtain heq | hlt := hnb
        · exact (h.outs q hq hid).trans heq.symm
        · exact absurd (hlt q hq) (Nat.not_lt.mpr hid)
      · exact hnew q (Multiset.mem_coe.mp hq)
  | suspend | ret => exact h.off rfl (fun _ hq => hq) (fun _ => nofun)
  | leave => exact InContext.settle (h.off rfl (fun _ hq => hq) (fun _ => nofun)) (fun _ => nofun)
  | @skip e others ha =>
    have hoff : ∀ cur, V.phase ≠ .on cur := fun cur hon => by
      rw [ha.off] at hon
      cases hon
    exact InContext.settle (h.off rfl (fun q hq => View.mem_of_answered hq) hoff) hoff
  | accept =>
    simp [View.polls, Event.isPoll] at hpolls

theorem InContext.held (h : InContext first V) (hs : HeldStep V V') : InContext first V' := by
  cases hs with
  | leave => exact h.off rfl (fun _ hq => hq) (fun _ => nofun)
  | skip ha =>
    refine h.off rfl (fun q hq => View.mem_of_answered hq) fun cur hon => ?_
    rw [ha.off] at hon
    cases hon

theorem InContext.born {views : TaskPtr → View σ} (hb : Born code views V) : InContext first V := by
  have hborn : ∀ (i : SlabIdx) (x : σ) (L : List (Option Value)),
      InContext first (View.born i x L) := by
    intro i x L
    refine ⟨fun cur hon => ?_, fun q hq => (nomatch hq)⟩
    cases hon
    rfl
  cases hb with
  | main i hx => exact hborn i _ _
  | spawn i hon hb hx hm => exact hborn i _ _

end View

/-! ## Steps with wakers -/

/-- A step in which `p` is not polled anew, and its poll is steady. -/
structure SteadyStep (code : Code σ) (p : TaskPtr) (first : Nat) (g g' : Scene σ) : Prop where
  step : WakeStep code g g'
  once : (g'.view p).polls = (g.view p).polls
  steady : SteadyNext code first (g.view p)

section Scene

variable {first : Nat} {g g' : Scene σ} {p : TaskPtr}

/-- **A step of the machine with wakers.** -/
theorem InContext.effect (h : InContext first (g.view p)) (hsound : Sound g)
    (he : WakeEffect code g g') (hsteady : SteadyNext code first (g.view p))
    (hpolls : (g'.view p).polls = (g.view p).polls) : InContext first (g'.view p) := by
  obtain heq | hs | ⟨-, hb⟩ | ⟨-, hs⟩ := he.views hsound p
  · rw [heq]
    exact h
  · exact h.step hs hsteady hpolls
  · exact .born hb
  · cases hs with
    | held hs => exact h.held hs
    | woken hw hd hoff hv =>
      -- a wake of `p` polls it anew
      rw [hv] at hpolls
      simp [View.polls, View.woken, Event.isPoll] at hpolls
    | dropped n hoff hv =>
      rw [hv]
      unfold View.settleUnless
      split
      · exact h.settle fun cur hon => by
          rw [hoff] at hon
          cases hon
      · exact h

/-- The steps after a wake, of the woken task and of the others. -/
theorem InContext.run (h : InContext first (g.view p)) (hsound : Sound g)
    (hs : Relation.ReflTransGen (SteadyStep code p first) g g') :
    InContext first (g'.view p) ∧ Sound g' := by
  induction hs with
  | refl => exact ⟨h, hsound⟩
  | tail _ hs ih =>
    obtain ⟨hrep, he⟩ := hs.step.effect ih.2
    exact ⟨ih.1.effect ih.2 he hs.steady hs.once, ih.2.step hs.step⟩

/-- The poll of a wake begins in the context of the task, if that has the number of the task, and
none of its SQEs is submitted yet. -/
theorem InContext.wake {L L' : Wakers} {s s1 : State σ} {info : TaskInfo}
    (hsound : Sound ⟨L, s, []⟩) (hc : s1.core = s.core.wake p info)
    (hnb : info.tag.syscallNb = s.core.stored p) :
    InContext s1.nextSqe (Scene.view ⟨L', s1, [⟨p, .handle false, none⟩]⟩ p) := by
  have hstored : s1.core.stored p = s.core.stored p := by
    rw [hc]
    simp [Core.wake, Core.stored, Core.logAt, Core.bump]
  have hcur : s1.core.current = info := by
    rw [hc]
    rfl
  have hnext : s1.core.nextSqe = s.core.nextSqe := by
    rw [hc]
    rfl
  refine ⟨fun cur hon => ?_, fun q hq hid => ?_⟩
  · have hphase : phaseOf s1.core.current [⟨p, .handle false, none⟩] p =
      .on s1.core.current := phaseOf_top _
    obtain rfl : s1.core.current = cur := Phase.on.inj (hphase.symm.trans hon)
    show s1.core.current.tag.syscallNb = s1.core.stored p
    rw [hcur, hstored, hnb]
  · have hmem : q ∈ s.core.outstanding := by
      have hmem := (mem_own.mp hq).1
      rw [State.config, hc] at hmem
      exact hmem
    have hlt : q.id < s1.nextSqe := Nat.lt_of_lt_of_eq (hsound.inv.ring.lt q hmem) hnext.symm
    exact absurd hlt (Nat.not_lt.mpr hid)

/-- **The context of a wake.** The payload of a waker that waits has the number of its task. Then
the poll of the wake runs in the task's own context, and every SQE that it submits is accepted as
long as the task is not polled anew, whatever happens to the other tasks, if and only if the payload
has the number as its `response_gen` too. -/
theorem wake_context_iff {L : Wakers} {s s1 : State σ} {w : Waker × TaskPtr}
    {rest : List (Waker × TaskPtr)} {q : TaskPtr} {raw : RawTask σ} (h : WakeRun code ⟨L, s, []⟩)
    (hq : L.queued = w :: rest) (hraw : s.heap[w.2]? = some raw)
    (hnb : raw.syscallNb = w.1.payload.syscallNb) (hd : drainPolled s = .ok (some q) s1) :
    q = w.2 ∧
    ((s1.currentTask.tag = ⟨w.1.payload.taskIdx, w.1.payload.syscallNb⟩ ∧
      ∀ g, Relation.ReflTransGen (SteadyStep code w.2 s1.nextSqe)
          ⟨{ L with drained := L.drained ++ [w], queued := rest }, s1,
            [⟨q, .handle false, none⟩]⟩ g →
        ∀ raw', g.state.heap[w.2]? = some raw' →
        ∀ e ∈ g.state.outstanding, e.caller.task = w.2 → s1.nextSqe ≤ e.id →
          evaluateSyscallNb raw'.syscallNb e.payload.syscallNb = .normal ∨
          evaluateSyscallNb raw'.syscallNb e.payload.syscallNb = .multiple) ↔
      w.1.payload.responseGen = w.1.payload.syscallNb) := by
  have hsound := h.sound
  obtain ⟨hlive, hslot⟩ := hsound.slot (w := w) (List.mem_append_right _ (hq ▸ List.mem_cons_self))
  have hrep := hsound.rep
  simp only [Scene.list, hq, List.map_cons] at hrep
  obtain ⟨rfl, -, hc, -⟩ := drainPolled_spec hd hrep hslot hlive
  have hcur : s1.currentTask = .fromWaker w.1 := by
    have : s1.core.current = .fromWaker w.1 := by
      rw [hc]
      rfl
    exact this
  refine ⟨rfl, ?_, fun hgen => ⟨?_, fun g hg raw' hraw' e he hown hid => ?_⟩⟩
  · rintro ⟨htag, -⟩
    rw [hcur] at htag
    exact congrArg Tag.syscallNb htag
  · rw [hcur, ← hgen]
    rfl
  · have hstored : (TaskInfo.fromWaker w.1).tag.syscallNb = s.core.stored w.2 := by
      rw [Core.stored, State.core_cell hraw]
      exact hgen.trans hnb.symm
    obtain ⟨hctx, -⟩ := (InContext.wake hsound hc hstored).run (h.step (.drain hq hd)).sound hg
    have hnb' : raw'.syscallNb = (g.view w.2).nb := by
      show _ = g.state.core.stored w.2
      rw [Core.stored, State.core_cell hraw']
      rfl
    rw [hnb']
    exact (evaluate_accepts_iff _ _).mpr (hctx.outs e (mem_own.mpr ⟨he, hown⟩) hid)

end Scene

/-! ## Two wakes -/

/-- A task that accepts one connection, waits to be woken, and then reads. -/
def wokenReads : Code Nat where
  instr
    | 0 => .make (.accept 3) fun _ => 1
    | 1 => .poll 0 fun r => if r.isSome then 3 else 2
    | 2 => .suspend 1
    | 3 => .suspend 4
    | 4 => .make (.read 7) fun _ => 5
    | 5 => .poll 1 fun _ => 6
    | _ => .suspend 6
  entry x := x == 0

/-- The poll of the completion of the `accept` makes a waker from `payload`, wakes it, and is
over. -/
def untilWoken (payload : UserDataPayload) : List (WakeMove Nat) :=
  [.main 0, .run, .run, .run, .leave, .idle .submit, .idle .consume,
    .idle (.complete 0 5 0), .handle, .waker payload, .awake 0, .run, .run, .leave]

/-- The loop polls the task, which submits a `read`; the kernel answers it. -/
def wakeAndRead : List (WakeMove Nat) :=
  [.drain, .run, .run, .run, .leave, .idle .submit, .idle .consume, .idle (.complete 1 10 0)]

/-- What is seen of a wake. -/
structure AtWake where
  polls : Nat
  queued : List (Waker × TaskPtr)
  numbers : List UInt16
  /-- The task that the loop polls, and the tag that it sets. -/
  polled : Option (TaskPtr × Tag)
  deriving DecidableEq

def Scene.atWake (g : Scene σ) : AtWake :=
  { polls := g.stack.length, queued := g.wakers.queued
    numbers := g.state.heap.map fun raw => raw.syscallNb
    polled := match drainPolled g.state with
      | .ok (some q) s1 => some (q, s1.currentTask.tag)
      | _ => none }

/-- The dispatcher takes the next completion for one that is newer than its task. -/
def Scene.panicsNext (g : Scene σ) : Bool :=
  match handlePolled g.state with
  | .error (.panic .newerSqe) _ => true
  | _ => false

theorem Scene.atWake_spec {g : Scene σ} {ws : List (Waker × TaskPtr)} {nb : UInt16}
    {q : TaskPtr} {tag : Tag} (h : g.atWake = ⟨0, ws, [nb], some (q, tag)⟩) :
    ∃ L s raw s1, g = ⟨L, s, []⟩ ∧ L.queued = ws ∧ s.heap[0]? = some raw ∧ raw.syscallNb = nb ∧
      drainPolled s = .ok (some q) s1 ∧ s1.currentTask.tag = tag := by
  obtain ⟨L, s, st⟩ := g
  simp only [Scene.atWake, AtWake.mk.injEq, List.length_eq_zero_iff] at h
  obtain ⟨rfl, hq, hheap, hd⟩ := h
  obtain ⟨raw, hraw, hnb⟩ := List.map_eq_singleton_iff.mp hheap
  split at hd
  · rename_i q' s1 hdrain
    rw [Option.some.injEq, Prod.mk.injEq] at hd
    obtain ⟨rfl, htag⟩ := hd
    exact ⟨L, s, raw, s1, rfl, hq, by rw [hraw]; rfl, hnb, hdrain, htag⟩
  · cases hd

theorem wake_context_own : ∃ L s s1 w, WakeRun wokenReads ⟨L, s, []⟩ ∧ L.queued = [w] ∧
    drainPolled s = .ok (some w.2) s1 ∧
    s1.currentTask.tag = ⟨w.1.payload.taskIdx, w.1.payload.syscallNb⟩ := by
  have hwake : (freshWakes wokenReads (untilWoken ⟨0, 1, 1⟩)).map Scene.atWake =
      some ⟨0, [(⟨⟨0, 1, 1⟩⟩, 0)], [1], some (0, ⟨0, 1⟩)⟩ := by
    decide +kernel
  obtain ⟨g, hg, hwake⟩ := Option.map_eq_some_iff.mp hwake
  obtain ⟨L, s, raw, s1, rfl, hq, hraw, hnb, hd, -⟩ := Scene.atWake_spec hwake
  have hrun := WakeRun.fresh hg
  refine ⟨L, s, s1, _, hrun, hq, hd, ?_⟩
  exact ((wake_context_iff hrun hq hraw hnb hd).2.mpr rfl).1

/-- The waker is made from the context of the poll, whose `response_gen` is still that of the first
poll. The loop polls the task with this number, its `read` carries it, and the dispatcher panics at
the completion. -/
theorem woken_out_of_context : ∃ L s s1 w raw, WakeRun wokenReads ⟨L, s, []⟩ ∧ L.queued = [w] ∧
    w.1.payload = ⟨0, 0xFFFF, 1⟩ ∧ s.heap[w.2]? = some raw ∧ raw.syscallNb = w.1.payload.syscallNb ∧
    drainPolled s = .ok (some w.2) s1 ∧
    s1.currentTask.tag ≠ ⟨w.1.payload.taskIdx, w.1.payload.syscallNb⟩ ∧
    ∃ g s', Relation.ReflTransGen (WakeStep wokenReads) ⟨L, s, []⟩ g ∧
      handlePolled g.state = .error (.panic .newerSqe) s' := by
  have hwake : ((freshWakes wokenReads (untilWoken ⟨0, 0xFFFF, 1⟩)).bind fun g =>
      (wakeScript wokenReads wakeAndRead g).map fun g' => (g.atWake, g'.panicsNext)) =
      some (⟨0, [(⟨⟨0, 0xFFFF, 1⟩⟩, 0)], [1], some (0, ⟨0, 0xFFFF⟩)⟩, true) := by
    decide +kernel
  obtain ⟨g, hg, hwake⟩ := Option.bind_eq_some_iff.mp hwake
  obtain ⟨g', hg', hwake⟩ := Option.map_eq_some_iff.mp hwake
  rw [Prod.mk.injEq] at hwake
  obtain ⟨hwake, hpanic⟩ := hwake
  obtain ⟨L, s, raw, s1, rfl, hq, hraw, hnb, hd, htag⟩ := Scene.atWake_spec hwake
  refine ⟨L, s, s1, _, raw, WakeRun.fresh hg, hq, rfl, hraw, hnb, hd, ?_, g', ?_⟩
  · rw [htag]
    decide
  · unfold Scene.panicsNext at hpanic
    split at hpanic
    · rename_i s' herr
      exact ⟨s', wakeScript_steps hg', herr⟩
    · cases hpanic

end Onlyio
