import Onlyio.Model.Waker
import Onlyio.Machine.Within
import Onlyio.Machine.View

/-!
# Runs with wakers

A thread whose tasks are held by wakers too, one instruction or one call after another: `WakeStep`
is an instruction of the block that runs, the beginning or the end of a poll, a move of the loop or
of the kernel while no poll is in progress, and at any time a waker is made, woken or dropped.
`Wakers` is the ledger: the wakers that are held, those whose context waits in `RUNTIME_WAKE_LIST`,
and those that the loop has taken.

* `WakeStep.effect`: what a step can do to the machine.
* `Sound.step`: a waker is one more reference to its task, which keeps its slot, whether it is held,
  waits or was taken.
* **`WakeRun.sound`**: in every state of every run.
-/

namespace Onlyio

open Lib

variable {σ : Type} {code : Code σ}

/-! ## The steps -/

/-- The wakers of a run, each with the task that it owns a reference to. -/
structure Wakers where
  held : List (Waker × TaskPtr)
  /-- Taken by the wake-list loop. -/
  drained : List (Waker × TaskPtr)
  /-- Woken, and not yet taken. -/
  queued : List (Waker × TaskPtr)

/-- No waker. -/
def Wakers.empty : Wakers := ⟨[], [], []⟩

/-- Every waker. -/
def Wakers.all (L : Wakers) : List (Waker × TaskPtr) := L.held ++ L.drained ++ L.queued

/-- How many of these wakers are of `p`. -/
def wakersOf (p : TaskPtr) (ws : List (Waker × TaskPtr)) : Nat := ws.countP fun w => w.2 = p

/-- The references to `p` that wakers were made with and that no drop has given back. -/
def Wakers.refs (L : Wakers) (p : TaskPtr) : Nat := wakersOf p L.all

/-- The commands that poll nothing. -/
def Cmd.idle : Cmd σ → Bool
  | .submit | .consume | .complete _ _ _ | .free => true
  | .spawn _ _ | .handle _ | .drain _ => false

/-- A thread in the middle of a run: the wakers, the state, and the polls in progress. -/
structure Scene (σ : Type) where
  wakers : Wakers
  state : State σ
  stack : List Frame

/-- One step of a thread with wakers, or of the kernel. -/
inductive WakeStep (code : Code σ) : Scene σ → Scene σ → Prop where
  | idle {L : Wakers} {s s' : State σ} (cmd : Cmd σ) (hcmd : cmd.idle = true)
      (h : act code cmd s = .ok () s') : WakeStep code ⟨L, s, []⟩ ⟨L, s', []⟩
  | main {L : Wakers} {s s' : State σ} {x : σ} {p : TaskPtr} {old : TaskInfo}
      (hx : code.entry x = true) (h : spawnPolled ⟨some x, []⟩ s = .ok (p, old) s') :
      WakeStep code ⟨L, s, []⟩ ⟨L, s', [⟨p, .spawn old, none⟩]⟩
  | handle {L : Wakers} {s s' : State σ} {e : Cqe} {p : TaskPtr}
      (h : handlePolled s = .ok (e, p, true) s') :
      WakeStep code ⟨L, s, []⟩ ⟨L, s', [⟨p, .handle (!more e.flags), none⟩]⟩
  | skip {L : Wakers} {s s1 s' : State σ} {e : Cqe} {p : TaskPtr}
      (h : handlePolled s = .ok (e, p, false) s1) (h1 : handleEnd e p s1 = .ok () s') :
      WakeStep code ⟨L, s, []⟩ ⟨L, s', []⟩
  /-- The clone of the wake-list loop is held as that of a completion with `F_MORE` is. -/
  | drain {L : Wakers} {s s' : State σ} {w : Waker × TaskPtr}
      {rest : List (Waker × TaskPtr)} {p : TaskPtr} (hq : L.queued = w :: rest)
      (h : drainPolled s = .ok (some p) s') : WakeStep code ⟨L, s, []⟩
        ⟨{ L with drained := L.drained ++ [w], queued := rest }, s', [⟨p, .handle false, none⟩]⟩
  | again {L : Wakers} {s s' : State σ} {p : TaskPtr} {role : Role} {st : List Frame}
      (h : stepCode code p s = .ok .again s') :
      WakeStep code ⟨L, s, ⟨p, role, none⟩ :: st⟩ ⟨L, s', ⟨p, role, none⟩ :: st⟩
  | fin {L : Wakers} {s s' : State σ} {p : TaskPtr} {role : Role} {st : List Frame} {r : Poll Unit}
      (h : stepCode code p s = .ok (.fin r) s') :
      WakeStep code ⟨L, s, ⟨p, role, none⟩ :: st⟩ ⟨L, s', ⟨p, role, some r⟩ :: st⟩
  | child {L : Wakers} {s s1 s' : State σ} {p q : TaskPtr} {role : Role} {st : List Frame}
      {b : AsyncBlock σ} {old : TaskInfo} (hb : stepCode code p s = .ok (.spawn b) s1)
      (h : spawnPolled b s1 = .ok (q, old) s') :
      WakeStep code ⟨L, s, ⟨p, role, none⟩ :: st⟩
      ⟨L, s', ⟨q, .spawn old, none⟩ :: ⟨p, role, none⟩ :: st⟩
  | spawned {L : Wakers} {s s' : State σ} {t : TaskPtr} {old : TaskInfo} {r : Poll Unit}
      {st : List Frame} (h : spawnEnd t old s = .ok () s') :
      WakeStep code ⟨L, s, ⟨t, .spawn old, some r⟩ :: st⟩ ⟨L, s', st⟩
  | handled {L : Wakers} {s s' : State σ} {p : TaskPtr} {final : Bool} {r : Poll Unit}
      (h : (do
        if final then release p
        release p : Rt σ Unit) s = .ok () s') :
      WakeStep code ⟨L, s, [⟨p, .handle final, some r⟩]⟩ ⟨L, s', []⟩
  | waker {L : Wakers} {s s' : State σ} {st : List Frame} {payload : UserDataPayload}
      {p : TaskPtr} {w : Waker} (hp : s.tasks.index payload.taskIdx = .ok p)
      (h : Waker.new payload s = .ok w s') :
      WakeStep code ⟨L, s, st⟩ ⟨{ L with held := L.held ++ [(w, p)] }, s', st⟩
  | awake {L : Wakers} {s s' : State σ} {st : List Frame} {w : Waker × TaskPtr} (hw : w ∈ L.held)
      (h : w.1.awake s = .ok () s') :
      WakeStep code ⟨L, s, st⟩
      ⟨{ L with held := L.held.erase w, queued := L.queued ++ [w] }, s', st⟩
  | drop {L : Wakers} {s s' : State σ} {st : List Frame} {w : Waker × TaskPtr} (hw : w ∈ L.held)
      (h : w.1.drop s = .ok () s') :
      WakeStep code ⟨L, s, st⟩ ⟨{ L with held := L.held.erase w }, s', st⟩

/-- What a thread with wakers reaches. -/
inductive WakeRun (code : Code σ) : Scene σ → Prop where
  | new {base : Nat} {s : State σ} (h : State.new base = .ok s) : WakeRun code ⟨.empty, s, []⟩
  | step {g g' : Scene σ} (h : WakeRun code g) (hs : WakeStep code g g') : WakeRun code g'

/-! ## The ledger -/

section Ledger

variable {p : TaskPtr} {L : Wakers} {w : Waker × TaskPtr} {ws : List (Waker × TaskPtr)}

theorem wakersOf_append (p : TaskPtr) (ws vs : List (Waker × TaskPtr)) :
    wakersOf p (ws ++ vs) = wakersOf p ws + wakersOf p vs := List.countP_append

theorem wakersOf_singleton (p : TaskPtr) (w : Waker × TaskPtr) :
    wakersOf p [w] = if w.2 = p then 1 else 0 := by
  simp [wakersOf]

theorem wakersOf_erase (p : TaskPtr) (hw : w ∈ ws) :
    wakersOf p ws = wakersOf p (ws.erase w) + if w.2 = p then 1 else 0 := by
  have hperm : wakersOf p ws = wakersOf p (w :: ws.erase w) := (List.perm_cons_erase hw).countP_eq _
  rw [hperm, wakersOf, List.countP_cons]
  simp [wakersOf]

theorem wakersOf_eq_zero_iff : wakersOf p ws = 0 ↔ ∀ w ∈ ws, w.2 ≠ p := by
  simp [wakersOf]

theorem Wakers.refs_eq (L : Wakers) (p : TaskPtr) :
    L.refs p = wakersOf p L.held + wakersOf p L.drained + wakersOf p L.queued := by
  rw [Wakers.refs, Wakers.all, wakersOf_append, wakersOf_append]

theorem Wakers.refs_pos (hw : w ∈ L.all) :
    0 < L.refs w.2 := List.countP_pos_iff.mpr ⟨w, hw, by simp⟩

end Ledger

/-! ## How a poll begins and ends -/

section Begin

variable {s s' : State σ} {p : TaskPtr} {W : TaskPtr → Nat} {wl : List TaskInfo}

theorem spawnPolled_spec {b : AsyncBlock σ} {old : TaskInfo} (h : spawnPolled b s = .ok (p, old) s')
    (hr : s.Rep wl) :
    ∃ i, s.core.slots i = none ∧ p = s.core.spawned ∧ old = s.core.current ∧ s'.Rep wl ∧
      s'.core = s.core.enter i b.locals ∧ s'.fut = Function.update s.fut s.core.spawned b := by
  have hcalls : CallsAt (fun f => spawn f b) s p s' := .of_spawnPolled h
  obtain ⟨i, hi, hp, hspec⟩ := hcalls.wp_probe (P := fun s' => ∃ i, s.core.slots i = none ∧
      p = s.core.spawned ∧ s'.Rep wl ∧ s'.core = s.core.enter i b.locals ∧
      s'.fut = Function.update s.fut s.core.spawned b)
    (wp_spawn_of_poll b hr (fun e s1 he h => absurd h he.not_dangling) fun i s2 hi hrep2 hc2 hf2 =>
      wp_probe_bind fun hp => ⟨i, hi, hp.symm, hrep2, hc2, hf2⟩)
  have hold : wp (spawnPolled b) (fun r _ => r.2 = s.core.current) (fun _ _ => True) s := by
    simp only [spawnPolled, wp_bind]
    refine wp_mono (wp_spawnBegin b hr) (fun r s1 h1 => ?_) fun _ _ _ => trivial
    rw [h1.1]
    exact wp_of_forall (fun _ _ => wp_of_forall (fun _ _ => rfl) fun _ _ => trivial)
      fun _ _ => trivial
  have hcur := wp_ok hold h
  exact ⟨i, hi, hp, hcur, hspec⟩

/-- The dispatch hands its completion on. -/
theorem wp_dispatchPolled (e : Cqe) (p : TaskPtr) (info : TaskInfo) (cls : SyscallNbCompResult) :
    wp (dispatchPolled e p info cls) (fun r _ => r.1 = e) (fun _ _ => True) s := by
  cases cls with
  | error => trivial
  | expired => trivial
  | normal =>
    simp only [dispatchPolled, wp_ite, wp_throw, implies_true, true_and, wp_bind, wp_pure]
    exact fun _ => wp_of_forall (fun _ _ => wp_of_forall (fun _ _ => wp_of_forall (fun _ _ =>
      wp_of_forall (fun _ _ => trivial) fun _ _ => trivial) fun _ _ => trivial) fun _ _ => trivial)
      fun _ _ => trivial
  | multiple =>
    simp only [dispatchPolled, wp_bind, wp_modify, wp_get, wp_pure]
    exact wp_of_forall (fun _ _ => trivial) fun _ _ => trivial

/-- The completion that is handled is the oldest one. -/
theorem handlePolled_head {e : Cqe} {polled : Bool} (h : handlePolled s = .ok (e, p, polled) s') :
    ∃ cq, s.core.cq = e :: cq := by
  have hq : wp handlePolled (fun r _ => ∃ cq, s.core.cq = r.1 :: cq) (fun _ _ => True) s := by
    simp only [handlePolled, wp_bind]
    refine wp_mono wp_takeCqe (fun e s1 ⟨cq, hcq, _⟩ => ?_) fun _ _ _ => trivial
    have hrest : ∀ r : Cqe × TaskPtr × Bool, r.1 = e → ∃ cq, s.core.cq = r.1 :: cq :=
      fun r hr => ⟨cq, hr ▸ hcq⟩
    exact wp_of_forall
        (fun _ _ => wp_of_forall (fun _ _ => wp_of_forall (fun _ _ => wp_of_forall (fun _ _ =>
      wp_of_forall (fun _ _ => wp_mono (wp_dispatchPolled e _ _ _) (fun r _ hr => hrest r hr)
        fun _ _ _ => trivial) fun _ _ => trivial) fun _ _ => trivial) fun _ _ => trivial)
      fun _ _ => trivial) fun _ _ => trivial
  have hhead := wp_ok hq h
  exact hhead

theorem handlePolled_spec {e : Cqe} (h : handlePolled s = .ok (e, p, true) s')
    (hinv : Inv s.core [] W) (hr : s.Rep wl) :
    s'.Rep wl ∧ Step code (s.config []) (s'.config [⟨p, .handle (!more e.flags), none⟩]) := by
  obtain ⟨cq, hcq⟩ := handlePolled_head h
  have hcalls : CallsAt (fun f => do handleCqeEntry f (← takeCqe)) s p s' :=
    .of_first handle_eq h rfl
  refine hcalls.wp_probe (P := fun s' => s'.Rep wl ∧ Step code (s.config []) (s'.config _))
    (wp_handle_of_poll hinv hr (fun e s1 he h => absurd h he.not_dangling)
      (fun _ _ _ h => nomatch h) (fun e' cq' p' cls s2 hcq' hslot hcls hacc hrep2 hc2 hf2 => ?_)
        fun _ _ _ _ _ _ _ _ _ _ => trivial)
  obtain ⟨rfl, rfl⟩ := List.cons.inj (hcq.symm.trans hcq')
  refine wp_probe_bind fun hp => ⟨hrep2, ?_⟩
  subst hp hcls
  simp only [State.config, hc2, hf2]
  exact .handle hcq hslot hacc

theorem skip_spec {e : Cqe} {s1 : State σ} (h : handlePolled s = .ok (e, p, false) s1)
    (h1 : handleEnd e p s1 = .ok () s') (hinv : Inv s.core [] W) (hr : s.Rep wl) :
    s'.Rep wl ∧ Step code (s.config []) (s'.config []) := by
  -- with this `poll_fn` a completion that is not skipped fails
  have hrun : (do handleCqeEntry (fun _ => throw .fuel) (← takeCqe) : Rt σ Unit) s = .ok () s' := by
    rw [handle_eq]
    simp only [bind, EStateM.bind, h]
    exact h1
  have hq : wp (do handleCqeEntry (fun _ => throw .fuel) (← takeCqe) : Rt σ Unit)
      (fun _ s' => s'.Rep wl ∧ Step code (s.config []) (s'.config [])) (fun _ _ => True) s := by
    refine wp_handle_of_poll hinv hr (fun _ _ _ => trivial) (fun _ _ _ => trivial)
      (fun e cq p cls s2 _ _ _ _ _ _ _ => ?_) fun e cq p s2 hcq hslot hcls hrep2 hc2 hf2 =>
        ⟨hrep2, ?_⟩
    · simp only [wp_bind, wp_throw]
    · simp only [State.config, hc2, hf2]
      exact .skip hcq hslot hcls
  have hskip := wp_ok hq hrun
  exact hskip

end Begin

/-! ## References from outside -/

section Refs

variable {c : Core} {st : List Frame} {p : TaskPtr} {W W' : TaskPtr → Nat}

/-- One more reference from outside the polls. -/
theorem Inv.gain (h : Inv c st W) (hp : (c.cell p).freed = false)
    (hW : ∀ q, W' q = W q + if p = q then 1 else 0) : Inv (c.bump p 1) st W' := by
  have he := Effect.bump c p 1
  have hH : Function.update (fun q => refsOn st q + W q) p (refsOn st p + W p + 1) =
      fun q => refsOn st q + W' q := by
    funext q
    by_cases hq : q = p
    · subst hq
      rw [Function.update_self, hW, if_pos rfl, Nat.add_assoc]
    · rw [Function.update_of_ne hq, hW, if_neg (Ne.symm hq), Nat.add_zero]
  have hrefs := h.refs.bump hp 1
  rw [hH] at hrefs
  exact ⟨h.slab.effect he hp, hrefs, h.ring.congr rfl rfl rfl rfl rfl,
    h.ctx.congr (fun q _ => he.slabIdx_eq q) fun f hf => h.live_of_mem hf, h.drops.effect he⟩

/-- A reference from outside the polls is given back. -/
theorem Inv.lose (h : Inv c st W) (hp : (c.cell p).freed = false)
    (hW : ∀ q, W q = W' q + if p = q then 1 else 0) : Inv (c.release p 1) st W' := by
  have hWp := hW p
  rw [if_pos rfl] at hWp
  have hH : Function.update (fun q => refsOn st q + W q) p (refsOn st p + W p - 1) =
      fun q => refsOn st q + W' q := by
    funext q
    by_cases hq : q = p
    · subst hq
      rw [Function.update_self, hWp]
      omega
    · rw [Function.update_of_ne hq, hW, if_neg (Ne.symm hq), Nat.add_zero]
  have hrefs := h.refs.release h.ring hp (n := 1) (by omega)
  rw [hH] at hrefs
  refine ⟨h.slab.release hp 1, hrefs, h.ring.release p 1, ?_, h.drops.release hp 1⟩
  rw [release_current]
  exact h.ctx.release (fun f hf => h.live_of_mem hf) 1

/-- A task is polled with the context `info` of the wake list. -/
def Core.wake (c : Core) (p : TaskPtr) (info : TaskInfo) : Core :=
  (Core.bump { c with current := info } p 1).logAt p (.poll info)

theorem Inv.wake {info : TaskInfo} (h : Inv c [] W) (hslot : c.slots info.tag.taskIdx = some p)
    (hp : (c.cell p).freed = false) : Inv (c.wake p info) [⟨p, .handle false, none⟩] W := by
  have hcur : Inv { c with current := info } [] W := by
    have ht := Touch.current c info
    exact ⟨h.slab.touch ht, h.refs.touch ht, h.ring.touch ht, trivial, h.drops.touch ht⟩
  -- the clone is first a reference from outside, then one of the poll
  have hgain : Inv (Core.bump { c with current := info } p 1) [] fun q =>
      W q + if p = q then 1 else 0 :=
    hcur.gain hp fun _ => rfl
  have hrefs : RefInv (Core.bump { c with current := info } p 1)
      fun q => refsOn [⟨p, .handle false, none⟩] q + W q := by
    refine Eq.mp (congrArg _ (funext fun q => ?_)) hgain.refs
    simp only [refsOn, Frame.refs, Bool.false_eq_true, if_false]
    omega
  have hlog : Touch (Core.bump { c with current := info } p 1) (c.wake p info) :=
    Touch.logAt _ (hcur.slab.lt_spawned hp) (by simp)
  refine ⟨hgain.slab.touch hlog, hrefs.touch hlog, hgain.ring.touch hlog,
    ⟨?_, rfl⟩, hgain.drops.touch hlog⟩
  rw [hlog.slabIdx, (Effect.bump { c with current := info } p 1).slabIdx_eq]
  exact h.slab.slot _ p hslot

end Refs

/-! ## The calls on a waker -/

section Calls

variable {s s' : State σ} {p : TaskPtr} {wl : List TaskInfo}

/-- A borrow of the runtime only adds a panic to a drop. -/
theorem returns_dropValue (v : Value) :
    Returns (borrowedDropValue v : Rt σ Unit) (dropValue v) := by
  have hbuffer : ∀ b : RwBuffer,
    Returns (if b.committed then pure () else throw (.panic .borrowed) : Rt σ Unit)
      (rwBufferDrop b) := by
    intro b s a s' h
    unfold rwBufferDrop
    by_cases hc : b.committed = true
    · rw [if_pos hc] at h ⊢
      exact h
    · rw [if_neg hc] at h
      cases h
  cases v with
  | rwBuffer b => exact hbuffer b
  | commitFn b len => exact hbuffer b
  | _ => exact .refl _

theorem returns_dropLocals (L : List (Option Value)) :
    Returns (borrowedDropLocals L : Rt σ Unit) (dropLocals L) := by
  induction L with
  | nil => exact .refl _
  | cons v rest ih =>
    refine ih.bind fun _ => ?_
    cases v with
    | none => exact .refl _
    | some v => exact returns_dropValue v

theorem returns_release (p : TaskPtr) : Returns (borrowedRelease p : Rt σ Unit) (release p) := by
  rw [borrowedRelease_eq, release_eq]
  refine .bind (.refl _) fun raw => ?_
  by_cases h0 : raw.refCounter = 0
  · rw [if_pos h0, if_pos h0]
    exact .refl _
  · rw [if_neg h0, if_neg h0]
    refine .bind (.refl _) fun _ => ?_
    by_cases h1 : raw.refCounter - 1 = 0
    · rw [if_pos h1, if_pos h1]
      refine .bind ?_ fun _ => .refl _
      exact .bind (.refl _) fun raw => .bind (.refl _) fun _ =>
        .bind (returns_dropLocals _) fun _ => .refl _
    · rw [if_neg h1, if_neg h1]
      exact .refl _

/-- A counter that goes up is that of a live task. -/
theorem live_of_incRc {a : Unit} (h : incRc p s = .ok a s') : (s.core.cell p).freed = false := by
  have hq : wp (incRc p : Rt σ Unit) (fun _ _ => (s.core.cell p).freed = false)
      (fun _ _ => True) s := by
    simp only [incRc, bumpRc, wp_bind]
    refine wp_deref_live trivial fun raw hraw hf => ?_
    rw [State.core_cell hraw]
    exact wp_of_forall (fun _ _ => hf) fun _ _ => trivial
  have hlive := wp_ok hq h
  exact hlive

/-- A waker is made: one more reference to the task, which is live. -/
theorem wakerNew_spec {payload : UserDataPayload} {w : Waker}
    (hp : s.tasks.index payload.taskIdx = .ok p) (h : Waker.new payload s = .ok w s')
    (hr : s.Rep wl) : w = ⟨payload⟩ ∧ (s.core.cell p).freed = false ∧ s'.Rep wl ∧
    s'.core = s.core.bump p 1 ∧ s'.fut = s.fut := by
  have hidx : tasksIndex payload.taskIdx s = .ok p s := by
    show liftExcept (s.tasks.index payload.taskIdx) s = _
    rw [hp]
    rfl
  have hinc : incRc p s = .ok () s' ∧ w = ⟨payload⟩ := by
    obtain ⟨q, s1, hq, h⟩ := bind_ok h
    rw [hidx] at hq
    cases hq
    obtain ⟨_, s2, hrc, h⟩ := bind_ok h
    cases h
    exact ⟨hrc, rfl⟩
  have hlive := live_of_incRc hinc.1
  have hb := (wp_ok (wp_incRc hlive) hinc.1).1
  exact ⟨hinc.2, hlive, hb.rep hr, hb.core, hb.fut⟩

theorem drainPolled_spec {info : TaskInfo} {q : TaskPtr} (h : drainPolled s = .ok (some q) s')
    (hr : s.Rep (info :: wl)) (hslot : s.core.slots info.tag.taskIdx = some p)
    (hlive : (s.core.cell p).freed = false) :
    q = p ∧ s'.Rep wl ∧ s'.core = s.core.wake p info ∧ s'.fut = s.fut := by
  have hq : wp (drainPolled : Rt σ (Option TaskPtr)) (fun r s' => r = some p ∧ s'.Rep wl ∧
      s'.core = s.core.wake p info ∧ s'.fut = s.fut) (fun _ _ => True) s := by
    simp only [drainPolled, wp_bind, wp_get, hr.wakeList, wp_modify]
    have hr1 : ({ s with runtimeWakeList := wl, currentTask := info } : State σ).Rep wl :=
      ⟨hr.sized, hr.pos, hr.entries, rfl, hr.stack⟩
    have hc1 : ({ s with runtimeWakeList := wl, currentTask := info } : State σ).core =
      { s.core with current := info } := rfl
    have hf1 : ({ s with runtimeWakeList := wl, currentTask := info } : State σ).fut = s.fut := rfl
    generalize ({ s with runtimeWakeList := wl, currentTask := info } : State σ) =
      s1 at hr1 hc1 hf1 ⊢
    refine wp_tasksIndex (p := p) (by rw [hc1]; exact hslot) hr1 ?_
    simp only [taskClone, wp_bind, wp_pure]
    refine wp_mono (wp_incRc (p := p) (by rw [hc1]; exact hlive))
      (fun _ s2 hpost => ?_) fun _ _ _ => trivial
    obtain ⟨h2, _⟩ := hpost
    have hlive2 : (s2.core.cell p).freed = false := by
      rw [h2.core, (Effect.bump _ p 1).freed, hc1]
      exact hlive
    obtain ⟨raw, hraw, -⟩ := State.exists_raw hlive2
    have h3 := becomes_logEvent hraw (.poll s2.currentTask)
    have hcur : s2.currentTask = info := by
      have : s2.core.current = info := by rw [h2.core, hc1]; rfl
      exact this
    simp only [logEvent, wp_writeRaw]
    refine ⟨trivial, h3.rep (h2.rep hr1), ?_, h3.fut.trans (h2.fut.trans hf1)⟩
    rw [h3.core, h2.core, hc1, hcur]
    rfl
  obtain ⟨hp, hspec⟩ := wp_ok hq h
  exact ⟨Option.some.inj hp, hspec⟩

end Calls

/-! ## The accounts with wakers -/

theorem logAt_slabIdx (c : Core) (t : TaskPtr) (e : Event) (q : TaskPtr) :
    ((c.logAt t e).cell q).slabIdx = (c.cell q).slabIdx := by
  by_cases ht : q = t
  · subst ht
    rw [Core.logAt, Core.modifyCell_self]
  · rw [logAt_cell_ne c ht]

/-- A task that is live keeps its index. -/
theorem Step.slabIdx {g g' : Config σ} (hs : Step code g g') (hslab : SlabInv g.core) {q : TaskPtr}
    (hq : (g.core.cell q).freed = false) : (g'.core.cell q).slabIdx = (g.core.cell q).slabIdx := by
  have henter : ∀ (c : Core) (i : SlabIdx) (L : List (Option Value)), SlabInv c →
    (c.cell q).freed = false →
      ((c.enter i L).cell q).slabIdx = (c.cell q).slabIdx := by
    intro c i L hslab hq
    have hne : q ≠ c.spawned := (hslab.lt_spawned hq).ne
    exact congrArg Cell.slabIdx (Function.update_of_ne hne _ _)
  cases hs with
  | locals | suspend | submit | consume | complete | free => rfl
  | poll hf hx hv h =>
    obtain ⟨k, new, evs, -, he⟩ := h.effect
    exact (logAt_slabIdx _ _ _ q).trans (he.slabIdx_eq q)
  | ret => exact logAt_slabIdx _ _ _ q
  | spawn | main => exact henter _ _ _ hslab hq
  | spawnEnd | handleEnd => exact release_slabIdx _ q
  | skip => exact (release_slabIdx _ q).trans (logAt_slabIdx _ _ _ q)
  | @handle c fut e cq p =>
    by_cases hp : q = p
    · subst hp
      have hcell := congrArg Cell.slabIdx
        (accept_cell (c.take e cq) e (evaluateSyscallNb (c.stored q) e.sqe.payload.syscallNb) q)
      exact hcell
    · exact congrArg Cell.slabIdx (accept_cell_ne (c.take e cq) e _ hp)

/-- What a step does to the machine. -/
inductive WakeEffect (code : Code σ) : Scene σ → Scene σ → Prop where
  | step {L : Wakers} {s s' : State σ} {st st' : List Frame}
      (hs : Step code (s.config st) (s'.config st')) : WakeEffect code ⟨L, s, st⟩ ⟨L, s', st'⟩
  | wake {L : Wakers} {s s' : State σ} {w : Waker × TaskPtr} {rest : List (Waker × TaskPtr)}
      (hq : L.queued = w :: rest) (hc : s'.core = s.core.wake w.2 (.fromWaker w.1))
      (hf : s'.fut = s.fut) : WakeEffect code ⟨L, s, []⟩
        ⟨{ L with drained := L.drained ++ [w], queued := rest }, s', [⟨w.2, .handle false, none⟩]⟩
  | waker {L : Wakers} {s s' : State σ} {st : List Frame} {payload : UserDataPayload} {p : TaskPtr}
      (hslot : s.core.slots payload.taskIdx = some p) (hlive : (s.core.cell p).freed = false)
      (hc : s'.core = s.core.bump p 1) (hf : s'.fut = s.fut) :
      WakeEffect code ⟨L, s, st⟩ ⟨{ L with held := L.held ++ [(⟨payload⟩, p)] }, s', st⟩
  | awake {L : Wakers} {s s' : State σ} {st : List Frame} {w : Waker × TaskPtr} (hw : w ∈ L.held)
      (hc : s'.core = s.core) (hf : s'.fut = s.fut) :
      WakeEffect code ⟨L, s, st⟩
      ⟨{ L with held := L.held.erase w, queued := L.queued ++ [w] }, s', st⟩
  | drop {L : Wakers} {s s' : State σ} {st : List Frame} {w : Waker × TaskPtr} (hw : w ∈ L.held)
      (hc : s'.core = s.core.release w.2 1) (hf : s'.fut = dropFut s.core w.2 1 s.fut) :
      WakeEffect code ⟨L, s, st⟩ ⟨{ L with held := L.held.erase w }, s', st⟩

/-- The contexts of the wakers that wait. -/
def Scene.list (g : Scene σ) : List TaskInfo := g.wakers.queued.map fun w => .fromWaker w.1

/-- Every waker is a reference to its task, which its payload names. -/
structure Sound (g : Scene σ) : Prop where
  rep : g.state.Rep g.list
  inv : Inv g.state.core g.stack g.wakers.refs
  nodup : (g.stack.map Frame.task).Nodup
  named : ∀ w ∈ g.wakers.all, (g.state.core.cell w.2).slabIdx = some w.1.payload.taskIdx

section Effect

variable {L : Wakers} {s s' : State σ} {st st' : List Frame} {g g' : Scene σ}
  {p : TaskPtr} {role : Role}

/-- The slot that a waker names holds its task, which is live. -/
theorem Sound.slot (h : Sound g) {w : Waker × TaskPtr} (hw : w ∈ g.wakers.all) :
    (g.state.core.cell w.2).freed = false ∧ g.state.core.slots w.1.payload.taskIdx = some w.2 := by
  have hlive : (g.state.core.cell w.2).freed = false :=
    h.inv.refs.live_of_pos (Nat.add_pos_right _ (Wakers.refs_pos hw))
  obtain ⟨i, hi, hs⟩ := h.inv.slab.home _ hlive
  have hn := h.named w hw
  rw [hi, Option.some.injEq] at hn
  exact ⟨hlive, hn ▸ hs⟩

/-- A call that makes one step of the machine. -/
theorem effect_of_wp {x : Rt σ Unit} {l : List TaskInfo} {E : Fault → State σ → Prop}
    (hw : wp x (fun _ s' => s'.Rep l ∧ Step code (s.config st) (s'.config st')) E s)
    (hx : x s = .ok () s') : s'.Rep l ∧ WakeEffect code ⟨L, s, st⟩ ⟨L, s', st'⟩ := by
  have hs := wp_ok hw hx
  exact ⟨hs.1, .step hs.2⟩

theorem effect_idle (h : Sound ⟨L, s, []⟩) {cmd : Cmd σ} (hcmd : cmd.idle = true)
    (ha : act code cmd s = .ok () s') :
    s'.Rep (Scene.list ⟨L, s', []⟩) ∧ WakeEffect code ⟨L, s, []⟩ ⟨L, s', []⟩ := by
  cases cmd with
  | submit => exact effect_of_wp (wp_submitAndWait h.rep) ha
  | consume => exact effect_of_wp (wp_kernelConsume h.rep) ha
  | complete id result flags => exact effect_of_wp (wp_kernelComplete id result flags h.rep) ha
  | free => exact effect_of_wp (wp_freeUnsedSlabSlot h.inv h.rep fun _ _ => True) ha
  | spawn | handle | drain => cases hcmd

/-- A task is spawned from outside any poll. -/
theorem effect_main (h : Sound ⟨L, s, []⟩) {x : σ} {old : TaskInfo} (hx : code.entry x = true)
    (hs : spawnPolled ⟨some x, []⟩ s = .ok (p, old) s') :
    s'.Rep (Scene.list ⟨L, s, []⟩) ∧
    WakeEffect code ⟨L, s, []⟩ ⟨L, s', [⟨p, .spawn old, none⟩]⟩ := by
  obtain ⟨i, hi, rfl, rfl, hrep, hc, hf⟩ := spawnPolled_spec hs h.rep
  refine ⟨hrep, .step ?_⟩
  simp only [State.config, hc, hf]
  exact .main hx hi

/-- The block that runs spawns another one. -/
theorem effect_child (h : Sound ⟨L, s, ⟨p, role, none⟩ :: st⟩) {s1 : State σ}
    {b : AsyncBlock σ} {q : TaskPtr} {old : TaskInfo} (hb : stepCode code p s = .ok (.spawn b) s1)
    (hs : spawnPolled b s1 = .ok (q, old) s') :
    s'.Rep (Scene.list ⟨L, s, st⟩) ∧ WakeEffect code ⟨L, s, ⟨p, role, none⟩ :: st⟩
      ⟨L, s', ⟨q, .spawn old, none⟩ :: ⟨p, role, none⟩ :: st⟩ := by
  have hsp := wp_ok (wp_stepCode role st (h.inv.running h.rep)) hb
  obtain ⟨b', hrw⟩ := Spawning.rewrites hsp
  obtain ⟨i, hi, rfl, rfl, hrep, hc, hf⟩ := spawnPolled_spec hs (hrw.rep h.rep)
  refine ⟨hrep, .step ?_⟩
  simp only [State.config, hc, hf]
  exact Spawning.enters hsp i hi

/-- The wake-list loop takes its oldest entry. -/
theorem effect_drain (h : Sound ⟨L, s, []⟩) {w : Waker × TaskPtr} {rest : List (Waker × TaskPtr)}
    (hq : L.queued = w :: rest) (hd : drainPolled s = .ok (some p) s') :
    s'.Rep (rest.map fun w => .fromWaker w.1) ∧ WakeEffect code ⟨L, s, []⟩
      ⟨{ L with drained := L.drained ++ [w], queued := rest }, s', [⟨p, .handle false, none⟩]⟩ := by
  have hw : w ∈ L.all := List.mem_append_right _ (hq ▸ List.mem_cons_self)
  obtain ⟨hlive, hslot⟩ := h.slot hw
  have hrep := h.rep
  simp only [Scene.list, hq, List.map_cons] at hrep
  obtain ⟨rfl, hrep', hc, hf⟩ := drainPolled_spec hd hrep hslot hlive
  exact ⟨hrep', .wake hq hc hf⟩

theorem effect_awake (h : Sound ⟨L, s, st⟩) {w : Waker × TaskPtr} (hw : w ∈ L.held)
    (ha : w.1.awake s = .ok () s') :
    s'.Rep ((L.queued ++ [w]).map fun w => .fromWaker w.1) ∧ WakeEffect code ⟨L, s, st⟩
      ⟨{ L with held := L.held.erase w, queued := L.queued ++ [w] }, s', st⟩ := by
  cases ha
  have hlist : s.runtimeWakeList = L.queued.map fun w => .fromWaker w.1 := h.rep.wakeList
  refine ⟨⟨h.rep.sized, h.rep.pos, h.rep.entries, ?_, h.rep.stack⟩, .awake hw rfl rfl⟩
  simp [hlist]

theorem effect_drop (h : Sound ⟨L, s, st⟩) {w : Waker × TaskPtr} (hw : w ∈ L.held)
    (hd : w.1.drop s = .ok () s') :
    s'.Rep (Scene.list ⟨L, s, st⟩) ∧
    WakeEffect code ⟨L, s, st⟩ ⟨{ L with held := L.held.erase w }, s', st⟩ := by
  obtain ⟨hlive, hslot⟩ := h.slot (w := w) (List.mem_append_left _ (List.mem_append_left _ hw))
  have hrel : release w.2 s = .ok () s' := by
    refine returns_release w.2 s () s' ?_
    have hidx : tasksIndex w.1.payload.taskIdx s = .ok w.2 s := by
      show liftExcept (s.tasks.index w.1.payload.taskIdx) s = _
      rw [Slab.index_of_get? hslot h.rep.sized]
      rfl
    simp only [Waker.drop, bind, EStateM.bind, hidx] at hd
    exact hd
  have hr := wp_ok (wp_release hlive (h.inv.refs.live _ hlive).1) hrel
  exact ⟨hr.rep h.rep, .drop hw hr.core hr.fut⟩

/-- **What a step can do.** -/
theorem WakeStep.effect (hs : WakeStep code g g') (h : Sound g) :
    g'.state.Rep g'.list ∧ WakeEffect code g g' := by
  cases hs with
  | idle cmd hcmd ha => exact effect_idle h hcmd ha
  | main hx hs => exact effect_main h hx hs
  | handle hh =>
    have hst : _ ∧ Step code _ _ := handlePolled_spec hh h.inv h.rep
    exact ⟨hst.1, .step hst.2⟩
  | skip hh h1 =>
    have hst : _ ∧ Step code _ _ := skip_spec hh h1 h.inv h.rep
    exact ⟨hst.1, .step hst.2⟩
  | drain hq hd => exact effect_drain h hq hd
  | again hc | fin hc =>
    obtain ⟨hrep, hst⟩ := wp_ok (wp_stepCode _ _ (h.inv.running h.rep)) hc
    exact ⟨hrep, .step hst⟩
  | child hb hs => exact effect_child h hb hs
  | spawned he => exact effect_of_wp (wp_spawnEnd code h.inv h.rep) he
  | handled he => exact effect_of_wp (wp_handleEnd code h.inv h.rep) he
  | waker hp hw =>
    obtain ⟨rfl, hlive, hrep, hc, hf⟩ := wakerNew_spec hp hw h.rep
    exact ⟨hrep, .waker (Slab.get?_of_index hp) hlive hc hf⟩
  | awake hw ha => exact effect_awake h hw ha
  | drop hw hd => exact effect_drop h hw hd

/-- A waker that is kept, one that is new. -/
theorem WakeEffect.mem_all (he : WakeEffect code g g') {w : Waker × TaskPtr}
    (hw : w ∈ g'.wakers.all) : w ∈ g.wakers.all ∨
      (g.state.core.cell w.2).freed = false ∧
        g.state.core.slots w.1.payload.taskIdx = some w.2 := by
  cases he with
  | step => exact .inl hw
  | wake hq =>
    simp only [Wakers.all, hq, List.mem_append, List.mem_cons, List.not_mem_nil, or_false] at hw ⊢
    tauto
  | waker hslot hlive =>
    simp only [Wakers.all, List.mem_append, List.mem_singleton] at hw ⊢
    rcases hw with ((hw | rfl) | hw) | hw
    · exact .inl (.inl (.inl hw))
    · exact .inr ⟨hlive, hslot⟩
    · exact .inl (.inl (.inr hw))
    · exact .inl (.inr hw)
  | awake hv =>
    simp only [Wakers.all, List.mem_append, List.mem_singleton] at hw ⊢
    rcases hw with (hw | hw) | hw | rfl
    · exact .inl (.inl (.inl (List.mem_of_mem_erase hw)))
    · exact .inl (.inl (.inr hw))
    · exact .inl (.inr hw)
    · exact .inl (.inl (.inl hv))
  | drop hv =>
    simp only [Wakers.all, List.mem_append] at hw ⊢
    rcases hw with (hw | hw) | hw
    · exact .inl (.inl (.inl (List.mem_of_mem_erase hw)))
    · exact .inl (.inl (.inr hw))
    · exact .inl (.inr hw)

/-- A live task keeps its index. -/
theorem WakeEffect.slabIdx (he : WakeEffect code g g') (hslab : SlabInv g.state.core)
    (hlive : (g.state.core.cell p).freed = false) :
    (g'.state.core.cell p).slabIdx = (g.state.core.cell p).slabIdx := by
  cases he with
  | step hs => exact Step.slabIdx hs hslab hlive
  | wake hq hc =>
    rw [hc]
    exact (logAt_slabIdx _ _ _ p).trans ((Effect.bump _ _ 1).slabIdx_eq p)
  | waker hslot hl hc =>
    rw [hc]
    exact (Effect.bump _ _ 1).slabIdx_eq p
  | awake hw hc => rw [hc]
  | drop hw hc =>
    rw [hc]
    exact release_slabIdx 1 p

/-- The counters with the wakers. -/
theorem WakeEffect.inv (he : WakeEffect code g g') (h : Sound g) :
    Inv g'.state.core g'.stack g'.wakers.refs := by
  cases he with
  | step hs => exact Inv.step hs h.inv
  | @wake L s s' w rest hq hc hf =>
    obtain ⟨hlive, hslot⟩ := h.slot (w := w) (List.mem_append_right _ (hq ▸ List.mem_cons_self))
    have hrefs : Wakers.refs { L with drained := L.drained ++ [w], queued := rest } = L.refs := by
      funext q
      simp [Wakers.refs, Wakers.all, hq]
    rw [hrefs, hc]
    exact h.inv.wake hslot hlive
  | waker hslot hlive hc =>
    rw [hc]
    refine h.inv.gain hlive fun q => ?_
    simp only [Wakers.refs_eq, wakersOf_append, wakersOf_singleton]
    omega
  | @awake L s s' st w hw hc =>
    have hrefs : Wakers.refs
        { L with held := L.held.erase w, queued := L.queued ++ [w] } = L.refs := by
      funext q
      have herase := wakersOf_erase q hw
      simp only [Wakers.refs_eq, wakersOf_append, wakersOf_singleton]
      omega
    rw [hrefs, hc]
    exact h.inv
  | @drop L s s' st w hw hc =>
    obtain ⟨hlive, -⟩ := h.slot (w := w) (List.mem_append_left _ (List.mem_append_left _ hw))
    rw [hc]
    refine h.inv.lose hlive fun q => ?_
    have herase := wakersOf_erase q hw
    simp only [Wakers.refs_eq]
    omega

theorem WakeEffect.nodup (he : WakeEffect code g g') (h : Sound g) :
    (g'.stack.map Frame.task).Nodup := by
  cases he with
  | step hs => exact Step.nodup hs h.inv h.nodup
  | wake => exact List.nodup_singleton _
  | waker | awake | drop => exact h.nodup

/-- **Every step keeps the accounts.** -/
theorem Sound.step (h : Sound g) (hs : WakeStep code g g') : Sound g' := by
  obtain ⟨hrep, he⟩ := hs.effect h
  refine ⟨hrep, he.inv h, he.nodup h, fun w hw => ?_⟩
  obtain ⟨hlive, hidx⟩ : (g.state.core.cell w.2).freed = false ∧
      (g.state.core.cell w.2).slabIdx = some w.1.payload.taskIdx := by
    obtain hw | ⟨hlive, hslot⟩ := he.mem_all hw
    · exact ⟨(h.slot hw).1, h.named w hw⟩
    · exact ⟨hlive, h.inv.slab.slot _ _ hslot⟩
  rw [he.slabIdx h.inv.slab hlive, hidx]

end Effect

theorem Sound.new {base : Nat} {s : State σ} (h : State.new base = .ok s) : Sound ⟨.empty, s, []⟩ :=
  ⟨(State.new_spec h).1, inv_new h, List.nodup_nil, fun _ hw => nomatch hw⟩

/-- **The accounts balance in every state of every run.** -/
theorem WakeRun.sound {g : Scene σ} (h : WakeRun code g) : Sound g := by
  induction h with
  | new h => exact .new h
  | step _ hs ih => exact ih.step hs

end Onlyio
