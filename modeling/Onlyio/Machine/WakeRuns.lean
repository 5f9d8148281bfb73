import Onlyio.Machine.Wakes

/-!
# The functions of the model, with wakers

* `StepClosed.act`: a property that the steps keep is kept by a command.
* **`WakeRun.act`**: what a command does, the wake-list loop included, is a run of `WakeStep`s.
* `WakeRun.fresh`: a run with wakers that evaluates, as a list of moves.
-/

namespace Onlyio

open Lib

variable {σ : Type} {code : Code σ}

/-! ## The functions of the model make such runs -/

section Model

variable {L : Wakers}

/-- The steps that leave the wakers as they are keep `P`. -/
def StepClosed (code : Code σ) (P : Scene σ → Prop) : Prop :=
  ∀ ⦃g g' : Scene σ⦄, P g → WakeStep code g g' → g'.wakers = g.wakers → P g'

section StepClosed

variable {P : Scene σ → Prop}

/-- A poll with fuel `n` is a sequence of steps. -/
theorem StepClosed.pollFn (hP : StepClosed code P) {n : Nat} :
    ∀ {p : TaskPtr} {role : Role} {st : List Frame} {s s' : State σ} {r : Poll Unit},
    P ⟨L, s, ⟨p, role, none⟩ :: st⟩ → Onlyio.pollFn code n p s = .ok r s' →
      P ⟨L, s', ⟨p, role, some r⟩ :: st⟩ := by
  induction n with
  | zero => exact fun _ hp => nomatch hp
  | succ n ih =>
    intro p role st s s' r h hp
    obtain ⟨ctl, s1, hc, hp⟩ := bind_ok hp
    cases ctl with
    | fin r' =>
      cases hp
      exact hP h (.fin hc) rfl
    | again => exact ih (hP h (.again hc) rfl) hp
    | spawn b =>
      obtain ⟨_, s2, hsp, hp⟩ := bind_ok hp
      rw [spawn_eq] at hsp
      obtain ⟨⟨q, old⟩, s3, hbegin, hsp⟩ := bind_ok hsp
      obtain ⟨r', s4, hpoll, hend⟩ := bind_ok hsp
      exact ih (hP (ih (hP h (.child hc hbegin) rfl) hpoll) (.spawned hend) rfl) hp

/-- `spawn` from outside any poll. -/
theorem StepClosed.spawn (hP : StepClosed code P) {n : Nat} {s s' : State σ} {x : σ}
    (h : P ⟨L, s, []⟩) (hx : code.entry x = true)
    (hs : Onlyio.spawn (Onlyio.pollFn code n) ⟨some x, []⟩ s = .ok () s') : P ⟨L, s', []⟩ := by
  rw [spawn_eq] at hs
  obtain ⟨⟨q, old⟩, s1, hbegin, hs⟩ := bind_ok hs
  obtain ⟨r, s2, hpoll, hend⟩ := bind_ok hs
  exact hP (hP.pollFn (hP h (.main hx hbegin) rfl) hpoll) (.spawned hend) rfl

/-- The handling of a completion. -/
theorem StepClosed.handle (hP : StepClosed code P) {n : Nat} {s s' : State σ} (h : P ⟨L, s, []⟩)
    (hs : (do handleCqeEntry (Onlyio.pollFn code n) (← takeCqe) : Rt σ Unit) s = .ok () s') :
    P ⟨L, s', []⟩ := by
  rw [handle_eq] at hs
  obtain ⟨⟨e, p, polled⟩, s1, hbegin, hs⟩ := bind_ok hs
  cases polled with
  | false => exact hP h (.skip hbegin hs) rfl
  | true =>
    obtain ⟨r, s2, hpoll, hend⟩ := bind_ok hs
    exact hP (hP.pollFn (hP h (.handle hbegin) rfl) hpoll) (.handled hend) rfl

/-- A command, where no context waits in the wake list. -/
theorem StepClosed.act (hP : StepClosed code P) {s s' : State σ} {cmd : Cmd σ} (h : P ⟨L, s, []⟩)
    (hlist : s.runtimeWakeList = []) (ha : Onlyio.act code cmd s = .ok () s') : P ⟨L, s', []⟩ := by
  cases cmd with
  | spawn n x =>
    simp only [Onlyio.act] at ha
    split at ha
    · exact hP.spawn h ‹_› ha
    · cases ha
  | handle n => exact hP.handle h ha
  | drain n =>
    cases n with
    | zero => cases ha
    | succ n =>
      obtain ⟨s1, s2, hget, ha⟩ := bind_ok ha
      cases hget
      rw [hlist] at ha
      cases ha
      exact h
  | submit | consume | complete | free => exact hP h (.idle _ rfl ha) rfl

end StepClosed

theorem WakeRun.closed : StepClosed code (WakeRun code) := fun _ _ h hs _ => h.step hs

/-- A turn of the loop ends it exactly when the list is empty. -/
theorem drainPolled_turn {s s' : State σ} {o : Option TaskPtr} (h : drainPolled s = .ok o s') :
    o = none ∧ s.runtimeWakeList = [] ∧ s' = s ∨ (∃ p, o = some p) ∧ s.runtimeWakeList ≠ [] := by
  obtain ⟨s1, s2, hget, h⟩ := bind_ok h
  cases hget
  cases hl : s.runtimeWakeList with
  | nil =>
    rw [hl] at h
    cases h
    exact .inl ⟨rfl, rfl, rfl⟩
  | cons info rest =>
    rw [hl] at h
    obtain ⟨_, _, -, h⟩ := bind_ok h
    obtain ⟨_, _, -, h⟩ := bind_ok h
    obtain ⟨p, _, -, h⟩ := bind_ok h
    obtain ⟨_, _, -, h⟩ := bind_ok h
    obtain ⟨_, _, -, h⟩ := bind_ok h
    cases h
    exact .inr ⟨⟨p, rfl⟩, List.cons_ne_nil _ _⟩

/-- The wake-list loop: it takes the entries of the list one after another. -/
theorem WakeRun.drainWakeList {m : Nat} :
    ∀ {n : Nat} {L : Wakers} {s s' : State σ}, WakeRun code ⟨L, s, []⟩ →
    Onlyio.drainWakeList (Onlyio.pollFn code m) n s = .ok () s' →
    WakeRun code ⟨⟨L.held, L.drained ++ L.queued, []⟩, s', []⟩ := by
  intro n
  induction n with
  | zero => exact fun _ hd => nomatch hd
  | succ n ih =>
    intro L s s' h hd
    have hlist : s.runtimeWakeList = L.queued.map fun w => .fromWaker w.1 := h.sound.rep.wakeList
    rw [drain_eq] at hd
    obtain ⟨o, s1, hbegin, hnext⟩ := bind_ok hd
    obtain ⟨rfl, hnil, rfl⟩ | ⟨⟨p, rfl⟩, hne⟩ := drainPolled_turn hbegin
    · rw [hnil] at hlist
      have hq : L.queued = [] := List.map_eq_nil_iff.mp hlist.symm
      cases hnext
      rw [hq, List.append_nil]
      obtain ⟨held, drained, queued⟩ := L
      cases hq
      exact h
    · cases hq : L.queued with
      | nil =>
        rw [hq] at hlist
        exact (hne hlist).elim
      | cons w rest =>
        obtain ⟨r, s2, hpoll, hnext⟩ := bind_ok hnext
        obtain ⟨_, s3, hend, hnext⟩ := bind_ok hnext
        have hrun :=
          ih ((WakeRun.closed.pollFn (h.step (.drain hq hbegin)) hpoll).step (.handled hend)) hnext
        simpa using hrun

/-- **A command is a sequence of steps**; the wake-list loop takes every waker that waits. -/
theorem WakeRun.act {s s' : State σ} {cmd : Cmd σ} (h : WakeRun code ⟨L, s, []⟩)
    (ha : Onlyio.act code cmd s = .ok () s') : ∃ L', WakeRun code ⟨L', s', []⟩ := by
  cases cmd with
  | spawn n x =>
    simp only [Onlyio.act] at ha
    split at ha
    · exact ⟨L, WakeRun.closed.spawn h ‹_› ha⟩
    · cases ha
  | handle n => exact ⟨L, WakeRun.closed.handle h ha⟩
  | drain n => exact ⟨_, h.drainWakeList ha⟩
  | submit | consume | complete | free => exact ⟨L, h.step (.idle _ rfl ha)⟩

end Model

/-! ## Concrete runs -/

/-- A move of a run with wakers, as a command; a waker is named by its place among those that are
held. -/
inductive WakeMove (σ : Type) where
  | idle (cmd : Cmd σ)
  | main (x : σ)
  | handle
  | drain
  /-- One instruction of the block that runs. -/
  | run
  /-- The end of a poll. -/
  | leave
  | waker (payload : UserDataPayload)
  | awake (n : Nat)
  | drop (n : Nat)

/-- The state after a call that must succeed. -/
def after {α : Type} (x : EStateM.Result Fault (State σ) α) (k : α → State σ → Option (Scene σ)) :
    Option (Scene σ) :=
  match x with
  | .ok a s' => k a s'
  | .error _ _ => none

/-- Execute a move. -/
def wakeMove (code : Code σ) : WakeMove σ → Scene σ → Option (Scene σ)
  | .idle cmd, ⟨L, s, []⟩ => if cmd.idle then after (act code cmd s) fun _ s' =>
    some ⟨L, s', []⟩ else none
  | .main x, ⟨L, s, []⟩ =>
    if code.entry x then
      after (spawnPolled ⟨some x, []⟩ s) fun r s' => some ⟨L, s', [⟨r.1, .spawn r.2, none⟩]⟩
    else none
  | .handle, ⟨L, s, []⟩ => after (handlePolled s) fun r s' =>
    if r.2.2 then some ⟨L, s', [⟨r.2.1, .handle (!more r.1.flags), none⟩]⟩
    else after (handleEnd r.1 r.2.1 s') fun _ s' => some ⟨L, s', []⟩
  | .drain, ⟨L, s, []⟩ => after (drainPolled s) fun r s' =>
    match L.queued, r with
    | w :: rest, some p =>
      some ⟨{ L with drained := L.drained ++ [w], queued := rest }, s', [⟨p, .handle false, none⟩]⟩
    | _, _ => none
  | .run, ⟨L, s, ⟨p, role, none⟩ :: st⟩ => after (stepCode code p s) fun ctl s' =>
    match ctl with
    | .again => some ⟨L, s', ⟨p, role, none⟩ :: st⟩
    | .fin r => some ⟨L, s', ⟨p, role, some r⟩ :: st⟩
    | .spawn b => after (spawnPolled b s') fun r s' =>
      some ⟨L, s', ⟨r.1, .spawn r.2, none⟩ :: ⟨p, role, none⟩ :: st⟩
  | .leave, ⟨L, s, ⟨p, .spawn old, some _⟩ :: st⟩ => after (spawnEnd p old s) fun _ s' =>
    some ⟨L, s', st⟩
  | .leave, ⟨L, s, [⟨p, .handle final, some _⟩]⟩ =>
    after ((do
      if final then release p
      release p : Rt σ Unit) s) fun _ s' => some ⟨L, s', []⟩
  | .waker payload, ⟨L, s, st⟩ =>
    match s.tasks.index payload.taskIdx with
    | .ok p => after (Waker.new payload s) fun w s' =>
      some ⟨{ L with held := L.held ++ [(w, p)] }, s', st⟩
    | .error _ => none
  | .awake n, ⟨L, s, st⟩ =>
    match L.held[n]? with
    | some w => after (w.1.awake s) fun _ s' =>
      some ⟨{ L with held := L.held.erase w, queued := L.queued ++ [w] }, s', st⟩
    | none => none
  | .drop n, ⟨L, s, st⟩ =>
    match L.held[n]? with
    | some w => after (w.1.drop s) fun _ s' => some ⟨{ L with held := L.held.erase w }, s', st⟩
    | none => none
  | _, _ => none

theorem after_eq_some {α : Type} {x : EStateM.Result Fault (State σ) α}
    {k : α → State σ → Option (Scene σ)} {g : Scene σ} (h : after x k = some g) :
    ∃ a s', x = .ok a s' ∧ k a s' = some g := by
  cases x with
  | ok a s' => exact ⟨a, s', rfl, h⟩
  | error e s' => cases h

/-- A move is a step. -/
theorem wakeMove_step {m : WakeMove σ} {g g' : Scene σ} (h : wakeMove code m g = some g') :
    WakeStep code g g' := by
  unfold wakeMove at h
  split at h
  · split at h
    · obtain ⟨a, s', ha, h⟩ := after_eq_some h
      cases h
      exact .idle _ ‹_› ha
    · cases h
  · split at h
    · obtain ⟨⟨p, old⟩, s', ha, h⟩ := after_eq_some h
      cases h
      exact .main ‹_› ha
    · cases h
  · obtain ⟨⟨e, p, polled⟩, s', ha, h⟩ := after_eq_some h
    cases polled with
    | true =>
      cases h
      exact .handle ha
    | false =>
      obtain ⟨_, s1, he, h⟩ := after_eq_some h
      cases h
      exact .skip ha he
  · obtain ⟨r, s', ha, h⟩ := after_eq_some h
    split at h
    · rename_i hq
      cases h
      exact .drain hq ha
    · cases h
  · obtain ⟨ctl, s', ha, h⟩ := after_eq_some h
    cases ctl with
    | again =>
      cases h
      exact .again ha
    | fin r =>
      cases h
      exact .fin ha
    | spawn b =>
      obtain ⟨⟨q, old⟩, s1, hb, h⟩ := after_eq_some h
      cases h
      exact .child ha hb
  · obtain ⟨_, s', ha, h⟩ := after_eq_some h
    cases h
    exact .spawned ha
  · obtain ⟨_, s', ha, h⟩ := after_eq_some h
    cases h
    exact .handled ha
  · split at h
    · rename_i p hp
      obtain ⟨w, s', ha, h⟩ := after_eq_some h
      cases h
      exact .waker hp ha
    · cases h
  · split at h
    · rename_i w hw
      obtain ⟨_, s', ha, h⟩ := after_eq_some h
      cases h
      exact .awake (List.mem_of_getElem? hw) ha
    · cases h
  · split at h
    · rename_i w hw
      obtain ⟨_, s', ha, h⟩ := after_eq_some h
      cases h
      exact .drop (List.mem_of_getElem? hw) ha
    · cases h
  · cases h

/-- Execute moves as long as each one succeeds. -/
def wakeScript (code : Code σ) (ms : List (WakeMove σ)) (g : Scene σ) : Option (Scene σ) :=
  ms.foldlM (fun g m => wakeMove code m g) g

/-- Execute moves on a fresh thread, with the buffers at address `0`. -/
def freshWakes (code : Code σ) (ms : List (WakeMove σ)) : Option (Scene σ) :=
  match State.new 0 with
  | .ok s => wakeScript code ms ⟨.empty, s, []⟩
  | .error _ => none

theorem wakeScript_steps {ms : List (WakeMove σ)} :
    ∀ {g g' : Scene σ}, wakeScript code ms g = some g' →
    Relation.ReflTransGen (WakeStep code) g g' := by
  induction ms with
  | nil =>
    intro g g' hs
    cases hs
    exact .refl
  | cons m ms ih =>
    intro g g' hs
    unfold wakeScript at hs
    rw [List.foldlM_cons, Option.bind_eq_bind, Option.bind_eq_some_iff] at hs
    obtain ⟨g1, hm, hs⟩ := hs
    exact (ih hs).head (wakeMove_step hm)

theorem WakeRun.steps {g g' : Scene σ} (h : WakeRun code g)
    (hs : Relation.ReflTransGen (WakeStep code) g g') : WakeRun code g' := by
  induction hs with
  | refl => exact h
  | tail _ hs ih => exact ih.step hs

theorem WakeRun.fresh {ms : List (WakeMove σ)} {g : Scene σ} (h : freshWakes code ms = some g) :
    WakeRun code g := by
  unfold freshWakes at h
  split at h
  · rename_i s hs
    exact (WakeRun.new hs).steps (wakeScript_steps h)
  · cases h

end Onlyio
