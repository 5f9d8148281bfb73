import Onlyio.Machine.Simulate

/-!
# States inside a poll

A run is a sequence of commands, and a command polls blocks that spawn other blocks. `Within` are
the states between two instructions of a block that runs, at any depth of the tree of spawns, in any
run.

* `Within.midway`: they are configurations of the abstract machine.
* `CallsAt.spawnPolled`, `CallsAt.handlePolled`: how a poll begins.
-/

namespace Onlyio

open Lib

variable {σ : Type} {code : Code σ}

/-! ## Calls of `poll_fn` -/

/-- Run from `s`, `m` calls its `poll_fn` on `p` in the state `s'`, and goes on from what it
returns. -/
def CallsAt (m : (TaskPtr → Rt σ (Poll Unit)) → Rt σ Unit) (s : State σ) (p : TaskPtr)
    (s' : State σ) : Prop :=
  ∃ k : Poll Unit → Rt σ Unit, ∀ f, m f s = (f p >>= k) s'

/-- The states of a run in which the block of the first task of the list runs. It was polled by the
loop, or spawned by the block of the task behind it, and so on. -/
inductive Within (code : Code σ) : State σ → List TaskPtr → Prop where
  | main {s s' : State σ} {x : σ} {p : TaskPtr} (hr : Reachable code s) (hx : code.entry x = true)
      (h : CallsAt (fun f => spawn f ⟨some x, []⟩) s p s') : Within code s' [p]
  | handle {s s' : State σ} {p : TaskPtr} (hr : Reachable code s)
      (h : CallsAt (fun f => do handleCqeEntry f (← takeCqe)) s p s') : Within code s' [p]
  | again {s s' : State σ} {p : TaskPtr} {ps : List TaskPtr} (hw : Within code s (p :: ps))
      (h : stepCode code p s = .ok .again s') : Within code s' (p :: ps)
  | child {s s1 s2 : State σ} {p q : TaskPtr} {ps : List TaskPtr} {b : AsyncBlock σ}
      (hw : Within code s (p :: ps)) (hb : stepCode code p s = .ok (.spawn b) s1)
      (h : CallsAt (fun f => spawn f b) s1 q s2) : Within code s2 (q :: p :: ps)
  | spawned {s s1 s2 : State σ} {p : TaskPtr} {ps : List TaskPtr} {b : AsyncBlock σ} {fuel : Nat}
      (hw : Within code s (p :: ps)) (hb : stepCode code p s = .ok (.spawn b) s1)
      (h : spawn (pollFn code fuel) b s1 = .ok () s2) : Within code s2 (p :: ps)

/-- The states in which `spawn(b)` is called, from outside any poll or by a block. -/
inductive SpawnCall (code : Code σ) : State σ → AsyncBlock σ → Prop where
  | main {s : State σ} {x : σ} (hr : Reachable code s) (hx : code.entry x = true) :
      SpawnCall code s ⟨some x, []⟩
  | nested {s s1 : State σ} {p : TaskPtr} {ps : List TaskPtr} {b : AsyncBlock σ}
      (hw : Within code s (p :: ps)) (hb : stepCode code p s = .ok (.spawn b) s1) :
      SpawnCall code s1 b

/-! ## They are configurations of the abstract machine -/

/-- A `poll_fn` that fails as nothing else does, and otherwise on other tasks than `p`. -/
def probe (p : TaskPtr) : TaskPtr → Rt σ (Poll Unit) :=
  fun q => throw (if q = p then .dangling else .panic .releaseUnderflow)

theorem CallsAt.wp_probe {m : (TaskPtr → Rt σ (Poll Unit)) → Rt σ Unit}
    {s s' : State σ} {p : TaskPtr} (h : CallsAt m s p s') {P : State σ → Prop}
    (hm : wp (m (probe p)) (fun _ _ => True) (fun e s1 => e = .dangling → P s1) s) : P s' := by
  obtain ⟨k, hk⟩ := h
  have herr : m (probe p) s = .error .dangling s' := by
    rw [hk]
    simp only [probe]
    rfl
  exact wp_error hm herr rfl

/-- The probe is asked about `p` alone. -/
theorem wp_probe_bind {s : State σ} {p q : TaskPtr} {k : Poll Unit → Rt σ Unit} {P : State σ → Prop}
    (h : q = p → P s) :
    wp (probe p q >>= k) (fun _ _ => True) (fun e s1 => e = .dangling → P s1) s := by
  simp only [probe, wp_bind, wp_throw]
  intro he
  by_cases hq : q = p
  · exact h hq
  · rw [if_neg hq] at he
    cases he

theorem Soft.not_dangling {c : Core} {e : Fault} {s' : State σ} (h : Soft c e s') :
    e ≠ .dangling := by
  rintro rfl
  cases h.1

/-- The block of `p` runs, above the frames `st`, after steps from a state between two commands. -/
structure Midway (code : Code σ) (s : State σ) (p : TaskPtr) (role : Role) (st : List Frame) :
    Prop where
  rep : s.Rep
  start : ∃ s0, Reachable code s0 ∧ Steps code (s0.config []) (s.config (⟨p, role, none⟩ :: st))

theorem Midway.inv {s : State σ} {p : TaskPtr} {role : Role} {st : List Frame}
    (h : Midway code s p role st) : Inv s.core (⟨p, role, none⟩ :: st) := by
  obtain ⟨s0, hr, hs⟩ := h.start
  exact Inv.steps hs hr.inv.2

/-- A new task is polled. -/
theorem CallsAt.midway {s s' s0 : State σ} {g : Config σ} {b : AsyncBlock σ} {p : TaskPtr}
    {st : List Frame} (h : CallsAt (fun f => spawn f b) s p s') (hrep : s.Rep)
    (hr : Reachable code s0) (hs : Steps code (s0.config []) g)
    (hstep : ∀ i, s.core.slots i = none → Step code g
      ⟨s.core.enter i b.locals, Function.update s.fut s.core.spawned b,
        ⟨s.core.spawned, .spawn s.core.current, none⟩ :: st⟩) :
    Midway code s' p (.spawn s.core.current) st := by
  refine h.wp_probe (P := fun s' => Midway code s' p _ st) (wp_spawn_of_poll b hrep
    (fun e s1 he h => absurd h he.not_dangling) fun i s2 hi hrep2 hc2 hf2 => ?_)
  refine wp_probe_bind fun hp => ⟨hrep2, s0, hr, hs.tail ?_⟩
  subst hp
  simp only [State.config, hc2, hf2]
  exact hstep i hi

/-- A block that runs inside a poll runs in a configuration of the abstract machine. -/
theorem Within.midway {s : State σ} {ps : List TaskPtr} (h : Within code s ps) :
    ∀ {p rest}, ps = p :: rest → ∃ role st, Midway code s p role st := by
  induction h with
  | main hr hx h =>
    rintro _ _ ⟨rfl, rfl⟩
    exact ⟨_, _, h.midway hr.inv.1 hr .refl fun i hi => .main hx hi⟩
  | handle hr h =>
    rintro _ _ ⟨rfl, rfl⟩
    obtain ⟨hrep, hinv⟩ := hr.inv
    refine h.wp_probe (P := fun s' => ∃ role st, Midway code s' _ role st)
      (wp_handle_of_poll hinv hrep (fun e s1 he h => absurd h he.not_dangling)
        (fun _ _ _ h => nomatch h)
      (fun e cq p cls s2 hcq hslot hcls hacc hrep2 hc2 hf2 => ?_) fun _ _ _ _ _ _ _ _ _ _ =>
        trivial)
    refine wp_probe_bind fun hp => ⟨.handle (!more e.flags), [], hrep2, _, hr, .single ?_⟩
    subst hp hcls
    simp only [State.config, hc2, hf2]
    exact .handle hcq hslot hacc
  | again hw h ih =>
    rintro _ _ ⟨rfl, rfl⟩
    obtain ⟨role, st, hm⟩ := ih rfl
    obtain ⟨s0, hr, hs⟩ := hm.start
    obtain ⟨hrep, hstep⟩ := wp_ok (wp_stepCode role st (hm.inv.running hm.rep)) h
    exact ⟨role, st, hrep, s0, hr, hs.tail hstep⟩
  | child hw hb h ih =>
    rintro _ _ ⟨rfl, rfl⟩
    obtain ⟨role, st, hm⟩ := ih rfl
    obtain ⟨s0, hr, hs⟩ := hm.start
    have hsp := wp_ok (wp_stepCode role st (hm.inv.running hm.rep)) hb
    obtain ⟨b', hrw⟩ := Spawning.rewrites hsp
    exact ⟨_, _, h.midway (hrw.rep hm.rep) hr hs (Spawning.enters hsp)⟩
  | @spawned s s1 s2 p ps b fuel hw hb h ih =>
    rintro _ _ ⟨rfl, rfl⟩
    obtain ⟨role, st, hm⟩ := ih rfl
    obtain ⟨s0, hr, hs⟩ := hm.start
    have hsp := wp_ok (wp_stepCode role st (hm.inv.running hm.rep)) hb
    obtain ⟨b', hrw⟩ := Spawning.rewrites hsp
    obtain ⟨hrep2, hs2⟩ := wp_ok (wp_spawn (wp_pollFn code fuel) b (⟨p, role, none⟩ :: st)
      (g := s.config (⟨p, role, none⟩ :: st)) hm.inv hrw.core.symm (hrw.rep hm.rep)
      (Spawning.enters hsp)) h
    exact ⟨role, st, hrep2, s0, hr, hs.trans hs2⟩

/-! ## How a poll begins -/

/-- A program calls its `poll_fn` in one state only. -/
theorem CallsAt.unique {m : (TaskPtr → Rt σ (Poll Unit)) → Rt σ Unit} {s s1 s2 : State σ}
    {p q : TaskPtr} (h1 : CallsAt m s p s1) (h2 : CallsAt m s q s2) : q = p ∧ s2 = s1 := by
  obtain ⟨k, hk⟩ := h2
  refine h1.wp_probe (P := fun s1 => q = p ∧ s2 = s1) ?_
  have hq : wp (probe p q >>= k) (fun _ _ => True) (fun e s1 => e = .dangling →
      q = p ∧ s2 = s1) s2 :=
    wp_probe_bind (P := fun s1 => q = p ∧ s2 = s1) fun hq => ⟨hq, rfl⟩
  unfold wp at hq ⊢
  rwa [hk]

/-- What a program does that calls its `poll_fn` depends on it. -/
theorem CallsAt.depends {m : (TaskPtr → Rt σ (Poll Unit)) → Rt σ Unit}
    {s s' : State σ} {p : TaskPtr} (h : CallsAt m s p s') (r : EStateM.Result Fault (State σ) Unit)
    (hm : ∀ f, m f s = r) : False := by
  obtain ⟨k, hk⟩ := h
  have h1 := (hk fun _ => throw .dangling).symm.trans (hm _)
  have h2 := (hk fun _ => throw .fuel).symm.trans (hm _)
  cases h1.trans h2.symm

section Prefix

variable {α : Type} {m : (TaskPtr → Rt σ (Poll Unit)) → Rt σ Unit} {first : Rt σ α}
  {task : α → TaskPtr} {polled : α → Bool} {rest : α → Poll Unit → Rt σ Unit} {skip : α → Rt σ Unit}
  (hm : ∀ f, m f = first >>= fun a => if polled a then f (task a) >>= rest a else skip a)
include hm

/-- A program that begins with `first` and then calls its `poll_fn`, or does not. -/
theorem CallsAt.of_first {s s' : State σ} {a : α} (h : first s = .ok a s') (hp : polled a = true) :
    CallsAt m s (task a) s' := by
  refine ⟨rest a, fun f => ?_⟩
  simp only [hm, bind, EStateM.bind, h, hp, if_true]

theorem CallsAt.begins {s s' : State σ} {p : TaskPtr} (h : CallsAt m s p s') :
    ∃ a, first s = .ok a s' ∧ task a = p := by
  cases hf : first s with
  | error e s1 =>
    refine (h.depends (.error e s1) fun f => ?_).elim
    simp only [hm, bind, EStateM.bind, hf]
  | ok a s1 =>
    cases hp : polled a with
    | true =>
      obtain ⟨hq, rfl⟩ := h.unique (.of_first hm hf hp)
      exact ⟨a, rfl, hq⟩
    | false =>
      refine (h.depends (skip a s1) fun f => ?_).elim
      simp only [hm, bind, EStateM.bind, hf, hp]
      rfl

end Prefix

/-- `spawn`, up to the call of `poll_fn`. -/
def spawnPolled (b : AsyncBlock σ) : Rt σ (TaskPtr × TaskInfo) := do
  let (task, oldContext) ← spawnBegin b
  logEvent task (.poll (← get).currentTask)
  return (task, oldContext)

theorem spawn_eq (f : TaskPtr → Rt σ (Poll Unit)) (b : AsyncBlock σ) :
    spawn f b = spawnPolled b >>= fun r => if true then f r.1 >>= fun _ =>
    spawnEnd r.1 r.2 else pure () := by
  simp only [spawn, spawnPolled, taskPoll, bind_assoc, pure_bind, if_true]

theorem CallsAt.of_spawnPolled {s s' : State σ} {b : AsyncBlock σ} {p : TaskPtr} {old : TaskInfo}
    (h : spawnPolled b s = .ok (p, old) s') : CallsAt (fun f => spawn f b) s p s' :=
  .of_first (fun f => spawn_eq f b) h rfl

theorem CallsAt.spawnPolled {s s' : State σ} {b : AsyncBlock σ} {p : TaskPtr}
    (h : CallsAt (fun f => spawn f b) s p s') :
    ∃ old, Onlyio.spawnPolled b s = .ok (p, old) s' := by
  obtain ⟨⟨task, old⟩, hr, rfl⟩ := h.begins fun f => spawn_eq f b
  exact ⟨old, hr⟩

/-- The dispatch on a classified completion, up to the call of `poll_fn`; `true` where there is
one. -/
def dispatchPolled (entry : Cqe) (task : TaskPtr) (taskInfo : TaskInfo) :
    SyscallNbCompResult → Rt σ (Cqe × TaskPtr × Bool)
  | .error => throw (.panic .newerSqe)
  | .expired => return (entry, task, false)
  | .normal => do
    if taskInfo.tag.syscallNb = 0xFFFF then throw (.panic .tagOverflow)
    else
      augmenteSyscallNb task
      modify fun s => { s with currentTask :=
        { taskInfo with tag.syscallNb := taskInfo.tag.syscallNb + 1 } }
      logEvent task (.poll (← get).currentTask)
      return (entry, task, true)
  | .multiple => do
    modify fun s => { s with currentTask := taskInfo }
    logEvent task (.poll (← get).currentTask)
    return (entry, task, true)

/-- The handling of the oldest completion, up to the call of `poll_fn`. -/
def handlePolled : Rt σ (Cqe × TaskPtr × Bool) := do
  let entry ← takeCqe
  let taskInfo := TaskInfo.fromEntry entry
  let task ← taskClone (← tasksIndex taskInfo.tag.taskIdx)
  let cls := evaluateSyscallNb (← deref task).syscallNb taskInfo.tag.syscallNb
  logEvent task (.cqe entry cls ((← get).others task entry.sqe))
  dispatchPolled entry task taskInfo cls

/-- The handles that `handle_cqe_entry` gives back at its end. -/
def handleEnd (entry : Cqe) (task : TaskPtr) : Rt σ Unit := do
  if !more entry.flags then release task
  release task

theorem handle_eq (f : TaskPtr → Rt σ (Poll Unit)) :
    (do handleCqeEntry f (← takeCqe) : Rt σ Unit) = handlePolled >>= fun r =>
      if r.2.2 then f r.2.1 >>= fun _ => handleEnd r.1 r.2.1 else handleEnd r.1 r.2.1 := by
  simp only [handleCqeEntry, handlePolled, bind_assoc]
  refine bind_congr fun entry => bind_congr fun q => bind_congr fun task => bind_congr fun raw =>
    bind_congr fun s => bind_congr fun _ => ?_
  cases evaluateSyscallNb raw.syscallNb (TaskInfo.fromEntry entry).tag.syscallNb with
  | error => rfl
  | expired => rfl
  | normal =>
    simp only [dispatch, dispatchPolled]
    split
    · rfl
    · simp only [taskPoll, bind_assoc, pure_bind]
      rfl
  | multiple =>
    simp only [dispatch, dispatchPolled, taskPoll, bind_assoc, pure_bind]
    rfl

theorem CallsAt.handlePolled {s s' : State σ} {p : TaskPtr}
    (h : CallsAt (fun f => do handleCqeEntry f (← takeCqe)) s p s') :
    ∃ r, Onlyio.handlePolled s = .ok r s' ∧ r.2.1 = p :=
  h.begins handle_eq

end Onlyio
