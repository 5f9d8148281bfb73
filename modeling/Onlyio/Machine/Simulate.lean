import Onlyio.Machine.Release

/-!
# The model refines the abstract machine

Every command of a run, executed by `act`, is a sequence of steps of the abstract machine. The proof
carries the accounting invariant along, since the code finds its own task through the slab.

* `wp_pollFn`: a poll is a sequence of steps, by induction on the fuel, spawns included.
* `wp_spawn_of_poll`, `wp_handle_of_poll`: `spawn` and the handling of a completion, whatever
  `poll_fn` does.
* `wp_handle`: the handling of a completion is a sequence of steps, unless it is newer than its
  task.
* **`wp_act`**: so is every command; a command that fails has made a sequence of steps and then
  failed softly, or was handed a completion newer than its task.
* **`RunWith.inv`**: the accounting invariant holds in every state that a run reaches.
-/

namespace Onlyio

open Lib

variable {σ : Type} {code : Code σ} {s : State σ} {p : TaskPtr} {W : TaskPtr → Nat}
  {wl : List TaskInfo}

/-- A sequence of steps, then a soft fault. -/
def Stops (code : Code σ) (g : Config σ) (e : Fault) (s' : State σ) : Prop :=
  ∃ g', Steps code g g' ∧ Soft g'.core e s'

theorem Stops.now {g : Config σ} {e : Fault} {s' : State σ} (h : Soft g.core e s') :
    Stops code g e s' := ⟨g, .refl, h⟩

theorem Stops.later {g g1 : Config σ} {e : Fault} {s' : State σ} (h : Steps code g g1)
    (h1 : Stops code g1 e s') : Stops code g e s' := by
  obtain ⟨g', hs, hsoft⟩ := h1
  exact ⟨g', h.trans hs, hsoft⟩

theorem Inv.steps {g g' : Config σ} (hs : Steps code g g') (h : Inv g.core g.stack W) :
    Inv g'.core g'.stack W :=
  hs.invariant (P := fun g => Inv g.core g.stack W) (fun _ _ hst hg => Inv.step hst hg) h

theorem Inv.running {f : Frame} {st : List Frame} (h : Inv s.core (f :: st) W) (hr : s.Rep wl) :
    Running s f.task wl := ⟨h.live_top, h.current_slot, hr⟩

/-! ## Polls -/

/-- What `pollFn` is proved to do, with a given fuel. -/
def PollSpec (code : Code σ) (n : Nat) : Prop :=
  ∀ (p : TaskPtr) (role : Role) (st : List Frame) (s : State σ) {W : TaskPtr → Nat}
  {wl : List TaskInfo},
    Inv s.core (⟨p, role, none⟩ :: st) W → s.Rep wl →
    wp (pollFn code n p)
      (fun r s' => s'.Rep wl ∧
        Steps code (s.config (⟨p, role, none⟩ :: st)) (s'.config (⟨p, role, some r⟩ :: st)))
      (Stops code (s.config (⟨p, role, none⟩ :: st))) s

theorem Inv.refs_le {f : Frame} {st : List Frame} (h : Inv s.core (f :: st) W) :
    f.refs ≤ (s.core.cell f.task).refCounter := by
  have := Inv.counter_ge h.refs h.live_top
  simp only [refsOn, if_true] at this
  omega

/-- The end of `spawn`. -/
theorem wp_spawnEnd (code : Code σ) {t : TaskPtr} {old : TaskInfo} {r : Poll Unit} {st : List Frame}
    (h : Inv s.core (⟨t, .spawn old, some r⟩ :: st) W) (hr : s.Rep wl) :
    wp (spawnEnd t old)
      (fun _ s' => s'.Rep wl ∧
        Step code (s.config (⟨t, .spawn old, some r⟩ :: st)) (s'.config st)) (Soft s.core) s := by
  have hlive := h.live_top
  have hrc : 2 ≤ (s.core.cell t).refCounter := h.refs_le
  have hnf : ¬ s.core.frees t 1 = true := by simp [Core.frees]; omega
  simp only [spawnEnd, wp_bind]
  refine wp_mono (wp_release hlive (by omega)) (fun _ s1 h1 => ?_) fun _ _ he => he
  rw [wp_modify]
  have hcore2 : ({ s1 with currentTask := old } : State σ).core =
      { s.core.release t 1 with current := old } := by
    rw [← h1.core]
    rfl
  have hcell : (({ s1 with currentTask := old } : State σ).core.cell t) =
      { s.core.cell t with refCounter := (s.core.cell t).refCounter - 1 } := by
    rw [hcore2]
    show (s.core.release t 1).cell t = _
    rw [release_of_not_frees hnf, Core.modifyCell_self]
  have hrep2 : ({ s1 with currentTask := old } : State σ).Rep wl :=
    ⟨(h1.rep hr).sized, (h1.rep hr).pos, (h1.rep hr).entries, (h1.rep hr).wakeList,
      (h1.rep hr).stack⟩
  have hfut2 : ({ s1 with currentTask := old } : State σ).fut = dropFut s.core t 1 s.fut := h1.fut
  generalize ({ s1 with currentTask := old } : State σ) = s2 at hcore2 hcell hrep2 hfut2 ⊢
  refine wp_mono
    (wp_release (by rw [hcell]; exact hlive) (by rw [hcell]; exact Nat.sub_pos_of_lt hrc))
      (fun _ s3 h3 => ⟨h3.rep hrep2, ?_⟩) fun _ _ he => he.trans ?_
  · have hc : s3.core = { s.core.release t 2 with current := old } := by
      rw [h3.core, hcore2, release_current_comm, release_release hrc]
    have hf : s3.fut = dropFut s.core t 2 s.fut := by
      rw [h3.fut, hcore2, hfut2]
      exact dropFut_dropFut hrc
    simp only [State.config, hc, hf]
    exact .spawnEnd
  · rw [hcore2]
    exact trails_release s.core t 1

/-- `spawn`, whatever `poll_fn` does: the task has entered its slot when it is polled. -/
theorem wp_spawn_of_poll {f : TaskPtr → Rt σ (Poll Unit)} {Q : Unit → State σ → Prop}
    {E : Fault → State σ → Prop} (b : AsyncBlock σ) (hr : s.Rep wl)
    (hsoft : ∀ e s', Soft s.core e s' → E e s')
    (hpoll : ∀ i s2, s.core.slots i = none → s2.Rep wl → s2.core = s.core.enter i b.locals →
      s2.fut = Function.update s.fut s.core.spawned b →
      wp (do
        let _ ← f s.core.spawned
        spawnEnd s.core.spawned s.core.current) Q E s2) :
    wp (spawn f b) Q E s := by
  simp only [spawn, wp_bind]
  refine wp_mono (wp_spawnBegin b hr) (fun r s1 hpost => ?_) hsoft
  obtain ⟨hr1, hrep1, hf1, i, hi, hc1⟩ := hpost
  subst hr1
  -- the first poll is recorded
  have hcell1 : s1.core.cell s.core.spawned =
      { Cell.new b.locals with refCounter := 2, slabIdx := some i } := by
    rw [hc1]
    exact Function.update_self ..
  obtain ⟨raw, hraw, -⟩ := State.exists_raw (s := s1) (p := s.core.spawned) (by rw [hcell1]; rfl)
  simp only [taskPoll, wp_bind, wp_get, logEvent, wp_writeRaw]
  have h2 := becomes_logEvent hraw (.poll s1.currentTask)
  have hc2 : s1.core.logAt s.core.spawned (.poll s1.currentTask) = s.core.enter i b.locals := by
    have hcur : s1.currentTask = .initialPoll i := by
      have : s1.core.current = .initialPoll i := by rw [hc1]; rfl
      exact this
    rw [Core.logAt, Core.modifyCell, hcell1, hcur, hc1]
    simp [Core.enter, Cell.new]
  rw [hc2] at h2
  have h := hpoll i _ hi (h2.rep hrep1) h2.core (h2.fut.trans hf1)
  rwa [wp_bind] at h

/-- A whole `spawn`, from the configuration `g` whose step it begins with. -/
theorem wp_spawn {n : Nat} (hpoll : PollSpec code n) (b : AsyncBlock σ) (st : List Frame)
    {g : Config σ} (hg : Inv g.core g.stack W) (hcore : g.core = s.core) (hr : s.Rep wl)
    (hstep : ∀ i, s.core.slots i = none → Step code g
      ⟨s.core.enter i b.locals, Function.update s.fut s.core.spawned b,
        ⟨s.core.spawned, .spawn s.core.current, none⟩ :: st⟩) :
    wp (spawn (pollFn code n) b)
      (fun _ s' => s'.Rep wl ∧ Steps code g (s'.config st)) (Stops code g) s := by
  refine wp_spawn_of_poll b hr (fun _ _ he => .now (hcore ▸ he)) fun i s2 hi hrep2 hc2 hf2 => ?_
  -- the abstract machine has entered the task
  have hst := hstep i hi
  have hcfg : s2.config (⟨s.core.spawned, .spawn s.core.current, none⟩ :: st) =
      ⟨s.core.enter i b.locals, Function.update s.fut s.core.spawned b,
        ⟨s.core.spawned, .spawn s.core.current, none⟩ :: st⟩ := by
    simp only [State.config, hc2, hf2]
  rw [← hcfg] at hst
  have hinv2 : Inv s2.core (⟨s.core.spawned, .spawn s.core.current, none⟩ :: st) W :=
    Inv.step hst hg
  rw [wp_bind]
  refine wp_mono (hpoll _ _ st s2 hinv2 hrep2) (fun r s3 hpost => ?_)
    fun _ _ he => he.later (.single hst)
  obtain ⟨hrep3, hs3⟩ := hpost
  refine wp_mono (wp_spawnEnd code (hinv2.steps hs3) hrep3)
    (fun _ s4 hpost => ?_) fun _ _ he => ?_
  · obtain ⟨hrep4, hst4⟩ := hpost
    exact ⟨hrep4, ((Relation.ReflTransGen.single hst).trans hs3).tail hst4⟩
  · exact ⟨_, (Relation.ReflTransGen.single hst).trans hs3, he⟩

/-- **A poll is a sequence of steps.** -/
theorem wp_pollFn (code : Code σ) (n : Nat) : PollSpec code n := by
  induction n with
  | zero => exact fun p role st s _ _ _ _ => .now ⟨rfl, Trails.refl _⟩
  | succ n ih =>
    intro p role st s W wl hinv hr
    simp only [pollFn, wp_bind]
    refine wp_mono (wp_stepCode role st (hinv.running hr)) (fun ctl s1 h1 => ?_)
      fun _ _ he => .now he
    cases ctl with
    | fin r => exact ⟨h1.1, .single h1.2⟩
    | again =>
      refine wp_mono (ih p role st s1 (Inv.step h1.2 hinv) h1.1) (fun r s2 hpost => ?_)
        fun _ _ he => he.later (.single h1.2)
      obtain ⟨hr2, h2⟩ := hpost
      exact ⟨hr2, (Relation.ReflTransGen.single h1.2).trans h2⟩
    | spawn b =>
      obtain ⟨b', hrw⟩ := Spawning.rewrites h1
      simp only [wp_bind]
      have hsp := wp_spawn (s := s1) ih b (⟨p, role, none⟩ :: st)
        (g := s.config (⟨p, role, none⟩ :: st)) hinv hrw.core.symm (hrw.rep hr) (Spawning.enters h1)
      refine wp_mono hsp (fun _ s2 hpost => ?_) fun _ _ he => he
      obtain ⟨hr2, h2⟩ := hpost
      have hinv2 : Inv s2.core (⟨p, role, none⟩ :: st) W := Inv.steps h2 hinv
      refine wp_mono (ih p role st s2 hinv2 hr2) (fun r s3 hpost => ?_) fun _ _ he => he.later h2
      obtain ⟨hr3, h3⟩ := hpost
      exact ⟨hr3, h2.trans h3⟩

/-! ## Completions -/

/-- The oldest completion is newer than its task. -/
def Newer (c : Core) : Prop :=
  ∃ e cq p, c.cq = e :: cq ∧ c.slots e.sqe.payload.taskIdx = some p ∧
    evaluateSyscallNb (c.stored p) e.sqe.payload.syscallNb = .error

/-- What handling the oldest completion does: it is skipped, or a poll of its task is made from its
beginning to its end. -/
def Handled (code : Code σ) (g g' : Config σ) : Prop :=
  ∃ e cq p, g.core.cq = e :: cq ∧ g.core.slots e.sqe.payload.taskIdx = some p ∧
    (evaluateSyscallNb (g.core.stored p) e.sqe.payload.syscallNb = .expired ∧ Step code g g' ∨
    ∃ g1 g2 r, Step code g g1 ∧ g1.stack = [⟨p, .handle (!more e.flags), none⟩] ∧ Steps code g1 g2 ∧
      g2.stack = [⟨p, .handle (!more e.flags), some r⟩] ∧ Step code g2 g')

theorem Handled.steps {g g' : Config σ} (h : Handled code g g') : Steps code g g' := by
  obtain ⟨e, cq, p, -, -, ⟨-, hs⟩ | ⟨g1, g2, r, h1, -, h12, -, h2⟩⟩ := h
  · exact .single hs
  · exact ((Relation.ReflTransGen.single h1).trans h12).tail h2

/-- How a command fails: softly after a sequence of steps, or on a completion that is newer than
its task. -/
def Halts (code : Code σ) (g : Config σ) (e : Fault) (s' : State σ) : Prop :=
  Stops code g e s' ∨ e = .panic .newerSqe ∧ Newer g.core ∧ Trails g.core s'.core

theorem wp_takeCqe :
    wp (takeCqe : Rt σ Cqe)
      (fun e s' => ∃ cq, s.core.cq = e :: cq ∧ Becomes s (s.core.take e cq) s')
        (Soft s.core) s := by
  simp only [takeCqe, wp_bind, wp_get]
  cases hcq : s.ring.cq with
  | nil => exact ⟨rfl, Trails.refl _⟩
  | cons e cq =>
    simp only [wp_bind, wp_modify, wp_pure]
    exact ⟨cq, hcq, rfl, rfl, fun hr => ⟨hr.sized, hr.pos, hr.entries, hr.wakeList, hr.stack⟩⟩

/-- The skipped completion: the clone and the token are given back. -/
theorem skip_release (c : Core) (p : TaskPtr) (ev : Event) (n : Nat)
    (fut : TaskPtr → AsyncBlock σ) :
    ((c.bump p 1).logAt p ev).release p (n + 1) = (c.logAt p ev).release p n ∧
      dropFut ((c.bump p 1).logAt p ev) p (n + 1) fut = dropFut c p n fut := by
  have hcomm : (c.bump p 1).logAt p ev = (c.logAt p ev).bump p 1 := by
    simp [Core.bump, Core.logAt, Core.modifyCell]
  refine ⟨by rw [hcomm, bump_release], ?_⟩
  have hfrees : ((c.bump p 1).logAt p ev).frees p (n + 1) = c.frees p n := by
    simp [Core.frees, Core.bump, Core.logAt, Core.modifyCell]
  simp only [dropFut, hfrees]

/-- The dispatch of a completion that its task accepts, whatever `poll_fn` does. -/
theorem wp_dispatch {f : TaskPtr → Rt σ (Poll Unit)} {Q : Unit → State σ → Prop}
    {E : Fault → State σ → Prop} {e : Cqe} {cls : SyscallNbCompResult} (hcls : cls = .normal ∨
    cls = .multiple) (hlive : (s.core.cell p).freed = false) (hr : s.Rep wl) (hsoft :
    ∀ er s', Soft s.core er s' → E er s') (hpoll : ∀ s', s'.Rep wl →
      s'.core = (s.core.deliver p e cls).logAt p (.poll (s.core.deliver p e cls).current) →
      s'.fut = s.fut → wp (f p) (fun _ s' => Q () s') E s') :
    wp (dispatch f p (.fromEntry e) cls) Q E s := by
  -- what is left once the context is set: the record of the poll
  have hset : ∀ {s1 : State σ}, s1.Rep wl → s1.core = s.core.deliver p e cls → s1.fut = s.fut →
      wp (taskPoll f p) (fun _ s' => Q () s') E s1 := by
    intro s1 hrep hcore hfut
    have hlive1 : (s1.core.cell p).freed = false := by
      rw [hcore, ← hlive]
      rcases hcls with rfl | rfl
      · exact (Effect.mapNb s.core p taskAugmente).freed
      · rfl
    obtain ⟨raw, hraw, -⟩ := State.exists_raw hlive1
    have h2 := becomes_logEvent hraw (.poll s1.core.current)
    simp only [taskPoll, wp_bind, wp_get, logEvent, wp_writeRaw]
    refine hpoll _ (h2.rep hrep) ?_ (h2.fut.trans hfut)
    rw [← hcore]
    exact h2.core
  obtain rfl | rfl := hcls
  · simp only [dispatch, wp_ite]
    refine ⟨fun _ => hsoft _ _ ⟨rfl, Trails.refl _⟩, fun _ => ?_⟩
    simp only [wp_bind, wp_pure]
    refine wp_mono (wp_mapNb (p := p) taskAugmente hlive _) (fun _ s1 hpost => ?_) hsoft
    obtain ⟨h1, _⟩ := hpost
    rw [wp_modify]
    refine hset ⟨(h1.rep hr).sized, (h1.rep hr).pos, (h1.rep hr).entries, (h1.rep hr).wakeList,
      (h1.rep hr).stack⟩ ?_ h1.fut
    rw [Core.deliver, ← h1.core]
    rfl
  · simp only [dispatch, wp_bind, wp_modify, wp_pure]
    exact hset ⟨hr.sized, hr.pos, hr.entries, hr.wakeList, hr.stack⟩ rfl rfl

/-- The end of `handle_cqe_entry`. -/
theorem wp_handleEnd (code : Code σ) {final : Bool} {r : Poll Unit}
    (hinv : Inv s.core [⟨p, .handle final, some r⟩] W) (hr : s.Rep wl) :
    wp (do
        if final then release p
        release p)
      (fun _ s' => s'.Rep wl ∧ Step code (s.config [⟨p, .handle final, some r⟩]) (s'.config []))
      (Soft s.core) s := by
  refine wp_mono (wp_releases final hinv.live_top hinv.refs_le) (fun _ s1 h1 => ⟨h1.rep hr, ?_⟩)
    fun _ _ he => he
  simp only [State.config, h1.core, h1.fut]
  exact .handleEnd

/-- The handling of the completion `e`, whatever `poll_fn` does: the task is polled in the state
that `Core.accept` describes, or the completion is skipped, or it is newer than its task. -/
theorem wp_handle_of_poll {f : TaskPtr → Rt σ (Poll Unit)} {Q : Unit → State σ → Prop}
    {E : Fault → State σ → Prop} (hinv : Inv s.core [] W) (hr : s.Rep wl)
    (hsoft : ∀ er s', Soft s.core er s' → E er s')
    (hnewer : ∀ s', Newer s.core → Trails s.core s'.core → E (.panic .newerSqe) s')
    (hpoll : ∀ e cq p cls s', s.core.cq = e :: cq → s.core.slots e.sqe.payload.taskIdx = some p →
      evaluateSyscallNb (s.core.stored p) e.sqe.payload.syscallNb = cls → cls = .normal ∨
      cls = .multiple → s'.Rep wl → s'.core = (s.core.take e cq).accept p e cls → s'.fut = s.fut →
      wp (do
        let _ ← f p
        if !more e.flags then release p
        release p) Q E s')
    (hskip : ∀ e cq p s', s.core.cq = e :: cq → s.core.slots e.sqe.payload.taskIdx = some p →
      evaluateSyscallNb (s.core.stored p) e.sqe.payload.syscallNb = .expired → s'.Rep wl →
      s'.core = ((s.core.take e cq).logAt p
      (.cqe e .expired ((s.core.take e cq).others p e.sqe))).release p
        (if more e.flags then 0 else 1) →
      s'.fut = dropFut s.core p (if more e.flags then 0 else 1) s.fut → Q () s') :
    wp (do handleCqeEntry f (← takeCqe)) Q E s := by
  rw [wp_bind]
  refine wp_mono wp_takeCqe (fun e s1 hpost => ?_) hsoft
  obtain ⟨cq, hcq, h1⟩ := hpost
  obtain ⟨hslot, hlive⟩ :=
    hinv.owner_slot (mem_outstanding_of_inflight (hinv.ring.head_inflight hcq))
  have hpos := (hinv.refs.live _ hlive).1
  generalize e.sqe.caller.task = p at hslot hlive hpos
  -- the clone
  simp only [handleCqeEntry, wp_bind]
  refine wp_tasksIndex (p := p) (by rw [h1.core]; exact hslot) (h1.rep hr) ?_
  simp only [taskClone, wp_bind, wp_pure]
  refine wp_mono (wp_incRc (p := p) (by rw [h1.core]; exact hlive)) (fun _ s2 hpost => ?_)
    fun _ _ he => hsoft _ _ (Soft.trans (h1.core ▸ Trails.refl s.core) he)
  obtain ⟨h2, _⟩ := hpost
  rw [h1.core] at h2
  have hrep2 := h2.rep (h1.rep hr)
  -- the classification, recorded
  have hcell2 : s2.core.cell p =
      { s.core.cell p with refCounter := (s.core.cell p).refCounter + 1 } := by
    rw [h2.core, Core.bump, Core.modifyCell_self]
    rfl
  obtain ⟨raw, hraw, hfreed⟩ := State.exists_raw (s := s2) (p := p) (by rw [hcell2]; exact hlive)
  have hnb : raw.syscallNb = s.core.stored p := by
    have : (s2.core.cell p).syscallNb = raw.syscallNb := by rw [State.core_cell hraw]; rfl
    rw [← this, hcell2]
    rfl
  simp only [wp_deref hraw hfreed, wp_get, logEvent, wp_writeRaw, hnb]
  have hothers : s2.others p e.sqe = (s.core.take e cq).others p e.sqe := by
    have : s2.core.others p e.sqe = (s.core.take e cq).others p e.sqe := by rw [h2.core]; rfl
    exact this
  rw [hothers]
  show wp (dispatch _ p _ (evaluateSyscallNb (s.core.stored p) e.sqe.payload.syscallNb)) _ _
    (s2.modifyRaw p fun raw => { raw with log := raw.log ++ [.cqe e
      (evaluateSyscallNb (s.core.stored p) e.sqe.payload.syscallNb)
      ((s.core.take e cq).others p e.sqe)] })
  have h3 := becomes_logEvent hraw (.cqe e
    (evaluateSyscallNb (s.core.stored p) e.sqe.payload.syscallNb)
    ((s.core.take e cq).others p e.sqe))
  rw [h2.core] at h3
  generalize hcls : evaluateSyscallNb (s.core.stored p) e.sqe.payload.syscallNb = cls at h3 ⊢
  generalize hev : Event.cqe e cls ((s.core.take e cq).others p e.sqe) = ev at h3 ⊢
  generalize s2.modifyRaw p (fun raw => { raw with log := raw.log ++ [ev] }) = s3 at h3 ⊢
  have hrep3 := h3.rep hrep2
  have hcell3 : (s3.core.cell p).freed = false ∧
      (s3.core.cell p).refCounter = (s.core.cell p).refCounter + 1 := by
    have hb : ((s.core.take e cq).bump p 1).cell p = s2.core.cell p := by rw [h2.core]
    rw [h3.core, Core.logAt, Core.modifyCell_self, hb, hcell2]
    exact ⟨hlive, rfl⟩
  have hfut3 : s3.fut = s.fut := h3.fut.trans (h2.fut.trans h1.fut)
  have htr3 : Trails s.core s3.core := by
    rw [h3.core]
    refine Trails.trans (Effect.bump (s.core.take e cq) p 1).trails ?_
    exact trails_modifyCell [ev] rfl (by subst hev; simp [Event.isPoll])
  -- the poll, when the task accepts the completion
  have haccept : cls = .normal ∨ cls = .multiple →
      wp (dispatch f p (.fromEntry e) cls)
        (fun _ s' => wp (do
            if !more e.flags then release p
            release p) Q E s') E s3 := fun hc => by
    refine wp_dispatch hc hcell3.1 hrep3 (fun _ _ he => hsoft _ _ (he.trans htr3))
      fun s4 hrep4 hcore4 hfut4 => ?_
    have hacc : s4.core = (s.core.take e cq).accept p e cls := by
      rw [hcore4, h3.core, ← hev]
      rfl
    have h := hpoll e cq p cls s4 hcq hslot hcls hc hrep4 hacc (hfut4.trans hfut3)
    rwa [wp_bind] at h
  cases cls with
  | error => exact hnewer s3 ⟨e, cq, p, hcq, hslot, hcls⟩ htr3
  | normal => exact haccept (.inl rfl)
  | multiple => exact haccept (.inr rfl)
  | expired =>
    show wp (do
        if !more e.flags then release p
        release p) _ _ s3
    refine wp_mono (wp_releases (!more e.flags) hcell3.1 ?_) (fun _ s4 h4 => ?_)
      fun _ _ he => hsoft _ _ (he.trans htr3)
    · rw [hcell3.2]
      split <;> omega
    · have hn : (if (!more e.flags) = true then 2 else 1) =
          (if more e.flags then 0 else 1) + 1 := by
        cases more e.flags <;> rfl
      obtain ⟨hrel, hdrop⟩ := skip_release (s.core.take e cq) p ev
        (if more e.flags then 0 else 1) s.fut
      have hc4 := h4.core
      have hf4 := h4.fut
      rw [hn, h3.core, hrel] at hc4
      rw [hn, h3.core, hfut3, hdrop] at hf4
      subst hev
      exact hskip e cq p s4 hcq hslot hcls (h4.rep hrep3) hc4 hf4

/-- **Handling a completion.** -/
theorem wp_handle (n : Nat) (hinv : Inv s.core [] W) (hr : s.Rep wl) :
    wp (do handleCqeEntry (pollFn code n) (← takeCqe))
      (fun _ s' => s'.Rep wl ∧ Handled code (s.config []) (s'.config []))
        (Halts code (s.config [])) s := by
  refine wp_handle_of_poll hinv hr (fun _ _ he => .inl (.now he))
    (fun _ hnew htr => .inr ⟨rfl, hnew, htr⟩)
      (fun e cq p cls s1 hcq hslot hcls hacc hrep1 hcore1 hfut1 => ?_)
    fun e cq p s1 hcq hslot hcls hrep1 hcore1 hfut1 =>
    ⟨hrep1, e, cq, p, hcq, hslot, .inl ⟨hcls, ?_⟩⟩
  · have hst : Step code (s.config []) (s1.config [⟨p, .handle (!more e.flags), none⟩]) := by
      have hstep : Step code (s.config []) _ := .handle hcq hslot (by rw [hcls]; exact hacc)
      simp only [State.config, hcore1, hfut1]
      rwa [hcls] at hstep
    have hinv1 := Inv.step hst hinv
    rw [wp_bind]
    refine wp_mono (wp_pollFn code n p _ [] s1 hinv1 hrep1) (fun r s2 hpost => ?_)
      fun _ _ he => .inl (he.later (.single hst))
    obtain ⟨hrep2, hs2⟩ := hpost
    refine wp_mono (wp_handleEnd code (hinv1.steps hs2) hrep2)
      (fun _ s3 hpost => ?_) fun _ _ he => ?_
    · obtain ⟨hrep3, hst3⟩ := hpost
      exact ⟨hrep3, e, cq, p, hcq, hslot, .inr ⟨_, _, r, hst, rfl, hs2, rfl, hst3⟩⟩
    exact .inl ⟨_, (Relation.ReflTransGen.single hst).trans hs2, he⟩
  · simp only [State.config, hcore1, hfut1]
    exact .skip hcq hslot hcls

/-! ## The loop and the kernel -/

theorem wp_submitAndWait (hr : s.Rep wl) :
    wp (submitAndWait : Rt σ Unit)
      (fun _ s' => s'.Rep wl ∧ Step code (s.config []) (s'.config [])) (Soft s.core) s := by
  simp only [submitAndWait, wp_bind, wp_get, wp_ite, wp_modify]
  refine ⟨fun hfit => ⟨⟨hr.sized, hr.pos, hr.entries, hr.wakeList, hr.stack⟩, ?_⟩, fun _ =>
    ⟨rfl, Trails.refl _⟩⟩
  rw [hr.entries] at hfit
  exact .submit hfit

theorem wp_kernelConsume (hr : s.Rep wl) :
    wp (kernelConsume : Rt σ Unit)
      (fun _ s' => s'.Rep wl ∧ Step code (s.config []) (s'.config [])) (Soft s.core) s := by
  simp only [kernelConsume, wp_bind, wp_get]
  cases hsq : s.ring.sq with
  | nil => exact ⟨rfl, Trails.refl _⟩
  | cons q sq => exact ⟨⟨hr.sized, hr.pos, hr.entries, hr.wakeList, hr.stack⟩, .consume hsq⟩

theorem wp_kernelComplete (id : Nat) (result : Int32) (flags : UInt32) (hr : s.Rep wl) :
    wp (kernelComplete id result flags : Rt σ Unit)
      (fun _ s' => s'.Rep wl ∧ Step code (s.config []) (s'.config [])) (Soft s.core) s := by
  simp only [kernelComplete, wp_bind, wp_get]
  cases hq : s.ring.inflight.find? (fun q => q.id == id) with
  | none => exact ⟨rfl, Trails.refl _⟩
  | some q =>
    simp only [wp_ite, wp_modify]
    refine ⟨fun hok => ⟨⟨hr.sized, hr.pos, hr.entries, hr.wakeList, hr.stack⟩, ?_⟩, fun _ =>
      ⟨rfl, Trails.refl _⟩⟩
    have hid : q.id = id := by simpa using List.find?_some hq
    rw [Bool.and_eq_true, List.all_eq_true] at hok
    refine .complete (List.mem_of_find?_eq_some hq) (fun e he heq => ?_) fun hm => ?_
    · simpa [heq, hid] using hok.1 e he
    · simpa [hm] using hok.2

/-- The loop of `free_unsed_slab_slot`: every queued slot holds a task, once. -/
theorem wp_freeSlots (l : List SlabIdx) :
    ∀ s : State σ, s.Rep wl → l.Nodup → (∀ i ∈ l, (s.core.slots i).isSome) →
      ∀ E : Fault → State σ → Prop, wp (freeSlots l)
        (fun _ s' => Becomes s
          { s.core with slots := fun i => if i ∈ l then none else s.core.slots i } s') E s := by
  induction l with
  | nil =>
    intro s _ _ _ E
    refine ⟨?_, rfl, fun hr => hr⟩
    simp
  | cons i l ih =>
    intro s hr hnodup hocc E
    rw [List.nodup_cons] at hnodup
    obtain ⟨t, ht⟩ := Option.isSome_iff_exists.mp (hocc i List.mem_cons_self)
    obtain ⟨tasks, htake, hmap, hlen, hlength, -⟩ := Slab.take_spec (i := i) ht hr.sized
    have hrem : s.tasks.removeDroppedTask i = .ok tasks := by
      simp only [Slab.removeDroppedTask, htake]
    simp only [freeSlots, wp_bind, wp_get, hrem, liftExcept, wp_pure, wp_modify]
    have hcore : ({ s with tasks } : State σ).core =
        { s.core with slots := Function.update s.core.slots i none } := by
      simp only [State.core, hmap]
    have hrep : ∀ {wl : List TaskInfo}, s.Rep wl → ({ s with tasks } : State σ).Rep wl := fun hr =>
      ⟨by rw [hlength, hlen, hr.sized], by
        rw [hlen]; exact hr.pos, hr.entries, hr.wakeList, hr.stack⟩
    have hfut : ({ s with tasks } : State σ).fut = s.fut := rfl
    generalize ({ s with tasks } : State σ) = s1 at hcore hrep hfut ⊢
    refine wp_mono (ih s1 (hrep hr) hnodup.2 (fun j hj => ?_) E)
      (fun _ s2 h2 => ?_) fun _ _ he => he
    · have hne : j ≠ i := fun heq => hnodup.1 (heq ▸ hj)
      rw [hcore]
      show (Function.update s.core.slots i none j).isSome
      rw [Function.update_of_ne hne]
      exact hocc j (List.mem_cons_of_mem _ hj)
    · refine ⟨?_, h2.fut.trans hfut, fun hr => h2.rep (hrep hr)⟩
      have hslots : (fun j => if j ∈ l then none else Function.update s.core.slots i none j) =
          fun j => if j ∈ i :: l then none else s.core.slots j := by
        funext j
        by_cases hji : j = i
        · subst hji
          simp
        · simp [hji]
      rw [h2.core, hcore, ← hslots]

theorem wp_freeUnsedSlabSlot (hinv : Inv s.core [] W) (hr : s.Rep wl) (E : Fault → State σ → Prop) :
    wp (freeUnsedSlabSlot : Rt σ Unit)
      (fun _ s' => s'.Rep wl ∧ Step code (s.config []) (s'.config [])) E s := by
  simp only [freeUnsedSlabSlot, wp_bind, wp_get, wp_modify]
  have hocc : ∀ i ∈ s.runtimeFreeList, (s.core.slots i).isSome := fun i hi => by
    obtain ⟨q, hq, -⟩ := hinv.slab.queued i hi
    rw [hq]
    rfl
  refine wp_mono (wp_freeSlots _ s hr hinv.slab.nodup hocc E) (fun _ s1 h1 => ?_) fun _ _ he => he
  refine ⟨⟨(h1.rep hr).sized, (h1.rep hr).pos, (h1.rep hr).entries, (h1.rep hr).wakeList,
    (h1.rep hr).stack⟩, ?_⟩
  have hc : ({ s1 with runtimeFreeList := [] } : State σ).core = { s.core with
      slots := fun i => if i ∈ s.core.freeList then none else s.core.slots i, freeList := [] } :=
    congrArg (fun c : Core => { c with freeList := [] }) h1.core
  have hf : ({ s1 with runtimeFreeList := [] } : State σ).fut = s.fut := h1.fut
  simp only [State.config, hc, hf]
  exact .free

/-- **Every command is a sequence of steps.** A command that fails has made a sequence of steps and
failed softly, or was handed a completion newer than its task. -/
theorem wp_act (cmd : Cmd σ) (hinv : Inv s.core []) (hr : s.Rep) :
    wp (act code cmd) (fun _ s' => s'.Rep ∧ Steps code (s.config []) (s'.config []))
      (Halts code (s.config [])) s := by
  have single : ∀ {x : Rt σ Unit},
      wp x (fun _ s' => s'.Rep ∧ Step code (s.config []) (s'.config [])) (Soft s.core) s →
      wp x (fun _ s' => s'.Rep ∧ Steps code (s.config []) (s'.config []))
        (Halts code (s.config [])) s := fun h =>
    wp_mono h (fun _ _ h => ⟨h.1, .single h.2⟩) fun _ _ he => .inl (.now he)
  cases cmd with
  | spawn fuel c =>
    simp only [act]
    split
    · rename_i hc
      exact wp_mono (wp_spawn (g := s.config []) (wp_pollFn code fuel) _ [] hinv rfl hr
        fun i hi => .main hc hi) (fun _ _ h => h) fun _ _ he => .inl he
    · exact .inl (.now ⟨rfl, Trails.refl _⟩)
  | submit => exact single (wp_submitAndWait hr)
  | consume => exact single (wp_kernelConsume hr)
  | complete id result flags => exact single (wp_kernelComplete id result flags hr)
  | handle fuel =>
    exact wp_mono (wp_handle fuel hinv hr) (fun _ _ h => ⟨h.1, h.2.steps⟩) fun _ _ he => he
  | free => exact single (wp_freeUnsedSlabSlot hinv hr _)
  | drain fuel =>
    cases fuel with
    | zero => exact .inl (.now ⟨rfl, Trails.refl _⟩)
    | succ n =>
      simp only [act, drainWakeList, wp_bind, wp_get, hr.wakeList, wp_pure]
      exact ⟨hr, .refl⟩

/-! ## Whole runs -/

theorem State.new_spec {base : Nat} (h : State.new base = .ok s) :
    s.Rep ∧ s.heap = [] ∧ s.pending = [] ∧ s.ring.sq = [] ∧ s.ring.inflight = [] ∧ s.ring.cq = [] ∧
      s.runtimeFreeList = [] ∧ s.tasks.get? = fun _ => none := by
  unfold State.new at h
  cases hb : (BufPool.new base 512 512 : Except Fault (BufPool 1)) with
  | error e => simp [hb, bind, Except.bind] at h
  | ok pool =>
    cases ht : (Slab.withCapacity ⟨16, by decide⟩ : Except Fault (Slab TaskPtr)) with
    | error e => simp [hb, ht, bind, Except.bind] at h
    | ok tasks =>
      simp only [hb, ht, bind, Except.bind, pure, Except.pure, Except.ok.injEq] at h
      subst h
      obtain ⟨hslots, -, -, -, hpos⟩ := Slab.withCapacity_spec ht
      refine ⟨⟨?_, hpos, rfl, rfl, rfl⟩, rfl, rfl, rfl, rfl, rfl, rfl, Slab.withCapacity_get? ht⟩
      show tasks.slots.length = _
      rw [hslots, Slab.length_chained hpos, Nat.sub_zero]

theorem inv_new {base : Nat} (h : State.new base = .ok s) : Inv s.core [] := by
  obtain ⟨-, hheap, hp, hsq, hin, hcq, hfree, hget⟩ := State.new_spec h
  have hcell : ∀ q, s.core.cell q = .absent := fun q => by simp [State.core, hheap]
  have hout : s.core.outstanding = [] := by
    show s.pending ++ s.ring.sq ++ s.ring.inflight = []
    rw [hp, hsq, hin]
    rfl
  have hslots : ∀ i, s.core.slots i = none := fun i => congrFun hget i
  refine ⟨⟨fun i q hq => ?_, fun q hq => ?_, fun i q hq => ?_, fun i hi => ?_, ?_,
    fun q _ => hcell q⟩, ⟨fun q hq => ?_, fun q _ => ⟨by simp [hout], rfl⟩, by simp [hout]⟩,
    ⟨by simp [hout], by simp [hout], ?_, ?_, ?_, ?_, ?_⟩, trivial, fun q hq => ?_⟩
  · rw [hslots] at hq
    cases hq
  · rw [hcell] at hq
    cases hq
  · rw [hslots] at hq
    cases hq
  · rw [show s.core.freeList = [] from hfree] at hi
    cases hi
  · rw [show s.core.freeList = [] from hfree]
    exact List.nodup_nil
  · rw [hcell] at hq
    cases hq
  · rw [show s.core.sq = [] from hsq, show s.core.inflight = [] from hin]
    exact fun q hq => absurd hq List.not_mem_nil
  · rw [show s.core.pending = [] from hp]
    exact fun q hq => absurd hq List.not_mem_nil
  · rw [show s.core.cq = [] from hcq]
    exact fun q hq => absurd hq List.not_mem_nil
  · rw [show s.core.cq = [] from hcq]
    exact List.Pairwise.nil
  · rw [show s.core.cq = [] from hcq]
    exact fun q hq => absurd hq List.not_mem_nil
  · have : s.core.spawned = 0 := by simp [State.core, hheap]
    omega

/-- **The accounting invariant holds in every state that a run reaches**, between two commands. -/
theorem RunWith.inv {ok : State σ → State σ → Prop} (h : RunWith code ok s) :
    s.Rep ∧ Inv s.core [] := by
  induction h with
  | new h => exact ⟨(State.new_spec h).1, inv_new h⟩
  | act cmd h ha hok ih =>
    obtain ⟨hrep, hs⟩ := wp_ok (wp_act cmd ih.2 ih.1) ha
    exact ⟨hrep, Inv.steps hs ih.2⟩

/-- A property of configurations that holds at first, that every step keeps, holds in every state
that a run reaches. -/
theorem RunWith.invariant {ok : State σ → State σ → Prop} {P : Config σ → Prop}
    (hnew : ∀ base s, State.new base = .ok s → P (s.config []))
    (hstep : ∀ g g', Inv g.core g.stack → Step code g g' → P g → P g') (h : RunWith code ok s) :
    P (s.config []) := by
  induction h with
  | new h => exact hnew _ _ h
  | act cmd h ha hok ih =>
    obtain ⟨hrep, hinv⟩ := h.inv
    obtain ⟨-, hs⟩ := wp_ok (wp_act cmd hinv hrep) ha
    have := hs.invariant (P := fun g => Inv g.core g.stack ∧ P g)
      (fun g g' hst hg => ⟨Inv.step hst hg.1, hstep g g' hg.1 hst hg.2⟩) ⟨hinv, ih⟩
    exact this.2

end Onlyio
