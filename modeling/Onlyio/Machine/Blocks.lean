import Onlyio.Machine.Polls

/-!
# One instruction of a block refines one step

The locals of a block live in its future, so the instructions that only move values rewrite the
future and nothing else (`Rewrites`). **`wp_stepCode`** puts the instructions together: what
`stepCode` does is one step of the abstract machine, or the beginning of a spawn.
-/

namespace Onlyio

open Lib

variable {σ : Type} {s : State σ} {p : TaskPtr} {l : List TaskInfo}

/-- The future of `p` became `b`; nothing else changed but buffers. -/
structure Rewrites (s : State σ) (p : TaskPtr) (b : AsyncBlock σ) (s' : State σ) : Prop where
  core : s'.core = s.core
  fut : s'.fut = Function.update s.fut p b
  rep : ∀ {l : List TaskInfo}, s.Rep l → s'.Rep l

theorem Rewrites.trans {s1 s2 : State σ} {b1 b2 : AsyncBlock σ} (h1 : Rewrites s p b1 s1)
    (h2 : Rewrites s1 p b2 s2) : Rewrites s p b2 s2 := by
  refine ⟨h2.core.trans h1.core, ?_, fun hr => h2.rep (h1.rep hr)⟩
  rw [h2.fut, h1.fut, Function.update_idem]

theorem Same.rewrites {s1 : State σ} (h : Same s s1) (p : TaskPtr) : Rewrites s p (s.fut p) s1 :=
  ⟨h.core, by rw [h.fut, Function.update_eq_self], h.rep⟩

theorem Rewrites.fut_self {s1 : State σ} {b : AsyncBlock σ} (h : Rewrites s p b s1) :
    s1.fut p = b := by
  rw [h.fut, Function.update_self]

theorem Rewrites.running {s1 : State σ} {b : AsyncBlock σ} (h : Rewrites s p b s1)
    (hr : Running s p l) : Running s1 p l :=
  ⟨h.core ▸ hr.live, h.core ▸ hr.slot, h.rep hr.rep⟩

/-- A write to the future of a live task. -/
theorem wp_writeFut (g : AsyncBlock σ → AsyncBlock σ) (hlive : (s.core.cell p).freed = false)
    (E : Fault → State σ → Prop) :
    wp (writeRaw p fun raw => { raw with future := g raw.future })
      (fun _ s' => Rewrites s p (g (s.fut p)) s') E s := by
  obtain ⟨raw, hraw, -⟩ := State.exists_raw hlive
  rw [wp_writeRaw]
  refine ⟨State.core_modifyRaw_eq hraw rfl, ?_, fun hr => hr.modifyRaw p _⟩
  rw [State.fut_modifyRaw hraw, State.fut_eq hraw]

theorem wp_writeLocals (f : List (Option Value) → List (Option Value))
    (hlive : (s.core.cell p).freed = false) (E : Fault → State σ → Prop) :
    wp (writeLocals p f)
      (fun _ s' => Rewrites s p { s.fut p with locals := f (s.fut p).locals } s') E s :=
  wp_writeFut (fun b => { b with locals := f b.locals }) hlive E

theorem wp_goto (k : σ) (hlive : (s.core.cell p).freed = false) (E : Fault → State σ → Prop) :
    wp (goto p k) (fun ctl s' => ctl = .again ∧ Rewrites s p { s.fut p with code := some k } s') E
      s := by
  simp only [goto, wp_bind, wp_pure, true_and]
  exact wp_writeFut (fun b => { b with code := some k }) hlive E

theorem wp_derefLocals (hlive : (s.core.cell p).freed = false)
    {Q : RawTask σ → State σ → Prop} {E : Fault → State σ → Prop}
    (hQ : ∀ raw, raw.future = s.fut p → Q raw s) : wp (deref p) Q E s := by
  obtain ⟨raw, hraw, hfreed⟩ := State.exists_raw hlive
  rw [wp_deref hraw hfreed]
  exact hQ raw (State.fut_eq hraw).symm

theorem wp_getLocal (v : Var) (hlive : (s.core.cell p).freed = false)
    {Q : Value → State σ → Prop}
    (hQ : ∀ val, (s.fut p).locals[v]? = some (some val) → Q val s) :
    wp (getLocal p v) Q (Soft s.core) s := by
  simp only [getLocal, wp_bind]
  refine wp_derefLocals hlive fun raw hraw => ?_
  rw [hraw]
  cases hv : (s.fut p).locals[v]? with
  | none => exact soft_same (.refl s) rfl
  | some o =>
    cases o with
    | none => exact soft_same (.refl s) rfl
    | some val => exact hQ val hv

theorem wp_takeLocal (v : Var) (hlive : (s.core.cell p).freed = false) :
    wp (takeLocal p v)
      (fun val s' => (s.fut p).locals[v]? = some (some val) ∧
        Rewrites s p { s.fut p with locals := (s.fut p).locals.set v none } s')
      (Soft s.core) s := by
  simp only [takeLocal, wp_bind]
  refine wp_getLocal v hlive fun val hval => ?_
  exact wp_mono (wp_writeLocals _ hlive _) (fun _ _ h => ⟨hval, h⟩) fun _ _ he => he

theorem wp_addLocal (val : Value) (hlive : (s.core.cell p).freed = false)
    (E : Fault → State σ → Prop) :
    wp (addLocal p val)
      (fun v s' => v = (s.fut p).locals.length ∧
        Rewrites s p { s.fut p with locals := (s.fut p).locals ++ [some val] } s') E s := by
  simp only [addLocal, wp_bind]
  refine wp_derefLocals hlive fun raw hraw => ?_
  rw [hraw]
  exact wp_mono (wp_writeLocals _ hlive _) (fun _ _ h => ⟨rfl, h⟩) fun _ _ he => he

/-- The captured values of a spawned block. -/
theorem wp_takeMoved (moved : List (Kind × Var)) :
    ∀ s : State σ, (s.core.cell p).freed = false →
      wp (takeMoved p moved)
        (fun taken s' => ∃ L', Moves (s.fut p).locals moved taken L' ∧
          Rewrites s p { s.fut p with locals := L' } s')
        (Soft s.core) s := by
  induction moved with
  | nil =>
    intro s _
    exact ⟨_, .nil _, (Same.refl s).rewrites p⟩
  | cons kv moved ih =>
    obtain ⟨kind, v⟩ := kv
    intro s hlive
    simp only [takeMoved, wp_bind]
    refine wp_mono (wp_takeLocal v hlive) (fun val s1 hpost => ?_) fun _ _ he => he
    obtain ⟨hval, h1⟩ := hpost
    rw [wp_ite]
    refine ⟨fun hk => ?_, fun _ => ⟨rfl, h1.core ▸ Trails.refl _⟩⟩
    rw [wp_bind]
    refine wp_mono (ih s1 (h1.core ▸ hlive)) (fun taken s2 hpost => ?_)
      fun _ _ he => h1.core ▸ he
    obtain ⟨L', hm, h2⟩ := hpost
    rw [h1.fut_self] at hm h2
    exact ⟨L', .cons val hval hk hm, h1.trans h2⟩

theorem wp_makeValue (op : Op) (hlive : (s.core.cell p).freed = false) :
    wp (makeValue p op)
      (fun val s' => ∃ L', Makes (s.fut p).locals op val L' ∧
        Rewrites s p { s.fut p with locals := L' } s')
      (Soft s.core) s := by
  have hsame := (Same.refl s).rewrites p
  cases op with
  | accept fd => exact ⟨_, .accept fd, hsame⟩
  | read fd => exact ⟨_, .read fd, hsame⟩
  | write fd bufId len => exact ⟨_, .write fd bufId len, hsame⟩
  | connect addr => exact ⟨_, .connect addr, hsame⟩
  | commit buf len =>
    simp only [makeValue, wp_bind]
    refine wp_mono (wp_takeLocal buf hlive) (fun val s1 hpost => ?_) fun _ _ he => he
    obtain ⟨hval, h1⟩ := hpost
    cases val with
    | rwBuffer b => exact ⟨_, .commit buf len b hval, h1⟩
    | _ => exact ⟨rfl, h1.core ▸ Trails.refl _⟩
  | writeMultiple buf fds len =>
    simp only [makeValue, wp_bind]
    refine wp_mono (wp_takeLocal buf hlive) (fun val s1 hpost => ?_) fun _ _ he => he
    obtain ⟨hval, h1⟩ := hpost
    cases val with
    | wBuffer b => exact ⟨_, .writeMultiple buf fds len b hval, h1⟩
    | _ => exact ⟨rfl, h1.core ▸ Trails.refl _⟩

/-- Polling a local, with what is known of polling its value. -/
theorem wp_pollLocal_and (v : Var) (h : Running s p l) {P : Value → Out × Value → Prop}
    (hP : ∀ val, wp (pollValue ⟨p, v⟩ val) (fun r _ => P val r) (fun _ _ => True) s) :
    wp (pollLocal p v)
      (fun r s' => ∃ val val' out c', (s.fut p).locals[v]? = some (some val) ∧ P val (out, val') ∧
        Polled ⟨p, v⟩ s.core val out val' c' ∧ r = out.resp (s.fut p).locals.length ∧
        s'.core = c'.logAt p (.call v val s.core.current
          (s.core.rivals p s.core.current.tag.syscallNb) r) ∧
        s'.fut = Function.update s.fut p { s.fut p with
          locals := out.bind ((s.fut p).locals.set v (some val')) } ∧ s'.Rep l)
      (Soft s.core) s := by
  simp only [pollLocal, wp_bind]
  refine wp_getLocal v h.live fun val hval => ?_
  rw [wp_get]
  refine wp_mono (wp_and (wp_pollValue ⟨p, v⟩ val h) (hP val)) (fun r s1 hpost => ?_)
    fun _ _ he => he.1
  obtain ⟨⟨c', h1, hpoll⟩, hP⟩ := hpost
  obtain ⟨out, val'⟩ := r
  obtain ⟨k, new, evs, -, heff⟩ := hpoll.effect
  have hrun1 := h.of_becomes h1 heff
  refine wp_mono (wp_writeLocals _ hrun1.live _) (fun _ s2 h2 => ?_) fun _ _ he => he
  rw [h1.fut] at h2
  -- binding what was handed back writes the locals once more at most
  have hbind : wp (bindOut p out) (fun r s3 => r = out.resp (s.fut p).locals.length ∧
      Rewrites s1 p { s.fut p with locals := out.bind ((s.fut p).locals.set v (some val')) } s3)
      (Soft s.core) s2 := by
    cases out with
    | pending => exact ⟨rfl, h2⟩
    | ready r => exact ⟨rfl, h2⟩
    | buffer b =>
      simp only [bindOut, wp_bind, wp_pure]
      refine wp_mono (wp_addLocal _ (h2.core ▸ hrun1.live) _) (fun v' s3 hpost => ?_)
        fun _ _ he => he
      obtain ⟨hv', h3⟩ := hpost
      rw [h2.fut_self] at hv' h3
      refine ⟨?_, h2.trans h3⟩
      simp only [hv', Out.resp, List.length_set]
  refine wp_mono hbind (fun r s3 hpost => ?_) fun _ _ he => he
  obtain ⟨hr, h3⟩ := hpost
  have hrun3 := h3.running hrun1
  obtain ⟨raw, hraw, -⟩ := State.exists_raw hrun3.live
  have h4 := becomes_logEvent hraw (.call v val s.core.current
    (s.core.rivals p s.core.current.tag.syscallNb) r)
  rw [h3.core, h1.core] at h4
  simp only [logEvent, wp_writeRaw, wp_pure]
  exact ⟨val, val', out, c', hval, hP, hpoll, hr, h4.core, h4.fut.trans (by rw [h3.fut, h1.fut]),
    h4.rep hrun3.rep⟩

/-- Polling a local. -/
theorem wp_pollLocal (v : Var) (h : Running s p l) :
    wp (pollLocal p v)
      (fun r s' => ∃ val val' out c', (s.fut p).locals[v]? = some (some val) ∧
        Polled ⟨p, v⟩ s.core val out val' c' ∧ r = out.resp (s.fut p).locals.length ∧
        s'.core = c'.logAt p (.call v val s.core.current
          (s.core.rivals p s.core.current.tag.syscallNb) r) ∧
        s'.fut = Function.update s.fut p { s.fut p with
          locals := out.bind ((s.fut p).locals.set v (some val')) } ∧ s'.Rep l)
      (Soft s.core) s := by
  refine wp_mono (wp_pollLocal_and v h fun _ => wp_trivial _ s)
    (fun r s' hpost => ?_) fun _ _ he => he
  obtain ⟨val, val', out, c', hval, -, hrest⟩ := hpost
  exact ⟨val, val', out, c', hval, hrest⟩

/-! ## One instruction -/

/-- The block of `p` is about to spawn `b`. -/
def Spawning (code : Code σ) (p : TaskPtr) (s : State σ) (b : AsyncBlock σ) (s' : State σ) :
    Prop :=
  ∃ x L child moved k taken L', s.fut p = ⟨some x, L⟩ ∧ code x = .spawn child moved k ∧
    Moves L moved taken L' ∧ b = ⟨some child, taken⟩ ∧ Rewrites s p ⟨some k, L'⟩ s'

/-- The child enters a free slot, above its parent. -/
theorem Spawning.enters {code : Code σ} {s1 : State σ} {b : AsyncBlock σ} {role : Role}
    {st : List Frame} (h : Spawning code p s b s1) (i : SlabIdx) (hi : s1.core.slots i = none) :
    Step code (s.config (⟨p, role, none⟩ :: st))
      ⟨s1.core.enter i b.locals, Function.update s1.fut s1.core.spawned b,
        ⟨s1.core.spawned, .spawn s1.core.current, none⟩ :: ⟨p, role, none⟩ :: st⟩ := by
  obtain ⟨x, L, child, moved, k, taken, L', hf, hx, hm, rfl, hrw⟩ := h
  rw [hrw.core] at hi
  rw [hrw.fut, hrw.core]
  exact .spawn hf hx hm hi

/-- Only the locals of the parent have changed so far. -/
theorem Spawning.rewrites {code : Code σ} {s1 : State σ} {b : AsyncBlock σ}
    (h : Spawning code p s b s1) : ∃ b', Rewrites s p b' s1 := by
  obtain ⟨x, L, child, moved, k, taken, L', -, -, -, -, hrw⟩ := h
  exact ⟨_, hrw⟩

/-- What one instruction does to the abstract machine. -/
def StepTo (code : Code σ) (p : TaskPtr) (role : Role) (st : List Frame) (s : State σ)
    (l : List TaskInfo) : Ctl σ → State σ → Prop
  | .again, s' => s'.Rep l ∧
    Step code (s.config (⟨p, role, none⟩ :: st)) (s'.config (⟨p, role, none⟩ :: st))
  | .fin r, s' => s'.Rep l ∧
    Step code (s.config (⟨p, role, none⟩ :: st)) (s'.config (⟨p, role, some r⟩ :: st))
  | .spawn b, s' => Spawning code p s b s'

section Instructions

variable {code : Code σ} {role : Role} {st : List Frame} {x : σ} {L : List (Option Value)}

/-- An instruction that only touches the locals, then goes on at `y`. -/
theorem wp_goto_locals {s1 : State σ} {y : σ} {L' : List (Option Value)} (h : Running s p l)
    (hf : s.fut p = ⟨some x, L⟩) (hstep : LocalStep L (code x) y L')
    (h1 : Rewrites s p ⟨some x, L'⟩ s1) :
    wp (goto p y) (StepTo code p role st s l) (Soft s.core) s1 := by
  have hrun1 := h1.running h
  refine wp_mono (wp_goto y hrun1.live _) (fun ctl s2 ⟨hctl, h2⟩ => ?_) fun _ _ he => he
  subst hctl
  rw [h1.fut_self] at h2
  have h12 := h1.trans h2
  refine ⟨h12.rep h.rep, ?_⟩
  simp only [State.config, h12.core, h12.fut]
  exact .locals hf hstep

/-- `finish`: the locals are dropped and the block is over. -/
theorem wp_finish (h : Running s p l) (hf : s.fut p = ⟨some x, L⟩) (hx : code x = .ret) :
    wp (finish p) (fun _ s' => StepTo code p role st s l (.fin (.ready ())) s')
    (Soft s.core) s := by
  obtain ⟨raw, hraw, hfreed⟩ := State.exists_raw h.live
  have hnb : s.rivals p raw.syscallNb = s.core.rivals p (s.core.stored p) := by
    rw [Core.stored, State.core_cell hraw]
    rfl
  simp only [finish, wp_bind, wp_deref hraw hfreed, wp_get, hnb]
  refine wp_mono (wp_writeFut (fun _ => ⟨none, []⟩) h.live _) (fun _ s1 h1 => ?_) fun _ _ he => he
  refine wp_mono ((silent_dropLocals _).soft s1) (fun _ s2 h2 => ?_) fun _ _ he => h1.core ▸ he
  have hrun1 := h1.running h
  have hlive2 : (s2.core.cell p).freed = false := by rw [h2.core]; exact hrun1.live
  obtain ⟨raw2, hraw2, -⟩ := State.exists_raw hlive2
  have h3 := becomes_logEvent hraw2 (.ready (s.core.rivals p (s.core.stored p)))
  simp only [logEvent, wp_writeRaw]
  refine ⟨h3.rep (h2.rep hrun1.rep), ?_⟩
  simp only [State.config, h3.core, h3.fut, h2.core, h2.fut, h1.core, h1.fut]
  exact .ret hf hx

/-- **One instruction of the running block.** -/
theorem wp_stepCode (role : Role) (st : List Frame) (h : Running s p l) :
    wp (stepCode code p) (StepTo code p role st s l) (Soft s.core) s := by
  simp only [stepCode, wp_bind]
  refine wp_derefLocals h.live fun raw hraw => ?_
  rw [hraw]
  cases hf : s.fut p with
  | mk o L =>
    cases o with
    | none => exact soft_same (.refl s) rfl
    | some x =>
      dsimp only
      have hsame : Rewrites s p ⟨some x, L⟩ s := hf ▸ (Same.refl s).rewrites p
      have hLoc : (s.fut p).locals = L := by rw [hf]
      cases hx : code x with
      | ret =>
        simp only [wp_bind, wp_pure]
        exact wp_finish h hf hx
      | suspend k =>
        simp only [wp_bind, wp_pure]
        refine wp_mono (wp_goto k h.live _) (fun _ s1 hpost => ?_) fun _ _ he => he
        obtain ⟨_, h1⟩ := hpost
        refine ⟨h1.rep h.rep, ?_⟩
        rw [hf] at h1
        simp only [State.config, h1.core, h1.fut]
        exact .suspend hf hx
      | make op k =>
        simp only [wp_bind]
        refine wp_mono (wp_makeValue op h.live) (fun val s1 hpost => ?_) fun _ _ he => he
        obtain ⟨L', hm, h1⟩ := hpost
        rw [hf] at hm h1
        refine wp_mono (wp_addLocal val (h1.core ▸ h.live) _) (fun v s2 hpost => ?_)
          fun _ _ he => he
        obtain ⟨hv, h2⟩ := hpost
        rw [h1.fut_self] at hv h2
        subst hv
        exact wp_goto_locals h hf (hx ▸ .make hm) (h1.trans h2)
      | makeStream op k =>
        simp only [wp_bind]
        refine wp_mono (wp_addLocal op.value h.live _) (fun v s1 hpost => ?_) fun _ _ he => he
        obtain ⟨hv, h1⟩ := hpost
        rw [hf] at hv h1
        subst hv
        exact wp_goto_locals h hf (hx ▸ .makeStream op k) h1
      | poll v k =>
        simp only [wp_bind]
        refine wp_mono (wp_pollLocal v h)
          (fun r s1 hpost => ?_) fun _ _ he => he
        obtain ⟨val, val', out, c', hv, hp, hr, hc1, hf1, hrep1⟩ := hpost
        rw [hLoc] at hv hr hf1
        obtain ⟨kk, new, evs, -, heff⟩ := hp.effect
        have hlive1 : (s1.core.cell p).freed = false := by
          rw [hc1, (Effect.logAt c' p (e := .call v val s.core.current _ r) rfl).freed, heff.freed]
          exact h.live
        refine wp_mono (wp_goto (k r) hlive1 _) (fun ctl s2 hpost => ?_) fun _ _ he => he
        obtain ⟨hctl, h2⟩ := hpost
        subst hctl
        rw [show s1.fut p = _ by rw [hf1, Function.update_self]] at h2
        refine ⟨h2.rep hrep1, ?_⟩
        simp only [State.config, h2.core, hc1, h2.fut, hf1, Function.update_idem]
        subst hr
        exact .poll hf hx hv hp
      | drop v k =>
        simp only [wp_bind]
        refine wp_mono (wp_takeLocal v h.live) (fun val s1 hpost => ?_) fun _ _ he => he
        obtain ⟨hv, h1⟩ := hpost
        rw [hf] at hv h1
        refine wp_mono ((silent_dropValue val).soft s1) (fun _ s2 h2 => ?_)
          fun _ _ he => h1.core ▸ he
        have h2 := h2.rewrites p
        rw [h1.fut_self] at h2
        exact wp_goto_locals h hf (hx ▸ .drop v k val hv) (h1.trans h2)
      | spawn child moved k =>
        simp only [wp_bind, wp_pure]
        refine wp_mono (wp_takeMoved moved s h.live) (fun taken s1 hpost => ?_)
          fun _ _ he => he
        obtain ⟨L', hm, h1⟩ := hpost
        rw [hf] at hm h1
        refine wp_mono (wp_goto k (h1.core ▸ h.live) _) (fun _ s2 hpost => ?_) fun _ _ he => he
        obtain ⟨_, h2⟩ := hpost
        rw [h1.fut_self] at h2
        exact ⟨x, L, child, moved, k, taken, L', hf, hx, hm, rfl, h1.trans h2⟩
      | allocWrite k =>
        simp only [wp_bind]
        refine wp_mono (silent_allocWriteBuffer.soft s) (fun b s1 h1 => ?_) fun _ _ he => he
        have h1 := h1.rewrites p
        refine wp_mono (wp_addLocal (.wBuffer b) (h1.core ▸ h.live) _) (fun v s2 hpost => ?_)
          fun _ _ he => he
        obtain ⟨hv, h2⟩ := hpost
        rw [h1.fut_self, hf] at hv h2
        subst hv
        exact wp_goto_locals h hf (hx ▸ .allocWrite k b) (h1.trans h2)
      | cloneWrite v k =>
        simp only [wp_bind]
        refine wp_getLocal v h.live fun val hv => ?_
        rw [hLoc] at hv
        cases val with
        | wBuffer b =>
          simp only [wp_bind]
          refine wp_mono (wp_wBufferClone b) (fun b' s1 hpost => ?_) fun _ _ he => he
          obtain ⟨hb, h1⟩ := hpost
          subst hb
          have h1 := h1.rewrites p
          refine wp_mono (wp_addLocal (.wBuffer b') (h1.core ▸ h.live) _)
            (fun v' s2 hpost => ?_) fun _ _ he => he
          obtain ⟨hv', h2⟩ := hpost
          rw [h1.fut_self, hf] at hv' h2
          subst hv'
          exact wp_goto_locals h hf (hx ▸ .cloneWrite v k b' hv) (h1.trans h2)
        | _ => exact soft_same (.refl s) rfl

end Instructions

end Onlyio
