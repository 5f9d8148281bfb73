import Onlyio.Machine.Simulate

/-!
# What a poll leaves of the other tasks

While the block of one task runs, with everything it spawns, no other task that exists changes: not
its counter, its number, its slot, its future or its log. SQEs are queued for the task that is
polled and for tasks that are born meanwhile, and nothing is taken off the ring.

* `Step.leaves`: one instruction.
* `wp_pollFn_leaves`, **`wp_spawn_leaves`**: a whole poll, and a whole `spawn`, by induction on the
  fuel.
-/

namespace Onlyio

open Lib

variable {σ : Type} {code : Code σ} {s : State σ} {p : TaskPtr}

/-- From `g` to `g'` the block of `t` has run, and what it has spawned. -/
structure Leaves (t : TaskPtr) (g g' : Config σ) : Prop where
  spawned : g.core.spawned ≤ g'.core.spawned
  cell : ∀ q, q < g.core.spawned → q ≠ t → g'.core.cell q = g.core.cell q
  fut : ∀ q, q < g.core.spawned → q ≠ t → g'.fut q = g.fut q
  slots : ∀ i q, g.core.slots i = some q → g'.core.slots i = some q
  sq : g'.core.sq = g.core.sq
  inflight : g'.core.inflight = g.core.inflight
  cq : g'.core.cq = g.core.cq
  pending : ∃ new, g'.core.pending = g.core.pending ++ new ∧
    ∀ q ∈ new, q.caller.task = t ∨ g.core.spawned ≤ q.caller.task

namespace Leaves

variable {t : TaskPtr} {g g1 g2 : Config σ}

theorem trans (h1 : Leaves t g g1) (h2 : Leaves t g1 g2) : Leaves t g g2 := by
  obtain ⟨new1, hp1, hc1⟩ := h1.pending
  obtain ⟨new2, hp2, hc2⟩ := h2.pending
  refine ⟨h1.spawned.trans h2.spawned, fun q hq hne => ?_, fun q hq hne => ?_,
    fun i q hi => h2.slots i q (h1.slots i q hi), h2.sq.trans h1.sq, h2.inflight.trans h1.inflight,
    h2.cq.trans h1.cq, new1 ++ new2, by rw [hp2, hp1, List.append_assoc], fun q hq => ?_⟩
  · rw [h2.cell q (hq.trans_le h1.spawned) hne, h1.cell q hq hne]
  · rw [h2.fut q (hq.trans_le h1.spawned) hne, h1.fut q hq hne]
  · rcases List.mem_append.mp hq with hq | hq
    · exact hc1 q hq
    · exact (hc2 q hq).imp_right h1.spawned.trans

/-- Only the task itself is written to. -/
theorem of_effect {c c' : Core} {k : Nat} {new : List Sqe} {evs : List Event} {st st' : List Frame}
    (h : Effect t c c' k new evs) (fut : TaskPtr → AsyncBlock σ) (b : AsyncBlock σ) :
    Leaves t ⟨c, fut, st⟩ ⟨c', Function.update fut t b, st'⟩ where
  spawned := Nat.le_of_eq h.spawned.symm
  cell q _ hne := h.others q hne
  fut _ _ hne := Function.update_of_ne hne ..
  slots _ _ hi := h.slots ▸ hi
  sq := h.sq
  inflight := h.inflight
  cq := h.cq
  pending := ⟨new, h.pending, fun q hq => .inl (h.mine q hq).1⟩

/-- Everything that a new task does leaves alone what another one may change. -/
theorem of_new (h : Leaves g.core.spawned g g1) (t : TaskPtr) : Leaves t g g1 := by
  obtain ⟨new, hp, hc⟩ := h.pending
  refine ⟨h.spawned, fun q hq _ => h.cell q hq (Nat.ne_of_lt hq),
    fun q hq _ => h.fut q hq (Nat.ne_of_lt hq), h.slots, h.sq, h.inflight, h.cq, new, hp,
    fun q hq => .inr ?_⟩
  rcases hc q hq with heq | hge
  · exact Nat.le_of_eq heq.symm
  · exact hge

end Leaves

/-- One instruction of the block on top. -/
theorem Step.leaves {c c' : Core} {fut fut' : TaskPtr → AsyncBlock σ} {role : Role}
    {r : Option (Poll Unit)} {st : List Frame}
    (h : Step code ⟨c, fut, ⟨p, role, none⟩ :: st⟩ ⟨c', fut', ⟨p, role, r⟩ :: st⟩) :
    Leaves p ⟨c, fut, []⟩ ⟨c', fut', []⟩ := by
  cases h with
  | locals => exact .of_effect (.refl p c) fut _
  | poll hf hx hv h =>
    obtain ⟨k, new, evs, -, heff⟩ := h.effect
    exact .of_effect (heff.trans (.logAt _ p rfl)) fut _
  | suspend => exact .of_effect (.refl p c) fut _
  | ret =>
    refine ⟨Nat.le_refl _, fun q _ hne => ?_, fun q _ hne => Function.update_of_ne hne ..,
      fun _ _ hi => hi, rfl, rfl, rfl, [], (List.append_nil _).symm, fun _ hq => nomatch hq⟩
    simp [Core.logAt, Core.modifyCell, Function.update_of_ne hne]

/-- What `pollFn` leaves of the other tasks, with a given fuel. -/
def PollLeaves (code : Code σ) (n : Nat) : Prop :=
  ∀ (p : TaskPtr) (role : Role) (st : List Frame) (s : State σ),
    Inv s.core (⟨p, role, none⟩ :: st) → s.Rep →
    wp (pollFn code n p) (fun _ s' => Leaves p (s.config []) (s'.config [])) (fun _ _ => True) s

/-- **A whole `spawn`.** The context is restored, and no task that existed is written to. -/
theorem wp_spawn_leaves {n : Nat} (hpoll : PollLeaves code n) (b : AsyncBlock σ) (st : List Frame)
    {g : Config σ} (hg : Inv g.core g.stack) (hr : s.Rep)
    (hstep : ∀ i, s.core.slots i = none → Step code g
      ⟨s.core.enter i b.locals, Function.update s.fut s.core.spawned b,
        ⟨s.core.spawned, .spawn s.core.current, none⟩ :: st⟩) :
    wp (spawn (pollFn code n) b)
      (fun _ s' => Leaves s.core.spawned (s.config []) (s'.config []) ∧
        s'.core.current = s.core.current)
      (fun _ _ => True) s := by
  refine wp_spawn_of_poll b hr (fun _ _ _ => trivial) fun i s2 hi hrep2 hc2 hf2 => ?_
  have hst := hstep i hi
  have hcfg : s2.config (⟨s.core.spawned, .spawn s.core.current, none⟩ :: st) =
      ⟨s.core.enter i b.locals, Function.update s.fut s.core.spawned b,
        ⟨s.core.spawned, .spawn s.core.current, none⟩ :: st⟩ := by
    simp only [State.config, hc2, hf2]
  rw [← hcfg] at hst
  have hinv2 : Inv s2.core (⟨s.core.spawned, .spawn s.core.current, none⟩ :: st) := Inv.step hst hg
  -- the new task enters a free slot
  have h2 : Leaves s.core.spawned (s.config []) (s2.config []) := by
    simp only [State.config, hc2, hf2]
    refine ⟨Nat.le_succ _, fun q hq hne => Function.update_of_ne hne .., fun q hq hne =>
      Function.update_of_ne hne .., fun j q hj => ?_, rfl, rfl, rfl, [], (List.append_nil _).symm,
      fun _ hq => absurd hq List.not_mem_nil⟩
    have hne : j ≠ i := by
      rintro rfl
      rw [show s.core.slots j = some q from hj] at hi
      cases hi
    show Function.update s.core.slots i _ j = _
    rw [Function.update_of_ne hne]
    exact hj
  rw [wp_bind]
  refine wp_mono (wp_and (wp_pollFn code n _ _ st s2 hinv2 hrep2) (hpoll _ _ st s2 hinv2 hrep2))
    (fun r s3 hpost => ?_) fun _ _ _ => trivial
  obtain ⟨⟨hrep3, hs3⟩, h3⟩ := hpost
  refine wp_mono (wp_spawnEnd code (hinv2.steps hs3) hrep3) (fun _ s4 hpost => ?_) fun _ _ _ =>
    trivial
  obtain ⟨_, hst4⟩ := hpost
  -- its two handles are given back
  have hend : s4.core = { s3.core.release s.core.spawned 2 with current := s.core.current } ∧
      s4.fut = dropFut s3.core s.core.spawned 2 s3.fut := by
    simp only [State.config] at hst4
    generalize s4.core = c4 at hst4 ⊢
    generalize s4.fut = f4 at hst4 ⊢
    cases hst4 with
    | spawnEnd => exact ⟨rfl, rfl⟩
  have h4 : Leaves s.core.spawned (s3.config []) (s4.config []) := by
    simp only [State.config, hend.1, hend.2]
    have hp := release_pending s3.core s.core.spawned 2
    refine ⟨Nat.le_of_eq (release_spawned ..).symm, fun q hq hne => release_cell_ne hne,
      fun q hq hne => ?_, fun j q hj => ?_, ?_, ?_, ?_, [], ?_, fun _ hq =>
      absurd hq List.not_mem_nil⟩
    · show dropFut s3.core s.core.spawned 2 s3.fut q = s3.fut q
      unfold dropFut
      split
      · exact Function.update_of_ne hne ..
      · rfl
    · show (s3.core.release s.core.spawned 2).slots j = some q
      unfold Core.release
      split <;> exact hj
    · show (s3.core.release s.core.spawned 2).sq = _
      unfold Core.release
      split <;> rfl
    · show (s3.core.release s.core.spawned 2).inflight = _
      unfold Core.release
      split <;> rfl
    · show (s3.core.release s.core.spawned 2).cq = _
      unfold Core.release
      split <;> rfl
    · rw [List.append_nil]
      exact hp
  exact ⟨(h2.trans h3).trans h4, by rw [hend.1]⟩

/-- **A whole poll.** -/
theorem wp_pollFn_leaves (code : Code σ) (n : Nat) : PollLeaves code n := by
  induction n with
  | zero => exact fun p role st s _ _ => trivial
  | succ n ih =>
    intro p role st s hinv hr
    simp only [pollFn, wp_bind]
    refine wp_mono (wp_stepCode role st (hinv.running hr))
      (fun ctl s1 h1 => ?_) fun _ _ _ => trivial
    cases ctl with
    | fin r => exact Step.leaves h1.2
    | again =>
      refine wp_mono (ih p role st s1 (Inv.step h1.2 hinv) h1.1)
        (fun r s2 h2 => ?_) fun _ _ _ => trivial
      exact (Step.leaves h1.2).trans h2
    | spawn b =>
      obtain ⟨b', hrw⟩ := Spawning.rewrites h1
      have hrep1 := hrw.rep hr
      have hsp := wp_and
        (wp_spawn (wp_pollFn code n) b (⟨p, role, none⟩ :: st) hinv hrw.core.symm hrep1
          (Spawning.enters h1))
        (wp_spawn_leaves ih b (⟨p, role, none⟩ :: st) hinv hrep1 (Spawning.enters h1))
      simp only [wp_bind]
      refine wp_mono hsp (fun _ s2 hpost => ?_) fun _ _ _ => trivial
      obtain ⟨⟨hrep2, hs2⟩, h2, _⟩ := hpost
      have hinv2 : Inv s2.core (⟨p, role, none⟩ :: st) := Inv.steps hs2 hinv
      refine wp_mono (ih p role st s2 hinv2 hrep2) (fun r s3 h3 => ?_) fun _ _ _ => trivial
      -- the captured values leave the locals of `p`, the child runs, and `p` goes on
      have hmoved : Leaves p (s.config []) (s1.config []) := by
        simp only [State.config, hrw.core, hrw.fut]
        exact .of_effect (.refl p s.core) s.fut _
      exact (hmoved.trans (h2.of_new p)).trans h3

end Onlyio
