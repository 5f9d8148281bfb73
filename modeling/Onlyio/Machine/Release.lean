import Onlyio.Machine.Blocks

/-!
# `Task::release` and the creation of a task

* `wp_release`: a release takes one reference, and at zero drops the future, gives the allocation
  back and queues the slot. With a reference to give back it never underflows.
* `wp_releases`: the one or two releases that end a poll are one step of the abstract machine.
* `wp_spawnBegin`: `spawn` up to the first poll puts a new task in an empty slot.
-/

namespace Onlyio

open Lib

variable {σ : Type} {s : State σ} {p : TaskPtr} {l : List TaskInfo}

/-! ## Releases of the abstract machine -/

section Core

variable {c : Core} {n : Nat}

theorem release_current_comm (c : Core) (cur : TaskInfo) (p : TaskPtr) (n : Nat) :
    Core.release { c with current := cur } p n = { c.release p n with current := cur } := by
  by_cases h : c.frees p n = true
  · rw [release_of_frees h, release_of_frees (c := { c with current := cur }) h]
    rfl
  · rw [release_of_not_frees h, release_of_not_frees (c := { c with current := cur }) h]
    rfl

/-- Two releases in a row, of which the first does not free. -/
theorem release_release (h : 1 < (c.cell p).refCounter) :
    (c.release p 1).release p n = c.release p (n + 1) := by
  have h1 : ¬ c.frees p 1 = true := by simp [Core.frees]; omega
  have hc := release_of_not_frees h1
  have hrc : ((c.release p 1).cell p).refCounter = (c.cell p).refCounter - 1 := by
    rw [hc, Core.modifyCell_self]
  by_cases hf : c.frees p (n + 1) = true
  · have heq : (c.cell p).refCounter = n + 1 := by simpa [Core.frees] using hf
    have hf' : (c.release p 1).frees p n = true := by simp [Core.frees, hrc, heq]
    rw [release_of_frees hf', release_of_frees hf, hc]
    simp [Core.modifyCell]
  · have hne : (c.cell p).refCounter ≠ n + 1 := by simpa [Core.frees] using hf
    have hf' : ¬ (c.release p 1).frees p n = true := by simp [Core.frees, hrc]; omega
    rw [release_of_not_frees hf', release_of_not_frees hf, hc]
    simp [Core.modifyCell, Nat.sub_sub, Nat.add_comm]

theorem dropFut_dropFut {fut : TaskPtr → AsyncBlock σ} (h : 1 < (c.cell p).refCounter) :
    dropFut (c.release p 1) p n (dropFut c p 1 fut) = dropFut c p (n + 1) fut := by
  have h1 : ¬ c.frees p 1 = true := by simp [Core.frees]; omega
  have hrc : ((c.release p 1).cell p).refCounter = (c.cell p).refCounter - 1 := by
    rw [release_of_not_frees h1, Core.modifyCell_self]
  have hiff : (c.release p 1).frees p n = c.frees p (n + 1) := by
    simp only [Core.frees, hrc, decide_eq_decide]
    omega
  unfold dropFut
  rw [hiff]
  simp [h1]

/-- A reference taken and given back. -/
theorem bump_release (c : Core) (p : TaskPtr) (n : Nat) :
    (c.bump p 1).release p (n + 1) = c.release p n := by
  have hrc : ((c.bump p 1).cell p).refCounter = (c.cell p).refCounter + 1 := by
    rw [Core.bump, Core.modifyCell_self]
  have hiff : (c.bump p 1).frees p (n + 1) = c.frees p n := by
    simp [Core.frees, hrc]
  by_cases hf : c.frees p n = true
  · rw [release_of_frees (hiff.trans hf), release_of_frees hf]
    simp [Core.bump, Core.modifyCell]
  · rw [release_of_not_frees (by rw [hiff]; exact hf), release_of_not_frees hf]
    simp [Core.bump, Core.modifyCell]

theorem trails_modifyCell {f : Cell → Cell} (evs : List Event)
    (hf : (f (c.cell p)).log = (c.cell p).log ++ evs) (he : ∀ e ∈ evs, e.isPoll = false) :
    Trails c (c.modifyCell p f) := by
  intro q
  by_cases hq : q = p
  · subst hq
    exact ⟨evs, by rw [Core.modifyCell_self, hf], he⟩
  · exact ⟨[], by rw [Core.modifyCell_ne _ _ hq, List.append_nil], by simp⟩

theorem trails_release (c : Core) (p : TaskPtr) (n : Nat) : Trails c (c.release p n) := by
  unfold Core.release
  split
  · exact trails_modifyCell (c := c) (f := fun cl =>
      { cl with refCounter := 0, freed := true, log := cl.log ++ [.dropped] })
      [.dropped] rfl (by simp [Event.isPoll])
  · exact trails_modifyCell [] (by simp) (by simp)

end Core

/-! ## `Task::release` -/

/-- The abstract state and the futures after a release. -/
structure Releases (s : State σ) (p : TaskPtr) (n : Nat) (s' : State σ) : Prop where
  core : s'.core = s.core.release p n
  fut : s'.fut = dropFut s.core p n s.fut
  rep : ∀ {l : List TaskInfo}, s.Rep l → s'.Rep l

theorem wp_release (hlive : (s.core.cell p).freed = false) (hrc : 0 < (s.core.cell p).refCounter) :
    wp (release p) (fun _ s' => Releases s p 1 s') (Soft s.core) s := by
  obtain ⟨raw, hraw, hfreed⟩ := State.exists_raw hlive
  rw [State.core_cell hraw] at hrc
  have hpos : 0 < raw.refCounter.toNat := hrc
  have hne : raw.refCounter ≠ 0 := fun h0 => by rw [h0] at hpos; exact absurd hpos (by decide)
  have hsub : (raw.refCounter - 1).toNat = raw.refCounter.toNat - 1 :=
    UInt16.toNat_sub_of_le _ _ (UInt16.le_iff_toNat_le.mpr hpos)
  have hzero : raw.refCounter - 1 = 0 ↔ raw.refCounter.toNat = 1 := by
    rw [← UInt16.toNat_inj, hsub]
    have : (0 : UInt16).toNat = 0 := rfl
    omega
  have hfrees : s.core.frees p 1 = decide (raw.refCounter.toNat = 1) := by
    rw [Core.frees, State.core_cell hraw]
    rfl
  simp only [release_eq, releaseRef, wp_bind, wp_deref hraw hfreed, hne, if_false, wp_writeRaw]
  rw [wp_ite]
  -- the counter goes down
  have h1 : Becomes s (s.core.modifyCell p fun cl => { cl with refCounter := cl.refCounter - 1 })
      (s.modifyRaw p fun r => { r with refCounter := raw.refCounter - 1 }) :=
    becomes_modifyRaw hraw (by simp [RawTask.cell, hsub]) rfl
  generalize s.modifyRaw p (fun r => { r with refCounter := raw.refCounter - 1 }) = s1 at h1 ⊢
  refine ⟨fun h0 => ?_, fun h0 => ?_⟩
  · -- the last reference: the future is dropped and the allocation given back
    have hf : s.core.frees p 1 = true := by rw [hfrees]; simpa using hzero.mp h0
    have hlive1 : (s1.core.cell p).freed = false := by
      rw [h1.core, Core.modifyCell_self]
      exact hlive
    have htr1 : Trails s.core s1.core := h1.core ▸ trails_modifyCell [] (by simp) (by simp)
    simp only [dropFn, wp_bind]
    refine wp_derefLocals hlive1 fun raw1 _ => ?_
    refine wp_mono (wp_writeFut (fun b => { b with locals := [] }) hlive1 _) (fun _ s2 h2 => ?_)
      fun _ _ he => he
    refine wp_mono ((silent_dropLocals _).soft s2) (fun _ s3 h3 => ?_)
      fun _ _ he => he.trans (h2.core ▸ htr1)
    have hcore3 : s3.core = s1.core := h3.core.trans h2.core
    have hfut3 : s3.fut = Function.update s1.fut p { s1.fut p with locals := [] } :=
      h3.fut.trans h2.fut
    obtain ⟨raw3, hraw3, hfreed3⟩ := State.exists_raw (s := s3) (p := p) (by rw [hcore3, hlive1])
    simp only [logEvent, wp_writeRaw]
    have h4 := becomes_logEvent hraw3 .dropped
    generalize s3.modifyRaw p (fun r => { r with log := r.log ++ [Event.dropped] }) = s4 at h4 ⊢
    obtain ⟨raw4, hraw4, hfreed4⟩ := State.exists_raw (s := s4) (p := p) (by
      rw [h4.core, Core.logAt, Core.modifyCell_self]
      exact (congrArg (fun c : Core => (c.cell p).freed) hcore3).trans hlive1)
    simp only [wp_deref hraw4 hfreed4]
    have h5 := becomes_modifyRaw (f := fun r => { r with freed := true })
      (g := fun cl => { cl with freed := true }) hraw4 rfl rfl
    have hidx : raw4.slabIdx = (s.core.cell p).slabIdx := by
      have : (s4.core.cell p).slabIdx = raw4.slabIdx := by rw [State.core_cell hraw4]; rfl
      rw [← this, h4.core, Core.logAt, Core.modifyCell_self]
      show (s3.core.cell p).slabIdx = _
      rw [hcore3, h1.core, Core.modifyCell_self]
    generalize s4.modifyRaw p (fun r => { r with freed := true }) = s5 at h5 ⊢
    have hcore5 : s5.core = s.core.modifyCell p fun cl =>
        { cl with refCounter := 0, freed := true, log := cl.log ++ [.dropped] } := by
      rw [h5.core, h4.core, hcore3, h1.core]
      have hrc1 : (s.core.cell p).refCounter - 1 = 0 := by
        rw [State.core_cell hraw]
        show raw.refCounter.toNat - 1 = 0
        rw [hzero.mp h0]
      simp [Core.logAt, Core.modifyCell, hrc1]
    have hfut5 : s5.fut = dropFut s.core p 1 s.fut := by
      rw [h5.fut, h4.fut, hfut3, h1.fut, dropFut, if_pos hf]
    have hrep5 : ∀ {l : List TaskInfo}, s.Rep l → s5.Rep l := fun hr =>
      h5.rep (h4.rep (h3.rep (h2.rep (h1.rep hr))))
    have hlist5 : s5.core.freeList = s.core.freeList := by rw [hcore5]; rfl
    cases hi : raw4.slabIdx with
    | none =>
      refine ⟨?_, hfut5, hrep5⟩
      rw [hcore5, release_of_frees hf, ← hidx, hi]
      simp [Core.modifyCell]
    | some i =>
      rw [wp_modify]
      refine ⟨?_, hfut5, fun hr => ⟨(hrep5 hr).sized, (hrep5 hr).pos, (hrep5 hr).entries,
        (hrep5 hr).wakeList, (hrep5 hr).stack⟩⟩
      rw [release_of_frees hf, ← hidx, hi]
      refine Eq.trans
        (congrArg (fun c : Core => { c with freeList := c.freeList ++ [i] }) hcore5) ?_
      rfl
  · have hf : ¬ s.core.frees p 1 = true := by
      rw [hfrees]
      simpa using fun h => h0 (hzero.mpr h)
    refine ⟨?_, ?_, h1.rep⟩
    · rw [h1.core, release_of_not_frees hf]
    · rw [h1.fut, dropFut, if_neg hf]

/-- The releases that end a poll: two for a `spawn` or a last completion, else one. -/
theorem wp_releases (b : Bool) (hlive : (s.core.cell p).freed = false)
    (hrc : (if b then 2 else 1) ≤ (s.core.cell p).refCounter) :
    wp (do
        if b then release p
        release p) (fun _ s' => Releases s p (if b then 2 else 1) s') (Soft s.core) s := by
  cases b with
  | false =>
    simp only [Bool.false_eq_true, if_false]
    exact wp_release hlive hrc
  | true =>
    simp only [if_true, wp_bind] at hrc ⊢
    refine wp_mono (wp_release hlive (Nat.lt_of_lt_of_le Nat.two_pos hrc)) (fun _ s1 h1 => ?_)
      fun _ _ he => he
    have hnf : ¬ s.core.frees p 1 = true := by simp [Core.frees]; omega
    have hcell : s1.core.cell p =
        { s.core.cell p with refCounter := (s.core.cell p).refCounter - 1 } := by
      rw [h1.core, release_of_not_frees hnf, Core.modifyCell_self]
    refine wp_mono (wp_release (by rw [hcell]; exact hlive)
      (by rw [hcell]; exact Nat.sub_pos_of_lt hrc)) (fun _ s2 h2 => ?_)
      fun _ _ he => he.trans (h1.core ▸ trails_release _ _ _)
    refine ⟨?_, ?_, h2.rep ∘ h1.rep⟩
    · rw [h2.core, h1.core, release_release hrc]
    · rw [h2.fut, h1.core, h1.fut, dropFut_dropFut hrc]

/-! ## `spawn`, up to the first poll -/

theorem softErrors_insert (t : Slab TaskPtr) (p : TaskPtr) : SoftErrors (t.insert p) := by
  have hfill : ∀ t : Slab TaskPtr, SoftErrors (t.fill p) := fun t => by
    unfold Slab.fill
    split
    · exact softErrors_error rfl
    · rename_i slot _
      cases slot with
      | task q => exact softErrors_error rfl
      | idx w =>
        simp only [SlabSlot.nextFree]
        split
        · rename_i e he
          split at he
          · cases he
          · exact softErrors_error (Except.error.inj he ▸ rfl)
        · exact softErrors_ok _
  unfold Slab.insert
  split
  · unfold Slab.growth
    dsimp only
    split
    · rename_i e he
      split at he
      · exact softErrors_error (Except.error.inj he ▸ rfl)
      · cases he
    · exact hfill _
  · exact hfill _

theorem getElem?_snoc {α : Type} (l : List α) (a : α) (q : Nat) :
    (l ++ [a])[q]? = if q = l.length then some a else l[q]? := by
  grind

/-- The cell that `Task::new` makes. -/
def Cell.new (L : List (Option Value)) : Cell :=
  { refCounter := 1, syscallNb := 0, slabIdx := none, freed := false, log := [.spawned L] }

/-- A task is allocated. -/
def Core.create (c : Core) (L : List (Option Value)) : Core :=
  { c with cell := Function.update c.cell c.spawned (.new L), spawned := c.spawned + 1 }

/-- A task is put in slot `i`. -/
def Core.place (c : Core) (p : TaskPtr) (i : SlabIdx) : Core :=
  { c.modifyCell p (fun cl => { cl with slabIdx := some i }) with
    slots := Function.update c.slots i (some p) }

theorem Core.create_self (c : Core) (L : List (Option Value)) :
    (c.create L).cell c.spawned = .new L := Function.update_self ..

theorem Core.create_ne (c : Core) (L : List (Option Value)) {q : TaskPtr} (h : q ≠ c.spawned) :
    (c.create L).cell q = c.cell q := Function.update_of_ne h ..

theorem wp_taskNew (b : AsyncBlock σ) (E : Fault → State σ → Prop) :
    wp (taskNew b)
      (fun t s' => t = s.core.spawned ∧
        s'.core = s.core.create b.locals ∧
        s'.fut = Function.update s.fut s.core.spawned b ∧ ∀ {l : List TaskInfo}, s.Rep l →
        s'.Rep l) E s := by
  simp only [taskNew, wp_bind, wp_get, wp_modify, wp_pure]
  refine ⟨rfl, ?_, ?_, fun hr => ⟨hr.sized, hr.pos, hr.entries, hr.wakeList, hr.stack⟩⟩
  · simp only [State.core, Core.create, List.length_append, List.length_cons, List.length_nil,
      Nat.zero_add, Core.mk.injEq, true_and, and_true]
    funext q
    rw [Function.update_apply, getElem?_snoc]
    by_cases hq : q = s.heap.length
    · rw [if_pos hq, if_pos hq]
      rfl
    · rw [if_neg hq, if_neg hq]
  · funext q
    simp only [State.fut, State.core]
    rw [Function.update_apply, getElem?_snoc]
    by_cases hq : q = s.heap.length
    · rw [if_pos hq, if_pos hq]
    · rw [if_neg hq, if_neg hq]
      rfl

theorem wp_tasksInsert (hlive : (s.core.cell p).freed = false) (hr : s.Rep l) :
    wp (tasksInsert p)
      (fun i s' => s.core.slots i = none ∧
        s'.core = s.core.place p i ∧ s'.fut = s.fut ∧ s'.Rep l) (Soft s.core) s := by
  simp only [tasksInsert, wp_bind, wp_get]
  cases hins : s.tasks.insert p with
  | error e => exact ⟨softErrors_insert _ _ e hins, Trails.refl _⟩
  | ok r =>
    obtain ⟨i, tasks⟩ := r
    obtain ⟨hfresh, hmap, hsized, hle, -⟩ := Slab.insert_spec hins hr.pos hr.sized
    obtain ⟨raw, hraw, -⟩ := State.exists_raw hlive
    simp only [liftExcept, wp_pure, wp_modify, wp_writeRaw]
    have h1 := becomes_modifyRaw (s := { s with tasks }) (p := p)
      (f := fun raw => { raw with slabIdx := some i })
      (g := fun cl => { cl with slabIdx := some i }) hraw rfl rfl
    refine ⟨hfresh, ?_, h1.fut, hsized, Nat.lt_of_lt_of_le hr.pos hle, hr.entries,
      hr.wakeList, hr.stack⟩
    rw [h1.core]
    have : ({ s with tasks } : State σ).core =
        { s.core with slots := Function.update s.core.slots i (some p) } := by
      simp only [State.core, hmap]
    rw [this]
    rfl

/-- `spawn` up to the first poll: the new task is in an empty slot, with two handles. -/
theorem wp_spawnBegin (b : AsyncBlock σ) (hr : s.Rep l) :
    wp (spawnBegin b)
      (fun r s' => r = (s.core.spawned, s.core.current) ∧ s'.Rep l ∧
        s'.fut = Function.update s.fut s.core.spawned b ∧
        ∃ i, s.core.slots i = none ∧ s'.core = { s.core.enter i b.locals with
          cell := Function.update s.core.cell s.core.spawned
            { Cell.new b.locals with refCounter := 2, slabIdx := some i } }) (Soft s.core) s := by
  simp only [spawnBegin, wp_bind]
  refine wp_mono (wp_taskNew b _) (fun t s1 hpost => ?_) fun _ _ he => he
  obtain ⟨ht, hc1, hf1, hr1⟩ := hpost
  subst ht
  have hcell1 : s1.core.cell s.core.spawned = .new b.locals := by rw [hc1, Core.create_self]
  have htr1 : Trails s.core s1.core := fun q => by
    by_cases hq : q = s.core.spawned
    · subst hq
      refine ⟨[.spawned b.locals], ?_, by simp [Event.isPoll]⟩
      have : s.core.cell s.core.spawned = .absent := by simp [State.core]
      rw [hcell1, this]
      rfl
    · exact ⟨[], by rw [hc1, Core.create_ne _ _ hq, List.append_nil], by simp⟩
  simp only [taskClone, wp_bind, wp_pure]
  refine wp_mono (wp_incRc (by rw [hcell1]; rfl)) (fun _ s2 hpost => ?_) fun _ _ he => he.trans htr1
  obtain ⟨h2, _⟩ := hpost
  have hcell2 : s2.core.cell s.core.spawned = { Cell.new b.locals with refCounter := 2 } := by
    rw [h2.core, Core.bump, Core.modifyCell_self, hcell1]
    rfl
  refine wp_mono (wp_tasksInsert (by rw [hcell2]; rfl) (h2.rep (hr1 hr)))
    (fun i s3 hpost => ?_)
    fun _ _ he => he.trans (htr1.trans (h2.core ▸ (Effect.bump _ _ _).trails))
  obtain ⟨hslot, hc3, hf3, hr3⟩ := hpost
  have hcur : s3.currentTask = s.core.current := by
    have : s3.core.current = s.core.current := by rw [hc3, h2.core, hc1]; rfl
    exact this
  simp only [wp_get, wp_modify]
  refine ⟨by rw [hcur], ⟨hr3.sized, hr3.pos, hr3.entries, hr3.wakeList, hr3.stack⟩, ?_, i, ?_, ?_⟩
  · show s3.fut = _
    rw [hf3, h2.fut, hf1]
  · have : s2.core.slots i = s.core.slots i := by rw [h2.core, hc1]; rfl
    rw [← this]
    exact hslot
  · refine Eq.trans (congrArg (fun c : Core => { c with current := .initialPoll i }) hc3) ?_
    rw [Core.place, Core.modifyCell, hcell2, h2.core, hc1]
    simp [Core.bump, Core.modifyCell, Core.create, Core.enter, Cell.new]

end Onlyio
