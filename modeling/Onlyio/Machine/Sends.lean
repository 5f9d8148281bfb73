import Onlyio.Machine.Silent

/-!
# The `send_*` functions refine the submissions of the abstract machine

`Running s p` is what the accounting invariant gives for the task whose block runs: it is live, and
the current slot holds it. Under it, each function of the runtime that a block calls does to the
abstract state what its counterpart on `Core` does, or fails softly.
-/

namespace Onlyio

open Lib

variable {σ : Type}

/-- Whether an event is the start of a poll. -/
def Event.isPoll : Event → Bool
  | .poll _ => true
  | _ => false

/-- The logs only grew, and no poll started. -/
def Trails (c c' : Core) : Prop :=
  ∀ p, ∃ evs, (c'.cell p).log = (c.cell p).log ++ evs ∧ ∀ e ∈ evs, e.isPoll = false

theorem Trails.refl (c : Core) : Trails c c := fun _ => ⟨[], by simp, by simp⟩

theorem Trails.trans {c c1 c2 : Core} (h1 : Trails c c1) (h2 : Trails c1 c2) : Trails c c2 := by
  intro p
  obtain ⟨e1, hl1, hp1⟩ := h1 p
  obtain ⟨e2, hl2, hp2⟩ := h2 p
  refine ⟨e1 ++ e2, by rw [hl2, hl1, List.append_assoc], fun e he => ?_⟩
  rcases List.mem_append.mp he with he | he
  · exact hp1 e he
  · exact hp2 e he

theorem Effect.trails {p : TaskPtr} {c c' : Core} {k : Nat} {new : List Sqe} {evs : List Event}
    (h : Effect p c c' k new evs) : Trails c c' := by
  intro q
  by_cases hq : q = p
  · subst hq
    refine ⟨evs, h.log, fun e he => ?_⟩
    have := h.inner e he
    cases e <;> first | rfl | cases this
  · exact ⟨[], by rw [h.others q hq, List.append_nil], by simp⟩

/-- A soft fault, in a state whose logs only grew. -/
def Soft (c : Core) (e : Fault) (s' : State σ) : Prop := e.soft = true ∧ Trails c s'.core

theorem Soft.trans {c c1 : Core} {e : Fault} {s' : State σ} (h1 : Trails c c1)
    (h : Soft c1 e s') : Soft c e s' := ⟨h.1, h1.trans h.2⟩

/-- The abstract state became `c'`, the futures stayed. -/
structure Becomes (s : State σ) (c' : Core) (s' : State σ) : Prop where
  core : s'.core = c'
  fut : s'.fut = s.fut
  rep : ∀ {l : List TaskInfo}, s.Rep l → s'.Rep l

theorem Same.becomes {s s' : State σ} (h : Same s s') : Becomes s s.core s' :=
  ⟨h.core, h.fut, h.rep⟩

theorem Becomes.trans {s s1 s2 : State σ} {c1 c2 : Core} (h1 : Becomes s c1 s1)
    (h2 : Becomes s1 c2 s2) : Becomes s c2 s2 :=
  ⟨h2.core, h2.fut.trans h1.fut, fun hr => h2.rep (h1.rep hr)⟩

theorem Silent.soft {α : Type} {x : Rt σ α} (hx : Silent x) (s : State σ) :
    wp x (fun _ s' => Same s s') (Soft s.core) s :=
  wp_mono (hx s) (fun _ _ h => h) fun _ _ h => ⟨h.1, h.2.core ▸ Trails.refl _⟩

/-- The block of `p` runs. -/
structure Running (s : State σ) (p : TaskPtr) (l : List TaskInfo := []) : Prop where
  live : (s.core.cell p).freed = false
  slot : s.core.slots s.core.current.tag.taskIdx = some p
  rep : s.Rep l

theorem Running.of_becomes {s s' : State σ} {p : TaskPtr} {c' : Core} {k : Nat} {new : List Sqe}
    {evs : List Event} {l : List TaskInfo} (h : Running s p l) (hb : Becomes s c' s')
    (he : Effect p s.core c' k new evs) : Running s' p l := by
  refine ⟨?_, ?_, hb.rep h.rep⟩
  · rw [hb.core, he.freed]
    exact h.live
  · rw [hb.core, he.slots, he.idx]
    exact h.slot

/-! ## `task.rs` -/

section Task

variable {s : State σ} {p : TaskPtr}

theorem wp_deref {raw : RawTask σ} (h : s.heap[p]? = some raw) (hf : raw.freed = false)
    (Q : RawTask σ → State σ → Prop) (E : Fault → State σ → Prop) :
    wp (deref p) Q E s ↔ Q raw s := by
  simp [deref, h, hf]

/-- A handle that is followed leads to an allocation that is not freed. -/
theorem wp_deref_live {Q : RawTask σ → State σ → Prop} {E : Fault → State σ → Prop}
    (hE : E .dangling s) (h : ∀ raw, s.heap[p]? = some raw → raw.freed = false → Q raw s) :
    wp (deref p) Q E s := by
  simp only [deref, wp_bind, wp_get]
  cases hraw : s.heap[p]? with
  | none => exact hE
  | some raw =>
    cases hf : raw.freed with
    | true => simpa [hf] using hE
    | false => simpa [hf] using h raw hraw hf

theorem wp_writeRaw (f : RawTask σ → RawTask σ) (Q : Unit → State σ → Prop)
    (E : Fault → State σ → Prop) : wp (writeRaw p f) Q E s ↔ Q () (s.modifyRaw p f) := Iff.rfl

theorem becomes_modifyRaw {raw : RawTask σ} {f : RawTask σ → RawTask σ} {g : Cell → Cell}
    (h : s.heap[p]? = some raw) (hc : (f raw).cell = g raw.cell)
    (hf : (f raw).future = raw.future) :
    Becomes s (s.core.modifyCell p g) (s.modifyRaw p f) := by
  refine ⟨?_, State.fut_modifyRaw_eq h hf, fun hr => hr.modifyRaw p f⟩
  rw [State.core_modifyRaw h, hc, Core.modifyCell, State.core_cell h]

theorem becomes_logEvent {raw : RawTask σ} (h : s.heap[p]? = some raw) (e : Event) :
    Becomes s (s.core.logAt p e)
      (s.modifyRaw p fun raw => { raw with log := raw.log ++ [e] }) :=
  becomes_modifyRaw (g := fun cl => { cl with log := cl.log ++ [e] }) h rfl rfl

theorem wp_bumpRc {overflow mask : Panic} (count : UInt16) (hlive : (s.core.cell p).freed = false)
    (ho : (Fault.panic overflow).soft = true) (hm : (Fault.panic mask).soft = true) :
    wp (bumpRc overflow mask p count)
      (fun _ s' => count.toNat ≠ 0 ∧ Becomes s (s.core.bump p count.toNat) s' ∧
        s'.buffer = s.buffer)
      (Soft s.core) s := by
  obtain ⟨raw, hraw, hfreed⟩ := State.exists_raw hlive
  simp only [bumpRc, wp_bind, wp_deref hraw hfreed]
  rw [wp_ite]
  refine ⟨fun hlt => ?_, fun _ => ⟨ho, Trails.refl _⟩⟩
  rw [wp_ite]
  refine ⟨fun _ => ⟨hm, Trails.refl _⟩, fun hne => ?_⟩
  rw [wp_writeRaw]
  refine ⟨fun h0 => hne ?_, ?_, rfl⟩
  · have : count = 0 := UInt16.toNat_inj.mp h0
    rw [this, UInt16.add_zero]
  · refine becomes_modifyRaw (g := fun cl => { cl with refCounter := cl.refCounter + count.toNat })
      hraw ?_ rfl
    simp only [RawTask.cell, Cell.mk.injEq, and_true]
    rw [UInt16.toNat_add, Nat.mod_eq_of_lt hlt]

theorem wp_incRc (hlive : (s.core.cell p).freed = false) :
    wp (incRc p) (fun _ s' => Becomes s (s.core.bump p 1) s' ∧ s'.buffer = s.buffer)
      (Soft s.core) s :=
  wp_mono (wp_bumpRc 1 hlive rfl rfl) (fun _ _ h => h.2) fun _ _ h => h

/-- A write to the stored number. -/
theorem wp_mapNb (f : UInt16 → UInt16) (hlive : (s.core.cell p).freed = false)
    (E : Fault → State σ → Prop) :
    wp (do
        let nb := (← deref p).syscallNb
        writeRaw p fun raw => { raw with syscallNb := f nb })
      (fun _ s' => Becomes s (s.core.mapNb p f) s' ∧ s'.buffer = s.buffer) E s := by
  obtain ⟨raw, hraw, hfreed⟩ := State.exists_raw hlive
  simp only [wp_bind, wp_deref hraw hfreed, wp_writeRaw]
  exact ⟨becomes_modifyRaw (g := fun cl => { cl with syscallNb := f cl.syscallNb }) hraw rfl rfl,
    rfl⟩

end Task

/-! ## `runtime.rs` -/

section Runtime

variable {s : State σ} {p : TaskPtr} {l : List TaskInfo}

theorem Slab.index_of_get? {α : Type} {t : Slab α} {i : SlabIdx} {a : α} (h : t.get? i = some a)
    (hs : t.slots.length = t.len.toNat) : t.index i = .ok a := by
  have hslot := Slab.get?_eq_some.mp h
  have hlt := (List.getElem?_eq_some_iff.mp hslot).1
  have hlen : ¬ t.len ≤ i := by
    rw [UInt32.le_iff_toNat_le]
    omega
  simp only [Slab.index, hlen, if_false, hslot]

theorem Slab.get?_of_index {α : Type} {t : Slab α} {i : SlabIdx} {a : α} (h : t.index i = .ok a) :
    t.get? i = some a := by
  unfold Slab.index at h
  split at h
  · cases h
  · split at h
    · cases h
    · rename_i hslot
      obtain rfl := Except.ok.inj h
      exact Slab.get?_eq_some.mpr hslot
    · split at h <;> cases h

theorem wp_tasksIndex {i : SlabIdx} (h : s.core.slots i = some p) (hr : s.Rep l)
    {Q : TaskPtr → State σ → Prop} {E : Fault → State σ → Prop} (hQ : Q p s) :
    wp (tasksIndex i) Q E s := by
  simp only [tasksIndex, wp_bind, wp_get, Slab.index_of_get? h hr.sized]
  exact hQ

theorem wp_currentUdata (Q : UInt64 → State σ → Prop) (E : Fault → State σ → Prop) :
    wp (currentUdata : Rt σ UInt64) Q E s ↔ Q s.core.current.payload.intoUserData s := Iff.rfl

theorem wp_setCurrentTaskMultiple (E : Fault → State σ → Prop) :
    wp (setCurrentTaskMultiple : Rt σ Unit)
      (fun _ s' => Becomes s s.core.setMultipleCurrent s' ∧ s'.buffer = s.buffer) E s :=
  ⟨⟨rfl, rfl, fun h => ⟨h.sized, h.pos, h.entries, h.wakeList, h.stack⟩⟩, rfl⟩

theorem wp_pushPending (me : Caller) (op : SqeOp) (ud : UInt64) (wide : Bool)
    (hlive : (s.core.cell me.task).freed = false) (E : Fault → State σ → Prop) :
    wp (pushPending me op ud wide)
      (fun _ s' => Becomes s (s.core.push me op ud wide) s' ∧ s'.buffer = s.buffer) E s := by
  obtain ⟨raw, hraw, -⟩ := State.exists_raw hlive
  simp only [pushPending, wp_bind, wp_get, logEvent, wp_writeRaw, wp_modify]
  have hb := becomes_logEvent hraw (.submit (s.core.nextEntry me op ud wide)
    (s.core.rivals me.task (s.core.nextEntry me op ud wide).payload.syscallNb))
  refine ⟨⟨?_, hb.fut, fun hr => ⟨hr.sized, hr.pos, hr.entries, hr.wakeList, hr.stack⟩⟩, rfl⟩
  unfold Core.push
  exact congrArg (fun c : Core => { c with
    pending := c.pending ++ [s.core.nextEntry me op ud wide], nextSqe := c.nextSqe + 1 }) hb.core

/-- The single-shot `send_*` functions. -/
theorem wp_sendOne (me : Caller) (op : BufPool 1 → SqeOp) (h : Running s me.task l) :
    wp (sendOne me op) (fun _ s' => Becomes s (s.core.sendOne me (op s.buffer)) s') (Soft s.core)
      s := by
  simp only [sendOne, wp_bind, wp_currentUdata, wp_get]
  refine wp_tasksIndex h.slot h.rep ?_
  refine wp_mono (wp_incRc h.live) (fun _ s1 hpost => ?_) fun _ _ he => he
  obtain ⟨h1, hbuf⟩ := hpost
  have hrun := h.of_becomes h1 (.bump _ _ _)
  rw [← hbuf]
  refine wp_mono (wp_pushPending me _ _ false hrun.live _) (fun _ s2 hpost => ?_) fun _ _ he => he
  obtain ⟨h2, _⟩ := hpost
  have := h1.trans h2
  rwa [h1.core] at this

/-- `send_recv_multishot` and `send_accept_multishot`. -/
theorem wp_sendMultishot (me : Caller) (op : SqeOp) (h : Running s me.task l) :
    wp (sendMultishot me op) (fun _ s' => Becomes s (s.core.sendMultishot me op) s') (Soft s.core)
      s := by
  have he0 := Effect.setMultipleCurrent s.core me.task
  have he1 := he0.trans (.mapNb _ _ setMultiple)
  simp only [sendMultishot, wp_bind]
  refine wp_mono (wp_setCurrentTaskMultiple _) (fun _ s0 hpost => ?_) fun _ _ he => he
  obtain ⟨h0, _⟩ := hpost
  have hrun0 := h.of_becomes h0 he0
  simp only [wp_currentUdata, wp_get]
  refine wp_tasksIndex hrun0.slot hrun0.rep ?_
  refine wp_mono (wp_mapNb setMultiple hrun0.live _) (fun _ s1 hpost => ?_) fun _ _ he => he
  obtain ⟨h1, _⟩ := hpost
  rw [h0.core] at h1
  have hrun1 := h.of_becomes (h0.trans h1) he1
  refine wp_tasksIndex (p := me.task) ?_ hrun1.rep ?_
  · rw [← hrun1.slot, h1.core, ← h0.core]
    rfl
  refine wp_mono (wp_incRc hrun1.live) (fun _ s2 hpost => ?_)
    fun _ _ he => he.trans (h1.core ▸ he1.trails)
  obtain ⟨h2, _⟩ := hpost
  have hrun2 := hrun1.of_becomes h2 (.bump _ _ _)
  refine wp_mono (wp_pushPending me op _ false hrun2.live _) (fun _ s3 hpost => ?_) fun _ _ he => he
  obtain ⟨h3, _⟩ := hpost
  rw [h2.core, h1.core, h0.core] at h3
  exact ((h0.trans h1).trans h2).trans h3

/-- `send_commit_write`. -/
theorem wp_sendCommitWrite (me : Caller) (ptr : Nat) (fdIdx len : UInt32) (bufId : UInt16)
    (h : Running s me.task l) :
    wp (sendCommitWrite me ptr fdIdx len bufId)
      (fun _ s' => Becomes s (s.core.sendCommit me (.writeFixed fdIdx ptr len bufId)) s')
      (Soft s.core) s := by
  have he0 := Effect.setMultipleCurrent s.core me.task
  have hshape : (sendCommitWrite me ptr fdIdx len bufId : Rt σ Unit) =
      setCurrentTaskMultiple >>= fun _ => sendOne me fun _ => .writeFixed fdIdx ptr len bufId := rfl
  rw [hshape, wp_bind]
  refine wp_mono (wp_setCurrentTaskMultiple _) (fun _ s0 ⟨h0, _⟩ => ?_) fun _ _ he => he
  have hrun0 := h.of_becomes h0 he0
  refine wp_mono (wp_sendOne me _ hrun0) (fun _ s1 h1 => ?_)
    fun _ _ he => he.trans (h0.core ▸ he0.trails)
  rw [h0.core] at h1
  exact h0.trans h1

theorem wp_wBufferClone (b : WBuffer) :
    wp (wBufferClone b : Rt σ WBuffer) (fun b' s' => b' = b ∧ Same s s') (Soft s.core) s := by
  refine wp_mono (wp_and ((silent_wBufferClone b).soft s)
    (?_ : wp (wBufferClone b) (fun b' _ => b' = b) (fun _ _ => True) s))
    (fun _ _ h => ⟨h.2, h.1⟩) fun _ _ h => h.1
  simp only [wBufferClone, wp_bind, wp_get]
  cases hc : b.clone s.buffer with
  | error e => trivial
  | ok r =>
    obtain ⟨b', pool⟩ := r
    show b' = b
    unfold WBuffer.clone at hc
    cases hrc : s.buffer.rcAt b.absIdx with
    | error e => simp [hrc, bind, Except.bind] at hc
    | ok rc =>
      simp only [hrc, bind, Except.bind] at hc
      split at hc
      · split at hc
        · exact (Prod.mk.inj (Except.ok.inj hc)).1.symm
        · cases hc
      · cases hc

theorem wp_wBufferWrite (b : WBuffer) (fdIdx len : UInt32) (ud : UInt64) :
    wp (wBufferWrite b fdIdx len ud : Rt σ WriteFixed)
      (fun e s' => e = { fd := fdIdx, ptr := b.ptr, len, bufIndex := b.index, userData := ud } ∧
        Same s s') (Soft s.core) s := by
  refine wp_mono (wp_and ((silent_wBufferWrite b fdIdx len ud).soft s)
    (?_ : wp (wBufferWrite b fdIdx len ud) (fun e _ => e =
      { fd := fdIdx, ptr := b.ptr, len, bufIndex := b.index, userData := ud })
      (fun _ _ => True) s)) (fun _ _ h => ⟨h.2, h.1⟩) fun _ _ h => h.1
  simp only [wBufferWrite, wp_bind, wp_get, WBuffer.write]
  cases b.drop s.buffer with
  | error e => trivial
  | ok pool => rfl

/-- The loop of `send_multiple_write`. -/
theorem wp_sendMultipleLoop (me : Caller) (payload : UserDataPayload) (b : WBuffer) (len : UInt32)
    (wide : Bool) (fds : List UInt32) :
    ∀ (s : State σ) (idx : Nat), Running s me.task l →
      payload.taskIdx = s.core.current.tag.taskIdx →
      wp (sendMultipleLoop me payload b len wide fds idx)
        (fun _ s' => Becomes s (s.core.pushAll me payload b.ptr b.index len wide fds idx) s')
        (Soft s.core) s := by
  induction fds with
  | nil => exact fun s _ _ _ => (Same.refl s).becomes
  | cons fd fds ih =>
    intro s idx h hidx
    simp only [sendMultipleLoop, wp_bind]
    refine wp_mono (wp_wBufferClone b) (fun b' s1 hpost => ?_) fun _ _ he => he
    obtain ⟨hb, h1⟩ := hpost
    subst hb
    refine wp_mono (wp_wBufferWrite b' fd len _) (fun e s2 hpost => ?_)
      fun _ _ he => h1.core ▸ he
    obtain ⟨he, h2⟩ := hpost
    subst he
    have hb2 := (h1.trans h2).becomes
    have hrun2 : Running s2 me.task l := h.of_becomes hb2 (.refl _ _)
    refine wp_mono (wp_pushPending me _ _ wide hrun2.live _) (fun _ s3 hpost => ?_)
      fun _ _ he => he
    obtain ⟨h3, _⟩ := hpost
    rw [hb2.core] at h3
    have heff := Effect.push s.core me (.writeFixed fd b'.ptr len b'.index)
      { payload with responseGen := UInt16.ofNat idx } wide hidx
    have hb3 := hb2.trans h3
    refine wp_mono (ih s3 (idx + 1) (h.of_becomes hb3 heff) ?_) (fun _ s4 h4 => ?_)
      fun _ _ he => he.trans (hb3.core ▸ heff.trails)
    · rw [hb3.core, heff.idx]
      exact hidx
    · rw [hb3.core] at h4
      exact hb3.trans h4

/-- `send_multiple_write`; an empty fan-out fails in `add_rc`. -/
theorem wp_sendMultipleWrite (me : Caller) (fds : List UInt32) (b : WBuffer) (len : UInt32)
    (h : Running s me.task l) :
    wp (sendMultipleWrite me fds b len)
      (fun _ s' => fds.length % 2 ^ 16 ≠ 0 ∧ Becomes s (s.core.fanOut me b len fds) s')
      (Soft s.core) s := by
  obtain ⟨new, evs, -, -, -, -, hcur, -, heff⟩ := Effect.pushAll me
    s.core.current.payload b.ptr b.index len (65535 < fds.length) fds (c := s.core) (i := 0) rfl
  simp only [sendMultipleWrite, wp_bind, wp_get]
  refine wp_mono (wp_sendMultipleLoop me _ b len _ fds s 0 h rfl) (fun _ s1 h1 => ?_)
    fun _ _ he => he
  have hrun1 := h.of_becomes h1 heff
  refine wp_tasksIndex (p := me.task) ?_ hrun1.rep ?_
  · rw [h1.core]
    exact (congrFun heff.slots _).trans h.slot
  refine wp_mono (wp_bumpRc _ hrun1.live rfl rfl) (fun _ s2 hpost => ?_)
    fun _ _ he => he.trans (h1.core ▸ heff.trails)
  obtain ⟨hne, h2, _⟩ := hpost
  have hcount : (UInt16.ofNat fds.length).toNat = fds.length % 2 ^ 16 := UInt16.toNat_ofNat'
  rw [hcount] at hne h2
  rw [h1.core] at h2
  refine wp_mono ((silent_wBufferDrop b).soft s2) (fun _ s3 h3 => ⟨hne, ?_⟩) fun _ _ he => ?_
  · have h3 := h3.becomes
    rw [h2.core] at h3
    exact (h1.trans h2).trans h3
  · refine he.trans ?_
    rw [h2.core]
    exact (heff.trans (.bump _ _ _)).trails

end Runtime

end Onlyio
