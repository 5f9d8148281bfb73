import Onlyio.Machine.Guard
import Onlyio.Machine.Holdings

/-!
# Every command is intact

`Machine.Guard` over whole polls and commands: between two instructions, the items that exist are
those in the locals of the blocks. A command keeps the slab and the pool sound and each buffer in
its slot, and where it fails, it does not fail by a fault of the runtime's own.

* `intact_pollLocal`, `intact_stepCode`: one instruction of a block.
* **`intact_pollFn`**: a poll of a task, with all the spawns inside it.
* **`intact_act`**: every command.
-/

namespace Onlyio

open Lib

variable {σ : Type}

/-- The items in the locals of the blocks. -/
def State.items (s : State σ) : Multiset Item := (s.locals.map itemsOf).sum

/-- The slab and the pool are sound, when the blocks hold everything but `X`. -/
def Holding (base : Nat) (s : State σ) (X : Multiset Item) : Prop :=
  Stock base s.locals s (s.items + X)

/-- The program keeps what the blocks hold in place, and fails without blame. -/
abbrev Intact (base : Nat) {α : Type} (X : Multiset Item) (x : Rt σ α) (Y : α → Multiset Item) :
    Prop :=
  Assured (Holding base) Blameless X x Y

/-! ## Locals -/

section Locals

variable {L : List (Option Value)} {v : Var} {o : Option Value} {s : State σ} {p : TaskPtr}
  {raw : RawTask σ}

theorem itemsOf_append (L : List (Option Value)) (o : Option Value) :
    itemsOf (L ++ [o]) = itemsOf L + slotItems o := by
  unfold itemsOf
  rw [List.map_append, List.sum_append, List.map_singleton, List.sum_singleton]

theorem itemsOf_set (h : L[v]? = some o) (o' : Option Value) :
    itemsOf (L.set v o') + slotItems o = itemsOf L + slotItems o' := by
  have hsum := sum_map_modify h (fun _ => o') slotItems
  rwa [← List.set_eq_modify] at hsum

/-- What the blocks hold besides one value. -/
theorem exists_others {val : Value} (hraw : s.heap[p]? = some raw)
    (hval : raw.future.locals[v]? = some (some val)) : ∃ rest, s.items = rest + val.items ∧
      ∀ val' : Value, ((s.locals.modify p fun L => L.set v (some val')).map itemsOf).sum = rest +
      val'.items := by
  have hL : s.locals[p]? = some raw.future.locals := by
    rw [State.locals, List.getElem?_map, hraw]; rfl
  have hset : ∀ o', ((s.locals.modify p fun L => L.set v o').map itemsOf).sum + val.items =
      s.items + slotItems o' := by
    intro o'
    have hsum := sum_map_modify hL (fun L => L.set v o') itemsOf
    have hone := itemsOf_set hval o'
    refine add_right_cancel (b := itemsOf raw.future.locals) ?_
    rw [add_right_comm, hsum, add_assoc]
    show _ + (itemsOf (raw.future.locals.set v o') + slotItems (some val)) = _
    rw [hone, add_comm (itemsOf raw.future.locals), ← add_assoc]
    rfl
  have hall := hset none
  rw [show slotItems none = 0 from rfl, add_zero] at hall
  refine ⟨_, hall.symm, fun val' => ?_⟩
  refine add_right_cancel (b := val.items) ((hset (some val')).trans ?_)
  rw [add_right_comm, hall]
  rfl

end Locals

section Intact

variable {base : Nat} {X Y F : Multiset Item} {s : State σ} {p : TaskPtr}
  {raw : RawTask σ} {α : Type}

theorem Intact.fail {e : Fault} {Y : α → Multiset Item} (he : e.internal = false) :
    Intact base X (throw e : Rt σ α) Y :=
  Assured.fail fun _ _ _ => .of_outer he

/-- A program that does not touch the locals. -/
theorem intact_of_careful {x : Rt σ α} {Z : α → Multiset Item} (h : ∀ ls, Careful base ls X x Z) :
    Intact base X x Z := by
  intro s F hs
  have hb : Stock base s.locals s (s.items + F + X) := by
    rw [add_assoc]
    exact hs
  refine wp_mono (h s.locals s _ hb) (fun a s' h' => ?_) fun _ _ h => h
  have hitems : s'.items = s.items := by rw [State.items, h'.locals]; rfl
  rw [Holding, hitems, ← add_assoc, h'.locals]
  exact h'

/-- Only the locals are different. -/
theorem Holding.relocate {s' : State σ} (h : Holding base s (F + X)) (htasks : s'.tasks = s.tasks)
    (hbuffer : s'.buffer = s.buffer) (hitems : s'.items + (F + Y) = s.items + (F + X)) :
    Holding base s' (F + Y) := by
  unfold Holding
  rw [hitems]
  exact ⟨htasks ▸ h.pos, htasks ▸ h.slab, hbuffer ▸ h.pool, h.sound, rfl, hbuffer ▸ h.base⟩

/-- The future of `p` is rewritten. -/
theorem Holding.writeFut (h : Holding base s (F + X)) (hraw : s.heap[p]? = some raw)
    (f : AsyncBlock σ → AsyncBlock σ)
    (hf : itemsOf (f raw.future).locals + Y = itemsOf raw.future.locals + X) :
    Holding base (s.modifyRaw p fun raw => { raw with future := f raw.future }) (F + Y) := by
  have hsum := sum_map_modify hraw (fun raw => { raw with future := f raw.future })
    fun raw => itemsOf raw.future.locals
  refine h.relocate rfl rfl ?_
  simp only [State.items, State.locals, State.modifyRaw, List.map_map]
  refine add_right_cancel (b := itemsOf raw.future.locals) ?_
  calc _ = ((s.heap.modify p fun raw => { raw with future := f raw.future }).map
        fun raw => itemsOf raw.future.locals).sum + itemsOf raw.future.locals + (F + Y) := by
        rw [add_right_comm]; rfl
    _ = (s.heap.map fun raw => itemsOf raw.future.locals).sum +
        itemsOf (f raw.future).locals + (F + Y) := by
        rw [hsum]
    _ = (s.heap.map fun raw => itemsOf raw.future.locals).sum + F +
        (itemsOf (f raw.future).locals + Y) := by
        ac_rfl
    _ = _ := by
        rw [hf]
        simp only [Function.comp_def]
        ac_rfl

/-- What follows a handle that is alive. -/
theorem intact_deref {x : RawTask σ → Rt σ α} {Z : α → Multiset Item}
    (h : ∀ (s : State σ) raw F, s.heap[p]? = some raw → Holding base s (F + X) →
      wp (x raw) (fun a s' => Holding base s' (F + Z a)) Blameless s) :
    Intact base X (deref p >>= x) Z := by
  intro s F hs
  simp only [deref, wp_bind, wp_get]
  cases hraw : s.heap[p]? with
  | none => exact .of_hard rfl
  | some raw =>
    simp only
    rw [wp_ite]
    exact ⟨fun _ => .of_hard rfl, fun _ => h s raw F hraw hs⟩

/-- What follows a local that holds a value. -/
theorem intact_getLocal {v : Var} {x : Value → Rt σ α} {Z : α → Multiset Item}
    (h : ∀ (s : State σ) raw val F, s.heap[p]? = some raw →
    raw.future.locals[v]? = some (some val) →
      Holding base s (F + X) → wp (x val) (fun a s' => Holding base s' (F + Z a)) Blameless s) :
    Intact base X (getLocal p v >>= x) Z := by
  simp only [getLocal, bind_assoc]
  refine intact_deref fun s raw F hraw hs => ?_
  split
  · rename_i val hval
    exact h s raw val F hraw hval hs
  · exact .of_outer rfl

theorem intact_takeLocal (p : TaskPtr) (v : Var) :
    Intact base 0 (takeLocal p v : Rt σ Value) Value.items := by
  refine intact_getLocal fun s raw val F hraw hval hs => ?_
  refine hs.writeFut hraw (fun b => { b with locals := b.locals.set v none }) ?_
  exact itemsOf_set hval none

theorem intact_addLocal (p : TaskPtr) (val : Value) :
    Intact base val.items (addLocal p val : Rt σ Var) fun _ => 0 := by
  refine intact_deref fun s raw F hraw hs => ?_
  refine hs.writeFut hraw (fun b => { b with locals := b.locals ++ [some val] }) ?_
  rw [itemsOf_append, add_zero]
  rfl

theorem intact_goto (p : TaskPtr) (k : σ) : Intact base X (goto p k) fun _ => X :=
  .seq (intact_of_careful fun _ => guard_writeRaw p fun _ => rfl) fun _ => .ret _ rfl

theorem intact_takeMoved (p : TaskPtr) (moved : List (Kind × Var)) :
    Intact base 0 (takeMoved p moved : Rt σ (List (Option Value))) itemsOf := by
  induction moved with
  | nil => exact .ret _ rfl
  | cons km moved ih =>
    obtain ⟨kind, v⟩ := km
    refine .seq (intact_takeLocal p v) fun val => .cond (fun _ => ?_) fun _ => Intact.fail rfl
    have hrest := ih.frame val.items
    rw [zero_add] at hrest
    refine .seq hrest fun L => .ret _ ?_
    rw [add_comm]
    rfl

theorem intact_makeValue (p : TaskPtr) (op : Op) :
    Intact base 0 (makeValue p op : Rt σ Value) Value.items := by
  cases op with
  | accept | read | write | connect => exact .ret _ rfl
  | commit buf len =>
    refine .seq (intact_takeLocal p buf) fun val => ?_
    cases val with
    | rwBuffer b => exact .ret _ rfl
    | _ => exact Intact.fail rfl
  | writeMultiple buf fds len =>
    refine .seq (intact_takeLocal p buf) fun val => ?_
    cases val with
    | wBuffer b => exact .ret _ rfl
    | _ => exact Intact.fail rfl

theorem intact_bindOut (p : TaskPtr) (out : Out) :
    Intact base out.items (bindOut p out : Rt σ (Option Resp)) fun _ => 0 := by
  cases out with
  | pending | ready => exact .ret _ rfl
  | buffer b => exact .seq (intact_addLocal p (.rwBuffer b)) fun v => .ret _ rfl

theorem intact_logEvent (p : TaskPtr) (ev : Event) :
    Intact base X (logEvent p ev : Rt σ Unit) fun _ => X :=
  intact_of_careful fun _ => guard_logEvent p ev

/-- A poll of a local: the value goes back to its local. -/
theorem intact_pollLocal (p : TaskPtr) (v : Var) :
    Intact base 0 (pollLocal p v : Rt σ (Option Resp)) fun _ => 0 := by
  refine intact_getLocal fun s raw val F hraw hval hs => ?_
  obtain ⟨rest, hall, hset⟩ := exists_others hraw hval
  have hstock : Stock base s.locals s (rest + F + val.items) := by
    rw [add_right_comm, ← hall, ← add_zero F]
    exact hs
  simp only [wp_bind, wp_get]
  refine wp_mono (guard_pollValue ⟨p, v⟩ val s _ hstock) (fun r s1 h1 => ?_) fun _ _ h => h
  obtain ⟨out, val'⟩ := r
  have h2 : Holding base (s1.modifyRaw p fun raw =>
      { raw with future := { raw.future with locals := raw.future.locals.set v (some val') } })
      (F + out.items) := by
    have hitems : (s1.modifyRaw p fun raw =>
        { raw with future :=
          { raw.future with locals := raw.future.locals.set v (some val') } }).items =
        rest + val'.items := by
      rw [State.items, locals_writeLocals s1 p fun L => L.set v (some val'), h1.locals, hset]
    have heq : rest + F + remaining (out, val') = rest + val'.items + (F + out.items) := by
      unfold remaining
      ac_rfl
    rw [heq] at h1
    rw [Holding, hitems]
    exact ⟨h1.pos, h1.slab, h1.pool, h1.sound, rfl, h1.base⟩
  simp only [writeLocals, writeRaw, wp_modify]
  refine wp_mono (intact_bindOut p out _ F h2) (fun r s3 h3 => ?_) fun _ _ h => h
  exact wp_mono (intact_logEvent p _ s3 F h3) (fun _ s4 h4 => h4) fun _ _ h => h

/-! ## Blocks -/

/-- The locals of `p` are taken out and dropped. -/
theorem intact_dropLocals (p : TaskPtr) (f : AsyncBlock σ → AsyncBlock σ)
    (hf : ∀ b, (f b).locals = []) {x : Rt σ α} {Z : α → Multiset Item} (hx : Intact base 0 x Z)
    (hraw : s.heap[p]? = some raw) (h : Holding base s (F + 0)) :
    wp (do
        writeRaw p fun raw => { raw with future := f raw.future }
        dropLocals raw.future.locals
        x) (fun a s' => Holding base s' (F + Z a)) Blameless s := by
  have h1 : Holding base (s.modifyRaw p fun raw => { raw with future := f raw.future })
      (F + itemsOf raw.future.locals) := by
    refine h.writeFut hraw f ?_
    rw [hf, add_zero]
    exact zero_add _
  simp only [writeRaw, wp_bind, wp_modify]
  refine wp_mono (intact_of_careful (fun _ => guard_dropLocals _) _ F h1)
    (fun _ s2 h2 => hx s2 F h2) fun _ _ h => h

theorem intact_dropFn (p : TaskPtr) : Intact base 0 (dropFn p : Rt σ Unit) fun _ => 0 :=
  intact_deref fun _ _ _ hraw hs =>
    intact_dropLocals p (fun b => { b with locals := [] }) (fun _ => rfl)
      (intact_logEvent p .dropped) hraw hs

theorem intact_finish (p : TaskPtr) : Intact base 0 (finish p : Rt σ Unit) fun _ => 0 := by
  refine intact_deref fun s raw F hraw hs => ?_
  simp only [wp_bind, wp_get]
  have hdrop := intact_dropLocals p (fun _ => ⟨none, []⟩) (fun _ => rfl)
    (intact_logEvent p (.ready (s.rivals p raw.syscallNb))) hraw hs
  simpa only [wp_bind] using hdrop

/-- An underflow of the counter is what the accounts of references exclude. -/
theorem intact_release (p : TaskPtr) : Intact base 0 (release p : Rt σ Unit) fun _ => 0 := by
  have hwrite : ∀ f : RawTask σ → RawTask σ, (∀ raw, (f raw).future.locals = raw.future.locals) →
      Intact base 0 (writeRaw p f) fun _ => 0 := fun f hf => intact_of_careful fun _ =>
      guard_writeRaw p hf
  rw [release_eq]
  refine .seq (intact_of_careful fun _ => guard_deref p) fun raw => .cond (fun _ => ?_) fun _ => ?_
  · exact Assured.fail fun _ _ _ => .of_hard rfl
  · refine .seq (hwrite _ fun _ => rfl) fun _ => .cond (fun _ => ?_) fun _ => .ret () rfl
    refine .seq (intact_dropFn p) fun _ =>
      .seq (intact_of_careful fun _ => guard_deref p) fun raw' => ?_
    refine .seq (hwrite _ fun _ => rfl) fun _ => ?_
    cases raw'.slabIdx with
    | none => exact .ret () rfl
    | some i => exact intact_of_careful fun _ => guard_modify fun _ => ⟨rfl, rfl, rfl⟩

/-- What an instruction hands to a spawned block. -/
def Ctl.items : Ctl σ → Multiset Item
  | .spawn child => itemsOf child.locals
  | _ => 0

/-- A handle that stays in its local is cloned. -/
theorem intact_cloneLocal {v : Var} {b : WBuffer} (hraw : s.heap[p]? = some raw)
    (hval : raw.future.locals[v]? = some (some (.wBuffer b))) (h : Holding base s (F + 0)) :
    wp (wBufferClone b) (fun b' s' => Holding base s' (F + (Value.wBuffer b').items))
    Blameless s := by
  obtain ⟨rest, hall, -⟩ := exists_others hraw hval
  have hstock : Stock base s.locals s (rest + F + {.write b}) := by
    have hs := h
    rw [Holding, hall, add_zero, add_right_comm] at hs
    exact hs
  refine wp_mono (guard_wBufferClone b s _ hstock) (fun b' s' h' => ?_) fun _ _ h => h
  have hitems : s'.items = rest + {.write b} := by
    rw [State.items, h'.locals]
    exact hall
  have h2 := h'
  rw [← add_assoc, add_right_comm rest, add_assoc (rest + _), ← hitems, ← h'.locals] at h2
  exact h2

/-- **One instruction** keeps what the blocks hold in place. -/
theorem intact_stepCode (code : Code σ) (p : TaskPtr) :
    Intact base 0 (stepCode code p) Ctl.items := by
  have hgoto : ∀ k : σ, Intact base 0 (goto p k) Ctl.items := fun k =>
    .seq (intact_of_careful fun _ => guard_writeRaw p fun _ => rfl) fun _ => .ret _ rfl
  refine .seq (intact_of_careful fun _ => guard_deref p) fun raw => ?_
  cases raw.future.code with
  | none => exact Intact.fail rfl
  | some c =>
    simp only
    cases code c with
    | ret => exact .seq (intact_finish p) fun _ => .ret _ rfl
    | suspend k => exact .seq (intact_goto p k) fun _ => .ret _ rfl
    | make op k =>
      exact .seq (intact_makeValue p op) fun val =>
        .seq (intact_addLocal p val) fun v => hgoto (k v)
    | makeStream op k =>
      have hval : op.value.items = 0 := by cases op <;> rfl
      have hadd : Intact base op.value.items (addLocal p op.value : Rt σ Var) fun _ => 0 :=
        intact_addLocal p op.value
      rw [hval] at hadd
      exact .seq hadd fun v => hgoto (k v)
    | poll v k => exact .seq (intact_pollLocal p v) fun r => hgoto (k r)
    | drop v k =>
      exact .seq (intact_takeLocal p v) fun val =>
        .seq (intact_of_careful fun _ => guard_dropValue val) fun _ => hgoto k
    | spawn child moved k =>
      exact .seq (intact_takeMoved p moved) fun L => .seq (intact_goto p k) fun _ => .ret _ rfl
    | allocWrite k =>
      exact .seq (intact_of_careful fun _ => guard_allocWriteBuffer) fun b =>
        .seq (intact_addLocal p (.wBuffer b)) fun v => hgoto (k v)
    | cloneWrite v k =>
      refine intact_getLocal fun s raw val F hraw hval hs => ?_
      cases val with
      | wBuffer b =>
        simp only [wp_bind]
        refine wp_mono (intact_cloneLocal hraw hval hs) (fun b' s1 h1 => ?_) fun _ _ h => h
        refine wp_mono (intact_addLocal p (.wBuffer b') s1 F h1) (fun v' s2 h2 => ?_) fun _ _ h => h
        exact hgoto (k v') s2 F h2
      | _ => exact .of_outer rfl

/-! ## Polls -/

theorem intact_modify {f : State σ → State σ} (hf : ∀ s, Unmoved s (f s)) :
    Intact base X (modify f : Rt σ Unit) fun _ => X :=
  intact_of_careful fun _ => guard_modify hf

/-- A new block takes what it has captured. -/
theorem intact_taskNew (future : AsyncBlock σ) :
    Intact base (itemsOf future.locals) (taskNew future : Rt σ TaskPtr) fun _ => 0 := by
  intro s F hs
  simp only [taskNew, wp_bind, wp_get, wp_modify, wp_pure]
  refine hs.relocate rfl rfl ?_
  have hitems : ∀ raw : RawTask σ, ({ s with heap := s.heap ++ [raw] } : State σ).items =
      s.items + itemsOf raw.future.locals := fun raw => by simp [State.items, State.locals]
  rw [hitems, add_zero, add_right_comm, add_assoc]

/-- A sound slab takes every task: it fails only to grow past `u32::MAX` slots. -/
theorem Slab.WF.insert_total {β : Type} {t : Slab β} (h : t.WF) (b : β) :
    ∃ r, t.insert b = .ok r := by
  unfold Slab.insert
  by_cases hfull : t.head = t.len
  · have hmax : t.len ≠ 0xFFFFFFFF := fun he => absurd (he ▸ h.small) (by decide)
    obtain ⟨t1, hg⟩ : ∃ t1, t.growth = .ok t1 := by
      unfold Slab.growth
      rw [if_neg hmax]
      exact ⟨_, rfl⟩
    obtain ⟨hlt, hhead, -, hslots⟩ := growth_spec hg h.pos
    have hslot : t1.slots[t1.head.toNat]? =
        some (freeSlot (UInt32.ofNat (t.len.toNat + 0 + 1))) := by
      rw [hslots, hhead, hfull, List.getElem?_append_right (Nat.le_of_eq h.sized),
        h.sized, Nat.sub_self, chained_getElem? hlt, if_pos (Nat.sub_pos_of_lt hlt)]
    have hlink := link_isSome_iff.mpr ⟨_, hslot, isFree_freeSlot _⟩
    unfold Slab.link at hlink
    rw [if_pos hfull, hg]
    simp only [Slab.fill]
    rw [hslot] at hlink ⊢
    simp only at hlink ⊢
    cases hnext : (freeSlot (UInt32.ofNat (t.len.toNat + 0 + 1)) : SlabSlot β).nextFree with
    | error e =>
      rw [hnext] at hlink
      cases hlink
    | ok next => exact ⟨_, rfl⟩
  · obtain ⟨i, t2, h2, -⟩ := h.fill hfull b
    rw [if_neg hfull]
    exact ⟨_, h2⟩

theorem intact_tasksInsert (p : TaskPtr) :
    Intact base X (tasksInsert p : Rt σ SlabIdx) fun _ => X := by
  intro s F hs
  simp only [tasksInsert, wp_bind, wp_get]
  cases hi : s.tasks.insert p with
  | error e =>
    -- a slab below `2^31` slots is sound, and takes the task
    refine Blameless.of_small fun hsmall => ?_
    obtain ⟨r, hr⟩ := (hs.slab hsmall).insert_total p
    rw [hi] at hr
    cases hr
  | ok r =>
    obtain ⟨i, tasks⟩ := r
    have hle := Slab.len_le_insert hi hs.pos
    have h1 : Holding base { s with tasks } (F + X) := by
      refine ⟨Nat.lt_of_lt_of_le hs.pos hle, fun hsmall => ?_, hs.pool, hs.sound, rfl, hs.base⟩
      exact (hs.slab (Nat.lt_of_le_of_lt hle hsmall)).insert hi hsmall
    have hwrite : Intact base X
        (writeRaw p fun raw => { raw with slabIdx := some i } : Rt σ Unit) fun _ => X :=
      intact_of_careful fun _ => guard_writeRaw p fun _ => rfl
    exact hwrite { s with tasks } F h1

theorem intact_spawnBegin (future : AsyncBlock σ) :
    Intact base (itemsOf future.locals) (spawnBegin future : Rt σ (TaskPtr × TaskInfo))
      fun _ => 0 := by
  refine .seq (intact_taskNew future) fun task =>
    .seq (intact_of_careful fun _ => guard_taskClone task) fun q => ?_
  refine .seq (intact_tasksInsert q) fun i => .look fun s => ?_
  exact .seq (intact_modify fun _ => ⟨rfl, rfl, rfl⟩) fun _ => .ret _ rfl

section Spawn

variable {poll : TaskPtr → Rt σ (Poll Unit)} (hpoll : ∀ p, Intact base 0 (poll p) fun _ => 0)
include hpoll

theorem intact_taskPoll (p : TaskPtr) : Intact base 0 (taskPoll poll p) fun _ => 0 :=
  .look fun _ => .seq (intact_logEvent p _) fun _ => hpoll p

theorem intact_spawn (future : AsyncBlock σ) :
    Intact base (itemsOf future.locals) (spawn poll future) fun _ => 0 := by
  refine .seq (intact_spawnBegin future) fun r => .seq (intact_taskPoll hpoll r.1) fun _ => ?_
  refine .seq (intact_release r.1) fun _ => ?_
  exact .seq (intact_modify fun _ => ⟨rfl, rfl, rfl⟩) fun _ => intact_release r.1

end Spawn

/-- **A poll of a task**, with all the spawns inside it. -/
theorem intact_pollFn (code : Code σ) (fuel : Nat) (p : TaskPtr) :
    Intact base 0 (pollFn code fuel p) fun _ => 0 := by
  induction fuel generalizing p with
  | zero => exact Intact.fail rfl
  | succ fuel ih =>
    refine .seq (intact_stepCode code p) fun ctl => ?_
    cases ctl with
    | fin r => exact .ret r rfl
    | again => exact ih p
    | spawn child => exact .seq (intact_spawn (fun q => ih q) child) fun _ => ih p

/-! ## Commands -/

section Commands

variable {poll : TaskPtr → Rt σ (Poll Unit)} (hpoll : ∀ p, Intact base 0 (poll p) fun _ => 0)

section
include hpoll

/-- A completion with the number of a single-shot submission is below the mask, and its number can
grow. -/
theorem intact_dispatch (task : TaskPtr) (info : TaskInfo) (stored : UInt16) :
    Intact base 0 (dispatch poll task info (evaluateSyscallNb stored info.tag.syscallNb))
      fun _ => 0 := by
  rcases evaluate_cases stored info.tag.syscallNb with ⟨heq, he⟩ | ⟨-, he⟩ | ⟨-, -, he⟩
  · rw [he]
    cases hm : isMultiple stored with
    | true =>
      exact .seq (intact_modify fun _ => ⟨rfl, rfl, rfl⟩) fun _ =>
        .seq (intact_taskPoll hpoll task) fun _ => .ret () rfl
    | false =>
      have hne : info.tag.syscallNb ≠ 0xFFFF := by
        intro hmax
        rw [← heq, hmax] at hm
        exact absurd hm (by decide)
      refine .cond (fun h => absurd h hne) fun _ => ?_
      refine .seq (intact_of_careful fun _ => guard_augmenteSyscallNb task) fun _ => ?_
      exact .seq (intact_modify fun _ => ⟨rfl, rfl, rfl⟩) fun _ =>
        .seq (intact_taskPoll hpoll task) fun _ => .ret () rfl
  · rw [he]
    exact .ret () rfl
  · rw [he]
    exact Intact.fail rfl

theorem intact_handleCqeEntry (e : Cqe) : Intact base 0 (handleCqeEntry poll e) fun _ => 0 := by
  refine .seq (intact_of_careful fun _ => guard_tasksIndex _) fun q => ?_
  refine .seq (intact_of_careful fun _ => guard_taskClone q) fun task => ?_
  refine .seq (intact_of_careful fun _ => guard_deref task) fun raw => .look fun s => ?_
  refine .seq (intact_logEvent task _) fun _ => .seq (intact_dispatch hpoll task _ _) fun _ => ?_
  cases more e.flags with
  | true => exact intact_release task
  | false => exact .seq (intact_release task) fun _ => intact_release task

theorem intact_drainWakeList (fuel : Nat) : Intact base 0 (drainWakeList poll fuel) fun _ => 0 := by
  induction fuel with
  | zero => exact Intact.fail rfl
  | succ fuel ih =>
    refine .look fun s => ?_
    cases s.runtimeWakeList with
    | nil => exact .ret () rfl
    | cons awake rest =>
      refine .seq (intact_modify fun _ => ⟨rfl, rfl, rfl⟩) fun _ => ?_
      refine .seq (intact_of_careful fun _ => guard_tasksIndex _) fun q => ?_
      refine .seq (intact_of_careful fun _ => guard_taskClone q) fun task => ?_
      exact .seq (intact_taskPoll hpoll task) fun _ => .seq (intact_release task) fun _ => ih

end

/-- A slot that is freed was occupied; that it was, the accounts of references say. -/
theorem intact_freeSlots (l : List SlabIdx) :
    Intact base X (freeSlots l : Rt σ Unit) fun _ => X := by
  induction l with
  | nil => exact .ret () rfl
  | cons i l ih =>
    intro s F hs
    simp only [freeSlots, wp_bind, wp_get]
    cases hr : s.tasks.removeDroppedTask i with
    | error e =>
      unfold Slab.removeDroppedTask Slab.take at hr
      split at hr
      · rename_i htake
        obtain rfl := Except.error.inj hr
        split at htake
        · obtain rfl := Except.error.inj htake
          exact Blameless.of_hard rfl
        · rename_i hlt
          split at htake
          · rename_i hnone
            refine Blameless.of_small fun hsmall => ?_
            rw [List.getElem?_eq_none_iff, (hs.slab hsmall).sized] at hnone
            exact hlt (UInt32.le_iff_toNat_le.mpr hnone)
          · split at htake
            · cases htake
            · obtain rfl := Except.error.inj htake
              exact Blameless.of_hard rfl
      · cases hr
    | ok tasks =>
      have hlen : tasks.len = s.tasks.len := Slab.len_removeDroppedTask hr
      refine ih { s with tasks } F
        ⟨hlen ▸ hs.pos, fun hsmall => ?_, hs.pool, hs.sound, rfl, hs.base⟩
      exact (hs.slab (hlen ▸ hsmall)).removeDroppedTask hr

/-- **Every command** keeps what the blocks hold in place, and fails without blame. -/
theorem intact_act (code : Code σ) (cmd : Cmd σ) : Intact base 0 (act code cmd) fun _ => 0 := by
  cases cmd with
  | spawn fuel c =>
    exact .cond (fun _ => intact_spawn (fun p => intact_pollFn code fuel p) ⟨some c, []⟩) fun _ =>
      Intact.fail rfl
  | submit =>
    exact .look fun s => .cond (fun _ => intact_modify fun _ => ⟨rfl, rfl, rfl⟩) fun _ =>
      Intact.fail rfl
  | consume =>
    refine .look fun s => ?_
    cases s.ring.sq with
    | nil => exact Intact.fail rfl
    | cons q sq => exact intact_modify fun _ => ⟨rfl, rfl, rfl⟩
  | complete id result flags =>
    refine .look fun s => ?_
    cases s.ring.inflight.find? fun q => q.id == id with
    | none => exact Intact.fail rfl
    | some q => exact .cond (fun _ => intact_modify fun _ => ⟨rfl, rfl, rfl⟩) fun _ =>
      Intact.fail rfl
  | handle fuel =>
    refine .seq (Y := fun _ => 0) (.look fun s => ?_) fun e =>
      intact_handleCqeEntry (fun p => intact_pollFn code fuel p) e
    cases s.ring.cq with
    | nil => exact Intact.fail rfl
    | cons e cq => exact .seq (intact_modify fun _ => ⟨rfl, rfl, rfl⟩) fun _ => .ret e rfl
  | free =>
    exact .look fun s => .seq (intact_freeSlots _) fun _ => intact_modify fun _ => ⟨rfl, rfl, rfl⟩
  | drain fuel => exact intact_drainWakeList (fun p => intact_pollFn code fuel p) fuel

end Commands

end Intact

end Onlyio
