import Onlyio.Lib.Guard
import Onlyio.Machine.Ledger
import Onlyio.Machine.Silent

/-!
# The runtime does not fail by itself

A fault is `internal` if it is the runtime's own: memory that the code must not touch, or an
assertion about its own bookkeeping. This module and `Machine.Intact` show that no program of the
runtime raises one. The counters of the write pool are compared with the handles that exist, so what
a program is given and what it hands back are buffers (`Item`); each of them lies in its slot.

* `Stock`: the slab and the pool are sound, and the items that exist lie in place.
* `guard_wBufferDrop`, `guard_wBufferClone`, `guard_allocWriteBuffer`: the operations of the pool.
* **`guard_pollValue`**: the poll of a future or a stream.
-/

namespace Onlyio

open Lib

variable {σ : Type}

/-! ## Faults -/

/-- The panics about the slab, the counters of a task, the write pool and the states of a future,
besides the overflows of a counter by the program and `newerSqe`. -/
def Panic.internal : Panic → Bool
  | .tagOverflow | .releaseUnderflow | .indexOutOfBounds | .slotLibre _ | .removeOutOfBounds _ _
  | .removeLibre _ | .slabFull | .nextFree | .poolIndex | .allocNotFree | .cloneLibre | .dropLibre
  | .unreachable => true
  | _ => false

/-- The faults that are the runtime's own. -/
def Fault.internal : Fault → Bool
  | .dangling | .outOfSlab | .unreachableUnchecked => true
  | .panic p => p.internal
  | .illTyped | .notKernel | .fuel => false

/-- An internal fault that the accounts of references leave possible is raised only by a slab of
`2^31` slots. -/
def Blameless (e : Fault) (s : State σ) : Prop :=
  e.soft = true → e.internal = true → 2 ^ 31 ≤ s.tasks.len.toNat

theorem Blameless.of_outer {e : Fault} {s : State σ} (h : e.internal = false) : Blameless e s := by
  intro hsoft hint
  rw [h] at hint
  cases hint

theorem Blameless.of_hard {e : Fault} {s : State σ} (h : e.soft = false) : Blameless e s := by
  intro hsoft
  rw [h] at hsoft
  cases hsoft

/-- No fault of a slab below `2^31` slots. -/
theorem Blameless.of_small {e : Fault} {s : State σ} (h : ¬ s.tasks.len.toNat < 2 ^ 31) :
    Blameless e s :=
  fun _ _ => Nat.le_of_not_lt h

/-! ## Items -/

/-- A buffer in its slot, which the kernel has handed over. -/
structure RwBuffer.InPlace (base : Nat) (b : RwBuffer) : Prop where
  idx : b.bufIdx.toNat < 512
  ptr : b.ptr = base + b.bufIdx.toNat * BufPool.bufSize 1
  fresh : b.committed = false

/-- A handle that points to the slot of its index. -/
structure WBuffer.InPlace (base : Nat) (b : WBuffer) : Prop where
  idx : InPool 512 512 b.absIdx
  ptr : b.ptr = base + b.absIdx.toNat * BufPool.bufSize 1

/-- What a value holds, or that it is one that the library never leaves behind. -/
inductive Item where
  | read (b : RwBuffer)
  | write (b : WBuffer)
  | broken
  deriving DecidableEq

/-- The items of a value. -/
def Value.items : Value → Multiset Item
  | .rwBuffer b | .commitFn b _ => {.read b}
  | .wBuffer b | .writeMultiple (.init _ b _) | .writeMultiple (.pending _ _ _ _ b) => {.write b}
  | .commit (.init _ _ _ _) | .writeMultiple .poisoned | .socket .pending => {.broken}
  | _ => 0

/-- The items that a poll hands back. -/
def Out.items : Out → Multiset Item
  | .buffer b => {.read b}
  | _ => 0

/-- The items in a local. -/
def slotItems (o : Option Value) : Multiset Item := o.elim 0 Value.items

/-- The items in the locals of a block. -/
def itemsOf (L : List (Option Value)) : Multiset Item := (L.map slotItems).sum

/-- The item is in place. -/
def Item.Sound (base : Nat) : Item → Prop
  | .read b => b.InPlace base
  | .write b => b.InPlace base
  | .broken => False

/-- The item is a handle to the slot `a`. -/
def Item.holds (a : UInt32) : Item → Prop
  | .write b => b.absIdx = a
  | _ => False

instance (a : UInt32) : DecidablePred (Item.holds a) := fun t => by
  unfold Item.holds
  cases t <;> infer_instance

/-- The handles to the slot `a`. -/
def handlesAt (T : Multiset Item) (a : UInt32) : Nat := T.countP (Item.holds a)

section Items

variable {T : Multiset Item} {a : UInt32} {b : WBuffer}

@[simp] theorem handlesAt_add (T T' : Multiset Item) (a : UInt32) :
    handlesAt (T + T') a = handlesAt T a + handlesAt T' a := Multiset.countP_add ..

@[simp] theorem handlesAt_zero (a : UInt32) : handlesAt 0 a = 0 := rfl

@[simp] theorem handlesAt_write (b : WBuffer) (a : UInt32) :
    handlesAt {.write b} a = if b.absIdx = a then 1 else 0 := by
  unfold handlesAt
  rw [← Multiset.cons_zero, Multiset.countP_cons, Multiset.countP_zero, Nat.zero_add]
  rfl

@[simp] theorem handlesAt_read (b : RwBuffer) (a : UInt32) : handlesAt {.read b} a = 0 := by
  unfold handlesAt
  rw [← Multiset.cons_zero, Multiset.countP_cons, Multiset.countP_zero, Nat.zero_add]
  exact if_neg fun h => h

end Items

/-! ## The stock -/

/-- The slab and the pool are sound, while the blocks have the locals `ls` and the items `T`
exist. -/
structure Stock (base : Nat) (ls : List (List (Option Value))) (s : State σ) (T : Multiset Item) :
    Prop where
  pos : 0 < s.tasks.len.toNat
  slab : s.tasks.len.toNat < 2 ^ 31 → s.tasks.WF
  pool : Pooled s.buffer (handlesAt T)
  sound : ∀ t ∈ T, t.Sound base
  locals : s.locals = ls
  base : s.buffer.base = base

/-- Nothing that the stock is about is different. -/
structure Unmoved (s s' : State σ) : Prop where
  tasks : s'.tasks = s.tasks
  buffer : s'.buffer = s.buffer
  locals : s'.locals = s.locals

section Stock

variable {base : Nat} {ls : List (List (Option Value))} {X : Multiset Item} {α : Type}

theorem Stock.unmoved {s s' : State σ} {T : Multiset Item} (h : Stock base ls s T)
    (hu : Unmoved s s') : Stock base ls s' T := by
  obtain ⟨htasks, hbuffer, hlocals⟩ := hu
  exact ⟨htasks ▸ h.pos, htasks ▸ h.slab, hbuffer ▸ h.pool, h.sound, hlocals.trans h.locals,
    hbuffer ▸ h.base⟩

/-- Items that are no handles may go. -/
theorem Stock.forget {s : State σ} {F : Multiset Item} (h : Stock base ls s (F + X))
    (hX : ∀ a, handlesAt X a = 0) : Stock base ls s (F + 0) := by
  refine ⟨h.pos, h.slab, ?_, fun t ht => h.sound t ?_, h.locals, h.base⟩
  · have heq : handlesAt (F + X) = handlesAt (F + 0) := by
      funext a
      rw [handlesAt_add, handlesAt_add, hX, handlesAt_zero]
    exact heq ▸ h.pool
  · rw [add_zero] at ht
    exact Multiset.mem_add.mpr (.inl ht)

/-- Nobody holds a value that the library never leaves behind. -/
theorem Stock.not_broken {s : State σ} {F : Multiset Item} (h : Stock base ls s (F + {.broken})) :
    False :=
  h.sound .broken (Multiset.mem_add.mpr (.inr (Multiset.mem_singleton_self _)))

/-! ## Programs that move no buffer -/

/-- The program keeps the stock, and fails without blame. -/
abbrev Careful (base : Nat) (ls : List (List (Option Value))) (X : Multiset Item) (x : Rt σ α)
    (Y : α → Multiset Item) : Prop :=
  Assured (Stock base ls) Blameless X x Y

theorem Careful.fail {e : Fault} {Y : α → Multiset Item} (he : e.internal = false) :
    Careful base ls X (throw e : Rt σ α) Y :=
  Assured.fail fun _ _ _ => .of_outer he

theorem guard_modify {f : State σ → State σ} (hf : ∀ s, Unmoved s (f s)) :
    Careful base ls X (modify f : Rt σ Unit) fun _ => X :=
  .update fun s _ h => h.unmoved (hf s)

theorem guard_writeRaw (p : TaskPtr) {f : RawTask σ → RawTask σ}
    (hlocals : ∀ raw, (f raw).future.locals = raw.future.locals) :
    Careful base ls X (writeRaw p f) fun _ => X :=
  guard_modify fun _ => ⟨rfl, rfl, map_modify_of_eq hlocals⟩

theorem guard_logEvent (p : TaskPtr) (ev : Event) :
    Careful base ls X (logEvent p ev : Rt σ Unit) fun _ => X :=
  guard_writeRaw p fun _ => rfl

theorem guard_deref (p : TaskPtr) : Careful base ls X (deref p : Rt σ (RawTask σ)) fun _ => X := by
  refine .look fun s => ?_
  have hdangling : Careful base ls X (throw .dangling : Rt σ (RawTask σ)) fun _ => X :=
    Assured.fail fun _ _ _ => .of_hard rfl
  cases s.heap[p]? with
  | none => exact hdangling
  | some raw => exact .cond (fun _ => hdangling) fun _ => .ret raw rfl

theorem guard_bumpRc {overflow mask : Panic} (ho : overflow.internal = false)
    (hm : mask.internal = false) (p : TaskPtr) (count : UInt16) :
    Careful base ls X (bumpRc overflow mask p count : Rt σ Unit) fun _ => X := by
  refine .seq (guard_deref p) fun raw =>
      .cond (fun _ => .cond (fun _ => Careful.fail hm) fun _ => ?_) fun _ =>
    Careful.fail ho
  exact guard_writeRaw p fun _ => rfl

theorem guard_incRc (p : TaskPtr) : Careful base ls X (incRc p : Rt σ Unit) fun _ => X :=
    guard_bumpRc rfl rfl p 1

theorem guard_taskClone (p : TaskPtr) : Careful base ls X (taskClone p : Rt σ TaskPtr) fun _ => X :=
  .seq (guard_incRc p) fun _ => .ret p rfl

theorem guard_augmenteSyscallNb (p : TaskPtr) :
    Careful base ls X (augmenteSyscallNb p : Rt σ Unit) fun _ => X :=
  .seq (guard_deref p) fun _ => guard_writeRaw p fun _ => rfl

theorem guard_setMultishot (p : TaskPtr) :
    Careful base ls X (setMultishot p : Rt σ Unit) fun _ => X :=
  .seq (guard_deref p) fun _ => guard_writeRaw p fun _ => rfl

theorem guard_setCurrentTaskMultiple :
    Careful base ls X (setCurrentTaskMultiple : Rt σ Unit) fun _ => X :=
  guard_modify fun _ => ⟨rfl, rfl, rfl⟩

theorem guard_currentUdata : Careful base ls X (currentUdata : Rt σ UInt64) fun _ => X :=
  .look fun _ => .ret _ rfl

/-- A slab that is sound has a slot for each index below its length. -/
theorem guard_tasksIndex (idx : SlabIdx) :
    Careful base ls X (tasksIndex idx : Rt σ TaskPtr) fun _ => X := by
  intro s F h
  simp only [tasksIndex, wp_bind, wp_get]
  cases hi : s.tasks.index idx with
  | ok p => exact h
  | error e =>
    simp only [liftExcept, wp_throw]
    unfold Slab.index at hi
    split at hi
    · obtain rfl := Except.error.inj hi
      exact .of_hard rfl
    · rename_i hlt
      split at hi
      · rename_i hnone
        refine .of_small fun hsmall => ?_
        have hsized := (h.slab hsmall).sized
        rw [List.getElem?_eq_none_iff, hsized] at hnone
        exact hlt (UInt32.le_iff_toNat_le.mpr hnone)
      · cases hi
      · split at hi
        · obtain rfl := Except.error.inj hi
          exact .of_hard rfl
        · obtain rfl := Except.error.inj hi
          exact .of_hard rfl

/-! ## Buffers -/

theorem Careful.forget {x : Rt σ α} (hx : Careful base ls 0 x fun _ => 0)
    (hX : ∀ a, handlesAt X a = 0) : Careful base ls X x fun _ => 0 :=
  hx.weaken fun _ _ h => h.forget hX

/-- The ring takes every slot back that the pool has. -/
theorem release_error {mem : BufRing} {p : BufPool 1} {id : UInt32} {e : Fault}
    (h : mem.release p id = .error e) : e = .panic .readIndex := by
  unfold BufRing.release BufPool.readBufAddr at h
  split at h
  · cases h
  · exact (Except.error.inj h).symm

theorem guard_releaseReadBuf (id : UInt32) :
    Careful base ls X (releaseReadBuf id : Rt σ Unit) fun _ => X := by
  intro s F h
  simp only [releaseReadBuf, wp_bind, wp_get]
  cases hr : s.bufRing.release s.buffer id with
  | error e =>
    obtain rfl := release_error hr
    exact .of_outer rfl
  | ok mem => exact h.unmoved ⟨rfl, rfl, rfl⟩

theorem guard_rwBufferDrop (b : RwBuffer) :
    Careful base ls {.read b} (rwBufferDrop b : Rt σ Unit) fun _ => 0 := by
  refine Careful.forget ?_ fun a => handlesAt_read b a
  exact .cond (fun _ => .ret () rfl) fun _ => guard_releaseReadBuf b.bufIdx

/-- The pool changes with the items. -/
theorem Stock.repool {s : State σ} {F Y : Multiset Item} {p : BufPool 1}
    (h : Stock base ls s (F + X)) (hbase : p.base = s.buffer.base)
    (hpool : Pooled p (handlesAt (F + Y))) (hY : ∀ t ∈ Y, t.Sound base) :
    Stock base ls { s with buffer := p } (F + Y) := by
  refine ⟨h.pos, h.slab, hpool, fun t ht => ?_, h.locals, hbase.trans h.base⟩
  rcases Multiset.mem_add.mp ht with ht | ht
  · exact h.sound t (Multiset.mem_add.mpr (.inl ht))
  · exact hY t ht

/-- What is given is in place. -/
theorem Stock.given {s : State σ} {F : Multiset Item} (h : Stock base ls s (F + X))
    {t : Item} (ht : t ∈ X) : t.Sound base :=
  h.sound t (Multiset.mem_add.mpr (.inr ht))

/-- The handles, with one more. -/
theorem handlesAt_snoc (F : Multiset Item) (b : WBuffer) :
    handlesAt (F + {.write b}) = fun a => handlesAt F a + if b.absIdx = a then 1 else 0 := by
  funext a
  rw [handlesAt_add, handlesAt_write]

theorem handlesAt_pos (F : Multiset Item) (b : WBuffer) :
    0 < handlesAt (F + {.write b}) b.absIdx := by
  rw [handlesAt_add, handlesAt_write, if_pos rfl]
  exact Nat.succ_pos _

theorem guard_wBufferDrop (b : WBuffer) :
    Careful base ls {.write b} (wBufferDrop b : Rt σ Unit) fun _ => 0 := by
  intro s F h
  obtain ⟨p, hdrop, hpool⟩ := h.pool.drop (handlesAt_pos F b)
  simp only [wBufferDrop, wp_bind, wp_get, hdrop]
  refine h.repool (WBuffer.drop_base hdrop) ?_ (by simp)
  have heq : (fun a => handlesAt (F + {.write b}) a - if b.absIdx = a then 1 else 0) =
      handlesAt (F + 0) := by
    funext a
    rw [handlesAt_snoc, Nat.add_sub_cancel, add_zero]
  exact heq ▸ hpool

theorem guard_wBufferWrite (b : WBuffer) (fdIdx len : UInt32) (userData : UInt64) :
    Careful base ls {.write b} (wBufferWrite b fdIdx len userData : Rt σ WriteFixed)
      fun _ => 0 := by
  intro s F h
  have hdrop := guard_wBufferDrop b s F h
  simp only [wBufferDrop, wBufferWrite, wp_bind, wp_get, write_eq_drop] at hdrop ⊢
  cases hd : b.drop s.buffer with
  | error e =>
    rw [hd] at hdrop
    exact hdrop
  | ok p =>
    rw [hd] at hdrop
    exact hdrop

/-- A live handle is cloned, unless there are `2^32 - 1` already. -/
theorem Pooled.clone_error {p : BufPool 1} {live : UInt32 → Nat} {b : WBuffer} {e : Fault}
    (h : Pooled p live) (hpos : 0 < live b.absIdx) (hc : b.clone p = .error e) :
    e = .panic .writeRcOverflow := by
  obtain ⟨st, rfl, hinv, hlive⟩ := h
  obtain ⟨hd, hmem, habs⟩ := handle hlive hpos
  obtain ⟨c, hrc, hcl, -⟩ := hinv.clone_spec hmem
  have hpos' : c > 0 := UInt32.lt_iff_toNat_lt.mpr (by rw [hcl]; exact PoolInv.liveAt_pos hmem)
  rw [habs] at hrc
  simp only [WBuffer.clone, hrc, bind, Except.bind, hpos', if_true] at hc
  split at hc
  · cases hc
  · exact (Except.error.inj hc).symm

theorem guard_wBufferClone (b : WBuffer) :
    Careful base ls {.write b} (wBufferClone b : Rt σ WBuffer) fun b' =>
    {.write b} + {.write b'} := by
  intro s F h
  have hpos := handlesAt_pos F b
  simp only [wBufferClone, wp_bind, wp_get]
  cases hc : b.clone s.buffer with
  | error e =>
    obtain rfl := h.pool.clone_error hpos hc
    exact .of_outer rfl
  | ok r =>
    obtain ⟨b', p⟩ := r
    obtain ⟨rfl, hpool⟩ := h.pool.clone hpos hc
    have hplace := h.given (Multiset.mem_singleton_self _)
    refine h.repool (WBuffer.clone_base hc) ?_ fun t ht => ?_
    · rw [← add_assoc, handlesAt_snoc]
      exact hpool
    · rcases Multiset.mem_add.mp ht with ht | ht <;>
      · obtain rfl := Multiset.mem_singleton.mp ht
        exact hplace

/-- A slot that is handed out is free, and the handle points to it. -/
theorem Pooled.alloc_place {p p' : BufPool 1} {live : UInt32 → Nat} {b : WBuffer}
    (h : Pooled p live) (ha : p.allocWrite = .ok (b, p')) : b.InPlace p.base := by
  obtain ⟨st, rfl, hinv, -⟩ := h
  unfold BufPool.allocWrite at ha
  split at ha
  · cases ha
  · rename_i a rest hfree
    obtain ⟨hin, -⟩ := (hinv.free_iff a).mp (by rw [hfree]; exact List.mem_cons_self)
    obtain ⟨c, hrc, -⟩ := hinv.rcAt hin
    simp only [hrc, bind, Except.bind] at ha
    split at ha
    · obtain ⟨rfl, -⟩ := Prod.mk.inj (Except.ok.inj ha)
      exact ⟨hin, rfl⟩
    · cases ha

/-- No slot is free only when all of them are in use. -/
theorem Pooled.alloc_error {p : BufPool 1} {live : UInt32 → Nat} {e : Fault} (h : Pooled p live)
    (ha : p.allocWrite = .error e) : e = .panic .poolExhausted := by
  obtain ⟨st, rfl, hinv, -⟩ := h
  unfold BufPool.allocWrite at ha
  split at ha
  · exact (Except.error.inj ha).symm
  · rename_i a rest hfree
    obtain ⟨hin, hzero⟩ := (hinv.free_iff a).mp (by rw [hfree]; exact List.mem_cons_self)
    obtain ⟨c, hrc, hc⟩ := hinv.rcAt hin
    obtain rfl : c = 0 := UInt32.toNat_inj.mp (hc.trans hzero)
    simp only [hrc, bind, Except.bind, if_true] at ha
    cases ha

theorem guard_allocWriteBuffer :
    Careful base ls 0 (allocWriteBuffer : Rt σ WBuffer) fun b => {.write b} := by
  intro s F h
  simp only [allocWriteBuffer, wp_bind, wp_get]
  cases ha : s.buffer.allocWrite with
  | error e =>
    obtain rfl := h.pool.alloc_error ha
    exact .of_outer rfl
  | ok r =>
    obtain ⟨b, p⟩ := r
    refine h.repool (BufPool.allocWrite_base ha) ?_ fun t ht => ?_
    · rw [handlesAt_snoc, ← add_zero F]
      exact h.pool.alloc ha
    · obtain rfl := Multiset.mem_singleton.mp ht
      exact h.base ▸ h.pool.alloc_place ha

theorem guard_dropValue (val : Value) :
    Careful base ls val.items (dropValue val : Rt σ Unit) fun _ => 0 := by
  have hbroken : Careful base ls {.broken} (pure () : Rt σ Unit) fun _ => 0 := fun s F h =>
    h.not_broken.elim
  cases val with
  | rwBuffer b | commitFn b => exact guard_rwBufferDrop b
  | wBuffer b => exact guard_wBufferDrop b
  | commit f =>
    cases f with
    | pending id => exact .ret () rfl
    | init => exact hbroken
  | socket f =>
    cases f with
    | createSocket | connecting => exact .ret () rfl
    | pending => exact hbroken
  | writeMultiple f =>
    cases f with
    | init fds b len => exact guard_wBufferDrop b
    | pending k fds faileds len b => exact guard_wBufferDrop b
    | poisoned => exact hbroken
  | accept | read | write | acceptStream | readStream | returned => exact .ret () rfl

theorem guard_dropLocals (L : List (Option Value)) :
    Careful base ls (itemsOf L) (dropLocals L : Rt σ Unit) fun _ => 0 := by
  induction L with
  | nil => exact .ret () rfl
  | cons o rest ih =>
    have hsum : itemsOf (o :: rest) = itemsOf rest + slotItems o := by
      rw [itemsOf, List.map_cons, List.sum_cons, add_comm]
      rfl
    rw [hsum]
    refine .seq (ih.frame _) fun _ => ?_
    rw [zero_add]
    cases o with
    | none => exact .ret () rfl
    | some val => exact guard_dropValue val

/-! ## Submissions -/

theorem guard_pushPending (me : Caller) (op : SqeOp) (userData : UInt64) (oversize : Bool) :
    Careful base ls X (pushPending me op userData oversize : Rt σ Unit) fun _ => X :=
  .look fun _ => .seq (guard_logEvent me.task _) fun _ => guard_modify fun _ => ⟨rfl, rfl, rfl⟩

theorem guard_sendOne (me : Caller) (op : BufPool 1 → SqeOp) :
    Careful base ls X (sendOne me op : Rt σ Unit) fun _ => X := by
  refine .seq guard_currentUdata fun udata => .look fun s => .seq (guard_tasksIndex _) fun p => ?_
  exact .seq (guard_incRc p) fun _ => .look fun s' => guard_pushPending me _ udata false

theorem guard_sendMultishot (me : Caller) (op : SqeOp) :
    Careful base ls X (sendMultishot me op : Rt σ Unit) fun _ => X := by
  refine .seq guard_setCurrentTaskMultiple fun _ => .seq guard_currentUdata fun udata => ?_
  refine .look fun s => .seq (guard_tasksIndex _) fun p => .seq (guard_setMultishot p) fun _ => ?_
  refine .seq (guard_tasksIndex _) fun p' => .seq (guard_incRc p') fun _ => ?_
  exact guard_pushPending me op udata false

theorem guard_sendCommitWrite (me : Caller) (ptr : Nat) (fdIdx len : UInt32) (bufId : UInt16) :
    Careful base ls X (sendCommitWrite me ptr fdIdx len bufId : Rt σ Unit) fun _ => X := by
  refine .seq guard_setCurrentTaskMultiple fun _ => .seq guard_currentUdata fun udata => ?_
  refine .look fun s => .seq (guard_tasksIndex _) fun p => .seq (guard_incRc p) fun _ => ?_
  exact guard_pushPending me _ udata false

theorem guard_sendMultipleLoop (me : Caller) (payload : UserDataPayload)
    (b : WBuffer) (len : UInt32) (oversize : Bool) (fds : List UInt32) (idx : Nat) :
    Careful base ls {.write b} (sendMultipleLoop me payload b len oversize fds idx : Rt σ Unit)
      fun _ => {.write b} := by
  induction fds generalizing idx with
  | nil => exact .ret () rfl
  | cons fd fds ih =>
    refine .seq (guard_wBufferClone b) fun b' => ?_
    rw [add_comm]
    refine .seq ((guard_wBufferWrite b' fd len _).frame _) fun e => ?_
    rw [zero_add]
    exact .seq (guard_pushPending me _ _ oversize) fun _ => ih (idx + 1)

theorem guard_sendMultipleWrite (me : Caller) (fds : List UInt32) (b : WBuffer) (len : UInt32) :
    Careful base ls {.write b} (sendMultipleWrite me fds b len : Rt σ Unit) fun _ => 0 := by
  refine .look fun s => .seq (guard_sendMultipleLoop me _ b len _ fds 0) fun _ => ?_
  refine .seq (guard_tasksIndex _) fun p => .seq (guard_bumpRc rfl rfl p _) fun _ => ?_
  exact guard_wBufferDrop b

/-! ## Polls -/

theorem checkoutRead_error {p : BufPool 1} {idx fd bytes : UInt32} {e : Fault}
    (h : p.checkoutRead idx fd bytes = .error e) : e = .panic .readIndex := by
  unfold BufPool.checkoutRead at h
  split at h
  · cases h
  · exact (Except.error.inj h).symm

/-- A buffer that the pool checks out lies in its slot. -/
theorem Stock.checkout {s : State σ} {F : Multiset Item} {idx fd bytes : UInt32} {b : RwBuffer}
    (h : Stock base ls s (F + 0)) (hc : s.buffer.checkoutRead idx fd bytes = .ok b) :
    Stock base ls s (F + {.read b}) := by
  refine ⟨h.pos, h.slab, ?_, fun t ht => ?_, h.locals, h.base⟩
  · have heq : handlesAt (F + 0) = handlesAt (F + {.read b}) := by
      funext a
      rw [handlesAt_add, handlesAt_add, handlesAt_read, handlesAt_zero]
    exact heq ▸ h.pool
  · rcases Multiset.mem_add.mp ht with ht | ht
    · exact h.sound t (Multiset.mem_add.mpr (.inl ht))
    · obtain rfl := Multiset.mem_singleton.mp ht
      unfold BufPool.checkoutRead at hc
      split at hc
      · rename_i hlt
        rw [h.pool.readCount] at hlt
        obtain rfl := Except.ok.inj hc
        exact ⟨UInt32.lt_iff_toNat_lt.mp hlt, by rw [← h.base], rfl⟩
      · cases hc

/-- What a poll leaves: what it hands back, and what it leaves in the local. -/
def remaining (r : Out × Value) : Multiset Item := r.1.items + r.2.items

/-- A poll hands something back, and leaves nothing in the local. -/
theorem Stock.handed {s : State σ} {F : Multiset Item} (h : Stock base ls s (F + X)) :
    Stock base ls s (F + (X + 0)) := by
  rwa [add_zero]

/-- A poll hands nothing back, and leaves something in the local. -/
theorem Stock.kept {s : State σ} {F : Multiset Item} (h : Stock base ls s (F + X)) :
    Stock base ls s (F + (0 + X)) := by
  rwa [zero_add]

theorem guard_pollRead (me : Caller) (f : ReadFuture) :
    Careful base ls 0 (pollValue me (.read f) : Rt σ (Out × Value)) remaining := by
  intro s F h
  cases f with
  | init fd =>
    simp only [pollValue, ReadFuture.poll, wp_bind]
    exact wp_mono (guard_sendOne me _ s F h) (fun _ s1 h1 => h1) fun _ _ h => h
  | pending fd =>
    simp only [pollValue, ReadFuture.poll, currentResult, currentCqeFlags, wp_bind, wp_get, wp_pure]
    rw [wp_ite]
    cases bufferSelect s.currentTask.flags with
    | none => exact ⟨fun _ => h, fun _ => .of_outer rfl⟩
    | some id =>
      refine ⟨fun _ => ?_, fun _ => ?_⟩
      · rw [wp_bind]
        exact wp_mono (guard_releaseReadBuf id.toUInt32 s F h) (fun _ s1 h1 => h1) fun _ _ h => h
      · simp only [wp_bind, wp_get]
        cases hc : s.buffer.checkoutRead id.toUInt32 fd s.currentTask.result.toUInt32 with
        | error e =>
          obtain rfl := checkoutRead_error hc
          exact .of_outer rfl
        | ok b => exact (h.checkout hc).handed

theorem guard_pollReadStream (me : Caller) (st : ReadStream) :
    Careful base ls 0 (pollValue me (.readStream st) : Rt σ (Out × Value)) remaining := by
  intro s F h
  obtain ⟨fd, state⟩ := st
  cases state with
  | init =>
    simp only [pollValue, ReadStream.pollNext, wp_bind]
    exact wp_mono (guard_sendMultishot me _ s F h) (fun _ s1 h1 => h1) fun _ _ h => h
  | done => exact h
  | running =>
    simp only [pollValue, ReadStream.pollNext, currentResult, currentCqeFlags, wp_bind,
      wp_get, wp_pure]
    rw [wp_ite]
    refine ⟨fun _ => h, fun _ => ?_⟩
    cases bufferSelect s.currentTask.flags with
    | none => exact .of_outer rfl
    | some id =>
      simp only [wp_bind, wp_get]
      cases hc : s.buffer.checkoutRead id.toUInt32 fd s.currentTask.result.toUInt32 with
      | error e =>
        obtain rfl := checkoutRead_error hc
        exact .of_outer rfl
      | ok b => exact (h.checkout hc).handed

theorem guard_pollCommit (me : Caller) (f : CommitFuture) :
    Careful base ls (Value.commit f).items (pollValue me (.commit f) : Rt σ (Out × Value))
    remaining := by
  intro s F h
  cases f with
  | init => exact h.not_broken.elim
  | pending id =>
    simp only [pollValue, CommitFuture.poll, currentResult, wp_bind, wp_get, wp_pure]
    exact wp_mono (guard_releaseReadBuf id s F h) (fun _ s1 h1 => h1) fun _ _ h => h

theorem guard_pollCommitFn (me : Caller) (b : RwBuffer) (len : UInt32) :
    Careful base ls {.read b} (pollValue me (.commitFn b len) : Rt σ (Out × Value)) remaining := by
  intro s F h
  have hx := h.forget fun a => handlesAt_read b a
  simp only [pollValue, CommitFuture.poll, wp_bind]
  exact wp_mono (guard_sendCommitWrite me _ _ _ _ s F hx) (fun _ s1 h1 => h1) fun _ _ h => h

theorem guard_pollWriteMultiple (me : Caller) (f : WriteMultipleFuture) :
    Careful base ls (Value.writeMultiple f).items
    (pollValue me (.writeMultiple f) : Rt σ (Out × Value))
      remaining := by
  intro s F h
  cases f with
  | poisoned => exact h.not_broken.elim
  | init fds b len =>
    simp only [pollValue, WriteMultipleFuture.poll, wp_bind]
    refine wp_mono (guard_wBufferClone b s F h) (fun b' s1 h1 => ?_) fun _ _ h => h
    rw [← add_assoc] at h1
    refine wp_mono (guard_sendMultipleWrite me fds b' len s1 _ h1)
      (fun _ s2 h2 => ?_) fun _ _ h => h
    have h3 : Stock base ls s2 (F + {.write b} + 0) := h2
    rw [add_zero] at h3
    exact h3.kept
  | pending k fds faileds len b =>
    simp only [pollValue, WriteMultipleFuture.poll, wp_bind]
    rw [wp_ite]
    refine ⟨fun _ => .of_outer rfl, fun hk => ?_⟩
    simp only [wp_bind, wp_get]
    cases fds[s.currentTask.responseGen.toNat]? with
    | none => exact .of_outer rfl
    | some fd =>
      simp only
      rw [wp_ite]
      refine ⟨fun _ => .of_outer rfl, fun hused => ?_⟩
      rw [wp_ite]
      refine ⟨fun hlast => ?_, fun hlast => ?_⟩
      · simp only [advanceSyscallNb, wp_bind, wp_modify]
        refine wp_mono (guard_tasksIndex _ s F h) (fun p s1 h1 => ?_) fun _ _ h => h
        refine wp_mono (guard_augmenteSyscallNb p s1 F h1) (fun _ s2 h2 => ?_) fun _ _ h => h
        have h3 : Stock base ls { s2 with currentTask := s2.currentTask.setToNextTask }
            (F + {.write b}) :=
          h2.unmoved ⟨rfl, rfl, rfl⟩
        simp only [wp_pure, dropValue, wp_bind]
        exact wp_mono (guard_wBufferDrop b _ F h3) (fun _ s3 h4 => h4) fun _ _ h => h
      · exact h.kept

/-- **The poll of a value**: what it holds is what it hands back and keeps, and it fails without
blame. -/
theorem guard_pollValue (me : Caller) (val : Value) :
    Careful base ls val.items (pollValue me val : Rt σ (Out × Value)) remaining := by
  cases val with
  | read f => exact guard_pollRead me f
  | readStream st => exact guard_pollReadStream me st
  | commit f => exact guard_pollCommit me f
  | commitFn b len => exact guard_pollCommitFn me b len
  | writeMultiple f => exact guard_pollWriteMultiple me f
  | rwBuffer | wBuffer | returned => exact Careful.fail rfl
  | accept f =>
    intro s F h
    cases f with
    | pending fd =>
      simp only [pollValue, AcceptFuture.poll, wp_bind]
      exact wp_mono (guard_sendOne me _ s F h) (fun _ s1 h1 => h1) fun _ _ h => h
    | submited =>
      simp only [pollValue, AcceptFuture.poll, currentResult, wp_bind, wp_get, wp_pure]
      rw [wp_ite]
      exact ⟨fun _ => h, fun _ => h⟩
  | write f =>
    intro s F h
    cases f with
    | init fd bufId len =>
      simp only [pollValue, WriteFuture.poll, wp_bind]
      exact wp_mono (guard_sendOne me _ s F h) (fun _ s1 h1 => h1) fun _ _ h => h
    | pending => exact h
  | socket f =>
    intro s F h
    cases f with
    | createSocket addr =>
      simp only [pollValue, SocketFuture.poll, wp_bind]
      exact wp_mono (guard_sendOne me _ s F h) (fun _ s1 h1 => h1) fun _ _ h => h
    | connecting fd addr =>
      simp only [pollValue, SocketFuture.poll, wp_bind]
      rw [wp_ite]
      refine ⟨fun _ => ?_, fun _ => h⟩
      simp only [currentResult, wp_bind, wp_get, wp_pure, wp_withLocal_sendConnect]
      exact wp_mono (guard_sendOne me _ s F h) (fun _ s1 h1 => h1) fun _ _ h => h
    | pending => exact h.not_broken.elim
  | acceptStream st =>
    intro s F h
    obtain ⟨fd, state⟩ := st
    cases state with
    | init =>
      simp only [pollValue, AcceptStream.pollNext, wp_bind]
      exact wp_mono (guard_sendMultishot me _ s F h) (fun _ s1 h1 => h1) fun _ _ h => h
    | done => exact h
    | running =>
      simp only [pollValue, AcceptStream.pollNext, currentResult, currentCqeFlags, wp_bind,
        wp_get, wp_pure]
      rw [wp_ite]
      exact ⟨fun _ => h, fun _ => h⟩

end Stock

end Onlyio
