import Onlyio.Machine.Custody
import Onlyio.Machine.Stack

/-!
# The programs keep the ledger

One specification for each program of the runtime below the polls of a block: how it changes the
tokens, while the locals of every block stay what they are (`Books`). A program that touches neither
the buffers, the logs nor the slab leaves the state `Alike`; the others give back, take or record
tokens, as the rules of `Ledger` allow.

* `books_releaseReadBuf`, `books_dropValue`: what comes back to the ring and to the pool.
* **`books_pollValue`**: the poll of a future or a stream, with the tokens that it leaves behind.
-/

namespace Onlyio

open Lib

variable {σ : Type}

/-- The ledger, while the blocks have the locals `ls` and there are at least `n` tasks. -/
structure Books (m : Epoch) (n : Nat) (ls : List (List (Option Value))) (s : State σ)
    (T : Multiset Token) : Prop where
  ledger : Ledger m s T
  locals : s.locals = ls
  heap : n ≤ s.heap.length

/-- Nothing that the ledger is about is different. -/
structure Alike (s s' : State σ) : Prop where
  tasks : s'.tasks = s.tasks
  buffer : s'.buffer = s.buffer
  bufRing : s'.bufRing = s.bufRing
  cq : s'.ring.cq = s.ring.cq
  logs : s'.logs = s.logs
  locals : s'.locals = s.locals

section Heap

variable {s : State σ} {p : TaskPtr} {f : RawTask σ → RawTask σ}

theorem map_modify {α β : Type} {l : List α} {p : Nat} {f : α → α} {g : α → β} {f' : β → β}
    (h : ∀ a, g (f a) = f' (g a)) : (l.modify p f).map g = (l.map g).modify p f' := by
  refine List.ext_getElem? fun i => ?_
  rw [List.getElem?_map, List.getElem?_modify, List.getElem?_modify, List.getElem?_map]
  cases l[i]? with
  | none => rfl
  | some a =>
    show some (g (if p = i then f a else a)) = some (if p = i then f' (g a) else g a)
    split
    · rw [h]
    · rfl

theorem map_modify_of_eq {α β : Type} {l : List α} {p : Nat} {f : α → α} {g : α → β}
    (h : ∀ a, g (f a) = g a) : (l.modify p f).map g = l.map g := by
  have hid : ∀ a, g (f a) = id (g a) := h
  rw [map_modify hid, List.modify_id]

theorem alike_modifyRaw (hlog : ∀ raw, (f raw).log = raw.log)
    (hlocals : ∀ raw, (f raw).future.locals = raw.future.locals) : Alike s (s.modifyRaw p f) :=
  ⟨rfl, rfl, rfl, rfl, map_modify_of_eq hlog, map_modify_of_eq hlocals⟩

end Heap

section Books

variable {m : Epoch} {n : Nat} {ls : List (List (Option Value))} {X : Multiset Token} {α : Type}

theorem Books.alike {s s' : State σ} {T : Multiset Token} (h : Books m n ls s T) (ha : Alike s s') :
    Books m n ls s' T := by
  refine ⟨h.ledger.congr ha.tasks ha.buffer ha.bufRing ha.cq ha.logs, ?_, ?_⟩
  · rw [ha.locals]
    exact h.locals
  · have hlen := congrArg List.length ha.logs
    rw [State.logs, State.logs, List.length_map, List.length_map] at hlen
    rw [hlen]
    exact h.heap

/-! ## Programs that touch no buffer -/

theorem books_modify {f : State σ → State σ} (hf : ∀ s, Alike s (f s)) :
    Triple (Books m n ls) X (modify f : Rt σ Unit) fun _ => X :=
  .update fun s _ h => h.alike (hf s)

theorem books_writeRaw (p : TaskPtr) {f : RawTask σ → RawTask σ}
    (hlog : ∀ raw, (f raw).log = raw.log)
    (hlocals : ∀ raw, (f raw).future.locals = raw.future.locals) :
    Triple (Books m n ls) X (writeRaw p f) fun _ => X :=
  books_modify fun _ => alike_modifyRaw hlog hlocals

theorem books_liftExcept (e : Except Fault α) :
    Triple (Books m n ls) X (liftExcept e : Rt σ α) fun _ => X := by
  cases e with
  | error e =>
    unfold liftExcept
    exact .fail e
  | ok a =>
    unfold liftExcept
    exact .ret a rfl

theorem books_deref (p : TaskPtr) :
    Triple (Books m n ls) X (deref p : Rt σ (RawTask σ)) fun _ => X := by
  refine .look fun s => ?_
  cases s.heap[p]? with
  | none => exact .fail _
  | some raw => exact .cond (fun _ => .fail _) fun _ => .ret raw rfl

theorem books_bumpRc (overflow mask : Panic) (p : TaskPtr) (count : UInt16) :
    Triple (Books m n ls) X (bumpRc overflow mask p count : Rt σ Unit) fun _ => X := by
  refine .seq (books_deref p) fun raw =>
      .cond (fun _ => .cond (fun _ => .fail _) fun _ => ?_) fun _ =>
    .fail _
  exact books_writeRaw p (fun _ => rfl) fun _ => rfl

theorem books_taskClone (p : TaskPtr) :
    Triple (Books m n ls) X (taskClone p : Rt σ TaskPtr) fun _ => X :=
  .seq (books_bumpRc _ _ p 1) fun _ => .ret p rfl

theorem books_augmenteSyscallNb (p : TaskPtr) :
    Triple (Books m n ls) X (augmenteSyscallNb p : Rt σ Unit) fun _ => X :=
  .seq (books_deref p) fun _ => books_writeRaw p (fun _ => rfl) fun _ => rfl

theorem books_setMultishot (p : TaskPtr) :
    Triple (Books m n ls) X (setMultishot p : Rt σ Unit) fun _ => X :=
  .seq (books_deref p) fun _ => books_writeRaw p (fun _ => rfl) fun _ => rfl

theorem books_tasksIndex (idx : SlabIdx) :
    Triple (Books m n ls) X (tasksIndex idx : Rt σ TaskPtr) fun _ => X :=
  .look fun _ => books_liftExcept _

theorem books_setCurrentTaskMultiple :
    Triple (Books m n ls) X (setCurrentTaskMultiple : Rt σ Unit) fun _ => X :=
  books_modify fun _ => ⟨rfl, rfl, rfl, rfl, rfl, rfl⟩

theorem books_currentUdata : Triple (Books m n ls) X (currentUdata : Rt σ UInt64) fun _ => X :=
  .look fun _ => .ret _ rfl

/-! ## Records -/

theorem recorded_logEvent {s : State σ} {p : TaskPtr} (ev : Event) (hp : p < s.heap.length) :
    (s.modifyRaw p fun raw => { raw with log := raw.log ++ [ev] }).recorded =
      s.recorded + ev.owes := by
  have hraw : s.heap[p]? = some s.heap[p] := List.getElem?_eq_getElem hp
  have hsum := sum_map_modify hraw (fun raw => { raw with log := raw.log ++ [ev] })
    fun raw => (raw.log.map Event.owes).sum
  simp only [State.recorded, State.logs, State.modifyRaw, List.map_map]
  simp only [List.map_append, List.sum_append, List.map_cons, List.map_nil,
    List.sum_cons, List.sum_nil, add_zero] at hsum
  rw [add_comm (s.heap[p].log.map Event.owes).sum, ← add_assoc] at hsum
  exact add_right_cancel hsum

theorem mem_logs_logEvent {s : State σ} {p : TaskPtr} {ev : Event} {log : List Event}
    (h : log ∈ (s.modifyRaw p fun raw => { raw with log := raw.log ++ [ev] }).logs) :
    log ∈ s.logs ∨ ∃ old ∈ s.logs, log = old ++ [ev] := by
  obtain ⟨raw', hraw', rfl⟩ := List.mem_map.mp h
  obtain ⟨i, hi⟩ := List.mem_iff_getElem?.mp hraw'
  rw [State.modifyRaw, List.getElem?_modify] at hi
  obtain ⟨raw, hraw, rfl⟩ := Option.map_eq_some_iff.mp hi
  have hmem := List.mem_map_of_mem (f := RawTask.log) (List.mem_of_getElem? hraw)
  split
  · exact .inr ⟨raw.log, hmem, rfl⟩
  · exact .inl hmem

/-- An event that `p` records settles what was done. -/
theorem books_logEvent {p : TaskPtr} {ev : Event} (hp : p < n ∨ ev.owes = 0)
    (hcqe : ∀ e cls others, ev = .cqe e cls others → e ∈ m.posted) :
    Triple (Books m n ls) (X + ev.owes) (logEvent p ev : Rt σ Unit) fun _ => X := by
  refine .update fun s F h => ?_
  by_cases hlt : p < s.heap.length
  · refine ⟨h.ledger.record rfl rfl rfl rfl ?_ (fun x => ?_)
      (fun hmem => h.ledger.sound ?_) ?_, ?_, ?_⟩
    · rw [recorded_logEvent ev hlt, add_comm s.recorded, add_assoc, add_comm ev.owes,
        add_assoc, add_assoc]
    · obtain ⟨h1, h2, h3⟩ := ev.owes_held x
      simp only [Multiset.count_add, h1, h2, h3, add_zero, and_self]
    · rw [← add_assoc]
      exact Multiset.mem_add.mpr (.inl hmem)
    · intro log hlog e cls others he
      rcases mem_logs_logEvent hlog with hold | ⟨old, hold, rfl⟩
      · exact h.ledger.logged log hold e cls others he
      · rcases List.mem_append.mp he with he | he
        · exact h.ledger.logged old hold e cls others he
        · exact hcqe e cls others (List.mem_singleton.mp he).symm
    · refine Eq.trans ?_ h.locals
      exact map_modify_of_eq fun _ => rfl
    · rw [State.modifyRaw, List.length_modify]
      exact h.heap
  · have howes : ev.owes = 0 := hp.resolve_left fun hn => hlt (lt_of_lt_of_le hn h.heap)
    rw [howes, add_zero] at h
    have hsame : (s.modifyRaw p fun raw => { raw with log := raw.log ++ [ev] }) = s := by
      rw [State.modifyRaw, List.modify_eq_self (Nat.le_of_not_lt hlt)]
    rw [hsame]
    exact h

/-- A record that says nothing of buffers. -/
theorem books_quiet (p : TaskPtr) (ev : Event) (howes : ev.owes = 0)
    (hcqe : ∀ e cls others, ev ≠ .cqe e cls others) :
    Triple (Books m n ls) X (logEvent p ev : Rt σ Unit) fun _ => X := by
  have h : Triple (Books m n ls) (X + ev.owes) (logEvent p ev : Rt σ Unit) fun _ => X :=
    books_logEvent (.inr howes) fun e cls others he => absurd he (hcqe e cls others)
  rwa [howes, add_zero] at h

/-! ## Buffers -/

theorem books_releaseReadBuf {T' : Multiset Token} (id : UInt32) (hT : Trade [id] X T')
    (hwrite : ∀ a, T'.count (.write a) = X.count (.write a)) :
    Triple (Books m n ls) X (releaseReadBuf id : Rt σ Unit) fun _ => T' := by
  intro s F h
  simp only [releaseReadBuf, wp_bind, wp_get]
  cases hr : s.bufRing.release s.buffer id with
  | error e => trivial
  | ok mem => exact ⟨h.ledger.giveBack hr hT hwrite, h.locals, h.heap⟩

/-- A buffer that is dropped. -/
theorem books_rwBufferDrop (b : RwBuffer) :
    Triple (Books m n ls) {b.token} (rwBufferDrop b : Rt σ Unit) fun _ => 0 := by
  unfold rwBufferDrop RwBuffer.token
  split
  · intro s F h
    exact absurd (Multiset.mem_add.mpr (.inr (Multiset.mem_singleton_self _))) h.ledger.sound
  · exact books_releaseReadBuf b.bufIdx (.drop _) (by simp)

theorem Books.writes {s : State σ} {F X Y : Multiset Token} {p : BufPool 1}
    (h : Books m n ls s (F + X)) (hbase : p.base = s.buffer.base)
    (hpool : Pooled p fun a => (F + Y).count (.write a)) (hX : ∀ x ∈ X, ∃ a, x = .write a)
    (hY : ∀ x ∈ Y, ∃ a, x = .write a) : Books m n ls { s with buffer := p } (F + Y) :=
  ⟨h.ledger.repool hbase hpool (.writes hX hY), h.locals, h.heap⟩

theorem count_write_singleton (a b : UInt32) :
    Multiset.count (Token.write a) {.write b} = if b = a then 1 else 0 := by
  rw [Multiset.count_singleton]
  simp only [Token.write.injEq, eq_comm]

theorem books_wBufferDrop (b : WBuffer) :
    Triple (Books m n ls) {.write b.absIdx} (wBufferDrop b : Rt σ Unit) fun _ => 0 := by
  intro s F h
  have hpool := h.ledger.pool
  obtain ⟨p, hdrop, hpool'⟩ := hpool.drop (b := b) (by simp)
  simp only [wBufferDrop, wp_bind, wp_get, hdrop]
  refine h.writes (WBuffer.drop_base hdrop) ?_ (by simp) (by simp)
  simp only [Multiset.count_add, count_write_singleton, Nat.add_sub_cancel] at hpool'
  simpa using hpool'

theorem books_wBufferWrite (b : WBuffer) (fdIdx len : UInt32) (userData : UInt64) :
    Triple (Books m n ls) {.write b.absIdx} (wBufferWrite b fdIdx len userData : Rt σ WriteFixed)
      fun _ => 0 := by
  intro s F h
  have hdrop := books_wBufferDrop b s F h
  simp only [wBufferDrop, wBufferWrite, wp_bind, wp_get, write_eq_drop] at hdrop ⊢
  cases hd : b.drop s.buffer with
  | error e => trivial
  | ok p =>
    rw [hd] at hdrop
    exact hdrop

theorem books_wBufferClone (b : WBuffer) :
    Triple (Books m n ls) {.write b.absIdx} (wBufferClone b : Rt σ WBuffer)
      fun b' => {.write b.absIdx} + {.write b'.absIdx} := by
  intro s F h
  simp only [wBufferClone, wp_bind, wp_get]
  cases hc : b.clone s.buffer with
  | error e => trivial
  | ok r =>
    obtain ⟨b', p⟩ := r
    obtain ⟨rfl, hpool⟩ := h.ledger.pool.clone (by simp) hc
    refine h.writes (WBuffer.clone_base hc) ?_ (by simp) (by simp)
    simp only [Multiset.count_add, count_write_singleton, ← Nat.add_assoc] at hpool ⊢
    exact hpool

theorem books_allocWriteBuffer :
    Triple (Books m n ls) 0 (allocWriteBuffer : Rt σ WBuffer) fun b => {.write b.absIdx} := by
  intro s F h
  simp only [allocWriteBuffer, wp_bind, wp_get]
  cases ha : s.buffer.allocWrite with
  | error e => trivial
  | ok r =>
    obtain ⟨b, p⟩ := r
    have hpool := h.ledger.pool.alloc ha
    refine h.writes (BufPool.allocWrite_base ha) ?_ (by simp) (by simp)
    simp only [Multiset.count_add, count_write_singleton, Multiset.count_zero,
      Nat.add_zero] at hpool ⊢
    exact hpool

theorem books_dropValue (val : Value) :
    Triple (Books m n ls) val.tokens (dropValue val : Rt σ Unit) fun _ => 0 := by
  -- a commit that waits is forgotten, and the library makes no other
  have hforget : ∀ id, Triple (Books m n ls) {.commit id} (pure () : Rt σ Unit) fun _ => 0 :=
    fun id s F h => ⟨h.ledger.exchange (.forget id) (by simp), h.locals, h.heap⟩
  have hspoiled : Triple (Books m n ls) {.spoiled} (pure () : Rt σ Unit) fun _ => 0 := fun s F h =>
    absurd (Multiset.mem_add.mpr (.inr (Multiset.mem_singleton_self _))) h.ledger.sound
  cases val with
  | rwBuffer b | commitFn b => exact books_rwBufferDrop b
  | wBuffer b => exact books_wBufferDrop b
  | commit f =>
    cases f with
    | pending id => exact hforget id
    | init => exact hspoiled
  | writeMultiple f =>
    cases f with
    | init fds b len => exact books_wBufferDrop b
    | pending k fds faileds len b => exact books_wBufferDrop b
    | poisoned => exact .ret () rfl
  | accept | read | write | socket | acceptStream | readStream | returned => exact .ret () rfl

theorem books_dropLocals (L : List (Option Value)) :
    Triple (Books m n ls) (tokensOf L) (dropLocals L : Rt σ Unit) fun _ => 0 := by
  induction L with
  | nil => exact .ret () rfl
  | cons o rest ih =>
    have hsum : tokensOf (o :: rest) = tokensOf rest + slotTokens o := by
      rw [tokensOf, List.map_cons, List.sum_cons, add_comm]
      rfl
    rw [hsum]
    refine .seq (ih.frame _) fun _ => ?_
    rw [zero_add]
    cases o with
    | none => exact .ret () rfl
    | some val => exact books_dropValue val

/-! ## Submissions -/

theorem books_pushPending (me : Caller) (op : SqeOp) (userData : UInt64) (oversize : Bool) :
    Triple (Books m n ls) X (pushPending me op userData oversize : Rt σ Unit) fun _ => X := by
  refine .look fun s => .seq (books_quiet me.task _ rfl (by simp)) fun _ => ?_
  exact books_modify fun _ => ⟨rfl, rfl, rfl, rfl, rfl, rfl⟩

theorem books_sendOne (me : Caller) (op : BufPool 1 → SqeOp) :
    Triple (Books m n ls) X (sendOne me op : Rt σ Unit) fun _ => X := by
  refine .seq books_currentUdata fun udata => .look fun s => .seq (books_tasksIndex _) fun p => ?_
  refine .seq (books_bumpRc _ _ p 1) fun _ => .look fun s' => ?_
  exact books_pushPending me _ udata false

theorem books_sendMultishot (me : Caller) (op : SqeOp) :
    Triple (Books m n ls) X (sendMultishot me op : Rt σ Unit) fun _ => X := by
  refine .seq books_setCurrentTaskMultiple fun _ => .seq books_currentUdata fun udata => ?_
  refine .look fun s => .seq (books_tasksIndex _) fun p => .seq (books_setMultishot p) fun _ => ?_
  refine .seq (books_tasksIndex _) fun p' => .seq (books_bumpRc _ _ p' 1) fun _ => ?_
  exact books_pushPending me op udata false

theorem books_sendCommitWrite (me : Caller) (ptr : Nat) (fdIdx len : UInt32) (bufId : UInt16) :
    Triple (Books m n ls) X (sendCommitWrite me ptr fdIdx len bufId : Rt σ Unit) fun _ => X := by
  refine .seq books_setCurrentTaskMultiple fun _ => .seq books_currentUdata fun udata => ?_
  refine .look fun s => .seq (books_tasksIndex _) fun p => .seq (books_bumpRc _ _ p 1) fun _ => ?_
  exact books_pushPending me _ udata false

/-- Each entry of a fan-out clones the buffer and lets the clone go. -/
theorem books_sendMultipleLoop (me : Caller) (payload : UserDataPayload)
    (b : WBuffer) (len : UInt32) (oversize : Bool) (fds : List UInt32) (idx : Nat) :
    Triple (Books m n ls) {.write b.absIdx}
      (sendMultipleLoop me payload b len oversize fds idx : Rt σ Unit) fun _ =>
      {.write b.absIdx} := by
  induction fds generalizing idx with
  | nil => exact .ret () rfl
  | cons fd fds ih =>
    refine .seq (books_wBufferClone b) fun b' => ?_
    rw [add_comm]
    refine .seq ((books_wBufferWrite b' fd len _).frame _) fun e => ?_
    rw [zero_add]
    exact .seq (books_pushPending me _ _ oversize) fun _ => ih (idx + 1)

theorem books_sendMultipleWrite (me : Caller) (fds : List UInt32) (b : WBuffer) (len : UInt32) :
    Triple (Books m n ls) {.write b.absIdx} (sendMultipleWrite me fds b len : Rt σ Unit)
      fun _ => 0 := by
  refine .look fun s => .seq (books_sendMultipleLoop me _ b len _ fds 0) fun _ => ?_
  refine .seq (books_tasksIndex _) fun p => .seq (books_bumpRc _ _ p _) fun _ => ?_
  exact books_wBufferDrop b

/-! ## Polls -/

/-- The poll was ready. -/
def Out.done : Out → Bool
  | .pending => false
  | _ => true

/-- What a poll leaves in hand: what it hands back, what it leaves in the local, and what it
owes. -/
def left (val : Value) (info : TaskInfo) (r : Out × Value) : Multiset Token :=
  r.1.tokens + r.2.tokens + val.owes info r.1.done

/-- What a checked-out buffer holds. -/
theorem BufPool.token_checkoutRead {p : BufPool 1} {idx fd bytes : UInt32} {b : RwBuffer}
    (h : p.checkoutRead idx fd bytes = .ok b) : b.token = .read idx := by
  unfold BufPool.checkoutRead at h
  split at h
  · obtain rfl := Except.ok.inj h
    rfl
  · cases h

/-- A buffer is taken from the context. -/
theorem Books.checkout {s : State σ} {F : Multiset Token} (h : Books m n ls s (F + 0))
    (id : UInt32) : Books m n ls s (F + ({.read id} + {.took id})) :=
  ⟨h.ledger.exchange (.checkout id) (by simp), h.locals, h.heap⟩

theorem books_pollRead (me : Caller) (f : ReadFuture) {s : State σ} {F : Multiset Token}
    (h : Books m n ls s F) :
    wp (pollValue me (.read f)) (fun r s' => Books m n ls s' (F + left (.read f) s.currentTask r))
      (fun _ _ => True) s := by
  rw [← add_zero F] at h
  cases f with
  | init fd =>
    simp only [pollValue, ReadFuture.poll, wp_bind]
    exact wp_mono (books_sendOne me _ s F h) (fun _ s1 h1 => h1) fun _ _ h => h
  | pending fd =>
    simp only [pollValue, ReadFuture.poll, currentResult, currentCqeFlags, wp_bind, wp_get, wp_pure]
    rw [wp_ite]
    cases hb : bufferSelect s.currentTask.flags with
    | none =>
      have hsel : selected s.currentTask.flags = none := by rw [selected, hb]; rfl
      refine ⟨fun _ => ?_, fun _ => trivial⟩
      simpa [left, Out.tokens, Value.tokens, Value.owes, hsel, Out.done] using h
    | some id =>
      have hsel : selected s.currentTask.flags = some id.toUInt32 := by rw [selected, hb]; rfl
      refine ⟨fun _ => ?_, fun _ => ?_⟩
      · rw [wp_bind]
        refine wp_mono (books_releaseReadBuf id.toUInt32 (.failed _) (by simp) s F h)
          (fun _ s1 h1 => ?_) fun _ _ h => h
        simpa [left, Out.tokens, Value.tokens, Value.owes, hsel, Out.done] using h1
      · simp only [wp_bind, wp_get]
        cases hc : s.buffer.checkoutRead id.toUInt32 fd s.currentTask.result.toUInt32 with
        | error e => trivial
        | ok b =>
          have htok := BufPool.token_checkoutRead hc
          have hx := h.checkout id.toUInt32
          show Books m n ls s (F + left (.read (.pending fd)) s.currentTask (.buffer b, .returned))
          simpa [left, Out.tokens, Value.tokens, Value.owes, hsel, Out.done, htok] using hx

theorem books_pollReadStream (me : Caller) (st : ReadStream) {s : State σ} {F : Multiset Token}
    (h : Books m n ls s F) :
    wp (pollValue me (.readStream st))
      (fun r s' => Books m n ls s' (F + left (.readStream st) s.currentTask r))
        (fun _ _ => True) s := by
  rw [← add_zero F] at h
  obtain ⟨fd, state⟩ := st
  cases state with
  | init =>
    simp only [pollValue, ReadStream.pollNext, wp_bind]
    exact wp_mono (books_sendMultishot me _ s F h) (fun _ s1 h1 => h1) fun _ _ h => h
  | done => simpa [pollValue, ReadStream.pollNext, left, Out.tokens, Value.tokens,
      Value.owes] using h
  | running =>
    simp only [pollValue, ReadStream.pollNext, currentResult, currentCqeFlags, wp_bind,
      wp_get, wp_pure]
    rw [wp_ite]
    refine ⟨fun hneg => ?_, fun hpos => ?_⟩
    · simpa [left, Out.tokens, Value.tokens, Value.owes, hneg, Out.done] using h
    · cases hb : bufferSelect s.currentTask.flags with
      | none => trivial
      | some id =>
        have hsel : selected s.currentTask.flags = some id.toUInt32 := by rw [selected, hb]; rfl
        simp only [wp_bind, wp_get]
        cases hc : s.buffer.checkoutRead id.toUInt32 fd s.currentTask.result.toUInt32 with
        | error e => trivial
        | ok b =>
          have htok := BufPool.token_checkoutRead hc
          have hx := h.checkout id.toUInt32
          show Books m n ls s
            (F + left (.readStream ⟨fd, .running⟩) s.currentTask (.buffer b, .readStream _))
          simpa [left, Out.tokens, Value.tokens, Value.owes, hsel, hpos, Out.done, htok] using hx

theorem books_pollCommit (me : Caller) (f : CommitFuture) {s : State σ} {F : Multiset Token}
    (h : Books m n ls s (F + (Value.commit f).tokens)) :
    wp (pollValue me (.commit f))
    (fun r s' => Books m n ls s' (F + left (.commit f) s.currentTask r))
      (fun _ _ => True) s := by
  cases f with
  | init =>
    exact absurd (Multiset.mem_add.mpr (.inr (Multiset.mem_singleton_self _))) h.ledger.sound
  | pending id =>
    simp only [pollValue, CommitFuture.poll, currentResult, wp_bind, wp_get, wp_pure]
    refine wp_mono (books_releaseReadBuf id (.settle _) (by simp) s F h) (fun _ s1 h1 => ?_)
      fun _ _ h => h
    simpa [left, Out.tokens, Value.tokens, Value.owes, Out.done] using h1

theorem books_pollCommitFn (me : Caller) (b : RwBuffer) (len : UInt32) {s : State σ}
    {F : Multiset Token} (h : Books m n ls s (F + (Value.commitFn b len).tokens)) :
    wp (pollValue me (.commitFn b len))
      (fun r s' => Books m n ls s' (F + left (.commitFn b len) s.currentTask r))
        (fun _ _ => True) s := by
  have htok : (Value.commitFn b len).tokens = {.read b.bufIdx} := by
    cases hc : b.committed with
    | true =>
      refine absurd (Multiset.mem_add.mpr (.inr ?_)) h.ledger.sound
      simp [Value.tokens, RwBuffer.token, hc]
    | false => simp [Value.tokens, RwBuffer.token, hc]
  rw [htok] at h
  have hx : Books m n ls s (F + _) :=
    ⟨h.ledger.exchange (.submit b.bufIdx) (by simp), h.locals, h.heap⟩
  simp only [pollValue, CommitFuture.poll, wp_bind]
  refine wp_mono (books_sendCommitWrite me _ _ _ _ s F hx) (fun _ s1 h1 => ?_) fun _ _ h => h
  simpa [left, Out.tokens, Value.tokens, Value.owes, Out.done] using h1

theorem books_pollWriteMultiple (me : Caller) (f : WriteMultipleFuture) {s : State σ}
    {F : Multiset Token} (h : Books m n ls s (F + (Value.writeMultiple f).tokens)) :
    wp (pollValue me (.writeMultiple f))
      (fun r s' => Books m n ls s' (F + left (.writeMultiple f) s.currentTask r))
        (fun _ _ => True) s := by
  cases f with
  | poisoned => trivial
  | init fds b len =>
    simp only [pollValue, WriteMultipleFuture.poll, wp_bind]
    refine wp_mono (books_wBufferClone b s F h) (fun b' s1 h1 => ?_) fun _ _ h => h
    rw [← add_assoc] at h1
    refine wp_mono (books_sendMultipleWrite me fds b' len s1 _ h1)
      (fun _ s2 h2 => ?_) fun _ _ h => h
    simpa [left, Out.tokens, Value.tokens, Value.owes, Out.done] using h2
  | pending k fds faileds len b =>
    simp only [pollValue, WriteMultipleFuture.poll, wp_bind]
    rw [wp_ite]
    refine ⟨fun _ => trivial, fun hk => ?_⟩
    simp only [wp_bind, wp_get]
    cases hfd : fds[s.currentTask.responseGen.toNat]? with
    | none => trivial
    | some fd =>
      simp only
      rw [wp_ite]
      refine ⟨fun _ => trivial, fun hused => ?_⟩
      rw [wp_ite]
      refine ⟨fun hlast => ?_, fun hlast => ?_⟩
      · simp only [advanceSyscallNb, wp_bind, wp_modify]
        refine wp_mono (books_tasksIndex _ s F h) (fun p s1 h1 => ?_) fun _ _ h => h
        refine wp_mono (books_augmenteSyscallNb p s1 F h1) (fun _ s2 h2 => ?_) fun _ _ h => h
        have h3 : Books m n ls { s2 with currentTask := s2.currentTask.setToNextTask }
            (F + {.write b.absIdx}) := h2.alike ⟨rfl, rfl, rfl, rfl, rfl, rfl⟩
        simp only [wp_pure, dropValue, wp_bind]
        refine wp_mono (books_wBufferDrop b _ F h3) (fun _ s3 h4 => ?_) fun _ _ h => h
        simpa [left, Out.tokens, Value.tokens, Value.owes, Out.done] using h4
      · simpa [left, Out.tokens, Value.tokens, Value.owes, Out.done] using h

/-- **The poll of a value**: what it holds becomes what it hands back and keeps, and what it
owes. -/
theorem books_pollValue (me : Caller) (val : Value) {s : State σ} {F : Multiset Token}
    (h : Books m n ls s (F + val.tokens)) :
    wp (pollValue me val) (fun r s' => Books m n ls s' (F + left val s.currentTask r))
    (fun _ _ => True) s := by
  cases val with
  | read f => exact books_pollRead me f (by simpa [Value.tokens] using h)
  | readStream st => exact books_pollReadStream me st (by simpa [Value.tokens] using h)
  | commit f => exact books_pollCommit me f h
  | commitFn b len => exact books_pollCommitFn me b len h
  | writeMultiple f => exact books_pollWriteMultiple me f h
  | rwBuffer | wBuffer | returned => trivial
  | accept f =>
    cases f with
    | pending fd =>
      simp only [pollValue, AcceptFuture.poll, wp_bind]
      exact wp_mono (books_sendOne me _ s F h) (fun _ s1 h1 => h1) fun _ _ h => h
    | submited =>
      simp only [pollValue, AcceptFuture.poll, currentResult, wp_bind, wp_get, wp_pure]
      rw [wp_ite]
      exact ⟨fun _ => h, fun _ => h⟩
  | write f =>
    cases f with
    | init fd bufId len =>
      simp only [pollValue, WriteFuture.poll, wp_bind]
      exact wp_mono (books_sendOne me _ s F h) (fun _ s1 h1 => h1) fun _ _ h => h
    | pending => exact h
  | socket f =>
    cases f with
    | createSocket addr =>
      simp only [pollValue, SocketFuture.poll, wp_bind]
      exact wp_mono (books_sendOne me _ s F h) (fun _ s1 h1 => h1) fun _ _ h => h
    | connecting fd addr =>
      simp only [pollValue, SocketFuture.poll, wp_bind]
      rw [wp_ite]
      refine ⟨fun _ => ?_, fun _ => h⟩
      simp only [currentResult, wp_bind, wp_get, wp_pure, wp_withLocal_sendConnect]
      exact wp_mono (books_sendOne me _ s F h) (fun _ s1 h1 => h1) fun _ _ h => h
    | pending => trivial
  | acceptStream st =>
    obtain ⟨fd, state⟩ := st
    cases state with
    | init =>
      simp only [pollValue, AcceptStream.pollNext, wp_bind]
      exact wp_mono (books_sendMultishot me _ s F h) (fun _ s1 h1 => h1) fun _ _ h => h
    | done => exact h
    | running =>
      simp only [pollValue, AcceptStream.pollNext, currentResult, currentCqeFlags, wp_bind,
        wp_get, wp_pure]
      rw [wp_ite]
      exact ⟨fun _ => h, fun _ => h⟩

end Books

end Onlyio
