import Onlyio.Machine.Ledger

/-!
# What the blocks hold

The ledger over whole polls: between two instructions, the tokens that exist are those of the
blocks. A value that moves out of a local, into another one or into a spawned block takes its tokens
along; what is dropped gives them back.

* `owns_pollLocal`: a poll of a local settles what it owes when it is recorded.
* **`owns_pollFn`**: a poll of a task keeps the ledger, with all the spawns inside it.
* **`owns_handleCqeEntry`**: so does a completion.
-/

namespace Onlyio

open Lib

variable {σ : Type}

/-- The ledger, when the blocks hold everything but `X`. -/
structure Owns (m : Epoch) (n : Nat) (s : State σ) (X : Multiset Token) : Prop where
  ledger : Ledger m s (s.tokens + X)
  heap : n ≤ s.heap.length

/-! ## Locals -/

section Locals

variable {L : List (Option Value)} {v : Var} {o o' : Option Value}

theorem tokensOf_append (L : List (Option Value)) (o : Option Value) :
    tokensOf (L ++ [o]) = tokensOf L + slotTokens o := by
  simp [tokensOf]

theorem tokensOf_set (h : L[v]? = some o) (o' : Option Value) :
    tokensOf (L.set v o') + slotTokens o = tokensOf L + slotTokens o' := by
  have hsum := sum_map_modify h (fun _ => o') slotTokens
  rwa [← List.set_eq_modify] at hsum

/-- One local of one block is rewritten. -/
theorem sum_set {ls : List (List (Option Value))} {p : TaskPtr} (hL : ls[p]? = some L)
    (h : L[v]? = some o) (o' : Option Value) :
    ((ls.modify p fun L => L.set v o').map tokensOf).sum + slotTokens o =
      (ls.map tokensOf).sum + slotTokens o' := by
  have hsum := sum_map_modify hL (fun L => L.set v o') tokensOf
  have hset := tokensOf_set h o'
  refine add_right_cancel (b := tokensOf L) ?_
  rw [add_right_comm, hsum, add_assoc, hset, add_comm (tokensOf L), add_assoc]

end Locals

section Owns

variable {m : Epoch} {n : Nat} {X Y F : Multiset Token} {s : State σ} {p : TaskPtr}
  {raw : RawTask σ}

theorem Owns.le {n' : Nat} (h : Owns m n s X) (hn : n' ≤ n) : Owns m n' s X :=
  ⟨h.ledger, hn.trans h.heap⟩

/-- A program that does not touch the locals. -/
theorem owns_of_books {α : Type} {x : Rt σ α} {Z : α → Multiset Token}
    (h : ∀ ls, Triple (Books m n ls) X x Z) : Triple (Owns m n) X x Z := by
  intro s F hs
  have hb : Books m n s.locals s (s.tokens + F + X) :=
    ⟨by rw [add_assoc]; exact hs.ledger, rfl, hs.heap⟩
  refine wp_mono (h s.locals s _ hb) (fun a s' h' => ⟨?_, h'.heap⟩) fun _ _ h => h
  have htok : s'.tokens = s.tokens := by rw [State.tokens, h'.locals]; rfl
  rw [htok, ← add_assoc]
  exact h'.ledger

/-- The future of `p` is rewritten. -/
theorem Owns.writeFut (h : Owns m n s (F + X)) (hraw : s.heap[p]? = some raw)
    (f : AsyncBlock σ → AsyncBlock σ)
    (hf : tokensOf (f raw.future).locals + Y = tokensOf raw.future.locals + X) :
    Owns m n (s.modifyRaw p fun raw => { raw with future := f raw.future }) (F + Y) := by
  have hsum := sum_map_modify hraw (fun raw => { raw with future := f raw.future })
    fun raw => tokensOf raw.future.locals
  have htok : (s.modifyRaw p fun raw => { raw with future := f raw.future }).tokens + (F + Y) =
      s.tokens + (F + X) := by
    simp only [State.tokens, State.locals, State.modifyRaw, List.map_map]
    refine add_right_cancel (b := tokensOf raw.future.locals) ?_
    calc _ = ((s.heap.modify p fun raw => { raw with future := f raw.future }).map
          fun raw => tokensOf raw.future.locals).sum + tokensOf raw.future.locals + (F + Y) := by
          rw [add_right_comm]; rfl
      _ = (s.heap.map fun raw => tokensOf raw.future.locals).sum + tokensOf (f raw.future).locals +
          (F + Y) := by rw [hsum]
      _ = (s.heap.map fun raw => tokensOf raw.future.locals).sum + F +
          (tokensOf (f raw.future).locals + Y) := by ac_rfl
      _ = _ := by
          rw [hf]
          simp only [Function.comp_def]
          ac_rfl
  refine ⟨?_, by rw [State.modifyRaw, List.length_modify]; exact h.heap⟩
  rw [htok]
  exact h.ledger.congr rfl rfl rfl rfl (map_modify_of_eq fun _ => rfl)

/-- What follows a handle that is alive. -/
theorem owns_deref {α : Type} {x : RawTask σ → Rt σ α} {Z : α → Multiset Token}
    (h : ∀ (s : State σ) raw F, s.heap[p]? = some raw → Owns m n s (F + X) →
      wp (x raw) (fun a s' => Owns m n s' (F + Z a)) (fun _ _ => True) s) :
    Triple (Owns m n) X (deref p >>= x) Z := by
  intro s F hs
  simp only [deref, wp_bind, wp_get]
  cases hraw : s.heap[p]? with
  | none => trivial
  | some raw =>
    simp only
    rw [wp_ite]
    exact ⟨fun _ => trivial, fun _ => h s raw F hraw hs⟩

/-- What follows a local that holds a value. -/
theorem owns_getLocal {α : Type} {v : Var} {x : Value → Rt σ α} {Z : α → Multiset Token}
    (h : ∀ (s : State σ) raw val F, s.heap[p]? = some raw →
    raw.future.locals[v]? = some (some val) →
      Owns m n s (F + X) → wp (x val) (fun a s' => Owns m n s' (F + Z a)) (fun _ _ => True) s) :
    Triple (Owns m n) X (getLocal p v >>= x) Z := by
  simp only [getLocal, bind_assoc]
  refine owns_deref fun s raw F hraw hs => ?_
  split
  · rename_i val hval
    exact h s raw val F hraw hval hs
  · trivial

theorem owns_takeLocal (p : TaskPtr) (v : Var) :
    Triple (Owns m n) 0 (takeLocal p v : Rt σ Value) Value.tokens := by
  refine owns_getLocal fun s raw val F hraw hval hs => ?_
  refine hs.writeFut hraw (fun b => { b with locals := b.locals.set v none }) ?_
  have hset := tokensOf_set hval none
  simpa [slotTokens] using hset

theorem owns_addLocal (p : TaskPtr) (val : Value) :
    Triple (Owns m n) val.tokens (addLocal p val : Rt σ Var) fun _ => 0 := by
  refine owns_deref fun s raw F hraw hs => ?_
  refine hs.writeFut hraw (fun b => { b with locals := b.locals ++ [some val] }) ?_
  rw [tokensOf_append, add_zero]
  rfl

theorem owns_goto (p : TaskPtr) (k : σ) : Triple (Owns m n) X (goto p k) fun _ => X := by
  refine .seq (owns_of_books fun ls => ?_) fun _ => .ret _ rfl
  exact books_writeRaw p (fun _ => rfl) fun _ => rfl

theorem owns_takeMoved (p : TaskPtr) (moved : List (Kind × Var)) :
    Triple (Owns m n) 0 (takeMoved p moved : Rt σ (List (Option Value))) tokensOf := by
  induction moved with
  | nil => exact .ret _ rfl
  | cons km moved ih =>
    obtain ⟨kind, v⟩ := km
    refine .seq (owns_takeLocal p v) fun val => .cond (fun _ => ?_) fun _ => .fail _
    have hrest := ih.frame val.tokens
    rw [zero_add] at hrest
    refine .seq hrest fun L => .ret _ ?_
    rw [add_comm]
    rfl

theorem owns_makeValue (p : TaskPtr) (op : Op) :
    Triple (Owns m n) 0 (makeValue p op : Rt σ Value) Value.tokens := by
  cases op with
  | accept | read | write | connect => exact .ret _ rfl
  | commit buf len =>
    refine .seq (owns_takeLocal p buf) fun val => ?_
    cases val with
    | rwBuffer b => exact .ret _ rfl
    | _ => exact .fail _
  | writeMultiple buf fds len =>
    refine .seq (owns_takeLocal p buf) fun val => ?_
    cases val with
    | wBuffer b => exact .ret _ rfl
    | _ => exact .fail _

/-- Binding what a poll handed back; the code gets a response exactly when the poll was ready. -/
theorem owns_bindOut (p : TaskPtr) (out : Out) (h : Owns m n s (F + out.tokens)) :
    wp (bindOut p out) (fun r s' => r.isSome = out.done ∧ Owns m n s' (F + 0))
    (fun _ _ => True) s := by
  cases out with
  | pending | ready => exact ⟨rfl, h⟩
  | buffer b =>
    simp only [bindOut, wp_bind]
    exact wp_mono (owns_addLocal p (.rwBuffer b) s F h) (fun _ s' h' => ⟨rfl, h'⟩) fun _ _ h => h

theorem locals_writeLocals (s : State σ) (p : TaskPtr) (f : List (Option Value) →
    List (Option Value)) : (s.modifyRaw p fun raw =>
      { raw with future := { raw.future with locals := f raw.future.locals } }).locals =
      s.locals.modify p f :=
  map_modify fun _ => rfl

/-- What the blocks hold besides one value. -/
theorem exists_rest {v : Var} {val : Value} (hraw : s.heap[p]? = some raw)
    (hval : raw.future.locals[v]? = some (some val)) : ∃ rest, s.tokens = rest + val.tokens ∧
      ∀ val' : Value, ((s.locals.modify p fun L => L.set v (some val')).map tokensOf).sum =
        rest + val'.tokens := by
  have hL : s.locals[p]? = some raw.future.locals := by
    rw [State.locals, List.getElem?_map, hraw]; rfl
  have hall := sum_set hL hval none
  simp only [slotTokens, Option.elim, add_zero] at hall
  refine ⟨_, hall.symm, fun val' => ?_⟩
  refine add_right_cancel (b := val.tokens) ((sum_set hL hval (some val')).trans ?_)
  rw [add_right_comm, hall]
  rfl

theorem owns_pollLocal (p : TaskPtr) (v : Var) :
    Triple (Owns m n) 0 (pollLocal p v : Rt σ (Option Resp)) fun _ => 0 := by
  refine owns_getLocal fun s raw val F hraw hval hs => ?_
  have hp : p < s.heap.length := (List.getElem?_eq_some_iff.mp hraw).1
  obtain ⟨rest, hall, hset⟩ := exists_rest hraw hval
  have hbooks : Books m (max n (p + 1)) s.locals s (rest + F + val.tokens) := by
    refine ⟨?_, rfl, Nat.max_le.mpr ⟨hs.heap, hp⟩⟩
    have hl := hs.ledger
    rwa [hall, add_zero, add_right_comm] at hl
  simp only [wp_bind, wp_get]
  refine wp_mono (books_pollValue ⟨p, v⟩ val hbooks) (fun r s1 h1 => ?_) fun _ _ h => h
  obtain ⟨out, val'⟩ := r
  -- the value goes back to its local
  have h2 : Owns m (max n (p + 1)) (s1.modifyRaw p fun raw =>
      { raw with future := { raw.future with locals := raw.future.locals.set v (some val') } })
      (F + val.owes s.currentTask out.done + out.tokens) := by
    refine ⟨?_, by rw [State.modifyRaw, List.length_modify]; exact h1.heap⟩
    have hl := h1.ledger
    rw [State.tokens, locals_writeLocals s1 p fun L => L.set v (some val'), h1.locals, hset]
    have heq : rest + F + left val s.currentTask (out, val') =
        rest + val'.tokens + (F + val.owes s.currentTask out.done + out.tokens) := by
      unfold left
      ac_rfl
    rw [heq] at hl
    exact hl.congr rfl rfl rfl rfl (map_modify_of_eq fun _ => rfl)
  simp only [writeLocals, writeRaw, wp_modify]
  refine wp_mono (owns_bindOut p out h2) (fun r s3 hpost => ?_) fun _ _ h => h
  obtain ⟨hr, h3⟩ := hpost
  have hlog : Triple (Owns m (max n (p + 1)))
      (0 + (Event.call v val s.currentTask (s.rivals p s.currentTask.tag.syscallNb) r).owes)
      (logEvent p _ : Rt σ Unit) fun _ => 0 :=
    owns_of_books fun ls => books_logEvent (.inl (Nat.le_max_right n (p + 1))) (by simp)
  rw [add_zero, ← hr] at h3
  rw [zero_add] at hlog
  exact wp_mono (hlog s3 F h3) (fun _ s4 h4 => h4.le (Nat.le_max_left n (p + 1))) fun _ _ h => h

/-! ## Blocks -/

/-- The locals of `p` are taken out and dropped. -/
theorem owns_dropLocals (p : TaskPtr) (f : AsyncBlock σ → AsyncBlock σ)
    (hf : ∀ b, (f b).locals = []) {α : Type} {x : Rt σ α} {Z : α → Multiset Token}
    (hx : Triple (Owns m n) 0 x Z) (hraw : s.heap[p]? = some raw) (h : Owns m n s (F + 0)) :
    wp (do
        writeRaw p fun raw => { raw with future := f raw.future }
        dropLocals raw.future.locals
        x) (fun a s' => Owns m n s' (F + Z a)) (fun _ _ => True) s := by
  have h1 : Owns m n (s.modifyRaw p fun raw => { raw with future := f raw.future })
      (F + tokensOf raw.future.locals) := by
    refine h.writeFut hraw f ?_
    rw [hf, add_zero]
    exact zero_add _
  simp only [writeRaw, wp_bind, wp_modify]
  refine wp_mono (owns_of_books (fun ls => books_dropLocals _) _ F h1) (fun _ s2 h2 => hx s2 F h2)
    fun _ _ h => h

theorem owns_quiet (p : TaskPtr) (ev : Event) (howes : ev.owes = 0)
    (hcqe : ∀ e cls others, ev ≠ .cqe e cls others) :
    Triple (Owns m n) X (logEvent p ev : Rt σ Unit) fun _ => X :=
  owns_of_books fun _ => books_quiet p ev howes hcqe

theorem owns_dropFn (p : TaskPtr) : Triple (Owns m n) 0 (dropFn p : Rt σ Unit) fun _ => 0 :=
  owns_deref fun _ _ _ hraw hs =>
    owns_dropLocals p (fun b => { b with locals := [] }) (fun _ => rfl)
      (owns_quiet p .dropped rfl (by simp)) hraw hs

theorem owns_finish (p : TaskPtr) : Triple (Owns m n) 0 (finish p : Rt σ Unit) fun _ => 0 := by
  refine owns_deref fun s raw F hraw hs => ?_
  simp only [wp_bind, wp_get]
  have hdrop := owns_dropLocals p (fun _ => ⟨none, []⟩) (fun _ => rfl)
    (owns_quiet p (.ready (s.rivals p raw.syscallNb)) rfl (by simp)) hraw hs
  simpa only [wp_bind] using hdrop

theorem owns_release (p : TaskPtr) : Triple (Owns m n) 0 (release p : Rt σ Unit) fun _ => 0 := by
  have hwrite : ∀ (f : RawTask σ → RawTask σ), (∀ raw, (f raw).log = raw.log) →
      (∀ raw, (f raw).future.locals = raw.future.locals) →
      Triple (Owns m n) 0 (writeRaw p f) fun _ => 0 :=
    fun f h1 h2 => owns_of_books fun _ => books_writeRaw p h1 h2
  rw [release_eq]
  refine .seq (owns_of_books fun _ => books_deref p) fun raw => .cond (fun _ => .fail _) fun _ => ?_
  refine .seq (hwrite _ (fun _ => rfl) fun _ => rfl) fun _ =>
    .cond (fun _ => ?_) fun _ => .ret () rfl
  refine .seq (owns_dropFn p) fun _ => .seq (owns_of_books fun _ => books_deref p) fun raw' => ?_
  refine .seq (hwrite _ (fun _ => rfl) fun _ => rfl) fun _ => ?_
  cases raw'.slabIdx with
  | none => exact .ret () rfl
  | some i => exact owns_of_books fun _ => books_modify fun _ => ⟨rfl, rfl, rfl, rfl, rfl, rfl⟩

/-- What an instruction hands to a spawned block. -/
def Ctl.tokens : Ctl σ → Multiset Token
  | .spawn child => tokensOf child.locals
  | _ => 0

/-- A handle that stays in its local is cloned. -/
theorem owns_cloneLocal {v : Var} {b : WBuffer} (hraw : s.heap[p]? = some raw)
    (hval : raw.future.locals[v]? = some (some (.wBuffer b))) (h : Owns m n s (F + 0)) :
    wp (wBufferClone b) (fun b' s' => Owns m n s' (F + (Value.wBuffer b').tokens))
    (fun _ _ => True) s := by
  obtain ⟨rest, hall, -⟩ := exists_rest hraw hval
  have hbooks : Books m n s.locals s (rest + F + {.write b.absIdx}) := by
    refine ⟨?_, rfl, h.heap⟩
    have hl := h.ledger
    rw [hall, add_zero, add_right_comm] at hl
    exact hl
  refine wp_mono (books_wBufferClone b s _ hbooks) (fun b' s' h' => ⟨?_, h'.heap⟩) fun _ _ h => h
  have htok : s'.tokens = rest + {.write b.absIdx} := by
    rw [State.tokens, h'.locals]
    exact hall
  have hl := h'.ledger
  rw [htok]
  rw [← add_assoc, add_right_comm rest, add_assoc (rest + _)] at hl
  exact hl

/-- **One instruction** keeps the ledger. -/
theorem owns_stepCode (code : Code σ) (p : TaskPtr) :
    Triple (Owns m n) 0 (stepCode code p) Ctl.tokens := by
  have hgoto : ∀ k : σ, Triple (Owns m n) 0 (goto p k) Ctl.tokens := fun k =>
    .seq (owns_of_books fun _ => books_writeRaw p (fun _ => rfl) fun _ => rfl) fun _ => .ret _ rfl
  refine .seq (owns_of_books fun _ => books_deref p) fun raw => ?_
  cases raw.future.code with
  | none => exact .fail _
  | some c =>
    simp only
    cases code c with
    | ret => exact .seq (owns_finish p) fun _ => .ret _ rfl
    | suspend k => exact .seq (owns_goto p k) fun _ => .ret _ rfl
    | make op k =>
      exact .seq (owns_makeValue p op) fun val => .seq (owns_addLocal p val) fun v => hgoto (k v)
    | makeStream op k =>
      have hval : op.value.tokens = 0 := by cases op <;> rfl
      have hadd := owns_addLocal (σ := σ) (m := m) (n := n) p op.value
      rw [hval] at hadd
      exact .seq hadd fun v => hgoto (k v)
    | poll v k => exact .seq (owns_pollLocal p v) fun r => hgoto (k r)
    | drop v k =>
      exact .seq (owns_takeLocal p v) fun val =>
        .seq (owns_of_books fun _ => books_dropValue val) fun _ => hgoto k
    | spawn child moved k =>
      exact .seq (owns_takeMoved p moved) fun L => .seq (owns_goto p k) fun _ => .ret _ rfl
    | allocWrite k =>
      exact .seq (owns_of_books fun _ => books_allocWriteBuffer) fun b =>
        .seq (owns_addLocal p (.wBuffer b)) fun v => hgoto (k v)
    | cloneWrite v k =>
      refine owns_getLocal fun s raw val F hraw hval hs => ?_
      cases val with
      | wBuffer b =>
        simp only [wp_bind]
        refine wp_mono (owns_cloneLocal hraw hval hs) (fun b' s1 h1 => ?_) fun _ _ h => h
        refine wp_mono (owns_addLocal p (.wBuffer b') s1 F h1) (fun v' s2 h2 => ?_) fun _ _ h => h
        exact hgoto (k v') s2 F h2
      | _ => trivial

/-! ## Polls -/

theorem owns_currentTask (f : State σ → TaskInfo) :
    Triple (Owns m n) X (modify fun s => { s with currentTask := f s } : Rt σ Unit) fun _ => X :=
  owns_of_books fun _ => books_modify fun _ => ⟨rfl, rfl, rfl, rfl, rfl, rfl⟩

/-- A new block takes what it has captured. -/
theorem owns_taskNew (future : AsyncBlock σ) :
    Triple (Owns m n) (tokensOf future.locals) (taskNew future : Rt σ TaskPtr) fun _ => 0 := by
  intro s F hs
  simp only [taskNew, wp_bind, wp_get, wp_modify, wp_pure]
  refine ⟨?_, by rw [List.length_append]; exact hs.heap.trans (Nat.le_add_right _ _)⟩
  have hl := hs.ledger
  have htok : ∀ raw : RawTask σ, ({ s with heap := s.heap ++ [raw] } : State σ).tokens =
      s.tokens + tokensOf raw.future.locals := fun raw => by simp [State.tokens, State.locals]
  have hrec : ∀ raw : RawTask σ, ({ s with heap := s.heap ++ [raw] } : State σ).recorded =
      s.recorded + (raw.log.map Event.owes).sum := fun raw => by simp [State.recorded, State.logs]
  rw [htok, add_zero, add_right_comm, add_assoc]
  refine hl.record rfl rfl rfl rfl ?_ (fun x => ⟨rfl, rfl, rfl⟩) hl.sound
    fun log hlog e cls others he => ?_
  · rw [hrec]
    simp [Event.owes]
  · simp only [State.logs, List.map_append, List.mem_append, List.map_cons, List.map_nil,
      List.mem_singleton] at hlog
    rcases hlog with hlog | rfl
    · exact hl.logged log hlog e cls others he
    · simp at he

theorem owns_tasksInsert (p : TaskPtr) :
    Triple (Owns m n) X (tasksInsert p : Rt σ SlabIdx) fun _ => X := by
  intro s F hs
  simp only [tasksInsert, wp_bind, wp_get]
  cases hi : s.tasks.insert p with
  | error e => trivial
  | ok r =>
    obtain ⟨i, tasks⟩ := r
    have hl := hs.ledger
    have hle := Slab.len_le_insert hi hl.pos
    have h1 : Owns m n { s with tasks } (F + X) := by
      refine ⟨⟨Nat.lt_of_lt_of_le hl.pos hle, fun hsmall => ?_, hl.linked.insert hi hl.pos, hl.base,
        hl.pool, hl.reads, hl.commits, hl.sound, hl.cq, hl.posted, hl.logged⟩, hs.heap⟩
      exact (hl.slab (Nat.lt_of_le_of_lt hle hsmall)).insert hi hsmall
    have hwrite : Triple (Owns m n) X
      (writeRaw p fun raw => { raw with slabIdx := some i } : Rt σ Unit)
        fun _ => X := owns_of_books fun _ => books_writeRaw p (fun _ => rfl) fun _ => rfl
    exact hwrite { s with tasks } F h1

theorem owns_spawnBegin (future : AsyncBlock σ) :
    Triple (Owns m n) (tokensOf future.locals) (spawnBegin future : Rt σ (TaskPtr × TaskInfo))
      fun _ => 0 := by
  refine .seq (owns_taskNew future) fun task =>
    .seq (owns_of_books fun _ => books_taskClone task) fun q => ?_
  refine .seq (owns_tasksInsert q) fun i => .look fun s => ?_
  exact .seq (owns_currentTask fun _ => .initialPoll i) fun _ => .ret _ rfl

/-- The beginning of a poll is recorded. -/
theorem owns_logPoll {α : Type} {x : Rt σ α} {Z : α → Multiset Token} (p : TaskPtr)
    (hx : Triple (Owns m n) 0 x Z) :
    Triple (Owns m n) 0 (do logEvent p (.poll (← get).currentTask); x) Z :=
  .look fun s => .seq (owns_quiet p (.poll s.currentTask) rfl (by simp)) fun _ => hx

section Spawn

variable {poll : TaskPtr → Rt σ (Poll Unit)} (hpoll : ∀ p, Triple (Owns m n) 0 (poll p) fun _ => 0)
include hpoll

theorem owns_taskPoll (p : TaskPtr) : Triple (Owns m n) 0 (taskPoll poll p) fun _ => 0 :=
  owns_logPoll p (hpoll p)

theorem owns_spawn (future : AsyncBlock σ) :
    Triple (Owns m n) (tokensOf future.locals) (spawn poll future) fun _ => 0 := by
  refine .seq (owns_spawnBegin future) fun r => .seq (owns_taskPoll hpoll r.1) fun _ => ?_
  exact .seq (owns_release r.1) fun _ => .seq (owns_currentTask fun _ => r.2) fun _ =>
    owns_release r.1

end Spawn

/-- **A poll of a task** keeps the ledger, with all the spawns inside it. -/
theorem owns_pollFn (code : Code σ) (fuel : Nat) (p : TaskPtr) :
    Triple (Owns m n) 0 (pollFn code fuel p) fun _ => 0 := by
  induction fuel generalizing p with
  | zero => exact .fail _
  | succ fuel ih =>
    refine .seq (owns_stepCode code p) fun ctl => ?_
    cases ctl with
    | fin r => exact .ret r rfl
    | again => exact ih p
    | spawn child => exact .seq (owns_spawn (fun q => ih q) child) fun _ => ih p

/-! ## Commands -/

/-- The arrival of a completion is recorded. -/
theorem owns_logCqe {e : Cqe} (he : e ∈ m.posted) (hraw : s.heap[p]? = some raw)
    (cls : SyscallNbCompResult) (others : List UInt16) (hs : Owns m n s (F + e.arrival)) :
    wp (logEvent p (.cqe e cls others)) (fun _ s' => Owns m n s' (F + 0)) (fun _ _ => True) s := by
  have hp : p < s.heap.length := (List.getElem?_eq_some_iff.mp hraw).1
  have hs' : Owns m (max n (p + 1)) s (F + (0 + e.arrival)) := by
    rw [zero_add]
    exact ⟨hs.ledger, Nat.max_le.mpr ⟨hs.heap, hp⟩⟩
  have hlog : Triple (Owns m (max n (p + 1))) (0 + (Event.cqe e cls others).owes)
      (logEvent p (.cqe e cls others) : Rt σ Unit) fun _ => 0 :=
    owns_of_books fun ls => books_logEvent (.inl (Nat.le_max_right n (p + 1))) fun e' _ _ heq => by
      obtain ⟨rfl, -, -⟩ := Event.cqe.inj heq
      exact he
  exact wp_mono (hlog s F hs') (fun _ s1 h1 => h1.le (Nat.le_max_left _ _)) fun _ _ h => h

section Commands

variable {poll : TaskPtr → Rt σ (Poll Unit)} (hpoll : ∀ p, Triple (Owns m n) 0 (poll p) fun _ => 0)

section
include hpoll

theorem owns_dispatch (task : TaskPtr) (info : TaskInfo) (cls : SyscallNbCompResult) :
    Triple (Owns m n) 0 (dispatch poll task info cls) fun _ => 0 := by
  cases cls with
  | error => exact .fail _
  | expired => exact .ret () rfl
  | normal =>
    refine .cond (fun _ => .fail _) fun _ => ?_
    refine .seq (owns_of_books fun _ => books_augmenteSyscallNb task) fun _ => ?_
    exact .seq (owns_currentTask _) fun _ => .seq (owns_taskPoll hpoll task) fun _ => .ret () rfl
  | multiple =>
    exact .seq (owns_currentTask _) fun _ => .seq (owns_taskPoll hpoll task) fun _ => .ret () rfl

/-- **A completion** that was taken off the ring is recorded, and handed to its task. -/
theorem owns_handleCqeEntry {e : Cqe} (he : e ∈ m.posted) :
    Triple (Owns m n) e.arrival (handleCqeEntry poll e) fun _ => 0 := by
  refine .seq (owns_of_books fun _ => books_tasksIndex _) fun q => ?_
  refine .seq (owns_of_books fun _ => books_taskClone q) fun task => ?_
  refine owns_deref fun s raw F hraw hs => ?_
  simp only [wp_bind, wp_get]
  refine wp_mono (owns_logCqe he hraw _ _ hs) (fun _ s1 h1 => ?_) fun _ _ h => h
  refine wp_mono (owns_dispatch hpoll task _ _ s1 F h1) (fun _ s2 h2 => ?_) fun _ _ h => h
  have hend : Triple (Owns m n) 0 (do
      if !more e.flags then release task
      release task : Rt σ Unit) fun _ => 0 := by
    cases more e.flags with
    | true => exact owns_release task
    | false => exact .seq (owns_release task) fun _ => owns_release task
  simpa only [wp_bind] using hend s2 F h2

theorem owns_drainWakeList (fuel : Nat) :
    Triple (Owns m n) 0 (drainWakeList poll fuel) fun _ => 0 := by
  induction fuel with
  | zero => exact .fail _
  | succ fuel ih =>
    refine .look fun s => ?_
    cases s.runtimeWakeList with
    | nil => exact .ret () rfl
    | cons awake rest =>
      refine .seq (owns_of_books fun _ => books_modify fun _ =>
        ⟨rfl, rfl, rfl, rfl, rfl, rfl⟩) fun _ => ?_
      refine .seq (owns_of_books fun _ => books_tasksIndex _) fun q => ?_
      refine .seq (owns_of_books fun _ => books_taskClone q) fun task => ?_
      exact .seq (owns_taskPoll hpoll task) fun _ => .seq (owns_release task) fun _ => ih

end

theorem owns_freeSlots (l : List SlabIdx) :
    Triple (Owns m n) X (freeSlots l : Rt σ Unit) fun _ => X := by
  induction l with
  | nil => exact .ret () rfl
  | cons i l ih =>
    intro s F hs
    simp only [freeSlots, wp_bind, wp_get]
    cases hr : s.tasks.removeDroppedTask i with
    | error e => trivial
    | ok tasks =>
      have hl := hs.ledger
      have hlen : tasks.len = s.tasks.len := Slab.len_removeDroppedTask hr
      refine ih { s with tasks } F
        ⟨⟨hlen ▸ hl.pos, fun hsmall => ?_, hl.linked.removeDroppedTask hr, hl.base, hl.pool,
          hl.reads, hl.commits, hl.sound, hl.cq, hl.posted, hl.logged⟩, hs.heap⟩
      exact (hl.slab (hlen ▸ hsmall)).removeDroppedTask hr

/-- The oldest completion is taken off the ring. -/
theorem owns_takeCqe {α : Type} {x : Cqe → Rt σ α} {Z : α → Multiset Token}
    (hx : ∀ e ∈ m.posted, Triple (Owns m n) e.arrival (x e) Z) :
    Triple (Owns m n) 0 (takeCqe >>= x) Z := by
  intro s F hs
  simp only [takeCqe, wp_bind, wp_get]
  cases hcq : s.ring.cq with
  | nil => trivial
  | cons e cq =>
    have hl := hs.ledger
    have he : e ∈ m.posted := hl.cq e (by rw [hcq]; exact List.mem_cons_self)
    have harrive :=
      hl.arrive hcq (if more e.flags then s.ring.inflight else s.ring.inflight.erase e.sqe)
    refine hx e he _ F ⟨?_, hs.heap⟩
    rwa [add_zero, add_assoc] at harrive

/-- **A command** keeps the ledger, unless it is the kernel that posts a completion. -/
theorem owns_act (code : Code σ) (cmd : Cmd σ)
    (hcmd : ∀ id result flags, cmd ≠ .complete id result flags) :
    Triple (Owns m n) 0 (act code cmd) fun _ => 0 := by
  have hring : ∀ (f : State σ → State σ), (∀ s, Alike s (f s)) →
      Triple (Owns m n) 0 (modify f : Rt σ Unit) fun _ => 0 := fun f hf =>
    owns_of_books fun _ => books_modify hf
  cases cmd with
  | spawn fuel c =>
    refine .cond (fun _ => ?_) fun _ => .fail _
    exact owns_spawn (fun p => owns_pollFn code fuel p) ⟨some c, []⟩
  | submit =>
    exact .look fun s =>
      .cond (fun _ => hring _ fun _ => ⟨rfl, rfl, rfl, rfl, rfl, rfl⟩) fun _ => .fail _
  | consume =>
    refine .look fun s => ?_
    cases s.ring.sq with
    | nil => exact .fail _
    | cons q sq => exact hring _ fun _ => ⟨rfl, rfl, rfl, rfl, rfl, rfl⟩
  | complete id result flags => exact absurd rfl (hcmd id result flags)
  | handle fuel =>
    exact owns_takeCqe fun e he => owns_handleCqeEntry (fun p => owns_pollFn code fuel p) he
  | free =>
    exact .look fun s => .seq (owns_freeSlots _) fun _ => hring _ fun _ =>
      ⟨rfl, rfl, rfl, rfl, rfl, rfl⟩
  | drain fuel => exact owns_drainWakeList (fun p => owns_pollFn code fuel p) fuel

end Commands

end Owns

end Onlyio
