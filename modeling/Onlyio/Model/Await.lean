import Onlyio.Model.Exec

/-!
# Blocks that await one operation after another

`x.await` polls `x` until it is ready and suspends the block after each `Pending`. `Await.Instr` is
the code of a block that uses the library's futures in no other way, and `awaited` translates it
into the polls and suspensions it stands for.
-/

namespace Onlyio

namespace Await

/-- What a block does next, when every future is awaited where it is built. -/
inductive Instr (τ : Type) where
  | ret
  | spawn (child : τ) (moved : List (Kind × Var)) (k : τ)
  /-- `op.await`. -/
  | await (op : Op) (k : Resp → τ)
  | stream (op : StreamOp) (k : Var → τ)
  /-- `v.next().await`. -/
  | next (v : Var) (k : Resp → τ)
  | drop (v : Var) (k : τ)
  | allocWrite (k : Var → τ)
  | cloneWrite (v : Var) (k : Var → τ)

/-- A point of an awaiting block. -/
inductive Point (τ : Type) where
  | run (t : τ)
  /-- About to poll the awaited value. -/
  | poll (v : Var) (k : Resp → τ)
  /-- About to suspend, after `Pending`. -/
  | suspend (v : Var) (k : Resp → τ)

variable {τ : Type}

/-- After a poll of the awaited value. -/
def Point.after (v : Var) (k : Resp → τ) : Option Resp → Point τ
  | none => .suspend v k
  | some r => .run (k r)

/-- The block is about to suspend. -/
def Point.suspended : Point τ → Bool
  | .suspend _ _ => true
  | _ => false

/-- The block continues after a poll exactly when the poll was ready. -/
@[simp] theorem Point.suspended_after (v : Var) (k : Resp → τ) (r : Option Resp) :
    (Point.after v k r).suspended = r.isNone := by
  cases r <;> rfl

end Await

/-- What an awaiting block compiles to. -/
def awaitedInstr {τ : Type} (A : τ → Await.Instr τ) : Await.Point τ → Instr (Await.Point τ)
  | .run t =>
    match A t with
    | .ret => .ret
    | .spawn child moved k => .spawn (.run child) moved (.run k)
    | .await op k => .make op fun v => .poll v k
    | .stream op k => .makeStream op fun v => .run (k v)
    | .next v k => .poll v (.after v k)
    | .drop v k => .drop v (.run k)
    | .allocWrite k => .allocWrite fun v => .run (k v)
    | .cloneWrite v k => .cloneWrite v fun v' => .run (k v')
  | .poll v k => .poll v (.after v k)
  | .suspend v k => .suspend (.poll v k)

/-- The code of a program whose blocks await. -/
def awaited {τ : Type} (A : τ → Await.Instr τ) : Code (Await.Point τ) where
  instr := awaitedInstr A
  entry
    | .run _ => true
    | _ => false

section Points

variable {τ : Type} {A : τ → Await.Instr τ} {x : Await.Point τ}

/-- An awaiting block that polls a value suspends exactly after `Pending`. -/
theorem awaited_poll {v : Var} {k : Option Resp → Await.Point τ} (h : awaited A x = .poll v k) :
    x.suspended = false ∧ ∃ k', k = .after v k' ∧ (x = .poll v k' ∨ ∃ t, x = .run t ∧
      A t = .next v k') := by
  cases x with
  | run t =>
    simp only [awaited, awaitedInstr] at h
    cases hA : A t with
    | next w k' =>
      simp only [hA, Instr.poll.injEq] at h
      obtain ⟨rfl, rfl⟩ := h
      exact ⟨rfl, k', rfl, .inr ⟨t, rfl, hA⟩⟩
    | _ => simp [hA] at h
  | poll w k' =>
    simp only [awaited, awaitedInstr, Instr.poll.injEq] at h
    obtain ⟨rfl, rfl⟩ := h
    exact ⟨rfl, k', rfl, .inl rfl⟩
  | suspend w k' => simp [awaited, awaitedInstr] at h

/-- A point at which an awaiting block suspends. -/
theorem awaited_suspend {k : Await.Point τ} (h : awaited A x = .suspend k) :
    ∃ v k', x = .suspend v k' ∧ k = .poll v k' := by
  cases x with
  | run t =>
    simp only [awaited, awaitedInstr] at h
    cases hA : A t <;> simp [hA] at h
  | poll w k' => simp [awaited, awaitedInstr] at h
  | suspend w k' =>
    simp only [awaited, awaitedInstr, Instr.suspend.injEq] at h
    exact ⟨w, k', rfl, h.symm⟩

/-- A spawned block begins at the beginning. -/
theorem awaited_spawn {child k : Await.Point τ} {moved : List (Kind × Var)}
    (h : awaited A x = .spawn child moved k) : ∃ t c u, x = .run t ∧ child = .run c ∧
    k = .run u := by
  cases x with
  | run t =>
    simp only [awaited, awaitedInstr] at h
    cases hA : A t with
    | spawn c moved u =>
      simp only [hA, Instr.spawn.injEq] at h
      exact ⟨t, c, u, rfl, h.1.symm, h.2.2.symm⟩
    | _ => simp [hA] at h
  | poll w k' => simp [awaited, awaitedInstr] at h
  | suspend w k' => simp [awaited, awaitedInstr] at h

/-- A point at which an awaiting block does anything else. -/
theorem awaited_run {i : Instr (Await.Point τ)} (h : awaited A x = i)
    (hp : ∀ v k, i ≠ .poll v k) (hs : ∀ k, i ≠ .suspend k) : ∃ t, x = .run t := by
  subst h
  cases x with
  | run t => exact ⟨t, rfl⟩
  | poll w k' => exact absurd rfl (hp w (.after w k'))
  | suspend w k' => exact absurd rfl (hs (.poll w k'))

end Points

end Onlyio
