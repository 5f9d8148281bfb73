import Onlyio.Lib.Hoare
import Onlyio.Model.Calls

/-!
# The locals of calls

The address of one local leaves its call: `SocketFuture::poll` hands it to CONNECT. The functions
that queue the SQE keep the pointer and never follow it, so that they run as if the local were not
there.

* `StackFree`: neither reads nor writes the locals of calls, one lemma for each function on that
  path.
* `wp_withLocal_sendConnect`: the specification of `send_connect` inside `SocketFuture::poll`.
-/

namespace Onlyio

open Lib

variable {σ α β : Type}

/-- The frames that stand, as `l` has them. -/
def State.onStack (s : State σ) (l : List SockAddr) : State σ := { s with stack := l }

/-- What a program returns, above the frames `l`. -/
def onStack (l : List SockAddr) :
    EStateM.Result Fault (State σ) α → EStateM.Result Fault (State σ) α
  | .ok a s => .ok a (s.onStack l)
  | .error e s => .error e (s.onStack l)

/-- A program that neither reads nor writes the locals of calls. -/
def StackFree (x : Rt σ α) : Prop :=
  ∀ (s : State σ) (l : List SockAddr), x (s.onStack l) = onStack l (x s)

namespace StackFree

theorem ret (a : α) : StackFree (pure a : Rt σ α) := fun _ _ => rfl

theorem fail (e : Fault) : StackFree (throw e : Rt σ α) := fun _ _ => rfl

theorem bind {x : Rt σ α} {f : α → Rt σ β} (hx : StackFree x) (hf : ∀ a, StackFree (f a)) :
    StackFree (x >>= f) := by
  intro s l
  show EStateM.bind x f (s.onStack l) = onStack l (EStateM.bind x f s)
  unfold EStateM.bind
  rw [hx s l]
  cases x s with
  | ok a s1 => exact hf a s1 l
  | error e s1 => rfl

theorem look {f : State σ → Rt σ α} (hf : ∀ s, StackFree (f s))
    (hl : ∀ (s : State σ) l, f (s.onStack l) = f s) : StackFree (get >>= f) := by
  intro s l
  show f (s.onStack l) (s.onStack l) = _
  rw [hl]
  exact hf s s l

theorem update {f : State σ → State σ} (hf : ∀ (s : State σ) l, f (s.onStack l) = (f s).onStack l) :
    StackFree (modify f : Rt σ Unit) := fun s l => congrArg (EStateM.Result.ok ()) (hf s l)

theorem liftExcept (x : Except Fault α) : StackFree (liftExcept x : Rt σ α) := by
  cases x with
  | ok a => exact .ret a
  | error e => exact .fail e

theorem deref (p : TaskPtr) : StackFree (deref p : Rt σ (RawTask σ)) := by
  refine .look (fun s => ?_) fun _ _ => rfl
  cases s.heap[p]? with
  | none => exact .fail _
  | some raw =>
    show StackFree (if raw.freed then throw .dangling else pure raw)
    cases raw.freed with
    | true => exact .fail _
    | false => exact .ret raw

theorem writeRaw (p : TaskPtr) (f : RawTask σ → RawTask σ) : StackFree (writeRaw p f) :=
  .update fun _ _ => rfl

theorem incRc (p : TaskPtr) : StackFree (incRc p : Rt σ Unit) := by
  refine .bind (.deref p) fun raw => ?_
  dsimp only
  split
  · split
    · exact .fail _
    · exact .writeRaw p _
  · exact .fail _

theorem tasksIndex (i : SlabIdx) : StackFree (tasksIndex i : Rt σ TaskPtr) :=
  .look (fun _ => .liftExcept _) fun _ _ => rfl

theorem pushPending (me : Caller) (op : SqeOp) (userData : UInt64) (oversize : Bool) :
    StackFree (pushPending me op userData oversize : Rt σ Unit) :=
  .look (fun _ => .bind (.writeRaw _ _) fun _ => .update fun _ _ => rfl) fun _ _ => rfl

theorem sendOne (me : Caller) (op : BufPool 1 → SqeOp) : StackFree (sendOne me op : Rt σ Unit) := by
  refine .bind (.look (fun _ => .ret _) fun _ _ => rfl) fun _ => .look (fun s => ?_) fun _ _ => rfl
  exact .bind (.tasksIndex _) fun p => .bind (.incRc p) fun _ =>
    .look (fun _ => .pushPending _ _ _ _) fun _ _ => rfl

/-- A call that does not look at its frame runs as if the frame were not there. -/
theorem withLocal_eq {f : Nat → Rt σ Unit} (hf : ∀ addr, StackFree (f addr)) (addr : SockAddr)
    (s : State σ) : withLocal addr f s = f s.stack.length s := by
  have hframe := hf s.stack.length s (s.stack ++ [addr])
  have hsame : f s.stack.length s = _ := hf s.stack.length s s.stack
  unfold withLocal
  rw [show ({ s with stack := s.stack ++ [addr] } : State σ) =
    s.onStack (s.stack ++ [addr]) from rfl, hframe]
  cases hr : f s.stack.length s with
  | ok a s' =>
    rw [hr] at hsame
    exact hsame.symm
  | error e s' =>
    rw [hr] at hsame
    exact hsame.symm

end StackFree

/-- `send_connect` does not look behind the pointer. -/
theorem wp_withLocal_sendConnect (me : Caller) (addr : SockAddr) (slot len : UInt32)
    (Q : Unit → State σ → Prop) (E : Fault → State σ → Prop) (s : State σ) :
    wp (withLocal addr fun ptr => sendConnect me slot ptr len) Q E s ↔
      wp (sendConnect me slot s.stack.length len) Q E s := by
  have hfree : ∀ ptr, StackFree (sendConnect me slot ptr len : Rt σ Unit) := fun _ => .sendOne me _
  have heq := StackFree.withLocal_eq hfree addr s
  unfold wp
  rw [heq]

end Onlyio
