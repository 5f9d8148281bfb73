import Onlyio.Machine.Core
import Mathlib.Logic.Relation

/-!
# The abstract machine: its steps

One step is one instruction of the block on top of the stack, the beginning or the end of a poll, or
a move of the loop or of the kernel while no poll is in progress. Completions are handled in two
steps, with the whole poll between them, so an invariant of `Step` holds inside every poll too.
-/

namespace Onlyio

variable {σ : Type}

/-! ## Locals -/

/-- The future that a call builds, and the locals it leaves. -/
inductive Makes (L : List (Option Value)) : Op → Value → List (Option Value) → Prop where
  | accept (fd : Int32) : Makes L (.accept fd) (.accept (.pending fd)) L
  | read (fd : UInt32) : Makes L (.read fd) (.read (.init fd)) L
  | write (fd : UInt32) (bufId : UInt16) (len : UInt32) :
      Makes L (.write fd bufId len) (.write (.init fd bufId len)) L
  | connect (addr : SockAddr) : Makes L (.connect addr) (.socket (.createSocket addr)) L
  | commit (buf : Var) (len : UInt32) (b : RwBuffer) (h : L[buf]? = some (some (.rwBuffer b))) :
      Makes L (.commit buf len) (.commitFn b len) (L.set buf none)
  | writeMultiple (buf : Var) (fds : List UInt32) (len : UInt32) (b : WBuffer)
      (h : L[buf]? = some (some (.wBuffer b))) :
      Makes L (.writeMultiple buf fds len) (.writeMultiple (.init fds b len)) (L.set buf none)

/-- An instruction that only touches the locals. -/
inductive LocalStep (L : List (Option Value)) : Instr σ → σ → List (Option Value) → Prop where
  | make {op : Op} {k : Var → σ} {val : Value} {L' : List (Option Value)} (h : Makes L op val L') :
      LocalStep L (.make op k) (k L'.length) (L' ++ [some val])
  | makeStream (op : StreamOp) (k : Var → σ) :
      LocalStep L (.makeStream op k) (k L.length) (L ++ [some op.value])
  | drop (v : Var) (k : σ) (val : Value) (h : L[v]? = some (some val)) :
      LocalStep L (.drop v k) k (L.set v none)
  | allocWrite (k : Var → σ) (b : WBuffer) :
      LocalStep L (.allocWrite k) (k L.length) (L ++ [some (.wBuffer b)])
  | cloneWrite (v : Var) (k : Var → σ) (b : WBuffer) (h : L[v]? = some (some (.wBuffer b))) :
      LocalStep L (.cloneWrite v k) (k L.length) (L ++ [some (.wBuffer b)])

/-- The values a spawned block takes along, and the locals that stay. -/
inductive Moves : List (Option Value) → List (Kind × Var) → List (Option Value) →
    List (Option Value) → Prop where
  | nil (L : List (Option Value)) : Moves L [] [] L
  | cons {L taken L' : List (Option Value)} {kind : Kind} {v : Var} {moved : List (Kind × Var)}
      (val : Value) (h : L[v]? = some (some val)) (hk : val.kind = kind)
      (hm : Moves (L.set v none) moved taken L') :
      Moves L ((kind, v) :: moved) (some val :: taken) L'

/-- What the code gets from a poll, when the next free local is `n`. -/
def Out.resp (n : Var) : Out → Option Resp
  | .pending => none
  | .ready r => some r
  | .buffer b => some (.buffer n b.bytes)

/-- The locals after a poll. -/
def Out.bind (L : List (Option Value)) : Out → List (Option Value)
  | .buffer b => L ++ [some (.rwBuffer b)]
  | _ => L

/-! ## Steps -/

/-- The futures after `n` references to `p` are released: a freed task has no locals. -/
def dropFut (c : Core) (p : TaskPtr) (n : Nat) (fut : TaskPtr → AsyncBlock σ) :
    TaskPtr → AsyncBlock σ :=
  if c.frees p n then Function.update fut p { fut p with locals := [] } else fut

/-- One step of the abstract machine. -/
inductive Step (code : Code σ) : Config σ → Config σ → Prop where
  | locals {c : Core} {fut : TaskPtr → AsyncBlock σ} {st : List Frame} {p : TaskPtr}
      {role : Role} {x y : σ} {L L' : List (Option Value)} (hf : fut p = ⟨some x, L⟩)
      (h : LocalStep L (code x) y L') :
      Step code ⟨c, fut, ⟨p, role, none⟩ :: st⟩
        ⟨c, Function.update fut p ⟨some y, L'⟩, ⟨p, role, none⟩ :: st⟩
  | poll {c c' : Core} {fut : TaskPtr → AsyncBlock σ} {st : List Frame} {p : TaskPtr}
      {role : Role} {x : σ} {L : List (Option Value)} {v : Var} {k : Option Resp → σ}
      {val val' : Value} {out : Out} (hf : fut p = ⟨some x, L⟩) (hx : code x = .poll v k)
      (hv : L[v]? = some (some val)) (h : Polled ⟨p, v⟩ c val out val' c') :
      Step code ⟨c, fut, ⟨p, role, none⟩ :: st⟩
        ⟨c'.logAt p (.call v val c.current (c.rivals p c.current.tag.syscallNb)
            (out.resp L.length)),
          Function.update fut p ⟨some (k (out.resp L.length)), out.bind (L.set v (some val'))⟩,
          ⟨p, role, none⟩ :: st⟩
  | suspend {c : Core} {fut : TaskPtr → AsyncBlock σ} {st : List Frame} {p : TaskPtr}
      {role : Role} {x k : σ} {L : List (Option Value)} (hf : fut p = ⟨some x, L⟩)
      (hx : code x = .suspend k) :
      Step code ⟨c, fut, ⟨p, role, none⟩ :: st⟩
        ⟨c, Function.update fut p ⟨some k, L⟩, ⟨p, role, some .pending⟩ :: st⟩
  | ret {c : Core} {fut : TaskPtr → AsyncBlock σ} {st : List Frame} {p : TaskPtr}
      {role : Role} {x : σ} {L : List (Option Value)} (hf : fut p = ⟨some x, L⟩)
      (hx : code x = .ret) :
      Step code ⟨c, fut, ⟨p, role, none⟩ :: st⟩
        ⟨c.logAt p (.ready (c.rivals p (c.stored p))), Function.update fut p ⟨none, []⟩,
          ⟨p, role, some (.ready ())⟩ :: st⟩
  | spawn {c : Core} {fut : TaskPtr → AsyncBlock σ} {st : List Frame} {p : TaskPtr}
      {role : Role} {x child k : σ} {L L' taken : List (Option Value)} {moved : List (Kind × Var)}
      {i : SlabIdx} (hf : fut p = ⟨some x, L⟩) (hx : code x = .spawn child moved k)
      (hm : Moves L moved taken L') (hi : c.slots i = none) :
      Step code ⟨c, fut, ⟨p, role, none⟩ :: st⟩
        ⟨c.enter i taken,
          Function.update (Function.update fut p ⟨some k, L'⟩) c.spawned ⟨some child, taken⟩,
          ⟨c.spawned, .spawn c.current, none⟩ :: ⟨p, role, none⟩ :: st⟩
  | main {c : Core} {fut : TaskPtr → AsyncBlock σ} {x : σ} {i : SlabIdx}
      (hx : code.entry x = true) (hi : c.slots i = none) :
      Step code ⟨c, fut, []⟩
        ⟨c.enter i [], Function.update fut c.spawned ⟨some x, []⟩,
          [⟨c.spawned, .spawn c.current, none⟩]⟩
  | spawnEnd {c : Core} {fut : TaskPtr → AsyncBlock σ} {st : List Frame} {t : TaskPtr}
      {old : TaskInfo} {r : Poll Unit} :
      Step code ⟨c, fut, ⟨t, .spawn old, some r⟩ :: st⟩
        ⟨{ c.release t 2 with current := old }, dropFut c t 2 fut, st⟩
  | skip {c : Core} {fut : TaskPtr → AsyncBlock σ} {e : Cqe} {cq : List Cqe} {p : TaskPtr}
      (he : c.cq = e :: cq) (hp : c.slots e.sqe.payload.taskIdx = some p)
      (hcls : evaluateSyscallNb (c.stored p) e.sqe.payload.syscallNb = .expired) :
      Step code ⟨c, fut, []⟩
        ⟨((c.take e cq).logAt p (.cqe e .expired ((c.take e cq).others p e.sqe))).release p
            (if more e.flags then 0 else 1),
          dropFut c p (if more e.flags then 0 else 1) fut, []⟩
  | handle {c : Core} {fut : TaskPtr → AsyncBlock σ} {e : Cqe} {cq : List Cqe}
      {p : TaskPtr} (he : c.cq = e :: cq) (hp : c.slots e.sqe.payload.taskIdx = some p)
      (hcls : evaluateSyscallNb (c.stored p) e.sqe.payload.syscallNb = .normal ∨
        evaluateSyscallNb (c.stored p) e.sqe.payload.syscallNb = .multiple) :
      Step code ⟨c, fut, []⟩
        ⟨(c.take e cq).accept p e (evaluateSyscallNb (c.stored p) e.sqe.payload.syscallNb), fut,
          [⟨p, .handle (!more e.flags), none⟩]⟩
  | handleEnd {c : Core} {fut : TaskPtr → AsyncBlock σ} {p : TaskPtr} {final : Bool}
      {r : Poll Unit} :
      Step code ⟨c, fut, [⟨p, .handle final, some r⟩]⟩
        ⟨c.release p (if final then 2 else 1), dropFut c p (if final then 2 else 1) fut, []⟩
  | submit {c : Core} {fut : TaskPtr → AsyncBlock σ}
      (h : c.sq.length + c.pending.length ≤ 1024) :
      Step code ⟨c, fut, []⟩ ⟨{ c with sq := c.sq ++ c.pending, pending := [] }, fut, []⟩
  | consume {c : Core} {fut : TaskPtr → AsyncBlock σ} {q : Sqe} {sq : List Sqe}
      (h : c.sq = q :: sq) :
      Step code ⟨c, fut, []⟩ ⟨{ c with sq, inflight := c.inflight ++ [q] }, fut, []⟩
  | complete {c : Core} {fut : TaskPtr → AsyncBlock σ} {q : Sqe} {result : Int32}
      {flags : UInt32} (hq : q ∈ c.inflight)
      (hlast : ∀ e ∈ c.cq, e.sqe.id = q.id → more e.flags = true)
      (hmore : more flags = true → q.op.isMultishot = true) :
      Step code ⟨c, fut, []⟩ ⟨{ c with cq := c.cq ++ [⟨q, result, flags⟩] }, fut, []⟩
  | free {c : Core} {fut : TaskPtr → AsyncBlock σ} :
      Step code ⟨c, fut, []⟩
        ⟨{ c with slots := fun i => if i ∈ c.freeList then none else c.slots i, freeList := [] },
          fut, []⟩

/-- The configurations that a sequence of steps leads to. -/
abbrev Steps (code : Code σ) : Config σ → Config σ → Prop :=
  Relation.ReflTransGen (Step code)

/-- A property that every step keeps is kept by every sequence of steps. -/
theorem Steps.invariant {code : Code σ} {P : Config σ → Prop}
    (hstep : ∀ g g', Step code g g' → P g → P g') {g g' : Config σ} (h : Steps code g g')
    (hg : P g) : P g' := by
  induction h with
  | refl => exact hg
  | tail _ hs ih => exact hstep _ _ hs ih

end Onlyio
