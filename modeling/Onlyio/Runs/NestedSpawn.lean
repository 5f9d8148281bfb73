import Onlyio.Machine.Leaves
import Onlyio.Machine.Within
import Onlyio.Machine.Local

/-!
# Spawning in the middle of a poll

`spawn` polls its task at once, inside the poll of the task that calls it, and the child may spawn
again. Both use one `CURRENT_TASK`, which `spawn` saves and puts back.

* `Own`: what the log of a task says of its contexts: each of its calls is made in the context in
  which its poll began, as its own calls have left it.
* `ownViews`: the property of one task that gives both halves for the SQEs.
* **`nested_spawn_transparent`**: every SQE carries the slot and the context of the task that
  submitted it, and a whole `spawn` changes neither `CURRENT_TASK` nor any task that existed.
-/

namespace Onlyio

open Lib

variable {σ : Type} {code : Code σ}

/-! ## The contexts of one task -/

/-- The context that a call on `val` leaves, where it was `info`: a stream that is opened and a
commit call `set_current_task_multiple`, the last answer to a fan-out `set_to_next_task`. -/
def Value.context (val : Value) (info : TaskInfo) (out : Option Resp) : TaskInfo :=
  match val, out with
  | .acceptStream ⟨_, .init⟩, _ => info.multiple
  | .readStream ⟨_, .init⟩, _ => info.multiple
  | .commitFn _ _, _ => info.multiple
  | .commit (.init ..), _ => info.multiple
  | .writeMultiple (.pending ..), some _ => info.setToNextTask
  | _, _ => info

/-- The log of a task whose calls are all made in its own context, and the context after it: the one
in which its last poll began, as its own calls have left it. -/
inductive Own : List Event → Option TaskInfo → Prop where
  | nil : Own [] none
  | poll {l : List Event} {cur : Option TaskInfo} (info : TaskInfo) (h : Own l cur) :
      Own (l ++ [.poll info]) (some info)
  | call {l : List Event} {info : TaskInfo} (v : Var) (val : Value) (n : Nat) (out : Option Resp)
      (h : Own l (some info)) : Own (l ++ [.call v val info n out]) (some (val.context info out))
  | spawned {l : List Event} {cur : Option TaskInfo} (L : List (Option Value)) (h : Own l cur) :
      Own (l ++ [.spawned L]) cur
  | submit {l : List Event} {cur : Option TaskInfo} (q : Sqe) (n : Nat) (h : Own l cur) :
      Own (l ++ [.submit q n]) cur
  | ready {l : List Event} {cur : Option TaskInfo} (n : Nat) (h : Own l cur) :
      Own (l ++ [.ready n]) cur
  | cqe {l : List Event} {cur : Option TaskInfo} (e : Cqe) (cls : SyscallNbCompResult)
      (others : List UInt16) (h : Own l cur) : Own (l ++ [.cqe e cls others]) cur
  | dropped {l : List Event} {cur : Option TaskInfo} (h : Own l cur) : Own (l ++ [.dropped]) cur

/-- `q` was submitted by a call that the log records, and carries the number of the context in which
that call submits. -/
def Submitted (q : Sqe) (l : List Event) : Prop :=
  ∃ val info n, .call q.caller.var val info n none ∈ l ∧
  q.nb = (val.context info none).tag.syscallNb

theorem Submitted.append {q : Sqe} {l : List Event} (h : Submitted q l) (l' : List Event) :
    Submitted q (l ++ l') := by
  obtain ⟨val, info, n, hmem, hnb⟩ := h
  exact ⟨val, info, n, List.mem_append_left _ hmem, hnb⟩

/-- What holds of every task: its calls are made in its own contexts, its SQEs carry their
numbers. -/
structure OwnView (V : View σ) : Prop where
  own : ∃ cur, Own V.log cur ∧ ∀ info, V.phase = .on info → cur = some info
  outs : ∀ q ∈ V.outs, Submitted q V.log

theorem Own.submits {l evs : List Event} {cur : Option TaskInfo} (h : Own l cur)
    (hev : ∀ e ∈ evs, ∃ q n, e = .submit q n) : Own (l ++ evs) cur := by
  induction evs using List.reverseRecOn with
  | nil => rwa [List.append_nil]
  | append_singleton evs e ih =>
    obtain ⟨q, n, rfl⟩ := hev e (List.mem_append_right _ (List.mem_singleton_self e))
    rw [← List.append_assoc]
    exact .submit q n (ih fun e he => hev e (List.mem_append_left _ he))

/-- A call leaves the context that `Value.context` says, and stamps its number. -/
theorem Called.own {me : Caller} {cur cur' : TaskInfo} {nb nb' : UInt16} {outs : Multiset Sqe}
    {v v' : Value} {out : Out} {new : List Sqe} {evs : List Event}
    (h : Called me cur nb outs v out v' cur' nb' new evs) (k : Var) :
    cur' = v.context cur (out.resp k) ∧
      ∀ q ∈ new, q.caller = me ∧ out.resp k = none ∧ q.nb = (v.context cur none).tag.syscallNb := by
  cases h with
  | send h hq =>
    refine ⟨by cases h <;> rfl, fun q' hq' => ?_⟩
    obtain rfl := List.mem_singleton.mp hq'
    exact ⟨hq.caller, rfl, hq.nb.trans (by cases h <;> rfl)⟩
  | opens h hq =>
    refine ⟨by cases h <;> rfl, fun q' hq' => ?_⟩
    obtain rfl := List.mem_singleton.mp hq'
    exact ⟨hq.caller, rfl, hq.nb.trans (by cases h <;> rfl)⟩
  | commit h hq =>
    refine ⟨by cases h <;> rfl, fun q' hq' => ?_⟩
    obtain rfl := List.mem_singleton.mp hq'
    exact ⟨hq.caller, rfl, hq.nb.trans (by cases h <;> rfl)⟩
  | fanOut h hnew => exact ⟨rfl, fun q hq => ⟨hnew.caller q hq, rfl, hnew.nb q hq⟩⟩
  | fanOne | fanLast => exact ⟨rfl, fun q hq => nomatch hq⟩
  | resolve h => exact ⟨by cases h <;> rfl, fun q hq => nomatch hq⟩

theorem OwnView.born (i : SlabIdx) (x : σ) (L : List (Option Value)) : OwnView (.born i x L) := by
  refine ⟨⟨_, .poll (.initialPoll i) (.spawned L .nil), ?_⟩, fun q hq => ?_⟩
  · rintro info ⟨rfl⟩
    rfl
  · simp [View.born] at hq

theorem OwnView.settle {V : View σ} (h : OwnView V) (hoff : V.phase = .off) : OwnView V.settle := by
  unfold View.settle
  split
  · rename_i hout
    obtain ⟨⟨cur, hown, -⟩, -⟩ := h
    refine ⟨⟨cur, .dropped hown, fun info hon => ?_⟩, fun q hq => ?_⟩
    · rw [hoff] at hon
      cases hon
    · simp [hout] at hq
  · exact h

/-- **Each task keeps to its own contexts.** -/
theorem ownViews (code : Code σ) : Local code (fun _ => true) fun _ V => OwnView V where
  main _ i x _ := .born i x []
  spawn _ i _ _ _ _ _ _ := .born i _ _
  step {p V V'} h _ hV := by
    obtain ⟨⟨cur, hown, hcur⟩, houts⟩ := hV
    cases h with
    | locals hon | spawn hon => exact ⟨⟨cur, hown, hcur⟩, houts⟩
    | @call cur0 cur' x L v k val val' out nb' new evs hon hb hx hv h =>
      obtain rfl := hcur _ hon
      obtain ⟨rfl, hnew⟩ := h.own L.length
      refine ⟨⟨_, .call v val _ _ (hown.submits h.submits), ?_⟩, fun q hq => ?_⟩
      · rintro info ⟨rfl⟩
        rfl
      · rcases Multiset.mem_add.mp hq with hq | hq
        · exact ((houts q hq).append _).append _
        · obtain ⟨hme, hout, hnb⟩ := hnew q hq
          refine ⟨val, cur0, V.rivals cur0.tag.syscallNb, List.mem_append_right _ ?_, hnb⟩
          rw [hme, hout]
          exact List.mem_singleton_self _
    | suspend hon => exact ⟨⟨cur, hown, nofun⟩, houts⟩
    | ret hon => exact ⟨⟨cur, .ready _ hown, nofun⟩, fun q hq => (houts q hq).append _⟩
    | leave hover => exact OwnView.settle ⟨⟨cur, hown, nofun⟩, houts⟩ rfl
    | @skip e others h =>
      refine OwnView.settle ⟨⟨cur, .cqe e _ others hown, fun info hon => ?_⟩, fun q hq => ?_⟩ h.off
      · rw [show V.phase = .off from h.off] at hon
        cases hon
      · exact (houts q (View.mem_of_answered hq)).append _
    | @accept e cls others h hcls =>
      refine ⟨⟨some (e.context cls), ?_, ?_⟩,
        fun q hq => (houts q (View.mem_of_answered hq)).append _⟩
      · exact List.append_cons .. ▸ .poll (e.context cls) (.cqe e cls others hown)
      · rintro info ⟨rfl⟩
        rfl

/-! ## Transparency -/

/-- Every call of every task is made in the task's own context, and every outstanding SQE carries
the slot of the task whose code submitted it and the number of that task's own context. -/
structure State.Stamps (s : State σ) : Prop where
  own : ∀ (p : TaskPtr) (raw : RawTask σ), s.heap[p]? = some raw → ∃ cur, Own raw.log cur
  sqe : ∀ q ∈ s.outstanding, ∃ raw : RawTask σ, s.heap[q.caller.task]? = some raw ∧
    raw.slabIdx = some q.payload.taskIdx ∧ Submitted q raw.log

/-- What the view of a task says of its record. -/
theorem Views.own {s : State σ} {st : List Frame} (h : Views (fun _ V => OwnView V) (s.config st))
    {p : TaskPtr} {raw : RawTask σ} (hraw : s.heap[p]? = some raw) :
    (∃ cur, Own raw.log cur ∧ ∀ info, phaseOf s.currentTask st p = .on info → cur = some info) ∧
      ∀ q ∈ s.outstanding, q.caller.task = p → Submitted q raw.log := by
  obtain ⟨hlt, -⟩ := List.getElem?_eq_some_iff.mp hraw
  have hview := h.all p hlt
  have hlog : ((s.config st).view p).log = raw.log := congrArg Cell.log (State.core_cell hraw)
  obtain ⟨cur, hown, hcur⟩ := hview.own
  rw [hlog] at hown
  refine ⟨⟨cur, hown, hcur⟩, fun q hq hp => ?_⟩
  rw [← hlog]
  exact hview.outs q (mem_own.mpr ⟨hq, hp⟩)

theorem Views.stamps {s : State σ} {st : List Frame}
    (h : Views (fun _ V => OwnView V) (s.config st)) : s.Stamps := by
  constructor
  · intro p raw hraw
    obtain ⟨⟨cur, hown, -⟩, -⟩ := h.own hraw
    exact ⟨cur, hown⟩
  · intro q hq
    obtain ⟨raw, hraw, -⟩ := State.exists_raw (h.inv.owner_slot hq).2
    refine ⟨raw, hraw, ?_, (h.own hraw).2 q hq rfl⟩
    rw [← h.inv.refs.owner q hq]
    exact (congrArg Cell.slabIdx (State.core_cell hraw)).symm

theorem Midway.views {s : State σ} {p : TaskPtr} {role : Role} {st : List Frame}
    (h : Midway code s p role st) :
    Views (fun _ V => OwnView V) (s.config (⟨p, role, none⟩ :: st)) := by
  obtain ⟨s0, hr, hs⟩ := h.start
  exact (ownViews code).steps hs (fun _ _ _ => rfl) ((ownViews code).reachable hr)

/-- Where `spawn` is called, the task it makes can enter its slot. -/
theorem SpawnCall.enters {s : State σ} {b : AsyncBlock σ} (h : SpawnCall code s b) :
    s.Rep ∧ ∃ g st, Inv g.core g.stack ∧ ∀ i, s.core.slots i = none → Step code g
      ⟨s.core.enter i b.locals, Function.update s.fut s.core.spawned b,
        ⟨s.core.spawned, .spawn s.core.current, none⟩ :: st⟩ := by
  cases h with
  | main hr hx =>
    obtain ⟨hrep, hinv⟩ := hr.inv
    exact ⟨hrep, s.config [], [], hinv, fun i hi => .main hx hi⟩
  | nested hw hb =>
    obtain ⟨role, st, hm⟩ := hw.midway rfl
    have hsp := wp_ok (wp_stepCode role st (hm.inv.running hm.rep)) hb
    obtain ⟨b', hrw⟩ := Spawning.rewrites hsp
    exact ⟨hrw.rep hm.rep, _, _, hm.inv, Spawning.enters hsp⟩

/-- A task is its cell and its future. -/
theorem State.heap_eq_of_core {s s' : State σ} {p : TaskPtr} {raw : RawTask σ}
    (h : s.heap[p]? = some raw) (hlt : s.core.spawned ≤ s'.core.spawned)
    (hcell : s'.core.cell p = s.core.cell p) (hfut : s'.fut p = s.fut p) :
    s'.heap[p]? = some raw := by
  obtain ⟨hp, -⟩ := List.getElem?_eq_some_iff.mp h
  have hp' : p < s'.heap.length := Nat.lt_of_lt_of_le hp hlt
  have h' := List.getElem?_eq_getElem hp'
  rw [h', Option.some.injEq]
  rw [State.core_cell h, State.core_cell h'] at hcell
  rw [State.fut_eq h, State.fut_eq h'] at hfut
  generalize s'.heap[p] = raw' at hcell hfut
  cases raw with
  | mk future rc nb idx freed log =>
    cases raw' with
    | mk future' rc' nb' idx' freed' log' =>
      simp only [RawTask.cell, Cell.mk.injEq] at hcell
      obtain ⟨hrc, rfl, rfl, rfl, rfl⟩ := hcell
      obtain rfl := UInt16.toNat.inj hrc
      obtain rfl : future' = future := hfut
      rfl

/-- **Nested `spawn` is transparent.** In every state of every run, between two commands and inside
every poll at any depth, every SQE is stamped by its own task in its own context, and `CURRENT_TASK`
is the own context of the task whose block runs; and a `spawn` that returns has left `CURRENT_TASK`,
and every task that existed, with its slot, exactly as they were. -/
theorem nested_spawn_transparent (code : Code σ) :
    (∀ s, Reachable code s → s.Stamps) ∧
    (∀ s p ps, Within code s (p :: ps) → s.Stamps ∧
      ∃ raw, s.heap[p]? = some raw ∧ Own raw.log (some s.currentTask)) ∧
    ∀ (s : State σ) b fuel s', SpawnCall code s b → spawn (pollFn code fuel) b s = .ok () s' →
      s'.currentTask = s.currentTask ∧
      (∀ (p : TaskPtr) raw, s.heap[p]? = some raw → s'.heap[p]? = some raw) ∧
        ∀ i p, s.tasks.get? i = some p → s'.tasks.get? i = some p := by
  refine ⟨fun s hr => ((ownViews code).reachable hr).stamps, fun s p ps hw => ?_,
    fun s b fuel s' hcall hsp => ?_⟩
  · obtain ⟨role, st, hm⟩ := hw.midway rfl
    obtain ⟨raw, hraw, -⟩ := State.exists_raw hm.inv.live_top
    obtain ⟨⟨cur, hown, hcur⟩, -⟩ := hm.views.own hraw
    obtain rfl : cur = some s.currentTask := hcur s.currentTask (if_pos rfl)
    exact ⟨hm.views.stamps, raw, hraw, hown⟩
  · obtain ⟨hrep, g, st, hinv, henter⟩ := hcall.enters
    obtain ⟨hleaves, hcur⟩ :=
      wp_ok (wp_spawn_leaves (wp_pollFn_leaves code fuel) b st hinv hrep henter) hsp
    refine ⟨hcur, fun p raw h => ?_, hleaves.slots⟩
    obtain ⟨hp, -⟩ := List.getElem?_eq_some_iff.mp h
    exact State.heap_eq_of_core h hleaves.spawned (hleaves.cell p hp (Nat.ne_of_lt hp))
      (hleaves.fut p hp (Nat.ne_of_lt hp))

/-! ## A tree of spawns -/

/-- A block up to its next `spawn`. -/
def untilSpawn (code : Code σ) (p : TaskPtr) : Nat → Rt σ (AsyncBlock σ)
  | 0 => throw .fuel
  | n + 1 => do
    match ← stepCode code p with
    | .spawn b => return b
    | .again => untilSpawn code p n
    | .fin _ => throw .illTyped

theorem SpawnCall.of_untilSpawn {p : TaskPtr} {ps : List TaskPtr} {b : AsyncBlock σ}
    {s' : State σ} {n : Nat} : ∀ {s : State σ}, Within code s (p :: ps) →
    untilSpawn code p n s = .ok b s' → SpawnCall code s' b := by
  induction n with
  | zero => exact fun _ h => nomatch h
  | succ n ih =>
    intro s hw h
    simp only [untilSpawn, bind, EStateM.bind] at h
    cases hs : stepCode code p s with
    | error e s1 =>
      rw [hs] at h
      cases h
    | ok ctl s1 =>
      cases ctl with
      | fin r => simp only [hs] at h; cases h
      | again =>
        simp only [hs] at h
        exact ih (.again hw hs) h
      | spawn b1 =>
        simp only [hs] at h
        cases h
        exact .nested hw hs

/-- A block that opens a stream and spawns; the child submits a read and spawns a block that
returns. -/
def spawnTree : Code Nat where
  instr
    | 0 => .makeStream (.acceptStream 3) fun _ => 1
    | 1 => .poll 0 fun _ => 2
    | 2 => .spawn 10 [] 3
    | 10 => .make (.read 7) fun _ => 11
    | 11 => .poll 0 fun _ => 12
    | 12 => .spawn 20 [] 13
    | 20 => .ret
    | k => .suspend k
  entry x := x == 0

/-- The states in which the outer block spawns and in which that returns. -/
def spawnTreeRun : Option (State Nat × AsyncBlock Nat × State Nat) := do
  let s0 ← (State.new 0 : Except Fault (State Nat)).toOption
  match spawnPolled ⟨some 0, []⟩ s0 with
  | .ok (p, _) s1 =>
    match untilSpawn spawnTree p 5 s1 with
    | .ok b s =>
      match spawn (pollFn spawnTree 9) b s with
      | .ok _ s' => some (s, b, s')
      | .error _ _ => none
    | .error _ _ => none
  | .error _ _ => none

theorem spawnTreeRun_spec {s s' : State Nat} {b : AsyncBlock Nat}
    (h : spawnTreeRun = some (s, b, s')) :
    SpawnCall spawnTree s b ∧ spawn (pollFn spawnTree 9) b s = .ok () s' := by
  simp only [spawnTreeRun, bind, Option.bind_eq_some_iff] at h
  obtain ⟨s0, hnew, h⟩ := h
  have hr : Reachable spawnTree s0 := .new (toOption_eq_some.mp hnew)
  split at h
  · rename_i p old s1 hpolled
    split at h
    · rename_i b1 s2 huntil
      split at h
      · rename_i u s3 hsp
        simp only [Option.some.injEq, Prod.mk.injEq] at h
        obtain ⟨rfl, rfl, rfl⟩ := h
        have hw : Within spawnTree s1 [p] := .main hr (x := 0) rfl (.of_spawnPolled hpolled)
        exact ⟨.of_untilSpawn hw huntil, hsp⟩
      · cases h
    · cases h
  · cases h

/-- The outer task has `MULTIPLE_MASK` in its context, the inner one has none in its SQE, and the
innermost one is freed before `spawn` returns. -/
theorem nested_spawn_transparent_tree :
    ∃ s b s', spawnTreeRun = some (s, b, s') ∧ s.currentTask.tag = ⟨0, 0x8000⟩ ∧
      s'.outstanding.map (fun q => (q.caller.task, q.payload.taskIdx, q.nb)) =
      [(0, 0, 0x8000), (1, 1, 0)] ∧ s'.heap.map RawTask.freed = [false, false, true] ∧
      s'.currentTask = s.currentTask ∧ ∀ (p : TaskPtr) raw, s.heap[p]? = some raw →
      s'.heap[p]? = some raw := by
  have hrun : spawnTreeRun.any (fun x => decide (x.1.currentTask.tag = ⟨0, 0x8000⟩ ∧
      x.2.2.outstanding.map (fun q => (q.caller.task, q.payload.taskIdx, q.nb)) =
        [(0, 0, 0x8000), (1, 1, 0)] ∧
      x.2.2.heap.map RawTask.freed = [false, false, true])) = true := by decide +kernel
  obtain ⟨⟨s, b, s'⟩, hx, hc⟩ := (Option.any_eq_true _ _).mp hrun
  obtain ⟨htag, hout, hfreed⟩ := of_decide_eq_true hc
  obtain ⟨hcall, hsp⟩ := spawnTreeRun_spec hx
  obtain ⟨hcur, hheap, -⟩ := (nested_spawn_transparent spawnTree).2.2 s b 9 s' hcall hsp
  exact ⟨s, b, s', hx, htag, hout, hfreed, hcur, hheap⟩

end Onlyio
