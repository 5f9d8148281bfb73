import Onlyio.Machine.View
import Onlyio.Model.Await

/-!
# Properties of one task, over whole runs

A property of views that holds when a task is born and that every step of the task keeps is `Local`.
It may assume that the events which the run records are `ok`, which is how a condition on the steps
of a run enters: an event is recorded with the state it happens in.

* `Held`: a property of the values that a block holds, and what keeps it.
* `Step.log`: logs only grow, so a run whose last state records `ok` events recorded no other.
* **`Local.run`**: a local property holds of every task, in every state of every run.
* `Local.fail`: it also holds where a command fails, up to events that start no poll.
* `not_newer`: what excludes the panic of the dispatch.
-/

namespace Onlyio

open Lib

variable {σ : Type}

/-! ## The values of a block -/

/-- Every value that the block holds has the property `P`. -/
def Held (P : Var → Value → Prop) (L : List (Option Value)) : Prop :=
  ∀ u val, L[u]? = some (some val) → P u val

namespace Held

variable {P Q : Var → Value → Prop} {L L' taken : List (Option Value)} {v : Var} {val : Value}

theorem nil : Held P [] := fun _ _ h => nomatch h

theorem mono (h : Held P L) (hPQ : ∀ u val, P u val → Q u val) : Held Q L :=
  fun u val hu => hPQ u val (h u val hu)

theorem set_none (h : Held P L) (w : Var) : Held P (L.set w none) := by
  intro u val hu
  rw [List.getElem?_set] at hu
  split at hu
  · split at hu <;> simp at hu
  · exact h u val hu

/-- The value at `v` is replaced, so nothing is asked of the old one. -/
theorem set (h : Held (fun u val => u ≠ v → P u val) L) (hv : P v val) :
    Held P (L.set v (some val)) := by
  intro u val' hu
  by_cases hne : u = v
  · subst hne
    rw [List.getElem?_set_self'] at hu
    cases hold : L[u]? with
    | none => rw [hold] at hu; cases hu
    | some old =>
      rw [hold] at hu
      obtain rfl := Option.some.inj (Option.some.inj hu)
      exact hv
  · rw [List.getElem?_set_ne (Ne.symm hne)] at hu
    exact h u val' hu hne

theorem append (h : Held P L) (hv : P L.length val) : Held P (L ++ [some val]) := by
  intro u val' hu
  rcases Nat.lt_trichotomy u L.length with hlt | rfl | hgt
  · rw [List.getElem?_append_left hlt] at hu
    exact h u val' hu
  · rw [List.getElem?_concat_length] at hu
    obtain rfl := Option.some.inj (Option.some.inj hu)
    exact hv
  · rw [List.getElem?_eq_none (by simp; omega)] at hu
    cases hu

/-- After a poll, the block may hold one more buffer. -/
theorem bind (h : Held P L) (hb : ∀ b, P L.length (.rwBuffer b)) (out : Out) :
    Held P (out.bind L) := by
  cases out with
  | buffer b => exact h.append (hb b)
  | pending | ready => exact h

theorem moves {moved : List (Kind × Var)} (hm : Moves L moved taken L') (h : Held P L) :
    Held P L' ∧ Held (fun _ val => ∃ u, P u val) taken := by
  induction hm with
  | nil L => exact ⟨h, nil⟩
  | @cons L taken L' kind w moved val hw hk hm ih =>
    obtain ⟨hleft, htaken⟩ := ih (h.set_none w)
    refine ⟨hleft, fun u val' hu => ?_⟩
    cases u with
    | zero =>
      obtain rfl := Option.some.inj (Option.some.inj hu)
      exact ⟨w, h w _ hw⟩
    | succ u => exact htaken u val' hu

end Held

/-- An instruction on the locals: what is there afterwards was there before, or is new. -/
theorem LocalStep.origin {L L' : List (Option Value)} {i : Instr σ} {y : σ}
    (h : LocalStep L i y L') :
    L.length ≤ L'.length ∧ Held (fun u val => L[u]? = some (some val) ∨ L.length ≤ u) L' := by
  have hold : Held (fun u val => L[u]? = some (some val) ∨ L.length ≤ u) L := fun _ _ hu => .inl hu
  cases h with
  | make hm =>
    cases hm with
    | accept | read | write | connect => exact ⟨by simp, hold.append (.inr (Nat.le_refl _))⟩
    | commit buf | writeMultiple buf =>
      refine ⟨by simp, (hold.set_none buf).append (.inr ?_)⟩
      rw [List.length_set]
  | makeStream | allocWrite | cloneWrite => exact ⟨by simp, hold.append (.inr (Nat.le_refl _))⟩
  | drop v => exact ⟨by simp, hold.set_none v⟩

theorem Out.length_le_bind (L : List (Option Value)) (out : Out) :
    L.length ≤ (out.bind L).length := by
  cases out with
  | buffer b => exact (List.sublist_append_left L _).length_le
  | pending | ready => exact Nat.le_refl _

theorem Moves.length_eq {L L' taken : List (Option Value)} {moved : List (Kind × Var)}
    (h : Moves L moved taken L') : L'.length = L.length := by
  induction h with
  | nil L => rfl
  | cons val hw hk hm ih => rw [ih, List.length_set]

/-- A value that an instruction of an awaiting block builds. -/
inductive Builds {τ : Type} : Await.Instr τ → Value → Prop where
  | await {L L' : List (Option Value)} {op : Op} {val : Value} (k : Resp → τ)
      (h : Makes L op val L') : Builds (.await op k) val
  | stream (op : StreamOp) (k : Var → τ) : Builds (.stream op k) op.value
  | allocWrite (k : Var → τ) (b : WBuffer) : Builds (.allocWrite k) (.wBuffer b)
  | cloneWrite (v : Var) (k : Var → τ) (b : WBuffer) : Builds (.cloneWrite v k) (.wBuffer b)

/-- An instruction on the locals of an awaiting block, when the values it builds have the
property. -/
theorem Held.of_local {τ : Type} {A : τ → Await.Instr τ} {t : τ} {y : Await.Point τ}
    {P : Var → Value → Prop} {L L' : List (Option Value)}
    (h : LocalStep L (awaited A (.run t)) y L') (hL : Held P L)
    (hP : ∀ val, Builds (A t) val → P L.length val) : Held P L' ∧ y.suspended = false := by
  simp only [awaited, awaitedInstr] at h
  cases hAt : A t with
  | await op k =>
    rw [hAt] at h hP
    cases h with
    | make hm =>
      have hval := hP _ (.await k hm)
      cases hm with
      | accept | read | write | connect => exact ⟨hL.append hval, rfl⟩
      | commit buf | writeMultiple buf =>
        refine ⟨(hL.set_none buf).append ?_, rfl⟩
        rwa [List.length_set]
  | stream op k =>
    rw [hAt] at h hP
    cases h with
    | makeStream => exact ⟨hL.append (hP _ (.stream op k)), rfl⟩
  | drop v k =>
    rw [hAt] at h
    cases h with
    | drop => exact ⟨hL.set_none v, rfl⟩
  | allocWrite k =>
    rw [hAt] at h hP
    cases h with
    | allocWrite _ b => exact ⟨hL.append (hP _ (.allocWrite k b)), rfl⟩
  | cloneWrite v k =>
    rw [hAt] at h hP
    cases h with
    | cloneWrite _ _ b => exact ⟨hL.append (hP _ (.cloneWrite v k b)), rfl⟩
  | ret | spawn | next =>
    rw [hAt] at h
    cases h

/-! ## Logs -/

section Local

variable {code : Code σ} {ok : Event → Bool} {φ : TaskPtr → View σ → Prop}

theorem View.settle_log (V : View σ) : V.log <+: V.settle.log := by
  unfold View.settle
  split
  · exact List.prefix_append ..
  · exact List.prefix_rfl

/-- The log of a task only grows. -/
theorem TaskStep.log {p : TaskPtr} {V V' : View σ} (h : TaskStep code p V V') :
    V.log <+: V'.log := by
  cases h with
  | locals | spawn | suspend => exact List.prefix_rfl
  | call =>
    rw [List.append_assoc]
    exact List.prefix_append ..
  | ret | accept => exact List.prefix_append ..
  | leave => exact View.settle_log { V with phase := .off }
  | skip =>
    exact (List.prefix_append ..).trans
      (View.settle_log { V with outs := _, log := V.log ++ [_] })

theorem Step.log {g g' : Config σ} (hs : Step code g g') (hinv : Inv g.core g.stack)
    (hnd : (g.stack.map Frame.task).Nodup) (p : TaskPtr) :
    (g.core.cell p).log <+: (g'.core.cell p).log := by
  rcases hs.view hinv hnd p with heq | hstep | ⟨rfl, -⟩
  · rw [show (g'.core.cell p).log = _ from congrArg View.log heq]
    exact List.prefix_rfl
  · exact hstep.log
  · rw [hinv.slab.fresh _ (Nat.le_refl _)]
    exact List.nil_prefix

/-- Every event recorded so far is `ok`. -/
def State.records (ok : Event → Bool) (s : State σ) : Bool :=
  s.heap.all fun raw => raw.log.all ok

/-- Every event recorded so far is `ok`. -/
def Core.Records (ok : Event → Bool) (c : Core) : Prop := ∀ p, ∀ e ∈ (c.cell p).log, ok e = true

theorem State.records_iff {s : State σ} : s.records ok = true ↔ s.core.Records ok := by
  simp only [State.records, List.all_eq_true]
  constructor
  · intro h p e he
    cases hraw : s.heap[p]? with
    | none => simp [State.core, hraw, Cell.absent] at he
    | some raw =>
      rw [State.core_cell hraw] at he
      exact h raw (List.mem_of_getElem? hraw) e he
  · intro h raw hraw e he
    obtain ⟨p, hp⟩ := List.mem_iff_getElem?.mp hraw
    refine h p e ?_
    rwa [State.core_cell hp]

theorem Step.records {g g' : Config σ} (hs : Step code g g') (hinv : Inv g.core g.stack)
    (hnd : (g.stack.map Frame.task).Nodup) (h : g'.core.Records ok) : g.core.Records ok :=
  fun p e he => h p e ((hs.log hinv hnd p).subset he)

/-! ## Local properties -/

/-- A property of a task that holds at its birth and that each of its steps keeps, as long as the
events it records are `ok`. A spawned block takes values of its parent along. -/
structure Local (code : Code σ) (ok : Event → Bool) (φ : TaskPtr → View σ → Prop) : Prop where
  main : ∀ (t : TaskPtr) (i : SlabIdx) {x : σ}, code.entry x = true → φ t (.born i x [])
  spawn : ∀ {p : TaskPtr} {V : View σ} {cur : TaskInfo} {x child k : σ}
    {L L' taken : List (Option Value)} {moved : List (Kind × Var)} (t : TaskPtr) (i : SlabIdx),
    φ p V → V.phase = .on cur → V.block = ⟨some x, L⟩ → code x = .spawn child moved k →
      Moves L moved taken L' → ok (.spawned taken) = true → φ t (.born i child taken)
  step : ∀ {p : TaskPtr} {V V' : View σ}, TaskStep code p V V' → (∀ e ∈ V'.log, ok e = true) →
    φ p V → φ p V'

/-- What holds of every task of a configuration, with the accounts. -/
structure Views (φ : TaskPtr → View σ → Prop) (g : Config σ) : Prop where
  inv : Inv g.core g.stack
  nodup : (g.stack.map Frame.task).Nodup
  all : ∀ p < g.core.spawned, φ p (g.view p)

/-- The view of a task between two commands. -/
theorem State.view_eq {s : State σ} {p : TaskPtr} {raw : RawTask σ} (h : s.heap[p]? = some raw) :
    (s.config []).view p =
      { nb := raw.syscallNb
        outs := (s.outstanding.filter fun q => q.caller.task = p : List Sqe)
        block := raw.future
        log := raw.log
        phase := .off
        freed := raw.freed } := by
  have hcell := State.core_cell h
  refine View.ext ?_ rfl ?_ ?_ rfl ?_
  · exact congrArg Cell.syscallNb hcell
  · simp [Config.view, State.config, State.fut, h]
  · exact congrArg Cell.log hcell
  · exact congrArg Cell.freed hcell

/-- A local property, of a task between two commands. -/
theorem Views.raw {s : State σ} (h : Views φ (s.config [])) {p : TaskPtr} {raw : RawTask σ}
    (hraw : s.heap[p]? = some raw) : φ p
      { nb := raw.syscallNb
        outs := (s.outstanding.filter fun q => q.caller.task = p : List Sqe)
        block := raw.future
        log := raw.log
        phase := .off
        freed := raw.freed } := by
  obtain ⟨hlt, -⟩ := List.getElem?_eq_some_iff.mp hraw
  rw [← State.view_eq hraw]
  exact h.all p hlt

/-- A task that is not spawned yet makes no step. -/
theorem TaskStep.not_fresh {g : Config σ} {W : TaskPtr → Nat}
    (hinv : Inv g.core g.stack W) {p : TaskPtr} {V' : View σ} (h : TaskStep code p (g.view p) V') :
    p < g.core.spawned := by
  by_contra hge
  have hfreed : (g.view p).freed = true := by
    show (g.core.cell p).freed = true
    rw [hinv.slab.fresh p (Nat.le_of_not_lt hge)]
    rfl
  have hoff : (g.view p).phase = .off := phaseOf_eq_off fun hmem => by
    obtain ⟨f, hf, rfl⟩ := List.mem_map.mp hmem
    exact hge (hinv.slab.lt_spawned (hinv.live_of_mem hf))
  generalize g.view p = V at h hfreed hoff
  cases h with
  | locals hon | spawn hon | call hon | suspend hon | ret hon => rw [hoff] at hon; cases hon
  | leave hover => rw [hoff] at hover; cases hover
  | skip h => rw [h.live] at hfreed; cases hfreed
  | accept h => rw [h.live] at hfreed; cases hfreed

theorem Local.one (h : Local code ok φ) {g g' : Config σ} (hs : Step code g g')
    (hrec : g'.core.Records ok) (hg : Views φ g) : Views φ g' := by
  refine ⟨Inv.step hs hg.inv, hs.nodup hg.inv hg.nodup, fun p hp => ?_⟩
  rcases hs.view hg.inv hg.nodup p with heq | hstep | ⟨rfl, hborn⟩
  · by_cases hlt : p < g.core.spawned
    · exact heq ▸ hg.all p hlt
    · obtain ⟨i, -, -, hlive⟩ := hs.created (Nat.le_of_not_lt hlt) hp
      have hfreed : (g'.core.cell p).freed = (g.core.cell p).freed := congrArg View.freed heq
      rw [hlive, hg.inv.slab.fresh p (Nat.le_of_not_lt hlt)] at hfreed
      cases hfreed
  · exact h.step hstep (hrec p) (hg.all p (hstep.not_fresh hg.inv))
  · have hlog : ∀ e ∈ (g'.view g.core.spawned).log, ok e = true := hrec _
    generalize g'.view g.core.spawned = V at hborn hlog
    cases hborn with
    | main i hx => exact h.main _ i hx
    | @spawn p _ _ _ _ _ _ _ _ i hon hb hx hm =>
      refine h.spawn _ i (hg.all p ?_) hon hb hx hm (hlog _ List.mem_cons_self)
      exact (TaskStep.spawn hon hb hx hm : TaskStep code p _ _).not_fresh hg.inv

theorem Local.steps (h : Local code ok φ) {g g' : Config σ} (hs : Steps code g g')
    (hrec : g'.core.Records ok) (hg : Views φ g) : Views φ g' := by
  induction hs with
  | refl => exact hg
  | @tail g1 g2 hs1 hs2 ih =>
    have hinv := Inv.steps hs1 hg.inv
    have hnd : (g1.stack.map Frame.task).Nodup := by
      clear ih hs2 hrec
      induction hs1 with
      | refl => exact hg.nodup
      | tail hs3 hs4 ih => exact hs4.nodup (Inv.steps hs3 hg.inv) (ih (Inv.steps hs3 hg.inv))
    exact h.one hs2 hrec (ih (hs2.records hinv hnd hrec))

/-- **A local property holds of every task in every run** that records `ok` events only. -/
theorem Local.run (h : Local code ok φ) {s : State σ}
    (hr : RunWith code (fun _ s' => s'.records ok) s) : Views φ (s.config []) := by
  induction hr with
  | new hnew =>
    refine ⟨inv_new hnew, List.nodup_nil, fun p hp => ?_⟩
    obtain ⟨-, hheap, -⟩ := State.new_spec hnew
    simp [State.config, State.core, hheap] at hp
  | act cmd hr ha hrec ih =>
    obtain ⟨hrep, hinv⟩ := hr.inv
    exact h.steps (wp_ok (wp_act cmd hinv hrep) ha).2 (State.records_iff.mp hrec) ih

/-- A local property that asks nothing of the events holds in every reachable state. -/
theorem Local.reachable (h : Local code (fun _ => true) φ) {s : State σ} (hr : Reachable code s) :
    Views φ (s.config []) :=
  h.run (hr.mono fun _ s' _ => by simp [State.records])

/-- A command that fails: the property holds up to a configuration after which no poll starts. -/
theorem Local.fail (h : Local code ok φ) {s s' : State σ} {cmd : Cmd σ} {e : Fault}
    (hr : RunWith code (fun _ s' => s'.records ok) s) (ha : act code cmd s = .error e s')
    (hrec : s'.records ok) : ∃ g, Views φ g ∧ Trails g.core s'.core := by
  obtain ⟨hrep, hinv⟩ := hr.inv
  have hs' := State.records_iff.mp hrec
  have htrail : ∀ {g : Config σ}, Trails g.core s'.core → g.core.Records ok := fun ht p e he => by
    obtain ⟨evs, hlog, -⟩ := ht p
    exact hs' p e (hlog ▸ List.mem_append_left _ he)
  rcases wp_error (wp_act cmd hinv hrep) ha with ⟨g, hs, -, ht⟩ | ⟨-, -, ht⟩
  · exact ⟨g, h.steps hs (htrail ht) (h.run hr), ht⟩
  · exact ⟨s.config [], h.run hr, ht⟩

/-- Where no outstanding SQE is ahead of its task, the panic of the dispatch is unreachable. -/
theorem not_newer {s : State σ} (hrep : s.Rep) (hinv : Inv s.core [])
    (h : ∀ q ∈ s.core.outstanding,
      evaluateSyscallNb (s.core.stored q.caller.task) q.payload.syscallNb ≠ .error)
    {cmd : Cmd σ} {e : Fault} {s' : State σ} (he : act code cmd s = .error e s') :
    e ≠ .panic .newerSqe := by
  rcases wp_error (wp_act cmd hinv hrep) he with
    ⟨g, -, hsoft, -⟩ | ⟨-, ⟨c, cq, p, hcq, hp, hcls⟩, -⟩
  · rintro rfl
    cases hsoft
  · have hmem := mem_outstanding_of_inflight (hinv.ring.head_inflight hcq)
    rw [(hinv.cqe_owner hcq hp).1] at hcls
    exact absurd hcls (h _ hmem)

end Local

end Onlyio
