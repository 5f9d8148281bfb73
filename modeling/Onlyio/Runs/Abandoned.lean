import Onlyio.Runs.Buffers
import Onlyio.Machine.Local

/-!
# Buffers that nobody takes

A completion with a buffer may be `Expired`, or start a poll that does not poll the read; and a
commit may be dropped after it has submitted its write. No code gives the slot back then: the
dispatcher ignores what an `Expired` completion carries, and `CommitFuture` has no `Drop`.
`deliveries` reads from a log which completions were handled, and how often the buffer of each was
taken in the poll that it started.

* **`abandoned_run`**: in every run whose polls take a buffer at most once, a slot is in exactly one
  place if and only if each completion that brought it was taken and no commit of it was dropped;
  otherwise it is nowhere, and the kernel never gets it back.
-/

namespace Onlyio

open Lib

variable {σ : Type} {code : Code σ}

/-! ## Deliveries -/

/-- The slot that an event takes from the context. -/
def Event.taken : Event → Option UInt32
  | .call _ (.read (.pending _)) info _ (some _) => selected info.flags
  | .call _ (.readStream ⟨_, .running⟩) info _ (some _) =>
    if info.result < 0 then none else selected info.flags
  | _ => none

/-- A completion that was handled, with its classification, and how often its buffer was taken
before the next one. -/
structure Delivery where
  entry : Cqe
  cls : SyscallNbCompResult
  takes : Nat

/-- One more event, after the deliveries so far, the last one first. -/
def deliver (ds : List Delivery) : Event → List Delivery
  | .cqe e cls _ => ⟨e, cls, 0⟩ :: ds
  | ev =>
    match ds with
    | d :: ds => { d with takes := d.takes + ev.taken.toList.length } :: ds
    | [] => []

/-- The deliveries of a log, the last one first. -/
def deliveries (log : List Event) : List Delivery := log.foldl deliver []

/-- The deliveries to all tasks. -/
def State.deliveries (s : State σ) : List Delivery := s.logs.flatMap Onlyio.deliveries

/-- How often the slot was brought. -/
def brought (ds : List Delivery) (id : UInt32) : Nat := ds.countP fun d => d.entry.carries id

/-- How often the slot was taken. -/
def takenOf (ds : List Delivery) (id : UInt32) : Nat :=
  ((ds.filter fun d => d.entry.carries id).map Delivery.takes).sum

section Deliveries

variable {log : List Event} {ev : Event} {id : UInt32}

theorem takenOf_cons (d : Delivery) (ds : List Delivery) (id : UInt32) :
    takenOf (d :: ds) id = (if d.entry.carries id then d.takes else 0) + takenOf ds id := by
  rw [takenOf, List.filter_cons]
  split
  · rw [List.map_cons, List.sum_cons]
    rfl
  · exact (Nat.zero_add _).symm

theorem deliveries_concat (log : List Event) (ev : Event) :
    deliveries (log ++ [ev]) = deliver (deliveries log) ev := by
  simp [deliveries]

/-- An event that is no completion. -/
theorem deliver_cons (d : Delivery) (ds : List Delivery)
    (hcqe : ∀ e cls others, ev ≠ .cqe e cls others) :
    deliver (d :: ds) ev = { d with takes := d.takes + ev.taken.toList.length } :: ds := by
  cases ev with
  | cqe e cls others => exact absurd rfl (hcqe e cls others)
  | call | spawned | poll | ready | submit | dropped => rfl

theorem deliver_nil (hcqe : ∀ e cls others, ev ≠ .cqe e cls others) : deliver [] ev = [] := by
  cases ev with
  | cqe e cls others => exact absurd rfl (hcqe e cls others)
  | call | spawned | poll | ready | submit | dropped => rfl

/-- An event that brings and takes nothing. -/
theorem deliver_quiet (ds : List Delivery) (hcqe : ∀ e cls others, ev ≠ .cqe e cls others)
    (htaken : ev.taken = none) : deliver ds ev = ds := by
  cases ds with
  | nil => exact deliver_nil hcqe
  | cons d ds =>
    rw [deliver_cons d ds hcqe, htaken]
    rfl

theorem Event.count_took (ev : Event) (id : UInt32) :
    ev.owes.count (.took id) = ev.taken.toList.count id := by
  have helim : ∀ o : Option UInt32,
    (o.elim (0 : Multiset Token) fun x => {.took x}).count (.took id) =
      o.toList.count id := fun o => count_elim o .took (fun a b => Token.took.inj) id
  cases ev with
  | cqe e cls others => exact e.count_arrival_ne (by simp)
  | spawned | poll | ready | submit | dropped => rfl
  | call v val info n r =>
    show (val.owes info r.isSome).count _ = _
    cases val with
    | read f =>
      cases f with
      | init => rfl
      | pending fd =>
        cases r with
        | none => rfl
        | some r => exact helim _
    | readStream st =>
      obtain ⟨fd, state⟩ := st
      cases state with
      | init | done => rfl
      | running =>
        cases r with
        | none => rfl
        | some r =>
          simp only [Value.owes, Event.taken, Option.isSome_some]
          split
          · rfl
          · exact helim _
    | commit f => cases f <;> cases r <;> simp [Value.owes, Event.taken]
    | commitFn b len => cases r <;> simp [Value.owes, Event.taken]
    | accept | write | socket | writeMultiple | acceptStream | rwBuffer | wBuffer | returned => rfl

/-- Only a completion is a delivery. -/
theorem deliver_map {α : Type} (f : Delivery → α) (hf : ∀ d n, f { d with takes := n } = f d)
    (ds : List Delivery) (hcqe : ∀ e cls others, ev ≠ .cqe e cls others) :
    (deliver ds ev).map f = ds.map f := by
  cases ds with
  | nil => rw [deliver_nil hcqe]
  | cons d ds => rw [deliver_cons d ds hcqe, List.map_cons, List.map_cons, hf]

/-- What completions bring is delivered. -/
theorem brought_deliveries (log : List Event) (id : UInt32) :
    brought (deliveries log) id = (deeds log).count (.arrived id) := by
  induction log using List.reverseRecOn with
  | nil => rfl
  | append_singleton log ev ih =>
    rw [deliveries_concat, deeds_append, deeds_singleton, Multiset.count_add, ← ih]
    cases ev with
    | cqe e cls others =>
      show brought (_ :: _) id = _ + e.arrival.count _
      rw [brought, List.countP_cons, e.count_arrival]
      rfl
    | spawned | poll | ready | submit | dropped =>
      rw [deliver_quiet _ (by simp) rfl]
      rfl
    | call v val info n r =>
      have hnone : (val.owes info r.isSome).count (.arrived id) = 0 := by
        unfold Value.owes
        split
        · exact count_elim_ne _ (by simp)
        · split
          · rfl
          · exact count_elim_ne _ (by simp)
        · simp
        · simp
        · rfl
      have hmap : (deliver (deliveries log) (.call v val info n r)).map Delivery.entry =
          (deliveries log).map Delivery.entry := deliver_map _ (fun _ _ => rfl) _ (by simp)
      have hcount : ∀ ds, brought ds id =
          (ds.map Delivery.entry).countP (Cqe.carries id) := by
        intro ds
        rw [brought, List.countP_map]
        rfl
      rw [hcount, hmap, ← hcount]
      exact (Nat.add_zero _).symm.trans (congrArg _ hnone.symm)

theorem mem_deliveries {e : Cqe} {cls : SyscallNbCompResult} {others : List UInt16}
    (h : .cqe e cls others ∈ log) : ∃ d ∈ deliveries log, d.entry = e ∧ d.cls = cls := by
  suffices hmem : (e, cls) ∈ (deliveries log).map fun d => (d.entry, d.cls) by
    obtain ⟨d, hd, heq⟩ := List.mem_map.mp hmem
    exact ⟨d, hd, (Prod.mk.inj heq).1, (Prod.mk.inj heq).2⟩
  induction log using List.reverseRecOn with
  | nil => cases h
  | append_singleton log ev ih =>
    rw [deliveries_concat]
    rcases List.mem_append.mp h with hin | hin
    · by_cases hcqe : ∃ e cls others, ev = .cqe e cls others
      · obtain ⟨e', cls', others', rfl⟩ := hcqe
        exact List.mem_cons_of_mem _ (ih hin)
      · rw [deliver_map (fun d => (d.entry, d.cls)) (fun _ _ => rfl) _
          fun e cls others heq => hcqe ⟨e, cls, others, heq⟩]
        exact ih hin
    · obtain rfl := List.mem_singleton.mp hin
      exact List.mem_cons_self

end Deliveries

/-! ## One task -/

/-- What was taken came from the completion that started the poll, and an `Expired` one starts
none. -/
structure Booked (log : List Event) : Prop where
  took : ∀ id, (deeds log).count (.took id) = takenOf (deliveries log) id
  expired : ∀ d ∈ deliveries log, d.cls = .expired → d.takes = 0

/-- The buffer in the context is that of the last completion, which was accepted. -/
def Fresher (log : List Event) (info : TaskInfo) : Prop :=
  ∀ id, selected info.flags = some id →
    ∃ d ds, deliveries log = d :: ds ∧ d.entry.carries id = true ∧ d.cls ≠ .expired

/-- An event that is no completion brings no other buffer. -/
theorem Fresher.concat {log : List Event} {info : TaskInfo} (h : Fresher log info) {ev : Event}
    (hcqe : ∀ e cls others, ev ≠ .cqe e cls others) : Fresher (log ++ [ev]) info := by
  intro id hsel
  obtain ⟨d, ds, hds, hcarries, hcls⟩ := h id hsel
  refine ⟨{ d with takes := d.takes + ev.taken.toList.length }, ds, ?_, hcarries, hcls⟩
  rw [deliveries_concat, hds, deliver_cons d ds hcqe]

theorem Fresher.of_flags {log : List Event} {info info' : TaskInfo} (h : Fresher log info)
    (hflags : info'.flags = info.flags ∨ info'.flags = 0) : Fresher log info' := by
  intro id hsel
  rcases hflags with hflags | hflags
  · exact h id (hflags ▸ hsel)
  · rw [hflags] at hsel
    cases hsel

namespace Booked

variable {log : List Event} {ev : Event}

theorem quiet (h : Booked log) (hcqe : ∀ e cls others, ev ≠ .cqe e cls others)
    (htaken : ev.taken = none) : Booked (log ++ [ev]) := by
  have hsame : deliveries (log ++ [ev]) = deliveries log := by
    rw [deliveries_concat, deliver_quiet _ hcqe htaken]
  refine ⟨fun id => ?_, ?_⟩
  · rw [hsame, deeds_append, deeds_singleton, Multiset.count_add, ev.count_took, htaken]
    exact h.took id
  · rw [hsame]
    exact h.expired

theorem cqe (h : Booked log) (e : Cqe) (cls : SyscallNbCompResult) (others : List UInt16) :
    Booked (log ++ [.cqe e cls others]) := by
  have hcons : deliveries (log ++ [.cqe e cls others]) = ⟨e, cls, 0⟩ :: deliveries log :=
    deliveries_concat log _
  refine ⟨fun id => ?_, ?_⟩
  · rw [hcons, deeds_append, deeds_singleton, Multiset.count_add, Event.count_took]
    rw [takenOf_cons, ite_self, Nat.zero_add]
    exact h.took id
  · rw [hcons]
    intro d hd hcls
    rcases List.mem_cons.mp hd with rfl | hd
    · rfl
    · exact h.expired d hd hcls

theorem take (h : Booked log) {info : TaskInfo} (hf : Fresher log info) {id : UInt32}
    (hsel : selected info.flags = some id) (hcqe : ∀ e cls others, ev ≠ .cqe e cls others)
    (htaken : ev.taken = some id) : Booked (log ++ [ev]) := by
  obtain ⟨d, ds, hds, hcarries, hcls⟩ := hf id hsel
  have hcons : deliveries (log ++ [ev]) = { d with takes := d.takes + 1 } :: ds := by
    rw [deliveries_concat, hds, deliver_cons d ds hcqe, htaken]
    rfl
  refine ⟨fun x => ?_, ?_⟩
  · have hold := h.took x
    rw [hcons, deeds_append, deeds_singleton, Multiset.count_add, ev.count_took, htaken, hold, hds,
      takenOf_cons, takenOf_cons]
    by_cases hx : id = x
    · subst hx
      simp only [hcarries, if_true, Option.toList_some, List.count_singleton_self]
      omega
    · have hnot : d.entry.carries x = false := by
        simp only [Cqe.carries, decide_eq_true_eq, decide_eq_false_iff_not] at hcarries ⊢
        rw [hcarries]
        exact fun heq => hx (Option.some.inj heq)
      simp [hnot, hx]
  · rw [hcons]
    intro d' hd' hcls'
    rcases List.mem_cons.mp hd' with rfl | hd'
    · exact absurd hcls' hcls
    · exact h.expired d' (hds ▸ List.mem_cons_of_mem _ hd') hcls'

end Booked

/-- A task, between its steps. -/
def Delivers (_ : TaskPtr) (V : View σ) : Prop :=
  Booked V.log ∧ ∀ cur, V.phase = .on cur → Fresher V.log cur

theorem Called.flags {me : Caller} {cur cur' : TaskInfo} {nb nb' : UInt16} {outs : Multiset Sqe}
    {val val' : Value} {out : Out} {new : List Sqe} {evs : List Event}
    (h : Called me cur nb outs val out val' cur' nb' new evs) :
    cur'.flags = cur.flags ∨ cur'.flags = 0 := by
  cases h with
  | send | opens | commit | fanOut | fanOne | resolve => exact .inl rfl
  | fanLast => exact .inr rfl

theorem Event.taken_call (v : Var) (val : Value) (info : TaskInfo) (n : Nat) (r : Option Resp) :
    (Event.call v val info n r).taken = none ∨
      (Event.call v val info n r).taken = selected info.flags := by
  unfold Event.taken
  split
  · rename_i heq
    cases heq
    exact .inr rfl
  · rename_i heq
    cases heq
    split
    · exact .inl rfl
    · exact .inr rfl
  · exact .inl rfl

/-- What a poll of a value records. -/
theorem Booked.call {log evs : List Event} {cur : TaskInfo} (h : Booked log) (hf : Fresher log cur)
    (hevs : ∀ e ∈ evs, ∃ q n, e = .submit q n) (v : Var) (val : Value) (n : Nat) (r : Option Resp) :
    Booked (log ++ evs ++ [.call v val cur n r]) ∧
    Fresher (log ++ evs ++ [.call v val cur n r]) cur := by
  induction evs generalizing log with
  | nil =>
    rw [List.append_nil]
    have hcall : ∀ e cls others, Event.call v val cur n r ≠ .cqe e cls others := by simp
    refine ⟨?_, hf.concat hcall⟩
    cases htaken : (Event.call v val cur n r).taken with
    | none => exact h.quiet hcall htaken
    | some id =>
      rcases Event.taken_call v val cur n r with hnone | hsome
      · rw [htaken] at hnone
        cases hnone
      · exact h.take hf (hsome.symm.trans htaken) hcall htaken
  | cons ev evs ih =>
    obtain ⟨q, m, rfl⟩ := hevs ev List.mem_cons_self
    have hsub : ∀ e cls others, Event.submit q m ≠ .cqe e cls others := by simp
    have hnext := ih (h.quiet hsub rfl) (hf.concat hsub) fun e he =>
      hevs e (List.mem_cons_of_mem _ he)
    rwa [List.append_assoc log] at hnext

theorem Delivers.born {x : σ} {p : TaskPtr} (i : SlabIdx) (L : List (Option Value)) :
    Delivers p (.born i x L) := by
  refine ⟨⟨fun id => rfl, fun d hd => nomatch hd⟩, fun cur hon id hsel => ?_⟩
  obtain rfl := Phase.on.inj hon
  exact absurd hsel (by simp [selected, bufferSelect, TaskInfo.initialPoll])

/-- A task that is freed or not. -/
theorem Delivers.settle {p : TaskPtr} {V : View σ} (h : Booked V.log) (hoff : V.phase = .off) :
    Delivers p V.settle := by
  unfold View.settle
  split
  · refine ⟨h.quiet (by simp) rfl, fun cur hon => ?_⟩
    rw [hoff] at hon
    cases hon
  · refine ⟨h, fun cur hon => ?_⟩
    rw [hoff] at hon
    cases hon

theorem Delivers.step {p : TaskPtr} {V V' : View σ} (hs : TaskStep code p V V') (h : Delivers p V) :
    Delivers p V' := by
  cases hs with
  | locals hon => exact ⟨h.1, h.2⟩
  | spawn hon => exact ⟨h.1, h.2⟩
  | call hon hb hx hv hc =>
    obtain ⟨hbooked, hfresh⟩ := h.1.call (h.2 _ hon) hc.submits _ _ _ _
    refine ⟨hbooked, fun cur' hon' => ?_⟩
    obtain rfl := Phase.on.inj hon'
    exact hfresh.of_flags hc.flags
  | suspend => exact ⟨h.1, fun cur hon => nomatch hon⟩
  | ret => exact ⟨h.1.quiet (by simp) rfl, fun cur hon => nomatch hon⟩
  | leave => exact .settle h.1 rfl
  | skip harr => exact .settle (h.1.cqe _ _ _) harr.off
  | @accept e cls others harr hcls =>
    have hcqe := h.1.cqe e cls others
    have hcons : deliveries (V.log ++ [.cqe e cls others]) = ⟨e, cls, 0⟩ :: deliveries V.log :=
      deliveries_concat _ _
    have hfresh : Fresher (V.log ++ [.cqe e cls others]) (e.context cls) := by
      intro id hsel
      rw [(e.context_result cls).2] at hsel
      refine ⟨_, _, hcons, decide_eq_true hsel, ?_⟩
      rintro rfl
      rcases hcls with hcls | hcls <;> cases hcls
    have hlog : V.log ++ [.cqe e cls others, .poll (e.context cls)] =
        V.log ++ [.cqe e cls others] ++ [.poll (e.context cls)] := by simp
    refine ⟨?_, fun cur hon => ?_⟩
    · rw [hlog]
      exact hcqe.quiet (by simp) rfl
    · obtain rfl := Phase.on.inj hon
      rw [hlog]
      exact hfresh.concat (by simp)

theorem Delivers.isLocal : Local code (fun _ => true) Delivers where
  main _ i _ _ := .born i []
  spawn _ i _ _ _ _ _ _ := .born i _
  step hs _ h := h.step hs

/-! ## All tasks -/

section Runs

variable {s : State σ} {posted : List Cqe}

theorem takenOf_flatMap {α : Type} (l : List α) (f : α → List Delivery) (id : UInt32) :
    takenOf (l.flatMap f) id = (l.map fun a => takenOf (f a) id).sum := by
  induction l with
  | nil => rfl
  | cons a l ih =>
    rw [List.map_cons, List.sum_cons, ← ih, List.flatMap_cons]
    simp only [takenOf, List.filter_append, List.map_append, List.sum_append]

theorem count_arrived_run (s : State σ) (id : UInt32) :
    s.recorded.count (.arrived id) = brought s.deliveries id := by
  rw [s.count_recorded, brought, State.deliveries, List.countP_flatMap, State.logs, List.map_map]
  exact congrArg List.sum (List.map_congr_left fun raw _ => (brought_deliveries raw.log id).symm)

theorem count_took_run (h : Views Delivers (s.config [])) (id : UInt32) :
    s.recorded.count (.took id) = takenOf s.deliveries id := by
  rw [s.count_recorded, State.deliveries, takenOf_flatMap, State.logs, List.map_map]
  refine congrArg List.sum (List.map_congr_left fun raw hraw => ?_)
  obtain ⟨p, hp⟩ := List.mem_iff_getElem?.mp hraw
  exact (h.raw hp).1.took id

/-- What is taken at most once is taken at most as often as it is brought. -/
theorem takenOf_le {ds : List Delivery} (h : ∀ d ∈ ds, d.takes ≤ 1) (id : UInt32) :
    takenOf ds id ≤ brought ds id ∧
      (takenOf ds id = brought ds id ↔ ∀ d ∈ ds, d.entry.carries id = true → d.takes ≠ 0) := by
  induction ds with
  | nil => exact ⟨Nat.le_refl _, fun _ d hd => (nomatch hd), fun _ => rfl⟩
  | cons d ds ih =>
    obtain ⟨hle, hiff⟩ := ih fun d' hd' => h d' (List.mem_cons_of_mem _ hd')
    have hone := h d List.mem_cons_self
    rw [takenOf_cons, brought, List.countP_cons, ← brought]
    simp only [List.forall_mem_cons]
    rw [← hiff]
    split
    · rename_i hcarries
      simp only [hcarries, true_implies]
      omega
    · rename_i hcarries
      simpa [hcarries] using hle

/-- A completion with the slot was handled, and no poll has taken its buffer. -/
def State.Untaken (s : State σ) (id : UInt32) : Prop :=
  ∃ d ∈ s.deliveries, d.entry.carries id = true ∧ d.takes = 0

/-- A commit of the slot has submitted its write, and was neither ready nor does it wait: it was
dropped. -/
def State.CommitDropped (s : State σ) (id : UInt32) : Prop :=
  s.recorded.count (.settled id) + s.tokens.count (.commit id) < s.recorded.count (.committed id)

/-- Each poll of a task takes the buffer of its completion at most once. -/
def State.takesOnce (s : State σ) : Bool := s.deliveries.all fun d => d.takes ≤ 1

theorem ReadRun.views {ok : State σ → Prop} (hr : ReadRun code ok posted s) :
    Views Delivers (s.config []) :=
  Delivers.isLocal.reachable (hr.run.mono fun _ _ _ => trivial)

theorem ReadRun.once (hr : ReadRun code (fun s => s.takesOnce) posted s) :
    ∀ d ∈ s.deliveries, d.takes ≤ 1 := by
  have hall : s.takesOnce = true → ∀ d ∈ s.deliveries, d.takes ≤ 1 := fun h d hd => by
    simpa using List.all_eq_true.mp h d hd
  cases hr with
  | new h =>
    obtain ⟨-, hheap, -⟩ := State.new_spec h
    intro d hd
    rw [State.deliveries, State.logs, hheap] at hd
    cases hd
  | act cmd hr ha hcmd hok => exact hall hok
  | complete e hr ha he hk hok => exact hall hok

theorem State.untaken_iff (h : ∀ d ∈ s.deliveries, d.takes ≤ 1) (id : UInt32) :
    s.Untaken id ↔ takenOf s.deliveries id ≠ brought s.deliveries id := by
  rw [ne_eq, (takenOf_le h id).2, State.Untaken]
  simp

/-- The places of a slot, the completions that nobody took and the commits that were dropped. -/
theorem ReadRun.balance (hr : ReadRun code (fun s => s.takesOnce) posted s) {id : UInt32}
    (hid : id < s.buffer.readCount) :
    s.places (drawn posted).length id + (brought s.deliveries id - takenOf s.deliveries id) +
      (s.recorded.count (.committed id) -
        (s.recorded.count (.settled id) + s.tokens.count (.commit id))) = 1 := by
  obtain ⟨back, hb⟩ := hr.audited
  have hfair : ∀ {posted : List Cqe} {s : State σ}, ReadRun code (fun s => s.takesOnce) posted s →
      ∀ id, s.recorded.count (.took id) ≤ s.recorded.count (.arrived id) := fun hr id => by
    rw [count_took_run hr.views, count_arrived_run]
    exact (takenOf_le hr.once id).1
  have hplaces := hr.places hfair id
  have hcommits := hb.commits_le id
  have hle := (takenOf_le hr.once id).1
  rw [count_took_run hr.views, count_arrived_run,
    if_pos (hb.owns.ledger.pool.readCount ▸ hid)] at hplaces
  rw [State.places]
  omega

/-- **What nobody takes is lost.** In every run whose polls take a buffer at most once, a slot is in
exactly one place if and only if every completion that brought it was taken and no commit of it was
dropped. Otherwise it is nowhere. An `Expired` completion is never taken. -/
theorem abandoned_run (hr : ReadRun code (fun s => s.takesOnce) posted s) {id : UInt32}
    (hid : id < s.buffer.readCount) :
    (s.places (drawn posted).length id = 1 ↔ ¬ s.Untaken id ∧ ¬ s.CommitDropped id) ∧
    (s.Untaken id ∨ s.CommitDropped id → s.places (drawn posted).length id = 0) ∧
    ∀ log ∈ s.logs, ∀ e others, .cqe e .expired others ∈ log → e.carries id = true →
    s.Untaken id := by
  have hbalance := hr.balance hid
  have hle := (takenOf_le hr.once id).1
  have huntaken := State.untaken_iff hr.once id
  refine ⟨?_, ?_, fun log hlog e others hin hcarries => ?_⟩
  · rw [huntaken, State.CommitDropped]
    omega
  · rw [huntaken, State.CommitDropped]
    omega
  · obtain ⟨d, hd, rfl, hcls⟩ := mem_deliveries hin
    obtain ⟨raw, hraw, rfl⟩ := List.mem_map.mp hlog
    obtain ⟨p, hp⟩ := List.mem_iff_getElem?.mp hraw
    exact ⟨d, List.mem_flatMap.mpr ⟨_, hlog, hd⟩, hcarries, (hr.views.raw hp).1.expired d hd hcls⟩

end Runs

/-! ## A `recv` after a fan-out -/

/-- A stream is read once, its peer is answered with a fan-out, and the task goes on with an
`accept`. -/
def relayCode : Nat → Await.Instr Nat
  | 0 => .stream (.readStream 5) fun _ => 1
  | 1 => .next 0 fun _ => 2
  | 2 => .allocWrite fun _ => 3
  | 3 => .await (.writeMultiple 2 [6] 8) fun _ => 4
  | 4 => .await (.accept 4) fun _ => 5
  | _ => .ret

/-- The stream brings slot 0; the fan-out advances the number; the stream brings slot 1, which is
`Expired`. -/
def relayRun : List (Cmd (Await.Point Nat)) :=
  [.spawn 9 (.run 0), .submit, .consume, .complete 0 10 3, .handle 9, .submit, .consume,
    .complete 1 8 0, .handle 9, .complete 0 10 65539, .handle 9]

theorem relay_expires :
    (freshReadScript (awaited relayCode) (fun s => s.takesOnce) relayRun).any (fun c =>
    c.2.deliveries.any (fun d => d.cls = .expired && d.entry.carries 1 && d.takes == 0) &&
      c.2.buffer.readCount == 512) = true := by decide +kernel

/-- Slot 1 is not in the ring any more, and nobody has it. -/
theorem relay_loses_buffer :
    ∃ posted s, freshReadScript (awaited relayCode) (fun s => s.takesOnce) relayRun =
      some (posted, s) ∧ (∃ d ∈ s.deliveries, d.cls = .expired ∧ d.entry.carries 1 = true) ∧
    s.places (drawn posted).length 1 = 0 := by
  obtain ⟨⟨posted, s⟩, hs, hc⟩ := (Option.any_eq_true _ _).mp relay_expires
  rw [Bool.and_eq_true, List.any_eq_true, beq_iff_eq] at hc
  obtain ⟨⟨d, hd, hlost⟩, hcount⟩ := hc
  simp only [Bool.and_eq_true, decide_eq_true_eq, beq_iff_eq] at hlost
  have hr : ReadRun (awaited relayCode) (fun s => s.takesOnce) posted s :=
    .of_script (fun _ h => h) hs
  have hid : (1 : UInt32) < s.buffer.readCount := hcount ▸ (by decide)
  have huntaken := (State.untaken_iff hr.once 1).mp ⟨d, hd, hlost.1.2, hlost.2⟩
  have hbalance := hr.balance hid
  have hle := (takenOf_le hr.once 1).1
  exact ⟨posted, s, hs, ⟨d, hd, hlost.1.1, hlost.1.2⟩, by omega⟩

theorem abandoned_run_relay :
    ∃ posted s, freshReadScript (awaited relayCode) (fun s => s.takesOnce) relayRun =
      some (posted, s) ∧ s.Untaken 1 ∧ s.places (drawn posted).length 1 = 0 := by
  obtain ⟨⟨posted, s⟩, hs, hc⟩ := (Option.any_eq_true _ _).mp relay_expires
  rw [Bool.and_eq_true, List.any_eq_true, beq_iff_eq] at hc
  obtain ⟨⟨d, hd, hlost⟩, hcount⟩ := hc
  simp only [Bool.and_eq_true, decide_eq_true_eq, beq_iff_eq] at hlost
  have huntaken : s.Untaken 1 := ⟨d, hd, hlost.1.2, hlost.2⟩
  have hid : (1 : UInt32) < s.buffer.readCount := hcount ▸ (by decide)
  exact ⟨posted, s, hs, huntaken,
    (abandoned_run (.of_script (fun _ h => h) hs) hid).2.1 (.inl huntaken)⟩

end Onlyio
