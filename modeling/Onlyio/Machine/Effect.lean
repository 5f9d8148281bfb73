import Onlyio.Machine.Step

/-!
# What a poll can do to the scheduler's state

Whatever a block does while it runs, the rest of the machine sees little of it: references to its
own task are added, SQEs of its own are queued, its own log grows, and the current task keeps its
index. `Effect` says this once, for every library value, and the invariants are derived from it.

* `Effect.trans`: effects compose.
* `Polled.effect`: **every poll of a value is an effect**, with as many references as SQEs.
-/

namespace Onlyio

/-- Events of a block that runs: polls of its values, and submissions. -/
def Event.inner : Event → Bool
  | .call .. => true
  | .submit .. => true
  | _ => false

/-- `p` gains `k` references, queues `new` and logs `evs`. -/
structure Effect (p : TaskPtr) (c c' : Core) (k : Nat) (new : List Sqe) (evs : List Event) :
    Prop where
  others : ∀ q, q ≠ p → c'.cell q = c.cell q
  slabIdx : (c'.cell p).slabIdx = (c.cell p).slabIdx
  freed : (c'.cell p).freed = (c.cell p).freed
  refCounter : (c'.cell p).refCounter = (c.cell p).refCounter + k
  log : (c'.cell p).log = (c.cell p).log ++ evs
  slots : c'.slots = c.slots
  spawned : c'.spawned = c.spawned
  sq : c'.sq = c.sq
  inflight : c'.inflight = c.inflight
  cq : c'.cq = c.cq
  freeList : c'.freeList = c.freeList
  pending : c'.pending = c.pending ++ new
  nextSqe : c'.nextSqe = c.nextSqe + new.length
  ids : new.map Sqe.id = List.range' c.nextSqe new.length
  idx : c'.current.tag.taskIdx = c.current.tag.taskIdx
  mine : ∀ q ∈ new, q.caller.task = p ∧ q.payload.taskIdx = c.current.tag.taskIdx
  inner : ∀ e ∈ evs, e.inner = true

/-- One reference for each SQE; a fan-out that truncates its count still adds some. -/
def Balanced (k : Nat) (new : List Sqe) : Prop :=
  (∀ q ∈ new, q.oversize = false) ∧ k = new.length ∨
    (∀ q ∈ new, q.oversize = true) ∧ 65535 < new.length ∧ 0 < k

namespace Core

@[simp] theorem modifyCell_self (c : Core) (p : TaskPtr) (f : Cell → Cell) :
    (c.modifyCell p f).cell p = f (c.cell p) := Function.update_self ..

theorem modifyCell_ne (c : Core) {p q : TaskPtr} (f : Cell → Cell) (h : q ≠ p) :
    (c.modifyCell p f).cell q = c.cell q := Function.update_of_ne h ..

@[simp] theorem stored_bump (c : Core) (p : TaskPtr) (k : Nat) :
    (c.bump p k).stored p = c.stored p := by simp [bump, stored]

@[simp] theorem stored_mapNb (c : Core) (p : TaskPtr) (f : UInt16 → UInt16) :
    (c.mapNb p f).stored p = f (c.stored p) := by simp [mapNb, stored]

@[simp] theorem stored_logAt (c : Core) (p : TaskPtr) (e : Event) :
    (c.logAt p e).stored p = c.stored p := by simp [logAt, stored]

@[simp] theorem rivals_bump (c : Core) (p q : TaskPtr) (k : Nat) (nb : UInt16) :
    (c.bump p k).rivals q nb = c.rivals q nb := rfl

@[simp] theorem rivals_mapNb (c : Core) (p q : TaskPtr) (f : UInt16 → UInt16) (nb : UInt16) :
    (c.mapNb p f).rivals q nb = c.rivals q nb := rfl

theorem payload_nextEntry (c : Core) (me : Caller) (op : SqeOp) (payload : UserDataPayload)
    (oversize : Bool) : (c.nextEntry me op payload.intoUserData oversize).payload = payload :=
  UserDataPayload.fromUserData_intoUserData payload

end Core

namespace Effect

variable {p : TaskPtr} {c c1 c2 : Core} {k k1 k2 : Nat} {n1 n2 : List Sqe} {e1 e2 : List Event}

theorem refl (p : TaskPtr) (c : Core) : Effect p c c 0 [] [] := by
  constructor <;> simp

theorem trans (h1 : Effect p c c1 k1 n1 e1) (h2 : Effect p c1 c2 k2 n2 e2) :
    Effect p c c2 (k1 + k2) (n1 ++ n2) (e1 ++ e2) where
  others q hq := by rw [h2.others q hq, h1.others q hq]
  slabIdx := by rw [h2.slabIdx, h1.slabIdx]
  freed := by rw [h2.freed, h1.freed]
  refCounter := by rw [h2.refCounter, h1.refCounter, Nat.add_assoc]
  log := by rw [h2.log, h1.log, List.append_assoc]
  slots := by rw [h2.slots, h1.slots]
  spawned := by rw [h2.spawned, h1.spawned]
  sq := by rw [h2.sq, h1.sq]
  inflight := by rw [h2.inflight, h1.inflight]
  cq := by rw [h2.cq, h1.cq]
  freeList := by rw [h2.freeList, h1.freeList]
  pending := by rw [h2.pending, h1.pending, List.append_assoc]
  nextSqe := by rw [h2.nextSqe, h1.nextSqe, List.length_append, Nat.add_assoc]
  ids := by
    rw [List.map_append, h1.ids, h2.ids, h1.nextSqe, List.length_append, List.range'_append_1]
  idx := by rw [h2.idx, h1.idx]
  mine q hq := by
    rcases List.mem_append.mp hq with hq | hq
    · exact h1.mine q hq
    · rw [← h1.idx]
      exact h2.mine q hq
  inner e he := by
    rcases List.mem_append.mp he with he | he
    · exact h1.inner e he
    · exact h2.inner e he

theorem bump (c : Core) (p : TaskPtr) (k : Nat) : Effect p c (c.bump p k) k [] [] := by
  constructor <;> simp +contextual [Core.bump, Core.modifyCell, Function.update_of_ne]

theorem mapNb (c : Core) (p : TaskPtr) (f : UInt16 → UInt16) :
    Effect p c (c.mapNb p f) 0 [] [] := by
  constructor <;> simp +contextual [Core.mapNb, Core.modifyCell, Function.update_of_ne]

theorem logAt (c : Core) (p : TaskPtr) {e : Event} (he : e.inner = true) :
    Effect p c (c.logAt p e) 0 [] [e] := by
  constructor <;> simp +contextual [Core.logAt, Core.modifyCell, Function.update_of_ne, he]

theorem setMultipleCurrent (c : Core) (p : TaskPtr) :
    Effect p c c.setMultipleCurrent 0 [] [] := by
  constructor <;> simp [Core.setMultipleCurrent]

theorem setToNextTask (c : Core) (p : TaskPtr) :
    Effect p c { c with current := c.current.setToNextTask } 0 [] [] := by
  constructor <;> simp [TaskInfo.setToNextTask]

/-- Queuing one SQE whose payload names the current task. -/
theorem push (c : Core) (me : Caller) (op : SqeOp) (payload : UserDataPayload) (oversize : Bool)
    (hidx : payload.taskIdx = c.current.tag.taskIdx) :
    Effect me.task c (c.push me op payload.intoUserData oversize) 0
      [c.nextEntry me op payload.intoUserData oversize]
      [.submit (c.nextEntry me op payload.intoUserData oversize)
        (c.rivals me.task
          (c.nextEntry me op payload.intoUserData oversize).payload.syscallNb)] := by
  constructor <;> simp +contextual [Core.push, Core.logAt, Core.modifyCell, Function.update_of_ne,
    Core.nextEntry, Sqe.payload, hidx, Event.inner]

/-- A single-shot submission. -/
theorem sendOne (c : Core) (me : Caller) (op : SqeOp) :
    Effect me.task c (c.sendOne me op) 1
      [c.nextEntry me op c.current.payload.intoUserData false]
      [.submit (c.nextEntry me op c.current.payload.intoUserData false)
        (c.rivals me.task c.current.tag.syscallNb)] := by
  have h := (bump c me.task 1).trans (push (c.bump me.task 1) me op c.current.payload false rfl)
  rw [Core.payload_nextEntry, Core.rivals_bump] at h
  exact h

/-- A multishot submission. -/
theorem sendMultishot (c : Core) (me : Caller) (op : SqeOp) :
    Effect me.task c (c.sendMultishot me op) 1
      [c.nextEntry me op c.setMultipleCurrent.current.payload.intoUserData false]
      [.submit (c.nextEntry me op c.setMultipleCurrent.current.payload.intoUserData false)
        (c.rivals me.task (setMultiple c.current.tag.syscallNb))] := by
  have h := ((setMultipleCurrent c me.task).trans
    ((mapNb c.setMultipleCurrent me.task setMultiple).trans
      (bump (c.setMultipleCurrent.mapNb me.task setMultiple) me.task 1))).trans
    (push _ me op c.setMultipleCurrent.current.payload false rfl)
  rw [Core.payload_nextEntry, Core.rivals_bump, Core.rivals_mapNb] at h
  exact h

/-- The submission of a commit. -/
theorem sendCommit (c : Core) (me : Caller) (op : SqeOp) :
    Effect me.task c (c.sendCommit me op) 1
      [c.nextEntry me op c.setMultipleCurrent.current.payload.intoUserData false]
      [.submit (c.nextEntry me op c.setMultipleCurrent.current.payload.intoUserData false)
        (c.rivals me.task (setMultiple c.current.tag.syscallNb))] :=
  (setMultipleCurrent c me.task).trans (sendOne c.setMultipleCurrent me op)

/-- The entries of a fan-out. -/
structure Batch (me : Caller) (payload : UserDataPayload) (oversize : Bool) (q : Sqe) : Prop where
  caller : q.caller = me
  oversize : q.oversize = oversize
  taskIdx : q.payload.taskIdx = payload.taskIdx
  syscallNb : q.payload.syscallNb = payload.syscallNb
  single : q.op.isMultishot = false
  plain : q.op.selects = false

theorem pushAll (me : Caller) (payload : UserDataPayload) (ptr : Nat) (bufIndex : UInt16)
    (len : UInt32) (oversize : Bool) (fds : List UInt32) :
    ∀ {c : Core} {i : Nat}, payload.taskIdx = c.current.tag.taskIdx →
      ∃ new evs, new.map (fun q => q.payload.responseGen) =
          (List.range' i fds.length).map UInt16.ofNat ∧
        new.map Sqe.op = fds.map (fun fd => .writeFixed fd ptr len bufIndex) ∧
        (∀ q ∈ new, Batch me payload oversize q) ∧ (∀ e ∈ evs, ∃ q n, e = .submit q n ∧ q ∈ new) ∧
        (c.pushAll me payload ptr bufIndex len oversize fds i).current = c.current ∧
        (c.pushAll me payload ptr bufIndex len oversize fds i).stored me.task = c.stored me.task ∧
        Effect me.task c (c.pushAll me payload ptr bufIndex len oversize fds i) 0 new evs := by
  induction fds with
  | nil => exact fun _ => ⟨[], [], rfl, rfl, by simp, by simp, rfl, rfl, refl _ _⟩
  | cons fd fds ih =>
    intro c i hidx
    have h1 := push c me (.writeFixed fd ptr len bufIndex)
      { payload with responseGen := UInt16.ofNat i } oversize hidx
    obtain ⟨new, evs, hgen, hops, hbatch, hev, hcur, hst, h2⟩ :=
      ih (i := i + 1) (hidx.trans h1.idx.symm)
    refine ⟨_ :: new, _ :: evs, ?_, ?_, fun q hq => ?_, fun e he => ?_, hcur,
      hst.trans ?_, h1.trans h2⟩
    · rw [List.map_cons, hgen, List.length_cons, List.range'_succ, List.map_cons,
        Core.payload_nextEntry]
    · rw [List.map_cons, hops, List.map_cons]
      rfl
    · rcases List.mem_cons.mp hq with rfl | hq
      · exact ⟨rfl, rfl, by simp [Sqe.payload, Core.nextEntry], by
          simp [Sqe.payload, Core.nextEntry], rfl, rfl⟩
      · exact hbatch q hq
    · rcases List.mem_cons.mp he with rfl | he
      · exact ⟨_, _, rfl, List.mem_cons_self⟩
      · obtain ⟨q, n, heq, hq⟩ := hev e he
        exact ⟨q, n, heq, List.mem_cons_of_mem _ hq⟩
    · simp [Core.push, Core.logAt, Core.modifyCell, Core.stored]

/-- A fan-out: every entry carries the current number. -/
theorem fanOut (c : Core) (me : Caller) (b : WBuffer) (len : UInt32) (fds : List UInt32) :
    ∃ new evs, new.map (fun q => q.payload.responseGen) =
        (List.range fds.length).map UInt16.ofNat ∧
      new.map Sqe.op = fds.map (fun fd => .writeFixed fd b.ptr len b.index) ∧
      (∀ q ∈ new, Batch me c.current.payload (65535 < fds.length) q) ∧
      (∀ e ∈ evs, ∃ q n, e = .submit q n ∧ q ∈ new) ∧
      (c.fanOut me b len fds).current = c.current ∧
      (c.fanOut me b len fds).stored me.task = c.stored me.task ∧
      Effect me.task c (c.fanOut me b len fds) (fds.length % 2 ^ 16) new evs := by
  obtain ⟨new, evs, hgen, hops, hbatch, hev, hcur, hst, h⟩ :=
    pushAll me c.current.payload b.ptr b.index len (65535 < fds.length) fds (c := c) (i := 0) rfl
  have h2 := h.trans (bump _ me.task (fds.length % 2 ^ 16))
  rw [Nat.zero_add, List.append_nil, List.append_nil] at h2
  refine ⟨new, evs, by rw [hgen, List.range_eq_range'], hops, hbatch, hev, hcur, ?_, h2⟩
  rw [← hst]
  exact Core.stored_bump _ _ _

theorem advance (c : Core) (p : TaskPtr) : Effect p c (c.advance p) 0 [] [] :=
  (mapNb c p taskAugmente).trans (setToNextTask _ p)

end Effect

theorem balanced_nil : Balanced 0 [] := .inl ⟨by simp, rfl⟩

theorem balanced_one {q : Sqe} (h : q.oversize = false) : Balanced 1 [q] :=
  .inl ⟨by simpa using h, rfl⟩

/-- **Every poll of a value is an effect on its task**, with one reference for each SQE. -/
theorem Polled.effect {me : Caller} {c c' : Core} {v v' : Value} {out : Out}
    (h : Polled me c v out v' c') :
    ∃ k new evs, Balanced k new ∧ Effect me.task c c' k new evs := by
  cases h with
  | send h => exact ⟨1, _, _, balanced_one rfl, .sendOne c me _⟩
  | opens h => exact ⟨1, _, _, balanced_one rfl, .sendMultishot c me _⟩
  | commit h => exact ⟨1, _, _, balanced_one rfl, .sendCommit c me _⟩
  | fanOut fds b len hne =>
    obtain ⟨new, evs, hgen, -, hbatch, -, -, -, he⟩ := Effect.fanOut c me b len fds
    have hlen : new.length = fds.length := by simpa using congrArg List.length hgen
    refine ⟨_, new, evs, ?_, he⟩
    by_cases hover : 65535 < fds.length
    · exact .inr ⟨fun q hq => by simp [(hbatch q hq).oversize, hover], by omega, by omega⟩
    · exact .inl ⟨fun q hq => by simp [(hbatch q hq).oversize, hover], by omega⟩
  | fanOne => exact ⟨0, [], [], balanced_nil, .refl _ _⟩
  | fanLast => exact ⟨0, [], [], balanced_nil, .advance c me.task⟩
  | resolve => exact ⟨0, [], [], balanced_nil, .refl _ _⟩

end Onlyio
