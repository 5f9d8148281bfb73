import Onlyio.Runs.FanResults
import Onlyio.Runs.RefCount
import Onlyio.Machine.Lone

/-!
# The end of a read stream

A multishot recv answers with a buffer for every positive result, with `0` and no buffer when the
peer has closed, and with a negative result on errors. `ReadFuture::poll` treats every result that
is not positive as the end. `ReadStream::poll_next` tests `result < 0` only, and asks the completion
of a closed connection for the buffer it does not have.

Each poll happens in a state of its own, of which only the context and the size of the pool are
given: whatever ran since the last poll.

* `Polling.pollNext_init`: the first poll submits.
* `pollEach_running`: the polls of the completions, one after another.
* **`read_stream_handles_iff`**: a stream handles a sequence of completions exactly when its first
  result that is not positive, if it has one, is negative, and no positive result comes after it.
-/

namespace Onlyio

open Lib

variable {σ : Type} {me : Caller} {fd n : UInt32} {s : State σ} {cqes : List TaskInfo}

/-- Poll a stream once in each of these states. -/
def pollEach (me : Caller) : List (State σ) → ReadStream →
    Except Fault (List (Poll (Option RwBuffer)) × ReadStream)
  | [], st => .ok ([], st)
  | s :: polls, st =>
    match st.pollNext me s with
    | .error e _ => .error e
    | .ok (r, st) _ =>
      match pollEach me polls st with
      | .error e => .error e
      | .ok (rs, st) => .ok (r :: rs, st)

/-- The completions of one multishot recv: a buffer of the pool comes with every positive result and
with no other, and all but the last announce that there will be more. -/
structure RecvCqes (n : UInt32) (cqes : List TaskInfo) : Prop where
  attached : ∀ c ∈ cqes, (bufferSelect c.flags).isSome = true ↔ 0 < c.result
  registered : ∀ c ∈ cqes, ∀ id, bufferSelect c.flags = some id → id.toUInt32 < n
  more : ∀ i c, cqes[i]? = some c → (more c.flags = true ↔ i + 1 < cqes.length)

/-- The buffer that a poll yields. -/
def Poll.item? : Poll (Option RwBuffer) → Option RwBuffer
  | .ready (some b) => some b
  | _ => none

/-- The polls handle the completions: each positive result is yielded by its own poll, from the
first other one on the stream is over, and every buffer of the sequence is owned by one item. -/
structure Handles (fd : UInt32) (cqes : List TaskInfo) (outs : List (Poll (Option RwBuffer))) :
    Prop where
  item : ∀ (i : Nat) (c : TaskInfo) (id : UInt16), cqes[i]? = some c → 0 < c.result →
    bufferSelect c.flags = some id →
      ∃ b, outs[i]? = some (.ready (some b)) ∧ b.bufIdx = id.toUInt32 ∧ b.fdIdx = fd ∧
        b.bytes = c.result.toUInt32
  ended : ∀ (i : Nat) (c : TaskInfo), cqes[i]? = some c → c.result ≤ 0 → ∀ j, i ≤ j →
    j < outs.length → outs[j]? = some (.ready none)
  owned : (outs.filterMap Poll.item?).map RwBuffer.bufIdx =
    cqes.filterMap fun c => (bufferSelect c.flags).map UInt16.toUInt32

/-- The first result that is not positive, if there is one, is negative, and no positive one
follows. -/
def EndsInError : List TaskInfo → Prop
  | [] => True
  | c :: cqes => if 0 < c.result then EndsInError cqes else c.result < 0 ∧ ∀ a ∈ cqes, a.result ≤ 0

instance decidableEndsInError : ∀ cqes, Decidable (EndsInError cqes)
  | [] => inferInstanceAs (Decidable True)
  | c :: cqes =>
    have := decidableEndsInError cqes
    inferInstanceAs (Decidable (if 0 < c.result then EndsInError cqes
      else c.result < 0 ∧ ∀ a ∈ cqes, a.result ≤ 0))

theorem RecvCqes.tail {c : TaskInfo} (h : RecvCqes n (c :: cqes)) : RecvCqes n cqes where
  attached a ha := h.attached a (List.mem_cons_of_mem c ha)
  registered a ha := h.registered a (List.mem_cons_of_mem c ha)
  more i a hi := by
    rw [h.more (i + 1) a hi, List.length_cons]
    omega

/-! ## One poll -/

/-- A multishot operation is submitted, when the task can take one more reference. -/
theorem State.Polling.sendMultishot_ok (hs : s.Polling)
    (hroom : ∀ p raw, s.tasks.index s.currentTask.tag.taskIdx = .ok p → s.heap[p]? = some raw →
      raw.refCounter.toNat + 1 < 2 ^ 16) (me : Caller) (op : SqeOp) :
    ∃ s', sendMultishot me op s = .ok () s' := by
  obtain ⟨p, raw, hidx, hraw, hlive⟩ := hs.task
  let s1 : State σ :=
    { s with currentTask.tag.syscallNb := setMultiple s.currentTask.tag.syscallNb }
  have hraw1 : s1.heap[p]? = some raw := hraw
  -- the task after `set_multishot`, which `inc_rc` meets
  let s2 := s1.modifyRaw p fun r => { r with syscallNb := setMultiple raw.syscallNb }
  have hraw2 : s2.heap[p]? = some { raw with syscallNb := setMultiple raw.syscallNb } := by
    simp [s2, s1, State.modifyRaw, hraw]
  have hinc : ∀ Q : Unit → State σ → Prop, (∀ s', Q () s') → Total (incRc p) Q s2 := by
    intro Q hQ
    have hfit : raw.refCounter.toNat + (1 : UInt16).toNat < 2 ^ 16 := hroom p raw hidx hraw
    have hok := bumpRc_eq Panic.incRcOverflow Panic.incRcMask 1 hraw2 hlive
    rw [if_pos hfit, if_neg (by decide)] at hok
    unfold Total wp incRc
    rw [hok]
    exact hQ _
  have hsend : Total (sendMultishot me op) (fun _ _ => True) s := by
    simp only [sendMultishot, wp_bind, setCurrentTaskMultiple, wp_modify, currentUdata,
      wp_get, wp_pure, tasksIndex]
    rw [hidx]
    simp only [liftExcept, wp_pure, setMultishot, wp_bind]
    refine (wp_deref hraw1 hlive _ _).mpr ?_
    rw [wp_writeRaw]
    show wp (liftExcept (s.tasks.index s.currentTask.tag.taskIdx)) _ _ s2
    rw [hidx]
    refine hinc _ fun s3 => ?_
    simp only [pushPending, logEvent, wp_bind, wp_get, wp_writeRaw, wp_modify]
  obtain ⟨_, s', hok, -⟩ := hsend.ok
  exact ⟨s', hok⟩

/-- The first poll submits. -/
theorem State.Polling.pollNext_init (hs : s.Polling)
    (hroom : ∀ p raw, s.tasks.index s.currentTask.tag.taskIdx = .ok p → s.heap[p]? = some raw →
      raw.refCounter.toNat + 1 < 2 ^ 16) (me : Caller) (fd : UInt32) :
    ∃ s', ReadStream.pollNext me ⟨fd, .init⟩ s = .ok (.pending, ⟨fd, .running⟩) s' := by
  obtain ⟨s', hok⟩ := hs.sendMultishot_ok hroom me (.recvMulti fd)
  refine ⟨s', ?_⟩
  simp only [ReadStream.pollNext, sendRecvMultishot, bind, EStateM.bind, hok, pure, EStateM.pure]

/-- The buffer `id`, as `checkout_read` hands it out. -/
def checkedOut (s : State σ) (fd : UInt32) (id : UInt16) : RwBuffer :=
  ⟨s.buffer.base + id.toUInt32.toNat * BufPool.bufSize 1, id.toUInt32, fd,
    s.currentTask.result.toUInt32, false⟩

/-- A completion with a buffer. -/
theorem pollNext_item (me : Caller) (fd : UInt32) {id : UInt16} (hneg : ¬ s.currentTask.result < 0)
    (hid : bufferSelect s.currentTask.flags = some id) (hlt : id.toUInt32 < s.buffer.readCount) :
    ReadStream.pollNext me ⟨fd, .running⟩ s =
      .ok (.ready (some (checkedOut s fd id)),
      ⟨fd, if more s.currentTask.flags then .running else .done⟩) s := by
  simp only [ReadStream.pollNext, currentResult, currentCqeFlags, bind, EStateM.bind, get_run, pure,
    EStateM.pure, if_neg hneg, hid, BufPool.checkoutRead, if_pos hlt, liftExcept]
  split <;> rfl

/-- A completion that reports an error. -/
theorem pollNext_error (hneg : s.currentTask.result < 0) :
    ReadStream.pollNext me ⟨fd, .running⟩ s = .ok (.ready none, ⟨fd, .done⟩) s := by
  simp only [ReadStream.pollNext, currentResult, currentCqeFlags, bind, EStateM.bind, get_run, pure,
    EStateM.pure, if_pos hneg]

/-- The completion of a closed connection. -/
theorem pollNext_closed (hneg : ¬ s.currentTask.result < 0)
    (hid : bufferSelect s.currentTask.flags = none) :
    ReadStream.pollNext me ⟨fd, .running⟩ s = .error (.panic .recvNoBufId) s := by
  simp only [ReadStream.pollNext, currentResult, currentCqeFlags, bind, EStateM.bind, get_run, pure,
    EStateM.pure, if_neg hneg, hid]
  rfl

/-- A stream that is over stays over. -/
theorem pollEach_done (polls : List (State σ)) :
    pollEach me polls ⟨fd, .done⟩ =
    .ok (List.replicate polls.length (.ready none), ⟨fd, .done⟩) := by
  induction polls with
  | nil => rfl
  | cons s polls ih =>
    have hpoll : ReadStream.pollNext me ⟨fd, .done⟩ s = .ok (.ready none, ⟨fd, .done⟩) s := rfl
    simp only [pollEach, hpoll, ih]
    rfl

/-! ## Whole sequences -/

theorem filterMap_none (k : Nat) :
    (List.replicate k (Poll.ready (none : Option RwBuffer))).filterMap Poll.item? = [] := by
  rw [List.filterMap_eq_nil_iff]
  intro o ho
  rw [List.eq_of_mem_replicate ho]
  rfl

theorem handles_nil (k : Nat) : Handles fd [] (List.replicate k (.ready none)) where
  item _ _ _ h := nomatch h
  ended _ _ h := nomatch h
  owned := by rw [filterMap_none]; rfl

/-- A completion with a buffer, in front of the others. -/
theorem handles_item_iff {c : TaskInfo} {id : UInt16} {b : RwBuffer}
    {outs : List (Poll (Option RwBuffer))} (hpos : 0 < c.result)
    (hid : bufferSelect c.flags = some id) (hidx : b.bufIdx = id.toUInt32) (hfd : b.fdIdx = fd)
    (hbytes : b.bytes = c.result.toUInt32) : Handles fd (c :: cqes) (.ready (some b) :: outs) ↔
    Handles fd cqes outs := by
  constructor
  · intro h
    refine ⟨fun i a ia hi => h.item (i + 1) a ia hi, fun i a hi hle j hij hj => ?_, ?_⟩
    · exact h.ended (i + 1) a hi hle (j + 1) (by omega) (by simpa using hj)
    · have howned := h.owned
      simp only [List.filterMap_cons, Poll.item?, hid, Option.map_some, List.map_cons] at howned
      exact (List.cons.inj howned).2
  · intro h
    refine ⟨fun i a ia hi hpos' hia => ?_, fun i a hi hle j hij hj => ?_, ?_⟩
    · cases i with
      | zero =>
        obtain rfl := Option.some.inj hi
        obtain rfl := Option.some.inj (hid.symm.trans hia)
        exact ⟨b, rfl, hidx, hfd, hbytes⟩
      | succ i => exact h.item i a ia hi hpos' hia
    · cases i with
      | zero =>
        obtain rfl := Option.some.inj hi
        exact absurd hpos (Int32.not_lt.mpr hle)
      | succ i =>
        obtain ⟨j, rfl⟩ : ∃ k, j = k + 1 := ⟨j - 1, by omega⟩
        exact h.ended i a hi hle j (by omega) (by simpa using hj)
    · simp only [List.filterMap_cons, Poll.item?, hid, Option.map_some,
        List.map_cons, h.owned, hidx]

/-- An error, and what comes after it. -/
theorem handles_error_iff (fd : UInt32) {c : TaskInfo} {k : Nat} (hcqes : RecvCqes n (c :: cqes))
    (hneg : c.result < 0) (hk : cqes.length ≤ k) :
    Handles fd (c :: cqes) (.ready none :: List.replicate k (.ready none)) ↔
    ∀ a ∈ cqes, a.result ≤ 0 := by
  have hsome : ∀ a ∈ c :: cqes, a.result ≤ 0 → bufferSelect a.flags = none := by
    intro a ha hle
    rw [← Option.not_isSome_iff_eq_none, hcqes.attached a ha]
    exact Int32.not_lt.mpr hle
  constructor
  · intro h a ha
    by_contra hpos
    rw [Int32.not_le] at hpos
    obtain ⟨id, hid⟩ := Option.isSome_iff_exists.mp
      ((hcqes.attached a (List.mem_cons_of_mem c ha)).mpr hpos)
    obtain ⟨i, hi⟩ := List.mem_iff_getElem?.mp ha
    have hlt := (List.getElem?_eq_some_iff.mp hi).1
    -- its poll yields nothing
    obtain ⟨b, hb, -⟩ := h.item (i + 1) a id hi hpos hid
    rw [List.getElem?_cons_succ, List.getElem?_replicate_of_lt (by omega)] at hb
    cases hb
  · intro h
    have hall : ∀ a ∈ c :: cqes, a.result ≤ 0 := fun a ha => by
      rcases List.mem_cons.mp ha with rfl | ha
      · exact Int32.le_of_lt hneg
      · exact h a ha
    rw [← List.replicate_succ]
    refine ⟨fun i a id hi hpos => ?_, fun _ _ _ _ j _ hj => ?_, ?_⟩
    · exact absurd hpos (Int32.not_lt.mpr (hall a (List.mem_of_getElem? hi)))
    · rw [List.length_replicate] at hj
      exact List.getElem?_replicate_of_lt hj
    · have hnone : (c :: cqes).filterMap
          (fun c => (bufferSelect c.flags).map UInt16.toUInt32) = [] :=
        List.filterMap_eq_nil_iff.mpr fun a ha => by rw [hsome a ha (hall a ha)]; rfl
      rw [filterMap_none, hnone]
      rfl

/-- The polls of the completions, and any later ones. -/
theorem pollEach_running {polls later : List (State σ)}
    (hcqes : RecvCqes n (polls.map State.currentTask)) (hpool : ∀ s ∈ polls, s.buffer.readCount = n)
    (hlater : polls ≠ [] ∨ later = []) :
    (∃ outs st, pollEach me (polls ++ later) ⟨fd, .running⟩ = .ok (outs, st) ∧
      Handles fd (polls.map State.currentTask) outs) ↔
      EndsInError (polls.map State.currentTask) := by
  induction polls with
  | nil =>
    obtain rfl : later = [] := hlater.resolve_left fun h => h rfl
    exact ⟨fun _ => trivial, fun _ => ⟨[], _, rfl, handles_nil 0⟩⟩
  | cons s polls ih =>
    have hmem : s.currentTask ∈ (s :: polls).map State.currentTask :=
      List.mem_map_of_mem List.mem_cons_self
    rw [List.map_cons] at hcqes hmem ⊢
    by_cases hpos : 0 < s.currentTask.result
    · obtain ⟨id, hid⟩ := Option.isSome_iff_exists.mp ((hcqes.attached _ hmem).mpr hpos)
      have hlt := hcqes.registered _ hmem id hid
      rw [← hpool s List.mem_cons_self] at hlt
      have hpoll := pollNext_item me fd (fun h => Int32.lt_asymm hpos h) hid hlt
      have hhead : ∀ {cqes : List TaskInfo} {outs : List (Poll (Option RwBuffer))},
          Handles fd (s.currentTask :: cqes) (.ready (some (checkedOut s fd id)) :: outs) ↔
          Handles fd cqes outs :=
        handles_item_iff hpos hid rfl rfl rfl
      simp only [EndsInError, if_pos hpos]
      cases polls with
      | nil =>
        -- the last completion ends the stream
        have hlast : more s.currentTask.flags = false := by
          rw [← Bool.not_eq_true, hcqes.more 0 _ rfl]
          exact Nat.lt_irrefl 1
        refine ⟨fun _ => trivial,
          fun _ => ⟨.ready (some (checkedOut s fd id)) :: List.replicate later.length (.ready none),
          ⟨fd, .done⟩, ?_, hhead.mpr (handles_nil _)⟩⟩
        simp only [List.cons_append, List.nil_append, pollEach, hpoll, hlast,
          Bool.false_eq_true, if_false, pollEach_done]
      | cons s' polls =>
        have hmore : more s.currentTask.flags = true := (hcqes.more 0 _ rfl).mpr (by simp)
        rw [← ih hcqes.tail (fun t ht => hpool t (List.mem_cons_of_mem s ht))
          (.inl (List.cons_ne_nil _ _))]
        simp only [hmore, if_true] at hpoll
        rw [List.cons_append, pollEach, hpoll]
        constructor
        · rintro ⟨outs, st, hok, hh⟩
          simp only at hok
          split at hok
          · cases hok
          · rename_i rs st' hrest
            obtain ⟨rfl, rfl⟩ := Prod.mk.inj (Except.ok.inj hok)
            exact ⟨rs, st', hrest, hhead.mp hh⟩
        · rintro ⟨outs, st, hrest, hh⟩
          refine ⟨.ready (some (checkedOut s fd id)) :: outs, st, ?_, hhead.mpr hh⟩
          simp only [hrest]
    · simp only [EndsInError, if_neg hpos]
      by_cases hneg : s.currentTask.result < 0
      · have hrun : pollEach me (s :: polls ++ later) ⟨fd, .running⟩ =
            .ok (.ready none :: List.replicate (polls ++ later).length (.ready none),
            ⟨fd, .done⟩) := by
          simp only [List.cons_append, pollEach, pollNext_error hneg, pollEach_done]
        have hiff := handles_error_iff fd (k := (polls ++ later).length) hcqes hneg (by simp)
        rw [hrun, ← hiff]
        constructor
        · rintro ⟨outs, st, hok, hh⟩
          obtain ⟨rfl, rfl⟩ := Prod.mk.inj (Except.ok.inj hok)
          exact ⟨hneg, hh⟩
        · rintro ⟨-, hh⟩
          exact ⟨_, _, rfl, hh⟩
      · have hnone : bufferSelect s.currentTask.flags = none := by
          rw [← Option.not_isSome_iff_eq_none, hcqes.attached _ hmem]
          exact hpos
        constructor
        · rintro ⟨outs, st, hok, -⟩
          simp only [List.cons_append, pollEach, pollNext_closed hneg hnone] at hok
          cases hok
        · exact fun h => absurd h.1 hneg

/-- **The completions a read stream handles.** The first poll submits. Whatever states the polls of
the completions happen in, the stream then handles the sequence, without a panic, if and only if the
first result that is not positive is negative and no positive one follows it. -/
theorem read_stream_handles_iff {s0 : State σ} (hs : s0.Polling)
    (hroom : ∀ p raw, s0.tasks.index s0.currentTask.tag.taskIdx = .ok p → s0.heap[p]? = some raw →
      raw.refCounter.toNat + 1 < 2 ^ 16)
    {polls later : List (State σ)} (hcqes : RecvCqes n (polls.map State.currentTask))
    (hpool : ∀ s ∈ polls, s.buffer.readCount = n) (hlater : polls ≠ [] ∨ later = []) :
    ∃ st s1, ReadStream.pollNext me ⟨fd, .init⟩ s0 = .ok (.pending, st) s1 ∧
      ((∃ outs st', pollEach me (polls ++ later) st = .ok (outs, st') ∧
        Handles fd (polls.map State.currentTask) outs) ↔
        EndsInError (polls.map State.currentTask)) := by
  obtain ⟨s1, h1⟩ := hs.pollNext_init hroom me fd
  exact ⟨_, s1, h1, pollEach_running hcqes hpool hlater⟩

/-! ## Two connections -/

/-- The thread after the first of two accepts. -/
def accepted : Option (State (Await.Point Nat)) :=
  freshScript (awaited acceptTwice) (fun _ _ => true)
    [.spawn 9 (.run 0), .submit, .consume, .complete 0 7 0, .handle 9]

/-- The completion of a recv has arrived. -/
def State.received (s : State σ) (result : Int32) (flags : UInt32) : State σ :=
  { s with currentTask.result := result, currentTask.flags := flags }

/-- What the examples need of the state: a task is polled, has room for a reference, and the pool
has its 512 read slots. -/
def State.streamable (s : State σ) : Bool :=
  s.buffer.readCount == 512 && match s.tasks.index s.currentTask.tag.taskIdx with
    | .ok p => s.heap[p]?.any fun raw => !raw.freed && raw.refCounter.toNat + 1 < 2 ^ 16
    | .error _ => false

theorem State.streamable_spec (h : s.streamable = true) : s.Polling ∧ s.buffer.readCount = 512 ∧
    ∀ p raw, s.tasks.index s.currentTask.tag.taskIdx = .ok p → s.heap[p]? = some raw →
      raw.refCounter.toNat + 1 < 2 ^ 16 := by
  unfold State.streamable at h
  rw [Bool.and_eq_true, beq_iff_eq] at h
  obtain ⟨hcount, h⟩ := h
  split at h
  · rename_i p hidx
    obtain ⟨raw, hraw, hok⟩ := (Option.any_eq_true _ _).mp h
    rw [Bool.and_eq_true, decide_eq_true_eq] at hok
    refine ⟨⟨p, raw, hidx, hraw, by simpa using hok.1⟩, hcount, fun p' raw' hidx' hraw' => ?_⟩
    obtain rfl := Except.ok.inj (hidx.symm.trans hidx')
    obtain rfl := Option.some.inj (hraw.symm.trans hraw')
    exact hok.2
  · cases h

theorem exists_accepted : ∃ s, accepted = some s ∧ s.Polling ∧ s.buffer.readCount = 512 ∧
    ∀ p raw, s.tasks.index s.currentTask.tag.taskIdx = .ok p → s.heap[p]? = some raw →
      raw.refCounter.toNat + 1 < 2 ^ 16 := by
  have hany : accepted.any State.streamable = true := by decide +kernel
  obtain ⟨s, hs, hok⟩ := (Option.any_eq_true _ _).mp hany
  exact ⟨s, hs, State.streamable_spec hok⟩

/-- The completions of `cqes` in the state `s`. -/
theorem recvCqes_received (s : State σ) (cqes : List (Int32 × UInt32))
    (hattached : ∀ c ∈ cqes, (bufferSelect c.2).isSome = true ↔ 0 < c.1)
    (hregistered : ∀ c ∈ cqes, ∀ id, bufferSelect c.2 = some id → id.toUInt32 < n)
    (hmore : ∀ i c, cqes[i]? = some c → (more c.2 = true ↔ i + 1 < cqes.length)) :
    RecvCqes n ((cqes.map fun c => s.received c.1 c.2).map State.currentTask) := by
  rw [List.map_map]
  refine ⟨fun c hc => ?_, fun c hc => ?_, fun i c hi => ?_⟩
  · obtain ⟨a, ha, rfl⟩ := List.mem_map.mp hc
    exact hattached a ha
  · obtain ⟨a, ha, rfl⟩ := List.mem_map.mp hc
    exact hregistered a ha
  · rw [List.getElem?_map] at hi
    obtain ⟨a, ha, rfl⟩ := Option.map_eq_some_iff.mp hi
    rw [List.length_map]
    exact hmore i a ha

/-- The peer closes: the completion with result `0` and no buffer makes the stream panic. -/
theorem closed_stream_panics :
    ∃ s st s1, accepted = some s ∧
      ReadStream.pollNext ⟨0, 0⟩ ⟨5, .init⟩ s = .ok (.pending, st) s1 ∧
      RecvCqes 512 [(s.received 0 0).currentTask] ∧
      pollEach ⟨0, 0⟩ [s.received 0 0] st = .error (.panic .recvNoBufId) := by
  obtain ⟨s, hs, hpolling, -, hroom⟩ := exists_accepted
  obtain ⟨s1, h1⟩ := hpolling.pollNext_init hroom ⟨0, 0⟩ 5
  refine ⟨s, _, s1, hs, h1, recvCqes_received s [(0, 0)] (List.forall_mem_singleton.mpr (by decide))
    (List.forall_mem_singleton.mpr fun id h => by cases h) ?_, ?_⟩
  · intro i c hi
    cases i with
    | zero =>
      obtain rfl := Option.some.inj hi
      decide
    | succ i => cases hi
  · simp only [pollEach, pollNext_closed (s := s.received 0 0) (show ¬ (0 : Int32) < 0 by decide)
      (show bufferSelect 0 = none from rfl)]

/-- Four bytes in buffer `3`, then a reset: one item, then the end. -/
theorem read_stream_handles_reset :
    ∃ s st s1, accepted = some s ∧
      ReadStream.pollNext ⟨0, 0⟩ ⟨5, .init⟩ s = .ok (.pending, st) s1 ∧
      ∃ outs st', pollEach ⟨0, 0⟩ ([s.received 4 0x30003, s.received (-104) 0] ++ [s]) st =
      .ok (outs, st') ∧
        Handles 5 [(s.received 4 0x30003).currentTask, (s.received (-104) 0).currentTask] outs := by
  obtain ⟨s, hs, hpolling, hcount, hroom⟩ := exists_accepted
  have hcqes : RecvCqes 512
      ([s.received 4 0x30003, s.received (-104) 0].map State.currentTask) := by
    refine recvCqes_received s [(4, 0x30003), (-104, 0)]
      (List.forall_mem_cons.mpr ⟨by decide, List.forall_mem_singleton.mpr (by decide)⟩)
      (List.forall_mem_cons.mpr
        ⟨fun id h => ?_, List.forall_mem_singleton.mpr fun id h => by cases h⟩) ?_
    · obtain rfl := Option.some.inj h
      decide
    intro i c hi
    match i with
    | 0 =>
      obtain rfl := Option.some.inj hi
      decide
    | 1 =>
      obtain rfl := Option.some.inj hi
      decide
    | i + 2 => cases hi
  obtain ⟨st, s1, h1, hiff⟩ := @read_stream_handles_iff _ ⟨0, 0⟩ 5 512 s hpolling hroom _ [s] hcqes
    (by simp [State.received, hcount]) (.inl (by simp))
  refine ⟨s, st, s1, hs, h1, hiff.mpr ?_⟩
  simp only [List.map_cons, List.map_nil, EndsInError, State.received]
  rw [if_pos (by decide), if_neg (by decide)]
  exact ⟨by decide, fun a ha => nomatch ha⟩

end Onlyio
