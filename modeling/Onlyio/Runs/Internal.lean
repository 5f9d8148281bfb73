import Onlyio.Machine.Release
import Onlyio.Model.Await

/-!
# Completions of `WBuffer::submit`

`wbuf_write_udata` marks the `user_data` of a write that belongs to no task with bit 63, and the
comment above it says that the runtime dispatches on that bit first. Bit 63 is also the top bit of
`syscall_nb`, and `handle_cqe_entry` does not look at it: to the dispatcher such a write is an SQE
of the task in slot `abs_idx` with the number `MULTIPLE_MASK`.

* `wbufWriteUdata_eq`: the `user_data` of a write is the `user_data` of a task payload.
* `handleCqeEntry_refs`: handling it without a poll gives back a reference of that task.
* **`internal_confused`**: where each part of the encoding does what its comment says.
-/

namespace Onlyio

open Lib

variable {σ : Type}

/-! ## The two encodings -/

/-- **The encodings overlap**: the write of slot `a` is stamped like an SQE of the task in slot
`a`. -/
theorem wbufWriteUdata_eq (a : UInt32) :
    wbufWriteUdata a = UserDataPayload.intoUserData ⟨a, 0, multipleMask⟩ := by
  rw [← UInt64.toNat_inj, UserDataPayload.toNat_intoUserData]
  have ha := a.toNat_lt
  have hflag : internalFlag.toNat = 2 ^ 63 := rfl
  have hor : 2 ^ 63 ||| a.toNat = 2 ^ 63 * 1 + a.toNat := by
    rw [Nat.two_pow_add_eq_or_of_lt (by omega), Nat.mul_one]
  unfold wbufWriteUdata
  rw [UInt64.toNat_or, hflag, UInt32.toNat_toUInt64, hor]
  show 2 ^ 63 * 1 + a.toNat = a.toNat + 2 ^ 32 * 0 + 2 ^ 48 * 32768
  omega

theorem isInternalCqe_iff (udata : UInt64) : isInternalCqe udata = true ↔ 2 ^ 63 ≤ udata.toNat := by
  have hlt := udata.toNat_lt
  have hflag : internalFlag.toNat = 2 ^ 63 := rfl
  unfold isInternalCqe
  rw [bne_iff_ne, ne_eq, ← UInt64.toNat_inj, UInt64.toNat_and, hflag, Nat.and_two_pow,
    Nat.testBit_eq_decide_div_mod_eq]
  show ¬ (decide (udata.toNat / 2 ^ 63 % 2 = 1)).toNat * 2 ^ 63 = 0 ↔ _
  by_cases h : udata.toNat / 2 ^ 63 % 2 = 1
  · simp only [h, decide_true, Bool.toNat_true]
    omega
  · simp only [h, decide_false, Bool.toNat_false]
    omega

/-- A task's `user_data` is told apart exactly while `MULTIPLE_MASK` is not set in its number. -/
theorem isInternalCqe_intoUserData (payload : UserDataPayload) :
    isInternalCqe payload.intoUserData = isMultiple payload.syscallNb := by
  have h1 := payload.taskIdx.toNat_lt
  have h2 := payload.responseGen.toNat_lt
  rw [Bool.eq_iff_iff, isInternalCqe_iff, isMultiple_iff, UserDataPayload.toNat_intoUserData]
  omega

theorem isMultiple_multipleMask : isMultiple multipleMask = true := by decide

/-- The assertion of `decode_wbuf_udata` asks for bit 32, which `wbuf_write_udata` never sets. -/
theorem decodeWbufUdata_wbufWriteUdata (a : UInt32) :
    decodeWbufUdata (wbufWriteUdata a) = .error (.panic .notWbufUdata) := by
  unfold decodeWbufUdata
  rw [if_neg]
  rintro ⟨-, h⟩
  have ha := a.toNat_lt
  have hnat := congrArg UInt64.toNat h
  rw [wbufWriteUdata_eq, UInt64.toNat_shiftRight, UserDataPayload.toNat_intoUserData] at hnat
  have hval : (a.toNat + 2 ^ 32 * 0 + 2 ^ 48 * 32768) >>> 32 = 1 := hnat
  rw [Nat.shiftRight_eq_div_pow] at hval
  omega

/-! ## Handling the completion -/

section Handle

variable {s : State σ} {p : TaskPtr}

/-- The references of a task that is cloned and then released twice. -/
theorem wp_release_twice {n : Nat} (hlive : (s.core.cell p).freed = false)
    (hrc : (s.core.cell p).refCounter = n + 1) :
    wp (do release p; release p)
      (fun _ s' => 0 < n ∧ (s'.core.cell p).refCounter = n - 1) (fun _ _ => True) s := by
  rw [wp_bind]
  cases n with
  | zero =>
    refine wp_mono (wp_release hlive (by omega)) (fun _ s1 h1 => ?_) fun _ _ _ => trivial
    rw [release_eq]
    unfold releaseRef
    rw [wp_bind]
    refine wp_deref_live trivial fun raw hraw hfreed => ?_
    have hcell := State.core_cell hraw
    have hf : s.core.frees p 1 = true := by simp [Core.frees, hrc]
    rw [h1.core, release_of_frees hf] at hcell
    have := congrArg Cell.freed hcell
    simp [RawTask.cell, hfreed] at this
  | succ n =>
    have h2 := wp_releases true hlive (by simp only [if_true]; omega)
    simp only [if_true, wp_bind] at h2
    refine wp_mono h2 (fun _ s1 h1 => wp_mono h1 (fun _ s2 h2 => ⟨Nat.succ_pos n, ?_⟩) ?_) ?_
    · rw [h2.core]
      by_cases hf : s.core.frees p 2 = true
      · have : (s.core.cell p).refCounter = 2 := by simpa [Core.frees] using hf
        rw [release_of_frees hf]
        simp
        omega
      · rw [release_of_not_frees hf, Core.modifyCell_self]
        show (s.core.cell p).refCounter - 2 = _
        omega
    · exact fun _ _ _ => trivial
    · exact fun _ _ _ => trivial

/-- A poll that cannot succeed. -/
theorem wp_taskPoll_throw (Q : Poll Unit → State σ → Prop) :
    wp (taskPoll (fun _ => throw .fuel) p) Q (fun _ _ => True) s := by
  simp only [taskPoll, wp_bind, wp_get, logEvent, wp_writeRaw, wp_throw]

/-- A dispatch that polls nothing changes nothing. -/
theorem wp_dispatch_throw (info : TaskInfo) (cls : SyscallNbCompResult) :
    wp (dispatch (fun _ => throw .fuel) p info cls) (fun _ s' => s' = s) (fun _ _ => True) s := by
  cases cls with
  | error => exact trivial
  | expired => rfl
  | normal =>
    simp only [dispatch]
    rw [wp_ite]
    refine ⟨fun _ => trivial, fun _ => ?_⟩
    simp only [wp_bind, wp_modify]
    exact wp_mono (wp_trivial _ _) (fun _ _ _ => wp_taskPoll_throw _) fun _ _ h => h
  | multiple =>
    simp only [dispatch, wp_bind, wp_modify]
    exact wp_taskPoll_throw _

/-- **A completion without `F_MORE` that polls no task gives back a reference.** -/
theorem handleCqeEntry_refs (entry : Cqe) (hmore : more entry.flags = false) :
    wp (handleCqeEntry (fun _ => throw .fuel) entry)
      (fun _ s' => ∃ p, (s'.core.cell p).refCounter ≠ (s.core.cell p).refCounter)
      (fun _ _ => True) s := by
  simp only [handleCqeEntry, wp_bind, tasksIndex, wp_get]
  cases hidx : s.tasks.index (TaskInfo.fromEntry entry).tag.taskIdx with
  | error e => exact trivial
  | ok p =>
    simp only [liftExcept, wp_pure, taskClone, wp_bind]
    by_cases hlive : (s.core.cell p).freed = false
    · refine wp_mono (wp_incRc hlive) (fun _ s1 hpost => ?_) fun _ _ _ => trivial
      obtain ⟨h1, _⟩ := hpost
      have hcell1 : s1.core.cell p =
          { s.core.cell p with refCounter := (s.core.cell p).refCounter + 1 } := by
        rw [h1.core, Core.bump, Core.modifyCell_self]
      refine wp_deref_live trivial fun raw hraw hfreed => ?_
      simp only [logEvent, wp_writeRaw]
      have h2 := becomes_logEvent hraw (.cqe entry
        (evaluateSyscallNb raw.syscallNb (TaskInfo.fromEntry entry).tag.syscallNb)
        (s1.others p entry.sqe))
      refine wp_mono (wp_dispatch_throw _ _) (fun _ s3 h3 => ?_) fun _ _ h => h
      subst h3
      have hcell2 := congrArg (fun c => Core.cell c p) h2.core
      simp only [Core.logAt, Core.modifyCell_self, hcell1] at hcell2
      have hrel := wp_release_twice (p := p) (n := (s.core.cell p).refCounter)
        (by rw [hcell2]; exact hlive) (by rw [hcell2])
      simp only [hmore, Bool.not_false, if_true]
      refine wp_mono hrel (fun _ s4 h4 => ⟨p, ?_⟩) fun _ _ h => h
      omega
    · -- the slot holds a task that is freed
      simp only [incRc, bumpRc, wp_bind]
      refine wp_deref_live trivial fun raw hraw hfreed => ?_
      rw [State.core_cell hraw] at hlive
      exact absurd hfreed hlive

end Handle

/-! ## The whole law -/

/-- The completion `entry` of a write of slot `a` is handled as an internal one: whatever a poll
would do, handling ends in one state, in which the slot's counter is one less and no task's is
changed. -/
def HandledInternally (s : State σ) (a : UInt32) (entry : Cqe) : Prop :=
  ∃ s', (∀ poll, handleCqeEntry poll entry s = .ok () s') ∧
    (∀ p : TaskPtr, s'.heap[p]?.map RawTask.refCounter = s.heap[p]?.map RawTask.refCounter) ∧
    ∃ rel rc, s.buffer.rcAt a = .ok (rel, rc) ∧ 0 < rc ∧ s'.buffer.rcAt a = .ok (rel, rc - 1)

theorem refCounter_congr {s s' : State σ} {p : TaskPtr}
    (h : s'.heap[p]?.map RawTask.refCounter = s.heap[p]?.map RawTask.refCounter) :
    (s'.core.cell p).refCounter = (s.core.cell p).refCounter := by
  cases hraw : s.heap[p]? with
  | none =>
    rw [hraw, Option.map_none, Option.map_eq_none_iff] at h
    simp [State.core, hraw, h]
  | some raw =>
    rw [hraw] at h
    obtain ⟨raw', hraw', heq⟩ := Option.map_eq_some_iff.mp h
    rw [State.core_cell hraw, State.core_cell hraw']
    exact congrArg UInt16.toNat heq

/-- **Where the two kinds of completions are told apart**: a write's `user_data` has the internal
bit, a task's does not have it exactly while its number has no `MULTIPLE_MASK`, `decode_wbuf_udata`
refuses every write, and no state handles the completion of a write as an internal one. -/
theorem internal_confused (a : UInt32) (payload : UserDataPayload) (s : State σ) (entry : Cqe)
    (hmore : more entry.flags = false) :
    isInternalCqe (wbufWriteUdata a) = true ∧
    (isInternalCqe payload.intoUserData = false ↔ isMultiple payload.syscallNb = false) ∧
    decodeWbufUdata (wbufWriteUdata a) = .error (.panic .notWbufUdata) ∧
    ¬ HandledInternally s a entry := by
  refine ⟨?_, ?_, decodeWbufUdata_wbufWriteUdata a, ?_⟩
  · rw [wbufWriteUdata_eq, isInternalCqe_intoUserData]
    exact isMultiple_multipleMask
  · rw [isInternalCqe_intoUserData]
  · rintro ⟨s', hhandle, hrefs, -⟩
    have hok := hhandle fun _ => throw .fuel
    obtain ⟨p, hp⟩ := wp_ok (handleCqeEntry_refs entry hmore) hok
    exact hp (refCounter_congr (hrefs p))

/-- A block that opens an `accept_stream` and takes one connection. -/
def acceptFirst : Nat → Await.Instr Nat
  | 0 => .stream (.acceptStream 4) fun _ => 1
  | 1 => .next 0 fun _ => 2
  | _ => .ret

/-- The completion of `submit(5, 4)` on the first write slot. -/
def submitCqe : Cqe :=
  ⟨⟨.writeFixed 5 (512 * 4096) 4 512, wbufWriteUdata 512, 7, ⟨0, 0⟩, false⟩, 4, 0⟩

/-- The SQE of a stream looks internal, and the completion of a write is looked up as a task. -/
theorem stream_looks_internal :
    ∃ s, Reachable (awaited acceptFirst) s ∧
    (∃ q ∈ s.outstanding, isInternalCqe q.userData = true) ∧
      (∃ s', handleCqeEntry (pollFn (awaited acceptFirst) 9) submitCqe s =
        .error (.panic .indexOutOfBounds) s') ∧ ¬ HandledInternally s 512 submitCqe := by
  have hrun : (freshScript (awaited acceptFirst) (fun _ _ => true) [.spawn 9 (.run 0)]).any
      (fun s => (s.outstanding.any fun q => isInternalCqe q.userData) &&
        match handleCqeEntry (pollFn (awaited acceptFirst) 9) submitCqe s with
        | .ok _ _ => false
        | .error e _ => e == .panic .indexOutOfBounds) = true := by decide +kernel
  obtain ⟨s, hs, hc⟩ := (Option.any_eq_true _ _).mp hrun
  rw [Bool.and_eq_true] at hc
  obtain ⟨q, hq, hint⟩ := List.any_eq_true.mp hc.1
  have hpanic := hc.2
  split at hpanic
  · cases hpanic
  · rename_i e s' heq
    obtain rfl := beq_iff_eq.mp hpanic
    refine ⟨s, .of_script (fun _ _ _ => trivial) hs, ⟨q, hq, hint⟩, ⟨s', heq⟩, ?_⟩
    rintro ⟨s2, hhandle, -⟩
    rw [hhandle] at heq
    cases heq

/-- The law on a fresh thread, at the first write slot. -/
theorem internal_confused_fresh :
    ∃ s : State Nat, State.new 0 = .ok s ∧ more submitCqe.flags = false ∧
      ¬ HandledInternally s 512 submitCqe := by
  have hnew : (State.new 0 : Except Fault (State Nat)).toOption.isSome = true := by decide +kernel
  obtain ⟨s, hs⟩ := Option.isSome_iff_exists.mp hnew
  refine ⟨s, toOption_eq_some.mp hs, by decide, ?_⟩
  exact (internal_confused 512 ⟨0, 0, multipleMask⟩ s submitCqe (by decide)).2.2.2

end Onlyio
