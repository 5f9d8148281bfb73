import Onlyio.Lib.Hoare
import Onlyio.Model.Await
import Mathlib.Data.List.FinRange

/-!
# What a fan-out returns

`WriteMultipleFuture` keeps one position per descriptor, a countdown, and the results that are not
complete writes. `presentAll` polls it once per completion, in any order. The polls never fail and
the last one is the only ready one, but the two tests on a result are independent: a negative result
is pushed as `Failed` and again as `Partial`, since read as `u32` it differs from every length.

* `presentAll_ok`: the polls of a whole fan-out.
* **`fan_out_results_exact_iff`**: the vector is exact for the completions without errors, and for
  no others.
-/

namespace Onlyio

open Lib

variable {σ : Type}

/-! ## The polls of one fan-out -/

/-- A poll is in progress: `CURRENT_TASK` names a task of the slab that is not freed. -/
structure State.Polling (s : State σ) : Prop where
  task : ∃ p raw, s.tasks.index s.currentTask.tag.taskIdx = .ok p ∧ s.heap[p]? = some raw ∧
    raw.freed = false

/-- The completion of position `gen` has arrived, with this result. -/
def State.presented (s : State σ) (gen : Nat) (result : Int32) : State σ :=
  { s with currentTask.result := result, currentTask.responseGen := UInt16.ofNat gen }

/-- The completions of the positions `order` are presented to a fan-out, one poll each. -/
def presentAll {n : Nat} (me : Caller) (results : Fin n → Int32) :
    List (Fin n) → WriteMultipleFuture → Rt σ (List (Poll (List WriteResult)))
  | [], _ => return []
  | i :: order, f => do
    modify fun s => s.presented i (results i)
    let (r, f) ← f.poll me
    return r :: (← presentAll me results order f)

/-- The entries that a result should have in the vector. -/
def exactResult (fd : UInt32) (result : Int32) (len : UInt32) : List WriteResult :=
  if result < 0 then [.failed fd]
  else if result.toUInt32 < len then [.short fd result.toUInt32] else []

theorem pushResult_eq (faileds : List WriteResult) (fd : UInt32) (result : Int32) (len : UInt32) :
    pushResult faileds fd result len = faileds ++ pushResult [] fd result len := by
  unfold pushResult
  split <;> split <;> simp

/-! ## The results -/

section Results

variable {fd len : UInt32} {result : Int32}

theorem toNat_toUInt32_of_nonneg (h : 0 ≤ result) :
    (result.toUInt32.toNat : Int) = result.toInt := by
  have hi : 0 ≤ result.toInt := Int32.le_iff_toInt_le.mp h
  rw [Int32.toInt, BitVec.toInt_eq_toNat_cond] at hi ⊢
  have hlt := result.toBitVec.isLt
  show (result.toBitVec.toNat : Int) = _
  split <;> omega

theorem le_toNat_toUInt32_of_neg (h : result < 0) : 2 ^ 31 ≤ result.toUInt32.toNat := by
  have hi : result.toInt < 0 := Int32.lt_iff_toInt_lt.mp h
  rw [Int32.toInt, BitVec.toInt_eq_toNat_cond] at hi
  show 2 ^ 31 ≤ result.toBitVec.toNat
  split at hi <;> omega

/-- A result that is no error is pushed exactly. -/
theorem pushResult_of_nonneg (hlen : len.toNat < 2 ^ 31) (hle : result ≤ len.toInt32)
    (h : 0 ≤ result) : pushResult [] fd result len = exactResult fd result len := by
  have hneg : ¬ result < 0 := Int32.not_lt.mpr h
  have hres := toNat_toUInt32_of_nonneg h
  have hcap : result.toUInt32.toNat ≤ len.toNat := by
    have hint := Int32.le_iff_toInt_le.mp hle
    have hl : len.toInt32.toInt = len.toNat := by
      rw [Int32.toInt, BitVec.toInt_eq_toNat_cond]
      show (if 2 * len.toNat < _ then (len.toNat : Int) else _) = _
      rw [if_pos (by omega)]
    omega
  unfold pushResult exactResult
  simp only [if_neg hneg, List.nil_append]
  by_cases heq : result.toUInt32 = len
  · rw [if_neg (not_not.mpr heq), if_neg (by rw [heq]; exact UInt32.lt_irrefl len)]
  · have hne : result.toUInt32.toNat ≠ len.toNat := fun h => heq (UInt32.toNat_inj.mp h)
    rw [if_pos heq, if_pos (UInt32.lt_iff_toNat_lt.mpr (by omega))]

/-- An error is pushed twice. -/
theorem pushResult_of_neg (hlen : len.toNat < 2 ^ 31) (h : result < 0) :
    pushResult [] fd result len = [.failed fd, .short fd result.toUInt32] := by
  have hbig := le_toNat_toUInt32_of_neg h
  have hne : result.toUInt32 ≠ len := by
    rintro rfl
    omega
  unfold pushResult
  rw [if_pos h, if_pos hne]
  rfl

/-- Nothing is lost: the vector has the exact entries, and one more per error. -/
theorem length_pushResult (hlen : len.toNat < 2 ^ 31) (hle : result ≤ len.toInt32) :
    (pushResult [] fd result len).length =
      (exactResult fd result len).length + if result < 0 then 1 else 0 := by
  by_cases h : result < 0
  · rw [pushResult_of_neg hlen h, exactResult, if_pos h, if_pos h]
    rfl
  · rw [pushResult_of_nonneg hlen hle (Int32.not_lt.mp h), if_neg h, Nat.add_zero]

end Results

/-- The vectors of a whole fan-out agree exactly when no result is an error. -/
theorem flatMap_pushResult_eq_iff {α : Type} {len : UInt32} (fd : α → UInt32) {results : α → Int32}
    (hlen : len.toNat < 2 ^ 31) (hle : ∀ i, results i ≤ len.toInt32) (order : List α) :
    order.flatMap (fun i => pushResult [] (fd i) (results i) len) =
        order.flatMap (fun i => exactResult (fd i) (results i) len) ↔
      ∀ i ∈ order, 0 ≤ results i := by
  constructor
  · intro h
    have hcount := congrArg List.length h
    rw [List.length_flatMap, List.length_flatMap] at hcount
    have hsum : ∀ order : List α,
        (order.map fun i => (pushResult [] (fd i) (results i) len).length).sum =
        (order.map fun i => (exactResult (fd i) (results i) len).length).sum +
          order.countP fun i => decide (results i < 0) := by
      intro order
      induction order with
      | nil => rfl
      | cons i order ih =>
        rw [List.map_cons, List.sum_cons, ih, length_pushResult hlen (hle i), List.countP_cons]
        simp only [List.map_cons, List.sum_cons, decide_eq_true_eq]
        omega
    have hzero : order.countP (fun i => decide (results i < 0)) = 0 := by
      have := hsum order
      omega
    intro i hi
    have hnot := List.countP_eq_zero.mp hzero i hi
    exact Int32.not_lt.mp (by simpa using hnot)
  · intro h
    exact List.flatMap_congr fun i hi => pushResult_of_nonneg hlen (hle i) (h i hi)

/-! ## The polls -/

section Polls

variable (me : Caller) {s : State σ} {inFligthCount : UInt16} {fds : List UInt32}
  (faileds : List WriteResult) (len : UInt32) {fd : UInt32} (buffer : WBuffer)

/-- The last poll of a fan-out advances the number of a task that is there. -/
theorem State.Polling.advance (h : s.Polling) :
    ∃ s', advanceSyscallNb s.currentTask.tag s = .ok () s' := by
  obtain ⟨p, raw, hidx, hraw, hlive⟩ := h.task
  refine ⟨s.modifyRaw p fun r => { r with syscallNb := taskAugmente raw.syscallNb }, ?_⟩
  simp only [advanceSyscallNb, tasksIndex, augmenteSyscallNb, deref, bind, EStateM.bind, get_run,
    liftExcept, hidx, pure, EStateM.pure, hraw, hlive, writeRaw, modify_run]
  rfl

/-- A poll while more than one completion is missing. -/
theorem poll_of_more (h : 1 < inFligthCount.toNat)
    (hfd : fds[s.currentTask.responseGen.toNat]? = some fd) (hused : fd ≠ 0xFFFFFFFF) :
    WriteMultipleFuture.poll me (.pending inFligthCount fds faileds len buffer) s =
      .ok (.pending, .pending (inFligthCount - 1)
        (fds.set s.currentTask.responseGen.toNat 0xFFFFFFFF)
        (pushResult faileds fd s.currentTask.result len) len buffer) s := by
  have hne : inFligthCount ≠ 0 := by
    rintro rfl
    exact absurd h (by decide)
  have hne1 : inFligthCount - 1 ≠ 0 := by
    intro heq
    obtain rfl : inFligthCount = 1 := by
      rw [← UInt16.sub_add_cancel inFligthCount 1, heq]
      rfl
    exact absurd h (by decide)
  simp only [WriteMultipleFuture.poll, if_neg hne, bind, EStateM.bind, get_run, hfd, if_neg hused,
    if_neg hne1, pure, EStateM.pure]

/-- The poll that takes the last completion. -/
theorem poll_of_last (h : inFligthCount = 1) (hs : s.Polling)
    (hfd : fds[s.currentTask.responseGen.toNat]? = some fd) (hused : fd ≠ 0xFFFFFFFF) :
    ∃ f s', WriteMultipleFuture.poll me (.pending inFligthCount fds faileds len buffer) s =
      .ok (.ready (pushResult faileds fd s.currentTask.result len), f) s' := by
  subst h
  obtain ⟨s', hadv⟩ := hs.advance
  refine ⟨.pending 0 (fds.set s.currentTask.responseGen.toNat 0xFFFFFFFF) [] len buffer,
    { s' with currentTask := s'.currentTask.setToNextTask }, ?_⟩
  have hne : (1 : UInt16) ≠ 0 := by decide
  simp only [WriteMultipleFuture.poll, bind, EStateM.bind, get_run, hfd, if_neg hused, if_neg hne,
    UInt16.sub_self, if_true, hadv, pure, EStateM.pure]
  rfl

theorem presentAll_cons {n : Nat} {results : Fin n → Int32} {i : Fin n} {order : List (Fin n)}
    {f f' : WriteMultipleFuture} {s s1 s2 : State σ} {r : Poll (List WriteResult)}
    {rs : List (Poll (List WriteResult))}
    (hpoll : f.poll me (s.presented i (results i)) = .ok (r, f') s1)
    (hrest : presentAll me results order f' s1 = .ok rs s2) :
    presentAll me results (i :: order) f s = .ok (r :: rs) s2 := by
  simp only [presentAll, bind, EStateM.bind, modify_run, hpoll, hrest, pure, EStateM.pure]

/-- **The polls of a fan-out**, from a point where the completions of `order` are missing: all but
the last are pending, and the last one has the results in the order of the completions. -/
theorem presentAll_ok {n : Nat} (results : Fin n → Int32) {fd : Fin n → UInt32} (hn : n ≤ 65535)
    (hused : ∀ i, fd i ≠ 0xFFFFFFFF) :
    ∀ (order : List (Fin n)) {fds : List UInt32} (faileds : List WriteResult) {s : State σ},
      order ≠ [] → order.Nodup → order.length ≤ n → (∀ i ∈ order, fds[i.val]? = some (fd i)) →
      s.Polling →
      ∃ s', presentAll me results order
          (.pending (UInt16.ofNat order.length) fds faileds len buffer) s =
        .ok (List.replicate (order.length - 1) .pending ++ [.ready (faileds ++
          order.flatMap fun i => pushResult [] (fd i) (results i) len)]) s' := by
  intro order
  induction order with
  | nil => exact fun _ _ h => absurd rfl h
  | cons i order ih =>
    intro fds faileds s _ hnd hle hfds hs
    have hgen : (UInt16.ofNat i.val).toNat = i.val := by
      rw [UInt16.toNat_ofNat']
      exact Nat.mod_eq_of_lt (by omega)
    have hs1 : (s.presented i (results i)).Polling := ⟨hs.task⟩
    have hfd : fds[(s.presented i (results i)).currentTask.responseGen.toNat]? = some (fd i) := by
      show fds[(UInt16.ofNat i.val).toNat]? = _
      rw [hgen]
      exact hfds i List.mem_cons_self
    cases order with
    | nil =>
      obtain ⟨f, s', hpoll⟩ := poll_of_last me faileds len buffer rfl hs1 hfd (hused i)
      refine ⟨s', (presentAll_cons me hpoll rfl).trans ?_⟩
      rw [pushResult_eq]
      simp [State.presented]
    | cons j order =>
      -- the tombstone is at a position whose completion is not missing any more
      have hfds' : ∀ k ∈ j :: order, (fds.set (UInt16.ofNat i.val).toNat 0xFFFFFFFF)[k.val]? =
          some (fd k) := by
        intro k hk
        have hne : i.val ≠ k.val := fun heq =>
          (List.nodup_cons.mp hnd).1 (Fin.ext heq ▸ hk)
        rw [hgen, List.getElem?_set_ne hne]
        exact hfds k (List.mem_cons_of_mem i hk)
      have hlen : (UInt16.ofNat (i :: j :: order).length).toNat = order.length + 2 := by
        rw [UInt16.toNat_ofNat']
        exact Nat.mod_eq_of_lt (by simp at hle ⊢; omega)
      have hdec : UInt16.ofNat (i :: j :: order).length - 1 = UInt16.ofNat (j :: order).length := by
        rw [List.length_cons, UInt16.ofNat_add]
        exact UInt16.add_sub_cancel ..
      have hpoll := poll_of_more me faileds len buffer (by rw [hlen]; omega) hfd (hused i)
      rw [hdec] at hpoll
      obtain ⟨s', hrest⟩ := ih (pushResult faileds (fd i) (results i) len)
        (List.cons_ne_nil j order) (List.nodup_cons.mp hnd).2 (Nat.le_of_succ_le hle) hfds' hs1
      refine ⟨s', (presentAll_cons me hpoll hrest).trans ?_⟩
      rw [pushResult_eq]
      simp [List.replicate_succ]

end Polls

/-! ## The whole future -/

/-- The first poll of a fan-out submits. -/
theorem poll_init {me : Caller} {fds : List UInt32} {buffer : WBuffer} {len : UInt32}
    {s s' : State σ} {r : Poll (List WriteResult)} {f : WriteMultipleFuture}
    (h : WriteMultipleFuture.poll me (.init fds buffer len) s = .ok (r, f) s') :
    r = .pending ∧ f = .pending (UInt16.ofNat fds.length) fds [] len buffer := by
  have hwp : Lib.wp (WriteMultipleFuture.poll me (.init fds buffer len) : Rt σ _)
      (fun a _ => a.1 = .pending ∧
        a.2 = .pending (UInt16.ofNat fds.length) fds [] len buffer) (fun _ _ => True) s := by
    simp only [WriteMultipleFuture.poll, Lib.wp_bind, Lib.wp_pure, and_self]
    exact Lib.wp_mono (Lib.wp_trivial _ _)
      (fun _ _ _ => Lib.wp_mono (Lib.wp_trivial _ _) (fun _ _ _ => trivial) fun _ _ h => h)
      fun _ _ h => h
  have hpost := Lib.wp_ok hwp h
  exact hpost

/-- **The results of a fan-out are exact when none of them is an error, and only then**: whatever
the order of the completions, the future is pending for all but the last and then ready with one
entry for each result that is not a complete write. -/
theorem fan_out_results_exact_iff {me : Caller} {fds : List UInt32}
    {buffer : WBuffer} {len : UInt32} (hne : fds ≠ []) (hn : fds.length ≤ 65535)
    (hfds : ∀ fd ∈ fds, fd ≠ 0xFFFFFFFF) (hlen : len.toNat < 2 ^ 31)
    {results : Fin fds.length → Int32} (hle : ∀ i, results i ≤ len.toInt32)
    {order : List (Fin fds.length)} (horder : order.Perm (List.finRange fds.length))
    {s0 s1 s : State σ} {r : Poll (List WriteResult)} {f : WriteMultipleFuture}
    (hinit : WriteMultipleFuture.poll me (.init fds buffer len) s0 = .ok (r, f) s1)
    (hs : s.Polling) :
    (r = .pending ∧ ∃ s', presentAll me results order f s =
      .ok (List.replicate (fds.length - 1) .pending ++
        [.ready (order.flatMap fun i => exactResult (fds.get i) (results i) len)]) s') ↔
      ∀ i, 0 ≤ results i := by
  obtain ⟨rfl, rfl⟩ := poll_init hinit
  have hlength : order.length = fds.length := by
    rw [horder.length_eq, List.length_finRange]
  have hmem : ∀ i, i ∈ order := fun i => horder.mem_iff.mpr (List.mem_finRange i)
  have hnil : order ≠ [] := by
    rintro rfl
    exact hne (List.length_eq_zero_iff.mp hlength.symm)
  obtain ⟨s', hpolls⟩ := presentAll_ok me len buffer results hn
    (fun i => hfds (fds.get i) (List.get_mem fds i)) order [] hnil
    (horder.nodup_iff.mpr (List.nodup_finRange _)) (Nat.le_of_eq hlength)
    (fun i _ => List.getElem?_eq_getElem i.isLt) hs
  rw [hlength, List.nil_append] at hpolls
  have hiff := flatMap_pushResult_eq_iff fds.get hlen hle order
  constructor
  · rintro ⟨-, s2, hexact⟩ i
    rw [hpolls] at hexact
    have heq := (List.append_cancel_left (EStateM.Result.ok.inj hexact).1)
    exact hiff.mp (Poll.ready.inj (List.singleton_inj.mp heq)) i (hmem i)
  · intro h
    rw [← hiff.mpr fun i _ => h i]
    exact ⟨rfl, s', hpolls⟩

/-! ## A state in which a task is polled -/

/-- A block that accepts two connections one after the other. -/
def acceptTwice : Nat → Await.Instr Nat
  | 0 => .await (.accept 4) fun _ => 1
  | 1 => .await (.accept 4) fun _ => 2
  | _ => .ret

/-- The first connection has been accepted, a write buffer is taken, and a fan-out has submitted:
the states before and after its first poll, and the future. -/
def fanOutStart (fds : List UInt32) (len : UInt32) :
    Option (State (Await.Point Nat) × WBuffer × State (Await.Point Nat) ×
      Poll (List WriteResult) × WriteMultipleFuture) := do
  let s ← freshScript (awaited acceptTwice) (fun _ _ => true)
    [.spawn 9 (.run 0), .submit, .consume, .complete 0 7 0, .handle 9]
  match allocWriteBuffer s with
  | .ok b s0 =>
    match WriteMultipleFuture.poll ⟨0, 0⟩ (.init fds b len) s0 with
    | .ok (r, f) s1 => some (s0, b, s1, r, f)
    | .error _ _ => none
  | .error _ _ => none

/-- The task of `CURRENT_TASK` is there. -/
def State.pollingNow (s : State σ) : Bool :=
  match s.tasks.index s.currentTask.tag.taskIdx with
  | .ok p => s.heap[p]?.any fun raw => !raw.freed
  | .error _ => false

theorem State.Polling.of_now {s : State σ} (h : s.pollingNow = true) : s.Polling := by
  unfold State.pollingNow at h
  split at h
  · rename_i p hidx
    obtain ⟨raw, hraw, hlive⟩ := (Option.any_eq_true _ _).mp h
    exact ⟨p, raw, hidx, hraw, by simpa using hlive⟩
  · cases h

theorem fanOutStart_spec {fds : List UInt32} {len : UInt32} {s0 s1 : State (Await.Point Nat)}
    {b : WBuffer} {r : Poll (List WriteResult)} {f : WriteMultipleFuture}
    (h : fanOutStart fds len = some (s0, b, s1, r, f)) :
    WriteMultipleFuture.poll ⟨0, 0⟩ (.init fds b len) s0 = .ok (r, f) s1 := by
  simp only [fanOutStart, bind, Option.bind_eq_some_iff] at h
  obtain ⟨s, -, h⟩ := h
  split at h
  · split at h
    · rename_i hpoll
      simp only [Option.some.injEq, Prod.mk.injEq] at h
      obtain ⟨rfl, rfl, rfl, rfl, rfl⟩ := h
      exact hpoll
    · cases h
  · cases h

/-- A complete write and a short one, the second descriptor first. -/
theorem fan_out_results_exact_of_two :
    ∃ s0 b s1 r f, fanOutStart [5, 6] 4 = some (s0, b, s1, r, f) ∧ r = .pending ∧
      ∃ s', presentAll ⟨0, 0⟩ (fun i : Fin [5, 6].length => if i = 0 then 4 else 3) [1, 0] f s1 =
        .ok [.pending, .ready [.short 6 3]] s' := by
  have hstart : (fanOutStart [5, 6] 4).any (fun x => x.2.2.1.pollingNow) = true := by decide +kernel
  obtain ⟨⟨s0, b, s1, r, f⟩, hx, hnow⟩ := (Option.any_eq_true _ _).mp hstart
  refine ⟨s0, b, s1, r, f, hx, ?_⟩
  exact (fan_out_results_exact_iff (by decide) (by decide) (by simp) (by simp) (by decide)
    (by decide) (fanOutStart_spec hx) (.of_now hnow)).mpr (by decide)

/-- An error of the only descriptor is reported twice. -/
theorem fan_out_error_twice :
    ∃ s0 b s1 r f, fanOutStart [5] 4 = some (s0, b, s1, r, f) ∧
      (∃ s', presentAll ⟨0, 0⟩ (fun _ : Fin [5].length => -32) [0] f s1 =
        .ok [.ready [.failed 5, .short 5 0xFFFFFFE0]] s') ∧
      ¬ ∃ s', presentAll ⟨0, 0⟩ (fun _ : Fin [5].length => -32) [0] f s1 =
        .ok [.ready (exactResult 5 (-32) 4)] s' := by
  have hstart : (fanOutStart [5] 4).any (fun x =>
      match presentAll ⟨0, 0⟩ (fun _ : Fin [5].length => -32) [0] x.2.2.2.2 x.2.2.1 with
      | .ok rs _ => rs == [.ready [.failed 5, .short 5 0xFFFFFFE0]]
      | .error _ _ => false) = true := by decide +kernel
  obtain ⟨⟨s0, b, s1, r, f⟩, hx, hrs⟩ := (Option.any_eq_true _ _).mp hstart
  refine ⟨s0, b, s1, r, f, hx, ?_⟩
  simp only at hrs
  split at hrs
  · rename_i rs s' heq
    rw [heq]
    obtain rfl := beq_iff_eq.mp hrs
    refine ⟨⟨s', rfl⟩, ?_⟩
    rintro ⟨s2, h2⟩
    exact absurd (EStateM.Result.ok.inj h2).1 (by decide)
  · cases hrs

end Onlyio
