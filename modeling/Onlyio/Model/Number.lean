import Mathlib.Tactic.Common
import Mathlib.Data.Nat.Bitwise

/-!
# Syscall numbers and `user_data`

A task counts its operations in a `u16` (`syscall_nb`): 15 bits of rank and, in bit 15, the
`MULTIPLE_MASK` that marks a task as taking several completions under one number. The same number
travels through the kernel in `user_data` and is compared on the way back
(`Task::evaluate_syscall_nb`).

Three increments exist (`Task::augmente_syscall_nb`, `Tag::augmente_syscall_nb`, and the `+= 1` of
`handle_cqe_entry`); each is kept as the source writes it and described over `Nat` by a `toNat_`
lemma, so that later proofs are linear arithmetic.
-/

namespace Onlyio

/-- `MULTIPLE_MASK`. -/
def multipleMask : UInt16 := 0x8000

/-- The 15-bit rank of a number: `nb & !MULTIPLE_MASK`. -/
def rank (nb : UInt16) : UInt16 := nb &&& ~~~multipleMask

/-- Whether `MULTIPLE_MASK` is set. -/
def isMultiple (nb : UInt16) : Bool := nb &&& multipleMask != 0

/-- `nb |= 0x8000`, as `set_multishot` and `set_current_task_multiple(true)` do. -/
def setMultiple (nb : UInt16) : UInt16 := nb ||| 0x8000

/-- `Task::augmente_syscall_nb`: `(nb & !MULTIPLE_MASK).checked_add(1)`. The sum is at most
`0x8000`, so the `expect` never fires. -/
def taskAugmente (nb : UInt16) : UInt16 := rank nb + 1

/-- `Tag::augmente_syscall_nb`: `((nb & !MULTIPLE_MASK) + 1) % MULTIPLE_MASK`. -/
def tagAugmente (nb : UInt16) : UInt16 := (rank nb + 1) % multipleMask

/-- `SyscallNbCompResult`. -/
inductive SyscallNbCompResult where
  | expired
  | normal
  | multiple
  | error
  deriving Repr, DecidableEq

/-- `Task::evaluate_syscall_nb`, on the stored number. -/
def evaluateSyscallNb (stored incoming : UInt16) : SyscallNbCompResult :=
  let storedRank := stored &&& ~~~multipleMask
  let incomingRank := incoming &&& ~~~multipleMask
  if incomingRank < storedRank then .expired
  else if incomingRank > storedRank then .error
  else
    let storedMultiple := stored &&& multipleMask
    let incomingMultiple := incoming &&& multipleMask
    if storedMultiple ≠ incomingMultiple then .error
    else if storedMultiple ≠ 0 then .multiple
    else .normal

/-! ## Numbers over `Nat` -/

theorem toNat_rank (nb : UInt16) : (rank nb).toNat = nb.toNat % 32768 := by
  have hmask : ~~~multipleMask = 0x7FFF := by decide
  unfold rank
  rw [hmask, UInt16.toNat_and]
  exact Nat.and_two_pow_sub_one_eq_mod nb.toNat 15

theorem toNat_and_mask (nb : UInt16) :
    (nb &&& multipleMask).toNat = if 32768 ≤ nb.toNat then 32768 else 0 := by
  rw [UInt16.toNat_and]
  show nb.toNat &&& 2 ^ 15 = _
  rw [Nat.and_two_pow]
  have hlt := nb.toNat_lt
  rw [Nat.testBit_eq_decide_div_mod_eq]
  by_cases h : 32768 ≤ nb.toNat
  · have hbit : nb.toNat / 2 ^ 15 % 2 = 1 := by omega
    rw [hbit, if_pos h]
    rfl
  · have hbit : nb.toNat / 2 ^ 15 % 2 = 0 := by omega
    rw [hbit, if_neg h]
    rfl

theorem isMultiple_iff (nb : UInt16) : isMultiple nb = true ↔ 32768 ≤ nb.toNat := by
  unfold isMultiple
  rw [bne_iff_ne, ne_eq, ← UInt16.toNat_inj, toNat_and_mask]
  split <;> simp_all

theorem isMultiple_false_iff (nb : UInt16) : isMultiple nb = false ↔ nb.toNat < 32768 := by
  rw [← Bool.not_eq_true, isMultiple_iff, Nat.not_le]

theorem toNat_setMultiple (nb : UInt16) : (setMultiple nb).toNat = nb.toNat % 32768 + 32768 := by
  unfold setMultiple
  rw [UInt16.toNat_or]
  show nb.toNat ||| 2 ^ 15 = _
  have hlt := nb.toNat_lt
  have hsplit : nb.toNat = 2 ^ 15 * (nb.toNat / 2 ^ 15) ||| nb.toNat % 2 ^ 15 := by
    rw [← Nat.two_pow_add_eq_or_of_lt (Nat.mod_lt _ (by decide)), Nat.div_add_mod]
  have hor : nb.toNat ||| 2 ^ 15 = 2 ^ 15 * 1 ||| nb.toNat % 2 ^ 15 := by
    rw [hsplit, Nat.or_assoc, Nat.or_comm (nb.toNat % 2 ^ 15), ← Nat.or_assoc]
    have hq : nb.toNat / 2 ^ 15 = 0 ∨ nb.toNat / 2 ^ 15 = 1 := by omega
    have hm : (2 ^ 15 * (nb.toNat / 2 ^ 15) ||| nb.toNat % 2 ^ 15) % 2 ^ 15 =
        nb.toNat % 2 ^ 15 := by rw [← hsplit]
    rw [hm]
    rcases hq with h | h <;> rw [h] <;> rfl
  rw [hor, ← Nat.two_pow_add_eq_or_of_lt (Nat.mod_lt _ (by decide))]
  omega

theorem toNat_taskAugmente (nb : UInt16) : (taskAugmente nb).toNat = nb.toNat % 32768 + 1 := by
  unfold taskAugmente
  rw [UInt16.toNat_add, toNat_rank]
  show (nb.toNat % 32768 + 1) % 65536 = _
  omega

theorem toNat_tagAugmente (nb : UInt16) :
    (tagAugmente nb).toNat = (nb.toNat % 32768 + 1) % 32768 := by
  unfold tagAugmente
  rw [UInt16.toNat_mod, UInt16.toNat_add, toNat_rank]
  show (nb.toNat % 32768 + 1) % 65536 % 32768 = _
  omega

@[simp] theorem isMultiple_setMultiple (nb : UInt16) : isMultiple (setMultiple nb) = true := by
  rw [isMultiple_iff, toNat_setMultiple]
  omega

theorem setMultiple_of_isMultiple {nb : UInt16} (h : isMultiple nb = true) :
    setMultiple nb = nb := by
  rw [isMultiple_iff] at h
  have hlt := nb.toNat_lt
  rw [← UInt16.toNat_inj, toNat_setMultiple]
  omega

theorem rank_lt_iff (a b : UInt16) : rank a < rank b ↔ a.toNat % 32768 < b.toNat % 32768 := by
  rw [UInt16.lt_iff_toNat_lt, toNat_rank, toNat_rank]

theorem rank_setMultiple (nb : UInt16) : rank (setMultiple nb) = rank nb := by
  rw [← UInt16.toNat_inj, toNat_rank, toNat_rank, toNat_setMultiple]
  omega

theorem rank_of_not_multiple {nb : UInt16} (h : isMultiple nb = false) : rank nb = nb := by
  rw [isMultiple_false_iff] at h
  rw [← UInt16.toNat_inj, toNat_rank]
  omega

theorem rank_eq_iff (nb : UInt16) : rank nb = 0x7FFF ↔ nb.toNat % 32768 = 32767 := by
  rw [← UInt16.toNat_inj, toNat_rank]
  rfl

/-- Before the wrap, both increments agree and leave every rank so far behind. -/
theorem augmente_of_rank {nb : UInt16} (h : rank nb ≠ 0x7FFF) :
    tagAugmente nb = taskAugmente nb ∧ ∀ a, rank a ≤ rank nb → rank a < rank (taskAugmente nb) := by
  rw [ne_eq, rank_eq_iff] at h
  have htask := toNat_taskAugmente nb
  constructor
  · rw [← UInt16.toNat_inj, toNat_tagAugmente, htask]
    omega
  · intro a ha
    rw [UInt16.le_iff_toNat_le, toNat_rank, toNat_rank] at ha
    rw [rank_lt_iff, htask]
    omega

/-- Without `MULTIPLE_MASK` the increments of the dispatcher agree; at the wrap they set the
mask. -/
theorem taskAugmente_of_not_multiple {nb : UInt16} (h : isMultiple nb = false) :
    taskAugmente nb = nb + 1 ∧ (rank nb = 0x7FFF → taskAugmente nb = 0x8000) := by
  rw [isMultiple_false_iff] at h
  have htask := toNat_taskAugmente nb
  refine ⟨?_, fun hr => ?_⟩
  · rw [← UInt16.toNat_inj, htask, UInt16.toNat_add]
    show _ = (nb.toNat + 1) % 65536
    omega
  · rw [rank_eq_iff] at hr
    rw [← UInt16.toNat_inj, htask]
    show _ = 32768
    omega

/-! ## What `evaluate_syscall_nb` decides -/

theorem evaluate_expired_iff (stored incoming : UInt16) :
    evaluateSyscallNb stored incoming = .expired ↔ rank incoming < rank stored := by
  unfold evaluateSyscallNb rank
  simp only
  split
  · simp_all
  · split
    · simp_all
    · split
      · simp_all
      · split <;> simp_all

/-- A completion is accepted iff it carries the stored number exactly, bit 15 included. -/
theorem evaluate_of_eq (nb : UInt16) :
    evaluateSyscallNb nb nb = if isMultiple nb then .multiple else .normal := by
  unfold evaluateSyscallNb isMultiple
  simp [UInt16.lt_irrefl]

theorem eq_of_rank_eq {a b : UInt16} (hr : rank a = rank b)
    (hm : a &&& multipleMask = b &&& multipleMask) : a = b := by
  rw [← UInt16.toNat_inj] at hr hm ⊢
  rw [toNat_rank, toNat_rank] at hr
  rw [toNat_and_mask, toNat_and_mask] at hm
  have := a.toNat_lt
  have := b.toNat_lt
  split at hm <;> split at hm <;> omega

theorem evaluate_cases (stored incoming : UInt16) :
    (incoming = stored ∧ evaluateSyscallNb stored incoming =
        if isMultiple stored then .multiple else .normal) ∨
    (rank incoming < rank stored ∧ evaluateSyscallNb stored incoming = .expired) ∨
    (incoming ≠ stored ∧ rank stored ≤ rank incoming ∧
      evaluateSyscallNb stored incoming = .error) := by
  by_cases heq : incoming = stored
  · subst heq
    exact .inl ⟨rfl, evaluate_of_eq incoming⟩
  · by_cases hlt : rank incoming < rank stored
    · exact .inr (.inl ⟨hlt, (evaluate_expired_iff stored incoming).mpr hlt⟩)
    · refine .inr (.inr ⟨heq, UInt16.not_lt.mp hlt, ?_⟩)
      unfold evaluateSyscallNb
      simp only
      rw [if_neg (show ¬ incoming &&& ~~~multipleMask < stored &&& ~~~multipleMask from hlt)]
      split
      · rfl
      · rename_i hgt
        have hr : rank incoming = rank stored :=
          UInt16.le_antisymm (UInt16.not_lt.mp hgt) (UInt16.not_lt.mp hlt)
        rw [if_pos]
        intro hm
        exact heq (eq_of_rank_eq hr hm.symm)

theorem evaluate_accepts_iff (stored incoming : UInt16) :
    (evaluateSyscallNb stored incoming = .normal ∨
      evaluateSyscallNb stored incoming = .multiple) ↔ incoming = stored := by
  rcases evaluate_cases stored incoming with ⟨h, he⟩ | ⟨h, he⟩ | ⟨h, -, he⟩
  · rw [he]
    cases isMultiple stored <;> simp [h]
  · rw [he]
    simp only [reduceCtorEq, or_self, false_iff]
    rintro rfl
    exact UInt16.lt_irrefl _ h
  · rw [he]
    simpa using h

theorem evaluate_error_iff (stored incoming : UInt16) :
    evaluateSyscallNb stored incoming = .error ↔
      incoming ≠ stored ∧ rank stored ≤ rank incoming := by
  rcases evaluate_cases stored incoming with ⟨h, he⟩ | ⟨h, he⟩ | ⟨h, hr, he⟩
  · rw [he]
    cases isMultiple stored <;> simp [h]
  · rw [he]
    simp only [reduceCtorEq, false_iff, not_and]
    exact fun _ => UInt16.not_le.mpr h
  · simp [he, h, hr]

/-! ## `UserDataPayload` -/

/-- `SlabIdx`. -/
abbrev SlabIdx := UInt32

/-- `UserDataPayload` (`#[repr(C, align(8))]`: `task_idx` in bytes 0–3, `response_gen` in bytes
4–5, `syscall_nb` in bytes 6–7). -/
structure UserDataPayload where
  taskIdx : SlabIdx
  responseGen : UInt16
  syscallNb : UInt16
  deriving Repr, DecidableEq

/-- `UserDataPayload::into_user_data`: the union read back as a little-endian `u64`. -/
def UserDataPayload.intoUserData (p : UserDataPayload) : UInt64 :=
  p.taskIdx.toUInt64 ||| p.responseGen.toUInt64 <<< 32 ||| p.syscallNb.toUInt64 <<< 48

/-- `UserDataPayload::from_user_data`. -/
def UserDataPayload.fromUserData (userData : UInt64) : UserDataPayload :=
  ⟨userData.toUInt32, (userData >>> 32).toUInt16, (userData >>> 48).toUInt16⟩

theorem UserDataPayload.toNat_intoUserData (p : UserDataPayload) :
    p.intoUserData.toNat =
      p.taskIdx.toNat + 2 ^ 32 * p.responseGen.toNat + 2 ^ 48 * p.syscallNb.toNat := by
  have h1 := p.taskIdx.toNat_lt
  have h2 := p.responseGen.toNat_lt
  have h3 := p.syscallNb.toNat_lt
  have hg : p.responseGen.toNat <<< 32 % 2 ^ 64 = 2 ^ 32 * p.responseGen.toNat := by
    rw [Nat.shiftLeft_eq]; omega
  have hn : p.syscallNb.toNat <<< 48 % 2 ^ 64 = 2 ^ 48 * p.syscallNb.toNat := by
    rw [Nat.shiftLeft_eq]; omega
  have hlo : p.taskIdx.toNat ||| 2 ^ 32 * p.responseGen.toNat =
      2 ^ 32 * p.responseGen.toNat + p.taskIdx.toNat := by
    rw [Nat.or_comm, ← Nat.two_pow_add_eq_or_of_lt h1]
  have hhi : (2 ^ 32 * p.responseGen.toNat + p.taskIdx.toNat) ||| 2 ^ 48 * p.syscallNb.toNat =
      2 ^ 48 * p.syscallNb.toNat + (2 ^ 32 * p.responseGen.toNat + p.taskIdx.toNat) := by
    rw [Nat.or_comm, ← Nat.two_pow_add_eq_or_of_lt (by omega)]
  unfold UserDataPayload.intoUserData
  simp only [UInt64.toNat_or, UInt64.toNat_shiftLeft, UInt32.toNat_toUInt64, UInt16.toNat_toUInt64]
  show p.taskIdx.toNat ||| p.responseGen.toNat <<< 32 % 2 ^ 64 |||
    p.syscallNb.toNat <<< 48 % 2 ^ 64 = _
  rw [hg, hn, hlo, hhi]
  omega

/-- **The packing loses nothing**: a payload read back from its `user_data` is the payload. -/
@[simp] theorem UserDataPayload.fromUserData_intoUserData (p : UserDataPayload) :
    UserDataPayload.fromUserData p.intoUserData = p := by
  have h := p.toNat_intoUserData
  have h1 := p.taskIdx.toNat_lt
  have h2 := p.responseGen.toNat_lt
  have h3 := p.syscallNb.toNat_lt
  obtain ⟨i, g, n⟩ := p
  simp only at h h1 h2 h3
  unfold UserDataPayload.fromUserData
  congr 1
  · rw [← UInt32.toNat_inj, UInt64.toNat_toUInt32, h]; omega
  · rw [← UInt16.toNat_inj, UInt64.toNat_toUInt16, UInt64.toNat_shiftRight, h]
    show _ >>> 32 % 2 ^ 16 = _
    rw [Nat.shiftRight_eq_div_pow]; omega
  · rw [← UInt16.toNat_inj, UInt64.toNat_toUInt16, UInt64.toNat_shiftRight, h]
    show _ >>> 48 % 2 ^ 16 = _
    rw [Nat.shiftRight_eq_div_pow]; omega

end Onlyio
