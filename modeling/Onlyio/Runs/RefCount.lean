import Onlyio.Machine.Sends
import Onlyio.Model.Exec

/-!
# The guards of the reference counter

`inc_rc` and `add_rc` mean to refuse an addition that would carry into bit 15 ("overflow into
multiple task"). They add with `checked_add` and then compare the old and the new counter, both with
`MULTIPLE_MASK` set: the 15 low bits. These are equal exactly when the amount is a multiple of
`0x8000`, so the assertion fires on an amount of `0`, which is safe, and lets every other carry
pass.

* `bumpRc_eq`: what the shared body does, in numbers.
* `RcRun.balance`: whatever was granted, the counter is the exact balance.
* **`rc_guards_run`**: an addition does what the assertion intends exactly when it is `Guarded`; and
  as long as all additions are, the counter stays clear of `MULTIPLE_MASK`.
-/

namespace Onlyio

open Lib

variable {σ : Type} {p : TaskPtr} {s s' : State σ} {raw raw' : RawTask σ}

/-! ## One addition -/

/-- The assertion compares the 15 low bits. -/
theorem mask_eq_iff (a b : UInt16) :
    a ||| multipleMask = b ||| multipleMask ↔ a.toNat % 32768 = b.toNat % 32768 := by
  rw [show a ||| multipleMask = setMultiple a from rfl, show b ||| multipleMask =
    setMultiple b from rfl, ← UInt16.toNat_inj, toNat_setMultiple, toNat_setMultiple]
  omega

theorem deref_eq (hraw : s.heap[p]? = some raw) :
    deref p s = if raw.freed then .error .dangling s else .ok raw s := by
  unfold deref
  simp only [bind, EStateM.bind, get_run, hraw]
  cases hf : raw.freed with
  | true => rfl
  | false => rfl

/-- The body of `inc_rc` and `add_rc`, on a live task. -/
theorem bumpRc_eq (overflow mask : Panic) (count : UInt16) (hraw : s.heap[p]? = some raw)
    (hlive : raw.freed = false) :
    bumpRc overflow mask p count s =
      if raw.refCounter.toNat + count.toNat < 2 ^ 16 then
        if count.toNat % 32768 = 0 then .error (.panic mask) s
        else .ok () (s.modifyRaw p fun r => { r with refCounter := raw.refCounter + count })
      else .error (.panic overflow) s := by
  show EStateM.bind (deref p) _ s = _
  rw [EStateM.bind, deref_eq hraw, hlive]
  simp only [Bool.false_eq_true, if_false]
  by_cases hlt : raw.refCounter.toNat + count.toNat < 2 ^ 16
  · have hmask : (raw.refCounter ||| multipleMask = raw.refCounter + count ||| multipleMask) ↔
        count.toNat % 32768 = 0 := by
      rw [mask_eq_iff, UInt16.toNat_add, Nat.mod_eq_of_lt hlt]
      omega
    simp only [hlt, hmask, if_true]
    split <;> rfl
  · simp only [hlt, if_false]
    rfl

/-! ## Sequences of calls -/

/-- An addition to the counter. -/
inductive RcAdd where
  | inc
  | add (count : UInt16)
  deriving Repr, DecidableEq

namespace RcAdd

/-- `Task::inc_rc` or `Task::add_rc`. -/
def run (p : TaskPtr) : RcAdd → Rt σ Unit
  | .inc => incRc p
  | .add count => addRc p count

/-- How much it adds. -/
def amount : RcAdd → UInt16
  | .inc => 1
  | .add count => count

end RcAdd

/-- The states of a task that was created, had its counter increased by additions that were granted
or panicked, and was released: with the additions, each with the counter it met, and the exact
balance of what was granted and released. -/
inductive RcRun (p : TaskPtr) : List (UInt16 × RcAdd) → State σ → Int → Prop where
  | new {future : AsyncBlock σ} {s s' : State σ} (h : taskNew future s = .ok p s') : RcRun p [] s' 1
  | add {adds : List (UInt16 × RcAdd)} {b : Int} {s s' : State σ} {raw : RawTask σ} (op : RcAdd)
      (hr : RcRun p adds s b) (hraw : s.heap[p]? = some raw) (h : op.run p s = .ok () s') :
      RcRun p (adds ++ [(raw.refCounter, op)]) s' (b + op.amount.toNat)
  | panic {adds : List (UInt16 × RcAdd)} {b : Int} {s s' : State σ} {raw : RawTask σ} {e : Fault}
      (op : RcAdd) (hr : RcRun p adds s b) (hraw : s.heap[p]? = some raw)
      (h : op.run p s = .error e s') : RcRun p (adds ++ [(raw.refCounter, op)]) s' b
  | release {adds : List (UInt16 × RcAdd)} {b : Int} {s s' : State σ} (hr : RcRun p adds s b)
      (h : release p s = .ok () s') : RcRun p adds s' (b - 1)

/-- What the assertion intends: an addition is granted in full if the exact sum is at most `0x7FFF`,
and panics without a trace otherwise. -/
def RcAdd.Exact (p : TaskPtr) (s : State σ) (raw : RawTask σ) (op : RcAdd) : Prop :=
  if raw.refCounter.toNat + op.amount.toNat ≤ 0x7FFF then
    ∃ s' raw', op.run p s = .ok () s' ∧ s'.heap[p]? = some raw' ∧
      raw'.refCounter.toNat = raw.refCounter.toNat + op.amount.toNat
  else ∃ e, op.run p s = .error (.panic e) s

/-- The additions that the guards treat as intended: a positive amount that fits, and one that does
not fit and either leaves the 15 low bits alone or overflows 16 bits. -/
def Guarded (rc : UInt16) (op : RcAdd) : Prop :=
  if rc.toNat + op.amount.toNat ≤ 0x7FFF then op.amount ≠ 0
  else op.amount.toNat % 0x8000 = 0 ∨ 2 ^ 16 ≤ rc.toNat + op.amount.toNat

instance (rc : UInt16) (op : RcAdd) : Decidable (Guarded rc op) := by
  unfold Guarded
  infer_instance

/-- Both additions are the shared body. -/
theorem RcAdd.run_eq (op : RcAdd) :
    ∃ overflow mask, ∀ p, op.run p = (bumpRc overflow mask p op.amount : Rt σ Unit) := by
  cases op with
  | inc => exact ⟨_, _, fun p => rfl⟩
  | add count => exact ⟨_, _, fun p => rfl⟩

/-- An addition meets the intention exactly when it is guarded. -/
theorem RcAdd.exact_iff (op : RcAdd) (hraw : s.heap[p]? = some raw) (hlive : raw.freed = false) :
    op.Exact p s raw ↔ Guarded raw.refCounter op := by
  obtain ⟨overflow, mask, hrun⟩ := op.run_eq (σ := σ)
  have hlt := raw.refCounter.toNat_lt
  have hzero : op.amount = 0 ↔ op.amount.toNat = 0 := UInt16.toNat_inj.symm
  have hafter : (s.modifyRaw p fun r =>
    { r with refCounter := raw.refCounter + op.amount }).heap[p]? =
      some { raw with refCounter := raw.refCounter + op.amount } := by simp [State.modifyRaw, hraw]
  unfold RcAdd.Exact Guarded
  rw [hrun p, bumpRc_eq _ _ _ hraw hlive]
  by_cases hfit : raw.refCounter.toNat + op.amount.toNat ≤ 0x7FFF
  · rw [if_pos hfit, if_pos hfit, if_pos (by omega), ne_eq, hzero]
    constructor
    · rintro ⟨s', raw', hok, -, -⟩ h0
      rw [if_pos (by omega)] at hok
      cases hok
    · intro h0
      rw [if_neg (by omega)]
      refine ⟨_, _, rfl, hafter, ?_⟩
      show (raw.refCounter + op.amount).toNat = _
      rw [UInt16.toNat_add, Nat.mod_eq_of_lt (by omega)]
  · rw [if_neg hfit, if_neg hfit]
    constructor
    · rintro ⟨e, herr⟩
      by_contra hn
      rw [not_or, Nat.not_le] at hn
      rw [if_pos hn.2, if_neg hn.1] at herr
      cases herr
    · intro h
      by_cases hsum : raw.refCounter.toNat + op.amount.toNat < 2 ^ 16
      · rw [if_pos hsum, if_pos (by omega)]
        exact ⟨mask, rfl⟩
      · rw [if_neg hsum]
        exact ⟨overflow, rfl⟩

/-- A granted addition adds exactly its amount, and a panic changes nothing. -/
theorem RcAdd.run_spec (op : RcAdd) (hraw : s.heap[p]? = some raw) :
    (∀ s', op.run p s = .ok () s' → raw.freed = false ∧
      s'.heap[p]? = some { raw with refCounter := raw.refCounter + op.amount } ∧
      (raw.refCounter + op.amount).toNat = raw.refCounter.toNat + op.amount.toNat ∧
      ¬ op.amount.toNat % 0x8000 = 0) ∧
    ∀ e s', op.run p s = .error e s' → s' = s := by
  obtain ⟨overflow, mask, hrun⟩ := op.run_eq (σ := σ)
  rw [hrun p]
  cases hlive : raw.freed with
  | true =>
    have hfail : bumpRc overflow mask p op.amount s = .error .dangling s := by
      show EStateM.bind (deref p) _ s = _
      rw [EStateM.bind, deref_eq hraw, if_pos hlive]
    rw [hfail]
    constructor
    · intro s' h
      cases h
    · intro e s' h
      cases h
      rfl
  | false =>
    rw [bumpRc_eq _ _ _ hraw hlive]
    refine ⟨fun s' h => ?_, fun e s' h => ?_⟩
    · split at h
      · rename_i hsum
        split at h
        · cases h
        · rename_i hlow
          cases h
          refine ⟨rfl, by simp [State.modifyRaw, hraw, hlive], ?_, hlow⟩
          rw [UInt16.toNat_add, Nat.mod_eq_of_lt hsum]
      · cases h
    · split at h
      · split at h <;> cases h
        rfl
      · cases h
        rfl

/-- After a release a task that is still live has one reference less. -/
theorem release_refCounter (h : release p s = .ok () s') :
    ∃ raw, s.heap[p]? = some raw ∧ raw.freed = false ∧
      ∀ raw', s'.heap[p]? = some raw' → raw'.freed = false →
        raw'.refCounter.toNat + 1 = raw.refCounter.toNat := by
  cases hraw : s.heap[p]? with
  | none =>
    have hw : wp (release p) (fun _ _ => False) (fun _ _ => True) s := by
      simp [release_eq, releaseRef, deref, hraw]
    exact (wp_ok hw h).elim
  | some raw =>
    cases hlive : raw.freed with
    | true =>
      have hw : wp (release p) (fun _ _ => False) (fun _ _ => True) s := by
        simp [release_eq, releaseRef, deref, hraw, hlive]
      exact (wp_ok hw h).elim
    | false =>
      have hgone : ∀ (t : State σ) r,
        (t.modifyRaw p fun r => { r with freed := true }).heap[p]? = some r →
          r.freed = true := by
        intro t r hr
        simp only [State.modifyRaw, List.getElem?_modify_eq] at hr
        obtain ⟨_, -, rfl⟩ := Option.map_eq_some_iff.mp hr
        rfl
      suffices hw : wp (release p) (fun _ s' => ∀ raw', s'.heap[p]? = some raw' →
        raw'.freed = false →
          raw'.refCounter.toNat + 1 = raw.refCounter.toNat) (fun _ _ => True) s from
        ⟨raw, rfl, hlive, wp_ok hw h⟩
      simp only [release_eq, releaseRef, wp_bind, wp_deref hraw hlive]
      rw [wp_ite]
      refine ⟨fun _ => trivial, fun h0 => ?_⟩
      simp only [wp_bind, wp_writeRaw]
      rw [wp_ite]
      refine ⟨fun _ => ?_, fun _ => ?_⟩
      · -- the last reference: the task is freed
        simp only [wp_bind, wp_writeRaw]
        refine wp_mono (wp_trivial _ _) (fun _ t _ => ?_) fun _ _ _ => trivial
        refine wp_mono (wp_trivial _ _) (fun r t _ => ?_) fun _ _ _ => trivial
        cases r.slabIdx with
        | none => exact fun raw' hr hl => absurd (hgone _ _ hr) (by simp [hl])
        | some i => exact fun raw' hr hl => absurd (hgone t raw' hr) (by simp [hl])
      · intro raw' hr _
        simp only [State.modifyRaw, List.getElem?_modify_eq, hraw, Option.map_eq_map,
          Option.map_some, Option.some.injEq] at hr
        subst hr
        have hpos : 1 ≤ raw.refCounter.toNat :=
          Nat.one_le_iff_ne_zero.mpr fun h => h0 (UInt16.toNat_inj.mp h)
        have hle : (1 : UInt16) ≤ raw.refCounter := UInt16.le_iff_toNat_le.mpr hpos
        show (raw.refCounter - 1).toNat + 1 = _
        rw [UInt16.toNat_sub_of_le _ _ hle]
        exact Nat.sub_add_cancel hpos

/-! ## Whole sequences -/

variable {adds : List (UInt16 × RcAdd)} {b : Int}

/-- The counter is the exact balance, whatever was granted. -/
theorem RcRun.balance (hr : RcRun p adds s b) (hraw : s.heap[p]? = some raw)
    (hlive : raw.freed = false) : (raw.refCounter.toNat : Int) = b := by
  induction hr generalizing raw with
  | new h =>
    cases h
    rw [List.getElem?_concat_length] at hraw
    obtain rfl := Option.some.inj hraw
    rfl
  | add op _ hraw0 h ih =>
    obtain ⟨hlive0, hraw', hsum, -⟩ := (op.run_spec hraw0).1 _ h
    obtain rfl := Option.some.inj (hraw'.symm.trans hraw)
    have hb := ih hraw0 hlive0
    show ((_ + op.amount : UInt16).toNat : Int) = _
    omega
  | panic op _ hraw0 h ih =>
    obtain rfl := (op.run_spec hraw0).2 _ _ h
    exact ih hraw hlive
  | release _ h ih =>
    obtain ⟨raw0, hraw0, hlive0, hless⟩ := release_refCounter h
    have hb := ih hraw0 hlive0
    have hone := hless raw hraw hlive
    omega

/-- As long as the additions are guarded, the counter stays below `MULTIPLE_MASK`. -/
theorem RcRun.clear (hr : RcRun p adds s b) (hok : ∀ a ∈ adds, Guarded a.1 a.2)
    (hraw : s.heap[p]? = some raw) (hlive : raw.freed = false) : raw.refCounter.toNat ≤ 0x7FFF := by
  induction hr generalizing raw with
  | new h =>
    cases h
    rw [List.getElem?_concat_length] at hraw
    obtain rfl := Option.some.inj hraw
    show (1 : UInt16).toNat ≤ 0x7FFF
    decide
  | @add _ _ _ _ raw0 op _ hraw0 h ih =>
    obtain ⟨-, hraw', hsum, hlow⟩ := (op.run_spec hraw0).1 _ h
    obtain rfl := Option.some.inj (hraw'.symm.trans hraw)
    have hguard := hok _ (List.mem_append_right _ List.mem_cons_self)
    have hlt := (raw0.refCounter + op.amount).toNat_lt
    unfold Guarded at hguard
    split at hguard
    · exact hsum.trans_le (by assumption)
    · -- a carry that the guards see is not granted
      rcases hguard with hmask | hover
      · exact absurd hmask hlow
      · exact absurd (hsum ▸ hlt) (Nat.not_lt.mpr hover)
  | panic op _ hraw0 h ih =>
    obtain rfl := (op.run_spec hraw0).2 _ _ h
    exact ih (fun a ha => hok a (List.mem_append_left _ ha)) hraw hlive
  | release _ h ih =>
    obtain ⟨raw0, hraw0, hlive0, hless⟩ := release_refCounter h
    have hle := ih hok hraw0 hlive0
    have hone := hless raw hraw hlive
    omega

/-- **The guards, exactly.** After any sequence of additions and releases of a live task: the next
addition does what the assertion intends if and only if it is guarded; the counter is the exact
balance; and if all additions so far were guarded, `MULTIPLE_MASK` is clear. -/
theorem rc_guards_run (hr : RcRun p adds s b) (hraw : s.heap[p]? = some raw)
    (hlive : raw.freed = false) : (∀ op : RcAdd, op.Exact p s raw ↔ Guarded raw.refCounter op) ∧
    (raw.refCounter.toNat : Int) = b ∧
    ((∀ a ∈ adds, Guarded a.1 a.2) → raw.refCounter.toNat ≤ 0x7FFF) :=
  ⟨fun op => op.exact_iff hraw hlive, hr.balance hraw hlive, fun hok => hr.clear hok hraw hlive⟩

/-! ## What the guards miss -/

/-- A task that was just created has one reference. -/
theorem exists_created : ∃ (s : State Unit) (raw : RawTask Unit), RcRun 0 [] s 1 ∧
    s.heap[0]? = some raw ∧ raw.freed = false ∧ raw.refCounter = 1 := by
  obtain ⟨s0, h0, hheap⟩ : ∃ s0 : State Unit, State.new 0 = .ok s0 ∧ s0.heap = [] := ⟨_, rfl, rfl⟩
  let raw : RawTask Unit := ⟨⟨some (), []⟩, 1, 0, none, false, [.spawned []]⟩
  refine ⟨{ s0 with heap := s0.heap ++ [raw] }, raw, ?_, ?_, rfl, rfl⟩
  · have hlen : s0.heap.length = 0 := by rw [hheap]; rfl
    have hnew : taskNew ⟨some (), []⟩ s0 = .ok 0 { s0 with heap := s0.heap ++ [raw] } := by
      show EStateM.Result.ok s0.heap.length { s0 with heap := s0.heap ++ [raw] } = _
      rw [hlen]
    exact .new hnew
  · rw [hheap]
    rfl

/-- An amount of zero is refused, and a carry into `MULTIPLE_MASK` is granted. -/
theorem carry_granted_zero_refused :
    (∃ (s : State Unit) (raw : RawTask Unit), RcRun 0 [] s 1 ∧ s.heap[0]? = some raw ∧
      raw.refCounter = 1 ∧ (RcAdd.add 0).run 0 s = .error (.panic .addRcMask) s ∧
      ¬ (RcAdd.add 0).Exact 0 s raw) ∧
    ∃ (s : State Unit) (raw : RawTask Unit),
      RcRun 0 [(1, .add 0x7FFE), (0x7FFF, .inc)] s 0x8000 ∧ s.heap[0]? = some raw ∧
        raw.refCounter = 0x8000 := by
  obtain ⟨s, raw, hr, hraw, hlive, hrc⟩ := exists_created
  constructor
  · refine ⟨s, raw, hr, hraw, hrc, ?_, ?_⟩
    · show bumpRc _ _ 0 0 s = _
      rw [bumpRc_eq _ _ _ hraw hlive, hrc]
      rfl
    · rw [RcAdd.exact_iff _ hraw hlive, hrc]
      decide
  · -- one addition fills the 15 bits, the next one carries
    let s1 := s.modifyRaw 0 fun r => { r with refCounter := raw.refCounter + 0x7FFE }
    have h1 : (RcAdd.add 0x7FFE).run 0 s = .ok () s1 := by
      show bumpRc _ _ 0 0x7FFE s = _
      rw [bumpRc_eq _ _ _ hraw hlive, if_pos (by rw [hrc]; decide), if_neg (by decide)]
    have hraw1 : s1.heap[0]? = some { raw with refCounter := raw.refCounter + 0x7FFE } := by
      simp [s1, State.modifyRaw, hraw]
    let s2 := s1.modifyRaw 0 fun r => { r with refCounter := raw.refCounter + 0x7FFE + 1 }
    have h2 : RcAdd.inc.run 0 s1 = .ok () s2 := by
      show bumpRc _ _ 0 1 s1 = _
      have hfit : (raw.refCounter + 0x7FFE).toNat + (1 : UInt16).toNat < 2 ^ 16 := by
        rw [hrc]
        decide
      rw [bumpRc_eq _ _ _ hraw1 hlive, if_pos hfit, if_neg (by decide)]
    have hr2 := ((hr.add _ hraw h1).add _ hraw1 h2)
    simp only [hrc] at hr2
    refine ⟨s2, { raw with refCounter := raw.refCounter + 0x7FFE + 1 }, hr2, ?_, ?_⟩
    · simp [s2, State.modifyRaw, hraw1]
    · rw [hrc]
      rfl

/-- A fresh task: one reference can be added, none cannot. -/
theorem rc_guards_run_created :
    ∃ (s : State Unit) (raw : RawTask Unit), RcRun 0 [] s 1 ∧ s.heap[0]? = some raw ∧
    raw.freed = false ∧
      RcAdd.inc.Exact 0 s raw ∧ ¬ (RcAdd.add 0).Exact 0 s raw ∧ raw.refCounter.toNat ≤ 0x7FFF := by
  obtain ⟨s, raw, hr, hraw, hlive, hrc⟩ := exists_created
  obtain ⟨hiff, -, hclear⟩ := rc_guards_run hr hraw hlive
  refine ⟨s, raw, hr, hraw, hlive, (hiff _).mpr ?_, ?_, hclear fun a ha => nomatch ha⟩
  · rw [hrc]
    decide
  · rw [hiff, hrc]
    decide

end Onlyio
