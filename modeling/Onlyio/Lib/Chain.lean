import Mathlib.Tactic.Common
import Mathlib.Data.List.Nodup
import Mathlib.Logic.Function.Basic

/-!
# Free lists threaded through the nodes they list

`next` gives each free node its successor and is `none` on the others. `FreeChain next head n l`
says that following `next` from `head` visits exactly the free nodes, in the order `l`, each once,
and arrives at the terminator `n`.

* `FreeChain.pop`, `FreeChain.push`: a node leaves at the head, a node comes back at the head.
* `FreeChain.grow`: a full list of nodes followed by fresh chained ones.
-/

namespace Onlyio.Lib

/-- Following `next` from `a` visits the nodes of the list in order and arrives at `z`. -/
def Path (next : Nat → Option Nat) (z : Nat) : Nat → List Nat → Prop
  | a, [] => a = z
  | a, b :: l => a = b ∧ ∃ c, next b = some c ∧ Path next z c l

/-- The free list of the nodes below `n`. -/
structure FreeChain (next : Nat → Option Nat) (head n : Nat) (l : List Nat) : Prop where
  path : Path next n head l
  nodup : l.Nodup
  mem_iff : ∀ i, i ∈ l ↔ (next i).isSome
  lt : ∀ i ∈ l, i < n

variable {next next' : Nat → Option Nat} {head n z : Nat} {l : List Nat}

/-- A path does not depend on the nodes it does not visit. -/
theorem Path.congr (h : ∀ i ∈ l, next' i = next i) :
    ∀ {a : Nat}, Path next z a l → Path next' z a l := by
  induction l with
  | nil => exact fun hp => hp
  | cons b l ih =>
    rintro a ⟨rfl, c, hc, hp⟩
    refine ⟨rfl, c, ?_, ih (fun i hi => h i (List.mem_cons_of_mem _ hi)) hp⟩
    rw [h a List.mem_cons_self, hc]

/-- Nodes that link each to the following one. -/
theorem path_range (next : Nat → Option Nat) (k : Nat) :
    ∀ {a : Nat}, (∀ i, a ≤ i → i < a + k → next i = some (i + 1)) →
      Path next (a + k) a (List.range' a k) := by
  induction k with
  | zero => exact fun _ => rfl
  | succ k ih =>
    intro a h
    rw [List.range'_succ]
    refine ⟨rfl, a + 1, h a (Nat.le_refl a) (by omega), ?_⟩
    rw [show a + (k + 1) = a + 1 + k by omega]
    exact ih fun i h1 h2 => h i (by omega) (by omega)

namespace FreeChain

/-- The head is the terminator exactly when no node is free. -/
theorem head_eq_iff (h : FreeChain next head n l) : head = n ↔ l = [] := by
  cases l with
  | nil => exact ⟨fun _ => rfl, fun _ => h.path⟩
  | cons b l =>
    have hlt := h.lt b List.mem_cons_self
    have hb : head = b := h.path.1
    simp only [reduceCtorEq, iff_false]
    omega

/-- The head of a non-empty list is its first node. -/
theorem head_mem (h : FreeChain next head n l) (hne : head ≠ n) : head ∈ l := by
  cases l with
  | nil => exact absurd h.path hne
  | cons b l => exact h.path.1 ▸ List.mem_cons_self

/-- The first node is taken. -/
theorem pop (h : FreeChain next head n l) {c : Nat} (hc : next head = some c)
    (hhead : next' head = none) (hother : ∀ i, i ≠ head → next' i = next i) :
    FreeChain next' c n l.tail := by
  obtain ⟨hp, hn, hm, hlt⟩ := h
  cases l with
  | nil =>
    have : head ∈ [] := (hm head).mpr (by rw [hc]; rfl)
    cases this
  | cons b l =>
    obtain ⟨rfl, c', hc', hp⟩ := hp
    obtain rfl : c' = c := by rw [hc] at hc'; exact (Option.some.inj hc').symm
    rw [List.nodup_cons] at hn
    refine ⟨?_, hn.2, fun i => ?_, fun i hi => hlt i (List.mem_cons_of_mem _ hi)⟩
    · exact hp.congr fun i hi => hother i fun he => hn.1 (he ▸ hi)
    · by_cases hi : i = head
      · subst hi
        simp [hhead, hn.1]
      · rw [hother i hi, ← hm i]
        simp [hi]

/-- A node comes back as the first one. -/
theorem push (h : FreeChain next head n l) {i : Nat} (hi : i < n) (hnone : next i = none)
    (hnext : next' i = some head) (hother : ∀ j, j ≠ i → next' j = next j) :
    FreeChain next' i n (i :: l) := by
  have hmem : i ∉ l := fun hl => by simpa [hnone] using (h.mem_iff i).mp hl
  refine ⟨⟨rfl, head, hnext, ?_⟩, List.nodup_cons.mpr ⟨hmem, h.nodup⟩, fun j => ?_, ?_⟩
  · exact h.path.congr fun j hj => hother j fun he => hmem (he ▸ hj)
  · by_cases hj : j = i
    · subst hj
      simp [hnext]
    · rw [hother j hj, ← h.mem_iff j]
      simp [hj]
  · intro j hj
    rcases List.mem_cons.mp hj with rfl | hj
    · exact hi
    · exact h.lt j hj

/-- No node below `n` is free, and the nodes from `n` on are chained. -/
theorem grow {m : Nat} (hnm : n ≤ m) (hold : ∀ i, i < n → next i = none)
    (hnew : ∀ i, n ≤ i → i < m → next i = some (i + 1)) (hout : ∀ i, m ≤ i → next i = none) :
    FreeChain next n m (List.range' n (m - n)) := by
  refine ⟨?_, List.nodup_range', fun i => ?_, fun i hi => ?_⟩
  · have h := path_range next (m - n) (a := n) fun i h1 h2 => hnew i h1 (by omega)
    rwa [show n + (m - n) = m by omega] at h
  · rw [List.mem_range'_1]
    by_cases h1 : i < n
    · simp [hold i h1, show ¬ n ≤ i by omega]
    · by_cases h2 : i < m
      · simp only [hnew i (by omega) h2, Option.isSome_some, iff_true]
        omega
      · simp only [hout i (by omega), Option.isSome_none, Bool.false_eq_true, iff_false]
        omega
  · rw [List.mem_range'_1] at hi
    omega

end FreeChain

end Onlyio.Lib
