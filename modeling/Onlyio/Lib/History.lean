import Mathlib.Tactic.Common
import Mathlib.Data.List.Induction

/-!
# Properties of histories

A history is a list that grows at its end. `Along P l` says that every entry stands to the entries
before it as `P` asks.

* `Along.snoc_iff`: one more entry.
* `Along.of_prefix`: what was true of a longer history was true before.
-/

namespace Onlyio.Lib

variable {α : Type} {P : List α → α → Prop} {l l' : List α} {a : α}

/-- Every entry has the property `P`, given the entries before it. -/
def Along (P : List α → α → Prop) (l : List α) : Prop := ∀ i a, l[i]? = some a → P (l.take i) a

namespace Along

theorem nil : Along P [] := fun _ _ h => nomatch h

theorem snoc_iff : Along P (l ++ [a]) ↔ Along P l ∧ P l a := by
  constructor
  · intro h
    constructor
    · intro i b hi
      obtain ⟨hlt, -⟩ := List.getElem?_eq_some_iff.mp hi
      have hb := h i b (by rwa [List.getElem?_append_left hlt])
      rwa [List.take_append_of_le_length (Nat.le_of_lt hlt)] at hb
    · have ha := h l.length a List.getElem?_concat_length
      rwa [List.take_left] at ha
  · rintro ⟨h, ha⟩ i b hi
    rcases Nat.lt_trichotomy i l.length with hlt | rfl | hgt
    · rw [List.getElem?_append_left hlt] at hi
      rw [List.take_append_of_le_length (Nat.le_of_lt hlt)]
      exact h i b hi
    · rw [List.getElem?_concat_length] at hi
      obtain rfl := Option.some.inj hi
      rwa [List.take_left]
    · rw [List.getElem?_eq_none (by simp; omega)] at hi
      cases hi

theorem snoc (h : Along P l) (ha : P l a) : Along P (l ++ [a]) := snoc_iff.mpr ⟨h, ha⟩

/-- Entries that have the property after any history. -/
theorem append (h : Along P l) (hl' : ∀ before, ∀ a ∈ l', P before a) : Along P (l ++ l') := by
  induction l' using List.reverseRecOn with
  | nil => rwa [List.append_nil]
  | append_singleton l' a ih =>
    rw [← List.append_assoc]
    refine (ih fun before b hb => hl' before b (List.mem_append_left _ hb)).snoc ?_
    exact hl' _ a (List.mem_append_right _ (List.mem_singleton_self a))

theorem of_prefix (h : Along P l') (hl : l <+: l') : Along P l := by
  obtain ⟨r, rfl⟩ := hl
  intro i a hi
  obtain ⟨hlt, -⟩ := List.getElem?_eq_some_iff.mp hi
  have ha := h i a (by rwa [List.getElem?_append_left hlt])
  rwa [List.take_append_of_le_length (Nat.le_of_lt hlt)] at ha

end Along

instance [∀ l, DecidablePred (P l)] : Decidable (Along P l) :=
  decidable_of_iff (∀ i : Fin l.length, P (l.take i) (l.get i)) <| by
    constructor
    · intro h i a hi
      obtain ⟨hlt, rfl⟩ := List.getElem?_eq_some_iff.mp hi
      exact h ⟨i, hlt⟩
    · intro h i
      exact h i _ (List.getElem?_eq_getElem i.isLt)

end Onlyio.Lib
