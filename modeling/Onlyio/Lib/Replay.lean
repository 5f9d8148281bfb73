import Mathlib.Tactic.Common

/-!
# Reactive machines

A `Reactor` runs by itself (`next`) until it waits, and then takes an input (`take`). Both are
functions, so that its inputs determine it.

* `Replay.head`: a replay from its first move.
* **`Replay.follow`**: of two replays on inputs of which the first are a prefix, the second
  continues the first one, unless it stops short of the state in which the first one waits.
* `Replay.unique`: the same inputs lead to the same waiting state.
-/

namespace Onlyio.Lib

/-- A deterministic machine with states `S` and inputs `I`; `next` is `none` where it waits. -/
structure Reactor (S I : Type) where
  next : S → Option S
  take : S → I → Option S

variable {S I : Type} {M : Reactor S I} {s s1 s2 : S} {i : I} {l l1 l2 : List I}

/-- From `s`, the inputs `l` lead to a state; inputs are taken where the machine waits. -/
inductive Replay (M : Reactor S I) (s : S) : List I → S → Prop where
  | refl : Replay M s [] s
  | next {l : List I} {s1 s2 : S} (h : Replay M s l s1) (hn : M.next s1 = some s2) : Replay M s l s2
  | take {l : List I} {s1 s2 : S} {i : I} (h : Replay M s l s1) (hw : M.next s1 = none)
      (ht : M.take s1 i = some s2) : Replay M s (l ++ [i]) s2

namespace Replay

theorem trans (h1 : Replay M s l1 s1) (h2 : Replay M s1 l2 s2) : Replay M s (l1 ++ l2) s2 := by
  induction h2 with
  | refl => rwa [List.append_nil]
  | next _ hn ih => exact ih.next hn
  | take _ hw ht ih =>
    rw [← List.append_assoc]
    exact ih.take hw ht

/-- The first move of a replay. -/
theorem head (h : Replay M s l s2) :
    (l = [] ∧ s2 = s) ∨ (∃ s1, M.next s = some s1 ∧ Replay M s1 l s2) ∨
      M.next s = none ∧ ∃ i rest s1, l = i :: rest ∧ M.take s i = some s1 ∧
      Replay M s1 rest s2 := by
  induction h with
  | refl => exact .inl ⟨rfl, rfl⟩
  | @next l s1 s2 h hn ih =>
    obtain ⟨rfl, rfl⟩ | ⟨s0, h0, h'⟩ | ⟨hw, i, rest, s0, rfl, h0, h'⟩ := ih
    · exact .inr (.inl ⟨s2, hn, .refl⟩)
    · exact .inr (.inl ⟨s0, h0, h'.next hn⟩)
    · exact .inr (.inr ⟨hw, i, rest, s0, rfl, h0, h'.next hn⟩)
  | @take l s1 s2 i h hw ht ih =>
    obtain ⟨rfl, rfl⟩ | ⟨s0, h0, h'⟩ | ⟨hw0, j, rest, s0, rfl, h0, h'⟩ := ih
    · exact .inr (.inr ⟨hw, i, [], s2, rfl, ht, .refl⟩)
    · exact .inr (.inl ⟨s0, h0, h'.take hw ht⟩)
    · exact .inr (.inr ⟨hw0, j, rest ++ [i], s0, rfl, h0, h'.take hw ht⟩)

/-- The inputs determine the machine: a replay on more inputs continues one on fewer. On the same
inputs, one of the two continues the other. -/
theorem follow (h1 : Replay M s l1 s1) (h2 : Replay M s (l1 ++ l) s2) :
    Replay M s1 l s2 ∨ l = [] ∧ Replay M s2 [] s1 := by
  induction h1 generalizing l with
  | refl => exact .inl h2
  | @next l1 s1 s1' h hn ih =>
    obtain h' | ⟨rfl, h'⟩ := ih h2
    · obtain ⟨rfl, rfl⟩ | ⟨s0, h0, h'⟩ | ⟨hw, -⟩ := h'.head
      · exact .inr ⟨rfl, Replay.refl.next hn⟩
      · rw [hn, Option.some.injEq] at h0
        subst h0
        exact .inl h'
      · rw [hn] at hw
        cases hw
    · exact .inr ⟨rfl, h'.next hn⟩
  | @take l1 s1 s1' i h hw ht ih =>
    rw [List.append_assoc] at h2
    obtain h' | ⟨hnil, -⟩ := ih h2
    · obtain ⟨hnil, -⟩ | ⟨s0, h0, -⟩ | ⟨-, j, rest, s0, heq, h0, h'⟩ := h'.head
      · cases hnil
      · rw [hw] at h0
        cases h0
      · obtain ⟨rfl, rfl⟩ := List.cons.inj heq
        rw [ht, Option.some.injEq] at h0
        subst h0
        exact .inl h'
    · cases hnil

/-- A machine that waits makes no move of its own. -/
theorem eq_of_waiting (h : Replay M s [] s1) (hw : M.next s = none) : s1 = s := by
  obtain ⟨-, rfl⟩ | ⟨s0, h0, -⟩ | ⟨-, i, rest, s0, heq, -⟩ := h.head
  · rfl
  · rw [hw] at h0
    cases h0
  · cases heq

/-- **The same inputs lead to the same waiting state.** -/
theorem unique (h1 : Replay M s l s1) (h2 : Replay M s l s2) (hw1 : M.next s1 = none)
    (hw2 : M.next s2 = none) : s1 = s2 := by
  rw [← List.append_nil l] at h2
  obtain h | ⟨-, h⟩ := h1.follow h2
  · exact (h.eq_of_waiting hw1).symm
  · exact h.eq_of_waiting hw2

/-- What no move undoes. -/
theorem invariant {R : S → S → Prop} (h : Replay M s l s1) (hrefl : R s s)
    (hn : ∀ s1 s2, M.next s1 = some s2 → R s s1 → R s s2)
    (ht : ∀ s1 i s2, M.take s1 i = some s2 → R s s1 → R s s2) : R s s1 := by
  induction h with
  | refl => exact hrefl
  | next _ h ih => exact hn _ _ h ih
  | take _ _ h ih => exact ht _ _ _ h ih

end Replay

end Onlyio.Lib
