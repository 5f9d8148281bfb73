import Onlyio.Lib.Hoare
import Mathlib.Algebra.BigOperators.Group.List.Basic

/-!
# Programs that hold resources

An account `I s T` relates a state to the resources that exist, wherever they are. `Triple I X x Y`
says that `x` keeps the account when it is given `X` and hands back `Y`; what anyone else holds is
the frame, and stays. A failing program promises nothing.

* `Triple.ret`, `Triple.fail`, `Triple.seq`, `Triple.look`, `Triple.update`, `Triple.cond`: one rule
  per construct.
* `Triple.frame`: what the program is not given stays; `Triple.run`: there is nobody else.
* `sum_map_modify`: what a list of holders has after one of them changed.
-/

namespace Onlyio.Lib

section Triples

variable {ε S R α β : Type} [AddCommMonoid R] {I : S → R → Prop} {X X' : R} {Y : α → R} {Z : β → R}
  {x y : EStateM ε S α}

/-- Given `X`, the program keeps the account and hands back `Y`. -/
def Triple (I : S → R → Prop) (X : R) (x : EStateM ε S α) (Y : α → R) : Prop :=
  ∀ s F, I s (F + X) → wp x (fun a s' => I s' (F + Y a)) (fun _ _ => True) s

namespace Triple

theorem ret (a : α) (ha : X = Y a) : Triple I X (pure a : EStateM ε S α) Y := by
  intro s F h
  rw [wp_pure, ← ha]
  exact h

theorem fail (e : ε) : Triple I X (throw e : EStateM ε S α) Y := fun _ _ _ => trivial

theorem seq {f : α → EStateM ε S β} (hx : Triple I X x Y) (hf : ∀ a, Triple I (Y a) (f a) Z) :
    Triple I X (x >>= f) Z := by
  intro s F h
  rw [wp_bind]
  exact wp_mono (hx s F h) (fun a s1 h1 => hf a s1 F h1) fun _ _ h => h

/-- What is left of a run that nobody else holds anything in. -/
theorem run {s s' : S} {a : α} (hx : Triple I X x Y) (h : I s X) (hr : x s = .ok a s') :
    I s' (Y a) := by
  have h' := wp_ok (hx s 0 (by rwa [zero_add])) hr
  rwa [zero_add] at h'

/-- What the program is not given stays. -/
theorem frame (hx : Triple I X x Y) (W : R) : Triple I (X + W) x fun a => Y a + W := by
  intro s F h
  rw [add_comm X, ← add_assoc] at h
  refine wp_mono (hx s _ h) (fun a s1 h1 => ?_) fun _ _ h => h
  show I s1 (F + (Y a + W))
  rwa [add_comm (Y a), ← add_assoc]

/-- A program that looks at the state. -/
theorem look {f : S → EStateM ε S α} (hf : ∀ s0, Triple I X (f s0) Y) :
    Triple I X (get >>= f) Y := by
  intro s F h
  rw [wp_bind, wp_get]
  exact hf s s F h

theorem update {f : S → S} (hf : ∀ s F, I s (F + X) → I (f s) (F + X')) :
    Triple I X (modify f : EStateM ε S Unit) fun _ => X' :=
  fun s F h => hf s F h

theorem cond {c : Prop} [Decidable c] (hx : c → Triple I X x Y) (hy : ¬ c → Triple I X y Y) :
    Triple I X (if c then x else y) Y := by
  intro s F h
  rw [wp_ite]
  exact ⟨fun hc => hx hc s F h, fun hc => hy hc s F h⟩

end Triple

end Triples

section Sums

variable {α M : Type} [AddCommMonoid M]

/-- One entry of a list changes. -/
theorem sum_map_modify {l : List α} {p : Nat} {a : α} (h : l[p]? = some a) (f : α → α) (g : α → M) :
    ((l.modify p f).map g).sum + g a = (l.map g).sum + g (f a) := by
  induction l generalizing p with
  | nil => simp at h
  | cons b l ih =>
    cases p with
    | zero =>
      obtain rfl := Option.some.inj h
      simp only [List.modify_zero_cons, List.map_cons, List.sum_cons]
      rw [add_right_comm, add_comm (g (f b)), add_right_comm]
    | succ p =>
      simp only [List.modify_succ_cons, List.map_cons, List.sum_cons, add_assoc]
      rw [ih (by simpa using h)]

end Sums

end Onlyio.Lib
