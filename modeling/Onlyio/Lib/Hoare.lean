import Mathlib.Tactic.Common

/-!
# Pre- and postconditions of stateful programs that can fail

`wp x Q E s` is the weakest precondition of an `EStateM` program: `x` run at `s` either returns
in a state where `Q` holds, or fails in a state where `E` holds. The failing state is kept, so
that `E` can speak about it.

* `wp_bind`, `wp_pure`, `wp_get`, `wp_modify`, `wp_throw`: one rule per construct, for `simp only`.
* `get_run`, `modify_run`: what they return.
* `wp_mono`, `wp_and`: consequence, and two specifications of one program joined.
-/

namespace Onlyio.Lib

variable {ε S α β : Type}

/-- `x` run at `s` returns with `Q` or fails with `E`. -/
def wp (x : EStateM ε S α) (Q : α → S → Prop) (E : ε → S → Prop) (s : S) : Prop :=
  match x s with
  | .ok a s' => Q a s'
  | .error e s' => E e s'

theorem wp_def (x : EStateM ε S α) (Q : α → S → Prop) (E : ε → S → Prop) (s : S) :
    wp x Q E s ↔ (∀ a s', x s = .ok a s' → Q a s') ∧ (∀ e s', x s = .error e s' → E e s') := by
  unfold wp
  cases x s with
  | ok a s' => simp
  | error e s' => simp

theorem wp_ok {x : EStateM ε S α} {Q : α → S → Prop} {E : ε → S → Prop} {s s' : S} {a : α}
    (h : wp x Q E s) (hx : x s = .ok a s') : Q a s' :=
  ((wp_def x Q E s).mp h).1 a s' hx

theorem wp_error {x : EStateM ε S α} {Q : α → S → Prop} {E : ε → S → Prop} {s s' : S} {e : ε}
    (h : wp x Q E s) (hx : x s = .error e s') : E e s' :=
  ((wp_def x Q E s).mp h).2 e s' hx

theorem bind_of_ok {x : EStateM ε S α} {f : α → EStateM ε S β} {s s' : S} {a : α}
    (h : x s = .ok a s') : (x >>= f) s = f a s' := by
  simp only [bind, EStateM.bind, h]

/-- A program that returns has returned from each of its parts. -/
theorem bind_ok {x : EStateM ε S α} {f : α → EStateM ε S β} {s s' : S} {b : β}
    (h : (x >>= f) s = .ok b s') : ∃ a s1, x s = .ok a s1 ∧ f a s1 = .ok b s' := by
  cases hx : x s with
  | error e s1 =>
    simp only [bind, EStateM.bind, hx] at h
    cases h
  | ok a s1 =>
    simp only [bind, EStateM.bind, hx] at h
    exact ⟨a, s1, rfl, h⟩

theorem toOption_eq_some {x : Except ε α} {a : α} : x.toOption = some a ↔ x = .ok a := by
  cases x with
  | error e => simp [Except.toOption]
  | ok b => simp [Except.toOption]

theorem wp_mono {x : EStateM ε S α} {Q Q' : α → S → Prop} {E E' : ε → S → Prop} {s : S}
    (h : wp x Q E s) (hQ : ∀ a s', Q a s' → Q' a s') (hE : ∀ e s', E e s' → E' e s') :
    wp x Q' E' s := by
  rw [wp_def] at h ⊢
  exact ⟨fun a s' hx => hQ a s' (h.1 a s' hx), fun e s' hx => hE e s' (h.2 e s' hx)⟩

theorem wp_and {x : EStateM ε S α} {Q Q' : α → S → Prop} {E E' : ε → S → Prop} {s : S}
    (h : wp x Q E s) (h' : wp x Q' E' s) :
    wp x (fun a s' => Q a s' ∧ Q' a s') (fun e s' => E e s' ∧ E' e s') s := by
  rw [wp_def] at h h' ⊢
  exact ⟨fun a s' hx => ⟨h.1 a s' hx, h'.1 a s' hx⟩, fun e s' hx => ⟨h.2 e s' hx, h'.2 e s' hx⟩⟩

/-- Every program satisfies the trivial postconditions. -/
theorem wp_trivial (x : EStateM ε S α) (s : S) : wp x (fun _ _ => True) (fun _ _ => True) s := by
  rw [wp_def]
  exact ⟨fun _ _ _ => trivial, fun _ _ _ => trivial⟩

theorem wp_of_forall {x : EStateM ε S α} {Q : α → S → Prop} {E : ε → S → Prop} {s : S}
    (hQ : ∀ a s', Q a s') (hE : ∀ e s', E e s') : wp x Q E s :=
  wp_mono (wp_trivial x s) (fun a s' _ => hQ a s') fun e s' _ => hE e s'

/-! ## One rule per construct -/

theorem get_run (s : S) : (get : EStateM ε S S) s = .ok s s := rfl

theorem modify_run (f : S → S) (s : S) : (modify f : EStateM ε S Unit) s = .ok () (f s) := rfl

@[simp] theorem wp_pure (a : α) (Q : α → S → Prop) (E : ε → S → Prop) (s : S) :
    wp (pure a : EStateM ε S α) Q E s ↔ Q a s := Iff.rfl

@[simp] theorem wp_bind (x : EStateM ε S α) (f : α → EStateM ε S β) (Q : β → S → Prop)
    (E : ε → S → Prop) (s : S) :
    wp (x >>= f) Q E s ↔ wp x (fun a s' => wp (f a) Q E s') E s := by
  show wp (EStateM.bind x f) Q E s ↔ _
  unfold wp EStateM.bind
  cases x s <;> rfl

@[simp] theorem wp_get (Q : S → S → Prop) (E : ε → S → Prop) (s : S) :
    wp (get : EStateM ε S S) Q E s ↔ Q s s := Iff.rfl

@[simp] theorem wp_modify (f : S → S) (Q : Unit → S → Prop) (E : ε → S → Prop) (s : S) :
    wp (modify f : EStateM ε S Unit) Q E s ↔ Q () (f s) := Iff.rfl

@[simp] theorem wp_throw (e : ε) (Q : α → S → Prop) (E : ε → S → Prop) (s : S) :
    wp (throw e : EStateM ε S α) Q E s ↔ E e s := Iff.rfl

theorem wp_ite (c : Prop) [Decidable c] (x y : EStateM ε S α) (Q : α → S → Prop)
    (E : ε → S → Prop) (s : S) :
    wp (if c then x else y) Q E s ↔ (c → wp x Q E s) ∧ (¬ c → wp y Q E s) := by
  by_cases h : c <;> simp [h]

/-! ## Programs that fail more often -/

/-- What `x` returns, `y` returns. -/
def Returns (x y : EStateM ε S α) : Prop := ∀ s a s', x s = .ok a s' → y s = .ok a s'

theorem Returns.refl (x : EStateM ε S α) : Returns x x := fun _ _ _ h => h

theorem Returns.bind {x y : EStateM ε S α} {f g : α → EStateM ε S β} (hx : Returns x y)
    (hf : ∀ a, Returns (f a) (g a)) : Returns (x >>= f) (y >>= g) := by
  intro s b s' h
  obtain ⟨a, s1, hxa, hfb⟩ := bind_ok h
  have hy : (y >>= g) s = g a s1 := by
    simp only [Bind.bind, EStateM.bind, hx s a s1 hxa]
  rw [hy]
  exact hf a s1 b s' hfb

end Onlyio.Lib
