import Onlyio.Lib.Custody

/-!
# Programs that hold resources and fail only as allowed

`Assured I E X x Y` is `Triple I X x Y` with a condition on the states in which `x` fails: given
`X`, the program keeps the account and hands back `Y`, or fails with `E`.

* `Assured.ret`, `Assured.fail`, `Assured.seq`, `Assured.look`, `Assured.update`, `Assured.cond`:
  one rule per construct.
* `Assured.weaken`: resources that the account does not tell apart.
* `Assured.frame`, `Assured.run`: what the program is not given stays; there is nobody else.
-/

namespace Onlyio.Lib

variable {ε S R α β : Type} [AddCommMonoid R] {I : S → R → Prop} {E : ε → S → Prop}
  {X X' : R} {Y : α → R} {Z : β → R} {x y : EStateM ε S α}

/-- Given `X`, the program keeps the account and hands back `Y`, or fails with `E`. -/
def Assured (I : S → R → Prop) (E : ε → S → Prop) (X : R) (x : EStateM ε S α) (Y : α → R) : Prop :=
  ∀ s F, I s (F + X) → wp x (fun a s' => I s' (F + Y a)) E s

namespace Assured

theorem ret (a : α) (ha : X = Y a) : Assured I E X (pure a : EStateM ε S α) Y := by
  intro s F h
  rw [wp_pure, ← ha]
  exact h

theorem fail {e : ε} (he : ∀ s F, I s (F + X) → E e s) :
    Assured I E X (throw e : EStateM ε S α) Y :=
  fun s F h => he s F h

theorem seq {f : α → EStateM ε S β} (hx : Assured I E X x Y) (hf : ∀ a, Assured I E (Y a) (f a) Z) :
    Assured I E X (x >>= f) Z := by
  intro s F h
  rw [wp_bind]
  exact wp_mono (hx s F h) (fun a s1 h1 => hf a s1 F h1) fun _ _ h => h

/-- A program that looks at the state. -/
theorem look {f : S → EStateM ε S α} (hf : ∀ s0, Assured I E X (f s0) Y) :
    Assured I E X (get >>= f) Y := by
  intro s F h
  rw [wp_bind, wp_get]
  exact hf s s F h

theorem update {f : S → S} (hf : ∀ s F, I s (F + X) → I (f s) (F + X')) :
    Assured I E X (modify f : EStateM ε S Unit) fun _ => X' :=
  fun s F h => hf s F h

theorem cond {c : Prop} [Decidable c] (hx : c → Assured I E X x Y) (hy : ¬ c → Assured I E X y Y) :
    Assured I E X (if c then x else y) Y := by
  intro s F h
  rw [wp_ite]
  exact ⟨fun hc => hx hc s F h, fun hc => hy hc s F h⟩

/-- Resources that the account does not tell apart. -/
theorem weaken (hx : Assured I E X' x Y) (hX : ∀ s F, I s (F + X) → I s (F + X')) :
    Assured I E X x Y :=
  fun s F h => hx s F (hX s F h)

/-- What the program is not given stays. -/
theorem frame (hx : Assured I E X x Y) (W : R) : Assured I E (X + W) x fun a => Y a + W := by
  intro s F h
  rw [add_comm X, ← add_assoc] at h
  refine wp_mono (hx s _ h) (fun a s1 h1 => ?_) fun _ _ h => h
  show I s1 (F + (Y a + W))
  rwa [add_comm (Y a), ← add_assoc]

/-- A run of the program, when nobody else holds anything. -/
theorem run (hx : Assured I E X x Y) {s : S} (h : I s X) : wp x (fun a s' => I s' (Y a)) E s := by
  refine wp_mono (hx s 0 (by rwa [zero_add])) (fun a s' h' => ?_) fun _ _ h => h
  rwa [zero_add] at h'

end Assured

end Onlyio.Lib
