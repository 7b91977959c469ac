import Mathlib.Logic.Basic

/-! # Two programs in lockstep

A program that can fail is run twice, from states that differ in something that
it is not supposed to notice.  `Alike X S R x y` says that it did not: both runs
succeed, with results that `R` relates, or both fail for the same reason, which
is one in `S`.  The second run is excused if it fails for a reason in `X`.
-/
namespace Lockstep

variable {ε α β γ δ : Type} {X S : ε → Prop}

/-- Two runs end alike. -/
def Alike (X S : ε → Prop) (R : α → β → Prop) : Except ε α → Except ε β → Prop
  | .ok a, .ok b => R a b
  | .ok _, .error e => X e
  | .error _, .ok _ => False
  | .error e, .error e' => X e' ∨ e = e' ∧ S e

theorem Alike.pure {R : α → β → Prop} {a : α} {b : β} (h : R a b) :
    Alike X S R (.ok a) (.ok b) := h

theorem Alike.fail {R : α → β → Prop} {e : ε} (h : S e) : Alike X S R (.error e) (.error e) :=
  .inr ⟨rfl, h⟩

theorem Alike.excused {R : α → β → Prop} {x : Except ε α} {e : ε} (h : X e) :
    Alike X S R x (.error e) := by
  cases x with
  | ok a => exact h
  | error e' => exact .inl h

theorem Alike.bind {R : α → β → Prop} {Q : γ → δ → Prop} {x : Except ε α} {y : Except ε β}
    {f : α → Except ε γ} {g : β → Except ε δ} (h : Alike X S R x y)
    (hfg : ∀ a b, R a b → Alike X S Q (f a) (g b)) : Alike X S Q (x >>= f) (y >>= g) := by
  cases x with
  | ok a =>
    cases y with
    | ok b => exact hfg a b h
    | error e => exact .excused h
  | error e =>
    cases y with
    | ok b => exact h.elim
    | error e' => exact h

/-- The same loop, in both runs over the same list. -/
theorem Alike.foldlM {R : α → β → Prop} {f : α → γ → Except ε α} {g : β → γ → Except ε β}
    (hfg : ∀ a b c, R a b → Alike X S R (f a c) (g b c)) :
    ∀ (l : List γ) {a : α} {b : β}, R a b → Alike X S R (l.foldlM f a) (l.foldlM g b)
  | [], _, _, h => h
  | c :: l, a, b, h => by
    rw [List.foldlM_cons, List.foldlM_cons]
    exact (hfg a b c h).bind fun _ _ h => Alike.foldlM hfg l h

/-- The first run is one that succeeds, and the second needs no excuse. -/
theorem Alike.ok {R : α → β → Prop} {a : α} {y : Except ε β} (h : Alike X S R (.ok a) y)
    (hX : ∀ e, ¬X e) : ∃ b, y = .ok b ∧ R a b := by
  cases y with
  | ok b => exact ⟨b, rfl, h⟩
  | error e => exact absurd h (hX e)

end Lockstep
