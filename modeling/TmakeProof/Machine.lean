import Mathlib.Logic.Relation
import TmakeProof.Weakest

/-! # Recursive programs as machines

A program that calls itself is awkward to reason about: while one call is
running, the calls that wait for it hold facts in their local variables, and an
invariant has to speak about all of them at once.  A **machine** makes them
visible.  It is a function `next : P → EStateM ε σ P`, where a point of `P` is
the whole stack of calls with their local variables, and one step runs the
innermost call up to its next call or return.

`Follows next bound m p k` says that the recursive program `m` does what the
machine does between the point `p` and the point `k a`, where `a` is what `m`
returns; `bound` is the reason with which a program gives up that has run out of
its recursion depth.  The rules (`Follows.bind`, `Tracks.bind`, `Tracks.last`)
follow the constructs of `do` notation.  An invariant of the steps of the
machine then holds wherever the program can be (`Follows.inv`).
-/
namespace Machine
open Relation Weakest

variable {ε σ P α β : Type} (next : P → EStateM ε σ P) (bound : ε)

/-- One step of the machine. -/
def Step (c c' : P × σ) : Prop := next c.1 c.2 = .ok c'.1 c'.2

abbrev Steps : P × σ → P × σ → Prop := ReflTransGen (Step next)

/-- After some steps from `c` the machine stops with the reason `e` in the state `t`. -/
def Halts (c : P × σ) (e : ε) (t : σ) : Prop :=
  ∃ c', Steps next c c' ∧ next c'.1 c'.2 = .error e t

/-- The two ways in which a program that the machine does not let return ends: the machine
stops too, or the program has given up where the machine goes on. -/
def Ends (c : P × σ) (e : ε) (t : σ) : Prop :=
  Halts next c e t ∨ e = bound ∧ ∃ p, Steps next c (p, t)

/-- `m` does what the machine does from `p` to `k a`. -/
def Follows (m : EStateM ε σ α) (p : P) (k : α → P) : Prop :=
  ∀ s, wp m (fun a t => Steps next (p, s) (k a, t)) (Ends next bound (p, s)) s

/-- `m` does what the machine does from its first step `n` to `k a`. -/
def Tracks (n : EStateM ε σ P) (m : EStateM ε σ α) (k : α → P) : Prop :=
  ∀ s, wp m (fun a t => ∃ c, n s = .ok c.1 c.2 ∧ Steps next c (k a, t))
    (fun e t => n s = .error e t ∨ ∃ c, n s = .ok c.1 c.2 ∧ Ends next bound c e t) s

variable {next bound}

theorem Ends.of_steps {c c' : P × σ} {e : ε} {t : σ} (h : Steps next c c')
    (he : Ends next bound c' e t) : Ends next bound c e t := by
  rcases he with ⟨c'', hs, hn⟩ | ⟨rfl, p, hs⟩
  · exact Or.inl ⟨c'', h.trans hs, hn⟩
  · exact Or.inr ⟨rfl, p, h.trans hs⟩

/-! ## Building up what a program follows -/

variable (next bound) in
theorem Follows.pure (a : α) (k : α → P) : Follows next bound (pure a) (k a) k :=
  fun _ => ReflTransGen.refl

theorem Follows.giveUp (p : P) (k : α → P) : Follows next bound (throw bound) p k :=
  fun _ => Or.inr ⟨rfl, p, ReflTransGen.refl⟩

theorem Follows.bind {m : EStateM ε σ α} {f : α → EStateM ε σ β} {p : P} {k : α → P}
    {k' : β → P} (hm : Follows next bound m p k)
    (hf : ∀ a, Follows next bound (f a) (k a) k') : Follows next bound (m >>= f) p k' := by
  intro s
  rw [wp_bind]
  refine (hm s).imp (fun a t hst => ?_) (fun e t he => he)
  exact (hf a t).imp (fun b u hu => hst.trans hu) (fun e u hu => hu.of_steps hst)

/-- To follow `m` from `p`, take the first step. -/
theorem Follows.of_next {m : EStateM ε σ α} {p : P} {k : α → P}
    (h : Tracks next bound (next p) m k) : Follows next bound m p k := by
  intro s
  refine (h s).imp (fun a t hc => ?_) (fun e t he => ?_)
  · obtain ⟨c, hn, hc⟩ := hc
    exact ReflTransGen.head hn hc
  · rcases he with hn | ⟨c, hn, hc⟩
    · exact Or.inl ⟨(p, s), ReflTransGen.refl, hn⟩
    · exact hc.of_steps (ReflTransGen.single hn)

/-- The step ends at `q`, from where the machine is followed. -/
theorem Tracks.pure {m : EStateM ε σ α} {q : P} {k : α → P} (h : Follows next bound m q k) :
    Tracks next bound (pure q) m k := by
  intro s
  exact (h s).imp (fun a t hc => ⟨(q, s), rfl, hc⟩) (fun e t he => Or.inr ⟨(q, s), rfl, he⟩)

/-- The step and the program begin alike. -/
theorem Tracks.bind {x : EStateM ε σ β} {g : β → EStateM ε σ P} {f : β → EStateM ε σ α}
    {k : α → P} (h : ∀ b, Tracks next bound (g b) (f b) k) :
    Tracks next bound (x >>= g) (x >>= f) k := by
  intro s
  cases hs : x s with
  | ok b t =>
      rw [wp_congr_run (bind_of_ok hs)]
      refine (h b t).imp (fun _ _ hc => ?_) fun _ _ hc => ?_
      · rwa [bind_of_ok hs]
      · rwa [bind_of_ok hs]
  | error e t =>
      rw [wp_congr_run (bind_error_iff.mpr (.inl hs))]
      exact Or.inl (bind_error_iff.mpr (.inl hs))

/-- The step is the whole program. -/
theorem Tracks.last (m : EStateM ε σ α) (k : α → P) :
    Tracks next bound (m >>= fun a => Pure.pure (k a)) m k := by
  intro s
  unfold wp
  cases hs : m s with
  | ok a t => exact ⟨(k a, t), bind_of_ok hs, ReflTransGen.refl⟩
  | error e t => exact Or.inl (bind_error_iff.mpr (.inl hs))

/-- The step and the program branch alike. -/
theorem Tracks.ite {c : Prop} {_ : Decidable c} {n n' : EStateM ε σ P}
    {m m' : EStateM ε σ β} {f : β → EStateM ε σ α} {k : α → P}
    (h : c → Tracks next bound n (m >>= f) k) (h' : ¬c → Tracks next bound n' (m' >>= f) k) :
    Tracks next bound (if c then n else n') ((if c then m else m') >>= f) k := by
  by_cases hc : c
  · simpa only [if_pos hc] using h hc
  · simpa only [if_neg hc] using h' hc

/-! ## Invariants -/

variable {I : P → σ → Prop} {X : ε → σ → Prop}

/-- What every step preserves, every run preserves. -/
theorem Steps.inv (hstep : ∀ p s, I p s → wp (next p) I X s) {c c' : P × σ}
    (h : Steps next c c') (hI : I c.1 c.2) : I c'.1 c'.2 := by
  induction h with
  | refl => exact hI
  | tail _ hs ih => exact wp_of_ok hs (hstep _ _ ih)

theorem Halts.inv (hstep : ∀ p s, I p s → wp (next p) I X s) {c : P × σ} {e : ε} {t : σ}
    (h : Halts next c e t) (hI : I c.1 c.2) : X e t := by
  obtain ⟨c', hs, hn⟩ := h
  exact wp_of_error hn (hstep _ _ (hs.inv hstep hI))

/-- **The invariant rule.**  A program that follows the machine from a point where the
invariant holds returns where it holds, and stops as the steps of the machine allow. -/
theorem Follows.inv {m : EStateM ε σ α} {p : P} {k : α → P} (hm : Follows next bound m p k)
    (hstep : ∀ p s, I p s → wp (next p) I X s) {s : σ} (hI : I p s) :
    wp m (fun a => I (k a)) (fun e t => X e t ∨ e = bound ∧ ∃ p, I p t) s := by
  refine (hm s).imp (fun a t h => h.inv hstep hI) (fun e t he => ?_)
  rcases he with h | ⟨he, p', h⟩
  · exact Or.inl (h.inv hstep hI)
  · exact Or.inr ⟨he, p', h.inv hstep hI⟩

/-! ## Enough depth

`Follows` says nothing about how deep a program recurses.  For that, `L` is an
invariant of the machine that bounds the depth, and `V` a property that the steps
preserve while `L` holds.  `Completes A m p k S` says that `m` does not give up:
from `p` it returns at `k a`, and `V` holds there if it held at `p`, which
it does under the assumption `A`, or if `S a`. -/

variable (next bound) (L V : P → σ → Prop)

def Completes (A : Prop) (m : EStateM ε σ α) (p : P) (k : α → P) (S : α → Prop) : Prop :=
  ∀ s, L p s → (A → V p s) →
    wp m (fun a t => L (k a) t ∧ (A ∨ S a → V (k a) t)) (fun e _ => e ≠ bound) s

/-- The same from the first step `n` of the machine. -/
def Continues (A : Prop) (n : EStateM ε σ P) (m : EStateM ε σ α) (k : α → P)
    (S : α → Prop) : Prop :=
  ∀ s, wp n (fun p t => L p t ∧ (A → V p t)) (fun _ _ => True) s →
    wp m (fun a t => L (k a) t ∧ (A ∨ S a → V (k a) t)) (fun e _ => e ≠ bound) s

/-- The steps preserve `L`, and with it `V`. -/
def Keeps : Prop :=
  ∀ p s, L p s → wp (next p) (fun p' t => L p' t ∧ (V p s → V p' t)) (fun _ _ => True) s

variable {next bound L V} {A : Prop} {m : EStateM ε σ α} {p : P} {k : α → P} {S : α → Prop}

variable (bound L V k) in
theorem Completes.pure {a : α} (h : S a → A) : Completes bound L V A (pure a) (k a) k S :=
  fun _ hL hV => ⟨hL, fun h' => hV (h'.elim id h)⟩

theorem Completes.bind {f : α → EStateM ε σ β} {k' : β → P} {S' : β → Prop}
    (hm : Completes bound L V A m p k S)
    (hf : ∀ a, Completes bound L V (A ∨ S a) (f a) (k a) k' S') :
    Completes bound L V A (m >>= f) p k' S' := by
  intro s hL hV
  rw [wp_bind]
  refine (hm s hL hV).imp (fun a t h => ?_) fun _ _ h => h
  exact (hf a t h.1 h.2).imp (fun b u h' => ⟨h'.1, fun hb => h'.2 (hb.imp Or.inl id)⟩) fun _ _ h => h

/-- A run that follows the machine and is known not to give up. -/
theorem Completes.run (hk : Keeps next L V) (hm : Follows next bound m p k) {s : σ} (hL : L p s)
    (hV : A → V p s)
    (h : wp m (fun a t => S a → A ∨ V (k a) t) (fun e _ => e ≠ bound) s) :
    wp m (fun a t => L (k a) t ∧ (A ∨ S a → V (k a) t)) (fun e _ => e ≠ bound) s := by
  have hinv : ∀ q u, (L q u ∧ (A → V q u)) →
      wp (next q) (fun q u => L q u ∧ (A → V q u)) (fun _ _ => True) u := fun q u h =>
    (hk q u h.1).imp (fun _ _ h' => ⟨h'.1, fun hA => h'.2 (h.2 hA)⟩) fun _ _ h => h
  refine ((hm.inv hinv ⟨hL, hV⟩).and h).imp (fun a t h => ?_) fun _ _ h => h.2
  obtain ⟨⟨hL', hV'⟩, hS'⟩ := h
  exact ⟨hL', fun h => h.elim hV' fun h => (hS' h).elim hV' id⟩

theorem Completes.of_next (hk : Keeps next L V)
    (h : Continues bound L V A (next p) m k S) : Completes bound L V A m p k S :=
  fun s hL hV => h s ((hk p s hL).imp (fun _ _ h => ⟨h.1, fun hA => h.2 (hV hA)⟩) fun _ _ h => h)

theorem Continues.pure {q : P} (h : Completes bound L V A m q k S) :
    Continues bound L V A (pure q) m k S := fun s hs => h s hs.1 hs.2

theorem Continues.bind {x : EStateM ε σ β} {g : β → EStateM ε σ P} {f : β → EStateM ε σ α}
    (hx : Avoids (· = bound) x) (h : ∀ b, Continues bound L V A (g b) (f b) k S) :
    Continues bound L V A (x >>= g) (x >>= f) k S := by
  intro s hs
  rw [wp_bind] at hs ⊢
  exact (hs.and (hx s)).imp (fun b t hb => h b t hb.1) fun _ _ he => he.2

end Machine
