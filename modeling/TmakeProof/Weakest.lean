import Mathlib.Order.Defs.Unbundled

/-! # Weakest preconditions for programs that can stop

A program over the state `σ` is an `EStateM ε σ α`: from a state it either
returns a value and a state, or stops with a reason `ε` and the state it had
reached.  `wp m Q E s` says that from `s` the program `m` ends in `Q` if it
returns and in `E` if it stops.  The rules below push `wp` through the
constructs of `do` notation, so that straight-line code is executed by `simp`
and a call is discharged by the callee's own specification (`wp.imp`).
-/
namespace Weakest

variable {ε σ α β : Type}

/-- From `s`, `m` returns in `Q` or stops in `E`. -/
def wp (m : EStateM ε σ α) (Q : α → σ → Prop) (E : ε → σ → Prop) (s : σ) : Prop :=
  match m s with
  | .ok a t => Q a t
  | .error e t => E e t

/-- The state in which a program ends, however it ends. -/
def final (m : EStateM ε σ α) (s : σ) : σ :=
  match m s with
  | .ok _ t => t
  | .error _ t => t

@[simp] theorem wp_pure (a : α) (Q : α → σ → Prop) (E : ε → σ → Prop) (s : σ) :
    wp (pure a) Q E s ↔ Q a s := Iff.rfl

@[simp] theorem wp_bind (m : EStateM ε σ α) (f : α → EStateM ε σ β)
    (Q : β → σ → Prop) (E : ε → σ → Prop) (s : σ) :
    wp (m >>= f) Q E s ↔ wp m (fun a => wp (f a) Q E) E s := by
  change (match EStateM.bind m f s with | .ok a t => Q a t | .error e t => E e t) ↔ _
  unfold wp EStateM.bind
  cases m s <;> rfl

@[simp] theorem wp_get (Q : σ → σ → Prop) (E : ε → σ → Prop) (s : σ) :
    wp get Q E s ↔ Q s s := Iff.rfl

@[simp] theorem wp_set (t : σ) (Q : PUnit → σ → Prop) (E : ε → σ → Prop) (s : σ) :
    wp (set t) Q E s ↔ Q ⟨⟩ t := Iff.rfl

@[simp] theorem wp_modify (f : σ → σ) (Q : PUnit → σ → Prop) (E : ε → σ → Prop) (s : σ) :
    wp (modify f) Q E s ↔ Q ⟨⟩ (f s) := Iff.rfl

@[simp] theorem wp_modifyGet (f : σ → α × σ) (Q : α → σ → Prop) (E : ε → σ → Prop) (s : σ) :
    wp (modifyGet f) Q E s ↔ Q (f s).1 (f s).2 := Iff.rfl

@[simp] theorem wp_throw (e : ε) (Q : α → σ → Prop) (E : ε → σ → Prop) (s : σ) :
    wp (throw e) Q E s ↔ E e s := Iff.rfl

@[simp] theorem wp_tryCatch (m : EStateM ε σ α) (h : ε → EStateM ε σ α)
    (Q : α → σ → Prop) (E : ε → σ → Prop) (s : σ) :
    wp (tryCatch m h) Q E s ↔ wp m Q (fun e t => wp (h e) Q E t) s := by
  change (match EStateM.tryCatch m h s with | .ok a t => Q a t | .error e t => E e t) ↔ _
  unfold wp EStateM.tryCatch
  cases m s <;> rfl

@[simp] theorem wp_ite (c : Prop) [Decidable c] (m k : EStateM ε σ α)
    (Q : α → σ → Prop) (E : ε → σ → Prop) (s : σ) :
    wp (if c then m else k) Q E s ↔ (c → wp m Q E s) ∧ (¬c → wp k Q E s) := by
  split <;> simp_all

variable {m : EStateM ε σ α} {Q Q' : α → σ → Prop} {E E' : ε → σ → Prop} {s : σ}

/-- The rule of consequence: how a caller uses the specification of a callee. -/
theorem wp.imp (h : wp m Q E s) (hQ : ∀ a t, Q a t → Q' a t) (hE : ∀ e t, E e t → E' e t) :
    wp m Q' E' s := by
  unfold wp at *
  cases hm : m s <;> simp only [hm] at h ⊢
  · exact hQ _ _ h
  · exact hE _ _ h

theorem wp.and (h : wp m Q E s) (h' : wp m Q' E' s) :
    wp m (fun a t => Q a t ∧ Q' a t) (fun e t => E e t ∧ E' e t) s := by
  unfold wp at *
  cases hm : m s <;> simp only [hm] at h h' ⊢ <;> exact ⟨h, h'⟩

theorem wp_of_ok {a : α} {t : σ} (hm : m s = .ok a t) (h : wp m Q E s) : Q a t := by
  unfold wp at h; rw [hm] at h; exact h

theorem wp_of_error {e : ε} {t : σ} (hm : m s = .error e t) (h : wp m Q E s) : E e t := by
  unfold wp at h; rw [hm] at h; exact h

/-- A run satisfies its own description. -/
theorem wp_self (m : EStateM ε σ α) (s : σ) :
    wp m (fun a t => m s = .ok a t) (fun e t => m s = .error e t) s := by
  unfold wp
  cases m s <;> rfl

theorem wp_iff : wp m Q E s ↔
    (∀ a t, m s = .ok a t → Q a t) ∧ ∀ e t, m s = .error e t → E e t := by
  refine ⟨fun h => ⟨fun _ _ hm => wp_of_ok hm h, fun _ _ hm => wp_of_error hm h⟩, fun h => ?_⟩
  unfold wp
  cases hm : m s with
  | ok a t => exact h.1 a t hm
  | error e t => exact h.2 e t hm

theorem get_bind_apply (f : σ → EStateM ε σ α) (s : σ) : (get >>= f) s = f s s := rfl

theorem wp_false (h : wp m (fun _ _ => False) (fun _ _ => False) s) : False := by
  unfold wp at h
  cases hm : m s <;> rw [hm] at h <;> exact h

theorem wp_congr_run {m' : EStateM ε σ α} {s' : σ} (h : m s = m' s') :
    wp m Q E s ↔ wp m' Q E s' := by
  unfold wp
  rw [h]

theorem wp_congr {m' : EStateM ε σ α} (h : m s = m' s) : wp m Q E s ↔ wp m' Q E s := wp_congr_run h

/-- Where a specification decides how a postcondition comes out, the program need not be run
again: the exact condition for the postcondition. -/
theorem wp.iff {C : Prop} (h : wp m Q' E' s) (hQ : ∀ a t, Q' a t → (Q a t ↔ C))
    (hE : ∀ e t, E' e t → (E e t ↔ C)) : wp m Q E s ↔ C := by
  unfold wp at *
  cases hm : m s <;> simp only [hm] at h ⊢
  · exact hQ _ _ h
  · exact hE _ _ h

theorem wp_trivial (m : EStateM ε σ α) (s : σ) : wp m (fun _ _ => True) (fun _ _ => True) s := by
  unfold wp
  cases m s <;> trivial

/-- What only the last part of a program decides. -/
theorem wp_bind_last {m : EStateM ε σ α} {f : α → EStateM ε σ β} {Q : β → σ → Prop} {s : σ}
    (hf : ∀ a t, wp (f a) Q (fun _ _ => True) t) : wp (m >>= f) Q (fun _ _ => True) s := by
  rw [wp_bind]
  exact (wp_trivial m s).imp (fun a t _ => hf a t) (fun _ _ _ => trivial)

/-- A property of both ways of ending is a property of the final state. -/
theorem wp_final {P : σ → Prop} (h : wp m (fun _ => P) (fun _ => P) s) : P (final m s) := by
  unfold wp at h; unfold final
  cases hm : m s <;> simpa only [hm] using h

/-! ## Taking a run apart -/

section Runs
variable {f : α → EStateM ε σ β} {a : α} {b : β} {t : σ} {e : ε}

theorem bind_ok_iff : (m >>= f) s = .ok b t ↔ ∃ a u, m s = .ok a u ∧ f a u = .ok b t := by
  change EStateM.bind m f s = _ ↔ _
  unfold EStateM.bind
  cases m s with
  | ok a u => exact ⟨fun h => ⟨a, u, rfl, h⟩, by rintro ⟨_, _, ⟨⟩, h⟩; exact h⟩
  | error e u =>
    constructor
    · rintro ⟨⟩
    · rintro ⟨_, _, ⟨⟩, _⟩

theorem bind_of_ok (h : m s = .ok a t) : (m >>= f) s = f a t := by
  change EStateM.bind m f s = _
  unfold EStateM.bind
  rw [h]

/-- Two programs that begin alike, and go on alike from where they then are. -/
theorem bind_congr_run {m' : EStateM ε σ α} {f' : α → EStateM ε σ β} (h : m s = m' s)
    (hf : ∀ a t, m s = .ok a t → f a t = f' a t) : (m >>= f) s = (m' >>= f') s := by
  change EStateM.bind m f s = EStateM.bind m' f' s
  unfold EStateM.bind
  rw [← h]
  cases hm : m s with
  | ok a t => exact hf a t hm
  | error e t => rfl

theorem bind_error_iff : (m >>= f) s = .error e t ↔
    m s = .error e t ∨ ∃ a u, m s = .ok a u ∧ f a u = .error e t := by
  change EStateM.bind m f s = _ ↔ _
  unfold EStateM.bind
  cases m s with
  | ok a u =>
    refine ⟨fun h => Or.inr ⟨a, u, rfl, h⟩, ?_⟩
    rintro (⟨⟨⟩⟩ | ⟨_, _, ⟨⟩, h⟩)
    exact h
  | error e u =>
    constructor
    · rintro ⟨⟩
      exact Or.inl rfl
    · rintro (⟨⟨⟩⟩ | ⟨_, _, ⟨⟩, _⟩)
      rfl

theorem pure_ok_iff {a' : α} : (pure a : EStateM ε σ α) s = .ok a' t ↔ a = a' ∧ s = t := by
  change EStateM.Result.ok a s = .ok a' t ↔ _
  simp

theorem get_ok_iff {u : σ} : (get : EStateM ε σ σ) s = .ok u t ↔ s = u ∧ s = t := by
  change EStateM.Result.ok s s = .ok u t ↔ _
  simp

theorem modify_ok_iff {g : σ → σ} {u : PUnit} :
    (modify g : EStateM ε σ PUnit) s = .ok u t ↔ g s = t := by
  change EStateM.Result.ok _ (g s) = .ok _ t ↔ _
  simp

theorem modifyGet_ok_iff {g : σ → α × σ} :
    (modifyGet g : EStateM ε σ α) s = .ok a t ↔ (g s).1 = a ∧ (g s).2 = t := by
  change EStateM.Result.ok (g s).1 (g s).2 = .ok a t ↔ _
  simp

end Runs

/-! ## What a program leaves alone -/

/-- `m` never stops for a reason in `B`. -/
def Avoids (B : ε → Prop) (m : EStateM ε σ α) : Prop :=
  ∀ s, wp m (fun _ _ => True) (fun e _ => ¬B e) s

/-- However `m` ends, the state it ends in is related by `R` to the one it started in, and it
never stops for a reason in `B`. -/
def Within (B : ε → Prop) (R : σ → σ → Prop) (m : EStateM ε σ α) : Prop :=
  ∀ s, wp m (fun _ => R s) (fun e t => ¬B e ∧ R s t) s

section Within
variable {B : ε → Prop} {R R' : σ → σ → Prop} {f : α → EStateM ε σ β}

theorem Within.avoids (hm : Within B R m) : Avoids B m :=
  fun s => (hm s).imp (fun _ _ _ => trivial) fun _ _ h => h.1

theorem Within.ok (hm : Within B R m) {a : α} {s t : σ} (h : m s = .ok a t) : R s t :=
  wp_of_ok (Q := fun _ => R s) h (hm s)

theorem Within.final (hm : Within B R m) (s : σ) : R s (final m s) :=
  wp_final ((hm s).imp (fun _ _ h => h) fun _ _ h => h.2)

theorem Within.modify {g : σ → σ} (h : ∀ s, R s (g s)) :
    Within B R (modify g : EStateM ε σ PUnit) := fun s => h s

theorem Within.modifyGet {g : σ → α × σ} (h : ∀ s, R s (g s).2) :
    Within B R (modifyGet g : EStateM ε σ α) := fun s => h s

variable [IsPreorder σ R]

theorem Within.pure (a : α) : Within B R (pure a : EStateM ε σ α) := fun s => refl_of R s

theorem Within.throw {e : ε} (he : ¬B e) : Within B R (throw e : EStateM ε σ α) :=
  fun s => ⟨he, refl_of R s⟩

theorem Within.get : Within B R (get : EStateM ε σ σ) := fun s => refl_of R s

theorem Within.bind (hm : Within B R m) (hf : ∀ a, Within B R (f a)) : Within B R (m >>= f) := by
  intro s
  rw [wp_bind]
  refine (hm s).imp (fun a t hst => ?_) (fun _ _ h => h)
  exact (hf a t).imp (fun _ _ h => trans_of R hst h) (fun _ _ h => ⟨h.1, trans_of R hst h.2⟩)

theorem Within.tryCatch {h : ε → EStateM ε σ α} (hm : Within B R m)
    (hh : ∀ e, Within B R (h e)) : Within B R (tryCatch m h) := by
  intro s
  rw [wp_tryCatch]
  refine (hm s).imp (fun _ _ h => h) (fun e t hst => ?_)
  exact (hh e t).imp (fun _ _ h => trans_of R hst.2 h) (fun _ _ h => ⟨h.1, trans_of R hst.2 h.2⟩)

end Within

theorem Within.ite {B : ε → Prop} {R : σ → σ → Prop} {c : Prop} [Decidable c]
    {m n : EStateM ε σ α} (hm : c → Within B R m) (hn : ¬c → Within B R n) :
    Within B R (if c then m else n) := by
  split
  · exact hm ‹_›
  · exact hn ‹_›

/-- From a state in `I`, `m` returns in `I` and stops in `J`. -/
def Preserves (I J : σ → Prop) (m : EStateM ε σ α) : Prop :=
  ∀ s, I s → wp m (fun _ => I) (fun _ => J) s

section Preserves
variable {I J : σ → Prop} {f : α → EStateM ε σ β}

theorem Preserves.pure (a : α) : Preserves I J (pure a : EStateM ε σ α) := fun _ h => h

theorem Preserves.get : Preserves I J (get : EStateM ε σ σ) := fun _ h => h

theorem Preserves.bind (hm : Preserves I J m) (hf : ∀ a, Preserves I J (f a)) :
    Preserves I J (m >>= f) := by
  intro s hs
  rw [wp_bind]
  exact (hm s hs).imp (fun a t ht => hf a t ht) fun _ _ h => h

theorem Preserves.ite {c : Prop} [Decidable c] {m n : EStateM ε σ α}
    (hm : c → Preserves I J m) (hn : ¬c → Preserves I J n) :
    Preserves I J (if c then m else n) := by
  split
  · exact hm ‹_›
  · exact hn ‹_›

/-- What is reached from `s` under a relation. -/
theorem Within.preserves {B : ε → Prop} {R : σ → σ → Prop} [IsPreorder σ R] (hm : Within B R m)
    (s : σ) : Preserves (R s) (R s) m := fun t ht =>
  (hm t).imp (fun _ _ h => trans_of R ht h) fun _ _ h => trans_of R ht h.2

end Preserves

section Avoids
variable {B : ε → Prop} {f : α → EStateM ε σ β}

theorem Avoids.pure (a : α) : Avoids B (pure a : EStateM ε σ α) := fun _ => trivial

theorem Avoids.bind (hm : Avoids B m) (hf : ∀ a, Avoids B (f a)) : Avoids B (m >>= f) := by
  intro s
  rw [wp_bind]
  exact (hm s).imp (fun a t _ => hf a t) (fun _ _ h => h)

theorem Avoids.ite {c : Prop} [Decidable c] {m n : EStateM ε σ α}
    (hm : c → Avoids B m) (hn : ¬c → Avoids B n) : Avoids B (if c then m else n) := by
  split
  · exact hm ‹_›
  · exact hn ‹_›

end Avoids

end Weakest
