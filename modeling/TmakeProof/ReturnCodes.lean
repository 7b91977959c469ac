import TmakeProof.Weakest

/-! # Return codes

Programs in which a command that does not end normally ends with a return code.
The code goes up through the commands around it until it comes to one that knows
it: a procedure knows `return`, a `foreach` knows `break` and `continue`, and
`catch` turns any code into a value, apart from `exit`.  However a command ends,
the state that it has left is kept.
-/
namespace ReturnCodes
open Weakest

/-- How a command ends that does not end normally. -/
inductive Exit where
  | error
  | ret
  /-- `return -code`: the procedure around ends with this code. -/
  | retCode (code : Exit)
  | brk
  | cont
  /-- A code that no command knows. -/
  | custom (n : Nat)
  /-- `exit`: the process ends with this status. -/
  | quit (status : Nat)
  deriving DecidableEq, Repr

abbrev Eval (σ α : Type) := EStateM Exit σ α

/-- With what the procedure ends, if its body ends like this. -/
def Exit.leaveProc : Exit → Option Exit
  | ret => none
  | retCode e => some e
  | e => some e

variable {σ α : Type}

/-- A command has ended, with a code or normally. -/
def ended (rc : Option Exit) (s : σ) : EStateM.Result Exit σ Unit :=
  match rc with
  | none => .ok () s
  | some e => .error e s

/-- The body of a procedure. -/
def proc (body : Eval σ Unit) : Eval σ Unit := fun s =>
  match body s with
  | .ok () t => .ok () t
  | .error e t => ended e.leaveProc t

/-- `catch`. -/
def caught (body : Eval σ Unit) : Eval σ (Option Exit) := fun s =>
  match body s with
  | .ok () t => .ok none t
  | .error (.quit status) t => .error (.quit status) t
  | .error e t => .ok (some e) t

/-- `foreach`. -/
def foreach (body : α → Eval σ Unit) : List α → Eval σ Unit
  | [] => pure ()
  | a :: as => fun s =>
    match body a s with
    | .ok () t => foreach body as t
    | .error .cont t => foreach body as t
    | .error .brk t => .ok () t
    | .error e t => .error e t

/-! ## Rules -/

/-- The postconditions of a command, as one of its return code. -/
def Post (Q : Unit → σ → Prop) (E : Exit → σ → Prop) : Option Exit → σ → Prop
  | none => Q ()
  | some e => E e

section
variable {body : Eval σ Unit} {s : σ}

@[simp] theorem wp_proc (Q : Unit → σ → Prop) (E : Exit → σ → Prop) :
    wp (proc body) Q E s ↔ wp body Q (fun e => Post Q E e.leaveProc) s := by
  unfold wp proc ended
  cases body s with
  | ok a t => rfl
  | error e t => cases he : e.leaveProc <;> simp [Post, he]

@[simp] theorem wp_caught (Q : Option Exit → σ → Prop) (E : Exit → σ → Prop) :
    wp (caught body) Q E s ↔
      wp body (fun _ => Q none)
        (fun e t => match e with | .quit status => E (.quit status) t | e => Q (some e) t) s := by
  unfold wp caught
  cases body s with
  | ok a t => rfl
  | error e t => cases e <;> rfl

/-- The rule for loops: `I as` holds while the elements `as` are left. -/
theorem wp_foreach {body : α → Eval σ Unit} {I : List α → σ → Prop} {Q : Unit → σ → Prop}
    {E : Exit → σ → Prop} (hnil : ∀ t, I [] t → Q () t)
    (hcons : ∀ a as t, I (a :: as) t → wp (body a) (fun _ => I as)
      (fun e u => match e with | .cont => I as u | .brk => Q () u | e => E e u) t)
    (as : List α) (h : I as s) : wp (foreach body as) Q E s := by
  induction as generalizing s with
  | nil => exact hnil s h
  | cons a as ih =>
    have hbody := hcons a as s h
    unfold wp at hbody ⊢
    unfold foreach
    cases hrun : body a s with
    | ok u t =>
      simp only [hrun] at hbody ⊢
      exact ih hbody
    | error e t =>
      simp only [hrun] at hbody ⊢
      cases e with
      | cont => exact ih hbody
      | _ => exact hbody

/-! ### Relations between the states before and after -/

variable {B : Exit → Prop} {R : σ → σ → Prop}

theorem Within.proc (h : Within (fun _ => False) R body) :
    Within (fun _ => False) R (proc body) := by
  intro s
  rw [wp_proc]
  refine (h s).imp (fun _ _ h => h) fun e t he => ?_
  cases e.leaveProc with
  | none => exact he.2
  | some e => exact he

theorem Within.caught (h : Within (fun _ => False) R body) :
    Within (fun _ => False) R (caught body) := by
  intro s
  rw [wp_caught]
  refine (h s).imp (fun _ _ h => h) fun e t he => ?_
  cases e with
  | quit status => exact he
  | _ => exact he.2

theorem Within.foreach [IsPreorder σ R] {body : α → Eval σ Unit}
    (h : ∀ a, Within (fun _ => False) R (body a)) (as : List α) :
    Within (fun _ => False) R (foreach body as) := by
  intro s
  refine wp_foreach (I := fun _ => R s) (fun _ h => h) (fun a _ t hst => ?_) as (refl_of R s)
  refine (h a t).imp (fun _ u htu => trans_of R hst htu) fun e u he => ?_
  cases e with
  | brk | cont => exact trans_of R hst he.2
  | _ => exact ⟨he.1, trans_of R hst he.2⟩

/-- What `catch` does not catch is the end of the process, and only that. -/
theorem caught_quit (body : Eval σ Unit) (s : σ) :
    wp (caught body) (fun rc _ => ∀ status, rc ≠ some (.quit status))
      (fun e _ => ∃ status, e = .quit status) s := by
  rw [wp_caught]
  refine (wp_trivial body s).imp (fun _ _ _ => nofun) fun e t _ => ?_
  cases e with
  | quit status => exact ⟨status, rfl⟩
  | _ => exact nofun

end

/-! ## Programs that differ in what they do not read

`R` relates states with a difference that the programs do not see. -/

/-- Two programs have ended alike. -/
def Same (R : σ → σ → Prop) : EStateM.Result Exit σ α → EStateM.Result Exit σ α → Prop
  | .ok a t, .ok b u => a = b ∧ R t u
  | .error e t, .error f u => e = f ∧ R t u
  | _, _ => False

/-- From related states the two programs go on alike. -/
def Twin (R : σ → σ → Prop) (m m' : Eval σ α) : Prop := ∀ s t, R s t → Same R (m s) (m' t)

section
variable {R : σ → σ → Prop} {β : Type} {m m' : Eval σ α} {k k' : α → Eval σ β}

theorem Same.cases {r r' : EStateM.Result Exit σ α} (h : Same R r r') :
    (∃ a t u, r = .ok a t ∧ r' = .ok a u ∧ R t u) ∨
      ∃ e t u, r = .error e t ∧ r' = .error e u ∧ R t u := by
  cases r with
  | ok a t =>
    cases r' with
    | ok b u =>
      obtain ⟨rfl, htu⟩ := h
      exact Or.inl ⟨a, t, u, rfl, rfl, htu⟩
    | error f u => exact h.elim
  | error e t =>
    cases r' with
    | ok b u => exact h.elim
    | error f u =>
      obtain ⟨rfl, htu⟩ := h
      exact Or.inr ⟨e, t, u, rfl, rfl, htu⟩

/-- A program that has a twin does not see the difference itself. -/
theorem Twin.self (hR : Equivalence R) (h : Twin R m m') : Twin R m m := by
  intro s t hst
  rcases (h s s (hR.refl s)).cases with ⟨a, u, v, hu, hv, huv⟩ | ⟨e, u, v, hu, hv, huv⟩ <;>
    rcases (h t s (hR.symm hst)).cases with
      ⟨b, u', v', hu', hv', huv'⟩ | ⟨f, u', v', hu', hv', huv'⟩ <;>
    rw [hv] at hv' <;> cases hv' <;> rw [hu, hu']
  · exact ⟨rfl, hR.trans huv (hR.symm huv')⟩
  · exact ⟨rfl, hR.trans huv (hR.symm huv')⟩

theorem Twin.pure (a : α) : Twin R (pure a : Eval σ α) (pure a) := fun _ _ h => ⟨rfl, h⟩

theorem Twin.throw (e : Exit) : Twin R (throw e : Eval σ α) (throw e) := fun _ _ h => ⟨rfl, h⟩

theorem Twin.modify {f : σ → σ} (h : ∀ s t, R s t → R (f s) (f t)) :
    Twin R (modify f : Eval σ PUnit) (modify f) := fun s t hst => ⟨rfl, h s t hst⟩

theorem Twin.bind (hm : Twin R m m') (hk : ∀ a, Twin R (k a) (k' a)) :
    Twin R (m >>= k) (m' >>= k') := by
  intro s t h
  rcases (hm s t h).cases with ⟨a, u, v, hs, ht, huv⟩ | ⟨e, u, v, hs, ht, huv⟩
  · rw [bind_of_ok hs, bind_of_ok ht]
    exact hk a u v huv
  · rw [bind_error_iff.mpr (Or.inl hs), bind_error_iff.mpr (Or.inl ht)]
    exact ⟨rfl, huv⟩

/-- What is read is the same in related states. -/
theorem Twin.read {γ : Type} (g : σ → γ) (hg : ∀ s t, R s t → g s = g t) {k : γ → Eval σ α}
    (hk : ∀ c, Twin R (k c) (k c)) :
    Twin R (get >>= fun s => k (g s)) (get >>= fun s => k (g s)) := by
  intro s t h
  show Same R (k (g s) s) (k (g t) t)
  rw [hg s t h]
  exact hk _ s t h

theorem Twin.ite {c : Prop} [Decidable c] {n n' : Eval σ α} (h : Twin R m m')
    (h' : Twin R n n') : Twin R (if c then m else n) (if c then m' else n') := by
  split
  · exact h
  · exact h'

theorem Twin.proc {body body' : Eval σ Unit} (h : Twin R body body') :
    Twin R (proc body) (proc body') := by
  intro s t hst
  unfold ReturnCodes.proc
  rcases (h s t hst).cases with ⟨u, s', t', hs, ht, h'⟩ | ⟨e, s', t', hs, ht, h'⟩ <;> rw [hs, ht]
  · exact ⟨rfl, h'⟩
  · show Same R (ended e.leaveProc s') (ended e.leaveProc t')
    cases e.leaveProc <;> exact ⟨rfl, h'⟩

theorem Twin.caught {body body' : Eval σ Unit} (h : Twin R body body') :
    Twin R (caught body) (caught body') := by
  intro s t hst
  unfold ReturnCodes.caught
  rcases (h s t hst).cases with ⟨u, s', t', hs, ht, h'⟩ | ⟨e, s', t', hs, ht, h'⟩ <;> rw [hs, ht]
  · exact ⟨rfl, h'⟩
  · cases e <;> exact ⟨rfl, h'⟩

end

end ReturnCodes
