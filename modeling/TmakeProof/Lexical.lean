import Mathlib.Data.List.Basic
import Mathlib.Data.List.Induction

/-! # Lexical resolution

Sequences of components of which one, `up`, cancels the component before it.
`resolve` does so from left to right, on a stack: what cannot be cancelled stays as
a run of `up`s at the beginning (`Normal`).  Resolving a part of a sequence first
makes no difference (`resolve_resolve_append`, `resolve_append_resolve`), which is
the confluence of the cancellation.

Below a root there is nothing to go up to, so that `resolveRooted` drops an `up`
that cancels nothing.
-/
namespace Lexical

variable {α : Type*} [DecidableEq α] (up : α)

/-- One more component on the stack, whose top is the component read last. -/
def push : List α → α → List α
  | [], c => [c]
  | x :: rest, c => if c = up ∧ x ≠ up then rest else c :: x :: rest

/-- The sequence with all cancellations done. -/
def resolve (cs : List α) : List α := (cs.foldl (push up) []).reverse

/-- A run of `up`s and then none. -/
def Normal (l : List α) : Prop := ∃ n names, l = List.replicate n up ++ names ∧ up ∉ names

variable {up} {c x : α} {stack cs ds : List α}

@[simp] theorem resolve_nil : resolve up [] = [] := rfl

theorem push_of_ne (h : c ≠ up) (stack : List α) : push up stack c = c :: stack := by
  cases stack with
  | nil => rfl
  | cons x rest => rw [push, if_neg fun hc => h hc.1]

theorem push_up (h : x ≠ up) (rest : List α) : push up (x :: rest) up = rest := by
  rw [push, if_pos ⟨rfl, h⟩]

/-- An `up` that has nothing to cancel. -/
theorem push_up_stays (h : ∀ x ∈ stack.head?, x = up) : push up stack up = up :: stack := by
  cases stack with
  | nil => rfl
  | cons x rest => rw [push, if_neg fun hx => hx.2 (h x rfl)]

theorem push_cases (up : α) (stack : List α) (c : α) :
    push up stack c = c :: stack ∨ ∃ x, c = up ∧ x ≠ up ∧ stack = x :: push up stack c := by
  cases stack with
  | nil => exact .inl rfl
  | cons x rest =>
    by_cases h : c = up ∧ x ≠ up
    · exact .inr ⟨x, h.1, h.2, by rw [push, if_pos h]⟩
    · exact .inl (by rw [push, if_neg h])

theorem foldl_push_subset (cs stack : List α) : cs.foldl (push up) stack ⊆ cs ++ stack := by
  induction cs generalizing stack with
  | nil => exact List.Subset.refl _
  | cons c cs ih =>
    intro x hx
    rcases List.mem_append.mp (ih (push up stack c) hx) with hx | hx
    · simp [hx]
    · rcases push_cases up stack c with hpush | ⟨y, -, -, hpush⟩
      · rw [hpush] at hx
        rcases List.mem_cons.mp hx with rfl | hx
        · simp
        · simp [hx]
      · rw [hpush]
        simp [hx]

/-- Nothing comes in that was not there. -/
theorem resolve_subset (cs : List α) : resolve up cs ⊆ cs := by
  intro x hx
  simpa using foldl_push_subset cs [] (List.mem_reverse.mp hx)

theorem resolve_concat (cs : List α) (c : α) :
    resolve up (cs ++ [c]) = (push up (resolve up cs).reverse c).reverse := by
  simp [resolve]

omit [DecidableEq α] in
theorem Normal.nil : Normal up [] := ⟨0, [], rfl, by simp⟩

theorem Normal.push (h : Normal up stack.reverse) (c : α) :
    Normal up (push up stack c).reverse := by
  obtain ⟨n, names, hstack, hnames⟩ := h
  rcases push_cases up stack c with hpush | ⟨x, rfl, hx, hpush⟩
  · rw [hpush, List.reverse_cons, hstack]
    by_cases hc : c = up
    · -- an `up` is kept only behind `up`s
      subst hc
      have hnil : names = [] := by
        by_contra hne
        obtain ⟨init, last, rfl⟩ := (List.eq_nil_or_concat names).resolve_left hne
        rw [List.concat_eq_append] at hstack hnames
        have hcons : stack = last :: (List.replicate n c ++ init).reverse := by
          rw [← List.reverse_reverse stack, hstack]
          simp
        have hlast : last ≠ c := fun heq => hnames (by simp [heq])
        rw [hcons, push_up hlast] at hpush
        have := congrArg List.length hpush
        simp at this
        omega
      exact ⟨n + 1, [], by rw [hnil]; simp [List.replicate_succ'], by simp⟩
    · exact ⟨n, names ++ [c], by simp, by simpa [Ne.symm hc] using hnames⟩
  · rw [hpush, List.reverse_cons] at hstack
    rcases List.eq_nil_or_concat names with rfl | ⟨init, last, rfl⟩
    · exfalso
      have hmem : x ∈ List.replicate n c ++ [] := hstack ▸ by simp
      rw [List.append_nil] at hmem
      exact hx (List.eq_of_mem_replicate hmem)
    · rw [List.concat_eq_append, ← List.append_assoc] at hstack
      refine ⟨n, init, (List.append_inj' hstack rfl).1, fun hmem => hnames ?_⟩
      simp [hmem]

theorem foldl_push_normal (h : Normal up stack.reverse) (cs : List α) :
    Normal up (cs.foldl (push up) stack).reverse := by
  induction cs generalizing stack with
  | nil => exact h
  | cons c cs ih => exact ih (h.push c)

omit [DecidableEq α] in
/-- In a normal form only an `up` stands before an `up`. -/
theorem Normal.before_up {pre post : List α} (h : Normal up (pre ++ x :: up :: post)) : x = up := by
  obtain ⟨n, names, heq, hnames⟩ := h
  rcases List.append_eq_append_iff.mp heq with ⟨as, has, hrest⟩ | ⟨bs, -, hrest⟩
  · rcases as with _ | ⟨a, as⟩
    · exact absurd (by rw [List.nil_append] at hrest; simp [← hrest]) hnames
    · have hmem : a ∈ List.replicate n up := by simp [has]
      rw [(List.cons.inj hrest).1]
      exact List.eq_of_mem_replicate hmem
  · exact absurd (by simp [hrest]) hnames

/-- What is resolved is in normal form. -/
theorem resolve_normal (cs : List α) : Normal up (resolve up cs) :=
  have hnil : Normal up ([] : List α).reverse := Normal.nil
  foldl_push_normal hnil cs

/-- In a normal form there is nothing to cancel. -/
theorem Normal.resolve (h : Normal up cs) : resolve up cs = cs := by
  obtain ⟨n, names, rfl, hnames⟩ := h
  have hups : ∀ n, (List.replicate n up).foldl (Lexical.push up) [] = List.replicate n up := by
    intro n
    induction n with
    | zero => rfl
    | succ n ih =>
      rw [List.replicate_succ', List.foldl_append, ih, List.foldl_cons, List.foldl_nil,
        push_up_stays, ← List.replicate_succ, List.replicate_succ']
      intro x hx
      exact List.eq_of_mem_replicate (List.mem_of_mem_head? hx)
  have hnames' : ∀ stack, names.foldl (Lexical.push up) stack = names.reverse ++ stack := by
    induction names with
    | nil => exact fun _ => rfl
    | cons c names ih =>
      intro stack
      have hc : c ≠ up := fun heq => hnames (by simp [heq])
      rw [List.foldl_cons, push_of_ne hc, ih fun hmem => hnames (by simp [hmem])]
      simp
  rw [Lexical.resolve, List.foldl_append, hups, hnames']
  simp

/-- The first part may be resolved before. -/
theorem resolve_resolve_append (cs ds : List α) :
    resolve up (resolve up cs ++ ds) = resolve up (cs ++ ds) := by
  have h : (resolve up cs).foldl (push up) [] = cs.foldl (push up) [] := by
    have hnormal : Normal up (resolve up cs) := resolve_normal cs
    have hresolved := hnormal.resolve
    rw [resolve, resolve] at hresolved
    exact List.reverse_injective hresolved
  rw [resolve, List.foldl_append, h, ← List.foldl_append, resolve]

/-- So may the second part: whatever the stack, it ends up the same. -/
theorem foldl_push_resolve (stack ds : List α) :
    (resolve up ds).foldl (push up) stack = ds.foldl (push up) stack := by
  induction ds using List.reverseRecOn with
  | nil => rfl
  | append_singleton ds c ih =>
    rw [resolve_concat, List.foldl_append, List.foldl_cons, List.foldl_nil, ← ih]
    rcases push_cases up (resolve up ds).reverse c with hpush | ⟨x, rfl, hx, hpush⟩
    · rw [hpush, List.reverse_cons, List.reverse_reverse, List.foldl_append]
      rfl
    · -- the component that is cancelled was the last one
      have hresolve : resolve c ds = (push c (resolve c ds).reverse c).reverse ++ [x] := by
        rw [← List.reverse_cons, ← hpush, List.reverse_reverse]
      generalize (push c (resolve c ds).reverse c).reverse = rest at hresolve
      rw [hresolve, List.foldl_append, List.foldl_cons, List.foldl_nil, push_of_ne hx, push_up hx]

theorem resolve_append_resolve (cs ds : List α) :
    resolve up (cs ++ resolve up ds) = resolve up (cs ++ ds) := by
  rw [resolve, List.foldl_append, foldl_push_resolve, ← List.foldl_append, resolve]

/-! ## Below a root -/

variable (up)

/-- One more component: an `up` at the root stays there. -/
def pushRooted (stack : List α) (c : α) : List α := if c = up then stack.tail else c :: stack

/-- The sequence with all cancellations done, and no `up` left. -/
def resolveRooted (cs : List α) : List α := (cs.foldl (pushRooted up) []).reverse

variable {up}

theorem foldl_pushRooted_up (h : up ∉ stack) (cs : List α) : up ∉ cs.foldl (pushRooted up) stack := by
  induction cs generalizing stack with
  | nil => exact h
  | cons c cs ih =>
    refine ih ?_
    by_cases hc : c = up
    · rw [pushRooted, if_pos hc]
      exact fun hmem => h (List.mem_of_mem_tail hmem)
    · rw [pushRooted, if_neg hc]
      exact fun hmem => (List.mem_cons.mp hmem).elim (fun heq => hc heq.symm) h

theorem foldl_pushRooted_subset (cs stack : List α) :
    cs.foldl (pushRooted up) stack ⊆ cs ++ stack := by
  induction cs generalizing stack with
  | nil => exact List.Subset.refl _
  | cons c cs ih =>
    intro x hx
    rcases List.mem_append.mp (ih (pushRooted up stack c) hx) with hx | hx
    · simp [hx]
    · by_cases hc : c = up
      · rw [pushRooted, if_pos hc] at hx
        simp [List.mem_of_mem_tail hx]
      · rw [pushRooted, if_neg hc] at hx
        rcases List.mem_cons.mp hx with rfl | hx <;> simp [*]

theorem resolveRooted_subset (cs : List α) : resolveRooted up cs ⊆ cs := by
  intro x hx
  simpa using foldl_pushRooted_subset cs [] (List.mem_reverse.mp hx)

theorem up_notMem_resolveRooted (cs : List α) : up ∉ resolveRooted up cs := by
  rw [resolveRooted, List.mem_reverse]
  exact foldl_pushRooted_up (by simp) cs

end Lexical
