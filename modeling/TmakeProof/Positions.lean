import Mathlib.Data.List.Basic
import Mathlib.Data.List.Induction

/-! # Positions in a sequence

`AtEach P l` states something about each element of a sequence and the elements
before it: what is there when the element comes.  It is proved along the sequence
(`atEach_concat`) and can be checked (`atEach_iff`).
-/

variable {α : Type*}

/-- `P` holds of the elements before each element and of that element. -/
def AtEach (P : List α → α → Prop) (l : List α) : Prop :=
  ∀ pre x post, l = pre ++ x :: post → P pre x

/-- An element of a list with one more at the end is the last or stands before. -/
theorem concat_split {l pre post : List α} {a x : α} (h : l ++ [a] = pre ++ x :: post) :
    (pre = l ∧ x = a) ∨ ∃ post', l = pre ++ x :: post' := by
  rcases List.eq_nil_or_concat post with rfl | ⟨post', y, rfl⟩
  · obtain ⟨h₁, h₂⟩ := List.append_inj' h rfl
    exact .inl ⟨h₁.symm, (List.cons.inj h₂).1.symm⟩
  · refine .inr ⟨post', ?_⟩
    rw [List.concat_eq_append, ← List.cons_append, ← List.append_assoc] at h
    exact (List.append_inj' h rfl).1

variable {P Q : List α → α → Prop} {l : List α} {a : α}

@[simp] theorem atEach_nil (P : List α → α → Prop) : AtEach P [] := by
  intro pre x post h
  simp at h

theorem atEach_concat : AtEach P (l ++ [a]) ↔ AtEach P l ∧ P l a := by
  constructor
  · intro h
    refine ⟨fun pre x post heq => h pre x (post ++ [a]) ?_, h l a [] rfl⟩
    rw [heq]
    simp
  · rintro ⟨h, ha⟩ pre x post heq
    rcases concat_split heq with ⟨rfl, rfl⟩ | ⟨post', rfl⟩
    · exact ha
    · exact h pre x post' rfl

@[simp] theorem atEach_singleton : AtEach P [a] ↔ P [] a := by
  rw [← List.nil_append [a], atEach_concat]
  simp

theorem atEach_iff : AtEach P l ↔ ∀ i : Fin l.length, P (l.take i) l[i] := by
  constructor
  · intro h i
    exact h _ _ (l.drop (i + 1)) (by simp)
  · rintro h pre x post rfl
    simpa using h ⟨pre.length, by simp⟩

instance [∀ l a, Decidable (P l a)] : DecidablePred (AtEach P) :=
  fun _ => decidable_of_iff' _ atEach_iff
