import Mathlib.Data.List.Basic

/-! # Comparing sequences entry by entry

Two sequences, the shorter one padded with a default entry, are compared at the
first position at which one entry is less than the other.  The relation `less` need
not be an order: what the comparison inherits at three sequences is what `less`
does among the three entries at each position (`firstDifference_trans`).
-/
namespace Lexicographic

variable {α : Type*}

/-- The pairs of entries of two sequences. -/
def zipPadded (d : α) (xs ys : List α) : List (α × α) :=
  List.zipWithAll (fun x y => (x.getD d, y.getD d)) xs ys

@[simp] theorem zipPadded_cons_cons (d x y : α) (xs ys : List α) :
    zipPadded d (x :: xs) (y :: ys) = (x, y) :: zipPadded d xs ys := rfl

theorem zipPadded_eq_map (d : α) (xs ys : List α) : zipPadded d xs ys =
    (List.range (max xs.length ys.length)).map fun i => (xs.getD i d, ys.getD i d) := by
  apply List.ext_getElem?
  intro i
  rw [zipPadded, List.getElem?_zipWithAll, List.getElem?_map]
  by_cases hi : i < max xs.length ys.length
  · rw [List.getElem?_range hi, Option.map_some, List.getD_eq_getElem?_getD,
      List.getD_eq_getElem?_getD]
    cases hx : xs[i]? with
    | some x => rfl
    | none =>
      cases hy : ys[i]? with
      | some y => rfl
      | none =>
        rw [List.getElem?_eq_none_iff] at hx hy
        exact absurd hi (Nat.not_lt.mpr (Nat.max_le.mpr ⟨hx, hy⟩))
  · rw [Nat.not_lt, Nat.max_le] at hi
    rw [List.getElem?_eq_none hi.1, List.getElem?_eq_none hi.2,
      List.getElem?_eq_none (by rw [List.length_range]; exact Nat.max_le.mpr hi)]
    rfl

variable (less : α → α → Prop) [DecidableRel less]

/-- The sign of the first pair of entries that differ. -/
def firstDifference : List (α × α) → Int
  | [] => 0
  | (x, y) :: rest => if less x y then -1 else if less y x then 1 else firstDifference rest

/-- Among these, not being greater is transitive. -/
def TransitiveAmong (l : List α) : Prop :=
  ∀ x ∈ l, ∀ y ∈ l, ∀ z ∈ l, ¬less y x → ¬less z y → ¬less z x

variable {less}

theorem firstDifference_self (less : α → α → Prop) [DecidableRel less] (hirrefl : ∀ x, ¬less x x) (l : List α) :
    firstDifference less (l.map fun x => (x, x)) = 0 := by
  induction l with
  | nil => rfl
  | cons x l ih => rw [List.map_cons, firstDifference, if_neg (hirrefl x), if_neg (hirrefl x), ih]

theorem firstDifference_swap (hasymm : ∀ x y, less x y → ¬less y x) (l : List (α × α)) :
    firstDifference less (l.map Prod.swap) = -firstDifference less l := by
  induction l with
  | nil => rfl
  | cons p l ih =>
    obtain ⟨x, y⟩ := p
    rw [List.map_cons, Prod.swap_prod_mk, firstDifference, firstDifference, ih]
    by_cases hxy : less x y
    · rw [if_neg (hasymm x y hxy), if_pos hxy, if_pos hxy]
      rfl
    · rw [if_neg hxy, if_neg hxy]
      split <;> rfl

theorem firstDifference_map (less : α → α → Prop) [DecidableRel less] {β : Type*} (f : β → α)
    (l : List (β × β)) :
    firstDifference less (l.map (Prod.map f f)) = firstDifference (fun x y => less (f x) (f y)) l := by
  induction l with
  | nil => rfl
  | cons p l ih => rw [List.map_cons, Prod.map, firstDifference, firstDifference, ih]

theorem firstDifference_append (l m : List (α × α)) (h : firstDifference less m = 0) :
    firstDifference less (l ++ m) = firstDifference less l := by
  induction l with
  | nil => exact h
  | cons p l ih => rw [List.cons_append, firstDifference, firstDifference, ih]

theorem firstDifference_cons_nonpos (hasymm : ∀ x y, less x y → ¬less y x) (x y : α)
    (rest : List (α × α)) : firstDifference less ((x, y) :: rest) ≤ 0 ↔
      ¬less y x ∧ (less x y ∨ firstDifference less rest ≤ 0) := by
  rw [firstDifference]
  by_cases hxy : less x y
  · simp [hxy, hasymm x y hxy]
  · by_cases hyx : less y x <;> simp [hxy, hyx]

/-- Where not being greater is transitive among the entries of each position, the comparison
of the sequences is. -/
theorem firstDifference_trans (hasymm : ∀ x y, less x y → ¬less y x) {ι : Type*} {f g h : ι → α}
    {l : List ι} (htrans : ∀ i ∈ l, TransitiveAmong less [f i, g i, h i])
    (hfg : firstDifference less (l.map fun i => (f i, g i)) ≤ 0)
    (hgh : firstDifference less (l.map fun i => (g i, h i)) ≤ 0) :
    firstDifference less (l.map fun i => (f i, h i)) ≤ 0 := by
  induction l with
  | nil => exact Int.le_refl 0
  | cons i l ih =>
    rw [List.map_cons, firstDifference_cons_nonpos hasymm] at hfg hgh ⊢
    have hi : TransitiveAmong less [f i, g i, h i] := htrans i List.mem_cons_self
    refine ⟨hi (f i) (by simp) (g i) (by simp) (h i) (by simp) hfg.1 hgh.1, ?_⟩
    by_cases hless : less (f i) (h i)
    · exact .inl hless
    · -- the three entries are equal, and the rest decides
      have hgf : ¬less (f i) (g i) :=
        hi (g i) (by simp) (h i) (by simp) (f i) (by simp) hgh.1 hless
      have hhg : ¬less (g i) (h i) :=
        hi (h i) (by simp) (f i) (by simp) (g i) (by simp) hless hfg.1
      exact .inr (ih (fun j hj => htrans j (List.mem_cons_of_mem _ hj)) (hfg.2.resolve_left hgf)
        (hgh.2.resolve_left hhg))

/-- More of the padding makes no difference. -/
theorem firstDifference_zipPadded (hirrefl : ∀ x, ¬less x x) (d : α) (xs ys : List α) {n : Nat}
    (hxs : xs.length ≤ n) (hys : ys.length ≤ n) : firstDifference less (zipPadded d xs ys) =
      firstDifference less ((List.range n).map fun i => (xs.getD i d, ys.getD i d)) := by
  obtain ⟨k, rfl⟩ := Nat.exists_eq_add_of_le (Nat.max_le.mpr ⟨hxs, hys⟩)
  rw [zipPadded_eq_map, List.range_add, List.map_append]
  refine (firstDifference_append _ _ ?_).symm
  have hpadding : ((List.range k).map (max xs.length ys.length + ·)).map
      (fun i => (xs.getD i d, ys.getD i d)) = ((List.range k).map fun _ => d).map fun x => (x, x) := by
    rw [List.map_map, List.map_map]
    apply List.map_congr_left
    intro i hi
    have hi' : xs.length ≤ max xs.length ys.length + i ∧ ys.length ≤ max xs.length ys.length + i := by
      omega
    simp [hi'.1, hi'.2]
  rw [hpadding]
  exact firstDifference_self less hirrefl _

end Lexicographic
