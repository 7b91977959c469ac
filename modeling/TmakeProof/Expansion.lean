import Mathlib.Data.List.Forall2

/-! # Expanding references

Lists of symbols, some of which refer to lists of symbols, which may refer to
others in turn.  `Expands` replaces references to any depth, `expandOnce` only those
in the list itself.  The two agree without references left over exactly when no
reference in the list leads to another one (`expands_expandOnce_iff`).
-/
namespace Expansion

variable {α : Type*} (isRef : α → Bool) (body : α → Option (List α))

/-- The second list is the first with every reference replaced by its expansion.  Another symbol
is written with `top` where it stands in the list itself, and with `write` where it comes from a
reference. -/
inductive Expands (write : α → α) : (α → α) → List α → List α → Prop where
  | nil (top) : Expands write top [] []
  | symbol {top x l r} (h : isRef x = false) (hrest : Expands write top l r) :
    Expands write top (x :: l) (top x :: r)
  | ref {top x b s l r} (h : isRef x = true) (hbody : body x = some b)
    (hb : Expands write write b s) (hrest : Expands write top l r) :
    Expands write top (x :: l) (s ++ r)

/-- Replaces the references in the list, and not those that come in their place. -/
def expandOnce (write : α → α) : List α → Option (List α)
  | [] => some []
  | x :: l =>
    if isRef x then
      match body x with
      | none => none
      | some b => (expandOnce write l).map (b.map write ++ ·)
    else (expandOnce write l).map (x :: ·)

variable {isRef body} {write top : α → α} {l r r' : List α}

/-- There is one expansion only. -/
theorem Expands.unique (h : Expands isRef body write top l r)
    (h' : Expands isRef body write top l r') : r = r' := by
  induction h generalizing r' with
  | nil top =>
    cases h'
    rfl
  | symbol hx hrest ih =>
    cases h' with
    | symbol _ hrest' => rw [ih hrest']
    | ref hx' => exact absurd (hx.symm.trans hx') (by simp)
  | ref hx hbody hb hrest ihb ih =>
    cases h' with
    | symbol hx' => exact absurd (hx.symm.trans hx') (by simp)
    | ref _ hbody' hb' hrest' =>
      obtain rfl := Option.some.inj (hbody.symm.trans hbody')
      rw [ihb hb', ih hrest']

/-- Without references every symbol is only written. -/
theorem expands_map (h : ∀ x ∈ l, isRef x = false) : Expands isRef body write top l (l.map top) := by
  induction l with
  | nil => exact .nil top
  | cons x l ih =>
    exact .symbol (h x List.mem_cons_self) (ih fun y hy => h y (List.mem_cons_of_mem _ hy))

theorem expandOnce_isSome (h : ∀ x ∈ l, isRef x = true → (body x).isSome = true) :
    (expandOnce isRef body write l).isSome = true := by
  induction l with
  | nil => rfl
  | cons x l ih =>
    have hrest := ih fun y hy => h y (List.mem_cons_of_mem _ hy)
    rw [expandOnce]
    split
    · rename_i hx
      obtain ⟨b, hb⟩ := Option.isSome_iff_exists.mp (h x List.mem_cons_self hx)
      rw [hb]
      simpa using hrest
    · simpa using hrest

/-- The references in a list lead to no others. -/
def Flat (isRef : α → Bool) (body : α → Option (List α)) (write : α → α) (l : List α) : Prop :=
  ∀ x ∈ l, isRef x = true → ∀ b, body x = some b → ∀ y ∈ b, isRef (write y) = false

/-- What comes first, and what expanding the rest leaves. -/
theorem expandOnce_cons {x : α} (h : expandOnce isRef body write (x :: l) = some r) :
    ∃ s rest, expandOnce isRef body write l = some rest ∧ r = s ++ rest ∧
      ((isRef x = false ∧ s = [x]) ∨ isRef x = true ∧ ∃ b, body x = some b ∧ s = b.map write) := by
  rw [expandOnce] at h
  split at h
  · rename_i hx
    cases hbody : body x with
    | none => simp [hbody] at h
    | some b =>
      simp only [hbody] at h
      obtain ⟨rest, hrest, rfl⟩ := Option.map_eq_some_iff.mp h
      exact ⟨_, rest, hrest, rfl, .inr ⟨hx, b, rfl, rfl⟩⟩
  · rename_i hx
    obtain ⟨rest, hrest, rfl⟩ := Option.map_eq_some_iff.mp h
    exact ⟨[x], rest, hrest, rfl, .inl ⟨by simpa using hx, rfl⟩⟩

/-- What a reference in the list stands for is in the result. -/
theorem mem_expandOnce (h : expandOnce isRef body write l = some r) {x : α} (hx : x ∈ l)
    (href : isRef x = true) {b : List α} (hb : body x = some b) {y : α} (hy : y ∈ b) :
    write y ∈ r := by
  induction l generalizing r with
  | nil => exact absurd hx (by simp)
  | cons z l ih =>
    obtain ⟨s, rest, hrest, rfl, hfirst⟩ := expandOnce_cons h
    rcases List.mem_cons.mp hx with rfl | hx
    · rcases hfirst with ⟨hnot, -⟩ | ⟨-, b', hb', rfl⟩
      · exact absurd (href.symm.trans hnot) (by simp)
      · obtain rfl := Option.some.inj (hb.symm.trans hb')
        exact List.mem_append_left _ (List.mem_map_of_mem hy)
    · exact List.mem_append_right _ (ih hrest hx)

theorem Flat.tail {x : α} (h : Flat isRef body write (x :: l)) : Flat isRef body write l :=
  fun y hy => h y (List.mem_cons_of_mem _ hy)

theorem Flat.noRef (hflat : Flat isRef body write l) (h : expandOnce isRef body write l = some r) :
    ∀ x ∈ r, isRef x = false := by
  induction l generalizing r with
  | nil =>
    obtain rfl := Option.some.inj h
    simp
  | cons z l ih =>
    obtain ⟨s, rest, hrest, rfl, hfirst⟩ := expandOnce_cons h
    intro x hx
    rcases List.mem_append.mp hx with hx | hx
    · rcases hfirst with ⟨hnot, rfl⟩ | ⟨href, b, hb, rfl⟩
      · exact List.mem_singleton.mp hx ▸ hnot
      · obtain ⟨y, hy, rfl⟩ := List.mem_map.mp hx
        exact hflat z List.mem_cons_self href b hb y hy
    · exact ih hflat.tail hrest x hx

theorem Flat.expands (hwrite : ∀ x, isRef x = true → write x = x)
    (hflat : Flat isRef body write l) (h : expandOnce isRef body write l = some r) :
    Expands isRef body write id l r := by
  induction l generalizing r with
  | nil =>
    obtain rfl := Option.some.inj h
    exact .nil id
  | cons z l ih =>
    obtain ⟨s, rest, hrest, rfl, hfirst⟩ := expandOnce_cons h
    have hih := ih hflat.tail hrest
    rcases hfirst with ⟨hnot, rfl⟩ | ⟨href, b, hb, rfl⟩
    · exact .symbol hnot hih
    · refine .ref href hb (expands_map fun y hy => ?_) hih
      have hy := hflat z List.mem_cons_self href b hb y hy
      cases hyref : isRef y with
      | false => rfl
      | true =>
        rw [hwrite y hyref, hyref] at hy
        contradiction

/-- Expanding once is all there is to do, and leaves no reference, exactly when the references in
the list lead to no others. -/
theorem expands_expandOnce_iff (hwrite : ∀ x, isRef x = true → write x = x)
    (h : expandOnce isRef body write l = some r) :
    (Expands isRef body write id l r ∧ ∀ x ∈ r, isRef x = false) ↔ Flat isRef body write l := by
  constructor
  · rintro ⟨-, hnoRef⟩ x hx href b hb y hy
    exact hnoRef _ (mem_expandOnce h hx href hb hy)
  · intro hflat
    exact ⟨hflat.expands hwrite h, hflat.noRef h⟩

/-! ## Layers -/

/-- References lead to references of lower rank only. -/
def Ranked (isRef : α → Bool) (body : α → Option (List α)) (rank : α → Nat) : Prop :=
  ∀ x b, body x = some b → ∀ y ∈ b, isRef y = true → (body y).isSome = true ∧ rank y < rank x

theorem Ranked.expands_below {rank : α → Nat} (h : Ranked isRef body rank) (n : Nat)
    (top : α → α) (l : List α)
    (hl : ∀ x ∈ l, isRef x = true → (body x).isSome = true ∧ rank x < n) :
    ∃ r, Expands isRef body write top l r := by
  induction n generalizing top l with
  | zero =>
    refine ⟨l.map top, expands_map fun x hx => ?_⟩
    cases href : isRef x with
    | false => rfl
    | true => exact absurd (hl x hx href).2 (Nat.not_lt_zero _)
  | succ n ihn =>
    induction l with
    | nil => exact ⟨[], .nil top⟩
    | cons x l ih =>
      obtain ⟨r, hr⟩ := ih fun y hy => hl y (List.mem_cons_of_mem _ hy)
      cases href : isRef x with
      | false => exact ⟨top x :: r, .symbol href hr⟩
      | true =>
        obtain ⟨hsome, hrank⟩ := hl x List.mem_cons_self href
        obtain ⟨b, hb⟩ := Option.isSome_iff_exists.mp hsome
        obtain ⟨s, hs⟩ := ihn write b fun y hy hyref =>
          ⟨(h x b hb y hy hyref).1, by have := (h x b hb y hy hyref).2; omega⟩
        exact ⟨s ++ r, .ref href hb hs hr⟩

theorem exists_rank_lt (rank : α → Nat) (l : List α) : ∃ n, ∀ x ∈ l, rank x < n := by
  induction l with
  | nil => exact ⟨0, by simp⟩
  | cons x l ih =>
    obtain ⟨n, hn⟩ := ih
    refine ⟨max n (rank x + 1), fun y hy => ?_⟩
    rcases List.mem_cons.mp hy with rfl | hy
    · omega
    · have := hn y hy
      omega

/-- Every list has an expansion. -/
theorem Ranked.expands {rank : α → Nat} (h : Ranked isRef body rank) (top : α → α) (l : List α)
    (hl : ∀ x ∈ l, isRef x = true → (body x).isSome = true) :
    ∃ r, Expands isRef body write top l r := by
  obtain ⟨n, hn⟩ := exists_rank_lt rank l
  exact h.expands_below n top l fun x hx href => ⟨hl x hx href, hn x hx⟩

end Expansion
