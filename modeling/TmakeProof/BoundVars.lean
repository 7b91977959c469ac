import Mathlib.Algebra.GroupWithZero.Nat
import Mathlib.Algebra.Order.BigOperators.Group.List
import Mathlib.Algebra.Order.Group.Nat
import TmakeProof.Fragments

/-! # Bound variables

The values that the commands of a rule give for a variable are collected option by
option, read as a dictionary, and merged by `merge-vars`.  `valuesOf` is what is
given, in the order in which it is written, and `accumulate` what should become of
it.  Values are lost in three ways: the first command that gives any variable is
entered as it is, so that a dictionary has the last of its values; a command that is
ignored as a duplicate adds nothing; and a standard variable hides what is given for
it.  `bound_vars` states exactly when none is lost.
-/
namespace Tmake

/-! ## Values that accumulate -/

/-- `append-with-space`, for one value after the other. -/
def accumulate (value : String) (vs : List String) : String := vs.foldl (appendWith " ") value

/-- What values add to one that is not empty. -/
def weight (vs : List String) : Nat := (vs.map fun v => v.length + 1).sum

section
variable {a k v : String} {vs ws : List String}

@[simp] theorem accumulate_nil (a : String) : accumulate a [] = a := rfl

@[simp] theorem accumulate_cons (a v : String) (vs : List String) :
    accumulate a (v :: vs) = accumulate (appendWith " " a v) vs := rfl

theorem accumulate_append (a : String) (vs ws : List String) :
    accumulate a (vs ++ ws) = accumulate (accumulate a vs) ws := List.foldl_append

@[simp] theorem weight_cons (v : String) (vs : List String) :
    weight (v :: vs) = v.length + 1 + weight vs := rfl

theorem weight_perm (h : vs.Perm ws) : weight vs = weight ws := (h.map _).sum_eq

theorem length_le_weight (h : v ∈ vs) : v.length + 1 ≤ weight vs :=
  List.le_sum_of_mem (List.mem_map_of_mem h)

/-- A value that is not empty grows at its end, by the weight of what is added. -/
theorem accumulate_of_ne (ha : a ≠ "") (vs : List String) :
    ∃ t, accumulate a vs = a ++ t ∧ t.length = weight vs := by
  induction vs generalizing a with
  | nil => exact ⟨"", by simp, rfl⟩
  | cons v vs ih =>
    have hne : a ++ " " ++ v ≠ "" := by simp [String.append_eq_empty_iff, ha]
    obtain ⟨t, ht, hlength⟩ := ih hne
    refine ⟨" " ++ v ++ t, ?_, ?_⟩
    · rw [accumulate_cons, appendWith_of_ne _ _ ha, ht]
      simp only [String.append_assoc]
    · rw [String.length_append, String.length_append, hlength, weight_cons]
      have : (" " : String).length = 1 := rfl
      omega

theorem length_accumulate_le (a : String) (vs : List String) :
    (accumulate a vs).length ≤ a.length + weight vs := by
  induction vs generalizing a with
  | nil => exact le_rfl
  | cons v vs ih =>
    by_cases ha : a = ""
    · have := ih v
      rw [ha, accumulate_cons, appendWith_empty, weight_cons]
      omega
    · obtain ⟨t, ht, hlength⟩ := accumulate_of_ne ha (v :: vs)
      rw [ht, String.length_append, hlength]

/-- Nothing is added by no values, nor by empty ones to an empty one. -/
theorem accumulate_eq_self_iff : accumulate a vs = a ↔ vs = [] ∨ a = "" ∧ ∀ v ∈ vs, v = "" := by
  by_cases ha : a = ""
  · subst ha
    induction vs with
    | nil => simp
    | cons v vs ih =>
      rw [accumulate_cons, appendWith_empty]
      by_cases hv : v = ""
      · rw [hv, ih]
        rcases vs with _ | ⟨w, ws⟩ <;> simp
      · obtain ⟨t, ht, -⟩ := accumulate_of_ne hv vs
        rw [ht]
        simp [String.append_eq_empty_iff, hv]
  · obtain ⟨t, ht, hlength⟩ := accumulate_of_ne ha vs
    constructor
    · intro heq
      rcases vs with _ | ⟨w, ws⟩
      · exact .inl rfl
      · rw [heq] at ht
        have := congrArg String.length ht
        rw [String.length_append, hlength, weight_cons] at this
        omega
    · rintro (rfl | ⟨h, -⟩)
      · rfl
      · exact absurd h ha

/-- Values that have come apart stay so, whatever is added in whichever order. -/
theorem accumulate_ne (hne : a ≠ k) (hk : a = "" → k = "") (h : vs.Perm ws) :
    accumulate a vs ≠ accumulate k ws := by
  have ha : a ≠ "" := fun ha => hne (ha.trans (hk ha).symm)
  obtain ⟨t, ht, hlength⟩ := accumulate_of_ne ha vs
  intro heq
  have hlengths := congrArg String.length heq
  rw [ht, String.length_append, hlength, weight_perm h] at hlengths
  by_cases hempty : k = ""
  · have hle := length_accumulate_le k ws
    rw [hempty, String.length_empty] at hle
    have : a.length = 0 := by rw [hempty] at hlengths; omega
    exact ha (String.length_eq_zero_iff.mp this)
  · obtain ⟨u, hu, hlength'⟩ := accumulate_of_ne hempty ws
    rw [hu, String.length_append, hlength'] at hlengths
    rw [ht, hu] at heq
    -- the beginnings are of one length
    have : a.toList ++ t.toList = k.toList ++ u.toList := by
      rw [← String.toList_append, ← String.toList_append, heq]
    have hlength : a.toList.length = k.toList.length := by
      rw [String.length_toList, String.length_toList]
      omega
    exact hne (String.toList_inj.mp (List.append_inj_left this hlength))

theorem accumulate_eq_empty_iff : accumulate a vs = "" ↔ a = "" ∧ ∀ v ∈ vs, v = "" := by
  by_cases ha : a = ""
  · subst ha
    rw [accumulate_eq_self_iff]
    rcases vs with _ | ⟨v, vs⟩ <;> simp
  · obtain ⟨t, ht, -⟩ := accumulate_of_ne ha vs
    simp [ht, String.append_eq_empty_iff, ha]

theorem length_sum_le_accumulate (a : String) (vs : List String) :
    a.length + (vs.map String.length).sum ≤ (accumulate a vs).length := by
  induction vs generalizing a with
  | nil => exact le_rfl
  | cons v vs ih =>
    have := ih (appendWith " " a v)
    rw [accumulate_cons, List.map_cons, List.sum_cons]
    have : a.length + v.length ≤ (appendWith " " a v).length := by
      by_cases ha : a = ""
      · simp [ha]
      · rw [appendWith_of_ne _ _ ha, String.length_append, String.length_append]
        omega
    omega

/-- The last value is all, if and only if the others are empty. -/
theorem accumulate_eq_last_iff (h : vs.Perm ws) :
    accumulate "" vs = ws.getLastD "" ↔
      accumulate "" vs = accumulate "" ws ∧ ∀ v ∈ ws.dropLast, v = "" := by
  rcases List.eq_nil_or_concat ws with rfl | ⟨init, last, rfl⟩
  · simp [h.eq_nil]
  rw [List.concat_eq_append] at h ⊢
  rw [List.dropLast_concat, List.getLastD_concat]
  have hinit (hnone : ∀ v ∈ init, v = "") : accumulate "" (init ++ [last]) = last := by
    rw [accumulate_append, accumulate_eq_self_iff.mpr (.inr ⟨rfl, hnone⟩)]
    simp
  constructor
  · intro hlast
    -- the last value alone is as long as all of them
    have hle := length_sum_le_accumulate "" vs
    rw [hlast, (h.map _).sum_eq] at hle
    have hnone : ∀ v ∈ init, v = "" := by
      intro v hv
      have := List.le_sum_of_mem (List.mem_map_of_mem (f := String.length) hv)
      simp only [List.map_append, List.sum_append, List.map_singleton, List.sum_singleton,
        String.length_empty] at hle
      exact String.length_eq_zero_iff.mp (by omega)
    exact ⟨hlast.trans (hinit hnone).symm, hnone⟩
  · rintro ⟨horder, hnone⟩
    rw [horder, hinit hnone]

end

/-! ## Lists of names and values -/

/-- The values for the name `n`. -/
def collected (n : String) (vars : List (String × String)) : List String :=
  (vars.filter fun x => x.1 = n).map Prod.snd

/-- The value that the list has for the name when it is read as a dictionary: the last one. -/
def dictValue (n : String) (vars : List (String × String)) : String :=
  (collected n vars).getLastD ""

section
variable {n m : String} {vars d : List (String × String)}

@[simp] theorem collected_nil (n : String) : collected n [] = [] := rfl

theorem collected_cons (n : String) (x : String × String) (vars : List (String × String)) :
    collected n (x :: vars) = if x.1 = n then x.2 :: collected n vars else collected n vars := by
  by_cases h : x.1 = n <;> simp [collected, h]

theorem collected_append (n : String) (vars vars' : List (String × String)) :
    collected n (vars ++ vars') = collected n vars ++ collected n vars' := by
  simp [collected]

theorem dictValue_empty (h : ∀ v ∈ collected n vars, v = "") : dictValue n vars = "" := by
  rw [dictValue]
  rcases List.eq_nil_or_concat (collected n vars) with hnil | ⟨init, last, hlast⟩
  · rw [hnil]
    rfl
  · rw [hlast, List.concat_eq_append, List.getLastD_concat]
    exact h last (by rw [hlast]; simp)

theorem collected_of_notMem (h : n ∉ vars.map Prod.fst) : collected n vars = [] := by
  rw [collected, List.map_eq_nil_iff, List.filter_eq_nil_iff]
  intro x hx hn
  exact h (List.mem_map.mpr ⟨x, hx, by simpa using hn⟩)

theorem lookup_reverse (n : String) (vars : List (String × String)) :
    vars.reverse.lookup n = (collected n vars).getLast? := by
  induction vars using List.reverseRecOn with
  | nil => rfl
  | append_singleton vars x ih =>
    rw [List.reverse_append, List.reverse_singleton, List.singleton_append, List.lookup_cons, ih,
      collected_append, collected_cons]
    by_cases h : x.1 = n
    · simp [h]
    · simp [h, beq_eq_false_iff_ne.mpr (Ne.symm h)]

theorem keys_setVar (f : String → String) (m : String) (d : List (String × String)) :
    (setVar f m d).map Prod.fst =
      if m ∈ d.map Prod.fst then d.map Prod.fst else d.map Prod.fst ++ [m] := by
  induction d with
  | nil => simp [setVar]
  | cons x d ih =>
    rw [setVar]
    by_cases h : x.1 = m
    · simp [h]
    · rw [if_neg h, List.map_cons, ih, List.map_cons]
      by_cases hm : m ∈ d.map Prod.fst
      · rw [if_pos hm, if_pos (List.mem_cons_of_mem _ hm)]
      · rw [if_neg hm, if_neg (by simpa [Ne.symm h] using hm), List.cons_append]

theorem nodup_setVar (f : String → String) (m : String) (h : (d.map Prod.fst).Nodup) :
    ((setVar f m d).map Prod.fst).Nodup := by
  rw [keys_setVar]
  split
  · exact h
  · rename_i hm
    exact h.append (List.nodup_singleton m) (List.disjoint_singleton.mpr hm)

theorem collected_setVar (f : String → String) (n m : String) (h : (d.map Prod.fst).Nodup) :
    collected n (setVar f m d) = if m = n then [f (dictValue n d)] else collected n d := by
  induction d with
  | nil => simp [setVar, collected_cons, dictValue]
  | cons x d ih =>
    obtain ⟨hx, hd⟩ := List.nodup_cons.mp h
    rw [setVar]
    by_cases hxm : x.1 = m
    · rw [if_pos hxm, collected_cons]
      by_cases hmn : m = n
      · have hnil : collected n d = [] := collected_of_notMem (hmn ▸ hxm ▸ hx)
        simp [hmn, hxm, dictValue, collected_cons, hnil]
      · simp [hmn, hxm, collected_cons]
    · rw [if_neg hxm, collected_cons, ih hd]
      by_cases hmn : m = n
      · have hxn : x.1 ≠ n := hmn ▸ hxm
        simp [hmn, hxn, dictValue, collected_cons]
      · simp [hmn, collected_cons]

/-- Each entry of the list changes the value of its name. -/
theorem foldl_setVar (g : String × String → String → String) (n : String)
    (vars : List (String × String)) (h : (d.map Prod.fst).Nodup) :
    ((vars.foldl (fun d x => setVar (g x) x.1 d) d).map Prod.fst).Nodup ∧
      dictValue n (vars.foldl (fun d x => setVar (g x) x.1 d) d) =
        (vars.filter fun x => x.1 = n).foldl (fun v x => g x v) (dictValue n d) ∧
      (collected n (vars.foldl (fun d x => setVar (g x) x.1 d) d) = [] ↔
        collected n vars = [] ∧ collected n d = []) := by
  induction vars generalizing d with
  | nil => simpa using h
  | cons x vars ih =>
    obtain ⟨hnodup, hvalue, hnil⟩ := ih (nodup_setVar (g x) x.1 h)
    rw [List.foldl_cons]
    refine ⟨hnodup, ?_, ?_⟩
    · rw [hvalue, dictValue, collected_setVar _ _ _ h]
      by_cases hx : x.1 = n
      · simp [hx]
      · simp [hx, dictValue]
    · rw [hnil, collected_setVar _ _ _ h, collected_cons]
      by_cases hx : x.1 = n <;> simp [hx]

theorem foldl_last (l : List (String × String)) (v : String) :
    l.foldl (fun _ x => x.2) v = (l.map Prod.snd).getLastD v := by
  induction l generalizing v with
  | nil => rfl
  | cons x l ih =>
    rw [List.foldl_cons, ih, List.map_cons, List.getLastD_cons]

/-- `merge-vars` binds what is bound on either side. -/
theorem mergeVars_unbound (n : String) (vars vars' : List (String × String)) :
    collected n (mergeVars vars vars') = [] ↔ collected n vars = [] ∧ collected n vars' = [] := by
  rw [mergeVars]
  by_cases hnew : vars' = []
  · simp [hnew]
  by_cases hold : vars = []
  · simp [hnew, hold]
  · rw [if_neg (by simpa using hnew), if_neg (by simpa using hold)]
    obtain ⟨hnodup, -, hnil⟩ := foldl_setVar (d := []) (fun x _ => x.2) n vars (by simp)
    rw [(foldl_setVar (fun x v => appendWith " " v x.2) n vars' hnodup).2.2, hnil]
    simp [and_comm]

/-- `merge-vars` appends the new values to the old one, unless there are no variables yet. -/
theorem dictValue_mergeVars (n : String) {vars vars' : List (String × String)}
    (h : vars = [] → vars' = []) :
    dictValue n (mergeVars vars vars') = accumulate (dictValue n vars) (collected n vars') := by
  rw [mergeVars]
  by_cases hnew : vars' = []
  · simp [hnew]
  by_cases hold : vars = []
  · exact absurd (h hold) hnew
  · rw [if_neg (by simpa using hnew), if_neg (by simpa using hold)]
    obtain ⟨hnodup, hvalue, -⟩ := foldl_setVar (d := []) (fun x _ => x.2) n vars (by simp)
    rw [(foldl_setVar (fun x v => appendWith " " v x.2) n vars' hnodup).2.1, hvalue, foldl_last,
      accumulate, collected, List.foldl_map]
    rfl

theorem eq_nil_iff_unbound (vars : List (String × String)) :
    vars = [] ↔ ∀ n, collected n vars = [] := by
  constructor
  · rintro rfl n
    rfl
  · intro h
    rcases vars with _ | ⟨x, vars⟩
    · rfl
    · have := h x.1
      simp [collected_cons] at this

theorem mergeVars_eq_nil (vars vars' : List (String × String)) :
    mergeVars vars vars' = [] ↔ vars = [] ∧ vars' = [] := by
  simp only [eq_nil_iff_unbound, mergeVars_unbound, forall_and]

theorem mergeVars_nil (vars : List (String × String)) : mergeVars [] vars = vars := by
  rcases vars with _ | ⟨x, vars⟩ <;> rfl

end

/-! ## What a command gives -/

/-- The variables that a command binds, in the order in which they are written: `opt` is the
option read last. -/
def givenVars (defines : Dict String String) : List String → String → List (String × String)
  | [], _ => []
  | arg :: args, opt =>
    if arg.toList.head? = some '-' then givenVars defines args (String.ofList arg.toList.tail)
    else if opt = "vars" then
      match args with
      | [] => []
      | value :: args => (arg, value) :: givenVars defines args opt
    else if opt = "getvars" then
      (arg, (defines.lookup arg).getD "") :: givenVars defines args opt
    else givenVars defines args opt

/-- The values that a command gives for the variable, in the order in which they are written. -/
def TargetCommand.valuesOf (n : String) (c : TargetCommand) : List String :=
  collected n (givenVars c.defines c.args "")

/-- The arguments of the option, in a dictionary that `parse-rule-args` makes. -/
def argsOf (o : String) (info : List (String × List String)) : List String :=
  (info.filter fun x => x.1 = o).flatMap Prod.snd

section
variable {info info' : List (String × List String)}

theorem argsOf_cons (o : String) (x : String × List String) (info : List (String × List String)) :
    argsOf o (x :: info) = if x.1 = o then x.2 ++ argsOf o info else argsOf o info := by
  by_cases h : x.1 = o <;> simp [argsOf, h]

theorem keys_lappendOpt (o : String) (as : List String) (info : List (String × List String)) :
    (lappendOpt o as info).map Prod.fst =
      if o ∈ info.map Prod.fst then info.map Prod.fst else info.map Prod.fst ++ [o] := by
  induction info with
  | nil => simp [lappendOpt]
  | cons x info ih =>
    rw [lappendOpt]
    by_cases h : x.1 = o
    · simp [h]
    · rw [if_neg h, List.map_cons, ih, List.map_cons]
      by_cases ho : o ∈ info.map Prod.fst
      · rw [if_pos ho, if_pos (List.mem_cons_of_mem _ ho)]
      · rw [if_neg ho, if_neg (by simpa [Ne.symm h] using ho), List.cons_append]

theorem nodup_lappendOpt (o : String) (as : List String) (h : (info.map Prod.fst).Nodup) :
    ((lappendOpt o as info).map Prod.fst).Nodup := by
  rw [keys_lappendOpt]
  split
  · exact h
  · rename_i ho
    exact h.append (List.nodup_singleton o) (List.disjoint_singleton.mpr ho)

theorem argsOf_lappendOpt (o o' : String) (as : List String) (h : (info.map Prod.fst).Nodup) :
    argsOf o (lappendOpt o' as info) = if o' = o then argsOf o info ++ as else argsOf o info := by
  induction info with
  | nil => by_cases ho : o' = o <;> simp [lappendOpt, argsOf, ho]
  | cons x info ih =>
    obtain ⟨hx, hinfo⟩ := List.nodup_cons.mp h
    rw [lappendOpt]
    by_cases hxo : x.1 = o'
    · rw [if_pos hxo, argsOf_cons, argsOf_cons]
      by_cases ho : o' = o
      · have hnil : argsOf o info = [] := by
          rw [argsOf, List.flatMap_eq_nil_iff]
          intro y hy
          have := List.mem_filter.mp hy
          refine absurd (List.mem_map_of_mem this.1) (?_ : y.1 ∉ info.map Prod.fst)
          rw [show y.1 = x.1 by rw [hxo, ho]; simpa using this.2]
          exact hx
        simp [ho, hxo, hnil]
      · simp [ho, hxo]
    · rw [if_neg hxo, argsOf_cons, ih hinfo, argsOf_cons]
      by_cases ho : o' = o
      · have hxo' : x.1 ≠ o := ho ▸ hxo
        simp [ho, hxo']
      · simp [ho]

/-- Names and values in one list, as `-vars` takes them. -/
def unpairs (ps : List (String × String)) : List String := ps.flatMap fun x => [x.1, x.2]

theorem pairs_some : {args : List String} → {ps : List (String × String)} →
    pairs args = some ps → args = unpairs ps
  | [], ps, h => by
    cases h
    rfl
  | [_], ps, h => by cases h
  | n :: v :: rest, ps, h => by
    rw [pairs] at h
    obtain ⟨ps, hps, rfl⟩ := Option.map_eq_some_iff.mp h
    rw [pairs_some hps]
    rfl

theorem pairs_unpairs_append (ps : List (String × String)) (args : List String) :
    pairs (unpairs ps ++ args) = (pairs args).map (ps ++ ·) := by
  induction ps with
  | nil => simp [unpairs]
  | cons x ps ih =>
    have : unpairs (x :: ps) ++ args = x.1 :: x.2 :: (unpairs ps ++ args) := rfl
    rw [this, pairs, ih, Option.map_map]
    rfl

theorem unpairs_inj {ps ps' : List (String × String)} (h : unpairs ps = unpairs ps') : ps = ps' := by
  have hpairs (ps : List (String × String)) : pairs (unpairs ps) = some ps := by
    simpa [pairs] using pairs_unpairs_append ps []
  rw [← Option.some_inj, ← hpairs, h, hpairs]

/-- What `-getvars` reads. -/
def readVars (defines : Dict String String) (vs : List String) : List (String × String) :=
  vs.map fun v => (v, (defines.lookup v).getD "")

theorem getVars_some {defines : Dict String String} {vs : List String}
    {gs : List (String × String)} (h : getVars defines vs = some gs) : gs = readVars defines vs := by
  induction vs generalizing gs with
  | nil =>
    cases h
    rfl
  | cons v vs ih =>
    obtain ⟨value, hvalue, h⟩ := Option.bind_eq_some_iff.mp h
    obtain ⟨rest, hrest, h⟩ := Option.bind_eq_some_iff.mp h
    cases h
    rw [ih hrest, readVars, readVars, List.map_cons, hvalue]
    rfl

theorem parseArgs_option {arg : String} {args : List String} {opt : String} {n : Nat}
    (harg : arg.toList.head? = some '-') (hn : opt = "vars" → n % 2 = 0) :
    parseArgs (arg :: args) opt n info =
      parseArgs args (String.ofList arg.toList.tail) 0
        (lappendOpt (String.ofList arg.toList.tail) [] info) := by
  rw [parseArgs]
  by_cases hopt : opt = "vars"
  · simp [hopt, harg, hn hopt]
  · simp [hopt, harg, Nat.mod_one]

theorem not_option {arg opt : String} {n : Nat}
    (harg : arg.toList.head? = some '-' → opt = "vars" ∧ n % 2 = 1) :
    ¬(n % (if opt = "vars" then 2 else 1) = 0 && arg.toList.head? = some '-') = true := by
  rw [Bool.and_eq_true, decide_eq_true_eq, decide_eq_true_eq]
  rintro ⟨hn, hhead⟩
  obtain ⟨hopt, hodd⟩ := harg hhead
  rw [if_pos hopt, hodd] at hn
  cases hn

theorem parseArgs_argument {arg : String} {args : List String} {opt : String} {n : Nat}
    (h : parseArgs (arg :: args) opt n info = some info')
    (harg : arg.toList.head? = some '-' → opt = "vars" ∧ n % 2 = 1) :
    parseArgs args opt (n + 1) (lappendOpt opt [arg] info) = some info' := by
  rw [parseArgs, if_neg (not_option harg)] at h
  split at h
  · cases h
  · exact h

/-- The dictionary of options has the variables that are written, `-vars` and `-getvars` each in
order. -/
theorem parseArgs_gives (defines : Dict String String) {args : List String} {opt : String} {n : Nat}
    (h : parseArgs args opt n info = some info') (hnodup : (info.map Prod.fst).Nodup)
    (hn : opt = "vars" → n % 2 = 0) {ps₀ ps' : List (String × String)}
    (hold : argsOf "vars" info = unpairs ps₀) (hnew : argsOf "vars" info' = unpairs ps') :
    ∃ ps vs, ps' = ps₀ ++ ps ∧ argsOf "getvars" info' = argsOf "getvars" info ++ vs ∧
      (givenVars defines args opt).Perm (ps ++ readVars defines vs) := by
  fun_induction givenVars defines args opt generalizing n info ps₀ with
  | case1 opt =>
    cases h
    exact ⟨[], [], by simpa using unpairs_inj (hnew.symm.trans hold), by simp, by simp [readVars]⟩
  | case2 arg args opt harg ih =>
    rw [parseArgs_option harg hn] at h
    have hsame (o : String) : argsOf o (lappendOpt (String.ofList arg.toList.tail) [] info) =
        argsOf o info := by
      rw [argsOf_lappendOpt _ _ _ hnodup]
      split <;> simp
    obtain ⟨ps, vs, hps, hvs, hperm⟩ := ih h (nodup_lappendOpt _ _ hnodup) (fun _ => rfl)
      ((hsame _).trans hold)
    exact ⟨ps, vs, hps, (hsame _) ▸ hvs, hperm⟩
  | case3 arg harg =>
    -- a name without a value
    have h' := parseArgs_argument h fun hhead => absurd hhead harg
    cases h'
    rw [argsOf_lappendOpt _ _ _ hnodup, if_pos rfl, hold] at hnew
    have hodd := congrArg pairs hnew
    rw [pairs_unpairs_append, ← List.append_nil (unpairs ps'), pairs_unpairs_append] at hodd
    cases hodd
  | case4 arg harg value args ih =>
    have h₁ := parseArgs_argument h fun hhead => absurd hhead harg
    have h₂ := parseArgs_argument h₁ fun _ => ⟨rfl, by have := hn rfl; omega⟩
    have hnodup₁ := nodup_lappendOpt "vars" [arg] hnodup
    have hargs (o : String) : argsOf o (lappendOpt "vars" [value] (lappendOpt "vars" [arg] info)) =
        if "vars" = o then argsOf o info ++ [arg, value] else argsOf o info := by
      rw [argsOf_lappendOpt _ _ _ hnodup₁, argsOf_lappendOpt _ _ _ hnodup]
      split <;> simp
    have hold' : argsOf "vars" (lappendOpt "vars" [value] (lappendOpt "vars" [arg] info)) =
        unpairs (ps₀ ++ [(arg, value)]) := by
      rw [hargs, if_pos rfl, hold]
      simp [unpairs]
    obtain ⟨ps, vs, hps, hvs, hperm⟩ := ih h₂ (nodup_lappendOpt _ _ hnodup₁)
      (fun _ => by have := hn rfl; omega) hold'
    refine ⟨(arg, value) :: ps, vs, by simp [hps], ?_, hperm.cons _⟩
    rw [hvs, hargs, if_neg (by decide)]
  | case5 arg args harg hvars ih =>
    have h' := parseArgs_argument h fun hhead => absurd hhead harg
    have hold' : argsOf "vars" (lappendOpt "getvars" [arg] info) = unpairs ps₀ := by
      rw [argsOf_lappendOpt _ _ _ hnodup, if_neg (by decide), hold]
    obtain ⟨ps, vs, hps, hvs, hperm⟩ := ih h' (nodup_lappendOpt _ _ hnodup)
      (fun hopt => absurd hopt (by decide)) hold'
    refine ⟨ps, arg :: vs, hps, ?_, ?_⟩
    · rw [hvs, argsOf_lappendOpt _ _ _ hnodup, if_pos rfl, List.append_assoc]
      rfl
    · exact (hperm.cons _).trans List.perm_middle.symm
  | case6 arg args opt harg hvars hgetvars ih =>
    have h' := parseArgs_argument h fun hhead => absurd hhead harg
    have hold' : argsOf "vars" (lappendOpt opt [arg] info) = unpairs ps₀ := by
      rw [argsOf_lappendOpt _ _ _ hnodup, if_neg hvars, hold]
    obtain ⟨ps, vs, hps, hvs, hperm⟩ := ih h' (nodup_lappendOpt _ _ hnodup)
      (fun hopt => absurd hopt hvars) hold'
    refine ⟨ps, vs, hps, ?_, hperm⟩
    rw [hvs, argsOf_lappendOpt _ _ _ hnodup, if_neg hgetvars]

theorem getVars_append {defines : Dict String String} {vs vs' : List String}
    {gs gs' : List (String × String)} (h : getVars defines vs = some gs)
    (h' : getVars defines vs' = some gs') : getVars defines (vs ++ vs') = some (gs ++ gs') := by
  induction vs generalizing gs with
  | nil =>
    cases h
    exact h'
  | cons v vs ih =>
    obtain ⟨value, hvalue, h⟩ := Option.bind_eq_some_iff.mp h
    obtain ⟨rest, hrest, h⟩ := Option.bind_eq_some_iff.mp h
    cases h
    rw [List.cons_append, getVars, hvalue, ih hrest]
    rfl

section
variable {elements : String → List String} {c : TargetCommand}

theorem applyOption_vars {rule rule' : RuleInfo} {opt : String} {args : List String}
    (h : applyOption elements c rule opt args = some rule') :
    (opt = "vars" ∧ ∃ ps, pairs args = some ps ∧ rule'.vars = rule.vars ++ ps) ∨
    (opt = "getvars" ∧ ∃ gs, getVars c.defines args = some gs ∧ rule'.vars = rule.vars ++ gs) ∨
    (opt ≠ "vars" ∧ opt ≠ "getvars" ∧ rule'.vars = rule.vars) := by
  unfold applyOption at h
  split at h
  · rename_i flag hflag
    have hopt : opt ≠ "vars" ∧ opt ≠ "getvars" := by
      constructor <;> rintro rfl <;> cases hflag
    split at h <;> cases h
    exact .inr (.inr ⟨hopt.1, hopt.2, rfl⟩)
  · split at h <;> (try split at h) <;> simp at h
    all_goals first
      | (subst h; exact .inr (.inr ⟨by decide, by decide, rfl⟩))
      | (obtain ⟨ps, hps, rfl⟩ := h; exact .inl ⟨rfl, ps, hps, rfl⟩)
      | (obtain ⟨gs, hgs, rfl⟩ := h; exact .inr (.inl ⟨rfl, gs, hgs, rfl⟩))

/-- The variables of a rule are those of its `-vars` and `-getvars`, option by option. -/
theorem applyOptions_vars {opts : List (String × List String)} {rule rule' : RuleInfo}
    (h : applyOptions elements c opts rule = some rule') :
    ∃ ps gs, pairs (argsOf "vars" opts) = some ps ∧
      getVars c.defines (argsOf "getvars" opts) = some gs ∧
      rule'.vars.Perm (rule.vars ++ (ps ++ gs)) := by
  induction opts generalizing rule with
  | nil =>
    cases h
    exact ⟨[], [], rfl, rfl, by simp⟩
  | cons opt opts ih =>
    obtain ⟨rule₁, h₁, h₂⟩ := Option.bind_eq_some_iff.mp h
    obtain ⟨ps, gs, hps, hgs, hperm⟩ := ih h₂
    rw [argsOf_cons, argsOf_cons]
    rcases applyOption_vars h₁ with ⟨hopt, ps₁, hps₁, hvars⟩ | ⟨hopt, gs₁, hgs₁, hvars⟩ |
      ⟨hopt, hopt', hvars⟩
    · rw [if_pos hopt, if_neg (by rw [hopt]; decide), pairs_some hps₁, pairs_unpairs_append, hps]
      refine ⟨ps₁ ++ ps, gs, rfl, hgs, ?_⟩
      rw [hvars] at hperm
      simpa using hperm
    · rw [if_neg (by rw [hopt]; decide), if_pos hopt]
      refine ⟨ps, gs₁ ++ gs, hps, getVars_append hgs₁ hgs, ?_⟩
      rw [hvars, List.append_assoc] at hperm
      refine hperm.trans (List.Perm.append_left _ ?_)
      rw [← List.append_assoc, ← List.append_assoc]
      exact List.perm_append_comm.append_right gs
    · rw [if_neg hopt, if_neg hopt', ← hvars]
      exact ⟨ps, gs, hps, hgs, hperm⟩

/-- The values of a fragment are those that its command gives, in some order. -/
theorem fragment_vars {f : RuleInfo} (h : fragment elements c = some f) (n : String) :
    (c.valuesOf n).Perm (collected n f.vars) := by
  obtain ⟨info, hinfo, rfl⟩ := Option.map_eq_some_iff.mp h
  obtain ⟨arginfo, harg, hinfo⟩ := Option.bind_eq_some_iff.mp hinfo
  obtain ⟨parsed, hparsed, hinfo⟩ := Option.bind_eq_some_iff.mp hinfo
  obtain ⟨ps, gs, hps, hgs, hperm⟩ := applyOptions_vars hparsed
  have hvars : info.vars = parsed.vars := by
    split at hinfo
    · split at hinfo <;> cases hinfo
      rfl
    · cases hinfo
      rfl
  have hempty : argsOf "vars" [] = unpairs [] := rfl
  obtain ⟨ps', vs, rfl, hvs, hgiven⟩ :=
    parseArgs_gives c.defines harg (by simp) (by simp) hempty (pairs_some hps)
  rw [← List.nil_append vs, show ([] : List String) = argsOf "getvars" [] from rfl, ← hvs,
    ← getVars_some hgs] at hgiven
  have := hgiven.trans hperm.symm
  rw [TargetCommand.valuesOf, collected, collected, hvars]
  exact (this.filter _).map _

end

/-! ## What becomes of the values -/

/-- The values that the commands give for the variable, in order. -/
def valuesOf (n : String) (cs : List TargetCommand) : List String :=
  cs.flatMap (TargetCommand.valuesOf n)

/-- The command `c`, after the commands `pre` for its target, loses no value of the variable.
What is collected option by option is what is written; a command that is ignored gives nothing;
and the first that gives any variables gives no value, except empty ones, before the last. -/
structure NoneLost (elements : String → List String) (n : String) (pre : List TargetCommand)
    (c : TargetCommand) (f : RuleInfo) : Prop where
  order : accumulate (accumulate "" (valuesOf n pre)) (c.valuesOf n) =
    accumulate (accumulate "" (valuesOf n pre)) (collected n f.vars)
  taken : isDuplicate (pre.filterMap (fragment elements)) f = true →
    c.valuesOf n = [] ∨ accumulate "" (valuesOf n pre) = "" ∧ ∀ v ∈ c.valuesOf n, v = ""
  once : (∀ g ∈ pre.filterMap (fragment elements), g.vars = []) →
    ∀ v ∈ (collected n f.vars).dropLast, v = ""

/-- No command loses a value of the variable. -/
def AllKept (elements : String → List String) (n : String) (cs : List TargetCommand) : Prop :=
  AtEach (fun pre c => ∀ f ∈ fragment elements c, NoneLost elements n pre c f) cs

instance (elements : String → List String) (n : String) (pre : List TargetCommand)
    (c : TargetCommand) (f : RuleInfo) : Decidable (NoneLost elements n pre c f) :=
  decidable_of_iff (_ ∧ _ ∧ _) ⟨fun h => ⟨h.1, h.2.1, h.2.2⟩, fun h => ⟨h.order, h.taken, h.once⟩⟩

instance (elements : String → List String) (n : String) (cs : List TargetCommand) :
    Decidable (AllKept elements n cs) :=
  inferInstanceAs (Decidable
    (AtEach (fun pre c => ∀ f ∈ fragment elements c, NoneLost elements n pre c f) cs))

/-- The variable in a rule, and the values that have been given for it. -/
structure Composed (elements : String → List String) (n : String) (cs : List TargetCommand)
    (rule : RuleInfo) : Prop where
  bound : collected n rule.vars = [] ↔ valuesOf n cs = []
  empty : accumulate "" (valuesOf n cs) = "" → dictValue n rule.vars = ""
  none : rule.vars = [] ↔ ∀ g ∈ cs.filterMap (fragment elements), g.vars = []
  value : accumulate "" (valuesOf n cs) = dictValue n rule.vars ↔ AllKept elements n cs

section
variable {elements : String → List String} {n : String} {cs : List TargetCommand}
  {c : TargetCommand} {f orig rule : RuleInfo}

@[simp] theorem valuesOf_concat (n : String) (cs : List TargetCommand) (c : TargetCommand) :
    valuesOf n (cs ++ [c]) = valuesOf n cs ++ c.valuesOf n := by
  simp [valuesOf]

theorem allKept_concat (hc : fragment elements c = some f) :
    AllKept elements n (cs ++ [c]) ↔ AllKept elements n cs ∧ NoneLost elements n cs c f := by
  rw [AllKept, atEach_concat, hc]
  simp [AllKept]

theorem filterMap_concat (hc : fragment elements c = some f) :
    (cs ++ [c]).filterMap (fragment elements) = cs.filterMap (fragment elements) ++ [f] := by
  rw [List.filterMap_append, List.filterMap_cons, hc]
  rfl

/-- The first command that gives variables: a dictionary has the last of its values. -/
theorem noneLost_first (hc : fragment elements c = some f)
    (hdup : isDuplicate (cs.filterMap (fragment elements)) f = false)
    (hnone : ∀ g ∈ cs.filterMap (fragment elements), g.vars = [])
    (hempty : accumulate "" (valuesOf n cs) = "") :
    NoneLost elements n cs c f ↔ accumulate "" (c.valuesOf n) = dictValue n f.vars := by
  rw [dictValue, accumulate_eq_last_iff (fragment_vars hc n)]
  constructor
  · intro h
    have horder := h.order
    rw [hempty] at horder
    exact ⟨horder, h.once hnone⟩
  · rintro ⟨horder, honce⟩
    refine ⟨?_, fun h => absurd (hdup.symm.trans h) (by decide), fun _ => honce⟩
    rw [hempty]
    exact horder

theorem Composed.first (hc : fragment elements c = some f) :
    Composed elements n [c] f.complete := by
  have hvalues : valuesOf n [c] = c.valuesOf n := by simp [valuesOf]
  have hperm := fragment_vars hc n
  have hvars : f.complete.vars = f.vars := rfl
  refine ⟨?_, fun hempty => ?_, ?_, ?_⟩
  · rw [hvalues, hvars]
    exact ⟨fun hnil => (hnil ▸ hperm).eq_nil, fun hnil => (hnil ▸ hperm).nil_eq.symm⟩
  · rw [hvalues, accumulate_eq_empty_iff] at hempty
    exact dictValue_empty fun v hv => hempty.2 v (hperm.mem_iff.mpr hv)
  · simp [hc, hvars]
  · rw [hvalues, hvars, ← List.nil_append [c], allKept_concat hc,
      noneLost_first hc rfl (by simp) rfl]
    simp [AllKept]

/-- A command that is ignored: its variables are those of the rule. -/
theorem Composed.ignore (h : Composed elements n cs orig) (hc : fragment elements c = some f)
    (hdup : isDuplicate (cs.filterMap (fragment elements)) f = true) (hvars : f.vars = orig.vars) :
    Composed elements n (cs ++ [c]) orig := by
  have hperm := fragment_vars hc n
  rw [hvars] at hperm
  have hkept : AllKept elements n (cs ++ [c]) ↔ AllKept elements n cs ∧
      (c.valuesOf n = [] ∨ accumulate "" (valuesOf n cs) = "" ∧ ∀ v ∈ c.valuesOf n, v = "") := by
    rw [allKept_concat hc]
    refine and_congr_right fun _ => ⟨fun hnone => hnone.taken hdup, fun hnone => ?_⟩
    refine ⟨?_, fun _ => hnone, fun hall => ?_⟩
    · rw [hvars]
      rcases hnone with hnil | ⟨hempty, hall⟩
      · have hnone : collected n orig.vars = [] := (hnil ▸ hperm).nil_eq.symm
        rw [hnil, hnone]
      · rw [hempty, accumulate_eq_empty_iff.mpr ⟨rfl, hall⟩, accumulate_eq_empty_iff.mpr
          ⟨rfl, fun v hv => hall v (hperm.mem_iff.mpr hv)⟩]
    · rw [hvars, h.none.mpr hall]
      simp
  refine ⟨?_, fun hempty => ?_, ?_, ?_⟩
  · rw [h.bound, valuesOf_concat, List.append_eq_nil_iff]
    refine ⟨fun hnil => ⟨hnil, ?_⟩, And.left⟩
    exact ((h.bound.mpr hnil) ▸ hperm).eq_nil
  · rw [valuesOf_concat, accumulate_append, accumulate_eq_empty_iff] at hempty
    exact h.empty hempty.1
  · rw [filterMap_concat hc, List.forall_mem_append, List.forall_mem_singleton, hvars, h.none]
    simp
  · rw [hkept, ← h.value, ← accumulate_eq_self_iff, valuesOf_concat, accumulate_append]
    constructor
    · intro heq
      by_cases hsame : accumulate "" (valuesOf n cs) = dictValue n orig.vars
      · exact ⟨hsame, heq.trans hsame.symm⟩
      · -- the value that is ignored comes on top of what is not equal already
        exfalso
        have hne : accumulate "" (valuesOf n cs) ≠ "" := fun hempty =>
          hsame (hempty.trans (h.empty hempty).symm)
        obtain ⟨t, ht, hlength⟩ := accumulate_of_ne hne (c.valuesOf n)
        rcases List.eq_nil_or_concat (collected n orig.vars) with hnil | ⟨init, last, hlast⟩
        · have hnone : c.valuesOf n = [] := (hnil ▸ hperm).eq_nil
          rw [hnone] at heq
          exact hsame heq
        · rw [List.concat_eq_append] at hlast
          have hmem : last ∈ c.valuesOf n := hperm.mem_iff.mpr (by rw [hlast]; simp)
          have hle := length_le_weight hmem
          rw [ht, dictValue, hlast, List.getLastD_concat] at heq
          have := congrArg String.length heq
          rw [String.length_append] at this
          omega
    · rintro ⟨hsame, hself⟩
      exact hself.trans hsame

/-- A command that is merged. -/
theorem Composed.merge (h : Composed elements n cs orig) (hc : fragment elements c = some f)
    (hdup : isDuplicate (cs.filterMap (fragment elements)) f = false)
    (hvars : rule.vars = mergeVars orig.vars f.vars) : Composed elements n (cs ++ [c]) rule := by
  have hperm := fragment_vars hc n
  have hempty : accumulate "" (valuesOf n (cs ++ [c])) = "" →
      dictValue n orig.vars = "" ∧ ∀ v ∈ collected n f.vars, v = "" := by
    intro hempty
    rw [valuesOf_concat, accumulate_append, accumulate_eq_empty_iff] at hempty
    exact ⟨h.empty hempty.1, fun v hv => hempty.2 v (hperm.mem_iff.mpr hv)⟩
  refine ⟨?_, fun hnone => ?_, ?_, ?_⟩
  · rw [hvars, mergeVars_unbound, h.bound, valuesOf_concat, List.append_eq_nil_iff]
    exact and_congr_right fun _ =>
      ⟨fun hnil => (hnil ▸ hperm).eq_nil, fun hnil => (hnil ▸ hperm).nil_eq.symm⟩
  · obtain ⟨hold, hnew⟩ := hempty hnone
    rw [hvars]
    by_cases hfirst : orig.vars = []
    · rw [hfirst, mergeVars_nil]
      exact dictValue_empty hnew
    · rw [dictValue_mergeVars n fun hnil => absurd hnil hfirst]
      exact accumulate_eq_empty_iff.mpr ⟨hold, hnew⟩
  · rw [filterMap_concat hc, List.forall_mem_append, List.forall_mem_singleton, ← h.none, hvars,
      mergeVars_eq_nil]
  · rw [allKept_concat hc, ← h.value, valuesOf_concat, accumulate_append, hvars]
    by_cases hfirst : orig.vars = []
    · have hunbound : valuesOf n cs = [] := h.bound.mp (by rw [hfirst]; rfl)
      rw [hfirst, mergeVars_nil, noneLost_first hc hdup (h.none.mp hfirst) (by rw [hunbound]; rfl),
        hunbound]
      simp [dictValue]
    · rw [dictValue_mergeVars n fun hnil => absurd hnil hfirst]
      by_cases hsame : accumulate "" (valuesOf n cs) = dictValue n orig.vars
      · refine ⟨fun heq => ⟨hsame, ?_⟩, fun hkept => ?_⟩
        · refine ⟨by rw [heq, hsame], fun h => absurd (hdup.symm.trans h) (by decide), fun hall => ?_⟩
          exact absurd (h.none.mpr hall) hfirst
        · rw [hkept.2.order, hsame]
      · refine ⟨fun heq => ?_, fun hkept => absurd hkept.1 hsame⟩
        exact absurd heq (accumulate_ne hsame h.empty hperm)

/-- The last fragment comes from the last command. -/
theorem map_fragment_concat {fs : List RuleInfo}
    (h : cs.map (fragment elements) = (fs ++ [f]).map some) :
    ∃ init c, cs = init ++ [c] ∧ init.map (fragment elements) = fs.map some ∧
      init.filterMap (fragment elements) = fs ∧ fragment elements c = some f := by
  rw [List.map_append, List.map_eq_append_iff] at h
  obtain ⟨init, last, rfl, hinit, hlast⟩ := h
  obtain ⟨c, rfl, hc⟩ := List.map_eq_singleton_iff.mp hlast
  have hfs := congrArg (List.filterMap id) hinit
  rw [List.filterMap_map, List.filterMap_map] at hfs
  exact ⟨init, c, rfl, hinit, by simpa using hfs, hc⟩

/-- The run lemma: the variable is tracked through all commands for a target. -/
theorem assemble_tracks {fs : List RuleInfo} (h : assemble fs = some (some rule))
    (hcs : cs.map (fragment elements) = fs.map some) : Composed elements n cs rule := by
  refine assemble_induction (P := fun fs rule => ∀ cs : List TargetCommand,
    cs.map (fragment elements) = fs.map some → Composed elements n cs rule)
    ?first ?ignored ?merged h cs hcs
  case first =>
    intro f cs hcs
    obtain ⟨c, rfl, hc⟩ := List.map_eq_singleton_iff.mp hcs
    exact Composed.first hc
  case ignored =>
    intro fs f orig horig ih hsame cs hcs
    obtain ⟨init, c, rfl, hinit, rfl, hc⟩ := map_fragment_concat hcs
    refine (ih init hinit).ignore hc ((isDuplicate_eq horig f).trans hsame) ?_
    simp only [RuleInfo.identical, Bool.and_eq_true, decide_eq_true_eq] at hsame
    exact hsame.1.2
  case merged =>
    intro fs f orig rule horig ih hsame hmerged cs hcs
    obtain ⟨init, c, rfl, hinit, rfl, hc⟩ := map_fragment_concat hcs
    obtain ⟨-, -, -, -, -, -, hvars, -⟩ := mergeRule_fields hmerged
    exact (ih init hinit).merge hc ((isDuplicate_eq horig f).trans hsame) hvars

/-- Every command that is accepted gives a fragment. -/
theorem RuleBase.Sound.parsed {b b' : RuleBase} (hb : b.Sound)
    (h : Tmake.targets elements cs b = some b') : ∀ c ∈ cs, (fragment elements c).isSome := by
  induction cs generalizing b with
  | nil => simp
  | cons c cs ih =>
    obtain ⟨b₁, h₁, h₂⟩ := Option.bind_eq_some_iff.mp h
    obtain ⟨-, f, hf, -⟩ := hb.extend h₁
    rw [List.forall_mem_cons]
    exact ⟨by simp [hf], ih (hb.target h₁) h₂⟩

end

end

/-- What `make-var-dict` reads of a rule: the variables are a dictionary, in which the last value
for a name counts. -/
def RuleInfo.varRule (info : RuleInfo) : Rule :=
  { target := info.target, depends := info.depends, inputs := info.inputs
    vars := info.vars.reverse, localDir := info.localDir }

/-- The standard variables of the rule. -/
def RuleInfo.standardVars (d : Desc) (info : RuleInfo) : List (String × String) :=
  makeVarDict d { info.varRule with vars := [] }

theorem lookup_makeVarDict (d : Desc) (info : RuleInfo) (n : String) :
    (makeVarDict d info.varRule).lookup n =
      ((info.standardVars d).lookup n).or (collected n info.vars).getLast? := by
  have happend : makeVarDict d info.varRule = info.standardVars d ++ info.vars.reverse := by
    rw [RuleInfo.standardVars, makeVarDict, makeVarDict, List.append_nil]
    rfl
  rw [happend, List.lookup_append, lookup_reverse]

/-- The value for a name, if there is one, is the dictionary's. -/
theorem getLast?_collected {n : String} {vars : List (String × String)} {value : String}
    (h : collected n vars ≠ []) :
    (collected n vars).getLast? = some value ↔ dictValue n vars = value := by
  rw [dictValue, List.getLastD_eq_getLast?, List.getLast?_eq_some_getLast h]
  simp

theorem map_fragment {elements : String → List String} {cs : List TargetCommand}
    (h : ∀ c ∈ cs, (fragment elements c).isSome) :
    cs.map (fragment elements) = (cs.filterMap (fragment elements)).map some := by
  induction cs with
  | nil => rfl
  | cons c cs ih =>
    rw [List.forall_mem_cons] at h
    obtain ⟨f, hf⟩ := Option.isSome_iff_exists.mp h.1
    rw [List.map_cons, List.filterMap_cons, hf, ih h.2]
    rfl

/-- **Bound variables accumulate** exactly if no value is lost.  The value that the scripts of a
rule see of a variable is everything that its commands give for it, unless it is a standard
variable, whose own value hides that, or a command loses a value (`NoneLost`); a variable for
which nothing is given is not bound. -/
theorem bound_vars (elements : String → List String) (cs : List TargetCommand) (b : RuleBase)
    (h : targets elements cs {} = some b) (rt : RuleTarget) (rule : RuleInfo)
    (hrule : b.rules.lookup rt = some rule) (d : Desc) (n : String) :
    (valuesOf n (cs.filter fun c => c.target = rt) ≠ [] →
      ((makeVarDict d rule.varRule).lookup n =
          some (accumulate "" (valuesOf n (cs.filter fun c => c.target = rt))) ↔
        match (rule.standardVars d).lookup n with
        | some value => value = accumulate "" (valuesOf n (cs.filter fun c => c.target = rt))
        | none => AllKept elements n (cs.filter fun c => c.target = rt))) ∧
    (valuesOf n (cs.filter fun c => c.target = rt) = [] →
      (makeVarDict d rule.varRule).lookup n = (rule.standardVars d).lookup n) := by
  have hparsed := RuleBase.Sound.empty.parsed h
  have hfilter : ∀ c ∈ cs.filter fun c => c.target = rt, (fragment elements c).isSome :=
    fun c hc => hparsed c (List.mem_filter.mp hc).1
  have hmap := map_fragment hfilter
  have htracks := assemble_tracks (n := n) ((targets_assemble h rt).trans (congrArg some hrule)) hmap
  rw [lookup_makeVarDict]
  refine ⟨fun hgiven => ?_, fun hnone => ?_⟩
  · cases (rule.standardVars d).lookup n with
    | some value => simp
    | none =>
      rw [Option.none_or, getLast?_collected fun hnil => hgiven (htracks.bound.mp hnil)]
      exact eq_comm.trans htracks.value
  · rw [htracks.bound.mpr hnone]
    simp

/-- The description of no rules. -/
def bare : Desc := { rules := [], disjoint := .nil }

/-- `target prog -vars LIBS m` and then `target prog -vars LIBS z -do ld`. -/
def libsTwice : List TargetCommand :=
  [prog ["-vars", "LIBS", "m"], prog ["-vars", "LIBS", "z", "-do", "ld"]]

theorem bound_vars_libs :
    ∃ b rule, targets (fun value => [value]) libsTwice {} = some b ∧
      b.rules.lookup ["prog"] = some rule ∧
      (makeVarDict bare rule.varRule).lookup "LIBS" = some "m z" := by
  obtain ⟨b, hb, hrule⟩ := Option.bind_eq_some_iff.mp (Option.some_get
    (show ((targets (fun value => [value]) libsTwice {}).bind fun b =>
      b.rules.lookup ["prog"]).isSome = true by decide +kernel)).symm
  obtain ⟨hvalue, -⟩ := bound_vars _ _ b hb _ _ hrule bare "LIBS"
  refine ⟨b, _, hb, hrule, ?_⟩
  have hgiven : accumulate "" (valuesOf "LIBS" (libsTwice.filter fun c => c.target = ["prog"])) =
      "m z" := by decide +kernel
  rw [← hgiven, hvalue (by decide +kernel)]
  have hkept : AllKept (fun value => [value]) "LIBS"
      (libsTwice.filter fun c => c.target = ["prog"]) := by decide +kernel
  exact hkept

/-- `target prog -vars LIBS m LIBS z -do ld`. -/
def libsOnce : List TargetCommand := [prog ["-vars", "LIBS", "m", "LIBS", "z", "-do", "ld"]]

/-- Of two values in the first command only the last is seen. -/
theorem bound_vars_lost :
    ∃ b rule, targets (fun value => [value]) libsOnce {} = some b ∧
      b.rules.lookup ["prog"] = some rule ∧
      accumulate "" (valuesOf "LIBS" (libsOnce.filter fun c => c.target = ["prog"])) = "m z" ∧
      (makeVarDict bare rule.varRule).lookup "LIBS" = some "z" := by
  obtain ⟨b, hb, hrule⟩ := Option.bind_eq_some_iff.mp
    (show ((targets (fun value => [value]) libsOnce {}).bind fun b =>
      (b.rules.lookup ["prog"]).map fun rule => (makeVarDict bare rule.varRule).lookup "LIBS") =
        some (some "z") by decide +kernel)
  obtain ⟨rule, hrule, hvalue⟩ := Option.map_eq_some_iff.mp hrule
  exact ⟨b, rule, hb, hrule, by decide +kernel, hvalue⟩

end Tmake
