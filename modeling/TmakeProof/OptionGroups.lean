import Mathlib.Data.List.Basic
import TmakeProof.BoundVars

/-! # Option groups

`parse-rule-args` decides by a counter whether a word that starts with a dash is an
option or the value of a variable.  Where a rule is accepted the counter is neutral
behind its last word: the last `-vars` has as many values as names.  So the options
of two rules can be written one behind the other, and the dictionary has for each of
them the values of both.
-/
namespace Tmake
namespace RuleBase

/-- Two dictionaries of options, key by key: the keys of the first one keep their places. -/
def keywise (info info' : List (String × List String)) : List (String × List String) :=
  info.map (fun x => (x.1, x.2 ++ argsOf x.1 info')) ++
    info'.filter fun x => !(info.any fun y => y.1 = x.1)

section
variable {info info' : List (String × List String)}

@[simp] theorem keywise_nil (info : List (String × List String)) : keywise info [] = info := by
  simp [keywise, argsOf]

theorem lappendOpt_append_of_mem {o : String} (as : List String) (h : o ∈ info.map Prod.fst)
    (info' : List (String × List String)) :
    lappendOpt o as (info ++ info') = lappendOpt o as info ++ info' := by
  induction info with
  | nil => cases h
  | cons x info ih =>
    rw [List.cons_append, lappendOpt, lappendOpt]
    by_cases hx : x.1 = o
    · rw [if_pos hx, if_pos hx, List.cons_append]
    · have hmem := (List.mem_cons.mp h).resolve_left (Ne.symm hx)
      rw [if_neg hx, if_neg hx, ih hmem, List.cons_append]

theorem lappendOpt_append_of_notMem {o : String} (as : List String) (h : o ∉ info.map Prod.fst)
    (info' : List (String × List String)) :
    lappendOpt o as (info ++ info') = info ++ lappendOpt o as info' := by
  induction info with
  | nil => rfl
  | cons x info ih =>
    obtain ⟨hx, hinfo⟩ := not_or.mp (List.mem_cons.not.mp h)
    rw [List.cons_append, lappendOpt, if_neg (Ne.symm hx), ih hinfo, List.cons_append]

/-- A key that is there once gets the values at the end of its own. -/
theorem lappendOpt_eq_map {o : String} (as : List String) (h : o ∈ info.map Prod.fst)
    (hnodup : (info.map Prod.fst).Nodup) :
    lappendOpt o as info = info.map fun x => (x.1, x.2 ++ if x.1 = o then as else []) := by
  induction info with
  | nil => cases h
  | cons x info ih =>
    obtain ⟨hx, hinfo⟩ := List.nodup_cons.mp hnodup
    rw [lappendOpt, List.map_cons]
    by_cases hxo : x.1 = o
    · have hrest : info.map (fun y => (y.1, y.2 ++ if y.1 = o then as else [])) = info := by
        refine (List.map_congr_left fun y hy => ?_).trans (List.map_id _)
        have hyo : y.1 ≠ o := fun hyo => hx (hxo ▸ hyo ▸ List.mem_map_of_mem hy)
        rw [if_neg hyo, List.append_nil]
        rfl
      rw [if_pos hxo, hrest, if_pos hxo]
    · have hmem := (List.mem_cons.mp h).resolve_left (Ne.symm hxo)
      rw [if_neg hxo, ih hmem hinfo, if_neg hxo, List.append_nil]

theorem filter_lappendOpt (p : String → Bool) (o : String) (as : List String)
    (info : List (String × List String)) :
    (lappendOpt o as info).filter (fun x => p x.1) =
      if p o then lappendOpt o as (info.filter fun x => p x.1)
      else info.filter fun x => p x.1 := by
  induction info with
  | nil => by_cases ho : p o = true <;> simp [lappendOpt, ho]
  | cons x info ih =>
    rw [lappendOpt]
    by_cases hxo : x.1 = o
    · by_cases ho : p o = true <;> simp [hxo, ho, lappendOpt]
    · rw [if_neg hxo, List.filter_cons, ih]
      by_cases hx : p x.1 = true
      · by_cases ho : p o = true <;> simp [hx, hxo, ho, lappendOpt]
      · simp [hx]

theorem keywise_lappendOpt (o : String) (as : List String) (hnodup : (info.map Prod.fst).Nodup)
    (hnodup' : (info'.map Prod.fst).Nodup) :
    keywise info (lappendOpt o as info') = lappendOpt o as (keywise info info') := by
  have hkeys (f : String × List String → List String) :
      (info.map fun x => (x.1, f x)).map Prod.fst = info.map Prod.fst := by
    rw [List.map_map]
    rfl
  have hany : (info.any fun y => y.1 = o) = true ↔ o ∈ info.map Prod.fst := by
    simp [List.any_eq_true]
  rw [keywise, keywise, filter_lappendOpt (fun k => !(info.any fun y => y.1 = k))]
  -- the values go to a key that is there already, or to a new one behind the others
  by_cases ho : o ∈ info.map Prod.fst
  · have ho' : o ∈ (info.map fun x => (x.1, x.2 ++ argsOf x.1 info')).map Prod.fst := by
      rwa [hkeys fun x => x.2 ++ argsOf x.1 info']
    rw [if_neg (by simp [hany.mpr ho]), lappendOpt_append_of_mem as ho',
      lappendOpt_eq_map as ho' (by rwa [hkeys fun x => x.2 ++ argsOf x.1 info']), List.map_map]
    refine congrArg (· ++ _) (List.map_congr_left fun x _ => ?_)
    rw [argsOf_lappendOpt _ _ _ hnodup']
    by_cases hx : x.1 = o
    · simp [hx]
    · simp [hx, Ne.symm hx]
  · have ho' : o ∉ (info.map fun x => (x.1, x.2 ++ argsOf x.1 info')).map Prod.fst := by
      rwa [hkeys fun x => x.2 ++ argsOf x.1 info']
    have hpass : (!(info.any fun y => y.1 = o)) = true := by
      rw [Bool.not_eq_true', ← Bool.not_eq_true, hany]
      exact ho
    rw [if_pos hpass, lappendOpt_append_of_notMem as ho']
    refine congrArg (· ++ _) (List.map_congr_left fun x hx => ?_)
    have hxo : o ≠ x.1 := fun h => ho (h ▸ List.mem_map_of_mem hx)
    rw [argsOf_lappendOpt _ _ _ hnodup', if_neg hxo]

end

/-! ## The parser, word by word -/

section
variable {info info' : List (String × List String)} {opt : String} {n : Nat}

/-- What a word can be: an option, a word where there is no option yet, or a value. -/
theorem parseArgs_cons (arg opt : String) (n : Nat) :
    ((opt = "vars" → n % 2 = 0) ∧ ∀ args info, parseArgs (arg :: args) opt n info =
      parseArgs args (String.ofList arg.toList.tail) 0
        (lappendOpt (String.ofList arg.toList.tail) [] info)) ∨
    (∀ args info, parseArgs (arg :: args) opt n info = none) ∨
    ∀ args info, parseArgs (arg :: args) opt n info =
      parseArgs args opt (n + 1) (lappendOpt opt [arg] info) := by
  by_cases hoption : (opt = "vars" → n % 2 = 0) ∧ arg.toList.head? = some '-'
  · exact .inl ⟨hoption.1, fun args info => parseArgs_option hoption.2 hoption.1⟩
  · have hno : ¬(n % (if opt = "vars" then 2 else 1) = 0 && arg.toList.head? = some '-') = true :=
      not_option fun hhead => by grind
    by_cases hopt : opt = ""
    · exact .inr (.inl fun args info => by rw [parseArgs, if_neg hno, if_pos hopt])
    · exact .inr (.inr fun args info => by rw [parseArgs, if_neg hno, if_neg hopt])

theorem parseArgs_keywise (args : List String) (opt : String) (n : Nat)
    (hnodup : (info.map Prod.fst).Nodup) (hnodup' : (info'.map Prod.fst).Nodup) :
    parseArgs args opt n (keywise info info') =
      (parseArgs args opt n info').map (keywise info) := by
  induction args generalizing opt n info' with
  | nil => rfl
  | cons arg args ih =>
    obtain ⟨-, hstep⟩ | hstep | hstep := parseArgs_cons arg opt n
    · rw [hstep, hstep, ← keywise_lappendOpt _ _ hnodup hnodup', ih _ _ (nodup_lappendOpt _ _ hnodup')]
    · rw [hstep, hstep]
      rfl
    · rw [hstep, hstep, ← keywise_lappendOpt _ _ hnodup hnodup', ih _ _ (nodup_lappendOpt _ _ hnodup')]

/-- The counter and the values of `-vars` are odd together, while they are read. -/
def Counted (opt : String) (n : Nat) (info : List (String × List String)) : Prop :=
  (argsOf "vars" info).length % 2 = if opt = "vars" then n % 2 else 0

theorem Counted.option (h : Counted opt n info) (hn : opt = "vars" → n % 2 = 0)
    (hnodup : (info.map Prod.fst).Nodup) (opt' : String) :
    Counted opt' 0 (lappendOpt opt' [] info) := by
  have heven : (argsOf "vars" info).length % 2 = 0 := by
    rw [h]
    split
    · exact hn ‹_›
    · rfl
  rw [Counted, argsOf_lappendOpt _ _ _ hnodup]
  split <;> simpa using heven

theorem Counted.value (h : Counted opt n info) (hnodup : (info.map Prod.fst).Nodup)
    (arg : String) : Counted opt (n + 1) (lappendOpt opt [arg] info) := by
  rw [Counted] at h ⊢
  rw [argsOf_lappendOpt _ _ _ hnodup]
  by_cases hvars : opt = "vars"
  · rw [if_pos hvars] at h
    rw [if_pos hvars, if_pos hvars, List.length_append, List.length_singleton]
    omega
  · rw [if_neg hvars] at h ⊢
    rw [if_neg hvars, h]

/-- The words are read one after the other: what follows is read from the state they leave. -/
theorem parseArgs_run {args : List String} (h : parseArgs args opt n info = some info')
    (hnodup : (info.map Prod.fst).Nodup) (hcount : Counted opt n info) :
    ∃ opt' n', Counted opt' n' info' ∧ (info'.map Prod.fst).Nodup ∧
      ∀ args', parseArgs (args ++ args') opt n info = parseArgs args' opt' n' info' := by
  induction args generalizing opt n info with
  | nil =>
    cases h
    exact ⟨opt, n, hcount, hnodup, fun _ => rfl⟩
  | cons arg args ih =>
    obtain ⟨hn, hstep⟩ | hstep | hstep := parseArgs_cons arg opt n
    · rw [hstep] at h
      obtain ⟨opt', n', hcount', hnodup', hrun⟩ :=
        ih h (nodup_lappendOpt _ _ hnodup) (hcount.option hn hnodup _)
      exact ⟨opt', n', hcount', hnodup', fun args' => (hstep _ _).trans (hrun args')⟩
    · rw [hstep] at h
      cases h
    · rw [hstep] at h
      obtain ⟨opt', n', hcount', hnodup', hrun⟩ :=
        ih h (nodup_lappendOpt _ _ hnodup) (hcount.value hnodup arg)
      exact ⟨opt', n', hcount', hnodup', fun args' => (hstep _ _).trans (hrun args')⟩

theorem unpairs_even (ps : List (String × String)) : (unpairs ps).length % 2 = 0 := by
  induction ps with
  | nil => rfl
  | cons x ps ih =>
    have hcons : unpairs (x :: ps) = x.1 :: x.2 :: unpairs ps := rfl
    rw [hcons, List.length_cons, List.length_cons]
    omega

/-- A rule that `parse-rule` accepts leaves the counter neutral. -/
theorem parseRule_even {elements : String → List String} {c : TargetCommand}
    (h : (parseRule elements c).isSome) :
    ∃ info, parseRuleArgs c.args = some info ∧ (argsOf "vars" info).length % 2 = 0 := by
  obtain ⟨rule, hrule⟩ := Option.isSome_iff_exists.mp h
  obtain ⟨arginfo, harg, hrule⟩ := Option.bind_eq_some_iff.mp hrule
  obtain ⟨parsed, hparsed, -⟩ := Option.bind_eq_some_iff.mp hrule
  obtain ⟨ps, -, hps, -, -⟩ := applyOptions_vars hparsed
  exact ⟨arginfo, harg, pairs_some hps ▸ unpairs_even ps⟩

/-- Two lists of arguments, the first one with whole pairs of `-vars`. -/
theorem parseRuleArgs_append {xs ys : List String} (hx : parseRuleArgs xs = some info)
    (hy : parseRuleArgs ys = some info') (heven : (argsOf "vars" info).length % 2 = 0) :
    parseRuleArgs (xs ++ ys) = some (keywise info info') := by
  have hnil : (([] : List (String × List String)).map Prod.fst).Nodup := List.nodup_nil
  obtain ⟨opt, n, hcount, hnodup, hrun⟩ := parseArgs_run hx hnil rfl
  rw [parseRuleArgs, hrun]
  cases ys with
  | nil =>
    cases hy
    rw [keywise_nil]
    rfl
  | cons arg args =>
    by_cases harg : arg.toList.head? = some '-'
    · have hn (hvars : opt = "vars") : n % 2 = 0 := by
        rw [Counted, if_pos hvars] at hcount
        rw [← hcount, heven]
      have hbegin := parseArgs_keywise args (String.ofList arg.toList.tail) 0 hnodup
        (nodup_lappendOpt (String.ofList arg.toList.tail) [] hnil)
      rw [keywise_lappendOpt _ _ hnodup hnil, keywise_nil] at hbegin
      rw [parseRuleArgs, parseArgs_option harg (fun h => absurd h (by decide))] at hy
      rw [parseArgs_option harg hn, hbegin, hy]
      rfl
    · rw [parseRuleArgs, parseArgs] at hy
      simp [harg] at hy

end

/-! ## Groups of options -/

/-- An option with its values.  No value reads as an option; the values of `-vars` are pairs, and
only their names count. -/
structure OptionGroup where
  opt : String
  values : List String
  named : opt = "" → values = []
  plain : opt ≠ "vars" → ∀ v ∈ values, v.toList.head? ≠ some '-'
  paired : opt = "vars" → ∃ ps : List (String × String),
    values = unpairs ps ∧ ∀ x ∈ ps, x.1.toList.head? ≠ some '-'

/-- The words of a group, as they are written. -/
def OptionGroup.words (g : OptionGroup) : List String := ("-" ++ g.opt) :: g.values

/-- The values of an option in a list of groups, in the order in which they are written. -/
def valuesFor (opt : String) (groups : List OptionGroup) : List String :=
  (groups.filter fun g => g.opt = opt).flatMap OptionGroup.values

section
variable {info : List (String × List String)} {opt : String}

theorem lappendOpt_lappendOpt (as bs : List String) (info : List (String × List String)) :
    lappendOpt opt bs (lappendOpt opt as info) = lappendOpt opt (as ++ bs) info := by
  induction info with
  | nil => simp [lappendOpt]
  | cons x info ih =>
    rw [lappendOpt, lappendOpt]
    by_cases hx : x.1 = opt
    · rw [if_pos hx, if_pos hx, lappendOpt, if_pos hx, List.append_assoc]
    · rw [if_neg hx, if_neg hx, lappendOpt, if_neg hx, ih]

theorem parseArgs_value {arg : String} (args : List String) {n : Nat} (hopt : opt ≠ "")
    (harg : arg.toList.head? = some '-' → opt = "vars" ∧ n % 2 = 1) :
    parseArgs (arg :: args) opt n info = parseArgs args opt (n + 1) (lappendOpt opt [arg] info) := by
  rw [parseArgs, if_neg (not_option harg), if_neg hopt]

theorem parseArgs_values (hopt : opt ≠ "") {values : List String}
    (h : ∀ v ∈ values, v.toList.head? ≠ some '-') (args : List String) (n : Nat)
    (info : List (String × List String)) :
    parseArgs (values ++ args) opt n (lappendOpt opt [] info) =
      parseArgs args opt (n + values.length) (lappendOpt opt values info) := by
  suffices hrun : ∀ read, parseArgs (values ++ args) opt n (lappendOpt opt read info) =
      parseArgs args opt (n + values.length) (lappendOpt opt (read ++ values) info) from hrun []
  intro read
  induction values generalizing n read with
  | nil => simp
  | cons v values ih =>
    rw [List.cons_append, parseArgs_value _ hopt fun hv => absurd hv (h v List.mem_cons_self),
      lappendOpt_lappendOpt, ih (fun w hw => h w (List.mem_cons_of_mem v hw)), List.append_assoc,
      List.length_cons, Nat.add_assoc, Nat.add_comm 1]
    rfl

/-- Behind a name, any word is a value. -/
theorem parseArgs_pairs {ps : List (String × String)}
    (h : ∀ x ∈ ps, x.1.toList.head? ≠ some '-') (args : List String) {n : Nat} (hn : n % 2 = 0)
    (info : List (String × List String)) :
    parseArgs (unpairs ps ++ args) "vars" n (lappendOpt "vars" [] info) =
      parseArgs args "vars" (n + (unpairs ps).length) (lappendOpt "vars" (unpairs ps) info) := by
  suffices hrun : ∀ read, parseArgs (unpairs ps ++ args) "vars" n (lappendOpt "vars" read info) =
      parseArgs args "vars" (n + (unpairs ps).length)
        (lappendOpt "vars" (read ++ unpairs ps) info) from hrun []
  intro read
  induction ps generalizing n read with
  | nil => simp [unpairs]
  | cons x ps ih =>
    have hcons : unpairs (x :: ps) = x.1 :: x.2 :: unpairs ps := rfl
    have hne : ("vars" : String) ≠ "" := by decide
    rw [hcons, List.cons_append, List.cons_append,
      parseArgs_value _ hne fun hv => absurd hv (h x List.mem_cons_self),
      parseArgs_value _ hne fun _ => ⟨rfl, by omega⟩, lappendOpt_lappendOpt, lappendOpt_lappendOpt,
      ih (fun y hy => h y (List.mem_cons_of_mem x hy)) (by omega), List.length_cons,
      List.length_cons, List.append_assoc, List.append_assoc, Nat.add_assoc n, Nat.add_assoc n,
      Nat.add_comm (1 + 1), Nat.add_assoc]
    rfl

/-- A group is read as a whole, and leaves the counter neutral. -/
theorem parseArgs_group (g : OptionGroup) (args : List String) {n : Nat}
    (hn : opt = "vars" → n % 2 = 0) (info : List (String × List String)) :
    ∃ m, (g.opt = "vars" → m % 2 = 0) ∧ parseArgs (g.words ++ args) opt n info =
      parseArgs args g.opt m (lappendOpt g.opt g.values info) := by
  have hdash : ("-" ++ g.opt).toList = '-' :: g.opt.toList := by
    rw [String.toList_append]
    rfl
  have hword : String.ofList ("-" ++ g.opt).toList.tail = g.opt := by
    rw [hdash, List.tail_cons, String.ofList_toList]
  have hbegin : parseArgs (g.words ++ args) opt n info =
      parseArgs (g.values ++ args) g.opt 0 (lappendOpt g.opt [] info) := by
    rw [OptionGroup.words, List.cons_append, parseArgs_option (by rw [hdash]; rfl) hn, hword]
  rw [hbegin]
  by_cases hvars : g.opt = "vars"
  · obtain ⟨ps, hps, hnames⟩ := g.paired hvars
    refine ⟨0 + (unpairs ps).length, fun _ => by have := unpairs_even ps; omega, ?_⟩
    rw [hps, hvars, parseArgs_pairs hnames args rfl]
  · by_cases hopt : g.opt = ""
    · exact ⟨0, fun h => absurd h hvars, by rw [g.named hopt]; rfl⟩
    · exact ⟨0 + g.values.length, fun h => absurd h hvars,
        parseArgs_values hopt (g.plain hvars) args 0 info⟩

theorem parseArgs_groups (groups : List OptionGroup) {n : Nat} (hn : opt = "vars" → n % 2 = 0)
    (info : List (String × List String)) :
    parseArgs (groups.flatMap OptionGroup.words) opt n info =
      some (groups.foldl (fun info g => lappendOpt g.opt g.values info) info) := by
  induction groups generalizing opt n info with
  | nil => rfl
  | cons g groups ih =>
    obtain ⟨m, hm, hgroup⟩ := parseArgs_group g (groups.flatMap OptionGroup.words) hn info
    rw [List.flatMap_cons, hgroup, ih hm, List.foldl_cons]

theorem nodup_foldl (groups : List OptionGroup) (h : (info.map Prod.fst).Nodup) :
    ((groups.foldl (fun info g => lappendOpt g.opt g.values info) info).map Prod.fst).Nodup := by
  induction groups generalizing info with
  | nil => exact h
  | cons g groups ih => exact ih (nodup_lappendOpt _ _ h)

theorem argsOf_foldl (groups : List OptionGroup) (h : (info.map Prod.fst).Nodup) :
    argsOf opt (groups.foldl (fun info g => lappendOpt g.opt g.values info) info) =
      argsOf opt info ++ valuesFor opt groups := by
  induction groups generalizing info with
  | nil => simp [valuesFor]
  | cons g groups ih =>
    rw [List.foldl_cons, ih (nodup_lappendOpt _ _ h), argsOf_lappendOpt _ _ _ h]
    by_cases hg : g.opt = opt
    · simp [valuesFor, hg]
    · simp [valuesFor, hg]

theorem mem_keys_foldl (groups : List OptionGroup) (info : List (String × List String)) :
    opt ∈ (groups.foldl (fun info g => lappendOpt g.opt g.values info) info).map Prod.fst ↔
      opt ∈ info.map Prod.fst ∨ ∃ g ∈ groups, g.opt = opt := by
  induction groups generalizing info with
  | nil => simp
  | cons g groups ih =>
    have hkeys : opt ∈ (lappendOpt g.opt g.values info).map Prod.fst ↔
        opt ∈ info.map Prod.fst ∨ g.opt = opt := by
      rw [keys_lappendOpt]
      split
      · rename_i hg
        exact ⟨.inl, fun h => h.elim id fun h => h ▸ hg⟩
      · rw [List.mem_append, List.mem_singleton, eq_comm (a := opt)]
    rw [List.foldl_cons, ih, hkeys, or_assoc]
    simp only [List.mem_cons, exists_eq_or_imp]

end

/-- **Options compose.**  The dictionaries of two rules that are accepted are concatenated key by
key where their arguments are, and groups of options are read back as they are written. -/
theorem rule_args_compose (elements : String → List String) :
    (∀ c₁ c₂ : TargetCommand, (parseRule elements c₁).isSome → (parseRule elements c₂).isSome →
      ∃ info₁ info₂, parseRuleArgs c₁.args = some info₁ ∧ parseRuleArgs c₂.args = some info₂ ∧
        parseRuleArgs (c₁.args ++ c₂.args) = some (keywise info₁ info₂)) ∧
    ∀ groups : List OptionGroup,
      ∃ info, parseRuleArgs (groups.flatMap OptionGroup.words) = some info ∧
        (info.map Prod.fst).Nodup ∧
        ∀ opt, (opt ∈ info.map Prod.fst ↔ ∃ g ∈ groups, g.opt = opt) ∧
          argsOf opt info = valuesFor opt groups := by
  constructor
  · intro c₁ c₂ h₁ h₂
    obtain ⟨info₁, hinfo₁, heven⟩ := parseRule_even h₁
    obtain ⟨info₂, hinfo₂, -⟩ := parseRule_even h₂
    exact ⟨info₁, info₂, hinfo₁, hinfo₂, parseRuleArgs_append hinfo₁ hinfo₂ heven⟩
  · intro groups
    have hnil : (([] : List (String × List String)).map Prod.fst).Nodup := List.nodup_nil
    refine ⟨_, parseArgs_groups groups (fun h => absurd h (by decide)) [], nodup_foldl groups hnil,
      fun opt => ⟨?_, argsOf_foldl groups hnil⟩⟩
    rw [mem_keys_foldl]
    simp

/-- Two rules, one with a value that looks like an option, and three groups. -/
theorem rule_args_compose_vars :
    (∃ info₁ info₂,
      parseRuleArgs ["-vars", "A", "-x", "-do", "run"] = some info₁ ∧
      parseRuleArgs ["-vars", "B", "b", "-phony"] = some info₂ ∧
      parseRuleArgs ["-vars", "A", "-x", "-do", "run", "-vars", "B", "b", "-phony"] =
        some (keywise info₁ info₂)) ∧
    ∃ info, parseRuleArgs ["-vars", "A", "-x", "-phony", "-vars", "B", "b"] = some info ∧
      argsOf "vars" info = ["A", "-x", "B", "b"] := by
  obtain ⟨hrules, hgroups⟩ := rule_args_compose fun value => [value]
  refine ⟨hrules { target := ["a"], args := ["-vars", "A", "-x", "-do", "run"] }
    { target := ["b"], args := ["-vars", "B", "b", "-phony"] } rfl rfl, ?_⟩
  let setA : OptionGroup :=
    ⟨"vars", ["A", "-x"], by simp, by simp, fun _ => ⟨[("A", "-x")], rfl, by simp⟩⟩
  let phony : OptionGroup := ⟨"phony", [], by simp, by simp, by simp⟩
  let setB : OptionGroup :=
    ⟨"vars", ["B", "b"], by simp, by simp, fun _ => ⟨[("B", "b")], rfl, by simp⟩⟩
  obtain ⟨info, hinfo, -, hopts⟩ := hgroups [setA, phony, setB]
  exact ⟨info, hinfo, (hopts "vars").2⟩

end RuleBase
end Tmake
