import TmakeProof.Template

/-! # Comparisons in templates

The documented form of a condition is `NAME eq "value"`.  `apply-template` translates `NAME`
into a command substitution, in which a backslash stands before the `$` of `$vars`: the command
looks its variable up in the text `$vars`, which is no dictionary.
-/
namespace Tmake.Template
open Nesting

/-- A word that is an element of a list as it stands. -/
def Bare (w : String) : Prop :=
  w ≠ "" ∧ ∀ c ∈ w.toList, ¬isSpace c ∧ c ∉ ['{', '}', '"', '\\', '[', ']']

/-- Backslash substitution in a word without any other substitution. -/
def substWord : List Char → Option (List Char)
  | [] => some []
  | '\\' :: c :: cs => if isWordChar c then none else (substWord cs).map (c :: ·)
  | c :: cs =>
    if isSpace c || c ∈ ['\\', '$', '[', ']', '{', '}', '"', ';'] then none
    else (substWord cs).map (c :: ·)

/-- The words of a command between brackets. -/
def commandWords (script : String) : Option (List String) :=
  (script.toList.splitOn ' ').mapM fun word => (substWord word).map .ofList

/-- How Tcl reads lists, and expressions that begin with a command substitution. -/
structure Tcl.Documented (tcl : Tcl) : Prop where
  word : ∀ w, Bare w → tcl.elements w = [w]
  words : ∀ w w' rest, Bare w → Bare w' → 2 ≤ (tcl.elements (w ++ " " ++ w' ++ " " ++ rest)).length
  /-- The first operand is evaluated, and `dict get` is an error for a list with an odd number of
  elements. -/
  operand : ∀ n script rest dict key, commandWords script = some ["dict", "get", dict, key] →
    (tcl.elements dict).length % 2 = 1 → tcl.expr n ("[" ++ script ++ "]" ++ rest) = none

/-- A word that begins with an upper-case letter. -/
def IsName (name : String) : Prop :=
  ∃ c cs, name.toList = c :: cs ∧ c.isUpper ∧ ∀ x ∈ cs, isWordChar x

/-- No character is special in a quoted string. -/
def Plain (literal : String) : Prop := ∀ c ∈ literal.toList, c ∉ ['"', '\\', '$', '[']

def comparison (name literal : String) : String := name ++ " eq \"" ++ literal ++ "\""

/-- The directive is processed without an error, and the first branch is live if the value is
the literal. -/
def Compares (tcl : Tcl) (infile : String) (vars : List (String × String)) (linenum : Nat)
    (name literal value : String) : Prop :=
  ∃ condval, condition tcl infile vars linenum ("@if " ++ comparison name literal)
    (comparison name literal) = .ok condval ∧ (isLive [condval] ↔ value = literal)

theorem translate_skip (word rest : List Char) :
    translate word.length (word ++ rest) = translate 0 rest := by
  induction word with
  | nil => rfl
  | cons c word ih => exact ih

theorem translate_name {c : Char} {cs : List Char} (hc : c.isUpper) (hcs : ∀ x ∈ cs, isWordChar x)
    (rest : List Char) : translate 0 (c :: (cs ++ ' ' :: rest)) =
      "[dict get \\$vars ".toList ++ (c :: cs) ++ ']' :: translate 0 (' ' :: rest) := by
  have hword : (cs ++ ' ' :: rest).takeWhile isWordChar = cs := by
    rw [List.takeWhile_append_of_pos hcs]
    exact List.append_nil cs
  rw [translate, if_pos hc, hword]
  dsimp only
  rw [List.length_cons, Nat.add_sub_cancel, translate_skip]

theorem isWordChar_of_isUpper {c : Char} (h : c.isUpper) : isWordChar c := by
  have hword : isWordChar c = ((c.isUpper || c.isLower || c.isDigit) || c = '_') := rfl
  rw [hword, h]
  rfl

theorem isSpace_of_isWordChar {c : Char} (h : isWordChar c) : isSpace c = false := by
  delta isWordChar Char.isAlphanum Char.isAlpha Char.isUpper Char.isLower Char.isDigit at h
  simp only [Bool.or_eq_true, Bool.and_eq_true, decide_eq_true_eq, UInt32.le_iff_toNat_le,
    ge_iff_le] at h
  rw [Bool.eq_false_iff]
  intro hspace
  simp only [isSpace, Bool.or_eq_true, Bool.and_eq_true, decide_eq_true_eq] at hspace
  obtain rfl | hspace := hspace
  · revert h
    decide
  · have hval : c.toNat = c.val.toNat := rfl
    have hA : 'A'.val.toNat = 65 := rfl
    have ha : 'a'.val.toNat = 97 := rfl
    have h0 : '0'.val.toNat = 48 := rfl
    obtain ((h | h) | h) | rfl := h
    · omega
    · omega
    · omega
    · revert hspace
      decide

theorem isWordChar_special :
    ∀ c ∈ ['\\', '$', '[', ']', '{', '}', '"', ';'], isWordChar c = false := by
  have hall : ['\\', '$', '[', ']', '{', '}', '"', ';'].all (fun c => isWordChar c = false) = true := by
    decide
  exact fun c hc => of_decide_eq_true (List.all_eq_true.mp hall c hc)

theorem bare_of_all {w : String} (hne : w ≠ "")
    (h : w.toList.all (fun c => ¬isSpace c ∧ c ∉ ['{', '}', '"', '\\', '[', ']']) = true) : Bare w :=
  ⟨hne, fun c hc => of_decide_eq_true (List.all_eq_true.mp h c hc)⟩

/-- A word of letters, digits and underscores stands for itself. -/
theorem bare_of_word {w : String} (hne : w ≠ "") (h : ∀ c ∈ w.toList, isWordChar c) : Bare w := by
  refine ⟨hne, fun c hc => ⟨by rw [isSpace_of_isWordChar (h c hc)]; decide, fun hmem => ?_⟩⟩
  have hsubset : ['{', '}', '"', '\\', '[', ']'] ⊆ ['\\', '$', '[', ']', '{', '}', '"', ';'] := by
    decide
  have hfalse := isWordChar_special c (hsubset hmem)
  rw [h c hc] at hfalse
  cases hfalse

theorem substWord_word {w : List Char} (h : ∀ c ∈ w, isWordChar c) : substWord w = some w := by
  induction w with
  | nil => rfl
  | cons c w ih =>
    obtain ⟨hc, hw⟩ := List.forall_mem_cons.mp h
    have hspecial : c ∉ ['\\', '$', '[', ']', '{', '}', '"', ';'] := fun hmem => by
      have hfalse := isWordChar_special c hmem
      rw [hc] at hfalse
      cases hfalse
    have hplain : ¬(isSpace c || decide (c ∈ ['\\', '$', '[', ']', '{', '}', '"', ';'])) := by
      rw [isSpace_of_isWordChar hc, decide_eq_false hspecial]
      decide
    rw [substWord, if_neg hplain, ih hw]
    · rfl
    · rintro _ _ rfl
      exact absurd List.mem_cons_self hspecial

theorem IsName.word {name : String} (h : IsName name) :
    name ≠ "" ∧ ∀ c ∈ name.toList, isWordChar c := by
  obtain ⟨c, cs, hname, hc, hcs⟩ := h
  refine ⟨fun heq => ?_, ?_⟩
  · rw [heq] at hname
    cases hname
  · rw [hname]
    exact List.forall_mem_cons.mpr ⟨isWordChar_of_isUpper hc, hcs⟩

theorem notMem_of_word {w : List Char} (h : ∀ c ∈ w, isWordChar c) : ' ' ∉ w := fun hmem => by
  have hword := h ' ' hmem
  revert hword
  decide

/-- The command into which a name is translated looks in the text `$vars`. -/
theorem commandWords_lookup {name : String} (h : ∀ c ∈ name.toList, isWordChar c) :
    commandWords ("dict get \\$vars " ++ name) = some ["dict", "get", "$vars", name] := by
  have hlist : ("dict get \\$vars " ++ name).toList =
      ['d', 'i', 'c', 't'] ++ ' ' :: (['g', 'e', 't'] ++ ' ' ::
        (['\\', '$', 'v', 'a', 'r', 's'] ++ ' ' :: name.toList)) := String.toList_append
  rw [commandWords, hlist, List.splitOn_append_cons_self_of_not_mem (by decide),
    List.splitOn_append_cons_self_of_not_mem (by decide),
    List.splitOn_append_cons_self_of_not_mem (by decide),
    List.splitOn_eq_singleton (notMem_of_word h)]
  simp only [List.mapM_cons, List.mapM_nil, substWord_word h, Option.map_some, String.ofList_toList]
  rfl

/-- The expression into which a comparison is translated. -/
theorem translate_comparison {name : String} (h : IsName name) (literal : String) :
    ∃ rest, String.ofList (translate 0 (comparison name literal).toList) =
      "[" ++ ("dict get \\$vars " ++ name) ++ "]" ++ rest := by
  obtain ⟨c, cs, hname, hc, hcs⟩ := h
  have hlist : (comparison name literal).toList =
      c :: (cs ++ ' ' :: (['e', 'q', ' ', '"'] ++ literal.toList ++ ['"'])) := by
    simp only [comparison, String.toList_append, hname, List.cons_append, List.append_assoc]
    rfl
  refine ⟨.ofList (translate 0 (' ' :: (['e', 'q', ' ', '"'] ++ literal.toList ++ ['"']))), ?_⟩
  rw [hlist, translate_name hc hcs]
  apply String.toList_injective
  simp only [String.toList_append, String.toList_ofList, hname, List.append_assoc]
  rfl

/-- A comparison is a fatal error. -/
theorem condition_comparison {tcl : Tcl} (htcl : tcl.Documented) (infile : String)
    (vars : List (String × String)) (linenum : Nat) (line : String) {name : String}
    (h : IsName name) (literal : String) :
    condition tcl infile vars linenum line (comparison name literal) =
      .error (failure infile linenum ("Invalid expression: " ++ line)) := by
  have hwords : 2 ≤ (tcl.elements (comparison name literal)).length := by
    have hbare := bare_of_word h.word.1 h.word.2
    have heq : comparison name literal = name ++ " " ++ "eq" ++ " " ++ ("\"" ++ literal ++ "\"") := by
      simp only [comparison, String.append_assoc]
      rfl
    rw [heq]
    exact htcl.words name "eq" _ hbare (bare_of_word (by decide) (List.all_eq_true.mp (by decide)))
  have hvars : (tcl.elements "$vars").length % 2 = 1 := by
    rw [htcl.word "$vars" (bare_of_all (by decide) (by decide))]
    rfl
  obtain ⟨rest, hrest⟩ := translate_comparison h literal
  have hexpr := htcl.operand linenum _ rest "$vars" name (commandWords_lookup h.word.2) hvars
  rw [condition]
  split
  · next hone =>
    rw [hone] at hwords
    exact absurd hwords (Nat.not_succ_le_self 1)
  · rw [hrest, hexpr]
    rfl

/-- Every condition of a template is evaluated before its end. -/
theorem conditionOf_of_evaluates {tcl : Tcl} {infile : String} {vars : List (String × String)}
    {n : Nat} {st lines : List String} {line condargs : String} (hline : line ∈ lines)
    (hd : directive line = some (.if_, condargs))
    (h : Evaluates (conditionOf tcl infile vars) (negate tcl) st (lineTokens n lines)) :
    ∃ linenum condval, conditionOf tcl infile vars (linenum, line) = some condval := by
  induction lines generalizing n st with
  | nil => cases hline
  | cons first lines ih =>
    rw [lineTokens, token] at h
    obtain rfl | hline := List.mem_cons.mp hline
    · rw [hd] at h
      obtain ⟨condval, hcond, -⟩ := h
      exact ⟨n + 1, condval, hcond⟩
    · have hrest : ∃ st, Evaluates (conditionOf tcl infile vars) (negate tcl) st
          (lineTokens (n + 1) lines) := by
        revert h
        cases directive first with
        | none => exact fun h => ⟨st, h⟩
        | some d =>
          obtain ⟨condtype, args⟩ := d
          cases condtype with
          | if_ =>
            rintro ⟨condval, -, h⟩
            exact ⟨condval :: st, h⟩
          | else_ =>
            cases st with
            | nil => exact fun h => ⟨[], h⟩
            | cons v st =>
              rintro ⟨w, -, h⟩
              exact ⟨w :: st, h⟩
          | endif =>
            cases st with
            | nil => exact fun h => ⟨[], h⟩
            | cons v st => exact fun h => ⟨st, h⟩
      obtain ⟨st', hst⟩ := hrest
      exact ih hline hst

theorem directive_comparison {name : String} (h : IsName name) (literal : String) :
    directive ("@if " ++ comparison name literal) = some (.if_, comparison name literal) := by
  obtain ⟨c, cs, hname, hc, hcs⟩ := h
  have hlist : (comparison name literal).toList = c :: (cs ++ (" eq \"" ++ literal ++ "\"").toList) := by
    simp only [comparison, String.toList_append, hname, List.cons_append, List.append_assoc]
  have hline : ("@if " ++ comparison name literal).toList =
      '@' :: 'i' :: 'f' :: ' ' :: (comparison name literal).toList := String.toList_append
  have hdrop : (' ' :: (comparison name literal).toList).dropWhile isSpace =
      (comparison name literal).toList := by
    have hspace : isSpace c = false := isSpace_of_isWordChar (isWordChar_of_isUpper hc)
    rw [List.dropWhile_cons_of_pos (by decide), hlist,
      List.dropWhile_cons_of_neg (by rw [hspace]; decide)]
  rw [directive, hline]
  show some (CondType.if_, String.ofList _) = _
  rw [hdrop, String.ofList_toList]

/-- **Comparisons are never processed.**  Whatever the name, its value and the literal, the
documented form of a comparison ends in a fatal error, and a template in which it stands is not
written. -/
theorem template_comparison (tcl : Tcl) (htcl : tcl.Documented) (infile : String)
    (vars : List (String × String)) (name : String) (hname : IsName name) (literal : String) :
    (∀ linenum value, ¬Compares tcl infile vars linenum name literal value) ∧
    ∀ text, "@if " ++ comparison name literal ∈ splitLines text → ¬Written tcl infile vars text := by
  constructor
  · rintro linenum value ⟨condval, hcond, -⟩
    rw [condition_comparison htcl infile vars linenum _ hname literal] at hcond
    cases hcond
  · intro text hline hwritten
    have hd := directive_comparison hname literal
    obtain ⟨linenum, condval, hcond⟩ :=
      conditionOf_of_evaluates hline hd (written_iff text |>.mp hwritten).2
    rw [conditionOf, hd, Option.bind_some,
      condition_comparison htcl infile vars linenum _ hname literal] at hcond
    cases hcond

/-- Tcl for lists of words and expressions that fail. -/
def spacedTcl : Tcl where
  elements s := ((s.toList.splitOn ' ').filter (· ≠ [])).map .ofList
  expr _ _ := none
  isZero _ := none

theorem spacedTcl_documented : spacedTcl.Documented where
  word w h := by
    have hblank : ' ' ∉ w.toList := fun hmem => (h.2 ' ' hmem).1 rfl
    have hne : w.toList ≠ [] := fun heq => h.1 (String.toList_injective heq)
    rw [spacedTcl]
    dsimp only
    rw [List.splitOn_eq_singleton hblank, List.filter_cons_of_pos (p := (· ≠ [])) (decide_eq_true hne),
      List.filter_nil, List.map_singleton, String.ofList_toList]
  words w w' rest h h' := by
    have hblank {w : String} (h : Bare w) : ' ' ∉ w.toList := fun hmem => (h.2 ' ' hmem).1 rfl
    have hne {w : String} (h : Bare w) : w.toList ≠ [] := fun heq =>
      h.1 (String.toList_injective heq)
    have hlist : (w ++ " " ++ w' ++ " " ++ rest).toList =
        w.toList ++ ' ' :: (w'.toList ++ ' ' :: rest.toList) := by
      simp only [String.toList_append, List.append_assoc]
      rfl
    rw [spacedTcl]
    dsimp only
    rw [hlist, List.splitOn_append_cons_self_of_not_mem (hblank h),
      List.splitOn_append_cons_self_of_not_mem (hblank h'),
      List.filter_cons_of_pos (p := (· ≠ [])) (decide_eq_true (hne h)),
      List.filter_cons_of_pos (p := (· ≠ [])) (decide_eq_true (hne h')), List.map_cons, List.map_cons,
      List.length_cons, List.length_cons]
    exact Nat.le_add_left 2 _
  operand _ _ _ _ _ _ _ := rfl

theorem isName_a : IsName "A" := ⟨'A', [], rfl, rfl, nofun⟩

theorem template_comparison_a :
    ¬Written spacedTcl "t.in" [("A", "x")] "@if A eq \"x\"\ny\n@endif" :=
  (template_comparison spacedTcl spacedTcl_documented "t.in" [("A", "x")] "A" isName_a "x").2 _
    (by decide)

/-- `@if A eq "x"`, where `A` has the value `x`. -/
theorem template_comparison_fatal : ¬∀ (tcl : Tcl), tcl.Documented → ∀ (infile : String)
    (vars : List (String × String)) (linenum : Nat) (name value literal : String), IsName name →
    dictGet vars name = some value → Plain literal →
    Compares tcl infile vars linenum name literal value := by
  intro h
  obtain ⟨condval, hcond, -⟩ := h spacedTcl spacedTcl_documented "t.in" [("A", "x")] 1 "A" "x" "x"
    isName_a rfl (show ∀ c ∈ ['x'], _ from List.forall_mem_singleton.mpr (by decide))
  rw [condition_comparison spacedTcl_documented _ _ _ _ isName_a] at hcond
  cases hcond

end Tmake.Template
