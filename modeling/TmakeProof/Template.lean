import Mathlib.Data.List.Basic
import TmakeProof.Nesting

/-! # Templates

`apply-template` goes through the lines of a template with a stack of truth values, one for
each open `@if`.  Lines are kept as long as no `"0"` is on the stack; conditions are evaluated
everywhere.  `template_grammar` says which texts come to an output file, and
`template_selection` for which of them every conditional has one live branch.
-/
namespace Tmake.Template
open Nesting

/-- What a template leaves to Tcl. -/
structure Tcl where
  /-- The elements of a list. -/
  elements : String → List String
  /-- The value of an expression in a line, with `vars` in scope. -/
  expr : Nat → String → Option String
  /-- Whether a string is a number, and then whether it is zero. -/
  isZero : String → Option Bool

inductive Failure where
  | fatal (msg : String)
  /-- A Tcl error. -/
  | error

inductive CondType where
  | if_ | else_ | endif
  deriving DecidableEq

/-- What `\s` matches. -/
def isSpace (c : Char) : Bool := c = ' ' || (9 ≤ c.toNat && c.toNat ≤ 13)

/-- `^@(if|else|endif)\s*(.*)` -/
def directive (line : String) : Option (CondType × String) :=
  match line.toList with
  | '@' :: 'i' :: 'f' :: rest => some (.if_, .ofList (rest.dropWhile isSpace))
  | '@' :: 'e' :: 'l' :: 's' :: 'e' :: rest => some (.else_, .ofList (rest.dropWhile isSpace))
  | '@' :: 'e' :: 'n' :: 'd' :: 'i' :: 'f' :: rest => some (.endif, .ofList (rest.dropWhile isSpace))
  | _ => none

/-- `[[:alnum:]_]` -/
def isWordChar (c : Char) : Bool := c.isAlphanum || c = '_'

/-- The upper-case words of an expression become lookups; the first argument is how many
characters belong to a word that has been replaced. -/
def translate : Nat → List Char → List Char
  | _, [] => []
  | skip + 1, _ :: cs => translate skip cs
  | 0, c :: cs =>
    if c.isUpper then
      let word := c :: cs.takeWhile isWordChar
      "[dict get \\$vars ".toList ++ word ++ ']' :: translate (word.length - 1) cs
    else c :: translate 0 cs

/-- `dict get`, if `dict exists`. -/
def dictGet (vars : List (String × String)) (name : String) : Option String :=
  vars.reverse.lookup name

section
variable (tcl : Tcl) (infile : String) (vars : List (String × String))

def failure (linenum : Nat) (msg : String) : Failure :=
  .fatal (infile ++ ":" ++ toString linenum ++ ": Error: " ++ msg)

/-- `!ABC`, or `ABC`. -/
def splitNot (condvar : String) : Bool × String :=
  match condvar.toList with
  | '!' :: rest => (true, .ofList rest)
  | _ => (false, condvar)

/-- The value of the condition of an `@if`. -/
def condition (linenum : Nat) (line condargs : String) : Except Failure String :=
  match tcl.elements condargs with
  | [condvar] =>
    match dictGet vars (splitNot condvar).2 with
    | none => throw (failure infile linenum ("No such variable: " ++ (splitNot condvar).2))
    | some value => return if decide (value ∈ ["0", ""]) = (splitNot condvar).1 then "1" else "0"
  | _ =>
    match tcl.expr linenum (.ofList (translate 0 condargs.toList)) with
    | none => throw (failure infile linenum ("Invalid expression: " ++ line))
    | some condval => return condval

/-- `expr {!$condval}`. -/
def negate (condval : String) : Option String :=
  (tcl.isZero condval).map fun zero => if zero then "1" else "0"

/-- Not part of the program: what happens to the lines, with the number and the text of those
with a condition. -/
abbrev Trace := List (Nesting.Event (Nat × String) String)

/-- The conditions of the enclosing conditionals are all true. -/
def isLive (condstack : List String) : Bool := "0" ∉ condstack

/-- The lines that are kept. -/
def selectLines : Nat → List String → List String → Except Failure (List String) × Trace
  | _, _, [] => (.ok [], [.ended])
  | n, condstack, line :: lines =>
    let linenum := n + 1
    match directive line with
    | none =>
      let r := selectLines linenum condstack lines
      (if isLive condstack then r.1.map (line :: ·) else r.1, .text line (isLive condstack) :: r.2)
    | some (.if_, condargs) =>
      match condition tcl infile vars linenum line condargs with
      | .error e => (.error e, [.evaluated (linenum, line), .failed])
      | .ok condval =>
        let r := selectLines linenum (condval :: condstack) lines
        (r.1, .evaluated (linenum, line) :: .branch (isLive (condval :: condstack)) :: r.2)
    | some (.else_, _) =>
      match condstack with
      | condval :: below :: condstack =>
        match negate tcl condval with
        | none => (.error .error, [.failed])
        | some condval =>
          let r := selectLines linenum (condval :: below :: condstack) lines
          (r.1, .branch (isLive (condval :: below :: condstack)) :: r.2)
      | _ => (.error (failure infile linenum "@else missing @if"), [.failed])
    | some (.endif, _) =>
      match condstack with
      | _ :: below :: condstack => selectLines linenum (below :: condstack) lines
      | _ => (.error (failure infile linenum "@endif missing @if"), [.failed])

/-- `string map`; the first argument is how many characters belong to a key that has been
replaced. -/
def stringMap (mapping : List (List Char × List Char)) : Nat → List Char → List Char
  | _, [] => []
  | skip + 1, _ :: cs => stringMap mapping skip cs
  | 0, c :: cs =>
    match mapping.find? fun m => m.1.isPrefixOf (c :: cs) with
    | some (key, value) => value ++ stringMap mapping (key.length - 1) cs
    | none => c :: stringMap mapping 0 cs

/-- The contents of the output file. -/
def mapped (result : List String) : String :=
  let mapping := vars.map fun v => ('@' :: v.1.toList ++ ['@'], v.2.toList)
  .ofList (stringMap mapping 0 ("\n".intercalate result).toList ++ ['\n'])

def splitLines (text : String) : List String := (text.toList.splitOn '\n').map .ofList

/-- `apply-template`: what it writes, if it comes to that. -/
def applyTemplate (text : String) : Except Failure String × Trace :=
  let r := selectLines tcl infile vars 0 ["1"] (splitLines text)
  (r.1.map (mapped vars), r.2)

/-! ## Tokens -/

def token (linenum : Nat) (line : String) : Token (Nat × String) String :=
  match directive line with
  | none => .text line
  | some (.if_, _) => .opens (linenum, line)
  | some (.else_, _) => .middle
  | some (.endif, _) => .close

def lineTokens : Nat → List String → List (Token (Nat × String) String)
  | _, [] => []
  | n, line :: lines => token (n + 1) line :: lineTokens (n + 1) lines

/-- The text as a sequence of tokens. -/
def tokens (text : String) : List (Token (Nat × String) String) := lineTokens 0 (splitLines text)

/-- The condition of a line, if its evaluation does not fail. -/
def conditionOf (c : Nat × String) : Option String :=
  (directive c.2).bind fun d => (condition tcl infile vars c.1 c.2 d.2).toOption

def dead (condval : String) : Bool := condval = "0"

/-- The lines that a trace keeps. -/
def kept (trace : Trace) : List String :=
  trace.filterMap fun e => match e with
    | .text line true => some line
    | _ => none

end

variable {tcl : Tcl} {infile : String} {vars : List (String × String)}

/-! ## The stack of truth values -/

theorem isLive_eq (st : List String) : isLive (st ++ ["1"]) = live dead st := by
  induction st with
  | nil => rfl
  | cons condval st ih =>
    rw [live_cons, ← ih, dead, isLive, isLive, List.cons_append, Bool.eq_iff_iff]
    simp only [List.mem_cons, not_or, Bool.and_eq_true, Bool.not_eq_true', decide_eq_true_eq,
      decide_eq_false_iff_not, ne_comm (a := "0"), ne_eq]

/-- What happens is what happens in the stack machine. -/
theorem selectLines_trace (n : Nat) (st lines : List String) :
    (selectLines tcl infile vars n (st ++ ["1"]) lines).2 =
      run (conditionOf tcl infile vars) (negate tcl) dead st (lineTokens n lines) := by
  induction lines generalizing n st with
  | nil => rfl
  | cons line lines ih =>
    rw [selectLines.eq_def, lineTokens, token]
    dsimp only
    cases hd : directive line with
    | none =>
      dsimp only
      rw [ih, isLive_eq, run]
    | some d =>
      obtain ⟨condtype, condargs⟩ := d
      cases condtype with
      | if_ =>
        have hcond : conditionOf tcl infile vars (n + 1, line) =
            (condition tcl infile vars (n + 1) line condargs).toOption := by
          rw [conditionOf, hd, Option.bind_some]
        dsimp only
        rw [run, hcond]
        cases condition tcl infile vars (n + 1) line condargs with
        | error e => rfl
        | ok condval =>
          dsimp only [Except.toOption]
          rw [← List.cons_append, ih, isLive_eq]
      | else_ =>
        cases st with
        | nil => rfl
        | cons condval st =>
          dsimp only
          rw [run, List.cons_append]
          obtain ⟨below, condstack, hst⟩ := List.exists_cons_of_ne_nil
            (List.append_ne_nil_of_right_ne_nil st (List.cons_ne_nil "1" []))
          rw [hst]
          dsimp only
          cases negate tcl condval with
          | none => rfl
          | some condval =>
            dsimp only
            rw [← hst, ← List.cons_append, ih, isLive_eq]
      | endif =>
        cases st with
        | nil => rfl
        | cons condval st =>
          dsimp only
          rw [run, List.cons_append]
          obtain ⟨below, condstack, hst⟩ := List.exists_cons_of_ne_nil
            (List.append_ne_nil_of_right_ne_nil st (List.cons_ne_nil "1" []))
          rw [hst]
          dsimp only
          rw [← hst, ih]

/-- What is left is what the trace keeps, if there is an end. -/
def Agrees (r : Except Failure (List String) × Trace) : Prop :=
  match r.1 with
  | .ok result => .ended ∈ r.2 ∧ result = kept r.2
  | .error _ => .ended ∉ r.2

theorem Agrees.text {r : Except Failure (List String) × Trace} (h : Agrees r) (line : String)
    (on : Bool) : Agrees (if on then r.1.map (line :: ·) else r.1, .text line on :: r.2) := by
  obtain ⟨outcome, trace⟩ := r
  cases outcome with
  | error e =>
    have hended : .ended ∉ Nesting.Event.text line on :: trace := List.not_mem_cons_of_ne_of_not_mem nofun h
    cases on <;> exact hended
  | ok result =>
    have hended : .ended ∈ Nesting.Event.text line on :: trace := List.mem_cons_of_mem _ h.1
    cases on with
    | true => exact ⟨hended, congrArg (line :: ·) h.2⟩
    | false => exact ⟨hended, h.2⟩

theorem Agrees.evaluated {r : Except Failure (List String) × Trace} (h : Agrees r)
    (c : Nat × String) : Agrees (r.1, .evaluated c :: r.2) := by
  obtain ⟨outcome, trace⟩ := r
  cases outcome with
  | error e => exact List.not_mem_cons_of_ne_of_not_mem nofun h
  | ok result => exact ⟨List.mem_cons_of_mem _ h.1, h.2⟩

theorem Agrees.branch {r : Except Failure (List String) × Trace} (h : Agrees r) (on : Bool) :
    Agrees (r.1, .branch on :: r.2) := by
  obtain ⟨outcome, trace⟩ := r
  cases outcome with
  | error e => exact List.not_mem_cons_of_ne_of_not_mem nofun h
  | ok result => exact ⟨List.mem_cons_of_mem _ h.1, h.2⟩

theorem agrees_failed (e : Failure) : Agrees (.error e, [.failed]) :=
  List.not_mem_cons_of_ne_of_not_mem nofun List.not_mem_nil

theorem selectLines_agrees (n : Nat) (condstack lines : List String) :
    Agrees (selectLines tcl infile vars n condstack lines) := by
  induction lines generalizing n condstack with
  | nil => exact ⟨List.mem_singleton_self _, rfl⟩
  | cons line lines ih =>
    rw [selectLines.eq_def]
    dsimp only
    split
    · exact (ih (n + 1) condstack).text line (isLive condstack)
    · split
      · exact (agrees_failed _).evaluated _
      · exact ((ih (n + 1) _).branch _).evaluated _
    · split
      · split
        · exact agrees_failed _
        · exact (ih (n + 1) _).branch _
      · exact agrees_failed _
    · split
      · exact ih (n + 1) _
      · exact agrees_failed _

/-! ## Templates -/

theorem applyTemplate_trace (text : String) : (applyTemplate tcl infile vars text).2 =
    run (conditionOf tcl infile vars) (negate tcl) dead [] (tokens text) :=
  selectLines_trace 0 [] (splitLines text)

/-- The output file is written if there is an end, with the lines that are kept. -/
theorem applyTemplate_ok (text contents : String) :
    (applyTemplate tcl infile vars text).1 = .ok contents ↔
      .ended ∈ (applyTemplate tcl infile vars text).2 ∧
        mapped vars (kept (applyTemplate tcl infile vars text).2) = contents := by
  have hagrees : Agrees (selectLines tcl infile vars 0 ["1"] (splitLines text)) :=
    selectLines_agrees 0 ["1"] (splitLines text)
  rw [applyTemplate]
  dsimp only
  revert hagrees
  rw [Agrees]
  cases (selectLines tcl infile vars 0 ["1"] (splitLines text)).1 with
  | error e => exact fun h => ⟨nofun, fun h' => absurd h'.1 h⟩
  | ok result =>
    rintro ⟨hended, hkept⟩
    rw [Except.map, Except.ok.injEq, hkept]
    exact ⟨fun h => ⟨hended, h⟩, fun h => h.2⟩

/-- The output file is written. -/
def Written (tcl : Tcl) (infile : String) (vars : List (String × String)) (text : String) : Prop :=
  ∃ contents, (applyTemplate tcl infile vars text).1 = .ok contents

theorem written_iff (text : String) : Written tcl infile vars text ↔
    ¬Stray 0 (tokens text) ∧ Evaluates (conditionOf tcl infile vars) (negate tcl) [] (tokens text) := by
  rw [← List.length_nil, ← ended_mem_run _ _ dead, ← applyTemplate_trace, Written]
  simp only [applyTemplate_ok]
  exact ⟨fun ⟨_, h⟩ => h.1, fun h => ⟨_, h, rfl⟩⟩

/-- **Which templates are rejected.**  An output file is written if no `@else` or `@endif` lacks
its `@if` and no condition fails.  So of the texts that are not well nested exactly those with
such an `@else` or `@endif`, or with such a condition, are rejected. -/
theorem template_grammar (tcl : Tcl) (infile : String) (vars : List (String × String))
    (text : String) :
    (Written tcl infile vars text → WellNested (tokens text)) ↔
      WellNested (tokens text) ∨ Stray 0 (tokens text) ∨
        ¬Evaluates (conditionOf tcl infile vars) (negate tcl) [] (tokens text) := by
  rw [written_iff]
  tauto

/-- Tcl for conditions that are one word, with integers of one digit. -/
def wordTcl : Tcl where
  elements s := [s]
  expr _ _ := none
  isZero s := match s.toList with
    | [c] => if c.isDigit then some (c = '0') else none
    | _ => none

/-- An `@if` without end. -/
theorem template_grammar_unclosed : ¬∀ (tcl : Tcl) (infile : String)
    (vars : List (String × String)) (text : String),
    Written tcl infile vars text → WellNested (tokens text) := by
  intro h
  have hnested := h wordTcl "t.in" [("A", "1")] "@if A\nx" ⟨"x\n", rfl⟩
  cases hnested

/-! ## Selection -/

/-- `"0"`, or a number other than zero. -/
theorem flips_iff (condval : String) : Flips (negate tcl) dead condval ↔
    tcl.isZero condval = some (decide (condval = "0")) := by
  rw [Flips, negate, dead]
  cases tcl.isZero condval with
  | none => simp
  | some zero => cases zero <;> simp [dead]

/-- **Which conditionals select one branch.**  Up to the first condition that fails, of every
conditional one branch is live, lines are kept in live branches and nothing else is evaluated,
exactly if no `@if` stands in a branch that is not live and the value of each `@if` with an
`@else` is `0` or a number other than zero. -/
theorem template_selection (tcl : Tcl) (infile : String) (vars : List (String × String))
    (text : String) (block : Block (Nat × String) String) (h : block.tokens = tokens text) :
    ((applyTemplate tcl infile vars text).2 =
        block.select (conditionOf tcl infile vars) dead true [.ended] ↔
      block.Proper (conditionOf tcl infile vars) (negate tcl) dead true) ∧
    ∀ contents, (applyTemplate tcl infile vars text).1 = .ok contents →
      contents = mapped vars (kept (applyTemplate tcl infile vars text).2) := by
  refine ⟨?_, fun contents hok => ((applyTemplate_ok text contents).mp hok).2.symm⟩
  rw [applyTemplate_trace, ← h]
  exact Block.run_eq_select_iff

/-- `@if A`, `@else` and `@endif`, for a value of `A` that is not `0`. -/
theorem template_selection_else :
    (applyTemplate wordTcl "t.in" [("A", "2")] "@if A\nx\n@else\ny\n@endif").2 =
      [.evaluated (1, "@if A"), .branch true, .text "x" true, .branch false, .text "y" false,
        .ended] := by
  refine ((template_selection wordTcl "t.in" [("A", "2")] "@if A\nx\n@else\ny\n@endif"
    (.branch (1, "@if A") (.text "x" .nil) (.text "y" .nil) .nil) rfl).1.mpr ?_).trans rfl
  intro v hv
  cases hv
  exact ⟨trivial, fun _ => ⟨⟨"0", rfl, rfl⟩, trivial, fun _ => trivial⟩⟩

/-- In a branch that is not live, a variable is looked up that does not exist. -/
theorem template_selection_dead : ¬∀ (tcl : Tcl) (infile : String)
    (vars : List (String × String)) (text : String) (block : Block (Nat × String) String),
    block.tokens = tokens text → (applyTemplate tcl infile vars text).2 =
      block.select (conditionOf tcl infile vars) dead true [.ended] := by
  intro h
  have htrace := h wordTcl "t.in" [("A", "0")] "@if A\n@if B\n@endif\n@endif"
    (.cond (1, "@if A") (.cond (2, "@if B") .nil .nil) .nil) rfl
  have hrun : (applyTemplate wordTcl "t.in" [("A", "0")] "@if A\n@if B\n@endif\n@endif").2 =
      [.evaluated (1, "@if A"), .branch false, .evaluated (2, "@if B"), .failed] := rfl
  rw [hrun] at htrace
  cases htrace

end Tmake.Template
