import TmakeProof.Description

/-! # Defines and their scopes

The variables of the parsing phase: `define` and its relatives, which keep the
values in `tmake(defines)` and the marks of `define!` in `tmake(fixedvars)`,
and `Scope`, which saves the values when it begins and restores them when it
ends.  Every `build.spec` file is parsed inside a `Scope` of its directory.

A parse is a `SpecFile`: the commands it executes, in order, with the scopes in
which they stand.  What a name may do is decided by its mark; what a name
should be allowed to do is decided by where its value comes from.  The two are
compared at every point of a parse (`Sound`): they agree exactly as long as no
scope fixes a name that was free when the scope began, for a scope that ends
takes the value away and leaves the mark.
-/
namespace Tmake

/-- The commands that give a variable its value. -/
inductive Verb where
  | define | define! | define? | defineAppend | defineListAppend
  deriving DecidableEq, Repr

/-- An entry of `tmake(defines)`.  The command that gave the value is not part of the
program: nothing reads it. -/
structure Define where
  value : String
  verb : Verb
  deriving DecidableEq, Repr

/-- What the commands and `Scope` read and change of `tmake(...)`. -/
structure Parse where
  defines : Dict String Define := ∅
  fixedvars : Dict String Nat := ∅
  localdir : Path := "."
  localPrefix : String := ""

/-- One command of a spec file. -/
structure Command where
  verb : Verb
  name : String
  args : List String
  deriving DecidableEq, Repr

/-- The commands that a parse executes, in order, and the scopes they stand in. -/
inductive SpecFile where
  | done
  | command (c : Command) (rest : SpecFile)
  | scope (dir : Path) (body rest : SpecFile)

/-! ## The commands

`env` is what `getenv` finds, with "" for a variable that is not set, and `elements` reads a
value as a Tcl list. -/

/-- `define-var`, for the command `verb`. -/
def defineVar (verb : Verb) (name value : String) (force : Bool) (s : Parse) : Parse :=
  if name ∈ s.fixedvars && !force then s
  else { s with defines := s.defines.insert name ⟨value, verb⟩ }

/-- `define-get-value`. -/
def defineGetValue (list : List String) : String :=
  if list.isEmpty then "1" else joinList list

/-- `get-define` in the parsing phase, with the default "". -/
def getDefine (name : String) (s : Parse) : String :=
  match s.defines.lookup name with
  | some d => d.value
  | none => ""

/-- `append-with-space`. -/
def appendWithSpace (value new : String) : String :=
  if value ≠ "" then value ++ " " ++ new else new

/-- `define`. -/
def define (name : String) (args : List String) (s : Parse) : Parse :=
  defineVar .define name (defineGetValue args) false s

/-- `define!`. -/
def define! (name : String) (args : List String) (s : Parse) : Parse :=
  defineVar .define! name (defineGetValue args) true
    { s with fixedvars := s.fixedvars.insert name 1 }

/-- `define?`. -/
def define? (env : String → String) (name : String) (args : List String) (s : Parse) : Parse :=
  if getDefine name s = "" then
    let value := if env name ≠ "" then env name else defineGetValue args
    defineVar .define? name value false s
  else s

/-- `define-append`. -/
def defineAppend (name : String) (args : List String) (s : Parse) : Parse :=
  if args.isEmpty then s
  else
    defineVar .defineAppend name (appendWithSpace (getDefine name s) (defineGetValue args)) false s

/-- The loop of `define-list-append`: values that are there already are not appended. -/
def appendMissing (elements : String → List String) : List String → String → String
  | [], value => value
  | arg :: args, value =>
    appendMissing elements args
      (if arg ∈ elements value then value else appendWithSpace value arg)

/-- `define-list-append`. -/
def defineListAppend (elements : String → List String) (name : String) (args : List String)
    (s : Parse) : Parse :=
  if args.isEmpty then s
  else
    defineVar .defineListAppend name (appendMissing elements args (getDefine name s)) false s

/-- Execute one command. -/
def Command.run (env : String → String) (elements : String → List String) (c : Command) :
    Parse → Parse :=
  match c.verb with
  | .define => define c.name c.args
  | .define! => define! c.name c.args
  | .define? => define? env c.name c.args
  | .defineAppend => defineAppend c.name c.args
  | .defineListAppend => defineListAppend elements c.name c.args

/-! ## Scopes -/

/-- `make-prefix`. -/
def makePrefix (dir : Path) : String := if dir = "." then "" else dir ++ "/"

/-- The first half of `Scope`: with a directory, the script runs as if it stood there. -/
def enterScope (dir : Path) (s : Parse) : Parse :=
  if dir ≠ "" then { s with localdir := dir, localPrefix := makePrefix dir } else s

/-- The second half of `Scope`: the values, the directory and the prefix of the state `saved`
in which it began are restored. -/
def leaveScope (dir : Path) (saved s : Parse) : Parse :=
  let s := { s with defines := saved.defines }
  if dir ≠ "" then { s with localdir := saved.localdir, localPrefix := saved.localPrefix } else s

section
variable (env : String → String) (elements : String → List String)

/-- What a parse leaves behind. -/
def SpecFile.run : SpecFile → Parse → Parse
  | done, s => s
  | command c rest, s => rest.run (c.run env elements s)
  | scope dir body rest, s => rest.run (leaveScope dir s (body.run (enterScope dir s)))

/-- The states a parse goes through, in order: before each command and each scope, before
the end of each scope, and at the end. -/
def SpecFile.points : SpecFile → Parse → List Parse
  | done, s => [s]
  | command c rest, s => s :: rest.points (c.run env elements s)
  | scope dir body rest, s =>
    s :: (body.points (enterScope dir s)
      ++ rest.points (leaveScope dir s (body.run env elements (enterScope dir s))))

end

/-! ## Marks and values -/

/-- The name has a value, and `define!` gave it. -/
def Parse.Fixed (s : Parse) (name : String) : Prop :=
  ∃ d, s.defines.lookup name = some d ∧ d.verb = .define!

/-- The marked names are those whose value was given by `define!`. -/
def Parse.Truthful (s : Parse) : Prop := ∀ name, name ∈ s.fixedvars ↔ s.Fixed name

/-- The state, if nothing were marked. -/
def Parse.unmarked (s : Parse) : Parse := { s with fixedvars := ∅ }

/-- What `define!` promises at a point of a parse: the marks are truthful, no other command
changes a value that it gave, and for every other name a command does what it would do if
nothing were marked. -/
structure Parse.Sound (env : String → String) (elements : String → List String) (s : Parse) :
    Prop where
  truthful : s.Truthful
  kept : ∀ c : Command, c.verb ≠ .define! → s.Fixed c.name →
    (c.run env elements s).defines = s.defines
  obeyed : ∀ c : Command, c.verb ≠ .define! → ¬ s.Fixed c.name →
    (c.run env elements s).defines = (c.run env elements s.unmarked).defines

/-- The names that a script gives to `define!`. -/
def SpecFile.fixes : SpecFile → List String
  | done => []
  | command c rest => if c.verb = .define! then c.name :: rest.fixes else rest.fixes
  | scope _ body rest => body.fixes ++ rest.fixes

/-- Every scope of the script fixes only names that were fixed before it began; `fixed` lists
those fixed so far. -/
def SpecFile.Contained : List String → SpecFile → Prop
  | _, done => True
  | fixed, command c rest =>
    rest.Contained (if c.verb = .define! then c.name :: fixed else fixed)
  | fixed, scope _ body rest =>
    body.Contained fixed ∧ (∀ name ∈ body.fixes, name ∈ fixed) ∧ rest.Contained fixed

variable {env : String → String} {elements : String → List String}

@[simp] theorem defineVar_fixedvars (verb : Verb) (name value : String) (force : Bool)
    (s : Parse) : (defineVar verb name value force s).fixedvars = s.fixedvars := by
  unfold defineVar
  split <;> rfl

theorem defineVar_fixed {verb : Verb} {name : String} {s : Parse} (value : String)
    (h : name ∈ s.fixedvars) : defineVar verb name value false s = s := by
  simp [defineVar, h]

theorem defineVar_free {verb : Verb} {name : String} {s : Parse} (value : String)
    (h : name ∉ s.fixedvars) :
    (defineVar verb name value false s).defines = s.defines.insert name ⟨value, verb⟩ := by
  simp [defineVar, h]

theorem getDefine_defineVar_ne {name n : String} (h : name ≠ n) (verb : Verb) (value : String)
    (force : Bool) (s : Parse) :
    getDefine name (defineVar verb n value force s) = getDefine name s := by
  rw [defineVar]
  split
  · rfl
  · rw [getDefine, getDefine, AList.lookup_insert_ne h]

theorem defineAppend_fixedvars (name : String) (args : List String) (s : Parse) :
    (defineAppend name args s).fixedvars = s.fixedvars := by
  rw [defineAppend]
  split
  · rfl
  · exact defineVar_fixedvars ..

theorem getDefine_defineAppend {name : String} {args : List String} {s : Parse} (hargs : args ≠ [])
    (h : name ∉ s.fixedvars) :
    getDefine name (defineAppend name args s) =
      appendWithSpace (getDefine name s) (joinList args) := by
  have hempty : ¬args.isEmpty = true := fun hnil => hargs (List.isEmpty_iff.mp hnil)
  rw [defineAppend, if_neg hempty, getDefine, defineVar_free _ h, AList.lookup_insert,
    defineGetValue, if_neg hempty]

theorem getDefine_defineAppend_ne {name n : String} (h : name ≠ n) (args : List String) (s : Parse) :
    getDefine name (defineAppend n args s) = getDefine name s := by
  rw [defineAppend]
  split
  · rfl
  · exact getDefine_defineVar_ne h ..

/-- A command other than `define!` does nothing, or it assigns a value to its name unless
the name is marked.  The value does not depend on the marks. -/
theorem Command.run_cases (c : Command) (s : Parse) (h : c.verb ≠ .define!) :
    (c.run env elements s = s ∧ c.run env elements s.unmarked = s.unmarked) ∨
      ∃ value, c.run env elements s = defineVar c.verb c.name value false s ∧
        c.run env elements s.unmarked = defineVar c.verb c.name value false s.unmarked := by
  obtain ⟨verb, name, args⟩ := c
  cases verb with
  | define => exact .inr ⟨_, rfl, rfl⟩
  | define! => exact absurd rfl h
  | define? =>
    by_cases hvalue : getDefine name s = ""
    · have hvalue' : getDefine name s.unmarked = "" := hvalue
      exact .inr ⟨if env name ≠ "" then env name else defineGetValue args,
        by simp [Command.run, Tmake.define?, hvalue],
        by simp [Command.run, Tmake.define?, hvalue']⟩
    · have hvalue' : ¬ getDefine name s.unmarked = "" := hvalue
      exact .inl ⟨by simp [Command.run, Tmake.define?, hvalue],
        by simp [Command.run, Tmake.define?, hvalue']⟩
  | defineAppend =>
    cases args with
    | nil => exact .inl ⟨rfl, rfl⟩
    | cons arg args => exact .inr ⟨_, rfl, rfl⟩
  | defineListAppend =>
    cases args with
    | nil => exact .inl ⟨rfl, rfl⟩
    | cons arg args => exact .inr ⟨_, rfl, rfl⟩

/-- Only `define!` marks a name. -/
theorem Command.mem_run_fixedvars (c : Command) (s : Parse) (name : String) :
    name ∈ (c.run env elements s).fixedvars ↔
      (c.verb = .define! ∧ name = c.name) ∨ name ∈ s.fixedvars := by
  by_cases h : c.verb = .define!
  · simp [Command.run, h, Tmake.define!]
  · have hsame : (c.run env elements s).fixedvars = s.fixedvars := by
      rcases c.run_cases s h with ⟨hs, -⟩ | ⟨value, hs, -⟩ <;> rw [hs]
      exact defineVar_fixedvars ..
    simp [hsame, h]

/-- After an assignment the name is fixed if the assignment was by `define!`. -/
theorem Parse.fixed_insert {s t : Parse} {n value : String} {verb : Verb}
    (h : t.defines = s.defines.insert n ⟨value, verb⟩) (name : String) :
    t.Fixed name ↔ if name = n then verb = .define! else s.Fixed name := by
  unfold Parse.Fixed
  rw [h]
  split
  · rename_i hname
    rw [hname, AList.lookup_insert]
    simp
  · rename_i hname
    rw [AList.lookup_insert_ne hname]

variable (env elements) in
/-- One command keeps the marks truthful. -/
theorem Parse.Truthful.command {s : Parse} (h : s.Truthful) (c : Command) :
    (c.run env elements s).Truthful := by
  intro name
  rw [c.mem_run_fixedvars, h name]
  by_cases hverb : c.verb = .define!
  · have hdefines : (c.run env elements s).defines =
        s.defines.insert c.name ⟨defineGetValue c.args, .define!⟩ := by
      simp [Command.run, hverb, Tmake.define!, defineVar]
    rw [Parse.fixed_insert hdefines]
    split <;> simp [*]
  · rcases c.run_cases s hverb with ⟨hs, -⟩ | ⟨value, hs, -⟩ <;> rw [hs]
    · simp [hverb]
    · by_cases hmark : c.name ∈ s.fixedvars
      · rw [defineVar_fixed value hmark]
        simp [hverb]
      · have hfree : ¬ s.Fixed c.name := fun hf => hmark ((h _).mpr hf)
        rw [Parse.fixed_insert (defineVar_free value hmark)]
        split <;> simp [*]

/-- Truthful marks are all that `define!` needs to keep its promise. -/
theorem Parse.Truthful.sound {s : Parse} (h : s.Truthful) : s.Sound env elements where
  truthful := h
  kept c hverb hfixed := by
    rcases c.run_cases s hverb with ⟨hs, -⟩ | ⟨value, hs, -⟩ <;> rw [hs]
    rw [defineVar_fixed value ((h _).mpr hfixed)]
  obeyed c hverb hfree := by
    have hmark : c.name ∉ s.fixedvars := fun hm => hfree ((h _).mp hm)
    rcases c.run_cases s hverb with ⟨hs, hs'⟩ | ⟨value, hs, hs'⟩ <;> rw [hs, hs']
    · rfl
    · rw [defineVar_free value hmark, defineVar_free value (AList.notMem_empty _)]
      rfl

@[simp] theorem enterScope_defines (dir : Path) (s : Parse) :
    (enterScope dir s).defines = s.defines := by
  unfold enterScope
  split <;> rfl

@[simp] theorem enterScope_fixedvars (dir : Path) (s : Parse) :
    (enterScope dir s).fixedvars = s.fixedvars := by
  unfold enterScope
  split <;> rfl

@[simp] theorem leaveScope_defines (dir : Path) (saved s : Parse) :
    (leaveScope dir saved s).defines = saved.defines := by
  unfold leaveScope
  split <;> rfl

@[simp] theorem leaveScope_fixedvars (dir : Path) (saved s : Parse) :
    (leaveScope dir saved s).fixedvars = s.fixedvars := by
  unfold leaveScope
  split <;> rfl

/-- The marks grow by the names given to `define!`, in whatever scope. -/
theorem SpecFile.mem_run_fixedvars (f : SpecFile) (s : Parse) (name : String) :
    name ∈ (f.run env elements s).fixedvars ↔ name ∈ f.fixes ∨ name ∈ s.fixedvars := by
  induction f generalizing s with
  | done => simp [SpecFile.run, SpecFile.fixes]
  | command c rest ih =>
    rw [SpecFile.run, ih, c.mem_run_fixedvars, SpecFile.fixes]
    by_cases h : c.verb = .define! <;> simp [h]
    tauto
  | scope dir body rest ihbody ih =>
    rw [SpecFile.run, ih, leaveScope_fixedvars, ihbody, enterScope_fixedvars, SpecFile.fixes]
    simp only [List.mem_append]
    tauto

theorem SpecFile.mem_points_self (f : SpecFile) (s : Parse) : s ∈ f.points env elements s := by
  cases f <;> simp [SpecFile.points]

/-- The run lemma: from a truthful state, the marks are truthful at every point exactly if
every scope fixes only what is fixed already. -/
theorem SpecFile.truthful_iff (f : SpecFile) {s : Parse} (h : s.Truthful) (fixed : List String)
    (hfixed : ∀ name, name ∈ s.fixedvars ↔ name ∈ fixed) :
    (∀ t ∈ f.points env elements s, t.Truthful) ↔ f.Contained fixed := by
  induction f generalizing s fixed with
  | done => simp [SpecFile.points, SpecFile.Contained, h]
  | command c rest ih =>
    rw [SpecFile.Contained, ← ih (h.command env elements c)]
    · simp [SpecFile.points, h]
    · intro name
      rw [c.mem_run_fixedvars, hfixed]
      by_cases hverb : c.verb = .define! <;> simp [hverb]
  | scope dir body rest ihbody ih =>
    have henter : (enterScope dir s).Truthful := by
      intro name
      simpa [Parse.Fixed] using h name
    have hbody := ihbody henter fixed (by simpa using hfixed)
    -- the scope takes the values back, and the marks if there are no new ones
    have hleave : (leaveScope dir s (body.run env elements (enterScope dir s))).Truthful ↔
        ∀ name ∈ body.fixes, name ∈ fixed := by
      constructor
      · intro ht name hname
        have hmark := (ht name).mp (by
          rw [leaveScope_fixedvars, body.mem_run_fixedvars]
          exact .inl hname)
        exact (hfixed name).mp ((h name).mpr (by simpa [Parse.Fixed] using hmark))
      · intro hnames name
        rw [leaveScope_fixedvars, body.mem_run_fixedvars, enterScope_fixedvars, Parse.Fixed,
          leaveScope_defines]
        constructor
        · rintro (hname | hname)
          · exact (h name).mp ((hfixed name).mpr (hnames name hname))
          · exact (h name).mp hname
        · exact fun hf => .inr ((h name).mpr hf)
    rw [SpecFile.Contained, ← hbody, ← hleave]
    simp only [SpecFile.points, List.mem_cons, List.mem_append, or_imp, forall_and, forall_eq, h,
      true_and]
    refine and_congr_right fun _ => ?_
    have hmarks : (leaveScope dir s (body.run env elements (enterScope dir s))).Truthful →
        ∀ name, name ∈ (leaveScope dir s (body.run env elements (enterScope dir s))).fixedvars ↔
          name ∈ fixed := by
      intro ht name
      rw [leaveScope_fixedvars, body.mem_run_fixedvars, enterScope_fixedvars, hfixed]
      exact ⟨fun hn => hn.elim (hleave.mp ht name) id, .inr⟩
    constructor
    · intro hrest
      have ht := hrest _ (rest.mem_points_self _)
      exact ⟨ht, (ih ht fixed (hmarks ht)).mp hrest⟩
    · rintro ⟨ht, hrest⟩
      exact (ih ht fixed (hmarks ht)).mpr hrest

/-- **Fixed variables.**  At every point of a parse the marks of `define!` are truthful, its
values are kept and every other command is obeyed, exactly if no scope that ends has fixed a
name which was free when it began. -/
theorem define_fixed (env : String → String) (elements : String → List String) (f : SpecFile) :
    (∀ s ∈ f.points env elements {}, s.Sound env elements) ↔ f.Contained [] := by
  rw [← f.truthful_iff (s := {}) _ []]
  · exact forall₂_congr fun s _ => ⟨Parse.Sound.truthful, Parse.Truthful.sound⟩
  · simp
  · intro name
    simp [Parse.Fixed]

/-- After `Scope { define! A 1 }` the name `A` has no value and cannot be given one. -/
theorem define_fixed_lingers :
    ¬ ∀ (env : String → String) (elements : String → List String) (f : SpecFile),
      ∀ s ∈ f.points env elements {}, s.Sound env elements := by
  intro h
  let f : SpecFile := .scope "" (.command ⟨.define!, "A", ["1"]⟩ .done) .done
  have hsound := h (fun _ => "") (fun _ => []) f (f.run (fun _ => "") (fun _ => []) {})
    (by simp [f, SpecFile.points, SpecFile.run])
  obtain ⟨d, hd, -⟩ := (hsound.truthful "A").mp (by decide)
  have hnone : (f.run (fun _ => "") (fun _ => []) {}).defines.lookup "A" = none := by decide
  rw [hnone] at hd
  cases hd

end Tmake
