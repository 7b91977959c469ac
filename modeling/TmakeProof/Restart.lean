import Mathlib.Logic.Relation
import TmakeProof.Defines
import TmakeProof.Lockstep
import TmakeProof.RuleBase

/-! # Reload and restart

When a `Load` file has changed the saved `tmake(...)` is restored and the spec
files are parsed again, in the same process.  This is compared with a new process
that parses the same files.

Spec files, deferred actions and `-do` scripts are Tcl programs; of a program
matters here which commands of tmake it executes, each of which may depend on
what the earlier ones have returned (`Tcl`).  `Interp` is what the commands read
and change: the part of `tmake(...)` that a parse fills, and `tmakemodules`,
which is not restored.

The two processes agree in everything but `tmake(parsedone)`: it is set once,
after the first parse and outside of what is saved.  So the only thing that a
reload changes is that `get-define` is no longer refused.
-/
namespace Tmake
open Lockstep

/-- What spec files set directly in `tmake(...)`. -/
inductive Setting where
  | addProjectFile (filename : Name) (nocare : Bool)
  | addCleanTargets (args : List Name)
  | setDefaultTarget (target : Name)
  | autoSubDirs (onoff : Bool)
  | checkExternalCommands (onoff : Bool)
  | useHashes (onoff : Bool)
  deriving DecidableEq, Repr

/-- A script, by the commands of tmake that it executes. -/
inductive Tcl where
  /-- The script ends; with return code 20 (`skip`) the rest of the spec file is skipped. -/
  | done (skip : Bool)
  /-- `parse-error`, or a Tcl error. -/
  | error
  | define (c : Command) (rest : Tcl)
  | getDefine (name default : String) (k : String → Tcl)
  /-- `$name`, if there is such a variable. -/
  | var (name : String) (k : Option String → Tcl)
  | target (ruletarget : RuleTarget) (args source : List String) (rest : Tcl)
  /-- The script looks at the rule base, as with `is-target?` or `get-rule`. -/
  | inspect (k : RuleBase → Tcl)
  /-- `local-dir` and `local-prefix`. -/
  | localDir (k : Path → String → Tcl)
  | setting (s : Setting) (rest : Tcl)
  | subDirs (dirs : List Path) (rest : Tcl)
  | addDeferredAction (action rest : Tcl)
  | use (m : String) (rest : Tcl)
  | scope (dir : Path) (body rest : Tcl)

/-- What a parse leaves in `tmake(...)`, apart from the variables. -/
structure Tables where
  base : RuleBase := {}
  deferred : List Tcl := []
  projfiles : List (Name × Bool) := []
  cleanTargets : List Name := ["clean", "distclean", "clean-orphans"]
  defaulttarget : Name := "all"
  autosubdirs : Bool := true
  subdirs : List Path := []
  checkexternalcmds : Bool := false
  usehashes : Nat := 0
  maxjobs : Option String := none
  sepjobio : Option String := none
  loadedprojectspec : Bool := false

/-- `tmake(...)`. -/
structure Globals where
  vars : Parse := {}
  tables : Tables := {}
  /-- `tmake(prefix)` and `tmake(localdir)` exist. -/
  located : Bool := true
  parsedone : Bool := false

structure Interp where
  globals : Globals
  /-- `tmakemodules`. -/
  modules : Dict String Nat

/-- Why a script does not end. -/
inductive Fault where
  | error
  /-- `get-define` was called in the build phase. -/
  | buildPhase (name : String)
  /-- The bound on the depth of directories in this model. -/
  | depth
  deriving DecidableEq, Repr

/-- What does not change while tmake runs: what `getenv` finds, how a value is read as a list,
the modules in `lib`, the options of the command line, and the modules loaded at the start. -/
structure Setup where
  env : String → String
  elements : String → List String
  hasModule : String → Bool
  installed : Bool := false
  /-- `os.fork` exists. -/
  hasFork : Bool := true
  numCpus : String := "1"
  options : Parse := {}
  tables : Tables := {}
  modules : Dict String Nat := ∅
  loaded : ∀ m ∈ modules, hasModule m = true

/-- The rulebase: its file, and the procedures that `rulebase-invoke` calls. -/
structure Rulebase where
  file : Tcl := .done false
  init : Tcl := .done false
  prolog : Tcl := .done false
  epilog : Tcl := .done false

/-- The spec files of a source tree. -/
structure SpecTree where
  rulebase : Rulebase := {}
  spec : Path → Option Tcl
  /-- `readdir`. -/
  readdir : Path → List Path := fun _ => []

/-! ## The commands -/

/-- The values of the variables. -/
def Parse.values (s : Parse) : Dict String String where
  entries := s.defines.entries.map fun x => ⟨x.1, x.2.value⟩
  nodupKeys := by
    have hkeys : (s.defines.entries.map fun x => (⟨x.1, x.2.value⟩ : (_ : String) × String)).keys
        = s.defines.entries.keys := by
      rw [List.keys, List.map_map]
      rfl
    unfold List.NodupKeys
    rw [hkeys]
    exact s.defines.nodupKeys

def Setting.run : Setting → Tables → Tables
  | addProjectFile filename nocare, t => { t with projfiles := t.projfiles ++ [(filename, nocare)] }
  | addCleanTargets args, t => { t with cleanTargets := t.cleanTargets ++ args }
  | setDefaultTarget target, t => { t with defaulttarget := target }
  | autoSubDirs onoff, t => { t with autosubdirs := onoff }
  | checkExternalCommands onoff, t => { t with checkexternalcmds := onoff }
  | useHashes onoff, t => if onoff then { t with usehashes := t.usehashes + 1 } else t

/-- The command calls `get-define`. -/
def Command.asks (c : Command) : Bool :=
  match c.verb with
  | .define | .define! => false
  | .define? => true
  | .defineAppend | .defineListAppend => !c.args.isEmpty

/-- `get-define`. -/
def Globals.getDefine (name default : String) (g : Globals) : Except Fault String :=
  if g.parsedone then .error (.buildPhase name)
  else .ok (((g.vars.defines.lookup name).map (·.value)).getD default)

section
variable (S : Setup) (T : SpecTree)

/-- The commands that define variables. -/
def Globals.define (c : Command) (g : Globals) : Except Fault Globals :=
  if g.parsedone && c.asks then .error (.buildPhase c.name)
  else .ok { g with vars := c.run S.env S.elements g.vars }

/-- `target`: outside of a parse there is no `local-dir`. -/
def Globals.target (ruletarget : RuleTarget) (args source : List String) (g : Globals) :
    Except Fault Globals :=
  if g.located then
    match Tmake.target S.elements
        { target := ruletarget, args, source, localDir := g.vars.localdir, defines := g.vars.values }
        g.tables.base with
    | some base => .ok { g with tables := { g.tables with base } }
    | none => .error .error
  else .error .error

/-- `SubDirs`. -/
def Globals.subDirs (dirs : List Path) (g : Globals) : Except Fault Globals :=
  if dirs.all fun dir => (T.spec (dir ++ "/build.spec")).isSome then
    .ok { g with tables := { g.tables with subdirs := g.tables.subdirs ++ dirs } }
  else .error .error

/-- `use`, for one module.  A module defines procedures. -/
def Interp.use (m : String) (s : Interp) : Except Fault Interp :=
  if S.installed || decide (m ∈ s.modules) then .ok s
  else if S.hasModule m then .ok { s with modules := s.modules.insert m 1 }
  else .error .error

/-- The first half of `Scope`. -/
def Globals.enter (dir : Path) (g : Globals) : Except Fault Globals :=
  if dir ≠ "" && !g.located then .error .error
  else .ok { g with vars := enterScope dir g.vars }

/-- The second half of `Scope`. -/
def Globals.leave (dir : Path) (g saved : Globals) : Globals :=
  { g with vars := leaveScope dir saved.vars g.vars }

/-- Run a script.  A script that is skipped leaves its scopes at once: nothing is restored. -/
def Tcl.run : Tcl → Interp → Except Fault (Bool × Interp)
  | done skip, s => .ok (skip, s)
  | error, _ => .error .error
  | define c rest, s => do
    let g ← s.globals.define S c
    rest.run { s with globals := g }
  | getDefine name default k, s => do
    let value ← s.globals.getDefine name default
    (k value).run s
  | var name k, s => (k ((s.globals.vars.defines.lookup name).map (·.value))).run s
  | target ruletarget args source rest, s => do
    let g ← s.globals.target S ruletarget args source
    rest.run { s with globals := g }
  | inspect k, s => (k s.globals.tables.base).run s
  | localDir k, s =>
    if s.globals.located then (k s.globals.vars.localdir s.globals.vars.localPrefix).run s
    else .error .error
  | setting x rest, s =>
    rest.run { s with globals := { s.globals with tables := x.run s.globals.tables } }
  | subDirs dirs rest, s => do
    let g ← s.globals.subDirs T dirs
    rest.run { s with globals := g }
  | addDeferredAction action rest, s =>
    rest.run { s with globals := { s.globals with
      tables := { s.globals.tables with deferred := s.globals.tables.deferred ++ [action] } } }
  | use m rest, s => do
    let s ← s.use S m
    rest.run s
  | scope dir body rest, s => do
    let g ← s.globals.enter dir
    let (skip, t) ← body.run { s with globals := g }
    if skip then .ok (true, t)
    else rest.run { t with globals := t.globals.leave dir s.globals }

/-! ## Parsing a project -/

/-- `foreach i $tmake(deferred)`. -/
def runDeferred (s : Interp) (action : Tcl) : Except Fault Interp := do
  let (skip, s) ← action.run S T s
  if skip then .error .error else return s

/-- The directories below `dir` with a `build.spec`; `subdirs` are those set explicitly. -/
def autoDirs (dir : Path) : List Path → List Path → List Path
  | [], subdirs => subdirs
  | d :: ds, subdirs =>
    if (T.spec (dir ++ "/" ++ d ++ "/build.spec")).isSome && d ∉ subdirs then
      autoDirs dir ds (subdirs ++ [fileJoin dir d])
    else autoDirs dir ds subdirs

/-- What `process-build-spec-file` runs in the scope of the directory. -/
def runBuildSpec (script : Option Tcl) (s : Interp) : Except Fault (Bool × Interp) := do
  let (_, s) ← T.rulebase.prolog.run S T s
  let (skip, s) ← (script.getD (.done false)).run S T s
  let (_, s) ← T.rulebase.epilog.run S T s
  return (skip, s)

/-- The subdirectories to be processed next; `SubDirs` starts afresh. -/
def takeSubdirs (dir : Path) (t : Tables) : List Path × Tables :=
  (if t.autosubdirs then autoDirs T dir (T.readdir dir) t.subdirs else t.subdirs,
    { t with subdirs := [] })

/-- `process-build-spec-file`. -/
def processBuildSpecFile : Nat → Path → Bool → Interp → Except Fault Interp
  | 0, _, _, _ => .error .depth
  | n + 1, dir, optional, s =>
    let script := T.spec (fileJoin dir "build.spec")
    if script.isNone && !optional then .error .error
    else do
      let g ← s.globals.enter dir
      let (skip, t) ← runBuildSpec S T script { s with globals := g }
      let g := t.globals.leave dir s.globals
      if skip then return { t with globals := g }
      else
        let (subdirs, tables) := takeSubdirs T dir g.tables
        subdirs.foldlM (fun s d => processBuildSpecFile n d false s)
          { t with globals := { g with tables } }

/-- A rule that is not phony depends on one that is. -/
def RuleBase.dependsOnPhony (b : RuleBase) : Bool :=
  b.rules.entries.any fun x => x.2.flags .phony = 0 && x.2.depends.any fun dep =>
    match b.getRuleTarget dep with
    | some rt => (b.rules.lookup rt).any fun info => info.flags .phony ≠ 0
    | none => false

/-- `load-build-description`, apart from the cache. -/
def loadDescription (n : Nat) (s : Interp) : Except Fault Interp := do
  let (_, s) ← ((T.spec "project.spec").getD .error).run S T s
  let maxjobs ← s.globals.getDefine "MAXJOBS" S.numCpus
  let sepjobio ← s.globals.getDefine "SEPJOBIO" "1"
  let s := { s with globals := { s.globals with tables := { s.globals.tables with
    maxjobs := some (if S.hasFork then maxjobs else "1"), sepjobio := some sepjobio } } }
  let s ← s.globals.tables.deferred.foldlM (runDeferred S T) s
  let s ← processBuildSpecFile S T n "." true { s with globals := { s.globals with
    tables := { s.globals.tables with loadedprojectspec := true } } }
  if s.globals.tables.base.dependsOnPhony then .error .error
  else return { s with globals := { s.globals with located := false } }

/-! ## A process -/

/-- The state when the options have been read. -/
def Setup.boot : Interp := ⟨{ vars := S.options, tables := S.tables }, S.modules⟩

/-- What is saved for a reload: the rulebase has been read and initialised. -/
def initialise : Except Fault Interp := do
  let (skip, s) ← T.rulebase.file.run S T S.boot
  if skip then .error .error
  else
    let (_, s) ← T.rulebase.init.run S T s
    return s

/-- A new process, up to its build phase. -/
def startProcess (n : Nat) : Except Fault Interp := do
  let s ← initialise S T
  let s ← loadDescription S T n s
  return { s with globals := { s.globals with parsedone := true } }

/-- A reload.  The rulebase is not read again, and the modules stay. -/
def restart (n : Nat) (rulebase : Rulebase) (saved : Globals) (s : Interp) :
    Except Fault Interp := do
  let T := { T with rulebase }
  let (_, s) ← rulebase.init.run S T { s with globals := saved }
  loadDescription S T n s

/-- Scripts are run, as when `Load` files are built. -/
abbrev Builds : Interp → Interp → Prop :=
  Relation.ReflTransGen fun s t => ∃ (script : Tcl) (skip : Bool), script.run S T s = .ok (skip, t)

/-- After `k` reloads the build phase goes on in the state `s`, with the spec files of `T'`.
The process was started with those of `T`. -/
inductive GoesOn (n : Nat) : Nat → SpecTree → Interp → Prop
  | start {s : Interp} (h : startProcess S T n = .ok s) : GoesOn n 0 T s
  | reload {k : Nat} {T' T'' : SpecTree} {saved s t u : Interp} (h : GoesOn n k T' s)
      (hb : Builds S T' s t) (hsaved : initialise S T = .ok saved)
      (hu : restart S T'' n T.rulebase saved.globals t = .ok u) : GoesOn n (k + 1) T'' u

end

/-! ## What a script does not notice

The order in which variables were defined, which modules are loaded, and whether the build phase
has begun, unless it calls `get-define`. -/

/-- The same variables, perhaps defined in another order. -/
structure Parse.Like (s s' : Parse) : Prop where
  defines : ∀ name, s.defines.lookup name = s'.defines.lookup name
  fixed : ∀ name, name ∈ s.fixedvars ↔ name ∈ s'.fixedvars
  localdir : s.localdir = s'.localdir
  localPrefix : s.localPrefix = s'.localPrefix

/-- The same, and the same tables. -/
structure Globals.Like (g g' : Globals) : Prop where
  vars : g.vars.Like g'.vars
  tables : g.tables = g'.tables
  located : g.located = g'.located

/-- Every loaded module exists. -/
def Interp.Loaded (S : Setup) (s : Interp) : Prop := ∀ m ∈ s.modules, S.hasModule m = true

/-- Two processes that differ only in what a script does not notice; `p` and `q` say whether the
build phase has begun. -/
structure Similar (S : Setup) (p q : Bool) (s s' : Interp) : Prop where
  like : s.globals.Like s'.globals
  left : s.globals.parsedone = p
  right : s'.globals.parsedone = q
  loaded : s.Loaded S
  loaded' : s'.Loaded S

/-- What happens to a script that calls `get-define`. -/
def Fault.Refused : Fault → Prop
  | buildPhase _ => True
  | _ => False

/-- Both runs end alike, unless the second one, whose build phase has begun (`q`), is refused a
`get-define`. -/
abbrev Concur {α β : Type} (p q : Bool) (R : α → β → Prop) : Except Fault α → Except Fault β → Prop :=
  Alike (fun e => e.Refused ∧ q = true) (fun e => e.Refused → p = true) R

section
variable {S : Setup} {T : SpecTree} {p q : Bool} {s s' : Interp} {g g' : Globals} {v v' : Parse}

theorem concur_error {α β : Type} {R : α → β → Prop} :
    Concur p q R (.error .error) (.error .error) := Alike.fail fun h => h.elim

@[refl] theorem Parse.Like.refl (v : Parse) : v.Like v := ⟨fun _ => rfl, fun _ => Iff.rfl, rfl, rfl⟩

theorem Parse.Like.trans {v'' : Parse} (h : v.Like v') (h' : v'.Like v'') : v.Like v'' :=
  ⟨fun n => (h.defines n).trans (h'.defines n), fun n => (h.fixed n).trans (h'.fixed n),
    h.localdir.trans h'.localdir, h.localPrefix.trans h'.localPrefix⟩

theorem Parse.Like.getDefine (h : v.Like v') (name : String) :
    getDefine name v = getDefine name v' := by
  unfold Tmake.getDefine
  rw [h.defines]

theorem Parse.Like.defineVar (h : v.Like v') (verb : Verb) (name value : String) (force : Bool) :
    (defineVar verb name value force v).Like (defineVar verb name value force v') := by
  unfold Tmake.defineVar
  by_cases hfixed : name ∈ v.fixedvars ∧ force = false
  · have hfixed' : name ∈ v'.fixedvars ∧ force = false := ⟨(h.fixed name).mp hfixed.1, hfixed.2⟩
    rw [if_pos (by simpa using hfixed), if_pos (by simpa using hfixed')]
    exact h
  · have hfixed' : ¬(name ∈ v'.fixedvars ∧ force = false) :=
      fun hf => hfixed ⟨(h.fixed name).mpr hf.1, hf.2⟩
    rw [if_neg (by simpa using hfixed), if_neg (by simpa using hfixed')]
    refine ⟨fun name' => ?_, h.fixed, h.localdir, h.localPrefix⟩
    by_cases hname : name' = name
    · rw [hname, AList.lookup_insert, AList.lookup_insert]
    · rw [AList.lookup_insert_ne hname, AList.lookup_insert_ne hname]
      exact h.defines name'

theorem Parse.Like.run (h : v.Like v') (env : String → String) (elements : String → List String)
    (c : Command) : (c.run env elements v).Like (c.run env elements v') := by
  obtain ⟨verb, name, args⟩ := c
  cases verb with
  | define => exact h.defineVar ..
  | define! =>
    show (Tmake.define! name args v).Like (Tmake.define! name args v')
    have hmarked : Parse.Like { v with fixedvars := v.fixedvars.insert name 1 }
        { v' with fixedvars := v'.fixedvars.insert name 1 } := by
      refine ⟨h.defines, fun name' => ?_, h.localdir, h.localPrefix⟩
      simp only [AList.mem_insert, h.fixed]
    exact hmarked.defineVar ..
  | define? =>
    show (Tmake.define? env name args v).Like (Tmake.define? env name args v')
    unfold Tmake.define?
    rw [h.getDefine]
    split
    · exact h.defineVar ..
    · exact h
  | defineAppend =>
    show (defineAppend name args v).Like (defineAppend name args v')
    unfold defineAppend
    rw [h.getDefine]
    split
    · exact h
    · exact h.defineVar ..
  | defineListAppend =>
    show (defineListAppend elements name args v).Like (defineListAppend elements name args v')
    unfold defineListAppend
    rw [h.getDefine]
    split
    · exact h
    · exact h.defineVar ..

theorem Parse.lookup_values (v : Parse) (name : String) :
    v.values.lookup name = (v.defines.lookup name).map (·.value) :=
  List.dlookup_map₂ (f := fun _ (d : Define) => d.value) name

theorem Parse.Like.values (h : v.Like v') (name : String) :
    v.values.lookup name = v'.values.lookup name := by
  rw [Parse.lookup_values, Parse.lookup_values, h.defines]

theorem getVars_congr {D D' : Dict String String} (h : ∀ name, D.lookup name = D'.lookup name)
    (names : List String) : getVars D names = getVars D' names := by
  induction names with
  | nil => rfl
  | cons name names ih =>
    unfold getVars
    rw [h, ih]

/-- `target` reads only the values of the defines. -/
theorem target_congr {D D' : Dict String String} (h : ∀ name, D.lookup name = D'.lookup name)
    (elements : String → List String) (c : TargetCommand) (b : RuleBase) :
    target elements { c with defines := D } b = target elements { c with defines := D' } b := by
  have hoption : ∀ info opt args, applyOption elements { c with defines := D } info opt args
      = applyOption elements { c with defines := D' } info opt args := by
    intro info opt args
    unfold applyOption
    rw [getVars_congr h]
  have hoptions : ∀ opts info, applyOptions elements { c with defines := D } opts info
      = applyOptions elements { c with defines := D' } opts info := by
    intro opts
    induction opts with
    | nil => exact fun _ => rfl
    | cons x opts ih =>
      intro info
      unfold applyOptions
      rw [hoption]
      exact congrArg _ (funext ih)
  have hrule : completeRule elements { c with defines := D }
      = completeRule elements { c with defines := D' } := by
    unfold completeRule parseRule
    simp only [hoptions]
  unfold target
  rw [hrule]

/-! ### Each command -/

theorem Similar.with_globals (h : Similar S p q s s') (hl : g.Like g') (hp : g.parsedone = p)
    (hq : g'.parsedone = q) : Similar S p q { s with globals := g } { s' with globals := g' } :=
  ⟨hl, hp, hq, h.loaded, h.loaded'⟩

/-- What a command leaves in `tmake(...)`. -/
abbrev Globals.Follows (p q : Bool) (g g' : Globals) : Prop :=
  g.Like g' ∧ g.parsedone = p ∧ g'.parsedone = q

theorem Similar.getDefine (h : Similar S p q s s') (hpq : p = true → q = true)
    (name default : String) :
    Concur p q Eq (s.globals.getDefine name default) (s'.globals.getDefine name default) := by
  unfold Globals.getDefine
  rw [h.left, h.right, h.like.vars.defines]
  cases q with
  | true => exact .excused ⟨trivial, rfl⟩
  | false =>
    have hp : p = false := by
      by_contra hp
      exact absurd (hpq (by simpa using hp)) (by simp)
    rw [hp]
    exact .pure rfl

theorem Similar.define (h : Similar S p q s s') (hpq : p = true → q = true) (c : Command) :
    Concur p q (Globals.Follows p q) (s.globals.define S c) (s'.globals.define S c) := by
  have hrun := h.like.vars.run S.env S.elements c
  unfold Globals.define
  rw [h.left, h.right]
  by_cases hq : (q && c.asks) = true
  · rw [if_pos hq]
    exact .excused ⟨trivial, (Bool.and_eq_true_iff.mp hq).1⟩
  · have hp : ¬(p && c.asks) = true := by
      intro hp
      obtain ⟨hp, hasks⟩ := Bool.and_eq_true_iff.mp hp
      exact hq (Bool.and_eq_true_iff.mpr ⟨hpq hp, hasks⟩)
    rw [if_neg hp, if_neg hq]
    exact .pure ⟨⟨hrun, h.like.tables, h.like.located⟩, rfl, rfl⟩

theorem Similar.target (h : Similar S p q s s') (ruletarget : RuleTarget)
    (args source : List String) :
    Concur p q (Globals.Follows p q) (s.globals.target S ruletarget args source)
      (s'.globals.target S ruletarget args source) := by
  unfold Globals.target
  rw [h.like.located, h.like.tables, h.like.vars.localdir]
  split
  · rw [target_congr h.like.vars.values S.elements
      { target := ruletarget, args, source, localDir := s'.globals.vars.localdir }]
    cases Tmake.target S.elements _ _ with
    | some base => exact .pure ⟨⟨h.like.vars, rfl, rfl⟩, h.left, h.right⟩
    | none => exact concur_error
  · exact concur_error

theorem Similar.subDirs (h : Similar S p q s s') (dirs : List Path) :
    Concur p q (Globals.Follows p q) (s.globals.subDirs T dirs) (s'.globals.subDirs T dirs) := by
  unfold Globals.subDirs
  split
  · exact .pure ⟨⟨h.like.vars, by rw [h.like.tables], h.like.located⟩, h.left, h.right⟩
  · exact concur_error

theorem Interp.Loaded.insert (h : s.Loaded S) {m : String} (hm : S.hasModule m = true) :
    Interp.Loaded S { s with modules := s.modules.insert m 1 } := by
  intro m' hm'
  rcases AList.mem_insert _ |>.mp hm' with rfl | hm'
  · exact hm
  · exact h m' hm'

/-- A module that only one of the processes has loaded already exists for the other one. -/
theorem Similar.use (h : Similar S p q s s') (m : String) :
    Concur p q (Similar S p q) (s.use S m) (s'.use S m) := by
  have hnew : S.hasModule m = true → ∀ {t : Interp}, t.Loaded S →
      Interp.Loaded S { t with modules := t.modules.insert m 1 } := fun hm _ ht => ht.insert hm
  unfold Interp.use
  by_cases hm : S.hasModule m = true
  · rw [if_pos hm, if_pos hm]
    split <;> split
    · exact .pure h
    · exact .pure ⟨h.like, h.left, h.right, h.loaded, hnew hm h.loaded'⟩
    · exact .pure ⟨h.like, h.left, h.right, hnew hm h.loaded, h.loaded'⟩
    · exact .pure ⟨h.like, h.left, h.right, hnew hm h.loaded, hnew hm h.loaded'⟩
  · have hs : m ∉ s.modules := fun hin => hm (h.loaded m hin)
    have hs' : m ∉ s'.modules := fun hin => hm (h.loaded' m hin)
    rw [if_neg hm, if_neg hm]
    simp only [hs, hs', decide_false, Bool.or_false]
    split
    · exact .pure h
    · exact concur_error

theorem Similar.enter (h : Similar S p q s s') (dir : Path) :
    Concur p q (Globals.Follows p q) (s.globals.enter dir) (s'.globals.enter dir) := by
  unfold Globals.enter
  rw [h.like.located]
  split
  · exact concur_error
  · refine .pure ⟨⟨?_, h.like.tables, rfl⟩, h.left, h.right⟩
    show (enterScope dir s.globals.vars).Like (enterScope dir s'.globals.vars)
    unfold enterScope
    split
    · exact ⟨h.like.vars.defines, h.like.vars.fixed, rfl, rfl⟩
    · exact h.like.vars

theorem Globals.Follows.leave {saved saved' : Globals} (dir : Path) (h : saved.Like saved')
    (hg : g.Follows p q g') : (g.leave dir saved).Follows p q (g'.leave dir saved') := by
  refine ⟨⟨?_, hg.1.tables, hg.1.located⟩, hg.2⟩
  show (leaveScope dir saved.vars g.vars).Like (leaveScope dir saved'.vars g'.vars)
  unfold leaveScope
  split
  · exact ⟨h.vars.defines, hg.1.vars.fixed, h.vars.localdir, h.vars.localPrefix⟩
  · exact ⟨h.vars.defines, hg.1.vars.fixed, hg.1.vars.localdir, hg.1.vars.localPrefix⟩

/-- What a script returns. -/
abbrev Ended (S : Setup) (p q : Bool) (x x' : Bool × Interp) : Prop :=
  x.1 = x'.1 ∧ Similar S p q x.2 x'.2

/-- **A script does not notice.**  Run in two similar processes it ends alike, unless it is
refused a `get-define`. -/
theorem Tcl.run_concur (script : Tcl) (h : Similar S p q s s') (hpq : p = true → q = true) :
    Concur p q (Ended S p q) (script.run S T s) (script.run S T s') := by
  induction script generalizing s s' with
  | done skip => exact .pure ⟨rfl, h⟩
  | error => exact concur_error
  | define c rest ih =>
    exact (h.define hpq c).bind fun g g' hg => ih (h.with_globals hg.1 hg.2.1 hg.2.2)
  | getDefine name default k ih =>
    refine (h.getDefine hpq name default).bind fun value value' hv => ?_
    rw [hv]
    exact ih value' h
  | var name k ih =>
    unfold Tcl.run
    rw [h.like.vars.defines]
    exact ih _ h
  | target ruletarget args source rest ih =>
    exact (h.target ruletarget args source).bind fun g g' hg =>
      ih (h.with_globals hg.1 hg.2.1 hg.2.2)
  | inspect k ih =>
    unfold Tcl.run
    rw [h.like.tables]
    exact ih _ h
  | localDir k ih =>
    unfold Tcl.run
    rw [h.like.located, h.like.vars.localdir, h.like.vars.localPrefix]
    split
    · exact ih _ _ h
    · exact concur_error
  | setting x rest ih =>
    exact ih (h.with_globals ⟨h.like.vars, by rw [h.like.tables], h.like.located⟩ h.left h.right)
  | subDirs dirs rest ih =>
    exact (h.subDirs dirs).bind fun g g' hg => ih (h.with_globals hg.1 hg.2.1 hg.2.2)
  | addDeferredAction action rest _ ih =>
    exact ih (h.with_globals ⟨h.like.vars, by rw [h.like.tables], h.like.located⟩ h.left h.right)
  | use m rest ih => exact (h.use m).bind fun t t' ht => ih ht
  | scope dir body rest ihbody ih =>
    refine (h.enter dir).bind fun g g' hg => ?_
    refine (ihbody (h.with_globals hg.1 hg.2.1 hg.2.2)).bind fun x x' hx => ?_
    obtain ⟨skip, t⟩ := x
    obtain ⟨skip', t'⟩ := x'
    obtain ⟨hskip, ht⟩ : skip = skip' ∧ Similar S p q t t' := hx
    subst hskip
    dsimp only
    split
    · exact .pure ⟨rfl, ht⟩
    · have hleave := Globals.Follows.leave dir h.like ⟨ht.like, ht.left, ht.right⟩
      exact ih (ht.with_globals hleave.1 hleave.2.1 hleave.2.2)

/-! ### Parsing -/

theorem runDeferred_concur (action : Tcl) (h : Similar S p q s s') (hpq : p = true → q = true) :
    Concur p q (Similar S p q) (runDeferred S T s action) (runDeferred S T s' action) := by
  refine (action.run_concur h hpq).bind fun x x' hx => ?_
  obtain ⟨skip, t⟩ := x
  obtain ⟨skip', t'⟩ := x'
  obtain ⟨hskip, ht⟩ : skip = skip' ∧ Similar S p q t t' := hx
  subst hskip
  dsimp only
  split
  · exact concur_error
  · exact .pure ht

theorem runBuildSpec_concur (script : Option Tcl) (h : Similar S p q s s')
    (hpq : p = true → q = true) :
    Concur p q (Ended S p q) (runBuildSpec S T script s) (runBuildSpec S T script s') := by
  refine (Tcl.run_concur _ h hpq).bind fun x x' hx => ?_
  refine (Tcl.run_concur _ hx.2 hpq).bind fun y y' hy => ?_
  refine (Tcl.run_concur _ hy.2 hpq).bind fun z z' hz => ?_
  exact .pure ⟨hy.1, hz.2⟩

theorem processBuildSpecFile_concur (n : Nat) (dir : Path) (optional : Bool)
    (h : Similar S p q s s') (hpq : p = true → q = true) :
    Concur p q (Similar S p q) (processBuildSpecFile S T n dir optional s)
      (processBuildSpecFile S T n dir optional s') := by
  induction n generalizing dir optional s s' with
  | zero => exact Alike.fail fun h => h.elim
  | succ n ih =>
    unfold processBuildSpecFile
    dsimp only
    split
    · exact concur_error
    · refine (h.enter dir).bind fun g g' hg => ?_
      refine (runBuildSpec_concur _ (h.with_globals hg.1 hg.2.1 hg.2.2) hpq).bind fun x x' hx => ?_
      obtain ⟨skip, t⟩ := x
      obtain ⟨skip', t'⟩ := x'
      obtain ⟨hskip, ht⟩ : skip = skip' ∧ Similar S p q t t' := hx
      subst hskip
      have hleave := Globals.Follows.leave dir h.like ⟨ht.like, ht.left, ht.right⟩
      dsimp only
      split
      · exact .pure (ht.with_globals hleave.1 hleave.2.1 hleave.2.2)
      · rw [hleave.1.tables]
        refine Alike.foldlM (fun t t' d ht => ih d false ht) _ ?_
        exact ht.with_globals ⟨hleave.1.vars, rfl, hleave.1.located⟩ hleave.2.1 hleave.2.2

/-- Parsing the same files ends alike in similar processes. -/
theorem loadDescription_concur (n : Nat) (h : Similar S p q s s') (hpq : p = true → q = true) :
    Concur p q (Similar S p q) (loadDescription S T n s) (loadDescription S T n s') := by
  unfold loadDescription
  refine (Tcl.run_concur _ h hpq).bind fun x x' hx => ?_
  obtain ⟨skip, t⟩ := x
  obtain ⟨skip', t'⟩ := x'
  obtain ⟨-, ht⟩ : skip = skip' ∧ Similar S p q t t' := hx
  dsimp only
  refine (ht.getDefine hpq "MAXJOBS" S.numCpus).bind fun maxjobs maxjobs' hmax => ?_
  refine (ht.getDefine hpq "SEPJOBIO" "1").bind fun sepjobio sepjobio' hsep => ?_
  subst hmax hsep
  rw [ht.like.tables]
  refine (Alike.foldlM (fun _ _ action ht => runDeferred_concur action ht hpq) _ ?_).bind
    fun t t' ht => ?_
  · exact ht.with_globals ⟨ht.like.vars, rfl, ht.like.located⟩ ht.left ht.right
  refine (processBuildSpecFile_concur n "." true ?_ hpq).bind fun t t' ht => ?_
  · exact ht.with_globals ⟨ht.like.vars, by rw [ht.like.tables], ht.like.located⟩ ht.left ht.right
  rw [ht.like.tables]
  split
  · exact concur_error
  · exact .pure (ht.with_globals ⟨ht.like.vars, rfl, rfl⟩ ht.left ht.right)

/-! ## A reload and a new process -/

theorem Globals.Like.refl (g : Globals) : g.Like g := ⟨.refl _, rfl, rfl⟩

theorem Similar.refl (h : s.Loaded S) :
    Similar S s.globals.parsedone s.globals.parsedone s s :=
  ⟨.refl _, rfl, rfl, h, h⟩

/-- A script leaves `tmake(parsedone)` alone, and loads only modules that exist. -/
theorem Tcl.run_kept {script : Tcl} {skip : Bool} {t : Interp} (h : s.Loaded S)
    (ht : script.run S T s = .ok (skip, t)) :
    t.globals.parsedone = s.globals.parsedone ∧ t.Loaded S := by
  have hconcur := script.run_concur (T := T) (Similar.refl h) id
  rw [ht] at hconcur
  exact ⟨hconcur.2.left, hconcur.2.loaded⟩

/-- While spec files are parsed `get-define` is not refused. -/
theorem Tcl.run_unrefused {script : Tcl} {e : Fault} (h : s.Loaded S)
    (hp : s.globals.parsedone = false) (he : script.run S T s = .error e) : ¬e.Refused := by
  have hconcur := script.run_concur (T := T) (Similar.refl h) id
  rw [he, hp] at hconcur
  rcases hconcur with ⟨-, hq⟩ | ⟨-, himp⟩
  · cases hq
  · exact fun hrefused => absurd (himp hrefused) (by decide)

theorem Builds.kept {t : Interp} (h : s.Loaded S) (ht : Builds S T s t) : t.Loaded S := by
  induction ht with
  | refl => exact h
  | tail _ hstep ih =>
    obtain ⟨script, skip, hrun⟩ := hstep
    exact (Tcl.run_kept ih hrun).2

theorem loadDescription_kept {n : Nat} {t : Interp} (h : s.Loaded S)
    (ht : loadDescription S T n s = .ok t) :
    t.globals.parsedone = s.globals.parsedone ∧ t.Loaded S := by
  have hconcur := loadDescription_concur (T := T) n (Similar.refl h) id
  rw [ht] at hconcur
  exact ⟨hconcur.left, hconcur.loaded⟩

theorem except_bind_ok {ε α β : Type} {x : Except ε α} {f : α → Except ε β} {b : β}
    (h : (x >>= f) = .ok b) : ∃ a, x = .ok a ∧ f a = .ok b := by
  cases x with
  | ok a => exact ⟨a, rfl, h⟩
  | error e => cases h

/-- Before the project is parsed, the build phase has not begun. -/
theorem initialise_kept (h : initialise S T = .ok s) :
    s.globals.parsedone = false ∧ s.Loaded S := by
  obtain ⟨⟨skip, t⟩, ht, h⟩ := except_bind_ok h
  dsimp only at h
  split at h
  · cases h
  · obtain ⟨⟨skip', u⟩, hu, h⟩ := except_bind_ok h
    cases h
    have hboot : S.boot.Loaded S := S.loaded
    obtain ⟨hp, ht⟩ := Tcl.run_kept hboot ht
    obtain ⟨hp', hu⟩ := Tcl.run_kept ht hu
    exact ⟨hp'.trans hp, hu⟩

theorem startProcess_kept {n : Nat} (h : startProcess S T n = .ok s) :
    s.globals.parsedone = true ∧ s.Loaded S := by
  obtain ⟨t, ht, h⟩ := except_bind_ok h
  obtain ⟨u, hu, h⟩ := except_bind_ok h
  cases h
  exact ⟨rfl, (loadDescription_kept (initialise_kept ht).2 hu).2⟩

theorem restart_kept {n : Nat} {rulebase : Rulebase} {saved : Globals} {t : Interp}
    (h : s.Loaded S) (ht : restart S T n rulebase saved s = .ok t) :
    t.globals.parsedone = saved.parsedone ∧ t.Loaded S := by
  obtain ⟨⟨skip, u⟩, hu, ht⟩ := except_bind_ok ht
  have hsaved : Interp.Loaded S { s with globals := saved } := h
  obtain ⟨hp, hu⟩ := Tcl.run_kept hsaved hu
  obtain ⟨hp', ht⟩ := loadDescription_kept hu ht
  exact ⟨hp'.trans hp, ht⟩

/-- After a reload the build phase goes on as if it had not begun. -/
theorem GoesOn.parsedone {n k : Nat} {T' : SpecTree} (h : GoesOn S T n k T' s) :
    s.globals.parsedone = decide (k = 0) ∧ s.Loaded S := by
  induction h with
  | start h => exact startProcess_kept h
  | reload _ hb hsaved hu ih =>
    obtain ⟨hp, ht⟩ := restart_kept (Builds.kept ih.2 hb) hu
    refine ⟨?_, ht⟩
    rw [hp, (initialise_kept hsaved).1]
    rfl

/-- The rulebase that the process has read at its start is the one that a new process reads, and
initialising it again changes nothing. -/
structure SameRulebase (S : Setup) (T T' : SpecTree) : Prop where
  rulebase : T'.rulebase = T.rulebase
  initialise : initialise S T' = initialise S T
  again : ∀ saved, Tmake.initialise S T = .ok saved →
    ∃ skip t, T.rulebase.init.run S T' saved = .ok (skip, t) ∧ t.globals.Like saved.globals

theorem Globals.Like.trans {g'' : Globals} (h : g.Like g') (h' : g'.Like g'') : g.Like g'' :=
  ⟨h.vars.trans h'.vars, h.tables.trans h'.tables, h.located.trans h'.located⟩

/-- A reload parses the project as a new process does. -/
theorem restart_concur {T' : SpecTree} {saved t : Interp} (n : Nat) (hrule : SameRulebase S T T')
    (hsaved : initialise S T = .ok saved) (ht : t.Loaded S) :
    Concur false false (Similar S false false) (restart S T' n T.rulebase saved.globals t)
      (loadDescription S T' n saved) := by
  obtain ⟨hparse, hloaded⟩ := initialise_kept hsaved
  obtain ⟨skip, u, hu, hlike⟩ := hrule.again saved hsaved
  have hT : { T' with rulebase := T.rulebase } = T' := by
    rw [← hrule.rulebase]
  have hsim : Similar S false false { t with globals := saved.globals } saved :=
    ⟨.refl _, hparse, hparse, ht, hloaded⟩
  have hinit := T.rulebase.init.run_concur (T := T') hsim id
  rw [hu] at hinit
  unfold restart
  rw [hT]
  show Concur false false _ (T.rulebase.init.run S T' { t with globals := saved.globals } >>=
    fun x => loadDescription S T' n x.2) _
  -- both start from what was saved, initialised once more on the side of the reload
  cases hrun : T.rulebase.init.run S T' { t with globals := saved.globals } with
  | error e =>
    rw [hrun] at hinit
    exact hinit.elim
  | ok x =>
    rw [hrun] at hinit
    refine loadDescription_concur n ?_ id
    exact ⟨hinit.2.like.trans hlike, hinit.2.left, hparse, hinit.2.loaded, hloaded⟩

/-- What goes on after a reload differs from a new process at most in `tmake(parsedone)`. -/
theorem GoesOn.like {n k : Nat} {T' : SpecTree} (h : GoesOn S T n k T' s)
    (hrule : SameRulebase S T T') : ∃ f, Tmake.startProcess S T' n = .ok f ∧ s.globals.Like f.globals := by
  cases h with
  | start h => exact ⟨s, h, .refl _⟩
  | reload h hb hsaved hu =>
    have hconcur := restart_concur n hrule hsaved (Builds.kept h.parsedone.2 hb)
    rw [hu] at hconcur
    obtain ⟨f, hf, hsim⟩ := hconcur.ok fun e he => absurd he.2 (by decide)
    refine ⟨{ f with globals := { f.globals with parsedone := true } }, ?_, ?_⟩
    · unfold Tmake.startProcess
      rw [hrule.initialise, hsaved]
      show (loadDescription S T' n _ >>= _) = _
      rw [hf]
      rfl
    · exact ⟨hsim.like.vars, hsim.like.tables, hsim.like.located⟩

/-- The same state, with the flags that guard the build phase. -/
structure Interp.Same (s f : Interp) : Prop where
  like : s.globals.Like f.globals
  parsedone : s.globals.parsedone = f.globals.parsedone

variable (S T) in
/-- The script succeeds. -/
def Tcl.succeeds (script : Tcl) (s : Interp) : Bool :=
  match script.run S T s with
  | .ok _ => true
  | .error _ => false

variable (S T) in
/-- In both states the script ends in the same way, and leaves the same behind. -/
def Tcl.EndsAlike (script : Tcl) (s f : Interp) : Prop :=
  Alike (fun _ => False) (fun _ => True)
    (fun x y : Bool × Interp => x.1 = y.1 ∧ x.2.globals.Like y.2.globals)
    (script.run S T s) (script.run S T f)

theorem Tcl.EndsAlike.refl (script : Tcl) (s : Interp) : script.EndsAlike S T s s := by
  unfold EndsAlike
  cases script.run S T s with
  | ok x => exact .pure ⟨rfl, .refl _⟩
  | error e => exact .fail trivial

/-- After a reload a script ends as in a new process unless it is refused a `get-define` there. -/
theorem Tcl.endsAlike_iff {f : Interp} (script : Tcl) (h : Similar S false true s f) :
    script.EndsAlike S T s f ↔ ∀ e, script.run S T f = .error e → ¬e.Refused := by
  have hconcur := script.run_concur (T := T) h (by decide)
  constructor
  · intro halike e he hrefused
    unfold EndsAlike at halike
    rw [he] at halike
    cases hs : script.run S T s with
    | ok x =>
      rw [hs] at halike
      exact halike
    | error e' =>
      rw [hs] at halike
      obtain rfl : e' = e := halike.elim False.elim And.left
      exact Tcl.run_unrefused h.loaded h.left hs hrefused
  · intro hfree
    unfold EndsAlike
    cases hf : script.run S T f with
    | ok y =>
      rw [hf] at hconcur
      cases hs : script.run S T s with
      | ok x =>
        rw [hs] at hconcur
        exact ⟨hconcur.1, hconcur.2.like⟩
      | error e =>
        rw [hs] at hconcur
        exact hconcur
    | error e =>
      rw [hf] at hconcur
      cases hs : script.run S T s with
      | ok x =>
        rw [hs] at hconcur
        exact absurd hconcur.1 (hfree e hf)
      | error e' =>
        rw [hs] at hconcur
        rcases hconcur with ⟨hrefused, -⟩ | ⟨he, -⟩
        · exact absurd hrefused (hfree e hf)
        · exact .inr ⟨he, trivial⟩

variable (S T) in
/-- **Reload and restart.**  The state in which the build phase goes on is that of a new process
that parses the same files, with the same scripts succeeding, exactly if there was no reload.
Apart from `tmake(parsedone)` it is, if the rulebase is the same and can be initialised again: a
script ends as in a new process exactly if there was no reload or it is not refused a
`get-define`. -/
theorem reload_equals_restart {n k : Nat} {T' : SpecTree} {f : Interp}
    (hs : GoesOn S T n k T' s) (hf : startProcess S T' n = .ok f) :
    ((s.Same f ∧ ∀ script : Tcl, script.succeeds S T' s = script.succeeds S T' f) ↔ k = 0) ∧
    (SameRulebase S T T' → s.globals.Like f.globals ∧ ∀ script : Tcl,
      (script.EndsAlike S T' s f ↔
        k = 0 ∨ ∀ e, script.run S T' f = .error e → ¬e.Refused)) := by
  have hsame : k = 0 → s = f := by
    rintro rfl
    cases hs with
    | start h => exact Except.ok.inj (h.symm.trans hf)
  obtain ⟨hp, hloaded⟩ := hs.parsedone
  obtain ⟨hq, hloaded'⟩ := startProcess_kept hf
  refine ⟨⟨fun h => ?_, fun hk => ?_⟩, fun hrule => ?_⟩
  · have hdone := h.1.parsedone
    rw [hp, hq] at hdone
    exact of_decide_eq_true hdone
  · obtain rfl := hsame hk
    exact ⟨⟨.refl _, rfl⟩, fun _ => rfl⟩
  · obtain ⟨f', hf', hlike⟩ := hs.like hrule
    obtain rfl : f = f' := Except.ok.inj (hf.symm.trans hf')
    refine ⟨hlike, fun script => ?_⟩
    by_cases hk : k = 0
    · obtain rfl := hsame hk
      exact iff_of_true (.refl _ _) (.inl hk)
    · rw [or_iff_right hk]
      refine script.endsAlike_iff ⟨hlike, ?_, hq, hloaded, hloaded'⟩
      rw [hp]
      exact decide_eq_false hk

end

/-! ## The default rulebase -/

/-- A script that only defines variables. -/
def Tcl.ofCommands (cs : List Command) : Tcl := cs.foldr .define (.done false)

/-- The procedure `rulebase-init` of `rulebase.default`, apart from its own global variable. -/
def rulebaseInit (iswin : Bool) : List Command :=
  [⟨.define?, "CCACHE", [""]⟩, ⟨.define?, "CC", ["gcc"]⟩, ⟨.define?, "CXX", ["g++"]⟩,
    ⟨.define?, "AR", ["ar"]⟩, ⟨.define?, "RANLIB", ["ranlib"]⟩, ⟨.define?, "STRIP", ["strip"]⟩,
    ⟨.define?, "STRIPFLAGS", [""]⟩, ⟨.define?, "STRIPLIBFLAGS", [""]⟩,
    ⟨.define?, "ARFLAGS", ["cr"]⟩, ⟨.define?, "CPPFLAGS", [""]⟩, ⟨.define?, "CFLAGS", [""]⟩,
    ⟨.define?, "CXXFLAGS", [""]⟩, ⟨.define?, "LDFLAGS", [""]⟩,
    ⟨.define?, "EXEEXT", [if iswin then ".exe" else ""]⟩,
    ⟨.define?, "SH_CFLAGS", [""]⟩, ⟨.define?, "SH_LDFLAGS", [""]⟩,
    ⟨.define?, "SH_LINKFLAGS", [""]⟩, ⟨.define?, "SH_SOEXT", [".so"]⟩,
    ⟨.define?, "SHOBJ_CFLAGS", [""]⟩, ⟨.define?, "SHOBJ_LDFLAGS", [""]⟩,
    ⟨.define?, "LD_LIBRARY_PATH", [""]⟩, ⟨.define?, "CC_FOR_BUILD", ["gcc"]⟩,
    ⟨.define?, "HOST_CFLAGS", [""]⟩, ⟨.define?, "HOST_EXEEXT", [if iswin then ".exe" else ""]⟩,
    ⟨.define?, "LEX", ["flex"]⟩, ⟨.define?, "LFLAGS", [""]⟩, ⟨.define?, "YACC", ["bison"]⟩,
    ⟨.define?, "YFLAGS", ["-y"]⟩, ⟨.define?, "LOCAL_LIBS", [""]⟩, ⟨.define?, "DESTDIR", [""]⟩,
    ⟨.define?, "OBJCFLAGS", [""]⟩, ⟨.define?, "INCPATHS", [""]⟩,
    ⟨.define?, "CHDRPATTERN", ["^[\\t ]*#[\\t ]*include[\\t ]*[<\\\"]([^\\\">]*)[\\\">]"]⟩,
    ⟨.define?, "CONFIGURE_ENV", [""]⟩, ⟨.define, "C_FLAGS", [""]⟩, ⟨.define, "CXX_FLAGS", [""]⟩,
    ⟨.define, "LD_FLAGS", [""]⟩, ⟨.define, "PUBLISH", ["publish"]⟩, ⟨.define, "PROJLIBS", [""]⟩,
    ⟨.define, "SYSLIBS", [""]⟩, ⟨.define, "HOST_SYSLIBS", [""]⟩,
    ⟨.define, "PRECOMPILED_HEADER", [""]⟩]

/-- A command that gives a default. -/
def Command.IsDefault (c : Command) : Prop := c.verb = .define ∨ c.verb = .define?

/-- The value that the command gives. -/
def Command.value (env : String → String) (c : Command) : String :=
  if c.verb = .define? ∧ env c.name ≠ "" then env c.name else defineGetValue c.args

/-- Giving the default changes nothing. -/
def Command.Settled (env : String → String) (c : Command) (v : Parse) : Prop :=
  c.name ∈ v.fixedvars ∨ v.defines.lookup c.name = some ⟨c.value env, c.verb⟩ ∨
    c.verb = .define? ∧ getDefine c.name v ≠ ""

section
variable {env : String → String} {elements : String → List String} {c c' : Command} {v : Parse}

theorem Parse.like_of_lookup {name : String} {d : Define} (h : v.defines.lookup name = some d) :
    Parse.Like { v with defines := v.defines.insert name d } v := by
  refine ⟨fun name' => ?_, fun _ => Iff.rfl, rfl, rfl⟩
  show (v.defines.insert name d).lookup name' = v.defines.lookup name'
  by_cases hname : name' = name
  · rw [hname, AList.lookup_insert, h]
  · rw [AList.lookup_insert_ne hname]

variable (env elements) in
theorem Command.IsDefault.run_cases (h : c.IsDefault) (v : Parse) :
    c.run env elements v = defineVar c.verb c.name (c.value env) false v ∨
      c.verb = .define? ∧ getDefine c.name v ≠ "" ∧ c.run env elements v = v := by
  obtain ⟨verb, name, args⟩ := c
  rcases h with rfl | rfl
  · exact .inl rfl
  · by_cases hempty : getDefine name v = ""
    · refine .inl ?_
      show define? env name args v = _
      unfold define?
      rw [if_pos hempty]
      unfold Command.value
      simp only [true_and]
    · refine .inr ⟨rfl, hempty, ?_⟩
      show define? env name args v = _
      unfold define?
      rw [if_neg hempty]

theorem Command.IsDefault.settled (h : c.IsDefault) (v : Parse) :
    c.Settled env (c.run env elements v) := by
  rcases h.run_cases env elements v with hrun | ⟨hverb, hvalue, hrun⟩
  · rw [hrun]
    by_cases hfixed : c.name ∈ v.fixedvars
    · exact .inl (by rwa [defineVar_fixedvars])
    · refine .inr (.inl ?_)
      rw [defineVar_free _ hfixed, AList.lookup_insert]
  · rw [hrun]
    exact .inr (.inr ⟨hverb, hvalue⟩)

variable (elements) in
theorem Command.Settled.like (h : c.Settled env v) (hc : c.IsDefault) :
    (c.run env elements v).Like v := by
  rcases hc.run_cases env elements v with hrun | ⟨-, -, hrun⟩
  · rcases h with hfixed | hlookup | ⟨hverb, hvalue⟩
    · rw [hrun, defineVar_fixed _ hfixed]
    · rw [hrun]
      unfold defineVar
      split
      · rfl
      · exact Parse.like_of_lookup hlookup
    · obtain ⟨verb, name, args⟩ := c
      obtain rfl : verb = .define? := hverb
      show (define? env name args v).Like v
      unfold define?
      rw [if_neg hvalue]
  · rw [hrun]

/-- Another default leaves it settled. -/
theorem Command.Settled.run (h : c.Settled env v) (hc' : c'.IsDefault) (hne : c.name ≠ c'.name) :
    c.Settled env (c'.run env elements v) := by
  rcases hc'.run_cases env elements v with hrun | ⟨-, -, hrun⟩
  · have hlookup : (c'.run env elements v).defines.lookup c.name = v.defines.lookup c.name := by
      rw [hrun]
      unfold defineVar
      split
      · rfl
      · exact AList.lookup_insert_ne hne
    have hfixed : (c'.run env elements v).fixedvars = v.fixedvars := by
      rw [hrun, defineVar_fixedvars]
    unfold Settled getDefine at *
    rw [hlookup, hfixed]
    exact h
  · rwa [hrun]

theorem Command.Settled.of_like {v' : Parse} (h : c.Settled env v) (hv : v'.Like v) :
    c.Settled env v' := by
  unfold Settled at *
  rwa [hv.fixed, hv.defines, hv.getDefine]

/-- Giving several defaults. -/
def giveDefaults (env : String → String) (elements : String → List String) (cs : List Command)
    (v : Parse) : Parse :=
  cs.foldl (fun v c => c.run env elements v) v

theorem giveDefaults_settled {cs : List Command} (hcs : ∀ c ∈ cs, c.IsDefault) (hc : c.Settled env v)
    (hne : ∀ c' ∈ cs, c.name ≠ c'.name) : c.Settled env (giveDefaults env elements cs v) := by
  induction cs generalizing v with
  | nil => exact hc
  | cons c' cs ih =>
    exact ih (fun d hd => hcs d (List.mem_cons_of_mem _ hd))
      (hc.run (hcs c' List.mem_cons_self) (hne c' List.mem_cons_self))
      fun d hd => hne d (List.mem_cons_of_mem _ hd)

theorem settled_giveDefaults {cs : List Command} (hcs : ∀ c ∈ cs, c.IsDefault)
    (hnames : (cs.map (·.name)).Nodup) : ∀ c ∈ cs, c.Settled env (giveDefaults env elements cs v) := by
  induction cs generalizing v with
  | nil => exact fun _ h => absurd h List.not_mem_nil
  | cons c' cs ih =>
    obtain ⟨hnew, hnames⟩ := List.nodup_cons.mp hnames
    have hrest : ∀ d ∈ cs, d.IsDefault := fun d hd => hcs d (List.mem_cons_of_mem _ hd)
    intro c hc
    rcases List.mem_cons.mp hc with he | hc
    · rw [he]
      show c'.Settled env (giveDefaults env elements cs (c'.run env elements v))
      refine giveDefaults_settled hrest ((hcs c' List.mem_cons_self).settled v) fun d hd he => hnew ?_
      exact List.mem_map.mpr ⟨d, hd, he.symm⟩
    · exact ih hrest hnames c hc

/-- **Defaults can be given again**: nothing changes. -/
theorem giveDefaults_again {cs : List Command} (hcs : ∀ c ∈ cs, c.IsDefault)
    (h : ∀ c ∈ cs, c.Settled env v) : (giveDefaults env elements cs v).Like v := by
  induction cs generalizing v with
  | nil => exact .refl v
  | cons c cs ih =>
    have hlike := (h c List.mem_cons_self).like elements (hcs c List.mem_cons_self)
    refine (ih (fun d hd => hcs d (List.mem_cons_of_mem _ hd)) fun d hd => ?_).trans hlike
    exact (h d (List.mem_cons_of_mem _ hd)).of_like hlike

end

/-- The commands, when the build phase has not begun. -/
theorem Tcl.ofCommands_run {S : Setup} {T : SpecTree} {s : Interp} (cs : List Command)
    (hp : s.globals.parsedone = false) : (Tcl.ofCommands cs).run S T s =
      .ok (false, { s with globals := { s.globals with
        vars := giveDefaults S.env S.elements cs s.globals.vars } }) := by
  induction cs generalizing s with
  | nil => rfl
  | cons c cs ih =>
    have hdefine : s.globals.define S c =
        .ok { s.globals with vars := c.run S.env S.elements s.globals.vars } := by
      unfold Globals.define
      rw [if_neg (by simp [hp])]
    show (s.globals.define S c >>= _) = _
    rw [hdefine]
    exact ih hp

/-- A rulebase that is initialised with defaults can be initialised again. -/
theorem SameRulebase.of_defaults {S : Setup} {T T' : SpecTree} {cs : List Command}
    (hcs : ∀ c ∈ cs, c.IsDefault) (hnames : (cs.map (·.name)).Nodup)
    (hinit : T.rulebase.init = .ofCommands cs) (hrule : T'.rulebase = T.rulebase)
    (hsame : Tmake.initialise S T' = Tmake.initialise S T) : SameRulebase S T T' where
  rulebase := hrule
  initialise := hsame
  again saved hsaved := by
    obtain ⟨hparse, -⟩ := initialise_kept hsaved
    obtain ⟨⟨skip, s⟩, hs, h⟩ := except_bind_ok hsaved
    dsimp only at h
    split at h
    · cases h
    obtain ⟨⟨skip', t⟩, ht, h⟩ := except_bind_ok h
    obtain rfl : t = saved := Except.ok.inj h
    rw [hinit] at ht ⊢
    refine ⟨_, _, Tcl.ofCommands_run cs hparse, ?_, rfl, rfl⟩
    have hboot : S.boot.Loaded S := S.loaded
    have hs' : s.globals.parsedone = false := (Tcl.run_kept hboot hs).1
    rw [Tcl.ofCommands_run cs hs'] at ht
    obtain ⟨-, rfl⟩ := Prod.mk.inj (Except.ok.inj ht)
    exact giveDefaults_again hcs (settled_giveDefaults hcs hnames)

/-- What is saved when the rulebase only gives defaults. -/
theorem initialise_defaults {S : Setup} {T : SpecTree} (cs : List Command)
    (hfile : T.rulebase.file = .done false) (hinit : T.rulebase.init = .ofCommands cs) :
    initialise S T = .ok { S.boot with globals := { S.boot.globals with
      vars := giveDefaults S.env S.elements cs S.options } } := by
  unfold initialise
  rw [hfile, hinit]
  show ((Tcl.ofCommands cs).run S T S.boot >>= fun x => Except.ok x.2) = _
  rw [Tcl.ofCommands_run cs rfl]
  rfl

theorem rulebaseInit_isDefault (iswin : Bool) : ∀ c ∈ rulebaseInit iswin, c.IsDefault := by
  have hverbs : ((rulebaseInit iswin).all fun c => c.verb = .define || c.verb = .define?) = true := by
    cases iswin <;> decide
  intro c hc
  simpa [Command.IsDefault] using List.all_eq_true.mp hverbs c hc

theorem rulebaseInit_nodup (iswin : Bool) : ((rulebaseInit iswin).map (·.name)).Nodup := by
  cases iswin <;> decide +kernel

/-! A project whose compiler is set in a file that tmake builds. -/

def plainSetup : Setup where
  env _ := ""
  elements value := [value]
  hasModule _ := false
  loaded m h := absurd h (AList.notMem_empty m)

/-- `project.spec` loads `settings.conf`, which is perhaps there: `define CC clang`. -/
def loadsSettings (built : Bool) : SpecTree where
  rulebase := { init := .ofCommands (rulebaseInit false) }
  spec path :=
    if path = "project.spec" then
      let load : Tcl := .setting (.addProjectFile "settings.conf" false) (.done false)
      some (if built then .define ⟨.define, "CC", ["clang"]⟩ load else load)
    else none

/-- `-do { puts [get-define CC] }`. -/
def asksCC : Tcl := .getDefine "CC" "" fun _ => .done false

theorem exists_of_isOk {ε α : Type} {x : Except ε α} (h : x.isOk = true) : ∃ a, x = .ok a := by
  cases x with
  | ok a => exact ⟨a, rfl⟩
  | error e => cases h

/-- `settings.conf` is built, and the project parsed again. -/
theorem loadsSettings_reloaded : ∃ s f,
    GoesOn plainSetup (loadsSettings false) 2 1 (loadsSettings true) s ∧
      startProcess plainSetup (loadsSettings true) 2 = .ok f := by
  have hreload : (do
      let saved ← initialise plainSetup (loadsSettings false)
      let s ← startProcess plainSetup (loadsSettings false) 2
      restart plainSetup (loadsSettings true) 2 (loadsSettings false).rulebase saved.globals s :
        Except Fault Interp).isOk = true := by decide +kernel
  have hstart : (startProcess plainSetup (loadsSettings true) 2).isOk = true := by decide +kernel
  obtain ⟨u, hu⟩ := exists_of_isOk hreload
  obtain ⟨saved, hsaved, hu⟩ := except_bind_ok hu
  obtain ⟨s, hs, hu⟩ := except_bind_ok hu
  obtain ⟨f, hf⟩ := exists_of_isOk hstart
  exact ⟨u, f, .reload (.start hs) .refl hsaved hu, hf⟩

/-- After the reload everything is as in a new process, but `get-define` is not refused. -/
theorem reload_equals_restart_settings : ∃ s f,
    startProcess plainSetup (loadsSettings true) 2 = .ok f ∧ s.globals.Like f.globals ∧
      ¬ asksCC.EndsAlike plainSetup (loadsSettings true) s f := by
  obtain ⟨s, f, hs, hf⟩ := loadsSettings_reloaded
  have hrule : SameRulebase plainSetup (loadsSettings false) (loadsSettings true) := by
    refine .of_defaults (rulebaseInit_isDefault false) (rulebaseInit_nodup false) rfl rfl ?_
    rw [initialise_defaults (rulebaseInit false) rfl rfl,
      initialise_defaults (rulebaseInit false) rfl rfl]
  obtain ⟨hlike, hscripts⟩ := (reload_equals_restart plainSetup (loadsSettings false) hs hf).2 hrule
  refine ⟨s, f, hf, hlike, fun halike => ?_⟩
  rcases (hscripts asksCC).mp halike with hk | hfree
  · cases hk
  · refine hfree (.buildPhase "CC") ?_ trivial
    show (f.globals.getDefine "CC" "" >>= _) = _
    unfold Globals.getDefine
    rw [(startProcess_kept hf).1]
    rfl

/-- After the reload `get-define` succeeds; in a new process it is refused. -/
theorem reload_equals_restart_getDefine :
    ¬ ∀ (S : Setup) (T T' : SpecTree) (n k : Nat) (s f : Interp), k ≤ 5 →
      GoesOn S T n k T' s → startProcess S T' n = .ok f →
      s.Same f ∧ ∀ script : Tcl, script.succeeds S T' s = script.succeeds S T' f := by
  intro h
  obtain ⟨s, f, hs, hf⟩ := loadsSettings_reloaded
  have hsame := (h _ _ _ 2 1 s f (by decide) hs hf).2 asksCC
  have hreloaded : asksCC.succeeds plainSetup (loadsSettings true) s = true := by
    unfold Tcl.succeeds asksCC Tcl.run Globals.getDefine
    rw [hs.parsedone.1]
    rfl
  have hnew : asksCC.succeeds plainSetup (loadsSettings true) f = false := by
    unfold Tcl.succeeds asksCC Tcl.run Globals.getDefine
    rw [(startProcess_kept hf).1]
    rfl
  rw [hreloaded, hnew] at hsame
  cases hsame

end Tmake
