import TmakeProof.Restart
import TmakeProof.ReturnCodes

/-! # The loading phase

How the spec files of a project are loaded, with the return codes by which each
piece of spec code may end: the rulebase, `project.spec`, the deferred actions,
and the traversal of the directories with their `build.spec` files and the
`VirtualSubDir` blocks in them.

Spec code is a Tcl program.  Of a program matters here which commands of tmake
it executes, each of which may depend on what the earlier ones have returned, and
how it ends (`Code`).  Commands run one inside the other: `Scope` evaluates a
script where it is called, `VirtualSubDir` and the loaders give theirs a stack
frame of its own (`run-do`), in which the defines are variables.  `n` bounds how
deep calls nest, as the interpreter does; what is nested deeper is an error.

`parse-error` ends tmake here, as it does without `--configure`, and `get-define`
is not refused: `tmake(parsedone)` is not yet set.
-/
namespace Tmake.Loading
open ReturnCodes Weakest

/-- The procedures of the rulebase that `rulebase-invoke` calls. -/
inductive Hook where
  | init | prolog | epilog
  deriving DecidableEq, Repr

/-- A script, by the commands of tmake that it executes. -/
inductive Code where
  /-- The empty string. -/
  | empty
  /-- The script ends normally. -/
  | done
  /-- The script ends with a return code. -/
  | exit (e : Exit)
  | set (name value : String) (rest : Code)
  | unset (name : String) (rest : Code)
  /-- `$name`, if there is such a variable. -/
  | var (name : String) (k : Option String → Code)
  | define (c : Command) (rest : Code)
  | getDefine (name : String) (k : Option String → Code)
  /-- `local-dir` and `local-prefix`. -/
  | localDir (k : Path → String → Code)
  | target (ruletarget : RuleTarget) (args source : List String) (rest : Code)
  /-- The script looks at the rule base, as with `is-target?` or `get-rule`. -/
  | inspect (k : RuleBase → Code)
  | subDirs (dirs : List Path) (rest : Code)
  | autoSubDirs (onoff : Bool) (rest : Code)
  | addDeferredAction (action rest : Code)
  | scope (dir : Path) (script rest : Code)
  | virtualSubDir (dir : Path) (code rest : Code)
  /-- `catch`. -/
  | catching (script : Code) (k : Option Exit → Code)

/-- The code with which a bare `ifconfig` skips the rest of a spec file. -/
def skip : Exit := .custom 20

/-- `ifconfig`, with nothing but a condition that is false. -/
def Code.ifconfig : Code := .exit (.retCode skip)

/-- A piece of spec code that a loader evaluates.  The first call of `process-build-spec-file`
is for the top directory, the others are for its subdirectories. -/
inductive Piece where
  | rulebase
  | project
  | deferred
  | spec (dir : Path) (top : Bool)
  | hook (h : Hook) (top : Bool)
  /-- The code of a `VirtualSubDir`. -/
  | block (dir : Path)
  deriving DecidableEq, Repr

/-- What a run is remembered for. -/
inductive Event where
  | invoked (p : Piece)
  | ended (p : Piece) (rc : Option Exit)
  | listed (dirs : List Path)
  /-- The subdirectories of a directory come next; these were set explicitly. -/
  | subdirs (dir : Path) (explicit : List Path) (auto : Bool)
  deriving DecidableEq, Repr

/-- What the loading phase reads and changes of `tmake(...)`, and the variables of the stack
frames. -/
structure Load where
  vars : Parse := {}
  /-- The variables of stack frame #1, apart from those of the procedure whose frame it is. -/
  frame : Dict String String := ∅
  globals : Dict String String := ∅
  /-- The script runs in stack frame #0. -/
  toplevel : Bool := false
  base : RuleBase := {}
  autosubdirs : Bool := true
  subdirs : List Path := []
  /-- The keys of `tmake(skipsubdirs)`. -/
  skipsubdirs : List Path := []
  deferred : List Code := []
  /-- Newest first.  This is no part of the program. -/
  trace : List Event := []

/-- A project, and what does not change while it is loaded: the environment, how a value is
read as a list, the defines made before, the spec code, and `readdir`. -/
structure Sources where
  env : String → String
  elements : String → List String
  options : Parse := {}
  rulebase : Code := .done
  hooks : Hook → Code := fun _ => .done
  projectSpec : Code := .done
  /-- The `build.spec` of a directory, named as seen from the top. -/
  buildSpec : Path → Option Code
  readdir : Path → List Name := fun _ => []

abbrev M := Eval Load

def Load.note (e : Event) (s : Load) : Load := { s with trace := e :: s.trace }

def Code.isEmpty : Code → Bool
  | empty => true
  | _ => false

/-! ## Scopes and stack frames -/

/-- The first half of `Scope`. -/
def Load.enter (dir : Path) (s : Load) : Load := { s with vars := enterScope dir s.vars }

/-- `tmake-reset-defines`: the defines and nothing else are variables of stack frame #1. -/
def tmakeResetDefines (s : Load) : Load := { s with frame := s.vars.values }

/-- The second half of `Scope`. -/
def Load.leave (dir : Path) (saved s : Load) : Load :=
  tmakeResetDefines { s with vars := leaveScope dir saved.vars s.vars }

/-- `Scope`, as far as its body.  A script that does not end normally leaves it at once. -/
def inScope {α : Type} (dir : Path) (script : M α) : M α := do
  let saved ← get
  set (saved.enter dir)
  let result ← script
  modify (Load.leave dir saved)
  return result

/-- `Scope`.  If it is called in stack frame #0 then frame #1 is its own, and one of the variables
that it unsets is a link to `tmake`, without which nothing goes on. -/
def scope (dir : Path) (script : M Unit) : M Unit := proc do
  let s ← get
  inScope dir script
  if s.toplevel then throw (.quit 1)

/-- `run-do`, without variables of its own: the script sees the defines, in a stack frame #1 of
its own, and is caught. -/
def runDo (script : M Unit) : M (Option Exit) := do
  let outer ← get
  set { outer with frame := outer.vars.values, toplevel := false }
  let rc ← caught script
  modify fun s => { s with frame := outer.frame, toplevel := outer.toplevel }
  return rc

/-- `invoke-spec-file`. -/
def invokeSpecFile (p : Piece) (script : M Unit) : M (Option Exit) := do
  modify (Load.note (.invoked p))
  let rc ← runDo script
  modify (Load.note (.ended p rc))
  return rc

/-- `uplevel #0`. -/
def atToplevel (p : Piece) (script : M Unit) : M Unit := fun s =>
  let back (t : Load) : Load :=
    { t with frame := s.frame, globals := t.frame, toplevel := s.toplevel }
  match script { s with frame := s.globals, toplevel := true } with
  | .ok () t => .ok () ((back t).note (.ended p none))
  | .error e t => .error e ((back t).note (.ended p (some e)))

/-! ## The commands -/

section
variable (P : Sources) (hook : Hook → M Unit)

/-- The command gives its variable a value. -/
def assigns (c : Command) (s : Parse) : Bool :=
  match c.verb with
  | .define! => true
  | .define => c.name ∉ s.fixedvars
  | .define? => Tmake.getDefine c.name s = "" && c.name ∉ s.fixedvars
  | .defineAppend | .defineListAppend => !c.args.isEmpty && c.name ∉ s.fixedvars

/-- The commands that define variables.  The value is visible in stack frame #1; for a command
in frame #0 that is the frame of the command. -/
def Load.define (c : Command) (s : Load) : Load :=
  let vars := c.run P.env P.elements s.vars
  { s with
    vars
    frame :=
      if assigns c s.vars && !s.toplevel then
        s.frame.insert c.name (Tmake.getDefine c.name vars)
      else s.frame }

/-- `target`. -/
def Load.target (ruletarget : RuleTarget) (args source : List String) (s : Load) :
    Option RuleBase :=
  Tmake.target P.elements
    { target := ruletarget, args, source, localDir := s.vars.localdir, defines := s.vars.values }
    s.base

/-- `SubDirs`. -/
def subDirs (dirs : List Path) : M Unit :=
  if dirs.all fun dir => (P.buildSpec dir).isSome then
    modify fun s => { s with subdirs := s.subdirs ++ dirs }.note (.listed dirs)
  else throw (.quit 1)

/-- What `VirtualSubDir` runs in the scope of the directory. -/
def runBlock (dir : Path) (code : M Unit) : M (Option Exit) :=
  inScope dir do
    hook .prolog
    let rc ← invokeSpecFile (.block dir) code
    hook .epilog
    return rc

/-- `VirtualSubDir`.  The return code of `empty` code comes without the options that are looked
at in the end, and in stack frame #0 they are among the variables that the scope unsets. -/
def virtualSubDir (dir : Path) (empty : Bool) (code : M Unit) : M Unit := do
  let s ← get
  let dir := s.vars.localPrefix ++ dir
  if fileDirname dir ∈ s.skipsubdirs then
    modify fun s => { s with skipsubdirs := dir :: s.skipsubdirs }
  else
    let rc ← runBlock hook dir code
    if empty || s.toplevel then throw .error
    else if rc.bind Exit.leaveProc = some skip then
      modify fun s => { s with skipsubdirs := dir :: s.skipsubdirs }

/-- Evaluate a script. -/
def Code.run : Code → M Unit
  | empty => pure ()
  | done => pure ()
  | exit e => throw e
  | set name value rest => do
    modify fun s => { s with frame := s.frame.insert name value }
    rest.run
  | unset name rest => do
    modify fun s => { s with frame := s.frame.erase name }
    rest.run
  | var name k => do
    let s ← get
    (k (s.frame.lookup name)).run
  | define c rest => do
    modify (Load.define P c)
    rest.run
  | getDefine name k => do
    let s ← get
    (k ((s.vars.defines.lookup name).map (·.value))).run
  | localDir k => do
    let s ← get
    (k s.vars.localdir s.vars.localPrefix).run
  | target ruletarget args source rest => do
    let s ← get
    match s.target P ruletarget args source with
    | some base =>
      modify fun s => { s with base }
      rest.run
    | none => throw (.quit 1)
  | inspect k => do
    let s ← get
    (k s.base).run
  | subDirs dirs rest => do
    Loading.subDirs P dirs
    rest.run
  | autoSubDirs onoff rest => do
    modify fun s => { s with autosubdirs := onoff }
    rest.run
  | addDeferredAction action rest => do
    modify fun s => { s with deferred := s.deferred ++ [action] }
    rest.run
  | scope dir script rest => do
    Loading.scope dir script.run
    rest.run
  | virtualSubDir dir code rest => do
    Loading.virtualSubDir hook dir code.isEmpty code.run
    rest.run
  | catching script k => do
    let rc ← caught script.run
    (k rc).run

/-! ## The loaders -/

/-- What a loader makes of a return code: `return` is a normal end. -/
def checkReturn : Option Exit → M Unit
  | none | some .ret | some (.retCode _) => pure ()
  | some e => throw e

/-- The same for a loader to which a skip is a normal end, too. -/
def checkReturnOrSkip (rc : Option Exit) : M Unit :=
  if rc = some skip then pure () else checkReturn rc

/-- `rulebase-invoke`, as a loader calls it. -/
def invokeHook (h : Hook) (top : Bool) : M Unit := fun s =>
  match hook h s with
  | .ok () t => .ok () (t.note (.ended (.hook h top) none))
  | .error e t => .error e (t.note (.ended (.hook h top) (some e)))

/-- Evaluate the `build.spec` of a directory.  There may be none, for the top directory. -/
def invokeBuildSpec (dir : Path) (top : Bool) : Option Code → M (Option Exit)
  | none => return none
  | some code => invokeSpecFile (.spec dir top) (proc (code.run P hook))

/-- What `process-build-spec-file` runs in the scope of the directory. -/
def runBuildSpec (dir : Path) (top : Bool) (script : Option Code) : M (Option Exit) :=
  inScope dir do
    invokeHook hook .prolog top
    let rc ← invokeBuildSpec P hook dir top script
    invokeHook hook .epilog top
    return rc

/-- The directories below `dir` with a `build.spec`; `subdirs` are those set explicitly. -/
def autoDirs (dir : Path) : List Name → List Path → List Path
  | [], subdirs => subdirs
  | d :: ds, subdirs =>
    if (P.buildSpec (fileJoin dir d)).isSome && d ∉ subdirs then
      autoDirs dir ds (subdirs ++ [fileJoin dir d])
    else autoDirs dir ds subdirs

/-- The subdirectories to be processed next; `SubDirs` starts afresh. -/
def takeSubdirs (dir : Path) : M (List Path) := do
  let s ← get
  modify fun s => { s with subdirs := [] }.note (.subdirs dir s.subdirs s.autosubdirs)
  return if s.autosubdirs then autoDirs P dir (P.readdir dir) s.subdirs else s.subdirs

/-- `process-build-spec-file`. -/
def processBuildSpecFile : Nat → Path → Bool → M Unit
  | 0, _, _ => throw .error
  | n + 1, dir, top => do
    let script := P.buildSpec dir
    if script.isNone && !top then throw (.quit 1)
    else
      let rc ← runBuildSpec P hook dir top script
      if rc = some skip then pure ()
      else
        checkReturn rc
        let subdirs ← takeSubdirs P dir
        foreach (fun d => processBuildSpecFile n d false) subdirs

/-- `load-build-description`, apart from the cache. -/
def loadBuildDescription (n : Nat) : M Unit := proc do
  let rc ← invokeSpecFile .project (proc (P.projectSpec.run P hook))
  checkReturnOrSkip rc
  let s ← get
  foreach (fun action => atToplevel .deferred (action.run P hook)) s.deferred
  processBuildSpecFile P hook n "." true
  let s ← get
  if s.base.dependsOnPhony then throw (.quit 1)

/-- `make`, up to the end of the loading phase. -/
def make (n : Nat) : M Unit := do
  let rc ← invokeSpecFile .rulebase (proc (P.rulebase.run P hook))
  checkReturn rc
  hook .init
  loadBuildDescription P hook n

end

/-- `rulebase-invoke`, which calls the procedure of the rulebase in its own place. -/
def Sources.hook (P : Sources) : Nat → Hook → M Unit
  | 0, _ => throw .error
  | n + 1, h => proc (proc ((P.hooks h).run P (P.hook n)))

/-- The state when the options have been read. -/
def Sources.start (P : Sources) : Load := { vars := P.options, frame := P.options.values }

/-- The loading phase. -/
def Sources.load (P : Sources) (n : Nat) : EStateM.Result Exit Load Unit :=
  make P (P.hook n) n P.start

/-- The state in which the loading phase ends. -/
def Sources.loaded (P : Sources) (n : Nat) : Load := final (make P (P.hook n) n) P.start

/-- How tmake goes on after the loading phase. -/
inductive Outcome where
  | exited (status : Nat)
  /-- The build phase begins: orphans are deleted and targets are built. -/
  | building (s : Load)

/-- What the entry point makes of the loading phase. -/
def outcome : EStateM.Result Exit Load Unit → Outcome
  | .ok _ s => .building s
  | .error (.quit status) _ => .exited status
  | .error _ _ => .exited 1

end Tmake.Loading
