import Mathlib.Data.List.Sort
import TmakeProof.Description
import TmakeProof.Weakest

/-! # The state of a run and its environment

`World` is the part of `tmake(...)` and `tmakecache(...)` that changes while
targets are built, together with the file tree.  What tmake does not decide —
what a script does when it is evaluated, which child exits first, when a signal
arrives — is asked of an `Env`, each question with a new number, so that the
answers are arbitrary.

The fields `trace` and `past` of `World` are not part of the program: they record
the moments that the properties of this development speak about, each with the
state at that moment, newest first; `trace` holds those since the rule statuses
were last reset and `past` the ones before.  No function reads them.
-/
namespace Tmake

inductive Status where
  | unknown | checking | waiting | running | uptodate | built | failed
  deriving DecidableEq, Repr

/-- What `calc-file-hash` returns: a time, `md5:...` or `link:...`. -/
inductive Stamp where
  | mtime (t : Int)
  | md5 (digest : String)
  | link (text : String)
  deriving DecidableEq, Repr

/-- An entry of `tmakecache(dephash)`. -/
inductive DepHash where
  | failed
  | list (l : List (Name × Stamp))
  deriving DecidableEq, Repr

/-- `tmakecache`.  The entries of the include scanner and of `--warnings` are texts here: the
engine does not read them. -/
structure Cache where
  file : Dict Name Int := ∅
  cmd : Dict RuleTarget (List String) := ∅
  deps : Dict RuleTarget (List Name) := ∅
  target : Dict Name RuleTarget := ∅
  exec : Dict RuleTarget (List (String × String)) := ∅
  srchash : Dict Path (Int × String) := ∅
  dephash : Dict RuleTarget DepHash := ∅
  warnings : Dict RuleTarget String := ∅
  headerscan : Dict Name String := ∅
  writecache : Bool := false

/-- What a background job will have done when it is reaped. -/
structure Job where
  ruletarget : RuleTarget
  notifytarget : RuleTarget
  ok : Bool
  /-- Something was written to its captured standard error. -/
  errmsg : Bool
  puts : List (Path × Option Node)

/-- `tmakeprecache`: what `target-post-build` needs to know of a rule that is being built. -/
structure PreInfo where
  rule : Rule
  target : Name
  dyndeps : List Name
  vardict : List (String × String)

structure Core where
  rulestatus : RuleTarget → Status := fun _ => .unknown
  targetstatus : Name → Option Status := fun _ => none
  /-- `tmake(current)`, innermost target first. -/
  current : List Name := []
  /-- `tmake(running)`, without the process ids. -/
  running : List Job := []
  pending : RuleTarget → Int := fun _ => 0
  precache : RuleTarget → Option PreInfo := fun _ => none
  exitcode : Nat := 0
  numtargets : Nat := 0
  cleaning : Bool := false
  ignoreforce : Bool := false
  resetstatus : Bool := false
  addtargets : List Name := []
  cache : Cache := {}
  fs : FS
  /-- How many questions the environment has answered. -/
  tick : Nat := 0

/-- What a moment of a run is remembered for. -/
inductive Event where
  /-- The `-do` list of a rule begins, with these dynamic dependencies and this text. -/
  | start (r : RuleTarget) (dyndeps : List Name) (cmd : Option (List String))
  | forked (r : RuleTarget)
  /-- The `-msg` script of a rule is evaluated. -/
  | msg (r : RuleTarget)
  /-- `target-post-build` was told that the `-do` list ended without failure. -/
  | succeeded (r : RuleTarget)
  /-- `target-post-build` treats the rule as failed. -/
  | failed (r : RuleTarget)
  /-- A background job of the first rule failed; the second is notified. -/
  | notified (r n : RuleTarget)
  /-- `build` has evaluated the rule, with these dynamic dependencies. -/
  | evaluated (r : RuleTarget) (dyndeps : List Name) (st : Status)
  | returned (t : Name) (st : Status)
  /-- The `Load` files of the description are built, one after the other. -/
  | loads (d : Desc)
  /-- A `Load` file has been built, or not. -/
  | loaded (t : Name) (st : Status)
  | reloaded
  /-- These files are orphans and are about to be deleted. -/
  | orphans (l : List Path)
  /-- A requested target is built; one that cleans is built at once, without `Load` files. -/
  | request (t : Name) (clean : Bool)
  | stopped

structure Moment where
  event : Event
  core : Core

structure World extends Core where
  trace : List Moment := []
  past : List Moment := []

/-- Everything that is remembered of a run, newest first. -/
def World.history (w : World) : List Moment := w.trace ++ w.past

/-- Why tmake exits before its targets are done. -/
inductive Why where
  | recursive | rootRefused | substFailed | cancelled | quickstop | fatal
  | loadFailed | loadUnstable
  deriving DecidableEq, Repr

/-- The ways in which a call does not return: `tmake-exit`, an uncaught Tcl error, or the
bound on the depth of this model's recursion. -/
inductive Stop where
  | exit (code : Nat) (why : Why)
  | error
  | fuel
  deriving DecidableEq, Repr

/-- The scripts of a rule that the engine evaluates. -/
inductive Part where
  | script (i : Nat)
  | onerror
  | finally
  | msg
  deriving DecidableEq, Repr

/-- What the evaluation of a script does. -/
structure ScriptResult where
  /-- The evaluation reaches a `run` command. -/
  run : Bool := false
  /-- The return code of the script: 0, 1 for a Tcl error, 3 for the `break` of a failed `run`. -/
  rc : Nat := 0
  /-- A failed `run` has reported the message of its command with `build-error`. -/
  reported : Bool := false
  puts : List (Path × Option Node) := []
  /-- The commands run that are looked up in `PATH`, in order. -/
  cmds : List String := []
  addtargets : List Name := []
  resetstatus : Bool := false

structure Env where
  exec : Nat → RuleTarget → Part → FS → ScriptResult
  /-- Which of the running jobs `wait` returns. -/
  pick : Nat → Nat
  signal : Nat → Bool := fun _ => false
  /-- The system refuses to make, enter or delete a file. -/
  osError : Nat → Bool := fun _ => false
  /-- `stat-cmd-in-path`. -/
  statCmd : String → String := fun _ => "-,0,0"
  md5 : String → String := id

/-- The monad of the engine. -/
abbrev M := EStateM Stop World

/-! ## Small operations -/

/-- Put one question to the environment. -/
def ask {α : Type} (question : Nat → α) : M α :=
  modifyGet fun w => (question w.tick, { w with tick := w.tick + 1 })

def emit (e : Event) : M Unit :=
  modify fun w => { w with trace := ⟨e, w.toCore⟩ :: w.trace }

def setRuleStatus (r : RuleTarget) (st : Status) : M Unit :=
  modify fun w => { w with rulestatus := Function.update w.rulestatus r st }

def modifyCache (f : Cache → Cache) : M Unit :=
  modify fun w => { w with cache := f w.cache }

def putFiles (puts : List (Path × Option Node)) : M Unit :=
  modify fun w => { w with fs := w.fs.putAll puts }

/-- `build-error`: under `--configure` the exit code stays. -/
def buildError (d : Desc) : M Unit :=
  modify fun w => { w with exitcode := if d.configure then w.exitcode else 1 }

def buildErrorIf (d : Desc) (c : Bool) : M Unit := if c then buildError d else pure ()

/-- `tmake-exit`.  Waiting for the background jobs and writing the cache, which it does next,
is left to `atExit`: nothing else happens in between. -/
def tmakeExit {α : Type} (code : Nat) (why : Why) : M α := do
  emit .stopped
  throw (.exit code why)

def buildFatalError {α : Type} (d : Desc) (why : Why) : M α := do
  buildError d
  tmakeExit 1 why

/-- An uncaught Tcl error. -/
def tclError {α : Type} : M α := do
  emit .stopped
  throw .error

/-- `check-signal`, after which tmake gives up. -/
def checkSignal (E : Env) : M Unit := do
  if ← ask E.signal then tmakeExit 2 .cancelled else pure ()

/-- A file operation that the system can refuse. -/
def osCheck (E : Env) : M Unit := do
  if ← ask E.osError then tclError else pure ()

/-- `file-mtime-if-exists`: 0 if the file, or with `symlink` the link, does not exist. -/
def fileMtimeIfExists (fs : FS) (file : Path) (symlink : Bool) : Int :=
  if symlink then
    match fs file with
    | some (.link _ lmtime _) => lmtime
    | _ => 0
  else
    match fs.stat file with
    | some (mtime, _) => mtime
    | none => 0

/-- `file-exists-all` on the targets of a rule. -/
def fileExistsAll (d : Desc) (fs : FS) (r : Rule) : Bool :=
  (d.files r).all fun f => fileMtimeIfExists fs f r.symlink ≠ 0

/-! ## Hashes -/

/-- `get-file-hash`. -/
def getFileHash (d : Desc) (E : Env) (file : Path) (usehashes : Bool) : M Stamp := do
  let w ← get
  match w.fs.stat file with
  | none => tclError
  | some (mtime, content) =>
    if !d.usehashes && !usehashes then return .mtime mtime
    else
      match w.cache.srchash.lookup file with
      | some (cachedmtime, cachedhash) =>
        if mtime = cachedmtime then return .md5 cachedhash
        else
          modifyCache fun c => { c with
            srchash := c.srchash.insert file (mtime, E.md5 content), writecache := true }
          return .md5 (E.md5 content)
      | none =>
        modifyCache fun c => { c with
          srchash := c.srchash.insert file (mtime, E.md5 content), writecache := true }
        return .md5 (E.md5 content)

/-- `calc-file-hash`. -/
def calcFileHash (d : Desc) (E : Env) (file : Name) : M Stamp := do
  match d.ruleFor file with
  | some r =>
    let realfile := d.fileBuild (d.mapAlias file)
    let w ← get
    match w.fs realfile with
    | some (.link text _ _) => return .link text
    | some (.file mtime _) =>
      if r.hash then getFileHash d E realfile true else return .mtime mtime
    | none => if d.norun ≠ 0 then return .mtime 0 else tclError
  | none => getFileHash d E file false

/-- The loop of `calc-deplist-hash` over a sorted list. -/
def calcHashes (d : Desc) (E : Env) : List Name → M (List (Name × Stamp))
  | [] => return []
  | dep :: deps => do
    let stamp ← calcFileHash d E dep
    let rest ← calcHashes d E deps
    return (dep, stamp) :: rest

/-- `lsort`. -/
def lsort (l : List Name) : List Name := l.insertionSort (· ≤ ·)

/-- `calc-deplist-hash`. -/
def calcDeplistHash (d : Desc) (E : Env) (list : List Name) : M (List (Name × Stamp)) :=
  calcHashes d E (lsort list)

/-- `needbuild?`. -/
def needbuild (d : Desc) (E : Env) (ruletarget : RuleTarget) (depends : List Name) : M Bool := do
  let w ← get
  let savedhash := (w.cache.dephash.lookup ruletarget).getD (.list [])
  let calchash ← calcDeplistHash d E depends
  if .list calchash = savedhash then return false
  else
    modifyCache fun c => { c with
      dephash := c.dephash.insert ruletarget (.list calchash), writecache := true }
    return true

end Tmake
