import TmakeProof.World

/-! # The dependency engine

`build` and what it calls, procedure by procedure as in the section "Dependency
Engine" of the source.  The recursion of `build` through the dependencies of a
target and through the targets that a scan asks for is bounded by its first
argument (`Stop.fuel` when the bound is hit).
-/
namespace Tmake

variable (d : Desc) (E : Env)

/-! ## Finishing a rule: `target-post-build` -/

/-- Evaluate an `-onerror`, `-finally` or `-msg` script; the result is its return code. -/
def runDo (r : RuleTarget) (part : Part) : M Nat := do
  let w ← get
  let res ← ask fun tick => E.exec tick r part w.fs
  putFiles res.puts
  return res.rc

/-- The loop of `target-post-build` over the targets of a rule that succeeded: a missing one
turns the return code into 3, the others are recorded unless the rule is `-nocache`. -/
def recordTargets (r : Rule) (ruletarget : RuleTarget) : List Name → Nat → M Nat
  | [], rc => return rc
  | f :: fs, rc => do
    let w ← get
    let mtime := fileMtimeIfExists w.fs (d.fileBuild f) r.symlink
    if mtime = 0 then
      buildError d
      recordTargets r ruletarget fs 3
    else
      modifyCache fun c =>
        if r.nocache then c
        else { c with file := c.file.insert f mtime, target := c.target.insert f ruletarget }
      recordTargets r ruletarget fs rc

/-- `subst-do`, which exits when a variable does not exist. -/
def substDoOrExit (vardict : List (String × String)) (scripts : List Script) :
    M (List String) :=
  match substDo d vardict scripts with
  | some cmd => return cmd
  | none => tmakeExit 1 .substFailed

/-- The first half of `target-post-build`: did the rule make its targets? -/
def recordBuilt (info : PreInfo) (ruletarget : RuleTarget) (rc : Nat) : M Nat := do
  let w ← get
  if rc = 0 && !info.rule.phony && !w.cleaning then
    let rc ← recordTargets d info.rule ruletarget ruletarget rc
    let cmd ← substDoOrExit d info.vardict info.rule.doList
    modifyCache fun c => { c with
      cmd := c.cmd.insert ruletarget cmd
      deps := c.deps.insert ruletarget (lsort info.dyndeps)
      writecache := true }
    return rc
  else return rc

/-- On failure the targets are deleted, the hash is reset and `-onerror` runs. -/
def recordFailure (ruletarget : RuleTarget) (rc : Nat) : M Status := do
  emit (.failed ruletarget)
  osCheck E
  putFiles (ruletarget.map fun f => (d.fileBuild f, none))
  modifyCache fun c => { c with
    dephash := c.dephash.insert ruletarget .failed, writecache := true }
  let frc ← runDo E ruletarget .onerror
  buildErrorIf d (frc ≠ 0 || rc = 1)
  return .failed

def countTarget (r : Rule) : M Unit :=
  modify fun w => { w with numtargets := if r.phony then w.numtargets else w.numtargets + 1 }

/-- The `-finally` script; its failure fails the rule. -/
def runFinally (ruletarget : RuleTarget) (status : Status) : M Status := do
  let frc ← runDo E ruletarget .finally
  if frc ≠ 0 then
    buildError d
    return .failed
  else return status

/-- The status that the return code of a `-do` list leads to. -/
def judgeTargets (r : Rule) (ruletarget : RuleTarget) (rc : Nat) : M Status := do
  if rc = 0 then
    countTarget r
    return .built
  else recordFailure d E ruletarget rc

def noteSuccess (ruletarget : RuleTarget) (rc : Nat) : M Unit :=
  if rc = 0 then emit (.succeeded ruletarget) else pure ()

/-- `target-post-build`. -/
def targetPostBuild (ruletarget : RuleTarget) (rc : Nat) : M Unit := do
  let w ← get
  match w.precache ruletarget with
  | none => tclError
  | some info =>
    noteSuccess ruletarget rc
    let rc ← recordBuilt d info ruletarget rc
    let status ← judgeTargets d E info.rule ruletarget rc
    let status ← runFinally d E ruletarget status
    setRuleStatus ruletarget status
    modify fun w => { w with precache := Function.update w.precache ruletarget none }

/-! ## Background jobs -/

/-- A finished job is taken out of `tmake(running)`; its files are there and what it wrote to
its standard error, if captured, is reported. -/
def reapJob (i : Nat) (job : Job) : M Unit := do
  modify fun w => { w with running := w.running.eraseIdx i }
  putFiles job.puts
  buildErrorIf d (d.sepjobio && job.errmsg && !job.ok)

/-- Tell the rule that a job was built for. -/
def notifyJob (job : Job) : M Unit := do
  if job.ok then
    modify fun w =>
      let pending := Function.update w.pending job.notifytarget (w.pending job.notifytarget - 1)
      { w with
        pending
        rulestatus :=
          if pending job.notifytarget = 0 ∧ w.rulestatus job.notifytarget = .waiting then
            Function.update w.rulestatus job.notifytarget .unknown
          else w.rulestatus }
  else
    emit (.notified job.ruletarget job.notifytarget)
    setRuleStatus job.notifytarget .failed
    if d.quickstop then
      let w ← get
      tmakeExit w.exitcode .quickstop
    else pure ()

/-- `wait-for-one-job`.  The environment picks the child that `wait` returns. -/
def waitForOneJob : M Bool := do
  let w ← get
  match w.running with
  | [] => return false
  | first :: jobs => do
    let i ← ask fun tick => E.pick tick % (first :: jobs).length
    let job := ((first :: jobs)[i]?).getD first
    reapJob d i job
    targetPostBuild d E job.ruletarget (if job.ok then 0 else 1)
    notifyJob d job
    return true

/-- `wait-for-job-slots`; the argument bounds the number of jobs that can be waited for. -/
def waitForJobSlots : Nat → M Unit
  | 0 => pure ()
  | n + 1 => do
    let w ← get
    if d.maxjobs ≤ w.running.length then
      let _ ← waitForOneJob d E
      waitForJobSlots n
    else pure ()

/-- What a forked child does with the rest of a `-do` list: return code, whether something
was written to its standard error, the files, and the number of questions asked. -/
def childScripts (r : Rule) : Nat → Nat → List Script → FS →
    Nat × Bool × List (Path × Option Node) × Nat
  | tick, _, [], _ => (0, false, [], tick)
  | tick, i, _ :: scripts, fs =>
    let res := E.exec tick r.target (.script i) fs
    if res.rc ≠ 0 && !(r.nofail && res.rc = 1) then
      (res.rc, res.reported, res.puts, tick + 1)
    else
      let (rc, errmsg, puts, tick) :=
        childScripts r (tick + 1) (i + 1) scripts (fs.putAll res.puts)
      (rc, res.reported || errmsg, res.puts ++ puts, tick)

/-- `add-new-job`. -/
def addNewJob (r : Rule) (notifytarget : RuleTarget) (i : Nat) (scripts : List Script) :
    M Unit := do
  modify fun w =>
    let (rc, errmsg, puts, tick) := childScripts E r w.tick i scripts w.fs
    let job := ⟨r.target, notifytarget, rc = 0, errmsg, puts⟩
    { w with
      tick
      rulestatus := Function.update w.rulestatus r.target .running
      running := w.running ++ [job]
      pending := Function.update w.pending notifytarget (w.pending notifytarget + 1) }
  emit (.forked r.target)

/-- `fork-job-if-required`, when a fork is required. -/
def forkJob (r : Rule) (notifytarget : RuleTarget) (i : Nat) (scripts : List Script) :
    M Unit := do
  let w ← get
  waitForJobSlots d E w.running.length
  addNewJob E r notifytarget i scripts

/-- The rule to notify, if `fork-job-if-required` forks: not at the top level, where
`tmake(sync)` is set, nor for a `-nofork` rule, nor with a single job. -/
def forkNotify (r : Rule) (notifytarget : Option RuleTarget) : Option RuleTarget :=
  if d.maxjobs > 1 && !r.nofork then notifytarget else none

/-- The external commands of a rule, as `run` enters them in `tmakecache(exec)`. -/
def recordCmds (r : RuleTarget) (cmds : List String) : M Unit :=
  modifyCache fun c =>
    let old := ((c.exec.lookup r).getD []).filter fun x => x.1 ∉ cmds
    let new := cmds.map fun cmd => (cmd, E.statCmd cmd)
    if d.checkexternalcmds && !cmds.isEmpty then { c with exec := c.exec.insert r (old ++ new) }
    else c

/-- What the evaluation of a script in this process leaves behind. -/
def applyResult (r : RuleTarget) (res : ScriptResult) : M Unit := do
  recordCmds d E r res.cmds
  putFiles res.puts
  buildErrorIf d res.reported
  modify fun w => { w with
    addtargets := w.addtargets ++ res.addtargets
    resetstatus := w.resetstatus || res.resetstatus }

/-- The loop of `build` over the `-do` list.  `none`: a `run` has forked and this is the
parent; otherwise the return code. -/
def runScripts (r : Rule) (notify : Option RuleTarget) : Nat → List Script → M (Option Nat)
  | _, [] => return some 0
  | i, script :: scripts => do
    let w ← get
    let res ← ask fun tick => E.exec tick r.target (.script i) w.fs
    match (if res.run then notify else none) with
    | some notifytarget =>
      -- `run` looks its command up before it forks
      recordCmds d E r.target (res.cmds.take 1)
      forkJob d E r notifytarget i (script :: scripts)
      return none
    | none =>
      applyResult d E r.target res
      if res.rc ≠ 0 && !(r.nofail && res.rc = 1) then return some res.rc
      else runScripts r notify (i + 1) scripts

/-! ## The checks of `build` -/

/-- `tmake(quickstop)` or a `-fatal` rule, once something has failed. -/
def stopIf (c : Bool) (why : Why) : M Unit := do
  let w ← get
  if c && w.exitcode ≠ 0 then tmakeExit w.exitcode why else pure ()

/-- 2. Have the dynamic dependencies changed? -/
def checkDyndeps (r : Rule) (dyndeps : List Name) (w : World) (status : Status) : Status :=
  if status = .uptodate && !r.phony && !r.doList.isEmpty then
    match w.cache.deps.lookup r.target with
    | none => if r.depends.isEmpty then status else .built
    | some olddeps => if lsort dyndeps ≠ olddeps then .built else status
  else status

/-- 3. Compare the dependencies with their saved hash, or save their hash now if the target
is to be built for another reason. -/
def checkHash (r : Rule) (depends : List Name) (status : Status) : M Status := do
  if status = .uptodate && (!depends.isEmpty || d.usehashes) then
    if ← needbuild d E r.target depends then return .built else return status
  else if !r.phony && (status = .built || status = .uptodate) then
    let calchash ← calcDeplistHash d E depends
    modifyCache fun c => { c with
      dephash := c.dephash.insert r.target (.list calchash), writecache := true }
    return status
  else return status

/-- Was the requested target built by another rule? -/
def checkOwner (r : Rule) (target : Name) (w : World) (status : Status) : Status :=
  if status = .uptodate && !r.doList.isEmpty then
    match w.cache.target.lookup target with
    | some owner => if r.target ≠ owner then .built else status
    | none => status
  else status

/-- 4. Compare the substituted `-do` list with the cached one. -/
def checkCommands (r : Rule) (vardict : List (String × String)) (status : Status) :
    M Status := do
  if status = .uptodate && !r.doList.isEmpty then
    let w ← get
    match w.cache.cmd.lookup r.target with
    | none => return .built
    | some prevdo =>
      let cmd ← substDoOrExit d vardict r.doList
      return if cmd ≠ prevdo then .built else status
  else return status

/-- 5. Have the external commands changed, or is the build forced? -/
def checkExec (r : Rule) (w : World) (status : Status) : Status :=
  if status = .uptodate && d.checkexternalcmds
      && ((w.cache.exec.lookup r.target).getD []).any (fun x => E.statCmd x.1 ≠ x.2) then .built
  else if status = .uptodate && d.force && !w.ignoreforce then .built
  else status

/-! ## Running a rule -/

/-- The foreground end of a `-do` list, once its scripts have been evaluated here. -/
def endForeground (r : Rule) (rc : Nat) : M Status := do
  checkSignal E
  targetPostBuild d E r.target rc
  return if rc ≠ 0 then .failed else .built

def refuseRoot (r : Rule) : M Unit :=
  if !r.rootok && d.isroot then buildFatalError d .rootRefused else pure ()

/-- The `-msg` script of a rule. -/
def runMsg (r : RuleTarget) : M Nat := do
  emit (.msg r)
  runDo E r .msg

/-- What precedes the `-do` list of a rule that has to be built. -/
def prepareRule (r : Rule) : M Unit := do
  refuseRoot d r
  modifyCache fun c => if d.checkexternalcmds then { c with exec := c.exec.erase r.target } else c
  let rc ← runMsg E r.target
  buildErrorIf d (rc ≠ 0)

/-- The directories are made and `tmakeprecache` is filled; the `-do` list begins. -/
def beginRule (r : Rule) (target : Name) (vardict : List (String × String))
    (dyndeps : List Name) : M Unit := do
  osCheck E
  modify fun w => { w with
    precache := Function.update w.precache r.target (some ⟨r, target, dyndeps, vardict⟩) }
  emit (.start r.target dyndeps (substDo d vardict r.doList))

/-- Evaluate the `-do` list of a rule, or start it as a background job. -/
def startRule (r : Rule) (target : Name) (notify : Option RuleTarget)
    (vardict : List (String × String)) (dyndeps : List Name) : M Status := do
  beginRule d E r target vardict dyndeps
  let rc ← match (if r.slow then forkNotify d r notify else none) with
    | some notifytarget => (do forkJob d E r notifytarget 0 r.doList; return none)
    | none => runScripts d E r (forkNotify d r notify) 0 r.doList
  match rc with
  | none => return .running
  | some rc => endForeground d E r rc

/-- With `--dry-run` the `-do` list is at most shown. -/
def dryRun (r : Rule) (vardict : List (String × String)) : M Status :=
  if d.norun = 1 then do
    let _ ← substDoOrExit d vardict r.doList
    return .built
  else return .built

/-- The rule has to be built and has a `-do` list. -/
def runRule (r : Rule) (target : Name) (notify : Option RuleTarget)
    (vardict : List (String × String)) (dyndeps : List Name) : M Status := do
  prepareRule d E r
  let status ← if d.norun ≠ 0 then dryRun d r vardict
    else startRule d E r target notify vardict dyndeps
  stopIf (d.quickstop || r.fatal) .fatal
  return status

/-! ## `build` -/

/-- The end of `build`: the status is stored and `tmake(current)` restored. -/
def leave (r : Rule) (target : Name) (dyndeps : List Name) (status : Status) : M Status := do
  modify fun w => { w with
    rulestatus := Function.update w.rulestatus r.target status
    current := w.current.tail }
  emit (.evaluated r.target dyndeps status)
  emit (.returned target status)
  return status

/-- The checks of `build`, from the point where the dependencies are known. -/
def checkRule (r : Rule) (target : Name) (vardict : List (String × String))
    (dyndeps : List Name) (status : Status) : M Status := do
  let w ← get
  stopIf d.quickstop .quickstop
  let status ← checkHash d E r (r.depends ++ dyndeps) (checkDyndeps r dyndeps w status)
  let w ← get
  let status ← checkCommands d r vardict (checkOwner r target w status)
  let w ← get
  return checkExec d E r w status

/-- `build` from the point where the dependencies are known. -/
def finish (r : Rule) (target : Name) (notify : Option RuleTarget) (dyndeps : List Name)
    (status : Status) : M Status := do
  let status ← checkRule d E r target (d.vardict r) dyndeps status
  let status ←
    if status = .built && !r.doList.isEmpty then
      runRule d E r target notify (d.vardict r) dyndeps
    else pure status
  leave r target dyndeps status

/-- The messages and exits of `build-deps` for one dependency. -/
def depFailed (ret : Status) : M Unit := do
  checkSignal E
  if ret = .failed then
    let w ← get
    buildErrorIf d (w.exitcode = 0)
    if d.quickstop then tmakeExit 1 .quickstop else pure ()
  else pure ()

/-- The loop of `build-deps`; the result lists what `build` returned for each dependency. -/
def buildDeps (bld : Name → Option RuleTarget → M Status) (ruletarget : RuleTarget) :
    List Name → M (List (Name × Status))
  | [] => return []
  | dep :: deps => do
    let ret ← bld dep (some ruletarget)
    depFailed d E ret
    let rets ← buildDeps bld ruletarget deps
    return (dep, ret) :: rets

/-- The verdict of `build-deps`. -/
def depsStatus (phony : Bool) (rets : List (Name × Status)) (status : Status) : Status :=
  let count := rets.map (·.2)
  if .running ∈ count ∨ .waiting ∈ count then .waiting
  else if .failed ∈ count then .failed
  else if !phony && d.norun ≠ 0 && .built ∈ count then .built
  else status

/-- A target that was looked up could not be built. -/
def lookupFailed : M Unit := if d.quickstop then tmakeExit 1 .quickstop else buildError d

/-- `find-all-files-on-path` on one name: is there such a file, or a target that could be
built? -/
def lookupFile (sync : Name → M Status) (f : Name) : M Bool := do
  if d.isTarget f then
    let status ← sync f
    if status = .built || status = .uptodate then
      let w ← get
      return w.fs.exists? (d.fileBuild f)
    else
      lookupFailed d
      return false
  else
    let w ← get
    return w.fs.exists? f

/-- Run a scan; `sync` is `build-sync`. -/
def runScan (sync : Name → M Status) : Scan → M (List Name)
  | .done => return []
  | .peek k => do
    let w ← get
    runScan sync (k w.fs)
  | .lookup f keep k => do
    let found ← lookupFile d sync f
    let w ← get
    let rest ← runScan sync (k found)
    return if found && keep w.fs then f :: rest else rest

/-- The loop of `calc-dyndeps` over the inputs. -/
def scanInputs (sync : Name → M Status) (dyndep : Name → Dyndep) : List Name → M (List Name)
  | [] => return []
  | i :: inputs => do
    let found ← runScan d sync (dyndep i).scan
    let rest ← scanInputs sync dyndep inputs
    return (dyndep i).named ++ found ++ rest

/-- `calc-dyndeps`. -/
def calcDyndeps (sync : Name → M Status) (r : Rule) : M (List Name) :=
  match r.dyndep with
  | none => return []
  | some dyndep => scanInputs d sync dyndep r.inputs

/-- `build` for a name that is not a target. -/
def buildSource (target : Name) : M Status := do
  let w ← get
  match w.targetstatus target with
  | some ret => return ret
  | none =>
    let ret := if w.fs.exists? target then Status.uptodate else .failed
    modify fun w => { w with targetstatus := Function.update w.targetstatus target (some ret) }
    return ret

/-- The status of a rule before its dependencies are looked at. -/
def initialStatus (r : Rule) (fs : FS) : Status :=
  if r.phony || !fileExistsAll d fs r then .built else .uptodate

/-- The start of `build`: the rule is marked so that a recursive definition is noticed. -/
def enter (r : Rule) (target : Name) : M Unit :=
  modify fun w => { w with
    rulestatus := Function.update w.rulestatus r.target .checking
    current := target :: w.current }

/-- `build` for a rule that is not settled yet; `bld` and `sync` are the recursive calls. -/
def buildRule (bld : Name → Option RuleTarget → M Status) (sync : Name → M Status)
    (r : Rule) (target : Name) (notify : Option RuleTarget) : M Status := do
  enter r target
  let w ← get
  let status := initialStatus d r w.fs
  let rets ← buildDeps d E bld r.target r.depends
  let status := depsStatus d r.phony rets status
  if status = .uptodate || status = .built then
    let dyndeps ← calcDyndeps d sync r
    let rets ← buildDeps d E bld r.target dyndeps
    finish d E r target notify dyndeps (depsStatus d r.phony rets status)
  else finish d E r target notify [] status

/-- The loop of `build-sync`. -/
def syncLoop (bld : Name → Option RuleTarget → M Status) : Nat → Name → M Status
  | 0, _ => throw .fuel
  | n + 1, target => do
    let status ← bld target none
    if status = .waiting || status = .running then
      let _ ← waitForOneJob d E
      syncLoop bld n target
    else return status

/-- `build`. -/
def build : Nat → Name → Option RuleTarget → M Status
  | 0, _, _ => throw .fuel
  | n + 1, target, notify => do
    match d.ruleFor target with
    | none => buildSource target
    | some r =>
      let w ← get
      match w.rulestatus r.target with
      | .checking => buildFatalError d .recursive
      | .unknown | .waiting =>
        buildRule d E (build n) (syncLoop d E (build n) n) r target notify
      | status =>
        emit (.returned target status)
        return status

/-- `build-sync`. -/
def buildSync (n : Nat) (target : Name) : M Status := syncLoop d E (build d E n) n target

/-- `wait-for-background-jobs` in `tmake-exit`: a stop while a job is finished ends that job
only. -/
def drain : Nat → World → World
  | 0, w => w
  | n + 1, w => if w.running = [] then w else drain n (Weakest.final (waitForOneJob d E) w)

/-- What `tmake-exit` does last: all jobs are waited for. -/
def atExit (w : World) : World := drain d E w.running.length w

/-! ## Runs -/

/-- The state in which building begins: nothing is known but the cache and the file tree. -/
def World.fresh (c : Core) : World :=
  { cache := c.cache, fs := c.fs, tick := c.tick, cleaning := c.cleaning,
    ignoreforce := c.ignoreforce }

/-- The requested targets, one after the other. -/
def buildAll (n : Nat) : List Name → M Unit
  | [] => pure ()
  | t :: ts => do
    let _ ← buildSync d E n t
    buildAll n ts

end Tmake
