import TmakeProof.Structured
import TmakeProof.World

/-! # Clean-up scripts

The `-onerror` and `-finally` scripts of a rule are evaluated by `target-post-build`:
after a rule that was built in the foreground, but also in the midst of
`wait-for-one-job`, which `fork-job-if-required` calls before it forks the job of some
other rule.  A `run` in such a script then consults `tmake(jobpid)`, `tmake(sync)` and
`tmake(currentruletarget)`, which are about the rule started last.

The procedures are those of the main process, which is the one that waits.
-/
namespace Tmake.CleanUp
open Weakest Structured

/-- The command line of a `run`. -/
structure CmdLine where
  cmd : String
  args : List String

/-- A script as `run` sees it: what the built-in commands do between one `run` and the next is
arbitrary, and so is what the script makes of the return code of a `run`. -/
inductive Body (W : Type) where
  | done (code : Code)
  | builtin (f : W → W) (next : W → Body W)
  | run (c : CmdLine) (next : Code → W → Body W)

/-- The part of a rule that this module is about. -/
structure Recipe (W : Type) where
  target : RuleTarget
  doList : List (Body W)
  onerror : Body W := .done .ok
  finallyDo : Body W := .done .ok
  slow : Bool := false
  nofork : Bool := false
  nofail : Bool := false

/-- What tmake is told and what it is answered; `W` is everything outside of its memory. -/
structure Host (W : Type) where
  maxjobs : Nat
  checkexternalcmds : Bool := false
  isfile : String → W → Bool
  /-- `stat-cmd-in-path`. -/
  statCmd : String → W → String
  /-- `exec-save-stderr`: whether the command succeeds. -/
  execute : CmdLine → W → Bool × W
  /-- Which of the running jobs `wait` returns, whether it has succeeded, and what has happened
  in the meantime. -/
  pick : Nat → Nat
  succeeded : Nat → Bool
  meanwhile : Nat → W → W
  /-- The part of `target-post-build` before the scripts: whether the targets have been made,
  and what is deleted if not. -/
  settle : RuleTarget → Bool → W → Bool × W

/-- The variables `tmake(...)` and `tmakecache(exec)` of the main process. -/
structure Globals (W : Type) where
  sync : Int := 1
  jobpid : Int := -1
  currentruletarget : RuleTarget := []
  running : List (Int × RuleTarget) := []
  precache : RuleTarget → Option (Recipe W) := fun _ => none
  exec : RuleTarget → Dict String String := fun _ => ∅
  world : W
  lastpid : Nat := 0
  /-- How often `wait` has returned. -/
  tick : Nat := 0
  /-- Not part of the program: the command lines that this process has executed. -/
  executed : List CmdLine := []

/-- The evaluation of a clean-up script. -/
structure Evaluation (W : Type) where
  ruletarget : RuleTarget
  script : Body W
  before : Globals W
  after : Globals W
  code : Code

/-- The `trace` is not part of the program: it holds the evaluations of clean-up scripts. -/
structure Memory (W : Type) extends Globals W where
  trace : List (Evaluation W) := []

abbrev M (W : Type) := EStateM Stop (Memory W)

section
variable {W : Type} (host : Host W)

/-! ## `run` -/

/-- A command without a slash that is a file in the current directory. -/
def isLocal (c : CmdLine) (g : Globals W) : Bool := '/' ∉ c.cmd.toList && host.isfile c.cmd g.world

/-- The details of the command are entered for the rule started last. -/
def lookUp (c : CmdLine) (g : Globals W) : Globals W :=
  if !isLocal host c g && host.checkexternalcmds then
    let entries := (g.exec g.currentruletarget).insert c.cmd (host.statCmd c.cmd g.world)
    { g with exec := Function.update g.exec g.currentruletarget entries }
  else g

def localLine (c : CmdLine) (g : Globals W) : CmdLine :=
  if isLocal host c g then { c with cmd := "./" ++ c.cmd } else c

/-- The command is executed. -/
def external (line : CmdLine) (g : Globals W) : Code × Globals W :=
  (if (host.execute line g.world).1 then .ok else .brk,
    { g with world := (host.execute line g.world).2, executed := line :: g.executed })

/-- `run`; `fork` is `fork-job-if-required`. -/
def run (fork : M W Int) (c : CmdLine) : M W Code := do
  let m ← get
  let line := localLine host c m.toGlobals
  modify fun m => { m with toGlobals := lookUp host c m.toGlobals }
  if (← fork) > 0 then return .brk
  else modifyGet fun m =>
    ((external host line m.toGlobals).1, { m with toGlobals := (external host line m.toGlobals).2 })

/-- An uncaught error in `run` is one for the script. -/
def catchError (m : M W Code) : M W Code :=
  tryCatch m fun e => if e = .error then return .error else throw e

def runBody (fork : M W Int) : Body W → M W Code
  | .done code => return code
  | .builtin f next => do
    modify fun m => { m with world := f m.world }
    let m ← get
    runBody fork (next m.world)
  | .run c next => do
    let code ← catchError (run host fork c)
    let m ← get
    runBody fork (next code m.world)

/-! ## `target-post-build` -/

/-- `run-do` on a clean-up script. -/
def runDo (fork : M W Int) (r : RuleTarget) (script : Body W) : M W Code := do
  let before ← get
  let code ← runBody host fork script
  modify fun m => { m with
    trace := ⟨r, script, before.toGlobals, m.toGlobals, code⟩ :: m.trace }
  return code

/-- `build-error` with the stack trace of a clean-up script, which there is for an error only. -/
def reportFailure (code : Code) : M W Unit :=
  if code = .ok ∨ code = .error then pure () else throw .error

def runCleanUp (fork : M W Int) (r : RuleTarget) (script : Body W) : M W Unit := do
  let code ← runDo host fork r script
  reportFailure code

/-- `-onerror` is for a rule that has failed. -/
def runOnerror (fork : M W Int) (recipe : Recipe W) (ok : Bool) : M W Unit :=
  if ok then pure () else runCleanUp host fork recipe.target recipe.onerror

/-- `target-post-build`. -/
def targetPostBuild (fork : M W Int) (r : RuleTarget) (ok : Bool) : M W Unit := do
  let m ← get
  match m.precache r with
  | none => throw .error
  | some recipe =>
    let ok ← modifyGet fun m =>
      ((host.settle r ok m.world).1, { m with world := (host.settle r ok m.world).2 })
    runOnerror host fork recipe ok
    runCleanUp host fork recipe.target recipe.finallyDo
    modify fun m => { m with precache := Function.update m.precache r none }

/-! ## Jobs -/

/-- `wait-for-one-job`. -/
def waitForOneJob (fork : M W Int) : M W Unit := do
  let m ← get
  match m.running with
  | [] => pure ()
  | first :: jobs =>
    let i := host.pick m.tick % (first :: jobs).length
    let job := ((first :: jobs)[i]?).getD first
    modify fun m => { m with
      running := m.running.eraseIdx i
      world := host.meanwhile m.tick m.world
      tick := m.tick + 1 }
    targetPostBuild host fork job.2 (host.succeeded m.tick)

/-- `wait-for-job-slots`, with a bound on how often it waits. -/
def waitForJobSlots (fork : M W Int) : Nat → M W Unit
  | 0 => throw .fuel
  | n + 1 => do
    let m ← get
    if m.running.length ≥ host.maxjobs then
      waitForOneJob host fork
      waitForJobSlots fork n
    else pure ()

/-- `add-new-job`. -/
def addNewJob : M W Int :=
  modifyGet fun m => (m.lastpid + 1,
    { m with
      lastpid := m.lastpid + 1
      running := m.running ++ [((m.lastpid + 1 : Int), m.currentruletarget)] })

/-- When `fork-job-if-required` forks. -/
def Required (g : Globals W) : Prop := host.maxjobs > 1 ∧ g.sync = 0 ∧ g.jobpid = -1

instance (g : Globals W) : Decidable (Required host g) :=
  inferInstanceAs (Decidable (host.maxjobs > 1 ∧ g.sync = 0 ∧ g.jobpid = -1))

/-- The body of `fork-job-if-required`. -/
def forkJob (fork : M W Int) (n : Nat) : M W Unit := do
  waitForJobSlots host fork n
  let pid ← addNewJob
  modify fun m => { m with jobpid := pid }

/-- `fork-job-if-required`.  The scripts that are evaluated while it waits may call it again. -/
def forkJobIfRequired : Nat → M W Int
  | 0 => throw .fuel
  | n + 1 => do
    let m ← get
    if Required host m.toGlobals then forkJob host (forkJobIfRequired n) n else pure ()
    let m ← get
    return m.jobpid

/-- The loop of `build` over the `-do` list. -/
def runScripts (fork : M W Int) (recipe : Recipe W) : List (Body W) → M W Bool
  | [] => return true
  | script :: scripts => do
    let code ← runBody host fork script
    let m ← get
    -- a `run` has forked and this is the parent
    if m.jobpid > 0 then return true
    else if code ≠ .ok && !(recipe.nofail && code = .error) then return false
    else runScripts fork recipe scripts

/-- The variables that `build` sets for the rule that it is about to start. -/
def setCurrent (recipe : Recipe W) (notify : Bool) (m : Memory W) : Memory W :=
  { m with
    sync := (if notify then 0 else 1) + (if recipe.nofork then 1 else 0)
    jobpid := -1
    currentruletarget := recipe.target
    precache := Function.update m.precache recipe.target (some recipe)
    exec := if host.checkexternalcmds then Function.update m.exec recipe.target ∅ else m.exec }

/-- A `-slow` rule is forked before its first script. -/
def startSlow (fork : M W Int) (recipe : Recipe W) : M W Int :=
  if recipe.slow then fork else do
    let m ← get
    return m.jobpid

/-- The part of `build` that runs a rule; `notify` is whether there is a rule to notify. -/
def buildRule (fork : M W Int) (recipe : Recipe W) (notify : Bool) : M W Unit := do
  modify (setCurrent host recipe notify)
  let jobpid ← startSlow fork recipe
  let ok ← if jobpid > 0 then pure true else runScripts host fork recipe recipe.doList
  modify fun m => { m with sync := 1 }
  let m ← get
  if m.jobpid > 0 then pure () else targetPostBuild host fork recipe.target ok

/-! ## Runs -/

/-- What the dependency engine does next: it starts a rule, or waits. -/
inductive Move (W : Type) where
  | build (recipe : Recipe W) (notify : Bool)
  | wait

def move (n : Nat) : Move W → M W Unit
  | .build recipe notify => buildRule host (forkJobIfRequired host n) recipe notify
  | .wait => waitForOneJob host (forkJobIfRequired host n)

/-- The states of the main process between two moves, whatever it starts and however long it
waits.  An error in a move ends the run. -/
inductive Reachable : Memory W → Prop where
  | start (world : W) : Reachable { world }
  | move {m m' : Memory W} (n : Nat) (mv : Move W) (h : Reachable m)
      (hmove : move host n mv m = .ok () m') : Reachable m'

/-! ## What the evaluation should be -/

/-- A `run` that does not fork. -/
def runForeground (c : CmdLine) (g : Globals W) : Code × Globals W :=
  external host (localLine host c g) (lookUp host c g)

/-- The evaluation of a script in the foreground. -/
def foreground : Body W → Globals W → Code × Globals W
  | .done code, g => (code, g)
  | .builtin f next, g => foreground (next (f g.world)) { g with world := f g.world }
  | .run c next, g =>
    foreground (next (runForeground host c g).1 (runForeground host c g).2.world)
      (runForeground host c g).2

/-- The script was evaluated as in the foreground: the same commands were executed, with the same
result, and no job was forked or waited for. -/
def Evaluation.Whole (e : Evaluation W) : Prop := (e.code, e.after) = foreground host e.script e.before

/-- The script executes a command, when it is evaluated in the foreground. -/
def Evaluation.Runs (e : Evaluation W) : Prop :=
  (foreground host e.script e.before).2.executed ≠ e.before.executed

/-- A `run` does not fork here, nor has the rule that was started last. -/
def Safe (g : Globals W) : Prop := g.jobpid ≤ 0 ∧ ¬Required host g

/-! ## Evaluation in the foreground -/

variable {host} {fork : M W Int} {g : Globals W} {m : Memory W} {body : Body W} {c : CmdLine}
  {code : Code}

@[simp] theorem lookUp_jobpid : (lookUp host c g).jobpid = g.jobpid := by
  rw [lookUp]
  split <;> rfl

@[simp] theorem lookUp_sync : (lookUp host c g).sync = g.sync := by
  rw [lookUp]
  split <;> rfl

@[simp] theorem lookUp_executed : (lookUp host c g).executed = g.executed := by
  rw [lookUp]
  split <;> rfl

theorem safe_lookUp : Safe host (lookUp host c g) ↔ Safe host g := by
  simp [Safe, Required]

theorem Safe.run (h : Safe host g) : Safe host (runForeground host c g).2 :=
  safe_lookUp.mpr h

/-- One more command has been executed. -/
theorem runForeground_executed (host : Host W) (c : CmdLine) (g : Globals W) :
    ∃ line, (runForeground host c g).2.executed = line :: g.executed :=
  ⟨_, congrArg (List.cons _) lookUp_executed⟩

theorem foreground_executed (host : Host W) (body : Body W) (g : Globals W) :
    g.executed <:+ (foreground host body g).2.executed := by
  induction body generalizing g with
  | done code => exact List.suffix_rfl
  | builtin f next ih => exact ih (f g.world) { g with world := f g.world }
  | run c next ih =>
    obtain ⟨line, hline⟩ := runForeground_executed host c g
    exact (hline ▸ List.suffix_cons line g.executed).trans (ih _ _ _)

/-- The rest of the memory stays as it is. -/
theorem foreground_frame (host : Host W) (body : Body W) (g : Globals W) : ∃ world exec executed,
    (foreground host body g).2 = { g with world, exec, executed } := by
  induction body generalizing g with
  | done code => exact ⟨g.world, g.exec, g.executed, rfl⟩
  | builtin f next ih =>
    obtain ⟨world, exec, executed, h⟩ := ih (f g.world) { g with world := f g.world }
    exact ⟨world, exec, executed, h⟩
  | run c next ih =>
    obtain ⟨world, exec, executed, h⟩ := ih (runForeground host c g).1
      (runForeground host c g).2.world (runForeground host c g).2
    refine ⟨world, exec, executed, ?_⟩
    rw [foreground, h, runForeground, external, lookUp]
    split <;> rfl

theorem Safe.foreground (h : Safe host g) (body : Body W) : Safe host (foreground host body g).2 := by
  obtain ⟨world, exec, executed, heq⟩ := foreground_frame host body g
  rw [heq]
  exact h

/-- A script that comes to a `run` executes a command. -/
theorem foreground_run_ne {next : Code → W → Body W} :
    (foreground host (.run c next) g).2.executed ≠ g.executed := by
  obtain ⟨line, hline⟩ := runForeground_executed host c g
  intro heq
  have hsuffix := foreground_executed host
    (next (runForeground host c g).1 (runForeground host c g).2.world) (runForeground host c g).2
  rw [foreground] at heq
  rw [heq, hline] at hsuffix
  exact absurd hsuffix.length_le (Nat.not_succ_le_self _)

/-! ## Where nothing is forked -/

theorem catchError_ok {a : M W Code} {m' : Memory W} (h : a m = .ok code m') :
    catchError a m = .ok code m' := by
  show EStateM.tryCatch a _ m = _
  rw [EStateM.tryCatch, h]

/-- `run` looks its command up; then it forks or not. -/
theorem run_apply : run host fork c m = (fork >>= fun pid => if pid > 0 then return .brk
      else modifyGet fun m' : Memory W =>
        ((external host (localLine host c m.toGlobals) m'.toGlobals).1,
          { m' with toGlobals := (external host (localLine host c m.toGlobals) m'.toGlobals).2 }) :
      M W Code) { m with toGlobals := lookUp host c m.toGlobals } := rfl

theorem run_of_fork {pid : Int} {m' : Memory W}
    (h : fork { m with toGlobals := lookUp host c m.toGlobals } = .ok pid m') :
    run host fork c m = if pid > 0 then .ok .brk m' else
      .ok (external host (localLine host c m.toGlobals) m'.toGlobals).1
        { m' with toGlobals := (external host (localLine host c m.toGlobals) m'.toGlobals).2 } := by
  rw [run_apply, bind_of_ok h]
  split <;> rfl

theorem forkJob_not_required (n : Nat) (h : ¬Required host m.toGlobals) :
    forkJobIfRequired host (n + 1) m = .ok m.jobpid m := by
  rw [forkJobIfRequired, get_bind_apply, if_neg h]
  rfl

/-- In a safe state `run` executes its command. -/
theorem run_safe (n : Nat) (h : Safe host m.toGlobals) :
    catchError (run host (forkJobIfRequired host (n + 1)) c) m =
      .ok (runForeground host c m.toGlobals).1
        { m with toGlobals := (runForeground host c m.toGlobals).2 } := by
  have hsafe : Safe host (lookUp host c m.toGlobals) := safe_lookUp.mpr h
  refine catchError_ok ?_
  rw [run_of_fork (forkJob_not_required n hsafe.2), if_neg (not_lt.mpr hsafe.1)]
  rfl

theorem runBody_run {next : Code → W → Body W} {m' : Memory W}
    (h : catchError (run host fork c) m = .ok code m') :
    runBody host fork (.run c next) m = runBody host fork (next code m'.world) m' := by
  rw [runBody, bind_of_ok h]
  rfl

/-- In a safe state a script is evaluated as in the foreground. -/
theorem runBody_safe (n : Nat) (body : Body W) (h : Safe host m.toGlobals) :
    runBody host (forkJobIfRequired host (n + 1)) body m =
      .ok (foreground host body m.toGlobals).1
        { m with toGlobals := (foreground host body m.toGlobals).2 } := by
  induction body generalizing m with
  | done code => rfl
  | builtin f next ih => exact ih (f m.world) (m := { m with world := f m.world }) h
  | run c next ih =>
    rw [runBody_run (run_safe n h)]
    exact ih _ _ (m := { m with toGlobals := (runForeground host c m.toGlobals).2 }) h.run

theorem runBody_foreground (body : Body W) :
    runBody host (return -1) body m = .ok (foreground host body m.toGlobals).1
      { m with toGlobals := (foreground host body m.toGlobals).2 } := by
  induction body generalizing m with
  | done code => rfl
  | builtin f next ih => exact ih (f m.world) (m := { m with world := f m.world })
  | run c next ih =>
    have hrun : catchError (run host (return -1) c) m = .ok (runForeground host c m.toGlobals).1
        { m with toGlobals := (runForeground host c m.toGlobals).2 } := by
      have hfork : (return -1 : M W Int) { m with toGlobals := lookUp host c m.toGlobals } =
          .ok (-1) { m with toGlobals := lookUp host c m.toGlobals } := rfl
      refine catchError_ok ?_
      rw [run_of_fork hfork]
      rfl
    rw [runBody_run hrun]
    exact ih _ _ (m := { m with toGlobals := (runForeground host c m.toGlobals).2 })

/-- So is a script that does not come to a `run`. -/
theorem runBody_idle (fork : M W Int) (body : Body W)
    (h : (foreground host body m.toGlobals).2.executed = m.executed) :
    runBody host fork body m = .ok (foreground host body m.toGlobals).1
      { m with toGlobals := (foreground host body m.toGlobals).2 } := by
  induction body generalizing m with
  | done code => rfl
  | builtin f next ih => exact ih (f m.world) (m := { m with world := f m.world }) h
  | run c next ih => exact absurd h foreground_run_ne

/-! ## Where the rule started last has forked -/

theorem catchError_error {a : M W Code} {e : Stop} {m' : Memory W} (h : a m = .error e m')
    (he : e ≠ .error) : catchError a m = .error e m' := by
  show EStateM.tryCatch a _ m = _
  rw [EStateM.tryCatch, h]
  show (if e = Stop.error then (return .error : M W Code) else throw e) m' = _
  rw [if_neg he]
  rfl

theorem run_of_fork_error {e : Stop} {m' : Memory W}
    (h : fork { m with toGlobals := lookUp host c m.toGlobals } = .error e m') :
    run host fork c m = .error e m' := by
  rw [run_apply]
  exact bind_error_iff.mpr (.inl h)

theorem runBody_zero {next : Code → W → Body W} :
    runBody host (forkJobIfRequired host 0) (.run c next) m =
      .error .fuel { m with toGlobals := lookUp host c m.toGlobals } := by
  rw [runBody]
  exact bind_error_iff.mpr (.inl (catchError_error (run_of_fork_error rfl) nofun))

theorem idle_of_zero (body : Body W) {m' : Memory W}
    (h : runBody host (forkJobIfRequired host 0) body m = .ok code m') :
    (foreground host body m.toGlobals).2.executed = m.executed := by
  induction body generalizing m with
  | done code => rfl
  | builtin f next ih => exact ih (f m.world) (m := { m with world := f m.world }) h
  | run c next ih =>
    rw [runBody_zero] at h
    cases h

/-- Every `run` breaks, and executes nothing. -/
theorem runBody_blocked (n : Nat) (body : Body W) (h : 0 < m.jobpid) {m' : Memory W}
    (hrun : runBody host (forkJobIfRequired host n) body m = .ok code m') :
    m'.executed = m.executed := by
  induction body generalizing m with
  | done code =>
    cases hrun
    rfl
  | builtin f next ih => exact ih (f m.world) (m := { m with world := f m.world }) h hrun
  | run c next ih =>
    have hpid : 0 < (lookUp host c m.toGlobals).jobpid := by rwa [lookUp_jobpid]
    cases n with
    | zero =>
      rw [runBody_zero] at hrun
      cases hrun
    | succ n =>
      have hnot : ¬Required host (lookUp host c m.toGlobals) := fun hreq => by
        have := hreq.2.2
        omega
      have hbreak : catchError (run host (forkJobIfRequired host (n + 1)) c) m =
          .ok .brk { m with toGlobals := lookUp host c m.toGlobals } := by
        refine catchError_ok ?_
        rw [run_of_fork (forkJob_not_required n hnot), if_pos hpid]
      rw [runBody_run hbreak] at hrun
      have hexecuted := ih _ _ (m := { m with toGlobals := lookUp host c m.toGlobals }) hpid hrun
      rw [hexecuted]
      exact lookUp_executed

/-! ## Where a job is forked -/

/-- How many jobs have been forked and waited for. -/
def jobsSeen (g : Globals W) : Nat := g.lastpid + g.tick

/-- What is recorded is an evaluation. -/
def Evaluation.Genuine (host : Host W) (e : Evaluation W) : Prop :=
  ∃ n trace m, runBody host (forkJobIfRequired host n) e.script ⟨e.before, trace⟩ = .ok e.code m ∧
    m.toGlobals = e.after

/-- What holds all the time: without background jobs there is no `tmake(jobpid)`. -/
structure Sound (host : Host W) (m : Memory W) : Prop where
  genuine : ∀ e ∈ m.trace, e.Genuine host
  single : host.maxjobs ≤ 1 → m.jobpid = -1
  singles : host.maxjobs ≤ 1 → ∀ e ∈ m.trace, e.before.jobpid = -1

/-- What any part of a run leads to. -/
def Later (host : Host W) (m m' : Memory W) : Prop :=
  jobsSeen m.toGlobals ≤ jobsSeen m'.toGlobals ∧ (Sound host m → Sound host m')

instance (host : Host W) : IsPreorder (Memory W) (Later host) where
  refl _ := ⟨Nat.le_refl _, id⟩
  trans _ _ _ h h' := ⟨h.1.trans h'.1, h'.2 ∘ h.2⟩

theorem Later.of_trace {m' : Memory W} (hseen : jobsSeen m.toGlobals ≤ jobsSeen m'.toGlobals)
    (htrace : m'.trace = m.trace) (hpid : host.maxjobs ≤ 1 → m'.jobpid = m.jobpid ∨ m'.jobpid = -1) :
    Later host m m' := by
  refine ⟨hseen, fun h => ⟨htrace ▸ h.genuine, fun hmax => ?_, htrace ▸ h.singles⟩⟩
  exact (hpid hmax).elim (fun heq => heq.trans (h.single hmax)) id

abbrev Runs (host : Host W) {α : Type} (a : M W α) : Prop := Within (fun _ => False) (Later host) a

theorem runs_modify {f : Memory W → Memory W} (hseen : ∀ m, jobsSeen m.toGlobals ≤ jobsSeen (f m).toGlobals)
    (htrace : ∀ m, (f m).trace = m.trace) (hpid : ∀ m, (f m).jobpid = m.jobpid) :
    Runs host (modify f : M W Unit) :=
  Within.modify fun m => .of_trace (hseen m) (htrace m) fun _ => .inl (hpid m)

theorem runs_lookUp (c : CmdLine) :
    Runs host (modify fun m => { m with toGlobals := lookUp host c m.toGlobals } : M W Unit) := by
  refine runs_modify (fun m => ?_) (fun _ => rfl) (fun _ => lookUp_jobpid)
  show jobsSeen m.toGlobals ≤ jobsSeen (lookUp host c m.toGlobals)
  rw [lookUp]
  split <;> exact Nat.le_refl _

theorem runs_run (hfork : Runs host fork) (c : CmdLine) : Runs host (run host fork c) := by
  refine Within.get.bind fun m => (runs_lookUp c).bind fun _ => hfork.bind fun pid => .ite (fun _ => .pure _) fun _ => ?_
  exact Within.modifyGet fun m => .of_trace (Nat.le_refl _) rfl fun _ => .inl rfl

theorem runs_catchError {a : M W Code} (h : Runs host a) : Runs host (catchError a) :=
  h.tryCatch fun _ => .ite (fun _ => .pure _) fun _ => .throw id

theorem runs_runBody (hfork : Runs host fork) (body : Body W) : Runs host (runBody host fork body) := by
  induction body with
  | done code => exact Within.pure code
  | builtin f next ih =>
    have hbuiltin : Runs host (modify fun m => { m with world := f m.world } : M W Unit) :=
      runs_modify (fun _ => Nat.le_refl _) (fun _ => rfl) fun _ => rfl
    exact hbuiltin.bind fun _ => Within.get.bind fun m => ih m.world
  | run c next ih =>
    exact (runs_catchError (runs_run hfork c)).bind fun code => Within.get.bind fun m => ih code m.world

/-- The evaluation that is recorded is the one that there was. -/
theorem runs_runDo {n : Nat} (hfork : Runs host (forkJobIfRequired host n)) (r : RuleTarget)
    (script : Body W) : Runs host (runDo host (forkJobIfRequired host n) r script) := by
  intro m
  rw [runDo, wp_bind, wp_get, wp_bind]
  refine ((runs_runBody hfork script m).and (wp_self _ m)).imp ?_ fun _ _ h => h.1
  rintro code m' ⟨hlater, hrun⟩
  refine ⟨hlater.1, fun h => ?_⟩
  have hgenuine : Evaluation.Genuine host ⟨r, script, m.toGlobals, m'.toGlobals, code⟩ :=
    ⟨n, m.trace, m', hrun, rfl⟩
  have hsound := hlater.2 h
  exact {
    genuine := List.forall_mem_cons.mpr ⟨hgenuine, hsound.genuine⟩
    single := hsound.single
    singles := fun hmax => List.forall_mem_cons.mpr ⟨h.single hmax, hsound.singles hmax⟩ }

theorem runs_runCleanUp {n : Nat} (hfork : Runs host (forkJobIfRequired host n)) (r : RuleTarget)
    (script : Body W) : Runs host (runCleanUp host (forkJobIfRequired host n) r script) :=
  (runs_runDo hfork r script).bind fun _ => .ite (fun _ => .pure _) fun _ => .throw id

theorem runs_targetPostBuild {n : Nat} (hfork : Runs host (forkJobIfRequired host n)) (r : RuleTarget)
    (ok : Bool) : Runs host (targetPostBuild host (forkJobIfRequired host n) r ok) := by
  refine Within.get.bind fun m => ?_
  cases m.precache r with
  | none => exact .throw id
  | some recipe =>
    have hsettle : Runs host (modifyGet fun m => ((host.settle r ok m.world).1,
        { m with world := (host.settle r ok m.world).2 }) : M W Bool) :=
      Within.modifyGet fun m => .of_trace (Nat.le_refl _) rfl fun _ => .inl rfl
    have honerror (ok : Bool) :
        Runs host (runOnerror host (forkJobIfRequired host n) recipe ok) :=
      .ite (fun _ => .pure _) fun _ => runs_runCleanUp hfork _ _
    exact hsettle.bind fun ok => (honerror ok).bind fun _ =>
      (runs_runCleanUp hfork _ _).bind fun _ =>
      runs_modify (fun _ => Nat.le_refl _) (fun _ => rfl) fun _ => rfl

/-- One more job has been waited for. -/
theorem wp_waitForOneJob {n : Nat} (hfork : Runs host (forkJobIfRequired host n))
    (h : m.running ≠ []) :
    wp (waitForOneJob host (forkJobIfRequired host n))
      (fun _ m' => Later host m m' ∧ jobsSeen m.toGlobals < jobsSeen m'.toGlobals)
      (fun _ m' => Later host m m' ∧ jobsSeen m.toGlobals < jobsSeen m'.toGlobals) m := by
  obtain ⟨first, jobs, hrunning⟩ := List.exists_cons_of_ne_nil h
  rw [waitForOneJob, wp_bind, wp_get, hrunning]
  dsimp only
  rw [wp_bind, wp_modify]
  generalize hm₁ : ({ m with running := _, world := _, tick := m.tick + 1 } : Memory W) = m₁
  have hseen : jobsSeen m₁.toGlobals = jobsSeen m.toGlobals + 1 := by
    rw [← hm₁]
    rfl
  have hlater : Later host m m₁ :=
    .of_trace (hseen ▸ Nat.le_succ _) (by rw [← hm₁]) fun _ => .inl (by rw [← hm₁])
  have hend {m' : Memory W} (h : Later host m₁ m') :
      Later host m m' ∧ jobsSeen m.toGlobals < jobsSeen m'.toGlobals :=
    ⟨trans_of (Later host) hlater h, Nat.lt_of_lt_of_le (hseen ▸ Nat.lt_succ_self _) h.1⟩
  exact (runs_targetPostBuild hfork _ _ m₁).imp (fun _ _ => hend) fun _ _ h => hend h.2

theorem runs_waitForOneJob {n : Nat} (hfork : Runs host (forkJobIfRequired host n)) :
    Runs host (waitForOneJob host (forkJobIfRequired host n)) := by
  intro m
  by_cases h : m.running = []
  · rw [waitForOneJob, wp_bind, wp_get, h]
    exact refl_of (Later host) m
  · exact (wp_waitForOneJob hfork h).imp (fun _ _ h => h.1) fun _ _ h => ⟨id, h.1⟩

/-- It takes a job that has been waited for to stop the loop. -/
theorem wp_waitForJobSlots {n : Nat} (hfork : Runs host (forkJobIfRequired host n))
    (hmax : host.maxjobs > 1) (k : Nat) (m : Memory W) :
    wp (waitForJobSlots host (forkJobIfRequired host n) k) (fun _ => Later host m)
      (fun e m' => Later host m m' ∧ (e = .fuel ∨ jobsSeen m.toGlobals < jobsSeen m'.toGlobals)) m := by
  induction k generalizing m with
  | zero => exact ⟨refl_of (Later host) m, .inl rfl⟩
  | succ k ih =>
    rw [waitForJobSlots, wp_bind, wp_get, wp_ite]
    refine ⟨fun hfull => ?_, fun _ => refl_of (Later host) m⟩
    have hrunning : m.running ≠ [] := by
      intro hnil
      rw [hnil, List.length_nil] at hfull
      omega
    rw [wp_bind]
    refine (wp_waitForOneJob hfork hrunning).imp (fun _ m₁ h₁ => ?_) fun _ _ h => ⟨h.1, .inr h.2⟩
    refine (ih m₁).imp (fun _ _ h => trans_of (Later host) h₁.1 h) fun _ _ h => ?_
    exact ⟨trans_of (Later host) h₁.1 h.1, .inr (Nat.lt_of_lt_of_le h₁.2 h.1.1)⟩

/-- A job is forked, or else one has been waited for. -/
theorem wp_forkJob {n : Nat} (hfork : Runs host (forkJobIfRequired host n))
    (hmax : host.maxjobs > 1) (k : Nat) (m : Memory W) :
    wp (forkJob host (forkJobIfRequired host n) k)
      (fun _ m' => Later host m m' ∧ jobsSeen m.toGlobals < jobsSeen m'.toGlobals)
      (fun e m' => Later host m m' ∧ (e = .fuel ∨ jobsSeen m.toGlobals < jobsSeen m'.toGlobals)) m := by
  rw [forkJob, wp_bind]
  refine (wp_waitForJobSlots hfork hmax k m).imp (fun _ m₁ h₁ => ?_) fun _ _ h => h
  rw [wp_bind, addNewJob, wp_modifyGet, wp_modify]
  have hseen : jobsSeen m₁.toGlobals < m₁.lastpid + 1 + m₁.tick := by
    rw [jobsSeen]
    omega
  refine ⟨trans_of (Later host) h₁ ?_, Nat.lt_of_le_of_lt h₁.1 hseen⟩
  exact .of_trace hseen.le rfl fun hle => absurd hle (Nat.not_le.mpr hmax)

theorem runs_forkJobIfRequired (n : Nat) : Runs host (forkJobIfRequired host n) := by
  induction n with
  | zero => exact .throw id
  | succ n ih =>
    have hrest : Runs host (do let m ← get; return m.jobpid : M W Int) :=
      Within.get.bind fun m => .pure _
    refine Within.get.bind fun m => .ite (fun hreq => ?_) fun _ => hrest
    have hfork : Runs host (forkJob host (forkJobIfRequired host n) n) := fun m =>
      (wp_forkJob ih hreq.1 n m).imp (fun _ _ h => h.1) fun _ _ h => ⟨id, h.1⟩
    exact hfork.bind fun _ => hrest

/-- Where a fork is required, `run` leaves its marks. -/
theorem wp_forkJobIfRequired (n : Nat) (h : Required host m.toGlobals) :
    wp (forkJobIfRequired host n) (fun _ m' => jobsSeen m.toGlobals < jobsSeen m'.toGlobals)
      (fun e m' => e = .fuel ∨ jobsSeen m.toGlobals < jobsSeen m'.toGlobals) m := by
  cases n with
  | zero => exact .inl rfl
  | succ n =>
    rw [forkJobIfRequired, wp_bind, wp_get, if_pos h, wp_bind]
    exact (wp_forkJob (runs_forkJobIfRequired n) h.1 n m).imp (fun _ _ h => h.2) fun _ _ h => h.2

theorem jobsSeen_lookUp : jobsSeen (lookUp host c g) = jobsSeen g := by
  rw [lookUp]
  split <;> rfl

theorem required_lookUp : Required host (lookUp host c g) ↔ Required host g := by
  simp [Required]

theorem wp_run_required (n : Nat) (h : Required host m.toGlobals) :
    wp (catchError (run host (forkJobIfRequired host n) c))
      (fun _ m' => jobsSeen m.toGlobals < jobsSeen m'.toGlobals) (fun _ _ => True) m := by
  rw [catchError, wp_tryCatch, run, wp_bind, wp_get, wp_bind, wp_modify, wp_bind]
  have hfork := wp_forkJobIfRequired (m := { m with toGlobals := lookUp host c m.toGlobals }) n
    (required_lookUp.mpr h)
  rw [jobsSeen_lookUp] at hfork
  refine hfork.imp (fun pid m₁ h₁ => ?_) fun e m₁ h₁ => ?_
  · rw [wp_ite]
    exact ⟨fun _ => h₁, fun _ => h₁⟩
  · rw [wp_ite]
    refine ⟨fun he => ?_, fun _ => trivial⟩
    exact h₁.resolve_left (by rw [he]; nofun)

/-- A script that comes to a `run` where a fork is required. -/
theorem runBody_forks (n : Nat) (body : Body W) (h : Required host m.toGlobals) {m' : Memory W}
    (hruns : (foreground host body m.toGlobals).2.executed ≠ m.executed)
    (hrun : runBody host (forkJobIfRequired host n) body m = .ok code m') :
    jobsSeen m.toGlobals < jobsSeen m'.toGlobals := by
  induction body generalizing m with
  | done code => exact absurd rfl hruns
  | builtin f next ih => exact ih (f m.world) (m := { m with world := f m.world }) h hruns hrun
  | run c next ih =>
    rw [runBody] at hrun
    obtain ⟨code₁, m₁, hcall, hrest⟩ := bind_ok_iff.mp hrun
    have hfirst := wp_of_ok hcall (wp_run_required n h)
    exact Nat.lt_of_lt_of_le hfirst ((runs_runBody (runs_forkJobIfRequired n) _).ok hrest).1

/-! ## Runs -/

theorem runs_runScripts {n : Nat} (recipe : Recipe W) (scripts : List (Body W)) :
    Runs host (runScripts host (forkJobIfRequired host n) recipe scripts) := by
  induction scripts with
  | nil => exact .pure _
  | cons script scripts ih =>
    refine (runs_runBody (runs_forkJobIfRequired n) script).bind fun code => Within.get.bind fun m => ?_
    exact .ite (fun _ => .pure _) fun _ => .ite (fun _ => .pure _) fun _ => ih

theorem runs_buildRule (n : Nat) (recipe : Recipe W) (notify : Bool) :
    Runs host (buildRule host (forkJobIfRequired host n) recipe notify) := by
  have hfork : Runs host (forkJobIfRequired host n) := runs_forkJobIfRequired n
  have hcurrent : Runs host (modify (setCurrent host recipe notify) : M W Unit) :=
    Within.modify fun m => .of_trace (Nat.le_refl _) rfl fun _ => .inr rfl
  have hslow : Runs host (startSlow (forkJobIfRequired host n) recipe) :=
    .ite (fun _ => hfork) fun _ => Within.get.bind fun _ => .pure _
  have hsync : Runs host (modify fun m => { m with sync := 1 } : M W Unit) :=
    runs_modify (fun _ => Nat.le_refl _) (fun _ => rfl) fun _ => rfl
  have hend (ok : Bool) : Runs host (do
      modify fun m => { m with sync := 1 }
      let m ← get
      if m.jobpid > 0 then pure ()
      else targetPostBuild host (forkJobIfRequired host n) recipe.target ok : M W Unit) :=
    hsync.bind fun _ => Within.get.bind fun _ => .ite (fun _ => .pure _) fun _ =>
      runs_targetPostBuild hfork _ _
  refine hcurrent.bind fun _ => hslow.bind fun jobpid => .ite (fun _ => ?_) fun _ => ?_
  · exact (Within.pure true).bind hend
  · exact (runs_runScripts recipe recipe.doList).bind hend

theorem runs_move (n : Nat) (mv : Move W) : Runs host (move host n mv) := by
  cases mv with
  | build recipe notify => exact runs_buildRule n recipe notify
  | wait => exact runs_waitForOneJob (runs_forkJobIfRequired n)

theorem Reachable.sound (h : Reachable host m) : Sound host m := by
  induction h with
  | start world => exact ⟨nofun, fun _ => rfl, nofun⟩
  | move n mv _ hmove ih => exact ((runs_move n mv).ok hmove).2 ih

/-- In a safe state a clean-up script is evaluated as in the foreground, elsewhere only if it does
not come to a `run`. -/
theorem Evaluation.Genuine.whole_iff {e : Evaluation W} (h : e.Genuine host) :
    e.Whole host ↔ ¬e.Runs host ∨ Safe host e.before := by
  obtain ⟨n, trace, m, hrun, hafter⟩ := h
  have hidle (hidle : (foreground host e.script e.before).2.executed = e.before.executed) :
      e.Whole host := by
    rw [runBody_idle _ e.script hidle, EStateM.Result.ok.injEq] at hrun
    rw [Evaluation.Whole, ← hafter, ← hrun.1, ← hrun.2]
  rw [Evaluation.Runs, not_not]
  constructor
  · intro hwhole
    rw [Evaluation.Whole, ← hafter] at hwhole
    by_cases hruns : (foreground host e.script e.before).2.executed = e.before.executed
    · exact .inl hruns
    refine .inr ⟨not_lt.mp fun hpid => hruns ?_, fun hreq => ?_⟩
    · rw [← hwhole]
      exact runBody_blocked n e.script hpid hrun
    · have hseen := runBody_forks n e.script hreq hruns hrun
      obtain ⟨world, exec, executed, hframe⟩ := foreground_frame host e.script e.before
      rw [← hwhole] at hframe
      rw [show m.toGlobals = _ from hframe] at hseen
      exact (Nat.lt_irrefl _ hseen).elim
  · rintro (h | hsafe)
    · exact hidle h
    cases n with
    | zero => exact hidle (idle_of_zero e.script hrun)
    | succ n =>
      rw [runBody_safe n e.script hsafe, EStateM.Result.ok.injEq] at hrun
      rw [Evaluation.Whole, ← hafter, ← hrun.1, ← hrun.2]

theorem runDo_safe (n : Nat) (r : RuleTarget) (script : Body W) (h : Safe host m.toGlobals) :
    runDo host (forkJobIfRequired host (n + 1)) r script m = runDo host (return -1) r script m := by
  rw [runDo, runDo, get_bind_apply, get_bind_apply]
  refine bind_congr_run ?_ fun _ _ _ => rfl
  rw [runBody_safe n script h, runBody_foreground]

theorem runCleanUp_safe (n : Nat) (r : RuleTarget) (script : Body W) (h : Safe host m.toGlobals) :
    runCleanUp host (forkJobIfRequired host (n + 1)) r script m =
      runCleanUp host (return -1) r script m :=
  bind_congr_run (runDo_safe n r script h) fun _ _ _ => rfl

theorem Safe.runCleanUp {r : RuleTarget} {script : Body W} {m' : Memory W}
    (h : Safe host m.toGlobals) (hrun : runCleanUp host (return -1) r script m = .ok () m') :
    Safe host m'.toGlobals := by
  rw [CleanUp.runCleanUp, runDo] at hrun
  obtain ⟨code, m₁, hdo, hreport⟩ := bind_ok_iff.mp hrun
  rw [get_bind_apply, bind_of_ok (runBody_foreground script)] at hdo
  have hm₁ : m₁.toGlobals = (CleanUp.foreground host script m.toGlobals).2 :=
    congrArg Memory.toGlobals (EStateM.Result.ok.inj hdo).2.symm
  have hm' : m' = m₁ := by
    rw [reportFailure] at hreport
    split at hreport <;> cases hreport
    rfl
  rw [hm', hm₁]
  exact h.foreground script

/-- In a safe state `target-post-build` does what it does if nothing is ever forked. -/
theorem targetPostBuild_safe (n : Nat) (r : RuleTarget) (ok : Bool) (h : Safe host m.toGlobals) :
    targetPostBuild host (forkJobIfRequired host (n + 1)) r ok m =
      targetPostBuild host (return -1) r ok m := by
  rw [targetPostBuild, targetPostBuild, get_bind_apply, get_bind_apply]
  cases m.precache r with
  | none => rfl
  | some recipe =>
    refine bind_congr_run rfl fun ok m₁ hsettle => ?_
    have hsafe : Safe host m₁.toGlobals := by
      cases hsettle
      exact h
    have honerror : runOnerror host (forkJobIfRequired host (n + 1)) recipe ok m₁ =
        runOnerror host (return -1) recipe ok m₁ := by
      rw [runOnerror, runOnerror]
      split
      · rfl
      · exact runCleanUp_safe n _ _ hsafe
    refine bind_congr_run honerror fun _ m₂ hrun => ?_
    have hsafe₂ : Safe host m₂.toGlobals := by
      rw [honerror, runOnerror] at hrun
      split at hrun
      · cases hrun
        exact hsafe
      · exact hsafe.runCleanUp hrun
    exact bind_congr_run (runCleanUp_safe n _ _ hsafe₂) fun _ _ _ => rfl

end

/-! ## A job that fails -/

/-- `-do {run cc} -onerror {run rm}`. -/
def failingRecipe : Recipe Unit where
  target := ["a.o"]
  doList := [.run ⟨"cc", []⟩ fun code _ => .done code]
  onerror := .run ⟨"rm", []⟩ fun code _ => .done code

def failingHost (maxjobs : Nat) : Host Unit where
  maxjobs
  isfile _ _ := false
  statCmd _ _ := "-,0,0"
  execute c _ := (c.cmd = "rm", ())
  pick _ := 0
  succeeded _ := false
  meanwhile _ := id
  settle _ ok _ := (ok, ())

/-- The state in which the job of the rule is running. -/
def failingJob : Memory Unit := final (move (failingHost 2) 2 (.build failingRecipe true)) { world := () }

end Tmake.CleanUp
