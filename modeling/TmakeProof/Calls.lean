import TmakeProof.Engine
import TmakeProof.Machine

/-! # The engine as a machine

`build` waits for the calls it makes with a list of dependencies in its hands,
and jobs that finish in the middle of those calls change the statuses of rules
that are still being looked at.  `next` makes the waiting calls explicit: a point
is the stack of calls, innermost first, and a step runs the innermost one up to
its next call, to the next place where it can wait for a job, or to its end.

`buildSync_follows` says that `build-sync` does what the machine does, so that a
property of a run is proved by looking at one step of the machine at a time.
-/
namespace Tmake
open Machine

/-- Where a call of `build` is. -/
inductive Phase where
  /-- In `build-deps`, on the static dependencies or, once they are known, on the dynamic
  ones: what the calls so far have returned, and what is left. -/
  | deps (dyn : Option (List Name)) (done : List (Name × Status)) (todo : List Name)
  /-- In `calc-dyndeps`: what has been found, the scan of the current input, the inputs left. -/
  | scan (found : List Name) (prog : Scan) (inputs : List Name)
  /-- The dependencies are known. -/
  | check (dyn : List Name)
  /-- The rule has to be built and has a `-do` list. -/
  | launch (dyn : List Name)
  /-- The `-do` list is being evaluated in this process. -/
  | scripts (dyn : List Name) (i : Nat) (todo : List Script)
  /-- The `-do` list is to go on in a background job as soon as there is a slot. -/
  | slots (dyn : List Name) (notify : RuleTarget) (n i : Nat) (todo : List Script)
  /-- The `-do` list has ended in this process. -/
  | ended (dyn : List Name) (rc : Nat)

/-- A call of `build` for a rule, with its local variables. -/
structure Frame where
  rule : Rule
  target : Name
  notify : Option RuleTarget
  status : Status
  phase : Phase

/-- The call goes on in another phase. -/
def Frame.goto (f : Frame) (phase : Phase) : Frame := { f with phase }

section
variable (f : Frame) (a b : Phase)

@[simp] theorem Frame.goto_goto : (f.goto a).goto b = f.goto b := rfl
@[simp] theorem Frame.goto_rule : (f.goto a).rule = f.rule := rfl
@[simp] theorem Frame.goto_target : (f.goto a).target = f.target := rfl
@[simp] theorem Frame.goto_notify : (f.goto a).notify = f.notify := rfl
@[simp] theorem Frame.goto_status : (f.goto a).status = f.status := rfl
@[simp] theorem Frame.goto_phase : (f.goto a).phase = a := rfl

end

inductive Act where
  /-- `build` is called. -/
  | call (target : Name) (notify : Option RuleTarget)
  /-- `build` or `build-sync` returns. -/
  | ret (target : Name) (status : Status)
  | rule (f : Frame)
  /-- `build-sync` waits for `build` to return. -/
  | sync (target : Name)

/-- A stack of calls, the innermost first. -/
abbrev Point := List Act

variable (d : Desc) (E : Env)

/-- The end of `build` for a rule whose `-do` list was run, or started. -/
def close (f : Frame) (dyn : List Name) (status : Status) (p : Point) : M Point := do
  stopIf (d.quickstop || f.rule.fatal) .fatal
  let status ← leave f.rule f.target dyn status
  return .ret f.target status :: p

/-- What follows the static dependencies of a rule. -/
def afterStatic (f : Frame) (status : Status) : Phase :=
  if status = .uptodate || status = .built then
    match f.rule.dyndep with
    | none => .deps (some []) [] []
    | some _ => .scan [] .done f.rule.inputs
  else .check []

/-- How the `-do` list begins. -/
def firstScript (f : Frame) (dyn : List Name) (p : Point) : M Point :=
  match (if f.rule.slow then forkNotify d f.rule f.notify else none) with
  | some notify => do
    let w ← get
    return .rule (f.goto (.slots dyn notify w.running.length 0 f.rule.doList)) :: p
  | none => return .rule (f.goto (.scripts dyn 0 f.rule.doList)) :: p

/-- The scan of an input goes on with the answer to a look-up. -/
def resumeScan (f : Frame) (found : List Name) (file : Name) (keep : FS → Bool)
    (k : Bool → Scan) (inputs : List Name) (answer : Bool) (p : Point) : M Point := do
  let w ← get
  let found := if answer && keep w.fs then found ++ [file] else found
  return .rule (f.goto (.scan found (k answer) inputs)) :: p

/-- One step of a call that no other call has returned to. -/
def advance (f : Frame) (p : Point) : Phase → M Point
  | .deps _ _ (dep :: _) => return .call dep (some f.rule.target) :: .rule f :: p
  | .deps none done [] =>
    let status := depsStatus d f.rule.phony done f.status
    return .rule ({ f with status }.goto (afterStatic f status)) :: p
  | .deps (some dyn) done [] =>
    let status := depsStatus d f.rule.phony done f.status
    return .rule ({ f with status }.goto (.check dyn)) :: p
  | .scan found .done [] => return .rule (f.goto (.deps (some found) [] found)) :: p
  | .scan found .done (i :: inputs) =>
    match f.rule.dyndep with
    | none => return .rule (f.goto (.scan found .done inputs)) :: p
    | some dyndep =>
      let found := found ++ (dyndep i).named
      return .rule (f.goto (.scan found (dyndep i).scan inputs)) :: p
  | .scan found (.peek k) inputs => do
    let w ← get
    return .rule (f.goto (.scan found (k w.fs) inputs)) :: p
  | .scan found (.lookup file keep k) inputs =>
    if d.isTarget file then return .call file none :: .sync file :: .rule f :: p
    else do
      let answer ← lookupFile d (fun _ => return .unknown) file
      resumeScan f found file keep k inputs answer p
  | .check dyn => do
    let status ← checkRule d E f.rule f.target (d.vardict f.rule) dyn f.status
    if status = .built && !f.rule.doList.isEmpty then
      return .rule ({ f with status }.goto (.launch dyn)) :: p
    else do
      let status ← leave f.rule f.target dyn status
      return .ret f.target status :: p
  | .launch dyn => do
    prepareRule d E f.rule
    if d.norun ≠ 0 then do
      let status ← dryRun d f.rule (d.vardict f.rule)
      close d f dyn status p
    else do
      beginRule d E f.rule f.target (d.vardict f.rule) dyn
      firstScript d f dyn p
  | .scripts dyn _ [] => return .rule (f.goto (.ended dyn 0)) :: p
  | .scripts dyn i (script :: todo) => do
    let w ← get
    let res ← ask fun tick => E.exec tick f.rule.target (.script i) w.fs
    match (if res.run then forkNotify d f.rule f.notify else none) with
    | some notify => do
      recordCmds d E f.rule.target (res.cmds.take 1)
      let w ← get
      return .rule (f.goto (.slots dyn notify w.running.length i (script :: todo))) :: p
    | none => do
      applyResult d E f.rule.target res
      if res.rc ≠ 0 && !(f.rule.nofail && res.rc = 1) then
        return .rule (f.goto (.ended dyn res.rc)) :: p
      else return .rule (f.goto (.scripts dyn (i + 1) todo)) :: p
  | .slots dyn notify 0 i todo => do
    addNewJob E f.rule notify i todo
    close d f dyn .running p
  | .slots dyn notify (n + 1) i todo => do
    let w ← get
    if d.maxjobs ≤ w.running.length then do
      let _ ← waitForOneJob d E
      return .rule (f.goto (.slots dyn notify n i todo)) :: p
    else do
      addNewJob E f.rule notify i todo
      close d f dyn .running p
  | .ended dyn rc => do
    let status ← endForeground d E f.rule rc
    close d f dyn status p

/-- One step of a call to which another call has returned `status`. -/
def resume (status : Status) (f : Frame) (p : Point) : Phase → M Point
  | .deps dyn done (dep :: todo) => do
    depFailed d E status
    return .rule (f.goto (.deps dyn (done ++ [(dep, status)]) todo)) :: p
  | .scan found (.lookup file keep k) inputs => do
    let answer ← lookupFile d (fun _ => return status) file
    resumeScan f found file keep k inputs answer p
  | _ => return .rule f :: p

/-- The first step of a call of `build`. -/
def begin (target : Name) (notify : Option RuleTarget) (p : Point) : M Point :=
  match d.ruleFor target with
  | none => do
    let status ← buildSource target
    return .ret target status :: p
  | some r => do
    let w ← get
    match w.rulestatus r.target with
    | .checking => do
      let status ← buildFatalError d .recursive
      return .ret target status :: p
    | .unknown | .waiting => do
      enter r target
      let w ← get
      return .rule ⟨r, target, notify, initialStatus d r w.fs, .deps none [] r.depends⟩ :: p
    | status => do
      emit (.returned target status)
      return .ret target status :: p

/-- `build` has returned to `build-sync`. -/
def resync (status : Status) (target : Name) (p : Point) : M Point :=
  if status = .waiting || status = .running then do
    let _ ← waitForOneJob d E
    return .call target none :: .sync target :: p
  else return .ret target status :: p

/-- One step of the machine. -/
def next : Point → M Point
  | .call target notify :: p => begin d target notify p
  | .ret _ status :: .rule f :: p => resume d E status f p f.phase
  | .ret _ status :: .sync target :: p => resync d E status target p
  | .rule f :: p => advance d E f p f.phase
  | p => return p

/-! ## `build` follows the machine -/

variable {d E} {p : Point}

/-- `build` with some bound on its recursion follows the machine, whatever called it. -/
def BuildFollows (bld : Name → Option RuleTarget → M Status) : Prop :=
  ∀ t notify p, Follows (next d E) .fuel (bld t notify) (.call t notify :: p) (.ret t · :: p)

/-- The same for `build-sync`. -/
def SyncFollows (sync : Name → M Status) : Prop :=
  ∀ t p, Follows (next d E) .fuel (sync t) (.call t none :: .sync t :: p) (.ret t · :: p)

theorem buildDeps_follows {bld : Name → Option RuleTarget → M Status}
    (hbld : BuildFollows (d := d) (E := E) bld) (f : Frame) (dyn : Option (List Name))
    (done : List (Name × Status)) (todo : List Name) :
    Follows (next d E) .fuel (buildDeps d E bld f.rule.target todo)
      (.rule (f.goto (.deps dyn done todo)) :: p)
      (fun rets => .rule (f.goto (.deps dyn (done ++ rets) [])) :: p) := by
  induction todo generalizing done with
  | nil =>
    have h := Follows.pure (next d E) .fuel ([] : List (Name × Status))
      (fun rets => .rule (f.goto (.deps dyn (done ++ rets) [])) :: p)
    rwa [List.append_nil] at h
  | cons dep todo ih =>
    refine Follows.of_next (Tracks.pure ?_)
    refine (hbld dep (some f.rule.target) _).bind fun ret => Follows.of_next ?_
    refine Tracks.bind fun _ => Tracks.pure ?_
    refine (ih (done ++ [(dep, ret)])).bind fun rets => ?_
    have h := Follows.pure (next d E) .fuel ((dep, ret) :: rets)
      (fun rets => .rule (f.goto (.deps dyn (done ++ rets) [])) :: p)
    rwa [List.append_cons] at h

/-- A look-up of a target is `build-sync` and then the same as if that had answered at once. -/
theorem lookupFile_eq {sync : Name → M Status} {file : Name} (h : d.isTarget file = true) :
    lookupFile d sync file = sync file >>= fun status => lookupFile d (fun _ => return status) file := by
  unfold lookupFile
  simp only [h, if_true]
  rfl

theorem lookupFile_source (sync : Name → M Status) {sync' : Name → M Status} {file : Name}
    (h : d.isTarget file = false) : lookupFile d sync file = lookupFile d sync' file := by
  unfold lookupFile
  simp [h]

theorem runScan_follows {sync : Name → M Status} (hsync : SyncFollows (d := d) (E := E) sync)
    (f : Frame) (found : List Name) (prog : Scan) (inputs : List Name) :
    Follows (next d E) .fuel (runScan d sync prog)
      (.rule (f.goto (.scan found prog inputs)) :: p)
      (fun l => .rule (f.goto (.scan (found ++ l) .done inputs)) :: p) := by
  induction prog generalizing found with
  | done =>
    have h := Follows.pure (next d E) .fuel ([] : List Name)
      (fun l => .rule (f.goto (.scan (found ++ l) .done inputs)) :: p)
    rwa [List.append_nil] at h
  | peek k ih =>
    refine Follows.of_next (Tracks.bind fun w => Tracks.pure ?_)
    exact ih w.fs found
  | lookup file keep k ih =>
    -- what follows the answer
    have hrest : ∀ answer, Tracks (next d E) .fuel
        (resumeScan f found file keep k inputs answer p)
        (do let w ← get
            let rest ← runScan d sync (k answer)
            return if answer && keep w.fs then file :: rest else rest)
        (fun l => .rule (f.goto (.scan (found ++ l) .done inputs)) :: p) := by
      intro answer
      refine Tracks.bind fun w => Tracks.pure ?_
      refine (ih answer _).bind fun rest => ?_
      have h := Follows.pure (next d E) .fuel
        (if answer && keep w.fs then file :: rest else rest)
        (fun l => .rule (f.goto (.scan (found ++ l) .done inputs)) :: p)
      by_cases hk : (answer && keep w.fs) = true
      · simp only [hk, if_true] at h ⊢
        rwa [List.append_cons] at h
      · simpa only [hk, Bool.false_eq_true, if_false] using h
    by_cases ht : d.isTarget file = true
    · unfold runScan
      rw [lookupFile_eq ht]
      refine Follows.of_next ?_
      have hn : next d E (.rule (f.goto (.scan found (.lookup file keep k) inputs)) :: p)
          = pure (.call file none :: .sync file ::
              .rule (f.goto (.scan found (.lookup file keep k) inputs)) :: p) := by
        simp [next, advance, ht]
      rw [hn]
      refine Tracks.pure ?_
      rw [bind_assoc]
      exact (hsync file _).bind fun status => Follows.of_next (Tracks.bind fun a => hrest a)
    · unfold runScan
      refine Follows.of_next ?_
      have hn : next d E (.rule (f.goto (.scan found (.lookup file keep k) inputs)) :: p)
          = lookupFile d (fun _ => return .unknown) file >>= fun answer =>
              resumeScan (f.goto (.scan found (.lookup file keep k) inputs)) found file keep k
                inputs answer p := by
        simp [next, advance, ht]
      rw [hn, lookupFile_source sync (Bool.not_eq_true _ ▸ ht)]
      exact Tracks.bind fun a => hrest a

theorem scanInputs_follows {sync : Name → M Status} (hsync : SyncFollows (d := d) (E := E) sync)
    (f : Frame) {dyndep : Name → Dyndep} (hf : f.rule.dyndep = some dyndep)
    (found : List Name) (inputs : List Name) :
    Follows (next d E) .fuel (scanInputs d sync dyndep inputs)
      (.rule (f.goto (.scan found .done inputs)) :: p)
      (fun l => .rule (f.goto (.deps (some (found ++ l)) [] (found ++ l))) :: p) := by
  induction inputs generalizing found with
  | nil =>
    refine Follows.of_next (Tracks.pure ?_)
    have h := Follows.pure (next d E) .fuel ([] : List Name)
      (fun l => .rule (f.goto (.deps (some (found ++ l)) [] (found ++ l))) :: p)
    rwa [List.append_nil] at h
  | cons i inputs ih =>
    refine Follows.of_next ?_
    have hn : next d E (.rule (f.goto (.scan found .done (i :: inputs))) :: p)
        = pure (.rule (f.goto (.scan (found ++ (dyndep i).named) (dyndep i).scan inputs)) :: p) := by
      simp [next, advance, hf]
    rw [hn]
    refine Tracks.pure ?_
    refine (runScan_follows hsync f _ _ inputs).bind fun l => ?_
    refine (ih (found ++ (dyndep i).named ++ l)).bind fun rest => ?_
    have h := Follows.pure (next d E) .fuel ((dyndep i).named ++ l ++ rest)
      (fun l => .rule (f.goto (.deps (some (found ++ l)) [] (found ++ l))) :: p)
    simpa only [List.append_assoc] using h

/-- What follows the static dependencies, up to the end of `calc-dyndeps`. -/
theorem calcDyndeps_follows {sync : Name → M Status} (hsync : SyncFollows (d := d) (E := E) sync)
    (f : Frame) {status : Status} (hs : (status = .uptodate || status = .built) = true) :
    Follows (next d E) .fuel (calcDyndeps d sync f.rule)
      (.rule ({ f with status }.goto (afterStatic f status)) :: p)
      (fun dyn => .rule ({ f with status }.goto (.deps (some dyn) [] dyn)) :: p) := by
  unfold calcDyndeps afterStatic
  rw [if_pos hs]
  cases hd : f.rule.dyndep with
  | none =>
    exact Follows.pure (next d E) .fuel ([] : List Name)
      (fun dyn => .rule ({ f with status }.goto (.deps (some dyn) [] dyn)) :: p)
  | some dyndep => exact scanInputs_follows hsync { f with status } hd [] f.rule.inputs

/-- What follows a `-do` list: the rest of `build` once it is known whether it has forked. -/
def afterScripts (d : Desc) (E : Env) (f : Frame) (dyn : List Name) : Option Nat → M Status
  | none => do
    stopIf (d.quickstop || f.rule.fatal) .fatal
    leave f.rule f.target dyn .running
  | some rc => do
    let status ← endForeground d E f.rule rc
    stopIf (d.quickstop || f.rule.fatal) .fatal
    leave f.rule f.target dyn status

theorem close_tracks (f : Frame) (dyn : List Name) (status : Status) :
    Tracks (next d E) .fuel (close d f dyn status p)
      (do stopIf (d.quickstop || f.rule.fatal) .fatal; leave f.rule f.target dyn status)
      (.ret f.target · :: p) :=
  Tracks.bind fun _ => Tracks.last _ _

theorem slots_follows (f : Frame) (dyn : List Name) (notify : RuleTarget) (n i : Nat)
    (todo : List Script) :
    Follows (next d E) .fuel
      (do waitForJobSlots d E n
          addNewJob E f.rule notify i todo
          afterScripts d E f dyn none)
      (.rule (f.goto (.slots dyn notify n i todo)) :: p) (.ret f.target · :: p) := by
  induction n with
  | zero => exact Follows.of_next (Tracks.bind fun _ => close_tracks f dyn .running)
  | succ n ih =>
    refine Follows.of_next ?_
    unfold waitForJobSlots
    rw [bind_assoc]
    refine Tracks.bind fun w => ?_
    by_cases hw : d.maxjobs ≤ w.running.length
    · simp only [hw, if_true, bind_assoc]
      exact Tracks.bind fun _ => Tracks.pure ih
    · simp only [hw, if_false, pure_bind]
      exact Tracks.bind fun _ => close_tracks f dyn .running

theorem runScripts_follows (f : Frame) (dyn : List Name) (i : Nat) (todo : List Script) :
    Follows (next d E) .fuel
      (runScripts d E f.rule (forkNotify d f.rule f.notify) i todo >>= afterScripts d E f dyn)
      (.rule (f.goto (.scripts dyn i todo)) :: p) (.ret f.target · :: p) := by
  have hended : ∀ rc, Follows (next d E) .fuel (afterScripts d E f dyn (some rc))
      (.rule (f.goto (.ended dyn rc)) :: p) (.ret f.target · :: p) := fun rc =>
    Follows.of_next (Tracks.bind fun status => close_tracks f dyn status)
  induction todo generalizing i with
  | nil => exact Follows.of_next (Tracks.pure (hended 0))
  | cons script todo ih =>
    refine Follows.of_next ?_
    unfold runScripts
    rw [bind_assoc]
    refine Tracks.bind fun w => ?_
    rw [bind_assoc]
    refine Tracks.bind fun res => ?_
    simp only [Frame.goto_rule, Frame.goto_notify, Frame.goto_goto]
    cases if res.run then forkNotify d f.rule f.notify else none with
    | some notify =>
      simp only [forkJob, bind_assoc, pure_bind]
      refine Tracks.bind fun _ => Tracks.bind fun w => Tracks.pure ?_
      exact slots_follows f dyn notify w.running.length i (script :: todo)
    | none =>
      simp only [bind_assoc]
      refine Tracks.bind fun _ => ?_
      exact Tracks.ite (fun _ => Tracks.pure (hended res.rc)) (fun _ => Tracks.pure (ih (i + 1)))

theorem firstScript_tracks (f : Frame) (dyn : List Name) :
    Tracks (next d E) .fuel (firstScript d f dyn p)
      (match (if f.rule.slow then forkNotify d f.rule f.notify else none) with
        | some notify => do
          forkJob d E f.rule notify 0 f.rule.doList
          afterScripts d E f dyn none
        | none =>
          runScripts d E f.rule (forkNotify d f.rule f.notify) 0 f.rule.doList >>=
            afterScripts d E f dyn)
      (.ret f.target · :: p) := by
  unfold firstScript
  cases if f.rule.slow then forkNotify d f.rule f.notify else none with
  | some notify =>
    simp only [forkJob, bind_assoc]
    exact Tracks.bind fun w => Tracks.pure (slots_follows f dyn notify _ 0 _)
  | none => exact Tracks.pure (runScripts_follows f dyn 0 _)

/-- What `finish` does with a rule that has to be built. -/
theorem launch_follows (f : Frame) (dyn : List Name) :
    Follows (next d E) .fuel
      (do let status ← runRule d E f.rule f.target f.notify (d.vardict f.rule) dyn
          leave f.rule f.target dyn status)
      (.rule (f.goto (.launch dyn)) :: p) (.ret f.target · :: p) := by
  refine Follows.of_next ?_
  unfold runRule
  rw [bind_assoc]
  refine Tracks.bind fun _ => ?_
  by_cases hn : d.norun ≠ 0
  · rw [if_pos hn, if_pos hn]
    simp only [bind_assoc, pure_bind]
    exact Tracks.bind fun status => close_tracks f dyn status
  · rw [if_neg hn, if_neg hn]
    simp only [startRule, bind_assoc, pure_bind]
    refine Tracks.bind fun _ => ?_
    have h := firstScript_tracks (d := d) (E := E) (p := p) f dyn
    cases hs : (if f.rule.slow then forkNotify d f.rule f.notify else none) with
    | some notify =>
      simp only [hs, bind_assoc, pure_bind] at h ⊢
      exact h
    | none =>
      simp only [hs, bind_assoc] at h ⊢
      refine (congrArg (Tracks (next d E) .fuel (firstScript d f dyn p) · (.ret f.target · :: p))
        (bind_congr fun rc => ?_)).mpr h
      cases rc <;> rfl

/-- From the point where the dependencies are known, `finish` is what the machine does. -/
theorem finish_follows (f : Frame) (dyn : List Name) :
    Follows (next d E) .fuel (finish d E f.rule f.target f.notify dyn f.status)
      (.rule (f.goto (.check dyn)) :: p) (.ret f.target · :: p) := by
  refine Follows.of_next ?_
  unfold finish
  refine Tracks.bind fun status => ?_
  simp only [Frame.goto_rule, Frame.goto_target]
  by_cases hb : (status = .built && !f.rule.doList.isEmpty) = true
  · simp only [hb, if_true]
    exact Tracks.pure (launch_follows { f with status } dyn)
  · simp only [hb, Bool.false_eq_true, if_false, pure_bind]
    exact Tracks.last _ _

/-- `build` for a rule that has just been entered. -/
theorem buildRule_follows {bld : Name → Option RuleTarget → M Status} {sync : Name → M Status}
    (hbld : BuildFollows (d := d) (E := E) bld) (hsync : SyncFollows (d := d) (E := E) sync)
    (r : Rule) (target : Name) (notify : Option RuleTarget) :
    Tracks (next d E) .fuel
      (do enter r target
          let w ← get
          return .rule ⟨r, target, notify, initialStatus d r w.fs, .deps none [] r.depends⟩ :: p)
      (buildRule d E bld sync r target notify) (.ret target · :: p) := by
  refine Tracks.bind fun _ => Tracks.bind fun w => Tracks.pure ?_
  let f : Frame := ⟨r, target, notify, initialStatus d r w.fs, .deps none [] r.depends⟩
  refine (buildDeps_follows hbld f none [] r.depends).bind fun rets =>
    Follows.of_next (Tracks.pure ?_)
  by_cases hs : (depsStatus d r.phony rets f.status = .uptodate ||
      depsStatus d r.phony rets f.status = .built) = true
  · rw [if_pos hs]
    refine (calcDyndeps_follows hsync f hs).bind fun dyn => ?_
    let g : Frame := { f with status := depsStatus d r.phony rets f.status }
    refine (buildDeps_follows hbld g (some dyn) [] dyn).bind fun rets' => ?_
    exact Follows.of_next (Tracks.pure
      (finish_follows { g with status := depsStatus d r.phony rets' g.status } dyn))
  · have hp : afterStatic f (depsStatus d r.phony rets f.status) = .check [] := if_neg hs
    have h := finish_follows (d := d) (E := E) (p := p)
      { f with status := depsStatus d r.phony rets f.status } []
    rw [if_neg hs]
    rw [← hp] at h
    exact h

theorem syncLoop_follows {bld : Name → Option RuleTarget → M Status}
    (hbld : BuildFollows (d := d) (E := E) bld) (n : Nat) :
    SyncFollows (d := d) (E := E) (syncLoop d E bld n) := by
  induction n with
  | zero => exact fun t p => Follows.giveUp _ _
  | succ n ih =>
    intro t p
    refine (hbld t none _).bind fun status => ?_
    have h : Tracks (next d E) .fuel (resync d E status t p)
        (if status = .waiting || status = .running then (do
            let _ ← waitForOneJob d E
            syncLoop d E bld n t)
          else return status) (.ret t · :: p) := by
      unfold resync
      by_cases hs : (status = .waiting || status = .running) = true
      · rw [if_pos hs, if_pos hs]
        exact Tracks.bind fun _ => Tracks.pure (ih t p)
      · rw [if_neg hs, if_neg hs]
        exact Tracks.pure (Follows.pure (next d E) .fuel status (.ret t · :: p))
    exact Follows.of_next h

theorem build_follows (n : Nat) : BuildFollows (d := d) (E := E) (build d E n) := by
  induction n with
  | zero => exact fun t notify p => Follows.giveUp _ _
  | succ n ih =>
    intro t notify p
    have h : Tracks (next d E) .fuel (begin d t notify p) (build d E (n + 1) t notify)
        (.ret t · :: p) := by
      unfold build begin
      cases d.ruleFor t with
      | none => exact Tracks.last _ _
      | some r =>
        refine Tracks.bind fun w => ?_
        have hsettled : ∀ st, Tracks (next d E) .fuel
            (do emit (.returned t st); return .ret t st :: p)
            (do emit (.returned t st); return st) (.ret t · :: p) := fun st =>
          Tracks.bind fun _ => Tracks.pure (Follows.pure (next d E) .fuel st (.ret t · :: p))
        have hrule := buildRule_follows ih (syncLoop_follows ih n) (p := p) r t notify
        cases w.rulestatus r.target with
        | checking => exact Tracks.last _ _
        | unknown => exact hrule
        | waiting => exact hrule
        | running => exact hsettled .running
        | uptodate => exact hsettled .uptodate
        | built => exact hsettled .built
        | failed => exact hsettled .failed
    exact Follows.of_next h

/-- **`build-sync` does what the machine does**, whatever the bound on its recursion. -/
theorem buildSync_follows (n : Nat) (t : Name) :
    Follows (next d E) .fuel (buildSync d E n t) [.call t none, .sync t] (fun st => [.ret t st]) :=
  syncLoop_follows (build_follows n) n t []

end Tmake
