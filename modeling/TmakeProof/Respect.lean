import TmakeProof.Effects

/-! # What the whole engine respects

A relation between a state and a later one that every operation of the engine
respects is respected by `build` and `build-sync`, however they end.
`Basic` lists the small operations and `Respected` those that are put together of
them; the recursion, the loops and the exits in between are dealt with here, once.
The operations that only a real run performs are asked for without `--dry-run`
only.  The operations on a rule are asked for if the rule has a name in `T`, a set
of names that holds with a rule all that it needs (`Closed`): what is built for a
name in `T` respects `R`.
-/
namespace Tmake
open Weakest

/-- However `m` ends, the state it ends in is related by `R` to the one it started in. -/
abbrev Under (R : World → World → Prop) {α : Type} (m : M α) : Prop := Within (fun _ => False) R m

/-- A rule with a name in `T` needs names in `T` only. -/
def Desc.Closed (d : Desc) (T : Name → Prop) : Prop :=
  ∀ t r, T t → d.ruleFor t = some r → ∀ u, r.NeedsName u → T u

theorem Desc.closed_all (d : Desc) : d.Closed fun _ => True := fun _ _ _ _ _ _ => trivial

/-- The rule has a name in `T`. -/
def Desc.Within (d : Desc) (T : Name → Prop) (t : Name) (r : Rule) : Prop :=
  T t ∧ d.ruleFor t = some r

/-- The clock, the exit code and giving up respect `R`. -/
structure Elementary (d : Desc) (R : World → World → Prop) : Prop where
  ask : ∀ {α : Type} (question : Nat → α), Under R (ask question)
  stopped : Under R (emit .stopped)
  error : Under R (buildError d)

namespace Elementary
variable {d : Desc} {R : World → World → Prop} [IsPreorder World R] (h : Elementary d R)
include h

theorem exit {α : Type} (code : Nat) (why : Why) : Under R (tmakeExit code why : M α) :=
  Within.bind h.stopped fun _ => Within.throw id

theorem tclError {α : Type} : Under R (tclError : M α) :=
  Within.bind h.stopped fun _ => Within.throw id

theorem fatal {α : Type} (why : Why) : Under R (buildFatalError d why : M α) :=
  Within.bind h.error fun _ => h.exit 1 why

theorem errorIf (c : Bool) : Under R (buildErrorIf d c) :=
  Within.ite (fun _ => h.error) fun _ => Within.pure _

theorem signal (E : Env) : Under R (checkSignal E) :=
  Within.bind (h.ask _) fun _ => Within.ite (fun _ => h.exit _ _) fun _ => Within.pure _

theorem osCheck (E : Env) : Under R (osCheck E) :=
  Within.bind (h.ask _) fun _ => Within.ite (fun _ => h.tclError) fun _ => Within.pure _

theorem stopIf (c : Bool) (why : Why) : Under R (stopIf c why) :=
  Within.bind Within.get fun _ => Within.ite (fun _ => h.exit _ _) fun _ => Within.pure _

theorem substDo (vardict : List (String × String)) (scripts : List Script) :
    Under R (substDoOrExit d vardict scripts) := by
  unfold substDoOrExit
  split
  · exact Within.pure _
  · exact h.exit _ _

theorem depFailed (E : Env) (ret : Status) : Under R (depFailed d E ret) :=
  Within.bind (h.signal E) fun _ => Within.ite
    (fun _ => Within.bind Within.get fun _ => Within.bind (h.errorIf _) fun _ =>
      Within.ite (fun _ => h.exit _ _) fun _ => Within.pure _)
    fun _ => Within.pure _

theorem lookupFailed : Under R (lookupFailed d) :=
  Within.ite (fun _ => h.exit _ _) fun _ => h.error

theorem lookupFile {sync : Name → M Status} {f : Name} (hsync : Under R (sync f)) :
    Under R (lookupFile d sync f) :=
  Within.ite
    (fun _ => Within.bind hsync fun _ => Within.ite
      (fun _ => Within.bind Within.get fun _ => Within.pure _)
      fun _ => Within.bind h.lookupFailed fun _ => Within.pure _)
    fun _ => Within.bind Within.get fun _ => Within.pure _

end Elementary

/-- The operations of the checks respect `R`. -/
structure Hashes (d : Desc) (T : Name → Prop) (R : World → World → Prop) : Prop extends
    Elementary d R where
  srchash : ∀ file x, Under R (modifyCache fun c => { c with
    srchash := c.srchash.insert file x, writecache := true })
  dephash : ∀ {r t}, d.Within T t r → ∀ x, Under R (modifyCache fun c => { c with
    dephash := c.dephash.insert r.target x, writecache := true })

namespace Hashes
variable {d : Desc} {E : Env} {T : Name → Prop} {R : World → World → Prop} [IsPreorder World R]
  (h : Hashes d T R)
include h

theorem getFileHash (file : Path) (usehashes : Bool) :
    Under R (getFileHash d E file usehashes) := by
  refine Within.bind Within.get fun w => ?_
  split
  · exact h.tclError
  · refine Within.ite (fun _ => Within.pure _) fun _ => ?_
    split
    · refine Within.ite (fun _ => Within.pure _) fun _ => ?_
      exact Within.bind (h.srchash _ _) fun _ => Within.pure _
    · exact Within.bind (h.srchash _ _) fun _ => Within.pure _

theorem calcFileHash (file : Name) : Under R (calcFileHash d E file) := by
  unfold Tmake.calcFileHash
  split
  · refine Within.bind Within.get fun w => ?_
    split
    · exact Within.pure _
    · exact Within.ite (fun _ => h.getFileHash _ _) fun _ => Within.pure _
    · exact Within.ite (fun _ => Within.pure _) fun _ => h.tclError
  · exact h.getFileHash file false

theorem calcDeplistHash (l : List Name) : Under R (calcDeplistHash d E l) := by
  unfold Tmake.calcDeplistHash
  induction lsort l with
  | nil => exact Within.pure _
  | cons dep deps ih =>
    exact Within.bind (h.calcFileHash dep) fun _ => Within.bind ih fun _ => Within.pure _

theorem checkHash {r : Rule} {t : Name} (hr : d.Within T t r) (depends : List Name)
    (st : Status) : Under R (checkHash d E r depends st) :=
  Within.ite
    (fun _ => Within.bind
      (Within.bind Within.get fun _ => Within.bind (h.calcDeplistHash depends) fun _ =>
        Within.ite (fun _ => Within.pure _) fun _ =>
          Within.bind (h.dephash hr _) fun _ => Within.pure _)
      fun _ => Within.ite (fun _ => Within.pure _) fun _ => Within.pure _)
    fun _ => Within.ite
      (fun _ => Within.bind (h.calcDeplistHash depends) fun _ =>
        Within.bind (h.dephash hr _) fun _ => Within.pure _)
      fun _ => Within.pure _

theorem checkCommands (r : Rule) (vardict : List (String × String)) (st : Status) :
    Under R (checkCommands d r vardict st) := by
  refine Within.ite (fun _ => Within.bind Within.get fun w => ?_) fun _ => Within.pure _
  split
  · exact Within.pure _
  · exact Within.bind (h.substDo vardict _) fun _ => Within.pure _

theorem checkRule {r : Rule} {t : Name} (hr : d.Within T t r) (dyn : List Name)
    (st : Status) : Under R (checkRule d E r t (d.vardict r) dyn st) :=
  Within.bind Within.get fun _ => Within.bind (h.stopIf _ _) fun _ =>
    Within.bind (h.checkHash hr _ _) fun _ => Within.bind Within.get fun _ =>
      Within.bind (h.checkCommands _ _ _) fun _ => Within.bind Within.get fun _ => Within.pure _

end Hashes

/-- The operations of the checks respect `R`, and what precedes a `-do` list. -/
structure Checks (d : Desc) (E : Env) (T : Name → Prop) (R : World → World → Prop) : Prop extends
    Hashes d T R where
  forget : ∀ {r t}, d.Within T t r → Under R (modifyCache fun c =>
    if d.checkexternalcmds then { c with exec := c.exec.erase r.target } else c)
  msg : ∀ {r t}, d.Within T t r → Under R (runMsg E r.target)

namespace Checks
variable {d : Desc} {E : Env} {T : Name → Prop} {R : World → World → Prop} [IsPreorder World R]
  (h : Checks d E T R)
include h

theorem prepareRule {r : Rule} {t : Name} (hr : d.Within T t r) :
    Under R (prepareRule d E r) :=
  Within.bind (Within.ite (fun _ => h.fatal _) fun _ => Within.pure _) fun _ =>
    Within.bind (h.forget hr) fun _ => Within.bind (h.msg hr) fun _ => h.errorIf _

end Checks

/-- The small operations respect `R`: those of the checks, and the parts of running a rule and
of waiting for a job. -/
structure Basic (d : Desc) (E : Env) (T : Name → Prop) (R : World → World → Prop) : Prop extends
    Checks d E T R where
  returned : ∀ t st, Under R (emit (.returned t st))
  source : ∀ t, T t → Under R (buildSource t)
  enter : ∀ {r t}, d.Within T t r → Under R (enter r t)
  leave : ∀ {r t}, d.Within T t r → ∀ dyn st, Under R (leave r t dyn st)
  begin : d.norun = 0 → ∀ {r t}, d.Within T t r → ∀ dyn,
    Under R (beginRule d E r t (d.vardict r) dyn)
  cmds : d.norun = 0 → ∀ {r t}, d.Within T t r → ∀ cmds,
    Under R (recordCmds d E r.target cmds)
  exec : d.norun = 0 → ∀ {r t}, d.Within T t r → ∀ tick i fs,
    Under R (applyResult d E r.target (E.exec tick r.target (.script i) fs))
  fork : d.norun = 0 → ∀ {r t}, d.Within T t r → ∀ notify i scripts,
    Under R (addNewJob E r notify i scripts)
  post : ∀ ruletarget rc, Under R (targetPostBuild d E ruletarget rc)
  reap : ∀ i job w, w.running[i]? = some job → R w (final (reapJob d i job) w)
  notify : ∀ job, Under R (notifyJob d job)

namespace Basic
variable {d : Desc} {E : Env} {T : Name → Prop} {R : World → World → Prop} [IsPreorder World R]
  (h : Basic d E T R)
include h

theorem endForeground (r : Rule) (rc : Nat) : Under R (endForeground d E r rc) :=
  Within.bind (h.signal E) fun _ => Within.bind (h.post _ _) fun _ => Within.pure _

theorem waitForOneJob : Under R (waitForOneJob d E) := by
  intro w
  unfold Tmake.waitForOneJob
  rw [wp_bind, wp_get]
  split
  · exact refl_of R w
  · next first jobs hjobs =>
    rw [wp_bind]
    have hpick : wp (ask fun tick => E.pick tick % (first :: jobs).length)
        (fun i u => u.running = w.running ∧ i = E.pick w.tick % (first :: jobs).length)
        (fun _ _ => True) w := ⟨rfl, rfl⟩
    refine ((h.ask fun tick => E.pick tick % (first :: jobs).length) w).and hpick |>.imp ?_
      fun _ _ h => h.1
    rintro i u ⟨hwu, hrun, hi⟩
    have hlt : i < w.running.length := by
      rw [hi, hjobs]
      exact Nat.mod_lt _ (Nat.succ_pos _)
    have hjob : u.running[i]? = some (((first :: jobs)[i]?).getD first) := by
      rw [hrun, ← hjobs, List.getElem?_eq_getElem hlt, Option.getD_some]
    dsimp only
    generalize ((first :: jobs)[i]?).getD first = job at hjob
    have hreap : wp (reapJob d i job) (fun _ => R u) (fun _ => R u) u := by
      have hr := h.reap i job u hjob
      unfold final at hr
      unfold wp
      cases hm : reapJob d i job u <;> simpa only [hm] using hr
    have hrest : Under R (do
        targetPostBuild d E job.ruletarget (if job.ok then 0 else 1)
        notifyJob d job
        return true : M Bool) :=
      Within.bind (h.post _ _) fun _ => Within.bind (h.notify _) fun _ => Within.pure _
    rw [wp_bind]
    refine hreap.imp (fun _ v huv => ?_) fun _ _ huv => ⟨id, trans_of R hwu huv⟩
    exact (hrest v).imp (fun _ _ h' => trans_of R hwu (trans_of R huv h'))
      fun _ _ h' => ⟨h'.1, trans_of R hwu (trans_of R huv h'.2)⟩

end Basic

/-- Every operation of the engine respects `R`. -/
structure Respected (d : Desc) (E : Env) (T : Name → Prop) (R : World → World → Prop) : Prop extends
    Elementary d R where
  returned : ∀ t st, Under R (emit (.returned t st))
  source : ∀ t, T t → Under R (buildSource t)
  enter : ∀ {r t}, d.Within T t r → Under R (enter r t)
  leave : ∀ {r t}, d.Within T t r → ∀ dyn st, Under R (leave r t dyn st)
  check : ∀ {r t}, d.Within T t r → ∀ dyn st,
    Under R (checkRule d E r t (d.vardict r) dyn st)
  prepare : ∀ {r t}, d.Within T t r → Under R (prepareRule d E r)
  begin : d.norun = 0 → ∀ {r t}, d.Within T t r → ∀ dyn,
    Under R (beginRule d E r t (d.vardict r) dyn)
  cmds : d.norun = 0 → ∀ {r t}, d.Within T t r → ∀ cmds,
    Under R (recordCmds d E r.target cmds)
  exec : d.norun = 0 → ∀ {r t}, d.Within T t r → ∀ tick i fs,
    Under R (applyResult d E r.target (E.exec tick r.target (.script i) fs))
  fork : d.norun = 0 → ∀ {r t}, d.Within T t r → ∀ notify i scripts,
    Under R (addNewJob E r notify i scripts)
  ended : d.norun = 0 → ∀ {r t}, d.Within T t r → ∀ rc, Under R (endForeground d E r rc)
  wait : Under R (waitForOneJob d E)

namespace Respected
variable {d : Desc} {E : Env} {T : Name → Prop} {R : World → World → Prop} [IsPreorder World R]
  (h : Respected d E T R)
include h

/-! ## Running a rule -/

theorem waitForJobSlots (n : Nat) : Under R (waitForJobSlots d E n) := by
  induction n with
  | zero => exact Within.pure _
  | succ n ih =>
    exact Within.bind Within.get fun _ => Within.ite (fun _ => Within.bind h.wait fun _ => ih)
      fun _ => Within.pure _

theorem forkJob (hn : d.norun = 0) {r : Rule} {t : Name} (hr : d.Within T t r)
    (notify : RuleTarget) (i : Nat) (scripts : List Script) :
    Under R (forkJob d E r notify i scripts) :=
  Within.bind Within.get fun _ => Within.bind (h.waitForJobSlots _) fun _ => h.fork hn hr _ _ _

theorem runScripts (hn : d.norun = 0) {r : Rule} {t : Name} (hr : d.Within T t r)
    (notify : Option RuleTarget) (i : Nat) (scripts : List Script) :
    Under R (runScripts d E r notify i scripts) := by
  induction scripts generalizing i with
  | nil => exact Within.pure _
  | cons script scripts ih =>
    refine Within.bind Within.get fun w => ?_
    -- the result of the script is what the environment says it does
    intro s
    rw [wp_bind]
    have hres : wp (ask fun tick => E.exec tick r.target (.script i) w.fs)
        (fun res _ => ∃ tick, res = E.exec tick r.target (.script i) w.fs) (fun _ _ => True) s :=
      ⟨s.tick, rfl⟩
    refine (h.ask (fun tick => E.exec tick r.target (.script i) w.fs) s).and hres |>.imp ?_
      fun _ _ h => h.1
    rintro res u ⟨hsu, tick, rfl⟩
    have hlater {m : M (Option Nat)} (hm : Under R m) :
        wp m (fun _ => R s) (fun _ w' => ¬False ∧ R s w') u :=
      (hm u).imp (fun _ _ h' => trans_of R hsu h') fun _ _ h' => ⟨h'.1, trans_of R hsu h'.2⟩
    dsimp only
    cases (if (E.exec tick r.target (.script i) w.fs).run then notify else none) with
    | some n =>
      exact hlater (Within.bind (h.cmds hn hr _) fun _ => Within.bind (h.forkJob hn hr _ _ _)
        fun _ => Within.pure _)
    | none =>
      exact hlater (Within.bind (h.exec hn hr _ _ _) fun _ =>
        Within.ite (fun _ => Within.pure _) fun _ => ih (i + 1))

theorem startRule (hn : d.norun = 0) {r : Rule} {t : Name} (hr : d.Within T t r)
    (notify : Option RuleTarget) (dyn : List Name) :
    Under R (startRule d E r t notify (d.vardict r) dyn) := by
  refine Within.bind (h.begin hn hr dyn) fun _ => ?_
  dsimp only
  split
  · refine Within.bind (Within.bind (h.forkJob hn hr _ _ _) fun _ => Within.pure none) fun rc => ?_
    cases rc with
    | none => exact Within.pure _
    | some rc => exact h.ended hn hr rc
  · refine Within.bind (h.runScripts hn hr _ _ _) fun rc => ?_
    cases rc with
    | none => exact Within.pure _
    | some rc => exact h.ended hn hr rc

theorem runRule {r : Rule} {t : Name} (hr : d.Within T t r) (notify : Option RuleTarget)
    (dyn : List Name) : Under R (runRule d E r t notify (d.vardict r) dyn) := by
  have hdry : Under R (dryRun d r (d.vardict r)) :=
    Within.ite (fun _ => Within.bind (h.substDo _ _) fun _ => Within.pure _) fun _ => Within.pure _
  have hstop : ∀ st : Status, Under R (do Tmake.stopIf (d.quickstop || r.fatal) .fatal; return st) :=
    fun st => Within.bind (h.stopIf _ _) fun _ => Within.pure _
  exact Within.bind (h.prepare hr) fun _ => Within.ite (fun _ => Within.bind hdry hstop)
    fun hn => Within.bind (h.startRule (not_not.mp hn) hr notify dyn) hstop

theorem finish {r : Rule} {t : Name} (hr : d.Within T t r) (notify : Option RuleTarget)
    (dyn : List Name) (st : Status) : Under R (finish d E r t notify dyn st) :=
  Within.bind (h.check hr dyn st) fun _ => Within.ite
    (fun _ => Within.bind (h.runRule hr notify dyn) fun _ => h.leave hr dyn _)
    fun _ => Within.bind (Within.pure _) fun _ => h.leave hr dyn _

/-! ## The recursion -/

variable {bld : Name → Option RuleTarget → M Status} {sync : Name → M Status}

theorem buildDeps (hbld : ∀ t notify, T t → Under R (bld t notify)) (ruletarget : RuleTarget)
    {deps : List Name} (hdeps : ∀ t ∈ deps, T t) : Under R (buildDeps d E bld ruletarget deps) := by
  induction deps with
  | nil => exact Within.pure _
  | cons dep deps ih =>
    rw [List.forall_mem_cons] at hdeps
    exact Within.bind (hbld _ _ hdeps.1) fun _ => Within.bind (h.depFailed E _) fun _ =>
      Within.bind (ih hdeps.2) fun _ => Within.pure _

theorem runScan (hsync : ∀ t, T t → Under R (sync t)) {prog : Scan}
    (hprog : ∀ t, prog.Looks t → T t) : Under R (runScan d sync prog) := by
  induction prog with
  | done => exact Within.pure _
  | peek k ih => exact Within.bind Within.get fun w => ih w.fs fun t ht => hprog t (.peek w.fs ht)
  | lookup f keep k ih =>
    exact Within.bind (h.lookupFile (hsync f (hprog f .here))) fun found => Within.bind Within.get
      fun _ => Within.bind (ih found fun t ht => hprog t (.later found ht)) fun _ => Within.pure _

theorem scanInputs (hsync : ∀ t, T t → Under R (sync t)) {dyndep : Name → Dyndep}
    {inputs : List Name} (hinputs : ∀ i ∈ inputs, ∀ t, (dyndep i).scan.Looks t → T t) :
    Under R (scanInputs d sync dyndep inputs) := by
  induction inputs with
  | nil => exact Within.pure _
  | cons i inputs ih =>
    rw [List.forall_mem_cons] at hinputs
    exact Within.bind (h.runScan hsync hinputs.1) fun _ => Within.bind (ih hinputs.2) fun _ =>
      Within.pure _

theorem calcDyndeps (hsync : ∀ t, T t → Under R (sync t)) {r : Rule}
    (hr : ∀ t, r.NeedsName t → T t) : Under R (calcDyndeps d sync r) := by
  unfold Tmake.calcDyndeps
  split
  · exact Within.pure _
  · next dyndep hdyn =>
    exact h.scanInputs hsync fun i hi t ht => hr t (.inr ⟨dyndep, hdyn, i, hi, .inr ht⟩)

omit h in
omit [IsPreorder World R] in
/-- A scan finds what it looks up. -/
theorem runScan_looks (prog : Scan) (w : World) :
    wp (Tmake.runScan d sync prog) (fun l _ => ∀ t ∈ l, prog.Looks t) (fun _ _ => True) w := by
  induction prog generalizing w with
  | done => exact fun _ ht => absurd ht List.not_mem_nil
  | peek k ih =>
    exact (ih w.fs w).imp (fun _ _ h t ht => .peek w.fs (h t ht)) fun _ _ h => h
  | lookup f keep k ih =>
    unfold Tmake.runScan
    refine wp_bind_last fun found w' => ?_
    rw [wp_bind, wp_get, wp_bind]
    refine (ih found w').imp (fun rest _ h t ht => ?_) fun _ _ h => h
    split at ht
    · rcases List.mem_cons.mp ht with rfl | ht
      · exact .here
      · exact .later found (h t ht)
    · exact .later found (h t ht)

omit h in
omit [IsPreorder World R] in
theorem scanInputs_needs {dyndep : Name → Dyndep} (inputs : List Name) (w : World) :
    wp (Tmake.scanInputs d sync dyndep inputs)
      (fun l _ => ∀ t ∈ l, ∃ i ∈ inputs, t ∈ (dyndep i).named ∨ (dyndep i).scan.Looks t)
      (fun _ _ => True) w := by
  induction inputs generalizing w with
  | nil => exact fun _ ht => absurd ht List.not_mem_nil
  | cons i inputs ih =>
    unfold Tmake.scanInputs
    rw [wp_bind]
    refine (runScan_looks (dyndep i).scan w).imp (fun found w' hfound => ?_) fun _ _ h => h
    rw [wp_bind]
    refine (ih w').imp (fun rest _ hrest t ht => ?_) fun _ _ h => h
    simp only [List.mem_append] at ht
    rcases ht with (ht | ht) | ht
    · exact ⟨i, List.mem_cons_self, .inl ht⟩
    · exact ⟨i, List.mem_cons_self, .inr (hfound t ht)⟩
    · obtain ⟨j, hj, ht⟩ := hrest t ht
      exact ⟨j, List.mem_cons_of_mem _ hj, ht⟩

omit h in
omit [IsPreorder World R] in
/-- The dynamic dependencies of a rule are names that it needs. -/
theorem calcDyndeps_needs (r : Rule) (w : World) :
    wp (Tmake.calcDyndeps d sync r) (fun l _ => ∀ t ∈ l, r.NeedsName t) (fun _ _ => True) w := by
  unfold Tmake.calcDyndeps
  split
  · exact fun _ ht => absurd ht List.not_mem_nil
  · next dyndep hdyn =>
    refine (scanInputs_needs r.inputs w).imp (fun l _ h t ht => ?_) fun _ _ h => h
    obtain ⟨i, hi, ht⟩ := h t ht
    exact .inr ⟨dyndep, hdyn, i, hi, ht⟩

theorem buildRule (hbld : ∀ t notify, T t → Under R (bld t notify))
    (hsync : ∀ t, T t → Under R (sync t)) {r : Rule} {t : Name} (hr : d.Within T t r)
    (hneeds : ∀ t, r.NeedsName t → T t) (notify : Option RuleTarget) :
    Under R (buildRule d E bld sync r t notify) := by
  refine Within.bind (h.enter hr) fun _ => Within.bind Within.get fun w₀ => ?_
  refine Within.bind (h.buildDeps hbld _ fun t ht => hneeds t (.inl ht)) fun rets => ?_
  refine Within.ite (fun _ w => ?_) fun _ => h.finish hr notify _ _
  rw [wp_bind]
  refine ((h.calcDyndeps hsync hneeds w).and (calcDyndeps_needs r w)).imp ?_ fun _ _ h => h.1
  rintro dyn w' ⟨hww', hdyn⟩
  have hrest := Within.bind (h.buildDeps hbld r.target fun t ht => hneeds t (hdyn t ht))
    fun rets' => h.finish hr notify dyn
      (depsStatus d r.phony rets' (depsStatus d r.phony rets (initialStatus d r w₀.fs)))
  exact (hrest w').imp (fun _ _ h' => trans_of R hww' h') fun _ _ h' => ⟨h'.1, trans_of R hww' h'.2⟩

theorem syncLoop (hbld : ∀ t notify, T t → Under R (bld t notify)) (n : Nat) {t : Name}
    (ht : T t) : Under R (syncLoop d E bld n t) := by
  induction n with
  | zero => exact Within.throw id
  | succ n ih =>
    exact Within.bind (hbld t none ht) fun _ => Within.ite
      (fun _ => Within.bind h.wait fun _ => ih) fun _ => Within.pure _

/-- **`build` respects what its operations respect.** -/
theorem build (hT : d.Closed T) (n : Nat) {t : Name} (ht : T t) (notify : Option RuleTarget) :
    Under R (build d E n t notify) := by
  induction n generalizing t notify with
  | zero => exact Within.throw id
  | succ n ih =>
    unfold Tmake.build
    cases hr : d.ruleFor t with
    | none => exact h.source t ht
    | some r =>
      have hbld : ∀ t notify, T t → Under R (Tmake.build d E n t notify) :=
        fun t notify ht => ih ht notify
      have hrule := h.buildRule hbld (fun t ht => h.syncLoop hbld n ht) ⟨ht, hr⟩ (hT t r ht hr)
        notify
      refine Within.bind Within.get fun w => ?_
      have hsettled : ∀ st, Under R (do emit (.returned t st); return st : M Status) := fun st =>
        Within.bind (h.returned t st) fun _ => Within.pure _
      cases w.rulestatus r.target with
      | checking => exact h.fatal _
      | unknown => exact hrule
      | waiting => exact hrule
      | running => exact hsettled .running
      | uptodate => exact hsettled .uptodate
      | built => exact hsettled .built
      | failed => exact hsettled .failed

theorem buildSync (hT : d.Closed T) (n : Nat) {t : Name} (ht : T t) :
    Under R (buildSync d E n t) :=
  h.syncLoop (fun _ _ ht => h.build hT n ht _) n ht

theorem buildAll (hT : d.Closed T) (n : Nat) {ts : List Name} (hts : ∀ t ∈ ts, T t) :
    Under R (buildAll d E n ts) := by
  induction ts with
  | nil => exact Within.pure _
  | cons t ts ih =>
    rw [List.forall_mem_cons] at hts
    exact Within.bind (h.buildSync hT n hts.1) fun _ => ih hts.2

/-- Waiting for the jobs that are left when tmake exits. -/
theorem atExit (w : World) : R w (atExit d E w) := by
  have hdrain : ∀ n w, R w (drain d E n w) := by
    intro n
    induction n with
    | zero => exact refl_of R
    | succ n ih =>
      intro w
      unfold drain
      split
      · exact refl_of R w
      · refine trans_of R ?_ (ih _)
        exact h.wait.final w
  exact hdrain _ w

end Respected

/-- The small operations are enough. -/
theorem Basic.respected {d : Desc} {E : Env} {T : Name → Prop} {R : World → World → Prop} [IsPreorder World R]
    (h : Basic d E T R) : Respected d E T R where
  toElementary := h.toElementary
  returned := h.returned
  source := h.source
  enter := h.enter
  leave := h.leave
  check := h.checkRule
  prepare := h.prepareRule
  begin := h.begin
  cmds := h.cmds
  exec := h.exec
  fork := h.fork
  ended _ _ _ _ rc := h.endForeground _ rc
  wait := h.waitForOneJob

/-! ## Finishing a rule -/

/-- What `target-post-build` does for the targets `rt` respects `R`. -/
structure Finishing (d : Desc) (E : Env) (rt : RuleTarget) (R : World → World → Prop) : Prop extends
    Elementary d R where
  succeeded : Under R (emit (.succeeded rt))
  failed : Under R (emit (.failed rt))
  cache : ∀ f, Under R (modifyCache f)
  delete : Under R (putFiles (rt.map fun f => (d.fileBuild f, none)))
  onerror : Under R (runDo E rt .onerror)
  ending : Under R (runDo E rt .finally)
  count : ∀ r, Under R (countTarget r)
  status : ∀ st, Under R (setRuleStatus rt st)
  forget : Under R (modify fun w => { w with precache := Function.update w.precache rt none })

namespace Finishing
variable {d : Desc} {E : Env} {rt : RuleTarget} {R : World → World → Prop} [IsPreorder World R]
  (h : Finishing d E rt R)
include h

theorem recordTargets (r : Rule) (fs : List Name) (rc : Nat) :
    Under R (recordTargets d r rt fs rc) := by
  induction fs generalizing rc with
  | nil => exact Within.pure _
  | cons f fs ih =>
    exact Within.bind Within.get fun w => Within.ite
      (fun _ => Within.bind h.error fun _ => ih 3)
      fun _ => Within.bind (h.cache _) fun _ => ih rc

theorem recordBuilt (info : PreInfo) (rc : Nat) : Under R (recordBuilt d info rt rc) :=
  Within.bind Within.get fun _ => Within.ite
    (fun _ => Within.bind (h.recordTargets _ _ _) fun _ => Within.bind (h.substDo _ _) fun _ =>
      Within.bind (h.cache _) fun _ => Within.pure _)
    fun _ => Within.pure _

theorem judgeTargets (r : Rule) (rc : Nat) : Under R (judgeTargets d E r rt rc) :=
  Within.ite (fun _ => Within.bind (h.count r) fun _ => Within.pure _)
    fun _ => Within.bind h.failed fun _ => Within.bind (h.osCheck E) fun _ =>
      Within.bind h.delete fun _ => Within.bind (h.cache _) fun _ =>
        Within.bind h.onerror fun _ => Within.bind (h.errorIf _) fun _ => Within.pure _

theorem runFinally (st : Status) : Under R (runFinally d E rt st) :=
  Within.bind h.ending fun _ => Within.ite
    (fun _ => Within.bind h.error fun _ => Within.pure _) fun _ => Within.pure _

theorem targetPostBuild (rc : Nat) : Under R (targetPostBuild d E rt rc) := by
  refine Within.bind Within.get fun w => ?_
  split
  · exact h.tclError
  · next info _ =>
    apply Within.bind
    · exact Within.ite (fun _ => h.succeeded) fun _ => Within.pure _
    intro _
    refine Within.bind (h.recordBuilt info rc) fun rc => ?_
    refine Within.bind (h.judgeTargets info.rule rc) fun st => ?_
    refine Within.bind (h.runFinally st) fun st => ?_
    exact Within.bind (h.status st) fun _ => h.forget

end Finishing

/-! ## Relations that only read the history

Most operations neither note a moment that begins something, nor start or reap a
job, nor look at a source file.  For a relation that reads nothing else, only the
operations that do are left to be looked at. -/

/-- The moments of `make` itself. -/
def Event.ofMake : Event → Bool
  | .loads _ | .loaded .. | .reloaded | .orphans _ | .request .. => true
  | _ => false

/-- A moment of the engine at which nothing begins. -/
def Event.minor : Event → Bool
  | .start .. | .forked _ => false
  | e => !e.ofMake

/-- Nothing is noted, no job is started or reaped and no source file is looked at. -/
structure Silent (w w' : World) : Prop where
  running : w'.running = w.running
  targetstatus : w'.targetstatus = w.targetstatus
  trace : w'.trace = w.trace
  past : w'.past = w.past

/-- `R` respects what is silent, and minor moments. -/
structure Logs (R : World → World → Prop) : Prop where
  silent : ∀ {w w'}, Silent w w' → R w w'
  log : ∀ e : Event, e.minor = true → Under R (emit e)

namespace Logs
variable {d : Desc} {E : Env} {T : Name → Prop} {R : World → World → Prop} (h : Logs R)
include h

theorem alter {f : World → World} (hf : ∀ w, Silent w (f w)) : Under R (modify f : M Unit) :=
  Within.modify fun w => h.silent (hf w)

theorem modifyCache (f : Cache → Cache) : Under R (modifyCache f) :=
  h.alter fun _ => ⟨rfl, rfl, rfl, rfl⟩

theorem putFiles (puts : List (Path × Option Node)) : Under R (putFiles puts) :=
  h.alter fun _ => ⟨rfl, rfl, rfl, rfl⟩

theorem ask {α : Type} (question : Nat → α) : Under R (ask question) :=
  Within.modifyGet fun _ => h.silent ⟨rfl, rfl, rfl, rfl⟩

theorem elementary : Elementary d R where
  ask := h.ask
  stopped := h.log _ rfl
  error := h.alter fun _ => ⟨rfl, rfl, rfl, rfl⟩

theorem hashes : Hashes d T R where
  toElementary := h.elementary
  srchash _ _ := h.modifyCache _
  dephash _ _ := h.modifyCache _

variable [IsPreorder World R]

theorem runDo (r : RuleTarget) (part : Part) : Under R (runDo E r part) :=
  Within.bind Within.get fun _ => Within.bind (h.ask _) fun _ =>
    Within.bind (h.putFiles _) fun _ => Within.pure _

theorem checks : Checks d E T R where
  toHashes := h.hashes
  forget _ := h.modifyCache _
  msg _ := Within.bind (h.log _ rfl) fun _ => h.runDo _ _

theorem finishing (rt : RuleTarget) : Finishing d E rt R where
  toElementary := h.elementary
  succeeded := h.log _ rfl
  failed := h.log _ rfl
  cache := h.modifyCache
  delete := h.putFiles _
  onerror := h.runDo _ _
  ending := h.runDo _ _
  count _ := h.alter fun _ => ⟨rfl, rfl, rfl, rfl⟩
  status _ := h.alter fun _ => ⟨rfl, rfl, rfl, rfl⟩
  forget := h.alter fun _ => ⟨rfl, rfl, rfl, rfl⟩

theorem targetPostBuild (rt : RuleTarget) (rc : Nat) : Under R (targetPostBuild d E rt rc) :=
  (h.finishing rt).targetPostBuild rc

theorem notifyJob (job : Job) : Under R (notifyJob d job) :=
  Within.ite (fun _ => h.alter fun _ => ⟨rfl, rfl, rfl, rfl⟩)
    fun _ => Within.bind (h.log _ rfl) fun _ =>
      Within.bind (h.alter fun _ => ⟨rfl, rfl, rfl, rfl⟩) fun _ => Within.ite
        (fun _ => Within.bind Within.get fun _ => h.elementary.exit (d := d) _ _)
        fun _ => Within.pure _

theorem waitForOneJob
    (hreap : ∀ i, Under R (modify fun w => { w with running := w.running.eraseIdx i } : M Unit)) :
    Under R (waitForOneJob d E) := by
  have he : Elementary d R := h.elementary
  refine Within.bind Within.get fun w => ?_
  split
  · exact Within.pure _
  · refine Within.bind (h.ask _) fun i => Within.bind ?_ fun _ => ?_
    · exact Within.bind (hreap i) fun _ => Within.bind (h.putFiles _) fun _ => he.errorIf _
    · exact Within.bind (h.targetPostBuild _ _) fun _ => Within.bind (h.notifyJob _) fun _ =>
        Within.pure _

/-- What is left to be looked at: source files, the beginnings of `-do` lists, and jobs. -/
theorem respected (hsource : ∀ t, T t → Under R (buildSource t))
    (hstart : ∀ {r t}, d.Within T t r → ∀ dyn cmd, Under R (emit (.start r.target dyn cmd)))
    (hfork : ∀ {r t}, d.Within T t r → ∀ notify i scripts,
      Under R (addNewJob E r notify i scripts))
    (hwait : Under R (Tmake.waitForOneJob d E)) : Respected d E T R where
  toElementary := h.elementary
  returned _ _ := h.log _ rfl
  source := hsource
  enter _ := h.alter fun _ => ⟨rfl, rfl, rfl, rfl⟩
  leave _ _ _ := Within.bind (h.alter fun _ => ⟨rfl, rfl, rfl, rfl⟩) fun _ =>
    Within.bind (h.log _ rfl) fun _ => Within.bind (h.log _ rfl) fun _ => Within.pure _
  check := h.hashes.checkRule
  prepare := h.checks.prepareRule
  begin _ _ _ hr _ := Within.bind (h.elementary.osCheck (d := d) E) fun _ =>
    Within.bind (h.alter fun _ => ⟨rfl, rfl, rfl, rfl⟩) fun _ => hstart hr _ _
  cmds _ _ _ _ _ := h.modifyCache _
  exec _ _ _ _ _ _ _ := Within.bind (h.modifyCache _) fun _ => Within.bind (h.putFiles _) fun _ =>
    Within.bind (h.elementary.errorIf (d := d) _) fun _ => h.alter fun _ => ⟨rfl, rfl, rfl, rfl⟩
  fork _ _ _ hr := hfork hr
  ended _ _ _ _ _ := Within.bind (h.elementary.signal (d := d) E) fun _ =>
    Within.bind (h.targetPostBuild _ _) fun _ => Within.pure _
  wait := hwait

end Logs

end Tmake
