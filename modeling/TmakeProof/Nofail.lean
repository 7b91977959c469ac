import TmakeProof.Existence

/-! # Rules with `-nofail`

`build` looks at the return code of each `-do` script and goes on if it is
`error` and the rule is `-nofail`.  A `run` whose command fails does not end its
script with `error`: it reports the message, which sets the exit code, and
returns `break`.  So what is ignored are the Tcl errors only.  The section on
the loop says when all scripts of a list are attempted, the one on
`target-post-build` what becomes of the rule then.
-/
namespace Tmake

open Weakest

variable {d : Desc} {E : Env} {r : Rule}

/-! ## The scripts of a list -/

/-- What the scripts of a `-do` list do one after the other when none of them ends the loop. -/
def results (E : Env) (r : Rule) : Nat → Nat → List Script → FS → List ScriptResult
  | _, _, [], _ => []
  | tick, i, _ :: scripts, fs =>
    let res := E.exec tick r.target (.script i) fs
    res :: results E r (tick + 1) (i + 1) scripts (fs.putAll res.puts)

/-- The file tree that they leave behind. -/
def filesAfter (fs : FS) (l : List ScriptResult) : FS :=
  l.foldl (fun fs res => fs.putAll res.puts) fs

/-- The script succeeds, or ends in a Tcl error. -/
def ScriptResult.Tolerated (res : ScriptResult) : Prop := res.rc = 0 ∨ res.rc = 1

theorem tolerated_iff (hr : r.nofail = true) (res : ScriptResult) :
    (res.rc ≠ 0 && !(r.nofail && res.rc = 1)) = false ↔ res.Tolerated := by
  unfold ScriptResult.Tolerated
  rw [hr]
  by_cases h0 : res.rc = 0
  · simp [h0]
  · simp [h0]

/-- The exit code once some scripts have reported the failure of a `run`. -/
def exitAfter (d : Desc) (exitcode : Nat) (l : List ScriptResult) : Nat :=
  if l.any (·.reported) && !d.configure then 1 else exitcode

theorem exitAfter_zero_iff (exitcode : Nat) (l : List ScriptResult) :
    (exitcode = 0 → exitAfter d exitcode l = 0) ↔
      (exitcode = 0 → d.configure = false → ∀ res ∈ l, res.reported = false) := by
  apply imp_congr_right
  rintro rfl
  cases hc : d.configure
  · simp [exitAfter, hc]
  · simp [exitAfter, hc]

/-- The parts of the state that no script touches. -/
structure Undisturbed (w w' : World) : Prop where
  precache : w'.precache = w.precache
  cleaning : w'.cleaning = w.cleaning
  trace : w'.trace = w.trace

theorem Undisturbed.trans {w₁ w₂ w₃ : World} (h : Undisturbed w₁ w₂) (h' : Undisturbed w₂ w₃) :
    Undisturbed w₁ w₃ :=
  ⟨h'.precache.trans h.precache, h'.cleaning.trans h.cleaning, h'.trace.trans h.trace⟩

theorem wp_applyResult (rt : RuleTarget) (res : ScriptResult) (w : World) :
    wp (applyResult d E rt res) (fun _ w' => Undisturbed w w' ∧ w'.tick = w.tick ∧
      w'.fs = w.fs.putAll res.puts ∧ w'.exitcode = exitAfter d w.exitcode [res])
      (fun _ _ => False) w := by
  simp only [applyResult, recordCmds, putFiles, buildErrorIf, buildError, modifyCache, exitAfter,
    wp_bind, wp_modify, wp_ite, wp_pure]
  constructor
  · intro hrep
    refine ⟨⟨rfl, rfl, rfl⟩, trivial, trivial, ?_⟩
    cases d.configure <;> simp [hrep]
  · intro hrep
    refine ⟨⟨rfl, rfl, rfl⟩, trivial, trivial, ?_⟩
    simp [hrep]

theorem exitAfter_cons (exitcode : Nat) (res : ScriptResult) (l : List ScriptResult) :
    exitAfter d (exitAfter d exitcode [res]) l = exitAfter d exitcode (res :: l) := by
  simp only [exitAfter, List.any_cons, List.any_nil, Bool.or_false]
  grind

/-- One script that does not fork: whether the loop goes on is a matter of its return code. -/
theorem runScripts_cons {notify : Option RuleTarget} {i : Nat} {w : World}
    {res : ScriptResult} (hres : E.exec w.tick r.target (.script i) w.fs = res)
    (hfork : notify = none ∨ res.run = false) (script : Script) (scripts : List Script) :
    ∃ w₁, Undisturbed w w₁ ∧ w₁.tick = w.tick + 1 ∧ w₁.fs = w.fs.putAll res.puts ∧
      w₁.exitcode = exitAfter d w.exitcode [res] ∧
      ((res.rc ≠ 0 && !(r.nofail && res.rc = 1)) = false →
        runScripts d E r notify i (script :: scripts) w =
          runScripts d E r notify (i + 1) scripts w₁) ∧
      ((res.rc ≠ 0 && !(r.nofail && res.rc = 1)) = true →
        runScripts d E r notify i (script :: scripts) w = .ok (some res.rc) w₁) := by
  have hnone : (if res.run then notify else none) = none := by
    rcases hfork with h | h <;> simp [h]
  have hasked : runScripts d E r notify i (script :: scripts) w =
      (do
        applyResult d E r.target res
        if res.rc ≠ 0 && !(r.nofail && res.rc = 1) then return some res.rc
        else runScripts d E r notify (i + 1) scripts : M (Option Nat))
        { w with tick := w.tick + 1 } := by
    rw [runScripts, get_bind_apply, bind_of_ok (a := res) (t := { w with tick := w.tick + 1 })]
    · rw [hnone]
    · rw [← hres]
      rfl
  have hspec := wp_applyResult (d := d) (E := E) r.target res { w with tick := w.tick + 1 }
  cases happ : applyResult d E r.target res { w with tick := w.tick + 1 } with
  | error e t => exact (wp_of_error happ hspec).elim
  | ok u w₁ =>
    obtain ⟨hun, htick, hfs, hexit⟩ := wp_of_ok happ hspec
    rw [bind_of_ok happ] at hasked
    refine ⟨w₁, ⟨hun.precache, hun.cleaning, hun.trace⟩, htick, hfs, hexit, ?_, ?_⟩
    · intro hgo
      rw [hasked, hgo]
      rfl
    · intro hstop
      rw [hasked, hstop]
      rfl

/-- The scripts before the first that forks: the loop comes to the others exactly if they are
all tolerated, and then it has evaluated them. -/
theorem runScripts_append (hr : r.nofail = true) {notify : Option RuleTarget} {i : Nat} {w : World}
    (pre : List Script)
    (hfork : notify = none ∨ ∀ res ∈ results E r w.tick i pre w.fs, res.run = false)
    (scripts : List Script) :
    ((∀ res ∈ results E r w.tick i pre w.fs, res.Tolerated) →
      ∃ w₁, Undisturbed w w₁ ∧ w₁.tick = w.tick + pre.length ∧
        w₁.fs = filesAfter w.fs (results E r w.tick i pre w.fs) ∧
        w₁.exitcode = exitAfter d w.exitcode (results E r w.tick i pre w.fs) ∧
        runScripts d E r notify i (pre ++ scripts) w =
          runScripts d E r notify (i + pre.length) scripts w₁) ∧
    ((∃ res ∈ results E r w.tick i pre w.fs, ¬res.Tolerated) →
      ∃ n w₁, Undisturbed w w₁ ∧ n ≠ 0 ∧
        runScripts d E r notify i (pre ++ scripts) w = .ok (some n) w₁) := by
  induction pre generalizing i w with
  | nil =>
    refine ⟨fun _ => ⟨w, ⟨rfl, rfl, rfl⟩, rfl, rfl, by simp [results, exitAfter], rfl⟩, ?_⟩
    rintro ⟨res, hres, -⟩
    cases hres
  | cons script pre ih =>
    set res := E.exec w.tick r.target (.script i) w.fs with hres
    have hfork₁ : notify = none ∨ res.run = false :=
      hfork.imp_right fun h => h res List.mem_cons_self
    obtain ⟨w₁, hun, htick, hfs, hexit, hgo, hstop⟩ :=
      runScripts_cons (d := d) hres.symm hfork₁ script (pre ++ scripts)
    have hlist : results E r w.tick i (script :: pre) w.fs =
        res :: results E r w₁.tick (i + 1) pre w₁.fs := by
      simp only [results, htick, hfs, ← hres]
    rw [hlist] at hfork ⊢
    have hfork₂ := hfork.imp_right fun h x hx => h x (List.mem_cons_of_mem res hx)
    obtain ⟨ihgo, ihstop⟩ := ih hfork₂
    constructor
    · intro hall
      obtain ⟨w₂, hun₂, htick₂, hfs₂, hexit₂, hrun⟩ :=
        ihgo fun x hx => hall x (List.mem_cons_of_mem _ hx)
      refine ⟨w₂, hun.trans hun₂, ?_, ?_, ?_, ?_⟩
      · simp only [htick₂, htick, List.length_cons]
        omega
      · simp only [hfs₂, hfs, filesAfter, List.foldl_cons]
      · rw [hexit₂, hexit, exitAfter_cons]
      · rw [List.cons_append, hgo ((tolerated_iff hr res).2 (hall res List.mem_cons_self)), hrun,
          List.length_cons]
        congr 1
        omega
    · rintro ⟨x, hx, hnot⟩
      by_cases htol : res.Tolerated
      · have hx' : x ∈ results E r w₁.tick (i + 1) pre w₁.fs := by
          rcases List.mem_cons.1 hx with rfl | h
          · exact (hnot htol).elim
          · exact h
        obtain ⟨n, w₂, hun₂, hn, hrun⟩ := ihstop ⟨x, hx', hnot⟩
        exact ⟨n, w₂, hun.trans hun₂, hn, (hgo ((tolerated_iff hr res).2 htol)).trans hrun⟩
      · have hbreak := mt (tolerated_iff hr res).1 htol
        rw [Bool.not_eq_false] at hbreak
        exact ⟨res.rc, w₁, hun, fun h => htol (Or.inl h), hstop hbreak⟩

/-! ## What becomes of the rule -/

/-- `target-post-build` finds the targets of the rule, or does not look for them. -/
def Makes (d : Desc) (r : Rule) (cleaning : Bool) (fs : FS) : Prop :=
  r.phony = true ∨ cleaning = true ∨ ∀ f ∈ r.target, fs.Dated (d.fileBuild f) r.symlink

/-- The rule is being built, and its `-do` list can be substituted. -/
structure InHand (d : Desc) (r : Rule) (w : World) : Prop where
  info : ∃ info, w.precache r.target = some info ∧ info.rule = r ∧
    ∃ cmd, substDo d info.vardict r.doList = some cmd

/-- Nothing but the `-do` scripts of the rule can fail: no signal arrives and the `-finally`
script succeeds. -/
structure OnlyScriptsFail (E : Env) (r : Rule) : Prop where
  signal : ∀ tick, E.signal tick = false
  ending : ∀ tick fs, (E.exec tick r.target .finally fs).rc = 0

/-- The rule is built, was not treated as failed (which is when `-onerror` runs), and the exit
code is still 0 if it was. -/
structure Forgiven (r : Rule) (w w' : World) : Prop where
  built : w'.rulestatus r.target = .built
  noOnerror : ∃ new, w'.trace = new ++ w.trace ∧ ∀ m ∈ new, m.event ≠ .failed r.target
  exit : w.exitcode = 0 → w'.exitcode = 0

theorem wp_recordBuilt {w : World} {info : PreInfo} (hrule : info.rule = r)
    (hsubst : ∃ cmd, substDo d info.vardict r.doList = some cmd) (rc : Nat) :
    wp (recordBuilt d info r.target rc)
      (fun rc' w' => (rc' = 0 ↔ rc = 0 ∧ Makes d r w.cleaning w.fs) ∧
        (rc' = 0 → ∃ c, w' = { w with cache := c })) (fun _ _ => False) w := by
  unfold recordBuilt
  simp only [wp_bind, wp_get, wp_ite, hrule]
  constructor
  · intro hc
    obtain ⟨⟨h0, hphony⟩, hclean⟩ : (rc = 0 ∧ r.phony = false) ∧ w.cleaning = false := by
      simpa using hc
    have hmakes : Makes d r w.cleaning w.fs ↔
        ∀ f ∈ r.target, w.fs.Dated (d.fileBuild f) r.symlink := by
      simp [Makes, hphony, hclean]
    apply (wp_recordTargets d r r.target r.target rc w).imp ?_ (fun _ _ h => h)
    rintro rc' w₁ ⟨hrc, hsame⟩
    obtain ⟨cmd, hcmd⟩ := hsubst
    simp only [substDoOrExit, hcmd, modifyCache]
    rw [hmakes]
    by_cases hall : ∀ f ∈ r.target, w.fs.Dated (d.fileBuild f) r.symlink
    · obtain ⟨rfl, c, rfl⟩ := hsame hall
      exact ⟨⟨fun _ => ⟨h0, hall⟩, fun _ => h0⟩, fun _ => ⟨_, rfl⟩⟩
    · have h3 : rc' = 3 := hrc.2 (Or.inr (by simpa using hall))
      refine ⟨⟨fun h => ?_, fun h => (hall h.2).elim⟩, fun h => ?_⟩
      · omega
      · omega
  · intro hc
    show (rc = 0 ↔ rc = 0 ∧ Makes d r w.cleaning w.fs) ∧ (rc = 0 → ∃ c, w = { w with cache := c })
    refine ⟨⟨fun h => ⟨h, ?_⟩, fun h => h.1⟩, fun _ => ⟨w.cache, rfl⟩⟩
    by_cases hp : r.phony = true
    · exact Or.inl hp
    · refine Or.inr (Or.inl ?_)
      by_contra hclean
      apply hc
      simpa [h, hp] using hclean

theorem wp_runFinally (hE : OnlyScriptsFail E r) (st : Status) (w : World) :
    wp (runFinally d E r.target st) (fun st' w' => st' = st ∧ w'.exitcode = w.exitcode ∧
      w'.trace = w.trace) (fun _ _ => False) w := by
  simp only [runFinally, runDo, ask, putFiles, wp_bind, wp_get, wp_modifyGet, wp_modify, wp_pure,
    wp_ite, hE.ending]
  exact ⟨fun h => (h rfl).elim, fun _ => ⟨trivial, trivial, trivial⟩⟩

/-- `target-post-build` forgives the rule exactly if the scripts were tolerated and the targets
are found. -/
theorem wp_targetPostBuild (hE : OnlyScriptsFail E r) {w : World} (hw : InHand d r w) (rc : Nat) :
    wp (targetPostBuild d E r.target rc)
      (fun _ w' => (rc = 0 ∧ Makes d r w.cleaning w.fs →
          w'.exitcode = w.exitcode ∧ w'.rulestatus r.target = .built ∧
          ∃ new, w'.trace = new ++ w.trace ∧ ∀ m ∈ new, m.event ≠ .failed r.target) ∧
        (¬(rc = 0 ∧ Makes d r w.cleaning w.fs) → w'.rulestatus r.target = .failed))
      (fun _ _ => ¬(rc = 0 ∧ Makes d r w.cleaning w.fs)) w := by
  obtain ⟨info, hinfo, hrule, hsubst⟩ := hw.info
  simp only [targetPostBuild, wp_bind, wp_get, hinfo]
  -- the state in which the targets are looked for
  have hnote : wp (noteSuccess r.target rc) (fun _ w₁ => w₁.fs = w.fs ∧ w₁.cleaning = w.cleaning ∧
      w₁.exitcode = w.exitcode ∧
      ∃ new, w₁.trace = new ++ w.trace ∧ ∀ m ∈ new, m.event ≠ .failed r.target)
      (fun _ _ => False) w := by
    simp only [noteSuccess, emit, wp_ite, wp_modify, wp_pure]
    refine ⟨fun _ => ⟨trivial, trivial, trivial, [_], rfl, by simp⟩,
      fun _ => ⟨trivial, trivial, trivial, [], rfl, by simp⟩⟩
  apply hnote.imp ?_ (fun _ _ h => h.elim)
  rintro - w₁ ⟨hfs, hclean, hexit, htrace⟩
  rw [← hfs, ← hclean, wp_bind]
  apply (wp_recordBuilt hrule hsubst rc).imp ?_ (fun _ _ h => h.elim)
  rintro rc' w₂ ⟨hrc, hsame⟩
  rw [← hrc, wp_bind, judgeTargets, wp_ite]
  constructor
  · intro h0
    obtain ⟨c, rfl⟩ := hsame h0
    simp only [countTarget, wp_bind, wp_modify, wp_pure]
    apply (wp_runFinally hE _ _).imp ?_ (fun _ _ h => h.elim)
    rintro st w₃ ⟨rfl, hexit₃, htrace₃⟩
    simp only [setRuleStatus, wp_bind, wp_modify]
    refine ⟨fun _ => ⟨hexit₃.trans hexit, Function.update_self .., ?_⟩, fun h => (h h0).elim⟩
    exact htrace₃ ▸ htrace
  · intro h0
    apply (recordFailure_failed _ _ _).imp ?_ (fun _ _ _ => h0)
    rintro st w₃ rfl
    rw [wp_bind]
    apply (wp_runFinally hE _ _).imp ?_ (fun _ _ h => h.elim)
    rintro st w₄ ⟨rfl, -, -⟩
    simp only [setRuleStatus, wp_bind, wp_modify]
    exact ⟨fun h => (h0 h).elim, fun _ => Function.update_self ..⟩

/-! ## In this process -/

/-- The `-do` list of the rule, run here: all scripts are attempted and the rule is forgiven. -/
def ForgivesHere (d : Desc) (E : Env) (r : Rule) (w : World) : Prop :=
  wp (runScripts d E r none 0 r.doList)
    (fun rc w₁ => w₁.tick = w.tick + r.doList.length ∧ ∃ n, rc = some n ∧
      wp (endForeground d E r n) (fun st w₂ => st = .built ∧ Forgiven r w w₂)
        (fun _ _ => False) w₁)
    (fun _ _ => False) w

theorem InHand.of_undisturbed {w w' : World} (hw : InHand d r w) (h : Undisturbed w w') :
    InHand d r w' := by
  obtain ⟨info, hinfo, hinfo'⟩ := hw.info
  exact ⟨info, by rw [h.precache, hinfo], hinfo'⟩

/-- The end of a list in this process. -/
theorem wp_endForeground (hE : OnlyScriptsFail E r) {w : World} (hw : InHand d r w) (n : Nat) :
    wp (endForeground d E r n)
      (fun st w' => (n = 0 ∧ Makes d r w.cleaning w.fs →
          st = .built ∧ w'.exitcode = w.exitcode ∧ w'.rulestatus r.target = .built ∧
          ∃ new, w'.trace = new ++ w.trace ∧ ∀ m ∈ new, m.event ≠ .failed r.target) ∧
        (¬(n = 0 ∧ Makes d r w.cleaning w.fs) → w'.rulestatus r.target = .failed))
      (fun _ _ => ¬(n = 0 ∧ Makes d r w.cleaning w.fs)) w := by
  have hsignal : wp (checkSignal E) (fun _ w₁ => w₁ = { w with tick := w.tick + 1 })
      (fun _ _ => False) w := by
    simp only [checkSignal, ask, wp_bind, wp_modifyGet, hE.signal]
    rfl
  rw [endForeground, wp_bind]
  apply hsignal.imp ?_ (fun _ _ h => h.elim)
  rintro - w₁ rfl
  rw [wp_bind]
  apply (wp_targetPostBuild (w := { w with tick := w.tick + 1 }) hE ⟨hw.info⟩ n).imp ?_
    (fun _ _ h => h)
  rintro - w₂ ⟨hgood, hbad⟩
  constructor
  · intro h
    exact ⟨by simp [h.1], hgood h⟩
  · exact hbad

/-- In this process: exactly when every script succeeds or ends in a Tcl error, no failing `run`
has set the exit code, and the targets are found. -/
theorem forgivesHere_iff (hr : r.nofail = true) (hE : OnlyScriptsFail E r) {w : World}
    (hw : InHand d r w) :
    ForgivesHere d E r w ↔
      (∀ res ∈ results E r w.tick 0 r.doList w.fs, res.Tolerated) ∧
      (w.exitcode = 0 → d.configure = false →
        ∀ res ∈ results E r w.tick 0 r.doList w.fs, res.reported = false) ∧
      Makes d r w.cleaning (filesAfter w.fs (results E r w.tick 0 r.doList w.fs)) := by
  obtain ⟨hgo, hstop⟩ := runScripts_append (d := d) (E := E) (i := 0) (w := w) hr r.doList
    (Or.inl rfl) []
  rw [List.append_nil] at hgo hstop
  by_cases hall : ∀ res ∈ results E r w.tick 0 r.doList w.fs, res.Tolerated
  · obtain ⟨w₁, hun, htick, hfs, hexit, hrun⟩ := hgo hall
    have hhere : ForgivesHere d E r w ↔ wp (endForeground d E r 0)
        (fun st w₂ => st = .built ∧ Forgiven r w w₂) (fun _ _ => False) w₁ := by
      unfold ForgivesHere
      rw [wp_congr_run hrun]
      show (w₁.tick = _ ∧ ∃ n, some 0 = some n ∧ _) ↔ _
      simp [htick]
    rw [hhere]
    rw [← hfs, ← hun.cleaning, ← exitAfter_zero_iff, ← hexit]
    apply (wp_endForeground hE (hw.of_undisturbed hun) 0).iff
    · rintro st w₂ ⟨hgood, hbad⟩
      by_cases hmakes : Makes d r w₁.cleaning w₁.fs
      · obtain ⟨hst, hexit₂, hbuilt, htrace⟩ := hgood ⟨rfl, hmakes⟩
        rw [hun.trace] at htrace
        rw [← hexit₂]
        exact ⟨fun h => ⟨hall, h.2.exit, hmakes⟩, fun h => ⟨hst, hbuilt, htrace, h.2.1⟩⟩
      · have hfailed := hbad fun h => hmakes h.2
        refine ⟨fun h => ?_, fun h => (hmakes h.2.2).elim⟩
        have hbuilt := h.2.built
        rw [hfailed] at hbuilt
        cases hbuilt
    · rintro - - hnot
      exact ⟨False.elim, fun h => hnot ⟨rfl, h.2.2⟩⟩
  · have hex : ∃ res ∈ results E r w.tick 0 r.doList w.fs, ¬res.Tolerated := by
      simpa using hall
    obtain ⟨n, w₁, hun, hn, hrun⟩ := hstop hex
    refine ⟨fun h => ?_, fun h => (hall h.1).elim⟩
    obtain ⟨-, n', hn', hend⟩ := wp_of_ok hrun h
    cases hn'
    have hnot : ¬(n = 0 ∧ Makes d r w₁.cleaning w₁.fs) := fun h => hn h.1
    have hboth := (wp_endForeground hE (hw.of_undisturbed hun) n).and hend
    exfalso
    refine wp_false (hboth.imp ?_ fun _ _ h => h.2)
    rintro st w₂ ⟨⟨-, hbad⟩, -, hforgiven⟩
    have hbuilt := hforgiven.built
    rw [hbad hnot] at hbuilt
    cases hbuilt

/-! ## In a child -/

/-- A `run` hands the rest of the list over to a child, instead of the list ending here. -/
def HandsOver (d : Desc) (E : Env) (r : Rule) (notify : RuleTarget) (w : World) : Prop :=
  wp (runScripts d E r (some notify) 0 r.doList) (fun rc _ => rc = none) (fun _ _ => True) w

/-- The list is handed over exactly if the scripts before the first that reaches `run` are
tolerated. -/
theorem handsOver_iff (hr : r.nofail = true) {w : World} {notify : RuleTarget}
    {pre rest : List Script} {script : Script} (hlist : r.doList = pre ++ script :: rest)
    (hpre : ∀ res ∈ results E r w.tick 0 pre w.fs, res.run = false)
    (hrun : (E.exec (w.tick + pre.length) r.target (.script (0 + pre.length))
      (filesAfter w.fs (results E r w.tick 0 pre w.fs))).run = true) :
    HandsOver d E r notify w ↔ ∀ res ∈ results E r w.tick 0 pre w.fs, res.Tolerated := by
  obtain ⟨hgo, hstop⟩ := runScripts_append (d := d) (i := 0) hr pre
    (Or.inr hpre : some notify = none ∨ _) (script :: rest)
  unfold HandsOver
  rw [hlist]
  by_cases hall : ∀ res ∈ results E r w.tick 0 pre w.fs, res.Tolerated
  · obtain ⟨w₁, -, htick, hfs, -, heq⟩ := hgo hall
    rw [← htick, ← hfs] at hrun
    refine ⟨fun _ => hall, fun _ => ?_⟩
    rw [wp_congr_run heq, runScripts]
    rw [wp_bind, wp_get, wp_bind]
    simp only [ask, wp_modifyGet, hrun, if_true]
    iterate 2 refine wp_bind_last fun _ _ => ?_
    rfl
  · have hex : ∃ res ∈ results E r w.tick 0 pre w.fs, ¬res.Tolerated := by
      simpa using hall
    obtain ⟨n, w₁, -, -, heq⟩ := hstop hex
    refine ⟨fun h => ?_, fun h => (hall h).elim⟩
    cases wp_of_ok heq h

/-- The child that `add-new-job` forks attempts all its scripts; and whenever it is the one that
`wait` returns, with its rule in hand and the targets found, the rule is forgiven. -/
def ForgivesChild (d : Desc) (E : Env) (r : Rule) (notify : RuleTarget) (i : Nat)
    (scripts : List Script) (w : World) : Prop :=
  wp (addNewJob E r notify i scripts)
    (fun _ w₁ => w₁.tick = w.tick + scripts.length ∧ ∃ job, w₁.running = w.running ++ [job] ∧
      ∀ w₂ : World, w₂.running[E.pick w₂.tick % w₂.running.length]? = some job → InHand d r w₂ →
        Makes d r w₂.cleaning (w₂.fs.putAll job.puts) →
        wp (waitForOneJob d E) (fun _ w₃ => Forgiven r w₂ w₃) (fun _ _ => False) w₂)
    (fun _ _ => False) w

/-- The scripts of a child are all evaluated, with return code 0, exactly if they are all
tolerated. -/
theorem childScripts_spec (hr : r.nofail = true) (tick i : Nat) (scripts : List Script) (fs : FS) :
    ((∀ res ∈ results E r tick i scripts fs, res.Tolerated) →
      (childScripts E r tick i scripts fs).1 = 0 ∧
      (childScripts E r tick i scripts fs).2.2.2 = tick + scripts.length) ∧
    ((∃ res ∈ results E r tick i scripts fs, ¬res.Tolerated) →
      (childScripts E r tick i scripts fs).1 ≠ 0) := by
  induction scripts generalizing tick i fs with
  | nil =>
    refine ⟨fun _ => ⟨rfl, rfl⟩, ?_⟩
    rintro ⟨res, hres, -⟩
    cases hres
  | cons script scripts ih =>
    obtain ⟨ihgo, ihstop⟩ := ih (tick + 1) (i + 1)
      (fs.putAll (E.exec tick r.target (.script i) fs).puts)
    simp only [results, childScripts]
    set res := E.exec tick r.target (.script i) fs
    by_cases htol : res.Tolerated
    · rw [(tolerated_iff hr res).2 htol]
      constructor
      · intro hall
        obtain ⟨hrc, htick⟩ := ihgo fun x hx => hall x (List.mem_cons_of_mem _ hx)
        refine ⟨hrc, htick.trans ?_⟩
        simp only [List.length_cons]
        omega
      · rintro ⟨x, hx, hnot⟩
        rcases List.mem_cons.1 hx with rfl | hx
        · exact (hnot htol).elim
        · exact ihstop ⟨x, hx, hnot⟩
    · have hbreak := mt (tolerated_iff hr res).1 htol
      rw [Bool.not_eq_false] at hbreak
      rw [hbreak]
      exact ⟨fun h => (htol (h _ List.mem_cons_self)).elim, fun _ h => htol (Or.inl h)⟩

theorem wp_reapJob (i : Nat) (job : Job) (w : World) :
    wp (reapJob d i job) (fun _ w' => Undisturbed w w' ∧ w'.fs = w.fs.putAll job.puts ∧
      (job.ok = true → w'.exitcode = w.exitcode)) (fun _ _ => False) w := by
  simp only [reapJob, putFiles, buildErrorIf, buildError, wp_bind, wp_modify, wp_ite, wp_pure]
  constructor
  · intro hreport
    refine ⟨⟨rfl, rfl, rfl⟩, trivial, fun hok => ?_⟩
    simp [hok] at hreport
  · intro _
    exact ⟨⟨rfl, rfl, rfl⟩, trivial, fun _ => trivial⟩

/-- Only a waiting rule is told of a success, and only a failure is told otherwise. -/
theorem wp_notifyJob (job : Job) (rt : RuleTarget) (w : World) :
    wp (notifyJob d job)
      (fun _ w' => (job.ok = true → w'.exitcode = w.exitcode ∧ w'.trace = w.trace ∧
          (w.rulestatus rt ≠ .waiting → w'.rulestatus rt = w.rulestatus rt)) ∧
        (job.ok = false → w.rulestatus rt = .failed → w'.rulestatus rt = .failed))
      (fun _ _ => job.ok = false) w := by
  rw [notifyJob, wp_ite]
  constructor
  · intro hok
    refine ⟨fun _ => ⟨rfl, rfl, fun hne => ?_⟩, fun h => by simp [hok] at h⟩
    dsimp only
    split_ifs with hwaiting
    · apply Function.update_of_ne
      rintro rfl
      exact hne hwaiting.2
    · rfl
  · intro hok
    have hfail : job.ok = false := by simpa using hok
    simp only [emit, setRuleStatus, wp_bind, wp_modify, wp_ite, wp_get, wp_pure]
    refine ⟨fun _ => ?_, fun _ => ⟨fun h => (hok h).elim, fun _ hf => ?_⟩⟩
    · exact hfail
    · by_cases hrt : rt = job.notifytarget
      · subst hrt
        exact Function.update_self ..
      · rw [Function.update_of_ne hrt]
        exact hf

/-- The end of a job of the rule: how `wait-for-one-job` treats it. -/
theorem wp_waitForOneJob_of_picked (hE : OnlyScriptsFail E r) {w : World} (hw : InHand d r w)
    {job : Job} (hpick : w.running[E.pick w.tick % w.running.length]? = some job)
    (hjob : job.ruletarget = r.target) :
    wp (waitForOneJob d E)
      (fun _ w' => (job.ok = true ∧ Makes d r w.cleaning (w.fs.putAll job.puts) →
          Forgiven r w w') ∧
        (job.ok = false → w'.rulestatus r.target = .failed))
      (fun _ _ => ¬(job.ok = true ∧ Makes d r w.cleaning (w.fs.putAll job.puts))) w := by
  rw [waitForOneJob, wp_bind, wp_get]
  cases hrunning : w.running with
  | nil => simp [hrunning] at hpick
  | cons first jobs =>
    rw [hrunning] at hpick
    simp only [ask, wp_bind, wp_modifyGet, hpick, Option.getD_some]
    apply (wp_reapJob _ job _).imp ?_ (fun _ _ h => h.elim)
    rintro - w₁ ⟨hun, hfs, hexit⟩
    have hw₁ : InHand d r w₁ := by
      obtain ⟨info, hinfo, hinfo'⟩ := hw.info
      exact ⟨info, by rw [hun.precache]; exact hinfo, hinfo'⟩
    have hmakes : Makes d r w₁.cleaning w₁.fs ↔
        Makes d r w.cleaning (w.fs.putAll job.puts) := by rw [hun.cleaning, hfs]
    rw [hjob, ← hmakes, wp_bind]
    apply (wp_targetPostBuild hE hw₁ _).imp
    · rintro - w₂ ⟨hgood, hbad⟩
      rw [wp_bind]
      apply (wp_notifyJob job r.target w₂).imp
      · rintro - w₃ ⟨hok, hfail⟩
        constructor
        · rintro ⟨h, hm⟩
          obtain ⟨hexit₂, hbuilt, htrace⟩ := hgood ⟨by simp [h], hm⟩
          obtain ⟨hexit₃, htrace₃, hstatus⟩ := hok h
          rw [hbuilt] at hstatus
          refine ⟨hstatus (by simp), ?_, fun h0 => ?_⟩
          · rw [htrace₃]
            rw [hun.trace] at htrace
            exact htrace
          · rw [hexit₃, hexit₂, hexit h]
            exact h0
        · intro h
          exact hfail h (hbad (by simp [h]))
      · rintro - - h ⟨h', -⟩
        simp [h] at h'
    · rintro - - hnot ⟨h, hm⟩
      exact hnot ⟨by simp [h], hm⟩

/-- In a child: exactly when every script of it is tolerated. -/
theorem forgivesChild_iff (hr : r.nofail = true) (hE : OnlyScriptsFail E r) {w : World}
    (hw : InHand d r w) (notify : RuleTarget) (i : Nat) (scripts : List Script) :
    ForgivesChild d E r notify i scripts w ↔
      ∀ res ∈ results E r w.tick i scripts w.fs, res.Tolerated := by
  obtain ⟨hgo, hstop⟩ := childScripts_spec (E := E) hr w.tick i scripts w.fs
  set out := childScripts E r w.tick i scripts w.fs with hout
  unfold ForgivesChild
  simp only [addNewJob, emit, wp_bind, wp_modify, ← hout]
  constructor
  · rintro ⟨-, job, hjob, hall⟩
    obtain ⟨rfl⟩ := List.append_cancel_left hjob
    by_contra hnot
    have hrc := hstop (by simpa using hnot)
    -- a moment at which the child is the only job, and no targets are looked for
    set job : Job := ⟨r.target, notify, decide (out.1 = 0), out.2.1, out.2.2.1⟩ with hjob
    set w₂ : World := { w with running := [job], cleaning := true } with hw₂
    have hok : job.ok = false := by simp [hjob, hrc]
    have hpick : w₂.running[E.pick w₂.tick % w₂.running.length]? = some job := by
      simp [hw₂, Nat.mod_one]
    have hin : InHand d r w₂ := ⟨hw.info⟩
    have hwait := hall w₂ hpick hin (Or.inr (Or.inl rfl))
    have hboth := (wp_waitForOneJob_of_picked hE hin hpick rfl).and hwait
    refine wp_false (hboth.imp ?_ fun _ _ h => h.2)
    rintro - w₃ ⟨⟨-, hbad⟩, hforgiven⟩
    have hbuilt := hforgiven.built
    rw [hbad hok] at hbuilt
    cases hbuilt
  · intro hall
    obtain ⟨hrc, htick⟩ := hgo hall
    refine ⟨htick, _, rfl, ?_⟩
    intro w₂ hpick hw₂ hmakes
    apply (wp_waitForOneJob_of_picked hE hw₂ hpick rfl).imp
    · rintro - w₃ ⟨hgood, -⟩
      exact hgood ⟨by simp [hrc], hmakes⟩
    · rintro - - hnot
      exact hnot ⟨by simp [hrc], hmakes⟩

/-! ## What `-nofail` ignores -/

/-- For every `-nofail` rule and every list of scripts: run here, up to the first `run` that
forks, and in the child from there on, what is ignored is exactly the Tcl errors. -/
theorem nofail_forgives_iff (hr : r.nofail = true) (hE : OnlyScriptsFail E r) {w : World}
    (hw : InHand d r w) :
    (ForgivesHere d E r w ↔
      (∀ res ∈ results E r w.tick 0 r.doList w.fs, res.Tolerated) ∧
      (w.exitcode = 0 → d.configure = false →
        ∀ res ∈ results E r w.tick 0 r.doList w.fs, res.reported = false) ∧
      Makes d r w.cleaning (filesAfter w.fs (results E r w.tick 0 r.doList w.fs))) ∧
    (∀ (notify : RuleTarget) (pre : List Script) (script : Script) (rest : List Script),
      r.doList = pre ++ script :: rest →
      (∀ res ∈ results E r w.tick 0 pre w.fs, res.run = false) →
      (E.exec (w.tick + pre.length) r.target (.script (0 + pre.length))
        (filesAfter w.fs (results E r w.tick 0 pre w.fs))).run = true →
      (HandsOver d E r notify w ↔ ∀ res ∈ results E r w.tick 0 pre w.fs, res.Tolerated)) ∧
    ∀ (notify : RuleTarget) (i : Nat) (scripts : List Script),
      ForgivesChild d E r notify i scripts w ↔
        ∀ res ∈ results E r w.tick i scripts w.fs, res.Tolerated :=
  ⟨forgivesHere_iff hr hE hw, fun _ _ _ _ hlist hpre hrun => handsOver_iff hr hlist hpre hrun,
    forgivesChild_iff hr hE hw⟩

/-- A phony rule with two scripts, both of which are to be attempted. -/
def failTest : Rule :=
  { target := ["failtest"], phony := true, nofail := true,
    doList := [⟨[.lit "first"]⟩, ⟨[.lit "second"]⟩] }

def failTestDesc : Desc := { rules := [failTest], disjoint := List.pairwise_singleton .. }

/-- The first script ends with this return code, after a report if it is the `break` of `run`. -/
def failTestEnv (rc : Nat) : Env where
  exec _ _ part _ :=
    if part = .script 0 then { run := rc = 3, rc := rc, reported := rc = 3 } else {}
  pick := id

/-- `build` has begun the rule. -/
def failTestWorld : World :=
  { fs := fun _ => none, precache := fun _ => some ⟨failTest, "failtest", [], []⟩ }

theorem failTest_onlyScripts (rc : Nat) : OnlyScriptsFail (failTestEnv rc) failTest :=
  ⟨fun _ => rfl, fun _ _ => rfl⟩

theorem failTest_inHand : InHand failTestDesc failTest failTestWorld :=
  ⟨_, rfl, rfl, ["first", "second"], by decide⟩

/-- After an error in the first script the rule is built all the same, here and in a child. -/
theorem failTest_forgives_error :
    ForgivesHere failTestDesc (failTestEnv 1) failTest failTestWorld ∧
    ForgivesChild failTestDesc (failTestEnv 1) failTest ["all"] 0 failTest.doList
      failTestWorld := by
  have hspec := nofail_forgives_iff (r := failTest) rfl (failTest_onlyScripts 1) failTest_inHand
  have htol : ∀ res ∈ results (failTestEnv 1) failTest 0 0 failTest.doList fun _ => none,
      res.Tolerated := by
    simp [results, failTest, failTestEnv, ScriptResult.Tolerated]
  refine ⟨hspec.1.2 ⟨htol, fun _ _ => ?_, Or.inl rfl⟩, (hspec.2.2 ["all"] 0 _).2 htol⟩
  simp [results, failTest, failTestEnv]

/-- A failing `run` in the first script fails the rule. -/
theorem failTest_not_forgiven :
    ¬ForgivesHere failTestDesc (failTestEnv 3) failTest failTestWorld ∧
    ¬ForgivesChild failTestDesc (failTestEnv 3) failTest ["all"] 0 failTest.doList
      failTestWorld := by
  have hnot : ¬∀ res ∈ results (failTestEnv 3) failTest 0 0 failTest.doList fun _ => none,
      res.Tolerated := by
    simp [results, failTest, failTestEnv, ScriptResult.Tolerated]
  constructor
  · rw [forgivesHere_iff rfl (failTest_onlyScripts 3) failTest_inHand]
    exact fun h => hnot h.1
  · rw [forgivesChild_iff rfl (failTest_onlyScripts 3) failTest_inHand]
    exact hnot

end Tmake
