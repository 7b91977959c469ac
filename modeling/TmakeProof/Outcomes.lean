import TmakeProof.Views

/-! # What a `-do` list leaves in the file tree

While a `-do` list is evaluated here, the files are what its scripts have made of them; a
job has done the same in the file tree that it was started in (`childScripts_follows`), and
what it has done is put in place when it is reaped (`waitForOneJob_puts`).  What follows a
`-do` list touches no file that tmake looks at, unless the rule fails
(`targetPostBuild_keeps`).
-/
namespace Tmake
open Weakest

theorem FS.putAll_append (fs : FS) (puts puts' : List (Path × Option Node)) :
    fs.putAll (puts ++ puts') = (fs.putAll puts).putAll puts' :=
  List.foldl_append

/-- The same changes make the same of what is the same. -/
theorem FS.putAll_congr {fs fs' : FS} {p : Path} (puts : List (Path × Option Node))
    (h : fs' p = fs p) : fs'.putAll puts p = fs.putAll puts p := by
  induction puts generalizing fs fs' with
  | nil => exact h
  | cons x puts ih =>
    rw [putAll_cons, putAll_cons]
    refine ih ?_
    unfold put
    by_cases he : p = x.1
    · rw [he, Function.update_self, Function.update_self]
    · rw [Function.update_of_ne he, Function.update_of_ne he, h]

section
variable {d : Desc} {E : Env} {scratch : Path → Prop} {r : Rule} {w w' : World}

/-! ## A script -/

/-- The script lets its `-do` list go on. -/
def ScriptResult.Passes (res : ScriptResult) (r : Rule) : Prop :=
  res.rc = 0 ∨ r.nofail = true ∧ res.rc = 1

theorem ScriptResult.passes_iff {res : ScriptResult} :
    res.Passes r ↔ ¬(res.rc ≠ 0 && !(r.nofail && res.rc = 1)) = true := by
  unfold Passes
  by_cases h0 : res.rc = 0
  · simp [h0]
  · cases r.nofail <;> simp [h0]

theorem applyResult_fs (rt : RuleTarget) (res : ScriptResult) (w : World) :
    wp (applyResult d E rt res) (fun _ w' => w'.fs = w.fs.putAll res.puts ∧ w'.precache = w.precache)
      (fun _ _ => True) w := by
  unfold applyResult recordCmds buildErrorIf buildError modifyCache putFiles
  simp only [wp_bind, wp_modify, wp_ite, wp_pure]
  exact ⟨fun _ => ⟨trivial, trivial⟩, fun _ => ⟨trivial, trivial⟩⟩

/-- What a job does if it succeeds: `P i fs` says that the first `i` scripts have made `fs`. -/
theorem childScripts_follows {P : Nat → FS → Prop} {n : Nat}
    (hP : ∀ tick i fs, i < n → P i fs → (E.exec tick r.target (.script i) fs).Passes r →
      P (i + 1) (fs.putAll (E.exec tick r.target (.script i) fs).puts))
    (tick i : Nat) (todo : List Script) (fs : FS) (hi : i + todo.length = n) (h : P i fs)
    (hok : (childScripts E r tick i todo fs).1 = 0) :
    P n (fs.putAll (childScripts E r tick i todo fs).2.2.1) := by
  induction todo generalizing tick i fs with
  | nil =>
    have hn : i = n := by simpa using hi
    subst hn
    exact h
  | cons script todo ih =>
    rw [List.length_cons] at hi
    unfold childScripts at hok ⊢
    dsimp only at hok ⊢
    split at hok
    · next hc =>
      dsimp only at hok
      rw [hok] at hc
      simp at hc
    · next hc =>
      rw [if_neg hc]
      dsimp only at hok ⊢
      rw [FS.putAll_append]
      refine ih _ _ _ (by omega) (hP tick i fs (by omega) h ?_) hok
      exact ScriptResult.passes_iff.mpr hc

/-! ## The end of a `-do` list -/

/-- What follows the verdict touches no file that tmake looks at. -/
theorem verdict_keeps (hE : Confined d scratch E) (hr : r ∈ d.rules) (st : Status) (w : World) :
    wp (do let st ← runFinally d E r.target st
           setRuleStatus r.target st
           modify fun w => { w with precache := Function.update w.precache r.target none })
      (fun _ w' => w.trace <:+ w'.trace ∧ ∀ p, ¬scratch p → w'.fs p = w.fs p) (fun _ _ => True) w := by
  rw [wp_bind]
  have hquiet := runFinally_quiet (d := d) (E := E) (S := fun _ => True) (O := fun _ => True)
    (r := r.target) st trivial
  refine ((runFinally_works hE hr st w).and (hquiet w)).imp ?_ fun _ _ _ => trivial
  rintro st' w₁ ⟨⟨-, hc⟩, hq⟩
  exact ⟨hq.suffix, fun p hp => hc.fs p hp fun _ _ hF => hF.elim⟩

/-- **The files stay as the `-do` list has left them**, if the rule does not fail. -/
theorem targetPostBuild_keeps (hE : Confined d scratch E) (hr : r ∈ d.rules)
    (hphony : r.phony = false) (hinfo : ∀ info, w.precache r.target = some info → info.rule = r)
    (rc : Nat) :
    wp (targetPostBuild d E r.target rc)
      (fun _ w' => w.precache r.target ≠ none ∧
        (Smooth w'.trace → rc = 0 ∧ ∀ p, ¬scratch p → w'.fs p = w.fs p))
      (fun _ _ => True) w := by
  unfold targetPostBuild
  rw [wp_bind, wp_get]
  cases hprecache : w.precache r.target with
  | none => trivial
  | some info =>
    have hrule := hinfo info hprecache
    dsimp only
    have hnote : wp (noteSuccess r.target rc) (fun _ w₁ => w₁.fs = w.fs) (fun _ _ => True) w := by
      unfold noteSuccess
      rw [wp_ite]
      exact ⟨fun _ => rfl, fun _ => rfl⟩
    rw [wp_bind]
    refine hnote.imp (fun _ w₁ hfs₁ => ?_) fun _ _ h => h
    rw [wp_bind]
    refine (recordBuilt_finds hrule hphony rc w₁).imp ?_ fun _ _ h => h
    rintro rc' w₂ ⟨-, hfound⟩
    rw [wp_bind]
    unfold judgeTargets
    rw [wp_ite]
    refine ⟨fun h0 => ?_, fun _ => ?_⟩
    · obtain ⟨hrc, hfs₂, -⟩ := hfound h0
      refine (verdict_keeps hE hr _ _).imp (fun _ w₃ h => ⟨nofun, fun _ => ⟨hrc, ?_⟩⟩)
        fun _ _ _ => trivial
      intro p hp
      rw [h.2 p hp]
      change w₂.fs p = w.fs p
      rw [hfs₂, hfs₁]
    · refine (recordFailure_noted r.target rc' w₂).imp (fun st w₃ hrough => ?_) fun _ _ h => h
      refine (verdict_keeps hE hr st w₃).imp (fun _ w₄ h => ⟨nofun, fun hsmooth => ?_⟩)
        fun _ _ _ => trivial
      exact absurd (hsmooth.mono h.1) hrough

theorem endForeground_keeps (hE : Confined d scratch E) (hr : r ∈ d.rules)
    (hphony : r.phony = false) (hinfo : ∀ info, w.precache r.target = some info → info.rule = r)
    (rc : Nat) :
    wp (endForeground d E r rc)
      (fun _ w' => Smooth w'.trace → rc = 0 ∧ ∀ p, ¬scratch p → w'.fs p = w.fs p)
      (fun _ _ => True) w := by
  have hsignal : wp (checkSignal E) (fun _ w₁ => w₁.fs = w.fs ∧ w₁.precache = w.precache)
      (fun _ _ => True) w := by
    unfold checkSignal ask
    rw [wp_bind, wp_modifyGet, wp_ite]
    exact ⟨fun _ => trivial, fun _ => ⟨rfl, rfl⟩⟩
  unfold endForeground
  rw [wp_bind]
  refine hsignal.imp ?_ fun _ _ h => h
  rintro - w₁ ⟨hfs, hpre⟩
  rw [wp_bind]
  refine (targetPostBuild_keeps hE hr hphony (fun info hi => hinfo info (hpre ▸ hi)) rc).imp
    (fun _ w₂ h hsmooth => ?_) fun _ _ h => h
  obtain ⟨hrc, hkeeps⟩ := h.2 hsmooth
  exact ⟨hrc, fun p hp => by rw [hkeeps p hp, hfs]⟩

/-! ## Jobs -/

/-- **When a job is reaped, what it has done is put in place**, if it has not failed. -/
theorem waitForOneJob_puts (hE : Confined d scratch E)
    (hinfo : ∀ job ∈ w.running, ∃ r ∈ d.rules, r.target = job.ruletarget ∧ r.target ≠ [] ∧
      ∀ info, w.precache r.target = some info → info.rule = r) :
    wp (waitForOneJob d E)
      (fun _ w' => w.running = [] ∧ w' = w ∨ ∃ (i : Nat) (job : Job),
        w.running[i]? = some job ∧ w'.running = w.running.eraseIdx i ∧
        ∀ r ∈ d.rules, r.target = job.ruletarget → r.phony = false →
          w.precache r.target ≠ none ∧ (Smooth w'.trace → job.ok = true ∧
            ∀ p, ¬scratch p → w'.fs p = w.fs.putAll job.puts p))
      (fun _ _ => True) w := by
  unfold waitForOneJob
  rw [wp_bind, wp_get]
  split
  · next hnone => exact .inl ⟨hnone, rfl⟩
  · next first jobs hrunning =>
    have hlt : E.pick w.tick % (first :: jobs).length < w.running.length := by
      rw [hrunning]
      exact Nat.mod_lt _ (Nat.succ_pos _)
    rw [wp_bind]
    unfold ask
    rw [wp_modifyGet]
    dsimp only
    generalize E.pick w.tick % (first :: jobs).length = i at hlt
    have hjob : w.running[i]? = some (((first :: jobs)[i]?).getD first) := by
      rw [← hrunning, List.getElem?_eq_getElem hlt, Option.getD_some]
    generalize ((first :: jobs)[i]?).getD first = job at hjob
    have hreap : ∀ w : World, wp (reapJob d i job)
        (fun _ w₁ => w₁.fs = w.fs.putAll job.puts ∧ w₁.precache = w.precache ∧
          w₁.running = w.running.eraseIdx i) (fun _ _ => True) w := by
      intro w
      unfold reapJob buildErrorIf buildError putFiles
      simp only [wp_bind, wp_modify, wp_ite, wp_pure]
      exact ⟨fun _ => ⟨trivial, trivial, trivial⟩, fun _ => ⟨trivial, trivial, trivial⟩⟩
    rw [wp_bind]
    refine (hreap _).imp ?_ fun _ _ _ => trivial
    rintro - w₁ ⟨hfs₁, hpre₁, hrun₁⟩
    rw [wp_bind]
    obtain ⟨r, hr, htarget, hne, hrule⟩ := hinfo job (List.mem_of_getElem? hjob)
    have hquiet := targetPostBuild_quiet (d := d) (E := E) (S := fun _ => True) (O := fun _ => True)
      (r := job.ruletarget) (if job.ok then 0 else 1) trivial trivial
    have hpost : wp (targetPostBuild d E job.ruletarget (if job.ok then 0 else 1))
        (fun _ w₂ => r.phony = false → w₁.precache r.target ≠ none ∧
          (Smooth w₂.trace → (if job.ok then 0 else 1) = 0 ∧
            ∀ p, ¬scratch p → w₂.fs p = w₁.fs p)) (fun _ _ => True) w₁ := by
      by_cases hphony : r.phony = false
      · rw [← htarget]
        refine (targetPostBuild_keeps hE hr hphony (fun info hi => ?_) _).imp (fun _ _ h _ => h)
          fun _ _ h => h
        rw [hpre₁] at hi
        exact hrule info hi
      · exact (wp_trivial _ _).imp (fun _ _ _ h => absurd h hphony) fun _ _ h => h
    refine ((hquiet w₁).and hpost).imp ?_ fun _ _ _ => trivial
    rintro - w₂ ⟨hq₂, h₂⟩
    rw [wp_bind]
    refine ((notifyJob_spec job w₂).and (notifyJob_same job w₂)).imp ?_ fun _ _ _ => trivial
    rintro - w₃ ⟨⟨-, -, hrun₃, -⟩, hfs₃, -, -, -, hsuffix⟩
    refine .inr ⟨i, job, hjob, ?_, fun s hs hst hphony => ?_⟩
    · rw [hrun₃, hq₂.running, hrun₁]
    · obtain rfl := d.rule_eq_of_target hr hs hne (htarget.trans hst.symm)
      obtain ⟨hsome, hkeeps⟩ := h₂ hphony
      refine ⟨by rwa [hpre₁] at hsome, fun hsmooth => ?_⟩
      obtain ⟨hrc, hsame⟩ := hkeeps (hsmooth.mono hsuffix)
      refine ⟨by simpa using hrc, fun p hp => ?_⟩
      rw [hfs₃, hsame p hp, hfs₁]

end

end Tmake
