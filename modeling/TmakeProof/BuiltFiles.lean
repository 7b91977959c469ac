import TmakeProof.Moves
import TmakeProof.Presence
import TmakeProof.Scheduler

/-! # The files of what is built

`build` answers `built` or `uptodate`, and its callers then take the files of the
rule for granted: `calc-deplist-hash` raises an error for a file that is not there.
Nothing in `build` sees to it that they are there.  A rule without a `-do` list is
built as soon as its dependencies are; and when a `-do` list has ended here without
failure, the answer is `built` even if `target-post-build` finds no files.

`Stocked` is what is true as long as neither happens, and as long as no script
takes away what another rule has made: the files of all settled rules exist.
-/
namespace Tmake
open Weakest Machine

/-! ## The invariant -/

/-- The files of what is settled exist, and what is under way keeps it so. -/
structure Stocked (d : Desc) (w : World) : Prop where
  settled : ∀ r ∈ d.rules, r.phony = false → (w.rulestatus r.target).done = true → d.Made r w.fs
  sources : ∀ t, d.Source t → w.targetstatus t = some .uptodate → w.fs.exists? t = true
  jobs : ∀ job ∈ w.running, ∀ fs,
    FS.Spared d (· = job.ruletarget) fs (fs.putAll job.puts)
  precache : ∀ rt info, w.precache rt = some info → info.rule ∈ d.rules ∧ info.rule.target = rt

/-- The `-do` list of the rule has not begun, and need not. -/
def Phase.looking : Phase → Bool
  | .deps .. | .scan .. | .check .. => true
  | _ => false

/-- A rule that is up to date so far has its files, and depends on what it needs. -/
structure Frame.Holds (d : Desc) (w : World) (f : Frame) : Prop where
  files : f.phase.looking = true → f.rule.phony = false → f.status = .uptodate → d.Made f.rule w.fs
  needs : ∀ dyn, f.phase = .check dyn → ∀ t ∈ dyn, f.rule.NeedsName t

/-- The invariant of a run in which nothing goes wrong. -/
structure Present (d : Desc) (p : Point) (w : World) : Prop where
  stocked : Stocked d w
  frames : ∀ f ∈ frames p, f.Holds d w

/-- Nothing goes wrong in the next step.  A rule without a `-do` list that was not up to date has
its files once its dependencies are built; a `-do` list that has ended here without failure has
made all targets; and so has every job, while `target-post-build` does not look for them. -/
structure Sound (d : Desc) (p : Point) (w : World) : Prop where
  bare : ∀ f k dyn, p = .rule f :: k → f.phase = .check dyn → f.rule.phony = false →
    f.rule.doList = [] → f.status = .built → fileExistsAll d w.fs f.rule = true
  ended : ∀ f k dyn, p = .rule f :: k → f.phase = .ended dyn 0 → f.rule.phony = false →
    fileExistsAll d w.fs f.rule = true
  jobs : w.cleaning = true → ∀ job ∈ w.running, job.ok = true → ∀ r ∈ d.rules,
    r.target = job.ruletarget → r.phony = false → d.Made r (w.fs.putAll job.puts)

section Invariant
variable {d : Desc} {E : Env} {root : Name} {p p' q : Point} {w w' : World} {O : RuleTarget → Prop}

theorem Stocked.sparing (h : Stocked d w) (hs : Sparing d O w w')
    (hown : ∀ r ∈ d.rules, r.phony = false → O r.target →
      (w'.rulestatus r.target).done = true → d.Made r w'.fs) : Stocked d w' where
  settled r hr hphony hd := by
    by_cases hO : O r.target
    · exact hown r hr hphony hO hd
    · exact hs.fs.rules r hr hphony hO (h.settled r hr hphony (hs.settled _ hO hd))
  sources t ht hst := hs.fs.sources t ht (h.sources t ht (hs.targetstatus ▸ hst))
  jobs job hj := h.jobs job (hs.running job hj)
  precache rt info hi := h.precache rt info (hs.precache rt info hi)

theorem Frame.Holds.sparing {f : Frame} (h : f.Holds d w) (hs : Sparing d O w w')
    (hr : f.rule ∈ d.rules) (hO : ¬O f.rule.target) : f.Holds d w' :=
  ⟨fun hl hp hst => hs.fs.rules f.rule hr hp hO (h.files hl hp hst), h.needs⟩

theorem Inv.frame_mem (h : Inv d root p w) {f : Frame} (hf : f ∈ frames p) : f.rule ∈ d.rules :=
  d.ruleFor_mem (h.frameOK f hf).1

/-- The rules further down on the stack are others. -/
theorem Inv.below_ne {f g : Frame} (h : Inv d root (.rule f :: p) w) (hg : g ∈ frames p) :
    g.rule.target ≠ f.rule.target := by
  intro he
  have hnot : f.rule.target ∉ onStack p := (List.nodup_cons.mp h.nodup).1
  exact hnot (he ▸ List.mem_map_of_mem hg)

/-- A step that takes away nothing of a rule on the stack. -/
theorem Present.sparing (h : Present d p w) (hinv : Inv d root p w) (hs : Sparing d O w w')
    (hown : ∀ r ∈ d.rules, r.phony = false → O r.target →
      (w'.rulestatus r.target).done = true → d.Made r w'.fs)
    (hstack : ∀ f ∈ Tmake.frames p, ¬O f.rule.target) : Present d p w' :=
  ⟨h.stocked.sparing hs hown,
    fun f hf => (h.frames f hf).sparing hs (hinv.frame_mem hf) (hstack f hf)⟩

/-- A step that takes away nothing. -/
theorem Present.spared (h : Present d p w) (hinv : Inv d root p w)
    (hs : Sparing d (fun _ => False) w w') : Present d p w' :=
  h.sparing hinv hs (fun _ _ _ hO => hO.elim) fun _ _ hO => hO

theorem Present.replace (h : Present d p w) (hq : Tmake.frames q = Tmake.frames p) :
    Present d q w := ⟨h.stocked, hq ▸ h.frames⟩

/-- What is known of the innermost rule. -/
theorem Present.head {f : Frame} (h : Present d (.rule f :: p) w) : f.Holds d w :=
  h.frames f List.mem_cons_self

/-- The innermost rule is left to itself. -/
theorem Present.tail {f : Frame} (h : Present d (.rule f :: p) w) : Present d p w :=
  ⟨h.stocked, fun f' hf' => h.frames f' (List.mem_cons_of_mem _ hf')⟩

theorem Present.push {f : Frame} (h : Present d p w) (hf : f.Holds d w) :
    Present d (.rule f :: p) w :=
  ⟨h.stocked, List.forall_mem_cons.mpr ⟨hf, h.frames⟩⟩

/-- A step that takes away nothing but files of the innermost rule. -/
theorem Present.own {f : Frame} (h : Present d (.rule f :: p) w) (hinv : Inv d root (.rule f :: p) w)
    (hs : Sparing d (· = f.rule.target) w w')
    (hown : f.rule.phony = false → (w'.rulestatus f.rule.target).done = true →
      d.Made f.rule w'.fs) : Present d p w' := by
  refine ⟨h.stocked.sparing hs fun r hr hphony he hd => ?_, fun g hg => ?_⟩
  · have hf : d.ruleFor f.target = some f.rule := (hinv.frameOK f List.mem_cons_self).1
    obtain rfl := d.rule_eq_of_target (d.ruleFor_mem hf) hr (d.target_ne_nil hf) he.symm
    exact hown hphony hd
  · exact (h.tail.frames g hg).sparing hs (hinv.frame_mem (List.mem_cons_of_mem _ hg))
      (hinv.below_ne hg)

/-- The innermost call goes on looking, with the same status. -/
theorem Frame.Holds.goto {f : Frame} (h : f.Holds d w) (hl : f.phase.looking = true)
    {phase : Phase} (hphase : ∀ dyn, phase ≠ .check dyn) : (f.goto phase).Holds d w :=
  ⟨fun _ => h.files hl, fun dyn he => absurd he (hphase dyn)⟩

/-- The `-do` list of the rule begins or goes on. -/
theorem Frame.Holds.begun {f : Frame} (hl : f.phase.looking = false) : f.Holds d w := by
  refine ⟨fun h => ?_, fun dyn he => ?_⟩
  · rw [hl] at h
    cases h
  · rw [he] at hl
    cases hl

/-- A job is reaped. -/
theorem waitForOneJob_present (hE : Considerate d E) (hinv : Inv d root p w)
    (h : Present d p w) (hsound : Sound d p w) :
    wp (waitForOneJob d E) (fun _ w' => Present d p w') (fun _ _ => True) w := by
  unfold waitForOneJob
  rw [wp_bind, wp_get]
  split
  · exact h
  · next first jobs hjobs =>
    rw [wp_bind]
    unfold ask
    rw [wp_modifyGet]
    have hlt : E.pick w.tick % (first :: jobs).length < w.running.length := by
      rw [hjobs]
      exact Nat.mod_lt _ (Nat.succ_pos _)
    dsimp only
    generalize E.pick w.tick % (first :: jobs).length = i at hlt
    have hjob : w.running[i]? = some (((first :: jobs)[i]?).getD first) := by
      rw [← hjobs, List.getElem?_eq_getElem hlt, Option.getD_some]
    generalize ((first :: jobs)[i]?).getD first = job at hjob
    have hmem : job ∈ w.running := List.mem_of_getElem? hjob
    obtain ⟨-, n, -, -, t, -, r, hrt, hrj⟩ := hinv.job_awaited job hmem
    have hr := d.ruleFor_mem hrt
    have hstack : ∀ f ∈ frames p, f.rule.target ≠ job.ruletarget := by
      intro f hf he
      have hrun := hinv.job_running job hmem
      rw [← he] at hrun
      rcases hinv.stacked _ (List.mem_map_of_mem hf) with hs | hs <;> rw [hrun] at hs <;> cases hs
    -- its files are put in place
    have hreap : wp (reapJob d i job) (fun _ w₁ => Sparing d (· = job.ruletarget) w w₁ ∧
        w₁.fs = w.fs.putAll job.puts ∧ w₁.cleaning = w.cleaning ∧ w₁.precache = w.precache)
        (fun _ _ => True) { w with tick := w.tick + 1 } := by
      unfold reapJob putFiles buildErrorIf buildError
      simp only [wp_bind, wp_modify, wp_ite, wp_pure]
      have hs : Sparing d (· = job.ruletarget) w { w with
          running := w.running.eraseIdx i, fs := w.fs.putAll job.puts } :=
        ⟨h.stocked.jobs job hmem w.fs, fun _ _ h => h, rfl, fun _ _ h => h,
          fun _ hj => List.mem_of_mem_eraseIdx hj⟩
      exact ⟨fun _ => ⟨⟨hs.fs, hs.settled, hs.targetstatus, hs.precache, hs.running⟩, trivial, trivial, trivial⟩,
        fun _ => ⟨⟨hs.fs, hs.settled, hs.targetstatus, hs.precache, hs.running⟩, trivial, trivial, trivial⟩⟩
    rw [wp_bind]
    apply hreap.imp ?_ fun _ _ h => h
    rintro - w₁ ⟨hs₁, hfs₁, hclean₁, hpre₁⟩
    rw [wp_bind]
    have hpost : Under (Sparing d (· = job.ruletarget))
        (targetPostBuild d E job.ruletarget (if job.ok then 0 else 1)) := by
      rw [← hrj]
      exact (finishing_sparing (O := (· = r.target)) hE hr rfl).targetPostBuild _
    have hmade : wp (targetPostBuild d E job.ruletarget (if job.ok then 0 else 1))
        (fun _ w₂ => r.phony = false → w₂.rulestatus job.ruletarget = .built → d.Made r w₂.fs)
        (fun _ _ => True) w₁ := by
      by_cases hphony : r.phony = false
      · rw [← hrj]
        apply (targetPostBuild_made hE hr hphony _ (fun info hi => ?_) fun h0 hcl => ?_).imp
        · exact fun _ _ h _ hb => h (Or.inr hb)
        · exact fun _ _ h => h
        · obtain ⟨hir, hit⟩ := h.stocked.precache _ info (hpre₁ ▸ hi)
          exact d.rule_eq_of_target hir hr (hit ▸ d.target_ne_nil hrt) hit
        · have hok : job.ok = true := by
            by_contra hnot
            simp [hnot] at h0
          rw [hfs₁]
          exact hsound.jobs (hclean₁ ▸ hcl) job hmem hok r hr hrj hphony
      · exact (wp_trivial _ _).imp (fun _ _ _ hp => absurd hp hphony) fun _ _ h => h
    refine ((hpost w₁).and ((targetPostBuild_status job.ruletarget _ w₁).and hmade)).imp ?_
      fun _ _ _ => trivial
    rintro - w₂ ⟨hs₂, hstatus, hmade₂⟩
    rw [wp_bind]
    refine (notifyJob_sparing (O := fun _ => False) job w₂).imp (fun _ w₃ hs₃ => ?_)
      fun _ _ _ => trivial
    have hs₃' : Sparing d (· = job.ruletarget) w₂ w₃ :=
      ⟨⟨fun s hs hp _ => hs₃.fs.rules s hs hp id, hs₃.fs.sources⟩,
        fun rt _ => hs₃.settled rt id, hs₃.targetstatus, hs₃.precache, hs₃.running⟩
    have hs : Sparing d (· = job.ruletarget) w w₃ :=
      trans_of _ hs₁ (trans_of _ hs₂ hs₃')
    refine h.sparing hinv hs (fun s hsr hphony hsj hd => ?_) hstack
    have hsame : s = r := by
      refine d.rule_eq_of_target hsr hr ?_ (hsj.trans hrj.symm)
      rw [hsj, ← hrj]
      exact d.target_ne_nil hrt
    subst hsame
    apply hs₃.fs.rules s hr hphony id
    apply hmade₂ hphony
    have hd₂ := hs₃.settled _ id hd
    rw [hsj] at hd₂
    refine hstatus.resolve_right fun hf => ?_
    rw [hf] at hd₂
    cases hd₂

/-! ## One step -/

theorem buildSource_stocked (h : Stocked d w) (t : Name) :
    wp (buildSource t) (fun _ w' => Stocked d w' ∧ w'.fs = w.fs) (fun _ _ => True) w := by
  unfold buildSource
  rw [wp_bind, wp_get]
  split
  · exact ⟨h, rfl⟩
  · rw [wp_bind, wp_modify]
    refine ⟨⟨h.settled, fun u hu hst => ?_, h.jobs, h.precache⟩, rfl⟩
    by_cases he : u = t
    · subst he
      by_contra hnot
      simp [hnot] at hst
    · exact h.sources u hu ((Function.update_of_ne he ..).symm.trans hst)

theorem Frame.Holds.same {f : Frame} (h : f.Holds d w) (hfs : w'.fs = w.fs) : f.Holds d w' :=
  ⟨by rw [hfs]; exact h.files, h.needs⟩

theorem depsStatus_uptodate {phony : Bool} {rets : List (Name × Status)} {st : Status}
    (h : depsStatus d phony rets st = .uptodate) : st = .uptodate := by
  unfold depsStatus at h
  dsimp only at h
  split at h
  · cases h
  split at h
  · cases h
  split at h
  · cases h
  · exact h

theorem afterStatic_needs {f : Frame} {st : Status} {dyn : List Name}
    (h : afterStatic f st = .check dyn) : dyn = [] := by
  unfold afterStatic at h
  split at h
  · split at h <;> cases h
  · cases h
    rfl

/-- Steps that only look. -/
theorem Glance.present (h : Present d p w) (hinv : Inv d root p w) (hm : Glance d E p w p' w') :
    Present d p' w' := by
  cases hm with
  | idle => exact h
  | source hr hs =>
    obtain ⟨hst, hfs⟩ := wp_of_ok hs (buildSource_stocked h.stocked _)
    exact ⟨hst, fun f hf => (h.frames f hf).same hfs⟩
  | @settled t n k _ r hr hst =>
    have hs : Sparing d (fun _ => False) w { w with
        trace := ⟨.returned t (w.rulestatus r.target), w.toCore⟩ :: w.trace } :=
      .of_eq rfl rfl rfl rfl rfl
    exact (h.spared hinv hs).replace rfl
  | @enter t n k _ r hr hst =>
    have hs : Sparing d (fun _ => False) w { w with
        rulestatus := Function.update w.rulestatus r.target .checking
        current := t :: w.current } := by
      refine ⟨refl_of _ _, fun rt _ hd => ?_, rfl, fun _ _ h => h, fun _ h => h⟩
      change (Function.update w.rulestatus r.target .checking rt).done = true at hd
      by_cases he : rt = r.target
      · rw [he, Function.update_self] at hd
        cases hd
      · rwa [Function.update_of_ne he] at hd
    refine ((h.spared hinv hs).replace (q := k) rfl).push ⟨fun _ hphony hst => ?_, nofun⟩
    show d.Made r w.fs
    apply Desc.made_of_exists
    by_contra hnot
    simp [initialStatus, hnot] at hst
  | dep => exact h.replace rfl
  | static hphase hst =>
    refine h.tail.push ⟨fun _ hphony hup => ?_, fun dyn he => ?_⟩
    · rw [← hst] at hup
      exact h.head.files (by rw [hphase]; rfl) hphony (depsStatus_uptodate hup)
    · rw [afterStatic_needs he]
      exact fun _ ht => absurd ht List.not_mem_nil
  | @dynamic f k _ dyn done st hphase hst =>
    refine h.tail.push ⟨fun _ hphony hup => ?_, fun dyn' he => ?_⟩
    · rw [← hst] at hup
      exact h.head.files (by rw [hphase]; rfl) hphony (depsStatus_uptodate hup)
    · cases he
      have hok := (hinv.frameOK f List.mem_cons_self).2
      rw [hphase] at hok
      exact hok.2.2.1.needs
  | scanned hphase => exact h.tail.push (h.head.goto (by rw [hphase]; rfl) nofun)
  | noscan hphase _ => exact h.tail.push (h.head.goto (by rw [hphase]; rfl) nofun)
  | input hphase _ => exact h.tail.push (h.head.goto (by rw [hphase]; rfl) nofun)
  | peek hphase => exact h.tail.push (h.head.goto (by rw [hphase]; rfl) nofun)
  | look => exact h.replace rfl
  | answer hphase _ => exact h.tail.push (h.head.goto (by rw [hphase]; rfl) nofun)
  | @depRet _ st f k _ _ dyn done dep todo hphase hd =>
    have h' := h.spared hinv ((Sparing.elementary.depFailed E st).ok hd)
    have h' : Present d (.rule f :: k) w' := h'.replace rfl
    exact h'.tail.push (h'.head.goto (by rw [hphase]; rfl) nofun)
  | @lookRet _ st f k _ _ found file keep kont inputs answer hphase hl =>
    have hs : Under (Sparing d fun _ => False) (lookupFile d (fun _ => return st) file) :=
      Sparing.elementary.lookupFile (Within.pure _)
    have h' := h.spared hinv (hs.ok hl)
    have h' : Present d (.rule f :: k) w' := h'.replace rfl
    exact h'.tail.push (h'.head.goto (by rw [hphase]; rfl) nofun)
  | synced => exact h.replace rfl

theorem beginRule_stocked {r : Rule} (hr : r ∈ d.rules) (h : Stocked d w) (t : Name)
    (vardict : List (String × String)) (dyn : List Name) :
    wp (beginRule d E r t vardict dyn)
      (fun _ w' => Stocked d w' ∧ FS.Spared d (fun _ => False) w.fs w'.fs) (fun _ _ => True) w := by
  have hos : Under (Sparing d fun _ => False) (osCheck E) := Sparing.elementary.osCheck E
  unfold beginRule
  rw [wp_bind]
  refine (hos w).imp (fun _ w₁ hs => ?_) fun _ _ _ => trivial
  have h₁ := h.sparing hs fun _ _ _ hO => hO.elim
  refine ⟨⟨h₁.settled, h₁.sources, h₁.jobs, fun rt info hi => ?_⟩, hs.fs⟩
  change Function.update w₁.precache r.target (some ⟨r, t, dyn, vardict⟩) rt = some info at hi
  by_cases he : rt = r.target
  · rw [he, Function.update_self] at hi
    obtain rfl := Option.some.inj hi
    exact ⟨hr, he.symm⟩
  · rw [Function.update_of_ne he] at hi
    exact h₁.precache rt info hi

theorem addNewJob_stocked (hE : Considerate d E) (r : Rule) (h : Stocked d w)
    (notify : RuleTarget) (i : Nat) (scripts : List Script) :
    wp (addNewJob E r notify i scripts)
      (fun _ w' => Stocked d w' ∧ w'.fs = w.fs) (fun _ _ => True) w := by
  unfold addNewJob emit
  rw [wp_bind, wp_modify, wp_modify]
  refine ⟨⟨fun s hs hphony hd => ?_, h.sources, fun job hj fs => ?_, h.precache⟩, rfl⟩
  · by_cases he : s.target = r.target
    · dsimp only at hd
      rw [he, Function.update_self] at hd
      cases hd
    · exact h.settled s hs hphony (by simpa [Function.update_of_ne he] using hd)
  · rcases List.mem_append.mp hj with hj | hj
    · exact h.jobs job hj fs
    · rw [List.mem_singleton.mp hj]
      exact hE.child (O := (· = r.target)) rfl _ _ _ _ _

/-- A `-do` list that ends here leaves the files that it has made. -/
theorem endForeground_made (hE : Considerate d E) {r : Rule} (hr : r ∈ d.rules) (hne : r.target ≠ [])
    (rc : Nat) (h : Stocked d w) (hsound : rc = 0 → r.phony = false → fileExistsAll d w.fs r = true) :
    wp (endForeground d E r rc)
      (fun st w' => Sparing d (· = r.target) w w' ∧
        (st.done = true → r.phony = false → d.Made r w'.fs)) (fun _ _ => True) w := by
  have hsignal : wp (checkSignal E) (fun _ w₁ => w₁ = { w with tick := w.tick + 1 })
      (fun _ _ => True) w := by
    unfold checkSignal ask
    rw [wp_bind, wp_modifyGet, wp_ite]
    exact ⟨fun _ => trivial, fun _ => rfl⟩
  unfold endForeground
  rw [wp_bind]
  apply hsignal.imp ?_ fun _ _ h => h
  rintro - w₁ rfl
  have hpost : Under (Sparing d (· = r.target)) (targetPostBuild d E r.target rc) :=
    (finishing_sparing (O := (· = r.target)) hE hr rfl).targetPostBuild rc
  have hmade : wp (targetPostBuild d E r.target rc)
      (fun _ w' => rc = 0 → r.phony = false → d.Made r w'.fs) (fun _ _ => True)
      { w with tick := w.tick + 1 } := by
    by_cases hphony : r.phony = false
    · apply (targetPostBuild_made hE hr hphony rc (fun info hi => ?_) fun h0 _ => ?_).imp
      · exact fun _ _ h h0 _ => h (Or.inl ⟨h0, hsound h0 hphony⟩)
      · exact fun _ _ h => h
      · obtain ⟨hir, hit⟩ := h.precache _ info hi
        exact d.rule_eq_of_target hir hr (hit ▸ hne) hit
      · exact Desc.made_of_exists (hsound h0 hphony)
    · exact (wp_trivial _ _).imp (fun _ _ _ _ hp => absurd hp hphony) fun _ _ h => h
  rw [wp_bind]
  refine ((hpost _).and hmade).imp ?_ fun _ _ _ => trivial
  rintro - w₂ ⟨hs, hm⟩
  have hs₀ : Sparing d (· = r.target) w { w with tick := w.tick + 1 } := .of_eq rfl rfl rfl rfl rfl
  refine ⟨trans_of _ hs₀ hs, fun hd hphony => hm ?_ hphony⟩
  by_contra h0
  simp [h0, Status.done] at hd

/-- Leaving a call settles its rule only. -/
theorem left_sparing (f : Frame) (dyn : List Name) (st : Status) (w : World) :
    Sparing d (· = f.rule.target) w (left f dyn st w) := by
  refine ⟨refl_of _ _, fun rt hrt hd => ?_, rfl, fun _ _ h => h, fun _ h => h⟩
  change (Function.update w.rulestatus f.rule.target st rt).done = true at hd
  rwa [Function.update_of_ne hrt] at hd

theorem Move.present (hn : d.norun = 0) (hE : Considerate d E) (h : Present d p w)
    (hinv : Inv d root p w) (hinv' : Inv d root p' w') (hsound : Sound d p w)
    (hm : Move d E p w p' w') : Present d p' w' := by
  -- a rule on the stack is not settled
  have hopen : ∀ {f g : Frame} {k : Point}, p' = .rule g :: k → g.rule = f.rule →
      (w'.rulestatus f.rule.target).done = true → False := by
    intro f g k hp' hg hd
    have hmem : f.rule.target ∈ onStack p' := by
      rw [hp', ← hg]
      exact List.mem_cons_self
    rw [hinv'.not_done hmem] at hd
    cases hd
  cases hm with
  | glance hg => exact hg.present h hinv
  | wait _ hw =>
    exact (wp_of_ok hw (waitForOneJob_present hE hinv h hsound)).replace rfl
  | @launch f _ _ dyn _ hphase hc hdo =>
    have hf := (hinv.frameOK f List.mem_cons_self).1
    have h' := h.spared hinv ((checkRule_sparing hf dyn f.status).ok hc)
    exact h'.tail.push (.begun rfl)
  | @skip f k _ dyn st w₁ hphase hc hdo =>
    have hf := (hinv.frameOK f List.mem_cons_self).1
    have hs := (checkRule_sparing (d := d) (O := fun _ => False) hf dyn f.status).ok hc
    have h' := h.spared hinv hs
    have hinv₁ : Inv d root (.rule f :: k) w₁ :=
      hinv.quiet ((checkRule_quiet (E := E) (S := fun _ => False) (O := (· = f.rule.target)) f.target _
        dyn f.status rfl).ok hc)
    have hout := wp_of_ok hc (checkRule_outdates f.rule f.target (d.vardict f.rule) dyn f.status w)
    refine (h'.own hinv₁ (left_sparing f dyn st w₁) fun hphony hd => ?_).replace rfl
    show d.Made f.rule w₁.fs
    change (Function.update w₁.rulestatus f.rule.target st f.rule.target).done = true at hd
    rw [Function.update_self] at hd
    have hup : f.status = .uptodate → d.Made f.rule w₁.fs :=
      h'.head.files (by rw [hphase]; rfl) hphony
    rcases hout with rfl | ⟨hst, -⟩
    · cases hstatus : f.status with
      | uptodate => exact hup hstatus
      | built =>
        have hbare := hsound.bare f k dyn rfl hphase hphony (hdo hstatus) hstatus
        exact hs.fs.rules f.rule (d.ruleFor_mem hf) hphony id (Desc.made_of_exists hbare)
      | unknown | checking | waiting | running | failed =>
        rw [hstatus] at hd
        cases hd
    · exact hup hst
  | dry _ hdry => exact absurd hn hdry
  | @begin f k _ dyn w₁ w₂ hphase _ h1 h2 =>
    have hf := (hinv.frameOK f List.mem_cons_self).1
    have hs := (prepareRule_sparing (O := (· = f.rule.target)) hE hf rfl).ok h1
    have hinv₁ : Inv d root (.rule f :: k) w₁ :=
      hinv.quiet ((prepareRule_quiet (S := fun _ => False) (O := (· = f.rule.target)) rfl).ok h1)
    have h₁ : Present d k w₁ := h.own hinv hs fun _ hd => by
      rw [hinv₁.not_done List.mem_cons_self] at hd
      cases hd
    obtain ⟨hst, hspared⟩ := wp_of_ok h2
      (beginRule_stocked (d.ruleFor_mem hf) h₁.stocked f.target (d.vardict f.rule) dyn)
    have h₂ : Present d k w' := by
      refine ⟨hst, fun g hg => ⟨fun hl hp hup => ?_, (h₁.frames g hg).needs⟩⟩
      exact hspared.rules g.rule (hinv.frame_mem (List.mem_cons_of_mem _ hg)) hp id
        ((h₁.frames g hg).files hl hp hup)
    apply h₂.push (.begun ?_)
    unfold firstPhase
    show Phase.looking _ = false
    split <;> rfl
  | finished => exact h.tail.push (.begun rfl)
  | @script f k _ dyn i script todo res _ hphase hres hrun ha =>
    have hs : Sparing d (· = f.rule.target) w w' := by
      have hask : Sparing d (· = f.rule.target) w { w with tick := w.tick + 1 } :=
        .of_eq rfl rfl rfl rfl rfl
      subst hres
      exact trans_of _ hask ((applyResult_sparing (O := (· = f.rule.target)) hE _ _ rfl _).ok ha)
    apply (h.own hinv hs fun _ hd => (hopen rfl rfl hd).elim).push (.begun ?_)
    show Phase.looking _ = false
    split <;> rfl
  | forks hphase hres hrun hc =>
    have hs : Sparing d (fun _ => False) w w' := by
      have hask : Sparing d (fun _ => False) w { w with tick := w.tick + 1 } :=
        .of_eq rfl rfl rfl rfl rfl
      exact trans_of _ hask ((Sparing.modifyCache _).ok hc)
    exact (h.spared hinv hs).tail.push (.begun rfl)
  | slot hphase hfull hw =>
    exact (wp_of_ok hw (waitForOneJob_present hE hinv h hsound)).tail.push (.begun rfl)
  | @fork f k _ dyn notify n i todo w₁ hphase hfree ha hgo =>
    obtain ⟨hst, hfs⟩ := wp_of_ok ha (addNewJob_stocked hE f.rule h.stocked notify i todo)
    have hleft : Sparing d (· = f.rule.target) w₁ (left f dyn .running w₁) := left_sparing ..
    refine ⟨hst.sparing hleft fun r _ _ hr hd => ?_, fun g hg => ?_⟩
    · have hrun : (left f dyn .running w₁).rulestatus r.target = .running := by
        rw [hr]
        exact Function.update_self ..
      rw [hrun] at hd
      cases hd
    · exact (h.tail.frames g hg).same hfs
  | @ended f k _ dyn rc st w₁ hphase he hgo =>
    have hf := (hinv.frameOK f List.mem_cons_self).1
    have hrc : rc = 0 → f.rule.phony = false → fileExistsAll d w.fs f.rule = true := by
      rintro rfl hphony
      exact hsound.ended f k dyn rfl hphase hphony
    obtain ⟨hs, hmade⟩ := wp_of_ok he
      (endForeground_made hE (d.ruleFor_mem hf) (d.target_ne_nil hf) rc h.stocked hrc)
    have hall : Sparing d (· = f.rule.target) w (left f dyn st w₁) :=
      trans_of _ hs (left_sparing ..)
    refine (h.own hinv hall fun hphony hd => hmade ?_ hphony).replace rfl
    change (Function.update w₁.rulestatus f.rule.target st f.rule.target).done = true at hd
    rwa [Function.update_self] at hd

end Invariant

/-! ## Runs -/

/-- The points that building one requested target after another passes, while every step is
taken where `S` holds. -/
inductive Run (d : Desc) (E : Env) (S : Point → World → Prop) (c : Core) : Point → World → Prop where
  | fresh : Run d E S c [] (World.fresh c)
  | request {w : World} (t : Name) (h : Run d E S c [] w) : Run d E S c [.call t none, .sync t] w
  | step {p p' : Point} {w w' : World} (h : Run d E S c p w) (hs : S p w)
      (hn : next d E p w = .ok p' w') : Run d E S c p' w'
  | settled {t : Name} {st : Status} {w : World} (h : Run d E S c [.ret t st] w) : Run d E S c [] w

/-- What `build` has just returned for this name is no empty promise: the files are there. -/
def ReturnsMade (d : Desc) (p : Point) (w : World) : Prop :=
  ∀ t st k r, p = .ret t st :: k → st.done = true → d.ruleFor t = some r → r.phony = false →
    d.Made r w.fs

/-- `calc-deplist-hash` returns for the dependencies of the rule, and raises no error. -/
def HashReturns (d : Desc) (E : Env) (f : Frame) (dyn : List Name) (w : World) : Prop :=
  wp (calcDeplistHash d E (f.rule.depends ++ dyn)) (fun _ _ => True) (fun _ _ => False) w

section Run
variable {d : Desc} {E : Env} {c : Core} {p : Point} {w : World}

/-- Every run keeps the control invariant. -/
theorem Run.inv {S : Point → World → Prop} (h : Run d E S c p w) :
    ∃ root, Inv d root p w ∧ (p = [] → Idle d w) := by
  induction h with
  | fresh => exact ⟨"", Idle.fresh c "", fun _ => Idle.fresh c⟩
  | request t _ ih =>
    obtain ⟨_, _, hidle⟩ := ih
    exact ⟨t, (hidle rfl).request t, nofun⟩
  | @step p p' w w' _ _ hn ih =>
    obtain ⟨root, hinv, hidle⟩ := ih
    have hinv' := wp_of_ok hn (next_inv p w hinv)
    refine ⟨root, hinv', fun hp' => ?_⟩
    subst hp'
    -- a step ends at the empty point only if it began there
    cases hm : next_moves hinv.shape hn with
    | glance hg => cases hg with
      | idle => exact hidle rfl
  | settled _ ih =>
    obtain ⟨root, hinv, -⟩ := ih
    exact ⟨root, hinv.idle root, fun _ => hinv.idle⟩

theorem Stocked.fresh (c : Core) : Stocked d (World.fresh c) where
  settled _ _ _ h := nomatch h
  sources _ _ h := nomatch h
  jobs _ h := absurd h List.not_mem_nil
  precache _ _ h := nomatch h

/-- Every run in which nothing goes wrong keeps the files. -/
theorem Run.present (hn : d.norun = 0) (hE : Considerate d E) (h : Run d E (Sound d) c p w) :
    Present d p w := by
  induction h with
  | fresh => exact ⟨.fresh c, fun _ hf => absurd hf List.not_mem_nil⟩
  | request t _ ih => exact ih.replace rfl
  | step hrun hs hnext ih =>
    obtain ⟨root, hinv, -⟩ := hrun.inv
    have hinv' := wp_of_ok hnext (next_inv _ _ hinv)
    exact (next_moves hinv.shape hnext).present hn hE ih hinv hinv' hs
  | settled _ ih => exact ih.replace rfl

end Run

/-- `target a -do { touch $target }`. -/
def touchRule : Desc where
  rules := [{ target := ["a"], doList := [⟨[.lit "touch ", .var "target"]⟩] }]
  disjoint := List.pairwise_singleton ..

/-- The first script of a rule makes the file `a`, and no other script does anything. -/
def touchingA : Env where
  exec _ _ part _ := match part with
    | .script 0 => { puts := [("objdir/a", some (.file 1 ""))] }
    | _ => {}
  pick := id

theorem touchingA_considerate : Considerate touchRule touchingA where
  rules tick r part fs s hs _ _ fs' hm := by
    obtain rfl := List.mem_singleton.mp hs
    have hfiles : touchRule.files { target := ["a"], doList := [⟨[.lit "touch ", .var "target"]⟩] } =
        ["objdir/a"] := by decide +kernel
    intro p hp
    obtain rfl : p = "objdir/a" := by
      rw [hfiles] at hp
      exact List.mem_singleton.mp hp
    match part with
    | .script 0 => rfl
    | .script (_ + 1) | .onerror | .finally | .msg => exact hm _ hp
  sources _ _ _ _ t ht := by
    obtain ⟨-, r, hr, hneeds⟩ := ht
    obtain rfl := List.mem_singleton.mp hr
    simp [Rule.NeedsName] at hneeds
  apart r hr s hs _ hne := by
    rw [List.mem_singleton.mp hr, List.mem_singleton.mp hs] at hne
    exact absurd rfl hne
  outside r hr t ht := by
    obtain ⟨-, s, hs, hneeds⟩ := ht
    obtain rfl := List.mem_singleton.mp hs
    simp [Rule.NeedsName] at hneeds

/-- Take some steps, while `S` holds. -/
def walk (d : Desc) (E : Env) (S : Point → World → Bool) : Nat → Point → World →
    Option (Point × World)
  | 0, p, w => some (p, w)
  | n + 1, p, w =>
    if S p w then
      match next d E p w with
      | .ok p' w' => walk d E S n p' w'
      | .error _ _ => none
    else none

theorem Run.walk {d : Desc} {E : Env} {S : Point → World → Prop} {c : Core}
    {S' : Point → World → Bool} (hS : ∀ p w, S' p w = true → S p w) {n : Nat} {p : Point}
    {w : World} {x : Point × World} (h : Run d E S c p w)
    (hx : Tmake.walk d E S' n p w = some x) : Run d E S c x.1 x.2 := by
  induction n generalizing p w with
  | zero =>
    cases hx
    exact h
  | succ n ih =>
    unfold Tmake.walk at hx
    split at hx
    · next hs =>
      cases hnext : next d E p w with
      | ok p' w' =>
        rw [hnext] at hx
        exact ih (h.step (hS p w hs) hnext) hx
      | error e w' =>
        rw [hnext] at hx
        cases hx
    · cases hx

/-- `Sound`, as long as nothing is cleaned. -/
def soundHere (d : Desc) (p : Point) (w : World) : Bool :=
  !w.cleaning && match p with
    | .rule f :: _ => match f.phase with
      | .check _ => !f.rule.doList.isEmpty || f.status != .built || fileExistsAll d w.fs f.rule
      | .ended _ _ => fileExistsAll d w.fs f.rule
      | _ => true
    | _ => true

theorem soundHere.sound {d : Desc} (p : Point) (w : World) (h : soundHere d p w = true) :
    Sound d p w := by
  obtain ⟨hclean, hp⟩ := Bool.and_eq_true_iff.mp h
  constructor
  · rintro f k dyn rfl hphase - hdo hst
    simpa [hphase, hdo, hst] using hp
  · rintro f k dyn rfl hphase -
    simpa [hphase] using hp
  · intro hc
    simp [hc] at hclean

/-- What has just been returned. -/
def returned? : Point → Option (Name × Status)
  | .ret t st :: _ => some (t, st)
  | _ => none

/-- The dependencies that are about to be hashed, if they have been built. -/
def hashing? : Point → Option (List Name)
  | .rule f :: _ => match f.phase with
    | .check dyn => if f.status.done then some (f.rule.depends ++ dyn) else none
    | _ => none
  | _ => none

theorem returned?_some {p : Point} {t : Name} {st : Status} (h : returned? p = some (t, st)) :
    ∃ k, p = .ret t st :: k := by
  unfold returned? at h
  split at h
  · next k =>
    cases h
    exact ⟨k, rfl⟩
  · cases h

theorem hashing?_some {p : Point} {l : List Name} (h : hashing? p = some l) :
    ∃ f k dyn, p = .rule f :: k ∧ f.phase = .check dyn ∧ f.status.done = true ∧
      f.rule.depends ++ dyn = l := by
  unfold hashing? at h
  split at h
  · next f k =>
    split at h
    · next dyn hphase =>
      split at h
      · next hdone => exact ⟨f, k, dyn, rfl, hphase, hdone, Option.some.inj h⟩
      · cases h
    · cases h
  · cases h

/-- `target a -depends s` and `target b -depends a`, without commands. -/
def bareRules : Desc where
  rules := [{ target := ["a"], depends := ["s"] }, { target := ["b"], depends := ["a"] }]
  disjoint := by simp

/-- No script does anything. -/
def idleScripts : Env where
  exec _ _ _ _ := {}
  pick := id

end Tmake
