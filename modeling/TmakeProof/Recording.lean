import TmakeProof.CacheTruth

/-! # A run records what it does

`Recorded` is the invariant of a run in which nothing fails: what the cache says of the
names in `Ok` is true, every job is for a rule that is under way, and every call of the
stack knows how far its scan is and what has been saved of its rule.  One step keeps it
for the same names (`Move.recorded`), if what is being built has none of them
(`Admits`), and what the step settles may join them (`Settles`).  With the names that are
done it is an invariant of all runs (`Run.recorded`).
-/
namespace Tmake
open Weakest Machine

/-! ## The invariant -/

/-- What a call of `build` knows of its rule. -/
def PhaseKnown (d : Desc) (E : Env) (Ok : Name → Prop) (w : World) (r : Rule) (st : Status) :
    Phase → Prop
  | .deps none _ _ => True
  | .scan found prog inputs => (∀ t ∈ r.depends, Ok t) ∧ r.dyndep ≠ none ∧
    ∃ L, Scanning d r Ok w.fs L ⟨found, prog, inputs⟩
  | .deps (some dyn) _ _ => (∀ t ∈ r.depends, Ok t) ∧ Scanned d r Ok w.fs dyn
  | .check dyn => st.done = true → Known d Ok w.fs r dyn
  | .launch dyn => Known d Ok w.fs r dyn ∧ (r.phony = false → Hashed d E w.cache w.fs r dyn)
  | .scripts dyn _ _ | .slots dyn _ _ _ _ | .ended dyn _ => Underway d E Ok w r dyn

/-- A rule that is up to date so far has its files. -/
structure Frame.Knows (d : Desc) (E : Env) (Ok : Name → Prop) (w : World) (f : Frame) : Prop where
  files : f.phase.looking = true → f.rule.phony = false → f.status = .uptodate →
    fileExistsAll d w.fs f.rule = true
  phase : PhaseKnown d E Ok w f.rule f.status f.phase

/-- What has been recorded is true, and so is what is about to be recorded. -/
structure Recorded (d : Desc) (E : Env) (scratch : Path → Prop) (Ok : Name → Prop) (p : Point)
    (w : World) : Prop where
  clean : w.cleaning = false
  truthful : Truthful d E Ok w
  jobs : ∀ job ∈ w.running, ∃ r dyn, JobOK d E scratch Ok w job r dyn
  frames : ∀ f ∈ frames p, f.Knows d E Ok w

section
variable {d : Desc} {E : Env} {scratch : Path → Prop} {Ok Ok' : Name → Prop} {F O : RuleTarget → Prop}
  {root : Name} {p p' q k : Point} {w w' : World} {f g : Frame}

theorem PhaseKnown.changes (hd : Unshared d scratch) (hs : Spares d F Ok)
    (hc : Changes d E.md5 scratch F O w w') {r : Rule} (hr : r ∈ d.rules) (hO : ¬O r.target)
    {st : Status} {phase : Phase} (h : PhaseKnown d E Ok w r st phase) :
    PhaseKnown d E Ok w' r st phase := by
  have hagree := hc.agreeOn hs
  cases phase with
  | deps dyn done todo =>
    cases dyn with
    | none => exact trivial
    | some dyn => exact ⟨h.1, h.2.mono hd hr (fun _ h => h) h.1 hagree⟩
  | scan found prog inputs =>
    obtain ⟨hdeps, hdyndep, L, hscan⟩ := h
    exact ⟨hdeps, hdyndep, L, hscan.mono hd hr (fun _ h => h) hdeps hagree⟩
  | check dyn => exact fun hst => hc.known hd hs hr (h hst)
  | launch dyn =>
    exact ⟨hc.known hd hs hr h.1, fun hphony =>
      hc.hashed hd hs hr h.1 (hc.cache.dephash _ hO) (h.2 hphony)⟩
  | scripts | slots | ended => exact hc.underway hd hs hr hO h

theorem Frame.Knows.changes (hd : Unshared d scratch) (hs : Spares d F Ok)
    (hc : Changes d E.md5 scratch F O w w') (hr : f.rule ∈ d.rules)
    (hF : f.rule.phony = false → ¬F f.rule.target) (hO : ¬O f.rule.target)
    (h : f.Knows d E Ok w) : f.Knows d E Ok w' where
  files hl hphony hst := (hc.files hd hr hF).trans (h.files hl hphony hst)
  phase := h.phase.changes hd hs hc hr hO

theorem JobOK.changes (hd : Unshared d scratch) (hs : Spares d F Ok)
    (hc : Changes d E.md5 scratch F O w w') {job : Job} {r : Rule} {dyn : List Name}
    (hO : ¬O job.ruletarget) (h : JobOK d E scratch Ok w job r dyn) :
    JobOK d E scratch Ok w' job r dyn :=
  ⟨h.rule, h.target, hc.underway hd hs h.rule (h.target ▸ hO) h.underway, h.puts⟩

/-- A step that leaves alone what is on the stack and what is running. -/
theorem Recorded.changes (hd : Unshared d scratch) (hrules : ∀ f ∈ Tmake.frames p, f.rule ∈ d.rules)
    (hs : Spares d F Ok) (h : Recorded d E scratch Ok p w) (hc : Changes d E.md5 scratch F O w w')
    (hown : ∀ t r dyn, Ok t → d.ruleFor t = some r → r.phony = false → O r.target →
      Known d Ok w.fs r dyn → Current d E w.cache w.fs r dyn → Current d E w'.cache w'.fs r dyn)
    (hframes : ∀ f ∈ Tmake.frames p, (f.rule.phony = false → ¬F f.rule.target) ∧ ¬O f.rule.target)
    (hjobs : ∀ job ∈ w'.running, job ∈ w.running ∧ ¬O job.ruletarget) :
    Recorded d E scratch Ok p w' where
  clean := hc.cleaning.trans h.clean
  truthful := hc.truthful hd hs hown h.truthful
  jobs job hj := by
    obtain ⟨hmem, hO⟩ := hjobs job hj
    obtain ⟨r, dyn, hok⟩ := h.jobs job hmem
    exact ⟨r, dyn, hok.changes hd hs hc hO⟩
  frames f hf := by
    obtain ⟨hF, hO⟩ := hframes f hf
    exact (h.frames f hf).changes hd hs hc (hrules f hf) hF hO

/-- A step that records and writes nothing. -/
theorem Recorded.same (hd : Unshared d scratch) (hrules : ∀ f ∈ Tmake.frames p, f.rule ∈ d.rules)
    (h : Recorded d E scratch Ok p w)
    (hc : Changes d E.md5 scratch (fun _ => False) (fun _ => False) w w')
    (hrun : ∀ job ∈ w'.running, job ∈ w.running) : Recorded d E scratch Ok p w' :=
  h.changes hd hrules (.nothing d Ok) hc (fun _ _ _ _ _ _ hO => hO.elim)
    (fun _ _ => ⟨fun _ => id, id⟩) fun job hj => ⟨hrun job hj, id⟩

theorem Recorded.replace (h : Recorded d E scratch Ok p w)
    (hq : Tmake.frames q = Tmake.frames p) : Recorded d E scratch Ok q w :=
  ⟨h.clean, h.truthful, h.jobs, hq ▸ h.frames⟩

theorem Recorded.head (h : Recorded d E scratch Ok (.rule f :: k) w) : f.Knows d E Ok w :=
  h.frames f List.mem_cons_self

theorem Recorded.tail (h : Recorded d E scratch Ok (.rule f :: k) w) : Recorded d E scratch Ok k w :=
  ⟨h.clean, h.truthful, h.jobs, fun g hg => h.frames g (List.mem_cons_of_mem _ hg)⟩

theorem Recorded.push (h : Recorded d E scratch Ok k w) (hf : f.Knows d E Ok w) :
    Recorded d E scratch Ok (.rule f :: k) w :=
  ⟨h.clean, h.truthful, h.jobs, List.forall_mem_cons.mpr ⟨hf, h.frames⟩⟩

/-- No job is for a rule that is on the stack. -/
theorem Inv.job_ne (hinv : Inv d root p w) (hf : f ∈ frames p) {job : Job} (hj : job ∈ w.running) :
    job.ruletarget ≠ f.rule.target := by
  intro he
  have hrun := hinv.job_running job hj
  rw [he] at hrun
  rcases hinv.stacked _ (List.mem_map_of_mem hf) with hs | hs <;> rw [hrun] at hs <;> cases hs

/-- A step for the innermost rule. -/
theorem Recorded.own (hd : Unshared d scratch) (hinv : Inv d root (.rule f :: k) w)
    (hs : Spares d F Ok) (h : Recorded d E scratch Ok (.rule f :: k) w)
    (hc : Changes d E.md5 scratch F (· = f.rule.target) w w') (hF : ∀ rt, F rt → rt = f.rule.target)
    (hown : ∀ t dyn, Ok t → d.ruleFor t = some f.rule → f.rule.phony = false →
      Known d Ok w.fs f.rule dyn → Current d E w.cache w.fs f.rule dyn →
      Current d E w'.cache w'.fs f.rule dyn)
    (hrun : w'.running = w.running) : Recorded d E scratch Ok k w' := by
  have hf := d.ruleFor_mem (hinv.frameOK f List.mem_cons_self).1
  have hbelow : ∀ g ∈ Tmake.frames k, g.rule.target ≠ f.rule.target := fun g hg => hinv.below_ne hg
  refine ⟨hc.cleaning.trans h.clean,
    hc.truthful hd hs (fun t r dyn ht hr hphony he hk hcur => ?_) h.truthful, fun job hj => ?_,
    fun g hg => ?_⟩
  · obtain rfl := d.rule_eq_of_target (d.ruleFor_mem hr) hf (d.target_ne_nil hr) he
    exact hown t dyn ht hr hphony hk hcur
  · rw [hrun] at hj
    obtain ⟨r, dyn, hok⟩ := h.jobs job hj
    exact ⟨r, dyn, hok.changes hd hs hc (hinv.job_ne List.mem_cons_self hj)⟩
  · exact (h.tail.frames g hg).changes hd hs hc (hinv.frame_mem (List.mem_cons_of_mem _ hg))
      (fun _ hFg => hbelow g hg (hF _ hFg)) (hbelow g hg)

/-- A step that writes files of the innermost rule, which has no name in `Ok`. -/
theorem Recorded.wrote (hd : Unshared d scratch) (hinv : Inv d root (.rule f :: k) w)
    (hs : Spares d (· = f.rule.target) Ok) (h : Recorded d E scratch Ok (.rule f :: k) w)
    (hc : Changes d E.md5 scratch (· = f.rule.target) (· = f.rule.target) w w')
    (hrun : w'.running = w.running) : Recorded d E scratch Ok k w' :=
  h.own hd hinv hs hc (fun _ he => he) (fun t _ ht htr hphony _ _ => absurd rfl (hs t _ ht htr hphony))
    hrun

/-! ## Steps that only look -/

/-- What is being built has no name in `Ok`; a name joins `Ok` once it is done. -/
structure Admits (d : Desc) (Ok : Name → Prop) (p : Point) (w : World) : Prop where
  begun : ∀ f k, p = .rule f :: k → f.phase.looking = false → Spares d (· = f.rule.target) Ok
  jobs : ∀ job ∈ w.running, Spares d (· = job.ruletarget) Ok
  deps : ∀ f k dyn done, p = .rule f :: k → f.phase = .deps dyn done [] →
    (depsStatus d f.rule.phony done f.status).done = true →
    ∀ t ∈ f.rule.depends ++ dyn.getD [], Ok t
  returned : ∀ t st k, p = .ret t st :: k → d.isTarget t = true → st.done = true → Ok t

/-- No target has failed, and a scan is not told that one is not yet built. -/
def Answers (d : Desc) (p : Point) : Prop :=
  ∀ t st k, p = .ret t st :: k → (d.isTarget t = true → st ≠ .failed) ∧
    ∀ f k' found file keep kont inputs, k = .rule f :: k' →
      f.phase = .scan found (.lookup file keep kont) inputs → st ≠ .waiting ∧ st ≠ .running

theorem buildSource_same {t : Name} {st : Status} (h : buildSource t w = .ok st w') :
    Changes d E.md5 scratch F O w w' ∧ w'.running = w.running := by
  have hwp : wp (buildSource t) (fun _ w' => ∃ ts, w' = { w with targetstatus := ts })
      (fun _ _ => True) w := by
    unfold buildSource
    rw [wp_bind, wp_get]
    split
    · exact ⟨w.targetstatus, rfl⟩
    · exact ⟨_, rfl⟩
  obtain ⟨ts, rfl⟩ := wp_of_ok h hwp
  exact ⟨.of_eq rfl rfl rfl rfl, rfl⟩

theorem lookupFile_done {st : Status} {file : Name} {answer : Bool} (ht : d.isTarget file = true)
    (hst : st.done = true) : lookupFile d (fun _ => return st) file w = .ok answer w' ↔
      w.fs.exists? (d.scanFile file) = answer ∧ w = w' := by
  have hc : (st = .built || st = .uptodate) = true := by cases st <;> simp_all [Status.done]
  unfold lookupFile Desc.scanFile
  rw [if_pos ht, if_pos ht, pure_bind, if_pos hc]
  simp only [bind_ok_iff, get_ok_iff, pure_ok_iff]
  constructor
  · rintro ⟨_, _, ⟨rfl, rfl⟩, h⟩
    exact h
  · exact fun h => ⟨w, w, ⟨rfl, rfl⟩, h⟩

/-- The scan goes on with the answer. -/
theorem PhaseKnown.answered {r : Rule} {st st' : Status} {found inputs : List Name} {file : Name}
    {keep : FS → Bool} {kont : Bool → Scan}
    (h : PhaseKnown d E Ok w r st (.scan found (.lookup file keep kont) inputs))
    (hok : d.isTarget file = true → Ok file) {answer : Bool}
    (ha : w.fs.exists? (d.scanFile file) = answer) :
    PhaseKnown d E Ok w r st' (.scan (if answer && keep w.fs then found ++ [file] else found)
      (kont answer) inputs) := by
  obtain ⟨hdeps, hdyndep, L, hscan⟩ := h
  have hnext := hscan.lookup hok
  rw [ScanPoint.answered, ha] at hnext
  exact ⟨hdeps, hdyndep, _, hnext⟩

/-- What follows the static dependencies, once they are done. -/
theorem PhaseKnown.afterStatic {st : Status} (hdeps : st.done = true → ∀ t ∈ f.rule.depends, Ok t) :
    PhaseKnown d E Ok w f.rule st (afterStatic f st) := by
  unfold Tmake.afterStatic
  split
  · next hc =>
    have hdone : st.done = true := by cases st <;> simp_all [Status.done]
    split
    · next hdyndep =>
      refine ⟨hdeps hdone, ?_⟩
      unfold Scanned
      rw [hdyndep]
    · next dyndep hdyndep =>
      exact ⟨hdeps hdone, by simp [hdyndep], _, .start⟩
  · next hc =>
    intro hdone
    cases st <;> simp_all [Status.done]

theorem Glance.recorded (hd : Unshared d scratch) (hinv : Inv d root p w)
    (h : Recorded d E scratch Ok p w) (ha : Admits d Ok p w) (hans : Answers d p)
    (hm : Glance d E p w p' w') : Recorded d E scratch Ok p' w' := by
  have hrules : ∀ f ∈ frames p, f.rule ∈ d.rules := fun f hf => hinv.frame_mem hf
  -- the innermost call goes on in another phase, with the same status
  have hgoto : ∀ {f : Frame} {k : Point} {phase : Phase}, Recorded d E scratch Ok (.rule f :: k) w' →
      f.phase.looking = true → PhaseKnown d E Ok w' f.rule f.status phase →
      Recorded d E scratch Ok (.rule (f.goto phase) :: k) w' := fun h hl hphase =>
    h.tail.push ⟨fun _ => h.head.files hl, hphase⟩
  cases hm with
  | idle => exact h
  | source hr hs =>
    obtain ⟨hc, hrun⟩ := buildSource_same hs
    exact (h.same hd hrules hc fun job hj => hrun ▸ hj).replace rfl
  | @settled t n k _ r hr hst =>
    have hc : Changes d E.md5 scratch (fun _ => False) (fun _ => False) w { w with
        trace := ⟨.returned t (w.rulestatus r.target), w.toCore⟩ :: w.trace } := .of_eq rfl rfl rfl rfl
    exact (h.same hd hrules hc fun _ hj => hj).replace rfl
  | @enter t n k _ r hr hst =>
    have hc : Changes d E.md5 scratch (fun _ => False) (fun _ => False) w { w with
        rulestatus := Function.update w.rulestatus r.target .checking
        current := t :: w.current } := .of_eq rfl rfl rfl rfl
    have h' := (h.same hd hrules hc fun _ hj => hj).replace (q := k) rfl
    refine h'.push ⟨fun _ hphony hup => ?_, trivial⟩
    by_contra hnot
    simp [initialStatus, hnot] at hup
  | dep => exact h.replace rfl
  | @static f k _ done st hphase hst =>
    refine h.tail.push ⟨fun _ hphony hup => ?_, ?_⟩
    · rw [← hst] at hup
      exact h.head.files (by rw [hphase]; rfl) hphony (depsStatus_uptodate hup)
    · refine PhaseKnown.afterStatic fun hdone t ht => ?_
      exact ha.deps f k none done rfl hphase (hst ▸ hdone) t (List.mem_append_left _ ht)
  | @dynamic f k _ dyn done st hphase hst =>
    have hknown := h.head.phase
    rw [hphase] at hknown
    refine h.tail.push ⟨fun _ hphony hup => ?_, fun hdone => ?_⟩
    · rw [← hst] at hup
      exact h.head.files (by rw [hphase]; rfl) hphony (depsStatus_uptodate hup)
    · exact ⟨hknown.2, ha.deps f k (some dyn) done rfl hphase (hst ▸ hdone)⟩
  | @scanned f k _ found hphase =>
    have hknown := h.head.phase
    rw [hphase] at hknown
    obtain ⟨hdeps, hdyndep, L, hscan⟩ := hknown
    refine hgoto h (by rw [hphase]; rfl) ⟨hdeps, ?_⟩
    unfold Scanned
    split
    · next hnone => exact absurd hnone hdyndep
    · exact ⟨L, hscan⟩
  | @noscan f k _ found i inputs hphase hnone =>
    have hknown := h.head.phase
    rw [hphase] at hknown
    exact absurd hnone hknown.2.1
  | @input f k _ found i inputs dyndep hphase hsome =>
    have hknown := h.head.phase
    rw [hphase] at hknown
    obtain ⟨hdeps, hdyndep, L, hscan⟩ := hknown
    exact hgoto h (by rw [hphase]; rfl) ⟨hdeps, hdyndep, L, hscan.input hsome⟩
  | @peek f k _ found kont inputs hphase =>
    have hknown := h.head.phase
    rw [hphase] at hknown
    obtain ⟨hdeps, hdyndep, L, hscan⟩ := hknown
    exact hgoto h (by rw [hphase]; rfl) ⟨hdeps, hdyndep, L, hscan.peek⟩
  | look => exact h.replace rfl
  | @answer f k _ found file keep kont inputs hphase ht =>
    have hknown := h.head.phase
    rw [hphase] at hknown
    refine hgoto h (by rw [hphase]; rfl) (hknown.answered (fun htarget => ?_) ?_)
    · rw [ht] at htarget
      cases htarget
    · rw [Desc.scanFile, ht]
      rfl
  | @depRet t st f k _ _ dyn done dep todo hphase hfailed =>
    have hq := (depFailed_quiet (d := d) (E := E) (S := fun _ => False) (O := fun _ => False)
      st).ok hfailed
    have h' := h.same hd hrules ((Changes.elementary.depFailed E st).ok hfailed) fun job hj =>
      hq.running ▸ hj
    have h' : Recorded d E scratch Ok (.rule f :: k) w' := h'.replace rfl
    have hknown := h'.head.phase
    rw [hphase] at hknown
    refine hgoto h' (by rw [hphase]; rfl) ?_
    cases dyn <;> exact hknown
  | @lookRet t st f k _ _ found file keep kont inputs answer hphase hl =>
    obtain rfl : file = t := by
      cases hinv.shape with
      | ret hcalled =>
        cases hcalled with
        | dep hphase' hbelow =>
          rw [hphase] at hphase'
          cases hphase'
      | found hphase' hbelow =>
        rw [hphase] at hphase'
        simp only [Phase.scan.injEq, Scan.lookup.injEq] at hphase'
        exact hphase'.2.1.1
    have h' : Recorded d E scratch Ok (.rule f :: k) w := h.replace rfl
    have hknown := h'.head.phase
    rw [hphase] at hknown
    by_cases ht : d.isTarget file = true
    · obtain ⟨hfail, hwait⟩ := hans file st _ rfl
      obtain ⟨hw, hr⟩ := hwait f k found file keep kont inputs rfl hphase
      have hproper := (hinv.returned file st _ rfl).1
      have hdone : st.done = true := by
        cases st <;> simp_all [Status.done, Status.proper]
      obtain ⟨hanswer, rfl⟩ := (lookupFile_done ht hdone).mp hl
      exact hgoto h' (by rw [hphase]; rfl)
        (hknown.answered (fun _ => ha.returned file st _ rfl ht hdone) hanswer)
    · have ht : d.isTarget file = false := by simpa using ht
      obtain ⟨hanswer, rfl⟩ := (lookupFile_ok ht).mp hl
      refine hgoto h' (by rw [hphase]; rfl) (hknown.answered (fun htarget => ?_) ?_)
      · rw [ht] at htarget
        cases htarget
      · rw [Desc.scanFile, ht]
        exact hanswer
  | synced => exact h.replace rfl

/-! ## Steps that record and write -/

/-- What a step has settled has been recorded. -/
def Settles (d : Desc) (E : Env) (Ok : Name → Prop) (w w' : World) : Prop :=
  ∀ r ∈ d.rules, (w.rulestatus r.target).done = false → (w'.rulestatus r.target).done = true →
    ∃ dyn, Known d Ok w'.fs r dyn ∧
      (r.phony = false → r.doList ≠ [] → Current d E w'.cache w'.fs r dyn)

theorem Settles.of_eq (h : ∀ rt, (w'.rulestatus rt).done = true → (w.rulestatus rt).done = true) :
    Settles d E Ok w w' := by
  intro r _ hnot hdone
  rw [h _ hdone] at hnot
  cases hnot

/-- A job is reaped. -/
theorem Recorded.waited (hd : Unshared d scratch) (hE : Confined d scratch E) (hinv : Inv d root p w)
    (h : Recorded d E scratch Ok p w) (ha : Admits d Ok p w) {b : Bool}
    (hw : waitForOneJob d E w = .ok b w') (hsmooth : Smooth w'.trace) :
    Recorded d E scratch Ok p w' ∧ Settles d E Ok w w' := by
  have hspec := (waitForOneJob_ends hd hE h.jobs).and (waitForOneJob_spec w)
  obtain ⟨hends, hwaited⟩ := wp_of_ok hw hspec
  rcases hends with ⟨hnone, rfl⟩ | ⟨i, job, r, dyn, hi, hrun, hok, hends⟩
  · exact ⟨h, .of_eq fun _ h => h⟩
  have hmem := List.mem_of_getElem? hi
  have hends := hends hsmooth
  have hs : Spares d (· = r.target) Ok := by
    rw [hok.target]
    exact ha.jobs job hmem
  have hothers : ∀ j, j ∈ w'.running ↔ j ∈ w.running ∧ j.ruletarget ≠ job.ruletarget := by
    intro j
    rw [hrun]
    exact mem_eraseIdx_iff_of_nodup hinv.job_nodup hi
  constructor
  · refine h.changes hd (fun f hf => hinv.frame_mem hf) hs hends.changes
      (fun t s dyn ht hts hphony he => ?_) (fun f hf => ?_)
      fun j hj => ?_
    · exact absurd he (hs t s ht hts hphony)
    · have hne : f.rule.target ≠ r.target := fun he => hinv.job_ne hf hmem (hok.target ▸ he.symm)
      exact ⟨fun _ => hne, hne⟩
    · obtain ⟨hj, hne⟩ := (hothers j).mp hj
      exact ⟨hj, hok.target ▸ hne⟩
  · intro s hsr hnot hdone
    -- the rule that has been settled is the one of the job
    have hw : Waited w w' := hwaited.resolve_left fun hnone => by
      rw [hnone.1] at hmem
      exact absurd hmem List.not_mem_nil
    obtain ⟨i', job', hi', hrun', -, hother⟩ := hinv.reaped hw
    have hsame : job'.ruletarget = job.ruletarget := by
      by_contra hne
      have hin : job' ∈ w'.running := (hothers job').mpr ⟨List.mem_of_getElem? hi', hne⟩
      rw [hrun', mem_eraseIdx_iff_of_nodup hinv.job_nodup hi'] at hin
      exact hin.2 rfl
    have hst : s.target = job.ruletarget := by
      by_contra hne
      rcases hother s.target (hsame ▸ hne) with he | ⟨-, he⟩ | ⟨-, he, -⟩
      · rw [he, hnot] at hdone
        cases hdone
      · rw [he] at hdone
        cases hdone
      · rw [he] at hdone
        cases hdone
    obtain ⟨-, n, -, -, t, -, r', hr', hrj'⟩ := hinv.job_awaited job hmem
    have hne : s.target ≠ [] := by
      rw [hst, ← hrj']
      exact d.target_ne_nil hr'
    obtain rfl := d.rule_eq_of_target hsr hok.rule hne (hst.trans hok.target.symm)
    exact ⟨dyn, hends.changes.known hd hs hsr hok.underway.known, fun hphony _ =>
      hends.current hd hs hsr hphony h.clean hok.underway⟩

theorem left_changes (f : Frame) (dyn : List Name) (st : Status) (w : World) :
    Changes d E.md5 scratch F O w (left f dyn st w) := .of_eq rfl rfl rfl rfl

/-- A call is left. -/
theorem Recorded.leaves (hd : Unshared d scratch) (hinv : Inv d root (.rule f :: k) w) {w₁ : World}
    (h : Recorded d E scratch Ok k w₁) (dyn : List Name) (st : Status) :
    Recorded d E scratch Ok (.ret f.target st :: k) (left f dyn st w₁) :=
  (h.same hd (fun _ hg => hinv.frame_mem (List.mem_cons_of_mem _ hg)) (left_changes f dyn st w₁)
    fun _ hj => hj).replace rfl

/-- Leaving a call settles its rule only. -/
theorem Settles.leaves (hinv : Inv d root (.rule f :: k) w) {dyn : List Name} {st : Status} {w₁ : World}
    (hq : ∀ rt, rt ≠ f.rule.target → w₁.rulestatus rt = w.rulestatus rt)
    (hown : st.done = true → ∃ dyn, Known d Ok w₁.fs f.rule dyn ∧
      (f.rule.phony = false → f.rule.doList ≠ [] → Current d E w₁.cache w₁.fs f.rule dyn)) :
    Settles d E Ok w (left f dyn st w₁) := by
  intro r hr hnot hdone
  have hf := (hinv.frameOK f List.mem_cons_self).1
  change (Function.update w₁.rulestatus f.rule.target st r.target).done = true at hdone
  by_cases he : r.target = f.rule.target
  · obtain rfl := d.rule_eq_of_target (d.ruleFor_mem hf) hr (d.target_ne_nil hf) he.symm
    rw [Function.update_self] at hdone
    exact hown hdone
  · rw [Function.update_of_ne he, hq _ he, hnot] at hdone
    cases hdone

/-- What is known of a rule after its checks. -/
structure Checked (d : Desc) (E : Env) (scratch : Path → Prop) (Ok : Name → Prop) (k : Point)
    (f : Frame) (dyn : List Name) (st : Status) (w w' : World) : Prop where
  below : Recorded d E scratch Ok k w'
  known : st.done = true → Known d Ok w'.fs f.rule dyn
  hashed : st.done = true → f.rule.phony = false → Hashed d E w'.cache w'.fs f.rule dyn
  current : st = .uptodate → f.rule.phony = false → f.rule.doList ≠ [] →
    Current d E w'.cache w'.fs f.rule dyn
  other : ∀ rt, w'.rulestatus rt = w.rulestatus rt

/-- The checks of a rule compare it with what is true of it. -/
theorem Recorded.checked (hn : d.norun = 0) (hforce : d.force = false) (hd : Unshared d scratch)
    (hinv : Inv d root (.rule f :: k) w) (h : Recorded d E scratch Ok (.rule f :: k) w)
    {dyn : List Name} (hphase : f.phase = .check dyn) {st : Status}
    (hc : checkRule d E f.rule f.target (d.vardict f.rule) dyn f.status w = .ok st w') :
    Checked d E scratch Ok k f dyn st w w' := by
  have hf := (hinv.frameOK f List.mem_cons_self).1
  obtain ⟨hre, hhash, hout, hup, -, hsame⟩ := wp_of_ok hc
    (checkRule_compared hn hforce hf w h.truthful.owned)
  have hq := (checkRule_quiet (E := E) (S := fun _ => False) (O := (· = f.rule.target)) f.target
    (d.vardict f.rule) dyn f.status rfl).ok hc
  have hknown := h.head.phase
  rw [hphase] at hknown
  have hdone : st.done = true → f.status.done = true := by
    rcases hout with rfl | ⟨he, -⟩
    · exact id
    · exact fun _ => by rw [he]; rfl
  refine ⟨?_, fun hst => ?_, fun hst hphony => hhash (.inr ⟨hdone hst, hphony⟩), fun hst hphony hdo => ?_,
    fun rt => hq.rulestatus rt id⟩
  · by_cases hst : f.status.done = true
    · refine h.own hd hinv (.nothing d Ok) hre.changes (fun _ hF => hF.elim)
        (fun _ dyn' _ _ hphony hk hcur => ?_) hq.running
      obtain rfl := (hknown hst).unique hk
      have hsaved := hhash (.inl hcur.hash)
      rw [hre.rest] at hsaved ⊢
      exact ⟨hcur.files, hcur.deps, hsaved, hcur.cmd, hcur.exec⟩
    · obtain rfl := hsame (by simpa using hst)
      exact h.tail
  · rw [hre.fs_eq]
    exact hknown (hdone hst)
  · obtain ⟨hdeps, hcmd, hexec⟩ := hup hphony hdo hst
    have hst' : f.status = .uptodate := by
      rw [hst] at hout
      exact hout.of_uptodate
    refine ⟨?_, hdeps, hhash (.inr ⟨by rw [hst']; rfl, hphony⟩), hcmd, hexec⟩
    rw [hre.fs_eq]
    exact h.head.files (by rw [hphase]; rfl) hphony hst'

/-- What precedes a `-do` list, up to the entry in `tmakeprecache`. -/
theorem begin_works (hE : Confined d scratch E) {r : Rule} (hr : r ∈ d.rules) {t : Name}
    {dyn : List Name} {w₁ : World} (h₁ : prepareRule d E r w = .ok ⟨⟩ w₁)
    (h₂ : beginRule d E r t (d.vardict r) dyn w₁ = .ok ⟨⟩ w') :
    ∃ w₂ trace, Works d E scratch r w w₂ ∧ ExecCurrent d E w₂.cache r ∧ w' = { w₂ with
      precache := Function.update w₂.precache r.target (some ⟨r, t, dyn, d.vardict r⟩), trace } := by
  obtain ⟨hw₁, hexec⟩ := wp_of_ok h₁ (prepareRule_works hE hr w)
  have hbegin : wp (beginRule d E r t (d.vardict r) dyn)
      (fun _ w' => ∃ w₂ trace, Works d E scratch r w₁ w₂ ∧ w' = { w₂ with
        precache := Function.update w₂.precache r.target (some ⟨r, t, dyn, d.vardict r⟩), trace })
      (fun _ _ => True) w₁ := by
    have hos : Under (Works d E scratch r) (osCheck E) := Works.elementary.osCheck E
    unfold beginRule
    rw [wp_bind]
    exact (hos w₁).imp (fun _ w₂ hw => ⟨w₂, _, hw, rfl⟩) fun _ _ _ => trivial
  obtain ⟨w₂, trace, hw₂, he⟩ := wp_of_ok h₂ hbegin
  exact ⟨w₂, trace, trans_of _ hw₁ hw₂, hw₂.exec hexec, he⟩

theorem begin_changes (hE : Confined d scratch E) {r : Rule} (hr : r ∈ d.rules) {t : Name}
    {dyn : List Name} {w₁ : World} (h₁ : prepareRule d E r w = .ok ⟨⟩ w₁)
    (h₂ : beginRule d E r t (d.vardict r) dyn w₁ = .ok ⟨⟩ w') :
    Changes d E.md5 scratch (· = r.target) (· = r.target) w w' := by
  obtain ⟨w₂, trace, hw, -, he⟩ := begin_works hE hr h₁ h₂
  have hlast : Changes d E.md5 scratch (· = r.target) (· = r.target) w₂ w' := by
    rw [he]
    exact ⟨fun _ _ _ => rfl, fun _ _ _ _ => rfl, refl_of _ _, id,
      fun rt hrt => Function.update_of_ne hrt .., rfl⟩
  exact trans_of _ hw.changes hlast

/-- The `-do` list of a rule begins. -/
theorem Recorded.begins (hd : Unshared d scratch) (hE : Confined d scratch E)
    (hinv : Inv d root (.rule f :: k) w) (hs : Spares d (· = f.rule.target) Ok)
    (h : Recorded d E scratch Ok (.rule f :: k) w) {dyn : List Name} (hphase : f.phase = .launch dyn)
    {w₁ : World} (h₁ : prepareRule d E f.rule w = .ok ⟨⟩ w₁)
    (h₂ : beginRule d E f.rule f.target (d.vardict f.rule) dyn w₁ = .ok ⟨⟩ w') :
    Recorded d E scratch Ok k w' ∧ Underway d E Ok w' f.rule dyn ∧
      ∀ rt, w'.rulestatus rt = w.rulestatus rt := by
  have hr := hinv.frame_mem (f := f) List.mem_cons_self
  have hq₁ := (prepareRule_quiet (E := E) (S := fun _ => False) (O := (· = f.rule.target)) rfl).ok h₁
  obtain ⟨_, hq₂, he₂⟩ := wp_of_ok h₂ (beginRule_spec f.rule f.target (d.vardict f.rule) dyn w₁)
  obtain ⟨w₂, trace, hw₂, hexec, he⟩ := begin_works hE hr h₁ h₂
  have hchanges := begin_changes hE hr h₁ h₂
  have hknown := h.head.phase
  rw [hphase] at hknown
  refine ⟨h.wrote hd hinv hs hchanges ?_, ⟨?_, fun hphony => ?_, ?_, fun info hi => ?_⟩, fun rt => ?_⟩
  · rw [he₂]
    exact hq₂.running.trans hq₁.running
  · exact hchanges.known hd hs hr hknown.1
  · refine hchanges.hashed hd hs hr hknown.1 ?_ (hknown.2 hphony)
    rw [he]
    exact hw₂.dephash
  · rw [he]
    exact hexec
  · rw [he] at hi
    change Function.update w₂.precache f.rule.target _ f.rule.target = some info at hi
    rw [Function.update_self] at hi
    obtain rfl := Option.some.inj hi
    exact ⟨rfl, rfl, rfl⟩
  · rw [he₂]
    exact (hq₂.rulestatus rt id).trans (hq₁.rulestatus rt id)

/-- The `-do` list of a rule goes on in a job. -/
theorem Recorded.forks (hd : Unshared d scratch) (hE : Confined d scratch E)
    (hinv : Inv d root (.rule f :: k) w) (h : Recorded d E scratch Ok (.rule f :: k) w)
    {dyn : List Name} (hu : Underway d E Ok w f.rule dyn) {notify : RuleTarget} {i : Nat}
    {todo : List Script} {w₁ : World} (h₁ : addNewJob E f.rule notify i todo w = .ok ⟨⟩ w₁) :
    Recorded d E scratch Ok k (left f dyn .running w₁) := by
  have hr := d.ruleFor_mem (hinv.frameOK f List.mem_cons_self).1
  have hspec : wp (addNewJob E f.rule notify i todo)
      (fun _ w' => w'.fs = w.fs ∧ w'.cache = w.cache ∧ w'.precache = w.precache ∧
        w'.cleaning = w.cleaning ∧ ∃ job, job.ruletarget = f.rule.target ∧
          (∀ x ∈ job.puts, d.Writes scratch f.rule x.1) ∧ w'.running = w.running ++ [job])
      (fun _ _ => True) w := by
    unfold addNewJob emit
    rw [wp_bind, wp_modify, wp_modify]
    refine ⟨rfl, rfl, rfl, rfl, _, rfl, ?_, rfl⟩
    exact childScripts_puts f.rule (fun tick i fs x hx => (hE f.rule hr tick _ fs x hx).1) _ _ _ _
  obtain ⟨hfs, hcache, hpre, hclean, job, hjob, hputs, hrun⟩ := wp_of_ok h₁ hspec
  have hc : Changes d E.md5 scratch (fun _ => False) (fun _ => False) w (left f dyn .running w₁) :=
    .of_eq hfs hcache hpre hclean
  have hs := Spares.nothing d Ok
  refine ⟨hc.cleaning.trans h.clean, hc.truthful hd hs (fun _ _ _ _ _ _ hO => hO.elim) h.truthful,
    fun j hj => ?_, fun g hg => ?_⟩
  · change j ∈ w₁.running at hj
    rw [hrun] at hj
    rcases List.mem_append.mp hj with hj | hj
    · obtain ⟨r, dyn', hok⟩ := h.jobs j hj
      exact ⟨r, dyn', hok.changes hd hs hc id⟩
    · rw [List.mem_singleton.mp hj]
      exact ⟨f.rule, dyn, hr, hjob.symm, hc.underway hd hs hr id hu, hputs⟩
  · exact (h.tail.frames g hg).changes hd hs hc (hinv.frame_mem (List.mem_cons_of_mem _ hg))
      (fun _ => id) id

/-- Looking settles no rule. -/
theorem Glance.still (hm : Glance d E p w p' w') (rt : RuleTarget)
    (h : (w'.rulestatus rt).done = true) : (w.rulestatus rt).done = true := by
  cases hm with
  | source hr hs => rwa [(buildSource_ok hs).1] at h
  | @enter t n k _ r hr hst =>
    change (Function.update w.rulestatus r.target .checking rt).done = true at h
    by_cases he : rt = r.target
    · rw [he, Function.update_self] at h
      cases h
    · rwa [Function.update_of_ne he] at h
  | @depRet t st f k _ _ dyn done dep todo hphase hfailed =>
    have hq := (depFailed_quiet (d := d) (E := E) (S := fun _ => False) (O := fun _ => False)
      st).ok hfailed
    rwa [hq.rulestatus rt id] at h
  | @lookRet t st f k _ _ found file keep kont inputs answer hphase hl =>
    have hq := (lookupFile_quiet (d := d) (E := E) (S := fun _ => False) (O := fun _ => False) st
      file).ok hl
    rwa [hq.rulestatus rt id] at h
  | idle | settled | dep | static | dynamic | scanned | noscan | input | peek | look | answer |
    synced => exact h

/-- **Every step records what it does.** -/
theorem Move.recorded (hn : d.norun = 0) (hforce : d.force = false) (hd : Unshared d scratch)
    (hE : Confined d scratch E) (hinv : Inv d root p w) (h : Recorded d E scratch Ok p w)
    (ha : Admits d Ok p w) (hans : Answers d p) (hsmooth : Smooth w'.trace)
    (hm : Move d E p w p' w') : Recorded d E scratch Ok p' w' ∧ Settles d E Ok w w' := by
  cases hm with
  | glance hg => exact ⟨hg.recorded hd hinv h ha hans, .of_eq hg.still⟩
  | wait _ hw =>
    obtain ⟨h', hs⟩ := h.waited hd hE hinv ha hw hsmooth
    exact ⟨h'.replace rfl, hs⟩
  | @launch f k _ dyn _ hphase hc hdo =>
    have hch := h.checked hn hforce hd hinv hphase hc
    refine ⟨hch.below.push ⟨fun hl => absurd hl Bool.false_ne_true, hch.known rfl, hch.hashed rfl⟩,
      .of_eq fun rt hrt => ?_⟩
    rwa [hch.other] at hrt
  | @skip f k _ dyn st w₁ hphase hc hdo =>
    have hch := h.checked hn hforce hd hinv hphase hc
    refine ⟨hch.below.leaves hd hinv dyn st, .leaves hinv (fun rt _ => hch.other rt) fun hst => ?_⟩
    refine ⟨dyn, hch.known hst, fun hphony hdo' => ?_⟩
    have hup : st = .uptodate := by
      cases st <;> simp_all [Status.done]
    exact hch.current hup hphony hdo'
  | dry _ hdry => exact absurd hn hdry
  | @begin f k _ dyn w₁ _ hphase _ h₁ h₂ =>
    have hs := ha.begun f k rfl (by rw [hphase]; rfl)
    obtain ⟨h', hu, hother⟩ := h.begins hd hE hinv hs hphase h₁ h₂
    have hphase' : PhaseKnown d E Ok w' f.rule f.status (firstPhase d f dyn w') := by
      unfold firstPhase
      split <;> exact hu
    have hlooking : (firstPhase d f dyn w').looking = false := by
      unfold firstPhase
      split <;> rfl
    refine ⟨h'.push ⟨fun hl => ?_, hphase'⟩, .of_eq fun rt hrt => by rwa [hother] at hrt⟩
    rw [Frame.goto_phase, hlooking] at hl
    cases hl
  | @finished f k _ dyn i hphase =>
    have hu := h.head.phase
    rw [hphase] at hu
    exact ⟨h.tail.push ⟨fun hl => absurd hl Bool.false_ne_true, hu⟩, .of_eq fun _ h => h⟩
  | @script f k _ dyn i script todo res _ hphase hres hrun happly =>
    have hu := h.head.phase
    rw [hphase] at hu
    subst hres
    have hs := ha.begun f k rfl (by rw [hphase]; rfl)
    have hr := hinv.frame_mem (f := f) List.mem_cons_self
    have hask : Works d E scratch f.rule w { w with tick := w.tick + 1 } := .of_eq rfl rfl rfl rfl
    have hw := trans_of (Works d E scratch f.rule) hask ((applyResult_works hE hr _ _ _).ok happly)
    have hq := (applyResult_quiet (d := d) (E := E) (S := fun _ => False)
      (O := (· = f.rule.target)) rfl).ok happly
    have hu' := hw.underway hd hs hr hu
    refine ⟨(h.wrote hd hinv hs hw.changes hq.running).push ?_, .of_eq fun rt hrt => ?_⟩
    · split <;> exact ⟨fun hl => absurd hl Bool.false_ne_true, hu'⟩
    · rwa [hq.rulestatus rt id] at hrt
  | @forks f k _ dyn i script todo res notify _ hphase hres hrun hrec =>
    have hu := h.head.phase
    rw [hphase] at hu
    have hs := ha.begun f k rfl (by rw [hphase]; rfl)
    have hr := hinv.frame_mem (f := f) List.mem_cons_self
    have hask : Works d E scratch f.rule w { w with tick := w.tick + 1 } := .of_eq rfl rfl rfl rfl
    have hw := trans_of (Works d E scratch f.rule) hask ((recordCmds_works _).ok hrec)
    have hq := (recordCmds_quiet (d := d) (E := E) (S := fun _ => False) (O := (· = f.rule.target))
      _ rfl).ok hrec
    refine ⟨(h.wrote hd hinv hs hw.changes hq.running).push
      ⟨fun hl => absurd hl Bool.false_ne_true, hw.underway hd hs hr hu⟩,
      .of_eq fun rt hrt => ?_⟩
    rwa [hq.rulestatus rt id] at hrt
  | @slot f k _ dyn notify n i todo b _ hphase hfull hw =>
    obtain ⟨h', hs⟩ := h.waited hd hE hinv ha hw hsmooth
    have hu := h'.head.phase
    rw [hphase] at hu
    exact ⟨h'.tail.push ⟨fun hl => absurd hl Bool.false_ne_true, hu⟩, hs⟩
  | @fork f k _ dyn notify n i todo w₁ hphase hfree hadd hgo =>
    have hu := h.head.phase
    rw [hphase] at hu
    obtain ⟨job, -, -, hsets⟩ := wp_of_ok hadd (addNewJob_sets f.rule notify i todo w)
    exact ⟨(h.forks hd hE hinv hu hadd).replace rfl, .leaves hinv (fun rt hrt => hsets.other hrt)
      fun hl => absurd hl Bool.false_ne_true⟩
  | @ended f k _ dyn rc st w₁ hphase hend hgo =>
    have hu := h.head.phase
    rw [hphase] at hu
    have hs := ha.begun f k rfl (by rw [hphase]; rfl)
    have hr := hinv.frame_mem (f := f) List.mem_cons_self
    have hq := (endForeground_quiet (d := d) (E := E) (S := (· = f.rule.target))
      (O := (· = f.rule.target)) rc rfl rfl).ok hend
    have hsmooth₁ : Smooth w₁.trace :=
      hsmooth.mono ((List.suffix_cons _ _).trans (List.suffix_cons _ _))
    have hends := wp_of_ok hend (endForeground_ends hd hE hr hu.info rc) hsmooth₁
    refine ⟨(h.wrote hd hinv hs hends.changes hq.running).leaves hd hinv dyn st,
      .leaves hinv (fun rt hrt => hq.rulestatus rt hrt) fun _ => ⟨dyn, ?_, fun hphony _ => ?_⟩⟩
    · exact hends.changes.known hd hs hr hu.known
    · exact hends.current hd hs hr hphony h.clean hu

end
end Tmake
