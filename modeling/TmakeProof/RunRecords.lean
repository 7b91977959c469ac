import TmakeProof.Progress
import TmakeProof.Recording

/-! # Every run records what it does, and repeats nothing

`Ok` are names of which the cache is true when a run begins.  Over the run the names that
are done join them (`Sure`), and stay (`Move.done`).  What is being built is none of them:
a rule that is done is not built again, and a rule with a name in `Ok` is found up to date
(`Skips`, `Move.skips`).  So the cache is true of all these names, at every point of a run
in which nothing has failed (`Run.recorded`).
-/
namespace Tmake
open Weakest Machine

section
variable {d : Desc} {E : Env} {scratch : Path → Prop} {Ok Ok' : Name → Prop} {root : Name}
  {p p' k : Point} {w w' : World} {f : Frame}

/-! ## What is done stays done -/

theorem Quiet.done {O : RuleTarget → Prop} (h : Quiet d E (fun _ => False) O w w') (t : Name)
    (ht : d.Done w.toCore t) : d.Done w'.toCore t :=
  ht.mono (fun s hs => by rwa [h.rulestatus s id]) fun t ht => by rwa [h.targetstatus]

theorem Glance.done (hm : Glance d E p w p' w') (t : Name) (ht : d.Done w.toCore t) :
    d.Done w'.toCore t := by
  cases hm with
  | source hr hs =>
    obtain ⟨hrules, -, -, hsources⟩ := buildSource_ok hs
    exact ht.mono (fun s h => by rwa [hrules]) fun u hu => hsources u _ hu
  | @enter u n k _ r hr hst =>
    have hsets : Sets w { w with
        rulestatus := Function.update w.rulestatus r.target .checking
        current := u :: w.current } r.target .checking (u :: w.current) [] :=
      ⟨rfl, rfl, rfl, (List.append_nil _).symm, .refl _ _⟩
    exact hsets.done (by rcases hst with hst | hst <;> rw [hst] <;> rfl) t ht
  | @depRet u st f k _ _ dyn done dep todo hphase hfailed =>
    exact ((depFailed_quiet (d := d) (E := E) (S := fun _ => False) (O := fun _ => False)
      st).ok hfailed).done t ht
  | @lookRet u st f k _ _ found file keep kont inputs answer hphase hl =>
    exact ((lookupFile_quiet (d := d) (E := E) (S := fun _ => False) (O := fun _ => False) st
      file).ok hl).done t ht
  | idle | settled | dep | static | dynamic | scanned | noscan | input | peek | look | answer |
    synced => exact ht

/-- What is done is done for the rest of the run. -/
theorem Move.done (hinv : Inv d root p w) (hm : Move d E p w p' w') (t : Name)
    (ht : d.Done w.toCore t) : d.Done w'.toCore t := by
  have hwait : ∀ {b : Bool}, waitForOneJob d E w = .ok b w' → d.Done w'.toCore t := by
    intro b hw
    rcases wp_of_ok hw (waitForOneJob_spec w) with ⟨-, rfl⟩ | hw
    · exact ht
    · exact hinv.done_kept (hinv.wait_kept hw) t ht
  cases hm with
  | glance hg => exact hg.done t ht
  | wait hst hw => exact hwait hw
  | @launch f k _ dyn _ hphase hcheck hdo =>
    exact ((checkRule_quiet (S := fun _ => False) (O := (· = f.rule.target)) f.target
      (d.vardict f.rule) dyn f.status rfl).ok hcheck).done t ht
  | @skip f k _ dyn st w1 hphase hcheck hdo =>
    have hq := (checkRule_quiet (S := (· = f.rule.target)) (O := (· = f.rule.target)) f.target
      (d.vardict f.rule) dyn f.status rfl).ok hcheck
    exact (left_sets hq.sets).done (hinv.not_done List.mem_cons_self) t ht
  | @dry f k _ dyn w1 st w2 hphase hn h1 h2 hgo =>
    have hq1 := (prepareRule_quiet (d := d) (E := E) (S := (· = f.rule.target))
      (O := (· = f.rule.target)) rfl).ok h1
    have hq2 := (dryRun_quiet (E := E) (S := (· = f.rule.target)) (O := (· = f.rule.target)) f.rule
      (d.vardict f.rule)).ok h2
    exact (left_sets (trans_of (Quiet d E _ _) hq1 hq2).sets).done
      (hinv.not_done List.mem_cons_self) t ht
  | @begin f k _ dyn w1 w2 hphase hn h1 h2 =>
    have hq1 := (prepareRule_quiet (d := d) (E := E) (S := fun _ => False)
      (O := (· = f.rule.target)) rfl).ok h1
    obtain ⟨w3, hq2, rfl⟩ := wp_of_ok h2 (beginRule_spec f.rule f.target _ dyn w1)
    exact (trans_of (Quiet d E _ _) hq1 hq2).done t ht
  | finished => exact ht
  | @script f k _ dyn i script todo res _ hphase hres hrun happly =>
    subst hres
    exact ((applyResult_quiet (d := d) (E := E) (S := fun _ => False)
      (O := (· = f.rule.target)) rfl).ok happly).done t ht
  | @forks f k _ dyn i script todo res notify _ hphase hres hrun hrec =>
    exact ((recordCmds_quiet (d := d) (E := E) (S := fun _ => False) (O := (· = f.rule.target))
      _ rfl).ok hrec).done t ht
  | slot hphase hfull hw => exact hwait hw
  | @fork f k _ dyn notify n i todo w1 hphase hfree hadd hgo =>
    obtain ⟨job, -, -, hs⟩ := wp_of_ok hadd (addNewJob_sets f.rule notify i todo w)
    exact (left_sets hs).done (hinv.not_done List.mem_cons_self) t ht
  | @ended f k _ dyn rc st w1 hphase hend hgo =>
    have hq := (endForeground_quiet (d := d) (E := E) (S := (· = f.rule.target))
      (O := (· = f.rule.target)) rc rfl rfl).ok hend
    exact (left_sets hq.sets).done (hinv.not_done List.mem_cons_self) t ht

/-! ## What a call is told -/

/-- A call that returns answers a rule that scans only through `build-sync`. -/
theorem CalledFrom.answers {t : Name} {n : Option RuleTarget} {st : Status}
    (h : CalledFrom root t n k) (hst : d.isTarget t = true → st ≠ .failed) :
    Answers d (.ret t st :: k) := by
  rintro u su k' he
  obtain ⟨⟨rfl, rfl⟩, rfl⟩ : (t = u ∧ st = su) ∧ k = k' := by simpa using he
  refine ⟨hst, ?_⟩
  rintro f k'' found file keep kont inputs rfl hphase
  cases h with
  | dep hphase' =>
    rw [hphase] at hphase'
    cases hphase'

/-- While nothing fails, a scan is not told that a target has failed, or is not yet built. -/
theorem Move.answers (hinv : Inv d root p w) (h : Answers d p) (hsmooth : Smooth w'.trace)
    (hm : Move d E p w p' w') : Answers d p' := by
  have hleft : ∀ {f : Frame} {k : Point} {dyn : List Name} {st : Status} {w₁ : World},
      Inv d root (.rule f :: k) w → Smooth (left f dyn st w₁).trace →
      Answers d (.ret f.target st :: k) := by
    intro f k dyn st w₁ hinv hsmooth
    refine hinv.calledFrom.answers fun _ he => ?_
    exact (hsmooth _ List.mem_cons_self).2 f.target (by rw [he])
  cases hm with
  | glance hg =>
    cases hg with
    | idle => exact h
    | @source t n k _ st _ hr hs =>
      cases hinv.shape with
      | call hcalled =>
        refine hcalled.answers fun ht => ?_
        obtain ⟨r, hr'⟩ := d.isTarget_iff.mp ht
        rw [hr] at hr'
        cases hr'
    | @settled t n k _ r hr hst =>
      cases hinv.shape with
      | call hcalled =>
        refine hcalled.answers fun _ he => ?_
        exact (hsmooth _ List.mem_cons_self).2 t (by rw [he])
    | @synced t u st k _ hst =>
      obtain rfl : t = u := by
        cases hinv.shape with
        | ret hcalled => cases hcalled <;> rfl
      rintro v sv k' he
      obtain ⟨⟨rfl, rfl⟩, rfl⟩ : (t = v ∧ st = sv) ∧ k = k' := by simpa using he
      exact ⟨(h t st _ rfl).1, fun _ _ _ _ _ _ _ _ _ => hst⟩
    | enter | dep | static | dynamic | scanned | noscan | input | peek | look | answer | depRet |
      lookRet => exact nofun
  | skip | dry | fork | ended => exact hleft hinv hsmooth
  | wait | launch | begin | finished | script | forks | slot => exact nofun

/-! ## What is being built is not done -/

theorem Inv.admits (hinv : Inv d root p w) : Admits d (d.Done w.toCore) p w where
  begun := by
    rintro f k rfl - t r ht hr - he
    have hnot := hinv.not_done (r := f.rule.target) List.mem_cons_self
    rw [Desc.done_rule hr, he, hnot] at ht
    cases ht
  jobs := by
    rintro job hj t r ht hr - he
    rw [Desc.done_rule hr, he, hinv.job_running job hj] at ht
    cases ht
  deps := by
    rintro f k dyn done rfl hphase hdone t ht
    have hok := hinv.phaseOK hphase
    cases dyn with
    | none =>
      obtain ⟨hst, hdeps, hrets⟩ := hok
      rw [List.append_nil] at hdeps
      rw [Option.getD_none, List.append_nil, hdeps] at ht
      rcases depsStatus_cases f.rule.phony done hst fun x hx => (hrets x hx).1 with he | he | he
      · rw [he] at hdone
        cases hdone
      · rw [he] at hdone
        cases hdone
      · exact done_of_rets hrets he.2 t ht
    | some dyn =>
      obtain ⟨hst, hall, -, hdyn, hrets⟩ := hok
      rw [List.append_nil] at hdyn
      rw [Option.getD_some] at ht
      rcases depsStatus_cases f.rule.phony done hst fun x hx => (hrets x hx).1 with he | he | he
      · rw [he] at hdone
        cases hdone
      · rw [he] at hdone
        cases hdone
      · rcases List.mem_append.mp ht with ht | ht
        · exact hall t ht
        · exact done_of_rets hrets he.2 t (hdyn ▸ ht)
  returned t st k hp _ hst := (hinv.returned t st k hp).2 hst

/-! ## Names of which the cache is true -/

/-- The cache was true of the name from the beginning, or the name is done. -/
def Sure (d : Desc) (Ok : Name → Prop) (w : World) (t : Name) : Prop := Ok t ∨ d.Done w.toCore t

/-- The call is not for a rule with a name in `Ok`, or has found nothing yet that is out of date. -/
def Frame.Skips (d : Desc) (Ok : Name → Prop) (f : Frame) : Prop :=
  Spares d (· = f.rule.target) Ok ∨
    f.phase.looking = true ∧ (f.rule.doList ≠ [] → f.status ≠ .built)

/-- The `-do` lists of the rules with a name in `Ok` are left alone. -/
structure Skips (d : Desc) (Ok : Name → Prop) (p : Point) (w : World) : Prop where
  frames : ∀ f ∈ frames p, f.Skips d Ok
  jobs : ∀ job ∈ w.running, Spares d (· = job.ruletarget) Ok
  starts : Spares d (· ∈ starts w.trace) Ok

theorem Skips.spares (h : Skips d Ok (.rule f :: k) w) (hl : f.phase.looking = false) :
    Spares d (· = f.rule.target) Ok := by
  refine (h.frames f List.mem_cons_self).resolve_right fun h => ?_
  rw [hl] at h
  cases h.1

/-- What is being built is neither done nor up to date. -/
theorem Skips.admits (h : Skips d Ok p w) (hinv : Inv d root p w) : Admits d (Sure d Ok w) p w where
  begun f k hp hl t r ht hr hphony := by
    subst hp
    exact ht.elim (fun ht => h.spares hl t r ht hr hphony)
      fun ht => hinv.admits.begun f k rfl hl t r ht hr hphony
  jobs job hj t r ht hr hphony :=
    ht.elim (fun ht => h.jobs job hj t r ht hr hphony)
      fun ht => hinv.admits.jobs job hj t r ht hr hphony
  deps f k dyn done hp hphase hdone t ht := .inr (hinv.admits.deps f k dyn done hp hphase hdone t ht)
  returned t st k hp htarget hst := .inr (hinv.admits.returned t st k hp htarget hst)

/-- A rule that makes something with a name in `Ok`. -/
theorem Spares.of_not {r : Rule} (hr : r ∈ d.rules) (hne : r.target ≠ [])
    (h : ∀ t, Ok t → d.ruleFor t = some r → r.phony = true) : Spares d (· = r.target) Ok := by
  rintro t s ht hs hphony he
  obtain rfl := d.rule_eq_of_target hr (d.ruleFor_mem hs) hne he.symm
  rw [h t ht hs] at hphony
  cases hphony

/-! ## The steps skip what is up to date -/

/-- The statuses of the dependencies do not call for a rule to be built. -/
theorem depsStatus_ne_built (hn : d.norun = 0) {phony : Bool} {rets : List (Name × Status)}
    {st : Status} (h : st ≠ .built) : depsStatus d phony rets st ≠ .built := by
  unfold depsStatus
  dsimp only
  rw [hn]
  split
  · nofun
  split
  · nofun
  · simpa using h

theorem afterStatic_looking {st : Status} : (afterStatic f st).looking = true := by
  unfold afterStatic
  split
  · split <;> rfl
  · rfl

/-- A step that only looks finds nothing out of date. -/
theorem Glance.skips (hn : d.norun = 0) (h : Skips d Ok p w) (ht : Truthful d E (Sure d Ok w) w)
    (hm : Glance d E p w p' w') : Skips d Ok p' w' := by
  -- the innermost call goes on with the same status
  have hgoto : ∀ {f : Frame} {k : Point} {phase : Phase} {w' : World}, f ∈ Tmake.frames p →
      (∀ g ∈ Tmake.frames k, g ∈ Tmake.frames p) → phase.looking = true → w'.running = w.running →
      Tmake.starts w'.trace = Tmake.starts w.trace → Skips d Ok (.rule (f.goto phase) :: k) w' := by
    intro f k phase w' hf hk hl hrun hstarts
    refine ⟨List.forall_mem_cons.mpr ⟨?_, fun g hg => h.frames g (hk g hg)⟩, ?_, ?_⟩
    · exact (h.frames f hf).imp_right fun hst => ⟨hl, hst.2⟩
    · rw [hrun]
      exact h.jobs
    · rw [hstarts]
      exact h.starts
  cases hm with
  | idle => exact h
  | @source t n k _ st _ hr hs =>
    obtain ⟨-, htrace, -, -⟩ := buildSource_ok hs
    have hsame : Changes d E.md5 (fun _ => False) (fun _ => False) (fun _ => False) w w' ∧
        w'.running = w.running := buildSource_same hs
    exact ⟨h.frames, by rw [hsame.2]; exact h.jobs, by rw [htrace]; exact h.starts⟩
  | settled hr hst => exact ⟨h.frames, h.jobs, h.starts⟩
  | @enter t n k _ r hr hst =>
    refine ⟨List.forall_mem_cons.mpr ⟨?_, h.frames⟩, h.jobs, h.starts⟩
    by_cases hs : Spares d (· = r.target) Ok
    · exact .inl hs
    refine .inr ⟨rfl, fun hdo => ?_⟩
    -- the rule has a name in `Ok`, and so its files are there
    by_contra hbuilt
    refine hs (.of_not (d.ruleFor_mem hr) (d.target_ne_nil hr) fun u hu hur => ?_)
    by_contra hphony
    have hphony : r.phony = false := by simpa using hphony
    obtain ⟨dyn, -, hcur⟩ := ht.rules u r (.inl hu) hur
    change initialStatus d r w.fs = .built at hbuilt
    simp [initialStatus, hphony, (hcur hphony hdo).files] at hbuilt
  | dep => exact ⟨h.frames, h.jobs, h.starts⟩
  | @static f k _ done st hphase hst =>
    refine ⟨List.forall_mem_cons.mpr ⟨?_, fun g hg => h.frames g (List.mem_cons_of_mem _ hg)⟩,
      h.jobs, h.starts⟩
    refine (h.frames f List.mem_cons_self).imp_right fun hf => ⟨afterStatic_looking, fun hdo => ?_⟩
    exact hst ▸ depsStatus_ne_built hn (hf.2 hdo)
  | @dynamic f k _ dyn done st hphase hst =>
    refine ⟨List.forall_mem_cons.mpr ⟨?_, fun g hg => h.frames g (List.mem_cons_of_mem _ hg)⟩,
      h.jobs, h.starts⟩
    refine (h.frames f List.mem_cons_self).imp_right fun hf => ⟨rfl, fun hdo => ?_⟩
    exact hst ▸ depsStatus_ne_built hn (hf.2 hdo)
  | scanned | noscan | input | peek | answer =>
    exact hgoto List.mem_cons_self (fun _ => List.mem_cons_of_mem _) rfl rfl rfl
  | look => exact ⟨h.frames, h.jobs, h.starts⟩
  | @depRet t st f k _ _ dyn done dep todo hphase hfailed =>
    have hq := (depFailed_quiet (d := d) (E := E) (S := fun _ => False) (O := fun _ => False)
      st).ok hfailed
    exact hgoto List.mem_cons_self (fun _ => List.mem_cons_of_mem _) rfl hq.running hq.starts
  | @lookRet t st f k _ _ found file keep kont inputs answer hphase hl =>
    have hq := (lookupFile_quiet (d := d) (E := E) (S := fun _ => False) (O := fun _ => False) st
      file).ok hl
    exact hgoto List.mem_cons_self (fun _ => List.mem_cons_of_mem _) rfl hq.running hq.starts
  | synced => exact ⟨h.frames, h.jobs, h.starts⟩

/-- The call is left. -/
theorem Skips.leaves {dyn : List Name} {st : Status} {w₁ : World} (h : Skips d Ok (.rule f :: k) w)
    (hjobs : ∀ job ∈ w₁.running, job ∈ w.running ∨ Spares d (· = job.ruletarget) Ok)
    (hstarts : Tmake.starts w₁.trace = Tmake.starts w.trace) :
    Skips d Ok (.ret f.target st :: k) (left f dyn st w₁) where
  frames g hg := h.frames g (List.mem_cons_of_mem _ hg)
  jobs job hj := (hjobs job hj).elim (h.jobs job) id
  starts := by
    rw [starts_left, hstarts]
    exact h.starts

/-- The `-do` list goes on. -/
theorem Skips.goes {phase : Phase} (h : Skips d Ok (.rule f :: k) w) (hl : f.phase.looking = false)
    (hjobs : ∀ job ∈ w'.running, job ∈ w.running)
    (hstarts : Tmake.starts w'.trace = Tmake.starts w.trace) :
    Skips d Ok (.rule (f.goto phase) :: k) w' where
  frames := List.forall_mem_cons.mpr
    ⟨.inl (h.spares hl), fun g hg => h.frames g (List.mem_cons_of_mem _ hg)⟩
  jobs job hj := h.jobs job (hjobs job hj)
  starts := by
    rw [hstarts]
    exact h.starts

theorem waitForOneJob_fewer {b : Bool} (hw : waitForOneJob d E w = .ok b w') :
    (∀ job ∈ w'.running, job ∈ w.running) ∧ Tmake.starts w'.trace = Tmake.starts w.trace := by
  rcases wp_of_ok hw (waitForOneJob_spec w) with ⟨-, rfl⟩ | hw
  · exact ⟨fun _ h => h, rfl⟩
  · obtain ⟨i, job, st, st', -, hrun, -⟩ := hw.reaped
    exact ⟨fun j hj => List.mem_of_mem_eraseIdx (hrun ▸ hj), hw.trace.starts⟩

/-- **No step begins what is up to date.** -/
theorem Move.skips (hn : d.norun = 0) (hforce : d.force = false) (hinv : Inv d root p w)
    (h : Skips d Ok p w) (hrec : Recorded d E scratch (Sure d Ok w) p w)
    (hm : Move d E p w p' w') : Skips d Ok p' w' := by
  cases hm with
  | glance hg => exact hg.skips hn h hrec.truthful
  | wait hst hw =>
    obtain ⟨hjobs, hstarts⟩ := waitForOneJob_fewer hw
    exact ⟨h.frames, fun job hj => h.jobs job (hjobs job hj), by rw [hstarts]; exact h.starts⟩
  | @launch f k _ dyn _ hphase hcheck hdo =>
    have hf := (hinv.frameOK f List.mem_cons_self).1
    have hq := (checkRule_quiet (S := fun _ => False) (O := (· = f.rule.target)) f.target
      (d.vardict f.rule) dyn f.status rfl).ok hcheck
    obtain ⟨-, -, hout, -, hup, -⟩ := wp_of_ok hcheck
      (checkRule_compared hn hforce hf w hrec.truthful.owned)
    have hspares : Spares d (· = f.rule.target) Ok := by
      refine (h.frames f List.mem_cons_self).elim id fun ⟨_, hst⟩ => ?_
      refine .of_not (d.ruleFor_mem hf) (d.target_ne_nil hf) fun t ht htr => ?_
      by_contra hphony
      have hphony : f.rule.phony = false := by simpa using hphony
      -- so far it was up to date, and so it is still
      have hst : f.status = .uptodate := hout.elim (fun he => absurd he.symm (hst hdo)) And.left
      have hknown := hrec.head.phase
      rw [hphase] at hknown
      obtain ⟨dyn', hk, hcur⟩ := hrec.truthful.rules t f.rule (.inl ht) htr
      obtain rfl := (hknown (by rw [hst]; rfl)).unique hk
      have hcur := hcur hphony hdo
      cases hup hphony hdo hst hcur.deps hcur.hash hcur.cmd hcur.exec
    refine ⟨List.forall_mem_cons.mpr
      ⟨.inl hspares, fun g hg => h.frames g (List.mem_cons_of_mem _ hg)⟩, ?_, ?_⟩
    · rw [hq.running]
      exact h.jobs
    · rw [hq.starts]
      exact h.starts
  | @skip f k _ dyn st w₁ hphase hcheck hdo =>
    have hq := (checkRule_quiet (S := fun _ => False) (O := (· = f.rule.target)) f.target
      (d.vardict f.rule) dyn f.status rfl).ok hcheck
    exact h.leaves (fun job hj => .inl (hq.running ▸ hj)) hq.starts
  | dry _ hdry => exact absurd hn hdry
  | @begin f k _ dyn w₁ w₂ hphase _ h₁ h₂ =>
    have hspares := h.spares (by rw [hphase]; rfl)
    have hq₁ := (prepareRule_quiet (d := d) (E := E) (S := fun _ => False)
      (O := (· = f.rule.target)) rfl).ok h₁
    obtain ⟨w₃, hq₂, rfl⟩ := wp_of_ok h₂ (beginRule_spec f.rule f.target _ dyn w₁)
    have hq := trans_of (Quiet d E _ _) hq₁ hq₂
    refine ⟨List.forall_mem_cons.mpr
      ⟨.inl hspares, fun g hg => h.frames g (List.mem_cons_of_mem _ hg)⟩, ?_,
      fun t r ht hr hphony hmem => ?_⟩
    · change ∀ job ∈ w₃.running, _
      rw [hq.running]
      exact h.jobs
    · rw [starts_cons, hq.starts] at hmem
      rcases List.mem_append.mp hmem with hmem | hmem
      · exact hspares t r ht hr hphony (List.mem_singleton.mp hmem)
      · exact h.starts t r ht hr hphony hmem
  | finished hphase => exact h.goes (by rw [hphase]; rfl) (fun _ hj => hj) rfl
  | @script f k _ dyn i script todo res _ hphase hres hrun happly =>
    subst hres
    have hq := (applyResult_quiet (d := d) (E := E) (S := fun _ => False)
      (O := (· = f.rule.target)) rfl).ok happly
    exact h.goes (by rw [hphase]; rfl) (fun _ hj => hq.running ▸ hj) hq.starts
  | @forks f k _ dyn i script todo res notify _ hphase hres hrun hrec =>
    have hq := (recordCmds_quiet (d := d) (E := E) (S := fun _ => False) (O := (· = f.rule.target))
      _ rfl).ok hrec
    exact h.goes (by rw [hphase]; rfl) (fun _ hj => hq.running ▸ hj) hq.starts
  | slot hphase hfull hw =>
    obtain ⟨hjobs, hstarts⟩ := waitForOneJob_fewer hw
    exact h.goes (by rw [hphase]; rfl) hjobs hstarts
  | @fork f k _ dyn notify n i todo w₁ hphase hfree hadd hgo =>
    have hspares := h.spares (by rw [hphase]; rfl)
    obtain ⟨job, hjob, -, hs⟩ := wp_of_ok hadd (addNewJob_sets f.rule notify i todo w)
    refine h.leaves (fun j hj => ?_) hs.trace.starts
    rw [hs.running] at hj
    refine (List.mem_append.mp hj).imp_right fun hj => ?_
    rw [List.mem_singleton.mp hj, hjob]
    exact hspares
  | @ended f k _ dyn rc st w₁ hphase hend hgo =>
    have hq := (endForeground_quiet (d := d) (E := E) (S := (· = f.rule.target))
      (O := (· = f.rule.target)) rc rfl rfl).ok hend
    exact h.leaves (fun job hj => .inl (hq.running ▸ hj)) hq.starts

/-! ## More names -/


theorem Underway.grow (hd : Unshared d scratch) {r : Rule} {dyn : List Name} (hr : r ∈ d.rules)
    (hOk : ∀ t, Ok t → Ok' t) (h : Underway d E Ok w r dyn) : Underway d E Ok' w r dyn :=
  ⟨h.known.grow hd hr hOk, h.hashed, h.exec, h.info⟩

theorem PhaseKnown.grow (hd : Unshared d scratch) {r : Rule} (hr : r ∈ d.rules)
    (hOk : ∀ t, Ok t → Ok' t) {st : Status} {phase : Phase} (h : PhaseKnown d E Ok w r st phase) :
    PhaseKnown d E Ok' w r st phase := by
  cases phase with
  | deps dyn done todo =>
    cases dyn with
    | none => exact trivial
    | some dyn => exact ⟨fun t ht => hOk t (h.1 t ht), h.2.mono hd hr hOk h.1 fun _ _ _ => rfl⟩
  | scan found prog inputs =>
    obtain ⟨hdeps, hdyndep, L, hscan⟩ := h
    exact ⟨fun t ht => hOk t (hdeps t ht), hdyndep, L, hscan.mono hd hr hOk hdeps fun _ _ _ => rfl⟩
  | check dyn => exact fun hst => (h hst).grow hd hr hOk
  | launch dyn => exact ⟨h.1.grow hd hr hOk, h.2⟩
  | scripts | slots | ended => exact Underway.grow hd hr hOk h

/-- What a step has settled joins the names of which the cache is true. -/
theorem Recorded.grow (hd : Unshared d scratch) (hrules : ∀ f ∈ Tmake.frames p, f.rule ∈ d.rules)
    (hdone : ∀ t, d.Done w.toCore t → d.Done w'.toCore t)
    (h : Recorded d E scratch (Sure d Ok w) p w') (hs : Settles d E (Sure d Ok w) w w') :
    Recorded d E scratch (Sure d Ok w') p w' :=
  have hsure : ∀ t, Sure d Ok w t → Sure d Ok w' t := fun t ht => ht.imp_right (hdone t)
  { clean := h.clean
    truthful := by
      refine ⟨h.truthful.owned, fun t r ht hr => ?_⟩
      have hmem := d.ruleFor_mem hr
      obtain ⟨dyn, hk, hcur⟩ : ∃ dyn, Known d (Sure d Ok w) w'.fs r dyn ∧
          (r.phony = false → r.doList ≠ [] → Current d E w'.cache w'.fs r dyn) := by
        rcases ht with ht | ht
        · exact h.truthful.rules t r (.inl ht) hr
        · by_cases hold : (w.rulestatus r.target).done = true
          · exact h.truthful.rules t r (.inr ((Desc.done_rule hr).mpr hold)) hr
          · exact hs r hmem (by simpa using hold) ((Desc.done_rule hr).mp ht)
      exact ⟨dyn, hk.grow hd hmem hsure, hcur⟩
    jobs := by
      intro job hj
      obtain ⟨r, dyn, hok⟩ := h.jobs job hj
      exact ⟨r, dyn, hok.rule, hok.target, hok.underway.grow hd hok.rule hsure, hok.puts⟩
    frames := fun f hf => ⟨(h.frames f hf).files, (h.frames f hf).phase.grow hd (hrules f hf) hsure⟩ }

end
/-! ## Runs -/

section
variable {d : Desc} {E : Env} {scratch : Path → Prop} {Ok : Name → Prop} {c : Core} {p : Point}
  {w : World}

theorem Recorded.fresh (hd : Unshared d scratch) (hclean : c.cleaning = false)
    (ht : Truthful d E Ok (World.fresh c)) :
    Recorded d E scratch (Sure d Ok (World.fresh c)) [] (World.fresh c) where
  clean := hclean
  truthful := by
    refine ⟨ht.owned, fun t r hsure hr => ?_⟩
    rcases hsure with hOk | hdone
    · obtain ⟨dyn, hk, hcur⟩ := ht.rules t r hOk hr
      exact ⟨dyn, hk.grow hd (d.ruleFor_mem hr) fun _ => .inl, hcur⟩
    · cases (Desc.done_rule hr).mp hdone
  jobs _ hj := absurd hj List.not_mem_nil
  frames _ hf := absurd hf List.not_mem_nil

/-- **Every run in which nothing has failed has recorded what it did**, and has not begun what was
up to date. -/
theorem Run.recorded (hn : d.norun = 0) (hforce : d.force = false) (hd : Unshared d scratch)
    (hE : Confined d scratch E) (hclean : c.cleaning = false) (ht : Truthful d E Ok (World.fresh c))
    {S : Point → World → Prop} (h : Run d E S c p w) (hsmooth : Smooth w.trace) :
    Recorded d E scratch (Sure d Ok w) p w ∧ Skips d Ok p w ∧ Answers d p := by
  induction h with
  | fresh =>
    refine ⟨.fresh hd hclean ht, ⟨?_, ?_, fun _ _ _ _ _ => List.not_mem_nil⟩, nofun⟩
    · exact fun _ hf => absurd hf List.not_mem_nil
    · exact fun _ hj => absurd hj List.not_mem_nil
  | request t _ ih =>
    obtain ⟨hrec, hskips, -⟩ := ih hsmooth
    exact ⟨hrec.replace rfl, ⟨hskips.frames, hskips.jobs, hskips.starts⟩, nofun⟩
  | step hrun _ hnext ih =>
    obtain ⟨root, hinv, -⟩ := hrun.inv
    have hm := next_moves hinv.shape hnext
    have hinv' := wp_of_ok hnext (next_inv _ _ hinv)
    obtain ⟨hrec, hskips, hans⟩ := ih (hsmooth.mono hm.suffix)
    obtain ⟨hrec', hsettles⟩ :=
      hm.recorded hn hforce hd hE hinv hrec (hskips.admits hinv) hans hsmooth
    exact ⟨hrec'.grow hd (fun f hf => hinv'.frame_mem hf) (hm.done hinv) hsettles,
      hm.skips hn hforce hinv hskips hrec, hm.answers hinv hans hsmooth⟩
  | settled _ ih =>
    obtain ⟨hrec, hskips, -⟩ := ih hsmooth
    exact ⟨hrec.replace rfl, ⟨hskips.frames, hskips.jobs, hskips.starts⟩, nofun⟩

/-- What has been recorded before a step, which does what it records to nothing that is done. -/
theorem Run.next_recorded (hn : d.norun = 0) (hforce : d.force = false) (hd : Unshared d scratch)
    (hE : Confined d scratch E) (hclean : c.cleaning = false) (howned : Owned d c.cache)
    {S : Point → World → Prop} (h : Run d E S c p w) {p' : Point} {w' : World}
    (hnext : next d E p w = .ok p' w') (hsmooth : Smooth w'.trace) :
    ∃ root, Inv d root p w ∧ Move d E p w p' w' ∧ Smooth w.trace ∧
      Recorded d E scratch (Sure d (fun _ => False) w) p w ∧
      Admits d (Sure d (fun _ => False) w) p w ∧ Settles d E (Sure d (fun _ => False) w) w w' := by
  obtain ⟨root, hinv, -⟩ := h.inv
  have hm := next_moves hinv.shape hnext
  have hsmooth₀ := hsmooth.mono hm.suffix
  have hnone : Truthful d E (fun _ => False) (World.fresh c) := ⟨howned, fun _ _ h => h.elim⟩
  obtain ⟨hrec, hskips, hans⟩ := h.recorded hn hforce hd hE hclean hnone hsmooth₀
  have hadmits := hskips.admits hinv
  exact ⟨root, hinv, hm, hsmooth₀, hrec, hadmits,
    (hm.recorded hn hforce hd hE hinv hrec hadmits hans hsmooth).2⟩

end
end Tmake
