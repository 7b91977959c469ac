import TmakeProof.Outlines

/-! # Every rule that is done is made

While a run goes on, the cache has earned the trust of `build` in all rules but those that
are at work: their `-do` lists have been decided upon, and so their hashes are already those
of what they are going to be made of.  Of these the calls and the jobs know how far they
have come (`OnCourse`).  Each step keeps it so (`Move.onCourse`), in whatever order the jobs
are reaped, and what is done is made (`Run.made`).
-/
namespace Tmake
open Weakest Machine

/-! ## The invariant -/

/-- The `-do` list of the rule for these targets is decided upon, running, or a job. -/
def AtWork (p : Point) (w : World) (rt : RuleTarget) : Prop :=
  (∃ f ∈ frames p, f.rule.target = rt ∧ f.phase.looking = false) ∨
    ∃ job ∈ w.running, job.ruletarget = rt

/-- How far the `-do` list of a call has come. -/
def PhaseFollows {d₀ : Desc} (O : Outline d₀) (d : Desc) (fs : FS) (r : Rule) : Phase → Prop
  | .scripts dyn i todo | .slots dyn _ _ i todo =>
    i + todo.length = r.doList.length ∧ O.After d r dyn i fs
  | .ended dyn rc => rc = 0 → O.Made d r dyn fs
  | _ => True

/-- A rule with a `-do` list that makes files. -/
def Rule.Makes (r : Rule) : Prop := r.target ≠ [] ∧ r.phony = false ∧ r.doList ≠ []

/-- The checks of a rule can be trusted unless it is at work, and then its `-do` list does what it
is for. -/
structure OnCourse {d₀ : Desc} (O : Outline d₀) (d : Desc) (scratch : Path → Prop) (C : Chronicle)
    (p : Point) (w : World) : Prop where
  honest : w.cache.Honest scratch C
  earned : ∀ r₀ ∈ d₀.rules, r₀.Makes → AtWork p w r₀.target ∨ Earned O scratch C w.cache w.fs r₀
  jobs : ∀ job ∈ w.running, job.ok = true → ∀ info, w.precache job.ruletarget = some info →
    info.rule.phony = false → O.Made d info.rule info.dyndeps (w.fs.putAll job.puts)
  frames : ∀ f ∈ frames p, f.rule.phony = false → PhaseFollows O d w.fs f.rule f.phase

section
variable {d₀ d : Desc} {E : Env} {O : Outline d₀} {scratch : Path → Prop} {C : Chronicle}
  {Ok : Name → Prop} {F T : RuleTarget → Prop} {root : Name} {p p' k : Point} {w w' : World} {f : Frame}
  {r r₀ : Rule} {dyn : List Name}

theorem Edition.makes (h : Edition d₀ d) (hr : r ∈ d.rules) (hr₀ : r₀ ∈ d₀.rules)
    (ht : r.target = r₀.target) (hmakes : r₀.Makes) : r.phony = false ∧ r.doList ≠ [] := by
  obtain ⟨hne, hphony, hdo⟩ := hmakes
  obtain ⟨hphony', hdo', -⟩ := h.rule hr hr₀ ht hne
  exact ⟨hphony'.symm.trans hphony, fun he => hdo (hdo'.mpr he)⟩

/-- What is done for other rules leaves the trust in a rule alone. -/
theorem Changes.earned (hed : Edition d₀ d) (hd₀ : Unshared d₀ scratch)
    (hc : Changes d E.md5 scratch F T w w') (hr₀ : r₀ ∈ d₀.rules) (hF : ¬F r₀.target)
    (hT : ¬T r₀.target) (h : Earned O scratch C w.cache w.fs r₀) :
    Earned O scratch C w'.cache w'.fs r₀ := by
  refine h.congr (hc.cache.cmd _ hT) (hc.cache.deps _ hT) (hc.cache.dephash _ hT) fun p hp => ?_
  refine hc.fs p (hd₀.files r₀ hr₀ p hp) ?_
  rintro s hs hFs (hscratch | ⟨-, hmem⟩)
  · exact hd₀.files r₀ hr₀ p hp hscratch
  · obtain ⟨s₀, hs₀, ht, -⟩ := hed.rules s hs
    rw [hed.files ht.symm] at hmem
    refine hd₀.apart s₀ hs₀ r₀ hr₀ (fun he => ?_) p hmem hp
    rw [← ht, he] at hFs
    exact hF hFs

/-- It also leaves alone how far a rule has come, or will have come. -/
theorem Changes.after (hed : Edition d₀ d) (hd : Unshared d scratch) (hs : Spares d F Ok)
    (hc : Changes d E.md5 scratch F T w w') (hr : r ∈ d.rules) (hF : r.phony = false → ¬F r.target)
    (hk : Known d Ok w.fs r dyn) (puts : List (Path × Option Node)) {i : Nat}
    (h : O.After d r dyn i (w.fs.putAll puts)) : O.After d r dyn i (w'.fs.putAll puts) := by
  have hneeds := hk.needs hd hr
  refine h.congr hed hr hneeds (fun p hp => ?_) fun t ht => ?_
  · exact FS.putAll_congr puts (hc.fs p (hd.files r hr p hp) (hd.outside_files hr hF hp))
  · obtain ⟨hscratch, hout⟩ := hd.outside hs hr (hk.deps t ht) (hneeds t ht)
    exact FS.putAll_congr puts (hc.fs _ hscratch hout)

theorem PhaseFollows.changes (hed : Edition d₀ d) (hd : Unshared d scratch) (hs : Spares d F Ok)
    (hc : Changes d E.md5 scratch F T w w') (hr : r ∈ d.rules) (hF : r.phony = false → ¬F r.target)
    {st : Status} {phase : Phase} (hk : PhaseKnown d E Ok w r st phase)
    (h : PhaseFollows O d w.fs r phase) : PhaseFollows O d w'.fs r phase := by
  have hafter : ∀ {dyn : List Name} {i : Nat}, Known d Ok w.fs r dyn → O.After d r dyn i w.fs →
      O.After d r dyn i w'.fs := fun hk h => hc.after hed hd hs hr hF hk [] h
  cases phase with
  | scripts dyn i todo => exact ⟨h.1, hafter hk.known h.2⟩
  | slots dyn notify n i todo => exact ⟨h.1, hafter hk.known h.2⟩
  | ended dyn rc => exact fun hrc => hafter hk.known (h hrc)
  | deps | scan | check | launch => exact trivial

/-- A step for the rules in `T`, which writes files of the rules in `F` only. -/
theorem OnCourse.step (hed : Edition d₀ d) (hd₀ : Unshared d₀ scratch) (hd : Unshared d scratch)
    (hrules : ∀ f ∈ Tmake.frames p, f.rule ∈ d.rules) (hs : Spares d F Ok) (hFT : ∀ rt, F rt → T rt)
    (h : OnCourse O d scratch C p w) (hrec : Recorded d E scratch Ok p w)
    (hc : Changes d E.md5 scratch F T w w') (hhonest : w'.cache.Honest scratch C)
    (hown : ∀ r₀ ∈ d₀.rules, r₀.Makes → T r₀.target →
      AtWork p' w' r₀.target ∨ Earned O scratch C w'.cache w'.fs r₀)
    (hother : ∀ rt, ¬T rt → AtWork p w rt → AtWork p' w' rt)
    (hjobs : ∀ job ∈ w'.running, job ∈ w.running ∧ ¬T job.ruletarget ∨ (job.ok = true →
      ∀ info, w'.precache job.ruletarget = some info → info.rule.phony = false →
      O.Made d info.rule info.dyndeps (w'.fs.putAll job.puts)))
    (hframes : ∀ f ∈ Tmake.frames p', f ∈ Tmake.frames p ∧ ¬T f.rule.target ∨
      (f.rule.phony = false → PhaseFollows O d w'.fs f.rule f.phase)) :
    OnCourse O d scratch C p' w' where
  honest := hhonest
  earned r₀ hr₀ hmakes := by
    by_cases hT : T r₀.target
    · exact hown r₀ hr₀ hmakes hT
    · exact (h.earned r₀ hr₀ hmakes).imp (hother _ hT)
        fun he => hc.earned hed hd₀ hr₀ (fun hF => hT (hFT _ hF)) hT he
  jobs job hj := by
    refine (hjobs job hj).elim (fun hold hok info hi hphony => ?_) id
    obtain ⟨hmem, hT⟩ := hold
    rw [hc.precache _ hT] at hi
    obtain ⟨r, dyn, hjob⟩ := hrec.jobs job hmem
    have hmade := h.jobs job hmem hok info hi hphony
    obtain ⟨rfl, rfl, -⟩ := hjob.underway.info info (hjob.target ▸ hi)
    refine hc.after hed hd hs hjob.rule (fun _ hF => hT ?_) hjob.underway.known _ hmade
    rw [← hjob.target]
    exact hFT _ hF
  frames f hf := by
    refine (hframes f hf).elim (fun hold hphony => ?_) id
    obtain ⟨hmem, hT⟩ := hold
    exact (h.frames f hmem hphony).changes hed hd hs hc (hrules f hmem)
      (fun _ hF => hT (hFT _ hF)) (hrec.frames f hmem).phase

/-! ## Steps that only look -/

theorem AtWork.mono {rt : RuleTarget} (h : AtWork p w rt)
    (hframes : ∀ f ∈ frames p, f.rule.target = rt → f.phase.looking = false → f ∈ frames p')
    (hjobs : ∀ job ∈ w.running, job.ruletarget = rt → job ∈ w'.running) : AtWork p' w' rt := by
  rcases h with ⟨f, hf, ht, hl⟩ | ⟨job, hj, ht⟩
  · exact .inl ⟨f, hframes f hf ht hl, ht, hl⟩
  · exact .inr ⟨job, hjobs job hj ht, ht⟩

variable (scratch) in
/-- A step that only looks changes nothing that is compared, and begins and ends no `-do` list. -/
theorem Glance.same (hm : Glance d E p w p' w') :
    (Changes d E.md5 scratch (fun _ => False) (fun _ => False) w w' ∧ w'.running = w.running) ∧
      (∀ f ∈ frames p, f.phase.looking = false → f ∈ frames p') ∧
      ∀ f ∈ frames p', f ∈ frames p ∨ f.phase.looking = true := by
  have hnothing : ∀ {w w' : World}, w'.fs = w.fs → w'.cache = w.cache → w'.precache = w.precache →
      w'.cleaning = w.cleaning → w'.running = w.running →
      Changes d E.md5 scratch (fun _ => False) (fun _ => False) w w' ∧ w'.running = w.running :=
    fun hf hc hp hcl hr => ⟨.of_eq hf hc hp hcl, hr⟩
  -- the innermost call goes on in another phase
  have hgoto : ∀ {f g : Frame} {k : Point}, f.phase.looking = true → g.phase.looking = true →
      (∀ f' ∈ frames (.rule f :: k), f'.phase.looking = false → f' ∈ frames (.rule g :: k)) ∧
        ∀ f' ∈ frames (.rule g :: k), f' ∈ frames (.rule f :: k) ∨ f'.phase.looking = true := by
    intro f g k hf hg
    refine ⟨List.forall_mem_cons.mpr ⟨fun hl => ?_, fun f' hf' _ => List.mem_cons_of_mem _ hf'⟩,
      List.forall_mem_cons.mpr ⟨.inr hg, fun f' hf' => .inl (List.mem_cons_of_mem _ hf')⟩⟩
    rw [hf] at hl
    cases hl
  have hsame : ∀ {p p' : Point}, frames p' = frames p →
      (∀ f ∈ frames p, f.phase.looking = false → f ∈ frames p') ∧
        ∀ f ∈ frames p', f ∈ frames p ∨ f.phase.looking = true := by
    intro p p' he
    rw [he]
    exact ⟨fun _ h _ => h, fun _ h => .inl h⟩
  cases hm with
  | idle => exact ⟨hnothing rfl rfl rfl rfl rfl, hsame rfl⟩
  | source hr hs => exact ⟨buildSource_same hs, hsame rfl⟩
  | settled => exact ⟨hnothing rfl rfl rfl rfl rfl, hsame rfl⟩
  | enter =>
    refine ⟨hnothing rfl rfl rfl rfl rfl, fun f hf _ => List.mem_cons_of_mem _ hf, ?_⟩
    exact List.forall_mem_cons.mpr ⟨.inr rfl, fun f hf => .inl hf⟩
  | dep => exact ⟨hnothing rfl rfl rfl rfl rfl, hsame rfl⟩
  | static hphase | dynamic hphase =>
    refine ⟨hnothing rfl rfl rfl rfl rfl, hgoto (by rw [hphase]; rfl) ?_⟩
    first | exact afterStatic_looking | rfl
  | scanned hphase | noscan hphase | input hphase | peek hphase | answer hphase =>
    exact ⟨hnothing rfl rfl rfl rfl rfl, hgoto (by rw [hphase]; rfl) rfl⟩
  | look => exact ⟨hnothing rfl rfl rfl rfl rfl, hsame rfl⟩
  | @depRet t st f k _ _ dyn done dep todo hphase hfailed =>
    have hq := (depFailed_quiet (d := d) (E := E) (S := fun _ => False) (O := fun _ => False)
      st).ok hfailed
    exact ⟨⟨(Changes.elementary.depFailed E st).ok hfailed, hq.running⟩,
      hgoto (by rw [hphase]; rfl) rfl⟩
  | @lookRet t st f k _ _ found file keep kont inputs answer hphase hl =>
    have hq := (lookupFile_quiet (d := d) (E := E) (S := fun _ => False) (O := fun _ => False) st
      file).ok hl
    exact ⟨⟨(Changes.elementary.lookupFile (Within.pure st)).ok hl, hq.running⟩,
      hgoto (by rw [hphase]; rfl) rfl⟩
  | synced => exact ⟨hnothing rfl rfl rfl rfl rfl, hsame rfl⟩

/-! ## The end of a `-do` list -/

/-- **A rule whose `-do` list has ended has earned its trust.** -/
theorem Ends.earned (hed : Edition d₀ d) (hd : Unshared d scratch) (hmd5 : E.md5 = C.md5)
    (hs : Spares d (· = r.target) Ok) (hr : r ∈ d.rules) (hr₀ : r₀ ∈ d₀.rules)
    (ht : r.target = r₀.target) (hmakes : r₀.Makes) (hends : Ends d E scratch r dyn w w')
    (hclean : w.cleaning = false) (hu : Underway d E Ok w r dyn) (hl : w'.fs.Logged scratch C)
    (hh : w'.cache.Honest scratch C) {fs : FS} (hfs : ∀ p, ¬scratch p → w'.fs p = fs p)
    (hmade : O.Made d r dyn fs) : Earned O scratch C w'.cache w'.fs r₀ := by
  obtain ⟨hphony, -⟩ := hed.makes hr hr₀ ht hmakes
  have hcur := hends.current hd hs hr hphony hclean hu
  have hk := hends.changes.known hd hs hr hu.known
  have hneeds := hk.needs hd hr
  refine .of_made hed hd hr hr₀ ht hmakes.1 hmd5 hl hh ?_ (hends.made hphony hclean).2.1 hcur.hash
    hcur.cmd ?_
  · exact (hk.grow hd hr fun _ _ => trivial).scanned
  · exact hmade.congr hed hr hneeds (fun p hp => hfs p (hd.files r hr p hp))
      fun t ht => hfs _ (hd.kept hr (hneeds t ht))

/-- A job is reaped. -/
theorem OnCourse.waited (hed : Edition d₀ d) (hd₀ : Unshared d₀ scratch) (hd : Unshared d scratch)
    (hE : Confined d scratch E) (hmd5 : E.md5 = C.md5) (hinv : Inv d root p w)
    (hrec : Recorded d E scratch Ok p w) (ha : Admits d Ok p w) (h : OnCourse O d scratch C p w)
    {b : Bool} (hw : waitForOneJob d E w = .ok b w') (hsmooth : Smooth w'.trace)
    (hl : w'.fs.Logged scratch C) (hh : w'.cache.Honest scratch C) : OnCourse O d scratch C p w' := by
  have hne : ∀ job ∈ w.running, job.ruletarget ≠ [] := by
    intro job hj
    obtain ⟨-, n, -, -, t, -, r, hr, ht⟩ := hinv.job_awaited job hj
    rw [← ht]
    exact d.target_ne_nil hr
  have hinfo : ∀ job ∈ w.running, ∃ r ∈ d.rules, r.target = job.ruletarget ∧ r.target ≠ [] ∧
      ∀ info, w.precache r.target = some info → info.rule = r := by
    intro job hj
    obtain ⟨r, dyn, hok⟩ := hrec.jobs job hj
    exact ⟨r, hok.rule, hok.target, hok.target ▸ hne job hj, fun info hi =>
      (hok.underway.info info hi).1⟩
  obtain ⟨hends, hputs⟩ := wp_of_ok hw
    ((waitForOneJob_ends hd hE hrec.jobs).and (waitForOneJob_puts hE hinfo))
  rcases hends with ⟨-, rfl⟩ | ⟨i, job, r, dyn, hi, hrun, hok, hends⟩
  · exact h
  have hmem := List.mem_of_getElem? hi
  have hends := hends hsmooth
  have hs : Spares d (· = r.target) Ok := by
    rw [hok.target]
    exact ha.jobs job hmem
  have hothers : ∀ j, j ∈ w'.running ↔ j ∈ w.running ∧ j.ruletarget ≠ job.ruletarget := by
    intro j
    rw [hrun]
    exact mem_eraseIdx_iff_of_nodup hinv.job_nodup hi
  refine h.step hed hd₀ hd (fun f hf => hinv.frame_mem hf) hs (fun _ h => h) hrec hends.changes hh
    (fun r₀ hr₀ hmakes he => .inr ?_) (fun rt hrt hwork => ?_) (fun j hj => ?_) fun f hf => ?_
  · -- the job that has been reaped is the one of this rule
    obtain ⟨hphony, -⟩ := hed.makes hok.rule hr₀ he.symm hmakes
    obtain ⟨i', job', hi', hrun', hdone⟩ := hputs.resolve_left fun hnone => by
      rw [hnone.1] at hmem
      exact absurd hmem List.not_mem_nil
    have hmem' := List.mem_of_getElem? hi'
    have hsame : job'.ruletarget = job.ruletarget := by
      by_contra hne
      have hin : job' ∈ w'.running := (hothers job').mpr ⟨hmem', hne⟩
      rw [hrun', mem_eraseIdx_iff_of_nodup hinv.job_nodup hi'] at hin
      exact hin.2 rfl
    obtain rfl := List.inj_on_of_nodup_map hinv.job_nodup hmem' hmem hsame
    obtain ⟨hsome, hkeeps⟩ := hdone r hok.rule hok.target hphony
    obtain ⟨hjobok, hfs⟩ := hkeeps hsmooth
    obtain ⟨info, hinfo⟩ := Option.ne_none_iff_exists'.mp hsome
    obtain ⟨hrule, hdyn, -⟩ := hok.underway.info info hinfo
    have hmade := h.jobs job' hmem hjobok info (hok.target ▸ hinfo) (by rw [hrule]; exact hphony)
    rw [hrule, hdyn] at hmade
    exact hends.earned hed hd hmd5 hs hok.rule hr₀ he.symm hmakes hrec.clean hok.underway hl hh hfs
      hmade
  · refine hwork.mono (fun _ hf _ _ => hf) fun j hj ht => (hothers j).mpr ⟨hj, fun he => hrt ?_⟩
    rw [← ht, he, hok.target]
  · obtain ⟨hj, hne⟩ := (hothers j).mp hj
    exact .inl ⟨hj, hok.target ▸ hne⟩
  · exact .inl ⟨hf, fun he => hinv.job_ne hf hmem (hok.target ▸ he.symm)⟩

/-! ## Steps for a rule -/

/-- A rule that is still looked at is not at work. -/
theorem Inv.not_atWork (hinv : Inv d root (.rule f :: k) w) (hl : f.phase.looking = true) :
    ¬AtWork (.rule f :: k) w f.rule.target := by
  rintro (⟨g, hg, ht, hg'⟩ | ⟨job, hj, ht⟩)
  · rcases List.mem_cons.mp hg with rfl | hg
    · rw [hl] at hg'
      cases hg'
    · exact hinv.below_ne hg ht
  · exact hinv.job_ne List.mem_cons_self hj ht

/-- A rule that is found up to date is made, and it has earned its trust with what has been recorded
of it since. -/
theorem Earned.checked (hn : d.norun = 0) (hforce : d.force = false) (hed : Edition d₀ d)
    (hd : Unshared d scratch) (hmd5 : E.md5 = C.md5) (hinv : Inv d root (.rule f :: k) w)
    (hrec : Recorded d E scratch Ok (.rule f :: k) w) (hphase : f.phase = .check dyn)
    (hr₀ : r₀ ∈ d₀.rules) (ht : f.rule.target = r₀.target) (hmakes : r₀.Makes)
    (hc : checkRule d E f.rule f.target (d.vardict f.rule) dyn f.status w = .ok .uptodate w')
    (hl : w.fs.Logged scratch C) (hh : w.cache.Honest scratch C) (hh' : w'.cache.Honest scratch C)
    (h : Earned O scratch C w.cache w.fs r₀) : Earned O scratch C w'.cache w'.fs r₀ := by
  have hf := (hinv.frameOK f List.mem_cons_self).1
  have hr := d.ruleFor_mem hf
  obtain ⟨hphony, hdo⟩ := hed.makes hr hr₀ ht hmakes
  have hpasses := wp_of_ok hc (checkRule_passes hn hforce hf hphony hdo w hrec.truthful.owned
    (hrec.head.files (by rw [hphase]; rfl) hphony)) rfl
  rw [hmd5] at hpasses
  obtain ⟨hre, -⟩ := wp_of_ok hc (checkRule_compared hn hforce hf w hrec.truthful.owned)
  have hch := hrec.checked hn hforce hd hinv hphase hc
  have hcur := hch.current rfl hphony hdo
  have hs' := ((hch.known rfl).grow hd hr fun _ _ => trivial).scanned
  have hs : Scanned d f.rule (fun _ => True) w.fs dyn := by
    rw [← hre.fs_eq]
    exact hs'
  have hmade := h.made d f.rule dyn w.cache w.fs hed hd hr ht rfl rfl rfl (fun _ _ => rfl) hl hh hs
    hpasses
  -- its dynamic dependencies have been recorded with its commands
  have hdeps : w'.cache.deps.lookup f.rule.target = some (lsort dyn) := by
    have hcache : w'.cache.deps = w.cache.deps := by rw [hre.rest]
    obtain ⟨cmd, -, hcmd⟩ := hpasses.cmd
    have hsome := h.entered (by rw [← ht, hcmd]; exact Option.some_ne_none _)
    obtain ⟨l, hlookup⟩ := Option.ne_none_iff_exists'.mp hsome
    rw [← ht] at hlookup
    rw [hcache, hlookup, hpasses.deps.1 l hlookup]
  refine .of_made hed hd hr hr₀ ht hmakes.1 hmd5 (by rwa [hre.fs_eq]) hh' hs' hdeps hcur.hash
    hcur.cmd ?_
  rw [hre.fs_eq]
  exact hmade

/-- A step for the innermost rule, which stays at work in its new phase. -/
theorem OnCourse.own (hed : Edition d₀ d) (hd₀ : Unshared d₀ scratch) (hd : Unshared d scratch)
    (hinv : Inv d root (.rule f :: k) w) (hs : Spares d F Ok) (hF : ∀ rt, F rt → rt = f.rule.target)
    (hrec : Recorded d E scratch Ok (.rule f :: k) w) (h : OnCourse O d scratch C (.rule f :: k) w)
    (hc : Changes d E.md5 scratch F (· = f.rule.target) w w') (hh : w'.cache.Honest scratch C)
    (hrun : w'.running = w.running) {s : Status} {phase : Phase} (hl : phase.looking = false)
    (hphase : f.rule.phony = false → PhaseFollows O d w'.fs f.rule phase) :
    OnCourse O d scratch C (.rule ({ f with status := s }.goto phase) :: k) w' := by
  refine h.step hed hd₀ hd (fun f hf => hinv.frame_mem hf) hs hF hrec hc hh
    (fun r₀ _ _ he => .inl (.inl ⟨_, List.mem_cons_self, he.symm, hl⟩)) (fun rt hrt hwork => ?_)
    (fun job hj => ?_) (List.forall_mem_cons.mpr ⟨.inr hphase, fun g hg => .inl ?_⟩)
  · refine hwork.mono (List.forall_mem_cons.mpr ⟨fun he _ => absurd he.symm hrt, fun g hg _ _ => ?_⟩)
      fun job hj _ => hrun ▸ hj
    exact List.mem_cons_of_mem _ hg
  · rw [hrun] at hj
    exact .inl ⟨hj, hinv.job_ne List.mem_cons_self hj⟩
  · exact ⟨List.mem_cons_of_mem _ hg, hinv.below_ne hg⟩

/-- The innermost rule is left, and is not at work any more. -/
theorem OnCourse.leaves (hed : Edition d₀ d) (hd₀ : Unshared d₀ scratch) (hd : Unshared d scratch)
    (hinv : Inv d root (.rule f :: k) w) (hs : Spares d F Ok) (hF : ∀ rt, F rt → rt = f.rule.target)
    (hrec : Recorded d E scratch Ok (.rule f :: k) w) (h : OnCourse O d scratch C (.rule f :: k) w)
    (hc : Changes d E.md5 scratch F (· = f.rule.target) w w') (hh : w'.cache.Honest scratch C)
    (hrun : w'.running = w.running) (st : Status)
    (hown : ∀ r₀ ∈ d₀.rules, r₀.Makes → r₀.target = f.rule.target →
      Earned O scratch C w'.cache w'.fs r₀) :
    OnCourse O d scratch C (.ret f.target st :: k) (left f dyn st w') := by
  have hc' : Changes d E.md5 scratch F (· = f.rule.target) w (left f dyn st w') :=
    trans_of (Changes d E.md5 scratch _ _) hc (left_changes f dyn st w')
  refine h.step hed hd₀ hd (fun f hf => hinv.frame_mem hf) hs hF hrec hc' hh
    (fun r₀ hr₀ hmakes he => .inr (hown r₀ hr₀ hmakes he)) (fun rt hrt hwork => ?_)
    (fun job hj => .inl ?_) fun g hg => .inl ⟨List.mem_cons_of_mem _ hg, hinv.below_ne hg⟩
  · refine hwork.mono (List.forall_mem_cons.mpr ⟨fun he _ => absurd he.symm hrt, fun g hg _ _ => hg⟩)
      fun job hj _ => ?_
    change job ∈ w'.running
    rwa [hrun]
  · change job ∈ w'.running at hj
    rw [hrun] at hj
    exact ⟨hj, hinv.job_ne List.mem_cons_self hj⟩

/-- The innermost rule goes on as a job. -/
theorem OnCourse.forks (hed : Edition d₀ d) (hd₀ : Unshared d₀ scratch) (hd : Unshared d scratch)
    (hE : Confined d scratch E) (hO : O.Kept d E) (hinv : Inv d root (.rule f :: k) w)
    (hs : Spares d (· = f.rule.target) Ok) (hrec : Recorded d E scratch Ok (.rule f :: k) w)
    (h : OnCourse O d scratch C (.rule f :: k) w) {notify : RuleTarget} {n i : Nat} {todo : List Script}
    (hphase : f.phase = .slots dyn notify n i todo) {w₁ : World}
    (hadd : addNewJob E f.rule notify i todo w = .ok ⟨⟩ w₁) :
    OnCourse O d scratch C (.ret f.target .running :: k) (left f dyn .running w₁) := by
  have hr := hinv.frame_mem (f := f) List.mem_cons_self
  have hu := hrec.head.phase
  rw [hphase] at hu
  have hspec : wp (addNewJob E f.rule notify i todo)
      (fun _ w' => w'.fs = w.fs ∧ w'.cache = w.cache ∧ w'.precache = w.precache ∧
        w'.cleaning = w.cleaning ∧ ∃ job, w'.running = w.running ++ [job] ∧
          job.ruletarget = f.rule.target ∧
          job.puts = (childScripts E f.rule w.tick i todo w.fs).2.2.1 ∧
          (job.ok = true → (childScripts E f.rule w.tick i todo w.fs).1 = 0))
      (fun _ _ => True) w := by
    unfold addNewJob emit
    rw [wp_bind, wp_modify, wp_modify]
    exact ⟨rfl, rfl, rfl, rfl, _, rfl, rfl, rfl, of_decide_eq_true⟩
  obtain ⟨hfs, hcache, hpre, hclean, job, hrun, hjob, hputs, hok⟩ := wp_of_ok hadd hspec
  have hc : Changes d E.md5 scratch (fun _ => False) (fun _ => False) w (left f dyn .running w₁) :=
    .of_eq hfs hcache hpre hclean
  -- what the job will have done when it is reaped
  have hmade : f.rule.phony = false → job.ok = true → O.Made d f.rule dyn (w.fs.putAll job.puts) := by
    intro hphony hjobok
    have hfollows := h.frames f List.mem_cons_self hphony
    rw [hphase] at hfollows
    obtain ⟨hi, hafter⟩ := hfollows
    have hchild := childScripts_follows (E := E) (r := f.rule)
      (P := fun i fs => Known d Ok fs f.rule dyn ∧ O.After d f.rule dyn i fs)
      (fun tick i fs hi hP hpass => ?_) w.tick i todo w.fs hi ⟨hu.known, hafter⟩ (hok hjobok)
    · rw [hputs]
      exact hchild.2
    · have hputs : Changes d E.md5 scratch (· = f.rule.target) (fun _ => False) { w with fs }
          { w with fs := fs.putAll (E.exec tick f.rule.target (.script i) fs).puts } :=
        .puts hr rfl fun x hx => (hE f.rule hr tick _ fs x hx).1
      exact ⟨hputs.known hd hs hr hP.1, hO.script f.rule hr hphony dyn tick i fs hi
        (hP.1.grow hd hr fun _ _ => trivial).scanned hP.2 hpass⟩
  refine h.step hed hd₀ hd (fun f hf => hinv.frame_mem hf) (.nothing d Ok) (fun _ => id) hrec hc
    (h.honest.of_eq (by rw [← hcache]; rfl)) (fun _ _ _ hT => hT.elim) (fun rt _ hwork => ?_)
    (fun j hj => ?_) fun g hg => .inl ⟨List.mem_cons_of_mem _ hg, id⟩
  · have hin : ∀ j ∈ w.running, j ∈ (left f dyn .running w₁).running := fun j hj => by
      change j ∈ w₁.running
      rw [hrun]
      exact List.mem_append_left _ hj
    by_cases he : f.rule.target = rt
    · refine .inr ⟨job, ?_, hjob.trans he⟩
      change job ∈ w₁.running
      rw [hrun]
      exact List.mem_append_right _ (List.mem_singleton.mpr rfl)
    · exact hwork.mono (List.forall_mem_cons.mpr ⟨fun ht => absurd ht he, fun g hg _ _ => hg⟩)
        fun j hj _ => hin j hj
  · change j ∈ w₁.running at hj
    rw [hrun] at hj
    refine (List.mem_append.mp hj).imp (fun hj => ⟨hj, id⟩) fun hj hjobok info hi hphony => ?_
    obtain rfl := List.mem_singleton.mp hj
    change w₁.precache j.ruletarget = some info at hi
    rw [hpre, hjob] at hi
    obtain ⟨hrule, hdyn, -⟩ := hu.info info hi
    change O.Made d info.rule info.dyndeps (w₁.fs.putAll j.puts)
    rw [hfs, hrule, hdyn]
    rw [hrule] at hphony
    exact hmade hphony hjobok

/-- **Every step keeps the run on course.** -/
theorem Move.onCourse (hn : d.norun = 0) (hforce : d.force = false) (hed : Edition d₀ d)
    (hd₀ : Unshared d₀ scratch) (hd : Unshared d scratch) (hE : Confined d scratch E)
    (hO : O.Kept d E) (hmd5 : E.md5 = C.md5) (hinv : Inv d root p w)
    (hrec : Recorded d E scratch Ok p w) (ha : Admits d Ok p w) (hsmooth : Smooth w'.trace)
    (hl : w.fs.Logged scratch C) (hl' : w'.fs.Logged scratch C) (h : OnCourse O d scratch C p w)
    (hm : Move d E p w p' w') : OnCourse O d scratch C p' w' := by
  have hh := hm.honest hn hmd5 hl h.honest
  have hrules : ∀ f ∈ frames p, f.rule ∈ d.rules := fun f hf => hinv.frame_mem hf
  cases hm with
  | glance hg =>
    obtain ⟨⟨hc, hrun⟩, hkept, hframes⟩ := hg.same (E := E) scratch
    refine h.step hed hd₀ hd hrules (.nothing d Ok) (fun _ => id) hrec hc hh
      (fun _ _ _ hT => hT.elim) (fun rt _ hwork => ?_) (fun j hj => .inl ⟨hrun ▸ hj, id⟩)
      fun f hf => (hframes f hf).imp (fun hf => ⟨hf, id⟩) fun hlook _ => ?_
    · exact hwork.mono (fun f hf _ hl => hkept f hf hl) fun j hj _ => hrun ▸ hj
    · cases hphase : f.phase with
      | deps | scan | check | launch => exact trivial
      | scripts | slots | ended =>
        rw [hphase] at hlook
        cases hlook
  | wait _ hw =>
    have h' := h.waited hed hd₀ hd hE hmd5 hinv hrec ha hw hsmooth hl' hh
    exact ⟨h'.honest, h'.earned, h'.jobs, h'.frames⟩
  | @launch f k _ dyn _ hphase hcheck hdo =>
    have hf := (hinv.frameOK f List.mem_cons_self).1
    obtain ⟨hre, -⟩ := wp_of_ok hcheck (checkRule_compared hn hforce hf w hrec.truthful.owned)
    have hq := (checkRule_quiet (E := E) (S := fun _ => False) (O := (· = f.rule.target)) f.target
      (d.vardict f.rule) dyn f.status rfl).ok hcheck
    exact h.own hed hd₀ hd hinv (.nothing d Ok) (fun _ hF => hF.elim) hrec hre.changes hh hq.running
      rfl fun _ => trivial
  | @skip f k _ dyn st w₁ hphase hcheck hdo =>
    have hf := (hinv.frameOK f List.mem_cons_self).1
    obtain ⟨hre, -, hout, -, -, hsame⟩ := wp_of_ok hcheck
      (checkRule_compared hn hforce hf w hrec.truthful.owned)
    have hq := (checkRule_quiet (E := E) (S := fun _ => False) (O := (· = f.rule.target)) f.target
      (d.vardict f.rule) dyn f.status rfl).ok hcheck
    refine h.leaves hed hd₀ hd hinv (.nothing d Ok) (fun _ hF => hF.elim) hrec hre.changes hh
      hq.running st fun r₀ hr₀ hmakes ht => ?_
    have hearned := (h.earned r₀ hr₀ hmakes).resolve_left
      (ht ▸ hinv.not_atWork (by rw [hphase]; rfl))
    by_cases hdone : st.done = true
    · obtain ⟨-, hdo'⟩ := hed.makes (d.ruleFor_mem hf) hr₀ ht.symm hmakes
      have hup : st = .uptodate := by
        cases st <;> simp_all [Status.done]
      subst hup
      exact hearned.checked hn hforce hed hd hmd5 hinv hrec hphase hr₀ ht.symm hmakes hcheck hl
        h.honest hh
    · -- nothing was compared
      have hnot : f.status.done = false := by
        rcases hout with rfl | ⟨-, rfl⟩
        · simpa using hdone
        · exact absurd rfl hdone
      obtain rfl := hsame hnot
      exact hearned
  | dry _ hdry => exact absurd hn hdry
  | @begin f k _ dyn w₁ _ hphase _ h₁ h₂ =>
    have hs := ha.begun f k rfl (by rw [hphase]; rfl)
    have hr := hinv.frame_mem (f := f) List.mem_cons_self
    have hq₁ := (prepareRule_quiet (E := E) (S := fun _ => False) (O := (· = f.rule.target)) rfl).ok h₁
    obtain ⟨w₂, hq₂, he₂⟩ := wp_of_ok h₂ (beginRule_spec f.rule f.target (d.vardict f.rule) dyn w₁)
    have hrun : w'.running = w.running := by
      rw [he₂]
      exact hq₂.running.trans hq₁.running
    refine h.own hed hd₀ hd hinv hs (fun _ h => h) hrec (begin_changes hE hr h₁ h₂) hh hrun
      (s := f.status) ?_ fun hphony => ?_
    · unfold firstPhase
      split <;> rfl
    · have hstart := hO.start f.rule hr hphony dyn w'.fs
      unfold firstPhase
      split <;> exact ⟨Nat.zero_add _, hstart⟩
  | @finished f k _ dyn i hphase =>
    have hs := ha.begun f k rfl (by rw [hphase]; rfl)
    have hfollows := h.frames f List.mem_cons_self
    rw [hphase] at hfollows
    refine h.own hed hd₀ hd hinv hs (fun _ h => h) hrec (refl_of _ w) hh rfl (s := f.status) rfl
      fun hphony _ => ?_
    obtain ⟨hi, hafter⟩ := hfollows hphony
    rw [List.length_nil, Nat.add_zero] at hi
    subst hi
    exact hafter
  | @script f k _ dyn i script todo res _ hphase hres hrun happly =>
    subst hres
    have hu := hrec.head.phase
    rw [hphase] at hu
    have hs := ha.begun f k rfl (by rw [hphase]; rfl)
    have hr := hinv.frame_mem (f := f) List.mem_cons_self
    have hask : Works d E scratch f.rule w { w with tick := w.tick + 1 } := .of_eq rfl rfl rfl rfl
    have hw := trans_of (Works d E scratch f.rule) hask ((applyResult_works hE hr _ _ _).ok happly)
    have hq := (applyResult_quiet (d := d) (E := E) (S := fun _ => False)
      (O := (· = f.rule.target)) rfl).ok happly
    obtain ⟨hfs, -⟩ := wp_of_ok happly (applyResult_fs _ _ _)
    have hfollows := h.frames f List.mem_cons_self
    rw [hphase] at hfollows
    refine h.own hed hd₀ hd hinv hs (fun _ h => h) hrec hw.changes hh hq.running (s := f.status) ?_
      fun hphony => ?_
    · split <;> rfl
    · obtain ⟨hi, hafter⟩ := hfollows hphony
      rw [List.length_cons] at hi
      split
      · next hfail =>
        intro hrc
        rw [hrc] at hfail
        simp at hfail
      · next hpass =>
        refine ⟨by omega, ?_⟩
        rw [hfs]
        exact hO.script f.rule hr hphony dyn w.tick i w.fs (by omega)
          (hu.known.grow hd hr fun _ _ => trivial).scanned hafter (ScriptResult.passes_iff.mpr hpass)
  | @forks f k _ dyn i script todo res notify _ hphase hres hrun hrecord =>
    have hs := ha.begun f k rfl (by rw [hphase]; rfl)
    have hask : Works d E scratch f.rule w { w with tick := w.tick + 1 } := .of_eq rfl rfl rfl rfl
    have hw := trans_of (Works d E scratch f.rule) hask ((recordCmds_works _).ok hrecord)
    have hq := (recordCmds_quiet (d := d) (E := E) (S := fun _ => False) (O := (· = f.rule.target))
      _ rfl).ok hrecord
    have hfs : w'.fs = w.fs := by
      rw [recordCmds, modifyCache, modify_ok_iff] at hrecord
      rw [← hrecord]
    have hfollows := h.frames f List.mem_cons_self
    rw [hphase] at hfollows
    refine h.own hed hd₀ hd hinv hs (fun _ h => h) hrec hw.changes hh hq.running (s := f.status) rfl
      fun hphony => ?_
    obtain ⟨hi, hafter⟩ := hfollows hphony
    exact ⟨hi, by rwa [hfs]⟩
  | @slot f k _ dyn notify n i todo b _ hphase hfull hw =>
    have h' := h.waited hed hd₀ hd hE hmd5 hinv hrec ha hw hsmooth hl' hh
    have hfollows := h'.frames f List.mem_cons_self
    rw [hphase] at hfollows
    refine ⟨h'.honest, fun r₀ hr₀ hmakes => (h'.earned r₀ hr₀ hmakes).imp_left fun hwork => ?_, h'.jobs,
      List.forall_mem_cons.mpr ⟨hfollows, fun g hg => h'.frames g (List.mem_cons_of_mem _ hg)⟩⟩
    rcases hwork with ⟨g, hg, ht, hlook⟩ | hjob
    · rcases List.mem_cons.mp hg with rfl | hg
      · exact .inl ⟨_, List.mem_cons_self, ht, rfl⟩
      · exact .inl ⟨g, List.mem_cons_of_mem _ hg, ht, hlook⟩
    · exact .inr hjob
  | @fork f k _ dyn notify n i todo w₁ hphase hfree hadd hgo =>
    have hs := ha.begun f k rfl (by rw [hphase]; rfl)
    exact h.forks hed hd₀ hd hE hO hinv hs hrec hphase hadd
  | @ended f k _ dyn rc st w₁ hphase hend hgo =>
    have hu := hrec.head.phase
    rw [hphase] at hu
    have hs := ha.begun f k rfl (by rw [hphase]; rfl)
    have hr := hinv.frame_mem (f := f) List.mem_cons_self
    have hq := (endForeground_quiet (d := d) (E := E) (S := (· = f.rule.target))
      (O := (· = f.rule.target)) rc rfl rfl).ok hend
    have hsmooth₁ : Smooth w₁.trace :=
      hsmooth.mono ((List.suffix_cons _ _).trans (List.suffix_cons _ _))
    have hends := wp_of_ok hend (endForeground_ends hd hE hr hu.info rc) hsmooth₁
    refine h.leaves hed hd₀ hd hinv hs (fun _ h => h) hrec hends.changes hh hq.running st
      fun r₀ hr₀ hmakes ht => ?_
    obtain ⟨hphony, -⟩ := hed.makes hr hr₀ ht.symm hmakes
    obtain ⟨hrc, hfs⟩ := wp_of_ok hend (endForeground_keeps hE hr hphony
      (fun info hi => (hu.info info hi).1) rc) hsmooth₁
    have hfollows := h.frames f List.mem_cons_self hphony
    rw [hphase] at hfollows
    exact hends.earned hed hd hmd5 hs hr hr₀ ht.symm hmakes hrec.clean hu hl' hh hfs (hfollows hrc)

/-! ## Runs -/

/-- What is done is not at work. -/
theorem Inv.done_not_atWork (hinv : Inv d root p w) {rt : RuleTarget}
    (hdone : (w.rulestatus rt).done = true) : ¬AtWork p w rt := by
  rintro (⟨f, hf, rfl, -⟩ | ⟨job, hj, rfl⟩)
  · rw [hinv.not_done (List.mem_map_of_mem hf)] at hdone
    cases hdone
  · rw [hinv.job_running job hj] at hdone
    cases hdone

/-- Of what is done the cache is true, and can be trusted: so it is made. -/
theorem OnCourse.made (hed : Edition d₀ d) (hd : Unshared d scratch) (hmd5 : E.md5 = C.md5)
    (hinv : Inv d root p w) (hl : w.fs.Logged scratch C) (h : OnCourse O d scratch C p w)
    (ht : Truthful d E (d.Done w.toCore) w) {t : Name} (hdone : d.Done w.toCore t)
    (hr : d.ruleFor t = some r) (hmakes : r.Makes) :
    ∃ dyn, Known d (d.Done w.toCore) w.fs r dyn ∧ O.Made d r dyn w.fs := by
  obtain ⟨hne, hphony, hdo⟩ := hmakes
  have hmem := d.ruleFor_mem hr
  obtain ⟨dyn, hk, hcur⟩ := ht.rules t r hdone hr
  have hcur := hcur hphony hdo
  obtain ⟨r₀, hr₀, htarget, hphony₀, hdo₀, -⟩ := hed.rules r hmem
  have hmakes₀ : r₀.Makes := ⟨by rwa [htarget], hphony₀.trans hphony, fun he => hdo (hdo₀.mp he)⟩
  have hearned := (h.earned r₀ hr₀ hmakes₀).resolve_left
    (htarget ▸ hinv.done_not_atWork ((Desc.done_rule hr).mp hdone))
  refine ⟨dyn, hk, hearned.made d r dyn w.cache w.fs hed hd hmem htarget.symm rfl rfl rfl
    (fun _ _ => rfl) hl h.honest (hk.grow hd hmem fun _ _ => trivial).scanned ?_⟩
  rw [← hmd5]
  exact ⟨hcur.files, hcur.deps, fun _ => hcur.hash, hcur.cmd⟩

/-- **Every run in which nothing has failed is on course**, if it begins with a cache that can be
trusted and no file ever has two contents with the same time. -/
theorem Run.onCourse {c : Core} (hn : d.norun = 0) (hforce : d.force = false) (hed : Edition d₀ d)
    (hd₀ : Unshared d₀ scratch) (hd : Unshared d scratch) (hE : Confined d scratch E)
    (hO : O.Kept d E) (hmd5 : E.md5 = C.md5) (hclean : c.cleaning = false) (howned : Owned d c.cache)
    (hhonest : c.cache.Honest scratch C)
    (hearned : ∀ r₀ ∈ d₀.rules, r₀.Makes → Earned O scratch C c.cache c.fs r₀)
    (h : Run d E (fun _ w => w.fs.Logged scratch C) c p w) (hl : w.fs.Logged scratch C)
    (hsmooth : Smooth w.trace) : OnCourse O d scratch C p w := by
  induction h with
  | fresh =>
    refine ⟨hhonest, fun r₀ hr₀ hmakes => .inr (hearned r₀ hr₀ hmakes), ?_, ?_⟩
    · exact fun _ hj => absurd hj List.not_mem_nil
    · exact fun _ hf => absurd hf List.not_mem_nil
  | request t _ ih =>
    have h := ih hl hsmooth
    exact ⟨h.honest, h.earned, h.jobs, h.frames⟩
  | step hrun hlogged hnext ih =>
    obtain ⟨root, hinv, hm, hsmooth₀, hrec, hadmits, -⟩ :=
      hrun.next_recorded hn hforce hd hE hclean howned hnext hsmooth
    exact hm.onCourse hn hforce hed hd₀ hd hE hO hmd5 hinv hrec hadmits hsmooth hlogged hl
      (ih hlogged hsmooth₀)
  | settled _ ih =>
    have h := ih hl hsmooth
    exact ⟨h.honest, h.earned, h.jobs, h.frames⟩

end

end Tmake
