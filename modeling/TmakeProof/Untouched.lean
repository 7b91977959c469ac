import TmakeProof.Rebuilds

/-! # What a run leaves alone

A step writes only files of rules whose `-do` lists are at work, which are none of the rules
that are done (`Move.changes`).  What is put to work has a `-do` list (`Run.atWork`), and so a
run writes no file but what some `-do` list is there to make (`Run.sources`).
-/
namespace Tmake
open Weakest Machine

variable {d : Desc} {E : Env} {scratch : Path → Prop} {Ok : Name → Prop} {root : Name}
  {p p' k : Point} {w w' : World} {f : Frame} {rt : RuleTarget}

/-! ## What is put to work -/

/-- The innermost rule was at work before, and still is. -/
theorem AtWork.goes {phase : Phase} (h : AtWork (.rule (f.goto phase) :: k) w' rt)
    (hl : f.phase.looking = false) (hjobs : ∀ job ∈ w'.running, job ∈ w.running) :
    AtWork (.rule f :: k) w rt := by
  rcases h with ⟨g, hg, ht, hl'⟩ | ⟨job, hj, ht⟩
  · rcases List.mem_cons.mp hg with rfl | hg
    · exact .inl ⟨f, List.mem_cons_self, ht, hl⟩
    · exact .inl ⟨g, List.mem_cons_of_mem _ hg, ht, hl'⟩
  · exact .inr ⟨job, hjobs job hj, ht⟩

/-- The innermost rule has been left. -/
theorem AtWork.leaves {t : Name} {st : Status} (h : AtWork (.ret t st :: k) w' rt)
    (hjobs : ∀ job ∈ w'.running, job ∈ w.running) : AtWork (.rule f :: k) w rt :=
  h.mono (fun _ hf _ _ => List.mem_cons_of_mem _ hf) fun job hj _ => hjobs job hj

/-- A `-do` list is put to work if there is one. -/
theorem Move.atWork (hn : d.norun = 0) (hinv : Inv d root p w) (hm : Move d E p w p' w')
    (h : AtWork p' w' rt) : AtWork p w rt ∨ ∃ r ∈ d.rules, r.target = rt ∧ r.doList ≠ [] := by
  cases hm with
  | glance hg =>
    obtain ⟨⟨-, hrun⟩, -, hframes⟩ := hg.same (E := E) fun _ => False
    refine .inl (h.mono (fun f hf _ hl => (hframes f hf).resolve_right fun hlook => ?_)
      fun job hj _ => hrun ▸ hj)
    rw [hl] at hlook
    cases hlook
  | wait _ hw =>
    exact .inl (h.mono (fun _ hf _ _ => hf) fun job hj _ => (waitForOneJob_fewer hw).1 job hj)
  | @launch f k _ dyn _ hphase hcheck hdo =>
    have hr := hinv.frame_mem (f := f) List.mem_cons_self
    have hq := (checkRule_quiet (E := E) (S := fun _ => False) (O := (· = f.rule.target)) f.target
      (d.vardict f.rule) dyn f.status rfl).ok hcheck
    rcases h with ⟨g, hg, ht, hl⟩ | ⟨job, hj, ht⟩
    · rcases List.mem_cons.mp hg with rfl | hg
      · exact .inr ⟨f.rule, hr, ht, hdo⟩
      · exact .inl (.inl ⟨g, List.mem_cons_of_mem _ hg, ht, hl⟩)
    · exact .inl (.inr ⟨job, hq.running ▸ hj, ht⟩)
  | @skip f k _ dyn st w₁ hphase hcheck hdo =>
    have hq := (checkRule_quiet (E := E) (S := fun _ => False) (O := (· = f.rule.target)) f.target
      (d.vardict f.rule) dyn f.status rfl).ok hcheck
    exact .inl (h.leaves fun job hj => hq.running ▸ hj)
  | dry _ hdry => exact absurd hn hdry
  | @begin f k _ dyn w₁ _ hphase _ h₁ h₂ =>
    have hq₁ := (prepareRule_quiet (E := E) (S := fun _ => False) (O := (· = f.rule.target)) rfl).ok h₁
    obtain ⟨w₂, hq₂, rfl⟩ := wp_of_ok h₂ (beginRule_spec f.rule f.target (d.vardict f.rule) dyn w₁)
    refine .inl (h.goes (by rw [hphase]; rfl) fun job hj => ?_)
    change job ∈ w₂.running at hj
    rwa [hq₂.running, hq₁.running] at hj
  | finished hphase => exact .inl (h.goes (by rw [hphase]; rfl) fun _ hj => hj)
  | @script f k _ dyn i script todo res _ hphase hres hrun happly =>
    subst hres
    have hq := (applyResult_quiet (d := d) (E := E) (S := fun _ => False)
      (O := (· = f.rule.target)) rfl).ok happly
    exact .inl (h.goes (by rw [hphase]; rfl) fun _ hj => hq.running ▸ hj)
  | @forks f k _ dyn i script todo res notify _ hphase hres hrun hrecord =>
    have hq := (recordCmds_quiet (d := d) (E := E) (S := fun _ => False) (O := (· = f.rule.target))
      _ rfl).ok hrecord
    exact .inl (h.goes (by rw [hphase]; rfl) fun _ hj => hq.running ▸ hj)
  | slot hphase _ hw => exact .inl (h.goes (by rw [hphase]; rfl) (waitForOneJob_fewer hw).1)
  | @fork f k _ dyn notify n i todo w₁ hphase hfree hadd hgo =>
    obtain ⟨job, hjob, -, hsets⟩ := wp_of_ok hadd (addNewJob_sets f.rule notify i todo w)
    rcases h with ⟨g, hg, ht, hl⟩ | ⟨j, hj, ht⟩
    · exact .inl (.inl ⟨g, List.mem_cons_of_mem _ hg, ht, hl⟩)
    · change j ∈ w₁.running at hj
      rw [hsets.running] at hj
      rcases List.mem_append.mp hj with hj | hj
      · exact .inl (.inr ⟨j, hj, ht⟩)
      · rw [List.mem_singleton.mp hj, hjob] at ht
        exact .inl (.inl ⟨f, List.mem_cons_self, ht, by rw [hphase]; rfl⟩)
  | @ended f k _ dyn rc st w₁ hphase hend hgo =>
    have hq := (endForeground_quiet (d := d) (E := E) (S := (· = f.rule.target))
      (O := (· = f.rule.target)) rc rfl rfl).ok hend
    exact .inl (h.leaves fun job hj => hq.running ▸ hj)

/-- What is at work in a run has a `-do` list. -/
theorem Run.atWork {S : Point → World → Prop} {c : Core} (hn : d.norun = 0) (h : Run d E S c p w) :
    ∀ rt, AtWork p w rt → ∃ r ∈ d.rules, r.target = rt ∧ r.doList ≠ [] := by
  induction h with
  | fresh =>
    rintro rt (⟨f, hf, -⟩ | ⟨job, hj, -⟩)
    · exact absurd hf List.not_mem_nil
    · exact absurd hj List.not_mem_nil
  | request t _ ih => exact ih
  | settled _ ih => exact ih
  | step hrun _ hnext ih =>
    obtain ⟨root, hinv, -⟩ := hrun.inv
    exact fun rt hwork => ((next_moves hinv.shape hnext).atWork hn hinv hwork).elim (ih rt) id

/-! ## What is written -/

/-- A step writes no file of a rule that is done, nor any of a rule that is not at work. -/
theorem Move.changes (hn : d.norun = 0) (hforce : d.force = false) (hd : Unshared d scratch)
    (hE : Confined d scratch E) (hinv : Inv d root p w) (hrec : Recorded d E scratch Ok p w)
    (ha : Admits d Ok p w) (hsmooth : Smooth w'.trace) (hm : Move d E p w p' w') :
    ∃ F T, Spares d F Ok ∧ (∀ rt, F rt → AtWork p w rt) ∧ Changes d E.md5 scratch F T w w' := by
  have hnothing : ∀ {T : RuleTarget → Prop}, Changes d E.md5 scratch (fun _ => False) T w w' →
      ∃ F T, Spares d F Ok ∧ (∀ rt, F rt → AtWork p w rt) ∧ Changes d E.md5 scratch F T w w' :=
    fun hc => ⟨_, _, .nothing d Ok, fun _ h => h.elim, hc⟩
  -- the innermost rule is at work
  have hown : ∀ {f : Frame} {k : Point} {T : RuleTarget → Prop}, p = .rule f :: k →
      f.phase.looking = false → Changes d E.md5 scratch (· = f.rule.target) T w w' →
      ∃ F T, Spares d F Ok ∧ (∀ rt, F rt → AtWork p w rt) ∧ Changes d E.md5 scratch F T w w' := by
    rintro f k T rfl hl hc
    refine ⟨_, _, ha.begun f k rfl hl, ?_, hc⟩
    rintro rt rfl
    exact .inl ⟨f, List.mem_cons_self, rfl, hl⟩
  have hwaited : ∀ {b : Bool}, waitForOneJob d E w = .ok b w' →
      ∃ F T, Spares d F Ok ∧ (∀ rt, F rt → AtWork p w rt) ∧ Changes d E.md5 scratch F T w w' := by
    intro b hw
    rcases wp_of_ok hw (waitForOneJob_ends hd hE hrec.jobs) with
      ⟨-, rfl⟩ | ⟨i, job, r, dyn, hi, -, hok, hends⟩
    · exact hnothing (refl_of (Changes d E.md5 scratch _ fun _ => False) _)
    · have hmem := List.mem_of_getElem? hi
      have hs := ha.jobs job hmem
      rw [← hok.target] at hs
      refine ⟨_, _, hs, ?_, (hends hsmooth).changes⟩
      rintro rt rfl
      exact .inr ⟨job, hmem, hok.target.symm⟩
  cases hm with
  | glance hg => exact hnothing (hg.same scratch).1.1
  | wait _ hw => exact hwaited hw
  | launch hphase hcheck hdo =>
    have hf := (hinv.frameOK _ List.mem_cons_self).1
    obtain ⟨hre, -⟩ := wp_of_ok hcheck (checkRule_compared hn hforce hf w hrec.truthful.owned)
    exact hnothing hre.changes
  | @skip f _ _ dyn st w₁ hphase hcheck hdo =>
    have hf := (hinv.frameOK f List.mem_cons_self).1
    obtain ⟨hre, -⟩ := wp_of_ok hcheck (checkRule_compared hn hforce hf w hrec.truthful.owned)
    exact hnothing (trans_of (Changes d E.md5 scratch _ _) hre.changes (left_changes f dyn st w₁))
  | dry _ hdry => exact absurd hn hdry
  | @begin f k _ dyn w₁ _ hphase _ h₁ h₂ =>
    have hr := hinv.frame_mem (f := f) List.mem_cons_self
    exact hown rfl (by rw [hphase]; rfl) (begin_changes hE hr h₁ h₂)
  | finished => exact hnothing (refl_of (Changes d E.md5 scratch _ fun _ => False) w)
  | @script f k _ dyn i script todo res _ hphase hres hrun happly =>
    subst hres
    have hr := hinv.frame_mem (f := f) List.mem_cons_self
    have hask : Works d E scratch f.rule w { w with tick := w.tick + 1 } := .of_eq rfl rfl rfl rfl
    have hw := trans_of (Works d E scratch f.rule) hask ((applyResult_works hE hr _ _ _).ok happly)
    exact hown rfl (by rw [hphase]; rfl) hw.changes
  | @forks f k _ dyn i script todo res notify _ hphase hres hrun hrecord =>
    have hask : Works d E scratch f.rule w { w with tick := w.tick + 1 } := .of_eq rfl rfl rfl rfl
    have hw := trans_of (Works d E scratch f.rule) hask ((recordCmds_works _).ok hrecord)
    exact hown rfl (by rw [hphase]; rfl) hw.changes
  | slot _ _ hw => exact hwaited hw
  | @fork f k _ dyn notify n i todo w₁ hphase hfree hadd hgo =>
    have hspec : wp (addNewJob E f.rule notify i todo) (fun _ w' => w'.fs = w.fs ∧ w'.cache = w.cache ∧
        w'.precache = w.precache ∧ w'.cleaning = w.cleaning) (fun _ _ => True) w := by
      unfold addNewJob emit
      rw [wp_bind, wp_modify, wp_modify]
      exact ⟨rfl, rfl, rfl, rfl⟩
    obtain ⟨hfs, hcache, hpre, hclean⟩ := wp_of_ok hadd hspec
    have hc : Changes d E.md5 scratch (fun _ => False) (fun _ => False) w (left f dyn .running w₁) :=
      .of_eq hfs hcache hpre hclean
    exact hnothing hc
  | @ended f k _ dyn rc st w₁ hphase hend hgo =>
    have hu := hrec.head.phase
    rw [hphase] at hu
    have hr := hinv.frame_mem (f := f) List.mem_cons_self
    have hsmooth₁ : Smooth w₁.trace :=
      hsmooth.mono ((List.suffix_cons _ _).trans (List.suffix_cons _ _))
    have hends := wp_of_ok hend (endForeground_ends hd hE hr hu.info rc) hsmooth₁
    exact hown rfl (by rw [hphase]; rfl)
      (trans_of (Changes d E.md5 scratch _ _) hends.changes (left_changes f dyn st w₁))

/-- A run writes no source. -/
theorem Run.sources {S : Point → World → Prop} {c : Core} (hn : d.norun = 0) (hforce : d.force = false)
    (hd : Unshared d scratch) (hE : Confined d scratch E)
    (hclean : c.cleaning = false) (howned : Owned d c.cache) (h : Run d E S c p w)
    (hsmooth : Smooth w.trace) {q : Path} (hq : ¬scratch q)
    (hsource : ∀ r ∈ d.rules, r.Makes → q ∉ d.files r) : w.fs q = c.fs q := by
  induction h with
  | fresh => rfl
  | request _ _ ih => exact ih hsmooth
  | settled _ ih => exact ih hsmooth
  | @step p p' w w' hrun _ hnext ih =>
    obtain ⟨root, hinv, hm, hsmooth₀, hrec, hadmits, -⟩ :=
      hrun.next_recorded hn hforce hd hE hclean howned hnext hsmooth
    obtain ⟨F, T, -, hwork, hchanges⟩ := hm.changes hn hforce hd hE hinv hrec hadmits hsmooth
    refine (hchanges.fs q hq ?_).trans (ih hsmooth₀)
    rintro r hr hF (hscratch | ⟨hphony, hmem⟩)
    · exact hq hscratch
    -- a rule at work has a `-do` list
    obtain ⟨s, hs, ht, hdo⟩ := hrun.atWork hn _ (hwork _ hF)
    obtain ⟨f, hf, -⟩ := List.mem_map.mp hmem
    have hne : r.target ≠ [] := List.ne_nil_of_mem hf
    obtain rfl := d.rule_eq_of_target hr hs hne ht.symm
    exact hsource r hr ⟨hne, hphony, hdo⟩ hmem

end Tmake
