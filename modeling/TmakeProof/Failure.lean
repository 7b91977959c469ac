import TmakeProof.Respect

/-! # What a failure deletes

When a rule fails, `target-post-build` deletes the build files of its targets,
whether the rule is phony or not.  The state just before is remembered as the
moment `failed` of the run, so that `Moment.deleted` are the files that go.

Two facts about every run carry the result: nothing vanishes from the tree but
at such a moment or by a script (`Lawful.vanished`), and a rule fails only after
its `-do` list has begun (`Sane.failed`).
-/
namespace Tmake
open Weakest

/-- The files that `target-post-build` deletes at such a moment. -/
def Moment.deleted (d : Desc) (m : Moment) : List Path :=
  match m.event with
  | .failed ruletarget => (ruletarget.map d.fileBuild).filter fun p => (m.core.fs p).isSome
  | _ => []

/-- Some script of some rule writes this, or removes it. -/
def Env.Puts (E : Env) (x : Path × Option Node) : Prop :=
  ∃ tick r part fs, x ∈ (E.exec tick r part fs).puts

/-- What a run can rely on: jobs write what their scripts wrote, and what is about to be
finished, or has failed, is a rule whose `-do` list had begun. -/
structure Sane (d : Desc) (E : Env) (w : World) : Prop where
  jobs : ∀ job ∈ w.running, ∀ x ∈ job.puts, E.Puts x
  precache : ∀ rt info, w.precache rt = some info →
    rt ∈ starts w.history ∧ ∃ r ∈ d.rules, r.target = rt
  failed : ∀ later m earlier rt, w.history = later ++ m :: earlier → m.event = .failed rt →
    rt ∈ starts earlier ∧ ∃ r ∈ d.rules, r.target = rt

/-- The history grows, and a file vanishes only when a rule fails or by a script. -/
structure Lawful (d : Desc) (E : Env) (w w' : World) : Prop where
  history : ∃ l, w'.history = l ++ w.history
  sane : Sane d E w'
  vanished : ∀ p, w.fs p ≠ none → w'.fs p = none →
    (∃ m ∈ w'.history, p ∈ m.deleted d) ∨ E.Puts (p, none)

/-- Lawful, as long as the run is sane, and sane afterwards. -/
def Lawfully (d : Desc) (E : Env) (w w' : World) : Prop := Sane d E w → Lawful d E w w'

variable {d : Desc} {E : Env}

theorem starts_mono {l tr : List Moment} {rt : RuleTarget} (h : rt ∈ starts tr) :
    rt ∈ starts (l ++ tr) := by
  rw [starts_append]
  exact List.mem_append_right _ h

theorem Lawful.trans {a b c : World} (hab : Lawful d E a b) (hbc : Lawful d E b c) :
    Lawful d E a c := by
  obtain ⟨l, hl⟩ := hab.history
  obtain ⟨l', hl'⟩ := hbc.history
  refine ⟨⟨l' ++ l, by rw [hl', hl, List.append_assoc]⟩, hbc.sane, fun p ha hc => ?_⟩
  by_cases hb : b.fs p = none
  · refine (hab.vanished p ha hb).imp ?_ id
    rintro ⟨m, hm, hp⟩
    exact ⟨m, by rw [hl']; exact List.mem_append_right _ hm, hp⟩
  · exact hbc.vanished p hb hc

instance : IsPreorder World (Lawfully d E) where
  refl _ h := ⟨⟨[], rfl⟩, h, fun _ hp hp' => absurd hp' hp⟩
  trans _ _ _ hab hbc h := (hab h).trans (hbc (hab h).sane)

/-! ## Steps -/

section Steps
variable {w w' : World}

/-- Nothing is written, and at most one moment is remembered, at which no rule fails. -/
theorem Lawfully.of_quiet (hfs : w'.fs = w.fs) (hrun : w'.running = w.running)
    (hpre : ∀ rt info, w'.precache rt = some info → w.precache rt = some info)
    (hhist : w'.history = w.history ∨
      ∃ m, w'.history = m :: w.history ∧ ∀ rt, m.event ≠ .failed rt) : Lawfully d E w w' := by
  intro h
  obtain ⟨l, hl⟩ : ∃ l, w'.history = l ++ w.history := by
    rcases hhist with h | ⟨m, h, -⟩
    · exact ⟨[], h⟩
    · exact ⟨[m], h⟩
  refine ⟨⟨l, hl⟩, ⟨fun job hjob => ?_, fun rt info hinfo => ?_, ?_⟩, ?_⟩
  · exact h.jobs job (hrun ▸ hjob)
  · obtain ⟨hs, hr⟩ := h.precache rt info (hpre rt info hinfo)
    exact ⟨hl ▸ starts_mono hs, hr⟩
  · intro later m earlier rt heq hm
    rcases hhist with hh | ⟨m₀, hh, hm₀⟩
    · exact h.failed later m earlier rt (hh ▸ heq) hm
    · rw [hh] at heq
      cases later with
      | nil =>
        obtain ⟨rfl, -⟩ := List.cons.inj heq
        exact absurd hm (hm₀ rt)
      | cons m₁ later => exact h.failed later m earlier rt (List.cons.inj heq).2 hm
  · intro p hp hp'
    exact absurd (hfs ▸ hp') hp

theorem emit_lawfully {e : Event} (he : ∀ rt, e ≠ .failed rt) : Under (Lawfully d E) (emit e) :=
  Within.modify fun w => Lawfully.of_quiet rfl rfl (fun _ _ h => h) (.inr ⟨⟨e, w.toCore⟩, rfl, he⟩)

/-- Only the status of a rule, the cache, a counter or the like is changed. -/
theorem modify_lawfully {f : World → World} (hfs : ∀ w, (f w).fs = w.fs)
    (hrun : ∀ w, (f w).running = w.running) (hpre : ∀ w, (f w).precache = w.precache)
    (hhist : ∀ w, (f w).history = w.history) : Under (Lawfully d E) (modify f : M Unit) :=
  Within.modify fun w => Lawfully.of_quiet (hfs w) (hrun w) (fun _ _ h => hpre w ▸ h)
    (.inl (hhist w))

theorem FS.putAll_eq_none {fs : FS} {puts : List (Path × Option Node)} {p : Path}
    (h : fs.putAll puts p = none) : fs p = none ∨ (p, none) ∈ puts := by
  induction puts generalizing fs with
  | nil => exact .inl h
  | cons x puts ih =>
    rw [FS.putAll_cons] at h
    rcases ih h with h | h
    · by_cases hp : p = x.1
      · subst hp
        rw [FS.put, Function.update_self] at h
        exact .inr (List.mem_cons.mpr (.inl (by rw [← h])))
      · rw [FS.put, Function.update_of_ne hp] at h
        exact .inl h
    · exact .inr (List.mem_cons_of_mem _ h)

/-- Files are written as scripts write them. -/
theorem Lawfully.puts {puts : List (Path × Option Node)} (hputs : ∀ x ∈ puts, E.Puts x) :
    Lawfully d E w { w with fs := w.fs.putAll puts } := by
  intro h
  refine ⟨⟨[], rfl⟩, ⟨h.jobs, h.precache, h.failed⟩, fun p hp hp' => ?_⟩
  rcases FS.putAll_eq_none hp' with hnone | hmem
  · exact absurd hnone hp
  · exact .inr (hputs _ hmem)

theorem putFiles_lawfully {puts : List (Path × Option Node)} (hputs : ∀ x ∈ puts, E.Puts x) :
    Under (Lawfully d E) (putFiles puts) :=
  Within.modify fun _ => Lawfully.puts hputs

theorem exec_puts (tick : Nat) (r : RuleTarget) (part : Part) (fs : FS) :
    ∀ x ∈ (E.exec tick r part fs).puts, E.Puts x := fun _ hx => ⟨tick, r, part, fs, hx⟩

theorem ask_lawfully {α : Type} (question : Nat → α) : Under (Lawfully d E) (ask question) :=
  Within.modifyGet fun _ => Lawfully.of_quiet rfl rfl (fun _ _ h => h) (.inl rfl)

theorem buildError_lawfully : Under (Lawfully d E) (buildError d) :=
  modify_lawfully (fun _ => rfl) (fun _ => rfl) (fun _ => rfl) fun _ => rfl

theorem buildErrorIf_lawfully (c : Bool) : Under (Lawfully d E) (buildErrorIf d c) :=
  Within.ite (fun _ => buildError_lawfully) fun _ => Within.pure _

theorem modifyCache_lawfully (f : Cache → Cache) : Under (Lawfully d E) (modifyCache f) :=
  modify_lawfully (fun _ => rfl) (fun _ => rfl) (fun _ => rfl) fun _ => rfl

theorem setRuleStatus_lawfully (rt : RuleTarget) (st : Status) :
    Under (Lawfully d E) (setRuleStatus rt st) :=
  modify_lawfully (fun _ => rfl) (fun _ => rfl) (fun _ => rfl) fun _ => rfl

theorem exit_lawfully {α : Type} (code : Nat) (why : Why) :
    Under (Lawfully d E) (tmakeExit code why : M α) :=
  Within.bind (emit_lawfully nofun) fun _ => Within.throw id

theorem tclError_lawfully {α : Type} : Under (Lawfully d E) (tclError : M α) :=
  Within.bind (emit_lawfully nofun) fun _ => Within.throw id

theorem osCheck_lawfully : Under (Lawfully d E) (osCheck E) :=
  Within.bind (ask_lawfully _) fun _ => Within.ite (fun _ => tclError_lawfully) fun _ =>
    Within.pure _

theorem osCheck_spec (w : World) :
    wp (osCheck E) (fun _ w' => w' = { w with tick := w.tick + 1 }) (fun _ _ => True) w := by
  unfold osCheck ask
  rw [wp_bind, wp_modifyGet, wp_ite]
  exact ⟨fun _ => trivial, fun _ => rfl⟩

/-- Evaluate a script in this process. -/
theorem runDo_lawfully (rt : RuleTarget) (part : Part) : Under (Lawfully d E) (runDo E rt part) := by
  refine Within.bind Within.get fun w => ?_
  intro s
  have hask : Lawfully d E s { s with tick := s.tick + 1 } := ask_lawfully (fun _ => ()) s
  have hputs : Lawfully d E { s with tick := s.tick + 1 }
      { s with tick := s.tick + 1, fs := s.fs.putAll (E.exec s.tick rt part w.fs).puts } :=
    Lawfully.puts (exec_puts s.tick rt part w.fs)
  exact trans_of (Lawfully d E) hask hputs

end Steps

/-! ## Finishing a rule -/

theorem recordTargets_lawfully (r : Rule) (rt : RuleTarget) (fs : List Name) (rc : Nat) :
    Under (Lawfully d E) (recordTargets d r rt fs rc) := by
  induction fs generalizing rc with
  | nil => exact Within.pure _
  | cons f fs ih =>
    exact Within.bind Within.get fun w => Within.ite
      (fun _ => Within.bind buildError_lawfully fun _ => ih 3)
      fun _ => Within.bind (modifyCache_lawfully _) fun _ => ih rc

theorem recordBuilt_lawfully (info : PreInfo) (rt : RuleTarget) (rc : Nat) :
    Under (Lawfully d E) (recordBuilt d info rt rc) := by
  have hsubst : Under (Lawfully d E) (substDoOrExit d info.vardict info.rule.doList) := by
    unfold substDoOrExit
    split
    · exact Within.pure _
    · exact exit_lawfully _ _
  exact Within.bind Within.get fun _ => Within.ite
    (fun _ => Within.bind (recordTargets_lawfully _ _ _ _) fun _ => Within.bind hsubst fun _ =>
      Within.bind (modifyCache_lawfully _) fun _ => Within.pure _)
    fun _ => Within.pure _

/-- The `-do` list of the rule has begun. -/
def World.Begun (d : Desc) (rt : RuleTarget) (w : World) : Prop :=
  rt ∈ starts w.history ∧ ∃ r ∈ d.rules, r.target = rt

theorem World.Begun.mono {rt : RuleTarget} {w w' : World} (h : w.Begun d rt)
    (hw : Lawful d E w w') : w'.Begun d rt := by
  obtain ⟨l, hl⟩ := hw.history
  exact ⟨hl ▸ starts_mono h.1, h.2⟩

/-- The files that vanish when a rule fails are those that exist at that moment. -/
theorem recordFailure_lawfully {rt : RuleTarget} (rc : Nat) {w : World} (hw : w.Begun d rt) :
    wp (recordFailure d E rt rc) (fun _ => Lawfully d E w) (fun _ => Lawfully d E w) w := by
  have hemit : Lawfully d E w { w with trace := ⟨.failed rt, w.toCore⟩ :: w.trace } := by
    intro h
    refine ⟨⟨[⟨.failed rt, w.toCore⟩], rfl⟩, ⟨h.jobs, fun rt' info hinfo => ?_, ?_⟩,
      fun p hp hp' => absurd hp' hp⟩
    · obtain ⟨hs, hr⟩ := h.precache rt' info hinfo
      exact ⟨starts_mono (l := [⟨.failed rt, w.toCore⟩]) hs, hr⟩
    · intro later m earlier rt' heq hm
      cases later with
      | nil =>
        obtain ⟨rfl, rfl⟩ := List.cons.inj heq
        cases hm
        exact hw
      | cons m₁ later => exact h.failed later m earlier rt' (List.cons.inj heq).2 hm
  have hdelete : ∀ w₁ : World, w₁.fs = w.fs →
      (∃ l, w₁.history = l ++ ⟨.failed rt, w.toCore⟩ :: w.history) → Lawfully d E w₁
        { w₁ with fs := w₁.fs.putAll (rt.map fun f => (d.fileBuild f, none)) } := by
    intro w₁ hfs ⟨l, hl⟩ h
    refine ⟨⟨[], rfl⟩, ⟨h.jobs, h.precache, h.failed⟩, fun p hp hp' => .inl ?_⟩
    refine ⟨⟨.failed rt, w.toCore⟩, ?_, ?_⟩
    · exact hl ▸ List.mem_append_right _ List.mem_cons_self
    · rcases FS.putAll_eq_none hp' with hnone | hmem
      · exact absurd hnone hp
      · obtain ⟨f, hf, hfp⟩ := List.mem_map.mp hmem
        rw [Prod.mk.injEq] at hfp
        refine List.mem_filter.mpr ⟨List.mem_map.mpr ⟨f, hf, hfp.1⟩, ?_⟩
        rw [hfs] at hp
        simpa using Option.isSome_iff_ne_none.mpr hp
  have hrest : Under (Lawfully d E) (do
      modifyCache fun c => { c with
        dephash := c.dephash.insert rt .failed, writecache := true }
      let frc ← runDo E rt .onerror
      buildErrorIf d (frc ≠ 0 || rc = 1)
      return .failed : M Status) :=
    Within.bind (modifyCache_lawfully _) fun _ => Within.bind (runDo_lawfully _ _) fun _ =>
      Within.bind (buildErrorIf_lawfully _) fun _ => Within.pure _
  unfold recordFailure emit
  rw [wp_bind, wp_modify, wp_bind]
  refine ((osCheck_lawfully _).and (osCheck_spec _)).imp ?_
    fun _ _ h => trans_of (Lawfully d E) hemit h.1.2
  rintro ⟨⟩ w₁ ⟨hw₁, rfl⟩
  have hdeleted := trans_of (Lawfully d E) (trans_of (Lawfully d E) hemit hw₁)
    (hdelete _ rfl ⟨[], rfl⟩)
  rw [wp_bind]
  exact (hrest _).imp (fun _ _ h => trans_of (Lawfully d E) hdeleted h)
    fun _ _ h => trans_of (Lawfully d E) hdeleted h.2

theorem judgeTargets_lawfully (r : Rule) {rt : RuleTarget} (rc : Nat) {w : World}
    (hw : w.Begun d rt) :
    wp (judgeTargets d E r rt rc) (fun _ => Lawfully d E w) (fun _ => Lawfully d E w) w := by
  have hcount : Under (Lawfully d E) (countTarget r) :=
    modify_lawfully (fun _ => rfl) (fun _ => rfl) (fun _ => rfl) fun _ => rfl
  unfold judgeTargets
  rw [wp_ite]
  refine ⟨fun _ => ?_, fun _ => recordFailure_lawfully rc hw⟩
  exact (Within.bind hcount (fun _ => Within.pure Status.built) w).imp (fun _ _ h => h)
    fun _ _ h => h.2

theorem targetPostBuild_lawfully (rt : RuleTarget) (rc : Nat) :
    Under (Lawfully d E) (targetPostBuild d E rt rc) := by
  have hfinally : ∀ st, Under (Lawfully d E) (runFinally d E rt st) := fun st =>
    Within.bind (runDo_lawfully _ _) fun _ => Within.ite
      (fun _ => Within.bind buildError_lawfully fun _ => Within.pure _) fun _ => Within.pure _
  have hforget : Under (Lawfully d E)
      (modify fun w => { w with precache := Function.update w.precache rt none } : M Unit) :=
    Within.modify fun w => Lawfully.of_quiet rfl rfl (fun rt' info h => by
      change Function.update w.precache rt none rt' = some info at h
      by_cases hrt : rt' = rt
      · subst hrt
        simp at h
      · rwa [Function.update_of_ne hrt] at h) (.inl rfl)
  have hnote : Under (Lawfully d E) (noteSuccess rt rc) :=
    Within.ite (fun _ => emit_lawfully nofun) fun _ => Within.pure _
  have htail : ∀ st, Under (Lawfully d E) (do
      let st ← runFinally d E rt st
      setRuleStatus rt st
      modify fun w => { w with precache := Function.update w.precache rt none } : M Unit) :=
    fun st => Within.bind (hfinally st) fun st => Within.bind (setRuleStatus_lawfully _ _)
      fun _ => hforget
  intro w
  unfold targetPostBuild
  rw [wp_bind, wp_get]
  cases hinfo : w.precache rt with
  | none => exact tclError_lawfully w
  | some info =>
    by_cases hs : Sane d E w
    · dsimp only
      rw [wp_bind]
      refine (hnote w).imp (fun _ w₁ h₁ => ?_) fun _ _ h => h
      rw [wp_bind]
      refine (recordBuilt_lawfully info rt rc w₁).imp (fun rc w₂ h₂ => ?_)
        fun _ _ h => ⟨id, trans_of _ h₁ h.2⟩
      have h₂ := trans_of (Lawfully d E) h₁ h₂
      have hbegun : w₂.Begun d rt := World.Begun.mono (hs.precache rt info hinfo) (h₂ hs)
      rw [wp_bind]
      refine (judgeTargets_lawfully info.rule rc hbegun).imp (fun st w₃ h₃ => ?_)
        fun _ _ h => ⟨id, trans_of _ h₂ h⟩
      exact (htail st w₃).imp (fun _ _ h => trans_of _ (trans_of _ h₂ h₃) h)
        fun _ _ h => ⟨id, trans_of _ (trans_of _ h₂ h₃) h.2⟩
    · exact (wp_trivial _ w).imp (fun _ _ _ h => absurd h hs) fun _ _ _ => ⟨id, fun h => absurd h hs⟩

/-! ## The operations -/

/-- One more moment, at which no rule fails, in a sane history. -/
theorem Sane.cons_failed {w : World} (h : Sane d E w) {m₀ : Moment}
    (hm₀ : ∀ rt, m₀.event ≠ .failed rt) {later : List Moment} {m : Moment}
    {earlier : List Moment} {rt : RuleTarget} (heq : m₀ :: w.history = later ++ m :: earlier)
    (hm : m.event = .failed rt) : rt ∈ starts earlier ∧ ∃ r ∈ d.rules, r.target = rt := by
  cases later with
  | nil =>
    obtain ⟨rfl, -⟩ := List.cons.inj heq
    exact absurd hm (hm₀ rt)
  | cons m₁ later => exact h.failed later m earlier rt (List.cons.inj heq).2 hm

theorem beginRule_lawfully {r : Rule} {t : Name} (hr : d.ruleFor t = some r) (dyn : List Name) :
    Under (Lawfully d E) (beginRule d E r t (d.vardict r) dyn) := by
  refine Within.bind osCheck_lawfully fun _ w => ?_
  unfold emit
  rw [wp_bind, wp_modify, wp_modify]
  intro h
  refine ⟨⟨[_], rfl⟩, ⟨h.jobs, fun rt info hinfo => ?_, fun _ _ _ _ heq => h.cons_failed (by nofun) heq⟩,
    fun p hp hp' => absurd hp' hp⟩
  change Function.update w.precache r.target _ rt = some info at hinfo
  by_cases hrt : rt = r.target
  · subst hrt
    exact ⟨List.mem_cons_self, r, d.ruleFor_mem hr, rfl⟩
  · rw [Function.update_of_ne hrt] at hinfo
    obtain ⟨hs, hr'⟩ := h.precache rt info hinfo
    exact ⟨starts_mono (l := [_]) hs, hr'⟩

theorem addNewJob_lawfully (r : Rule) (notify : RuleTarget) (i : Nat) (scripts : List Script) :
    Under (Lawfully d E) (addNewJob E r notify i scripts) := by
  intro w
  unfold addNewJob emit
  rw [wp_bind, wp_modify, wp_modify]
  intro h
  refine ⟨⟨[_], rfl⟩, ⟨fun job hjob => ?_, fun rt info hinfo => ?_,
    fun _ _ _ _ heq => h.cons_failed (by nofun) heq⟩, fun p hp hp' => absurd hp' hp⟩
  · rcases List.mem_append.mp hjob with hjob | hjob
    · exact h.jobs job hjob
    · rw [List.mem_singleton.mp hjob]
      exact childScripts_puts r (fun tick i fs x hx => exec_puts tick r.target (.script i) fs x hx)
        _ _ _ _
  · obtain ⟨hs, hr⟩ := h.precache rt info hinfo
    exact ⟨starts_mono (l := [_]) hs, hr⟩

theorem reapJob_lawfully {i : Nat} {job : Job} {w : World} (hjob : w.running[i]? = some job) :
    Lawfully d E w (final (reapJob d i job) w) := by
  intro h
  have herase : Lawfully d E w { w with running := w.running.eraseIdx i } := fun h =>
    ⟨⟨[], rfl⟩, ⟨fun job hjob => h.jobs job (List.mem_of_mem_eraseIdx hjob), h.precache, h.failed⟩,
      fun p hp hp' => absurd hp' hp⟩
  have hputs : ∀ x ∈ job.puts, E.Puts x := h.jobs job (List.mem_of_getElem? hjob)
  refine wp_final (P := Lawfully d E w) ?_ h
  unfold reapJob
  rw [wp_bind, wp_modify]
  exact (Within.bind (putFiles_lawfully hputs) (fun _ => buildErrorIf_lawfully _) _).imp
    (fun _ _ h => trans_of _ herase h) fun _ _ h => trans_of _ herase h.2

theorem notifyJob_lawfully (job : Job) : Under (Lawfully d E) (notifyJob d job) :=
  Within.ite
    (fun _ => modify_lawfully (fun _ => rfl) (fun _ => rfl) (fun _ => rfl) fun _ => rfl)
    fun _ => Within.bind (emit_lawfully nofun) fun _ => Within.bind (setRuleStatus_lawfully _ _)
      fun _ => Within.ite
        (fun _ => Within.bind Within.get fun _ => exit_lawfully _ _) fun _ => Within.pure _

theorem buildSource_lawfully (t : Name) : Under (Lawfully d E) (buildSource t) := by
  refine Within.bind Within.get fun w => ?_
  split
  · exact Within.pure _
  · exact Within.bind (modify_lawfully (fun _ => rfl) (fun _ => rfl) (fun _ => rfl) fun _ => rfl)
      fun _ => Within.pure _

theorem leave_lawfully (r : Rule) (t : Name) (dyn : List Name) (st : Status) :
    Under (Lawfully d E) (leave r t dyn st) :=
  Within.bind (modify_lawfully (fun _ => rfl) (fun _ => rfl) (fun _ => rfl) fun _ => rfl) fun _ =>
    Within.bind (emit_lawfully nofun) fun _ => Within.bind (emit_lawfully nofun) fun _ =>
      Within.pure _

theorem applyResult_lawfully (tick : Nat) (r : RuleTarget) (part : Part) (fs : FS) :
    Under (Lawfully d E) (applyResult d E r (E.exec tick r part fs)) :=
  Within.bind (modifyCache_lawfully _) fun _ =>
    Within.bind (putFiles_lawfully (exec_puts tick r part fs)) fun _ =>
      Within.bind (buildErrorIf_lawfully _) fun _ =>
        modify_lawfully (fun _ => rfl) (fun _ => rfl) (fun _ => rfl) fun _ => rfl

theorem engine_lawfully : Respected d E (fun _ => True) (Lawfully d E) :=
  Basic.respected
    { ask := ask_lawfully
      stopped := emit_lawfully nofun
      returned := fun _ _ => emit_lawfully nofun
      error := buildError_lawfully
      source := fun _ _ => buildSource_lawfully _
      enter := fun _ => modify_lawfully (fun _ => rfl) (fun _ => rfl) (fun _ => rfl) fun _ => rfl
      leave := fun _ => leave_lawfully _ _
      srchash := fun _ _ => modifyCache_lawfully _
      dephash := fun _ _ => modifyCache_lawfully _
      forget := fun _ => modifyCache_lawfully _
      msg := fun _ => Within.bind (emit_lawfully nofun) fun _ => runDo_lawfully _ _
      begin := fun _ _ _ hr => beginRule_lawfully hr.2
      cmds := fun _ _ _ _ _ => modifyCache_lawfully _
      exec := fun _ _ _ _ _ _ _ => applyResult_lawfully _ _ _ _
      fork := fun _ _ _ _ => addNewJob_lawfully _
      post := targetPostBuild_lawfully
      reap := fun _ _ _ => reapJob_lawfully
      notify := notifyJob_lawfully }

theorem Sane.fresh (c : Core) : Sane d E (World.fresh c) where
  jobs _ h := absurd h List.not_mem_nil
  precache _ _ h := nomatch h
  failed later m earlier rt h := by
    have : (World.fresh c).history = [] := rfl
    rw [this] at h
    simp at h

/-- **Failure clean-up.**  Whatever targets are built, however the run ends: a file of the tree
that is gone was deleted when a rule failed, or by a script; and what is deleted when a rule
fails are target files of a non-phony rule whose `-do` list was run, exactly if no phony rule
fails while there is a file of its name in the build directory. -/
theorem failure_confined (d : Desc) (E : Env) (n : Nat) (ts : List Name) (c : Core) :
    let w := atExit d E (final (buildAll d E n ts) (World.fresh c))
    (∀ p, c.fs p ≠ none → w.fs p = none →
      (∃ m ∈ w.history, p ∈ m.deleted d) ∨ E.Puts (p, none)) ∧
    ((∀ later m earlier, w.history = later ++ m :: earlier → ∀ p ∈ m.deleted d,
        ∃ r ∈ d.rules, r.phony = false ∧ m.event = .failed r.target ∧ p ∈ d.files r ∧
          r.target ∈ starts earlier) ↔
      ∀ m ∈ w.history, ∀ r ∈ d.rules, r.phony = true → m.event = .failed r.target →
        ∀ p ∈ d.files r, m.core.fs p = none) := by
  intro w
  have hrun : Lawful d E (World.fresh c) w := by
    have hall : Under (Lawfully d E) (buildAll d E n ts) :=
      engine_lawfully.buildAll d.closed_all n fun _ _ => trivial
    exact trans_of (Lawfully d E) (hall.final _) (engine_lawfully.atExit _) (Sane.fresh c)
  refine ⟨hrun.vanished, ?_, ?_⟩
  · intro h m hm r hr hphony hevent p hp
    by_contra hfs
    obtain ⟨later, earlier, heq⟩ := List.append_of_mem hm
    have hdel : p ∈ m.deleted d := by
      simp only [Moment.deleted, hevent]
      exact List.mem_filter.mpr ⟨hp, by simpa using Option.isSome_iff_ne_none.mpr hfs⟩
    obtain ⟨r', hr', hphony', hevent', hp', -⟩ := h later m earlier heq p hdel
    rw [hevent] at hevent'
    have htarget : r.target = r'.target := by injection hevent'
    have hne : r.target ≠ [] := by
      rintro h0
      rw [Desc.files, h0] at hp
      exact absurd hp List.not_mem_nil
    rw [d.rule_eq_of_target hr hr' hne htarget, hphony'] at hphony
    cases hphony
  · intro h later m earlier heq p hp
    have hm : m ∈ w.history := by
      rw [heq]
      exact List.mem_append_right _ List.mem_cons_self
    unfold Moment.deleted at hp
    split at hp
    · next rt hevent =>
      obtain ⟨hstarted, r, hr, rfl⟩ := hrun.sane.failed later m earlier rt heq hevent
      obtain ⟨hp, hexists⟩ := List.mem_filter.mp hp
      refine ⟨r, hr, ?_, hevent, hp, hstarted⟩
      by_contra hphony
      have hnone := h m hm r hr (by simpa using hphony) hevent p hp
      rw [hnone] at hexists
      cases hexists
    · exact absurd hp List.not_mem_nil

/-- `target test -phony -do { run false }`, with a file `test` in the build directory. -/
def phonyTest : Desc where
  rules := [{ target := ["test"], doList := [⟨[.lit "run false"]⟩], phony := true }]
  disjoint := by simp

/-- A failing phony rule deletes the file of its name. -/
theorem failure_confined_phony :
    ¬ ∀ (d : Desc) (E : Env) (n : Nat) (ts : List Name) (c : Core) (p : Path),
      c.fs p ≠ none →
      (atExit d E (final (buildAll d E n ts) (World.fresh c))).fs p = none →
      E.Puts (p, none) ∨ ∃ r ∈ d.rules, r.phony = false ∧ p ∈ d.files r := by
  intro h
  let E : Env := { exec := fun _ _ _ _ => { run := true, rc := 1, reported := true }, pick := id }
  let c : Core := { fs := fun p => if p = "objdir/test" then some (.file 1 "kept") else none }
  rcases h phonyTest E 2 ["test"] c "objdir/test" (by decide) (by decide +kernel) with
    ⟨_, _, _, _, hx⟩ | ⟨r, hr, hphony, -⟩
  · cases hx
  · obtain rfl := List.mem_singleton.mp hr
    cases hphony

end Tmake
