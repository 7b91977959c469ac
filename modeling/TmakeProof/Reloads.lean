import TmakeProof.Anchors
import TmakeProof.Make

/-! # No job is lost by a reload

Before the project is parsed again the saved state is restored, and with it the
table of running jobs.  A job that were still in the table would never be reaped,
and its rule could be started a second time.  As long as no job fails while
another one is running, `build-sync` leaves no job behind (`Anchors`), so that the
table is empty whenever it is overwritten.
-/
namespace Tmake
open Weakest

variable {d : Desc} {E : Env} {P : Project} {n : Nat} {w w' : World} {s : Make}

/-! ## Every job is reaped -/

/-- `target-post-build` says what has become of a job for the rule, or is stopped by an error
before it can say so. -/
def Moment.Reaps (m : Moment) (r : RuleTarget) : Prop :=
  m.event = .succeeded r ∨ m.event = .failed r ∨
    m.event = .stopped ∧ ∀ j ∈ m.core.running, j.ruletarget ≠ r

/-- A job was started for the rule and has not been reaped. -/
def outstanding : List Moment → RuleTarget → Prop
  | [], _ => False
  | m :: earlier, r => m.event = .forked r ∨ outstanding earlier r ∧ ¬m.Reaps r

/-- What has not been reaped is in the table of jobs. -/
def Reapable (w : World) : Prop :=
  ∀ r, outstanding w.history r → ∃ j ∈ w.running, j.ruletarget = r

/-- That this is so is kept. -/
def Owes (w w' : World) : Prop := Reapable w → Reapable w'

instance : IsPreorder World Owes where
  refl _ h := h
  trans _ _ _ h h' hw := h' (h hw)

theorem Reapable.of_eq (hr : w'.running = w.running) (hh : w'.history = w.history)
    (h : Reapable w) : Reapable w' := by
  intro r hout
  rw [hr]
  exact h r (hh ▸ hout)

theorem emit_owes {e : Event} (he : ∀ r, e ≠ .forked r) : Under Owes (emit e) :=
  Within.modify fun _ h r hout => hout.elim (fun h => absurd h (he r)) fun hout => h r hout.1

theorem owes_logs : Logs Owes := by
  refine ⟨fun h => Reapable.of_eq h.running ?_, fun e he => emit_owes ?_⟩
  · unfold World.history
    rw [h.trace, h.past]
  · rintro r rfl
    cases he

/-- The jobs are in the table, except for one that has just been taken out. -/
def ReapableBut (rt : RuleTarget) (w : World) : Prop :=
  ∀ r, outstanding w.history r → r = rt ∨ ∃ j ∈ w.running, j.ruletarget = r

/-- The moment that tells of this job. -/
theorem ReapableBut.emit {rt : RuleTarget} {e : Event} (h : ReapableBut rt w)
    (he : ∀ r, e ≠ .forked r)
    (hreaps : (∀ j ∈ w.running, j.ruletarget ≠ rt) → (⟨e, w.toCore⟩ : Moment).Reaps rt) :
    Reapable { w with trace := ⟨e, w.toCore⟩ :: w.trace } := by
  intro r hout
  rcases hout with hout | ⟨hout, hnot⟩
  · exact absurd hout (he r)
  rcases h r hout with rfl | hjob
  · by_contra hnone
    exact hnot (hreaps fun j hj hjr => hnone ⟨j, hj, hjr⟩)
  · exact hjob

theorem recordFailure_reaps (rt : RuleTarget) (rc : Nat) (h : ReapableBut rt w) :
    wp (recordFailure d E rt rc) (fun _ => Reapable) (fun _ => Reapable) w := by
  have he : Elementary d Owes := owes_logs.elementary
  have hrest : Under Owes (do
      osCheck E
      putFiles (rt.map fun f => (d.fileBuild f, none))
      modifyCache fun c => { c with dephash := c.dephash.insert rt .failed, writecache := true }
      let frc ← runDo E rt .onerror
      buildErrorIf d (frc ≠ 0 || rc = 1)
      return .failed : M Status) :=
    Within.bind (he.osCheck E) fun _ => Within.bind (owes_logs.putFiles _) fun _ =>
      Within.bind (owes_logs.modifyCache _) fun _ => Within.bind (owes_logs.runDo _ _) fun _ =>
        Within.bind (he.errorIf _) fun _ => Within.pure _
  have hw₁ := h.emit (e := .failed rt) (by nofun) fun _ => .inr (.inl rfl)
  unfold recordFailure
  rw [wp_bind]
  exact (hrest _).imp (fun _ _ ho => ho hw₁) fun _ _ ho => ho.2 hw₁

/-- `target-post-build` tells of the job. -/
theorem targetPostBuild_reaps (rt : RuleTarget) (rc : Nat) (h : ReapableBut rt w) :
    wp (targetPostBuild d E rt rc) (fun _ => Reapable) (fun _ => Reapable) w := by
  have hfin : Finishing d E rt Owes := owes_logs.finishing rt
  have hrest : ∀ status : Status, Under Owes (do
      let status ← runFinally d E rt status
      setRuleStatus rt status
      modify fun w => { w with precache := Function.update w.precache rt none } : M Unit) :=
    fun status => Within.bind (hfin.runFinally _) fun _ =>
      Within.bind (owes_logs.alter fun _ => ⟨rfl, rfl, rfl, rfl⟩) fun _ =>
        owes_logs.alter fun _ => ⟨rfl, rfl, rfl, rfl⟩
  unfold targetPostBuild
  rw [wp_bind, wp_get]
  split
  · exact h.emit (by nofun) fun hnone => .inr (.inr ⟨rfl, hnone⟩)
  · next info _ =>
    rw [wp_bind]
    unfold noteSuccess
    by_cases hrc : rc = 0
    · rw [if_pos hrc]
      have hw₁ := h.emit (e := .succeeded rt) (by nofun) fun _ => .inl rfl
      have hbuilt := Within.bind (hfin.recordBuilt info rc) fun rc =>
        Within.bind (hfin.judgeTargets info.rule rc) hrest
      exact (hbuilt _).imp (fun _ _ ho => ho hw₁) fun _ _ ho => ho.2 hw₁
    · rw [if_neg hrc, wp_pure, wp_bind]
      unfold recordBuilt
      rw [wp_bind, wp_get, if_neg (by simp [hrc]), wp_pure]
      unfold judgeTargets
      rw [if_neg hrc, wp_bind]
      refine (recordFailure_reaps rt rc h).imp (fun status t ht => ?_) fun _ _ ht => ht
      exact (hrest status t).imp (fun _ _ ho => ho ht) fun _ _ ho => ho.2 ht

theorem mem_eraseIdx_of_ne {α : Type} {l : List α} {i : Nat} {a b : α} (hb : b ∈ l)
    (ha : l[i]? = some a) (hne : b ≠ a) : b ∈ l.eraseIdx i := by
  obtain ⟨k, hk⟩ := List.mem_iff_getElem?.mp hb
  refine List.mem_eraseIdx_iff_getElem?.mpr ⟨k, ?_, hk⟩
  rintro rfl
  rw [ha] at hk
  exact hne (Option.some.inj hk).symm

theorem waitForOneJob_owes : Under Owes (waitForOneJob d E) := by
  intro w
  unfold waitForOneJob
  rw [wp_bind, wp_get]
  split
  · exact refl_of Owes w
  · next first jobs hjobs =>
    rw [wp_bind]
    unfold ask
    rw [wp_modifyGet]
    have hlt : E.pick w.tick % (first :: jobs).length < w.running.length := by
      rw [hjobs]
      exact Nat.mod_lt _ (Nat.succ_pos _)
    dsimp only
    generalize E.pick w.tick % (first :: jobs).length = i at hlt
    have hjob : w.running[i]? = some (((first :: jobs)[i]?).getD first) := by
      rw [← hjobs, List.getElem?_eq_getElem hlt, Option.getD_some]
    generalize ((first :: jobs)[i]?).getD first = job at hjob
    have hreap : wp (reapJob d i job)
        (fun _ w₁ => Reapable w → ReapableBut job.ruletarget w₁) (fun _ _ => False)
        { w with tick := w.tick + 1 } := by
      have hbut : Reapable w → ∀ r, outstanding w.history r →
          r = job.ruletarget ∨ ∃ j ∈ w.running.eraseIdx i, j.ruletarget = r := by
        intro h r hout
        obtain ⟨j, hj, rfl⟩ := h r hout
        by_cases hne : j.ruletarget = job.ruletarget
        · exact .inl hne
        · exact .inr ⟨j, mem_eraseIdx_of_ne hj hjob fun he => hne (he ▸ rfl), rfl⟩
      unfold reapJob putFiles buildErrorIf buildError
      simp only [wp_bind, wp_modify]
      split <;> exact hbut
    have hnotify : Under Owes (do notifyJob d job; return true : M Bool) :=
      Within.bind (owes_logs.notifyJob _) fun _ => Within.pure _
    rw [wp_bind]
    refine hreap.imp (fun _ w₁ h₁ => ?_) fun _ _ h => h.elim
    by_cases hw : Reapable w
    · rw [wp_bind]
      refine (targetPostBuild_reaps _ _ (h₁ hw)).imp (fun _ w₂ h₂ => ?_) fun _ _ h₂ => ⟨id, fun _ => h₂⟩
      exact (hnotify w₂).imp (fun _ _ ho _ => ho h₂) fun _ _ ho => ⟨id, fun _ => ho.2 h₂⟩
    · exact (wp_trivial _ w₁).imp (fun _ _ _ h => absurd h hw) fun _ _ _ => ⟨id, fun h => absurd h hw⟩

theorem engine_owes : Respected d E (fun _ => True) Owes := by
  refine owes_logs.respected (fun t _ => ?_) (fun _ _ _ => emit_owes (by nofun))
    (fun {r t} _ notify i scripts => ?_) waitForOneJob_owes
  · refine Within.bind Within.get fun w => ?_
    split
    · exact Within.pure _
    · exact Within.bind (Within.modify fun _ => Reapable.of_eq rfl rfl) fun _ => Within.pure _
  · -- the new job is in the table
    intro w
    unfold addNewJob emit
    rw [wp_bind, wp_modify, wp_modify]
    intro h r' hout
    rcases hout with hout | ⟨hout, -⟩
    · refine ⟨_, List.mem_append_right _ List.mem_cons_self, ?_⟩
      injection hout
    · obtain ⟨j, hj, hjr⟩ := h r' hout
      exact ⟨j, List.mem_append_left _ hj, hjr⟩

/-- What is not outstanding has been reaped after it was started. -/
theorem reaped_of_not_outstanding {l later earlier : List Moment} {m : Moment} {r : RuleTarget}
    (h : ¬outstanding l r) (hl : l = later ++ m :: earlier) (hm : m.event = .forked r) :
    ∃ m' ∈ later, m'.Reaps r := by
  induction later generalizing l with
  | nil =>
    subst hl
    exact absurd (.inl hm) h
  | cons m₀ later ih =>
    by_cases hreaps : m₀.Reaps r
    · exact ⟨m₀, List.mem_cons_self, hreaps⟩
    · subst hl
      obtain ⟨m', hm', hr⟩ := ih (fun hout => h (.inr ⟨hout, hreaps⟩)) rfl
      exact ⟨m', List.mem_cons_of_mem _ hm', hr⟩

/-! ## What a moment must not show -/

/-- When the state is restored no job is running, and when a `-do` list begins none of its own
rule. -/
def Moment.Safe (m : Moment) : Prop :=
  (m.event = .reloaded → m.core.running = []) ∧
    ∀ r dyn cmd, m.event = .start r dyn cmd → ∀ j ∈ m.core.running, j.ruletarget ≠ r

/-- This is so at every moment before which no job has failed while another one was running. -/
def Secure (l : List Moment) : Prop :=
  ∀ later m earlier, l = later ++ m :: earlier → AllLone earlier → m.Safe

theorem Secure.nil : Secure [] := fun later m earlier h => by simp at h

theorem AllLone.of_append {l l' : List Moment} (h : AllLone (l' ++ l)) : AllLone l := fun m hm =>
  h m (List.mem_append_right _ hm)

theorem Secure.append {l l' : List Moment} (hl : Secure l)
    (h : AllLone l → ∀ m ∈ l', m.Safe) : Secure (l' ++ l) := by
  induction l' with
  | nil => exact hl
  | cons m l' ih =>
    have hrest := ih fun hlone m' hm' => h hlone m' (List.mem_cons_of_mem _ hm')
    intro later m' earlier he hlone
    cases later with
    | nil =>
      obtain ⟨rfl, rfl⟩ := List.cons.inj he
      exact h hlone.of_append m List.mem_cons_self
    | cons m'' later => exact hrest later m' earlier (List.cons.inj he).2 hlone

/-- A moment at which no `-do` list begins, no job is started and nothing is restored. -/
def Event.inert : Event → Bool
  | .start .. | .forked _ | .reloaded => false
  | _ => true

theorem Moment.safe_of_inert {m : Moment} (h : m.event.inert = true) : m.Safe := by
  constructor
  · intro he
    rw [he] at h
    cases h
  · intro r dyn cmd he
    rw [he] at h
    cases h

/-! ## The operations of `make` -/

/-- While a run goes on: if no job has failed while another one was running, none is left. -/
structure Tidy (s : Make) : Prop where
  secure : Secure s.world.history
  idle : AllLone s.world.history → Idle s.desc s.world
  running : AllLone s.world.history → s.world.running = []
  reapable : AllLone s.world.history → Reapable s.world

/-- When a run has stopped. -/
structure Stopped (s : Make) : Prop where
  secure : Secure s.world.history
  reapable : AllLone s.world.history → Reapable s.world

theorem Tidy.stopped (h : Tidy s) : Stopped s := ⟨h.secure, h.reapable⟩

/-- Nothing has been decided, and only inert moments noted. -/
structure Mute (w w' : World) : Prop where
  unmoved : Unmoved w w'
  past : w'.past = w.past
  trace : ∃ l, w'.trace = l ++ w.trace ∧ ∀ m ∈ l, m.event.inert = true

theorem Idle.unmoved (h : Idle d w) (hw : Unmoved w w') : Idle d w' := fun root =>
  (h root).unmoved hw

theorem Mute.of_eq (hs : w'.rulestatus = w.rulestatus) (ht : w'.targetstatus = w.targetstatus)
    (hc : w'.current = w.current) (hr : w'.running = w.running) (htr : w'.trace = w.trace)
    (hp : w'.past = w.past) : Mute w w' :=
  ⟨.of_eq hs ht hc hr htr, hp, [], htr, fun _ hm => absurd hm List.not_mem_nil⟩

instance : IsPreorder World Unmoved where
  refl _ := .of_eq rfl rfl rfl rfl rfl
  trans _ _ _ h h' := ⟨h'.rulestatus.trans h.rulestatus, h'.targetstatus.trans h.targetstatus,
    h'.current.trans h.current, h'.running.trans h.running,
    h.trace.trans (h.running ▸ h'.trace)⟩

instance : IsPreorder World Mute where
  refl _ := .of_eq rfl rfl rfl rfl rfl rfl
  trans _ _ _ h h' := by
    obtain ⟨hu, hp, l, hl, hi⟩ := h
    obtain ⟨hu', hp', l', hl', hi'⟩ := h'
    refine ⟨trans_of Unmoved hu hu', hp'.trans hp, l' ++ l, by rw [hl', hl, List.append_assoc],
      fun m hm => ?_⟩
    exact (List.mem_append.mp hm).elim (hi' m) (hi m)

theorem Mute.history (h : Mute w w') :
    ∃ l, w'.history = l ++ w.history ∧ ∀ m ∈ l, m.event.inert = true := by
  obtain ⟨l, hl, hi⟩ := h.trace
  refine ⟨l, ?_, hi⟩
  unfold World.history
  rw [hl, h.past, List.append_assoc]

theorem outstanding_append {l l' : List Moment} (h : ∀ m ∈ l', m.event.inert = true)
    {r : RuleTarget} (hout : outstanding (l' ++ l) r) : outstanding l r := by
  induction l' with
  | nil => exact hout
  | cons m l' ih =>
    rw [List.forall_mem_cons] at h
    rcases hout with hm | ⟨hout, -⟩
    · have hinert := h.1
      rw [hm] at hinert
      cases hinert
    · exact ih h.2 hout

theorem Tidy.mute (h : Tidy s) (hw : Mute s.world w) : Tidy { s with world := w } := by
  obtain ⟨l, hl, hinert⟩ := hw.history
  have hlone : AllLone w.history → AllLone s.world.history := fun hlone => by
    rw [hl] at hlone
    exact hlone.of_append
  refine ⟨?_, fun h' => (h.idle (hlone h')).unmoved hw.unmoved,
    fun h' => hw.unmoved.running.trans (h.running (hlone h')), fun h' r hout => ?_⟩
  · change Secure w.history
    rw [hl]
    exact h.secure.append fun _ m hm => Moment.safe_of_inert (hinert m hm)
  · change outstanding w.history r at hout
    rw [hl] at hout
    obtain ⟨j, hj, hjr⟩ := h.reapable (hlone h') r (outstanding_append hinert hout)
    exact ⟨j, by rw [hw.unmoved.running]; exact hj, hjr⟩

theorem engine_mute {α : Type} {m : Desc → M α} (hm : ∀ d, Under Mute (m d)) :
    Preserves Tidy Stopped (engine m) := by
  intro s hs
  rw [wp_engine]
  exact (hm s.desc s.world).imp (fun _ _ h => hs.mute h) fun _ _ h => (hs.mute h.2).stopped

theorem emit_mute {e : Event} (he : e.inert = true) : Under Mute (emit e) := by
  refine Within.modify fun w => ⟨⟨rfl, rfl, rfl, rfl, ?_⟩, rfl, [⟨e, w.toCore⟩], rfl, fun m hm => ?_⟩
  · refine (Extends.refl _ _).cons ?_ le_rfl
    revert he
    cases e <;> simp [Event.inert, Event.started?]
  · rw [List.mem_singleton.mp hm]
    exact he

theorem modify_mute {f : World → World} (hf : ∀ w, Mute w (f w)) :
    Under Mute (modify f : M Unit) := Within.modify hf

theorem elementary_mute : Elementary d Mute where
  ask _ := Within.modifyGet fun _ => .of_eq rfl rfl rfl rfl rfl rfl
  stopped := emit_mute rfl
  error := modify_mute fun _ => .of_eq rfl rfl rfl rfl rfl rfl

theorem doDeleteOrphans_mute (orphans : List Name) : Under Mute (doDeleteOrphans d E orphans) :=
  Within.ite (fun _ => Within.pure _) fun _ => Within.bind (emit_mute rfl) fun _ =>
    Within.bind (elementary_mute (d := d).osCheck E) fun _ =>
      Within.bind (modify_mute fun _ => .of_eq rfl rfl rfl rfl rfl rfl) fun _ =>
        modify_mute fun _ => .of_eq rfl rfl rfl rfl rfl rfl

theorem targetFailed_mute : Under Mute (targetFailed d) :=
  Within.bind Within.get fun _ => Within.bind (elementary_mute.errorIf _) fun _ =>
    Within.ite (fun _ => Within.bind Within.get fun _ => elementary_mute (d := d).exit _ _)
      fun _ => Within.pure _

/-- Building a target, or a `Load` file. -/
theorem build_tidy (t : Name) : Preserves Tidy Stopped (engine fun d => buildSync d E n t) := by
  intro s hs
  have hadds : Under (Adds fun e => e.ofMake = false) (buildSync s.desc E n t) :=
    (engine_adds (fun _ h _ => h) fun _ _ _ _ _ => rfl).buildSync s.desc.closed_all n trivial
  have howes : Under Owes (buildSync s.desc E n t) :=
    engine_owes.buildSync s.desc.closed_all n trivial
  rw [wp_engine]
  by_cases hlone : AllLone s.world.history
  swap
  · -- nothing is said of what follows
    have hany : ∀ w, Adds (fun e => e.ofMake = false) s.world w →
        Tidy { s with world := w } := by
      intro w hw
      obtain ⟨l, hl, -⟩ := hw.history
      have hnot : ¬AllLone w.history := fun h => by
        rw [hl] at h
        exact hlone h.of_append
      refine ⟨?_, fun h => absurd h hnot, fun h => absurd h hnot, fun h => absurd h hnot⟩
      change Secure w.history
      rw [hl]
      exact hs.secure.append fun h => absurd h hlone
    exact (hadds s.world).imp (fun _ w hw => hany w hw) fun _ w hw => (hany w hw.2).stopped
  have hsecure : ∀ w, Adds (fun e => e.ofMake = false) s.world w → Good s.desc w →
      Secure w.history := by
    intro w hw hgood
    obtain ⟨l, hl, hmake⟩ := hw.trace
    have hhist : w.history = l ++ s.world.history := by
      unfold World.history
      rw [hl, hw.past, List.append_assoc]
    rw [hhist]
    refine hs.secure.append fun _ m hm => ⟨fun he => ?_, fun r dyn cmd he => ?_⟩
    · have := hmake m hm
      rw [he] at this
      cases this
    · have hmem : m ∈ w.trace := by
        rw [hl]
        exact List.mem_append_left _ hm
      have hstart : r ∈ starts w.trace := List.mem_filterMap.mpr ⟨m, hmem, by rw [he]; rfl⟩
      obtain ⟨r', hr', rfl⟩ := List.mem_map.mp (hgood.known r hstart)
      exact (hgood.ready m hmem r' dyn cmd he hr').idle
  have hbuild := buildSync_anchors (E := E) n t (hs.idle hlone) (hs.running hlone)
  have hreap := hs.reapable hlone
  refine ((hadds s.world).and ((howes s.world).and hbuild)).imp (fun _ w h => ?_) fun _ w h => ?_
  · obtain ⟨hw, ho, hidle, hnone⟩ := h
    refine ⟨hsecure w hw hidle.good, fun _ => hidle, fun h => hnone fun m hm => ?_, fun _ => ho hreap⟩
    exact h m (List.mem_append_left _ hm)
  · obtain ⟨hw, ho, hgood⟩ := h
    exact ⟨hsecure w hw.2 hgood, fun _ => ho.2 hreap⟩

/-- Statuses are forgotten when no job is running. -/
theorem resetStatuses_tidy : Preserves Tidy Stopped (engine fun d => resetStatuses d) := by
  intro s hs
  rw [wp_engine]
  unfold resetStatuses
  rw [wp_bind, wp_get, wp_ite]
  refine ⟨fun _ => ⟨hs.secure, fun hlone => ?_, hs.running, hs.reapable⟩, fun _ => hs⟩
  have hidle := hs.idle hlone ""
  have hnone := hs.running hlone
  refine .cleared (fun r hr => ?_) (fun r => ?_) hidle.targetstatus hidle.current hnone rfl
  · show (if s.desc.isRule r.target then Status.unknown else _) = _
    rw [if_pos (Desc.isRule_iff.mpr ⟨r, hr, rfl⟩)]
  · show (if s.desc.isRule r then Status.unknown else s.world.rulestatus r) ≠ .checking ∧
      (if s.desc.isRule r then Status.unknown else s.world.rulestatus r) ≠ .running
    split
    · exact ⟨nofun, nofun⟩
    · refine ⟨fun h => absurd (hidle.checking r h) List.not_mem_nil, fun h => ?_⟩
      obtain ⟨j, hj, -⟩ := hidle.running_job r h
      rw [hnone] at hj
      exact absurd hj List.not_mem_nil

/-- The table of jobs is empty when it is overwritten. -/
theorem reload_tidy : Preserves Tidy Stopped (reload P) := by
  intro s hs
  let m : Moment := ⟨.reloaded, s.world.toCore⟩
  have hsecure : Secure ([m] ++ s.world.history) :=
    hs.secure.append fun hlone m' hm' => by
      obtain rfl := List.mem_singleton.mp hm'
      exact ⟨fun _ => hs.running hlone, fun _ _ _ he => nomatch he⟩
  have hlone : AllLone ([m] ++ s.world.history) → AllLone s.world.history := AllLone.of_append
  -- nothing is outstanding, so nothing is lost
  have hreap : AllLone (m :: s.world.history) → ∀ r, ¬outstanding (m :: s.world.history) r := by
    rintro h r (he | ⟨hout, -⟩)
    · cases he
    · obtain ⟨j, hj, -⟩ := hs.reapable (hlone h) r hout
      rw [hs.running (hlone h)] at hj
      exact absurd hj List.not_mem_nil
  have hrestored : ∀ (d : Desc) (w : World), w.history = m :: s.world.history →
      w.rulestatus = (fun _ => .unknown) → w.targetstatus = (fun _ => none) → w.current = [] →
      w.running = [] → w.trace = [] → Tidy ⟨d, w⟩ := by
    intro d w hh hrs hts hcur hrun htr
    refine ⟨?_, fun _ => ?_, fun _ => hrun, fun h r hout => ?_⟩
    · rw [hh]
      exact hsecure
    · refine .cleared (fun r _ => by rw [hrs]) (fun r => ?_) (fun t st h => ?_) hcur hrun htr
      · rw [hrs]
        exact ⟨nofun, nofun⟩
      · rw [hts] at h
        cases h
    · rw [hh] at h hout
      exact absurd hout (hreap h r)
  unfold reload loadBuildDescription
  rw [wp_bind, wp_engine]
  change wp _ _ _ (⟨s.desc, (s.note .reloaded).world.restore⟩ : Make)
  rw [wp_bind, wp_get, wp_bind, wp_engine]
  unfold ask
  rw [wp_modifyGet]
  dsimp only
  cases P.parse _ _ with
  | none =>
    refine engine_mute (m := fun _ => tclError) (fun d => elementary_mute.tclError (d := d)) _ ?_
    exact hrestored _ _ rfl rfl rfl rfl rfl rfl
  | some d => exact hrestored _ _ rfl rfl rfl rfl rfl rfl

theorem make_tidy : Maintained P E n Tidy Stopped where
  stop _ := Tidy.stopped
  ignoreforce _ := engine_mute fun _ => modify_mute fun _ => .of_eq rfl rfl rfl rfl rfl rfl
  addtargets := engine_mute fun _ => modify_mute fun _ => .of_eq rfl rfl rfl rfl rfl rfl
  cleaning := engine_mute fun _ => modify_mute fun _ => .of_eq rfl rfl rfl rfl rfl rfl
  loads := engine_mute fun _ => emit_mute rfl
  build := build_tidy
  loaded _ _ := engine_mute fun _ => emit_mute rfl
  fatal why := engine_mute fun _ => elementary_mute.fatal why
  reload := reload_tidy
  orphans _ := engine_mute fun _ => doDeleteOrphans_mute _
  request _ _ := engine_mute fun _ => emit_mute rfl
  failed := engine_mute fun _ => targetFailed_mute
  reset := resetStatuses_tidy

/-! ## Whole runs -/

/-- The table of jobs has not changed. -/
def SameJobs (w w' : World) : Prop := w'.running = w.running

instance : IsPreorder World SameJobs where
  refl _ := rfl
  trans _ _ _ h h' := Eq.trans h' h

theorem sameJobs_logs : Logs SameJobs := ⟨fun h => h.running, fun _ _ => Within.modify fun _ => rfl⟩

/-- Whether it returns or stops, `wait-for-one-job` takes a job out of the table. -/
theorem waitForOneJob_shortens (h : w.running ≠ []) :
    (final (waitForOneJob d E) w).running.length < w.running.length := by
  refine wp_final (P := fun w' : World => w'.running.length < w.running.length) ?_
  unfold waitForOneJob
  rw [wp_bind, wp_get]
  split
  · contradiction
  · next first jobs hjobs =>
    have hlt : E.pick w.tick % (first :: jobs).length < w.running.length := by
      rw [hjobs]
      exact Nat.mod_lt _ (Nat.succ_pos _)
    rw [wp_bind]
    unfold ask
    rw [wp_modifyGet]
    dsimp only
    generalize E.pick w.tick % (first :: jobs).length = i at hlt
    rw [wp_bind]
    refine (reapJob_spec i _ _).imp (fun _ w₁ hw₁ => ?_) fun _ _ h => h.elim
    have hrun : w₁.running = w.running.eraseIdx i := hw₁.2.2.2.1
    have hshort : w₁.running.length < w.running.length := by
      rw [hrun, List.length_eraseIdx_of_lt hlt]
      omega
    have hrest : ∀ job : Job, Under SameJobs (do
        targetPostBuild d E job.ruletarget (if job.ok then 0 else 1)
        notifyJob d job
        return true : M Bool) := fun job =>
      Within.bind (sameJobs_logs.targetPostBuild _ _) fun _ =>
        Within.bind (sameJobs_logs.notifyJob _) fun _ => Within.pure _
    refine (hrest _ w₁).imp (fun _ w₂ hw₂ => ?_) fun _ w₂ hw₂ => ?_
    · rwa [show w₂.running = w₁.running from hw₂]
    · rwa [show w₂.running = w₁.running from hw₂.2]

/-- When tmake ends no job is left. -/
theorem atExit_running : (atExit d E w).running = [] := by
  have hdrain : ∀ n w, w.running.length ≤ n → (drain d E n w).running = [] := by
    intro n
    induction n with
    | zero =>
      intro w hw
      exact List.eq_nil_of_length_eq_zero (Nat.le_zero.mp hw)
    | succ n ih =>
      intro w hw
      unfold drain
      split
      · assumption
      · next hne =>
        have := waitForOneJob_shortens (d := d) (E := E) hne
        exact ih _ (by omega)
  exact hdrain _ w le_rfl

/-- **No job is lost.**  In every run, up to the first job that fails while another one is
running: the table of jobs is empty whenever the state is restored for a reload, and no `-do`
list begins while a job of its rule is running.  If there is no such failure, every job is reaped
before the run ends. -/
theorem no_job_lost (P : Project) (E : Env) (n k : Nat) (targets : List Name) (d : Desc)
    (tick : Nat) (D : Disk) :
    let s := runMake P E n k targets d tick D
    (∀ later m earlier, s.world.history = later ++ m :: earlier → AllLone earlier → m.Safe) ∧
    s.world.running = [] ∧
    (AllLone s.world.history → ∀ later m earlier r, s.world.history = later ++ m :: earlier →
      m.event = .forked r → ∃ m' ∈ later, m'.Reaps r) := by
  intro s
  let s₀ := Make.start d tick D
  have hs₀ : Tidy s₀ := ⟨.nil, fun _ => .cleared (fun _ _ => rfl) (fun _ => ⟨nofun, nofun⟩) nofun rfl rfl rfl,
    fun _ => rfl, fun _ _ h => h.elim⟩
  let s₁ := final (makeLoop P E n k targets) s₀
  obtain ⟨hsecure, hreap⟩ : Stopped s₁ := make_tidy.final k targets hs₀
  have hnone : s.world.running = [] := atExit_running
  -- while tmake waits for its jobs, nothing is begun
  have hwait : Respected s₁.desc E (fun _ => False)
      (Adds fun e => e.ofMake = false ∧ e.started? = none) :=
    engine_adds (fun _ h h' => ⟨h, h'⟩) fun _ _ _ _ h => h.1.elim
  obtain ⟨l, hl, hinner⟩ := (hwait.atExit s₁.world).history
  have hl : s.world.history = l ++ s₁.world.history := hl
  have howes : Owes s₁.world s.world := engine_owes.atExit s₁.world
  refine ⟨?_, hnone, fun hlone later m earlier r he hm => ?_⟩
  · rw [hl]
    refine hsecure.append fun _ m hm => ⟨fun he => ?_, fun r dyn cmd he => ?_⟩
    · have := (hinner m hm).1
      rw [he] at this
      cases this
    · have := (hinner m hm).2
      rw [he] at this
      cases this
  · refine reaped_of_not_outstanding (fun hout => ?_) he hm
    rw [hl] at hlone
    obtain ⟨j, hj, -⟩ := howes (hreap hlone.of_append) r hout
    rw [hnone] at hj
    exact absurd hj List.not_mem_nil

/-! A project with two `Load` files, the second of which needs two jobs. -/

/-- `Load l1; Load l2; target l1 -do touch; target l2 -depends {a b} -do touch; target a -do {run
make-a}; target b -do {run make-b}`, with two jobs. -/
def loadsTwo : Desc where
  rules := [{ target := ["l1"], doList := [⟨[.lit "touch"]⟩] },
    { target := ["l2"], depends := ["a", "b"], doList := [⟨[.lit "touch"]⟩] },
    { target := ["a"], doList := [⟨[.lit "run make-a"]⟩] },
    { target := ["b"], doList := [⟨[.lit "run make-b"]⟩] }]
  disjoint := by decide
  maxjobs := 2
  projfiles := [("l1", false), ("l2", false)]

/-- `make-a` and `make-b` run in the background, and the former ends first, perhaps with an
error. -/
def makesBoth (fails : Bool) : Env where
  exec tick r part _ :=
    match part with
    | .script _ =>
      if r = ["a"] ∧ fails then { run := true, rc := 3, reported := true }
      else
        { run := r ∈ [["a"], ["b"]]
          puts := r.map fun f => (fileJoin "objdir" f, some (.file (tick + 1) f)) }
    | _ => {}
  pick _ := 0

def Event.restores : Event → Bool
  | .reloaded => true
  | _ => false

def Event.notifies : Event → Bool
  | .notified _ _ => true
  | _ => false

theorem allLone_of_notifies {l : List Moment} (h : (l.all fun m => !m.event.notifies) = true) :
    AllLone l := by
  intro m hm r n he
  have hnot := List.all_eq_true.mp h m hm
  rw [he] at hnot
  cases hnot

/-- Both jobs end well: they are reaped before the project is parsed again. -/
theorem no_job_lost_both :
    let hist := (runMake ⟨fun _ _ => some loadsTwo, 0⟩ (makesBoth false) 9 1 ["a"] loadsTwo 1
      ⟨fun _ => none, none⟩).world.history
    (∃ m ∈ hist, m.event = .reloaded) ∧ ∀ m ∈ hist, m.Safe := by
  intro hist
  have hlone : AllLone hist := allLone_of_notifies (by decide +kernel)
  have hreload : (hist.any fun m => m.event.restores) = true := by decide +kernel
  refine ⟨?_, fun m hm => ?_⟩
  · obtain ⟨m, hm, he⟩ := List.any_eq_true.mp hreload
    refine ⟨m, hm, ?_⟩
    revert he
    cases m.event <;> simp [Event.restores]
  · obtain ⟨later, earlier, hsplit⟩ := List.append_of_mem hm
    have hearlier : AllLone earlier := fun m' hm' =>
      hlone m' (hsplit ▸ List.mem_append_right _ (List.mem_cons_of_mem _ hm'))
    exact (no_job_lost ⟨fun _ _ => some loadsTwo, 0⟩ (makesBoth false) 9 1 ["a"] loadsTwo 1
      ⟨fun _ => none, none⟩).1 later m earlier hsplit hearlier

/-- `a` fails while the job of `b` is running: the state is restored with that job in the table. -/
theorem no_job_lost_sibling :
    ¬ ∀ (P : Project) (E : Env) (n k : Nat) (targets : List Name) (d : Desc) (tick : Nat) (D : Disk),
      P.parse tick D.fs = some d →
      ∀ m ∈ (runMake P E n k targets { d with norun := P.norun } (tick + 1) D).world.history,
        m.event = .reloaded → m.core.running = [] := by
  intro h
  let hist := (runMake ⟨fun _ _ => some loadsTwo, 0⟩ (makesBoth true) 5 1 ["a"] loadsTwo 1
    ⟨fun _ => none, none⟩).world.history
  have hfound : (hist.any fun m => m.event.restores && !m.core.running.isEmpty) = true := by
    decide +kernel
  obtain ⟨m, hm, hfound⟩ := List.any_eq_true.mp hfound
  obtain ⟨hreload, hrunning⟩ := Bool.and_eq_true_iff.mp hfound
  have he : m.event = .reloaded := by
    revert hreload
    cases m.event <;> simp [Event.restores]
  have hnone : m.core.running = [] :=
    h ⟨fun _ _ => some loadsTwo, 0⟩ (makesBoth true) 5 1 ["a"] loadsTwo 0 ⟨fun _ => none, none⟩ rfl m hm he
  rw [hnone] at hrunning
  cases hrunning

end Tmake
