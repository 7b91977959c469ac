import TmakeProof.Invariant

/-! # The scheduler is safe

Every step of the machine preserves the control invariant, whatever the
environment answers (`next_inv`).
-/
namespace Tmake
open Weakest Machine

variable {d : Desc} {E : Env} {root : Name} {p : Point} {w w' : World}

/-! ## Small facts about the steps -/

/-- `build-deps` lets a rule go on only if all its dependencies are done. -/
theorem depsStatus_cases (phony : Bool) (rets : List (Name × Status)) {st : Status}
    (hst : st.done = true) (hrets : ∀ x ∈ rets, x.2.proper = true) :
    depsStatus d phony rets st = .waiting ∨ depsStatus d phony rets st = .failed ∨
      (depsStatus d phony rets st).done = true ∧ ∀ x ∈ rets, x.2.done = true := by
  unfold depsStatus
  dsimp only
  split
  · exact Or.inl rfl
  split
  · exact Or.inr (Or.inl rfl)
  next hwait hfail =>
  have hall : ∀ x ∈ rets, x.2.done = true := by
    intro x hx
    have hmem : x.2 ∈ rets.map (·.2) := List.mem_map_of_mem hx
    have := hrets x hx
    rcases x with ⟨t, _ | _ | _ | _ | _ | _ | _⟩
    · cases this
    · cases this
    · exact absurd (Or.inr hmem) hwait
    · exact absurd (Or.inl hmem) hwait
    · rfl
    · rfl
    · exact absurd hmem hfail
  split
  · exact Or.inr (Or.inr ⟨rfl, hall⟩)
  · exact Or.inr (Or.inr ⟨hst, hall⟩)

/-- A check leaves a status alone or turns `uptodate` into `built`. -/
def Outdates (st st' : Status) : Prop := st' = st ∨ st = .uptodate ∧ st' = .built

theorem Outdates.refl (st : Status) : Outdates st st := Or.inl rfl

theorem Outdates.trans {a b c : Status} (h : Outdates a b) (h' : Outdates b c) : Outdates a c := by
  rcases h with rfl | ⟨rfl, rfl⟩
  · exact h'
  · rcases h' with rfl | ⟨h', -⟩
    · exact Or.inr ⟨rfl, rfl⟩
    · cases h'

theorem Outdates.done {a b : Status} (h : Outdates a b) (ha : a.done = true) : b.done = true := by
  rcases h with rfl | ⟨rfl, rfl⟩
  · exact ha
  · rfl

theorem checkDyndeps_outdates (r : Rule) (dyn : List Name) (w : World) (st : Status) :
    Outdates st (checkDyndeps r dyn w st) := by
  unfold checkDyndeps
  split
  · next h =>
    obtain rfl : st = .uptodate := by simp_all
    split
    · split
      · exact .refl _
      · exact Or.inr ⟨rfl, rfl⟩
    · split
      · exact Or.inr ⟨rfl, rfl⟩
      · exact .refl _
  · exact .refl _

theorem checkHash_outdates (r : Rule) (depends : List Name) (st : Status) (w : World) :
    wp (checkHash d E r depends st) (fun st' _ => Outdates st st') (fun _ _ => True) w := by
  unfold checkHash
  rw [wp_ite]
  refine ⟨fun h => wp_bind_last fun b _ => ?_, fun _ => ?_⟩
  · obtain rfl : st = .uptodate := by simp_all
    rw [wp_ite]
    exact ⟨fun _ => Or.inr ⟨rfl, rfl⟩, fun _ => .refl _⟩
  · rw [wp_ite]
    exact ⟨fun _ => wp_bind_last fun _ _ => wp_bind_last fun _ _ => .refl _, fun _ => .refl _⟩

theorem checkOwner_outdates (r : Rule) (target : Name) (w : World) (st : Status) :
    Outdates st (checkOwner r target w st) := by
  unfold checkOwner
  split
  · next h =>
    obtain rfl : st = .uptodate := by simp_all
    split
    · split
      · exact Or.inr ⟨rfl, rfl⟩
      · exact .refl _
    · exact .refl _
  · exact .refl _

theorem checkCommands_outdates (r : Rule) (vardict : List (String × String)) (st : Status)
    (w : World) :
    wp (checkCommands d r vardict st) (fun st' _ => Outdates st st') (fun _ _ => True) w := by
  unfold checkCommands
  rw [wp_ite]
  refine ⟨fun h => wp_bind_last fun w _ => ?_, fun _ => .refl _⟩
  obtain rfl : st = .uptodate := by simp_all
  split
  · exact Or.inr ⟨rfl, rfl⟩
  · refine wp_bind_last fun cmd _ => ?_
    rw [wp_pure]
    split
    · exact Or.inr ⟨rfl, rfl⟩
    · exact .refl _

theorem checkExec_outdates (r : Rule) (w : World) (st : Status) :
    Outdates st (checkExec d E r w st) := by
  unfold checkExec
  split
  · next h => exact Or.inr ⟨by simp_all, rfl⟩
  · split
    · next h => exact Or.inr ⟨by simp_all, rfl⟩
    · exact .refl _

theorem checkRule_outdates (r : Rule) (target : Name) (vardict : List (String × String))
    (dyn : List Name) (st : Status) (w : World) :
    wp (checkRule d E r target vardict dyn st) (fun st' _ => Outdates st st')
      (fun _ _ => True) w := by
  refine wp_bind_last fun w1 _ => wp_bind_last fun _ w2 => ?_
  have h1 := checkDyndeps_outdates r dyn w1 st
  rw [wp_bind]
  refine (checkHash_outdates r (r.depends ++ dyn) _ w2).imp (fun st2 w3 h2 => ?_)
    fun _ _ _ => trivial
  refine wp_bind_last fun w4 t => ?_
  have h3 := checkOwner_outdates r target w4 st2
  rw [wp_bind]
  refine (checkCommands_outdates r vardict _ t).imp (fun st4 _ h4 => ?_) fun _ _ _ => trivial
  refine wp_bind_last fun w5 _ => ?_
  exact (((h1.trans h2).trans h3).trans h4).trans (checkExec_outdates r w5 st4)

theorem dryRun_status (r : Rule) (vardict : List (String × String)) (w : World) :
    wp (dryRun d r vardict) (fun st _ => st = .built) (fun _ _ => True) w := by
  unfold dryRun
  rw [wp_ite]
  exact ⟨fun _ => wp_bind_last fun _ _ => rfl, fun _ => rfl⟩

theorem forkNotify_some {r : Rule} {notify : Option RuleTarget} {n : RuleTarget}
    (h : forkNotify d r notify = some n) : 1 < d.maxjobs ∧ notify = some n := by
  unfold forkNotify at h
  split at h
  · next hc => exact ⟨by simp at hc; exact hc.1, h⟩
  · cases h

/-! ## Ending a call -/

section
variable {O : RuleTarget → Prop} {r : RuleTarget} {st : Status} {current : List Name}
  {js : List Job} {w w1 w2 : World}

theorem Quiet.sets (h : Quiet d E (· = r) O w w1) :
    Sets w w1 r (w1.rulestatus r) w.current [] := by
  refine ⟨funext fun s => ?_, h.targetstatus, h.current, by rw [h.running, List.append_nil],
    h.extends (by rw [h.running])⟩
  by_cases hs : s = r
  · rw [hs, Function.update_self]
  · rw [Function.update_of_ne hs, h.rulestatus s hs]

theorem Sets.quiet (hs : Sets w w1 r st current js) (h : Quiet d E (· = r) O w1 w2) :
    Sets w w2 r (w2.rulestatus r) current js := by
  refine ⟨funext fun s => ?_, h.targetstatus.trans hs.targetstatus, h.current.trans hs.current,
    h.running.trans hs.running, ?_⟩
  · by_cases hsr : s = r
    · rw [hsr, Function.update_self]
    · rw [Function.update_of_ne hsr, h.rulestatus s hsr, hs.other hsr]
  · rw [h.running]
    exact hs.trace.trans (h.extends le_rfl)

theorem addNewJob_sets (r : Rule) (notify : RuleTarget) (i : Nat) (scripts : List Script)
    (w : World) :
    wp (addNewJob E r notify i scripts)
      (fun _ w' => ∃ job, job.ruletarget = r.target ∧ job.notifytarget = notify ∧
        Sets w w' r.target .running w.current [job]) (fun _ _ => False) w := by
  unfold addNewJob emit
  rw [wp_bind, wp_modify, wp_modify]
  refine ⟨_, rfl, rfl, rfl, rfl, rfl, rfl, ?_⟩
  exact (Extends.refl _ _).cons rfl le_rfl

theorem leave_sets {r : Rule} (target : Name) (dyn : List Name) (st' : Status)
    (hs : Sets w w1 r.target st current js) :
    wp (leave r target dyn st')
      (fun ret w' => ret = st' ∧ Sets w w' r.target st' current.tail js) (fun _ _ => False) w1 := by
  unfold leave emit
  simp only [wp_bind, wp_modify, wp_pure, true_and]
  refine ⟨?_, hs.targetstatus, congrArg List.tail hs.current, hs.running, ?_⟩
  · rw [hs.rulestatus, Function.update_idem]
  · exact (hs.trace.cons rfl le_rfl).cons rfl le_rfl

end

/-- What the rule of the innermost call must satisfy to be left with the status `st`. -/
structure Leavable (d : Desc) (w : World) (f : Frame) (st : Status) (js : List Job) : Prop where
  ready : st = .waiting ∨ st = .failed ∨ ∃ dyn, AllDone d w f.rule dyn
  proper : st.proper = true
  jobs : js = [] ∧ st ≠ .running ∨ st = .running ∧ ∃ job notify, js = [job] ∧
    job.ruletarget = f.rule.target ∧ job.notifytarget = notify ∧ f.notify = some notify ∧
    w.running.length < d.maxjobs
  begun : f.phase.begun = true → st ∈ [Status.running, .built, .failed]

section
variable {f : Frame} {st st1 : Status} {js : List Job} {dyn : List Name} {w w1 : World}

theorem leave_inv (h : Inv d root (.rule f :: p) w)
    (hs : Sets w w1 f.rule.target st1 w.current js) (hl : Leavable d w f st js) :
    wp (leave f.rule f.target dyn st) (fun st' => Inv d root (.ret f.target st' :: p))
      (fun _ _ => False) w1 := by
  refine (leave_sets f.target dyn st hs).imp (fun st' w' hst => ?_) fun _ _ h => h
  obtain ⟨rfl, hs'⟩ := hst
  exact h.leave hs' hl.proper hl.ready hl.jobs hl.begun

theorem close_inv (E : Env) (h : Inv d root (.rule f :: p) w)
    (hs : Sets w w1 f.rule.target st1 w.current js) (hl : Leavable d w f st js) :
    wp (close d f dyn st p) (Inv d root) (fun _ => Good d) w1 := by
  have hb : w1.running.length ≤ d.maxjobs := by
    rw [hs.running, List.length_append]
    rcases hl.jobs with ⟨rfl, -⟩ | ⟨-, job, notify, rfl, -, -, -, hlt⟩
    · exact h.good.slots
    · exact hlt
  unfold close
  rw [wp_bind]
  refine (stopIf_quiet (d := d) (E := E) (S := (· = f.rule.target)) (O := fun _ => False)
    (d.quickstop || f.rule.fatal) .fatal nofun w1).imp (fun _ w2 hq => ?_)
    fun _ w2 hq => hq.2.calm.good (hs.good hb h.good)
  rw [wp_bind]
  exact (leave_inv h (hs.quiet hq) hl).imp (fun _ _ h => h) fun _ _ h => h.elim

/-- An innermost call whose rule has a job in the background returns. -/
theorem fork_inv {notify : RuleTarget} {i : Nat} {todo : List Script}
    (h : Inv d root (.rule f :: p) w) (hall : AllDone d w f.rule dyn) (hn : f.notify = some notify)
    (hlt : w.running.length < d.maxjobs) :
    wp (do addNewJob E f.rule notify i todo; close d f dyn .running p) (Inv d root)
      (fun _ => Good d) w := by
  rw [wp_bind]
  refine (addNewJob_sets f.rule notify i todo w).imp (fun _ w1 h1 => ?_) fun _ _ h => h.elim
  obtain ⟨job, hjr, hjn, hs⟩ := h1
  exact close_inv E h hs
    { ready := Or.inr (Or.inr ⟨dyn, hall⟩)
      proper := rfl
      jobs := Or.inr ⟨rfl, job, notify, rfl, hjr, hjn, hn, hlt⟩
      begun := fun _ => List.mem_cons_self }

end

/-! ## The steps -/

/-- What is around the innermost call of `build` for a rule. -/
theorem Inv.calledFrom {f : Frame} (h : Inv d root (.rule f :: p) w) :
    CalledFrom root f.target f.notify p := by
  cases h.shape with
  | rule h => exact h

theorem Inv.phaseOK {f : Frame} {phase : Phase} (h : Inv d root (.rule f :: p) w)
    (hphase : f.phase = phase) : PhaseOK d w f.rule f.status phase :=
  hphase ▸ (h.frameOK f List.mem_cons_self).2

/-- `h.goto` for a call on top of the stack that does not wait for a slot. -/
theorem Inv.advance {f g : Frame} (h : Inv d root (.rule f :: p) w)
    (hg : g.rule = f.rule ∧ g.target = f.target ∧ g.notify = f.notify)
    (hb : f.phase.begun = true → g.phase.begun = true) (hok : PhaseOK d w g.rule g.status g.phase)
    (hslot : ∀ dyn notify n i todo, g.phase = .slots dyn notify n i todo →
      w.running.length ≤ n ∧ 1 < d.maxjobs ∧ g.notify = some notify) :
    Inv d root (.rule g :: p) w :=
  Inv.goto (a := []) h rfl hg h.calledFrom hb hok hslot

theorem begin_inv (E : Env) {t : Name} {n : Option RuleTarget} (h : Inv d root (.call t n :: p) w) :
    wp (begin d t n p) (Inv d root) (fun _ => Good d) w := by
  unfold begin
  cases hr : d.ruleFor t with
  | none =>
    rw [wp_bind]
    exact (h.source hr).imp (fun _ _ h => h) fun _ _ h => h.elim
  | some r =>
    have hcalled : CalledFrom root t n p := by
      cases h.shape with
      | call h => exact h
    -- a rule that is settled, or on its way
    have hsettled : ∀ st, w.rulestatus r.target = st → st.proper = true →
        wp (do emit (.returned t st); return .ret t st :: p) (Inv d root) (fun _ => Good d) w := by
      intro st hst hproper
      rw [wp_bind]
      refine (emit_quiet (d := d) (E := E) (S := fun _ => False) (O := fun _ => False) rfl
        (by rintro _ ⟨⟩) w).imp (fun _ w' hq => ?_) fun _ _ hq => hq.2.calm.good h.good
      have h' := h.quiet hq
      have hret : Returned d w' t st := ⟨hproper, fun hd => (Desc.done_rule hr).mpr (by
        rw [hq.rulestatus _ id, hst]
        exact hd)⟩
      exact h'.replace (.ret hcalled) rfl (fun f hf hb => ⟨f, hf, rfl, hb⟩) h'.frameOK
        (fun _ _ _ _ _ _ _ he => absurd he (by simp))
        (fun t' st' k he => by
          obtain ⟨⟨rfl, rfl⟩, rfl⟩ : (t = t' ∧ st = st') ∧ p = k := by simpa using he
          exact hret)
    have henter : w.rulestatus r.target = .unknown ∨ w.rulestatus r.target = .waiting →
        wp (do enter r t
               let w ← get
               return .rule ⟨r, t, n, initialStatus d r w.fs, .deps none [] r.depends⟩ :: p)
          (Inv d root) (fun _ => Good d) w := by
      intro hst
      unfold Tmake.enter
      simp only [wp_bind, wp_modify, wp_get, wp_pure]
      refine h.enter hr hst ?_ ⟨rfl, rfl, rfl, (List.append_nil _).symm, .refl _ _⟩
      unfold initialStatus
      split <;> rfl
    rw [wp_bind, wp_get]
    split
    · rw [wp_bind]
      exact (buildFatalError_stops .recursive w).imp (fun _ _ h => h.elim)
        fun _ _ hc => hc.2.good h.good
    · exact henter (Or.inl ‹_›)
    · exact henter (Or.inr ‹_›)
    · next h1 h2 h3 =>
      refine hsettled _ rfl ?_
      revert h1 h2 h3
      cases w.rulestatus r.target <;> simp [Status.proper]

/-- `build` has returned to `build-sync`. -/
theorem resync_inv {t u : Name} {st : Status} (h : Inv d root (.ret t st :: .sync u :: p) w) :
    wp (resync d E st u p) (Inv d root) (fun _ => Good d) w := by
  have hnoslot : ∀ {q : Point}, (∀ f k, q ≠ .rule f :: k) → ∀ f k dyn notify n i todo,
      q = .rule f :: k → f.phase = .slots dyn notify n i todo →
      w.running.length ≤ n ∧ 1 < d.maxjobs ∧ f.notify = some notify :=
    fun hq f k _ _ _ _ _ he => absurd he (hq f k)
  obtain ⟨rfl, hcalled⟩ : t = u ∧ CalledFrom root u none (.sync u :: p) := by
    cases h.shape with
    | ret h => cases h with
      | top => exact ⟨rfl, .top⟩
      | look hphase hbelow => exact ⟨rfl, .look hphase hbelow⟩
  unfold resync
  rw [wp_ite]
  refine ⟨fun _ => ?_, fun _ => ?_⟩
  · rw [wp_bind]
    refine waitForOneJob_spec w |>.imp (fun _ w' hw => ?_) fun _ _ hc => hc.2.good h.good
    have h' : Inv d root (.ret t st :: .sync t :: p) w' := by
      rcases hw with ⟨-, rfl⟩ | hw
      · exact h
      · exact h.wait hw
    exact h'.replace (.call hcalled) rfl (fun f hf hb => ⟨f, hf, rfl, hb⟩) h'.frameOK
      (fun _ _ _ _ _ _ _ he => absurd he (by simp)) fun _ _ _ he => absurd he (by simp)
  · have hshape : Shape root (.ret t st :: p) := by
      cases hcalled with
      | top => exact .synced
      | look hphase hbelow => exact .found hphase hbelow
    exact h.replace hshape rfl (fun f hf hb => ⟨f, hf, rfl, hb⟩) h.frameOK
      (hnoslot fun _ _ => by simp) fun t' st' k he => by
        obtain ⟨⟨rfl, rfl⟩, rfl⟩ : (t = t' ∧ st = st') ∧ p = k := by simpa using he
        exact h.returned t st _ rfl

theorem Found.append {r : Rule} {found inputs : List Name} {t : Name}
    (h : Found d w r found inputs) (hneeds : r.NeedsName t)
    (ht : d.isTarget t = true → d.Done w.toCore t) : Found d w r (found ++ [t]) inputs := by
  refine ⟨fun t' ht' => ?_, fun t' ht' => (h.named t' ht').imp (List.mem_append_left _) id,
    h.left, fun t' ht' => ?_⟩
  · rcases List.mem_append.mp ht' with ht' | ht'
    · exact h.done t' ht'
    · exact Or.inr (List.mem_singleton.mp ht' ▸ ht)
  · rcases List.mem_append.mp ht' with ht' | ht'
    · exact h.needs t' ht'
    · exact List.mem_singleton.mp ht' ▸ hneeds

/-- The answer to a look-up is positive only if its target, if it is one, is done. -/
theorem lookupFile_answer (st : Status) (f : Name) (w : World) :
    wp (lookupFile d (fun _ => return st) f)
      (fun answer _ => answer = true → d.isTarget f = true → st.done = true)
      (fun _ _ => True) w := by
  unfold lookupFile
  rw [wp_ite]
  refine ⟨fun _ => ?_, fun hf => wp_bind_last fun _ _ _ ht => absurd ht hf⟩
  rw [wp_bind, wp_pure, wp_ite]
  refine ⟨fun hst => wp_bind_last fun _ _ _ _ => ?_, fun _ => wp_bind_last fun _ _ h => nomatch h⟩
  rcases Bool.or_eq_true_iff.mp hst with hst | hst <;> rw [of_decide_eq_true hst] <;> rfl

/-- The scan of a rule goes on with the answer to a look-up. -/
theorem resumeScan_inv {f : Frame} {a : Point} {t : Name} {found : List Name}
    {keep : FS → Bool} {k : Bool → Scan} {inputs : List Name} {answer : Bool}
    (h : Inv d root (a ++ .rule f :: p) w) (ha : frames a = [])
    (hphase : f.phase = .scan found (.lookup t keep k) inputs)
    (hbelow : CalledFrom root f.target f.notify p)
    (hans : answer = true → d.isTarget t = true → d.Done w.toCore t) :
    wp (resumeScan f found t keep k inputs answer p) (Inv d root) (fun _ => Good d) w := by
  have hmem : f ∈ frames (a ++ .rule f :: p) := by
    unfold frames
    rw [List.filterMap_append]
    exact List.mem_append_right _ List.mem_cons_self
  obtain ⟨-, hok⟩ := h.frameOK f hmem
  rw [hphase] at hok
  unfold resumeScan
  rw [wp_bind, wp_get, wp_pure]
  refine Inv.goto h ha ⟨rfl, rfl, rfl⟩ hbelow (fun hb => by rw [hphase] at hb; cases hb) ?_
    fun _ _ _ _ _ he => by cases he
  obtain ⟨hst, hdone, hfound, hlooks⟩ := hok
  refine ⟨hst, hdone, ?_, fun t' ht' => hlooks t' (.later answer ht')⟩
  split
  · next hk => exact hfound.append (hlooks t .here) (hans (Bool.and_eq_true_iff.mp hk).1)
  · exact hfound

/-- A call has returned to a rule. -/
theorem resume_inv {f : Frame} {t : Name} {st : Status}
    (h : Inv d root (.ret t st :: .rule f :: p) w) :
    wp (resume d E st f p f.phase) (Inv d root) (fun _ => Good d) w := by
  obtain ⟨hf, hok⟩ := h.frameOK f List.mem_cons_self
  have hret := h.returned t st _ rfl
  cases h.shape with
  | ret hcalled =>
    cases hcalled with
    | @dep _ _ _ dyn done todo hphase hbelow =>
      rw [hphase] at hok ⊢
      unfold resume
      rw [wp_bind]
      refine (depFailed_quiet (S := fun _ => False) (O := fun _ => False) st w).imp
        (fun _ w' hq => ?_) fun _ _ hq => hq.2.calm.good h.good
      have h' := h.quiet hq
      obtain ⟨-, hok⟩ := h'.frameOK f List.mem_cons_self
      have hret := h'.returned t st _ rfl
      have hnew : ∀ x ∈ done ++ [(t, st)], (x ∈ done → Returned d w' x.1 x.2) →
          Returned d w' x.1 x.2 := fun x hx hold =>
        (List.mem_append.mp hx).elim hold fun hx => List.mem_singleton.mp hx ▸ hret
      refine Inv.goto (a := [.ret t st]) h' rfl ⟨rfl, rfl, rfl⟩ hbelow
        (fun hb => by rw [hphase] at hb; cases hb) ?_ fun _ _ _ _ _ he => by cases he
      rw [hphase] at hok
      cases dyn with
      | none =>
        obtain ⟨hst, hdep, hrets⟩ := hok
        exact ⟨hst, by simpa using hdep, fun x hx => hnew x hx (hrets x)⟩
      | some dyn =>
        obtain ⟨hst, hdep, hfound, heq, hrets⟩ := hok
        exact ⟨hst, hdep, hfound, by simpa using heq, fun x hx => hnew x hx (hrets x)⟩
  | @found _ _ _ _ found keep k inputs hphase hbelow =>
    rw [hphase]
    unfold resume
    rw [wp_bind]
    refine ((lookupFile_quiet (E := E) (S := fun _ => False) (O := fun _ => False) st t w).and
      (lookupFile_answer st t w)).imp (fun answer w' hq => ?_) fun _ _ hq => hq.1.2.calm.good h.good
    have h' := h.quiet hq.1
    have hret := h'.returned t st _ rfl
    exact resumeScan_inv (a := [.ret t st]) h' rfl hphase hbelow fun ha ht => hret.2 (hq.2 ha ht)

theorem Rule.namedOn_of_none {r : Rule} (h : r.dyndep = none) (inputs : List Name) :
    r.namedOn inputs = [] := by
  simp [namedOn, h]

theorem Rule.namedOn_cons {r : Rule} {dyndep : Name → Dyndep} (h : r.dyndep = some dyndep)
    (i : Name) (inputs : List Name) :
    r.namedOn (i :: inputs) = (dyndep i).named ++ r.namedOn inputs := by
  simp [namedOn, h]

/-- The dependencies of `build-deps` are all done when its verdict is. -/
theorem done_of_rets {done : List (Name × Status)} (hrets : ∀ x ∈ done, Returned d w x.1 x.2)
    (hall : ∀ x ∈ done, x.2.done = true) : ∀ t ∈ done.map (·.1), d.Done w.toCore t := by
  intro t ht
  obtain ⟨x, hx, rfl⟩ := List.mem_map.mp ht
  exact (hrets x hx).2 (hall x hx)

theorem afterStatic_ok {f : Frame} {st : Status} (hst : st.done = true)
    (hdone : ∀ t ∈ f.rule.depends, d.Done w.toCore t) :
    PhaseOK d w f.rule st (afterStatic f st) := by
  have hud : (st = .uptodate || st = .built) = true := by
    revert hst
    cases st <;> simp [Status.done]
  unfold afterStatic
  rw [if_pos hud]
  cases hdd : f.rule.dyndep with
  | none =>
    refine ⟨hst, hdone, ⟨fun _ ht => absurd ht List.not_mem_nil, fun t ht => ?_,
      fun _ hi => absurd hi List.not_mem_nil, fun _ ht => absurd ht List.not_mem_nil⟩, rfl,
      fun _ hx => absurd hx List.not_mem_nil⟩
    rw [Rule.namedOn_of_none hdd] at ht
    exact absurd ht List.not_mem_nil
  | some dyndep =>
    exact ⟨hst, hdone, ⟨fun _ ht => absurd ht List.not_mem_nil, fun t ht => Or.inr ht,
      fun _ hi => hi, fun _ ht => absurd ht List.not_mem_nil⟩, fun _ hl => by cases hl⟩

/-- In `build-deps`. -/
theorem advance_deps_inv (E : Env) {f : Frame} {dyn : Option (List Name)}
    {done : List (Name × Status)} {todo : List Name} (h : Inv d root (.rule f :: p) w)
    (hphase : f.phase = .deps dyn done todo) :
    wp (advance d E f p (.deps dyn done todo)) (Inv d root) (fun _ => Good d) w := by
  have hok := h.phaseOK hphase
  have hnb : f.phase.begun = true → False := fun hb => by rw [hphase] at hb; cases hb
  cases todo with
  | cons dep todo =>
    rw [advance]
    rw [wp_pure]
    exact h.replace (.call (.dep hphase h.calledFrom)) rfl (fun f' hf' hb => ⟨f', hf', rfl, hb⟩)
      h.frameOK (fun _ _ _ _ _ _ _ he => absurd he (by simp)) fun _ _ _ he => absurd he (by simp)
  | nil =>
    cases dyn with
    | none =>
      obtain ⟨hst, hdep, hrets⟩ := hok
      rw [List.append_nil] at hdep
      rw [advance]
      rw [wp_pure]
      refine h.advance ⟨rfl, rfl, rfl⟩ (fun hb => (hnb hb).elim) ?_ ?_
      · change PhaseOK d w f.rule (depsStatus d f.rule.phony done f.status) (afterStatic f _)
        rcases depsStatus_cases f.rule.phony done hst (fun x hx => (hrets x hx).1) with
          hs | hs | ⟨hs, hall⟩
        · rw [hs]
          exact Or.inl rfl
        · rw [hs]
          exact Or.inr (Or.inl rfl)
        · exact afterStatic_ok hs (hdep ▸ done_of_rets hrets hall)
      · intro dyn notify n i todo he
        change afterStatic f _ = _ at he
        unfold afterStatic at he
        split at he
        · split at he <;> cases he
        · cases he
    | some dyn =>
      obtain ⟨hst, hdone, hfound, heq, hrets⟩ := hok
      rw [List.append_nil] at heq
      rw [advance]
      rw [wp_pure]
      refine h.advance ⟨rfl, rfl, rfl⟩ (fun hb => (hnb hb).elim) ?_ fun _ _ _ _ _ he => by cases he
      rcases depsStatus_cases f.rule.phony done hst (fun x hx => (hrets x hx).1) with
        hs | hs | ⟨hs, hall⟩
      · exact Or.inl hs
      · exact Or.inr (Or.inl hs)
      · refine Or.inr (Or.inr ⟨hs, fun t ht => ?_, fun t ht => ?_⟩)
        · rcases List.mem_append.mp ht with ht | ht
          · exact hdone t ht
          · exact done_of_rets hrets hall t (heq ▸ ht)
        · refine (hfound.named t ht).resolve_right fun hnil => ?_
          unfold Rule.namedOn at hnil
          split at hnil <;> exact absurd hnil List.not_mem_nil

/-- In `calc-dyndeps`. -/
theorem advance_scan_inv (E : Env) {f : Frame} {found : List Name} {prog : Scan}
    {inputs : List Name} (h : Inv d root (.rule f :: p) w) (hphase : f.phase = .scan found prog inputs) :
    wp (advance d E f p (.scan found prog inputs)) (Inv d root) (fun _ => Good d) w := by
  obtain ⟨hst, hdone, hfound, hlooks⟩ := h.phaseOK hphase
  have hnb : f.phase.begun = true → False := fun hb => by rw [hphase] at hb; cases hb
  have hgoto : ∀ found prog inputs, Found d w f.rule found inputs →
      (∀ t, prog.Looks t → f.rule.NeedsName t) →
      Inv d root (.rule (f.goto (.scan found prog inputs)) :: p) w :=
    fun found prog inputs hf hl =>
      h.advance ⟨rfl, rfl, rfl⟩ (fun hb => (hnb hb).elim) ⟨hst, hdone, hf, hl⟩
        fun _ _ _ _ _ he => by cases he
  cases prog with
  | done =>
    cases inputs with
    | nil =>
      rw [advance]
      rw [wp_pure]
      exact h.advance ⟨rfl, rfl, rfl⟩ (fun hb => (hnb hb).elim)
        ⟨hst, hdone, hfound, rfl, fun _ hx => absurd hx List.not_mem_nil⟩
        fun _ _ _ _ _ he => by cases he
    | cons i inputs =>
      rw [advance]
      have hleft := fun j hj => hfound.left j (List.mem_cons_of_mem _ hj)
      split
      · next hdd =>
        refine hgoto _ _ _ ⟨hfound.done, fun t ht => ?_, hleft, hfound.needs⟩ hlooks
        rw [Rule.namedOn_of_none hdd] at ht
        exact absurd ht List.not_mem_nil
      · next dyndep hdd =>
        have hi := hfound.left i List.mem_cons_self
        refine hgoto _ _ _ ⟨fun t ht => ?_, fun t ht => ?_, hleft, fun t ht => ?_⟩
          fun t ht => Or.inr ⟨dyndep, hdd, i, hi, Or.inr ht⟩
        · refine (List.mem_append.mp ht).elim (hfound.done t) fun ht => Or.inl ?_
          simp only [Rule.namedOn, hdd]
          exact List.mem_flatMap.mpr ⟨i, hi, ht⟩
        · rcases hfound.named t ht with ht | ht
          · exact Or.inl (List.mem_append_left _ ht)
          · rw [Rule.namedOn_cons hdd] at ht
            exact (List.mem_append.mp ht).imp (List.mem_append_right _) id
        · exact (List.mem_append.mp ht).elim (hfound.needs t) fun ht =>
            Or.inr ⟨dyndep, hdd, i, hi, Or.inl ht⟩
  | peek k =>
    rw [advance]
    rw [wp_bind, wp_get]
    exact hgoto _ _ _ hfound fun t ht => hlooks t (.peek _ ht)
  | lookup file keep k =>
    rw [advance]
    by_cases ht : d.isTarget file = true
    · rw [if_pos ht, wp_pure]
      exact h.replace (.call (.look hphase h.calledFrom)) rfl
        (fun f' hf' hb => ⟨f', hf', rfl, hb⟩) h.frameOK
        (fun _ _ _ _ _ _ _ he => absurd he (by simp)) fun _ _ _ he => absurd he (by simp)
    · rw [if_neg ht, wp_bind]
      refine (lookupFile_quiet (E := E) (S := fun _ => False) (O := fun _ => False) .unknown file
        w).imp (fun answer w' hq => ?_) fun _ _ hq => hq.2.calm.good h.good
      exact resumeScan_inv (a := []) (h.quiet hq) rfl hphase h.calledFrom fun _ hft => absurd hft ht

theorem checkStatus_leavable {f : Frame} {dyn : List Name} {st : Status}
    (hok : PhaseOK d w f.rule f.status (.check dyn)) (hst : Outdates f.status st)
    (hb : f.phase.begun = false) : Leavable d w f st [] := by
  have hb' : f.phase.begun = true → st ∈ [Status.running, .built, .failed] := fun h => by
    rw [hb] at h
    cases h
  rcases hok with hf | hf | ⟨hf, hall⟩
  · obtain rfl : st = .waiting := by
      rcases hst with h | ⟨h, -⟩
      · exact h.trans hf
      · rw [hf] at h
        cases h
    exact ⟨Or.inl rfl, rfl, Or.inl ⟨rfl, by simp⟩, hb'⟩
  · obtain rfl : st = .failed := by
      rcases hst with h | ⟨h, -⟩
      · exact h.trans hf
      · rw [hf] at h
        cases h
    exact ⟨Or.inr (Or.inl rfl), rfl, Or.inl ⟨rfl, by simp⟩, hb'⟩
  · have hd := hst.done hf
    refine ⟨Or.inr (Or.inr ⟨dyn, hall⟩), Status.proper_of_done hd, Or.inl ⟨rfl, ?_⟩, hb'⟩
    rintro rfl
    cases hd

/-- The checks. -/
theorem advance_check_inv {f : Frame} {dyn : List Name} (h : Inv d root (.rule f :: p) w)
    (hphase : f.phase = .check dyn) :
    wp (advance d E f p (.check dyn)) (Inv d root) (fun _ => Good d) w := by
  rw [advance, wp_bind]
  refine ((checkRule_quiet (S := fun _ => False) (O := (· = f.rule.target)) f.target _ dyn
    f.status rfl w).and (checkRule_outdates f.rule f.target _ dyn f.status w)).imp
    (fun st w' hq => ?_) fun _ _ hq => hq.1.2.calm.good h.good
  obtain ⟨hq, hst⟩ := hq
  have h' := h.quiet hq
  have hok := h'.phaseOK hphase
  have hnb : f.phase.begun = false := by rw [hphase]; rfl
  rw [wp_ite]
  refine ⟨fun hb => ?_, fun _ => ?_⟩
  · refine h'.advance ⟨rfl, rfl, rfl⟩ (fun hb => by rw [hnb] at hb; cases hb) ?_
      fun _ _ _ _ _ he => by cases he
    have hbuilt : st = .built := of_decide_eq_true (Bool.and_eq_true_iff.mp hb).1
    rcases hok with hf | hf | ⟨-, hall⟩
    · rcases hst with h | ⟨h, -⟩ <;> rw [hf] at h
      · rw [hbuilt] at h
        cases h
      · cases h
    · rcases hst with h | ⟨h, -⟩ <;> rw [hf] at h
      · rw [hbuilt] at h
        cases h
      · cases h
    · exact hall
  · rw [wp_bind]
    have hs : Sets w' w' f.rule.target (w'.rulestatus f.rule.target) w'.current [] :=
      (refl_of (Quiet d E (· = f.rule.target) fun _ => False) w').sets
    exact (leave_inv h' hs (checkStatus_leavable hok hst hnb)).imp (fun _ _ h => h)
      fun _ _ h => h.elim

theorem beginRule_spec (r : Rule) (target : Name) (vardict : List (String × String))
    (dyn : List Name) (w : World) :
    wp (beginRule d E r target vardict dyn)
      (fun _ w' => ∃ w1, Quiet d E (fun _ => False) (· = r.target) w w1 ∧
        w' = { w1 with
          trace := ⟨.start r.target dyn (substDo d vardict r.doList), w1.toCore⟩ :: w1.trace })
      (fun _ => Calm w) w := by
  unfold beginRule
  rw [wp_bind]
  refine (osCheck_quiet (d := d) (E := E) (S := fun _ => False) (O := (· = r.target)) w).imp
    (fun _ w1 hq => ?_) fun _ _ hq => hq.2.calm
  unfold emit
  rw [wp_bind, wp_modify, wp_modify]
  refine ⟨_, trans_of _ hq ?_, rfl⟩
  exact ⟨fun _ _ => rfl, rfl, rfl, rfl, rfl, rfl, fun r' hr' => Function.update_of_ne hr' _ _,
    refl_of _ _, fun _ _ _ => rfl, rfl, [], rfl, fun _ hm => absurd hm List.not_mem_nil⟩

/-- The rule has to be built. -/
theorem advance_launch_inv {f : Frame} {dyn : List Name} (h : Inv d root (.rule f :: p) w)
    (hphase : f.phase = .launch dyn) :
    wp (advance d E f p (.launch dyn)) (Inv d root) (fun _ => Good d) w := by
  rw [advance, wp_bind]
  refine (prepareRule_quiet (S := fun _ => False) (O := (· = f.rule.target)) rfl w).imp
    (fun _ w1 hq => ?_) fun _ _ hq => hq.2.calm.good h.good
  have h1 := h.quiet hq
  have hnb : f.phase.begun = false := by rw [hphase]; rfl
  rw [wp_ite]
  refine ⟨fun _ => ?_, fun _ => ?_⟩
  · rw [wp_bind]
    refine ((dryRun_quiet (E := E) (S := fun _ => False) (O := (· = f.rule.target)) f.rule _
      w1).and (dryRun_status f.rule _ w1)).imp (fun st w2 hq2 => ?_)
      fun _ _ hq2 => hq2.1.2.calm.good h1.good
    obtain ⟨hq2, rfl⟩ := hq2
    have h2 := h1.quiet hq2
    have hs : Sets w2 w2 f.rule.target (w2.rulestatus f.rule.target) w2.current [] :=
      (refl_of (Quiet d E (· = f.rule.target) fun _ => False) w2).sets
    exact close_inv E h2 hs ⟨Or.inr (Or.inr ⟨dyn, h2.phaseOK hphase⟩), rfl,
      Or.inl ⟨rfl, by simp⟩, fun hb => by rw [hnb] at hb; cases hb⟩
  · rw [wp_bind]
    refine (beginRule_spec f.rule f.target _ dyn w1).imp (fun _ w2 hb => ?_)
      fun _ _ hc => hc.good h1.good
    obtain ⟨w1', hq1, hw2⟩ := hb
    have h1' := h1.quiet hq1
    have hall' : AllDone d w1' f.rule dyn := h1'.phaseOK hphase
    have hall2 : AllDone d w2 f.rule dyn :=
      AllDone.mono (fun _ ht => by rw [hw2]; exact ht) hall'
    unfold firstScript
    split
    · next notify hslow =>
      rw [wp_bind, wp_get, wp_pure]
      have hfork : forkNotify d f.rule f.notify = some notify := by
        split at hslow
        · exact hslow
        · cases hslow
      obtain ⟨hmax, hn⟩ := forkNotify_some hfork
      refine h1'.start hall' hnb hw2 ⟨rfl, rfl, rfl⟩ rfl hall2 ?_
      rintro _ _ _ _ _ ⟨⟩
      exact ⟨by rw [hw2], hmax, hn⟩
    · rw [wp_pure]
      exact h1'.start hall' hnb hw2 ⟨rfl, rfl, rfl⟩ rfl hall2 fun _ _ _ _ _ he => by cases he

/-- In the `-do` list, in this process. -/
theorem advance_scripts_inv {f : Frame} {dyn : List Name} {i : Nat} {todo : List Script}
    (h : Inv d root (.rule f :: p) w) (hphase : f.phase = .scripts dyn i todo) :
    wp (advance d E f p (.scripts dyn i todo)) (Inv d root) (fun _ => Good d) w := by
  cases todo with
  | nil =>
    have hok : AllDone d w f.rule dyn := h.phaseOK hphase
    rw [advance, wp_pure]
    exact h.advance ⟨rfl, rfl, rfl⟩ (fun _ => rfl) hok fun _ _ _ _ _ he => by cases he
  | cons script todo =>
    rw [advance, wp_bind, wp_get, wp_bind]
    unfold ask
    rw [wp_modifyGet]
    dsimp only
    have hask : Quiet d E (fun _ => False) (· = f.rule.target) w { w with tick := w.tick + 1 } :=
      .of_eq rfl rfl rfl rfl rfl rfl rfl (refl_of _ _) rfl rfl rfl
    have h1 := h.quiet hask
    split
    · next notify hrun =>
      have hfork : forkNotify d f.rule f.notify = some notify := by
        split at hrun
        · exact hrun
        · cases hrun
      obtain ⟨hmax, hn⟩ := forkNotify_some hfork
      rw [wp_bind]
      refine (recordCmds_quiet (S := fun _ => False) (O := (· = f.rule.target)) _ rfl _).imp
        (fun _ w2 hq => ?_) fun _ _ hq => hq.2.calm.good h1.good
      have h2 := h1.quiet hq
      have hok : AllDone d w2 f.rule dyn := h2.phaseOK hphase
      rw [wp_bind, wp_get, wp_pure]
      refine h2.advance ⟨rfl, rfl, rfl⟩ (fun _ => rfl) hok ?_
      rintro _ _ _ _ _ ⟨⟩
      exact ⟨le_rfl, hmax, hn⟩
    · rw [wp_bind]
      refine (applyResult_quiet (S := fun _ => False) (O := (· = f.rule.target)) rfl _).imp
        (fun _ w2 hq => ?_) fun _ _ hq => hq.2.calm.good h1.good
      have h2 := h1.quiet hq
      have hok : AllDone d w2 f.rule dyn := h2.phaseOK hphase
      rw [wp_ite]
      constructor <;> intro _ <;> rw [wp_pure]
      · exact h2.advance ⟨rfl, rfl, rfl⟩ (fun _ => rfl) hok fun _ _ _ _ _ he => by cases he
      · exact h2.advance ⟨rfl, rfl, rfl⟩ (fun _ => rfl) hok fun _ _ _ _ _ he => by cases he

/-- Waiting for a slot for the background job. -/
theorem advance_slots_inv {f : Frame} {dyn : List Name} {notify : RuleTarget} {n i : Nat}
    {todo : List Script} (h : Inv d root (.rule f :: p) w)
    (hphase : f.phase = .slots dyn notify n i todo) :
    wp (advance d E f p (.slots dyn notify n i todo)) (Inv d root) (fun _ => Good d) w := by
  obtain ⟨hlen, hmax, hn⟩ := h.slot f p dyn notify n i todo rfl hphase
  have hall : AllDone d w f.rule dyn := h.phaseOK hphase
  cases n with
  | zero =>
    rw [advance]
    exact fork_inv h hall hn (by omega)
  | succ n =>
    rw [advance, wp_bind, wp_get, wp_ite]
    refine ⟨fun hfull => ?_, fun hfree => fork_inv h hall hn (by omega)⟩
    rw [wp_bind]
    refine (waitForOneJob_spec w).imp (fun _ w' hw => ?_) fun _ _ hc => hc.2.good h.good
    rcases hw with ⟨hnil, -⟩ | hw
    · rw [hnil, List.length_nil] at hfull
      omega
    · have h' := h.wait hw
      have hok : AllDone d w' f.rule dyn := h'.phaseOK hphase
      refine h'.advance ⟨rfl, rfl, rfl⟩ (fun _ => rfl) hok ?_
      rintro _ _ _ _ _ ⟨⟩
      obtain ⟨k, job, st, st', hk, hrun, -⟩ := hw.reaped
      have hk' := (List.getElem?_eq_some_iff.mp hk).1
      rw [hrun, List.length_eraseIdx_of_lt hk']
      exact ⟨by omega, hmax, hn⟩

theorem endForeground_status (r : Rule) (rc : Nat) (w : World) :
    wp (endForeground d E r rc) (fun st _ => st = .failed ∨ st = .built) (fun _ _ => True) w := by
  refine wp_bind_last fun _ _ => wp_bind_last fun _ _ => ?_
  rw [wp_pure]
  split
  · exact Or.inl rfl
  · exact Or.inr rfl

/-- The `-do` list has ended in this process. -/
theorem advance_ended_inv {f : Frame} {dyn : List Name} {rc : Nat}
    (h : Inv d root (.rule f :: p) w) (hphase : f.phase = .ended dyn rc) :
    wp (advance d E f p (.ended dyn rc)) (Inv d root) (fun _ => Good d) w := by
  rw [advance, wp_bind]
  refine ((endForeground_quiet (S := (· = f.rule.target)) (O := (· = f.rule.target)) rc rfl rfl
    w).and (endForeground_status f.rule rc w)).imp (fun st w' hq => ?_)
    fun _ _ hq => hq.1.2.calm.good h.good
  have hl : Leavable d w f st [] := by
    refine ⟨Or.inr (Or.inr ⟨dyn, h.phaseOK hphase⟩), ?_, Or.inl ⟨rfl, ?_⟩, fun _ => ?_⟩
    · rcases hq.2 with rfl | rfl <;> rfl
    · rcases hq.2 with rfl | rfl <;> simp
    · rcases hq.2 with rfl | rfl <;> simp
  exact close_inv E h hq.1.sets hl

/-- **Every step of the machine preserves the control invariant.** -/
theorem next_inv (p : Point) (w : World) (h : Inv d root p w) :
    wp (next d E p) (Inv d root) (fun _ => Good d) w := by
  match p with
  | [] => exact h
  | .call t n :: p => exact begin_inv E h
  | [.ret t st] => exact h
  | .ret t st :: .rule f :: p => exact resume_inv h
  | .ret t st :: .sync u :: p => exact resync_inv h
  | .ret t st :: .call u n :: p => exact h
  | .ret t st :: .ret u st' :: p => exact h
  | .sync t :: p => exact h
  | .rule f :: p =>
    change wp (advance d E f p f.phase) (Inv d root) (fun _ => Good d) w
    cases hphase : f.phase with
    | deps dyn done todo => exact advance_deps_inv E h hphase
    | scan found prog inputs => exact advance_scan_inv E h hphase
    | check dyn => exact advance_check_inv h hphase
    | launch dyn => exact advance_launch_inv h hphase
    | scripts dyn i todo => exact advance_scripts_inv h hphase
    | slots dyn notify n i todo => exact advance_slots_inv h hphase
    | ended dyn rc => exact advance_ended_inv h hphase

/-! ## Runs -/

/-- Between two requests. -/
def Idle (d : Desc) (w : World) : Prop := ∀ root, Inv d root [] w

/-- Nothing has been decided and nothing is running. -/
theorem Idle.cleared (hrule : ∀ r ∈ d.rules, w.rulestatus r.target = .unknown)
    (hstatus : ∀ r, w.rulestatus r ≠ .checking ∧ w.rulestatus r ≠ .running)
    (htarget : ∀ t st, w.targetstatus t = some st → st = .uptodate ∨ st = .failed)
    (hcurrent : w.current = []) (hrunning : w.running = []) (htrace : w.trace = []) :
    Idle d w := fun _ =>
  { shape := .idle
    current := hcurrent
    nodup := List.nodup_nil
    checking := fun r h => absurd h (hstatus r).1
    stacked := fun _ h => absurd h List.not_mem_nil
    targetstatus := htarget
    job_running := by rw [hrunning]; exact fun _ h => absurd h List.not_mem_nil
    running_job := fun r h => absurd h (hstatus r).2
    job_nodup := by rw [hrunning]; exact List.nodup_nil
    job_awaited := by rw [hrunning]; exact fun _ h => absurd h List.not_mem_nil
    started := by rw [htrace]; exact fun _ h => absurd h List.not_mem_nil
    settled := fun r hr h => by
      rw [hrule r hr] at h
      rcases h with h | h <;> cases h
    frameOK := fun _ h => absurd h List.not_mem_nil
    slot := fun _ _ _ _ _ _ _ h => nomatch h
    returned := fun _ _ _ h => nomatch h
    good := by
      constructor
      · rw [htrace]
        exact List.nodup_nil
      · rw [hrunning]
        exact Nat.zero_le _
      all_goals rw [htrace]; exact fun _ h => absurd h List.not_mem_nil }

theorem Idle.fresh (c : Core) : Idle d (World.fresh c) :=
  .cleared (fun _ _ => rfl) (fun _ => ⟨nofun, nofun⟩) nofun rfl rfl rfl

theorem Idle.good (h : Idle d w) : Good d w := (h "").good

theorem Idle.request (h : Idle d w) (t : Name) : Inv d t [.call t none, .sync t] w :=
  (h t).replace (.call .top) rfl (fun _ hf => absurd hf List.not_mem_nil)
    (fun _ hf => absurd hf List.not_mem_nil) (fun _ _ _ _ _ _ _ h => nomatch h)
    fun _ _ _ h => nomatch h

theorem Inv.idle {t : Name} {st : Status} (h : Inv d root [.ret t st] w) : Idle d w := fun _ =>
  { h.replace (q := []) .idle rfl (fun _ hf => absurd hf List.not_mem_nil)
      (fun _ hf => absurd hf List.not_mem_nil) (fun _ _ _ _ _ _ _ h => nomatch h)
      fun _ _ _ h => nomatch h with
    shape := .idle }

theorem buildSync_inv (n : Nat) (t : Name) (h : Idle d w) :
    wp (buildSync d E n t) (fun st w' => Inv d t [.ret t st] w') (fun _ => Good d) w :=
  ((buildSync_follows n t).inv next_inv (h.request t)).imp (fun _ _ h => h)
    fun _ _ h => h.elim id fun ⟨_, _, h⟩ => h.good

theorem buildAll_inv (n : Nat) (ts : List Name) (h : Idle d w) :
    wp (buildAll d E n ts) (fun _ => Idle d) (fun _ => Good d) w := by
  induction ts generalizing w with
  | nil => exact h
  | cons t ts ih =>
    unfold buildAll
    rw [wp_bind]
    exact (buildSync_inv n t h).imp (fun _ _ h => ih h.idle) fun _ _ h => h

theorem atExit_good (h : Good d w) : Good d (atExit d E w) := by
  unfold atExit
  generalize w.running.length = n
  induction n generalizing w with
  | zero => exact h
  | succ n ih =>
    unfold drain
    split
    · exact h
    · refine ih (wp_final (P := Good d) ((waitForOneJob_spec w).imp (fun _ w' hw => ?_)
        fun _ _ hc => hc.2.good h))
      rcases hw with ⟨-, rfl⟩ | hw
      · exact h
      · exact hw.calm.good h

/-- **Scheduler safety.**  In every run, whatever the commands do and in whatever order the
background jobs finish: no `-do` list is started twice; when one is started, every static and
dynamic dependency of its rule is built or up to date; and at no moment, nor at the end, are
there more than `MAXJOBS` background jobs. -/
theorem scheduler_safe (d : Desc) (E : Env) (n : Nat) (ts : List Name) (c : Core) :
    let w := atExit d E (final (buildAll d E n ts) (.fresh c))
    (starts w.trace).Nodup ∧
    (∀ m ∈ w.trace, ∀ r ∈ d.rules, ∀ dyn cmd, m.event = .start r.target dyn cmd →
      ∀ t ∈ r.depends ++ dyn, d.Done m.core t) ∧
    (∀ m ∈ w.trace, m.core.running.length ≤ d.maxjobs) ∧ w.running.length ≤ d.maxjobs := by
  have h : Good d (final (buildAll d E n ts) (.fresh c)) :=
    wp_final (P := Good d) ((buildAll_inv n ts (.fresh c)).imp (fun _ _ h => h.good) fun _ _ h => h)
  have h' := atExit_good (E := E) h
  exact ⟨h'.nodup, fun m hm r hr dyn cmd he => (h'.ready m hm r dyn cmd he hr).done, h'.moments,
    h'.slots⟩

end Tmake
