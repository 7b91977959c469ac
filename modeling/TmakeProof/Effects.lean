import TmakeProof.Engine

/-! # What the steps of a rule leave alone

Most of what `build` does for a rule — hashing, comparing, evaluating scripts,
recording results — touches neither the other rules nor the table of running
jobs.  `Quiet S O` says this of a state and a later one: only rules in `S` may
have had their status set, and only rules in `O` may have had their cache
entries and, if scripts write only the targets of their own rule, their files
changed.  Every procedure below is `Within` it, and none of them stops because
of a recursive definition, or at the bound of the recursion.
-/
namespace Tmake
open Weakest

/-- The ways in which only the recursion of `build` stops. -/
def Stop.Deep (e : Stop) : Prop := e = .fuel ∨ ∃ code, e = .exit code .recursive

theorem Stop.not_deep_exit {code : Nat} {why : Why} (h : why ≠ .recursive) :
    ¬(Stop.exit code why).Deep := by
  rintro (⟨⟨⟩⟩ | ⟨_, ⟨⟩⟩)
  exact h rfl

theorem Stop.not_deep_error : ¬Stop.error.Deep := by
  rintro (⟨⟨⟩⟩ | ⟨_, ⟨⟩⟩)

/-- The rule whose `-do` list begins at such a moment. -/
def Event.started? : Event → Option RuleTarget
  | .start r _ _ => some r
  | _ => none

/-- The rule that an event tells of. -/
def Event.rule? : Event → Option RuleTarget
  | .start r _ _ | .forked r | .succeeded r | .failed r | .notified r _ | .evaluated r _ _ => some r
  | _ => none

/-- The rules whose `-do` lists began, the last one first. -/
def starts (trace : List Moment) : List RuleTarget := trace.filterMap (·.event.started?)

@[simp] theorem starts_nil : starts [] = [] := rfl

@[simp] theorem starts_cons (m : Moment) (l : List Moment) :
    starts (m :: l) = m.event.started?.toList ++ starts l := by
  unfold starts
  cases h : m.event.started? <;> simp [h]

@[simp] theorem starts_append (l l' : List Moment) : starts (l ++ l') = starts l ++ starts l' :=
  List.filterMap_append

/-- A script writes only the targets of its own rule. -/
def WritesOwn (d : Desc) (E : Env) : Prop :=
  ∀ tick r part fs, ∀ x ∈ (E.exec tick r part fs).puts, x.1 ∈ r.map d.fileBuild

/-- The cache entries of the rules outside `O` are the same. -/
structure Cache.Agree (O : RuleTarget → Prop) (c c' : Cache) : Prop where
  dephash : ∀ r, ¬O r → c'.dephash.lookup r = c.dephash.lookup r
  deps : ∀ r, ¬O r → c'.deps.lookup r = c.deps.lookup r
  cmd : ∀ r, ¬O r → c'.cmd.lookup r = c.cmd.lookup r
  exec : ∀ r, ¬O r → c'.exec.lookup r = c.exec.lookup r
  file : ∀ n, (∀ r, O r → n ∉ r) → c'.file.lookup n = c.file.lookup n
  target : ∀ n, (∀ r, O r → n ∉ r) → c'.target.lookup n = c.target.lookup n

theorem Cache.Agree.of_eq {O : RuleTarget → Prop} {c c' : Cache} (hh : c'.dephash = c.dephash)
    (hd : c'.deps = c.deps) (hc : c'.cmd = c.cmd) (he : c'.exec = c.exec) (hf : c'.file = c.file)
    (ht : c'.target = c.target) : Cache.Agree O c c' :=
  ⟨fun _ _ => by rw [hh], fun _ _ => by rw [hd], fun _ _ => by rw [hc], fun _ _ => by rw [he],
    fun _ _ => by rw [hf], fun _ _ => by rw [ht]⟩

instance (O : RuleTarget → Prop) : IsPreorder Cache (Cache.Agree O) where
  refl _ := .of_eq rfl rfl rfl rfl rfl rfl
  trans _ _ _ h h' :=
    ⟨fun r hr => (h'.dephash r hr).trans (h.dephash r hr),
     fun r hr => (h'.deps r hr).trans (h.deps r hr), fun r hr => (h'.cmd r hr).trans (h.cmd r hr),
     fun r hr => (h'.exec r hr).trans (h.exec r hr),
     fun n hn => (h'.file n hn).trans (h.file n hn),
     fun n hn => (h'.target n hn).trans (h.target n hn)⟩

/-- Between the two states no job was started or reaped, no `-do` list began, no status was set
but those of the rules in `S`, and nothing was recorded or written but by the rules in `O`. -/
structure Quiet (d : Desc) (E : Env) (S O : RuleTarget → Prop) (w w' : World) : Prop where
  rulestatus : ∀ r, ¬S r → w'.rulestatus r = w.rulestatus r
  targetstatus : w'.targetstatus = w.targetstatus
  current : w'.current = w.current
  running : w'.running = w.running
  cleaning : w'.cleaning = w.cleaning
  ignoreforce : w'.ignoreforce = w.ignoreforce
  precache : ∀ r, ¬O r → w'.precache r = w.precache r
  cache : Cache.Agree O w.cache w'.cache
  fs : WritesOwn d E → ∀ p, (∀ r, O r → p ∉ r.map d.fileBuild) → w'.fs p = w.fs p
  past : w'.past = w.past
  trace : ∃ l, w'.trace = l ++ w.trace ∧ ∀ m ∈ l,
    m.event.started? = none ∧ (∀ r, m.event.rule? = some r → O r) ∧ m.core.running = w.running

variable {d : Desc} {E : Env} {S O : RuleTarget → Prop} {w w' : World}

/-- Only the exit code, a counter, the clock or the like has changed. -/
theorem Quiet.of_eq (hs : w'.rulestatus = w.rulestatus) (ht : w'.targetstatus = w.targetstatus)
    (hc : w'.current = w.current) (hr : w'.running = w.running) (hcl : w'.cleaning = w.cleaning)
    (hi : w'.ignoreforce = w.ignoreforce) (hp : w'.precache = w.precache)
    (hca : Cache.Agree O w.cache w'.cache) (hf : w'.fs = w.fs) (hpa : w'.past = w.past)
    (htr : w'.trace = w.trace) : Quiet d E S O w w' :=
  ⟨fun _ _ => by rw [hs], ht, hc, hr, hcl, hi, fun _ _ => by rw [hp], hca,
    fun _ _ _ => by rw [hf], hpa, [], htr, fun _ hm => absurd hm List.not_mem_nil⟩

instance : IsPreorder World (Quiet d E S O) where
  refl _ := .of_eq rfl rfl rfl rfl rfl rfl rfl (refl_of _ _) rfl rfl rfl
  trans a b c h h' := by
    obtain ⟨l, hl, hm⟩ := h.trace
    obtain ⟨l', hl', hm'⟩ := h'.trace
    refine ⟨fun r hr => (h'.rulestatus r hr).trans (h.rulestatus r hr),
      h'.targetstatus.trans h.targetstatus, h'.current.trans h.current,
      h'.running.trans h.running, h'.cleaning.trans h.cleaning,
      h'.ignoreforce.trans h.ignoreforce,
      fun r hr => (h'.precache r hr).trans (h.precache r hr), trans_of _ h.cache h'.cache,
      fun hE p hp => (h'.fs hE p hp).trans (h.fs hE p hp), h'.past.trans h.past,
      l' ++ l, by rw [hl', hl, List.append_assoc], ?_⟩
    intro m hmem
    rcases List.mem_append.mp hmem with hmem | hmem
    · exact ⟨(hm' m hmem).1, (hm' m hmem).2.1, (hm' m hmem).2.2.trans h.running⟩
    · exact hm m hmem

theorem Quiet.starts (h : Quiet d E S O w w') : starts w'.trace = starts w.trace := by
  obtain ⟨l, hl, hm⟩ := h.trace
  have : Tmake.starts l = [] := List.filterMap_eq_nil_iff.mpr fun m hmem => (hm m hmem).1
  rw [hl, starts_append, this, List.nil_append]

/-! ## Small operations -/

theorem ask_quiet {α : Type} (question : Nat → α) : Within Stop.Deep (Quiet d E S O) (ask question) :=
  Within.modifyGet fun _ => .of_eq rfl rfl rfl rfl rfl rfl rfl (refl_of _ _) rfl rfl rfl

theorem emit_quiet {e : Event} (he : e.started? = none) (hr : ∀ r, e.rule? = some r → O r) :
    Within Stop.Deep (Quiet d E S O) (emit e) :=
  Within.modify fun w => ⟨fun _ _ => rfl, rfl, rfl, rfl, rfl, rfl, fun _ _ => rfl, refl_of _ _,
    fun _ _ _ => rfl, rfl, [⟨e, w.toCore⟩], rfl, fun m hm => by
      rw [List.mem_singleton] at hm
      subst hm
      exact ⟨he, hr, rfl⟩⟩

theorem setRuleStatus_quiet {r : RuleTarget} (st : Status) (hr : S r) :
    Within Stop.Deep (Quiet d E S O) (setRuleStatus r st) :=
  Within.modify fun _ =>
    ⟨fun r' hr' => Function.update_of_ne (fun h : r' = r => hr' (h ▸ hr)) _ _, rfl, rfl, rfl, rfl,
     rfl,
     fun _ _ => rfl, refl_of _ _, fun _ _ _ => rfl, rfl, [], rfl,
     fun _ hm => absurd hm List.not_mem_nil⟩

theorem modifyCache_quiet {f : Cache → Cache} (hf : ∀ c, Cache.Agree O c (f c)) :
    Within Stop.Deep (Quiet d E S O) (modifyCache f) :=
  Within.modify fun w => .of_eq rfl rfl rfl rfl rfl rfl rfl (hf w.cache) rfl rfl rfl

theorem putFiles_quiet {puts : List (Path × Option Node)}
    (h : WritesOwn d E → ∀ x ∈ puts, ∃ r, O r ∧ x.1 ∈ r.map d.fileBuild) :
    Within Stop.Deep (Quiet d E S O) (putFiles puts) :=
  Within.modify fun w =>
    ⟨fun _ _ => rfl, rfl, rfl, rfl, rfl, rfl, fun _ _ => rfl, refl_of _ _,
     fun hE p hp => FS.putAll_of_notMem _ fun x hx hxp => by
       obtain ⟨r, hr, hxr⟩ := h hE x hx
       exact hp r hr (hxp ▸ hxr),
     rfl, [], rfl, fun _ hm => absurd hm List.not_mem_nil⟩

theorem buildError_quiet : Within Stop.Deep (Quiet d E S O) (buildError d) :=
  Within.modify fun _ => .of_eq rfl rfl rfl rfl rfl rfl rfl (refl_of _ _) rfl rfl rfl

theorem buildErrorIf_quiet (c : Bool) : Within Stop.Deep (Quiet d E S O) (buildErrorIf d c) :=
  Within.ite (fun _ => buildError_quiet) fun _ => Within.pure _

theorem tmakeExit_quiet {α : Type} (code : Nat) {why : Why} (h : why ≠ .recursive) :
    Within Stop.Deep (Quiet d E S O) (tmakeExit code why : M α) :=
  Within.bind (emit_quiet rfl fun _ h => nomatch h) fun _ =>
    Within.throw (Stop.not_deep_exit h)

theorem buildFatalError_quiet {α : Type} {why : Why} (h : why ≠ .recursive) :
    Within Stop.Deep (Quiet d E S O) (buildFatalError d why : M α) :=
  Within.bind buildError_quiet fun _ => tmakeExit_quiet 1 h

theorem tclError_quiet {α : Type} : Within Stop.Deep (Quiet d E S O) (tclError : M α) :=
  Within.bind (emit_quiet rfl fun _ h => nomatch h) fun _ => Within.throw Stop.not_deep_error

theorem checkSignal_quiet : Within Stop.Deep (Quiet d E S O) (checkSignal E) :=
  Within.bind (ask_quiet _) fun _ => Within.ite (fun _ => tmakeExit_quiet 2 nofun) fun _ => Within.pure _

theorem osCheck_quiet : Within Stop.Deep (Quiet d E S O) (osCheck E) :=
  Within.bind (ask_quiet _) fun _ => Within.ite (fun _ => tclError_quiet) fun _ => Within.pure _

theorem stopIf_quiet (c : Bool) (why : Why) (h : why ≠ .recursive) :
    Within Stop.Deep (Quiet d E S O) (stopIf c why) :=
  Within.bind Within.get fun _ =>
    Within.ite (fun _ => tmakeExit_quiet _ h) fun _ => Within.pure _

/-! ## Hashes and checks -/

theorem getFileHash_quiet (file : Path) (usehashes : Bool) :
    Within Stop.Deep (Quiet d E S O) (getFileHash d E file usehashes) := by
  have hins : ∀ x : Int × String, Within Stop.Deep (Quiet d E S O) (modifyCache fun c =>
      { c with srchash := c.srchash.insert file x, writecache := true }) :=
    fun x => modifyCache_quiet fun c => .of_eq rfl rfl rfl rfl rfl rfl
  refine Within.bind Within.get fun w => ?_
  split
  · exact tclError_quiet
  · refine Within.ite (fun _ => Within.pure _) fun _ => ?_
    split
    · refine Within.ite (fun _ => Within.pure _) fun _ => ?_
      exact Within.bind (hins _) fun _ => Within.pure _
    · exact Within.bind (hins _) fun _ => Within.pure _

theorem calcFileHash_quiet (file : Name) : Within Stop.Deep (Quiet d E S O) (calcFileHash d E file) := by
  unfold calcFileHash
  split
  · refine Within.bind Within.get fun w => ?_
    split
    · exact Within.pure _
    · exact Within.ite (fun _ => getFileHash_quiet _ _) fun _ => Within.pure _
    · exact Within.ite (fun _ => Within.pure _) fun _ => tclError_quiet
  · exact getFileHash_quiet file false

theorem calcDeplistHash_quiet (l : List Name) :
    Within Stop.Deep (Quiet d E S O) (calcDeplistHash d E l) := by
  unfold calcDeplistHash
  induction lsort l with
  | nil => exact Within.pure _
  | cons dep deps ih =>
    exact Within.bind (calcFileHash_quiet dep) fun _ => Within.bind ih fun _ => Within.pure _

theorem insertHash_quiet {r : RuleTarget} (h : DepHash) (hr : O r) :
    Within Stop.Deep (Quiet d E S O) (modifyCache fun c => { c with
      dephash := c.dephash.insert r h, writecache := true }) :=
  modifyCache_quiet fun c =>
    { Cache.Agree.of_eq (O := O) (c := c) rfl rfl rfl rfl rfl rfl with
      dephash := fun _ hr' => AList.lookup_insert_ne fun h => hr' (h ▸ hr) }

theorem needbuild_quiet {r : RuleTarget} (l : List Name) (hr : O r) :
    Within Stop.Deep (Quiet d E S O) (needbuild d E r l) :=
  Within.bind Within.get fun _ => Within.bind (calcDeplistHash_quiet l) fun _ =>
    Within.ite (fun _ => Within.pure _) fun _ =>
      Within.bind (insertHash_quiet _ hr) fun _ => Within.pure _

theorem substDoOrExit_quiet (vardict : List (String × String)) (scripts : List Script) :
    Within Stop.Deep (Quiet d E S O) (substDoOrExit d vardict scripts) := by
  unfold substDoOrExit
  split
  · exact Within.pure _
  · exact tmakeExit_quiet 1 nofun

theorem checkHash_quiet {r : Rule} (depends : List Name) (st : Status) (hr : O r.target) :
    Within Stop.Deep (Quiet d E S O) (checkHash d E r depends st) :=
  Within.ite
    (fun _ => Within.bind (needbuild_quiet depends hr) fun _ =>
      Within.ite (fun _ => Within.pure _) fun _ => Within.pure _)
    fun _ => Within.ite
      (fun _ => Within.bind (calcDeplistHash_quiet depends) fun _ =>
        Within.bind (insertHash_quiet _ hr) fun _ => Within.pure _)
      fun _ => Within.pure _

theorem checkCommands_quiet (r : Rule) (vardict : List (String × String)) (st : Status) :
    Within Stop.Deep (Quiet d E S O) (checkCommands d r vardict st) := by
  refine Within.ite (fun _ => Within.bind Within.get fun w => ?_) fun _ => Within.pure _
  split
  · exact Within.pure _
  · exact Within.bind (substDoOrExit_quiet vardict _) fun _ => Within.pure _

theorem checkRule_quiet {r : Rule} (target : Name) (vardict : List (String × String))
    (dyn : List Name) (st : Status) (hr : O r.target) :
    Within Stop.Deep (Quiet d E S O) (checkRule d E r target vardict dyn st) :=
  Within.bind Within.get fun _ => Within.bind (stopIf_quiet _ _ nofun) fun _ =>
    Within.bind (checkHash_quiet _ _ hr) fun _ => Within.bind Within.get fun _ =>
      Within.bind (checkCommands_quiet _ _ _) fun _ => Within.bind Within.get fun _ =>
        Within.pure _

/-! ## Finishing a rule -/

theorem execPuts_quiet {tick : Nat} {r : RuleTarget} {part : Part} {fs : FS} (hr : O r) :
    Within Stop.Deep (Quiet d E S O) (putFiles (E.exec tick r part fs).puts) :=
  putFiles_quiet fun hE x hx => ⟨r, hr, hE tick r part fs x hx⟩

/-- Ask what a script does, write its files and go on with its result. -/
theorem exec_quiet {α : Type} {r : RuleTarget} (part : Part) (fs : FS)
    {k : ScriptResult → M α}
    (hk : ∀ tick, Within Stop.Deep (Quiet d E S O) (k (E.exec tick r part fs))) :
    Within Stop.Deep (Quiet d E S O) (ask (fun tick => E.exec tick r part fs) >>= k) := by
  intro w
  rw [wp_bind]
  change wp (k (E.exec w.tick r part fs)) _ _ { w with tick := w.tick + 1 }
  have hq : Quiet d E S O w { w with tick := w.tick + 1 } :=
    .of_eq rfl rfl rfl rfl rfl rfl rfl (refl_of _ _) rfl rfl rfl
  exact (hk w.tick _).imp (fun _ _ h => trans_of _ hq h)
    (fun _ _ h => ⟨h.1, trans_of _ hq h.2⟩)

theorem runDo_quiet {r : RuleTarget} (part : Part) (hr : O r) :
    Within Stop.Deep (Quiet d E S O) (runDo E r part) :=
  Within.bind Within.get fun _ => exec_quiet part _ fun _ =>
    Within.bind (execPuts_quiet hr) fun _ => Within.pure _

theorem recordTargets_quiet (r : Rule) {ruletarget : RuleTarget} (hr : O ruletarget)
    {fs : List Name} (hfs : ∀ f ∈ fs, f ∈ ruletarget) (rc : Nat) :
    Within Stop.Deep (Quiet d E S O) (recordTargets d r ruletarget fs rc) := by
  induction fs generalizing rc with
  | nil => exact Within.pure _
  | cons f fs ih =>
    have htail := ih fun g hg => hfs g (List.mem_cons_of_mem _ hg)
    have hins : ∀ (mtime : Int) (c : Cache), Cache.Agree O c
        (if r.nocache then c
         else { c with file := c.file.insert f mtime, target := c.target.insert f ruletarget }) := by
      intro mtime c
      have hne : ∀ n, (∀ r, O r → n ∉ r) → n ≠ f := fun n hn h =>
        hn ruletarget hr (h ▸ hfs f List.mem_cons_self)
      split
      · exact refl_of _ _
      · exact { Cache.Agree.of_eq (O := O) (c := c) rfl rfl rfl rfl rfl rfl with
          file := fun n hn => AList.lookup_insert_ne (hne n hn)
          target := fun n hn => AList.lookup_insert_ne (hne n hn) }
    refine Within.bind Within.get fun w => Within.ite (fun _ => ?_) fun _ => ?_
    · exact Within.bind buildError_quiet fun _ => htail 3
    · exact Within.bind (modifyCache_quiet (hins _)) fun _ => htail rc

theorem recordBuilt_quiet (info : PreInfo) {r : RuleTarget} (rc : Nat) (hr : O r) :
    Within Stop.Deep (Quiet d E S O) (recordBuilt d info r rc) := by
  refine Within.bind Within.get fun _ => Within.ite (fun _ => ?_) fun _ => Within.pure _
  refine Within.bind (recordTargets_quiet _ hr (fun _ h => h) _) fun _ => ?_
  refine Within.bind (substDoOrExit_quiet _ _) fun cmd => ?_
  refine Within.bind (modifyCache_quiet fun c => ?_) fun _ => Within.pure _
  exact { Cache.Agree.of_eq (O := O) (c := c) rfl rfl rfl rfl rfl rfl with
    cmd := fun _ hr' => AList.lookup_insert_ne fun h => hr' (h ▸ hr)
    deps := fun _ hr' => AList.lookup_insert_ne fun h => hr' (h ▸ hr) }

theorem recordFailure_quiet {r : RuleTarget} (rc : Nat) (hr : O r) :
    Within Stop.Deep (Quiet d E S O) (recordFailure d E r rc) := by
  refine Within.bind (emit_quiet rfl fun r' h => ?_) fun _ => ?_
  · exact (Option.some.inj h) ▸ hr
  refine Within.bind osCheck_quiet fun _ => Within.bind (putFiles_quiet fun _ x hx => ?_) fun _ => ?_
  · obtain ⟨f, hf, rfl⟩ := List.mem_map.mp hx
    exact ⟨r, hr, List.mem_map_of_mem hf⟩
  exact Within.bind (insertHash_quiet _ hr) fun _ => Within.bind (runDo_quiet _ hr) fun _ =>
    Within.bind (buildErrorIf_quiet _) fun _ => Within.pure _

theorem runFinally_quiet {r : RuleTarget} (st : Status) (hr : O r) :
    Within Stop.Deep (Quiet d E S O) (runFinally d E r st) :=
  Within.bind (runDo_quiet _ hr) fun _ => Within.ite
    (fun _ => Within.bind buildError_quiet fun _ => Within.pure _) fun _ => Within.pure _

theorem countTarget_quiet (r : Rule) : Within Stop.Deep (Quiet d E S O) (countTarget r) :=
  Within.modify fun _ => .of_eq rfl rfl rfl rfl rfl rfl rfl (refl_of _ _) rfl rfl rfl

theorem judgeTargets_quiet (r : Rule) {ruletarget : RuleTarget} (rc : Nat) (hr : O ruletarget) :
    Within Stop.Deep (Quiet d E S O) (judgeTargets d E r ruletarget rc) :=
  Within.ite (fun _ => Within.bind (countTarget_quiet r) fun _ => Within.pure _)
    fun _ => recordFailure_quiet rc hr

theorem noteSuccess_quiet {r : RuleTarget} (rc : Nat) (hr : O r) :
    Within Stop.Deep (Quiet d E S O) (noteSuccess r rc) :=
  Within.ite (fun _ => emit_quiet rfl fun _ h => Option.some.inj h ▸ hr) fun _ => Within.pure _

theorem targetPostBuild_quiet {r : RuleTarget} (rc : Nat) (hS : S r) (hO : O r) :
    Within Stop.Deep (Quiet d E S O) (targetPostBuild d E r rc) := by
  refine Within.bind Within.get fun w => ?_
  split
  · exact tclError_quiet
  · next info _ =>
    refine Within.bind (noteSuccess_quiet rc hO) fun _ => ?_
    refine Within.bind (recordBuilt_quiet info rc hO) fun rc => ?_
    refine Within.bind (judgeTargets_quiet info.rule rc hO) fun st => ?_
    refine Within.bind (runFinally_quiet st hO) fun st => ?_
    refine Within.bind (setRuleStatus_quiet st hS) fun _ => Within.modify fun _ => ?_
    exact ⟨fun _ _ => rfl, rfl, rfl, rfl, rfl, rfl,
      fun r' hr' => Function.update_of_ne (fun h : r' = r => hr' (h ▸ hO)) _ _, refl_of _ _,
      fun _ _ _ => rfl, rfl, [], rfl, fun _ hm => absurd hm List.not_mem_nil⟩

theorem judgeTargets_status (r : Rule) (ruletarget : RuleTarget) (rc : Nat) (w : World) :
    wp (judgeTargets d E r ruletarget rc) (fun st _ => st = .built ∨ st = .failed)
      (fun _ _ => True) w := by
  unfold judgeTargets
  rw [wp_ite]
  refine ⟨fun _ => wp_bind_last fun _ _ => Or.inl rfl, fun _ => ?_⟩
  unfold recordFailure
  iterate 6 refine wp_bind_last fun _ _ => ?_
  exact Or.inr rfl

/-- What `target-post-build` leaves the status of the rule at, if it returns. -/
theorem targetPostBuild_status (r : RuleTarget) (rc : Nat) (w : World) :
    wp (targetPostBuild d E r rc)
      (fun _ w' => w'.rulestatus r = .built ∨ w'.rulestatus r = .failed)
      (fun _ _ => True) w := by
  refine wp_bind_last fun w _ => ?_
  split
  · trivial
  · next info _ =>
    refine wp_bind_last fun _ _ => wp_bind_last fun rc t => ?_
    rw [wp_bind]
    refine (judgeTargets_status info.rule r rc t).imp (fun st t hst => ?_) fun _ _ _ => trivial
    have hfin : wp (runFinally d E r st) (fun st _ => st = .built ∨ st = .failed)
        (fun _ _ => True) t := by
      refine wp_bind_last fun frc _ => ?_
      rw [wp_ite]
      exact ⟨fun _ => wp_bind_last fun _ _ => Or.inr rfl, fun _ => hst⟩
    rw [wp_bind]
    refine hfin.imp (fun st t hst => ?_) fun _ _ _ => trivial
    rw [wp_bind]
    unfold setRuleStatus
    rw [wp_modify, wp_modify]
    simpa using hst

/-! ## Running a rule -/

theorem recordCmds_quiet {r : RuleTarget} (cmds : List String) (hr : O r) :
    Within Stop.Deep (Quiet d E S O) (recordCmds d E r cmds) := by
  refine modifyCache_quiet fun c => ?_
  split
  · exact { Cache.Agree.of_eq (O := O) (c := c) rfl rfl rfl rfl rfl rfl with
      exec := fun _ hr' => AList.lookup_insert_ne fun h => hr' (h ▸ hr) }
  · exact refl_of _ _

theorem applyResult_quiet {tick : Nat} {r : RuleTarget} {part : Part} {fs : FS} (hr : O r) :
    Within Stop.Deep (Quiet d E S O) (applyResult d E r (E.exec tick r part fs)) :=
  Within.bind (recordCmds_quiet _ hr) fun _ => Within.bind (execPuts_quiet hr) fun _ =>
    Within.bind (buildErrorIf_quiet _) fun _ => Within.modify fun _ =>
      .of_eq rfl rfl rfl rfl rfl rfl rfl (refl_of _ _) rfl rfl rfl

theorem runMsg_quiet {r : RuleTarget} (hr : O r) :
    Within Stop.Deep (Quiet d E S O) (runMsg E r) :=
  Within.bind (emit_quiet rfl (by nofun)) fun _ => runDo_quiet _ hr

theorem prepareRule_quiet {r : Rule} (hr : O r.target) :
    Within Stop.Deep (Quiet d E S O) (prepareRule d E r) := by
  refine Within.bind (Within.ite (fun _ => buildFatalError_quiet nofun) fun _ => Within.pure _) fun _ => ?_
  refine Within.bind (modifyCache_quiet fun c => ?_) fun _ => ?_
  · split
    · exact { Cache.Agree.of_eq (O := O) (c := c) rfl rfl rfl rfl rfl rfl with
        exec := fun _ hr' => AList.lookup_erase_ne fun h => hr' (h ▸ hr) }
    · exact refl_of _ _
  · exact Within.bind (runMsg_quiet hr) fun _ => buildErrorIf_quiet _

theorem dryRun_quiet (r : Rule) (vardict : List (String × String)) :
    Within Stop.Deep (Quiet d E S O) (dryRun d r vardict) :=
  Within.ite (fun _ => Within.bind (substDoOrExit_quiet _ _) fun _ => Within.pure _)
    fun _ => Within.pure _

theorem depFailed_quiet (ret : Status) : Within Stop.Deep (Quiet d E S O) (depFailed d E ret) :=
  Within.bind checkSignal_quiet fun _ => Within.ite
    (fun _ => Within.bind Within.get fun _ => Within.bind (buildErrorIf_quiet _) fun _ =>
      Within.ite (fun _ => tmakeExit_quiet _ nofun) fun _ => Within.pure _)
    fun _ => Within.pure _

theorem endForeground_quiet {r : Rule} (rc : Nat) (hS : S r.target) (hO : O r.target) :
    Within Stop.Deep (Quiet d E S O) (endForeground d E r rc) :=
  Within.bind checkSignal_quiet fun _ => Within.bind (targetPostBuild_quiet rc hS hO) fun _ =>
    Within.pure _

theorem lookupFailed_quiet : Within Stop.Deep (Quiet d E S O) (lookupFailed d) :=
  Within.ite (fun _ => tmakeExit_quiet _ nofun) fun _ => buildError_quiet

/-- A look-up whose target, if it is one, has been built. -/
theorem lookupFile_quiet (status : Status) (f : Name) :
    Within Stop.Deep (Quiet d E S O) (lookupFile d (fun _ => return status) f) :=
  Within.ite
    (fun _ => Within.bind (Within.pure _) fun _ => Within.ite
      (fun _ => Within.bind Within.get fun _ => Within.pure _)
      fun _ => Within.bind lookupFailed_quiet fun _ => Within.pure _)
    fun _ => Within.bind Within.get fun _ => Within.pure _

/-! ## Waiting for a job -/

/-- The later moments show no `-do` list that begins, and at most `b` jobs. -/
def Extends (b : Nat) (tr tr' : List Moment) : Prop :=
  ∃ l, tr' = l ++ tr ∧ ∀ m ∈ l, m.event.started? = none ∧ m.core.running.length ≤ b

theorem Extends.refl (b : Nat) (tr : List Moment) : Extends b tr tr :=
  ⟨[], rfl, fun _ hm => absurd hm List.not_mem_nil⟩

theorem Extends.trans {b : Nat} {tr tr' tr'' : List Moment} (h : Extends b tr tr')
    (h' : Extends b tr' tr'') : Extends b tr tr'' := by
  obtain ⟨l, hl, hm⟩ := h
  obtain ⟨l', hl', hm'⟩ := h'
  refine ⟨l' ++ l, by rw [hl', hl, List.append_assoc], fun m hmem => ?_⟩
  exact (List.mem_append.mp hmem).elim (hm' m) (hm m)

theorem Extends.cons {b : Nat} {tr tr' : List Moment} (h : Extends b tr tr') {m : Moment}
    (hm : m.event.started? = none) (hb : m.core.running.length ≤ b) : Extends b tr (m :: tr') :=
  h.trans ⟨[m], rfl, fun _ hm' => List.mem_singleton.mp hm' ▸ ⟨hm, hb⟩⟩

theorem Extends.starts {b : Nat} {tr tr' : List Moment} (h : Extends b tr tr') :
    starts tr' = starts tr := by
  obtain ⟨l, hl, hm⟩ := h
  have : Tmake.starts l = [] := List.filterMap_eq_nil_iff.mpr fun m hmem => (hm m hmem).1
  rw [hl, starts_append, this, List.nil_append]

theorem Quiet.extends {b : Nat} (h : Quiet d E S O w w') (hb : w.running.length ≤ b) :
    Extends b w.trace w'.trace := by
  obtain ⟨l, hl, hm⟩ := h.trace
  exact ⟨l, hl, fun m hmem => ⟨(hm m hmem).1, by rw [(hm m hmem).2.2]; exact hb⟩⟩

/-- It has just been noted that a background job failed. -/
def World.Noted (w : World) : Prop :=
  ∃ m ∈ w.trace, (∃ r n, m.event = .notified r n) ∧ m.core.running = w.running

/-- A job has been reaped: its rule has a final status and the rule it notifies has been told. -/
structure Waited (w w' : World) : Prop where
  reaped : ∃ (i : Nat) (job : Job) (st st' : Status), w.running[i]? = some job ∧
    w'.running = w.running.eraseIdx i ∧ (st = .built ∨ st = .failed) ∧
    w'.rulestatus = Function.update (Function.update w.rulestatus job.ruletarget st)
      job.notifytarget st' ∧
    (st' = Function.update w.rulestatus job.ruletarget st job.notifytarget ∨
      Function.update w.rulestatus job.ruletarget st job.notifytarget = .waiting ∧
        st' = .unknown ∨
      st' = .failed ∧ w'.Noted)
  targetstatus : w'.targetstatus = w.targetstatus
  current : w'.current = w.current
  trace : Extends w.running.length w.trace w'.trace

theorem reapJob_spec (i : Nat) (job : Job) (w : World) :
    wp (reapJob d i job)
      (fun _ w' => w'.rulestatus = w.rulestatus ∧ w'.targetstatus = w.targetstatus ∧
        w'.current = w.current ∧ w'.running = w.running.eraseIdx i ∧ w'.trace = w.trace)
      (fun _ _ => False) w := by
  unfold reapJob putFiles buildErrorIf buildError
  simp only [wp_bind, wp_modify]
  split <;> exact ⟨rfl, rfl, rfl, rfl, rfl⟩

/-- No job was started and no `-do` list began. -/
structure Calm (w w' : World) : Prop where
  running : w'.running.length ≤ w.running.length
  trace : Extends w.running.length w.trace w'.trace

instance : IsPreorder World Calm where
  refl w := ⟨le_rfl, .refl _ _⟩
  trans a b c h h' := by
    refine ⟨h'.running.trans h.running, h.trace.trans ?_⟩
    obtain ⟨l, hl, hm⟩ := h'.trace
    exact ⟨l, hl, fun m hmem => ⟨(hm m hmem).1, (hm m hmem).2.trans h.running⟩⟩

theorem Quiet.calm (h : Quiet d E S O w w') : Calm w w' :=
  ⟨by rw [h.running], h.extends le_rfl⟩

theorem Waited.calm (h : Waited w w') : Calm w w' := by
  obtain ⟨i, job, st, st', hi, hr, -⟩ := h.reaped
  exact ⟨by rw [hr]; exact List.length_eraseIdx_le w.running i, h.trace⟩

/-- `build-fatal-error` does not return. -/
theorem buildFatalError_stops {α : Type} (why : Why) (w : World) :
    wp (buildFatalError d why : M α) (fun _ _ => False)
      (fun e w' => e = .exit 1 why ∧ Calm w w') w := by
  unfold buildFatalError buildError tmakeExit emit
  simp only [wp_bind, wp_modify, wp_throw]
  exact ⟨trivial, le_rfl, (Extends.refl _ _).cons rfl le_rfl⟩

theorem notifyJob_spec (job : Job) (w : World) :
    wp (notifyJob d job)
      (fun _ w' => w'.targetstatus = w.targetstatus ∧ w'.current = w.current ∧
        w'.running = w.running ∧ Extends w.running.length w.trace w'.trace ∧
        ∃ st', w'.rulestatus = Function.update w.rulestatus job.notifytarget st' ∧
          (st' = w.rulestatus job.notifytarget ∨
            w.rulestatus job.notifytarget = .waiting ∧ st' = .unknown ∨
            st' = .failed ∧ w'.Noted))
      (fun e w' => ¬e.Deep ∧ Calm w w') w := by
  unfold notifyJob
  rw [wp_ite]
  refine ⟨fun _ => ?_, fun _ => ?_⟩
  · rw [wp_modify]
    refine ⟨rfl, rfl, rfl, .refl _ _, ?_⟩
    dsimp only
    split
    · next h => exact ⟨.unknown, rfl, Or.inr (Or.inl ⟨h.2, rfl⟩)⟩
    · exact ⟨_, (Function.update_eq_self _ _).symm, Or.inl rfl⟩
  · unfold emit setRuleStatus
    simp only [wp_bind, wp_modify, wp_ite, wp_get, wp_pure]
    have htr : Extends w.running.length w.trace
        (⟨.notified job.ruletarget job.notifytarget, w.toCore⟩ :: w.trace) :=
      (Extends.refl _ _).cons rfl le_rfl
    refine ⟨fun _ => ?_, fun _ => ?_⟩
    · exact ⟨Stop.not_deep_exit (by decide), le_rfl, htr.cons rfl le_rfl⟩
    · exact ⟨trivial, trivial, trivial, htr, .failed, rfl,
        Or.inr (Or.inr ⟨rfl, _, List.mem_cons_self, ⟨_, _, rfl⟩, rfl⟩)⟩

/-- `wait-for-one-job` does nothing without jobs, and else reaps one of them. -/
theorem waitForOneJob_spec (w : World) :
    wp (waitForOneJob d E) (fun _ w' => w.running = [] ∧ w' = w ∨ Waited w w')
      (fun e w' => ¬e.Deep ∧ Calm w w') w := by
  unfold waitForOneJob
  rw [wp_bind, wp_get]
  split
  · next h => exact Or.inl ⟨h, rfl⟩
  · next first jobs h =>
    have hlt : E.pick w.tick % (first :: jobs).length < w.running.length := by
      rw [h]
      exact Nat.mod_lt _ (Nat.succ_pos _)
    rw [wp_bind]
    unfold ask
    rw [wp_modifyGet]
    dsimp only
    generalize E.pick w.tick % (first :: jobs).length = i at hlt
    have hjob : w.running[i]? = some (((first :: jobs)[i]?).getD first) := by
      rw [← h, List.getElem?_eq_getElem hlt, Option.getD_some]
    generalize ((first :: jobs)[i]?).getD first = job at hjob
    rw [wp_bind]
    refine (reapJob_spec i job _).imp (fun _ w1 h1 => ?_) (fun _ _ h1 => h1.elim)
    obtain ⟨hs1, ht1, hc1, hr1, htr1⟩ := h1
    have hcalm1 : Calm w w1 :=
      ⟨by rw [hr1]; exact List.length_eraseIdx_le _ _, by rw [htr1]; exact .refl _ _⟩
    rw [wp_bind]
    have h2 := (targetPostBuild_quiet (d := d) (E := E) (S := (· = job.ruletarget))
      (O := (· = job.ruletarget)) (if job.ok then 0 else 1) rfl rfl w1).and
      (targetPostBuild_status job.ruletarget (if job.ok then 0 else 1) w1)
    refine h2.imp (fun _ w2 h2 => ?_) fun _ _ h2 =>
      ⟨h2.1.1, trans_of Calm hcalm1 h2.1.2.calm⟩
    obtain ⟨hq, hst⟩ := h2
    have hcalm2 : Calm w w2 := trans_of Calm hcalm1 hq.calm
    have hs2 : w2.rulestatus = Function.update w.rulestatus job.ruletarget
        (w2.rulestatus job.ruletarget) := by
      funext r
      by_cases hr : r = job.ruletarget
      · subst hr
        rw [Function.update_self]
      · rw [Function.update_of_ne hr, hq.rulestatus r hr, hs1]
    rw [wp_bind]
    refine (notifyJob_spec job w2).imp (fun _ w3 h3 => ?_) fun _ _ h3 =>
      ⟨h3.1, trans_of Calm hcalm2 h3.2⟩
    obtain ⟨ht3, hc3, hr3, htr3, st', hs3, hst'⟩ := h3
    rw [wp_pure]
    refine Or.inr ⟨⟨i, job, _, st', hjob, ?_, hst, hs2 ▸ hs3, hs2 ▸ hst'⟩, ?_, ?_, ?_⟩
    · rw [hr3, hq.running, hr1]
    · rw [ht3, hq.targetstatus, ht1]
    · rw [hc3, hq.current, hc1]
    · refine hcalm2.trace.trans ?_
      obtain ⟨l, hl, hm⟩ := htr3
      exact ⟨l, hl, fun m hmem => ⟨(hm m hmem).1, (hm m hmem).2.trans hcalm2.running⟩⟩

/-- What a background job writes are the writings of its scripts. -/
theorem childScripts_puts (r : Rule) {P : Path × Option Node → Prop}
    (hP : ∀ tick i fs, ∀ x ∈ (E.exec tick r.target (.script i) fs).puts, P x) (tick i : Nat)
    (scripts : List Script) (fs : FS) :
    ∀ x ∈ (childScripts E r tick i scripts fs).2.2.1, P x := by
  induction scripts generalizing tick i fs with
  | nil => exact fun _ hx => absurd hx List.not_mem_nil
  | cons s scripts ih =>
    unfold childScripts
    dsimp only
    split
    · exact hP tick i fs
    · intro x hx
      rcases List.mem_append.mp hx with hx | hx
      · exact hP tick i fs x hx
      · exact ih _ _ _ x hx

end Tmake
