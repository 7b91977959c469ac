import TmakeProof.Existence
import TmakeProof.Invariant
import TmakeProof.Respect

/-! # What takes files away

A target file that exists can go in three ways: a script removes it, or the job
of its rule does when it is reaped, or `target-post-build` deletes it because its
rule has failed.  `Considerate` scripts leave alone what is not theirs, and then a
step for a rule spares the files of all others (`Sparing`).
-/
namespace Tmake
open Weakest

/-! ## Files that exist -/

/-- Every target file of the rule exists. -/
def Desc.Made (d : Desc) (r : Rule) (fs : FS) : Prop := ∀ p ∈ d.files r, fs.present p r.symlink

/-- A name that some rule needs and no rule makes. -/
def Desc.Source (d : Desc) (t : Name) : Prop := d.ruleFor t = none ∧ ∃ r ∈ d.rules, r.NeedsName t

/-- `calc-file-hash` finds a file for the name. -/
def Desc.Hashable (d : Desc) (fs : FS) (t : Name) : Prop :=
  match d.ruleFor t with
  | some _ => fs (d.fileBuild (d.mapAlias t)) ≠ none
  | none => fs.exists? t = true

/-- What is there stays there, but for the targets of the rules in `O`. -/
structure FS.Spared (d : Desc) (O : RuleTarget → Prop) (fs fs' : FS) : Prop where
  rules : ∀ r ∈ d.rules, r.phony = false → ¬O r.target → d.Made r fs → d.Made r fs'
  sources : ∀ t, d.Source t → fs.exists? t = true → fs'.exists? t = true

/-- Scripts that leave alone what is not theirs: none takes away a target of another rule, or a
source; a `-finally` script takes away no target at all; and no two rules, and no rule and a
source, are the same file. -/
structure Considerate (d : Desc) (E : Env) : Prop where
  rules : ∀ tick r part fs, ∀ s ∈ d.rules, s.phony = false → r ≠ s.target ∨ part = .finally →
    ∀ fs', d.Made s fs' → d.Made s (fs'.putAll (E.exec tick r part fs).puts)
  sources : ∀ tick r part fs t, d.Source t →
    ∀ fs' : FS, fs'.exists? t = true → (fs'.putAll (E.exec tick r part fs).puts).exists? t = true
  apart : ∀ r ∈ d.rules, ∀ s ∈ d.rules, s.phony = false → r.target ≠ s.target →
    ∀ p ∈ d.files r, p ∉ d.files s
  outside : ∀ r ∈ d.rules, ∀ t, d.Source t → t ∉ d.files r

section Files
variable {d : Desc} {E : Env} {O : RuleTarget → Prop} {r : Rule} {fs fs' : FS}

theorem Desc.made_of_exists (h : fileExistsAll d fs r = true) : d.Made r fs := by
  intro p hp
  have hmtime : fileMtimeIfExists fs p r.symlink ≠ 0 := by
    simpa using List.all_eq_true.mp h p hp
  exact (FS.fileMtimeIfExists_ne_zero.mp hmtime).present

theorem fileExistsAll_of_dated (h : ∀ f ∈ r.target, fs.Dated (d.fileBuild f) r.symlink) :
    fileExistsAll d fs r = true := by
  apply List.all_eq_true.mpr
  intro p hp
  obtain ⟨f, hf, rfl⟩ := List.mem_map.mp hp
  simpa using FS.fileMtimeIfExists_ne_zero.mpr (h f hf)

theorem dated_of_fileExistsAll (h : fileExistsAll d fs r = true) :
    ∀ f ∈ r.target, fs.Dated (d.fileBuild f) r.symlink := by
  intro f hf
  have := List.all_eq_true.mp h _ (List.mem_map_of_mem hf)
  exact FS.fileMtimeIfExists_ne_zero.mp (by simpa using this)

theorem FS.ne_none_of_present {p : Path} {symlink : Bool} (h : fs.present p symlink = true) :
    fs p ≠ none := by
  intro hnone
  unfold FS.present FS.exists? FS.stat at h
  cases symlink <;> simp [hnone] at h

theorem Desc.Made.hashable (h : d.Made r fs) {t : Name} (ht : d.ruleFor t = some r) :
    d.Hashable fs t := by
  unfold Desc.Hashable
  rw [ht]
  exact FS.ne_none_of_present (h _ (List.mem_map_of_mem (d.ruleFor_target ht)))

/-- Whether a file is there is a matter of its own node. -/
theorem Desc.Made.of_same (h : d.Made r fs) (hsame : ∀ p ∈ d.files r, fs' p = fs p) :
    d.Made r fs' := by
  intro p hp
  have := h p hp
  unfold FS.present FS.exists? FS.stat at this ⊢
  rw [hsame p hp]
  exact this

instance : IsPreorder FS (FS.Spared d O) where
  refl _ := ⟨fun _ _ _ _ h => h, fun _ _ h => h⟩
  trans _ _ _ h h' :=
    ⟨fun r hr hp hO hm => h'.rules r hr hp hO (h.rules r hr hp hO hm),
     fun t ht he => h'.sources t ht (h.sources t ht he)⟩

/-- A script takes away at most targets of its own rule. -/
theorem Considerate.exec (hE : Considerate d E) (tick : Nat) {rt : RuleTarget} {part : Part}
    (hO : O rt ∨ part = .finally) (fs fs' : FS) :
    FS.Spared d O fs' (fs'.putAll (E.exec tick rt part fs).puts) := by
  refine ⟨fun s hs hp hOs hm => hE.rules tick rt part fs s hs hp ?_ fs' hm,
    fun t ht he => hE.sources tick rt part fs t ht fs' he⟩
  refine hO.imp (fun hrt he => ?_) id
  exact hOs (he ▸ hrt)

/-- When a rule fails, its own targets are deleted. -/
theorem Considerate.delete (hE : Considerate d E) (hr : r ∈ d.rules) (hO : O r.target) (fs : FS) :
    FS.Spared d O fs (fs.putAll (r.target.map fun f => (d.fileBuild f, none))) := by
  have hother : ∀ p, p ∉ d.files r →
      fs.putAll (r.target.map fun f => (d.fileBuild f, none)) p = fs p := by
    intro p hp
    apply FS.putAll_of_notMem
    intro x hx hxp
    obtain ⟨f, hf, rfl⟩ := List.mem_map.mp hx
    exact hp (hxp ▸ List.mem_map_of_mem hf)
  constructor
  · intro s hs hphony hOs hm
    have hne : r.target ≠ s.target := fun he => hOs (he ▸ hO)
    apply hm.of_same
    intro p hp
    exact hother p fun hpr => hE.apart r hr s hs hphony hne p hpr hp
  · intro t ht he
    unfold FS.exists? FS.stat at he ⊢
    rw [hother t (hE.outside r hr t ht)]
    exact he

/-- What a forked child writes is what its scripts write, one after the other. -/
theorem Considerate.child (hE : Considerate d E) (hO : O r.target) (tick i : Nat)
    (scripts : List Script) (fs fs' : FS) :
    FS.Spared d O fs' (fs'.putAll (childScripts E r tick i scripts fs).2.2.1) := by
  induction scripts generalizing tick i fs fs' with
  | nil => exact refl_of _ _
  | cons s scripts ih =>
    have hfirst : FS.Spared d O fs' (fs'.putAll (E.exec tick r.target (.script i) fs).puts) :=
      hE.exec tick (Or.inl hO) fs fs'
    unfold childScripts
    dsimp only
    split
    · exact hfirst
    · rw [FS.putAll, List.foldl_append]
      exact trans_of (FS.Spared d O) hfirst (ih _ _ _ _)

end Files

/-! ## Hashing the dependencies -/

section Hash
variable {d : Desc} {E : Env} {w : World}

theorem wp_getFileHash (file : Path) (usehashes : Bool) (w : World) :
    wp (getFileHash d E file usehashes)
      (fun _ w' => w'.fs = w.fs ∧ w.fs.exists? file = true) (fun _ _ => w.fs.exists? file ≠ true)
      w := by
  unfold getFileHash FS.exists?
  rw [wp_bind, wp_get]
  cases hs : w.fs.stat file with
  | none => simp [tclError, emit]
  | some seen =>
    obtain ⟨mtime, content⟩ := seen
    dsimp only
    rw [wp_ite]
    refine ⟨fun _ => ⟨rfl, rfl⟩, fun _ => ?_⟩
    cases w.cache.srchash.lookup file with
    | none => exact ⟨rfl, rfl⟩
    | some cached =>
      dsimp only
      rw [wp_ite]
      exact ⟨fun _ => ⟨rfl, rfl⟩, fun _ => ⟨rfl, rfl⟩⟩

/-- `calc-file-hash` raises an error exactly if there is no file. -/
theorem wp_calcFileHash (hn : d.norun = 0) (t : Name) (w : World) :
    wp (calcFileHash d E t) (fun _ w' => w'.fs = w.fs ∧ d.Hashable w.fs t)
      (fun _ _ => ¬d.Hashable w.fs t) w := by
  unfold calcFileHash Desc.Hashable
  cases d.ruleFor t with
  | none => exact wp_getFileHash t false w
  | some r =>
    dsimp only
    rw [wp_bind, wp_get]
    cases hnode : w.fs (d.fileBuild (d.mapAlias t)) with
    | none => simp [hn, tclError, emit]
    | some node =>
      cases node with
      | link text lmtime seen => exact ⟨rfl, by simp⟩
      | file mtime content =>
        dsimp only
        rw [wp_ite]
        refine ⟨fun _ => ?_, fun _ => ⟨rfl, by simp⟩⟩
        have hthere : w.fs.exists? (d.fileBuild (d.mapAlias t)) = true := by
          simp [FS.exists?, FS.stat, hnode]
        apply (wp_getFileHash (d.fileBuild (d.mapAlias t)) true w).imp
        · exact fun _ _ h => ⟨h.1, by simp⟩
        · exact fun _ _ h => absurd hthere h

theorem wp_calcHashes (hn : d.norun = 0) (l : List Name) (w : World) :
    wp (calcHashes d E l) (fun _ w' => w'.fs = w.fs ∧ ∀ t ∈ l, d.Hashable w.fs t)
      (fun _ _ => ¬∀ t ∈ l, d.Hashable w.fs t) w := by
  induction l generalizing w with
  | nil => exact ⟨rfl, fun _ h => absurd h List.not_mem_nil⟩
  | cons t l ih =>
    unfold calcHashes
    rw [wp_bind]
    apply (wp_calcFileHash hn t w).imp ?_ fun _ _ h hall => h (hall t List.mem_cons_self)
    rintro stamp w₁ ⟨hfs, ht⟩
    rw [wp_bind]
    apply (ih w₁).imp
    · rintro rest w₂ ⟨hfs₂, hl⟩
      rw [hfs] at hfs₂ hl
      exact ⟨hfs₂, List.forall_mem_cons.mpr ⟨ht, hl⟩⟩
    · intro _ _ h hall
      rw [hfs] at h
      exact h fun u hu => hall u (List.mem_cons_of_mem _ hu)

/-- `calc-deplist-hash` returns exactly if there is a file for every name. -/
theorem calcDeplistHash_returns_iff (hn : d.norun = 0) (l : List Name) (w : World) :
    wp (calcDeplistHash d E l) (fun _ _ => True) (fun _ _ => False) w ↔
      ∀ t ∈ l, d.Hashable w.fs t := by
  have hmem : (∀ t ∈ lsort l, d.Hashable w.fs t) ↔ ∀ t ∈ l, d.Hashable w.fs t := by
    simp [lsort, (List.perm_insertionSort _ l).mem_iff]
  rw [← hmem]
  apply (wp_calcHashes hn (lsort l) w).iff
  · exact fun _ _ h => iff_of_true trivial h.2
  · exact fun _ _ h => iff_of_false id h

end Hash

/-! ## What a step takes away -/

/-- Between the two states no file has gone but targets of rules in `O`, no other rule has been
settled, and no job or record of a rule being built has been added. -/
structure Sparing (d : Desc) (O : RuleTarget → Prop) (w w' : World) : Prop where
  fs : FS.Spared d O w.fs w'.fs
  settled : ∀ rt, ¬O rt → (w'.rulestatus rt).done = true → (w.rulestatus rt).done = true
  targetstatus : w'.targetstatus = w.targetstatus
  precache : ∀ rt info, w'.precache rt = some info → w.precache rt = some info
  running : ∀ job ∈ w'.running, job ∈ w.running

section Sparing
variable {d : Desc} {E : Env} {O : RuleTarget → Prop} {w w' : World}

instance : IsPreorder World (Sparing d O) where
  refl _ := ⟨refl_of _ _, fun _ _ h => h, rfl, fun _ _ h => h, fun _ h => h⟩
  trans _ _ _ h h' :=
    ⟨trans_of (FS.Spared d O) h.fs h'.fs,
     fun rt hO hd => h.settled rt hO (h'.settled rt hO hd),
     h'.targetstatus.trans h.targetstatus,
     fun rt info hi => h.precache rt info (h'.precache rt info hi),
     fun job hj => h.running job (h'.running job hj)⟩

/-- Only the cache, the exit code, the clock, the trace or the like has changed. -/
theorem Sparing.of_eq (hf : w'.fs = w.fs) (hs : w'.rulestatus = w.rulestatus)
    (ht : w'.targetstatus = w.targetstatus) (hp : w'.precache = w.precache)
    (hr : w'.running = w.running) : Sparing d O w w' := by
  refine ⟨hf ▸ refl_of _ _, fun rt _ h => ?_, ht, fun rt info h => ?_, fun job h => hr ▸ h⟩
  · rwa [hs] at h
  · rwa [hp] at h

theorem Sparing.puts {puts : List (Path × Option Node)}
    (h : FS.Spared d O w.fs (w.fs.putAll puts)) :
    Sparing d O w { w with fs := w.fs.putAll puts } :=
  ⟨h, fun _ _ h => h, rfl, fun _ _ h => h, fun _ h => h⟩

theorem Sparing.modifyCache (f : Cache → Cache) : Under (Sparing d O) (modifyCache f) :=
  Within.modify fun _ => .of_eq rfl rfl rfl rfl rfl

theorem Sparing.emit (e : Event) : Under (Sparing d O) (emit e) :=
  Within.modify fun _ => .of_eq rfl rfl rfl rfl rfl

theorem Sparing.elementary : Elementary d (Sparing d O) where
  ask _ := Within.modifyGet fun _ => .of_eq rfl rfl rfl rfl rfl
  stopped := Sparing.emit _
  error := Within.modify fun _ => .of_eq rfl rfl rfl rfl rfl

theorem Sparing.runDo (hE : Considerate d E) {rt : RuleTarget} {part : Part}
    (hO : O rt ∨ part = .finally) : Under (Sparing d O) (runDo E rt part) := by
  intro w
  have hask : Sparing d O w { w with tick := w.tick + 1 } := .of_eq rfl rfl rfl rfl rfl
  have hputs : Sparing d O { w with tick := w.tick + 1 } { w with
      tick := w.tick + 1, fs := w.fs.putAll (E.exec w.tick rt part w.fs).puts } :=
    Sparing.puts (hE.exec w.tick hO w.fs w.fs)
  exact trans_of (Sparing d O) hask hputs

theorem Sparing.hashes {T : Name → Prop} : Hashes d T (Sparing d O) where
  toElementary := Sparing.elementary
  srchash _ _ := Sparing.modifyCache _
  dephash _ _ := Sparing.modifyCache _

/-- The checks take nothing away. -/
theorem checkRule_sparing {r : Rule} {t : Name} (ht : d.ruleFor t = some r) (dyn : List Name)
    (st : Status) : Under (Sparing d O) (checkRule d E r t (d.vardict r) dyn st) :=
  (Sparing.hashes (T := fun _ => True)).checkRule ⟨trivial, ht⟩ dyn st

theorem prepareRule_sparing (hE : Considerate d E) {r : Rule} {t : Name}
    (ht : d.ruleFor t = some r) (hO : O r.target) :
    Under (Sparing d O) (prepareRule d E r) := by
  have hmsg : ∀ {s u}, d.Within (· = t) u s → Under (Sparing d O) (runMsg E s.target) := by
    rintro s u ⟨rfl, hs⟩
    rw [ht] at hs
    obtain rfl := Option.some.inj hs
    exact Within.bind (Sparing.emit _) fun _ => Sparing.runDo hE (.inl hO)
  have hchecks : Checks d E (· = t) (Sparing d O) :=
    { Sparing.hashes with
      forget := fun _ => Sparing.modifyCache _
      msg := hmsg }
  exact hchecks.prepareRule ⟨rfl, ht⟩

theorem applyResult_sparing (hE : Considerate d E) (tick i : Nat) {rt : RuleTarget} (hO : O rt)
    (fs : FS) : Under (Sparing d O) (applyResult d E rt (E.exec tick rt (.script i) fs)) := by
  refine Within.bind (Sparing.modifyCache _) fun _ => Within.bind ?_ fun _ => ?_
  · exact Within.modify fun _ => Sparing.puts (hE.exec tick (.inl hO) fs _)
  · exact Within.bind (Sparing.elementary.errorIf _) fun _ =>
      Within.modify fun _ => .of_eq rfl rfl rfl rfl rfl

theorem finishing_sparing (hE : Considerate d E) {r : Rule} (hr : r ∈ d.rules)
    (hO : O r.target) : Finishing d E r.target (Sparing d O) where
  toElementary := Sparing.elementary
  succeeded := Sparing.emit _
  failed := Sparing.emit _
  cache := Sparing.modifyCache
  delete := Within.modify fun _ => Sparing.puts (hE.delete hr hO _)
  onerror := Sparing.runDo hE (.inl hO)
  ending := Sparing.runDo hE (.inl hO)
  count _ := Within.modify fun _ => .of_eq rfl rfl rfl rfl rfl
  status st := Within.modify fun w => by
    refine ⟨refl_of _ _, fun rt hrt h => ?_, rfl, fun _ _ h => h, fun _ h => h⟩
    have hne : rt ≠ r.target := fun he => hrt (he ▸ hO)
    simpa [Function.update_of_ne hne] using h
  forget := Within.modify fun w => by
    refine ⟨refl_of _ _, fun _ _ h => h, rfl, fun rt info h => ?_, fun _ h => h⟩
    by_cases he : rt = r.target
    · subst he
      simp at h
    · simpa [Function.update_of_ne he] using h

/-- The rule that is notified is not settled by it. -/
theorem notifyJob_sparing (job : Job) : Under (Sparing d O) (notifyJob d job) := by
  have hstatus : ∀ (w : World) st, st.done = false → ∀ rt,
      (Function.update w.rulestatus job.notifytarget st rt).done = true →
        (w.rulestatus rt).done = true := by
    intro w st hst rt h
    by_cases he : rt = job.notifytarget
    · subst he
      rw [Function.update_self, hst] at h
      cases h
    · rwa [Function.update_of_ne he] at h
  apply Within.ite
  · intro _
    apply Within.modify
    intro w
    refine ⟨refl_of _ _, fun rt _ h => ?_, rfl, fun _ _ h => h, fun _ h => h⟩
    dsimp only at h
    split at h
    · exact hstatus w .unknown rfl rt h
    · exact h
  · intro _
    refine Within.bind (Sparing.emit _) fun _ => Within.bind (Within.modify fun w => ?_) fun _ => ?_
    · exact ⟨refl_of _ _, fun rt _ h => hstatus w .failed rfl rt h, rfl, fun _ _ h => h,
        fun _ h => h⟩
    · exact Within.ite (fun _ => Within.bind Within.get fun _ => Sparing.elementary.exit _ _)
        fun _ => Within.pure _

end Sparing

/-! ## Finishing a rule -/

section Finishing
variable {d : Desc} {E : Env} {r : Rule}

/-- `target-post-build` calls the rule built only if it finds all files, or is cleaning and does
not look for them. -/
theorem recordBuilt_finds {info : PreInfo} (hrule : info.rule = r) (hphony : r.phony = false)
    (rc : Nat) (w : World) :
    wp (recordBuilt d info r.target rc)
      (fun rc' w' => (rc = 0 ∧ fileExistsAll d w.fs r = true → rc' = 0) ∧
        (rc' = 0 → rc = 0 ∧ w'.fs = w.fs ∧ (w.cleaning = true ∨ fileExistsAll d w.fs r = true)))
      (fun _ _ => True) w := by
  unfold recordBuilt
  simp only [wp_bind, wp_get, wp_ite, hrule, hphony]
  constructor
  · intro hc
    have h0 : rc = 0 := by
      simp only [Bool.and_eq_true, decide_eq_true_eq] at hc
      exact hc.1.1
    apply (wp_recordTargets d r r.target r.target rc w).imp ?_ fun _ _ h => h.elim
    rintro rc' w₁ ⟨h3, hsame⟩
    have hafter : wp (substDoOrExit d info.vardict r.doList)
        (fun _ w₂ => w₂.fs = w₁.fs) (fun _ _ => True) w₁ := by
      unfold substDoOrExit
      split
      · exact rfl
      · trivial
    rw [wp_bind]
    refine hafter.imp (fun cmd w₂ hfs => ?_) fun _ _ h => h
    show (_ → rc' = 0) ∧ (rc' = 0 → rc = 0 ∧ w₂.fs = w.fs ∧ _)
    constructor
    · intro h
      rw [(hsame (dated_of_fileExistsAll h.2)).1]
      exact h.1
    · intro hrc'
      have hall : ∀ f ∈ r.target, w.fs.Dated (d.fileBuild f) r.symlink := by
        by_contra hnot
        push Not at hnot
        have : rc' = 3 := h3.2 (Or.inr hnot)
        omega
      obtain ⟨-, c, rfl⟩ := hsame hall
      exact ⟨h0, hfs, Or.inr (fileExistsAll_of_dated hall)⟩
  · intro hc
    show (_ → rc = 0) ∧ (rc = 0 → rc = 0 ∧ w.fs = w.fs ∧ _)
    refine ⟨fun h => h.1, fun h0 => ⟨h0, rfl, ?_⟩⟩
    by_contra hnone
    push Not at hnone
    apply hc
    simpa [h0] using hnone.1

/-- `-finally` makes no rule built, and takes none of its files away. -/
theorem runFinally_made (hE : Considerate d E) (hr : r ∈ d.rules) (hphony : r.phony = false)
    (st : Status) (w : World) :
    wp (runFinally d E r.target st)
      (fun st' w' => (st' = .built → st = .built) ∧ (d.Made r w.fs → d.Made r w'.fs))
      (fun _ _ => True) w := by
  have hspared : Under (Sparing d fun _ => False) (runDo E r.target .finally) :=
    Sparing.runDo hE (.inr rfl)
  unfold runFinally
  rw [wp_bind]
  refine (hspared w).imp (fun frc w' hs => ?_) fun _ _ _ => trivial
  have hmade := hs.fs.rules r hr hphony id
  rw [wp_ite]
  exact ⟨fun _ => ⟨(nomatch ·), hmade⟩, fun _ => ⟨id, hmade⟩⟩

/-- After `target-post-build` the files are there, if they were all found, or if the rule counts
as built and they were there while cleaning. -/
theorem targetPostBuild_made (hE : Considerate d E) (hr : r ∈ d.rules) (hphony : r.phony = false)
    (rc : Nat) {w : World} (hpre : ∀ info, w.precache r.target = some info → info.rule = r)
    (hclean : rc = 0 → w.cleaning = true → d.Made r w.fs) :
    wp (targetPostBuild d E r.target rc)
      (fun _ w' => rc = 0 ∧ fileExistsAll d w.fs r = true ∨ w'.rulestatus r.target = .built →
        d.Made r w'.fs)
      (fun _ _ => True) w := by
  unfold targetPostBuild
  rw [wp_bind, wp_get]
  cases hinfo : w.precache r.target with
  | none => trivial
  | some info =>
    have hrule := hpre info hinfo
    dsimp only
    have hnote : wp (noteSuccess r.target rc) (fun _ w₁ => w₁.fs = w.fs ∧ w₁.cleaning = w.cleaning)
        (fun _ _ => True) w := by
      unfold noteSuccess
      rw [wp_ite]
      exact ⟨fun _ => ⟨rfl, rfl⟩, fun _ => ⟨rfl, rfl⟩⟩
    rw [wp_bind]
    apply hnote.imp ?_ fun _ _ h => h
    rintro - w₁ ⟨hfs₁, hclean₁⟩
    rw [wp_bind]
    apply (recordBuilt_finds hrule hphony rc w₁).imp ?_ fun _ _ h => h
    rintro rc' w₂ ⟨hall, hfound⟩
    rw [hfs₁] at hall hfound
    rw [hclean₁] at hfound
    -- what `-finally` and the rest leave of a verdict
    have hrest : ∀ (st : Status) (w₃ : World),
        (rc = 0 ∧ fileExistsAll d w.fs r = true ∨ st = .built → d.Made r w₃.fs) →
        wp (do let st ← runFinally d E r.target st
               setRuleStatus r.target st
               modify fun w => { w with precache := Function.update w.precache r.target none })
          (fun _ w' => rc = 0 ∧ fileExistsAll d w.fs r = true ∨ w'.rulestatus r.target = .built →
            d.Made r w'.fs) (fun _ _ => True) w₃ := by
      intro st w₃ hst
      rw [wp_bind]
      apply (runFinally_made hE hr hphony st w₃).imp ?_ fun _ _ h => h
      rintro st' w₄ ⟨hback, hmade⟩
      show _ → d.Made r w₄.fs
      intro h
      apply hmade
      apply hst
      apply h.imp id
      intro hbuilt
      exact hback ((Function.update_self ..).symm.trans hbuilt)
    rw [wp_bind]
    unfold judgeTargets
    rw [wp_ite]
    constructor
    · intro h0
      obtain ⟨hrc, hfs₂, hthere⟩ := hfound h0
      apply hrest
      intro _
      show d.Made r w₂.fs
      rw [hfs₂]
      exact hthere.elim (hclean hrc) Desc.made_of_exists
    · intro h0
      apply (recordFailure_failed r.target rc' w₂).imp ?_ fun _ _ h => h
      rintro st w₃ rfl
      apply hrest
      rintro (h | h)
      · exact absurd (hall h) h0
      · cases h

end Finishing

end Tmake
