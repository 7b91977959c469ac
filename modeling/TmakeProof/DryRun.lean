import TmakeProof.Make

/-! # What a dry run changes

With `--dry-run` no `-do` list begins and no job is started, so that two kinds of
moments are left at which the tree can change: the orphans are deleted whether
`norun` is set or not, and the `-msg` script of a rule is evaluated.  Both are
remembered just before they happen, and the history of a dry run accounts for
every change of the tree (`Accounts`).
-/
namespace Tmake
open Weakest

/-- The tree that a moment of a dry run leaves behind. -/
def Moment.after (E : Env) (m : Moment) : FS :=
  match m.event with
  | .orphans l =>
    if E.osError m.core.tick then m.core.fs else m.core.fs.putAll (l.map fun p => (p, none))
  | .msg r => m.core.fs.putAll (E.exec m.core.tick r .msg m.core.fs).puts
  | _ => m.core.fs

/-- Nothing is changed at this moment: there are no files to be deleted, or the system refuses
to, and a `-msg` script writes nothing new. -/
def Moment.Harmless (E : Env) (m : Moment) : Prop :=
  match m.event with
  | .orphans l => E.osError m.core.tick = true ∨ ∀ p ∈ l, m.core.fs p = none
  | .msg r => m.core.fs.putAll (E.exec m.core.tick r .msg m.core.fs).puts = m.core.fs
  | _ => True

/-- The tree was `fs₀` once, and every change since then is one of the history. -/
def Accounts (E : Env) (fs₀ : FS) : List Moment → FS → Prop
  | [], fs => fs = fs₀
  | m :: earlier, fs => fs = m.after E ∧ Accounts E fs₀ earlier m.core.fs

/-- While no job is running, the history goes on accounting for the tree. -/
def Accounted (E : Env) (w w' : World) : Prop :=
  w.running = [] → w'.running = [] ∧
    ∀ fs₀, Accounts E fs₀ w.history w.fs → Accounts E fs₀ w'.history w'.fs

variable {d : Desc} {E : Env}

instance : IsPreorder World (Accounted E) where
  refl _ h := ⟨h, fun _ => id⟩
  trans _ _ _ h h' hw :=
    ⟨(h' (h hw).1).1, fun fs₀ hfs => (h' (h hw).1).2 fs₀ ((h hw).2 fs₀ hfs)⟩

theorem FS.putAll_removed_apply (fs : FS) (l : List Path) (p : Path) :
    fs.putAll (l.map fun q => (q, none)) p = if p ∈ l then none else fs p := by
  induction l generalizing fs with
  | nil => simp
  | cons q l ih =>
    rw [List.map_cons, FS.putAll_cons, ih]
    by_cases hpq : p = q <;> by_cases hp : p ∈ l <;> simp [FS.put, hpq, hp]

/-- Removing files changes nothing exactly if there are none. -/
theorem FS.putAll_removed_eq_iff {fs : FS} {l : List Path} :
    fs.putAll (l.map fun p => (p, none)) = fs ↔ ∀ p ∈ l, fs p = none := by
  constructor
  · intro h p hp
    rw [← congrFun h p, FS.putAll_removed_apply, if_pos hp]
  · intro h
    funext p
    rw [FS.putAll_removed_apply]
    split
    · exact (h p ‹_›).symm
    · rfl

theorem Moment.after_eq_iff {m : Moment} : m.after E = m.core.fs ↔ m.Harmless E := by
  unfold Moment.after Moment.Harmless
  split
  · split <;> simp [*, FS.putAll_removed_eq_iff]
  · rfl
  · simp

/-- If the history accounts for the tree, the tree never changes exactly if no moment changes
it. -/
theorem accounts_still_iff {fs₀ : FS} {l : List Moment} {fs : FS} (h : Accounts E fs₀ l fs) :
    ((∀ m ∈ l, m.core.fs = fs₀) ∧ fs = fs₀) ↔ ∀ m ∈ l, m.Harmless E := by
  induction l generalizing fs with
  | nil => exact ⟨fun _ _ hm => absurd hm List.not_mem_nil,
      fun _ => ⟨fun _ hm => absurd hm List.not_mem_nil, h⟩⟩
  | cons m l ih =>
    obtain ⟨rfl, hl⟩ := h
    rw [List.forall_mem_cons, List.forall_mem_cons, ← ih hl, ← Moment.after_eq_iff]
    constructor
    · rintro ⟨⟨hm, hl⟩, hafter⟩
      exact ⟨hafter.trans hm.symm, hl, hm⟩
    · rintro ⟨hafter, hl, hm⟩
      exact ⟨⟨hm, hl⟩, hafter.trans hm⟩

/-! ## The operations -/

theorem modify_accounted {f : World → World} (hrun : ∀ w, (f w).running = w.running)
    (hfs : ∀ w, (f w).fs = w.fs) (hhist : ∀ w, (f w).history = w.history) :
    Under (Accounted E) (modify f : M Unit) :=
  Within.modify fun w h => ⟨(hrun w).trans h, fun _ h => by rw [hfs, hhist]; exact h⟩

theorem modifyCache_accounted (f : Cache → Cache) : Under (Accounted E) (modifyCache f) :=
  modify_accounted (fun _ => rfl) (fun _ => rfl) fun _ => rfl

/-- A moment at which nothing is about to change. -/
theorem emit_accounted {e : Event} (he : ∀ core, (⟨e, core⟩ : Moment).after E = core.fs) :
    Under (Accounted E) (emit e) :=
  Within.modify fun w h => ⟨h, fun _ h => ⟨(he w.toCore).symm, h⟩⟩

theorem elementary_accounted : Elementary d (Accounted E) where
  ask _ := Within.modifyGet fun _ h => ⟨h, fun _ => id⟩
  stopped := emit_accounted fun _ => rfl
  error := modify_accounted (fun _ => rfl) (fun _ => rfl) fun _ => rfl

theorem runMsg_accounted (r : RuleTarget) : Under (Accounted E) (runMsg E r) := by
  intro w h
  exact ⟨h, fun _ h => ⟨rfl, h⟩⟩

theorem checks_accounted : Checks d E (fun _ => True) (Accounted E) where
  toElementary := elementary_accounted
  srchash _ _ := modifyCache_accounted _
  dephash _ _ := modifyCache_accounted _
  forget _ := modifyCache_accounted _
  msg _ := runMsg_accounted _

theorem waitForOneJob_accounted : Under (Accounted E) (waitForOneJob d E) := by
  intro w
  by_cases h : w.running = []
  · unfold waitForOneJob
    rw [wp_bind, wp_get, h]
    exact refl_of (Accounted E) w
  · exact (wp_trivial _ w).imp (fun _ _ _ h' => absurd h' h) fun _ _ _ => ⟨id, fun h' => absurd h' h⟩

theorem leave_accounted (r : Rule) (t : Name) (dyn : List Name) (st : Status) :
    Under (Accounted E) (leave r t dyn st) :=
  Within.bind (modify_accounted (fun _ => rfl) (fun _ => rfl) fun _ => rfl) fun _ =>
    Within.bind (emit_accounted fun _ => rfl) fun _ =>
      Within.bind (emit_accounted fun _ => rfl) fun _ => Within.pure _

theorem buildSource_accounted (t : Name) : Under (Accounted E) (buildSource t) := by
  refine Within.bind Within.get fun w => ?_
  split
  · exact Within.pure _
  · exact Within.bind (modify_accounted (fun _ => rfl) (fun _ => rfl) fun _ => rfl)
      fun _ => Within.pure _

theorem engine_accounted (hn : d.norun ≠ 0) : Respected d E (fun _ => True) (Accounted E) where
  toElementary := elementary_accounted
  returned _ _ := emit_accounted fun _ => rfl
  source _ _ := buildSource_accounted _
  enter _ := modify_accounted (fun _ => rfl) (fun _ => rfl) fun _ => rfl
  leave _ := leave_accounted _ _
  check hr := checks_accounted.checkRule hr
  prepare hr := checks_accounted.prepareRule hr
  begin h := absurd h hn
  cmds h := absurd h hn
  exec h := absurd h hn
  fork h := absurd h hn
  ended h := absurd h hn
  wait := waitForOneJob_accounted

/-- The orphans are deleted in a dry run too. -/
theorem doDeleteOrphans_accounted (orphans : List Name) :
    Under (Accounted E) (doDeleteOrphans d E orphans) := by
  refine Within.ite (fun _ => Within.pure _) fun _ w => ?_
  unfold emit osCheck ask putFiles modifyCache
  rw [wp_bind, wp_modify, wp_bind, wp_bind, wp_modifyGet, wp_ite]
  let m : Moment := ⟨.orphans (orphans.map d.fileBuild), w.toCore⟩
  refine ⟨fun hrefused => ?_, fun hdone h => ⟨h, fun _ h => ⟨?_, h⟩⟩⟩
  · have hafter : m.after E = w.fs := if_pos hrefused
    exact ⟨id, fun h => ⟨h, fun _ h => ⟨rfl, hafter.symm, h⟩⟩⟩
  · have hafter : m.after E = w.fs.putAll ((orphans.map d.fileBuild).map fun p => (p, none)) :=
      if_neg hdone
    rw [List.map_map] at hafter
    exact hafter.symm

theorem make_accounted : Upheld E (fun d => d.norun ≠ 0) (Accounted E) where
  respected _ := engine_accounted
  ignoreforce _ := modify_accounted (fun _ => rfl) (fun _ => rfl) fun _ => rfl
  addtargets := modify_accounted (fun _ => rfl) (fun _ => rfl) fun _ => rfl
  cleaning := modify_accounted (fun _ => rfl) (fun _ => rfl) fun _ => rfl
  loads _ := emit_accounted fun _ => rfl
  loaded _ _ := emit_accounted fun _ => rfl
  reloaded := Within.bind (emit_accounted fun _ => rfl) fun _ =>
    Within.modify fun _ _ => ⟨rfl, fun _ h => h⟩
  orphans _ _ := doDeleteOrphans_accounted
  request _ _ := emit_accounted fun _ => rfl
  reset _ _ := Within.bind Within.get fun _ => Within.ite
    (fun _ _ h => ⟨h, fun _ h => h⟩)
    fun _ => Within.pure _

/-- **Dry run.**  For every project, environment, cache, tree and list of targets: with
`--dry-run` no moment of the run sees another tree than the one it began with and the run leaves
tree and `.makecache` as they were, exactly if no file exists that is about to be deleted as an
orphan (or the system refuses), and no `-msg` script that is evaluated writes. -/
theorem dry_run (P : Project) (E : Env) (n k : Nat) (targets : List Name) (tick : Nat) (D : Disk)
    (hn : P.norun ≠ 0) :
    (P.parse tick D.fs = none → runDisk P E n k targets tick D = D) ∧
    ∀ d, P.parse tick D.fs = some d →
      let s := runMake P E n k targets { d with norun := P.norun } (tick + 1) D
      ((∀ m ∈ s.world.history, m.core.fs = D.fs) ∧ runDisk P E n k targets tick D = D) ↔
        ∀ m ∈ s.world.history, m.Harmless E := by
  constructor
  · intro hd
    unfold runDisk
    rw [hd]
  · intro d hd s
    obtain ⟨hnorun, hrun⟩ := make_accounted.runMake (P := P) (fun _ _ _ _ => hn)
      (d := { d with norun := P.norun }) hn n k targets (tick + 1) D
    have hacc : Accounts E D.fs s.world.history s.world.fs := (hrun rfl).2 D.fs rfl
    have hcache : writeCache s.desc D.makecache s.world.cache = D.makecache := by
      unfold writeCache
      rw [if_pos hnorun, ite_self]
    have hdisk : runDisk P E n k targets tick D = { fs := s.world.fs, makecache := D.makecache } := by
      unfold runDisk
      rw [hd]
      exact congrArg (Disk.mk s.world.fs) hcache
    rw [← accounts_still_iff hacc, hdisk]
    exact and_congr_right fun _ => ⟨fun h => congrArg Disk.fs h, fun h => by rw [h]⟩

/-- `target c` has been dropped from the spec file, and `tmake -n` is called. -/
def droppedTarget : Project where
  parse _ _ := some remainingRules
  norun := 1

/-- The targets that were built, and what was recorded of them. -/
def builtDisk : Disk where
  fs p := if p ∈ ["objdir/a", "objdir/b", "objdir/c"] then some (.file 1 p) else none
  makecache := some { file := [("a", 1), ("b", 1), ("c", 1)].foldl (fun c x => c.insert x.1 x.2) ∅ }

/-- There is an orphan that exists. -/
theorem dry_run_dropped :
    ∃ m ∈ (runMake droppedTarget touching 2 1 ["a"] { remainingRules with norun := 1 } 1
      builtDisk).world.history, ¬ m.Harmless touching := by
  by_contra h
  push Not at h
  have hsame := ((dry_run droppedTarget touching 2 1 ["a"] 0 builtDisk (by decide)).2
    remainingRules rfl).mpr h
  have hgone := congrFun (congrArg Disk.fs hsame.2) "objdir/c"
  revert hgone
  decide +kernel

/-- The orphan is deleted although this is a dry run. -/
theorem dry_run_deletes :
    ¬ ∀ (P : Project) (E : Env) (n k : Nat) (targets : List Name) (tick : Nat) (D : Disk),
      P.norun ≠ 0 → runDisk P E n k targets tick D = D := by
  intro h
  have hsame := congrArg Disk.fs (h droppedTarget touching 2 1 ["a"] 0 builtDisk (by decide))
  have hgone := congrFun hsame "objdir/c"
  revert hgone
  decide +kernel

end Tmake
