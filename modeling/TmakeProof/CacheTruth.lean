import TmakeProof.Anchors
import TmakeProof.BuiltFiles
import TmakeProof.ScanRuns
import TmakeProof.Stamps

/-! # What the cache says is true

For each rule in question the cache says with what dependencies, commands and external
commands it was built, and the file tree is still the one that it was built in (`Truthful`).
Whatever is done for another rule keeps this so, if scripts write only what is theirs
(`Changes`); a rule that is being built (`Underway`) is entered in the cache when its
`-do` list has ended (`targetPostBuild_ends`).
-/
namespace Tmake
open Weakest Machine

/-! ## What scripts may write -/

/-- A file that a script of the rule may write: one that tmake does not look at, or, but for
phony rules, a target of the rule. -/
def Desc.Writes (d : Desc) (scratch : Path → Prop) (r : Rule) (p : Path) : Prop :=
  scratch p ∨ r.phony = false ∧ p ∈ d.files r

/-- Scripts write nothing else, and `-finally` scripts not even targets. -/
def Confined (d : Desc) (scratch : Path → Prop) (E : Env) : Prop :=
  ∀ r ∈ d.rules, ∀ tick part fs, ∀ x ∈ (E.exec tick r.target part fs).puts,
    d.Writes scratch r x.1 ∧ (part = .finally → scratch x.1)

/-- No rule in `F` may write this file. -/
def Outside (d : Desc) (scratch : Path → Prop) (F : RuleTarget → Prop) (p : Path) : Prop :=
  ∀ r ∈ d.rules, F r.target → ¬d.Writes scratch r p

/-- Nothing has changed but files of rules in `F` and what is recorded of rules in `O`. -/
structure Changes (d : Desc) (md5 : String → String) (scratch : Path → Prop)
    (F O : RuleTarget → Prop) (w w' : World) : Prop where
  fs : ∀ p, ¬scratch p → Outside d scratch F p → w'.fs p = w.fs p
  stamps : ∀ p b, ¬scratch p → Outside d scratch F p →
    fileStamp d md5 w'.cache w'.fs p b = fileStamp d md5 w.cache w.fs p b
  cache : Cache.Agree O w.cache w'.cache
  owned : Owned d w.cache → Owned d w'.cache
  precache : ∀ rt, ¬O rt → w'.precache rt = w.precache rt
  cleaning : w'.cleaning = w.cleaning

section
variable {d : Desc} {E : Env} {md5 : String → String} {scratch : Path → Prop}
  {F O : RuleTarget → Prop} {r : Rule} {w w' : World}

instance : IsPreorder World (Changes d md5 scratch F O) where
  refl _ := ⟨fun _ _ _ => rfl, fun _ _ _ _ => rfl, refl_of _ _, id, fun _ _ => rfl, rfl⟩
  trans _ _ _ h h' :=
    ⟨fun p hp ho => (h'.fs p hp ho).trans (h.fs p hp ho),
     fun p b hp ho => (h'.stamps p b hp ho).trans (h.stamps p b hp ho),
     trans_of _ h.cache h'.cache, fun ho => h'.owned (h.owned ho),
     fun rt hrt => (h'.precache rt hrt).trans (h.precache rt hrt), h'.cleaning.trans h.cleaning⟩

/-- Only the statuses, the exit code, the clock, the trace or the like has changed. -/
theorem Changes.of_eq (hf : w'.fs = w.fs) (hc : w'.cache = w.cache) (hp : w'.precache = w.precache)
    (hcl : w'.cleaning = w.cleaning) : Changes d md5 scratch F O w w' := by
  refine ⟨fun _ _ _ => by rw [hf], fun _ _ _ _ => by rw [hf, hc], ?_, ?_, fun _ _ => by rw [hp], hcl⟩
  · rw [hc]
    exact refl_of _ _
  · rw [hc]
    exact id

theorem Changes.elementary : Elementary d (Changes d md5 scratch F O) where
  ask _ := Within.modifyGet fun _ => .of_eq rfl rfl rfl rfl
  stopped := Within.modify fun _ => .of_eq rfl rfl rfl rfl
  error := Within.modify fun _ => .of_eq rfl rfl rfl rfl

/-- Files of a rule in `F` are written. -/
theorem Changes.puts {puts : List (Path × Option Node)} (hr : r ∈ d.rules) (hF : F r.target)
    (h : ∀ x ∈ puts, d.Writes scratch r x.1) :
    Changes d md5 scratch F O w { w with fs := w.fs.putAll puts } := by
  have hfs : ∀ p, Outside d scratch F p → w.fs.putAll puts p = w.fs p := fun p hp =>
    FS.putAll_of_notMem _ fun x hx hxp => hp r hr hF (hxp ▸ h x hx)
  exact ⟨fun p _ hp => hfs p hp, fun p b _ hp => fileStamp_congr (hfs p hp) rfl b, refl_of _ _, id,
    fun _ _ => rfl, rfl⟩

/-- The checks of a rule record its hash, and write nothing. -/
theorem Rechecked.changes (h : Rechecked d md5 r w w') :
    Changes d md5 scratch (fun _ => False) (· = r.target) w w' := by
  have hagree : Cache.Agree (· = r.target) w.cache w'.cache := by
    rw [h.rest]
    exact { Cache.Agree.of_eq (O := (· = r.target)) (c := w.cache) rfl rfl rfl rfl rfl rfl with
      dephash := h.dephash }
  refine ⟨fun _ _ _ => by rw [h.rest], fun p b _ _ => ?_, hagree, ?_, ?_, by rw [h.rest]⟩
  · rw [h.fs_eq]
    exact h.stamps p b
  · rw [h.rest]
    exact id
  · rw [h.rest]
    exact fun _ _ => rfl

end

/-! ## What is true -/

/-- These are the dynamic dependencies of the rule, and its dependencies are all in `Ok`. -/
structure Known (d : Desc) (Ok : Name → Prop) (fs : FS) (r : Rule) (dyn : List Name) : Prop where
  scanned : Scanned d r Ok fs dyn
  deps : ∀ t ∈ r.depends ++ dyn, Ok t

/-- What the cache says of the rules of the names in `Ok` is true. -/
structure Truthful (d : Desc) (E : Env) (Ok : Name → Prop) (w : World) : Prop where
  owned : Owned d w.cache
  rules : ∀ t r, Ok t → d.ruleFor t = some r → ∃ dyn, Known d Ok w.fs r dyn ∧
    (r.phony = false → r.doList ≠ [] → Current d E w.cache w.fs r dyn)

/-- The `-do` list of the rule is running, and what precedes it has been recorded. -/
structure Underway (d : Desc) (E : Env) (Ok : Name → Prop) (w : World) (r : Rule)
    (dyn : List Name) : Prop where
  known : Known d Ok w.fs r dyn
  hashed : r.phony = false → Hashed d E w.cache w.fs r dyn
  exec : ExecCurrent d E w.cache r
  info : ∀ info, w.precache r.target = some info →
    info.rule = r ∧ info.dyndeps = dyn ∧ info.vardict = d.vardict r

/-- The rules in `F` make nothing that has a name in `Ok`. -/
def Spares (d : Desc) (F : RuleTarget → Prop) (Ok : Name → Prop) : Prop :=
  ∀ t r, Ok t → d.ruleFor t = some r → r.phony = false → ¬F r.target

theorem Spares.nothing (d : Desc) (Ok : Name → Prop) : Spares d (fun _ => False) Ok :=
  fun _ _ _ _ _ => id

section
variable {d : Desc} {E : Env} {scratch : Path → Prop} {F O : RuleTarget → Prop} {Ok Ok' : Name → Prop}
  {r : Rule} {dyn : List Name} {w w' : World}

/-- What a rule makes no other rule may write. -/
theorem Unshared.outside_files (hd : Unshared d scratch) (hr : r ∈ d.rules)
    (hF : r.phony = false → ¬F r.target) {p : Path} (hp : p ∈ d.files r) : Outside d scratch F p := by
  rintro s hs hFs (hscratch | ⟨hphony, hmem⟩)
  · exact hd.files r hr p hp hscratch
  · have hne : r.target ≠ [] := fun he => by
      unfold Desc.files at hp
      rw [he] at hp
      exact absurd hp List.not_mem_nil
    have hsame : r.target = s.target := by
      by_contra hne
      exact hd.apart r hr s hs hne p hp hmem
    obtain rfl := d.rule_eq_of_target hr hs hne hsame
    exact hF hphony hFs

/-- The file of a target is one of those of its rule. -/
theorem Desc.file_mem {t : Name} (ht : d.ruleFor t = some r) : d.file t ∈ d.files r := by
  have htarget : d.isTarget t = true := d.isTarget_iff.mpr ⟨r, ht⟩
  rw [Desc.file, if_pos htarget]
  exact List.mem_map_of_mem (d.ruleFor_target ht)

/-- The file of a name in `Ok` that is needed is none that a rule in `F` may write. -/
theorem Unshared.outside (hd : Unshared d scratch) (hs : Spares d F Ok) (hr : r ∈ d.rules) {t : Name}
    (ht : Ok t) (hneeds : r.NeedsName t) :
    ¬scratch (d.file t) ∧ Outside d scratch F (d.file t) := by
  cases hrule : d.ruleFor t with
  | some s =>
    have hsr := d.ruleFor_mem hrule
    have hmem := d.file_mem hrule
    exact ⟨hd.files s hsr _ hmem, hd.outside_files hsr (hs t s ht hrule) hmem⟩
  | none =>
    have hfile : d.file t = t := by simp [Desc.file, Desc.isTarget, hrule]
    obtain ⟨hscratch, hnot⟩ := hd.sources t ⟨hrule, r, hr, hneeds⟩
    rw [hfile]
    exact ⟨hscratch, fun s hs _ hwrites => hwrites.elim hscratch fun h => hnot s hs h.2⟩

theorem Changes.agreeOn (hs : Spares d F Ok) (h : Changes d E.md5 scratch F O w w') :
    AgreeOn d scratch Ok w.fs w'.fs := by
  refine fun p hp hrules => h.fs p hp ?_
  rintro r hr hFr (hscratch | ⟨hphony, hmem⟩)
  · exact hp hscratch
  · obtain ⟨t, ht, hrt⟩ := hrules r hr hmem
    exact hs t r ht hrt hphony hFr

theorem Known.grow (hd : Unshared d scratch) (hr : r ∈ d.rules) {fs : FS} (h : Known d Ok fs r dyn)
    (hOk : ∀ t, Ok t → Ok' t) : Known d Ok' fs r dyn :=
  ⟨h.scanned.mono hd hr hOk (fun t ht => h.deps t (List.mem_append_left _ ht)) fun _ _ _ => rfl,
    fun t ht => hOk t (h.deps t ht)⟩

theorem Known.needs (hd : Unshared d scratch) (hr : r ∈ d.rules) {fs : FS} (h : Known d Ok fs r dyn) :
    ∀ t ∈ r.depends ++ dyn, r.NeedsName t := fun t ht =>
  (List.mem_append.mp ht).elim .inl (h.scanned.needs hd hr t)

/-- A rule has one list of dynamic dependencies. -/
theorem Known.unique {fs : FS} {dyn' : List Name} (h : Known d Ok fs r dyn)
    (h' : Known d Ok fs r dyn') : dyn = dyn' := by
  have hs := h.scanned
  have hs' := h'.scanned
  unfold Scanned at hs hs'
  cases hdyndep : r.dyndep with
  | none =>
    rw [hdyndep] at hs hs'
    exact hs.trans hs'.symm
  | some dyndep =>
    rw [hdyndep] at hs hs'
    obtain ⟨L, hs⟩ := hs
    obtain ⟨L', hs'⟩ := hs'
    exact hs.eq_of_done hs'

/-- The dependencies of a rule stay what they are, whatever is done for others. -/
theorem Changes.known (hd : Unshared d scratch) (hs : Spares d F Ok)
    (h : Changes d E.md5 scratch F O w w') (hr : r ∈ d.rules) (hk : Known d Ok w.fs r dyn) :
    Known d Ok w'.fs r dyn :=
  ⟨hk.scanned.mono hd hr (fun _ h => h) (fun t ht => hk.deps t (List.mem_append_left _ ht))
    (h.agreeOn hs), hk.deps⟩

/-- So do their stamps. -/
theorem Changes.hashed (hd : Unshared d scratch) (hs : Spares d F Ok)
    (h : Changes d E.md5 scratch F O w w') (hr : r ∈ d.rules) (hk : Known d Ok w.fs r dyn)
    (hsaved : w'.cache.dephash.lookup r.target = w.cache.dephash.lookup r.target)
    (hh : Hashed d E w.cache w.fs r dyn) : Hashed d E w'.cache w'.fs r dyn := by
  obtain ⟨l, hl, hlookup⟩ := hh
  refine ⟨l, Eq.trans (stampList_congr fun t ht => ?_) hl, by rw [hsaved, hlookup]⟩
  obtain ⟨hscratch, hout⟩ := hd.outside hs hr (hk.deps t ht) (hk.needs hd hr t ht)
  exact nameStamp_congr (h.fs _ hscratch hout) fun b => h.stamps _ b hscratch hout

/-- Whether the files of a rule exist is a matter of these files. -/
theorem fileExistsAll_congr {fs fs' : FS} (h : ∀ p ∈ d.files r, fs' p = fs p) :
    fileExistsAll d fs' r = fileExistsAll d fs r := by
  have hfile : ∀ p ∈ d.files r, fileMtimeIfExists fs' p r.symlink =
      fileMtimeIfExists fs p r.symlink := by
    intro p hp
    simp only [fileMtimeIfExists, FS.stat, h p hp]
  unfold fileExistsAll
  rw [Bool.eq_iff_iff, List.all_eq_true, List.all_eq_true]
  exact forall₂_congr fun p hp => by rw [hfile p hp]

/-- The files of a rule stay, if it is not in `F`. -/
theorem Changes.files (hd : Unshared d scratch) (h : Changes d E.md5 scratch F O w w')
    (hr : r ∈ d.rules) (hF : r.phony = false → ¬F r.target) :
    fileExistsAll d w'.fs r = fileExistsAll d w.fs r :=
  fileExistsAll_congr fun p hp => h.fs p (hd.files r hr p hp) (hd.outside_files hr hF hp)

theorem Changes.exec (h : Changes d E.md5 scratch F O w w') (hO : ¬O r.target)
    (he : ExecCurrent d E w.cache r) : ExecCurrent d E w'.cache r := by
  unfold ExecCurrent
  rw [h.cache.exec _ hO]
  exact he

theorem Changes.current (hd : Unshared d scratch) (hs : Spares d F Ok)
    (h : Changes d E.md5 scratch F O w w') (hr : r ∈ d.rules) (hF : r.phony = false → ¬F r.target)
    (hO : ¬O r.target) (hk : Known d Ok w.fs r dyn) (hc : Current d E w.cache w.fs r dyn) :
    Current d E w'.cache w'.fs r dyn where
  files := (h.files hd hr hF).trans hc.files
  deps := by
    unfold DepsCurrent
    rw [h.cache.deps _ hO]
    exact hc.deps
  hash := h.hashed hd hs hr hk (h.cache.dephash _ hO) hc.hash
  cmd := by
    unfold CmdCurrent
    rw [h.cache.cmd _ hO]
    exact hc.cmd
  exec := h.exec hO hc.exec

/-- **Whatever is done for other rules, the cache stays true.** -/
theorem Changes.truthful (hd : Unshared d scratch) (hs : Spares d F Ok)
    (h : Changes d E.md5 scratch F O w w')
    (hown : ∀ t r dyn, Ok t → d.ruleFor t = some r → r.phony = false → O r.target →
      Known d Ok w.fs r dyn → Current d E w.cache w.fs r dyn → Current d E w'.cache w'.fs r dyn)
    (ht : Truthful d E Ok w) : Truthful d E Ok w' := by
  refine ⟨h.owned ht.owned, fun t r htok hr => ?_⟩
  obtain ⟨dyn, hk, hc⟩ := ht.rules t r htok hr
  have hmem := d.ruleFor_mem hr
  refine ⟨dyn, h.known hd hs hmem hk, fun hphony hdo => ?_⟩
  by_cases hO : O r.target
  · exact hown t r dyn htok hr hphony hO hk (hc hphony hdo)
  · exact h.current hd hs hmem (hs t r htok hr) hO hk (hc hphony hdo)

theorem Changes.underway (hd : Unshared d scratch) (hs : Spares d F Ok)
    (h : Changes d E.md5 scratch F O w w') (hr : r ∈ d.rules) (hO : ¬O r.target)
    (hu : Underway d E Ok w r dyn) : Underway d E Ok w' r dyn where
  known := h.known hd hs hr hu.known
  hashed := fun hphony => h.hashed hd hs hr hu.known (h.cache.dephash _ hO) (hu.hashed hphony)
  exec := h.exec hO hu.exec
  info := fun info hi => hu.info info (h.precache _ hO ▸ hi)

end

/-! ## What is done for the rule itself -/

/-- What is done for a rule, and keeps what has been recorded of it so far. -/
structure Works (d : Desc) (E : Env) (scratch : Path → Prop) (r : Rule) (w w' : World) : Prop where
  changes : Changes d E.md5 scratch (· = r.target) (· = r.target) w w'
  dephash : w'.cache.dephash.lookup r.target = w.cache.dephash.lookup r.target
  exec : ExecCurrent d E w.cache r → ExecCurrent d E w'.cache r
  info : ∀ info, w'.precache r.target = some info → w.precache r.target = some info

/-- Nothing has failed. -/
def Smooth (trace : List Moment) : Prop :=
  ∀ m ∈ trace, (∀ r, m.event ≠ .failed r) ∧ ∀ t, m.event ≠ .returned t .failed

theorem Smooth.mono {l l' : List Moment} (hl : l <:+ l') (h : Smooth l') : Smooth l :=
  fun m hm => h m (hl.subset hm)

/-- The `-do` list of a rule has ended without failure, and the rule is entered in the cache. -/
structure Ends (d : Desc) (E : Env) (scratch : Path → Prop) (r : Rule) (dyn : List Name)
    (w w' : World) : Prop extends Works d E scratch r w w' where
  made : r.phony = false → w.cleaning = false → fileExistsAll d w'.fs r = true ∧
    w'.cache.deps.lookup r.target = some (lsort dyn) ∧ CmdCurrent d w'.cache r

section
variable {d : Desc} {E : Env} {scratch : Path → Prop} {Ok : Name → Prop} {r : Rule} {dyn : List Name}
  {w w' w'' : World}

instance : IsPreorder World (Works d E scratch r) where
  refl _ := ⟨refl_of _ _, rfl, id, fun _ h => h⟩
  trans _ _ _ h h' :=
    ⟨trans_of _ h.changes h'.changes, h'.dephash.trans h.dephash, fun he => h'.exec (h.exec he),
     fun info hi => h.info info (h'.info info hi)⟩

theorem Works.of_cache (h : Changes d E.md5 scratch (· = r.target) (· = r.target) w w')
    (hh : w'.cache.dephash = w.cache.dephash) (he : w'.cache.exec = w.cache.exec)
    (hp : w'.precache = w.precache) : Works d E scratch r w w' := by
  refine ⟨h, by rw [hh], fun hx => ?_, fun info hi => hp ▸ hi⟩
  unfold ExecCurrent at hx ⊢
  rw [he]
  exact hx

theorem Works.of_eq (hf : w'.fs = w.fs) (hc : w'.cache = w.cache) (hp : w'.precache = w.precache)
    (hcl : w'.cleaning = w.cleaning) : Works d E scratch r w w' :=
  .of_cache (.of_eq hf hc hp hcl) (by rw [hc]) (by rw [hc]) hp

theorem Works.elementary : Elementary d (Works d E scratch r) where
  ask _ := Within.modifyGet fun _ => .of_eq rfl rfl rfl rfl
  stopped := Within.modify fun _ => .of_eq rfl rfl rfl rfl
  error := Within.modify fun _ => .of_eq rfl rfl rfl rfl

theorem Works.puts {puts : List (Path × Option Node)} (hr : r ∈ d.rules)
    (h : ∀ x ∈ puts, d.Writes scratch r x.1) :
    Works d E scratch r w { w with fs := w.fs.putAll puts } :=
  .of_cache (.puts hr rfl h) rfl rfl rfl

theorem Works.runDo (hE : Confined d scratch E) (hr : r ∈ d.rules) (part : Part) :
    Under (Works d E scratch r) (runDo E r.target part) := by
  intro w
  have hask : Works d E scratch r w { w with tick := w.tick + 1 } := .of_eq rfl rfl rfl rfl
  exact trans_of (Works d E scratch r) hask
    (Works.puts hr fun x hx => (hE r hr w.tick part w.fs x hx).1)

/-- A rule whose `-do` list is running goes on. -/
theorem Works.underway (hd : Unshared d scratch) (hs : Spares d (· = r.target) Ok) (hr : r ∈ d.rules)
    (h : Works d E scratch r w w') (hu : Underway d E Ok w r dyn) : Underway d E Ok w' r dyn where
  known := h.changes.known hd hs hr hu.known
  hashed hphony := h.changes.hashed hd hs hr hu.known h.dephash (hu.hashed hphony)
  exec := h.exec hu.exec
  info info hi := hu.info info (h.info info hi)

/-- Once its `-do` list has ended, what the cache says of a rule is true. -/
theorem Ends.current (hd : Unshared d scratch) (hs : Spares d (· = r.target) Ok) (hr : r ∈ d.rules)
    (h : Ends d E scratch r dyn w w') (hphony : r.phony = false) (hclean : w.cleaning = false)
    (hu : Underway d E Ok w r dyn) : Current d E w'.cache w'.fs r dyn := by
  obtain ⟨hfiles, hdeps, hcmd⟩ := h.made hphony hclean
  have hu' := h.underway hd hs hr hu
  refine ⟨hfiles, ⟨fun l hl => ?_, fun hl => ?_⟩, hu'.hashed hphony, hcmd, hu'.exec⟩
  · exact Option.some.inj (hdeps.symm.trans hl)
  · rw [hl] at hdeps
    cases hdeps

/-- `run` enters external commands as they are now. -/
theorem recordCmds_works (cmds : List String) :
    Under (Works d E scratch r) (recordCmds d E r.target cmds) := by
  refine Within.modify fun w => ?_
  dsimp only
  split
  · next hc =>
    refine ⟨⟨fun _ _ _ => rfl, fun p b _ _ => fileStamp_congr rfl rfl b, ?_, id, fun _ _ => rfl, rfl⟩,
      rfl, fun he hcheck x hx => ?_, fun _ h => h⟩
    · exact { Cache.Agree.of_eq (O := (· = r.target)) (c := w.cache) rfl rfl rfl rfl rfl rfl with
        exec := fun _ hne => AList.lookup_insert_ne hne }
    · rw [AList.lookup_insert] at hx
      rcases List.mem_append.mp hx with hx | hx
      · exact he hcheck x (List.mem_filter.mp hx).1
      · obtain ⟨cmd, -, rfl⟩ := List.mem_map.mp hx
        rfl
  · exact refl_of _ _

theorem applyResult_works (hE : Confined d scratch E) (hr : r ∈ d.rules) (tick i : Nat) (fs : FS) :
    Under (Works d E scratch r) (applyResult d E r.target (E.exec tick r.target (.script i) fs)) := by
  refine Within.bind (recordCmds_works _) fun _ => Within.bind ?_ fun _ => ?_
  · exact Within.modify fun _ => Works.puts hr fun x hx => (hE r hr tick _ fs x hx).1
  · exact Within.bind (Works.elementary.errorIf _) fun _ =>
      Within.modify fun _ => .of_eq rfl rfl rfl rfl

/-- What precedes a `-do` list forgets the external commands of the rule. -/
theorem prepareRule_works (hE : Confined d scratch E) (hr : r ∈ d.rules) (w : World) :
    wp (prepareRule d E r) (fun _ w' => Works d E scratch r w w' ∧ ExecCurrent d E w'.cache r)
      (fun _ _ => True) w := by
  have hroot : Under (Works d E scratch r) (refuseRoot d r) :=
    Within.ite (fun _ => Works.elementary.fatal _) fun _ => Within.pure _
  have hrest : Under (Works d E scratch r)
      (do let rc ← runMsg E r.target; buildErrorIf d (rc ≠ 0)) := by
    have hmsg : Under (Works d E scratch r) (runMsg E r.target) :=
      Within.bind (Within.modify fun _ => .of_eq rfl rfl rfl rfl) fun _ => Works.runDo hE hr _
    exact Within.bind hmsg fun _ => Works.elementary.errorIf _
  have hforget : ∀ w, wp (modifyCache fun c =>
      if d.checkexternalcmds then { c with exec := c.exec.erase r.target } else c)
      (fun _ w' => Works d E scratch r w w' ∧ ExecCurrent d E w'.cache r) (fun _ _ => True) w := by
    intro w
    have hnone : d.checkexternalcmds = true →
        ((w.cache.exec.erase r.target).lookup r.target).getD [] = [] := fun _ => by
      rw [AList.lookup_erase]
      rfl
    have hexec : ExecCurrent d E (if d.checkexternalcmds then
        { w.cache with exec := w.cache.exec.erase r.target } else w.cache) r := by
      intro hcheck x hx
      rw [if_pos hcheck] at hx
      rw [hnone hcheck] at hx
      cases hx
    refine ⟨⟨?_, ?_, fun _ => hexec, fun _ h => h⟩, hexec⟩
    · split
      · refine ⟨fun _ _ _ => rfl, fun p b _ _ => fileStamp_congr rfl rfl b, ?_, id, fun _ _ => rfl, rfl⟩
        exact { Cache.Agree.of_eq (O := (· = r.target)) (c := w.cache) rfl rfl rfl rfl rfl rfl with
          exec := fun _ hne => AList.lookup_erase_ne hne }
      · exact refl_of _ _
    · dsimp only
      split <;> rfl
  unfold prepareRule
  rw [wp_bind]
  refine (hroot w).imp (fun _ w₁ h₁ => ?_) fun _ _ _ => trivial
  rw [wp_bind]
  refine (hforget w₁).imp (fun _ w₂ h₂ => ?_) fun _ _ h => h
  exact (hrest w₂).imp (fun _ w₃ h₃ => ⟨trans_of _ h₁ (trans_of _ h₂.1 h₃), h₃.exec h₂.2⟩)
    fun _ _ _ => trivial

/-! ## The end of a `-do` list -/

/-- The targets that are entered belong to the rule. -/
theorem recordTargets_works (hd : Unshared d scratch) (hr : r ∈ d.rules) {list : List Name}
    (hlist : ∀ f ∈ list, f ∈ r.target) (rc : Nat) :
    Under (Works d E scratch r) (recordTargets d r r.target list rc) := by
  induction list generalizing rc with
  | nil => exact Within.pure _
  | cons f list ih =>
    rw [List.forall_mem_cons] at hlist
    refine Within.bind Within.get fun w => Within.ite
      (fun _ => Within.bind Works.elementary.error fun _ => ih hlist.2 3) fun _ => ?_
    refine Within.bind (Within.modify fun w => ?_) fun _ => ih hlist.2 rc
    refine .of_cache ?_ ?_ ?_ rfl
    · dsimp only
      split
      · exact refl_of _ _
      · refine ⟨fun _ _ _ => rfl, fun p b _ _ => fileStamp_congr rfl rfl b, ?_, fun howned => ?_,
          fun _ _ => rfl, rfl⟩
        · have hne : ∀ n, (∀ rt, rt = r.target → n ∉ rt) → n ≠ f := fun n hn he =>
            hn r.target rfl (he ▸ hlist.1)
          exact { Cache.Agree.of_eq (O := (· = r.target)) (c := w.cache) rfl rfl rfl rfl rfl rfl with
            file := fun n hn => AList.lookup_insert_ne (hne n hn)
            target := fun n hn => AList.lookup_insert_ne (hne n hn) }
        · intro t owner s hlookup hs
          by_cases he : t = f
          · subst he
            rw [AList.lookup_insert] at hlookup
            obtain rfl := Option.some.inj ((hd.named r hr t hlist.1).symm.trans hs)
            exact (Option.some.inj hlookup).symm
          · rw [AList.lookup_insert_ne he] at hlookup
            exact howned t owner s hlookup hs
    · dsimp only
      split <;> rfl
    · dsimp only
      split <;> rfl

/-- What `target-post-build` enters of a rule whose `-do` list has ended with this return code. -/
theorem recordBuilt_works (hd : Unshared d scratch) (hr : r ∈ d.rules) {info : PreInfo}
    (hrule : info.rule = r) (hdyn : info.dyndeps = dyn) (hvars : info.vardict = d.vardict r)
    (rc : Nat) (w : World) :
    wp (recordBuilt d info r.target rc)
      (fun rc' w' => Works d E scratch r w w' ∧
        (rc' = 0 → r.phony = false → w.cleaning = false → fileExistsAll d w'.fs r = true ∧
          w'.cache.deps.lookup r.target = some (lsort dyn) ∧ CmdCurrent d w'.cache r))
      (fun _ _ => True) w := by
  have hworks : Under (Works d E scratch r) (recordBuilt d info r.target rc) := by
    refine Within.bind Within.get fun _ => Within.ite (fun _ => ?_) fun _ => Within.pure _
    rw [hrule]
    refine Within.bind (recordTargets_works hd hr (fun _ h => h) rc) fun _ =>
      Within.bind (Works.elementary.substDo _ _) fun _ => Within.bind (Within.modify fun w => ?_)
        fun _ => Within.pure _
    refine .of_cache ⟨fun _ _ _ => rfl, fun p b _ _ => fileStamp_congr rfl rfl b, ?_, id,
      fun _ _ => rfl, rfl⟩ rfl rfl rfl
    exact { Cache.Agree.of_eq (O := (· = r.target)) (c := w.cache) rfl rfl rfl rfl rfl rfl with
      cmd := fun _ hne => AList.lookup_insert_ne hne
      deps := fun _ hne => AList.lookup_insert_ne hne }
  have hsaved : wp (recordBuilt d info r.target rc)
      (fun _ w' => rc = 0 → r.phony = false → w.cleaning = false →
        w'.cache.deps.lookup r.target = some (lsort dyn) ∧ CmdCurrent d w'.cache r)
      (fun _ _ => True) w := by
    unfold recordBuilt
    rw [wp_bind, wp_get, wp_ite]
    refine ⟨fun _ => wp_bind_last fun _ w₁ => ?_, fun hc h0 hphony hclean => ?_⟩
    · rw [wp_bind]
      unfold substDoOrExit
      cases hsubst : substDo d info.vardict info.rule.doList with
      | none => trivial
      | some cmd =>
        intro _ _ _
        refine ⟨?_, cmd, ?_, AList.lookup_insert _⟩
        · rw [← hdyn]
          exact AList.lookup_insert _
        · rw [← hvars, ← hrule]
          exact hsubst
    · rw [hrule] at hc
      simp [h0, hphony, hclean] at hc
  by_cases hphony : r.phony = false
  · refine (((hworks w).and hsaved).and (recordBuilt_finds hrule hphony rc w)).imp ?_
      fun _ _ _ => trivial
    rintro rc' w' ⟨⟨hw, hs⟩, -, hfound⟩
    refine ⟨hw, fun h0 _ hclean => ?_⟩
    obtain ⟨hrc, hfs, hthere⟩ := hfound h0
    refine ⟨?_, hs hrc hphony hclean⟩
    rw [hfs]
    refine hthere.resolve_left fun h => ?_
    rw [hclean] at h
    cases h
  · exact (hworks w).imp (fun _ _ h => ⟨h, fun _ h0 => absurd h0 hphony⟩) fun _ _ _ => trivial

/-- The failure of a rule is remembered. -/
theorem recordFailure_noted (rt : RuleTarget) (rc : Nat) (w : World) :
    wp (recordFailure d E rt rc) (fun _ w' => ¬Smooth w'.trace) (fun _ _ => True) w := by
  have hrest : Within Stop.Deep (Quiet d E (fun _ => True) fun _ => True) (do
      osCheck E
      putFiles (rt.map fun f => (d.fileBuild f, none))
      modifyCache fun c => { c with dephash := c.dephash.insert rt .failed, writecache := true }
      let frc ← runDo E rt .onerror
      buildErrorIf d (frc ≠ 0 || rc = 1)
      return Status.failed) := by
    refine Within.bind osCheck_quiet fun _ => Within.bind (putFiles_quiet fun _ x hx => ?_) fun _ =>
      Within.bind (insertHash_quiet _ trivial) fun _ => Within.bind (runDo_quiet _ trivial) fun _ =>
        Within.bind (buildErrorIf_quiet _) fun _ => Within.pure _
    obtain ⟨f, hf, rfl⟩ := List.mem_map.mp hx
    exact ⟨rt, trivial, List.mem_map_of_mem hf⟩
  unfold recordFailure emit
  rw [wp_bind, wp_modify]
  refine (hrest _).imp (fun _ w' hq hsmooth => ?_) fun _ _ _ => trivial
  exact (hsmooth _ (hq.suffix.subset List.mem_cons_self)).1 rt rfl

/-- The `-finally` script leaves the targets alone. -/
theorem runFinally_works (hE : Confined d scratch E) (hr : r ∈ d.rules) (st : Status) (w : World) :
    wp (runFinally d E r.target st)
      (fun _ w' => Works d E scratch r w w' ∧
        Changes d E.md5 scratch (fun _ => False) (fun _ => False) w w')
      (fun _ _ => True) w := by
  have hputs : ∀ w : World, ∀ res : ScriptResult, (∀ x ∈ res.puts, scratch x.1) →
      Changes d E.md5 scratch (fun _ => False) (fun _ => False) w
        { w with fs := w.fs.putAll res.puts } := by
    intro w res h
    have hfs : ∀ p, ¬scratch p → w.fs.putAll res.puts p = w.fs p := fun p hp =>
      FS.putAll_of_notMem _ fun x hx hxp => hp (hxp ▸ h x hx)
    exact ⟨fun p hp _ => hfs p hp, fun p b hp _ => fileStamp_congr (hfs p hp) rfl b, refl_of _ _, id,
      fun _ _ => rfl, rfl⟩
  have hnothing : Under (Changes d E.md5 scratch (fun _ => False) fun _ => False)
      (runDo E r.target .finally) := by
    intro w
    have hask : Changes d E.md5 scratch (fun _ => False) (fun _ => False) w
        { w with tick := w.tick + 1 } :=
      .of_eq rfl rfl rfl rfl
    exact trans_of (Changes d E.md5 scratch (fun _ => False) fun _ => False) hask
      (hputs _ _ fun x hx => (hE r hr w.tick _ w.fs x hx).2 rfl)
  have h₁ : Under (Works d E scratch r) (runFinally d E r.target st) :=
    Within.bind (Works.runDo hE hr _) fun _ => Within.ite
      (fun _ => Within.bind Works.elementary.error fun _ => Within.pure _) fun _ => Within.pure _
  have h₂ : Under (Changes d E.md5 scratch (fun _ => False) fun _ => False)
      (runFinally d E r.target st) :=
    Within.bind hnothing fun _ => Within.ite
      (fun _ => Within.bind Changes.elementary.error fun _ => Within.pure _) fun _ => Within.pure _
  exact ((h₁ w).and (h₂ w)).imp (fun _ _ h => h) fun _ _ _ => trivial

/-- What is left to do once the verdict is known changes nothing that is compared. -/
theorem verdict_works (hE : Confined d scratch E) (hr : r ∈ d.rules) (hd : Unshared d scratch)
    (st : Status) (w : World) :
    wp (do let st ← runFinally d E r.target st
           setRuleStatus r.target st
           modify fun w => { w with precache := Function.update w.precache r.target none })
      (fun _ w' => Works d E scratch r w w' ∧ w.trace <:+ w'.trace ∧
        fileExistsAll d w'.fs r = fileExistsAll d w.fs r ∧
        w'.cache.deps.lookup r.target = w.cache.deps.lookup r.target ∧
        (CmdCurrent d w.cache r → CmdCurrent d w'.cache r)) (fun _ _ => True) w := by
  rw [wp_bind]
  have hquiet := runFinally_quiet (d := d) (E := E) (S := fun _ => True) (O := fun _ => True)
    (r := r.target) st trivial
  refine ((runFinally_works hE hr st w).and (hquiet w)).imp ?_ fun _ _ _ => trivial
  rintro st' w₁ ⟨⟨hw, hc⟩, hq⟩
  have hfiles := Changes.files (F := fun _ => False) hd hc hr fun _ h => h
  refine ⟨trans_of _ hw ?_, hq.suffix, hfiles, hc.cache.deps _ id, fun hcmd => ?_⟩
  · refine ⟨⟨fun _ _ _ => rfl, fun _ _ _ _ => rfl, refl_of _ _, id, fun rt hrt => ?_, rfl⟩, rfl, id,
      fun info hi => ?_⟩
    · exact Function.update_of_ne hrt ..
    · change Function.update w₁.precache r.target none r.target = some info at hi
      rw [Function.update_self] at hi
      cases hi
  · unfold CmdCurrent
    rw [hc.cache.cmd _ id]
    exact hcmd

/-- **`target-post-build` enters a rule in the cache**, or the failure is remembered. -/
theorem targetPostBuild_ends (hd : Unshared d scratch) (hE : Confined d scratch E) (hr : r ∈ d.rules)
    (hinfo : ∀ info, w.precache r.target = some info →
      info.rule = r ∧ info.dyndeps = dyn ∧ info.vardict = d.vardict r) (rc : Nat) :
    wp (targetPostBuild d E r.target rc)
      (fun _ w' => Smooth w'.trace → Ends d E scratch r dyn w w') (fun _ _ => True) w := by
  unfold targetPostBuild
  rw [wp_bind, wp_get]
  cases hprecache : w.precache r.target with
  | none => trivial
  | some info =>
    obtain ⟨hrule, hdyn, hvars⟩ := hinfo info hprecache
    dsimp only
    have hnote : Under (Works d E scratch r) (noteSuccess r.target rc) :=
      Within.ite (fun _ => Within.modify fun _ => .of_eq rfl rfl rfl rfl) fun _ => Within.pure _
    rw [wp_bind]
    refine (hnote w).imp (fun _ w₁ h₁ => ?_) fun _ _ _ => trivial
    rw [wp_bind]
    refine (recordBuilt_works (E := E) hd hr hrule hdyn hvars rc w₁).imp ?_ fun _ _ h => h
    rintro rc' w₂ ⟨h₂, hmade⟩
    rw [wp_bind]
    unfold judgeTargets
    rw [wp_ite]
    refine ⟨fun h0 => ?_, fun _ => ?_⟩
    · refine (verdict_works hE hr hd _ _).imp (fun _ w₃ h _ => ?_) fun _ _ _ => trivial
      obtain ⟨h₃, -, hfiles, hdeps, hcmd⟩ := h
      have hcount : Works d E scratch r w₂ { w₂ with
          numtargets := if info.rule.phony then w₂.numtargets else w₂.numtargets + 1 } :=
        .of_eq rfl rfl rfl rfl
      refine ⟨trans_of _ h₁ (trans_of _ h₂ (trans_of _ hcount h₃)), fun hphony hclean => ?_⟩
      obtain ⟨hf, hl, hc⟩ := hmade h0 hphony (h₁.changes.cleaning.trans hclean)
      exact ⟨hfiles.trans hf, hdeps.trans hl, hcmd hc⟩
    · refine (recordFailure_noted r.target rc' w₂).imp (fun st w₃ hrough => ?_) fun _ _ h => h
      refine (verdict_works hE hr hd st w₃).imp (fun _ w₄ h hsmooth => ?_) fun _ _ _ => trivial
      exact absurd (hsmooth.mono h.2.1) hrough

theorem endForeground_ends (hd : Unshared d scratch) (hE : Confined d scratch E) (hr : r ∈ d.rules)
    (hinfo : ∀ info, w.precache r.target = some info →
      info.rule = r ∧ info.dyndeps = dyn ∧ info.vardict = d.vardict r) (rc : Nat) :
    wp (endForeground d E r rc)
      (fun _ w' => Smooth w'.trace → Ends d E scratch r dyn w w') (fun _ _ => True) w := by
  unfold endForeground
  rw [wp_bind]
  have hsignal : Under (Works d E scratch r) (checkSignal E) := Works.elementary.signal E
  refine (hsignal w).imp (fun _ w₁ h₁ => ?_) fun _ _ _ => trivial
  rw [wp_bind]
  refine (targetPostBuild_ends hd hE hr (fun info hi => hinfo info (h₁.info info hi)) rc).imp
    (fun _ w₂ h₂ hsmooth => ?_) fun _ _ h => h
  have hends := h₂ hsmooth
  exact ⟨trans_of _ h₁ hends.toWorks, fun hphony hclean =>
    hends.made hphony (h₁.changes.cleaning.trans hclean)⟩

/-! ## Jobs -/

/-- A job is for a rule that is being built, and writes what this rule may. -/
structure JobOK (d : Desc) (E : Env) (scratch : Path → Prop) (Ok : Name → Prop) (w : World)
    (job : Job) (r : Rule) (dyn : List Name) : Prop where
  rule : r ∈ d.rules
  target : r.target = job.ruletarget
  underway : Underway d E Ok w r dyn
  puts : ∀ x ∈ job.puts, d.Writes scratch r x.1

/-- When a job is notified, nothing is recorded or written. -/
theorem notifyJob_same (job : Job) (w : World) :
    wp (notifyJob d job)
      (fun _ w' => w'.fs = w.fs ∧ w'.cache = w.cache ∧ w'.precache = w.precache ∧
        w'.cleaning = w.cleaning ∧ w.trace <:+ w'.trace) (fun _ _ => True) w := by
  unfold notifyJob emit setRuleStatus tmakeExit
  simp only [wp_ite, wp_modify, wp_bind, wp_get, wp_pure]
  exact ⟨fun _ => ⟨trivial, trivial, trivial, trivial, List.suffix_rfl⟩, fun _ => ⟨fun _ => trivial,
    fun _ => ⟨trivial, trivial, trivial, trivial, List.suffix_cons _ _⟩⟩⟩

theorem reapJob_works (hr : r ∈ d.rules) {job : Job} (hputs : ∀ x ∈ job.puts, d.Writes scratch r x.1)
    (i : Nat) : Under (Works d E scratch r) (reapJob d i job) :=
  Within.bind (Within.modify fun _ => .of_eq rfl rfl rfl rfl) fun _ =>
    Within.bind (Within.modify fun _ => .puts hr hputs) fun _ => Works.elementary.errorIf _

/-- **When a job is reaped, its rule is entered in the cache**, or the failure is remembered. -/
theorem waitForOneJob_ends (hd : Unshared d scratch) (hE : Confined d scratch E)
    (hjobs : ∀ job ∈ w.running, ∃ r dyn, JobOK d E scratch Ok w job r dyn) :
    wp (waitForOneJob d E)
      (fun _ w' => w.running = [] ∧ w' = w ∨ ∃ (i : Nat) (job : Job) (r : Rule) (dyn : List Name),
        w.running[i]? = some job ∧ w'.running = w.running.eraseIdx i ∧
        JobOK d E scratch Ok w job r dyn ∧ (Smooth w'.trace → Ends d E scratch r dyn w w'))
      (fun _ _ => True) w := by
  unfold waitForOneJob
  rw [wp_bind, wp_get]
  split
  · next hnone => exact .inl ⟨hnone, rfl⟩
  · next first jobs hrunning =>
    have hlt : E.pick w.tick % (first :: jobs).length < w.running.length := by
      rw [hrunning]
      exact Nat.mod_lt _ (Nat.succ_pos _)
    rw [wp_bind]
    unfold ask
    rw [wp_modifyGet]
    dsimp only
    generalize E.pick w.tick % (first :: jobs).length = i at hlt
    have hjob : w.running[i]? = some (((first :: jobs)[i]?).getD first) := by
      rw [← hrunning, List.getElem?_eq_getElem hlt, Option.getD_some]
    generalize ((first :: jobs)[i]?).getD first = job at hjob
    obtain ⟨r, dyn, hok⟩ := hjobs job (List.mem_of_getElem? hjob)
    have hask : Works d E scratch r w { w with tick := w.tick + 1 } := .of_eq rfl rfl rfl rfl
    -- its files are put in place
    rw [wp_bind]
    refine ((reapJob_works (E := E) hok.rule hok.puts i _).and (reapJob_spec i job _)).imp ?_
      fun _ _ _ => trivial
    rintro - w₁ ⟨h₁, -, -, -, hrun₁, -⟩
    have h₁ := trans_of (Works d E scratch r) hask h₁
    rw [wp_bind, ← hok.target]
    have hquiet := targetPostBuild_quiet (d := d) (E := E) (S := fun _ => True) (O := fun _ => True)
      (r := r.target) (if job.ok then 0 else 1) trivial trivial
    have hpost := targetPostBuild_ends hd hE hok.rule
      (fun info hi => hok.underway.info info (h₁.info info hi)) (if job.ok then 0 else 1)
    refine ((hquiet w₁).and hpost).imp ?_ fun _ _ _ => trivial
    rintro - w₂ ⟨hq₂, h₂⟩
    rw [wp_bind]
    refine ((notifyJob_spec job w₂).and (notifyJob_same job w₂)).imp ?_ fun _ _ _ => trivial
    rintro - w₃ ⟨⟨-, -, hrun₃, -⟩, hfs, hcache, hpre, hclean, hsuffix⟩
    refine .inr ⟨i, job, r, dyn, hjob, ?_, hok, fun hsmooth => ?_⟩
    · rw [hrun₃, hq₂.running, hrun₁]
    · have hends := h₂ (hsmooth.mono hsuffix)
      have hsame : Works d E scratch r w₂ w₃ := .of_eq hfs hcache hpre hclean
      refine ⟨trans_of _ h₁ (trans_of _ hends.toWorks hsame), fun hphony hc => ?_⟩
      rw [hfs, hcache]
      exact hends.made hphony (h₁.changes.cleaning.trans hc)

end

end Tmake
