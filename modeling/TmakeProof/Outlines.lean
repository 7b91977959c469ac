import TmakeProof.Outcomes

/-! # What rules are for

What the scripts of a project do is a matter of the project.  An `Outline` says it for the
rules of a description: how far the first `i` scripts of a `-do` list have come, of which it
asks that this depends on nothing but the files of the rule and what the rule sees of its
dependencies.  The scripts keep to it if each takes the rule one step further
(`Outline.Kept`).  A rule is made (`Outline.Made`) if its files are what its `-do` list has
to make of its dependencies, as they are now.

Over time a project has several descriptions (`Edition`).  The cache has `Earned` the trust
of `build` in a rule if, whenever the checks of the rule pass, the rule is made.  A rule that
is made and entered in the cache has earned it (`Earned.of_made`): so much is recorded of it
that if the checks pass, the commands are the same, and all that they depend on is.
-/
namespace Tmake
open Weakest

/-! ## Outlines -/

/-- What has to be the case after the first `i` scripts of a `-do` list with this text, for these
targets and with these dependencies. -/
structure Outline (d₀ : Desc) where
  after : RuleTarget → List String → List Name → Nat → FS → Prop
  frame : ∀ {rt cmd deps i fs fs'}, (∀ f ∈ rt, fs' (d₀.fileBuild f) = fs (d₀.fileBuild f)) →
    (∀ t ∈ deps, d₀.view fs' t = d₀.view fs t) → after rt cmd deps i fs → after rt cmd deps i fs'

section
variable {d₀ : Desc} (O : Outline d₀) (d : Desc) (E : Env) (r : Rule) (dyn : List Name)

/-- The first `i` scripts of the rule have done what they are for. -/
def Outline.After (i : Nat) (fs : FS) : Prop :=
  ∀ cmd, substDo d (d.vardict r) r.doList = some cmd →
    O.after r.target cmd (lsort (r.depends ++ dyn)) i fs

/-- The files of the rule are what its `-do` list has to make of its dependencies. -/
def Outline.Made (fs : FS) : Prop := O.After d r dyn r.doList.length fs

/-- The scripts of a description do what they are for, if they do not fail. -/
structure Outline.Kept : Prop where
  start : ∀ r ∈ d.rules, r.phony = false → ∀ dyn fs, O.After d r dyn 0 fs
  script : ∀ r ∈ d.rules, r.phony = false → ∀ dyn tick i fs, i < r.doList.length →
    Scanned d r (fun _ => True) fs dyn → O.After d r dyn i fs →
    (E.exec tick r.target (.script i) fs).Passes r →
    O.After d r dyn (i + 1) (fs.putAll (E.exec tick r.target (.script i) fs).puts)

end

/-- A description of the same project: its rules are for some of the targets, and for a target
they may differ in what they do and depend on, but not in whether they do or depend on anything. -/
structure Edition (d₀ d : Desc) : Prop where
  build : d.build = d₀.build
  rules : ∀ r ∈ d.rules, ∃ r₀ ∈ d₀.rules, r₀.target = r.target ∧ r₀.phony = r.phony ∧
    (r₀.doList = [] ↔ r.doList = []) ∧ (r₀.depends = [] ↔ r.depends = [])
  names : ∀ r ∈ d.rules, ∀ t, r.NeedsName t → d.isTarget t = d₀.isTarget t ∧ d.file t = d₀.file t

section
variable {d₀ d d' : Desc} {E : Env} {O : Outline d₀} {scratch : Path → Prop} {C : Chronicle}
  {r r' r₀ : Rule} {dyn dyn' : List Name} {c c' : Cache} {fs fs' : FS} {w : World}

theorem Edition.fileBuild (h : Edition d₀ d) (f : Name) : d.fileBuild f = d₀.fileBuild f := by
  unfold Desc.fileBuild
  rw [h.build]

theorem Edition.files (h : Edition d₀ d) (ht : r.target = r₀.target) : d.files r = d₀.files r₀ := by
  unfold Desc.files
  rw [ht]
  exact List.map_congr_left fun f _ => h.fileBuild f

theorem Edition.view (h : Edition d₀ d) (hr : r ∈ d.rules) {t : Name} (ht : r.NeedsName t) :
    d.view fs t = d₀.view fs t := by
  obtain ⟨htarget, hfile⟩ := h.names r hr t ht
  unfold Desc.view
  rw [htarget, hfile]

/-- The rule for the same targets. -/
theorem Edition.rule (h : Edition d₀ d) (hr : r ∈ d.rules) (hr₀ : r₀ ∈ d₀.rules)
    (ht : r.target = r₀.target) (hne : r₀.target ≠ []) :
    r₀.phony = r.phony ∧ (r₀.doList = [] ↔ r.doList = []) ∧ (r₀.depends = [] ↔ r.depends = []) := by
  obtain ⟨r₁, hr₁, ht₁, h⟩ := h.rules r hr
  obtain rfl := d₀.rule_eq_of_target hr₀ hr₁ hne (ht.symm.trans ht₁.symm)
  exact h

theorem substDo_length {vardict : List (String × String)} {scripts : List Script} {cmd : List String}
    (h : substDo d vardict scripts = some cmd) : cmd.length = scripts.length := by
  unfold substDo at h
  induction scripts generalizing cmd with
  | nil =>
    obtain rfl := Option.some.inj h
    rfl
  | cons s scripts ih =>
    rw [List.mapM_cons] at h
    obtain ⟨text, -, h⟩ := Option.bind_eq_some_iff.mp h
    obtain ⟨rest, hrest, h⟩ := Option.bind_eq_some_iff.mp h
    obtain rfl := Option.some.inj h
    rw [List.length_cons, List.length_cons, ih hrest]

/-- What a rule needs is no scratch file. -/
theorem Unshared.kept (hd : Unshared d scratch) (hr : r ∈ d.rules) {t : Name} (ht : r.NeedsName t) :
    ¬scratch (d.file t) :=
  (hd.outside (Spares.nothing d fun _ => True) hr trivial ht).1

theorem Scanned.needed (hd : Unshared d scratch) (hr : r ∈ d.rules)
    (hs : Scanned d r (fun _ => True) fs dyn) : ∀ t ∈ r.depends ++ dyn, r.NeedsName t := fun t ht =>
  (List.mem_append.mp ht).elim .inl (hs.needs hd hr t)

/-- How far the rule has come depends on its files and on those that it depends on. -/
theorem Outline.After.congr (hed : Edition d₀ d) (hr : r ∈ d.rules)
    (hneeds : ∀ t ∈ r.depends ++ dyn, r.NeedsName t) {i : Nat} (h : O.After d r dyn i fs)
    (hfs : ∀ p ∈ d.files r, fs' p = fs p)
    (hdeps : ∀ t ∈ r.depends ++ dyn, fs' (d.file t) = fs (d.file t)) :
    O.After d r dyn i fs' := by
  refine fun cmd hcmd => O.frame (fun f hf => ?_) (fun t ht => ?_) (h cmd hcmd)
  · rw [← hed.fileBuild]
    exact hfs _ (List.mem_map_of_mem hf)
  · have ht := mem_lsort.mp ht
    rw [← hed.view hr (hneeds t ht), ← hed.view hr (hneeds t ht)]
    exact Desc.view_congr (hdeps t ht)

/-! ## Trust -/

/-- The rule, with these dynamic dependencies, passes the checks of `build`. -/
structure PassesChecks (d : Desc) (md5 : String → String) (c : Cache) (fs : FS) (r : Rule)
    (dyn : List Name) : Prop where
  files : fileExistsAll d fs r = true
  deps : DepsCurrent c r dyn
  hash : r.depends ++ dyn ≠ [] → ∃ h, stampList d md5 c fs (r.depends ++ dyn) = some h ∧
    (c.dephash.lookup r.target).getD (.list []) = .list h
  cmd : CmdCurrent d c r

/-- Whenever the checks of a rule for these targets pass, the rule is made. -/
structure Earned (O : Outline d₀) (scratch : Path → Prop) (C : Chronicle) (c : Cache) (fs : FS)
    (r₀ : Rule) : Prop where
  entered : c.cmd.lookup r₀.target ≠ none → c.deps.lookup r₀.target ≠ none
  made : ∀ d r dyn c' fs', Edition d₀ d → Unshared d scratch → r ∈ d.rules → r.target = r₀.target →
    c'.cmd.lookup r₀.target = c.cmd.lookup r₀.target →
    c'.deps.lookup r₀.target = c.deps.lookup r₀.target →
    c'.dephash.lookup r₀.target = c.dephash.lookup r₀.target →
    (∀ p ∈ d₀.files r₀, fs' p = fs p) → fs'.Logged scratch C → c'.Honest scratch C →
    Scanned d r (fun _ => True) fs' dyn → PassesChecks d C.md5 c' fs' r dyn → O.Made d r dyn fs'

/-- What is recorded of the rule and what it has made are as before. -/
theorem Earned.congr (h : Earned O scratch C c fs r₀)
    (hcmd : c'.cmd.lookup r₀.target = c.cmd.lookup r₀.target)
    (hdeps : c'.deps.lookup r₀.target = c.deps.lookup r₀.target)
    (hhash : c'.dephash.lookup r₀.target = c.dephash.lookup r₀.target)
    (hfs : ∀ p ∈ d₀.files r₀, fs' p = fs p) : Earned O scratch C c' fs' r₀ where
  entered := by
    rw [hcmd, hdeps]
    exact h.entered
  made d r dyn c₁ fs₁ hed hd hr ht hcmd₁ hdeps₁ hhash₁ hfs₁ :=
    h.made d r dyn c₁ fs₁ hed hd hr ht (hcmd₁.trans hcmd) (hdeps₁.trans hdeps) (hhash₁.trans hhash)
      fun p hp => (hfs₁ p hp).trans (hfs p hp)

/-- Nothing is recorded of the rule. -/
theorem Earned.of_none (h : c.cmd.lookup r₀.target = none) : Earned O scratch C c fs r₀ where
  entered hne := absurd h hne
  made d r dyn c' fs' _ _ _ ht hcmd _ _ _ _ _ _ hp := by
    obtain ⟨cmd, -, hlookup⟩ := hp.cmd
    rw [ht, hcmd, h] at hlookup
    cases hlookup

/-- A file of the rule is missing. -/
theorem Earned.of_missing (he : c.cmd.lookup r₀.target ≠ none → c.deps.lookup r₀.target ≠ none)
    {p : Path} (hp : p ∈ d₀.files r₀) (hnone : fs p = none) : Earned O scratch C c fs r₀ where
  entered := he
  made d r dyn c' fs' hed _ _ ht _ _ _ hfs _ _ _ hpasses := by
    have hp' : p ∈ d.files r := by
      rw [hed.files ht]
      exact hp
    have hthere := List.all_eq_true.mp hpasses.files p hp'
    simp [fileMtimeIfExists, FS.stat, hfs p hp, hnone] at hthere

/-- **A rule that is made, and entered in the cache, has earned its trust.** -/
theorem Earned.of_made (hed : Edition d₀ d) (hd : Unshared d scratch) (hr : r ∈ d.rules)
    (hr₀ : r₀ ∈ d₀.rules) (ht : r.target = r₀.target) (hne : r₀.target ≠ []) (hmd5 : E.md5 = C.md5)
    (hl : fs.Logged scratch C) (hh : c.Honest scratch C) (hs : Scanned d r (fun _ => True) fs dyn)
    (hdeps : c.deps.lookup r.target = some (lsort dyn)) (hhash : Hashed d E c fs r dyn)
    (hcmd : CmdCurrent d c r) (hmade : O.Made d r dyn fs) : Earned O scratch C c fs r₀ where
  entered _ := by
    rw [← ht, hdeps]
    exact Option.some_ne_none _
  made d' r' dyn' c' fs' hed' hd' hr' ht' hcmd' hdeps' hhash' hfs' hl' hh' hs' hp := by
    obtain ⟨cmd, hsubst, hlookup⟩ := hcmd
    have hneeds := hs.needed hd hr
    have hneeds' := hs'.needed hd' hr'
    have htarget : r'.target = r.target := ht'.trans ht.symm
    rw [← ht] at hcmd' hdeps' hhash'
    -- the text of the `-do` list and the dynamic dependencies are the same
    have htext : substDo d' (d'.vardict r') r'.doList = some cmd := by
      obtain ⟨cmd₁, hsubst₁, hlookup₁⟩ := hp.cmd
      rw [htarget, hcmd', hlookup] at hlookup₁
      obtain rfl := Option.some.inj hlookup₁
      exact hsubst₁
    have hdyn : lsort dyn' = lsort dyn := by
      refine hp.deps.1 _ ?_
      rw [htarget, hdeps', hdeps]
    -- and so are all dependencies, and what is seen of them
    have hsame : lsort (r.depends ++ dyn) = lsort (r'.depends ++ dyn') ∧
        ∀ t ∈ r.depends ++ dyn, d'.view fs' t = d.view fs t := by
      by_cases hempty : r'.depends ++ dyn' = []
      · obtain ⟨hdepends', rfl⟩ := List.append_eq_nil_iff.mp hempty
        have hdepends : r.depends = [] := (hed.rule hr hr₀ ht hne).2.2.mp
          ((hed'.rule hr' hr₀ ht' hne).2.2.mpr hdepends')
        have hnil : dyn = [] :=
          ((List.perm_insertionSort (· ≤ ·) dyn).symm.trans (List.Perm.of_eq hdyn.symm)).eq_nil
        rw [hdepends, hdepends', hnil]
        exact ⟨rfl, fun _ h => absurd h List.not_mem_nil⟩
      · obtain ⟨h', hstamps', hsaved'⟩ := hp.hash hempty
        obtain ⟨h, hstamps, hsaved⟩ := hhash
        rw [htarget, hhash', hsaved] at hsaved'
        obtain rfl := DepHash.list.inj hsaved'
        rw [hmd5] at hstamps
        refine stampList_views hl hh hl' hh' (fun t ht => hd.kept hr (hneeds t ht)) ?_ hstamps hstamps'
        intro t ht ht'
        rw [(hed.names r hr t (hneeds t ht)).2, (hed'.names r' hr' t (hneeds' t ht')).2]
    have hlength : r'.doList.length = r.doList.length :=
      (substDo_length htext).symm.trans (substDo_length hsubst)
    intro cmd₁ hsubst₁
    obtain rfl := Option.some.inj (htext.symm.trans hsubst₁)
    rw [hlength, htarget, ← hsame.1]
    refine O.frame (fun f hf => ?_) (fun t ht => ?_) (hmade cmd hsubst)
    · refine hfs' _ ?_
      rw [ht] at hf
      exact List.mem_map_of_mem hf
    · have hmem := mem_lsort.mp ht
      have hmem' : t ∈ r'.depends ++ dyn' := by
        rw [hsame.1] at ht
        exact mem_lsort.mp ht
      rw [← hed'.view hr' (hneeds' t hmem'), ← hed.view hr (hneeds t hmem)]
      exact hsame.2 t hmem

end

/-! ## The checks -/

section
variable {d : Desc} {E : Env} {r : Rule} {dyn : List Name}

theorem checkHash_passes (hn : d.norun = 0) (st : Status) (w : World) :
    wp (checkHash d E r (r.depends ++ dyn) st)
      (fun st' _ => st' = .uptodate → r.depends ++ dyn ≠ [] → Hashed d E w.cache w.fs r dyn)
      (fun _ _ => True) w := by
  unfold checkHash
  rw [wp_ite]
  refine ⟨fun _ => ?_, fun hc => ?_⟩
  · rw [wp_bind]
    unfold needbuild
    rw [wp_bind, wp_get, wp_bind]
    refine (calcDeplistHash_hashing hn (r.depends ++ dyn) w).imp ?_ fun _ _ h => h
    rintro h w₁ ⟨hh, -⟩
    rw [wp_ite]
    exact ⟨fun he _ _ => ⟨h, hh, he.symm⟩, fun _ => nofun⟩
  · have hnot : ∀ st' : Status, st' = st → st' = .uptodate → r.depends ++ dyn ≠ [] →
        Hashed d E w.cache w.fs r dyn := by
      rintro st' rfl rfl hne
      have hsome : (r.depends ++ dyn).isEmpty = false := List.isEmpty_eq_false_iff.mpr hne
      rw [hsome] at hc
      exact absurd rfl hc
    rw [wp_ite]
    exact ⟨fun _ => wp_bind_last fun _ _ => wp_bind_last fun _ _ => hnot st rfl, fun _ => hnot st rfl⟩

/-- A rule that `build` finds up to date passes the checks. -/
theorem checkRule_passes (hn : d.norun = 0) (hforce : d.force = false) {t : Name}
    (ht : d.ruleFor t = some r) (hphony : r.phony = false) (hdo : r.doList ≠ []) {st : Status}
    (w : World) (howned : Owned d w.cache)
    (hfiles : st = .uptodate → fileExistsAll d w.fs r = true) :
    wp (checkRule d E r t (d.vardict r) dyn st)
      (fun st' _ => st' = .uptodate → PassesChecks d E.md5 w.cache w.fs r dyn)
      (fun _ _ => True) w := by
  have hhash : wp (checkRule d E r t (d.vardict r) dyn st)
      (fun st' _ => st' = .uptodate → r.depends ++ dyn ≠ [] → Hashed d E w.cache w.fs r dyn)
      (fun _ _ => True) w := by
    unfold checkRule
    rw [wp_bind, wp_get, wp_bind]
    have hstop : wp (stopIf d.quickstop .quickstop) (fun _ w' => w' = w) (fun _ _ => True) w := by
      unfold stopIf
      rw [wp_bind, wp_get, wp_ite]
      exact ⟨fun _ => trivial, fun _ => rfl⟩
    refine hstop.imp ?_ fun _ _ h => h
    rintro - w₀ rfl
    rw [wp_bind]
    refine (checkHash_passes hn _ w₀).imp (fun st₁ w₁ hpass => ?_) fun _ _ h => h
    rw [wp_bind, wp_get, wp_bind]
    refine (checkCommands_outdates r (d.vardict r) _ w₁).imp (fun st₂ w₂ hout => ?_) fun _ _ h => h
    rw [wp_bind, wp_get, wp_pure]
    intro hup
    have hall := ((checkOwner_outdates r t w₁ st₁).trans hout).trans
      (checkExec_outdates (d := d) (E := E) r w₂ st₂)
    rw [hup] at hall
    exact hpass hall.of_uptodate
  refine ((checkRule_compared hn hforce ht w howned).and hhash).imp ?_ fun _ _ _ => trivial
  rintro st' w' ⟨⟨hre, -, hout, hup, -, -⟩, hpass⟩ hst'
  obtain ⟨hdeps, hcmd, -⟩ := hup hphony hdo hst'
  rw [hre.rest] at hdeps hcmd
  rw [hst'] at hout
  exact ⟨hfiles hout.of_uptodate, hdeps, hpass hst', hcmd⟩

end

end Tmake
