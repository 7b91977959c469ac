import TmakeProof.Projects

/-! # Clean builds

A build in a tree that has seen other builds leaves the same files as one in a clean tree.
Two builds of the same rules, each in a project with a life of its own, start from the same
sources but for their times; they may run different numbers of jobs, which end in different
orders, and compare times or digests.  If the rules determine what is made
(`Outline.Determines`) and no scan looks at a time (`Scan.Timeless`), whatever is done in both
is the same in both, but for its times (`builds_agree`).

The induction follows the first build.  What it settles depends on what it has settled
before, so on files that are the same in both trees; hence the scan of the rule finds the
same names in both (`Scanning.transfer`), and the rule makes the same of them.
-/
namespace Tmake
open Weakest Machine

/-! ## The same but for times -/

/-- A file without its times. -/
def Node.undated : Node → Node
  | .file _ content => .file 0 content
  | .link text _ seen => .link text 0 (seen.map fun x => (0, x.2))

/-- The file is the same in both trees, but for its times. -/
def FS.Alike (fs fs' : FS) (p : Path) : Prop := (fs' p).map Node.undated = (fs p).map Node.undated

/-- The trees are alike in all files that no `-do` list makes. -/
def SameSources (d : Desc) (scratch : Path → Prop) (fs fs' : FS) : Prop :=
  ∀ p, ¬scratch p → (∀ r ∈ d.rules, r.Makes → p ∉ d.files r) → fs.Alike fs' p

/-- They are alike in what no rule makes and in the files of these targets. -/
def AlikeOn (d : Desc) (scratch : Path → Prop) (L : Name → Prop) (fs fs' : FS) : Prop :=
  ∀ p, ¬scratch p → (∀ r ∈ d.rules, p ∈ d.files r → ∃ t, L t ∧ d.ruleFor t = some r) →
    fs.Alike fs' p

/-- A scan that looks at no time of a file. -/
inductive Scan.Timeless (d : Desc) (scratch : Path → Prop) : (Name → Prop) → Scan → Prop where
  | done {L} : Timeless d scratch L .done
  | peek {L k} (hk : ∀ fs fs', AlikeOn d scratch L fs fs' → k fs' = k fs)
      (h : ∀ fs, Timeless d scratch L (k fs)) : Timeless d scratch L (.peek k)
  | lookup {L f keep k}
      (hkeep : ∀ fs fs', AlikeOn d scratch (fun t => L t ∨ t = f) fs fs' → keep fs' = keep fs)
      (h : ∀ b, Timeless d scratch (fun t => L t ∨ t = f) (k b)) :
      Timeless d scratch L (.lookup f keep k)

/-- What the scripts of a rule have to make of its dependencies is determined. -/
def Outline.Determines {d₀ : Desc} (O : Outline d₀) : Prop :=
  ∀ rt cmd deps fs fs', cmd ≠ [] → O.after rt cmd deps cmd.length fs →
    O.after rt cmd deps cmd.length fs' → (∀ t ∈ deps, d₀.view fs' t = d₀.view fs t) →
    ∀ f ∈ rt, fs.Alike fs' (d₀.fileBuild f)

/-- The rules are the same; the options need not be. -/
structure Desc.SameRules (d d' : Desc) : Prop where
  rules : d'.rules = d.rules
  aliases : d'.aliases = d.aliases
  defines : d'.defines = d.defines
  build : d'.build = d.build
  relative : d'.relative = d.relative

section
variable {d₀ d d' : Desc} {E : Env} {O : Outline d₀} {scratch : Path → Prop} {fs fs' : FS} {p : Path}
  {r : Rule} {t : Name} {L L' K K' : Name → Prop} {dyn dyn' : List Name}

theorem FS.Alike.cases (h : fs.Alike fs' p) : (fs p = none ∧ fs' p = none) ∨
    (∃ m m' content, fs p = some (.file m content) ∧ fs' p = some (.file m' content)) ∨
    ∃ text m m' seen seen', fs p = some (.link text m seen) ∧ fs' p = some (.link text m' seen') ∧
      seen'.map (·.2) = seen.map (·.2) := by
  unfold FS.Alike at h
  cases hnode : fs p with
  | none =>
    rw [hnode] at h
    exact .inl ⟨rfl, Option.map_eq_none_iff.mp h⟩
  | some node =>
    rw [hnode] at h
    obtain ⟨node', hnode', he⟩ := Option.map_eq_some_iff.mp h
    cases node with
    | file m content =>
      cases node' with
      | file m' content' =>
        obtain rfl := (Node.file.inj he).2
        exact .inr (.inl ⟨m, m', content', rfl, hnode'⟩)
      | link => cases he
    | link text m seen =>
      cases node' with
      | file => cases he
      | link text' m' seen' =>
        obtain ⟨rfl, -, hseen⟩ := Node.link.inj he
        refine .inr (.inr ⟨text', m, m', seen, seen', rfl, hnode', ?_⟩)
        have hseen := congrArg (Option.map (·.2)) hseen
        rwa [Option.map_map, Option.map_map] at hseen

theorem FS.Alike.stat (h : fs.Alike fs' p) : (fs'.stat p).map (·.2) = (fs.stat p).map (·.2) := by
  unfold FS.stat
  rcases h.cases with ⟨hnone, hnone'⟩ | ⟨m, m', content, hfile, hfile'⟩ |
    ⟨text, m, m', seen, seen', hlink, hlink', hseen⟩
  · rw [hnone, hnone']
  · rw [hfile, hfile']
    rfl
  · rw [hlink, hlink']
    exact hseen

theorem FS.Alike.exists (h : fs.Alike fs' p) : fs'.exists? p = fs.exists? p := by
  have hsome := congrArg Option.isSome h.stat
  rwa [Option.isSome_map, Option.isSome_map] at hsome

/-- A rule sees no time of what it depends on. -/
theorem FS.Alike.view (h : fs.Alike fs' (d.file t)) : d.view fs' t = d.view fs t := by
  unfold Desc.view
  split
  · rcases h.cases with ⟨hnone, hnone'⟩ | ⟨m, m', content, hfile, hfile'⟩ |
      ⟨text, m, m', seen, seen', hlink, hlink', -⟩
    · rw [hnone, hnone']
    · rw [hfile, hfile']
    · rw [hlink, hlink']
  · have hstat := congrArg (Option.map View.content) h.stat
    rwa [Option.map_map, Option.map_map] at hstat

theorem Desc.SameRules.eq (h : d.SameRules d') : d' =
    { d' with rules := d.rules, disjoint := d.disjoint, aliases := d.aliases, defines := d.defines,
              build := d.build, relative := d.relative } := by
  obtain ⟨hrules, haliases, hdefines, hbuild, hrelative⟩ := h
  cases d'
  dsimp only at hrules haliases hdefines hbuild hrelative
  subst hrules haliases hdefines hbuild hrelative
  rfl

theorem Desc.SameRules.ruleFor (h : d.SameRules d') (t : Name) : d'.ruleFor t = d.ruleFor t := by
  rw [h.eq]
  rfl

theorem Desc.SameRules.isTarget (h : d.SameRules d') (t : Name) : d'.isTarget t = d.isTarget t := by
  rw [h.eq]
  rfl

theorem Desc.SameRules.scanFile (h : d.SameRules d') (f : Name) : d'.scanFile f = d.scanFile f := by
  rw [h.eq]
  rfl

theorem Desc.SameRules.files (h : d.SameRules d') (r : Rule) : d'.files r = d.files r := by
  rw [h.eq]
  rfl

theorem Desc.SameRules.text (h : d.SameRules d') (r : Rule) :
    substDo d' (d'.vardict r) r.doList = substDo d (d.vardict r) r.doList := by
  have hvardict : d'.vardict r = d.vardict r := by
    rw [h.eq]
    rfl
  have hscript : ∀ segs, substScript d' (d.vardict r) segs = substScript d (d.vardict r) segs := by
    intro segs
    induction segs with
    | nil => rfl
    | cons seg segs ih =>
      cases seg with
      | lit text => rw [substScript, substScript, ih]
      | var name => rw [substScript, substScript, ih, lookupVar, lookupVar, h.defines]
  unfold substDo
  rw [hvardict]
  exact congrArg (List.mapM · r.doList) (funext fun s => hscript s.text)

theorem AlikeOn.mono (h : AlikeOn d scratch L fs fs') (hL : ∀ t, L' t → d.isTarget t = true → L t) :
    AlikeOn d scratch L' fs fs' := by
  intro p hp hrules
  refine h p hp fun r hr hpr => ?_
  obtain ⟨t, ht, hrt⟩ := hrules r hr hpr
  exact ⟨t, hL t ht (d.isTarget_iff.mpr ⟨r, hrt⟩), hrt⟩

theorem Scan.Timeless.mono {prog : Scan} (h : prog.Timeless d scratch L) (hL : ∀ t, L t → L' t) :
    prog.Timeless d scratch L' := by
  induction h generalizing L' with
  | done => exact .done
  | peek hk _ ih =>
    exact .peek (fun fs fs' halike => hk fs fs' (halike.mono fun t ht _ => hL t ht))
      fun fs => ih fs hL
  | @lookup L f keep k hkeep _ ih =>
    have hL' : ∀ t, L t ∨ t = f → L' t ∨ t = f := fun t ht => ht.imp_left (hL t)
    exact .lookup (fun fs fs' halike => hkeep fs fs' (halike.mono fun t ht _ => hL' t ht))
      fun b => ih b hL'

/-! ## The same names are found -/

/-- The scans of all rules look at no time. -/
def Desc.Timeless (d : Desc) (scratch : Path → Prop) : Prop :=
  ∀ r ∈ d.rules, ∀ dyndep, r.dyndep = some dyndep → ∀ i ∈ r.inputs,
    (dyndep i).scan.Timeless d scratch (· ∈ r.depends)

theorem Scanning.timeless (hd : Unshared d scratch) (htime : d.Timeless scratch) (hr : r ∈ d.rules)
    {σ : ScanPoint} (h : Scanning d r K fs L σ) : σ.prog.Timeless d scratch L := by
  induction h with
  | start => exact .done
  | @input L found i inputs dyndep h hdyndep _ =>
    have hheld := h.held hd hr
    exact (htime r hr dyndep hdyndep i (hheld.left i List.mem_cons_self)).mono hheld.depends
  | peek _ ih =>
    cases ih with
    | peek _ h => exact h _
  | lookup _ _ ih =>
    cases ih with
    | lookup _ h => exact h _

/-- The file of a name that a rule needs is one on which trees agree that agree on the name. -/
theorem Unshared.alike (hd : Unshared d scratch) (hr : r ∈ d.rules) (hneeds : r.NeedsName t)
    (h : AlikeOn d scratch L fs fs') (hL : d.isTarget t = true → L t) : fs.Alike fs' (d.file t) := by
  cases hs : d.ruleFor t with
  | none =>
    have hfile : d.file t = t := by simp [Desc.file, Desc.isTarget, hs]
    obtain ⟨hscratch, hrules⟩ := hd.sources t ⟨hs, r, hr, hneeds⟩
    rw [hfile]
    exact h t hscratch fun s hsr hmem => absurd hmem (hrules s hsr)
  | some s =>
    have hsr := d.ruleFor_mem hs
    have hmem := d.file_mem hs
    refine h _ (hd.files s hsr _ hmem) fun u hu hmem' => ⟨t, hL (d.isTarget_iff.mpr ⟨s, hs⟩), ?_⟩
    have hsame : s.target = u.target := by
      by_contra hne
      exact hd.apart s hsr u hu hne _ hmem hmem'
    rw [hs, d.rule_eq_of_target hsr hu (d.target_ne_nil hs) hsame]

theorem Desc.scanFile_eq {f : Name} (hf : d.mapAlias f = f) : d.scanFile f = d.file f := by
  unfold Desc.scanFile Desc.file
  rw [hf]

/-- **A scan goes the same way in both trees.** -/
theorem Scanning.transfer (hd : Unshared d scratch) (hsame : d.SameRules d')
    (htime : d.Timeless scratch) (hr : r ∈ d.rules)
    (halike : AlikeOn d scratch (fun t => K t ∧ K' t) fs fs') (hdepends : ∀ t ∈ r.depends, K t ∧ K' t)
    {σ : ScanPoint} (h : Scanning d r K fs L σ) (hend : Scanning d' r K' fs' L' ⟨dyn', .done, []⟩) :
    Scanning d' r K' fs' L σ ∧ ∀ t, L t → d.isTarget t = true → K t ∧ K' t := by
  induction h with
  | start => exact ⟨.start, fun t ht _ => hdepends t ht⟩
  | input _ hdyndep ih => exact ⟨.input ih.1 hdyndep, ih.2⟩
  | peek h ih =>
    obtain ⟨ih, hL⟩ := ih
    have hnext := Scanning.peek ih
    cases h.timeless hd htime hr with
    | peek hk _ =>
      rw [hk fs fs' (halike.mono hL)] at hnext
      exact ⟨hnext, hL⟩
  | @lookup L found f keep k inputs h hok ih =>
    obtain ⟨ih, hL⟩ := ih
    have hok' : d'.isTarget f = true → K' f := ih.ok_of_lookup hend
    have hL' : ∀ t, L t ∨ t = f → d.isTarget t = true → K t ∧ K' t := by
      rintro t (ht | rfl) htarget
      · exact hL t ht htarget
      · exact ⟨hok htarget, hok' ((hsame.isTarget t).trans htarget)⟩
    have hnext := Scanning.lookup ih hok'
    have hheld := h.held hd hr
    cases hheld.scan with
    | lookup hf _ _ =>
      cases h.timeless hd htime hr with
      | lookup hkeep _ =>
        have hfile := hd.alike hr (hheld.needs f .here) halike (hL' f (.inr rfl))
        rw [← Desc.scanFile_eq hf] at hfile
        rw [ScanPoint.answered, hsame.scanFile, hfile.exists, hkeep fs fs' (halike.mono hL')] at hnext
        exact ⟨hnext, hL'⟩

/-- So a rule has the same dynamic dependencies in both. -/
theorem Known.transfer (hd : Unshared d scratch) (hsame : d.SameRules d') (htime : d.Timeless scratch)
    (hr : r ∈ d.rules) (halike : AlikeOn d scratch (fun t => K t ∧ K' t) fs fs')
    (h : Known d K fs r dyn) (h' : Known d' K' fs' r dyn') : dyn = dyn' := by
  have hdepends : ∀ t ∈ r.depends, K t ∧ K' t := fun t ht =>
    ⟨h.deps t (List.mem_append_left _ ht), h'.deps t (List.mem_append_left _ ht)⟩
  have hs := h.scanned
  have hs' := h'.scanned
  unfold Scanned at hs hs'
  cases hdyndep : r.dyndep with
  | none =>
    rw [hdyndep] at hs hs'
    exact hs.trans hs'.symm
  | some dyndep =>
    rw [hdyndep] at hs hs'
    obtain ⟨L, hs⟩ := hs
    obtain ⟨L', hs'⟩ := hs'
    exact (hs.transfer hd hsame htime hr halike hdepends hs').1.eq_of_done hs'

/-! ## The same is made -/

/-- What is made of the same is the same. -/
theorem Outline.Determines.alike (hO : O.Determines) (hed : Edition d₀ d) (hsame : d.SameRules d')
    (hr : r ∈ d.rules) (hmakes : r.Makes) (hneeds : ∀ t ∈ r.depends ++ dyn, r.NeedsName t)
    (hdeps : ∀ t ∈ r.depends ++ dyn, fs.Alike fs' (d.file t)) {cmd : List String}
    (hcmd : substDo d (d.vardict r) r.doList = some cmd) (h : O.Made d r dyn fs)
    (h' : O.Made d' r dyn fs') : ∀ p ∈ d.files r, fs.Alike fs' p := by
  have hlength := substDo_length hcmd
  have hafter := h cmd hcmd
  have hafter' := h' cmd ((hsame.text r).trans hcmd)
  rw [← hlength] at hafter hafter'
  have hne : cmd ≠ [] := fun he => hmakes.2.2 (List.length_eq_zero_iff.mp (by rw [← hlength, he]; rfl))
  intro p hp
  obtain ⟨f, hf, rfl⟩ := List.mem_map.mp hp
  rw [hed.fileBuild]
  refine hO r.target cmd _ fs fs' hne hafter hafter' (fun t ht => ?_) f hf
  have ht := mem_lsort.mp ht
  rw [← hed.view hr (hneeds t ht), ← hed.view hr (hneeds t ht)]
  exact (hdeps t ht).view

/-- The trees are alike where both builds are done. -/
theorem AlikeOn.of_done (hsources : SameSources d scratch fs fs')
    (h : ∀ t r, L t → d.ruleFor t = some r → r.Makes → ∀ p ∈ d.files r, fs.Alike fs' p) :
    AlikeOn d scratch L fs fs' := by
  intro p hp hrules
  by_cases hmade : ∃ r ∈ d.rules, r.Makes ∧ p ∈ d.files r
  · obtain ⟨r, hr, hmakes, hmem⟩ := hmade
    obtain ⟨t, ht, hrt⟩ := hrules r hr hmem
    exact h t r ht hrt hmakes p hmem
  · exact hsources p hp fun r hr hmakes hmem => hmade ⟨r, hr, hmakes, hmem⟩

/-- **What a run has done is the same wherever all of it is made**, of the same sources. -/
theorem Run.alike {C : Chronicle} {c : Core} {p : Point} {w : World} {D : Name → Prop}
    (hd₀ : Unshared d₀ scratch) (hdet : O.Determines) (htime : d.Timeless scratch)
    (hsame : d.SameRules d') (hc : ComesTo O scratch C c) (hsound : O.Sound scratch C d E)
    (hclean : c.cleaning = false) (howned : Owned d c.cache) (hholds : O.Holds d' D fs')
    (hsources : SameSources d scratch c.fs fs')
    (h : Run d E (fun _ w => w.fs.Logged scratch C) c p w) (hl : w.fs.Logged scratch C)
    (hsmooth : Smooth w.trace) (t : Name) (r : Rule) (ht : d.Done w.toCore t ∧ D t)
    (hr : d.ruleFor t = some r) (hmakes : r.Makes) : ∀ p ∈ d.files r, w.fs.Alike fs' p := by
  have hd := hsound.unshared
  induction h generalizing t r with
  | fresh => cases (Desc.done_rule hr).mp ht.1
  | request _ _ ih => exact ih hl hsmooth t r ht hr hmakes
  | settled _ ih => exact ih hl hsmooth t r ht hr hmakes
  | @step p p' w w' hrun hlogged hnext ih =>
    have hrun' := hrun.step hlogged hnext
    obtain ⟨root, hinv, hm, hsmooth₀, hrec, hadmits, hsettles⟩ := hrun.next_recorded hsound.real
      hsound.unforced hd hsound.confined hclean howned hnext hsmooth
    obtain ⟨F, T, hspares, -, hchanges⟩ := hm.changes hsound.real hsound.unforced hd hsound.confined
      hinv hrec hadmits hsmooth
    -- what was done before is still the same
    have hbefore : ∀ t r, d.Done w.toCore t ∧ D t → d.ruleFor t = some r → r.Makes →
        ∀ p ∈ d.files r, w'.fs.Alike fs' p := by
      intro t r ht hr hmakes p hp
      have hmem := d.ruleFor_mem hr
      have hkept : w'.fs p = w.fs p := hchanges.fs p (hd.files r hmem p hp)
        (hd.outside_files hmem (hspares t r (.inr ht.1) hr) hp)
      unfold FS.Alike
      rw [hkept]
      exact ih hlogged hsmooth₀ t r ht hr hmakes p hp
    by_cases hold : (w.rulestatus r.target).done = true
    · exact hbefore t r ⟨(Desc.done_rule hr).mpr hold, ht.2⟩ hr hmakes
    -- the rule is done now, and its dependencies were done before
    have hmem := d.ruleFor_mem hr
    obtain ⟨dyn, hk, hcur⟩ := hsettles r hmem (by simpa using hold) ((Desc.done_rule hr).mp ht.1)
    have hk : Known d (d.Done w.toCore) w'.fs r dyn :=
      hk.grow hd hmem fun t ht => ht.elim False.elim id
    obtain ⟨cmd, hcmd, -⟩ := (hcur hmakes.2.1 hmakes.2.2).cmd
    obtain ⟨dyn₁, hk₁, hmade⟩ :=
      hc.made hd₀ hsound hclean howned hrun' hl hsmooth t r ht.1 hr hmakes
    obtain rfl := (hk.grow hd hmem (hm.done hinv)).unique hk₁
    obtain ⟨dyn', hk', hmade'⟩ := hholds t r ht.2 ((hsame.ruleFor t).trans hr) hmakes
    -- so far the trees are alike, and so the rule has the same dependencies in both
    have halike : AlikeOn d scratch (fun t => d.Done w.toCore t ∧ D t) w'.fs fs' := by
      refine .of_done (fun p hp hsource => ?_) hbefore
      unfold FS.Alike
      rw [hrun'.sources hsound.real hsound.unforced hd hsound.confined hclean howned hsmooth hp
        hsource]
      exact hsources p hp hsource
    obtain rfl := hk.transfer hd hsame htime hmem halike hk'
    have hneeds := hk.needs hd hmem
    refine hdet.alike hsound.edition hsame hmem hmakes hneeds (fun u hu => ?_) hcmd hmade hmade'
    exact hd.alike hmem (hneeds u hu) halike fun _ => ⟨hk.deps u hu, hk'.deps u hu⟩

end

theorem joining_determines : joining.Determines := by
  intro rt cmd deps fs fs' hcmd h h' hviews f hf
  have hne : cmd.length ≠ 0 := fun he => hcmd (List.length_eq_zero_iff.mp he)
  obtain ⟨mtime, hfile⟩ := h hne f hf
  obtain ⟨mtime', hfile'⟩ := h' hne f hf
  unfold FS.Alike
  rw [hfile, hfile', textOf_congr hviews]
  rfl

theorem pairRules_timeless : pairRules.Timeless elsewhere := by
  intro r hr dyndep hdyndep
  have hall : ∀ r ∈ pairRules.rules, r.dyndep = none := by simp [pairRules, madeFrom]
  rw [hall r hr] at hdyndep
  cases hdyndep

/-- The sources as they have become, in a tree of their own and at other times. -/
def copiedSources : Core where
  fs p := if p = "s" then some (.file 11 "x") else if p = "u" then some (.file 12 "xx") else none

end Tmake
