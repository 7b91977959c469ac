import TmakeProof.Untouched
import TmakeProof.NullBuild

/-! # The life of a project

A project is built, its files and its description are edited, and it is built again
(`ComesTo`).  In every run of such a life in which nothing has failed, however many jobs run
at once and in whatever order they end, each rule that is done is made, of its dependencies
as they are now (`done_made`): be it that its `-do` list has run, or that `build` has found
nothing to do.
-/
namespace Tmake
open Weakest Machine

/-- What is asked of a run: its description is one of the project, its scripts do what they are for
and write only what is theirs, and it is neither a dry nor a forced one. -/
structure Outline.Sound {d₀ : Desc} (O : Outline d₀) (scratch : Path → Prop) (C : Chronicle) (d : Desc)
    (E : Env) : Prop where
  edition : Edition d₀ d
  unshared : Unshared d scratch
  confined : Confined d scratch E
  kept : O.Kept d E
  md5 : E.md5 = C.md5
  real : d.norun = 0
  unforced : d.force = false

/-- Every rule for a name in `Ok` is made. -/
def Outline.Holds {d₀ : Desc} (O : Outline d₀) (d : Desc) (Ok : Name → Prop) (fs : FS) : Prop :=
  ∀ t r, Ok t → d.ruleFor t = some r → r.Makes → ∃ dyn, Known d Ok fs r dyn ∧ O.Made d r dyn fs

/-- What `.makecache` keeps from one run to the next of what the checks compare. -/
structure Resumes (w : World) (c : Core) : Prop where
  cmd : ∀ rt, c.cache.cmd.lookup rt = w.cache.cmd.lookup rt
  deps : ∀ rt, c.cache.deps.lookup rt = w.cache.deps.lookup rt
  dephash : ∀ rt, c.cache.dephash.lookup rt = w.cache.dephash.lookup rt
  srchash : ∀ p, c.cache.srchash.lookup p = w.cache.srchash.lookup p

/-- What a project comes to, by runs in which nothing fails and by edits.  Anything may be edited,
but not what a rule has made: that may be taken away. -/
inductive ComesTo {d₀ : Desc} (O : Outline d₀) (scratch : Path → Prop) (C : Chronicle) :
    Core → Prop where
  | first {c : Core} (hcache : c.cache = {}) : ComesTo O scratch C c
  | next {c c' : Core} {d : Desc} {E : Env} {w : World} (h : ComesTo O scratch C c)
      (hsound : O.Sound scratch C d E) (hclean : c.cleaning = false) (howned : Owned d c.cache)
      (hrun : Run d E (fun _ w => w.fs.Logged scratch C) c [] w) (hidle : w.running = [])
      (hl : w.fs.Logged scratch C) (hsmooth : Smooth w.trace) (hresumes : Resumes w c')
      (hedits : ∀ r₀ ∈ d₀.rules, r₀.Makes →
        (∀ p ∈ d₀.files r₀, c'.fs p = w.fs p) ∨ ∃ p ∈ d₀.files r₀, c'.fs p = none) :
      ComesTo O scratch C c'

section
variable {d₀ : Desc} {O : Outline d₀} {scratch : Path → Prop} {C : Chronicle}

/-- **A cache that a project comes to can be trusted.** -/
theorem ComesTo.trusted (hd₀ : Unshared d₀ scratch) {c : Core} (h : ComesTo O scratch C c) :
    c.cache.Honest scratch C ∧
      ∀ r₀ ∈ d₀.rules, r₀.Makes → Earned O scratch C c.cache c.fs r₀ := by
  induction h with
  | first hcache =>
    rw [hcache]
    refine ⟨fun p _ mtime digest hlookup => ?_, fun r₀ _ _ => .of_none (AList.lookup_empty _)⟩
    rw [show ({} : Cache).srchash = ∅ from rfl, AList.lookup_empty] at hlookup
    cases hlookup
  | @next c c' d E w _ hsound hclean howned hrun hidle hl hsmooth hresumes hedits ih =>
    obtain ⟨hhonest, hearned⟩ := ih
    have hcourse := hrun.onCourse hsound.real hsound.unforced hsound.edition hd₀ hsound.unshared
      hsound.confined hsound.kept hsound.md5 hclean howned hhonest hearned hl hsmooth
    refine ⟨fun p hp mtime digest hlookup => ?_, fun r₀ hr₀ hmakes => ?_⟩
    · rw [hresumes.srchash] at hlookup
      exact hcourse.honest p hp mtime digest hlookup
    · -- no rule is at work any more
      have hw : Earned O scratch C w.cache w.fs r₀ := by
        refine (hcourse.earned r₀ hr₀ hmakes).resolve_left ?_
        rintro (⟨f, hf, -⟩ | ⟨job, hj, -⟩)
        · exact absurd hf List.not_mem_nil
        · rw [hidle] at hj
          exact absurd hj List.not_mem_nil
      rcases hedits r₀ hr₀ hmakes with hsame | ⟨p, hp, hnone⟩
      · exact hw.congr (hresumes.cmd _) (hresumes.deps _) (hresumes.dephash _) hsame
      · refine .of_missing ?_ hp hnone
        rw [hresumes.cmd, hresumes.deps]
        exact hw.entered

/-- In a run of such a project every rule that is done is made. -/
theorem ComesTo.made (hd₀ : Unshared d₀ scratch) {c : Core} (hc : ComesTo O scratch C c) {d : Desc}
    {E : Env} (hsound : O.Sound scratch C d E) (hclean : c.cleaning = false)
    (howned : Owned d c.cache) {p : Point} {w : World}
    (h : Run d E (fun _ w => w.fs.Logged scratch C) c p w) (hl : w.fs.Logged scratch C)
    (hsmooth : Smooth w.trace) : O.Holds d (d.Done w.toCore) w.fs := by
  intro t r ht hr hmakes
  obtain ⟨hhonest, hearned⟩ := hc.trusted hd₀
  have hcourse := h.onCourse hsound.real hsound.unforced hsound.edition hd₀ hsound.unshared
    hsound.confined hsound.kept hsound.md5 hclean howned hhonest hearned hl hsmooth
  have htrue := h.truthful hsound.real hsound.unforced hsound.unshared hsound.confined hclean howned
    hsmooth
  obtain ⟨root, hinv, -⟩ := h.inv
  exact hcourse.made hsound.edition hsound.unshared hsound.md5 hinv hl htrue ht hr hmakes

end

def unary (n : Nat) : String := String.ofList (List.replicate n 'x')

/-- Files that grow by one character each time, from some time on. -/
def grown (start : Nat) : Chronicle where
  content _ mtime := unary (mtime - start).toNat
  md5 := id
  distinct _ _ _ := id

/-- The contents of these names, one after the other. -/
def textOf (fs : FS) (deps : List Name) : String :=
  String.join (deps.map fun t => match pairRules.view fs t with
    | some (.content content) => content
    | _ => "")

theorem textOf_congr {fs fs' : FS} {deps : List Name}
    (h : ∀ t ∈ deps, pairRules.view fs' t = pairRules.view fs t) : textOf fs' deps = textOf fs deps := by
  unfold textOf
  rw [List.map_congr_left fun t ht => by rw [h t ht]]

/-- Each rule is for joining what it depends on. -/
def joining : Outline pairRules where
  after rt _ deps i fs := i ≠ 0 → ∀ f ∈ rt,
    ∃ mtime, fs (pairRules.fileBuild f) = some (.file mtime (textOf fs deps))
  frame {rt cmd deps i fs fs'} hfiles hdeps h hi f hf := by
    obtain ⟨mtime, hfile⟩ := h hi f hf
    exact ⟨mtime, by rw [hfiles f hf, hfile, textOf_congr hdeps]⟩

/-- The first script of a rule does that, and no other script does anything. -/
def joiningAll (start : Nat) : Env where
  exec _ r part fs := match part with
    | .script 0 => { puts := r.map fun f =>
        let text := textOf fs (((pairRules.ruleFor f).map (·.depends)).getD [])
        (pairRules.fileBuild f, some (.file (start + text.length) text)) }
    | _ => {}
  pick := id
  md5 := id

/-- All other files than those of the two rules. -/
def elsewhere (p : Path) : Prop := p ∉ pairFiles

theorem pairFiles_kept : ∀ p ∈ pairFiles, ¬elsewhere p := fun _ hp h => h hp

theorem joiningAll_confined (start : Nat) : Confined pairRules elsewhere (joiningAll start) := by
  intro r hr tick part fs x hx
  have hphony : ∀ r ∈ pairRules.rules, r.phony = false := by simp [pairRules, madeFrom]
  cases part with
  | script i =>
    cases i with
    | zero =>
      obtain ⟨f, hf, rfl⟩ := List.mem_map.mp hx
      refine ⟨.inr ⟨hphony r hr, List.mem_map_of_mem hf⟩, fun he => ?_⟩
      cases he
    | succ => cases hx
  | onerror | «finally» | msg => cases hx

theorem joiningAll_keeps {t : Name} {deps : List Name}
    (hr : pairRules.ruleFor t = some (madeFrom t deps)) (hsort : lsort (deps ++ []) = deps)
    (hdeps : ∀ u ∈ deps, pairRules.file u ≠ pairRules.fileBuild t)
    (start tick : Nat) (fs : FS) : joining.After pairRules (madeFrom t deps) [] 1
      (fs.putAll ((joiningAll start).exec tick [t] (.script 0) fs).puts) := by
  intro cmd _ _ f hf
  obtain rfl := List.mem_singleton.mp hf
  refine ⟨start + (textOf fs deps).length, ?_⟩
  have hputs : fs.putAll ((joiningAll start).exec tick [f] (.script 0) fs).puts =
      Function.update fs (pairRules.fileBuild f)
        (some (.file (start + (textOf fs deps).length) (textOf fs deps))) := by
    have hdepends : ((pairRules.ruleFor f).map (·.depends)).getD [] = deps := by rw [hr]; rfl
    change Function.update fs _ (some (.file (start + (textOf fs _).length) (textOf fs _))) = _
    rw [hdepends]
  change fs.putAll _ _ = some (.file _ (textOf _ (lsort (deps ++ []))))
  rw [hputs, hsort, Function.update_self]
  rw [textOf_congr fun u hu => Desc.view_congr (Function.update_of_ne (hdeps u hu) ..)]

theorem joiningAll_kept (start : Nat) : joining.Kept pairRules (joiningAll start) where
  start _ _ _ _ _ _ _ h := absurd rfl h
  script r hr hphony dyn tick i fs hi hs _ _ := by
    have hnone : ∀ r ∈ pairRules.rules, r.dyndep = none ∧ r.doList.length = 1 := by
      simp [pairRules, madeFrom]
    obtain ⟨hdyndep, hlength⟩ := hnone r hr
    obtain rfl : dyn = [] := by
      unfold Scanned at hs
      rwa [hdyndep] at hs
    obtain rfl : i = 0 := by omega
    rcases List.mem_pair.mp hr with rfl | rfl
    · exact joiningAll_keeps rfl (by decide +kernel) (by decide +kernel) start tick fs
    · exact joiningAll_keeps rfl (by decide +kernel) (by decide +kernel) start tick fs

theorem joiningAll_sound (start : Nat) :
    joining.Sound elsewhere (grown start) pairRules (joiningAll start) where
  edition := {
    build := rfl
    rules := fun r hr => ⟨r, hr, rfl, rfl, .rfl, .rfl⟩
    names := fun _ _ _ _ => ⟨rfl, rfl⟩ }
  unshared := pairRules_unshared pairFiles_kept
  confined := joiningAll_confined start
  kept := joiningAll_kept start
  md5 := rfl
  real := rfl
  unforced := rfl

/-- `Logged`, of the files of the two rules. -/
def loggedHere (start : Nat) (fs : FS) : Bool := pairFiles.all fun p =>
  match fs.stat p with
  | some (mtime, content) => content == (grown start).content p mtime
  | none => true

theorem loggedHere_iff {start : Nat} {fs : FS} :
    loggedHere start fs = true ↔ fs.Logged elsewhere (grown start) := by
  unfold loggedHere
  rw [List.all_eq_true]
  refine ⟨fun h p hp mtime content hstat => ?_, fun h p hp => ?_⟩
  · have h := h p (not_not.mp hp)
    rw [hstat] at h
    exact eq_of_beq h
  · cases hstat : fs.stat p with
    | none => rfl
    | some x => exact beq_iff_eq.mpr (h p (pairFiles_kept p hp) x.1 x.2 hstat)

/-- Both sources are there. -/
def youngSources : Core := { fs := fun p => if p = "s" ∨ p = "u" then some (.file 1 "x") else none }

/-- A longer version of `u`. -/
def lengthened (fs : FS) : FS := Function.update fs "u" (some (.file 2 "xx"))

/-- `b` is built, `u` is edited, and `b` is built again. -/
theorem built_twice : ∃ (w : World) (p' : Point) (w' : World), w.fs "s" = some (.file 1 "x") ∧
    ComesTo joining elsewhere (grown 0) { cache := w.cache, fs := lengthened w.fs } ∧
    Owned pairRules w.cache ∧
    Run pairRules (joiningAll 0) (fun _ w => w.fs.Logged elsewhere (grown 0))
      { cache := w.cache, fs := lengthened w.fs } p' w' ∧
    w'.fs.Logged elsewhere (grown 0) ∧ Smooth w'.trace ∧ starts w'.trace = [["b"]] ∧
    pairRules.Done w'.toCore "b" := by
  have hwalk : ((twice (joiningAll 0) (fun _ w => loggedHere 0 w.fs) lengthened 25 youngSources).map
      fun x => decide ((returned? x.1.1 = some ("b", .built) ∧ x.1.1.length = 1 ∧
          x.1.2.running.length = 0 ∧ loggedHere 0 x.1.2.fs = true ∧ smooth x.1.2.trace = true) ∧
        starts x.2.2.trace = [["b"]] ∧ (x.2.2.rulestatus ["b"]).done = true ∧
          loggedHere 0 x.2.2.fs = true ∧ smooth x.2.2.trace = true)) = some true := by decide +kernel
  obtain ⟨⟨⟨p, w⟩, p', w'⟩, hx, he⟩ := Option.map_eq_some_iff.mp hwalk
  obtain ⟨hrun, hrun'⟩ := twice_runs (S := fun _ w => w.fs.Logged elsewhere (grown 0))
    (fun _ _ => loggedHere_iff.mp) hx
  obtain ⟨⟨hp, hlength, hidle, hl, hsmooth⟩, hstarts, hb, hl', hsmooth'⟩ := of_decide_eq_true he
  have hd := pairRules_unshared pairFiles_kept
  -- the first run has ended
  obtain ⟨k, rfl⟩ := returned?_some hp
  obtain rfl : k = [] := List.length_eq_zero_iff.mp (Nat.succ.inj hlength)
  have howned := (hrun.truthful rfl rfl hd (joiningAll_confined 0) rfl (c := youngSources)
    sources_owned (smooth_of hsmooth)).owned
  have hall : ∀ r ∈ pairRules.rules, "s" ∉ pairRules.files r ∧ "u" ∉ pairRules.files r := by
    decide +kernel
  have hs : w.fs "s" = some (.file 1 "x") :=
    hrun.sources rfl rfl hd (joiningAll_confined 0) rfl (c := youngSources) sources_owned
      (smooth_of hsmooth) (pairFiles_kept "s" (by decide +kernel)) fun r hr _ => (hall r hr).1
  refine ⟨w, p', w', hs, ?_, howned, hrun', loggedHere_iff.mp hl', smooth_of hsmooth', hstarts,
    (Desc.done_rule rfl).mpr hb⟩
  refine .next (.first (c := youngSources) rfl) (joiningAll_sound 0) rfl sources_owned hrun.settled
    (List.length_eq_zero_iff.mp hidle) (loggedHere_iff.mp hl) (smooth_of hsmooth)
    ⟨fun _ => rfl, fun _ => rfl, fun _ => rfl, fun _ => rfl⟩ fun r hr _ => .inl fun p hp => ?_
  refine Function.update_of_ne ?_ ..
  rintro rfl
  exact (hall r hr).2 hp

theorem madeFrom_makes (t : Name) (depends : List Name) : (madeFrom t depends).Makes :=
  ⟨by simp [madeFrom], rfl, by simp [madeFrom]⟩

end Tmake
