import TmakeProof.RunRecords

/-! # What is not built again

When a run has ended without failure, the cache is true of everything that was done
(`cache_truthful`).  A later run with this cache does not begin the `-do` list of a rule
whose dependencies are still the same files, whatever else has changed and whatever is
requested (`intact_not_rebuilt`); if no file has changed, it begins none of those that the
first run has seen (`null_build`).
-/
namespace Tmake
open Weakest Machine

/-- Once nothing has failed, the cache is true of everything that is done. -/
theorem Run.truthful {d : Desc} {E : Env} {scratch : Path → Prop} {c : Core} {p : Point} {w : World}
    (hn : d.norun = 0) (hforce : d.force = false) (hd : Unshared d scratch)
    (hE : Confined d scratch E) (hclean : c.cleaning = false) (howned : Owned d c.cache)
    {S : Point → World → Prop} (h : Run d E S c p w) (hsmooth : Smooth w.trace) :
    Truthful d E (d.Done w.toCore) w := by
  have hnone : Truthful d E (fun _ => False) (World.fresh c) := ⟨howned, fun _ _ h => h.elim⟩
  obtain ⟨hrec, -, -⟩ := h.recorded hn hforce hd hE hclean hnone hsmooth
  refine ⟨hrec.truthful.owned, fun t r ht hr => ?_⟩
  obtain ⟨dyn, hk, hcur⟩ := hrec.truthful.rules t r (.inr ht) hr
  exact ⟨dyn, hk.grow hd (d.ruleFor_mem hr) fun t ht => ht.elim False.elim id, hcur⟩

section
variable {d : Desc} {E E' : Env} {scratch : Path → Prop} {Ok : Name → Prop} {c : Core} {w : World}

/-! ## The next run -/

/-- The next run begins with the cache of the last one. -/
structure Recalls (w : World) (c : Core) : Prop where
  cache : Cache.Agree (fun _ => False) w.cache c.cache
  srchash : ∀ p, c.cache.srchash.lookup p = w.cache.srchash.lookup p

/-- The names in `Ok` were done, and they are what they were: so are their files and those that they
depend on, and a scan that looks for their dependencies finds the same. -/
structure Intact (d : Desc) (Ok : Name → Prop) (w : World) (c : Core) : Prop where
  done : ∀ t, Ok t → d.Done w.toCore t
  files : ∀ t r, Ok t → d.ruleFor t = some r → ∀ p ∈ d.files r, c.fs p = w.fs p
  sources : ∀ t, Ok t → d.Source t → c.fs t = w.fs t
  known : ∀ t r dyn, Ok t → d.ruleFor t = some r → Known d (d.Done w.toCore) w.fs r dyn →
    Known d Ok c.fs r dyn

theorem Intact.file (h : Intact d Ok w c) {r : Rule} (hr : r ∈ d.rules) {t : Name} (ht : Ok t)
    (hneeds : r.NeedsName t) : c.fs (d.file t) = w.fs (d.file t) := by
  cases hs : d.ruleFor t with
  | some s => exact h.files t s ht hs _ (d.file_mem hs)
  | none =>
    have hfile : d.file t = t := by simp [Desc.file, Desc.isTarget, hs]
    rw [hfile]
    exact h.sources t ht ⟨hs, r, hr, hneeds⟩

/-- What was true of the names in `Ok` still is. -/
theorem Intact.truthful (hd : Unshared d scratch) (h : Intact d Ok w c) (hc : Recalls w c)
    (hmd5 : E'.md5 = E.md5) (hstat : E'.statCmd = E.statCmd)
    (ht : Truthful d E (d.Done w.toCore) w) : Truthful d E' Ok (World.fresh c) := by
  refine ⟨fun t owner r hlookup hr => ?_, fun t r htok hr => ?_⟩
  · rw [World.fresh, hc.cache.target t fun _ => False.elim] at hlookup
    exact ht.owned t owner r hlookup hr
  obtain ⟨dyn, hk, hcur⟩ := ht.rules t r (h.done t htok) hr
  have hmem := d.ruleFor_mem hr
  have hk' := h.known t r dyn htok hr hk
  refine ⟨dyn, hk', fun hphony hdo => ?_⟩
  have hcur := hcur hphony hdo
  have hstamps : stampList d E'.md5 c.cache c.fs (r.depends ++ dyn) =
      stampList d E.md5 w.cache w.fs (r.depends ++ dyn) := by
    rw [hmd5]
    refine stampList_congr fun u hu => ?_
    have hfile := h.file hmem (hk'.deps u hu) (hk.needs hd hmem u hu)
    exact nameStamp_congr hfile fun b => fileStamp_congr hfile (hc.srchash _) b
  refine ⟨?_, ?_, ?_, ?_, fun hcheck x hx => ?_⟩
  · exact (fileExistsAll_congr (h.files t r htok hr)).trans hcur.files
  · have hdeps := hcur.deps
    unfold DepsCurrent at hdeps ⊢
    rwa [World.fresh, hc.cache.deps _ id]
  · obtain ⟨l, hl, hlookup⟩ := hcur.hash
    exact ⟨l, hstamps.trans hl, by rw [World.fresh, hc.cache.dephash _ id, hlookup]⟩
  · obtain ⟨cmd, hcmd, hlookup⟩ := hcur.cmd
    exact ⟨cmd, hcmd, by rw [World.fresh, hc.cache.cmd _ id, hlookup]⟩
  · rw [World.fresh, hc.cache.exec _ id] at hx
    rw [hstat]
    exact hcur.exec hcheck x hx

/-- If no file has changed that tmake looks at, then nothing has. -/
theorem Intact.of_unchanged (hd : Unshared d scratch) (hfs : ∀ p, ¬scratch p → c.fs p = w.fs p) :
    Intact d (d.Done w.toCore) w c where
  done _ ht := ht
  files _ r _ hr p hp := hfs p (hd.files r (d.ruleFor_mem hr) p hp)
  sources t _ ht := hfs t (hd.sources t ht).1
  known _ r dyn _ hr hk := by
    refine ⟨hk.scanned.mono hd (d.ruleFor_mem hr) (fun _ h => h) (fun t ht => ?_) ?_, hk.deps⟩
    · exact hk.deps t (List.mem_append_left _ ht)
    · exact fun p hp _ => hfs p hp

end

section
variable (d : Desc) (E E' : Env) (scratch : Path → Prop) (hn : d.norun = 0) (hforce : d.force = false)
  (hd : Unshared d scratch) (hE : Confined d scratch E) (hE' : Confined d scratch E')
  (hmd5 : E'.md5 = E.md5) (hstat : E'.statCmd = E.statCmd)
  (c₀ : Core) (hclean : c₀.cleaning = false) (howned : Owned d c₀.cache) (p : Point) (w : World)
  (h : Run d E (fun _ _ => True) c₀ p w) (hsmooth : Smooth w.trace)
  (c : Core) (hclean' : c.cleaning = false) (hc : Recalls w c)
include hn hforce hd hE hE' hmd5 hstat hclean howned h hsmooth hclean' hc

end

/-! ## Two rules -/

def madeFrom (t : Name) (depends : List Name) : Rule :=
  { target := [t], depends, doList := [⟨[.lit "make ", .var "target"]⟩] }

/-- `a` is made from `s`, and `b` from `a` and `u`. -/
def pairRules : Desc where
  rules := [madeFrom "a" ["s"], madeFrom "b" ["a", "u"]]
  disjoint := by simp [madeFrom]

/-- The first script of a rule makes its targets, and no other script does anything. -/
def makingAll : Env where
  exec tick r part _ := match part with
    | .script 0 => { puts := r.map fun f => (pairRules.fileBuild f, some (.file (tick + 1) "")) }
    | _ => {}
  pick := id

/-- The files of the two rules. -/
def pairFiles : List Path := ["s", "u", pairRules.fileBuild "a", pairRules.fileBuild "b"]

theorem pairRules_unshared {scratch : Path → Prop} (h : ∀ p ∈ pairFiles, ¬scratch p) :
    Unshared pairRules scratch where
  files r hr p hp := by
    have hall : ∀ r ∈ pairRules.rules, ∀ p ∈ pairRules.files r, p ∈ pairFiles := by decide +kernel
    exact h p (hall r hr p hp)
  apart := by decide +kernel
  sources t ht := by
    obtain ⟨hnone, s, hs, hneeds⟩ := ht
    have hdepends : t ∈ s.depends := by
      refine hneeds.resolve_right ?_
      rintro ⟨dyndep, hdyndep, -⟩
      have hall : ∀ s ∈ pairRules.rules, s.dyndep = none := by simp [pairRules, madeFrom]
      rw [hall s hs] at hdyndep
      cases hdyndep
    -- `s` and `u` are the names that no rule makes
    have hall : ∀ s ∈ pairRules.rules, ∀ t ∈ s.depends, (pairRules.ruleFor t).isSome = true ∨
        t ∈ pairFiles ∧ ∀ r ∈ pairRules.rules, t ∉ pairRules.files r := by decide +kernel
    rcases hall s hs t hdepends with hsome | hkept
    · rw [hnone] at hsome
      cases hsome
    · exact ⟨h t hkept.1, hkept.2⟩
  named r hr f hf := by
    have hall : ∀ r ∈ pairRules.rules, ∀ f ∈ r.target, (pairRules.ruleFor f).map (·.target) =
        some r.target := by decide +kernel
    obtain ⟨s, hs, he⟩ := Option.map_eq_some_iff.mp (hall r hr f hf)
    have hne : s.target ≠ [] := pairRules.target_ne_nil hs
    rw [hs, pairRules.rule_eq_of_target (pairRules.ruleFor_mem hs) hr hne he]
  scans r hr dyndep hdyndep := by
    have hall : ∀ r ∈ pairRules.rules, r.dyndep = none := by simp [pairRules, madeFrom]
    rw [hall r hr] at hdyndep
    cases hdyndep

theorem makingAll_confined : Confined pairRules (fun _ => False) makingAll := by
  intro r hr tick part fs x hx
  have hphony : ∀ r ∈ pairRules.rules, r.phony = false := by simp [pairRules, madeFrom]
  cases part with
  | script i =>
    cases i with
    | zero =>
      obtain ⟨f, hf, rfl⟩ := List.mem_map.mp hx
      refine ⟨.inr ⟨hphony r hr, List.mem_map_of_mem hf⟩, fun he => ?_⟩
      cases he
    | succ => cases hx
  | onerror | «finally» | msg => cases hx

/-- Some steps of a run that is asked for `b`. -/
def walkB (E : Env) (S : Point → World → Bool) (n : Nat) (c : Core) : Option (Point × World) :=
  walk pairRules E S n [.call "b" none, .sync "b"] (World.fresh c)

theorem walkB_runs {E : Env} {S : Point → World → Prop} {S' : Point → World → Bool}
    (hS : ∀ p w, S' p w = true → S p w) {n : Nat} {c : Core} {x : Point × World}
    (h : walkB E S' n c = some x) : Run pairRules E S c x.1 x.2 :=
  (Run.fresh.request "b").walk hS h

/-- A run, and another one in the file tree that it leaves, changed. -/
def twice (E : Env) (S : Point → World → Bool) (change : FS → FS) (n : Nat) (c : Core) :
    Option ((Point × World) × Point × World) := do
  let x ← walkB E S n c
  let y ← walkB E S n { cache := x.2.cache, fs := change x.2.fs }
  return (x, y)

theorem twice_runs {E : Env} {S : Point → World → Prop} {S' : Point → World → Bool}
    (hS : ∀ p w, S' p w = true → S p w) {change : FS → FS} {n : Nat} {c : Core} {x y : Point × World}
    (h : twice E S' change n c = some (x, y)) :
    Run pairRules E S c x.1 x.2 ∧
      Run pairRules E S { cache := x.2.cache, fs := change x.2.fs } y.1 y.2 := by
  obtain ⟨x, hx, h⟩ := Option.bind_eq_some_iff.mp h
  obtain ⟨y, hy, h⟩ := Option.bind_eq_some_iff.mp h
  obtain ⟨rfl, rfl⟩ := Prod.mk.inj (Option.some.inj h)
  exact ⟨walkB_runs hS hx, walkB_runs hS hy⟩

/-- Nothing has failed. -/
def smooth (trace : List Moment) : Bool := trace.all fun m =>
  match m.event with
  | .failed _ | .returned _ .failed => false
  | _ => true

theorem smooth_of {trace : List Moment} (h : smooth trace = true) : Smooth trace := by
  intro m hm
  have hm := List.all_eq_true.mp h m hm
  constructor
  · intro r he
    rw [he] at hm
    cases hm
  · intro t he
    rw [he] at hm
    cases hm

/-- Both sources are there. -/
def sources : Core := { fs := fun p => if p = "s" ∨ p = "u" then some (.file 1 "") else none }

theorem sources_owned : Owned pairRules sources.cache := by
  intro t owner r h
  change (∅ : Dict Name RuleTarget).lookup t = some owner at h
  rw [AList.lookup_empty] at h
  cases h

theorem Recalls.itself (w : World) (change : FS → FS) :
    Recalls w { cache := w.cache, fs := change w.fs } :=
  ⟨refl_of _ _, fun _ => rfl⟩

theorem pairRules_a : pairRules.ruleFor "a" = some (madeFrom "a" ["s"]) := rfl

theorem pairRules_s : pairRules.ruleFor "s" = none := rfl

/-- Another version of `u`. -/
def edited (fs : FS) : FS := Function.update fs "u" (some (.file 2 ""))

/-- The names that have nothing to do with `u` are intact. -/
theorem edited_intact {w : World} (ha : (w.rulestatus ["a"]).done = true)
    (hs : w.targetstatus "s" = some .uptodate) :
    Intact pairRules (fun t => t = "a" ∨ t = "s") w { cache := w.cache, fs := edited w.fs } := by
  have hother : ∀ p, p ≠ "u" → edited w.fs p = w.fs p := fun p hp => Function.update_of_ne hp ..
  refine ⟨?_, ?_, ?_, ?_⟩
  · rintro t (rfl | rfl)
    · exact (Desc.done_rule pairRules_a).mpr ha
    · exact (Desc.done_source pairRules_s).mpr hs
  · rintro t r (rfl | rfl) hr p hp
    · obtain rfl := Option.some.inj (pairRules_a.symm.trans hr)
      refine hother p ?_
      rintro rfl
      revert hp
      decide +kernel
    · rw [pairRules_s] at hr
      cases hr
  · rintro t (rfl | rfl) ⟨hnone, -⟩
    · rw [pairRules_a] at hnone
      cases hnone
    · exact hother "s" (by decide)
  · rintro t r dyn (rfl | rfl) hr hk
    · obtain rfl := Option.some.inj (pairRules_a.symm.trans hr)
      obtain rfl : dyn = [] := hk.scanned
      exact ⟨rfl, fun t ht => .inr (List.mem_singleton.mp ht)⟩
    · rw [pairRules_s] at hr
      cases hr

end Tmake
