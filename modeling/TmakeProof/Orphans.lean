import TmakeProof.Engine

/-! # Orphan targets

`get-orphan-targets`, `do-delete-orphans` and `discard-orphan-targets`: the files
that were once built but are no longer targets are deleted, and the cache
forgets them together with the rules that are no longer rules.

The entries of the cache are keyed by the name of a target or by the target list
of a rule, and the key of a rule with one target is the name of the target.  A
rule that is no longer one, such as `{a b}`, is therefore forgotten under keys
that a rule of today, such as `{a}`, may own: `Framed` says that this does not
happen, and `Separate` when.
-/
namespace Tmake
open Weakest

variable (d : Desc)

/-- `is-rule?`. -/
def Desc.isRule (ruletarget : RuleTarget) : Bool := d.rules.any fun r => r.target = ruletarget

/-- `get-orphan-targets`. -/
def getOrphanTargets (c : Cache) : List Name := c.file.keys.filter fun i => !d.isTarget i

/-- The first loop of `discard-orphan-targets`. -/
def discardFile (i : Name) (c : Cache) : Cache := { c with file := c.file.erase i }

/-- What is discarded for one name of a rule that is no longer one. -/
def discardName (j : Name) (c : Cache) : Cache :=
  { c with
    target := c.target.erase j
    deps := c.deps.erase [j]
    exec := c.exec.erase [j]
    file := c.file.erase j
    warnings := c.warnings.erase [j]
    headerscan := c.headerscan.erase j }

/-- What is discarded for a rule that is no longer one. -/
def discardRule (i : RuleTarget) (c : Cache) : Cache :=
  i.foldl (fun c j => discardName j c)
    { c with cmd := c.cmd.erase i, dephash := c.dephash.erase i }

/-- The rules of the cache that are no longer rules. -/
def staleRules (c : Cache) : List RuleTarget := c.cmd.keys.filter fun i => !d.isRule i

/-- `discard-orphan-targets`. -/
def discardOrphanTargets (orphans : List Name) (c : Cache) : Cache :=
  let stale := staleRules d c
  let c := orphans.foldl (fun c i => discardFile i c) c
  let c := stale.foldl (fun c i => discardRule i c) c
  if orphans.isEmpty && stale.isEmpty then c else { c with writecache := true }

/-- `do-delete-orphans`, with the `delete-orphan-files` of the core. -/
def doDeleteOrphans (E : Env) (orphans : List Name) : M Unit :=
  if orphans.isEmpty then pure ()
  else do
    emit (.orphans (orphans.map d.fileBuild))
    osCheck E
    putFiles (orphans.map fun f => (d.fileBuild f, none))
    modifyCache (discardOrphanTargets d orphans)

/-! ## What is forgotten -/

/-- What a caller may expect of forgetting the orphans: the entries of the targets and rules of
today are as before, and a file that was recorded is recorded still or was an orphan. -/
structure Framed (orphans : List Name) (c c' : Cache) : Prop where
  targets : ∀ t, d.isTarget t = true →
    c'.file.lookup t = c.file.lookup t ∧ c'.target.lookup t = c.target.lookup t
  rules : ∀ r ∈ d.rules, c'.cmd.lookup r.target = c.cmd.lookup r.target ∧
    c'.deps.lookup r.target = c.deps.lookup r.target ∧
    c'.dephash.lookup r.target = c.dephash.lookup r.target ∧
    c'.exec.lookup r.target = c.exec.lookup r.target ∧
    c'.warnings.lookup r.target = c.warnings.lookup r.target ∧
    ∀ t ∈ r.target, c'.headerscan.lookup t = c.headerscan.lookup t
  recorded : ∀ t ∈ c.file, t ∈ c'.file ∨ t ∈ orphans

/-- No name of a rule that is no longer one is the key of an entry of today. -/
structure Separate (c : Cache) : Prop where
  targets : ∀ i ∈ staleRules d c, ∀ j ∈ i, d.isTarget j = true → j ∉ c.file ∧ j ∉ c.target
  rules : ∀ i ∈ staleRules d c, ∀ j ∈ i, d.isRule [j] = true →
    [j] ∉ c.deps ∧ [j] ∉ c.exec ∧ [j] ∉ c.warnings
  headers : ∀ i ∈ staleRules d c, ∀ j ∈ i, ∀ r ∈ d.rules, j ∈ r.target → j ∉ c.headerscan

variable {d}

theorem Desc.isRule_iff {rt : RuleTarget} : d.isRule rt = true ↔ ∃ r ∈ d.rules, r.target = rt := by
  simp [Desc.isRule]

section
variable {α β γ : Type} [DecidableEq α] {P Q : α → Prop} {f g h : Dict α β}

/-- Exactly the keys in `P` are removed. -/
def Drops (P : α → Prop) (f g : Dict α β) : Prop :=
  ∀ a, (P a → g.lookup a = none) ∧ (¬P a → g.lookup a = f.lookup a)

theorem Drops.refl (f : Dict α β) : Drops (fun _ => False) f f := fun _ => ⟨False.elim, fun _ => rfl⟩

theorem Drops.trans (hf : Drops P f g) (hg : Drops Q g h) : Drops (fun a => P a ∨ Q a) f h := by
  intro a
  constructor
  · intro hpq
    by_cases hq : Q a
    · exact (hg a).1 hq
    · rw [(hg a).2 hq]
      exact (hf a).1 (hpq.resolve_right hq)
  · intro hpq
    rw [not_or] at hpq
    rw [(hg a).2 hpq.2, (hf a).2 hpq.1]

theorem Drops.congr (hf : Drops P f g) (hpq : ∀ a, P a ↔ Q a) : Drops Q f g := fun a =>
  ⟨fun hq => (hf a).1 ((hpq a).mpr hq), fun hq => (hf a).2 fun hp => hq ((hpq a).mp hp)⟩

theorem drops_erase (f : Dict α β) (b : α) : Drops (· = b) f (f.erase b) := by
  intro a
  constructor
  · rintro rfl
    simp
  · exact fun hne => AList.lookup_erase_ne hne

/-- Nothing is lost at a key exactly if the key is not removed, or had no entry. -/
theorem Drops.same_iff (hf : Drops P f g) (a : α) :
    g.lookup a = f.lookup a ↔ (P a → a ∉ f) := by
  by_cases hp : P a
  · rw [(hf a).1 hp, ← AList.lookup_eq_none]
    exact ⟨fun h _ => h.symm, fun h => (h hp).symm⟩
  · exact ⟨fun _ h => absurd h hp, fun _ => (hf a).2 hp⟩

end

/-- The entries of the names in `N`, and the rules in `K`, are discarded. -/
structure Discards (N : Name → Prop) (K : RuleTarget → Prop) (c c' : Cache) : Prop where
  file : Drops N c.file c'.file
  target : Drops N c.target c'.target
  headerscan : Drops N c.headerscan c'.headerscan
  deps : Drops (fun rt => ∃ j, N j ∧ rt = [j]) c.deps c'.deps
  exec : Drops (fun rt => ∃ j, N j ∧ rt = [j]) c.exec c'.exec
  warnings : Drops (fun rt => ∃ j, N j ∧ rt = [j]) c.warnings c'.warnings
  cmd : Drops K c.cmd c'.cmd
  dephash : Drops K c.dephash c'.dephash

theorem Discards.refl (c : Cache) : Discards (fun _ => False) (fun _ => False) c c := by
  constructor <;> exact (Drops.refl _).congr (by simp)

theorem Discards.trans {N N' : Name → Prop} {K K' : RuleTarget → Prop} {a b c : Cache}
    (h : Discards N K a b) (h' : Discards N' K' b c) :
    Discards (fun j => N j ∨ N' j) (fun rt => K rt ∨ K' rt) a c where
  file := h.file.trans h'.file
  target := h.target.trans h'.target
  headerscan := h.headerscan.trans h'.headerscan
  deps := (h.deps.trans h'.deps).congr fun _ => by grind
  exec := (h.exec.trans h'.exec).congr fun _ => by grind
  warnings := (h.warnings.trans h'.warnings).congr fun _ => by grind
  cmd := h.cmd.trans h'.cmd
  dephash := h.dephash.trans h'.dephash

theorem Discards.congr {N N' : Name → Prop} {K K' : RuleTarget → Prop} {c c' : Cache}
    (h : Discards N K c c') (hN : ∀ j, N j ↔ N' j) (hK : ∀ rt, K rt ↔ K' rt) :
    Discards N' K' c c' := by
  obtain rfl : N = N' := funext fun j => propext (hN j)
  obtain rfl : K = K' := funext fun rt => propext (hK rt)
  exact h

/-- A loop over what is to be discarded. -/
theorem discards_foldl {γ : Type} {step : γ → Cache → Cache} {N : γ → Name → Prop}
    {K : γ → RuleTarget → Prop} (hstep : ∀ i c, Discards (N i) (K i) c (step i c)) (l : List γ)
    (c : Cache) :
    Discards (fun j => ∃ i ∈ l, N i j) (fun rt => ∃ i ∈ l, K i rt) c
      (l.foldl (fun c i => step i c) c) := by
  induction l generalizing c with
  | nil => exact (Discards.refl c).congr (by simp) (by simp)
  | cons i l ih => exact ((hstep i c).trans (ih (step i c))).congr (by simp) (by simp)

theorem discardName_discards (j : Name) (c : Cache) :
    Discards (· = j) (fun _ => False) c (discardName j c) where
  file := drops_erase _ _
  target := drops_erase _ _
  headerscan := drops_erase _ _
  deps := (drops_erase _ _).congr fun _ => by simp
  exec := (drops_erase _ _).congr fun _ => by simp
  warnings := (drops_erase _ _).congr fun _ => by simp
  cmd := Drops.refl _
  dephash := Drops.refl _

theorem discardRule_discards (i : RuleTarget) (c : Cache) :
    Discards (· ∈ i) (· = i) c (discardRule i c) := by
  have hrule : Discards (fun _ => False) (· = i) c
      { c with cmd := c.cmd.erase i, dephash := c.dephash.erase i } :=
    { Discards.refl c with cmd := drops_erase _ _, dephash := drops_erase _ _ }
  exact (hrule.trans (discards_foldl discardName_discards i _)).congr (by simp) (by simp)

theorem discardFiles_drops (orphans : List Name) (c : Cache) :
    Drops (· ∈ orphans) c.file (orphans.foldl (fun c i => discardFile i c) c).file := by
  induction orphans generalizing c with
  | nil => exact (Drops.refl _).congr (by simp)
  | cons i l ih =>
    exact ((drops_erase c.file i).trans (ih (discardFile i c))).congr (by simp)

theorem discardFiles_same (orphans : List Name) (c : Cache) :
    orphans.foldl (fun c i => discardFile i c) c =
      { c with file := (orphans.foldl (fun c i => discardFile i c) c).file } := by
  induction orphans generalizing c with
  | nil => rfl
  | cons i l ih =>
    rw [List.foldl_cons, ih]
    rfl

theorem mem_staleRules {c : Cache} {i : RuleTarget} :
    i ∈ staleRules d c ↔ i ∈ c.cmd ∧ d.isRule i = false := by
  simp [staleRules, AList.mem_keys]

theorem mem_getOrphanTargets {c : Cache} {t : Name} :
    t ∈ getOrphanTargets d c ↔ t ∈ c.file ∧ d.isTarget t = false := by
  simp [getOrphanTargets, AList.mem_keys]

/-- A name of a rule of the cache that is no longer one. -/
def Stale (d : Desc) (c : Cache) (j : Name) : Prop := ∃ i ∈ staleRules d c, j ∈ i

/-- What is forgotten, all in all. -/
theorem discardOrphanTargets_discards (d : Desc) (orphans : List Name) (c : Cache) :
    ∃ f, Drops (· ∈ orphans) c.file f ∧
      Discards (Stale d c) (· ∈ staleRules d c) { c with file := f }
        (discardOrphanTargets d orphans c) := by
  refine ⟨_, discardFiles_drops orphans c, ?_⟩
  have h := discards_foldl discardRule_discards (staleRules d c)
    (orphans.foldl (fun c i => discardFile i c) c)
  rw [discardFiles_same] at h
  have h : Discards (Stale d c) (· ∈ staleRules d c) _ _ := h.congr (fun _ => Iff.rfl) (by simp)
  rw [discardOrphanTargets, discardFiles_same]
  dsimp only
  split
  · exact h
  · exact { h with }

/-- **Discarding orphans.**  For every cache and rule base: forgetting the orphans leaves the
entries of the targets and rules of today alone, and a file that was recorded stays recorded
unless it is an orphan, exactly if no rule that is no longer one has a name under which there
is an entry of a target or rule of today. -/
theorem discard_framed (d : Desc) (c : Cache) :
    Framed d (getOrphanTargets d c) c (discardOrphanTargets d (getOrphanTargets d c) c) ↔
      Separate d c := by
  obtain ⟨f, hf, h⟩ := discardOrphanTargets_discards d (getOrphanTargets d c) c
  have hfile := hf.trans h.file
  constructor
  · intro hframed
    constructor
    · intro i hi j hj ht
      obtain ⟨hsame, hsame'⟩ := hframed.targets j ht
      exact ⟨(hfile.same_iff j).mp hsame (.inr ⟨i, hi, hj⟩),
        (h.target.same_iff j).mp hsame' ⟨i, hi, hj⟩⟩
    · intro i hi j hj hr
      obtain ⟨r, hr, htarget⟩ := Desc.isRule_iff.mp hr
      obtain ⟨-, hdeps, -, hexec, hwarnings, -⟩ := hframed.rules r hr
      rw [htarget] at hdeps hexec hwarnings
      have hj : ∃ j', Stale d c j' ∧ [j] = [j'] := ⟨j, ⟨i, hi, hj⟩, rfl⟩
      exact ⟨(h.deps.same_iff _).mp hdeps hj, (h.exec.same_iff _).mp hexec hj,
        (h.warnings.same_iff _).mp hwarnings hj⟩
    · intro i hi j hj r hr hjr
      exact (h.headerscan.same_iff j).mp ((hframed.rules r hr).2.2.2.2.2 j hjr) ⟨i, hi, hj⟩
  · intro hseparate
    constructor
    · intro t ht
      refine ⟨(hfile.same_iff t).mpr ?_, (h.target.same_iff t).mpr ?_⟩
      · rintro (horphan | ⟨i, hi, hti⟩)
        · rw [(mem_getOrphanTargets.mp horphan).2] at ht
          cases ht
        · exact (hseparate.targets i hi t hti ht).1
      · rintro ⟨i, hi, hti⟩
        exact (hseparate.targets i hi t hti ht).2
    · intro r hr
      have hrule : d.isRule r.target = true := Desc.isRule_iff.mpr ⟨r, hr, rfl⟩
      have hlive : r.target ∉ staleRules d c := fun hmem => by
        rw [(mem_staleRules.mp hmem).2] at hrule
        cases hrule
      refine ⟨(h.cmd.same_iff _).mpr fun hmem => absurd hmem hlive, (h.deps.same_iff _).mpr ?_,
        (h.dephash.same_iff _).mpr fun hmem => absurd hmem hlive, (h.exec.same_iff _).mpr ?_,
        (h.warnings.same_iff _).mpr ?_, fun t ht => (h.headerscan.same_iff t).mpr ?_⟩
      · rintro ⟨j, ⟨i, hi, hj⟩, htarget⟩
        exact htarget ▸ (hseparate.rules i hi j hj (htarget ▸ hrule)).1
      · rintro ⟨j, ⟨i, hi, hj⟩, htarget⟩
        exact htarget ▸ (hseparate.rules i hi j hj (htarget ▸ hrule)).2.1
      · rintro ⟨j, ⟨i, hi, hj⟩, htarget⟩
        exact htarget ▸ (hseparate.rules i hi j hj (htarget ▸ hrule)).2.2
      · rintro ⟨i, hi, hti⟩
        exact hseparate.headers i hi t hti r hr ht
    · intro t ht
      by_cases htarget : d.isTarget t = true
      · refine .inl ?_
        have hsame := (hfile.same_iff t).mpr (by
          rintro (horphan | ⟨i, hi, hti⟩)
          · rw [(mem_getOrphanTargets.mp horphan).2] at htarget
            cases htarget
          · exact (hseparate.targets i hi t hti htarget).1)
        rw [← AList.lookup_isSome, hsame, AList.lookup_isSome]
        exact ht
      · exact .inr (mem_getOrphanTargets.mpr ⟨ht, by simpa using htarget⟩)

/-! A rule for `a` and `b` is split in two, and a third target comes and goes. -/

/-- `target {a b} -do touch`. -/
def groupedRule : Desc where
  rules := [{ target := ["a", "b"], doList := [⟨[.lit "touch"]⟩] }]
  disjoint := by decide

/-- `target a -do touch; target b -do touch; target c -do touch`. -/
def splitRules : Desc where
  rules := [{ target := ["a"], doList := [⟨[.lit "touch"]⟩] },
    { target := ["b"], doList := [⟨[.lit "touch"]⟩] },
    { target := ["c"], doList := [⟨[.lit "touch"]⟩] }]
  disjoint := by decide

/-- The same without `c`. -/
def remainingRules : Desc where
  rules := [{ target := ["a"], doList := [⟨[.lit "touch"]⟩] },
    { target := ["b"], doList := [⟨[.lit "touch"]⟩] }]
  disjoint := by decide

/-- Each `-do` writes the targets of its rule. -/
def touching : Env where
  exec tick r part _ :=
    match part with
    | .script _ => { puts := r.map fun f => (fileJoin "objdir" f, some (.file (tick + 1) f)) }
    | _ => {}
  pick := id

/-- The cache after a run with the grouped rule and one with the split rules: when `c` is gone,
the entries of `a`, a target that was just built, are forgotten with the grouped rule. -/
theorem discard_framed_regrouped :
    let w := final (buildAll groupedRule touching 2 ["a"]) (World.fresh { fs := fun _ => none })
    let w := final (buildAll splitRules touching 2 ["a", "b", "c"]) (World.fresh w.toCore)
    let orphans := getOrphanTargets remainingRules w.cache
    orphans = ["c"] ∧ w.cache.target.lookup "a" = some ["a"] ∧
      ¬ Framed remainingRules orphans w.cache (discardOrphanTargets remainingRules orphans w.cache) := by
  refine ⟨by decide +kernel, by decide +kernel, fun h => ?_⟩
  have hsame := (h.targets "a" (by decide +kernel)).2
  revert hsame
  decide +kernel

end Tmake
