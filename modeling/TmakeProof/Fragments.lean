import Mathlib.Algebra.BigOperators.Group.List.Basic
import Mathlib.Data.List.Induction
import TmakeProof.RuleBase

/-! # The fragments of a rule

Any number of `target` commands may give one rule.  `fragments` is what they give,
in order, and `assemble` is what `target` makes of it: the first fragment creates
the rule, and each further one is ignored as a duplicate or merged.  The commands
for other targets do not come into it (`targets_assemble`), so that the laws of
merging are inductions over the fragments of one rule (`assemble_induction`).

What the fragments give is `Merged` into the rule, with one exception: a `-dyndep`
grows by a newline with every fragment that follows it.
-/
namespace Tmake

/-! ## Scripts that accumulate -/

@[simp] theorem appendWith_empty (space new : String) : appendWith space "" new = new := by
  simp [appendWith]

theorem appendWith_of_ne {value : String} (space new : String) (h : value ≠ "") :
    appendWith space value new = value ++ space ++ new := by
  rw [appendWith, if_pos h]

/-- The script does what the scripts do one after the other, whatever running a script is, as
long as a newline ends each of them. -/
def RunsAll (scripts : List String) (script : String) : Prop :=
  ∀ (M : Type) [Monoid M] (run : String → M), run "" = 1 →
    (∀ s ∈ scripts, ∀ t, run (s ++ "\n" ++ t) = run s * run t) →
    run script = (scripts.map run).prod

theorem runsAll_foldl (scripts : List String) :
    RunsAll scripts (scripts.foldl (appendWith "\n") "") := by
  intro M _ run hempty hend
  -- a newline ends what has accumulated, too
  suffices h : run (scripts.foldl (appendWith "\n") "") = (scripts.map run).prod ∧
      (scripts.foldl (appendWith "\n") "" ≠ "" → ∀ t,
        run (scripts.foldl (appendWith "\n") "" ++ "\n" ++ t) = (scripts.map run).prod * run t) from
    h.1
  induction scripts using List.reverseRecOn with
  | nil => exact ⟨hempty, fun hne => absurd rfl hne⟩
  | append_singleton scripts s ih =>
    obtain ⟨hrun, hnext⟩ := ih fun s hs => hend s (List.mem_append_left _ hs)
    have hs := hend s (List.mem_append_right _ (List.mem_singleton.mpr rfl))
    rw [List.foldl_append, List.foldl_cons, List.foldl_nil, List.map_append, List.prod_append,
      List.map_singleton, List.prod_singleton]
    by_cases hne : scripts.foldl (appendWith "\n") "" = ""
    · rw [hne, hempty] at hrun
      rw [hne, appendWith_empty, ← hrun, one_mul]
      exact ⟨rfl, fun _ => hs⟩
    · rw [appendWith_of_ne _ _ hne]
      refine ⟨hnext hne s, fun _ t => ?_⟩
      have hassoc (a : String) : a ++ "\n" ++ s ++ "\n" ++ t = a ++ "\n" ++ (s ++ "\n" ++ t) := by
        simp only [String.append_assoc]
      rw [hassoc, hnext hne, hs, mul_assoc]

/-! ## The fragments of one rule -/

/-- The rule of a fragment: its inputs are also dependencies. -/
def RuleInfo.complete (info : RuleInfo) : RuleInfo :=
  { info with depends := info.depends ++ info.inputs }

/-- What a `target` command gives. -/
def fragment (elements : String → List String) (c : TargetCommand) : Option RuleInfo :=
  (parseRule elements c).map fun info => { info with localDir := c.localDir }

/-- What the commands for one rule target give, in order. -/
def fragments (elements : String → List String) (rt : RuleTarget) (cs : List TargetCommand) :
    List RuleInfo :=
  (cs.filter fun c => c.target = rt).filterMap (fragment elements)

/-- A fragment comes to the rule, if there is one yet. -/
def extend : Option RuleInfo → RuleInfo → Option (Option RuleInfo)
  | none, f => some (some f.complete)
  | some orig, f =>
    if f.complete.identical orig then some (some orig)
    else (mergeRule orig f.complete).map some

/-- The rule that fragments make; `none` for a `parse-error`. -/
def assemble (fs : List RuleInfo) : Option (Option RuleInfo) := fs.foldlM extend none

section
variable {elements : String → List String} {b b' : RuleBase} {c : TargetCommand}
  {cs : List TargetCommand}

theorem completeRule_eq (c : TargetCommand) :
    completeRule elements c = (fragment elements c).map RuleInfo.complete := by
  rw [fragment, Option.map_map]
  rfl

/-- One command: a fragment comes to the rule of its target, and no other rule changes. -/
theorem RuleBase.Sound.extend (hb : b.Sound) (h : Tmake.target elements c b = some b') :
    (∀ rt, rt ≠ c.target → b'.rules.lookup rt = b.rules.lookup rt) ∧
      ∃ f, fragment elements c = some f ∧
        Tmake.extend (b.rules.lookup c.target) f = some (b'.rules.lookup c.target) := by
  unfold Tmake.target at h
  cases horig : b.rules.lookup c.target with
  | some orig =>
    simp only [horig, completeRule_eq] at h
    obtain ⟨info, hinfo, h⟩ := Option.bind_eq_some_iff.mp h
    obtain ⟨f, hf, rfl⟩ := Option.map_eq_some_iff.mp hinfo
    have hput : ∀ info', info'.target = c.target →
        (b.takeRule c.target).updateRule info' = some b' →
        (∀ rt, rt ≠ c.target → b'.rules.lookup rt = b.rules.lookup rt) ∧
          b'.rules.lookup c.target = some info' := by
      intro info' htarget hput
      rw [← htarget, takeRule_updateRule] at hput
      cases hput
      refine ⟨fun rt hrt => ?_, htarget ▸ AList.lookup_insert _⟩
      rw [← htarget] at hrt
      rw [AList.lookup_insert_ne hrt, AList.lookup_insert_ne hrt]
    have hkey : orig.target = c.target := hb.key _ _ horig
    by_cases hsame : f.complete.identical orig
    · rw [if_pos hsame] at h
      obtain ⟨hother, hnew⟩ := hput orig hkey h
      exact ⟨hother, f, hf, by rw [Tmake.extend, if_pos hsame, hnew]⟩
    · rw [if_neg hsame] at h
      obtain ⟨merged, hmerged, h⟩ := Option.bind_eq_some_iff.mp h
      obtain ⟨hother, hnew⟩ := hput merged ((mergeRule_some hmerged).1.trans hkey) h
      exact ⟨hother, f, hf, by rw [Tmake.extend, if_neg hsame, hmerged, hnew]; rfl⟩
  | none =>
    simp only [horig, completeRule_eq] at h
    split at h
    · cases h
    · obtain ⟨info, hinfo, h⟩ := Option.bind_eq_some_iff.mp h
      have htarget := (completeRule_some ((completeRule_eq c).trans hinfo)).1
      obtain ⟨f, hf, rfl⟩ := Option.map_eq_some_iff.mp hinfo
      rw [RuleBase.updateRule, htarget, if_neg (AList.lookup_eq_none.mp horig)] at h
      obtain ⟨b₁, hb₁, rfl⟩ := Option.map_eq_some_iff.mp h
      simp only [RuleBase.setRule, (addTargets_some hb₁).1, htarget]
      exact ⟨fun rt hrt => AList.lookup_insert_ne hrt, f, hf, by
        rw [AList.lookup_insert]; rfl⟩

/-- The rule of a target is assembled from the fragments that its commands give. -/
theorem RuleBase.Sound.fragments (hb : b.Sound) (h : Tmake.targets elements cs b = some b')
    (rt : RuleTarget) :
    (Tmake.fragments elements rt cs).foldlM Tmake.extend (b.rules.lookup rt) =
      some (b'.rules.lookup rt) := by
  induction cs generalizing b with
  | nil =>
    cases h
    rfl
  | cons c cs ih =>
    obtain ⟨b₁, h₁, h₂⟩ := Option.bind_eq_some_iff.mp h
    obtain ⟨hother, f, hf, hnew⟩ := hb.extend h₁
    have hrest := ih (hb.target h₁) h₂
    by_cases hc : c.target = rt
    · rw [Tmake.fragments, List.filter_cons_of_pos (by simpa using hc), List.filterMap_cons, hf,
        List.foldlM_cons, ← hc, hnew]
      rw [← hc] at hrest
      exact hrest
    · rw [Tmake.fragments, List.filter_cons_of_neg (by simpa using hc)]
      rw [hother rt (Ne.symm hc)] at hrest
      exact hrest

theorem targets_assemble (h : targets elements cs {} = some b) (rt : RuleTarget) :
    assemble (fragments elements rt cs) = some (b.rules.lookup rt) := by
  simpa [assemble] using RuleBase.Sound.empty.fragments h rt

end

section
variable {fs : List RuleInfo} {f orig rule : RuleInfo}

theorem assemble_concat (fs : List RuleInfo) (f : RuleInfo) :
    assemble (fs ++ [f]) = (assemble fs).bind (extend · f) := by
  simp [assemble, List.foldlM_append]

/-- What one more fragment does to a rule that is there. -/
theorem extend_cases (h : extend (some orig) f = some (some rule)) :
    (f.complete.identical orig = true ∧ rule = orig) ∨
      (f.complete.identical orig = false ∧ mergeRule orig f.complete = some rule) := by
  by_cases hsame : f.complete.identical orig
  · rw [extend, if_pos hsame] at h
    exact .inl ⟨hsame, (Option.some.inj (Option.some.inj h)).symm⟩
  · rw [extend, if_neg hsame] at h
    obtain ⟨merged, hmerged, hrule⟩ := Option.map_eq_some_iff.mp h
    exact .inr ⟨by simpa using hsame, Option.some.inj hrule ▸ hmerged⟩

theorem assemble_ne_none (h : assemble (fs ++ [f]) ≠ none) :
    ∃ rule, assemble (fs ++ [f]) = some (some rule) := by
  rw [assemble_concat] at h ⊢
  obtain ⟨state, hstate⟩ := Option.ne_none_iff_exists'.mp h
  obtain ⟨before, hbefore, hstep⟩ := Option.bind_eq_some_iff.mp hstate
  rw [hbefore, Option.bind_some, hstep]
  cases before with
  | none => exact ⟨_, hstep.symm⟩
  | some orig =>
    rw [extend] at hstep
    split at hstep
    · exact ⟨_, hstep.symm⟩
    · obtain ⟨merged, -, rfl⟩ := Option.map_eq_some_iff.mp hstep
      exact ⟨merged, rfl⟩

/-- The run lemma: what the first fragment has, and each further one keeps, ignored or merged,
every rule has. -/
theorem assemble_induction {P : List RuleInfo → RuleInfo → Prop}
    (first : ∀ f : RuleInfo, P [f] f.complete)
    (ignored : ∀ fs f orig, assemble fs = some (some orig) → P fs orig →
      f.complete.identical orig = true → P (fs ++ [f]) orig)
    (merged : ∀ fs f orig rule, assemble fs = some (some orig) → P fs orig →
      f.complete.identical orig = false → mergeRule orig f.complete = some rule →
      P (fs ++ [f]) rule)
    (h : assemble fs = some (some rule)) : P fs rule := by
  induction fs using List.reverseRecOn generalizing rule with
  | nil => cases h
  | append_singleton fs f ih =>
    rw [assemble_concat] at h
    obtain ⟨before, hbefore, hstep⟩ := Option.bind_eq_some_iff.mp h
    cases before with
    | none =>
      have hfs : fs = [] := by
        rcases List.eq_nil_or_concat fs with rfl | ⟨fs', f', rfl⟩
        · rfl
        · rw [List.concat_eq_append] at hbefore
          obtain ⟨rule', hrule'⟩ := assemble_ne_none (by rw [hbefore]; simp)
          rw [hrule'] at hbefore
          cases hbefore
      subst hfs
      cases hstep
      exact first f
    | some orig =>
      rcases extend_cases hstep with ⟨hsame, rfl⟩ | ⟨hsame, hmerged⟩
      · exact ignored fs f rule hbefore (ih hbefore) hsame
      · exact merged fs f orig rule hbefore (ih hbefore) hsame hmerged

/-! ## What merging does to each field -/

theorem mergeDyndep_some {dyndep new merged : String} (h : mergeDyndep dyndep new = some merged) :
    (dyndep = "" ∧ merged = new) ∨
      (dyndep ≠ "" ∧ (new = "" ∨ new = dyndep) ∧ merged = dyndep ++ "\n") := by
  rw [mergeDyndep] at h
  by_cases hdyndep : dyndep = ""
  · rw [hdyndep] at h
    simp at h
    exact .inl ⟨hdyndep, h.symm⟩
  · rw [appendWith_of_ne _ _ hdyndep, appendWith_of_ne _ _ hdyndep] at h
    refine .inr ⟨hdyndep, ?_⟩
    split at h
    · split at h <;> cases h
      rename_i hnew
      exact ⟨.inr hnew, by simp⟩
    · rename_i hnew
      obtain rfl : new = "" := by simpa [hdyndep] using hnew
      cases h
      exact ⟨.inl rfl, by simp⟩

/-- The commands of the rule that is there win; an added command comes last. -/
def mergeDo (orig info : RuleInfo) : List String :=
  if orig.doList ++ info.addDo = [] then info.doList else orig.doList ++ info.addDo

/-- A merged rule, field by field. -/
theorem mergeRule_fields (h : mergeRule orig f = some rule) :
    rule.depends = orig.depends ++ f.depends ∧
    (rule.inputs = orig.inputs ++ f.inputs ∨ rule.inputs = f.inputs) ∧
    (∀ flag, rule.flags flag = orig.flags flag + f.flags flag) ∧
    rule.onerror = appendWith "\n" orig.onerror f.onerror ∧
    rule.finallyDo = appendWith "\n" orig.finallyDo f.finallyDo ∧
    mergeDyndep orig.dyndep f.dyndep = some rule.dyndep ∧
    rule.vars = mergeVars orig.vars f.vars ∧
    rule.doList = mergeDo orig f := by
  obtain ⟨dyndep, hdyndep, h⟩ := Option.bind_eq_some_iff.mp h
  rw [checkDo_some h, mergeDo, adoptDo]
  by_cases hdo : orig.doList ++ f.addDo = []
  · have hempty : (mergeFields orig f dyndep).doList.isEmpty = true := by
      rw [List.isEmpty_iff]
      exact hdo
    have horig : orig.doList = [] := (List.append_eq_nil_iff.mp hdo).1
    rw [if_pos hempty, if_pos hdo, horig]
    exact ⟨rfl, .inr rfl, fun _ => rfl, rfl, rfl, hdyndep, rfl, by simp⟩
  · have hempty : ¬(mergeFields orig f dyndep).doList.isEmpty = true := by
      rw [List.isEmpty_iff]
      exact hdo
    rw [if_neg hempty, if_neg hdo]
    exact ⟨rfl, .inl rfl, fun _ => rfl, rfl, rfl, hdyndep, rfl, rfl⟩

/-! ## What the fragments give -/

/-- The next fragment is ignored: it is the same as the rule that is there. -/
def isDuplicate (fs : List RuleInfo) (f : RuleInfo) : Bool :=
  match assemble fs with
  | some (some orig) => f.complete.identical orig
  | _ => false

/-- No fragment is ignored as a duplicate. -/
def NoDuplicate (fs : List RuleInfo) : Prop := AtEach (fun pre f => isDuplicate pre f = false) fs

instance : DecidablePred NoDuplicate := fun fs =>
  inferInstanceAs (Decidable (AtEach (fun pre f => isDuplicate pre f = false) fs))

/-- The rule has everything that the fragments give. -/
structure Merged (fs : List RuleInfo) (rule : RuleInfo) : Prop where
  depends : rule.depends = fs.flatMap fun f => f.depends ++ f.inputs
  inputs : rule.inputs.Sublist rule.depends
  flags : ∀ flag, 0 < rule.flags flag ↔ ∃ f ∈ fs, 0 < f.flags flag
  onerror : RunsAll (fs.map RuleInfo.onerror) rule.onerror
  finallyDo : RunsAll (fs.map RuleInfo.finallyDo) rule.finallyDo
  dyndep : ∀ f ∈ fs, f.dyndep ≠ "" → rule.dyndep = f.dyndep
  nodyndep : (∀ f ∈ fs, f.dyndep = "") → rule.dyndep = ""

theorem isDuplicate_eq (h : assemble fs = some (some orig)) (f : RuleInfo) :
    isDuplicate fs f = f.complete.identical orig := by
  rw [isDuplicate, h]

theorem NoDuplicate.init (h : NoDuplicate (fs ++ [f])) : NoDuplicate fs := (atEach_concat.mp h).1

theorem NoDuplicate.last (h : NoDuplicate (fs ++ [f])) (horig : assemble fs = some (some orig)) :
    f.complete.identical orig = false := by
  rw [← isDuplicate_eq horig]
  exact (atEach_concat.mp h).2

/-- The run lemma for fragments that are all merged. -/
theorem NoDuplicate.induction {P : List RuleInfo → RuleInfo → Prop} (hdup : NoDuplicate fs)
    (h : assemble fs = some (some rule)) (first : ∀ f : RuleInfo, P [f] f.complete)
    (merged : ∀ fs f orig rule, P fs orig → mergeRule orig f.complete = some rule →
      P (fs ++ [f]) rule) : P fs rule := by
  refine assemble_induction (P := fun fs rule => NoDuplicate fs → P fs rule) (fun f _ => first f)
    ?_ ?_ h hdup
  · intro fs f orig horig _ hsame hdup
    rw [hdup.last horig] at hsame
    cases hsame
  · intro fs f orig rule _ ih _ hmerged hdup
    exact merged fs f orig rule (ih hdup.init) hmerged

/-- The lists, the flags and the scripts of a rule, as they are put together. -/
structure Gathered (fs : List RuleInfo) (rule : RuleInfo) : Prop where
  depends : rule.depends = fs.flatMap fun f => f.depends ++ f.inputs
  inputs : rule.inputs.Sublist rule.depends
  flags : ∀ flag, 0 < rule.flags flag ↔ ∃ f ∈ fs, 0 < f.flags flag
  onerror : rule.onerror = (fs.map RuleInfo.onerror).foldl (appendWith "\n") ""
  finallyDo : rule.finallyDo = (fs.map RuleInfo.finallyDo).foldl (appendWith "\n") ""

theorem Gathered.first (f : RuleInfo) : Gathered [f] f.complete := by
  constructor <;> simp [RuleInfo.complete]

theorem Gathered.merge (hg : Gathered fs orig) (h : mergeRule orig f.complete = some rule) :
    Gathered (fs ++ [f]) rule := by
  obtain ⟨hdepends, hinputs, hflags, honerror, hfinally, -⟩ := mergeRule_fields h
  have hown : f.complete.inputs.Sublist f.complete.depends := List.sublist_append_right _ _
  constructor
  · rw [hdepends, hg.depends, List.flatMap_append, List.flatMap_singleton]
    rfl
  · rw [hdepends]
    rcases hinputs with hinputs | hinputs
    · rw [hinputs]
      exact hg.inputs.append hown
    · rw [hinputs]
      exact hown.trans (List.sublist_append_right _ _)
  · intro flag
    rw [hflags, Nat.add_pos_iff_pos_or_pos, hg.flags]
    simp [or_and_right, exists_or, RuleInfo.complete]
  · rw [honerror, hg.onerror, List.map_append, List.foldl_append]
    rfl
  · rw [hfinally, hg.finallyDo, List.map_append, List.foldl_append]
    rfl

/-- The `-dyndep` of a rule: it is longer than that of any fragment but the last. -/
structure Grows (fs : List RuleInfo) (f : RuleInfo) (dyndep : String) : Prop where
  last_le : f.dyndep.length ≤ dyndep.length
  lt : ∀ g ∈ fs, g.dyndep ≠ "" → g.dyndep.length < dyndep.length
  eq_last : (∀ g ∈ fs, g.dyndep = "") → dyndep = f.dyndep

theorem Grows.le {d : String} (h : Grows fs f d) : ∀ g ∈ fs ++ [f], g.dyndep.length ≤ d.length := by
  intro g hg
  rcases List.mem_append.mp hg with hg | hg
  · by_cases hne : g.dyndep = ""
    · simp [hne]
    · exact (h.lt g hg hne).le
  · rw [List.mem_singleton.mp hg]
    exact h.last_le

theorem Grows.merge {g : RuleInfo} {d d' : String} (h : Grows fs f d)
    (hmerge : mergeDyndep d g.dyndep = some d') : Grows (fs ++ [f]) g d' := by
  rcases mergeDyndep_some hmerge with ⟨rfl, rfl⟩ | ⟨hne, hg, rfl⟩
  · -- no `-dyndep` yet
    refine ⟨le_rfl, fun g' hg' hne => absurd ?_ hne, fun _ => rfl⟩
    exact String.length_eq_zero_iff.mp (Nat.le_zero.mp (h.le g' hg'))
  · have hgrows : (d ++ "\n").length = d.length + 1 := String.length_append _ _
    refine ⟨?_, fun g' hg' _ => ?_, fun hnone => absurd ?_ hne⟩
    · have : g.dyndep.length ≤ d.length := by
        rcases hg with hg | hg <;> simp [hg]
      omega
    · have := h.le g' hg'
      omega
    · -- the rule has a `-dyndep`, so a fragment gave it
      rw [h.eq_last fun g' hg' => hnone g' (List.mem_append_left _ hg')]
      exact hnone f (by simp)

theorem assemble_grows (h : assemble fs = some (some rule)) (hdup : NoDuplicate fs) :
    ∃ pre f, fs = pre ++ [f] ∧ Grows pre f rule.dyndep := by
  refine hdup.induction
    (P := fun fs rule => ∃ pre f, fs = pre ++ [f] ∧ Grows pre f rule.dyndep) h
    (fun f => ⟨[], f, rfl, le_rfl, by simp, fun _ => rfl⟩) ?_
  rintro _ g orig rule ⟨pre, f, rfl, hgrows⟩ hmerged
  obtain ⟨-, -, -, -, -, hdyndep, -⟩ := mergeRule_fields hmerged
  exact ⟨pre ++ [f], g, rfl, hgrows.merge hdyndep⟩

/-- What the fragments give is merged if only the last one gives a `-dyndep`. -/
theorem merged_iff (h : assemble fs = some (some rule)) (hdup : NoDuplicate fs) :
    Merged fs rule ↔ ∀ f ∈ fs.dropLast, f.dyndep = "" := by
  have hg : Gathered fs rule := hdup.induction h Gathered.first fun _ _ _ _ => Gathered.merge
  obtain ⟨pre, f, rfl, hgrows⟩ := assemble_grows h hdup
  rw [List.dropLast_concat]
  constructor
  · intro hmerged g hg
    by_contra hne
    have heq := hmerged.dyndep g (List.mem_append_left _ hg) hne
    exact (hgrows.lt g hg hne).ne (congrArg _ heq.symm)
  · intro hnone
    refine ⟨hg.depends, hg.inputs, hg.flags, hg.onerror ▸ runsAll_foldl _,
      hg.finallyDo ▸ runsAll_foldl _, fun g hg hne => ?_, fun hall => ?_⟩
    · rcases List.mem_append.mp hg with hg | hg
      · exact absurd (hnone g hg) hne
      · rw [hgrows.eq_last hnone, List.mem_singleton.mp hg]
    · rw [hgrows.eq_last hnone]
      exact hall f (by simp)

end

/-- **Merging loses nothing**, unless a fragment follows one with a `-dyndep`.  Of the accepted
commands for one target none of which is ignored as a duplicate, the rule has the dependencies
and inputs in order, the flags, and scripts that run all their scripts; and it has the one
`-dyndep` that they give exactly if only the last of them gives any. -/
theorem fragments_merged (elements : String → List String) (cs : List TargetCommand)
    (b : RuleBase) (h : targets elements cs {} = some b) (rt : RuleTarget)
    (hgiven : ∃ c ∈ cs, c.target = rt) (hdup : NoDuplicate (fragments elements rt cs)) :
    ∃ rule, b.rules.lookup rt = some rule ∧
      (Merged (fragments elements rt cs) rule ↔
        ∀ f ∈ (fragments elements rt cs).dropLast, f.dyndep = "") := by
  obtain ⟨c, hc, rfl⟩ := hgiven
  have hentered := (targets_sound .empty .empty h).2.entered c (List.mem_append_right _ hc)
  obtain ⟨rule, hrule⟩ := Option.isSome_iff_exists.mp (AList.lookup_isSome.mpr hentered)
  exact ⟨rule, hrule, merged_iff (by rw [targets_assemble h, hrule]) hdup⟩

/-- A `target prog` command. -/
def prog (args : List String) : TargetCommand := { target := ["prog"], args }

/-- `target prog -inputs a.o -do ld` and then `target prog -phony -dyndep scan`. -/
def linkThenScan : List TargetCommand :=
  [prog ["-inputs", "a.o", "-do", "ld"], prog ["-phony", "-dyndep", "scan"]]

theorem fragments_merged_prog :
    ∃ b rule, targets (fun value => [value]) linkThenScan {} = some b ∧
      b.rules.lookup ["prog"] = some rule ∧
      Merged (fragments (fun value => [value]) ["prog"] linkThenScan) rule := by
  obtain ⟨b, hb⟩ := Option.isSome_iff_exists.mp
    (show (targets (fun value => [value]) linkThenScan {}).isSome = true by decide +kernel)
  obtain ⟨rule, hrule, hmerged⟩ := fragments_merged _ _ b hb ["prog"] (by decide)
    (by decide +kernel)
  exact ⟨b, rule, hb, hrule, hmerged.mpr (by decide +kernel)⟩

/-- `target prog -do ld -dyndep scan` and then `target prog -depends lib`. -/
def scanThenDepend : List TargetCommand :=
  [prog ["-do", "ld", "-dyndep", "scan"], prog ["-depends", "lib"]]

/-- The `-dyndep` of the rule has a newline at its end, and a further command with the same
`-dyndep` is refused. -/
theorem fragments_not_merged :
    ∃ b rule, targets (fun value => [value]) scanThenDepend {} = some b ∧
      NoDuplicate (fragments (fun value => [value]) ["prog"] scanThenDepend) ∧
      b.rules.lookup ["prog"] = some rule ∧ rule.dyndep = "scan\n" ∧
      ¬Merged (fragments (fun value => [value]) ["prog"] scanThenDepend) rule ∧
      targets (fun value => [value]) (scanThenDepend ++ [prog ["-dyndep", "scan"]]) {} = none := by
  obtain ⟨b, hb, hrule⟩ := Option.bind_eq_some_iff.mp
    (show ((targets (fun value => [value]) scanThenDepend {}).bind fun b =>
      (b.rules.lookup ["prog"]).map RuleInfo.dyndep) = some "scan\n" by decide +kernel)
  obtain ⟨rule, hrule, hdyndep⟩ := Option.map_eq_some_iff.mp hrule
  have hgiven : ∃ f ∈ fragments (fun value => [value]) ["prog"] scanThenDepend,
      f.dyndep = "scan" := by decide +kernel
  refine ⟨b, rule, hb, by decide +kernel, hrule, hdyndep, fun hmerged => ?_, by decide +kernel⟩
  obtain ⟨f, hf, hscan⟩ := hgiven
  have := hmerged.dyndep f hf (by simp [hscan])
  rw [hdyndep, hscan] at this
  exact absurd this (by decide)

end Tmake
