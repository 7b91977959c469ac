import TmakeProof.Fragments

/-! # Commands added to a rule

`-add -do` keeps the script in a field of its own, from which it is appended to the
commands of the rule that is there.  When the fragment is the first one, or is taken
for a duplicate, nothing looks at that field; and a `-do` that comes after an added
script is dropped as a second one.  `Addable` leaves these cases out, and exactly
then does the rule have all the scripts (`added_do`): the induction counts the
scripts that are lost.
-/
namespace Tmake

/-- The scripts given with `-add`. -/
def added (fs : List RuleInfo) : List String := fs.flatMap RuleInfo.addDo

/-- The scripts given without `-add`, of which the first counts. -/
def given (fs : List RuleInfo) : List String := fs.flatMap RuleInfo.doList

/-- The commands are the script given without `-add`, if there is one, and every added script
once, in order. -/
def HasAll (fs : List RuleInfo) (doList : List String) : Prop :=
  ∃ before after, added fs = before ++ after ∧ doList = before ++ (given fs).take 1 ++ after

/-- The first fragment has no `-add`, no fragment with `-add` is ignored as a duplicate, and
none comes before the first script given without. -/
structure Addable (fs : List RuleInfo) : Prop where
  first : ∀ f ∈ fs.head?, f.addDo = []
  taken : AtEach (fun pre f => isDuplicate pre f = true → f.addDo = []) fs
  late : AtEach (fun pre f => f.doList ≠ [] → given pre = [] → added pre = []) fs

instance : DecidablePred Addable := fun _ =>
  decidable_of_iff (_ ∧ _ ∧ _) ⟨fun h => ⟨h.1, h.2.1, h.2.2⟩, fun h => ⟨h.first, h.taken, h.late⟩⟩

/-! ## One fragment -/

/-- A fragment has at most one script, in one of the two fields. -/
structure OneScript (f : RuleInfo) : Prop where
  doList : f.doList.length ≤ 1
  addDo : f.addDo.length ≤ 1
  either : f.addDo ≠ [] → f.doList = []

section
variable {elements : String → List String}

theorem applyOption_do {c : TargetCommand} {info info' : RuleInfo} {opt : String}
    {args : List String} (h : applyOption elements c info opt args = some info')
    (hdo : info.doList.length ≤ 1) : info'.doList.length ≤ 1 ∧ info'.addDo = info.addDo := by
  unfold applyOption at h
  split at h
  · split at h <;> cases h
    exact ⟨hdo, rfl⟩
  · split at h <;> (try split at h) <;> simp at h
    all_goals first
      | (subst h; exact ⟨hdo, rfl⟩)
      | (subst h; exact ⟨by simp only; omega, rfl⟩)
      | (obtain ⟨_, _, rfl⟩ := h; exact ⟨hdo, rfl⟩)

theorem applyOptions_do {c : TargetCommand} {opts : List (String × List String)}
    {info info' : RuleInfo} (h : applyOptions elements c opts info = some info')
    (hdo : info.doList.length ≤ 1) : info'.doList.length ≤ 1 ∧ info'.addDo = info.addDo := by
  induction opts generalizing info with
  | nil =>
    cases h
    exact ⟨hdo, rfl⟩
  | cons opt opts ih =>
    obtain ⟨info₁, h₁, h₂⟩ := Option.bind_eq_some_iff.mp h
    obtain ⟨hdo₁, hadd₁⟩ := applyOption_do h₁ hdo
    obtain ⟨hdo', hadd'⟩ := ih h₂ hdo₁
    exact ⟨hdo', hadd'.trans hadd₁⟩

theorem fragment_oneScript {c : TargetCommand} {f : RuleInfo}
    (h : fragment elements c = some f) : OneScript f := by
  obtain ⟨info, hinfo, rfl⟩ := Option.map_eq_some_iff.mp h
  obtain ⟨arginfo, -, hinfo⟩ := Option.bind_eq_some_iff.mp hinfo
  obtain ⟨parsed, hparsed, hinfo⟩ := Option.bind_eq_some_iff.mp hinfo
  obtain ⟨hdo, hadd⟩ := applyOptions_do hparsed (by simp)
  split at hinfo
  · split at hinfo <;> cases hinfo
    exact ⟨by simp, hdo, fun _ => rfl⟩
  · cases hinfo
    exact ⟨hdo, by simp [hadd], fun hne => absurd hadd hne⟩

theorem fragments_oneScript {rt : RuleTarget} {cs : List TargetCommand} :
    ∀ f ∈ fragments elements rt cs, OneScript f := by
  intro f hf
  obtain ⟨c, -, hc⟩ := List.mem_filterMap.mp hf
  exact fragment_oneScript hc

end

/-! ## The tally -/

section
variable {fs : List RuleInfo} {f orig rule : RuleInfo} {dos : List String}

@[simp] theorem added_concat (fs : List RuleInfo) (f : RuleInfo) :
    added (fs ++ [f]) = added fs ++ f.addDo := by
  simp [added]

@[simp] theorem given_concat (fs : List RuleInfo) (f : RuleInfo) :
    given (fs ++ [f]) = given fs ++ f.doList := by
  simp [given]

theorem addable_concat (hne : fs ≠ []) :
    Addable (fs ++ [f]) ↔ Addable fs ∧ (isDuplicate fs f = true → f.addDo = []) ∧
      (f.doList ≠ [] → given fs = [] → added fs = []) := by
  have hhead : (fs ++ [f]).head? = fs.head? := List.head?_append_of_ne_nil _ hne
  constructor
  · rintro ⟨hfirst, htaken, hlate⟩
    rw [hhead] at hfirst
    rw [atEach_concat] at htaken hlate
    exact ⟨⟨hfirst, htaken.1, hlate.1⟩, htaken.2, hlate.2⟩
  · rintro ⟨⟨hfirst, htaken, hlate⟩, htaken', hlate'⟩
    rw [← hhead] at hfirst
    exact ⟨hfirst, atEach_concat.mpr ⟨htaken, htaken'⟩, atEach_concat.mpr ⟨hlate, hlate'⟩⟩

/-- How many scripts there should be. -/
def due (fs : List RuleInfo) : Nat := (added fs).length + ((given fs).take 1).length

theorem HasAll.length (h : HasAll fs dos) : dos.length = due fs := by
  obtain ⟨before, after, hadded, rfl⟩ := h
  rw [due, hadded]
  simp only [List.length_append]
  omega

/-- What the commands of the rule are after the fragments: all that are due, or too few. -/
structure Tally (fs : List RuleInfo) (dos : List String) : Prop where
  kept : given fs ≠ [] → dos ≠ []
  all : Addable fs → HasAll fs dos
  lost : ¬Addable fs → dos.length < due fs

theorem Tally.le (h : Tally fs dos) : dos.length ≤ due fs := by
  by_cases hadd : Addable fs
  · exact (h.all hadd).length.le
  · exact (h.lost hadd).le

theorem Tally.first (hf : OneScript f) : Tally [f] f.complete.doList := by
  have hgiven : given [f] = f.doList := by simp [given]
  have hadded : added [f] = f.addDo := by simp [added]
  refine ⟨fun hne => hgiven ▸ hne, fun hadd => ?_, fun hadd => ?_⟩
  · have hnone : f.addDo = [] := hadd.first f rfl
    refine ⟨[], [], hadded.trans hnone, ?_⟩
    rw [hgiven, List.take_of_length_le hf.doList]
    simp [RuleInfo.complete]
  · -- only its own `-add` can make the first fragment fail
    have hne : f.addDo ≠ [] := by
      intro hnone
      refine hadd ⟨?_, atEach_singleton.mpr fun _ => hnone, atEach_singleton.mpr fun _ _ => rfl⟩
      intro g hg
      cases hg
      exact hnone
    have hdo : f.complete.doList = [] := hf.either hne
    rw [hdo, due, hadded]
    have := List.length_pos_of_ne_nil hne
    simp only [List.length_nil]
    omega

/-- An added script that is merged. -/
theorem Tally.add (h : Tally fs dos) (hfs : fs ≠ []) (hf : OneScript f) (hne : f.addDo ≠ [])
    (hdup : isDuplicate fs f = false) : Tally (fs ++ [f]) (dos ++ f.addDo) := by
  have hdo : f.doList = [] := hf.either hne
  have hadd : Addable (fs ++ [f]) ↔ Addable fs := by
    rw [addable_concat hfs]
    simp [hdo, hdup]
  refine ⟨fun _ => by simp [hne], fun hall => ?_, fun hlost => ?_⟩
  · obtain ⟨before, after, hadded, rfl⟩ := h.all (hadd.mp hall)
    exact ⟨before, after ++ f.addDo, by simp [hadded], by simp [hdo]⟩
  · have := h.lost (fun hall => hlost (hadd.mpr hall))
    simp only [due, added_concat, given_concat, hdo, List.append_nil, List.length_append] at this ⊢
    omega

/-- An added script that is ignored. -/
theorem Tally.ignore (h : Tally fs dos) (hfs : fs ≠ []) (hf : OneScript f) (hne : f.addDo ≠ [])
    (hdup : isDuplicate fs f = true) : Tally (fs ++ [f]) dos := by
  have hdo : f.doList = [] := hf.either hne
  refine ⟨fun hgiven => h.kept (by simpa [hdo] using hgiven), fun hall => ?_, fun _ => ?_⟩
  · exact absurd (((addable_concat hfs).mp hall).2.1 hdup) hne
  · have hle := h.le
    have := List.length_pos_of_ne_nil hne
    simp only [due, added_concat, given_concat, hdo, List.append_nil, List.length_append] at hle ⊢
    omega

/-- A fragment that changes nothing that is due. -/
theorem Tally.same (h : Tally fs dos) (hadded : added (fs ++ [f]) = added fs)
    (htake : (given (fs ++ [f])).take 1 = (given fs).take 1)
    (hadd : Addable (fs ++ [f]) ↔ Addable fs) : Tally (fs ++ [f]) dos := by
  refine ⟨fun hne => h.kept fun hnil => hne ?_, fun hall => ?_, fun hlost => ?_⟩
  · rw [hnil] at htake
    simpa using htake
  · rw [HasAll, hadded, htake]
    exact h.all (hadd.mp hall)
  · rw [due, hadded, htake]
    exact h.lost fun hall => hlost (hadd.mpr hall)

/-- A fragment without `-add`, ignored or merged: its script counts if the rule has none. -/
theorem Tally.give (h : Tally fs dos) (hfs : fs ≠ []) (hf : OneScript f) (hnone : f.addDo = []) :
    Tally (fs ++ [f]) (if dos = [] then f.doList else dos) := by
  have hadd : Addable (fs ++ [f]) ↔
      Addable fs ∧ (f.doList ≠ [] → given fs = [] → added fs = []) := by
    rw [addable_concat hfs]
    simp [hnone]
  have hadded : added (fs ++ [f]) = added fs := by simp [hnone]
  by_cases hgiven : given fs ≠ []
  · rw [if_neg (h.kept hgiven)]
    refine h.same hadded ?_ (by simp [hadd, hgiven])
    rw [given_concat, List.take_append_of_le_length (List.length_pos_of_ne_nil hgiven)]
  rw [not_not] at hgiven
  by_cases hdo : f.doList = []
  · rw [hdo, ite_eq_right_iff.mpr fun hnil => hnil.symm]
    exact h.same hadded (by simp [hdo]) (by simp [hadd, hdo])
  -- the first script that is given
  have htake : (given (fs ++ [f])).take 1 = f.doList := by
    rw [given_concat, hgiven, List.nil_append, List.take_of_length_le hf.doList]
  have hdue : due fs = (added fs).length := by simp [due, hgiven]
  have hpos : 0 < f.doList.length := List.length_pos_of_ne_nil hdo
  by_cases hdos : dos = []
  · rw [if_pos hdos]
    refine ⟨fun _ => hdo, fun hall => ?_, fun hlost => ?_⟩
    · have hlength := (h.all (hadd.mp hall).1).length
      have hnil : added fs = [] := by
        rw [hdos, hdue] at hlength
        exact List.length_eq_zero_iff.mp hlength.symm
      exact ⟨[], [], hadded.trans hnil, by rw [htake]; simp⟩
    · -- what was added is lost already
      have hpos : 0 < (added fs).length := by
        by_contra hzero
        have hnil : added fs = [] := List.length_eq_zero_iff.mp (by omega)
        by_cases hall : Addable fs
        · exact hlost (hadd.mpr ⟨hall, fun _ _ => hnil⟩)
        · have := h.lost hall
          omega
      rw [due, hadded, htake]
      omega
  · -- the rule has only added scripts, and the one that is given is dropped
    rw [if_neg hdos]
    have hle := h.le
    refine ⟨fun _ => hdos, fun hall => absurd ?_ hdos, fun _ => ?_⟩
    · rw [hdue, (hadd.mp hall).2 hdo hgiven] at hle
      exact List.length_eq_zero_iff.mp (Nat.le_zero.mp hle)
    · rw [due, hadded, htake]
      omega

/-- The run lemma: whatever the fragments, the tally is kept. -/
theorem assemble_tally (h : assemble fs = some (some rule)) (hfs : ∀ f ∈ fs, OneScript f) :
    Tally fs rule.doList := by
  refine assemble_induction
    (P := fun fs rule => fs ≠ [] ∧ ((∀ f ∈ fs, OneScript f) → Tally fs rule.doList))
    ?first ?ignored ?merged h |>.2 hfs
  case first =>
    exact fun f => ⟨by simp, fun hf => Tally.first (hf f (by simp))⟩
  case ignored =>
    rintro fs f orig horig ⟨hne, ih⟩ hsame
    refine ⟨by simp, fun hf => ?_⟩
    have htally := ih fun g hg => hf g (List.mem_append_left _ hg)
    have hone := hf f (by simp)
    by_cases hadd : f.addDo = []
    · have hgive := htally.give hne hone hadd
      have hdo : f.doList = orig.doList := by
        simp only [RuleInfo.identical, Bool.and_eq_true, decide_eq_true_eq] at hsame
        exact hsame.1.1.1.1.1.1.2
      rw [hdo, ite_eq_right_iff.mpr fun hnil => by rw [hnil]] at hgive
      exact hgive
    · exact htally.ignore hne hone hadd ((isDuplicate_eq horig f).trans hsame)
  case merged =>
    rintro fs f orig rule horig ⟨hne, ih⟩ hsame hmerged
    refine ⟨by simp, fun hf => ?_⟩
    have htally := ih fun g hg => hf g (List.mem_append_left _ hg)
    have hone := hf f (by simp)
    obtain ⟨-, -, -, -, -, -, -, hdo⟩ := mergeRule_fields hmerged
    have hfields : f.complete.addDo = f.addDo ∧ f.complete.doList = f.doList := ⟨rfl, rfl⟩
    rw [hdo, mergeDo, hfields.1, hfields.2]
    by_cases hadd : f.addDo = []
    · have hgive := htally.give hne hone hadd
      simpa [hadd] using hgive
    · rw [if_neg (by simp [hadd])]
      exact htally.add hne hone hadd ((isDuplicate_eq horig f).trans hsame)

/-- The commands are as due exactly if every script can be added. -/
theorem hasAll_iff (h : Tally fs dos) : HasAll fs dos ↔ Addable fs := by
  refine ⟨fun hall => ?_, h.all⟩
  by_contra hadd
  exact (h.lost hadd).ne hall.length

end

/-- **`-add` loses no command** if the first command for the target has no `-add`, none with
`-add` is ignored as a duplicate, and none comes before the first `-do` without `-add`; in any
other accepted sequence a script is lost. -/
theorem added_do (elements : String → List String) (cs : List TargetCommand) (b : RuleBase)
    (h : targets elements cs {} = some b) (rt : RuleTarget) (rule : RuleInfo)
    (hrule : b.rules.lookup rt = some rule) :
    HasAll (fragments elements rt cs) rule.doList ↔ Addable (fragments elements rt cs) :=
  hasAll_iff (assemble_tally ((targets_assemble h rt).trans (congrArg some hrule))
    fragments_oneScript)

/-- `target prog -do ld` and then `target prog -add -do strip`. -/
def linkThenStrip : List TargetCommand := [prog ["-do", "ld"], prog ["-add", "-do", "strip"]]

theorem added_do_strip :
    ∃ b rule, targets (fun value => [value]) linkThenStrip {} = some b ∧
      b.rules.lookup ["prog"] = some rule ∧
      HasAll (fragments (fun value => [value]) ["prog"] linkThenStrip) rule.doList := by
  obtain ⟨b, hb, hrule⟩ := Option.bind_eq_some_iff.mp (Option.some_get
    (show ((targets (fun value => [value]) linkThenStrip {}).bind fun b =>
      b.rules.lookup ["prog"]).isSome = true by decide +kernel)).symm
  exact ⟨b, _, hb, hrule, (added_do _ _ b hb _ _ hrule).mpr (by decide +kernel)⟩

/-- `target prog -add -do strip` and then `target prog -depends lib`. -/
def stripFirst : List TargetCommand := [prog ["-add", "-do", "strip"], prog ["-depends", "lib"]]

/-- The script that is added first is lost. -/
theorem added_do_lost :
    ∃ b rule, targets (fun value => [value]) stripFirst {} = some b ∧
      b.rules.lookup ["prog"] = some rule ∧ rule.doList = [] ∧
      ¬HasAll (fragments (fun value => [value]) ["prog"] stripFirst) rule.doList := by
  obtain ⟨b, hb, hrule⟩ := Option.bind_eq_some_iff.mp
    (show ((targets (fun value => [value]) stripFirst {}).bind fun b =>
      (b.rules.lookup ["prog"]).map RuleInfo.doList) = some [] by decide +kernel)
  obtain ⟨rule, hrule, hdo⟩ := Option.map_eq_some_iff.mp hrule
  refine ⟨b, rule, hb, hrule, hdo, fun hall => ?_⟩
  have hdue : due (fragments (fun value => [value]) ["prog"] stripFirst) = 1 := by decide +kernel
  rw [hdo] at hall
  exact absurd (hall.length.trans hdue) (by decide)

end Tmake
