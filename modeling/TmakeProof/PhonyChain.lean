import TmakeProof.DirPaths
import TmakeProof.LoadMoves

/-! # The global phony targets

The prolog of the default rulebase lets each of the four phony targets of the
directory above depend on that of the directory at hand.  Nothing that a spec file
does later takes a dependency away (`Grown`), so that these links are there for
every directory that was processed (`Linked`).  A link leads to the directory
above whether that is processed or not: the links of a directory make a chain from
the top exactly if all of the directories above are processed, too.
-/
namespace Tmake

/-! ## What a command leaves in the rule base -/

/-- The rule of one target has another one among its dependencies. -/
def RuleBase.DependsOn (b : RuleBase) (x y : Name) : Prop :=
  ∃ rt info, b.targets.lookup x = some rt ∧ b.rules.lookup rt = some info ∧ y ∈ info.depends

/-- A rule has what another one has, and perhaps more. -/
def RuleInfo.Covers (info' info : RuleInfo) : Prop :=
  (∀ x ∈ info.depends, x ∈ info'.depends) ∧ ∀ flag, info.flags flag ≤ info'.flags flag

/-- Targets, aliases and dependencies are only added. -/
structure RuleBase.Grown (b b' : RuleBase) : Prop where
  rules : ∀ rt info, b.rules.lookup rt = some info →
    ∃ info', b'.rules.lookup rt = some info' ∧ info'.Covers info
  targets : ∀ x rt, b.targets.lookup x = some rt → b'.targets.lookup x = some rt
  aliases : ∀ x ∈ b.aliases, x ∈ b'.aliases

section
variable {elements : String → List String} {b b' b'' : RuleBase} {c : TargetCommand}

theorem RuleInfo.Covers.refl (info : RuleInfo) : info.Covers info :=
  ⟨fun _ h => h, fun _ => Nat.le_refl _⟩

theorem RuleInfo.Covers.trans {info info' info'' : RuleInfo} (h : info'.Covers info)
    (h' : info''.Covers info') : info''.Covers info :=
  ⟨fun x hx => h'.1 x (h.1 x hx), fun flag => Nat.le_trans (h.2 flag) (h'.2 flag)⟩

theorem RuleBase.Grown.refl (b : RuleBase) : b.Grown b :=
  ⟨fun _ info h => ⟨info, h, .refl info⟩, fun _ _ h => h, fun _ h => h⟩

theorem RuleBase.Grown.trans (h : b.Grown b') (h' : b'.Grown b'') : b.Grown b'' where
  rules rt info hinfo := by
    obtain ⟨info', hinfo', hcovers⟩ := h.rules rt info hinfo
    obtain ⟨info'', hinfo'', hcovers'⟩ := h'.rules rt info' hinfo'
    exact ⟨info'', hinfo'', hcovers.trans hcovers'⟩
  targets x rt hx := h'.targets x rt (h.targets x rt hx)
  aliases x hx := h'.aliases x (h.aliases x hx)

theorem RuleBase.DependsOn.grown {x y : Name} (h : b.DependsOn x y) (hb : b.Grown b') :
    b'.DependsOn x y := by
  obtain ⟨rt, info, hrt, hinfo, hy⟩ := h
  obtain ⟨info', hinfo', hcovers⟩ := hb.rules rt info hinfo
  exact ⟨rt, info', hb.targets x rt hrt, hinfo', hcovers.1 y hy⟩

/-- The merged rule covers both. -/
theorem mergeRule_covers {orig info merged : RuleInfo} (h : mergeRule orig info = some merged) :
    merged.Covers orig ∧ merged.Covers info := by
  obtain ⟨dyndep, -, h⟩ := Option.bind_eq_some_iff.mp h
  have hdepends : merged.depends = orig.depends ++ info.depends := by
    rw [checkDo_some h, adoptDo]
    split <;> rfl
  have hflags : ∀ flag, merged.flags flag = orig.flags flag + info.flags flag := by
    intro flag
    rw [checkDo_some h, adoptDo]
    split <;> rfl
  refine ⟨⟨fun x hx => ?_, fun flag => ?_⟩, fun x hx => ?_, fun flag => ?_⟩
  · exact hdepends ▸ List.mem_append_left _ hx
  · have := hflags flag
    omega
  · exact hdepends ▸ List.mem_append_right _ hx
  · have := hflags flag
    omega

theorem identical_covers {orig info : RuleInfo} (h : info.identical orig = true) :
    orig.Covers info := by
  unfold RuleInfo.identical at h
  simp only [Bool.and_eq_true, decide_eq_true_eq, List.all_eq_true] at h
  obtain ⟨⟨⟨⟨⟨⟨⟨⟨⟨-, hdepends⟩, -⟩, -⟩, -⟩, -⟩, -⟩, -⟩, -⟩, hflags⟩ := h
  refine ⟨fun x hx => hdepends ▸ hx, fun flag => Nat.le_of_eq (hflags flag ?_)⟩
  cases flag <;> decide

/-- An accepted command leaves a rule that has what the command gives, and takes nothing away. -/
theorem RuleBase.Sound.grown (hb : b.Sound) (h : Tmake.target elements c b = some b') :
    b.Grown b' ∧ ∃ info info', completeRule elements c = some info ∧
      b'.rules.lookup c.target = some info' ∧ info'.Covers info := by
  unfold Tmake.target at h
  cases horig : b.rules.lookup c.target with
  | some orig =>
    simp only [horig] at h
    obtain ⟨info, hinfo, h⟩ := Option.bind_eq_some_iff.mp h
    have hkey : orig.target = c.target := hb.key _ _ horig
    -- whichever rule is entered has what the old one has
    have hput : ∀ info', info'.target = c.target → info'.Covers orig → info'.Covers info →
        (b.takeRule c.target).updateRule info' = some b' →
        b.Grown b' ∧ ∃ info info', completeRule elements c = some info ∧
          b'.rules.lookup c.target = some info' ∧ info'.Covers info := by
      intro info' htarget hcovers hnew hput
      rw [← htarget, takeRule_updateRule] at hput
      cases hput
      refine ⟨⟨fun rt old hold => ?_, fun _ _ hx => hx, fun x hx => ?_⟩, info, info', hinfo, ?_, hnew⟩
      · by_cases hrt : rt = info'.target
        · rw [hrt, htarget, horig] at hold
          obtain rfl := Option.some.inj hold
          rw [hrt]
          exact ⟨info', AList.lookup_insert _, hcovers⟩
        · refine ⟨old, ?_, .refl old⟩
          rw [AList.lookup_insert_ne hrt, AList.lookup_insert_ne hrt]
          exact hold
      · exact RuleBase.mem_setRule_aliases hx
      · rw [← htarget]
        exact AList.lookup_insert _
    split at h
    · rename_i hidentical
      exact hput orig hkey (.refl orig) (identical_covers hidentical) h
    · obtain ⟨merged, hmerged, h⟩ := Option.bind_eq_some_iff.mp h
      obtain ⟨hcovers, hnew⟩ := mergeRule_covers hmerged
      exact hput merged ((mergeRule_some hmerged).1.trans hkey) hcovers hnew h
  | none =>
    simp only [horig] at h
    have hfree : c.target ∉ b.rules := AList.lookup_eq_none.mp horig
    split at h
    · cases h
    · obtain ⟨info, hinfo, h⟩ := Option.bind_eq_some_iff.mp h
      have htarget := (completeRule_some hinfo).1
      rw [RuleBase.updateRule, htarget, if_neg hfree] at h
      obtain ⟨b₁, hb₁, rfl⟩ := Option.map_eq_some_iff.mp h
      obtain ⟨hrules, haliases, hnew, hlookup⟩ := addTargets_some hb₁
      refine ⟨⟨fun rt old hold => ⟨old, ?_, .refl old⟩, fun x rt hx => ?_, fun x hx => ?_⟩,
        info, info, hinfo, ?_, .refl info⟩
      · have hne : rt ≠ info.target := by
          rintro rfl
          rw [htarget, horig] at hold
          cases hold
        show (b₁.rules.insert info.target info).lookup rt = some old
        rw [AList.lookup_insert_ne hne, hrules]
        exact hold
      · show b₁.targets.lookup x = some rt
        rw [hlookup x, if_neg, hx]
        exact fun hmem => hnew x hmem (AList.lookup_isSome.mp (by simp [hx]))
      · exact RuleBase.mem_setRule_aliases (haliases ▸ hx)
      · rw [← htarget]
        exact AList.lookup_insert _

end

/-! ## The prolog of the default rulebase -/

/-- `is-global-target?`. -/
def RuleBase.isGlobalTarget (b : RuleBase) (target : Name) : Bool :=
  match (b.getRuleTarget target).bind b.rules.lookup with
  | some info => info.flags .global ≠ 0
  | none => false

/-- `make-local-prefix`, for one name. -/
def RuleBase.makeLocalPrefix (b : RuleBase) (localPrefix : String) (p : Name) : Name :=
  if p.toList.head? = some '<' then p
  else if p.toList.head? = some '/' then String.ofList p.toList.tail
  else if b.isGlobalTarget p then p
  else fileJoin localPrefix p

/-- The phony targets that there are in every directory. -/
def phonyTargets : List Name := ["all", "clean", "distclean", "test"]

namespace Loading
open ReturnCodes Weakest Relation

section
variable (elements : String → List String) (source : List String)

/-- The loop of `rulebase-prolog`. -/
def linkTargets (localPrefix parentPrefix : String) : List Name → Code → Code
  | [], rest => rest
  | t :: ts, rest => .inspect fun b =>
    let localtarget := joinList [b.makeLocalPrefix localPrefix t]
    .target (elements localtarget) ["-phony"] source
      (.target (elements (parentPrefix ++ t)) ["-phony", "-depends", localtarget] source
        (linkTargets localPrefix parentPrefix ts rest))

/-- `clean-target`, for a target of the directory at hand. -/
def cleanTarget (localPrefix dir : String) (type msg : String) (rest : Code) : Code :=
  .inspect fun b =>
    .target (elements (joinList [b.makeLocalPrefix localPrefix type]))
      ["-phony", "-nofail", "-vars", "cleanfiles", "", "-msg", "note " ++ msg ++ " " ++ dir,
        "-do", "\n\t\tclean-files $cleanfiles\n\t"] source rest

/-- `rulebase-prolog`.  The rest makes no rules: it takes note of some defines, and sets the
include paths. -/
def rulebaseProlog (rest : Code) : Code :=
  .localDir fun dir localPrefix =>
    if localPrefix ≠ "" then
      linkTargets elements source localPrefix (makePrefix (fileDirname dir)) phonyTargets
        (cleanTarget elements source localPrefix dir "clean" "Clean"
          (cleanTarget elements source localPrefix dir "distclean" "DistClean" rest))
    else rest

end

/-- The project is loaded with the default rulebase.  Each of the four names is a list of one
element. -/
structure Sources.DefaultRulebase (P : Sources) : Prop where
  prolog : ∃ source rest, P.hooks .prolog = rulebaseProlog P.elements source rest
  words : ∀ t ∈ phonyTargets, P.elements t = [t]

end Loading

/-! ## Links -/

/-- The name is neither an alias nor the name of a global target. -/
structure RuleBase.Ordinary (b : RuleBase) (t : Name) : Prop where
  noAlias : t ∉ b.aliases
  noGlobal : ∀ rt info, b.targets.lookup t = some rt → b.rules.lookup rt = some info →
    info.flags .global = 0

section
variable {b b' : RuleBase} {t : Name} {c : TargetCommand}

theorem RuleBase.Ordinary.before (h : b'.Ordinary t) (hb : b.Grown b') : b.Ordinary t where
  noAlias hmem := h.noAlias (hb.aliases t hmem)
  noGlobal rt info hrt hinfo := by
    obtain ⟨info', hinfo', hcovers⟩ := hb.rules rt info hinfo
    have hzero := h.noGlobal rt info' (hb.targets t rt hrt) hinfo'
    have hle := hcovers.2 .global
    omega

theorem RuleBase.Ordinary.isGlobalTarget (h : b.Ordinary t) : b.isGlobalTarget t = false := by
  have halias : b.mapAlias t = t := by
    rw [RuleBase.mapAlias, AList.lookup_eq_none.mpr h.noAlias]
    rfl
  rw [RuleBase.isGlobalTarget, RuleBase.getRuleTarget, halias]
  cases hrt : b.targets.lookup t with
  | none => rfl
  | some rt =>
    cases hinfo : b.rules.lookup rt with
    | none => simp [hinfo]
    | some info => simp [hinfo, h.noGlobal rt info hrt hinfo]

theorem RuleBase.Ordinary.makeLocalPrefix (h : b.Ordinary t) (ht : t ∈ phonyTargets)
    (localPrefix : String) : b.makeLocalPrefix localPrefix t = fileJoin localPrefix t := by
  have hhead : t.toList.head? ≠ some '<' ∧ t.toList.head? ≠ some '/' := by
    have hall : ∀ t ∈ phonyTargets, t.toList.head? ≠ some '<' ∧ t.toList.head? ≠ some '/' := by
      decide
    exact hall t ht
  rw [RuleBase.makeLocalPrefix, if_neg hhead.1, if_neg hhead.2, h.isGlobalTarget]
  exact if_neg Bool.false_ne_true

theorem joinList_singleton (x : String) : joinList [x] = x := rfl

/-- No option has a slash in it. -/
theorem applyOption_slash {elements : String → List String} {info : RuleInfo} {opt : String}
    {args : List String} (h : '/' ∈ opt.toList) : applyOption elements c info opt args = none := by
  have hflag : Flag.ofOption opt = none := by
    unfold Flag.ofOption
    split <;> first | rfl | exact absurd h (by decide)
  unfold applyOption
  rw [hflag]
  dsimp only
  split <;> first | rfl | exact absurd h (by decide)

/-- The rule that links a target to one of a subdirectory. -/
theorem linkRule_depends {elements : String → List String} {info : RuleInfo} {x : Name}
    (hargs : c.args = ["-phony", "-depends", x]) (hslash : '/' ∈ x.toList)
    (hx : elements x = [x]) (h : completeRule elements c = some info) : x ∈ info.depends := by
  obtain ⟨info₁, h₁, rfl⟩ := Option.map_eq_some_iff.mp h
  refine List.mem_append_left _ ?_
  obtain ⟨arginfo, harginfo, h₁⟩ := Option.bind_eq_some_iff.mp h₁
  obtain ⟨info₂, h₂, h₁⟩ := Option.bind_eq_some_iff.mp h₁
  have hparse : parseRuleArgs c.args = parseArgs [x] "depends" 0 [("phony", []), ("depends", [])] := by
    rw [hargs]
    rfl
  rw [hparse, parseArgs] at harginfo
  by_cases hdash : x.toList.head? = some '-'
  · -- taken for an option, the name would be refused
    rw [if_pos (by simp [hdash])] at harginfo
    have htail : '/' ∈ (String.ofList x.toList.tail).toList := by
      rw [String.toList_ofList]
      cases hx : x.toList with
      | nil => simp [hx] at hslash
      | cons a l =>
        rw [hx] at hdash hslash
        obtain rfl : a = '-' := Option.some.inj hdash
        exact (List.mem_cons.mp hslash).resolve_left (by decide)
    generalize String.ofList x.toList.tail = opt at harginfo htail
    have hphony : "phony" ≠ opt := fun h => absurd (h ▸ htail) (by decide)
    have hdepends : "depends" ≠ opt := fun h => absurd (h ▸ htail) (by decide)
    have harg : arginfo = [("phony", []), ("depends", []), (opt, [])] := by
      simp only [lappendOpt, if_neg hphony, if_neg hdepends] at harginfo
      exact (Option.some.inj harginfo).symm
    subst harg
    have hnone : ∀ info, applyOptions elements c [(opt, [])] info = none := by
      intro info
      rw [applyOptions, applyOption_slash htail]
      rfl
    have hopts : applyOptions elements c [("phony", []), ("depends", []), (opt, [])]
        { target := c.target, source := c.source } =
        applyOptions elements c [(opt, [])]
          { target := c.target, source := c.source, depends := elements (joinList []),
            flags := Function.update (fun _ => 0) .phony 1 } := rfl
    rw [hopts, hnone] at h₂
    cases h₂
  · rw [if_neg (by simp [hdash]), if_neg (by decide)] at harginfo
    have harg : arginfo = [("phony", []), ("depends", [x])] := (Option.some.inj harginfo).symm
    subst harg
    have hdepends : info₂.depends = [x] := by
      have hopts : applyOptions elements c [("phony", []), ("depends", [x])]
          { target := c.target, source := c.source } =
          some { target := c.target, source := c.source, depends := elements (joinList [x]),
                 flags := Function.update (fun _ => 0) .phony 1 } := rfl
      rw [hopts] at h₂
      rw [← Option.some.inj h₂]
      show elements (joinList [x]) = [x]
      rw [joinList_singleton, hx]
    have hinfo : info₁ = info₂ := by
      rw [if_neg (by simp)] at h₁
      exact (Option.some.inj h₁).symm
    rw [hinfo, hdepends]
    exact List.mem_singleton_self x

end

namespace Loading
open ReturnCodes Weakest Relation

variable {P : Sources} {A : Event → Prop} {n : Nat} {s u : Load} {dir : Path} {t : Name}

/-- However long a run goes on, it only adds to the rule base. -/
theorem Moves.base (h : Moves P A s u) (hs : s.base.Sound) :
    u.base.Sound ∧ s.base.Grown u.base := by
  refine Moves.inv (I := fun u => u.base.Sound ∧ s.base.Grown u.base) (fun v w hm hv => ?_) h
    ⟨hs, .refl _⟩
  cases hm with
  | target h => exact ⟨hv.1.target h, hv.2.trans (hv.1.grown h).1⟩
  | vars | settings | subDirs | takeSubdirs | invoked | ended => exact hv

theorem wp_target {hook : Hook → M Unit} {ruletarget : RuleTarget} {args source : List String}
    {rest : Code} {Q : Unit → Load → Prop} {E : Exit → Load → Prop} :
    wp ((Code.target ruletarget args source rest).run P hook) Q E s ↔
      match s.target P ruletarget args source with
      | some base => wp (rest.run P hook) Q E { s with base }
      | none => E (.quit 1) s := by
  simp only [Code.run, wp_bind, wp_get]
  cases s.target P ruletarget args source with
  | none => exact Iff.rfl
  | some base => exact Iff.rfl

/-- The prolog has linked a target of a directory, provided that the names mean what they should. -/
def LinkedBy (P : Sources) (localPrefix parentPrefix : String) (t : Name) (b : RuleBase) : Prop :=
  b.Ordinary t → '/' ∈ (fileJoin localPrefix t).toList →
    P.elements (fileJoin localPrefix t) = [fileJoin localPrefix t] →
    P.elements (parentPrefix ++ t) = [parentPrefix ++ t] →
    b.DependsOn (parentPrefix ++ t) (fileJoin localPrefix t)

/-- One round of the loop. -/
theorem linkTarget_links {source : List String} {localPrefix parentPrefix : String}
    {b₁ b₂ b : RuleBase} (hs : s.base.Sound) (ht : t ∈ phonyTargets)
    (h₁ : s.target P (P.elements (joinList [s.base.makeLocalPrefix localPrefix t])) ["-phony"]
      source = some b₁)
    (h₂ : Load.target P (P.elements (parentPrefix ++ t))
      ["-phony", "-depends", joinList [s.base.makeLocalPrefix localPrefix t]] source
      { s with base := b₁ } = some b₂) :
    b₂.Sound ∧ (b₂.Grown b → LinkedBy P localPrefix parentPrefix t b) := by
  have hb₁ : b₁.Sound := hs.target h₁
  have hb₂ : b₂.Sound := hb₁.target h₂
  refine ⟨hb₂, fun hgrown hordinary hslash hword hparent => ?_⟩
  have hbefore : s.base.Ordinary t :=
    hordinary.before (((hs.grown h₁).1.trans (hb₁.grown h₂).1).trans hgrown)
  obtain ⟨-, info, info', hinfo, hlookup, hcovers⟩ := hb₁.grown h₂
  have hname : joinList [s.base.makeLocalPrefix localPrefix t] = fileJoin localPrefix t := by
    rw [joinList_singleton, hbefore.makeLocalPrefix ht]
  rw [hname] at hinfo
  have hmem : fileJoin localPrefix t ∈ info.depends := linkRule_depends rfl hslash hword hinfo
  change b₂.rules.lookup (P.elements (parentPrefix ++ t)) = some info' at hlookup
  rw [hparent] at hlookup
  have howned := hb₂.owned [parentPrefix ++ t] (AList.lookup_isSome.mp (by simp [hlookup])) _
    (List.mem_singleton_self _)
  have hlink : b₂.DependsOn (parentPrefix ++ t) (fileJoin localPrefix t) :=
    ⟨_, info', howned, hlookup, hcovers.1 _ hmem⟩
  exact hlink.grown hgrown

theorem linkTargets_links {ts : List Name} (hts : ∀ t ∈ ts, t ∈ phonyTargets)
    (source : List String) (localPrefix parentPrefix : String) (rest : Code) (hs : s.base.Sound) :
    wp ((linkTargets P.elements source localPrefix parentPrefix ts rest).run P (P.hook n))
      (fun _ u => ∀ t ∈ ts, LinkedBy P localPrefix parentPrefix t u.base)
      (fun e u => (∃ status, e = .quit status) ∨
        ∀ t ∈ ts, LinkedBy P localPrefix parentPrefix t u.base) s := by
  induction ts generalizing s with
  | nil => exact (wp_trivial _ s).imp (fun _ _ _ => nofun) fun _ _ _ => Or.inr nofun
  | cons t ts ih =>
    show wp ((Code.target _ _ _ _).run P (P.hook n)) _ _ s
    rw [wp_target]
    cases h₁ : s.target P (P.elements (joinList [s.base.makeLocalPrefix localPrefix t])) ["-phony"]
      source with
    | none => exact Or.inl ⟨1, rfl⟩
    | some b₁ =>
      dsimp only
      rw [wp_target]
      cases h₂ : Load.target P (P.elements (parentPrefix ++ t))
        ["-phony", "-depends", joinList [s.base.makeLocalPrefix localPrefix t]] source
        { s with base := b₁ } with
      | none => exact Or.inl ⟨1, rfl⟩
      | some b₂ =>
        have hb₂ : b₂.Sound := (linkTarget_links (b := b₂) hs (hts t List.mem_cons_self) h₁ h₂).1
        have hall : ∀ v : Load, Moves P (fun _ => True) { s with base := b₂ } v →
            (∀ x ∈ ts, LinkedBy P localPrefix parentPrefix x v.base) →
            ∀ x ∈ t :: ts, LinkedBy P localPrefix parentPrefix x v.base := by
          intro v hmoves hlinks x hx
          rcases List.mem_cons.mp hx with rfl | hx
          · exact (linkTarget_links hs (hts x List.mem_cons_self) h₁ h₂).2 (hmoves.base hb₂).2
          · exact hlinks x hx
        have hrest := ih (fun x hx => hts x (List.mem_cons_of_mem _ hx)) (s := { s with base := b₂ }) hb₂
        refine (hrest.and (code_moves (A := fun _ => True) (fun _ _ => trivial) _ _)).imp
          (fun _ v hv => hall v hv.2 hv.1) fun e v hv => ?_
        exact hv.1.imp id (hall v hv.2.2)

theorem proc_links {L : Load → Prop} {body : M Unit}
    (h : wp body (fun _ => L) (fun e u => (∃ status, e = .quit status) ∨ L u) s) :
    wp (proc body) (fun _ => L) (fun e u => (∃ status, e = .quit status) ∨ L u) s := by
  rw [wp_proc]
  refine h.imp (fun _ _ h => h) fun e u hu => ?_
  rcases hu with ⟨status, rfl⟩ | hu
  · exact Or.inl ⟨status, rfl⟩
  · cases e.leaveProc with
    | none => exact hu
    | some e' => exact Or.inr hu

/-- The prolog links the targets of the directory it is run for. -/
theorem prolog_links (h : P.DefaultRulebase) (hs : s.base.Sound) (hlocal : s.vars.localPrefix ≠ "")
    (hprolog : P.hook n .prolog s = .ok () u) :
    ∀ t ∈ phonyTargets,
      LinkedBy P s.vars.localPrefix (makePrefix (fileDirname s.vars.localdir)) t u.base := by
  obtain ⟨source, rest, hcode⟩ := h.prolog
  cases n with
  | zero => cases hprolog
  | succ n =>
    have hbody : (rulebaseProlog P.elements source rest).run P (P.hook n) s =
        (linkTargets P.elements source s.vars.localPrefix (makePrefix (fileDirname s.vars.localdir))
          phonyTargets (cleanTarget P.elements source s.vars.localPrefix s.vars.localdir "clean" "Clean"
            (cleanTarget P.elements source s.vars.localPrefix s.vars.localdir "distclean" "DistClean"
              rest))).run P (P.hook n) s := by
      show (if s.vars.localPrefix ≠ "" then _ else rest : Code).run P (P.hook n) s = _
      rw [if_pos hlocal]
    have hrun : P.hook (n + 1) .prolog s =
        proc (proc ((rulebaseProlog P.elements source rest).run P (P.hook n))) s := by
      rw [← hcode]
      rfl
    rw [hrun] at hprolog
    have hlinks := linkTargets_links (P := P) (n := n) (fun _ h => h) source s.vars.localPrefix
      (makePrefix (fileDirname s.vars.localdir))
      (cleanTarget P.elements source s.vars.localPrefix s.vars.localdir "clean" "Clean"
        (cleanTarget P.elements source s.vars.localPrefix s.vars.localdir "distclean" "DistClean" rest))
      hs
    exact wp_of_ok hprolog (proc_links (proc_links ((wp_congr hbody).mpr hlinks)))

/-! ## The chain -/

/-- The directories that were processed: their own code was loaded. -/
def Load.processed (s : Load) : List Path := s.trace.filterMap Event.inside

/-- All that was processed is linked to the directory above. -/
structure Linked (P : Sources) (s : Load) : Prop where
  sound : s.base.Sound
  links : ∀ dir ∈ s.processed, dir ≠ "" → dir ≠ "." → ∀ t ∈ phonyTargets,
    LinkedBy P (makePrefix dir) (makePrefix (fileDirname dir)) t s.base

theorem LinkedBy.grown {localPrefix parentPrefix : String} {b b' : RuleBase}
    (h : LinkedBy P localPrefix parentPrefix t b) (hb : b.Grown b') :
    LinkedBy P localPrefix parentPrefix t b' := fun hordinary hslash hword hparent =>
  (h (hordinary.before hb) hslash hword hparent).grown hb

theorem Linked.note {e : Event} (h : Linked P s) (he : e.inside = none) : Linked P (s.note e) where
  sound := h.sound
  links dir hdir := by
    refine h.links dir ?_
    have hprocessed : (s.note e).processed = s.processed := List.filterMap_cons_none he
    rwa [hprocessed] at hdir

theorem Linked.move (h : Linked P s) (hm : Move P (fun e => A e ∧ e.inside = none) s u) :
    Linked P u := by
  cases hm with
  | vars | settings => exact ⟨h.sound, h.links⟩
  | target htarget =>
    exact ⟨h.sound.target htarget, fun dir hdir hne htop t ht =>
      (h.links dir hdir hne htop t ht).grown (h.sound.grown htarget).1⟩
  | subDirs | takeSubdirs => exact Linked.note (s := { s with subdirs := _ }) ⟨h.sound, h.links⟩ rfl
  | invoked hA => exact h.note hA.2
  | ended => exact h.note rfl

/-- The run lemma: code is loaded in a directory only when the prolog has linked it. -/
theorem Reached.linked (h : P.DefaultRulebase) (hs : Reached P A (· = P.start) s) : Linked P s := by
  induction hs with
  | init h =>
    subst h
    exact ⟨RuleBase.Sound.empty, nofun⟩
  | move _ hmove ih => exact ih.move hmove
  | @invoked n s v u p dir hA hdir _ hprolog _ hbase ihs ihu =>
    refine ⟨ihu.sound, fun dir' hdir' hne htop => ?_⟩
    have hprocessed : (u.note (.invoked p)).processed = dir :: u.processed :=
      List.filterMap_cons_some hdir
    rw [hprocessed] at hdir'
    rcases List.mem_cons.mp hdir' with rfl | hdir'
    · have hlocal : (s.enter dir').vars.localPrefix = makePrefix dir' := by
        show (enterScope dir' s.vars).localPrefix = _
        rw [enterScope, if_pos hne]
      have hlocaldir : (s.enter dir').vars.localdir = dir' := by
        show (enterScope dir' s.vars).localdir = _
        rw [enterScope, if_pos hne]
      have hnonempty : makePrefix dir' ≠ "" := by
        rw [makePrefix, if_neg htop]
        intro h
        have := congrArg String.toList h
        simp at this
      have hlinks := prolog_links (s := s.enter dir') h ihs.sound (hlocal ▸ hnonempty) hprolog
      rw [hlocal, hlocaldir] at hlinks
      show ∀ t ∈ phonyTargets, LinkedBy P _ _ t u.base
      rw [hbase]
      exact hlinks
    · exact ihu.links dir' hdir' hne htop

/-- The names of the directories that were processed are written as they should be: no part of a
path is empty, `.` or `..`, and a target of the directory is a list of one element. -/
structure Readable (P : Sources) (s : Load) : Prop where
  canonical : ∀ dir ∈ s.processed, Canonical dir
  words : ∀ dir ∈ s.processed, ∀ t ∈ phonyTargets, P.elements (fileJoin dir t) = [fileJoin dir t]

/-- The directory above each directory is processed, too. -/
def Connected (s : Load) : Prop :=
  ∀ dir ∈ s.processed, dir ≠ "." → fileDirname dir = "." ∨ fileDirname dir ∈ s.processed

/-- The phony targets of the top depend on those of all directories. -/
def Chained (s : Load) : Prop :=
  ∀ dir ∈ s.processed, dir ≠ "." → ∀ t ∈ phonyTargets,
    TransGen s.base.DependsOn t (fileJoin dir t)

/-- A phony target of a directory is a dependency of nothing but that of the directory above, and
only if the directory was processed. -/
def OnlyLinks (s : Load) : Prop :=
  ∀ dir t x, Canonical dir → dir ≠ "." → t ∈ phonyTargets → s.base.DependsOn x (fileJoin dir t) →
    dir ∈ s.processed ∧ x = fileJoin (fileDirname dir) t

theorem phonyTargets_plain : ∀ t ∈ phonyTargets, Plain t := by decide

theorem fileJoin_top (ht : Plain t) : fileJoin "." t = t := by
  rw [fileJoin_eq "." ht, dirNames_top, dirPath_concat ht.component, if_pos rfl]

theorem makePrefix_append (hdir : Canonical dir) (ht : Plain t) :
    makePrefix dir ++ t = fileJoin dir t := by
  by_cases htop : dir = "."
  · subst htop
    rw [fileJoin_top ht, makePrefix, if_pos rfl]
    exact String.empty_append
  · rw [makePrefix, if_neg htop, hdir.fileJoin_eq htop ht]

theorem fileJoin_makePrefix (hdir : Canonical dir) (htop : dir ≠ ".") (ht : Plain t) :
    fileJoin (makePrefix dir) t = fileJoin dir t := by
  rw [makePrefix, if_neg htop, hdir.fileJoin_slash htop ht]

/-- The link of a processed directory. -/
theorem Linked.dependsOn (h : Linked P s) (hrulebase : P.DefaultRulebase) (hread : Readable P s)
    (hordinary : s.base.Ordinary t) (hdir : dir ∈ s.processed) (htop : dir ≠ ".")
    (hparent : fileDirname dir = "." ∨ fileDirname dir ∈ s.processed) (ht : t ∈ phonyTargets) :
    s.base.DependsOn (fileJoin (fileDirname dir) t) (fileJoin dir t) := by
  have hcanonical := hread.canonical dir hdir
  have hplain := phonyTargets_plain t ht
  have hne : dir ≠ "" := by
    intro hempty
    have hwritten := hcanonical.written
    rw [hempty] at hwritten
    exact absurd hwritten (by decide)
  have habove := (hcanonical.dirname htop).1
  have hlink := h.links dir hdir hne htop t ht hordinary
  rw [fileJoin_makePrefix hcanonical htop hplain, makePrefix_append habove hplain] at hlink
  refine hlink ?_ (hread.words dir hdir t ht) ?_
  · rw [hcanonical.fileJoin_eq htop hplain]
    simp
  · rcases hparent with hparent | hparent
    · rw [hparent, fileJoin_top hplain]
      exact hrulebase.words t ht
    · exact hread.words _ hparent t ht

/-- The chain goes up from directory to directory, by induction on how deep they are. -/
theorem Linked.chained (h : Linked P s) (hrulebase : P.DefaultRulebase) (hread : Readable P s)
    (hordinary : ∀ t ∈ phonyTargets, s.base.Ordinary t) (hconnected : Connected s) : Chained s := by
  intro dir hdir htop t ht
  obtain ⟨k, hk⟩ : ∃ k, (dirNames dir).length = k := ⟨_, rfl⟩
  induction k generalizing dir with
  | zero =>
    have hnil := List.length_eq_zero_iff.mp hk
    exact absurd hnil ((hread.canonical dir hdir).ne_nil htop)
  | succ k ih =>
    have hparent := hconnected dir hdir htop
    have hlink := h.dependsOn hrulebase hread (hordinary t ht) hdir htop hparent ht
    by_cases habove : fileDirname dir = "."
    · rw [habove, fileJoin_top (phonyTargets_plain t ht)] at hlink
      exact .single hlink
    · obtain ⟨-, d, hnames⟩ := (hread.canonical dir hdir).dirname htop
      rw [hnames, List.length_append, List.length_singleton] at hk
      exact (ih (fileDirname dir) (hparent.resolve_left habove) habove (by omega)).tail hlink

/-- If there are no other links, then a chain leads over all of the directories above. -/
theorem Chained.connected (h : Chained s) (honly : OnlyLinks s)
    (hcanonical : ∀ dir ∈ s.processed, Canonical dir) : Connected s := by
  intro dir hdir htop
  have ht : "all" ∈ phonyTargets := List.mem_cons_self
  have hplain := phonyTargets_plain "all" ht
  by_cases habove : fileDirname dir = "."
  · exact Or.inl habove
  · refine Or.inr ?_
    have hparent := ((hcanonical dir hdir).dirname htop).1
    have hlast : ∀ {x y : Name}, TransGen s.base.DependsOn x y →
        ∃ z, s.base.DependsOn z y ∧ (z = x ∨ TransGen s.base.DependsOn x z) := by
      intro x y hxy
      cases hxy with
      | single hxy => exact ⟨x, hxy, Or.inl rfl⟩
      | tail hxz hzy => exact ⟨_, hzy, Or.inr hxz⟩
    obtain ⟨z, hz, hbefore⟩ := hlast (h dir hdir htop "all" ht)
    obtain ⟨-, rfl⟩ := honly dir "all" z (hcanonical dir hdir) htop ht hz
    rcases hbefore with hself | hbefore
    · -- a target below the top is not one of the top
      have hslash : '/' ∈ (fileJoin (fileDirname dir) "all").toList := by
        rw [hparent.fileJoin_eq habove hplain]
        simp
      rw [hself] at hslash
      exact absurd hslash hplain.noSlash
    · obtain ⟨z', hz', -⟩ := hlast hbefore
      exact (honly (fileDirname dir) "all" z' hparent habove ht hz').1

/-- The phony targets of the top depend on those of every directory that was processed, provided
that the directories above were processed, too; and this is needed, unless spec code makes links of
its own. -/
theorem phony_chain (P : Sources) (n : Nat) (hrulebase : P.DefaultRulebase)
    (hordinary : ∀ t ∈ phonyTargets, (P.loaded n).base.Ordinary t) (hread : Readable P (P.loaded n)) :
    (Connected (P.loaded n) → Chained (P.loaded n)) ∧
      (OnlyLinks (P.loaded n) → (Chained (P.loaded n) ↔ Connected (P.loaded n))) := by
  have hmoves : Moves P (fun _ => True) P.start (P.loaded n) :=
    (make_moves (fun _ => trivial) n).final P.start
  have hlinked : Linked P (P.loaded n) := Reached.linked hrulebase (hmoves _ (.init rfl))
  have hchained := hlinked.chained hrulebase hread hordinary
  exact ⟨hchained, fun honly => ⟨fun h => h.connected honly hread.canonical, hchained⟩⟩

/-- A project whose `project.spec` names some directories, each of which has a `build.spec`. -/
def specProject (dirs : List Path) : Sources where
  env _ := ""
  elements value := [value]
  hooks
    | .prolog => rulebaseProlog (fun value => [value]) ["rulebase.default"] .done
    | _ => .done
  projectSpec := .subDirs dirs .done
  buildSpec dir := if dir ∈ dirs then some .done else none

theorem specProject_rulebase (dirs : List Path) : (specProject dirs).DefaultRulebase where
  prolog := ⟨_, _, rfl⟩
  words _ _ := rfl

theorem ordinary_of_check {b : RuleBase}
    (h : (phonyTargets.all fun t => decide (t ∉ b.aliases) &&
      ((b.targets.lookup t).bind b.rules.lookup).all fun info => info.flags .global = 0) = true) :
    ∀ t ∈ phonyTargets, b.Ordinary t := by
  intro t ht
  obtain ⟨halias, hglobal⟩ := Bool.and_eq_true_iff.mp (List.all_eq_true.mp h t ht)
  refine ⟨of_decide_eq_true halias, fun rt info hrt hinfo => ?_⟩
  rw [hrt, Option.bind_some, hinfo] at hglobal
  exact of_decide_eq_true hglobal

theorem specProject_ordinary :
    ∀ t ∈ phonyTargets, ((specProject ["a"]).loaded 3).base.Ordinary t :=
  ordinary_of_check (by decide +kernel)

theorem specProject_readable :
    Readable (specProject ["a"]) ((specProject ["a"]).loaded 3) where
  canonical := by
    have hprocessed : ((specProject ["a"]).loaded 3).processed = ["a"] := by
      decide +kernel
    rw [hprocessed]
    intro dir hdir
    obtain rfl := List.mem_singleton.mp hdir
    exact ⟨by decide, by decide⟩
  words _ _ _ _ := rfl

/-- With `a` alone, the four targets of the top lead to those of `a`. -/
theorem phony_chain_a :
    (Connected ((specProject ["a"]).loaded 3) →
      Chained ((specProject ["a"]).loaded 3)) ∧
    (OnlyLinks ((specProject ["a"]).loaded 3) →
      (Chained ((specProject ["a"]).loaded 3) ↔
        Connected ((specProject ["a"]).loaded 3))) :=
  phony_chain (specProject ["a"]) 3 (specProject_rulebase _) specProject_ordinary
    specProject_readable

/-- With `a/b` alone, there is no target `all` at the top. -/
theorem phony_chain_broken :
    ¬ ∀ (P : Sources) (n : Nat), P.DefaultRulebase → (∃ u, P.load n = .ok () u) →
      Chained (P.loaded n) := by
  intro h
  have hok : (match (specProject ["a/b"]).load 4 with | .ok _ _ => true | .error _ _ => false) =
      true := by
    decide +kernel
  have hload : ∃ u, (specProject ["a/b"]).load 4 = .ok () u := by
    cases hrun : (specProject ["a/b"]).load 4 with
    | ok x u => exact ⟨u, rfl⟩
    | error e u =>
      rw [hrun] at hok
      cases hok
  have hprocessed : "a/b" ∈ ((specProject ["a/b"]).loaded 4).processed := by decide +kernel
  have hall : ((specProject ["a/b"]).loaded 4).base.targets.lookup "all" = none := by
    decide +kernel
  have hchain := h (specProject ["a/b"]) 4 (specProject_rulebase _) hload "a/b" hprocessed
    (by decide) "all" (by decide)
  obtain ⟨x, ⟨rt, info, hrt, -⟩, -⟩ := (TransGen.head'_iff).mp hchain
  rw [hall] at hrt
  cases hrt

end Loading

end Tmake
