import TmakeProof.Description
import TmakeProof.Positions

/-! # The rule base

The low-level command `target`, which enters a rule in `tmake(rules)`, its
targets in `tmake(targets)` and its alias in `tmake(aliases)`, or extends a rule
that is there already.  The engine itself reads the result of this phase
(`Desc`).

`Sound` states what the three dictionaries have to do with each other, and
`Recorded` what they have to do with the commands that filled them.  Both hold
after every command that is accepted; `none` stands for `parse-error`.
-/
namespace Tmake

/-- The flags of `tmake(emptytarget)`. -/
inductive Flag where
  | chdir | fatal | hash | nocache | nofail | nofork | phony | rootok | slow | symlink | global
  deriving DecidableEq, Repr

/-- Their keys, in the order of `tmake(emptytarget)`. -/
def Flag.all : List Flag :=
  [chdir, fatal, hash, nocache, nofail, nofork, phony, rootok, slow, symlink, global]

/-- A rule as `parse-rule` makes it and `tmake(rules)` keeps it. -/
structure RuleInfo where
  target : RuleTarget := []
  aliasName : String := ""
  depends : List Name := []
  inputs : List Name := []
  doList : List String := []
  addDo : List String := []
  dyndep : String := ""
  onerror : String := ""
  finallyDo : String := ""
  msg : String := ""
  vars : List (String × String) := []
  flags : Flag → Nat := fun _ => 0
  source : List String := []
  localDir : Path := ""

/-- `tmake(rules)`, `tmake(targets)` and `tmake(aliases)`. -/
structure RuleBase where
  rules : Dict RuleTarget RuleInfo := ∅
  targets : Dict Name RuleTarget := ∅
  aliases : Dict Name Name := ∅

/-- A `target` command, with what it reads of the parse: where it stands and the defines. -/
structure TargetCommand where
  target : RuleTarget
  args : List String
  source : List String := ["unknown"]
  localDir : Path := "."
  defines : Dict String String := ∅

/-! ## Looking up -/

namespace RuleBase

/-- `map-alias`. -/
def mapAlias (b : RuleBase) (target : Name) : Name := (b.aliases.lookup target).getD target

/-- `is-target?`. -/
def isTarget (b : RuleBase) (target : Name) : Bool := (b.targets.lookup (b.mapAlias target)).isSome

/-- `get-rule-target`. -/
def getRuleTarget (b : RuleBase) (target : Name) : Option RuleTarget :=
  b.targets.lookup (b.mapAlias target)

/-- `take-rule`: the rule is replaced by an empty one. -/
def takeRule (b : RuleBase) (ruletarget : RuleTarget) : RuleBase :=
  { b with rules := b.rules.insert ruletarget {} }

/-- The loop of `update-rule` over the targets of a new rule. -/
def addTargets (ruletarget : RuleTarget) : List Name → RuleBase → Option RuleBase
  | [], b => some b
  | t :: ts, b =>
    if t ∈ b.targets then none
    else addTargets ruletarget ts { b with targets := b.targets.insert t ruletarget }

/-- `lindex $ruletarget 0`. -/
def first (ruletarget : RuleTarget) : Name := ruletarget.head?.getD ""

/-- The end of `update-rule`. -/
def setRule (info : RuleInfo) (b : RuleBase) : RuleBase :=
  { b with
    aliases :=
      if info.aliasName ≠ "" then b.aliases.insert info.aliasName (first info.target) else b.aliases
    rules := b.rules.insert info.target info }

/-- `update-rule`. -/
def updateRule (info : RuleInfo) (b : RuleBase) : Option RuleBase :=
  if info.target ∈ b.rules then some (b.setRule info)
  else (addTargets info.target info.target b).map (setRule info)

end RuleBase

/-! ## Parsing a rule

`elements` reads a value as a Tcl list. -/

/-- `target-option-type`, for the options that are flags. -/
def Flag.ofOption : String → Option Flag
  | "chdir" => some chdir
  | "fatal" => some fatal
  | "hash" => some hash
  | "nocache" => some nocache
  | "nofail" => some nofail
  | "nofork" => some nofork
  | "phony" => some phony
  | "rootok" => some rootok
  | "slow" => some slow
  | "symlink" => some symlink
  | "global" => some global
  | _ => none

/-- `lappend info($opt)`. -/
def lappendOpt (opt : String) (args : List String) :
    List (String × List String) → List (String × List String)
  | [] => [(opt, args)]
  | (o, as) :: info => if o = opt then (o, as ++ args) :: info else (o, as) :: lappendOpt opt args info

/-- The loop of `parse-rule-args`: `opt` is the option read last, `n` counts its arguments. -/
def parseArgs : List String → String → Nat → List (String × List String) →
    Option (List (String × List String))
  | [], _, _, info => some info
  | arg :: args, opt, n, info =>
    let skip := if opt = "vars" then 2 else 1
    if n % skip = 0 && arg.toList.head? = some '-' then
      let opt := String.ofList arg.toList.tail
      parseArgs args opt 0 (lappendOpt opt [] info)
    else if opt = "" then none
    else parseArgs args opt (n + 1) (lappendOpt opt [arg] info)

/-- `parse-rule-args`. -/
def parseRuleArgs (arglist : List String) : Option (List (String × List String)) :=
  parseArgs arglist "" 0 []

/-- The name-value pairs of `-vars`; `none` for an odd number of parameters. -/
def pairs : List String → Option (List (String × String))
  | [] => some []
  | [_] => none
  | n :: v :: rest => (pairs rest).map ((n, v) :: ·)

/-- The variables of `-getvars`, which must exist. -/
def getVars (defines : Dict String String) : List String → Option (List (String × String))
  | [] => some []
  | v :: vs => do
    let value ← defines.lookup v
    let rest ← getVars defines vs
    return (v, value) :: rest

section
variable (elements : String → List String)

/-- One option of a rule; `-add` is left to `parseRule`. -/
def applyOption (c : TargetCommand) (info : RuleInfo) (opt : String) (args : List String) :
    Option RuleInfo :=
  match Flag.ofOption opt with
  | some flag =>
    if args.isEmpty then some { info with flags := Function.update info.flags flag 1 } else none
  | none =>
    match opt with
    | "add" => some info
    | "inputs" => some { info with inputs := elements (joinList args) }
    | "depends" => some { info with depends := elements (joinList args) }
    | "msg" => some { info with msg := args.getLast?.getD "" }
    | "do" => if 1 < args.length then none else some { info with doList := args }
    | "dyndep" =>
      if 1 < args.length then none else some { info with dyndep := args.head?.getD "" }
    | "onerror" =>
      if 1 < args.length then none else some { info with onerror := args.head?.getD "" }
    | "finally" =>
      if 1 < args.length then none else some { info with finallyDo := args.head?.getD "" }
    | "alias" =>
      if 1 < args.length then none else some { info with aliasName := args.head?.getD "" }
    | "vars" => (pairs args).map fun vars => { info with vars := info.vars ++ vars }
    | "getvars" => (getVars c.defines args).map fun vars => { info with vars := info.vars ++ vars }
    | _ => none

/-- The loop of `parse-rule` over the options. -/
def applyOptions (c : TargetCommand) : List (String × List String) → RuleInfo → Option RuleInfo
  | [], info => some info
  | (opt, args) :: opts, info => do
    let info ← applyOption elements c info opt args
    applyOptions c opts info

/-- `parse-rule`. -/
def parseRule (c : TargetCommand) : Option RuleInfo := do
  let arginfo ← parseRuleArgs c.args
  let info ← applyOptions elements c arginfo { target := c.target, source := c.source }
  if arginfo.any fun x => x.1 = "add" then
    if info.doList.isEmpty then none
    else return { info with addDo := info.doList, doList := [] }
  else return info

/-! ## Creating and extending a rule -/

/-- What `target` compares to find a duplicate rule: the keys of `tmake(emptytarget)`. -/
def RuleInfo.identical (info orig : RuleInfo) : Bool :=
  info.aliasName = orig.aliasName && info.depends = orig.depends && info.inputs = orig.inputs
    && info.doList = orig.doList && info.dyndep = orig.dyndep && info.onerror = orig.onerror
    && info.finallyDo = orig.finallyDo && info.msg = orig.msg && info.vars = orig.vars
    && Flag.all.all fun flag => info.flags flag = orig.flags flag

/-- `append-with-space`, with the separator given. -/
def appendWith (space value new : String) : String :=
  if value ≠ "" then value ++ space ++ new else new

/-- `dict set` on a list of names and values. -/
def setVar (f : String → String) (n : String) : List (String × String) → List (String × String)
  | [] => [(n, f "")]
  | (m, v) :: vars => if m = n then (m, f v) :: vars else (m, v) :: setVar f n vars

/-- `merge-vars`. -/
def mergeVars (dict1 dict2 : List (String × String)) : List (String × String) :=
  if dict2.isEmpty then dict1
  else if dict1.isEmpty then dict2
  else
    dict2.foldl (fun d x => setVar (fun v => appendWith " " v x.2) x.1 d)
      (dict1.foldl (fun d x => setVar (fun _ => x.2) x.1 d) [])

/-- The sources of both rules, each once. -/
def mergeSource (source new : List String) : List String :=
  ((source ++ new).filter fun s => s ≠ "unknown").foldl
    (fun set s => if s ∈ set then set else set ++ [s]) []

/-- The `-dyndep` script of an extended rule. -/
def mergeDyndep (dyndep new : String) : Option String :=
  if new ≠ "" && dyndep ≠ "" then
    if new = dyndep then some (appendWith "\n" dyndep "") else none
  else some (appendWith "\n" dyndep new)

/-- The new data is merged into the rule that is there. -/
def mergeFields (orig info : RuleInfo) (dyndep : String) : RuleInfo :=
  { orig with
    depends := orig.depends ++ info.depends
    inputs := orig.inputs ++ info.inputs
    flags := fun flag => orig.flags flag + info.flags flag
    onerror := appendWith "\n" orig.onerror info.onerror
    finallyDo := appendWith "\n" orig.finallyDo info.finallyDo
    doList := orig.doList ++ info.addDo
    dyndep
    source := mergeSource orig.source info.source
    vars := mergeVars orig.vars info.vars }

/-- Whichever rule has the commands also specifies the inputs and the message. -/
def adoptDo (info : RuleInfo) (newDo : List String) (merged : RuleInfo) : RuleInfo :=
  if merged.doList.isEmpty then
    { merged with doList := newDo, inputs := info.inputs, msg := info.msg }
  else merged

/-- A rule with inputs or a message has to have commands. -/
def checkDo (merged : RuleInfo) : Option RuleInfo :=
  if merged.doList.isEmpty && (!merged.inputs.isEmpty || merged.msg ≠ "") then none
  else some merged

/-- The second half of `target`.  The commands of the rule that is there win. -/
def mergeRule (orig info : RuleInfo) : Option RuleInfo := do
  let newDo := if !info.doList.isEmpty && !orig.doList.isEmpty then [] else info.doList
  let dyndep ← mergeDyndep orig.dyndep info.dyndep
  checkDo (adoptDo info newDo (mergeFields orig info dyndep))

/-- What `target` adds to the rule that it has parsed. -/
def completeRule (c : TargetCommand) : Option RuleInfo :=
  (parseRule elements c).map fun info =>
    { info with depends := info.depends ++ info.inputs, localDir := c.localDir }

/-- `target`. -/
def target (c : TargetCommand) (b : RuleBase) : Option RuleBase :=
  match b.rules.lookup c.target with
  | some orig => do
    let info ← completeRule elements c
    if info.identical orig then (b.takeRule c.target).updateRule orig
    else
      let merged ← mergeRule orig info
      (b.takeRule c.target).updateRule merged
  | none =>
    if b.isTarget (joinList c.target) then none
    else do
      let info ← completeRule elements c
      b.updateRule info

/-- A sequence of `target` commands, all of which are accepted. -/
def targets : List TargetCommand → RuleBase → Option RuleBase
  | [], b => some b
  | c :: cs, b => do
    let b ← target elements c b
    targets cs b

/-- The command has an `-alias`. -/
def TargetCommand.Gives (c : TargetCommand) (name : Name) : Prop :=
  name ≠ "" ∧ ∃ info, parseRule elements c = some info ∧ info.aliasName = name

end

/-! ## The three dictionaries -/

/-- Each rule is kept under its own key, its targets point to it, and nothing else points
anywhere. -/
structure RuleBase.Sound (b : RuleBase) : Prop where
  key : ∀ rt info, b.rules.lookup rt = some info → info.target = rt
  owned : ∀ rt ∈ b.rules, ∀ t ∈ rt, b.targets.lookup t = some rt
  listed : ∀ t rt, b.targets.lookup t = some rt → t ∈ rt ∧ rt ∈ b.rules

/-- No name belongs to two rules. -/
theorem RuleBase.Sound.unique {b : RuleBase} (h : b.Sound) {rt rt' : RuleTarget}
    (hrt : rt ∈ b.rules) (hrt' : rt' ∈ b.rules) {t : Name} (ht : t ∈ rt) (ht' : t ∈ rt') :
    rt = rt' := by
  have howner := h.owned rt hrt t ht
  rw [h.owned rt' hrt' t ht'] at howner
  exact (Option.some.inj howner).symm

section
variable {elements : String → List String}

theorem applyOption_target {c : TargetCommand} {info info' : RuleInfo} {opt : String}
    {args : List String} (h : applyOption elements c info opt args = some info') :
    info'.target = info.target := by
  unfold applyOption at h
  split at h
  · split at h <;> cases h
    rfl
  · split at h <;> (try split at h) <;> simp at h
    all_goals first
      | (subst h; rfl)
      | (obtain ⟨_, _, rfl⟩ := h; rfl)

theorem applyOptions_target {c : TargetCommand} {opts : List (String × List String)}
    {info info' : RuleInfo} (h : applyOptions elements c opts info = some info') :
    info'.target = info.target := by
  induction opts generalizing info with
  | nil =>
    cases h
    rfl
  | cons opt opts ih =>
    obtain ⟨info₁, h₁, h₂⟩ := Option.bind_eq_some_iff.mp h
    rw [ih h₂, applyOption_target h₁]

theorem parseRule_target {c : TargetCommand} {info : RuleInfo}
    (h : parseRule elements c = some info) : info.target = c.target := by
  obtain ⟨arginfo, -, h⟩ := Option.bind_eq_some_iff.mp h
  obtain ⟨info₁, h₁, h⟩ := Option.bind_eq_some_iff.mp h
  have htarget := applyOptions_target h₁
  split at h
  · split at h <;> cases h
    exact htarget
  · cases h
    exact htarget

/-- The rule of a command is that of its target list, with the alias that the command gives. -/
theorem completeRule_some {c : TargetCommand} {info : RuleInfo}
    (h : completeRule elements c = some info) :
    info.target = c.target ∧
      ∀ name, c.Gives elements name ↔ name ≠ "" ∧ info.aliasName = name := by
  obtain ⟨info₁, h₁, rfl⟩ := Option.map_eq_some_iff.mp h
  have htarget : info₁.target = c.target := parseRule_target h₁
  refine ⟨htarget, fun name => and_congr_right fun _ => ?_⟩
  simp [h₁]

theorem checkDo_some {info merged : RuleInfo} (h : checkDo info = some merged) :
    merged = info := by
  unfold checkDo at h
  split at h
  · cases h
  · exact (Option.some.inj h).symm

/-- A merged rule keeps its targets and its alias: an alias of the new data is dropped. -/
theorem mergeRule_some {orig info merged : RuleInfo} (h : mergeRule orig info = some merged) :
    merged.target = orig.target ∧ merged.aliasName = orig.aliasName := by
  obtain ⟨dyndep, -, h⟩ := Option.bind_eq_some_iff.mp h
  rw [checkDo_some h, adoptDo]
  split <;> exact ⟨rfl, rfl⟩

theorem addTargets_some {rt : RuleTarget} {ts : List Name} {b b' : RuleBase}
    (h : RuleBase.addTargets rt ts b = some b') :
    b'.rules = b.rules ∧ b'.aliases = b.aliases ∧ (∀ t ∈ ts, t ∉ b.targets) ∧
      ∀ t, b'.targets.lookup t = if t ∈ ts then some rt else b.targets.lookup t := by
  induction ts generalizing b with
  | nil =>
    cases h
    simp
  | cons t ts ih =>
    rw [RuleBase.addTargets] at h
    split at h
    · cases h
    · rename_i hfree
      obtain ⟨hrules, haliases, hnew, hlookup⟩ := ih h
      refine ⟨hrules, haliases, ?_, ?_⟩
      · intro u hu
        rcases List.mem_cons.mp hu with rfl | hu
        · exact hfree
        · exact fun hmem => hnew u hu ((AList.mem_insert _).mpr (.inr hmem))
      · intro u
        rw [hlookup u]
        by_cases hu : u = t
        · rw [hu, AList.lookup_insert]
          simp
        · rw [AList.lookup_insert_ne hu]
          simp [hu]

/-- What `target` does: it replaces the rule by one with the same targets and alias, or enters
the new rule with its targets, none of which any rule had. -/
theorem target_cases {c : TargetCommand} {b b' : RuleBase} (h : target elements c b = some b') :
    (∃ orig info, b.rules.lookup c.target = some orig ∧ info.target = orig.target ∧
      info.aliasName = orig.aliasName ∧
      ((b.takeRule c.target).updateRule info) = some b') ∨
    (c.target ∉ b.rules ∧ ∃ info b₁, info.target = c.target ∧
      completeRule elements c = some info ∧
      RuleBase.addTargets c.target c.target b = some b₁ ∧ b' = b₁.setRule info) := by
  unfold target at h
  cases horig : b.rules.lookup c.target with
  | some orig =>
    simp only [horig] at h
    obtain ⟨info, -, h⟩ := Option.bind_eq_some_iff.mp h
    split at h
    · exact .inl ⟨orig, orig, rfl, rfl, rfl, h⟩
    · obtain ⟨merged, hmerged, h⟩ := Option.bind_eq_some_iff.mp h
      obtain ⟨htarget, halias⟩ := mergeRule_some hmerged
      exact .inl ⟨orig, merged, rfl, htarget, halias, h⟩
  | none =>
    simp only [horig] at h
    have hfree : c.target ∉ b.rules := AList.lookup_eq_none.mp horig
    split at h
    · cases h
    · obtain ⟨info, hinfo, h⟩ := Option.bind_eq_some_iff.mp h
      have htarget := (completeRule_some hinfo).1
      rw [RuleBase.updateRule, htarget, if_neg hfree] at h
      obtain ⟨b₁, hb₁, rfl⟩ := Option.map_eq_some_iff.mp h
      exact .inr ⟨hfree, info, b₁, htarget, hinfo, hb₁, rfl⟩

/-- The first case of `target_cases`, worked out. -/
theorem takeRule_updateRule (b : RuleBase) (info : RuleInfo) :
    (b.takeRule info.target).updateRule info =
      some { b with
        aliases := (b.setRule info).aliases
        rules := (b.rules.insert info.target {}).insert info.target info } := by
  simp [RuleBase.updateRule, RuleBase.takeRule, RuleBase.setRule]

/-- One command keeps the dictionaries in order. -/
theorem RuleBase.Sound.target {c : TargetCommand} {b b' : RuleBase} (hb : b.Sound)
    (h : target elements c b = some b') : b'.Sound := by
  rcases target_cases h with ⟨orig, info, horig, htarget, -, h⟩ |
    ⟨hfree, info, b₁, htarget, -, hadd, rfl⟩
  · have hkey : info.target = c.target := htarget.trans (hb.key _ _ horig)
    rw [← hkey, takeRule_updateRule] at h
    cases h
    have hmem : c.target ∈ b.rules := AList.lookup_isSome.mp (by simp [horig])
    constructor
    · intro rt info' hinfo
      by_cases hrt : rt = info.target
      · rw [hrt, AList.lookup_insert] at hinfo
        rw [← Option.some.inj hinfo, hrt]
      · rw [AList.lookup_insert_ne hrt, AList.lookup_insert_ne hrt] at hinfo
        exact hb.key rt info' hinfo
    · intro rt hrt
      refine hb.owned rt ?_
      rcases (AList.mem_insert _).mp hrt with rfl | hrt
      · exact hkey ▸ hmem
      · rcases (AList.mem_insert _).mp hrt with rfl | hrt
        · exact hkey ▸ hmem
        · exact hrt
    · intro t rt ht
      obtain ⟨hmem', hrt⟩ := hb.listed t rt ht
      exact ⟨hmem', (AList.mem_insert _).mpr (.inr ((AList.mem_insert _).mpr (.inr hrt)))⟩
  · obtain ⟨hrules, -, hnew, hlookup⟩ := addTargets_some hadd
    constructor
    · intro rt info' hinfo
      simp only [RuleBase.setRule, hrules] at hinfo
      by_cases hrt : rt = info.target
      · rw [hrt, AList.lookup_insert] at hinfo
        rw [← Option.some.inj hinfo, hrt]
      · rw [AList.lookup_insert_ne hrt] at hinfo
        exact hb.key rt info' hinfo
    · intro rt hrt t ht
      simp only [RuleBase.setRule, hrules] at hrt ⊢
      rw [hlookup t]
      rcases (AList.mem_insert _).mp hrt with rfl | hrt
      · rw [if_pos (htarget ▸ ht), htarget]
      · -- a rule that was there keeps its targets: the new ones are all free
        have howner := hb.owned rt hrt t ht
        rw [if_neg, howner]
        exact fun ht' => hnew t ht' (AList.lookup_isSome.mp (by simp [howner]))
    · intro t rt ht
      simp only [RuleBase.setRule, hrules] at ht ⊢
      rw [hlookup t] at ht
      split at ht
      · rename_i hmem
        cases ht
        exact ⟨hmem, (AList.mem_insert _).mpr (.inl htarget.symm)⟩
      · obtain ⟨hmem, hrt⟩ := hb.listed t rt ht
        exact ⟨hmem, (AList.mem_insert _).mpr (.inr hrt)⟩

/-! ## The dictionaries and the commands -/

/-- What the commands `cs` have left: the alias of a rule and the meaning of an alias come from
a command, a rule is there for each command, and the alias of the first command of a rule is
there too. -/
structure RuleBase.Recorded (elements : String → List String) (cs : List TargetCommand)
    (b : RuleBase) : Prop where
  given : ∀ rt info, b.rules.lookup rt = some info → info.aliasName ≠ "" →
    ∃ c ∈ cs, c.target = rt ∧ c.Gives elements info.aliasName
  meant : ∀ name t, b.aliases.lookup name = some t →
    ∃ c ∈ cs, c.Gives elements name ∧ t = RuleBase.first c.target
  entered : ∀ c ∈ cs, c.target ∈ b.rules
  made : ∀ rt ∈ b.rules, ∃ c ∈ cs, c.target = rt
  known : ∀ pre c post, cs = pre ++ c :: post → (∀ c' ∈ pre, c'.target ≠ c.target) →
    ∀ name, c.Gives elements name → name ∈ b.aliases

theorem RuleBase.Recorded.empty : ({} : RuleBase).Recorded elements [] where
  given rt info h := by simp at h
  meant name t h := by simp at h
  entered c h := nomatch h
  made rt h := absurd h (AList.notMem_empty rt)
  known pre c post h := by simp at h

/-- A command gives its alias, if any, when its rule is entered or written again. -/
theorem RuleBase.setRule_aliases (b : RuleBase) (info : RuleInfo) (name : Name) :
    (b.setRule info).aliases.lookup name =
      if info.aliasName ≠ "" ∧ name = info.aliasName then some (first info.target)
      else b.aliases.lookup name := by
  simp only [RuleBase.setRule]
  by_cases halias : info.aliasName = ""
  · simp [halias]
  · rw [if_pos halias]
    by_cases hname : name = info.aliasName
    · rw [hname, AList.lookup_insert, if_pos ⟨halias, rfl⟩]
    · rw [AList.lookup_insert_ne hname, if_neg fun h => hname h.2]

theorem RuleBase.mem_setRule_aliases {b : RuleBase} {info : RuleInfo} {name : Name}
    (h : name ∈ b.aliases) : name ∈ (b.setRule info).aliases := by
  rw [← AList.lookup_isSome] at h ⊢
  rw [RuleBase.setRule_aliases]
  split
  · rfl
  · exact h

/-- One more command. -/
theorem RuleBase.Recorded.target {cs : List TargetCommand} {c : TargetCommand} {b b' : RuleBase}
    (hb : b.Sound) (hr : b.Recorded elements cs) (h : Tmake.target elements c b = some b') :
    b'.Recorded elements (cs ++ [c]) := by
  rcases target_cases h with ⟨orig, info, horig, htarget, halias, h⟩ |
    ⟨hfree, info, b₁, htarget, hinfo, hadd, rfl⟩
  · have hkey : info.target = c.target := htarget.trans (hb.key _ _ horig)
    rw [← hkey, takeRule_updateRule] at h
    cases h
    have hmem : c.target ∈ b.rules := AList.lookup_isSome.mp (by simp [horig])
    have hgiven : info.aliasName ≠ "" →
        ∃ c' ∈ cs, c'.target = c.target ∧ c'.Gives elements info.aliasName :=
      fun hne => halias ▸ hr.given _ _ horig (halias ▸ hne)
    constructor
    · intro rt info' hinfo hne
      by_cases hrt : rt = info.target
      · rw [hrt, AList.lookup_insert] at hinfo
        obtain rfl := Option.some.inj hinfo
        obtain ⟨c', hc', htc, hg⟩ := hgiven hne
        exact ⟨c', List.mem_append_left _ hc', htc.trans (hkey.symm.trans hrt.symm), hg⟩
      · rw [AList.lookup_insert_ne hrt, AList.lookup_insert_ne hrt] at hinfo
        obtain ⟨c', hc', htc⟩ := hr.given rt info' hinfo hne
        exact ⟨c', List.mem_append_left _ hc', htc⟩
    · intro name t ht
      rw [RuleBase.setRule_aliases] at ht
      split at ht
      · rename_i hname
        obtain ⟨c', hc', htc, hg⟩ := hgiven hname.1
        refine ⟨c', List.mem_append_left _ hc', hname.2 ▸ hg, ?_⟩
        rw [← Option.some.inj ht, hkey, htc]
      · obtain ⟨c', hc', hg, ht⟩ := hr.meant name t ht
        exact ⟨c', List.mem_append_left _ hc', hg, ht⟩
    · intro c' hc'
      refine (AList.mem_insert _).mpr (.inr ((AList.mem_insert _).mpr (.inr ?_)))
      rcases List.mem_append.mp hc' with hc' | hc'
      · exact hr.entered c' hc'
      · exact List.mem_singleton.mp hc' ▸ hmem
    · intro rt hrt
      have hrt' : rt ∈ b.rules := by
        rcases (AList.mem_insert _).mp hrt with rfl | hrt
        · exact hkey ▸ hmem
        · rcases (AList.mem_insert _).mp hrt with rfl | hrt
          · exact hkey ▸ hmem
          · exact hrt
      obtain ⟨c', hc', htc⟩ := hr.made rt hrt'
      exact ⟨c', List.mem_append_left _ hc', htc⟩
    · intro pre c' post heq hpre name hg
      refine RuleBase.mem_setRule_aliases ?_
      rcases concat_split heq with ⟨rfl, rfl⟩ | ⟨post', heq'⟩
      · -- an extended rule has an earlier command
        obtain ⟨c₀, hc₀, htc⟩ := hr.made _ hmem
        exact absurd htc (hpre c₀ hc₀)
      · exact hr.known pre c' post' heq' hpre name hg
  · obtain ⟨hrules, haliases, -, -⟩ := addTargets_some hadd
    have hgives := (completeRule_some hinfo).2
    constructor
    · intro rt info' hinfo' hne
      simp only [RuleBase.setRule, hrules] at hinfo'
      by_cases hrt : rt = info.target
      · rw [hrt, AList.lookup_insert] at hinfo'
        obtain rfl := Option.some.inj hinfo'
        exact ⟨c, by simp, htarget.symm.trans hrt.symm, (hgives _).mpr ⟨hne, rfl⟩⟩
      · rw [AList.lookup_insert_ne hrt] at hinfo'
        obtain ⟨c', hc', htc⟩ := hr.given rt info' hinfo' hne
        exact ⟨c', List.mem_append_left _ hc', htc⟩
    · intro name t ht
      rw [RuleBase.setRule_aliases] at ht
      split at ht
      · rename_i hname
        refine ⟨c, by simp, (hgives name).mpr ⟨hname.2 ▸ hname.1, hname.2.symm⟩, ?_⟩
        rw [← Option.some.inj ht, htarget]
      · rw [haliases] at ht
        obtain ⟨c', hc', hg, ht⟩ := hr.meant name t ht
        exact ⟨c', List.mem_append_left _ hc', hg, ht⟩
    · intro c' hc'
      simp only [RuleBase.setRule, hrules]
      refine (AList.mem_insert _).mpr ?_
      rcases List.mem_append.mp hc' with hc' | hc'
      · exact .inr (hr.entered c' hc')
      · exact .inl (List.mem_singleton.mp hc' ▸ htarget.symm)
    · intro rt hrt
      simp only [RuleBase.setRule, hrules] at hrt
      rcases (AList.mem_insert _).mp hrt with rfl | hrt
      · exact ⟨c, by simp, htarget.symm⟩
      · obtain ⟨c', hc', htc⟩ := hr.made rt hrt
        exact ⟨c', List.mem_append_left _ hc', htc⟩
    · intro pre c' post heq hpre name hg
      rcases concat_split heq with ⟨rfl, rfl⟩ | ⟨post', heq'⟩
      · obtain ⟨hne, rfl⟩ := (hgives name).mp hg
        rw [← AList.lookup_isSome, RuleBase.setRule_aliases, if_pos ⟨hne, rfl⟩]
        rfl
      · refine RuleBase.mem_setRule_aliases ?_
        rw [haliases]
        exact hr.known pre c' post' heq' hpre name hg

/-- The run lemma: what any accepted sequence of commands leaves. -/
theorem targets_sound {done cs : List TargetCommand} {b b' : RuleBase} (hb : b.Sound)
    (hr : b.Recorded elements done) (h : targets elements cs b = some b') :
    b'.Sound ∧ b'.Recorded elements (done ++ cs) := by
  induction cs generalizing done b with
  | nil =>
    cases h
    simpa using ⟨hb, hr⟩
  | cons c cs ih =>
    obtain ⟨b₁, h₁, h₂⟩ := Option.bind_eq_some_iff.mp h
    simpa using ih (hb.target h₁) (hr.target hb h₁) h₂

theorem RuleBase.Sound.empty : ({} : RuleBase).Sound where
  key rt info h := by simp at h
  owned rt h := absurd h (AList.notMem_empty rt)
  listed t rt h := by simp at h

end

/-- **Rule-base integrity.**  After any accepted sequence of `target` commands every rule that
was given is there; each of its names is entered for it, and resolves to it unless it has been
made an alias; no name belongs to two rules; whatever is entered in `tmake(targets)` belongs to
a rule that lists it; and an alias given when its rule is created resolves to the first target
of the rule, as long as it is given for no other rule. -/
theorem rule_base_sound (elements : String → List String) (cs : List TargetCommand)
    (b : RuleBase) (h : targets elements cs {} = some b) :
    (∀ c ∈ cs, c.target ∈ b.rules) ∧
    (∀ rt ∈ b.rules, ∀ t ∈ rt, b.targets.lookup t = some rt ∧
      (t ∉ b.aliases → b.getRuleTarget t = some rt)) ∧
    (∀ rt ∈ b.rules, ∀ rt' ∈ b.rules, ∀ t ∈ rt, t ∈ rt' → rt = rt') ∧
    (∀ t rt, b.targets.lookup t = some rt → rt ∈ b.rules ∧ t ∈ rt) ∧
    ∀ pre c post, cs = pre ++ c :: post → (∀ c' ∈ pre, c'.target ≠ c.target) →
      ∀ name, c.Gives elements name → (∀ c' ∈ cs, c'.Gives elements name → c'.target = c.target) →
        b.mapAlias name = RuleBase.first c.target ∧
        (c.target ≠ [] → b.getRuleTarget name = some c.target) := by
  obtain ⟨hs, hr⟩ := targets_sound RuleBase.Sound.empty RuleBase.Recorded.empty h
  rw [List.nil_append] at hr
  refine ⟨hr.entered, ?_, fun rt hrt rt' hrt' t => hs.unique hrt hrt',
    fun t rt ht => (hs.listed t rt ht).symm, ?_⟩
  · intro rt hrt t ht
    have howner := hs.owned rt hrt t ht
    refine ⟨howner, fun halias => ?_⟩
    rw [RuleBase.getRuleTarget, RuleBase.mapAlias, AList.lookup_eq_none.mpr halias]
    exact howner
  · intro pre c post heq hpre name hg honly
    -- the alias is there, and the command it comes from is one for the same rule
    obtain ⟨t, ht⟩ := Option.isSome_iff_exists.mp
      (AList.lookup_isSome.mpr (hr.known pre c post heq hpre name hg))
    obtain ⟨c', hc', hg', rfl⟩ := hr.meant name t ht
    have hmap : b.mapAlias name = RuleBase.first c.target := by
      rw [RuleBase.mapAlias, ht, honly c' hc' hg']
      rfl
    refine ⟨hmap, fun hne => ?_⟩
    rw [RuleBase.getRuleTarget, hmap]
    refine hs.owned _ (hr.entered c (heq ▸ by simp)) _ ?_
    obtain ⟨a, l, hl⟩ := List.exists_cons_of_ne_nil hne
    rw [hl]
    exact List.mem_cons_self

/-- `target liba.a -do ar -alias <lib>a` in a project that links with it: the alias resolves. -/
theorem rule_base_sound_lib :
    ∃ b, targets (fun value => [value])
        [⟨["liba.a"], ["-do", "ar", "-alias", "<lib>a"], ["unknown"], ".", ∅⟩,
          ⟨["prog"], ["-do", "ld", "-depends", "<lib>a"], ["unknown"], ".", ∅⟩] {} = some b ∧
      b.mapAlias "<lib>a" = "liba.a" ∧ b.getRuleTarget "<lib>a" = some ["liba.a"] := by
  let cs : List TargetCommand :=
    [⟨["liba.a"], ["-do", "ar", "-alias", "<lib>a"], ["unknown"], ".", ∅⟩,
      ⟨["prog"], ["-do", "ld", "-depends", "<lib>a"], ["unknown"], ".", ∅⟩]
  obtain ⟨b, hb⟩ := Option.isSome_iff_exists.mp
    (show (targets (fun value => [value]) cs {}).isSome = true by decide +kernel)
  have halias : (parseRule (fun value => [value]) cs[0]).map RuleInfo.aliasName
      = some "<lib>a" := by decide +kernel
  have hother : (parseRule (fun value => [value]) cs[1]).map RuleInfo.aliasName
      = some "" := by decide +kernel
  obtain ⟨-, -, -, -, hresolves⟩ := rule_base_sound (fun value => [value]) cs b hb
  have := hresolves [] cs[0] [cs[1]] rfl (by simp) "<lib>a"
    ⟨by decide, Option.map_eq_some_iff.mp halias⟩ (by
      intro c hc hg
      rcases List.mem_cons.mp hc with rfl | hc
      · rfl
      · obtain rfl := List.mem_singleton.mp hc
        have hg' := Option.map_eq_some_iff.mpr hg.2
        exact absurd (hother.symm.trans hg') (by decide))
  exact ⟨b, hb, this.1, this.2 (by decide)⟩

/-- An alias hides a target of the same name, and an alias given when the rule is extended is
dropped. -/
theorem rule_base_alias_hides :
    ∃ b, targets (fun value => [value])
        [⟨["a"], ["-do", "x"], ["unknown"], ".", ∅⟩,
          ⟨["b"], ["-do", "y", "-alias", "a"], ["unknown"], ".", ∅⟩,
          ⟨["a"], ["-depends", "c", "-alias", "<lib>a"], ["unknown"], ".", ∅⟩] {} = some b ∧
      ["a"] ∈ b.rules ∧ b.getRuleTarget "a" = some ["b"] ∧ b.mapAlias "<lib>a" = "<lib>a" := by
  obtain ⟨b, hb, hb'⟩ := Option.map_eq_some_iff.mp
    (show (targets (fun value => [value])
        [⟨["a"], ["-do", "x"], ["unknown"], ".", ∅⟩,
          ⟨["b"], ["-do", "y", "-alias", "a"], ["unknown"], ".", ∅⟩,
          ⟨["a"], ["-depends", "c", "-alias", "<lib>a"], ["unknown"], ".", ∅⟩] {}).map
        (fun b => ((["a"] ∈ b.rules : Bool), b.getRuleTarget "a", b.mapAlias "<lib>a"))
      = some (true, some ["b"], "<lib>a") by decide +kernel)
  simp only [Prod.mk.injEq, decide_eq_true_eq] at hb'
  exact ⟨b, hb, hb'.1, hb'.2.1, hb'.2.2⟩

end Tmake
