import Mathlib.Data.List.AList
import Mathlib.Logic.Relation
import TmakeProof.Paths

/-! # The build description

What parsing the spec files leaves behind: the rules, the aliases, the defines
and the options of the command line.  All of it is fixed while targets are
built.

Tcl scripts are not interpreted.  Of a `-do` script the engine itself reads
only the text, which it substitutes and compares with the one it has cached;
what the script does when it is evaluated is a matter of the environment
(`Environment`).  A `-dyndep` script is a program (`Scan`) that looks at the
file tree and asks the engine to build what it finds there.
-/
namespace Tmake

/-- A target or file, named from the top of the project, or an alias such as `<lib>foo`. -/
abbrev Name := String

/-- The target list of a rule, which is also the key of the rule. -/
abbrev RuleTarget := List Name

/-- A Tcl dict: each key once. -/
abbrev Dict (α β : Type) := AList (fun _ : α => β)

/-! ## The file tree -/

/-- What one path holds.  For a symbolic link `seen` is the time and content that `stat`
finds behind it, if it is not dangling. -/
inductive Node where
  | file (mtime : Int) (content : String)
  | link (text : String) (lmtime : Int) (seen : Option (Int × String))
  deriving DecidableEq, Repr

abbrev FS := Path → Option Node

namespace FS

/-- `file stat`: modification time and content, looking through links. -/
def stat (fs : FS) (p : Path) : Option (Int × String) :=
  match fs p with
  | some (.file mtime content) => some (mtime, content)
  | some (.link _ _ seen) => seen
  | none => none

/-- `file exists`. -/
def exists? (fs : FS) (p : Path) : Bool := (fs.stat p).isSome

/-- Create, replace or (with `none`) remove what is at `p`. -/
def put (fs : FS) (p : Path) (node : Option Node) : FS := Function.update fs p node

/-- Several such changes, one after the other. -/
def putAll (fs : FS) (puts : List (Path × Option Node)) : FS :=
  puts.foldl (fun fs x => fs.put x.1 x.2) fs

@[simp] theorem putAll_nil (fs : FS) : fs.putAll [] = fs := rfl

theorem putAll_cons (fs : FS) (x : Path × Option Node) (puts : List (Path × Option Node)) :
    fs.putAll (x :: puts) = (fs.put x.1 x.2).putAll puts := rfl

/-- A path that is not written keeps its node. -/
theorem putAll_of_notMem (fs : FS) {puts : List (Path × Option Node)} {p : Path}
    (h : ∀ x ∈ puts, x.1 ≠ p) : fs.putAll puts p = fs p := by
  induction puts generalizing fs with
  | nil => rfl
  | cons x puts ih =>
    rw [putAll_cons, ih _ (fun y hy => h y (List.mem_cons_of_mem _ hy))]
    exact Function.update_of_ne (Ne.symm (h x List.mem_cons_self)) ..

end FS

/-! ## Rules -/

/-- A piece of a `-do` script: literal text, or the value of a variable. -/
inductive Seg where
  | lit (text : String)
  | var (name : String)
  deriving DecidableEq, Repr

/-- One script of a `-do` list, as `subst` sees it. -/
structure Script where
  text : List Seg
  deriving DecidableEq, Repr

/-- A dynamic-dependency scan.  `peek` looks at the file tree; `lookup f keep k` is
`find-all-files-on-path`: a target `f` is built before it is used, anything else must
exist, and a match that `keep` does not drop as already seen becomes a dependency. -/
inductive Scan where
  | done
  | peek (k : FS → Scan)
  | lookup (f : Name) (keep : FS → Bool) (k : Bool → Scan)

/-- A `-dyndep` script, run on one input: the dependencies it names outright and those its
scan finds. -/
structure Dyndep where
  named : List Name := []
  scan : Scan := .done

/-- A rule, with the keys of `tmake(emptytarget)` that the engine reads. -/
structure Rule where
  target : RuleTarget
  depends : List Name := []
  inputs : List Name := []
  doList : List Script := []
  dyndep : Option (Name → Dyndep) := none
  vars : List (String × String) := []
  localDir : Path := "."
  chdir : Bool := false
  fatal : Bool := false
  hash : Bool := false
  nocache : Bool := false
  nofail : Bool := false
  nofork : Bool := false
  phony : Bool := false
  rootok : Bool := false
  slow : Bool := false
  symlink : Bool := false

/-- The rules, aliases, defines and settings of a run. -/
structure Desc where
  rules : List Rule
  /-- `update-rule` refuses a target that another rule already has. -/
  disjoint : rules.Pairwise fun r s => ∀ t ∈ r.target, t ∉ s.target
  aliases : Dict Name Name := ∅
  defines : List (String × String) := []
  build : Path := "objdir"
  /-- `relative-path` of a path of the project from the build directory of a `-chdir` rule. -/
  relative : RuleTarget → Path → Path := fun _ p => p
  maxjobs : Nat := 1
  quickstop : Bool := false
  norun : Nat := 0
  usehashes : Bool := false
  force : Bool := false
  isroot : Bool := false
  checkexternalcmds : Bool := false
  configure : Bool := false
  sepjobio : Bool := true
  cleanTargets : List Name := ["clean", "distclean", "clean-orphans"]
  /-- The `Load` files, each with its `--nocare` flag. -/
  projfiles : List (Name × Bool) := []

namespace Desc
variable (d : Desc)

def mapAlias (target : Name) : Name := (d.aliases.lookup target).getD target

/-- The rule that `get-target-rule` finds; `none` if `target` is not a target. -/
def ruleFor (target : Name) : Option Rule :=
  d.rules.find? fun r => d.mapAlias target ∈ r.target

def isTarget (target : Name) : Bool := (d.ruleFor target).isSome

/-- `file-build`: an alias is left alone, any other name is a path of the build directory. -/
def fileBuild (name : Name) : Path :=
  if name.toList.head? = some '<' then name else fileJoin d.build name

/-- `locate-files`. -/
def locateFiles (files : List Name) : List Path :=
  files.map fun f => if d.isTarget f then d.fileBuild f else f

/-- The build files of a rule. -/
def files (r : Rule) : List Path := r.target.map d.fileBuild

theorem ruleFor_mem {t : Name} {r : Rule} (h : d.ruleFor t = some r) : r ∈ d.rules :=
  List.mem_of_find?_eq_some h

theorem ruleFor_target {t : Name} {r : Rule} (h : d.ruleFor t = some r) :
    d.mapAlias t ∈ r.target := by
  simpa using List.find?_some h

theorem isTarget_iff {t : Name} : d.isTarget t = true ↔ ∃ r, d.ruleFor t = some r :=
  Option.isSome_iff_exists

/-- No two rules share a target. -/
theorem rule_unique {r s : Rule} (hr : r ∈ d.rules) (hs : s ∈ d.rules) {t : Name}
    (htr : t ∈ r.target) (hts : t ∈ s.target) : r = s := by
  by_contra hne
  have : Std.Symm fun r s : Rule => ∀ t ∈ r.target, t ∉ s.target :=
    ⟨fun _ _ h t hb ha => h t ha hb⟩
  exact d.disjoint.forall hr hs hne t htr hts

/-- The key of a rule that has a target identifies it. -/
theorem rule_eq_of_target {r s : Rule} (hr : r ∈ d.rules) (hs : s ∈ d.rules)
    (hne : r.target ≠ []) (h : r.target = s.target) : r = s := by
  obtain ⟨t, ht⟩ := List.exists_mem_of_ne_nil _ hne
  exact d.rule_unique hr hs ht (h ▸ ht)

theorem target_ne_nil {t : Name} {r : Rule} (h : d.ruleFor t = some r) : r.target ≠ [] :=
  List.ne_nil_of_mem (d.ruleFor_target h)

end Desc

/-! ## What a rule needs -/

/-- A scan can look this name up. -/
inductive Scan.Looks : Scan → Name → Prop where
  | here {f : Name} {keep : FS → Bool} {k : Bool → Scan} : Looks (.lookup f keep k) f
  | peek {k : FS → Scan} {t : Name} (fs : FS) (h : Looks (k fs) t) : Looks (.peek k) t
  | later {f : Name} {keep : FS → Bool} {k : Bool → Scan} {t : Name} (b : Bool)
      (h : Looks (k b) t) : Looks (.lookup f keep k) t

/-- The rule depends on this name, statically or dynamically, or its scan can look it up. -/
def Rule.NeedsName (r : Rule) (t : Name) : Prop :=
  t ∈ r.depends ∨ ∃ dyndep, r.dyndep = some dyndep ∧
    ∃ i ∈ r.inputs, t ∈ (dyndep i).named ∨ (dyndep i).scan.Looks t

section
open Relation

/-- `build` for the first rule can call `build` for the second. -/
def Desc.Needs (d : Desc) (r s : Rule) : Prop := ∃ t, r.NeedsName t ∧ d.ruleFor t = some s

/-- A request for `root` can come to the rule `r`. -/
def Desc.Reaches (d : Desc) (root : Name) (r : Rule) : Prop :=
  ∃ r₀, d.ruleFor root = some r₀ ∧ ReflTransGen d.Needs r₀ r

theorem Desc.Reaches.needs {d : Desc} {root t : Name} {r s : Rule} (h : d.Reaches root r)
    (ht : r.NeedsName t) (hs : d.ruleFor t = some s) : d.Reaches root s := by
  obtain ⟨r₀, hr₀, h⟩ := h
  exact ⟨r₀, hr₀, h.tail ⟨t, ht, hs⟩⟩

end

/-! ## Variables -/

/-- The value of a Tcl list of names. -/
def joinList (l : List String) : String := String.intercalate " " l

/-- `make-var-dict`: the bound variables of a rule and the standard ones, the latter last
so that they win. -/
def makeVarDict (d : Desc) (r : Rule) : List (String × String) :=
  [("inputs", joinList (d.locateFiles r.inputs)),
   ("depends", joinList (d.locateFiles r.depends)),
   ("build", d.fileBuild r.localDir), ("local", r.localDir),
   ("targetname", joinList r.target), ("target", joinList (d.files r))] ++ r.vars

/-- For a `-chdir` rule `inputs`, `depends` and `target` are made relative to the directory
in which its commands run. -/
def chdirVarDict (d : Desc) (r : Rule) (vardict : List (String × String)) :
    List (String × String) :=
  if r.chdir then
    [("inputs", joinList ((d.locateFiles r.inputs).map (d.relative r.target))),
     ("depends", joinList ((d.locateFiles r.depends).map (d.relative r.target))),
     ("target", joinList ((d.files r).map (d.relative r.target)))] ++ vardict
  else vardict

/-- The variables with which the commands of a rule are substituted. -/
def Desc.vardict (d : Desc) (r : Rule) : List (String × String) :=
  chdirVarDict d r (makeVarDict d r)

/-- The value of a variable while a script runs: bound variables hide the defines. -/
def lookupVar (d : Desc) (vardict : List (String × String)) (name : String) : Option String :=
  ((vardict ++ d.defines).lookup name)

/-- `subst -nobackslashes -nocommands` on one script; `none` when a variable does not exist. -/
def substScript (d : Desc) (vardict : List (String × String)) : List Seg → Option String
  | [] => some ""
  | .lit text :: segs => (substScript d vardict segs).map (text ++ ·)
  | .var name :: segs => do
    let value ← lookupVar d vardict name
    let rest ← substScript d vardict segs
    return value ++ rest

/-- `subst-do`. -/
def substDo (d : Desc) (vardict : List (String × String)) (scripts : List Script) :
    Option (List String) :=
  scripts.mapM fun s => substScript d vardict s.text

end Tmake
