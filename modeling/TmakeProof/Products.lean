import TmakeProof.Installs

/-! # The files that `distclean` removes

What the rule commands of the default rulebase make in the build tree, and what they
list for the `clean` and `distclean` targets of their directory, as sequences of
`Action`s.  `missed` are the few files that a command makes and does not list itself.
The phony targets that some commands extend are left out, and so are the options to
install and to test, which are commands of their own.
-/
namespace Tmake.Products
open Libraries (fileBuild isAlias)

/-- Values of the project that the commands use. -/
structure Settings extends Installs.Settings where
  publish : Path
  exeext : String
  hostExeext : String
  soext : String
  soextver : String
  /-- `format`, which puts a version into the name of a library. -/
  format : String → String → String
  /-- `string is integer -strict`. -/
  isInteger : String → Bool

/-- The directory in which a command is given, and the global targets that there are by then. -/
structure Place where
  localPrefix : Path
  globals : List Name

/-! ## Names -/

section
variable (d : Place)

/-- `make-local`, for one name. -/
def makeLocal (p : Name) : Name :=
  if p.toList.head? = some '<' then p
  else if p.toList.head? = some '/' then String.ofList p.toList.tail
  else if p ∈ d.globals then p
  else fileJoin d.localPrefix p

/-- `make-unlocal`, for one name. -/
def makeUnlocal (p : Name) : Name := String.ofList (p.toList.drop d.localPrefix.length)

end

/-- Whether there is a dot in the last part of a path. -/
def hasExt (path : Path) : Bool := '.' ∈ path.toList.reverse.takeWhile (· ≠ '/')

/-- `file rootname`. -/
def fileRootname (path : Path) : Path :=
  if hasExt path then
    String.ofList ((path.toList.reverse.dropWhile (· ≠ '.')).drop 1).reverse
  else path

/-- `file ext`. -/
def fileExt (path : Path) : String :=
  if hasExt path then String.ofList ('.' :: (path.toList.reverse.takeWhile (· ≠ '.')).reverse)
  else ""

/-- `change-ext`, for one name. -/
def changeExt (ext : String) (p : Path) : Path := fileRootname p ++ ext

/-! ## The commands -/

/-- What the commands come to. -/
inductive Action where
  | checkDupRule (rule : Name)
  /-- A `target` command.  `made` are the files that its rule is there to make. -/
  | target (names made : List Name)
  | addSrcClean (type : Name) (filelist : List Path)

section
variable (E : Settings) (d : Place)

def addClean (type : Name) (filelist : List Name) : Action :=
  .addSrcClean type (filelist.map (fileBuild E.build))

/-- `add-clean` for both clean targets of the directory; the names are local already. -/
def addCleans (filelist : List Name) : List Action :=
  [addClean E (makeLocal d "clean") filelist, addClean E (makeLocal d "distclean") filelist]

/-- `DistClean`. -/
def distClean (source : Bool) (args : List Name) : List Action :=
  if source then [.addSrcClean (makeLocal d "distclean") args]
  else [addClean E (makeLocal d "distclean") (args.map (makeLocal d))]

/-- `Clean`. -/
def clean (source : Bool) (args : List Name) : List Action :=
  distClean E d source args ++
    if source then [.addSrcClean (makeLocal d "clean") args]
    else [addClean E (makeLocal d "clean") (args.map (makeLocal d))]

/-- `hard-link`. -/
def hardLink (dest : Name) : List Action := .target [dest] [dest] :: addCleans E d [dest]

/-- `Lex` and `Yacc`, which differ in the command and the default of `--prefix`. -/
def generator (extension : String) (src : Name) : List Action :=
  let base := fileRootname (makeLocal d src)
  let targets := [base ++ extension ++ ".c", base ++ extension ++ ".h"]
  .target targets targets :: addCleans E d targets

def lex (extension : Option String) (src : Name) : List Action :=
  generator E d (extension.getD ".lex") src

def yacc (extension : Option String) (src : Name) : List Action :=
  generator E d (extension.getD ".tab") src

/-- `Object` for a source in C or C++.  A second rule for the same object changes nothing. -/
def objectC (target : Name) : List Action :=
  .target [makeLocal d target] [makeLocal d target] :: clean E d false [target]

def cExtensions : List String := [".c", ".cpp", ".cc", ".cxx", ".C"]

/-- `ObjectRule.l` and `ObjectRule.y`: the generator, and then `Object` for the C source. -/
def generatorObject (extension : String) (src : Name) : List Action :=
  let src := makeUnlocal d (makeLocal d src)
  let csrc := makeUnlocal d (fileRootname (makeLocal d src) ++ extension ++ ".c")
  generator E d extension src ++
    if fileExt csrc ∈ cExtensions then objectC E d (changeExt ".o" csrc) else []

/-- `Object`.  An object is itself, and nothing is known about other extensions. -/
def object (target src : Name) : List Action :=
  if fileExt src ∈ cExtensions then objectC E d target
  else if fileExt src = ".l" then generatorObject E d ".lex" src ++ clean E d false [target]
  else if fileExt src = ".y" then generatorObject E d ".tab" src ++ clean E d false [target]
  else []

/-- `Objects`. -/
def objects (args : List Name) : List Action :=
  args.flatMap fun src => if isAlias src then [] else object E d (changeExt ".o" src) src

/-- `ObjectCFlags`, which only adds a variable to the rules of the objects. -/
def objectCFlags (srcs : List Name) : List Action :=
  srcs.map fun src => .target [makeLocal d (changeExt ".o" src)] []

/-- `publish-dir`. -/
def publishDir (dir : Path) : Path := fileJoin E.publish dir

/-- `publish-prefix`. -/
def publishPrefix (dir : Path) : Path := makePrefix (publishDir E dir)

/-- `PublishBin`. -/
def publishBin (script : Bool) (args : List String) : List Action :=
  let exe := if script then "" else E.exeext
  (Installs.expandFilespec E.toSettings (publishDir E "bin") args false).flatMap fun dest =>
    hardLink E d (dest ++ exe) ++ [.target [dest ++ exe] [dest ++ exe]]

/-- `Publish`. -/
def publish (keepdir : Bool) (dir : Path) (args : List String) : List Action :=
  (Installs.expandFilespec E.toSettings dir args keepdir).flatMap fun dest =>
    hardLink E d (publishDir E dest)

/-- `PublishIncludes`. -/
def publishIncludes (keepdir : Bool) (args : List String) : List Action :=
  publish E d keepdir "include" args

/-- `Executable`.  The order of the sources, which `Glob` sorts, does not matter here. -/
def executable (publishes : Bool) (target : Name) (args : List String) : List Action :=
  let localtargetexe := makeLocal d target ++ E.exeext
  objects E d (args.flatMap E.glob) ++
    [.checkDupRule localtargetexe, .target [localtargetexe] [localtargetexe]] ++
    clean E d false [target ++ E.exeext] ++
    if publishes then publishBin E d false [target] else []

/-- `HostExecutable`. -/
def hostExecutable (target : Name) : List Action :=
  let localtargetexe := makeLocal d target ++ E.hostExeext
  let targetexe := target ++ E.hostExeext
  let desttargetexe := fileJoin (publishDir E "bin") targetexe
  .target [localtargetexe] [localtargetexe] :: hardLink E d desttargetexe ++
    [.target [desttargetexe] [desttargetexe]] ++ clean E d false [targetexe]

/-- `ArchiveLib`, with `publish-lib`. -/
def archiveLib (publishes : Bool) (basename : String) (args : List String) : List Action :=
  let libname := "lib" ++ basename ++ ".a"
  let locallibname := makeLocal d libname
  objects E d (args.flatMap E.glob) ++
    [.checkDupRule locallibname, .target [locallibname] [locallibname]] ++
    clean E d false [libname] ++
    if publishes then hardLink E d (publishPrefix E "lib" ++ libname) else []

/-- The parts of a version, if they are at most three numbers. -/
def versionParts (version : String) : Option (List String) :=
  let parts := (version.toList.splitOn '.').map String.ofList
  if parts.all E.isInteger ∧ parts.length ≤ 3 then some parts else none

/-- The names of a shared library; the file itself has the first one. -/
def sharedLibNames (basename version : String) (parts : List String) : List String :=
  let nameinfo := [(E.soextver, version), ("%s", E.soext)] ++
    if parts.length > 1 then [(E.soextver, version), (E.soextver, parts.headD "")] else []
  ((nameinfo.filter (·.1 ≠ "")).map fun fv => "lib" ++ basename ++ E.format fv.1 fv.2).eraseDups

/-- `publish-shared-lib`. -/
def publishSharedLib (names : List String) : List Action :=
  let published := names.map (publishPrefix E "lib" ++ ·)
  .target published published :: addCleans E d published

/-- `SharedLib`.  The first `Clean` has the local name. -/
def sharedLib (version : Option String) (basename : String) (args : List String) : List Action :=
  let version := version.getD "0"
  match versionParts E version with
  | none => []
  | some parts =>
    let names := sharedLibNames E basename version parts
    let libname := names.headD ""
    let locallibname := makeLocal d libname
    objects E d (args.flatMap E.glob) ++ [.checkDupRule locallibname] ++ objectCFlags d args ++
      [.target [locallibname] [locallibname]] ++ clean E d false [locallibname] ++
      clean E d false [libname] ++ publishSharedLib E d names

/-- `SharedObject`. -/
def sharedObject (target : Name) (srcs : List Name) : List Action :=
  let localtarget := makeLocal d target
  objectCFlags d srcs ++ [.checkDupRule localtarget] ++ objects E d srcs ++
    [.target [localtarget] [localtarget]] ++ clean E d false [target]

/-- `PrecompiledHeader`. -/
def precompiledHeader (header : Name) : List Action :=
  let loc := makeLocal d header
  .target [loc ++ ".gch"] [loc ++ ".gch"] :: clean E d false [loc ++ ".gch"] ++
    publishIncludes E d false [header, header ++ ".gch"]

/-- `CopyFile` and `Template`, as far as names are concerned, and `Generate`. -/
def generate (targets : List Name) : List Action :=
  .target (targets.map (makeLocal d)) (targets.map (makeLocal d)) :: clean E d false targets

/-- The values that `ExternalBuild` reads from its specification. -/
structure ExternalSpec where
  configure : String
  configureTargets : List Name
  buildTargets : List Name
  libTargets : List (String × Name)

/-- `ExternalBuild`.  The external commands make and remove everything but the stamps. -/
def externalBuild (spec : ExternalSpec) : List Action :=
  let configureTargets := if spec.configure ≠ "" then ".configure" :: spec.configureTargets
    else [".configure"]
  let buildTargets := ".build" :: spec.buildTargets ++ spec.libTargets.map Prod.snd
  .target (configureTargets.map (makeLocal d)) [makeLocal d ".configure"] ::
    distClean E d false [".configure"] ++
    .target (buildTargets.map (makeLocal d)) [makeLocal d ".build"] ::
    clean E d false [".built"] ++
    spec.libTargets.flatMap fun lib =>
      hardLink E d (publishPrefix E "lib" ++ FileNormalize.fileTail lib.2)

end

inductive Command where
  | object (target src : Name)
  | objects (args : List Name)
  | lex (extension : Option String) (src : Name)
  | yacc (extension : Option String) (src : Name)
  | executable (publishes : Bool) (target : Name) (args : List String)
  | hostExecutable (target : Name)
  | archiveLib (publishes : Bool) (basename : String) (args : List String)
  | sharedLib (version : Option String) (basename : String) (args : List String)
  | sharedObject (target : Name) (srcs : List Name)
  | publish (keepdir : Bool) (dir : Path) (args : List String)
  | publishBin (script : Bool) (args : List String)
  | publishIncludes (keepdir : Bool) (args : List String)
  | precompiledHeader (header : Name)
  | copyFile (dest : Name)
  | generate (targets : List Name)
  | template (target : Name)
  | externalBuild (spec : ExternalSpec)
  | clean (source : Bool) (args : List Name)
  | distClean (source : Bool) (args : List Name)
  /-- Any other command: the rules that it makes, and the files that it lists for clean targets. -/
  | other (rules : List (List Name)) (entries : List (Name × List Path))

section
variable (E : Settings)

def Command.actions (d : Place) : Command → List Action
  | .object target src => Products.object E d target src
  | .objects args => Products.objects E d args
  | .lex extension src => Products.lex E d extension src
  | .yacc extension src => Products.yacc E d extension src
  | .executable publishes target args => Products.executable E d publishes target args
  | .hostExecutable target => Products.hostExecutable E d target
  | .archiveLib publishes basename args => Products.archiveLib E d publishes basename args
  | .sharedLib version basename args => Products.sharedLib E d version basename args
  | .sharedObject target srcs => Products.sharedObject E d target srcs
  | .publish keepdir dir args => Products.publish E d keepdir dir args
  | .publishBin script args => Products.publishBin E d script args
  | .publishIncludes keepdir args => Products.publishIncludes E d keepdir args
  | .precompiledHeader header => Products.precompiledHeader E d header
  | .copyFile dest => Products.generate E d [dest]
  | .generate targets => Products.generate E d targets
  | .template target => Products.generate E d [target]
  | .externalBuild spec => Products.externalBuild E d spec
  | .clean source args => Products.clean E d source args
  | .distClean source args => Products.distClean E d source args
  | .other rules entries =>
    rules.map (.target · []) ++ entries.map fun e => .addSrcClean e.1 e.2

/-! ## Projects -/

/-- The rules and the files to be cleaned.  `products` are the files that rules are there to make,
each with the `distclean` target of the directory of the rule. -/
structure State extends Installs.State where
  products : List (Name × Name)

def State.initial : State := ⟨Installs.State.initial, []⟩

def Action.apply (d : Place) (s : State) : Action → Option State
  | .checkDupRule rule => if s.rules.any (· = [rule]) then none else some s
  | .target names made => (s.updateRule names).map fun t =>
    ⟨t, s.products ++ made.map fun p => (makeLocal d "distclean", p)⟩
  | .addSrcClean type filelist => some ⟨Installs.addSrcClean type filelist s.toState, s.products⟩

/-- The commands of all build specs, one after the other. -/
def run (project : List (Place × Command)) : Option State :=
  (project.flatMap fun dc => (dc.2.actions E dc.1).map fun a => (dc.1, a)).foldlM
    (fun s da => Action.apply da.1 s da.2) State.initial

/-- Every file that is made is a file that the `distclean` target of the directory removes. -/
def Known (s : State) : Prop :=
  ∀ tp ∈ s.products, fileBuild E.build tp.2 ∈ s.cleanfiles tp.1

/-- What an action lists for a clean target. -/
def Action.listed (t : Name) : Action → List Path
  | .addSrcClean type filelist => if t = type then filelist else []
  | _ => []

/-- A command of the project lists a file for the `distclean` target of a directory. -/
def Lists (d : Place) (p : Name) (dc : Place × Command) : Prop :=
  fileBuild E.build p ∈ (dc.2.actions E dc.1).flatMap (Action.listed (makeLocal d "distclean"))

/-- The files that a command makes and need not list itself.  `PrecompiledHeader` lists its file
under a name that is made local twice, and `ExternalBuild` lists `.built` for `.build`.  With an
extension for executables, a global target is no longer a global target. -/
def missed (d : Place) : Command → List Name
  | .executable _ target _ =>
    if makeLocal d (target ++ E.exeext) = makeLocal d target ++ E.exeext then []
    else [makeLocal d target ++ E.exeext]
  | .hostExecutable target =>
    if makeLocal d (target ++ E.hostExeext) = makeLocal d target ++ E.hostExeext then []
    else [makeLocal d target ++ E.hostExeext]
  | .precompiledHeader header =>
    if makeLocal d (makeLocal d header ++ ".gch") = makeLocal d header ++ ".gch" then []
    else [makeLocal d header ++ ".gch"]
  | .externalBuild _ => [makeLocal d ".build"]
  | _ => []

end

/-! ## What a run leaves -/

/-- What an action makes. -/
def Action.made : Action → List Name
  | .target _ made => made
  | _ => []

section
variable {E : Settings} {d : Place}

theorem Action.apply_spec {a : Action} {s s' : State} (h : a.apply d s = some s') :
    s'.products = s.products ++ a.made.map (fun p => (makeLocal d "distclean", p)) ∧
      ∀ t, s'.cleanfiles t = s.cleanfiles t ++ a.listed t := by
  cases a with
  | checkDupRule rule =>
    rw [Action.apply] at h
    split at h
    · contradiction
    · obtain rfl := Option.some.inj h
      exact ⟨(List.append_nil _).symm, fun t => (List.append_nil _).symm⟩
  | target names made =>
    obtain ⟨u, hu, rfl⟩ := Option.map_eq_some_iff.mp h
    refine ⟨rfl, fun t => ?_⟩
    exact (congrFun (Installs.updateRule_spec hu).1 t).trans (List.append_nil _).symm
  | addSrcClean type filelist =>
    obtain rfl := Option.some.inj h
    refine ⟨(List.append_nil _).symm, fun t => ?_⟩
    show (if t = type then s.cleanfiles t ++ filelist else s.cleanfiles t) = _
    rw [Action.listed]
    split
    · rfl
    · exact (List.append_nil _).symm

theorem foldlM_apply {l : List (Place × Action)} {s s' : State}
    (h : l.foldlM (fun s da => Action.apply da.1 s da.2) s = some s') :
    s'.products = s.products ++
        l.flatMap (fun da => da.2.made.map fun p => (makeLocal da.1 "distclean", p)) ∧
      ∀ t, s'.cleanfiles t = s.cleanfiles t ++ l.flatMap fun da => da.2.listed t := by
  induction l generalizing s with
  | nil =>
    obtain rfl := Option.some.inj h
    exact ⟨(List.append_nil _).symm, fun t => (List.append_nil _).symm⟩
  | cons da l ih =>
    rw [List.foldlM_cons] at h
    obtain ⟨s1, hstep, hrest⟩ := Option.bind_eq_some_iff.mp h
    obtain ⟨hproducts, hcleanfiles⟩ := Action.apply_spec hstep
    obtain ⟨hproducts', hcleanfiles'⟩ := ih hrest
    refine ⟨?_, fun t => ?_⟩
    · rw [hproducts', hproducts, List.flatMap_cons, List.append_assoc]
    · rw [hcleanfiles', hcleanfiles, List.flatMap_cons, List.append_assoc]

/-- What is known after a project is what its commands make and list. -/
theorem known_iff {project : List (Place × Command)} {s : State} (h : run E project = some s) :
    Known E s ↔ ∀ dc ∈ project, ∀ p ∈ (dc.2.actions E dc.1).flatMap Action.made,
      ∃ dc' ∈ project, Lists E dc.1 p dc' := by
  obtain ⟨hproducts, hcleanfiles⟩ := foldlM_apply h
  have hlisted : ∀ (d : Place) (p : Name),
      fileBuild E.build p ∈ s.cleanfiles (makeLocal d "distclean") ↔
        ∃ dc' ∈ project, Lists E d p dc' := by
    intro d p
    rw [hcleanfiles, show State.initial.cleanfiles (makeLocal d "distclean") = [] from rfl,
      List.nil_append, List.flatMap_assoc, List.mem_flatMap]
    simp only [Lists, List.flatMap_map]
  rw [Known, hproducts, show State.initial.products = [] from rfl, List.nil_append]
  constructor
  · intro hknown dc hdc p hp
    obtain ⟨a, ha, hp⟩ := List.mem_flatMap.mp hp
    refine (hlisted dc.1 p).mp (hknown (makeLocal dc.1 "distclean", p) ?_)
    exact List.mem_flatMap.mpr ⟨(dc.1, a), List.mem_flatMap.mpr ⟨dc, hdc, List.mem_map_of_mem ha⟩,
      List.mem_map_of_mem hp⟩
  · intro hall tp htp
    obtain ⟨da, hda, htp⟩ := List.mem_flatMap.mp htp
    obtain ⟨dc, hdc, hda⟩ := List.mem_flatMap.mp hda
    obtain ⟨a, ha, rfl⟩ := List.mem_map.mp hda
    obtain ⟨p, hp, rfl⟩ := List.mem_map.mp htp
    exact (hlisted dc.1 p).mpr (hall dc hdc p (List.mem_flatMap.mpr ⟨a, ha, hp⟩))

end

/-! ## What the commands make and list -/

section
variable {E : Settings} {d : Place} {as bs : List Action} {m : List Name}

variable (E d) in
/-- A part of a command lists a file for the `distclean` target. -/
def Listed (as : List Action) (p : Name) : Prop :=
  fileBuild E.build p ∈ as.flatMap (Action.listed (makeLocal d "distclean"))

variable (E d) in
/-- All files that a part of a command makes are listed, but those of `m`. -/
def Complete (m : List Name) (as : List Action) : Prop :=
  ∀ p ∈ as.flatMap Action.made, p ∈ m ∨ Listed E d as p

theorem Listed.left {p : Name} (h : Listed E d as p) : Listed E d (as ++ bs) p := by
  rw [Listed, List.flatMap_append]
  exact List.mem_append_left _ h

theorem Listed.right {p : Name} (h : Listed E d bs p) : Listed E d (as ++ bs) p := by
  rw [Listed, List.flatMap_append]
  exact List.mem_append_right _ h

theorem Listed.cons {p : Name} (a : Action) (h : Listed E d bs p) : Listed E d (a :: bs) p := by
  rw [Listed, List.flatMap_cons]
  exact List.mem_append_right _ h

theorem listed_addCleans {p : Name} (h : p ∈ m) : Listed E d (addCleans E d m) p := by
  refine List.mem_flatMap.mpr ⟨addClean E (makeLocal d "distclean") m, by simp [addCleans], ?_⟩
  rw [addClean, Action.listed, if_pos rfl]
  exact List.mem_map_of_mem h

theorem listed_distClean {args : List Name} {p : Name} (h : p ∈ args) :
    Listed E d (distClean E d false args) (makeLocal d p) := by
  refine List.mem_flatMap.mpr
    ⟨addClean E (makeLocal d "distclean") (args.map (makeLocal d)), by simp [distClean], ?_⟩
  rw [addClean, Action.listed, if_pos rfl]
  exact List.mem_map_of_mem (List.mem_map_of_mem h)

theorem listed_clean {args : List Name} {p : Name} (h : p ∈ args) :
    Listed E d (clean E d false args) (makeLocal d p) := (listed_distClean h).left

theorem Complete.append (ha : Complete E d m as) (hb : Complete E d m bs) :
    Complete E d m (as ++ bs) := by
  intro p hp
  rw [List.flatMap_append] at hp
  rcases List.mem_append.mp hp with hp | hp
  · exact (ha p hp).imp_right Listed.left
  · exact (hb p hp).imp_right Listed.right

theorem Complete.flatMap {α : Type} {l : List α} {f : α → List Action}
    (h : ∀ x ∈ l, Complete E d m (f x)) : Complete E d m (l.flatMap f) := by
  induction l with
  | nil => exact fun p hp => absurd hp (by simp)
  | cons x l ih =>
    rw [List.flatMap_cons]
    exact (h x List.mem_cons_self).append (ih fun y hy => h y (List.mem_cons_of_mem _ hy))

theorem complete_of_made (h : ∀ a ∈ as, a.made = []) : Complete E d m as := by
  intro p hp
  obtain ⟨a, ha, hp⟩ := List.mem_flatMap.mp hp
  rw [h a ha] at hp
  exact absurd hp (by simp)

/-- A rule whose files are all listed by what follows it. -/
theorem Complete.target {names made : List Name} (h : Complete E d m as)
    (hmade : ∀ p ∈ made, p ∈ m ∨ Listed E d as p) :
    Complete E d m (.target names made :: as) := by
  intro p hp
  rw [List.flatMap_cons] at hp
  rcases List.mem_append.mp hp with hp | hp
  · exact (hmade p hp).imp_right (Listed.cons _)
  · exact (h p hp).imp_right (Listed.cons _)

theorem complete_distClean (source : Bool) (args : List Name) :
    Complete E d m (distClean E d source args) := by
  refine complete_of_made fun a ha => ?_
  cases source <;> obtain rfl := List.mem_singleton.mp ha <;> rfl

theorem complete_clean (source : Bool) (args : List Name) : Complete E d m (clean E d source args) := by
  refine (complete_distClean source args).append (complete_of_made fun a ha => ?_)
  cases source <;> obtain rfl := List.mem_singleton.mp ha <;> rfl

theorem complete_addCleans (names : List Name) :
    Complete E d m (.target names names :: addCleans E d names) := by
  refine Complete.target (complete_of_made fun a ha => ?_) fun p hp => .inr (listed_addCleans hp)
  rcases List.mem_cons.mp ha with rfl | ha
  · rfl
  · rw [List.mem_singleton.mp ha]
    rfl

theorem complete_generate (targets : List Name) : Complete E d m (generate E d targets) := by
  refine (complete_clean false targets).target fun p hp => ?_
  obtain ⟨t, ht, rfl⟩ := List.mem_map.mp hp
  exact .inr (listed_clean ht)

theorem complete_checkDupRule (rule : Name) : Complete E d m [.checkDupRule rule] :=
  complete_of_made fun a ha => by rw [List.mem_singleton.mp ha]; rfl

theorem complete_objectCFlags (srcs : List Name) : Complete E d m (objectCFlags d srcs) := by
  refine complete_of_made fun a ha => ?_
  obtain ⟨src, -, rfl⟩ := List.mem_map.mp ha
  rfl

theorem complete_generatorObject (extension : String) (src : Name) :
    Complete E d m (generatorObject E d extension src) := by
  refine Complete.append (complete_addCleans _) ?_
  split
  · exact complete_generate [_]
  · exact complete_of_made (by simp)

theorem complete_object (target src : Name) : Complete E d m (object E d target src) := by
  rw [object]
  split
  · exact complete_generate [target]
  · split
    · exact (complete_generatorObject ".lex" src).append (complete_clean false [target])
    · split
      · exact (complete_generatorObject ".tab" src).append (complete_clean false [target])
      · exact complete_of_made (by simp)

theorem complete_objects (args : List Name) : Complete E d m (objects E d args) := by
  refine Complete.flatMap fun src _ => ?_
  split
  · exact complete_of_made (by simp)
  · exact complete_object _ src

/-- A second command for a rule whose files are listed already. -/
theorem Complete.again {names made : List Name} (h : Complete E d m as)
    (hmade : ∀ p ∈ made, Listed E d as p) : Complete E d m (as ++ [.target names made]) := by
  intro p hp
  rw [List.flatMap_append] at hp
  rcases List.mem_append.mp hp with hp | hp
  · exact (h p hp).imp_right Listed.left
  · rw [List.flatMap_singleton] at hp
    exact .inr (hmade p hp).left

theorem complete_published (dest : Name) :
    Complete E d m (hardLink E d dest ++ [.target [dest] [dest]]) := by
  refine Complete.again (complete_addCleans [dest]) fun p hp => ?_
  exact Listed.cons _ (listed_addCleans hp)

theorem complete_publishBin (script : Bool) (args : List String) :
    Complete E d m (publishBin E d script args) := Complete.flatMap fun _ _ => complete_published _

theorem complete_publish (keepdir : Bool) (dir : Path) (args : List String) :
    Complete E d m (publish E d keepdir dir args) := Complete.flatMap fun _ _ => complete_addCleans [_]

/-- A rule for one file, which is listed under its local name. -/
theorem complete_single {target p : Name} (h : p ∈ m ∨ makeLocal d target = p) :
    Complete E d m (.target [p] [p] :: clean E d false [target]) := by
  refine (complete_clean false [target]).target fun q hq => ?_
  rw [List.mem_singleton.mp hq]
  rcases h with hmissed | heq
  · exact .inl hmissed
  · exact .inr (heq ▸ listed_clean (List.mem_singleton.mpr rfl))

theorem mem_missed {p q : Name} : q ∈ (if p = q then [] else [q]) ∨ p = q := by
  by_cases h : p = q
  · exact .inr h
  · exact .inl (by rw [if_neg h]; exact List.mem_singleton.mpr rfl)

theorem complete_executable (publishes : Bool) (target : Name) (args : List String) :
    Complete E d (missed E d (.executable publishes target args))
      (executable E d publishes target args) := by
  have hexe : Complete E d (missed E d (.executable publishes target args))
      ([.checkDupRule _] ++ .target [makeLocal d target ++ E.exeext] [makeLocal d target ++ E.exeext] ::
        clean E d false [target ++ E.exeext]) :=
    (complete_checkDupRule (makeLocal d target ++ E.exeext)).append (complete_single mem_missed)
  have hpublish : Complete E d (missed E d (.executable publishes target args))
      (if publishes then publishBin E d false [target] else []) := by
    cases publishes
    · exact complete_of_made (by simp)
    · exact complete_publishBin false [target]
  rw [executable, List.append_assoc, List.append_assoc, ← List.append_assoc [_, _]]
  exact (complete_objects _).append (hexe.append hpublish)

theorem complete_hostExecutable (target : Name) :
    Complete E d (missed E d (.hostExecutable target)) (hostExecutable E d target) := by
  have hrest : Complete E d (missed E d (.hostExecutable target))
      (hardLink E d (fileJoin (publishDir E "bin") (target ++ E.hostExeext)) ++
        [.target [fileJoin (publishDir E "bin") (target ++ E.hostExeext)] [_]] ++
        clean E d false [target ++ E.hostExeext]) :=
    (complete_published _).append (complete_clean false [_])
  refine hrest.target fun p hp => ?_
  rw [List.mem_singleton.mp hp]
  refine mem_missed.imp_right fun heq : makeLocal d (target ++ E.hostExeext) = _ => Listed.right ?_
  exact heq ▸ listed_clean (List.mem_singleton.mpr rfl)

theorem complete_archiveLib (publishes : Bool) (basename : String) (args : List String) :
    Complete E d m (archiveLib E d publishes basename args) := by
  have hlib : Complete E d m ([.checkDupRule (makeLocal d ("lib" ++ basename ++ ".a"))] ++
      generate E d ["lib" ++ basename ++ ".a"]) :=
    (complete_checkDupRule _).append (complete_generate _)
  have hpublish : Complete E d m
      (if publishes then hardLink E d (publishPrefix E "lib" ++ ("lib" ++ basename ++ ".a")) else []) := by
    cases publishes
    · exact complete_of_made (by simp)
    · exact complete_addCleans [_]
  rw [archiveLib, List.append_assoc, List.append_assoc, ← List.append_assoc [_, _]]
  exact (complete_objects _).append (hlib.append hpublish)

theorem complete_sharedLib (version : Option String) (basename : String) (args : List String) :
    Complete E d m (sharedLib E d version basename args) := by
  rw [sharedLib]
  split
  · exact complete_of_made (by simp)
  · rename_i parts _
    simp only [List.append_assoc]
    refine (complete_objects _).append ((complete_checkDupRule _).append
      ((complete_objectCFlags args).append ?_))
    generalize sharedLibNames E basename _ parts = names
    have hlisted : Listed E d (clean E d false [names.headD ""]) (makeLocal d (names.headD "")) :=
      listed_clean (List.mem_singleton.mpr rfl)
    refine Complete.target ((complete_clean false _).append
      ((complete_clean false _).append (complete_addCleans _))) fun p hp => ?_
    rw [List.mem_singleton.mp hp]
    exact .inr hlisted.left.right

theorem complete_sharedObject (target : Name) (srcs : List Name) :
    Complete E d m (sharedObject E d target srcs) := by
  rw [sharedObject]
  simp only [List.append_assoc]
  exact (complete_objectCFlags srcs).append ((complete_checkDupRule _).append
    ((complete_objects srcs).append (complete_generate [target])))

theorem complete_externalBuild (spec : ExternalSpec) :
    Complete E d (missed E d (.externalBuild spec)) (externalBuild E d spec) := by
  have hconfigure : ∀ names, Complete E d (missed E d (.externalBuild spec))
      (.target names [makeLocal d ".configure"] :: distClean E d false [".configure"]) := by
    refine fun names => (complete_distClean false _).target fun p hp => ?_
    exact .inr (List.mem_singleton.mp hp ▸ listed_distClean (List.mem_singleton.mpr rfl))
  have hbuild : ∀ names, Complete E d (missed E d (.externalBuild spec))
      (.target names [makeLocal d ".build"] :: clean E d false [".built"]) :=
    fun names => (complete_clean false [".built"]).target fun p hp => .inl hp
  rw [externalBuild]
  exact ((hconfigure _).append (hbuild _)).append (Complete.flatMap fun lib _ => complete_addCleans [_])

/-- Every command lists what it makes, except what it misses. -/
theorem complete_actions (c : Command) : Complete E d (missed E d c) (c.actions E d) := by
  cases c with
  | object target src => exact complete_object target src
  | objects args => exact complete_objects args
  | lex extension src => exact complete_addCleans _
  | yacc extension src => exact complete_addCleans _
  | executable publishes target args => exact complete_executable publishes target args
  | hostExecutable target => exact complete_hostExecutable target
  | archiveLib publishes basename args => exact complete_archiveLib publishes basename args
  | sharedLib version basename args => exact complete_sharedLib version basename args
  | sharedObject target srcs => exact complete_sharedObject target srcs
  | publish keepdir dir args => exact complete_publish keepdir dir args
  | publishBin script args => exact complete_publishBin script args
  | publishIncludes keepdir args => exact complete_publish keepdir _ args
  | precompiledHeader header =>
    have hgch : Complete E d (missed E d (.precompiledHeader header)) (_ :: _) :=
      complete_single mem_missed
    exact hgch.append (complete_publish false _ _)
  | copyFile dest => exact complete_generate [dest]
  | generate targets => exact complete_generate targets
  | template target => exact complete_generate [target]
  | externalBuild spec => exact complete_externalBuild spec
  | clean source args => exact complete_clean source args
  | distClean source args => exact complete_distClean source args
  | other rules entries =>
    refine complete_of_made fun a ha => ?_
    rcases List.mem_append.mp ha with ha | ha
    · obtain ⟨r, -, rfl⟩ := List.mem_map.mp ha
      rfl
    · obtain ⟨e, -, rfl⟩ := List.mem_map.mp ha
      rfl

/-- A command makes what it misses. -/
theorem missed_made {c : Command} {p : Name} (h : p ∈ missed E d c) :
    p ∈ (c.actions E d).flatMap Action.made := by
  cases c with
  | executable publishes target args =>
    rw [missed] at h
    split at h
    · exact absurd h (by simp)
    · refine List.mem_flatMap.mpr ⟨.target [makeLocal d target ++ E.exeext]
        [makeLocal d target ++ E.exeext], ?_, h⟩
      simp [Command.actions, executable]
  | hostExecutable target =>
    rw [missed] at h
    split at h
    · exact absurd h (by simp)
    · exact List.mem_flatMap.mpr ⟨_, List.mem_cons_self, h⟩
  | precompiledHeader header =>
    rw [missed] at h
    split at h
    · exact absurd h (by simp)
    · exact List.mem_flatMap.mpr ⟨_, List.mem_cons_self, h⟩
  | externalBuild spec =>
    refine List.mem_flatMap.mpr ⟨.target ((".build" :: spec.buildTargets ++
      spec.libTargets.map Prod.snd).map (makeLocal d)) [makeLocal d ".build"], ?_, h⟩
    simp [Command.actions, externalBuild]
  | _ => exact absurd h (by simp [missed])

end

/-- After a project that parses, `distclean` knows every file that a rule makes exactly when some
command lists each of the files that a command misses. -/
theorem products_known (E : Settings) (project : List (Place × Command)) {s : State}
    (h : run E project = some s) :
    Known E s ↔ ∀ dc ∈ project, ∀ p ∈ missed E dc.1 dc.2, ∃ dc' ∈ project, Lists E dc.1 p dc' := by
  rw [known_iff h]
  constructor
  · exact fun hall dc hdc p hp => hall dc hdc p (missed_made hp)
  · intro hall dc hdc p hp
    rcases complete_actions dc.2 p hp with hmissed | hlisted
    · exact hall dc hdc p hmissed
    · exact ⟨dc, hdc, hlisted⟩

/-- Values of a project, on a system without extensions for executables. -/
def plainSettings : Settings where
  build := "objdir"
  destdir := ""
  glob := fun spec => [spec]
  publish := "publish"
  exeext := ""
  hostExeext := ""
  soext := ".so"
  soextver := ".so.%s"
  format := fun fmt version => if fmt = "%s" then version else ".so." ++ version
  isInteger := fun part => part.toList.all Char.isDigit

/-- A header in a subdirectory is made local twice, and one at the top is not. -/
example : missed plainSettings ⟨"sub/", []⟩ (.precompiledHeader "x.h") = ["sub/x.h.gch"] ∧
    missed plainSettings ⟨"", []⟩ (.precompiledHeader "x.h") = [] := by decide

def copyProject : List (Place × Command) :=
  [(⟨"sub/", ["install", "uninstall"]⟩, .copyFile "b.txt")]

theorem products_known_copy : ∃ s, run plainSettings copyProject = some s ∧ Known plainSettings s := by
  have hrun : (run plainSettings copyProject).isSome = true := by decide
  obtain ⟨s, hs⟩ := Option.isSome_iff_exists.mp hrun
  refine ⟨s, hs, (products_known plainSettings copyProject hs).mpr fun dc hdc p hp => ?_⟩
  rw [List.mem_singleton.mp hdc] at hp
  exact absurd hp (by simp [missed])

/-- An external build in a subdirectory. -/
def externalProject : List (Place × Command) :=
  [(⟨"ext/", ["install", "uninstall"]⟩, .externalBuild ⟨"configure", [], [], []⟩)]

/-- It leaves `ext/.build`. -/
theorem products_known_external :
    ∃ s, run plainSettings externalProject = some s ∧ ¬Known plainSettings s := by
  have hrun : (run plainSettings externalProject).isSome = true := by decide
  obtain ⟨s, hs⟩ := Option.isSome_iff_exists.mp hrun
  refine ⟨s, hs, fun hknown => ?_⟩
  have hbuild : "ext/.build" ∈ missed plainSettings ⟨"ext/", ["install", "uninstall"]⟩
      (.externalBuild ⟨"configure", [], [], []⟩) := by
    decide
  obtain ⟨dc', hdc', hlists⟩ := (known_iff hs).mp hknown _ List.mem_cons_self _ (missed_made hbuild)
  rw [List.mem_singleton.mp hdc'] at hlists
  have hnot : "objdir/ext/.build" ∉ (externalBuild plainSettings ⟨"ext/", ["install", "uninstall"]⟩
      ⟨"configure", [], [], []⟩).flatMap (Action.listed "ext/distclean") := by
    decide
  exact hnot hlists

end Tmake.Products
