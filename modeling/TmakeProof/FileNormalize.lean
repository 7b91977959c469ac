import Mathlib.Logic.Relation
import TmakeProof.RelativePath
import TmakeProof.Symlinks

/-! # Names of files without links

`file-normalize` first follows the links that its path itself stands for, and then has
the system name the file.  The text of a link is meant from the directory of the
link; the loop reads it from the current directory.  `file_normalize` says for which
file systems this makes no difference.
-/
namespace Tmake.FileNormalize
open Symlinks Lexicographic

/-- How the system reads a component. -/
def pathStep (c : String) : Step String :=
  if c = "" ∨ c = "." then .stay else if c = ".." then .up else .down c

def pathSteps (path : Path) : List (Step String) := (splitPath path).map pathStep

/-- The system's reading of a path. -/
def pathRoute (path : Path) : Route String := ⟨¬Relative path, pathSteps path⟩

/-- The files, the current directory and the system's resolution of paths, which does not
restrict how many links there are on the way. -/
structure FileSystem where
  node : List String → Option (Symlinks.Node Path)
  cwd : List String
  resolve : List String → List (Step String) → Option (List String)
  plain : ∀ name loc, node (name :: loc) ≠ none → Plain name
  text_ne : ∀ loc text, node loc = some (.link text) → text ≠ ""
  cwd_real : Symlinks.Tree.Real ⟨node, pathRoute⟩ cwd
  cwd_directory : Symlinks.Tree.isDirectory ⟨node, pathRoute⟩ cwd
  resolve_iff : ∀ loc steps loc', resolve loc steps = some loc' ↔
    ∃ n, Walks ⟨node, pathRoute⟩ loc steps n loc'

namespace FileSystem

variable (fs : FileSystem)

def tree : Symlinks.Tree String Path := ⟨fs.node, pathRoute⟩

def start (path : Path) : List String := if Relative path then fs.cwd else []

/-- The file that a path denotes. -/
def denotes (path : Path) : Option (List String) :=
  if path = "" then none else fs.resolve (fs.start path) (pathSteps path)

/-- `file exists`. -/
def fileExists (path : Path) : Bool := (fs.denotes path).isSome

/-- The directory in which a path has its last component. -/
def directoryOf (path : Path) : Option (List String) :=
  fs.resolve (fs.start path) (pathSteps path).dropLast

/-- `file readlink`, for paths whose `file type` is `link`. -/
def readlink (path : Path) : Option Path :=
  match (pathSteps path).getLast?, fs.directoryOf path with
  | some (.down name), some dir =>
    match fs.node (name :: dir) with
    | some (.link text) => if fs.tree.isDirectory dir then some text else none
    | _ => none
  | _, _ => none

/-- `file normalize`, which fails for a file that does not exist. -/
def normalize (path : Path) : Option Path := (fs.denotes path).map fun loc => rootPath loc.reverse

/-- `cd $path` and then `pwd`. -/
def cdPwd (path : Path) : Option Path :=
  match fs.denotes path with
  | some loc => if fs.tree.isDirectory loc then some (rootPath loc.reverse) else none
  | none => none

end FileSystem

/-- `file tail`. -/
def fileTail (path : Path) : String :=
  String.ofList (path.toList.reverse.takeWhile (· ≠ '/')).reverse

/-- The loop of `file-normalize`, with a bound on how often it is entered. -/
def followLinks (fs : FileSystem) : Nat → Path → Option Path
  | 0, _ => none
  | fuel + 1, path =>
    if fs.fileExists path then
      match fs.readlink path with
      | some text => followLinks fs fuel text
      | none => some path
    else some path

/-- What `file-normalize` does after the loop; `mkdir` is `file mkdir`, which may change the
file system. -/
def nameFile (mkdir : FileSystem → Path → Option FileSystem) (fs : FileSystem) (path : Path) :
    Option (Path × FileSystem) :=
  match fs.normalize path with
  | some result => some (result, fs)
  | none =>
    match fs.cdPwd path with
    | some result => some (result, fs)
    | none => do
      let fs ← mkdir fs (fileDirname path)
      let pwd ← fs.cdPwd (fileDirname path)
      let tail := fileTail path
      -- `file join` leaves out a `.`
      some (if tail = "." then pwd else joinPart pwd tail, fs)

/-- `file-normalize`. -/
def fileNormalize (mkdir : FileSystem → Path → Option FileSystem) (fs : FileSystem) (fuel : Nat)
    (path : Path) : Option (Path × FileSystem) :=
  if path = "" then some ("", fs) else (followLinks fs fuel path).bind (nameFile mkdir fs)

/-- `file-normalize` returns an absolute path, which denotes in the same file system the same
file. -/
def Keeps (mkdir : FileSystem → Path → Option FileSystem) (fs : FileSystem) (path : Path) : Prop :=
  ∃ fuel result, fileNormalize mkdir fs fuel path = some (result, fs) ∧ ¬Relative result ∧
    fs.denotes result = fs.denotes path

/-- The loop goes from a link to its text. -/
def Follows (fs : FileSystem) (path text : Path) : Prop :=
  fs.fileExists path ∧ fs.readlink path = some text

variable {mkdir : FileSystem → Path → Option FileSystem} {fs : FileSystem} {path text : Path}

/-! ## The names of places -/

theorem pathStep_plain {c : String} (h : Plain c) : pathStep c = .down c := by
  rw [pathStep, if_neg (by simp [h.ne_empty, h.ne_dot]), if_neg h.ne_dots]

theorem FileSystem.plain_of_real {loc : List String} (h : fs.tree.Real loc) :
    ∀ name ∈ loc, Plain name := by
  induction loc with
  | nil => simp
  | cons name loc ih =>
    have hnode : fs.node (name :: loc) ≠ none := by
      intro hnone
      rcases h.2.1 with hreal | hreal <;> exact absurd (hnone.symm.trans hreal) nofun
    rw [List.forall_mem_cons]
    exact ⟨fs.plain name loc hnode, ih h.2.2⟩

theorem FileSystem.resolve_eq_some {loc loc' : List String} {steps : List (Step String)} :
    fs.resolve loc steps = some loc' ↔ ∃ n, Walks fs.tree loc steps n loc' :=
  fs.resolve_iff loc steps loc'

theorem FileSystem.resolve_nil (loc : List String) : fs.resolve loc [] = some loc :=
  resolve_eq_some.mpr ⟨0, .done loc⟩

theorem FileSystem.resolve_stay {loc : List String} (h : fs.tree.isDirectory loc)
    (steps : List (Step String)) : fs.resolve loc (.stay :: steps) = fs.resolve loc steps := by
  refine Option.ext fun loc' => ?_
  rw [resolve_eq_some, resolve_eq_some]
  refine ⟨fun ⟨n, hwalks⟩ => ?_, fun ⟨n, hwalks⟩ => ⟨n, .stay h hwalks⟩⟩
  cases hwalks with
  | stay _ hwalks => exact ⟨n, hwalks⟩

theorem FileSystem.resolve_append (loc : List String) (steps steps' : List (Step String)) :
    fs.resolve loc (steps ++ steps') =
      (fs.resolve loc steps).bind fun mid => fs.resolve mid steps' := by
  refine Option.ext fun loc' => ?_
  rw [resolve_eq_some, Option.bind_eq_some_iff]
  constructor
  · rintro ⟨n, hwalks⟩
    obtain ⟨m, k, mid, -, hfirst, hsecond⟩ := walks_append.mp hwalks
    exact ⟨mid, resolve_eq_some.mpr ⟨m, hfirst⟩, resolve_eq_some.mpr ⟨k, hsecond⟩⟩
  · rintro ⟨mid, hfirst, hsecond⟩
    obtain ⟨m, hfirst⟩ := resolve_eq_some.mp hfirst
    obtain ⟨k, hsecond⟩ := resolve_eq_some.mp hsecond
    exact ⟨m + k, hfirst.append hsecond⟩

theorem FileSystem.denotes_of_ne (h : path ≠ "") :
    fs.denotes path = fs.resolve (fs.start path) (pathSteps path) := if_neg h

theorem FileSystem.start_real (path : Path) : fs.tree.Real (fs.start path) := by
  rw [start]
  split
  · exact fs.cwd_real
  · trivial

theorem FileSystem.real_of_denotes {loc : List String} (h : fs.denotes path = some loc) :
    fs.tree.Real loc := by
  have hne : path ≠ "" := by
    rintro rfl
    simp [denotes] at h
  rw [denotes_of_ne hne] at h
  obtain ⟨n, hwalks⟩ := resolve_eq_some.mp h
  exact hwalks.real (fs.start_real path)

theorem pathSteps_rootPath {names : List String} (h : ∀ name ∈ names, Plain name) :
    pathSteps (rootPath names) = .stay :: if names = [] then [.stay] else names.map .down := by
  rw [pathSteps, splitPath_rootPath (Plain.components h), List.map_cons]
  congr 1
  split
  · rfl
  · exact List.map_congr_left fun name hname => pathStep_plain (h name hname)

theorem FileSystem.denotes_rootPath {names : List String} (h : ∀ name ∈ names, Plain name) :
    fs.denotes (rootPath names) = fs.resolve [] (names.map .down) := by
  have habsolute := rootPath_absolute names
  have hne : rootPath names ≠ "" := fun heq => habsolute (by rw [heq]; decide)
  rw [denotes_of_ne hne, start, if_neg habsolute, pathSteps_rootPath h, resolve_stay rfl]
  split
  · rename_i hnil
    rw [hnil, resolve_stay rfl]
    rfl
  · rfl

/-- A place is denoted by the path that `pwd` and `file normalize` name it with. -/
theorem FileSystem.denotes_real {loc : List String} (h : fs.tree.Real loc) :
    fs.denotes (rootPath loc.reverse) = some loc := by
  have hplain : ∀ name ∈ loc.reverse, Plain name := fun name hname =>
    plain_of_real h name (List.mem_reverse.mp hname)
  rw [denotes_rootPath hplain, resolve_eq_some]
  exact ⟨0, h.walks⟩

/-! ## The loop -/

theorem FileSystem.directoryOf_eq {steps : List (Step String)} {step : Step String}
    (h : pathSteps path = steps ++ [step]) :
    fs.directoryOf path = fs.resolve (fs.start path) steps := by
  rw [directoryOf, h, List.dropLast_concat]

theorem FileSystem.readlink_eq_some : fs.readlink path = some text ↔
    ∃ steps name dir, pathSteps path = steps ++ [.down name] ∧
      fs.resolve (fs.start path) steps = some dir ∧ fs.tree.isDirectory dir ∧
      fs.node (name :: dir) = some (.link text) := by
  rw [readlink]
  constructor
  · intro h
    split at h
    · rename_i name dir hlast hdir
      split at h
      · rename_i hnode
        obtain ⟨hdirectory, heq⟩ := Option.ite_none_right_eq_some.mp h
        obtain ⟨steps, hsteps⟩ := List.getLast?_eq_some_iff.mp hlast
        rw [directoryOf_eq hsteps] at hdir
        exact ⟨steps, name, dir, hsteps, hdir, hdirectory, by rw [hnode, Option.some.inj heq]⟩
      · cases h
    · cases h
  · rintro ⟨steps, name, dir, hsteps, hdir, hdirectory, hnode⟩
    rw [directoryOf_eq hsteps, hdir, hsteps, List.getLast?_concat]
    simp only [hnode, hdirectory, if_true]

/-- A name in the current directory. -/
theorem FileSystem.readlink_name {name : String} (hname : Plain name) :
    fs.readlink name = some text ↔ fs.node (name :: fs.cwd) = some (.link text) := by
  have hsteps : pathSteps name = [] ++ [.down name] := by
    rw [pathSteps, splitPath, if_neg hname.ne_empty, splitSlash_plain hname.noSlash]
    simp [pathStep_plain hname]
  have hstart : fs.start name = fs.cwd := if_pos hname.component.head
  rw [readlink_eq_some, hstart]
  constructor
  · rintro ⟨steps, name', dir, hsteps', hdir, -, hnode⟩
    obtain ⟨rfl, hlast⟩ := List.append_inj' (hsteps.symm.trans hsteps') rfl
    rw [resolve_nil, Option.some.injEq] at hdir
    rw [List.cons.injEq, Step.down.injEq] at hlast
    rw [hdir, hlast.1]
    exact hnode
  · exact fun hnode => ⟨[], name, fs.cwd, hsteps, resolve_nil _, fs.cwd_directory, hnode⟩

theorem Follows.text_ne (h : Follows fs path text) : text ≠ "" := by
  obtain ⟨steps, name, dir, -, -, -, hnode⟩ := FileSystem.readlink_eq_some.mp h.2
  exact fs.text_ne _ _ hnode

theorem Follows.step (h : Follows fs path text) (fuel : Nat) :
    followLinks fs (fuel + 1) path = followLinks fs fuel text := by
  rw [followLinks, if_pos h.1, h.2]

theorem followLinks_end (h : ∀ text, ¬Follows fs path text) (fuel : Nat) :
    followLinks fs (fuel + 1) path = some path := by
  rw [followLinks]
  split
  · rename_i hexists
    cases hlink : fs.readlink path with
    | none => rfl
    | some text => exact (h text ⟨hexists, hlink⟩).elim
  · rfl

theorem followLinks_mono {last : Path} {n m : Nat} (h : followLinks fs n path = some last)
    (hle : n ≤ m) : followLinks fs m path = some last := by
  induction n generalizing path m with
  | zero => cases h
  | succ n ih =>
    obtain ⟨m, rfl⟩ := Nat.exists_eq_succ_of_ne_zero (by omega : m ≠ 0)
    by_cases hfollows : ∃ text, Follows fs path text
    · obtain ⟨text, hfollows⟩ := hfollows
      rw [hfollows.step] at h ⊢
      exact ih h (by omega)
    · rw [not_exists] at hfollows
      rw [followLinks_end hfollows] at h ⊢
      exact h

theorem fileNormalize_of_ne (h : path ≠ "") (fuel : Nat) :
    fileNormalize mkdir fs fuel path = (followLinks fs fuel path).bind (nameFile mkdir fs) :=
  if_neg h

theorem FileSystem.ne_of_exists (h : fs.fileExists path) : path ≠ "" := by
  rintro rfl
  simp [fileExists, denotes] at h

theorem Follows.normalize (h : Follows fs path text) (fuel : Nat) :
    fileNormalize mkdir fs (fuel + 1) path = fileNormalize mkdir fs fuel text := by
  rw [fileNormalize_of_ne (FileSystem.ne_of_exists h.1), fileNormalize_of_ne h.text_ne, h.step]

theorem fileNormalize_mono {outcome : Path × FileSystem} {n m : Nat}
    (h : fileNormalize mkdir fs n path = some outcome) (hle : n ≤ m) :
    fileNormalize mkdir fs m path = some outcome := by
  by_cases hne : path = ""
  · rw [fileNormalize, if_pos hne] at h ⊢
    exact h
  · rw [fileNormalize_of_ne hne] at h ⊢
    obtain ⟨last, hlast, hname⟩ := Option.bind_eq_some_iff.mp h
    exact Option.bind_eq_some_iff.mpr ⟨last, followLinks_mono hlast hle, hname⟩

theorem nameFile_exists {loc : List String} (h : fs.denotes path = some loc) :
    nameFile mkdir fs path = some (rootPath loc.reverse, fs) := by
  rw [nameFile, FileSystem.normalize, h]
  rfl

theorem Keeps.of_end (hexists : fs.fileExists path) (h : ∀ text, ¬Follows fs path text) :
    Keeps mkdir fs path := by
  obtain ⟨loc, hloc⟩ := Option.isSome_iff_exists.mp hexists
  refine ⟨1, rootPath loc.reverse, ?_, rootPath_absolute _, ?_⟩
  · rw [fileNormalize_of_ne (FileSystem.ne_of_exists hexists), followLinks_end h, Option.bind_some,
      nameFile_exists hloc]
  · rw [hloc, FileSystem.denotes_real (FileSystem.real_of_denotes hloc)]

theorem Keeps.of_follows (h : Follows fs path text) (hfile : fs.denotes text = fs.denotes path)
    (hkeeps : Keeps mkdir fs text) : Keeps mkdir fs path := by
  obtain ⟨fuel, result, hresult, habsolute, hdenotes⟩ := hkeeps
  exact ⟨fuel + 1, result, (h.normalize fuel).trans hresult, habsolute, hdenotes.trans hfile⟩

/-! ## Files that do not exist -/

theorem fileDirname_cases (path : Path) (hup : path ≠ "..") :
    ('/' ∉ path.toList ∧ fileDirname path = "." ∧ fileTail path = path) ∨
    ∃ before tail, path.toList = before ++ '/' :: tail ∧ '/' ∉ tail ∧
      fileTail path = String.ofList tail ∧
      fileDirname path = if before = [] then "/" else String.ofList before := by
  have hsplit := List.takeWhile_append_dropWhile (p := fun c => decide (c ≠ '/'))
    (l := path.toList.reverse)
  have htail : '/' ∉ path.toList.reverse.takeWhile (· ≠ '/') := by
    intro hmem
    simpa using List.mem_takeWhile_imp hmem
  rw [fileDirname, fileTail]
  generalize path.toList.reverse.takeWhile (· ≠ '/') = tail at hsplit htail ⊢
  cases hdrop : path.toList.reverse.dropWhile (· ≠ '/') with
  | nil =>
    rw [hdrop, List.append_nil] at hsplit
    rw [hsplit] at htail ⊢
    rw [List.reverse_reverse, String.ofList_toList]
    exact .inl ⟨fun hmem => htail (List.mem_reverse.mpr hmem), if_neg hup, rfl⟩
  | cons c before =>
    have hc : c = '/' := by
      have hhead := List.head?_dropWhile_not (fun c => decide (c ≠ '/')) path.toList.reverse
      rw [hdrop] at hhead
      simpa using hhead
    refine .inr ⟨before.reverse, tail.reverse, ?_, fun hmem => htail (List.mem_reverse.mp hmem),
      rfl, ?_⟩
    · rw [hdrop, hc] at hsplit
      have hlist := congrArg List.reverse hsplit
      rw [List.reverse_reverse] at hlist
      rw [← hlist]
      simp
    · cases before with
      | nil => rfl
      | cons b before => exact (if_neg fun hnil => List.cons_ne_nil b before (List.reverse_eq_nil_iff.mp hnil)).symm

/-- The last component, and what stands before it. -/
theorem FileSystem.denotes_dirname (hne : path ≠ "") (hup : path ≠ "..") :
    fs.denotes path =
      (fs.denotes (fileDirname path)).bind fun dir => fs.resolve dir [pathStep (fileTail path)] := by
  rw [denotes_of_ne hne]
  rcases fileDirname_cases path hup with ⟨hslash, hdir, htail⟩ | ⟨before, tail, hpath, hslash, htail, hdir⟩
  · have hrelative : Relative path := fun hhead => hslash (List.mem_of_mem_head? hhead)
    have hsteps : pathSteps path = [pathStep path] := by
      rw [pathSteps, splitPath, if_neg hne, splitSlash_plain hslash]
      simp
    have hdot : fs.denotes "." = some fs.cwd := by
      rw [denotes_of_ne (by decide), start, if_pos (by decide),
        show pathSteps "." = [.stay] by rfl, resolve_stay fs.cwd_directory, resolve_nil]
    rw [hdir, htail, hdot, Option.bind_some, hsteps, start, if_pos hrelative]
  · have hsteps : pathSteps path =
        ((splitSlash before).map String.ofList).map pathStep ++ [pathStep (String.ofList tail)] := by
      rw [pathSteps, splitPath, if_neg hne, hpath, splitSlash_append, splitSlash_plain hslash,
        List.map_append, List.map_append]
      rfl
    rw [hsteps, resolve_append, hdir, htail]
    by_cases hroot : before = []
    · have hstart : fs.start path = [] := by
        rw [start, if_neg]
        rw [Relative, hpath, hroot]
        simp
      have hslash : fs.denotes "/" = some [] := by
        rw [denotes_of_ne (by decide), start, if_neg (by decide),
          show pathSteps "/" = [.stay, .stay] by rfl, resolve_stay rfl, resolve_stay rfl, resolve_nil]
      rw [if_pos hroot, hslash, hstart, hroot]
      rw [show ((splitSlash []).map String.ofList).map pathStep = [.stay] by rfl, resolve_stay rfl,
        resolve_nil]
    · have hbefore : String.ofList before ≠ "" := fun heq => hroot (by simpa using heq)
      have hstart : fs.start path = fs.start (String.ofList before) := by
        rw [start, start]
        refine if_congr ?_ rfl rfl
        rw [Relative, Relative, hpath, String.toList_ofList, List.head?_append_of_ne_nil _ hroot]
      rw [if_neg hroot, denotes_of_ne hbefore, hstart, pathSteps, splitPath, if_neg hbefore,
        String.toList_ofList]

theorem fileTail_noSlash (path : Path) : '/' ∉ (fileTail path).toList := by
  rw [fileTail, String.toList_ofList, List.mem_reverse]
  intro hmem
  simpa using List.mem_takeWhile_imp hmem

theorem FileSystem.resolve_up {loc : List String} (h : fs.tree.isDirectory loc) :
    fs.resolve loc [.up] = some loc.tail :=
  resolve_eq_some.mpr ⟨0, .up h (.done _)⟩

/-- What a directory does not have is a name. -/
theorem FileSystem.plain_of_missing {dir : List String} {c : String} (hc : '/' ∉ c.toList)
    (hdir : fs.tree.isDirectory dir) (h : fs.resolve dir [pathStep c] = none) : Plain c := by
  rcases part_cases hc with rfl | rfl | rfl | hplain
  · rw [show pathStep "." = .stay by rfl, resolve_stay hdir, resolve_nil] at h
    cases h
  · rw [show pathStep "" = .stay by rfl, resolve_stay hdir, resolve_nil] at h
    cases h
  · rw [show pathStep ".." = .up by rfl, resolve_up hdir] at h
    cases h
  · exact hplain

theorem joinPart_rootPath {names : List String} {name : String} (h : ∀ name ∈ names, Plain name)
    (hname : Plain name) : joinPart (rootPath names) name = rootPath (names ++ [name]) := by
  have hall : ∀ name' ∈ names ++ [name], Plain name' :=
    List.forall_mem_append.mpr ⟨h, by simpa using hname⟩
  rw [← foldl_joinPart_root (Plain.components hall), ← foldl_joinPart_root (Plain.components h),
    List.foldl_append]
  rfl

/-- The name of a file that does not exist denotes nothing, unless directories are made for it. -/
theorem nameFile_missing {result : Path} (hne : path ≠ "") (h : fs.denotes path = none)
    (hname : nameFile mkdir fs path = some (result, fs)) : fs.denotes result = none := by
  have hup : path ≠ ".." := by
    rintro rfl
    rw [FileSystem.denotes_of_ne hne, FileSystem.start, if_pos (by decide),
      show pathSteps ".." = [.up] by rfl, FileSystem.resolve_up fs.cwd_directory] at h
    cases h
  rw [nameFile, FileSystem.normalize, FileSystem.cdPwd, h] at hname
  obtain ⟨fs', hmkdir, hname⟩ := Option.bind_eq_some_iff.mp hname
  obtain ⟨pwd, hpwd, hname⟩ := Option.bind_eq_some_iff.mp hname
  rw [Option.some.injEq, Prod.mk.injEq] at hname
  obtain ⟨hresult, rfl⟩ := hname
  rw [FileSystem.denotes_dirname hne hup] at h
  rw [FileSystem.cdPwd] at hpwd
  cases hdir : fs'.denotes (fileDirname path) with
  | none => rw [hdir] at hpwd; cases hpwd
  | some dir =>
    rw [hdir] at h hpwd
    obtain ⟨hdirectory, hpwd⟩ := Option.ite_none_right_eq_some.mp hpwd
    have hreal : fs'.tree.Real dir := FileSystem.real_of_denotes hdir
    have htail : Plain (fileTail path) :=
      FileSystem.plain_of_missing (fileTail_noSlash path) hdirectory h
    have hnames : ∀ name ∈ dir.reverse, Plain name := fun name hname =>
      FileSystem.plain_of_real hreal name (List.mem_reverse.mp hname)
    have hall : ∀ name ∈ dir.reverse ++ [fileTail path], Plain name :=
      List.forall_mem_append.mpr ⟨hnames, by simpa using htail⟩
    have hplace : fs'.resolve [] (dir.reverse.map .down) = some dir :=
      FileSystem.resolve_eq_some.mpr ⟨0, hreal.walks⟩
    rw [← hresult, if_neg htail.ne_dot, ← Option.some.inj hpwd, joinPart_rootPath hnames htail,
      FileSystem.denotes_rootPath hall, List.map_append, FileSystem.resolve_append, hplace,
      Option.bind_some, List.map_singleton, ← pathStep_plain htail]
    exact h

/-! ## Which links keep the file -/

/-- Where the files of a link and of its text are kept, they are the same. -/
theorem Follows.denotes_text (h : Follows fs path text) (hpath : Keeps mkdir fs path)
    (htext : fs.fileExists text → Keeps mkdir fs text) : fs.denotes text = fs.denotes path := by
  obtain ⟨fuel, result, hresult, -, hdenotes⟩ := hpath
  have hnormal : fileNormalize mkdir fs fuel text = some (result, fs) := by
    rw [← h.normalize]
    exact fileNormalize_mono hresult (Nat.le_succ fuel)
  cases hfile : fs.denotes text with
  | none =>
    -- the loop ends at the text
    have hend : ∀ text', ¬Follows fs text text' := fun text' hfollows => by
      have hexists := hfollows.1
      simp [FileSystem.fileExists, hfile] at hexists
    have hnormal' := fileNormalize_mono hnormal (Nat.le_succ fuel)
    rw [fileNormalize_of_ne h.text_ne, followLinks_end hend] at hnormal'
    rw [← hdenotes, nameFile_missing h.text_ne hfile hnormal']
  | some loc =>
    obtain ⟨fuel', result', hresult', -, hdenotes'⟩ := htext (by simp [FileSystem.fileExists, hfile])
    have heq := (fileNormalize_mono hnormal (Nat.le_add_right fuel fuel')).symm.trans
      (fileNormalize_mono hresult' (Nat.le_add_left fuel' fuel))
    rw [Option.some.injEq, Prod.mk.injEq] at heq
    rw [← hfile, ← hdenotes', ← heq.1, hdenotes]

theorem acc_of_followLinks {last : Path} {fuel : Nat} (h : followLinks fs fuel path = some last) :
    Acc (fun text path => Follows fs path text) path := by
  induction fuel generalizing path with
  | zero => cases h
  | succ fuel ih => exact Acc.intro path fun text hfollows => ih ((hfollows.step fuel).symm.trans h)

theorem Keeps.acc (h : Keeps mkdir fs path) (hne : path ≠ "") :
    Acc (fun text path => Follows fs path text) path := by
  obtain ⟨fuel, result, hresult, -⟩ := h
  rw [fileNormalize_of_ne hne] at hresult
  obtain ⟨last, hlast, -⟩ := Option.bind_eq_some_iff.mp hresult
  exact acc_of_followLinks hlast

/-- An absolute text, and one of a link in the current directory, is read as the system reads it,
which takes one link less. -/
theorem Follows.walks {loc : List String} {n : Nat} (h : Follows fs path text)
    (hwalks : Walks fs.tree (fs.start path) (pathSteps path) n loc)
    (htext : ¬Relative text ∨ fs.directoryOf path = some fs.cwd) :
    ∃ m < n, Walks fs.tree (fs.start text) (pathSteps text) m loc := by
  obtain ⟨steps, name, dir, hsteps, hresolve, -, hnode⟩ := FileSystem.readlink_eq_some.mp h.2
  obtain ⟨k, hfirst⟩ := FileSystem.resolve_eq_some.mp hresolve
  rw [hsteps] at hwalks
  obtain ⟨m, k', mid, rfl, hfirst', hlast⟩ := walks_append.mp hwalks
  obtain ⟨rfl, rfl⟩ := hfirst.unique hfirst'
  have hstart : fs.tree.start text dir = fs.start text := by
    show (if decide (¬Relative text) = true then [] else dir) = _
    rw [FileSystem.start]
    rcases htext with htext | hcwd
    · rw [if_pos (by simpa using htext), if_neg htext]
    · rw [FileSystem.directoryOf_eq hsteps, hresolve, Option.some.injEq] at hcwd
      by_cases hrelative : Relative text <;> simp [hrelative, hcwd]
  cases hlast with
  | down _ hreal _ => exact (hreal.not_link hnode).elim
  | @link _ _ text' _ n' _ _ hlink hrest =>
    have htext' : text = text' := Symlinks.Node.link.inj (Option.some.inj (hnode.symm.trans hlink))
    subst htext'
    rw [hstart, List.append_nil] at hrest
    exact ⟨n', by omega, hrest⟩

/-- The links on the way are read as the system reads them. -/
theorem Keeps.of_links {loc : List String} {n : Nat} (hne : path ≠ "")
    (hwalks : Walks fs.tree (fs.start path) (pathSteps path) n loc)
    (hlinks : ∀ link text, Relation.ReflTransGen (Follows fs) path link → Follows fs link text →
      ¬Relative text ∨ fs.directoryOf link = some fs.cwd) : Keeps mkdir fs path := by
  have hdenotes {path : Path} {n : Nat} (hne : path ≠ "")
      (hwalks : Walks fs.tree (fs.start path) (pathSteps path) n loc) :
      fs.denotes path = some loc := by
    rw [FileSystem.denotes_of_ne hne]
    exact FileSystem.resolve_eq_some.mpr ⟨n, hwalks⟩
  induction n using Nat.strong_induction_on generalizing path with
  | _ n ih =>
    by_cases hfollows : ∃ text, Follows fs path text
    · obtain ⟨text, hfollows⟩ := hfollows
      obtain ⟨m, hm, htext⟩ := hfollows.walks hwalks (hlinks path text .refl hfollows)
      refine Keeps.of_follows hfollows ?_ (ih m hm hfollows.text_ne htext fun link text' hreach =>
        hlinks link text' (.head hfollows hreach))
      rw [hdenotes hne hwalks, hdenotes hfollows.text_ne htext]
    · rw [not_exists] at hfollows
      refine Keeps.of_end ?_ hfollows
      rw [FileSystem.fileExists, hdenotes hne hwalks]
      rfl

/-- **`file-normalize` keeps all files** exactly where every link's text denotes, from the current
directory, the file of the link, and where following the texts comes to an end; and it keeps
a file if the links on the way to it have absolute texts or lie in the current directory. -/
theorem file_normalize (mkdir : FileSystem → Path → Option FileSystem) (fs : FileSystem) :
    ((∀ path, fs.fileExists path → Keeps mkdir fs path) ↔
      (∀ path text, Follows fs path text → fs.denotes text = fs.denotes path) ∧
      WellFounded fun text path => Follows fs path text) ∧
    ∀ path, fs.fileExists path →
      (∀ link text, Relation.ReflTransGen (Follows fs) path link → Follows fs link text →
        ¬Relative text ∨ fs.directoryOf link = some fs.cwd) → Keeps mkdir fs path := by
  refine ⟨⟨fun hkeeps => ⟨fun path text h => ?same, ⟨fun path => ?ends⟩⟩, fun h path hexists => ?keeps⟩,
    fun path hexists hlinks => ?single⟩
  case same => exact h.denotes_text (hkeeps path h.1) (hkeeps text)
  case ends =>
    by_cases hexists : fs.fileExists path
    · exact (hkeeps path hexists).acc (FileSystem.ne_of_exists hexists)
    · exact Acc.intro path fun text hfollows => absurd hfollows.1 hexists
  case keeps =>
    obtain ⟨hsame, hends⟩ := h
    induction path using hends.induction with
    | _ path ih =>
      by_cases hfollows : ∃ text, Follows fs path text
      · obtain ⟨text, hfollows⟩ := hfollows
        have hfile := hsame path text hfollows
        refine Keeps.of_follows hfollows hfile (ih text hfollows ?_)
        rw [FileSystem.fileExists, hfile]
        exact hexists
      · exact Keeps.of_end hexists (not_exists.mp hfollows)
  case single =>
    obtain ⟨loc, hloc⟩ := Option.isSome_iff_exists.mp hexists
    have hne := FileSystem.ne_of_exists hexists
    rw [FileSystem.denotes_of_ne hne] at hloc
    obtain ⟨n, hwalks⟩ := FileSystem.resolve_eq_some.mp hloc
    exact Keeps.of_links hne hwalks hlinks

/-! ## A link in a directory below -/

/-- The file `/d/f` and the link `/d/l` to it. -/
def linkNode : List String → Option (Symlinks.Node Path)
  | ["d"] => some .directory
  | ["f", "d"] => some .file
  | ["l", "d"] => some (.link "f")
  | _ => none

theorem linkNode_names {name : String} {loc : List String} (h : linkNode (name :: loc) ≠ none) :
    name ∈ ["d", "f", "l"] := by
  rw [linkNode.eq_def] at h
  split at h <;> simp_all

noncomputable def linkFiles (cwd : List String) (hreal : Symlinks.Tree.Real ⟨linkNode, pathRoute⟩ cwd)
    (hdirectory : Symlinks.Tree.isDirectory ⟨linkNode, pathRoute⟩ cwd) : FileSystem where
  node := linkNode
  cwd := cwd
  resolve := Symlinks.Tree.resolve ⟨linkNode, pathRoute⟩
  plain name loc h :=
    have hplain : ∀ name ∈ ["d", "f", "l"], Plain name := by decide
    hplain name (linkNode_names h)
  text_ne loc text h := by
    rintro rfl
    rw [linkNode.eq_def] at h
    split at h <;> simp at h
  cwd_real := hreal
  cwd_directory := hdirectory
  resolve_iff := Symlinks.Tree.resolve_eq_some _

/-- From its own directory the link is followed to the file. -/
theorem file_normalize_here :
    Keeps (fun fs _ => some fs) (linkFiles ["d"] ⟨rfl, .inl rfl, trivial⟩ rfl) "l" := by
  have hlink : FileSystem.denotes (linkFiles ["d"] ⟨rfl, .inl rfl, trivial⟩ rfl) "l" =
      some ["f", "d"] := by
    rw [FileSystem.denotes_of_ne (by decide), FileSystem.resolve_eq_some]
    exact ⟨1, .link rfl rfl (.down rfl (.inr rfl) (.done _))⟩
  refine (file_normalize _ _).2 "l" (by rw [FileSystem.fileExists, hlink]; rfl) ?_
  intro link text hreach hfollows
  rcases Relation.ReflTransGen.cases_head hreach with rfl | ⟨next, hnext, hrest⟩
  · exact .inr (FileSystem.resolve_nil _)
  · have hnode := (FileSystem.readlink_name (by decide)).mp hnext.2
    obtain rfl : "f" = next := Symlinks.Node.link.inj (Option.some.inj hnode)
    have hfile (text : Path) : ¬Follows (linkFiles ["d"] ⟨rfl, .inl rfl, trivial⟩ rfl) "f" text :=
      fun h => nomatch (FileSystem.readlink_name (by decide)).mp h.2
    rcases Relation.ReflTransGen.cases_head hrest with rfl | ⟨next, hnext, -⟩
    · exact absurd hfollows (hfile text)
    · exact absurd hnext (hfile next)

/-- From the root the link is followed to `/f`, which does not exist. -/
theorem file_normalize_strays :
    ¬∀ mkdir fs path, FileSystem.fileExists fs path → Keeps mkdir fs path := by
  intro hkeeps
  have hlink : FileSystem.denotes (linkFiles [] trivial rfl) "d/l" = some ["f", "d"] := by
    rw [FileSystem.denotes_of_ne (by decide), FileSystem.resolve_eq_some]
    exact ⟨1, .down rfl (.inl rfl) (.link rfl rfl (.down rfl (.inr rfl) (.done _)))⟩
  have hfollows : Follows (linkFiles [] trivial rfl) "d/l" "f" := by
    refine ⟨by rw [FileSystem.fileExists, hlink]; rfl, FileSystem.readlink_eq_some.mpr ?_⟩
    exact ⟨[.down "d"], "l", ["d"], rfl,
      FileSystem.resolve_eq_some.mpr ⟨0, .down rfl (.inl rfl) (.done _)⟩, rfl, rfl⟩
  have hsame := hfollows.denotes_text (hkeeps (fun fs _ => some fs) _ "d/l" hfollows.1) (hkeeps _ _ "f")
  rw [hlink, FileSystem.denotes_of_ne (by decide), FileSystem.resolve_eq_some] at hsame
  obtain ⟨n, hwalks⟩ := hsame
  cases hwalks with
  | down _ hreal _ => rcases hreal with hreal | hreal <;> cases hreal
  | link _ hnode _ => cases hnode

end Tmake.FileNormalize
