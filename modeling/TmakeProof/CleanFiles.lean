import TmakeProof.RelativePath
import TmakeProof.Trees
import Mathlib.Data.List.Dedup
import Mathlib.Data.List.Sort
import Mathlib.Data.String.Basic

/-! # Deleting files and the directories above them

`clean-files` and `remove-empty-directories` of the rule base.  The directories
above the deleted files are tried in decreasing order of their names, and the name
of a directory is a prefix of the names of what stands in it, so that a directory
is tried after all that could have become empty in it.
-/
namespace Tmake.CleanFiles
open Trees

/-! ## File names -/

/-- Where one part of a path leads. -/
def walk (place : List String) (part : String) : List String :=
  if part = "" ∨ part = "." then place
  else if part = ".." then place.tail
  else if part = "/" then []
  else part :: place

/-- The place that a path names for a process in the directory `cwd`. -/
def locate (cwd : List String) (path : Path) : List String := (fileSplit path).foldl walk cwd

/-- What can be deleted under a path: `rmdir` refuses one that ends in `.` or `..`, and the empty
path names nothing. -/
def target (cwd : List String) (path : Path) : Option (List String) :=
  let last := ((fileSplit path).filter (· ≠ "")).getLast?
  if path = "" ∨ last = some "." ∨ last = some ".." then none
  else some (locate cwd path)

/-- Where a file name starts: some directories above the working directory, or at the root. -/
inductive Base where
  | up (n : Nat)
  | root
  deriving DecidableEq

def Base.place (cwd : List String) : Base → List String
  | .up n => cwd.drop n
  | .root => []

/-- The path over some names from there. -/
def Base.path : Base → List String → Path
  | .up n, names => dirPath (List.replicate n ".." ++ names)
  | .root, names => rootPath names

/-- A file by its name, as seen from the working directory: what is below that is not named by
way of the directories above it. -/
structure FileName (cwd : List String) where
  base : Base
  names : List String
  ne_nil : names ≠ []
  plain : ∀ name ∈ names, Plain name
  outside : base ≠ .up 0 → ¬cwd <:+ names.reverse ++ base.place cwd

namespace FileName
variable {cwd : List String}

def path (f : FileName cwd) : Path := f.base.path f.names

def place (f : FileName cwd) : List String := f.names.reverse ++ f.base.place cwd

end FileName

/-! ## The procedures -/

theorem fileDirname_length {file : Path} (hfile : fileDirname file ≠ file)
    (hdot : fileDirname file ≠ ".") : (fileDirname file).length < file.length := by
  have hdrop := List.length_dropWhile_le (· ≠ '/') file.toList.reverse
  rw [List.length_reverse, String.length_toList] at hdrop
  rw [fileDirname] at hfile hdot ⊢
  rcases h : file.toList.reverse.dropWhile (· ≠ '/') with _ | ⟨c, _ | ⟨c', before⟩⟩
  · simp only [h] at hfile hdot
    by_cases heq : file = ".."
    · exact absurd ((if_pos heq).trans heq.symm) hfile
    · exact absurd (if_neg heq) hdot
  · simp only [h] at hfile hdrop ⊢
    have hone : file.length ≠ 1 := by
      intro hlen
      obtain ⟨x, hx⟩ := List.length_eq_one_iff.mp (String.length_toList.trans hlen)
      have hslash : x = '/' := by
        by_contra hne
        rw [hx] at h
        simp [hne] at h
      exact hfile (String.toList_inj.mp (hx.trans (hslash ▸ rfl))).symm
    exact Nat.lt_of_le_of_ne hdrop hone.symm
  · simp only [h] at hdrop ⊢
    rw [← String.length_toList, String.toList_ofList, List.length_reverse]
    exact hdrop

/-- The loop over the directories above one file. -/
def dirnames (file : Path) : List Path :=
  let dirname := fileDirname file
  if h : dirname = file ∨ dirname = "." then []
  else
    have := fileDirname_length (not_or.mp h).1 (not_or.mp h).2
    dirname :: dirnames dirname
termination_by file.length

variable {κ : Type*} (cwd : List String)

/-- `file delete` with one name. -/
def fileDelete (tree : Trees.Tree String κ) (path : Path) : Option (Trees.Tree String κ) :=
  if path = "" then some tree else (target cwd path).bind tree.delete

/-- `file delete` with several: it stops at the first that cannot be deleted. -/
def fileDeleteAll : List Path → Trees.Tree String κ → Bool × Trees.Tree String κ
  | [], tree => (true, tree)
  | file :: files, tree =>
    match fileDelete cwd tree file with
    | none => (false, tree)
    | some tree => fileDeleteAll files tree

/-- `lsort -decreasing`. -/
def lsortDecreasing (l : List Path) : List Path := l.insertionSort (· ≥ ·)

/-- `remove-empty-directories`. -/
def removeEmptyDirectories (files : List Path) (tree : Trees.Tree String κ) : Trees.Tree String κ :=
  let dirs := (files.flatMap dirnames).dedup
  (lsortDecreasing dirs).foldl (fun tree dir => (fileDelete cwd tree dir).getD tree) tree

/-- `clean-files`: whether it returns without an error, and the tree that it leaves. -/
def cleanFiles (files : List Path) (tree : Trees.Tree String κ) : Bool × Trees.Tree String κ :=
  if files = [] then (true, tree)
  else
    match fileDeleteAll cwd files tree with
    | (false, tree) => (false, tree)
    | (true, tree) => (true, removeEmptyDirectories cwd files tree)

/-! ## Names in their order -/

theorem lt_append {s tail : String} (h : tail ≠ "") : s < s ++ tail := by
  rw [String.lt_iff_toList_lt, String.toList_append]
  induction s.toList with
  | nil =>
    cases htail : tail.toList with
    | nil => exact absurd (String.toList_inj.mp (htail.trans rfl)) h
    | cons c cs => exact List.nil_lt_cons c cs
  | cons c cs ih => exact List.cons_lt_cons_self.mpr ih

section
variable {cwd : List String} {base : Base} {names : List String} {d : String}

theorem dots_components (n : Nat) : ∀ name ∈ List.replicate n "..", Component name :=
  fun _ hname => List.eq_of_mem_replicate hname ▸ ⟨by decide, by decide⟩

theorem upward_components (h : ∀ name ∈ names, Plain name) (n : Nat) :
    ∀ name ∈ List.replicate n ".." ++ names, Component name := by
  intro name hname
  rcases List.mem_append.mp hname with hname | hname
  · exact dots_components n name hname
  · exact (h name hname).component

theorem upward_eq_nil {n : Nat} :
    List.replicate n ".." ++ names = [] ↔ Base.up n = .up 0 ∧ names = [] := by simp

/-- The name of what stands in a directory continues the name of the directory. -/
theorem Base.path_concat (h : ∀ name ∈ names, Plain name) (hd : Plain d)
    (hbelow : base = .up 0 → names ≠ []) :
    ∃ tail, tail ≠ "" ∧ base.path (names ++ [d]) = base.path names ++ tail := by
  have htail : "/" ++ d ≠ "" := by simp [String.append_eq_empty_iff]
  cases base with
  | up n =>
    have hne : List.replicate n ".." ++ names ≠ [] := fun hnil =>
      hbelow (upward_eq_nil.mp hnil).1 (upward_eq_nil.mp hnil).2
    refine ⟨"/" ++ d, htail, ?_⟩
    rw [Base.path, Base.path, ← List.append_assoc,
      dirPath_append (upward_components h n) hd.component hne, String.append_assoc]
  | root =>
    rw [Base.path, Base.path, rootPath_concat (Plain.components h) hd.component]
    by_cases hnil : names = []
    · rw [hnil, if_pos rfl]
      exact ⟨d, hd.ne_empty, rfl⟩
    · rw [if_neg hnil]
      exact ⟨"/" ++ d, htail, String.append_assoc⟩

theorem Base.path_lt (h : ∀ name ∈ names, Plain name) (hd : Plain d)
    (hbelow : base = .up 0 → names ≠ []) : base.path names < base.path (names ++ [d]) := by
  obtain ⟨tail, htail, hpath⟩ := Base.path_concat h hd hbelow
  exact hpath ▸ lt_append htail

/-! ## The directories above a file -/

theorem Base.fileDirname_path (h : ∀ name ∈ names, Plain name) (hd : Plain d) :
    fileDirname (base.path (names ++ [d])) = base.path names := by
  cases base with
  | up n =>
    rw [Base.path, Base.path, ← List.append_assoc]
    exact fileDirname_dirPath (upward_components h n) hd.component fun _ => hd.ne_dots
  | root =>
    rw [Base.path, Base.path, rootPath_concat (Plain.components h) hd.component]
    by_cases hnil : names = []
    · have hdrop : ("/" ++ d).toList.reverse.dropWhile (· ≠ '/') = ['/'] := by
        rw [String.toList_append, List.reverse_append, List.dropWhile_append_of_pos]
        · rfl
        · intro c hc
          have hne : c ≠ '/' := fun h => hd.noSlash (h ▸ List.mem_reverse.mp hc)
          simpa using hne
      rw [hnil, if_pos rfl, fileDirname, hdrop]
      rfl
    · rw [if_neg hnil]
      refine fileDirname_append (fun hempty => ?_) hd.noSlash
      have habsolute := rootPath_absolute names
      rw [hempty] at habsolute
      exact habsolute (by decide)

theorem Base.path_eq_dot (h : ∀ name ∈ names, Plain name) :
    base.path names = "." ↔ base = .up 0 ∧ names = [] := by
  constructor
  · intro hpath
    cases base with
    | up n =>
      by_cases hne : List.replicate n ".." ++ names = []
      · exact upward_eq_nil.mp hne
      · have hsplit := fileSplit_dirPath (upward_components h n) hne
        have hdot : "." ∈ List.replicate n ".." ++ names := by
          rw [← hsplit, show dirPath (List.replicate n ".." ++ names) = "." from hpath]
          decide
        rcases List.mem_append.mp hdot with hdot | hdot
        · exact absurd (List.eq_of_mem_replicate hdot) (by decide)
        · exact absurd rfl (h "." hdot).ne_dot
    | root =>
      have habsolute := rootPath_absolute names
      rw [show rootPath names = "." from hpath] at habsolute
      exact absurd (by decide) habsolute
  · rintro ⟨rfl, rfl⟩
    rfl

theorem dirnames_eq (file : Path) : dirnames file =
    if fileDirname file = file ∨ fileDirname file = "." then []
    else fileDirname file :: dirnames (fileDirname file) := by
  rw [dirnames]
  rfl

theorem dirnames_path (h : ∀ name ∈ names, Plain name) (hd : Plain d) :
    dirnames (base.path (names ++ [d])) =
      if base = .up 0 ∧ names = [] then [] else base.path names :: dirnames (base.path names) := by
  rw [dirnames_eq, Base.fileDirname_path h hd]
  by_cases htop : base = .up 0 ∧ names = []
  · have hdot := (Base.path_eq_dot h).mpr htop
    rw [if_pos htop]
    exact if_pos (.inr hdot)
  · have hdot : base.path names ≠ "." := fun hdot => htop ((Base.path_eq_dot h).mp hdot)
    have hlt : base.path names < base.path (names ++ [d]) :=
      Base.path_lt h hd fun hbase hnames => htop ⟨hbase, hnames⟩
    rw [if_neg htop]
    exact if_neg (not_or.mpr ⟨ne_of_lt hlt, hdot⟩)

theorem dirnames_append {init back : List String} (hinit : init ≠ [])
    (h : ∀ name ∈ init ++ d :: back, Plain name) :
    base.path init ∈ dirnames (base.path (init ++ d :: back)) := by
  induction back using List.reverseRecOn with
  | nil =>
    rw [dirnames_path (fun name hname => h name (by simp [hname])) (h d (by simp)),
      if_neg fun htop => hinit htop.2]
    exact List.mem_cons_self
  | append_singleton back e ih =>
    have hnames : ∀ name ∈ init ++ d :: back, Plain name := fun name hname =>
      h name (by rw [← List.cons_append, ← List.append_assoc]; exact List.mem_append_left _ hname)
    rw [← List.cons_append, ← List.append_assoc, dirnames_path hnames (h e (by simp)),
      if_neg fun htop => by simp at htop]
    exact List.mem_cons_of_mem _ (ih hnames)

/-! ## Where a name leads -/

theorem foldl_walk_names (h : ∀ name ∈ names, Plain name) (place : List String) :
    names.foldl walk place = names.reverse ++ place := by
  induction names generalizing place with
  | nil => rfl
  | cons name names ih =>
    have hname : Plain name := h name List.mem_cons_self
    have hroot : name ≠ "/" := fun heq => hname.noSlash (heq ▸ by decide)
    have hwalk : walk place name = name :: place := by
      rw [walk, if_neg (not_or.mpr ⟨hname.ne_empty, hname.ne_dot⟩), if_neg hname.ne_dots,
        if_neg hroot]
    rw [List.foldl_cons, hwalk, ih fun n hn => h n (List.mem_cons_of_mem _ hn)]
    simp

theorem foldl_walk_upward (n : Nat) (place : List String) :
    (List.replicate n "..").foldl walk place = place.drop n := by
  induction n generalizing place with
  | zero => rfl
  | succ n ih =>
    have hwalk : walk place ".." = place.tail := rfl
    rw [List.replicate_succ, List.foldl_cons, hwalk, ih, List.drop_tail]

/-- The parts of a name. -/
theorem Base.fileSplit_path (cwd : List String) (base : Base) (h : ∀ name ∈ names, Plain name) (hne : names ≠ []) :
    ∃ front, fileSplit (base.path names) = front ++ names ∧
      front.foldl walk cwd = base.place cwd := by
  cases base with
  | up n =>
    exact ⟨_, fileSplit_dirPath (upward_components h n) (by simp [hne]), foldl_walk_upward n cwd⟩
  | root =>
    have hsplit := (fileSplit_absolute (rootPath_absolute names)).1
    rw [belowRoot_rootPath (Plain.components h), if_neg hne] at hsplit
    exact ⟨["/", ""], hsplit, rfl⟩

/-- A name leads to its place. -/
theorem target_path (h : ∀ name ∈ names, Plain name) (hne : names ≠ []) :
    target cwd (base.path names) = some (names.reverse ++ base.place cwd) := by
  obtain ⟨front, hsplit, hfront⟩ := base.fileSplit_path cwd h hne
  obtain ⟨init, d, rfl⟩ : ∃ init d, names = init ++ [d] :=
    ⟨_, _, (List.dropLast_concat_getLast hne).symm⟩
  have hd : Plain d := h d (by simp)
  have hlast : ((fileSplit (base.path (init ++ [d]))).filter (· ≠ "")).getLast? = some d := by
    rw [hsplit, ← List.append_assoc, List.filter_append]
    simp [hd.ne_empty]
  have hempty : base.path (init ++ [d]) ≠ "" := by
    intro hempty
    rw [hempty] at hlast
    simp [fileSplit] at hlast
  rw [target, if_neg, locate, hsplit, List.foldl_append, hfront, foldl_walk_names h]
  rw [hlast]
  simp [hempty, hd.ne_dot, hd.ne_dots]

/-- What cannot be deleted under any circumstances. -/
def Fixed (cwd : List String) (dir : Path) : Prop := target cwd dir = none ∨ target cwd dir = some []

theorem fixed_upward (n : Nat) : Fixed cwd (dirPath (List.replicate (n + 1) "..")) := by
  have hsplit := fileSplit_dirPath (dots_components (n + 1)) (by simp)
  have hlast : ((fileSplit (dirPath (List.replicate (n + 1) ".."))).filter (· ≠ "")).getLast? =
      some ".." := by
    rw [hsplit, List.replicate_succ', List.filter_append]
    rw [show [".."].filter (· ≠ "") = [".."] from rfl, List.getLast?_concat]
  exact .inl (if_pos (.inr (by rw [hlast]; decide)))

theorem fixed_root : Fixed cwd "/" := by
  have hsplit : fileSplit "/" = ["/", "", ""] := by decide
  right
  rw [target, if_neg (by decide), locate, hsplit]
  rfl

theorem dirnames_upward (n : Nat) {dir : Path}
    (hdir : dir ∈ dirnames (dirPath (List.replicate n ".."))) : Fixed cwd dir := by
  induction n with
  | zero =>
    rw [dirnames_eq, if_pos (by decide)] at hdir
    exact absurd hdir (by simp)
  | succ n ih =>
    by_cases hn : n = 0
    · subst hn
      rw [dirnames_eq, if_pos (by decide)] at hdir
      exact absurd hdir (by simp)
    · rw [dirnames_eq, List.replicate_succ', fileDirname_dirPath (dots_components n)
        ⟨by decide, by decide⟩ (by simp [hn])] at hdir
      split at hdir
      · exact absurd hdir (by simp)
      · rcases List.mem_cons.mp hdir with rfl | hdir
        · obtain ⟨m, rfl⟩ := Nat.exists_eq_succ_of_ne_zero hn
          exact fixed_upward m
        · exact ih hdir

/-- What the directories above a name are: those on the way to it, and some that stay. -/
theorem mem_dirnames (h : ∀ name ∈ names, Plain name) {dir : Path}
    (hdir : dir ∈ dirnames (base.path names)) :
    (∃ init d back, init ≠ [] ∧ names = init ++ d :: back ∧ dir = base.path init) ∨
      Fixed cwd dir := by
  induction names using List.reverseRecOn with
  | nil =>
    right
    cases base with
    | up n =>
      rw [Base.path, List.append_nil] at hdir
      exact dirnames_upward n hdir
    | root =>
      rw [dirnames_eq, if_pos (by decide)] at hdir
      exact absurd hdir (by simp)
  | append_singleton names d ih =>
    have hnames : ∀ name ∈ names, Plain name := fun name hname => h name (by simp [hname])
    rw [dirnames_path hnames (h d (by simp))] at hdir
    split at hdir
    · exact absurd hdir (by simp)
    · rename_i htop
      rcases List.mem_cons.mp hdir with rfl | hdir
      · by_cases hnil : names = []
        · subst hnil
          right
          cases base with
          | up n =>
            obtain ⟨m, rfl⟩ := Nat.exists_eq_succ_of_ne_zero (n := n) (by simpa using htop)
            rw [Base.path, List.append_nil]
            exact fixed_upward m
          | root => exact fixed_root
        · exact .inl ⟨names, d, [], hnil, rfl, rfl⟩
      · rcases ih hnames hdir with ⟨init, e, back, hinit, rfl, rfl⟩ | hfixed
        · exact .inl ⟨init, e, back ++ [d], hinit, by simp, rfl⟩
        · exact .inr hfixed

end
section
variable {κ : Type*} {cwd : List String} {tree tree' : Trees.Tree String κ}

/-! ## What is deleted -/

theorem fileDelete_getD (tree : Trees.Tree String κ) (dir : Path) :
    (fileDelete cwd tree dir).getD tree = Trees.Tree.visit (target cwd) tree dir := by
  rw [fileDelete, Trees.Tree.visit]
  split
  · rename_i hempty
    rw [target, if_pos (.inl hempty)]
    rfl
  · rfl

theorem removeEmptyDirectories_eq (files : List Path) (tree : Trees.Tree String κ) :
    removeEmptyDirectories cwd files tree =
      Trees.Tree.sweep (target cwd) (lsortDecreasing (files.flatMap dirnames).dedup) tree := by
  rw [removeEmptyDirectories, Trees.Tree.sweep]
  congr 1
  funext tree dir
  exact fileDelete_getD tree dir

theorem mem_lsortDecreasing {l : List Path} {dir : Path} :
    dir ∈ lsortDecreasing l.dedup ↔ dir ∈ l := by
  rw [lsortDecreasing, List.mem_insertionSort, List.mem_dedup]

/-- In decreasing order what is less comes later. -/
theorem lsortDecreasing_later {l front back : List Path} {dir below : Path}
    (hsplit : lsortDecreasing l = front ++ below :: back) (hdir : dir ∈ lsortDecreasing l)
    (hlt : dir < below) : dir ∈ back := by
  have hsorted : (lsortDecreasing l).Pairwise (· ≥ ·) := List.pairwise_insertionSort _ l
  rw [hsplit, List.pairwise_append] at hsorted
  rw [hsplit] at hdir
  rcases List.mem_append.mp hdir with hfront | hdir
  · exact absurd hlt (not_lt_of_ge (hsorted.2.2 dir hfront below List.mem_cons_self))
  · rcases List.mem_cons.mp hdir with rfl | hback
    · exact absurd hlt (lt_irrefl _)
    · exact hback

/-- What `file delete` does with one name. -/
theorem entry_fileDelete {path : Path} (h : fileDelete cwd tree path = some tree') :
    path = "" ∧ tree' = tree ∨ ∃ place, target cwd path = some place ∧
      tree.delete place = some tree' := by
  rw [fileDelete] at h
  split at h
  · rename_i hempty
    exact .inl ⟨hempty, (Option.some.inj h).symm⟩
  · obtain ⟨place, htarget, hdelete⟩ := Option.bind_eq_some_iff.mp h
    exact .inr ⟨place, htarget, hdelete⟩

/-- A file is left, or was named and is gone. -/
theorem entry_fileDeleteAll (files : List Path) (tree : Trees.Tree String κ) (p : List String) :
    (fileDeleteAll cwd files tree).2.entry p = tree.entry p ∨
      (fileDeleteAll cwd files tree).2.entry p = none ∧ some p ∈ files.map (target cwd) := by
  induction files generalizing tree with
  | nil => exact .inl rfl
  | cons file files ih =>
    rw [fileDeleteAll]
    cases hdelete : fileDelete cwd tree file with
    | none => exact .inl rfl
    | some tree' =>
      have hfirst : tree'.entry p = tree.entry p ∨ tree'.entry p = none ∧ target cwd file = some p := by
        rcases entry_fileDelete hdelete with ⟨-, rfl⟩ | ⟨place, htarget, hplace⟩
        · exact .inl rfl
        · rw [(Trees.Tree.delete_spec hplace).2.2 p]
          by_cases hp : p = place
          · exact .inr ⟨if_pos hp, hp ▸ htarget⟩
          · exact .inl (if_neg hp)
      rcases ih tree' with h | ⟨h, hmem⟩
      · rcases hfirst with h' | ⟨h', htarget⟩
        · exact .inl (h.trans h')
        · exact .inr ⟨h.trans h', List.mem_map.mpr ⟨file, List.mem_cons_self, htarget⟩⟩
      · exact .inr ⟨h, List.mem_cons_of_mem _ hmem⟩

/-- After the files have been deleted none of them is left. -/
theorem fileDeleteAll_gone {files : List Path} {tree : Trees.Tree String κ} {p : List String}
    (hdone : (fileDeleteAll cwd files tree).1 = true) (hp : some p ∈ files.map (target cwd)) :
    (fileDeleteAll cwd files tree).2.entry p = none := by
  induction files generalizing tree with
  | nil => exact absurd hp (by simp)
  | cons file files ih =>
    rw [fileDeleteAll] at hdone ⊢
    cases hdelete : fileDelete cwd tree file with
    | none =>
      rw [hdelete] at hdone
      contradiction
    | some tree' =>
      rw [hdelete] at hdone
      by_cases hback : some p ∈ files.map (target cwd)
      · exact ih hdone hback
      · have hfile : target cwd file = some p :=
          (List.mem_cons.mp hp).resolve_right hback |>.symm
        have hgone : tree'.entry p = none := by
          rcases entry_fileDelete hdelete with ⟨hempty, -⟩ | ⟨place, htarget, hplace⟩
          · rw [target, if_pos (.inl hempty)] at hfile
            contradiction
          · obtain rfl := Option.some.inj (htarget.symm.trans hfile)
            rw [(Trees.Tree.delete_spec hplace).2.2 place, if_pos rfl]
        rcases entry_fileDeleteAll files tree' p with h | ⟨h, -⟩
        · exact h.trans hgone
        · exact h

/-- No name of the list stood behind a file. -/
theorem fileDeleteAll_above {files : List Path} {tree : Trees.Tree String κ} {place above : List String}
    (hdone : (fileDeleteAll cwd files tree).1 = true) (hplace : some place ∈ files.map (target cwd))
    (habove : above <:+ place) (hne : above ≠ place) (c : κ) :
    (fileDeleteAll cwd files tree).2.entry above ≠ some (.file c) := by
  induction files generalizing tree with
  | nil => exact absurd hplace (by simp)
  | cons file files ih =>
    intro hfile
    have hentry : tree.entry above = some (.file c) := by
      rcases entry_fileDeleteAll (file :: files) tree above with h | ⟨h, -⟩
      · exact h.symm.trans hfile
      · exact absurd (h.symm.trans hfile) (by simp)
    rw [fileDeleteAll] at hdone hfile
    cases hdelete : fileDelete cwd tree file with
    | none =>
      rw [hdelete] at hdone
      contradiction
    | some tree' =>
      rw [hdelete] at hdone hfile
      rcases List.mem_cons.mp hplace with hfirst | hback
      · rcases entry_fileDelete hdelete with ⟨hempty, -⟩ | ⟨place', htarget, hplace'⟩
        · rw [target, if_pos (.inl hempty)] at hfirst
          contradiction
        · obtain rfl := Option.some.inj (htarget.symm.trans hfirst.symm)
          exact Trees.Tree.delete_above hplace' habove hne c hentry
      · exact ih hdone hback hfile

/-! ## What the names lead to -/

theorem Base.place_suffix (base : Base) (cwd : List String) : base.place cwd <:+ cwd := by
  cases base with
  | up n => exact List.drop_suffix n cwd
  | root => exact List.nil_suffix

namespace FileName

theorem target_eq (f : FileName cwd) : target cwd f.path = some f.place :=
  target_path f.plain f.ne_nil

theorem mem_targets {files : List (FileName cwd)} {p : List String} :
    some p ∈ (files.map path).map (target cwd) ↔ ∃ f ∈ files, f.place = p := by
  simp only [List.map_map, List.mem_map, Function.comp_apply, target_eq, Option.some_inj]

/-- No name leads to the working directory. -/
theorem place_ne (f : FileName cwd) {init back : List String} (hnames : f.names = init ++ back)
    (hinit : init ≠ []) : init.reverse ++ f.base.place cwd ≠ cwd := by
  intro heq
  by_cases hbase : f.base = .up 0
  · have hlength := congrArg List.length heq
    rw [hbase] at hlength
    have hpos := List.length_pos_iff.mpr hinit
    simp only [List.length_append, List.length_reverse, Base.place, List.drop_zero] at hlength
    omega
  · apply f.outside hbase
    rw [hnames, List.reverse_append, List.append_assoc, heq]
    exact List.suffix_append _ _

/-- A directory above a file that is not also above the working directory is on the way of the
name. -/
theorem on_way (f : FileName cwd) {place : List String} (hplace : place <:+ f.place)
    (hne : place ≠ f.place) (hcwd : ¬place <:+ cwd) :
    ∃ init d back, init ≠ [] ∧ f.names = init ++ d :: back ∧
      place = init.reverse ++ f.base.place cwd := by
  have hbase := f.base.place_suffix cwd
  rcases List.suffix_or_suffix_of_suffix hplace (List.suffix_append f.names.reverse _) with h | h
  · exact absurd (h.trans hbase) hcwd
  · obtain ⟨way, rfl⟩ := h
    have hway : way <:+ f.names.reverse := List.suffix_append_self_iff.mp hplace
    obtain ⟨back, hback⟩ := List.reverse_prefix.mpr hway
    rw [List.reverse_reverse] at hback
    cases back with
    | nil =>
      refine absurd ?_ hne
      rw [place, ← hback, List.append_nil, List.reverse_reverse]
    | cons d back =>
      refine ⟨way.reverse, d, back, ?_, hback.symm, by rw [List.reverse_reverse]⟩
      intro hnil
      rw [List.reverse_eq_nil_iff.mp hnil, List.nil_append] at hcwd
      exact hcwd hbase

end FileName

/-- A directory above one of the files. -/
def Above (files : List (FileName cwd)) (place : List String) : Prop :=
  ∃ f ∈ files, place <:+ f.place ∧ place ≠ f.place

/-- The name of something that is no directory and does not stand behind a file. -/
structure Regular (tree : Trees.Tree String κ) (f : FileName cwd) : Prop where
  file : tree.entry f.place ≠ some .directory
  above : ∀ place, place <:+ f.place → place ≠ f.place → ∀ c, tree.entry place ≠ some (.file c)

/-- What is left of a tree from which the files have been cleaned. -/
structure Cleaned (tree : Trees.Tree String κ) (files : List (FileName cwd))
    (done : Bool × Trees.Tree String κ) : Prop where
  /-- The files are gone. -/
  gone : done.1 = true → ∀ f ∈ files, done.2.entry f.place = none
  /-- No directory above a file is left empty, except the root and the working directory. -/
  occupied : done.1 = true → ∀ place, Above files place → place ≠ [] → place ≠ cwd →
    done.2.entry place = some .directory → done.2.occupied place = true
  /-- A directory that is gone contained nothing but files of the list, and directories above
  them, which are gone with it. -/
  contained : ∀ place, tree.entry place = some .directory → done.2.entry place = none →
    ∀ p, place <:+ p → tree.entry p ≠ none → done.2.entry p = none ∧
      ((∃ f ∈ files, f.place = p) ∨ Above files p ∧ tree.entry p = some .directory)
  /-- Nothing goes wrong unless a directory is listed or what would stand behind a file. -/
  returns : (∀ f ∈ files, Regular tree f) → done.1 = true

/-- The directories in the order in which they are tried. -/
def sweepOrder (files : List (FileName cwd)) : List Path :=
  lsortDecreasing ((files.map FileName.path).flatMap dirnames).dedup

theorem mem_sweepOrder {files : List (FileName cwd)} {dir : Path} :
    dir ∈ sweepOrder files ↔ ∃ f ∈ files, dir ∈ dirnames f.path := by
  rw [sweepOrder, mem_lsortDecreasing, List.mem_flatMap]
  simp only [List.mem_map, exists_exists_and_eq_and]

/-- What a directory of the order leads to. -/
theorem target_sweepOrder {files : List (FileName cwd)} {dir : Path} {name : String}
    {place : List String} (hdir : dir ∈ sweepOrder files) (h : target cwd dir = some (name :: place)) :
    ∃ f ∈ files, ∃ init d back, init ≠ [] ∧ f.names = init ++ d :: back ∧
      dir = f.base.path init ∧ name :: place = init.reverse ++ f.base.place cwd := by
  obtain ⟨f, hf, hmem⟩ := mem_sweepOrder.mp hdir
  rcases mem_dirnames f.plain hmem with ⟨init, d, back, hinit, hnames, rfl⟩ | hfixed | hfixed
  · have hplain : ∀ n ∈ init, Plain n := fun n hn => f.plain n (hnames ▸ List.mem_append_left _ hn)
    rw [target_path hplain hinit] at h
    exact ⟨f, hf, init, d, back, hinit, hnames, rfl, (Option.some.inj h).symm⟩
  · exact absurd (hfixed.symm.trans h) (by simp)
  · exact absurd (hfixed.symm.trans h) (by simp)

/-- The directory above one that is tried is tried later. -/
theorem sweepOrder_later {files : List (FileName cwd)} {place : List String}
    (hcwd : ¬place <:+ cwd) {front back : List Path} {dir : Path} {name : String}
    (hsplit : sweepOrder files = front ++ dir :: back)
    (htarget : target cwd dir = some (name :: place)) : some place ∈ back.map (target cwd) := by
  obtain ⟨f, hf, init, d, rest, hinit, hnames, rfl, hplace⟩ :=
    target_sweepOrder (hsplit ▸ List.mem_append_right front List.mem_cons_self) htarget
  obtain ⟨init, e, rfl⟩ : ∃ init' e, init = init' ++ [e] :=
    ⟨_, _, (List.dropLast_concat_getLast hinit).symm⟩
  rw [List.reverse_append] at hplace
  obtain ⟨-, rfl⟩ := List.cons.inj hplace
  have hnil : init ≠ [] := by
    rintro rfl
    exact hcwd (f.base.place_suffix cwd)
  have hplain := hnames ▸ f.plain
  have hinitPlain : ∀ n ∈ init, Plain n := fun n hn => hplain n (by simp [hn])
  have hmem : f.base.path init ∈ sweepOrder files := by
    refine mem_sweepOrder.mpr ⟨f, hf, ?_⟩
    rw [FileName.path, hnames, List.append_assoc]
    rw [List.append_assoc] at hplain
    exact dirnames_append hnil hplain
  have hlt : f.base.path init < f.base.path (init ++ [e]) :=
    Base.path_lt hinitPlain (hplain e (by simp)) fun _ => hnil
  exact List.mem_map.mpr ⟨_, lsortDecreasing_later hsplit hmem hlt, target_path hinitPlain hnil⟩

theorem FileName.above_of_names (f : FileName cwd) {init back : List String}
    (hnames : f.names = init ++ back) (hback : back ≠ []) :
    init.reverse ++ f.base.place cwd <:+ f.place ∧ init.reverse ++ f.base.place cwd ≠ f.place := by
  rw [place, hnames, List.reverse_append, List.append_assoc]
  refine ⟨List.suffix_append _ _, fun heq => hback ?_⟩
  exact List.reverse_eq_nil_iff.mp (List.self_eq_append_left.mp heq)

/-- A file that is deleted makes room for no other. -/
theorem Regular.delete {f : FileName cwd} {place : List String} (h : Regular tree f)
    (hdelete : tree.delete place = some tree') : Regular tree' f := by
  have hentry := (Trees.Tree.delete_spec hdelete).2.2
  constructor
  · rw [hentry]
    split
    · simp
    · exact h.file
  · intro above habove hne c
    rw [hentry]
    split
    · simp
    · exact h.above above habove hne c

theorem Regular.isSome {f : FileName cwd} (h : Regular tree f) :
    (fileDelete cwd tree f.path).isSome = true := by
  have hroot : f.place ≠ [] := by
    intro hnil
    exact f.ne_nil (List.reverse_eq_nil_iff.mp (List.append_eq_nil_iff.mp hnil).1)
  rw [fileDelete]
  split
  · rfl
  · rw [f.target_eq]
    refine Trees.Tree.delete_isSome hroot (fun hocc => ?_) fun hnone hblocked => ?_
    · obtain ⟨name, hname⟩ := tree.occupied_iff.mp hocc
      exact h.file (tree.directory_of_entry hname)
    · obtain ⟨above, c, habove, hfile⟩ := Trees.Tree.blocked_iff.mp hblocked
      by_cases hne : above = f.place
      · rw [hne, hnone] at hfile
        contradiction
      · exact h.above above habove hne c hfile

theorem fileDeleteAll_returns {files : List (FileName cwd)} {tree : Trees.Tree String κ}
    (h : ∀ f ∈ files, Regular tree f) : (fileDeleteAll cwd (files.map FileName.path) tree).1 = true := by
  induction files generalizing tree with
  | nil => rfl
  | cons f files ih =>
    have hf := h f List.mem_cons_self
    obtain ⟨tree', htree'⟩ := Option.isSome_iff_exists.mp hf.isSome
    rw [List.map_cons, fileDeleteAll, htree']
    refine ih fun g hg => ?_
    have hregular := h g (List.mem_cons_of_mem _ hg)
    rcases entry_fileDelete htree' with ⟨-, rfl⟩ | ⟨place, -, hplace⟩
    · exact hregular
    · exact hregular.delete hplace

section
variable {files : List (FileName cwd)}

theorem cleanFiles_eq (files : List (FileName cwd)) (tree : Trees.Tree String κ) :
    cleanFiles cwd (files.map FileName.path) tree =
      let deleted := fileDeleteAll cwd (files.map FileName.path) tree
      (deleted.1, if deleted.1 = true then Trees.Tree.sweep (target cwd) (sweepOrder files) deleted.2
        else deleted.2) := by
  rw [cleanFiles]
  split
  · rename_i hnil
    rw [List.map_eq_nil_iff.mp hnil]
    rfl
  · cases hdeleted : fileDeleteAll cwd (files.map FileName.path) tree with
    | mk ok tree' =>
      cases ok with
      | false => rfl
      | true =>
        dsimp only
        rw [removeEmptyDirectories_eq, if_pos rfl]
        rfl

/-- What is gone stood on the way of a name: at its end or, a directory, before. -/
theorem cleanFiles_gone (tree : Trees.Tree String κ) {p : List String} (hthere : tree.entry p ≠ none)
    (hgone : (cleanFiles cwd (files.map FileName.path) tree).2.entry p = none) :
    ∃ f ∈ files, ∃ init back, init ≠ [] ∧ f.names = init ++ back ∧
      p = init.reverse ++ f.base.place cwd ∧ (back ≠ [] → tree.entry p = some .directory) := by
  rw [cleanFiles_eq] at hgone
  dsimp only at hgone
  rcases entry_fileDeleteAll (files.map FileName.path) tree p with h | ⟨-, hmem⟩
  · split at hgone
    · rename_i hdone
      rcases Trees.Tree.entry_sweep (target cwd) (sweepOrder files) _ p with hsweep | ⟨-, hmem⟩
      · exact absurd (h.symm.trans (hsweep.symm.trans hgone)) hthere
      obtain ⟨dir, hdir, htarget⟩ := List.mem_map.mp hmem
      cases p with
      | nil => exact absurd hgone (by simp)
      | cons name place =>
        obtain ⟨f, hf, init, d, back, hinit, hnames, -, hplace⟩ := target_sweepOrder hdir htarget
        refine ⟨f, hf, init, d :: back, hinit, hnames, hplace, fun _ => ?_⟩
        have habove := f.above_of_names hnames (by simp)
        rw [← hplace] at habove
        cases hentry : tree.entry (name :: place) with
        | none => exact absurd hentry hthere
        | some e =>
          cases e with
          | directory => rfl
          | file c =>
            have hf' := FileName.mem_targets.mpr ⟨f, hf, rfl⟩
            exact absurd (h.trans hentry) (fileDeleteAll_above hdone hf' habove.1 habove.2 c)
    · exact absurd (h.symm.trans hgone) hthere
  · obtain ⟨f, hf, rfl⟩ := FileName.mem_targets.mp hmem
    exact ⟨f, hf, f.names, [], f.ne_nil, (List.append_nil _).symm, rfl, fun h => absurd rfl h⟩

/-- The working directory stays. -/
theorem cleanFiles_cwd (tree : Trees.Tree String κ) (hcwd : tree.entry cwd = some .directory) :
    (cleanFiles cwd (files.map FileName.path) tree).2.entry cwd ≠ none := by
  intro hgone
  obtain ⟨f, -, init, back, hinit, hnames, hplace, -⟩ :=
    cleanFiles_gone tree (hcwd ▸ Option.some_ne_none _) hgone
  exact f.place_ne hnames hinit hplace.symm

/-- No directory above a file is left empty. -/
theorem cleanFiles_occupied (tree : Trees.Tree String κ) (hcwd : tree.entry cwd = some .directory)
    (hdone : (cleanFiles cwd (files.map FileName.path) tree).1 = true) {place : List String}
    (habove : Above files place) (hroot : place ≠ []) (hne : place ≠ cwd)
    (hend : (cleanFiles cwd (files.map FileName.path) tree).2.entry place ≠ none) :
    (cleanFiles cwd (files.map FileName.path) tree).2.occupied place = true := by
  by_cases hup : place <:+ cwd
  · -- above the working directory
    obtain ⟨name, hname⟩ := proper_suffix hup hne
    exact Trees.Tree.occupied_of_entry _ (Trees.Tree.entry_of_suffix _ (cleanFiles_cwd tree hcwd) hname)
  · obtain ⟨f, hf, hplace, hnot⟩ := habove
    obtain ⟨init, d, back, hinit, hnames, rfl⟩ := f.on_way hplace hnot hup
    have hplain := hnames ▸ f.plain
    have hmem : f.base.path init ∈ sweepOrder files := by
      refine mem_sweepOrder.mpr ⟨f, hf, ?_⟩
      rw [FileName.path, hnames]
      exact dirnames_append hinit hplain
    have htarget : target cwd (f.base.path init) = some (init.reverse ++ f.base.place cwd) :=
      target_path (fun n hn => hplain n (List.mem_append_left _ hn)) hinit
    rw [cleanFiles_eq] at hdone hend ⊢
    dsimp only at hdone hend ⊢
    rw [if_pos hdone] at hend ⊢
    exact Trees.Tree.occupied_sweep (target cwd) hroot (.inr (List.mem_map.mpr ⟨_, hmem, htarget⟩))
      (fun front dir back name hsplit hdir => sweepOrder_later hup hsplit hdir) hend

/-- A file in a directory in a directory, and nothing else. -/
def nested : Trees.Tree String Unit where
  entries := ⟨[⟨["project"], .directory⟩, ⟨["a", "project"], .directory⟩,
    ⟨["b", "a", "project"], .directory⟩, ⟨["x", "b", "a", "project"], .file ()⟩],
    show List.Nodup [_, _, _, _] from by decide⟩
  rooted := by decide
  closed := by
    have hclosed : ∀ key ∈ [["project"], ["a", "project"], ["b", "a", "project"],
        ["x", "b", "a", "project"]], key.tail ≠ [] →
        key.tail = ["project"] ∨ key.tail = ["a", "project"] ∨ key.tail = ["b", "a", "project"] := by
      decide
    intro name place h hne
    obtain rfl | rfl | rfl : place = _ ∨ place = _ ∨ place = _ := hclosed _ h hne
    all_goals rfl

end
end
end Tmake.CleanFiles
