import TmakeProof.FileJoin
import TmakeProof.Lexicographic

/-! # Paths relative to a directory

`relative-path` of two absolute paths: it walks along both as long as they agree,
goes up from what is left of the directory, and down what is left of the path.
Where they agree in nothing but the root, the path is left as it is.  In any case
`file-join` undoes it.

`build` makes the files of a `-chdir` rule relative to the directory in which its
commands run.
-/
namespace Tmake
open Lexical Lexicographic

/-- What `relative-path` asks the system: which files there are, the names of files without
symbolic links, and the current directory. -/
structure PathEnv where
  fileExists : Path → Bool
  fileNormalize : Path → Path
  pwd : Path

/-- `split $path /`. -/
def splitPath (path : Path) : List String :=
  if path = "" then [] else (splitSlash path.toList).map String.ofList

/-- The loop over the levels of both paths: how many are identical, and whether it ends at one
that is not. -/
def identicalLevels : List (String × String) → Nat → Nat × Bool
  | [], n => (n, false)
  | (i, j) :: rest, n => if i ≠ j then (n, true) else identicalLevels rest (n + 1)

/-- The second half of `relative-path`, for paths that differ. -/
def relativeLevels (path pwd : Path) : Path :=
  match identicalLevels (zipPadded "" (splitPath path) (splitPath pwd)) 0 with
  | (n, stripped) =>
    let splitpath := if stripped then (splitPath path).drop n else splitPath path
    let splitpwd := if stripped then (splitPath pwd).drop n else splitPath pwd
    if n = 1 then path
    else String.intercalate "/" (List.replicate splitpwd.length ".." ++ splitpath)

/-- `relative-path`. -/
def relativePath (env : PathEnv) (path pwd : Path) : Path :=
  let path := if Relative path ∧ env.fileExists path then env.fileNormalize path else path
  let pwd := if pwd = "" then env.pwd else env.fileNormalize pwd
  if path = pwd then "." else relativeLevels path pwd

/-- How `build` rewrites the inputs, the dependencies and the targets of a `-chdir` rule. -/
def chdirFiles (env : PathEnv) (topsrcdir chdir : Path) (files : List Path) : List Path :=
  files.map fun p => relativePath env (fileJoin topsrcdir p) chdir

/-- An absolute path in normal form. -/
def Normalised (path : Path) : Prop := ∃ names, (∀ name ∈ names, Plain name) ∧ path = rootPath names

/-! ## Splitting and joining -/

section
variable {names xs ys zs : List String} {path pwd : Path}

theorem dirPath_eq_intercalate (h : ∀ name ∈ names, Component name) (hne : names ≠ []) :
    dirPath names = String.intercalate "/" names := by
  induction names using List.reverseRecOn with
  | nil => exact absurd rfl hne
  | append_singleton names name ih =>
    have hname : Component name := h name (by simp)
    have hnames : ∀ name ∈ names, Component name := fun name hname => h name (by simp [hname])
    by_cases hnil : names = []
    · subst hnil
      rw [dirPath_concat hname, if_pos rfl]
      exact String.intercalate_singleton.symm
    · rw [dirPath_append hnames hname hnil, ih hnames hnil,
        String.intercalate_append_of_ne_nil hnil (by simp), String.intercalate_singleton]

theorem splitPath_relative (h : Relative path) : splitPath path = fileSplit path := by
  rw [splitPath, fileSplit]
  split
  · rfl
  · rw [if_neg h]

/-- The levels of an absolute path, after the empty one before the root. -/
theorem splitPath_rootPath (h : ∀ name ∈ names, Component name) :
    splitPath (rootPath names) = "" :: if names = [] then [""] else names := by
  by_cases hnil : names = []
  · subst hnil
    decide
  · have hlist : ("/" ++ dirPath names).toList = '/' :: (dirPath names).toList := by
      rw [String.toList_append]
      rfl
    have hne : "/" ++ dirPath names ≠ "" := by simp [String.append_eq_empty_iff]
    have hrest : (splitSlash (dirPath names).toList).map String.ofList = names := by
      have hsplit := splitPath_relative (relative_dirPath h)
      rwa [splitPath, if_neg (dirPath_last h).1, fileSplit_dirPath h hnil] at hsplit
    rw [rootPath, if_neg hnil, if_neg hnil, splitPath, if_neg hne, hlist, splitSlash]
    cases hsplit : splitSlash (dirPath names).toList with
    | nil => exact absurd hsplit (splitSlash_ne_nil _)
    | cons p ps =>
      rw [hsplit] at hrest
      dsimp only
      rw [if_pos rfl, List.map_cons, hrest]

theorem belowRoot_rootPath (h : ∀ name ∈ names, Component name) :
    belowRoot (rootPath names) = if names = [] then [""] else names := by
  have habsolute := rootPath_absolute names
  have hsplit := splitPath_rootPath h
  have hparts := (fileSplit_absolute habsolute).1
  have hne : rootPath names ≠ "" := by
    intro heq
    rw [heq] at habsolute
    exact habsolute (by decide)
  rw [splitPath, if_neg hne] at hsplit
  rw [fileSplit, if_neg hne, if_pos (not_not.mp habsolute), hsplit] at hparts
  exact (List.cons.inj (List.cons.inj hparts).2).2.symm

theorem identicalLevels_cons_ne {i j : String} (h : i ≠ j) (rest : List (String × String)) (n : Nat) :
    identicalLevels ((i, j) :: rest) n = (n, true) := by
  rw [identicalLevels, if_pos h]

theorem identicalLevels_cons_self (i : String) (rest : List (String × String)) (n : Nat) :
    identicalLevels ((i, i) :: rest) n = identicalLevels rest (n + 1) := by
  rw [identicalLevels, if_neg (not_not.mpr rfl)]

/-- For different names the loop ends at the first level in which they differ. -/
theorem identicalLevels_names (hxs : ∀ x ∈ xs, Component x) (hys : ∀ y ∈ ys, Component y)
    (hne : xs ≠ ys) (n : Nat) :
    ∃ zs xs' ys', xs = zs ++ xs' ∧ ys = zs ++ ys' ∧
      identicalLevels (zipPadded "" xs ys) n = (n + zs.length, true) := by
  induction xs generalizing ys n with
  | nil =>
    rcases ys with _ | ⟨y, ys⟩
    · exact absurd rfl hne
    · have hy : "" ≠ y := (hys y (by simp)).ne_empty.symm
      exact ⟨[], [], y :: ys, rfl, rfl, identicalLevels_cons_ne hy _ n⟩
  | cons x xs ih =>
    rcases ys with _ | ⟨y, ys⟩
    · exact ⟨[], x :: xs, [], rfl, rfl, identicalLevels_cons_ne (hxs x (by simp)).ne_empty _ n⟩
    · by_cases hxy : x = y
      · subst hxy
        obtain ⟨zs, xs', ys', rfl, rfl, hlevels⟩ := ih (fun x hx => hxs x (by simp [hx]))
          (fun y hy => hys y (List.mem_cons_of_mem _ hy)) (fun heq => hne (by rw [heq])) (n + 1)
        refine ⟨x :: zs, xs', ys', rfl, rfl, ?_⟩
        have hcount : n + 1 + zs.length = n + (x :: zs).length := by
          rw [List.length_cons]
          omega
        rw [← hcount, ← hlevels]
        exact identicalLevels_cons_self x _ n
      · exact ⟨[], x :: xs, y :: ys, rfl, rfl, identicalLevels_cons_ne hxy _ n⟩

/-! ## Going up and down -/

theorem foldl_joinStep_plain (h : ∀ name ∈ names, Plain name) (stack : List String) :
    names.foldl joinStep stack = names.reverse ++ stack := by
  induction names generalizing stack with
  | nil => rfl
  | cons name names ih =>
    rw [List.foldl_cons, joinStep_name (h name (by simp)), ih fun name hname => h name (by simp [hname])]
    simp

/-- As many `..`s as there are names lead back. -/
theorem foldl_joinStep_dots (h : ∀ name ∈ names, Plain name) (stack : List String) :
    (List.replicate names.length "..").foldl joinStep (names.reverse ++ stack) = stack := by
  induction names using List.reverseRecOn with
  | nil => rfl
  | append_singleton names name ih =>
    have hname : Plain name := h name (by simp)
    have hpops : joinStep ((names ++ [name]).reverse ++ stack) ".." = names.reverse ++ stack := by
      rw [List.reverse_concat, List.cons_append, joinStep_dots, if_neg]
      · rfl
      · simp [hname.ne_dots, hname.ne_empty]
    rw [List.length_append, List.length_singleton, List.replicate_succ, List.foldl_cons, hpops,
      ih fun name hname => h name (by simp [hname])]

theorem namesOf_plain (h : ∀ name ∈ names, Plain name) : namesOf names.reverse = names.reverse :=
  List.filter_eq_self.mpr fun name hname => by
    simpa using (h name (List.mem_reverse.mp hname)).ne_empty

/-- A path in normal form is not changed, and replaces any directory. -/
theorem fileJoin_rootPath (h : ∀ name ∈ names, Plain name) (d : Path) :
    fileJoin d (rootPath names) = rootPath names := by
  have hnames := Plain.components h
  have habsolute := rootPath_absolute names
  rw [fileJoin_absolute (.inr habsolute), rootedParts, if_neg habsolute, belowRoot_rootPath hnames]
  by_cases hnil : names = []
  · subst hnil
    decide
  · rw [if_neg hnil, joinStack, foldl_joinStep_plain h, List.append_nil, namesOf_plain h,
      List.reverse_reverse]

/-- Up from what is left of the directory and down what is left of the path. -/
theorem fileJoin_up_down {xs' ys' : List String} (hzs : ∀ z ∈ zs, Plain z) (hxs : ∀ x ∈ xs', Plain x)
    (hys : ∀ y ∈ ys', Plain y) (hzs' : zs ≠ []) (hne : xs' ≠ [] ∨ ys' ≠ []) :
    fileJoin (rootPath (zs ++ ys'))
        (String.intercalate "/" (List.replicate ys'.length ".." ++ xs')) =
      rootPath (zs ++ xs') := by
  have hdown : ∀ name ∈ List.replicate ys'.length ".." ++ xs', Component name := by
    rw [List.forall_mem_append]
    refine ⟨fun name hname => ?_, Plain.components hxs⟩
    rw [List.eq_of_mem_replicate hname]
    exact ⟨by decide, by decide⟩
  have hdown' : List.replicate ys'.length ".." ++ xs' ≠ [] := by
    rcases hne with hne | hne <;> simp [hne]
  have hrelative := relative_dirPath hdown
  have hdir : ∀ name ∈ zs ++ ys', Plain name := List.forall_mem_append.mpr ⟨hzs, hys⟩
  have hpath : ∀ name ∈ zs ++ xs', Plain name := List.forall_mem_append.mpr ⟨hzs, hxs⟩
  have hstack : joinStack (zs ++ ys' ++ (List.replicate ys'.length ".." ++ xs')) =
      (zs ++ xs').reverse := by
    rw [joinStack, List.foldl_append, foldl_joinStep_plain hdir, List.append_nil, List.foldl_append,
      List.reverse_append, foldl_joinStep_dots hys, foldl_joinStep_plain hxs, List.reverse_append]
  rw [← dirPath_eq_intercalate hdown hdown', fileJoin_absolute (.inl (rootPath_absolute _)),
    rootedParts, if_pos hrelative, belowRoot_rootPath (Plain.components hdir), if_neg (by simp [hzs']),
    fileSplit_dirPath hdown hdown', hstack, namesOf_plain hpath,
    List.reverse_reverse]

/-- The second half of `relative-path`: the path itself, if only the root is common. -/
theorem relativeLevels_rootPath (hxs : ∀ x ∈ xs, Component x) (hys : ∀ y ∈ ys, Component y)
    (hne : xs ≠ ys) :
    ∃ zs xs' ys', xs = zs ++ xs' ∧ ys = zs ++ ys' ∧ relativeLevels (rootPath xs) (rootPath ys) =
      if zs = [] then rootPath xs
      else String.intercalate "/" (List.replicate ys'.length ".." ++ xs') := by
  have hfirst (l m : List String) :
      identicalLevels (zipPadded "" ("" :: l) ("" :: m)) 0 = identicalLevels (zipPadded "" l m) 1 :=
    identicalLevels_cons_self "" _ 0
  rw [relativeLevels, splitPath_rootPath hxs, splitPath_rootPath hys, hfirst]
  by_cases hx : xs = []
  · obtain ⟨y, l, rfl⟩ := List.exists_cons_of_ne_nil fun hy => hne (hx.trans hy.symm)
    have hy : "" ≠ y := (hys y (by simp)).ne_empty.symm
    refine ⟨[], xs, y :: l, rfl, rfl, ?_⟩
    rw [if_pos hx, if_neg (by simp), zipPadded_cons_cons, identicalLevels_cons_ne hy]
    rfl
  by_cases hy : ys = []
  · obtain ⟨x, l, rfl⟩ := List.exists_cons_of_ne_nil hx
    refine ⟨[], x :: l, ys, rfl, rfl, ?_⟩
    rw [if_neg hx, if_pos hy, zipPadded_cons_cons,
      identicalLevels_cons_ne (hxs x (by simp)).ne_empty]
    rfl
  · obtain ⟨zs, xs', ys', hxs', hys', hlevels⟩ := identicalLevels_names hxs hys hne 1
    refine ⟨zs, xs', ys', hxs', hys', ?_⟩
    rw [if_neg hx, if_neg hy, hlevels]
    have hdrop (l l' : List String) (h : l = zs ++ l') : ("" :: l).drop (1 + zs.length) = l' := by
      rw [h, Nat.add_comm, List.drop_succ_cons, List.drop_left]
    dsimp only
    rw [if_pos rfl, if_pos rfl, hdrop _ _ hxs', hdrop _ _ hys']
    by_cases hzs : zs = []
    · rw [if_pos hzs, if_pos (by rw [hzs]; rfl)]
    · have := List.length_pos_of_ne_nil hzs
      rw [if_neg hzs, if_neg (by omega)]

theorem fileJoin_relativeLevels (hxs : ∀ x ∈ xs, Plain x) (hys : ∀ y ∈ ys, Plain y) (hne : xs ≠ ys) :
    fileJoin (rootPath ys) (relativeLevels (rootPath xs) (rootPath ys)) = rootPath xs := by
  obtain ⟨zs, xs', ys', rfl, rfl, hlevels⟩ :=
    relativeLevels_rootPath (Plain.components hxs) (Plain.components hys) hne
  rw [hlevels]
  split
  · exact fileJoin_rootPath hxs _
  · rename_i hzs
    rw [List.forall_mem_append] at hxs hys
    refine fileJoin_up_down hxs.1 hxs.2 hys.2 hzs ?_
    by_contra hnil
    rw [not_or, not_not, not_not] at hnil
    exact hne (by rw [hnil.1, hnil.2])

end

/-- `relative-path` of two absolute paths. -/
theorem relativePath_rootPath (env : PathEnv) (xs ys : List String)
    (hnormal : env.fileNormalize (rootPath ys) = rootPath ys) :
    relativePath env (rootPath xs) (rootPath ys) =
      if rootPath xs = rootPath ys then "." else relativeLevels (rootPath xs) (rootPath ys) := by
  have hne : rootPath ys ≠ "" := fun heq => rootPath_absolute ys (by rw [heq]; decide)
  simp only [relativePath, if_neg fun h => rootPath_absolute xs (And.left h), if_neg hne, hnormal]

theorem fileJoin_dot (h : ∀ name ∈ ys, Plain name) : fileJoin (rootPath ys) "." = rootPath ys := by
  rw [fileJoin_absolute (.inl (rootPath_absolute ys)), rootedParts, if_pos (by decide),
    belowRoot_rootPath (Plain.components h), show fileSplit "." = ["."] by decide, joinStack_concat,
    joinStep_dot]
  by_cases hnil : ys = []
  · subst hnil
    decide
  · rw [if_neg hnil, joinStack, foldl_joinStep_plain h, List.append_nil, namesOf_plain h,
      List.reverse_reverse]

/-- **`relative-path` is a right inverse of `file-join`**, for all absolute paths in normal form;
so the files of a `-chdir` rule, seen from its directory, are the same as before. -/
theorem relative_path_inverse (env : PathEnv) (pwd : Path) (hpwd : Normalised pwd)
    (hnormal : env.fileNormalize pwd = pwd) :
    (∀ path, Normalised path → fileJoin pwd (relativePath env path pwd) = path) ∧
    ∀ topsrcdir files, (∀ p ∈ files, Normalised (fileJoin topsrcdir p)) →
      (chdirFiles env topsrcdir pwd files).map (fileJoin pwd) = files.map (fileJoin topsrcdir) := by
  have hinverse : ∀ path, Normalised path → fileJoin pwd (relativePath env path pwd) = path := by
    rintro path ⟨xs, hxs, rfl⟩
    obtain ⟨ys, hys, rfl⟩ := hpwd
    rw [relativePath_rootPath env xs ys hnormal]
    by_cases heq : xs = ys
    · rw [heq, if_pos rfl]
      exact fileJoin_dot hys
    · rw [if_neg fun hpath => heq (rootPath_inj (Plain.components hxs) (Plain.components hys) hpath)]
      exact fileJoin_relativeLevels hxs hys heq
  refine ⟨hinverse, fun topsrcdir files hfiles => ?_⟩
  rw [chdirFiles, List.map_map]
  exact List.map_congr_left fun p hp => hinverse _ (hfiles p hp)

/-- From `/src/objdir/test` the file `/src/lib/x.h` is `../../lib/x.h`. -/
theorem relative_path_inverse_test :
    relativePath ⟨fun _ => true, id, "/"⟩ "/src/lib/x.h" "/src/objdir/test" = "../../lib/x.h" ∧
      fileJoin "/src/objdir/test" "../../lib/x.h" = "/src/lib/x.h" := by
  have hpath : relativePath ⟨fun _ => true, id, "/"⟩ "/src/lib/x.h" "/src/objdir/test" =
      "../../lib/x.h" := rfl
  refine ⟨hpath, ?_⟩
  rw [← hpath]
  exact (relative_path_inverse ⟨fun _ => true, id, "/"⟩ "/src/objdir/test"
    ⟨["src", "objdir", "test"], by decide, by decide +kernel⟩ rfl).1 "/src/lib/x.h"
    ⟨["src", "lib", "x.h"], by decide, by decide +kernel⟩

end Tmake
