import TmakeProof.Defines
import TmakeProof.FileNormalize
import TmakeProof.Globbing
import Mathlib.Data.List.Sort
import Mathlib.Data.String.Basic

/-! # `Glob`

`Glob` of `lib/glob.tcl` without `--all`.  A recursive search reads the directories that
it finds as patterns again, and `file-join` takes the `..` out of their paths; in the
end `make-unlocal-src` cuts off as many characters as `local-src-prefix` has.
-/
namespace Tmake.Glob
open Globbing FileNormalize

/-- What `glob.tcl` uses of Tcl: `string match`, the alternatives that the braces in a part of a
pattern give, and the elements of a string as a list. -/
structure Builtins where
  like : String → String → Bool
  alts : String → List String
  elements : String → List String

/-- The parts of an absolute path. -/
def pathParts (path : Path) : List String :=
  (fileSplit path).filter fun part => part ≠ "" ∧ part ≠ "/"

/-- `file $type $path`. -/
inductive FileType where
  | isfile
  | isdir
  | exists
  deriving DecidableEq

section
variable (T : FileTree) (B : Builtins)

def FileType.holds : FileType → List String → Bool
  | .isfile, path => T.isFile path
  | .isdir, path => T.isDirectory path
  | .exists, path => (T.place path).isSome

/-- `glob -nocomplain`, for an absolute pattern. -/
def glob (pattern : Path) : List Path := (expand T B.like B.alts (pathParts pattern)).map rootPath

/-- `glob-nonrecursive`. -/
def globNonrecursive (patterns : List Path) (istype : FileType) (exclude : List String) :
    List Path :=
  patterns.flatMap fun pattern => (glob T B pattern).filter fun path =>
    istype.holds T (pathParts path) && fileTail path ∉ exclude

/-- A loop with `lappend result`. -/
def collect {α β : Type} (f : α → Option (List β)) : List α → Option (List β)
  | [] => some []
  | x :: xs => do
    let first ← f x
    let rest ← collect f xs
    some (first ++ rest)

/-- `glob-recursive`, with a bound on the depth. -/
def globRecursive (type : FileType) (exclude : List String) : Nat → List Path → Option (List Path)
  | 0, _ => none
  | fuel + 1, patterns => collect (fun pattern =>
      let dirpattern := fileDirname pattern
      let tailpattern := fileTail pattern
      collect (fun dir => do
        let below ← globRecursive type exclude fuel
          (B.elements (fileJoin (dir ++ "/*") tailpattern))
        some (below ++
          globNonrecursive T B (B.elements (fileJoin dir tailpattern)) type exclude))
        (globNonrecursive T B (B.elements dirpattern) .isdir exclude)) patterns

/-- What `glob-recursive` does in one directory. -/
def visit (type : FileType) (exclude : List String) (fuel : Nat) (tailpattern : String) (dir : Path) :
    Option (List Path) := do
  let below ← globRecursive T B type exclude fuel (B.elements (fileJoin (dir ++ "/*") tailpattern))
  some (below ++ globNonrecursive T B (B.elements (fileJoin dir tailpattern)) type exclude)

/-- `lsort`. -/
def lsort (l : List String) : List String := l.insertionSort (· ≤ ·)

structure Options where
  dirs : Bool
  recursive : Bool
  exclude : List String

def Options.type (o : Options) : FileType := if o.dirs then .exists else .isfile

section
variable (topsrcdir pre : Path)

/-- `local-src-prefix`; `pre` is `tmake(prefix)`. -/
def localSrcPrefix : Path := topsrcdir ++ "/" ++ pre

/-- `make-local-src`, for one name. -/
def makeLocalSrc (name : String) : Path := localSrcPrefix topsrcdir pre ++ name

/-- `make-unlocal-src`, for one name. -/
def makeUnlocalSrc (name : Path) : String :=
  String.ofList (name.toList.drop (localSrcPrefix topsrcdir pre).length)

/-- `Glob`, for relative patterns. -/
def globNames (o : Options) (fuel : Nat) (args : List String) : Option (List String) :=
  let patterns := args.map (makeLocalSrc topsrcdir pre)
  let paths := if o.recursive then globRecursive T B o.type o.exclude fuel patterns
    else some (globNonrecursive T B patterns o.type o.exclude)
  paths.map fun paths => lsort (paths.map (makeUnlocalSrc topsrcdir pre))

end

end

/-! ## What should hold -/

/-- A relative pattern: patterns for directories, one in the other, and a pattern for names. -/
structure Pattern where
  dirs : List String
  tail : String
  parts : ∀ part ∈ dirs ++ [tail], Component part

def Pattern.path (p : Pattern) : Path := dirPath (p.dirs ++ [p.tail])

/-- The directory of a build spec, by the names that lead to the top directory and from there. -/
structure Place where
  top : List String
  sub : List String
  ne_nil : top ≠ []
  plain : ∀ name ∈ top ++ sub, Plain name

namespace Place
variable (L : Place)

def names : List String := L.top ++ L.sub

def topsrcdir : Path := rootPath L.top

def pre : Path := makePrefix (dirPath L.sub)

end Place

section
variable (T : FileTree) (B : Builtins) (L : Place) (o : Options)

/-- A file that matches, with a name that is not excluded. -/
structure Fits (dir : List String) (tail name : String) : Prop where
  matching : name ∈ matching T B.like B.alts dir tail
  type : o.type.holds T (dir ++ [name]) = true
  exclude : name ∉ o.exclude

/-- The parts of the name of a result. -/
def parts (n : String) : List String := pathParts (makeLocalSrc L.topsrcdir L.pre n)

/-- A name is the local name of a file that matches the tail of a pattern, in a directory that
matches its directory part, or below one. -/
def IsMatch (patterns : List Pattern) (n : String) : Prop :=
  ∃ p ∈ patterns, ∃ dir name, parts L n = dir ++ [name] ∧ Fits T B o dir p.tail name ∧
    ∃ d ∈ expand T B.like B.alts (L.names ++ p.dirs), ∃ place names,
      T.place d = some place ∧ T.place dir = some (place ++ names) ∧
        (o.recursive = false → names = [])

/-- A directory that matches and is not excluded. -/
structure Start (p : Pattern) (d : List String) : Prop where
  mem : d ∈ expand T B.like B.alts (L.names ++ p.dirs)
  directory : T.isDirectory d = true
  exclude : d.getLastD "" ∉ o.exclude

/-- Every file that matches below a directory that is not excluded is among the names. -/
def Complete (patterns : List Pattern) (result : List String) : Prop :=
  ∀ p ∈ patterns, ∀ d place, Start T B L o p d → T.place d = some place →
    ∀ names name, Descends T o.exclude place names → Fits T B o (place ++ names) p.tail name →
      ∃ n ∈ result, ∃ dir, parts L n = dir ++ [name] ∧ T.place dir = some (place ++ names)

/-! ## When it does -/

/-- No blank and no backslash. -/
def IsWord (part : String) : Prop :=
  ∀ c ∈ part.toList, c ∉ [' ', '\t', '\n', '\x0b', '\x0c', '\r', '\\']

/-- No brace and no backslash. -/
def IsBare (part : String) : Prop := ∀ c ∈ part.toList, c ∉ ['{', '}', '\\']

/-- What the manual says of strings without special characters. -/
structure Builtins.Documented : Prop where
  alts : ∀ part, IsBare part → B.alts part = [part]
  elements : ∀ path, IsWord path → path.toList.head? = some '/' → B.elements path = [path]

/-- The path of a directory as `file-join` leaves it. -/
def joined (path : List String) : List String := Lexical.resolve ".." (path.filter (· ≠ "."))

/-- A directory that a recursive search visits. -/
def Visits (p : Pattern) (dir : List String) : Prop :=
  ∃ d, Start T B L o p d ∧ Below T B.like B.alts "*" o.exclude (joined d) dir

/-- What a recursive search reads again it reads as it was meant. -/
structure WellRead (p : Pattern) : Prop where
  tail : p.tail ≠ "." ∧ p.tail ≠ ".."
  words : ∀ part ∈ L.names ++ p.dirs ++ [p.tail], IsWord part
  visited : ∀ dir, Visits T B L o p dir → ∀ part ∈ dir, IsWord part ∧ IsBare part
  /-- No `..` is left over at the root. -/
  stays : ∀ dir name, Visits T B L o p dir → Fits T B o dir p.tail name → ".." ∉ dir

/-- Nothing is found outside of the directory of the build spec. -/
def Inside (p : Pattern) : Prop :=
  ∀ dir name, Visits T B L o p dir → Fits T B o dir p.tail name → L.names <+: dir ++ [name]

/-- `*` finds the directories on a way to each file that matches. -/
def Visible (patterns : List Pattern) : Prop :=
  ∀ p ∈ patterns, ∀ d place, Start T B L o p d → T.place d = some place →
    ∀ names name, Descends T o.exclude place names → Fits T B o (place ++ names) p.tail name →
      ∃ p' ∈ patterns, ∃ d' place' names', Start T B L o p' d' ∧ T.place d' = some place' ∧
        Descends T o.exclude place' names' ∧ FoundBy T B.like "*" place' names' ∧
        place' ++ names' = place ++ names ∧ Fits T B o (place ++ names) p'.tail name

end

/-! ## Paths -/

section
variable {names names' ps : List String} {name : String}

theorem rootPath_append (h : ∀ name ∈ names, Component name) (h' : ∀ name ∈ names', Component name)
    (hne : names ≠ []) (hne' : names' ≠ []) :
    rootPath (names ++ names') = rootPath names ++ "/" ++ dirPath names' := by
  have happend : ∀ name ∈ names ++ names', Component name := by
    rw [List.forall_mem_append]
    exact ⟨h, h'⟩
  have hne'' : names ++ names' ≠ [] := by simp [hne]
  rw [rootPath, rootPath, if_neg hne, if_neg hne'', dirPath_eq_intercalate happend hne'',
    dirPath_eq_intercalate h hne, dirPath_eq_intercalate h' hne',
    String.intercalate_append_of_ne_nil hne hne']
  simp only [String.append_assoc]

theorem pathParts_rootPath (h : ∀ part ∈ ps, Component part) : pathParts (rootPath ps) = ps := by
  have hparts : ps.filter (fun part => part ≠ "" ∧ part ≠ "/") = ps := by
    refine List.filter_eq_self.mpr fun part hpart => decide_eq_true ⟨(h part hpart).ne_empty, ?_⟩
    rintro rfl
    exact (h "/" hpart).noSlash (by decide)
  rw [pathParts, (fileSplit_absolute (rootPath_absolute ps)).1, List.filter_cons_of_neg (by decide),
    List.filter_cons_of_neg (by decide), belowRoot_rootPath h]
  split
  · rename_i hnil
    rw [hnil]
    rfl
  · exact hparts

theorem rootPath_ne_empty (ps : List String) : rootPath ps ≠ "" := by
  intro heq
  exact rootPath_absolute ps (by rw [heq]; decide)

section
variable (h : ∀ part ∈ ps, Component part) (hname : Component name) (hne : ps ≠ [])
include h hname hne

theorem rootPath_name : rootPath (ps ++ [name]) = rootPath ps ++ "/" ++ name := by
  rw [rootPath_concat h hname, if_neg hne]

theorem fileDirname_rootPath : fileDirname (rootPath (ps ++ [name])) = rootPath ps := by
  rw [rootPath_name h hname hne]
  exact fileDirname_append (rootPath_ne_empty ps) hname.noSlash

end

theorem fileTail_rootPath (h : ∀ part ∈ ps, Component part) (hname : Component name) :
    fileTail (rootPath (ps ++ [name])) = name := by
  have htail (before : Path) : fileTail (before ++ "/" ++ name) = name := by
    have hlist : (before ++ "/" ++ name).toList.reverse =
        name.toList.reverse ++ '/' :: before.toList.reverse := by
      simp [String.toList_append]
    rw [fileTail, hlist, List.takeWhile_append_of_pos, List.takeWhile_cons_of_neg (by decide),
      List.append_nil, List.reverse_reverse, String.ofList_toList]
    intro c hc
    have hne : c ≠ '/' := fun heq => hname.noSlash (heq ▸ List.mem_reverse.mp hc)
    simpa using hne
  rw [rootPath_concat h hname]
  split
  · exact htail ""
  · exact htail _

/-- What `file-join` does with one more part. -/
theorem fileJoin_joined (h : ∀ part ∈ ps, Component part) (hname : Component name) (hne : ps ≠ []) :
    fileJoin (rootPath ps) name = rootPath (joined (ps ++ [name])) := by
  have hparts : ∀ part ∈ ps ++ [name], Component part := by
    rw [List.forall_mem_append]
    exact ⟨h, by simpa using hname⟩
  have hrelative : Relative name := hname.head
  have hrooted : rootedParts (rootPath ps) name = ps ++ [name] := by
    rw [rootedParts, if_pos hrelative, belowRoot_rootPath h, if_neg hne, fileSplit_component hname]
  have hslash : ∀ part ∈ ps ++ [name], '/' ∉ part.toList :=
    fun part hpart => (hparts part hpart).noSlash
  have hunblocked : Unblocked (ps ++ [name]) :=
    Unblocked.of_noEmpty fun hmem => (hparts "" hmem).ne_empty rfl
  have hfilter : (ps ++ [name]).filter (fun part => Counts part) =
      (ps ++ [name]).filter (· ≠ ".") := by
    refine List.filter_congr fun part hpart => ?_
    have hroot : part ≠ "/" := by
      rintro rfl
      exact hslash "/" hpart (by decide)
    simp [Counts, (hparts part hpart).ne_empty, hroot]
  rw [fileJoin_absolute (.inl (rootPath_absolute ps)), hrooted,
    (joinStack_names hslash).1 hunblocked, hfilter]
  rfl

theorem pathParts_slash {path : Path} (hne : path ≠ "") :
    pathParts (path ++ "/") = pathParts path := by
  have hsplit : fileSplit (path ++ "/" ++ "") = fileSplit path ++ [""] :=
    fileSplit_append hne (by decide)
  rw [String.append_empty] at hsplit
  rw [pathParts, hsplit, List.filter_append, List.filter_cons_of_neg (by decide), List.filter_nil,
    List.append_nil, pathParts]

end

/-! ## Local names -/

section
variable {L : Place} {rest : List String}

theorem Place.components : ∀ name ∈ L.names, Component name := Plain.components L.plain

theorem Place.names_ne : L.names ≠ [] := by simp [names, L.ne_nil]

theorem localSrcPrefix_eq : localSrcPrefix L.topsrcdir L.pre = rootPath L.names ++ "/" := by
  have htop : ∀ name ∈ L.top, Component name :=
    fun name hname => L.components name (by simp [Place.names, hname])
  have hsub : ∀ name ∈ L.sub, Plain name := fun name hname => L.plain name (by simp [hname])
  rw [localSrcPrefix, Place.topsrcdir, Place.pre, Place.names, makePrefix]
  by_cases hnil : L.sub = []
  · rw [hnil, if_pos (by decide), String.append_empty, List.append_nil]
  · have hdot : dirPath L.sub ≠ "." := by
      intro heq
      have hnames := dirNames_dirPath hsub
      rw [heq, dirNames_top] at hnames
      exact hnil hnames.symm
    rw [if_neg hdot, rootPath_append htop (Plain.components hsub) L.ne_nil hnil]
    simp only [String.append_assoc]

theorem makeLocalSrc_dirPath (h : ∀ part ∈ rest, Component part) (hne : rest ≠ []) :
    makeLocalSrc L.topsrcdir L.pre (dirPath rest) = rootPath (L.names ++ rest) := by
  rw [makeLocalSrc, localSrcPrefix_eq, rootPath_append L.components h L.names_ne hne]

/-- Nothing is left of a path that is too short. -/
theorem makeUnlocalSrc_short {path : Path}
    (h : path.length ≤ (localSrcPrefix L.topsrcdir L.pre).length) :
    makeUnlocalSrc L.topsrcdir L.pre path = "" := by
  rw [← String.length_toList] at h
  rw [makeUnlocalSrc, List.drop_eq_nil_of_le h, String.ofList_nil]

theorem parts_empty : parts L "" = L.names := by
  rw [parts, makeLocalSrc, String.append_empty, localSrcPrefix_eq,
    pathParts_slash (rootPath_ne_empty _), pathParts_rootPath L.components]

/-- What is cut off from a path in the directory of the build spec is the way to there. -/
theorem parts_cut (h : ∀ part ∈ rest, Component part) :
    parts L (makeUnlocalSrc L.topsrcdir L.pre (rootPath (L.names ++ rest))) = L.names ++ rest := by
  by_cases hne : rest = []
  · have hshort : (rootPath L.names).length ≤ (localSrcPrefix L.topsrcdir L.pre).length := by
      rw [localSrcPrefix_eq, String.length_append]
      exact Nat.le_add_right _ _
    rw [hne, List.append_nil, makeUnlocalSrc_short hshort, parts_empty]
  · have hcut : makeUnlocalSrc L.topsrcdir L.pre (rootPath (L.names ++ rest)) = dirPath rest := by
      rw [← makeLocalSrc_dirPath h hne, makeLocalSrc, makeUnlocalSrc, String.toList_append,
        ← String.length_toList, List.drop_left, String.ofList_toList]
    have hall : ∀ part ∈ L.names ++ rest, Component part := by
      rw [List.forall_mem_append]
      exact ⟨L.components, h⟩
    rw [hcut, parts, makeLocalSrc_dirPath h hne, pathParts_rootPath hall]

theorem makeLocalSrc_path (p : Pattern) :
    makeLocalSrc L.topsrcdir L.pre p.path = rootPath (L.names ++ p.dirs ++ [p.tail]) := by
  rw [Pattern.path, makeLocalSrc_dirPath p.parts (by simp), List.append_assoc]

end

/-! ## One search -/

section
variable {T : FileTree} {B : Builtins} {L : Place} {o : Options}
variable {ps dir dir' : List String} {tail name : String}

theorem components_of_isSome (h : (T.place ps).isSome = true) : ∀ part ∈ ps, Component part := by
  intro part hpart
  obtain ⟨hne, hslash⟩ := parts_proper h part hpart
  exact ⟨hslash, hne⟩

theorem fileTail_getLast (h : ∀ part ∈ ps, Component part) :
    fileTail (rootPath ps) = ps.getLastD "" := by
  rcases List.eq_nil_or_concat ps with rfl | ⟨init, last, rfl⟩
  · decide
  · rw [List.concat_eq_append] at h ⊢
    rw [fileTail_rootPath (fun part hpart => h part (by simp [hpart])) (h last (by simp))]
    simp

theorem mem_globNonrecursive {patterns : List Path} {type : FileType} {exclude : List String}
    {path : Path} : path ∈ globNonrecursive T B patterns type exclude ↔
      ∃ pattern ∈ patterns, ∃ q ∈ expand T B.like B.alts (pathParts pattern),
        type.holds T q = true ∧ q.getLastD "" ∉ exclude ∧ path = rootPath q := by
  rw [globNonrecursive, List.mem_flatMap]
  refine exists_congr fun pattern => and_congr_right fun _ => ?_
  have hholds {q : List String} (hq : q ∈ expand T B.like B.alts (pathParts pattern)) :
      (type.holds T (pathParts (rootPath q)) && fileTail (rootPath q) ∉ exclude) = true ↔
        type.holds T q = true ∧ q.getLastD "" ∉ exclude := by
    have hcomponents := components_of_isSome (expand_exists hq)
    rw [pathParts_rootPath hcomponents, fileTail_getLast hcomponents, Bool.and_eq_true,
      decide_eq_true_eq]
  rw [List.mem_filter, glob, List.mem_map]
  constructor
  · rintro ⟨⟨q, hq, rfl⟩, hfilter⟩
    obtain ⟨htype, hexclude⟩ := (hholds hq).mp hfilter
    exact ⟨q, hq, htype, hexclude, rfl⟩
  · rintro ⟨q, hq, htype, hexclude, rfl⟩
    exact ⟨⟨q, hq, rfl⟩, (hholds hq).mpr ⟨htype, hexclude⟩⟩

/-- One more part behind a path that leads to a directory. -/
theorem mem_expand_name (halts : ∀ part ∈ dir, B.alts part = [part]) (hdir : T.isDirectory dir = true)
    {q : List String} : q ∈ expand T B.like B.alts (dir ++ [tail]) ↔
      ∃ name ∈ matching T B.like B.alts dir tail, q = dir ++ [name] := by
  obtain ⟨place, hplace, -⟩ := isDirectory_iff.mp hdir
  rw [mem_expand_concat, expand_self halts (by simp [hplace])]
  simp [hdir]

theorem FileType.holds_congr (h : T.place ps = T.place dir) (type : FileType) :
    type.holds T ps = type.holds T dir := by
  cases type <;> simp only [holds, FileTree.isFile, FileTree.isDirectory, h]

/-- What fits depends on the place of the directory only. -/
theorem Fits.congr (h : Fits T B o dir tail name) (hplace : T.place dir = T.place dir') :
    Fits T B o dir' tail name := by
  have hname : T.place (dir ++ [name]) = T.place (dir' ++ [name]) := by
    rw [place_concat, place_concat, hplace]
  refine ⟨?_, ?_, h.exclude⟩
  · obtain ⟨alt, halt, hfound⟩ := List.mem_flatMap.mp h.matching
    exact List.mem_flatMap.mpr ⟨alt, halt, found_congr hplace alt ▸ hfound⟩
  · rw [← FileType.holds_congr hname]
    exact h.type

theorem mem_globNonrecursive_name (hdir : T.isDirectory dir = true)
    (halts : ∀ part ∈ dir, B.alts part = [part]) (htail : Component tail) {type : FileType}
    {exclude : List String} {path : Path} :
    path ∈ globNonrecursive T B [rootPath (dir ++ [tail])] type exclude ↔
      ∃ name ∈ matching T B.like B.alts dir tail, type.holds T (dir ++ [name]) = true ∧
        name ∉ exclude ∧ path = rootPath (dir ++ [name]) := by
  obtain ⟨place, hplace, -⟩ := isDirectory_iff.mp hdir
  have hcomponents : ∀ part ∈ dir ++ [tail], Component part := by
    rw [List.forall_mem_append]
    exact ⟨components_of_isSome (Option.isSome_of_mem hplace), by simpa using htail⟩
  rw [mem_globNonrecursive]
  simp only [List.mem_singleton, exists_eq_left, pathParts_rootPath hcomponents,
    mem_expand_name halts hdir]
  constructor
  · rintro ⟨q, ⟨name, hname, rfl⟩, htype, hexclude, rfl⟩
    exact ⟨name, hname, htype, by simpa using hexclude, rfl⟩
  · rintro ⟨name, hname, htype, hexclude, rfl⟩
    exact ⟨_, ⟨name, hname, rfl⟩, htype, by simpa using hexclude, rfl⟩

end

/-! ## The search below a directory -/

section
variable {T : FileTree} {B : Builtins} {o : Options}
variable {ps d dir place : List String} {tail name : String}

theorem collect_eq {α β : Type} {f : α → Option (List β)} {P : α → β → Prop} {xs : List α}
    (h : ∀ x ∈ xs, ∃ l, f x = some l ∧ ∀ y, y ∈ l ↔ P x y) :
    ∃ l, collect f xs = some l ∧ ∀ y, y ∈ l ↔ ∃ x ∈ xs, P x y := by
  induction xs with
  | nil => exact ⟨[], rfl, by simp⟩
  | cons x xs ih =>
    obtain ⟨first, hfirst, hmem⟩ := h x List.mem_cons_self
    obtain ⟨rest, hrest, hmem'⟩ := ih fun x hx => h x (List.mem_cons_of_mem _ hx)
    refine ⟨first ++ rest, ?_, fun y => ?_⟩
    · rw [collect, hfirst, hrest]
      rfl
    · rw [List.mem_append, hmem, hmem', List.exists_mem_cons_iff]

theorem collect_singleton {α β : Type} (f : α → Option (List β)) (x : α) : collect f [x] = f x := by
  rw [collect, collect]
  cases f x with
  | none => rfl
  | some l => simp

theorem globRecursive_succ (type : FileType) (exclude : List String) (fuel : Nat)
    (patterns : List Path) : globRecursive T B type exclude (fuel + 1) patterns =
      collect (fun pattern => collect (visit T B type exclude fuel (fileTail pattern))
        (globNonrecursive T B (B.elements (fileDirname pattern)) .isdir exclude)) patterns := rfl

theorem isWord_rootPath (h : ∀ part ∈ ps, Component part) (hword : ∀ part ∈ ps, IsWord part) :
    IsWord (rootPath ps) := by
  have hslash : ∀ c ∈ "/".toList, c ∉ [' ', '\t', '\n', '\x0b', '\x0c', '\r', '\\'] := by
    intro c hc
    obtain rfl : c = '/' := by simpa using hc
    decide
  induction ps using List.reverseRecOn with
  | nil => exact hslash
  | append_singleton ps part ih =>
    have hps := ih (fun part hpart => h part (by simp [hpart]))
      fun part hpart => hword part (by simp [hpart])
    rw [rootPath_concat (fun part hpart => h part (by simp [hpart])) (h part (by simp))]
    intro c hc
    split at hc
    · rw [String.toList_append, List.mem_append] at hc
      exact hc.elim (hslash c) (hword part (by simp) c)
    · rw [String.toList_append, String.toList_append, List.mem_append, List.mem_append] at hc
      exact hc.elim (Or.rec (hps c) (hslash c)) (hword part (by simp) c)

theorem elements_rootPath (hB : B.Documented) (h : ∀ part ∈ ps, Component part)
    (hword : ∀ part ∈ ps, IsWord part) : B.elements (rootPath ps) = [rootPath ps] :=
  hB.elements _ (isWord_rootPath h hword) (not_not.mp (rootPath_absolute ps))

theorem joined_concat (hdot : name ≠ ".") (hdots : name ≠ "..") (ps : List String) :
    joined (ps ++ [name]) = joined ps ++ [name] := by
  rw [joined, List.filter_append, List.filter_cons_of_pos (by simpa using hdot), List.filter_nil,
    Lexical.resolve_concat, Lexical.push_of_ne hdots, List.reverse_cons, List.reverse_reverse, joined]

theorem joined_dot (ps : List String) : "." ∉ joined ps := by
  intro hmem
  simpa using (List.mem_filter.mp (Lexical.resolve_subset _ hmem)).2

theorem joined_joined (ps : List String) : joined (joined ps) = joined ps := by
  have hfilter : (joined ps).filter (· ≠ ".") = joined ps := by
    refine List.filter_eq_self.mpr fun part hpart => decide_eq_true ?_
    rintro rfl
    exact joined_dot ps hpart
  rw [joined, hfilter]
  exact (Lexical.resolve_normal _).resolve

/-- The files that match in a directory or below it. -/
def FilesBelow (T : FileTree) (B : Builtins) (o : Options) (tail : String) (dir : List String)
    (path : Path) : Prop :=
  ∃ dir', Below T B.like B.alts "*" o.exclude dir dir' ∧
    ∃ name, Fits T B o dir' tail name ∧ path = rootPath (dir' ++ [name])

/-- A directory whose path, and the paths of the directories that are visited from there, are
read as they are. -/
structure Readable (T : FileTree) (B : Builtins) (o : Options) (d there : List String) : Prop where
  place : T.place d = some there
  entry : T.entry there = some true
  ne_nil : d ≠ []
  visited : ∀ dir, Below T B.like B.alts "*" o.exclude (joined d) dir →
    ∀ part ∈ dir, IsWord part ∧ IsBare part

theorem isBare_star : IsBare "*" := by
  intro c hc
  obtain rfl : c = '*' := by simpa using hc
  decide

theorem isWord_star : IsWord "*" := by
  intro c hc
  obtain rfl : c = '*' := by simpa using hc
  decide

theorem component_star : Component "*" := ⟨by decide, by decide⟩

namespace Readable

theorem joined_place (h : Readable T B o d place) : T.place (joined d) = some place :=
  place_joined h.place

theorem directory (h : Readable T B o d place) : T.isDirectory (joined d) = true :=
  isDirectory_iff.mpr ⟨place, h.joined_place, h.entry⟩

theorem components (h : Readable T B o d place) : ∀ part ∈ joined d, Component part :=
  components_of_isSome (Option.isSome_of_mem h.joined_place)

theorem words (h : Readable T B o d place) : ∀ part ∈ joined d, IsWord part :=
  fun part hpart => (h.visited _ (.here _) part hpart).1

theorem alts (h : Readable T B o d place) (hB : B.Documented) :
    ∀ part ∈ joined d, B.alts part = [part] :=
  fun part hpart => hB.alts part (h.visited _ (.here _) part hpart).2

/-- The directories in such a directory are read as they are, too. -/
theorem into (h : Readable T B o d place) (hB : B.Documented)
    (hname : name ∈ matching T B.like B.alts (joined d) "*")
    (hdir : T.isDirectory (joined d ++ [name]) = true) (hexclude : name ∉ o.exclude) :
    joined (joined d ++ [name]) = joined d ++ [name] ∧
      Readable T B o (joined d ++ [name]) (place ++ [name]) := by
  have hfound := hname
  rw [matching, hB.alts "*" isBare_star, List.flatMap_singleton] at hfound
  obtain ⟨hplace, hentry⟩ := found_name h.joined_place h.entry (by decide) hfound
  obtain ⟨hproper, -⟩ := T.proper place name hentry
  simp only [List.mem_cons, List.not_mem_nil, or_false, not_or] at hproper
  have hjoined : joined (joined d ++ [name]) = joined d ++ [name] := by
    rw [joined_concat hproper.2.1 hproper.2.2, joined_joined]
  obtain ⟨place', hplace', hentry'⟩ := isDirectory_iff.mp hdir
  obtain rfl := Option.some.inj (hplace.symm.trans hplace')
  refine ⟨hjoined, hplace, hentry', by simp, ?_⟩
  rw [hjoined]
  exact fun dir hbelow => h.visited dir (.into hname hdir hexclude hbelow)

end Readable

theorem filesBelow_iff {path : Path} : FilesBelow T B o tail dir path ↔
    (∃ d, (∃ name ∈ matching T B.like B.alts dir "*", T.isDirectory (dir ++ [name]) = true ∧
      name ∉ o.exclude ∧ d = dir ++ [name]) ∧ FilesBelow T B o tail d path) ∨
    ∃ name, Fits T B o dir tail name ∧ path = rootPath (dir ++ [name]) := by
  constructor
  · rintro ⟨dir', hbelow, hfile⟩
    cases hbelow with
    | here => exact .inr hfile
    | into hname hdir hexclude hbelow =>
      exact .inl ⟨_, ⟨_, hname, hdir, hexclude, rfl⟩, dir', hbelow, hfile⟩
  · rintro (⟨d, ⟨name, hname, hdir, hexclude, rfl⟩, dir', hbelow, hfile⟩ | hfile)
    · exact ⟨dir', .into hname hdir hexclude hbelow, hfile⟩
    · exact ⟨dir, .here dir, hfile⟩

section
variable (hB : B.Documented) (htail : Component tail) (hword : IsWord tail)
variable (hdots : tail ≠ "." ∧ tail ≠ "..")

/-- A search in some directories, of which each is searched as it should be. -/
theorem collect_visit {Q : List String → Prop} {dirs : List Path} {fuel : Nat}
    (hdirs : ∀ dir, dir ∈ dirs ↔ ∃ d, Q d ∧ dir = rootPath d)
    (hQ : ∀ d, Q d → ∀ part ∈ d, Component part)
    (h : ∀ d, Q d → ∃ l, visit T B o.type o.exclude fuel tail (rootPath d) = some l ∧
      ∀ path, path ∈ l ↔ FilesBelow T B o tail (joined d) path) :
    ∃ l, collect (visit T B o.type o.exclude fuel tail) dirs = some l ∧
      ∀ path, path ∈ l ↔ ∃ d, Q d ∧ FilesBelow T B o tail (joined d) path := by
  have hvisit : ∀ dir ∈ dirs, ∃ l, visit T B o.type o.exclude fuel tail dir = some l ∧
      ∀ path, path ∈ l ↔ FilesBelow T B o tail (joined (pathParts dir)) path := by
    intro dir hdir
    obtain ⟨d, hd, rfl⟩ := (hdirs dir).mp hdir
    rw [pathParts_rootPath (hQ d hd)]
    exact h d hd
  obtain ⟨l, hl, hmem⟩ := collect_eq hvisit
  refine ⟨l, hl, fun path => (hmem path).trans ⟨?_, ?_⟩⟩
  · rintro ⟨dir, hdir, hfile⟩
    obtain ⟨d, hd, rfl⟩ := (hdirs dir).mp hdir
    rw [pathParts_rootPath (hQ d hd)] at hfile
    exact ⟨d, hd, hfile⟩
  · rintro ⟨d, hd, hfile⟩
    refine ⟨rootPath d, (hdirs _).mpr ⟨d, hd, rfl⟩, ?_⟩
    rw [pathParts_rootPath (hQ d hd)]
    exact hfile

include hB htail hword hdots

theorem visit_eq (h : Readable T B o d place) (fuel : Nat) :
    visit T B o.type o.exclude fuel tail (rootPath d) =
      (globRecursive T B o.type o.exclude fuel [rootPath (joined d ++ ["*"] ++ [tail])]).bind
        fun below => some (below ++
          globNonrecursive T B [rootPath (joined d ++ [tail])] o.type o.exclude) := by
  have hcomponents := components_of_isSome (Option.isSome_of_mem h.place)
  have hcomponents' : ∀ part ∈ d ++ ["*"], Component part := by
    rw [List.forall_mem_append]
    exact ⟨hcomponents, by simpa using component_star⟩
  have hstar : rootPath d ++ "/*" = rootPath (d ++ ["*"]) := by
    rw [rootPath_name hcomponents component_star h.ne_nil, String.append_assoc]
    rfl
  have helements {rest : List String} (hrest : ∀ part ∈ rest, Component part ∧ IsWord part) :
      B.elements (rootPath (joined d ++ rest)) = [rootPath (joined d ++ rest)] := by
    refine elements_rootPath hB ?_ ?_
    · rw [List.forall_mem_append]
      exact ⟨h.components, fun part hpart => (hrest part hpart).1⟩
    · rw [List.forall_mem_append]
      exact ⟨h.words, fun part hpart => (hrest part hpart).2⟩
  rw [visit, hstar, fileJoin_joined hcomponents' htail (by simp),
    fileJoin_joined hcomponents htail h.ne_nil, joined_concat hdots.1 hdots.2,
    joined_concat (by decide) (by decide), joined_concat hdots.1 hdots.2,
    helements (by simpa using ⟨htail, hword⟩), List.append_assoc,
    helements (by simpa using ⟨⟨component_star, isWord_star⟩, htail, hword⟩)]
  rfl

omit hword hdots in
theorem globRecursive_star (h : Readable T B o d place) (fuel : Nat) :
    globRecursive T B o.type o.exclude (fuel + 1) [rootPath (joined d ++ ["*"] ++ [tail])] =
      collect (visit T B o.type o.exclude fuel tail)
        (globNonrecursive T B [rootPath (joined d ++ ["*"])] .isdir o.exclude) := by
  have hcomponents : ∀ part ∈ joined d ++ ["*"], Component part := by
    rw [List.forall_mem_append]
    exact ⟨h.components, by simpa using component_star⟩
  have hwords : ∀ part ∈ joined d ++ ["*"], IsWord part := by
    rw [List.forall_mem_append]
    exact ⟨h.words, by simpa using isWord_star⟩
  rw [globRecursive_succ, collect_singleton, fileTail_rootPath hcomponents htail,
    fileDirname_rootPath hcomponents htail (by simp), elements_rootPath hB hcomponents hwords]

/-- The paths that are found from a directory down. -/
theorem visit_files {fuel : Nat} (h : Readable T B o d place) (hfuel : T.depth < place.length + fuel) :
    ∃ l, visit T B o.type o.exclude fuel tail (rootPath d) = some l ∧
      ∀ path, path ∈ l ↔ FilesBelow T B o tail (joined d) path := by
  induction fuel generalizing d place with
  | zero =>
    have hlength := T.length_le place (by rw [h.entry]; exact nofun)
    exact absurd hlength (Nat.not_le.mpr hfuel)
  | succ fuel ih =>
    have hdirs : ∀ dir, dir ∈ globNonrecursive T B [rootPath (joined d ++ ["*"])] .isdir o.exclude ↔
        ∃ d', (∃ name ∈ matching T B.like B.alts (joined d) "*",
          T.isDirectory (joined d ++ [name]) = true ∧ name ∉ o.exclude ∧ d' = joined d ++ [name]) ∧
            dir = rootPath d' := by
      intro dir
      rw [mem_globNonrecursive_name h.directory (h.alts hB) component_star]
      constructor
      · rintro ⟨name, hname, hdir, hexclude, rfl⟩
        exact ⟨_, ⟨name, hname, hdir, hexclude, rfl⟩, rfl⟩
      · rintro ⟨_, ⟨name, hname, hdir, hexclude, rfl⟩, rfl⟩
        exact ⟨name, hname, hdir, hexclude, rfl⟩
    have hvisit : ∀ d', (∃ name ∈ matching T B.like B.alts (joined d) "*",
        T.isDirectory (joined d ++ [name]) = true ∧ name ∉ o.exclude ∧ d' = joined d ++ [name]) →
        (∀ part ∈ d', Component part) ∧
          ∃ l, visit T B o.type o.exclude fuel tail (rootPath d') = some l ∧
            ∀ path, path ∈ l ↔ FilesBelow T B o tail (joined d') path := by
      rintro _ ⟨name, hname, hdir, hexclude, rfl⟩
      have hinto := (h.into hB hname hdir hexclude).2
      have hlength : T.depth < (place ++ [name]).length + fuel := by
        rw [List.length_append, List.length_singleton]
        omega
      exact ⟨components_of_isSome (Option.isSome_of_mem hinto.place), ih hinto hlength⟩
    obtain ⟨below, hbelow, hmem⟩ := collect_visit hdirs (fun d' hd' => (hvisit d' hd').1)
      fun d' hd' => (hvisit d' hd').2
    refine ⟨_, by rw [visit_eq hB htail hword hdots h, globRecursive_star hB htail h, hbelow,
      Option.bind_some], fun path => ?_⟩
    have hhere : path ∈ globNonrecursive T B [rootPath (joined d ++ [tail])] o.type o.exclude ↔
        ∃ name, Fits T B o (joined d) tail name ∧ path = rootPath (joined d ++ [name]) := by
      rw [mem_globNonrecursive_name h.directory (h.alts hB) htail]
      constructor
      · rintro ⟨name, hname, htype, hexclude, rfl⟩
        exact ⟨name, ⟨hname, htype, hexclude⟩, rfl⟩
      · rintro ⟨name, hfits, rfl⟩
        exact ⟨name, hfits.matching, hfits.type, hfits.exclude, rfl⟩
    rw [List.mem_append, hmem, hhere, filesBelow_iff]
    refine or_congr (exists_congr fun d' => and_congr_right ?_) Iff.rfl
    rintro ⟨name, hname, hdir, hexclude, rfl⟩
    rw [(h.into hB hname hdir hexclude).1]

end

end

/-! ## A recursive search -/

section
variable {T : FileTree} {B : Builtins} {L : Place} {o : Options} {p : Pattern}
variable {patterns : List Pattern} {d place : List String}

theorem collect_map {α β γ : Type} (f : α → Option (List β)) (g : γ → α) (xs : List γ) :
    collect f (xs.map g) = collect (fun x => f (g x)) xs := by
  induction xs with
  | nil => rfl
  | cons x xs ih => rw [List.map_cons, collect, ih, collect]

theorem Pattern.components (p : Pattern) : ∀ part ∈ L.names ++ p.dirs, Component part := by
  rw [List.forall_mem_append]
  exact ⟨L.components, fun part hpart => p.parts part (by simp [hpart])⟩

theorem Pattern.component_tail (p : Pattern) : Component p.tail := p.parts p.tail (by simp)

theorem Start.entry (hstart : Start T B L o p d) (hplace : T.place d = some place) :
    T.entry place = some true := by
  obtain ⟨place', hplace', hentry⟩ := isDirectory_iff.mp hstart.directory
  obtain rfl := Option.some.inj (hplace.symm.trans hplace')
  exact hentry

variable (hB : B.Documented) (hL : T.entry L.names = some true)
variable (hbare : ∀ part ∈ L.names, IsBare part)
include hB hL hbare

/-- What matches a pattern is in the directory of the build spec, at least as it is written. -/
theorem expand_names {rest : List String} (h : d ∈ expand T B.like B.alts (L.names ++ rest)) :
    ∃ rest', d = L.names ++ rest' ∧ rest'.length = rest.length := by
  refine expand_append (fun part hpart => hB.alts part (hbare part hpart)) ?_ h
  rw [place_self (by rw [hL]; exact nofun)]
  rfl

theorem WellRead.readable (h : WellRead T B L o p) (hstart : Start T B L o p d)
    (hplace : T.place d = some place) : Readable T B o d place := by
  refine ⟨hplace, hstart.entry hplace, ?_, fun dir hbelow => h.visited dir ⟨d, hstart, hbelow⟩⟩
  obtain ⟨rest, rfl, -⟩ := expand_names hB hL hbare hstart.mem
  simp [L.names_ne]

/-- The paths that are found. -/
theorem globRecursive_files (hread : ∀ p ∈ patterns, WellRead T B L o p) {fuel : Nat}
    (hfuel : T.depth + 1 < fuel) :
    ∃ l, globRecursive T B o.type o.exclude fuel
        ((patterns.map Pattern.path).map (makeLocalSrc L.topsrcdir L.pre)) = some l ∧
      ∀ path, path ∈ l ↔ ∃ p ∈ patterns, ∃ dir, Visits T B L o p dir ∧
        ∃ name, Fits T B o dir p.tail name ∧ path = rootPath (dir ++ [name]) := by
  obtain ⟨fuel, rfl⟩ := Nat.exists_eq_add_one_of_ne_zero (Nat.ne_zero_of_lt hfuel)
  rw [List.map_map, globRecursive_succ, collect_map]
  refine collect_eq fun p hp => ?_
  have hwell := hread p hp
  have helements : B.elements (rootPath (L.names ++ p.dirs)) = [rootPath (L.names ++ p.dirs)] :=
    elements_rootPath hB p.components fun part hpart => hwell.words part (List.mem_append_left _ hpart)
  rw [Function.comp_apply, makeLocalSrc_path, fileTail_rootPath p.components p.component_tail,
    fileDirname_rootPath p.components p.component_tail (by simp [L.names_ne]), helements]
  have hdirs : ∀ dir, dir ∈ globNonrecursive T B [rootPath (L.names ++ p.dirs)] .isdir o.exclude ↔
      ∃ d, Start T B L o p d ∧ dir = rootPath d := by
    intro dir
    rw [mem_globNonrecursive]
    simp only [List.mem_singleton, exists_eq_left, pathParts_rootPath p.components]
    constructor
    · rintro ⟨d, hd, htype, hexclude, rfl⟩
      exact ⟨d, ⟨hd, htype, hexclude⟩, rfl⟩
    · rintro ⟨d, hstart, rfl⟩
      exact ⟨d, hstart.mem, hstart.directory, hstart.exclude, rfl⟩
  have hstarts : ∀ d, Start T B L o p d → ∀ part ∈ d, Component part :=
    fun d hstart => components_of_isSome (expand_exists hstart.mem)
  have hvisit : ∀ d, Start T B L o p d →
      ∃ l, visit T B o.type o.exclude fuel p.tail (rootPath d) = some l ∧
        ∀ path, path ∈ l ↔ FilesBelow T B o p.tail (joined d) path := by
    intro d hstart
    obtain ⟨place, hplace, -⟩ := isDirectory_iff.mp hstart.directory
    refine visit_files hB p.component_tail (hwell.words p.tail (by simp)) hwell.tail
      (hwell.readable hB hL hbare hstart hplace) ?_
    omega
  obtain ⟨l, hl, hmem⟩ := collect_visit hdirs hstarts hvisit
  refine ⟨l, hl, fun path => (hmem path).trans ⟨?_, ?_⟩⟩
  · rintro ⟨d, hstart, dir, hbelow, hfile⟩
    exact ⟨dir, ⟨d, hstart, hbelow⟩, hfile⟩
  · rintro ⟨dir, ⟨d, hstart, hbelow⟩, hfile⟩
    exact ⟨d, hstart, dir, hbelow, hfile⟩

end

end Tmake.Glob
