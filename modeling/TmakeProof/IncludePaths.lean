import TmakeProof.Libraries
import TmakeProof.ListText
import TmakeProof.Quoting

/-! # Include paths

`IncludePaths` adds a path to `INCPATHS`, where the header scanner looks, and `-I`
options for its source and its build directory to the flags of the compilers.  A path
that is in `INCPATHS` is ignored from then on, also where it is asked for in the other
tree.  `include_paths` says that the commands are cumulative exactly where the first
ones that name each path ask for everything.
-/
namespace Tmake.IncludePaths
open Libraries (fileBuild)
open Quoting (cFlags)
open ListSyntax (IsList Legible)

/-! ## The commands -/

/-- A list, given to a command as a string. -/
def listText (ws : List String) : String := String.ofList (ListSyntax.listText (chars ws))

/-- `prefix`. -/
def prefixAll (pre : String) (args : List String) : List String :=
  (tclList (joinList args)).map (pre ++ ·)

/-- `C++Flags`. -/
def cxxFlags (args : List String) (s : Parse) : Parse := defineAppend "CXX_FLAGS" args s

/-- One path of a command: its directory in the source tree and in the build tree, and where it is
to be searched. -/
structure Request where
  srcpath : Path
  buildpath : Path
  source : Bool
  build : Bool
deriving DecidableEq

/-- `IncludePaths`, with its options. -/
structure IncludeCommand where
  reset : Bool := false
  build : Bool := false
  source : Bool := false
  global : Bool := false
  dirs : List Path

/-- The `-I` of a directory, for both compilers. -/
def addDirectory (dir : Path) (s : Parse) : Parse :=
  cxxFlags [listText (prefixAll "-I" [dir])] (cFlags [listText (prefixAll "-I" [dir])] s)

/-- The loop of `IncludePaths`, for one path. -/
def includePath (r : Request) (s : Parse) : Parse :=
  -- already added, for whichever tree
  if r.srcpath ∈ tclList (getDefine "INCPATHS" s) then s
  else
    let s := defineAppend "INCPATHS" [r.srcpath] s
    let s := if r.source then addDirectory r.srcpath s else s
    if r.build then
      -- a path out of the tree is the same in both trees
      if r.source && r.buildpath = r.srcpath then s else addDirectory r.buildpath s
    else s

/-- The paths of a command; no option for a tree means both. -/
def IncludeCommand.requests (c : IncludeCommand) (build localdir : Path) : List Request :=
  let both := !c.build && !c.source
  let srcdir := if c.global then "." else localdir
  c.dirs.map fun dir =>
    { srcpath := fileJoin srcdir dir
      buildpath := fileJoin (fileBuild build srcdir) dir
      source := c.source || both
      build := c.build || both }

/-- `IncludePaths`; `defaults` are the values that `--reset` restores. -/
def includePaths (build : Path) (defaults : String → String) (c : IncludeCommand) (s : Parse) :
    Parse :=
  let s :=
    if c.reset then
      ["INCPATHS", "C_FLAGS", "CXX_FLAGS"].foldl (fun s name => define name [defaults name] s) s
    else s
  (c.requests build s.localdir).foldl (fun s r => includePath r s) s

/-! ## What is asked for -/

/-- The request is for a directory. -/
def Request.Asks (r : Request) (dir : Path) : Prop :=
  (r.source = true ∧ dir = r.srcpath) ∨ (r.build = true ∧ dir = r.buildpath)

/-- The directories of a request, each once. -/
def Request.directories (r : Request) : List Path :=
  (if r.source then [r.srcpath] else []) ++
    if r.build && !(r.source && r.buildpath = r.srcpath) then [r.buildpath] else []

/-- The first request for each path. -/
def firsts : List Path → List Request → List Request
  | _, [] => []
  | seen, r :: rs =>
    if seen.elem r.srcpath then firsts seen rs else r :: firsts (seen ++ [r.srcpath]) rs

section
variable {r : Request} {rs : List Request} {seen : List Path} {dir : Path}

theorem Request.mem_directories : dir ∈ r.directories ↔ r.Asks dir := by
  rw [directories, Asks, List.mem_append]
  cases r.source <;> cases r.build <;> by_cases h : r.buildpath = r.srcpath <;> simp [h]

/-- The directories of a request, as they are read in the flags: a path may be a list. -/
def Request.words (r : Request) : List Path := r.directories.flatMap tclList

theorem map_srcpath_firsts (seen : List Path) (rs : List Request) :
    (firsts seen rs).map Request.srcpath = newArgs seen (rs.map Request.srcpath) := by
  induction rs generalizing seen with
  | nil => rfl
  | cons r rs ih =>
    rw [firsts, List.map_cons, newArgs]
    split
    · exact ih seen
    · rw [List.map_cons, ih]

end

/-! ## What the variables hold -/

/-- A variable that commands may change, and the list that it holds. -/
structure Holds (name : String) (es : List String) (s : Parse) : Prop where
  free : name ∉ s.fixedvars
  isList : IsList (getDefine name s).toList
  elements : tclList (getDefine name s) = es

/-- The flags of a directory. -/
def includes (dir : Path) : List String := (tclList dir).map ("-I" ++ ·)

section
variable {name : String} {es : List String} {s : Parse} {dir : Path} {r : Request}

/-- Behind a closed list, a value is read on its own. -/
theorem tclList_appendWithSpace {v : String} (hv : IsList v.toList) (value : String) :
    tclList (appendWithSpace v value) = tclList v ++ tclList value := by
  by_cases hempty : v = ""
  · rw [hempty]
    rfl
  · rw [tclList, toList_appendWithSpace hempty, ListSyntax.elements_append hv rfl, List.map_append]
    rfl

theorem isList_appendWithSpace {v value : String} (hv : IsList v.toList)
    (hvalue : IsList value.toList) : IsList (appendWithSpace v value).toList := by
  by_cases hempty : v = ""
  · rw [hempty]
    exact hvalue
  · rw [toList_appendWithSpace hempty]
    exact hv.append rfl hvalue

theorem Holds.append (h : Holds name es s) {value : String} (hvalue : IsList value.toList) :
    Holds name (es ++ tclList value) (defineAppend name [value] s) := by
  have hvalues : getDefine name (defineAppend name [value] s) =
      appendWithSpace (getDefine name s) value :=
    getDefine_defineAppend (List.cons_ne_nil value []) h.free
  refine ⟨by rw [defineAppend_fixedvars]; exact h.free, ?_, ?_⟩
  · rw [hvalues]
    exact isList_appendWithSpace h.isList hvalue
  · rw [hvalues, tclList_appendWithSpace h.isList, h.elements]

theorem Holds.other (h : Holds name es s) {n : String} (hne : name ≠ n) (args : List String) :
    Holds name es (defineAppend n args s) :=
  ⟨by rw [defineAppend_fixedvars]; exact h.free,
    by rw [getDefine_defineAppend_ne hne]; exact h.isList,
    by rw [getDefine_defineAppend_ne hne]; exact h.elements⟩

/-- A list that is given to a command arrives as it is. -/
theorem tclList_listText (ws : List String) :
    IsList (listText ws).toList ∧ tclList (listText ws) = ws := by
  obtain ⟨hlist, helements⟩ := ListSyntax.elements_listText (chars ws)
  rw [tclList, listText, String.toList_ofList, helements, chars_ofList]
  exact ⟨hlist, rfl⟩

/-- The lists of the flags. -/
structure Flags (cs xs : List String) (s : Parse) : Prop where
  cflags : Holds "C_FLAGS" cs s
  cxxflags : Holds "CXX_FLAGS" xs s

variable {cs xs : List String}

theorem Flags.addDirectory (h : Flags cs xs s) (dir : Path) :
    Flags (cs ++ includes dir) (xs ++ includes dir) (addDirectory dir s) := by
  obtain ⟨hlist, helements⟩ := tclList_listText (includes dir)
  have hother : Holds "CXX_FLAGS" xs (cFlags [listText (includes dir)] s) :=
    h.cxxflags.other (by decide) _
  have hcflags := h.cflags.append hlist
  have hcxxflags := hother.append hlist
  rw [helements] at hcflags hcxxflags
  have hadd : IncludePaths.addDirectory dir s =
      cxxFlags [listText (includes dir)] (cFlags [listText (includes dir)] s) := rfl
  rw [hadd]
  exact ⟨hcflags.other (by decide) _, hcxxflags⟩

theorem Flags.addDirectories (h : Flags cs xs s) (dirs : List Path) :
    Flags (cs ++ dirs.flatMap includes) (xs ++ dirs.flatMap includes)
      (dirs.foldl (fun s dir => IncludePaths.addDirectory dir s) s) := by
  induction dirs generalizing cs xs s with
  | nil => simpa using h
  | cons dir dirs ih => simpa using ih (h.addDirectory dir)

/-- The directories have nothing to do with `INCPATHS`. -/
theorem addDirectory_incpaths (dir : Path) (s : Parse) :
    getDefine "INCPATHS" (addDirectory dir s) = getDefine "INCPATHS" s ∧
      (addDirectory dir s).fixedvars = s.fixedvars := by
  rw [addDirectory, cxxFlags, cFlags, getDefine_defineAppend_ne (by decide),
    getDefine_defineAppend_ne (by decide), defineAppend_fixedvars, defineAppend_fixedvars]
  exact ⟨rfl, rfl⟩

theorem addDirectories_incpaths (dirs : List Path) (s : Parse) :
    getDefine "INCPATHS" (dirs.foldl (fun s dir => addDirectory dir s) s) = getDefine "INCPATHS" s ∧
      (dirs.foldl (fun s dir => addDirectory dir s) s).fixedvars = s.fixedvars := by
  induction dirs generalizing s with
  | nil => exact ⟨rfl, rfl⟩
  | cons dir dirs ih =>
    obtain ⟨hvalue, hfixed⟩ := addDirectory_incpaths dir s
    obtain ⟨hvalues, hfixeds⟩ := ih (addDirectory dir s)
    exact ⟨hvalues.trans hvalue, hfixeds.trans hfixed⟩

/-- A path that is not in `INCPATHS` is added to it, and its directories to the flags. -/
theorem includePath_new (h : r.srcpath ∉ tclList (getDefine "INCPATHS" s)) :
    includePath r s =
      r.directories.foldl (fun s dir => addDirectory dir s)
        (defineAppend "INCPATHS" [r.srcpath] s) := by
  rw [includePath, if_neg h, Request.directories]
  by_cases hsame : r.buildpath = r.srcpath
  · cases r.source <;> cases r.build <;> simp [hsame]
  · cases r.source <;> cases r.build <;> simp [hsame]

theorem includePath_incpaths (hfree : "INCPATHS" ∉ s.fixedvars)
    (h : r.srcpath ∉ tclList (getDefine "INCPATHS" s)) :
    getDefine "INCPATHS" (includePath r s) = appendWithSpace (getDefine "INCPATHS" s) r.srcpath ∧
      "INCPATHS" ∉ (includePath r s).fixedvars := by
  obtain ⟨hvalue, hfixed⟩ :=
    addDirectories_incpaths r.directories (defineAppend "INCPATHS" [r.srcpath] s)
  rw [includePath_new h, hvalue, hfixed, defineAppend_fixedvars]
  exact ⟨getDefine_defineAppend (List.cons_ne_nil _ _) hfree, hfree⟩

/-- The paths are appended to `INCPATHS` as `define-list-append` appends them. -/
theorem includePaths_incpaths (hfree : "INCPATHS" ∉ s.fixedvars) (rs : List Request) :
    getDefine "INCPATHS" (rs.foldl (fun s r => includePath r s) s) =
      appended (getDefine "INCPATHS" s)
        (taken (rs.map Request.srcpath) (getDefine "INCPATHS" s)) := by
  induction rs generalizing s with
  | nil => rfl
  | cons r rs ih =>
    rw [List.foldl_cons, List.map_cons, taken]
    by_cases h : r.srcpath ∈ tclList (getDefine "INCPATHS" s)
    · rw [if_pos h, includePath, if_pos h]
      exact ih hfree
    · obtain ⟨hvalue, hfree'⟩ := includePath_incpaths hfree h
      rw [if_neg h, ih hfree', hvalue]
      rfl

/-- The flags of a request. -/
def Request.flags (r : Request) : List String := r.words.map ("-I" ++ ·)

theorem flatMap_includes (r : Request) : r.directories.flatMap includes = r.flags := by
  rw [Request.flags, Request.words, List.map_flatMap]
  rfl

theorem Flags.includePath (h : Flags cs xs s) (hr : r.srcpath ∉ tclList (getDefine "INCPATHS" s)) :
    Flags (cs ++ r.flags) (xs ++ r.flags) (includePath r s) := by
  have hpath : Flags cs xs (defineAppend "INCPATHS" [r.srcpath] s) :=
    ⟨h.cflags.other (by decide) _, h.cxxflags.other (by decide) _⟩
  rw [includePath_new hr, ← flatMap_includes]
  exact hpath.addDirectories r.directories

/-- Where the paths are legible, the flags get what the first request for each path asks for. -/
theorem Flags.includePaths {v : String} (h : Flags cs xs s) (hv : IsList v.toList)
    (hfree : "INCPATHS" ∉ s.fixedvars) (ws : List String) (rs : List Request)
    (hvalue : getDefine "INCPATHS" s = appended v ws)
    (hlegible : Legible (chars (ws ++ newArgs (tclList v ++ ws) (rs.map Request.srcpath)))) :
    Flags (cs ++ (firsts (tclList v ++ ws) rs).flatMap Request.flags)
      (xs ++ (firsts (tclList v ++ ws) rs).flatMap Request.flags)
      (rs.foldl (fun s r => IncludePaths.includePath r s) s) := by
  induction rs generalizing cs xs s ws with
  | nil => simpa [firsts] using h
  | cons r rs ih =>
    have hws : Legible (chars ws) := by
      rw [chars, List.map_append] at hlegible
      exact hlegible.left
    -- what has been added is legible, so that it is found again
    have helements : tclList (getDefine "INCPATHS" s) = tclList v ++ ws := by
      rw [hvalue, tclList_legible hv hws]
    rw [List.map_cons, newArgs] at hlegible
    rw [List.foldl_cons, firsts]
    by_cases hr : r.srcpath ∈ tclList v ++ ws
    · have helem : (tclList v ++ ws).elem r.srcpath = true := List.elem_iff.mpr hr
      rw [if_pos helem] at hlegible ⊢
      rw [IncludePaths.includePath, if_pos (helements ▸ hr)]
      exact ih h hfree ws hvalue hlegible
    · have helem : ¬(tclList v ++ ws).elem r.srcpath = true := List.elem_iff.not.mpr hr
      have hnew : r.srcpath ∉ tclList (getDefine "INCPATHS" s) := helements ▸ hr
      obtain ⟨hvalue', hfree'⟩ := includePath_incpaths hfree hnew
      have hmore : appendWithSpace (getDefine "INCPATHS" s) r.srcpath =
          appended v (ws ++ [r.srcpath]) := by
        rw [hvalue]
        exact (List.foldl_concat ..).symm
      rw [if_neg helem, List.append_assoc, ← List.singleton_append, ← List.append_assoc] at hlegible
      have hrest := ih (h.includePath hnew) hfree' _ (hvalue'.trans hmore)
        (by rwa [List.append_assoc] at hlegible ⊢)
      rw [if_neg helem]
      simpa using hrest

end

/-! ## Sequences of commands -/

section
variable {build : Path} {defaults : String → String} {s : Parse}

/-- The requests of a sequence of commands in one directory. -/
def requests (build localdir : Path) (cmds : List IncludeCommand) : List Request :=
  cmds.flatMap fun c => c.requests build localdir

theorem defineAppend_localdir (name : String) (args : List String) (s : Parse) :
    (defineAppend name args s).localdir = s.localdir := by
  rw [defineAppend]
  split
  · rfl
  · rw [defineVar]
    split <;> rfl

theorem addDirectories_localdir (dirs : List Path) (s : Parse) :
    (dirs.foldl (fun s dir => addDirectory dir s) s).localdir = s.localdir := by
  induction dirs generalizing s with
  | nil => rfl
  | cons dir dirs ih =>
    rw [List.foldl_cons, ih, addDirectory, cxxFlags, defineAppend_localdir, cFlags,
      defineAppend_localdir]

theorem foldl_localdir (rs : List Request) (s : Parse) :
    (rs.foldl (fun s r => includePath r s) s).localdir = s.localdir := by
  induction rs generalizing s with
  | nil => rfl
  | cons r rs ih =>
    rw [List.foldl_cons, ih]
    by_cases h : r.srcpath ∈ tclList (getDefine "INCPATHS" s)
    · rw [includePath, if_pos h]
    · rw [includePath_new h, addDirectories_localdir, defineAppend_localdir]

/-- Without `--reset`, only the requests count. -/
theorem includePaths_requests {cmds : List IncludeCommand} (h : ∀ c ∈ cmds, c.reset = false)
    (s : Parse) :
    cmds.foldl (fun s c => includePaths build defaults c s) s =
      (requests build s.localdir cmds).foldl (fun s r => includePath r s) s := by
  induction cmds generalizing s with
  | nil => rfl
  | cons c cmds ih =>
    have hone : includePaths build defaults c s =
        (c.requests build s.localdir).foldl (fun s r => includePath r s) s := by
      rw [includePaths, h c List.mem_cons_self]
      rfl
    rw [List.foldl_cons, ih (fun d hd => h d (List.mem_cons_of_mem c hd)), hone, foldl_localdir,
      requests, requests, List.flatMap_cons, List.foldl_append]

/-- A list has got the elements that are wanted and that it did not have, each once. -/
def Gains (old new : List String) (wanted : String → Prop) : Prop :=
  ∃ added, new = old ++ added ∧ added.Nodup ∧ ∀ x, x ∈ added ↔ wanted x ∧ x ∉ old

/-- The flags of both compilers have got the directories that are asked for, and `INCPATHS` the
paths. -/
structure Cumulative (rs : List Request) (s s' : Parse) : Prop where
  cflags : Gains (tclList (getDefine "C_FLAGS" s)) (tclList (getDefine "C_FLAGS" s'))
    fun x => ∃ r ∈ rs, ∃ dir, r.Asks dir ∧ x = "-I" ++ dir
  cxxflags : Gains (tclList (getDefine "CXX_FLAGS" s)) (tclList (getDefine "CXX_FLAGS" s'))
    fun x => ∃ r ∈ rs, ∃ dir, r.Asks dir ∧ x = "-I" ++ dir
  incpaths : Gains (tclList (getDefine "INCPATHS" s)) (tclList (getDefine "INCPATHS" s'))
    fun x => ∃ r ∈ rs, x = r.srcpath

/-- Requests `fs` ask for each directory that `rs` ask for and that the flags do not have, for
nothing else, and for nothing twice. -/
structure AskFor (fs rs : List Request) (flags : List String) : Prop where
  once : (fs.flatMap Request.words).Nodup
  new : ∀ f ∈ fs, ∀ dir ∈ f.words, (∃ r ∈ rs, r.Asks dir) ∧ "-I" ++ dir ∉ flags
  all : ∀ r ∈ rs, ∀ dir, r.Asks dir → "-I" ++ dir ∈ flags ∨ ∃ f ∈ fs, dir ∈ f.words

/-- The first requests for paths that are not in `INCPATHS` ask for everything, and their paths are
legible. -/
structure FirstAsk (rs : List Request) (s : Parse) : Prop where
  legible : Legible (chars ((firsts (tclList (getDefine "INCPATHS" s)) rs).map Request.srcpath))
  cflags :
    AskFor (firsts (tclList (getDefine "INCPATHS" s)) rs) rs (tclList (getDefine "C_FLAGS" s))
  cxxflags :
    AskFor (firsts (tclList (getDefine "INCPATHS" s)) rs) rs (tclList (getDefine "CXX_FLAGS" s))

theorem askFor_iff {fs rs : List Request} {flags : List String} : AskFor fs rs flags ↔
    (fs.flatMap Request.words).Nodup ∧
      (∀ f ∈ fs, ∀ dir ∈ f.words, (∃ r ∈ rs, dir ∈ r.directories) ∧ "-I" ++ dir ∉ flags) ∧
      ∀ r ∈ rs, ∀ dir ∈ r.directories, "-I" ++ dir ∈ flags ∨ ∃ f ∈ fs, dir ∈ f.words := by
  simp only [Request.mem_directories]
  exact ⟨fun h => ⟨h.once, h.new, h.all⟩, fun h => ⟨h.1, h.2.1, h.2.2⟩⟩

instance (fs rs : List Request) (flags : List String) : Decidable (AskFor fs rs flags) :=
  decidable_of_iff _ askFor_iff.symm

instance (rs : List Request) (s : Parse) : Decidable (FirstAsk rs s) :=
  decidable_of_iff (_ ∧ _ ∧ _)
    ⟨fun h => ⟨h.1, h.2.1, h.2.2⟩, fun h => ⟨h.legible, h.cflags, h.cxxflags⟩⟩

theorem include_inj {dir dir' : Path} : "-I" ++ dir = "-I" ++ dir' ↔ dir = dir' := by
  rw [← String.toList_inj, String.toList_append, String.toList_append, List.append_cancel_left_eq,
    String.toList_inj]

theorem gains_iff {old added : List String} {wanted : String → Prop} :
    Gains old (old ++ added) wanted ↔ added.Nodup ∧ ∀ x, x ∈ added ↔ wanted x ∧ x ∉ old := by
  constructor
  · rintro ⟨added', heq, hadded⟩
    rwa [List.append_cancel_left heq]
  · exact fun h => ⟨added, rfl, h⟩

theorem mem_flags {fs : List Request} {x : String} :
    x ∈ fs.flatMap Request.flags ↔ ∃ f ∈ fs, ∃ dir ∈ f.words, x = "-I" ++ dir := by
  simp only [List.mem_flatMap, Request.flags, List.mem_map, eq_comm]

theorem nodup_flags {fs : List Request} :
    (fs.flatMap Request.flags).Nodup ↔ (fs.flatMap Request.words).Nodup := by
  have hmap : fs.flatMap Request.flags = (fs.flatMap Request.words).map ("-I" ++ ·) := by
    rw [List.map_flatMap]
    rfl
  rw [hmap, List.nodup_map_iff fun _ _ h => include_inj.mp h]

/-- The flags of requests are what is wanted exactly where these ask for it. -/
theorem gains_flags {fs rs : List Request} {flags : List String} :
    (Gains flags (flags ++ fs.flatMap Request.flags)
      fun x => ∃ r ∈ rs, ∃ dir, r.Asks dir ∧ x = "-I" ++ dir) ↔ AskFor fs rs flags := by
  rw [gains_iff]
  constructor
  · rintro ⟨hnodup, hmem⟩
    refine ⟨nodup_flags.mp hnodup, fun f hf dir hdir => ?_, fun r hr dir hdir => ?_⟩
    · obtain ⟨⟨r, hr, dir', hdir', heq⟩, hnot⟩ :=
        (hmem _).mp (mem_flags.mpr ⟨f, hf, dir, hdir, rfl⟩)
      exact ⟨⟨r, hr, include_inj.mp heq ▸ hdir'⟩, hnot⟩
    · by_cases hold : "-I" ++ dir ∈ flags
      · exact .inl hold
      · obtain ⟨f, hf, dir', hdir', heq⟩ :=
          mem_flags.mp ((hmem _).mpr ⟨⟨r, hr, dir, hdir, rfl⟩, hold⟩)
        exact .inr ⟨f, hf, include_inj.mp heq ▸ hdir'⟩
  · rintro ⟨honce, hnew, hall⟩
    refine ⟨nodup_flags.mpr honce, fun x => mem_flags.trans ⟨?_, ?_⟩⟩
    · rintro ⟨f, hf, dir, hdir, rfl⟩
      obtain ⟨⟨r, hr, hask⟩, hnot⟩ := hnew f hf dir hdir
      exact ⟨⟨r, hr, dir, hask, rfl⟩, hnot⟩
    · rintro ⟨⟨r, hr, dir, hdir, rfl⟩, hnot⟩
      obtain ⟨f, hf, hask⟩ := (hall r hr dir hdir).resolve_left hnot
      exact ⟨f, hf, dir, hask, rfl⟩

/-- Legible paths are what `INCPATHS` gets. -/
theorem gains_srcpaths {old : List String} {rs : List Request} :
    Gains old (old ++ newArgs old (rs.map Request.srcpath)) fun x => ∃ r ∈ rs, x = r.srcpath := by
  refine gains_iff.mpr ⟨nodup_newArgs .., fun x => ?_⟩
  rw [mem_newArgs, List.mem_map]
  simp only [eq_comm]

/-- Paths without repetitions have to be legible, for `INCPATHS` to get them. -/
theorem legible_of_gains {v : String} {rs : List Request} (hv : IsList v.toList)
    (hnodup : (rs.map Request.srcpath).Nodup)
    (h : Gains (tclList v) (tclList (appended v (taken (rs.map Request.srcpath) v)))
      fun x => ∃ r ∈ rs, x = r.srcpath) :
    Legible (chars (newArgs (tclList v) (rs.map Request.srcpath))) := by
  rw [tclList_appended hv, gains_iff] at h
  obtain ⟨hadded, hmem⟩ := h
  refine legible_of_taken hv hnodup ?_
  have hsame (x : String) :
      (∃ r ∈ rs, x = r.srcpath) ∧ x ∉ tclList v ↔
        x ∈ newArgs (tclList v) (rs.map Request.srcpath) := by
    rw [mem_newArgs, List.mem_map]
    simp only [eq_comm]
  have hperm := (List.perm_ext_iff_of_nodup hadded (nodup_newArgs (tclList v) _)).mpr fun x =>
    (hmem x).trans (hsame x)
  have hchars := hperm.map String.toList
  rwa [← chars, ofList_chars] at hchars

/-- **Include paths.**  A sequence of commands is cumulative where the paths are legible and the
first requests for them ask for everything, and only there, unless an illegible path is repeated. -/
theorem include_paths (build : Path) (defaults : String → String) (cmds : List IncludeCommand)
    (s : Parse) (hreset : ∀ c ∈ cmds, c.reset = false)
    (hlists : ∀ name ∈ ["INCPATHS", "C_FLAGS", "CXX_FLAGS"],
      name ∉ s.fixedvars ∧ IsList (getDefine name s).toList) :
    (FirstAsk (requests build s.localdir cmds) s →
      Cumulative (requests build s.localdir cmds) s
        (cmds.foldl (fun s c => includePaths build defaults c s) s)) ∧
    (((requests build s.localdir cmds).map Request.srcpath).Nodup ∨
        Legible (chars ((firsts (tclList (getDefine "INCPATHS" s))
          (requests build s.localdir cmds)).map Request.srcpath)) →
      Cumulative (requests build s.localdir cmds) s
        (cmds.foldl (fun s c => includePaths build defaults c s) s) →
      FirstAsk (requests build s.localdir cmds) s) := by
  have hincpaths := hlists "INCPATHS" (by simp)
  have hholds (name : String) (hname : name ∈ ["INCPATHS", "C_FLAGS", "CXX_FLAGS"]) :
      Holds name (tclList (getDefine name s)) s :=
    ⟨(hlists name hname).1, (hlists name hname).2, rfl⟩
  have hflags : Flags _ _ s := ⟨hholds "C_FLAGS" (by simp), hholds "CXX_FLAGS" (by simp)⟩
  rw [includePaths_requests hreset]
  -- the commands count only for what they request
  generalize requests build s.localdir cmds = rs
  have hpaths := includePaths_incpaths hincpaths.1 rs
  have hfinal (h : Legible (chars (newArgs (tclList (getDefine "INCPATHS" s))
      (rs.map Request.srcpath)))) :=
    hflags.includePaths hincpaths.2 hincpaths.1 [] rs rfl (by simpa using h)
  simp only [List.append_nil] at hfinal
  rw [map_srcpath_firsts]
  constructor
  · intro h
    have hlegible := h.legible
    rw [map_srcpath_firsts] at hlegible
    have hlast := hfinal hlegible
    have htaken : taken (rs.map Request.srcpath) (getDefine "INCPATHS" s) =
        newArgs (tclList (getDefine "INCPATHS" s)) (rs.map Request.srcpath) := by
      simpa [appended] using taken_legible hincpaths.2 [] (by simpa using hlegible)
    refine ⟨?_, ?_, ?_⟩
    · rw [hlast.cflags.elements]
      exact gains_flags.mpr h.cflags
    · rw [hlast.cxxflags.elements]
      exact gains_flags.mpr h.cxxflags
    · rw [hpaths, htaken, tclList_legible hincpaths.2 hlegible]
      exact gains_srcpaths
  · intro hpaths' h
    have hlegible : Legible (chars (newArgs (tclList (getDefine "INCPATHS" s))
        (rs.map Request.srcpath))) := by
      refine hpaths'.elim (fun hnodup => ?_) id
      exact legible_of_gains hincpaths.2 hnodup (hpaths ▸ h.incpaths)
    have hlast := hfinal hlegible
    refine ⟨by rwa [map_srcpath_firsts], ?_, ?_⟩
    · rw [← gains_flags, ← hlast.cflags.elements]
      exact h.cflags
    · rw [← gains_flags, ← hlast.cxxflags.elements]
      exact h.cxxflags

/-- A path for both trees, and again for one of them. -/
theorem include_paths_both :
    let cmds : List IncludeCommand :=
      [{ dirs := ["inc"] }, { build := true, dirs := ["inc", "gen"] }]
    Cumulative (requests "objdir" "." cmds) {}
      (cmds.foldl (fun s c => includePaths "objdir" (fun _ => "") c s) {}) :=
  (include_paths "objdir" (fun _ => "")
    [{ dirs := ["inc"] }, { build := true, dirs := ["inc", "gen"] }] {} (by decide)
    (by decide)).1 (by decide +kernel)

/-- A path for the source tree is ignored where it is asked for in the build tree. -/
theorem include_paths_ignored :
    let cmds : List IncludeCommand :=
      [{ source := true, dirs := ["inc"] }, { build := true, dirs := ["inc"] }]
    ¬Cumulative (requests "objdir" "." cmds) {}
      (cmds.foldl (fun s c => includePaths "objdir" (fun _ => "") c s) {}) := by
  intro cmds h
  obtain ⟨added, heq, -, hmem⟩ := h.cflags
  have hadded : added = ["-Iinc"] := by
    rw [← List.nil_append added]
    exact heq.symm.trans (by decide)
  have hwanted := (hmem "-Iobjdir/inc").mpr
    ⟨⟨⟨"inc", "objdir/inc", false, true⟩, by decide, "objdir/inc", .inr ⟨rfl, rfl⟩, rfl⟩, by decide⟩
  rw [hadded] at hwanted
  exact absurd hwanted (by decide)

end

end Tmake.IncludePaths
