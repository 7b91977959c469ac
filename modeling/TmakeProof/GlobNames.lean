import TmakeProof.Glob

/-! # The names that `Glob` returns

A search in directories below the one of the build spec, and one without `--recursive`
also outside, returns local names of the files that match.  A recursive search gives
wrong names to files outside, where the path that is cut off is another one.
-/
namespace Tmake.Glob
open Globbing FileNormalize

/-! ## Paths and places -/

section
variable {T : FileTree} {B : Builtins} {L : Place} {o : Options} {p : Pattern}
variable {patterns : List Pattern} {ps d dir place names : List String} {name : String}

theorem FileType.isSome_of_holds {type : FileType} (h : type.holds T ps = true) :
    (T.place ps).isSome = true := by
  cases hplace : T.place ps with
  | none => cases type <;> simp [holds, FileTree.isFile, FileTree.isDirectory, hplace] at h
  | some place => rfl

theorem Fits.components {tail : String} (h : Fits T B o dir tail name) :
    ∀ part ∈ dir ++ [name], Component part :=
  components_of_isSome (FileType.isSome_of_holds h.type)

/-- Which directories a recursive search visits. -/
theorem visits_iff (hB : B.Documented) : Visits T B L o p dir ↔ ∃ d place names, Start T B L o p d ∧
    T.place d = some place ∧ Descends T o.exclude place names ∧
      FoundBy T B.like "*" place names ∧ dir = joined d ++ names := by
  have hbelow {d place : List String} (hplace : T.place d = some place)
      (hentry : T.entry place = some true) :
      Below T B.like B.alts "*" o.exclude (joined d) dir ↔ ∃ names, dir = joined d ++ names ∧
        Descends T o.exclude place names ∧ FoundBy T B.like "*" place names :=
    below_iff (by decide) (hB.alts "*" isBare_star) (place_joined hplace) hentry
  constructor
  · rintro ⟨d, hstart, h⟩
    obtain ⟨place, hplace, hentry⟩ := isDirectory_iff.mp hstart.directory
    obtain ⟨names, rfl, hdescends, hfound⟩ := (hbelow hplace hentry).mp h
    exact ⟨d, place, names, hstart, hplace, hdescends, hfound, rfl⟩
  · rintro ⟨d, place, names, hstart, hplace, hdescends, hfound, rfl⟩
    exact ⟨d, hstart, (hbelow hplace (hstart.entry hplace)).mpr ⟨names, rfl, hdescends, hfound⟩⟩

theorem Start.leads (hstart : Start T B L o p d) (hplace : T.place d = some place)
    (hdescends : Descends T o.exclude place names) :
    T.place (joined d ++ names) = some (place ++ names) := by
  exact (hdescends.place (place_joined hplace) (hstart.entry hplace)).1

/-- A directory that is visited is where its path says, if no `..` is left over. -/
theorem Visits.leads (hB : B.Documented) (h : Visits T B L o p dir) (hup : ".." ∉ dir) :
    T.place dir = some dir := by
  obtain ⟨d, place, names, hstart, hplace, hdescends, -, rfl⟩ := (visits_iff hB).mp h
  have hthere := hstart.leads hplace hdescends
  refine place_of_names (by simp [hthere]) fun part hpart => ⟨?_, ?_⟩
  · rintro rfl
    rcases List.mem_append.mp hpart with hpart | hpart
    · exact joined_dot d hpart
    · exact hdescends.proper "." hpart (by simp)
  · rintro rfl
    exact hup hpart

/-- The name of a file in the directory of the build spec is its local name. -/
theorem parts_of_inside (h : ∀ part ∈ ps, Component part) (hinside : L.names <+: ps) :
    parts L (makeUnlocalSrc L.topsrcdir L.pre (rootPath ps)) = ps := by
  obtain ⟨rest, rfl⟩ := hinside
  exact parts_cut fun part hpart => h part (by simp [hpart])

end

/-! ## Without errors -/

section
variable {T : FileTree} {B : Builtins} {L : Place} {o : Options} {p : Pattern}
variable {patterns : List Pattern} {dir result : List String} {name : String}

/-- What a recursive search finds. -/
def Finds (T : FileTree) (B : Builtins) (L : Place) (o : Options) (patterns : List Pattern)
    (dir : List String) (name : String) : Prop :=
  ∃ p ∈ patterns, Visits T B L o p dir ∧ Fits T B o dir p.tail name

/-- The local name that is returned for a path. -/
def cut (L : Place) (ps : List String) : String := makeUnlocalSrc L.topsrcdir L.pre (rootPath ps)

/-- The names that a recursive search returns. -/
def Cuts (T : FileTree) (B : Builtins) (L : Place) (o : Options) (patterns : List Pattern)
    (result : List String) : Prop :=
  ∀ n, n ∈ result ↔ ∃ dir name, Finds T B L o patterns dir name ∧ n = cut L (dir ++ [name])

theorem Finds.components (h : Finds T B L o patterns dir name) :
    ∀ part ∈ dir ++ [name], Component part := by
  obtain ⟨p, -, -, hfits⟩ := h
  exact hfits.components

theorem isMatch_of_inside (hB : B.Documented) (hrecursive : o.recursive = true)
    (h : Finds T B L o patterns dir name) (hinside : L.names <+: dir ++ [name]) :
    IsMatch T B L o patterns (cut L (dir ++ [name])) := by
  have hparts : parts L (cut L (dir ++ [name])) = dir ++ [name] :=
    parts_of_inside h.components hinside
  obtain ⟨p, hp, hvisits, hfits⟩ := h
  obtain ⟨d, place, names, hstart, hplace, hdescends, -, rfl⟩ := (visits_iff hB).mp hvisits
  exact ⟨p, hp, _, name, hparts, hfits, d, hstart.mem, place, names, hplace,
    hstart.leads hplace hdescends, fun hfalse => absurd hrecursive (by simp [hfalse])⟩

theorem complete_of_visible (hB : B.Documented) (hcuts : Cuts T B L o patterns result)
    (hinside : ∀ p ∈ patterns, Inside T B L o p) (hvisible : Visible T B L o patterns) :
    Complete T B L o patterns result := by
  intro p hp d place hstart hplace names name hdescends hfits
  obtain ⟨p', hp', d', place', names', hstart', hplace', hdescends', hfound, heq, hfits'⟩ :=
    hvisible p hp d place hstart hplace names name hdescends hfits
  have hthere := hstart'.leads hplace' hdescends'
  have hvisits : Visits T B L o p' (joined d' ++ names') :=
    (visits_iff hB).mpr ⟨d', place', names', hstart', hplace', hdescends', hfound, rfl⟩
  have hself : T.place (place ++ names) = some (place ++ names) := by
    refine place_self ?_
    rw [(hdescends.place hplace (hstart.entry hplace)).2]
    exact nofun
  rw [heq] at hthere
  have hfits'' := hfits'.congr (hself.trans hthere.symm)
  refine ⟨_, (hcuts _).mpr ⟨_, name, ⟨p', hp', hvisits, hfits''⟩, rfl⟩, _, ?_, hthere⟩
  exact parts_of_inside hfits''.components (hinside p' hp' _ name hvisits hfits'')

end

/-! ## Files outside -/

section
variable {T : FileTree} {B : Builtins} {L : Place} {o : Options}
variable {patterns : List Pattern} {ps dir result : List String} {name : String}

theorem length_rootPath (h : ∀ part ∈ ps, Component part) (hne : ps ≠ []) :
    (rootPath ps).length = pathLength ps := by
  induction ps using List.reverseRecOn with
  | nil => exact absurd rfl hne
  | append_singleton ps part ih =>
    have hps : ∀ part ∈ ps, Component part := fun part hpart => h part (by simp [hpart])
    have hone : "/".length = 1 := rfl
    rw [rootPath_concat hps (h part (by simp)), pathLength_concat]
    split
    · rename_i hnil
      rw [hnil, String.length_append, hone, Nat.add_comm]
      exact (Nat.zero_add _).symm
    · rename_i hnil
      rw [String.length_append, String.length_append, ih hps hnil, hone]
      omega

theorem pathLength_splitSlash (cs : List Char) :
    pathLength ((splitSlash cs).map String.ofList) = cs.length + 1 := by
  induction cs with
  | nil => rfl
  | cons c cs ih =>
    rw [splitSlash]
    cases hsplit : splitSlash cs with
    | nil => exact absurd hsplit (splitSlash_ne_nil cs)
    | cons p ps =>
      rw [hsplit, List.map_cons, pathLength, String.length_ofList] at ih
      dsimp only
      by_cases hc : c = '/'
      · rw [if_pos hc, List.map_cons, List.map_cons, pathLength, pathLength, String.length_ofList,
          String.length_ofList, ih, List.length_cons]
        exact Nat.add_comm _ _
      · rw [if_neg hc, List.map_cons, pathLength, String.length_ofList, List.length_cons,
          List.length_cons, ← ih]
        omega

theorem pathLength_pathParts {path : Path} (h : ¬Relative path) :
    pathLength (pathParts path) ≤ path.length := by
  have hhead : path.toList.head? = some '/' := not_not.mp h
  obtain ⟨cs, hcs⟩ := List.head?_eq_some_iff.mp hhead
  have hne : path ≠ "" := by
    rintro rfl
    simp at hcs
  have hlength : path.length = cs.length + 1 := by
    rw [← String.length_toList, hcs, List.length_cons]
  have hsplit : splitSlash path.toList = [] :: splitSlash cs := by
    rw [hcs, splitSlash]
    cases h : splitSlash cs with
    | nil => exact absurd h (splitSlash_ne_nil cs)
    | cons p ps => simp
  rw [pathParts, fileSplit, if_neg hne, hsplit, if_pos hhead, List.map_cons,
    List.filter_cons_of_neg (by decide), List.filter_cons_of_neg (by decide), hlength,
    ← pathLength_splitSlash]
  exact pathLength_filter _ _

/-- The parts of a local name begin with those of the directory of the build spec. -/
theorem names_prefix_parts (n : String) : L.names <+: parts L n := by
  have hne := rootPath_ne_empty L.names
  have hlist : (rootPath L.names ++ "/" ++ n).toList =
      (rootPath L.names).toList ++ '/' :: n.toList := by
    simp [String.toList_append]
  have hne' : rootPath L.names ++ "/" ++ n ≠ "" := by
    simp [String.append_eq_empty_iff, hne]
  have hhead : (rootPath L.names).toList.head? = some '/' := not_not.mp (rootPath_absolute _)
  have hhead' : ((rootPath L.names).toList ++ '/' :: n.toList).head? = some '/' := by
    rw [List.head?_append, hhead]
    rfl
  have hnames := pathParts_rootPath L.components
  rw [pathParts, fileSplit, if_neg hne, if_pos hhead] at hnames
  rw [parts, makeLocalSrc, localSrcPrefix_eq, pathParts, fileSplit, if_neg hne', hlist, if_pos hhead',
    splitSlash_append, List.map_append, ← List.cons_append, List.filter_append, hnames]
  exact List.prefix_append _ _

theorem makeLocalSrc_absolute (n : String) : ¬Relative (makeLocalSrc L.topsrcdir L.pre n) := by
  have hhead : (rootPath L.names).toList.head? = some '/' := not_not.mp (rootPath_absolute _)
  rw [makeLocalSrc, localSrcPrefix_eq, Relative, not_not, String.toList_append,
    String.toList_append, List.head?_append, List.head?_append, hhead]
  rfl

/-- Where enough is cut off, a local name is as long as the path that it comes from. -/
theorem length_makeLocalSrc {path : Path}
    (h : (localSrcPrefix L.topsrcdir L.pre).length ≤ path.length) :
    (makeLocalSrc L.topsrcdir L.pre (makeUnlocalSrc L.topsrcdir L.pre path)).length = path.length := by
  rw [makeLocalSrc, makeUnlocalSrc, String.length_append, String.length_ofList, List.length_drop,
    String.length_toList]
  omega

section
variable (hB : B.Documented) (hcuts : Cuts T B L o patterns result)
variable (hstays : ∀ dir name, Finds T B L o patterns dir name → ".." ∉ dir)
variable (hcomplete : Complete T B L o patterns result)
include hB hcuts hstays hcomplete

/-- A file that is found is among the results only if one is found with the same name, in a
directory where the name leads that is returned. -/
theorem Finds.returned (h : Finds T B L o patterns dir name) :
    ∃ dir' name' e, Finds T B L o patterns dir' name' ∧
      parts L (cut L (dir' ++ [name'])) = e ++ [name] ∧ T.place e = some dir := by
  have hup := hstays dir name h
  obtain ⟨p, hp, hvisits, hfits⟩ := h
  have hleads := hvisits.leads hB hup
  obtain ⟨d, place, names, hstart, hplace, hdescends, -, rfl⟩ := (visits_iff hB).mp hvisits
  have hthere := hstart.leads hplace hdescends
  obtain heq := Option.some.inj (hthere.symm.trans hleads)
  have hfits' : Fits T B o (place ++ names) p.tail name := hfits.congr (by rw [heq])
  obtain ⟨n, hn, e, hparts, he⟩ := hcomplete p hp d place hstart hplace names name hdescends hfits'
  obtain ⟨dir', name', hfinds, rfl⟩ := (hcuts n).mp hn
  exact ⟨dir', name', e, hfinds, hparts, he.trans (congrArg some heq)⟩

/-- For a file that is found outside there is one with a longer path. -/
theorem longer_outside (h : Finds T B L o patterns dir name) (houtside : ¬L.names <+: dir ++ [name]) :
    ∃ dir' name', Finds T B L o patterns dir' name' ∧ ¬L.names <+: dir' ++ [name'] ∧
      pathLength (dir ++ [name]) < pathLength (dir' ++ [name']) := by
  obtain ⟨dir', name', e, hfinds, hparts, he⟩ := h.returned hB hcuts hstays hcomplete
  have hne : e ≠ dir := by
    rintro rfl
    exact houtside (hparts ▸ names_prefix_parts _)
  have hlighter : pathLength (dir ++ [name]) < pathLength (e ++ [name]) := by
    rw [pathLength_concat, pathLength_concat]
    exact Nat.add_lt_add_right ((place_pathLength he).resolve_left hne) _
  have hpath := length_rootPath hfinds.components (by simp)
  refine ⟨dir', name', hfinds, fun hinside => ?_, hlighter.trans_le ?_⟩
  · -- inside, the name leads to the file that it comes from
    rw [cut, parts_of_inside hfinds.components hinside] at hparts
    obtain ⟨rfl, -⟩ := List.append_inj' hparts rfl
    obtain ⟨p', -, hvisits', -⟩ := id hfinds
    have hleads := hvisits'.leads hB (hstays _ _ hfinds)
    exact hne (Option.some.inj (hleads.symm.trans he))
  · by_cases hlong : (localSrcPrefix L.topsrcdir L.pre).length ≤ (rootPath (dir' ++ [name'])).length
    · rw [← hparts, ← hpath, ← length_makeLocalSrc hlong]
      exact pathLength_pathParts (makeLocalSrc_absolute _)
    · -- the name is empty, and leads to the directory of the build spec
      rw [cut, makeUnlocalSrc_short (Nat.le_of_not_le hlong), parts_empty] at hparts
      have hplain : ∀ part ∈ e, part ≠ "." ∧ part ≠ ".." := by
        intro part hpart
        have hplain := L.plain part (by rw [← Place.names, hparts]; simp [hpart])
        exact ⟨hplain.ne_dot, hplain.ne_dots⟩
      have hself := place_of_names (Option.isSome_of_mem he) hplain
      exact absurd (Option.some.inj (hself.symm.trans he)) hne

/-- All files that are found are inside, where one that is not would have the longest path. -/
theorem inside_of_complete {bound : Nat}
    (hbound : ∀ dir name, Finds T B L o patterns dir name → pathLength (dir ++ [name]) ≤ bound)
    (h : Finds T B L o patterns dir name) : L.names <+: dir ++ [name] := by
  have hnone : ∀ k dir name, Finds T B L o patterns dir name → ¬L.names <+: dir ++ [name] →
      bound < pathLength (dir ++ [name]) + k → False := by
    intro k
    induction k with
    | zero =>
      intro dir name h _ hlt
      exact Nat.not_lt.mpr (hbound dir name h) hlt
    | succ k ih =>
      intro dir name h houtside hlt
      obtain ⟨dir', name', hfinds, houtside', hlonger⟩ :=
        longer_outside hB hcuts hstays hcomplete h houtside
      exact ih dir' name' hfinds houtside' (by omega)
  by_contra houtside
  exact hnone (bound + 1) dir name h houtside (by omega)

omit hstays in
theorem visible_of_complete
    (hinside : ∀ dir name, Finds T B L o patterns dir name → L.names <+: dir ++ [name]) :
    Visible T B L o patterns := by
  intro p hp d place hstart hplace names name hdescends hfits
  obtain ⟨n, hn, e, hparts, he⟩ := hcomplete p hp d place hstart hplace names name hdescends hfits
  obtain ⟨dir, name', hfinds, rfl⟩ := (hcuts n).mp hn
  rw [cut, parts_of_inside hfinds.components (hinside _ _ hfinds)] at hparts
  obtain ⟨rfl, hname⟩ := List.append_inj' hparts rfl
  obtain rfl : name' = name := by simpa using hname
  obtain ⟨p', hp', hvisits, hfits'⟩ := hfinds
  obtain ⟨d', place', names', hstart', hplace', hdescends', hfound, rfl⟩ := (visits_iff hB).mp hvisits
  have hthere := hstart'.leads hplace' hdescends'
  refine ⟨p', hp', d', place', names', hstart', hplace', hdescends', hfound,
    Option.some.inj (hthere.symm.trans he), hfits'.congr (he.trans (Eq.symm (place_self ?_)))⟩
  exact place_entry he

end

end

/-! ## The names -/

section
variable {T : FileTree} {B : Builtins} {L : Place} {o : Options} {patterns : List Pattern}
variable (hB : B.Documented) (hL : T.entry L.names = some true)
variable (hbare : ∀ part ∈ L.names, IsBare part)
include hB hL hbare

theorem isMatch_nonrecursive {path : Path}
    (h : path ∈ globNonrecursive T B
      ((patterns.map Pattern.path).map (makeLocalSrc L.topsrcdir L.pre)) o.type o.exclude) :
    IsMatch T B L o patterns (makeUnlocalSrc L.topsrcdir L.pre path) := by
  obtain ⟨pattern, hpattern, q, hq, htype, hexclude, rfl⟩ := mem_globNonrecursive.mp h
  rw [List.map_map] at hpattern
  obtain ⟨p, hp, rfl⟩ := List.mem_map.mp hpattern
  have hcomponents : ∀ part ∈ L.names ++ p.dirs ++ [p.tail], Component part := by
    rw [List.forall_mem_append]
    exact ⟨p.components, by simpa using p.component_tail⟩
  rw [Function.comp_apply, makeLocalSrc_path, pathParts_rootPath hcomponents] at hq
  have hparts : parts L (makeUnlocalSrc L.topsrcdir L.pre (rootPath q)) = q := by
    rw [List.append_assoc] at hq
    obtain ⟨rest, rfl, -⟩ := expand_names hB hL hbare hq
    exact parts_of_inside (components_of_isSome (expand_exists hq)) (List.prefix_append _ _)
  obtain ⟨d, hd, hdir, name, hname, rfl⟩ := mem_expand_concat.mp hq
  obtain ⟨place, hplace, -⟩ := isDirectory_iff.mp hdir
  exact ⟨p, hp, d, name, hparts, ⟨hname, htype, by simpa using hexclude⟩, d, hd, place, [], hplace,
    by simpa using hplace, fun _ => rfl⟩

/-- The names that a recursive search returns are those of the files that it finds. -/
theorem cuts_recursive (hread : ∀ p ∈ patterns, WellRead T B L o p) {fuel : Nat}
    (hfuel : T.depth + 1 < fuel) :
    ∃ l bound, globRecursive T B o.type o.exclude fuel
        ((patterns.map Pattern.path).map (makeLocalSrc L.topsrcdir L.pre)) = some l ∧
      Cuts T B L o patterns (lsort (l.map (makeUnlocalSrc L.topsrcdir L.pre))) ∧
      ∀ dir name, Finds T B L o patterns dir name → pathLength (dir ++ [name]) ≤ bound := by
  obtain ⟨l, hl, hmem⟩ := globRecursive_files hB hL hbare hread hfuel
  refine ⟨l, (l.map String.length).foldr max 0, hl, fun n => ?_, ?_⟩
  · rw [lsort, List.mem_insertionSort, List.mem_map]
    constructor
    · rintro ⟨path, hpath, rfl⟩
      obtain ⟨p, hp, dir, hvisits, name, hfits, rfl⟩ := (hmem path).mp hpath
      exact ⟨dir, name, ⟨p, hp, hvisits, hfits⟩, rfl⟩
    · rintro ⟨dir, name, ⟨p, hp, hvisits, hfits⟩, rfl⟩
      exact ⟨_, (hmem _).mpr ⟨p, hp, dir, hvisits, name, hfits, rfl⟩, rfl⟩
  · intro dir name h
    rw [← length_rootPath h.components (by simp)]
    obtain ⟨p, hp, hvisits, hfits⟩ := h
    have hpath := (hmem _).mpr ⟨p, hp, dir, hvisits, name, hfits, rfl⟩
    exact List.le_max_of_le' 0 (List.mem_map_of_mem hpath) le_rfl

end

/-- **What `Glob` returns.**  Without `--recursive` the names are local names of files that match;
with it, where nothing is misread, they are, and none is missing, exactly if all files that the
search finds are in the directory of the build spec and `*` finds the directories on a way to
each that matches. -/
theorem glob_names (T : FileTree) (B : Builtins) (L : Place) (o : Options) (patterns : List Pattern)
    (hB : B.Documented) (hL : T.entry L.names = some true) (hbare : ∀ part ∈ L.names, IsBare part)
    (hread : o.recursive = true → ∀ p ∈ patterns, WellRead T B L o p) (fuel : Nat)
    (hfuel : T.depth + 1 < fuel) :
    ∃ names, globNames T B L.topsrcdir L.pre o fuel (patterns.map Pattern.path) = some names ∧
      ((∀ n ∈ names, IsMatch T B L o patterns n) ∧
          (o.recursive = true → Complete T B L o patterns names) ↔
        (o.recursive = true → (∀ p ∈ patterns, Inside T B L o p) ∧ Visible T B L o patterns)) := by
  by_cases hrecursive : o.recursive = true
  · obtain ⟨l, bound, hl, hcuts, hbound⟩ := cuts_recursive hB hL hbare (hread hrecursive) hfuel
    refine ⟨_, by rw [globNames, if_pos hrecursive, hl, Option.map_some], ?_⟩
    have hstays : ∀ dir name, Finds T B L o patterns dir name → ".." ∉ dir := by
      rintro dir name ⟨p, hp, hvisits, hfits⟩
      exact (hread hrecursive p hp).stays dir name hvisits hfits
    constructor
    · rintro ⟨-, hcomplete⟩ -
      have hinside {dir : List String} {name : String} (h : Finds T B L o patterns dir name) :=
        inside_of_complete hB hcuts hstays (hcomplete hrecursive) hbound h
      exact ⟨fun p hp dir name hvisits hfits => hinside ⟨p, hp, hvisits, hfits⟩,
        visible_of_complete hB hcuts (hcomplete hrecursive) fun _ _ => hinside⟩
    · intro h
      obtain ⟨hinside, hvisible⟩ := h hrecursive
      refine ⟨fun n hn => ?_, fun _ => complete_of_visible hB hcuts hinside hvisible⟩
      obtain ⟨dir, name, hfinds, rfl⟩ := (hcuts n).mp hn
      obtain ⟨p, hp, hvisits, hfits⟩ := id hfinds
      exact isMatch_of_inside hB hrecursive hfinds (hinside p hp dir name hvisits hfits)
  · refine ⟨_, by rw [globNames, if_neg hrecursive, Option.map_some], ?_⟩
    refine ⟨fun _ htrue => absurd htrue hrecursive,
      fun _ => ⟨fun n hn => ?_, fun htrue => absurd htrue hrecursive⟩⟩
    rw [lsort, List.mem_insertionSort, List.mem_map] at hn
    obtain ⟨path, hpath, rfl⟩ := hn
    exact isMatch_nonrecursive hB hL hbare hpath

/-! ## A project with two directories -/

/-- `string match`, for patterns without special characters other than `*`. -/
def likeChars : List Char → List Char → Bool
  | [], cs => cs.isEmpty
  | p :: ps, cs =>
    if p = '*' then cs.tails.any (likeChars ps) else cs.head? = some p && likeChars ps cs.tail

def builtins : Builtins where
  like pattern name := likeChars pattern.toList name.toList
  alts part := [part]
  elements path := [path]

def entries : List (List String × Bool) :=
  [(["top"], true), (["top", "sub"], true), (["top", "sub", "a"], true),
    (["top", "sub", "a", "f.c"], false), (["top", "x"], true), (["top", "x", "f.c"], false)]

theorem entries_listed : FileTree.Listed entries := by
  unfold FileTree.Listed
  decide

def project : FileTree := .ofEntries entries entries_listed

def sub : Place := ⟨["top"], ["sub"], by simp, by decide⟩

def recursively : Options := ⟨false, true, []⟩

def sources : Pattern := ⟨[], "*.c", by simpa using ⟨by decide, by decide⟩⟩

def sourcesOfX : Pattern := ⟨["..", "x"], "*.c", by
  simpa using ⟨⟨by decide, by decide⟩, ⟨by decide, by decide⟩, ⟨by decide, by decide⟩⟩⟩

theorem isWord_of_all {part : String}
    (h : part.toList.all (fun c => c ∉ [' ', '\t', '\n', '\x0b', '\x0c', '\r', '\\']) = true) :
    IsWord part :=
  fun c hc => of_decide_eq_true (List.all_eq_true.mp h c hc)

theorem isBare_of_all {part : String} (h : part.toList.all (fun c => c ∉ ['{', '}', '\\']) = true) :
    IsBare part :=
  fun c hc => of_decide_eq_true (List.all_eq_true.mp h c hc)

theorem start_sub {d : List String} (h : Start project builtins sub recursively sources d) :
    d = ["top", "sub"] := by
  have hmem := h.mem
  rw [show expand project builtins.like builtins.alts (sub.names ++ sources.dirs) =
    [["top", "sub"]] by decide +kernel] at hmem
  exact List.mem_singleton.mp hmem

theorem descends_sub {names : List String}
    (h : Descends project recursively.exclude ["top", "sub"] names) : names = [] ∨ names = ["a"] := by
  have hplace : project.place ["top", "sub"] = some ["top", "sub"] := by decide +kernel
  have hentry : FileTree.lookup entries (["top", "sub"] ++ names) = some true :=
    (h.place hplace (by decide +kernel)).2
  rw [FileTree.lookup, if_neg (by simp), Option.map_eq_some_iff] at hentry
  obtain ⟨e, hfind, hdir⟩ := hentry
  have hname : e.1 = ["top", "sub"] ++ names := by simpa using List.find?_some hfind
  have hmem := List.mem_of_find?_eq_some hfind
  simp only [entries, List.mem_cons, List.not_mem_nil, or_false] at hmem
  rcases hmem with rfl | rfl | rfl | rfl | rfl | rfl
  · simp at hname
  · exact .inl (by simpa using hname.symm)
  · exact .inr (by simpa using hname.symm)
  · cases hdir
  · simp at hname
  · cases hdir

theorem visits_sub {dir : List String} (h : Visits project builtins sub recursively sources dir) :
    dir = ["top", "sub"] ∨ dir = ["top", "sub", "a"] := by
  obtain ⟨d, place, names, hstart, hplace, hdescends, -, rfl⟩ :=
    (visits_iff ⟨fun _ _ => rfl, fun _ _ _ => rfl⟩).mp h
  obtain rfl := start_sub hstart
  obtain rfl : ["top", "sub"] = place := Option.some.inj (.trans (by decide +kernel) hplace)
  rw [show joined ["top", "sub"] = ["top", "sub"] by decide +kernel]
  rcases descends_sub hdescends with rfl | rfl
  · exact .inl rfl
  · exact .inr rfl

theorem wellRead_sub : WellRead project builtins sub recursively sources where
  tail := by decide
  words := by
    have hparts : (sub.names ++ sources.dirs ++ [sources.tail]) = ["top", "sub", "*.c"] := rfl
    rw [hparts]
    simpa using ⟨isWord_of_all (by decide), isWord_of_all (by decide), isWord_of_all (by decide)⟩
  visited dir h := by
    have htop : IsWord "top" ∧ IsBare "top" := ⟨isWord_of_all (by decide), isBare_of_all (by decide)⟩
    have hsub : IsWord "sub" ∧ IsBare "sub" := ⟨isWord_of_all (by decide), isBare_of_all (by decide)⟩
    have ha : IsWord "a" ∧ IsBare "a" := ⟨isWord_of_all (by decide), isBare_of_all (by decide)⟩
    rcases visits_sub h with rfl | rfl
    · simpa using ⟨htop, hsub⟩
    · simpa using ⟨htop, hsub, ha⟩
  stays dir name h _ := by
    rcases visits_sub h with rfl | rfl <;> decide

theorem glob_names_sub :
    ∃ names,
      globNames project builtins sub.topsrcdir sub.pre recursively 9 [sources.path] = some names ∧
      (∀ n ∈ names, IsMatch project builtins sub recursively [sources] n) ∧
        (recursively.recursive = true → Complete project builtins sub recursively [sources] names) := by
  have hbare : ∀ part ∈ sub.names, IsBare part := by
    have hnames : sub.names = ["top", "sub"] := rfl
    rw [hnames]
    simpa using ⟨isBare_of_all (by decide), isBare_of_all (by decide)⟩
  obtain ⟨names, hnames, hiff⟩ := glob_names project builtins sub recursively [sources]
    ⟨fun _ _ => rfl, fun _ _ _ => rfl⟩ (by decide +kernel) hbare
    (fun _ p hp => List.mem_singleton.mp hp ▸ wellRead_sub) 9 (by decide +kernel)
  refine ⟨names, hnames, hiff.mpr fun _ => ⟨fun p hp dir name hvisits _ => ?_, ?_⟩⟩
  · obtain rfl := List.mem_singleton.mp hp
    rcases visits_sub hvisits with rfl | rfl
    · exact ⟨[name], rfl⟩
    · exact ⟨["a", name], rfl⟩
  · intro p hp d place hstart hplace names name hdescends hfits
    refine ⟨p, hp, d, place, names, hstart, hplace, hdescends, ?_, rfl, hfits⟩
    obtain rfl := List.mem_singleton.mp hp
    obtain rfl := start_sub hstart
    obtain rfl : ["top", "sub"] = place := Option.some.inj (.trans (by decide +kernel) hplace)
    rcases descends_sub hdescends with rfl | rfl
    · trivial
    · exact ⟨by decide +kernel, trivial⟩

/-- A file outside: of its path `/top/x/f.c` the last character is left. -/
theorem glob_names_outside :
    globNames project builtins sub.topsrcdir sub.pre recursively 9 [sourcesOfX.path] = some ["c"] ∧
      ¬IsMatch project builtins sub recursively [sourcesOfX] "c" := by
  refine ⟨by decide +kernel, ?_⟩
  rintro ⟨p, -, dir, name, hparts, hfits, -⟩
  have htype := hfits.type
  rw [← hparts] at htype
  exact absurd htype (by decide +kernel)

end Tmake.Glob
