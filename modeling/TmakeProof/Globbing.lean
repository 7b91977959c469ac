import TmakeProof.Lexical
import Mathlib.Data.List.MinMax

/-! # Files found by patterns

A tree of directories and files, the paths that lead through it part by part, and the
paths that match a pattern whose parts are patterns for names.  A part that names
something as it stands matches that and nothing else, so that a path which leads
somewhere matches itself only (`expand_self`).  `Below` are the directories that a
walk visits which descends by one and the same pattern.
-/
namespace Globbing
open Lexical

/-- Files and directories by the names that lead to them from the root. -/
structure FileTree where
  /-- Whether there is something, and whether that is a directory. -/
  entry : List String → Option Bool
  readdir : List String → List String
  depth : Nat
  root : entry [] = some true
  parent : ∀ dir name, entry (dir ++ [name]) ≠ none → entry dir = some true
  mem_readdir : ∀ dir name, name ∈ readdir dir ↔ entry (dir ++ [name]) ≠ none
  length_le : ∀ names, entry names ≠ none → names.length ≤ depth
  proper : ∀ dir name, entry (dir ++ [name]) ≠ none →
    name ∉ ["", ".", ".."] ∧ '/' ∉ name.toList

namespace FileTree
variable (T : FileTree)

/-- Where one part of a path leads. -/
def step (dir : List String) (part : String) : Option (List String) :=
  if T.entry dir = some true then
    if part = "." then some dir
    else if part = ".." then some dir.dropLast
    else if T.entry (dir ++ [part]) = none then none
    else some (dir ++ [part])
  else none

/-- The place where a path leads from the root. -/
def place (path : List String) : Option (List String) := path.foldlM T.step []

def isDirectory (path : List String) : Bool := (T.place path).bind T.entry = some true

def isFile (path : List String) : Bool := (T.place path).bind T.entry = some false

/-- What a list of entries says of the names that lead to one of them. -/
def lookup (entries : List (List String × Bool)) (names : List String) : Option Bool :=
  if names = [] then some true else (entries.find? fun e => e.1 = names).map (·.2)

/-- Each entry lies in a directory, and has a name. -/
def Listed (entries : List (List String × Bool)) : Prop :=
  ∀ e ∈ entries, lookup entries e.1.dropLast = some true ∧
    ∃ name ∈ e.1.getLast?, name ∉ ["", ".", ".."] ∧ '/' ∉ name.toList

theorem lookup_concat {entries : List (List String × Bool)} {dir : List String} {name : String} :
    lookup entries (dir ++ [name]) ≠ none ↔ ∃ e ∈ entries, e.1 = dir ++ [name] := by
  rw [lookup, if_neg (by simp), Ne, Option.map_eq_none_iff, List.find?_eq_none, not_forall₂]
  simp only [decide_eq_true_eq, not_not, exists_prop]

/-- The tree of finitely many entries. -/
def ofEntries (entries : List (List String × Bool)) (h : Listed entries) : FileTree where
  entry := lookup entries
  readdir dir := (entries.filter fun e => e.1.dropLast = dir).filterMap fun e => e.1.getLast?
  depth := (entries.map fun e => e.1.length).foldr max 0
  root := rfl
  parent dir name hentry := by
    obtain ⟨e, he, heq⟩ := lookup_concat.mp hentry
    have hdir := (h e he).1
    rwa [heq, List.dropLast_concat] at hdir
  mem_readdir dir name := by
    rw [lookup_concat, List.mem_filterMap]
    refine exists_congr fun e => ?_
    rw [List.mem_filter, and_assoc]
    refine and_congr_right fun _ => ⟨?_, fun heq => ?_⟩
    · rintro ⟨hdir, hname⟩
      rw [← of_decide_eq_true hdir, List.dropLast_append_getLast? name hname]
    · rw [heq, List.dropLast_concat, List.getLast?_concat]
      exact ⟨decide_eq_true rfl, rfl⟩
  length_le names hentry := by
    rcases List.eq_nil_or_concat names with rfl | ⟨dir, name, rfl⟩
    · exact Nat.zero_le _
    · rw [List.concat_eq_append] at hentry ⊢
      obtain ⟨e, he, heq⟩ := lookup_concat.mp hentry
      rw [← heq]
      exact List.le_max_of_le' 0 (List.mem_map_of_mem he) le_rfl
  proper dir name hentry := by
    obtain ⟨e, he, heq⟩ := lookup_concat.mp hentry
    obtain ⟨last, hlast, hproper⟩ := (h e he).2
    rw [heq, List.getLast?_concat] at hlast
    obtain rfl := Option.some.inj hlast
    exact hproper

end FileTree

def isHidden (name : String) : Bool := name.toList.head? = some '.'

section
variable (T : FileTree) (like : String → String → Bool) (alts : String → List String)

/-- The names in a directory that match a pattern for names. -/
def found (dir : List String) (pattern : String) : List String :=
  if (T.place (dir ++ [pattern])).isSome then [pattern]
  else
    match T.place dir with
    | none => []
    | some place => (T.readdir place ++ [".", ".."]).filter fun name =>
      like pattern name && (!isHidden name || isHidden pattern)

/-- The same for a pattern that stands for several. -/
def matching (dir : List String) (pattern : String) : List String :=
  (alts pattern).flatMap (found T like dir)

/-- One more part of a pattern. -/
def descend (dirs : List (List String)) (part : String) : List (List String) :=
  dirs.flatMap fun dir =>
    if T.isDirectory dir then (matching T like alts dir part).map fun name => dir ++ [name] else []

/-- The paths that match a pattern. -/
def expand (pattern : List String) : List (List String) :=
  pattern.foldl (descend T like alts) [[]]

/-- The directories that are visited by way of one pattern, from a directory on. -/
inductive Below (pattern : String) (exclude : List String) : List String → List String → Prop where
  | here (dir) : Below pattern exclude dir dir
  | into {dir name dir'} (hname : name ∈ matching T like alts dir pattern)
    (hdir : T.isDirectory (dir ++ [name]) = true) (hexclude : name ∉ exclude)
    (hbelow : Below pattern exclude (dir ++ [name]) dir') : Below pattern exclude dir dir'

/-- Directories from a place down, none of them excluded. -/
def Descends (exclude : List String) (place : List String) : List String → Prop
  | [] => True
  | name :: names => T.entry (place ++ [name]) = some true ∧ name ∉ exclude ∧
      Descends exclude (place ++ [name]) names

/-- The pattern finds all the names on the way. -/
def FoundBy (pattern : String) (place : List String) : List String → Prop
  | [] => True
  | name :: names => name ∈ found T like place pattern ∧ FoundBy pattern (place ++ [name]) names

end

/-! ## Places -/

section
variable {T : FileTree} {path dir place : List String} {part name : String}

theorem place_concat (path : List String) (part : String) :
    T.place (path ++ [part]) = (T.place path).bind fun dir => T.step dir part := by
  rw [FileTree.place, List.foldlM_append]
  cases hplace : path.foldlM T.step [] with
  | none => simp [FileTree.place, hplace]
  | some dir =>
    rw [FileTree.place, hplace]
    show List.foldlM T.step dir [part] = T.step dir part
    cases hstep : T.step dir part <;> simp [hstep]

theorem step_eq_some (h : T.step dir part = some place) : T.entry dir = some true ∧
    (part = "." ∧ place = dir ∨ part = ".." ∧ place = dir.dropLast ∨
      T.entry (dir ++ [part]) ≠ none ∧ place = dir ++ [part]) := by
  rw [FileTree.step] at h
  split at h
  · rename_i hdir
    refine ⟨hdir, ?_⟩
    split at h
    · rename_i hdot
      exact .inl ⟨hdot, (Option.some.inj h).symm⟩
    · split at h
      · rename_i hdots
        exact .inr (.inl ⟨hdots, (Option.some.inj h).symm⟩)
      · split at h
        · contradiction
        · rename_i hentry
          exact .inr (.inr ⟨hentry, (Option.some.inj h).symm⟩)
  · contradiction

theorem step_name (hdir : T.entry dir = some true) (hentry : T.entry (dir ++ [name]) ≠ none) :
    T.step dir name = some (dir ++ [name]) := by
  obtain ⟨hname, -⟩ := T.proper dir name hentry
  simp only [List.mem_cons, List.not_mem_nil, or_false, not_or] at hname
  rw [FileTree.step, if_pos hdir, if_neg hname.2.1, if_neg hname.2.2, if_neg hentry]

theorem entry_dropLast (h : T.entry dir = some true) : T.entry dir.dropLast = some true := by
  rcases List.eq_nil_or_concat dir with rfl | ⟨init, last, rfl⟩
  · exact h
  · rw [List.concat_eq_append] at h ⊢
    rw [List.dropLast_concat]
    exact T.parent init last (by simp [h])

theorem step_entry (h : T.step dir part = some place) : T.entry place ≠ none := by
  obtain ⟨hdir, ⟨-, rfl⟩ | ⟨-, rfl⟩ | ⟨hentry, rfl⟩⟩ := step_eq_some h
  · simp [hdir]
  · simp [entry_dropLast hdir]
  · exact hentry

/-- Where a path leads there is something. -/
theorem place_entry (h : T.place path = some place) : T.entry place ≠ none := by
  rcases List.eq_nil_or_concat path with rfl | ⟨init, last, rfl⟩
  · obtain rfl := Option.some.inj h
    simp [T.root]
  · rw [List.concat_eq_append, place_concat] at h
    obtain ⟨dir, -, hstep⟩ := Option.bind_eq_some_iff.mp h
    exact step_entry hstep

theorem isDirectory_iff : T.isDirectory path = true ↔ ∃ dir, T.place path = some dir ∧
    T.entry dir = some true := by
  rw [FileTree.isDirectory, decide_eq_true_eq, Option.bind_eq_some_iff]

/-- The way to a path goes through directories. -/
theorem isDirectory_of_concat (h : (T.place (path ++ [part])).isSome = true) :
    T.isDirectory path = true := by
  obtain ⟨place, hplace⟩ := Option.isSome_iff_exists.mp h
  rw [place_concat] at hplace
  obtain ⟨dir, hdir, hstep⟩ := Option.bind_eq_some_iff.mp hplace
  exact isDirectory_iff.mpr ⟨dir, hdir, (step_eq_some hstep).1⟩

theorem isSome_of_append {path' : List String} (h : (T.place (path ++ path')).isSome = true) :
    (T.place path).isSome = true := by
  induction path' using List.reverseRecOn with
  | nil => simpa using h
  | append_singleton path' part ih =>
    rw [← List.append_assoc] at h
    obtain ⟨dir, hdir, -⟩ := isDirectory_iff.mp (isDirectory_of_concat h)
    exact ih (by simp [hdir])

/-- A part that leads somewhere has no slash in it, and is not empty. -/
theorem part_proper (h : (T.place (path ++ [part])).isSome = true) :
    part ≠ "" ∧ '/' ∉ part.toList := by
  obtain ⟨place, hplace⟩ := Option.isSome_iff_exists.mp h
  rw [place_concat] at hplace
  obtain ⟨dir, -, hstep⟩ := Option.bind_eq_some_iff.mp hplace
  obtain ⟨-, ⟨rfl, -⟩ | ⟨rfl, -⟩ | ⟨hentry, -⟩⟩ := step_eq_some hstep
  · decide
  · decide
  · obtain ⟨hname, hslash⟩ := T.proper dir part hentry
    exact ⟨fun heq => hname (by simp [heq]), hslash⟩

theorem parts_proper (h : (T.place path).isSome = true) :
    ∀ part ∈ path, part ≠ "" ∧ '/' ∉ part.toList := by
  intro part hpart
  obtain ⟨init, rest, rfl⟩ := List.append_of_mem hpart
  rw [show init ++ part :: rest = init ++ [part] ++ rest by simp] at h
  exact part_proper (isSome_of_append h)

/-- The names from the root lead where they are. -/
theorem place_self {names : List String} (h : T.entry names ≠ none) : T.place names = some names := by
  induction names using List.reverseRecOn with
  | nil => rfl
  | append_singleton names name ih =>
    have hparent := T.parent names name h
    rw [place_concat, ih (by simp [hparent]), Option.bind_some]
    exact step_name hparent h

/-- A path without `.` and `..` leads where it says. -/
theorem place_of_names (h : (T.place path).isSome = true)
    (hpath : ∀ part ∈ path, part ≠ "." ∧ part ≠ "..") :
    T.place path = some path := by
  induction path using List.reverseRecOn with
  | nil => rfl
  | append_singleton path part ih =>
    have hinit := ih (isSome_of_append h) fun part hpart => hpath part (by simp [hpart])
    obtain ⟨place, hplace⟩ := Option.isSome_iff_exists.mp h
    have hstep := hplace
    rw [place_concat, hinit, Option.bind_some] at hstep
    obtain ⟨hdot, hdots⟩ := hpath part (by simp)
    obtain ⟨-, ⟨heq, -⟩ | ⟨heq, -⟩ | ⟨-, rfl⟩⟩ := step_eq_some hstep
    · exact absurd heq hdot
    · exact absurd heq hdots
    · exact hplace

/-- How long a path is that is written out. -/
def pathLength : List String → Nat
  | [] => 0
  | part :: path => part.length + 1 + pathLength path

theorem pathLength_concat (path : List String) (part : String) :
    pathLength (path ++ [part]) = pathLength path + (part.length + 1) := by
  induction path with
  | nil => exact Nat.add_comm _ _
  | cons first path ih =>
    rw [List.cons_append, pathLength, pathLength, ih]
    exact (Nat.add_assoc _ _ _).symm

theorem pathLength_filter (f : String → Bool) (ps : List String) :
    pathLength (ps.filter f) ≤ pathLength ps := by
  induction ps with
  | nil => exact le_rfl
  | cons part ps ih =>
    rw [List.filter_cons, pathLength]
    split
    · rw [pathLength]
      omega
    · omega

theorem pathLength_dropLast (path : List String) : pathLength path.dropLast ≤ pathLength path := by
  rcases List.eq_nil_or_concat path with rfl | ⟨init, last, rfl⟩
  · exact le_rfl
  · rw [List.concat_eq_append, List.dropLast_concat, pathLength_concat]
    exact Nat.le_add_right _ _

/-- A path that says something else is longer than the path of where it leads. -/
theorem place_pathLength (h : T.place path = some place) :
    path = place ∨ pathLength place < pathLength path := by
  induction path using List.reverseRecOn generalizing place with
  | nil => exact .inl (Option.some.inj h)
  | append_singleton path part ih =>
    rw [place_concat] at h
    obtain ⟨dir, hdir, hstep⟩ := Option.bind_eq_some_iff.mp h
    have hle : pathLength dir ≤ pathLength path := by
      rcases ih hdir with rfl | hlt
      · exact le_rfl
      · exact hlt.le
    rw [pathLength_concat]
    obtain ⟨-, ⟨rfl, rfl⟩ | ⟨rfl, rfl⟩ | ⟨-, rfl⟩⟩ := step_eq_some hstep
    · exact .inr (by omega)
    · have hup := pathLength_dropLast dir
      exact .inr (by omega)
    · rw [pathLength_concat]
      rcases ih hdir with rfl | hlt
      · exact .inl rfl
      · exact .inr (by omega)

/-- Going up undoes the step before. -/
theorem place_joined (h : T.place path = some place) :
    T.place (resolve ".." (path.filter (· ≠ "."))) = some place := by
  induction path using List.reverseRecOn generalizing place with
  | nil => exact h
  | append_singleton path part ih =>
    rw [place_concat] at h
    obtain ⟨dir, hdir, hstep⟩ := Option.bind_eq_some_iff.mp h
    have hplace := ih hdir
    rw [List.filter_append]
    obtain ⟨hentry, ⟨rfl, rfl⟩ | ⟨rfl, rfl⟩ | ⟨hname, rfl⟩⟩ := step_eq_some hstep
    · rw [List.filter_cons_of_neg (by simp), List.filter_nil, List.append_nil]
      exact hplace
    · rw [List.filter_cons_of_pos (by simp), List.filter_nil, resolve_concat]
      generalize hjoined : resolve ".." (path.filter (· ≠ ".")) = joined at hplace
      have hup : T.step dir ".." = some dir.dropLast := hstep
      rcases List.eq_nil_or_concat joined with rfl | ⟨init, last, rfl⟩
      · obtain rfl := Option.some.inj hplace
        show T.place ([] ++ [".."]) = _
        rw [place_concat]
        exact hup
      · rw [List.concat_eq_append] at hplace hjoined ⊢
        rw [List.reverse_append, List.reverse_singleton, List.singleton_append]
        by_cases hlast : last = ".."
        · rw [push, if_neg fun hc => hc.2 hlast]
          rw [List.reverse_cons, List.reverse_cons, List.reverse_reverse, place_concat, hplace]
          exact hup
        · rw [push_up hlast, List.reverse_reverse]
          rw [place_concat] at hplace
          obtain ⟨dir', hdir', hstep'⟩ := Option.bind_eq_some_iff.mp hplace
          have hdot : last ≠ "." := by
            have hmem : last ∈ resolve ".." (path.filter (· ≠ ".")) := hjoined ▸ by simp
            exact by simpa using (List.mem_filter.mp (resolve_subset _ hmem)).2
          obtain ⟨-, ⟨heq, -⟩ | ⟨heq, -⟩ | ⟨-, rfl⟩⟩ := step_eq_some hstep'
          · exact absurd heq hdot
          · exact absurd heq hlast
          · rw [List.dropLast_concat]
            exact hdir'
    · obtain ⟨hproper, -⟩ := T.proper dir part hname
      simp only [List.mem_cons, List.not_mem_nil, or_false, not_or] at hproper
      rw [List.filter_cons_of_pos (by simpa using hproper.2.1), List.filter_nil, resolve_concat,
        push_of_ne hproper.2.2, List.reverse_cons, List.reverse_reverse, place_concat, hplace]
      exact hstep

end

/-! ## Matches -/

section
variable {T : FileTree} {like : String → String → Bool} {alts : String → List String}
variable {path dir : List String} {part name pattern : String}

/-- What leads somewhere as it stands matches itself only. -/
theorem found_self (h : (T.place (dir ++ [name])).isSome = true) :
    found T like dir name = [name] := if_pos h

theorem found_exists (hdir : T.isDirectory dir = true) (h : name ∈ found T like dir pattern) :
    (T.place (dir ++ [name])).isSome = true := by
  obtain ⟨place, hplace, hentry⟩ := isDirectory_iff.mp hdir
  rw [found] at h
  split at h
  · rename_i hself
    exact List.mem_singleton.mp h ▸ hself
  · rw [hplace] at h
    rw [place_concat, hplace, Option.bind_some]
    rcases List.mem_append.mp (List.mem_filter.mp h).1 with hname | hname
    · rw [step_name hentry ((T.mem_readdir place name).mp hname)]
      rfl
    · rw [FileTree.step, if_pos hentry]
      simp only [List.mem_cons, List.not_mem_nil, or_false] at hname
      rcases hname with rfl | rfl <;> rfl

/-- What matches a pattern that is not hidden, and no name itself, is a name in the directory. -/
theorem found_name {place : List String} (hplace : T.place dir = some place)
    (hentry : T.entry place = some true) (hhidden : isHidden pattern = false)
    (h : name ∈ found T like dir pattern) :
    T.place (dir ++ [name]) = some (place ++ [name]) ∧ T.entry (place ++ [name]) ≠ none := by
  have hnamed (hname : T.entry (place ++ [name]) ≠ none) :
      T.place (dir ++ [name]) = some (place ++ [name]) ∧ T.entry (place ++ [name]) ≠ none := by
    rw [place_concat, hplace, Option.bind_some]
    exact ⟨step_name hentry hname, hname⟩
  rw [found] at h
  split at h
  · rename_i hself
    obtain rfl := List.mem_singleton.mp h
    obtain ⟨there, hthere⟩ := Option.isSome_iff_exists.mp hself
    rw [place_concat, hplace, Option.bind_some] at hthere
    obtain ⟨-, ⟨rfl, -⟩ | ⟨rfl, -⟩ | ⟨hname, -⟩⟩ := step_eq_some hthere
    · exact absurd hhidden (by decide)
    · exact absurd hhidden (by decide)
    · exact hnamed hname
  · rw [hplace] at h
    obtain ⟨hmem, hlike⟩ := List.mem_filter.mp h
    rcases List.mem_append.mp hmem with hname | hname
    · exact hnamed ((T.mem_readdir place name).mp hname)
    · rw [hhidden] at hlike
      simp only [List.mem_cons, List.not_mem_nil, or_false] at hname
      rcases hname with rfl | rfl
      · exact absurd hlike (by simp [isHidden])
      · exact absurd hlike (by simp [isHidden])

/-- What matches depends on the place only. -/
theorem found_congr {dir' : List String} (h : T.place dir = T.place dir') (pattern : String) :
    found T like dir pattern = found T like dir' pattern := by
  rw [found, found, place_concat, place_concat, h]

theorem mem_expand_concat {pattern : List String} : path ∈ expand T like alts (pattern ++ [part]) ↔
    ∃ dir ∈ expand T like alts pattern, T.isDirectory dir = true ∧
      ∃ name ∈ matching T like alts dir part, path = dir ++ [name] := by
  rw [expand, List.foldl_append, List.foldl_cons, List.foldl_nil, ← expand, descend, List.mem_flatMap]
  refine exists_congr fun dir => and_congr_right fun _ => ?_
  by_cases hdir : T.isDirectory dir = true
  · rw [if_pos hdir, List.mem_map]
    simp only [hdir, true_and, eq_comm]
  · rw [if_neg hdir]
    simp [hdir]

theorem expand_exists {pattern : List String} (h : path ∈ expand T like alts pattern) :
    (T.place path).isSome = true := by
  rcases List.eq_nil_or_concat pattern with rfl | ⟨init, last, rfl⟩
  · obtain rfl := List.mem_singleton.mp h
    rfl
  · rw [List.concat_eq_append] at h
    obtain ⟨dir, -, hdir, name, hname, rfl⟩ := mem_expand_concat.mp h
    obtain ⟨alt, -, hfound⟩ := List.mem_flatMap.mp hname
    exact found_exists hdir hfound

/-- A path that leads somewhere, and stands for no other, matches itself only. -/
theorem expand_self (halts : ∀ part ∈ path, alts part = [part]) (h : (T.place path).isSome = true) :
    expand T like alts path = [path] := by
  induction path using List.reverseRecOn with
  | nil => rfl
  | append_singleton path part ih =>
    have hdir := isDirectory_of_concat h
    have hpath : (T.place path).isSome = true := isSome_of_append h
    rw [expand, List.foldl_append, ← expand, ih (fun p hp => halts p (by simp [hp])) hpath,
      List.foldl_cons, List.foldl_nil, descend, List.flatMap_singleton, if_pos hdir, matching,
      halts part (by simp), List.flatMap_singleton, found_self h, List.map_singleton]

/-- The matches of a pattern that begins with such a path begin with it. -/
theorem expand_append (halts : ∀ part ∈ dir, alts part = [part]) (hdir : (T.place dir).isSome = true)
    {pattern : List String} (h : path ∈ expand T like alts (dir ++ pattern)) :
    ∃ rest, path = dir ++ rest ∧ rest.length = pattern.length := by
  induction pattern using List.reverseRecOn generalizing path with
  | nil =>
    rw [List.append_nil, expand_self halts hdir] at h
    exact ⟨[], by rw [List.mem_singleton.mp h, List.append_nil], rfl⟩
  | append_singleton pattern part ih =>
    rw [← List.append_assoc] at h
    obtain ⟨dir', hdir', -, name, -, rfl⟩ := mem_expand_concat.mp h
    obtain ⟨rest, rfl, hlength⟩ := ih hdir'
    exact ⟨rest ++ [name], by simp, by simp [hlength]⟩

end

/-! ## Directories below a directory -/

section
variable {T : FileTree} {like : String → String → Bool} {alts : String → List String}
variable {exclude : List String} {pattern : String} {dir dir' : List String}

theorem Descends.place {place names : List String} (h : Descends T exclude place names)
    (hplace : T.place dir = some place) (hentry : T.entry place = some true) :
    T.place (dir ++ names) = some (place ++ names) ∧ T.entry (place ++ names) = some true := by
  induction names generalizing dir place with
  | nil => simpa using ⟨hplace, hentry⟩
  | cons name names ih =>
    obtain ⟨hname, -, hrest⟩ := h
    have hstep : T.place (dir ++ [name]) = some (place ++ [name]) := by
      rw [place_concat, hplace, Option.bind_some]
      exact step_name hentry (by simp [hname])
    simpa using ih hrest hstep hname

theorem Descends.proper {place names : List String} (h : Descends T exclude place names) :
    ∀ name ∈ names, name ∉ ["", ".", ".."] := by
  induction names generalizing place with
  | nil => simp
  | cons name names ih =>
    obtain ⟨hname, -, hrest⟩ := h
    rw [List.forall_mem_cons]
    exact ⟨(T.proper place name (by simp [hname])).1, ih hrest⟩

/-- The directories that are visited, by their places. -/
theorem below_iff {place : List String} (hhidden : isHidden pattern = false)
    (halts : alts pattern = [pattern]) (hplace : T.place dir = some place)
    (hentry : T.entry place = some true) : Below T like alts pattern exclude dir dir' ↔
      ∃ names, dir' = dir ++ names ∧ Descends T exclude place names ∧
        FoundBy T like pattern place names := by
  have hfound {dir place : List String} (hplace : T.place dir = some place)
      (hentry : T.entry place = some true) :
      matching T like alts dir pattern = found T like place pattern := by
    rw [matching, halts, List.flatMap_singleton]
    exact found_congr (hplace.trans (place_self (by simp [hentry])).symm) pattern
  constructor
  · intro h
    induction h generalizing place with
    | here dir => exact ⟨[], by simp, trivial, trivial⟩
    | @into dir name dir' hname hdir hexclude _ ih =>
      rw [hfound hplace hentry] at hname
      obtain ⟨hsub, -⟩ := found_name (place_self (by simp [hentry])) hentry hhidden hname
      have hdirectory : T.place (dir ++ [name]) = some (place ++ [name]) := by
        rw [place_concat, hplace, ← hsub, place_concat, place_self (by simp [hentry])]
      obtain ⟨place', hplace', hentry'⟩ := isDirectory_iff.mp hdir
      obtain rfl := Option.some.inj (hdirectory.symm.trans hplace')
      obtain ⟨names, rfl, hdescends, hrest⟩ := ih hdirectory hentry'
      exact ⟨name :: names, by simp, ⟨hentry', hexclude, hdescends⟩, ⟨hname, hrest⟩⟩
  · rintro ⟨names, rfl, hdescends, hrest⟩
    induction names generalizing dir place with
    | nil => rw [List.append_nil]; exact .here dir
    | cons name names ih =>
      obtain ⟨hname, hexclude, hdescends⟩ := hdescends
      have hstep : T.place (dir ++ [name]) = some (place ++ [name]) := by
        rw [place_concat, hplace, Option.bind_some]
        exact step_name hentry (by simp [hname])
      have hbelow := ih hstep hname hdescends hrest.2
      rw [List.append_assoc, List.singleton_append] at hbelow
      exact .into ((hfound hplace hentry).symm ▸ hrest.1)
        (isDirectory_iff.mpr ⟨_, hstep, hname⟩) hexclude hbelow

end

end Globbing
