import TmakeProof.ScanCache

/-! # Shadowed headers

A compiler takes the first file that it finds on its search path.  `find-file`
collects all matches along the path, building those that are targets, and the
scanner takes them all: a file that stands behind another one of its name is a
dependency, it is scanned, and its directory is searched from then on.
-/
namespace Tmake

variable {regexp : String → String → List String} {t t' : Tree} {a : ScanArgs}

/-- Behind the first match for the name there is neither a target nor a file on the path. -/
def Unshadowed (t : Tree) (n : Name) (paths : List Path) : Prop :=
  ∀ pre q post, paths = pre ++ q :: post → findFile t n pre ≠ [] →
    t.desc.isTarget (fileJoin q n) = false ∧ t.fs.exists? (fileJoin q n) = false

/-- Only first matches count: as dependencies, as the matches that are recorded for a name and
compared with the cached ones, and among the targets that are built for a look-up. -/
structure Precise (regexp : String → String → List String) (t : Tree) (a : ScanArgs)
    (start : List Path) : Prop where
  deps : ∀ p ∈ (recursiveScan regexp t a start).deps, ∃ n paths e,
    (n, paths) ∈ (recursiveScan regexp t a start).lookups ∧
    (findFile t n paths).head? = some e ∧ e.path = p
  results : ∀ x ∈ (recursiveScan regexp t a start).results, x.2.length ≤ 1
  builds : ∀ n paths, (n, paths) ∈ (recursiveScan regexp t a start).lookups →
    ∀ pre q post, paths = pre ++ q :: post → t.desc.isTarget (fileJoin q n) = true →
    findFile t n pre = []

/-- The trees differ at most in what is shadowed in the first: what a look-up of its scan finds
first is the same, and the same is read there. -/
structure SameFirst (regexp : String → String → List String) (t t' : Tree) (a : ScanArgs)
    (start : List Path) : Prop where
  input : headerScanRegexp regexp t' a (t'.real a.filename) =
    headerScanRegexp regexp t a (t.real a.filename)
  first : ∀ n paths, (n, paths) ∈ (recursiveScan regexp t a start).lookups →
    (findFile t' n paths).head? = (findFile t n paths).head?
  reads : ∀ n paths, (n, paths) ∈ (recursiveScan regexp t a start).lookups →
    ∀ e, (findFile t n paths).head? = some e →
    headerScanRegexp regexp t' a e.path = headerScanRegexp regexp t a e.path

/-! ## Matches along the path -/

theorem findFile_append (n : Name) (l l' : List Path) :
    findFile t n (l ++ l') = findFile t n l ++ findFile t n l' := List.filterMap_append

/-- Two matches: the second is at a place on the path with a match before it. -/
theorem exists_second {n : Name} {paths : List Path} (h : 2 ≤ (findFile t n paths).length) :
    ∃ pre q post, paths = pre ++ q :: post ∧ findFile t n pre ≠ [] ∧
      (findAllFilesOnPath t n q).isSome := by
  induction paths with
  | nil => simp [findFile] at h
  | cons p paths ih =>
    have hcons : findFile t n (p :: paths) = findFile t n [p] ++ findFile t n paths :=
      findFile_append n [p] paths
    by_cases hp : findFile t n [p] = []
    · rw [hcons, hp, List.nil_append] at h
      obtain ⟨pre, q, post, rfl, hpre, hq⟩ := ih h
      refine ⟨p :: pre, q, post, rfl, ?_, hq⟩
      rw [show p :: pre = [p] ++ pre from rfl, findFile_append, hp, List.nil_append]
      exact hpre
    · -- the first match is here, the second one is the first further on
      have hone : (findFile t n [p]).length ≤ 1 := List.length_filterMap_le ..
      rw [hcons, List.length_append] at h
      obtain ⟨e, he⟩ := List.exists_mem_of_length_pos (l := findFile t n paths) (by omega)
      obtain ⟨q, hq, hqe⟩ := mem_findFile.mp he
      obtain ⟨pre, post, rfl⟩ := List.append_of_mem hq
      refine ⟨p :: pre, q, post, rfl, fun hnil => hp ?_, by rw [hqe]; rfl⟩
      rw [show p :: pre = [p] ++ pre from rfl, findFile_append] at hnil
      exact (List.append_eq_nil_iff.mp hnil).1

/-- What is at a match is a target or a file. -/
theorem match_iff {n : Name} {q : Path} (hq : t.desc.isTarget (fileJoin q n) = false) :
    (findAllFilesOnPath t n q).isSome ↔ t.fs.exists? (fileJoin q n) = true := by
  unfold findAllFilesOnPath
  simp [hq]

/-- A look-up finds at most one match, and asks for no target behind it, exactly if nothing is
shadowed there. -/
theorem unshadowed_iff {n : Name} {paths : List Path} :
    (findFile t n paths).length ≤ 1 ∧
      (∀ pre q post, paths = pre ++ q :: post → t.desc.isTarget (fileJoin q n) = true →
        findFile t n pre = []) ↔ Unshadowed t n paths := by
  constructor
  · rintro ⟨hone, hbuilds⟩ pre q post rfl hpre
    have htarget : t.desc.isTarget (fileJoin q n) = false := by
      by_contra h
      exact hpre (hbuilds pre q post rfl (by simpa using h))
    refine ⟨htarget, ?_⟩
    by_contra h
    have hmatch := (match_iff htarget).mpr (by simpa using h)
    obtain ⟨e, he⟩ := Option.isSome_iff_exists.mp hmatch
    have hq : findFile t n (q :: post) = e :: findFile t n post := by
      simp [findFile, he]
    rw [findFile_append, hq, List.length_append, List.length_cons] at hone
    have hpos := List.length_pos_iff.mpr hpre
    omega
  · intro h
    constructor
    · by_contra hlen
      have htwo : 2 ≤ (findFile t n paths).length := by omega
      obtain ⟨pre, q, post, hpaths, hpre, hq⟩ := exists_second htwo
      obtain ⟨htarget, hex⟩ := h pre q post hpaths hpre
      rw [match_iff htarget, hex] at hq
      cases hq
    · intro pre q post hpaths htarget
      by_contra hpre
      rw [(h pre q post hpaths hpre).1] at htarget
      cases htarget

/-! ## Where the dependencies come from -/

theorem takeEntries_deps {found : List Entry} {st : ScanState × List Name} {p : Path}
    (h : p ∈ (found.foldl (takeEntry regexp t a) st).1.deps) :
    p ∈ st.1.deps ∨ ∃ e ∈ found, e.path = p := by
  induction found generalizing st with
  | nil => exact Or.inl h
  | cons e found ih =>
    rcases ih h with h | ⟨e', he', rfl⟩
    · unfold takeEntry at h
      dsimp only at h
      split at h
      · exact Or.inl h
      · rcases mem_lappendUniq.mp h with rfl | h
        · exact Or.inr ⟨e, List.mem_cons_self, rfl⟩
        · exact Or.inl h
    · exact Or.inr ⟨e', List.mem_cons_of_mem _ he', rfl⟩

/-- Every dependency is a match of a name that has been looked up. -/
def FromLookups (t : Tree) (s : ScanState) : Prop :=
  ∀ p ∈ s.deps, ∃ n paths e, (n, paths) ∈ s.lookups ∧ e ∈ findFile t n paths ∧ e.path = p

theorem scanName_fromLookups (st : ScanState × List Name) (d : Name) (h : FromLookups t st.1) :
    FromLookups t (scanName regexp t a st d).1 := by
  unfold scanName
  dsimp only
  split
  · exact h
  · intro p hp
    rw [(takeEntries_taken _ _ _ _ _).lookups]
    rcases takeEntries_deps hp with hp | ⟨e, he, rfl⟩
    · obtain ⟨n, paths, e, hl, he, hep⟩ := h p hp
      exact ⟨n, paths, e, List.mem_append_left _ hl, he, hep⟩
    · exact ⟨d, st.1.incpaths, e, List.mem_append_right _ List.mem_cons_self, he, rfl⟩

variable (regexp t a) in
theorem recursiveScan_fromLookups (start : List Path) :
    FromLookups t (recursiveScan regexp t a start) :=
  recursiveScan_keeps scanName_fromLookups (fun _ hp => nomatch hp)

/-! ## When the scan is precise -/

theorem precise_iff {start : List Path} : Precise regexp t a start ↔
    ∀ n paths, (n, paths) ∈ (recursiveScan regexp t a start).lookups → Unshadowed t n paths := by
  have hrecords : Records t (recursiveScan regexp t a start) := recursiveScan_records start
  constructor
  · intro h n paths hl
    refine unshadowed_iff.mp ⟨h.results (n, findFile t n paths) ?_, h.builds n paths hl⟩
    rw [hrecords]
    exact List.mem_map.mpr ⟨_, hl, rfl⟩
  · intro h
    have hone : ∀ n paths, (n, paths) ∈ (recursiveScan regexp t a start).lookups →
        (findFile t n paths).length ≤ 1 := fun n paths hl => (unshadowed_iff.mpr (h n paths hl)).1
    refine ⟨fun p hp => ?_, fun x hx => ?_, fun n paths hl => (unshadowed_iff.mpr (h n paths hl)).2⟩
    · obtain ⟨n, paths, e, hl, he, hep⟩ := recursiveScan_fromLookups regexp t a start p hp
      refine ⟨n, paths, e, hl, ?_, hep⟩
      obtain ⟨e', he'⟩ := List.length_eq_one_iff.mp
        (Nat.le_antisymm (hone n paths hl) (List.length_pos_of_mem he))
      rw [he'] at he ⊢
      obtain rfl := List.mem_singleton.mp he
      rfl
    · rw [hrecords] at hx
      obtain ⟨⟨n, paths⟩, hl, rfl⟩ := List.mem_map.mp hx
      exact hone n paths hl

/-- A list of at most one element is its head. -/
theorem eq_of_head_eq {α : Type} {l l' : List α} (hl : l.length ≤ 1) (hl' : l'.length ≤ 1)
    (h : l'.head? = l.head?) : l' = l := by
  match l, l' with
  | [], [] => rfl
  | [_], [_] => simpa using h
  | [], [_] | [_], [] => simp at h

/-- Two scans without shadowed files return the same if what they find first is the same. -/
theorem recursiveScan_sameFirst {start : List Path} (h : SameFirst regexp t t' a start)
    (ht : ∀ n paths, (n, paths) ∈ (recursiveScan regexp t a start).lookups →
      Unshadowed t n paths)
    (ht' : ∀ n paths, (n, paths) ∈ (recursiveScan regexp t' a start).lookups →
      Unshadowed t' n paths) :
    (recursiveScan regexp t' a start).deps = (recursiveScan regexp t a start).deps := by
  refine recursiveScan_alike (R := fun P P' => P = P') ?_ rfl rfl h.input ?_
  · rintro p P _ rfl
    rfl
  · rintro n P _ hP hP' rfl
    have hone := (unshadowed_iff.mpr (ht n P hP)).1
    have hone' := (unshadowed_iff.mpr (ht' n P hP')).1
    refine ⟨eq_of_head_eq hone hone' (h.first n P hP), fun e he => h.reads n P hP e ?_⟩
    obtain ⟨e', he'⟩ := List.length_eq_one_iff.mp
      (Nat.le_antisymm hone (List.length_pos_of_mem he))
    rw [he'] at he ⊢
    obtain rfl := List.mem_singleton.mp he
    rfl

/-- A header in `x`, and perhaps one of the same name in `y`, which comes after `x`. -/
def headersInDirs (l : List (Path × String)) : Tree :=
  .ofSources ([("a.c", "#include \"a.h\"\n"), ("x/a.h", "")] ++ l)

def headersArgs : ScanArgs := ⟨["x", "y"], "", "", "a.c"⟩

theorem headersInDirs_lookups (l : List (Path × String)) (hl : l = [] ∨ l = [("y/a.h", "")]) :
    (recursiveScan (fun _ => quoted) (headersInDirs l) headersArgs ["x", "y", "."]).lookups =
      [("a.h", ["x", "y", "."])] := by
  rcases hl with rfl | rfl <;> decide +kernel

theorem headersInDirs_sameFirst (l : List (Path × String)) (hl : l = [] ∨ l = [("y/a.h", "")]) :
    SameFirst (fun _ => quoted) (headersInDirs []) (headersInDirs l) headersArgs ["x", "y", "."] := by
  refine ⟨?_, fun n paths hn => ?_, fun n paths hn e he => ?_⟩
  · rcases hl with rfl | rfl <;> decide +kernel
  · rw [headersInDirs_lookups [] (Or.inl rfl), List.mem_singleton] at hn
    cases hn
    rcases hl with rfl | rfl <;> decide +kernel
  · rw [headersInDirs_lookups [] (Or.inl rfl), List.mem_singleton] at hn
    cases hn
    have hfirst : (findFile (headersInDirs []) "a.h" ["x", "y", "."]).head? =
        some ⟨.source, "x/a.h", "", "0,1"⟩ := by decide +kernel
    rw [hfirst] at he
    cases he
    rcases hl with rfl | rfl <;> decide +kernel

end Tmake
