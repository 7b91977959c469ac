import Mathlib.Order.Basic
import TmakeProof.Description

/-! # The include scanner

`header-scan-regexp-recursive` scans a file for include directives, looks the
names up along a search path and scans what it finds in turn.  The search path
grows by the directory of every file found, but a name that has been looked up
is not looked up again, so that what is found depends on the order.

The scan sees the rules and files as one `Tree`: what is there once the targets
that it looks up have been built.  Tcl's `regexp` is the variable `regexp`,
which from a pattern and the contents of a file gives the names captured.
-/
namespace Tmake

inductive FileType where
  | target | source
  deriving DecidableEq, Repr

/-- `{type path hash uuid}`, as `find-all-files-on-path` returns it. -/
structure Entry where
  type : FileType
  path : Path
  hash : String
  uuid : String
  deriving DecidableEq, Repr

/-- The rules and files that a scan finds. -/
structure Tree where
  desc : Desc
  fs : FS
  /-- `build-sync` answers `built` or `uptodate`. -/
  built : Name → Bool
  /-- `calc-file-hash`. -/
  hash : Name → String
  /-- `calc-file-uuid`: device and inode. -/
  uuid : Path → String
  /-- All files there are. -/
  files : List Path
  finite : ∀ p, fs.exists? p = true → p ∈ files
  /-- Two names of one file show the same contents. -/
  inode : ∀ p q, fs.exists? p = true → fs.exists? q = true → uuid p = uuid q → fs.stat p = fs.stat q

/-- The arguments of `header-scan-regexp-recursive`. -/
structure ScanArgs where
  incpaths : List Path
  suffix : String
  regex : String
  filename : Name

/-- `lappend-uniq`. -/
def lappendUniq (value : Path) (list : List Path) : List Path :=
  if value ∈ list then list else list ++ [value]

section
variable (regexp : String → String → List String) (t : Tree) (a : ScanArgs)

/-- The file in which a name stands: a target is in the build directory. -/
def Tree.real (name : Name) : Path :=
  if t.desc.isTarget name then t.desc.fileBuild name else name

/-- The names that the directives in a file give. -/
def Tree.names (file : Path) : List Name :=
  match t.fs.stat file with
  | some (_, contents) => (regexp a.regex contents).map (· ++ a.suffix)
  | none => []

/-- `header-scan-regexp`. -/
def headerScanRegexp (filename : Name) : List Name :=
  if t.fs.exists? filename then t.names regexp a filename
  else t.names regexp a (t.desc.fileBuild filename)

/-- `find-all-files-on-path`.  A target that cannot be built is not found; it is reported, or
ends tmake with `--quickstop`. -/
def findAllFilesOnPath (filename : Name) (path : Path) : Option Entry :=
  let f := fileJoin path filename
  if t.desc.isTarget f then
    if t.built f && t.fs.exists? (t.desc.fileBuild f) then
      some ⟨.target, f, t.hash f, t.uuid (t.desc.fileBuild f)⟩
    else none
  else if t.fs.exists? f then some ⟨.source, f, t.hash f, t.uuid f⟩
  else none

/-- `find-file`, all matches along the path. -/
def findFile (filename : Name) (paths : List Path) : List Entry :=
  paths.filterMap (findAllFilesOnPath t filename)

/-- The local variables of the loop of `header-scan-regexp-recursive`. -/
structure ScanState where
  incpaths : List Path
  scanned : List Name
  results : List (Name × List Entry) := []
  uuids : List String := []
  deps : List Path := []
  /-- Not read by the program: each name looked up, with the search path at that time. -/
  lookups : List (Name × List Path) := []

/-- One file found: unless it has been seen under another name it is a dependency, its
directory is searched from now on, and its directives are for the next round. -/
def takeEntry (st : ScanState × List Name) (e : Entry) : ScanState × List Name :=
  let (s, newscan) := st
  if e.uuid ∈ s.uuids then (s, newscan)
  else
    ({ s with
        uuids := s.uuids ++ [e.uuid]
        deps := lappendUniq e.path s.deps
        incpaths := lappendUniq (fileDirname e.path) s.incpaths },
      newscan ++ headerScanRegexp regexp t a e.path)

/-- One name: it is looked up the first time only. -/
def scanName (st : ScanState × List Name) (d : Name) : ScanState × List Name :=
  let (s, newscan) := st
  if d ∈ s.scanned then (s, newscan)
  else
    let findfiles := findFile t d s.incpaths
    findfiles.foldl (takeEntry regexp t a)
      ({ s with
          scanned := s.scanned ++ [d]
          results := s.results ++ [(d, findfiles)]
          lookups := s.lookups ++ [(d, s.incpaths)] }, newscan)

/-- The `while` loop, and what is left to scan when the bound on its rounds is reached. -/
def scanRounds : Nat → ScanState → List Name → ScanState × List Name
  | 0, s, toscan => (s, toscan)
  | _ + 1, s, [] => (s, [])
  | n + 1, s, d :: toscan =>
    let (s, newscan) := (d :: toscan).foldl (scanName regexp t a) (s, [])
    scanRounds n s newscan

/-- The scan itself, with a search path to start with. -/
def recursiveScan (incpaths : List Path) : ScanState :=
  (scanRounds regexp t a (t.files.length + 2) { incpaths, scanned := [a.filename] }
    (headerScanRegexp regexp t a (t.real a.filename))).1

/-- The given search path and the directory of the file, for `#include "..."`. -/
def startPaths : List Path := lappendUniq (fileDirname (t.real a.filename)) a.incpaths

end

/-- An entry of `tmakecache(headerscan)`. -/
structure ScanCache where
  /-- `{hash incpaths suffix regex}`. -/
  stamp : String × List Path × String × String
  headers : List Path
  results : List (Name × List Entry)
  deriving DecidableEq

/-- An entry as it stands in a Tcl list. -/
def Entry.words (e : Entry) : List String :=
  [match e.type with | .target => "target" | .source => "source", e.path, e.hash, e.uuid]

/-- The values of `deppath` in `foreach {type deppath hash} $cinfo`. -/
def deppaths : List String → List String
  | [] => []
  | [_] => [""]
  | [_, deppath] => [deppath]
  | _ :: deppath :: _ :: words => deppath :: deppaths words

/-- The search path with which cached results are verified. -/
def verifyPaths (results : List (Name × List Entry)) (incpaths : List Path) : List Path :=
  (results.flatMap fun x => deppaths (x.2.flatMap Entry.words)).foldl
    (fun paths deppath => lappendUniq (fileDirname deppath) paths) incpaths

section
variable (regexp : String → String → List String) (t : Tree) (a : ScanArgs)

/-- The stamp of a scan. -/
def scanStamp : String × List Path × String × String :=
  (t.hash a.filename, startPaths t a, a.suffix, a.regex)

/-- A scan whose results are entered in the cache. -/
def memoizedScan (incpaths : List Path) : List Path × Option ScanCache :=
  let s := recursiveScan regexp t a incpaths
  (s.deps, some ⟨scanStamp t a, s.deps, s.results⟩)

/-- `header-scan-regexp-recursive`, with the entry of the cache for this file before and
after. -/
def headerScanRegexpRecursive (cached : Option ScanCache) : List Path × Option ScanCache :=
  if t.fs.exists? (t.real a.filename) then
    match cached with
    | none => memoizedScan regexp t a (startPaths t a)
    | some c =>
      if c.stamp = scanStamp t a then
        let incpaths := verifyPaths c.results (startPaths t a)
        if c.results.all fun x => findFile t x.1 incpaths = x.2 then (c.headers, some c)
        else memoizedScan regexp t a incpaths
      else memoizedScan regexp t a (startPaths t a)
  else ([], cached)

end

/-! ## What a scan covers -/

section
variable {regexp : String → String → List String} {t : Tree} {a : ScanArgs}

theorem mem_lappendUniq {p q : Path} {l : List Path} : p ∈ lappendUniq q l ↔ p = q ∨ p ∈ l := by
  unfold lappendUniq
  split
  · next h => exact ⟨Or.inr, fun h' => h'.elim (fun h' => h' ▸ h) id⟩
  · simp [or_comm]

/-- What `find-all-files-on-path` finds is there. -/
theorem find_real {n : Name} {path : Path} {e : Entry}
    (h : findAllFilesOnPath t n path = some e) :
    t.fs.exists? (t.real e.path) = true ∧ e.uuid = t.uuid (t.real e.path) ∧
      e.hash = t.hash e.path ∧ (e.type = .source → t.desc.isTarget e.path = false) := by
  unfold findAllFilesOnPath at h
  dsimp only at h
  split at h
  · next ht =>
    split at h
    · next hb =>
      obtain rfl := Option.some.inj h
      simp only [Tree.real, ht, if_true]
      exact ⟨(Bool.and_eq_true_iff.mp hb).2, trivial, trivial, nofun⟩
    · cases h
  · next ht =>
    split at h
    · next hb =>
      obtain rfl := Option.some.inj h
      simp only [Tree.real, ht, Bool.false_eq_true, if_false]
      exact ⟨hb, trivial, trivial, fun _ => by simp⟩
    · cases h

theorem mem_findFile {n : Name} {paths : List Path} {e : Entry} :
    e ∈ findFile t n paths ↔ ∃ p ∈ paths, findAllFilesOnPath t n p = some e :=
  List.mem_filterMap

/-- What has happened when some of the files found for a name have been taken. -/
structure Taken (regexp : String → String → List String) (t : Tree) (a : ScanArgs)
    (found : List Entry) (st st' : ScanState × List Name) : Prop where
  scanned : st'.1.scanned = st.1.scanned
  results : st'.1.results = st.1.results
  lookups : st'.1.lookups = st.1.lookups
  incpaths : ∀ p ∈ st.1.incpaths, p ∈ st'.1.incpaths
  deps : ∀ p ∈ st.1.deps, p ∈ st'.1.deps
  uuids : ∀ u ∈ st.1.uuids, u ∈ st'.1.uuids
  newscan : ∀ n ∈ st.2, n ∈ st'.2
  nodup : st.1.uuids.Nodup → st'.1.uuids.Nodup
  grows : st.1.uuids.length ≤ st'.1.uuids.length
  progress : st'.2 = st.2 ∨ st.1.uuids.length < st'.1.uuids.length
  seen : ∀ e ∈ found, e.uuid ∈ st'.1.uuids
  taken : ∀ u ∈ st'.1.uuids, u ∈ st.1.uuids ∨ ∃ e ∈ found, e.uuid = u ∧ e.path ∈ st'.1.deps ∧
    ∀ n ∈ headerScanRegexp regexp t a e.path, n ∈ st'.2

theorem takeEntry_taken (st : ScanState × List Name) (e : Entry) :
    Taken regexp t a [e] st (takeEntry regexp t a st e) := by
  obtain ⟨s, newscan⟩ := st
  unfold takeEntry
  dsimp only
  split
  · next h =>
    exact ⟨rfl, rfl, rfl, fun _ h => h, fun _ h => h, fun _ h => h, fun _ h => h, fun h => h,
      le_rfl, Or.inl rfl, fun e' he' => List.mem_singleton.mp he' ▸ h, fun _ h => Or.inl h⟩
  · next h =>
    refine ⟨rfl, rfl, rfl, fun p hp => mem_lappendUniq.mpr (Or.inr hp),
      fun p hp => mem_lappendUniq.mpr (Or.inr hp), fun u hu => List.mem_append_left _ hu,
      fun n hn => List.mem_append_left _ hn, fun hn => ?_, by simp, Or.inr (by simp),
      fun e' he' => ?_, fun u hu => ?_⟩
    · exact hn.append (List.nodup_singleton _) fun u hu hu' => h (List.mem_singleton.mp hu' ▸ hu)
    · rw [List.mem_singleton.mp he']
      exact List.mem_append_right _ List.mem_cons_self
    · refine (List.mem_append.mp hu).imp id fun hu => ?_
      exact ⟨e, List.mem_cons_self, (List.mem_singleton.mp hu).symm,
        mem_lappendUniq.mpr (Or.inl rfl), fun n hn => List.mem_append_right _ hn⟩

theorem Taken.trans {l l' : List Entry} {st st' st'' : ScanState × List Name}
    (h : Taken regexp t a l st st') (h' : Taken regexp t a l' st' st'') :
    Taken regexp t a (l ++ l') st st'' := by
  refine ⟨h'.scanned.trans h.scanned, h'.results.trans h.results, h'.lookups.trans h.lookups,
    fun p hp => h'.incpaths p (h.incpaths p hp), fun p hp => h'.deps p (h.deps p hp),
    fun u hu => h'.uuids u (h.uuids u hu), fun n hn => h'.newscan n (h.newscan n hn),
    fun hn => h'.nodup (h.nodup hn), h.grows.trans h'.grows, ?_, fun e he => ?_, fun u hu => ?_⟩
  · rcases h'.progress with hp | hp
    · exact h.progress.imp hp.trans fun hlt => hlt.trans_le h'.grows
    · exact Or.inr (h.grows.trans_lt hp)
  · exact (List.mem_append.mp he).elim (fun he => h'.uuids _ (h.seen e he)) (h'.seen e)
  · rcases h'.taken u hu with hu | ⟨e, he, heu, hd, hn⟩
    · refine (h.taken u hu).imp id fun ⟨e, he, heu, hd, hn⟩ => ?_
      exact ⟨e, List.mem_append_left _ he, heu, h'.deps _ hd, fun n hn' => h'.newscan n (hn n hn')⟩
    · exact Or.inr ⟨e, List.mem_append_right _ he, heu, hd, hn⟩

variable (regexp t a) in
theorem takeEntries_taken (found : List Entry) (st : ScanState × List Name) :
    Taken regexp t a found st (found.foldl (takeEntry regexp t a) st) := by
  induction found generalizing st with
  | nil =>
    exact ⟨rfl, rfl, rfl, fun _ h => h, fun _ h => h, fun _ h => h, fun _ h => h, fun h => h,
      le_rfl, Or.inl rfl, fun _ h => absurd h List.not_mem_nil, fun _ h => Or.inl h⟩
  | cons e found ih => exact (takeEntry_taken st e).trans (ih _)

/-- The loop invariant of the scan, with the names in `pending` still to be scanned. -/
structure Covers (regexp : String → String → List String) (t : Tree) (a : ScanArgs)
    (start : List Path) (s : ScanState) (pending : List Name) : Prop where
  base : ∀ p ∈ start, p ∈ s.incpaths
  looked : ∀ n ∈ s.scanned, n = a.filename ∨ ∃ P, (n, P) ∈ s.lookups ∧ (∀ p ∈ start, p ∈ P) ∧
    ∀ e ∈ findFile t n P, e.uuid ∈ s.uuids
  found : ∀ u ∈ s.uuids, ∃ n P e, (n, P) ∈ s.lookups ∧ e ∈ findFile t n P ∧ e.uuid = u ∧
    e.path ∈ s.deps ∧ ∀ n' ∈ headerScanRegexp regexp t a e.path, n' ∈ s.scanned ∨ n' ∈ pending
  first : ∀ n ∈ headerScanRegexp regexp t a (t.real a.filename), n ∈ s.scanned ∨ n ∈ pending
  nodup : s.uuids.Nodup

/-- Every file found has one of finitely many uuids. -/
theorem Covers.uuids_le {start : List Path} {s : ScanState} {pending : List Name}
    (h : Covers regexp t a start s pending) : s.uuids.length ≤ t.files.length := by
  have hsub : s.uuids ⊆ t.files.map t.uuid := by
    intro u hu
    obtain ⟨n, P, e, -, he, rfl, -⟩ := h.found u hu
    obtain ⟨p, -, hp⟩ := mem_findFile.mp he
    obtain ⟨hex, huuid, -⟩ := find_real hp
    rw [huuid]
    exact List.mem_map_of_mem (t.finite _ hex)
  have hle := (List.subperm_of_subset h.nodup hsub).length_le
  rwa [List.length_map] at hle

/-- What a pass over some names does. -/
structure Passes (st st' : ScanState × List Name) : Prop where
  grows : st.1.uuids.length ≤ st'.1.uuids.length
  progress : st'.2 = st.2 ∨ st.1.uuids.length < st'.1.uuids.length

theorem scanName_covers {start : List Path} {s : ScanState} {d : Name} {rest newscan : List Name}
    (h : Covers regexp t a start s (d :: rest ++ newscan)) :
    let st' := scanName regexp t a (s, newscan) d
    Covers regexp t a start st'.1 (rest ++ st'.2) ∧ Passes (s, newscan) st' := by
  unfold scanName
  dsimp only
  split
  · next hd =>
    have hmem : ∀ n, n ∈ s.scanned ∨ n ∈ d :: rest ++ newscan → n ∈ s.scanned ∨ n ∈ rest ++ newscan := by
      rintro n (hn | hn)
      · exact Or.inl hn
      · rcases List.mem_cons.mp hn with rfl | hn
        · exact Or.inl hd
        · exact Or.inr hn
    refine ⟨⟨h.base, h.looked, fun u hu => ?_, fun n hn => hmem n (h.first n hn), h.nodup⟩,
      ⟨le_rfl, Or.inl rfl⟩⟩
    obtain ⟨n, P, e, hl, he, heu, hdep, hn⟩ := h.found u hu
    exact ⟨n, P, e, hl, he, heu, hdep, fun n' hn' => hmem n' (hn n' hn')⟩
  · next hd =>
    have htaken := takeEntries_taken regexp t a (findFile t d s.incpaths)
      ({ s with
          scanned := s.scanned ++ [d]
          results := s.results ++ [(d, findFile t d s.incpaths)]
          lookups := s.lookups ++ [(d, s.incpaths)] }, newscan)
    generalize (findFile t d s.incpaths).foldl _ _ = st' at htaken ⊢
    have hmem : ∀ n, n ∈ s.scanned ∨ n ∈ d :: rest ++ newscan →
        n ∈ st'.1.scanned ∨ n ∈ rest ++ st'.2 := by
      rw [htaken.scanned]
      rintro n (hn | hn)
      · exact Or.inl (List.mem_append_left _ hn)
      · rcases List.mem_cons.mp hn with rfl | hn
        · exact Or.inl (List.mem_append_right _ List.mem_cons_self)
        · exact Or.inr (List.mem_append.mpr ((List.mem_append.mp hn).imp id (htaken.newscan n)))
    have hold : ∀ x ∈ s.lookups, x ∈ st'.1.lookups := fun x hx => by
      rw [htaken.lookups]
      exact List.mem_append_left _ hx
    have hnew : (d, s.incpaths) ∈ st'.1.lookups := by
      rw [htaken.lookups]
      exact List.mem_append_right _ List.mem_cons_self
    refine ⟨⟨fun p hp => htaken.incpaths p (h.base p hp), fun n hn => ?_, fun u hu => ?_,
      fun n hn => hmem n (h.first n hn), htaken.nodup h.nodup⟩, ⟨htaken.grows, htaken.progress⟩⟩
    · rw [htaken.scanned] at hn
      rcases List.mem_append.mp hn with hn | hn
      · refine (h.looked n hn).imp id fun ⟨P, hl, hs, he⟩ => ?_
        exact ⟨P, hold _ hl, hs, fun e he' => htaken.uuids _ (he e he')⟩
      · obtain rfl := List.mem_singleton.mp hn
        exact Or.inr ⟨s.incpaths, hnew, h.base, htaken.seen⟩
    · rcases htaken.taken u hu with hu | ⟨e, he, heu, hdep, hn⟩
      · obtain ⟨n, P, e, hl, he, heu, hdep, hn⟩ := h.found u hu
        exact ⟨n, P, e, hold _ hl, he, heu, htaken.deps _ hdep, fun n' hn' => hmem n' (hn n' hn')⟩
      · exact ⟨d, s.incpaths, e, hnew, he, heu, hdep,
          fun n' hn' => Or.inr (List.mem_append_right _ (hn n' hn'))⟩

theorem scanNames_covers {start : List Path} {s : ScanState} {toscan newscan : List Name}
    (h : Covers regexp t a start s (toscan ++ newscan)) :
    let st' := toscan.foldl (scanName regexp t a) (s, newscan)
    Covers regexp t a start st'.1 st'.2 ∧ Passes (s, newscan) st' := by
  induction toscan generalizing s newscan with
  | nil => exact ⟨h, le_rfl, Or.inl rfl⟩
  | cons d toscan ih =>
    obtain ⟨h1, hp1⟩ := scanName_covers h
    obtain ⟨h2, hp2⟩ := ih h1
    refine ⟨h2, hp1.grows.trans hp2.grows, ?_⟩
    rcases hp2.progress with hp | hp
    · exact hp1.progress.imp hp.trans fun hlt => hlt.trans_le hp2.grows
    · exact Or.inr (hp1.grows.trans_lt hp)

/-- The loop ends with nothing left to scan: every round but the last finds a new file. -/
theorem scanRounds_covers {start : List Path} (n : Nat) {s : ScanState} {toscan : List Name}
    (h : Covers regexp t a start s toscan) (hn : t.files.length + 2 ≤ n + s.uuids.length) :
    Covers regexp t a start (scanRounds regexp t a n s toscan).1 [] ∧
      (scanRounds regexp t a n s toscan).2 = [] := by
  induction n generalizing s toscan with
  | zero =>
    have := h.uuids_le
    omega
  | succ n ih =>
    cases toscan with
    | nil => exact ⟨h, rfl⟩
    | cons d toscan =>
      have hround : Covers regexp t a start s (d :: toscan ++ []) := by rwa [List.append_nil]
      obtain ⟨h', hp⟩ := scanNames_covers hround
      unfold scanRounds
      dsimp only
      rcases hp.progress with hp | hp
      · -- nothing was found in this round
        have hle := h.uuids_le
        obtain ⟨k, rfl⟩ : ∃ k, n = k + 1 := ⟨n - 1, by omega⟩
        rw [hp]
        rw [hp] at h'
        exact ⟨h', rfl⟩
      · exact ih h' (by dsimp only at hp; omega)

/-- Before the first round. -/
theorem Covers.init (start : List Path) : Covers regexp t a start
    { incpaths := start, scanned := [a.filename] }
    (headerScanRegexp regexp t a (t.real a.filename)) :=
  ⟨fun _ h => h, fun _ hn => Or.inl (List.mem_singleton.mp hn), fun _ h => absurd h List.not_mem_nil,
    fun _ h => Or.inr h, List.nodup_nil⟩

variable (regexp t a) in
/-- When the scan ends, every name in a file that was found has been looked up. -/
theorem recursiveScan_covers (start : List Path) :
    Covers regexp t a start (recursiveScan regexp t a start) [] :=
  (scanRounds_covers _ (.init start) (Nat.le_add_right _ _)).1

/-- What every look-up keeps is kept by the whole scan. -/
theorem recursiveScan_keeps {I : ScanState → Prop}
    (hI : ∀ (st : ScanState × List Name) (d : Name), I st.1 → I (scanName regexp t a st d).1)
    {start : List Path} (h : I { incpaths := start, scanned := [a.filename] }) :
    I (recursiveScan regexp t a start) := by
  have hnames : ∀ (toscan : List Name) (st : ScanState × List Name), I st.1 →
      I (toscan.foldl (scanName regexp t a) st).1 := by
    intro toscan
    induction toscan with
    | nil => exact fun _ h => h
    | cons d toscan ih => exact fun st h => ih _ (hI st d h)
  have hrounds : ∀ (n : Nat) (s : ScanState) (toscan : List Name), I s →
      I (scanRounds regexp t a n s toscan).1 := by
    intro n
    induction n with
    | zero => exact fun _ _ h => h
    | succ n ih =>
      intro s toscan h
      cases toscan with
      | nil => exact h
      | cons d toscan => exact ih _ _ (hnames (d :: toscan) (s, []) h)
  exact hrounds _ _ _ h

theorem scanRounds_add {n : Nat} {s : ScanState} {toscan : List Name}
    (h : (scanRounds regexp t a n s toscan).2 = []) (k : Nat) :
    scanRounds regexp t a (n + k) s toscan = scanRounds regexp t a n s toscan := by
  induction n generalizing s toscan with
  | zero =>
    obtain rfl : toscan = [] := h
    cases k <;> rfl
  | succ n ih =>
    rw [Nat.succ_add]
    cases toscan with
    | nil => rfl
    | cons d toscan => exact ih h

variable (regexp t a) in
/-- More rounds change nothing. -/
theorem recursiveScan_eq (start : List Path) (k : Nat) :
    recursiveScan regexp t a start = (scanRounds regexp t a (t.files.length + 2 + k)
      { incpaths := start, scanned := [a.filename] }
      (headerScanRegexp regexp t a (t.real a.filename))).1 := by
  rw [scanRounds_add (scanRounds_covers _ (.init start) (Nat.le_add_right _ _)).2]
  rfl

end

/-! ## What a compiler includes -/

section
variable (regexp : String → String → List String) (t : Tree) (a : ScanArgs)

/-- A compiler looks for an included file in the directory of the file that includes it, and
then along the given search path. -/
def resolve (dir : Path) (n : Name) : Option Entry := (findFile t n (dir :: a.incpaths)).head?

/-- In the file that is scanned, or in one that it includes, directly or not, there is a
directive with the name `n`; the file is in the directory `dir`. -/
inductive Directive : Path → Name → Prop where
  | input {n : Name} (h : n ∈ t.names regexp a (t.real a.filename)) :
      Directive (fileDirname (t.real a.filename)) n
  | nested {dir : Path} {n n' : Name} {e : Entry} (h : Directive dir n)
      (he : resolve t a dir n = some e) (hn : n' ∈ t.names regexp a (t.real e.path)) :
      Directive (fileDirname e.path) n'

/-- A file or built target that a compiler includes. -/
def Included (e : Entry) : Prop := ∃ dir n, Directive regexp t a dir n ∧ resolve t a dir n = some e

/-- The name `n` can be looked up once and for all with the search path `paths`: it leads to
the file that a compiler takes for `n`, wherever that is included, and the directives of what
it leads to are read from the right file. -/
structure Timely (n : Name) (paths : List Path) : Prop where
  finds : ∀ dir e, Directive regexp t a dir n → resolve t a dir n = some e →
    ∃ f ∈ findFile t n paths, f.uuid = e.uuid
  reads : ∀ e ∈ findFile t n paths, ∀ n' ∈ t.names regexp a (t.real e.path),
    n' ∈ headerScanRegexp regexp t a e.path

/-- What a compiler finds on the search path, a look-up finds: the directory of the including
file is on the path, or holds no file of that name. -/
theorem Timely.of_dirs {n : Name} {paths : List Path} (hbase : ∀ p ∈ a.incpaths, p ∈ paths)
    (hdirs : ∀ dir, Directive regexp t a dir n → dir ∈ paths ∨ findAllFilesOnPath t n dir = none)
    (hplain : ∀ e ∈ findFile t n paths, t.desc.isTarget e.path = true →
      t.fs.exists? e.path = false) : Timely regexp t a n paths := by
  refine ⟨fun dir e hdir he => ?_, fun e he n' hn' => ?_⟩
  · obtain ⟨p, hp, hpe⟩ := mem_findFile.mp (List.mem_of_mem_head? he)
    refine ⟨e, mem_findFile.mpr ⟨p, ?_, hpe⟩, rfl⟩
    rcases List.mem_cons.mp hp with rfl | hp
    · refine (hdirs p hdir).resolve_right fun hnone => ?_
      rw [hnone] at hpe
      cases hpe
    · exact hbase p hp
  · obtain ⟨p, -, hp⟩ := mem_findFile.mp he
    have hex := (find_real hp).1
    unfold headerScanRegexp
    unfold Tree.real at hn' hex
    by_cases ht : t.desc.isTarget e.path = true
    · rw [if_pos ht] at hn'
      rwa [hplain e he ht]
    · rw [if_neg ht] at hn' hex
      rwa [if_pos hex]

variable {regexp t a}

/-- All directives of a compilation are in a list that is closed under inclusion. -/
theorem Directive.mem {l : List (Path × Name)}
    (hinput : ∀ n ∈ t.names regexp a (t.real a.filename),
      (fileDirname (t.real a.filename), n) ∈ l)
    (hnested : ∀ x ∈ l, ∀ e ∈ (resolve t a x.1 x.2).toList,
      ∀ n ∈ t.names regexp a (t.real e.path), (fileDirname e.path, n) ∈ l)
    {dir : Path} {n : Name} (h : Directive regexp t a dir n) : (dir, n) ∈ l := by
  induction h with
  | input h => exact hinput _ h
  | nested _ he hn ih => exact hnested _ ih _ (by simp [he]) _ hn

end

/-! ### Trees of sources -/

/-- Device 0 and, in unary, the place in the list. -/
def inodeOf (l : List (Path × String)) (p : Path) : String :=
  String.ofList ('0' :: ',' :: List.replicate ((l.map (·.1)).idxOf p) '1')

theorem inodeOf_inj {l : List (Path × String)} {p q : Path} (hp : p ∈ l.map (·.1))
    (h : inodeOf l p = inodeOf l q) : p = q := by
  have hlen := congrArg (fun s => s.toList.length) h
  simp only [inodeOf, String.toList_ofList, List.length_cons, List.length_replicate] at hlen
  exact (List.idxOf_inj hp).mp (by omega)

theorem disjoint_nil : ([] : List Rule).Pairwise fun r s => ∀ t ∈ r.target, t ∉ s.target := .nil

/-- A tree without rules: the sources with their contents, which are also their hashes. -/
def Tree.ofSources (l : List (Path × String)) : Tree where
  desc := { rules := [], disjoint := disjoint_nil }
  fs p := (l.lookup p).map fun contents => .file 0 contents
  built _ := false
  hash f := (l.lookup f).getD ""
  uuid := inodeOf l
  files := l.map (·.1)
  finite p h := mem_of_exists h
  inode p q hp _ h := by rw [inodeOf_inj (mem_of_exists hp) h]
where
  mem_of_exists {l : List (Path × String)} {p : Path}
      (h : FS.exists? (fun p => (l.lookup p).map fun contents => .file 0 contents) p = true) :
      p ∈ l.map (·.1) := by
    cases hl : l.lookup p with
    | none => simp [FS.exists?, FS.stat, hl] at h
    | some c =>
      obtain ⟨x, hx, hxp⟩ := List.lookup_isSome_iff.mp (by rw [hl]; rfl : (l.lookup p).isSome)
      exact List.mem_map.mpr ⟨x, hx, (by simpa using hxp : p = x.1).symm⟩

/-- Every second part. -/
def odds : List (List Char) → List String
  | _ :: part :: parts => String.ofList part :: odds parts
  | _ => []

/-- What the pattern for `#include "..."` captures in a file that holds nothing else in
quotes. -/
def quoted (contents : String) : List String := odds (contents.toList.splitOn '"')

/-- In `main.c` there is no `x.h` to be found, in `sub/a.h` there is. -/
def hiddenTree : Tree := .ofSources
  [("main.c", "#include \"x.h\"\n#include \"sub/a.h\"\n"), ("sub/a.h", "#include \"x.h\"\n"),
    ("sub/x.h", "")]

/-- `inc/a.h` includes `b.h`, which is looked up when `inc` is on the search path. -/
def besideTree : Tree := .ofSources
  [("main.c", "#include \"inc/a.h\"\n"), ("inc/a.h", "#include \"b.h\"\n"), ("inc/b.h", "")]

end Tmake
