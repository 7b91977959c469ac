import TmakeProof.Scanner

/-! # The cache of the include scanner

An entry of `tmakecache(headerscan)` is used again when every name in it still
resolves to what it did.  The names are looked up along a search path that is
put together from the entry in one go (`verifyPaths`), and the same path is the
one with which the file is scanned again if a name does not.  `Alike` is the
lock-step of two scans whose look-ups find the same.
-/
namespace Tmake

variable {regexp : String → String → List String} {t t' : Tree} {a a' : ScanArgs}

/-! ## What an entry records -/

/-- An entry of the cache for `filename`, written by a call in one of the states `H`, whatever
was in the cache before. -/
inductive Written (regexp : String → String → List String) (H : Tree → Prop) (filename : Name) :
    ScanCache → Prop where
  | call {t : Tree} {a : ScanArgs} {cached : Option ScanCache} {c : ScanCache} (ht : H t)
      (ha : a.filename = filename) (hcached : ∀ c', cached = some c' → Written regexp H filename c')
      (h : (headerScanRegexpRecursive regexp t a cached).2 = some c) : Written regexp H filename c

/-- What was written is the outcome of a scan, from some search path. -/
theorem Written.scan {H : Tree → Prop} {filename : Name} {c : ScanCache}
    (h : Written regexp H filename c) :
    ∃ t a start, H t ∧ a.filename = filename ∧ t.fs.exists? (t.real filename) = true ∧
      (memoizedScan regexp t a start).2 = some c := by
  induction h with
  | @call t a cached c ht ha hcached h ih =>
    unfold headerScanRegexpRecursive at h
    split at h
    · next hfile =>
      rw [ha] at hfile
      split at h
      · exact ⟨t, a, _, ht, ha, hfile, h⟩
      · next c' =>
        split at h
        · dsimp only at h
          split at h
          · obtain rfl := Option.some.inj h
            exact ih c' rfl
          · exact ⟨t, a, _, ht, ha, hfile, h⟩
        · exact ⟨t, a, _, ht, ha, hfile, h⟩
    · exact ih c h

/-- The results of a scan are what its look-ups found. -/
def Records (t : Tree) (s : ScanState) : Prop :=
  s.results = s.lookups.map fun x => (x.1, findFile t x.1 x.2)

theorem scanNames_records (toscan : List Name) {st : ScanState × List Name}
    (h : Records t st.1) : Records t (toscan.foldl (scanName regexp t a) st).1 := by
  induction toscan generalizing st with
  | nil => exact h
  | cons d toscan ih =>
    refine ih ?_
    unfold scanName
    dsimp only
    split
    · exact h
    · unfold Records at *
      rw [(takeEntries_taken _ _ _ _ _).results, (takeEntries_taken _ _ _ _ _).lookups]
      simp [h]

theorem scanRounds_records (n : Nat) {s : ScanState} (toscan : List Name) (h : Records t s) :
    Records t (scanRounds regexp t a n s toscan).1 := by
  induction n generalizing s toscan with
  | zero => exact h
  | succ n ih =>
    cases toscan with
    | nil => exact h
    | cons d toscan => exact ih _ (scanNames_records (d :: toscan) (show Records t (s, ([] : List Name)).1 from h))

theorem recursiveScan_records (start : List Path) :
    Records t (recursiveScan regexp t a start) := scanRounds_records _ _ rfl

/-! ## Two scans in lock-step -/

/-- Two scans have come to the same point, with search paths that are related by `R`. -/
structure Alike (R : List Path → List Path → Prop) (st st' : ScanState × List Name) : Prop where
  scanned : st'.1.scanned = st.1.scanned
  uuids : st'.1.uuids = st.1.uuids
  deps : st'.1.deps = st.1.deps
  newscan : st'.2 = st.2
  incpaths : R st.1.incpaths st'.1.incpaths

/-- The look-ups of two scans find the same, and the same is read there. -/
def Agree (regexp : String → String → List String) (t t' : Tree) (a a' : ScanArgs)
    (R : List Path → List Path → Prop) (l l' : List (Name × List Path)) : Prop :=
  ∀ n P P', (n, P) ∈ l → (n, P') ∈ l' → R P P' → findFile t' n P' = findFile t n P ∧
    ∀ e ∈ findFile t n P,
      headerScanRegexp regexp t' a' e.path = headerScanRegexp regexp t a e.path

variable {R : List Path → List Path → Prop}
  (hR : ∀ p P P', R P P' → R (lappendUniq p P) (lappendUniq p P'))

include hR in
theorem takeEntries_alike {found : List Entry} {st st' : ScanState × List Name}
    (h : Alike R st st') (hread : ∀ e ∈ found,
      headerScanRegexp regexp t' a' e.path = headerScanRegexp regexp t a e.path) :
    Alike R (found.foldl (takeEntry regexp t a) st) (found.foldl (takeEntry regexp t' a') st') := by
  induction found generalizing st st' with
  | nil => exact h
  | cons e found ih =>
    refine ih ?_ fun e' he' => hread e' (List.mem_cons_of_mem _ he')
    unfold takeEntry
    dsimp only
    rw [h.uuids]
    split
    · exact h
    · refine ⟨h.scanned, rfl, ?_, ?_, hR _ _ _ h.incpaths⟩
      · rw [h.deps]
      · rw [h.newscan, hread e List.mem_cons_self]

theorem scanName_lookups (st : ScanState × List Name) (d : Name) :
    (∀ x ∈ st.1.lookups, x ∈ (scanName regexp t a st d).1.lookups) ∧
      (d ∉ st.1.scanned → (d, st.1.incpaths) ∈ (scanName regexp t a st d).1.lookups) := by
  unfold scanName
  dsimp only
  split
  · next h => exact ⟨fun _ hx => hx, fun hd => absurd h hd⟩
  · rw [(takeEntries_taken _ _ _ _ _).lookups]
    exact ⟨fun _ hx => List.mem_append_left _ hx,
      fun _ => List.mem_append_right _ List.mem_cons_self⟩

theorem scanNames_lookups (st : ScanState × List Name) (toscan : List Name) :
    ∀ x ∈ st.1.lookups, x ∈ (toscan.foldl (scanName regexp t a) st).1.lookups := by
  induction toscan generalizing st with
  | nil => exact fun _ hx => hx
  | cons d toscan ih => exact fun x hx => ih _ x ((scanName_lookups st d).1 x hx)

theorem scanRounds_lookups (n : Nat) (s : ScanState) (toscan : List Name) :
    ∀ x ∈ s.lookups, x ∈ (scanRounds regexp t a n s toscan).1.lookups := by
  induction n generalizing s toscan with
  | zero => exact fun _ hx => hx
  | succ n ih =>
    cases toscan with
    | nil => exact fun _ hx => hx
    | cons d toscan =>
      exact fun x hx => ih _ _ x (scanNames_lookups (s, []) (d :: toscan) x hx)

include hR in
theorem scanName_alike {st st' : ScanState × List Name} {d : Name} (h : Alike R st st')
    (hagree : Agree regexp t t' a a' R (scanName regexp t a st d).1.lookups
      (scanName regexp t' a' st' d).1.lookups) :
    Alike R (scanName regexp t a st d) (scanName regexp t' a' st' d) := by
  by_cases hd : d ∈ st.1.scanned
  · unfold scanName
    dsimp only
    rw [if_pos hd, if_pos (h.scanned ▸ hd)]
    exact h
  · have hd' : d ∉ st'.1.scanned := h.scanned ▸ hd
    obtain ⟨hfind, hread⟩ := hagree d _ _ ((scanName_lookups st d).2 hd)
      ((scanName_lookups st' d).2 hd') h.incpaths
    unfold scanName
    dsimp only
    rw [if_neg hd, if_neg hd', hfind]
    refine takeEntries_alike hR ⟨?_, h.uuids, h.deps, h.newscan, h.incpaths⟩ hread
    rw [h.scanned]

theorem Agree.mono {l l' m m' : List (Name × List Path)} (h : Agree regexp t t' a a' R m m')
    (hl : ∀ x ∈ l, x ∈ m) (hl' : ∀ x ∈ l', x ∈ m') : Agree regexp t t' a a' R l l' :=
  fun n P P' hP hP' => h n P P' (hl _ hP) (hl' _ hP')

include hR in
theorem scanNames_alike {st st' : ScanState × List Name} {toscan : List Name}
    (h : Alike R st st')
    (hagree : Agree regexp t t' a a' R (toscan.foldl (scanName regexp t a) st).1.lookups
      (toscan.foldl (scanName regexp t' a') st').1.lookups) :
    Alike R (toscan.foldl (scanName regexp t a) st) (toscan.foldl (scanName regexp t' a') st') := by
  induction toscan generalizing st st' with
  | nil => exact h
  | cons d toscan ih =>
    refine ih (scanName_alike hR h (hagree.mono ?_ ?_)) hagree
    · exact scanNames_lookups _ toscan
    · exact scanNames_lookups _ toscan

include hR in
theorem scanRounds_alike (n : Nat) {s s' : ScanState} {toscan : List Name}
    (h : Alike R (s, toscan) (s', toscan))
    (hagree : Agree regexp t t' a a' R (scanRounds regexp t a n s toscan).1.lookups
      (scanRounds regexp t' a' n s' toscan).1.lookups) :
    (scanRounds regexp t' a' n s' toscan).1.deps = (scanRounds regexp t a n s toscan).1.deps := by
  induction n generalizing s s' toscan with
  | zero => exact h.deps
  | succ n ih =>
    cases toscan with
    | nil => exact h.deps
    | cons d toscan =>
      unfold scanRounds at hagree ⊢
      dsimp only at hagree ⊢
      have h' : Alike R (s, []) (s', []) := ⟨h.scanned, h.uuids, h.deps, rfl, h.incpaths⟩
      have hround : Alike R ((d :: toscan).foldl (scanName regexp t a) (s, []))
          ((d :: toscan).foldl (scanName regexp t' a') (s', [])) :=
        scanNames_alike hR h' (hagree.mono (scanRounds_lookups _ _ _) (scanRounds_lookups _ _ _))
      rw [hround.newscan] at hagree ⊢
      refine ih ⟨hround.scanned, hround.uuids, hround.deps, rfl, hround.incpaths⟩ hagree

include hR in
/-- Two scans that read the same at the start and whose look-ups agree return the same. -/
theorem recursiveScan_alike {start start' : List Path} (hname : a'.filename = a.filename)
    (hstart : R start start')
    (hread : headerScanRegexp regexp t' a' (t'.real a'.filename) =
      headerScanRegexp regexp t a (t.real a.filename))
    (hagree : Agree regexp t t' a a' R (recursiveScan regexp t a start).lookups
      (recursiveScan regexp t' a' start').lookups) :
    (recursiveScan regexp t' a' start').deps = (recursiveScan regexp t a start).deps := by
  have h := recursiveScan_eq regexp t a start t'.files.length
  have h' := recursiveScan_eq regexp t' a' start' t.files.length
  have hn : t'.files.length + 2 + t.files.length = t.files.length + 2 + t'.files.length := by omega
  rw [hn, hread] at h'
  rw [h, h'] at hagree ⊢
  refine scanRounds_alike hR _ ⟨?_, rfl, rfl, rfl, hstart⟩ hagree
  dsimp only
  rw [hname]

/-! ## The cached scan -/

/-- Where two states agree on the hash of a file that is there in both, it holds the same. -/
def SameContents (t t' : Tree) : Prop :=
  ∀ f, t.fs.exists? (t.real f) = true → t'.fs.exists? (t'.real f) = true → t.hash f = t'.hash f →
    (t.fs.stat (t.real f)).map (·.2) = (t'.fs.stat (t'.real f)).map (·.2)

/-- No source has the name of a target. -/
def Tree.Plain (t : Tree) : Prop := ∀ f, t.desc.isTarget f = true → t.fs.exists? f = false

theorem Tree.Plain.reads (h : t.Plain) {f : Name} (hf : t.fs.exists? (t.real f) = true) :
    headerScanRegexp regexp t a f = t.names regexp a (t.real f) := by
  unfold headerScanRegexp
  unfold Tree.real at hf ⊢
  by_cases ht : t.desc.isTarget f = true
  · rw [if_pos ht, h f ht]
    simp
  · rw [if_neg ht] at hf ⊢
    rw [if_pos hf]

/-- What is read from a file with the same hash. -/
theorem SameContents.names (h : SameContents t t') (hs : a'.suffix = a.suffix)
    (hr : a'.regex = a.regex) {f : Name} (hf : t.fs.exists? (t.real f) = true)
    (hf' : t'.fs.exists? (t'.real f) = true) (hh : t.hash f = t'.hash f) :
    t'.names regexp a' (t'.real f) = t.names regexp a (t.real f) := by
  have hc := h f hf hf' hh
  unfold Tree.names
  rw [hs, hr]
  cases h1 : t.fs.stat (t.real f) <;> cases h2 : t'.fs.stat (t'.real f) <;> rw [h1, h2] at hc
  · cases hc
  · cases hc
  · have hc := Option.some.inj hc
    dsimp only at hc ⊢
    rw [hc]

/-- The search path `verify` can stand for the path `paths` that the scan has come to when it
looks the name `n` up. -/
structure Verifies (t : Tree) (verify : List Path) (n : Name) (paths : List Path) : Prop where
  same : findFile t n verify = findFile t n paths
  quiet : ∀ p ∈ paths, p ∉ verify → findAllFilesOnPath t n p = none

/-- A scan that starts with a search path that verifies all look-ups finds the same. -/
theorem memoizedScan_verify {start verify : List Path}
    (h : ∀ x ∈ (recursiveScan regexp t a start).lookups, Verifies t verify x.1 x.2) :
    (recursiveScan regexp t a verify).deps = (recursiveScan regexp t a start).deps := by
  -- the search path of the second scan has in addition only directories that are on the first
  refine recursiveScan_alike (R := fun P P' => ∃ X, P' = verify ++ X ∧ ∀ p ∈ X, p ∈ P ∧ p ∉ verify)
    ?_ rfl ⟨[], (List.append_nil _).symm, fun _ h => absurd h List.not_mem_nil⟩ rfl ?_
  · rintro p P _ ⟨X, rfl, hX⟩
    by_cases hp : p ∈ verify ++ X
    · refine ⟨X, by unfold lappendUniq; rw [if_pos hp], fun q hq => ?_⟩
      exact ⟨mem_lappendUniq.mpr (Or.inr (hX q hq).1), (hX q hq).2⟩
    · refine ⟨X ++ [p], by unfold lappendUniq; rw [if_neg hp, List.append_assoc], fun q hq => ?_⟩
      rcases List.mem_append.mp hq with hq | hq
      · exact ⟨mem_lappendUniq.mpr (Or.inr (hX q hq).1), (hX q hq).2⟩
      · obtain rfl := List.mem_singleton.mp hq
        exact ⟨mem_lappendUniq.mpr (Or.inl rfl), fun hv => hp (List.mem_append_left _ hv)⟩
  · rintro n P _ hP - ⟨X, rfl, hX⟩
    have hv := h _ hP
    refine ⟨?_, fun _ _ => rfl⟩
    have hnone : findFile t n X = [] := by
      refine List.filterMap_eq_nil_iff.mpr fun p hp => hv.quiet p (hX p hp).1 (hX p hp).2
    unfold findFile at hnone ⊢
    rw [List.filterMap_append, hnone, List.append_nil]
    exact hv.same

/-- Two directories `d` on the search path, and what the second one holds besides `a.h`. -/
def twinDirs (l : List (Path × String)) : Tree := .ofSources
  ([("main.c", "#include \"d/a.h\"\n"), ("inc/d/a.h", "#include \"new.h\"\n"), ("sys/d/a.h", "")] ++ l)

def twinArgs : ScanArgs := ⟨["inc", "sys"], "", "", "main.c"⟩

/-- `SameContents` for trees of sources, whose hashes are their contents. -/
theorem sameContents_ofSources (l l' : List (Path × String)) :
    SameContents (.ofSources l) (.ofSources l') := by
  intro f hf hf' hh
  have hreal : ∀ l, (Tree.ofSources l).real f = f := fun _ => rfl
  have hex : ∀ l, (Tree.ofSources l).fs.exists? f = true →
      ((Tree.ofSources l).fs.stat f).map (·.2) = some ((Tree.ofSources l).hash f) := by
    intro l h
    unfold FS.exists? FS.stat Tree.ofSources at *
    dsimp only at h ⊢
    cases hl : l.lookup f <;> simp_all
  rw [hreal] at hf hf' ⊢
  rw [hreal, hex l hf, hex l' hf', hh]

/-- The entry for a file that includes `inc/a.h`, which includes `b.h` beside it. -/
def besideCache : ScanCache :=
  ⟨scanStamp besideTree ⟨[], "", "", "main.c"⟩, ["inc/a.h", "inc/b.h"],
    [("inc/a.h", [⟨.source, "inc/a.h", "#include \"b.h\"\n", "0,1"⟩]),
      ("b.h", [⟨.source, "inc/b.h", "", "0,11"⟩])]⟩

end Tmake
