import Mathlib.Data.Set.Card
import TmakeProof.Scanner

/-! # The scan ends

While the include scanner looks names up it builds the targets that it finds, and
what they leave behind may hold new names, or be new files.  A `LiveTree` is a
tree that changes in this way.  A rule is built once in a run, so that after
finitely many builds the files stay what they are, and then every round of the
loop but the last one scans a file that has not been seen before.
-/
namespace Tmake

/-- The rules and files as a scan finds them, in a state that changes as targets are built. -/
structure LiveTree (σ : Type) where
  desc : Desc
  fs : σ → FS
  /-- `build-sync`: whether it answers `built` or `uptodate`. -/
  sync : Name → σ → Bool × σ
  /-- `calc-file-hash`. -/
  hash : σ → Name → String
  /-- `calc-file-uuid`: device and inode. -/
  uuid : σ → Path → String
  /-- All files there are. -/
  files : σ → List Path
  finite : ∀ s p, (fs s).exists? p = true → p ∈ files s
  /-- Two names of one file show the same contents. -/
  inode : ∀ s p q, (fs s).exists? p = true → (fs s).exists? q = true → uuid s p = uuid s q →
    (fs s).stat p = (fs s).stat q
  /-- How many rules have not been built in this run. -/
  left : σ → Nat
  /-- A rule that is built is not built again, and without one that is the files stay. -/
  uses : ∀ n s, left (sync n s).2 < left s ∨
    left (sync n s).2 = left s ∧ fs (sync n s).2 = fs s ∧ uuid (sync n s).2 = uuid s

/-- `tmake(depfindcache)`. -/
abbrev FindCache := List (String × List Entry)

namespace LiveTree

variable {σ : Type} (t : LiveTree σ)

/-- What the scan would find if nothing changed any more. -/
def snapshot (s : σ) : Tree where
  desc := t.desc
  fs := t.fs s
  built n := (t.sync n s).1
  hash := t.hash s
  uuid := t.uuid s
  files := t.files s
  finite := t.finite s
  inode := t.inode s

/-- `find-all-files-on-path`. -/
def findAllFilesOnPath (filename : Name) (path : Path) (s : σ) : Option Entry × σ :=
  let f := fileJoin path filename
  if t.desc.isTarget f then
    let (ok, s) := t.sync f s
    if ok && (t.fs s).exists? (t.desc.fileBuild f) then
      (some ⟨.target, f, t.hash s f, t.uuid s (t.desc.fileBuild f)⟩, s)
    else (none, s)
  else if (t.fs s).exists? f then (some ⟨.source, f, t.hash s f, t.uuid s f⟩, s)
  else (none, s)

/-- The loop of `find-file`. -/
def findOnPaths (filename : Name) : List Path → σ → List Entry × σ
  | [], s => ([], s)
  | p :: paths, s =>
    let (e, s) := t.findAllFilesOnPath filename p s
    let (es, s) := findOnPaths filename paths s
    (e.toList ++ es, s)

/-- Where building changes nothing, a look-up finds what it finds in the tree as it is. -/
theorem findOnPaths_snapshot (n : Name) (paths : List Path) {s : σ}
    (h : ∀ f, (t.sync f s).2 = s) :
    t.findOnPaths n paths s = (Tmake.findFile (t.snapshot s) n paths, s) := by
  have hone : ∀ p, t.findAllFilesOnPath n p s =
      (Tmake.findAllFilesOnPath (t.snapshot s) n p, s) := by
    intro p
    unfold findAllFilesOnPath Tmake.findAllFilesOnPath snapshot
    dsimp only
    rw [h]
    split_ifs <;> rfl
  induction paths with
  | nil => rfl
  | cons p paths ih =>
    rw [findOnPaths, hone]
    dsimp only
    rw [ih, Tmake.findFile, Tmake.findFile, List.filterMap_cons]
    cases Tmake.findAllFilesOnPath (t.snapshot s) n p <;> rfl

/-- `find-file`, with its cache. -/
def findFile (filename : Name) (paths : List Path) (c : σ × FindCache) :
    List Entry × (σ × FindCache) :=
  let cachekey := filename ++ " " ++ joinList paths
  match c.2.lookup cachekey with
  | some result => (result, c)
  | none =>
    let (result, s) := t.findOnPaths filename paths c.1
    (result, (s, (cachekey, result) :: c.2))

variable (regexp : String → String → List String) (a : ScanArgs)

/-- Where the loop of `header-scan-regexp-recursive` stands, and the state of the tree. -/
abbrev Point (σ : Type) := (ScanState × List Name) × (σ × FindCache)

/-- One name: it is looked up the first time only. -/
def scanName (p : Point σ) (d : Name) : Point σ :=
  let ((s, newscan), c) := p
  if d ∈ s.scanned then p
  else
    let (findfiles, c) := t.findFile d s.incpaths c
    (findfiles.foldl (takeEntry regexp (t.snapshot c.1) a)
      ({ s with
          scanned := s.scanned ++ [d]
          results := s.results ++ [(d, findfiles)]
          lookups := s.lookups ++ [(d, s.incpaths)] }, newscan), c)

/-- The `while` loop, for so many rounds at most. -/
def scanRounds : Nat → Point σ → Point σ
  | 0, p => p
  | n + 1, ((s, toscan), c) =>
    if toscan = [] then ((s, toscan), c)
    else scanRounds n (toscan.foldl (t.scanName regexp a) ((s, []), c))

/-- The scan, for so many rounds, with a search path to start with. -/
def recursiveScan (n : Nat) (incpaths : List Path) (c : σ × FindCache) : Point σ :=
  t.scanRounds regexp a n (({ incpaths, scanned := [a.filename] },
    headerScanRegexp regexp (t.snapshot c.1) a ((t.snapshot c.1).real a.filename)), c)

/-! ## What a look-up does to the tree -/

/-- The inodes that a look-up can find: those of the files there are, and of what is cached. -/
def inodes (c : σ × FindCache) : Set String :=
  {u | ∃ p, (t.fs c.1).exists? p = true ∧ t.uuid c.1 p = u} ∪
  {u | ∃ x ∈ c.2, ∃ e ∈ x.2, e.uuid = u}

theorem inodes_finite (c : σ × FindCache) : (t.inodes c).Finite := by
  apply Set.Finite.union
  · apply ((t.files c.1).map (t.uuid c.1)).finite_toSet.subset
    rintro u ⟨p, hp, rfl⟩
    exact List.mem_map_of_mem (t.finite _ _ hp)
  · apply (c.2.flatMap fun x => x.2.map (·.uuid)).finite_toSet.subset
    rintro u ⟨x, hx, e, he, rfl⟩
    exact List.mem_flatMap.mpr ⟨x, hx, List.mem_map_of_mem he⟩

/-- Between two states of the tree either a rule has been built, or nothing has changed but the
cache, and that by nothing new. -/
def Keeps (c c' : σ × FindCache) : Prop :=
  t.left c'.1 < t.left c.1 ∨ t.left c'.1 = t.left c.1 ∧ t.inodes c' ⊆ t.inodes c

variable {t}

theorem Keeps.refl (c : σ × FindCache) : t.Keeps c c := Or.inr ⟨rfl, subset_rfl⟩

theorem Keeps.trans {c₁ c₂ c₃ : σ × FindCache} (h : t.Keeps c₁ c₂) (h' : t.Keeps c₂ c₃) :
    t.Keeps c₁ c₃ := by
  rcases h with h | ⟨h, hsub⟩ <;> rcases h' with h' | ⟨h', hsub'⟩
  · exact Or.inl (by omega)
  · exact Or.inl (by omega)
  · exact Or.inl (by omega)
  · exact Or.inr ⟨by omega, hsub'.trans hsub⟩

theorem Keeps.left_le {c c' : σ × FindCache} (h : t.Keeps c c') : t.left c'.1 ≤ t.left c.1 := by
  rcases h with h | ⟨h, -⟩ <;> omega

theorem Keeps.inodes {c c' : σ × FindCache} (h : t.Keeps c c') (hl : t.left c'.1 = t.left c.1) :
    t.inodes c' ⊆ t.inodes c := by
  rcases h with h | ⟨-, h⟩
  · omega
  · exact h

/-- The state has not changed for a scan. -/
def Still (t : LiveTree σ) (s s' : σ) : Prop :=
  t.left s' < t.left s ∨ t.left s' = t.left s ∧ t.fs s' = t.fs s ∧ t.uuid s' = t.uuid s

theorem findAllFilesOnPath_still (n : Name) (p : Path) (s : σ) :
    Still t s (t.findAllFilesOnPath n p s).2 ∧ ∀ e, (t.findAllFilesOnPath n p s).1 = some e →
      ∃ q, (t.fs (t.findAllFilesOnPath n p s).2).exists? q = true ∧
        t.uuid (t.findAllFilesOnPath n p s).2 q = e.uuid := by
  unfold findAllFilesOnPath
  dsimp only
  by_cases htarget : t.desc.isTarget (fileJoin p n) = true
  · rw [if_pos htarget]
    have huses := t.uses (fileJoin p n) s
    split
    · next hb =>
      refine ⟨huses, fun e he => ?_⟩
      obtain rfl := Option.some.inj he
      exact ⟨_, (Bool.and_eq_true_iff.mp hb).2, rfl⟩
    · exact ⟨huses, nofun⟩
  · rw [if_neg htarget]
    split
    · next hex =>
      refine ⟨Or.inr ⟨rfl, rfl, rfl⟩, fun e he => ?_⟩
      obtain rfl := Option.some.inj he
      exact ⟨_, hex, rfl⟩
    · exact ⟨Or.inr ⟨rfl, rfl, rfl⟩, nofun⟩

theorem Still.trans {s₁ s₂ s₃ : σ} (h : Still t s₁ s₂) (h' : Still t s₂ s₃) : Still t s₁ s₃ := by
  rcases h with h | ⟨h, hfs, hu⟩ <;> rcases h' with h' | ⟨h', hfs', hu'⟩
  · exact Or.inl (by omega)
  · exact Or.inl (by omega)
  · exact Or.inl (by omega)
  · exact Or.inr ⟨by omega, hfs'.trans hfs, hu'.trans hu⟩

theorem Still.left_le {s s' : σ} (h : Still t s s') : t.left s' ≤ t.left s := by
  rcases h with h | ⟨h, -⟩ <;> omega

theorem Still.same {s s' : σ} (h : Still t s s') (hl : t.left s' = t.left s) :
    t.fs s' = t.fs s ∧ t.uuid s' = t.uuid s := by
  rcases h with h | ⟨-, h⟩
  · omega
  · exact h

/-- What a look-up finds is there, unless a rule has been built meanwhile. -/
theorem findOnPaths_still (n : Name) (paths : List Path) (s : σ) :
    Still t s (t.findOnPaths n paths s).2 ∧
      (t.left (t.findOnPaths n paths s).2 = t.left s → ∀ e ∈ (t.findOnPaths n paths s).1,
        ∃ q, (t.fs s).exists? q = true ∧ t.uuid s q = e.uuid) := by
  induction paths generalizing s with
  | nil => exact ⟨Or.inr ⟨rfl, rfl, rfl⟩, fun _ e he => nomatch he⟩
  | cons p paths ih =>
    obtain ⟨hstill, hfound⟩ := findAllFilesOnPath_still (t := t) n p s
    obtain ⟨hstill', hfound'⟩ := ih (t.findAllFilesOnPath n p s).2
    refine ⟨hstill.trans hstill', fun hleft e he => ?_⟩
    have hle := hstill.left_le
    have hle' := hstill'.left_le
    change t.left (t.findOnPaths n paths (t.findAllFilesOnPath n p s).2).2 = t.left s at hleft
    obtain ⟨hfs, hu⟩ := hstill.same (by omega)
    rcases List.mem_append.mp he with he | he
    · obtain ⟨q, hq, hqe⟩ := hfound e (Option.mem_toList.mp he)
      exact ⟨q, hfs ▸ hq, hu ▸ hqe⟩
    · obtain ⟨q, hq, hqe⟩ := hfound' (by omega) e he
      exact ⟨q, hfs ▸ hq, hu ▸ hqe⟩

theorem findFile_keeps (n : Name) (paths : List Path) (c : σ × FindCache) :
    t.Keeps c (t.findFile n paths c).2 ∧ (t.left (t.findFile n paths c).2.1 = t.left c.1 →
      ∀ e ∈ (t.findFile n paths c).1, e.uuid ∈ t.inodes c) := by
  unfold findFile
  dsimp only
  cases hc : c.2.lookup (n ++ " " ++ joinList paths) with
  | some result =>
    refine ⟨.refl c, fun _ e he => Or.inr ⟨(n ++ " " ++ joinList paths, result), ?_, e, he, rfl⟩⟩
    obtain ⟨l, l', hl, -⟩ := List.lookup_eq_some_iff.mp hc
    rw [hl]
    exact List.mem_append_right _ List.mem_cons_self
  | none =>
    obtain ⟨hstill, hfound⟩ := findOnPaths_still (t := t) n paths c.1
    have hin : t.left (t.findOnPaths n paths c.1).2 = t.left c.1 →
        ∀ e ∈ (t.findOnPaths n paths c.1).1, e.uuid ∈ t.inodes c :=
      fun hl e he => Or.inl (hfound hl e he)
    refine ⟨?_, hin⟩
    by_cases hl : t.left (t.findOnPaths n paths c.1).2 = t.left c.1
    · obtain ⟨hfs, hu⟩ := hstill.same hl
      refine Or.inr ⟨hl, ?_⟩
      rintro u (⟨q, hq, hqu⟩ | ⟨x, hx, e, he, rfl⟩)
      · exact Or.inl ⟨q, hfs ▸ hq, hu ▸ hqu⟩
      · rcases List.mem_cons.mp hx with rfl | hx
        · exact hin hl e he
        · exact Or.inr ⟨x, hx, e, he, rfl⟩
    · have hle := hstill.left_le
      exact Or.inl (lt_of_le_of_ne hle hl)

/-! ## What a round does -/

/-- What a pass over some names does. -/
structure Sweeps (t : LiveTree σ) (p p' : Point σ) : Prop where
  keeps : t.Keeps p.2 p'.2
  uuids : ∀ u ∈ p.1.1.uuids, u ∈ p'.1.1.uuids
  nodup : p.1.1.uuids.Nodup → p'.1.1.uuids.Nodup
  found : t.left p'.2.1 = t.left p.2.1 → ∀ u ∈ p'.1.1.uuids, u ∈ p.1.1.uuids ∨ u ∈ t.inodes p.2
  grows : p.1.1.uuids.length ≤ p'.1.1.uuids.length
  progress : p'.1.2 = p.1.2 ∨ p.1.1.uuids.length < p'.1.1.uuids.length

theorem Sweeps.refl (p : Point σ) : Sweeps t p p :=
  ⟨.refl _, fun _ h => h, fun h => h, fun _ _ h => Or.inl h, le_rfl, Or.inl rfl⟩

theorem Sweeps.trans {p₁ p₂ p₃ : Point σ} (h : Sweeps t p₁ p₂) (h' : Sweeps t p₂ p₃) :
    Sweeps t p₁ p₃ := by
  have hle := h.keeps.left_le
  have hle' := h'.keeps.left_le
  refine ⟨h.keeps.trans h'.keeps, fun u hu => h'.uuids u (h.uuids u hu),
    fun hn => h'.nodup (h.nodup hn), fun hl u hu => ?_, h.grows.trans h'.grows, ?_⟩
  · rcases h'.found (by omega) u hu with hu | hu
    · exact h.found (by omega) u hu
    · exact Or.inr (h.keeps.inodes (by omega) hu)
  · rcases h'.progress with hp | hp
    · exact h.progress.imp hp.trans fun hlt => hlt.trans_le h'.grows
    · exact Or.inr (h.grows.trans_lt hp)

theorem scanName_sweeps (p : Point σ) (d : Name) : Sweeps t p (t.scanName regexp a p d) := by
  obtain ⟨⟨s, newscan⟩, c⟩ := p
  unfold scanName
  dsimp only
  split
  · exact .refl _
  · obtain ⟨hkeeps, hfound⟩ := findFile_keeps (t := t) d s.incpaths c
    have htaken := takeEntries_taken regexp (t.snapshot (t.findFile d s.incpaths c).2.1) a
      (t.findFile d s.incpaths c).1
      ({ s with
          scanned := s.scanned ++ [d]
          results := s.results ++ [(d, (t.findFile d s.incpaths c).1)]
          lookups := s.lookups ++ [(d, s.incpaths)] }, newscan)
    refine ⟨hkeeps, htaken.uuids, htaken.nodup, fun hl u hu => ?_, htaken.grows,
      htaken.progress⟩
    rcases htaken.taken u hu with hu | ⟨e, he, rfl, -⟩
    · exact Or.inl hu
    · exact Or.inr (hfound hl e he)

theorem scanNames_sweeps (toscan : List Name) (p : Point σ) :
    Sweeps t p (toscan.foldl (t.scanName regexp a) p) := by
  induction toscan generalizing p with
  | nil => exact .refl p
  | cons d toscan ih => exact (scanName_sweeps regexp a p d).trans (ih _)

/-- The inodes that have not been seen. -/
def unseen (t : LiveTree σ) (p : Point σ) : Set String :=
  t.inodes p.2 \ {u | u ∈ p.1.1.uuids}

/-- A round that finds new names builds a rule or sees an inode for the first time. -/
theorem round_falls {p p' : Point σ} (h : Sweeps t p p') (hn : p.1.1.uuids.Nodup)
    (hnew : p'.1.2 ≠ p.1.2) :
    t.left p'.2.1 < t.left p.2.1 ∨
      t.left p'.2.1 = t.left p.2.1 ∧ (t.unseen p').ncard < (t.unseen p).ncard := by
  rcases h.keeps with hless | ⟨hl, hsub⟩
  · exact Or.inl hless
  · refine Or.inr ⟨hl, Set.ncard_lt_ncard ?_ ((t.inodes_finite p.2).subset Set.sdiff_subset)⟩
    obtain ⟨u, hu, hnot⟩ : ∃ u ∈ p'.1.1.uuids, u ∉ p.1.1.uuids := by
      by_contra hall
      push Not at hall
      have hle := (List.subperm_of_subset (h.nodup hn) hall).length_le
      rcases h.progress with hp | hp
      · exact hnew hp
      · omega
    refine ⟨fun x hx => ⟨hsub hx.1, fun hx' => hx.2 (h.uuids x hx')⟩, fun hback => ?_⟩
    have hin := (h.found hl u hu).resolve_left hnot
    exact (hback ⟨hin, hnot⟩).2 hu

/-- The loop ends. -/
theorem scanRounds_ends (p : Point σ) (hn : p.1.1.uuids.Nodup) :
    ∃ n, (t.scanRounds regexp a n p).1.2 = [] := by
  induction hk : t.left p.2.1 using Nat.strong_induction_on generalizing p with
  | _ k ihk =>
    induction hm : (t.unseen p).ncard using Nat.strong_induction_on generalizing p with
    | _ m ihm =>
      obtain ⟨⟨s, toscan⟩, c⟩ := p
      by_cases hend : toscan = []
      · exact ⟨0, hend⟩
      set p' := toscan.foldl (t.scanName regexp a) ((s, []), c) with hp'
      have hs : Sweeps t ((s, []), c) p' := scanNames_sweeps regexp a toscan ((s, []), c)
      have hround : ∀ n, t.scanRounds regexp a (n + 1) ((s, toscan), c) =
          t.scanRounds regexp a n p' := fun n => by rw [scanRounds, if_neg hend]
      by_cases hnew : p'.1.2 = []
      · exact ⟨1, by rw [hround 0]; exact hnew⟩
      · obtain ⟨n, hn'⟩ : ∃ n, (t.scanRounds regexp a n p').1.2 = [] := by
          rcases round_falls hs hn hnew with hless | ⟨hl, hless⟩
          · exact ihk _ (hk ▸ hless) p' (hs.nodup hn) rfl
          · exact ihm _ (hm ▸ hless) p' (hs.nodup hn) (hl.trans hk) rfl
        exact ⟨n + 1, by rw [hround n]; exact hn'⟩

theorem scanRounds_stays {n : Nat} {p : Point σ} (h : (t.scanRounds regexp a n p).1.2 = [])
    (k : Nat) : t.scanRounds regexp a (n + k) p = t.scanRounds regexp a n p := by
  induction n generalizing p with
  | zero =>
    obtain ⟨⟨s, toscan⟩, c⟩ := p
    obtain rfl : toscan = [] := h
    cases k <;> rfl
  | succ n ih =>
    obtain ⟨⟨s, toscan⟩, c⟩ := p
    rw [Nat.succ_add]
    unfold scanRounds at h ⊢
    by_cases hend : toscan = []
    · rw [if_pos hend, if_pos hend]
    · rw [if_neg hend] at h ⊢
      rw [if_neg hend]
      exact ih h

/-! ## What is done once -/

/-- No name has been looked up twice, none of them is that of the scanned file, and no inode has
been entered twice. -/
structure Once (filename : Name) (s : ScanState) : Prop where
  lookups : (s.lookups.map (·.1)).Nodup
  scanned : ∀ n ∈ s.lookups.map (·.1), n ∈ s.scanned ∧ n ≠ filename
  input : filename ∈ s.scanned
  uuids : s.uuids.Nodup

theorem scanName_once {p : Point σ} {d : Name} (h : Once a.filename p.1.1) :
    Once a.filename (t.scanName regexp a p d).1.1 := by
  obtain ⟨⟨s, newscan⟩, c⟩ := p
  unfold scanName
  dsimp only
  split
  · exact h
  · next hd =>
    have htaken := takeEntries_taken regexp (t.snapshot (t.findFile d s.incpaths c).2.1) a
      (t.findFile d s.incpaths c).1
      ({ s with
          scanned := s.scanned ++ [d]
          results := s.results ++ [(d, (t.findFile d s.incpaths c).1)]
          lookups := s.lookups ++ [(d, s.incpaths)] }, newscan)
    refine ⟨?_, fun n hn => ?_, ?_, htaken.nodup h.uuids⟩
    · rw [htaken.lookups, List.map_append]
      refine h.lookups.append (List.nodup_singleton d) fun n hn hn' => hd ?_
      obtain rfl : n = d := List.mem_singleton.mp hn'
      exact (h.scanned n hn).1
    · rw [htaken.lookups, List.map_append] at hn
      rw [htaken.scanned]
      rcases List.mem_append.mp hn with hn | hn
      · exact ⟨List.mem_append_left _ (h.scanned n hn).1, (h.scanned n hn).2⟩
      · obtain rfl := List.mem_singleton.mp hn
        exact ⟨List.mem_append_right _ List.mem_cons_self, fun heq => hd (heq ▸ h.input)⟩
    · rw [htaken.scanned]
      exact List.mem_append_left _ h.input

theorem scanRounds_once (n : Nat) {p : Point σ} (h : Once a.filename p.1.1) :
    Once a.filename (t.scanRounds regexp a n p).1.1 := by
  have hnames : ∀ (toscan : List Name) (p : Point σ), Once a.filename p.1.1 →
      Once a.filename (toscan.foldl (t.scanName regexp a) p).1.1 := by
    intro toscan
    induction toscan with
    | nil => exact fun _ h => h
    | cons d toscan ih => exact fun p h => ih _ (scanName_once regexp a h)
  induction n generalizing p with
  | zero => exact h
  | succ n ih =>
    obtain ⟨⟨s, toscan⟩, c⟩ := p
    unfold scanRounds
    split
    · exact h
    · exact ih (hnames toscan ((s, []), c) h)

/-- The files that have been scanned, by their inodes: the input and those that were found. -/
def filesScanned (t : LiveTree σ) (a : ScanArgs) (c : σ × FindCache) (p : Point σ) : List String :=
  t.uuid c.1 ((t.snapshot c.1).real a.filename) :: p.1.1.uuids

end LiveTree

end Tmake
