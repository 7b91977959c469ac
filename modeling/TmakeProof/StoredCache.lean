import TmakeProof.Make
import TmakeProof.Makecache

/-! # The cache in its file

`Make` keeps `.makecache` as a `Cache`, the program keeps it as the text of a script.  A
dict of the cache is held by an element of the array in the form in which it is written
(`Holds`), a cache by the whole array (`Represents`); the order in which a dict was filled
does not matter, and no text stands for two caches (`Represents.agrees`).

Along every history of runs the file holds the cache that `Make` has on its disk
(`History.kept`), and so a run starts with what the previous ones have stored.
-/
namespace Tmake.Makecache
open Codec ListSyntax

/-! ## Values -/

def ruletarget : Codec RuleTarget := list string

def md5Prefix : Text := "md5:".toList
def linkPrefix : Text := "link:".toList

def stampText : Stamp → Text
  | .mtime t => intText t
  | .md5 digest => md5Prefix ++ digest.toList
  | .link text => linkPrefix ++ text.toList

def readStamp (cs : Text) : Option Stamp :=
  if md5Prefix.isPrefixOf cs then some (.md5 (String.ofList (cs.drop md5Prefix.length)))
  else if linkPrefix.isPrefixOf cs then some (.link (String.ofList (cs.drop linkPrefix.length)))
  else (readInt cs).map Stamp.mtime

/-- A number begins with a digit or a minus sign. -/
theorem intText_head (n : Int) {c : Char} (h : (intText n).head? = some c) :
    c = '-' ∨ c.isDigit = true := by
  cases n with
  | ofNat n => exact .inr (List.all_eq_true.mp (natText_digits n) c (List.mem_of_head? h))
  | negSucc n => exact .inl (Option.some.inj h).symm

theorem not_isPrefixOf_intText (n : Int) {c : Char} {cs : Text} (hc : c ≠ '-')
    (hdigit : c.isDigit = false) : ¬(c :: cs).isPrefixOf (intText n) = true := by
  intro h
  obtain ⟨rest, hrest⟩ := List.isPrefixOf_iff_prefix.mp h
  rcases intText_head n (c := c) (by rw [← hrest]; rfl) with h | h
  · exact hc h
  · rw [hdigit] at h
    cases h

def stamp : Codec Stamp where
  encode := stampText
  decode := readStamp
  decode_encode s := by
    cases s with
    | mtime t =>
      have hmd5 : ¬md5Prefix.isPrefixOf (intText t) = true :=
        not_isPrefixOf_intText t (by decide) (by decide)
      have hlink : ¬linkPrefix.isPrefixOf (intText t) = true :=
        not_isPrefixOf_intText t (by decide) (by decide)
      have hread : readInt (intText t) = some t := int.decode_encode t
      rw [stampText, readStamp, if_neg hmd5, if_neg hlink, hread]
      rfl
    | md5 digest =>
      have hmd5 : md5Prefix.isPrefixOf (md5Prefix ++ digest.toList) = true := by simp
      rw [stampText, readStamp, if_pos hmd5, List.drop_left, String.ofList_toList]
    | link text =>
      have hmd5 : ¬md5Prefix.isPrefixOf (linkPrefix ++ text.toList) = true := by
        simp [md5Prefix, linkPrefix]
      have hlink : linkPrefix.isPrefixOf (linkPrefix ++ text.toList) = true := by simp
      rw [stampText, readStamp, if_neg hmd5, if_pos hlink, List.drop_left, String.ofList_toList]

def failedText : Text := "failed".toList

theorem elements_failedText : elements failedText = [failedText] := by decide

/-- An entry of `dephash` is the word `failed`, or the hashes of a list of files. -/
def dephash : Codec DepHash where
  encode
    | .failed => failedText
    | .list l => (Codec.pairs string stamp).encode l
  decode cs :=
    if cs = failedText then some .failed else ((Codec.pairs string stamp).decode cs).map .list
  decode_encode h := by
    cases h with
    | failed => rfl
    | list l =>
      have hne := pairs_encode_ne string stamp l elements_failedText
      rw [if_neg hne, (Codec.pairs string stamp).decode_encode]
      rfl

/-- An entry of `srchash`: a time and a digest. -/
def srchash : Codec (Int × String) where
  encode x := listText [intText x.1, x.2.toList]
  decode cs :=
    match elements cs with
    | [t, digest] => (readInt t).map fun t => (t, String.ofList digest)
    | _ => none
  decode_encode x := by
    have hread : readInt (intText x.1) = some x.1 := int.decode_encode x.1
    simp only [(elements_listText _).2, hread, String.ofList_toList, Option.map_some]

/-! ## The array stands for the cache -/

section
variable {α β : Type} [DecidableEq α] (e : Codec α) (f : Codec β)

/-- An element of the array holds the dict, in whatever order it was filled. -/
def Holds (v : Vars) (k : Text) (m : Dict α β) : Prop :=
  ∃ m' : Dict α β, v.lookup k = some ((dict e f).encode m') ∧ ∀ x, m'.lookup x = m.lookup x

variable {e f} {v v' : Vars} {k : Text} {m m' : Dict α β}

theorem Holds.congr (h : Holds e f v k m) (hv : v'.lookup k = v.lookup k) : Holds e f v' k m := by
  obtain ⟨m', hm', hlookup⟩ := h
  exact ⟨m', hv.trans hm', hlookup⟩

theorem Holds.eq (h : Holds e f v k m) (h' : Holds e f v k m') (x : α) :
    m.lookup x = m'.lookup x := by
  obtain ⟨n, hn, hlookup⟩ := h
  obtain ⟨n', hn', hlookup'⟩ := h'
  obtain rfl : n = n' := (dict e f).encode_injective (Option.some.inj (hn.symm.trans hn'))
  rw [← hlookup x, hlookup' x]

theorem Holds.of_eq (h : Holds e f v k m) (hm : ∀ x, m.lookup x = m'.lookup x) :
    Holds e f v k m' := by
  obtain ⟨n, hn, hlookup⟩ := h
  exact ⟨n, hn, fun x => (hlookup x).trans (hm x)⟩

theorem Holds.exists_text (h : Holds e f v k m) : ∃ t, v.lookup k = some t := by
  obtain ⟨n, hn, -⟩ := h
  exact ⟨_, hn⟩

theorem Holds.empty (h : v.lookup k = some []) : Holds e f v k ∅ := ⟨∅, h, fun _ => rfl⟩

theorem entries_eq_nil : m.entries = [] ↔ ∀ x, m.lookup x = none := by
  refine ⟨fun h x => by rw [AList.lookup, h, List.dlookup_nil], fun h => ?_⟩
  refine List.eq_nil_iff_forall_not_mem.mpr fun x hx => ?_
  have := AList.mem_lookup_iff.mpr hx
  rw [h] at this
  cases this

/-- `dict size`. -/
theorem Holds.size (h : Holds e f v k m) :
    elements ((v.lookup k).getD []) = [] ↔ m.entries = [] := by
  obtain ⟨n, hn, hlookup⟩ := h
  have helements : elements ((v.lookup k).getD []) = flatten e f (entries n) := by
    rw [hn]
    exact (elements_listText _).2
  have hflatten : flatten e f (entries n) = [] ↔ n.entries = [] := by
    cases hentries : n.entries with
    | nil => simp [flatten, entries, hentries]
    | cons x l => simp [flatten, entries, hentries]
  rw [helements, hflatten, entries_eq_nil, entries_eq_nil]
  exact forall_congr' fun x => by rw [hlookup]

end

def fileKey : Text := "file".toList
def depsKey : Text := "deps".toList
def targetKey : Text := "target".toList
def execKey : Text := "exec".toList
def srchashKey : Text := "srchash".toList
def dephashKey : Text := "dephash".toList
def warningsKey : Text := "warnings".toList
def headerscanKey : Text := "headerscan".toList

def boolText (b : Bool) : Text := if b then ['1'] else ['0']

/-- The array `tmakecache`, for a cache. -/
structure Represents (v : Vars) (c : Cache) : Prop where
  file : Holds string int v fileKey c.file
  cmd : Holds ruletarget (list string) v cmdKey c.cmd
  deps : Holds ruletarget (list string) v depsKey c.deps
  target : Holds string ruletarget v targetKey c.target
  exec : Holds ruletarget (Codec.pairs string string) v execKey c.exec
  srchash : Holds string srchash v srchashKey c.srchash
  dephash : Holds ruletarget dephash v dephashKey c.dephash
  warnings : Holds ruletarget string v warningsKey c.warnings
  headerscan : Holds string string v headerscanKey c.headerscan
  writecache : v.lookup writecacheKey = some (boolText c.writecache)

/-- The entries are the same. -/
structure Agrees (c c' : Cache) : Prop where
  file : ∀ x, c.file.lookup x = c'.file.lookup x
  cmd : ∀ x, c.cmd.lookup x = c'.cmd.lookup x
  deps : ∀ x, c.deps.lookup x = c'.deps.lookup x
  target : ∀ x, c.target.lookup x = c'.target.lookup x
  exec : ∀ x, c.exec.lookup x = c'.exec.lookup x
  srchash : ∀ x, c.srchash.lookup x = c'.srchash.lookup x
  dephash : ∀ x, c.dephash.lookup x = c'.dephash.lookup x
  warnings : ∀ x, c.warnings.lookup x = c'.warnings.lookup x
  headerscan : ∀ x, c.headerscan.lookup x = c'.headerscan.lookup x
  writecache : c.writecache = c'.writecache

section
variable {v v' : Vars} {c c' : Cache}

theorem boolText_injective {a b : Bool} (h : boolText a = boolText b) : a = b := by
  cases a <;> cases b <;> first | rfl | cases h

/-- **No array stands for two caches.** -/
theorem Represents.agrees (h : Represents v c) (h' : Represents v c') : Agrees c c' where
  file := h.file.eq h'.file
  cmd := h.cmd.eq h'.cmd
  deps := h.deps.eq h'.deps
  target := h.target.eq h'.target
  exec := h.exec.eq h'.exec
  srchash := h.srchash.eq h'.srchash
  dephash := h.dephash.eq h'.dephash
  warnings := h.warnings.eq h'.warnings
  headerscan := h.headerscan.eq h'.headerscan
  writecache := boolText_injective (Option.some.inj (h.writecache.symm.trans h'.writecache))

theorem Represents.of_agrees (h : Represents v c) (hc : Agrees c c') : Represents v c' where
  file := h.file.of_eq hc.file
  cmd := h.cmd.of_eq hc.cmd
  deps := h.deps.of_eq hc.deps
  target := h.target.of_eq hc.target
  exec := h.exec.of_eq hc.exec
  srchash := h.srchash.of_eq hc.srchash
  dephash := h.dephash.of_eq hc.dephash
  warnings := h.warnings.of_eq hc.warnings
  headerscan := h.headerscan.of_eq hc.headerscan
  writecache := by rw [h.writecache, hc.writecache]

/-- The keys of the dicts of the cache. -/
def dictKeys : List Text :=
  [fileKey, cmdKey, depsKey, targetKey, execKey, srchashKey, dephashKey, warningsKey, headerscanKey]

theorem Represents.congr (h : Represents v c) (hv : ∀ k ∈ dictKeys, v'.lookup k = v.lookup k)
    {b : Bool} (hb : v'.lookup writecacheKey = some (boolText b)) :
    Represents v' { c with writecache := b } where
  file := h.file.congr (hv _ (by simp [dictKeys]))
  cmd := h.cmd.congr (hv _ (by simp [dictKeys]))
  deps := h.deps.congr (hv _ (by simp [dictKeys]))
  target := h.target.congr (hv _ (by simp [dictKeys]))
  exec := h.exec.congr (hv _ (by simp [dictKeys]))
  srchash := h.srchash.congr (hv _ (by simp [dictKeys]))
  dephash := h.dephash.congr (hv _ (by simp [dictKeys]))
  warnings := h.warnings.congr (hv _ (by simp [dictKeys]))
  headerscan := h.headerscan.congr (hv _ (by simp [dictKeys]))
  writecache := hb

theorem Represents.lookup_dictKeys (h : Represents v c) {k : Text} (hk : k ∈ dictKeys) :
    ∃ t, v.lookup k = some t := by
  simp only [dictKeys, List.mem_cons, List.not_mem_nil, or_false] at hk
  rcases hk with rfl | rfl | rfl | rfl | rfl | rfl | rfl | rfl | rfl
  · exact h.file.exists_text
  · exact h.cmd.exists_text
  · exact h.deps.exists_text
  · exact h.target.exists_text
  · exact h.exec.exists_text
  · exact h.srchash.exists_text
  · exact h.dephash.exists_text
  · exact h.warnings.exists_text
  · exact h.headerscan.exists_text

theorem emptycache_represents : Represents emptycache {} where
  file := .empty rfl
  cmd := .empty rfl
  deps := .empty rfl
  target := .empty rfl
  exec := .empty rfl
  srchash := .empty rfl
  dephash := .empty rfl
  warnings := .empty rfl
  headerscan := .empty rfl
  writecache := rfl

end

/-! ## Starting with the cache -/

/-- `mark-cache-dirty`. -/
def markCacheDirty (v : Vars) : Vars :=
  if v.lookup writecacheKey = some ['0'] then v.put writecacheKey ['1'] else v

/-- What `load-build-description` does once the cache is loaded: what is kept of external commands
is forgotten if they are not checked. -/
def discardExec (check : Bool) (v : Vars) : Vars :=
  if !check && elements ((v.lookup execKey).getD []) ≠ [] then
    markCacheDirty (v.put execKey [])
  else v

/-- `.makecache` holds what `Make` has on its disk. -/
structure Kept (I : Interp) (cache : Option Cache) (file : Option Text) : Prop where
  exists_iff : file.isNone = cache.isNone
  loaded : Represents (loadCache I file) { cache.getD {} with writecache := false }
  count : ∃ n, updatecount (loadCache I file) = some n

section
variable (I : Interp) {v : Vars} {c : Cache} {cache : Option Cache} {file : Option Text}

theorem kept_none : Kept I none none where
  exists_iff := rfl
  loaded := emptycache_represents.congr (fun k _ => lookup_cleared_false k) rfl
  count := ⟨0, rfl⟩

theorem Represents.markCacheDirty (h : Represents v c) :
    Represents (markCacheDirty v) { c with writecache := true } := by
  have hkeys : ∀ k ∈ dictKeys, k ≠ writecacheKey := by
    have hall : dictKeys.all (fun k => k ≠ writecacheKey) = true := by decide
    exact fun k hk => of_decide_eq_true (List.all_eq_true.mp hall k hk)
  rw [Makecache.markCacheDirty]
  split_ifs with hw
  · refine h.congr (fun k hk => ?_) ?_
    · rw [Vars.lookup_put, if_neg (hkeys k hk)]
    · rw [Vars.lookup_put, if_pos rfl]
      rfl
  · refine h.congr (fun k hk => rfl) ?_
    cases hb : c.writecache with
    | true => rw [h.writecache, hb]
    | false =>
      rw [h.writecache, hb] at hw
      exact absurd rfl hw

theorem Represents.discardExec (h : Represents v c) (check : Bool) :
    Represents (discardExec check v)
      (if !check && !c.exec.entries.isEmpty then { c with exec := ∅, writecache := true } else c) := by
  have hempty : (!check && elements ((v.lookup execKey).getD []) ≠ []) =
      (!check && !c.exec.entries.isEmpty) := by
    congr 1
    have := h.exec.size
    cases hentries : c.exec.entries with
    | nil => simp [this.mpr hentries]
    | cons x l =>
      have hne : elements ((v.lookup execKey).getD []) ≠ [] := fun hnil =>
        List.cons_ne_nil x l (hentries.symm.trans (this.mp hnil))
      simp [hne]
  rw [Makecache.discardExec]
  simp only [hempty]
  split_ifs
  · have hlookup {k : Text} (hk : k ≠ execKey) : (v.put execKey []).lookup k = v.lookup k := by
      rw [Vars.lookup_put, if_neg hk]
    refine Represents.markCacheDirty (c := { c with exec := ∅ }) ?_
    exact {
      file := h.file.congr (hlookup (by decide))
      cmd := h.cmd.congr (hlookup (by decide))
      deps := h.deps.congr (hlookup (by decide))
      target := h.target.congr (hlookup (by decide))
      exec := .empty (by rw [Vars.lookup_put, if_pos rfl])
      srchash := h.srchash.congr (hlookup (by decide))
      dephash := h.dephash.congr (hlookup (by decide))
      warnings := h.warnings.congr (hlookup (by decide))
      headerscan := h.headerscan.congr (hlookup (by decide))
      writecache := (hlookup (by decide)).trans h.writecache }
  · exact h

/-- A run starts with the cache that the file holds. -/
theorem Kept.load (h : Kept I cache file) (d : Desc) :
    Represents (discardExec d.checkexternalcmds (loadCache I file)) (Tmake.loadCache d cache) :=
  h.loaded.discardExec d.checkexternalcmds

theorem Kept.write (h : Kept I cache file) (hv : Represents v c) {n : Int}
    (hn : updatecount v = some n) (d : Desc) :
    Kept I (Tmake.writeCache d cache c) (writeCache (d.norun ≠ 0) d.isroot v file) := by
  have hwrites : writes (d.norun ≠ 0) d.isroot v file =
      (c.writecache && decide (d.norun = 0) && !(d.isroot && cache.isNone)) := by
    have htrue : ((v.lookup writecacheKey).map isTrue).getD false = c.writecache := by
      rw [hv.writecache]
      cases c.writecache <;> rfl
    rw [writes, htrue, h.exists_iff]
    simp
  by_cases hw : writes (d.norun ≠ 0) d.isroot v file = true
  · have hload := load_written I hw hn
    obtain ⟨b, hb, -⟩ := saved_of_updatecount hn
    have hmake : Tmake.writeCache d cache c = some { c with writecache := false } := by
      rw [hwrites] at hw
      simp only [Bool.and_eq_true, decide_eq_true_eq, Bool.not_eq_true'] at hw
      simp [Tmake.writeCache, hw]
    rw [hmake]
    refine ⟨by rw [writeCache_of_writes hw hb]; rfl, ?_, n + 1, ?_⟩
    · have hkeys : dictKeys.all (fun k => k ≠ updatecountKey ∧ k ≠ writecacheKey ∧ k ≠ versionKey) =
          true := by decide
      refine hv.congr (fun k hmem => ?_) ?_
      · have hk := of_decide_eq_true (List.all_eq_true.mp hkeys k hmem)
        obtain ⟨u, hu⟩ := hv.lookup_dictKeys hmem
        rw [hload, reloaded, if_neg hk.1, if_neg hk.2.1, if_neg hk.2.2, hu]
        rfl
      · rw [hload, reloaded, if_neg (by decide), if_pos rfl]
        rfl
    · rw [updatecount, hload, reloaded, if_pos rfl]
      exact int.decode_encode (n + 1)
  · have hmake : Tmake.writeCache d cache c = cache := by
      rw [hwrites] at hw
      simp only [Tmake.writeCache]
      split_ifs with h₁ h₂ h₃
      · rfl
      · rfl
      · rfl
      · simp_all
    rw [hmake, writeCache_of_not hw]
    exact h

end

/-! ## Runs -/

/-- A disk, with the text of its `.makecache`, after any number of runs of any projects, between
which anything but `.makecache` has been edited.  What a run leaves in the array stands for the
cache that `Make` has computed. -/
inductive History (I : Interp) : Disk → Option Text → Prop where
  | start (fs : FS) : History I { fs } none
  | edit {D : Disk} {file : Option Text} (fs : FS) : History I D file → History I { D with fs } file
  | run {D : Disk} {file : Option Text} (P : Project) (E : Env) (n k : Nat) (targets : List Name)
      (tick : Nat) {d : Desc} {s : Make} {v : Vars} :
      History I D file → P.parse tick D.fs = some d →
      runMake P E n k targets { d with norun := P.norun } (tick + 1) D = s →
      Represents v s.world.cache → updatecount v = updatecount (loadCache I file) →
      History I (runDisk P E n k targets tick D) (writeCache (s.desc.norun ≠ 0) s.desc.isroot v file)

theorem History.kept {I : Interp} {D : Disk} {file : Option Text} (h : History I D file) :
    Kept I D.makecache file := by
  induction h with
  | start fs => exact kept_none I
  | edit fs _ ih => exact ih
  | run P E n k targets tick _ hparse hs hv hcount ih =>
    obtain ⟨m, hm⟩ := ih.count
    rw [runDisk, hparse]
    dsimp only
    rw [hs]
    exact ih.write I hv (hcount.trans hm) _

theorem noRules_disjoint : ([] : List Rule).Pairwise fun r s => ∀ t ∈ r.target, t ∉ s.target := .nil

/-- A project without rules. -/
def noRules : Desc where
  rules := []
  disjoint := noRules_disjoint

end Tmake.Makecache
