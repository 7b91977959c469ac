import TmakeProof.Presence
import TmakeProof.Scheduler

/-! # What the checks of a rule compare

`calc-deplist-hash` is a function of the cached digests and the file tree (`stampList`):
while it runs it records new digests, but only such as do not change what it computes
(`Hashing`).  A rule is `Current` if everything that `build` compares is in the cache as
it is now.  The checks of `build` leave a rule that they find up to date current, and
find a rule that is current up to date (`checkRule_compared`).
-/
namespace Tmake
open Weakest

/-! ## Stamps -/

section
variable (d : Desc) (md5 : String → String) (c : Cache) (fs : FS)

/-- `get-file-hash`; the digest that is cached stands for the content as long as the time is the
same. -/
def fileStamp (file : Path) (usehashes : Bool) : Option Stamp :=
  (fs.stat file).map fun x =>
    if !d.usehashes && !usehashes then .mtime x.1
    else .md5 (match c.srchash.lookup file with
      | some y => if x.1 = y.1 then y.2 else md5 x.2
      | none => md5 x.2)

/-- The file of a name. -/
def Desc.file (t : Name) : Path := if d.isTarget t then d.fileBuild (d.mapAlias t) else t

/-- `calc-file-hash`. -/
def nameStamp (t : Name) : Option Stamp :=
  match d.ruleFor t with
  | some r =>
    match fs (d.file t) with
    | some (.link text _ _) => some (.link text)
    | some (.file mtime _) =>
      if r.hash then fileStamp d md5 c fs (d.file t) true else some (.mtime mtime)
    | none => none
  | none => fileStamp d md5 c fs (d.file t) false

/-- `calc-deplist-hash`. -/
def stampList (l : List Name) : Option (List (Name × Stamp)) :=
  (lsort l).mapM fun t => (nameStamp d md5 c fs t).map fun s => (t, s)

end

section
variable {d : Desc} {E : Env} {md5 : String → String} {c c' : Cache} {fs fs' : FS} {w w' : World}

/-- The hash of a list of names depends on the stamps of the names only. -/
theorem stampList_congr {l : List Name}
    (h : ∀ t ∈ l, nameStamp d md5 c' fs' t = nameStamp d md5 c fs t) :
    stampList d md5 c' fs' l = stampList d md5 c fs l := by
  have hsort : ∀ t ∈ lsort l, nameStamp d md5 c' fs' t = nameStamp d md5 c fs t := fun t ht =>
    h t ((List.perm_insertionSort _ l).mem_iff.mp ht)
  rw [stampList, stampList]
  generalize lsort l = l at hsort
  induction l with
  | nil => rfl
  | cons t l ih =>
    rw [List.forall_mem_cons] at hsort
    rw [List.mapM_cons, List.mapM_cons, hsort.1, ih hsort.2]

/-- The stamp of a file depends on this file and on its digest. -/
theorem fileStamp_congr {p : Path} (hfs : fs' p = fs p)
    (hc : c'.srchash.lookup p = c.srchash.lookup p) (b : Bool) :
    fileStamp d md5 c' fs' p b = fileStamp d md5 c fs p b := by
  have hstat : fs'.stat p = fs.stat p := by
    rw [FS.stat, FS.stat, hfs]
  simp only [fileStamp, hstat, hc]

/-- The stamp of a name depends on its own file. -/
theorem nameStamp_congr {t : Name} (hfs : fs' (d.file t) = fs (d.file t))
    (h : ∀ b, fileStamp d md5 c' fs' (d.file t) b = fileStamp d md5 c fs (d.file t) b) :
    nameStamp d md5 c' fs' t = nameStamp d md5 c fs t := by
  rw [nameStamp, nameStamp, hfs, h, h]

/-- Between the two states nothing but digests has been recorded, and no stamp has changed. -/
structure Hashing (d : Desc) (md5 : String → String) (w w' : World) : Prop where
  rest : w' = { w with cache := { w.cache with
    srchash := w'.cache.srchash, writecache := w'.cache.writecache } }
  stamps : ∀ file b, fileStamp d md5 w'.cache w.fs file b = fileStamp d md5 w.cache w.fs file b

theorem Hashing.fs_eq (h : Hashing d md5 w w') : w'.fs = w.fs := by rw [h.rest]

theorem Hashing.nameStamp (h : Hashing d md5 w w') (t : Name) :
    nameStamp d md5 w'.cache w'.fs t = nameStamp d md5 w.cache w.fs t := by
  rw [h.fs_eq]
  exact nameStamp_congr rfl (h.stamps _)

theorem Hashing.stampList (h : Hashing d md5 w w') (l : List Name) :
    stampList d md5 w'.cache w'.fs l = stampList d md5 w.cache w.fs l :=
  stampList_congr fun t _ => h.nameStamp t

instance : IsPreorder World (Hashing d md5) where
  refl _ := ⟨rfl, fun _ _ => rfl⟩
  trans w w' w'' h h' := by
    refine ⟨?_, fun file b => ?_⟩
    · rw [h'.rest, h.rest]
    · have := h'.stamps file b
      rw [h.fs_eq] at this
      rw [this, h.stamps]

/-- A digest is recorded. -/
theorem Hashing.record {file : Path} {mtime : Int} {content : String}
    (hstat : w.fs.stat file = some (mtime, content))
    (hnew : ∀ y, w.cache.srchash.lookup file = some y → mtime ≠ y.1) :
    Hashing d md5 w { w with cache := { w.cache with
      srchash := w.cache.srchash.insert file (mtime, md5 content), writecache := true } } := by
  refine ⟨rfl, fun file' b => ?_⟩
  by_cases he : file' = file
  · subst he
    rw [fileStamp, fileStamp, hstat]
    simp only [Option.map_some, AList.lookup_insert, if_true]
    cases hlookup : w.cache.srchash.lookup file' with
    | none => rfl
    | some y => simp only [if_neg (hnew y hlookup)]
  · simp only [fileStamp, AList.lookup_insert_ne he]

theorem getFileHash_hashing (file : Path) (b : Bool) (w : World) :
    wp (getFileHash d E file b)
      (fun s w' => fileStamp d E.md5 w.cache w.fs file b = some s ∧ Hashing d E.md5 w w')
      (fun _ _ => True) w := by
  unfold getFileHash
  rw [wp_bind, wp_get, fileStamp]
  cases hstat : w.fs.stat file with
  | none => trivial
  | some x =>
    obtain ⟨mtime, content⟩ := x
    simp only [Option.map_some]
    rw [wp_ite]
    refine ⟨fun hb => ?_, fun hb => ?_⟩
    · rw [if_pos hb]
      exact ⟨rfl, refl_of _ w⟩
    · rw [if_neg hb]
      cases hlookup : w.cache.srchash.lookup file with
      | none =>
        refine ⟨rfl, Hashing.record hstat fun y hy => ?_⟩
        rw [hlookup] at hy
        cases hy
      | some y =>
        dsimp only
        rw [wp_ite]
        refine ⟨fun he => ?_, fun he => ?_⟩
        · rw [if_pos he]
          exact ⟨rfl, refl_of _ w⟩
        · rw [if_neg he]
          refine ⟨rfl, Hashing.record hstat fun y' hy' => ?_⟩
          obtain rfl := Option.some.inj (hlookup.symm.trans hy')
          exact he

theorem calcFileHash_hashing (hn : d.norun = 0) (t : Name) (w : World) :
    wp (calcFileHash d E t)
      (fun s w' => nameStamp d E.md5 w.cache w.fs t = some s ∧ Hashing d E.md5 w w')
      (fun _ _ => True) w := by
  unfold calcFileHash nameStamp
  cases hr : d.ruleFor t with
  | none =>
    have hfile : d.file t = t := by simp [Desc.file, Desc.isTarget, hr]
    rw [hfile]
    exact getFileHash_hashing t false w
  | some r =>
    have hfile : d.file t = d.fileBuild (d.mapAlias t) := by simp [Desc.file, Desc.isTarget, hr]
    dsimp only
    rw [wp_bind, wp_get, hfile]
    cases hnode : w.fs (d.fileBuild (d.mapAlias t)) with
    | none => simp [hn, tclError, emit]
    | some node =>
      cases node with
      | link text lmtime seen => exact ⟨rfl, refl_of _ w⟩
      | file mtime content =>
        dsimp only
        rw [wp_ite]
        refine ⟨fun hhash => ?_, fun hhash => ?_⟩
        · rw [if_pos hhash]
          exact getFileHash_hashing _ true w
        · rw [if_neg hhash]
          exact ⟨rfl, refl_of _ w⟩

theorem calcDeplistHash_hashing (hn : d.norun = 0) (l : List Name) (w : World) :
    wp (calcDeplistHash d E l)
      (fun h w' => stampList d E.md5 w.cache w.fs l = some h ∧ Hashing d E.md5 w w')
      (fun _ _ => True) w := by
  rw [calcDeplistHash, stampList]
  generalize lsort l = l
  induction l generalizing w with
  | nil => exact ⟨rfl, refl_of _ w⟩
  | cons t l ih =>
    unfold calcHashes
    rw [wp_bind]
    refine (calcFileHash_hashing hn t w).imp ?_ fun _ _ h => h
    rintro s w₁ ⟨hs, hw₁⟩
    rw [wp_bind]
    refine (ih w₁).imp ?_ fun _ _ h => h
    rintro rest w₂ ⟨hrest, hw₂⟩
    refine ⟨?_, trans_of _ hw₁ hw₂⟩
    have hsame : (fun t => (nameStamp d E.md5 w₁.cache w₁.fs t).map fun s => (t, s)) =
        fun t => (nameStamp d E.md5 w.cache w.fs t).map fun s => (t, s) :=
      funext fun t => by rw [hw₁.nameStamp]
    rw [hsame] at hrest
    rw [List.mapM_cons, hs, hrest]
    rfl

end

/-! ## Rules that are current -/

section
variable (d : Desc) (E : Env) (c : Cache) (fs : FS) (r : Rule) (dyn : List Name)

/-- The hash of the dependencies is the one that is saved. -/
def Hashed : Prop :=
  ∃ h, stampList d E.md5 c fs (r.depends ++ dyn) = some h ∧
    (c.dephash.lookup r.target).getD (.list []) = .list h

/-- No external command of the rule has changed. -/
def ExecCurrent : Prop :=
  d.checkexternalcmds = true → ∀ x ∈ (c.exec.lookup r.target).getD [], E.statCmd x.1 = x.2

/-- The dynamic dependencies are those that are saved. -/
def DepsCurrent : Prop :=
  (∀ l, c.deps.lookup r.target = some l → lsort dyn = l) ∧
    (c.deps.lookup r.target = none → r.depends = [])

/-- The text of the `-do` list is the one that is saved. -/
def CmdCurrent : Prop :=
  ∃ cmd, substDo d (d.vardict r) r.doList = some cmd ∧ c.cmd.lookup r.target = some cmd

/-- Everything that `build` compares is as it was when the rule was built. -/
structure Current : Prop where
  files : fileExistsAll d fs r = true
  deps : DepsCurrent c r dyn
  hash : Hashed d E c fs r dyn
  cmd : CmdCurrent d c r
  exec : ExecCurrent d E c r

/-- The targets that are recorded are those of their rules. -/
def Owned : Prop :=
  ∀ t owner r, c.target.lookup t = some owner → d.ruleFor t = some r → owner = r.target

end

theorem Outdates.of_uptodate {st : Status} (h : Outdates st .uptodate) : st = .uptodate :=
  h.elim Eq.symm fun h => h.1

/-- Between the two states nothing but digests and the hash of the rule has been recorded. -/
structure Rechecked (d : Desc) (md5 : String → String) (r : Rule) (w w' : World) : Prop where
  rest : w' = { w with cache := { w.cache with
    srchash := w'.cache.srchash, dephash := w'.cache.dephash, writecache := w'.cache.writecache } }
  dephash : ∀ rt, rt ≠ r.target → w'.cache.dephash.lookup rt = w.cache.dephash.lookup rt
  stamps : ∀ file b, fileStamp d md5 w'.cache w.fs file b = fileStamp d md5 w.cache w.fs file b

section
variable {d : Desc} {E : Env} {md5 : String → String} {r : Rule} {dyn : List Name} {w w' : World}

theorem Rechecked.fs_eq (h : Rechecked d md5 r w w') : w'.fs = w.fs := by rw [h.rest]

theorem Rechecked.stampList (h : Rechecked d md5 r w w') (l : List Name) :
    stampList d md5 w'.cache w'.fs l = stampList d md5 w.cache w.fs l := by
  rw [h.fs_eq]
  exact stampList_congr fun t _ => nameStamp_congr rfl (h.stamps _)

theorem Hashing.rechecked (h : Hashing d md5 w w') : Rechecked d md5 r w w' := by
  have hdephash : w'.cache.dephash = w.cache.dephash := by rw [h.rest]
  refine ⟨?_, fun rt _ => by rw [hdephash], h.stamps⟩
  rw [hdephash]
  exact h.rest

/-- The hash of the rule is recorded. -/
theorem Hashing.save (h : Hashing d md5 w w') (l : List (Name × Stamp)) :
    Rechecked d md5 r w { w' with cache := { w'.cache with
      dephash := w'.cache.dephash.insert r.target (.list l), writecache := true } } := by
  refine ⟨?_, fun rt hrt => ?_, fun file b => ?_⟩
  · rw [h.rest]
  · rw [AList.lookup_insert_ne hrt, h.rest]
  · exact (fileStamp_congr rfl rfl b).trans (h.stamps file b)

instance : IsPreorder World (Rechecked d md5 r) where
  refl _ := ⟨rfl, fun _ _ => rfl, fun _ _ => rfl⟩
  trans w w' w'' h h' := by
    refine ⟨?_, fun rt hrt => (h'.dephash rt hrt).trans (h.dephash rt hrt), fun file b => ?_⟩
    · rw [h'.rest, h.rest]
    · have hstamps := h'.stamps file b
      rw [h.fs_eq] at hstamps
      exact hstamps.trans (h.stamps file b)

/-- After the hash of the rule has been recorded it is saved. -/
theorem Hashing.hashed (h : Hashing d E.md5 w w') {l : List (Name × Stamp)}
    (hl : Tmake.stampList d E.md5 w.cache w.fs (r.depends ++ dyn) = some l) :
    Hashed d E { w'.cache with
      dephash := w'.cache.dephash.insert r.target (.list l), writecache := true } w'.fs r dyn :=
  ⟨l, ((h.save l).stampList _).trans hl, congrArg (Option.getD · _) (AList.lookup_insert _)⟩

/-- `checkHash` leaves the hash of the dependencies saved, and finds a rule up to date if it was
saved before. -/
theorem checkHash_hashed (hn : d.norun = 0) {st : Status} (w : World) :
    wp (checkHash d E r (r.depends ++ dyn) st)
      (fun st' w' => Rechecked d E.md5 r w w' ∧
        (Hashed d E w.cache w.fs r dyn ∨ st.done = true ∧ r.phony = false →
          Hashed d E w'.cache w'.fs r dyn) ∧
        Outdates st st' ∧ (st = .uptodate → Hashed d E w.cache w.fs r dyn → st' = .uptodate) ∧
        (st.done = false → w' = w))
      (fun _ _ => True) w := by
  unfold checkHash
  rw [wp_ite]
  refine ⟨fun hc => ?_, fun hc => ?_⟩
  · obtain ⟨hup, -⟩ := Bool.and_eq_true_iff.mp hc
    have hup : st = .uptodate := of_decide_eq_true hup
    have hdone : ¬st.done = false := by rw [hup]; decide
    unfold needbuild
    simp only [wp_bind, wp_get]
    refine (calcDeplistHash_hashing hn (r.depends ++ dyn) w).imp ?_ fun _ _ h => h
    rintro h w₁ ⟨hh, hw₁⟩
    rw [wp_ite]
    refine ⟨fun he => ?_, fun he => ?_⟩
    · refine ⟨hw₁.rechecked, fun _ => ⟨h, (hw₁.stampList _).trans hh, ?_⟩, .inl rfl, fun _ _ => hup,
        fun hnot => absurd hnot hdone⟩
      rw [hw₁.rest]
      exact he.symm
    · refine ⟨hw₁.save h, fun _ => hw₁.hashed hh, .inr ⟨hup, rfl⟩, fun _ => ?_,
        fun hnot => absurd hnot hdone⟩
      rintro ⟨h', hh', hsaved⟩
      obtain rfl := Option.some.inj (hh.symm.trans hh')
      exact absurd hsaved.symm he
  · rw [wp_ite]
    refine ⟨fun hc' => ?_, fun hc' => ⟨refl_of _ w, fun h => h.elim id fun h => ?_, .inl rfl,
      fun hup _ => hup, fun _ => rfl⟩⟩
    · have hdone : ¬st.done = false := by
        simp only [Bool.and_eq_true, Bool.or_eq_true, decide_eq_true_eq] at hc'
        rcases hc'.2 with h | h <;> rw [h] <;> decide
      rw [wp_bind]
      refine (calcDeplistHash_hashing hn (r.depends ++ dyn) w).imp ?_ fun _ _ h => h
      rintro h w₁ ⟨hh, hw₁⟩
      exact ⟨hw₁.save h, fun _ => hw₁.hashed hh, .inl rfl, fun hup _ => hup,
        fun hnot => absurd hnot hdone⟩
    · cases st <;> simp_all [Status.done]

/-! ## The checks -/

theorem checkDyndeps_uptodate {st : Status} (hphony : r.phony = false) (hdo : r.doList ≠ []) :
    checkDyndeps r dyn w st = .uptodate ↔ st = .uptodate ∧ DepsCurrent w.cache r dyn := by
  have hempty : r.doList.isEmpty = false := by simpa using hdo
  unfold checkDyndeps DepsCurrent
  by_cases hst : st = .uptodate
  · cases hlookup : w.cache.deps.lookup r.target with
    | none => by_cases hdeps : r.depends = [] <;> simp [hst, hphony, hempty, hdeps]
    | some l => by_cases hl : lsort dyn = l <;> simp [hst, hphony, hempty, hl]
  · simp [hst]

theorem checkOwner_owned {t : Name} {st : Status} (h : Owned d w.cache) (ht : d.ruleFor t = some r) :
    checkOwner r t w st = st := by
  unfold checkOwner
  split
  · cases hlookup : w.cache.target.lookup t with
    | none => rfl
    | some owner => simp [h t owner r hlookup ht]
  · rfl

theorem checkExec_uptodate {st : Status} (hforce : d.force = false) :
    checkExec d E r w st = .uptodate ↔ st = .uptodate ∧ ExecCurrent d E w.cache r := by
  unfold checkExec ExecCurrent
  by_cases hst : st = .uptodate
  · by_cases hcheck : d.checkexternalcmds = true
    · simp [hst, hcheck, hforce]
    · simp [hst, hcheck, hforce]
  · simp [hst]

theorem checkCommands_compared {st : Status} (w : World) :
    wp (checkCommands d r (d.vardict r) st)
      (fun st' w' => w' = w ∧ Outdates st st' ∧
        (r.doList ≠ [] → (st' = .uptodate ↔ st = .uptodate ∧ CmdCurrent d w.cache r)))
      (fun _ _ => True) w := by
  unfold checkCommands CmdCurrent
  rw [wp_ite]
  refine ⟨fun hc => ?_, fun hc => ⟨rfl, .inl rfl, fun hdo => ?_⟩⟩
  · have hst : st = .uptodate := of_decide_eq_true (Bool.and_eq_true_iff.mp hc).1
    rw [wp_bind, wp_get]
    cases hlookup : w.cache.cmd.lookup r.target with
    | none => exact ⟨rfl, .inr ⟨hst, rfl⟩, by simp⟩
    | some prevdo =>
      dsimp only
      rw [wp_bind]
      unfold substDoOrExit
      cases hsubst : substDo d (d.vardict r) r.doList with
      | none => trivial
      | some cmd =>
        by_cases hcmd : cmd = prevdo
        · simp [hcmd, hst, Outdates]
        · simp [hcmd, hst, Ne.symm hcmd, Outdates]
  · have hempty : r.doList.isEmpty = false := by simpa using hdo
    have hst : st ≠ .uptodate := by simpa [hempty] using hc
    simp [hst]

/-- What `build` finds out about a rule before it runs it. -/
theorem checkRule_compared (hn : d.norun = 0) (hforce : d.force = false) {t : Name}
    (ht : d.ruleFor t = some r) {st : Status} (w : World) (howned : Owned d w.cache) :
    wp (checkRule d E r t (d.vardict r) dyn st)
      (fun st' w' => Rechecked d E.md5 r w w' ∧
        (Hashed d E w.cache w.fs r dyn ∨ st.done = true ∧ r.phony = false →
          Hashed d E w'.cache w'.fs r dyn) ∧
        Outdates st st' ∧
        (r.phony = false → r.doList ≠ [] → st' = .uptodate → DepsCurrent w'.cache r dyn ∧
          CmdCurrent d w'.cache r ∧ ExecCurrent d E w'.cache r) ∧
        (r.phony = false → r.doList ≠ [] → st = .uptodate → DepsCurrent w.cache r dyn →
          Hashed d E w.cache w.fs r dyn → CmdCurrent d w.cache r → ExecCurrent d E w.cache r →
          st' = .uptodate) ∧
        (st.done = false → w' = w))
      (fun _ _ => True) w := by
  unfold checkRule
  rw [wp_bind, wp_get, wp_bind]
  have hstop : wp (stopIf d.quickstop .quickstop) (fun _ w' => w' = w) (fun _ _ => True) w := by
    unfold stopIf
    rw [wp_bind, wp_get, wp_ite]
    exact ⟨fun _ => trivial, fun _ => rfl⟩
  refine hstop.imp ?_ fun _ _ h => h
  rintro - w₀ hw₀
  rw [hw₀, wp_bind]
  have hst₀ := checkDyndeps_outdates r dyn w st
  refine (checkHash_hashed hn w).imp ?_ fun _ _ h => h
  rintro st₁ w₁ ⟨hre, hhash, hst₁, hup₁, hsame₁⟩
  rw [wp_bind, wp_get, wp_bind]
  -- the checks that follow see the cache as it was but for the hashes
  have howned₁ : Owned d w₁.cache := by
    rw [hre.rest]
    exact howned
  have hdeps₁ : DepsCurrent w₁.cache r dyn ↔ DepsCurrent w.cache r dyn := by rw [hre.rest]; rfl
  have hcmd₁ : CmdCurrent d w₁.cache r ↔ CmdCurrent d w.cache r := by rw [hre.rest]; rfl
  have hexec₁ : ExecCurrent d E w₁.cache r ↔ ExecCurrent d E w.cache r := by rw [hre.rest]; rfl
  rw [checkOwner_owned howned₁ ht]
  refine (checkCommands_compared w₁).imp ?_ fun _ _ h => h
  rintro st₂ w₂ ⟨hw₂, hst₂, hcmd⟩
  rw [wp_bind, wp_get, wp_pure, hw₂]
  have hst₃ := checkExec_outdates (d := d) (E := E) r w₁ st₂
  have hexec : checkExec d E r w₁ st₂ = .uptodate ↔ st₂ = .uptodate ∧ ExecCurrent d E w₁.cache r :=
    checkExec_uptodate hforce
  refine ⟨hre, fun h => hhash (h.imp_right fun h => ⟨hst₀.done h.1, h.2⟩),
    ((hst₀.trans hst₁).trans hst₂).trans hst₃, fun hphony hdo hup => ?_,
    fun hphony hdo hup hdeps hhashed hc he => ?_, fun hnot => hsame₁ ?_⟩
  · obtain ⟨hup₂, he⟩ := hexec.mp hup
    obtain ⟨hup₁, hc⟩ := (hcmd hdo).mp hup₂
    rw [hup₁] at hst₁
    exact ⟨hdeps₁.mpr ((checkDyndeps_uptodate hphony hdo).mp hst₁.of_uptodate).2, hc, he⟩
  · have h₁ := hup₁ ((checkDyndeps_uptodate hphony hdo).mpr ⟨hup, hdeps⟩) hhashed
    exact hexec.mpr ⟨(hcmd hdo).mpr ⟨h₁, hcmd₁.mpr hc⟩, hexec₁.mpr he⟩
  · rcases hst₀ with he | ⟨he, -⟩
    · rw [he, hnot]
    · rw [he] at hnot
      cases hnot

end
end Tmake
