import TmakeProof.RunRecords

/-! # What a stamp tells

`build` never compares the files that a rule depends on, only their stamps: a time, a
digest that may be an old one, or the text of a link.  A stamp tells what the file is
(`Stamp.Tells`) if two versions of a file never have the same time, nor the same digest
(`Chronicle`), and if the digests in the cache are those of the versions that they are
entered for (`Cache.Honest`).  So two hashes of the dependencies of a rule are the same
only if the rule sees the same of them (`stampList_views`).  The checks of a rule keep the
digests honest (`checkRule_honest`), and nothing else records any.
-/
namespace Tmake
open Weakest

/-! ## Versions -/

/-- The versions that the files of a project go through: the content of a file at a time, and
digests that tell the versions of a file apart. -/
structure Chronicle where
  content : Path → Int → String
  md5 : String → String
  distinct : ∀ p s t, md5 (content p s) = md5 (content p t) → content p s = content p t

/-- What a rule sees of a name that it depends on. -/
inductive View where
  | content (content : String)
  | link (text : String)
  deriving DecidableEq, Repr

/-- A target that is a symbolic link shows its text, everything else its content. -/
def Desc.view (d : Desc) (fs : FS) (t : Name) : Option View :=
  if d.isTarget t then
    match fs (d.file t) with
    | some (.file _ content) => some (.content content)
    | some (.link text _ _) => some (.link text)
    | none => none
  else (fs.stat (d.file t)).map fun x => .content x.2

/-- The files have the content that they have at their times. -/
def FS.Logged (fs : FS) (scratch : Path → Prop) (C : Chronicle) : Prop :=
  ∀ p, ¬scratch p → ∀ mtime content, fs.stat p = some (mtime, content) → content = C.content p mtime

/-- The digests in the cache are those of the versions with these times. -/
def Cache.Honest (c : Cache) (scratch : Path → Prop) (C : Chronicle) : Prop :=
  ∀ p, ¬scratch p → ∀ mtime digest, c.srchash.lookup p = some (mtime, digest) →
    digest = C.md5 (C.content p mtime)

/-- The stamp of a file that shows this. -/
inductive Stamp.Tells (C : Chronicle) (p : Path) : Stamp → View → Prop where
  | mtime (t : Int) : Tells C p (.mtime t) (.content (C.content p t))
  | md5 (t : Int) : Tells C p (.md5 (C.md5 (C.content p t))) (.content (C.content p t))
  | link (text : String) : Tells C p (.link text) (.link text)

section
variable {d d' : Desc} {scratch : Path → Prop} {C : Chronicle} {c c' : Cache} {fs fs' : FS} {p : Path}
  {t : Name} {s : Stamp}

theorem Stamp.Tells.unique {v v' : View} (h : s.Tells C p v) (h' : s.Tells C p v') : v = v' := by
  cases h with
  | mtime t =>
    cases h'
    rfl
  | md5 t =>
    generalize hs : Stamp.md5 (C.md5 (C.content p t)) = s at h'
    cases h' with
    | md5 t' =>
      rw [C.distinct p t t' (Stamp.md5.inj hs)]
    | mtime | link => cases hs
  | link text =>
    cases h'
    rfl

theorem fileStamp_tells (hp : ¬scratch p) (hl : fs.Logged scratch C) (hh : c.Honest scratch C)
    {b : Bool} (h : fileStamp d C.md5 c fs p b = some s) :
    ∃ mtime content, fs.stat p = some (mtime, content) ∧ s.Tells C p (.content content) := by
  obtain ⟨⟨mtime, content⟩, hstat, hs⟩ := Option.map_eq_some_iff.mp h
  refine ⟨mtime, content, hstat, ?_⟩
  have hcontent := hl p hp mtime content hstat
  subst hcontent hs
  dsimp only
  split
  · exact .mtime mtime
  · cases hlookup : c.srchash.lookup p with
    | none => exact .md5 mtime
    | some y =>
      obtain ⟨mtime', digest⟩ := y
      dsimp only
      split
      · next he =>
        have hdigest := hh p hp mtime' digest hlookup
        subst he hdigest
        exact .md5 mtime
      · exact .md5 mtime

/-- **A stamp tells what a rule sees.** -/
theorem nameStamp_tells (hp : ¬scratch (d.file t)) (hl : fs.Logged scratch C)
    (hh : c.Honest scratch C) (h : nameStamp d C.md5 c fs t = some s) :
    ∃ v, d.view fs t = some v ∧ s.Tells C (d.file t) v := by
  unfold nameStamp at h
  unfold Desc.view
  cases hr : d.ruleFor t with
  | none =>
    have ht : d.isTarget t = false := by simp [Desc.isTarget, hr]
    simp only [hr] at h
    obtain ⟨mtime, content, hstat, htells⟩ := fileStamp_tells hp hl hh h
    exact ⟨.content content, by simp [ht, hstat], htells⟩
  | some r =>
    have ht : d.isTarget t = true := d.isTarget_iff.mpr ⟨r, hr⟩
    simp only [hr] at h
    cases hnode : fs (d.file t) with
    | none =>
      simp only [hnode] at h
      cases h
    | some node =>
      cases node with
      | link text lmtime seen =>
        simp only [hnode, Option.some.injEq] at h
        subst h
        exact ⟨.link text, by simp [ht], .link text⟩
      | file mtime content =>
        have hstat : fs.stat (d.file t) = some (mtime, content) := by simp [FS.stat, hnode]
        refine ⟨.content content, by simp [ht], ?_⟩
        simp only [hnode] at h
        split at h
        · obtain ⟨mtime', content', hstat', htells⟩ := fileStamp_tells hp hl hh h
          rw [hstat] at hstat'
          obtain ⟨-, rfl⟩ := Prod.mk.inj (Option.some.inj hstat')
          exact htells
        · have hcontent := hl _ hp mtime content hstat
          subst hcontent
          obtain rfl := Option.some.inj h
          exact .mtime mtime

theorem mem_lsort {l : List Name} : t ∈ lsort l ↔ t ∈ l := (List.perm_insertionSort _ l).mem_iff

/-- The names of a hash, and what each stamp is. -/
theorem mapM_stamps {f : Name → Option Stamp} {l : List Name} {h : List (Name × Stamp)}
    (hl : (l.mapM fun t => (f t).map fun s => (t, s)) = some h) :
    h.map (·.1) = l ∧ ∀ x ∈ h, f x.1 = some x.2 := by
  induction l generalizing h with
  | nil =>
    obtain rfl := Option.some.inj hl
    exact ⟨rfl, fun _ hx => absurd hx List.not_mem_nil⟩
  | cons t l ih =>
    rw [List.mapM_cons] at hl
    obtain ⟨x, hx, hl⟩ := Option.bind_eq_some_iff.mp hl
    obtain ⟨rest, hrest, hl⟩ := Option.bind_eq_some_iff.mp hl
    obtain rfl := Option.some.inj hl
    obtain ⟨s, hs, rfl⟩ := Option.map_eq_some_iff.mp hx
    obtain ⟨hnames, hstamps⟩ := ih hrest
    exact ⟨by rw [List.map_cons, hnames], List.forall_mem_cons.mpr ⟨hs, hstamps⟩⟩

/-- **Rules whose dependencies have the same hash see the same**: they depend on the same names,
and see the same of each. -/
theorem stampList_views {l l' : List Name} {h : List (Name × Stamp)}
    (hl : fs.Logged scratch C) (hh : c.Honest scratch C)
    (hl' : fs'.Logged scratch C) (hh' : c'.Honest scratch C)
    (hfile : ∀ t ∈ l, ¬scratch (d.file t)) (hsame : ∀ t ∈ l, t ∈ l' → d'.file t = d.file t)
    (hs : stampList d C.md5 c fs l = some h) (hs' : stampList d' C.md5 c' fs' l' = some h) :
    lsort l = lsort l' ∧ ∀ t ∈ l, d'.view fs' t = d.view fs t := by
  obtain ⟨hnames, hstamps⟩ := mapM_stamps hs
  obtain ⟨hnames', hstamps'⟩ := mapM_stamps hs'
  refine ⟨hnames.symm.trans hnames', fun t ht => ?_⟩
  have hmem : t ∈ h.map (·.1) := by
    rw [hnames]
    exact mem_lsort.mpr ht
  have hsame : d'.file t = d.file t := by
    refine hsame t ht (mem_lsort.mp ?_)
    rwa [← hnames']
  obtain ⟨x, hx, rfl⟩ := List.mem_map.mp hmem
  obtain ⟨v, hv, htells⟩ := nameStamp_tells (hfile _ ht) hl hh (hstamps x hx)
  have hfile' : ¬scratch (d'.file x.1) := by
    rw [hsame]
    exact hfile _ ht
  obtain ⟨v', hv', htells'⟩ := nameStamp_tells hfile' hl' hh' (hstamps' x hx)
  rw [hsame] at htells'
  rw [hv, hv', htells.unique htells']

/-- What a rule sees of a name depends on the file of the name. -/
theorem Desc.view_congr (h : fs' (d.file t) = fs (d.file t)) : d.view fs' t = d.view fs t := by
  unfold Desc.view FS.stat
  rw [h]

end

/-! ## The digests in the cache -/

section
variable {d : Desc} {E : Env} {scratch : Path → Prop} {C : Chronicle} {w w' : World}

theorem Cache.Honest.of_eq {c c' : Cache} (h : c.Honest scratch C) (hc : c'.srchash = c.srchash) :
    c'.Honest scratch C := by
  unfold Cache.Honest
  rw [hc]
  exact h

/-- The digest of a file as it is now. -/
theorem Cache.Honest.record {c c' : Cache} {fs : FS} {file : Path} {mtime : Int} {content : String}
    (hl : fs.Logged scratch C) (h : c.Honest scratch C) (hstat : fs.stat file = some (mtime, content))
    (hc : c'.srchash = c.srchash.insert file (mtime, C.md5 content)) : c'.Honest scratch C := by
  intro p hp mtime' digest hlookup
  rw [hc] at hlookup
  by_cases he : p = file
  · subst he
    rw [AList.lookup_insert] at hlookup
    obtain ⟨rfl, rfl⟩ := Prod.mk.inj (Option.some.inj hlookup)
    rw [hl p hp _ _ hstat]
  · rw [AList.lookup_insert_ne he] at hlookup
    exact h p hp mtime' digest hlookup

variable (hmd5 : E.md5 = C.md5)
include hmd5

theorem getFileHash_honest (file : Path) (b : Bool) (hl : w.fs.Logged scratch C)
    (h : w.cache.Honest scratch C) :
    wp (getFileHash d E file b) (fun _ w' => w'.fs = w.fs ∧ w'.cache.Honest scratch C)
      (fun _ _ => True) w := by
  unfold getFileHash
  rw [wp_bind, wp_get, hmd5]
  cases hstat : w.fs.stat file with
  | none => trivial
  | some x =>
    obtain ⟨mtime, content⟩ := x
    dsimp only
    rw [wp_ite]
    refine ⟨fun _ => ⟨rfl, h⟩, fun _ => ?_⟩
    split
    · rw [wp_ite]
      exact ⟨fun _ => ⟨rfl, h⟩, fun _ => ⟨rfl, h.record hl hstat rfl⟩⟩
    · exact ⟨rfl, h.record hl hstat rfl⟩

theorem calcFileHash_honest (t : Name) (hl : w.fs.Logged scratch C) (h : w.cache.Honest scratch C) :
    wp (calcFileHash d E t) (fun _ w' => w'.fs = w.fs ∧ w'.cache.Honest scratch C)
      (fun _ _ => True) w := by
  unfold calcFileHash
  cases d.ruleFor t with
  | none => exact getFileHash_honest hmd5 t false hl h
  | some r =>
    dsimp only
    rw [wp_bind, wp_get]
    cases w.fs (d.fileBuild (d.mapAlias t)) with
    | none =>
      dsimp only
      rw [wp_ite]
      exact ⟨fun _ => ⟨rfl, h⟩, fun _ => trivial⟩
    | some node =>
      cases node with
      | link => exact ⟨rfl, h⟩
      | file =>
        dsimp only
        rw [wp_ite]
        exact ⟨fun _ => getFileHash_honest hmd5 _ true hl h, fun _ => ⟨rfl, h⟩⟩

theorem calcDeplistHash_honest (l : List Name) (hl : w.fs.Logged scratch C)
    (h : w.cache.Honest scratch C) :
    wp (calcDeplistHash d E l) (fun _ w' => w'.fs = w.fs ∧ w'.cache.Honest scratch C)
      (fun _ _ => True) w := by
  unfold calcDeplistHash
  generalize lsort l = l
  induction l generalizing w with
  | nil => exact ⟨rfl, h⟩
  | cons t l ih =>
    unfold calcHashes
    rw [wp_bind]
    refine (calcFileHash_honest hmd5 t hl h).imp ?_ fun _ _ h => h
    rintro s w₁ ⟨hfs₁, h₁⟩
    rw [wp_bind]
    refine (ih (hfs₁ ▸ hl) h₁).imp ?_ fun _ _ h => h
    rintro rest w₂ ⟨hfs₂, h₂⟩
    exact ⟨hfs₂.trans hfs₁, h₂⟩

theorem checkHash_honest (r : Rule) (depends : List Name) (st : Status) (hl : w.fs.Logged scratch C)
    (h : w.cache.Honest scratch C) :
    wp (checkHash d E r depends st) (fun _ w' => w'.cache.Honest scratch C) (fun _ _ => True) w := by
  have hhash := calcDeplistHash_honest (d := d) hmd5 depends hl h
  unfold checkHash
  rw [wp_ite]
  refine ⟨fun _ => ?_, fun _ => ?_⟩
  · rw [wp_bind]
    unfold needbuild
    rw [wp_bind, wp_get, wp_bind]
    refine hhash.imp (fun l w₁ h₁ => ?_) fun _ _ h => h
    rw [wp_ite]
    exact ⟨fun _ => h₁.2, fun _ => h₁.2.of_eq rfl⟩
  · rw [wp_ite]
    refine ⟨fun _ => ?_, fun _ => h⟩
    rw [wp_bind]
    exact hhash.imp (fun l w₁ h₁ => h₁.2.of_eq rfl) fun _ _ h => h

/-- **The checks of a rule record what the files are.** -/
theorem checkRule_honest (r : Rule) (t : Name) (vardict : List (String × String)) (dyn : List Name)
    (st : Status) (hl : w.fs.Logged scratch C) (h : w.cache.Honest scratch C) :
    wp (checkRule d E r t vardict dyn st) (fun _ w' => w'.cache.Honest scratch C)
      (fun _ _ => True) w := by
  have hstop : wp (stopIf d.quickstop .quickstop) (fun _ w' => w' = w) (fun _ _ => True) w := by
    unfold stopIf
    rw [wp_bind, wp_get, wp_ite]
    exact ⟨fun _ => trivial, fun _ => rfl⟩
  have hcommands : ∀ st w, wp (checkCommands d r vardict st) (fun _ w' => w' = w)
      (fun _ _ => True) w := by
    intro st w
    unfold checkCommands
    rw [wp_ite]
    refine ⟨fun _ => ?_, fun _ => rfl⟩
    rw [wp_bind, wp_get]
    split
    · rfl
    · rw [wp_bind]
      unfold substDoOrExit
      split
      · rfl
      · trivial
  unfold checkRule
  rw [wp_bind, wp_get, wp_bind]
  refine hstop.imp ?_ fun _ _ h => h
  rintro - w₀ hw₀
  rw [hw₀, wp_bind]
  refine (checkHash_honest hmd5 r _ _ hl h).imp (fun st₁ w₁ h₁ => ?_) fun _ _ h => h
  rw [wp_bind, wp_get, wp_bind]
  refine (hcommands _ w₁).imp ?_ fun _ _ h => h
  rintro st₂ w₂ rfl
  exact h₁

end

/-! ## Nothing else records a digest -/

/-- The digests in the cache have not changed. -/
def SameDigests (w w' : World) : Prop := w'.cache.srchash = w.cache.srchash

section
variable {d : Desc} {E : Env}

instance : IsPreorder World SameDigests where
  refl _ := rfl
  trans _ _ _ h h' := Eq.trans h' h

theorem SameDigests.of_tick {w w' : World} {n : Nat} (h : SameDigests { w with tick := n } w') :
    w'.cache.srchash = w.cache.srchash := h

theorem SameDigests.modify {f : World → World}
    (h : ∀ w, (f w).cache.srchash = w.cache.srchash) : Under SameDigests (modify f : M Unit) :=
  Within.modify fun w => h w

theorem SameDigests.modifyCache {f : Cache → Cache} (h : ∀ c, (f c).srchash = c.srchash) :
    Under SameDigests (modifyCache f) :=
  Within.modify fun w => h w.cache

theorem SameDigests.elementary : Elementary d SameDigests where
  ask _ := Within.modifyGet fun _ => rfl
  stopped := Within.modify fun _ => rfl
  error := Within.modify fun _ => rfl

theorem SameDigests.runDo (r : RuleTarget) (part : Part) : Under SameDigests (runDo E r part) :=
  Within.bind Within.get fun _ => Within.bind (Within.modifyGet fun _ => rfl) fun _ =>
    Within.bind (modify fun _ => rfl) fun _ => Within.pure _

theorem SameDigests.recordTargets (r : Rule) (rt : RuleTarget) (list : List Name) (rc : Nat) :
    Under SameDigests (recordTargets d r rt list rc) := by
  induction list generalizing rc with
  | nil => exact Within.pure _
  | cons f list ih =>
    refine Within.bind Within.get fun w => Within.ite
      (fun _ => Within.bind elementary.error fun _ => ih 3) fun _ => ?_
    refine Within.bind (modifyCache fun c => ?_) fun _ => ih rc
    split <;> rfl

theorem SameDigests.recordBuilt (info : PreInfo) (rt : RuleTarget) (rc : Nat) :
    Under SameDigests (recordBuilt d info rt rc) :=
  Within.bind Within.get fun _ => Within.ite
    (fun _ => Within.bind (recordTargets _ _ _ _) fun _ => Within.bind (elementary.substDo _ _)
      fun _ => Within.bind (modifyCache fun _ => rfl) fun _ => Within.pure _)
    fun _ => Within.pure _

theorem SameDigests.recordFailure (rt : RuleTarget) (rc : Nat) :
    Under SameDigests (recordFailure d E rt rc) :=
  Within.bind (modify fun _ => rfl) fun _ => Within.bind (elementary (d := d).osCheck E) fun _ =>
    Within.bind (modify fun _ => rfl) fun _ => Within.bind (modifyCache fun _ => rfl) fun _ =>
      Within.bind (runDo rt _) fun _ => Within.bind (elementary.errorIf _) fun _ =>
        Within.pure _

theorem SameDigests.targetPostBuild (rt : RuleTarget) (rc : Nat) :
    Under SameDigests (targetPostBuild d E rt rc) := by
  refine Within.bind Within.get fun w => ?_
  split
  · exact elementary (d := d).tclError
  · next info _ =>
    have hnote : Under SameDigests (noteSuccess rt rc) :=
      Within.ite (fun _ => modify fun _ => rfl) fun _ => Within.pure _
    have hjudge : ∀ rc, Under SameDigests (judgeTargets d E info.rule rt rc) := fun rc =>
      Within.ite (fun _ => Within.bind (modify fun _ => rfl) fun _ => Within.pure _)
        fun _ => recordFailure rt rc
    have hfinally : ∀ st, Under SameDigests (runFinally d E rt st) := fun st =>
      Within.bind (runDo rt _) fun _ => Within.ite
        (fun _ => Within.bind elementary.error fun _ => Within.pure _) fun _ => Within.pure _
    exact Within.bind hnote fun _ => Within.bind (recordBuilt info rt rc) fun _ =>
      Within.bind (hjudge _) fun _ => Within.bind (hfinally _) fun _ =>
        Within.bind (modify fun _ => rfl) fun _ => modify fun _ => rfl

theorem SameDigests.endForeground (r : Rule) (rc : Nat) :
    Under SameDigests (endForeground d E r rc) :=
  Within.bind (elementary (d := d).signal E) fun _ =>
    Within.bind (targetPostBuild r.target rc) fun _ => Within.pure _

theorem SameDigests.waitForOneJob : Under SameDigests (waitForOneJob d E) := by
  have hreap : ∀ i job, Under SameDigests (reapJob d i job) := fun i job =>
    Within.bind (modify fun _ => rfl) fun _ => Within.bind (modify fun _ => rfl) fun _ =>
      elementary.errorIf _
  have hnotify : ∀ job, Under SameDigests (notifyJob d job) := fun job =>
    Within.ite (fun _ => modify fun _ => rfl) fun _ => Within.bind (modify fun _ => rfl) fun _ =>
      Within.bind (modify fun _ => rfl) fun _ => Within.ite
        (fun _ => Within.bind Within.get fun _ => elementary (d := d).exit _ _) fun _ => Within.pure _
  refine Within.bind Within.get fun w => ?_
  split
  · exact Within.pure _
  · exact Within.bind (elementary (d := d).ask _) fun i => Within.bind (hreap _ _) fun _ =>
      Within.bind (targetPostBuild _ _) fun _ => Within.bind (hnotify _) fun _ => Within.pure _

theorem SameDigests.recordCmds (r : RuleTarget) (cmds : List String) :
    Under SameDigests (recordCmds d E r cmds) := by
  refine modifyCache fun c => ?_
  dsimp only
  split <;> rfl

theorem SameDigests.applyResult (r : RuleTarget) (res : ScriptResult) :
    Under SameDigests (applyResult d E r res) :=
  Within.bind (recordCmds r res.cmds) fun _ => Within.bind (modify fun _ => rfl) fun _ =>
    Within.bind (elementary.errorIf _) fun _ => modify fun _ => rfl

theorem SameDigests.prepareRule (r : Rule) : Under SameDigests (prepareRule d E r) := by
  have hroot : Under SameDigests (refuseRoot d r) :=
    Within.ite (fun _ => elementary.fatal _) fun _ => Within.pure _
  have hmsg : Under SameDigests (runMsg E r.target) :=
    Within.bind (modify fun _ => rfl) fun _ => runDo _ _
  refine Within.bind hroot fun _ => Within.bind (modifyCache fun c => ?_) fun _ =>
    Within.bind hmsg fun _ => elementary.errorIf _
  split <;> rfl

theorem SameDigests.beginRule (r : Rule) (t : Name) (vardict : List (String × String))
    (dyn : List Name) : Under SameDigests (beginRule d E r t vardict dyn) :=
  Within.bind (elementary (d := d).osCheck E) fun _ => Within.bind (modify fun _ => rfl) fun _ =>
    modify fun _ => rfl

theorem SameDigests.buildSource (t : Name) : Under SameDigests (buildSource t) := by
  refine Within.bind Within.get fun w => ?_
  split
  · exact Within.pure _
  · exact Within.bind (modify fun _ => rfl) fun _ => Within.pure _

/-- Only the checks of a rule record digests. -/
theorem Move.honest {scratch : Path → Prop} {C : Chronicle} {p p' : Point} {w w' : World}
    (hn : d.norun = 0) (hmd5 : E.md5 = C.md5) (hl : w.fs.Logged scratch C)
    (h : w.cache.Honest scratch C) (hm : Move d E p w p' w') : w'.cache.Honest scratch C := by
  have hsame : ∀ {α : Type} {m : M α} {a : α} {w₁ : World}, Under SameDigests m → m w = .ok a w₁ →
      w₁.cache.Honest scratch C := fun hu hm => h.of_eq (hu.ok hm)
  have hchecked : ∀ {r : Rule} {t : Name} {vardict : List (String × String)} {dyn : List Name}
      {st st' : Status} {w₁ : World}, checkRule d E r t vardict dyn st w = .ok st' w₁ →
      w₁.cache.Honest scratch C := by
    intro r t vardict dyn st st' w₁ hc
    have hhonest := wp_of_ok hc (checkRule_honest (d := d) hmd5 r t vardict dyn st hl h)
    exact hhonest
  cases hm with
  | glance hg =>
    cases hg with
    | source _ hs => exact hsame (SameDigests.buildSource _) hs
    | depRet _ hfailed => exact hsame (SameDigests.elementary.depFailed E _) hfailed
    | lookRet _ hl => exact hsame (SameDigests.elementary.lookupFile (Within.pure _)) hl
    | idle | settled | enter | dep | static | dynamic | scanned | noscan | input | peek | look |
      answer | synced => exact h
  | wait _ hw | slot _ _ hw => exact hsame SameDigests.waitForOneJob hw
  | launch _ hc _ => exact hchecked hc
  | skip _ hc _ => exact (hchecked hc).of_eq rfl
  | dry _ hdry => exact absurd hn hdry
  | begin _ _ h₁ h₂ =>
    exact (hsame (SameDigests.prepareRule _) h₁).of_eq ((SameDigests.beginRule _ _ _ _).ok h₂)
  | finished => exact h
  | script _ _ _ happly => exact h.of_eq (SameDigests.of_tick ((SameDigests.applyResult _ _).ok happly))
  | forks _ _ _ hrec => exact h.of_eq (SameDigests.of_tick ((SameDigests.recordCmds _ _).ok hrec))
  | @fork f k _ dyn notify n i todo w₁ hphase hfree hadd hgo =>
    have hw : Under SameDigests (addNewJob E f.rule notify i todo) :=
      Within.bind (SameDigests.modify fun _ => rfl) fun _ => SameDigests.modify fun _ => rfl
    exact (hsame hw hadd).of_eq rfl
  | ended _ hend _ => exact (hsame (SameDigests.endForeground _ _) hend).of_eq rfl

end

end Tmake
