import TmakeProof.DirPaths
import TmakeProof.LoadMoves

/-! # Which spec files are read

`process-build-spec-file` takes the directories that were set with `SubDirs` so
far, wherever that was, and adds those that `AutoSubDirs` finds below the
directory at hand.  A directory that is in both lists should come once, but a name
in the directory is compared with paths from the top: this does what it should
exactly if the two are the same.

The account of a run (`Ledger`): each directory that was taken or found is still
to be read, or was read once.  It is kept by every step of the traversal, unless a
directory breaks off the loop of the one above.
-/
namespace Tmake.Loading
open ReturnCodes Weakest

/-! ## What the trace tells -/

/-- The directory whose `build.spec` is read. -/
def Event.read : Event → List Path
  | invoked (.spec dir _) => [dir]
  | _ => []

/-- The directories that `SubDirs` names. -/
def Event.named : Event → List Path
  | listed dirs => dirs
  | _ => []

/-- The directory whose subdirectories come next. -/
def Event.entered : Event → List Path
  | subdirs dir _ _ => [dir]
  | _ => []

/-- The subdirectories that were set explicitly. -/
def Event.taken : Event → List Path
  | subdirs _ explicit _ => explicit
  | _ => []

/-- The subdirectories that are added to these. -/
def Event.found (P : Sources) : Event → List Path
  | subdirs dir explicit true => (autoDirs P dir (P.readdir dir) explicit).drop explicit.length
  | _ => []

/-- A directory that ends like this can end the loop of the directory above. -/
def Event.Cuts : Event → Prop
  | ended (.spec _ _) rc => rc = some .brk
  | ended (.hook _ _) rc => rc ≠ none
  | _ => False

/-- What happens outside of the traversal. -/
def Event.Aside : Event → Prop
  | invoked (.spec _ _) | subdirs _ _ _ => False
  | _ => True

/-- All that happened of a kind, newest first. -/
def Load.all (f : Event → List Path) (s : Load) : List Path := s.trace.flatMap f

/-- The same by the names of the directories. -/
def Load.places (f : Event → List Path) (s : Load) : List (List Name) := (s.all f).map dirNames

/-- Something can have ended a loop. -/
def Load.Cut (s : Load) : Prop := ∃ e ∈ s.trace, e.Cuts

section
variable {f : Event → List Path} {e : Event} {s : Load}

@[simp] theorem all_note : (s.note e).all f = f e ++ s.all f := rfl

@[simp] theorem places_note : (s.note e).places f = (f e).map dirNames ++ s.places f := by
  unfold Load.places
  rw [all_note, List.map_append]

theorem Event.Inner.aside (h : e.Inner) : e.Aside := by
  cases e with
  | invoked p =>
    cases p with
    | spec => exact h.elim
    | _ => trivial
  | subdirs => exact h.elim
  | _ => trivial

theorem Event.Aside.nothing (P : Sources) (h : e.Aside) :
    e.read = [] ∧ e.entered = [] ∧ e.taken = [] ∧ e.found P = [] := by
  cases e with
  | invoked p =>
    cases p with
    | spec => exact h.elim
    | _ => exact ⟨rfl, rfl, rfl, rfl⟩
  | subdirs => exact h.elim
  | _ => exact ⟨rfl, rfl, rfl, rfl⟩

end

variable {P : Sources} {A : Event → Prop} {s t : Load}

theorem Load.Cut.note {e : Event} (h : s.Cut) : (s.note e).Cut := by
  obtain ⟨x, hx, hcuts⟩ := h
  exact ⟨x, List.mem_cons_of_mem _ hx, hcuts⟩

theorem Load.Cut.move (hm : Move P A s t) (h : s.Cut) : t.Cut := by
  cases hm with
  | vars | target | settings => exact h
  | subDirs | takeSubdirs | invoked | ended => exact h.note

theorem Load.Cut.moves (hm : Moves P A s t) (h : s.Cut) : t.Cut :=
  Moves.inv (fun _ _ => Load.Cut.move) hm h

/-! ## What is found -/

/-- A project tree: a directory has each of its entries once, and the same `build.spec` by
whichever path. -/
structure Sources.Tree (P : Sources) : Prop where
  plain : ∀ dir, ∀ d ∈ P.readdir dir, Plain d
  nodup : ∀ dir, (P.readdir dir).Nodup
  same : ∀ dir dir', Inside dir → Inside dir' → dirNames dir = dirNames dir' →
    P.buildSpec dir = P.buildSpec dir'

theorem autoDirs_extends (dir : Path) (ds : List Name) (explicit : List Path) :
    explicit <+: autoDirs P dir ds explicit := by
  induction ds generalizing explicit with
  | nil => exact List.prefix_refl _
  | cons d ds ih =>
    rw [autoDirs]
    split
    · exact (List.prefix_append _ _).trans (ih _)
    · exact ih _

/-- In a tree, a name is left out only if it is the path of a directory that was set. -/
theorem autoDirs_eq {dir : Path} (hdir : Inside dir) {ds : List Name} (hplain : ∀ d ∈ ds, Plain d)
    (hnodup : ds.Nodup) (explicit : List Path) :
    autoDirs P dir ds explicit = explicit ++
      (ds.filter fun d => (P.buildSpec (fileJoin dir d)).isSome && d ∉ explicit).map
        (fileJoin dir) := by
  induction ds generalizing explicit with
  | nil => simp [autoDirs]
  | cons d ds ih =>
    have hds : ∀ d ∈ ds, Plain d := fun x hx => hplain x (List.mem_cons_of_mem _ hx)
    obtain ⟨hd, hnodup⟩ := List.nodup_cons.mp hnodup
    rw [autoDirs]
    by_cases hnew : ((P.buildSpec (fileJoin dir d)).isSome && decide (d ∉ explicit)) = true
    · have hrest : ∀ x ∈ ds, x ≠ fileJoin dir d := by
        intro x hx heq
        have hnames := congrArg dirNames heq
        rw [dirNames_plain (hds x hx), dirNames_join hdir (hplain d List.mem_cons_self)] at hnames
        cases hdirs : dirNames dir with
        | nil =>
          rw [hdirs] at hnames
          exact absurd ((List.cons.inj hnames).1 ▸ hx) hd
        | cons a l => simp [hdirs] at hnames
      rw [if_pos hnew, ih hds hnodup, List.filter_cons_of_pos (by simpa using hnew)]
      have hfilter : (ds.filter fun x =>
            (P.buildSpec (fileJoin dir x)).isSome && decide (x ∉ explicit ++ [fileJoin dir d])) =
          ds.filter fun x => (P.buildSpec (fileJoin dir x)).isSome && decide (x ∉ explicit) := by
        refine List.filter_congr fun x hx => ?_
        simp [hrest x hx]
      rw [hfilter]
      simp
    · rw [if_neg hnew, ih hds hnodup, List.filter_cons_of_neg (by simpa using hnew)]

/-- The subdirectories that are processed next. -/
def subdirsOf (P : Sources) (dir : Path) (s : Load) : List Path :=
  if s.autosubdirs then autoDirs P dir (P.readdir dir) s.subdirs else s.subdirs

theorem autoDirs_mem {dir : Path} {ds : List Name} {explicit : List Path} {x : Path}
    (h : x ∈ autoDirs P dir ds explicit) : x ∈ explicit ∨ ∃ d ∈ ds, x = fileJoin dir d := by
  induction ds generalizing explicit with
  | nil => exact Or.inl h
  | cons d ds ih =>
    rw [autoDirs] at h
    split at h
    · rcases ih h with hx | ⟨d', hd', rfl⟩
      · rcases List.mem_append.mp hx with hx | hx
        · exact Or.inl hx
        · exact Or.inr ⟨d, List.mem_cons_self, List.mem_singleton.mp hx⟩
      · exact Or.inr ⟨d', List.mem_cons_of_mem _ hd', rfl⟩
    · rcases ih h with hx | ⟨d', hd', rfl⟩
      · exact Or.inl hx
      · exact Or.inr ⟨d', List.mem_cons_of_mem _ hd', rfl⟩

theorem subdirsOf_mem {dir x : Path} (h : x ∈ subdirsOf P dir s) :
    x ∈ s.subdirs ∨ ∃ d ∈ P.readdir dir, x = fileJoin dir d := by
  unfold subdirsOf at h
  split at h
  · exact autoDirs_mem h
  · exact Or.inl h

theorem subdirsOf_eq (dir : Path) (s : Load) :
    subdirsOf P dir s = s.subdirs ++ (Event.subdirs dir s.subdirs s.autosubdirs).found P := by
  unfold subdirsOf
  cases s.autosubdirs with
  | false => exact (List.append_nil _).symm
  | true => exact (List.prefix_iff_eq_append.mp (autoDirs_extends dir (P.readdir dir) s.subdirs)).symm

/-! ## The account of a run -/

/-- The top has its place without being listed. -/
def Load.due (P : Sources) (s : Load) (p : List Name) : Nat :=
  [[]].count p + (s.places Event.taken).count p + (s.places (Event.found P)).count p

/-- No directory is read or entered more often than it was taken or found.  The directories
`opened` are read but not entered, and those of `work` are still to be read. -/
structure Bounded (P : Sources) (opened work : List Path) (s : Load) : Prop where
  pending : ∀ dir, (s.all Event.named).count dir = (s.all Event.taken).count dir + s.subdirs.count dir
  inside : (∀ dir ∈ s.all Event.named, Inside dir) →
    ∀ dir ∈ opened ++ work ++ s.all Event.entered, Inside dir
  reads : ∀ p, (s.places Event.read).count p + (work.map dirNames).count p ≤ s.due P p
  enters : ∀ p, (s.places Event.entered).count p + ((opened ++ work).map dirNames).count p ≤ s.due P p

/-- The top, if it has a `build.spec`. -/
def topSpec (P : Sources) : List Path := if (P.buildSpec ".").isSome then ["."] else []

/-- Unless a loop was ended, what was taken or found is still to be read or was read. -/
def Exact (P : Sources) (work : List Path) (s : Load) : Prop :=
  ¬ s.Cut → ∀ p, (s.places Event.read).count p + (work.map dirNames).count p =
    ((topSpec P).map dirNames).count p + (s.places Event.taken).count p + (s.places (Event.found P)).count p

/-- Both. -/
structure Ledger (P : Sources) (opened work : List Path) (s : Load) : Prop extends
    Bounded P opened work s where
  exact : Exact P work s

section
variable {opened work : List Path} {dir : Path}

theorem Bounded.drop (left : List Path) (h : Bounded P opened (left ++ work) s) : Bounded P [] work s where
  pending := h.pending
  inside hnamed x hx := by
    apply h.inside hnamed
    simp only [List.mem_append, List.nil_append] at hx ⊢
    exact hx.elim (fun hx => Or.inl (Or.inr (Or.inr hx))) Or.inr
  reads p := by
    have hreads := h.reads p
    rw [List.map_append, List.count_append] at hreads
    omega
  enters p := by
    have henters := h.enters p
    simp only [List.map_append, List.count_append] at henters
    show (s.places Event.entered).count p + (work.map dirNames).count p ≤ s.due P p
    omega

/-- Once a loop was ended, the rest of the work may be left. -/
theorem Bounded.cut (left : List Path) (h : Bounded P opened (left ++ work) s) (hcut : s.Cut) :
    Ledger P [] work s where
  toBounded := h.drop left
  exact hnot := absurd hcut hnot

theorem Ledger.skip (h : Ledger P opened work s) : Ledger P [] work s where
  toBounded := Bounded.drop [] h.toBounded
  exact := h.exact

/-- One more event that is no part of the traversal. -/
theorem Ledger.aside {e : Event} (h : Ledger P opened work s) (he : e.Aside) (hn : e.named = []) :
    Ledger P opened work (s.note e) := by
  obtain ⟨hread, hentered, htaken, hfound⟩ := he.nothing P
  have hall : ∀ {f : Event → List Path}, f e = [] → (s.note e).all f = s.all f := by
    intro f hf
    rw [all_note, hf, List.nil_append]
  have hplaces : ∀ {f : Event → List Path}, f e = [] → (s.note e).places f = s.places f := by
    intro f hf
    unfold Load.places
    rw [hall hf]
  have hdue : (s.note e).due P = s.due P := by
    unfold Load.due
    rw [hplaces htaken, hplaces hfound]
  refine ⟨⟨?_, ?_, ?_, ?_⟩, ?_⟩
  · rw [hall hn, hall htaken]
    exact h.pending
  · rw [hall hn, hall hentered]
    exact h.inside
  · rw [hplaces hread, hdue]
    exact h.reads
  · rw [hplaces hentered, hdue]
    exact h.enters
  · intro hcut
    rw [hplaces hread, hplaces htaken, hplaces hfound]
    exact h.exact fun hs => hcut hs.note

theorem Ledger.move (hm : Move P Event.Aside s t) (h : Ledger P opened work s) :
    Ledger P opened work t := by
  cases hm with
  | vars | target | settings => exact ⟨⟨h.pending, h.inside, h.reads, h.enters⟩, h.exact⟩
  | @subDirs dirs hA hdirs =>
    refine ⟨⟨fun dir => ?_, fun hnamed => h.inside fun dir hdir => ?_, h.reads, h.enters⟩,
      fun hcut => h.exact fun hs => hcut hs.note⟩
    · have hpending := h.pending dir
      show (dirs ++ s.all Event.named).count dir = (s.all Event.taken).count dir + (s.subdirs ++ dirs).count dir
      rw [List.count_append, List.count_append]
      omega
    · exact hnamed dir (List.mem_append_right _ hdir)
  | takeSubdirs hA => exact hA.elim
  | @invoked p hA => exact h.aside hA rfl
  | @ended p rc hA => exact h.aside hA rfl

theorem Ledger.moves (hm : Moves P Event.Aside s t) (h : Ledger P opened work s) :
    Ledger P opened work t :=
  Moves.inv (fun _ _ => Ledger.move) hm h

/-- A directory is read. -/
theorem Ledger.read (top : Bool) (h : Ledger P [] (dir :: work) s) :
    Ledger P [dir] work (s.note (.invoked (.spec dir top))) where
  pending := h.pending
  inside := h.inside
  reads p := by
    have hreads := h.reads p
    show ((dirNames dir :: s.places Event.read).count p + _ ≤ s.due P p)
    rw [List.map_cons, List.count_cons] at hreads
    rw [List.count_cons]
    omega
  enters := h.enters
  exact hcut p := by
    have hexact := h.exact (fun hs => hcut hs.note) p
    show (dirNames dir :: s.places Event.read).count p + _ = _ + (s.places Event.taken).count p +
      (s.places (Event.found P)).count p
    rw [List.map_cons, List.count_cons] at hexact
    rw [List.count_cons]
    omega

/-- The subdirectories of a directory are taken. -/
theorem Ledger.enter (tree : P.Tree) (h : Ledger P [dir] work s) :
    Ledger P [] (subdirsOf P dir s ++ work)
      (({ s with subdirs := [] } : Load).note (.subdirs dir s.subdirs s.autosubdirs)) := by
  have hnext : ∀ p, ((subdirsOf P dir s).map dirNames).count p = (s.subdirs.map dirNames).count p +
      (((Event.subdirs dir s.subdirs s.autosubdirs).found P).map dirNames).count p := by
    intro p
    rw [subdirsOf_eq, List.map_append, List.count_append]
  have htaken : ∀ p, ((({ s with subdirs := [] } : Load).note
      (.subdirs dir s.subdirs s.autosubdirs)).places Event.taken).count p =
        (s.subdirs.map dirNames).count p + (s.places Event.taken).count p := by
    intro p
    rw [places_note, List.count_append]
    rfl
  have hfound : ∀ p, ((({ s with subdirs := [] } : Load).note
      (.subdirs dir s.subdirs s.autosubdirs)).places (Event.found P)).count p =
        (((Event.subdirs dir s.subdirs s.autosubdirs).found P).map dirNames).count p +
          (s.places (Event.found P)).count p := by
    intro p
    rw [places_note, List.count_append]
    rfl
  refine ⟨⟨fun x => ?_, fun hnamed x hx => ?_, fun p => ?_, fun p => ?_⟩, fun hcut p => ?_⟩
  · have hpending := h.pending x
    show (s.all Event.named).count x = (s.subdirs ++ s.all Event.taken).count x + 0
    rw [List.count_append]
    omega
  · have hinside := h.inside hnamed
    have hdir : Inside dir := hinside dir (by simp)
    rw [List.nil_append] at hx
    rcases List.mem_append.mp hx with hx | hx
    · rcases List.mem_append.mp hx with hx | hx
      · rcases subdirsOf_mem hx with hx | ⟨d, hd, rfl⟩
        · refine hnamed x (List.count_pos_iff.mp ?_)
          have hpending := h.pending x
          have hpos := List.count_pos_iff.mpr hx
          show 0 < (s.all Event.named).count x
          omega
        · exact hdir.join (tree.plain dir d hd)
      · exact hinside x (by simp [hx])
    · have hx' : x ∈ dir :: s.all Event.entered := hx
      rcases List.mem_cons.mp hx' with rfl | hx'
      · exact hdir
      · exact hinside x (by simp [hx'])
  · have hreads := h.reads p
    unfold Load.due at hreads ⊢
    rw [htaken, hfound, List.map_append, List.count_append, hnext]
    show (s.places Event.read).count p + _ ≤ _
    omega
  · have henters := h.enters p
    unfold Load.due at henters ⊢
    rw [htaken, hfound, List.nil_append, List.map_append, List.count_append, hnext]
    show (dirNames dir :: s.places Event.entered).count p + _ ≤ _
    have hdir : ([dir].map dirNames).count p = if dirNames dir == p then 1 else 0 :=
      List.count_singleton
    rw [List.map_append, List.count_append, hdir] at henters
    rw [List.count_cons]
    omega
  · have hexact := h.exact (fun hs => hcut hs.note) p
    rw [htaken, hfound, List.map_append, List.count_append, hnext]
    show (s.places Event.read).count p + _ = _
    omega

end

/-! ## The traversal -/

section
variable {opened work : List Path} {dir : Path} {n : Nat}

/-- How a directory may end that does not end normally: the loop of the directory above goes on,
or nothing more is said. -/
structure Stops (P : Sources) (work : List Path) (e : Exit) (s : Load) : Prop extends
    Bounded P [] work s where
  cut : e = .brk ∨ e = .ret → s.Cut
  cont : e = .cont → Exact P work s

theorem Bounded.stops {e : Exit} (h : Bounded P opened (opened ++ work) s) (hcut : s.Cut) :
    Stops P work e s where
  toBounded := h.drop
  cut _ := hcut
  cont _ hnot := absurd hcut hnot

/-- A hook that fails can have ended the loop. -/
theorem invokeHook_ledger (h : Hook) (top : Bool) (hs : Ledger P opened work s) :
    wp (invokeHook (P.hook n) h top) (fun _ t => Ledger P opened work t ∧ (s.Cut → t.Cut))
      (fun _ t => Ledger P opened work t ∧ t.Cut) s := by
  have hrun := hook_moves (P := P) (A := Event.Aside) (fun _ => Event.Inner.aside) n h s
  unfold wp invokeHook
  unfold wp at hrun
  cases hhook : P.hook n h s with
  | ok u t =>
    rw [hhook] at hrun
    exact ⟨(hs.moves hrun).aside trivial rfl, fun hcut => (hcut.moves hrun).note⟩
  | error e t =>
    rw [hhook] at hrun
    exact ⟨(hs.moves hrun.2).aside trivial rfl, _, List.mem_cons_self, Option.some_ne_none e⟩

/-- A directory is still to be read, if it has a `build.spec`. -/
def Ready (P : Sources) (dir : Path) (script : Option Code) (work : List Path) (s : Load) : Prop :=
  match script with
  | some _ => Ledger P [] (dir :: work) s
  | none => Ledger P [dir] work s

theorem invokeBuildSpec_ledger {top : Bool} {script : Option Code} (h : Ready P dir script work s) :
    wp (invokeBuildSpec P (P.hook n) dir top script)
      (fun rc t => Ledger P [dir] work t ∧ (rc = some .brk → t.Cut) ∧
        ∀ status, rc ≠ some (.quit status))
      (fun e t => Bounded P [] work t ∧ ∃ status, e = .quit status) s := by
  cases script with
  | none => exact ⟨h, nofun, nofun⟩
  | some code =>
    have hread : Ledger P [dir] work (s.note (.invoked (.spec dir top))) := Ledger.read top h
    have hcode : MovesOnly P Event.Aside (proc (code.run P (P.hook n))) :=
      Within.proc (code_moves (fun _ => Event.Inner.aside) code)
    simp only [invokeBuildSpec, invokeSpecFile, runDo, wp_bind, wp_modify, wp_get, wp_set]
    refine ((Within.caught hcode _).and (caught_quit _ _)).imp (fun rc t ht => ?_) fun e t ht => ?_
    · have ht' : Ledger P [dir] work t := (hread.move (.vars _ _ _ _)).moves ht.1
      refine ⟨(ht'.move (.vars t.vars _ t.globals _)).aside trivial rfl, fun hrc => ?_, ht.2⟩
      exact ⟨_, List.mem_cons_self, hrc⟩
    · have ht' : Ledger P [dir] work t := (hread.move (.vars _ _ _ _)).moves ht.1.2
      exact ⟨ht'.skip.toBounded, ht.2⟩

theorem invokeHook_ready {script : Option Code} (h : Hook) (top : Bool)
    (hs : Ready P dir script work s) :
    wp (invokeHook (P.hook n) h top) (fun _ => Ready P dir script work)
      (fun e => Stops P work e) s := by
  cases script with
  | some code =>
    refine (invokeHook_ledger h top hs).imp (fun _ t ht => ht.1) fun e t ht => ?_
    exact (Bounded.cut [dir] ht.1.toBounded ht.2).toBounded.stops ht.2
  | none =>
    refine (invokeHook_ledger h top hs).imp (fun _ t ht => ht.1) fun e t ht => ?_
    exact ht.1.skip.toBounded.stops ht.2

theorem Ready.move {script : Option Code} (hm : Move P Event.Aside s t)
    (h : Ready P dir script work s) : Ready P dir script work t := by
  cases script with
  | some code => exact Ledger.move hm h
  | none => exact Ledger.move hm h

/-- A directory is read, but not its subdirectories. -/
theorem runBuildSpec_ledger {top : Bool} {script : Option Code} (h : Ready P dir script work s) :
    wp (runBuildSpec P (P.hook n) dir top script)
      (fun rc t => Ledger P [dir] work t ∧ (rc = some .brk → t.Cut))
      (fun e => Stops P work e) s := by
  unfold runBuildSpec
  rw [wp_inScope, wp_bind]
  have henter : Ready P dir script work (s.enter dir) := h.move (.vars _ _ _ _)
  refine (invokeHook_ready .prolog top henter).imp (fun _ t ht => ?_) fun e t ht => ht
  rw [wp_bind]
  refine (invokeBuildSpec_ledger ht).imp (fun rc u hu => ?_) fun e u hu => ?_
  · obtain ⟨hledger, hbrk, -⟩ := hu
    rw [wp_bind]
    refine (invokeHook_ledger .epilog top hledger).imp (fun _ v hv => ?_) fun e v hv => ?_
    · exact ⟨hv.1.moves (Moves.leave dir s v), fun hrc => hv.2 (hbrk hrc)⟩
    · exact hv.1.skip.toBounded.stops hv.2
  · obtain ⟨hu, status, rfl⟩ := hu
    exact ⟨hu, nofun, nofun⟩

theorem checkReturn_ledger {rc : Option Exit} (hs : Ledger P [dir] work s)
    (hbrk : rc = some .brk → s.Cut) :
    wp (checkReturn rc) (fun _ => Ledger P [dir] work) (fun e => Stops P work e) s := by
  unfold checkReturn
  split
  · exact hs
  · exact hs
  · exact hs
  · rename_i e hret _
    refine ⟨hs.skip.toBounded, ?_, fun _ => hs.exact⟩
    rintro (rfl | rfl)
    · exact hbrk rfl
    · exact absurd rfl hret

/-- A directory is processed, by induction on how deep the calls nest. -/
theorem processBuildSpecFile_ledger (tree : P.Tree) (k : Nat) (top : Bool)
    (hs : Ready P dir (P.buildSpec dir) work s) (htop : P.buildSpec dir = none → top = true) :
    wp (processBuildSpecFile P (P.hook n) k dir top) (fun _ => Ledger P [] work)
      (fun e => Stops P work e) s := by
  induction k generalizing dir top s work with
  | zero =>
    have hb : Bounded P [] work s := by
      cases hscript : P.buildSpec dir with
      | some code =>
        rw [hscript] at hs
        exact Bounded.drop [dir] hs.toBounded
      | none =>
        rw [hscript] at hs
        exact hs.skip.toBounded
    exact ⟨hb, nofun, nofun⟩
  | succ k ih =>
    rw [processBuildSpecFile, wp_ite]
    constructor
    · intro hmissing
      cases hscript : P.buildSpec dir with
      | some code => simp [hscript] at hmissing
      | none => simp [hscript, htop hscript] at hmissing
    · intro _
      rw [wp_bind]
      refine (runBuildSpec_ledger hs).imp (fun rc t ht => ?_) fun e t ht => ht
      obtain ⟨ht, hbrk⟩ := ht
      rw [wp_ite]
      refine ⟨fun _ => ht.skip, fun _ => ?_⟩
      rw [wp_bind]
      refine (checkReturn_ledger ht hbrk).imp (fun _ u hu => ?_) fun e u hu => hu
      rw [wp_bind]
      have henter := hu.enter tree
      refine wp_foreach (I := fun ds v => Ledger P [] (ds ++ work) v) (fun v hv => hv)
        (fun d ds v hv => ?_) _ henter
      cases hspec : P.buildSpec d with
      | none =>
        -- a directory without a `build.spec` ends tmake
        have hstop : ∀ e : Exit, (∃ status, e = .quit status) ∨ e = .error → Stops P work e v := by
          intro e he
          have hb : Bounded P [] work v := Bounded.drop (d :: ds) hv.toBounded
          refine ⟨hb, ?_, ?_⟩
          · rintro (rfl | rfl) <;> rcases he with ⟨_, he⟩ | he <;> cases he
          · rintro rfl
            rcases he with ⟨_, he⟩ | he <;> cases he
        cases k with
        | zero => exact hstop .error (Or.inr rfl)
        | succ k =>
          rw [processBuildSpecFile, wp_ite]
          refine ⟨fun _ => hstop (.quit 1) (Or.inl ⟨1, rfl⟩), fun hnot => ?_⟩
          simp [hspec] at hnot
      | some code =>
        have hready : Ready P d (P.buildSpec d) (ds ++ work) v := by
          rw [hspec]
          exact hv
        refine (ih false hready fun hnone => ?_).imp (fun _ w hw => hw) fun e w hw => ?_
        · rw [hspec] at hnone
          cases hnone
        · have hstop : e ≠ .cont → Stops P work e w := fun hcont =>
            ⟨Bounded.drop ds hw.toBounded, hw.cut, fun he => absurd he hcont⟩
          cases e with
          | cont => exact ⟨hw.toBounded, hw.cont rfl⟩
          | brk => exact Bounded.cut ds hw.toBounded (hw.cut (Or.inl rfl))
          | _ => exact hstop nofun

/-! ## The loading phase -/

/-- The traversal has not begun. -/
structure Fresh (P : Sources) (s : Load) : Prop where
  ready : Ready P "." (P.buildSpec ".") [] s
  noReads : s.all Event.read = []
  noEnters : s.all Event.entered = []

/-- The traversal is over, or it was left out. -/
def Over (P : Sources) (s : Load) : Prop := Ledger P [] [] s ∨ Fresh P s

theorem Ready.bounded {script : Option Code} (h : Ready P dir script work s) :
    Bounded P [] work s := by
  cases script with
  | some code => exact Bounded.drop [dir] (Ledger.toBounded h)
  | none => exact (Ledger.skip h).toBounded

theorem Over.bounded (h : Over P s) : Bounded P [] [] s :=
  h.elim (fun h => h.toBounded) fun h => h.ready.bounded

theorem Fresh.move (hm : Move P Event.Aside s t) (h : Fresh P s) : Fresh P t := by
  refine ⟨h.ready.move hm, ?_, ?_⟩
  · cases hm with
    | vars | target | settings | subDirs => exact h.noReads
    | takeSubdirs hA => exact hA.elim
    | @invoked p hA =>
      rw [all_note, (hA.nothing P).1]
      exact h.noReads
    | ended => exact h.noReads
  · cases hm with
    | vars | target | settings | subDirs | invoked | ended => exact h.noEnters
    | takeSubdirs hA => exact hA.elim

theorem Fresh.moves (hm : Moves P Event.Aside s t) (h : Fresh P s) : Fresh P t :=
  Moves.inv (fun _ _ => Fresh.move) hm h

theorem fresh_start (P : Sources) : Fresh P P.start where
  ready := by
    have henters : ∀ p, (P.start.places Event.entered).count p + (["."].map dirNames).count p ≤
        P.start.due P p := by
      intro p
      rw [List.map_cons, dirNames_top]
      show 0 + [[]].count p ≤ [[]].count p + 0 + 0
      omega
    have hinside : ∀ x ∈ ["."], Inside x := fun x hx => List.mem_singleton.mp hx ▸ inside_top
    cases hspec : P.buildSpec "." with
    | some code =>
      refine ⟨⟨fun _ => rfl, fun _ => hinside, henters, henters⟩, fun _ p => ?_⟩
      rw [topSpec, hspec]
      exact Nat.zero_add _
    | none =>
      refine ⟨⟨fun _ => rfl, fun _ => hinside, fun p => Nat.zero_le _, henters⟩, fun _ p => ?_⟩
      rw [topSpec, hspec]
      rfl
  noReads := rfl
  noEnters := rfl

theorem leaveProc_eq_none {e : Exit} (h : e.leaveProc = none) : e = .ret := by
  cases e with
  | ret => rfl
  | _ => cases h

theorem loadBuildDescription_ledger (tree : P.Tree) (k : Nat) (hs : Fresh P s) :
    wp (loadBuildDescription P (P.hook n) k) (fun _ => Over P) (fun _ => Bounded P [] []) s := by
  have hcode : ∀ c : Code, MovesOnly P Event.Aside (c.run P (P.hook n)) :=
    code_moves fun _ => Event.Inner.aside
  have hearly : ∀ t, Moves P Event.Aside s t → Fresh P t := fun t ht => hs.moves ht
  unfold loadBuildDescription
  rw [wp_proc]
  -- a `return` leaves the procedure as if it were done
  refine wp.imp (E := fun e t => Bounded P [] [] t ∧ (e = .ret → Over P t)) (Q := fun _ => Over P)
    ?_ (fun _ _ h => h) fun e t ht => ?_
  · have hfresh : ∀ e t, Fresh P t → Bounded P [] [] t ∧ (e = Exit.ret → Over P t) :=
      fun e t ht => ⟨ht.ready.bounded, fun _ => Or.inr ht⟩
    rw [wp_bind]
    have hin : Moves P Event.Aside s (s.note (.invoked .project)) :=
      Moves.single (.invoked ⟨trivial, rfl⟩)
    refine (invokeSpecFile_moves (Within.proc (hcode P.projectSpec)) (fun _ => trivial) hin).imp
      (fun rc t ht => ?_) fun e t ht => hfresh e t (hearly t ht)
    rw [wp_bind]
    refine (checkReturnOrSkip_moves rc t).imp (fun _ u hu => ?_)
      fun e u hu => hfresh e u ((hearly t ht).moves hu.2)
    have hu : Fresh P u := (hearly t ht).moves hu
    rw [wp_bind, wp_get, wp_bind]
    refine wp.imp (Q := fun _ => Fresh P) (E := fun _ => Fresh P) ?_ (fun _ v hv => ?_) hfresh
    · refine wp_foreach (I := fun _ => Fresh P) (fun _ h => h) (fun action _ v hv => ?_) _ hu
      refine (atToplevel_moves (hcode action) (fun _ => trivial) v).imp
        (fun _ w hw => hv.moves hw) fun e w hw => ?_
      have hfresh : Fresh P w := hv.moves hw.2
      cases e <;> exact hfresh
    · rw [wp_bind]
      refine (processBuildSpecFile_ledger tree k true hv.ready fun _ => rfl).imp
        (fun _ w hw => ?_) fun e w hw => ?_
      · rw [wp_bind, wp_get, wp_ite]
        exact ⟨fun _ => ⟨hw.toBounded, nofun⟩, fun _ => Or.inl hw⟩
      · refine ⟨hw.toBounded, fun he => Or.inl ?_⟩
        exact Bounded.cut [] hw.toBounded (hw.cut (Or.inr he))
  · cases hleave : e.leaveProc with
    | none => exact ht.2 (leaveProc_eq_none hleave)
    | some e' => exact ht.1

/-- The run lemma. -/
theorem make_ledger (tree : P.Tree) (k : Nat) (hs : Fresh P s) :
    wp (make P (P.hook n) k) (fun _ => Over P) (fun _ => Bounded P [] []) s := by
  unfold make
  rw [wp_bind]
  have hin : Moves P Event.Aside s (s.note (.invoked .rulebase)) :=
    Moves.single (.invoked ⟨trivial, rfl⟩)
  refine (invokeSpecFile_moves (Within.proc (code_moves (fun _ => Event.Inner.aside) P.rulebase))
    (fun _ => trivial) hin).imp (fun rc t ht => ?_) fun e t ht => (hs.moves ht).ready.bounded
  rw [wp_bind]
  refine (checkReturn_moves rc t).imp (fun _ u hu => ?_)
    fun e u hu => ((hs.moves ht).moves hu.2).ready.bounded
  have hu : Fresh P u := (hs.moves ht).moves hu
  rw [wp_bind]
  refine (hook_moves (A := Event.Aside) (fun _ => Event.Inner.aside) n .init u).imp
    (fun _ v hv => ?_) fun e v hv => (hu.moves hv.2).ready.bounded
  exact loadBuildDescription_ledger tree k (hu.moves hv)

end

/-! ## Once and completely -/

/-- `AutoSubDirs` comes upon a directory with a `build.spec`. -/
structure Offers (P : Sources) (s : Load) (dir : Path) (explicit : List Path) (d : Name) :
    Prop where
  auto : Event.subdirs dir explicit true ∈ s.trace
  entry : d ∈ P.readdir dir
  spec : (P.buildSpec (fileJoin dir d)).isSome

/-- What is set explicitly is not the top, and not added to other directories, too. -/
structure Apart (P : Sources) (s : Load) : Prop where
  top : [] ∉ s.places Event.taken
  found : ∀ dir explicit d, Offers P s dir explicit d → d ∉ explicit →
    dirNames dir ++ [d] ∉ s.places Event.taken

/-- `AutoSubDirs` is on wherever it is looked at. -/
def Load.AutoOn (s : Load) : Prop :=
  ∀ dir explicit auto, Event.subdirs dir explicit auto ∈ s.trace → auto = true

/-- Every directory with a `build.spec` below a directory that was entered is read. -/
def Complete (P : Sources) (s : Load) : Prop :=
  ∀ dir ∈ s.all Event.entered, ∀ d ∈ P.readdir dir, (P.buildSpec (fileJoin dir d)).isSome →
    dirNames dir ++ [d] ∈ s.places Event.read

/-- A name in a directory is left out only if the directory that it names there is set. -/
structure Matched (P : Sources) (s : Load) : Prop extends Apart P s where
  named : s.AutoOn → ∀ dir explicit d, Offers P s dir explicit d → d ∈ explicit →
    dirNames dir ++ [d] ∈ s.places Event.taken

section
variable {p : List Name} {dir : Path} {explicit : List Path} {d : Name}

theorem mem_places {f : Event → List Path} :
    p ∈ s.places f ↔ ∃ e ∈ s.trace, ∃ x ∈ f e, dirNames x = p := by
  unfold Load.places Load.all
  simp only [List.mem_map, List.mem_flatMap]
  constructor
  · rintro ⟨x, ⟨e, he, hx⟩, rfl⟩
    exact ⟨e, he, x, hx, rfl⟩
  · rintro ⟨e, he, x, hx, rfl⟩
    exact ⟨x, ⟨e, he, hx⟩, rfl⟩

/-- What is found below a directory in a tree. -/
theorem found_eq (tree : P.Tree) (hdir : Inside dir) :
    ((Event.subdirs dir explicit true).found P).map dirNames =
      ((P.readdir dir).filter fun d =>
        (P.buildSpec (fileJoin dir d)).isSome && d ∉ explicit).map (dirNames dir ++ [·]) := by
  show ((autoDirs P dir (P.readdir dir) explicit).drop explicit.length).map dirNames = _
  rw [autoDirs_eq hdir (tree.plain dir) (tree.nodup dir), List.drop_left, List.map_map]
  refine List.map_congr_left fun d hd => ?_
  exact dirNames_join hdir (tree.plain dir d (List.mem_of_mem_filter hd))

theorem mem_found (tree : P.Tree) (hinside : ∀ dir ∈ s.all Event.entered, Inside dir) :
    p ∈ s.places (Event.found P) ↔
      ∃ dir explicit d, Offers P s dir explicit d ∧ d ∉ explicit ∧ dirNames dir ++ [d] = p := by
  rw [mem_places]
  constructor
  · rintro ⟨e, he, x, hx, rfl⟩
    cases e with
    | subdirs dir explicit auto =>
      cases auto with
      | false => cases hx
      | true =>
        have hdir : Inside dir := hinside dir (List.mem_flatMap.mpr ⟨_, he, List.mem_singleton_self _⟩)
        have hmem := List.mem_map_of_mem (f := dirNames) hx
        rw [found_eq tree hdir] at hmem
        obtain ⟨d, hd, hnames⟩ := List.mem_map.mp hmem
        obtain ⟨hentry, hnew⟩ := List.mem_filter.mp hd
        simp only [Bool.and_eq_true, decide_eq_true_eq] at hnew
        exact ⟨dir, explicit, d, ⟨he, hentry, hnew.1⟩, hnew.2, hnames⟩
    | _ => cases hx
  · rintro ⟨dir, explicit, d, hoffers, hnew, rfl⟩
    have hdir : Inside dir :=
      hinside dir (List.mem_flatMap.mpr ⟨_, hoffers.auto, List.mem_singleton_self _⟩)
    have hmem : dirNames dir ++ [d] ∈ ((Event.subdirs dir explicit true).found P).map dirNames := by
      rw [found_eq tree hdir]
      refine List.mem_map.mpr ⟨d, List.mem_filter.mpr ⟨hoffers.entry, ?_⟩, rfl⟩
      simp [hoffers.spec, hnew]
    obtain ⟨x, hx, hnames⟩ := List.mem_map.mp hmem
    exact ⟨_, hoffers.auto, x, hx, hnames⟩

/-- A directory is found at most as often as the one above is entered. -/
theorem count_found_le (tree : P.Tree) (q : List Name) (d : Name) (es : List Event)
    (hinside : ∀ dir ∈ es.flatMap Event.entered, Inside dir) :
    ((es.flatMap (Event.found P)).map dirNames).count (q ++ [d]) ≤
      ((es.flatMap Event.entered).map dirNames).count q := by
  induction es with
  | nil => exact Nat.le_refl _
  | cons e es ih =>
    have hrest := ih fun dir hdir => hinside dir (List.mem_append_right _ hdir)
    have hhead : ((e.found P).map dirNames).count (q ++ [d]) ≤ (e.entered.map dirNames).count q := by
      cases e with
      | subdirs dir explicit auto =>
        cases auto with
        | false => exact Nat.zero_le _
        | true =>
          rw [found_eq tree (hinside dir (List.mem_append_left _ List.mem_cons_self))]
          have hone : ([dir].map dirNames).count q = if dirNames dir == q then 1 else 0 :=
            List.count_singleton
          show _ ≤ ([dir].map dirNames).count q
          rw [hone]
          split
          · have hinj : Function.Injective (dirNames dir ++ [·]) := fun a b hab =>
              (List.append_singleton_inj.mp hab).2
            exact List.nodup_iff_count.mp (((tree.nodup dir).filter _).map hinj) _
          · rename_i hne
            refine Nat.le_of_eq (List.count_eq_zero.mpr fun hmem => ?_)
            obtain ⟨x, -, hx⟩ := List.mem_map.mp hmem
            exact hne (by simpa using (List.append_singleton_inj.mp hx).1)
      | _ => exact Nat.zero_le _
    simp only [List.flatMap_cons, List.map_append, List.count_append]
    omega

/-- Only what was named is taken. -/
theorem count_taken_le (hb : Bounded P [] [] s) (honce : (s.places Event.named).Nodup)
    (p : List Name) : (s.places Event.taken).count p ≤ 1 := by
  have hsub : (s.all Event.taken).Subperm (s.all Event.named) := by
    refine List.subperm_ext_iff.mpr fun x _ => ?_
    have hpending := hb.pending x
    omega
  obtain ⟨kept, hperm, hsub⟩ := hsub
  calc (s.places Event.taken).count p = (kept.map dirNames).count p :=
        ((hperm.map dirNames).count_eq p).symm
    _ ≤ (s.places Event.named).count p := (hsub.map dirNames).count_le p
    _ ≤ 1 := List.nodup_iff_count.mp honce p

/-- Where what is set is apart from what is found, every directory is due once at most, by
induction on its names. -/
theorem due_le_one (tree : P.Tree) (hb : Bounded P [] [] s)
    (hinside : ∀ dir ∈ s.all Event.named, Inside dir) (honce : (s.places Event.named).Nodup)
    (hapart : Apart P s) (p : List Name) : s.due P p ≤ 1 := by
  have hentered : ∀ dir ∈ s.all Event.entered, Inside dir := hb.inside hinside
  induction p using List.reverseRecOn with
  | nil =>
    have htaken := List.count_eq_zero.mpr hapart.top
    have hfound : (s.places (Event.found P)).count [] = 0 := by
      refine List.count_eq_zero.mpr fun hmem => ?_
      obtain ⟨dir, explicit, d, -, -, hnames⟩ := (mem_found tree hentered).mp hmem
      simp at hnames
    show 1 + _ + _ ≤ 1
    omega
  | append_singleton q d ih =>
    have htop : [[]].count (q ++ [d]) = 0 := List.count_eq_zero.mpr (by simp)
    have htaken := count_taken_le hb honce (q ++ [d])
    have hle : (s.places (Event.found P)).count (q ++ [d]) ≤ (s.places Event.entered).count q :=
      count_found_le tree q d s.trace hentered
    have henters : (s.places Event.entered).count q ≤ s.due P q := hb.enters q
    show [[]].count (q ++ [d]) + _ + _ ≤ 1
    by_cases hfound : q ++ [d] ∈ s.places (Event.found P)
    · obtain ⟨dir, explicit, d', hoffers, hnew, hnames⟩ := (mem_found tree hentered).mp hfound
      have hnot := List.count_eq_zero.mpr (hnames ▸ hapart.found dir explicit d' hoffers hnew)
      omega
    · have hnot := List.count_eq_zero.mpr hfound
      omega

/-- A directory that is entered once is entered with one list. -/
theorem explicit_unique {es : List Event} (h : ((es.flatMap Event.entered).map dirNames).Nodup)
    {dir dir' : Path} {explicit explicit' : List Path} {auto auto' : Bool}
    (he : Event.subdirs dir explicit auto ∈ es) (he' : Event.subdirs dir' explicit' auto' ∈ es)
    (hnames : dirNames dir = dirNames dir') : explicit = explicit' := by
  have hmem : ∀ {dir : Path} {explicit : List Path} {auto : Bool} {es : List Event},
      Event.subdirs dir explicit auto ∈ es →
        dirNames dir ∈ (es.flatMap Event.entered).map dirNames := fun h =>
    List.mem_map_of_mem (List.mem_flatMap.mpr ⟨_, h, List.mem_singleton_self _⟩)
  induction es with
  | nil => cases he
  | cons e es ih =>
    rw [List.flatMap_cons, List.map_append, List.nodup_append] at h
    obtain ⟨-, hrest, hdisj⟩ := h
    rcases List.mem_cons.mp he with heq | htail <;>
      rcases List.mem_cons.mp he' with heq' | htail'
    · cases heq.trans heq'.symm
      rfl
    · subst heq
      exact absurd hnames (hdisj _ (List.mem_singleton_self _) _ (hmem htail'))
    · subst heq'
      exact absurd hnames.symm (hdisj _ (List.mem_singleton_self _) _ (hmem htail))
    · exact ih hrest htail htail'

theorem named_specs (n : Nat) :
    ∀ dir ∈ (P.loaded n).all Event.named, (P.buildSpec dir).isSome = true := by
  have hinv : ∀ s t, Move P (fun _ => True) s t →
      (∀ dir ∈ s.all Event.named, (P.buildSpec dir).isSome = true) →
      ∀ dir ∈ t.all Event.named, (P.buildSpec dir).isSome = true := by
    intro s t hm hs
    cases hm with
    | vars | target | settings | takeSubdirs | invoked | ended => exact hs
    | subDirs hA hdirs =>
      intro dir hdir
      exact (List.mem_append.mp hdir).elim (hdirs dir) (hs dir)
  refine Moves.inv hinv ((make_moves (fun _ => trivial) n).final P.start) fun dir hdir => ?_
  cases hdir

theorem Fresh.no_subdirs (h : Fresh P s) {dir : Path} {explicit : List Path} {auto : Bool} :
    Event.subdirs dir explicit auto ∉ s.trace := by
  intro hmem
  have hentered : dir ∈ s.all Event.entered :=
    List.mem_flatMap.mpr ⟨_, hmem, List.mem_singleton_self _⟩
  rw [h.noEnters] at hentered
  cases hentered

/-- If nothing is entered, nothing is amiss. -/
theorem Fresh.matched (h : Fresh P s) : Matched P s where
  top hmem := by
    obtain ⟨e, he, x, hx, -⟩ := mem_places.mp hmem
    cases e with
    | subdirs => exact h.no_subdirs he
    | _ => cases hx
  found _ _ _ hoffers := absurd hoffers.auto h.no_subdirs
  named _ _ _ _ hoffers := absurd hoffers.auto h.no_subdirs

/-- Every directory that was taken or found is read, and no other one below the top. -/
theorem Ledger.count_read (h : Ledger P [] [] s) (hcut : ¬ s.Cut) {p : List Name} (hp : p ≠ []) :
    (s.places Event.read).count p =
      (s.places Event.taken).count p + (s.places (Event.found P)).count p := by
  have hexact := h.exact hcut p
  have htop : ((topSpec P).map dirNames).count p = 0 := by
    refine List.count_eq_zero.mpr fun hmem => ?_
    obtain ⟨dir, hdir, rfl⟩ := List.mem_map.mp hmem
    unfold topSpec at hdir
    split at hdir
    · exact hp (List.mem_singleton.mp hdir ▸ dirNames_top)
    · cases hdir
  rw [htop, List.map_nil, List.count_nil] at hexact
  omega

section
variable (tree : P.Tree) (h : Ledger P [] [] s) (hcut : ¬ s.Cut)
  (hinside : ∀ dir ∈ s.all Event.named, Inside dir)
include tree h hcut hinside

theorem Ledger.complete (hmatched : Matched P s) (hauto : s.AutoOn) : Complete P s := by
  intro dir hdir d hd hspec
  obtain ⟨e, he, hmem⟩ := List.mem_flatMap.mp hdir
  cases e with
  | subdirs dir' explicit auto =>
    obtain rfl := List.mem_singleton.mp hmem
    obtain rfl := hauto _ _ _ he
    have hoffers : Offers P s dir explicit d := ⟨he, hd, hspec⟩
    have hcount := h.count_read hcut (p := dirNames dir ++ [d]) (by simp)
    refine List.count_pos_iff.mp ?_
    by_cases hnew : d ∈ explicit
    · have htaken := List.count_pos_iff.mpr (hmatched.named hauto dir explicit d hoffers hnew)
      omega
    · have hfound := List.count_pos_iff.mpr
        ((mem_found tree (h.inside hinside)).mpr ⟨dir, explicit, d, hoffers, hnew, rfl⟩)
      omega
  | _ => cases hmem

theorem Ledger.matched (hspecs : ∀ dir ∈ s.all Event.named, (P.buildSpec dir).isSome = true)
    (honce : (s.places Event.read).Nodup) (hcomplete : s.AutoOn → Complete P s) : Matched P s := by
  have hentered : ∀ dir ∈ s.all Event.entered, Inside dir := h.inside hinside
  have hread : ∀ p, (s.places Event.read).count p ≤ 1 := List.nodup_iff_count.mp honce
  have htop : [] ∉ s.places Event.taken := by
    intro hmem
    have htaken := List.count_pos_iff.mpr hmem
    obtain ⟨dir, hdir, hnames⟩ := List.mem_map.mp hmem
    have hnamed : dir ∈ s.all Event.named := by
      have hpending := h.pending dir
      have hpos := List.count_pos_iff.mpr hdir
      exact List.count_pos_iff.mp (by omega)
    have hspec : (P.buildSpec ".").isSome = true := by
      rw [← tree.same dir "." (hinside dir hnamed) inside_top (hnames.trans dirNames_top.symm)]
      exact hspecs dir hnamed
    have hexact := h.exact hcut []
    rw [List.map_nil, List.count_nil] at hexact
    have hone : ((topSpec P).map dirNames).count [] = 1 := by
      rw [topSpec, if_pos hspec, List.map_cons, dirNames_top]
      rfl
    have hle := hread []
    omega
  have hapart : ∀ dir explicit d, Offers P s dir explicit d → d ∉ explicit →
      dirNames dir ++ [d] ∉ s.places Event.taken := by
    intro dir explicit d hoffers hnew htaken
    have hfound := List.count_pos_iff.mpr
      ((mem_found tree hentered).mpr ⟨dir, explicit, d, hoffers, hnew, rfl⟩)
    have hcount := h.count_read hcut (p := dirNames dir ++ [d]) (by simp)
    have hpos := List.count_pos_iff.mpr htaken
    have hle := hread (dirNames dir ++ [d])
    omega
  -- each directory is entered once, so that one list of directories was set for it
  have hone : (s.places Event.entered).Nodup := by
    refine List.nodup_iff_count.mpr fun q => ?_
    have henters : (s.places Event.entered).count q ≤ s.due P q := h.enters q
    unfold Load.due at henters
    by_cases hq : q = []
    · subst hq
      have htaken := List.count_eq_zero.mpr htop
      have hfound : (s.places (Event.found P)).count [] = 0 := by
        refine List.count_eq_zero.mpr fun hmem => ?_
        obtain ⟨dir, explicit, d, -, -, hnames⟩ := (mem_found tree hentered).mp hmem
        simp at hnames
      have hnil : [([] : List Name)].count [] = 1 := rfl
      omega
    · have hcount := h.count_read hcut hq
      have hnot : [([] : List Name)].count q = 0 := List.count_eq_zero.mpr (by simpa using hq)
      have hle := hread q
      omega
  refine ⟨⟨htop, hapart⟩, fun hauto dir explicit d hoffers hold => ?_⟩
  have hmem := hcomplete hauto dir
    (List.mem_flatMap.mpr ⟨_, hoffers.auto, List.mem_singleton_self _⟩) d hoffers.entry hoffers.spec
  have hcount := h.count_read hcut (p := dirNames dir ++ [d]) (by simp)
  have hpos := List.count_pos_iff.mpr hmem
  refine List.count_pos_iff.mp ?_
  by_cases hfound : dirNames dir ++ [d] ∈ s.places (Event.found P)
  · obtain ⟨dir', explicit', d', hoffers', hnew, hnames⟩ := (mem_found tree hentered).mp hfound
    obtain ⟨hsame, rfl⟩ := List.append_singleton_inj.mp hnames
    exact absurd (explicit_unique hone hoffers.auto hoffers'.auto hsame.symm ▸ hold) hnew
  · have hnot := List.count_eq_zero.mpr hfound
    omega

end

end

/-- A project with the directories `src` and `src/lib`, both with a `build.spec`, and a
`project.spec` that names some directories. -/
def srcTree (named : List Path) : Sources where
  env _ := ""
  elements value := [value]
  projectSpec := .subDirs named .done
  buildSpec dir := if dirNames dir = ["src"] ∨ dirNames dir = ["src", "lib"] then some .done else none
  readdir dir :=
    if dirNames dir = [] then ["src"] else if dirNames dir = ["src"] then ["lib"] else []

theorem srcTree_tree (named : List Path) : (srcTree named).Tree where
  plain dir d hd := by
    simp only [srcTree] at hd
    split at hd
    · exact List.mem_singleton.mp hd ▸ (by decide)
    · split at hd
      · exact List.mem_singleton.mp hd ▸ (by decide)
      · cases hd
  nodup dir := by
    simp only [srcTree]
    split
    · exact List.nodup_singleton _
    · split
      · exact List.nodup_singleton _
      · exact List.nodup_nil
  same dir dir' _ _ hnames := by
    simp only [srcTree]
    rw [hnames]

end Tmake.Loading
