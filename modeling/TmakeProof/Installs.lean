import TmakeProof.Defines
import TmakeProof.FileNormalize
import TmakeProof.Libraries

/-! # Installed files and the clean targets

What `InstallFile`, `Install`, `InstallSymlink` and `install-shared-lib` add to the
`cleanfiles` of the clean targets.  A file that is to be installed should be listed
for `uninstall` and for no other of them (`Separate`).  `sym-link` lists every link
that it makes for `clean` and `distclean`, and `InstallSymlink` uses it.
-/
namespace Tmake.Installs
open Libraries (fileBuild)

/-- The rules of a project, by their targets, and the files that the clean targets remove.
`destinations` are the targets that `install` depends on, besides `all`. -/
structure State where
  rules : List (List Name)
  cleanfiles : Name → List Path
  destinations : List Name

/-- The built-in targets. -/
def State.initial : State where
  rules := [["clean"], ["distclean"], ["uninstall"], ["all"], ["libs"], ["test"], ["install"]]
  cleanfiles := fun _ => []
  destinations := []

/-- `is-target?`. -/
def State.isTarget (s : State) (t : Name) : Bool := s.rules.any fun r => t ∈ r

/-- What a `target` command does to the rules: a rule is updated or made, and it is an error if
one of its targets belongs to another. -/
def State.updateRule (s : State) (targets : List Name) : Option State :=
  if targets ∈ s.rules then some s
  else if targets.any s.isTarget then none
  else some { s with rules := targets :: s.rules }

/-- Values of the project that the commands use. -/
structure Settings where
  build : Path
  destdir : String
  glob : String → List String

variable (E : Settings)

/-- `target-add-var`, as `add-src-clean` uses it; the clean targets of all directories exist. -/
def addSrcClean (type : Name) (filelist : List Path) (s : State) : State :=
  { s with cleanfiles := fun t => if t = type then s.cleanfiles t ++ filelist else s.cleanfiles t }

/-- `add-clean`. -/
def addClean (type : Name) (filelist : List Path) (s : State) : State :=
  addSrcClean type (filelist.map (fileBuild E.build)) s

/-- `target install -depends`. -/
def addDestinations (dests : List Name) (s : State) : State :=
  { s with destinations := s.destinations ++ dests }

/-- `sym-link` with `add-clean` for the clean targets of the directory. -/
def symLink (localPrefix : Path) (dest : Name) (s : State) : Option State :=
  (s.updateRule [dest]).map fun s =>
    addClean E (fileJoin localPrefix "distclean") [dest]
      (addClean E (fileJoin localPrefix "clean") [dest] s)

/-- `InstallFile`. -/
def installFile (dest : Path) (s : State) : Option State :=
  let destfile := E.destdir ++ dest
  if s.isTarget destfile then some s
  else (s.updateRule [destfile]).map fun s =>
    addClean E "uninstall" [destfile] (addDestinations [destfile] s)

/-- `InstallSymlink`. -/
def installSymlink (localPrefix : Path) (dest : Path) (s : State) : Option State :=
  let destfile := E.destdir ++ dest
  if s.isTarget destfile then some s
  else (symLink E localPrefix destfile s).map fun s =>
    addClean E "uninstall" [destfile] (addDestinations [destfile] s)

/-- The targets of `install-shared-lib`. -/
def sharedLibTargets (dest : Path) (names : List String) : List Name :=
  names.map (makePrefix (E.destdir ++ dest) ++ ·)

/-- `install-shared-lib`, which `SharedLib --install` calls. -/
def installSharedLib (dest : Path) (names : List String) (s : State) : Option State :=
  let installed := sharedLibTargets E dest names
  (s.updateRule installed).map fun s =>
    addClean E "uninstall" installed (addDestinations installed s)

inductive Command where
  | installFile (dest : Path)
  | installSymlink (localPrefix : Path) (dest : Path)
  | installSharedLib (dest : Path) (names : List String)
  /-- Any other command: the rules that it makes, and the files that it lists for clean targets. -/
  | other (rules : List (List Name)) (entries : List (Name × List Path))

/-- The installation destinations of `expand-filespec`. -/
def expandFilespec (dir : Path) (filelist : List String) (keepdir : Bool) : List Path :=
  filelist.flatMap fun spec =>
    if spec = "" then []
    else if '=' ∈ spec.toList then
      [fileJoin dir (String.ofList (spec.toList.takeWhile (· ≠ '=')))]
    else
      let srcs := if spec.toList.any fun c => c ∈ ['{', '}', '*', '?'] then E.glob spec else [spec]
      srcs.map fun src => fileJoin dir (if keepdir then src else FileNormalize.fileTail src)

/-- `Install` is a sequence of `InstallFile` commands. -/
def install (destdir : Path) (files : List String) (keepdir : Bool) : List Command :=
  (expandFilespec E destdir files keepdir).map .installFile

def step (s : State) : Command → Option State
  | .installFile dest => installFile E dest s
  | .installSymlink localPrefix dest => installSymlink E localPrefix dest s
  | .installSharedLib dest names => installSharedLib E dest names s
  | .other rules entries =>
    (rules.foldlM State.updateRule s).map fun s =>
      entries.foldl (fun s e => addSrcClean e.1 e.2 s) s

/-! ## What should hold -/

/-- The `clean` or `distclean` target of some directory. -/
def CleanTarget (type : Name) : Prop :=
  ∃ localPrefix, type = fileJoin localPrefix "clean" ∨ type = fileJoin localPrefix "distclean"

/-- A file is listed for one of them. -/
def Cleaned (s : State) (p : Path) : Prop := ∃ type, CleanTarget type ∧ p ∈ s.cleanfiles type

/-- What is installed is listed for `uninstall` and not for `clean` or `distclean`. -/
structure Separate (s : State) : Prop where
  uninstall : ∀ dest ∈ s.destinations, fileBuild E.build dest ∈ s.cleanfiles "uninstall"
  cleaned : ∀ dest ∈ s.destinations, ¬Cleaned s (fileBuild E.build dest)

/-- A command keeps installed files and files to be cleaned apart: `InstallSymlink` has nothing to
do, another command for installation names no file that is to be cleaned, and any other command
lists no installed file for cleaning. -/
def Harmless (s : State) : Command → Prop
  | .installFile dest =>
    s.isTarget (E.destdir ++ dest) = true ∨ ¬Cleaned s (fileBuild E.build (E.destdir ++ dest))
  | .installSymlink _ dest => s.isTarget (E.destdir ++ dest) = true
  | .installSharedLib dest names =>
    ∀ t ∈ sharedLibTargets E dest names, ¬Cleaned s (fileBuild E.build t)
  | .other _ entries =>
    ∀ e ∈ entries, CleanTarget e.1 →
      ∀ p ∈ e.2, ∀ dest ∈ s.destinations, p ≠ fileBuild E.build dest

/-- A property of all states that a project goes through; one that ends in an error goes no
further. -/
def Throughout (P : State → Prop) : State → List Command → Prop
  | s, [] => P s
  | s, c :: cs => P s ∧ ∀ s', step E s c = some s' → Throughout P s' cs

/-- Every command that is carried out is harmless in the state before it. -/
def AllHarmless : State → List Command → Prop
  | _, [] => True
  | s, c :: cs => ∀ s', step E s c = some s' → Harmless E s c ∧ AllHarmless s' cs

variable {E}

theorem joinPart_last {d : String} (hd : Component d) (acc : String) :
    (joinPart acc d).toList.getLast? = d.toList.getLast? := by
  have hne : d.toList ≠ [] := fun h => hd.ne_empty (String.toList_inj.mp (h.trans rfl))
  rw [joinPart, if_neg hd.head, if_neg hd.ne_empty]
  split
  · rfl
  · split <;> rw [String.toList_append, List.getLast?_append_of_ne_nil _ hne]

/-- A path that was joined ends as its last part does. -/
theorem fileJoin_last {d : String} (hd : Plain d) (path : Path) :
    (fileJoin path d).toList.getLast? = d.toList.getLast? := by
  rw [fileJoin_eq path hd, dirPath_concat hd.component]
  split
  · rfl
  · exact joinPart_last hd.component _

theorem not_cleanTarget_uninstall : ¬CleanTarget "uninstall" := by
  rintro ⟨localPrefix, h | h⟩
  · have hlast := fileJoin_last (d := "clean") (by decide) localPrefix
    rw [← h] at hlast
    exact absurd hlast (by decide)
  · have hlast := fileJoin_last (d := "distclean") (by decide) localPrefix
    rw [← h] at hlast
    exact absurd hlast (by decide)

theorem updateRule_spec {s s' : State} {targets : List Name} (h : s.updateRule targets = some s') :
    s'.cleanfiles = s.cleanfiles ∧ s'.destinations = s.destinations := by
  rw [State.updateRule] at h
  split at h
  · obtain rfl := Option.some.inj h
    exact ⟨rfl, rfl⟩
  · split at h
    · contradiction
    · obtain rfl := Option.some.inj h
      exact ⟨rfl, rfl⟩

theorem foldlM_updateRule {rules : List (List Name)} {s s' : State}
    (h : rules.foldlM State.updateRule s = some s') :
    s'.cleanfiles = s.cleanfiles ∧ s'.destinations = s.destinations := by
  induction rules generalizing s with
  | nil =>
    obtain rfl := Option.some.inj h
    exact ⟨rfl, rfl⟩
  | cons r rules ih =>
    rw [List.foldlM_cons] at h
    obtain ⟨s1, hr, hrest⟩ := Option.bind_eq_some_iff.mp h
    obtain ⟨hcleanfiles, hdestinations⟩ := ih hrest
    obtain ⟨hcleanfiles', hdestinations'⟩ := updateRule_spec hr
    exact ⟨hcleanfiles.trans hcleanfiles', hdestinations.trans hdestinations'⟩

section
variable {s s' : State} {p : Path}

theorem cleaned_congr (h : s'.cleanfiles = s.cleanfiles) : Cleaned s' p ↔ Cleaned s p := by
  rw [Cleaned, Cleaned, h]

theorem cleanfiles_addSrcClean (type : Name) (filelist : List Path) (t : Name) :
    (addSrcClean type filelist s).cleanfiles t =
      if t = type then s.cleanfiles t ++ filelist else s.cleanfiles t := rfl

theorem cleaned_addSrcClean (type : Name) (filelist : List Path) :
    Cleaned (addSrcClean type filelist s) p ↔ Cleaned s p ∨ CleanTarget type ∧ p ∈ filelist := by
  constructor
  · rintro ⟨t, ht, hp⟩
    rw [cleanfiles_addSrcClean] at hp
    split at hp
    · rename_i heq
      rcases List.mem_append.mp hp with hp | hp
      · exact .inl ⟨t, ht, hp⟩
      · exact .inr ⟨heq ▸ ht, hp⟩
    · exact .inl ⟨t, ht, hp⟩
  · rintro (⟨t, ht, hp⟩ | ⟨htype, hp⟩)
    · refine ⟨t, ht, ?_⟩
      rw [cleanfiles_addSrcClean]
      split
      · exact List.mem_append_left _ hp
      · exact hp
    · refine ⟨type, htype, ?_⟩
      rw [cleanfiles_addSrcClean, if_pos rfl]
      exact List.mem_append_right _ hp

/-- Making rules to install some files. -/
theorem separate_install (h : Separate E s) (dests : List Name) :
    Separate E (addClean E "uninstall" dests (addDestinations dests s)) ↔
      ∀ dest ∈ dests, ¬Cleaned s (fileBuild E.build dest) := by
  have hcleaned : ∀ p, Cleaned (addClean E "uninstall" dests (addDestinations dests s)) p ↔
      Cleaned s p := by
    intro p
    rw [addClean, cleaned_addSrcClean, cleaned_congr (s := s) rfl]
    exact or_iff_left fun hp => not_cleanTarget_uninstall hp.1
  constructor
  · intro h' dest hdest hp
    exact h'.cleaned dest (List.mem_append_right _ hdest) ((hcleaned _).mpr hp)
  · intro hdests
    constructor
    · intro dest hdest
      rw [addClean, cleanfiles_addSrcClean, if_pos rfl]
      rcases List.mem_append.mp hdest with hdest | hdest
      · exact List.mem_append_left _ (h.uninstall dest hdest)
      · exact List.mem_append_right _ (List.mem_map_of_mem hdest)
    · intro dest hdest
      rw [hcleaned]
      rcases List.mem_append.mp hdest with hdest | hdest
      · exact h.cleaned dest hdest
      · exact hdests dest hdest

theorem Separate.congr (h : Separate E s) (hcleanfiles : s'.cleanfiles = s.cleanfiles)
    (hdestinations : s'.destinations = s.destinations) : Separate E s' where
  uninstall := by
    rw [hdestinations, hcleanfiles]
    exact h.uninstall
  cleaned := by
    intro dest hdest
    rw [cleaned_congr hcleanfiles]
    exact h.cleaned dest (hdestinations ▸ hdest)

/-- A link for installation is always listed for cleaning. -/
theorem cleaned_symLink {localPrefix : Path} {dest : Name}
    (h : symLink E localPrefix dest s = some s') : Cleaned s' (fileBuild E.build dest) := by
  obtain ⟨s1, -, rfl⟩ := Option.map_eq_some_iff.mp h
  rw [addClean, cleaned_addSrcClean]
  exact .inr ⟨⟨localPrefix, .inr rfl⟩, by simp⟩

theorem foldl_addSrcClean (entries : List (Name × List Path)) (s : State) :
    (∀ p, Cleaned (entries.foldl (fun s e => addSrcClean e.1 e.2 s) s) p ↔
        Cleaned s p ∨ ∃ e ∈ entries, CleanTarget e.1 ∧ p ∈ e.2) ∧
      (∀ p ∈ s.cleanfiles "uninstall",
        p ∈ (entries.foldl (fun s e => addSrcClean e.1 e.2 s) s).cleanfiles "uninstall") ∧
      (entries.foldl (fun s e => addSrcClean e.1 e.2 s) s).destinations = s.destinations := by
  induction entries generalizing s with
  | nil => simp
  | cons e entries ih =>
    obtain ⟨hcleaned, huninstall, hdestinations⟩ := ih (addSrcClean e.1 e.2 s)
    rw [List.foldl_cons]
    refine ⟨fun p => ?_, fun p hp => huninstall p ?_, hdestinations⟩
    · rw [hcleaned, cleaned_addSrcClean, or_assoc, List.exists_mem_cons_iff]
    · rw [cleanfiles_addSrcClean]
      split
      · exact List.mem_append_left _ hp
      · exact hp

/-- What one command does to the separation. -/
theorem separate_step {c : Command} (h : Separate E s) (hstep : step E s c = some s') :
    Separate E s' ↔ Harmless E s c := by
  cases c with
  | installFile dest =>
    rw [step, installFile] at hstep
    split at hstep
    · rename_i htarget
      obtain rfl := Option.some.inj hstep
      exact ⟨fun _ => .inl htarget, fun _ => h⟩
    · rename_i htarget
      obtain ⟨s1, hrule, rfl⟩ := Option.map_eq_some_iff.mp hstep
      obtain ⟨hcleanfiles, hdestinations⟩ := updateRule_spec hrule
      rw [separate_install (h.congr hcleanfiles hdestinations), List.forall_mem_singleton,
        cleaned_congr hcleanfiles, Harmless]
      exact (or_iff_right htarget).symm
  | installSymlink localPrefix dest =>
    rw [step, installSymlink] at hstep
    split at hstep
    · rename_i htarget
      obtain rfl := Option.some.inj hstep
      exact ⟨fun _ => htarget, fun _ => h⟩
    · rename_i htarget
      obtain ⟨s1, hlink, rfl⟩ := Option.map_eq_some_iff.mp hstep
      refine ⟨fun h' => ?_, fun hharmless => absurd hharmless htarget⟩
      have hcleaned := cleaned_symLink hlink
      refine absurd ?_ (h'.cleaned (E.destdir ++ dest) (by simp [addClean, addSrcClean, addDestinations]))
      rw [addClean, cleaned_addSrcClean]
      exact .inl hcleaned
  | installSharedLib dest names =>
    obtain ⟨s1, hrule, rfl⟩ := Option.map_eq_some_iff.mp hstep
    obtain ⟨hcleanfiles, hdestinations⟩ := updateRule_spec hrule
    rw [separate_install (h.congr hcleanfiles hdestinations), Harmless]
    simp only [cleaned_congr hcleanfiles]
  | other rules entries =>
    obtain ⟨s1, hrules, rfl⟩ := Option.map_eq_some_iff.mp hstep
    obtain ⟨hcleanfiles, hdestinations⟩ := foldlM_updateRule hrules
    have hs1 := h.congr hcleanfiles hdestinations
    obtain ⟨hcleaned, huninstall, hsame⟩ := foldl_addSrcClean entries s1
    constructor
    · rintro h' e he htype p hp dest hdest rfl
      apply h'.cleaned dest (hsame.symm ▸ hdestinations.symm ▸ hdest)
      rw [hcleaned]
      exact .inr ⟨e, he, htype, hp⟩
    · intro hharmless
      constructor
      · intro dest hdest
        rw [hsame] at hdest
        exact huninstall _ (hs1.uninstall dest hdest)
      · intro dest hdest hp
        rw [hsame] at hdest
        rcases (hcleaned _).mp hp with hp | ⟨e, he, htype, hp⟩
        · exact hs1.cleaned dest hdest hp
        · exact hharmless e he htype _ hp dest (hdestinations ▸ hdest) rfl

end

theorem throughout_iff {s : State} (h : Separate E s) (cs : List Command) :
    Throughout E (Separate E) s cs ↔ AllHarmless E s cs := by
  induction cs generalizing s with
  | nil => exact ⟨fun _ => trivial, fun _ => h⟩
  | cons c cs ih =>
    constructor
    · intro hall s' hstep
      have hrest := hall.2 s' hstep
      have hs' : Separate E s' := by
        cases cs with
        | nil => exact hrest
        | cons => exact hrest.1
      exact ⟨(separate_step h hstep).mp hs', (ih hs').mp hrest⟩
    · intro hharmless
      refine ⟨h, fun s' hstep => ?_⟩
      obtain ⟨hc, hrest⟩ := hharmless s' hstep
      exact (ih ((separate_step h hstep).mpr hc)).mpr hrest

/-- Installed files are listed for `uninstall` only, in every state of a project, exactly when all
of its commands are harmless. -/
theorem clean_keeps_installed (E : Settings) (cs : List Command) :
    Throughout E (Separate E) .initial cs ↔ AllHarmless E .initial cs := by
  have hinitial : Separate E .initial := ⟨by simp [State.initial], by simp [State.initial]⟩
  exact throughout_iff hinitial cs

/-- One link for installation, and nothing else. -/
theorem clean_keeps_installed_link :
    ¬Throughout ⟨"objdir", "/tmp/root", fun _ => []⟩ (Separate ⟨"objdir", "/tmp/root", fun _ => []⟩)
      .initial [.installSymlink "" "/usr/lib/libx.so"] := by
  intro h
  obtain ⟨-, hstep⟩ := h
  have hseparate := hstep _ rfl
  refine hseparate.cleaned "/tmp/root/usr/lib/libx.so" (by decide) ⟨"clean", ⟨"", ?_⟩, by decide⟩
  decide

end Tmake.Installs
