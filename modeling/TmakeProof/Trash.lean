import TmakeProof.CleanFiles

/-! # The trash

`delete-orphan-files` of the rule base moves the orphans into one directory, where
the name of an orphan is its path with `_` for every slash.  Two paths may become
one name, and what is in the trash under that name is then deleted.  `Clear` says
when this does not happen.
-/
namespace Tmake.Trash
open Trees CleanFiles

variable {κ : Type*} (cwd : List String)

def trash : List String := ".trash" :: cwd

/-- `string map {/ _} $file`. -/
def trashName (file : Path) : String :=
  String.ofList (file.toList.map fun c => if c = '/' then '_' else c)

/-- `file-mkdir -rooterr .trash`: root may not make the directory. -/
def fileMkdir (isRoot : Bool) (tree : Trees.Tree String κ) : Option (Trees.Tree String κ) :=
  if isRoot = false ∨ tree.isDirectory (trash cwd) = true then tree.mkdir ".trash" cwd else none

/-- What the loop of `delete-orphan-files` does with one file, and whether it goes on. -/
def deleteOrphan (tree : Trees.Tree String κ) (file : Path) : Bool × Trees.Tree String κ :=
  match tree.entry (locate cwd file) with
  | some (.file _) =>
    match tree.delete (trashName file :: trash cwd) with
    | none => (false, tree)
    | some tree =>
      match tree.moveFile (locate cwd file) (trashName file) (trash cwd) with
      | none => (false, tree)
      | some tree => (true, tree)
  | _ => (true, tree)

def deleteOrphanLoop : List Path → Trees.Tree String κ → Bool × Trees.Tree String κ
  | [], tree => (true, tree)
  | file :: files, tree =>
    match deleteOrphan cwd tree file with
    | (false, tree) => (false, tree)
    | (true, tree) => deleteOrphanLoop files tree

/-- `delete-orphan-files`: whether it returns without an error, and the tree that it leaves. -/
def deleteOrphanFiles (isRoot : Bool) (files : List Path) (tree : Trees.Tree String κ) :
    Bool × Trees.Tree String κ :=
  match fileMkdir cwd isRoot tree with
  | none => (false, tree)
  | some tree => deleteOrphanLoop cwd files tree

/-! ## Runs -/

/-- An orphan that was deleted. -/
structure Deleted (κ : Type*) where
  place : List String
  content : κ
  deriving DecidableEq

/-- The tree, and the orphans that were deleted since the trash was last emptied. -/
structure State (κ : Type*) where
  tree : Trees.Tree String κ
  deleted : List (Deleted κ)

/-- The orphan that a call has deleted at a place. -/
def deletedAt (before after : Trees.Tree String κ) (place : List String) : Option (Deleted κ) :=
  match before.entry place, after.entry place with
  | some (.file c), none => some ⟨place, c⟩
  | _, _ => none

def newlyDeleted (files : List Path) (before after : Trees.Tree String κ) : List (Deleted κ) :=
  (files.map (locate cwd)).dedup.filterMap (deletedAt before after)

inductive Action where
  | deleteOrphans (isRoot : Bool) (files : List Path)
  | build
  | clean

/-- What happens to the trash: orphans are deleted, other targets are built, or a clean target
deletes the trash. -/
inductive Step : State κ → Action → State κ → Prop where
  | deleteOrphans (s : State κ) (isRoot : Bool) (files : List Path) :
    Step s (.deleteOrphans isRoot files)
      ⟨(deleteOrphanFiles cwd isRoot files s.tree).2,
        newlyDeleted cwd files s.tree (deleteOrphanFiles cwd isRoot files s.tree).2 ++ s.deleted⟩
  | build (s : State κ) (tree : Trees.Tree String κ)
    (h : ∀ name, tree.entry (name :: trash cwd) = s.tree.entry (name :: trash cwd)) :
    Step s .build ⟨tree, s.deleted⟩
  | clean (s : State κ) (tree : Trees.Tree String κ) (h : tree.entry (trash cwd) = none) :
    Step s .clean ⟨tree, []⟩

/-- The states that are reached when every action meets a condition. -/
inductive Run (P : State κ → Action → Prop) (tree : Trees.Tree String κ) : State κ → Prop where
  | start : Run P tree ⟨tree, []⟩
  | step {s s' : State κ} {a : Action} : Run P tree s → P s a → Step cwd s a s' → Run P tree s'

/-- Every deleted orphan is in the trash with its content, and each under a name of its own. -/
def Kept (s : State κ) : Prop :=
  ∃ names : List String, names.Nodup ∧
    List.Forall₂ (fun d name => s.tree.entry (name :: trash cwd) = some (.file d.content)) s.deleted names

/-- There is an orphan to be deleted. -/
def IsFile (tree : Trees.Tree String κ) (file : Path) : Prop :=
  ∃ c, tree.entry (locate cwd file) = some (.file c)

/-- The names in the trash of different orphans differ from each other, and from those of the
files that are there.  No orphan is itself in the trash. -/
structure Clear (files : List Path) (tree : Trees.Tree String κ) : Prop where
  outside : ∀ file ∈ files, ¬trash cwd <:+ locate cwd file
  distinct : ∀ file ∈ files, ∀ file' ∈ files, IsFile cwd tree file → IsFile cwd tree file' →
    trashName file = trashName file' → locate cwd file = locate cwd file'
  fresh : ∀ file ∈ files, IsFile cwd tree file →
    ∀ c, tree.entry (trashName file :: trash cwd) ≠ some (.file c)

def Action.Clear (s : State κ) : Action → Prop
  | .deleteOrphans _ files => Trash.Clear cwd files s.tree
  | _ => True

variable {cwd}

/-! ## One call -/

/-- What a call leaves of the files of a tree: those in the trash stay there, and another one
stays or is in the trash under its name. -/
structure Swept (cwd : List String) (files : List Path) (before after : Trees.Tree String κ) : Prop where
  kept : ∀ name c, before.entry (name :: trash cwd) = some (.file c) →
    after.entry (name :: trash cwd) = some (.file c)
  moved : ∀ place c, before.entry place = some (.file c) → ¬trash cwd <:+ place →
    after.entry place = some (.file c) ∨ after.entry place = none ∧
      ∃ file ∈ files, locate cwd file = place ∧
        after.entry (trashName file :: trash cwd) = some (.file c)
  same : ∀ place c, ¬trash cwd <:+ place → after.entry place = some (.file c) →
    before.entry place = some (.file c)

theorem not_below_ne {place : List String} (h : ¬trash cwd <:+ place) (name : String) :
    place ≠ name :: trash cwd := by
  rintro rfl
  exact h (List.suffix_cons _ _)

section
variable {files : List Path} {before tree tree' : Trees.Tree String κ} {file : Path} {c : κ}

/-- Nothing is lost with what is deleted in the trash. -/
theorem Swept.delete (h : Swept cwd files before tree) (hclear : Clear cwd files before)
    (hfile : file ∈ files) (hentry : tree.entry (locate cwd file) = some (.file c))
    (hdelete : tree.delete (trashName file :: trash cwd) = some tree') :
    Swept cwd files before tree' := by
  have htree' := (Trees.Tree.delete_spec hdelete).2.2
  have hbefore := h.same _ _ (hclear.outside file hfile) hentry
  constructor
  · intro name d hname
    have hne : name ≠ trashName file := by
      rintro rfl
      exact hclear.fresh file hfile ⟨c, hbefore⟩ d hname
    rw [htree', if_neg fun heq => hne (List.cons.inj heq).1]
    exact h.kept name d hname
  · intro place d hplace hout
    rw [htree', if_neg (not_below_ne hout _)]
    rcases h.moved place d hplace hout with hstays | ⟨hgone, file', hfile', hlocate, htrash⟩
    · exact .inl hstays
    · refine .inr ⟨hgone, file', hfile', hlocate, ?_⟩
      have hne : trashName file' ≠ trashName file := by
        intro heq
        have hsame := hclear.distinct file' hfile' file hfile ⟨d, hlocate ▸ hplace⟩ ⟨c, hbefore⟩ heq
        rw [← hsame, hlocate, hgone] at hentry
        contradiction
      rw [htree', if_neg fun heq => hne (List.cons.inj heq).1]
      exact htrash
  · intro place d hout hplace
    rw [htree', if_neg (not_below_ne hout _)] at hplace
    exact h.same place d hout hplace

/-- A file that is moved is in the trash under its name. -/
theorem Swept.move (h : Swept cwd files before tree) (hclear : Clear cwd files before)
    (hfile : file ∈ files)
    (hmove : tree.moveFile (locate cwd file) (trashName file) (trash cwd) = some tree') :
    Swept cwd files before tree' := by
  obtain ⟨c, hentry, hfree, hdest, hsource, hothers⟩ := Trees.Tree.moveFile_spec hmove
  have hout := hclear.outside file hfile
  have hbefore := h.same _ _ hout hentry
  have hinside : ∀ name, name :: trash cwd ≠ locate cwd file := fun name heq =>
    hout (heq ▸ List.suffix_cons _ _)
  -- what was in the trash is still there
  have hold : ∀ name d, tree.entry (name :: trash cwd) = some (.file d) →
      tree'.entry (name :: trash cwd) = some (.file d) := by
    intro name d hname
    rw [hothers _ (fun heq => ?_) (hinside name)]
    · exact hname
    · rw [heq, hfree] at hname
      contradiction
  constructor
  · exact fun name d hname => hold name d (h.kept name d hname)
  · intro place d hplace hnot
    by_cases heq : place = locate cwd file
    · subst heq
      obtain rfl : c = d := by simpa using hbefore.symm.trans hplace
      exact .inr ⟨hsource, file, hfile, rfl, hdest⟩
    · rw [hothers place (not_below_ne hnot _) heq]
      rcases h.moved place d hplace hnot with hstays | ⟨hgone, file', hfile', hlocate, htrash⟩
      · exact .inl hstays
      · exact .inr ⟨hgone, file', hfile', hlocate, hold _ d htrash⟩
  · intro place d hnot hplace
    have heq : place ≠ locate cwd file := by
      rintro rfl
      rw [hsource] at hplace
      contradiction
    rw [hothers place (not_below_ne hnot _) heq] at hplace
    exact h.same place d hnot hplace

theorem Swept.deleteOrphan (h : Swept cwd files before tree)
    (hclear : Clear cwd files before) (hfile : file ∈ files) :
    Swept cwd files before (deleteOrphan cwd tree file).2 := by
  rw [Trash.deleteOrphan]
  split
  · rename_i c hentry
    split
    · exact h
    · rename_i tree' hdelete
      have hdeleted := h.delete hclear hfile hentry hdelete
      split
      · exact hdeleted
      · rename_i hmove
        exact hdeleted.move hclear hfile hmove
  · exact h

theorem Swept.loop {todo : List Path} (h : Swept cwd files before tree)
    (hclear : Clear cwd files before) (htodo : ∀ file ∈ todo, file ∈ files) :
    Swept cwd files before (deleteOrphanLoop cwd todo tree).2 := by
  induction todo generalizing tree with
  | nil => exact h
  | cons file todo ih =>
    have hfirst := h.deleteOrphan hclear (htodo file List.mem_cons_self)
    rw [deleteOrphanLoop]
    cases hresult : Trash.deleteOrphan cwd tree file with
    | mk ok tree' =>
      rw [hresult] at hfirst
      cases ok with
      | false => exact hfirst
      | true => exact ih hfirst fun file hmem => htodo file (List.mem_cons_of_mem _ hmem)

theorem Swept.refl (files : List Path) (tree : Trees.Tree String κ) :
    Swept cwd files tree tree where
  kept := fun _ _ h => h
  moved := fun _ _ h _ => .inl h
  same := fun _ _ _ h => h

/-- Making the directory makes no difference to the files. -/
theorem swept_mkdir (hmkdir : before.mkdir ".trash" cwd = some tree) :
    Swept cwd files before tree := by
  obtain ⟨-, hothers⟩ := Trees.Tree.mkdir_spec hmkdir
  have hinside : ∀ name, name :: trash cwd ≠ ".trash" :: cwd := by
    intro name heq
    have hlength := congrArg List.length heq
    simp [trash] at hlength
  have hout : ∀ place, ¬trash cwd <:+ place → place ≠ ".trash" :: cwd := fun place h heq =>
    h (heq ▸ List.suffix_rfl)
  constructor
  · intro name c hname
    rw [hothers _ (hinside name)]
    exact hname
  · intro place c hplace h
    rw [hothers _ (hout place h)]
    exact .inl hplace
  · intro place c h hplace
    rwa [hothers _ (hout place h)] at hplace

/-- One call of `delete-orphan-files`. -/
theorem deleteOrphanFiles_swept (isRoot : Bool) (hclear : Clear cwd files before) :
    Swept cwd files before (deleteOrphanFiles cwd isRoot files before).2 := by
  rw [deleteOrphanFiles, fileMkdir]
  split
  · exact Swept.refl files before
  · rename_i tree hmkdir
    split at hmkdir
    · exact (swept_mkdir hmkdir).loop hclear fun _ h => h
    · contradiction

end

/-! ## Every deleted orphan is kept -/

section
variable {files : List Path} {before after : Trees.Tree String κ}

theorem deletedAt_spec {place : List String} {d : Deleted κ}
    (h : deletedAt before after place = some d) :
    d.place = place ∧ before.entry place = some (.file d.content) ∧ after.entry place = none := by
  rw [deletedAt] at h
  split at h
  · rename_i c hbefore hafter
    obtain rfl := Option.some.inj h
    exact ⟨rfl, hbefore, hafter⟩
  · contradiction

theorem mem_newlyDeleted {d : Deleted κ} (h : d ∈ newlyDeleted cwd files before after) :
    (∃ file ∈ files, locate cwd file = d.place) ∧
      before.entry d.place = some (.file d.content) ∧ after.entry d.place = none := by
  obtain ⟨place, hplace, hd⟩ := List.mem_filterMap.mp h
  obtain ⟨file, hfile, rfl⟩ := List.mem_map.mp (List.mem_dedup.mp hplace)
  obtain ⟨hsame, hbefore, hafter⟩ := deletedAt_spec hd
  exact ⟨⟨file, hfile, hsame.symm⟩, hsame ▸ hbefore, hsame ▸ hafter⟩

theorem newlyDeleted_places : (newlyDeleted cwd files before after).Pairwise
    fun d d' => d.place ≠ d'.place := by
  refine List.Pairwise.filterMap _ ?_ (List.nodup_dedup (files.map (locate cwd)))
  intro place place' hne d hd d' hd'
  rw [(deletedAt_spec hd).1, (deletedAt_spec hd').1]
  exact hne

/-- The names of the orphans in the trash. -/
theorem names_newlyDeleted (hswept : Swept cwd files before after)
    (hclear : Clear cwd files before) {l : List (Deleted κ)}
    (hl : ∀ d ∈ l, d ∈ newlyDeleted cwd files before after)
    (hplaces : l.Pairwise fun d d' => d.place ≠ d'.place) :
    ∃ names : List String, names.Nodup ∧
      List.Forall₂ (fun d name => after.entry (name :: trash cwd) = some (.file d.content)) l names ∧
      ∀ name ∈ names, ∃ d ∈ l, ∃ file ∈ files, locate cwd file = d.place ∧ trashName file = name := by
  induction l with
  | nil => exact ⟨[], List.nodup_nil, .nil, by simp⟩
  | cons d l ih =>
    obtain ⟨hne, hplaces⟩ := List.pairwise_cons.mp hplaces
    obtain ⟨names, hnodup, hkept, horigin⟩ :=
      ih (fun d hd => hl d (List.mem_cons_of_mem _ hd)) hplaces
    obtain ⟨⟨file, hfile, hplace⟩, hbefore, hafter⟩ := mem_newlyDeleted (hl d List.mem_cons_self)
    have hmoved := hswept.moved d.place d.content hbefore (hplace ▸ hclear.outside file hfile)
    rw [hafter] at hmoved
    obtain ⟨-, file, hfile, hplace, htrash⟩ := hmoved.resolve_left (by simp)
    refine ⟨trashName file :: names, List.nodup_cons.mpr ⟨fun hmem => ?_, hnodup⟩,
      .cons htrash hkept, ?_⟩
    · obtain ⟨d', hd', file', hfile', hplace', hname⟩ := horigin _ hmem
      have hbefore' := (mem_newlyDeleted (hl d' (List.mem_cons_of_mem _ hd'))).2.1
      have hsame := hclear.distinct file' hfile' file hfile ⟨_, hplace' ▸ hbefore'⟩
        ⟨_, hplace ▸ hbefore⟩ hname
      exact hne d' hd' (hplace.symm.trans (hsame.symm.trans hplace'))
    · intro name hname
      rcases List.mem_cons.mp hname with rfl | hname
      · exact ⟨d, List.mem_cons_self, file, hfile, hplace, rfl⟩
      · obtain ⟨d', hd', horigin⟩ := horigin name hname
        exact ⟨d', List.mem_cons_of_mem _ hd', horigin⟩

end

theorem forall₂_right {α β : Type*} {R : α → β → Prop} {l : List α} {l' : List β}
    (h : List.Forall₂ R l l') {b : β} (hb : b ∈ l') : ∃ a ∈ l, R a b := by
  induction h with
  | nil => exact absurd hb (by simp)
  | cons hfirst hrest ih =>
    rcases List.mem_cons.mp hb with rfl | hb
    · exact ⟨_, List.mem_cons_self, hfirst⟩
    · obtain ⟨a, ha, hR⟩ := ih hb
      exact ⟨a, List.mem_cons_of_mem _ ha, hR⟩

theorem Kept.step {s s' : State κ} {a : Action} (h : Kept cwd s) (hclear : a.Clear cwd s)
    (hstep : Step cwd s a s') : Kept cwd s' := by
  cases hstep with
  | clean tree hempty => exact ⟨[], List.nodup_nil, .nil⟩
  | build tree hsame =>
    obtain ⟨names, hnodup, hkept⟩ := h
    refine ⟨names, hnodup, hkept.imp fun d name hname => ?_⟩
    rw [hsame]
    exact hname
  | deleteOrphans isRoot files =>
    obtain ⟨names, hnodup, hkept⟩ := h
    have hclear : Clear cwd files s.tree := hclear
    have hswept := deleteOrphanFiles_swept isRoot hclear
    obtain ⟨new, hnewNodup, hnew, horigin⟩ :=
      names_newlyDeleted hswept hclear (fun d h => h) newlyDeleted_places
    refine ⟨new ++ names, List.nodup_append.mpr ⟨hnewNodup, hnodup, ?_⟩,
      List.rel_append hnew (hkept.imp fun d name hname => hswept.kept name d.content hname)⟩
    -- a name in the trash that is taken is not that of an orphan
    intro name hname name' hname' heq
    subst heq
    obtain ⟨d, hd, file, hfile, hplace, rfl⟩ := horigin name hname
    obtain ⟨d', -, htaken⟩ := forall₂_right hkept hname'
    have hbefore := (mem_newlyDeleted hd).2.1
    exact hclear.fresh file hfile ⟨_, hplace ▸ hbefore⟩ _ htaken

/-- As long as the names in the trash are clear, every deleted orphan is there with its content
until the trash is emptied. -/
theorem orphans_kept (cwd : List String) (tree : Trees.Tree String κ) (s : State κ)
    (h : Run cwd (fun s a => a.Clear cwd s) tree s) : Kept cwd s := by
  induction h with
  | start => exact ⟨[], List.nodup_nil, .nil⟩
  | step hrun hclear hstep ih => exact ih.step hclear hstep

/-- Two files whose paths become the same name. -/
def twins : Trees.Tree String Nat where
  entries := ⟨[⟨["a"], .directory⟩, ⟨["b", "a"], .file 1⟩, ⟨["a_b"], .file 2⟩],
    show List.Nodup [_, _, _] from by decide⟩
  rooted := by decide
  closed := by
    have hclosed : ∀ key ∈ [["a"], ["b", "a"], ["a_b"]], key.tail ≠ [] → key.tail = ["a"] := by
      decide
    intro name place h hne
    obtain rfl : place = _ := hclosed _ h hne
    rfl

theorem orphans_kept_one : ∃ s, Run [] (fun s a => a.Clear [] s) twins s ∧
    s.deleted.length = 1 ∧ Kept [] s := by
  have hclear : Clear [] ["a/b"] twins := by
    constructor
    · decide
    · intro file hfile file' hfile' _ _ _
      rw [List.mem_singleton.mp hfile, List.mem_singleton.mp hfile']
    · intro file hfile _ c
      rw [List.mem_singleton.mp hfile]
      have hnone : twins.entry (trashName "a/b" :: trash []) = none := by decide
      rw [hnone]
      exact (Option.some_ne_none _).symm
  have haction : (Action.deleteOrphans false ["a/b"]).Clear [] ⟨twins, []⟩ := hclear
  have hrun : Run [] (fun s a => a.Clear [] s) twins _ :=
    .step .start haction (.deleteOrphans ⟨twins, []⟩ false ["a/b"])
  exact ⟨_, hrun, by decide, orphans_kept [] twins _ hrun⟩

theorem orphans_kept_twins : ¬∀ s, Run [] (fun _ _ => True) twins s → Kept [] s := by
  intro h
  have hrun : Run [] (fun _ _ => True) twins _ :=
    .step .start trivial (.deleteOrphans ⟨twins, []⟩ false ["a/b", "a_b"])
  obtain ⟨names, -, hkept⟩ := h _ hrun
  have hdeleted : newlyDeleted [] ["a/b", "a_b"] twins
      (deleteOrphanFiles [] false ["a/b", "a_b"] twins).2 = [⟨["b", "a"], 1⟩, ⟨["a_b"], 2⟩] := by
    decide
  have hlost : ∀ e ∈ (deleteOrphanFiles [] false ["a/b", "a_b"] twins).2.entries.entries,
      e.2 ≠ .file 1 := by
    decide
  rw [hdeleted] at hkept
  cases hkept with
  | cons hfirst hrest => exact hlost _ (AList.mem_lookup_iff.mp hfirst) rfl

end Tmake.Trash
