import Mathlib.Data.List.AList
import Mathlib.Data.List.Infix

/-! # Trees of directories and files

A finite tree of directories and files with the operations that a file system
offers on single entries: a directory can be deleted only when it is empty.

`sweep` tries to delete a list of directories, one after the other.  Where every
directory that loses an entry comes up again later, no directory that the sweep
has touched is left empty (`occupied_sweep`).
-/
namespace Trees

inductive Entry (κ : Type*) where
  | directory
  | file (content : κ)
  deriving DecidableEq

/-- Places are lists of names, the innermost first; the empty list is the root. -/
structure Tree (α κ : Type*) [DecidableEq α] where
  entries : AList fun _ : List α => Entry κ
  rooted : [] ∉ entries
  closed : ∀ name place, name :: place ∈ entries → place ≠ [] →
    entries.lookup place = some .directory

theorem proper_suffix {α : Type*} {place p : List α} (h : place <:+ p) (hne : place ≠ p) :
    ∃ name, name :: place <:+ p := by
  obtain ⟨front, rfl⟩ := h
  rcases List.eq_nil_or_concat front with rfl | ⟨front, name, rfl⟩
  · exact absurd rfl hne
  · exact ⟨name, front, by simp⟩

namespace Tree
variable {α κ : Type*} [DecidableEq α]

/-- What stands at a place. -/
def entry (t : Tree α κ) : List α → Option (Entry κ)
  | [] => some .directory
  | name :: place => t.entries.lookup (name :: place)

def isDirectory (t : Tree α κ) (place : List α) : Bool :=
  match t.entry place with
  | some .directory => true
  | _ => false

/-- Something stands in the directory. -/
def occupied (t : Tree α κ) (place : List α) : Bool :=
  t.entries.keys.any fun key => key.tail = place

/-- A file stands on the way from the root. -/
def blocked (t : Tree α κ) (place : List α) : Bool :=
  place.tails.any fun above =>
    match t.entry above with
    | some (.file _) => true
    | _ => false

variable (t : Tree α κ) {t' : Tree α κ} {place p : List α}

@[simp] theorem entry_root : t.entry [] = some .directory := rfl

theorem entry_of_ne (h : place ≠ []) : t.entry place = t.entries.lookup place := by
  cases place with
  | nil => exact absurd rfl h
  | cons name place => rfl

theorem mem_iff_entry (name : α) : name :: place ∈ t.entries ↔ t.entry (name :: place) ≠ none := by
  rw [entry, ← AList.lookup_isSome, Option.isSome_iff_ne_none]

theorem isDirectory_iff : t.isDirectory place = true ↔ t.entry place = some .directory := by
  rw [isDirectory]
  cases h : t.entry place with
  | none => simp
  | some e => cases e <;> simp

/-- What has an entry is a directory. -/
theorem directory_of_entry {name : α} (h : t.entry (name :: place) ≠ none) :
    t.entry place = some .directory := by
  by_cases hroot : place = []
  · rw [hroot, entry_root]
  · rw [entry_of_ne t hroot]
    exact t.closed name place ((t.mem_iff_entry name).mpr h) hroot

theorem occupied_iff : t.occupied place = true ↔ ∃ name, t.entry (name :: place) ≠ none := by
  rw [occupied, List.any_eq_true]
  constructor
  · rintro ⟨key, hkey, htail⟩
    cases key with
    | nil => exact absurd hkey t.rooted
    | cons name key =>
      have htail : key = place := of_decide_eq_true htail
      exact ⟨name, (t.mem_iff_entry name).mp (htail ▸ hkey)⟩
  · rintro ⟨name, h⟩
    exact ⟨name :: place, (t.mem_iff_entry name).mpr h, by simp⟩

theorem occupied_of_entry {name : α} (h : t.entry (name :: place) ≠ none) :
    t.occupied place = true :=
  t.occupied_iff.mpr ⟨name, h⟩

/-- A directory stands above everything that stands below it. -/
theorem directory_of_suffix {name : α} (hp : t.entry p ≠ none) (h : name :: place <:+ p) :
    t.entry place = some .directory := by
  obtain ⟨front, rfl⟩ := h
  have hbelow : t.entry (name :: place) ≠ none := by
    induction front with
    | nil => exact hp
    | cons other front ih =>
      have hbelow : t.entry (front ++ name :: place) = some .directory := t.directory_of_entry hp
      exact ih (hbelow ▸ Option.some_ne_none _)
  exact t.directory_of_entry hbelow

theorem entry_of_suffix (hp : t.entry p ≠ none) (h : place <:+ p) : t.entry place ≠ none := by
  obtain ⟨front, rfl⟩ := h
  rcases List.eq_nil_or_concat front with rfl | ⟨front, name, rfl⟩
  · exact hp
  · rw [List.concat_eq_append, List.append_assoc] at hp
    have hsuffix : name :: place <:+ front ++ ([name] ++ place) := ⟨front, rfl⟩
    exact t.directory_of_suffix hp hsuffix ▸ Option.some_ne_none _

/-! ## Changing one entry -/

/-- Takes away what stands at a place. -/
def erase (place : List α) (hfree : ¬t.occupied place = true) : Tree α κ where
  entries := t.entries.erase place
  rooted := fun h => t.rooted (AList.mem_erase.mp h).2
  closed := by
    intro name above hmem hne
    have hthere := (AList.mem_erase.mp hmem).2
    have hother : above ≠ place := by
      rintro rfl
      exact hfree (t.occupied_of_entry ((t.mem_iff_entry name).mp hthere))
    rw [AList.lookup_erase_ne hother]
    exact t.closed name above hthere hne

theorem entry_erase (hfree : ¬t.occupied place = true) (hroot : place ≠ []) :
    (t.erase place hfree).entry p = if p = place then none else t.entry p := by
  by_cases hp : p = []
  · subst hp
    rw [if_neg hroot.symm, entry_root, entry_root]
  · rw [entry_of_ne _ hp, erase]
    by_cases heq : p = place
    · rw [if_pos heq, heq, AList.lookup_erase]
    · rw [if_neg heq, AList.lookup_erase_ne heq, entry_of_ne t hp]

/-- Puts a file or an empty directory where nothing stands. -/
def put (name : α) (place : List α) (e : Entry κ) (hplace : t.entry place = some .directory)
    (hnew : t.entry (name :: place) = none) : Tree α κ where
  entries := t.entries.insert (name :: place) e
  rooted := fun h => by
    rcases (AList.mem_insert _).mp h with h | h
    · contradiction
    · exact t.rooted h
  closed := by
    intro other above hmem hne
    have hdirectory : t.entry above = some .directory := by
      rcases (AList.mem_insert _).mp hmem with h | h
      · obtain ⟨-, rfl⟩ := List.cons.inj h
        exact hplace
      · exact t.directory_of_entry ((t.mem_iff_entry other).mp h)
    have hother : above ≠ name :: place := by
      rintro rfl
      exact absurd (hnew.symm.trans hdirectory) (by simp)
    rw [AList.lookup_insert_ne hother, ← entry_of_ne t hne]
    exact hdirectory

theorem entry_put {name : α} {e : Entry κ} (hplace : t.entry place = some .directory)
    (hnew : t.entry (name :: place) = none) :
    (t.put name place e hplace hnew).entry p = if p = name :: place then some e else t.entry p := by
  cases p with
  | nil => rfl
  | cons other above =>
    rw [entry, put]
    by_cases heq : other :: above = name :: place
    · rw [if_pos heq, heq, AList.lookup_insert]
    · rw [if_neg heq, AList.lookup_insert_ne heq, entry]

/-- Makes a directory unless it is there. -/
def mkdir (name : α) (place : List α) : Option (Tree α κ) :=
  if t.isDirectory (name :: place) = true then some t
  else if h : t.isDirectory place = true ∧ t.entry (name :: place) = none then
    some (t.put name place .directory (t.isDirectory_iff.mp h.1) h.2)
  else none

theorem not_occupied_of_file {c : κ} (h : t.entry place = some (.file c)) :
    ¬t.occupied place = true := by
  intro hocc
  obtain ⟨name, hname⟩ := t.occupied_iff.mp hocc
  exact absurd (h.symm.trans (t.directory_of_entry hname)) (by simp)

/-- Moves a file to a place where nothing stands. -/
def moveFile (source : List α) (name : α) (place : List α) : Option (Tree α κ) :=
  match hfile : t.entry source with
  | some (.file c) =>
    if h : t.isDirectory place = true ∧ t.entry (name :: place) = none then
      have hplace := t.isDirectory_iff.mp h.1
      have hsource : (t.put name place (.file c) hplace h.2).entry source = some (.file c) := by
        rw [entry_put]
        split
        · rfl
        · exact hfile
      some ((t.put name place (.file c) hplace h.2).erase source (not_occupied_of_file _ hsource))
    else none
  | _ => none

/-- Deletes a file or an empty directory.  It is no failure if nothing is there, unless a file
stands on the way; the root cannot be deleted. -/
def delete (place : List α) : Option (Tree α κ) :=
  if place = [] then none
  else if hfree : t.occupied place = true then none
  else if t.entry place = none ∧ t.blocked place = true then none
  else some (t.erase place hfree)

variable {t}

theorem delete_spec (h : t.delete place = some t') :
    place ≠ [] ∧ ¬t.occupied place = true ∧
      ∀ p, t'.entry p = if p = place then none else t.entry p := by
  rw [delete] at h
  split at h
  · contradiction
  · rename_i hroot
    split at h
    · contradiction
    · rename_i hfree
      split at h
      · contradiction
      · obtain rfl := Option.some.inj h
        exact ⟨hroot, hfree, fun p => t.entry_erase hfree hroot⟩

theorem mkdir_spec {name : α} (h : t.mkdir name place = some t') :
    t'.entry (name :: place) = some .directory ∧
      ∀ p, p ≠ name :: place → t'.entry p = t.entry p := by
  rw [mkdir] at h
  split at h
  · rename_i hthere
    obtain rfl := Option.some.inj h
    exact ⟨t.isDirectory_iff.mp hthere, fun _ _ => rfl⟩
  · split at h
    · obtain rfl := Option.some.inj h
      exact ⟨by rw [entry_put, if_pos rfl], fun p hp => by rw [entry_put, if_neg hp]⟩
    · contradiction

theorem moveFile_spec {source : List α} {name : α} (h : t.moveFile source name place = some t') :
    ∃ c, t.entry source = some (.file c) ∧ t.entry (name :: place) = none ∧
      t'.entry (name :: place) = some (.file c) ∧ t'.entry source = none ∧
      ∀ p, p ≠ name :: place → p ≠ source → t'.entry p = t.entry p := by
  rw [moveFile] at h
  split at h
  · rename_i c hfile
    split at h
    · rename_i hfree
      obtain rfl := Option.some.inj h
      have hroot : source ≠ [] := by
        rintro rfl
        exact absurd hfile (by simp)
      have hne : name :: place ≠ source := by
        rintro rfl
        exact absurd (hfile.symm.trans hfree.2) (by simp)
      refine ⟨c, hfile, hfree.2, ?_, ?_, fun p hp hp' => ?_⟩
      · rw [entry_erase _ _ hroot, if_neg hne, entry_put, if_pos rfl]
      · rw [entry_erase _ _ hroot, if_pos rfl]
      · rw [entry_erase _ _ hroot, if_neg hp', entry_put, if_neg hp]
    · contradiction
  · contradiction

theorem delete_isSome (hroot : place ≠ []) (hfree : ¬t.occupied place = true)
    (hblocked : t.entry place = none → ¬t.blocked place = true) :
    (t.delete place).isSome = true := by
  rw [delete, if_neg hroot, dif_neg hfree, if_neg fun h => hblocked h.1 h.2]
  rfl

theorem blocked_iff : t.blocked place = true ↔ ∃ above c, above <:+ place ∧
    t.entry above = some (.file c) := by
  rw [blocked, List.any_eq_true]
  constructor
  · rintro ⟨above, habove, hfile⟩
    cases hentry : t.entry above with
    | none => simp [hentry] at hfile
    | some e =>
      cases e with
      | directory => simp [hentry] at hfile
      | file c => exact ⟨above, c, (List.mem_tails _ _).mp habove, hentry⟩
  · rintro ⟨above, c, habove, hentry⟩
    exact ⟨above, (List.mem_tails _ _).mpr habove, by rw [hentry]⟩

/-- What has been deleted did not stand behind a file. -/
theorem delete_above (h : t.delete place = some t') {above : List α} (habove : above <:+ place)
    (hne : above ≠ place) (c : κ) : t.entry above ≠ some (.file c) := by
  intro hfile
  obtain ⟨name, hsuffix⟩ := proper_suffix habove hne
  by_cases hplace : t.entry place = none
  · have hblocked := blocked_iff.mpr ⟨above, c, habove, hfile⟩
    rw [delete] at h
    split at h
    · contradiction
    · split at h
      · contradiction
      · rw [if_pos ⟨hplace, hblocked⟩] at h
        contradiction
  · have hdirectory := t.directory_of_suffix hplace hsuffix
    exact absurd (hfile.symm.trans hdirectory) (by simp)

/-- An empty directory can be deleted. -/
theorem delete_directory (hroot : place ≠ []) (hentry : t.entry place ≠ none)
    (hfree : ¬t.occupied place = true) : ∃ t', t.delete place = some t' :=
  Option.isSome_iff_exists.mp (delete_isSome hroot hfree fun h => absurd h hentry)

/-! ## Sweeping -/

variable {ν : Type*} (target : ν → Option (List α))

/-- Deletes what a name leads to, if that is possible. -/
def visit (t : Tree α κ) (name : ν) : Tree α κ := ((target name).bind t.delete).getD t

def sweep (names : List ν) (t : Tree α κ) : Tree α κ := names.foldl (visit target) t

/-- What a visit can do. -/
theorem visit_cases (t : Tree α κ) (name : ν) :
    visit target t name = t ∨ ∃ place, target name = some place ∧
      t.delete place = some (visit target t name) := by
  rw [visit]
  cases htarget : target name with
  | none => exact .inl rfl
  | some place =>
    cases hdelete : t.delete place with
    | none => exact .inl (by simp [hdelete])
    | some t' => exact .inr ⟨place, rfl, by simp [hdelete]⟩

theorem entry_visit (t : Tree α κ) (name : ν) (p : List α) :
    (visit target t name).entry p = t.entry p ∨
      (visit target t name).entry p = none ∧ target name = some p := by
  rcases visit_cases target t name with h | ⟨place, htarget, h⟩
  · rw [h]
    exact .inl rfl
  · rw [(delete_spec h).2.2 p]
    by_cases hp : p = place
    · exact .inr ⟨if_pos hp, hp ▸ htarget⟩
    · exact .inl (if_neg hp)

/-- An entry remains or one of the names leads to it. -/
theorem entry_sweep (names : List ν) (t : Tree α κ) (p : List α) :
    (sweep target names t).entry p = t.entry p ∨
      (sweep target names t).entry p = none ∧ some p ∈ names.map target := by
  induction names generalizing t with
  | nil => exact .inl rfl
  | cons name names ih =>
    rw [sweep, List.foldl_cons]
    rcases ih (visit target t name) with h | ⟨h, hmem⟩
    · rcases entry_visit target t name p with hv | ⟨hv, htarget⟩
      · exact .inl (h.trans hv)
      · exact .inr ⟨h.trans hv, List.mem_map.mpr ⟨name, List.mem_cons_self, htarget⟩⟩
    · exact .inr ⟨h, List.mem_cons_of_mem _ hmem⟩

/-- A directory that is swept when it is empty, or that has been occupied, is gone or occupied at
the end, if a name for it follows every name for one of its entries. -/
theorem occupied_sweep {names : List ν} {t : Tree α κ} {place : List α} (hroot : place ≠ [])
    (hstart : t.occupied place = true ∨ some place ∈ names.map target)
    (hlater : ∀ front name back child, names = front ++ name :: back →
      target name = some (child :: place) → some place ∈ back.map target)
    (hend : (sweep target names t).entry place ≠ none) :
    (sweep target names t).occupied place = true := by
  induction names generalizing t with
  | nil => exact hstart.resolve_right (by simp)
  | cons name names ih =>
    rw [sweep, List.foldl_cons] at hend ⊢
    refine ih ?_ (fun front name' back child hnames => ?_) hend
    · by_cases hback : some place ∈ names.map target
      · exact .inr hback
      -- no entry of the directory is visited from here on
      have hchild : ∀ child, target name ≠ some (child :: place) := fun child h =>
        hback (hlater [] name names child rfl h)
      left
      by_cases hocc : t.occupied place = true
      · obtain ⟨child, hentry⟩ := t.occupied_iff.mp hocc
        have hremains : (visit target t name).entry (child :: place) = t.entry (child :: place) :=
          (entry_visit target t name (child :: place)).resolve_right fun h => hchild child h.2
        exact occupied_of_entry _ (hremains ▸ hentry)
      · -- the directory itself is visited, and is empty
        have htarget : target name = some place := by
          rcases List.mem_cons.mp (hstart.resolve_left hocc) with h | h
          · exact h.symm
          · exact absurd h hback
        have hthere : t.entry place ≠ none := by
          intro hnone
          apply hend
          rcases entry_sweep target (name :: names) t place with h | ⟨h, -⟩
          · exact h.trans hnone
          · exact h
        obtain ⟨t', ht'⟩ := delete_directory hroot hthere hocc
        have hvisit : visit target t name = t' := by simp [visit, htarget, ht']
        have hgone : t'.entry place = none := by
          rw [(delete_spec ht').2.2 place, if_pos rfl]
        rcases entry_sweep target names (visit target t name) place with h | ⟨h, -⟩
        · exact absurd (h.trans (hvisit ▸ hgone)) hend
        · exact absurd h hend
    · exact hlater (name :: front) name' back child (by rw [hnames, List.cons_append])

end Tree
end Trees
