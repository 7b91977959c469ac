import Mathlib.Data.List.Basic

/-! # Directories with symbolic links

A tree of directories and files, in which a name may also stand for a link: a text
that the system reads as a route, from the root or from the directory of the link.
`Walks` says where a route leads and how many links it takes.  A walk may be
split at any step (`walks_append`), leads to one place only (`Walks.unique`), and
to a place that has itself no links on the way from the root (`Walks.real`).
-/
namespace Symlinks

/-- One step of a route. -/
inductive Step (α : Type*) where
  | stay
  | up
  | down (name : α)

structure Route (α : Type*) where
  rooted : Bool
  steps : List (Step α)

/-- What a name stands for. -/
inductive Node (τ : Type*) where
  | directory
  | file
  | link (text : τ)

/-- Places are lists of names, the innermost first. -/
structure Tree (α τ : Type*) where
  node : List α → Option (Node τ)
  route : τ → Route α

variable {α τ : Type*}

def Tree.isDirectory (tree : Tree α τ) : List α → Bool
  | [] => true
  | name :: loc =>
    match tree.node (name :: loc) with
    | some .directory => true
    | _ => false

/-- A name that is no link. -/
def Tree.IsReal (tree : Tree α τ) (loc : List α) : Prop :=
  tree.node loc = some .directory ∨ tree.node loc = some .file

/-- Where the text of a link in this directory starts. -/
def Tree.start (tree : Tree α τ) (text : τ) (loc : List α) : List α :=
  if (tree.route text).rooted then [] else loc

/-- From the first place the steps lead to the second, over so many links. -/
inductive Walks (tree : Tree α τ) : List α → List (Step α) → Nat → List α → Prop where
  | done (loc) : Walks tree loc [] 0 loc
  | stay {loc steps n loc'} : tree.isDirectory loc → Walks tree loc steps n loc' →
      Walks tree loc (.stay :: steps) n loc'
  | up {loc steps n loc'} : tree.isDirectory loc → Walks tree loc.tail steps n loc' →
      Walks tree loc (.up :: steps) n loc'
  | down {loc name steps n loc'} : tree.isDirectory loc → tree.IsReal (name :: loc) →
      Walks tree (name :: loc) steps n loc' → Walks tree loc (.down name :: steps) n loc'
  | link {loc name text steps n loc'} : tree.isDirectory loc →
      tree.node (name :: loc) = some (.link text) →
      Walks tree (tree.start text loc) ((tree.route text).steps ++ steps) n loc' →
      Walks tree loc (.down name :: steps) (n + 1) loc'

variable {tree : Tree α τ} {loc loc' mid : List α} {steps steps' : List (Step α)} {n n' : Nat}

theorem Tree.IsReal.not_link {text : τ} (h : tree.IsReal loc)
    (hlink : tree.node loc = some (.link text)) : False := by
  rcases h with h | h <;> rw [h] at hlink <;> simp at hlink

theorem Walks.unique (h : Walks tree loc steps n mid) (h' : Walks tree loc steps n' loc') :
    n = n' ∧ mid = loc' := by
  induction h generalizing n' with
  | done loc =>
    cases h'
    exact ⟨rfl, rfl⟩
  | stay hdir h ih =>
    cases h' with
    | stay _ h' => exact ih h'
  | up hdir h ih =>
    cases h' with
    | up _ h' => exact ih h'
  | down hdir hreal h ih =>
    cases h' with
    | down _ _ h' => exact ih h'
    | link _ hlink _ => exact (hreal.not_link hlink).elim
  | link hdir hlink h ih =>
    cases h' with
    | down _ hreal _ => exact (hreal.not_link hlink).elim
    | link _ hlink' h' =>
      rw [hlink, Option.some.injEq, Node.link.injEq] at hlink'
      subst hlink'
      obtain ⟨rfl, rfl⟩ := ih h'
      exact ⟨rfl, rfl⟩

theorem Walks.append (h : Walks tree loc steps n mid) (h' : Walks tree mid steps' n' loc') :
    Walks tree loc (steps ++ steps') (n + n') loc' := by
  induction h with
  | done loc => rwa [Nat.zero_add]
  | stay hdir h ih => exact .stay hdir (ih h')
  | up hdir h ih => exact .up hdir (ih h')
  | down hdir hreal h ih => exact .down hdir hreal (ih h')
  | link hdir hlink h ih =>
    rw [Nat.add_right_comm]
    have hrest := ih h'
    rw [List.append_assoc] at hrest
    exact .link hdir hlink hrest

theorem Walks.split_nil (h : Walks tree loc steps n loc') :
    ∃ m k mid, n = m + k ∧ Walks tree loc [] m mid ∧ Walks tree mid steps k loc' :=
  ⟨0, n, loc, (Nat.zero_add n).symm, .done loc, h⟩

theorem Walks.split (h : Walks tree loc (steps ++ steps') n loc') :
    ∃ m k mid, n = m + k ∧ Walks tree loc steps m mid ∧ Walks tree mid steps' k loc' := by
  obtain ⟨all, hall⟩ : ∃ all, all = steps ++ steps' := ⟨_, rfl⟩
  rw [← hall] at h
  induction h generalizing steps with
  | done loc =>
    obtain ⟨rfl, rfl⟩ := List.append_eq_nil_iff.mp hall.symm
    exact ⟨0, 0, loc, rfl, .done loc, .done loc⟩
  | @stay loc rest n loc' hdir h ih =>
    rcases steps with _ | ⟨s, steps⟩
    · exact (hall ▸ Walks.stay hdir h).split_nil
    · obtain ⟨rfl, hrest⟩ := List.cons.inj hall
      obtain ⟨m, k, mid, hn, hfirst, hsecond⟩ := ih hrest
      exact ⟨m, k, mid, hn, .stay hdir hfirst, hsecond⟩
  | @up loc rest n loc' hdir h ih =>
    rcases steps with _ | ⟨s, steps⟩
    · exact (hall ▸ Walks.up hdir h).split_nil
    · obtain ⟨rfl, hrest⟩ := List.cons.inj hall
      obtain ⟨m, k, mid, hn, hfirst, hsecond⟩ := ih hrest
      exact ⟨m, k, mid, hn, .up hdir hfirst, hsecond⟩
  | @down loc name rest n loc' hdir hreal h ih =>
    rcases steps with _ | ⟨s, steps⟩
    · exact (hall ▸ Walks.down hdir hreal h).split_nil
    · obtain ⟨rfl, hrest⟩ := List.cons.inj hall
      obtain ⟨m, k, mid, hn, hfirst, hsecond⟩ := ih hrest
      exact ⟨m, k, mid, hn, .down hdir hreal hfirst, hsecond⟩
  | @link loc name text rest n loc' hdir hlink h ih =>
    rcases steps with _ | ⟨s, steps⟩
    · exact (hall ▸ Walks.link hdir hlink h).split_nil
    · obtain ⟨rfl, hrest⟩ := List.cons.inj hall
      have hall' : (tree.route text).steps ++ rest = ((tree.route text).steps ++ steps) ++ steps' := by
        rw [List.append_assoc]
        exact congrArg _ hrest
      obtain ⟨m, k, mid, hn, hfirst, hsecond⟩ := ih hall'
      exact ⟨m + 1, k, mid, by omega, .link hdir hlink hfirst, hsecond⟩

/-- A walk may be interrupted anywhere. -/
theorem walks_append : Walks tree loc (steps ++ steps') n loc' ↔
    ∃ m k mid, n = m + k ∧ Walks tree loc steps m mid ∧ Walks tree mid steps' k loc' := by
  refine ⟨Walks.split, ?_⟩
  rintro ⟨m, k, mid, rfl, hfirst, hsecond⟩
  exact hfirst.append hsecond

/-- No link on the way from the root. -/
def Tree.Real (tree : Tree α τ) : List α → Prop
  | [] => True
  | name :: loc => tree.isDirectory loc ∧ tree.IsReal (name :: loc) ∧ tree.Real loc

theorem Tree.Real.tail (h : tree.Real loc) : tree.Real loc.tail := by
  cases loc with
  | nil => trivial
  | cons name loc => exact h.2.2

theorem Walks.real (h : Walks tree loc steps n loc') (hloc : tree.Real loc) : tree.Real loc' := by
  induction h with
  | done loc => exact hloc
  | stay _ _ ih => exact ih hloc
  | up _ _ ih => exact ih hloc.tail
  | down hdir hreal _ ih => exact ih ⟨hdir, hreal, hloc⟩
  | @link loc name text steps n loc' _ _ _ ih =>
    refine ih ?_
    rw [Tree.start]
    split
    · trivial
    · exact hloc

/-- The names of such a place lead to it. -/
theorem Tree.Real.walks (h : tree.Real loc) : Walks tree [] (loc.reverse.map .down) 0 loc := by
  induction loc with
  | nil => exact .done []
  | cons name loc ih =>
    rw [List.reverse_cons, List.map_append]
    exact (ih h.2.2).append (.down h.1 h.2.1 (.done _))

open Classical in
/-- Where a route leads, if it leads anywhere. -/
noncomputable def Tree.resolve (tree : Tree α τ) (loc : List α) (steps : List (Step α)) :
    Option (List α) :=
  if h : ∃ loc' n, Walks tree loc steps n loc' then some h.choose else none

theorem Tree.resolve_eq_some (tree : Tree α τ) (loc : List α) (steps : List (Step α))
    (loc' : List α) : tree.resolve loc steps = some loc' ↔ ∃ n, Walks tree loc steps n loc' := by
  rw [Tree.resolve]
  constructor
  · intro heq
    obtain ⟨h, hloc⟩ := Option.dite_none_right_eq_some.mp heq
    rw [Option.some.injEq] at hloc
    exact hloc ▸ h.choose_spec
  · rintro ⟨n, hwalks⟩
    have h : ∃ loc' n, Walks tree loc steps n loc' := ⟨loc', n, hwalks⟩
    rw [dif_pos h]
    obtain ⟨m, hchosen⟩ := h.choose_spec
    rw [(hchosen.unique hwalks).2]

end Symlinks
