import TmakeProof.Engine

/-! # Does a file exist?

`file-mtime-if-exists` answers with a time, and its callers take the time 0 for
"no such file".  With `-symlink` it asks `file readlink` first, so that whatever
is not a symbolic link has no time either.  `file-exists-all` and the loop of
`target-post-build` therefore call a list of files complete if each of them is
*dated*, which is stronger than being *present*.
-/
namespace Tmake

open Weakest

/-! ## Present and dated files -/

namespace FS
variable (fs : FS) (p : Path) (symlink : Bool)

/-- There is something at the path: as `lstat` sees it for a `-symlink` rule, else as `stat`
does. -/
def present : Bool := if symlink then (fs p).isSome else fs.exists? p

/-- The path is present with a time other than 0, and a `-symlink` rule finds a link there. -/
def Dated : Prop :=
  if symlink then ∃ text lmtime seen, fs p = some (.link text lmtime seen) ∧ lmtime ≠ 0
  else ∃ mtime content, fs.stat p = some (mtime, content) ∧ mtime ≠ 0

variable {fs p symlink}

theorem fileMtimeIfExists_ne_zero : fileMtimeIfExists fs p symlink ≠ 0 ↔ fs.Dated p symlink := by
  unfold fileMtimeIfExists Dated
  by_cases hs : symlink = true
  · simp only [hs, if_true]
    cases fs p with
    | none => simp
    | some node => cases node <;> simp
  · simp only [hs]
    cases fs.stat p with
    | none => simp
    | some seen => cases seen; simp

theorem Dated.present (h : fs.Dated p symlink) : fs.present p symlink := by
  unfold Dated at h
  unfold FS.present
  by_cases hs : symlink = true
  · obtain ⟨text, lmtime, seen, hp, -⟩ : ∃ text lmtime seen,
        fs p = some (.link text lmtime seen) ∧ lmtime ≠ 0 := by simpa [hs] using h
    simp [hs, hp]
  · obtain ⟨mtime, content, hp, -⟩ : ∃ mtime content,
        fs.stat p = some (mtime, content) ∧ mtime ≠ 0 := by simpa [hs] using h
    simp [hs, exists?, hp]

end FS

/-! ## The two checks -/

/-- Where `file-exists-all` looks for a name, and whether it looks for a link. -/
def Desc.lookAt (d : Desc) (f : Name) : Path × Bool :=
  match d.ruleFor f with
  | some r => (d.fileBuild f, r.symlink)
  | none => (f, false)

/-- `file-exists-all`: the name it stores in `missing`, if it returns 0. -/
def missingFile (d : Desc) (fs : FS) : List Name → Option Name
  | [] => none
  | f :: list =>
    if fileMtimeIfExists fs (d.lookAt f).1 (d.lookAt f).2 = 0 then some f
    else missingFile d fs list

theorem missingFile_isSome {d : Desc} {fs : FS} {list : List Name} :
    (missingFile d fs list).isSome ↔
      ∃ f ∈ list, ¬fs.Dated (d.lookAt f).1 (d.lookAt f).2 := by
  induction list with
  | nil => simp [missingFile]
  | cons f list ih =>
    have hf : fileMtimeIfExists fs (d.lookAt f).1 (d.lookAt f).2 ≠ 0 ↔
        fs.Dated (d.lookAt f).1 (d.lookAt f).2 := FS.fileMtimeIfExists_ne_zero
    unfold missingFile
    by_cases h : fileMtimeIfExists fs (d.lookAt f).1 (d.lookAt f).2 = 0
    · simp [h, ← hf]
    · simp [h, ih, hf.1 h]

/-- The loop of `target-post-build` always ends, and its return code is 3 once it has reported
a target; when there is none to report, it changes nothing but the cache. -/
theorem wp_recordTargets (d : Desc) (r : Rule) (rt : RuleTarget) (list : List Name) (rc : Nat)
    (w : World) : wp (recordTargets d r rt list rc)
      (fun rc' w' => (rc' = 3 ↔ rc = 3 ∨ ∃ f ∈ list, ¬w.fs.Dated (d.fileBuild f) r.symlink) ∧
        ((∀ f ∈ list, w.fs.Dated (d.fileBuild f) r.symlink) →
          rc' = rc ∧ ∃ c, w' = { w with cache := c }))
      (fun _ _ => False) w := by
  induction list generalizing rc w with
  | nil =>
    show (rc = 3 ↔ _) ∧ (_ → rc = rc ∧ ∃ c, w = { w with cache := c })
    exact ⟨by simp, fun _ => ⟨rfl, w.cache, rfl⟩⟩
  | cons f list ih =>
    have hf : fileMtimeIfExists w.fs (d.fileBuild f) r.symlink ≠ 0 ↔
        w.fs.Dated (d.fileBuild f) r.symlink := FS.fileMtimeIfExists_ne_zero
    simp only [recordTargets, wp_bind, wp_get, wp_ite]
    constructor
    · intro h0
      have hnot : ¬w.fs.Dated (d.fileBuild f) r.symlink := fun h => hf.2 h h0
      apply (ih 3 _).imp ?_ (fun _ _ h => h)
      rintro rc' w' ⟨hrc, -⟩
      exact ⟨by simp [hrc, hnot], fun h => (hnot (h f List.mem_cons_self)).elim⟩
    · intro h0
      have hdated : w.fs.Dated (d.fileBuild f) r.symlink := hf.1 h0
      apply (ih rc _).imp ?_ (fun _ _ h => h)
      rintro rc' w' ⟨hrc, hsame⟩
      refine ⟨by simp [hrc, hdated], fun h => ?_⟩
      obtain ⟨hrc', c, hw'⟩ := hsame fun g hg => h g (List.mem_cons_of_mem _ hg)
      exact ⟨hrc', c, hw'⟩

/-- Whatever `-onerror` does, the rule has failed, unless tmake stops. -/
theorem recordFailure_failed {d : Desc} {E : Env} (rt : RuleTarget) (rc : Nat) (w : World) :
    wp (recordFailure d E rt rc) (fun st _ => st = .failed) (fun _ _ => True) w := by
  unfold recordFailure
  iterate 6 refine wp_bind_last fun _ _ => ?_
  trivial

/-- On the targets of a rule, none of them an alias, `file-exists-all` asks as
`target-post-build` does. -/
theorem fileExistsAll_iff {d : Desc} {fs : FS} {r : Rule} (hr : r ∈ d.rules)
    (ha : ∀ f ∈ r.target, d.mapAlias f = f) :
    fileExistsAll d fs r ↔ missingFile d fs r.target = none := by
  have hlook : ∀ f ∈ r.target, d.lookAt f = (d.fileBuild f, r.symlink) := by
    intro f hf
    have hrule : d.ruleFor f = some r := by
      obtain ⟨s, hs⟩ : ∃ s, d.ruleFor f = some s := by
        rw [← d.isTarget_iff, Desc.isTarget, Desc.ruleFor, List.find?_isSome]
        exact ⟨r, hr, by simpa [ha f hf] using hf⟩
      have hmem := d.ruleFor_target hs
      rw [ha f hf] at hmem
      rw [hs, d.rule_unique (d.ruleFor_mem hs) hr hmem hf]
    simp [Desc.lookAt, hrule]
  rw [← Option.not_isSome_iff_eq_none, missingFile_isSome]
  simp only [fileExistsAll, Desc.files, List.all_map, List.all_eq_true, Function.comp,
    decide_eq_true_eq, ne_eq]
  push Not
  apply forall₂_congr
  intro f hf
  rw [hlook f hf]
  exact FS.fileMtimeIfExists_ne_zero

/-! ## When the checks are exact -/

/-- `file-exists-all` reports a missing file if and only if one of the list does not exist. -/
def ExistsAllExact (d : Desc) (fs : FS) (list : List Name) : Prop :=
  (∃ f, missingFile d fs list = some f) ↔
    ∃ f ∈ list, ¬fs.present (d.lookAt f).1 (d.lookAt f).2

/-- `target-post-build` reports that the rule failed to build a target, and makes its return
code 3, if and only if one of the targets does not exist. -/
def PostBuildExact (d : Desc) (r : Rule) (ruletarget : RuleTarget) (w : World) : Prop :=
  wp (recordTargets d r ruletarget ruletarget 0)
    (fun rc _ => rc = 3 ↔ ∃ f ∈ ruletarget, ¬w.fs.present (d.fileBuild f) r.symlink)
    (fun _ _ => False) w

/-- A check for dated files is one for present files exactly if presence of them all makes them
all dated. -/
theorem exact_iff {α : Type} {present dated : α → Prop} (list : List α)
    (h : ∀ x, dated x → present x) :
    ((∃ x ∈ list, ¬dated x) ↔ ∃ x ∈ list, ¬present x) ↔
      ((∀ x ∈ list, present x) → ∀ x ∈ list, dated x) := by
  constructor
  · intro hiff hall x hx
    by_contra hd
    obtain ⟨y, hy, hp⟩ := hiff.1 ⟨x, hx, hd⟩
    exact hp (hall y hy)
  · intro himp
    constructor
    · rintro ⟨x, hx, hd⟩
      by_contra hnone
      push Not at hnone
      exact hd (himp hnone x hx)
    · rintro ⟨x, hx, hp⟩
      exact ⟨x, hx, fun hd => hp (h x hd)⟩

/-- Both checks are exact precisely on the lists that are incomplete, or all of whose files have
a time other than 0 and, for a `-symlink` rule, are links. -/
theorem existence_checks_exact_iff (d : Desc) (fs : FS) (list : List Name) (r : Rule)
    (ruletarget : RuleTarget) (w : World) :
    (ExistsAllExact d fs list ↔
      ((∀ f ∈ list, fs.present (d.lookAt f).1 (d.lookAt f).2) →
        ∀ f ∈ list, fs.Dated (d.lookAt f).1 (d.lookAt f).2)) ∧
    (PostBuildExact d r ruletarget w ↔
      ((∀ f ∈ ruletarget, w.fs.present (d.fileBuild f) r.symlink) →
        ∀ f ∈ ruletarget, w.fs.Dated (d.fileBuild f) r.symlink)) := by
  constructor
  · rw [← exact_iff list fun f h => FS.Dated.present h, ← missingFile_isSome,
      Option.isSome_iff_exists]
    rfl
  · rw [← exact_iff ruletarget fun f h => FS.Dated.present h]
    apply (wp_recordTargets d r ruletarget ruletarget 0 w).iff ?_ (fun _ _ h => h.elim)
    rintro rc _ ⟨hrc, -⟩
    have hdated : rc = 3 ↔ ∃ f ∈ ruletarget, ¬w.fs.Dated (d.fileBuild f) r.symlink := by
      simpa using hrc
    rw [hdated]

/-- A rule that makes a link and, next to it, a plain file. -/
def linkAndFile : Rule := { target := ["a", "b"], symlink := true }

def linkAndFileDesc : Desc := { rules := [linkAndFile], disjoint := List.pairwise_singleton .. }

/-- The link and the file are there, made at the time 5. -/
def linkAndFileTree : FS := fun p =>
  if p = "objdir/a" then some (.link "b" 5 (some (5, "")))
  else if p = "objdir/b" then some (.file 5 "") else none

/-- Both checks call the plain file missing. -/
theorem linkAndFile_not_exact :
    ¬ExistsAllExact linkAndFileDesc linkAndFileTree ["a", "b"] ∧
    ¬PostBuildExact linkAndFileDesc linkAndFile ["a", "b"] { fs := linkAndFileTree } := by
  constructor
  · intro h
    have hmissing : missingFile linkAndFileDesc linkAndFileTree ["a", "b"] = some "b" := by decide
    obtain ⟨f, hf, hp⟩ := h.1 ⟨"b", hmissing⟩
    revert f
    decide
  · intro h
    have hrc := (h : (3 : Nat) = 3 ↔ _)
    obtain ⟨f, hf, hp⟩ := hrc.1 rfl
    revert f
    decide

end Tmake
