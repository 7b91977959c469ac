import TmakeProof.Presence

/-! # How far a scan is

A scan looks at files and has targets built, and goes on according to what it finds.
`Scanning` says that it has come to a point, as the file tree is now.  It stays true as
long as what the scan has looked at stays as it is (`Scanning.mono`): the files that no
rule makes, and those of the targets that it has had built, if these are all that the
scan looks at (`Scan.Local`).  In one file tree a scan can only go one way, and so the
point that it has come to lies on the way to its end (`Scanning.ok_of_lookup`,
`Scanning.eq_of_done`).
-/
namespace Tmake
open Relation

variable {d : Desc} {scratch : Path → Prop} {r : Rule} {fs fs' : FS}

/-! ## What a scan looks at -/

/-- Two file trees agree on what no rule makes and on the files of these targets, but for files
in `scratch`. -/
def AgreeOn (d : Desc) (scratch : Path → Prop) (L : Name → Prop) (fs fs' : FS) : Prop :=
  ∀ p, ¬scratch p → (∀ r ∈ d.rules, p ∈ d.files r → ∃ t, L t ∧ d.ruleFor t = some r) →
    fs' p = fs p

theorem AgreeOn.mono {L L' : Name → Prop} (h : AgreeOn d scratch L fs fs')
    (hL : ∀ t, L' t → d.isTarget t = true → L t) : AgreeOn d scratch L' fs fs' := by
  intro p hp hrules
  refine h p hp fun r hr hpr => ?_
  obtain ⟨t, ht, hrt⟩ := hrules r hr hpr
  exact ⟨t, hL t ht (d.isTarget_iff.mpr ⟨r, hrt⟩), hrt⟩

/-- The file that is looked for under a name. -/
def Desc.scanFile (d : Desc) (f : Name) : Path := if d.isTarget f then d.fileBuild f else f

/-- A scan that looks only at files that no rule makes and at those of the targets in `L` and of
those that it has looked up, none of which is an alias. -/
inductive Scan.Local (d : Desc) (scratch : Path → Prop) : (Name → Prop) → Scan → Prop where
  | done {L} : Local d scratch L .done
  | peek {L k} (hk : ∀ fs fs', AgreeOn d scratch L fs fs' → k fs' = k fs)
      (h : ∀ fs, Local d scratch L (k fs)) : Local d scratch L (.peek k)
  | lookup {L f keep k} (hf : d.mapAlias f = f)
      (hkeep : ∀ fs fs', AgreeOn d scratch (fun t => L t ∨ t = f) fs fs' → keep fs' = keep fs)
      (h : ∀ b, Local d scratch (fun t => L t ∨ t = f) (k b)) : Local d scratch L (.lookup f keep k)

/-- The rules of a description and the files that tmake does not look at: no two rules make the
same file, no rule makes a source, every target names its rule, and scans are local. -/
structure Unshared (d : Desc) (scratch : Path → Prop) : Prop where
  files : ∀ r ∈ d.rules, ∀ p ∈ d.files r, ¬scratch p
  apart : ∀ r ∈ d.rules, ∀ s ∈ d.rules, r.target ≠ s.target → ∀ p ∈ d.files r, p ∉ d.files s
  sources : ∀ t, d.Source t → ¬scratch t ∧ ∀ r ∈ d.rules, t ∉ d.files r
  named : ∀ r ∈ d.rules, ∀ f ∈ r.target, d.ruleFor f = some r
  scans : ∀ r ∈ d.rules, ∀ dyndep, r.dyndep = some dyndep → ∀ i ∈ r.inputs,
    (dyndep i).scan.Local d scratch (· ∈ r.depends)

/-- The file of a name that is looked up is one of those on which the trees agree. -/
theorem Unshared.scanFile {L : Name → Prop} {f : Name} (hd : Unshared d scratch) (hr : r ∈ d.rules)
    (hneeds : r.NeedsName f) (hf : d.mapAlias f = f) (hagree : AgreeOn d scratch L fs fs')
    (hL : d.isTarget f = true → L f) : fs' (d.scanFile f) = fs (d.scanFile f) := by
  unfold Desc.scanFile
  cases hs : d.ruleFor f with
  | none =>
    have htarget : d.isTarget f = false := by simp [Desc.isTarget, hs]
    obtain ⟨hscratch, hrules⟩ := hd.sources f ⟨hs, r, hr, hneeds⟩
    rw [htarget]
    exact hagree f hscratch fun s hsr hmem => absurd hmem (hrules s hsr)
  | some s =>
    have htarget : d.isTarget f = true := d.isTarget_iff.mpr ⟨s, hs⟩
    have hsr := d.ruleFor_mem hs
    have hmem : d.fileBuild f ∈ d.files s := List.mem_map_of_mem (hf ▸ d.ruleFor_target hs)
    rw [htarget]
    refine hagree _ (hd.files s hsr _ hmem) fun u hu hmem' => ⟨f, hL htarget, ?_⟩
    have hsame : s.target = u.target := by
      by_contra hne
      exact hd.apart s hsr u hu hne _ hmem hmem'
    rw [hs, d.rule_eq_of_target hsr hu (d.target_ne_nil hs) hsame]

/-! ## The way of a scan -/

/-- Where `calc-dyndeps` is: what has been found, the scan of the current input, the inputs left. -/
structure ScanPoint where
  found : List Name
  prog : Scan
  inputs : List Name

/-- What follows the answer to a look-up. -/
def ScanPoint.answered (d : Desc) (fs : FS) (found : List Name) (f : Name) (keep : FS → Bool)
    (k : Bool → Scan) (inputs : List Name) : ScanPoint :=
  let b := fs.exists? (d.scanFile f)
  ⟨if b && keep fs then found ++ [f] else found, k b, inputs⟩

/-- One step of `calc-dyndeps` in a file tree; the targets that it looks up are in `Ok`. -/
inductive ScanStep (d : Desc) (r : Rule) (Ok : Name → Prop) (fs : FS) : ScanPoint → ScanPoint → Prop where
  | input {found i inputs dyndep} (h : r.dyndep = some dyndep) :
      ScanStep d r Ok fs ⟨found, .done, i :: inputs⟩
        ⟨found ++ (dyndep i).named, (dyndep i).scan, inputs⟩
  | peek {found k inputs} : ScanStep d r Ok fs ⟨found, .peek k, inputs⟩ ⟨found, k fs, inputs⟩
  | lookup {found f keep k inputs} (h : d.isTarget f = true → Ok f) :
      ScanStep d r Ok fs ⟨found, .lookup f keep k, inputs⟩ (.answered d fs found f keep k inputs)

/-- `calc-dyndeps` has come to this point; `L` are the names that it may have looked at. -/
inductive Scanning (d : Desc) (r : Rule) (Ok : Name → Prop) (fs : FS) :
    (Name → Prop) → ScanPoint → Prop where
  | start : Scanning d r Ok fs (· ∈ r.depends) ⟨[], .done, r.inputs⟩
  | input {L found i inputs dyndep} (h : Scanning d r Ok fs L ⟨found, .done, i :: inputs⟩)
      (hd : r.dyndep = some dyndep) :
      Scanning d r Ok fs L ⟨found ++ (dyndep i).named, (dyndep i).scan, inputs⟩
  | peek {L found k inputs} (h : Scanning d r Ok fs L ⟨found, .peek k, inputs⟩) :
      Scanning d r Ok fs L ⟨found, k fs, inputs⟩
  | lookup {L found f keep k inputs} (h : Scanning d r Ok fs L ⟨found, .lookup f keep k, inputs⟩)
      (hok : d.isTarget f = true → Ok f) :
      Scanning d r Ok fs (fun t => L t ∨ t = f) (.answered d fs found f keep k inputs)

/-- These are the dynamic dependencies of the rule. -/
def Scanned (d : Desc) (r : Rule) (Ok : Name → Prop) (fs : FS) (dyn : List Name) : Prop :=
  match r.dyndep with
  | none => dyn = []
  | some _ => ∃ L, Scanning d r Ok fs L ⟨dyn, .done, []⟩

section
variable {Ok Ok' L L' : Name → Prop} {found dyn inputs : List Name} {f : Name} {keep : FS → Bool}
  {k : Bool → Scan}

theorem Scan.Local.mono {prog : Scan} (h : prog.Local d scratch L) (hL : ∀ t, L t → L' t) :
    prog.Local d scratch L' := by
  induction h generalizing L' with
  | done => exact .done
  | peek hk _ ih =>
    exact .peek (fun fs fs' hagree => hk fs fs' (hagree.mono fun t ht _ => hL t ht))
      fun fs => ih fs hL
  | @lookup L f keep k hf hkeep _ ih =>
    have hL' : ∀ t, L t ∨ t = f → L' t ∨ t = f := fun t ht => ht.imp_left (hL t)
    exact .lookup hf (fun fs fs' hagree => hkeep fs fs' (hagree.mono fun t ht _ => hL' t ht))
      fun b => ih b hL'

/-- What holds of every point that a scan comes to. -/
structure ScanPoint.Held (d : Desc) (scratch : Path → Prop) (r : Rule) (Ok L : Name → Prop)
    (σ : ScanPoint) : Prop where
  left : ∀ i ∈ σ.inputs, i ∈ r.inputs
  depends : ∀ t ∈ r.depends, L t
  scan : σ.prog.Local d scratch L
  ok : ∀ t, L t → d.isTarget t = true → t ∈ r.depends ∨ Ok t
  needs : ∀ t, σ.prog.Looks t → r.NeedsName t
  found : ∀ t ∈ σ.found, r.NeedsName t

theorem Scanning.held (hd : Unshared d scratch) (hr : r ∈ d.rules) {σ : ScanPoint}
    (h : Scanning d r Ok fs L σ) : σ.Held d scratch r Ok L := by
  induction h with
  | start => exact ⟨fun _ h => h, fun _ h => h, .done, fun _ h _ => .inl h, nofun, nofun⟩
  | @input L found i inputs dyndep _ hdyndep ih =>
    have hi : i ∈ r.inputs := ih.left i List.mem_cons_self
    refine ⟨fun j hj => ih.left j (List.mem_cons_of_mem _ hj), ih.depends,
      (hd.scans r hr dyndep hdyndep i hi).mono ih.depends, ih.ok,
      fun t ht => .inr ⟨dyndep, hdyndep, i, hi, .inr ht⟩, fun t ht => ?_⟩
    exact (List.mem_append.mp ht).elim (ih.found t) fun ht => .inr ⟨dyndep, hdyndep, i, hi, .inl ht⟩
  | peek _ ih =>
    cases ih.scan with
    | peek _ hlocal =>
      exact ⟨ih.left, ih.depends, hlocal _, ih.ok, fun t ht => ih.needs t (.peek _ ht), ih.found⟩
  | lookup _ hok ih =>
    cases ih.scan with
    | lookup _ _ hlocal =>
      refine ⟨ih.left, fun t ht => .inl (ih.depends t ht), hlocal _, ?_,
        fun t ht => ih.needs t (.later _ ht), fun t ht => ?_⟩
      · rintro t (ht | rfl) htarget
        · exact ih.ok t ht htarget
        · exact .inr (hok htarget)
      · unfold ScanPoint.answered at ht
        dsimp only at ht
        split at ht
        · exact (List.mem_append.mp ht).elim (ih.found t)
            fun ht => List.mem_singleton.mp ht ▸ ih.needs _ .here
        · exact ih.found t ht

/-- A scan that has come to a point has also come to it when other files have changed, and other
targets have been built. -/
theorem Scanning.mono (hd : Unshared d scratch) (hr : r ∈ d.rules) {σ : ScanPoint}
    (h : Scanning d r Ok fs L σ) (hOk : ∀ t, Ok t → Ok' t) (hdep : ∀ t ∈ r.depends, Ok t)
    (hagree : AgreeOn d scratch Ok fs fs') : Scanning d r Ok' fs' L σ := by
  induction h with
  | start => exact .start
  | input _ hdyndep ih => exact .input ih hdyndep
  | peek h ih =>
    have hheld := h.held hd hr
    cases hheld.scan with
    | peek hk _ =>
      have := Scanning.peek ih
      rwa [hk fs fs' (hagree.mono fun t ht htarget => (hheld.ok t ht htarget).elim (hdep t) id)] at this
  | @lookup L found f keep k inputs h hok ih =>
    have hheld := h.held hd hr
    cases hheld.scan with
    | lookup hf hkeep _ =>
      have hnext := Scanning.lookup ih fun ht => hOk _ (hok ht)
      have hfile := hd.scanFile hr (hheld.needs f .here) hf hagree hok
      have hexists : fs'.exists? (d.scanFile f) = fs.exists? (d.scanFile f) := by
        rw [FS.exists?, FS.exists?, FS.stat, FS.stat, hfile]
      have hsame : keep fs' = keep fs := by
        refine hkeep fs fs' (hagree.mono ?_)
        rintro t (ht | rfl) htarget
        · exact (hheld.ok t ht htarget).elim (hdep t) id
        · exact hok htarget
      rw [ScanPoint.answered, hexists, hsame] at hnext
      exact hnext

theorem Scanned.mono (hd : Unshared d scratch) (hr : r ∈ d.rules) (h : Scanned d r Ok fs dyn)
    (hOk : ∀ t, Ok t → Ok' t) (hdep : ∀ t ∈ r.depends, Ok t)
    (hagree : AgreeOn d scratch Ok fs fs') : Scanned d r Ok' fs' dyn := by
  unfold Scanned at h ⊢
  split at h
  · exact h
  · obtain ⟨L, h⟩ := h
    exact ⟨L, h.mono hd hr hOk hdep hagree⟩

/-- The dynamic dependencies of a rule are names that it needs. -/
theorem Scanned.needs (hd : Unshared d scratch) (hr : r ∈ d.rules) (h : Scanned d r Ok fs dyn) :
    ∀ t ∈ dyn, r.NeedsName t := by
  unfold Scanned at h
  split at h
  · rw [h]
    nofun
  · obtain ⟨L, h⟩ := h
    exact (h.held hd hr).found

/-! ## One way only -/

theorem ScanStep.rightUnique (d : Desc) (r : Rule) (Ok : Name → Prop) (fs : FS) :
    Relator.RightUnique (ScanStep d r Ok fs) := by
  intro σ τ τ' h h'
  cases h with
  | input hdyndep =>
    cases h' with
    | input hdyndep' =>
      obtain rfl := Option.some.inj (hdyndep.symm.trans hdyndep')
      rfl
  | peek =>
    cases h'
    rfl
  | lookup =>
    cases h'
    rfl

theorem Scanning.path {σ : ScanPoint} (h : Scanning d r Ok fs L σ) :
    ReflTransGen (ScanStep d r Ok fs) ⟨[], .done, r.inputs⟩ σ := by
  induction h with
  | start => exact .refl
  | input _ hdyndep ih => exact ih.tail (.input hdyndep)
  | peek _ ih => exact ih.tail .peek
  | lookup _ hok ih => exact ih.tail (.lookup hok)

/-- From every point that a scan comes to it goes on to its end. -/
theorem Scanning.to_end {σ : ScanPoint} (h : Scanning d r Ok fs L σ)
    (hend : Scanning d r Ok fs L' ⟨dyn, .done, []⟩) :
    ReflTransGen (ScanStep d r Ok fs) σ ⟨dyn, .done, []⟩ := by
  rcases ReflTransGen.total_of_right_unique (ScanStep.rightUnique d r Ok fs) h.path hend.path with
    h | h
  · exact h
  · rcases h.cases_head with rfl | ⟨τ, hτ, -⟩
    · exact .refl
    · cases hτ

/-- A target that it looks up on its way is one that it may look up. -/
theorem Scanning.ok_of_lookup (h : Scanning d r Ok fs L ⟨found, .lookup f keep k, inputs⟩)
    (hend : Scanning d r Ok fs L' ⟨dyn, .done, []⟩) (ht : d.isTarget f = true) : Ok f := by
  rcases (h.to_end hend).cases_head with he | ⟨τ, hτ, -⟩
  · cases he
  · cases hτ with
    | lookup hok => exact hok ht

/-- What it finds is what is found in this file tree. -/
theorem Scanning.eq_of_done (h : Scanning d r Ok fs L ⟨found, .done, []⟩)
    (hend : Scanning d r Ok fs L' ⟨dyn, .done, []⟩) : found = dyn := by
  rcases (h.to_end hend).cases_head with he | ⟨τ, hτ, -⟩
  · exact congrArg ScanPoint.found he
  · cases hτ

end
end Tmake
