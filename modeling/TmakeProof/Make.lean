import TmakeProof.Orphans
import TmakeProof.Respect

/-! # A run of tmake

The procedure `make`, from the point where the spec files have been parsed:
before each requested target that does not clean, the `Load` files are built,
and if one of them has changed the saved state is restored and the project is
parsed again; then the orphans are deleted and the target is built.

Parsing is a function of the tree (`Project`).  What it leaves, the description,
is part of the state of this level (`Make`), beside the state of the engine.
-/
namespace Tmake
open Weakest

/-- A project and the command line.  `parse` is what parsing the spec files comes to in a tree,
`none` if it fails; the number stands for whatever else the scripts in them ask. -/
structure Project where
  parse : Nat → FS → Option Desc
  /-- 1 with `--dry-run`, more for a quiet one. -/
  norun : Nat := 0

/-- What is on the disk between two runs: the tree, and `.makecache` if it can be read. -/
structure Disk where
  fs : FS
  makecache : Option Cache := none

/-- The state of `make`. -/
structure Make where
  desc : Desc
  world : World

abbrev MakeM := EStateM Stop Make

/-- A procedure of the engine. -/
def engine {α : Type} (m : Desc → M α) : MakeM α := fun s =>
  match m s.desc s.world with
  | .ok a w => .ok a { s with world := w }
  | .error e w => .error e { s with world := w }

@[simp] theorem wp_engine {α : Type} (m : Desc → M α) (Q : α → Make → Prop)
    (X : Stop → Make → Prop) (s : Make) :
    wp (engine m) Q X s ↔
      wp (m s.desc) (fun a w => Q a { s with world := w }) (fun e w => X e { s with world := w })
        s.world := by
  unfold wp engine
  cases m s.desc s.world <;> rfl

/-- The state when a moment has been remembered. -/
def Make.note (s : Make) (e : Event) : Make :=
  { s with world := { s.world with trace := ⟨e, s.world.toCore⟩ :: s.world.trace } }

theorem wp_emit (e : Desc → Event) (Q : Unit → Make → Prop) (X : Stop → Make → Prop) (s : Make) :
    wp (engine fun d => emit (e d)) Q X s ↔ Q ⟨⟩ (s.note (e s.desc)) := by
  rw [wp_engine]
  rfl

theorem history_note (s : Make) (e : Event) :
    (s.note e).world.history = ⟨e, s.world.toCore⟩ :: s.world.history := rfl

/-! ## `Load` files -/

variable (P : Project) (E : Env) (n : Nat)

/-- The loop over the `Load` files; `reload` is set when one of them was built.  A file that
fails after something has been reported ends the loop only. -/
def loadPass : List (Name × Bool) → Bool → MakeM Bool
  | [], reload => return reload
  | (t, nocare) :: files, reload => do
    let s ← get
    if nocare && !s.desc.isTarget t then loadPass files reload
    else
      let status ← engine fun d => buildSync d E n t
      engine fun _ => emit (.loaded t status)
      if status = .failed then
        let s ← get
        if s.world.exitcode = 0 then engine fun d => buildFatalError d .loadFailed
        else return reload
      else loadPass files (reload || (status = .built && s.desc.norun = 0))

def setIgnoreforce (b : Bool) : M Unit := modify fun w => { w with ignoreforce := b }

/-- One round of the loop that reloads. -/
def loadFiles : MakeM Bool := do
  engine fun _ => setIgnoreforce true
  let s ← get
  engine fun d => emit (.loads d)
  let reload ← loadPass E n s.desc.projfiles false
  engine fun _ => setIgnoreforce false
  return reload

/-- `set tmake $tmake_save`: what was built and asked for so far is forgotten, and with it the
table of jobs; the cache is not part of it. -/
def World.restore (w : World) : World :=
  { precache := w.precache, cache := w.cache, fs := w.fs, tick := w.tick,
    past := w.trace ++ w.past }

/-- `load-build-description`. -/
def loadBuildDescription : MakeM Unit := do
  let s ← get
  let parsed ← engine fun _ => ask fun tick => P.parse tick s.world.fs
  match parsed with
  | some d => modify fun s => { s with desc := { d with norun := P.norun } }
  | none => engine fun _ => tclError

/-- The state is restored and the project parsed again. -/
def reload : MakeM Unit := do
  engine fun _ => do
    emit .reloaded
    modify World.restore
  loadBuildDescription P

/-- The loop that reloads, with the number of reloads that are left. -/
def loadLoop : Nat → MakeM Unit
  | 0 => do
    if ← loadFiles E n then engine fun d => buildFatalError d .loadUnstable else pure ()
  | left + 1 => do
    if ← loadFiles E n then
      reload P
      loadLoop left
    else pure ()

/-! ## The requested targets -/

/-- What comes before a requested target is built; the result is whether it cleans. -/
def prepareTarget (target : Name) : MakeM Bool := do
  engine fun _ => modify fun w => { w with addtargets := [] }
  let s ← get
  if target ∈ s.desc.cleanTargets then
    engine fun _ => modify fun w => { w with cleaning := true }
    return true
  else
    loadLoop P E n 5
    let s ← get
    engine fun d => doDeleteOrphans d E (getOrphanTargets d s.world.cache)
    return false

/-- After cleaning, or when a script has asked for it, every rule is looked at afresh. -/
def resetStatuses (d : Desc) : M Unit := do
  let w ← get
  if w.cleaning || w.resetstatus then
    modify fun w => { w with
      cleaning := false
      resetstatus := false
      rulestatus := fun r => if d.isRule r then .unknown else w.rulestatus r
      trace := []
      past := w.trace ++ w.past }
  else pure ()

/-- What follows if the requested target could not be built. -/
def targetFailed (d : Desc) : M Unit := do
  let w ← get
  buildErrorIf d (w.exitcode = 0)
  if d.quickstop then
    let w ← get
    tmakeExit w.exitcode .quickstop
  else pure ()

/-- One requested target. -/
def makeTarget (target : Name) : MakeM Status := do
  let clean ← prepareTarget P E n target
  engine fun _ => emit (.request target clean)
  let status ← engine fun d => buildSync d E n target
  if status = .failed then engine fun d => targetFailed d else engine fun d => resetStatuses d
  return status

/-- The targets that `add-build-targets` has added, each once. -/
def newTargets (targets : List Name) : List Name → List Name → List Name
  | [], new => new
  | t :: ts, new => newTargets targets ts (if t ∈ targets || t ∈ new then new else new ++ [t])

/-- The loop over the requested targets; the first argument bounds their number. -/
def makeLoop : Nat → List Name → MakeM Unit
  | _, [] => pure ()
  | 0, _ => throw .fuel
  | k + 1, target :: targets => do
    let s ← get
    if s.world.exitcode ≠ 0 then pure ()
    else
      let status ← makeTarget P E n target
      if status = .failed then pure ()
      else
        let s ← get
        makeLoop k (newTargets targets s.world.addtargets [] ++ targets)

/-! ## A whole run -/

/-- `load-cache`: what a run finds in `.makecache`. -/
def loadCache (d : Desc) (saved : Option Cache) : Cache :=
  let c := { saved.getD {} with writecache := false }
  if !d.checkexternalcmds && !c.exec.entries.isEmpty then { c with exec := ∅, writecache := true }
  else c

/-- `write-cache`: what a run leaves in `.makecache`. -/
def writeCache (d : Desc) (saved : Option Cache) (c : Cache) : Option Cache :=
  if !c.writecache then saved
  else if d.norun ≠ 0 then saved
  else if d.isroot && saved.isNone then saved
  else some { c with writecache := false }

/-- The state in which the first target is begun. -/
def Make.start (d : Desc) (tick : Nat) (D : Disk) : Make :=
  { desc := d, world := { fs := D.fs, cache := loadCache d D.makecache, tick } }

/-- The state in which tmake ends: `tmake-exit` has waited for the jobs. -/
def Make.exit (E : Env) (s : Make) : Make := { s with world := atExit s.desc E s.world }

/-- A run of tmake on the requested targets, up to its end. -/
def runMake (k : Nat) (targets : List Name) (d : Desc) (tick : Nat) (D : Disk) : Make :=
  (final (makeLoop P E n k targets) (Make.start d tick D)).exit E

/-- What a run leaves on the disk. -/
def runDisk (k : Nat) (targets : List Name) (tick : Nat) (D : Disk) : Disk :=
  match P.parse tick D.fs with
  | none => D
  | some d =>
    let s := runMake P E n k targets { d with norun := P.norun } (tick + 1) D
    { fs := s.world.fs, makecache := writeCache s.desc D.makecache s.world.cache }

/-! ## What a run preserves -/

/-- The operations of `make` preserve `I`, or stop in `J`. -/
structure Maintained (P : Project) (E : Env) (n : Nat) (I J : Make → Prop) : Prop where
  stop : ∀ s, I s → J s
  ignoreforce : ∀ b, Preserves I J (engine fun _ => setIgnoreforce b)
  addtargets : Preserves I J (engine fun _ => modify fun w => { w with addtargets := [] })
  cleaning : Preserves I J (engine fun _ => modify fun w => { w with cleaning := true })
  loads : Preserves I J (engine fun d => emit (.loads d))
  build : ∀ t, Preserves I J (engine fun d => buildSync d E n t)
  loaded : ∀ t st, Preserves I J (engine fun _ => emit (.loaded t st))
  fatal : ∀ {α : Type} (why : Why), Preserves I J (engine fun d => buildFatalError d why : MakeM α)
  reload : Preserves I J (reload P)
  orphans : ∀ orphans : Desc → List Name,
    Preserves I J (engine fun d => doDeleteOrphans d E (orphans d))
  request : ∀ t clean, Preserves I J (engine fun _ => emit (.request t clean))
  failed : Preserves I J (engine fun d => targetFailed d)
  reset : Preserves I J (engine fun d => resetStatuses d)

namespace Maintained
variable {P : Project} {E : Env} {n : Nat} {I J : Make → Prop} (h : Maintained P E n I J)
include h

theorem loadPass (files : List (Name × Bool)) (reload : Bool) :
    Preserves I J (loadPass E n files reload) := by
  induction files generalizing reload with
  | nil => exact Preserves.pure _
  | cons file files ih =>
    refine Preserves.bind Preserves.get fun s => Preserves.ite (fun _ => ih _) fun _ => ?_
    refine Preserves.bind (h.build _) fun status => Preserves.bind (h.loaded _ _) fun _ => ?_
    refine Preserves.ite (fun _ => ?_) fun _ => ih _
    exact Preserves.bind Preserves.get fun s => Preserves.ite (fun _ => h.fatal _)
      fun _ => Preserves.pure _

theorem loadFiles : Preserves I J (loadFiles E n) :=
  Preserves.bind (h.ignoreforce _) fun _ => Preserves.bind Preserves.get fun _ =>
    Preserves.bind h.loads fun _ => Preserves.bind (h.loadPass _ _) fun _ =>
      Preserves.bind (h.ignoreforce _) fun _ => Preserves.pure _

theorem loadLoop (left : Nat) : Preserves I J (loadLoop P E n left) := by
  induction left with
  | zero =>
    exact Preserves.bind h.loadFiles fun _ => Preserves.ite (fun _ => h.fatal _)
      fun _ => Preserves.pure _
  | succ left ih =>
    exact Preserves.bind h.loadFiles fun _ => Preserves.ite
      (fun _ => Preserves.bind h.reload fun _ => ih) fun _ => Preserves.pure _

theorem prepareTarget (target : Name) : Preserves I J (prepareTarget P E n target) :=
  Preserves.bind h.addtargets fun _ => Preserves.bind Preserves.get fun _ => Preserves.ite
    (fun _ => Preserves.bind h.cleaning fun _ => Preserves.pure _)
    fun _ => Preserves.bind (h.loadLoop 5) fun _ => Preserves.bind Preserves.get fun _ =>
      Preserves.bind (h.orphans fun d => getOrphanTargets d _) fun _ => Preserves.pure _

theorem makeTarget (target : Name) : Preserves I J (makeTarget P E n target) := by
  refine Preserves.bind (h.prepareTarget target) fun clean => ?_
  refine Preserves.bind (h.request target clean) fun _ => Preserves.bind (h.build _) fun status => ?_
  exact Preserves.ite (fun _ => Preserves.bind h.failed fun _ => Preserves.pure _)
    fun _ => Preserves.bind h.reset fun _ => Preserves.pure _

/-- **A run preserves what its operations preserve.** -/
theorem makeLoop (k : Nat) (targets : List Name) : Preserves I J (makeLoop P E n k targets) := by
  induction k generalizing targets with
  | zero =>
    cases targets with
    | nil => exact Preserves.pure _
    | cons target targets => exact h.stop
  | succ k ih =>
    cases targets with
    | nil => exact Preserves.pure _
    | cons target targets =>
      refine Preserves.bind Preserves.get fun s => Preserves.ite (fun _ => Preserves.pure _) fun _ => ?_
      refine Preserves.bind (h.makeTarget target) fun status => ?_
      exact Preserves.ite (fun _ => Preserves.pure _)
        fun _ => Preserves.bind Preserves.get fun s => ih _

/-- So it ends in `J`, up to the jobs that it waits for at its end. -/
theorem final (k : Nat) (targets : List Name) {s : Make} (hs : I s) :
    J (Weakest.final (Tmake.makeLoop P E n k targets) s) :=
  wp_final ((h.makeLoop k targets s hs).imp (fun _ t ht => h.stop t ht) fun _ _ ht => ht)

end Maintained

/-! ## What a run respects -/

/-- Every operation of `make` respects `R`, under descriptions in `A`. -/
structure Upheld (E : Env) (A : Desc → Prop) (R : World → World → Prop) : Prop where
  respected : ∀ d, A d → Respected d E (fun _ => True) R
  ignoreforce : ∀ b, Under R (setIgnoreforce b)
  addtargets : Under R (modify fun w => { w with addtargets := [] } : M Unit)
  cleaning : Under R (modify fun w => { w with cleaning := true } : M Unit)
  loads : ∀ d, Under R (emit (.loads d))
  loaded : ∀ t st, Under R (emit (.loaded t st))
  reloaded : Under R (do emit .reloaded; modify World.restore : M Unit)
  orphans : ∀ d, A d → ∀ orphans, Under R (doDeleteOrphans d E orphans)
  request : ∀ t clean, Under R (emit (.request t clean))
  reset : ∀ d, A d → Under R (resetStatuses d)

/-- The description stays in `A`, and the world is respected. -/
def Along (A : Desc → Prop) (R : World → World → Prop) (s s' : Make) : Prop :=
  A s.desc → A s'.desc ∧ R s.world s'.world

/-- Parsing leads to descriptions in `A`. -/
def Project.Within (P : Project) (A : Desc → Prop) : Prop :=
  ∀ tick fs d, P.parse tick fs = some d → A { d with norun := P.norun }

/-- However `m` ends, it keeps the description in `A` and respects `R`. -/
abbrev UnderAll (A : Desc → Prop) (R : World → World → Prop) {α : Type} (m : MakeM α) : Prop :=
  Within (fun _ => False) (Along A R) m

section Along
variable {A : Desc → Prop} {R : World → World → Prop} [IsPreorder World R]

instance : IsPreorder Make (Along A R) where
  refl s h := ⟨h, refl_of R s.world⟩
  trans _ _ _ h h' ha := ⟨(h' (h ha).1).1, trans_of R (h ha).2 (h' (h ha).1).2⟩

omit [IsPreorder World R] in
theorem engine_along {α : Type} {m : Desc → M α} (hm : ∀ d, A d → Under R (m d)) :
    UnderAll A R (engine m) := by
  intro s
  rw [wp_engine]
  by_cases ha : A s.desc
  · exact (hm s.desc ha s.world).imp (fun _ _ h _ => ⟨ha, h⟩) fun _ _ h => ⟨id, fun _ => ⟨ha, h.2⟩⟩
  · exact (wp_trivial _ _).imp (fun _ _ _ h => absurd h ha) fun _ _ _ => ⟨id, fun h => absurd h ha⟩

end Along

namespace Upheld
variable {P : Project} {E : Env} {A : Desc → Prop} {R : World → World → Prop}
  [IsPreorder World R] (h : Upheld E A R)
include h

theorem loadBuildDescription (hP : P.Within A) : UnderAll A R (loadBuildDescription P) := by
  intro s
  unfold Tmake.loadBuildDescription
  rw [wp_bind, wp_get, wp_bind]
  have hask : UnderAll A R (engine fun _ => ask fun tick => P.parse tick s.world.fs) :=
    engine_along fun d hd => (h.respected d hd).ask _
  -- a description that has been parsed is one that parsing leads to
  have hval : wp (engine fun _ => ask fun tick => P.parse tick s.world.fs)
      (fun parsed _ => parsed = P.parse s.world.tick s.world.fs) (fun _ _ => True) s := rfl
  refine (hask s).and hval |>.imp ?_ fun _ _ h => h.1
  rintro parsed s₁ ⟨hs₁, hparsed⟩
  cases parsed with
  | none =>
    exact ((engine_along fun d hd => (h.respected d hd).tclError : UnderAll A R _) s₁).imp
      (fun _ _ h => trans_of (Along A R) hs₁ h) fun _ _ h => ⟨h.1, trans_of (Along A R) hs₁ h.2⟩
  | some d => exact fun ha => ⟨hP _ _ d hparsed.symm, (hs₁ ha).2⟩

theorem reload (hP : P.Within A) : UnderAll A R (reload P) :=
  Within.bind (engine_along fun _ _ => h.reloaded) fun _ => h.loadBuildDescription hP

theorem targetFailed {d : Desc} (hd : A d) : Under R (targetFailed d) :=
  Within.bind Within.get fun _ => Within.bind ((h.respected d hd).errorIf _) fun _ =>
    Within.ite (fun _ => Within.bind Within.get fun _ => (h.respected d hd).exit _ _)
      fun _ => Within.pure _

/-- The relation to a state is preserved. -/
theorem maintained (hP : P.Within A) (n : Nat) (s : Make) :
    Maintained P E n (Along A R s) (Along A R s) where
  stop _ h := h
  ignoreforce b := (engine_along fun _ _ => h.ignoreforce b).preserves s
  addtargets := (engine_along fun _ _ => h.addtargets).preserves s
  cleaning := (engine_along fun _ _ => h.cleaning).preserves s
  loads := (engine_along fun d _ => h.loads d).preserves s
  build t := (engine_along fun d hd =>
    (h.respected d hd).buildSync d.closed_all n (t := t) trivial).preserves s
  loaded t st := (engine_along fun _ _ => h.loaded t st).preserves s
  fatal why := (engine_along fun d hd => (h.respected d hd).fatal why).preserves s
  reload := (h.reload hP).preserves s
  orphans orphans := (engine_along fun d hd => h.orphans d hd (orphans d)).preserves s
  request t clean := (engine_along fun _ _ => h.request t clean).preserves s
  failed := (engine_along fun _ hd => h.targetFailed hd).preserves s
  reset := (engine_along fun d hd => h.reset d hd).preserves s

/-- **A run respects what its operations respect**, up to the jobs that it waits for at its
end. -/
theorem runMake (hP : P.Within A) {d : Desc} (hd : A d) (n k : Nat) (targets : List Name)
    (tick : Nat) (D : Disk) :
    let s := runMake P E n k targets d tick D
    A s.desc ∧ R (Make.start d tick D).world s.world := by
  let s₀ := Make.start d tick D
  obtain ⟨ha, hr⟩ := (h.maintained hP n s₀).final k targets (refl_of (Along A R) s₀) hd
  exact ⟨ha, trans_of R hr ((h.respected _ ha).atExit _)⟩

end Upheld

end Tmake
