import TmakeProof.Loading

/-! # The moves of the loading phase

What one command can do to the state (`Move`), and from it what spec code and the
loaders can do (`Moves`): every invariant of the loading phase is an invariant of
the moves.  Spec code makes no other moves than the inner ones; the loaders note
in the trace what they load, and take the subdirectories that were set.  Spec code
that stands in a directory is loaded only after the prolog of the rulebase.
-/
namespace Tmake.Loading
open ReturnCodes Weakest

/-- The directory a piece stands in, if it is processed like one. -/
def Piece.dir : Piece → Option Path
  | spec dir _ => some dir
  | block dir => some dir
  | _ => none

/-- What spec code itself notes in the trace. -/
def Event.Inner : Event → Prop
  | invoked (.block _) | ended (.block _) _ | listed _ => True
  | _ => False

/-- The directory that the code which is loaded stands in. -/
def Event.inside : Event → Option Path
  | invoked p => p.dir
  | _ => none

/-- One change of the state, with nothing noted but what `A` allows. -/
inductive Move (P : Sources) (A : Event → Prop) : Load → Load → Prop where
  | vars {s : Load} (vars : Parse) (frame globals : Dict String String) (toplevel : Bool) :
      Move P A s { s with vars, frame, globals, toplevel }
  | target {s : Load} {c : TargetCommand} {base : RuleBase}
      (h : Tmake.target P.elements c s.base = some base) : Move P A s { s with base }
  | settings {s : Load} (autosubdirs : Bool) (skipsubdirs : List Path) (deferred : List Code) :
      Move P A s { s with autosubdirs, skipsubdirs, deferred }
  | subDirs {s : Load} {dirs : List Path} (h : A (.listed dirs))
      (hdirs : ∀ dir ∈ dirs, (P.buildSpec dir).isSome = true) :
      Move P A s ({ s with subdirs := s.subdirs ++ dirs }.note (.listed dirs))
  | takeSubdirs {s : Load} {dir : Path} (h : A (.subdirs dir s.subdirs s.autosubdirs)) :
      Move P A s ({ s with subdirs := [] }.note (.subdirs dir s.subdirs s.autosubdirs))
  | invoked {s : Load} {p : Piece} (h : A (.invoked p)) : Move P A s (s.note (.invoked p))
  | ended {s : Load} {p : Piece} {rc : Option Exit} (h : A (.ended p rc)) :
      Move P A s (s.note (.ended p rc))

/-- The states that a run which has begun in `Init` goes through. -/
inductive Reached (P : Sources) (A : Event → Prop) (Init : Load → Prop) : Load → Prop where
  | init {s : Load} (h : Init s) : Reached P A Init s
  | move {s t : Load} (h : Reached P A Init s)
      (hmove : Move P (fun e => A e ∧ e.inside = none) s t) : Reached P A Init t
  /-- Code is loaded in a directory that was entered in the state `s`, and the prolog has left the
  rule base as it is. -/
  | invoked {n : Nat} {s t u : Load} {p : Piece} {dir : Path} (h : A (.invoked p))
      (hdir : p.dir = some dir) (hs : Reached P A Init s)
      (hprolog : P.hook n .prolog (s.enter dir) = .ok () t) (hu : Reached P A Init u)
      (hbase : u.base = t.base) : Reached P A Init (u.note (.invoked p))

/-- Any number of moves. -/
def Moves (P : Sources) (A : Event → Prop) (s t : Load) : Prop :=
  ∀ Init : Load → Prop, Reached P A Init s → Reached P A Init t

/-- However a program ends, it has made only such moves. -/
abbrev MovesOnly {α : Type} (P : Sources) (A : Event → Prop) (m : M α) : Prop :=
  Within (fun _ => False) (Moves P A) m

section
variable {P : Sources} {A B : Event → Prop} {s t u : Load}

theorem Moves.refl (s : Load) : Moves P A s s := fun _ h => h

theorem Moves.trans (h : Moves P A s t) (h' : Moves P A t u) : Moves P A s u :=
  fun Init hs => h' Init (h Init hs)

instance : IsPreorder Load (Moves P A) where
  refl := Moves.refl
  trans _ _ _ := Moves.trans

theorem Moves.single (h : Move P (fun e => A e ∧ e.inside = none) s t) : Moves P A s t :=
  fun _ hs => hs.move h

theorem Moves.tail (h : Moves P A s t) (h' : Move P (fun e => A e ∧ e.inside = none) t u) :
    Moves P A s u :=
  h.trans (Moves.single h')

/-- Code is loaded in a directory after the prolog. -/
theorem Moves.invoked {n : Nat} {p : Piece} {dir : Path} (h : Moves P A s u) (hA : A (.invoked p))
    (hdir : p.dir = some dir) (hprolog : P.hook n .prolog (s.enter dir) = .ok () t)
    (hbase : u.base = t.base) : Moves P A s (u.note (.invoked p)) :=
  fun Init hs => .invoked hA hdir hs hprolog (h Init hs) hbase

theorem Move.mono (h : Move P A s t) (hAB : ∀ e, A e → B e) : Move P B s t := by
  cases h with
  | vars => exact .vars _ _ _ _
  | target h => exact .target h
  | settings => exact .settings _ _ _
  | subDirs h hdirs => exact .subDirs (hAB _ h) hdirs
  | takeSubdirs h => exact .takeSubdirs (hAB _ h)
  | invoked h => exact .invoked (hAB _ h)
  | ended h => exact .ended (hAB _ h)

/-- An invariant of the moves. -/
theorem Moves.inv {I : Load → Prop} (hI : ∀ s t, Move P A s t → I s → I t) (h : Moves P A s t)
    (hs : I s) : I t := by
  have hreached : Reached P A I t := h I (.init hs)
  clear h
  induction hreached with
  | init h => exact h
  | move _ hmove ih => exact hI _ _ (hmove.mono fun _ h => h.1) ih
  | invoked hA hdir _ _ _ _ _ ih => exact hI _ _ (.invoked hA) ih

theorem Moves.enter (dir : Path) (s : Load) : Moves P A s (s.enter dir) :=
  Moves.single (.vars _ s.frame s.globals s.toplevel)

theorem Moves.leave (dir : Path) (saved s : Load) : Moves P A s (Load.leave dir saved s) :=
  Moves.single (.vars _ _ s.globals s.toplevel)

end

variable {P : Sources} {A : Event → Prop} {α : Type}

/-! ## Scopes and stack frames -/

theorem inScope_apply {α : Type} (dir : Path) (script : M α) (s : Load) :
    inScope dir script s =
      match script (s.enter dir) with
      | .ok a t => .ok a (Load.leave dir s t)
      | .error e t => .error e t := by
  have hbind : inScope dir script s =
      (script >>= fun result => (do
        modify (Load.leave dir s)
        return result : M α)) (s.enter dir) := rfl
  rw [hbind]
  cases hrun : script (s.enter dir) with
  | ok a t => exact bind_of_ok hrun
  | error e t => exact bind_error_iff.mpr (Or.inl hrun)

@[simp] theorem wp_inScope (dir : Path) (script : M α) (Q : α → Load → Prop)
    (E : Exit → Load → Prop) (s : Load) :
    wp (inScope dir script) Q E s ↔
      wp script (fun a t => Q a (Load.leave dir s t)) E (s.enter dir) := by
  simp only [inScope, wp_bind, wp_get, wp_set]
  exact Iff.rfl

theorem inScope_moves {dir : Path} {script : M α} (h : MovesOnly P A script) :
    MovesOnly P A (inScope dir script) := by
  intro s
  rw [wp_inScope]
  refine (h (s.enter dir)).imp (fun a t ht => ?_) fun e t ht => ?_
  · exact ((Moves.enter dir s).trans ht).trans (Moves.leave dir s t)
  · exact ⟨ht.1, (Moves.enter dir s).trans ht.2⟩

theorem scope_moves {dir : Path} {script : M Unit} (h : MovesOnly P A script) :
    MovesOnly P A (scope dir script) := by
  refine Within.proc (Within.bind Within.get fun s => Within.bind (inScope_moves h) fun _ => ?_)
  exact Within.ite (fun _ => Within.throw not_false) fun _ => Within.pure ()

theorem runDo_moves {script : M Unit} (h : MovesOnly P A script) : MovesOnly P A (runDo script) := by
  intro s
  simp only [runDo, wp_bind, wp_get, wp_set]
  have hin : Moves P A s { s with frame := s.vars.values, toplevel := false } :=
    Moves.single (.vars _ _ s.globals false)
  refine ((Within.caught h) _).imp (fun rc t ht => ?_) fun e t ht => ⟨ht.1, hin.trans ht.2⟩
  exact (hin.trans ht).tail (.vars t.vars _ t.globals _)

theorem invokeSpecFile_moves {p : Piece} {script : M Unit} (h : MovesOnly P A script)
    (hended : ∀ rc, A (.ended p rc)) {s₀ s : Load} (hin : Moves P A s₀ (s.note (.invoked p))) :
    wp (invokeSpecFile p script) (fun _ => Moves P A s₀) (fun _ => Moves P A s₀) s := by
  simp only [invokeSpecFile, wp_bind, wp_modify]
  refine ((runDo_moves h) _).imp (fun rc t ht => ?_) fun e t ht => hin.trans ht.2
  exact (hin.trans ht).tail (.ended ⟨hended rc, rfl⟩)

theorem atToplevel_moves {p : Piece} {script : M Unit} (h : MovesOnly P A script)
    (hended : ∀ rc, A (.ended p rc)) : MovesOnly P A (atToplevel p script) := by
  intro s
  have hin : Moves P A s { s with frame := s.globals, toplevel := true } :=
    Moves.single (.vars _ _ s.globals true)
  have hrun := h { s with frame := s.globals, toplevel := true }
  unfold wp atToplevel
  unfold wp at hrun
  cases hscript : script { s with frame := s.globals, toplevel := true } with
  | ok u t =>
    rw [hscript] at hrun
    exact ((hin.trans hrun).tail (.vars t.vars _ _ _)).tail (.ended ⟨hended _, rfl⟩)
  | error e t =>
    rw [hscript] at hrun
    exact ⟨not_false, ((hin.trans hrun.2).tail (.vars t.vars _ _ _)).tail (.ended ⟨hended _, rfl⟩)⟩

/-! ## Spec code -/

theorem subDirs_moves (hA : ∀ e, e.Inner → A e) (dirs : List Path) :
    MovesOnly P A (subDirs P dirs) := by
  refine Within.ite (fun h => ?_) fun _ => Within.throw not_false
  exact Within.modify fun s =>
    Moves.single (.subDirs ⟨hA _ trivial, rfl⟩ (List.all_eq_true.mp h))

theorem runBlock_moves (hA : ∀ e, e.Inner → A e) {n : Nat}
    (hhook : ∀ h, MovesOnly P A (P.hook n h)) (dir : Path) {code : M Unit}
    (h : MovesOnly P A code) : MovesOnly P A (runBlock (P.hook n) dir code) := by
  intro s
  have hin := Moves.enter (P := P) (A := A) dir s
  unfold runBlock
  rw [wp_inScope, wp_bind]
  refine ((hhook .prolog _).and (wp_self _ _)).imp (fun _ t ht => ?_)
    fun e t ht => ⟨ht.1.1, hin.trans ht.1.2⟩
  have hinvoked : Moves P A s (t.note (.invoked (.block dir))) :=
    (hin.trans ht.1).invoked (hA _ trivial) rfl ht.2 rfl
  rw [wp_bind]
  refine (invokeSpecFile_moves h (fun rc => hA (.ended (.block _) rc) trivial) hinvoked).imp
    (fun rc u hu => ?_) fun e u hu => ⟨not_false, hu⟩
  rw [wp_bind]
  refine (hhook .epilog u).imp (fun _ v hv => ?_)
    fun e v hv => ⟨hv.1, hu.trans hv.2⟩
  exact (hu.trans hv).trans (Moves.leave _ _ _)

theorem virtualSubDir_moves (hA : ∀ e, e.Inner → A e) {n : Nat}
    (hhook : ∀ h, MovesOnly P A (P.hook n h)) (dir : Path) (empty : Bool) {code : M Unit}
    (h : MovesOnly P A code) : MovesOnly P A (virtualSubDir (P.hook n) dir empty code) := by
  have hskip : ∀ dir : Path, MovesOnly P A
      (modify fun s => { s with skipsubdirs := dir :: s.skipsubdirs }) := fun dir =>
    Within.modify fun s => Moves.single (.settings s.autosubdirs _ s.deferred)
  refine Within.bind Within.get fun s => Within.ite (fun _ => hskip _) fun _ => ?_
  refine Within.bind (runBlock_moves hA hhook _ h) fun rc => ?_
  refine Within.ite (fun _ => Within.throw not_false) fun _ => ?_
  exact Within.ite (fun _ => hskip _) fun _ => Within.pure ()

/-- A script makes inner moves. -/
theorem Code.run_moves (hA : ∀ e, e.Inner → A e) {n : Nat}
    (hhook : ∀ h, MovesOnly P A (P.hook n h)) (c : Code) : MovesOnly P A (c.run P (P.hook n)) := by
  induction c with
  | empty | done => exact Within.pure ()
  | exit e => exact Within.throw not_false
  | set name value rest ih | unset name rest ih =>
    refine Within.bind (Within.modify fun s => ?_) fun _ => ih
    exact Moves.single (.vars s.vars _ s.globals s.toplevel)
  | var name k ih | getDefine name k ih | localDir k ih | inspect k ih =>
    exact Within.bind Within.get fun s => by apply ih
  | define c rest ih =>
    refine Within.bind (Within.modify fun s => ?_) fun _ => ih
    exact Moves.single (.vars _ _ s.globals s.toplevel)
  | target ruletarget args source rest ih =>
    intro s
    simp only [Code.run, wp_bind, wp_get]
    cases htarget : s.target P ruletarget args source with
    | none => exact ⟨not_false, Moves.refl _⟩
    | some base =>
      have hmove : Moves P A s { s with base } := Moves.single (.target htarget)
      simp only [wp_bind, wp_modify]
      exact (ih _).imp (fun _ t ht => hmove.trans ht) fun e t ht => ⟨ht.1, hmove.trans ht.2⟩
  | subDirs dirs rest ih => exact Within.bind (subDirs_moves hA dirs) fun _ => ih
  | autoSubDirs onoff rest ih | addDeferredAction action rest _ ih =>
    refine Within.bind (Within.modify fun s => ?_) fun _ => ih
    exact Moves.single (.settings _ s.skipsubdirs _)
  | scope dir script rest ihscript ih => exact Within.bind (scope_moves ihscript) fun _ => ih
  | virtualSubDir dir code rest ihcode ih =>
    exact Within.bind (virtualSubDir_moves hA hhook dir _ ihcode) fun _ => ih
  | catching script k ihscript ih => exact Within.bind (Within.caught ihscript) fun rc => ih rc

theorem hook_moves (hA : ∀ e, e.Inner → A e) (n : Nat) (h : Hook) : MovesOnly P A (P.hook n h) := by
  induction n generalizing h with
  | zero => exact Within.throw not_false
  | succ n ih => exact Within.proc (Within.proc (Code.run_moves hA ih _))

/-! ## The loaders -/

theorem invokeHook_moves (hA : ∀ e, e.Inner → A e) {n : Nat} (h : Hook) (top : Bool)
    (hended : ∀ rc, A (.ended (.hook h top) rc)) :
    MovesOnly P A (invokeHook (P.hook n) h top) := by
  intro s
  have hrun := hook_moves (P := P) hA n h s
  unfold wp invokeHook
  unfold wp at hrun
  cases hhook : P.hook n h s with
  | ok u t =>
    rw [hhook] at hrun
    exact hrun.tail (.ended ⟨hended _, rfl⟩)
  | error e t =>
    rw [hhook] at hrun
    exact ⟨not_false, hrun.2.tail (.ended ⟨hended _, rfl⟩)⟩

theorem code_moves (hA : ∀ e, e.Inner → A e) {n : Nat} (c : Code) :
    MovesOnly P A (c.run P (P.hook n)) :=
  Code.run_moves hA (fun h => hook_moves hA n h) c

section
variable (hA : ∀ e, A e) {n : Nat}
include hA

theorem runBuildSpec_moves (dir : Path) (top : Bool) (script : Option Code) :
    MovesOnly P A (runBuildSpec P (P.hook n) dir top script) := by
  intro s
  have hin := Moves.enter (P := P) (A := A) dir s
  unfold runBuildSpec
  rw [wp_inScope, wp_bind]
  refine ((invokeHook_moves (fun e _ => hA e) .prolog top (fun _ => hA _) _).and (wp_self _ _)).imp (fun _ t ht => ?_)
    fun e t ht => ⟨not_false, hin.trans ht.1.2⟩
  have hprolog : ∃ u, P.hook n .prolog (s.enter dir) = .ok () u ∧ t.base = u.base := by
    have hrun := ht.2
    unfold invokeHook at hrun
    split at hrun
    · rename_i u hhook
      cases hrun
      exact ⟨u, hhook, rfl⟩
    · cases hrun
  obtain ⟨u₀, hhook, hbase⟩ := hprolog
  rw [wp_bind]
  have hscript : wp (invokeBuildSpec P (P.hook n) dir top script)
      (fun _ => Moves P A s) (fun _ => Moves P A s) t := by
    cases script with
    | none => exact hin.trans ht.1
    | some code =>
      exact invokeSpecFile_moves (Within.proc (code_moves (fun e _ => hA e) code)) (fun _ => hA _)
        ((hin.trans ht.1).invoked (hA _) rfl hhook hbase)
  refine hscript.imp (fun rc u hu => ?_) fun e u hu => ⟨not_false, hu⟩
  rw [wp_bind]
  refine (invokeHook_moves (fun e _ => hA e) .epilog top (fun _ => hA _) u).imp (fun _ v hv => ?_)
    fun e v hv => ⟨not_false, hu.trans hv.2⟩
  exact (hu.trans hv).trans (Moves.leave _ _ _)

omit hA in
theorem checkReturn_moves (rc : Option Exit) : MovesOnly P A (checkReturn rc) := by
  unfold checkReturn
  split
  · exact Within.pure ()
  · exact Within.pure ()
  · exact Within.pure ()
  · exact Within.throw not_false

omit hA in
theorem checkReturnOrSkip_moves (rc : Option Exit) : MovesOnly P A (checkReturnOrSkip rc) :=
  Within.ite (fun _ => Within.pure ()) fun _ => checkReturn_moves rc

theorem takeSubdirs_moves (dir : Path) : MovesOnly P A (takeSubdirs P dir) :=
  fun _ => Moves.single (.takeSubdirs ⟨hA _, rfl⟩)

theorem processBuildSpecFile_moves (k : Nat) (dir : Path) (top : Bool) :
    MovesOnly P A (processBuildSpecFile P (P.hook n) k dir top) := by
  induction k generalizing dir top with
  | zero => exact Within.throw not_false
  | succ k ih =>
    unfold processBuildSpecFile
    refine Within.ite (fun _ => Within.throw not_false) fun _ => ?_
    refine Within.bind (runBuildSpec_moves hA dir top _) fun rc => ?_
    refine Within.ite (fun _ => Within.pure ()) fun _ => ?_
    refine Within.bind (checkReturn_moves rc) fun _ => ?_
    refine Within.bind (takeSubdirs_moves hA dir) fun subdirs => ?_
    exact Within.foreach (fun d => ih d false) subdirs

theorem loadBuildDescription_moves (k : Nat) :
    MovesOnly P A (loadBuildDescription P (P.hook n) k) := by
  refine Within.proc (Within.bind (fun s => ?_) fun rc => ?_)
  · exact (invokeSpecFile_moves (Within.proc (code_moves (fun e _ => hA e) P.projectSpec))
      (fun _ => hA _) (Moves.single (.invoked ⟨hA (.invoked .project), rfl⟩))).imp (fun _ _ h => h)
      fun _ _ h => ⟨not_false, h⟩
  · refine Within.bind (checkReturnOrSkip_moves rc) fun _ => Within.bind Within.get fun s => ?_
    refine Within.bind (Within.foreach (fun action =>
      atToplevel_moves (code_moves (fun e _ => hA e) action) fun _ => hA _) _) fun _ => ?_
    refine Within.bind (processBuildSpecFile_moves hA k "." true) fun _ => ?_
    refine Within.bind Within.get fun t => ?_
    exact Within.ite (fun _ => Within.throw not_false) fun _ => Within.pure ()

theorem make_moves (k : Nat) : MovesOnly P A (make P (P.hook n) k) := by
  refine Within.bind (fun s => ?_) fun rc => Within.bind (checkReturn_moves rc) fun _ => ?_
  · exact (invokeSpecFile_moves (Within.proc (code_moves (fun e _ => hA e) P.rulebase))
      (fun _ => hA _) (Moves.single (.invoked ⟨hA (.invoked .rulebase), rfl⟩))).imp (fun _ _ h => h)
      fun _ _ h => ⟨not_false, h⟩
  · refine Within.bind (hook_moves (fun e _ => hA e) n .init) fun _ => ?_
    exact loadBuildDescription_moves hA k

end

end Tmake.Loading
