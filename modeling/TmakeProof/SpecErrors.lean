import TmakeProof.LoadMoves

/-! # Errors in spec code

Each loader catches the code that it loads and has to raise an error again by
hand.  `VirtualSubDir` looks only for the skip and drops everything else; a
`break` or `continue` that `process-build-spec-file` raises again for a
subdirectory ends in the `foreach` of the directory above; and the same holds for
a deferred action.  Whatever is not lost on one of these ways ends the loading
phase (`Blame`): as long as every piece of spec code ends in a way that its
loader handles (`Contained`), a piece that does not end normally (`Raised`) lets
tmake exit with a non-zero status.

The trace of a run is no part of the program: programs that differ in it go on
alike (`Unseen`), so that a block can be compared with the file that it stands for.
-/
namespace Tmake.Loading
open ReturnCodes Weakest

/-! ## How a piece ends -/

/-- The codes that are normal ends of a spec file. -/
def accepted : Option Exit → Bool
  | none | some .ret | some (.retCode _) => true
  | some e => e = skip

/-- The code with which a piece has ended.  A block and a deferred action are no files, so that
`return -code` still has to be read. -/
def Piece.code (p : Piece) (rc : Option Exit) : Option Exit :=
  match p with
  | block _ | deferred => rc.bind Exit.leaveProc
  | _ => rc

/-- A piece has ended by an error, or with another code that is no normal end. -/
def Event.Raised : Event → Prop
  | ended p rc => accepted (p.code rc) = false ∧ ∀ status, p.code rc ≠ some (.quit status)
  | _ => False

/-- A code with which a procedure fails, and tmake with it. -/
def Fatal (e : Exit) : Prop := ∃ e', e.leaveProc = some e' ∧ e' ≠ .quit 0

/-- What is loaded from within a `foreach` does not end it. -/
def NoLoop (rc : Option Exit) : Prop := rc ≠ some .brk ∧ rc ≠ some .cont

/-- A piece has ended in a way that its loader handles: a block normally, and what is loaded from
within a `foreach` not by `break` or `continue`.  A hook fails if it does not end normally. -/
def Event.Contained : Event → Prop
  | ended (.block dir) rc => ¬ (ended (.block dir) rc).Raised
  | ended (.spec _ top) rc => top = false → NoLoop rc
  | ended .deferred rc => NoLoop rc
  | ended (.hook _ top) rc => (top = false → NoLoop rc) ∧ ∀ e, rc = some e → Fatal e
  | _ => True

/-- If all is contained so far, then `c`, and a piece has raised an error only if `o`. -/
def Blame (c o : Prop) (s : Load) : Prop :=
  (∀ e ∈ s.trace, e.Contained) → c ∧ ((∃ e ∈ s.trace, e.Raised) → o)

/-- Nothing is left over from before. -/
abbrev Clear : Load → Prop := Blame True False

variable {P : Sources} {c o c' o' : Prop} {s t : Load} {n : Nat}

theorem Blame.imp (h : Blame c o s) (hc : c → c') (ho : o → o') : Blame c' o' s :=
  fun hall => ⟨hc (h hall).1, fun hr => ho ((h hall).2 hr)⟩

/-- One more event. -/
theorem Blame.note {e : Event} (h : Blame c o s) (hc : e.Contained → c → c') (ho : o → o')
    (he : e.Contained → e.Raised → o') : Blame c' o' (s.note e) := by
  intro hall
  have hlast := hall _ List.mem_cons_self
  have hrest := h fun y hy => hall y (List.mem_cons_of_mem _ hy)
  refine ⟨hc hlast hrest.1, ?_⟩
  rintro ⟨x, hx, hraised⟩
  rcases List.mem_cons.mp hx with rfl | hx
  · exact he hlast hraised
  · exact ho (hrest.2 ⟨x, hx, hraised⟩)

/-- An event that raises nothing. -/
theorem Blame.quiet {e : Event} (h : Blame c o s) (he : ¬ e.Raised) : Blame c o (s.note e) :=
  h.note (fun _ hc => hc) id fun _ hr => absurd hr he

/-- Spec code raises no error that its own blocks contain. -/
theorem Blame.move (hm : Move P Event.Inner s t) (h : Blame c o s) : Blame c o t := by
  cases hm with
  | vars | target | settings => exact h
  | subDirs => exact Blame.quiet (s := { s with subdirs := _ }) h id
  | takeSubdirs hA => exact hA.elim
  | invoked => exact h.quiet id
  | @ended p rc hA =>
    cases p with
    | block dir => exact h.note (fun _ hc => hc) id fun hc hr => absurd hr hc
    | _ => exact hA.elim

theorem Blame.moves (hm : Moves P Event.Inner s t) (h : Blame c o s) : Blame c o t :=
  Moves.inv (fun _ _ => Blame.move) hm h

theorem code_inner (k : Code) : MovesOnly P Event.Inner (k.run P (P.hook n)) :=
  code_moves (fun _ h => h) k

/-! ## The loaders -/

/-- A piece is caught, and then whatever was raised is what it has ended with. -/
theorem invokeSpecFile_blame {p : Piece} {script : M Unit} (hs : Clear s)
    (hscript : MovesOnly P Event.Inner script) :
    wp (invokeSpecFile p script)
      (fun rc t => Blame (Event.ended p rc).Contained (Event.ended p rc).Raised t ∧
        ∀ status, rc ≠ some (.quit status))
      (fun e t => Clear t ∧ ∃ status, e = .quit status) s := by
  have hnote : Clear (s.note (.invoked p)) := hs.quiet id
  simp only [invokeSpecFile, runDo, wp_bind, wp_modify, wp_get, wp_set]
  refine ((Within.caught hscript _).and (caught_quit script _)).imp (fun rc t ht => ?_)
    fun e t ht => ⟨Blame.moves ht.1.2 hnote, ht.2⟩
  have hclear : Clear t := Blame.moves ht.1 hnote
  refine ⟨Blame.note (s := { t with frame := s.frame, toplevel := s.toplevel }) hclear
    (fun hc _ => hc) False.elim fun _ hr => hr, ht.2⟩

/-- How a directory may fail, `top` or below. -/
abbrev Reports (top : Bool) (e : Exit) : Load → Prop :=
  Blame (top = false → NoLoop (some e)) (Fatal e)

theorem Blame.reports {e : Exit} (h : Clear s) (top : Bool) (he : NoLoop (some e)) :
    Reports top e s :=
  h.imp (fun _ _ => he) False.elim

theorem invokeHook_blame (h : Hook) (top : Bool) (hs : Blame c o s) :
    wp (invokeHook (P.hook n) h top) (fun _ => Blame c o) (Reports top) s := by
  have hrun := hook_moves (P := P) (A := Event.Inner) (fun _ h => h) n h s
  unfold wp invokeHook
  unfold wp at hrun
  cases hhook : P.hook n h s with
  | ok u t =>
    rw [hhook] at hrun
    exact (Blame.moves hrun hs).quiet fun hr => Bool.noConfusion hr.1
  | error e t =>
    intro hall
    obtain ⟨hloop, hfatal⟩ := hall _ List.mem_cons_self
    exact ⟨hloop, fun _ => hfatal e rfl⟩

/-- What `process-build-spec-file` knows of a directory when its scope has ended. -/
theorem runBuildSpec_blame (dir : Path) (top : Bool) (script : Option Code) (hs : Clear s) :
    wp (runBuildSpec P (P.hook n) dir top script)
      (fun rc t => Blame (top = false → NoLoop rc) (Event.ended (.spec dir top) rc).Raised t ∧
        ∀ status, rc ≠ some (.quit status))
      (Reports top) s := by
  unfold runBuildSpec
  rw [wp_inScope, wp_bind]
  refine (invokeHook_blame (s := s.enter dir) .prolog top hs).imp (fun _ t ht => ?_)
    fun e t ht => ht
  rw [wp_bind]
  have hscript : wp (invokeBuildSpec P (P.hook n) dir top script)
      (fun rc t => Blame (top = false → NoLoop rc) (Event.ended (.spec dir top) rc).Raised t ∧
        ∀ status, rc ≠ some (.quit status))
      (Reports top) t := by
    cases script with
    | none => exact ⟨ht.imp (fun _ _ => ⟨nofun, nofun⟩) False.elim, nofun⟩
    | some code =>
      refine (invokeSpecFile_blame ht (Within.proc (code_inner code))).imp (fun rc u hu => hu) ?_
      rintro e u ⟨hu, status, rfl⟩
      exact hu.reports top ⟨nofun, nofun⟩
  refine hscript.imp (fun rc u hu => ?_) fun e u hu => hu
  rw [wp_bind]
  refine (invokeHook_blame .epilog top hu.1).imp (fun _ v hv => ⟨hv, hu.2⟩) fun e v hv => hv

/-- An end that is no normal one is raised again. -/
theorem checkReturn_blame {p : Piece} {rc : Option Exit} (hcode : p.code rc = rc)
    (hrc : ∀ status, rc ≠ some (.quit status))
    (hs : Blame c (Event.ended p rc).Raised s) :
    wp (checkReturn rc) (fun _ => Blame c False)
      (fun e t => Blame c (Fatal e) t ∧ rc = some e) s := by
  have hnot : accepted rc = true → ¬ (Event.ended p rc).Raised := by
    intro hacc hr
    have hraised : accepted (p.code rc) = false := hr.1
    rw [hcode, hacc] at hraised
    cases hraised
  unfold checkReturn
  split
  · exact hs.imp id (hnot rfl)
  · exact hs.imp id (hnot rfl)
  · exact hs.imp id (hnot rfl)
  · rename_i e hret hretCode
    refine ⟨hs.imp id fun _ => ⟨e, ?_, fun he => hrc 0 (he ▸ rfl)⟩, rfl⟩
    cases e with
    | ret => exact absurd rfl hret
    | retCode e => exact absurd rfl (hretCode e)
    | _ => rfl

/-- One directory, by induction on how deep the calls nest. -/
theorem processBuildSpecFile_blame (k : Nat) (dir : Path) (top : Bool) (hs : Clear s) :
    wp (processBuildSpecFile P (P.hook n) k dir top) (fun _ => Clear) (Reports top) s := by
  induction k generalizing dir top s with
  | zero => exact hs.reports top ⟨nofun, nofun⟩
  | succ k ih =>
    rw [processBuildSpecFile, wp_ite]
    refine ⟨fun _ => hs.reports top ⟨nofun, nofun⟩, fun _ => ?_⟩
    rw [wp_bind]
    refine (runBuildSpec_blame dir top _ hs).imp (fun rc t ht => ?_) fun e t ht => ht
    obtain ⟨hblame, hquit⟩ := ht
    rw [wp_ite]
    constructor
    · rintro rfl
      exact hblame.imp (fun _ => trivial) fun hr => Bool.noConfusion hr.1
    · intro _
      rw [wp_bind]
      refine (checkReturn_blame rfl hquit hblame).imp (fun _ u hu => ?_) fun e u hu => ?_
      · -- the directory is clear, and so are those below it
        rw [wp_bind]
        have htaken : Clear (({ u with subdirs := [] } : Load).note
            (.subdirs dir u.subdirs u.autosubdirs)) :=
          Blame.quiet (s := { u with subdirs := [] }) (hu.imp (fun _ => trivial) id) id
        refine wp_foreach (I := fun _ => Clear) (fun _ h => h) (fun d _ v hv => ?_) _ htaken
        refine (ih d false hv).imp (fun _ _ h => h) fun e w hw => ?_
        have hout : e ≠ .brk → e ≠ .cont → Reports top e w := fun hbrk hcont =>
          hw.imp (fun _ _ => ⟨fun h => hbrk (Option.some.inj h), fun h => hcont (Option.some.inj h)⟩)
            id
        cases e with
        | brk => exact fun hall => absurd rfl ((hw hall).1 rfl).1
        | cont => exact fun hall => absurd rfl ((hw hall).1 rfl).2
        | _ => exact hout nofun nofun
      · obtain ⟨hu, rfl⟩ := hu
        exact hu

/-- A deferred action ends with what it has raised. -/
theorem atToplevel_blame {script : M Unit} (hs : Clear s) (hscript : MovesOnly P Event.Inner script) :
    wp (atToplevel .deferred script) (fun _ => Clear)
      (fun e => Blame (NoLoop (some e)) (Event.ended .deferred (some e)).Raised) s := by
  have hrun := hscript { s with frame := s.globals, toplevel := true }
  unfold wp atToplevel
  unfold wp at hrun
  cases hcode : script { s with frame := s.globals, toplevel := true } with
  | ok u t =>
    rw [hcode] at hrun
    have hclear : Clear t := Blame.moves hrun hs
    exact Blame.quiet (s := { t with frame := s.frame, globals := t.frame, toplevel := s.toplevel })
      hclear fun hr => Bool.noConfusion hr.1
  | error e t =>
    rw [hcode] at hrun
    have hclear : Clear t := Blame.moves hrun.2 hs
    exact Blame.note (s := { t with frame := s.frame, globals := t.frame, toplevel := s.toplevel })
      hclear (fun hc _ => hc) False.elim fun _ hr => hr

theorem fatal_of_raised {e : Exit} (h : (Event.ended .deferred (some e)).Raised) : Fatal e := by
  obtain ⟨hacc, hquit⟩ := h
  cases hleave : e.leaveProc with
  | none =>
    have hcode : Piece.deferred.code (some e) = none := hleave
    rw [hcode] at hacc
    cases hacc
  | some e' => exact ⟨e', hleave, fun he => hquit 0 (hleave.trans (congrArg some he))⟩

theorem loadBuildDescription_blame (k : Nat) (hs : Clear s) :
    wp (loadBuildDescription P (P.hook n) k) (fun _ => Clear)
      (fun e => Blame True (e ≠ .quit 0)) s := by
  unfold loadBuildDescription
  rw [wp_proc]
  -- inside of the procedure, what was raised ends it with a code that is fatal
  refine wp.imp (E := fun e => Blame True (Fatal e)) (Q := fun _ => Clear) ?_ (fun _ _ h => h) ?_
  · rw [wp_bind]
    refine (invokeSpecFile_blame hs (Within.proc (code_inner P.projectSpec))).imp
      (fun rc t ht => ?_) fun e t ht => ht.1.imp id False.elim
    have hdesc : wp (checkReturnOrSkip rc) (fun _ => Clear) (fun e => Blame True (Fatal e)) t := by
      unfold checkReturnOrSkip
      rw [wp_ite]
      constructor
      · rintro rfl
        exact ht.1.imp (fun _ => trivial) fun hr => Bool.noConfusion hr.1
      · intro _
        exact (checkReturn_blame rfl ht.2 (ht.1.imp (fun _ => trivial) id)).imp (fun _ _ h => h)
          fun e u hu => hu.1
    rw [wp_bind]
    refine hdesc.imp (fun _ u hu => ?_) fun e u hu => hu
    rw [wp_bind, wp_get, wp_bind]
    refine wp.imp (Q := fun _ => Clear) (E := fun e => Blame True (Fatal e)) ?_ (fun _ v hv => ?_)
      fun e v hv => hv
    · refine wp_foreach (I := fun _ => Clear) (fun _ h => h) (fun action _ v hv => ?_) _ hu
      refine (atToplevel_blame hv (code_inner action)).imp (fun _ _ h => h) fun e w hw => ?_
      cases e with
      | brk => exact fun hall => absurd rfl (hw hall).1.1
      | cont => exact fun hall => absurd rfl (hw hall).1.2
      | _ => exact hw.imp (fun _ => trivial) fatal_of_raised
    · rw [wp_bind]
      refine (processBuildSpecFile_blame k "." true hv).imp (fun _ w hw => ?_)
        fun e w hw => hw.imp (fun _ => trivial) id
      rw [wp_bind, wp_get, wp_ite]
      exact ⟨fun _ => hw.imp id False.elim, fun _ => hw⟩
  · intro e t ht
    cases hleave : e.leaveProc with
    | none =>
      refine ht.imp id ?_
      rintro ⟨e', he', -⟩
      rw [hleave] at he'
      cases he'
    | some e₁ =>
      refine ht.imp id ?_
      rintro ⟨e', he', hne⟩
      rw [hleave] at he'
      exact (Option.some.inj he') ▸ hne

/-- The run lemma: what is raised and contained does not let the loading phase end well. -/
theorem make_blame (k : Nat) (hs : Clear s) :
    wp (make P (P.hook n) k) (fun _ => Clear) (fun e => Blame True (e ≠ .quit 0)) s := by
  unfold make
  rw [wp_bind]
  refine (invokeSpecFile_blame hs (Within.proc (code_inner P.rulebase))).imp (fun rc t ht => ?_)
    fun e t ht => ht.1.imp id False.elim
  rw [wp_bind]
  refine (checkReturn_blame rfl ht.2 ht.1).imp (fun _ u hu => ?_) fun e u hu => ?_
  · have hclear : Clear u := hu.imp (fun _ => trivial) id
    rw [wp_bind]
    refine (hook_moves (P := P) (A := Event.Inner) (fun _ h => h) n .init u).imp (fun _ v hv => ?_)
      fun e v hv => (Blame.moves hv.2 hclear).imp id False.elim
    exact loadBuildDescription_blame k (Blame.moves hv hclear)
  · obtain ⟨hu, rfl⟩ := hu
    exact hu.imp (fun _ => trivial) fun _ he => ht.2 0 (he ▸ rfl)

/-! ## Runs that differ in the trace -/

/-- The states differ in nothing but the trace. -/
def Unseen (s t : Load) : Prop := ∃ trace, t = { s with trace }

section
variable {hook : Hook → M Unit} {m m' : M Unit}

theorem Unseen.note_left {e : Event} (h : Unseen s t) : Unseen (s.note e) t := by
  obtain ⟨trace, rfl⟩ := h
  exact ⟨trace, rfl⟩

theorem twin_inScope {α : Type} {dir : Path} {m m' : M α} (h : Twin Unseen m m') :
    Twin Unseen (inScope dir m) (inScope dir m') := by
  rintro s _ ⟨trace, rfl⟩
  rw [inScope_apply, inScope_apply]
  have hscript := h (s.enter dir) (Load.enter dir { s with trace }) ⟨trace, rfl⟩
  rcases hscript.cases with ⟨a, t, _, ht, hu, trace', rfl⟩ | ⟨e, t, u, ht, hu, htu⟩ <;> rw [ht, hu]
  · exact ⟨rfl, trace', rfl⟩
  · exact ⟨rfl, htu⟩

theorem runDo_apply (script : M Unit) (s : Load) :
    runDo script s =
      match caught script { s with frame := s.vars.values, toplevel := false } with
      | .ok rc t => .ok rc { t with frame := s.frame, toplevel := s.toplevel }
      | .error e t => .error e t := by
  have hbind : runDo script s =
      (caught script >>= fun rc => (do
        modify fun t => { t with frame := s.frame, toplevel := s.toplevel }
        return rc : M (Option Exit))) { s with frame := s.vars.values, toplevel := false } := rfl
  rw [hbind]
  cases hrun : caught script { s with frame := s.vars.values, toplevel := false } with
  | ok rc t => exact bind_of_ok hrun
  | error e t => exact bind_error_iff.mpr (Or.inl hrun)

theorem twin_runDo (h : Twin Unseen m m') : Twin Unseen (runDo m) (runDo m') := by
  rintro s _ ⟨trace, rfl⟩
  rw [runDo_apply, runDo_apply]
  have hscript := Twin.caught h { s with frame := s.vars.values, toplevel := false }
    { s with frame := s.vars.values, toplevel := false, trace } ⟨trace, rfl⟩
  dsimp only
  rcases hscript.cases with ⟨a, t, _, ht, hu, trace', rfl⟩ | ⟨e, t, u, ht, hu, htu⟩ <;> rw [ht, hu]
  · exact ⟨rfl, trace', rfl⟩
  · exact ⟨rfl, htu⟩

/-- What is noted of a piece makes no difference. -/
theorem twin_invokeSpecFile {p : Piece} (h : Twin Unseen m m') :
    Twin Unseen (invokeSpecFile p m) (runDo m') := by
  intro s t hst
  have hnote := twin_runDo h (s.note (.invoked p)) t hst.note_left
  have hbind : invokeSpecFile p m s =
      (runDo m >>= fun rc => (do
        modify (Load.note (.ended p rc))
        return rc : M (Option Exit))) (s.note (.invoked p)) := rfl
  rw [hbind]
  rcases hnote.cases with ⟨a, u, v, hu, hv, huv⟩ | ⟨e, u, v, hu, hv, huv⟩
  · rw [bind_of_ok hu, hv]
    exact ⟨rfl, huv.note_left⟩
  · rw [bind_error_iff.mpr (Or.inl hu), hv]
    exact ⟨rfl, huv⟩

theorem unseen_equivalence : Equivalence Unseen where
  refl s := ⟨s.trace, rfl⟩
  symm := by
    rintro s _ ⟨trace, rfl⟩
    exact ⟨s.trace, rfl⟩
  trans := by
    rintro s _ _ ⟨trace, rfl⟩ ⟨trace', rfl⟩
    exact ⟨trace', rfl⟩

/-- What a block and a file have in common. -/
def runScript (hook : Hook → M Unit) (dir : Path) (script : M Unit) : M (Option Exit) :=
  inScope dir do
    hook .prolog
    let rc ← runDo script
    hook .epilog
    return rc

theorem twin_runBlock (hhook : ∀ h, Twin Unseen (hook h) (hook h)) (dir : Path)
    (h : Twin Unseen m m) : Twin Unseen (runBlock hook dir m) (runScript hook dir m) :=
  twin_inScope (Twin.bind (hhook .prolog) fun _ => Twin.bind (twin_invokeSpecFile h) fun _ =>
    Twin.bind (hhook .epilog) fun _ => Twin.pure _)

theorem twin_virtualSubDir (hhook : ∀ h, Twin Unseen (hook h) (hook h)) (dir : Path) (empty : Bool)
    (h : Twin Unseen m m) :
    Twin Unseen (virtualSubDir hook dir empty m) (virtualSubDir hook dir empty m) := by
  have hskip : ∀ dir : Path, Twin Unseen
      (modify fun s => { s with skipsubdirs := dir :: s.skipsubdirs })
      (modify fun s => { s with skipsubdirs := dir :: s.skipsubdirs }) := by
    intro dir
    refine Twin.modify ?_
    rintro s _ ⟨trace, rfl⟩
    exact ⟨trace, rfl⟩
  refine Twin.read (fun s : Load => (s.vars.localPrefix, s.skipsubdirs, s.toplevel)) ?_
    (k := fun x =>
      if fileDirname (x.1 ++ dir) ∈ x.2.1 then
        modify fun s => { s with skipsubdirs := (x.1 ++ dir) :: s.skipsubdirs }
      else do
        let rc ← runBlock hook (x.1 ++ dir) m
        if empty || x.2.2 then throw .error
        else if rc.bind Exit.leaveProc = some skip then
          modify fun s => { s with skipsubdirs := (x.1 ++ dir) :: s.skipsubdirs }) fun x => ?_
  · rintro s _ ⟨trace, rfl⟩
    rfl
  · refine Twin.ite (hskip _) (Twin.bind (Twin.self unseen_equivalence (twin_runBlock hhook _ h))
      fun rc => Twin.ite (Twin.throw _) (Twin.ite (hskip _) (Twin.pure ())))

/-- Spec code does not read the trace. -/
theorem Code.twin (hhook : ∀ h, Twin Unseen (hook h) (hook h)) (c : Code) :
    Twin Unseen (c.run P hook) (c.run P hook) := by
  induction c with
  | empty | done => exact Twin.pure ()
  | exit e => exact Twin.throw e
  | set name value rest ih | unset name rest ih | define c rest ih | autoSubDirs onoff rest ih
  | addDeferredAction action rest _ ih =>
    refine Twin.bind (Twin.modify ?_) fun _ => ih
    rintro s _ ⟨trace, rfl⟩
    exact ⟨trace, rfl⟩
  | var name k ih =>
    refine Twin.read (fun s : Load => s.frame.lookup name) ?_ ih
    rintro s _ ⟨trace, rfl⟩
    rfl
  | getDefine name k ih =>
    refine Twin.read (fun s : Load => (s.vars.defines.lookup name).map (·.value)) ?_ ih
    rintro s _ ⟨trace, rfl⟩
    rfl
  | localDir k ih =>
    refine Twin.read (fun s : Load => (s.vars.localdir, s.vars.localPrefix)) ?_ fun x => ih x.1 x.2
    rintro s _ ⟨trace, rfl⟩
    rfl
  | target ruletarget args source rest ih =>
    let answer (o : Option RuleBase) : M Unit := o.elim (throw (.quit 1)) fun base => do
      modify fun s => { s with base }
      rest.run P hook
    have hrun : (Code.target ruletarget args source rest).run P hook =
        get >>= fun s => answer (s.target P ruletarget args source) := by
      rw [Code.run]
      refine congrArg (get >>= ·) (funext fun s => ?_)
      cases s.target P ruletarget args source <;> rfl
    rw [hrun]
    refine Twin.read (fun s : Load => s.target P ruletarget args source) ?_ (k := answer) fun o => ?_
    · rintro s _ ⟨trace, rfl⟩
      rfl
    · cases o with
      | none => exact Twin.throw _
      | some base =>
        refine Twin.bind (Twin.modify ?_) fun _ => ih
        rintro s _ ⟨trace, rfl⟩
        exact ⟨trace, rfl⟩
  | inspect k ih =>
    refine Twin.read (fun s : Load => s.base) ?_ ih
    rintro s _ ⟨trace, rfl⟩
    rfl
  | subDirs dirs rest ih =>
    refine Twin.bind (Twin.ite (Twin.modify ?_) (Twin.throw _)) fun _ => ih
    rintro s _ ⟨trace, rfl⟩
    exact ⟨_, rfl⟩
  | scope dir script rest ihscript ih =>
    refine Twin.bind (Twin.proc ?_) fun _ => ih
    refine Twin.read (fun s : Load => s.toplevel) ?_
      (k := fun top => inScope dir (script.run P hook) >>= fun _ =>
        if top then throw (.quit 1) else pure ()) fun top => ?_
    · rintro s _ ⟨trace, rfl⟩
      rfl
    · exact Twin.bind (twin_inScope ihscript) fun _ => Twin.ite (Twin.throw _) (Twin.pure ())
  | virtualSubDir dir code rest ihcode ih =>
    exact Twin.bind (twin_virtualSubDir hhook dir _ ihcode) fun _ => ih
  | catching script k ihscript ih => exact Twin.bind (Twin.caught ihscript) fun rc => ih rc

theorem hook_twin (n : Nat) (h : Hook) : Twin Unseen (P.hook n h) (P.hook n h) := by
  induction n generalizing h with
  | zero => exact Twin.throw _
  | succ n ih => exact Twin.proc (Twin.proc (Code.twin ih _))

theorem twin_invokeHook {h : Hook} (hh : Twin Unseen (hook h) (hook h)) (top : Bool) :
    Twin Unseen (invokeHook hook h top) (hook h) := by
  intro s t hst
  unfold invokeHook
  rcases (hh s t hst).cases with ⟨a, u, v, hu, hv, huv⟩ | ⟨e, u, v, hu, hv, huv⟩ <;> rw [hu, hv]
  · exact ⟨rfl, huv.note_left⟩
  · exact ⟨rfl, huv.note_left⟩

theorem twin_runBuildSpec (hhook : ∀ h, Twin Unseen (hook h) (hook h)) (dir : Path) (top : Bool)
    (code : Code) :
    Twin Unseen (runBuildSpec P hook dir top (some code))
      (runScript hook dir (proc (code.run P hook))) :=
  twin_inScope (Twin.bind (twin_invokeHook (hhook .prolog) top) fun _ =>
    Twin.bind (twin_invokeSpecFile (Twin.proc (Code.twin hhook code))) fun _ =>
      Twin.bind (twin_invokeHook (hhook .epilog) top) fun _ => Twin.pure _)

end

/-! ## A block and the file that it stands for -/

/-- The program does not end normally. -/
def Fails {α : Type} (m : M α) (s : Load) : Prop := ∃ e t, m s = .error e t

/-- The file `dir/build.spec` with this code is processed, but for the subdirectories. -/
def processAsFile (P : Sources) (hook : Hook → M Unit) (dir : Path) (code : Code) : M Unit := do
  let rc ← runBuildSpec P hook dir false (some code)
  checkReturnOrSkip rc

/-- Whether the code of a block would do as well as a file, provided that it does not end the
process and the hooks do not fail: it is empty, or stands in stack frame #0, exactly if it does not
end normally. -/
def BlockFits (P : Sources) (hook : Hook → M Unit) (dir : Path) (code : Code) (s : Load) : Prop :=
  wp (runScript hook dir (code.run P hook))
    (fun rc _ => (code.isEmpty || s.toplevel) = !accepted (rc.bind Exit.leaveProc))
    (fun _ _ => True) s

section
variable {α β : Type} {m m' : M α} {k : α → M β} {hook : Hook → M Unit}

theorem fails_bind : Fails (m >>= k) s ↔ Fails m s ∨ ∃ a t, m s = .ok a t ∧ Fails (k a) t := by
  constructor
  · rintro ⟨e, t, h⟩
    rcases bind_error_iff.mp h with h | ⟨a, u, ha, h⟩
    · exact Or.inl ⟨e, t, h⟩
    · exact Or.inr ⟨a, u, ha, e, t, h⟩
  · rintro (⟨e, t, h⟩ | ⟨a, u, ha, e, t, h⟩)
    · exact ⟨e, t, bind_error_iff.mpr (Or.inl h)⟩
    · exact ⟨e, t, bind_error_iff.mpr (Or.inr ⟨a, u, ha, h⟩)⟩

/-- What `source` makes of the way in which a script ends. -/
theorem runDo_proc (script : M Unit) (s : Load) :
    (Fails (runDo script) s ∧ Fails (runDo (proc script)) s) ∨
    ∃ rc t, runDo script s = .ok rc t ∧
      (runDo (proc script) s = .ok (rc.bind Exit.leaveProc) t ∨
        accepted (rc.bind Exit.leaveProc) = false ∧ Fails (runDo (proc script)) s) := by
  rw [Fails, Fails, runDo_apply, runDo_apply]
  unfold caught proc
  cases script { s with frame := s.vars.values, toplevel := false } with
  | ok u t => exact Or.inr ⟨_, _, rfl, Or.inl rfl⟩
  | error e t =>
    cases e with
    | quit status => exact Or.inl ⟨⟨_, _, rfl⟩, _, _, rfl⟩
    | retCode e =>
      cases e with
      | quit status => exact Or.inr ⟨_, _, rfl, Or.inr ⟨rfl, _, _, rfl⟩⟩
      | _ => exact Or.inr ⟨_, _, rfl, Or.inl rfl⟩
    | _ => exact Or.inr ⟨_, _, rfl, Or.inl rfl⟩

variable (hook) in
/-- The same with the hooks around it. -/
theorem runScript_proc (dir : Path) (script : M Unit) (s : Load) :
    (Fails (runScript hook dir script) s ∧ Fails (runScript hook dir (proc script)) s) ∨
    ∃ rc t, runScript hook dir script s = .ok rc t ∧
      (runScript hook dir (proc script) s = .ok (rc.bind Exit.leaveProc) t ∨
        accepted (rc.bind Exit.leaveProc) = false ∧
          Fails (runScript hook dir (proc script)) s) := by
  unfold runScript
  rw [Fails, Fails, inScope_apply, inScope_apply]
  cases hprolog : hook .prolog (s.enter dir) with
  | error e t =>
    rw [bind_error_iff.mpr (Or.inl hprolog), bind_error_iff.mpr (Or.inl hprolog)]
    exact Or.inl ⟨⟨e, t, rfl⟩, e, t, rfl⟩
  | ok u t =>
    rw [bind_of_ok hprolog, bind_of_ok hprolog]
    rcases runDo_proc script t with ⟨⟨e, v, he⟩, e', v', he'⟩ | ⟨rc, v, hrc, hfile⟩
    · rw [bind_error_iff.mpr (Or.inl he), bind_error_iff.mpr (Or.inl he')]
      exact Or.inl ⟨⟨_, _, rfl⟩, _, _, rfl⟩
    · rw [bind_of_ok hrc]
      cases hepilog : hook .epilog v with
      | error e w =>
        rw [bind_error_iff.mpr (Or.inl hepilog)]
        rcases hfile with hfile | ⟨-, e', v', hfile⟩
        · rw [bind_of_ok hfile, bind_error_iff.mpr (Or.inl hepilog)]
          exact Or.inl ⟨⟨_, _, rfl⟩, _, _, rfl⟩
        · rw [bind_error_iff.mpr (Or.inl hfile)]
          exact Or.inl ⟨⟨_, _, rfl⟩, _, _, rfl⟩
      | ok x w =>
        rw [bind_of_ok hepilog]
        rcases hfile with hfile | ⟨hacc, e', v', hfile⟩
        · rw [bind_of_ok hfile, bind_of_ok hepilog]
          exact Or.inr ⟨_, _, rfl, Or.inl rfl⟩
        · rw [bind_error_iff.mpr (Or.inl hfile)]
          exact Or.inr ⟨_, _, rfl, Or.inr ⟨hacc, _, _, rfl⟩⟩

theorem not_fails_pure (a : α) : ¬ Fails (pure a : M α) s := by
  rintro ⟨e, t, h⟩
  cases h

theorem fails_checkReturnOrSkip (rc : Option Exit) :
    Fails (checkReturnOrSkip rc) s ↔ accepted rc = false := by
  have hok : accepted rc = true → checkReturnOrSkip rc = pure () →
      (Fails (checkReturnOrSkip rc) s ↔ accepted rc = false) := by
    intro hacc hrun
    rw [hacc, hrun]
    exact iff_of_false (not_fails_pure ()) nofun
  cases rc with
  | none => exact hok rfl rfl
  | some e =>
    cases e with
    | ret | retCode e => exact hok rfl rfl
    | custom k =>
      by_cases hk : k = 20
      · subst hk
        exact hok rfl rfl
      · have hne : (Exit.custom k) ≠ skip := fun h => hk (Exit.custom.inj h)
        have hrun : checkReturnOrSkip (some (.custom k)) s = .error (.custom k) s := by
          unfold checkReturnOrSkip
          rw [if_neg fun h => hne (Option.some.inj h)]
          rfl
        exact iff_of_true ⟨_, _, hrun⟩ (decide_eq_false hne)
    | _ => exact iff_of_true ⟨_, s, rfl⟩ rfl

theorem fails_virtualSubDir (hhook : ∀ h, Twin Unseen (hook h) (hook h)) {dir : Path}
    {empty : Bool} {code : M Unit} (hcode : Twin Unseen code code)
    (hparent : fileDirname (s.vars.localPrefix ++ dir) ∉ s.skipsubdirs) :
    Fails (virtualSubDir hook dir empty code) s ↔
      wp (runScript hook (s.vars.localPrefix ++ dir) code)
        (fun _ _ => (empty || s.toplevel) = true) (fun _ _ => True) s := by
  have hbind : virtualSubDir hook dir empty code s =
      (if fileDirname (s.vars.localPrefix ++ dir) ∈ s.skipsubdirs then
        modify fun t => { t with skipsubdirs := (s.vars.localPrefix ++ dir) :: t.skipsubdirs }
      else runBlock hook (s.vars.localPrefix ++ dir) code >>= fun rc =>
        if empty || s.toplevel then throw .error
        else if rc.bind Exit.leaveProc = some skip then
          modify fun t => { t with skipsubdirs := (s.vars.localPrefix ++ dir) :: t.skipsubdirs }
        else pure () : M Unit) s := rfl
  rw [Fails, hbind, if_neg hparent]
  rw [← Fails, fails_bind]
  unfold wp
  have htwin := twin_runBlock hhook (s.vars.localPrefix ++ dir) hcode s s ⟨s.trace, rfl⟩
  rcases htwin.cases with ⟨rc, t, u, ht, hu, -⟩ | ⟨e, t, u, ht, hu, -⟩
  · rw [hu]
    constructor
    · rintro (⟨e, t', h⟩ | ⟨rc', t', h, hfails⟩)
      · rw [ht] at h
        cases h
      · by_contra hne
        rw [if_neg hne] at hfails
        obtain ⟨e, t'', hlast⟩ := hfails
        split at hlast <;> cases hlast
    · intro hyes
      refine Or.inr ⟨rc, t, ht, ?_⟩
      rw [if_pos hyes]
      exact ⟨_, _, rfl⟩
  · rw [hu]
    exact ⟨fun _ => trivial, fun _ => Or.inl ⟨e, t, ht⟩⟩

end

/-- A block fails where the file would fail exactly if it fits. -/
theorem block_fails_iff (P : Sources) (n : Nat) (dir : Path) (code : Code)
    (hparent : fileDirname (s.vars.localPrefix ++ dir) ∉ s.skipsubdirs) :
    (Fails (virtualSubDir (P.hook n) dir code.isEmpty (code.run P (P.hook n))) s ↔
      Fails (processAsFile P (P.hook n) (s.vars.localPrefix ++ dir) code) s) ↔
      BlockFits P (P.hook n) (s.vars.localPrefix ++ dir) code s := by
  have hhook := hook_twin (P := P) n
  rw [fails_virtualSubDir hhook (Code.twin hhook code) hparent, processAsFile, fails_bind,
    BlockFits]
  have htwin := twin_runBuildSpec (P := P) hhook (s.vars.localPrefix ++ dir) false code s s
    ⟨s.trace, rfl⟩
  unfold wp
  rcases runScript_proc (P.hook n) (s.vars.localPrefix ++ dir) (code.run P (P.hook n)) s with
    ⟨⟨e, t, hscript⟩, e', t', hfile⟩ | ⟨rc, t, hscript, hfile⟩ <;> rw [hscript]
  · rcases htwin.cases with ⟨a, u, v, hu, hv, -⟩ | ⟨a, u, v, hu, hv, -⟩
    · rw [hfile] at hv
      cases hv
    · exact iff_of_true (iff_of_true trivial (Or.inl ⟨a, u, hu⟩)) trivial
  · -- the file fails exactly if the code is not accepted
    have hfails : (Fails (runBuildSpec P (P.hook n) (s.vars.localPrefix ++ dir) false (some code)) s
        ∨ ∃ a u, runBuildSpec P (P.hook n) (s.vars.localPrefix ++ dir) false (some code) s
          = .ok a u ∧ Fails (checkReturnOrSkip a) u) ↔
        accepted (rc.bind Exit.leaveProc) = false := by
      rcases htwin.cases with ⟨a, u, v, hu, hv, -⟩ | ⟨a, u, v, hu, hv, -⟩
      · rcases hfile with hfile | ⟨hacc, e', t', hfile⟩
        · rw [hfile] at hv
          cases hv
          constructor
          · rintro (⟨e, t', h⟩ | ⟨a, t', h, hcheck⟩)
            · rw [hu] at h
              cases h
            · rw [hu] at h
              cases h
              exact (fails_checkReturnOrSkip _).mp hcheck
          · exact fun hacc => Or.inr ⟨_, _, hu, (fails_checkReturnOrSkip _).mpr hacc⟩
        · rw [hfile] at hv
          cases hv
      · rcases hfile with hfile | ⟨hacc, e', t', hfile⟩
        · rw [hfile] at hv
          cases hv
        · exact iff_of_true (Or.inl ⟨_, _, hu⟩) hacc
    rw [hfails]
    show ((code.isEmpty || s.toplevel) = true ↔ accepted (rc.bind Exit.leaveProc) = false) ↔
      (code.isEmpty || s.toplevel) = !accepted (rc.bind Exit.leaveProc)
    cases code.isEmpty || s.toplevel <;> cases accepted (rc.bind Exit.leaveProc) <;> simp

end Tmake.Loading
