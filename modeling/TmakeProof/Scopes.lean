import TmakeProof.LoadMoves

/-! # What is left of a scope

`Scope` saves the defines and the directory, and after the script it puts them
back and makes the defines, and only these, the variables of the spec file.  It
does so in a straight line after the script.  A script that ends by an error, by
`return`, or by an `ifconfig` that skips never comes to this line; and the
variables of the file that are no defines do not survive it.

`Transparent` is what a scope should leave, however it is left.  It does exactly
if the script ends normally in a file that has no other variables, or if the
script, ending in another way, has put everything back itself (`GivenBack`).
-/
namespace Tmake.Loading
open ReturnCodes Weakest

/-- After a scope that began in the state `s`: the defines and the directory are as before,
every define variable has the value of the define, and no variable of the file is gone. -/
structure Transparent (s t : Load) : Prop where
  defines : t.vars.defines = s.vars.defines
  localdir : t.vars.localdir = s.vars.localdir
  localPrefix : t.vars.localPrefix = s.vars.localPrefix
  values : ∀ name value, s.vars.values.lookup name = some value → t.frame.lookup name = some value
  kept : ∀ name ∈ s.frame, name ∈ t.frame

/-- The script of a scope that began in the state `s` leaves nothing to be desired: it ends
normally, in a file whose variables are all defines, and has left the directory alone if the scope
has none to restore; or it does not end normally, and has put everything back. -/
def GivenBack (dir : Path) (s : Load) : EStateM.Result Exit Load Unit → Prop
  | .ok _ t => (∀ name ∈ s.frame, name ∈ s.vars.defines) ∧
      (dir ≠ "" ∨ t.vars.localdir = s.vars.localdir ∧ t.vars.localPrefix = s.vars.localPrefix)
  | .error _ t => Transparent s t

theorem mem_values {v : Parse} {name : String} : name ∈ v.values ↔ name ∈ v.defines := by
  rw [← AList.lookup_isSome, ← AList.lookup_isSome, v.lookup_values]
  simp

theorem leaveScope_localdir (dir : Path) (saved s : Parse) :
    (leaveScope dir saved s).localdir = if dir = "" then s.localdir else saved.localdir := by
  by_cases h : dir = "" <;> simp [leaveScope, h]

theorem leaveScope_localPrefix (dir : Path) (saved s : Parse) :
    (leaveScope dir saved s).localPrefix =
      if dir = "" then s.localPrefix else saved.localPrefix := by
  by_cases h : dir = "" <;> simp [leaveScope, h]

/-- After `tmake-reset-defines` the variables of the file are the defines of the scope around. -/
theorem lookup_leave (dir : Path) (s t : Load) (name : String) :
    (Load.leave dir s t).frame.lookup name = s.vars.values.lookup name := by
  show (Parse.values _).lookup name = _
  rw [Parse.lookup_values, Parse.lookup_values]
  show ((leaveScope dir s.vars t.vars).defines.lookup name).map _ = _
  rw [leaveScope_defines]

theorem mem_leave {dir : Path} {s t : Load} {name : String} :
    name ∈ (Load.leave dir s t).frame ↔ name ∈ s.vars.defines := by
  rw [← AList.lookup_isSome, lookup_leave, AList.lookup_isSome, mem_values]

/-- The end of a scope gives everything back but the variables that are no defines. -/
theorem transparent_leave {dir : Path} {s t : Load} :
    Transparent s (Load.leave dir s t) ↔ GivenBack dir s (.ok () t) := by
  constructor
  · intro h
    refine ⟨fun name hname => mem_leave.mp (h.kept name hname), ?_⟩
    by_cases hdir : dir = ""
    · right
      have hlocal : (leaveScope dir s.vars t.vars).localdir = s.vars.localdir := h.localdir
      have hprefix : (leaveScope dir s.vars t.vars).localPrefix = s.vars.localPrefix :=
        h.localPrefix
      rw [leaveScope_localdir, if_pos hdir] at hlocal
      rw [leaveScope_localPrefix, if_pos hdir] at hprefix
      exact ⟨hlocal, hprefix⟩
    · exact Or.inl hdir
  · rintro ⟨hdefines, hdir⟩
    constructor
    · exact leaveScope_defines ..
    · show (leaveScope dir s.vars t.vars).localdir = _
      rw [leaveScope_localdir]
      split
      · exact (hdir.resolve_left (not_not_intro ‹_›)).1
      · rfl
    · show (leaveScope dir s.vars t.vars).localPrefix = _
      rw [leaveScope_localPrefix]
      split
      · exact (hdir.resolve_left (not_not_intro ‹_›)).2
      · rfl
    · intro name value hvalue
      rw [lookup_leave, hvalue]
    · exact fun name hname => mem_leave.mpr (hdefines name hname)

theorem final_proc (body : M Unit) (s : Load) : final (proc body) s = final body s := by
  unfold final proc ended
  cases body s with
  | ok u t => rfl
  | error e t => cases he : e.leaveProc <;> simp [he]

/-- A scope is left through its end, or as its script ends. -/
theorem final_scope (dir : Path) (script : M Unit) (s : Load) :
    final (scope dir script) s =
      match script (s.enter dir) with
      | .ok _ t => Load.leave dir s t
      | .error _ t => t := by
  have hbind : final (scope dir script) s =
      final (inScope dir script >>= fun _ => if s.toplevel then throw (.quit 1) else pure ()) s :=
    final_proc _ s
  rw [hbind, final]
  cases hrun : script (s.enter dir) with
  | ok u t =>
    have hin : inScope dir script s = .ok u (Load.leave dir s t) := by rw [inScope_apply, hrun]
    rw [bind_of_ok hin]
    by_cases htop : s.toplevel = true <;> simp only [htop] <;> rfl
  | error e t =>
    have hin : inScope dir script s = .error e t := by rw [inScope_apply, hrun]
    rw [bind_error_iff.mpr (Or.inl hin)]

/-- **Scopes.**  What a scope leaves is as it should be exactly if its script has given
everything back. -/
theorem scope_transparent_iff (P : Sources) (hook : Hook → M Unit) (dir : Path) (script : Code)
    (s : Load) :
    Transparent s (final (scope dir (script.run P hook)) s) ↔
      GivenBack dir s (script.run P hook (s.enter dir)) := by
  rw [final_scope]
  cases script.run P hook (s.enter dir) with
  | ok u t => exact transparent_leave
  | error e t => exact Iff.rfl

/-- After `set x 1`, the scope of an empty script takes `x` away. -/
theorem scope_not_transparent :
    ¬ ∀ (P : Sources) (hook : Hook → M Unit) (dir : Path) (script : Code) (s : Load),
      Transparent s (final (scope dir (script.run P hook)) s) := by
  intro h
  let P : Sources := { env := fun _ => "", elements := fun v => [v], buildSpec := fun _ => none }
  let s : Load := { frame := AList.insert "x" "1" ∅ }
  have hkept := (h P (fun _ => pure ()) "" .empty s).kept "x" (AList.mem_insert _ |>.mpr (.inl rfl))
  rw [final_scope] at hkept
  exact absurd (mem_leave.mp hkept) (AList.notMem_empty _)

end Tmake.Loading
