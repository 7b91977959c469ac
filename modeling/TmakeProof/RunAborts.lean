import TmakeProof.Nofail
import TmakeProof.Structured

/-! # What a `run` breaks off

`run` ends a script with `return -code break` in two cases: its command has
failed, or it has forked and this is the parent.  The script is evaluated by
`catch` in `run-do`, so that the `break` ends it unless the `run` stands in a
loop, which takes the `break` for its own.  Scripts are those of `Structured`,
over built-in commands and `run`; what the built-in commands and the external
ones do is arbitrary.
-/
namespace Tmake

open Weakest Structured

/-! ## The command `run` -/

/-- The primitive commands of a script: a built-in one, or `run`. -/
inductive Prim (B X : Type) where
  | builtin (b : B)
  | run (x : X)

/-- The process that evaluates the script: one that does not fork (a single job or a `-nofork`
rule), one that has not forked yet, and the two that come out of a fork. -/
inductive Proc where
  | sync | unforked | parent | child
  deriving DecidableEq, Repr

/-- What the commands do to the world `W`; an external command succeeds or not. -/
structure Shell (B X W : Type) where
  builtin : B → W → Code × W
  external : X → W → Bool × W

variable {B X W : Type}

/-- `fork-job-if-required`, as seen by the process that is followed. -/
def forkIfRequired (side : Proc) (m : Proc) : Proc := if m = .unforked then side else m

namespace Shell
variable (sh : Shell B X W) (side : Proc)

/-- `run`: in the parent it breaks at once, elsewhere it executes its command. -/
def run (x : X) (s : W × Proc) : Code × (W × Proc) :=
  let m := forkIfRequired side s.2
  if m = .parent then (.brk, (s.1, m))
  else (if (sh.external x s.1).1 then .ok else .brk, ((sh.external x s.1).2, m))

def exec : Prim B X → W × Proc → Code × (W × Proc)
  | .builtin b, s => ((sh.builtin b s.1).1, ((sh.builtin b s.1).2, s.2))
  | .run x, s => sh.run side x s

/-- A `run` executes its command, which fails. -/
def Fails : Prim B X → W × Proc → Prop
  | .builtin _, _ => False
  | .run x, s => forkIfRequired side s.2 ≠ .parent ∧ (sh.external x s.1).1 = false

end Shell

/-- A `run` forks. -/
def Forks : Prim B X → W × Proc → Prop
  | .builtin _, _ => False
  | .run _, s => s.2 = .unforked

theorem Shell.Fails.breaks {sh : Shell B X W} {side : Proc} {p : Prim B X} {s : W × Proc}
    (h : sh.Fails side p s) : (sh.exec side p s).1 = .brk := by
  cases p with
  | builtin b => exact h.elim
  | run x => simp [Shell.exec, Shell.run, h.1, h.2]

theorem Forks.breaks {sh : Shell B X W} {p : Prim B X} {s : W × Proc} (h : Forks p s) :
    (sh.exec .parent p s).1 = .brk := by
  cases p with
  | builtin b => exact h.elim
  | run x =>
    have hm : s.2 = .unforked := h
    simp [Shell.exec, Shell.run, forkIfRequired, hm]

/-! ## What the rule makes of it -/

/-- The return code of `catch`. -/
def returnCode : Code → Nat
  | .ok => 0
  | .error => 1
  | .ret => 2
  | .brk => 3
  | .cont => 4

/-- Whatever the rule: with a script that ends so, its list fails the rule, unless tmake stops;
and in a child it fails the job. -/
def FailsRule (code : Code) : Prop :=
  ∀ (d : Desc) (E : Env) (r : Rule) (i : Nat) (script : Script) (scripts : List Script) (w : World),
    (E.exec w.tick r.target (.script i) w.fs).rc = returnCode code →
    wp (do
        let rc ← runScripts d E r none i (script :: scripts)
        endForeground d E r (rc.getD 0))
      (fun st _ => st = .failed) (fun _ _ => True) w ∧
    (childScripts E r w.tick i (script :: scripts) w.fs).1 ≠ 0

theorem wp_endForeground_failed (d : Desc) (E : Env) (r : Rule) {n : Nat} (hn : n ≠ 0) (w : World) :
    wp (endForeground d E r n) (fun st _ => st = .failed) (fun _ _ => True) w := by
  unfold endForeground
  iterate 2 refine wp_bind_last fun _ _ => ?_
  simp [hn]

/-- The `break` of a `run` fails any rule, also one with `-nofail`. -/
theorem failsRule_brk : FailsRule .brk := by
  intro d E r i script scripts w hrc
  have hstop : ∀ res : ScriptResult, res.rc = 3 →
      (res.rc ≠ 0 && !(r.nofail && res.rc = 1)) = true := by
    intro res h
    simp [h]
  have hrc3 : (E.exec w.tick r.target (.script i) w.fs).rc = 3 := hrc
  constructor
  · obtain ⟨w₁, -, -, -, -, -, hbreak⟩ :=
      runScripts_cons (d := d) (r := r) (i := i) (w := w) rfl (Or.inl rfl) script scripts
    rw [wp_congr_run (bind_of_ok (hbreak (hstop _ hrc3))), Option.getD_some, hrc3]
    exact wp_endForeground_failed d E r (by decide) w₁
  · unfold childScripts
    dsimp only
    rw [if_pos (hstop _ hrc3)]
    show (E.exec w.tick r.target (.script i) w.fs).rc ≠ 0
    omega

theorem not_failsRule_ok : ¬FailsRule .ok := by
  intro h
  let E : Env := { exec := fun _ _ _ _ => {}, pick := id }
  exact (h { rules := [], disjoint := .nil } E { target := [] } 0 ⟨[]⟩ [] { fs := fun _ => none }
    rfl).2 rfl

/-! ## When a `run` breaks the script off -/

/-- A failing `run` is the last command of its script, and fails the rule, exactly for the
evaluations in which no failing `run` stands in a loop; and the parent evaluates nothing after a
fork exactly if nothing remains to be done after the innermost loop around the `run` that
forks. -/
theorem run_breaks_off_iff (sh : Shell B X W) (script : Cmd (Prim B X) (W × Proc)) (w : W)
    (m : Proc) :
    (∀ side, Aborts (sh.exec side) (sh.Fails side) FailsRule script (w, m) ↔
      ∀ c todo p, Reaches (sh.exec side) script (w, m) c →
        c.control = .running (.cmd (.call p) :: todo) → sh.Fails side p c.state →
        afterLoop todo = none) ∧
    (EndsLog (sh.exec .parent) Forks script (w, m) ↔
      ∀ c todo p rest, Reaches (sh.exec .parent) script (w, m) c →
        c.control = .running (.cmd (.call p) :: todo) → Forks p c.state →
        afterLoop todo = some rest → Idle rest) :=
  ⟨fun _ => aborts_iff (fun _ _ h => h.breaks) failsRule_brk not_failsRule_ok script (w, m),
    endsLog_iff (fun _ _ h => h.breaks) script (w, m)⟩

/-- `foreach x {1 2} {run false}`, and then another command. -/
def loopScript : Cmd (Prim Unit Unit) (Unit × Proc) :=
  .seq (.each (fun _ => [id, id]) (.call (.run ()))) (.call (.builtin ()))

/-- All external commands fail. -/
def failingShell : Shell Unit Unit Unit where
  builtin _ w := (.ok, w)
  external _ w := (false, w)

theorem loopScript_reaches_run (side m : Proc) :
    Reaches (failingShell.exec side) loopScript ((), m)
      { control := .running [.cmd (.call (.run ())), .each [id] (.call (.run ())),
          .cmd (.call (.builtin ()))],
        state := ((), m), log := [.control] } :=
  .head rfl (.head rfl (.single rfl))

/-- The loop swallows the `break` of the failing `run`, and in the parent that of the fork. -/
theorem loopScript_goes_on :
    ¬Aborts (failingShell.exec .child) (failingShell.Fails .child) FailsRule loopScript
      ((), .sync) ∧
    ¬EndsLog (failingShell.exec .parent) Forks loopScript ((), .unforked) := by
  constructor
  · rw [aborts_iff (fun _ _ h => h.breaks) failsRule_brk not_failsRule_ok]
    intro h
    cases h _ _ _ (loopScript_reaches_run .child .sync) rfl ⟨by decide, rfl⟩
  · rw [endsLog_iff (fun _ _ h => h.breaks)]
    intro h
    have hidle := h _ _ _ _ (loopScript_reaches_run .parent .unforked) rfl rfl rfl
    exact hidle _ List.mem_cons_self

end Tmake
