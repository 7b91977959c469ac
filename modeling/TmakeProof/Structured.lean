import Mathlib.Logic.Relation
import Mathlib.Data.List.Basic

/-! # Structured scripts with return codes

A script is built from primitive commands by sequence, conditional and loops.
A command ends with a return code: `ok`, or one of the codes by which it leaves
the commands around it.  `brk` and `cont` go to the innermost loop, the others
end the script.  The evaluation of a script is a machine whose control is the
stack of what remains to be done, so that where a code goes is read off the
stack, and a script that never ends is as good as any other.

The log of a configuration holds the commands evaluated, newest first: primitive
commands with the state they were evaluated in, and the commands that only
control others, once for each evaluation of their test or list.
-/
namespace Structured
open Relation

inductive Code where
  | ok | error | ret | brk | cont
  deriving DecidableEq, Repr

/-- A script over the primitive commands `P` and the state `σ`.  A test is an expression, and
`none` is an error in it; the list of an `each` is given by what setting its variable to each
element does to the state. -/
inductive Cmd (P σ : Type) where
  | skip
  | call (p : P)
  | seq (a b : Cmd P σ)
  | cond (test : σ → Option Bool) (a b : Cmd P σ)
  | loop (test : σ → Option Bool) (body next : Cmd P σ)
  | each (items : σ → List (σ → σ)) (body : Cmd P σ)

/-- What remains to be done: a command, or a loop at one of its turning points. -/
inductive Frame (P σ : Type) where
  | cmd (c : Cmd P σ)
  /-- The test of a loop comes next. -/
  | test (test : σ → Option Bool) (body next : Cmd P σ)
  /-- The body of a loop has ended, its `next` script comes next. -/
  | turn (test : σ → Option Bool) (body next : Cmd P σ)
  /-- These elements of a list are left. -/
  | each (items : List (σ → σ)) (body : Cmd P σ)

inductive Event (P σ : Type) where
  | control
  | call (p : P) (s : σ)

inductive Control (P σ : Type) where
  | running (todo : List (Frame P σ))
  | ended (code : Code)

structure Config (P σ : Type) where
  control : Control P σ
  state : σ
  log : List (Event P σ) := []

variable {P σ : Type}

/-! ## Where a return code goes -/

def Frame.isLoop : Frame P σ → Bool
  | .cmd _ => false
  | _ => true

/-- What remains to be done once the innermost loop is left. -/
def afterLoop : List (Frame P σ) → Option (List (Frame P σ))
  | [] => none
  | f :: todo => if f.isLoop then some todo else afterLoop todo

/-- What remains to be done once the innermost loop goes on. -/
def atLoop : List (Frame P σ) → Option (List (Frame P σ))
  | [] => none
  | f :: todo => if f.isLoop then some (f :: todo) else atLoop todo

/-- A command has ended with this code. -/
def resume (todo : List (Frame P σ)) : Code → Control P σ
  | .ok => .running todo
  | .brk => ((afterLoop todo).map .running).getD (.ended .brk)
  | .cont => ((atLoop todo).map .running).getD (.ended .cont)
  | code => .ended code

/-- A test has come out, or is an error. -/
def branch (result : Option Bool) (yes no : List (Frame P σ)) : Control P σ :=
  match result with
  | none => .ended .error
  | some b => .running (if b then yes else no)

/-! ## Evaluation -/

variable (exec : P → σ → Code × σ)

/-- One step of the evaluation; `none` once the script has ended. -/
def step (c : Config P σ) : Option (Config P σ) :=
  match c.control with
  | .ended _ => none
  | .running [] => some { c with control := .ended .ok }
  | .running (.cmd .skip :: todo) => some { c with control := .running todo }
  | .running (.cmd (.call p) :: todo) => some
    { control := resume todo (exec p c.state).1, state := (exec p c.state).2,
      log := .call p c.state :: c.log }
  | .running (.cmd (.seq a b) :: todo) => some
    { c with control := .running (.cmd a :: .cmd b :: todo) }
  | .running (.cmd (.cond test a b) :: todo) => some
    { c with
      control := branch (test c.state) (.cmd a :: todo) (.cmd b :: todo)
      log := .control :: c.log }
  | .running (.cmd (.loop test body next) :: todo) => some
    { c with control := .running (.test test body next :: todo) }
  | .running (.cmd (.each items body) :: todo) => some
    { c with control := .running (.each (items c.state) body :: todo), log := .control :: c.log }
  | .running (.test test body next :: todo) => some
    { c with
      control := branch (test c.state) (.cmd body :: .turn test body next :: todo) todo
      log := .control :: c.log }
  | .running (.turn test body next :: todo) => some
    { c with control := .running (.cmd next :: .test test body next :: todo) }
  | .running (.each [] _ :: todo) => some { c with control := .running todo }
  | .running (.each (item :: items) body :: todo) => some
    { c with control := .running (.cmd body :: .each items body :: todo), state := item c.state }

def Step (c c' : Config P σ) : Prop := step exec c = some c'

abbrev Steps : Config P σ → Config P σ → Prop := ReflTransGen (Step exec)

/-- The script is about to be evaluated. -/
def start (script : Cmd P σ) (s : σ) : Config P σ :=
  { control := .running [.cmd script], state := s }

/-- The script, evaluated in the state `s`, can be here. -/
def Reaches (script : Cmd P σ) (s : σ) (c : Config P σ) : Prop := Steps exec (start script s) c

variable {exec}

/-! ## What one step does -/

/-- A step evaluates a primitive command, evaluates a test or a list, or does neither. -/
theorem step_cases {c c' : Config P σ} (h : Step exec c c') :
    (∃ p todo, c.control = .running (.cmd (.call p) :: todo) ∧
      c' = { control := resume todo (exec p c.state).1, state := (exec p c.state).2,
             log := .call p c.state :: c.log }) ∨
    ((∃ todo, c.control = .running todo) ∧ c'.log = .control :: c.log) ∨
    (c'.log = c.log ∧ (∃ todo, c.control = .running todo) ∧
      (c'.control = .ended .ok ∨ ∃ todo, c'.control = .running todo)) := by
  obtain ⟨control, s, log⟩ := c
  cases control with
  | ended code => cases h
  | running todo =>
    have hquiet : ∀ {s' : σ} {todo' : List (Frame P σ)},
        (⟨.running todo', s', log⟩ : Config P σ).control = .ended .ok ∨
        ∃ t, (⟨.running todo', s', log⟩ : Config P σ).control = .running t :=
      Or.inr ⟨_, rfl⟩
    cases todo with
    | nil =>
      cases h
      exact Or.inr (Or.inr ⟨rfl, ⟨[], rfl⟩, Or.inl rfl⟩)
    | cons f todo =>
      cases f with
      | cmd k =>
        cases k with
        | call p =>
          cases h
          exact Or.inl ⟨p, todo, rfl, rfl⟩
        | skip | seq | loop =>
          cases h
          exact Or.inr (Or.inr ⟨rfl, ⟨_, rfl⟩, hquiet⟩)
        | cond | each =>
          cases h
          exact Or.inr (Or.inl ⟨⟨_, rfl⟩, rfl⟩)
      | test =>
        cases h
        exact Or.inr (Or.inl ⟨⟨_, rfl⟩, rfl⟩)
      | turn =>
        cases h
        exact Or.inr (Or.inr ⟨rfl, ⟨_, rfl⟩, hquiet⟩)
      | each items body =>
        cases items <;> cases h <;> exact Or.inr (Or.inr ⟨rfl, ⟨_, rfl⟩, hquiet⟩)

theorem Step.log_suffix {c c' : Config P σ} (h : Step exec c c') : c.log <:+ c'.log := by
  rcases step_cases h with ⟨p, todo, -, rfl⟩ | ⟨-, hlog⟩ | ⟨hlog, -⟩
  · exact List.suffix_cons ..
  · exact hlog ▸ List.suffix_cons ..
  · exact hlog ▸ List.suffix_rfl

theorem Steps.log_suffix {c c' : Config P σ} (h : Steps exec c c') : c.log <:+ c'.log := by
  induction h with
  | refl => exact List.suffix_rfl
  | tail _ hstep ih => exact ih.trans hstep.log_suffix

/-- As long as no command is evaluated, a running script runs or comes to its end. -/
theorem Steps.quiet {c c' : Config P σ} (h : Steps exec c c') {todo : List (Frame P σ)}
    (hc : c.control = .running todo) (hlog : c'.log = c.log) :
    c'.control = .ended .ok ∨ ∃ todo', c'.control = .running todo' := by
  induction h with
  | refl => exact Or.inr ⟨todo, hc⟩
  | @tail c₁ c₂ hsteps hstep ih =>
    -- the log has not grown in between
    have h₁ := hstep.log_suffix
    rw [hlog] at h₁
    have hlog₁ : c₁.log = c.log := ((Steps.log_suffix hsteps).eq_of_length_le h₁.length_le).symm
    rcases step_cases hstep with ⟨p, todo', -, rfl⟩ | ⟨-, h⟩ | ⟨-, -, h⟩
    · simp [hlog₁] at hlog
    · simp [h, hlog₁] at hlog
    · exact h

/-! ## Scripts that evaluate nothing -/

/-- No command is in the script. -/
def Cmd.Idle : Cmd P σ → Prop
  | .skip => True
  | .seq a b => a.Idle ∧ b.Idle
  | _ => False

def Frame.Idle : Frame P σ → Prop
  | .cmd c => c.Idle
  | .each items body => items = [] ∨ body.Idle
  | _ => False

/-- Nothing remains to be evaluated. -/
def Idle (todo : List (Frame P σ)) : Prop := ∀ f ∈ todo, f.Idle

theorem idle_cons {f : Frame P σ} {todo : List (Frame P σ)} :
    Idle (f :: todo) ↔ f.Idle ∧ Idle todo := List.forall_mem_cons

/-- An idle stack only unwinds. -/
theorem Step.idle {c c' : Config P σ} (h : Step exec c c') {todo : List (Frame P σ)}
    (hc : c.control = .running todo) (hidle : Idle todo) :
    c'.log = c.log ∧ (c'.control = .ended .ok ∨
      ∃ todo', c'.control = .running todo' ∧ Idle todo') := by
  obtain ⟨control, s, log⟩ := c
  obtain rfl : control = .running todo := hc
  cases todo with
  | nil =>
    cases h
    exact ⟨rfl, Or.inl rfl⟩
  | cons f todo =>
    obtain ⟨hf, htodo⟩ := idle_cons.1 hidle
    cases f with
    | cmd k =>
      cases k with
      | skip =>
        cases h
        exact ⟨rfl, Or.inr ⟨_, rfl, htodo⟩⟩
      | seq a b =>
        cases h
        exact ⟨rfl, Or.inr ⟨_, rfl, idle_cons.2 ⟨hf.1, idle_cons.2 ⟨hf.2, htodo⟩⟩⟩⟩
      | call | cond | loop | each => exact hf.elim
    | test | turn => exact hf.elim
    | each items body =>
      cases items with
      | nil =>
        cases h
        exact ⟨rfl, Or.inr ⟨_, rfl, htodo⟩⟩
      | cons item items =>
        cases h
        have hbody : body.Idle := hf.resolve_left (by simp)
        exact ⟨rfl, Or.inr ⟨_, rfl, idle_cons.2 ⟨hbody, idle_cons.2 ⟨Or.inr hbody, htodo⟩⟩⟩⟩

/-- An idle command leaves the state as it is. -/
theorem Cmd.Idle.steps {k : Cmd P σ} (hk : k.Idle) (todo : List (Frame P σ)) (s : σ)
    (log : List (Event P σ)) :
    Steps exec ⟨.running (.cmd k :: todo), s, log⟩ ⟨.running todo, s, log⟩ := by
  induction k generalizing todo with
  | skip => exact .single rfl
  | seq a b iha ihb => exact .head rfl ((iha hk.1 _).trans (ihb hk.2 _))
  | call | cond | loop | each => exact hk.elim

variable (exec) in
theorem Frame.Idle.steps {f : Frame P σ} (hf : f.Idle) (todo : List (Frame P σ)) (s : σ)
    (log : List (Event P σ)) :
    ∃ s', Steps exec ⟨.running (f :: todo), s, log⟩ ⟨.running todo, s', log⟩ := by
  cases f with
  | cmd k => exact ⟨s, Cmd.Idle.steps hf todo s log⟩
  | test | turn => exact hf.elim
  | each items body =>
    induction items generalizing s with
    | nil => exact ⟨s, .single rfl⟩
    | cons item items ih =>
      have hbody : body.Idle := hf.resolve_left (by simp)
      obtain ⟨s', hs'⟩ := ih (item s) (Or.inr hbody)
      exact ⟨s', .head rfl ((hbody.steps _ _ _).trans hs')⟩

theorem Cmd.steps_of_not_idle {k : Cmd P σ} (hk : ¬k.Idle) (todo : List (Frame P σ)) (s : σ)
    (log : List (Event P σ)) :
    ∃ c e, Steps exec ⟨.running (.cmd k :: todo), s, log⟩ c ∧ c.log = e :: log := by
  induction k generalizing todo with
  | skip => exact (hk trivial).elim
  | call | cond | each => exact ⟨_, _, .single rfl, rfl⟩
  | loop => exact ⟨_, _, .head rfl (.single rfl), rfl⟩
  | seq a b iha ihb =>
    by_cases ha : a.Idle
    · obtain ⟨c, e, hc, hlog⟩ := ihb (fun hb => hk ⟨ha, hb⟩) todo
      exact ⟨c, e, .head rfl ((ha.steps _ _ _).trans hc), hlog⟩
    · obtain ⟨c, e, hc, hlog⟩ := iha ha (.cmd b :: todo)
      exact ⟨c, e, .head rfl hc, hlog⟩

theorem Frame.steps_of_not_idle {f : Frame P σ} (hf : ¬f.Idle) (todo : List (Frame P σ)) (s : σ)
    (log : List (Event P σ)) :
    ∃ c e, Steps exec ⟨.running (f :: todo), s, log⟩ c ∧ c.log = e :: log := by
  cases f with
  | cmd k => exact Cmd.steps_of_not_idle hf todo s log
  | test => exact ⟨_, _, .single rfl, rfl⟩
  | turn test body next =>
    by_cases hnext : next.Idle
    · exact ⟨_, _, .head rfl ((hnext.steps _ _ _).trans (.single rfl)), rfl⟩
    · obtain ⟨c, e, hc, hlog⟩ := Cmd.steps_of_not_idle hnext (.test test body next :: todo) s log
      exact ⟨c, e, .head rfl hc, hlog⟩
  | each items body =>
    cases items with
    | nil => exact (hf (Or.inl rfl)).elim
    | cons item items =>
      have hbody : ¬body.Idle := fun h => hf (Or.inr h)
      obtain ⟨c, e, hc, hlog⟩ :=
        Cmd.steps_of_not_idle hbody (.each items body :: todo) (item s) log
      exact ⟨c, e, .head rfl hc, hlog⟩

variable (exec) in
/-- What is not idle comes to evaluate a command. -/
theorem steps_of_not_idle {todo : List (Frame P σ)} (h : ¬Idle todo) (s : σ)
    (log : List (Event P σ)) :
    ∃ c e, Steps exec ⟨.running todo, s, log⟩ c ∧ c.log = e :: log := by
  induction todo generalizing s with
  | nil => exact (h fun f hf => nomatch hf).elim
  | cons f todo ih =>
    by_cases hf : f.Idle
    · obtain ⟨s', hs'⟩ := hf.steps exec todo s log
      obtain ⟨c, e, hc, hlog⟩ := ih (fun htodo => h (idle_cons.2 ⟨hf, htodo⟩)) s'
      exact ⟨c, e, hs'.trans hc, hlog⟩
    · exact Frame.steps_of_not_idle hf todo s log

/-! ## Commands that break off the script -/

variable (exec) in
theorem step_call {c : Config P σ} {p : P} {todo : List (Frame P σ)}
    (h : c.control = .running (.cmd (.call p) :: todo)) :
    Step exec c { control := resume todo (exec p c.state).1, state := (exec p c.state).2,
                  log := .call p c.state :: c.log } := by
  obtain ⟨control, s, log⟩ := c
  obtain rfl : control = _ := h
  rfl

theorem resume_brk_of_some {todo rest : List (Frame P σ)} (h : afterLoop todo = some rest) :
    resume todo .brk = .running rest := by
  simp [resume, h]

theorem resume_brk_of_none {todo : List (Frame P σ)} (h : afterLoop todo = none) :
    resume todo .brk = .ended .brk := by
  simp [resume, h]

/-- The log has a command of `B` in it. -/
def Event.In (B : P → σ → Prop) : Event P σ → Prop
  | .control => False
  | .call p t => B p t

variable (exec) in
/-- A command of `B` is the last one evaluated. -/
def EndsLog (B : P → σ → Prop) (script : Cmd P σ) (s : σ) : Prop :=
  ∀ c, Reaches exec script s c → ∀ later e earlier, c.log = later ++ e :: earlier → e.In B →
    later = []

variable (exec) in
/-- A command of `B` is the last one evaluated, and the script ends, with a code of `F`. -/
def Aborts (B : P → σ → Prop) (F : Code → Prop) (script : Cmd P σ) (s : σ) : Prop :=
  ∀ c, Reaches exec script s c → ∀ later e earlier, c.log = later ++ e :: earlier → e.In B →
    later = [] ∧ ∃ c' code, Steps exec c c' ∧ c'.log = c.log ∧ c'.control = .ended code ∧ F code

/-- After the first command of `B`, which is the last command, the control is in `Q`. -/
def Broken (B : P → σ → Prop) (Q : Control P σ → Prop) (c : Config P σ) : Prop :=
  (∀ e ∈ c.log, ¬e.In B) ∨
    ∃ e rest, c.log = e :: rest ∧ (∀ x ∈ rest, ¬x.In B) ∧ Q c.control

/-- If every command of `B` leads to a control in `Q`, where nothing is evaluated, it is the
last. -/
theorem broken_of_reaches {B : P → σ → Prop} {Q : Control P σ → Prop} {script : Cmd P σ} {s : σ}
    (hstay : ∀ c c', Step exec c c' → Q c.control → c'.log = c.log ∧ Q c'.control)
    (hB : ∀ c todo p, Reaches exec script s c → c.control = .running (.cmd (.call p) :: todo) →
      B p c.state → Q (resume todo (exec p c.state).1))
    {c : Config P σ} (h : Reaches exec script s c) : Broken B Q c := by
  induction h with
  | refl => exact Or.inl fun e he => nomatch he
  | @tail c c' hc hstep ih =>
    rcases ih with hnone | ⟨e, rest, hlog, hrest, hQ⟩
    · rcases step_cases hstep with ⟨p, todo, hcontrol, rfl⟩ | ⟨-, hlog⟩ | ⟨hlog, -⟩
      · by_cases hp : B p c.state
        · exact Or.inr ⟨_, _, rfl, hnone, hB c todo p hc hcontrol hp⟩
        · refine Or.inl fun e he => ?_
          rcases List.mem_cons.1 he with rfl | he
          · exact hp
          · exact hnone e he
      · refine Or.inl fun e he => ?_
        rw [hlog] at he
        rcases List.mem_cons.1 he with rfl | he
        · exact id
        · exact hnone e he
      · exact Or.inl (hlog ▸ hnone)
    · obtain ⟨hlog', hQ'⟩ := hstay c c' hstep hQ
      exact Or.inr ⟨e, rest, hlog'.trans hlog, hrest, hQ'⟩

/-- In a broken off configuration the command of `B` is at the head of the log. -/
theorem Broken.last {B : P → σ → Prop} {Q : Control P σ → Prop} {c : Config P σ}
    (h : Broken B Q c) {later earlier : List (Event P σ)} {e : Event P σ}
    (hlog : c.log = later ++ e :: earlier) (he : e.In B) : later = [] ∧ Q c.control := by
  rcases h with hnone | ⟨x, rest, hx, hrest, hQ⟩
  · exact (hnone e (by simp [hlog]) he).elim
  · cases later with
    | nil => exact ⟨rfl, hQ⟩
    | cons y later =>
      rw [hx] at hlog
      obtain ⟨-, hrest'⟩ := List.cons.inj hlog
      exact (hrest e (by simp [hrest']) he).elim

section
variable {B : P → σ → Prop} (hbrk : ∀ p t, B p t → (exec p t).1 = .brk)
include hbrk

/-- A `break` is the last command of a script exactly if nothing remains to be done after the
innermost loop around it. -/
theorem endsLog_iff (script : Cmd P σ) (s : σ) :
    EndsLog exec B script s ↔
      ∀ c todo p rest, Reaches exec script s c → c.control = .running (.cmd (.call p) :: todo) →
        B p c.state → afterLoop todo = some rest → Idle rest := by
  constructor
  · intro h c todo p rest hc hcontrol hp hloop
    by_contra hidle
    have hstep := step_call exec hcontrol
    rw [hbrk p _ hp, resume_brk_of_some hloop] at hstep
    obtain ⟨c', e, hc', hlog⟩ := steps_of_not_idle exec hidle (exec p c.state).2
      (.call p c.state :: c.log)
    have hlast := h c' ((hc.tail hstep).trans hc') [e] (.call p c.state) c.log hlog hp
    cases hlast
  · intro h c hc later e earlier hlog he
    let Q : Control P σ → Prop := fun k =>
      (∃ code, k = .ended code) ∨ ∃ todo, k = .running todo ∧ Idle todo
    have hstay : ∀ c c', Step exec c c' → Q c.control → c'.log = c.log ∧ Q c'.control := by
      rintro ⟨control, t, log⟩ c' hstep (⟨code, rfl⟩ | ⟨todo, rfl, hidle⟩)
      · cases hstep
      · obtain ⟨hlog, hcontrol⟩ := hstep.idle rfl hidle
        exact ⟨hlog, hcontrol.imp (fun h => ⟨_, h⟩) id⟩
    refine ((broken_of_reaches hstay ?_ hc).last hlog he).1
    intro c todo p hc hcontrol hp
    rw [hbrk p _ hp]
    cases hloop : afterLoop todo with
    | none => exact Or.inl ⟨_, resume_brk_of_none hloop⟩
    | some rest => exact Or.inr ⟨rest, resume_brk_of_some hloop, h c todo p rest hc hcontrol hp hloop⟩

/-- A `break` aborts the script exactly if there is no loop around it. -/
theorem aborts_iff {F : Code → Prop} (hF : F .brk) (hok : ¬F .ok) (script : Cmd P σ) (s : σ) :
    Aborts exec B F script s ↔
      ∀ c todo p, Reaches exec script s c → c.control = .running (.cmd (.call p) :: todo) →
        B p c.state → afterLoop todo = none := by
  constructor
  · intro h c todo p hc hcontrol hp
    cases hloop : afterLoop todo with
    | none => rfl
    | some rest =>
      have hstep := step_call exec hcontrol
      rw [hbrk p _ hp, resume_brk_of_some hloop] at hstep
      obtain ⟨-, c', code, hc', hlog, hended, hcode⟩ :=
        h _ (hc.tail hstep) [] (.call p c.state) c.log rfl hp
      -- nothing is evaluated any more, so that the script ends without a code
      rcases Steps.quiet hc' rfl hlog with hend | ⟨todo', hend⟩
      · rw [hended] at hend
        cases hend
        exact (hok hcode).elim
      · rw [hended] at hend
        cases hend
  · intro h c hc later e earlier hlog he
    have hstay : ∀ c c', Step exec c c' → c.control = .ended .brk →
        c'.log = c.log ∧ c'.control = .ended .brk := by
      rintro ⟨control, t, log⟩ c' hstep rfl
      cases hstep
    have hbroken : Broken B (fun k => k = .ended .brk) c := by
      refine broken_of_reaches hstay (fun c todo p hc hcontrol hp => ?_) hc
      rw [hbrk p _ hp]
      exact resume_brk_of_none (h c todo p hc hcontrol hp)
    obtain ⟨hlater, hended⟩ := hbroken.last hlog he
    exact ⟨hlater, c, .brk, .refl, rfl, hended, hF⟩

end

end Structured
