import TmakeProof.CleanUp
import TmakeProof.Engine

/-! # The external commands of a rule

With `CheckExternalCommands`, `run` enters the details of its command in `tmakecache(exec)`
before it forks.  Two processes come out of the fork: the child executes the commands, but it
is the memory of the main process that is saved. -/
namespace Tmake.ExternalCommands
open Structured CleanUp

/-- Commands with their path, modification time and size; the last one comes first. -/
abbrev Details := List (String × String)

/-- The entries after the details have been entered one by one. -/
def enter (ds : Details) (entries : Dict String String) : Dict String String :=
  ds.foldr (fun x entries => entries.insert x.1 x.2) entries

/-- There is one entry for each of the commands, with the details that it had last, and no
other. -/
def Tracked (entries : Dict String String) (ran : Details) : Prop :=
  ∀ cmd, entries.lookup cmd = ran.lookup cmd

/-- A process that takes part in the building of a rule. -/
structure Process (W : Type) extends CleanUp.Globals W where
  /-- Not part of the program: the external commands that this process has executed, but those
  in the current directory, with the details that they had. -/
  ran : Details := []

/-- The process that goes on after a fork. -/
inductive Side where
  | parent | child

/-- While `wait-for-job-slots` waits, the world changes, and the clean-up scripts of other rules
may enter their commands for this one. -/
structure Waiting (W : Type) where
  world : W → W := id
  entered : W → Details := fun _ => []

section
variable {W : Type} (host : Host W) (waiting : Waiting W) (side : Side)

/-! ## The processes -/

/-- The entries of the rule started last. -/
def Process.entries (s : Process W) : Dict String String := s.exec s.currentruletarget

/-- The details of the command are entered. -/
def Process.lookUp (c : CmdLine) (s : Process W) : Process W :=
  { s with toGlobals := CleanUp.lookUp host c s.toGlobals }

/-- What `add-new-job` returns. -/
def Side.pid (g : CleanUp.Globals W) : Side → Int
  | .parent => g.lastpid + 1
  | .child => 0

/-- `fork-job-if-required`. -/
def fork (s : Process W) : Process W :=
  if Required host s.toGlobals then
    { s with
      world := waiting.world s.world
      exec := Function.update s.exec s.currentruletarget (enter (waiting.entered s.world) s.entries)
      jobpid := side.pid s.toGlobals }
  else s

/-- The details that `run` enters for a command. -/
def details (c : CmdLine) (w : W) : Details :=
  if isLocal host c { world := w } then [] else [(c.cmd, host.statCmd c.cmd w)]

/-- `run`. -/
def run (c : CmdLine) (s : Process W) : Code × Process W :=
  let line := localLine host c s.toGlobals
  let s' := fork host waiting side (s.lookUp host c)
  if s'.jobpid > 0 then (.brk, s')
  else ((external host line s'.toGlobals).1,
    { s' with
      toGlobals := (external host line s'.toGlobals).2
      ran := details host c s.world ++ s'.ran })

def runBody : Body W → Process W → Code × Process W
  | .done code, s => (code, s)
  | .builtin f next, s => runBody (next (f s.world)) { s with world := f s.world }
  | .run c next, s =>
    runBody (next (run host waiting side c s).1 (run host waiting side c s).2.world)
      (run host waiting side c s).2

/-- A script that ends so fails its rule. -/
def Fatal (recipe : Recipe W) (code : Code) : Prop :=
  code ≠ .ok ∧ ¬(recipe.nofail ∧ code = .error)

instance (recipe : Recipe W) (code : Code) : Decidable (Fatal recipe code) :=
  inferInstanceAs (Decidable (code ≠ .ok ∧ ¬(recipe.nofail ∧ code = .error)))

/-- The loop of `build` over the `-do` list. -/
def runScripts (recipe : Recipe W) : List (Body W) → Process W → Bool × Process W
  | [], s => (true, s)
  | script :: scripts, s =>
    let r := runBody host waiting side script s
    -- a `run` has forked and this is the parent
    if r.2.jobpid > 0 then (true, r.2)
    else if Fatal recipe r.1 then (false, r.2)
    else runScripts recipe scripts r.2

/-- The process that starts a rule; `notify` is whether there is a rule to notify. -/
def start (recipe : Recipe W) (notify : Bool) (m : Memory W) : Process W :=
  { toGlobals := (setCurrent host recipe notify m).toGlobals }

/-- A `-slow` rule is forked before its first script. -/
def startSlow (recipe : Recipe W) (s : Process W) : Process W :=
  if recipe.slow then fork host waiting side s else s

/-- The part of `build` that runs a rule. -/
def buildRule (recipe : Recipe W) (notify : Bool) (m : Memory W) : Bool × Process W :=
  let s := startSlow host waiting side recipe (start host recipe notify m)
  if s.jobpid > 0 then (true, s) else runScripts host waiting side recipe recipe.doList s

/-- The rule is built in the background, if it comes to a `run` or is `-slow`. -/
def Background (recipe : Recipe W) (notify : Bool) : Prop :=
  host.maxjobs > 1 ∧ notify = true ∧ recipe.nofork = false

instance (recipe : Recipe W) (notify : Bool) : Decidable (Background host recipe notify) :=
  inferInstanceAs (Decidable (host.maxjobs > 1 ∧ notify = true ∧ recipe.nofork = false))

/-- What is in `tmakecache(exec)` for the rule in the end; `later` is what other scripts enter
for it in the meantime. -/
def cached (recipe : Recipe W) (notify : Bool) (m : Memory W) (later : Details) :
    Dict String String :=
  enter later ((buildRule host waiting .parent recipe notify m).2.exec recipe.target)

/-- The external commands that the `-do` list runs, in the child if there is one. -/
def commands (recipe : Recipe W) (notify : Bool) (m : Memory W) : Details :=
  (buildRule host waiting .child recipe notify m).2.ran

/-! ## What the main process looks up -/

/-- The details that a script enters if every `run` in it breaks. -/
def broken : Body W → W → Details
  | .done _, _ => []
  | .builtin f next, w => broken (next (f w)) (f w)
  | .run c next, w => broken (next .brk w) w ++ details host c w

/-- What a script does whose first `run` forks: if it has none, how it ends, and else what it
enters. -/
def lookedUpBy : Body W → W → (Code × W) ⊕ Details
  | .done code, w => .inl (code, w)
  | .builtin f next, w => lookedUpBy (next (f w)) (f w)
  | .run c next, w =>
    .inr (broken host (next .brk (waiting.world w)) (waiting.world w) ++
      (waiting.entered w ++ details host c w))

def lookedUpIn (recipe : Recipe W) : List (Body W) → W → Details
  | [], _ => []
  | script :: scripts, w =>
    match lookedUpBy host waiting script w with
    | .inl (code, w) => if Fatal recipe code then [] else lookedUpIn recipe scripts w
    | .inr ds => ds

/-- The details that are entered for a rule that is built in the background. -/
def lookedUp (recipe : Recipe W) (w : W) : Details :=
  if recipe.slow then waiting.entered w else lookedUpIn host waiting recipe recipe.doList w

/-! ## Entries -/

theorem enter_append (ds ds' : Details) (entries : Dict String String) :
    enter (ds ++ ds') entries = enter ds (enter ds' entries) := List.foldr_append

variable {host waiting side} {c : CmdLine} {s : Process W} {recipe : Recipe W}

theorem lookup_enter (ds : Details) (cmd : String) : (enter ds ∅).lookup cmd = ds.lookup cmd := by
  induction ds with
  | nil => exact AList.lookup_empty cmd
  | cons x ds ih =>
    rw [List.lookup_cons]
    by_cases h : cmd = x.1
    · rw [h, beq_self_eq_true]
      exact AList.lookup_insert _
    · rw [beq_false_of_ne h]
      exact (AList.lookup_insert_ne h).trans ih

theorem tracked_enter {ds ran : Details} :
    Tracked (enter ds ∅) ran ↔ ∀ cmd, ds.lookup cmd = ran.lookup cmd :=
  forall_congr' fun cmd => by rw [lookup_enter]

@[simp] theorem lookUp_world : (s.lookUp host c).world = s.world := by
  rw [Process.lookUp, CleanUp.lookUp]
  split <;> rfl

@[simp] theorem lookUp_currentruletarget :
    (s.lookUp host c).currentruletarget = s.currentruletarget := by
  rw [Process.lookUp, CleanUp.lookUp]
  split <;> rfl

theorem lookUp_entries (hcheck : host.checkexternalcmds = true) :
    (s.lookUp host c).entries = enter (details host c s.world) s.entries := by
  have hlocal : isLocal host c { world := s.world } = isLocal host c s.toGlobals := rfl
  rw [Process.lookUp, CleanUp.lookUp, details, hlocal, hcheck]
  cases isLocal host c s.toGlobals with
  | true => rfl
  | false => exact Function.update_self ..

theorem lookUp_required : Required host (s.lookUp host c).toGlobals ↔ Required host s.toGlobals :=
  required_lookUp

theorem fork_of_not_required (h : ¬Required host s.toGlobals) : fork host waiting side s = s :=
  if_neg h

theorem fork_of_required (h : Required host s.toGlobals) : fork host waiting side s = { s with
    world := waiting.world s.world
    exec := Function.update s.exec s.currentruletarget (enter (waiting.entered s.world) s.entries)
    jobpid := side.pid s.toGlobals } := if_pos h

theorem fork_entries (h : Required host s.toGlobals) :
    (fork host waiting side s).entries = enter (waiting.entered s.world) s.entries := by
  rw [fork_of_required h]
  exact Function.update_self ..

theorem fork_parent (h : Required host s.toGlobals) :
    0 < (fork host waiting .parent s).jobpid := by
  rw [fork_of_required h]
  exact Int.lt_add_one_of_le (Int.natCast_nonneg _)

/-! ## Where nothing is forked -/

/-- A process that does not fork and has not forked, with what it has executed entered. -/
structure Foreground (host : Host W) (s : Process W) : Prop where
  safe : Safe host s.toGlobals
  entries : s.entries = enter s.ran ∅

theorem run_of_safe (h : Safe host s.toGlobals) : run host waiting side c s =
    ((runForeground host c s.toGlobals).1, { s with
      toGlobals := (runForeground host c s.toGlobals).2
      ran := details host c s.world ++ s.ran }) := by
  have hsafe : Safe host (s.lookUp host c).toGlobals := safe_lookUp.mpr h
  have hfork : fork host waiting side (s.lookUp host c) = s.lookUp host c :=
    fork_of_not_required hsafe.2
  rw [run, hfork]
  dsimp only
  rw [if_neg (not_lt.mpr hsafe.1)]
  rfl

theorem Foreground.run (hcheck : host.checkexternalcmds = true) (h : Foreground host s) :
    Foreground host (run host waiting side c s).2 := by
  rw [run_of_safe h.safe]
  refine ⟨h.safe.run, ?_⟩
  have hentries : (s.lookUp host c).entries = enter (details host c s.world ++ s.ran) ∅ := by
    rw [lookUp_entries hcheck, h.entries, enter_append]
  exact hentries

theorem Foreground.runBody (hcheck : host.checkexternalcmds = true) (body : Body W)
    (h : Foreground host s) : Foreground host (runBody host waiting side body s).2 ∧
      ∀ side', ExternalCommands.runBody host waiting side' body s =
        ExternalCommands.runBody host waiting side body s := by
  induction body generalizing s with
  | done code => exact ⟨h, fun _ => rfl⟩
  | builtin f next ih =>
    exact ih (f s.world) (s := { s with world := f s.world }) ⟨h.safe, h.entries⟩
  | run c next ih =>
    have hrun : Foreground host (ExternalCommands.run host waiting side c s).2 := h.run hcheck
    obtain ⟨hend, hside⟩ := ih _ _ hrun
    refine ⟨hend, fun side' => ?_⟩
    have hsame : ExternalCommands.run host waiting side' c s =
        ExternalCommands.run host waiting side c s := by
      rw [run_of_safe h.safe, run_of_safe h.safe]
    rw [ExternalCommands.runBody, ExternalCommands.runBody, hsame]
    exact hside side'

/-- In the foreground the two processes are one, which enters what it executes. -/
theorem Foreground.runScripts (hcheck : host.checkexternalcmds = true) (scripts : List (Body W))
    (h : Foreground host s) : Foreground host (runScripts host waiting side recipe scripts s).2 ∧
      ∀ side', ExternalCommands.runScripts host waiting side' recipe scripts s =
        ExternalCommands.runScripts host waiting side recipe scripts s := by
  induction scripts generalizing s with
  | nil => exact ⟨h, fun _ => rfl⟩
  | cons script scripts ih =>
    have hbody : Foreground host (ExternalCommands.runBody host waiting side script s).2 :=
      (h.runBody hcheck script).1
    have hside (side' : Side) : ExternalCommands.runBody host waiting side' script s =
        ExternalCommands.runBody host waiting side script s := (h.runBody hcheck script).2 side'
    have hpid : ¬(ExternalCommands.runBody host waiting side script s).2.jobpid > 0 :=
      not_lt.mpr hbody.safe.1
    simp only [ExternalCommands.runScripts, hside, if_neg hpid]
    split
    · exact ⟨hbody, fun _ => rfl⟩
    · exact ih hbody

/-! ## The main process -/

/-- A main process that has forked. -/
theorem run_of_forked (h : 0 < s.jobpid) :
    run host waiting side c s = (.brk, s.lookUp host c) := by
  have hpid : 0 < (s.lookUp host c).jobpid := h.trans_eq lookUp_jobpid.symm
  have hfork : fork host waiting side (s.lookUp host c) = s.lookUp host c := by
    refine fork_of_not_required fun hreq => ?_
    rw [hreq.2.2] at hpid
    exact absurd hpid (by decide)
  rw [run, hfork]
  exact if_pos hpid

theorem runBody_of_forked (hcheck : host.checkexternalcmds = true) (body : Body W)
    (h : 0 < s.jobpid) : 0 < (runBody host waiting side body s).2.jobpid ∧
      (runBody host waiting side body s).2.entries = enter (broken host body s.world) s.entries := by
  induction body generalizing s with
  | done code => exact ⟨h, rfl⟩
  | builtin f next ih => exact ih (f s.world) (s := { s with world := f s.world }) h
  | run c next ih =>
    have hpid : 0 < (s.lookUp host c).jobpid := h.trans_eq lookUp_jobpid.symm
    have hrest := ih .brk s.world hpid
    rw [runBody, run_of_forked h]
    dsimp only
    rw [lookUp_world]
    refine ⟨hrest.1, hrest.2.trans ?_⟩
    rw [lookUp_world, lookUp_entries hcheck, broken, enter_append]

/-- The first `run` of the main process. -/
theorem run_of_required (h : Required host s.toGlobals) :
    run host waiting .parent c s = (.brk, fork host waiting .parent (s.lookUp host c)) :=
  if_pos (fork_parent (lookUp_required.mpr h))

theorem runBody_of_required (hcheck : host.checkexternalcmds = true) (body : Body W)
    (h : Required host s.toGlobals) :
    match lookedUpBy host waiting body s.world with
    | .inl (code, w) => runBody host waiting .parent body s = (code, { s with world := w })
    | .inr ds => 0 < (runBody host waiting .parent body s).2.jobpid ∧
      (runBody host waiting .parent body s).2.entries = enter ds s.entries := by
  induction body generalizing s with
  | done code => exact rfl
  | builtin f next ih => exact ih (f s.world) (s := { s with world := f s.world }) h
  | run c next ih =>
    have hreq : Required host (s.lookUp host c).toGlobals := lookUp_required.mpr h
    have hforked : (fork host waiting .parent (s.lookUp host c)).world = waiting.world s.world := by
      rw [fork_of_required hreq, ← lookUp_world (s := s)]
    rw [lookedUpBy, runBody, run_of_required h]
    dsimp only
    rw [hforked]
    obtain ⟨hpid, hentries⟩ := runBody_of_forked hcheck (next .brk (waiting.world s.world))
      (fork_parent hreq)
    refine ⟨hpid, hentries.trans ?_⟩
    rw [hforked]
    rw [fork_entries hreq, lookUp_world, lookUp_entries hcheck, enter_append, enter_append]

theorem runScripts_of_required (hcheck : host.checkexternalcmds = true) (scripts : List (Body W))
    (h : Required host s.toGlobals) :
    (runScripts host waiting .parent recipe scripts s).2.entries =
      enter (lookedUpIn host waiting recipe scripts s.world) s.entries := by
  induction scripts generalizing s with
  | nil => rfl
  | cons script scripts ih =>
    have hbody := @runBody_of_required _ _ waiting _ hcheck script h
    rw [lookedUpIn, runScripts]
    cases hlooked : lookedUpBy host waiting script s.world with
    | inl r =>
      rw [hlooked] at hbody
      have hpid : ¬s.jobpid > 0 := by
        rw [h.2.2]
        decide
      rw [hbody, if_neg hpid]
      dsimp only
      split
      · rfl
      · exact ih (s := { s with world := r.2 }) h
    | inr ds =>
      rw [hlooked] at hbody
      rw [if_pos hbody.1]
      exact hbody.2

/-! ## Rules -/

@[simp] theorem fork_currentruletarget :
    (fork host waiting side s).currentruletarget = s.currentruletarget := by
  rw [fork]
  split <;> rfl

@[simp] theorem run_currentruletarget :
    (run host waiting side c s).2.currentruletarget = s.currentruletarget := by
  rw [run]
  dsimp only
  split
  · rw [fork_currentruletarget, lookUp_currentruletarget]
  · exact fork_currentruletarget.trans lookUp_currentruletarget

@[simp] theorem runBody_currentruletarget (body : Body W) :
    (runBody host waiting side body s).2.currentruletarget = s.currentruletarget := by
  induction body generalizing s with
  | done code => rfl
  | builtin f next ih => exact ih (f s.world) (s := { s with world := f s.world })
  | run c next ih =>
    rw [runBody, ih]
    exact run_currentruletarget

theorem runScripts_currentruletarget (scripts : List (Body W)) :
    (runScripts host waiting side recipe scripts s).2.currentruletarget = s.currentruletarget := by
  induction scripts generalizing s with
  | nil => rfl
  | cons script scripts ih =>
    rw [runScripts]
    split
    · exact runBody_currentruletarget script
    split
    · exact runBody_currentruletarget script
    · exact ih.trans (runBody_currentruletarget script)

theorem buildRule_currentruletarget (notify : Bool) (m : Memory W) :
    (buildRule host waiting side recipe notify m).2.currentruletarget = recipe.target := by
  have hstart : (startSlow host waiting side recipe (start host recipe notify m)).currentruletarget =
      recipe.target := by
    rw [startSlow]
    split
    · exact fork_currentruletarget
    · rfl
  rw [buildRule]
  split
  · exact hstart
  · exact (runScripts_currentruletarget _).trans hstart

theorem start_required {notify : Bool} {m : Memory W} :
    Required host (start host recipe notify m).toGlobals ↔ Background host recipe notify := by
  simp only [start, Required, Background, setCurrent, and_true]
  cases notify <;> cases recipe.nofork <;> simp

theorem start_entries (hcheck : host.checkexternalcmds = true) (notify : Bool) (m : Memory W) :
    (start host recipe notify m).entries = ∅ := by
  simp only [start, Process.entries, setCurrent, hcheck, if_pos]
  exact Function.update_self ..

/-- In the foreground the main process enters what it executes. -/
theorem buildRule_foreground (hcheck : host.checkexternalcmds = true) {notify : Bool}
    (h : ¬Background host recipe notify) (m : Memory W) :
    (buildRule host waiting .parent recipe notify m).2.entries =
      enter (buildRule host waiting .child recipe notify m).2.ran ∅ := by
  have hpid : (start host recipe notify m).jobpid ≤ 0 := Int.negSucc_le_zero 0
  have hreq : ¬Required host (start host recipe notify m).toGlobals := mt start_required.mp h
  have hslow (side : Side) : startSlow host waiting side recipe (start host recipe notify m) =
      start host recipe notify m := by
    rw [startSlow]
    split
    · exact fork_of_not_required hreq
    · rfl
  have hfore : Foreground host (start host recipe notify m) :=
    ⟨⟨hpid, hreq⟩, start_entries hcheck notify m⟩
  rw [buildRule, buildRule, hslow, hslow, if_neg (not_lt.mpr hpid), if_neg (not_lt.mpr hpid),
    (hfore.runScripts hcheck recipe.doList).2 .parent]
  exact (hfore.runScripts hcheck recipe.doList).1.entries

/-- In the background it enters what it looks up. -/
theorem buildRule_background (hcheck : host.checkexternalcmds = true) {notify : Bool}
    (h : Background host recipe notify) (m : Memory W) :
    (buildRule host waiting .parent recipe notify m).2.entries =
      enter (lookedUp host waiting recipe m.world) ∅ := by
  have hreq : Required host (start host recipe notify m).toGlobals := start_required.mpr h
  rw [buildRule, startSlow, lookedUp]
  cases recipe.slow with
  | true =>
    rw [if_pos rfl, if_pos (fork_parent hreq), if_pos rfl]
    exact (fork_entries hreq).trans (congrArg _ (start_entries hcheck notify m))
  | false =>
    have hpid : ¬(start host recipe notify m).jobpid > 0 := not_lt.mpr (Int.negSucc_le_zero 0)
    rw [if_neg Bool.false_ne_true, if_neg hpid, if_neg Bool.false_ne_true,
      runScripts_of_required hcheck recipe.doList hreq, start_entries hcheck notify m]
    rfl

theorem cached_eq (hcheck : host.checkexternalcmds = true) (notify : Bool) (m : Memory W)
    (later : Details) : cached host waiting recipe notify m later =
      enter (later ++ if Background host recipe notify then lookedUp host waiting recipe m.world
        else commands host waiting recipe notify m) ∅ := by
  have hentries : (buildRule host waiting .parent recipe notify m).2.exec recipe.target =
      (buildRule host waiting .parent recipe notify m).2.entries := by
    rw [Process.entries, buildRule_currentruletarget]
  rw [cached, hentries, enter_append]
  split
  · rw [buildRule_background hcheck ‹_›]
  · rw [buildRule_foreground hcheck ‹_›, commands]

/-! ## Scripts without loops -/

/-- A `run` that breaks ends the script. -/
def Straight : Body W → Prop
  | .done _ => True
  | .builtin _ next => ∀ w, Straight (next w)
  | .run _ next => (∀ w, ∃ code, next .brk w = .done code) ∧ ∀ code w, Straight (next code w)

theorem length_details (c : CmdLine) (w : W) : (details host c w).length ≤ 1 := by
  rw [details]
  split
  · exact Nat.zero_le 1
  · exact Nat.le_refl 1

theorem lookedUpBy_straight (hwait : ∀ w, waiting.entered w = []) {body : Body W}
    (h : Straight body) {w : W} {ds : Details} (hds : lookedUpBy host waiting body w = .inr ds) :
    ds.length ≤ 1 := by
  induction body generalizing w with
  | done code => cases hds
  | builtin f next ih => exact ih (f w) (h (f w)) hds
  | run c next ih =>
    obtain ⟨code, hnext⟩ := h.1 (waiting.world w)
    rw [lookedUpBy, hnext, hwait] at hds
    cases hds
    exact length_details c w

theorem lookedUpIn_straight (hwait : ∀ w, waiting.entered w = []) {scripts : List (Body W)}
    (h : ∀ script ∈ scripts, Straight script) (w : W) :
    (lookedUpIn host waiting recipe scripts w).length ≤ 1 := by
  induction scripts generalizing w with
  | nil => exact Nat.zero_le 1
  | cons script scripts ih =>
    obtain ⟨hscript, hscripts⟩ := List.forall_mem_cons.mp h
    rw [lookedUpIn]
    cases hlooked : lookedUpBy host waiting script w with
    | inl r =>
      dsimp only
      split
      · exact Nat.zero_le 1
      · exact ih hscripts r.2
    | inr ds => exact lookedUpBy_straight hwait hscript hlooked

/-- Of the commands of a rule in the background one at most is looked up. -/
theorem lookedUp_straight (hwait : ∀ w, waiting.entered w = [])
    (h : ∀ script ∈ recipe.doList, Straight script) (w : W) :
    (lookedUp host waiting recipe w).length ≤ 1 := by
  rw [lookedUp]
  split
  · rw [hwait]
    exact Nat.zero_le 1
  · exact lookedUpIn_straight hwait h w

/-- Such a rule that runs two commands is not tracked. -/
theorem not_tracked_of_two (hcheck : host.checkexternalcmds = true) {notify : Bool} {m : Memory W}
    (hback : Background host recipe notify) (hwait : ∀ w, waiting.entered w = [])
    (h : ∀ script ∈ recipe.doList, Straight script) {cmd cmd' : String} (hne : cmd ≠ cmd')
    (hcmd : ((commands host waiting recipe notify m).lookup cmd).isSome)
    (hcmd' : ((commands host waiting recipe notify m).lookup cmd').isSome) :
    ¬Tracked (cached host waiting recipe notify m []) (commands host waiting recipe notify m) := by
  intro htracked
  rw [cached_eq hcheck, if_pos hback, tracked_enter, List.nil_append] at htracked
  rw [← htracked] at hcmd hcmd'
  match lookedUp host waiting recipe m.world, lookedUp_straight hwait h m.world, hcmd, hcmd' with
  | [x], _, hcmd, hcmd' =>
    have hfirst {c : String} (hc : (List.lookup c [x]).isSome) : c = x.1 := by
      by_contra hne
      rw [List.lookup_cons, beq_false_of_ne hne] at hc
      cases hc
    exact hne ((hfirst hcmd).trans (hfirst hcmd').symm)

/-! ## Changed commands -/

/-- The entries, as `build` goes through them. -/
def saved (entries : Dict String String) : Details := entries.entries.map fun e => (e.1, e.2)

/-- A tracked command that has changed since. -/
theorem checkExec_changed {d : Desc} {E : Env} {r : Rule} {w : World} {entries : Dict String String}
    {ran : Details} (htracked : Tracked entries ran) (hcheck : d.checkexternalcmds = true)
    (hcache : w.cache.exec.lookup r.target = some (saved entries)) {cmd info : String}
    (hran : ran.lookup cmd = some info) (hchanged : E.statCmd cmd ≠ info) :
    checkExec d E r w .uptodate = .built := by
  have hentry : (⟨cmd, info⟩ : Sigma fun _ : String => String) ∈ entries.entries :=
    AList.mem_lookup_iff.mp ((htracked cmd).trans hran)
  have hany : ((w.cache.exec.lookup r.target).getD []).any
      (fun x => decide (E.statCmd x.1 ≠ x.2)) = true := by
    rw [hcache, Option.getD_some, List.any_eq_true]
    exact ⟨(cmd, info), List.mem_map.mpr ⟨_, hentry, rfl⟩, decide_eq_true hchanged⟩
  rw [checkExec, hcheck, hany]
  rfl

/-- **External commands in the cache.**  For a rule that is built in the foreground, what
`tmakecache(exec)` holds are the commands that its `-do` list runs, unless another script enters
something else for it; in the background, what the main process looks up has to be the same.
Where it is, a command that has changed makes the rule out of date. -/
theorem external_commands (host : Host W) (waiting : Waiting W)
    (hcheck : host.checkexternalcmds = true) (recipe : Recipe W) (notify : Bool) (m : Memory W)
    (later : Details) :
    (Tracked (cached host waiting recipe notify m later) (commands host waiting recipe notify m) ↔
      ∀ cmd, (later ++ if Background host recipe notify then lookedUp host waiting recipe m.world
        else commands host waiting recipe notify m).lookup cmd =
          (commands host waiting recipe notify m).lookup cmd) ∧
    (Tracked (cached host waiting recipe notify m later) (commands host waiting recipe notify m) →
      ∀ (d : Desc) (E : Env) (r : Rule) (w : World), d.checkexternalcmds = true →
        w.cache.exec.lookup r.target = some (saved (cached host waiting recipe notify m later)) →
        ∀ cmd info, (commands host waiting recipe notify m).lookup cmd = some info →
          E.statCmd cmd ≠ info → checkExec d E r w .uptodate = .built) := by
  refine ⟨?_, fun htracked d E r w hd hcache cmd info => checkExec_changed htracked hd hcache⟩
  rw [cached_eq hcheck]
  exact tracked_enter

end

/-! ## A rule with two commands -/

/-- `-do {run cc; run ld}`. -/
def linkRecipe : Recipe Unit where
  target := ["prog"]
  doList := [.run ⟨"cc", []⟩ fun code _ =>
    if code = .ok then .run ⟨"ld", []⟩ fun code _ => .done code else .done code]

/-- `-do {run cc}`. -/
def compileRecipe : Recipe Unit where
  target := ["prog.o"]
  doList := [.run ⟨"cc", []⟩ fun code _ => .done code]

def pathHost (maxjobs : Nat) : Host Unit where
  maxjobs
  checkexternalcmds := true
  isfile _ _ := false
  statCmd cmd _ := "/bin/" ++ cmd ++ ",1,1"
  execute _ _ := (true, ())
  pick _ := 0
  succeeded _ := true
  meanwhile _ := id
  settle _ ok _ := (ok, ())

/-- One command is tracked also in the background. -/
theorem external_commands_compile :
    Tracked (cached (pathHost 2) {} compileRecipe true { world := () } [])
      (commands (pathHost 2) {} compileRecipe true { world := () }) :=
  (external_commands (pathHost 2) {} rfl compileRecipe true { world := () } []).1.mpr fun _ => rfl

/-- Of two commands, the main process looks up the first. -/
theorem external_commands_link : ¬∀ (W : Type) (host : Host W) (waiting : Waiting W)
    (recipe : Recipe W) (notify : Bool) (m : Memory W), host.checkexternalcmds = true →
    (buildRule host waiting .child recipe notify m).1 = true →
    Tracked (cached host waiting recipe notify m []) (commands host waiting recipe notify m) := by
  intro h
  have htracked := h Unit (pathHost 2) {} linkRecipe true { world := () } rfl rfl "ld"
  have hcached : (cached (pathHost 2) {} linkRecipe true { world := () } []).lookup "ld" = none := by
    decide
  have hran : (commands (pathHost 2) {} linkRecipe true { world := () }).lookup "ld" =
      some "/bin/ld,1,1" := rfl
  rw [hcached, hran] at htracked
  cases htracked

end Tmake.ExternalCommands
