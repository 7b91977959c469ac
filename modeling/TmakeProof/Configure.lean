import TmakeProof.ListAppend

/-! # Arguments for configure

`tmake --configure` gives its words to `define!`, which joins them to the value of
`AUTOREMAKE`, and the rule of `Autosetup` has `exec` run that value, read as a list
again.  `exec` has its own reading of the words: some are redirections, others
separate commands.  `configure_passes` says which words arrive as they are.
-/
namespace Tmake.Configure
open ListSyntax (Legible Word joined)

/-! ## exec -/

/-- Where a redirection leads from, and what its target is. -/
inductive Stream where
  | input | output | error | both

inductive FileKind where
  | name | append | handle | text

structure Redirection where
  stream : Stream
  kind : FileKind

/-- `arg + 1`, where the character is there. -/
def skip (c : Char) (cs : List Char) : Bool × List Char :=
  if cs.head? = some c then (true, cs.tail) else (false, cs)

/-- The words of `exec` that are redirections, with the target as far as it is in the word. -/
def redirection (arg : String) : Option (Redirection × List Char) :=
  match arg.toList with
  | '<' :: cs =>
    if (skip '<' cs).1 then some (⟨.input, .text⟩, (skip '<' cs).2)
    else if (skip '@' cs).1 then some (⟨.input, .handle⟩, (skip '@' cs).2)
    else some (⟨.input, .name⟩, cs)
  | '>' :: cs =>
    let (append, cs) := skip '>' cs
    let (both, cs) := skip '&' cs
    let (handle, cs) := skip '@' cs
    let kind := if handle then FileKind.handle else if append then .append else .name
    some (⟨if both then .both else .output, kind⟩, cs)
  | '2' :: '>' :: cs =>
    if (skip '@' cs).1 then some (⟨.error, .handle⟩, (skip '@' cs).2)
    else if (skip '>' cs).1 then some (⟨.error, .append⟩, (skip '>' cs).2)
    else some (⟨.error, .name⟩, cs)
  | _ => none

def isBar (arg : String) : Bool := arg = "|" || arg = "|&"

/-- The words that are left to the commands, and the redirections, the last of which count. -/
structure Pipeline where
  args : List String := []
  redirections : List (Redirection × String) := []

/-- The loop of `JimCreatePipeline` over the words: `pending` is a redirection whose target is the
next word, `first` holds at the beginning and behind a bar. -/
def parseWords : Option Redirection → Bool → List String → Pipeline → Option Pipeline
  | some _, _, [], _ => none
  | none, _, [], p => if p.args.isEmpty then none else some p
  | some r, _, arg :: rest, p =>
    parseWords none false rest { p with redirections := p.redirections ++ [(r, arg)] }
  | none, first, arg :: rest, p =>
    match redirection arg with
    | some (r, target) =>
      if target.isEmpty then parseWords (some r) false rest p
      else parseWords none false rest
        { p with redirections := p.redirections ++ [(r, String.ofList target)] }
    | none =>
      if isBar arg && (first || rest.isEmpty) then none
      else parseWords none (isBar arg) rest { p with args := p.args ++ [arg] }

/-- The commands of a pipeline: the words up to each bar, none of which may be missing. -/
def commands : List String → List String → Option (List (List String))
  | [], cmd => some (if cmd.isEmpty then [] else [cmd])
  | arg :: args, cmd =>
    if isBar arg then if cmd.isEmpty then none else (commands args []).map (cmd :: ·)
    else commands args (cmd ++ [arg])

/-- The commands that `exec` runs; an `&` at the end leaves them in the background. -/
def exec (argv : List String) : Option (List (List String)) := do
  let argv := if argv.getLast? = some "&" then argv.dropLast else argv
  let p ← parseWords none true argv {}
  commands p.args []

/-! ## The rule -/

/-- The redirections that `Autosetup` gives to its rule. -/
def redirect (verbose : Bool) (configOut : Path) : String :=
  if verbose then ">@stdout 2>@stderr" else ">" ++ configOut

/-- What the commands of the rule execute. -/
def autosetup (autoremake redirect : String) : Option (List (List String)) :=
  exec (tclList autoremake ++ tclList redirect)

/-! ## What is left to the commands -/

section
variable {words args c : List String} {first : Bool} {p q : Pipeline}

/-- The arguments are words in order, none of them a redirection. -/
theorem parseWords_args {pending : Option Redirection} (h : parseWords pending first words p = some q) :
    ∃ args, q.args = p.args ++ args ∧
      args.Sublist (words.filter fun w => (redirection w).isNone) := by
  -- only in the last case is a word an argument
  fun_induction parseWords pending first words p with
  | case1 => cases h
  | case2 first p hempty => cases h
  | case3 first p hempty =>
    cases h
    exact ⟨[], (List.append_nil _).symm, List.Sublist.refl []⟩
  | case4 r first arg rest p ih =>
    obtain ⟨args, hargs, hsub⟩ := ih h
    exact ⟨args, hargs, hsub.trans ((List.sublist_cons_self arg rest).filter _)⟩
  | case5 first arg rest p r target hr hempty ih =>
    obtain ⟨args, hargs, hsub⟩ := ih h
    exact ⟨args, hargs, hsub.trans ((List.sublist_cons_self arg rest).filter _)⟩
  | case6 first arg rest p r target hr hempty ih =>
    obtain ⟨args, hargs, hsub⟩ := ih h
    exact ⟨args, hargs, hsub.trans ((List.sublist_cons_self arg rest).filter _)⟩
  | case7 => cases h
  | case8 first arg rest p hr hbar ih =>
    obtain ⟨args, hargs, hsub⟩ := ih h
    refine ⟨arg :: args, by rw [hargs]; simp, ?_⟩
    rw [List.filter_cons_of_pos (by rw [hr]; rfl)]
    exact hsub.cons_cons arg

/-- A single command has its words from the arguments, and no bars. -/
theorem commands_single {cmd : List String} (h : commands args cmd = some [c])
    (hcmd : ∀ w ∈ cmd, isBar w = false) :
    c.Sublist (cmd ++ args) ∧ ∀ w ∈ c, isBar w = false := by
  induction args generalizing cmd with
  | nil =>
    rw [commands] at h
    split at h
    · cases h
    · cases h
      exact ⟨List.sublist_append_left c [], hcmd⟩
  | cons arg args ih =>
    rw [commands] at h
    split at h
    · split at h
      · cases h
      · obtain ⟨cmds, -, heq⟩ := Option.map_eq_some_iff.mp h
        obtain ⟨rfl, -⟩ := List.cons.inj heq
        exact ⟨List.sublist_append_left cmd (arg :: args), hcmd⟩
    · rename_i hbar
      obtain ⟨hsub, hc⟩ := ih h fun w hw => by
        rcases List.mem_append.mp hw with hw | hw
        · exact hcmd w hw
        · rw [List.mem_singleton.mp hw]
          exact Bool.eq_false_iff.mpr hbar
      rw [List.append_assoc] at hsub
      exact ⟨hsub, hc⟩

theorem commands_plain {cmd : List String} (h : ∀ w ∈ args, isBar w = false)
    (hne : cmd ++ args ≠ []) : commands args cmd = some [cmd ++ args] := by
  induction args generalizing cmd with
  | nil =>
    rw [List.append_nil] at hne ⊢
    rw [commands, if_neg (by simpa using hne)]
  | cons arg args ih =>
    have harg := h arg List.mem_cons_self
    rw [commands, if_neg (by simp [harg]), ih (fun w hw => h w (List.mem_cons_of_mem arg hw))
      (by simp), List.append_assoc, List.singleton_append]

/-- Words that are neither redirections nor bars are arguments. -/
theorem parseWords_plain (h : ∀ w ∈ words, redirection w = none ∧ isBar w = false)
    (hne : words ≠ []) (rest : List String) (first : Bool) (p : Pipeline) :
    parseWords none first (words ++ rest) p =
      parseWords none false rest { p with args := p.args ++ words } := by
  induction words generalizing first p with
  | nil => exact absurd rfl hne
  | cons w words ih =>
    obtain ⟨hredirection, hbar⟩ := h w List.mem_cons_self
    rw [List.cons_append, parseWords, hredirection, hbar]
    by_cases hwords : words = []
    · rw [hwords]
      rfl
    · refine (ih (fun x hx => h x (List.mem_cons_of_mem w hx)) hwords _ _).trans ?_
      rw [List.append_assoc, List.singleton_append]

/-- Redirections with their targets leave the arguments alone. -/
theorem parseWords_redirections
    (h : ∀ w ∈ words, ∃ r target, redirection w = some (r, target) ∧ target ≠ [])
    (first : Bool) (hargs : p.args ≠ []) :
    ∃ q, parseWords none first words p = some q ∧ q.args = p.args := by
  induction words generalizing first p with
  | nil => exact ⟨p, by rw [parseWords, if_neg (by simpa using hargs)], rfl⟩
  | cons w words ih =>
    obtain ⟨r, target, hr, htarget⟩ := h w List.mem_cons_self
    rw [parseWords, hr]
    dsimp only
    rw [if_neg (by simpa using htarget)]
    exact ih (fun x hx => h x (List.mem_cons_of_mem w hx)) _ hargs

end

/-! ## The way of the arguments -/

/-- A path that stands for itself behind `>`. -/
structure Plain (path : Path) : Prop where
  ne_empty : path ≠ ""
  legible : ∀ c ∈ path.toList, ListSyntax.isSpace c = false ∧ c ≠ '\\'
  head_ne : ∀ c ∈ path.toList.head?, c ≠ '>' ∧ c ≠ '&' ∧ c ≠ '@'

theorem plain_iff {path : Path} : Plain path ↔ path ≠ "" ∧
    (path.toList.all fun c => !ListSyntax.isSpace c && c ≠ '\\') = true ∧
    (path.toList.head?.all fun c => c ≠ '>' && c ≠ '&' && c ≠ '@') = true := by
  rw [List.all_eq_true, Option.all_eq_true]
  simp only [Bool.and_eq_true, Bool.not_eq_true', decide_eq_true_eq, and_assoc]
  exact ⟨fun h => ⟨h.1, h.2, h.3⟩, fun h => ⟨h.1, h.2.1, h.2.2⟩⟩

section
variable {verbose : Bool} {configOut : Path}

theorem redirection_plain (h : Plain configOut) :
    redirection (">" ++ configOut) = some (⟨.output, .name⟩, configOut.toList) := by
  have hlist : (">" ++ configOut).toList = '>' :: configOut.toList := by
    rw [String.toList_append]
    rfl
  have hskip (c : Char) (hc : c = '>' ∨ c = '&' ∨ c = '@') :
      skip c configOut.toList = (false, configOut.toList) := by
    refine if_neg fun hhead => ?_
    obtain ⟨h₁, h₂, h₃⟩ := h.head_ne c hhead
    rcases hc with hc | hc | hc
    · exact h₁ hc
    · exact h₂ hc
    · exact h₃ hc
  rw [redirection, hlist]
  simp [hskip]

theorem tclList_plain (h : Plain configOut) : tclList (">" ++ configOut) = [">" ++ configOut] := by
  have hlist : (">" ++ configOut).toList = '>' :: configOut.toList := by
    rw [String.toList_append]
    rfl
  have hword : Word ('>' :: configOut.toList) := by
    refine ⟨List.cons_ne_nil _ _, fun c hc => ?_, by simp, by simp⟩
    rcases List.mem_cons.mp hc with rfl | hc
    · rfl
    · exact (h.legible c hc).1
  have hlegible : Legible [(">" ++ configOut).toList] := by
    rw [hlist]
    refine ⟨fun w hw => List.mem_singleton.mp hw ▸ hword, fun hmem => ?_⟩
    rcases List.mem_cons.mp ((List.dropLast_sublist _).subset hmem) with heq | hmem
    · cases heq
    · exact (h.legible _ hmem).2 rfl
  have := ListSyntax.elements_joined hlegible
  rw [tclList, show (">" ++ configOut).toList = joined [(">" ++ configOut).toList] from rfl, this]
  simp

/-- What the rule adds behind the arguments are redirections, and nothing else. -/
theorem redirect_words (h : verbose = true ∨ Plain configOut) :
    tclList (redirect verbose configOut) ≠ [] ∧
    ∀ w ∈ tclList (redirect verbose configOut),
      ∃ r target, redirection w = some (r, target) ∧ target ≠ [] := by
  rw [redirect]
  by_cases hverbose : verbose = true
  · have hlist : tclList ">@stdout 2>@stderr" = [">@stdout", "2>@stderr"] := by decide
    rw [if_pos hverbose, hlist]
    refine ⟨by decide, fun w hw => ?_⟩
    rcases List.mem_pair.mp hw with rfl | rfl
    · exact ⟨_, _, rfl, by decide⟩
    · exact ⟨_, _, rfl, by decide⟩
  · have hplain := h.resolve_left hverbose
    rw [if_neg hverbose, tclList_plain hplain]
    refine ⟨List.cons_ne_nil _ _, fun w hw => ?_⟩
    obtain rfl := List.mem_singleton.mp hw
    exact ⟨_, _, redirection_plain hplain, fun hnil => hplain.ne_empty (String.toList_inj.mp hnil)⟩

/-- The words arrive as they are: they are legible, and `exec` takes none of them for itself. -/
def Passable (ws : List String) : Prop :=
  Legible (chars ("./configure" :: ws)) ∧ ∀ w ∈ ws, redirection w = none ∧ isBar w = false

theorem exec_redirect (words : List String) (h : verbose = true ∨ Plain configOut) :
    exec (words ++ tclList (redirect verbose configOut)) =
      (parseWords none true (words ++ tclList (redirect verbose configOut)) {}).bind
        fun p => commands p.args [] := by
  obtain ⟨hne, hwords⟩ := redirect_words h
  have hlast : (words ++ tclList (redirect verbose configOut)).getLast? ≠ some "&" := by
    intro hlast
    rw [List.getLast?_append_of_ne_nil _ hne] at hlast
    obtain ⟨r, target, hr, -⟩ := hwords "&" (List.mem_of_getLast? hlast)
    cases hr
  rw [exec, if_neg hlast]
  rfl

theorem autosetup_iff (ws : List String) (h : verbose = true ∨ Plain configOut) :
    autosetup (joinList ("./configure" :: ws)) (redirect verbose configOut) =
      some ["./configure" :: ws] ↔ Passable ws := by
  obtain ⟨-, hwords⟩ := redirect_words h
  have hvalue : chars (tclList (joinList ("./configure" :: ws))) =
      ListSyntax.elements (joined (chars ("./configure" :: ws))) := by
    rw [chars_tclList, toList_joinList]
  rw [autosetup, exec_redirect _ h]
  constructor
  · intro hrun
    obtain ⟨p, hparse, hcommands⟩ := Option.bind_eq_some_iff.mp hrun
    obtain ⟨args, hargs, hsub⟩ := parseWords_args hparse
    obtain ⟨hsingle, hbar⟩ := commands_single hcommands fun w hw => absurd hw List.not_mem_nil
    rw [List.nil_append, hargs, List.nil_append] at hsingle
    -- the redirections that the rule adds are none of the words
    have hnone : (tclList (redirect verbose configOut)).filter (fun w => (redirection w).isNone) =
        [] := by
      refine List.filter_eq_nil_iff.mpr fun w hw => ?_
      obtain ⟨r, target, hr, -⟩ := hwords w hw
      rw [hr]
      exact Bool.false_ne_true
    rw [List.filter_append, hnone, List.append_nil] at hsub
    have hpart := (hsingle.trans hsub).trans List.filter_sublist
    have hchars := hpart.map String.toList
    rw [← chars, ← chars, hvalue] at hchars
    obtain ⟨heq, hread⟩ := ListSyntax.legible_of_perm hchars (.refl _)
    rw [← heq] at hread
    refine ⟨hread, fun w hw => ?_⟩
    have hmem := (hsingle.trans hsub).subset (List.mem_cons_of_mem _ hw)
    exact ⟨Option.isNone_iff_eq_none.mp (List.mem_filter.mp hmem).2,
      hbar w (List.mem_cons_of_mem _ hw)⟩
  · rintro ⟨hlegible, hplain⟩
    have hread : tclList (joinList ("./configure" :: ws)) = "./configure" :: ws := by
      rw [tclList, toList_joinList, ListSyntax.elements_joined hlegible, chars_ofList]
    have hall : ∀ w ∈ "./configure" :: ws, redirection w = none ∧ isBar w = false := by
      intro w hw
      rcases List.mem_cons.mp hw with rfl | hw
      · exact ⟨by decide, by decide⟩
      · exact hplain w hw
    obtain ⟨q, hq, hargs⟩ := parseWords_redirections (p := ⟨"./configure" :: ws, []⟩) hwords false
      (List.cons_ne_nil _ _)
    rw [hread, parseWords_plain hall (List.cons_ne_nil _ _), List.nil_append, hq, Option.bind_some,
      hargs]
    exact commands_plain (fun w hw => (hall w hw).2) (List.cons_ne_nil _ _)

end

/-! ## From the command line to the rule -/

section
variable {env : String → String} {elements : String → List String} {name : String}

theorem getDefine_command_fixed (c : Command) {s : Parse} (hfixed : name ∈ s.fixedvars)
    (hc : c.verb = .define! → name ≠ c.name) :
    getDefine name (c.run env elements s) = getDefine name s := by
  by_cases hverb : c.verb = .define!
  · rw [Command.run, hverb]
    exact getDefine_defineVar_ne (hc hverb) ..
  · rcases c.run_cases s hverb with ⟨hrun, -⟩ | ⟨value, hrun, -⟩
    · rw [hrun]
    · rw [hrun]
      by_cases hname : name = c.name
      · rw [defineVar_fixed value (hname ▸ hfixed)]
      · exact getDefine_defineVar_ne hname ..

/-- What `define!` has given to a name stays, whatever the scripts do that do not fix it anew. -/
theorem getDefine_run_fixed (f : SpecFile) {s : Parse} (hf : name ∉ f.fixes)
    (hfixed : name ∈ s.fixedvars) : getDefine name (f.run env elements s) = getDefine name s := by
  induction f generalizing s with
  | done => rfl
  | command c rest ih =>
    have hc : (c.verb = .define! → name ≠ c.name) ∧ name ∉ rest.fixes := by
      rw [SpecFile.fixes] at hf
      split at hf
      · exact ⟨fun _ h => hf (h ▸ List.mem_cons_self), fun h => hf (List.mem_cons_of_mem _ h)⟩
      · rename_i hverb
        exact ⟨fun h => absurd h hverb, hf⟩
    have hstill : name ∈ (c.run env elements s).fixedvars :=
      (c.mem_run_fixedvars s name).mpr (.inr hfixed)
    rw [SpecFile.run, ih hc.2 hstill, getDefine_command_fixed c hfixed hc.1]
  | scope dir body rest ihbody ih =>
    obtain ⟨hbody, hrest⟩ := not_or.mp (List.mem_append.not.mp hf)
    have hstill : name ∈ (leaveScope dir s (body.run env elements (enterScope dir s))).fixedvars := by
      rw [leaveScope_fixedvars, body.mem_run_fixedvars, enterScope_fixedvars]
      exact .inr hfixed
    have hrestored : getDefine name (leaveScope dir s (body.run env elements (enterScope dir s))) =
        getDefine name s := by
      rw [getDefine, leaveScope_defines]
      rfl
    rw [SpecFile.run, ih hrest hstill, hrestored]

/-- **Arguments for configure.**  The rule runs `./configure` with the words that are given to
`--configure`, one by one, exactly where these are passable. -/
theorem configure_passes (env : String → String) (elements : String → List String) (s : Parse)
    (f : SpecFile) (hf : "AUTOREMAKE" ∉ f.fixes) (ws : List String) (verbose : Bool)
    (configOut : Path) (hout : verbose = true ∨ Plain configOut) :
    autosetup (getDefine "AUTOREMAKE" (f.run env elements
        (define! "AUTOREMAKE" ("./configure" :: ws) s))) (redirect verbose configOut) =
      some ["./configure" :: ws] ↔ Passable ws := by
  have hfixed : "AUTOREMAKE" ∈ (define! "AUTOREMAKE" ("./configure" :: ws) s).fixedvars := by
    rw [Tmake.define!, defineVar_fixedvars]
    exact AList.mem_insert _ |>.mpr (.inl rfl)
  have hvalue : getDefine "AUTOREMAKE" (define! "AUTOREMAKE" ("./configure" :: ws) s) =
      joinList ("./configure" :: ws) := by
    simp [Tmake.define!, defineVar, getDefine, defineGetValue]
  rw [getDefine_run_fixed f hf hfixed, hvalue]
  exact autosetup_iff ws hout

/-- Two options, in a project that leaves the default to `Autosetup`. -/
theorem configure_passes_options :
    autosetup (getDefine "AUTOREMAKE"
        ((SpecFile.command ⟨.define?, "AUTOREMAKE", ["./configure"]⟩ .done).run (fun _ => "") tclList
          (define! "AUTOREMAKE" ["./configure", "--prefix=/usr", "--debug"] {})))
        (redirect false "objdir/config.out") =
      some [["./configure", "--prefix=/usr", "--debug"]] :=
  (configure_passes (fun _ => "") tclList {} _ (by decide) ["--prefix=/usr", "--debug"] false
    "objdir/config.out" (.inr (plain_iff.mpr (by decide)))).mpr ⟨by decide, by decide⟩

/-- A value with a blank becomes two arguments. -/
theorem configure_passes_blank :
    autosetup (getDefine "AUTOREMAKE"
        (SpecFile.done.run (fun _ => "") tclList
          (define! "AUTOREMAKE" ["./configure", "CFLAGS=-g -O2"] {})))
        (redirect false "objdir/config.out") ≠
      some [["./configure", "CFLAGS=-g -O2"]] := by
  decide

end

end Tmake.Configure
