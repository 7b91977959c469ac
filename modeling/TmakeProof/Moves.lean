import TmakeProof.Invariant

/-! # What one step can do

The steps of the machine, one constructor each, with everything that decides
them.  `Glance` collects the steps that only look: they record nothing in the
cache and write no file.  The other steps of `Move` are those of a rule whose
dependencies are known, and the waiting for jobs.
-/
namespace Tmake
open Weakest Machine

/-- The state in which a call of `build` for a rule is left. -/
def left (f : Frame) (dyn : List Name) (st : Status) (w : World) : World :=
  let core : Core := { w.toCore with
    rulestatus := Function.update w.rulestatus f.rule.target st
    current := w.current.tail }
  { w with
    toCore := core
    trace := ⟨.returned f.target st, core⟩ :: ⟨.evaluated f.rule.target dyn st, core⟩ :: w.trace }

theorem leave_ok {f : Frame} {dyn : List Name} {st st' : Status} {w w' : World} :
    leave f.rule f.target dyn st w = .ok st' w' ↔ st = st' ∧ left f dyn st w = w' := by
  change EStateM.Result.ok st (left f dyn st w) = _ ↔ _
  simp

/-- A step that records and writes nothing. -/
inductive Glance (d : Desc) (E : Env) : Point → World → Point → World → Prop where
  | idle {p w} : Glance d E p w p w
  | source {t n p w st w'} (hr : d.ruleFor t = none) (h : buildSource t w = .ok st w') :
      Glance d E (.call t n :: p) w (.ret t st :: p) w'
  | settled {t n p w r} (hr : d.ruleFor t = some r) (hst : w.rulestatus r.target ∈
      [Status.running, .uptodate, .built, .failed]) :
      Glance d E (.call t n :: p) w (.ret t (w.rulestatus r.target) :: p)
        { w with trace := ⟨.returned t (w.rulestatus r.target), w.toCore⟩ :: w.trace }
  | enter {t n p w r} (hr : d.ruleFor t = some r)
      (hst : w.rulestatus r.target = .unknown ∨ w.rulestatus r.target = .waiting) :
      Glance d E (.call t n :: p) w
        (.rule ⟨r, t, n, initialStatus d r w.fs, .deps none [] r.depends⟩ :: p)
        { w with
          rulestatus := Function.update w.rulestatus r.target .checking
          current := t :: w.current }
  | dep {f p w dyn done t todo} (hphase : f.phase = .deps dyn done (t :: todo)) :
      Glance d E (.rule f :: p) w (.call t (some f.rule.target) :: .rule f :: p) w
  | static {f p w done st} (hphase : f.phase = .deps none done [])
      (hst : depsStatus d f.rule.phony done f.status = st) :
      Glance d E (.rule f :: p) w (.rule ({ f with status := st }.goto (afterStatic f st)) :: p) w
  | dynamic {f p w dyn done st} (hphase : f.phase = .deps (some dyn) done [])
      (hst : depsStatus d f.rule.phony done f.status = st) :
      Glance d E (.rule f :: p) w (.rule ({ f with status := st }.goto (.check dyn)) :: p) w
  | scanned {f p w found} (hphase : f.phase = .scan found .done []) :
      Glance d E (.rule f :: p) w (.rule (f.goto (.deps (some found) [] found)) :: p) w
  | noscan {f p w found i inputs} (hphase : f.phase = .scan found .done (i :: inputs))
      (hd : f.rule.dyndep = none) :
      Glance d E (.rule f :: p) w (.rule (f.goto (.scan found .done inputs)) :: p) w
  | input {f p w found i inputs dyndep} (hphase : f.phase = .scan found .done (i :: inputs))
      (hd : f.rule.dyndep = some dyndep) :
      Glance d E (.rule f :: p) w
        (.rule (f.goto (.scan (found ++ (dyndep i).named) (dyndep i).scan inputs)) :: p) w
  | peek {f p w found k inputs} (hphase : f.phase = .scan found (.peek k) inputs) :
      Glance d E (.rule f :: p) w (.rule (f.goto (.scan found (k w.fs) inputs)) :: p) w
  | look {f p w found file keep k inputs}
      (hphase : f.phase = .scan found (.lookup file keep k) inputs) (ht : d.isTarget file = true) :
      Glance d E (.rule f :: p) w (.call file none :: .sync file :: .rule f :: p) w
  | answer {f p w found file keep k inputs}
      (hphase : f.phase = .scan found (.lookup file keep k) inputs)
      (ht : d.isTarget file = false) :
      Glance d E (.rule f :: p) w
        (.rule (f.goto (.scan
          (if w.fs.exists? file && keep w.fs then found ++ [file] else found)
          (k (w.fs.exists? file)) inputs)) :: p) w
  | depRet {t st f p w w' dyn done dep todo} (hphase : f.phase = .deps dyn done (dep :: todo))
      (h : depFailed d E st w = .ok ⟨⟩ w') :
      Glance d E (.ret t st :: .rule f :: p) w
        (.rule (f.goto (.deps dyn (done ++ [(dep, st)]) todo)) :: p) w'
  | lookRet {t st f p w w' found file keep k inputs answer}
      (hphase : f.phase = .scan found (.lookup file keep k) inputs)
      (h : lookupFile d (fun _ => return st) file w = .ok answer w') :
      Glance d E (.ret t st :: .rule f :: p) w
        (.rule (f.goto (.scan (if answer && keep w'.fs then found ++ [file] else found)
          (k answer) inputs)) :: p) w'
  | synced {t u st p w} (hst : st ≠ .waiting ∧ st ≠ .running) :
      Glance d E (.ret t st :: .sync u :: p) w (.ret u st :: p) w

/-- How the `-do` list of a rule begins: at once, or in a job of its own. -/
def firstPhase (d : Desc) (f : Frame) (dyn : List Name) (w : World) : Phase :=
  match (if f.rule.slow then forkNotify d f.rule f.notify else none) with
  | some notify => .slots dyn notify w.running.length 0 f.rule.doList
  | none => .scripts dyn 0 f.rule.doList

/-- Nothing has failed that ends the run at once. -/
def Goes (d : Desc) (f : Frame) (w : World) : Prop :=
  ¬((d.quickstop || f.rule.fatal) = true ∧ w.exitcode ≠ 0)

/-- What one step can do. -/
inductive Move (d : Desc) (E : Env) : Point → World → Point → World → Prop where
  | glance {p w p' w'} (h : Glance d E p w p' w') : Move d E p w p' w'
  | wait {t u st p w b w'} (hst : st = .waiting ∨ st = .running)
      (h : waitForOneJob d E w = .ok b w') :
      Move d E (.ret t st :: .sync u :: p) w (.call u none :: .sync u :: p) w'
  | launch {f p w dyn w'} (hphase : f.phase = .check dyn)
      (h : checkRule d E f.rule f.target (d.vardict f.rule) dyn f.status w = .ok .built w')
      (hdo : f.rule.doList ≠ []) :
      Move d E (.rule f :: p) w (.rule ({ f with status := .built }.goto (.launch dyn)) :: p) w'
  | skip {f p w dyn st w'} (hphase : f.phase = .check dyn)
      (h : checkRule d E f.rule f.target (d.vardict f.rule) dyn f.status w = .ok st w')
      (hdo : st = .built → f.rule.doList = []) :
      Move d E (.rule f :: p) w (.ret f.target st :: p) (left f dyn st w')
  | dry {f p w dyn w1 st w2} (hphase : f.phase = .launch dyn) (hn : d.norun ≠ 0)
      (h1 : prepareRule d E f.rule w = .ok ⟨⟩ w1)
      (h2 : dryRun d f.rule (d.vardict f.rule) w1 = .ok st w2) (hgo : Goes d f w2) :
      Move d E (.rule f :: p) w (.ret f.target st :: p) (left f dyn st w2)
  | begin {f p w dyn w1 w2} (hphase : f.phase = .launch dyn) (hn : d.norun = 0)
      (h1 : prepareRule d E f.rule w = .ok ⟨⟩ w1)
      (h2 : beginRule d E f.rule f.target (d.vardict f.rule) dyn w1 = .ok ⟨⟩ w2) :
      Move d E (.rule f :: p) w (.rule (f.goto (firstPhase d f dyn w2)) :: p) w2
  | finished {f p w dyn i} (hphase : f.phase = .scripts dyn i []) :
      Move d E (.rule f :: p) w (.rule (f.goto (.ended dyn 0)) :: p) w
  | script {f p w dyn i script todo res w'} (hphase : f.phase = .scripts dyn i (script :: todo))
      (hres : res = E.exec w.tick f.rule.target (.script i) w.fs)
      (hrun : (if res.run then forkNotify d f.rule f.notify else none) = none)
      (h : applyResult d E f.rule.target res { w with tick := w.tick + 1 } = .ok ⟨⟩ w') :
      Move d E (.rule f :: p) w
        (.rule (f.goto (if res.rc ≠ 0 && !(f.rule.nofail && res.rc = 1) then .ended dyn res.rc
          else .scripts dyn (i + 1) todo)) :: p) w'
  | forks {f p w dyn i script todo res notify w'}
      (hphase : f.phase = .scripts dyn i (script :: todo))
      (hres : res = E.exec w.tick f.rule.target (.script i) w.fs)
      (hrun : (if res.run then forkNotify d f.rule f.notify else none) = some notify)
      (h : recordCmds d E f.rule.target (res.cmds.take 1) { w with tick := w.tick + 1 } =
        .ok ⟨⟩ w') :
      Move d E (.rule f :: p) w
        (.rule (f.goto (.slots dyn notify w'.running.length i (script :: todo))) :: p) w'
  | slot {f p w dyn notify n i todo b w'} (hphase : f.phase = .slots dyn notify (n + 1) i todo)
      (hfull : d.maxjobs ≤ w.running.length) (h : waitForOneJob d E w = .ok b w') :
      Move d E (.rule f :: p) w (.rule (f.goto (.slots dyn notify n i todo)) :: p) w'
  | fork {f p w dyn notify n i todo w'} (hphase : f.phase = .slots dyn notify n i todo)
      (hfree : n = 0 ∨ w.running.length < d.maxjobs)
      (h : addNewJob E f.rule notify i todo w = .ok ⟨⟩ w') (hgo : Goes d f w') :
      Move d E (.rule f :: p) w (.ret f.target .running :: p) (left f dyn .running w')
  | ended {f p w dyn rc st w'} (hphase : f.phase = .ended dyn rc)
      (h : endForeground d E f.rule rc w = .ok st w') (hgo : Goes d f w') :
      Move d E (.rule f :: p) w (.ret f.target st :: p) (left f dyn st w')

variable {d : Desc} {E : Env} {p p' : Point} {w w' : World}

theorem stopIf_ok {c : Bool} {why : Why} (h : stopIf c why w = .ok ⟨⟩ w') :
    w = w' ∧ ¬(c = true ∧ w.exitcode ≠ 0) := by
  simp only [stopIf, bind_ok_iff, get_ok_iff] at h
  obtain ⟨_, _, ⟨rfl, rfl⟩, h⟩ := h
  split at h
  · simp only [tmakeExit, bind_ok_iff] at h
    obtain ⟨_, _, -, h⟩ := h
    cases h
  · next hc =>
    rw [pure_ok_iff] at h
    exact ⟨h.2, by simpa using hc⟩

theorem close_ok {f : Frame} {dyn : List Name} {st : Status}
    (h : close d f dyn st p w = .ok p' w') :
    p' = .ret f.target st :: p ∧ w' = left f dyn st w ∧ Goes d f w := by
  simp only [close, bind_ok_iff, pure_ok_iff] at h
  obtain ⟨_, u, hstop, st', v, hleave, rfl, rfl⟩ := h
  obtain ⟨rfl, hgo⟩ := stopIf_ok hstop
  obtain ⟨rfl, rfl⟩ := leave_ok.mp hleave
  exact ⟨rfl, rfl, hgo⟩

theorem begin_moves {t : Name} {n : Option RuleTarget} (h : begin d t n p w = .ok p' w') :
    Glance d E (.call t n :: p) w p' w' := by
  unfold begin at h
  cases hr : d.ruleFor t with
  | none =>
    simp only [hr, bind_ok_iff, pure_ok_iff] at h
    obtain ⟨st, u, h, rfl, rfl⟩ := h
    exact .source hr h
  | some r =>
    simp only [hr, bind_ok_iff, get_ok_iff] at h
    obtain ⟨_, _, ⟨rfl, rfl⟩, h⟩ := h
    cases hst : w.rulestatus r.target with
    | checking =>
      simp only [hst, bind_ok_iff, buildFatalError, tmakeExit] at h
      obtain ⟨_, _, ⟨_, _, -, _, _, -, ⟨⟩⟩, -⟩ := h
    | unknown =>
      simp only [hst, bind_ok_iff, get_ok_iff, pure_ok_iff, Tmake.enter, modify_ok_iff] at h
      obtain ⟨_, _, rfl, _, _, ⟨rfl, rfl⟩, rfl, rfl⟩ := h
      exact .enter hr (Or.inl hst)
    | waiting =>
      simp only [hst, bind_ok_iff, get_ok_iff, pure_ok_iff, Tmake.enter, modify_ok_iff] at h
      obtain ⟨_, _, rfl, _, _, ⟨rfl, rfl⟩, rfl, rfl⟩ := h
      exact .enter hr (Or.inr hst)
    | running | uptodate | built | failed =>
      simp only [hst, bind_ok_iff, pure_ok_iff, emit, modify_ok_iff] at h
      obtain ⟨_, _, rfl, rfl, rfl⟩ := h
      rw [← hst]
      exact .settled hr (by simp [hst])

theorem resumeScan_ok {f : Frame} {found : List Name} {file : Name} {keep : FS → Bool}
    {k : Bool → Scan} {inputs : List Name} {answer : Bool} :
    resumeScan f found file keep k inputs answer p w = .ok p' w' ↔
      .rule (f.goto (.scan (if answer && keep w.fs then found ++ [file] else found) (k answer)
        inputs)) :: p = p' ∧ w = w' := by
  simp only [resumeScan, bind_ok_iff, get_ok_iff, pure_ok_iff]
  constructor
  · rintro ⟨_, _, ⟨rfl, rfl⟩, h⟩
    exact h
  · exact fun h => ⟨w, w, ⟨rfl, rfl⟩, h⟩

theorem resume_moves {t : Name} {st : Status} {f : Frame} (h : resume d E st f p f.phase w = .ok p' w')
    (hshape : (∃ dyn done dep todo, f.phase = .deps dyn done (dep :: todo)) ∨
      ∃ found file keep k inputs, f.phase = .scan found (.lookup file keep k) inputs) :
    Glance d E (.ret t st :: .rule f :: p) w p' w' := by
  rcases hshape with ⟨dyn, done, dep, todo, hphase⟩ | ⟨found, file, keep, k, inputs, hphase⟩
  · rw [hphase] at h
    simp only [resume, bind_ok_iff, pure_ok_iff] at h
    obtain ⟨_, _, h, rfl, rfl⟩ := h
    exact .depRet hphase h
  · rw [hphase] at h
    simp only [resume, bind_ok_iff] at h
    obtain ⟨answer, u, h, hr⟩ := h
    obtain ⟨rfl, rfl⟩ := resumeScan_ok.mp hr
    exact .lookRet hphase h

theorem lookupFile_ok {sync : Name → M Status} {file : Name} {b : Bool}
    (ht : d.isTarget file = false) :
    lookupFile d sync file w = .ok b w' ↔ w.fs.exists? file = b ∧ w = w' := by
  unfold lookupFile
  rw [if_neg (by simp [ht])]
  simp only [bind_ok_iff, get_ok_iff, pure_ok_iff]
  constructor
  · rintro ⟨_, _, ⟨rfl, rfl⟩, h⟩
    exact h
  · exact fun h => ⟨w, w, ⟨rfl, rfl⟩, h⟩

theorem advance_glances {f : Frame} (h : advance d E f p f.phase w = .ok p' w')
    (hphase : (∃ dyn done todo, f.phase = .deps dyn done todo) ∨
      ∃ found prog inputs, f.phase = .scan found prog inputs) :
    Glance d E (.rule f :: p) w p' w' := by
  rcases hphase with ⟨dyn, done, todo, hphase⟩ | ⟨found, prog, inputs, hphase⟩
  · rw [hphase] at h
    rcases todo with _ | ⟨dep, todo⟩
    · rcases dyn with _ | dyn <;> rw [advance, pure_ok_iff] at h <;> obtain ⟨rfl, rfl⟩ := h
      · exact .static hphase rfl
      · exact .dynamic hphase rfl
    · rw [advance, pure_ok_iff] at h
      obtain ⟨rfl, rfl⟩ := h
      exact .dep hphase
  · rw [hphase] at h
    cases prog with
    | done =>
      rcases inputs with _ | ⟨i, inputs⟩
      · rw [advance, pure_ok_iff] at h
        obtain ⟨rfl, rfl⟩ := h
        exact .scanned hphase
      · rw [advance] at h
        cases hd : f.rule.dyndep with
        | none =>
          simp only [hd, pure_ok_iff] at h
          obtain ⟨rfl, rfl⟩ := h
          exact .noscan hphase hd
        | some dyndep =>
          simp only [hd, pure_ok_iff] at h
          obtain ⟨rfl, rfl⟩ := h
          exact .input hphase hd
    | peek k =>
      simp only [advance, bind_ok_iff, get_ok_iff, pure_ok_iff] at h
      obtain ⟨_, _, ⟨rfl, rfl⟩, rfl, rfl⟩ := h
      exact .peek hphase
    | lookup file keep k =>
      rw [advance] at h
      by_cases ht : d.isTarget file = true
      · rw [if_pos ht, pure_ok_iff] at h
        obtain ⟨rfl, rfl⟩ := h
        exact .look hphase ht
      · rw [if_neg ht, bind_ok_iff] at h
        obtain ⟨answer, u, h, hr⟩ := h
        obtain ⟨rfl, rfl⟩ := (lookupFile_ok (by simpa using ht)).mp h
        obtain ⟨rfl, rfl⟩ := resumeScan_ok.mp hr
        exact .answer hphase (by simpa using ht)

theorem advance_moves {f : Frame} (h : advance d E f p f.phase w = .ok p' w') :
    Move d E (.rule f :: p) w p' w' := by
  cases hphase : f.phase with
  | deps dyn done todo => exact .glance (advance_glances h (Or.inl ⟨_, _, _, hphase⟩))
  | scan found prog inputs => exact .glance (advance_glances h (Or.inr ⟨_, _, _, hphase⟩))
  | check dyn =>
    rw [hphase, advance, bind_ok_iff] at h
    obtain ⟨st, u, hcheck, h⟩ := h
    split at h
    · next hst =>
      obtain ⟨rfl, hdo⟩ : st = .built ∧ f.rule.doList ≠ [] := by simpa using hst
      rw [pure_ok_iff] at h
      obtain ⟨rfl, rfl⟩ := h
      exact .launch hphase hcheck hdo
    · next hst =>
      simp only [bind_ok_iff, pure_ok_iff] at h
      obtain ⟨_, _, hleave, rfl, rfl⟩ := h
      obtain ⟨rfl, rfl⟩ := leave_ok.mp hleave
      exact .skip hphase hcheck (by simpa using hst)
  | launch dyn =>
    rw [hphase, advance, bind_ok_iff] at h
    obtain ⟨_, w1, h1, h⟩ := h
    split at h
    · next hn =>
      rw [bind_ok_iff] at h
      obtain ⟨st, w2, h2, h⟩ := h
      obtain ⟨rfl, rfl, hgo⟩ := close_ok h
      exact .dry hphase hn h1 h2 hgo
    · next hn =>
      rw [bind_ok_iff] at h
      obtain ⟨_, w2, h2, h⟩ := h
      have hfirst : p' = .rule (f.goto (firstPhase d f dyn w2)) :: p ∧ w' = w2 := by
        unfold firstScript at h
        unfold firstPhase
        cases hs : (if f.rule.slow then forkNotify d f.rule f.notify else none) with
        | some notify =>
          simp only [hs, bind_ok_iff, get_ok_iff, pure_ok_iff] at h
          obtain ⟨_, _, ⟨rfl, rfl⟩, rfl, rfl⟩ := h
          exact ⟨rfl, rfl⟩
        | none =>
          simp only [hs, pure_ok_iff] at h
          obtain ⟨rfl, rfl⟩ := h
          exact ⟨rfl, rfl⟩
      obtain ⟨rfl, rfl⟩ := hfirst
      exact .begin hphase (by simpa using hn) h1 h2
  | scripts dyn i todo =>
    rcases todo with _ | ⟨script, todo⟩
    · rw [hphase, advance, pure_ok_iff] at h
      obtain ⟨rfl, rfl⟩ := h
      exact .finished hphase
    · rw [hphase, advance] at h
      simp only [bind_ok_iff, get_ok_iff, ask, modifyGet_ok_iff] at h
      obtain ⟨_, _, ⟨rfl, rfl⟩, _, _, ⟨rfl, rfl⟩, h⟩ := h
      cases hrun : (if (E.exec w.tick f.rule.target (.script i) w.fs).run then
          forkNotify d f.rule f.notify else none) with
      | some notify =>
        simp only [hrun, bind_ok_iff, get_ok_iff, pure_ok_iff] at h
        obtain ⟨_, _, h, _, _, ⟨rfl, rfl⟩, rfl, rfl⟩ := h
        exact .forks hphase rfl hrun h
      | none =>
        simp only [hrun] at h
        rw [bind_ok_iff] at h
        obtain ⟨_, w2, happly, h⟩ := h
        have hnext : p' = .rule (f.goto (if (E.exec w.tick f.rule.target (.script i) w.fs).rc ≠ 0 &&
            !(f.rule.nofail && (E.exec w.tick f.rule.target (.script i) w.fs).rc = 1) then
            .ended dyn (E.exec w.tick f.rule.target (.script i) w.fs).rc
            else .scripts dyn (i + 1) todo)) :: p ∧ w' = w2 := by
          split at h <;> next hc =>
            rw [pure_ok_iff] at h
            obtain ⟨rfl, rfl⟩ := h
            simp only [hc, if_true, if_false, and_self, Bool.false_eq_true]
        obtain ⟨rfl, rfl⟩ := hnext
        exact .script hphase rfl hrun happly
  | slots dyn notify n i todo =>
    have hfork : ∀ m, (do addNewJob E f.rule notify i todo; close d f dyn .running p) w =
        .ok p' w' → f.phase = .slots dyn notify m i todo → (m = 0 ∨ w.running.length < d.maxjobs) →
        Move d E (.rule f :: p) w p' w' := by
      intro m h hphase hfree
      rw [bind_ok_iff] at h
      obtain ⟨_, u, hadd, h⟩ := h
      obtain ⟨rfl, rfl, hgo⟩ := close_ok h
      exact .fork hphase hfree hadd hgo
    rcases n with _ | n
    · rw [hphase, advance] at h
      exact hfork 0 h hphase (Or.inl rfl)
    · rw [hphase, advance] at h
      simp only [bind_ok_iff, get_ok_iff] at h
      obtain ⟨_, _, ⟨rfl, rfl⟩, h⟩ := h
      split at h
      · next hfull =>
        simp only [bind_ok_iff, pure_ok_iff] at h
        obtain ⟨_, _, hwait, rfl, rfl⟩ := h
        exact .slot hphase hfull hwait
      · next hfree => exact hfork (n + 1) h hphase (Or.inr (by omega))
  | ended dyn rc =>
    rw [hphase, advance, bind_ok_iff] at h
    obtain ⟨st, u, hend, h⟩ := h
    obtain ⟨rfl, rfl, hgo⟩ := close_ok h
    exact .ended hphase hend hgo

theorem resync_moves {t u : Name} {st : Status} (h : resync d E st u p w = .ok p' w') :
    Move d E (.ret t st :: .sync u :: p) w p' w' := by
  unfold resync at h
  split at h
  · next hst =>
    simp only [bind_ok_iff, pure_ok_iff] at h
    obtain ⟨_, _, hwait, rfl, rfl⟩ := h
    exact .wait (by simpa using hst) hwait
  · next hst =>
    rw [pure_ok_iff] at h
    obtain ⟨rfl, rfl⟩ := h
    exact .glance (.synced (by simpa using hst))

/-- **What one step does is a move.** -/
theorem next_moves {root : Name} (hp : Shape root p) (h : next d E p w = .ok p' w') :
    Move d E p w p' w' := by
  cases hp with
  | idle =>
    obtain ⟨rfl, rfl⟩ := pure_ok_iff.mp h
    exact .glance .idle
  | call hc => exact .glance (begin_moves h)
  | ret hc =>
    cases hc with
    | top => exact resync_moves h
    | look => exact resync_moves h
    | dep hphase => exact .glance (resume_moves h (Or.inl ⟨_, _, _, _, hphase⟩))
  | synced =>
    obtain ⟨rfl, rfl⟩ := pure_ok_iff.mp h
    exact .glance .idle
  | found hphase => exact .glance (resume_moves h (Or.inr ⟨_, _, _, _, _, hphase⟩))
  | rule hc => exact advance_moves h

end Tmake
