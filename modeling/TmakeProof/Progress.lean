import TmakeProof.Moves
import TmakeProof.Scheduler

/-! # Building comes to an end

A rule whose `-do` list has begun does not begin again, and a job that is waited
for is gone, so what is left to do decreases whenever something happens.
`toDo` is the measure.  A call of `build` that returns `waiting` or `running`
has left a job in the background or has made something happen, so that
`build-sync` does not go round in vain (`buildSync_ends`).
-/
namespace Tmake
open Weakest Machine Relation

variable {d : Desc} {E : Env} {root : Name} {p p' p'' : Point} {w w' w'' : World}

/-- The rules on the stack whose `-do` lists have begun. -/
def begunCount (p : Point) : Nat := (frames p).countP (·.phase.begun)

/-- What is left to do: a rule begins, perhaps goes on in the background, and ends. -/
def toDo (d : Desc) (p : Point) (w : World) : Nat :=
  2 * (d.rules.length - (starts w.trace).length) + w.running.length + begunCount p

/-- What every step of the machine satisfies: jobs are gone only if something has happened. -/
structure Falls (d : Desc) (p : Point) (w : World) (p' : Point) (w' : World) : Prop where
  le : toDo d p' w' ≤ toDo d p w
  alive : w.running ≠ [] → w'.running ≠ [] ∨ toDo d p' w' < toDo d p w

section
variable (p : Point)

@[simp] theorem begunCount_call (t : Name) (n : Option RuleTarget) :
    begunCount (.call t n :: p) = begunCount p := rfl
@[simp] theorem begunCount_ret (t : Name) (st : Status) :
    begunCount (.ret t st :: p) = begunCount p := rfl
@[simp] theorem begunCount_sync (t : Name) : begunCount (.sync t :: p) = begunCount p := rfl
@[simp] theorem begunCount_rule (f : Frame) :
    begunCount (.rule f :: p) = begunCount p + if f.phase.begun then 1 else 0 := by
  simp only [begunCount, frames_rule, List.countP_cons]

theorem begunCount_rule_le (f : Frame) : begunCount (.rule f :: p) ≤ begunCount p + 1 := by
  rw [begunCount_rule]
  split <;> omega

end

theorem Falls.same (hs : starts w'.trace = starts w.trace) (hr : w'.running = w.running)
    (hb : begunCount p' ≤ begunCount p) : Falls d p w p' w' := by
  refine ⟨?_, fun h => Or.inl (hr ▸ h)⟩
  unfold toDo
  rw [hs, hr]
  omega

theorem starts_left (f : Frame) (dyn : List Name) (st : Status) (w : World) :
    starts (left f dyn st w).trace = starts w.trace := rfl

/-- Waiting for a job takes one away. -/
theorem Falls.wait {b : Bool} (h : waitForOneJob d E w = .ok b w')
    (hb : begunCount p' ≤ begunCount p) :
    Falls d p w p' w' ∧ (w.running ≠ [] → toDo d p' w' < toDo d p w) := by
  rcases wp_of_ok h (waitForOneJob_spec w) with ⟨hnil, rfl⟩ | hw
  · exact ⟨.same rfl rfl hb, fun h => absurd hnil h⟩
  · obtain ⟨i, job, st, st', hi, hrun, -⟩ := hw.reaped
    have hlt : i < w.running.length := (List.getElem?_eq_some_iff.mp hi).1
    have hless : toDo d p' w' < toDo d p w := by
      unfold toDo
      rw [hw.trace.starts, hrun, List.length_eraseIdx_of_lt hlt]
      omega
    exact ⟨⟨hless.le, fun _ => Or.inr hless⟩, fun _ => hless⟩

theorem Glance.falls (h : Glance d E p w p' w') : Falls d p w p' w' := by
  cases h with
  | idle => exact .same rfl rfl le_rfl
  | @source t n p w st w' hr h =>
    unfold buildSource at h
    simp only [bind_ok_iff, get_ok_iff] at h
    obtain ⟨_, _, ⟨rfl, rfl⟩, h⟩ := h
    cases hts : w.targetstatus t with
    | some ret =>
      simp only [hts, pure_ok_iff] at h
      obtain ⟨rfl, rfl⟩ := h
      exact .same rfl rfl le_rfl
    | none =>
      simp only [hts, bind_ok_iff, modify_ok_iff, pure_ok_iff] at h
      obtain ⟨_, _, rfl, rfl, rfl⟩ := h
      exact .same rfl rfl le_rfl
  | settled => exact .same rfl rfl le_rfl
  | enter => exact .same rfl rfl (by simp [Phase.begun])
  | dep => exact .same rfl rfl le_rfl
  | @static f _ _ _ st hphase =>
    refine .same rfl rfl ?_
    simp only [begunCount_rule, hphase, Frame.goto_phase]
    unfold afterStatic
    split <;> [split; skip] <;> simp [Phase.begun]
  | dynamic hphase => exact .same rfl rfl (by simp [hphase, Phase.begun])
  | scanned hphase => exact .same rfl rfl (by simp [hphase, Phase.begun])
  | noscan hphase => exact .same rfl rfl (by simp [hphase, Phase.begun])
  | input hphase => exact .same rfl rfl (by simp [hphase, Phase.begun])
  | peek hphase => exact .same rfl rfl (by simp [hphase, Phase.begun])
  | look => exact .same rfl rfl le_rfl
  | answer hphase => exact .same rfl rfl (by simp [hphase, Phase.begun])
  | depRet hphase h =>
    have hq := (depFailed_quiet (S := fun _ => False) (O := fun _ => False) _).ok h
    exact .same hq.starts hq.running (by simp [hphase, Phase.begun])
  | lookRet hphase h =>
    have hq := (lookupFile_quiet (E := E) (S := fun _ => False) (O := fun _ => False) _ _).ok h
    exact .same hq.starts hq.running (by simp [hphase, Phase.begun])
  | synced => exact .same rfl rfl le_rfl

theorem Inv.starts_le (h : Inv d root p w) : (starts w.trace).length ≤ d.rules.length := by
  have hsub : starts w.trace ⊆ d.rules.map (·.target) := h.good.known
  have hle := (List.subperm_of_subset h.good.nodup hsub).length_le
  rwa [List.length_map] at hle

theorem Move.falls (hi : Inv d root p' w') (h : Move d E p w p' w') : Falls d p w p' w' := by
  cases h with
  | glance h => exact h.falls
  | wait hst h => exact (Falls.wait h (by simp)).1
  | launch hphase h =>
    have hq := (checkRule_quiet (S := fun _ => False) (O := fun _ => True) _ _ _ _ trivial).ok h
    exact .same hq.starts hq.running (by simp [hphase, Phase.begun])
  | skip hphase h =>
    have hq := (checkRule_quiet (S := fun _ => False) (O := fun _ => True) _ _ _ _ trivial).ok h
    exact .same hq.starts hq.running (by simp)
  | dry hphase hn h1 h2 =>
    have hq := (prepareRule_quiet (S := fun _ => False) (O := fun _ => True) trivial).ok h1
    have hq' := (dryRun_quiet (E := E) (S := fun _ => False) (O := fun _ => True) _ _).ok h2
    exact .same (hq'.starts.trans hq.starts) (hq'.running.trans hq.running) (by simp)
  | @begin f p w dyn w1 w2 hphase hn h1 h2 =>
    have hq := (prepareRule_quiet (S := fun _ => False) (O := fun _ => True) trivial).ok h1
    obtain ⟨w3, hq', rfl⟩ := wp_of_ok h2 (beginRule_spec (d := d) f.rule f.target _ dyn w1)
    have hr : w3.running = w.running := hq'.running.trans hq.running
    have hs : starts w3.trace = starts w.trace := hq'.starts.trans hq.starts
    have hle := hi.starts_le
    refine ⟨?_, fun h => Or.inl (hr ▸ h)⟩
    unfold toDo
    simp only [starts_cons, Event.started?, Option.toList_some, List.singleton_append,
      List.length_cons, hs, hr, begunCount_rule] at hle ⊢
    split <;> omega
  | finished hphase => exact .same rfl rfl (by simp [hphase, Phase.begun])
  | script hphase hres hrun h =>
    have hq := (applyResult_quiet (d := d) (S := fun _ => False) (O := fun _ => True) trivial).ok
      (hres ▸ h)
    exact .same hq.starts hq.running
      ((begunCount_rule_le _ _).trans (by simp [hphase, Phase.begun]))
  | forks hphase hres hrun h =>
    have hq := (recordCmds_quiet (S := fun _ => False) (O := fun _ => True) _ trivial).ok h
    exact .same hq.starts hq.running (by simp [hphase, Phase.begun])
  | slot hphase hfull h => exact (Falls.wait h (by simp [hphase, Phase.begun])).1
  | fork hphase hfree h hgo =>
    obtain ⟨job, -, -, hs⟩ := wp_of_ok h (addNewJob_sets _ _ _ _ _)
    have hr := hs.running
    refine ⟨?_, fun _ => Or.inl ?_⟩
    · unfold toDo
      rw [starts_left, hs.trace.starts]
      simp only [begunCount_ret, begunCount_rule, hphase, Phase.begun, left, hr,
        List.length_append, List.length_singleton, if_true]
      omega
    · simp [left, hr]
  | ended hphase h hgo =>
    have hq := (endForeground_quiet (S := fun _ => True) (O := fun _ => True) _ trivial trivial).ok h
    exact .same hq.starts hq.running (by simp)

/-- Every step of the machine preserves the control invariant and loses no job for nothing. -/
theorem next_falls (p : Point) (w : World) (h : Inv d root p w) :
    wp (next d E p) (fun p' w' => Inv d root p' w' ∧ Falls d p w p' w') (fun _ _ => True) w := by
  refine wp_iff.mpr ⟨fun p' w' hn => ?_, fun _ _ _ => trivial⟩
  have h' := wp_of_ok hn (next_inv p w h)
  exact ⟨h', (next_moves h.shape hn).falls h'⟩

/-! ## The recursion ends -/

/-- `build` has not settled the target yet. -/
def Stalled (st : Status) : Prop := st = .waiting ∨ st = .running

/-- The control invariant holds, and at most `m` is left to do. -/
def Live (d : Desc) (root : Name) (m : Nat) (p : Point) (w : World) : Prop :=
  Inv d root p w ∧ toDo d p w ≤ m

/-- There is a job to wait for, or less than `m` is left to do. -/
def Alive (d : Desc) (m : Nat) (p : Point) (w : World) : Prop :=
  w.running ≠ [] ∨ toDo d p w < m

theorem keeps_alive (root : Name) (m : Nat) :
    Keeps (next d E) (Live d root m) (Alive d m) := by
  intro p w h
  refine (next_falls p w h.1).imp (fun p' w' h' => ⟨⟨h'.1, h'.2.le.trans h.2⟩, fun hV => ?_⟩)
    fun _ _ h => h
  rcases hV with hV | hV
  · exact (h'.2.alive hV).imp id fun hlt => hlt.trans_le h.2
  · exact Or.inr (h'.2.le.trans_lt hV)

/-- How many more rules can be put on the stack. -/
def room (d : Desc) (p : Point) : Nat := d.rules.length - (frames p).length

/-- A program for `build` that recurses deep enough. -/
def BuildCompletes (d : Desc) (n : Nat) (bld : Name → Option RuleTarget → M Status) : Prop :=
  ∀ root m t notify p A, room d p + m < n →
    Completes .fuel (Live d root m) (Alive d m) A (bld t notify) (.call t notify :: p)
      (.ret t · :: p) Stalled

/-- The same for `build-sync`. -/
def SyncCompletes (d : Desc) (n : Nat) (sync : Name → M Status) : Prop :=
  ∀ root m t p A, room d p + m < n →
    Completes .fuel (Live d root m) (Alive d m) A (sync t) (.call t none :: .sync t :: p)
      (.ret t · :: p) fun _ => False

theorem Within.avoids_fuel {α : Type} {R : World → World → Prop} {x : M α}
    (h : Within Stop.Deep R x) : Avoids (· = Stop.fuel) x := fun w =>
  (h.avoids w).imp (fun _ _ _ => trivial) fun _ _ he hfuel => he (Or.inl hfuel)

section
variable {n m : Nat} {A : Prop} {bld : Name → Option RuleTarget → M Status}
  {sync : Name → M Status}

theorem buildDeps_completes (hbld : BuildCompletes d n bld) (f : Frame)
    (dyn : Option (List Name)) (done : List (Name × Status)) (todo : List Name)
    (hn : room d (.rule f :: p) + m < n) :
    Completes .fuel (Live d root m) (Alive d m) A (buildDeps d E bld f.rule.target todo)
      (.rule (f.goto (.deps dyn done todo)) :: p)
      (fun rets => .rule (f.goto (.deps dyn (done ++ rets) [])) :: p)
      (fun rets => ∃ x ∈ rets, Stalled x.2) := by
  have hk := keeps_alive (d := d) (E := E) root m
  induction todo generalizing done A with
  | nil =>
    have h := Completes.pure (A := A) Stop.fuel (Live d root m) (Alive d m)
      (fun rets => .rule (f.goto (.deps dyn (done ++ rets) [])) :: p)
      (a := ([] : List (Name × Status))) (S := fun rets => ∃ x ∈ rets, Stalled x.2)
      (fun ⟨_, hx, _⟩ => absurd hx List.not_mem_nil)
    rwa [List.append_nil] at h
  | cons dep todo ih =>
    refine Completes.of_next hk (Continues.pure ?_)
    refine (hbld root m dep (some f.rule.target)
      (.rule (f.goto (.deps dyn done (dep :: todo))) :: p) A hn).bind fun ret =>
        Completes.of_next hk ?_
    refine Continues.bind
      (Within.avoids_fuel (depFailed_quiet (E := E) (S := fun _ => False) (O := fun _ => False) ret))
      fun _ => Continues.pure ?_
    refine (ih (done ++ [(dep, ret)])).bind fun rets => ?_
    have h := Completes.pure (A := (A ∨ Stalled ret) ∨ ∃ x ∈ rets, Stalled x.2) Stop.fuel
      (Live d root m) (Alive d m) (fun rets => .rule (f.goto (.deps dyn (done ++ rets) [])) :: p)
      (a := (dep, ret) :: rets) (S := fun rets => ∃ x ∈ rets, Stalled x.2) (by
        rintro ⟨x, hx, hst⟩
        rcases List.mem_cons.mp hx with rfl | hx
        · exact Or.inl (Or.inr hst)
        · exact Or.inr ⟨x, hx, hst⟩)
    rwa [List.append_cons] at h

theorem runScan_completes (E : Env) (hsync : SyncCompletes d n sync) (f : Frame) (found : List Name)
    (prog : Scan) (inputs : List Name) (hn : room d (.rule f :: p) + m < n) :
    Completes .fuel (Live d root m) (Alive d m) A (runScan d sync prog)
      (.rule (f.goto (.scan found prog inputs)) :: p)
      (fun l => .rule (f.goto (.scan (found ++ l) .done inputs)) :: p) (fun _ => False) := by
  have hk := keeps_alive (d := d) (E := E) root m
  induction prog generalizing found A with
  | done =>
    have h := Completes.pure (A := A) Stop.fuel (Live d root m) (Alive d m)
      (fun l => .rule (f.goto (.scan (found ++ l) .done inputs)) :: p)
      (a := ([] : List Name)) (S := fun _ => False) False.elim
    rwa [List.append_nil] at h
  | peek k ih =>
    refine Completes.of_next hk (Continues.bind (fun _ => trivial) fun w => Continues.pure ?_)
    exact ih w.fs found
  | lookup file keep k ih =>
    -- what follows the answer
    have hrest : ∀ answer B, Continues .fuel (Live d root m) (Alive d m) B
        (resumeScan f found file keep k inputs answer p)
        (do let w ← get
            let rest ← runScan d sync (k answer)
            return if answer && keep w.fs then file :: rest else rest)
        (fun l => .rule (f.goto (.scan (found ++ l) .done inputs)) :: p) (fun _ => False) := by
      intro answer B
      refine Continues.bind (fun _ => trivial) fun w => Continues.pure ?_
      refine (ih answer _).bind fun rest => ?_
      have h := Completes.pure (A := B ∨ False) Stop.fuel (Live d root m) (Alive d m)
        (fun l => .rule (f.goto (.scan (found ++ l) .done inputs)) :: p)
        (a := if answer && keep w.fs then file :: rest else rest) (S := fun _ => False) False.elim
      by_cases hk : (answer && keep w.fs) = true
      · simp only [hk, if_true] at h ⊢
        rwa [List.append_cons] at h
      · simpa only [hk, Bool.false_eq_true, if_false] using h
    have hlook : ∀ status, Avoids (· = Stop.fuel) (lookupFile d (fun _ => return status) file) :=
      fun status => Within.avoids_fuel
        (lookupFile_quiet (E := E) (S := fun _ => False) (O := fun _ => False) status file)
    by_cases ht : d.isTarget file = true
    · unfold runScan
      rw [lookupFile_eq ht]
      refine Completes.of_next hk ?_
      have hn' : next d E (.rule (f.goto (.scan found (.lookup file keep k) inputs)) :: p)
          = pure (.call file none :: .sync file ::
              .rule (f.goto (.scan found (.lookup file keep k) inputs)) :: p) := by
        simp [next, advance, ht]
      rw [hn']
      refine Continues.pure ?_
      rw [bind_assoc]
      exact (hsync root m file (.rule (f.goto (.scan found (.lookup file keep k) inputs)) :: p) A
        hn).bind fun status => Completes.of_next hk (Continues.bind (hlook status) fun a => hrest a _)
    · unfold runScan
      refine Completes.of_next hk ?_
      have hn' : next d E (.rule (f.goto (.scan found (.lookup file keep k) inputs)) :: p)
          = lookupFile d (fun _ => return .unknown) file >>= fun answer =>
              resumeScan (f.goto (.scan found (.lookup file keep k) inputs)) found file keep k
                inputs answer p := by
        simp [next, advance, ht]
      rw [hn', lookupFile_source sync (Bool.not_eq_true _ ▸ ht)]
      exact Continues.bind (hlook .unknown) fun a => hrest a _

theorem scanInputs_completes (E : Env) (hsync : SyncCompletes d n sync) (f : Frame)
    {dyndep : Name → Dyndep} (hf : f.rule.dyndep = some dyndep) (found : List Name)
    (inputs : List Name) (hn : room d (.rule f :: p) + m < n) :
    Completes .fuel (Live d root m) (Alive d m) A (scanInputs d sync dyndep inputs)
      (.rule (f.goto (.scan found .done inputs)) :: p)
      (fun l => .rule (f.goto (.deps (some (found ++ l)) [] (found ++ l))) :: p)
      (fun _ => False) := by
  have hk := keeps_alive (d := d) (E := E) root m
  induction inputs generalizing found A with
  | nil =>
    refine Completes.of_next hk (Continues.pure ?_)
    have h := Completes.pure (A := A) Stop.fuel (Live d root m) (Alive d m)
      (fun l => .rule (f.goto (.deps (some (found ++ l)) [] (found ++ l))) :: p)
      (a := ([] : List Name)) (S := fun _ => False) False.elim
    rwa [List.append_nil] at h
  | cons i inputs ih =>
    refine Completes.of_next hk ?_
    have hn' : next d E (.rule (f.goto (.scan found .done (i :: inputs))) :: p)
        = pure (.rule (f.goto (.scan (found ++ (dyndep i).named) (dyndep i).scan inputs)) :: p) := by
      simp [next, advance, hf]
    rw [hn']
    refine Continues.pure ?_
    refine (runScan_completes E hsync f _ _ inputs hn).bind fun l => ?_
    refine (ih (found ++ (dyndep i).named ++ l)).bind fun rest => ?_
    have h := Completes.pure (A := (A ∨ False) ∨ False) Stop.fuel (Live d root m) (Alive d m)
      (fun l => .rule (f.goto (.deps (some (found ++ l)) [] (found ++ l))) :: p)
      (a := (dyndep i).named ++ l ++ rest) (S := fun _ => False) False.elim
    simpa only [List.append_assoc] using h

theorem calcDyndeps_completes (E : Env) (hsync : SyncCompletes d n sync) (f : Frame) {status : Status}
    (hs : (status = .uptodate || status = .built) = true)
    (hn : room d (.rule f :: p) + m < n) :
    Completes .fuel (Live d root m) (Alive d m) A (calcDyndeps d sync f.rule)
      (.rule ({ f with status }.goto (afterStatic f status)) :: p)
      (fun dyn => .rule ({ f with status }.goto (.deps (some dyn) [] dyn)) :: p)
      (fun _ => False) := by
  unfold calcDyndeps afterStatic
  rw [if_pos hs]
  cases hd : f.rule.dyndep with
  | none =>
    exact Completes.pure (A := A) Stop.fuel (Live d root m) (Alive d m)
      (fun dyn => .rule ({ f with status }.goto (.deps (some dyn) [] dyn)) :: p)
      (a := ([] : List Name)) (S := fun _ => False) False.elim
  | some dyndep => exact scanInputs_completes E hsync { f with status } hd [] f.rule.inputs hn

end

/-! ### From the point where the dependencies are known -/

theorem waitForOneJob_avoids : Avoids Stop.Deep (waitForOneJob d E) := fun w =>
  (waitForOneJob_spec w).imp (fun _ _ _ => trivial) fun _ _ h => h.1

theorem waitForJobSlots_avoids (n : Nat) : Avoids Stop.Deep (waitForJobSlots d E n) := by
  induction n with
  | zero => exact Avoids.pure _
  | succ n ih =>
    refine Avoids.bind (fun _ => trivial) fun w => Avoids.ite (fun _ => ?_) fun _ => Avoids.pure _
    exact Avoids.bind waitForOneJob_avoids fun _ => ih

theorem forkJob_runs (r : Rule) (notify : RuleTarget) (i : Nat) (scripts : List Script)
    (w : World) :
    wp (forkJob d E r notify i scripts) (fun _ w' => w'.running ≠ []) (fun e _ => ¬e.Deep) w := by
  unfold forkJob
  rw [wp_bind, wp_get, wp_bind]
  refine (waitForJobSlots_avoids w.running.length w).imp (fun _ w1 _ => ?_) fun _ _ h => h
  refine (addNewJob_sets r notify i scripts w1).imp (fun _ w' h => ?_) fun _ _ h => h.elim
  obtain ⟨job, -, -, hs⟩ := h
  simp [hs.running]

theorem runScripts_runs (r : Rule) (notify : Option RuleTarget) (i : Nat) (scripts : List Script)
    (w : World) :
    wp (runScripts d E r notify i scripts) (fun rc w' => rc = none → w'.running ≠ [])
      (fun e _ => ¬e.Deep) w := by
  induction scripts generalizing i w with
  | nil => exact fun h => absurd h (Option.some_ne_none 0)
  | cons script scripts ih =>
    unfold runScripts ask
    rw [wp_bind, wp_get, wp_bind, wp_modifyGet]
    dsimp only
    cases (if (E.exec w.tick r.target (.script i) w.fs).run then notify else none) with
    | some n =>
      dsimp only
      rw [wp_bind]
      refine ((recordCmds_quiet (S := fun _ => False) (O := fun _ => True) _ trivial).avoids _).imp
        (fun _ w2 _ => ?_) fun _ _ h => h
      rw [wp_bind]
      exact (forkJob_runs r n i (script :: scripts) w2).imp (fun _ _ h _ => h) fun _ _ h => h
    | none =>
      dsimp only
      rw [wp_bind]
      refine ((applyResult_quiet (d := d) (S := fun _ => False) (O := fun _ => True)
        trivial).avoids _).imp (fun _ w2 _ => ?_) fun _ _ h => h
      rw [wp_ite]
      exact ⟨fun _ h => absurd h (Option.some_ne_none _), fun _ => ih (i + 1) w2⟩

theorem beginRule_avoids (r : Rule) (target : Name) (vardict : List (String × String))
    (dyn : List Name) : Avoids Stop.Deep (beginRule d E r target vardict dyn) :=
  Avoids.bind (osCheck_quiet (d := d) (S := fun _ => False) (O := fun _ => True)).avoids
    fun _ => Avoids.bind (fun _ => trivial) fun _ _ => trivial

theorem startRule_runs (r : Rule) (target : Name) (notify : Option RuleTarget)
    (vardict : List (String × String)) (dyn : List Name) (w : World) :
    wp (startRule d E r target notify vardict dyn) (fun st w' => Stalled st → w'.running ≠ [])
      (fun e _ => ¬e.Deep) w := by
  have hforked : ∀ w' : World, w'.running ≠ [] →
      wp (pure Status.running : M Status) (fun st w' => Stalled st → w'.running ≠ [])
        (fun e _ => ¬e.Deep) w' := fun _ h _ => h
  have hend : ∀ rc (w' : World), wp (endForeground d E r rc)
      (fun st w' => Stalled st → w'.running ≠ []) (fun e _ => ¬e.Deep) w' := fun rc w' =>
    ((endForeground_status r rc w').and ((endForeground_quiet (S := fun _ => True)
      (O := fun _ => True) rc trivial trivial).avoids w')).imp
      (fun st _ h hst => by rcases h.1 with rfl | rfl <;> rcases hst with h | h <;> cases h)
      fun _ _ h => h.2
  unfold startRule
  rw [wp_bind]
  refine ((beginRule_avoids r target vardict dyn) w).imp (fun _ w1 _ => ?_) fun _ _ h => h
  dsimp only
  cases if r.slow then forkNotify d r notify else none with
  | some n =>
    dsimp only
    rw [wp_bind, wp_bind]
    refine (forkJob_runs r n 0 r.doList w1).imp (fun _ w2 h => ?_) fun _ _ h => h
    exact hforked w2 h
  | none =>
    dsimp only
    rw [wp_bind]
    refine (runScripts_runs r (forkNotify d r notify) 0 r.doList w1).imp (fun rc w2 h => ?_)
      fun _ _ h => h
    cases rc with
    | none => exact hforked w2 (h rfl)
    | some rc => exact hend rc w2

theorem runRule_runs (r : Rule) (target : Name) (notify : Option RuleTarget)
    (vardict : List (String × String)) (dyn : List Name) (w : World) :
    wp (runRule d E r target notify vardict dyn) (fun st w' => Stalled st → w'.running ≠ [])
      (fun e _ => ¬e.Deep) w := by
  have hstop : ∀ st (w1 : World), (Stalled st → w1.running ≠ []) →
      wp (do stopIf (d.quickstop || r.fatal) .fatal; return st)
        (fun st w' => Stalled st → w'.running ≠ []) (fun e _ => ¬e.Deep) w1 := fun st w1 h => by
    rw [wp_bind]
    exact (stopIf_quiet (d := d) (E := E) (S := fun _ => False) (O := fun _ => True) _
      .fatal nofun w1).imp (fun _ _ hq hst => hq.running ▸ h hst) fun _ _ h => h.1
  unfold runRule
  rw [wp_bind]
  refine ((prepareRule_quiet (S := fun _ => False) (O := fun _ => True) trivial).avoids w).imp
    (fun _ w1 _ => ?_) fun _ _ h => h
  dsimp only
  by_cases hn : d.norun ≠ 0
  · rw [if_pos hn, wp_bind]
    refine ((dryRun_status r vardict w1).and ((dryRun_quiet (E := E) (S := fun _ => False)
      (O := fun _ => True) r vardict).avoids w1)).imp (fun st w2 h => ?_) fun _ _ h => h.2
    refine hstop st w2 fun hst => ?_
    rw [h.1] at hst
    rcases hst with h | h <;> cases h
  · rw [if_neg hn, wp_bind]
    exact (startRule_runs r target notify vardict dyn w1).imp (fun st w2 h => hstop st w2 h)
      fun _ _ h => h

/-- `build` returns `waiting` because of a dependency, and `running` with a job. -/
theorem finish_runs (r : Rule) (target : Name) (notify : Option RuleTarget) (dyn : List Name)
    {st : Status} (hst : st ≠ .running) (w : World) :
    wp (finish d E r target notify dyn st) (fun st' w' => Stalled st' →
      st = .waiting ∨ w'.running ≠ []) (fun e _ => ¬e.Deep) w := by
  have hleave : ∀ st' (w1 : World), (Stalled st' → st = .waiting ∨ w1.running ≠ []) →
      wp (leave r target dyn st') (fun st' w' => Stalled st' → st = .waiting ∨ w'.running ≠ [])
        (fun e _ => ¬e.Deep) w1 := fun _ _ h => h
  unfold finish
  rw [wp_bind]
  refine ((checkRule_outdates r target (d.vardict r) dyn st w).and ((checkRule_quiet
    (S := fun _ => False) (O := fun _ => True) target (d.vardict r) dyn st trivial).avoids w)).imp
    (fun st1 w1 h => ?_) fun _ _ h => h.2
  obtain ⟨hout, -⟩ := h
  dsimp only
  by_cases hb : (st1 = .built && !r.doList.isEmpty) = true
  · rw [if_pos hb, wp_bind]
    exact (runRule_runs r target notify (d.vardict r) dyn w1).imp
      (fun st2 w2 h => hleave st2 w2 fun hs => Or.inr (h hs)) fun _ _ h => h
  · rw [if_neg hb, wp_bind, wp_pure]
    refine hleave st1 w1 fun hs => Or.inl ?_
    rcases hout with rfl | ⟨-, rfl⟩
    · exact hs.resolve_right hst
    · rcases hs with h | h <;> cases h

/-! ### The recursion -/

section
variable {n m : Nat} {A : Prop} {bld : Name → Option RuleTarget → M Status}
  {sync : Name → M Status}

theorem finish_completes (E : Env) (root : Name) (f : Frame) (dyn : List Name) (hst : f.status ≠ .running)
    (hA : f.status = .waiting → A) :
    Completes .fuel (Live d root m) (Alive d m) A
      (finish d E f.rule f.target f.notify dyn f.status) (.rule (f.goto (.check dyn)) :: p)
      (.ret f.target · :: p) Stalled := by
  intro w hL hV
  refine Completes.run (keeps_alive (E := E) root m) (finish_follows f dyn) hL hV ?_
  exact (finish_runs f.rule f.target f.notify dyn hst w).imp
    (fun _ _ h hs => (h hs).imp hA Or.inl) fun _ _ h he => h (Or.inl he)

theorem depsStatus_waiting (phony : Bool) (rets : List (Name × Status)) {st : Status}
    (hst : st.done = true) :
    depsStatus d phony rets st ≠ .running ∧
      (depsStatus d phony rets st = .waiting → ∃ x ∈ rets, Stalled x.2) := by
  unfold depsStatus
  dsimp only
  split
  · next h =>
    refine ⟨nofun, fun _ => ?_⟩
    rcases h with h | h <;> obtain ⟨x, hx, hxs⟩ := List.mem_map.mp h
    · exact ⟨x, hx, Or.inr hxs⟩
    · exact ⟨x, hx, Or.inl hxs⟩
  split
  · exact ⟨nofun, nofun⟩
  split
  · exact ⟨nofun, nofun⟩
  · cases st <;> simp_all [Status.done]

theorem initialStatus_done (r : Rule) (fs : FS) : (initialStatus d r fs).done = true := by
  unfold initialStatus
  split <;> rfl

theorem buildRule_completes (root : Name) (hbld : BuildCompletes d n bld) (hsync : SyncCompletes d n sync)
    (r : Rule) (target : Name) (notify : Option RuleTarget)
    (hn : ∀ f : Frame, room d (.rule f :: p) + m < n) :
    Continues .fuel (Live d root m) (Alive d m) A
      (do enter r target
          let w ← get
          return .rule ⟨r, target, notify, initialStatus d r w.fs, .deps none [] r.depends⟩ :: p)
      (buildRule d E bld sync r target notify) (.ret target · :: p) Stalled := by
  have hk := keeps_alive (d := d) (E := E) root m
  refine Continues.bind (fun _ => trivial) fun _ => Continues.bind (fun _ => trivial) fun w =>
    Continues.pure ?_
  let f : Frame := ⟨r, target, notify, initialStatus d r w.fs, .deps none [] r.depends⟩
  have hf : f.status.done = true := initialStatus_done r w.fs
  refine (buildDeps_completes (E := E) hbld f none [] r.depends (hn f)).bind fun rets =>
    Completes.of_next hk (Continues.pure ?_)
  by_cases hs : (depsStatus d r.phony rets f.status = .uptodate ||
      depsStatus d r.phony rets f.status = .built) = true
  · rw [if_pos hs]
    refine (calcDyndeps_completes E hsync f hs (hn f)).bind fun dyn => ?_
    let g : Frame := { f with status := depsStatus d r.phony rets f.status }
    have hg : g.status.done = true := by
      revert hs
      change (decide (g.status = .uptodate) || decide (g.status = .built)) = true → _
      cases g.status <;> simp [Status.done]
    refine (buildDeps_completes (E := E) hbld g (some dyn) [] dyn (hn g)).bind fun rets' => ?_
    obtain ⟨hne, hwait⟩ := depsStatus_waiting (d := d) r.phony rets' hg
    exact Completes.of_next hk (Continues.pure (finish_completes E root
      { g with status := depsStatus d r.phony rets' g.status } dyn hne fun h => Or.inr (hwait h)))
  · have hp : afterStatic f (depsStatus d r.phony rets f.status) = .check [] := if_neg hs
    obtain ⟨hne, hwait⟩ := depsStatus_waiting (d := d) r.phony rets hf
    have h := finish_completes (A := A ∨ ∃ x ∈ rets, Stalled x.2) (d := d) (m := m) (p := p) E root
      { f with status := depsStatus d r.phony rets f.status } [] hne fun h => Or.inr (hwait h)
    rw [if_neg hs]
    rw [← hp] at h
    exact h

theorem syncLoop_returns (E : Env) (hbld : BuildCompletes d n bld) (k : Nat) {t : Name}
    (hL : Live d root m (.call t none :: .sync t :: p) w) (hn : room d p + m < n) (hm : m < k) :
    wp (syncLoop d E bld k t) (fun _ _ => True) (fun e _ => e ≠ .fuel) w := by
  induction k generalizing m w with
  | zero => omega
  | succ k ih =>
    unfold syncLoop
    rw [wp_bind]
    refine (hbld root m t none (.sync t :: p) False hn w hL False.elim).imp
      (fun st w1 h => ?_) fun _ _ h => h
    obtain ⟨⟨hinv, hle⟩, halive⟩ := h
    rw [wp_ite]
    refine ⟨fun hst => ?_, fun _ => trivial⟩
    have hst' : Stalled st := by simpa [Stalled] using hst
    have hnext := next_inv (E := E) _ _ hinv
    have heq : next d E (.ret t st :: .sync t :: p) = waitForOneJob d E >>= fun _ =>
        pure (.call t none :: .sync t :: p) := by
      change resync d E st t p = _
      unfold resync
      rw [if_pos hst]
    rw [heq, wp_bind] at hnext
    rw [wp_bind]
    refine wp_iff.mpr ⟨fun b w2 hok => ?_, fun e w2 herr => ?_⟩
    · have hinv2 := wp_of_ok hok hnext
      rw [wp_pure] at hinv2
      obtain ⟨hfalls, hless⟩ : Falls d (.ret t st :: .sync t :: p) w1
          (.call t none :: .sync t :: p) w2 ∧ _ := Falls.wait hok le_rfl
      -- a job was reaped, or something had happened before
      have hlt : toDo d (.call t none :: .sync t :: p) w2 < m := by
        rcases halive (Or.inr hst') with h | h
        · exact (hless h).trans_le hle
        · exact hfalls.le.trans_lt h
      exact ih (m := m - 1) ⟨hinv2, by omega⟩ (by omega) (by omega)
    · exact fun he => (wp_of_error herr (waitForOneJob_spec w1)).1 (Or.inl he)

theorem syncLoop_completes (hbld : BuildCompletes d n bld)
    (hfollows : BuildFollows (d := d) (E := E) bld) :
    SyncCompletes d n (syncLoop d E bld n) := by
  intro root m t p A hn w hL hV
  refine Completes.run (keeps_alive (E := E) root m) (syncLoop_follows hfollows n t p) hL hV ?_
  exact (syncLoop_returns E hbld n hL hn (by omega)).imp (fun _ _ _ h => h.elim)
    fun _ _ h => h

theorem buildSource_settles (h : Inv d root p w) (t : Name) :
    wp (buildSource t) (fun st _ => ¬Stalled st) (fun _ _ => False) w := by
  unfold buildSource
  rw [wp_bind, wp_get]
  cases hts : w.targetstatus t with
  | some ret =>
    rcases h.targetstatus t ret hts with rfl | rfl <;> rintro (h | h) <;> cases h
  | none =>
    dsimp only
    rw [wp_bind, wp_modify, wp_pure]
    split <;> rintro (h | h) <;> cases h

/-- A rule that is not on the stack has room there. -/
theorem Inv.room (h : Inv d root p w) {r : Rule} (hr : r ∈ d.rules) (hp : r.target ∉ onStack p) :
    (frames p).length < d.rules.length := by
  have hsub : r.target :: onStack p ⊆ d.rules.map (·.target) := by
    intro s hs
    rcases List.mem_cons.mp hs with rfl | hs
    · exact List.mem_map_of_mem hr
    · obtain ⟨f, hf, rfl⟩ := List.mem_map.mp hs
      exact List.mem_map_of_mem (d.ruleFor_mem (h.frameOK f hf).1)
  have hle := (List.subperm_of_subset (List.nodup_cons.mpr ⟨hp, h.nodup⟩) hsub).length_le
  simp only [onStack, List.length_cons, List.length_map] at hle
  omega

/-- The first step of `build` for a rule that is not settled, and the rest of `build`. -/
theorem build_unsettled {r : Rule} {t : Name} (hr : d.ruleFor t = some r)
    (hst : w.rulestatus r.target = .unknown ∨ w.rulestatus r.target = .waiting) (n : Nat)
    (notify : Option RuleTarget) (p : Point) :
    begin d t notify p w = (do
      Tmake.enter r t
      let w ← get
      return Act.rule ⟨r, t, notify, initialStatus d r w.fs, .deps none [] r.depends⟩ :: p) w ∧
    build d E (n + 1) t notify w =
      buildRule d E (build d E n) (syncLoop d E (build d E n) n) r t notify w := by
  unfold begin build
  rw [hr]
  dsimp only
  rw [get_bind_apply, get_bind_apply]
  rcases hst with hst | hst <;> rw [hst] <;> exact ⟨rfl, rfl⟩

theorem build_completes (E : Env) (n : Nat) : BuildCompletes d n (build d E n) := by
  induction n with
  | zero => exact fun _ _ _ _ _ _ hn => absurd hn (Nat.not_lt_zero _)
  | succ n ih =>
    intro root m t notify p A hn w hL hV
    have hk := keeps_alive (d := d) (E := E) root m
    have hfollows := build_follows (d := d) (E := E) (n + 1) t notify p
    cases hr : d.ruleFor t with
    | none =>
      refine Completes.run hk hfollows hL hV ?_
      unfold build
      rw [hr]
      exact (buildSource_settles hL.1 t).imp (fun _ _ h hs => absurd hs h) fun _ _ h => h.elim
    | some r =>
      have hsettled : ∀ st, w.rulestatus r.target = st → st ≠ .waiting →
          wp (do emit (.returned t st); return st)
            (fun st w' => Stalled st → A ∨ Alive d m (.ret t st :: p) w') (fun e _ => e ≠ .fuel)
            w := by
        intro st hst hne hs
        obtain ⟨j, hj, -⟩ := hL.1.running_job r.target (hst.trans (hs.resolve_left hne))
        exact Or.inr (Or.inl (List.ne_nil_of_mem hj))
      have hrule : w.rulestatus r.target = .unknown ∨ w.rulestatus r.target = .waiting →
          wp (build d E (n + 1) t notify)
            (fun st w' => Live d root m (.ret t st :: p) w' ∧
              (A ∨ Stalled st → Alive d m (.ret t st :: p) w')) (fun e _ => e ≠ .fuel) w := by
        intro hst
        obtain ⟨hbegin, hbuild⟩ := build_unsettled (E := E) hr hst n notify p
        have hnot : r.target ∉ onStack p := fun hmem => by
          rcases hL.1.stacked _ hmem with h | h <;> rw [h] at hst <;> rcases hst with h | h <;> cases h
        have hroom : ∀ f : Frame, Tmake.room d (.rule f :: p) + m < n := fun f => by
          have hlt := hL.1.room (d.ruleFor_mem hr) hnot
          unfold Tmake.room at hn ⊢
          rw [frames_call] at hlt
          rw [frames_rule, List.length_cons]
          omega
        have hcont := buildRule_completes (E := E) (A := A) (p := p) root ih
          (syncLoop_completes ih (build_follows n)) r t notify hroom
        refine (wp_congr hbuild).mpr (hcont w ((wp_congr hbegin).mp ((hk _ w hL).imp ?_ ?_)))
        · exact fun _ _ h => ⟨h.1, fun hA => h.2 (hV hA)⟩
        · exact fun _ _ h => h
      cases hst : w.rulestatus r.target with
      | unknown => exact hrule (Or.inl hst)
      | waiting => exact hrule (Or.inr hst)
      | checking =>
        refine Completes.run hk hfollows hL hV ?_
        unfold build
        rw [hr, wp_bind, wp_get, hst]
        exact (buildFatalError_stops .recursive w).imp (fun _ _ h => h.elim)
          fun _ _ h => h.1 ▸ by decide
      | running | uptodate | built | failed =>
        refine Completes.run hk hfollows hL hV ?_
        unfold build
        rw [hr, wp_bind, wp_get, hst]
        exact hsettled _ hst (by decide)

end

/-! ## Recursive definitions -/

/-- The rule `r` has a static dependency that is a target of `s`. -/
def Desc.Static (d : Desc) (r s : Rule) : Prop := ∃ t ∈ r.depends, d.ruleFor t = some s

/-- What the innermost rule waits for, it needs. -/
theorem FrameOK.needs {f : Frame} {t : Name} (hf : FrameOK d w f)
    (hphase : (∃ dyn done todo, f.phase = .deps dyn done (t :: todo)) ∨
      ∃ found keep k inputs, f.phase = .scan found (.lookup t keep k) inputs) :
    f.rule.NeedsName t := by
  have hok := hf.2
  rcases hphase with ⟨dyn, done, todo, hphase⟩ | ⟨found, keep, k, inputs, hphase⟩
  · rw [hphase] at hok
    cases dyn with
    | none =>
      refine Or.inl ?_
      rw [hok.2.1]
      exact List.mem_append_right _ List.mem_cons_self
    | some dyn =>
      obtain ⟨-, -, hfound, heq, -⟩ := hok
      refine hfound.needs t ?_
      rw [heq]
      exact List.mem_append_right _ List.mem_cons_self
  · rw [hphase] at hok
    exact hok.2.2.2 t .here

/-- The rules on the stack can be reached from `root`, and lead to the name that is called. -/
theorem CalledFrom.reaches {t : Name} {n : Option RuleTarget} (h : CalledFrom root t n p)
    (hok : ∀ f ∈ frames p, FrameOK d w f) :
    (∀ r, d.ruleFor t = some r → d.Reaches root r) ∧
    ∀ f ∈ frames p, d.Reaches root f.rule ∧
      ∃ s, ReflTransGen d.Needs f.rule s ∧ s.NeedsName t := by
  -- a call for `t` by the rule of `f`, which is called by the calls of `p`
  have hcall : ∀ {t : Name} {f : Frame} {p : Point}, FrameOK d w f → f.rule.NeedsName t →
      ((∀ r, d.ruleFor f.target = some r → d.Reaches root r) ∧
        ∀ g ∈ frames p, d.Reaches root g.rule ∧
          ∃ s, ReflTransGen d.Needs g.rule s ∧ s.NeedsName f.target) →
      (∀ r, d.ruleFor t = some r → d.Reaches root r) ∧
        ∀ g ∈ f :: frames p, d.Reaches root g.rule ∧
          ∃ s, ReflTransGen d.Needs g.rule s ∧ s.NeedsName t := by
    intro t f p hf ht ih
    have hreach := ih.1 f.rule hf.1
    refine ⟨fun r hr => hreach.needs ht hr, fun g hg => ?_⟩
    rcases List.mem_cons.mp hg with rfl | hg
    · exact ⟨hreach, g.rule, ReflTransGen.refl, ht⟩
    · obtain ⟨hg', s, hs, hneed⟩ := ih.2 g hg
      exact ⟨hg', f.rule, hs.tail ⟨f.target, hneed, hf.1⟩, ht⟩
  induction h with
  | top => exact ⟨fun r hr => ⟨r, hr, ReflTransGen.refl⟩, fun _ hf => absurd hf List.not_mem_nil⟩
  | look hphase hbelow ih =>
    have hf := hok _ List.mem_cons_self
    exact hcall hf (hf.needs (Or.inr ⟨_, _, _, _, hphase⟩))
      (ih fun g hg => hok g (List.mem_cons_of_mem _ hg))
  | dep hphase hbelow ih =>
    have hf := hok _ List.mem_cons_self
    exact hcall hf (hf.needs (Or.inl ⟨_, _, _, hphase⟩))
      (ih fun g hg => hok g (List.mem_cons_of_mem _ hg))

theorem advance_avoids (f : Frame) (p : Point) (phase : Phase) :
    Avoids Stop.Deep (advance d E f p phase) := by
  have hleave : ∀ dyn st, Avoids Stop.Deep (leave f.rule f.target dyn st) := fun _ _ _ => trivial
  have hclose : ∀ dyn st, Avoids Stop.Deep (close d f dyn st p) := fun dyn st =>
    Avoids.bind (stopIf_quiet (d := d) (E := E) (S := fun _ => False) (O := fun _ => True) _
      .fatal nofun).avoids fun _ => Avoids.bind (hleave dyn st) fun _ => Avoids.pure _
  have hfork : ∀ dyn notify i todo, Avoids Stop.Deep (do
      addNewJob E f.rule notify i todo
      close d f dyn .running p) := fun dyn notify i todo =>
    Avoids.bind (Avoids.bind (fun _ => trivial) fun _ _ => trivial) fun _ => hclose dyn .running
  cases phase with
  | deps dyn done todo =>
    rcases todo with _ | ⟨dep, todo⟩
    · rcases dyn with _ | dyn <;> rw [advance] <;> exact Avoids.pure _
    · rw [advance]
      exact Avoids.pure _
  | scan found prog inputs =>
    cases prog with
    | done =>
      rcases inputs with _ | ⟨i, inputs⟩ <;> rw [advance]
      · exact Avoids.pure _
      · cases f.rule.dyndep <;> exact Avoids.pure _
    | peek k =>
      rw [advance]
      exact Avoids.bind (fun _ => trivial) fun _ => Avoids.pure _
    | lookup file keep k =>
      rw [advance]
      refine Avoids.ite (fun _ => Avoids.pure _) fun _ => Avoids.bind (lookupFile_quiet (E := E)
        (S := fun _ => False) (O := fun _ => True) _ _).avoids fun _ => ?_
      exact Avoids.bind (fun _ => trivial) fun _ => Avoids.pure _
  | check dyn =>
    rw [advance]
    refine Avoids.bind (checkRule_quiet (S := fun _ => False) (O := fun _ => True) _ _ _ _
      trivial).avoids fun st => Avoids.ite (fun _ => Avoids.pure _) fun _ => ?_
    exact Avoids.bind (hleave dyn st) fun _ => Avoids.pure _
  | launch dyn =>
    rw [advance]
    refine Avoids.bind (prepareRule_quiet (S := fun _ => False) (O := fun _ => True)
      trivial).avoids fun _ => Avoids.ite (fun _ => ?_) fun _ => ?_
    · exact Avoids.bind (dryRun_quiet (E := E) (S := fun _ => False) (O := fun _ => True) _ _).avoids
        fun st => hclose dyn st
    · refine Avoids.bind (beginRule_avoids _ _ _ _) fun _ => ?_
      unfold firstScript
      cases if f.rule.slow then forkNotify d f.rule f.notify else none with
      | some notify => exact Avoids.bind (fun _ => trivial) fun _ => Avoids.pure _
      | none => exact Avoids.pure _
  | scripts dyn i todo =>
    rcases todo with _ | ⟨script, todo⟩ <;> rw [advance]
    · exact Avoids.pure _
    · refine Avoids.bind (fun _ => trivial) fun w w' => ?_
      unfold ask
      rw [wp_bind, wp_modifyGet]
      dsimp only
      cases (if (E.exec w'.tick f.rule.target (.script i) w.fs).run then
          forkNotify d f.rule f.notify else none) with
      | some notify =>
        dsimp only
        rw [wp_bind]
        refine ((recordCmds_quiet (S := fun _ => False) (O := fun _ => True) _
          trivial).avoids _).imp (fun _ _ _ => ?_) fun _ _ h => h
        rw [wp_bind]
        trivial
      | none =>
        exact Avoids.bind (applyResult_quiet (d := d) (S := fun _ => False) (O := fun _ => True)
          trivial).avoids
          (fun _ => Avoids.ite (fun _ => Avoids.pure _) fun _ => Avoids.pure _) _
  | slots dyn notify n i todo =>
    rcases n with _ | n <;> rw [advance]
    · exact hfork dyn notify i todo
    · refine Avoids.bind (fun _ => trivial) fun w => Avoids.ite (fun _ => ?_) fun _ =>
        hfork dyn notify i todo
      exact Avoids.bind (waitForOneJob_avoids) fun _ => Avoids.pure _
  | ended dyn rc =>
    rw [advance]
    exact Avoids.bind (endForeground_quiet (S := fun _ => True) (O := fun _ => True) _ trivial
      trivial).avoids fun st => hclose dyn st

theorem resume_avoids (st : Status) (f : Frame) (p : Point) (phase : Phase) :
    Avoids Stop.Deep (resume d E st f p phase) := by
  unfold resume
  split
  · exact Avoids.bind (depFailed_quiet (S := fun _ => False) (O := fun _ => True) _).avoids
      fun _ => Avoids.pure _
  · refine Avoids.bind (lookupFile_quiet (E := E) (S := fun _ => False) (O := fun _ => True)
      _ _).avoids fun _ => ?_
    exact Avoids.bind (fun _ => trivial) fun _ => Avoids.pure _
  · exact Avoids.pure _

/-- Only a rule that needs itself is reported as recursive. -/
theorem next_recursive (p : Point) (w : World) (h : Inv d root p w) :
    wp (next d E p) (fun _ _ => True)
      (fun e _ => e.Deep → ∃ r, d.Reaches root r ∧ TransGen d.Needs r r) w := by
  have hshallow : ∀ {n : M Point}, Avoids Stop.Deep n → wp n (fun _ _ => True)
      (fun e _ => e.Deep → ∃ r, d.Reaches root r ∧ TransGen d.Needs r r) w := fun hn =>
    (hn w).imp (fun _ _ h => h) fun _ _ he hd => absurd hd he
  match p with
  | [] => trivial
  | .call t n :: p =>
    change wp (begin d t n p) _ _ w
    unfold begin
    cases hr : d.ruleFor t with
    | none => 
      rw [wp_bind]
      exact (h.source hr).imp (fun _ _ _ => trivial) fun _ _ h => h.elim
    | some r =>
      rw [wp_bind, wp_get]
      cases hst : w.rulestatus r.target with
      | checking =>
        rw [wp_bind]
        refine (buildFatalError_stops .recursive w).imp (fun _ _ h => h.elim) fun _ _ _ _ => ?_
        have hcalled : CalledFrom root t n p := by
          cases h.shape with
          | call h => exact h
        obtain ⟨f, hf, hft⟩ := List.mem_map.mp (h.checking r.target hst)
        obtain ⟨hreach, s, hs, hneeds⟩ := (hcalled.reaches h.frameOK).2 f hf
        obtain rfl := d.rule_eq_of_target (d.ruleFor_mem (h.frameOK f hf).1) (d.ruleFor_mem hr)
          (d.target_ne_nil (h.frameOK f hf).1) hft
        exact ⟨f.rule, hreach, TransGen.tail' hs ⟨t, hneeds, hr⟩⟩
      | unknown | waiting | running | uptodate | built | failed => trivial
  | [.ret t st] => trivial
  | .ret t st :: .rule f :: p => exact hshallow (resume_avoids st f p f.phase)
  | .ret t st :: .sync u :: p =>
    refine hshallow (Avoids.ite (fun _ => ?_) fun _ => Avoids.pure _)
    exact Avoids.bind waitForOneJob_avoids fun _ => Avoids.pure _
  | .ret t st :: .call u n :: p => trivial
  | .ret t st :: .ret u st' :: p => trivial
  | .sync t :: p => trivial
  | .rule f :: p => exact hshallow (advance_avoids f p f.phase)

/-- A rule with a cycle of static dependencies is never started. -/
theorem Good.acyclic (h : Good d w) {r : Rule} (hr : r ∈ d.rules) (hc : TransGen d.Static r r) :
    r.target ∉ starts w.trace := by
  intro hmem
  obtain ⟨m, hm, hms⟩ := List.mem_filterMap.mp hmem
  obtain ⟨dyn, cmd, he⟩ : ∃ dyn cmd, m.event = .start r.target dyn cmd := by
    revert hms
    cases m.event <;> simp [Event.started?]
  have hready := h.ready m hm r dyn cmd he hr
  -- whatever such a rule depends on is done when it is started
  have hdone : ∀ s, TransGen d.Static r s →
      s ∈ d.rules ∧ (m.core.rulestatus s.target).done = true := by
    intro s hs
    induction hs with
    | single hs =>
      obtain ⟨t, ht, hs⟩ := hs
      exact ⟨d.ruleFor_mem hs,
        (Desc.done_rule hs).mp (hready.done t (List.mem_append_left _ ht))⟩
    | tail _ hs ih =>
      obtain ⟨t, ht, hs⟩ := hs
      exact ⟨d.ruleFor_mem hs, (Desc.done_rule hs).mp (hready.closed _ ih.1 ih.2 t ht)⟩
  have hself := hready.self
  rw [(hdone r hc).2] at hself
  cases hself

/-! ## Runs -/

/-- A bound on the recursion of `build` that is large enough. -/
def Desc.enough (d : Desc) : Nat := 3 * d.rules.length + d.maxjobs + 1

theorem buildSync_ends (E : Env) (k : Nat) (t : Name) (h : Idle d w) :
    wp (buildSync d E (d.enough + k) t) (fun _ _ => True) (fun e _ => e ≠ .fuel) w := by
  have hslots := h.good.slots
  refine syncLoop_returns (m := 2 * d.rules.length + d.maxjobs) (p := []) E
    (build_completes E _) _ ⟨h.request t, ?_⟩ ?_ ?_
  · unfold toDo
    simp [begunCount]
    omega
  · unfold room Desc.enough
    simp
    omega
  · unfold Desc.enough
    omega

theorem buildSync_recursive (n : Nat) (t : Name) (h : Idle d w) :
    wp (buildSync d E n t) (fun _ _ => True)
      (fun e _ => e ≠ .fuel → e.Deep → ∃ r, d.Reaches t r ∧ TransGen d.Needs r r) w := by
  have hstep : ∀ p w, Inv d t p w → wp (next d E p) (Inv d t)
      (fun e _ => e.Deep → ∃ r, d.Reaches t r ∧ TransGen d.Needs r r) w := fun p w h =>
    ((next_inv p w h).and (next_recursive p w h)).imp (fun _ _ h => h.1) fun _ _ h => h.2
  refine ((buildSync_follows n t).inv hstep (h.request t)).imp (fun _ _ _ => trivial)
    fun e _ he hfuel => ?_
  exact he.elim id fun h => absurd h.1 hfuel

/-- The two ways of ending that this module is about. -/
theorem buildAll_ends (E : Env) (k : Nat) (ts : List Name) (h : Idle d w) :
    wp (buildAll d E (d.enough + k) ts) (fun _ _ => True)
      (fun e _ => e.Deep → (∃ code, e = .exit code .recursive) ∧
        ∃ t ∈ ts, ∃ r, d.Reaches t r ∧ TransGen d.Needs r r) w := by
  induction ts generalizing w with
  | nil => trivial
  | cons t ts ih =>
    unfold buildAll
    rw [wp_bind]
    refine (((buildSync_inv (E := E) (d.enough + k) t h).and (buildSync_ends E k t h)).and
      (buildSync_recursive (E := E) (d.enough + k) t h)).imp (fun st w' h' => ?_)
      fun e w' h' hdeep => ?_
    · refine (ih h'.1.1.idle).imp (fun _ _ h => h) fun e _ he hdeep => ?_
      obtain ⟨hexit, u, hu, hcycle⟩ := he hdeep
      exact ⟨hexit, u, List.mem_cons_of_mem _ hu, hcycle⟩
    · have hfuel := h'.1.2
      exact ⟨hdeep.resolve_left hfuel, t, List.mem_cons_self, h'.2 hfuel hdeep⟩

end Tmake
