import TmakeProof.Respect
import TmakeProof.Scheduler

/-! # What is added to the history

The engine adds to the history the moments of the rules that it evaluates; those
of `make` itself (`Event.ofMake`) are not among them.  Whether a `-do` list may
begin depends on the names that are asked for (`T`), and while tmake only waits
for its last jobs, none does.
-/
namespace Tmake
open Weakest

/-- A source file is there or not. -/
def Status.ofSource (st : Status) : Prop := st = .uptodate ∨ st = .failed

/-- Only such moments have been added to the history, and only source files looked at. -/
structure Adds (Q : Event → Prop) (w w' : World) : Prop where
  past : w'.past = w.past
  trace : ∃ l, w'.trace = l ++ w.trace ∧ ∀ m ∈ l, Q m.event
  sources : ∀ t st, w'.targetstatus t = some st → w.targetstatus t = some st ∨ st.ofSource

section
variable {d : Desc} {E : Env} {T : Name → Prop} {Q : Event → Prop}

theorem Adds.of_eq {w w' : World} (hp : w'.past = w.past) (hh : w'.trace = w.trace)
    (ht : w'.targetstatus = w.targetstatus) : Adds Q w w' :=
  ⟨hp, ⟨[], hh, fun _ h => absurd h List.not_mem_nil⟩, fun _ _ h => .inl (ht ▸ h)⟩

theorem Adds.history {w w' : World} (h : Adds Q w w') :
    ∃ l, w'.history = l ++ w.history ∧ ∀ m ∈ l, Q m.event := by
  obtain ⟨l, hl, hQ⟩ := h.trace
  refine ⟨l, ?_, hQ⟩
  unfold World.history
  rw [hl, h.past, List.append_assoc]

instance (Q : Event → Prop) : IsPreorder World (Adds Q) where
  refl _ := .of_eq rfl rfl rfl
  trans _ _ _ h h' := by
    obtain ⟨hp, ⟨l, hl, hQ⟩, hs⟩ := h
    obtain ⟨hp', ⟨l', hl', hQ'⟩, hs'⟩ := h'
    refine ⟨hp'.trans hp, ⟨l' ++ l, by rw [hl', hl, List.append_assoc], fun m hm => ?_⟩, fun t st ht => ?_⟩
    · exact (List.mem_append.mp hm).elim (hQ' m) (hQ m)
    · exact (hs' t st ht).elim (hs t st) .inr

theorem emit_adds {e : Event} (he : Q e) : Under (Adds Q) (emit e) :=
  Within.modify fun w => ⟨rfl, ⟨[⟨e, w.toCore⟩], rfl, fun m hm => by
    rw [List.mem_singleton.mp hm]
    exact he⟩, fun _ _ h => .inl h⟩

theorem buildSource_adds (t : Name) : Under (Adds Q) (buildSource t) := by
  refine Within.bind Within.get fun w₀ => ?_
  split
  · exact Within.pure _
  · refine Within.bind (Within.modify fun w => ⟨rfl, ⟨[], rfl, fun _ h => absurd h List.not_mem_nil⟩,
      fun t' st h => ?_⟩) fun _ => Within.pure _
    change Function.update w.targetstatus t _ t' = some st at h
    by_cases ht : t' = t
    · subst ht
      simp only [Function.update_self, Option.some.injEq] at h
      refine .inr (h ▸ ?_)
      split
      · exact .inl rfl
      · exact .inr rfl
    · rw [Function.update_of_ne ht] at h
      exact .inl h

/-- **What the engine adds to the history**: no moment of `make`, and no `-do` list begins but of
a rule with a name in `T`. -/
theorem engine_adds (hQ : ∀ e : Event, e.ofMake = false → e.started? = none → Q e)
    (hstart : ∀ t r dyn cmd, d.Within T t r → Q (.start r.target dyn cmd)) :
    Respected d E T (Adds Q) := by
  have hlogs : Logs (Adds Q) := by
    refine ⟨fun h => .of_eq h.past h.trace h.targetstatus, fun e he => emit_adds (hQ e ?_ ?_)⟩
    · revert he
      cases e <;> simp [Event.minor, Event.ofMake]
    · revert he
      cases e <;> simp [Event.minor, Event.started?]
  exact hlogs.respected (fun t _ => buildSource_adds t)
    (fun hr dyn cmd => emit_adds (hstart _ _ _ _ hr))
    (fun _ _ _ _ => Within.bind (Within.modify fun _ => .of_eq rfl rfl rfl)
      fun _ => emit_adds (hQ _ rfl rfl))
    (hlogs.waitForOneJob fun _ => Within.modify fun _ => .of_eq rfl rfl rfl)

end

/-! ## What `build-sync` returns -/

/-- Nothing but the existence of source files has been recorded. -/
def Sourced (w : World) : Prop := ∀ t st, w.targetstatus t = some st → st.ofSource

/-- A status that `build-sync` can return. -/
def Status.final (st : Status) : Prop := st = .uptodate ∨ st = .built ∨ st = .failed

theorem Status.final_of_proper {st : Status} (h : st.proper = true) (hw : st ≠ .waiting)
    (hr : st ≠ .running) : st.final := by
  cases st <;> simp_all [Status.proper, Status.final]

section
variable {d : Desc} {E : Env}

theorem Adds.sourced {Q : Event → Prop} {w w' : World} (h : Adds Q w w') (hw : Sourced w) :
    Sourced w' := fun t st ht => (h.sources t st ht).elim (hw t st) id

theorem engine_sourced : Respected d E (fun _ => True) (Adds fun _ => True) :=
  engine_adds (fun _ _ _ => trivial) fun _ _ _ _ _ => trivial

theorem startRule_proper (r : Rule) (t : Name) (notify : Option RuleTarget)
    (vardict : List (String × String)) (dyn : List Name) (w : World) :
    wp (startRule d E r t notify vardict dyn) (fun st _ => st.proper = true)
      (fun _ _ => True) w := by
  have hended (rc : Nat) (u : World) :
      wp (endForeground d E r rc) (fun st _ => st.proper = true) (fun _ _ => True) u := by
    refine (endForeground_status r rc u).imp (fun st _ h => ?_) fun _ _ h => h
    rcases h with rfl | rfl <;> rfl
  refine wp_bind_last fun _ w => ?_
  dsimp only
  split
  · refine wp_bind_last fun rc w => ?_
    cases rc with
    | none => rfl
    | some rc => exact hended rc w
  · refine wp_bind_last fun rc w => ?_
    cases rc with
    | none => rfl
    | some rc => exact hended rc w

theorem runRule_proper (r : Rule) (t : Name) (notify : Option RuleTarget)
    (vardict : List (String × String)) (dyn : List Name) (w : World) :
    wp (runRule d E r t notify vardict dyn) (fun st _ => st.proper = true) (fun _ _ => True) w := by
  have hrest : ∀ (st : Status) w, st.proper = true → wp (do
      stopIf (d.quickstop || r.fatal) .fatal
      return st : M Status) (fun st _ => st.proper = true) (fun _ _ => True) w :=
    fun st w hst => wp_bind_last fun _ _ => hst
  refine wp_bind_last fun _ w => ?_
  rw [wp_ite]
  refine ⟨fun _ => ?_, fun _ => ?_⟩ <;> rw [wp_bind]
  · refine (dryRun_status r vardict w).imp (fun st w h => hrest st w ?_) fun _ _ h => h
    rw [h]
    rfl
  · exact (startRule_proper r t notify vardict dyn w).imp (fun st w h => hrest st w h)
      fun _ _ h => h

theorem finish_proper (r : Rule) (t : Name) (notify : Option RuleTarget) (dyn : List Name)
    {st : Status} (hst : st.proper = true) (w : World) :
    wp (finish d E r t notify dyn st) (fun st _ => st.proper = true) (fun _ _ => True) w := by
  have hleave : ∀ (st : Status) w, st.proper = true →
      wp (leave r t dyn st) (fun st _ => st.proper = true) (fun _ _ => True) w :=
    fun st w h => wp_bind_last fun _ _ => wp_bind_last fun _ _ => wp_bind_last fun _ _ => h
  unfold finish
  rw [wp_bind]
  refine (checkRule_outdates r t _ dyn st w).imp (fun st' w h => ?_) fun _ _ h => h
  rw [wp_ite]
  refine ⟨fun _ => ?_, fun _ => ?_⟩
  · rw [wp_bind]
    exact (runRule_proper r t notify _ dyn w).imp (fun st w h => hleave st w h) fun _ _ h => h
  · refine hleave st' w ?_
    rcases h with rfl | ⟨-, rfl⟩
    · exact hst
    · rfl

theorem depsStatus_proper (phony : Bool) (rets : List (Name × Status)) {st : Status}
    (hst : st.proper = true) : (depsStatus d phony rets st).proper = true := by
  unfold depsStatus
  dsimp only
  split
  · rfl
  split
  · rfl
  split
  · rfl
  · exact hst

theorem buildRule_proper (bld : Name → Option RuleTarget → M Status) (sync : Name → M Status)
    (r : Rule) (t : Name) (notify : Option RuleTarget) (w : World) :
    wp (buildRule d E bld sync r t notify) (fun st _ => st.proper = true) (fun _ _ => True) w := by
  have hinit : ∀ fs, (initialStatus d r fs).proper = true := fun fs => by
    unfold initialStatus
    split <;> rfl
  refine wp_bind_last fun _ _ => wp_bind_last fun w₀ _ => wp_bind_last fun rets w => ?_
  have hst := depsStatus_proper (d := d) r.phony rets (hinit w₀.fs)
  rw [wp_ite]
  refine ⟨fun _ => ?_, fun _ => finish_proper r t notify [] hst w⟩
  exact wp_bind_last fun dyn _ => wp_bind_last fun rets' w =>
    finish_proper r t notify dyn (depsStatus_proper _ _ hst) w

theorem build_proper (n : Nat) (t : Name) (notify : Option RuleTarget) {w : World}
    (hw : Sourced w) :
    wp (build d E n t notify) (fun st _ => st.proper = true) (fun _ _ => True) w := by
  cases n with
  | zero => exact trivial
  | succ n =>
    unfold build
    cases hr : d.ruleFor t with
    | none =>
      unfold buildSource
      rw [wp_bind, wp_get]
      split
      · next st ht => rcases hw t st ht with rfl | rfl <;> rfl
      · refine wp_bind_last fun _ _ => ?_
        rw [wp_pure]
        split <;> rfl
    | some r =>
      rw [wp_bind, wp_get]
      cases w.rulestatus r.target with
      | unknown | waiting => exact buildRule_proper _ _ r t notify w
      | checking =>
        exact (buildFatalError_stops .recursive w).imp (fun _ _ h => h.elim) fun _ _ _ => trivial
      | running | uptodate | built | failed => exact wp_bind_last fun _ _ => rfl

/-- **`build-sync` returns when the target is settled**: it is up to date, built or failed. -/
theorem buildSync_final (n : Nat) (t : Name) {w : World} (hw : Sourced w) :
    wp (buildSync d E n t) (fun st _ => st.final) (fun _ _ => True) w := by
  have hsync : ∀ k w, Sourced w → wp (syncLoop d E (build d E n) k t) (fun st _ => st.final)
      (fun _ _ => True) w := by
    intro k
    induction k with
    | zero => exact fun _ _ => trivial
    | succ k ih =>
      intro w hw
      unfold syncLoop
      rw [wp_bind]
      have hs := engine_sourced.build d.closed_all n (t := t) trivial none (d := d) (E := E) w
      refine ((build_proper n t none hw).and hs).imp (fun st w₁ h => ?_) fun _ _ _ => trivial
      obtain ⟨hst, hadds⟩ := h
      have hw₁ := hadds.sourced hw
      rw [wp_ite]
      refine ⟨fun _ => ?_, fun hsettled => ?_⟩
      · rw [wp_bind]
        refine ((engine_sourced (d := d) (E := E)).wait w₁).imp (fun _ w₂ h => ?_) fun _ _ _ => trivial
        exact ih w₂ (h.sourced hw₁)
      · rw [Bool.or_eq_true, not_or] at hsettled
        exact Status.final_of_proper hst (by simpa using hsettled.1) (by simpa using hsettled.2)
  exact hsync n w hw

end

end Tmake
