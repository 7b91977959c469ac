import TmakeProof.History
import TmakeProof.Moves

/-! # Every job is waited for

`build-sync` goes round until its target is settled, and a rule is not settled
before its dependencies are; so a running job is reaped because its rule hangs,
through rules that are not settled, on a call of the stack.  `Anchored` is this
chain.

It can break in one place: when a job fails, the rule that it notifies is marked
as failed at once, although jobs for other dependencies of that rule may still be
running.  If no job fails while another one is running (`Moment.Lone`), every
step keeps all jobs anchored (`next_anchors`), and no job is left when
`build-sync` returns (`buildSync_anchors`).
-/
namespace Tmake
open Weakest Machine

/-- If a background job has failed, no other job is running. -/
def Moment.Lone (m : Moment) : Prop := ∀ r n, m.event = .notified r n → m.core.running = []

/-- This is so at every moment of the list. -/
def AllLone (l : List Moment) : Prop := ∀ m ∈ l, m.Lone

/-! ## The chain -/

/-- A status that a later evaluation of the rule changes. -/
def Status.undecided : Status → Bool
  | .unknown | .checking | .waiting => true
  | _ => false

/-- The rule is being evaluated, or will be evaluated again if it is asked for. -/
def Unsettled (p : Point) (w : World) (r : RuleTarget) : Prop :=
  r ∈ onStack p ∨ (w.rulestatus r).undecided = true

/-- The same, or a job is running for it. -/
def Unfinished (p : Point) (w : World) (r : RuleTarget) : Prop :=
  Unsettled p w r ∨ w.rulestatus r = .running

/-- What a rule builds before it is settled: the static dependencies, and those that its
`-dyndep` script names once the static ones are there. -/
def Awaited (d : Desc) (w : World) (q : Rule) (t : Name) : Prop :=
  t ∈ q.depends ∨ t ∈ q.namedOn q.inputs ∧ ∀ s ∈ q.depends, d.Done w.toCore s

/-- A call of the stack waits for the rule, directly or through rules that are not settled. -/
inductive Anchored (d : Desc) (p : Point) (w : World) : RuleTarget → Prop where
  | stack {r : RuleTarget} (h : r ∈ onStack p) : Anchored d p w r
  | sync {t : Name} {s : Rule} (h : .sync t ∈ p) (hs : d.ruleFor t = some s) :
      Anchored d p w s.target
  | parent {q s : Rule} {t : Name} (hq : q ∈ d.rules) (hopen : Unsettled p w q.target)
      (ha : Anchored d p w q.target) (ht : Awaited d w q t) (hs : d.ruleFor t = some s) :
      Anchored d p w s.target

/-- The final status `st`, returned for `t` to a call that has the rules `below` on its stack,
is still right; for a rule that is on the stack itself it is a failure of one of its jobs. -/
def Settled (d : Desc) (w : World) (stack below : List RuleTarget) (t : Name) (st : Status) :
    Prop :=
  match d.ruleFor t with
  | some r => r.target ∉ stack ∧ w.rulestatus r.target = st ∨ r.target ∈ below ∧ st = .failed
  | none => w.targetstatus t = some st

/-- A dependency of the rule has failed, and it waits for no other one. -/
def GivenUp (d : Desc) (w : World) (stack below : List RuleTarget) (r : Rule) : Prop :=
  ∃ rets : List (Name × Status),
    (∀ x ∈ rets, x.2.final ∧ Settled d w stack below x.1 x.2) ∧
    (rets.map (·.1) = r.depends ∧ (∃ x ∈ rets, x.2 = .failed) ∨
      (∀ t ∈ r.depends, d.Done w.toCore t) ∧ ∀ t ∈ r.namedOn r.inputs, t ∈ rets.map (·.1))

/-- What a call of `build` knows of the dependencies that are settled. -/
def PhaseSettled (d : Desc) (w : World) (stack below : List RuleTarget) (r : Rule) (st : Status) :
    Phase → Prop
  | .deps _ done _ => ∀ x ∈ done, x.2.final → Settled d w stack below x.1 x.2
  | .check _ => st = .failed → GivenUp d w stack below r
  | _ => True

/-- All calls of a stack do. -/
def AllSettled (d : Desc) (w : World) (stack : List RuleTarget) : List Frame → Prop
  | [] => True
  | f :: fs =>
    PhaseSettled d w stack (f.rule.target :: fs.map (·.rule.target)) f.rule f.status f.phase ∧
      AllSettled d w stack fs

/-- Every running job is waited for. -/
structure Anchors (d : Desc) (p : Point) (w : World) : Prop where
  jobs : ∀ r, w.rulestatus r = .running → Anchored d p w r
  settled : AllSettled d w (onStack p) (frames p)
  ret : ∀ t st k, p = .ret t st :: k → st.final → Settled d w (onStack k) (onStack k) t st

/-! ## What the steps keep -/

variable {d : Desc} {E : Env} {root : Name} {p p' k : Point} {w w' : World}

/-- What is settled stays so. -/
structure Kept (stack stack' : List RuleTarget) (w w' : World) : Prop where
  rules : ∀ r, r ∉ stack → (w.rulestatus r).final → r ∉ stack' ∧ w'.rulestatus r = w.rulestatus r
  sources : ∀ t st, w.targetstatus t = some st → w'.targetstatus t = some st

theorem Status.final_of_done {st : Status} (h : st.done = true) : st.final := by
  cases st <;> simp_all [Status.done, Status.final]

theorem Settled.kept {stack stack' below : List RuleTarget} {t : Name} {st : Status}
    (hk : Kept stack stack' w w') (hst : st.final) (h : Settled d w stack below t st) :
    Settled d w' stack' below t st := by
  unfold Settled at *
  split
  · next r hr =>
    rw [hr] at h
    refine h.imp_left fun ⟨hnot, hs⟩ => ?_
    have := hk.rules r.target hnot (hs ▸ hst)
    exact ⟨this.1, this.2.trans hs⟩
  · next hr =>
    rw [hr] at h
    exact hk.sources t st h

theorem AllSettled.kept {stack stack' : List RuleTarget} {fs : List Frame}
    (hk : Kept stack stack' w w') (hd : ∀ t, d.Done w.toCore t → d.Done w'.toCore t)
    (h : AllSettled d w stack fs) : AllSettled d w' stack' fs := by
  induction fs with
  | nil => exact trivial
  | cons f fs ih =>
    refine ⟨?_, ih h.2⟩
    have hf := h.1
    cases hphase : f.phase with
    | deps dyn done todo =>
      rw [hphase] at hf
      intro x hx hst
      exact (hf x hx hst).kept hk hst
    | check dyn =>
      rw [hphase] at hf
      intro hst
      obtain ⟨rets, hrets, hdeps⟩ := hf hst
      refine ⟨rets, fun x hx => ⟨(hrets x hx).1, (hrets x hx).2.kept hk (hrets x hx).1⟩, ?_⟩
      exact hdeps.imp_right fun h => ⟨fun t ht => hd t (h.1 t ht), h.2⟩
    | scan | launch | scripts | slots | ended => exact trivial

/-- A rule whose settled status is right is not unfinished, unless it is on the stack. -/
theorem Settled.finished {stack below : List RuleTarget} {t : Name} {st : Status} {s : Rule}
    (h : Settled d w stack below t st) (hst : st.final) (hs : d.ruleFor t = some s) :
    s.target ∉ stack ∧ (w.rulestatus s.target).final ∨ s.target ∈ below := by
  unfold Settled at h
  rw [hs] at h
  rcases h with ⟨hnot, he⟩ | ⟨hmem, -⟩
  · exact Or.inl ⟨hnot, he ▸ hst⟩
  · exact Or.inr hmem

theorem not_unfinished {r : RuleTarget} (hnot : r ∉ onStack p) (hst : (w.rulestatus r).final) :
    ¬Unfinished p w r := by
  rintro ((h | h) | h)
  · exact hnot h
  · rcases hst with hst | hst | hst <;> rw [hst] at h <;> cases h
  · rcases hst with hst | hst | hst <;> rw [hst] at h <;> cases h

/-- **The chain is carried over a step** if what it hangs on is, and if a rule that is settled
by the step leaves no dependency behind. -/
theorem Anchored.carry {r : RuleTarget} (h : Anchored d p w r)
    (hd : ∀ t, d.Done w.toCore t → d.Done w'.toCore t)
    (hstack : ∀ r ∈ onStack p, Unfinished p' w' r → Anchored d p' w' r)
    (hsync : ∀ t s, .sync t ∈ p → d.ruleFor t = some s → Unfinished p' w' s.target →
      Anchored d p' w' s.target)
    (hopen : ∀ q ∈ d.rules, Unsettled p w q.target → Unsettled p' w' q.target ∨
      ∀ t s, Awaited d w q t → d.ruleFor t = some s → Unfinished p' w' s.target →
        Anchored d p' w' s.target)
    (hr : Unfinished p' w' r) : Anchored d p' w' r := by
  induction h with
  | stack h => exact hstack _ h hr
  | sync h hs => exact hsync _ _ h hs hr
  | @parent q s t hq ho ha ht hs ih =>
    rcases hopen q hq ho with ho' | hchild
    · refine .parent hq ho' (ih (Or.inl ho')) ?_ hs
      exact ht.imp_right fun h => ⟨h.1, fun u hu => hd u (h.2 u hu)⟩
    · exact hchild t s ht hs hr

/-- A call returns to one that waits for its rule. -/
theorem Inv.caller_anchors {f : Frame} {t : Name} {st : Status}
    (h : Inv d root (.rule f :: k) w) (hd : ∀ t, d.Done w.toCore t → d.Done w'.toCore t) :
    Anchored d (.ret t st :: k) w' f.rule.target := by
  have hf := (h.frameOK f List.mem_cons_self).1
  have hcalled := h.calledFrom
  generalize f.target = u, f.notify = n at hf hcalled
  cases hcalled with
  | top => exact .sync (by simp) hf
  | look hphase hbelow => exact .sync (by simp) hf
  | @dep _ g p' dyn done todo hphase hbelow =>
    obtain ⟨hg, hok⟩ := h.frameOK g (List.mem_cons_of_mem _ List.mem_cons_self)
    have hstack : g.rule.target ∈ onStack (.ret t st :: .rule g :: p') := List.mem_cons_self
    refine .parent (d.ruleFor_mem hg) (Or.inl hstack) (.stack hstack) ?_ hf
    rw [hphase] at hok
    cases dyn with
    | none =>
      left
      rw [hok.2.1]
      exact List.mem_append_right _ List.mem_cons_self
    | some dyn =>
      obtain ⟨-, hdep, hfound, heq, -⟩ := hok
      have hmem : u ∈ dyn := by
        rw [heq]
        exact List.mem_append_right _ List.mem_cons_self
      rcases hfound.done _ hmem with hnamed | hdone
      · exact Or.inr ⟨hnamed, fun s hs => hd s (hdep s hs)⟩
      · have hdone := (Desc.done_rule hf).mp (hdone (d.isTarget_iff.mpr ⟨_, hf⟩))
        rw [h.not_done (r := f.rule.target) List.mem_cons_self] at hdone
        cases hdone

/-- A dependency that is done is finished. -/
theorem Inv.done_finished {t : Name} {s : Rule} (h : Inv d root p w) (ht : d.Done w.toCore t)
    (hs : d.ruleFor t = some s) : s.target ∉ onStack p ∧ (w.rulestatus s.target).final := by
  have hdone := (Desc.done_rule hs).mp ht
  refine ⟨fun hmem => ?_, Status.final_of_done hdone⟩
  rw [h.not_done hmem] at hdone
  cases hdone

theorem Inv.done_kept {stack' : List RuleTarget} (h : Inv d root p w)
    (hk : Kept (onStack p) stack' w w') (t : Name) (ht : d.Done w.toCore t) :
    d.Done w'.toCore t := by
  refine ht.mono (fun s hds => ?_) fun t ht => hk.sources t _ ht
  have hnot : s ∉ onStack p := fun hmem => by
    rw [h.not_done hmem] at hds
    cases hds
  rw [(hk.rules s hnot (Status.final_of_done hds)).2]
  exact hds

/-- A rule that has given up waits for no dependency that is not finished. -/
theorem Inv.givenUp_finished {q s : Rule} {t : Name} (h : Inv d root p w)
    (hq : GivenUp d w (onStack p) (onStack p) q) (ht : Awaited d w q t)
    (hs : d.ruleFor t = some s) :
    s.target ∉ onStack p ∧ (w.rulestatus s.target).final ∨ s.target ∈ onStack p := by
  obtain ⟨rets, hrets, hdeps⟩ := hq
  have hret : t ∈ rets.map (·.1) → s.target ∉ onStack p ∧ (w.rulestatus s.target).final ∨
      s.target ∈ onStack p := by
    intro hmem
    obtain ⟨x, hx, rfl⟩ := List.mem_map.mp hmem
    exact (hrets x hx).2.finished (hrets x hx).1 hs
  rcases hdeps with ⟨heq, x, hx, hfail⟩ | ⟨hdone, hnamed⟩
  · rcases ht with ht | ⟨-, hall⟩
    · exact hret (heq ▸ ht)
    · -- the dependency that failed is not done
      exfalso
      have hdone := hall x.1 (heq ▸ List.mem_map_of_mem hx)
      have hset := (hrets x hx).2
      unfold Settled at hset
      cases hr : d.ruleFor x.1 with
      | some r =>
        rw [Desc.done_rule hr] at hdone
        rw [hr] at hset
        rcases hset with ⟨-, hst⟩ | ⟨hmem, -⟩
        · rw [hst, hfail] at hdone
          cases hdone
        · rw [h.not_done hmem] at hdone
          cases hdone
      | none =>
        rw [Desc.done_source hr] at hdone
        rw [hr] at hset
        have he : some x.2 = some Status.uptodate := hset.symm.trans hdone
        rw [hfail] at he
        cases he
  · rcases ht with ht | ⟨ht, -⟩
    · exact Or.inl (h.done_finished (hdone t ht) hs)
    · exact hret (hnamed t ht)

/-! ## The steps -/

/-- A step that sets no status. -/
theorem Anchors.still (h : Anchors d p w) (hinv : Inv d root p w)
    (hs : w'.rulestatus = w.rulestatus)
    (ht : ∀ t st, w.targetstatus t = some st → w'.targetstatus t = some st)
    (hstack : onStack p' = onStack p)
    (hsync : ∀ t s, .sync t ∈ p → d.ruleFor t = some s → Unfinished p w s.target →
      .sync t ∈ p' ∨ s.target ∈ onStack p)
    (hsettled : AllSettled d w (onStack p) (frames p'))
    (hret : ∀ t st k, p' = .ret t st :: k → st.final → Settled d w' (onStack k) (onStack k) t st) :
    Anchors d p' w' := by
  have hk : Kept (onStack p) (onStack p') w w' := ⟨fun r hr _ => ⟨hstack ▸ hr, by rw [hs]⟩, ht⟩
  have hd := hinv.done_kept hk
  have hun : ∀ r, Unsettled p' w' r ↔ Unsettled p w r := by
    intro r
    unfold Unsettled
    rw [hstack, hs]
  refine ⟨fun r hr => ?_, hsettled.kept hk hd, hret⟩
  refine (h.jobs r (hs ▸ hr)).carry hd (fun r hr _ => .stack (hstack ▸ hr))
    (fun t s hst hts hu => ?_) (fun q _ ho => Or.inl ((hun _).mpr ho)) (Or.inr hr)
  have hu' : Unfinished p w s.target := by
    unfold Unfinished at hu ⊢
    rwa [hun, hs] at hu
  rcases hsync t s hst hts hu' with hst' | hmem
  · exact .sync hst' hts
  · exact .stack (hstack ▸ hmem)

/-- The innermost call goes on in another phase. -/
theorem Anchors.goto {f g : Frame} (h : Anchors d p w) (hinv : Inv d root p w)
    (hp : frames p = f :: frames k) (hg : g.rule = f.rule) (hs : w'.rulestatus = w.rulestatus)
    (ht : w'.targetstatus = w.targetstatus) (hsync : ∀ t, .sync t ∈ p → .sync t ∈ k)
    (hphase : PhaseSettled d w (onStack (.rule g :: k)) (onStack (.rule g :: k)) g.rule g.status
      g.phase) : Anchors d (.rule g :: k) w' := by
  have hstack : onStack (.rule g :: k) = onStack p := by
    unfold onStack
    rw [hp, frames_rule, List.map_cons, List.map_cons, hg]
  refine h.still hinv hs (fun t st h => by rwa [ht]) hstack
    (fun t s hmem _ _ => Or.inl (List.mem_cons_of_mem _ (hsync t hmem))) ?_
    fun _ _ _ he => absurd he (by simp)
  have hsettled := h.settled
  rw [hp] at hsettled
  exact ⟨hstack ▸ hphase, hsettled.2⟩

/-- The call of a rule that is not settled is pushed on the stack. -/
theorem Anchors.enter {t : Name} {n : Option RuleTarget} {r : Rule} {st : Status} {ts : List Name}
    (h : Anchors d (.call t n :: k) w)
    (hst : w.rulestatus r.target = .unknown ∨ w.rulestatus r.target = .waiting)
    (hs : w'.rulestatus = Function.update w.rulestatus r.target .checking)
    (ht : w'.targetstatus = w.targetstatus) :
    Anchors d (.rule ⟨r, t, n, st, .deps none [] ts⟩ :: k) w' := by
  have hother : ∀ s, s ≠ r.target → w'.rulestatus s = w.rulestatus s := fun s hsr => by
    rw [hs, Function.update_of_ne hsr]
  have hnotfinal : ¬(w.rulestatus r.target).final := by
    rintro (h | h | h) <;> rcases hst with h' | h' <;> rw [h'] at h <;> cases h
  have hd : ∀ t, d.Done w.toCore t → d.Done w'.toCore t := fun t =>
    Desc.Done.mono (fun s hds => by
      rw [hother s fun he => hnotfinal (he ▸ Status.final_of_done hds)]
      exact hds) fun t h => by rwa [ht]
  have hk : Kept (onStack k) (r.target :: onStack k) w w' := by
    refine ⟨fun s hsk hfin => ?_, fun t st h => by rwa [ht]⟩
    have hsr : s ≠ r.target := fun he => hnotfinal (he ▸ hfin)
    exact ⟨fun hmem => (List.mem_cons.mp hmem).elim hsr hsk, hother s hsr⟩
  refine ⟨fun s hrun => ?_, ⟨fun _ hx => absurd hx List.not_mem_nil, h.settled.kept hk hd⟩,
    fun _ _ _ he => absurd he (by simp)⟩
  by_cases hsr : s = r.target
  · exact .stack (hsr ▸ List.mem_cons_self)
  · refine (h.jobs s ((hother s hsr) ▸ hrun)).carry hd
      (fun s hmem _ => .stack (List.mem_cons_of_mem _ hmem))
      (fun t s hmem hts _ => .sync (by simpa using hmem) hts) (fun q _ ho => Or.inl ?_) (Or.inr hrun)
    by_cases hqr : q.target = r.target
    · exact Or.inl (hqr ▸ List.mem_cons_self)
    · refine ho.imp (fun hmem => List.mem_cons_of_mem _ hmem) fun hund => ?_
      rwa [hother _ hqr]

/-- The innermost call returns. -/
theorem Anchors.leave {f : Frame} {st : Status} {current : List Name} {js : List Job}
    (h : Anchors d (.rule f :: k) w) (hinv : Inv d root (.rule f :: k) w)
    (hs : Sets w w' f.rule.target st current js)
    (hst : st = .waiting ∨
      GivenUp d w (onStack (.rule f :: k)) (onStack (.rule f :: k)) f.rule ∨
      ∃ dyn, AllDone d w f.rule dyn) :
    Anchors d (.ret f.target st :: k) w' := by
  have hmemf : f.rule.target ∈ onStack (.rule f :: k) := List.mem_cons_self
  have hf := (hinv.frameOK f List.mem_cons_self).1
  have hnotk : f.rule.target ∉ onStack k := (List.nodup_cons.mp hinv.nodup).1
  have hd := hs.done (d := d) (hinv.not_done hmemf)
  have hcaller : ∀ r, r = f.rule.target → Anchored d (.ret f.target st :: k) w' r := by
    rintro r rfl
    exact hinv.caller_anchors hd
  have hk : Kept (onStack (.rule f :: k)) (onStack k) w w' := by
    refine ⟨fun r hr _ => ?_, fun t st h => by rwa [hs.targetstatus]⟩
    have hrf : r ≠ f.rule.target := fun he => hr (he ▸ hmemf)
    exact ⟨fun hmem => hr (List.mem_cons_of_mem _ hmem), hs.other hrf⟩
  have hfinished : ∀ s : Rule, s.target ∉ onStack (.rule f :: k) ∧ (w.rulestatus s.target).final ∨
      s.target ∈ onStack (.rule f :: k) → Unfinished (.ret f.target st :: k) w' s.target →
      Anchored d (.ret f.target st :: k) w' s.target := by
    rintro s (⟨hnot, hfin⟩ | hmem) hun
    · exfalso
      have hkept := hk.rules _ hnot hfin
      exact not_unfinished hkept.1 (hkept.2 ▸ hfin) hun
    · rcases List.mem_cons.mp hmem with he | hmem
      · exact hcaller _ he
      · exact .stack hmem
  refine ⟨fun r hrun => ?_, h.settled.2.kept hk hd, fun t st' k' he hfin => ?_⟩
  · by_cases hrf : r = f.rule.target
    · exact hcaller r hrf
    refine (h.jobs r (hs.other hrf ▸ hrun)).carry hd (fun r hmem _ => ?_)
      (fun t s hmem hts _ => .sync (by simpa using hmem) hts) (fun q hq ho => ?_) (Or.inr hrun)
    · rcases List.mem_cons.mp hmem with he | hmem
      · exact hcaller r he
      · exact .stack hmem
    · by_cases hqf : q.target = f.rule.target
      · obtain rfl := d.rule_eq_of_target (d.ruleFor_mem hf) hq (d.target_ne_nil hf) hqf.symm
        rcases hst with rfl | hgiven | ⟨dyn, hall⟩
        · left
          right
          rw [hs.same]
          rfl
        · exact Or.inr fun t s ht hts hun => hfinished s (hinv.givenUp_finished hgiven ht hts) hun
        · refine Or.inr fun t s ht hts hun => hfinished s (Or.inl (hinv.done_finished ?_ hts)) hun
          rcases ht with ht | ⟨ht, -⟩
          · exact hall.done t (List.mem_append_left _ ht)
          · exact hall.done t (List.mem_append_right _ (hall.named t ht))
      · refine Or.inl (ho.imp (fun hmem => ?_) fun hund => by rwa [hs.other hqf])
        exact (List.mem_cons.mp hmem).resolve_left hqf
  · obtain ⟨⟨rfl, rfl⟩, rfl⟩ : (f.target = t ∧ st = st') ∧ k = k' := by simpa using he
    unfold Settled
    rw [hf]
    exact Or.inl ⟨hnotk, hs.same⟩

/-- What is settled stays so when a job is reaped. -/
theorem Inv.wait_kept (h : Inv d root p w) (hw : Waited w w') : Kept (onStack p) (onStack p) w w' := by
  obtain ⟨i, job, hi, -, -, hother⟩ := h.reaped hw
  have hruns := h.job_running job (List.mem_of_getElem? hi)
  refine ⟨fun r hr hfin => ⟨hr, ?_⟩, fun t st ht => by rwa [hw.targetstatus]⟩
  have hrj : r ≠ job.ruletarget := by
    rintro rfl
    rw [hruns] at hfin
    rcases hfin with hfin | hfin | hfin <;> cases hfin
  rcases hother r hrj with he | ⟨hwait, -⟩ | ⟨haw, hst, -⟩
  · exact he
  · rw [hwait] at hfin
    rcases hfin with hfin | hfin | hfin <;> cases hfin
  · -- a rule that is notified and settled has failed
    rcases hfin with hfin | hfin | hfin <;> rw [hfin] at haw
    · cases haw
    · cases haw
    · rw [hst, hfin]

/-- A job has been reaped, and if it failed, it was the last one. -/
theorem Anchors.wait (h : Anchors d p w) (hinv : Inv d root p w) (hinv' : Inv d root p' w')
    (hw : Waited w w') (hlone : AllLone w'.trace) (hstack : onStack p' = onStack p)
    (hsync : ∀ t, .sync t ∈ p → .sync t ∈ p') {r : RuleTarget} (hr : w'.rulestatus r = .running) :
    Anchored d p' w' r := by
  obtain ⟨i, job, hi, -, hrule, hother⟩ := hinv.reaped hw
  have hruns := hinv.job_running job (List.mem_of_getElem? hi)
  -- after a failure there is no job
  have hleft : ∀ s, s ≠ job.ruletarget → w'.rulestatus s = w.rulestatus s ∨
      w.rulestatus s = .waiting ∧ w'.rulestatus s = .unknown := by
    intro s hs
    rcases hother s hs with he | he | ⟨-, -, m, hm, ⟨r', n, he⟩, hnote⟩
    · exact .inl he
    · exact .inr he
    · exfalso
      obtain ⟨j, hj, -⟩ := hinv'.running_job r hr
      rw [← hnote, hlone m hm r' n he] at hj
      exact absurd hj List.not_mem_nil
  have hrj : r ≠ job.ruletarget := by
    rintro rfl
    rcases hrule with he | he <;> rw [he] at hr <;> cases hr
  have hrunning : w.rulestatus r = .running := by
    rcases hleft r hrj with he | ⟨-, he⟩
    · rwa [← he]
    · rw [he] at hr
      cases hr
  have hkept := hinv.wait_kept hw
  refine (h.jobs r hrunning).carry (hinv.done_kept hkept) (fun s hmem _ => .stack (hstack ▸ hmem))
    (fun t s hmem hts _ => .sync (hsync t hmem) hts) (fun q hq ho => Or.inl ?_) (Or.inr hr)
  unfold Unsettled at ho ⊢
  rw [hstack]
  refine ho.imp_right fun hund => ?_
  have hqj : q.target ≠ job.ruletarget := by
    intro he
    rw [he, hruns] at hund
    cases hund
  rcases hleft _ hqj with he | ⟨-, he⟩
  · rwa [he]
  · rw [he]
    rfl

/-- A step that waits for a job. -/
theorem Anchors.waits {b : Bool} (h : Anchors d p w) (hinv : Inv d root p w)
    (hinv' : Inv d root p' w') (hlone : AllLone w'.trace) (hw : waitForOneJob d E w = .ok b w')
    (hstack : onStack p' = onStack p) (hsync : ∀ t, .sync t ∈ p → .sync t ∈ p')
    (hsettled : AllSettled d w (onStack p) (frames p')) (hret : ∀ t st k, p' ≠ .ret t st :: k) :
    Anchors d p' w' := by
  rcases wp_of_ok hw (waitForOneJob_spec w) with ⟨-, rfl⟩ | hw
  · exact h.still hinv rfl (fun _ _ h => h) hstack (fun t _ hmem _ _ => Or.inl (hsync t hmem))
      hsettled fun t st k he => absurd he (hret t st k)
  · have hk := hinv.wait_kept hw
    exact ⟨fun r hr => h.wait hinv hinv' hw hlone hstack hsync hr,
      hstack ▸ hsettled.kept hk (hinv.done_kept hk), fun t st k he => absurd he (hret t st k)⟩

theorem buildSource_ok {t : Name} {st : Status} (h : buildSource t w = .ok st w') :
    w'.rulestatus = w.rulestatus ∧ w'.trace = w.trace ∧ w'.targetstatus t = some st ∧
      ∀ u st', w.targetstatus u = some st' → w'.targetstatus u = some st' := by
  have hwp : wp (buildSource t) (fun st w' => w'.rulestatus = w.rulestatus ∧
      w'.trace = w.trace ∧ w'.targetstatus t = some st ∧
      ∀ u st', w.targetstatus u = some st' → w'.targetstatus u = some st') (fun _ _ => True) w := by
    unfold buildSource
    rw [wp_bind, wp_get]
    split
    · next ret hret => exact ⟨rfl, rfl, hret, fun _ _ h => h⟩
    · next hnone =>
      rw [wp_bind, wp_modify]
      refine ⟨rfl, rfl, Function.update_self .., fun u st' hu => ?_⟩
      have hne : u ≠ t := fun he => by
        rw [he, hnone] at hu
        cases hu
      exact (Function.update_of_ne hne ..).trans hu
  have h' := wp_of_ok h hwp
  exact h'

/-- `build-deps` fails only if all calls have come to an end, and one has failed. -/
theorem depsStatus_failed {phony : Bool} {rets : List (Name × Status)} {st : Status}
    (hst : st.done = true) (hrets : ∀ x ∈ rets, x.2.proper = true)
    (h : depsStatus d phony rets st = .failed) :
    (∀ x ∈ rets, x.2.final) ∧ ∃ x ∈ rets, x.2 = .failed := by
  unfold depsStatus at h
  dsimp only at h
  split at h
  · cases h
  next hwait =>
  have hfinal : ∀ x ∈ rets, x.2.final := by
    intro x hx
    have hmem : x.2 ∈ rets.map (·.2) := List.mem_map_of_mem hx
    exact Status.final_of_proper (hrets x hx) (fun he => hwait (Or.inr (he ▸ hmem)))
      fun he => hwait (Or.inl (he ▸ hmem))
  split at h
  · next hfail =>
    obtain ⟨x, hx, he⟩ := List.mem_map.mp hfail
    exact ⟨hfinal, x, hx, he⟩
  split at h
  · cases h
  · rw [h] at hst
    cases hst

/-- A step that only looks. -/
theorem Glance.anchors (h : Anchors d p w) (hinv : Inv d root p w) (hm : Glance d E p w p' w') :
    Anchors d p' w' := by
  cases hm with
  | idle => exact h
  | @source t n k _ st _ hr hs =>
    obtain ⟨hrs, -, hret, hts⟩ := buildSource_ok hs
    refine h.still hinv hrs hts rfl (fun t s hmem _ _ => Or.inl (by simpa using hmem)) h.settled
      fun u st' k' he _ => ?_
    obtain ⟨⟨rfl, rfl⟩, rfl⟩ : (t = u ∧ st = st') ∧ k = k' := by simpa using he
    unfold Settled
    rw [hr]
    exact hret
  | @settled t n k _ r hr hst =>
    refine h.still hinv rfl (fun _ _ h => h) rfl (fun t s hmem _ _ => Or.inl (by simpa using hmem))
      h.settled fun u st' k' he hfin => ?_
    obtain ⟨⟨rfl, rfl⟩, rfl⟩ : (t = u ∧ w.rulestatus r.target = st') ∧ k = k' := by simpa using he
    unfold Settled
    rw [hr]
    by_cases hmem : r.target ∈ onStack k
    · right
      refine ⟨hmem, ?_⟩
      rcases hinv.stacked _ hmem with hs | hs
      · rw [hs] at hst
        simp at hst
      · exact hs
    · exact Or.inl ⟨hmem, rfl⟩
  | @enter t n k _ r hr hst => exact h.enter hst rfl rfl
  | @dep f k _ dyn done t todo hphase =>
    exact h.still hinv rfl (fun _ _ h => h) rfl (fun t s hmem _ _ => Or.inl (by simpa using hmem))
      h.settled fun _ _ _ he => absurd he (by simp)
  | @static f k _ done st hphase hst =>
    obtain ⟨hdone, hdep, hrets⟩ := hinv.phaseOK hphase
    rw [List.append_nil] at hdep
    have hsettled := h.settled.1
    rw [hphase] at hsettled
    refine h.goto hinv rfl rfl rfl rfl (by simp) ?_
    change PhaseSettled d w _ _ f.rule st (afterStatic f st)
    unfold afterStatic
    split
    · split
      · exact fun _ hx => absurd hx List.not_mem_nil
      · trivial
    · rintro rfl
      obtain ⟨hfinal, x, hx, hfail⟩ :=
        depsStatus_failed hdone (fun x hx => (hrets x hx).1) hst
      exact ⟨done, fun x hx => ⟨hfinal x hx, hsettled x hx (hfinal x hx)⟩,
        Or.inl ⟨hdep.symm, x, hx, hfail⟩⟩
  | @dynamic f k _ dyn done st hphase hst =>
    obtain ⟨hdone, hdep, hfound, heq, hrets⟩ := hinv.phaseOK hphase
    rw [List.append_nil] at heq
    have hsettled := h.settled.1
    rw [hphase] at hsettled
    refine h.goto hinv rfl rfl rfl rfl (by simp) ?_
    change PhaseSettled d w _ _ f.rule st (.check dyn)
    rintro rfl
    obtain ⟨hfinal, -⟩ := depsStatus_failed hdone (fun x hx => (hrets x hx).1) hst
    refine ⟨done, fun x hx => ⟨hfinal x hx, hsettled x hx (hfinal x hx)⟩,
      Or.inr ⟨hdep, fun t ht => ?_⟩⟩
    refine heq ▸ (hfound.named t ht).resolve_right fun hnil => ?_
    unfold Rule.namedOn at hnil
    split at hnil <;> exact absurd hnil List.not_mem_nil
  | scanned hphase =>
    exact h.goto hinv rfl rfl rfl rfl (by simp) fun _ hx => absurd hx List.not_mem_nil
  | noscan hphase hd => exact h.goto hinv rfl rfl rfl rfl (by simp) trivial
  | input hphase hd => exact h.goto hinv rfl rfl rfl rfl (by simp) trivial
  | peek hphase => exact h.goto hinv rfl rfl rfl rfl (by simp) trivial
  | @look f k _ found file keep _ inputs hphase ht =>
    exact h.still hinv rfl (fun _ _ h => h) rfl
      (fun t s hmem _ _ => Or.inl (List.mem_cons_of_mem _ (List.mem_cons_of_mem _ hmem)))
      h.settled fun _ _ _ he => absurd he (by simp)
  | answer hphase ht => exact h.goto hinv rfl rfl rfl rfl (by simp) trivial
  | @depRet t st f k _ _ dyn done dep todo hphase hd =>
    obtain rfl : dep = t := by
      cases hinv.shape with
      | ret hcalled =>
        cases hcalled with
        | dep hphase' hbelow =>
          rw [hphase] at hphase'
          simp only [Phase.deps.injEq, List.cons.injEq] at hphase'
          exact hphase'.2.2.1
      | found hphase' hbelow =>
        rw [hphase] at hphase'
        cases hphase'
    have hq := (depFailed_quiet (d := d) (E := E) (S := fun _ => False) (O := fun _ => False)
      st).ok hd
    have hsettled := h.settled.1
    rw [hphase] at hsettled
    refine h.goto hinv rfl rfl (funext fun r => hq.rulestatus r id) hq.targetstatus (by simp)
      fun x hx hfin => ?_
    rcases List.mem_append.mp hx with hx | hx
    · exact hsettled x hx hfin
    · obtain rfl := List.mem_singleton.mp hx
      exact h.ret dep st (.rule f :: k) rfl hfin
  | @lookRet t st f k _ _ found file keep _ inputs answer hphase hl =>
    have hq := (lookupFile_quiet (d := d) (E := E) (S := fun _ => False) (O := fun _ => False) st
      file).ok hl
    exact h.goto hinv rfl rfl (funext fun r => hq.rulestatus r id) hq.targetstatus (by simp) trivial
  | @synced t u st k _ hst =>
    obtain rfl : t = u := by
      cases hinv.shape with
      | ret hcalled =>
        cases hcalled with
        | top => rfl
        | look hphase hbelow => rfl
    have hfin := Status.final_of_proper (hinv.returned t st _ rfl).1 hst.1 hst.2
    have hsettled := h.ret t st _ rfl hfin
    refine h.still hinv rfl (fun _ _ h => h) rfl (fun v s hmem hs hun => ?_) h.settled
      fun v st' k' he _ => ?_
    · rcases List.mem_cons.mp hmem with he | hmem
      · cases he
      rcases List.mem_cons.mp hmem with he | hmem
      · obtain rfl : v = t := by simpa using he
        right
        rcases hsettled.finished hfin hs with ⟨hnot, hfin'⟩ | hstack
        · exact absurd hun (not_unfinished hnot hfin')
        · exact hstack
      · exact Or.inl (List.mem_cons_of_mem _ hmem)
    · obtain ⟨⟨rfl, rfl⟩, rfl⟩ : (t = v ∧ st = st') ∧ k = k' := by simpa using he
      exact hsettled

theorem left_sets {f : Frame} {dyn : List Name} {st st' : Status} {current : List Name}
    {js : List Job} {w1 : World} (hs : Sets w w1 f.rule.target st current js) :
    Sets w (left f dyn st' w1) f.rule.target st' current.tail js := by
  have h := leave_sets f.target dyn st' hs
  exact (wp_of_ok (leave_ok.mpr ⟨rfl, rfl⟩) h).2

/-- **Every step keeps the jobs anchored**, as long as no job fails while another one runs. -/
theorem Move.anchors (h : Anchors d p w) (hinv : Inv d root p w) (hinv' : Inv d root p' w')
    (hlone : AllLone w'.trace) (hm : Move d E p w p' w') : Anchors d p' w' := by
  cases hm with
  | glance hm => exact hm.anchors h hinv
  | @wait t u st k _ b _ hst hw =>
    exact h.waits hinv hinv' hlone hw rfl (fun t hmem => by simpa using hmem) h.settled (by simp)
  | @launch f k _ dyn _ hphase hcheck hdo =>
    have hq := (checkRule_quiet (S := fun _ => False) (O := (· = f.rule.target)) f.target
      (d.vardict f.rule) dyn f.status rfl).ok hcheck
    exact h.goto hinv rfl rfl (funext fun r => hq.rulestatus r id) hq.targetstatus (by simp) trivial
  | @skip f k _ dyn st w1 hphase hcheck hdo =>
    have hq := (checkRule_quiet (S := (· = f.rule.target)) (O := (· = f.rule.target)) f.target
      (d.vardict f.rule) dyn f.status rfl).ok hcheck
    have hout := wp_of_ok hcheck (checkRule_outdates f.rule f.target _ dyn f.status w)
    refine h.leave hinv (left_sets hq.sets) ?_
    have hsettled := h.settled.1
    rw [hphase] at hsettled
    rcases hinv.phaseOK hphase with hst | hst | ⟨hst, hall⟩
    · rw [hst] at hout
      rcases hout with rfl | ⟨he, -⟩
      · exact Or.inl rfl
      · cases he
    · exact Or.inr (Or.inl (hsettled hst))
    · exact Or.inr (Or.inr ⟨dyn, hall⟩)
  | @dry f k _ dyn w1 st w2 hphase hn h1 h2 hgo =>
    have hq1 := (prepareRule_quiet (d := d) (E := E) (S := (· = f.rule.target))
      (O := (· = f.rule.target)) rfl).ok h1
    have hq2 := (dryRun_quiet (E := E) (S := (· = f.rule.target)) (O := (· = f.rule.target)) f.rule
      (d.vardict f.rule)).ok h2
    exact h.leave hinv (left_sets (trans_of (Quiet d E _ _) hq1 hq2).sets)
      (Or.inr (Or.inr ⟨dyn, hinv.phaseOK hphase⟩))
  | @begin f k _ dyn w1 w2 hphase hn h1 h2 =>
    have hq1 := (prepareRule_quiet (d := d) (E := E) (S := fun _ => False)
      (O := (· = f.rule.target)) rfl).ok h1
    obtain ⟨w3, hq2, rfl⟩ := wp_of_ok h2 (beginRule_spec f.rule f.target _ dyn w1)
    have hq := trans_of (Quiet d E _ _) hq1 hq2
    refine h.goto hinv rfl rfl (funext fun r => hq.rulestatus r id) hq.targetstatus (by simp) ?_
    change PhaseSettled d w _ _ f.rule f.status (firstPhase d f dyn _)
    unfold firstPhase
    split <;> trivial
  | finished hphase => exact h.goto hinv rfl rfl rfl rfl (by simp) trivial
  | @script f k _ dyn i script todo res _ hphase hres hrun happly =>
    subst hres
    have hq := (applyResult_quiet (d := d) (E := E) (S := fun _ => False)
      (O := (· = f.rule.target)) rfl).ok happly
    refine h.goto hinv rfl rfl (funext fun r => hq.rulestatus r id) hq.targetstatus (by simp) ?_
    rw [Frame.goto_phase]
    split <;> trivial
  | @forks f k _ dyn i script todo res notify _ hphase hres hrun hrec =>
    have hq := (recordCmds_quiet (d := d) (E := E) (S := fun _ => False) (O := (· = f.rule.target))
      _ rfl).ok hrec
    exact h.goto hinv rfl rfl (funext fun r => hq.rulestatus r id) hq.targetstatus (by simp) trivial
  | @slot f k _ dyn notify n i todo b _ hphase hfull hw =>
    exact h.waits hinv hinv' hlone hw rfl (fun t hmem => by simpa using hmem)
      ⟨trivial, h.settled.2⟩ (by simp)
  | @fork f k _ dyn notify n i todo w1 hphase hfree hadd hgo =>
    obtain ⟨job, -, -, hs⟩ := wp_of_ok hadd (addNewJob_sets f.rule notify i todo w)
    exact h.leave hinv (left_sets hs) (Or.inr (Or.inr ⟨dyn, hinv.phaseOK hphase⟩))
  | @ended f k _ dyn rc st w1 hphase hend hgo =>
    have hq := (endForeground_quiet (d := d) (E := E) (S := (· = f.rule.target))
      (O := (· = f.rule.target)) rc rfl rfl).ok hend
    exact h.leave hinv (left_sets hq.sets) (Or.inr (Or.inr ⟨dyn, hinv.phaseOK hphase⟩))

/-! ## The history of a step -/

theorem Quiet.suffix {S O : RuleTarget → Prop} (h : Quiet d E S O w w') : w.trace <:+ w'.trace := by
  obtain ⟨l, hl, -⟩ := h.trace
  exact ⟨l, hl.symm⟩

theorem Extends.suffix {b : Nat} {l l' : List Moment} (h : Extends b l l') : l <:+ l' := by
  obtain ⟨l₀, hl, -⟩ := h
  exact ⟨l₀, hl.symm⟩

theorem Glance.suffix (hm : Glance d E p w p' w') : w.trace <:+ w'.trace := by
  cases hm with
  | source hr hs =>
    exact (buildSource_ok hs).2.1 ▸ List.suffix_rfl
  | settled hr hst => exact List.suffix_cons _ _
  | @depRet t st f k _ _ dyn done dep todo hphase hd =>
    exact ((depFailed_quiet (d := d) (E := E) (S := fun _ => False) (O := fun _ => False)
      st).ok hd).suffix
  | @lookRet t st f k _ _ found file keep _ inputs answer hphase hl =>
    exact ((lookupFile_quiet (d := d) (E := E) (S := fun _ => False) (O := fun _ => False) st
      file).ok hl).suffix
  | idle | enter | dep | static | dynamic | scanned | noscan | input | peek | look | answer |
    synced => exact List.suffix_rfl

theorem waitForOneJob_suffix {b : Bool} (hw : waitForOneJob d E w = .ok b w') :
    w.trace <:+ w'.trace := by
  rcases wp_of_ok hw (waitForOneJob_spec w) with ⟨-, rfl⟩ | hw
  · exact List.suffix_rfl
  · exact hw.trace.suffix

/-- The history only grows. -/
theorem Move.suffix (hm : Move d E p w p' w') : w.trace <:+ w'.trace := by
  cases hm with
  | glance hm => exact hm.suffix
  | wait hst hw => exact waitForOneJob_suffix hw
  | @launch f k _ dyn _ hphase hcheck hdo =>
    exact ((checkRule_quiet (S := fun _ => False) (O := (· = f.rule.target)) f.target
      (d.vardict f.rule) dyn f.status rfl).ok hcheck).suffix
  | @skip f k _ dyn st w1 hphase hcheck hdo =>
    have hq := (checkRule_quiet (S := (· = f.rule.target)) (O := (· = f.rule.target)) f.target
      (d.vardict f.rule) dyn f.status rfl).ok hcheck
    exact (left_sets hq.sets).trace.suffix
  | @dry f k _ dyn w1 st w2 hphase hn h1 h2 hgo =>
    have hq1 := (prepareRule_quiet (d := d) (E := E) (S := (· = f.rule.target))
      (O := (· = f.rule.target)) rfl).ok h1
    have hq2 := (dryRun_quiet (E := E) (S := (· = f.rule.target)) (O := (· = f.rule.target)) f.rule
      (d.vardict f.rule)).ok h2
    exact (left_sets (trans_of (Quiet d E _ _) hq1 hq2).sets).trace.suffix
  | @begin f k _ dyn w1 w2 hphase hn h1 h2 =>
    have hq1 := (prepareRule_quiet (d := d) (E := E) (S := fun _ => False)
      (O := (· = f.rule.target)) rfl).ok h1
    obtain ⟨w3, hq2, rfl⟩ := wp_of_ok h2 (beginRule_spec f.rule f.target _ dyn w1)
    exact (trans_of (Quiet d E _ _) hq1 hq2).suffix.trans (List.suffix_cons _ _)
  | finished hphase => exact List.suffix_rfl
  | @script f k _ dyn i script todo res _ hphase hres hrun happly =>
    subst hres
    exact ((applyResult_quiet (d := d) (E := E) (S := fun _ => False)
      (O := (· = f.rule.target)) rfl).ok happly).suffix
  | @forks f k _ dyn i script todo res notify _ hphase hres hrun hrec =>
    exact ((recordCmds_quiet (d := d) (E := E) (S := fun _ => False) (O := (· = f.rule.target))
      _ rfl).ok hrec).suffix
  | slot hphase hfull hw => exact waitForOneJob_suffix hw
  | @fork f k _ dyn notify n i todo w1 hphase hfree hadd hgo =>
    obtain ⟨job, -, -, hs⟩ := wp_of_ok hadd (addNewJob_sets f.rule notify i todo w)
    exact (left_sets hs).trace.suffix
  | @ended f k _ dyn rc st w1 hphase hend hgo =>
    have hq := (endForeground_quiet (d := d) (E := E) (S := (· = f.rule.target))
      (O := (· = f.rule.target)) rc rfl rfl).ok hend
    exact (left_sets hq.sets).trace.suffix

theorem AllLone.mono {l l' : List Moment} (hl : l <:+ l') (h : AllLone l') : AllLone l :=
  fun m hm => h m (hl.subset hm)

/-- The control invariant, with jobs that are all waited for. -/
def Held (d : Desc) (root : Name) (p : Point) (w : World) : Prop :=
  Inv d root p w ∧ (AllLone w.trace → Anchors d p w)

/-- Every step of the machine preserves it. -/
theorem next_held (p : Point) (w : World) (h : Held d root p w) :
    wp (next d E p) (Held d root) (fun _ => Good d) w := by
  have hnext := next_inv (E := E) p w h.1
  refine wp_iff.mpr ⟨fun p' w' hok => ?_, (wp_iff.mp hnext).2⟩
  have hinv' := wp_of_ok hok hnext
  have hm := next_moves h.1.shape hok
  exact ⟨hinv', fun hlone => hm.anchors (h.2 (hlone.mono hm.suffix)) h.1 hinv' hlone⟩

/-- Nothing hangs on an empty stack. -/
theorem Anchored.top {t : Name} {st : Status} {r : RuleTarget} (h : Anchored d [.ret t st] w r) :
    False := by
  induction h with
  | stack h => exact absurd h List.not_mem_nil
  | sync h hs => simp at h
  | parent hq ho ha ht hs ih => exact ih

/-- **When `build-sync` returns, no job is left**, if none has failed while another one was
running. -/
theorem buildSync_anchors (n : Nat) (t : Name) (h : Idle d w) (hnone : w.running = []) :
    wp (buildSync d E n t) (fun _ w' => Idle d w' ∧ (AllLone w'.trace → w'.running = []))
      (fun _ => Good d) w := by
  have hstart : Held d t [.call t none, .sync t] w := by
    have hinv := h.request t
    refine ⟨hinv, fun _ => ⟨fun r hr => ?_, trivial, fun _ _ _ he => absurd he (by simp)⟩⟩
    obtain ⟨j, hj, -⟩ := hinv.running_job r hr
    rw [hnone] at hj
    exact absurd hj List.not_mem_nil
  refine ((buildSync_follows n t).inv next_held hstart).imp (fun st w' h => ?_) fun _ _ h =>
    h.elim id fun ⟨_, _, h⟩ => h.1.good
  refine ⟨h.1.idle, fun hlone => ?_⟩
  by_contra hne
  obtain ⟨j, hj⟩ := List.exists_mem_of_ne_nil _ hne
  exact ((h.2 hlone).jobs _ (h.1.job_running j hj)).top

end Tmake
