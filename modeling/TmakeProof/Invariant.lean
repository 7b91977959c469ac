import TmakeProof.Calls
import TmakeProof.Effects

/-! # The control invariant

Statuses, running jobs and the stack of calls belong together: a rule is marked
`checking` only while it is on the stack; a rule is `running` exactly while there
is a job for it; and the rule that a job notifies cannot be settled before the
job is reaped, because the rule of the job is among the dependencies that every
evaluation of the notified rule builds again.  `Inv` is the conjunction, and
`next_inv` says that every step of the machine preserves it.
-/
namespace Tmake
open Weakest Machine

/-- The two statuses in which a dependency does not stand in the way of a build. -/
def Status.done : Status → Bool
  | .uptodate | .built => true
  | _ => false

/-- The statuses that `build` returns. -/
def Status.proper : Status → Bool
  | .unknown | .checking => false
  | _ => true

/-- The statuses of a rule that a running job notifies. -/
def Status.awaiting : Status → Bool
  | .unknown | .waiting | .checking | .failed => true
  | _ => false

theorem Status.proper_of_done {st : Status} (h : st.done = true) : st.proper = true := by
  cases st <;> simp_all [done, proper]

theorem Status.not_awaiting_of_done {st : Status} (h : st.done = true) : st.awaiting = false := by
  cases st <;> simp_all [done, awaiting]

/-! ## What is known of a dependency -/

/-- The names that the `-dyndep` script of a rule gives outright for some of its inputs. -/
def Rule.namedOn (r : Rule) (inputs : List Name) : List Name :=
  match r.dyndep with
  | none => []
  | some dyndep => inputs.flatMap fun i => (dyndep i).named

/-- The dependencies of a rule that every evaluation of it builds with the rule to notify. -/
def Rule.awaits (r : Rule) : List Name := r.depends ++ r.namedOn r.inputs

/-- A dependency is built or up to date. -/
def Desc.Done (d : Desc) (c : Core) (t : Name) : Prop :=
  match d.ruleFor t with
  | some r => (c.rulestatus r.target).done = true
  | none => c.targetstatus t = some .uptodate

theorem Desc.done_rule {d : Desc} {c : Core} {t : Name} {r : Rule} (h : d.ruleFor t = some r) :
    d.Done c t ↔ (c.rulestatus r.target).done = true := by
  simp only [Desc.Done, h]

theorem Desc.done_source {d : Desc} {c : Core} {t : Name} (h : d.ruleFor t = none) :
    d.Done c t ↔ c.targetstatus t = some .uptodate := by
  simp only [Desc.Done, h]

/-- What a value returned by `build` says, then and later. -/
def Returned (d : Desc) (w : World) (t : Name) (st : Status) : Prop :=
  st.proper = true ∧ (st.done = true → d.Done w.toCore t)

/-- The dependencies that a scan has found so far: named outright, or built before. -/
structure Found (d : Desc) (w : World) (r : Rule) (found inputs : List Name) : Prop where
  done : ∀ t ∈ found, t ∈ r.namedOn r.inputs ∨ (d.isTarget t = true → d.Done w.toCore t)
  named : ∀ t ∈ r.namedOn r.inputs, t ∈ found ∨ t ∈ r.namedOn inputs
  left : ∀ i ∈ inputs, i ∈ r.inputs
  needs : ∀ t ∈ found, r.NeedsName t

/-- All dependencies of a rule are built or up to date. -/
structure AllDone (d : Desc) (w : World) (r : Rule) (dyn : List Name) : Prop where
  done : ∀ t ∈ r.depends ++ dyn, d.Done w.toCore t
  named : ∀ t ∈ r.namedOn r.inputs, t ∈ dyn

/-- The `-do` list of the rule may have begun. -/
def Phase.begun : Phase → Bool
  | .scripts .. | .slots .. | .ended .. => true
  | _ => false

/-- What holds of a call of `build` for the rule `r`, whose status so far is `st`. -/
def PhaseOK (d : Desc) (w : World) (r : Rule) (st : Status) : Phase → Prop
  | .deps none done todo =>
    st.done = true ∧ r.depends = done.map (·.1) ++ todo ∧ ∀ x ∈ done, Returned d w x.1 x.2
  | .scan found prog inputs =>
    st.done = true ∧ (∀ t ∈ r.depends, d.Done w.toCore t) ∧ Found d w r found inputs ∧
      ∀ t, prog.Looks t → r.NeedsName t
  | .deps (some dyn) done todo =>
    st.done = true ∧ (∀ t ∈ r.depends, d.Done w.toCore t) ∧ Found d w r dyn [] ∧
      dyn = done.map (·.1) ++ todo ∧ ∀ x ∈ done, Returned d w x.1 x.2
  | .check dyn => st = .waiting ∨ st = .failed ∨ st.done = true ∧ AllDone d w r dyn
  | .launch dyn | .scripts dyn _ _ | .slots dyn _ _ _ _ | .ended dyn _ => AllDone d w r dyn

def FrameOK (d : Desc) (w : World) (f : Frame) : Prop :=
  d.ruleFor f.target = some f.rule ∧ PhaseOK d w f.rule f.status f.phase

section Mono
variable {d : Desc} {w w' : World} (hd : ∀ t, d.Done w.toCore t → d.Done w'.toCore t)
include hd

theorem Returned.mono {t : Name} {st : Status} (h : Returned d w t st) : Returned d w' t st :=
  ⟨h.1, fun hs => hd t (h.2 hs)⟩

theorem Found.mono {r : Rule} {found inputs : List Name} (h : Found d w r found inputs) :
    Found d w' r found inputs :=
  ⟨fun t ht => (h.done t ht).imp id fun h ht => hd t (h ht), h.named, h.left, h.needs⟩

theorem AllDone.mono {r : Rule} {dyn : List Name} (h : AllDone d w r dyn) : AllDone d w' r dyn :=
  ⟨fun t ht => hd t (h.done t ht), h.named⟩

theorem PhaseOK.mono {r : Rule} {st : Status} {phase : Phase} (h : PhaseOK d w r st phase) :
    PhaseOK d w' r st phase := by
  cases phase with
  | deps dyn done todo =>
    cases dyn with
    | none => exact ⟨h.1, h.2.1, fun x hx => (h.2.2 x hx).mono hd⟩
    | some dyn =>
      obtain ⟨hst, hdep, hf, heq, hret⟩ := h
      exact ⟨hst, fun t ht => hd t (hdep t ht), hf.mono hd, heq, fun x hx => (hret x hx).mono hd⟩
  | scan found prog inputs =>
    exact ⟨h.1, fun t ht => hd t (h.2.1 t ht), h.2.2.1.mono hd, h.2.2.2⟩
  | check dyn => exact Or.imp_right (Or.imp_right (And.imp_right (AllDone.mono hd))) h
  | launch dyn => exact AllDone.mono hd h
  | scripts dyn i todo => exact AllDone.mono hd h
  | slots dyn notify n i todo => exact AllDone.mono hd h
  | ended dyn rc => exact AllDone.mono hd h

theorem FrameOK.mono {f : Frame} (h : FrameOK d w f) : FrameOK d w' f := ⟨h.1, h.2.mono hd⟩

end Mono

/-! ## The stack -/

/-- The calls of `build` for rules on a stack, innermost first. -/
def frames (p : Point) : List Frame :=
  p.filterMap fun
    | .rule f => some f
    | _ => none

/-- The rules on a stack. -/
def onStack (p : Point) : List RuleTarget := (frames p).map (·.rule.target)

section
variable (p : Point)

@[simp] theorem frames_nil : frames [] = [] := rfl
@[simp] theorem frames_call (t : Name) (n : Option RuleTarget) :
    frames (.call t n :: p) = frames p := rfl
@[simp] theorem frames_ret (t : Name) (st : Status) : frames (.ret t st :: p) = frames p := rfl
@[simp] theorem frames_sync (t : Name) : frames (.sync t :: p) = frames p := rfl
@[simp] theorem frames_rule (f : Frame) : frames (.rule f :: p) = f :: frames p := rfl

end

/-- `CalledFrom root t n p`: the calls of `p`, the outermost of which is `build-sync` for `root`,
wait for a call of `build` for `t` with `n` to notify. -/
inductive CalledFrom (root : Name) : Name → Option RuleTarget → Point → Prop where
  | top : CalledFrom root root none [.sync root]
  | look {t : Name} {f : Frame} {p : Point} {found : List Name} {keep : FS → Bool}
      {k : Bool → Scan} {inputs : List Name}
      (phase : f.phase = .scan found (.lookup t keep k) inputs)
      (below : CalledFrom root f.target f.notify p) : CalledFrom root t none (.sync t :: .rule f :: p)
  | dep {t : Name} {f : Frame} {p : Point} {dyn : Option (List Name)}
      {done : List (Name × Status)} {todo : List Name}
      (phase : f.phase = .deps dyn done (t :: todo))
      (below : CalledFrom root f.target f.notify p) :
      CalledFrom root t (some f.rule.target) (.rule f :: p)

/-- The stacks that occur. -/
inductive Shape (root : Name) : Point → Prop where
  | idle : Shape root []
  | call {t : Name} {n : Option RuleTarget} {p : Point} (h : CalledFrom root t n p) :
      Shape root (.call t n :: p)
  | ret {t : Name} {st : Status} {n : Option RuleTarget} {p : Point} (h : CalledFrom root t n p) :
      Shape root (.ret t st :: p)
  | synced {st : Status} : Shape root [.ret root st]
  | found {t : Name} {st : Status} {f : Frame} {p : Point} {found : List Name}
      {keep : FS → Bool} {k : Bool → Scan} {inputs : List Name}
      (phase : f.phase = .scan found (.lookup t keep k) inputs)
      (h : CalledFrom root f.target f.notify p) :
      Shape root (.ret t st :: .rule f :: p)
  | rule {f : Frame} {p : Point} (h : CalledFrom root f.target f.notify p) :
      Shape root (.rule f :: p)

/-! ## The invariant -/

/-- What holds when the `-do` list of a rule begins. -/
structure Ready (d : Desc) (c : Core) (r : Rule) (dyn : List Name) : Prop where
  done : ∀ t ∈ r.depends ++ dyn, d.Done c t
  self : (c.rulestatus r.target).done = false
  idle : ∀ j ∈ c.running, j.ruletarget ≠ r.target
  closed : ∀ s ∈ d.rules, (c.rulestatus s.target).done = true → ∀ t ∈ s.depends, d.Done c t

/-- What the moments of a run show of the scheduler. -/
structure Good (d : Desc) (w : World) : Prop where
  nodup : (starts w.trace).Nodup
  slots : w.running.length ≤ d.maxjobs
  moments : ∀ m ∈ w.trace, m.core.running.length ≤ d.maxjobs
  known : ∀ r ∈ starts w.trace, r ∈ d.rules.map (·.target)
  ready : ∀ m ∈ w.trace, ∀ r dyn cmd, m.event = .start r.target dyn cmd → r ∈ d.rules →
    Ready d m.core r dyn

structure Inv (d : Desc) (root : Name) (p : Point) (w : World) : Prop where
  shape : Shape root p
  current : w.current = (frames p).map (·.target)
  nodup : (onStack p).Nodup
  checking : ∀ r, w.rulestatus r = .checking → r ∈ onStack p
  stacked : ∀ r ∈ onStack p, w.rulestatus r = .checking ∨ w.rulestatus r = .failed
  targetstatus : ∀ t st, w.targetstatus t = some st → st = .uptodate ∨ st = .failed
  job_running : ∀ j ∈ w.running, w.rulestatus j.ruletarget = .running
  running_job : ∀ r, w.rulestatus r = .running → ∃ j ∈ w.running, j.ruletarget = r
  job_nodup : (w.running.map (·.ruletarget)).Nodup
  job_awaited : ∀ j ∈ w.running, (w.rulestatus j.notifytarget).awaiting = true ∧
    ∃ n ∈ d.rules, n.target = j.notifytarget ∧
      ∃ t ∈ n.awaits, ∃ r, d.ruleFor t = some r ∧ r.target = j.ruletarget
  started : ∀ r ∈ starts w.trace,
    (∃ f ∈ frames p, f.rule.target = r ∧ f.phase.begun = true) ∨
    r ∉ onStack p ∧ w.rulestatus r ∈ [Status.running, .built, .failed]
  settled : ∀ r ∈ d.rules,
    (w.rulestatus r.target).done = true ∨ w.rulestatus r.target = .running →
    ∀ t ∈ r.depends, d.Done w.toCore t
  frameOK : ∀ f ∈ frames p, FrameOK d w f
  slot : ∀ f k dyn notify n i todo, p = .rule f :: k → f.phase = .slots dyn notify n i todo →
    w.running.length ≤ n ∧ 1 < d.maxjobs ∧ f.notify = some notify
  returned : ∀ t st k, p = .ret t st :: k → Returned d w t st
  good : Good d w

/-! ## What preserves it -/

section
variable {d : Desc} {E : Env} {root : Name} {O : RuleTarget → Prop} {p q : Point} {w w' : World}

theorem Desc.Done.mono {c c' : Core} {t : Name}
    (hs : ∀ r, (c.rulestatus r).done = true → (c'.rulestatus r).done = true)
    (ht : ∀ t, c.targetstatus t = some .uptodate → c'.targetstatus t = some .uptodate)
    (h : d.Done c t) : d.Done c' t := by
  unfold Desc.Done at *
  split
  · next r hr => rw [hr] at h; exact hs r.target h
  · next hr => rw [hr] at h; exact ht t h

theorem Good.extends (h : Good d w) (htr : Extends d.maxjobs w.trace w'.trace)
    (hr : w'.running.length ≤ d.maxjobs) : Good d w' := by
  obtain ⟨l, hl, hm⟩ := htr
  have hstart : starts w'.trace = starts w.trace := Extends.starts ⟨l, hl, hm⟩
  refine ⟨hstart ▸ h.nodup, hr, fun m hmem => ?_, hstart ▸ h.known,
    fun m hmem r dyn cmd he hr => ?_⟩
  · rw [hl] at hmem
    exact (List.mem_append.mp hmem).elim (fun hmem => (hm m hmem).2) (h.moments m)
  · rw [hl] at hmem
    rcases List.mem_append.mp hmem with hmem | hmem
    · exact absurd (hm m hmem).1 (by rw [he]; simp [Event.started?])
    · exact h.ready m hmem r dyn cmd he hr

theorem Calm.good (hc : Calm w w') (h : Good d w) : Good d w' := by
  obtain ⟨l, hl, hm⟩ := hc.trace
  exact h.extends ⟨l, hl, fun m hmem => ⟨(hm m hmem).1, (hm m hmem).2.trans h.slots⟩⟩
    (hc.running.trans h.slots)

/-- Nothing that the invariant speaks of has changed. -/
structure Unmoved (w w' : World) : Prop where
  rulestatus : w'.rulestatus = w.rulestatus
  targetstatus : w'.targetstatus = w.targetstatus
  current : w'.current = w.current
  running : w'.running = w.running
  trace : Extends w.running.length w.trace w'.trace

theorem Unmoved.of_eq (hs : w'.rulestatus = w.rulestatus) (ht : w'.targetstatus = w.targetstatus)
    (hc : w'.current = w.current) (hr : w'.running = w.running) (htr : w'.trace = w.trace) :
    Unmoved w w' := ⟨hs, ht, hc, hr, htr ▸ .refl _ _⟩

theorem Quiet.unmoved (hq : Quiet d E (fun _ => False) O w w') : Unmoved w w' :=
  ⟨funext fun r => hq.rulestatus r id, hq.targetstatus, hq.current, hq.running, hq.extends le_rfl⟩

theorem Inv.unmoved (h : Inv d root p w) (hq : Unmoved w w') : Inv d root p w' := by
  have hs := hq.rulestatus
  have hstarts : starts w'.trace = starts w.trace := hq.trace.starts
  have hd : ∀ t, d.Done w.toCore t → d.Done w'.toCore t := fun t =>
    Desc.Done.mono (fun r hr => by rwa [hs]) fun t ht => by rwa [hq.targetstatus]
  exact
    { shape := h.shape
      current := hq.current.trans h.current
      nodup := h.nodup
      checking := hs ▸ h.checking
      stacked := hs ▸ h.stacked
      targetstatus := by rw [hq.targetstatus]; exact h.targetstatus
      job_running := by rw [hq.running, hs]; exact h.job_running
      running_job := by rw [hq.running, hs]; exact h.running_job
      job_nodup := by rw [hq.running]; exact h.job_nodup
      job_awaited := by rw [hq.running, hs]; exact h.job_awaited
      started := by rw [hstarts, hs]; exact h.started
      settled := fun r hr hst t ht => hd t (h.settled r hr (hs ▸ hst) t ht)
      frameOK := fun f hf => (h.frameOK f hf).mono hd
      slot := by rw [hq.running]; exact h.slot
      returned := fun t st k hk => (h.returned t st k hk).mono hd
      good := Calm.good ⟨by rw [hq.running], hq.trace⟩ h.good }

theorem Inv.quiet (h : Inv d root p w) (hq : Quiet d E (fun _ => False) O w w') :
    Inv d root p w' := h.unmoved hq.unmoved

/-- The stack changes, but not the rules on it. -/
theorem Inv.replace (h : Inv d root p w) (hshape : Shape root q)
    (hsame : (frames q).map (fun f => (f.rule, f.target)) =
      (frames p).map (fun f => (f.rule, f.target)))
    (hbegun : ∀ f ∈ frames p, f.phase.begun = true →
      ∃ g ∈ frames q, g.rule = f.rule ∧ g.phase.begun = true)
    (hframes : ∀ f ∈ frames q, FrameOK d w f)
    (hslot : ∀ f k dyn notify n i todo, q = .rule f :: k →
      f.phase = .slots dyn notify n i todo →
      w.running.length ≤ n ∧ 1 < d.maxjobs ∧ f.notify = some notify)
    (hret : ∀ t st k, q = .ret t st :: k → Returned d w t st) : Inv d root q w := by
  have hst : onStack q = onStack p := by
    have := congrArg (List.map (fun x : Rule × Name => x.1.target)) hsame
    rw [List.map_map, List.map_map] at this
    exact this
  have hcur : (frames q).map (·.target) = (frames p).map (·.target) := by
    have := congrArg (List.map (fun x : Rule × Name => x.2)) hsame
    rw [List.map_map, List.map_map] at this
    exact this
  exact
    { shape := hshape
      current := hcur ▸ h.current
      nodup := hst ▸ h.nodup
      checking := hst ▸ h.checking
      stacked := hst ▸ h.stacked
      targetstatus := h.targetstatus
      job_running := h.job_running
      running_job := h.running_job
      job_nodup := h.job_nodup
      job_awaited := h.job_awaited
      started := fun r hr => by
        rw [hst]
        refine (h.started r hr).imp ?_ id
        rintro ⟨f, hf, rfl, hb⟩
        obtain ⟨g, hg, hgf, hgb⟩ := hbegun f hf hb
        exact ⟨g, hg, by rw [hgf], hgb⟩
      settled := h.settled
      frameOK := hframes
      slot := hslot
      returned := hret
      good := h.good }

/-- The innermost call goes on in another phase. -/
theorem Inv.goto {f g : Frame} {a : Point} (h : Inv d root (a ++ .rule f :: p) w)
    (ha : frames a = []) (hg : g.rule = f.rule ∧ g.target = f.target ∧ g.notify = f.notify)
    (hbelow : CalledFrom root f.target f.notify p)
    (hb : f.phase.begun = true → g.phase.begun = true) (hok : PhaseOK d w g.rule g.status g.phase)
    (hslot : ∀ dyn notify n i todo, g.phase = .slots dyn notify n i todo →
      w.running.length ≤ n ∧ 1 < d.maxjobs ∧ g.notify = some notify) :
    Inv d root (.rule g :: p) w := by
  obtain ⟨hr, ht, hn⟩ := hg
  have hp : frames (a ++ .rule f :: p) = f :: frames p := by
    unfold frames at *
    rw [List.filterMap_append, ha]
    rfl
  refine h.replace (.rule (by rw [ht, hn]; exact hbelow)) ?_ ?_ ?_ ?_ ?_
  · rw [hp, frames_rule, List.map_cons, List.map_cons, hr, ht]
  · intro f' hf' hb'
    rw [hp] at hf'
    rcases List.mem_cons.mp hf' with rfl | hf'
    · exact ⟨g, List.mem_cons_self, hr, hb hb'⟩
    · exact ⟨f', List.mem_cons_of_mem _ hf', rfl, hb'⟩
  · intro f' hf'
    rcases List.mem_cons.mp hf' with rfl | hf'
    · exact ⟨by rw [hr, ht]; exact (h.frameOK f (by rw [hp]; exact List.mem_cons_self)).1, hok⟩
    · exact h.frameOK f' (by rw [hp]; exact List.mem_cons_of_mem _ hf')
  · intro f' k dyn notify n i todo he hph
    obtain ⟨rfl, rfl⟩ : g = f' ∧ p = k := by simpa using he
    exact hslot dyn notify n i todo hph
  · intro t st k he
    exact absurd he (by simp)

/-- A rule on the stack is neither built nor up to date. -/
theorem Inv.not_done (h : Inv d root p w) {r : RuleTarget} (hr : r ∈ onStack p) :
    (w.rulestatus r).done = false := by
  rcases h.stacked r hr with h | h <;> rw [h] <;> rfl

/-- The status of `r` has been set to `st`, the stack of names to `current`, and the jobs `js`
were started. -/
structure Sets (w w' : World) (r : RuleTarget) (st : Status) (current : List Name)
    (js : List Job) : Prop where
  rulestatus : w'.rulestatus = Function.update w.rulestatus r st
  targetstatus : w'.targetstatus = w.targetstatus
  current : w'.current = current
  running : w'.running = w.running ++ js
  trace : Extends w'.running.length w.trace w'.trace

section Sets
variable {r : RuleTarget} {st : Status} {current : List Name} {js : List Job}

theorem Sets.same (hs : Sets w w' r st current js) : w'.rulestatus r = st := by
  rw [hs.rulestatus, Function.update_self]

theorem Sets.other (hs : Sets w w' r st current js) {s : RuleTarget} (h : s ≠ r) :
    w'.rulestatus s = w.rulestatus s := by
  rw [hs.rulestatus, Function.update_of_ne h]

/-- The status of a rule that was not done is set. -/
theorem Sets.done (hs : Sets w w' r st current js) (hr : (w.rulestatus r).done = false) (t : Name)
    (h : d.Done w.toCore t) : d.Done w'.toCore t := by
  refine h.mono (fun s hd => ?_) fun t ht => by rwa [hs.targetstatus]
  rw [hs.other fun he => by rw [he, hr] at hd; cases hd]
  exact hd

theorem Sets.good (hs : Sets w w' r st current js) (hb : w'.running.length ≤ d.maxjobs)
    (h : Good d w) : Good d w' := by
  obtain ⟨l, hl, hm⟩ := hs.trace
  exact h.extends ⟨l, hl, fun m hmem => ⟨(hm m hmem).1, (hm m hmem).2.trans hb⟩⟩ hb

end Sets

/-- The call of a rule that is not settled is pushed on the stack. -/
theorem Inv.enter {t : Name} {n : Option RuleTarget} {r : Rule} {st : Status}
    (h : Inv d root (.call t n :: p) w) (hr : d.ruleFor t = some r)
    (hst : w.rulestatus r.target = .unknown ∨ w.rulestatus r.target = .waiting)
    (hdone : st.done = true) (hs : Sets w w' r.target .checking (t :: w.current) []) :
    Inv d root (.rule ⟨r, t, n, st, .deps none [] r.depends⟩ :: p) w' := by
  have hne : ∀ s, w.rulestatus s ≠ .unknown → w.rulestatus s ≠ .waiting → s ≠ r.target := by
    rintro s h1 h2 rfl
    exact hst.elim h1 h2
  have hnot : r.target ∉ onStack p := fun hmem => by
    rcases h.stacked _ hmem with h' | h' <;> rcases hst with h'' | h'' <;> rw [h'] at h'' <;> cases h''
  have hrun : w'.running = w.running := by rw [hs.running, List.append_nil]
  have hd := hs.done (d := d) (by rcases hst with h | h <;> rw [h] <;> rfl)
  have hcalled : CalledFrom root t n p := by
    cases h.shape with
    | call h => exact h
  refine
    { shape := .rule hcalled
      current := by rw [hs.current, h.current]; rfl
      nodup := List.nodup_cons.mpr ⟨hnot, h.nodup⟩
      checking := fun s hsc => ?_
      stacked := fun s hsc => ?_
      targetstatus := by rw [hs.targetstatus]; exact h.targetstatus
      job_running := fun j hj => ?_
      running_job := fun s hsc => ?_
      job_nodup := by rw [hrun]; exact h.job_nodup
      job_awaited := fun j hj => ⟨?_, (h.job_awaited j (hrun ▸ hj)).2⟩
      started := fun s hsc => ?_
      settled := fun s hsr hst' t' ht' => hd t' (h.settled s hsr ?_ t' ht')
      frameOK := fun f hf => ?_
      slot := fun f k dyn notify n i todo he hph => ?_
      returned := fun t st k he => ?_
      good := hs.good (by rw [hrun]; exact h.good.slots) h.good }
  · by_cases hsr : s = r.target
    · exact hsr ▸ List.mem_cons_self
    · exact List.mem_cons_of_mem _ (h.checking s (by rwa [← hs.other hsr]))
  · rcases List.mem_cons.mp hsc with rfl | hmem
    · exact Or.inl hs.same
    · rw [hs.other fun hsr => hnot (hsr ▸ hmem)]
      exact h.stacked s hmem
  · have hj := h.job_running j (hrun ▸ hj)
    rwa [hs.other (hne _ (by simp [hj]) (by simp [hj]))]
  · by_cases hsr : s = r.target
    · rw [hsr, hs.same] at hsc
      cases hsc
    · rw [hs.other hsr] at hsc
      rw [hrun]
      exact h.running_job s hsc
  · by_cases hn : j.notifytarget = r.target
    · rw [hn, hs.same]
      rfl
    · rw [hs.other hn]
      exact (h.job_awaited j (hrun ▸ hj)).1
  · rw [hs.trace.starts] at hsc
    rcases h.started s hsc with ⟨f, hf, hfs, hb⟩ | ⟨hs', hmem⟩
    · exact Or.inl ⟨f, List.mem_cons_of_mem _ hf, hfs, hb⟩
    · have hsr : s ≠ r.target := hne s (fun h => by simp [h] at hmem) fun h => by simp [h] at hmem
      refine Or.inr ⟨fun hmem' => (List.mem_cons.mp hmem').elim hsr hs', ?_⟩
      rwa [hs.other hsr]
  · by_cases he : s.target = r.target
    · rw [he, hs.same] at hst'
      rcases hst' with h' | h' <;> cases h'
    · rwa [hs.other he] at hst'
  · rcases List.mem_cons.mp hf with rfl | hf
    · exact ⟨hr, hdone, rfl, fun _ hx => absurd hx List.not_mem_nil⟩
    · exact (h.frameOK f hf).mono hd
  · obtain ⟨rfl, rfl⟩ : _ = f ∧ p = k := by simpa using he
    exact absurd hph (by simp)
  · exact absurd he (by simp)

/-- A rule that was called with a rule to notify is among the dependencies that the latter
builds again whenever it is evaluated. -/
theorem Inv.notify_awaits {f : Frame} {n : RuleTarget} (h : Inv d root (.rule f :: p) w)
    (hn : f.notify = some n) :
    n ∈ onStack p ∧ ∃ r ∈ d.rules, r.target = n ∧ f.target ∈ r.awaits := by
  have hcalled : CalledFrom root f.target f.notify p := by
    cases h.shape with
    | rule h => exact h
  have hf := (h.frameOK f List.mem_cons_self).1
  rw [hn] at hcalled
  cases hcalled with
  | @dep _ g p' dyn done todo hphase hbelow =>
    obtain ⟨hg, hok⟩ := h.frameOK g (List.mem_cons_of_mem _ List.mem_cons_self)
    refine ⟨List.mem_cons_self, g.rule, d.ruleFor_mem hg, rfl, ?_⟩
    rw [hphase] at hok
    cases dyn with
    | none =>
      refine List.mem_append_left _ ?_
      rw [hok.2.1]
      exact List.mem_append_right _ List.mem_cons_self
    | some dyn =>
      obtain ⟨-, -, hfound, heq, -⟩ := hok
      have hmem : f.target ∈ dyn := by
        rw [heq]
        exact List.mem_append_right _ List.mem_cons_self
      rcases hfound.done _ hmem with hnamed | hdone
      · exact List.mem_append_right _ hnamed
      · have hdone := (Desc.done_rule hf).mp (hdone (d.isTarget_iff.mpr ⟨_, hf⟩))
        have := h.not_done (r := f.rule.target) List.mem_cons_self
        rw [this] at hdone
        cases hdone

/-- Once all its dependencies are done, no running job notifies a rule. -/
theorem Inv.not_awaited {r : Rule} {dyn : List Name} (h : Inv d root p w) (hr : r ∈ d.rules)
    (hne : r.target ≠ []) (hall : AllDone d w r dyn) :
    ∀ j ∈ w.running, j.notifytarget ≠ r.target := by
  intro j hj hjr
  obtain ⟨-, n, hn, hnt, t, ht, s, hs, hsj⟩ := h.job_awaited j hj
  obtain rfl : n = r := by
    refine d.rule_eq_of_target hn hr ?_ (hnt.trans hjr)
    rw [hnt, hjr]
    exact hne
  have hdone : d.Done w.toCore t := by
    rcases List.mem_append.mp ht with ht | ht
    · exact hall.done t (List.mem_append_left _ ht)
    · exact hall.done t (List.mem_append_right _ (hall.named t ht))
  rw [Desc.done_rule hs, hsj, h.job_running j hj] at hdone
  cases hdone

/-- The innermost call returns. -/
theorem Inv.leave {f : Frame} {st : Status} {js : List Job} (h : Inv d root (.rule f :: p) w)
    (hs : Sets w w' f.rule.target st w.current.tail js) (hproper : st.proper = true)
    (hst : st = .waiting ∨ st = .failed ∨ ∃ dyn, AllDone d w f.rule dyn)
    (hjs : js = [] ∧ st ≠ .running ∨ st = .running ∧ ∃ job notify, js = [job] ∧
      job.ruletarget = f.rule.target ∧ job.notifytarget = notify ∧ f.notify = some notify ∧
      w.running.length < d.maxjobs)
    (hbegun : f.phase.begun = true → st ∈ [Status.running, .built, .failed]) :
    Inv d root (.ret f.target st :: p) w' := by
  have hcalled : CalledFrom root f.target f.notify p := by
    cases h.shape with
    | rule h => exact h
  have hf := (h.frameOK f List.mem_cons_self).1
  have hmemf : f.rule.target ∈ onStack (.rule f :: p) := List.mem_cons_self
  obtain ⟨hnotp, hnodup⟩ : f.rule.target ∉ onStack p ∧ (onStack p).Nodup :=
    List.nodup_cons.mp h.nodup
  have hd := hs.done (d := d) (h.not_done hmemf)
  have hold : ∀ j ∈ w.running, j.ruletarget ≠ f.rule.target := fun j hj he => by
    have := h.job_running j hj
    rcases h.stacked _ hmemf with h' | h' <;> rw [he, h'] at this <;> cases this
  have hne : f.rule.target ≠ [] := d.target_ne_nil hf
  -- a settled rule is not notified any more
  have hnotified : ∀ j ∈ w.running, j.notifytarget = f.rule.target → st.awaiting = true := by
    intro j hj hjf
    rcases hst with rfl | rfl | ⟨dyn, hall⟩
    · rfl
    · rfl
    · exact absurd hjf (h.not_awaited (d.ruleFor_mem hf) hne hall j hj)
  have hb : w'.running.length ≤ d.maxjobs := by
    rw [hs.running, List.length_append]
    rcases hjs with ⟨rfl, -⟩ | ⟨-, job, notify, rfl, -, -, -, hlt⟩
    · exact h.good.slots
    · exact hlt
  refine
    { shape := .ret hcalled
      current := by rw [hs.current, h.current]; rfl
      nodup := hnodup
      checking := fun s hsc => ?_
      stacked := fun s hsc => ?_
      targetstatus := by rw [hs.targetstatus]; exact h.targetstatus
      job_running := fun j hj => ?_
      running_job := fun s hsc => ?_
      job_nodup := ?_
      job_awaited := fun j hj => ?_
      started := fun s hsc => ?_
      settled := fun s hsr hst' t' ht' => hd t' ?_
      frameOK := fun g hg => (h.frameOK g (List.mem_cons_of_mem _ hg)).mono hd
      slot := fun f k dyn notify n i todo he hph => absurd he (by simp)
      returned := fun t st' k he => ?_
      good := hs.good hb h.good }
  · by_cases hsr : s = f.rule.target
    · rw [hsr, hs.same] at hsc
      subst hsc
      cases hproper
    · rw [hs.other hsr] at hsc
      exact (List.mem_cons.mp (h.checking s hsc)).resolve_left hsr
  · rw [hs.other fun hsr : s = f.rule.target => hnotp (hsr ▸ hsc)]
    exact h.stacked s (List.mem_cons_of_mem _ hsc)
  · rw [hs.running] at hj
    rcases List.mem_append.mp hj with hj | hj
    · rw [hs.other (hold j hj)]
      exact h.job_running j hj
    · rcases hjs with ⟨rfl, -⟩ | ⟨rfl, job, notify, rfl, hjr, -⟩
      · exact absurd hj List.not_mem_nil
      · rw [List.mem_singleton.mp hj, hjr, hs.same]
  · by_cases hsr : s = f.rule.target
    · subst hsr
      rw [hs.same] at hsc
      rcases hjs with ⟨-, hne⟩ | ⟨-, job, notify, rfl, hjr, -⟩
      · exact absurd hsc hne
      · exact ⟨job, by rw [hs.running]; exact List.mem_append_right _ List.mem_cons_self, hjr⟩
    · rw [hs.other hsr] at hsc
      obtain ⟨j, hj, hjs⟩ := h.running_job s hsc
      exact ⟨j, by rw [hs.running]; exact List.mem_append_left _ hj, hjs⟩
  · rw [hs.running, List.map_append]
    rcases hjs with ⟨rfl, -⟩ | ⟨-, job, notify, rfl, hjr, -⟩
    · rw [List.map_nil, List.append_nil]
      exact h.job_nodup
    · refine h.job_nodup.append (List.nodup_singleton _) fun x hx hx' => ?_
      obtain ⟨j, hj, rfl⟩ := List.mem_map.mp hx
      exact hold j hj ((List.mem_singleton.mp hx').trans hjr)
  · rw [hs.running] at hj
    rcases List.mem_append.mp hj with hj | hj
    · refine ⟨?_, (h.job_awaited j hj).2⟩
      by_cases hjf : j.notifytarget = f.rule.target
      · rw [hjf, hs.same]
        exact hnotified j hj hjf
      · rw [hs.other hjf]
        exact (h.job_awaited j hj).1
    · rcases hjs with ⟨rfl, -⟩ | ⟨-, job, notify, rfl, hjr, hjn, hfn, -⟩
      · exact absurd hj List.not_mem_nil
      · obtain rfl := List.mem_singleton.mp hj
        obtain ⟨hmem, n, hn, hnt, haw⟩ := h.notify_awaits hfn
        rw [hjn, hjr]
        refine ⟨?_, n, hn, hnt, f.target, haw, f.rule, hf, rfl⟩
        rw [hs.other fun he : notify = f.rule.target => hnotp (he ▸ hmem)]
        rcases h.stacked _ (List.mem_cons_of_mem _ hmem) with h' | h' <;> rw [h'] <;> rfl
  · rw [hs.trace.starts] at hsc
    rcases h.started s hsc with ⟨g, hg, hgs, hgb⟩ | ⟨hs', hmem⟩
    · rcases List.mem_cons.mp hg with rfl | hg
      · subst hgs
        exact Or.inr ⟨hnotp, by rw [hs.same]; exact hbegun hgb⟩
      · exact Or.inl ⟨g, hg, hgs, hgb⟩
    · have hsr : s ≠ f.rule.target := fun he => hs' (he ▸ hmemf)
      refine Or.inr ⟨fun hmem' => hs' (List.mem_cons_of_mem _ hmem'), ?_⟩
      rwa [hs.other hsr]
  · by_cases he : s.target = f.rule.target
    · obtain rfl := d.rule_eq_of_target (d.ruleFor_mem hf) hsr hne he.symm
      rw [hs.same] at hst'
      rcases hst with rfl | rfl | ⟨dyn, hall⟩
      · rcases hst' with h' | h' <;> cases h'
      · rcases hst' with h' | h' <;> cases h'
      · exact hall.done t' (List.mem_append_left _ ht')
    · rw [hs.other he] at hst'
      exact h.settled s hsr hst' t' ht'
  · obtain ⟨⟨rfl, rfl⟩, rfl⟩ : (f.target = t ∧ st = st') ∧ p = k := by simpa using he
    refine ⟨hproper, fun hdone => (Desc.done_rule hf).mpr ?_⟩
    rw [hs.same]
    exact hdone

/-- With one element taken out, the others with other keys are left. -/
theorem mem_eraseIdx_iff_of_nodup {α β : Type} {f : α → β} {l : List α} (hl : (l.map f).Nodup)
    {i : Nat} {a b : α} (ha : l[i]? = some a) : b ∈ l.eraseIdx i ↔ b ∈ l ∧ f b ≠ f a := by
  rw [List.mem_eraseIdx_iff_getElem?, List.mem_iff_getElem?]
  constructor
  · rintro ⟨j, hj, hb⟩
    refine ⟨⟨j, hb⟩, fun he => hj ?_⟩
    have hlt : j < (l.map f).length := by
      rw [List.length_map]
      exact (List.getElem?_eq_some_iff.mp hb).1
    refine (List.getElem?_inj hlt hl).mp ?_
    rw [List.getElem?_map, List.getElem?_map, ha, hb, Option.map_some, Option.map_some, he]
  · rintro ⟨⟨j, hb⟩, hne⟩
    refine ⟨j, ?_, hb⟩
    rintro rfl
    rw [ha] at hb
    exact hne (congrArg f (Option.some.inj hb).symm)

/-- When a job is reaped, its rule is settled, the rule that it notifies stays unsettled, and the
others are as they were.  A rule is made to fail by a job that failed. -/
theorem Inv.reaped (h : Inv d root p w) (hw : Waited w w') :
    ∃ (i : Nat) (job : Job), w.running[i]? = some job ∧ w'.running = w.running.eraseIdx i ∧
      (w'.rulestatus job.ruletarget = .built ∨ w'.rulestatus job.ruletarget = .failed) ∧
      ∀ s, s ≠ job.ruletarget → w'.rulestatus s = w.rulestatus s ∨
        w.rulestatus s = .waiting ∧ w'.rulestatus s = .unknown ∨
        (w.rulestatus s).awaiting = true ∧ w'.rulestatus s = .failed ∧ w'.Noted := by
  obtain ⟨i, job, st, st', hi, hrun, hst, hs, hst'⟩ := hw.reaped
  have hjob : job ∈ w.running := List.mem_of_getElem? hi
  have haw := (h.job_awaited job hjob).1
  have hne : job.notifytarget ≠ job.ruletarget := fun he => by
    rw [he, h.job_running job hjob] at haw
    cases haw
  rw [Function.update_of_ne hne] at hst'
  have hrule : w'.rulestatus job.ruletarget = st := by
    rw [hs, Function.update_of_ne hne.symm, Function.update_self]
  refine ⟨i, job, hi, hrun, hrule ▸ hst, fun s hsr => ?_⟩
  by_cases hsn : s = job.notifytarget
  · have hnotify : w'.rulestatus s = st' := by rw [hs, hsn, Function.update_self]
    rw [← hsn] at hst' haw
    rw [hnotify]
    exact hst'.imp id fun hst' => hst'.imp id fun hst' => ⟨haw, hst'⟩
  · exact .inl (by rw [hs, Function.update_of_ne hsn, Function.update_of_ne hsr])

/-- A job has been reaped. -/
theorem Inv.wait (h : Inv d root p w) (hw : Waited w w') : Inv d root p w' := by
  obtain ⟨i, job, hi, hrun, hrule, hother⟩ := h.reaped hw
  have hmem : ∀ j ∈ w'.running, j ∈ w.running := fun j hj =>
    List.mem_of_mem_eraseIdx (hrun ▸ hj)
  have hruns := h.job_running job (List.mem_of_getElem? hi)
  have hkept : ∀ s, s ≠ job.ruletarget → (w.rulestatus s).awaiting = false →
      w'.rulestatus s = w.rulestatus s := by
    intro s hs hno
    rcases hother s hs with heq | ⟨hwait, -⟩ | ⟨haw, -⟩
    · exact heq
    · rw [hwait] at hno
      cases hno
    · rw [haw] at hno
      cases hno
  have hback : ∀ s st, s ≠ job.ruletarget → st ≠ .unknown → st ≠ .failed →
      w'.rulestatus s = st → w.rulestatus s = st := by
    rintro s st hs hunknown hfailed rfl
    rcases hother s hs with heq | ⟨-, hst⟩ | ⟨-, hst, -⟩
    · exact heq.symm
    · exact absurd hst hunknown
    · exact absurd hst hfailed
  have hdone : ∀ s, (w.rulestatus s).done = true → (w'.rulestatus s).done = true := by
    intro s hs
    have hsr : s ≠ job.ruletarget := fun he => by
      rw [he, hruns] at hs
      cases hs
    rw [hkept s hsr (Status.not_awaiting_of_done hs)]
    exact hs
  have hd : ∀ t, d.Done w.toCore t → d.Done w'.toCore t := fun t =>
    Desc.Done.mono hdone fun t ht => by rwa [hw.targetstatus]
  have hstack : ∀ s ∈ onStack p, s ≠ job.ruletarget := by
    rintro s hs rfl
    rcases h.stacked _ hs with h' | h' <;> rw [hruns] at h' <;> cases h'
  -- the other jobs are for other rules
  have hothers : ∀ j ∈ w'.running, j.ruletarget ≠ job.ruletarget := by
    intro j hj
    rw [hrun, mem_eraseIdx_iff_of_nodup h.job_nodup hi] at hj
    exact hj.2
  refine
    { shape := h.shape
      current := hw.current.trans h.current
      nodup := h.nodup
      checking := fun s hsc => ?_
      stacked := fun s hsc => ?_
      targetstatus := by rw [hw.targetstatus]; exact h.targetstatus
      job_running := fun j hj => ?_
      running_job := fun s hsc => ?_
      job_nodup := ?_
      job_awaited := fun j hj => ⟨?_, (h.job_awaited j (hmem j hj)).2⟩
      started := fun s hsc => ?_
      settled := fun s hsr hst t' ht' => hd t' (h.settled s hsr ?_ t' ht')
      frameOK := fun f hf => (h.frameOK f hf).mono hd
      slot := fun f k dyn notify n i todo he hph => ?_
      returned := fun t st k he => (h.returned t st k he).mono hd
      good := hw.calm.good h.good }
  · have hsr : s ≠ job.ruletarget := fun he => by
      rw [he] at hsc
      rcases hrule with h' | h' <;> rw [h'] at hsc <;> cases hsc
    exact h.checking s (hback s _ hsr nofun nofun hsc)
  · rcases hother s (hstack s hsc) with heq | ⟨hwait, -⟩ | ⟨-, hfailed, -⟩
    · rw [heq]
      exact h.stacked s hsc
    · rcases h.stacked _ hsc with h' | h' <;> rw [hwait] at h' <;> cases h'
    · exact .inr hfailed
  · have hj' := h.job_running j (hmem j hj)
    rw [hkept _ (hothers j hj) (by rw [hj']; rfl)]
    exact hj'
  · have hsr : s ≠ job.ruletarget := fun he => by
      rw [he] at hsc
      rcases hrule with h' | h' <;> rw [h'] at hsc <;> cases hsc
    obtain ⟨j, hj, hjs⟩ := h.running_job s (hback s _ hsr nofun nofun hsc)
    rw [hrun]
    exact ⟨j, (mem_eraseIdx_iff_of_nodup h.job_nodup hi).mpr ⟨hj, hjs ▸ hsr⟩, hjs⟩
  · rw [hrun]
    exact h.job_nodup.sublist ((List.eraseIdx_sublist _ _).map _)
  · have haw := (h.job_awaited j (hmem j hj)).1
    have hsr : j.notifytarget ≠ job.ruletarget := fun he => by
      rw [he, hruns] at haw
      cases haw
    rcases hother _ hsr with heq | ⟨-, hst⟩ | ⟨-, hst, -⟩
    · rwa [heq]
    · rw [hst]
      rfl
    · rw [hst]
      rfl
  · rw [hw.trace.starts] at hsc
    refine (h.started s hsc).imp id fun hsc' => ⟨hsc'.1, ?_⟩
    by_cases hsr : s = job.ruletarget
    · rw [hsr]
      rcases hrule with h' | h' <;> simp [h']
    · rcases hother s hsr with heq | ⟨hwait, -⟩ | ⟨-, hst, -⟩
      · rw [heq]
        exact hsc'.2
      · exact absurd hsc'.2 (by simp [hwait])
      · simp [hst]
  · by_cases hsr' : s.target = job.ruletarget
    · exact .inr (hsr' ▸ hruns)
    · rcases hst with hst | hst
      · rcases hother _ hsr' with heq | ⟨-, h'⟩ | ⟨-, h', -⟩
        · exact .inl (heq ▸ hst)
        · rw [h'] at hst
          cases hst
        · rw [h'] at hst
          cases hst
      · exact .inr (hback _ _ hsr' nofun nofun hst)
  · obtain ⟨hn, hrest⟩ := h.slot f k dyn notify n i todo he hph
    exact ⟨hw.calm.running.trans hn, hrest⟩

/-- The `-do` list of the innermost rule begins. -/
theorem Inv.start {f g : Frame} {dyn : List Name} {cmd : Option (List String)}
    (h : Inv d root (.rule f :: p) w) (hall : AllDone d w f.rule dyn) (hb : f.phase.begun = false)
    (hw : w' = { w with trace := ⟨.start f.rule.target dyn cmd, w.toCore⟩ :: w.trace })
    (hg : g.rule = f.rule ∧ g.target = f.target ∧ g.notify = f.notify)
    (hgb : g.phase.begun = true) (hok : PhaseOK d w' g.rule g.status g.phase)
    (hslot : ∀ dyn notify n i todo, g.phase = .slots dyn notify n i todo →
      w.running.length ≤ n ∧ 1 < d.maxjobs ∧ g.notify = some notify) :
    Inv d root (.rule g :: p) w' := by
  obtain ⟨hgr, hgt, hgn⟩ := hg
  have hf := (h.frameOK f List.mem_cons_self).1
  have hcalled : CalledFrom root f.target f.notify p := by
    cases h.shape with
    | rule h => exact h
  have hstack : onStack (.rule g :: p) = onStack (.rule f :: p) := by
    simp only [onStack, frames_rule, List.map_cons, hgr]
  have hnew : f.rule.target ∉ starts w.trace := fun hmem => by
    rcases h.started _ hmem with ⟨f', hf', he, hb'⟩ | ⟨hnot, -⟩
    · rcases List.mem_cons.mp hf' with rfl | hf'
      · rw [hb] at hb'
        cases hb'
      · refine (List.nodup_cons.mp h.nodup).1 ?_
        dsimp only
        rw [← he]
        exact List.mem_map_of_mem hf'
    · exact hnot List.mem_cons_self
  have hstarts : starts w'.trace = f.rule.target :: starts w.trace := by
    rw [hw]
    simp [Event.started?]
  have hcore : w'.toCore = w.toCore := by rw [hw]
  have hd : ∀ t, d.Done w.toCore t → d.Done w'.toCore t := fun t ht => hcore ▸ ht
  refine
    { shape := .rule (by rw [hgt, hgn]; exact hcalled)
      current := by rw [hcore, h.current, frames_rule, frames_rule, List.map_cons, List.map_cons, hgt]
      nodup := hstack ▸ h.nodup
      checking := by rw [hcore, hstack]; exact h.checking
      stacked := by rw [hcore, hstack]; exact h.stacked
      targetstatus := by rw [hcore]; exact h.targetstatus
      job_running := by rw [hcore]; exact h.job_running
      running_job := by rw [hcore]; exact h.running_job
      job_nodup := by rw [hcore]; exact h.job_nodup
      job_awaited := by rw [hcore]; exact h.job_awaited
      started := fun s hs => ?_
      settled := by rw [hcore]; exact h.settled
      frameOK := fun f' hf' => ?_
      slot := fun f' k dyn notify n i todo he hph => ?_
      returned := fun t st k he => absurd he (by simp)
      good := ?_ }
  · rw [hstarts] at hs
    rcases List.mem_cons.mp hs with rfl | hs
    · exact Or.inl ⟨g, List.mem_cons_self, by rw [hgr], hgb⟩
    · rcases h.started s hs with ⟨f', hf', he, hb'⟩ | hs'
      · rcases List.mem_cons.mp hf' with rfl | hf'
        · rw [hb] at hb'
          cases hb'
        · exact Or.inl ⟨f', List.mem_cons_of_mem _ hf', he, hb'⟩
      · rw [hcore, hstack]
        exact Or.inr hs'
  · rcases List.mem_cons.mp hf' with rfl | hf'
    · exact ⟨by rw [hgr, hgt]; exact hf, hok⟩
    · exact (h.frameOK f' (List.mem_cons_of_mem _ hf')).mono hd
  · obtain ⟨rfl, rfl⟩ : g = f' ∧ p = k := by simpa using he
    rw [hcore]
    exact hslot dyn notify n i todo hph
  · refine ⟨hstarts ▸ List.nodup_cons.mpr ⟨hnew, h.good.nodup⟩, by rw [hcore]; exact h.good.slots,
      fun m hm => ?_, fun r hr => ?_, fun m hm r dyn' cmd' he hr => ?_⟩
    · rw [hw] at hm
      rcases List.mem_cons.mp hm with rfl | hm
      · exact h.good.slots
      · exact h.good.moments m hm
    · rw [hstarts] at hr
      rcases List.mem_cons.mp hr with rfl | hr
      · exact List.mem_map_of_mem (d.ruleFor_mem hf)
      · exact h.good.known r hr
    · rw [hw] at hm
      rcases List.mem_cons.mp hm with rfl | hm
      · obtain ⟨hrt, rfl, -⟩ : f.rule.target = r.target ∧ dyn = dyn' ∧ _ := by simpa using he
        obtain rfl := d.rule_eq_of_target (d.ruleFor_mem hf) hr (d.target_ne_nil hf) hrt
        refine ⟨hall.done, h.not_done List.mem_cons_self, fun j hj he => ?_,
          fun s hs hd => h.settled s hs (Or.inl hd)⟩
        have hrun := h.job_running j hj
        rw [he] at hrun
        rcases h.stacked _ List.mem_cons_self with hs | hs <;> rw [hrun] at hs <;> cases hs
      · exact h.good.ready m hm r dyn' cmd' he hr

/-- `build` for a name that is not a target. -/
theorem Inv.source {t : Name} {n : Option RuleTarget} (h : Inv d root (.call t n :: p) w)
    (hr : d.ruleFor t = none) :
    wp (buildSource t) (fun st => Inv d root (.ret t st :: p)) (fun _ _ => False) w := by
  have hcalled : CalledFrom root t n p := by
    cases h.shape with
    | call h => exact h
  -- only the status of `t` can have been set, and only once
  have hinv : ∀ w' : World, ∀ st : Status, w'.rulestatus = w.rulestatus →
      (∀ t', w.targetstatus t' = some .uptodate → w'.targetstatus t' = some .uptodate) →
      (∀ t' st', w'.targetstatus t' = some st' → st' = .uptodate ∨ st' = .failed) →
      w'.targetstatus t = some st → w'.current = w.current →
      w'.running = w.running → w'.trace = w.trace → Inv d root (.ret t st :: p) w' := by
    intro w' st hs ht hsrc hst hc hrun htr
    have hd : ∀ t, d.Done w.toCore t → d.Done w'.toCore t := fun t =>
      Desc.Done.mono (fun r hr => by rwa [hs]) ht
    have hret : Returned d w' t st := by
      rcases hsrc t st hst with rfl | rfl
      · exact ⟨rfl, fun _ => (Desc.done_source hr).mpr hst⟩
      · exact ⟨rfl, fun h => nomatch h⟩
    exact
      { shape := .ret hcalled
        current := hc.trans h.current
        nodup := h.nodup
        checking := hs ▸ h.checking
        stacked := hs ▸ h.stacked
        targetstatus := hsrc
        job_running := by rw [hrun, hs]; exact h.job_running
        running_job := by rw [hrun, hs]; exact h.running_job
        job_nodup := by rw [hrun]; exact h.job_nodup
        job_awaited := by rw [hrun, hs]; exact h.job_awaited
        started := by rw [htr, hs]; exact h.started
        settled := fun r hr hst t ht => hd t (h.settled r hr (hs ▸ hst) t ht)
        frameOK := fun f hf => (h.frameOK f hf).mono hd
        slot := fun f k dyn notify n i todo he hph => absurd he (by simp)
        returned := fun t' st' k he => by
          obtain ⟨⟨rfl, rfl⟩, rfl⟩ : (t = t' ∧ st = st') ∧ p = k := by simpa using he
          exact hret
        good := h.good.extends (htr ▸ .refl _ _) (hrun ▸ h.good.slots) }
  unfold buildSource
  rw [wp_bind, wp_get]
  split
  · next ret hret => exact hinv w ret rfl (fun _ h => h) h.targetstatus hret rfl rfl rfl
  · next hnone =>
    rw [wp_bind, wp_modify]
    refine hinv _ _ rfl (fun t' ht' => ?_) (fun t' st' ht' => ?_) (Function.update_self ..) rfl rfl
      rfl
    · have hne : t' ≠ t := fun he => by rw [he, hnone] at ht'; cases ht'
      exact (Function.update_of_ne hne ..).trans ht'
    · by_cases he : t' = t
      · subst he
        have := (Function.update_self ..).symm.trans ht'
        split at this <;> simp_all
      · exact h.targetstatus t' st' ((Function.update_of_ne he ..).symm.trans ht')

end

end Tmake
