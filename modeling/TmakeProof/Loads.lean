import TmakeProof.History
import TmakeProof.Make

/-! # The `Load` files come first

Before a requested target is built, and before anything is deleted as an orphan,
the `Load` files are up to date.  The properties of this module are read off the
history of a run: `loading` and `loaded` say at each moment which `Load` files
matter and which of them have been found up to date, and `InOrder` what a moment
demands of the moments before it.

The loop over the `Load` files is left when one of them fails.  If the failure has
not been reported, tmake exits; if it has, the loop is only left, and what follows
it happens all the same.  `Plain` rules this out, together with the dry run in
which a `Load` file would have been built.
-/
namespace Tmake
open Weakest

/-- The description whose `Load` files have been built, or are being built, since the last
requested target. -/
def loading : List Moment → Option Desc
  | [] => none
  | m :: earlier =>
    match m.event with
    | .loads d => some d
    | .request .. => none
    | _ => loading earlier

/-- The `Load` files that have been found up to date since then. -/
def loaded : List Moment → List Name
  | [] => []
  | m :: earlier =>
    match m.event with
    | .loads _ => []
    | .request .. => []
    | .loaded t .uptodate => t :: loaded earlier
    | _ => loaded earlier

/-- The `Load` file is up to date, or it is not a target and nobody cares. -/
def Desc.LoadReady (d : Desc) (earlier : List Moment) (file : Name × Bool) : Prop :=
  file.1 ∈ loaded earlier ∨ file.2 = true ∧ d.isTarget file.1 = false

def LoadsReady (earlier : List Moment) : Prop :=
  ∃ d, loading earlier = some d ∧ ∀ file ∈ d.projfiles, d.LoadReady earlier file

def NoLoadFailed (earlier : List Moment) : Prop := ∀ m ∈ earlier, ∀ t, m.event ≠ .loaded t .failed

/-- The rule is one of a `Load` file, or is needed by one. -/
def Desc.LoadReaches (d : Desc) (ruletarget : RuleTarget) : Prop :=
  ∃ file ∈ d.projfiles, ∃ r, d.Reaches file.1 r ∧ r.target = ruletarget

/-- Something is deleted, built or run. -/
def Event.acts : Event → Bool
  | .orphans _ | .request .. | .start .. => true
  | _ => false

/-- What a moment demands of those before it. -/
structure InOrder (earlier : List Moment) (m : Moment) : Prop where
  ready : (∃ l, m.event = .orphans l) ∨ (∃ t, m.event = .request t false) → LoadsReady earlier
  unfailed : m.event.acts = true → NoLoadFailed earlier
  needed : ∀ r dyn cmd, m.event = .start r dyn cmd → ∀ d, loading earlier = some d →
    d.LoadReaches r

def Ordered (l : List Moment) : Prop :=
  ∀ later m earlier, l = later ++ m :: earlier → InOrder earlier m

/-- The moment at which a `Load` file has been built: if it failed, nothing has been reported
yet, and it was not built in a dry run. -/
def Moment.Plain (norun : Nat) (m : Moment) : Prop :=
  ∀ t st, m.event = .loaded t st →
    (st = .failed → m.core.exitcode = 0) ∧ (st = .built → norun = 0)

def AllPlain (norun : Nat) (l : List Moment) : Prop := ∀ m ∈ l, m.Plain norun

/-! ## Histories -/

section
variable {norun : Nat} {m : Moment} {l l' : List Moment}

theorem InOrder.of_inert (h : m.event.acts = false) : InOrder l m := by
  constructor
  · rintro (⟨_, he⟩ | ⟨_, he⟩) <;> rw [he] at h <;> cases h
  · intro he
    rw [he] at h
    cases h
  · intro _ _ _ he
    rw [he] at h
    cases h

theorem Ordered.nil : Ordered [] := fun later m earlier h => by simp at h

theorem Ordered.cons (hm : InOrder l m) (hl : Ordered l) : Ordered (m :: l) := by
  intro later m' earlier h
  cases later with
  | nil =>
    obtain ⟨rfl, rfl⟩ := List.cons.inj h
    exact hm
  | cons m'' later => exact hl later m' earlier (List.cons.inj h).2

theorem Ordered.append_inert (hl : Ordered l) (h : ∀ m ∈ l', m.event.acts = false) :
    Ordered (l' ++ l) := by
  induction l' with
  | nil => exact hl
  | cons m l' ih =>
    rw [List.forall_mem_cons] at h
    exact (ih h.2).cons (.of_inert h.1)

theorem AllPlain.of_append (l' : List Moment) (h : AllPlain norun (l' ++ l)) :
    AllPlain norun l := fun m hm => h m (List.mem_append_right _ hm)

theorem AllPlain.of_cons (h : AllPlain norun (m :: l)) : AllPlain norun l :=
  AllPlain.of_append [m] h

theorem NoLoadFailed.cons (hm : ∀ t, m.event ≠ .loaded t .failed) (h : NoLoadFailed l) :
    NoLoadFailed (m :: l) := fun m' hm' => (List.mem_cons.mp hm').elim (fun he => he ▸ hm) (h m')

/-- What the engine may add while the `Load` files of `o` matter. -/
def Event.Inner (o : Option Desc) (e : Event) : Prop :=
  e.ofMake = false ∧ ∀ r dyn cmd, e = .start r dyn cmd → ∀ d, o = some d → d.LoadReaches r

theorem loading_cons (h : m.event.ofMake = false) : loading (m :: l) = loading l := by
  rw [loading]
  split
  · next he => rw [he] at h; cases h
  · next he => rw [he] at h; cases h
  · rfl

theorem loaded_cons (h : m.event.ofMake = false) : loaded (m :: l) = loaded l := by
  rw [loaded]
  split
  · next he => rw [he] at h; cases h
  · next he => rw [he] at h; cases h
  · next he => rw [he] at h; cases h
  · rfl

theorem loading_append (h : ∀ m ∈ l', m.event.ofMake = false) :
    loading (l' ++ l) = loading l ∧ loaded (l' ++ l) = loaded l := by
  induction l' with
  | nil => exact ⟨rfl, rfl⟩
  | cons m l' ih =>
    rw [List.forall_mem_cons] at h
    obtain ⟨h1, h2⟩ := ih h.2
    exact ⟨(loading_cons h.1).trans h1, (loaded_cons h.1).trans h2⟩

/-- Moments of the engine keep the history in order, as long as no `Load` file has failed. -/
theorem ordered_append (hinner : ∀ m ∈ l', m.event.Inner (loading l)) (hl : Ordered l)
    (hn : NoLoadFailed l) : Ordered (l' ++ l) ∧ NoLoadFailed (l' ++ l) := by
  induction l' with
  | nil => exact ⟨hl, hn⟩
  | cons m l' ih =>
    rw [List.forall_mem_cons] at hinner
    obtain ⟨⟨hm, hstart⟩, hl'⟩ := hinner
    obtain ⟨hordered, hnone⟩ := ih hl'
    have hload := (loading_append (l := l) fun m' hm' => (hl' m' hm').1).1
    refine ⟨hordered.cons ⟨?_, fun _ => hnone, fun r dyn cmd he d hd => ?_⟩, hnone.cons ?_⟩
    · rintro (⟨_, he⟩ | ⟨_, he⟩) <;> rw [he] at hm <;> cases hm
    · exact hstart r dyn cmd he d (hload ▸ hd)
    · intro t he
      rw [he] at hm
      cases hm

end

/-! ## The loop over the `Load` files -/

/-- While a run goes on: if its history is plain, it is in order, and no `Load` file has
failed. -/
structure Steady (P : Project) (s : Make) : Prop where
  norun : s.desc.norun = P.norun
  sourced : Sourced s.world
  ordered : AllPlain P.norun s.world.history →
    Ordered s.world.history ∧ NoLoadFailed s.world.history

/-- When a run has stopped. -/
def Halted (P : Project) (s : Make) : Prop :=
  AllPlain P.norun s.world.history → Ordered s.world.history

/-- The `Load` files are as they were. -/
structure SameLoads (s s' : Make) : Prop where
  desc : s'.desc = s.desc
  loading : loading s'.world.history = loading s.world.history
  loaded : loaded s'.world.history = loaded s.world.history
  plain : ∀ {norun}, AllPlain norun s'.world.history → AllPlain norun s.world.history

variable {P : Project} {E : Env} {n : Nat} {s : Make}

/-- A procedure of the engine. -/
theorem engine_steady {α : Type} {m : Desc → M α} (hs : Steady P s)
    (hm : Under (Adds (Event.Inner (loading s.world.history))) (m s.desc)) :
    wp (engine m) (fun _ s' => Steady P s' ∧ SameLoads s s') (fun _ => Halted P) s := by
  rw [wp_engine]
  have hstep : ∀ w, Adds (Event.Inner (loading s.world.history)) s.world w →
      Steady P { s with world := w } ∧ SameLoads s { s with world := w } := by
    intro w h
    obtain ⟨l, hl, hinner⟩ := h.history
    obtain ⟨hload, hloaded⟩ := loading_append (l := s.world.history) fun m hm => (hinner m hm).1
    refine ⟨⟨hs.norun, h.sourced hs.sourced, fun hplain => ?_⟩,
      ⟨rfl, by rw [hl, hload], by rw [hl, hloaded], fun h => ?_⟩⟩
    · change AllPlain P.norun w.history at hplain
      rw [hl] at hplain
      obtain ⟨hordered, hnone⟩ := hs.ordered (hplain.of_append _)
      change Ordered w.history ∧ NoLoadFailed w.history
      rw [hl]
      exact ordered_append hinner hordered hnone
    · change AllPlain _ w.history at h
      rw [hl] at h
      exact h.of_append _
  exact (hm s.world).imp (fun _ w h => hstep w h)
    fun _ w h hplain => ((hstep w h.2).1.ordered hplain).1

theorem engine_inner {d : Desc} {T : Name → Prop} {o : Option Desc}
    (hT : ∀ t r, d.Within T t r → ∀ d', o = some d' → d'.LoadReaches r.target) :
    Respected d E T (Adds (Event.Inner o)) :=
  engine_adds (fun e he hs => ⟨he, fun _ _ _ h => by rw [h] at hs; cases hs⟩)
    fun t r dyn cmd hr => ⟨rfl, fun r' _ _ h d' hd' => by
      obtain ⟨rfl, -, -⟩ : r.target = r' ∧ dyn = _ ∧ cmd = _ := by injection h; exact ⟨‹_›, ‹_›, ‹_›⟩
      exact hT t r hr d' hd'⟩

/-- A moment of `make`. -/
theorem Steady.note (hs : Steady P s) {e : Event}
    (he : AllPlain P.norun s.world.history → NoLoadFailed s.world.history →
      InOrder s.world.history ⟨e, s.world.toCore⟩)
    (hfail : (⟨e, s.world.toCore⟩ : Moment).Plain P.norun → ∀ t, e ≠ .loaded t .failed) :
    Steady P (s.note e) := by
  refine ⟨hs.norun, hs.sourced, fun hplain => ?_⟩
  rw [history_note] at hplain ⊢
  obtain ⟨hordered, hnone⟩ := hs.ordered hplain.of_cons
  exact ⟨hordered.cons (he hplain.of_cons hnone), hnone.cons (hfail (hplain _ List.mem_cons_self))⟩

/-- Giving up. -/
theorem tclError_halted {α : Type} (hs : Halted P s) {Q : α → Make → Prop} :
    wp (engine fun _ => tclError : MakeM α) Q (fun _ => Halted P) s := by
  rw [wp_engine]
  exact fun hplain => (hs hplain.of_cons).cons (.of_inert rfl)

theorem fatal_halted {α : Type} (hs : Halted P s) (why : Why) {Q : α → Make → Prop} :
    wp (engine fun d => buildFatalError d why : MakeM α) Q (fun _ => Halted P) s := by
  rw [wp_engine]
  exact fun hplain => (hs hplain.of_cons).cons (.of_inert rfl)

theorem Steady.halted (hs : Steady P s) : Halted P s := fun hplain => (hs.ordered hplain).1

/-- The names that building `t` can come to. -/
def Desc.Asks (d : Desc) (t u : Name) : Prop := u = t ∨ ∃ r, d.Reaches t r ∧ r.NeedsName u

theorem Desc.Asks.reaches {d : Desc} {t u : Name} {r : Rule} (h : d.Asks t u)
    (hr : d.ruleFor u = some r) : d.Reaches t r := by
  rcases h with rfl | ⟨r', hr', hneeds⟩
  · exact ⟨r, hr, .refl⟩
  · exact hr'.needs hneeds hr

theorem Desc.closed_asks (d : Desc) (t : Name) : d.Closed (d.Asks t) := fun _ r hu hr _ hneeds =>
  .inr ⟨r, hu.reaches hr, hneeds⟩

/-- Building a `Load` file. -/
theorem buildLoad_inner {d : Desc} {file : Name × Bool} (hf : file ∈ d.projfiles) :
    Under (Adds (Event.Inner (some d))) (buildSync d E n file.1) := by
  have hT : ∀ t r, d.Within (d.Asks file.1) t r → ∀ d', some d = some d' →
      d'.LoadReaches r.target := by
    rintro t r ⟨ht, hr⟩ _ ⟨⟩
    exact ⟨file, hf, r, ht.reaches hr, rfl⟩
  exact (engine_inner hT).buildSync (d.closed_asks _) n (.inl rfl)

/-- **The loop over the `Load` files.**  When it ends without asking for a reload, all of them
are up to date. -/
theorem loadPass_spec (files : List (Name × Bool)) (reload : Bool) (hs : Steady P s)
    (hl : loading s.world.history = some s.desc) (hsub : ∀ file ∈ files, file ∈ s.desc.projfiles)
    (hready : AllPlain P.norun s.world.history → reload = false → ∀ file ∈ s.desc.projfiles,
      file ∈ files ∨ s.desc.LoadReady s.world.history file) :
    wp (loadPass E n files reload) (fun reload' s' => Steady P s' ∧
        (AllPlain P.norun s'.world.history → reload' = false → LoadsReady s'.world.history))
      (fun _ => Halted P) s := by
  induction files generalizing s reload with
  | nil =>
    refine ⟨hs, fun hplain hreload => ⟨s.desc, hl, fun file hfile => ?_⟩⟩
    exact (hready hplain hreload file hfile).resolve_left List.not_mem_nil
  | cons file files ih =>
    rw [List.forall_mem_cons] at hsub
    unfold loadPass
    rw [wp_bind, wp_get, wp_ite]
    refine ⟨fun hskip => ih reload hs hl hsub.2 fun hplain hreload file' hfile' => ?_, fun _ => ?_⟩
    · rcases hready hplain hreload file' hfile' with hmem | hdone
      · rcases List.mem_cons.mp hmem with rfl | hmem
        · exact .inr (.inr (by simpa using hskip))
        · exact .inl hmem
      · exact .inr hdone
    rw [wp_bind]
    have hsync : wp (engine fun d => buildSync d E n file.1) (fun st _ => st.final)
        (fun _ _ => True) s := by
      rw [wp_engine]
      exact buildSync_final n file.1 hs.sourced
    have hstep := engine_steady (m := fun d => buildSync d E n file.1) hs
      (hl ▸ buildLoad_inner hsub.1)
    refine (hstep.and hsync).imp (fun st s₁ h => ?_) fun _ _ h => h.1
    obtain ⟨⟨hs₁, hsame⟩, hst⟩ := h
    rw [wp_bind, wp_emit, wp_ite]
    refine ⟨?_, fun hfail => ?_⟩
    · rintro rfl
      rw [wp_bind, wp_get, wp_ite]
      refine ⟨fun _ => fatal_halted (fun hplain => ?_) _, fun hcode => ?_⟩
      · exact (hs₁.halted hplain.of_cons).cons (.of_inert rfl)
      · -- the failure was reported before, so that this history is not plain
        have hnot : ¬AllPlain P.norun (s₁.note (.loaded file.1 .failed)).world.history := fun h =>
          hcode ((h _ List.mem_cons_self _ _ rfl).1 rfl)
        exact ⟨⟨hs₁.norun, hs₁.sourced, fun h => absurd h hnot⟩, fun h => absurd h hnot⟩
    · have hs₂ : Steady P (s₁.note (.loaded file.1 st)) :=
        hs₁.note (fun _ _ => .of_inert rfl) fun _ t he => hfail (by injection he)
      refine ih _ hs₂ ?_ ?_ ?_
      · rw [history_note, loading, hsame.loading, hl]
        exact congrArg some hsame.desc.symm
      · intro file' hfile'
        rw [Make.note, hsame.desc]
        exact hsub.2 file' hfile'
      · intro hplain hreload file' hfile'
        obtain ⟨hrel, hbuilt⟩ := Bool.or_eq_false_iff.mp hreload
        have hplain₁ := hplain.of_cons
        have huptodate : st = .uptodate := by
          rcases hst with h | h | h
          · exact h
          · have hnorun := (hplain _ List.mem_cons_self _ _ rfl).2 h
            have hdesc : s.desc.norun = 0 := hs.norun.trans hnorun
            simp [h, hdesc] at hbuilt
          · exact absurd h hfail
        subst huptodate
        have hloaded : loaded (s₁.note (.loaded file.1 .uptodate)).world.history =
            file.1 :: loaded s.world.history := by
          rw [history_note, loaded, hsame.loaded]
        have hmem : file' ∈ s.desc.projfiles := hsame.desc ▸ hfile'
        rcases hready (hsame.plain hplain₁) hrel file' hmem with hmem | hdone | hskip
        · rcases List.mem_cons.mp hmem with rfl | hmem
          · exact .inr (.inl (hloaded ▸ List.mem_cons_self))
          · exact .inl hmem
        · exact .inr (.inl (hloaded ▸ List.mem_cons_of_mem _ hdone))
        · exact .inr (.inr (hsame.desc.symm ▸ hskip))

/-- A change of the state that is not remembered. -/
theorem Steady.world (hs : Steady P s) {w : World} (hh : w.history = s.world.history)
    (ht : w.targetstatus = s.world.targetstatus) : Steady P { s with world := w } where
  norun := hs.norun
  sourced := fun t st h => hs.sourced t st (ht ▸ h)
  ordered := by
    change AllPlain P.norun w.history → Ordered w.history ∧ NoLoadFailed w.history
    rw [hh]
    exact hs.ordered

theorem loadFiles_spec (hs : Steady P s) :
    wp (loadFiles E n) (fun reload s' => Steady P s' ∧
        (AllPlain P.norun s'.world.history → reload = false → LoadsReady s'.world.history))
      (fun _ => Halted P) s := by
  unfold loadFiles setIgnoreforce
  rw [wp_bind, wp_engine, wp_modify, wp_bind, wp_get, wp_bind, wp_emit]
  have hs₀ : Steady P { s with world := { s.world with ignoreforce := true } } :=
    hs.world rfl rfl
  have hs₁ := hs₀.note (e := .loads s.desc) (fun _ _ => .of_inert rfl) fun _ _ => nofun
  rw [wp_bind]
  refine (loadPass_spec s.desc.projfiles false hs₁ rfl (fun _ h => h)
    fun _ _ _ h => .inl h).imp (fun reload s₂ h => ?_) fun _ _ h => h
  obtain ⟨hs₂, hready⟩ := h
  rw [wp_bind, wp_engine, wp_modify]
  exact ⟨hs₂.world rfl rfl, hready⟩

theorem reload_spec (hs : Steady P s) :
    wp (reload P) (fun _ s' => Steady P s') (fun _ => Halted P) s := by
  have hs₁ : Steady P (s.note .reloaded) :=
    hs.note (fun _ _ => .of_inert rfl) fun _ _ => nofun
  have hs₂ : Steady P { desc := s.desc, world := (s.note .reloaded).world.restore } :=
    ⟨hs.norun, nofun, hs₁.ordered⟩
  unfold reload loadBuildDescription
  rw [wp_bind, wp_engine]
  change wp _ _ _ (⟨s.desc, (s.note .reloaded).world.restore⟩ : Make)
  rw [wp_bind, wp_get, wp_bind, wp_engine]
  unfold ask
  rw [wp_modifyGet]
  have hs₃ : Steady P (⟨s.desc, { (s.note .reloaded).world.restore with
      tick := (s.note .reloaded).world.restore.tick + 1 }⟩ : Make) := hs₂.world rfl rfl
  dsimp only
  cases P.parse _ _ with
  | none => exact tclError_halted hs₃.halted
  | some d => exact ⟨rfl, hs₃.sourced, hs₃.ordered⟩

theorem loadLoop_spec (left : Nat) (hs : Steady P s) :
    wp (loadLoop P E n left) (fun _ s' => Steady P s' ∧
        (AllPlain P.norun s'.world.history → LoadsReady s'.world.history))
      (fun _ => Halted P) s := by
  induction left generalizing s with
  | zero =>
    unfold loadLoop
    rw [wp_bind]
    refine (loadFiles_spec hs).imp (fun reload s₁ h => ?_) fun _ _ h => h
    rw [wp_ite]
    exact ⟨fun _ => fatal_halted h.1.halted _,
      fun hreload => ⟨h.1, fun hplain => h.2 hplain (by simpa using hreload)⟩⟩
  | succ left ih =>
    unfold loadLoop
    rw [wp_bind]
    refine (loadFiles_spec hs).imp (fun reload s₁ h => ?_) fun _ _ h => h
    rw [wp_ite]
    refine ⟨fun _ => ?_, fun hreload => ⟨h.1, fun hplain => h.2 hplain (by simpa using hreload)⟩⟩
    rw [wp_bind]
    exact (reload_spec h.1).imp (fun _ _ h => ih h) fun _ _ h => h

/-! ## The requested targets -/

theorem LoadsReady.cons {m : Moment} {l : List Moment} (h : LoadsReady l)
    (hm : ∃ l, m.event = .orphans l) : LoadsReady (m :: l) := by
  obtain ⟨l', hm⟩ := hm
  obtain ⟨d, hd, hready⟩ := h
  refine ⟨d, ?_, fun file hfile => ?_⟩
  · rw [loading, hm]
    exact hd
  · unfold Desc.LoadReady
    rw [loaded, hm]
    exact hready file hfile

theorem doDeleteOrphans_spec (orphans : Desc → List Name) (hs : Steady P s)
    (hready : AllPlain P.norun s.world.history → LoadsReady s.world.history) :
    wp (engine fun d => doDeleteOrphans d E (orphans d))
      (fun _ s' => Steady P s' ∧
        (AllPlain P.norun s'.world.history → LoadsReady s'.world.history))
      (fun _ => Halted P) s := by
  rw [wp_engine]
  unfold doDeleteOrphans
  rw [wp_ite]
  refine ⟨fun _ => ⟨hs, hready⟩, fun _ => ?_⟩
  let e : Event := .orphans ((orphans s.desc).map s.desc.fileBuild)
  have hs₁ : Steady P (s.note e) := hs.note
    (fun hplain hnone => ⟨fun _ => hready hplain, fun _ => hnone, fun _ _ _ => nofun⟩)
    fun _ _ => nofun
  rw [wp_bind]
  change wp (osCheck E >>= _) _ _ (s.note e).world
  unfold osCheck ask
  rw [wp_bind, wp_bind, wp_modifyGet, wp_ite]
  refine ⟨fun _ hplain => ?_, fun _ => ⟨⟨hs.norun, hs.sourced, hs₁.ordered⟩, fun hplain => ?_⟩⟩
  · exact (hs₁.halted hplain.of_cons).cons (.of_inert rfl)
  · exact (hready (AllPlain.of_cons hplain)).cons ⟨_, rfl⟩

/-- Building a requested target: no `Load` files matter any more. -/
theorem buildTarget_inner (d : Desc) (target : Name) :
    Under (Adds (Event.Inner none)) (buildSync d E n target) := by
  have h : Respected d E (fun _ => True) (Adds (Event.Inner none)) :=
    engine_inner fun _ _ _ _ h => by cases h
  exact h.buildSync d.closed_all n trivial

theorem resetStatuses_spec (hs : Steady P s) :
    wp (engine fun d => resetStatuses d) (fun _ s' => Steady P s') (fun _ => Halted P) s := by
  rw [wp_engine]
  unfold resetStatuses
  rw [wp_bind, wp_get, wp_ite]
  exact ⟨fun _ => hs.world rfl rfl, fun _ => hs⟩

theorem targetFailed_spec (hs : Steady P s) :
    wp (engine fun d => targetFailed d) (fun _ s' => Steady P s') (fun _ => Halted P) s := by
  have hhalted : ∀ w : World, w.history = s.world.history →
      Halted P { s with world := { w with trace := ⟨.stopped, w.toCore⟩ :: w.trace } } := by
    intro w hw hplain
    change AllPlain P.norun (_ :: w.history) at hplain
    change Ordered (_ :: w.history)
    rw [hw] at hplain ⊢
    exact (hs.halted hplain.of_cons).cons (.of_inert rfl)
  rw [wp_engine]
  unfold targetFailed buildErrorIf
  rw [wp_bind, wp_get, wp_bind, wp_ite]
  refine ⟨fun _ => ?_, fun _ => ?_⟩
  · unfold buildError
    rw [wp_modify, wp_ite]
    exact ⟨fun _ => hhalted _ rfl, fun _ => hs.world rfl rfl⟩
  · rw [wp_pure, wp_ite]
    exact ⟨fun _ => hhalted _ rfl, fun _ => hs⟩

theorem prepareTarget_spec (target : Name) (hs : Steady P s) :
    wp (prepareTarget P E n target) (fun clean s' => Steady P s' ∧
        (AllPlain P.norun s'.world.history → clean = false → LoadsReady s'.world.history))
      (fun _ => Halted P) s := by
  unfold prepareTarget
  rw [wp_bind, wp_engine, wp_modify, wp_bind, wp_get, wp_ite]
  have hs₁ : Steady P { s with world := { s.world with addtargets := [] } } := hs.world rfl rfl
  refine ⟨fun _ => ?_, fun _ => ?_⟩
  · rw [wp_bind, wp_engine, wp_modify]
    exact ⟨hs₁.world rfl rfl, nofun⟩
  · rw [wp_bind]
    refine (loadLoop_spec 5 hs₁).imp (fun _ s₂ h => ?_) fun _ _ h => h
    rw [wp_bind, wp_get, wp_bind]
    exact (doDeleteOrphans_spec (fun d => getOrphanTargets d _) h.1 h.2).imp (fun _ _ h => ⟨h.1, fun hplain _ => h.2 hplain⟩)
      fun _ _ h => h

theorem makeTarget_spec (target : Name) (hs : Steady P s) :
    wp (makeTarget P E n target) (fun _ s' => Steady P s') (fun _ => Halted P) s := by
  unfold makeTarget
  rw [wp_bind]
  refine (prepareTarget_spec target hs).imp (fun clean s₁ h => ?_) fun _ _ h => h
  obtain ⟨hs₁, hready⟩ := h
  have hs₂ : Steady P (s₁.note (.request target clean)) := by
    refine hs₁.note (fun hplain hnone => ⟨?_, fun _ => hnone, fun _ _ _ => nofun⟩) fun _ _ => nofun
    rintro (⟨_, he⟩ | ⟨t, he⟩)
    · cases he
    · exact hready hplain (by injection he)
  rw [wp_bind, wp_emit, wp_bind]
  refine (engine_steady (m := fun d => buildSync d E n target) hs₂
    (buildTarget_inner _ target)).imp (fun status s₃ h => ?_) fun _ _ h => h
  rw [wp_ite]
  refine ⟨fun _ => ?_, fun _ => ?_⟩ <;> rw [wp_bind]
  · exact (targetFailed_spec h.1).imp (fun _ _ h => h) fun _ _ h => h
  · exact (resetStatuses_spec h.1).imp (fun _ _ h => h) fun _ _ h => h

theorem makeLoop_spec (k : Nat) (targets : List Name) (hs : Steady P s) :
    wp (makeLoop P E n k targets) (fun _ => Halted P) (fun _ => Halted P) s := by
  induction k generalizing targets s with
  | zero =>
    cases targets with
    | nil => exact hs.halted
    | cons target targets => exact hs.halted
  | succ k ih =>
    cases targets with
    | nil => exact hs.halted
    | cons target targets =>
      unfold makeLoop
      rw [wp_bind, wp_get, wp_ite]
      refine ⟨fun _ => hs.halted, fun _ => ?_⟩
      rw [wp_bind]
      refine (makeTarget_spec target hs).imp (fun status s₁ hs₁ => ?_) fun _ _ h => h
      rw [wp_ite]
      refine ⟨fun _ => hs₁.halted, fun _ => ?_⟩
      rw [wp_bind, wp_get]
      exact ih _ hs₁

/-- `Load conf; target conf -do {run false}; target a -do touch`. -/
def loadsConf : Desc where
  rules := [{ target := ["conf"], doList := [⟨[.lit "run false"]⟩] },
    { target := ["a"], doList := [⟨[.lit "touch"]⟩] }]
  disjoint := by decide
  projfiles := [("conf", false)]

/-- `Load conf; target a -do touch`, where `conf` is a source file. -/
def loadsSource : Desc where
  rules := [{ target := ["a"], doList := [⟨[.lit "touch"]⟩] }]
  disjoint := by decide
  projfiles := [("conf", false)]

/-- `run false` fails and says so, `touch` writes the targets of its rule. -/
def falseFails : Env where
  exec tick r part _ :=
    match r, part with
    | ["conf"], .script _ => { run := true, rc := 1, reported := true }
    | r, .script _ => { puts := r.map fun f => (fileJoin "objdir" f, some (.file (tick + 1) f)) }
    | _, _ => {}
  pick := id

/-- `conf` is there, and `c` was a target once. -/
def confDisk : Disk where
  fs p := if p ∈ ["conf", "objdir/c"] then some (.file 1 p) else none
  makecache := some { file := AList.insert "c" 1 ∅ }

def Event.loadedWell : Event → Bool
  | .loaded _ .failed | .loaded _ .built => false
  | _ => true

theorem allPlain_of_loadedWell {norun : Nat} {l : List Moment}
    (h : (l.all fun m => m.event.loadedWell) = true) : AllPlain norun l := by
  intro m hm t st he
  have hwell := List.all_eq_true.mp h m hm
  rw [he] at hwell
  constructor <;> rintro rfl <;> cases hwell

end Tmake
