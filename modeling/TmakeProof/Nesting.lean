import Mathlib.Data.List.Basic

/-! # Nested conditionals

A text with conditionals is a sequence of tokens: pieces of text, and marks that open a
conditional, begin its second branch or close it.  A **block** is such a sequence with its
nesting.  A stack machine that remembers a value for each open conditional selects pieces
of text; `Block.run_eq_select_iff` says for which blocks it selects what the nesting says,
and `ended_mem_run` for which sequences it comes to the end.
-/
namespace Nesting
universe u v w
variable {χ : Type u} {τ : Type v} {V : Type w}

inductive Token (χ : Type u) (τ : Type v) where
  | text (t : τ)
  | opens (c : χ)
  | middle
  | close

/-- Texts and conditionals, with one branch or two. -/
inductive Block (χ : Type u) (τ : Type v) where
  | nil
  | text (t : τ) (rest : Block χ τ)
  | cond (c : χ) (first rest : Block χ τ)
  | branch (c : χ) (first second rest : Block χ τ)

def Block.tokens : Block χ τ → List (Token χ τ)
  | .nil => []
  | .text t rest => .text t :: rest.tokens
  | .cond c first rest => .opens c :: (first.tokens ++ .close :: rest.tokens)
  | .branch c first second rest =>
    .opens c :: (first.tokens ++ .middle :: (second.tokens ++ .close :: rest.tokens))

/-! ## Well-nested sequences -/

/-- The open conditionals after a sequence, innermost first: `true` in the second branch.  Fails
at a mark that belongs to no open conditional, or begins a third branch. -/
def read : List Bool → List (Token χ τ) → Option (List Bool)
  | st, [] => some st
  | st, .text _ :: ts => read st ts
  | st, .opens _ :: ts => read (false :: st) ts
  | false :: st, .middle :: ts => read (true :: st) ts
  | _ :: st, .close :: ts => read st ts
  | _, _ => none

/-- Each mark belongs to a conditional, and each conditional is closed. -/
def WellNested (ts : List (Token χ τ)) : Prop := read [] ts = some []

theorem Block.read_tokens (b : Block χ τ) (st : List Bool) (ts : List (Token χ τ)) :
    read st (b.tokens ++ ts) = read st ts := by
  induction b generalizing st ts with
  | nil => rfl
  | text t rest ih => exact ih st ts
  | cond c first rest ihfirst ihrest =>
    rw [tokens, List.cons_append, read, List.append_assoc, ihfirst, List.cons_append, read, ihrest]
  | branch c first second rest ihfirst ihsecond ihrest =>
    rw [tokens, List.cons_append, read, List.append_assoc, ihfirst, List.cons_append, read,
      List.append_assoc, ihsecond, List.cons_append, read, ihrest]

/-- What is left of a block while these conditionals are open. -/
def Remains : List Bool → List (Token χ τ) → Prop
  | [], ts => ∃ b : Block χ τ, b.tokens = ts
  | true :: st, ts => ∃ (b : Block χ τ) (ts' : List (Token χ τ)),
      ts = b.tokens ++ .close :: ts' ∧ Remains st ts'
  | false :: st, ts => ∃ (b : Block χ τ) (ts' : List (Token χ τ)),
      (ts = b.tokens ++ .close :: ts' ∧ Remains st ts') ∨
      ∃ b' : Block χ τ, ts = b.tokens ++ .middle :: (b'.tokens ++ .close :: ts') ∧ Remains st ts'

/-- A text, or a whole conditional, before what is left. -/
theorem Remains.cons {st : List Bool} {ts : List (Token χ τ)} (f : Block χ τ → Block χ τ)
    (pre : List (Token χ τ)) (hf : ∀ b, (f b).tokens = pre ++ b.tokens) (h : Remains st ts) :
    Remains st (pre ++ ts) := by
  match st, h with
  | [], ⟨b, hb⟩ => exact ⟨f b, by rw [hf, hb]⟩
  | true :: st, ⟨b, ts', hts, h⟩ => exact ⟨f b, ts', by rw [hf, hts, List.append_assoc], h⟩
  | false :: st, ⟨b, ts', .inl ⟨hts, h⟩⟩ =>
    exact ⟨f b, ts', .inl ⟨by rw [hf, hts, List.append_assoc], h⟩⟩
  | false :: st, ⟨b, ts', .inr ⟨b', hts, h⟩⟩ =>
    exact ⟨f b, ts', .inr ⟨b', by rw [hf, hts, List.append_assoc], h⟩⟩

theorem remains_of_read {st : List Bool} {ts : List (Token χ τ)} (h : read st ts = some []) :
    Remains st ts := by
  induction ts generalizing st with
  | nil =>
    cases h
    exact ⟨.nil, rfl⟩
  | cons t ts ih =>
    cases t with
    | text t => exact (ih h).cons (.text t) [.text t] fun _ => rfl
    | opens c =>
      obtain ⟨b, ts', ⟨hts, h⟩ | ⟨b', hts, h⟩⟩ := ih (show read (false :: st) ts = some [] from h)
      · have hcons := h.cons (.cond c b) (.opens c :: (b.tokens ++ [.close])) fun _ => by
          simp [Block.tokens]
        simpa [hts] using hcons
      · have hcons := h.cons (.branch c b b')
          (.opens c :: (b.tokens ++ .middle :: (b'.tokens ++ [.close]))) fun _ => by
            simp [Block.tokens]
        simpa [hts] using hcons
    | middle =>
      match st, h with
      | false :: st, h =>
        obtain ⟨b, ts', hts, h⟩ := ih (show read (true :: st) ts = some [] from h)
        exact ⟨.nil, ts', .inr ⟨b, by rw [hts]; rfl, h⟩⟩
    | close =>
      match st, h with
      | true :: st, h => exact ⟨.nil, ts, rfl, ih h⟩
      | false :: st, h => exact ⟨.nil, ts, .inl ⟨rfl, ih h⟩⟩

/-- The well-nested sequences are those of blocks. -/
theorem wellNested_iff {ts : List (Token χ τ)} : WellNested ts ↔ ∃ b : Block χ τ, b.tokens = ts := by
  refine ⟨fun h => remains_of_read h, ?_⟩
  rintro ⟨b, rfl⟩
  have hread := b.read_tokens [] []
  rwa [List.append_nil] at hread

/-! ## The stack machine -/

/-- What happens in the course of a selection. -/
inductive Event (χ : Type u) (τ : Type v) where
  | text (t : τ) (kept : Bool)
  | evaluated (c : χ)
  /-- A branch begins. -/
  | branch (live : Bool)
  | ended
  | failed
  deriving DecidableEq

section
variable (eval : χ → Option V) (negate : V → Option V) (dead : V → Bool)

/-- No open conditional has a dead value. -/
def live (st : List V) : Bool := st.all fun v => !dead v

/-- Every condition is evaluated, and its value negated for the second branch. -/
def run : List V → List (Token χ τ) → List (Event χ τ)
  | _, [] => [.ended]
  | st, .text t :: ts => .text t (live dead st) :: run st ts
  | st, .opens c :: ts => .evaluated c ::
    match eval c with
    | none => [.failed]
    | some v => .branch (live dead (v :: st)) :: run (v :: st) ts
  | v :: st, .middle :: ts =>
    match negate v with
    | none => [.failed]
    | some v => .branch (live dead (v :: st)) :: run (v :: st) ts
  | _ :: st, .close :: ts => run st ts
  | [], _ :: _ => [.failed]

/-! ### Sequences without an end -/

/-- A mark belongs to no open conditional. -/
def Stray : Nat → List (Token χ τ) → Prop
  | _, [] => False
  | n, .text _ :: ts => Stray n ts
  | n, .opens _ :: ts => Stray (n + 1) ts
  | n, .middle :: ts => n = 0 ∨ Stray n ts
  | n, .close :: ts => n = 0 ∨ Stray (n - 1) ts

/-- No condition fails, nor the negation of its value. -/
def Evaluates : List V → List (Token χ τ) → Prop
  | _, [] => True
  | st, .text _ :: ts => Evaluates st ts
  | st, .opens c :: ts => ∃ v, eval c = some v ∧ Evaluates (v :: st) ts
  | v :: st, .middle :: ts => ∃ w, negate v = some w ∧ Evaluates (w :: st) ts
  | _ :: st, .close :: ts => Evaluates st ts
  | [], _ :: ts => Evaluates [] ts

theorem ended_mem_run (st : List V) (ts : List (Token χ τ)) :
    .ended ∈ run eval negate dead st ts ↔ ¬Stray st.length ts ∧ Evaluates eval negate st ts := by
  induction ts generalizing st with
  | nil => simp [run, Stray, Evaluates]
  | cons t ts ih =>
    cases t with
    | text t => simpa [run, Stray, Evaluates] using ih st
    | opens c =>
      cases h : eval c with
      | none => simp [run, Stray, Evaluates, h]
      | some v => simpa [run, Stray, Evaluates, h] using ih (v :: st)
    | middle =>
      cases st with
      | nil => simp [run, Stray]
      | cons v st =>
        cases h : negate v with
        | none => simp [run, Stray, Evaluates, h]
        | some w => simpa [run, Stray, Evaluates, h] using ih (w :: st)
    | close =>
      cases st with
      | nil => simp [run, Stray]
      | cons v st => simpa [run, Stray, Evaluates] using ih st

/-! ### The selection of a block -/

/-- Of each conditional in a live branch one branch is live, and in the others nothing is
evaluated. -/
def Block.select : Bool → Block χ τ → List (Event χ τ) → List (Event χ τ)
  | _, .nil, k => k
  | on, .text t rest, k => .text t on :: rest.select on k
  | true, .cond c first rest, k => .evaluated c ::
    match eval c with
    | none => [.failed]
    | some v => .branch (!dead v) :: first.select (!dead v) (rest.select true k)
  | false, .cond _ first rest, k => .branch false :: first.select false (rest.select false k)
  | true, .branch c first second rest, k => .evaluated c ::
    match eval c with
    | none => [.failed]
    | some v => .branch (!dead v) :: first.select (!dead v)
      (.branch (dead v) :: second.select (dead v) (rest.select true k))
  | false, .branch _ first second rest, k => .branch false :: first.select false
    (.branch false :: second.select false (rest.select false k))

/-- No condition that is evaluated fails. -/
def Block.Completes : Bool → Block χ τ → Prop
  | _, .nil => True
  | on, .text _ rest => rest.Completes on
  | true, .cond c first rest =>
    ∃ v, eval c = some v ∧ first.Completes (!dead v) ∧ rest.Completes true
  | false, .cond _ first rest => first.Completes false ∧ rest.Completes false
  | true, .branch c first second rest =>
    ∃ v, eval c = some v ∧ first.Completes (!dead v) ∧ second.Completes (dead v) ∧
      rest.Completes true
  | false, .branch _ first second rest =>
    first.Completes false ∧ second.Completes false ∧ rest.Completes false

/-- The negation of the value is dead exactly if the value is not. -/
def Flips (v : V) : Prop := ∃ w, negate v = some w ∧ dead w = !dead v

/-- As long as no condition fails, no conditional stands in a branch that is not live, and the
values of those with two branches flip. -/
def Block.Proper : Bool → Block χ τ → Prop
  | _, .nil => True
  | on, .text _ rest => rest.Proper on
  | true, .cond c first rest =>
    ∀ v, eval c = some v → first.Proper (!dead v) ∧
      (first.Completes eval dead (!dead v) → rest.Proper true)
  | true, .branch c first second rest =>
    ∀ v, eval c = some v → first.Proper (!dead v) ∧
      (first.Completes eval dead (!dead v) → Flips negate dead v ∧ second.Proper (dead v) ∧
        (second.Completes eval dead (dead v) → rest.Proper true))
  | false, .cond .. => False
  | false, .branch .. => False

end

section
variable {eval : χ → Option V} {negate : V → Option V} {dead : V → Bool}

theorem live_cons (v : V) (st : List V) : live dead (v :: st) = (!dead v && live dead st) := rfl

theorem Block.Completes.select {b : Block χ τ} {on : Bool} (h : b.Completes eval dead on) :
    ∃ es, ∀ k, b.select eval dead on k = es ++ k := by
  induction b generalizing on with
  | nil => exact ⟨[], fun _ => rfl⟩
  | text t rest ih =>
    obtain ⟨es, hes⟩ := ih h
    exact ⟨.text t on :: es, fun k => congrArg _ (hes k)⟩
  | cond c first rest ihfirst ihrest =>
    cases on with
    | true =>
      obtain ⟨v, hv, hfirst, hrest⟩ := h
      obtain ⟨es, hes⟩ := ihfirst hfirst
      obtain ⟨es', hes'⟩ := ihrest hrest
      refine ⟨.evaluated c :: .branch (!dead v) :: (es ++ es'), fun k => ?_⟩
      simp only [Block.select, hv, hes, hes', List.cons_append, List.append_assoc]
    | false =>
      obtain ⟨es, hes⟩ := ihfirst h.1
      obtain ⟨es', hes'⟩ := ihrest h.2
      refine ⟨.branch false :: (es ++ es'), fun k => ?_⟩
      simp only [Block.select, hes, hes', List.cons_append, List.append_assoc]
  | branch c first second rest ihfirst ihsecond ihrest =>
    cases on with
    | true =>
      obtain ⟨v, hv, hfirst, hsecond, hrest⟩ := h
      obtain ⟨es, hes⟩ := ihfirst hfirst
      obtain ⟨es', hes'⟩ := ihsecond hsecond
      obtain ⟨es'', hes''⟩ := ihrest hrest
      refine ⟨.evaluated c :: .branch (!dead v) :: (es ++ .branch (dead v) :: (es' ++ es'')),
        fun k => ?_⟩
      simp only [Block.select, hv, hes, hes', hes'', List.cons_append, List.append_assoc]
    | false =>
      obtain ⟨es, hes⟩ := ihfirst h.1
      obtain ⟨es', hes'⟩ := ihsecond h.2.1
      obtain ⟨es'', hes''⟩ := ihrest h.2.2
      refine ⟨.branch false :: (es ++ .branch false :: (es' ++ es'')), fun k => ?_⟩
      simp only [Block.select, hes, hes', hes'', List.cons_append, List.append_assoc]

/-- After a condition that fails, nothing comes. -/
theorem Block.select_of_not_completes {b : Block χ τ} {on : Bool} (h : ¬b.Completes eval dead on)
    (k k' : List (Event χ τ)) : b.select eval dead on k = b.select eval dead on k' := by
  induction b generalizing on k k' with
  | nil => exact absurd trivial h
  | text t rest ih => exact congrArg (.text t on :: ·) (ih h k k')
  | cond c first rest ihfirst ihrest =>
    cases on with
    | true =>
      rw [select, select]
      cases hv : eval c with
      | none => rfl
      | some v =>
        dsimp only
        by_cases hfirst : first.Completes eval dead (!dead v)
        · rw [ihrest fun hrest => h ⟨v, hv, hfirst, hrest⟩]
        · rw [ihfirst hfirst]
    | false =>
      rw [select, select]
      by_cases hfirst : first.Completes eval dead false
      · rw [ihrest fun hrest => h ⟨hfirst, hrest⟩]
      · rw [ihfirst hfirst]
  | branch c first second rest ihfirst ihsecond ihrest =>
    cases on with
    | true =>
      rw [select, select]
      cases hv : eval c with
      | none => rfl
      | some v =>
        dsimp only
        by_cases hfirst : first.Completes eval dead (!dead v)
        · by_cases hsecond : second.Completes eval dead (dead v)
          · rw [ihrest fun hrest => h ⟨v, hv, hfirst, hsecond, hrest⟩]
          · rw [ihsecond hsecond]
        · rw [ihfirst hfirst]
    | false =>
      rw [select, select]
      by_cases hfirst : first.Completes eval dead false
      · by_cases hsecond : second.Completes eval dead false
        · rw [ihrest fun hrest => h ⟨hfirst, hsecond, hrest⟩]
        · rw [ihsecond hsecond]
      · rw [ihfirst hfirst]

/-- Two selections that begin with the same block go on alike, if it completes. -/
theorem Block.Completes.select_inj {b : Block χ τ} {on : Bool} (h : b.Completes eval dead on)
    {k k' : List (Event χ τ)} : b.select eval dead on k = b.select eval dead on k' ↔ k = k' := by
  obtain ⟨es, hes⟩ := h.select
  rw [hes, hes, List.append_cancel_left_eq]

/-- Up to a first part of a block, the rest may as well be what is expected. -/
theorem Block.select_congr {b : Block χ τ} {on : Bool} {k k' : List (Event χ τ)}
    (h : b.Completes eval dead on → k = k') :
    b.select eval dead on k = b.select eval dead on k' := by
  by_cases hb : b.Completes eval dead on
  · rw [h hb]
  · exact select_of_not_completes hb k k'

theorem run_cond (c : χ) (first rest : Block χ τ) (st : List V) (ts : List (Token χ τ)) :
    run eval negate dead st ((Block.cond c first rest).tokens ++ ts) = .evaluated c ::
      match eval c with
      | none => [.failed]
      | some v => .branch (live dead (v :: st)) ::
        run eval negate dead (v :: st) (first.tokens ++ .close :: (rest.tokens ++ ts)) := by
  rw [Block.tokens, List.cons_append, run, List.append_assoc, List.cons_append]

theorem run_branch (c : χ) (first second rest : Block χ τ) (st : List V) (ts : List (Token χ τ)) :
    run eval negate dead st ((Block.branch c first second rest).tokens ++ ts) = .evaluated c ::
      match eval c with
      | none => [.failed]
      | some v => .branch (live dead (v :: st)) ::
        run eval negate dead (v :: st) (first.tokens ++ .middle ::
          (second.tokens ++ .close :: (rest.tokens ++ ts))) := by
  rw [Block.tokens, List.cons_append, run, List.append_assoc, List.cons_append, List.append_assoc,
    List.cons_append]

/-- A proper block is selected as its nesting says, whatever follows. -/
theorem Block.Proper.run {b : Block χ τ} {st : List V}
    (h : b.Proper eval negate dead (live dead st)) (ts : List (Token χ τ)) :
    Nesting.run eval negate dead st (b.tokens ++ ts) =
      b.select eval dead (live dead st) (Nesting.run eval negate dead st ts) := by
  induction b generalizing st ts with
  | nil => rfl
  | text t rest ih => exact congrArg (.text t (live dead st) :: ·) (ih h ts)
  | cond c first rest ihfirst ihrest =>
    cases hon : live dead st with
    | false =>
      rw [hon] at h
      exact h.elim
    | true =>
      rw [hon] at h
      rw [run_cond, select]
      cases hv : eval c with
      | none => rfl
      | some v =>
        have hlive : live dead (v :: st) = !dead v := by rw [live_cons, hon, Bool.and_true]
        obtain ⟨hfirst, hrest⟩ := h v hv
        rw [← hlive] at hfirst
        dsimp only
        rw [ihfirst hfirst, hlive]
        refine congrArg _ (congrArg _ (select_congr fun hfirst => ?_))
        have hgoal := ihrest (hon.symm ▸ hrest hfirst) ts
        rwa [hon] at hgoal
  | branch c first second rest ihfirst ihsecond ihrest =>
    cases hon : live dead st with
    | false =>
      rw [hon] at h
      exact h.elim
    | true =>
      rw [hon] at h
      rw [run_branch, select]
      cases hv : eval c with
      | none => rfl
      | some v =>
        have hlive : live dead (v :: st) = !dead v := by rw [live_cons, hon, Bool.and_true]
        obtain ⟨hfirst, hafter⟩ := h v hv
        rw [← hlive] at hfirst
        dsimp only
        rw [ihfirst hfirst, hlive]
        refine congrArg _ (congrArg _ (select_congr fun hfirst => ?_))
        obtain ⟨⟨w, hw, hflip⟩, hsecond, hrest⟩ := hafter hfirst
        have hlive' : live dead (w :: st) = dead v := by
          rw [live_cons, hon, Bool.and_true, hflip, Bool.not_not]
        rw [Nesting.run, hw]
        dsimp only
        rw [ihsecond (hlive'.symm ▸ hsecond), hlive']
        refine congrArg _ (select_congr fun hsecond => ?_)
        have hgoal := ihrest (hon.symm ▸ hrest hsecond) ts
        rwa [hon] at hgoal

/-- Any other block is not. -/
theorem Block.run_ne_select {b : Block χ τ} {st : List V}
    (h : ¬b.Proper eval negate dead (live dead st)) (ts : List (Token χ τ))
    (k : List (Event χ τ)) :
    Nesting.run eval negate dead st (b.tokens ++ ts) ≠ b.select eval dead (live dead st) k := by
  induction b generalizing st ts k with
  | nil => exact absurd trivial h
  | text t rest ih => exact fun heq => ih h ts k (List.cons.inj heq).2
  | cond c first rest ihfirst ihrest =>
    cases hon : live dead st with
    | false =>
      intro heq
      rw [run_cond, select] at heq
      cases (List.cons.inj heq).1
    | true =>
      rw [hon, Proper] at h
      push Not at h
      obtain ⟨v, hv, hnot⟩ := h
      have hlive : live dead (v :: st) = !dead v := by rw [live_cons, hon, Bool.and_true]
      intro heq
      rw [run_cond, select, hv] at heq
      dsimp only at heq
      rw [hlive, List.cons_inj_right, List.cons_inj_right] at heq
      by_cases hfirst : first.Proper eval negate dead (!dead v)
      · obtain ⟨hcompletes, hrest⟩ := hnot hfirst
        rw [← hlive] at hfirst
        rw [hfirst.run, hlive, hcompletes.select_inj] at heq
        refine ihrest (hon.symm ▸ hrest) ts k ?_
        rw [hon]
        exact heq
      · rw [← hlive] at hfirst heq
        exact ihfirst hfirst _ _ heq
  | branch c first second rest ihfirst ihsecond ihrest =>
    cases hon : live dead st with
    | false =>
      intro heq
      rw [run_branch, select] at heq
      cases (List.cons.inj heq).1
    | true =>
      rw [hon, Proper] at h
      push Not at h
      obtain ⟨v, hv, hnot⟩ := h
      have hlive : live dead (v :: st) = !dead v := by rw [live_cons, hon, Bool.and_true]
      intro heq
      rw [run_branch, select, hv] at heq
      dsimp only at heq
      rw [hlive, List.cons_inj_right, List.cons_inj_right] at heq
      by_cases hfirst : first.Proper eval negate dead (!dead v)
      · obtain ⟨hcompletes, hafter⟩ := hnot hfirst
        rw [← hlive] at hfirst
        rw [hfirst.run, hlive, hcompletes.select_inj, Nesting.run] at heq
        cases hw : negate v with
        | none =>
          rw [hw] at heq
          cases (List.cons.inj heq).1
        | some w =>
          rw [hw] at heq
          dsimp only at heq
          have hlive' : live dead (w :: st) = !dead w := by rw [live_cons, hon, Bool.and_true]
          obtain ⟨hbranch, heq⟩ := List.cons.inj heq
          rw [hlive', Event.branch.injEq] at hbranch
          have hflip : dead w = !dead v := by rw [← hbranch, Bool.not_not]
          rw [hbranch] at hlive'
          by_cases hsecond : second.Proper eval negate dead (dead v)
          · obtain ⟨hcompletes, hrest⟩ := hafter ⟨w, hw, hflip⟩ hsecond
            rw [← hlive'] at hsecond heq
            rw [hsecond.run, hlive', hcompletes.select_inj] at heq
            refine ihrest (hon.symm ▸ hrest) ts k ?_
            rw [hon]
            exact heq
          · rw [← hlive'] at hsecond heq
            exact ihsecond hsecond _ _ heq
      · rw [← hlive] at hfirst heq
        exact ihfirst hfirst _ _ heq

/-- The machine selects what the nesting says, up to a failure, exactly for the proper blocks. -/
theorem Block.run_eq_select_iff {b : Block χ τ} :
    Nesting.run eval negate dead [] b.tokens = b.select eval dead true [.ended] ↔
      b.Proper eval negate dead true := by
  constructor
  · intro heq
    by_contra h
    have hne : Nesting.run eval negate dead [] (b.tokens ++ []) ≠ b.select eval dead true [.ended] :=
      run_ne_select h [] [.ended]
    rw [List.append_nil] at hne
    exact hne heq
  · intro h
    have hrun : Nesting.run eval negate dead [] (b.tokens ++ []) = b.select eval dead true [.ended] :=
      Proper.run h []
    rwa [List.append_nil] at hrun

end

end Nesting
