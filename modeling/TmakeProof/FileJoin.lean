import TmakeProof.DirPaths
import TmakeProof.Lexical
import TmakeProof.Positions

/-! # The laws of `file-join`

What `file-join` should do is lexical resolution: the components of both paths with
every `..` cancelled against the name before it, and `..`s at the beginning only.
The procedure does so on a stack of parts, but it also keeps the empty parts of
`a//b` or `a/` there, and no `..` cancels one.  `file_join_lawful` says for which
relative paths the result is the resolution nevertheless, and `file_join_absolute`
says so of absolute paths, below whose root an empty part always lies.
-/
namespace Tmake
open Lexical

section

local instance lawfulBEqOption : LawfulBEq (Option String) := inferInstance

/-- The body of the loop of `file-join`. -/
def joinStep (result : List String) (part : String) : List String :=
  if part = "." then result
  else if part = ".." && result.head? ∉ [some "..", some "", none] then result.tail
  else if part.toList.head? = some '/' then [part]
  else part :: result

end

/-- The stack after these parts, last part first. -/
def joinStack (parts : List String) : List String := parts.foldl joinStep []

/-- A path that is not absolute. -/
def Relative (path : Path) : Prop := path.toList.head? ≠ some '/'

instance : DecidablePred Relative := fun path =>
  inferInstanceAs (Decidable (path.toList.head? ≠ some '/'))

/-- A part that counts: `.` and empty parts do not, nor does the root. -/
def Counts (part : String) : Prop := part ∉ ["", ".", "/"]

instance : DecidablePred Counts := fun part => inferInstanceAs (Decidable (part ∉ ["", ".", "/"]))

/-- The components of a path. -/
def components (path : Path) : List String := (fileSplit path).filter fun part => Counts part

/-! ## The parts of a path -/

theorem splitSlash_noSlash {cs p : List Char} (h : p ∈ splitSlash cs) : '/' ∉ p := by
  induction cs generalizing p with
  | nil =>
    rw [splitSlash, List.mem_singleton] at h
    simp [h]
  | cons c cs ih =>
    rw [splitSlash] at h
    cases hsplit : splitSlash cs with
    | nil => exact absurd hsplit (splitSlash_ne_nil cs)
    | cons q qs =>
      rw [hsplit] at h ih
      dsimp only at h
      by_cases hc : c = '/'
      · rw [if_pos hc] at h
        rcases List.mem_cons.mp h with rfl | h
        · simp
        · exact ih h
      · rw [if_neg hc] at h
        rcases List.mem_cons.mp h with rfl | h
        · intro hmem
          rcases List.mem_cons.mp hmem with heq | hmem
          · exact hc heq.symm
          · exact ih List.mem_cons_self hmem
        · exact ih (List.mem_cons_of_mem _ h)

theorem Relative.parts {path : Path} (h : Relative path) :
    ∀ part ∈ fileSplit path, '/' ∉ part.toList := by
  intro part hpart
  rw [fileSplit] at hpart
  split at hpart
  · cases hpart
  · rw [if_neg h] at hpart
    obtain ⟨cs, hcs, rfl⟩ := List.mem_map.mp hpart
    rw [String.toList_ofList]
    exact splitSlash_noSlash hcs

/-! ## The stack -/

section
variable {stack parts names : List String} {part name : String}

theorem fileJoinParts_eq (parts result : List String) :
    fileJoinParts parts result = (parts.foldl joinStep result).reverse := by
  induction parts generalizing result with
  | nil => rfl
  | cons part parts ih =>
    rw [fileJoinParts, List.foldl_cons, joinStep]
    split
    · exact ih result
    · split
      · exact ih result.tail
      · split
        · exact ih [part]
        · exact ih (part :: result)

theorem fileJoin_stack (d p : Path) :
    fileJoin d p = if joinStack (fileSplit d ++ fileSplit p) = [] then "."
      else (joinStack (fileSplit d ++ fileSplit p)).reverse.foldl joinPart "" := by
  rw [fileJoin, fileJoinParts_eq]
  by_cases h : joinStack (fileSplit d ++ fileSplit p) = []
  · rw [if_pos h, show (fileSplit d ++ fileSplit p).foldl joinStep [] = [] from h]
    rfl
  · rw [if_neg h]
    cases hstack : ((fileSplit d ++ fileSplit p).foldl joinStep []).reverse with
    | nil => exact absurd (List.reverse_eq_nil_iff.mp hstack) h
    | cons a l =>
      rw [joinStack, hstack]

/-- What of the stack counts. -/
def namesOf (stack : List String) : List String := stack.filter (· ≠ "")

@[simp] theorem namesOf_cons_empty (stack : List String) : namesOf ("" :: stack) = namesOf stack := by
  simp [namesOf]

theorem namesOf_cons (h : part ≠ "") (stack : List String) :
    namesOf (part :: stack) = part :: namesOf stack := by
  simp [namesOf, h]

theorem joinStep_dot (stack : List String) : joinStep stack "." = stack := by simp [joinStep]

theorem joinStep_empty (stack : List String) : joinStep stack "" = "" :: stack := by
  simp [joinStep]

theorem joinStep_name (h : Plain part) (stack : List String) :
    joinStep stack part = part :: stack := by
  rw [joinStep, if_neg h.ne_dot, if_neg (by simp [h.ne_dots]), if_neg h.component.head]

theorem joinStep_dots (stack : List String) :
    joinStep stack ".." =
      if stack.head? ∈ [some "..", some "", none] then ".." :: stack else stack.tail := by
  rw [joinStep, if_neg (by decide)]
  by_cases h : stack.head? ∈ [some "..", some "", none]
  · rw [if_pos h, if_neg (by simp [h]), if_neg (by decide)]
  · rw [if_neg h, if_pos (by simpa using h)]

/-- A part without a slash is one of four kinds. -/
theorem part_cases (h : '/' ∉ part.toList) : part = "." ∨ part = "" ∨ part = ".." ∨ Plain part := by
  by_cases hdot : part = "."
  · exact .inl hdot
  by_cases hempty : part = ""
  · exact .inr (.inl hempty)
  by_cases hdots : part = ".."
  · exact .inr (.inr (.inl hdots))
  · exact .inr (.inr (.inr ⟨h, hempty, hdot, hdots⟩))

theorem Plain.counts (h : Plain part) : Counts part := by
  have hroot : part ≠ "/" := by
    rintro rfl
    exact h.noSlash (by decide)
  simp [Counts, h.ne_empty, h.ne_dot, hroot]

theorem joinStack_concat (parts : List String) (part : String) :
    joinStack (parts ++ [part]) = joinStep (joinStack parts) part := by
  rw [joinStack, List.foldl_append]
  rfl

theorem joinStep_subset (stack : List String) (part : String) :
    joinStep stack part ⊆ part :: stack := by
  rw [joinStep]
  split
  · exact List.subset_cons_self _ _
  · split
    · exact fun x hx => List.mem_cons_of_mem _ (List.mem_of_mem_tail hx)
    · split
      · simp
      · exact List.Subset.refl _

theorem joinStack_subset (parts : List String) : joinStack parts ⊆ parts := by
  induction parts using List.reverseRecOn with
  | nil => exact List.Subset.refl _
  | append_singleton parts part ih =>
    rw [joinStack_concat]
    intro x hx
    rcases List.mem_cons.mp (joinStep_subset _ _ hx) with rfl | hx
    · simp
    · simp [ih hx]

/-! ## Relative paths -/

/-- An empty part lies on the name that a `..` should cancel. -/
def isBlocked (stack : List String) : Bool :=
  stack.head? = some "" && (namesOf stack).head?.any (· ≠ "..")

/-- No `..` comes where it is blocked. -/
def Unblocked (parts : List String) : Prop :=
  AtEach (fun pre part => part = ".." → isBlocked (joinStack pre) = false) parts

instance : DecidablePred Unblocked := fun parts => inferInstanceAs
  (Decidable (AtEach (fun pre part => part = ".." → isBlocked (joinStack pre) = false) parts))

/-- A `..` has been put on a name. -/
def Stuck (stack : List String) : Prop :=
  ∃ above name below, namesOf stack = above ++ ".." :: name :: below ∧ name ≠ ".."

theorem Stuck.step (h : Stuck stack) (hpart : '/' ∉ part.toList) : Stuck (joinStep stack part) := by
  obtain ⟨above, name, below, hnames, hname⟩ := h
  rcases part_cases hpart with rfl | rfl | rfl | hplain
  · rw [joinStep_dot]
    exact ⟨above, name, below, hnames, hname⟩
  · rw [joinStep_empty]
    exact ⟨above, name, below, by rw [namesOf_cons_empty, hnames], hname⟩
  · rw [joinStep_dots]
    split
    · exact ⟨".." :: above, name, below, by rw [namesOf_cons (by decide), hnames]; rfl, hname⟩
    · -- the name that is cancelled lies above
      rename_i hhead
      rcases stack with _ | ⟨top, rest⟩
      · simp at hhead
      have htop : top ≠ ".." ∧ top ≠ "" := by simpa using hhead
      rw [namesOf_cons htop.2] at hnames
      rcases above with _ | ⟨a, above⟩
      · exact absurd (List.cons.inj hnames).1 htop.1
      · exact ⟨above, name, below, (List.cons.inj hnames).2, hname⟩
  · rw [joinStep_name hplain]
    exact ⟨part :: above, name, below, by rw [namesOf_cons hplain.ne_empty, hnames]; rfl, hname⟩

theorem Stuck.not_normal (h : Stuck stack) : ¬Normal ".." (namesOf stack).reverse := by
  obtain ⟨above, name, below, hnames, hname⟩ := h
  intro hnormal
  rw [hnames] at hnormal
  have hsplit : (above ++ ".." :: name :: below).reverse =
      below.reverse ++ name :: ".." :: above.reverse := by simp
  rw [hsplit] at hnormal
  exact hname hnormal.before_up

/-- A `..` that is not blocked does what it should. -/
theorem namesOf_joinStep_dots (h : isBlocked stack = false) :
    namesOf (joinStep stack "..") = push ".." (namesOf stack) ".." := by
  rw [joinStep_dots]
  rcases stack with _ | ⟨top, rest⟩
  · rfl
  by_cases hstays : (top :: rest).head? ∈ [some "..", some "", none]
  · rw [if_pos hstays, namesOf_cons (by decide), push_up_stays]
    intro x hx
    by_cases htop : top = ""
    · subst htop
      by_contra hne
      rw [namesOf_cons_empty] at hx
      rw [isBlocked, namesOf_cons_empty, Option.mem_def.mp hx] at h
      simp [hne] at h
    · have hdots : top = ".." := by simpa [htop] using hstays
      rw [namesOf_cons htop] at hx
      exact (Option.some.inj hx).symm.trans hdots
  · have htop : top ≠ ".." ∧ top ≠ "" := by simpa using hstays
    rw [if_neg hstays, namesOf_cons htop.2, push_up htop.1]
    rfl

theorem isBlocked_iff :
    isBlocked stack = true ↔ stack.head? = some "" ∧ ∃ name ∈ (namesOf stack).head?, name ≠ ".." := by
  simp [isBlocked, Option.any_eq_true]

theorem Unblocked.of_noEmpty (h : "" ∉ parts) : Unblocked parts := by
  intro pre part post heq _
  rw [heq] at h
  by_contra hblocked
  obtain ⟨hhead, -⟩ := isBlocked_iff.mp (by simpa using hblocked)
  have hmem := joinStack_subset pre (List.mem_of_mem_head? hhead)
  exact h (by simp [hmem])

theorem Stuck.of_blocked (h : isBlocked stack = true) : Stuck (joinStep stack "..") := by
  obtain ⟨hhead, name, hname, hne⟩ := isBlocked_iff.mp h
  obtain ⟨below, hbelow⟩ := List.head?_eq_some_iff.mp hname
  refine ⟨[], name, below, ?_, hne⟩
  rw [joinStep_dots, if_pos (by simp [hhead]), namesOf_cons (by decide), hbelow]
  rfl

/-- The simulation: the stack has the names of the resolution, unless a `..` is blocked. -/
theorem joinStack_names (hslash : ∀ part ∈ parts, '/' ∉ part.toList) :
    (Unblocked parts → namesOf (joinStack parts) =
      (parts.filter fun part => Counts part).foldl (push "..") []) ∧
    (¬Unblocked parts → Stuck (joinStack parts)) := by
  induction parts using List.reverseRecOn with
  | nil => exact ⟨fun _ => rfl, fun h => absurd (atEach_nil _) h⟩
  | append_singleton parts part ih =>
    obtain ⟨hsame, hstuck⟩ := ih fun part hpart => hslash part (by simp [hpart])
    have hpart : '/' ∉ part.toList := hslash part (by simp)
    have hconcat : Unblocked (parts ++ [part]) ↔
        Unblocked parts ∧ (part = ".." → isBlocked (joinStack parts) = false) := atEach_concat
    rw [hconcat, joinStack_concat, List.filter_append, List.foldl_append]
    by_cases hparts : Unblocked parts
    · rw [← hsame hparts]
      have hgoes (hne : part ≠ "..") : Unblocked parts ∧
          (part = ".." → isBlocked (joinStack parts) = false) :=
        ⟨hparts, fun heq => absurd heq hne⟩
      rcases part_cases hpart with rfl | rfl | rfl | hplain
      · rw [joinStep_dot]
        exact ⟨fun _ => rfl, fun h => absurd (hgoes (by decide)) h⟩
      · rw [joinStep_empty, namesOf_cons_empty]
        exact ⟨fun _ => rfl, fun h => absurd (hgoes (by decide)) h⟩
      · refine ⟨fun h => namesOf_joinStep_dots (h.2 rfl), fun h => Stuck.of_blocked ?_⟩
        by_contra hne
        exact h ⟨hparts, fun _ => by simpa using hne⟩
      · rw [joinStep_name hplain, namesOf_cons hplain.ne_empty]
        refine ⟨fun _ => ?_, fun h => absurd (hgoes hplain.ne_dots) h⟩
        rw [List.filter_cons_of_pos (by simpa using hplain.counts)]
        exact (push_of_ne hplain.ne_dots _).symm
    · exact ⟨fun h => absurd h.1 hparts, fun _ => (hstuck hparts).step hpart⟩

/-- Empty parts and `..`s are never taken away. -/
theorem mem_joinStep {x : String} (hx : x ∈ ["..", ""]) (h : x ∈ stack) (hpart : '/' ∉ part.toList) :
    x ∈ joinStep stack part := by
  rcases part_cases hpart with rfl | rfl | rfl | hplain
  · rw [joinStep_dot]
    exact h
  · rw [joinStep_empty]
    exact List.mem_cons_of_mem _ h
  · rw [joinStep_dots]
    split
    · exact List.mem_cons_of_mem _ h
    · rename_i hhead
      rcases stack with _ | ⟨top, rest⟩
      · cases h
      · have htop : top ∉ ["..", ""] := by simpa using hhead
        rcases List.mem_cons.mp h with rfl | h
        · exact absurd hx htop
        · exact h
  · rw [joinStep_name hplain]
    exact List.mem_cons_of_mem _ h

theorem empty_mem_joinStack (hslash : ∀ part ∈ parts, '/' ∉ part.toList) (h : "" ∈ parts) :
    "" ∈ joinStack parts := by
  induction parts using List.reverseRecOn with
  | nil => cases h
  | append_singleton parts part ih =>
    have hpart := hslash part (by simp)
    rw [joinStack_concat]
    rcases List.mem_append.mp h with h | h
    · exact mem_joinStep (by simp) (ih (fun part hpart => hslash part (by simp [hpart])) h) hpart
    · rw [← List.mem_singleton.mp h, joinStep_empty]
      exact List.mem_cons_self

/-- The names on the stack may stand in a path. -/
theorem namesOf_component (hslash : ∀ part ∈ parts, '/' ∉ part.toList) :
    ∀ name ∈ (namesOf (joinStack parts)).reverse, Component name := by
  intro name hname
  obtain ⟨hmem, hne⟩ := List.mem_filter.mp (List.mem_reverse.mp hname)
  exact ⟨hslash name (joinStack_subset parts hmem), by simpa using hne⟩

/-- The path that `file-join` makes of its stack: an empty one, if there are only empty parts. -/
theorem fileJoin_eq_dirPath (d p : Path) :
    fileJoin d p = if joinStack (fileSplit d ++ fileSplit p) ≠ [] ∧
        namesOf (joinStack (fileSplit d ++ fileSplit p)) = [] then ""
      else dirPath (namesOf (joinStack (fileSplit d ++ fileSplit p))).reverse := by
  rw [fileJoin_stack]
  generalize joinStack (fileSplit d ++ fileSplit p) = stack
  by_cases hstack : stack = []
  · subst hstack
    rfl
  · have hfilter : (namesOf stack).reverse = stack.reverse.filter (· ≠ "") := by
      rw [namesOf, List.filter_reverse]
    rw [if_neg hstack, ← foldl_joinPart_filter, ← hfilter]
    by_cases hnames : namesOf stack = []
    · rw [if_pos ⟨hstack, hnames⟩, hnames]
      rfl
    · rw [if_neg fun h => hnames h.2]
      cases h : (namesOf stack).reverse with
      | nil => exact absurd (List.reverse_eq_nil_iff.mp h) hnames
      | cons a l => rfl

theorem dirPath_inj {names' : List String} (h : ∀ name ∈ names, Component name)
    (h' : ∀ name ∈ names', Component name) (hne : names ≠ []) (hne' : names' ≠ [])
    (heq : dirPath names = dirPath names') : names = names' := by
  rw [← fileSplit_dirPath h hne, heq, fileSplit_dirPath h' hne']

end

/-- The resolution of one path against another. -/
def resolution (d p : Path) : List String := resolve ".." (components d ++ components p)

/-- The condition of `file_join_lawful`: no `..` is blocked, and where nothing remains there is no
empty part. -/
structure Resolvable (d p : Path) : Prop where
  unblocked : Unblocked (fileSplit d ++ fileSplit p)
  nothing : resolution d p = [] → "" ∉ fileSplit d ++ fileSplit p

instance (d p : Path) : Decidable (Resolvable d p) :=
  decidable_of_iff (_ ∧ _) ⟨fun h => ⟨h.1, h.2⟩, fun h => ⟨h.unblocked, h.nothing⟩⟩

/-- The path that `file-join` makes is lexically resolved. -/
structure NormalJoin (d p : Path) : Prop where
  resolved : fileJoin d p = dirPath (resolution d p)
  normal : fileJoin d p = "." ∨
    Normal ".." (fileSplit (fileJoin d p)) ∧ ∀ part ∈ fileSplit (fileJoin d p), Counts part
  again : fileJoin "." (fileJoin d p) = fileJoin d p

section
variable {d p : Path}

theorem Relative.join_parts (hd : Relative d) (hp : Relative p) :
    ∀ part ∈ fileSplit d ++ fileSplit p, '/' ∉ part.toList := by
  rw [List.forall_mem_append]
  exact ⟨hd.parts, hp.parts⟩

theorem resolution_eq (d p : Path) :
    (resolution d p).reverse =
      ((fileSplit d ++ fileSplit p).filter fun part => Counts part).foldl (push "..") [] := by
  rw [resolution, resolve, List.reverse_reverse, components, components, List.filter_append]

theorem resolution_mem (hd : Relative d) (hp : Relative p) :
    ∀ name ∈ resolution d p, Component name ∧ Counts name := by
  intro name hname
  have hmem := resolve_subset _ hname
  rw [components, components, ← List.filter_append] at hmem
  obtain ⟨hpart, hcounts⟩ := List.mem_filter.mp hmem
  have hcounts : Counts name := by simpa using hcounts
  refine ⟨⟨hd.join_parts hp name hpart, fun heq => hcounts ?_⟩, hcounts⟩
  simp [heq]

theorem dirPath_nil_or (names : List String) :
    ∃ names', names' ≠ [] ∧ dirPath names = dirPath names' ∧
      (Normal ".." names → Normal ".." names') ∧
      ((∀ name ∈ names, Component name) → ∀ name ∈ names', Component name) := by
  by_cases hnames : names = []
  · refine ⟨["."], by simp, by rw [hnames]; decide, fun _ => ⟨0, ["."], rfl, by decide⟩, fun _ => ?_⟩
    simpa using ⟨by decide, by decide⟩
  · exact ⟨names, hnames, rfl, id, id⟩

/-- The result is the resolution exactly under the condition. -/
theorem resolved_iff (hd : Relative d) (hp : Relative p) :
    fileJoin d p = dirPath (resolution d p) ↔ Resolvable d p := by
  have hslash := hd.join_parts hp
  obtain ⟨hsame, hstuck⟩ := joinStack_names hslash
  rw [← resolution_eq] at hsame
  rw [fileJoin_eq_dirPath]
  have hcomponent := namesOf_component hslash
  constructor
  · intro heq
    have hunblocked : Unblocked (fileSplit d ++ fileSplit p) := by
      by_contra hblocked
      -- a `..` on a name is not normal
      have h := hstuck hblocked
      have hne : namesOf (joinStack (fileSplit d ++ fileSplit p)) ≠ [] := by
        obtain ⟨above, name, below, hnames, -⟩ := h
        rw [hnames]
        simp
      rw [if_neg fun hboth => hne hboth.2] at heq
      obtain ⟨names', hne', hpath, hnormal, hall⟩ := dirPath_nil_or (resolution d p)
      refine h.not_normal ?_
      rw [dirPath_inj hcomponent (hall fun name hname => (resolution_mem hd hp name hname).1)
        (by simpa using hne) hne' (heq.trans hpath)]
      exact hnormal (resolve_normal _)
    refine ⟨hunblocked, fun hnil hempty => ?_⟩
    have hnames : namesOf (joinStack (fileSplit d ++ fileSplit p)) = [] := by
      rw [hsame hunblocked, hnil]
      rfl
    have hstack := List.ne_nil_of_mem (empty_mem_joinStack hslash hempty)
    rw [if_pos ⟨hstack, hnames⟩, hnil] at heq
    exact absurd heq (by decide)
  · intro h
    have hnames := hsame h.unblocked
    rw [if_neg, hnames, List.reverse_reverse]
    rintro ⟨hstack, hnil⟩
    -- where nothing remains there is no empty part, and so nothing on the stack
    have hres : resolution d p = [] := by
      rw [hnames] at hnil
      exact List.reverse_eq_nil_iff.mp hnil
    refine hstack (List.eq_nil_iff_forall_not_mem.mpr fun part hpart => ?_)
    have hne : part ≠ "" := by
      rintro rfl
      exact h.nothing hres (joinStack_subset _ hpart)
    have : part ∈ namesOf (joinStack (fileSplit d ++ fileSplit p)) :=
      List.mem_filter.mpr ⟨hpart, by simpa using hne⟩
    rw [hnil] at this
    cases this

/-- Without empty parts there is nothing in the way. -/
theorem Resolvable.of_noEmpty (h : "" ∉ fileSplit d ++ fileSplit p) : Resolvable d p :=
  ⟨Unblocked.of_noEmpty h, fun _ => h⟩

/-- The components of a path that is written with components. -/
theorem components_dirPath {names : List String} (h : ∀ name ∈ names, Component name ∧ Counts name) :
    components (dirPath names) = names := by
  by_cases hne : names = []
  · subst hne
    decide
  · rw [components, fileSplit_dirPath (fun name hname => (h name hname).1) hne,
      List.filter_eq_self]
    exact fun name hname => by simpa using (h name hname).2

theorem relative_dirPath {names : List String} (h : ∀ name ∈ names, Component name) :
    Relative (dirPath names) := by
  intro habsolute
  by_cases hne : names = []
  · subst hne
    exact absurd habsolute (by decide)
  · -- an absolute path has the root as its first part
    have hmem : "/" ∈ fileSplit (dirPath names) := by
      rw [fileSplit, if_neg (dirPath_last h).1, if_pos habsolute]
      exact List.mem_cons_self
    rw [fileSplit_dirPath h hne] at hmem
    exact (h "/" hmem).noSlash (by decide)

/-- What is resolved is in normal form, and is not changed any more. -/
theorem normalJoin_iff (hd : Relative d) (hp : Relative p) : NormalJoin d p ↔ Resolvable d p := by
  refine ⟨fun h => (resolved_iff hd hp).mp h.resolved, fun h => ?_⟩
  have hresolved := (resolved_iff hd hp).mpr h
  have hmem := resolution_mem hd hp
  have hcomponent := fun name hname => (hmem name hname).1
  refine ⟨hresolved, ?_, ?_⟩
  · rw [hresolved]
    by_cases hne : resolution d p = []
    · rw [hne]
      exact .inl rfl
    · rw [fileSplit_dirPath hcomponent hne]
      exact .inr ⟨resolve_normal _, fun name hname => (hmem name hname).2⟩
  · rw [hresolved]
    have hrelative := relative_dirPath hcomponent
    have hnoempty : "" ∉ fileSplit "." ++ fileSplit (dirPath (resolution d p)) := by
      by_cases hne : resolution d p = []
      · rw [hne]
        decide
      · rw [fileSplit_dirPath hcomponent hne, List.mem_append]
        rintro (hdot | hempty)
        · exact absurd hdot (by decide)
        · exact (hcomponent "" hempty).ne_empty rfl
    rw [(resolved_iff (by decide) hrelative).mpr (Resolvable.of_noEmpty hnoempty), resolution,
      components_dirPath hmem]
    exact congrArg dirPath (resolve_normal _).resolve

theorem NormalJoin.components (h : NormalJoin d p) (hd : Relative d) (hp : Relative p) :
    components (fileJoin d p) = resolution d p := by
  rw [h.resolved]
  exact components_dirPath (resolution_mem hd hp)

end

/-- **The algebra of relative paths.**  `file-join` makes the lexical resolution, in normal form
and not changed by another `file-join`, exactly if no empty part lies between a name and the
`..` that should cancel it, and none is there where nothing remains; and where all the joins of
three paths are such resolutions, they are associative. -/
theorem file_join_lawful (a b c : Path) (ha : Relative a) (hb : Relative b) (hc : Relative c) :
    (NormalJoin a b ↔ Resolvable a b) ∧
    (NormalJoin a b → NormalJoin (fileJoin a b) c → NormalJoin b c →
      NormalJoin a (fileJoin b c) → fileJoin (fileJoin a b) c = fileJoin a (fileJoin b c)) := by
  refine ⟨normalJoin_iff ha hb, fun hab habc hbc habc' => ?_⟩
  rw [habc.resolved, habc'.resolved, resolution, resolution, hab.components ha hb,
    hbc.components hb hc, resolution, resolution, resolve_resolve_append, resolve_append_resolve,
    List.append_assoc]

/-- `file-join abc/def ../ghi` is `abc/ghi`, and `file-join` is associative there. -/
theorem file_join_lawful_ghi :
    fileJoin "abc/def" "../ghi" = "abc/ghi" ∧ NormalJoin "abc/def" "../ghi" ∧
      fileJoin (fileJoin "abc/def" "../ghi") "x.h" = fileJoin "abc/def" (fileJoin "../ghi" "x.h") := by
  have hjoin (d p : Path) (hd : Relative d) (hp : Relative p) (h : Resolvable d p) :
      NormalJoin d p := (file_join_lawful d p p hd hp hp).1.mpr h
  have hghi := hjoin "abc/def" "../ghi" (by decide) (by decide) (by decide +kernel)
  refine ⟨by decide +kernel, hghi, ?_⟩
  exact (file_join_lawful "abc/def" "../ghi" "x.h" (by decide) (by decide) (by decide)).2 hghi
    (hjoin _ _ (by decide +kernel) (by decide) (by decide +kernel))
    (hjoin _ _ (by decide) (by decide) (by decide +kernel))
    (hjoin _ _ (by decide) (by decide +kernel) (by decide +kernel))

/-- The path that `make-local ../x` makes in the directory `src`, whose prefix is `src/`; it is
neither normal nor left alone, and another association makes another path. -/
theorem file_join_slash :
    fileJoin "src/" "../x" = "src/../x" ∧ ¬NormalJoin "src/" "../x" ∧
      fileJoin "." (fileJoin "src/" "../x") = "x" ∧
      fileJoin (fileJoin "src/" "y") "../../x" = "x" ∧
      fileJoin "src/" (fileJoin "y" "../../x") = "src/../x" := by
  refine ⟨by decide +kernel, fun h => ?_, by decide +kernel, by decide +kernel, by decide +kernel⟩
  exact absurd h.again (by decide +kernel)

/-! ## Absolute paths -/

/-- The path below the root that leads over these names. -/
def rootPath (names : List String) : Path := if names = [] then "/" else "/" ++ dirPath names

/-- The parts of an absolute path behind the root and the empty part that follows it. -/
def belowRoot (path : Path) : List String := (fileSplit path).drop 2

/-- The parts that count when one of the paths is absolute. -/
def rootedParts (d p : Path) : List String :=
  if Relative p then belowRoot d ++ fileSplit p else belowRoot p

/-- The stack above the root. -/
def rootedStack (parts : List String) : List String := parts.foldl joinStep ["", "/"]

/-- No `..` comes to the root, nor to another empty part. -/
def StaysBelow (d p : Path) : Prop :=
  AtEach (fun pre part => part = ".." → (rootedStack pre).head? ≠ some "") (rootedParts d p)

instance (d p : Path) : Decidable (StaysBelow d p) := inferInstanceAs (Decidable
  (AtEach (fun pre part => part = ".." → (rootedStack pre).head? ≠ some "") (rootedParts d p)))

/-- The path that `file-join` makes is absolute, replaces the directory if its own path is, and
is lexically resolved, where a `..` at the root stays there. -/
structure AbsoluteJoin (d p : Path) : Prop where
  absolute : ¬Relative (fileJoin d p)
  replaces : ¬Relative p → ∀ d', fileJoin d' p = fileJoin d p
  resolved : fileJoin d p = rootPath (resolveRooted ".."
    (if Relative p then components d ++ components p else components p))

section
variable {d p path : Path} {parts : List String} {part : String}

theorem fileSplit_absolute (h : ¬Relative path) :
    fileSplit path = "/" :: "" :: belowRoot path ∧ ∀ part ∈ belowRoot path, '/' ∉ part.toList := by
  have hhead : path.toList.head? = some '/' := by simpa [Relative] using h
  obtain ⟨cs, hcs⟩ := List.head?_eq_some_iff.mp hhead
  have hne : path ≠ "" := by
    rintro rfl
    simp at hcs
  have hsplit : splitSlash path.toList = [] :: splitSlash cs := by
    rw [hcs, splitSlash]
    cases h : splitSlash cs with
    | nil => exact absurd h (splitSlash_ne_nil cs)
    | cons p ps => simp
  have heq : fileSplit path = "/" :: "" :: (splitSlash cs).map String.ofList := by
    rw [fileSplit, if_neg hne, hsplit, if_pos hhead]
    rfl
  rw [belowRoot, heq]
  refine ⟨rfl, fun part hpart => ?_⟩
  obtain ⟨p, hp, rfl⟩ := List.mem_map.mp hpart
  rw [String.toList_ofList]
  exact splitSlash_noSlash hp

/-- The root takes the place of what is there. -/
theorem joinStep_root (stack : List String) : joinStep stack "/" = ["/"] := by
  rw [joinStep, if_neg (by decide), if_neg (by simp), if_pos (by decide)]

theorem joinStack_absolute (h : ¬Relative d ∨ ¬Relative p) :
    joinStack (fileSplit d ++ fileSplit p) = rootedStack (rootedParts d p) := by
  rw [rootedParts]
  by_cases hp : Relative p
  · have hd := h.resolve_right (not_not.mpr hp)
    rw [if_pos hp, (fileSplit_absolute hd).1, joinStack, List.cons_append, List.cons_append,
      List.foldl_cons, List.foldl_cons, joinStep_root, joinStep_empty]
    rfl
  · rw [if_neg hp, (fileSplit_absolute hp).1, joinStack, List.foldl_append, List.foldl_cons,
      List.foldl_cons, joinStep_root, joinStep_empty]
    rfl

theorem rootedParts_noSlash (h : ¬Relative d ∨ ¬Relative p) :
    ∀ part ∈ rootedParts d p, '/' ∉ part.toList := by
  rw [rootedParts]
  split
  · rename_i hp
    rw [List.forall_mem_append]
    exact ⟨(fileSplit_absolute (h.resolve_right (not_not.mpr hp))).2, hp.parts⟩
  · rename_i hp
    exact (fileSplit_absolute hp).2

theorem rootedStack_concat (parts : List String) (part : String) :
    rootedStack (parts ++ [part]) = joinStep (rootedStack parts) part := by
  rw [rootedStack, List.foldl_append]
  rfl

/-- The root stays below everything else. -/
theorem rootedStack_eq (hslash : ∀ part ∈ parts, '/' ∉ part.toList) :
    rootedStack parts = joinStack parts ++ ["", "/"] := by
  induction parts using List.reverseRecOn with
  | nil => rfl
  | append_singleton parts part ih =>
    rw [rootedStack_concat, joinStack_concat, ih fun part hpart => hslash part (by simp [hpart])]
    rcases part_cases (hslash part (by simp)) with rfl | rfl | rfl | hplain
    · rw [joinStep_dot, joinStep_dot]
    · rw [joinStep_empty, joinStep_empty]
      rfl
    · rw [joinStep_dots, joinStep_dots]
      rcases joinStack parts with _ | ⟨top, rest⟩
      · rfl
      · by_cases htop : some top ∈ [some "..", some "", none]
        · rw [List.cons_append, List.head?_cons, List.head?_cons, if_pos htop, if_pos htop]
          rfl
        · rw [List.cons_append, List.head?_cons, List.head?_cons, if_neg htop, if_neg htop]
          rfl
    · rw [joinStep_name hplain, joinStep_name hplain]
      rfl

/-- The simulation: the names of the resolution, unless a `..` comes to an empty part, where it
stays for ever. -/
theorem rootedStack_names (hslash : ∀ part ∈ parts, '/' ∉ part.toList) :
    (AtEach (fun pre part => part = ".." → (rootedStack pre).head? ≠ some "") parts →
      namesOf (joinStack parts) =
        (parts.filter fun part => Counts part).foldl (pushRooted "..") []) ∧
    (¬AtEach (fun pre part => part = ".." → (rootedStack pre).head? ≠ some "") parts →
      ".." ∈ joinStack parts) := by
  induction parts using List.reverseRecOn with
  | nil => exact ⟨fun _ => rfl, fun h => absurd (atEach_nil _) h⟩
  | append_singleton parts part ih =>
    have hslash' := fun part hpart => hslash part (List.mem_append_left _ hpart)
    obtain ⟨hsame, hescaped⟩ := ih hslash'
    have hpart : '/' ∉ part.toList := hslash part (by simp)
    rw [atEach_concat, joinStack_concat, List.filter_append, List.foldl_append,
      rootedStack_eq hslash']
    by_cases hparts : AtEach (fun pre part => part = ".." → (rootedStack pre).head? ≠ some "") parts
    · have hnames := hsame hparts
      have hup : ".." ∉ namesOf (joinStack parts) := by
        rw [hnames]
        exact foldl_pushRooted_up (by simp) _
      rw [← hnames]
      have hgoes (hne : part ≠ "..") (h : ¬(AtEach (fun pre part => part = ".." →
          (rootedStack pre).head? ≠ some "") parts ∧
            (part = ".." → (joinStack parts ++ ["", "/"]).head? ≠ some ""))) : False :=
        h ⟨hparts, fun heq => absurd heq hne⟩
      rcases part_cases hpart with rfl | rfl | rfl | hplain
      · rw [joinStep_dot]
        exact ⟨fun _ => rfl, fun h => (hgoes (by decide) h).elim⟩
      · rw [joinStep_empty, namesOf_cons_empty]
        exact ⟨fun _ => rfl, fun h => (hgoes (by decide) h).elim⟩
      · rw [joinStep_dots]
        rcases hstack : joinStack parts with _ | ⟨top, rest⟩
        · exact ⟨fun h => absurd rfl (h.2 rfl), fun _ => by simp⟩
        · rw [hstack] at hup
          by_cases htop : top = ""
          · subst htop
            exact ⟨fun h => absurd rfl (h.2 rfl), fun _ => by simp⟩
          · rw [namesOf_cons htop] at hup ⊢
            have hdots : top ≠ ".." := fun heq => hup (by simp [heq])
            have hpops : (top :: rest).head? ∉ [some "..", some "", none] := by
              simp [htop, hdots]
            rw [if_neg hpops]
            refine ⟨fun _ => rfl, fun h => absurd ⟨hparts, fun _ => ?_⟩ h⟩
            simpa using htop
      · rw [joinStep_name hplain, namesOf_cons hplain.ne_empty]
        refine ⟨fun _ => ?_, fun h => (hgoes hplain.ne_dots h).elim⟩
        rw [List.filter_cons_of_pos (by simpa using hplain.counts)]
        show part :: namesOf (joinStack parts) = pushRooted ".." (namesOf (joinStack parts)) part
        rw [pushRooted, if_neg hplain.ne_dots]
    · exact ⟨fun h => absurd h.1 hparts, fun _ => mem_joinStep (by simp) (hescaped hparts) hpart⟩

theorem foldl_joinPart_root {names : List String} (h : ∀ name ∈ names, Component name) :
    names.foldl joinPart "/" = rootPath names := by
  induction names using List.reverseRecOn with
  | nil => rfl
  | append_singleton names name ih =>
    have hname : Component name := h name (by simp)
    have hnames : ∀ name ∈ names, Component name := fun name hname => h name (by simp [hname])
    rw [List.foldl_append, ih hnames, List.foldl_cons, List.foldl_nil]
    by_cases hnil : names = []
    · subst hnil
      show joinPart "/" name = "/" ++ joinPart "" name
      rw [joinPart, joinPart, if_neg hname.head, if_neg hname.ne_empty, if_neg (by decide),
        if_pos (by decide), if_neg hname.head, if_neg hname.ne_empty, if_pos rfl]
    · have hlast : ("/" ++ dirPath names).toList.getLast? ≠ some '/' := by
        obtain ⟨hne, hlast⟩ := dirPath_last hnames
        have hlist : (dirPath names).toList ≠ [] := fun hnil =>
          hne (String.toList_inj.mp (hnil.trans rfl))
        rw [String.toList_append, List.getLast?_append_of_ne_nil _ hlist]
        exact hlast
      rw [rootPath, if_neg hnil, rootPath, if_neg (by simp), dirPath_append hnames hname hnil,
        joinPart_component (by simp [String.append_eq_empty_iff]) hlast hname]
      simp only [String.append_assoc]

theorem rootPath_concat {names : List String} {name : String} (h : ∀ name ∈ names, Component name)
    (hname : Component name) : rootPath (names ++ [name]) =
      if names = [] then "/" ++ name else rootPath names ++ "/" ++ name := by
  rw [rootPath, if_neg (by simp)]
  by_cases hnil : names = []
  · rw [hnil, dirPath_concat hname, if_pos rfl, if_pos rfl]
  · rw [dirPath_append h hname hnil, if_neg hnil, rootPath, if_neg hnil]
    simp only [String.append_assoc]

theorem rootPath_absolute (names : List String) : ¬Relative (rootPath names) := by
  rw [Relative, not_not, rootPath]
  split
  · rfl
  · rw [String.toList_append]
    rfl

theorem rootPath_inj {names names' : List String} (h : ∀ name ∈ names, Component name)
    (h' : ∀ name ∈ names', Component name) (heq : rootPath names = rootPath names') :
    names = names' := by
  have hroot {names : List String} (h : ∀ name ∈ names, Component name) :
      rootPath names = "/" ↔ names = [] := by
    rw [rootPath]
    refine ⟨fun heq => ?_, fun hnil => if_pos hnil⟩
    by_contra hne
    rw [if_neg hne] at heq
    have heq' : "/" ++ dirPath names = "/" ++ "" := heq.trans (by simp)
    exact (dirPath_last h).1 ((String.append_right_inj _).mp heq')
  by_cases hne : names = []
  · rw [hne] at heq ⊢
    exact ((hroot h').mp (heq.symm.trans rfl)).symm
  · have hne' : names' ≠ [] := fun hnil => hne ((hroot h).mp (heq.trans (by rw [hnil]; rfl)))
    rw [rootPath, rootPath, if_neg hne, if_neg hne', String.append_right_inj] at heq
    exact dirPath_inj h h' hne hne' heq

theorem components_absolute (h : ¬Relative path) :
    components path = (belowRoot path).filter fun part => Counts part := by
  rw [components, (fileSplit_absolute h).1]
  rfl

/-- What `file-join` makes of an absolute path. -/
theorem fileJoin_absolute (h : ¬Relative d ∨ ¬Relative p) :
    fileJoin d p = rootPath (namesOf (joinStack (rootedParts d p))).reverse := by
  have hslash := rootedParts_noSlash h
  have hnames : namesOf (joinStack (rootedParts d p) ++ ["", "/"]) =
      namesOf (joinStack (rootedParts d p)) ++ ["/"] := by
    rw [namesOf, List.filter_append]
    rfl
  rw [fileJoin_eq_dirPath, joinStack_absolute h, rootedStack_eq hslash, hnames, if_neg (by simp),
    List.reverse_append, ← foldl_joinPart_root (namesOf_component hslash)]
  rfl

/-- **Absolute paths.**  The join of two paths of which one is absolute is absolute, and an
absolute path replaces the directory; it is the lexical resolution exactly if no `..` comes to
the root or to an empty part. -/
theorem file_join_absolute (d p : Path) (h : ¬Relative d ∨ ¬Relative p) :
    ¬Relative (fileJoin d p) ∧ (¬Relative p → ∀ d', fileJoin d' p = fileJoin d p) ∧
      (AbsoluteJoin d p ↔ StaysBelow d p) := by
  have hslash := rootedParts_noSlash h
  have hcomponent := namesOf_component hslash
  have habsolute : ¬Relative (fileJoin d p) := by
    rw [fileJoin_absolute h]
    exact rootPath_absolute _
  have hreplaces : ¬Relative p → ∀ d', fileJoin d' p = fileJoin d p := by
    intro hp d'
    rw [fileJoin_absolute (.inr hp), fileJoin_absolute (.inr hp), rootedParts, rootedParts,
      if_neg hp, if_neg hp]
  obtain ⟨hsame, hescaped⟩ := rootedStack_names hslash
  have hfilter : (rootedParts d p).filter (fun part => Counts part) =
      if Relative p then components d ++ components p else components p := by
    rw [rootedParts]
    split
    · rename_i hp
      rw [List.filter_append, components_absolute (h.resolve_right (not_not.mpr hp)), components]
    · rename_i hp
      rw [components_absolute hp]
  rw [hfilter] at hsame
  refine ⟨habsolute, hreplaces, fun hjoin => ?_, fun hstays => ⟨habsolute, hreplaces, ?_⟩⟩
  · by_contra hnot
    -- a `..` in the path, which the resolution does not have
    have hmem : ".." ∈ (namesOf (joinStack (rootedParts d p))).reverse := by
      rw [List.mem_reverse, namesOf, List.mem_filter]
      exact ⟨hescaped hnot, by decide⟩
    have hresolved : ∀ name ∈ resolveRooted ".."
        ((rootedParts d p).filter fun part => Counts part), Component name := by
      intro name hname
      obtain ⟨hpart, hcounts⟩ := List.mem_filter.mp (resolveRooted_subset _ hname)
      exact ⟨hslash name hpart, fun heq => by simp [heq, Counts] at hcounts⟩
    have heq := hjoin.resolved
    rw [fileJoin_absolute h, ← hfilter] at heq
    rw [rootPath_inj hcomponent hresolved heq] at hmem
    exact up_notMem_resolveRooted _ hmem
  · rw [fileJoin_absolute h, hsame hstays]
    rfl

end

/-- `file-join /abc/def ../ghi` is `/abc/ghi`. -/
theorem file_join_absolute_ghi :
    fileJoin "/abc/def" "../ghi" = "/abc/ghi" ∧ AbsoluteJoin "/abc/def" "../ghi" :=
  ⟨by decide +kernel,
    (file_join_absolute "/abc/def" "../ghi" (.inl (by decide))).2.2.mpr (by decide +kernel)⟩

/-- `file-join /abc ../../ghi`: the `..` at the root is kept. -/
theorem file_join_above_root :
    fileJoin "/abc" "../../ghi" = "/../ghi" ∧ ¬AbsoluteJoin "/abc" "../../ghi" := by
  refine ⟨by decide +kernel, fun h => ?_⟩
  have hresolved := h.resolved
  rw [if_pos (by decide)] at hresolved
  exact absurd hresolved (by decide +kernel)

end Tmake
