import TmakeProof.Paths
import Mathlib.Data.List.Induction
import Mathlib.Data.List.TakeWhile

/-! # Names of directories

The directories of a project by the names that lead to them from the top, and
what `file-join` and `file dirname` do with their paths.  Only for such paths is
a directory known by its path.
-/
namespace Tmake

/-- What may stand between the slashes of a path. -/
structure Component (name : String) : Prop where
  noSlash : '/' ∉ name.toList
  ne_empty : name ≠ ""

/-- What may be the name of an entry of a directory. -/
structure Plain (name : String) : Prop where
  noSlash : '/' ∉ name.toList
  ne_empty : name ≠ ""
  ne_dot : name ≠ "."
  ne_dots : name ≠ ".."

instance (name : String) : Decidable (Plain name) :=
  decidable_of_iff ('/' ∉ name.toList ∧ name ≠ "" ∧ name ≠ "." ∧ name ≠ "..")
    ⟨fun h => ⟨h.1, h.2.1, h.2.2.1, h.2.2.2⟩, fun h => ⟨h.noSlash, h.ne_empty, h.ne_dot, h.ne_dots⟩⟩

/-- The names that lead from the top to the directory with this path. -/
def dirNames (path : Path) : List String :=
  (fileJoinParts (fileSplit path) []).filter (· ≠ "")

/-- The path of a directory of the project, as seen from the top. -/
structure Inside (path : Path) : Prop where
  ne_empty : path ≠ ""
  plain : ∀ name ∈ dirNames path, Plain name

instance (path : Path) : Decidable (Inside path) :=
  decidable_of_iff (path ≠ "" ∧ ∀ name ∈ dirNames path, Plain name)
    ⟨fun h => ⟨h.1, h.2⟩, fun h => ⟨h.ne_empty, h.plain⟩⟩

/-- The path that leads over these names. -/
def dirPath : List String → Path
  | [] => "."
  | names => names.foldl joinPart ""

/-! ## Splitting -/

theorem splitSlash_ne_nil (cs : List Char) : splitSlash cs ≠ [] := by
  induction cs with
  | nil => exact nofun
  | cons c cs ih =>
    rw [splitSlash]
    cases h : splitSlash cs with
    | nil => exact absurd h ih
    | cons p ps => by_cases hc : c = '/' <;> simp [hc]

/-- A slash separates what stands before it from what stands behind. -/
theorem splitSlash_append (cs ds : List Char) :
    splitSlash (cs ++ '/' :: ds) = splitSlash cs ++ splitSlash ds := by
  induction cs with
  | nil =>
    rw [List.nil_append, splitSlash]
    cases h : splitSlash ds with
    | nil => exact absurd h (splitSlash_ne_nil ds)
    | cons p ps => simp [splitSlash, h]
  | cons c cs ih =>
    rw [List.cons_append, splitSlash, ih, splitSlash]
    cases h : splitSlash cs with
    | nil => exact absurd h (splitSlash_ne_nil cs)
    | cons p ps => by_cases hc : c = '/' <;> simp [hc]

theorem splitSlash_plain {cs : List Char} (h : '/' ∉ cs) : splitSlash cs = [cs] := by
  induction cs with
  | nil => rfl
  | cons c cs ih =>
    have hc : c ≠ '/' := fun hc => h (hc ▸ List.mem_cons_self)
    rw [splitSlash, ih fun hcs => h (List.mem_cons_of_mem _ hcs)]
    simp [hc]

theorem dirNames_top : dirNames "." = [] := by decide

section
variable {name d : String} {names : List String}

theorem Plain.component (h : Plain name) : Component name := ⟨h.noSlash, h.ne_empty⟩

theorem Plain.components (h : ∀ name ∈ names, Plain name) : ∀ name ∈ names, Component name :=
  fun name hname => (h name hname).component

theorem Component.head (h : Component name) : name.toList.head? ≠ some '/' := by
  intro hhead
  exact h.noSlash (List.mem_of_mem_head? hhead)

theorem Component.last (h : Component name) : name.toList.getLast? ≠ some '/' := by
  intro hlast
  exact h.noSlash (List.mem_of_mem_getLast? hlast)

theorem fileSplit_component (h : Component name) : fileSplit name = [name] := by
  rw [fileSplit, if_neg h.ne_empty, splitSlash_plain h.noSlash]
  simp [h.head]

/-- One more name at the end of a path. -/
theorem fileSplit_append {path : Path} (hpath : path ≠ "") (hname : '/' ∉ name.toList) :
    fileSplit (path ++ "/" ++ name) = fileSplit path ++ [name] := by
  have hlist : (path ++ "/" ++ name).toList = path.toList ++ '/' :: name.toList := by
    simp [String.toList_append]
  have hne : path ++ "/" ++ name ≠ "" := by
    intro h
    have := congrArg String.toList h
    rw [hlist] at this
    simp at this
  have hhead : (path.toList ++ '/' :: name.toList).head? = path.toList.head? := by
    cases h : path.toList with
    | nil => exact absurd (String.toList_inj.mp (h.trans rfl)) hpath
    | cons c cs => rfl
  rw [fileSplit, if_neg hne, fileSplit, if_neg hpath, hlist, hhead, splitSlash_append,
    splitSlash_plain hname]
  split <;> simp

/-! ## Joining -/

theorem joinPart_component {acc : String} (hacc : acc ≠ "") (hlast : acc.toList.getLast? ≠ some '/')
    (h : Component d) : joinPart acc d = acc ++ "/" ++ d := by
  rw [joinPart, if_neg h.head, if_neg h.ne_empty, if_neg hacc, if_neg hlast]

theorem dirPath_concat (hd : Component d) :
    dirPath (names ++ [d]) = if names = [] then d else joinPart (dirPath names) d := by
  cases names with
  | nil =>
    show joinPart "" d = d
    rw [joinPart, if_neg hd.head, if_neg hd.ne_empty, if_pos rfl]
  | cons a l =>
    show (a :: l ++ [d]).foldl joinPart "" = joinPart ((a :: l).foldl joinPart "") d
    rw [List.foldl_append]
    rfl

/-- The path over some names is not empty and does not end with a slash. -/
theorem dirPath_last (h : ∀ name ∈ names, Component name) :
    dirPath names ≠ "" ∧ (dirPath names).toList.getLast? ≠ some '/' := by
  induction names using List.reverseRecOn with
  | nil => exact ⟨by decide, by decide⟩
  | append_singleton names d ih =>
    have hd : Component d := h d (by simp)
    have hnames := ih fun name hname => h name (by simp [hname])
    rw [dirPath_concat hd]
    split
    · exact ⟨hd.ne_empty, hd.last⟩
    · rw [joinPart_component hnames.1 hnames.2 hd]
      have hne : d.toList ≠ [] := fun h => hd.ne_empty (String.toList_inj.mp (h.trans rfl))
      constructor
      · intro h
        have := congrArg String.toList h
        simp at this
      · have hsome : d.toList.getLast? = some (d.toList.getLast hne) :=
          List.getLast?_eq_some_getLast hne
        have hlast := hd.last
        rw [hsome] at hlast
        rw [String.toList_append, List.getLast?_append, hsome]
        exact hlast

theorem dirPath_append (h : ∀ name ∈ names, Component name) (hd : Component d) (hne : names ≠ []) :
    dirPath (names ++ [d]) = dirPath names ++ "/" ++ d := by
  rw [dirPath_concat hd, if_neg hne, joinPart_component (dirPath_last h).1 (dirPath_last h).2 hd]

theorem fileSplit_dirPath (h : ∀ name ∈ names, Component name) (hne : names ≠ []) :
    fileSplit (dirPath names) = names := by
  induction names using List.reverseRecOn with
  | nil => exact absurd rfl hne
  | append_singleton names d ih =>
    have hd : Component d := h d (by simp)
    have hnames : ∀ name ∈ names, Component name := fun name hname => h name (by simp [hname])
    by_cases hnil : names = []
    · subst hnil
      rw [dirPath_concat hd, if_pos rfl]
      exact fileSplit_component hd
    · rw [dirPath_append hnames hd hnil, fileSplit_append (dirPath_last hnames).1 hd.noSlash,
        ih hnames hnil]

/-- A part that `file-join` keeps as it is. -/
def KeptPart (part : String) : Prop := part ≠ "." ∧ part ≠ ".." ∧ part.toList.head? ≠ some '/'

theorem Plain.kept (h : Plain name) : KeptPart name := ⟨h.ne_dot, h.ne_dots, h.component.head⟩

theorem fileJoinParts_kept {parts : List String} (h : ∀ part ∈ parts, KeptPart part)
    (result : List String) : fileJoinParts parts result = result.reverse ++ parts := by
  induction parts generalizing result with
  | nil => simp [fileJoinParts]
  | cons part parts ih =>
    obtain ⟨hdot, hdots, hhead⟩ := h part List.mem_cons_self
    have hnot : ¬(part = ".." && decide (result.head? ∉ [some "..", some "", none])) = true := by
      simp [hdots]
    rw [fileJoinParts, if_neg hdot, if_neg hnot, if_neg hhead,
      ih fun p hp => h p (List.mem_cons_of_mem _ hp)]
    simp

theorem fileJoinParts_concat (hd : Plain d) (parts result : List String) :
    fileJoinParts (parts ++ [d]) result = fileJoinParts parts result ++ [d] := by
  induction parts generalizing result with
  | nil =>
    show fileJoinParts [d] result = result.reverse ++ [d]
    exact fileJoinParts_kept (by simpa using hd.kept) result
  | cons part parts ih =>
    rw [List.cons_append, fileJoinParts, fileJoinParts]
    split
    · exact ih result
    · split
      · exact ih result.tail
      · split
        · exact ih [part]
        · exact ih (part :: result)

/-- Empty parts are nothing to `file join`. -/
theorem foldl_joinPart_filter (parts : List String) (acc : String) :
    (parts.filter (· ≠ "")).foldl joinPart acc = parts.foldl joinPart acc := by
  induction parts generalizing acc with
  | nil => rfl
  | cons part parts ih =>
    by_cases h : part = ""
    · subst h
      exact ih acc
    · rw [List.filter_cons_of_pos (by simpa using h)]
      exact ih _

/-- The names of a directory lead to it, and no others do. -/
theorem dirNames_dirPath (h : ∀ name ∈ names, Plain name) : dirNames (dirPath names) = names := by
  by_cases hne : names = []
  · subst hne
    decide
  · rw [dirNames, fileSplit_dirPath (Plain.components h) hne, fileJoinParts_kept fun name hname => (h name hname).kept]
    exact List.filter_eq_self.mpr fun name hname => by simpa using (h name hname).ne_empty

/-- A slash at the end makes no difference. -/
theorem dirNames_slash (h : ∀ name ∈ names, Plain name) (hne : names ≠ []) :
    dirNames (dirPath names ++ "/") = names := by
  have hsplit : fileSplit (dirPath names ++ "/") = names ++ [""] := by
    have happend : fileSplit (dirPath names ++ "/" ++ "") = fileSplit (dirPath names) ++ [""] :=
      fileSplit_append (dirPath_last (Plain.components h)).1 (by decide)
    rwa [String.append_empty, fileSplit_dirPath (Plain.components h) hne] at happend
  have hkept : ∀ part ∈ names ++ [""], KeptPart part := by
    intro part hpart
    rcases List.mem_append.mp hpart with hpart | hpart
    · exact (h part hpart).kept
    · exact List.mem_singleton.mp hpart ▸ ⟨by decide, by decide, by decide⟩
  rw [dirNames, hsplit, fileJoinParts_kept hkept, List.reverse_nil, List.nil_append,
    List.filter_append, List.filter_eq_self.mpr fun name hname => by
      simpa using (h name hname).ne_empty]
  simp

theorem fileJoin_eq (path : Path) (hd : Plain d) :
    fileJoin path d = dirPath (dirNames path ++ [d]) := by
  have hfilter : (fileJoinParts (fileSplit path) [] ++ [d]).filter (· ≠ "") =
      dirNames path ++ [d] := by
    rw [List.filter_append]
    simp [dirNames, hd.ne_empty]
  have hjoin : fileJoin path d =
      (fileJoinParts (fileSplit path) [] ++ [d]).foldl joinPart "" := by
    rw [fileJoin, fileSplit_component hd.component, fileJoinParts_concat hd]
    cases h : fileJoinParts (fileSplit path) [] ++ [d] with
    | nil => exact absurd h (by simp)
    | cons a l => rfl
  rw [hjoin, ← foldl_joinPart_filter, hfilter]
  cases h : dirNames path ++ [d] with
  | nil => exact absurd h (by simp)
  | cons a l => rfl

/-- The directories in a directory of the project are inside, too. -/
theorem Inside.concat {path : Path} (hpath : Inside path) (hd : Plain d) :
    ∀ name ∈ dirNames path ++ [d], Plain name := by
  intro name hname
  rcases List.mem_append.mp hname with hname | hname
  · exact hpath.plain name hname
  · exact List.mem_singleton.mp hname ▸ hd

theorem dirNames_join {path : Path} (hpath : Inside path) (hd : Plain d) :
    dirNames (fileJoin path d) = dirNames path ++ [d] := by
  rw [fileJoin_eq path hd]
  exact dirNames_dirPath (hpath.concat hd)

theorem Inside.join {path : Path} (hpath : Inside path) (hd : Plain d) :
    Inside (fileJoin path d) where
  ne_empty := by
    rw [fileJoin_eq path hd]
    exact (dirPath_last (Plain.components (hpath.concat hd))).1
  plain := dirNames_join hpath hd ▸ hpath.concat hd

theorem dirNames_plain (hd : Plain d) : dirNames d = [d] := by
  have hpath : dirPath [d] = d := by
    rw [← List.nil_append [d], dirPath_concat hd.component, if_pos rfl]
  have hall : ∀ name ∈ [d], Plain name := by simpa using hd
  have hnames := dirNames_dirPath hall
  rwa [hpath] at hnames

/-! ## The directory above -/

theorem fileDirname_append {path : Path} (hpath : path ≠ "") (hd : '/' ∉ d.toList) :
    fileDirname (path ++ "/" ++ d) = path := by
  have hlist : (path ++ "/" ++ d).toList.reverse = d.toList.reverse ++ '/' :: path.toList.reverse := by
    simp [String.toList_append]
  have hdrop : (d.toList.reverse ++ '/' :: path.toList.reverse).dropWhile (· ≠ '/') =
      '/' :: path.toList.reverse := by
    rw [List.dropWhile_append_of_pos]
    · rfl
    · intro c hc
      have hne : c ≠ '/' := fun h => hd (h ▸ List.mem_reverse.mp hc)
      simpa using hne
  have hne : path.toList.reverse ≠ [] := by
    intro h
    exact hpath (String.toList_inj.mp ((List.reverse_eq_nil_iff.mp h).trans rfl))
  rw [fileDirname, hlist, hdrop]
  cases h : path.toList.reverse with
  | nil => exact absurd h hne
  | cons c cs =>
    show String.ofList (c :: cs).reverse = path
    rw [← h, List.reverse_reverse, String.ofList_toList]

theorem fileDirname_dirPath (h : ∀ name ∈ names, Component name) (hd : Component d)
    (hdots : names = [] → d ≠ "..") : fileDirname (dirPath (names ++ [d])) = dirPath names := by
  by_cases hne : names = []
  · subst hne
    have hnot : d.toList.reverse.dropWhile (· ≠ '/') = [] := by
      refine List.dropWhile_eq_nil_iff.mpr fun c hc => ?_
      have hne : c ≠ '/' := fun h => hd.noSlash (h ▸ List.mem_reverse.mp hc)
      simpa using hne
    rw [dirPath_concat hd, if_pos rfl, fileDirname, hnot]
    exact if_neg (hdots rfl)
  · rw [dirPath_append h hd hne]
    exact fileDirname_append (dirPath_last h).1 hd.noSlash

/-- The path of a directory of the project that is written with the names and nothing else. -/
structure Canonical (path : Path) : Prop where
  plain : ∀ name ∈ dirNames path, Plain name
  written : dirPath (dirNames path) = path

variable {path : Path}

theorem Canonical.ne_nil (h : Canonical path) (hne : path ≠ ".") : dirNames path ≠ [] := by
  intro hnil
  have hpath := h.written
  rw [hnil] at hpath
  exact hne hpath.symm

theorem Canonical.fileJoin_eq (h : Canonical path) (hne : path ≠ ".") (hd : Plain d) :
    fileJoin path d = path ++ "/" ++ d := by
  rw [Tmake.fileJoin_eq path hd, dirPath_append (Plain.components h.plain) hd.component
    (h.ne_nil hne), h.written]

theorem Canonical.fileJoin_slash (h : Canonical path) (hne : path ≠ ".") (hd : Plain d) :
    fileJoin (path ++ "/") d = fileJoin path d := by
  have hslash := dirNames_slash h.plain (h.ne_nil hne)
  rw [h.written] at hslash
  rw [Tmake.fileJoin_eq _ hd, Tmake.fileJoin_eq _ hd, hslash]

/-- The directory above. -/
theorem Canonical.dirname (h : Canonical path) (hne : path ≠ ".") :
    Canonical (fileDirname path) ∧ ∃ d, dirNames path = dirNames (fileDirname path) ++ [d] := by
  obtain ⟨names, d, hnames⟩ : ∃ names d, dirNames path = names ++ [d] :=
    ⟨_, _, (List.dropLast_concat_getLast (h.ne_nil hne)).symm⟩
  have hplain := h.plain
  rw [hnames] at hplain
  have hnamesPlain : ∀ name ∈ names, Plain name := fun name hname => hplain name (by simp [hname])
  have hparent : fileDirname path = dirPath names := by
    rw [← h.written, hnames]
    have hd : Plain d := hplain d (by simp)
    exact fileDirname_dirPath (Plain.components hnamesPlain) hd.component fun _ => hd.ne_dots
  have hdirs : dirNames (fileDirname path) = names := by
    rw [hparent]
    exact dirNames_dirPath hnamesPlain
  refine ⟨⟨hdirs.symm ▸ hnamesPlain, ?_⟩, d, by rw [hdirs, hnames]⟩
  rw [hdirs, hparent]

end

theorem inside_top : Inside "." where
  ne_empty := by decide
  plain := by
    intro name hname
    rw [dirNames_top] at hname
    cases hname

end Tmake
