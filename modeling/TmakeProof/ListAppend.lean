import TmakeProof.Defines
import TmakeProof.ListSyntax

/-! # Appending to a list

`define-list-append` looks for an argument among the elements of the value, and then
appends it to the value as a string.  The two agree where what is appended reads as
the words that were meant.  `define_list_append` says that this is what matters: the
arguments that are new have to be legible, unless the variable is fixed.
-/
namespace Tmake
open ListSyntax (IsList Legible Word joined span)

/-- A value, read as a list. -/
def tclList (s : String) : List String := (ListSyntax.elements s.toList).map String.ofList

/-- The arguments that are not among the elements, each once. -/
def newArgs : List String → List String → List String
  | _, [] => []
  | elements, arg :: args =>
    if elements.elem arg then newArgs elements args
    else arg :: newArgs (elements ++ [arg]) args

/-- The words, as characters. -/
def chars (ws : List String) : List (List Char) := ws.map String.toList

section
variable {s v value : String} {args ws : List String}

theorem ofList_chars (es : List (List Char)) : chars (es.map String.ofList) = es := by
  rw [chars, List.map_map]
  exact (List.map_congr_left fun e _ => String.toList_ofList).trans (List.map_id es)

theorem chars_ofList (ws : List String) : (chars ws).map String.ofList = ws := by
  rw [chars, List.map_map]
  exact (List.map_congr_left fun w _ => String.ofList_toList).trans (List.map_id ws)

theorem map_ofList_inj {es fs : List (List Char)} :
    es.map String.ofList = fs.map String.ofList ↔ es = fs :=
  ⟨fun h => by rw [← ofList_chars es, h, ofList_chars], fun h => h ▸ rfl⟩

theorem chars_tclList (s : String) : chars (tclList s) = ListSyntax.elements s.toList :=
  ofList_chars _

theorem toList_joinList (ws : List String) : (joinList ws).toList = joined (chars ws) := by
  induction ws with
  | nil => rfl
  | cons w ws ih =>
    by_cases hws : ws = []
    · rw [hws]
      rfl
    · have hchars : chars ws ≠ [] := fun h => hws (List.map_eq_nil_iff.mp h)
      have hjoin : joinList (w :: ws) = w ++ " " ++ joinList ws :=
        String.intercalate_cons_of_ne_nil hws
      have hblank : (" " : String).toList = [' '] := rfl
      have hcons : joined (chars (w :: ws)) = w.toList ++ ' ' :: joined (chars ws) :=
        ListSyntax.joined_cons _ hchars
      rw [hjoin, String.toList_append, String.toList_append, ih, hblank, hcons, List.append_assoc]
      rfl

theorem newArgs_of_nodup (elements : List String) (h : args.Nodup) :
    newArgs elements args = args.filter fun arg => !elements.elem arg := by
  induction args generalizing elements with
  | nil => rfl
  | cons arg args ih =>
    obtain ⟨harg, hargs⟩ := List.nodup_cons.mp h
    rw [newArgs, List.filter_cons, ih _ hargs, ih _ hargs]
    by_cases hmem : elements.elem arg = true
    · rw [if_pos hmem, hmem]
      rfl
    · have hsame : (args.filter fun x => !(elements ++ [arg]).elem x) =
          args.filter fun x => !elements.elem x := by
        refine List.filter_congr fun x hx => ?_
        have hne : x ≠ arg := fun heq => harg (heq ▸ hx)
        simp [hne]
      rw [if_neg hmem, hsame, Bool.eq_false_iff.mpr hmem]
      rfl

theorem mem_newArgs {elements : List String} {a : String} :
    a ∈ newArgs elements args ↔ a ∈ args ∧ a ∉ elements := by
  induction args generalizing elements with
  | nil => simp [newArgs]
  | cons arg args ih =>
    rw [newArgs]
    by_cases harg : arg ∈ elements
    · rw [if_pos (List.elem_iff.mpr harg), ih, List.mem_cons]
      exact ⟨fun h => ⟨.inr h.1, h.2⟩,
        fun h => ⟨h.1.resolve_left fun heq => h.2 (heq ▸ harg), h.2⟩⟩
    · rw [if_neg (List.elem_iff.not.mpr harg), List.mem_cons, ih, List.mem_cons, List.mem_append,
        List.mem_singleton, not_or]
      by_cases ha : a = arg
      · simp [ha, harg]
      · simp [ha]

theorem nodup_newArgs (elements args : List String) : (newArgs elements args).Nodup := by
  induction args generalizing elements with
  | nil => exact List.nodup_nil
  | cons arg args ih =>
    rw [newArgs]
    split
    · exact ih elements
    · refine List.nodup_cons.mpr ⟨fun hmem => ?_, ih _⟩
      exact (mem_newArgs.mp hmem).2 (List.mem_append_right _ (List.mem_singleton_self arg))

/-- What is new is there once, and not among the elements. -/
theorem nodup_append_newArgs {elements : List String} (h : elements.Nodup) (args : List String) :
    (elements ++ newArgs elements args).Nodup :=
  h.append (nodup_newArgs elements args) fun _ hmem hnew => (mem_newArgs.mp hnew).2 hmem

theorem mem_append_newArgs {a : String} (elements : List String) (h : a ∈ args) :
    a ∈ elements ++ newArgs elements args := by
  rw [List.mem_append, mem_newArgs]
  by_cases hmem : a ∈ elements
  · exact .inl hmem
  · exact .inr ⟨h, hmem⟩

end

/-! ## What is appended -/

/-- Words that are appended one after the other. -/
def appended (value : String) (ws : List String) : String := ws.foldl appendWithSpace value

/-- The arguments that the loop of `define-list-append` appends. -/
def taken : List String → String → List String
  | [], _ => []
  | arg :: args, value =>
    if arg ∈ tclList value then taken args value
    else arg :: taken args (appendWithSpace value arg)

/-- The words that stand behind the value: nothing separates an empty word from an empty value. -/
def behind (value : String) (ws : List String) : List String :=
  if value = "" then ws.dropWhile (· = "") else ws

section
variable {v value : String} {args ws : List String}

theorem appendMissing_eq (args : List String) (value : String) :
    appendMissing tclList args value = appended value (taken args value) := by
  induction args generalizing value with
  | nil => rfl
  | cons arg args ih =>
    rw [appendMissing, taken, ih]
    by_cases h : arg ∈ tclList value
    · rw [if_pos h, if_pos h]
    · rw [if_neg h, if_neg h]
      rfl

theorem toList_appendWithSpace (hv : v ≠ "") (w : String) :
    (appendWithSpace v w).toList = v.toList ++ ' ' :: w.toList := by
  rw [appendWithSpace, if_pos hv, String.toList_append, String.toList_append, List.append_assoc]
  rfl

theorem toList_appended (hv : v ≠ "") (hws : ws ≠ []) :
    (appended v ws).toList = v.toList ++ ' ' :: joined (chars ws) := by
  induction ws generalizing v with
  | nil => exact absurd rfl hws
  | cons w ws ih =>
    have hlist := toList_appendWithSpace hv w
    by_cases hnil : ws = []
    · rw [hnil, appended, List.foldl_cons, List.foldl_nil, hlist]
      rfl
    · have hne : appendWithSpace v w ≠ "" := by
        intro h
        rw [h] at hlist
        exact absurd hlist (by simp)
      have hchars : chars ws ≠ [] := fun h => hnil (List.map_eq_nil_iff.mp h)
      have hrest := ih hne hnil
      rw [appended, List.foldl_cons, ← appended, hrest, hlist, chars, chars, List.map_cons,
        ListSyntax.joined_cons _ (by exact hchars), List.append_assoc, List.cons_append]

theorem toList_appended_empty (ws : List String) :
    (appended "" ws).toList = joined (chars (ws.dropWhile (· = ""))) := by
  induction ws with
  | nil => rfl
  | cons w ws ih =>
    by_cases hw : w = ""
    · rw [hw, List.dropWhile_cons_of_pos (by simp)]
      exact ih
    · rw [List.dropWhile_cons_of_neg (by simpa using hw)]
      by_cases hws : ws = []
      · rw [hws]
        rfl
      · have hchars : chars ws ≠ [] := fun h => hws (List.map_eq_nil_iff.mp h)
        have hfirst : appended "" (w :: ws) = appended w ws := rfl
        rw [hfirst, toList_appended hw hws, chars, chars, List.map_cons,
          ListSyntax.joined_cons _ (by exact hchars)]

theorem behind_sublist (v : String) (ws : List String) : (behind v ws).Sublist ws := by
  rw [behind]
  split
  · exact List.dropWhile_sublist _
  · exact List.Sublist.refl ws

/-- The value keeps its elements, and what is appended is read on its own. -/
theorem elements_appended (h : IsList v.toList) (ws : List String) :
    ListSyntax.elements (appended v ws).toList =
      ListSyntax.elements v.toList ++ ListSyntax.elements (joined (chars (behind v ws))) := by
  rw [behind]
  by_cases hv : v = ""
  · rw [if_pos hv, hv, toList_appended_empty]
    rfl
  · rw [if_neg hv]
    by_cases hws : ws = []
    · rw [hws]
      exact (List.append_nil _).symm
    · rw [toList_appended hv hws, ListSyntax.elements_append h rfl]

theorem tclList_appended (h : IsList v.toList) (ws : List String) :
    tclList (appended v ws) =
      tclList v ++ (ListSyntax.elements (joined (chars (behind v ws)))).map String.ofList := by
  rw [tclList, elements_appended h, List.map_append]
  rfl

theorem behind_legible (h : Legible (chars ws)) : behind v ws = ws := by
  rw [behind]
  split
  · cases ws with
    | nil => rfl
    | cons w ws =>
      have hw := (h.1 w.toList List.mem_cons_self).ne_nil
      exact List.dropWhile_cons_of_neg (by
        simp only [decide_eq_true_eq]
        rintro rfl
        exact hw rfl)
  · rfl

/-- Legible words are appended as what they are. -/
theorem tclList_legible (h : IsList v.toList) (hws : Legible (chars ws)) :
    tclList (appended v ws) = tclList v ++ ws := by
  rw [tclList_appended h, behind_legible hws, ListSyntax.elements_joined hws, chars_ofList]

/-- No element of the value is appended again, whatever has become of the rest. -/
theorem taken_sublist (h : IsList v.toList) (args ws : List String) :
    (taken args (appended v ws)).Sublist (args.filter fun arg => !(tclList v).elem arg) := by
  induction args generalizing ws with
  | nil => exact List.Sublist.refl []
  | cons arg args ih =>
    have hmore : appendWithSpace (appended v ws) arg = appended v (ws ++ [arg]) :=
      (List.foldl_concat ..).symm
    rw [taken, hmore]
    -- the value keeps its elements, whatever is read behind them
    by_cases harg : arg ∈ tclList v
    · have hthere : arg ∈ tclList (appended v ws) := by
        rw [tclList_appended h]
        exact List.mem_append_left _ harg
      rw [if_pos hthere, List.filter_cons_of_neg (by simpa using harg)]
      exact ih ws
    · rw [List.filter_cons_of_pos (by simpa using harg)]
      split
      · exact (ih ws).cons arg
      · exact (ih _).cons_cons arg

theorem taken_legible (h : IsList v.toList) (ws : List String)
    (hnew : Legible (chars (ws ++ newArgs (tclList v ++ ws) args))) :
    taken args (appended v ws) = newArgs (tclList v ++ ws) args := by
  induction args generalizing ws with
  | nil => rfl
  | cons arg args ih =>
    have hws : Legible (chars ws) := by
      rw [chars, List.map_append] at hnew
      exact hnew.left
    have hmore : appendWithSpace (appended v ws) arg = appended v (ws ++ [arg]) :=
      (List.foldl_concat ..).symm
    rw [taken, newArgs, tclList_legible h hws, hmore]
    rw [newArgs] at hnew
    by_cases harg : arg ∈ tclList v ++ ws
    · have helem : (tclList v ++ ws).elem arg = true := List.elem_iff.mpr harg
      rw [if_pos helem] at hnew
      rw [if_pos harg, if_pos helem, ih _ hnew]
    · have helem : ¬(tclList v ++ ws).elem arg = true := List.elem_iff.not.mpr harg
      rw [if_neg helem, List.append_assoc, ← List.singleton_append, ← List.append_assoc] at hnew
      rw [if_neg harg, if_neg helem, ih _ hnew, List.append_assoc]

/-- Arguments without repetitions are legible where what is appended reads as what is new. -/
theorem legible_of_taken (h : IsList v.toList) (hargs : args.Nodup)
    (hread : (ListSyntax.elements (joined (chars (behind v (taken args v))))).Perm
      (chars (newArgs (tclList v) args))) : Legible (chars (newArgs (tclList v) args)) := by
  have hbehind : (behind v (taken args v)).Sublist (newArgs (tclList v) args) := by
    rw [newArgs_of_nodup _ hargs]
    exact (behind_sublist _ _).trans (taken_sublist h args [])
  exact (ListSyntax.legible_of_perm (hbehind.map String.toList) hread).2

theorem taken_nil (h : ∀ arg ∈ args, arg ∈ tclList v) : taken args v = [] := by
  induction args with
  | nil => rfl
  | cons arg args ih =>
    rw [taken, if_pos (h arg List.mem_cons_self), ih fun a ha => h a (List.mem_cons_of_mem arg ha)]

end

/-! ## The command -/

section
variable {name : String} {args : List String} {s : Parse}

theorem getDefine_defineListAppend (name : String) (args : List String) (s : Parse) :
    getDefine name (defineListAppend tclList name args s) =
      if name ∈ s.fixedvars then getDefine name s
      else appended (getDefine name s) (taken args (getDefine name s)) := by
  cases args with
  | nil => simp [defineListAppend, taken, appended]
  | cons arg args =>
    have hrun : defineListAppend tclList name (arg :: args) s =
        defineVar .defineListAppend name
          (appendMissing tclList (arg :: args) (getDefine name s)) false s := rfl
    rw [hrun]
    split
    · rw [defineVar_fixed _ ‹_›]
    · rw [getDefine, defineVar_free _ ‹_›, AList.lookup_insert, appendMissing_eq]

/-- The variable has the new arguments behind its elements, each once, and the command does nothing
when it is repeated. -/
structure ListAppended (name : String) (args : List String) (s : Parse) : Prop where
  elements : tclList (getDefine name (defineListAppend tclList name args s)) =
    tclList (getDefine name s) ++ newArgs (tclList (getDefine name s)) args
  nodup : (tclList (getDefine name (defineListAppend tclList name args s))).Nodup
  again : getDefine name (defineListAppend tclList name args (defineListAppend tclList name args s)) =
    getDefine name (defineListAppend tclList name args s)

/-- Nothing is new, or the variable may change and what is new is legible. -/
def Appendable (name : String) (args : List String) (s : Parse) : Prop :=
  newArgs (tclList (getDefine name s)) args = [] ∨
    name ∉ s.fixedvars ∧ Legible (chars (newArgs (tclList (getDefine name s)) args))

theorem ListAppended.of_elements (hnodup : (tclList (getDefine name s)).Nodup)
    (h : tclList (getDefine name (defineListAppend tclList name args s)) =
      tclList (getDefine name s) ++ newArgs (tclList (getDefine name s)) args) :
    ListAppended name args s := by
  refine ⟨h, h ▸ nodup_append_newArgs hnodup args, ?_⟩
  have hthere (arg : String) (harg : arg ∈ args) :
      arg ∈ tclList (getDefine name (defineListAppend tclList name args s)) := by
    rw [h]
    exact mem_append_newArgs _ harg
  rw [getDefine_defineListAppend, taken_nil hthere]
  split <;> rfl

theorem listAppended_of_appendable (hlist : IsList (getDefine name s).toList)
    (hnodup : (tclList (getDefine name s)).Nodup) (h : Appendable name args s) :
    ListAppended name args s := by
  refine .of_elements hnodup ?_
  rw [getDefine_defineListAppend]
  rcases h with hnone | ⟨hfree, hlegible⟩
  · have hthere (arg : String) (harg : arg ∈ args) : arg ∈ tclList (getDefine name s) := by
      have := mem_append_newArgs (tclList (getDefine name s)) harg
      rwa [hnone, List.append_nil] at this
    rw [taken_nil hthere, hnone, List.append_nil]
    split <;> rfl
  · have htaken : taken args (getDefine name s) = newArgs (tclList (getDefine name s)) args := by
      have := taken_legible hlist [] (by simpa using hlegible)
      simpa [appended] using this
    rw [if_neg hfree, htaken, tclList_legible hlist hlegible]

/-- Without repetitions among the arguments, what is appended has to be all that is new. -/
theorem appendable_of_listAppended (hlist : IsList (getDefine name s).toList) (hargs : args.Nodup)
    (h : ListAppended name args s) : Appendable name args s := by
  have helements := h.elements
  rw [getDefine_defineListAppend] at helements
  by_cases hfixed : name ∈ s.fixedvars
  · rw [if_pos hfixed] at helements
    exact .inl (List.append_cancel_left (helements.symm.trans (List.append_nil _).symm))
  · rw [if_neg hfixed] at helements
    rw [tclList_appended hlist] at helements
    have hread := congrArg chars (List.append_cancel_left helements)
    rw [ofList_chars] at hread
    exact .inr ⟨hfixed, legible_of_taken hlist hargs (.of_eq hread)⟩

/-- **Appending to a list.** -/
theorem define_list_append (name : String) (args : List String) (s : Parse)
    (hlist : IsList (getDefine name s).toList) (hnodup : (tclList (getDefine name s)).Nodup) :
    (Appendable name args s → ListAppended name args s) ∧
    (args.Nodup → ListAppended name args s → Appendable name args s) :=
  ⟨listAppended_of_appendable hlist hnodup, appendable_of_listAppended hlist⟩

/-- A list of two paths gets a new one, and one that it has. -/
theorem define_list_append_paths :
    ListAppended "DIRS" ["lib", "src"] { defines := AList.insert "DIRS" ⟨"src doc", .define⟩ ∅ } :=
  (define_list_append "DIRS" ["lib", "src"]
    { defines := AList.insert "DIRS" ⟨"src doc", .define⟩ ∅ } ⟨by decide, by decide⟩
    (by decide)).1 (.inr ⟨by decide, by decide⟩)

/-- An argument with a blank is appended as two elements. -/
theorem define_list_append_blank :
    let s : Parse := { defines := AList.insert "DIRS" ⟨"src doc", .define⟩ ∅ }
    IsList (getDefine "DIRS" s).toList ∧ (tclList (getDefine "DIRS" s)).Nodup ∧
      ¬ListAppended "DIRS" ["my lib"] s := by
  refine ⟨⟨by decide, by decide⟩, by decide, fun h => ?_⟩
  exact absurd h.elements (by decide)

end
end Tmake
